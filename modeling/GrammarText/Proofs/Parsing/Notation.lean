import GrammarText.Proofs.Parsing.Continuations
import GrammarText.Proofs.Parsing.Predictive

/-!
# The notation's own description is exact

In the notation two tokens ahead always tell how to go on (`Description.builtin_predictive`).  So
the parser, which tries alternatives in order and never takes a repetition back, accepts just the
lists of tokens that the description derives as an ordinary grammar, and each by its only tree
(`Tree.ofTokens_exact`).
-/

namespace GrammarText

/-- A tree derives a list of tokens from the start rule of the notation's own description. -/
def Tree.DerivationOf (t : Tree) (tokens : List Token) : Prop :=
  Derives .builtin (closeOf tokens) (.matcher (.rule Description.builtin.start)) tokens [] [t]

/-! ## What the notation derives next -/

namespace Notation

open Wanted (kind word)

def symbolStarts : List Wanted :=
  [word .openBracket, kind .call, kind .nonterminal, kind .barred, kind .terminal, kind .control]

def lineEnds : List Wanted := [kind .newline, kind .eof]

def afterSymbol : List Wanted := symbolStarts ++ kind .label :: lineEnds

/-- What may come after an element of a list that a lookahead is outside of. -/
def afterElement : List Wanted :=
  [kind .terminal, kind .control, word .openBracket, word .comma, word .closeBrace]

/-- The tokens that may come after a rule; after a whole text, anything. -/
def follow : Rule → List (List Wanted)
  | .grammar => [[]]
  | .block | .definition | .blockEnd =>
    [[kind .newline], [kind .call], [kind .nonterminal], [kind .eof]]
  | .head => [[kind .colons]]
  | .param | .paramTail | .arg | .argTail => [[word .comma], [word .closeBracket]]
  | .lineEnd | .production | .terminalLine =>
    (kind .prose :: kind .wrappedProse :: symbolStarts ++ lineEnds).map ([·])
  | .terminal =>
    (word .question :: word .comma :: word .or :: word .closeBracket :: word .closeBrace
      :: afterSymbol).map ([·])
  | .guard => symbolStarts.map ([·])
  | .body => (kind .label :: lineEnds).map ([·])
  | .symbol => afterSymbol.map ([·])
  | .noLineTerminatorHere => (afterSymbol ++ afterElement).map ([·])
  | .nonterminal => (word .but :: word .question :: afterSymbol).map ([·])
  | .sigil | .fixedSigil => [[kind .nonterminal]]
  | .exclusion | .exclusionTail => (word .comma :: word .or :: afterSymbol).map ([·])
  | .lookahead => [[word .closeBracket]]
  | .lookaheadEntry | .lookaheadEntryTail => [[word .comma], [word .closeBrace]]
  | .lookaheadElement => afterElement.map ([·])

/-- The rules that may take no token: the ends of a line and of a block, before the end of the
text. -/
def idle : Rule → Bool
  | .blockEnd | .lineEnd => true
  | _ => false

/-- How many rules may call one another from a rule on before a token is taken. -/
def rank : Rule → Nat
  | .grammar | .production => 5
  | .block | .body => 4
  | .definition | .symbol | .arg | .lookaheadEntry => 3
  | .terminalLine | .exclusion | .lookaheadElement | .sigil => 2
  | .nonterminal | .noLineTerminatorHere | .terminal | .guard | .head => 1
  | _ => 0

/-- The rules at whose end the text may end. -/
def closing : Rule → Bool
  | .block | .definition | .blockEnd | .lineEnd | .production | .terminalLine => true
  | _ => false

end Notation

/-- No rule of the notation calls itself before a token is taken. -/
def Description.builtin_layering : Layering .builtin where
  idle := Notation.idle
  rank := Notation.rank
  idle_of_all := by
    intro r alternatives h
    cases r <;> cases h <;> decide +kernel
  rank_lt := by
    intro r alternatives h
    cases r <;> cases h <;> decide +kernel
  rank_lt_length r := by cases r <;> decide

def Description.builtin_ranking : Ranking .builtin := builtin_layering.ranking

/-- In the notation two tokens ahead tell how to go on. -/
def Description.builtin_predictive : Predictive .builtin where
  toLayering := builtin_layering
  follow := Notation.follow
  guarded := by
    intro r alternatives h
    cases r <;> cases h <;> decide +kernel
  diverge := by
    intro r alternatives h
    cases r <;> cases h <;> decide +kernel

/-- After a whole text anything may come. -/
theorem Description.builtin_follows_start (rest : List Token) :
    builtin_predictive.Follows (.rule builtin.start) rest := by
  rintro r hr
  cases hr
  exact begins_nil_word rest

/-- In the notation only the ends of lines and of blocks look for the end of the text. -/
def Description.builtin_orderly : Orderly .builtin where
  closing := Notation.closing
  body := (Item.rule .block).times .star
  total r := by cases r <;> exact ⟨_, _, rfl⟩
  alternatives_start := rfl
  apt_body := by decide
  apt := by
    intro r alternatives hstart h
    cases r <;> cases h <;> first | exact absurd rfl hstart | decide +kernel

/-! ## The parser is exact -/

namespace Tree

variable {tokens : List Token} {t : Tree}

/-- What is found over all tokens leaves none, as it takes the end of the text. -/
theorem rest_eq_nil (h : Ended tokens) {close : Nat} {peeks : Prop} {ms : List Miss}
    {ts : List Tree} {rest : List Token}
    (ht : Trace .builtin close peeks (.matcher (.rule Description.builtin.start)) tokens ms
      (some (ts, rest))) : rest = [] := by
  obtain ⟨taken, rfl, hd⟩ := ht.derives rfl
  obtain ⟨body, e, us, rfl, he, -, -⟩ := Description.builtin_orderly.start_iff.mp hd
  exact h.eq_nil_of_isEof he (List.append_assoc body [e] rest)

/-- The parser gives a tree just if it derives the tokens up to where the text may end. -/
theorem ofTokens_ok_iff : ofTokens tokens = .ok t ↔ ∃ taken rest, tokens = taken ++ rest ∧
    atEnd rest = true ∧ Derives .builtin (closeOf tokens)
      (.matcher (.rule Description.builtin.start)) taken rest [t] := by
  obtain ⟨ms, res, htrace, hres⟩ :=
    Description.exists_trace Description.builtin_ranking tokens
  constructor
  · intro ht
    rcases hres with ⟨u, rest, rfl, hend, hok⟩ | ⟨-, herror⟩
    · obtain rfl : u = t := by simpa [ofTokens, hok] using ht
      obtain ⟨taken, htokens, hd⟩ := htrace.derives rfl
      exact ⟨taken, rest, htokens, hend, hd⟩
    · simp [ofTokens, herror] at ht
  · rintro ⟨taken, rest, htokens, hend, hd⟩
    obtain rfl : res = some ([t], rest) :=
      htrace.finds Description.builtin_predictive taken rest [t] htokens
        (Description.builtin_follows_start rest) hd
    rcases hres with ⟨u, rest', hu, -, hok⟩ | ⟨hmiss, -⟩
    · obtain ⟨rfl, rfl⟩ : t = u ∧ rest = rest' := by simpa using hu
      exact hok
    · simp [hmiss [t] rest rfl] at hend

/-- A tree that the parser gives derives the tokens. -/
theorem derivationOf_of_ofTokens (h : Ended tokens) (ht : ofTokens tokens = .ok t) :
    t.DerivationOf tokens := by
  obtain ⟨taken, rest, htokens, -, hd⟩ := ofTokens_ok_iff.mp ht
  -- The end of the text is taken, and no token stands behind it.
  obtain ⟨body, e, us, rfl, he, -, -⟩ := Description.builtin_orderly.start_iff.mp hd
  obtain rfl := h.eq_nil_of_isEof he (htokens.trans (List.append_assoc body [e] rest))
  rw [List.append_nil] at htokens
  rw [DerivationOf, htokens]
  rwa [htokens] at hd

/-- The parser gives each tree that derives the tokens. -/
theorem ofTokens_of_derivationOf (h : t.DerivationOf tokens) : ofTokens tokens = .ok t :=
  ofTokens_ok_iff.mpr ⟨tokens, [], by simp, rfl, h⟩

/-- The parser accepts just the lists of tokens that the notation's own description derives as an
ordinary grammar, where any alternative may be taken and a repetition may end after any round, and
the tree that it gives is the only one. -/
theorem ofTokens_exact (h : Ended tokens) :
    ((∃ t, ofTokens tokens = .ok t) ↔ ∃ t : Tree, t.DerivationOf tokens) ∧
    ∀ t, ofTokens tokens = .ok t →
      t.DerivationOf tokens ∧ ∀ u : Tree, u.DerivationOf tokens → u = t := by
  refine ⟨⟨?_, ?_⟩, ?_⟩
  · rintro ⟨t, ht⟩
    exact ⟨t, derivationOf_of_ofTokens h ht⟩
  · rintro ⟨t, ht⟩
    exact ⟨t, ofTokens_of_derivationOf ht⟩
  · intro t ht
    refine ⟨derivationOf_of_ofTokens h ht, fun u hu => ?_⟩
    have hu := ofTokens_of_derivationOf hu
    simpa [hu] using ht

/-- A definition of one production is read so. -/
theorem ofTokens_exact_definition :
    let tokens : List Token := [⟨.nonterminal "A", 0, 1⟩, ⟨.colons ":", 1, 2⟩, ⟨.newline, 2, 3⟩,
      ⟨.terminal "\x60x\x60", 3, 6⟩, ⟨.eof, 6, 6⟩]
    Ended tokens ∧
      ∃ t : Tree, t.DerivationOf tokens ∧ ∀ u : Tree, u.DerivationOf tokens → u = t := by
  intro tokens
  have hended : Ended tokens := ⟨tokens.dropLast, ⟨.eof, 6, 6⟩, rfl, rfl, by decide⟩
  have hok : (ofTokens tokens).isOk = true := by decide +kernel
  cases ht : ofTokens tokens with
  | ok t => exact ⟨hended, t, (ofTokens_exact hended).2 t ht⟩
  | error e => simp [ht, Except.isOk, Except.toBool] at hok

end Tree
end GrammarText
