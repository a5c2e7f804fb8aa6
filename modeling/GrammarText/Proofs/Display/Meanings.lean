import GrammarText.Proofs.Display.Reads
import GrammarText.Proofs.Reduction.Sources

/-!
# What the lexemes of a display are read as

For each rule: the lexemes of a part that fits are read by the rule as that part.
-/

namespace GrammarText

open Reading

/-! ## Signs and arguments -/

theorem means_fixedSigil (value : Bool) :
    Means .fixedSigil [.reserved (if value then .plus else .tilde)]
      (· = .sigil (.fixed value)) := by
  cases value with
  | false =>
    exact ((reads_word .tilde).cons reads_nil).node (k := 0) rfl rfl fun _ _ _ _ => yields_pure rfl
  | true =>
    exact ((reads_word .plus).cons reads_nil).node (k := 1) rfl rfl fun _ _ _ _ => yields_pure rfl

def Argument.sigil : Argument → Sigil
  | fixed value => .fixed value
  | var _ => .pass

theorem means_sigil (param : String) (a : Argument) :
    ∃ w, a.lexemes param = [.reserved w, .nonterminal param] ∧
      Means .sigil [.reserved w] (· = .sigil a.sigil) := by
  cases a with
  | fixed value =>
    refine ⟨_, rfl, ((means_fixedSigil value).reads.cons reads_nil).node (k := 0) rfl rfl ?_⟩
    rintro start stop _ ⟨_, _, rfl, ⟨_, rfl, rfl⟩, rfl⟩
    exact yields_pure rfl
  | var name =>
    exact ⟨_, rfl, ((reads_word .question).cons reads_nil).node (k := 1) rfl rfl
      fun _ _ _ _ => yields_pure rfl⟩

theorem means_arg {param : String} {a : Argument} (h : a.Fits Lexeme.Written param) :
    Means .arg (a.lexemes param) fun p => ∃ x, p = .arg x ∧ x.key = (param, a) := by
  obtain ⟨w, hw, hsigil⟩ := means_sigil param a
  rw [hw]
  refine (hsigil.reads.cons ((reads_token rfl).cons reads_nil)).node (k := 0) rfl rfl ?_
  rintro start stop _ ⟨_, _, rfl, ⟨_, rfl, rfl⟩, _, _, rfl, ⟨t, rfl, ht⟩, rfl⟩
  refine yields_pure ⟨_, rfl, ?_⟩
  have htext : t.text = param := by rw [Token.text, ht, Lexeme.text]
  rcases h.2 with ⟨value, rfl⟩ | rfl <;> simp [PassedArgument.key, Argument.sigil, htext]

theorem means_argTail {param : String} {a : Argument} (h : a.Fits Lexeme.Written param) :
    Means .argTail (.reserved .comma :: a.lexemes param)
      fun p => ∃ x, p = .arg x ∧ x.key = (param, a) := by
  refine ((reads_word .comma).cons ((means_arg h).reads.cons reads_nil)).node (k := 0) rfl
    (by simp) ?_
  rintro start stop _ ⟨_, _, rfl, ⟨t, rfl⟩, _, _, rfl, ⟨_, rfl, x, rfl, hx⟩, rfl⟩
  exact yields_pure ⟨x, rfl, hx⟩

/-! ## Nonterminals and terminals -/

theorem separated_cons (between ls : List Lexeme) (lss : List (List Lexeme)) :
    separated between (ls :: lss) = ls ++ lss.flatMap (between ++ ·) := rfl

theorem means_nonterminal {s : Symbol} (h : s.Refers Lexeme.Written) :
    Means .nonterminal s.lexemes (· = .symbol s) := by
  cases s with
  | nonterminal name =>
    refine ((reads_token rfl).cons reads_nil).node (k := 1) rfl rfl ?_
    rintro start stop _ ⟨_, _, rfl, ⟨t, rfl, ht⟩, rfl⟩
    refine yields_pure ?_
    rw [Token.text, ht, Lexeme.text]
  | apply name args =>
    obtain ⟨-, hne, hnodup, hargs⟩ := h
    obtain ⟨⟨param, a⟩, args, rfl⟩ := List.exists_cons_of_ne_nil hne
    rw [List.forall_mem_cons] at hargs
    have htails := reads_star fun x hx => means_argTail (hargs.2 x hx)
    refine ((reads_token (l := .call name) rfl).cons ((reads_word .openBracket).cons
      ((means_arg hargs.1).reads.cons (htails.cons ((reads_word .closeBracket).cons
        reads_nil))))).node (k := 0) rfl ?_ ?_
    · simp [Symbol.lexemes, separated_cons, List.flatMap_map]
    · rintro start stop _ ⟨_, _, rfl, ⟨t, rfl, ht⟩, _, _, rfl, ⟨u, rfl⟩, _, _, rfl,
        ⟨_, rfl, x, rfl, hx⟩, _, _, rfl, ⟨xs, rfl, hxs⟩, _, _, rfl, ⟨v, rfl⟩, rfl⟩
      -- The names passed are those of the symbol that was read once, so none is passed twice.
      have hkeys : (x :: xs).map PassedArgument.key = (param, a) :: args := by simp [hx, hxs]
      have hnames : (x :: xs).map PassedArgument.name = ((param, a) :: args).map Prod.fst := by
        rw [← hkeys, List.map_map]
        rfl
      have hrepeated : Reduction.repeatedArgument? [] (x :: xs) = none := by
        rw [repeatedArgument?_eq_none, hnames]
        exact ⟨hnodup, by simp⟩
      refine yields_apply (fun b hb => ?_) fun _ => ?_
      · rw [hrepeated] at hb
        cases hb
      · rw [hkeys, Token.text, ht, Lexeme.text]
  | _ => exact absurd h (by simp [Symbol.Refers])

/-- A token is read as the terminal of its spelling. -/
theorem Token.Spells.means {t : Token} {s : String} (h : t.Spells s) :
    Means .terminal [t.lexeme] fun p => ∃ span, p = .terminal s span := by
  rcases h with ⟨q, ht, hq⟩ | ht
  · rw [ht]
    refine ((reads_token rfl).cons reads_nil).node (k := 0) rfl rfl ?_
    rintro start stop _ ⟨_, _, rfl, ⟨u, rfl, hu⟩, rfl⟩
    refine yields_terminal hu (fun hnone => ?_) fun cs hcs => ?_
    · rw [hq] at hnone
      cases hnone
    · obtain rfl : s.toList = cs := Option.some.inj (hq.symm.trans hcs)
      exact ⟨u.span, by rw [String.ofList_toList]⟩
  · rw [ht]
    refine ((reads_token rfl).cons reads_nil).node (k := 1) rfl rfl ?_
    rintro start stop _ ⟨_, _, rfl, ⟨u, rfl, hu⟩, rfl⟩
    have hrun : (Reduction.node ⟨.terminal, 1, start, stop⟩).run' [.token u] =
        pure (.terminal s u.span) := by
      simp only [Reduction.node, Reduction.terminal, StateT.run'_eq, StateT.run_bind, run_token,
        pure_bind, hu]
      rfl
    exact hrun ▸ yields_pure ⟨u.span, rfl⟩

def quotedToken (s : String) : Token := ⟨.terminal (Text.quoted s), 0, 0⟩

theorem Spelled.spells {s : String} (h : Spelled Lexeme.Written s) : (quotedToken s).Spells s := by
  have hne : s.toList ≠ [] := by
    intro hnil
    have hquoted := h.isTerminal
    rw [Text.quoted, String.toList_ofList, hnil] at hquoted
    exact hquoted.unquote?_ne_none rfl
  refine .inl ⟨Text.quoted s, rfl, ?_⟩
  rw [Text.quoted, String.toList_ofList, Text.unquote?_quote hne]

theorem means_terminal {s : String} (h : Spelled Lexeme.Written s) :
    Means .terminal [.terminal (Text.quoted s)] fun p => ∃ span, p = .terminal s span :=
  h.spells.means

/-! ## Exclusions -/

theorem means_exclusion {e : Exclusion} (h : e.Fits Lexeme.Written) :
    Means .exclusion e.lexemes (· = .exclusion e) := by
  cases e with
  | terminal spelling =>
    refine ((means_terminal h).reads.cons reads_nil).node (k := 1) rfl rfl ?_
    rintro start stop _ ⟨_, _, rfl, ⟨_, rfl, span, rfl⟩, rfl⟩
    exact yields_pure rfl
  | nonterminal name =>
    refine ((reads_token rfl).cons reads_nil).node (k := 2) rfl rfl ?_
    rintro start stop _ ⟨_, _, rfl, ⟨t, rfl, ht⟩, rfl⟩
    refine yields_pure ?_
    rw [Token.text, ht, Lexeme.text]
  | range low high =>
    refine ((reads_token rfl).cons ((reads_word .through).cons ((reads_token rfl).cons
      reads_nil))).node (k := 0) rfl rfl ?_
    rintro start stop _ ⟨_, _, rfl, ⟨t, rfl, ht⟩, _, _, rfl, ⟨u, rfl⟩, _, _, rfl, ⟨v, rfl, hv⟩, rfl⟩
    refine yields_pure ?_
    simp only [Token.text, ht, hv, Lexeme.text]

theorem means_exclusionTail {e : Exclusion} (h : e.Fits Lexeme.Written) :
    Means .exclusionTail (.reserved .or :: e.lexemes) (· = .exclusion e) := by
  refine ((reads_word .or).cons ((means_exclusion h).reads.cons reads_nil)).node (k := 1) rfl
    (by simp) ?_
  rintro start stop _ ⟨_, _, rfl, ⟨t, rfl⟩, _, _, rfl, ⟨_, rfl, rfl⟩, rfl⟩
  exact yields_pure rfl

/-! ## Lookaheads -/

theorem means_lookaheadElement {t : Token} {s : String} (h : t.Spells s) :
    Means .lookaheadElement [t.lexeme] (· = .element (.terminal s)) := by
  refine (h.means.reads.cons reads_nil).node (k := 0) rfl rfl ?_
  rintro start stop _ ⟨_, _, rfl, ⟨_, rfl, span, rfl⟩, rfl⟩
  exact yields_pure rfl

/-- A token of a set is an entry of one element. -/
theorem means_lookaheadEntry {t : Token} {s : String} (h : t.Spells s) :
    Means .lookaheadEntry [t.lexeme] fun p => ∃ e, p = .entry e ∧ e.single? = some s := by
  have helements := reads_plus (v := id) (w := fun _ => LookaheadElement.terminal s)
    (f := fun u => [u.lexeme]) (List.cons_ne_nil t [])
    (List.forall_mem_singleton.mpr ((means_lookaheadElement h).mono fun _ hp => ⟨_, hp, rfl⟩))
  refine (helements.cons reads_nil).node (k := 0) rfl rfl ?_
  rintro start stop _ ⟨_, _, rfl, ⟨es, rfl, hes⟩, rfl⟩
  obtain rfl : es = [.terminal s] := by simpa using hes
  exact yields_pure ⟨_, rfl, rfl⟩

theorem means_lookaheadEntryTail {t : Token} {s : String} (h : t.Spells s) :
    Means .lookaheadEntryTail [.reserved .comma, t.lexeme]
      fun p => ∃ e, p = .entry e ∧ e.single? = some s := by
  refine ((reads_word .comma).cons ((means_lookaheadEntry h).reads.cons reads_nil)).node (k := 0)
    rfl rfl ?_
  rintro start stop _ ⟨_, _, rfl, ⟨t, rfl⟩, _, _, rfl, ⟨_, rfl, e, rfl, he⟩, rfl⟩
  exact yields_pure ⟨e, rfl, he⟩

/-- Entries of one token each are read as these tokens. -/
theorem run_singleTokens {es : List LookaheadEntry} {ss : List String} {ps : List Phrase}
    (h : es.map LookaheadEntry.single? = ss.map some) :
    StateT.run (Reduction.singleTokens es) ps = pure (ss, ps) := by
  induction es generalizing ss with
  | nil =>
    obtain rfl := List.map_eq_nil_iff.mp h.symm
    rfl
  | cons e es ih =>
    cases ss with
    | nil => cases h
    | cons s ss =>
      obtain ⟨hs, hss⟩ := List.cons_eq_cons.mp h
      simp [Reduction.singleTokens, hs, ih hss]

/-- Tokens between braces are read as the set of their spellings. -/
theorem means_tokenSet {xs : List (Token × String)} (hne : xs ≠ [])
    (hxs : ∀ x ∈ xs, x.1.Spells x.2) :
    Means .lookahead (.reserved .outside :: .reserved .openBrace ::
        (separated [.reserved .comma] (xs.map fun x => [x.1.lexeme]) ++ [.reserved .closeBrace]))
      (· = .lookahead (.tokenSet (.ofList (xs.map Prod.snd)) false)) := by
  obtain ⟨x, xs, rfl⟩ := List.exists_cons_of_ne_nil hne
  rw [List.forall_mem_cons] at hxs
  have htails := reads_star fun x hx => means_lookaheadEntryTail (hxs.2 x hx)
  refine ((reads_word .outside).cons ((reads_word .openBrace).cons
    ((means_lookaheadEntry hxs.1).reads.cons (htails.cons ((reads_word .closeBrace).cons
      reads_nil))))).node (k := 2) rfl ?_ ?_
  · simp [separated_cons, List.flatMap_map]
  · rintro start stop _ ⟨_, _, rfl, ⟨t, rfl⟩, _, _, rfl, ⟨u, rfl⟩, _, _, rfl,
      ⟨_, rfl, e, rfl, he⟩, _, _, rfl, ⟨es, rfl, hes⟩, _, _, rfl, ⟨v, rfl⟩, rfl⟩
    have hrun (ps) : StateT.run (Reduction.singleTokens (e :: es)) ps =
        pure ((x :: xs).map Prod.snd, ps) := run_singleTokens (by simp [he, hes])
    refine yields_tokenSet ?_
    rw [hrun]
    exact yields_pure rfl

theorem means_lookahead {l : Lookahead} (h : l.Fits Lexeme.Written) :
    Means .lookahead l.lexemes (· = .lookahead l) := by
  cases l with
  | tokenSet tokens positive =>
    rcases tokenSet_cases h with ⟨s, rfl, hs⟩ | ⟨rfl, s, s', ss, hset, htokens, hss⟩
    · rw [Lookahead.lexemes, toList_ofList_singleton]
      cases positive with
      | true =>
        refine ((reads_word .equal).cons ((means_terminal hs).reads.cons reads_nil)).node (k := 0)
          rfl rfl ?_
        rintro start stop _ ⟨_, _, rfl, ⟨t, rfl⟩, _, _, rfl, ⟨_, rfl, span, rfl⟩, rfl⟩
        exact yields_pure rfl
      | false =>
        refine ((reads_word .unequal).cons ((means_terminal hs).reads.cons reads_nil)).node (k := 1)
          rfl rfl ?_
        rintro start stop _ ⟨_, _, rfl, ⟨t, rfl⟩, _, _, rfl, ⟨_, rfl, span, rfl⟩, rfl⟩
        exact yields_pure rfl
    · have hspells : ∀ x ∈ (s :: s' :: ss).map fun t => (quotedToken t, t), x.1.Spells x.2 :=
        List.forall_mem_map.mpr fun t ht => (hss t ht).spells
      have hquoted := means_tokenSet (by simp) hspells
      simp only [Lookahead.lexemes, htokens]
      rw [hset]
      simpa [quotedToken, Function.comp_def] using hquoted
  | notNonterminal name =>
    refine ((reads_word .outside).cons ((reads_token rfl).cons reads_nil)).node (k := 3) rfl rfl ?_
    rintro start stop _ ⟨_, _, rfl, ⟨t, rfl⟩, _, _, rfl, ⟨u, rfl, hu⟩, rfl⟩
    refine yields_pure ?_
    rw [Token.text, hu, Lexeme.text]

/-! ## Symbols -/

theorem means_noLineTerminatorHere :
    Means .noLineTerminatorHere Symbol.noLineTerminatorHere.lexemes
      (· = .symbol .noLineTerminatorHere) := by
  refine ((reads_word .openBracket).cons ((reads_word .no).cons ((reads_token rfl).cons
    ((reads_word .here).cons ((reads_word .closeBracket).cons reads_nil))))).node (k := 0)
    rfl rfl ?_
  rintro start stop _ ⟨_, _, rfl, ⟨t, rfl⟩, _, _, rfl, ⟨u, rfl⟩, _, _, rfl, ⟨v, rfl, hv⟩, _, _, rfl,
    ⟨w, rfl⟩, _, _, rfl, ⟨x, rfl⟩, rfl⟩
  refine yields_noLineTerminatorHere rfl fun hne => ?_
  exact hne (by rw [Token.text, hv, Lexeme.text])

theorem means_symbol_refers {s : Symbol} (h : s.Refers Lexeme.Written) :
    Means .symbol s.lexemes (· = .symbol s) := by
  refine ((means_nonterminal h).reads.cons reads_nil).node (k := 3) rfl (by simp) ?_
  rintro start stop _ ⟨_, _, rfl, ⟨_, rfl, rfl⟩, rfl⟩
  exact yields_pure rfl

theorem means_symbol_optional {s : Symbol} (h : (Symbol.optional s).Fits Lexeme.Written) :
    Means .symbol (Symbol.optional s).lexemes (· = .symbol (.optional s)) := by
  rcases h with h | h | ⟨spelling, rfl, h⟩
  · exact absurd h not_false
  · refine ((means_nonterminal h).reads.cons ((reads_word .question).cons reads_nil)).node (k := 2)
      rfl (by simp [Symbol.lexemes]) ?_
    rintro start stop _ ⟨_, _, rfl, ⟨_, rfl, rfl⟩, _, _, rfl, ⟨t, rfl⟩, rfl⟩
    exact yields_pure rfl
  · refine ((means_terminal h).reads.cons ((reads_word .question).cons reads_nil)).node (k := 4)
      rfl rfl ?_
    rintro start stop _ ⟨_, _, rfl, ⟨_, rfl, span, rfl⟩, _, _, rfl, ⟨t, rfl⟩, rfl⟩
    exact fun _ => rfl

theorem means_symbol_exclusion {base : Symbol} {es : List Exclusion}
    (h : (Symbol.exclusion base es).Fits Lexeme.Written) :
    Means .symbol (Symbol.exclusion base es).lexemes (· = .symbol (.exclusion base es)) := by
  rcases h with h | ⟨hbase, hne, hes⟩
  · exact absurd h not_false
  obtain ⟨e, es, rfl⟩ := List.exists_cons_of_ne_nil hne
  rw [List.forall_mem_cons] at hes
  cases es with
  | nil =>
    refine ((means_nonterminal hbase).reads.cons ((reads_word .but).cons ((reads_word .not).cons
      ((means_exclusion hes.1).reads.cons reads_nil)))).node (k := 1) rfl ?_ ?_
    · simp [Symbol.lexemes, separated_cons]
    · rintro start stop _ ⟨_, _, rfl, ⟨_, rfl, rfl⟩, _, _, rfl, ⟨t, rfl⟩, _, _, rfl, ⟨u, rfl⟩,
        _, _, rfl, ⟨_, rfl, rfl⟩, rfl⟩
      exact yields_pure rfl
  | cons e' es =>
    have htails := reads_star (v := id) (w := id) fun x hx =>
      (means_exclusionTail (hes.2 x hx)).mono fun _ hp => ⟨x, hp, rfl⟩
    refine ((means_nonterminal hbase).reads.cons ((reads_word .but).cons ((reads_word .not).cons
      ((reads_word .one).cons ((reads_word .of).cons ((means_exclusion hes.1).reads.cons
        (htails.cons reads_nil))))))).node (k := 0) rfl ?_ ?_
    · simp [Symbol.lexemes, separated_cons, List.flatMap_map]
    · rintro start stop _ ⟨_, _, rfl, ⟨_, rfl, rfl⟩, _, _, rfl, ⟨t, rfl⟩, _, _, rfl, ⟨u, rfl⟩,
        _, _, rfl, ⟨v, rfl⟩, _, _, rfl, ⟨w, rfl⟩, _, _, rfl, ⟨_, rfl, rfl⟩, _, _, rfl,
        ⟨xs, rfl, hxs⟩, rfl⟩
      obtain rfl : xs = e' :: es := by simpa using hxs
      exact yields_exclusions rfl

theorem means_symbol {s : Symbol} (h : s.Fits Lexeme.Written) :
    Means .symbol s.lexemes (· = .symbol s) := by
  cases s with
  | terminal spelling =>
    have hspelled := h.resolve_left not_false
    refine ((means_terminal hspelled).reads.cons reads_nil).node (k := 5) rfl rfl ?_
    rintro start stop _ ⟨_, _, rfl, ⟨_, rfl, span, rfl⟩, rfl⟩
    exact fun _ => rfl
  | nonterminal name => exact means_symbol_refers (h.resolve_right not_false)
  | apply name args => exact means_symbol_refers (h.resolve_right not_false)
  | optional inner => exact means_symbol_optional h
  | exclusion base exclusions => exact means_symbol_exclusion h
  | lookahead rule =>
    have hrule := h.resolve_left not_false
    refine ((reads_word .openBracket).cons ((reads_word .lookahead).cons
      ((means_lookahead hrule).reads.cons ((reads_word .closeBracket).cons reads_nil)))).node
      (k := 6) rfl (by simp [Symbol.lexemes]) ?_
    rintro start stop _ ⟨_, _, rfl, ⟨t, rfl⟩, _, _, rfl, ⟨u, rfl⟩, _, _, rfl, ⟨_, rfl, rfl⟩, _, _,
      rfl, ⟨v, rfl⟩, rfl⟩
    exact yields_pure rfl
  | noLineTerminatorHere =>
    refine (means_noLineTerminatorHere.reads.cons reads_nil).node (k := 7) rfl (by simp) ?_
    rintro start stop _ ⟨_, _, rfl, ⟨_, rfl, rfl⟩, rfl⟩
    exact yields_pure rfl

end GrammarText
