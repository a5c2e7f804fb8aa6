import GrammarText.Proofs.Parsing.Chosen
import GrammarText.Proofs.Parsing.Refusal

/-!
# Leftovers: where the error for tokens that are left over is put

Where the start rule is matched but tokens are left over, the error is put at the farthest place at
which something was asked for in vain, and at the first token if nothing was.  The token that is
left over plays no part in this, so the error is put there or farther on just if something was asked
for in vain there or farther on (`Description.parse_leftover`), and otherwise at a token that the
match has taken (`Description.parse_leftover_taken`).
-/

namespace GrammarText

def errorAt (tokens : List Token) (expected : String) (pos : Nat) : ParseError :=
  match tokens[pos]? with
  | some t =>
    if t.isEof then .unexpectedEnd expected (.point t.start)
    else .unexpectedToken expected ⟨t.start, max t.stop (t.start + 1)⟩
  | none => .unexpectedEnd expected (.point (closeOf tokens))

def Miss.placeIn (m : Miss) (tokens : List Token) : Nat := tokens.length - m.left

section Places

variable {tokens : List Token} {misses : List Miss}

/-- The farthest place at which something was asked for in vain, or the start. -/
def farthestPlace (tokens : List Token) (misses : List Miss) : Nat :=
  tokens.length - farthestLeft tokens.length misses

theorem placeIn_le_farthestPlace {m : Miss} (h : m ∈ misses) :
    m.placeIn tokens ≤ farthestPlace tokens misses :=
  Nat.sub_le_sub_left (farthestLeft_le_of_mem h) _

theorem farthestPlace_eq_or (tokens : List Token) (misses : List Miss) :
    farthestPlace tokens misses = 0 ∨
      ∃ m ∈ misses, farthestPlace tokens misses = m.placeIn tokens := by
  rcases farthestLeft_eq_or tokens.length misses with h | ⟨m, hm, h⟩
  · exact .inl (by rw [farthestPlace, h, Nat.sub_self])
  · exact .inr ⟨m, hm, by rw [farthestPlace, Miss.placeIn, h]⟩

/-- The farthest place lies at a place or behind it just if a miss does, or if it is the start. -/
theorem le_farthestPlace_iff {n : Nat} : n ≤ farthestPlace tokens misses ↔
    n = 0 ∨ ∃ m ∈ misses, n ≤ m.placeIn tokens := by
  constructor
  · intro h
    rcases farthestPlace_eq_or tokens misses with h0 | ⟨m, hm, heq⟩
    · exact .inl (by omega)
    · exact .inr ⟨m, hm, by omega⟩
  · rintro (rfl | ⟨m, hm, hle⟩)
    · exact Nat.zero_le _
    · exact Nat.le_trans hle (placeIn_le_farthestPlace hm)

def askedFarthest (tokens : List Token) (misses : List Miss) : List Wanted :=
  (misses.filter (·.left = farthestLeft tokens.length misses)).map Miss.wanted

theorem farthestError_eq_errorAt (tokens : List Token) (misses : List Miss) :
    farthestError tokens (closeOf tokens) misses =
      errorAt tokens (expectation (askedFarthest tokens misses)) (farthestPlace tokens misses) := by
  rw [farthestError, errorAt, ← List.head?_drop, askedFarthest, farthestPlace]
  cases tokens.drop (tokens.length - farthestLeft tokens.length misses) <;> rfl

end Places

namespace Description

variable {g : Description} {tokens : List Token} {n : Nat} {t : Token} {tree : Tree}

/-- Where the start rule is matched up to a token that does not end the text, the error is put at
the farthest place at which the match has asked for something in vain, at the first token if it has
not, and names what was asked for there.  It is put at the token left over or farther on just if
something was asked for in vain there or farther on, or if the match has taken nothing. -/
theorem parse_leftover (hmatch : (g.matcherAt tokens (.rule g.start) 0).outcome =
      .hit tree (tokens.drop n)) (ht : tokens[n]? = some t) (hend : t.isEof = false) :
    let misses := (g.matcherAt tokens (.rule g.start) 0).misses
    let k := farthestPlace tokens misses
    g.parse tokens = .error (errorAt tokens (expectation (askedFarthest tokens misses)) k) ∧
      (∀ m ∈ misses, m.placeIn tokens ≤ k) ∧ (k = 0 ∨ ∃ m ∈ misses, k = m.placeIn tokens) ∧
      (n ≤ k ↔ n = 0 ∨ ∃ m ∈ misses, n ≤ m.placeIn tokens) := by
  intro misses k
  refine ⟨?_, fun m hm => placeIn_le_farthestPlace hm, farthestPlace_eq_or tokens misses,
    le_farthestPlace_iff⟩
  have hleft : atEnd (tokens.drop n) = false := by
    obtain ⟨hlt, rfl⟩ := List.getElem?_eq_some_iff.mp ht
    rw [List.drop_eq_getElem_cons hlt]
    exact hend
  have hparse : g.parse tokens = .error (farthestError tokens (closeOf tokens) misses) := by
    rw [matcherAt, List.drop_zero, Matcher.attempt] at hmatch
    simp [parse, hmatch, hleft, misses, matcherAt, Matcher.attempt]
  rw [hparse, farthestError_eq_errorAt]

def oneName : Description := ⟨.grammar, [(.grammar, [[.token .nonterminal]])]⟩

def oneName_layering : Layering oneName where
  idle _ := false
  rank _ := 0
  idle_of_all := by
    intro r alternatives h
    cases r <;> cases h
    decide
  rank_lt := by
    intro r alternatives h
    cases r <;> cases h
    decide
  rank_lt_length _ := by decide

/-- The second of two names is left over where one is asked for. -/
theorem parse_leftover_oneName :
    let tokens : List Token := [⟨.nonterminal "A", 0, 1⟩, ⟨.nonterminal "B", 2, 3⟩, ⟨.eof, 3, 3⟩]
    let misses := (oneName.matcherAt tokens (.rule .grammar) 0).misses
    ∃ tree, (oneName.matcherAt tokens (.rule .grammar) 0).outcome = .hit tree (tokens.drop 1) ∧
      tokens[1]? = some ⟨.nonterminal "B", 2, 3⟩ ∧
      (1 ≤ farthestPlace tokens misses ↔ 1 = 0 ∨ ∃ m ∈ misses, 1 ≤ m.placeIn tokens) := by
  intro tokens misses
  have hmatch : (oneName.matcherAt tokens (.rule .grammar) 0).outcome =
      .hit (.node ⟨.grammar, 0, 0, 1⟩ [.token ⟨.nonterminal "A", 0, 1⟩]) (tokens.drop 1) := rfl
  exact ⟨_, hmatch, rfl, (parse_leftover hmatch rfl rfl).2.2.2⟩

/-- There the error is put at the first name, which was taken, and at no token from the second name
on. -/
theorem parse_leftover_taken :
    let tokens : List Token := [⟨.nonterminal "A", 0, 1⟩, ⟨.nonterminal "B", 2, 3⟩, ⟨.eof, 3, 3⟩]
    Description.read "grammar ::= NT\n" = .ok oneName ∧ (∀ r, ¬ oneName.LeftRecursive r) ∧
      Ended tokens ∧ (∃ tree, (oneName.matcherAt tokens (.rule .grammar) 0).outcome =
        .hit tree (tokens.drop 1)) ∧
      oneName.parse tokens = .error (errorAt tokens "nothing more" 0) ∧
      ∀ k expected, 1 ≤ k → oneName.parse tokens ≠ .error (errorAt tokens expected k) := by
  intro tokens
  have hended : Ended tokens := ⟨tokens.dropLast, ⟨.eof, 3, 3⟩, rfl, rfl, by decide⟩
  have herror : oneName.parse tokens = .error (.unexpectedToken "nothing more" ⟨0, 1⟩) := rfl
  refine ⟨rfl, oneName_layering.ranking.not_leftRecursive, hended, ⟨_, rfl⟩, rfl, ?_⟩
  intro k expected hk
  rw [herror]
  match k, hk with
  | 1, _ => simp [errorAt, tokens, Token.isEof]
  | 2, _ => simp [errorAt, tokens, Token.isEof]
  | k + 3, _ => simp [errorAt, tokens]

end Description
end GrammarText
