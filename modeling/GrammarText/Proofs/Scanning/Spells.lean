import GrammarText.Proofs.Scanning.Places

/-!
# Texts that spell lexemes

A text spells some lexemes if it is made of their texts and of separators, where each lexeme stands
before characters that it does not reach into (`Lexeme.Stands`).  The tokens of such a text are just
those lexemes and the end of the text (`exists_tokensOf`).
-/

namespace GrammarText

/-- Characters spell lexemes, one after another. -/
inductive Spells : List Char → List Lexeme → Prop where
  | done : Spells [] []
  | separator {c cs ls} (hc : isSeparator c = true) (h : Spells cs ls) : Spells (c :: cs) ls
  | lexeme {l cs ls} (hl : l.Stands cs) (h : Spells cs ls) : Spells (l.text.toList ++ cs) (l :: ls)

/-- What spells lexemes has their tokens standing in it. -/
theorem Spells.exists_scans {cs : List Char} {ls : List Lexeme} (h : Spells cs ls) (o : Nat) :
    ∃ ts, Scans o cs ts ∧ ts.map Token.lexeme = ls ++ [.eof] := by
  induction h generalizing o with
  | done => exact ⟨_, .done, rfl⟩
  | separator hc h ih =>
    obtain ⟨ts, hts, hmap⟩ := ih _
    exact ⟨ts, .separator hc hts, hmap⟩
  | lexeme hl h ih =>
    obtain ⟨ts, hts, hmap⟩ := ih _
    exact ⟨_, .token hl hts, by simp [hmap]⟩

/-- The tokens of a text that spells some lexemes are these and the end of the text. -/
theorem exists_tokensOf {text : String} {ls : List Lexeme} (h : Spells text.toList ls) :
    ∃ ts, tokensOf text = .ok ts ∧ ts.map Token.lexeme = ls ++ [.eof] := by
  obtain ⟨ts, hts, hmap⟩ := h.exists_scans 0
  exact ⟨ts, tokensOf_ok_iff.mpr hts, hmap⟩

end GrammarText
