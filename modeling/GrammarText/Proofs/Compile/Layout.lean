import GrammarText.Proofs.Reduction.Prose

/-!
# Layout does not influence the grammar

What a text compiles to is told by the classes and texts of its tokens, wherever these stand
(`compile_layout`).  Even the texts of its tokens may differ in the blanks around lines of prose
(`compile_agree`).
-/

namespace GrammarText

open List (Forall₂)

variable {a b : String} {o o' : Options} {ts us : List Token}

/-- Texts of tokens that agree have declarations that are alike. -/
theorem declarationsOf_agree (ha : tokensOf a = .ok ts) (hb : tokensOf b = .ok us)
    (h : Forall₂ Token.Agrees ts us) :
    ResultsAlike (Forall₂ (Declaration.Alike Anywhere Anywhere)) (declarationsOf a)
      (declarationsOf b) := by
  have hparse : ResultsAlike (Tree.Match Token.Agrees) ((Tree.ofTokens ts).mapError .parse)
      ((Tree.ofTokens us).mapError .parse) :=
    Description.parse_matches _ Wanted.accepts_of_agrees h
  rw [declarationsOf_eq ha, declarationsOf_eq hb]
  cases ht : Tree.ofTokens ts with
  | ok t =>
    rw [ht] at hparse
    obtain ⟨u, hu, hmatch⟩ := hparse.exists_of_ok
    cases hus : Tree.ofTokens us with
    | ok u' =>
      rw [hus] at hu
      cases hu
      exact Tree.declarations_agree ht hmatch
    | error f =>
      rw [hus] at hu
      cases hu
  | error e =>
    rw [ht] at hparse
    obtain ⟨f, hf, halike⟩ := hparse.exists_of_error
    cases hus : Tree.ofTokens us with
    | ok u =>
      rw [hus] at hf
      cases hf
    | error f' =>
      rw [hus] at hf
      cases hf
      exact halike

/-- Texts of tokens that agree compile alike. -/
theorem compile_agree (ha : tokensOf a = .ok ts) (hb : tokensOf b = .ok us)
    (h : Forall₂ Token.Agrees ts us) (hgoals : o.goals = o'.goals) :
    ResultsAlike Eq (compile a o) (compile b o') :=
  compile_alike (declarationsOf_agree ha hb h) hgoals

/-- Lexemes are told by their classes and their texts. -/
theorem map_lexeme_eq (ts : List Token) :
    ts.map Token.lexeme = List.zipWith Lexeme.ofKind (ts.map Token.kind) (ts.map Token.text) := by
  rw [List.zipWith_map, List.zipWith_self]
  exact List.map_congr_left fun t _ => (Lexeme.ofKind_kind_text t.lexeme).symm

/-- Layout does not influence the grammar.  Two texts of which the tokens have the same classes and
the same texts compile to the same grammar for the same goals, or both are refused, and then for the
same thing. -/
theorem compile_layout (ha : tokensOf a = .ok ts) (hb : tokensOf b = .ok us)
    (hkinds : ts.map Token.kind = us.map Token.kind)
    (htexts : ts.map Token.text = us.map Token.text) (hgoals : o.goals = o'.goals) :
    ResultsAlike Eq (compile a o) (compile b o') := by
  have hlexemes : ts.map Token.lexeme = us.map Token.lexeme := by
    rw [map_lexeme_eq, map_lexeme_eq, hkinds, htexts]
  refine compile_agree ha hb ((map_eq_map_iff.mp hlexemes).imp fun t u hlexeme => ?_) hgoals
  rw [Token.Agrees, hlexeme]
  exact .refl _

/-- A definition and a call that repeats an argument are refused with any blanks between them. -/
theorem compile_layout_spaced :
    let a := "A:\n\t\x60x\x60 B[+C,+C]\n"
    let b := "A :\r\n  \x60x\x60   B[ +C , +C ]  \n"
    ∃ ts us, tokensOf a = .ok ts ∧ tokensOf b = .ok us ∧ ts ≠ us ∧
      ts.map Token.kind = us.map Token.kind ∧ ts.map Token.text = us.map Token.text ∧
      ResultsAlike Eq (compile a .new) (compile b (.withFileName .new "b")) := by
  intro a b
  have hok : ((tokensOf a).toOption.bind fun ts => (tokensOf b).toOption.map fun us =>
      (decide (ts ≠ us) && ts.map Token.kind = us.map Token.kind) &&
        ts.map Token.text = us.map Token.text) = some true := by decide +kernel
  cases ha : tokensOf a with
  | error e => simp [ha, Except.toOption] at hok
  | ok ts =>
    cases hb : tokensOf b with
    | error e => simp [ha, hb, Except.toOption] at hok
    | ok us =>
      obtain ⟨⟨hne, hkinds⟩, htexts⟩ : (ts ≠ us ∧ ts.map Token.kind = us.map Token.kind) ∧
          ts.map Token.text = us.map Token.text := by
        simpa [ha, hb, Except.toOption] using hok
      exact ⟨ts, us, rfl, rfl, hne, hkinds, htexts, compile_layout ha hb hkinds htexts rfl⟩

end GrammarText
