import GrammarText.Proofs.Assembly.Placeless

/-!
# Results that are alike

Two runs of a stage end alike if both end in values that are related, or in diagnostics that are
alike but for their spans (`ResultsAlike`).  Stages that end alike on values that are related end
alike one after the other (`ResultsAlike.bind`).
-/

namespace GrammarText

open List (Forall₂)

variable {α β γ δ : Type} {R : α → β → Prop} {S : γ → δ → Prop}

/-- Two results are related values, or diagnostics that are alike. -/
def ResultsAlike (R : α → β → Prop) (x : Except Diagnostic α) (y : Except Diagnostic β) : Prop :=
  match x, y with
  | .ok a, .ok b => R a b
  | .error e, .error f => e.Alike f
  | _, _ => False

namespace ResultsAlike

variable {x : Except Diagnostic α} {y : Except Diagnostic β}

theorem bind {f : α → Except Diagnostic γ} {k : β → Except Diagnostic δ}
    (h : ResultsAlike R x y) (hf : ∀ a b, R a b → ResultsAlike S (f a) (k b)) :
    ResultsAlike S (x >>= f) (y >>= k) := by
  cases x with
  | ok a =>
    cases y with
    | ok b => exact hf a b h
    | error e => exact h.elim
  | error e =>
    cases y with
    | ok b => exact h.elim
    | error f => exact h

/-- Where the first run ends in a value, the second one does. -/
theorem exists_of_ok {a : α} (h : ResultsAlike R (.ok a) y) : ∃ b, y = .ok b ∧ R a b := by
  cases y with
  | ok b => exact ⟨b, rfl, h⟩
  | error e => exact h.elim

theorem exists_of_error {e : Diagnostic} (h : ResultsAlike R (.error e) y) :
    ∃ f, y = .error f ∧ e.Alike f := by
  cases y with
  | ok b => exact h.elim
  | error f => exact ⟨f, rfl, h⟩

theorem mono {R' : α → β → Prop} (h : ResultsAlike R x y) (hR : ∀ a b, R a b → R' a b) :
    ResultsAlike R' x y := by
  cases x with
  | ok a =>
    obtain ⟨b, rfl, hab⟩ := h.exists_of_ok
    exact hR a b hab
  | error e =>
    obtain ⟨f, rfl, hef⟩ := h.exists_of_error
    exact hef

/-- Results of assembly that are alike are alike as results of a compilation. -/
theorem of_outcomes {R : α → α → Prop} {x y : Except GrammarError α} (h : OutcomesAlike R x y) :
    ResultsAlike R (x.mapError .grammar) (y.mapError .grammar) := by
  cases x with
  | ok a =>
    cases y with
    | ok b => exact h
    | error e => exact h.elim
  | error e =>
    cases y with
    | ok b => exact h.elim
    | error f => exact h

end ResultsAlike

/-- Runs that are alike end alike, whatever was gathered. -/
theorem RunsAlike.results {T N : Span → Span → Prop} {x : Reducing α} {y : Reducing β}
    {g h : Gathered} (hrun : RunsAlike T N R x y) (hg : g.Alike T N h) :
    ResultsAlike R (x.run.run g).1 (y.run.run h).1 := by
  have halike := hrun g h hg
  revert halike
  generalize x.run.run g = p
  generalize y.run.run h = q
  obtain ⟨a, g'⟩ := p
  obtain ⟨b, h'⟩ := q
  intro halike
  cases a with
  | ok a =>
    cases b with
    | ok b => exact halike.1
    | error e => exact halike.elim
  | error e =>
    cases b with
    | ok b => exact halike.elim
    | error f => exact halike.1

/-- Trees that run alike have declarations that are alike. -/
theorem Tree.declarations_alike {T N : Span → Span → Prop} {t u : Tree}
    (h : RunsAlike T N (Phrase.Alike T N) (t.visit Reduction.visitor)
      (u.visit Reduction.visitor)) :
    ResultsAlike (Forall₂ (Declaration.Alike T N)) t.declarations u.declarations := by
  have hresults : ResultsAlike (Phrase.Alike T N) (t.reduce .none).1 (u.reduce .none).1 :=
    h.results ⟨.nil, .nil⟩
  rw [declarations, declarations]
  cases ht : (t.reduce .none).1 with
  | error e =>
    rw [ht] at hresults
    obtain ⟨f, hu, hef⟩ := hresults.exists_of_error
    rw [hu]
    exact hef
  | ok p =>
    rw [ht] at hresults
    obtain ⟨q, hu, hpq⟩ := hresults.exists_of_ok
    rw [hu]
    cases hpq with
    | declarations hds => exact hds
    | @same p hp =>
      -- A list of declarations has places, so neither phrase is one.
      cases p <;> first | rfl | cases hp
    | _ => rfl

/-- Texts whose declarations are alike compile alike. -/
theorem compile_alike {T N : Span → Span → Prop} {a b : String} {o o' : Options}
    (h : ResultsAlike (Forall₂ (Declaration.Alike T N)) (declarationsOf a) (declarationsOf b))
    (hgoals : o.goals = o'.goals) : ResultsAlike Eq (compile a o) (compile b o') := by
  refine h.bind fun ds es hds => ?_
  rw [hgoals]
  exact .of_outcomes (assemble_alike _ (Declaration.map_key_eq hds))

end GrammarText
