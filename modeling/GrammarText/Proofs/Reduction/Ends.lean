import GrammarText.Proofs.Reduction.Yields

/-!
# What the work on a tree ends in, places included

`Ends` says what holds of the value in which some work on a tree ends and of the places gathered by
then, or of its error, for work that starts with some places gathered before.
-/

namespace GrammarText

variable {α β : Type} {g : Gathered} {P : α → Gathered → Prop} {Q : β → Gathered → Prop}
  {E : Diagnostic → Prop}

/-- Work ends in a value and in places of which `P` holds, or in an error of which `E` holds. -/
def Ends (g : Gathered) (x : Reducing α) (P : α → Gathered → Prop) (E : Diagnostic → Prop) : Prop :=
  match x.run.run g with
  | (.ok a, g') => P a g'
  | (.error e, _) => E e

theorem ends_pure {a : α} (h : P a g) : Ends g (pure a) P E := h

theorem ends_throw {e : Diagnostic} (h : E e) : Ends g (throw e) P E := h

theorem Ends.mono {x : Reducing α} {P' : α → Gathered → Prop} {E' : Diagnostic → Prop}
    (h : Ends g x P E) (hp : ∀ a g', P a g' → P' a g') (he : ∀ e, E e → E' e) :
    Ends g x P' E' := by
  unfold Ends at h ⊢
  split at h
  · exact hp _ _ h
  · exact he _ h

/-- Work goes on with the value and the places that it has come to. -/
theorem Ends.bind {x : Reducing α} {f : α → Reducing β} (hx : Ends g x P E)
    (hf : ∀ a g', P a g' → Ends g' (f a) Q E) : Ends g (x >>= f) Q E := by
  unfold Ends at hx
  show match (x >>= f).run.run g with
    | (.ok b, g') => Q b g'
    | (.error e, _) => E e
  rw [ExceptT.run_bind, StateT.run_bind]
  cases hrun : x.run.run g with
  | mk answer g' =>
    rw [hrun] at hx
    cases answer with
    | ok a => exact hf a g' hx
    | error e => exact hx

/-- Children that are left do not count. -/
theorem Ends.run' {x : Reading α} {ps : List Phrase}
    (h : Ends g (StateT.run x ps) (fun r => P r.1) E) : Ends g (x.run' ps) P E := by
  rw [StateT.run'_eq, map_eq_pure_bind]
  exact h.bind fun _ _ ha => ends_pure ha

/-! ## Outcomes -/

/-- The value in which work ends, with the places gathered by then, or its error. -/
def Reducing.outcome (x : Reducing α) (g : Gathered) : Except Diagnostic (α × Gathered) :=
  match x.run.run g with
  | (.ok a, g') => .ok (a, g')
  | (.error e, _) => .error e

theorem Reducing.outcome_bind (x : Reducing α) (f : α → Reducing β) (g : Gathered) :
    outcome (x >>= f) g = outcome x g >>= fun r => outcome (f r.1) r.2 := by
  rw [outcome, outcome, ExceptT.run_bind, StateT.run_bind]
  rcases x.run.run g with ⟨_ | _, _⟩ <;> rfl

theorem Ends.outcome {x : Reducing α} (h : Ends g x P E) :
    (∃ a g', x.outcome g = .ok (a, g') ∧ P a g') ∨ ∃ e, x.outcome g = .error e ∧ E e := by
  unfold Ends at h
  rw [Reducing.outcome]
  split at h
  · exact .inl ⟨_, _, rfl, h⟩
  · exact .inr ⟨_, rfl, h⟩

/-! ## Trees one after another -/

section Visits

variable {P R : List Phrase → Gathered → Prop} {t : Tree} {us vs : List Tree}

/-- Trees in two groups mean what the groups mean, one after the other. -/
theorem ends_visitAll_append (hu : Ends g (Tree.visitAll Reduction.visitor us) P E)
    (hv : ∀ ps g', P ps g' →
      Ends g' (Tree.visitAll Reduction.visitor vs) (fun qs g'' => R (ps ++ qs) g'') E) :
    Ends g (Tree.visitAll Reduction.visitor (us ++ vs)) R E := by
  rw [Tree.visitAll_append]
  exact hu.bind fun ps g' hp => (hv ps g' hp).bind fun qs g'' hq => ends_pure hq

/-- What a single tree means. -/
theorem ends_visitAll_singleton
    (h : Ends g (t.visit Reduction.visitor) (fun p g' => R [p] g') E) :
    Ends g (Tree.visitAll Reduction.visitor [t]) R E := by
  rw [Tree.visitAll]
  exact h.bind fun p g' hp => ends_pure hp

theorem ends_visit_of_singleton
    (h : Ends g (Tree.visitAll Reduction.visitor [t]) (fun ps g' => ∀ p, ps = [p] → P [p] g') E) :
    Ends g (t.visit Reduction.visitor) (fun p g' => P [p] g') E := by
  have hmap : Tree.visitAll Reduction.visitor [t] = ([·]) <$> t.visit Reduction.visitor := by
    simp [Tree.visitAll]
  unfold Ends at h ⊢
  rw [hmap, ExceptT.run_map, StateT.run_map] at h
  cases hrun : (t.visit Reduction.visitor).run.run g with
  | mk answer g' =>
    rw [hrun] at h
    cases answer with
    | ok p => exact h p rfl
    | error e => exact h

/-- What a repetition means. -/
theorem ends_visitAll_repeated (h : Ends g (Tree.visitAll Reduction.visitor us)
    (fun ps g' => R [.repeated ps] g') E) :
    Ends g (Tree.visitAll Reduction.visitor [.repeated us]) R E := by
  refine ends_visitAll_singleton ?_
  rw [Tree.visit]
  exact h.bind fun ps g' hps => ends_pure hps

/-- What a node means, after its children. -/
theorem ends_visitAll_node {n : Node} (h : Ends g (Tree.visitAll Reduction.visitor us) P E)
    (hn : ∀ ps g', P ps g' → Ends g' ((Reduction.node n).run' ps) (fun p g'' => R [p] g'') E) :
    Ends g (Tree.visitAll Reduction.visitor [.node n us]) R E := by
  refine ends_visitAll_singleton ?_
  rw [Tree.visit]
  exact h.bind hn

end Visits
end GrammarText
