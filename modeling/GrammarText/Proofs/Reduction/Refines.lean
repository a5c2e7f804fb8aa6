import GrammarText.Proofs.Reduction.Parametric

/-!
# Reductions that may come in the place of others

A reduction refines another one if it succeeds where the other one does, with a value that is alike
but for the places in it (`Refines`).  The reductions of trees that are alike refine each other, and
so do those of trees that are put together of such trees in the same way.
-/

namespace GrammarText

open List (Forall₂)

variable {α β γ δ : Type} {R : α → β → Prop} {S : γ → δ → Prop}

/-- Where `x` ends in a value, `y` ends in a value that is related to it, and the places gathered
are those of the same things. -/
def Refines (R : α → β → Prop) (x : Reducing α) (y : Reducing β) : Prop :=
  ∀ g h, g.Alike Anywhere Anywhere h → ∀ a g', x.run.run g = (.ok a, g') →
    ∃ b h', y.run.run h = (.ok b, h') ∧ R a b ∧ g'.Alike Anywhere Anywhere h'

theorem RunsAlike.refines {x : Reducing α} {y : Reducing β}
    (h : RunsAlike Anywhere Anywhere R x y) : Refines R x y := by
  intro g k hg a g' hrun
  have halike := h g k hg
  rw [hrun] at halike
  cases hy : y.run.run k with
  | mk b h' =>
    rw [hy] at halike
    cases b with
    | ok b => exact ⟨b, h', rfl, halike⟩
    | error e => exact halike.elim

theorem refines_pure {a : α} {b : β} (h : R a b) : Refines R (pure a) (pure b) :=
  (RunsAlike.pure h).refines

/-- Where work in two steps ends in a value, each step does. -/
theorem exists_of_run_bind {x : Reducing α} {f : α → Reducing γ} {g g' : Gathered} {c : γ}
    (h : (x >>= f).run.run g = (.ok c, g')) :
    ∃ a g₁, x.run.run g = (.ok a, g₁) ∧ (f a).run.run g₁ = (.ok c, g') := by
  rw [ExceptT.run_bind, StateT.run_bind] at h
  cases hrun : x.run.run g with
  | mk answer g₁ =>
    rw [hrun] at h
    cases answer with
    | ok a => exact ⟨a, g₁, rfl, h⟩
    | error e => cases h

theorem Refines.bind {x : Reducing α} {y : Reducing β} {f : α → Reducing γ} {k : β → Reducing δ}
    (hx : Refines R x y) (hf : ∀ a b, R a b → Refines S (f a) (k b)) :
    Refines S (x >>= f) (y >>= k) := by
  intro g h hg c g' hrun
  obtain ⟨a, g₁, hxg, hrun⟩ := exists_of_run_bind hrun
  obtain ⟨b, h₁, hy, hab, hg₁⟩ := hx g h hg a g₁ hxg
  rw [ExceptT.run_bind, StateT.run_bind, hy]
  exact hf a b hab g₁ h₁ hg₁ c g' hrun

/-- Nodes of one alternative refine each other on children that are alike. -/
theorem Reduction.node_refines {n m : Node} {ps qs : List Phrase} (hr : n.rule = m.rule)
    (hk : n.alternative = m.alternative) (hps : Forall₂ (Phrase.Alike Anywhere Anywhere) ps qs) :
    Refines (Phrase.Alike Anywhere Anywhere) ((node n).run' ps) ((node m).run' qs) :=
  ((node_alike hr hk trivial).run' hps).refines

/-! ## Trees -/

namespace Tree

variable {ts us vs ws : List Tree} {n m : Node}

/-! ### What a tree means -/

theorem visit_token (t : Token) : (token t).visit Reduction.visitor = pure (.token t) := by
  rw [visit]
  rfl

theorem visit_absent : absent.visit Reduction.visitor = pure .absent := by
  rw [visit]
  rfl

theorem visit_repeated (ts : List Tree) : (repeated ts).visit Reduction.visitor =
    (do return .repeated (← visitAll Reduction.visitor ts)) := by
  rw [visit]
  rfl

theorem visit_node (n : Node) (ts : List Tree) : (node n ts).visit Reduction.visitor =
    (do (Reduction.node n).run' (← visitAll Reduction.visitor ts)) := by
  rw [visit]
  rfl

theorem visitAll_tokens (ts : List Token) (us : List Tree) :
    visitAll Reduction.visitor (ts.map .token ++ us) =
      (do return ts.map .token ++ (← visitAll Reduction.visitor us)) := by
  induction ts with
  | nil => simp
  | cons t ts ih => simp [visitAll, visit_token, ih]

/-! ### Trees that may come in the place of others -/

/-- Trees mean what others mean, but for the places, where these mean something. -/
def AllRefine (ts us : List Tree) : Prop :=
  Refines (Forall₂ (Phrase.Alike Anywhere Anywhere)) (visitAll Reduction.visitor ts)
    (visitAll Reduction.visitor us)

theorem AllAlike.refine (h : AllAlike Anywhere Anywhere ts us) : AllRefine ts us := by
  exact (visitAll_alike h).refines

/-- Trees refine themselves. -/
theorem AllRefine.refl (ts : List Tree) : AllRefine ts ts :=
  (AllAlike.refl (fun _ => trivial) (fun _ => trivial) ts).refine

theorem AllRefine.append (h : AllRefine ts us) (hv : AllRefine vs ws) :
    AllRefine (ts ++ vs) (us ++ ws) := by
  unfold AllRefine
  rw [visitAll_append, visitAll_append]
  refine h.bind fun ps qs hpq => hv.bind fun ps' qs' hpq' => refines_pure ?_
  exact List.rel_append hpq hpq'

theorem allRefine_singleton {t u : Tree}
    (h : Refines (Phrase.Alike Anywhere Anywhere) (t.visit Reduction.visitor)
      (u.visit Reduction.visitor)) : AllRefine [t] [u] := by
  unfold AllRefine
  rw [visitAll, visitAll]
  exact h.bind fun p q hpq => (refines_pure .nil).bind fun ps qs hps => refines_pure (.cons hpq hps)

/-- What a single tree means by itself. -/
theorem AllRefine.single {t u : Tree} (h : AllRefine [t] [u]) :
    Refines (Phrase.Alike Anywhere Anywhere) (t.visit Reduction.visitor)
      (u.visit Reduction.visitor) := by
  intro g k hg p g' hrun
  unfold AllRefine at h
  rw [visitAll, visitAll] at h
  obtain ⟨qs, k', hall, hpq, hg'⟩ := h g k hg [p] g' (by
    rw [ExceptT.run_bind, StateT.run_bind, hrun]
    rfl)
  obtain ⟨q, k₁, hq, hpure⟩ := exists_of_run_bind hall
  cases hpure
  cases hpq with
  | cons hpq _ => exact ⟨q, _, hq, hpq, hg'⟩

theorem AllRefine.repeated (h : AllRefine ts us) : AllRefine [.repeated ts] [.repeated us] := by
  refine allRefine_singleton ?_
  rw [visit, visit]
  exact h.bind fun ps qs hpq => refines_pure (.repeated hpq)

theorem AllRefine.node (hr : n.rule = m.rule) (hk : n.alternative = m.alternative)
    (h : AllRefine ts us) : AllRefine [.node n ts] [.node m us] := by
  refine allRefine_singleton ?_
  rw [visit, visit]
  exact h.bind fun ps qs hpq => Reduction.node_refines hr hk hpq

/-! ### Trees that mean something -/

/-- Trees mean something, where some places were gathered before them. -/
def Succeed (ts : List Tree) : Prop :=
  ∃ g ps g', (visitAll Reduction.visitor ts).run.run g = (.ok ps, g')

theorem succeed_append (h : Succeed (ts ++ us)) : Succeed ts ∧ Succeed us := by
  obtain ⟨g, ps, g', hrun⟩ := h
  rw [visitAll_append] at hrun
  obtain ⟨qs, g₁, hts, hrun⟩ := exists_of_run_bind hrun
  obtain ⟨rs, g₂, hus, -⟩ := exists_of_run_bind hrun
  exact ⟨⟨g, qs, g₁, hts⟩, g₁, rs, g₂, hus⟩

theorem Succeed.repeated (h : Succeed [.repeated ts]) : Succeed ts := by
  obtain ⟨g, ps, g', hrun⟩ := h
  rw [visitAll, visit] at hrun
  obtain ⟨p, g₁, hvisit, -⟩ := exists_of_run_bind hrun
  obtain ⟨qs, g₂, hts, -⟩ := exists_of_run_bind hvisit
  exact ⟨g, qs, g₂, hts⟩

theorem Succeed.node (h : Succeed [.node n ts]) : Succeed ts := by
  obtain ⟨g, ps, g', hrun⟩ := h
  rw [visitAll, visit] at hrun
  obtain ⟨p, g₁, hvisit, -⟩ := exists_of_run_bind hrun
  obtain ⟨qs, g₂, hts, -⟩ := exists_of_run_bind hvisit
  exact ⟨g, qs, g₂, hts⟩

end Tree
end GrammarText
