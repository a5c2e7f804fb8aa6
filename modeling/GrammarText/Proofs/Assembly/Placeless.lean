import GrammarText.Proofs.Assembly.Specification
import GrammarText.Proofs.Reduction.Parametric

/-!
# Assembly does not look at places

Declarations that agree in their names, separators and definitions make the same grammar, or they
are refused for the same thing, wherever they stand (`assemble_alike`).  Assembly keeps places for
its errors only: `Assembly.Same` says that two assemblies hold the same, each at places of its own.
-/

namespace GrammarText

open List (Forall₂)

/-! ## Outcomes without their places -/

def GrammarError.Alike (e f : GrammarError) : Prop := (Diagnostic.grammar e).Alike (.grammar f)

/-- Two outcomes are related values, or errors that are alike. -/
def OutcomesAlike {α : Type} (R : α → α → Prop) (x y : Except GrammarError α) : Prop :=
  match x, y with
  | .ok a, .ok b => R a b
  | .error e, .error f => e.Alike f
  | _, _ => False

theorem OutcomesAlike.bind {α β : Type} {R : α → α → Prop} {S : β → β → Prop}
    {x y : Except GrammarError α} {f g : α → Except GrammarError β} (h : OutcomesAlike R x y)
    (hf : ∀ a b, R a b → OutcomesAlike S (f a) (g b)) : OutcomesAlike S (x >>= f) (y >>= g) := by
  cases x with
  | ok a =>
    cases y with
    | ok b => exact hf a b h
    | error e => exact h.elim
  | error e =>
    cases y with
    | ok b => exact h.elim
    | error e' => exact h

namespace Declaration

variable {d e : Declaration}

theorem key_eq_iff : d.key = e.key ↔
    d.name = e.name ∧ d.separator = e.separator ∧ d.definition = e.definition := by
  simp [key]

theorem conditionalError?_alike (h : d.name = e.name) (index : Nat) (ps : List Production) :
    Option.Rel GrammarError.Alike (d.conditionalError? index ps)
      (e.conditionalError? index ps) := by
  induction ps generalizing index with
  | nil => exact .none
  | cons p ps ih =>
    cases p with
    | conditional param value body =>
      refine .some ?_
      simp [GrammarError.Alike, Diagnostic.Alike, Diagnostic.unplaced, h]
    | symbols ss => exact ih (index + 1)
    | prose text => exact ih (index + 1)

/-- Declarations that are alike agree but for their places. -/
theorem map_key_eq {T N : Span → Span → Prop} {ds es : List Declaration}
    (h : Forall₂ (Declaration.Alike T N) ds es) : ds.map key = es.map key :=
  map_eq_map_iff.mpr (h.imp fun _ _ hd => key_eq_iff.mpr ⟨hd.name, hd.separator, hd.definition⟩)

end Declaration

/-! ## Assemblies that hold the same -/

namespace Assembly

variable {a b : Assembly} {d e : Declaration} {ds es : List Declaration}

structure Same (a b : Assembly) : Prop where
  nonterminals : a.nonterminals = b.nonterminals
  variableTerminals : a.variableTerminals = b.variableTerminals
  definedAt : ∀ s, s ∈ a.definedAt ↔ s ∈ b.definedAt
  usedAt : ∀ s, s ∈ a.usedAt ↔ s ∈ b.usedAt

theorem Same.noteVariable (h : a.Same b) (hname : d.name = e.name)
    (hseparator : d.separator = e.separator) : (a.noteVariable d).Same (b.noteVariable e) := by
  have hvariable : d.isVariable = e.isVariable := by
    rw [Declaration.isVariable, hseparator]
    rfl
  unfold Assembly.noteVariable
  rw [hvariable]
  split
  · exact ⟨h.nonterminals, by rw [h.variableTerminals, hname], h.definedAt, h.usedAt⟩
  · exact h

theorem Same.use (h : a.Same b) (spellings : List String) :
    (a.use d spellings).Same (b.use e spellings) where
  nonterminals := h.nonterminals
  variableTerminals := h.variableTerminals
  definedAt := h.definedAt
  usedAt s := by rw [mem_usedAt_use, mem_usedAt_use, h.usedAt]

theorem Same.store (h : a.Same b) (hname : d.name = e.name)
    (hdefinition : d.definition = e.definition) : (a.store d).Same (b.store e) where
  nonterminals := by rw [Assembly.store, Assembly.store, h.nonterminals, hname, hdefinition]
  variableTerminals := h.variableTerminals
  definedAt s := by simp only [Assembly.store, Std.ExtTreeMap.mem_insert, hname, h.definedAt]
  usedAt := h.usedAt

theorem Same.isSome_definedAt (h : a.Same b) (s : String) :
    a.definedAt[s]?.isSome = b.definedAt[s]?.isSome := by
  rw [Bool.eq_iff_iff, ← Std.ExtTreeMap.mem_iff_isSome_getElem?,
    ← Std.ExtTreeMap.mem_iff_isSome_getElem?, h.definedAt]

/-- Declarations that agree change assemblies in the same way, or are refused alike. -/
theorem add_alike (h : a.Same b) (hkey : d.key = e.key) :
    OutcomesAlike Same (a.add d) (b.add e) := by
  obtain ⟨hname, hseparator, hdefinition⟩ := Declaration.key_eq_iff.mp hkey
  have hnoted := h.noteVariable hname hseparator
  unfold add
  dsimp only
  rw [← hdefinition]
  cases hd : d.definition with
  | parameterized params ps => exact hnoted.store hname hdefinition
  | alternatives ps =>
    dsimp only
    have hcond := Declaration.conditionalError?_alike hname 0 ps
    revert hcond
    generalize d.conditionalError? 0 ps = x
    generalize e.conditionalError? 0 ps = y
    rintro (⟨herror⟩ | _)
    · exact herror
    · have hused := hnoted.use (d := d) (e := e) (ps.flatMap Production.terminals)
      dsimp only
      rw [← hseparator, ← hname]
      by_cases hs : d.separator = ":"
      · rw [if_neg (not_not_intro hs), if_neg (not_not_intro hs)]
        have hstored := hused.isSome_definedAt d.name
        generalize (a.noteVariable d).use d (ps.flatMap Production.terminals) = a'
          at hused hstored ⊢
        generalize (b.noteVariable e).use e (ps.flatMap Production.terminals) = b'
          at hused hstored ⊢
        cases hx : a'.definedAt[d.name]? with
        | some first =>
          obtain ⟨first', hy⟩ := Option.isSome_iff_exists.mp (hstored.symm.trans (by rw [hx]; rfl))
          rw [hy]
          rfl
        | none =>
          have hy : b'.definedAt[d.name]? = none := by
            rwa [hx, eq_comm, Option.isSome_none, Option.isSome_eq_false_iff,
              Option.isNone_iff_eq_none] at hstored
          rw [hy]
          exact hused.store hname hdefinition
      · rw [if_pos hs, if_pos hs]
        exact hused

/-- Declarations that agree, one after another. -/
theorem addAll_alike (h : a.Same b) (hkeys : ds.map Declaration.key = es.map Declaration.key) :
    OutcomesAlike Same (a.addAll ds) (b.addAll es) := by
  induction ds generalizing a b es with
  | nil =>
    obtain rfl : es = [] := by simpa [eq_comm] using hkeys
    exact h
  | cons d ds ih =>
    obtain ⟨e, es, rfl, hkey, hkeys⟩ := List.map_eq_cons_iff.mp hkeys.symm
    rw [addAll, addAll]
    exact (add_alike h hkey.symm).bind fun a' b' hsame => ih hsame hkeys.symm

/-- The same spelling collides first. -/
theorem collision?_alike (h : a.Same b) :
    Option.Rel GrammarError.Alike a.collision? b.collision? := by
  cases hb : b.collision? with
  | none =>
    have ha : a.collision? = none := by
      rw [collision?_eq_none_iff] at hb ⊢
      intro s hs
      rw [h.nonterminals]
      exact hb s ((h.usedAt s).mp hs)
    rw [ha]
    exact .none
  | some f =>
    obtain ⟨name, used, hused, hstored, hleast, rfl⟩ := collision?_eq_some_iff.mp hb
    have hmem : name ∈ a.usedAt := by
      rw [h.usedAt, Std.ExtTreeMap.mem_iff_isSome_getElem?, hused]
      rfl
    obtain ⟨used', hused'⟩ :=
      Option.isSome_iff_exists.mp (Std.ExtTreeMap.mem_iff_isSome_getElem?.mp hmem)
    have ha := collision?_eq_some_iff.mpr ⟨name, used', hused', h.nonterminals ▸ hstored,
      fun s hs hn => hleast s ((h.usedAt s).mp hs) (h.nonterminals ▸ hn), rfl⟩
    rw [ha]
    exact .some rfl

end Assembly

/-- Declarations that agree but for their places make the same grammar, or they are refused for the
same thing. -/
theorem assemble_alike {ds es : List Declaration} (goals : Names)
    (h : ds.map Declaration.key = es.map Declaration.key) :
    OutcomesAlike Eq (assemble ds goals) (assemble es goals) := by
  have hsame : Assembly.empty.Same Assembly.empty := ⟨rfl, rfl, fun _ => .rfl, fun _ => .rfl⟩
  refine (Assembly.addAll_alike hsame h).bind fun a b hab => ?_
  have hcollision := Assembly.collision?_alike hab
  revert hcollision
  generalize a.collision? = x
  generalize b.collision? = y
  rintro (⟨herror⟩ | _)
  · exact herror
  · show a.grammar goals = b.grammar goals
    rw [Assembly.grammar, Assembly.grammar, hab.nonterminals, hab.variableTerminals]

end GrammarText
