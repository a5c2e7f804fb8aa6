import GrammarText.Proofs.Assembly.Placeless

/-!
# The order of declarations

Only among declarations of one name does their order matter to assembly.  In another order in which
those of each name still follow one another as before (`Reordered`), declarations make the same
grammar, or the same name collides (`assemble_reordered`): what is stored under a name, and whether
a declaration of the name may come after another, is decided among the namesakes, and all else
depends only on which declarations there are.
-/

namespace GrammarText

open Assembly

variable {ds es : List Declaration}

/-- Declarations in another order, in which those of each name follow one another as before. -/
structure Reordered (ds es : List Declaration) : Prop where
  perm : ds.Perm es
  namesakes : ∀ name, ds.filter (·.name = name) = es.filter (·.name = name)

/-! ## What is decided among namesakes -/

/-- What holds between declarations of different names holds in turn just if it does among those of
each name. -/
theorem pairwise_iff_namesakes {R : Declaration → Declaration → Prop}
    (hR : ∀ d e, d.name ≠ e.name → R d e) :
    ds.Pairwise R ↔ ∀ name, (ds.filter (·.name = name)).Pairwise R := by
  refine ⟨fun h name => h.filter _, fun h => ?_⟩
  induction ds with
  | nil => exact .nil
  | cons d ds ih =>
    refine .cons (fun e he => ?_) (ih fun name => ?_)
    · -- Namesakes are both among those of their name.
      by_cases hname : d.name = e.name
      · have hsame := h e.name
        rw [List.filter_cons_of_pos (by simpa using hname), List.pairwise_cons] at hsame
        exact hsame.1 e (List.mem_filter.mpr ⟨he, by simp⟩)
      · exact hR d e hname
    · exact (h name).sublist ((List.sublist_cons_self d ds).filter _)

/-- What is stored last under a name is so among the declarations of the name. -/
theorem lastStored?_filter_name (ds : List Declaration) (name : String) :
    lastStored? (ds.filter (·.name = name)) name = lastStored? ds name := by
  rw [lastStored?, lastStored?, ← List.filter_reverse, List.find?_filter]
  congr 1
  funext d
  by_cases hname : d.name = name <;> simp [hname]

namespace Reordered

theorem symm (h : Reordered ds es) : Reordered es ds :=
  ⟨h.perm.symm, fun name => (h.namesakes name).symm⟩

theorem lastStored?_eq (h : Reordered ds es) (name : String) :
    lastStored? ds name = lastStored? es name := by
  rw [← lastStored?_filter_name, h.namesakes, lastStored?_filter_name]

theorem faultless (h : Reordered ds es) (hds : Faultless ds) : Faultless es := by
  refine ⟨fun d hd => hds.1 d (h.perm.mem_iff.mpr hd), ?_⟩
  have hother : ∀ d e : Declaration, d.name ≠ e.name →
      d.isStored = true → e.isPlain = true → d.name ≠ e.name := fun _ _ hname _ _ => hname
  rw [pairwise_iff_namesakes hother]
  intro name
  rw [← h.namesakes]
  exact (pairwise_iff_namesakes hother).mp hds.2 name

theorem collides_iff (h : Reordered ds es) {s : String} : Collides ds s ↔ Collides es s := by
  simp only [Collides, h.perm.mem_iff]

/-- Where declarations can be added, they can be added in the other order and make the same. -/
theorem exists_addAll (h : Reordered ds es) {a : Assembly} (ha : empty.addAll ds = .ok a) :
    ∃ b, empty.addAll es = .ok b ∧ a.Same b := by
  obtain ⟨b, hb⟩ :=
    exists_addAll_empty_iff.mpr (h.faultless (exists_addAll_empty_iff.mp ⟨a, ha⟩))
  have hdefined : ∀ s : String, a.definedAt[s]? = b.definedAt[s]? := by
    intro s
    rw [getElem?_definedAt_addAll ha, getElem?_definedAt_addAll hb, h.lastStored?_eq]
  refine ⟨b, hb, ⟨?_, ?_, fun s => ?_, fun s => ?_⟩⟩
  · refine Std.ExtTreeMap.ext_getElem? fun s => ?_
    rw [getElem?_nonterminals_addAll ha, getElem?_nonterminals_addAll hb, h.lastStored?_eq]
  · refine Std.ExtTreeSet.ext_mem fun s => ?_
    simp only [mem_variableTerminals_addAll ha, mem_variableTerminals_addAll hb, h.perm.mem_iff]
  · rw [Std.ExtTreeMap.mem_iff_isSome_getElem?, Std.ExtTreeMap.mem_iff_isSome_getElem?, hdefined]
  · simp only [mem_usedAt_addAll ha, mem_usedAt_addAll hb, h.perm.mem_iff]

/-- The grammar of declarations is theirs in the other order. -/
theorem assemble_ok (h : Reordered ds es) {goals : Names} {g : Grammar}
    (hg : assemble ds goals = .ok g) : assemble es goals = .ok g := by
  obtain ⟨a, ha, hnone, rfl⟩ := assemble_ok_iff.mp hg
  obtain ⟨b, hb, hsame⟩ := h.exists_addAll ha
  have hcollision := collision?_alike hsame
  rw [hnone] at hcollision
  refine assemble_ok_iff.mpr ⟨b, hb, ?_, ?_⟩
  · cases hc : b.collision? with
    | none => rfl
    | some e => rw [hc] at hcollision; cases hcollision
  · rw [Assembly.grammar, Assembly.grammar, hsame.nonterminals, hsame.variableTerminals]

end Reordered

/-! ## Collisions -/

/-- A spelling that is used is used first somewhere. -/
theorem exists_firstUsed {s : String} (h : ∃ d ∈ ds, s ∈ d.definition.plainTerminals) :
    ∃ span, FirstUsed ds s span := by
  induction ds with
  | nil => simp at h
  | cons d ds ih =>
    by_cases hd : s ∈ d.definition.plainTerminals
    · exact ⟨_, firstUsed_cons_iff.mpr (.inl ⟨hd, rfl⟩)⟩
    · obtain ⟨e, he, hs⟩ := h
      obtain rfl | he := List.mem_cons.mp he
      · exact absurd hs hd
      · obtain ⟨span, hspan⟩ := ih ⟨e, he, hs⟩
        exact ⟨span, firstUsed_cons_iff.mpr (.inr ⟨hd, hspan⟩)⟩

/-- The same name collides in the other order, with what is stored at the same place. -/
theorem Reordered.assemble_collision (h : Reordered ds es) {goals : Names} {name : String}
    {used first : Span} (hds : assemble ds goals = .error (.nameCollision name used first)) :
    ∃ used, assemble es goals = .error (.nameCollision name used first) := by
  obtain ⟨hfaultless, hcollides, hleast, -, hfirst⟩ := assemble_collision_iff.mp hds
  have hcollides' := h.collides_iff.mp hcollides
  -- What is used first may be used at another place, since other declarations come first.
  obtain ⟨used', hused⟩ := exists_firstUsed hcollides'.1
  exact ⟨used', assemble_collision_iff.mpr ⟨h.faultless hfaultless, hcollides',
    fun s hs => hleast s (h.collides_iff.mpr hs), hused, h.lastStored?_eq name ▸ hfirst⟩⟩

/-- Declarations in another order, in which those of each name follow one another as before, make
the same grammar, whatever the goals, or the same name collides with the same stored definition. -/
theorem assemble_reordered (h : Reordered ds es) (goals : Names) :
    (∀ g, assemble ds goals = .ok g ↔ assemble es goals = .ok g) ∧
    ∀ name first, (∃ used, assemble ds goals = .error (.nameCollision name used first)) ↔
      ∃ used, assemble es goals = .error (.nameCollision name used first) :=
  ⟨fun _ => ⟨h.assemble_ok, h.symm.assemble_ok⟩, fun _ _ =>
    ⟨fun ⟨_, hds⟩ => h.assemble_collision hds, fun ⟨_, hes⟩ => h.symm.assemble_collision hes⟩⟩

/-- Two definitions of a name with a parameter, and one that uses the name as a terminal: what is
used first comes first in the other order, and the name collides with the later definition. -/
theorem assemble_reordered_collision :
    let d : Declaration := ⟨"A", ":", .parameterized ["P"] [.symbols []], ⟨0, 1⟩, ⟨0, 9⟩, [], []⟩
    let e : Declaration :=
      ⟨"A", ":", .parameterized ["Q"] [.symbols []], ⟨10, 11⟩, ⟨10, 19⟩, [], []⟩
    let c : Declaration := ⟨"B", ":", .alternatives [.symbols [.terminal "A"]], ⟨20, 21⟩, ⟨20, 29⟩,
      [("A", ⟨25, 28⟩)], [⟨25, 28⟩]⟩
    Reordered [d, c, e] [c, d, e] ∧
      assemble [d, c, e] ∅ = .error (.nameCollision "A" ⟨25, 28⟩ ⟨10, 11⟩) ∧
      ∃ used, assemble [c, d, e] ∅ = .error (.nameCollision "A" used ⟨10, 11⟩) := by
  intro d e c
  have hreordered : Reordered [d, c, e] [c, d, e] := by
    refine ⟨by decide, fun name => ?_⟩
    by_cases hA : "A" = name
    · subst hA
      rfl
    · by_cases hB : "B" = name <;> simp [d, c, e, hA, hB]
  have hds : assemble [d, c, e] ∅ = .error (.nameCollision "A" ⟨25, 28⟩ ⟨10, 11⟩) := by
    decide +kernel
  exact ⟨hreordered, hds, ((assemble_reordered hreordered ∅).2 "A" ⟨10, 11⟩).mp ⟨_, hds⟩⟩

end GrammarText
