import GrammarText.Proofs.Assembly.Steps

/-!
# What assembly makes of declarations

Which declarations make a grammar, what this grammar is, and which error there is otherwise
(`assemble_specification`).  Adding a declaration may fail for two reasons, which depend only on the
declarations before it (`Declaration.Fault`), and the first declaration that is at fault gives the
error.  Where none is, the least spelling that is also a stored name does.
-/

namespace GrammarText

/-! ## Faults and collisions -/

/-- What is wrong with a declaration after some others: the first production of a plain definition
that depends on a parameter, or else a name that is stored already. -/
inductive Declaration.Fault (earlier : List Declaration) (d : Declaration) : GrammarError → Prop where
  | conditional {before param value body after}
      (hd : d.definition = .alternatives (before ++ .conditional param value body :: after))
      (hbefore : ∀ p ∈ before, p.isConditional = false) :
      Fault earlier d (.invalidConditional d.name param value (d.productionSpan before.length))
  | duplicate {first} (hu : d.definition.Unconditional) (hplain : d.isPlain = true)
      (hfirst : Assembly.lastStored? earlier d.name = some first) :
      Fault earlier d (.duplicateDefinition d.name d.nameSpan first.nameSpan)

/-- No declaration is at fault after those before it. -/
def Faultless (ds : List Declaration) : Prop :=
  (∀ d ∈ ds, d.definition.Unconditional) ∧
    ds.Pairwise fun d e => d.isStored = true → e.isPlain = true → d.name ≠ e.name

/-- A spelling that some plain definition uses is also the name of a stored definition. -/
def Collides (ds : List Declaration) (s : String) : Prop :=
  (∃ d ∈ ds, s ∈ d.definition.plainTerminals) ∧ ∃ e ∈ ds, e.isStored = true ∧ e.name = s

/-- The first declaration with a plain definition that uses a spelling uses it first at a place. -/
def FirstUsed (ds : List Declaration) (s : String) (span : Span) : Prop :=
  ∃ pre d post, ds = pre ++ d :: post ∧ (∀ e ∈ pre, s ∉ e.definition.plainTerminals) ∧
    s ∈ d.definition.plainTerminals ∧ span = d.firstUse s

namespace Assembly

variable {a b : Assembly} {d : Declaration} {ds : List Declaration} {e : GrammarError}

/-! ## The tables of all declarations -/

theorem exists_lastStored?_iff {name : String} :
    (∃ d, lastStored? ds name = some d) ↔ ∃ d ∈ ds, d.isStored = true ∧ d.name = name := by
  rw [← Option.isSome_iff_exists, lastStored?, List.find?_isSome]
  simp

theorem mem_nonterminals_addAll (h : empty.addAll ds = .ok b) {name : String} :
    name ∈ b.nonterminals ↔ ∃ d ∈ ds, d.isStored = true ∧ d.name = name := by
  rw [Std.ExtTreeMap.mem_iff_isSome_getElem?, getElem?_nonterminals_addAll h,
    ← exists_lastStored?_iff, ← Option.isSome_iff_exists]
  simp [empty]

/-- A name is a variable terminal if more than one colon come after it somewhere. -/
theorem mem_variableTerminals_addAll (h : a.addAll ds = .ok b) {name : String} :
    name ∈ b.variableTerminals ↔
      name ∈ a.variableTerminals ∨ ∃ d ∈ ds, d.isVariable = true ∧ d.name = name := by
  induction ds generalizing a with
  | nil =>
    cases h
    simp
  | cons d ds ih =>
    obtain ⟨c, hc, hb⟩ := addAll_cons_ok_iff.mp h
    have hvariable : c.variableTerminals = (a.noteVariable d).variableTerminals := by
      obtain ⟨-, -, rfl⟩ := add_ok_iff.mp hc
      by_cases hs : d.isStored = true <;> simp [hs, store, use]
    rw [ih hb, hvariable, noteVariable]
    by_cases hv : d.isVariable = true
    · simp [hv, or_left_comm, or_assoc]
    · simp [hv]

/-- A terminal that is in use keeps its place, and one that comes in use gets its first place in the
declaration. -/
theorem getElem?_usedAt_use (spellings : List String) (s : String) :
    (a.use d spellings).usedAt[s]? =
      a.usedAt[s]?.or (if s ∈ spellings then some (d.firstUse s) else none) := by
  unfold use
  dsimp only
  generalize a.usedAt = used
  induction spellings generalizing used with
  | nil => simp
  | cons t ts ih =>
    rw [List.foldl_cons, ih]
    by_cases ht : t ∈ used
    · rw [if_pos ht]
      by_cases hts : t = s
      · subst hts
        obtain ⟨span, hspan⟩ :=
          Option.isSome_iff_exists.mp (Std.ExtTreeMap.mem_iff_isSome_getElem?.mp ht)
        simp [hspan]
      · simp [Ne.symm hts]
    · rw [if_neg ht, Std.ExtTreeMap.getElem?_insert]
      by_cases hts : t = s
      · subst hts
        simp [Std.ExtTreeMap.getElem?_eq_none ht]
      · simp [hts, Ne.symm hts]

theorem getElem?_usedAt_add (h : a.add d = .ok b) (s : String) :
    b.usedAt[s]? = a.usedAt[s]?.or
      (if s ∈ d.definition.plainTerminals then some (d.firstUse s) else none) := by
  obtain ⟨-, -, rfl⟩ := add_ok_iff.mp h
  have hused : ((a.noteVariable d).use d d.definition.plainTerminals).usedAt[s]? =
      a.usedAt[s]?.or
        (if s ∈ d.definition.plainTerminals then some (d.firstUse s) else none) := by
    rw [getElem?_usedAt_use, usedAt_noteVariable]
  by_cases hs : d.isStored = true
  · simp only [hs, if_true]
    exact hused
  · simp only [hs, Bool.false_eq_true, if_false]
    exact hused

theorem firstUsed_cons_iff {s : String} {span : Span} : FirstUsed (d :: ds) s span ↔
    (s ∈ d.definition.plainTerminals ∧ span = d.firstUse s) ∨
      (s ∉ d.definition.plainTerminals ∧ FirstUsed ds s span) := by
  constructor
  · rintro ⟨pre, c, post, hds, hpre, hs, rfl⟩
    rcases List.cons_eq_append_iff.mp hds with ⟨rfl, hc⟩ | ⟨pre, rfl, rfl⟩
    · obtain ⟨rfl, rfl⟩ := List.cons_eq_cons.mp hc
      exact .inl ⟨hs, rfl⟩
    · rw [List.forall_mem_cons] at hpre
      exact .inr ⟨hpre.1, pre, c, post, rfl, hpre.2, hs, rfl⟩
  · rintro (⟨hs, rfl⟩ | ⟨hd, pre, c, post, rfl, hpre, hs, rfl⟩)
    · exact ⟨[], d, ds, rfl, by simp, hs, rfl⟩
    · exact ⟨d :: pre, c, post, rfl, List.forall_mem_cons.mpr ⟨hd, hpre⟩, hs, rfl⟩

/-- A terminal that was not in use before is noted at the place where it is used first. -/
theorem getElem?_usedAt_addAll_iff (h : a.addAll ds = .ok b) {s : String} {span : Span} :
    b.usedAt[s]? = some span ↔
      a.usedAt[s]? = some span ∨ (a.usedAt[s]? = none ∧ FirstUsed ds s span) := by
  induction ds generalizing a with
  | nil =>
    cases h
    simp [FirstUsed]
  | cons d ds ih =>
    obtain ⟨c, hc, hb⟩ := addAll_cons_ok_iff.mp h
    rw [ih hb, firstUsed_cons_iff, getElem?_usedAt_add hc]
    cases a.usedAt[s]? with
    | some used => simp
    | none =>
      by_cases hs : s ∈ d.definition.plainTerminals
      · simp [hs, eq_comm]
      · simp [hs]

/-! ## Errors -/

theorem conditionalError?_cons {index : Nat} {p : Production} {ps : List Production}
    (hp : p.isConditional = false) :
    d.conditionalError? index (p :: ps) = d.conditionalError? (index + 1) ps := by
  cases p with
  | conditional param value body => cases hp
  | symbols ss => rfl
  | prose text => rfl

/-- A conditional production is at fault if no production before it is conditional. -/
theorem conditionalError?_eq_some_iff {index : Nat} {ps : List Production} :
    d.conditionalError? index ps = some e ↔
      ∃ before param value body after, ps = before ++ .conditional param value body :: after ∧
        (∀ p ∈ before, p.isConditional = false) ∧
        e = .invalidConditional d.name param value (d.productionSpan (index + before.length)) := by
  constructor
  · intro h
    induction ps generalizing index with
    | nil => cases h
    | cons p ps ih =>
      by_cases hp : p.isConditional = false
      · rw [conditionalError?_cons hp] at h
        obtain ⟨before, param, value, body, after, rfl, hbefore, rfl⟩ := ih h
        refine ⟨p :: before, param, value, body, after, rfl,
          List.forall_mem_cons.mpr ⟨hp, hbefore⟩, ?_⟩
        rw [List.length_cons, Nat.add_assoc, Nat.add_comm 1]
      · cases p with
        | conditional param value body =>
          cases h
          exact ⟨[], param, value, body, ps, rfl, by simp, rfl⟩
        | symbols ss => exact absurd rfl hp
        | prose text => exact absurd rfl hp
  · rintro ⟨before, param, value, body, after, rfl, hbefore, rfl⟩
    induction before generalizing index with
    | nil => rfl
    | cons p before ih =>
      rw [List.forall_mem_cons] at hbefore
      rw [List.cons_append, conditionalError?_cons hbefore.1, ih hbefore.2, List.length_cons,
        Nat.add_assoc, Nat.add_comm 1]

/-- A plain definition is refused for a conditional production, or else for a name that is stored.
-/
theorem add_alternatives_error_iff {ps : List Production} (hd : d.definition = .alternatives ps) :
    a.add d = .error e ↔ d.conditionalError? 0 ps = some e ∨
      (d.conditionalError? 0 ps = none ∧ d.separator = ":" ∧ ∃ first,
        a.definedAt[d.name]? = some first ∧ e = .duplicateDefinition d.name d.nameSpan first) := by
  have hdefined : ((a.noteVariable d).use d (ps.flatMap Production.terminals)).definedAt =
      a.definedAt := definedAt_noteVariable
  simp only [add, hd]
  cases d.conditionalError? 0 ps with
  | some e' => simp
  | none =>
    dsimp only
    rw [hdefined]
    by_cases hs : d.separator = ":"
    · cases a.definedAt[d.name]? with
      | none => simp [hs]
      | some first => simp [hs, eq_comm]
    · simp [hs]

/-- Adding a declaration to those before it fails just where it is at fault. -/
theorem add_error_iff (ha : empty.addAll ds = .ok a) : a.add d = .error e ↔ d.Fault ds e := by
  have hdefined : a.definedAt[d.name]? = (lastStored? ds d.name).map Declaration.nameSpan := by
    rw [getElem?_definedAt_addAll ha]
    simp [empty]
  cases hd : d.definition with
  | parameterized params ps =>
    constructor
    · intro h
      simp [add, hd] at h
    · rintro (⟨hd', -⟩ | ⟨-, hplain, -⟩)
      · cases hd.symm.trans hd'
      · simp [Declaration.isPlain, Declaration.isParameterized, hd] at hplain
  | alternatives ps =>
    have hplain : d.isPlain = true ↔ d.separator = ":" := by
      simp [Declaration.isPlain, Declaration.isParameterized, hd]
    have hnone : d.conditionalError? 0 ps = none ↔ d.definition.Unconditional := by
      rw [hd]
      exact Declaration.conditionalError?_eq_none
    rw [add_alternatives_error_iff hd, conditionalError?_eq_some_iff, hnone, ← hplain, hdefined]
    constructor
    · rintro (⟨before, param, value, body, after, rfl, hbefore, rfl⟩ |
        ⟨hu, hp, first, hfirst, rfl⟩)
      · rw [Nat.zero_add]
        exact .conditional hd hbefore
      · obtain ⟨d', hd', rfl⟩ := Option.map_eq_some_iff.mp hfirst
        exact .duplicate hu hp hd'
    · rintro (⟨hd', hbefore⟩ | ⟨hu, hp, hfirst⟩)
      · obtain rfl := Definition.alternatives.inj (hd.symm.trans hd')
        exact .inl ⟨_, _, _, _, _, rfl, hbefore, by rw [Nat.zero_add]⟩
      · exact .inr ⟨hu, hp, _, by rw [hfirst]; rfl, rfl⟩

/-- The first declaration that cannot be added gives the error. -/
theorem addAll_error_iff : a.addAll ds = .error e ↔
    ∃ pre d post b, ds = pre ++ d :: post ∧ a.addAll pre = .ok b ∧ b.add d = .error e := by
  induction ds generalizing a with
  | nil => simp [addAll]
  | cons d ds ih =>
    have hcons : a.addAll (d :: ds) = .error e ↔
        a.add d = .error e ∨ ∃ c, a.add d = .ok c ∧ c.addAll ds = .error e := by
      rw [addAll]
      cases a.add d with
      | ok c => simp [bind, Except.bind]
      | error e' => simp [bind, Except.bind]
    rw [hcons]
    constructor
    · rintro (h | ⟨c, hc, h⟩)
      · exact ⟨[], d, ds, a, rfl, rfl, h⟩
      · obtain ⟨pre, d', post, b, rfl, hpre, hd'⟩ := ih.mp h
        exact ⟨d :: pre, d', post, b, rfl, addAll_cons_ok_iff.mpr ⟨c, hc, hpre⟩, hd'⟩
    · rintro ⟨pre, d', post, b, hds, hpre, hd'⟩
      rcases List.cons_eq_append_iff.mp hds with ⟨rfl, hd⟩ | ⟨pre, rfl, rfl⟩
      · obtain ⟨rfl, rfl⟩ := List.cons_eq_cons.mp hd
        cases hpre
        exact .inl hd'
      · obtain ⟨c, hc, hpre⟩ := addAll_cons_ok_iff.mp hpre
        exact .inr ⟨c, hc, ih.mpr ⟨pre, d', post, b, rfl, hpre, hd'⟩⟩

/-- The error for a collision names the least spelling that is also a stored name. -/
theorem collision?_eq_some_iff : a.collision? = some e ↔
    ∃ name used, a.usedAt[name]? = some used ∧ name ∈ a.nonterminals ∧
      (∀ s ∈ a.usedAt, s ∈ a.nonterminals → name ≤ s) ∧
      e = .nameCollision name used (a.definedAt[name]?.getD (.point 0)) := by
  have hmem : ∀ {s : String}, s ∈ a.usedAt ↔ ∃ used, (s, used) ∈ a.usedAt.toList := by
    intro s
    rw [Std.ExtTreeMap.mem_iff_isSome_getElem?, Option.isSome_iff_exists]
    simp only [Std.ExtTreeMap.mem_toList_iff_getElem?_eq_some]
  have hordered : a.usedAt.toList.Pairwise fun x y => x.1 < y.1 :=
    (Std.ExtTreeMap.ordered_keys_toList (t := a.usedAt)).imp fun h => compareOfLessAndEq_eq_lt.mp h
  rw [collision?, List.findSome?_eq_some_iff]
  constructor
  · rintro ⟨pre, ⟨name, used⟩, post, hlist, hf, hpre⟩
    dsimp only at hf
    by_cases hn : name ∈ a.nonterminals
    · rw [if_pos hn, Option.some_inj] at hf
      refine ⟨name, used, ?_, hn, fun s hs hsn => ?_, hf.symm⟩
      · rw [← Std.ExtTreeMap.mem_toList_iff_getElem?_eq_some, hlist]
        simp
      · obtain ⟨used', hs⟩ := hmem.mp hs
        rw [hlist, List.mem_append, List.mem_cons] at hs
        rcases hs with hs | hs | hs
        · -- A lesser spelling would have been found first.
          simpa [hsn] using hpre _ hs
        · obtain ⟨rfl, -⟩ := Prod.mk.inj hs
          exact String.le_refl _
        · rw [hlist, List.pairwise_append, List.pairwise_cons] at hordered
          exact Std.le_of_lt (hordered.2.1.1 _ hs)
    · rw [if_neg hn] at hf
      cases hf
  · rintro ⟨name, used, hused, hn, hleast, rfl⟩
    rw [← Std.ExtTreeMap.mem_toList_iff_getElem?_eq_some] at hused
    obtain ⟨pre, post, hlist⟩ := List.append_of_mem hused
    refine ⟨pre, (name, used), post, hlist, if_pos hn, fun x hx => if_neg fun hxn => ?_⟩
    have hxs : x.1 ∈ a.usedAt := hmem.mpr ⟨x.2, by rw [hlist]; exact List.mem_append_left _ hx⟩
    rw [hlist, List.pairwise_append] at hordered
    exact String.not_le.mpr (hordered.2.2 x hx _ List.mem_cons_self) (hleast x.1 hxs hxn)

/-- Declarations can be added just where none is at fault. -/
theorem exists_addAll_empty_iff : (∃ b, empty.addAll ds = .ok b) ↔ Faultless ds := by
  rw [exists_addAll_iff]
  simp [Faultless, empty]

/-- What is in use and stored are the collisions of the declarations. -/
theorem collides_iff (h : empty.addAll ds = .ok b) {s : String} :
    Collides ds s ↔ s ∈ b.usedAt ∧ s ∈ b.nonterminals := by
  rw [mem_usedAt_addAll h, mem_nonterminals_addAll h]
  simp [Collides, empty]

end Assembly

open Assembly

variable {ds : List Declaration} {goals : Names} {e : GrammarError}

theorem assemble_error_iff : assemble ds goals = .error e ↔
    empty.addAll ds = .error e ∨ ∃ a, empty.addAll ds = .ok a ∧ a.collision? = some e := by
  rw [assemble]
  cases empty.addAll ds with
  | error e' => simp [bind, Except.bind]
  | ok a =>
    simp only [bind, Except.bind]
    cases hc : a.collision? with
    | some e' => simp [throw, throwThe, MonadExceptOf.throw, hc]
    | none => simp [pure, Except.pure, hc]

/-- The goals of a grammar are those given, and nothing else depends on them. -/
theorem assemble_goals (ds : List Declaration) (goals goals' : Names) :
    assemble ds goals' = (assemble ds goals).map ({ · with goals := goals' }) := by
  simp only [assemble]
  cases empty.addAll ds with
  | error e => rfl
  | ok a =>
    simp only [bind, Except.bind]
    cases a.collision? <;> rfl

/-- Declarations fail to make a grammar with the fault of the first that is at fault, or else with
the least collision. -/
theorem assemble_error_iff_fault : assemble ds goals = .error e ↔
    (∃ pre d post, ds = pre ++ d :: post ∧ Faultless pre ∧ d.Fault pre e) ∨
    (Faultless ds ∧ ∃ name used first, Collides ds name ∧ (∀ s, Collides ds s → name ≤ s) ∧
      FirstUsed ds name used ∧ lastStored? ds name = some first ∧
      e = .nameCollision name used first.nameSpan) := by
  rw [assemble_error_iff]
  refine or_congr ?_ ?_
  · rw [addAll_error_iff]
    constructor
    · rintro ⟨pre, d, post, b, rfl, hb, hd⟩
      exact ⟨pre, d, post, rfl, exists_addAll_empty_iff.mp ⟨b, hb⟩, (add_error_iff hb).mp hd⟩
    · rintro ⟨pre, d, post, rfl, hpre, hd⟩
      obtain ⟨b, hb⟩ := exists_addAll_empty_iff.mpr hpre
      exact ⟨pre, d, post, b, rfl, hb, (add_error_iff hb).mpr hd⟩
  · constructor
    · rintro ⟨a, ha, hc⟩
      obtain ⟨name, used, hused, hn, hleast, rfl⟩ := collision?_eq_some_iff.mp hc
      have hfirst : FirstUsed ds name used := by
        simpa [empty] using (getElem?_usedAt_addAll_iff ha).mp hused
      obtain ⟨first, hlast⟩ := exists_lastStored?_iff.mpr ((mem_nonterminals_addAll ha).mp hn)
      have hused' : name ∈ a.usedAt := by
        rw [Std.ExtTreeMap.mem_iff_isSome_getElem?, hused]
        rfl
      refine ⟨exists_addAll_empty_iff.mp ⟨a, ha⟩, name, used, first,
        (collides_iff ha).mpr ⟨hused', hn⟩, fun s hs => ?_, hfirst, hlast, ?_⟩
      · obtain ⟨hsu, hsn⟩ := (collides_iff ha).mp hs
        exact hleast s hsu hsn
      · rw [getElem?_definedAt_addAll ha, hlast]
        rfl
    · rintro ⟨hds, name, used, first, hcollides, hleast, hfirst, hlast, rfl⟩
      obtain ⟨a, ha⟩ := exists_addAll_empty_iff.mpr hds
      refine ⟨a, ha, collision?_eq_some_iff.mpr ⟨name, used, ?_,
        ((collides_iff ha).mp hcollides).2, fun s hsu hsn => ?_, ?_⟩⟩
      · rw [getElem?_usedAt_addAll_iff ha]
        exact .inr ⟨by simp [empty], hfirst⟩
      · exact hleast s ((collides_iff ha).mpr ⟨hsu, hsn⟩)
      · rw [getElem?_definedAt_addAll ha, hlast]
        rfl

/-- The error of a fault is about a declaration by itself or about its name. -/
theorem Declaration.Fault.ne_nameCollision {earlier : List Declaration} {d : Declaration}
    (h : d.Fault earlier e) (name : String) (used first : Span) :
    e ≠ .nameCollision name used first := by
  cases h <;> nofun

/-- Declarations fail for a collision just where none is at fault and the collision is the least. -/
theorem assemble_collision_iff {name : String} {used first : Span} :
    assemble ds goals = .error (.nameCollision name used first) ↔
      Faultless ds ∧ Collides ds name ∧ (∀ s, Collides ds s → name ≤ s) ∧
        FirstUsed ds name used ∧ (lastStored? ds name).map Declaration.nameSpan = some first := by
  rw [assemble_error_iff_fault, Option.map_eq_some_iff]
  constructor
  · rintro (⟨pre, d, post, -, -, hd⟩ | ⟨hds, n, u, f, hcollides, hleast, hused, hfirst, heq⟩)
    · exact absurd rfl (hd.ne_nameCollision name used first)
    · obtain ⟨rfl, rfl, rfl⟩ := GrammarError.nameCollision.inj heq
      exact ⟨hds, hcollides, hleast, hused, f, hfirst, rfl⟩
  · rintro ⟨hds, hcollides, hleast, hused, f, hfirst, rfl⟩
    exact .inr ⟨hds, name, used, f, hcollides, hleast, hused, hfirst, rfl⟩

/-- What assembly makes of declarations.  They make a grammar just where none is at fault after
those before it and no spelling of a plain definition is a stored name.  The grammar has for each
stored name the last definition that is stored under it, as variable terminals the names with more
than one colon, and the goals that were given, which matter for nothing else.  Otherwise the error
is the fault of the first declaration that is at fault, or else that of the least spelling that is
a stored name, with the place of its first use and that of the last name stored. -/
theorem assemble_specification (ds : List Declaration) (goals : Names) :
    ((∃ g, assemble ds goals = .ok g) ↔
      (∀ d ∈ ds, d.definition.Unconditional) ∧
      (ds.Pairwise fun d e => d.isStored = true → e.isPlain = true → d.name ≠ e.name) ∧
      ∀ d ∈ ds, ∀ s ∈ d.definition.plainTerminals, ∀ e ∈ ds, e.isStored = true → e.name ≠ s) ∧
    (∀ g, assemble ds goals = .ok g →
      (∀ name, g.get? name = (lastStored? ds name).map Declaration.definition) ∧
      (∀ name, name ∈ g.variableTerminals ↔ ∃ d ∈ ds, d.isVariable = true ∧ d.name = name) ∧
      g.goals = goals) ∧
    (∀ goals', assemble ds goals' = (assemble ds goals).map ({ · with goals := goals' })) ∧
    ∀ e, assemble ds goals = .error e ↔
      (∃ pre d post, ds = pre ++ d :: post ∧ Faultless pre ∧ d.Fault pre e) ∨
      (Faultless ds ∧ ∃ name used first, Collides ds name ∧ (∀ s, Collides ds s → name ≤ s) ∧
        FirstUsed ds name used ∧ lastStored? ds name = some first ∧
        e = .nameCollision name used first.nameSpan) := by
  refine ⟨?_, fun g hg => ?_, assemble_goals ds goals, fun e => assemble_error_iff_fault⟩
  · have hcollision : (∀ d ∈ ds, ∀ s ∈ d.definition.plainTerminals, ∀ e ∈ ds,
        e.isStored = true → e.name ≠ s) ↔ ∀ s, ¬ Collides ds s := by
      simp only [Collides]
      grind
    rw [hcollision, ← and_assoc]
    simp only [assemble_ok_iff, collision?_eq_none_iff]
    constructor
    · rintro ⟨g, a, ha, hc, -⟩
      exact ⟨exists_addAll_empty_iff.mp ⟨a, ha⟩, fun s hs =>
        hc s ((collides_iff ha).mp hs).1 ((collides_iff ha).mp hs).2⟩
    · rintro ⟨hds, hc⟩
      obtain ⟨a, ha⟩ := exists_addAll_empty_iff.mpr hds
      exact ⟨_, a, ha, fun s hs hn => hc s ((collides_iff ha).mpr ⟨hs, hn⟩), rfl⟩
  · obtain ⟨a, ha, -, rfl⟩ := assemble_ok_iff.mp hg
    refine ⟨fun name => ?_, fun name => ?_, rfl⟩
    · show a.nonterminals[name]? = _
      rw [getElem?_nonterminals_addAll ha]
      simp [empty]
    · show name ∈ a.variableTerminals ↔ _
      rw [mem_variableTerminals_addAll ha]
      simp [empty]

end GrammarText
