import GrammarText.Assembly

/-!
# What assembly does

`Assembly.add_ok_iff` says what adding a declaration does, and when it succeeds.  From it follows
what adding a list of declarations does to each of the tables: the last stored declaration of a name
gives its definition, and the terminals of all plain declarations are in use.
-/

namespace GrammarText

/-! ## Plain and stored declarations -/

def Production.isConditional : Production → Bool
  | conditional .. => true
  | symbols _ | prose _ => false

namespace Definition

def Unconditional : Definition → Prop
  | alternatives ps => ∀ p ∈ ps, p.isConditional = false
  | parameterized .. => True

def plainTerminals : Definition → List String
  | alternatives ps => ps.flatMap Production.terminals
  | parameterized .. => []

end Definition

namespace Declaration

/-- What matters of a declaration, without its places. -/
def key (d : Declaration) : String × String × Definition := (d.name, d.separator, d.definition)

/-- Whether a declaration has a single colon and no parameters, so that it may be stored only if
its name is not stored yet. -/
def isPlain (d : Declaration) : Bool := !d.isParameterized && d.separator = ":"

def isStored (d : Declaration) : Bool := d.isParameterized || d.separator = ":"

theorem conditionalError?_eq_none {d : Declaration} {index : Nat} {ps : List Production} :
    d.conditionalError? index ps = none ↔ ∀ p ∈ ps, p.isConditional = false := by
  induction ps generalizing index with
  | nil => simp [conditionalError?]
  | cons p ps ih =>
    cases p with
    | conditional param value body => simp [conditionalError?, Production.isConditional]
    | symbols ss => simp [conditionalError?, Production.isConditional, ih]
    | prose text => simp [conditionalError?, Production.isConditional, ih]

end Declaration

/-! ## One declaration -/

namespace Assembly

variable {a b : Assembly} {d : Declaration} {ds : List Declaration}

@[simp] theorem nonterminals_noteVariable :
    (a.noteVariable d).nonterminals = a.nonterminals := by
  unfold noteVariable
  split <;> rfl

@[simp] theorem definedAt_noteVariable : (a.noteVariable d).definedAt = a.definedAt := by
  unfold noteVariable
  split <;> rfl

@[simp] theorem usedAt_noteVariable : (a.noteVariable d).usedAt = a.usedAt := by
  unfold noteVariable
  split <;> rfl

/-- The terminals in use are those that were and those that are noted. -/
theorem mem_usedAt_use {spellings : List String} {s : String} :
    s ∈ (a.use d spellings).usedAt ↔ s ∈ a.usedAt ∨ s ∈ spellings := by
  unfold use
  dsimp only
  generalize a.usedAt = used
  induction spellings generalizing used with
  | nil => simp
  | cons t ts ih =>
    rw [List.foldl_cons, ih]
    by_cases ht : t ∈ used
    · rw [if_pos ht, List.mem_cons]
      grind
    · rw [if_neg ht, List.mem_cons, Std.ExtTreeMap.mem_insert]
      grind

@[simp] theorem use_nil : a.use d [] = a := rfl

/-- Adding a declaration fails for a plain definition with a conditional production, and for a plain
declaration of a name that is stored; else it notes what the declaration uses, and stores it. -/
theorem add_ok_iff : a.add d = .ok b ↔
    d.definition.Unconditional ∧ (d.isPlain = true → d.name ∉ a.definedAt) ∧
      b = let noted := (a.noteVariable d).use d d.definition.plainTerminals
        if d.isStored then noted.store d else noted := by
  cases hd : d.definition with
  | parameterized params ps =>
    have hparams : d.isParameterized = true := by simp [Declaration.isParameterized, hd]
    have hadd : a.add d = .ok ((a.noteVariable d).store d) := by simp [add, hd]
    simp [hadd, Definition.Unconditional, Definition.plainTerminals, Declaration.isPlain,
      Declaration.isStored, hparams, eq_comm]
  | alternatives ps =>
    have hparams : d.isParameterized = false := by simp [Declaration.isParameterized, hd]
    have hcond : d.conditionalError? 0 ps = none ↔ ∀ p ∈ ps, p.isConditional = false :=
      Declaration.conditionalError?_eq_none
    simp only [add, hd, Definition.Unconditional, Definition.plainTerminals, ← hcond,
      Declaration.isPlain, Declaration.isStored, hparams]
    cases d.conditionalError? 0 ps with
    | some e => simp
    | none =>
      -- What is in use does not matter for whether the name is stored already.
      by_cases hs : d.separator = ":"
      · have hused : (((a.noteVariable d).use d (ps.flatMap Production.terminals)).definedAt) =
            a.definedAt := definedAt_noteVariable
        rw [hused]
        cases hdef : a.definedAt[d.name]? with
        | none =>
          have hmem : d.name ∉ a.definedAt := by
            rw [Std.ExtTreeMap.mem_iff_isSome_getElem?, hdef]
            simp
          simp [hs, hmem, eq_comm]
        | some span =>
          have hmem : d.name ∈ a.definedAt := by
            rw [Std.ExtTreeMap.mem_iff_isSome_getElem?, hdef]
            rfl
          simp [hs, hmem]
      · simp [hs, eq_comm]

/-- What adding a declaration does to each table, where it succeeds. -/
theorem add_tables (h : a.add d = .ok b) :
    b.nonterminals =
      (if d.isStored then a.nonterminals.insert d.name d.definition else a.nonterminals) ∧
    b.definedAt = (if d.isStored then a.definedAt.insert d.name d.nameSpan else a.definedAt) ∧
    ∀ s, s ∈ b.usedAt ↔ s ∈ a.usedAt ∨ s ∈ d.definition.plainTerminals := by
  obtain ⟨-, -, rfl⟩ := add_ok_iff.mp h
  have hnonterminals : ((a.noteVariable d).use d d.definition.plainTerminals).nonterminals =
      a.nonterminals := nonterminals_noteVariable
  have hdefined : ((a.noteVariable d).use d d.definition.plainTerminals).definedAt =
      a.definedAt := definedAt_noteVariable
  have hused : ∀ s, s ∈ ((a.noteVariable d).use d d.definition.plainTerminals).usedAt ↔
      s ∈ a.usedAt ∨ s ∈ d.definition.plainTerminals := by
    intro s
    rw [mem_usedAt_use, usedAt_noteVariable]
  by_cases hs : d.isStored = true
  · simp only [hs, if_true, store, hnonterminals, hdefined]
    exact ⟨trivial, trivial, hused⟩
  · simp only [hs, Bool.false_eq_true, if_false, hnonterminals, hdefined]
    exact ⟨trivial, trivial, hused⟩

/-- The names that are stored after a declaration. -/
theorem mem_definedAt_add (h : a.add d = .ok b) {name : String} :
    name ∈ b.definedAt ↔ d.isStored = true ∧ d.name = name ∨ name ∈ a.definedAt := by
  rw [(add_tables h).2.1]
  by_cases hs : d.isStored = true
  · rw [if_pos hs, Std.ExtTreeMap.mem_insert, Std.LawfulEqCmp.compare_eq_iff_eq]
    simp [hs]
  · simp [hs]

/-! ## All declarations -/

def lastStored? (ds : List Declaration) (name : String) : Option Declaration :=
  ds.reverse.find? fun d => d.isStored && d.name = name

theorem lastStored?_cons (d : Declaration) (ds : List Declaration) (name : String) :
    lastStored? (d :: ds) name =
      (lastStored? ds name).or (if d.isStored && d.name = name then some d else none) := by
  simp only [lastStored?, List.reverse_cons, List.find?_append, List.find?_singleton]

theorem mem_of_lastStored? {name : String} (h : lastStored? ds name = some d) :
    d ∈ ds ∧ d.isStored = true ∧ d.name = name := by
  have hd := List.find?_some h
  simp only [Bool.and_eq_true, decide_eq_true_eq] at hd
  exact ⟨List.mem_reverse.mp (List.mem_of_find?_eq_some h), hd⟩

/-- Adding declarations goes on after the first. -/
theorem addAll_cons_ok_iff :
    a.addAll (d :: ds) = .ok b ↔ ∃ c, a.add d = .ok c ∧ c.addAll ds = .ok b := by
  rw [addAll]
  cases a.add d with
  | ok c => simp [bind, Except.bind]
  | error e => simp [bind, Except.bind]

/-- A table that each stored declaration writes has for a name what the last one has written. -/
theorem getElem?_addAll {β : Type} {table : Assembly → Std.ExtTreeMap String β}
    {value : Declaration → β}
    (hadd : ∀ {a b : Assembly} {d : Declaration}, a.add d = .ok b →
      table b = if d.isStored then (table a).insert d.name (value d) else table a)
    (h : a.addAll ds = .ok b) (name : String) :
    (table b)[name]? = ((lastStored? ds name).map value).or (table a)[name]? := by
  induction ds generalizing a with
  | nil =>
    cases h
    rfl
  | cons d ds ih =>
    obtain ⟨c, hc, hb⟩ := addAll_cons_ok_iff.mp h
    rw [ih hb, hadd hc, lastStored?_cons]
    -- A later declaration of the name replaces this one.
    cases lastStored? ds name with
    | some e => rfl
    | none =>
      by_cases hs : d.isStored = true
      · by_cases hn : d.name = name
        · simp [hs, hn]
        · simp [hs, hn, Std.ExtTreeMap.getElem?_insert]
      · simp [hs]

/-- The definition of a name is that of the last declaration that was stored under it. -/
theorem getElem?_nonterminals_addAll (h : a.addAll ds = .ok b) (name : String) :
    b.nonterminals[name]? =
      ((lastStored? ds name).map Declaration.definition).or a.nonterminals[name]? :=
  getElem?_addAll (fun h => (add_tables h).1) h name

/-- A name was defined where its last stored declaration has it. -/
theorem getElem?_definedAt_addAll (h : a.addAll ds = .ok b) (name : String) :
    b.definedAt[name]? =
      ((lastStored? ds name).map Declaration.nameSpan).or a.definedAt[name]? :=
  getElem?_addAll (fun h => (add_tables h).2.1) h name

/-- The terminals in use are those of all plain definitions. -/
theorem mem_usedAt_addAll (h : a.addAll ds = .ok b) {s : String} :
    s ∈ b.usedAt ↔ s ∈ a.usedAt ∨ ∃ d ∈ ds, s ∈ d.definition.plainTerminals := by
  induction ds generalizing a with
  | nil =>
    cases h
    simp
  | cons d ds ih =>
    obtain ⟨c, hc, hb⟩ := addAll_cons_ok_iff.mp h
    rw [ih hb, (add_tables hc).2.2]
    simp [or_assoc]

/-- Adding declarations succeeds just where no plain definition has a conditional production and no
plain declaration comes after a stored one of its name. -/
theorem exists_addAll_iff : (∃ b, a.addAll ds = .ok b) ↔
    (∀ d ∈ ds, d.definition.Unconditional) ∧
      (∀ d ∈ ds, d.isPlain = true → d.name ∉ a.definedAt) ∧
      ds.Pairwise fun d e => d.isStored = true → e.isPlain = true → d.name ≠ e.name := by
  induction ds generalizing a with
  | nil => simp [addAll]
  | cons d ds ih =>
    have hcons : (∃ b, a.addAll (d :: ds) = .ok b) ↔
        ∃ c, a.add d = .ok c ∧ ∃ b, c.addAll ds = .ok b := by
      simp only [addAll_cons_ok_iff]
      grind
    rw [hcons, List.forall_mem_cons, List.forall_mem_cons, List.pairwise_cons]
    constructor
    · rintro ⟨c, hc, hb⟩
      obtain ⟨hu, hp, -⟩ := add_ok_iff.mp hc
      obtain ⟨hus, hps, hpair⟩ := ih.mp hb
      refine ⟨⟨hu, hus⟩, ⟨hp, fun e he hplain hmem => ?_⟩, fun e he hs hplain hname => ?_, hpair⟩
      · exact hps e he hplain ((mem_definedAt_add hc).mpr (.inr hmem))
      · exact hps e he hplain ((mem_definedAt_add hc).mpr (.inl ⟨hs, hname⟩))
    · rintro ⟨⟨hu, hus⟩, ⟨hp, hps⟩, hfirst, hpair⟩
      obtain ⟨c, hc⟩ : ∃ c, a.add d = .ok c := ⟨_, add_ok_iff.mpr ⟨hu, hp, rfl⟩⟩
      refine ⟨c, hc, ih.mpr ⟨hus, fun e he hplain hmem => ?_, hpair⟩⟩
      rcases (mem_definedAt_add hc).mp hmem with ⟨hs, hname⟩ | hmem
      · exact hfirst e he hs hplain hname
      · exact hps e he hplain hmem

/-- No terminal in use is the name of a stored definition. -/
theorem collision?_eq_none_iff :
    a.collision? = none ↔ ∀ s ∈ a.usedAt, s ∉ a.nonterminals := by
  rw [collision?, List.findSome?_eq_none_iff]
  constructor
  · intro h s hs hstored
    obtain ⟨span, hspan⟩ :=
      Option.isSome_iff_exists.mp (Std.ExtTreeMap.mem_iff_isSome_getElem?.mp hs)
    have := h (s, span) (Std.ExtTreeMap.mem_toList_iff_getElem?_eq_some.mpr hspan)
    simp [hstored] at this
  · rintro h ⟨s, span⟩ hs
    have hused : s ∈ a.usedAt := by
      rw [Std.ExtTreeMap.mem_iff_isSome_getElem?,
        Std.ExtTreeMap.mem_toList_iff_getElem?_eq_some.mp hs]
      rfl
    exact if_neg (h s hused)

end Assembly

/-- Declarations make a grammar just where they can be added and no terminal collides with a name.
-/
theorem assemble_ok_iff {ds : List Declaration} {goals : Names} {g : Grammar} :
    assemble ds goals = .ok g ↔
      ∃ a, Assembly.empty.addAll ds = .ok a ∧ a.collision? = none ∧ a.grammar goals = g := by
  rw [assemble]
  cases Assembly.empty.addAll ds with
  | error e => simp [bind, Except.bind]
  | ok a =>
    simp only [bind, Except.bind]
    cases hc : a.collision? with
    | some e => simp [throw, throwThe, MonadExceptOf.throw, hc]
    | none => simp [pure, Except.pure, hc]

end GrammarText
