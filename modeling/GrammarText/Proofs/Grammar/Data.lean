import GrammarText.Grammar.Data

/-!
# Grammars are read back from their data

The record that a part of a grammar is written as says by its kind which shape the part has, and all
that the part holds is in its other fields.  So each part has a reader (`Symbol.ofData?`,
`Production.ofData?`, and so on) that gives it back, and so has a whole grammar
(`Grammar.ofData?_toData`).
-/

namespace GrammarText

/-! ## Readers -/

def Data.text? : Data → Option String
  | text s => some s
  | _ => none

def Names.ofData? : Data → Option Names
  | .list ds => (ds.mapM Data.text?).map fun names => .ofList names
  | _ => none

def Argument.ofData? : Data → Option Argument
  | .record [("kind", .text "fixed"), ("value", .bool value)] => some (.fixed value)
  | .record [("kind", .text "var"), ("value", .text name)] => some (.var name)
  | _ => none

def Exclusion.ofData? : Data → Option Exclusion
  | .record [("kind", .text "terminal"), ("spelling", .text s)] => some (.terminal s)
  | .record [("kind", .text "nonterminal"), ("name", .text s)] => some (.nonterminal s)
  | .record [("kind", .text "range"), ("low", .text low), ("high", .text high)] =>
    some (.range low high)
  | _ => none

def Lookahead.ofData? : Data → Option Lookahead
  | .record [("kind", .text "token_set"), ("tokens", tokens), ("positive", .bool positive)] =>
    (Names.ofData? tokens).map fun names => .tokenSet names positive
  | .record [("kind", .text "not_nonterminal"), ("name", .text s)] => some (.notNonterminal s)
  | _ => none

def Argument.pairOfData? : Data → Option (String × Argument)
  | .list [.text param, arg] => (ofData? arg).map fun arg => (param, arg)
  | _ => none

def Symbol.ofData? : Data → Option Symbol
  | .record [("kind", .text "terminal"), ("spelling", .text s)] => some (.terminal s)
  | .record [("kind", .text "nonterminal"), ("name", .text s)] => some (.nonterminal s)
  | .record [("kind", .text "apply"), ("name", .text s), ("args", .list args)] =>
    (args.mapM Argument.pairOfData?).map fun args => .apply s args
  | .record [("kind", .text "optional"), ("inner", inner)] => (ofData? inner).map .optional
  | .record [("kind", .text "exclusion"), ("base", base), ("exclusions", .list exclusions)] => do
    let base ← ofData? base
    let exclusions ← exclusions.mapM Exclusion.ofData?
    return .exclusion base exclusions
  | .record [("kind", .text "lookahead"), ("rule", rule)] =>
    (Lookahead.ofData? rule).map .lookahead
  | .record [("kind", .text "no_line_terminator_here")] => some .noLineTerminatorHere
  | _ => none

def Production.ofData? : Data → Option Production
  | .record [("kind", .text "symbols"), ("symbols", .list ss)] =>
    (ss.mapM Symbol.ofData?).map .symbols
  | .record [("kind", .text "conditional"), ("param", .text param), ("value", .bool value),
      ("rhs", body)] => (ofData? body).map fun body => .conditional param value body
  | .record [("kind", .text "prose"), ("text", .text s)] => some (.prose s)
  | _ => none

def Definition.ofData? : Data → Option Definition
  | .record [("kind", .text "alternatives"), ("rhs", .list ps)] =>
    (ps.mapM Production.ofData?).map .alternatives
  | .record [("kind", .text "parameterized"), ("params", .list params), ("rhs", .list ps)] => do
    let params ← params.mapM Data.text?
    let ps ← ps.mapM Production.ofData?
    return .parameterized params ps
  | _ => none

def Definition.entryOfData? (f : String × Data) : Option (String × Definition) :=
  (ofData? f.2).map fun d => (f.1, d)

def Grammar.ofData? : Data → Option Grammar
  | .record [("nonterminals", .record fields), ("goals", goals),
      ("variable_terminals", variableTerminals)] => do
    let definitions ← fields.mapM Definition.entryOfData?
    return ⟨.ofList definitions, ← Names.ofData? goals, ← Names.ofData? variableTerminals⟩
  | _ => none

/-! ## Each part is read back -/

/-- What is always read back is written in different ways. -/
theorem injective_of_read {α β : Type} {write : α → β} {read : β → Option α}
    (h : ∀ a, read (write a) = some a) : Function.Injective write :=
  fun a b heq => Option.some.inj ((h a).symm.trans (heq ▸ h b))

/-- A list is read back if each of its items is. -/
theorem mapM_map_eq_some {α β : Type} {f : α → β} {g : β → Option α}
    (h : ∀ a, g (f a) = some a) (as : List α) : (as.map f).mapM g = some as := by
  have hread : g ∘ f = some := funext h
  rw [List.mapM_map, hread]
  exact (List.mapM_pure (m := Option) (f := id)).trans (by rw [List.map_id]; rfl)

/-- A set is made of the names that it lists. -/
theorem Names.ofList_toList (names : Names) : (.ofList names.toList : Names) = names := by
  apply Std.ExtTreeSet.ext_mem
  simp

theorem Names.ofData?_toData (names : Names) : ofData? names.toData = some names := by
  have hnames := mapM_map_eq_some (f := Data.text) (g := Data.text?) (fun _ => rfl) names.toList
  rw [toData, ofData?, hnames, Option.map_some, ofList_toList]

theorem Argument.ofData?_toData (arg : Argument) : ofData? arg.toData = some arg := by
  cases arg <;> rfl

theorem Exclusion.ofData?_toData (e : Exclusion) : ofData? e.toData = some e := by
  cases e <;> rfl

theorem Lookahead.ofData?_toData (rule : Lookahead) : ofData? rule.toData = some rule := by
  cases rule with
  | tokenSet tokens positive =>
    simp [toData, Data.tagged, ofData?, Names.ofData?_toData]
  | notNonterminal name => rfl

theorem Argument.pairOfData?_toData (a : String × Argument) :
    pairOfData? (.list [.text a.1, a.2.toData]) = some a := by
  simp [pairOfData?, ofData?_toData]

theorem Symbol.ofData?_toData (s : Symbol) : ofData? s.toData = some s := by
  induction s with
  | terminal spelling => simp [toData, Data.tagged, ofData?]
  | nonterminal name => simp [toData, Data.tagged, ofData?]
  | apply name args =>
    simp only [toData, Data.tagged, ofData?]
    rw [mapM_map_eq_some Argument.pairOfData?_toData]
    rfl
  | optional inner ih => simp [toData, Data.tagged, ofData?, ih]
  | exclusion base exclusions ih =>
    simp [toData, Data.tagged, ofData?, ih, mapM_map_eq_some Exclusion.ofData?_toData]
  | lookahead rule => simp [toData, Data.tagged, ofData?, Lookahead.ofData?_toData]
  | noLineTerminatorHere => simp [toData, Data.tagged, ofData?]

theorem Production.ofData?_toData (p : Production) : ofData? p.toData = some p := by
  induction p with
  | symbols ss =>
    simp [toData, Data.tagged, ofData?, mapM_map_eq_some Symbol.ofData?_toData]
  | conditional param value body ih => simp [toData, Data.tagged, ofData?, ih]
  | prose text => simp [toData, Data.tagged, ofData?]

theorem Definition.ofData?_toData (d : Definition) : ofData? d.toData = some d := by
  cases d with
  | alternatives ps =>
    simp [toData, Data.tagged, ofData?, mapM_map_eq_some Production.ofData?_toData]
  | parameterized params ps =>
    have hparams := mapM_map_eq_some (f := Data.text) (g := Data.text?) (fun _ => rfl) params
    simp [toData, Data.tagged, ofData?, hparams, mapM_map_eq_some Production.ofData?_toData]

theorem Definition.entryOfData?_toData (a : String × Definition) :
    entryOfData? (a.1, a.2.toData) = some a := by
  simp [entryOfData?, ofData?_toData]

/-- A map is made of the entries that it lists. -/
theorem map_ofList_toList {β : Type} (m : Std.ExtTreeMap String β) :
    Std.ExtTreeMap.ofList m.toList = m := by
  refine Std.ExtTreeMap.ext_getElem? fun name => ?_
  cases h : m[name]? with
  | some d =>
    rw [← Std.ExtTreeMap.mem_toList_iff_getElem?_eq_some] at h
    exact Std.ExtTreeMap.getElem?_ofList_of_mem Std.ReflCmp.compare_self
      Std.ExtTreeMap.distinct_keys_toList h
  | none =>
    refine Std.ExtTreeMap.getElem?_ofList_of_contains_eq_false ?_
    rw [Std.ExtTreeMap.map_fst_toList_eq_keys]
    simpa using h

theorem Grammar.ofData?_toData (g : Grammar) : ofData? g.toData = some g := by
  simp only [toData, ofData?]
  rw [mapM_map_eq_some Definition.entryOfData?_toData]
  simp [Names.ofData?_toData, map_ofList_toList]

end GrammarText
