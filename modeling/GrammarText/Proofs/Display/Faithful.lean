import GrammarText.Proofs.Assembly.Steps
import GrammarText.Proofs.Display.Lines

/-!
# The display of a grammar is faithful

A grammar that was compiled can be written as a text by the display of its productions, and the text
compiles to the same definitions (`compile_render`).  What a rendered text is read as is settled
by its lexemes; what remains is that the assembly of its declarations does not fail, and gives each
name its definition again.
-/

namespace GrammarText

namespace Assembly

variable {a : Assembly} {ds xs : List Declaration}

/-- A stored definition comes from a declaration. -/
theorem exists_declaration (ha : empty.addAll ds = .ok a) {name : String} {d : Definition}
    (h : (name, d) ∈ a.nonterminals.toList) : ∃ e ∈ ds, e.name = name ∧ e.definition = d := by
  rw [Std.ExtTreeMap.mem_toList_iff_getElem?_eq_some, getElem?_nonterminals_addAll ha] at h
  cases hlast : lastStored? ds name with
  | none => simp [hlast, empty] at h
  | some e =>
    obtain rfl : e.definition = d := by simpa [hlast] using h
    have hmem := List.mem_of_find?_eq_some hlast
    have hfound := List.find?_some hlast
    simp only [Bool.and_eq_true, decide_eq_true_eq] at hfound
    exact ⟨e, List.mem_reverse.mp hmem, hfound.2, rfl⟩

section Again

variable (hxs : xs.map Declaration.key = a.nonterminals.toList.map fun (name, d) => (name, ":", d))

include hxs

/-- The declarations are those of the stored definitions, each with a single colon. -/
theorem mem_of_keys {x : Declaration} (hx : x ∈ xs) :
    x.separator = ":" ∧ (x.name, x.definition) ∈ a.nonterminals.toList := by
  have hkey : x.key ∈ xs.map Declaration.key := List.mem_map_of_mem hx
  rw [hxs, List.mem_map] at hkey
  obtain ⟨⟨name, d⟩, hd, hkey⟩ := hkey
  obtain ⟨rfl, hseparator, rfl⟩ : name = x.name ∧ ":" = x.separator ∧ d = x.definition := by
    simpa [Declaration.key] using hkey
  exact ⟨hseparator.symm, hd⟩

theorem exists_of_keys {name : String} {d : Definition} (h : (name, d) ∈ a.nonterminals.toList) :
    ∃ x ∈ xs, x.name = name ∧ x.definition = d := by
  have hkey : (name, ":", d) ∈ a.nonterminals.toList.map fun (name, d) => (name, ":", d) :=
    List.mem_map_of_mem (f := fun x : String × Definition => (x.1, ":", x.2)) h
  rw [← hxs, List.mem_map] at hkey
  obtain ⟨x, hx, hkey⟩ := hkey
  obtain ⟨hname, -, hd⟩ : x.name = name ∧ x.separator = ":" ∧ x.definition = d := by
    simpa [Declaration.key] using hkey
  exact ⟨x, hx, hname, hd⟩

/-- No two of the declarations have one name. -/
theorem pairwise_of_keys : xs.Pairwise fun d e => d.name ≠ e.name := by
  have hnames : xs.map Declaration.name = a.nonterminals.toList.map Prod.fst := by
    have := congrArg (List.map Prod.fst) hxs
    simpa [Function.comp_def, Declaration.key] using this
  have hdistinct : (a.nonterminals.toList.map Prod.fst).Pairwise (· ≠ ·) := by
    rw [List.pairwise_map]
    refine Std.ExtTreeMap.distinct_keys_toList.imp fun hne heq => hne ?_
    rw [heq]
    exact Std.ReflCmp.compare_self
  rw [← hnames, List.pairwise_map] at hdistinct
  exact hdistinct

/-- The declarations of all stored definitions store the same definitions. -/
theorem nonterminals_of_keys {b : Assembly} (hb : empty.addAll xs = .ok b) :
    b.nonterminals = a.nonterminals := by
  refine Std.ExtTreeMap.ext_getElem? fun name => ?_
  rw [getElem?_nonterminals_addAll hb]
  cases hlast : lastStored? xs name with
  | some x =>
    have hmem := List.mem_reverse.mp (List.mem_of_find?_eq_some hlast)
    have hfound := List.find?_some hlast
    simp only [Bool.and_eq_true, decide_eq_true_eq] at hfound
    have hx := Std.ExtTreeMap.mem_toList_iff_getElem?_eq_some.mp (mem_of_keys hxs hmem).2
    rw [hfound.2] at hx
    exact hx.symm
  | none =>
    cases hname : a.nonterminals[name]? with
    | none => rfl
    | some d =>
      obtain ⟨x, hx, rfl, -⟩ := exists_of_keys hxs
        (Std.ExtTreeMap.mem_toList_iff_getElem?_eq_some.mpr hname)
      have := List.find?_eq_none.mp hlast x (List.mem_reverse.mpr hx)
      simp [Declaration.isStored, (mem_of_keys hxs hx).1] at this

/-- Declarations of the stored definitions can be assembled, as those before them could be. -/
theorem exists_addAll_of_keys (ha : empty.addAll ds = .ok a) (hc : a.collision? = none) :
    ∃ b, empty.addAll xs = .ok b ∧ b.collision? = none ∧ b.nonterminals = a.nonterminals := by
  -- Each of them has the definition of a declaration that could be added before.
  have hold : ∀ x ∈ xs, ∃ e ∈ ds, e.definition = x.definition := by
    intro x hx
    obtain ⟨e, he, -, hd⟩ := exists_declaration ha (mem_of_keys hxs hx).2
    exact ⟨e, he, hd⟩
  obtain ⟨b, hb⟩ : ∃ b, empty.addAll xs = .ok b := by
    refine exists_addAll_iff.mpr ⟨fun x hx => ?_, fun x _ _ => ?_, ?_⟩
    · obtain ⟨e, he, hd⟩ := hold x hx
      rw [← hd]
      exact (exists_addAll_iff.mp ⟨a, ha⟩).1 e he
    · simp [empty]
    · exact (pairwise_of_keys hxs).imp fun hne _ _ => hne
  have hsame := nonterminals_of_keys hxs hb
  refine ⟨b, hb, ?_, hsame⟩
  rw [collision?_eq_none_iff] at hc ⊢
  intro s hs
  rw [hsame]
  obtain hs | ⟨x, hx, hs⟩ := (mem_usedAt_addAll hb).mp hs
  · simp [empty] at hs
  · obtain ⟨e, he, hd⟩ := hold x hx
    exact hc s ((mem_usedAt_addAll ha).mpr (.inr ⟨e, he, hd ▸ hs⟩))

end Again

end Assembly

/-- The text of a compiled grammar, where no prose goes over a line break, compiles to the same
definitions, whatever separators its productions are indented by. -/
theorem compile_render {text : String} {options : Options} {g : Grammar}
    (h : compile text options = .ok g)
    (hline : ∀ name d, g.get? name = some d → ∀ p ∈ d.productions, p.OneLine) {indent : String}
    (hindent : ∀ c ∈ indent.toList, isSeparator c = true) (options' : Options) :
    ∃ g', compile (g.render indent) options' = .ok g' ∧ g'.nonterminals = g.nonterminals := by
  have hfits := declarationsOf_fits text
  rw [compile_eq] at h
  cases hds : declarationsOf text with
  | error e =>
    rw [hds] at h
    cases h
  | ok ds =>
    rw [hds] at h hfits
    dsimp only at h hfits
    cases hg : assemble ds options.goals with
    | error e =>
      rw [hg] at h
      cases h
    | ok g' =>
      rw [hg] at h
      cases h
      obtain ⟨a, ha, hc, rfl⟩ := assemble_ok_iff.mp hg
      -- What is stored was read, and so it is printed as it can be read again.
      have hstored : ∀ d ∈ a.nonterminals.toList, d.2.Fits Lexeme.Written d.1 := by
        rintro ⟨name, d⟩ hd
        obtain ⟨e, he, rfl, rfl⟩ := Assembly.exists_declaration ha hd
        exact hfits e he
      have hlines : ∀ d ∈ a.nonterminals.toList, ∀ p ∈ d.2.productions, p.OneLine := by
        rintro ⟨name, d⟩ hd
        exact hline name d (Std.ExtTreeMap.mem_toList_iff_getElem?_eq_some.mp hd)
      obtain ⟨xs, hxs, hkeys⟩ :=
        declarationsOf_render (g := a.grammar options.goals) hindent hstored hlines
      obtain ⟨b, hb, hcollision, hsame⟩ := Assembly.exists_addAll_of_keys hkeys ha hc
      refine ⟨b.grammar options'.goals, ?_, hsame⟩
      have hassemble : assemble xs options'.goals = .ok (b.grammar options'.goals) :=
        assemble_ok_iff.mpr ⟨b, hb, hcollision, rfl⟩
      rw [compile_eq, hxs]
      dsimp only
      rw [hassemble]
      rfl

/-- A grammar with a call, an exclusion of two terms, prose and a guard is printed faithfully. -/
theorem compile_render_two_definitions :
    let text :=
      "A :\n B[+P] but not one of \x60x\x60 or C\n > any text\n\nB[P] :\n [~P] \x60\x60\x60\n"
    ∃ g, compile text .new = .ok g ∧
      (∀ name d, g.get? name = some d → ∀ p ∈ d.productions, p.OneLine) ∧
      ∃ g', compile (g.render "  ") .new = .ok g' ∧ g'.nonterminals = g.nonterminals := by
  intro text
  have hok : (match compile text .new with
      | .ok g => g.nonterminals.toList.all fun d => d.2.productions.all fun p => decide p.OneLine
      | .error _ => false) = true := by decide +kernel
  cases hg : compile text .new with
  | error e => simp [hg] at hok
  | ok g =>
    have hline : ∀ name d, g.get? name = some d → ∀ p ∈ d.productions, p.OneLine := by
      intro name d hd
      rw [hg] at hok
      simp only [List.all_eq_true, decide_eq_true_eq] at hok
      exact hok (name, d) (Std.ExtTreeMap.mem_toList_iff_getElem?_eq_some.mpr hd)
    exact ⟨g, rfl, hline, compile_render hg hline (List.all_eq_true.mp rfl) .new⟩

end GrammarText
