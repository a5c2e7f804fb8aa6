import GrammarText.Proofs.Reduction.Parametric
import GrammarText.Proofs.Reduction.Readings
import GrammarText.Proofs.Scanning.Breaks

/-!
# Declarations at other places

What becomes of the places of declarations when their text becomes a part of another one.  Farther
on in a text a declaration has all its places shifted (`Declaration.eq_shift_of_alike`).  Where more
line breaks come after the last token, only what ended at this token may end elsewhere: the last
declaration and its last line (`agreeButLast_of_alike`).
-/

namespace GrammarText

open List (Forall₂)

variable {k last : Nat} {run rest tokens : List Token} {d e : Declaration}

/-! ## Farther on -/

def Span.shift (s : Span) (distance : Nat) : Span := ⟨s.start + distance, s.stop + distance⟩

def Declaration.shift (d : Declaration) (distance : Nat) : Declaration :=
  { d with
    nameSpan := d.nameSpan.shift distance
    span := d.span.shift distance
    terminalSpans := d.terminalSpans.map fun x => (x.1, x.2.shift distance)
    productionSpans := d.productionSpans.map (·.shift distance) }

def Shifted (k : Nat) (s s' : Span) : Prop := s.shift k = s'

theorem forall₂_alike_shift (k : Nat) (run : List Token) :
    Forall₂ (Token.Alike (Shifted k)) run (run.map (·.shift k)) :=
  List.forall₂_map_right_iff.mpr (List.forall₂_same.mpr fun _ _ => ⟨rfl, rfl⟩)

theorem Token.shift_eq_of_alike {t u : Token} (h : t.Alike (Shifted k) u) : t.shift k = u := by
  obtain ⟨hlexeme, hspan⟩ := h
  obtain ⟨hstart, hstop⟩ := Span.mk.inj hspan
  cases t
  cases u
  simp_all [Token.shift, Token.span]

/-- What is related as a function says is the values of the function. -/
theorem eq_map_of_forall₂ {α β : Type} {f : α → β} {R : α → β → Prop} (hR : ∀ a b, R a b → f a = b)
    {xs : List α} {ys : List β} (h : Forall₂ R xs ys) : ys = xs.map f := by
  induction h with
  | nil => rfl
  | cons hab h ih => rw [List.map_cons, hR _ _ hab, ← ih]

/-- Some tokens farther on go from their first to their last one. -/
theorem shifted_over {run' : List Token} (hne : run ≠ [])
    (h : Forall₂ (Token.Alike (Shifted k)) run run') :
    Shifted k (Span.over run) (Span.over run') := by
  obtain rfl := eq_map_of_forall₂ (fun _ _ ht => Token.shift_eq_of_alike ht) h
  have hx := List.getLast?_eq_some_getLast hne
  have hx' : (run.map (·.shift k)).getLast? = some ((run.getLast hne).shift k) := by
    rw [List.getLast?_map, hx]
    rfl
  obtain ⟨t, more, rfl⟩ := List.exists_cons_of_ne_nil hne
  rw [Shifted, Span.shift, Span.over, Span.over, hx, hx']
  rfl

/-- A declaration is shifted if its places are. -/
theorem Declaration.eq_shift_of_alike (h : d.Alike (Shifted k) (Shifted k) e) :
    e = d.shift k := by
  obtain ⟨hname, hseparator, hdefinition, hnameSpan, hspan, hterminals, hproductions⟩ := h
  have hterminals := eq_map_of_forall₂ (f := fun x : String × Span => (x.1, x.2.shift k))
    (fun x y hxy => Prod.ext hxy.1 hxy.2) hterminals
  have hproductions := eq_map_of_forall₂ (fun s s' hs => hs) hproductions
  cases d
  cases e
  simp_all [Declaration.shift, Shifted]

/-! ## Before more line breaks -/

/-- Lists are the same but for their last elements, which are in a relation. -/
inductive AgreeButLast {α : Type} (R : α → α → Prop) : List α → List α → Prop where
  | nil : AgreeButLast R [] []
  | last {front a b} (h : R a b) : AgreeButLast R (front ++ [a]) (front ++ [b])

/-- Declarations are the same, but they may end elsewhere, and so may their last lines. -/
structure Declaration.AgreesButEnd (d e : Declaration) : Prop where
  name : d.name = e.name
  separator : d.separator = e.separator
  definition : d.definition = e.definition
  nameSpan : d.nameSpan = e.nameSpan
  start : d.span.start = e.span.start
  terminalSpans : d.terminalSpans = e.terminalSpans
  productionSpans :
    AgreeButLast (fun s s' => s.start = s'.start) d.productionSpans e.productionSpans

/-- Related lists agree but for the last elements if all before the last one are equal. -/
theorem agreeButLast_of_forall₂ {α : Type} {R S : α → α → Prop} {xs ys : List α}
    (h : Forall₂ R xs ys)
    (hfront : ∀ front x, xs = front ++ [x] → ∀ a ∈ front, ∀ b, R a b → b = a)
    (hlast : ∀ front x y, xs = front ++ [x] → R x y → S x y) : AgreeButLast S xs ys := by
  rcases List.eq_nil_or_concat xs with rfl | ⟨front, x, rfl⟩
  · obtain rfl := List.forall₂_nil_left_iff.mp h
    exact .nil
  · rw [List.concat_eq_append] at h hfront hlast ⊢
    obtain ⟨front', tail, rfl, hfronts, htail⟩ := exists_of_forall₂_append h
    obtain ⟨y, _, hxy, hnil, rfl⟩ := List.forall₂_cons_left_iff.mp htail
    obtain rfl := List.forall₂_nil_left_iff.mp hnil
    -- All elements before the last one are equal to those that they are related to.
    have heq : front' = front := by
      have hall := hfront front x rfl
      clear hfront hlast h htail
      induction hfronts with
      | nil => rfl
      | cons hab hfronts ih =>
        rw [List.forall_mem_cons] at hall
        rw [hall.1 _ hab, ih hall.2]
    rw [heq]
    exact .last (hlast front x y rfl hxy)

theorem Stretched.eq {s s' : Span} (h : Stretched last s s') (hs : s.stop ≠ last) : s' = s := by
  obtain ⟨hstart, hstop | hstop⟩ := h
  · cases s
    cases s'
    simp_all
  · exact absurd hstop hs

/-- What stands in some tokens before others is not at their end. -/
theorem infix_dropLast {u pre post : List Token} (hu : u <:+: pre) (hne : post ≠ []) :
    u <:+: (pre ++ post).dropLast := by
  rw [List.dropLast_append_of_ne_nil hne]
  exact hu.trans (List.prefix_append pre _).isInfix

/-- Before the last of some tokens of a text none ends where the last one does. -/
theorem stop_over_ne (htokens : tokens.Pairwise fun t u => t.stop < u.stop)
    (hlast : ∀ t, tokens.getLast? = some t → t.stop = last) (hrun : run <:+: tokens.dropLast)
    (hne : run ≠ []) : (Span.over run).stop ≠ last := by
  rcases List.eq_nil_or_concat tokens with rfl | ⟨front, x, rfl⟩
  · exact absurd (List.infix_nil.mp hrun) hne
  · rw [List.concat_eq_append] at htokens hlast hrun
    rw [List.dropLast_concat] at hrun
    have hlt : (run.getLast hne).stop < x.stop := by
      have hmem : run.getLast hne ∈ front := hrun.subset (List.getLast_mem hne)
      exact (List.pairwise_append.mp htokens).2.2 _ hmem x List.mem_cons_self
    rw [← hlast x (by simp), Span.over, List.getLast?_eq_some_getLast hne]
    exact Nat.ne_of_lt hlt

theorem Production.Line.ne_nil {x : Production × Span} (h : Production.Line x run rest) :
    run ≠ [] := by
  obtain ⟨body, ending, rfl, hne, -⟩ := h
  exact List.append_ne_nil_of_left_ne_nil hne ending

/-- The lines of a declaration stand in its tokens, and all but the last one before its end. -/
theorem Declaration.ReadFrom.exists_lines (h : d.ReadFrom run rest) :
    (∀ s ∈ d.productionSpans, ∃ u, u <:+: run ∧ u ≠ [] ∧ s = Span.over u) ∧
    ∀ ss s, d.productionSpans = ss ++ [s] → ∀ s ∈ ss, ∃ u, u <:+: run.dropLast ∧ u ≠ [] ∧
      s = Span.over u := by
  rcases h.lines with ⟨hnone, -⟩ | ⟨front, t, body, ending, lines, rfl, -, hturn, -, hspans⟩
  · rw [hnone]
    exact ⟨by simp, fun ss s hss => by simp at hss⟩
  · rw [hspans]
    constructor
    · intro s hs
      obtain ⟨x, hx, rfl⟩ := List.mem_map.mp hs
      obtain ⟨-, pre, u, -, post, rfl, -, hline, -⟩ := hturn.exists_of_mem hx
      obtain ⟨-, -, -, -, -, hspan, -⟩ := id hline
      exact ⟨u, ⟨front ++ t :: pre, post ++ ending, by simp⟩, hline.ne_nil, hspan⟩
    · intro ss s hss c hc
      obtain ⟨ls, l, rfl, rfl, hl⟩ := List.map_eq_append_iff.mp hss
      obtain ⟨x, rfl, -⟩ := List.map_eq_singleton_iff.mp hl
      obtain ⟨y, hy, rfl⟩ := List.mem_map.mp hc
      obtain ⟨pre, v, post, rfl, hpre, hlast, -⟩ := hturn.exists_of_append
      obtain ⟨-, pre', u, -, post', rfl, -, hline, -⟩ := hpre.exists_of_mem hy
      obtain ⟨-, -, -, -, -, hspan, -⟩ := id hline
      refine ⟨u, ?_, hline.ne_nil, hspan⟩
      have hinfix : u <:+: front ++ t :: (pre' ++ u ++ post') :=
        ⟨front ++ t :: pre', post', by simp⟩
      have hdrop := infix_dropLast hinfix (List.append_ne_nil_of_left_ne_nil hlast.ne_nil
        (post ++ ending))
      simpa using hdrop

theorem eq_of_forall₂_spelling {xs ys : List (String × Span)}
    (h : Forall₂ (SpellingAlike Eq) xs ys) : ys = xs := by
  rw [eq_map_of_forall₂ (f := id) (fun x y hxy => Prod.ext hxy.1 hxy.2) h, List.map_id]

/-- A declaration that does not go to the end of the text stays as it is. -/
theorem Declaration.ReadFrom.eq_of_alike (h : d.ReadFrom run rest)
    (hrun : ∀ u, u <:+: run → u ≠ [] → (Span.over u).stop ≠ last)
    (halike : d.Alike Eq (Stretched last) e) : e = d := by
  obtain ⟨hname, hseparator, hdefinition, hnameSpan, hspan, hterminals, hproductions⟩ := halike
  have hne : run ≠ [] := by
    obtain ⟨t, more, rfl, -⟩ := h.name
    exact List.cons_ne_nil t more
  have hspan : e.span = d.span := hspan.eq (h.span ▸ hrun run (List.infix_refl run) hne)
  have hterminals := eq_of_forall₂_spelling hterminals
  have hproductions : e.productionSpans = d.productionSpans := by
    have hlines := h.exists_lines.1
    generalize d.productionSpans = ss at hproductions hlines ⊢
    generalize e.productionSpans = ss' at hproductions ⊢
    induction hproductions with
    | nil => rfl
    | cons hs hss ih =>
      rw [List.forall_mem_cons] at hlines
      obtain ⟨⟨u, hu, hne, rfl⟩, hlines⟩ := hlines
      rw [hs.eq (hrun u hu hne), ih hlines]
  cases d
  cases e
  simp_all

/-- A declaration that goes to the end of the text may end elsewhere. -/
theorem Declaration.ReadFrom.agreesButEnd (h : d.ReadFrom run rest)
    (hrun : ∀ u, u <:+: run.dropLast → u ≠ [] → (Span.over u).stop ≠ last)
    (halike : d.Alike Eq (Stretched last) e) : d.AgreesButEnd e where
  name := halike.name
  separator := halike.separator
  definition := halike.definition
  nameSpan := halike.nameSpan
  start := halike.span.1.symm
  terminalSpans := (eq_of_forall₂_spelling halike.terminalSpans).symm
  productionSpans := by
    refine agreeButLast_of_forall₂ halike.productionSpans ?_ ?_
    · intro ss s hss c hc c' hcc
      obtain ⟨u, hu, hne, rfl⟩ := h.exists_lines.2 ss s hss c hc
      exact hcc.eq (hrun u hu hne)
    · exact fun _ _ _ _ hs => hs.1.symm

/-- Of some blocks only the last declaration may end elsewhere when line breaks come after them. -/
theorem agreeButLast_of_alike {blocks bs : List (Option Declaration)}
    (hturn : InTurn ReadBlock blocks tokens rest)
    (htokens : tokens.Pairwise fun t u => t.stop < u.stop)
    (hlast : ∀ t, tokens.getLast? = some t → t.stop = last)
    (h : Forall₂ (Option.Rel (Declaration.Alike Eq (Stretched last))) blocks bs) :
    AgreeButLast Declaration.AgreesButEnd (blocks.filterMap id) (bs.filterMap id) := by
  refine agreeButLast_of_forall₂ (List.rel_filterMap (fun _ _ hblock => hblock) h) ?_ ?_
  · -- The tokens of the last declaration come behind those of the others.
    intro front d hds c hc e halike
    obtain ⟨pre, u, post, rfl, hd, hfront⟩ := hturn.exists_declaration hds
    obtain ⟨v, rest', hv, hread⟩ := hfront c hc
    obtain ⟨t, more, rfl, -⟩ := hd.name
    refine hread.eq_of_alike (fun w hw hne => ?_) halike
    have hdrop := infix_dropLast (hw.trans hv) (List.cons_ne_nil t (more ++ post))
    exact stop_over_ne htokens hlast (by simpa using hdrop) hne
  · -- In the last declaration only what goes to its last token may end elsewhere.
    intro front d e hds halike
    obtain ⟨pre, u, post, rfl, hd, -⟩ := hturn.exists_declaration hds
    refine hd.agreesButEnd (fun w hw hne => ?_) halike
    rcases List.eq_nil_or_concat u with rfl | ⟨init, z, rfl⟩
    · exact absurd (List.infix_nil.mp hw) hne
    · rw [List.concat_eq_append, List.dropLast_concat] at hw
      have hinfix : w <:+: pre ++ init := hw.trans (List.suffix_append pre init).isInfix
      have hdrop := infix_dropLast hinfix (List.cons_ne_nil z post)
      exact stop_over_ne htokens hlast (by simpa using hdrop) hne

end GrammarText
