import GrammarText.Proofs.Diagnostic.Labels
import GrammarText.Proofs.Reduction.Mapped

/-!
# Source maps of texts

The declarations of a text say where they and their parts stand in it.  `Declaration.Mapped` has all
of this for one declaration, and declarations stand one behind the other (`declarationsOf_mapped`).
Tokens that follow one another are ordered (`Ordered`); all other orders come from this.
-/

namespace GrammarText

variable {text : String} {ds : List Declaration} {d : Declaration} {t : Token}
  {run rest u v front back : List Token} {xs : List (String × Span)}

/-! ## Runs of tokens -/

def Span.Within (s s' : Span) : Prop := s'.start ≤ s.start ∧ s.stop ≤ s'.stop

def Span.Before (s s' : Span) : Prop := s.stop ≤ s'.start

/-- Tokens stand one behind the other, and none is empty. -/
structure Ordered (run : List Token) : Prop where
  pairwise : run.Pairwise fun t u => t.span.Before u.span
  nonempty : ∀ t ∈ run, t.start < t.stop

theorem Ordered.of_infix (h : Ordered run) (hu : u <:+: run) : Ordered u :=
  ⟨h.pairwise.sublist hu.sublist, fun t ht => h.nonempty t (hu.subset ht)⟩

theorem Span.over_start (hne : run ≠ []) : (Span.over run).start = (run.head hne).start := by
  rw [Span.over, List.head?_eq_some_head hne]
  rfl

theorem Span.over_stop (hne : run ≠ []) : (Span.over run).stop = (run.getLast hne).stop := by
  rw [Span.over, List.getLast?_eq_some_getLast hne]
  rfl

/-- Some tokens go from before each of them to behind it. -/
theorem Ordered.within (h : Ordered run) (ht : t ∈ run) : t.span.Within (Span.over run) := by
  have hne := List.ne_nil_of_mem ht
  constructor
  · rw [Span.over_start hne]
    obtain ⟨x, more, rfl⟩ := List.exists_cons_of_ne_nil hne
    rcases List.mem_cons.mp ht with rfl | hmem
    · exact Nat.le_refl _
    · have hbefore : x.stop ≤ t.start := (List.pairwise_cons.mp h.pairwise).1 t hmem
      exact Nat.le_trans (Nat.le_of_lt (h.nonempty x List.mem_cons_self)) hbefore
  · rw [Span.over_stop hne]
    rcases List.eq_nil_or_concat run with rfl | ⟨front, y, rfl⟩
    · exact absurd rfl hne
    · rw [List.concat_eq_append] at ht h
      simp only [List.concat_eq_append, List.getLast_append_singleton]
      rcases List.mem_append.mp ht with hmem | hmem
      · have hbefore : t.stop ≤ y.start :=
          (List.pairwise_append.mp h.pairwise).2.2 t hmem y List.mem_cons_self
        exact Nat.le_trans hbefore (Nat.le_of_lt (h.nonempty y (by simp)))
      · rw [List.mem_singleton.mp hmem]
        exact Nat.le_refl _

theorem Ordered.over_within (h : Ordered run) (hu : u <:+: run) (hne : u ≠ []) :
    (Span.over u).Within (Span.over run) := by
  constructor
  · rw [Span.over_start hne]
    exact (h.within (hu.subset (List.head_mem hne))).1
  · rw [Span.over_stop hne]
    exact (h.within (hu.subset (List.getLast_mem hne))).2

theorem Ordered.over_before (h : Ordered (front ++ back)) (hu : u <:+: front) (hne : u ≠ [])
    (hv : v <:+: back) (hne' : v ≠ []) : (Span.over u).Before (Span.over v) := by
  rw [Span.Before, Span.over_stop hne, Span.over_start hne']
  exact (List.pairwise_append.mp h.pairwise).2.2 _ (hu.subset (List.getLast_mem hne)) _
    (hv.subset (List.head_mem hne'))

/-- What is read in turn stands in this order. -/
theorem InTurn.pairwise_before {α : Type} {R : α → List Token → List Token → Prop} {f : α → Span}
    {as : List α} (h : InTurn R as run rest)
    (hR : ∀ a u rest, R a u rest → u ≠ [] ∧ f a = Span.over u) (hordered : Ordered run) :
    (as.map f).Pairwise Span.Before := by
  induction h with
  | nil => exact .nil
  | @cons a as u v rest ha has ih =>
    obtain ⟨hne, hspan⟩ := hR _ _ _ ha
    refine List.pairwise_cons.mpr ⟨?_, ih (hordered.of_infix (List.suffix_append u v).isInfix)⟩
    intro s hs
    obtain ⟨b, hb, rfl⟩ := List.mem_map.mp hs
    obtain ⟨_, pre, w, _, post, rfl, -, hw, -⟩ := has.exists_of_mem hb
    obtain ⟨hne', hspan'⟩ := hR _ _ _ hw
    rw [hspan, hspan']
    exact hordered.over_before (List.infix_refl u) hne ⟨pre, post, rfl⟩ hne'

theorem Located.sublist (h : Located run xs) :
    (xs.map Prod.snd).Sublist (run.map Token.span) := by
  induction h with
  | nil => exact .slnil
  | skip h ih => exact ih.cons _
  | found ht h ih => exact ih.cons_cons _

/-! ## Where declarations stand -/

/-- Where a declaration and its parts stand in a text. -/
structure Declaration.Mapped (d : Declaration) (text : String) : Prop where
  nonempty : d.span.start < d.span.stop
  /-- The declaration starts with its name. -/
  name_start : d.nameSpan.start = d.span.start
  name_within : d.nameSpan.Within d.span
  name : Covers text.toList d.nameSpan d.name.toList
  /-- The terminals are those of the productions from left to right, repetitions included. -/
  terminals : d.terminalSpans.map Prod.fst = d.definition.productions.flatMap Production.terminals
  terminals_before : (d.terminalSpans.map Prod.snd).Pairwise Span.Before
  terminals_within : ∀ x ∈ d.terminalSpans, x.2.Within d.span
  /-- A terminal stands in quotes, or it is a control character. -/
  spelled : ∀ x ∈ d.terminalSpans, Covers text.toList x.2 (Text.quote x.1.toList) ∨
    IsControl x.1.toList ∧ Covers text.toList x.2 x.1.toList
  productions_before : d.productionSpans.Pairwise Span.Before
  productions_within : ∀ s ∈ d.productionSpans, s.Within d.span
  shape : ∃ tokens pre run post, tokensOf text = .ok tokens ∧ tokens = pre ++ run ++ post ∧
    d.span = Span.over run ∧ d.Shape run post

/-- A declaration of a text has the shape that its tokens have. -/
theorem exists_shape_of_mem (h : declarationsOf text = .ok ds) (hd : d ∈ ds) :
    ∃ pre run post, Scans 0 text.toList (pre ++ run ++ post) ∧
      (∀ t ∈ run, t.isEof = false) ∧ d.ReadFrom run post ∧ d.Shape run post := by
  obtain ⟨tokens, htokens, hdeclarations⟩ := declarationsOf_ok_iff.mp h
  have hscan := tokensOf_ok_iff.mp htokens
  obtain ⟨body, e, us, blocks, rfl, -, hus, hmean, rfl⟩ :=
    (Tree.exists_declarations_iff hscan.ended).mp hdeclarations
  have hblock : some d ∈ blocks := by simpa using hd
  obtain ⟨_, pre, run, _, post, rfl, -, ⟨hread, hshape⟩, -⟩ :=
    (hmean.inTurn_shaped hus).exists_of_mem hblock
  have hends := hscan.ended.isEof_of_append rfl (List.cons_ne_nil e [])
  exact ⟨pre, run, post ++ [e], by simpa using hscan, fun t ht => hends t (by simp [ht]), hread,
    hshape d rfl⟩

theorem Scans.ordered {o : Nat} {cs : List Char} {tokens : List Token} (h : Scans o cs tokens)
    (hrun : run.Sublist tokens) (heof : ∀ t ∈ run, t.isEof = false) : Ordered run :=
  ⟨h.pairwise.sublist hrun, fun t ht => (h.bounds t (hrun.subset ht)).2.2 (heof t ht)⟩

/-- The places of the productions are those of the lines of a declaration, if it has lines. -/
theorem Declaration.Shape.productionSpans (h : d.Shape run rest) (hordered : Ordered run) :
    d.productionSpans.Pairwise Span.Before ∧
      ∀ s ∈ d.productionSpans, s.Within (Span.over run) := by
  cases h with
  | oneOf _ _ _ _ _ _ _ _ _ hspans =>
    rw [hspans]
    exact ⟨.nil, by simp⟩
  | @lines head body ending colons newline ls hrun _ _ _ hlines _ _ hspans _ =>
    have hbody : body <:+: run := ⟨head ++ [colons, newline], ending, by simp [hrun]⟩
    have hline : ∀ (l : SourceLine) u rest, l.ReadFrom u rest → u ≠ [] ∧ l.span = Span.over u := by
      rintro l u rest ⟨⟨content, _, rfl, hne, -⟩, hspan, -⟩
      exact ⟨List.append_ne_nil_of_left_ne_nil hne _, hspan⟩
    rw [hspans]
    refine ⟨hlines.pairwise_before hline (hordered.of_infix hbody), ?_⟩
    intro s hs
    obtain ⟨l, hl, rfl⟩ := List.mem_map.mp hs
    obtain ⟨_, pre, u, _, post, rfl, -, hu, -⟩ := hlines.exists_of_mem hl
    obtain ⟨hne, hspan⟩ := hline _ _ _ hu
    rw [hspan]
    exact hordered.over_within (List.IsInfix.trans ⟨pre, post, rfl⟩ hbody) hne

/-- A terminal stands in quotes, or it is a control character. -/
theorem Scans.covers_terminal {tokens : List Token} {s : String}
    (h : Scans 0 text.toList tokens) (ht : t ∈ tokens) (heof : t.isEof = false) (hs : t.Spells s) :
    Covers text.toList t.span (Text.quote s.toList) ∨
      IsControl s.toList ∧ Covers text.toList t.span s.toList := by
  have hcovers := h.covers ht heof
  rcases hs.written (h.written ht) with htext | ⟨hcontrol, htext⟩
  · exact .inl (htext ▸ hcovers)
  · exact .inr ⟨hcontrol, htext ▸ hcovers⟩

theorem Declaration.mapped_of_mem (h : declarationsOf text = .ok ds) (hd : d ∈ ds) :
    d.Mapped text := by
  obtain ⟨pre, run, post, hscan, heof, hread, hshape⟩ := exists_shape_of_mem h hd
  have hpart : run <:+: pre ++ run ++ post := ⟨pre, post, rfl⟩
  have hordered := hscan.ordered hpart.sublist heof
  obtain ⟨hbefore, hwithin⟩ := hshape.productionSpans hordered
  obtain ⟨t, more, hrun, -, hspan⟩ := hread.name
  have ht : t ∈ run := hrun ▸ List.mem_cons_self
  have hname : d.nameSpan.Within d.span := by
    rw [hspan, hread.span]
    exact hordered.within ht
  have hlt : d.nameSpan.start < d.nameSpan.stop := hspan ▸ hordered.nonempty t ht
  refine
    { nonempty := Nat.lt_of_le_of_lt hname.1 (Nat.lt_of_lt_of_le hlt hname.2)
      name_start := ?_
      name_within := hname
      name := hread.covers_name hscan hpart heof
      terminals := hread.terminals
      terminals_before := (List.pairwise_map.mpr hordered.pairwise).sublist hread.located.sublist
      terminals_within := ?_
      spelled := ?_
      productions_before := hbefore
      productions_within := hread.span ▸ hwithin
      shape := ⟨_, pre, run, post, tokensOf_ok_iff.mpr hscan, rfl, hread.span, hshape⟩ }
  · rw [hspan, hread.span, hrun]
    rfl
  · intro x hx
    obtain ⟨u, hu, -, hplace⟩ := hread.located.exists_of_mem hx
    rw [hplace, hread.span]
    exact hordered.within hu
  · intro x hx
    obtain ⟨u, hu, hspells, hplace⟩ := hread.located.exists_of_mem hx
    rw [hplace]
    exact hscan.covers_terminal (hpart.subset hu) (heof u hu) hspells

/-- Declarations stand in a text one behind the other. -/
theorem pairwise_span_of_declarationsOf (h : declarationsOf text = .ok ds) :
    ds.Pairwise fun c d => c.span.Before d.span := by
  rw [List.pairwise_iff_getElem]
  intro i j hi hj hij
  have hsplit : ds = ds.take j ++ ds[j] :: ds.drop (j + 1) := by simp
  rw [hsplit] at h
  obtain ⟨pre, run, post, hscan, heof, hread, hfront⟩ := exists_read_of_declarationsOf h
  have hmem : ds[i] ∈ ds.take j := List.mem_take_iff_getElem.mpr ⟨i, by omega, rfl⟩
  obtain ⟨u, rest, hu, hread'⟩ := hfront _ hmem
  obtain ⟨t, more, rfl, -, -⟩ := hread.name
  obtain ⟨t', more', rfl, -, -⟩ := hread'.name
  have hordered := hscan.ordered (List.prefix_append _ post).sublist heof
  rw [hread.span, hread'.span]
  exact hordered.over_before hu (List.cons_ne_nil _ _) (List.infix_refl _) (List.cons_ne_nil _ _)

/-- The source map of a text is exact.  Its declarations stand one behind the other, each with its
name, its terminals and its lines where it says that they stand. -/
theorem declarationsOf_mapped (h : declarationsOf text = .ok ds) :
    (ds.Pairwise fun c d => c.span.Before d.span) ∧ ∀ d ∈ ds, d.Mapped text :=
  ⟨pairwise_span_of_declarationsOf h, fun _ hd => Declaration.mapped_of_mem h hd⟩

/-- Terminals of a lookahead are not noted, and those of a list have no lines. -/
theorem declarationsOf_mapped_two_definitions :
    let text := "A :\n  \x60a\x60?\n  [lookahead <! \x7b\x60b\x60\x7d] <LF>\n\n" ++
      "B[P] :: one of\n  \x60b\x60 \x60c\x60\n"
    ∃ ds, declarationsOf text = .ok ds ∧
      ds.map Declaration.span = [⟨0, 40⟩, ⟨40, 65⟩] ∧
      ds.map Declaration.terminalSpans =
        [[("a", ⟨6, 9⟩), ("<LF>", ⟨34, 38⟩)], [("b", ⟨57, 60⟩), ("c", ⟨61, 64⟩)]] ∧
      ds.map Declaration.productionSpans = [[⟨6, 11⟩, ⟨13, 39⟩], []] ∧
      (ds.Pairwise fun c d => c.span.Before d.span) ∧ ∀ d ∈ ds, d.Mapped text := by
  intro text
  have hok : (declarationsOf text).toOption.map (fun ds => (ds.map Declaration.span,
      ds.map Declaration.terminalSpans, ds.map Declaration.productionSpans)) =
      some ([⟨0, 40⟩, ⟨40, 65⟩],
        [[("a", ⟨6, 9⟩), ("<LF>", ⟨34, 38⟩)], [("b", ⟨57, 60⟩), ("c", ⟨61, 64⟩)]],
        [[⟨6, 11⟩, ⟨13, 39⟩], []]) := by decide +kernel
  cases hds : declarationsOf text with
  | error e => simp [hds, Except.toOption] at hok
  | ok ds =>
    rw [hds] at hok
    obtain ⟨hspans, hplaces⟩ := Prod.mk.inj (Option.some.inj hok)
    obtain ⟨hterminals, hproductions⟩ := Prod.mk.inj hplaces
    exact ⟨ds, rfl, hspans, hterminals, hproductions, declarationsOf_mapped hds⟩

end GrammarText
