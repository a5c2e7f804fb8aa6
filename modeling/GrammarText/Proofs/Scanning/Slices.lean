import GrammarText.Proofs.Parsing.Derivation
import GrammarText.Proofs.Scanning.Places

/-!
# Slices of a text

The bytes from the first to the last of some tokens that stand one after another are the texts of
these tokens with separators between them (`Scans.exists_slice`), and tokens stand in the order of
the text (`Scans.pairwise`).
-/

namespace GrammarText

open Text (byteLength)

variable {cs slice : List Char} {o : Nat} {t : Token} {ts run pre post : List Token}

/-! ## What a span covers -/

/-- A span covers some characters of a text, from where they begin to where they end. -/
def Covers (text : List Char) (span : Span) (slice : List Char) : Prop :=
  ∃ before after, text = before ++ slice ++ after ∧
    span = ⟨byteLength before, byteLength (before ++ slice)⟩

/-- Characters are the texts of some lexemes, with separators between them. -/
inductive Spaced : List Lexeme → List Char → Prop where
  | single (l) : Spaced [l] l.text.toList
  | cons {l ls blanks cs} (hb : ∀ c ∈ blanks, isSeparator c = true) (h : Spaced ls cs) :
      Spaced (l :: ls) (l.text.toList ++ (blanks ++ cs))

/-- The bytes from the first of some tokens to the last one. -/
def Span.over (run : List Token) : Span :=
  ⟨(run.head?.map Token.start).getD 0, (run.getLast?.map Token.stop).getD 0⟩

@[simp] theorem Span.over_singleton (t : Token) : Span.over [t] = t.span := rfl

theorem Span.over_cons (t : Token) (hne : ts ≠ []) :
    Span.over (t :: ts) = ⟨t.start, (Span.over ts).stop⟩ := by
  obtain ⟨u, us, rfl⟩ := List.exists_cons_of_ne_nil hne
  simp [Span.over]

/-- The node of an alternative goes from its first token to its last one. -/
theorem Node.span_over {close : Nat} {rest : List Token} (r : Rule) (n : Nat) (hne : run ≠ []) :
    (Node.over close r n run rest).span = Span.over run := by
  obtain ⟨t, run, rfl⟩ := List.exists_cons_of_ne_nil hne
  simp [Node.over, Node.span, Span.over, startOf, List.getLast?_cons]

/-! ## Token by token -/

/-- The first token stands behind separators, and the others stand behind it. -/
theorem Scans.exists_of_cons (h : Scans o cs (t :: ts)) (ht : t.isEof = false) :
    ∃ blanks rest, cs = blanks ++ (t.text.toList ++ rest) ∧ (∀ c ∈ blanks, isSeparator c = true) ∧
      t.lexeme.Stands rest ∧ t.start = o + byteLength blanks ∧
      t.stop = t.start + byteLength t.text.toList ∧ Scans t.stop rest ts := by
  generalize hus : t :: ts = us at h
  induction h with
  | done =>
    obtain ⟨rfl, -⟩ := List.cons_eq_cons.mp hus
    simp [Token.isEof] at ht
  | @separator o c cs us hc h ih =>
    obtain ⟨blanks, rest, rfl, hb, hl, hstart, hstop, hts⟩ := ih hus
    refine ⟨c :: blanks, rest, rfl, List.forall_mem_cons.mpr ⟨hc, hb⟩, hl, ?_, hstop, hts⟩
    rw [hstart, Text.byteLength_cons, Nat.add_assoc]
  | @token o l rest us hl h ih =>
    obtain ⟨rfl, rfl⟩ := List.cons_eq_cons.mp hus
    exact ⟨[], rest, rfl, by simp, hl, rfl, rfl, h⟩

/-- Before the end of the text there are only separators. -/
theorem Scans.isSeparator_of_eof (h : Scans o cs (t :: ts)) (ht : t.isEof = true) :
    (∀ c ∈ cs, isSeparator c = true) ∧ t.start = o + byteLength cs := by
  generalize hus : t :: ts = us at h
  induction h with
  | done =>
    obtain ⟨rfl, -⟩ := List.cons_eq_cons.mp hus
    exact ⟨by simp, rfl⟩
  | separator hc h ih =>
    obtain ⟨hcs, hstart⟩ := ih hus
    refine ⟨List.forall_mem_cons.mpr ⟨hc, hcs⟩, ?_⟩
    rw [hstart, Text.byteLength_cons, Nat.add_assoc]
  | token hl h =>
    obtain ⟨rfl, -⟩ := List.cons_eq_cons.mp hus
    simp [Token.isEof, hl.ne_eof] at ht

/-- The last token, and no other, is the end of the text. -/
theorem Scans.ended (h : Scans o cs ts) : Ended ts := by
  induction h with
  | done => exact ⟨[], _, rfl, rfl, by simp⟩
  | separator hc h ih => exact ih
  | @token o l cs ts hl h ih =>
    obtain ⟨body, e, rfl, he, hbody⟩ := ih
    refine ⟨_ :: body, e, rfl, he, List.forall_mem_cons.mpr ⟨?_, hbody⟩⟩
    simp [Token.isEof, hl.ne_eof]

/-- Behind some tokens the others stand in what is left of the text. -/
theorem Scans.exists_of_append (h : Scans o cs (pre ++ ts)) (hpre : ∀ t ∈ pre, t.isEof = false) :
    ∃ before rest, cs = before ++ rest ∧ Scans (o + byteLength before) rest ts := by
  induction pre generalizing o cs with
  | nil => exact ⟨[], cs, rfl, h⟩
  | cons t pre ih =>
    rw [List.forall_mem_cons] at hpre
    obtain ⟨blanks, rest, rfl, -, -, hstart, hstop, hts⟩ := h.exists_of_cons hpre.1
    obtain ⟨before, rest', rfl, hrest⟩ := ih hts hpre.2
    refine ⟨blanks ++ (t.text.toList ++ before), rest', by simp, ?_⟩
    have hoffset : t.stop + byteLength before =
        o + byteLength (blanks ++ (t.text.toList ++ before)) := by
      simp only [Text.byteLength_append, hstop, hstart]
      omega
    rwa [← hoffset]

/-- Some tokens at the start of a text stand in it with separators before and between them. -/
theorem Scans.exists_run (h : Scans o cs (run ++ post)) (hne : run ≠ [])
    (hrun : ∀ t ∈ run, t.isEof = false) :
    ∃ blanks slice rest, cs = blanks ++ (slice ++ rest) ∧ (∀ c ∈ blanks, isSeparator c = true) ∧
      Spaced (run.map Token.lexeme) slice ∧
      Span.over run = ⟨o + byteLength blanks, o + byteLength (blanks ++ slice)⟩ ∧
      Scans (o + byteLength (blanks ++ slice)) rest post := by
  induction run generalizing o cs with
  | nil => exact absurd rfl hne
  | cons t run ih =>
    rw [List.forall_mem_cons] at hrun
    obtain ⟨blanks, rest, rfl, hb, -, hstart, hstop, hts⟩ := h.exists_of_cons hrun.1
    have hoffset : t.stop = o + byteLength (blanks ++ t.text.toList) := by
      rw [hstop, hstart, Text.byteLength_append, Nat.add_assoc]
    by_cases hnil : run = []
    · subst hnil
      refine ⟨blanks, t.text.toList, rest, rfl, hb, .single _, ?_, hoffset ▸ hts⟩
      rw [Span.over_singleton, Token.span, hoffset, hstart]
    · obtain ⟨blanks', slice, rest', rfl, hb', hspaced, hspan, hpost⟩ := ih hts hnil hrun.2
      have hend : t.stop + byteLength (blanks' ++ slice) =
          o + byteLength (blanks ++ (t.text.toList ++ (blanks' ++ slice))) := by
        simp only [hoffset, Text.byteLength_append]
        omega
      refine ⟨blanks, t.text.toList ++ (blanks' ++ slice), rest', by simp, hb, .cons hb' hspaced,
        ?_, hend ▸ hpost⟩
      rw [Span.over_cons t hnil, hspan, hend, hstart]

/-- Tokens that stand one after another cover their texts, with separators between them. -/
theorem Scans.exists_slice (h : Scans 0 cs (pre ++ run ++ post)) (hne : run ≠ [])
    (hpre : ∀ t ∈ pre, t.isEof = false) (hrun : ∀ t ∈ run, t.isEof = false) :
    ∃ slice, Covers cs (Span.over run) slice ∧ Spaced (run.map Token.lexeme) slice := by
  rw [List.append_assoc] at h
  obtain ⟨before, rest, rfl, hrest⟩ := h.exists_of_append hpre
  obtain ⟨blanks, slice, after, rfl, -, hspaced, hspan, -⟩ := hrest.exists_run hne hrun
  refine ⟨slice, ⟨before ++ blanks, after, by simp, ?_⟩, hspaced⟩
  rw [hspan]
  simp

/-- Before some tokens of a list the text has not ended. -/
theorem Ended.isEof_of_append {tokens : List Token} (h : Ended tokens) (hts : tokens = pre ++ ts)
    (hne : ts ≠ []) : ∀ t ∈ pre, t.isEof = false := by
  intro t ht
  refine Bool.eq_false_iff.mpr fun he => ?_
  obtain ⟨before, after, rfl⟩ := List.append_of_mem ht
  have hsplit : tokens = before ++ t :: (after ++ ts) := by simpa using hts
  have hnil : after ++ ts = [] := h.eq_nil_of_isEof he hsplit
  exact hne (List.append_eq_nil_iff.mp hnil).2

/-- Tokens of a text cover their texts, with separators between them. -/
theorem Scans.exists_covers (h : Scans 0 cs ts) (hrun : run <:+: ts) (hne : run ≠ [])
    (heof : ∀ t ∈ run, t.isEof = false) :
    ∃ slice, Covers cs (Span.over run) slice ∧ Spaced (run.map Token.lexeme) slice := by
  obtain ⟨pre, post, rfl⟩ := hrun
  have hpre := h.ended.isEof_of_append (List.append_assoc pre run post) (by simp [hne])
  exact h.exists_slice hne hpre heof

/-- A single lexeme is its text. -/
theorem spaced_singleton {l : Lexeme} (h : Spaced [l] slice) : slice = l.text.toList := by
  cases h with
  | single => rfl
  | cons hb h => nomatch h

/-- A token of a text covers its own text. -/
theorem Scans.covers (h : Scans 0 cs ts) (ht : t ∈ ts) (heof : t.isEof = false) :
    Covers cs t.span t.text.toList := by
  obtain ⟨pre, post, rfl⟩ := List.append_of_mem ht
  obtain ⟨slice, hcovers, hspaced⟩ :=
    h.exists_covers (show [t] <:+: _ from ⟨pre, post, by simp⟩) (by simp) (by simpa using heof)
  rw [spaced_singleton hspaced] at hcovers
  exact hcovers

/-- The end of the text is where the text ends. -/
theorem Scans.start_of_eof (h : Scans o cs ts) (ht : t ∈ ts) (heof : t.isEof = true) :
    t.start = o + byteLength cs := by
  induction h with
  | done =>
    obtain rfl := List.mem_singleton.mp ht
    rfl
  | separator hc h ih => rw [ih ht, Text.byteLength_cons, Nat.add_assoc]
  | @token o l cs ts hl h ih =>
    rcases List.mem_cons.mp ht with rfl | ht
    · simp [Token.isEof, hl.ne_eof] at heof
    · rw [ih ht, Text.byteLength_append, Nat.add_assoc]

/-- Lexemes in two groups are written one group after the other. -/
theorem Spaced.exists_of_append {ls ms : List Lexeme} (h : Spaced (ls ++ ms) slice) (hl : ls ≠ [])
    (hm : ms ≠ []) :
    ∃ first blanks second, slice = first ++ (blanks ++ second) ∧ Spaced ls first ∧
      (∀ c ∈ blanks, isSeparator c = true) ∧ Spaced ms second := by
  induction ls generalizing slice with
  | nil => exact absurd rfl hl
  | cons l ls ih =>
    generalize hls : l :: ls ++ ms = all at h
    cases h with
    | single =>
      obtain ⟨-, hnil⟩ := List.cons_eq_cons.mp hls
      exact absurd (List.append_eq_nil_iff.mp hnil).2 hm
    | @cons l' ls' blanks cs hb h =>
      obtain ⟨rfl, rfl⟩ := List.cons_eq_cons.mp hls
      by_cases hnil : ls = []
      · subst hnil
        exact ⟨_, blanks, cs, rfl, .single l, hb, h⟩
      · obtain ⟨first, blanks', second, rfl, hfirst, hb', hsecond⟩ := ih h hnil
        exact ⟨_, blanks', second, by simp, .cons hb hfirst, hb', hsecond⟩

/-- What some lexemes are written as starts with the first of them. -/
theorem Spaced.exists_of_isPrefix {ls ms : List Lexeme} (h : Spaced ms slice) (hl : ls <+: ms)
    (hne : ls ≠ []) : ∃ first more, slice = first ++ more ∧ Spaced ls first := by
  obtain ⟨ns, rfl⟩ := hl
  by_cases hnil : ns = []
  · rw [hnil, List.append_nil] at h
    exact ⟨slice, [], by simp, h⟩
  · obtain ⟨first, blanks, second, rfl, hfirst, -, -⟩ := h.exists_of_append hne hnil
    exact ⟨first, blanks ++ second, rfl, hfirst⟩

/-- No line break comes from lexemes without one. -/
theorem Spaced.newline_not_mem {ls : List Lexeme} (h : Spaced ls slice)
    (hls : ∀ l ∈ ls, '\n' ∉ l.text.toList) : '\n' ∉ slice := by
  induction h with
  | single => exact hls _ List.mem_cons_self
  | cons hb h ih =>
    rw [List.forall_mem_cons] at hls
    simp only [List.mem_append, not_or]
    exact ⟨hls.1, fun hmem => absurd (hb _ hmem) (by decide), ih hls.2⟩

/-! ## The order of the tokens -/

theorem byteLength_pos (h : cs ≠ []) : 0 < byteLength cs := by
  obtain ⟨c, cs, rfl⟩ := List.exists_cons_of_ne_nil h
  have := c.utf8Size_pos
  rw [Text.byteLength_cons]
  omega

/-- A token stands after the start of the text, and only the last one is empty. -/
theorem Scans.bounds (h : Scans o cs ts) :
    ∀ t ∈ ts, o ≤ t.start ∧ t.start ≤ t.stop ∧ (t.isEof = false → t.start < t.stop) := by
  induction h with
  | done => simp [Token.isEof]
  | separator hc h ih =>
    intro t ht
    obtain ⟨hstart, hstop, hlt⟩ := ih t ht
    exact ⟨by omega, hstop, hlt⟩
  | @token o l cs ts hl h ih =>
    have hpos := byteLength_pos hl.text_ne_nil
    rw [List.forall_mem_cons]
    refine ⟨⟨Nat.le_refl o, Nat.le_add_right o _, fun _ => by simpa using hpos⟩, fun t ht => ?_⟩
    obtain ⟨hstart, hstop, hlt⟩ := ih t ht
    exact ⟨by omega, hstop, hlt⟩

/-- A token ends before the next ones start. -/
theorem Scans.pairwise (h : Scans o cs ts) : ts.Pairwise fun t u => t.stop ≤ u.start := by
  induction h with
  | done => exact List.pairwise_singleton _ _
  | separator hc h ih => exact ih
  | token hl h ih => exact List.pairwise_cons.mpr ⟨fun u hu => (h.bounds u hu).1, ih⟩

end GrammarText
