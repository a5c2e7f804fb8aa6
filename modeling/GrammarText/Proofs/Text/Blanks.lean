import GrammarText.Text.Blank
import GrammarText.Text.Split
import Mathlib.Data.List.TakeWhile

/-!
# Cutting texts

What is trimmed off a text, what its words and its lines are, and where it is cut in two, for texts
that are put together of parts.
-/

namespace GrammarText.Text

/-! ## Ends of texts -/

theorem trimEnd_append_cons {c : Char} (hc : isBlank c = false) (before after : List Char) :
    trimEnd (before ++ c :: after) = before ++ c :: trimEnd after := by
  have hstop : (c :: before.reverse).dropWhile isBlank = c :: before.reverse :=
    List.dropWhile_cons_of_neg (by simp [hc])
  rw [trimEnd, trimEnd, List.reverse_append, List.reverse_cons, List.append_assoc,
    List.singleton_append, List.dropWhile_append, hstop]
  split
  · rename_i hempty
    simp [List.isEmpty_iff.mp hempty]
  · simp

theorem trimStart_append {before after : List Char} (h : ∀ c ∈ before, isBlank c = true) :
    trimStart (before ++ after) = trimStart after := by
  induction before with
  | nil => rfl
  | cons c before ih =>
    rw [List.forall_mem_cons] at h
    rw [List.cons_append, trimStart, List.dropWhile_cons_of_pos h.1, ← trimStart, ih h.2]

theorem trimStart_cons {c : Char} (hc : isBlank c = false) (cs : List Char) :
    trimStart (c :: cs) = c :: cs :=
  List.dropWhile_cons_of_neg (by simp [hc])

theorem trimEnd_append {after : List Char} (h : ∀ c ∈ after, isBlank c = true)
    (before : List Char) : trimEnd (before ++ after) = trimEnd before := by
  rw [trimEnd, List.reverse_append, ← trimStart,
    trimStart_append fun c hc => h c (List.mem_reverse.mp hc), trimStart, trimEnd]

/-- Blanks at the start do not count. -/
theorem trim_append {before : List Char} (h : ∀ c ∈ before, isBlank c = true) (after : List Char) :
    trim (before ++ after) = trim after := by
  rw [trim, trimStart_append h, ← trim]

theorem trim_cons {c : Char} (hc : isBlank c = false) (cs : List Char) :
    trim (c :: cs) = c :: trimEnd cs := by
  rw [trim, trimStart_cons hc]
  exact trimEnd_append_cons hc [] cs

/-- Blanks at the end do not count. -/
theorem trim_append_blanks {after : List Char} (h : ∀ c ∈ after, isBlank c = true)
    (before : List Char) : trim (before ++ after) = trim before := by
  rw [trim, trim, trimStart, trimStart, List.dropWhile_append]
  cases before.dropWhile isBlank with
  | nil => simp [List.dropWhile_eq_nil_iff.mpr h]
  | cons d ds =>
    rw [List.isEmpty_cons, if_neg Bool.false_ne_true]
    exact trimEnd_append h (d :: ds)

theorem trim_eq_nil {cs : List Char} (h : ∀ c ∈ cs, isBlank c = true) : trim cs = [] :=
  trim_append_blanks h []

theorem trim_eq_self {cs : List Char} (h : ∀ c ∈ cs, isBlank c = false) : trim cs = cs := by
  have hstart : cs.dropWhile isBlank = cs :=
    dropWhile_eq_self fun c hc => h c (List.mem_of_mem_head? hc)
  have hend : cs.reverse.dropWhile isBlank = cs.reverse :=
    dropWhile_eq_self fun c hc => h c (List.mem_reverse.mp (List.mem_of_mem_head? hc))
  rw [trim, trimStart, hstart, trimEnd, hend, List.reverse_reverse]

/-! ## Words -/

theorem fields_ne_nil (cs : List Char) : fields cs ≠ [] := by
  cases cs with
  | nil => simp [fields]
  | cons c cs =>
    rw [fields]
    split
    · simp
    · split <;> simp

/-- A blank ends a field. -/
theorem fields_append_cons {b : Char} (hb : isBlank b = true) (cs ds : List Char) :
    fields (cs ++ b :: ds) = fields cs ++ fields ds := by
  induction cs with
  | nil => simp [fields, hb]
  | cons c cs ih =>
    rw [List.cons_append, fields, fields, ih]
    split
    · rfl
    · cases h : fields cs with
      | nil => exact absurd h (fields_ne_nil cs)
      | cons f fs => rfl

theorem words_append_cons {b : Char} (hb : isBlank b = true) (cs ds : List Char) :
    words (cs ++ b :: ds) = words cs ++ words ds := by
  rw [words, fields_append_cons hb, List.filter_append, ← words, ← words]

theorem fields_eq_singleton {w : List Char} (h : ∀ c ∈ w, isBlank c = false) : fields w = [w] := by
  induction w with
  | nil => rfl
  | cons c w ih =>
    rw [List.forall_mem_cons] at h
    simp [fields, h.1, ih h.2]

theorem words_eq_singleton {w : List Char} (h : ∀ c ∈ w, isBlank c = false) (hw : w ≠ []) :
    words w = [w] := by
  rw [words, fields_eq_singleton h]
  simpa using hw

theorem words_append_blanks {bs : List Char} (h : ∀ b ∈ bs, isBlank b = true) (cs : List Char) :
    words (cs ++ bs) = words cs := by
  induction bs generalizing cs with
  | nil => rw [List.append_nil]
  | cons b bs ih =>
    rw [List.forall_mem_cons] at h
    have hbs : words ([] ++ bs) = words [] := ih h.2 []
    rw [words_append_cons h.1, ← List.nil_append bs, hbs]
    exact List.append_nil _

/-- Blanks at the end make no words. -/
theorem words_trimEnd (cs : List Char) : words (trimEnd cs) = words cs := by
  have hsplit : cs = trimEnd cs ++ (cs.reverse.takeWhile isBlank).reverse := by
    rw [trimEnd, ← List.reverse_append, List.takeWhile_append_dropWhile, List.reverse_reverse]
  have hblank : ∀ b ∈ (cs.reverse.takeWhile isBlank).reverse, isBlank b = true :=
    fun b hb => List.mem_takeWhile_imp (List.mem_reverse.mp hb)
  calc words (trimEnd cs) = words (trimEnd cs ++ (cs.reverse.takeWhile isBlank).reverse) :=
        (words_append_blanks hblank _).symm
    _ = words cs := by rw [← hsplit]

/-- Blanks at the start make no words. -/
theorem words_blanks_append {bs : List Char} (h : ∀ b ∈ bs, isBlank b = true) (cs : List Char) :
    words (bs ++ cs) = words cs := by
  induction bs with
  | nil => rfl
  | cons b bs ih =>
    rw [List.forall_mem_cons] at h
    rw [List.cons_append, ← ih h.2]
    exact words_append_cons h.1 [] (bs ++ cs)

/-! ## Lines -/

/-- A line feed ends a line, and a carriage return before it is no part of the line. -/
theorem exists_lines_append_cons {l : List Char} (h : '\n' ∉ l) (cs : List Char) :
    ∃ l', lines (l ++ '\n' :: cs) = l' :: lines cs ∧ (l = l' ∨ l = l' ++ ['\r']) := by
  induction l with
  | nil => exact ⟨[], rfl, .inl rfl⟩
  | cons c l ih =>
    rw [List.mem_cons, not_or] at h
    obtain ⟨l', hlines, hl⟩ := ih h.2
    by_cases hend : c = '\r' ∧ l = []
    · obtain ⟨rfl, rfl⟩ := hend
      exact ⟨[], rfl, .inr rfl⟩
    · refine ⟨c :: l', ?_, ?_⟩
      · rw [List.cons_append, lines, hlines]
        · exact Ne.symm h.1
        · -- The carriage return is not the last of the line.
          rintro ds rfl hds
          cases l with
          | nil => exact hend ⟨rfl, rfl⟩
          | cons d l =>
            rw [List.cons_append, List.cons.injEq] at hds
            exact h.2 (by simp [hds.1])
      · rcases hl with rfl | rfl
        · exact .inl rfl
        · exact .inr rfl

/-- What has no line feed in it is a line, if it is anything. -/
theorem lines_eq_singleton {l : List Char} (h : '\n' ∉ l) (hl : l ≠ []) : lines l = [l] := by
  induction l with
  | nil => exact absurd rfl hl
  | cons c l ih =>
    rw [List.mem_cons, not_or] at h
    cases l with
    | nil =>
      rw [lines]
      · rfl
      · exact Ne.symm h.1
      · rintro ds - hds
        cases hds
    | cons d l =>
      rw [lines, ih h.2 (List.cons_ne_nil d l)]
      · exact Ne.symm h.1
      · rintro ds - hds
        exact h.2 (by simp [(List.cons.inj hds).1])

/-! ## Cuts -/

/-- A text is cut at the first place at which its separator can stand. -/
theorem splitFirst?_append {s : Char} {separator before : List Char} (h : s ∉ before)
    (after : List Char) :
    splitFirst? (s :: separator) (before ++ s :: separator ++ after) = some (before, after) := by
  induction before with
  | nil =>
    have hdrop := dropStart?_append (s :: separator) after
    rw [List.cons_append] at hdrop
    rw [List.nil_append, List.cons_append, splitFirst?, hdrop]
  | cons c before ih =>
    rw [List.mem_cons, not_or] at h
    rw [List.cons_append, List.cons_append, splitFirst?, ih h.2]
    simp [dropStart?, h.1]

theorem splitFirst?_eq_none {s : Char} {separator cs : List Char} (h : s ∉ cs) :
    splitFirst? (s :: separator) cs = none := by
  induction cs with
  | nil => rfl
  | cons c cs ih =>
    rw [List.mem_cons, not_or] at h
    simp [splitFirst?, dropStart?, h.1, ih h.2]

end GrammarText.Text
