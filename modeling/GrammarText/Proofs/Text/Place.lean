import GrammarText.Text.Position
import Mathlib.Data.List.DropRight
import Mathlib.Data.Prod.Lex

/-!
# Lines and columns

A byte offset into a text is a boundary if it falls between two characters or on an end
(`IsBoundary`).  The place of a boundary counts the line feeds before it, and the characters since
the last of these (`placeAt_append`, `foldl_after_first`).  Every character that is read leads to a
later place (`Place.lt_after`), so boundaries have their places in the order of their offsets
(`strictMonoOn_placeAt`).
-/

namespace GrammarText.Text

/-! ## The order of places -/

namespace Place

def key (p : Place) : Nat ×ₗ Nat := toLex (p.line, p.column)

theorem key_injective : Function.Injective key := by
  rintro ⟨line, column⟩ ⟨line', column'⟩ h
  simpa [key] using h

/-- Places stand in the order in which a text is read. -/
instance : LinearOrder Place := .lift' key key_injective

theorem lt_iff {p q : Place} :
    p < q ↔ p.line < q.line ∨ p.line = q.line ∧ p.column < q.column :=
  Prod.Lex.lt_iff

/-- A character that is read leads to a later place. -/
theorem lt_after (p : Place) (c : Char) : p < p.after c := by
  rw [lt_iff, after]
  by_cases hc : c = '\n'
  · rw [if_pos hc]
    exact .inl (Nat.lt_add_one p.line)
  · rw [if_neg hc]
    exact .inr ⟨rfl, Nat.lt_add_one p.column⟩

/-- Reading on leads to a later place. -/
theorem lt_foldl_after (p : Place) {cs : List Char} (h : cs ≠ []) : p < cs.foldl after p := by
  induction cs generalizing p with
  | nil => exact absurd rfl h
  | cons c cs ih =>
    rw [List.foldl_cons]
    by_cases hcs : cs = []
    · subst hcs
      exact lt_after p c
    · exact (lt_after p c).trans (ih _ hcs)

end Place

/-! ## The place of a boundary -/

/-- Some characters of a text end at a byte offset. -/
def IsBoundary (text : List Char) (offset : Nat) : Prop :=
  ∃ before after, text = before ++ after ∧ offset = byteLength before

variable {text : List Char} {p q : Nat}

theorem before_append (cs rest : List Char) : before (byteLength cs) (cs ++ rest) = cs := by
  induction cs with
  | nil => cases rest <;> rfl
  | cons c cs ih =>
    have hpos := c.utf8Size_pos
    rw [List.cons_append, before, byteLength_cons, if_neg (by omega), Nat.add_sub_cancel_left, ih]

/-- A place behind some characters is told by these. -/
theorem placeAt_append (cs rest : List Char) :
    placeAt (cs ++ rest) (byteLength cs) = cs.foldl Place.after .first := by
  rw [placeAt, before_append]

/-- Behind some characters the line is told by the line feeds among them, and the column by those
that come after the last line feed. -/
theorem foldl_after_first (cs : List Char) : cs.foldl Place.after .first =
    ⟨1 + cs.count '\n', 1 + (cs.rtakeWhile (· ≠ '\n')).length⟩ := by
  -- A line feed starts the column again, so the last character decides.
  induction cs using List.reverseRecOn with
  | nil => rfl
  | append_singleton cs c ih =>
    rw [List.foldl_concat, ih, Place.after]
    by_cases hc : c = '\n'
    · subst hc
      simp [Nat.add_assoc]
    · simp [hc, Nat.add_assoc]

/-- Two boundaries have characters between them. -/
theorem IsBoundary.exists_between (hp : IsBoundary text p) (hq : IsBoundary text q) (h : p < q) :
    ∃ before between after, text = before ++ (between ++ after) ∧ between ≠ [] ∧
      p = byteLength before ∧ q = byteLength (before ++ between) := by
  obtain ⟨before, rest, rfl, rfl⟩ := hp
  obtain ⟨before', rest', heq, rfl⟩ := hq
  -- Both are beginnings of the same text, so one of them goes on from where the other ends.
  rcases List.append_eq_append_iff.mp heq with ⟨between, rfl, rfl⟩ | ⟨between, rfl, rfl⟩
  · refine ⟨before, between, rest', rfl, ?_, rfl, rfl⟩
    rintro rfl
    simp at h
  · rw [byteLength_append] at h
    omega

/-- Boundaries have their places in the order of their offsets. -/
theorem strictMonoOn_placeAt (text : List Char) :
    StrictMonoOn (placeAt text) {p | IsBoundary text p} := by
  intro p hp q hq h
  obtain ⟨before, between, after, rfl, hne, rfl, rfl⟩ := IsBoundary.exists_between hp hq h
  rw [placeAt_append, ← List.append_assoc, placeAt_append, List.foldl_append]
  exact Place.lt_foldl_after _ hne

end GrammarText.Text
