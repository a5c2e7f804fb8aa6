import GrammarText.Text.Position
import Mathlib.Data.List.Lex

/-!
# Texts as bytes

The bytes of a text are those of its characters in UTF-8, one after another.  Texts stand in the
same order as their bytes (`Text.bytes_le_iff`): where two characters differ, the lesser one has the
lesser byte at the first place at which their bytes do.
-/

namespace GrammarText.Text

def bytes (cs : List Char) : List UInt8 := cs.flatMap String.utf8EncodeChar

@[simp] theorem bytes_cons (c : Char) (cs : List Char) :
    bytes (c :: cs) = String.utf8EncodeChar c ++ bytes cs := rfl

/-- A lesser character has lesser bytes, whatever comes after them. -/
theorem utf8EncodeChar_append_lt {c d : Char} (h : c < d) (xs ys : List UInt8) :
    String.utf8EncodeChar c ++ xs < String.utf8EncodeChar d ++ ys := by
  have hcd : c.val.toNat < d.val.toNat := UInt32.lt_iff_toNat_lt.mp h
  have hd : d.val.toNat < 0x110000 := by
    rcases d.valid with h | h <;> omega
  unfold String.utf8EncodeChar
  generalize c.val.toNat = v at *
  generalize d.val.toNat = w at *
  dsimp only
  -- The first byte tells how many there are.  Among as many bytes, the first that differs decides.
  split_ifs <;>
    simp (disch := omega) only [List.cons_append, List.nil_append, List.cons_lt_cons_iff,
      UInt8.lt_iff_toNat_lt, ← UInt8.toNat_inj, UInt8.toNat_ofNat', Nat.mod_eq_of_lt] <;>
    omega

theorem bytes_lt_of_lt {cs ds : List Char} (h : cs < ds) : bytes cs < bytes ds := by
  induction h with
  | @nil d ds =>
    cases hd : String.utf8EncodeChar d with
    | nil => exact absurd hd String.utf8EncodeChar_ne_nil
    | cons x xs =>
      rw [bytes_cons, hd]
      exact List.nil_lt_cons _ _
  | cons h ih => exact List.append_left_lt ih
  | rel h => exact utf8EncodeChar_append_lt h _ _

theorem bytes_lt_iff {cs ds : List Char} : bytes cs < bytes ds ↔ cs < ds := by
  refine ⟨fun h => ?_, bytes_lt_of_lt⟩
  by_contra hn
  rcases List.le_iff_lt_or_eq.mp (List.not_lt.mp hn) with hlt | rfl
  · exact List.lt_asymm h (bytes_lt_of_lt hlt)
  · exact List.lt_irrefl _ h

/-- Strings stand in the order of their bytes. -/
theorem bytes_le_iff {s t : String} : bytes s.toList ≤ bytes t.toList ↔ s ≤ t := by
  rw [← List.not_lt, bytes_lt_iff]
  rfl

end GrammarText.Text
