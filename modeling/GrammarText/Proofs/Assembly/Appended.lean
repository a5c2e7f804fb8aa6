import GrammarText.Proofs.Assembly.Specification
import GrammarText.Proofs.Text.Bytes

/-!
# Further declarations

No declarations that are appended repair others (`assemble_append`).  A declaration at fault is so
whatever comes after it.  A collision stays one: what is used stays in use at the place of its first
use, and what is stored under a name may be replaced but not removed.  So there is a declaration at
fault among the further ones, or a collision that is the same or a lesser one.
-/

namespace GrammarText

open Assembly

variable {ds : List Declaration} {s : String} {x y : Span}

/-- An error for a declaration that is at fault by itself or after those before it. -/
def GrammarError.IsFault : GrammarError → Prop
  | duplicateDefinition .. | invalidConditional .. => True
  | _ => False

theorem Declaration.Fault.isFault {earlier : List Declaration} {d : Declaration} {e : GrammarError}
    (h : d.Fault earlier e) : e.IsFault := by
  cases h <;> trivial

theorem Collides.append (h : Collides ds s) (es : List Declaration) : Collides (ds ++ es) s := by
  obtain ⟨⟨d, hd, hs⟩, e, he, hstored⟩ := h
  exact ⟨⟨d, List.mem_append_left es hd, hs⟩, e, List.mem_append_left es he, hstored⟩

theorem FirstUsed.append (h : FirstUsed ds s x) (es : List Declaration) :
    FirstUsed (ds ++ es) s x := by
  obtain ⟨pre, d, post, rfl, hpre, hs, hx⟩ := h
  exact ⟨pre, d, post ++ es, by simp, hpre, hs, hx⟩

/-- A spelling is used first at one place. -/
theorem FirstUsed.unique (hx : FirstUsed ds s x) (hy : FirstUsed ds s y) : x = y := by
  induction ds with
  | nil =>
    obtain ⟨pre, d, post, hnil, -⟩ := hx
    simp at hnil
  | cons d ds ih =>
    rcases firstUsed_cons_iff.mp hx with ⟨hs, rfl⟩ | ⟨hs, hx⟩
    · rcases firstUsed_cons_iff.mp hy with ⟨-, rfl⟩ | ⟨hs', -⟩
      · rfl
      · exact absurd hs hs'
    · rcases firstUsed_cons_iff.mp hy with ⟨hs', -⟩ | ⟨-, hy⟩
      · exact absurd hs' hs
      · exact ih hx hy

/-- Where a spelling collides there is an error. -/
theorem Collides.exists_error (h : Collides ds s) (goals : Names) :
    ∃ e, assemble ds goals = .error e := by
  cases hds : assemble ds goals with
  | error e => exact ⟨e, rfl⟩
  | ok g =>
    obtain ⟨a, ha, hnone, -⟩ := assemble_ok_iff.mp hds
    obtain ⟨hused, hstored⟩ := (collides_iff ha).mp h
    exact absurd hstored (collision?_eq_none_iff.mp hnone s hused)

/-- Declarations that are refused are refused with any others appended.  The error is the same if it
is for a declaration at fault.  If it is for a collision, there is now an error for a declaration at
fault, or for the collision of a name that is not greater in the order of bytes, which is the same
name only with the same use. -/
theorem assemble_append {e : GrammarError} {goals : Names} (h : assemble ds goals = .error e)
    (es : List Declaration) (goals' : Names) :
    (e.IsFault ∧ assemble (ds ++ es) goals' = .error e) ∨
      ∃ name used first, e = .nameCollision name used first ∧
        ((∃ f, f.IsFault ∧ assemble (ds ++ es) goals' = .error f) ∨
          ∃ name' used' first',
            assemble (ds ++ es) goals' = .error (.nameCollision name' used' first') ∧
            Text.bytes name'.toList ≤ Text.bytes name.toList ∧ (name' = name → used' = used)) := by
  rcases assemble_error_iff_fault.mp h with ⟨pre, d, post, rfl, hpre, hd⟩ |
    ⟨-, name, used, first, hcollides, -, hused, -, rfl⟩
  · refine .inl ⟨hd.isFault, assemble_error_iff_fault.mpr (.inl ⟨pre, d, post ++ es, ?_, hpre, hd⟩)⟩
    rw [List.append_assoc, List.cons_append]
  · refine .inr ⟨name, used, first.nameSpan, rfl, ?_⟩
    -- The collision is still there, so there is some error.
    have hstill := hcollides.append es
    obtain ⟨f, hf⟩ := hstill.exists_error goals'
    rcases assemble_error_iff_fault.mp hf with ⟨pre, d, post, -, -, hd⟩ |
      ⟨-, name', used', first', -, hleast, hused', -, rfl⟩
    · exact .inl ⟨f, hd.isFault, hf⟩
    · have hle := Text.bytes_le_iff.mpr (hleast name hstill)
      refine .inr ⟨name', used', first'.nameSpan, hf, hle, ?_⟩
      rintro rfl
      exact hused'.unique (hused.append es)

/-- A definition whose name is a terminal of one before it collides, and does so still with another
such definition behind it. -/
theorem assemble_append_collision :
    let d : Declaration := ⟨"A", ":", .alternatives [.symbols [.terminal "B", .terminal "C"]],
      ⟨0, 1⟩, ⟨0, 14⟩, [("B", ⟨6, 9⟩), ("C", ⟨10, 13⟩)], [⟨6, 13⟩]⟩
    let c : Declaration := ⟨"C", ":", .alternatives [.symbols []], ⟨15, 16⟩, ⟨15, 26⟩, [], []⟩
    let b : Declaration := ⟨"B", ":", .alternatives [.symbols []], ⟨27, 28⟩, ⟨27, 38⟩, [], []⟩
    assemble [d, c] ∅ = .error (.nameCollision "C" ⟨10, 13⟩ ⟨15, 16⟩) ∧
      ((∃ f, f.IsFault ∧ assemble ([d, c] ++ [b]) ∅ = .error f) ∨
        ∃ name used first, assemble ([d, c] ++ [b]) ∅ = .error (.nameCollision name used first) ∧
          Text.bytes name.toList ≤ Text.bytes "C".toList ∧ (name = "C" → used = ⟨10, 13⟩)) := by
  intro d c b
  have hds : assemble [d, c] ∅ = .error (.nameCollision "C" ⟨10, 13⟩ ⟨15, 16⟩) := by
    decide +kernel
  refine ⟨hds, ?_⟩
  rcases assemble_append hds [b] ∅ with ⟨hfault, -⟩ | ⟨name, used, first, heq, h⟩
  · exact hfault.elim
  · obtain ⟨rfl, rfl, rfl⟩ := GrammarError.nameCollision.inj heq
    exact h

end GrammarText
