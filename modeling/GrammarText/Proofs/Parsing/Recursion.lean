import GrammarText.Description.Reader
import GrammarText.Proofs.Parsing.Depth
import Mathlib.Data.List.Count

/-!
# Recursion: descriptions in which no rule calls itself at the same place

A description that has been read asks only for rules that it defines (`Description.closed_of_read`).
If none of them can call itself again at the place where it is called, then a rule is ranked by how
many rules of the table are called at that place from it on (`Description.Closed.exists_ranking`),
and the parser never runs out of depth.
-/

namespace GrammarText

/-- A test that more elements pass counts more of them. -/
theorem countP_lt_countP {α : Type} {p q : α → Bool} {l : List α} (hle : ∀ a ∈ l, p a → q a)
    (hlt : ∃ a ∈ l, q a = true ∧ p a = false) : l.countP p < l.countP q := by
  induction l with
  | nil => simp at hlt
  | cons b l ih =>
    rw [List.forall_mem_cons] at hle
    rw [List.countP_cons, List.countP_cons]
    obtain ⟨a, ha, hq, hp⟩ := hlt
    rcases List.mem_cons.mp ha with rfl | ha
    · have hmono : l.countP p ≤ l.countP q := List.countP_mono_left hle.2
      simp only [hq, hp, reduceIte, Bool.false_eq_true]
      omega
    · have hrest : l.countP p < l.countP q := ih hle.2 ⟨a, ha, hq, hp⟩
      by_cases hb : p b = true
      · simpa [hb, hle.1 hb] using hrest
      · simp only [hb, Bool.false_eq_true, reduceIte]
        omega

/-! ## Rules that are asked for are defined -/

namespace RuleTable

variable {t : RuleTable} {r : Rule}

/-- The table gives alternatives to the rules that it defines. -/
theorem exists_alternatives_iff :
    (∃ alternatives, t.alternatives? r = some alternatives) ↔ t.defines r = true := by
  induction t with
  | nil => simp [alternatives?, defines]
  | cons entry t ih =>
    obtain ⟨s, alternatives⟩ := entry
    by_cases h : r = s
    · simp [alternatives?, defines, h]
    · have hrs : (r == s) = false := beq_eq_false_iff_ne.mpr h
      have hsr : ¬ s = r := Ne.symm h
      simpa [alternatives?, defines, List.lookup_cons, hrs, hsr] using ih

theorem defines_iff : t.defines r = true ↔ ∃ alternatives, (r, alternatives) ∈ t := by
  simp [defines]

theorem mem_of_alternatives {alternatives : List (List Item)}
    (h : t.alternatives? r = some alternatives) : (r, alternatives) ∈ t := by
  obtain ⟨before, after, rfl, -⟩ := List.lookup_eq_some_iff.mp h
  simp

/-- A rule that an item of an alternative asks for is among those that the table asks for. -/
theorem mem_references {alternatives : List (List Item)} {items : List Item} {i : Item} {s : Rule}
    (hr : t.alternatives? r = some alternatives) (hitems : items ∈ alternatives) (hi : i ∈ items)
    (hs : i.matcher = .rule s) : s ∈ t.references := by
  simp only [references, List.mem_flatMap, List.mem_filterMap]
  exact ⟨_, mem_of_alternatives hr, items, hitems, i, hi, by simp [hs]⟩

end RuleTable

/-- The start rule and all rules that items ask for are defined. -/
structure Description.Closed (g : Description) : Prop where
  start : g.rules.defines g.start = true
  references : ∀ r ∈ g.rules.references, g.rules.defines r = true

/-- A description that has been read is closed. -/
theorem Description.closed_of_read {text : String} {g : Description}
    (h : Description.read text = .ok g) : g.Closed := by
  cases hlines : RuleTable.readLines [] 1 (Text.lines text.toList) with
  | error e => simp [Description.read, hlines, bind, Except.bind] at h
  | ok opened =>
    simp only [Description.read, hlines, bind, Except.bind] at h
    split at h
    · simp [throw, throwThe, MonadExceptOf.throw] at h
    · rename_i hfind
      split at h
      · simp [throw, throwThe, MonadExceptOf.throw] at h
      · rename_i start alternatives rules hrules
        obtain rfl : (⟨start, opened.reverse⟩ : Description) = g := by
          simpa [pure, Except.pure] using h
        refine ⟨?_, ?_⟩
        · simp [hrules, RuleTable.defines]
        · simpa [List.find?_eq_none] using hfind

namespace Description

variable {g : Description} {r s : Rule}

/-- What is called at once is defined. -/
theorem Closed.defines_of_callsAtOnce (hg : g.Closed) (h : g.CallsAtOnce r s) :
    g.rules.defines s = true := by
  obtain ⟨alternatives, before, i, after, hr, hmem, hi, -⟩ := h
  exact hg.references s (RuleTable.mem_references hr hmem (by simp) hi)

/-- A rule that calls anything at once is defined itself. -/
theorem CallsAtOnce.defines (h : g.CallsAtOnce r s) : g.rules.defines r = true := by
  obtain ⟨alternatives, before, i, after, hr, -⟩ := h
  exact RuleTable.exists_alternatives_iff.mp ⟨alternatives, hr⟩

/-! ## Ranking rules by what they call -/

open Classical in
/-- How many rules of the table are called from a rule on without a token between. -/
noncomputable def calledAtOnce (g : Description) (r : Rule) : Nat :=
  g.rules.countP fun entry => decide (Relation.TransGen g.CallsAtOnce r entry.1)

/-- Where no rule calls itself again at the same place, rules are ranked by how many rules are
called from them on. -/
theorem Closed.exists_ranking (hg : g.Closed) (hrec : ∀ r, ¬ g.LeftRecursive r) :
    Nonempty (Ranking g) := by
  classical
  refine ⟨⟨g.calledAtOnce, @fun r s h => ?_, fun r => ?_⟩⟩
  · -- What is called from `s` on is called from `r` on, and so is `s`.
    refine countP_lt_countP (fun entry _ hs => ?_) ?_
    · simp only [decide_eq_true_eq] at hs ⊢
      exact .head h hs
    · obtain ⟨alternatives, hmem⟩ := RuleTable.defines_iff.mp (hg.defines_of_callsAtOnce h)
      exact ⟨_, hmem, decide_eq_true (.single h), decide_eq_false (hrec s)⟩
  · -- A defined rule is not called from itself on, and another one calls nothing.
    refine List.countP_lt_length_iff.mpr ?_
    by_cases hr : g.rules.defines r = true
    · obtain ⟨alternatives, hmem⟩ := RuleTable.defines_iff.mp hr
      exact ⟨_, hmem, decide_eq_false (hrec r)⟩
    · obtain ⟨alternatives, hmem⟩ := RuleTable.defines_iff.mp hg.start
      refine ⟨_, hmem, decide_eq_false fun hcalls => hr ?_⟩
      obtain ⟨s, hs, -⟩ := Relation.TransGen.head'_iff.mp hcalls
      exact hs.defines

/-! ## A description with loops -/

/-- A description in which a rule that may take nothing is asked for any number of times. -/
def lineBreaks : Description :=
  ⟨.grammar, [(.grammar, [[(Item.rule .block).times .star, .token .eof]]),
    (.block, [[(Item.token .newline).times .star]])]⟩

theorem read_lineBreaks :
    Description.read "grammar ::= block* EOF\nblock ::= NL*\n" = .ok lineBreaks := by rfl

def lineBreaks_layering : Layering lineBreaks where
  idle r := r = .block
  rank r := if r = .grammar then 1 else 0
  idle_of_all := by
    intro r alternatives h
    cases r <;> cases h <;> decide
  rank_lt := by
    intro r alternatives h
    cases r <;> cases h <;> decide
  rank_lt_length r := by cases r <;> decide

end Description
end GrammarText
