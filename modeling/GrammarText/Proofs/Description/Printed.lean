import GrammarText.Proofs.Description.Layout

/-!
# Printing: a table that is printed is read back

A printed table is one of the texts that write it (`RuleTable.isWritten_render`), and such texts are
read back.  So the notation's own grammar is the description that its text says
(`Description.read_builtinText`).
-/

namespace GrammarText

/-- Printed items are items with one blank between two of them. -/
theorem itemsWritten_renderItems (items : List Item) :
    ItemsWritten items (renderItems items).toList := by
  induction items with
  | nil => exact .nil
  | cons i items ih =>
    cases items with
    | nil =>
      have hlast := @ItemsWritten.cons i [] [] [] (by decide) (by simp) .nil
      simpa [renderItems] using hlast
    | cons j items =>
      have hnext := @ItemsWritten.cons i _ [' '] _ (by decide) (by simp) ih
      simpa [renderItems, String.intercalate_cons_cons] using hnext

/-- The line of a further alternative, up to its end. -/
theorem written_alternative (indent : Nat) (items : List Item) :
    (DescriptionLine.alternative items).Written
      (List.replicate indent ' ' ++ '|' :: ([' ', ' '] ++ (renderItems items).toList)) := by
  refine .alternative (fun c hc => ?_) (by decide) (itemsWritten_renderItems items)
  obtain rfl := List.eq_of_mem_replicate hc
  decide

/-- A printed rule in front of other lines. -/
theorem LinesWritten.renderRule {lines : List DescriptionLine} {cs : List Char}
    (h : LinesWritten lines cs) (r : Rule) (alternatives : List (List Item)) :
    LinesWritten (ruleLines r alternatives ++ lines)
      ((renderRule r alternatives).toList ++ cs) := by
  cases alternatives with
  | nil => simpa [GrammarText.renderRule, ruleLines] using h
  | cons first more =>
    -- From the last alternative back to the second, each line is put in front of the others.
    have hmore : LinesWritten (more.map .alternative ++ lines)
        ((more.flatMap fun items => List.replicate (r.name.length + 2) ' ' ++
          '|' :: ([' ', ' '] ++ (renderItems items).toList) ++ ['\n']) ++ cs) := by
      induction more with
      | nil => exact h
      | cons items more ih =>
        have hline := LinesWritten.cons (written_alternative (r.name.length + 2) items) ih
        simpa using hline
    have hopening := LinesWritten.cons (@DescriptionLine.Written.opening r first [] [' '] [' '] _
      (by decide) (by decide) (by decide) (itemsWritten_renderItems first)) hmore
    simpa [GrammarText.renderRule, ruleLines, String.toList_join, List.flatMap_map] using hopening

namespace RuleTable

variable {t : RuleTable}

theorem linesWritten_render (t : RuleTable) : LinesWritten t.lines t.render.toList := by
  rw [render, String.toList_join]
  induction t with
  | nil => exact .nil
  | cons entry t ih => exact ih.renderRule entry.1 entry.2

/-- No blank line is among the lines of a table. -/
theorem filter_lines (t : RuleTable) : t.lines.filter (· ≠ .blank) = t.lines := by
  rw [List.filter_eq_self]
  intro l hl
  obtain ⟨entry, -, hrule⟩ := List.mem_flatMap.mp hl
  cases h : entry.2 with
  | nil => simp [h, ruleLines] at hrule
  | cons first more =>
    rw [h, ruleLines, List.mem_cons, List.mem_map] at hrule
    rcases hrule with rfl | ⟨items, -, rfl⟩ <;> rfl

/-- A printed table is a text that writes the table. -/
theorem isWritten_render (t : RuleTable) : t.IsWritten t.render :=
  ⟨t.lines, t.linesWritten_render, t.filter_lines⟩

/-- An empty line in front changes nothing. -/
theorem IsWritten.newline {text : String} (h : t.IsWritten text) : t.IsWritten ("\n" ++ text) := by
  obtain ⟨lines, hlines, hsame⟩ := h
  refine ⟨.blank :: lines, ?_, ?_⟩
  · rw [String.toList_append]
    exact @LinesWritten.cons .blank _ [] _ (.blank (by decide)) hlines
  · rw [List.filter_cons_of_neg (by simp), hsame]

end RuleTable

/-- The notation's own grammar is what its text says. -/
theorem Description.read_builtinText : Description.read builtinText = .ok .builtin := by
  have hlines := builtinRules.isWritten_render.newline.readLines ⟨by decide, by decide, by decide⟩
  have hclosed : ∀ r ∈ builtinRules.references, builtinRules.defines r = true := by decide
  exact read_of_closed rfl hlines hclosed

end GrammarText
