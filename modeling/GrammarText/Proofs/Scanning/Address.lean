import GrammarText.Proofs.Scanning.Mixed
import GrammarText.Proofs.Text.Place

/-!
# Where a character is refused

However a scanner is asked, it refuses the character that its text is refused for
(`Scanner.tokensOf_of_error_mem`).  This character stands at a boundary of the text, and the line
and the column that the error names are the place of that boundary and of no other
(`placeAt_addresses`).
-/

namespace GrammarText

open Text (byteLength placeAt IsBoundary)

/-- All errors of a scanner are the one that its text is refused for. -/
theorem Scanner.tokensOf_of_error_mem {text : String} {calls : List Call} {answer : Answer}
    {e : LexicalError} (ha : answer ∈ (ofText text.toList).answers calls)
    (he : .error e ∈ answer.items) : tokensOf text = .error e := by
  obtain ⟨ts, ending, h⟩ := exists_ahead (ofText text.toList)
  obtain ⟨taken, count, -, hitems, -⟩ := answers_take h rfl calls
  -- The answers are tokens and then what the stream ends in, so the error is what it ends in.
  have hmem : .error e ∈ taken.map Except.ok ++ List.replicate count ending := by
    rw [← hitems]
    exact List.mem_flatMap.mpr ⟨answer, ha, he⟩
  obtain ⟨-, rfl⟩ : count ≠ 0 ∧ .error e = ending := by simpa using hmem
  obtain ⟨s, hlex, -, -⟩ := h.lex_eq rfl
  rw [tokensOf, hlex]
  rfl

/-- Line and column are the address of a boundary.  They count the line feeds before it and the
characters since the last one, from one on.  Boundaries have their addresses in the order of their
offsets.  So the line and the column of an error are those of the boundary that its span starts at,
and no other boundary has them. -/
theorem placeAt_addresses (text : String) :
    (∀ before after, text.toList = before ++ after → placeAt text.toList (byteLength before) =
      ⟨1 + before.count '\n', 1 + (before.rtakeWhile (· ≠ '\n')).length⟩) ∧
    (∀ p q, IsBoundary text.toList p → IsBoundary text.toList q →
      (placeAt text.toList p < placeAt text.toList q ↔ p < q)) ∧
    ∀ calls, ∀ answer ∈ (Scanner.ofText text.toList).answers calls, ∀ c place span,
      .error (.unexpectedCharacter c place span) ∈ answer.items →
      IsBoundary text.toList span.start ∧
        ∀ p, IsBoundary text.toList p → (placeAt text.toList p = place ↔ p = span.start) := by
  have hmono := Text.strictMonoOn_placeAt text.toList
  refine ⟨fun before after htext => ?_, fun p q hp hq => hmono.lt_iff_lt hp hq, ?_⟩
  · rw [htext, Text.placeAt_append, Text.foldl_after_first]
  · intro calls answer ha c place span he
    obtain ⟨d, before, after, htext, herror⟩ :=
      exists_of_tokensOf_error (Scanner.tokensOf_of_error_mem ha he)
    obtain ⟨rfl, rfl, rfl⟩ := LexicalError.unexpectedCharacter.inj herror
    have hstart : IsBoundary text.toList (byteLength before) := ⟨before, _, htext, rfl⟩
    exact ⟨hstart, fun p hp => hmono.eq_iff_eq hp hstart⟩

/-- The two bytes of one character count as one column. -/
theorem placeAt_addresses_refused :
    let text := "> é\n\t<"
    let calls : List Scanner.Call := [.next, .nextToken, .next]
    let error : LexicalError := .unexpectedCharacter '<' ⟨2, 2⟩ ⟨6, 7⟩
    (placeAt text.toList 4 = ⟨1, 4⟩ ∧ IsBoundary text.toList 4 ∧ IsBoundary text.toList 6 ∧
      placeAt text.toList 4 < placeAt text.toList 6) ∧
    .next (some (.error error)) ∈ (Scanner.ofText text.toList).answers calls ∧
    ∀ p, IsBoundary text.toList p → (placeAt text.toList p = ⟨2, 2⟩ ↔ p = 6) := by
  have hanswers : (Scanner.ofText "> é\n\t<".toList).answers [.next, .nextToken, .next] =
      [.next (some (.ok ⟨.prose "> é", 0, 4⟩)), .nextToken (.ok ⟨.newline, 4, 5⟩),
        .next (some (.error (.unexpectedCharacter '<' ⟨2, 2⟩ ⟨6, 7⟩)))] := by rfl
  intro text calls error
  obtain ⟨hplace, horder, herror⟩ := placeAt_addresses text
  have hp : IsBoundary text.toList 4 := ⟨"> é".toList, "\n\t<".toList, by decide, by decide⟩
  have hq : IsBoundary text.toList 6 := ⟨"> é\n\t".toList, "<".toList, by decide, by decide⟩
  have hmem : .next (some (.error error)) ∈ (Scanner.ofText text.toList).answers calls := by
    rw [hanswers]
    simp [error]
  refine ⟨⟨?_, hp, hq, (horder 4 6 hp hq).mpr (by decide)⟩, hmem, ?_⟩
  · exact hplace "> é".toList "\n\t<".toList (by decide)
  · exact (herror calls _ hmem _ _ _ (List.mem_singleton.mpr rfl)).2

end GrammarText
