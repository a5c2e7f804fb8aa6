import GrammarText.Grammar.Basic
import GrammarText.Span

/-!
Declarations: definitions as they stand in a text, with the places that diagnostics point at.
-/

namespace GrammarText

/-- A definition that was read from a text. -/
structure Declaration where
  name : String
  /-- The run of colons after the name, the length of which is significant. -/
  separator : String
  definition : Definition
  nameSpan : Span
  span : Span
  /-- Where each terminal of the declaration stands, in the order of the text. -/
  terminalSpans : List (String × Span)
  /-- Where each production line stands, in the order of the productions. -/
  productionSpans : List Span
  deriving DecidableEq

end GrammarText
