/-!
A span is a half-open range of byte offsets into a text. Tokens, tree nodes and diagnostics
all say where they stand by a span.
-/

namespace GrammarText

/-- A half-open byte range. A range that ends before it starts covers nothing. -/
structure Span where
  start : Nat
  stop : Nat
  deriving DecidableEq, Repr, Inhabited

namespace Span

/-- The byte count of a span, zero when it ends before it starts. -/
def length (s : Span) : Nat := s.stop - s.start

def point (offset : Nat) : Span := ⟨offset, offset⟩

end Span
end GrammarText
