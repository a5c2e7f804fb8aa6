/-!
Positions in a text: byte lengths, and the line and column that a byte offset falls on.

A text is a list of characters, and an offset counts the bytes of their UTF-8 form. Lines and
columns count from one, and a column counts characters, not bytes.
-/

namespace GrammarText.Text

/-- The byte count of the UTF-8 form of some characters. -/
def byteLength : List Char → Nat
  | [] => 0
  | c :: cs => c.utf8Size + byteLength cs

@[simp] theorem byteLength_nil : byteLength [] = 0 := rfl

@[simp] theorem byteLength_cons (c : Char) (cs : List Char) :
    byteLength (c :: cs) = c.utf8Size + byteLength cs := rfl

@[simp] theorem byteLength_append (cs ds : List Char) :
    byteLength (cs ++ ds) = byteLength cs + byteLength ds := by
  induction cs with
  | nil => simp
  | cons c cs ih => simp [ih, Nat.add_assoc]

/-- Where a character stands, as a reader counts: the line, and the column in that line. -/
structure Place where
  line : Nat
  column : Nat
  deriving DecidableEq, Repr

namespace Place

def first : Place := ⟨1, 1⟩

/-- The place after a character: a line feed opens the next line. -/
def after (p : Place) (c : Char) : Place :=
  if c = '\n' then ⟨p.line + 1, 1⟩ else ⟨p.line, p.column + 1⟩

end Place

/-- The characters that start before a byte offset. -/
def before (offset : Nat) : List Char → List Char
  | [] => []
  | c :: cs => if offset = 0 then [] else c :: before (offset - c.utf8Size) cs

/-- The place of a byte offset. An offset inside a character falls on the character after it,
and one beyond the end of the text on the end. -/
def placeAt (cs : List Char) (offset : Nat) : Place :=
  (before offset cs).foldl Place.after Place.first

end GrammarText.Text
