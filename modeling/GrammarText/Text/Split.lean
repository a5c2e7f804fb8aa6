/-!
Cutting a text in two: at the first place where a separator stands, and after a given start.
-/

namespace GrammarText.Text

/-- What follows a given start of a text. -/
def dropStart? : List Char → List Char → Option (List Char)
  | [], cs => some cs
  | _ :: _, [] => none
  | p :: ps, c :: cs => if p = c then dropStart? ps cs else none

/-- What stands before a given end of a text. -/
def dropEnd? (tail cs : List Char) : Option (List Char) :=
  (dropStart? tail.reverse cs.reverse).map List.reverse

/-- The two sides of the first place where a separator stands. -/
def splitFirst? (separator : List Char) : List Char → Option (List Char × List Char)
  | [] => (dropStart? separator []).map ([], ·)
  | c :: cs =>
    match dropStart? separator (c :: cs) with
    | some rest => some ([], rest)
    | none => (splitFirst? separator cs).map fun (before, rest) => (c :: before, rest)

theorem dropStart?_append (ps cs : List Char) : dropStart? ps (ps ++ cs) = some cs := by
  induction ps with
  | nil => rfl
  | cons p ps ih => simp [dropStart?, ih]

theorem dropEnd?_append (tail cs : List Char) : dropEnd? tail (cs ++ tail) = some cs := by
  simp [dropEnd?, dropStart?_append]

end GrammarText.Text
