/-!
# Texts between quotes

A reader of a text between quotes takes what stands for one character after the other
(`Text.consRead`).  If it reads what is written for each character, it reads what is written for a
whole text (`Text.read_flatMap`).
-/

namespace GrammarText.Text

def consRead (c : Char) : Option (List Char × List Char) → Option (List Char × List Char) :=
  Option.map fun (cs, rest) => (c :: cs, rest)

theorem read_flatMap {read : List Char → Option (List Char × List Char)}
    {write : Char → List Char}
    (hwrite : ∀ c rest, read (write c ++ rest) = consRead c (read rest)) {close rest : List Char}
    (hclose : read close = some ([], rest)) (cs : List Char) :
    read (cs.flatMap write ++ close) = some (cs, rest) := by
  induction cs with
  | nil => rwa [List.flatMap_nil, List.nil_append]
  | cons c cs ih => rw [List.flatMap_cons, List.append_assoc, hwrite, ih]; rfl

end GrammarText.Text
