import GrammarText.Data.Basic
import GrammarText.Data.Yaml.Scalar

/-!
Data as YAML text, in block style. A level of records is two spaces deep; the items of a list stand
under the key that the list belongs to, and the first line of an item after its dash.
-/

namespace GrammarText

namespace Yaml

def isSimpleKey (cs : List Char) : Bool := Text.byteLength cs ≤ 128 && !cs.any isBreak

/-- A key, up to where its value is written: after a colon on its line, or after a colon on a line
of its own. -/
def keyLine (n : Nat) (cs : List Char) : List Char :=
  if isSimpleKey cs then inlineScalar cs ++ [':']
  else '?' :: ' ' :: (scalarLine (n + 2) cs ++ indentation n ++ [':'])

def boolText (b : Bool) : List Char := if b then "true".toList else "false".toList

mutual

/-- What follows a dash, or a colon on a line of its own, in a line that is indented by `n`. -/
def afterMark (n : Nat) : Data → List Char
  | .bool b => ' ' :: (boolText b ++ ['\n'])
  | .text s => ' ' :: scalarLine (n + 2) s.toList
  | .list [] => " []\n".toList
  | .list (d :: ds) => " -".toList ++ afterMark (n + 2) d ++ items (n + 2) ds
  | .record [] => " \x7b\x7d\n".toList
  | .record ((k, d) :: fs) =>
    ' ' :: (keyLine (n + 2) k.toList
      ++ (if isSimpleKey k.toList then afterKey (n + 2) d else afterMark (n + 2) d)
      ++ fields (n + 2) fs)

/-- What follows a key and its colon, on the same line, in a record that is indented by `n`. -/
def afterKey (n : Nat) : Data → List Char
  | .bool b => ' ' :: (boolText b ++ ['\n'])
  | .text s => ' ' :: scalarLine (n + 2) s.toList
  | .list [] => " []\n".toList
  | .list (d :: ds) => '\n' :: (indentation n ++ '-' :: afterMark n d ++ items n ds)
  | .record [] => " \x7b\x7d\n".toList
  | .record ((k, d) :: fs) =>
    '\n' :: (indentation (n + 2) ++ keyLine (n + 2) k.toList
      ++ (if isSimpleKey k.toList then afterKey (n + 2) d else afterMark (n + 2) d)
      ++ fields (n + 2) fs)

def items (n : Nat) : List Data → List Char
  | [] => []
  | d :: ds => indentation n ++ '-' :: afterMark n d ++ items n ds

def fields (n : Nat) : List (String × Data) → List Char
  | [] => []
  | (k, d) :: fs =>
    indentation n ++ keyLine n k.toList
      ++ (if isSimpleKey k.toList then afterKey n d else afterMark n d) ++ fields n fs

end

def document : Data → List Char
  | .bool b => boolText b ++ ['\n']
  | .text s => scalarLine 2 s.toList
  | .list [] => "[]\n".toList
  | .list ds => items 0 ds
  | .record [] => "\x7b\x7d\n".toList
  | .record fs => fields 0 fs

end Yaml

/-- Data as YAML text, with a final line feed. -/
def Data.toYaml (d : Data) : String := String.ofList (Yaml.document d)

end GrammarText
