import GrammarText.Data.Basic
import GrammarText.Data.Numeral

/-!
Data as JSON text. A list or record that holds anything takes a line for each item, two spaces
deeper than itself; an empty one is written as its two brackets.
-/

namespace GrammarText

namespace Json

open Numeral (hexDigits)

/-- How a character is written between double quotes. Quotes, backslashes and the characters below
the space are escaped, all others stand for themselves. -/
def escape (c : Char) : List Char :=
  match c with
  | '"' => ['\\', '"']
  | '\\' => ['\\', '\\']
  | '\x08' => ['\\', 'b']
  | '\x0c' => ['\\', 'f']
  | '\n' => ['\\', 'n']
  | '\r' => ['\\', 'r']
  | '\t' => ['\\', 't']
  | c =>
    if c.toNat < 0x20 then '\\' :: 'u' :: hexDigits .lower c.toNat 4 else [c]

def string (s : String) : List Char := '"' :: (s.toList.flatMap escape ++ ['"'])

/-- A line feed and the spaces before an item at some depth. -/
def newline (depth : Nat) : List Char := '\n' :: List.replicate (2 * depth) ' '

mutual

def value (depth : Nat) : Data → List Char
  | .bool true => "true".toList
  | .bool false => "false".toList
  | .text s => string s
  | .list [] => "[]".toList
  | .list (d :: ds) =>
    '[' :: (newline (depth + 1) ++ value (depth + 1) d ++ items (depth + 1) ds
      ++ newline depth ++ [']'])
  | .record [] => "\x7b\x7d".toList
  | .record ((k, d) :: fs) =>
    '\x7b' :: (newline (depth + 1) ++ string k ++ [':', ' '] ++ value (depth + 1) d
      ++ fields (depth + 1) fs ++ newline depth ++ ['\x7d'])

/-- The items of a list after its first, at some depth. -/
def items (depth : Nat) : List Data → List Char
  | [] => []
  | d :: ds => ',' :: (newline depth ++ value depth d ++ items depth ds)

/-- The fields of a record after its first, at some depth. -/
def fields (depth : Nat) : List (String × Data) → List Char
  | [] => []
  | (k, d) :: fs =>
    ',' :: (newline depth ++ string k ++ [':', ' '] ++ value depth d ++ fields depth fs)

end

end Json

/-- Data as JSON text, without a final line feed. -/
def Data.toJson (d : Data) : String := String.ofList (Json.value 0 d)

end GrammarText
