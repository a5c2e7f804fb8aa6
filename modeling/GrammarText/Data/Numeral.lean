/-!
Numbers in digits. Digits of any base up to sixteen are read, whatever the case of their letters;
those of base sixteen are written in the case that a format asks for.
-/

namespace GrammarText.Numeral

/-- The value of a digit in bases up to sixteen. -/
def digitValue? (c : Char) : Option Nat :=
  if c.isDigit then some (c.toNat - '0'.toNat)
  else if 'a' ≤ c ∧ c ≤ 'f' then some (c.toNat - 'a'.toNat + 10)
  else if 'A' ≤ c ∧ c ≤ 'F' then some (c.toNat - 'A'.toNat + 10)
  else none

/-- Reads digits onto the value of those before them. -/
def readDigits (base value : Nat) : List Char → Option Nat
  | [] => some value
  | c :: cs =>
    match digitValue? c with
    | some d => if d < base then readDigits base (value * base + d) cs else none
    | none => none

/-- The value of one or more digits of a base. -/
def natural? (base : Nat) (cs : List Char) : Option Nat :=
  if cs.isEmpty then none else readDigits base 0 cs

/-- The case in which the digits from ten on are written. -/
inductive LetterCase where
  | lower
  | upper
  deriving DecidableEq, Repr

def LetterCase.digits : LetterCase → List Char
  | lower => "0123456789abcdef".toList
  | upper => "0123456789ABCDEF".toList

def hexDigit (letters : LetterCase) (n : Nat) : Char := letters.digits.getD n '0'

/-- The last digits of a number in base sixteen. -/
def hexDigits (letters : LetterCase) (n : Nat) : Nat → List Char
  | 0 => []
  | count + 1 => hexDigits letters (n / 16) count ++ [hexDigit letters (n % 16)]

end GrammarText.Numeral
