import GrammarText.Data.Numeral
import GrammarText.Text.Split

/-!
What a plain YAML scalar reads as, other than text: nothing, a truth value or a number. A text that
reads so must be quoted to stay a text.
-/

namespace GrammarText.Yaml

open Numeral (natural?)
open Text (dropStart?)

/-- The bases other than ten, with what is written before their digits. -/
def baseMarks : List (List Char × Nat) :=
  [(['0', 'x'], 16), (['0', 'o'], 8), (['0', 'b'], 2)]

/-- The value of digits after a mark for their base, or of decimal digits. -/
def magnitude? (cs : List Char) : Option Nat :=
  match baseMarks.findSome? fun (mark, base) => dropStart? mark cs >>= natural? base with
  | some n => some n
  | none => natural? 10 cs

/-- A zero with more digits after it, and nothing else but a sign, is no number. -/
def isZeroPadded (cs : List Char) : Bool :=
  let digits := match cs with
    | '+' :: r => r
    | '-' :: r => r
    | _ => cs
  match digits with
  | '0' :: r => !r.isEmpty && r.all Char.isDigit
  | _ => false

/-- Whether a text reads as an integer of at most 128 bits. -/
def isInteger (cs : List Char) : Bool :=
  let atMost (limit : Nat) (r : List Char) : Bool :=
    match magnitude? r with
    | some n => n ≤ limit
    | none => false
  !isZeroPadded cs &&
  match cs with
  | '-' :: r => atMost (Nat.pow 2 127) r
  | '+' :: r => atMost (Nat.pow 2 128 - 1) r
  | _ => atMost (Nat.pow 2 128 - 1) cs

/-- The number that a decimal text denotes, as digits and a power of ten. -/
structure Decimal where
  digits : Nat
  exponent : Int
  deriving DecidableEq, Repr

/-- Reads what may stand after the digits of a decimal: nothing, or a power of ten. -/
def readExponent (cs : List Char) : Option Int :=
  match cs with
  | [] => some 0
  | c :: r =>
    if c = 'e' || c = 'E' then
      match r with
      | '-' :: r => (natural? 10 r).map fun n => -Int.ofNat n
      | '+' :: r => (natural? 10 r).map Int.ofNat
      | r => (natural? 10 r).map Int.ofNat
    else none

/-- Reads a decimal without a sign: digits with or without a point among them, of which there is at
least one, and a power of ten or none. -/
def readDecimal (cs : List Char) : Option Decimal :=
  let whole := cs.takeWhile Char.isDigit
  let (fraction, rest) := match cs.dropWhile Char.isDigit with
    | '.' :: r => (r.takeWhile Char.isDigit, r.dropWhile Char.isDigit)
    | r => ([], r)
  match natural? 10 (whole ++ fraction), readExponent rest with
  | some n, some e => some ⟨n, e - fraction.length⟩
  | _, _ => none

/-- From this number on, decimals have no finite binary64 near them: it lies halfway between the
largest one and the power of two above it. -/
def binary64Limit : Nat := Nat.pow 2 1024 - Nat.pow 2 970

/-- Whether a decimal is close to a finite binary64. The count of its digits settles all but those
near the limit, so no large power is taken. -/
def Decimal.isFinite (d : Decimal) : Bool :=
  let places : Int := (Nat.toDigits 10 d.digits).length + d.exponent
  -- The number is below `10 ^ places` and, unless it is zero, at least a tenth of it.
  if d.digits = 0 || places ≤ 308 then true
  else if places > 310 then false
  else if d.exponent < 0 then d.digits < binary64Limit * Nat.pow 10 d.exponent.natAbs
  else d.digits * Nat.pow 10 d.exponent.natAbs < binary64Limit

def isFiniteFloat (cs : List Char) : Bool :=
  let finite (r : List Char) : Bool :=
    match readDecimal r with
    | some d => d.isFinite
    | none => false
  match cs with
  | '-' :: r => finite r
  | '+' :: r => finite r
  | _ => finite cs

/-- The texts that read as nothing or as a truth value. -/
def reservedTexts : List String :=
  ["null", "Null", "NULL", "~", "true", "True", "TRUE", "false", "False", "FALSE"]

/-- The texts that read as an infinity, with or without a sign, and those that read as no number. -/
def specialFloats : List String :=
  [".inf", ".Inf", ".INF", "+.inf", "+.Inf", "+.INF", "-.inf", "-.Inf", "-.INF",
    ".nan", ".NaN", ".NAN"]

/-- Whether a plain scalar of this text would read as something else than a text, or might. -/
def isAmbiguous (cs : List Char) : Bool :=
  let s := String.ofList cs
  cs.isEmpty || reservedTexts.contains s || specialFloats.contains s || isZeroPadded cs
    || isInteger cs || isFiniteFloat cs

end GrammarText.Yaml
