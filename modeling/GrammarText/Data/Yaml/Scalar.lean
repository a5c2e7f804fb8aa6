import GrammarText.Data.Yaml.Resolve
import GrammarText.Text.Position

/-!
YAML scalars: the four ways of writing a text, and which of them is chosen.

A text with line feeds is written as a literal block, one that a plain scalar would not give back
between single quotes, and any other as it is. Where the characters of the text rule that way out,
single quotes take the place of plain, and double quotes that of single quotes and blocks.
-/

namespace GrammarText.Yaml

open Numeral (hexDigits)

inductive Style where
  | plain
  | single
  | double
  | literal
  deriving DecidableEq, Repr

def isBreak (c : Char) : Bool :=
  c = '\n' || c = '\r' || c = '\x85' || c = '\u2028' || c = '\u2029'

/-- A blank within a line, or the end of a line. -/
def isGap (c : Char) : Bool := c = ' ' || c = '\t' || isBreak c || c = '\x00'

def isPrintable (c : Char) : Bool :=
  let n := c.toNat
  n = 0x0A || (0x20 ≤ n && n ≤ 0x7E) || (0xA0 ≤ n && n ≤ 0xFFFD && n ≠ 0xFEFF) || 0x10000 ≤ n

/-- A character with which no plain scalar starts. -/
def isIndicator (c : Char) : Bool := "#,[]\x7b\x7d&*!|>\x27\"%@\x60".toList.contains c

/-- Whether a gap or the end of the text comes next. -/
def gapNext : List Char → Bool
  | [] => true
  | c :: _ => isGap c

/-- Whether a text has a colon before a gap, or a number sign after one, from here on. -/
def hasInnerIndicator (afterGap : Bool) : List Char → Bool
  | [] => false
  | c :: cs =>
    (c = ':' && gapNext cs) || (c = '#' && afterGap) || hasInnerIndicator (isGap c) cs

def looksLikeStructure (cs : List Char) : Bool :=
  match cs with
  | [] => false
  | c :: r =>
    isIndicator c || ((c = '?' || c = ':' || c = '-') && gapNext r)
      || (Text.dropStart? "---".toList cs).isSome || (Text.dropStart? "...".toList cs).isSome
      || hasInnerIndicator (isGap c) r

def hasPair (p q : Char → Bool) : List Char → Bool
  | a :: b :: cs => (p a && q b) || hasPair p q (b :: cs)
  | _ => false

def firstIs (p : Char → Bool) (cs : List Char) : Bool := (cs.head?.map p).getD false

def lastIs (p : Char → Bool) (cs : List Char) : Bool := (cs.getLast?.map p).getD false

def isSpace (c : Char) : Bool := c = ' '

/-- Whether no block and no single quotes keep a text as it is: a space before a line end is lost,
and some characters are not to be seen. -/
def needsEscapes (cs : List Char) : Bool :=
  hasPair isSpace isBreak cs || cs.any fun c => !isPrintable c

def allowsPlain (cs : List Char) : Bool :=
  !(firstIs isSpace cs || lastIs isSpace cs || cs.any isBreak || looksLikeStructure cs
    || needsEscapes cs)

def allowsSingle (cs : List Char) : Bool := !(hasPair isBreak isSpace cs || needsEscapes cs)

def allowsLiteral (cs : List Char) : Bool := !(lastIs isSpace cs || needsEscapes cs)

def Style.of (cs : List Char) : Style :=
  if cs.contains '\n' then
    if allowsLiteral cs then .literal else .double
  else if !isAmbiguous cs && allowsPlain cs then .plain
  else if allowsSingle cs then .single
  else .double

/-- The characters that have an escape of one letter, with that letter. -/
def escapeLetters : List (Char × Char) :=
  [('\x00', '0'), ('\x07', 'a'), ('\x08', 'b'), ('\t', 't'), ('\n', 'n'), ('\x0b', 'v'),
    ('\x0c', 'f'), ('\r', 'r'), ('\x1b', 'e'), ('"', '"'), ('\\', '\\'), ('\x85', 'N'),
    ('\u2028', 'L'), ('\u2029', 'P')]

def escape (c : Char) : List Char :=
  match escapeLetters.lookup c with
  | some letter => ['\\', letter]
  | none =>
    if isPrintable c then [c]
    else if c.toNat ≤ 0xFF then '\\' :: 'x' :: hexDigits .upper c.toNat 2
    else '\\' :: 'u' :: hexDigits .upper c.toNat 4

def apostrophe : Char := '\x27'

/-- How a character is written between single quotes: a quote is written twice. -/
def doubleQuote (c : Char) : List Char := if c = apostrophe then [apostrophe, apostrophe] else [c]

def indentation (n : Nat) : List Char := List.replicate n ' '

/-- A text whose lines, from the second on, are indented. Empty lines are not. -/
def indentLines (n : Nat) (afterBreak : Bool) : List Char → List Char
  | [] => []
  | c :: cs =>
    (if afterBreak && !isBreak c then indentation n else [])
      ++ c :: indentLines n (isBreak c) cs

/-- What stands after the bar of a block: the indentation where the text starts with a gap, and
how the line ends at its end are read. -/
def blockHints (cs : List Char) : List Char :=
  let indent := if firstIs (fun c => isSpace c || isBreak c) cs then ['2'] else []
  let chomp := match cs.reverse with
    | [] => ['-']
    | [c] => if isBreak c then ['+'] else ['-']
    | c :: d :: _ => if !isBreak c then ['-'] else if isBreak d then ['+'] else []
  indent ++ chomp

/-- A text as a scalar, to the end of its last line. Its further lines have an indentation. -/
def scalarLine (n : Nat) (cs : List Char) : List Char :=
  match Style.of cs with
  | .plain => cs ++ ['\n']
  | .single => apostrophe :: (indentLines n false (cs.flatMap doubleQuote)
      ++ (if lastIs isBreak cs then indentation n else []) ++ [apostrophe, '\n'])
  | .double => '"' :: (cs.flatMap escape ++ ['"', '\n'])
  -- A block that ends in a line end needs no other.
  | .literal => '|' :: (blockHints cs ++ '\n' :: indentLines n true cs
      ++ if lastIs isBreak cs then [] else ['\n'])

def inlineScalar (cs : List Char) : List Char := (scalarLine 0 cs).dropLast

end GrammarText.Yaml
