import GrammarText.Description.Basic
import GrammarText.Text.Blank
import GrammarText.Text.Quote
import GrammarText.Text.Split

/-!
Reading a description. A line `name ::= items` opens a rule with its first alternative, a line
`| items` adds an alternative to the rule opened last, and blank lines are passed over. The first
rule is the start rule, and every rule that an item asks for must be defined somewhere.
-/

namespace GrammarText

/-- Why a text is no description. Lines count from one, blank lines included. -/
inductive DescriptionError where
  /-- The line neither opens a rule nor continues one. -/
  | malformed (line : Nat) (text : String)
  | unknownRule (line : Nat) (name : String)
  | unknownToken (line : Nat) (name : String)
  | unknownWord (line : Nat) (word : String)
  | duplicateRule (name : String)
  | missingRule (name : String)
  | empty
  deriving DecidableEq, Repr

open Text (quoted) in
def DescriptionError.message : DescriptionError → String
  | malformed line text =>
    "line " ++ toString line ++ ": expected " ++ quoted "name ::= ..." ++ " or "
      ++ quoted "| ..." ++ ", found " ++ quoted text
  | unknownRule line name => "line " ++ toString line ++ ": unknown rule " ++ quoted name
  | unknownToken line name => "line " ++ toString line ++ ": unknown token kind " ++ quoted name
  | unknownWord line word =>
    "line " ++ toString line ++ ": " ++ quoted word ++ " is not a reserved word"
  | duplicateRule name => "rule " ++ quoted name ++ " is defined more than once"
  | missingRule name => "rule " ++ quoted name ++ " is referenced but never defined"
  | empty => "the description defines no rules"

/-- The text between double quotes. -/
def unquoteWord? (cs : List Char) : Option (List Char) :=
  Text.dropStart? ['"'] cs >>= Text.dropEnd? ['"']

/-- Reads a matcher: a reserved word in double quotes, a token class in capital letters, or the
name of a rule. -/
def Matcher.read (line : Nat) (cs : List Char) : Except DescriptionError Matcher :=
  match unquoteWord? cs with
  | some quotedWord =>
    let spelling := String.ofList quotedWord
    match Word.ofSpelling? spelling with
    | some w => .ok (.word w)
    | none => .error (.unknownWord line spelling)
  | none =>
    let name := String.ofList cs
    if cs.all Char.isUpper then
      match Kind.ofSymbol? name with
      | some k => .ok (.token k)
      | none => .error (.unknownToken line name)
    else
      match Rule.ofName? name with
      | some r => .ok (.rule r)
      | none => .error (.unknownRule line name)

def Quantifier.ofMark? : Char → Option Quantifier
  | '?' => some .optional
  | '*' => some .star
  | '+' => some .plus
  | _ => none

/-- Cuts the mark for how often off the end of an item. A mark that is the whole item is none. -/
def splitMark (cs : List Char) : List Char × Quantifier :=
  match cs.reverse with
  | mark :: c :: body =>
    match Quantifier.ofMark? mark with
    | some q => ((c :: body).reverse, q)
    | none => (cs, .one)
  | _ => (cs, .one)

/-- Reads an item. An ampersand before it makes it a peek, whatever mark stands after it. -/
def Item.read (line : Nat) (cs : List Char) : Except DescriptionError Item :=
  match cs with
  | '&' :: cs => do return ⟨← Matcher.read line (splitMark cs).1, .peek⟩
  | cs => do return ⟨← Matcher.read line (splitMark cs).1, (splitMark cs).2⟩

/-- Reads the items of an alternative, which blanks keep apart. -/
def readItems (line : Nat) (cs : List Char) : Except DescriptionError (List Item) :=
  (Text.words cs).mapM (Item.read line)

/-- Reads a line onto the table read so far, in which the rule opened last comes first. -/
def RuleTable.readLine (opened : RuleTable) (line : Nat) (cs : List Char) :
    Except DescriptionError RuleTable := do
  let cs := Text.trim cs
  if cs.isEmpty then
    return opened
  else
    match Text.splitFirst? [':', ':', '='] cs with
    | some (name, body) =>
      let name := String.ofList (Text.trim name)
      match Rule.ofName? name with
      | none => throw (.unknownRule line name)
      | some r =>
        if opened.defines r then throw (.duplicateRule name)
        return (r, [← readItems line body]) :: opened
    | none =>
      match cs, opened with
      -- The bar of an alternative continues the rule opened last, if there is one.
      | '|' :: body, (r, alternatives) :: others =>
        return (r, alternatives ++ [← readItems line body]) :: others
      | _, _ => throw (.malformed line (String.ofList cs))

def RuleTable.readLines (opened : RuleTable) (line : Nat) :
    List (List Char) → Except DescriptionError RuleTable
  | [] => .ok opened
  | cs :: lines => do
    let opened ← opened.readLine line cs
    readLines opened (line + 1) lines

def Description.read (text : String) : Except DescriptionError Description := do
  let rules : RuleTable := (← RuleTable.readLines [] 1 (Text.lines text.toList)).reverse
  match rules.references.find? fun r => !rules.defines r with
  | some r => throw (.missingRule r.name)
  | none =>
    match rules with
    | [] => throw .empty
    | (start, _) :: _ => return ⟨start, rules⟩

end GrammarText
