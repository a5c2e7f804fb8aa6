import GrammarText.Description.Builtin
import GrammarText.Text.Quote

/-!
Descriptions as text. A rule takes one line for each alternative; the first starts with the name
of the rule and `::=`, and the bars of the others stand under the second colon.
-/

namespace GrammarText

/-- How a matcher is written: capital letters for a token class, a name for a rule, and a reserved
word between double quotes. -/
def Matcher.render : Matcher → String
  | .token k => k.symbol
  | .word w => "\"" ++ w.spelling ++ "\""
  | .rule r => r.name

def Item.render (i : Item) : String :=
  match i.quantifier with
  | .one => i.matcher.render
  | .optional => i.matcher.render ++ "?"
  | .star => i.matcher.render ++ "*"
  | .plus => i.matcher.render ++ "+"
  | .peek => "&" ++ i.matcher.render

def renderItems (items : List Item) : String := " ".intercalate (items.map Item.render)

/-- The lines of a rule, each with its line feed. -/
def renderRule (r : Rule) (alternatives : List (List Item)) : String :=
  let indent := String.ofList (List.replicate (r.name.length + 2) ' ')
  match alternatives with
  | [] => ""
  | first :: more =>
    r.name ++ " ::= " ++ renderItems first ++ "\n"
      ++ String.join (more.map fun items => indent ++ "|  " ++ renderItems items ++ "\n")

def RuleTable.render (t : RuleTable) : String :=
  String.join (t.map fun (r, alternatives) => renderRule r alternatives)

/-- The text of the notation's own grammar, after an empty line. -/
def builtinText : String := "\n" ++ builtinRules.render

end GrammarText
