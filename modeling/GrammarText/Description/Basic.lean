import GrammarText.Description.Rule
import GrammarText.Token.Basic

/-!
Descriptions of a grammar as data: a table that gives each rule its alternatives, and a start
rule. An alternative is a list of items, and an item asks for a token class, a reserved word or
another rule, once or more often.
-/

namespace GrammarText

inductive Matcher where
  | token (kind : Kind)
  | word (word : Word)
  | rule (rule : Rule)
  deriving DecidableEq, Repr

inductive Quantifier where
  | one
  /-- Once or not at all. -/
  | optional
  /-- Any number of times. -/
  | star
  /-- One or more times. -/
  | plus
  /-- Once, and without taking what is found. -/
  | peek
  deriving DecidableEq, Repr

structure Item where
  matcher : Matcher
  quantifier : Quantifier
  deriving DecidableEq, Repr

/-- The table of rules of a description, in the order in which they are defined. -/
abbrev RuleTable := List (Rule × List (List Item))

structure Description where
  start : Rule
  rules : RuleTable
  deriving DecidableEq, Repr

def RuleTable.alternatives? (t : RuleTable) (r : Rule) : Option (List (List Item)) :=
  t.lookup r

def RuleTable.defines (t : RuleTable) (r : Rule) : Bool := t.any fun (s, _) => s = r

/-- The rules that the items of the table ask for, in reading order. -/
def RuleTable.references (t : RuleTable) : List Rule :=
  t.flatMap fun (_, alternatives) => alternatives.flatMap fun items => items.filterMap fun i =>
    match i.matcher with
    | .rule r => some r
    | _ => none

namespace Item

def token (k : Kind) : Item := ⟨.token k, .one⟩

def word (w : Word) : Item := ⟨.word w, .one⟩

def rule (r : Rule) : Item := ⟨.rule r, .one⟩

def times (i : Item) (q : Quantifier) : Item := { i with quantifier := q }

end Item
end GrammarText
