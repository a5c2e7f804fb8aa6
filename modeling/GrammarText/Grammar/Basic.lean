import Std.Data.ExtTreeMap
import Std.Data.ExtTreeSet

/-!
Grammars: what a text of the notation means.

A grammar maps names to definitions, a definition has alternative productions, and a production is
a list of symbols. Productions of a parameterized definition may depend on a parameter, and some
productions are given in prose. Names are kept in order, so equal grammars are equal values.
-/

namespace GrammarText

/-- A set of names, in ascending order. -/
abbrev Names := Std.ExtTreeSet String

/-- What a call passes for a parameter. -/
inductive Argument where
  | fixed (value : Bool)
  /-- The caller's own value of the parameter with a name. -/
  | var (name : String)
  deriving DecidableEq

/-- What an exclusion takes out of its base. -/
inductive Exclusion where
  | terminal (spelling : String)
  | nonterminal (name : String)
  /-- All characters between two, these included. -/
  | range (low high : String)
  deriving DecidableEq

/-- What may or may not come next. -/
inductive Lookahead where
  /-- The next token is one of some, or none of them. -/
  | tokenSet (tokens : Names) (positive : Bool)
  /-- What comes next is not derived from a nonterminal. -/
  | notNonterminal (name : String)
  deriving DecidableEq

inductive Symbol where
  /-- A literal token, without its quotes. -/
  | terminal (spelling : String)
  | nonterminal (name : String)
  /-- A parameterized nonterminal with its arguments, in the order of the call. -/
  | apply (name : String) (args : List (String × Argument))
  | optional (inner : Symbol)
  /-- The base wherever none of the exclusions matches. -/
  | exclusion (base : Symbol) (exclusions : List Exclusion)
  | lookahead (rule : Lookahead)
  | noLineTerminatorHere
  deriving DecidableEq

/-- One way to derive a nonterminal. -/
inductive Production where
  | symbols (symbols : List Symbol)
  /-- A production that is there only where a parameter has a value. -/
  | conditional (param : String) (value : Bool) (body : Production)
  /-- A production given in prose. -/
  | prose (text : String)
  deriving DecidableEq

inductive Definition where
  | alternatives (productions : List Production)
  /-- Productions that may depend on parameters. -/
  | parameterized (params : List String) (productions : List Production)
  deriving DecidableEq

structure Grammar where
  nonterminals : Std.ExtTreeMap String Definition
  goals : Names
  /-- Names that stand for a kind of token with many spellings. -/
  variableTerminals : Names
  deriving DecidableEq

namespace Definition

def productions : Definition → List Production
  | alternatives ps => ps
  | parameterized _ ps => ps

def params : Definition → List String
  | alternatives _ => []
  | parameterized names _ => names

end Definition

namespace Grammar

def empty : Grammar := ⟨∅, ∅, ∅⟩

def get? (g : Grammar) (name : String) : Option Definition := g.nonterminals[name]?

/-- Whether a name stands for a kind of token. -/
def isVariableTerminal (g : Grammar) (name : String) : Bool := g.variableTerminals.contains name

end Grammar
end GrammarText
