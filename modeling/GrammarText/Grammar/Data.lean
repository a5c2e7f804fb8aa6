import GrammarText.Data.Basic
import GrammarText.Grammar.Basic

/-!
Grammars as plain data, as they are written to files. Each shape of a value is a record whose
first field, `kind`, names the shape; the other fields follow in a fixed order.
-/

namespace GrammarText

/-- A set of names as a list in ascending order. -/
def Names.toData (names : Names) : Data := .list (names.toList.map .text)

def Argument.toData : Argument → Data
  | fixed value => .tagged "fixed" [("value", .bool value)]
  | var name => .tagged "var" [("value", .text name)]

def Exclusion.toData : Exclusion → Data
  | terminal spelling => .tagged "terminal" [("spelling", .text spelling)]
  | nonterminal name => .tagged "nonterminal" [("name", .text name)]
  | range low high => .tagged "range" [("low", .text low), ("high", .text high)]

def Lookahead.toData : Lookahead → Data
  | tokenSet tokens positive =>
    .tagged "token_set" [("tokens", tokens.toData), ("positive", .bool positive)]
  | notNonterminal name => .tagged "not_nonterminal" [("name", .text name)]

def Symbol.toData : Symbol → Data
  | terminal spelling => .tagged "terminal" [("spelling", .text spelling)]
  | nonterminal name => .tagged "nonterminal" [("name", .text name)]
  | apply name args => .tagged "apply" [("name", .text name),
      ("args", .list (args.map fun (param, arg) => .list [.text param, arg.toData]))]
  | optional inner => .tagged "optional" [("inner", inner.toData)]
  | exclusion base exclusions => .tagged "exclusion" [("base", base.toData),
      ("exclusions", .list (exclusions.map Exclusion.toData))]
  | lookahead rule => .tagged "lookahead" [("rule", rule.toData)]
  | noLineTerminatorHere => .tagged "no_line_terminator_here" []

def Production.toData : Production → Data
  | symbols ss => .tagged "symbols" [("symbols", .list (ss.map Symbol.toData))]
  | conditional param value body => .tagged "conditional" [("param", .text param),
      ("value", .bool value), ("rhs", body.toData)]
  | prose text => .tagged "prose" [("text", .text text)]

def Definition.toData : Definition → Data
  | alternatives ps => .tagged "alternatives" [("rhs", .list (ps.map Production.toData))]
  | parameterized params ps => .tagged "parameterized" [("params", .list (params.map .text)),
      ("rhs", .list (ps.map Production.toData))]

def Grammar.toData (g : Grammar) : Data :=
  .record [
    ("nonterminals", .record (g.nonterminals.toList.map fun (name, d) => (name, d.toData))),
    ("goals", g.goals.toData),
    ("variable_terminals", g.variableTerminals.toData)]

end GrammarText
