import GrammarText.Grammar.Basic
import GrammarText.Text.Quote

/-!
Grammars as text: the notation for the parts of a production.
-/

namespace GrammarText

open Text (quoted)

/-- An argument of a call: the parameter after a sign for what is passed. -/
def Argument.display (param : String) : Argument → String
  | fixed true => "+" ++ param
  | fixed false => "~" ++ param
  | var _ => "?" ++ param

def Exclusion.display : Exclusion → String
  | terminal spelling => quoted spelling
  | nonterminal name => name
  | range low high => low ++ " through " ++ high

/-- The notation for a lookahead. A set of one token is written as a comparison. -/
def Lookahead.display : Lookahead → String
  | tokenSet tokens positive =>
    match tokens.toList with
    | [token] => (if positive then "== " else "!= ") ++ quoted token
    | all =>
      (if positive then "∈" else "<!") ++ " \x7b" ++ ", ".intercalate (all.map quoted) ++ "\x7d"
  | notNonterminal name => "<! " ++ name

def Symbol.display : Symbol → String
  | terminal spelling => quoted spelling
  | nonterminal name => name
  | apply name args =>
    name ++ "[" ++ ", ".intercalate (args.map fun (param, arg) => arg.display param) ++ "]"
  | optional inner => inner.display ++ "?"
  | exclusion base exclusions =>
    base.display ++ " but not " ++ (if exclusions.length > 1 then "one of " else "")
      ++ " or ".intercalate (exclusions.map Exclusion.display)
  | lookahead rule => "[lookahead " ++ rule.display ++ "]"
  | noLineTerminatorHere => "[no LineTerminator here]"

def Production.display : Production → String
  | symbols [] => "[empty]"
  | symbols ss => " ".intercalate (ss.map Symbol.display)
  | conditional param value body =>
    "[" ++ (if value then "+" else "~") ++ param ++ "] " ++ body.display
  | prose text => "> " ++ text

end GrammarText
