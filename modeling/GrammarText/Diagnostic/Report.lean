import GrammarText.Diagnostic.Basic
import GrammarText.Text.Quote

/-!
What a diagnostic tells a reader: a message, a code, a hint, and labels that point into the text.
-/

namespace GrammarText

open Text (quoted)

/-- The sign of a guard: plus where the parameter must be set, a tilde where it must not. -/
def sigilText (value : Bool) : String := if value then "+" else "~"

/-- Everything that is shown of a diagnostic. -/
structure Report where
  message : String
  code : String
  help : Option String
  labels : List (String × Span)
  deriving DecidableEq, Repr

def LexicalError.report : LexicalError → Report
  | .unexpectedCharacter found place span =>
    { message := "No token matches " ++ quoted (String.singleton found) ++ " at line "
        ++ toString place.line ++ ", column " ++ toString place.column
      code := "lexer::unexpected_character"
      help := some ("Terminals are quoted with backticks, "
        ++ "nonterminals start with an uppercase letter.")
      labels := [("unrecognized input starts here", span)] }

def ParseError.report : ParseError → Report
  | .unexpectedToken expected span =>
    { message := "Unexpected token"
      code := "parser::unexpected_token"
      help := some "The notation does not allow this token in this position."
      labels := [("Expected " ++ expected ++ ", but found this", span)] }
  | .unexpectedEnd expected span =>
    { message := "Unexpected end of file"
      code := "parser::unexpected_eof"
      help := some "The grammar ended in the middle of a definition."
      labels := [("Expected " ++ expected ++ " here", span)] }
  | .malformedTree rule expected span =>
    { message := "Syntax tree for " ++ quoted rule.name ++ " has an unexpected shape: expected "
        ++ expected
      code := "parser::malformed_tree"
      help := some "The built-in meta-grammar and the reducer disagree. This is a bug."
      labels := [("while reducing this", span)] }
  | .leftRecursion rule span =>
    { message := "Rule " ++ quoted rule.name ++ " calls itself without taking a token"
      code := "parser::left_recursion"
      help := some "A rule must take a token before it calls itself."
      labels := [("while parsing this", span)] }

def GrammarError.report : GrammarError → Report
  | .duplicateDefinition name span first =>
    { message := "Nonterminal " ++ quoted name ++ " is defined more than once"
      code := "grammar::duplicate_definition"
      help := some ("Merge the productions into a single definition of " ++ quoted name ++ ".")
      labels := [("redefined here", span), ("first defined here", first)] }
  | .nameCollision name span definition =>
    { message := "Grammar contains both a terminal " ++ quoted name ++ " and a nonterminal "
        ++ name
      code := "grammar::name_collision"
      help := some "Rename the nonterminal or the terminal so the two can be told apart."
      labels := [("used as a terminal here", span),
        ("defined as a nonterminal here", definition)] }
  | .duplicateArgument name callee span =>
    { message := "Parameter " ++ quoted name ++ " is passed more than once to " ++ quoted callee
      code := "grammar::duplicate_argument"
      help := none
      labels := [("repeated here", span)] }
  | .malformedTerminal token span =>
    { message := "Malformed terminal " ++ token
      code := "grammar::malformed_terminal"
      help := some "Terminals must be wrapped in a matching pair of backticks."
      labels := [("here", span)] }
  | .unsupportedLookahead sequence span =>
    { message := "Unsupported lookahead: more than one token in " ++ sequence
      code := "grammar::unsupported_lookahead"
      help := some "Negative lookahead sets may only list single terminals."
      labels := [("this element is not a single terminal", span)] }
  | .invalidConditional name param value span =>
    { message := "Conditional production " ++ quoted ("[" ++ sigilText value ++ param ++ "]")
        ++ " in non-parameterized nonterminal " ++ quoted name
      code := "grammar::invalid_conditional_context"
      help := some ("Declare " ++ quoted param ++ " as a parameter, e.g. "
        ++ quoted (name ++ "[" ++ param ++ "]") ++ ".")
      labels := [("guarded production", span)] }

def Diagnostic.report : Diagnostic → Report
  | .lexical e => e.report
  | .parse e => e.report
  | .grammar e => e.report
  | .unreadable path _ =>
    { message := "Failed to read grammar file " ++ quoted path
      code := "emug::io"
      help := some "Check that the file exists and is readable."
      labels := [] }

end GrammarText
