import GrammarText.Description.Rule
import GrammarText.Span
import GrammarText.Text.Position

/-!
Why a text is refused. Each stage has its own type of causes, and `Diagnostic` is any of them.
The wording is kept apart, in `GrammarText.Diagnostic.Report`.
-/

namespace GrammarText

/-- Why a text cannot be cut into tokens. -/
inductive LexicalError where
  /-- No token class has a lexeme here. -/
  | unexpectedCharacter (found : Char) (place : Text.Place) (span : Span)
  deriving DecidableEq, Repr

/-- Why tokens are no sentence of the notation, or a tree is none of its trees. -/
inductive ParseError where
  | unexpectedToken (expected : String) (span : Span)
  | unexpectedEnd (expected : String) (span : Span)
  /-- A node's children are not those that its rule asks for. -/
  | malformedTree (rule : Rule) (expected : String) (span : Span)
  /-- A rule of a description calls itself before it has taken a token. -/
  | leftRecursion (rule : Rule) (span : Span)
  deriving DecidableEq, Repr

/-- Why definitions that are well written do not make a grammar. -/
inductive GrammarError where
  | duplicateDefinition (name : String) (span first : Span)
  /-- A terminal's spelling is the name of a definition. -/
  | nameCollision (name : String) (span definition : Span)
  | duplicateArgument (name callee : String) (span : Span)
  | malformedTerminal (token : String) (span : Span)
  | unsupportedLookahead (sequence : String) (span : Span)
  /-- A guarded production in a definition that has no parameters. -/
  | invalidConditional (name param : String) (value : Bool) (span : Span)
  deriving DecidableEq, Repr

/-- Why a file gives no text. -/
inductive ReadFailure where
  | notFound
  | isDirectory
  | notDirectory
  /-- The bytes are not UTF-8. -/
  | invalidData
  deriving DecidableEq, Repr

/-- Why a source gives no grammar. -/
inductive Diagnostic where
  | lexical (e : LexicalError)
  | parse (e : ParseError)
  | grammar (e : GrammarError)
  | unreadable (path : String) (reason : ReadFailure)
  deriving DecidableEq, Repr

end GrammarText
