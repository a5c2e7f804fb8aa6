import GrammarText.Grammar.Declaration
import GrammarText.Text.Quote
import GrammarText.Token.Basic

/-!
Phrases: what the parts of a tree mean, up to the declarations of a whole text.
-/

namespace GrammarText

/-- What stands before a declaration's colons. -/
structure Head where
  name : String
  /-- The parameters, if the name carries a list of them. -/
  params : Option (List String)
  span : Span
  deriving DecidableEq

inductive Sigil where
  | fixed (value : Bool)
  /-- The caller's own value is passed on. -/
  | pass
  deriving DecidableEq

/-- An argument as it stands in a call. -/
structure PassedArgument where
  name : String
  value : Argument
  span : Span
  deriving DecidableEq

inductive LookaheadElement where
  | terminal (spelling : String)
  | noLineTerminatorHere
  deriving DecidableEq

structure LookaheadEntry where
  elements : List LookaheadElement
  span : Span
  deriving DecidableEq

namespace LookaheadEntry

def single? (e : LookaheadEntry) : Option String :=
  match e.elements with
  | [.terminal spelling] => some spelling
  | _ => none

def display (e : LookaheadEntry) : String :=
  " ".intercalate (e.elements.map fun
    | .terminal spelling => Text.quoted spelling
    | .noLineTerminatorHere => "[no LineTerminator here]")

end LookaheadEntry

/-- The meaning of a part of a tree. -/
inductive Phrase where
  | token (token : Token)
  | absent
  | repeated (items : List Phrase)
  | declarations (declarations : List Declaration)
  /-- A declaration, or none for a blank line. -/
  | block (declaration : Option Declaration)
  | declaration (declaration : Declaration)
  | blockEnd
  | lineEnd
  | head (head : Head)
  | name (name : String)
  | terminals (spellings : List String)
  | terminal (spelling : String) (span : Span)
  | production (production : Production)
  | guard (param : String) (value : Bool)
  | symbols (symbols : List Symbol)
  | symbol (symbol : Symbol)
  | arg (arg : PassedArgument)
  | sigil (sigil : Sigil)
  | exclusion (exclusion : Exclusion)
  | lookahead (lookahead : Lookahead)
  | entry (entry : LookaheadEntry)
  | element (element : LookaheadElement)
  deriving Inhabited

end GrammarText
