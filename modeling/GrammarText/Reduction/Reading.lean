import GrammarText.Diagnostic.Basic
import GrammarText.Reduction.Phrase
import GrammarText.Tree.Basic

/-!
Reading the children of a node: they are taken one by one from left to right, each as the kind of
phrase that the rule asks for. A child that is missing counts as absent.
-/

namespace GrammarText

/-- The places met since the last declaration: of its terminals and of its production lines. -/
structure Gathered where
  terminals : List (String × Span)
  productions : List Span
  deriving DecidableEq

def Gathered.none : Gathered := ⟨[], []⟩

/-- Work on a tree. What was gathered before a failure is kept. -/
abbrev Reducing := ExceptT Diagnostic (StateM Gathered)

/-- Work on the children of a node that are still to be taken. -/
abbrev Reading := StateT (List Phrase) Reducing

namespace Phrase

def token? : Phrase → Option Token
  | token t => some t
  | _ => none

def repeated? : Phrase → Option (List Phrase)
  | repeated items => some items
  | _ => none

def declaration? : Phrase → Option Declaration
  | declaration d => some d
  | _ => none

def head? : Phrase → Option Head
  | head h => some h
  | _ => none

def name? : Phrase → Option String
  | name s => some s
  | _ => none

def terminals? : Phrase → Option (List String)
  | terminals ss => some ss
  | _ => none

def terminal? : Phrase → Option (String × Span)
  | terminal spelling span => some (spelling, span)
  | _ => none

def production? : Phrase → Option Production
  | production p => some p
  | _ => none

def symbols? : Phrase → Option (List Symbol)
  | symbols ss => some ss
  | _ => none

def symbol? : Phrase → Option Symbol
  | symbol s => some s
  | _ => none

def arg? : Phrase → Option PassedArgument
  | arg a => some a
  | _ => none

def sigil? : Phrase → Option Sigil
  | sigil s => some s
  | _ => none

def exclusion? : Phrase → Option Exclusion
  | exclusion e => some e
  | _ => none

def lookahead? : Phrase → Option Lookahead
  | lookahead l => some l
  | _ => none

def entry? : Phrase → Option LookaheadEntry
  | entry e => some e
  | _ => none

def element? : Phrase → Option LookaheadElement
  | element e => some e
  | _ => none

end Phrase

def Node.malformed (n : Node) (expected : String) : Diagnostic :=
  .parse (.malformedTree n.rule expected n.span)

namespace Reading

def next : Reading Phrase := do
  match ← get with
  | [] => return .absent
  | p :: ps =>
    set ps
    return p

/-- The next child as one kind of phrase, or the error that names this kind. -/
def take {α : Type} (n : Node) (expected : String) (pick : Phrase → Option α) : Reading α := do
  match pick (← next) with
  | some a => return a
  | none => throw (n.malformed expected)

def pickAll {α : Type} (n : Node) (expected : String) (pick : Phrase → Option α) :
    List Phrase → Reading (List α)
  | [] => return []
  | p :: ps =>
    match pick p with
    | some a => return a :: (← pickAll n expected pick ps)
    | none => throw (n.malformed expected)

def token (n : Node) : Reading Token := take n "a token" Phrase.token?

def tokenText (n : Node) : Reading String := return (← token n).text

/-- Passes over tokens that say nothing but that they are there. -/
def skip (n : Node) : Nat → Reading Unit
  | 0 => return ()
  | count + 1 => do
    let _ ← token n
    skip n count

def repeated (n : Node) : Reading (List Phrase) := take n "a repetition" Phrase.repeated?

def repeatedOf {α : Type} (n : Node) (expected : String) (pick : Phrase → Option α) :
    Reading (List α) := do
  pickAll n expected pick (← repeated n)

def name (n : Node) : Reading String := take n "a name" Phrase.name?

def terminal (n : Node) : Reading (String × Span) := take n "a terminal" Phrase.terminal?

def symbol (n : Node) : Reading Symbol := take n "a symbol" Phrase.symbol?

def arg (n : Node) : Reading PassedArgument := take n "an argument" Phrase.arg?

def sigil (n : Node) : Reading Sigil := take n "a sigil" Phrase.sigil?

def exclusion (n : Node) : Reading Exclusion := take n "an exclusion" Phrase.exclusion?

def entry (n : Node) : Reading LookaheadEntry := take n "a lookahead sequence" Phrase.entry?

def gatherTerminal (spelling : String) (span : Span) : Reading Unit :=
  modifyThe Gathered fun g => { g with terminals := g.terminals ++ [(spelling, span)] }

def gatherProduction (span : Span) : Reading Unit :=
  modifyThe Gathered fun g => { g with productions := g.productions ++ [span] }

end Reading
end GrammarText
