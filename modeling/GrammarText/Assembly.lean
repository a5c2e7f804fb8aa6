import GrammarText.Diagnostic.Basic
import GrammarText.Grammar.Declaration
import GrammarText.Grammar.Terminals
import GrammarText.Text.Position

/-!
Assembly: the grammar that declarations make together.

Declarations are added in the order of the text. A plain declaration with a single colon is stored,
once for a name; one with parameters is always stored, in the place of what was stored before it.
More than one colon make a name a variable terminal. At the end, no terminal of a plain
declaration may be spelled like a name that is stored.
-/

namespace GrammarText

/-- What the declarations added so far make. -/
structure Assembly where
  nonterminals : Std.ExtTreeMap String Definition
  variableTerminals : Names
  /-- Where each stored name was defined last. -/
  definedAt : Std.ExtTreeMap String Span
  /-- The terminals of plain declarations, each with the place of its first use. -/
  usedAt : Std.ExtTreeMap String Span
  deriving DecidableEq

namespace Declaration

def isVariable (d : Declaration) : Bool := Text.byteLength d.separator.toList > 1

def isParameterized (d : Declaration) : Bool :=
  match d.definition with
  | .parameterized .. => true
  | .alternatives _ => false

/-- Where a terminal of the declaration is used first, or else where its name stands. -/
def firstUse (d : Declaration) (spelling : String) : Span :=
  (d.terminalSpans.lookup spelling).getD d.nameSpan

/-- Where one of the productions stands, or else the whole declaration. -/
def productionSpan (d : Declaration) (index : Nat) : Span :=
  d.productionSpans[index]?.getD d.span

/-- The error for the first conditional production, where the first production of some has a given
index. -/
def conditionalError? (d : Declaration) (index : Nat) : List Production → Option GrammarError
  | [] => none
  | .conditional param value _ :: _ =>
    some (.invalidConditional d.name param value (d.productionSpan index))
  | _ :: ps => conditionalError? d (index + 1) ps

end Declaration

namespace Assembly

def empty : Assembly := ⟨∅, ∅, ∅, ∅⟩

def store (a : Assembly) (d : Declaration) : Assembly :=
  { a with
    nonterminals := a.nonterminals.insert d.name d.definition
    definedAt := a.definedAt.insert d.name d.nameSpan }

/-- Notes the use of terminals of a declaration, if they were not used before. -/
def use (a : Assembly) (d : Declaration) (spellings : List String) : Assembly :=
  { a with
    usedAt := spellings.foldl
      (fun used s => if s ∈ used then used else used.insert s (d.firstUse s)) a.usedAt }

def noteVariable (a : Assembly) (d : Declaration) : Assembly :=
  if d.isVariable then { a with variableTerminals := a.variableTerminals.insert d.name } else a

def add (a : Assembly) (d : Declaration) : Except GrammarError Assembly :=
  let a := a.noteVariable d
  match d.definition with
  -- Neither an earlier declaration nor the terminals of this one matter here.
  | .parameterized .. => .ok (a.store d)
  | .alternatives productions =>
    match d.conditionalError? 0 productions with
    | some e => .error e
    | none =>
      let a := a.use d (productions.flatMap Production.terminals)
      -- A variable terminal is not stored, but its terminals were noted above.
      if d.separator ≠ ":" then .ok a
      else
        match a.definedAt[d.name]? with
        | some first => .error (.duplicateDefinition d.name d.nameSpan first)
        | none => .ok (a.store d)

def addAll (a : Assembly) : List Declaration → Except GrammarError Assembly
  | [] => .ok a
  | d :: ds => do addAll (← a.add d) ds

/-- The error for the first terminal, in ascending order, that is spelled like a stored name. -/
def collision? (a : Assembly) : Option GrammarError :=
  a.usedAt.toList.findSome? fun (name, used) =>
    if name ∈ a.nonterminals then
      some (.nameCollision name used (a.definedAt[name]?.getD (.point 0)))
    else none

def grammar (a : Assembly) (goals : Names) : Grammar :=
  ⟨a.nonterminals, goals, a.variableTerminals⟩

end Assembly

/-- The grammar of declarations, with its goals. The goals need not be defined. -/
def assemble (ds : List Declaration) (goals : Names) : Except GrammarError Grammar := do
  let a ← Assembly.empty.addAll ds
  match a.collision? with
  | some e => throw e
  | none => return a.grammar goals

end GrammarText
