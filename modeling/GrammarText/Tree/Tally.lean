import GrammarText.Diagnostic.Basic
import GrammarText.Tree.Visitor

/-!
Tallies: a visitor that counts the tokens of a tree and writes down each visit that it is paid, in
their order.
-/

namespace GrammarText

/-- A visit to a part of a tree, with the counts of its own parts. -/
inductive Visit where
  | token (text : String)
  | absent
  | repeated (counts : List Nat)
  | node (rule : Rule) (alternative : Nat) (counts : List Nat)
  deriving DecidableEq, Repr

/-- Work that writes down its visits and may fail; the visits before the failure are kept. -/
abbrev Tallying := ExceptT ParseError (StateM (List Visit))

def Tallying.note (v : Visit) : Tallying Unit := modify (· ++ [v])

def total (counts : List Nat) : Nat := counts.foldr Nat.add 0

/-- Counts the tokens of a tree. A node for which `refuse` has an error fails with it, after its
visit was written down. -/
def Visitor.tally (refuse : Node → Option ParseError) : Visitor Tallying Nat where
  token t := do
    Tallying.note (.token t.text)
    return 1
  absent := do
    Tallying.note .absent
    return 0
  repeated counts := do
    Tallying.note (.repeated counts)
    return total counts
  node n counts := do
    Tallying.note (.node n.rule n.alternative counts)
    match refuse n with
    | some e => throw e
    | none => return total counts

def Tree.tally (refuse : Node → Option ParseError) (t : Tree) :
    Except ParseError Nat × List Visit :=
  (t.visit (.tally refuse)).run.run []

end GrammarText
