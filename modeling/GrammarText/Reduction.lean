import GrammarText.Reduction.Definitions
import GrammarText.Reduction.Symbols
import GrammarText.Tree.Visitor

/-!
Reduction: what a tree of the notation means. Each node is reduced by the function of its rule,
after all its children. A text has a list of declarations as its meaning.
-/

namespace GrammarText

namespace Reduction

def node (n : Node) : Reading Phrase :=
  match n.rule with
  | .grammar => grammar n
  | .block => block n
  | .definition => definition n
  | .blockEnd => return .blockEnd
  | .head => head n
  | .paramTail => paramTail n
  | .param => param n
  | .lineEnd => return .lineEnd
  | .terminalLine => terminalLine n
  | .terminal => terminal n
  | .production => production n
  | .guard => guard n
  | .body => body n
  | .symbol => symbol n
  | .noLineTerminatorHere => noLineTerminatorHere n
  | .nonterminal => nonterminal n
  | .argTail => argTail n
  | .arg => arg n
  | .sigil => sigil n
  | .fixedSigil => fixedSigil n
  | .exclusion => exclusion n
  | .exclusionTail => exclusionTail n
  | .lookahead => lookahead n
  | .lookaheadEntryTail => lookaheadEntryTail n
  | .lookaheadEntry => lookaheadEntry n
  | .lookaheadElement => lookaheadElement n

def visitor : Visitor Reducing Phrase where
  token t := pure (.token t)
  absent := pure .absent
  repeated items := pure (.repeated items)
  node n children := (node n).run' children

end Reduction

/-- The meaning of a tree, and the places gathered after its last declaration. Places gathered
before it count as its own. -/
def Tree.reduce (t : Tree) (gathered : Gathered) : Except Diagnostic Phrase × Gathered :=
  (t.visit Reduction.visitor).run.run gathered

def Tree.declarations (t : Tree) : Except Diagnostic (List Declaration) :=
  match (t.reduce .none).1 with
  | .ok (.declarations ds) => .ok ds
  | .ok _ => .error (.parse (.malformedTree .grammar "a list of definitions" (.point 0)))
  | .error e => .error e

end GrammarText
