import GrammarText.Description.Rule
import GrammarText.Token.Basic

/-!
Concrete trees: what a list of tokens is read as. Every token that was taken is a leaf, and a node
says by which alternative of which rule its children belong together.
-/

namespace GrammarText

/-- The rule and alternative behind a node, alternatives counted from zero, and the bytes that the
node covers. -/
structure Node where
  rule : Rule
  alternative : Nat
  start : Nat
  stop : Nat
  deriving DecidableEq, Repr, Inhabited

def Node.span (n : Node) : Span := ⟨n.start, n.stop⟩

inductive Tree where
  | token (token : Token)
  /-- An optional item that was not found. -/
  | absent
  /-- What was found for an item that is asked for any number of times. -/
  | repeated (items : List Tree)
  | node (node : Node) (children : List Tree)
  deriving Repr, Inhabited

namespace Tree

mutual

def tokens : Tree → List Token
  | token t => [t]
  | absent => []
  | repeated items => tokensOfAll items
  | node _ children => tokensOfAll children

def tokensOfAll : List Tree → List Token
  | [] => []
  | t :: ts => t.tokens ++ tokensOfAll ts

end

end Tree
end GrammarText
