import GrammarText.Tree.Basic

/-!
Visiting a tree: making a value of it from its leaves up. A visitor says what each part of a tree
becomes; the parts are visited from left to right, and a node after all its children, in any monad,
so that a visitor may keep state and may fail.
-/

namespace GrammarText

/-- What the parts of a tree become, given what their own parts have become. -/
structure Visitor (m : Type → Type) (α : Type) where
  token : Token → m α
  absent : m α
  repeated : List α → m α
  node : Node → List α → m α

namespace Tree

mutual

def visit {m : Type → Type} {α : Type} [Monad m] (v : Visitor m α) : Tree → m α
  | token t => v.token t
  | absent => v.absent
  | repeated items => do v.repeated (← visitAll v items)
  | node n children => do v.node n (← visitAll v children)

def visitAll {m : Type → Type} {α : Type} [Monad m] (v : Visitor m α) : List Tree → m (List α)
  | [] => pure []
  | t :: ts => do
    let a ← visit v t
    let as ← visitAll v ts
    pure (a :: as)

end

/-- Trees in two groups become what the groups become, one after the other. -/
theorem visitAll_append {m : Type → Type} {α : Type} [Monad m] [LawfulMonad m]
    (v : Visitor m α) (us vs : List Tree) :
    visitAll v (us ++ vs) = do
      let ps ← visitAll v us
      let qs ← visitAll v vs
      return ps ++ qs := by
  induction us with
  | nil => simp [visitAll]
  | cons u us ih => simp [visitAll, ih]

end Tree
end GrammarText
