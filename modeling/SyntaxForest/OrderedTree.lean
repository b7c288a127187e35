import SyntaxForest.Node

/-!
Ordered trees as plain values, and their written form `(root child ...)`.
-/

namespace SyntaxForest

/-- An ordered tree is a label over a list of subtrees. -/
inductive OrderedTree (α : Type) where
  | node (label : α) (children : List (OrderedTree α))
  deriving Repr

namespace OrderedTree

def label {α : Type} : OrderedTree α → α
  | .node label _ => label

mutual

/-- The same shape with every label replaced. -/
def map {α β : Type} (change : α → β) : OrderedTree α → OrderedTree β
  | .node label children => .node (change label) (mapEach change children)

def mapEach {α β : Type} (change : α → β) : List (OrderedTree α) → List (OrderedTree β)
  | [] => []
  | tree :: rest => tree.map change :: mapEach change rest

end

mutual

/-- A leaf is written as its label. A nil root adds nothing to the forms of its children. -/
def render : OrderedTree Content → String
  | .node content [] => content.label
  | .node content (first :: rest) =>
      if content.isNil then first.render ++ renderEach rest
      else "(" ++ content.label ++ " " ++ first.render ++ renderEach rest ++ ")"

/-- Each further subtree follows a space. -/
def renderEach : List (OrderedTree Content) → String
  | [] => ""
  | tree :: rest => " " ++ tree.render ++ renderEach rest

end

end OrderedTree

end SyntaxForest
