import SyntaxForest.Forest.Basic
import SyntaxForest.OrderedTree

/-!
The part of a forest that lies below a node, read along the child links into an ordered tree.
-/

namespace SyntaxForest.Forest

/-- The walk enters at most `depth` levels. -/
def subtreeWithin (forest : Forest) : Nat → NodeId → Except Stop (OrderedTree (NodeId × Content))
  | 0, _ => .error .endless
  | depth + 1, id => do
      let node ← forest.fetch id
      let below ← node.children.mapM (forest.subtreeWithin depth)
      pure (.node (id, node.content) below)

/-- A path with more levels than the forest has nodes follows a cycle. -/
def subtree (forest : Forest) (id : NodeId) : Except Stop (OrderedTree (NodeId × Content)) :=
  forest.subtreeWithin (forest.size + 1) id

/-- The written form of everything below a node. -/
def render (forest : Forest) (id : NodeId) : Except Stop String := do
  let tree ← forest.subtree id
  pure (tree.map Prod.snd).render

end SyntaxForest.Forest
