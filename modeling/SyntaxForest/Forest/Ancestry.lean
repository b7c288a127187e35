import SyntaxForest.Forest.Basic

/-!
Walks along the parent links. A walk that lists more ancestors than the forest has nodes repeats
one of them, so it follows a cycle and has no end.
-/

namespace SyntaxForest.Forest

/-- The walk starts at an optional node and lists at most `limit` nodes, each the parent of the one
before it. -/
def climb (forest : Forest) : Nat → Option NodeId → Except Stop (List NodeId)
  | 0, _ => .ok []
  | _ + 1, none => .ok []
  | limit + 1, some id => do
      let node ← forest.fetch id
      let above ← forest.climb limit node.parent
      pure (id :: above)

/-- The nearest `limit` strict ancestors, nearest first. -/
def ancestorsUpTo (forest : Forest) (limit : Nat) (id : NodeId) : Except Stop (List NodeId) := do
  let node ← forest.fetch id
  forest.climb limit node.parent

/-- All strict ancestors, nearest first, with a walk that is stopped when it must repeat itself. -/
def ancestors (forest : Forest) (id : NodeId) : Except Stop (List NodeId) := do
  let above ← forest.ancestorsUpTo (forest.size + 1) id
  if forest.size < above.length then .error .endless else .ok above

/-- The nearest strict ancestor that passes the test. The search has no end on a cycle in which no
node passes. -/
def nearestAncestor? (forest : Forest) (id : NodeId) (test : Node → Bool) :
    Except Stop (Option NodeId) := do
  let above ← forest.ancestorsUpTo (forest.size + 1) id
  let found ← above.findM? fun ancestor => test <$> forest.fetch ancestor
  if found.isNone && forest.size < above.length then .error .endless else .ok found

/-- A node counts for itself, and that case needs no look at the store. -/
def isAncestorOrSelf (forest : Forest) (candidate id : NodeId) : Except Stop Bool :=
  if candidate = id then .ok true
  else do
    let above ← forest.ancestorsUpTo (forest.size + 1) id
    if candidate ∈ above then .ok true
    else if forest.size < above.length then .error .endless
    else .ok false

def ancestorOfKind? (forest : Forest) (id : NodeId) (kind : Kind) : Except Stop (Option NodeId) :=
  forest.nearestAncestor? id fun node => node.content.kind = kind

def firstChildOfKind? (forest : Forest) (id : NodeId) (kind : Kind) :
    Except Stop (Option NodeId) := do
  let node ← forest.fetch id
  node.children.findM? fun child => do
    let record ← forest.fetch child
    pure (record.content.kind = kind)

end SyntaxForest.Forest
