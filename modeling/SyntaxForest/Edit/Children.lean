import SyntaxForest.Edit.Attach

/-!
Changes among the children of a node: one entry, the order, or a whole range.
-/

namespace SyntaxForest

namespace Forest

def childAt (forest : Forest) (tree : NodeId) (position : Nat) : Except Stop NodeId := do
  let node ← forest.fetch tree
  match node.children[position]? with
  | some child => pure child
  | none => .error (.refused (.indexOutOfRange position node.children.length))

/-- How many of the nodes sit below the parent at a position before `start`. -/
def countBefore (forest : Forest) (parent : NodeId) (start : Nat) (ids : List NodeId) :
    Except Stop Nat := do
  let nodes ← ids.mapM forest.fetch
  pure (nodes.countP fun node =>
    decide (node.parent = some parent) &&
      node.position.any fun position => decide (position < start))

end Forest

/-- The slot that a child takes once it has left its old place. A sibling from the left shifts the
slot down. -/
def Node.slotAfterLeaving (child : Node) (tree : NodeId) (position : Nat) : Nat :=
  match child.parent, child.position with
  | some parent, some current =>
      if parent = tree ∧ current < position then position - 1 else position
  | _, _ => position

namespace EditM

/-- The child takes the place of another one, which becomes a root. -/
def setChild (checkCycles : Bool) (tree : NodeId) (position : Nat) (child : NodeId) :
    EditM Unit := do
  let displaced ← query fun forest => forest.childAt tree position
  let node ← fetch child
  if node.content.isNil then refuse .nilChild
  else do
    query fun forest => forest.checkAttach checkCycles tree [child]
    if displaced = child then pure ()
    else do
      let slot := node.slotAfterLeaving tree position
      detach child
      putAt tree slot child
      unplace displaced
      place child tree slot

/-- The child becomes a root and is returned. -/
def deleteChild (tree : NodeId) (position : Nat) : EditM NodeId := do
  let child ← query fun forest => forest.childAt tree position
  detach child
  pure child

/-- A node moves among its siblings. -/
def setPosition (id : NodeId) (position : Nat) : EditM Unit := do
  let node ← fetch id
  match node.parent, node.position with
  | some parent, some current => do
      let _ ← query fun forest => forest.childAt parent position
      let moved ← removeAt parent current
      insertAt parent position moved
      renumber parent (min current position)
  | _, _ => refuse .noParent

/-- A position moves down, but not below zero. -/
def shiftDown (position shift : Nat) : EditM Nat :=
  if position < shift then fail (.negativePosition position shift) else pure (position - shift)

/-- The children from `start` to `stop` make room for a node, or for the children of a nil node. A
node that is already a child of the parent leaves its old place first. -/
def replaceChildren (checkCycles : Bool) (parent : NodeId) (start stop : Nat)
    (replacement : NodeId) : EditM Unit := do
  let node ← fetch parent
  if stop < start ∨ node.children.length ≤ stop then
    refuse (.rangeOutOfRange start stop node.children.length)
  else if replacement = parent then refuse .selfChild
  else do
    let source ← fetch replacement
    let incoming := source.incoming replacement
    let removed := (node.children.drop start).take (stop + 1 - start)
    query fun forest => forest.checkAttach checkCycles parent incoming
    release replacement source
    let shift ← query fun forest => forest.countBefore parent start incoming
    detachEach (incoming.filter fun id => id ∉ removed)
    let first ← shiftDown start shift
    splice parent first removed.length incoming
    unplaceEach (removed.filter fun id => id ∉ incoming)
    renumber parent 0

end EditM

end SyntaxForest
