import SyntaxForest.Edit.Basic

/-!
The steps from which every change of shape is made. Each link is stored at both of its ends, so a
step that moves children also updates the parent and the position that the children record.
-/

namespace SyntaxForest.EditM

/-- The child records where it sits. -/
def place (child parent : NodeId) (position : Nat) : EditM Unit :=
  update child fun node => { node with parent := some parent, position := some position }

/-- The node records that it has no parent. -/
def unplace (id : NodeId) : EditM Unit :=
  update id fun node => { node with parent := none, position := none }

def unplaceEach : List NodeId → EditM Unit
  | [] => pure ()
  | id :: rest => do
      unplace id
      unplaceEach rest

/-- Consecutive positions are recorded, the first of them being `position`. -/
def placeEach (parent : NodeId) : Nat → List NodeId → EditM Unit
  | _, [] => pure ()
  | position, child :: rest => do
      place child parent position
      placeEach parent (position + 1) rest

/-- Every child from the given position on records its place anew. -/
def renumber (parent : NodeId) (position : Nat) : EditM Unit := do
  let node ← fetch parent
  placeEach parent position (node.children.drop position)

def setChildren (parent : NodeId) (children : List NodeId) : EditM Unit :=
  update parent fun node => { node with children }

/-- The child list loses one entry, and the entry is returned. -/
def removeAt (parent : NodeId) (position : Nat) : EditM NodeId := do
  let node ← fetch parent
  match node.children[position]? with
  | none => fail (.missingChild position node.children.length)
  | some child => do
      setChildren parent (node.children.eraseIdx position)
      pure child

/-- The child list gains an entry at a position up to its length. -/
def insertAt (parent : NodeId) (position : Nat) (child : NodeId) : EditM Unit := do
  let node ← fetch parent
  if node.children.length < position then fail (.missingChild position node.children.length)
  else setChildren parent (node.children.insertIdx position child)

/-- One entry of the child list is overwritten. -/
def putAt (parent : NodeId) (position : Nat) (child : NodeId) : EditM Unit := do
  let node ← fetch parent
  if node.children.length ≤ position then fail (.missingChild position node.children.length)
  else setChildren parent (node.children.set position child)

/-- A stretch of `count` entries of the child list makes room for others. -/
def splice (parent : NodeId) (position count : Nat) (incoming : List NodeId) : EditM Unit := do
  let node ← fetch parent
  if node.children.length < position + count then
    fail (.missingChild (position + count) node.children.length)
  else
    setChildren parent
      (node.children.take position ++ incoming ++ node.children.drop (position + count))

/-- A node leaves its parent, and the siblings after it close the gap. A root stays as it is. -/
def detach (id : NodeId) : EditM Unit := do
  let node ← fetch id
  match node.parent, node.position with
  | some parent, some position => do
      let _ ← removeAt parent position
      renumber parent position
      unplace id
  | _, _ => pure ()

def detachEach : List NodeId → EditM Unit
  | [] => pure ()
  | id :: rest => do
      detach id
      detachEach rest

/-- A node leaves its old place and becomes the last child of the parent. -/
def append (parent child : NodeId) : EditM Unit := do
  detach child
  let node ← fetch parent
  setChildren parent (node.children ++ [child])
  place child parent node.children.length

def appendEach (parent : NodeId) : List NodeId → EditM Unit
  | [] => pure ()
  | child :: rest => do
      append parent child
      appendEach parent rest

/-- All children of a node become roots. -/
def takeChildren (id : NodeId) : EditM Unit := do
  let node ← fetch id
  setChildren id []
  unplaceEach node.children

theorem keepsSize_placeEach (parent : NodeId) (position : Nat) (children : List NodeId) :
    (placeEach parent position children).KeepsSize := by
  induction children generalizing position with
  | nil => exact .pure ()
  | cons child rest ih => exact (KeepsSize.update child _).bind fun _ => ih (position + 1)

theorem keepsSize_removeAt (parent : NodeId) (position : Nat) :
    (removeAt parent position).KeepsSize := by
  apply (KeepsSize.query _).bind
  intro node
  split
  · exact .fail _
  · exact (KeepsSize.update parent _).bind fun _ => .pure _

theorem keepsSize_detach (id : NodeId) : (detach id).KeepsSize := by
  apply (KeepsSize.query _).bind
  intro node
  split
  · next parent position _ _ =>
      apply (keepsSize_removeAt parent position).bind
      intro _
      apply ((KeepsSize.query _).bind fun _ => keepsSize_placeEach parent position _).bind
      intro _
      exact .update id _
  · exact .pure ()

theorem keepsSize_append (parent child : NodeId) : (append parent child).KeepsSize := by
  apply (keepsSize_detach child).bind
  intro _
  apply (KeepsSize.query _).bind
  intro node
  exact (KeepsSize.update parent _).bind fun _ => .update child _

end SyntaxForest.EditM
