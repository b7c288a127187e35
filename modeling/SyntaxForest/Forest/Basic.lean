import SyntaxForest.Outcome

/-!
The store of nodes. Nodes are only ever added at the end, so a handle keeps its meaning for as long
as the forest exists.
-/

namespace SyntaxForest

/-- A forest holds every node ever created, at the place that its handle names. -/
structure Forest where
  nodes : Array Node := #[]
  deriving DecidableEq, Repr

namespace Forest

def empty : Forest := {}

/-- A handle fits into a word of 32 bits, so a forest has room for this many nodes. -/
def capacity : Nat := UInt32.size

def size (forest : Forest) : Nat := forest.nodes.size

def get? (forest : Forest) (id : NodeId) : Option Node := forest.nodes[id.index]?

/-- Reading a handle that the forest does not hold is a fault. -/
def fetch (forest : Forest) (id : NodeId) : Except Stop Node :=
  match forest.get? id with
  | some node => .ok node
  | none => .error (.fault (.missingNode id forest.size))

/-- The new node takes the next free handle. -/
def push (forest : Forest) (node : Node) : Forest := { nodes := forest.nodes.push node }

/-- A handle that the forest does not hold leaves it as it is. -/
def modify (forest : Forest) (id : NodeId) (change : Node → Node) : Forest :=
  { nodes := forest.nodes.modify id.index change }

@[simp] theorem size_push (forest : Forest) (node : Node) :
    (forest.push node).size = forest.size + 1 := by
  simp [push, size]

@[simp] theorem size_modify (forest : Forest) (id : NodeId) (change : Node → Node) :
    (forest.modify id change).size = forest.size := by
  simp [modify, size]

/-- Only the handle after the last one gains a node. -/
theorem get?_push (forest : Forest) (node : Node) (id : NodeId) :
    (forest.push node).get? id = if id.index = forest.size then some node else forest.get? id :=
  Array.getElem?_push

/-- Only the named node changes. -/
theorem get?_modify (forest : Forest) (id other : NodeId) (change : Node → Node) :
    (forest.modify id change).get? other =
      if id = other then (forest.get? other).map change else forest.get? other := by
  cases id
  cases other
  simp [modify, get?, Array.getElem?_modify]

end Forest

end SyntaxForest
