import SyntaxForest.Node

/-!
Serial numbers for handles, whether or not a forest holds them. A number is stored when it is handed
out, and the next number is the count of those that are stored.
-/

namespace SyntaxForest

/-- A table of the handles that have a number, each with its number. -/
structure Serials where
  entries : List (NodeId × Nat) := []
  deriving DecidableEq, Repr

namespace Serials

def empty : Serials := {}

def size (serials : Serials) : Nat := serials.entries.length

def find? (serials : Serials) (node : NodeId) : Option Nat := serials.entries.lookup node

def insert (serials : Serials) (node : NodeId) (number : Nat) : Serials :=
  { entries := (node, number) :: serials.entries }

/-- A handle with a number keeps it. The next number is taken before it is known whether the handle
needs one. -/
def assign (serials : Serials) (node : NodeId) : Nat × Serials :=
  let next := serials.size
  match serials.find? node with
  | some number => (number, serials)
  | none => (next, serials.insert node next)

theorem find?_insert (serials : Serials) (node other : NodeId) (number : Nat) :
    (serials.insert node number).find? other =
      if other = node then some number else serials.find? other := by
  simp only [find?, insert, List.lookup_cons]
  by_cases same : other = node
  · simp [same]
  · simp [same, beq_false_of_ne same]

theorem size_insert (serials : Serials) (node : NodeId) (number : Nat) :
    (serials.insert node number).size = serials.size + 1 := rfl

theorem assign_of_some {serials : Serials} {node : NodeId} {number : Nat}
    (found : serials.find? node = some number) : serials.assign node = (number, serials) := by
  simp only [assign, found]

theorem assign_of_none {serials : Serials} {node : NodeId} (new : serials.find? node = none) :
    serials.assign node = (serials.size, serials.insert node serials.size) := by
  simp only [assign, new]

end Serials

end SyntaxForest
