import SyntaxForest.Forest.Basic

/-!
A check of the links below a node. The check visits nodes from a list of waiting ones. It tests all
children of a node before it visits any of them, and it visits the last child first.
-/

namespace SyntaxForest

/-- A defect is the first way in which a child contradicts the place where it was found. -/
inductive Defect where
  | parent (found : Option NodeId) (expected : NodeId)
  | position (found : Option Nat) (expected : Nat)
  | nilChild
  deriving DecidableEq, Repr

namespace Defect

/-- An optional value is written with its presence. -/
def optional : Option String → String
  | none => "None"
  | some text => "Some(" ++ text ++ ")"

def message : Defect → String
  | .parent found expected =>
      "parent is " ++ optional (found.map NodeId.label) ++ ", expected " ++ expected.label
  | .position found expected =>
      "child index is " ++ optional (found.map toString) ++ ", expected " ++ toString expected
  | .nilChild => "nil node attached as a child"

end Defect

/-- The parent is tested first, then the position, then the content. -/
def Node.defectAt? (node : Node) (parent : NodeId) (position : Nat) : Option Defect :=
  if node.parent ≠ some parent then some (.parent node.parent parent)
  else if node.position ≠ some position then some (.position node.position position)
  else if node.content.isNil then some .nilChild
  else none

/-- An inspection tells which nodes were visited, in order, and what was found at the end. -/
structure Inspection where
  visited : List NodeId
  finding : Option (NodeId × Defect)
  deriving DecidableEq, Repr

namespace Forest

/-- The first child in the list that contradicts its place, counting positions from `position`. -/
def defectAmong? (forest : Forest) (parent : NodeId) :
    Nat → List NodeId → Except Stop (Option (NodeId × Defect))
  | _, [] => .ok none
  | position, child :: rest => do
      let record ← forest.fetch child
      match record.defectAt? parent position with
      | some defect => pure (some (child, defect))
      | none => forest.defectAmong? parent (position + 1) rest

/-- The inspection makes at most `visits` visits to the waiting nodes. -/
def inspectWithin (forest : Forest) : Nat → List NodeId → Except Stop Inspection
  | _, [] => .ok ⟨[], none⟩
  | 0, _ :: _ => .error .endless
  | visits + 1, id :: waiting => do
      let node ← forest.fetch id
      match ← forest.defectAmong? id 0 node.children with
      | some finding => pure ⟨[id], some finding⟩
      | none =>
          let later ← forest.inspectWithin visits (node.children.reverse ++ waiting)
          pure { later with visited := id :: later.visited }

/-- An inspection with more visits than the forest has nodes follows a cycle. -/
def inspect (forest : Forest) (root : NodeId) : Except Stop Inspection :=
  forest.inspectWithin (forest.size + 1) [root]

/-- The links below a node are in order, or the first defect found is the refusal. -/
def verify (forest : Forest) (root : NodeId) : Except Stop Unit := do
  let inspection ← forest.inspect root
  match inspection.finding with
  | some (node, defect) => .error (.refused (.inconsistent node defect.message))
  | none => .ok ()

end Forest

end SyntaxForest
