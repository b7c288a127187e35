import SyntaxForest.Edit.Links

/-!
Copies of nodes and trees. A tree is copied with a list of pairs that wait, each of a node and its
copy. The last pair to come is the first to be dealt with: copies of the children of its node become
the children of its copy, and the new pairs wait in turn. The forest is read while it grows.
-/

namespace SyntaxForest.EditM

variable {before after : Forest}

/-- The copy has the content and the boundaries of the node, and no links. -/
def copyNode (id : NodeId) : EditM NodeId := do
  let node ← fetch id
  allocate node.unlinked

/-- Copies of so many children of the source, from a position on, become the last children of the
copy. Every child is looked up only when its turn comes. -/
def copyChildrenFrom (source copy : NodeId) : Nat → Nat → EditM (List (NodeId × NodeId))
  | _, 0 => pure []
  | position, count + 1 => do
      let node ← fetch source
      match node.children[position]? with
      | none => fail (.missingChild position node.children.length)
      | some child => do
          let childCopy ← copyNode child
          append copy childCopy
          let pairs ← copyChildrenFrom source copy (position + 1) count
          pure ((child, childCopy) :: pairs)

/-- The children are counted before the first of them is copied. -/
def copyChildren (source copy : NodeId) : EditM (List (NodeId × NodeId)) := do
  let node ← fetch source
  copyChildrenFrom source copy 0 node.children.length

theorem size_allocate {node : Node} {id : NodeId} (ran : allocate node before = .ok id after) :
    after.size = before.size + 1 ∧ after.size ≤ Forest.capacity := by
  unfold allocate at ran
  split at ran
  · next room =>
      cases ran
      rw [Forest.size_push]
      exact ⟨rfl, room⟩
  · contradiction

theorem size_copyNode {id copy : NodeId} (ran : copyNode id before = .ok copy after) :
    after.size = before.size + 1 ∧ after.size ≤ Forest.capacity := by
  obtain ⟨node, middle, fetched, allocated⟩ := ok_of_bind ran
  have size := (KeepsSize.query _).size_eq fetched
  rw [← size]
  exact size_allocate allocated

/-- Every pair stands for a new node. -/
theorem size_copyChildrenFrom {source copy : NodeId} {position count : Nat}
    {pairs : List (NodeId × NodeId)}
    (ran : copyChildrenFrom source copy position count before = .ok pairs after) :
    after.size = before.size + pairs.length ∧ (pairs ≠ [] → after.size ≤ Forest.capacity) := by
  induction count generalizing position before pairs with
  | zero =>
      cases ran
      exact ⟨rfl, fun some => absurd rfl some⟩
  | succ count ih =>
      obtain ⟨node, _, fetched, ran⟩ := ok_of_bind ran
      have unchanged := (KeepsSize.query _).size_eq fetched
      cases listed : node.children[position]? with
      | none =>
          rw [listed] at ran
          contradiction
      | some child =>
          rw [listed] at ran
          obtain ⟨childCopy, copied, copying, ran⟩ := ok_of_bind ran
          obtain ⟨_, appended, appending, ran⟩ := ok_of_bind ran
          obtain ⟨later, _, copyingRest, ran⟩ := ok_of_bind ran
          cases ran
          have new := size_copyNode copying
          have kept := (keepsSize_append copy childCopy).size_eq appending
          have rest := ih copyingRest
          rw [List.length_cons]
          refine ⟨by omega, fun _ => ?_⟩
          cases later with
          | nil =>
              rw [List.length_nil] at rest
              omega
          | cons pair pairs => exact rest.2 (List.cons_ne_nil pair pairs)

theorem size_copyChildren {source copy : NodeId} {pairs : List (NodeId × NodeId)}
    (ran : copyChildren source copy before = .ok pairs after) :
    after.size = before.size + pairs.length ∧ (pairs ≠ [] → after.size ≤ Forest.capacity) := by
  obtain ⟨node, middle, fetched, copying⟩ := ok_of_bind ran
  have size := (KeepsSize.query _).size_eq fetched
  rw [← size]
  exact size_copyChildrenFrom copying

/-- The first pair of the list is the last that came. The work ends because every new pair takes
a handle, and there are only so many. -/
def copyPending : List (NodeId × NodeId) → EditM Unit
  | [], forest => .ok () forest
  | (source, copy) :: rest, forest =>
      match _ran : copyChildren source copy forest with
      | .ok pairs after => copyPending (pairs.reverse ++ rest) after
      | .error stop after => .error stop after
termination_by pending forest => Forest.capacity - forest.size + pending.length
decreasing_by
  obtain ⟨size, room⟩ := size_copyChildren _ran
  rw [List.length_append, List.length_reverse, List.length_cons]
  cases pairs with
  | nil =>
      rw [List.length_nil] at size ⊢
      omega
  | cons pair pairs =>
      have fits := room (List.cons_ne_nil pair pairs)
      omega

theorem copyPending_nil : copyPending [] = pure () := by
  funext forest
  rw [copyPending]
  rfl

theorem copyPending_cons (source copy : NodeId) (rest : List (NodeId × NodeId)) :
    copyPending ((source, copy) :: rest) =
      copyChildren source copy >>= fun pairs => copyPending (pairs.reverse ++ rest) := by
  funext forest
  change _ = EStateM.bind (copyChildren source copy) _ forest
  unfold EStateM.bind
  rw [copyPending]
  split <;> simp_all

/-- The copy of the tree is a root of its own. -/
def copyTree (id : NodeId) : EditM NodeId := do
  let copy ← copyNode id
  copyPending [(id, copy)]
  pure copy

end SyntaxForest.EditM
