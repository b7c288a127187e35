import SyntaxForest.Proofs.Observations
import SyntaxForest.Proofs.Persistence
import SyntaxForest.Proofs.Transfers

/-!
Faithful copies of trees. The pairs that wait stand for the trees that are still to be copied, and
every step puts the trees of the children in the place of the first tree. So the order of copying is
read off the trees alone. As the copies have consecutive handles, the copy of a node is known before
the first copy is made, and the forest after every step is compared with the finished copy.
-/

namespace SyntaxForest

namespace NodeId

theorem consecutive_append (first count more : Nat) :
    consecutive first count ++ consecutive (first + count) more =
      consecutive first (count + more) := by
  rw [consecutive, consecutive, consecutive, ← List.map_append, List.range'_append_1]

/-- Two lists that are named consecutively together are named so one after the other. -/
theorem split_consecutive {copyOf : NodeId → NodeId} {ids more : List NodeId} {first : Nat}
    (places : (ids ++ more).map copyOf = consecutive first (ids ++ more).length) :
    ids.map copyOf = consecutive first ids.length ∧
      more.map copyOf = consecutive (first + ids.length) more.length := by
  rw [List.map_append, List.length_append, ← consecutive_append] at places
  exact List.append_inj places (by simp [length_consecutive])

theorem nodup_consecutive (first count : Nat) : (consecutive first count).Nodup := by
  apply List.Nodup.map _ (List.nodup_range' 1)
  intro one other same
  exact congrArg NodeId.index same

end NodeId

open NodeId

namespace OrderedTree

mutual

/-- The nodes below the root in the order in which they are copied: the children first, then what
lies below the last child, then below the one before it, and so on. -/
def copyOrder : OrderedTree (NodeId × Content) → List NodeId
  | .node _ children => children.map (fun child => child.label.1) ++ copyOrderEach children

def copyOrderEach : List (OrderedTree (NodeId × Content)) → List NodeId
  | [] => []
  | tree :: trees => copyOrderEach trees ++ tree.copyOrder

end

mutual

/-- The root and the nodes below it, in the order of copying, are the nodes of the tree. -/
theorem copyOrder_perm (tree : OrderedTree (NodeId × Content)) :
    (tree.label.1 :: tree.copyOrder).Perm tree.handles := by
  cases tree with
  | node label children =>
      rw [handles_node, copyOrder]
      exact (copyOrderEach_perm children).cons label.1

theorem copyOrderEach_perm (trees : List (OrderedTree (NodeId × Content))) :
    (trees.map (fun tree => tree.label.1) ++ copyOrderEach trees).Perm
      (trees.flatMap handles) := by
  cases trees with
  | nil => exact .refl _
  | cons tree trees =>
      rw [List.flatMap_cons, List.map_cons, copyOrderEach]
      have later := copyOrderEach_perm trees
      have first := copyOrder_perm tree
      rw [List.cons_append, ← List.append_assoc]
      exact (List.perm_append_comm.cons _).trans (first.append later)

end

end OrderedTree

namespace Forest

variable {origin before middle after forest : Forest} {copyOf : NodeId → NodeId}

/-- The copies of the roots are there and have no children yet, and the copies that are to be made
take the next handles. -/
structure Awaits (before : Forest) (checkCycles : Bool) (origin : Forest)
    (copyOf : NodeId → NodeId) (roots made : List NodeId) : Prop extends
    before.Copying checkCycles origin (roots.map fun id => (id, copyOf id)) where
  bare : ∀ id ∈ roots, before.childrenOf (copyOf id) = []
  nodup : (roots.map copyOf).Nodup
  places : made.map copyOf = consecutive before.size made.length

namespace Awaits

variable {roots made : List NodeId} {checkCycles : Bool}

theorem holds_copyOf (awaits : before.Awaits checkCycles origin copyOf roots made) {id : NodeId}
    (member : id ∈ roots) : before.Holds (copyOf id) :=
  (awaits.copies _ (List.mem_map_of_mem member)).2

/-- What is made is new. -/
theorem size_le (awaits : before.Awaits checkCycles origin copyOf roots made) {id : NodeId}
    (member : id ∈ made) : before.size ≤ (copyOf id).index := by
  have placed : copyOf id ∈ made.map copyOf := List.mem_map_of_mem member
  rw [awaits.places, mem_consecutive] at placed
  exact placed.1

theorem not_mem_made (awaits : before.Awaits checkCycles origin copyOf roots made) {id : NodeId}
    (held : before.Holds id) : id ∉ made.map copyOf := by
  rw [List.mem_map]
  rintro ⟨other, member, rfl⟩
  exact Nat.not_lt.mpr (awaits.size_le member) held

end Awaits

/-- Copies of the nodes in `made` have been added to a forest, in order, and the copies of the nodes
in `finished` have received copies of all children. -/
structure Duplicates (origin : Forest) (copyOf : NodeId → NodeId) (before after : Forest)
    (finished made : List NodeId) : Prop where
  linked : after.Linked
  places : made.map copyOf = consecutive before.size made.length
  size : after.size = before.size + made.length
  kept : ∀ id, before.Holds id → after.payload? id = before.payload? id
  payload : ∀ id ∈ made, after.payload? (copyOf id) = origin.payload? id
  lists : ∀ id, id ∉ finished.map copyOf → after.childrenOf id = before.childrenOf id
  children : ∀ id ∈ finished, after.childrenOf (copyOf id) = (origin.childrenOf id).map copyOf
  adjacent : ∀ id ∈ finished, ∃ first,
    (origin.childrenOf id).map copyOf = consecutive first (origin.childrenOf id).length

namespace Duplicates

variable {finished made finishedLater madeLater : List NodeId}

theorem refl (linked : before.Linked) : origin.Duplicates copyOf before before [] [] :=
  ⟨linked, rfl, rfl, fun _ _ => rfl, by simp, fun _ _ => rfl, by simp, by simp⟩

/-- The copies that have been made are the new nodes. -/
theorem new_of_mem (duplicates : origin.Duplicates copyOf before after finished made) {id : NodeId}
    (member : id ∈ made) : before.size ≤ (copyOf id).index ∧ after.Holds (copyOf id) := by
  have placed : copyOf id ∈ made.map copyOf := List.mem_map_of_mem member
  rw [duplicates.places, mem_consecutive] at placed
  rwa [Holds, duplicates.size]

theorem holds (duplicates : origin.Duplicates copyOf before after finished made) {id : NodeId}
    (held : before.Holds id) : after.Holds id := by
  rw [Holds, duplicates.size]
  exact Nat.lt_add_right _ held

/-- Only the copies of finished nodes matter. -/
theorem congr (duplicates : origin.Duplicates copyOf before after finished made)
    (same : ∀ id, id ∈ finishedLater ↔ id ∈ finished) :
    origin.Duplicates copyOf before after finishedLater made where
  linked := duplicates.linked
  places := duplicates.places
  size := duplicates.size
  kept := duplicates.kept
  payload := duplicates.payload
  lists id outside := by
    apply duplicates.lists
    simpa only [List.mem_map, same] using outside
  children id member := duplicates.children id ((same id).mp member)
  adjacent id member := duplicates.adjacent id ((same id).mp member)

/-- Finished copies stay finished while others are made. -/
theorem trans (one : origin.Duplicates copyOf before middle finished made)
    (other : origin.Duplicates copyOf middle after finishedLater madeLater)
    (apart : ∀ id ∈ finished, copyOf id ∉ finishedLater.map copyOf) :
    origin.Duplicates copyOf before after (finished ++ finishedLater) (made ++ madeLater) where
  linked := other.linked
  places := by
    rw [List.map_append, one.places, other.places, one.size, consecutive_append,
      List.length_append]
  size := by
    rw [other.size, one.size, List.length_append]
    omega
  kept id held := (other.kept id (one.holds held)).trans (one.kept id held)
  payload id member := by
    rcases List.mem_append.mp member with early | late
    · exact (other.kept _ (one.new_of_mem early).2).trans (one.payload id early)
    · exact other.payload id late
  lists id outside := by
    rw [List.map_append, List.mem_append, not_or] at outside
    exact (other.lists id outside.2).trans (one.lists id outside.1)
  children id member := by
    rcases List.mem_append.mp member with early | late
    · exact (other.lists _ (apart id early)).trans (one.children id early)
    · exact other.children id late
  adjacent id member := by
    rcases List.mem_append.mp member with early | late
    · exact one.adjacent id early
    · exact other.adjacent id late

end Duplicates

namespace Awaits

variable {checkCycles : Bool} {id : NodeId} {roots below : List NodeId}

/-- The copies of the children have no children yet, and those of the other roots still have none. -/
theorem step (awaits : before.Awaits checkCycles origin copyOf (id :: roots)
      (origin.childrenOf id ++ below)) (linkedOrigin : origin.Linked)
    (gains : after.GainsCopies checkCycles before (copyOf id) (origin.childrenOf id)) :
    after.Awaits checkCycles origin copyOf ((origin.childrenOf id).reverse ++ roots) below := by
  obtain ⟨placesChildren, placesBelow⟩ := split_consecutive awaits.places
  obtain ⟨fresh, nodup⟩ := List.nodup_cons.mp awaits.nodup
  have held := awaits.holds_copyOf List.mem_cons_self
  have isNew : ∀ child ∈ origin.childrenOf id, ¬ before.Holds (copyOf child) := by
    intro child member heldChild
    exact awaits.not_mem_made heldChild (List.mem_map_of_mem (List.mem_append_left below member))
  refine ⟨?_, ?_, ?_, ?_⟩
  · have pairs : (origin.childrenOf id).zip
        (consecutive before.size (origin.childrenOf id).length) =
          (origin.childrenOf id).map fun child => (child, copyOf child) := by
      rw [← placesChildren, List.map_prod_left_eq_zip]
    have listed := awaits.lists id (awaits.sources _ List.mem_cons_self)
    rw [← listed] at gains
    have next := Copying.step awaits.toCopying linkedOrigin gains
    rw [listed, pairs] at next
    rwa [List.map_append, List.map_reverse]
  · intro other member
    rw [gains.lists]
    rcases List.mem_append.mp member with child | root
    · have missing := isNew other (List.mem_reverse.mp child)
      have different : copyOf other ≠ copyOf id := fun same => missing (same ▸ held)
      rw [if_neg different, childrenOf_eq_nil missing]
    · have different : copyOf other ≠ copyOf id :=
        fun same => fresh (same ▸ List.mem_map_of_mem root)
      rw [if_neg different]
      exact awaits.bare other (List.mem_cons_of_mem id root)
  · rw [List.map_append, List.map_reverse, placesChildren]
    apply List.Nodup.append (List.nodup_reverse.mpr (nodup_consecutive _ _)) nodup
    intro copy isChild isRoot
    rw [← placesChildren, List.mem_reverse] at isChild
    obtain ⟨child, member, rfl⟩ := List.mem_map.mp isChild
    obtain ⟨root, isRoot, same⟩ := List.mem_map.mp isRoot
    exact isNew child member (same ▸ awaits.holds_copyOf (List.mem_cons_of_mem id isRoot))
  · rw [placesBelow, gains.size]

/-- The copy of the first root has received copies of all children. -/
theorem duplicates (awaits : before.Awaits checkCycles origin copyOf (id :: roots)
      (origin.childrenOf id ++ below)) (linkedOrigin : origin.Linked)
    (gains : after.GainsCopies checkCycles before (copyOf id) (origin.childrenOf id)) :
    origin.Duplicates copyOf before after [id] (origin.childrenOf id) := by
  have places := (split_consecutive awaits.places).1
  have payloads := gains.payloads
  have lists := gains.lists
  rw [← places] at payloads lists
  refine ⟨gains.linked, places, gains.size, gains.kept, ?_, ?_, ?_, ?_⟩
  · intro child member
    rw [List.map_map, List.map_inj_left] at payloads
    have copied : after.payload? (copyOf child) = before.payload? child := payloads child member
    exact copied.trans (awaits.keeps child (linkedOrigin.solid_of_mem member).holds)
  · intro other outside
    rw [lists, if_neg (by simpa using outside)]
  · intro other member
    rw [List.mem_singleton.mp member, lists, if_pos rfl, awaits.bare id List.mem_cons_self,
      List.nil_append]
  · intro other member
    rw [List.mem_singleton.mp member]
    exact ⟨_, places⟩

end Awaits

end Forest

namespace EditM

variable {origin before : Forest} {copyOf : NodeId → NodeId} {checkCycles : Bool}

end EditM

namespace Forest

variable {before after : Forest} {root : NodeId} {copyOf : NodeId → NodeId}

section CopiesTree

variable {tree : OrderedTree (NodeId × Content)} {node : Node}

end CopiesTree

end Forest

namespace Builder

variable {builder : Builder}

end Builder

end SyntaxForest
