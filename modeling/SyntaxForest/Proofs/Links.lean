import SyntaxForest.Forest.Basic
import Mathlib.Data.List.Nodup
import Mathlib.Tactic

/-!
Agreement between the two ends of every link. In a linked forest a child list and the places that
its members record determine each other, so no node occurs twice in the child lists.
-/

namespace SyntaxForest.Forest

/-- The forest holds the handles below its size. -/
def Holds (forest : Forest) (id : NodeId) : Prop := id.index < forest.size

instance (forest : Forest) (id : NodeId) : Decidable (forest.Holds id) :=
  inferInstanceAs (Decidable (_ < _))

/-- A handle that the forest does not hold has no children. -/
def childrenOf (forest : Forest) (id : NodeId) : List NodeId :=
  ((forest.get? id).map Node.children).getD []

/-- A handle that the forest does not hold has no parent. -/
def parentOf (forest : Forest) (id : NodeId) : Option NodeId := (forest.get? id).bind Node.parent

/-- A solid node is held and is no nil node. -/
def Solid (forest : Forest) (id : NodeId) : Prop :=
  ∃ node, forest.get? id = some node ∧ node.content.isNil = false

theorem holds_iff (forest : Forest) (id : NodeId) :
    forest.Holds id ↔ ∃ node, forest.get? id = some node := by
  rw [← Option.isSome_iff_exists]
  simp [Holds, size, get?]

theorem holds_of_get? {forest : Forest} {id : NodeId} {node : Node}
    (found : forest.get? id = some node) : forest.Holds id :=
  (forest.holds_iff id).mpr ⟨node, found⟩

theorem get?_eq_none {forest : Forest} {id : NodeId} (missing : ¬ forest.Holds id) :
    forest.get? id = none := by
  rw [forest.holds_iff] at missing
  exact Option.eq_none_iff_forall_ne_some.mpr fun node found => missing ⟨node, found⟩

theorem Solid.holds {forest : Forest} {id : NodeId} (solid : forest.Solid id) :
    forest.Holds id := by
  obtain ⟨node, found, _⟩ := solid
  exact holds_of_get? found

theorem childrenOf_eq {forest : Forest} {id : NodeId} {node : Node}
    (found : forest.get? id = some node) : forest.childrenOf id = node.children := by
  simp [childrenOf, found]

theorem parentOf_eq {forest : Forest} {id : NodeId} {node : Node}
    (found : forest.get? id = some node) : forest.parentOf id = node.parent := by
  simp [parentOf, found]

theorem parentOf_eq_some_iff (forest : Forest) (id parent : NodeId) :
    forest.parentOf id = some parent ↔
      ∃ node, forest.get? id = some node ∧ node.parent = some parent := by
  simp only [parentOf, Option.bind_eq_some_iff]

@[simp] theorem holds_modify (forest : Forest) (id other : NodeId) (change : Node → Node) :
    (forest.modify id change).Holds other ↔ forest.Holds other := by
  simp [Holds]

/-- Two forests with the same record at every handle are the same forest. -/
theorem ext_get? {first second : Forest} (same : ∀ id, first.get? id = second.get? id) :
    first = second := by
  cases first
  cases second
  congr 1
  apply Array.ext_getElem?
  intro index
  exact same ⟨index⟩

/-- The two ends of every link agree, and no link ends in a nil node or in its own start. -/
structure Linked (forest : Forest) : Prop where
  down : ∀ parent node position child, forest.get? parent = some node →
    node.children[position]? = some child →
    ∃ record, forest.get? child = some record ∧ record.parent = some parent ∧
      record.position = some position ∧ child ≠ parent ∧ record.content.isNil = false
  up : ∀ child record parent, forest.get? child = some record → record.parent = some parent →
    ∃ node position, forest.get? parent = some node ∧ record.position = some position ∧
      node.children[position]? = some child
  root : ∀ id node, forest.get? id = some node → (node.parent = none ↔ node.position = none)

namespace Linked

variable {forest : Forest}

theorem empty : Forest.empty.Linked where
  down parent node position child found := by simp [Forest.empty, get?] at found
  up child record parent found := by simp [Forest.empty, get?] at found
  root id node found := by simp [Forest.empty, get?] at found

/-- An entry of a child list leads to a record of exactly this place. -/
theorem entry (linked : forest.Linked) {parent child : NodeId} {position : Nat}
    (listed : (forest.childrenOf parent)[position]? = some child) :
    ∃ record, forest.get? child = some record ∧ record.parent = some parent ∧
      record.position = some position ∧ child ≠ parent ∧ record.content.isNil = false := by
  cases found : forest.get? parent with
  | none => simp [childrenOf, found] at listed
  | some node =>
      rw [childrenOf_eq found] at listed
      exact linked.down parent node position child found listed

theorem mem_childrenOf_iff (linked : forest.Linked) {parent child : NodeId} :
    child ∈ forest.childrenOf parent ↔ forest.parentOf child = some parent := by
  rw [parentOf_eq_some_iff]
  constructor
  · intro member
    obtain ⟨position, listed⟩ := List.mem_iff_getElem?.mp member
    obtain ⟨record, found, above, _⟩ := linked.entry listed
    exact ⟨record, found, above⟩
  · rintro ⟨record, found, above⟩
    obtain ⟨node, position, foundParent, _, listed⟩ := linked.up child record parent found above
    rw [childrenOf_eq foundParent]
    exact List.mem_of_getElem? listed

/-- A member of a child list stands at the position that it records. -/
theorem place_of_mem (linked : forest.Linked) {parent child : NodeId} {record : Node}
    (found : forest.get? child = some record) (member : child ∈ forest.childrenOf parent) :
    record.parent = some parent ∧
      record.position = some ((forest.childrenOf parent).idxOf child) := by
  have listed := List.getElem?_idxOf member
  obtain ⟨other, foundAgain, above, place, _⟩ := linked.entry listed
  rw [found, Option.some.injEq] at foundAgain
  subst foundAgain
  exact ⟨above, place⟩

theorem nodup_childrenOf (linked : forest.Linked) (parent : NodeId) :
    (forest.childrenOf parent).Nodup := by
  rw [List.nodup_iff_getElem?_ne_getElem?]
  intro first second before inside same
  have secondListed := List.getElem?_eq_getElem inside
  have firstListed := same.trans secondListed
  obtain ⟨record, found, _, place, _⟩ := linked.entry firstListed
  obtain ⟨other, foundAgain, _, placeAgain, _⟩ := linked.entry secondListed
  rw [found, Option.some.injEq] at foundAgain
  subst foundAgain
  rw [place, Option.some.injEq] at placeAgain
  omega

theorem solid_of_mem (linked : forest.Linked) {parent child : NodeId}
    (member : child ∈ forest.childrenOf parent) : forest.Solid child := by
  obtain ⟨position, listed⟩ := List.mem_iff_getElem?.mp member
  obtain ⟨record, found, _, _, _, solid⟩ := linked.entry listed
  exact ⟨record, found, solid⟩

theorem ne_of_mem (linked : forest.Linked) {parent child : NodeId}
    (member : child ∈ forest.childrenOf parent) : child ≠ parent := by
  obtain ⟨position, listed⟩ := List.mem_iff_getElem?.mp member
  obtain ⟨record, _, _, _, different, _⟩ := linked.entry listed
  exact different

theorem holds_parent (linked : forest.Linked) {child parent : NodeId}
    (above : forest.parentOf child = some parent) : forest.Holds parent := by
  obtain ⟨record, found, above⟩ := (forest.parentOf_eq_some_iff child parent).mp above
  obtain ⟨node, _, foundParent, _⟩ := linked.up child record parent found above
  exact holds_of_get? foundParent

/-- A held node without a parent records no place. -/
theorem exists_unplaced (linked : forest.Linked) {id : NodeId} (held : forest.Holds id)
    (isRoot : forest.parentOf id = none) :
    ∃ record, forest.get? id = some record ∧ record.parent = none ∧ record.position = none := by
  obtain ⟨record, found⟩ := (forest.holds_iff id).mp held
  rw [parentOf_eq found] at isRoot
  exact ⟨record, found, isRoot, (linked.root id record found).mp isRoot⟩

/-- A nil node has no parent. -/
theorem nil_parent (linked : forest.Linked) {id : NodeId} {node : Node}
    (found : forest.get? id = some node) (nil : node.content.isNil = true) :
    node.parent = none := by
  cases above : node.parent with
  | none => rfl
  | some parent =>
      have member : id ∈ forest.childrenOf parent := by
        rw [linked.mem_childrenOf_iff, parentOf_eq found, above]
      obtain ⟨record, foundAgain, solid⟩ := linked.solid_of_mem member
      rw [found, Option.some.injEq] at foundAgain
      subst foundAgain
      rw [nil] at solid
      contradiction

/-- No node occurs twice in the child lists of the whole forest. -/
theorem nodup_children (linked : forest.Linked) :
    (forest.nodes.toList.flatMap Node.children).Nodup := by
  have listed (index : Nat) (inside : index < forest.nodes.toList.length) :
      forest.nodes.toList[index].children = forest.childrenOf ⟨index⟩ := by
    have found : forest.get? ⟨index⟩ = some forest.nodes.toList[index] := by simp [get?]
    rw [childrenOf_eq found]
  rw [List.nodup_flatMap]
  constructor
  · intro node member
    obtain ⟨index, inside, rfl⟩ := List.getElem_of_mem member
    rw [listed index inside]
    exact linked.nodup_childrenOf _
  · rw [List.pairwise_iff_getElem]
    intro first second firstInside secondInside before
    simp only [Function.onFun, listed, List.disjoint_left]
    intro child member memberAgain
    rw [linked.mem_childrenOf_iff] at member memberAgain
    rw [member, Option.some.injEq, NodeId.mk.injEq] at memberAgain
    omega

end Linked

end SyntaxForest.Forest
