import SyntaxForest.Edit.Copy
import SyntaxForest.Proofs.Growth
import SyntaxForest.Proofs.Subtrees

/-!
Copies of nodes and trees. The forest is read while it grows, but what is read was there before: a
copy is never copied, and only the copy of a parent gains children. So the pairs that wait always
join an old node to a new one. A tree with a cycle keeps pairs waiting until the forest is full.
-/

namespace SyntaxForest

/-- Handles that follow each other without a gap. -/
def NodeId.consecutive (first count : Nat) : List NodeId := (List.range' first count).map NodeId.mk

namespace NodeId

theorem length_consecutive (first count : Nat) : (consecutive first count).length = count := by
  simp [consecutive]

theorem consecutive_succ (first count : Nat) :
    consecutive first (count + 1) = ⟨first⟩ :: consecutive (first + 1) count := by
  simp [consecutive, List.range'_succ]

theorem mem_consecutive {first count : Nat} {id : NodeId} :
    id ∈ consecutive first count ↔ first ≤ id.index ∧ id.index < first + count := by
  rw [consecutive, List.mem_map]
  constructor
  · rintro ⟨index, inside, rfl⟩
    simpa using inside
  · intro inside
    exact ⟨id.index, by simpa using inside, rfl⟩

end NodeId

open NodeId

namespace Forest

open Relation

variable {forest before after origin : Forest} {checkCycles : Bool}

/-- A forest that follows soundly and in which every earlier node keeps its parent, and every solid
one is still solid. -/
structure Extends (after : Forest) (checkCycles : Bool) (before : Forest) : Prop extends
    after.Follows checkCycles before where
  grown : before.size ≤ after.size
  solid : ∀ id, before.Solid id → after.Solid id
  parent : ∀ id, before.Holds id → after.parentOf id = before.parentOf id

theorem Linked.extends (linked : forest.Linked) (checkCycles : Bool) :
    forest.Extends checkCycles forest :=
  ⟨linked.follows checkCycles, Nat.le_refl _, fun _ solid => solid, fun _ _ => rfl⟩

theorem Extends.trans {first second third : Forest} (later : third.Extends checkCycles second)
    (earlier : second.Extends checkCycles first) : third.Extends checkCycles first where
  toFollows := later.toFollows.trans earlier.toFollows
  grown := earlier.grown.trans later.grown
  solid id solid := later.solid id (earlier.solid id solid)
  parent id held :=
    (later.parent id (Nat.lt_of_lt_of_le held earlier.grown)).trans (earlier.parent id held)

/-- A copy of the node becomes the last child of the parent. -/
def copied (forest : Forest) (parent : NodeId) (node : Node) : Forest :=
  (forest.push node.unlinked).adopted parent ⟨forest.size⟩

/-- The last handle is new to the forest. -/
theorem ne_of_holds {id : NodeId} (held : forest.Holds id) : (⟨forest.size⟩ : NodeId) ≠ id := by
  rintro rfl
  exact Nat.lt_irrefl _ held

theorem solid_push_last {node : Node} (solid : node.content.isNil = false) :
    (forest.push node).Solid ⟨forest.size⟩ :=
  ⟨node, by simp [get?_push], solid⟩

/-- A new node has nothing below it. -/
theorem Linked.clear_push (linked : forest.Linked) {parent : NodeId} (held : forest.Holds parent)
    (node : Node) : (forest.push node.unlinked).Clear parent [⟨forest.size⟩] := by
  have linkedNext : (forest.push node.unlinked).Linked := linked.push rfl rfl rfl
  intro id member path
  rw [List.mem_singleton.mp member] at path
  rcases ReflTransGen.cases_tail path with same | ⟨child, _, link⟩
  · exact ne_of_holds held same
  · have listed := linkedNext.mem_childrenOf_iff.mpr link
    simp [childrenOf, get?_push, Node.unlinked] at listed

theorem Linked.extends_push (linked : forest.Linked) (checkCycles : Bool) (node : Node) :
    (forest.push node.unlinked).Extends checkCycles forest where
  toFollows := linked.follows_push rfl rfl rfl checkCycles
  grown := by simp
  solid id solid := solid_push solid _
  parent id held := by
    obtain ⟨record, found⟩ := (forest.holds_iff id).mp held
    rw [parentOf_eq (get?_push_of_get? found _), parentOf_eq found]

theorem Linked.extends_copied (linked : forest.Linked) {parent : NodeId} {node : Node}
    (held : forest.Holds parent) (solid : node.content.isNil = false) :
    (forest.copied parent node).Extends checkCycles forest := by
  have pushed := linked.extends_push checkCycles node
  have heldNext := holds_push held node.unlinked
  have solidCopy : (forest.push node.unlinked).Solid ⟨forest.size⟩ := solid_push_last solid
  have different := ne_of_holds held
  have adopted : (forest.copied parent node).Follows checkCycles (forest.push node.unlinked) :=
    ⟨pushed.linked.adopted heldNext solidCopy different,
      fun _ acyclic => acyclic.adopted pushed.linked (linked.clear_push held node)⟩
  refine ⟨adopted.trans pushed.toFollows, by simp [copied], ?_, ?_⟩
  · intro id solid
    rw [copied, solid_adopted]
    exact solid_push solid _
  · intro id heldId
    rw [copied, pushed.linked.parentOf_adopted heldNext solidCopy different,
      if_neg (ne_of_holds heldId).symm]
    exact pushed.parent id heldId

/-- What a copy of a node would be: its content and its boundaries. -/
def payload? (forest : Forest) (id : NodeId) : Option Node :=
  (forest.get? id).map Node.unlinked

theorem payload?_eq {id : NodeId} {node : Node} (found : forest.get? id = some node) :
    forest.payload? id = some node.unlinked := by
  simp [payload?, found]

theorem payload?_push (forest : Forest) (node : Node) (id : NodeId) :
    (forest.push node).payload? id =
      if id = ⟨forest.size⟩ then some node.unlinked else forest.payload? id := by
  cases id
  simp only [payload?, get?_push, NodeId.mk.injEq]
  split_ifs <;> rfl

@[simp] theorem payload?_relist (forest : Forest) (parent : NodeId) (children : List NodeId)
    (id : NodeId) : (forest.relist parent children).payload? id = forest.payload? id := by
  rw [payload?, payload?, get?_relist, Option.map_map]
  rfl

theorem payload?_copied (forest : Forest) (parent : NodeId) (node : Node) (id : NodeId) :
    (forest.copied parent node).payload? id =
      if id = ⟨forest.size⟩ then some node.unlinked else forest.payload? id := by
  have kept : (forest.copied parent node).payload? id =
      (forest.push node.unlinked).payload? id := by
    unfold copied adopted uprooted
    split <;> simp
  rw [kept, payload?_push]
  rfl

/-- A new leaf changes no child list. -/
theorem childrenOf_push (forest : Forest) {node : Node} (leaf : node.children = [])
    (id : NodeId) : (forest.push node).childrenOf id = forest.childrenOf id := by
  rw [childrenOf, childrenOf, get?_push]
  split_ifs with last
  · have missing : ¬ forest.Holds id := by rw [Holds, last]; omega
    simp [get?_eq_none missing, leaf]
  · rfl

/-- A root that is adopted leaves no other child list. -/
theorem Linked.childrenOf_adopted_root (linked : forest.Linked) {parent child : NodeId}
    (held : forest.Holds parent) (isRoot : forest.parentOf child = none) (other : NodeId) :
    (forest.adopted parent child).childrenOf other =
      if other = parent then forest.childrenOf parent ++ [child] else forest.childrenOf other := by
  have absent : ∀ id, child ∉ forest.childrenOf id := by
    intro id member
    rw [linked.mem_childrenOf_iff, isRoot] at member
    contradiction
  rw [linked.childrenOf_adopted held, List.erase_of_not_mem (absent _),
    List.erase_of_not_mem (absent _)]

/-- A copy stands at the end of the child list of its parent. -/
theorem Linked.childrenOf_copied (linked : forest.Linked) {parent : NodeId}
    (held : forest.Holds parent) (node : Node) (id : NodeId) :
    (forest.copied parent node).childrenOf id =
      if id = parent then forest.childrenOf parent ++ [⟨forest.size⟩]
      else forest.childrenOf id := by
  have isRoot : (forest.push node.unlinked).parentOf ⟨forest.size⟩ = none := by
    simp [parentOf, get?_push, Node.unlinked]
  have linkedNext : (forest.push node.unlinked).Linked := linked.push rfl rfl rfl
  rw [copied, linkedNext.childrenOf_adopted_root (holds_push held _) isRoot,
    childrenOf_push forest rfl, childrenOf_push forest rfl]

@[simp] theorem size_copied (forest : Forest) (parent : NodeId) (node : Node) :
    (forest.copied parent node).size = forest.size + 1 := by
  simp [copied]

/-- Copies of the nodes take the next handles and follow the present children of their owner.
Nothing else changes. -/
structure GainsCopies (after : Forest) (checkCycles : Bool) (before : Forest) (owner : NodeId)
    (ids : List NodeId) : Prop extends after.Extends checkCycles before where
  size : after.size = before.size + ids.length
  kept : ∀ id, before.Holds id → after.payload? id = before.payload? id
  payloads : (consecutive before.size ids.length).map after.payload? = ids.map before.payload?
  lists : ∀ id, after.childrenOf id =
    if id = owner then before.childrenOf owner ++ consecutive before.size ids.length
    else before.childrenOf id

theorem Linked.gainsCopies_nil (linked : forest.Linked) (checkCycles : Bool) (owner : NodeId) :
    forest.GainsCopies checkCycles forest owner [] where
  toExtends := linked.extends checkCycles
  size := rfl
  kept _ _ := rfl
  payloads := rfl
  lists id := by
    split_ifs with same
    · simp [same, consecutive]
    · rfl

/-- The first copy is made, and then the others. -/
theorem Linked.gainsCopies_cons (linked : before.Linked) {owner id : NodeId} {rest : List NodeId}
    {node : Node} (held : before.Holds owner) (found : before.get? id = some node)
    (solid : node.content.isNil = false) (heldRest : ∀ other ∈ rest, before.Holds other)
    (gains : after.GainsCopies checkCycles (before.copied owner node) owner rest) :
    after.GainsCopies checkCycles before owner (id :: rest) := by
  have first : (before.copied owner node).Extends checkCycles before :=
    linked.extends_copied held solid
  have keptFirst : ∀ other, before.Holds other →
      (before.copied owner node).payload? other = before.payload? other := by
    intro other heldOther
    rw [payload?_copied, if_neg (ne_of_holds heldOther).symm]
  have size := gains.size
  have payloads := gains.payloads
  have lists := gains.lists
  rw [size_copied] at size payloads lists
  refine ⟨gains.toExtends.trans first, ?_, ?_, ?_, ?_⟩
  · rw [List.length_cons]
    omega
  · intro other heldOther
    rw [gains.kept other (Nat.lt_of_lt_of_le heldOther first.grown), keptFirst other heldOther]
  · rw [List.length_cons, consecutive_succ, List.map_cons, List.map_cons, payloads,
      gains.kept _ (by simp [Holds]), payload?_copied, if_pos rfl, payload?_eq found]
    congr 1
    apply List.map_congr_left
    intro other member
    exact keptFirst other (heldRest other member)
  · intro other
    rw [List.length_cons, consecutive_succ, lists, linked.childrenOf_copied held,
      linked.childrenOf_copied held]
    by_cases same : other = owner <;> simp [same]

/-- While a tree is copied, the nodes that were there keep what they carry and their children, and
every pair that waits joins one of them to a new node. -/
structure Copying (before : Forest) (checkCycles : Bool) (origin : Forest)
    (pending : List (NodeId × NodeId)) : Prop extends before.Extends checkCycles origin where
  keeps : ∀ id, origin.Holds id → before.payload? id = origin.payload? id
  lists : ∀ id, origin.Holds id → before.childrenOf id = origin.childrenOf id
  sources : ∀ pair ∈ pending, origin.Holds pair.1
  copies : ∀ pair ∈ pending, origin.size ≤ pair.2.index ∧ before.Holds pair.2

/-- The first pair that waits is the root and its copy. -/
theorem Linked.copying_push (linked : before.Linked) (checkCycles : Bool) {id : NodeId} {node : Node}
    (held : before.Holds id) :
    (before.push node.unlinked).Copying checkCycles before [(id, ⟨before.size⟩)] where
  toExtends := linked.extends_push checkCycles node
  keeps other heldOther := by
    rw [payload?_push, if_neg (ne_of_holds heldOther).symm]
  lists other _ := childrenOf_push before rfl other
  sources pair member := by
    rw [List.mem_singleton.mp member]
    exact held
  copies pair member := by
    rw [List.mem_singleton.mp member]
    exact ⟨Nat.le_refl _, before.holds_push_last _⟩

namespace Copying

variable {source copy : NodeId} {rest : List (NodeId × NodeId)}

/-- Old and new nodes differ. -/
theorem ne_copy (copying : before.Copying checkCycles origin ((source, copy) :: rest)) {id : NodeId}
    (held : origin.Holds id) : id ≠ copy := by
  rintro rfl
  exact Nat.not_lt.mpr (copying.copies _ List.mem_cons_self).1 held

/-- The copies of the children of the first node wait in front of the others, the last one first. -/
theorem step (copying : before.Copying checkCycles origin ((source, copy) :: rest))
    (linkedOrigin : origin.Linked)
    (gains : after.GainsCopies checkCycles before copy (before.childrenOf source)) :
    after.Copying checkCycles origin (((before.childrenOf source).zip
      (consecutive before.size (before.childrenOf source).length)).reverse ++ rest) := by
  have heldSource := copying.sources _ List.mem_cons_self
  refine ⟨gains.toExtends.trans copying.toExtends, ?_, ?_, ?_, ?_⟩
  · intro id held
    exact (gains.kept id (Nat.lt_of_lt_of_le held copying.grown)).trans (copying.keeps id held)
  · intro id held
    rw [gains.lists, if_neg (copying.ne_copy held)]
    exact copying.lists id held
  · rintro ⟨child, childCopy⟩ member
    rcases List.mem_append.mp member with new | old
    · have listed := (List.of_mem_zip (List.mem_reverse.mp new)).1
      rw [copying.lists source heldSource] at listed
      exact (linkedOrigin.solid_of_mem listed).holds
    · exact copying.sources _ (List.mem_cons_of_mem _ old)
  · rintro ⟨child, childCopy⟩ member
    have grown := copying.grown
    have size := gains.size
    rcases List.mem_append.mp member with new | old
    · have place := mem_consecutive.mp (List.of_mem_zip (List.mem_reverse.mp new)).2
      rw [Holds]
      dsimp only
      omega
    · obtain ⟨isNew, held⟩ := copying.copies _ (List.mem_cons_of_mem _ old)
      exact ⟨isNew, Nat.lt_of_lt_of_le held gains.grown⟩

end Copying

end Forest

namespace EditM

variable {before after origin : Forest} {checkCycles : Bool} {handles : List NodeId}

theorem copyNode_creates {id : NodeId} {node : Node} (found : before.get? id = some node) :
    (copyNode id).Creates before 1 fun copy after =>
      copy = ⟨before.size⟩ ∧ after = before.push node.unlinked :=
  .bind_ok (fetch_ok found) rfl (allocate_creates node.unlinked)

theorem copyNode_missing {id : NodeId} (missing : ¬ before.Holds id) :
    copyNode id before = .error (.fault (.missingNode id before.size)) before := by
  have stopped : before.fetch id = .error (.fault (.missingNode id before.size)) := by
    simp [Forest.fetch, Forest.get?_eq_none missing]
  exact bind_error (query_error stopped)

theorem copyNode_grows (linked : before.Linked) (id : NodeId) :
    (copyNode id).Grows before [id] fun _ after => after.Follows checkCycles before := by
  by_cases held : before.Holds id
  · obtain ⟨node, found⟩ := (before.holds_iff id).mp held
    apply (copyNode_creates found).grows
    rintro _ _ ⟨_, rfl⟩
    exact linked.follows_push rfl rfl rfl checkCycles
  · exact .of_missing (copyNode_missing held) List.mem_cons_self held

/-- Each child is still where it was when its turn comes, for only the copy gains children. -/
theorem copyChildrenFrom_creates (checkCycles : Bool) (linked : before.Linked)
    {source copy : NodeId} {done todo : List NodeId} (held : before.Holds copy)
    (different : source ≠ copy) (listed : before.childrenOf source = done ++ todo) :
    (copyChildrenFrom source copy done.length todo.length).Creates before todo.length
      fun pairs after => pairs = todo.zip (consecutive before.size todo.length) ∧
        after.GainsCopies checkCycles before copy todo := by
  induction todo generalizing before done with
  | nil => exact .of_ok rfl rfl ⟨rfl, linked.gainsCopies_nil checkCycles copy⟩
  | cons child rest ih =>
      have member : child ∈ before.childrenOf source := by simp [listed]
      have heldRest : ∀ other ∈ rest, before.Holds other := by
        intro other later
        have among : other ∈ before.childrenOf source := by simp [listed, later]
        exact (linked.solid_of_mem among).holds
      obtain ⟨node, found⟩ := (before.holds_iff source).mp
        (linked.holds_parent (linked.mem_childrenOf_iff.mp member))
      have next : node.children[done.length]? = some child := by
        rw [← Forest.childrenOf_eq found, listed]
        simp
      obtain ⟨childNode, foundChild, solid⟩ := linked.solid_of_mem member
      have appended := append_ok (linked.push rfl rfl rfl)
        (Forest.holds_push held childNode.unlinked) (Forest.solid_push_last solid)
        (Forest.ne_of_holds held)
      have extended : (before.copied copy childNode).Extends checkCycles before :=
        linked.extends_copied held solid
      have listedRest : (before.copied copy childNode).childrenOf source =
          (done ++ [child]) ++ rest := by
        rw [linked.childrenOf_copied held, if_neg different, listed, List.append_assoc]
        rfl
      have later := ih extended.linked (Nat.lt_of_lt_of_le held extended.grown) listedRest
      rw [List.length_append, List.length_singleton] at later
      apply Creates.congr _ (Nat.add_comm 1 rest.length)
      rw [List.length_cons, copyChildrenFrom]
      apply Creates.bind_ok (fetch_ok found) rfl
      rw [next]
      apply (copyNode_creates foundChild).bind
      rintro _ _ _ ⟨rfl, rfl⟩
      apply Creates.bind_ok appended (by simp)
      apply later.bind_pure
      rintro _ after ⟨rfl, gains⟩
      refine ⟨?_, linked.gainsCopies_cons held foundChild solid heldRest gains⟩
      rw [consecutive_succ, List.zip_cons_cons, Forest.size_copied]

theorem copyChildren_creates (checkCycles : Bool) (linked : before.Linked) {source copy : NodeId}
    (heldSource : before.Holds source) (held : before.Holds copy) (different : source ≠ copy) :
    (copyChildren source copy).Creates before (before.childrenOf source).length
      fun pairs after => pairs = (before.childrenOf source).zip
          (consecutive before.size (before.childrenOf source).length) ∧
        after.GainsCopies checkCycles before copy (before.childrenOf source) := by
  obtain ⟨node, found⟩ := (before.holds_iff source).mp heldSource
  have listed : before.childrenOf source = [] ++ node.children := Forest.childrenOf_eq found
  rw [listed]
  exact .bind_ok (fetch_ok found) rfl
    (copyChildrenFrom_creates checkCycles linked held different listed)

/-- The pair that came last is dealt with. -/
theorem copyChildren_of_copying {source copy : NodeId} {rest : List (NodeId × NodeId)}
    (copying : before.Copying checkCycles origin ((source, copy) :: rest)) :
    (copyChildren source copy).Creates before (before.childrenOf source).length
      fun pairs after => pairs = (before.childrenOf source).zip
          (consecutive before.size (before.childrenOf source).length) ∧
        after.GainsCopies checkCycles before copy (before.childrenOf source) := by
  have held := copying.sources _ List.mem_cons_self
  exact copyChildren_creates checkCycles copying.linked
    (Nat.lt_of_lt_of_le held copying.grown) (copying.copies _ List.mem_cons_self).2
    (copying.ne_copy held)

/-- The work ends with a value or in a full forest. In the first case no cycle lies below a node
that waits, for a pair is done only when the pairs of its children are. -/
theorem copyPending_ends (linkedOrigin : origin.Linked) {pending : List (NodeId × NodeId)}
    (copying : before.Copying checkCycles origin pending) :
    (∃ after, copyPending pending before = .ok () after ∧ after.Extends checkCycles before ∧
      after.size ≤ before.limit ∧ ∀ pair ∈ pending, origin.Grounded pair.1) ∨
    ∃ after, copyPending pending before = .error (.fault .outOfHandles) after ∧
      after.size = before.limit := by
  induction pending, before using copyPending.induct with
  | case1 before =>
      refine .inl ⟨before, ?_, copying.linked.extends checkCycles, Nat.le_max_left _ _, by simp⟩
      rw [copyPending_nil]
      rfl
  | case2 source copy rest before pairs middle ran ih =>
      obtain ⟨_, fits, isPairs, gains⟩ := (copyChildren_of_copying copying).result ran
      have next := copying.step linkedOrigin gains
      rw [← isPairs] at next
      rw [copyPending_cons, bind_ok ran, ← Forest.limit_eq gains.grown fits]
      rcases ih next with ⟨after, ended, extended, fitsAfter, grounded⟩ | full
      · refine .inl ⟨after, ended, extended.trans gains.toExtends, fitsAfter, ?_⟩
        intro pair member
        rcases List.mem_cons.mp member with rfl | later
        · apply Forest.grounded_of_children
          intro child link
          have children : pairs.map Prod.fst = before.childrenOf source := by
            rw [isPairs, List.map_fst_zip (length_consecutive before.size _).ge]
          have listed := linkedOrigin.mem_childrenOf_iff.mpr link
          rw [← copying.lists source (copying.sources _ List.mem_cons_self), ← children] at listed
          obtain ⟨pair, waits, rfl⟩ := List.mem_map.mp listed
          exact grounded pair (List.mem_append_left _ (List.mem_reverse.mpr waits))
        · exact grounded pair (List.mem_append_right _ later)
      · exact .inr full
  | case3 source copy rest before stop middle stopped =>
      obtain ⟨rfl, size⟩ := (copyChildren_of_copying copying).blame stopped
      rw [copyPending_cons]
      exact .inr ⟨middle, bind_error stopped, size⟩

/-- The copy of a tree is a root, unless the forest becomes full. Only a tree without cycles can be
copied. -/
theorem copyTree_ends (linked : before.Linked) (checkCycles : Bool) {id : NodeId}
    (held : before.Holds id) :
    (∃ after, copyTree id before = .ok ⟨before.size⟩ after ∧
      after.Extends checkCycles before ∧ ⟨before.size⟩ ∈ after.roots ∧
      after.size ≤ before.limit ∧ before.Grounded id) ∨
    ∃ after, copyTree id before = .error (.fault .outOfHandles) after ∧
      after.size = before.limit := by
  obtain ⟨node, found⟩ := (before.holds_iff id).mp held
  have copied := copyNode_creates found
  by_cases room : before.size + 1 ≤ before.limit
  · obtain ⟨_, _, ran, size, rfl, rfl⟩ := copied.room room
    have limit : (before.push node.unlinked).limit = before.limit :=
      Forest.limit_eq (by omega) (by omega)
    have heldCopy := before.holds_push_last node.unlinked
    have isRoot : (before.push node.unlinked).parentOf ⟨before.size⟩ = none := by
      simp [Forest.parentOf, Forest.get?_push, Node.unlinked]
    rcases copyPending_ends linked (linked.copying_push checkCycles held) with
      ⟨after, ended, extended, fits, grounded⟩ | ⟨after, stopped, full⟩
    · refine .inl ⟨after, ?_, extended.trans (linked.extends_push checkCycles node),
        Forest.mem_roots.mpr ⟨Nat.lt_of_lt_of_le heldCopy extended.grown, ?_⟩, limit ▸ fits,
        grounded _ List.mem_cons_self⟩
      · rw [copyTree, bind_ok ran, bind_ok ended]
        rfl
      · rw [extended.parent _ heldCopy, isRoot]
    · refine .inr ⟨after, ?_, full.trans limit⟩
      rw [copyTree, bind_ok ran, bind_error stopped]
  · obtain ⟨after, stopped, size⟩ := copied.full (by omega)
    exact .inr ⟨after, bind_error stopped, size⟩

theorem copyTree_missing {id : NodeId} (missing : ¬ before.Holds id) :
    copyTree id before = .error (.fault (.missingNode id before.size)) before :=
  bind_error (copyNode_missing missing)

theorem copyTree_extends (linked : before.Linked) (checkCycles : Bool) {id copy : NodeId}
    (ran : copyTree id before = .ok copy after) :
    after.Extends checkCycles before ∧ copy ∈ after.roots := by
  by_cases held : before.Holds id
  · rcases copyTree_ends linked checkCycles held with
      ⟨forest, ranAgain, extended, isRoot, _⟩ | ⟨forest, stopped, _⟩
    · rw [ran] at ranAgain
      cases ranAgain
      exact ⟨extended, isRoot⟩
    · rw [ran] at stopped
      contradiction
  · rw [copyTree_missing held] at ran
    contradiction

theorem copyTree_grows (linked : before.Linked) (id : NodeId) :
    (copyTree id).Grows before [id] fun _ after => after.Follows checkCycles before := by
  by_cases held : before.Holds id
  · rcases copyTree_ends linked checkCycles held with
      ⟨after, ran, extended, _, fits, _⟩ | ⟨after, stopped, full⟩
    · exact .of_ok ran ⟨extended.grown, fits⟩ extended.toFollows
    · exact .of_full stopped full
  · exact .of_missing (copyTree_missing held) List.mem_cons_self held

end EditM

end SyntaxForest
