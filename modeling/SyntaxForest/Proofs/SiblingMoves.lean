import SyntaxForest.Proofs.Observations
import SyntaxForest.Proofs.SlotEdits
import SyntaxForest.Proofs.Splicing

/-!
Moves among siblings. A node leaves its position and takes another one, and the other siblings keep
their order. The move back restores the forest, and so does adding a deleted child again and moving
it to where it was.
-/

namespace SyntaxForest

namespace Forest

variable {before after : Forest} {parent id : NodeId} {position : Nat}

/-- A child has moved among its siblings. They keep their order, each of them records the position
where it now stands, and no other record has changed but the list itself. -/
structure MovesSibling (before after : Forest) (parent id : NodeId) (position : Nat) : Prop where
  children : after.childrenOf parent = ((before.childrenOf parent).erase id).insertIdx position id
  list : ∀ node, before.get? parent = some node →
    after.get? parent = some { node with children := after.childrenOf parent }
  places : ∀ place child, (after.childrenOf parent)[place]? = some child →
    ∃ record, before.get? child = some record ∧ record.parent = some parent ∧
      after.get? child = some { record with position := some place }
  others : ∀ other, other ≠ parent → other ∉ before.childrenOf parent →
    after.get? other = before.get? other

/-- A rearranged list changes the positions of its members and nothing else. -/
theorem Linked.movesSibling (linked : before.Linked) {current : Nat}
    (listed : (before.childrenOf parent)[current]? = some id)
    (inside : position < (before.childrenOf parent).length) :
    before.MovesSibling (before.relist parent
      (((before.childrenOf parent).eraseIdx current).insertIdx position id)) parent id position := by
  have held := holds_of_listed listed
  have perm := perm_insertIdx_eraseIdx listed inside
  have admits := linked.admits_perm held perm
  have moved := childrenOf_relist held
    (((before.childrenOf parent).eraseIdx current).insertIdx position id) parent
  rw [if_pos rfl] at moved
  refine ⟨?_, ?_, ?_, ?_⟩
  · rw [moved, eraseIdx_eq_erase (linked.nodup_childrenOf parent) listed]
  · intro node found
    have outside : parent ∉ before.childrenOf parent := fun member => linked.ne_of_mem member rfl
    rw [moved, get?_relist_of_get? found]
    simp [Node.moved, perm.mem_iff, outside]
  · intro place child listedAfter
    rw [moved] at listedAfter
    obtain ⟨insideAfter, rfl⟩ := List.getElem?_eq_some_iff.mp listedAfter
    have member := List.mem_of_getElem? listedAfter
    obtain ⟨record, found, _⟩ := admits.solid _ member
    have above := (linked.place_of_mem found (perm.mem_iff.mp member)).1
    refine ⟨record, found, above, ?_⟩
    rw [get?_relist_of_get? found]
    simp [Node.moved, member, above, admits.different _ member, admits.nodup.idxOf_getElem]
  · intro other different outside
    rw [get?_relist]
    simp [Node.moved, different, perm.mem_iff, outside]

/-- A child that leaves its parent and is adopted again stands at the end of the list. -/
theorem Linked.childrenOf_readopted (linked : before.Linked)
    (member : id ∈ before.childrenOf parent) (other : NodeId) :
    ((before.uprooted id).adopted parent id).childrenOf other =
      if other = parent then (before.childrenOf parent).erase id ++ [id]
      else before.childrenOf other := by
  have held := linked.holds_parent (linked.mem_childrenOf_iff.mp member)
  have isRoot : (before.uprooted id).parentOf id = none := by
    rw [linked.parentOf_uprooted, if_pos rfl]
  rw [(linked.uprooted id).childrenOf_adopted_root (by simpa using held) isRoot,
    linked.childrenOf_uprooted, linked.childrenOf_uprooted]
  split_ifs with same
  · rfl
  · exact linked.erase_elsewhere member same

/-- A child that has left its parent may be attached there again. -/
theorem Linked.checkAttach_uprooted (linked : before.Linked) {checkCycles : Bool}
    (acyclic : checkCycles = true → before.Acyclic) (member : id ∈ before.childrenOf parent) :
    (before.uprooted id).checkAttach checkCycles parent [id] = .ok () := by
  have held := linked.holds_parent (linked.mem_childrenOf_iff.mp member)
  have narrows := linked.narrows_uprooted id
  apply (linked.uprooted id).checkAttach_of_clear (fun checked => (acyclic checked).narrow narrows)
    (by simpa using held) (by simpa using Ne.symm (linked.ne_of_mem member))
  intro checked child inside
  rw [List.mem_singleton.mp inside]
  exact ((acyclic checked).clear_childrenOf linked parent).narrow narrows id member

end Forest

namespace EditM

variable {before after : Forest} {parent id : NodeId} {current position : Nat}

theorem setPosition_of_root {record : Node} (found : before.get? id = some record)
    (isRoot : record.parent = none) :
    setPosition id position before = .error (.refused .noParent) before := by
  rw [setPosition, bind_ok (fetch_ok found)]
  simp only [isRoot]
  rfl

theorem setPosition_of_outside (linked : before.Linked)
    (listed : (before.childrenOf parent)[current]? = some id)
    (outside : (before.childrenOf parent).length ≤ position) :
    setPosition id position before = .error
      (.refused (.indexOutOfRange position (before.childrenOf parent).length)) before := by
  obtain ⟨record, found, above, place, _⟩ := linked.entry listed
  have refused := Forest.childAt_eq_error (Forest.holds_of_listed listed) outside
  rw [setPosition, bind_ok (fetch_ok found)]
  simp only [above, place]
  exact bind_error (query_error refused)

theorem setPosition_ok (linked : before.Linked)
    (listed : (before.childrenOf parent)[current]? = some id)
    (inside : position < (before.childrenOf parent).length) :
    setPosition id position before = .ok () (before.relist parent
      (((before.childrenOf parent).eraseIdx current).insertIdx position id)) := by
  obtain ⟨record, found, above, place, _⟩ := linked.entry listed
  have answered := Forest.childAt_eq_ok (Forest.holds_of_listed listed)
    (List.getElem?_eq_getElem inside)
  rw [setPosition, bind_ok (fetch_ok found)]
  simp only [above, place]
  rw [bind_ok (query_ok answered)]
  exact move_ok linked listed inside

/-- Where only one child stands elsewhere among its siblings, moving it back restores the forest. -/
theorem setPosition_restores (linked : before.Linked) (relinks : before.Relinks after)
    (linkedAfter : after.Linked) (listed : (before.childrenOf parent)[position]? = some id)
    (displaced : (after.childrenOf parent)[current]? = some id)
    (rest : (after.childrenOf parent).erase id = (before.childrenOf parent).erase id)
    (others : ∀ other, other ≠ parent → after.childrenOf other = before.childrenOf other) :
    setPosition id position after = .ok () before := by
  have held := Forest.holds_of_listed displaced
  have perm : (after.childrenOf parent).Perm (before.childrenOf parent) := by
    have outAfter := List.perm_cons_erase (List.mem_of_getElem? displaced)
    rw [rest] at outAfter
    exact outAfter.trans (List.perm_cons_erase (List.mem_of_getElem? listed)).symm
  obtain ⟨inside, entry⟩ := List.getElem?_eq_some_iff.mp listed
  rw [setPosition_ok linkedAfter displaced (by rwa [perm.length_eq]),
    eraseIdx_eq_erase (linkedAfter.nodup_childrenOf parent) displaced, rest,
    ← eraseIdx_eq_erase (linked.nodup_childrenOf parent) listed, ← entry,
    List.insertIdx_eraseIdx_getElem inside]
  congr 1
  apply (relinks.trans (.relist after parent _)).eq_of_childrenOf (.refl before)
    (linkedAfter.relist (linkedAfter.admits_perm held perm.symm)) linked
  intro other
  rw [Forest.childrenOf_relist held]
  split_ifs with same
  · rw [same]
  · exact others other same

/-- A child that has left its parent is added again. -/
theorem addChild_again (linked : before.Linked) {checkCycles : Bool}
    (acyclic : checkCycles = true → before.Acyclic) (member : id ∈ before.childrenOf parent) :
    addChild checkCycles parent id (before.uprooted id) =
      .ok () ((before.uprooted id).adopted parent id) := by
  have held := linked.holds_parent (linked.mem_childrenOf_iff.mp member)
  have solid := linked.solid_of_mem member
  rw [addChild_solid (linked.uprooted id) (by simpa using held) (by simpa using solid),
    linked.checkAttach_uprooted acyclic member]
  rfl

/-- A child that was added again returns from the end of the list to its place. -/
theorem setPosition_again (linked : before.Linked)
    (listed : (before.childrenOf parent)[position]? = some id) :
    setPosition id position ((before.uprooted id).adopted parent id) = .ok () before := by
  have member := List.mem_of_getElem? listed
  have held : (before.uprooted id).Holds parent := by simpa using Forest.holds_of_listed listed
  have solid : (before.uprooted id).Solid id := by simpa using linked.solid_of_mem member
  have lists := linked.childrenOf_readopted member
  have last := lists parent
  rw [if_pos rfl] at last
  have displaced : (((before.uprooted id).adopted parent id).childrenOf parent)[
      ((before.childrenOf parent).erase id).length]? = some id := by simp [last]
  have rest : (((before.uprooted id).adopted parent id).childrenOf parent).erase id =
      (before.childrenOf parent).erase id := by
    rw [last, List.erase_append_right _ (linked.nodup_childrenOf parent).not_mem_erase]
    simp
  exact setPosition_restores linked ((Forest.Relinks.uprooted before id).trans (.adopted _ parent id))
    ((linked.uprooted id).adopted held solid (linked.ne_of_mem member)) listed displaced rest
    fun other elsewhere => by rw [lists, if_neg elsewhere]

end EditM

namespace Builder

variable {builder : Builder}

/-- A node moves to a position inside the list of its siblings, and moving it back restores the
builder. -/
theorem Sound.perform_setPosition (sound : builder.Sound) {parent id : NodeId}
    {current position : Nat} (listed : (builder.forest.childrenOf parent)[current]? = some id)
    (inside : position < (builder.forest.childrenOf parent).length) :
    ∃ after, builder.perform (.edit (.setPosition id position)) =
        (.ok .done, { builder with forest := after }) ∧
      builder.forest.MovesSibling after parent id position ∧
      Builder.perform { builder with forest := after } (.edit (.setPosition id current)) =
        (.ok .done, builder) := by
  have linked := sound.linked
  have held := Forest.holds_of_listed listed
  have moves := linked.movesSibling listed inside
  have linkedMoved := linked.relist (linked.admits_perm held (perm_insertIdx_eraseIdx listed inside))
  have lists := Forest.childrenOf_relist held
    (((builder.forest.childrenOf parent).eraseIdx current).insertIdx position id)
  have ran := EditM.setPosition_ok linked listed inside
  have relinks := Forest.Relinks.relist builder.forest parent
    (((builder.forest.childrenOf parent).eraseIdx current).insertIdx position id)
  generalize builder.forest.relist parent _ = after at moves linkedMoved lists ran relinks
  have displaced : (after.childrenOf parent)[position]? = some id := by
    have length := List.length_erase_of_mem (List.mem_of_getElem? listed)
    rw [moves.children, List.getElem?_insertIdx_self, if_pos (by omega)]
  have rest : (after.childrenOf parent).erase id = (builder.forest.childrenOf parent).erase id := by
    rw [← eraseIdx_eq_erase (linkedMoved.nodup_childrenOf parent) displaced, moves.children,
      List.eraseIdx_insertIdx_self]
  have back := EditM.setPosition_restores linked relinks linkedMoved listed displaced rest
    fun other different => by rw [lists, if_neg different]
  exact ⟨after, perform_of_reply (EditM.map_ok ran fun _ => Reply.done), moves,
    perform_of_reply (EditM.map_ok back fun _ => Reply.done)⟩

/-- A deleted child is added again and moved to its old position. -/
theorem Sound.performEach_restore (sound : builder.Sound) {tree child : NodeId} {position : Nat}
    (listed : (builder.forest.childrenOf tree)[position]? = some child) :
    builder.performEach [.edit (.deleteChild tree position), .edit (.addChild tree child),
      .edit (.setPosition child position)] = (.ok (), builder) := by
  have linked := sound.linked
  have deleted : builder.perform (.edit (.deleteChild tree position)) = _ :=
    perform_of_reply (EditM.map_ok (EditM.deleteChild_ok linked listed) Reply.node)
  have added : Builder.perform { builder with forest := builder.forest.uprooted child }
      (.edit (.addChild tree child)) = _ :=
    perform_of_reply (EditM.map_ok (EditM.addChild_again linked sound.acyclic
      (List.mem_of_getElem? listed)) fun _ => Reply.done)
  have moved : Builder.perform
      { builder with forest := (builder.forest.uprooted child).adopted tree child }
      (.edit (.setPosition child position)) = _ :=
    perform_of_reply (EditM.map_ok (EditM.setPosition_again linked listed) fun _ => Reply.done)
  rw [performEach_cons deleted, performEach_cons added, performEach_cons moved]
  rfl

/-- In every reachable builder a node without a parent cannot be moved among siblings, and a node
with one cannot be moved beyond them. Every other move takes the node out of the list and puts it at
the new position, and the move back restores the builder. A deleted child that is added again and
moved to its old position restores the builder as well. -/
theorem sibling_moves_are_undone (reachable : builder.Reachable) :
    (∀ id record position, builder.forest.get? id = some record →
      ((builder.perform (.edit (.setPosition id position))).1 = .error (.refused .noParent) ↔
        record.parent = none) ∧
      ∀ parent, record.parent = some parent →
        ((builder.perform (.edit (.setPosition id position))).1 = .error (.refused
            (.indexOutOfRange position (builder.forest.childrenOf parent).length)) ↔
          (builder.forest.childrenOf parent).length ≤ position) ∧
        (position < (builder.forest.childrenOf parent).length →
          ∃ current after, record.position = some current ∧
            builder.perform (.edit (.setPosition id position)) =
              (.ok .done, { builder with forest := after }) ∧
            builder.forest.MovesSibling after parent id position ∧
            Builder.perform { builder with forest := after } (.edit (.setPosition id current)) =
              (.ok .done, builder))) ∧
    ∀ tree position, position < (builder.forest.childrenOf tree).length →
      ∃ child, (builder.forest.childrenOf tree)[position]? = some child ∧
        (builder.perform (.edit (.deleteChild tree position))).1 = .ok (.node child) ∧
        builder.performEach [.edit (.deleteChild tree position), .edit (.addChild tree child),
          .edit (.setPosition child position)] = (.ok (), builder) := by
  have sound := reachable.sound
  have linked := sound.linked
  refine ⟨fun id record position found => ?_, fun tree position inside => ?_⟩
  · cases above : record.parent with
    | none =>
        have stopped : (Edit.setPosition id position).apply builder.options.checkCycles
            builder.forest = _ :=
          EditM.map_error (EditM.setPosition_of_root found above) fun _ => Reply.done
        rw [perform_of_stop stopped]
        simp
    | some parent =>
        obtain ⟨node, current, foundParent, place, listed⟩ := linked.up id record parent found above
        rw [← Forest.childrenOf_eq foundParent] at listed
        rcases Nat.lt_or_ge position (builder.forest.childrenOf parent).length with inside | outside
        · obtain ⟨after, replied, moves, back⟩ := sound.perform_setPosition listed inside
          rw [replied]
          refine ⟨by simp, fun other same => ?_⟩
          cases same
          exact ⟨iff_of_false (by simp) (by omega),
            fun _ => ⟨current, after, place, rfl, moves, back⟩⟩
        · have stopped : (Edit.setPosition id position).apply builder.options.checkCycles
              builder.forest = _ :=
            EditM.map_error (EditM.setPosition_of_outside linked listed outside) fun _ => Reply.done
          rw [perform_of_stop stopped]
          refine ⟨by simp, fun other same => ?_⟩
          cases same
          exact ⟨iff_of_true rfl outside, fun inside => by omega⟩
  · have listed := List.getElem?_eq_getElem inside
    refine ⟨_, listed, ?_, sound.performEach_restore listed⟩
    have deleted : builder.perform (.edit (.deleteChild tree position)) = _ :=
      perform_of_reply (EditM.map_ok (EditM.deleteChild_ok linked listed) Reply.node)
    rw [deleted]

/-- The first of three siblings moves to the end and back, and the last one is deleted and restored.
A root has no siblings, and there is no fourth position. In the knot, where the parent lies below its
own child, a child is restored as well. -/
theorem sibling_moves_are_undone_thicket :
    (∃ after, thicket.perform (.edit (.setPosition ⟨1⟩ 2)) =
        (.ok .done, { thicket with forest := after }) ∧
      after.childrenOf ⟨0⟩ = [⟨2⟩, ⟨3⟩, ⟨1⟩] ∧
      after.get? ⟨3⟩ = some { content := .token (.imaginary 4 "d"), parent := some ⟨0⟩,
                              position := some 1 } ∧
      after.get? ⟨4⟩ = thicket.forest.get? ⟨4⟩ ∧
      Builder.perform { thicket with forest := after } (.edit (.setPosition ⟨1⟩ 0)) =
        (.ok .done, thicket)) ∧
    (thicket.perform (.edit (.setPosition ⟨0⟩ 0))).1 = .error (.refused .noParent) ∧
    (thicket.perform (.edit (.setPosition ⟨1⟩ 3))).1 =
      .error (.refused (.indexOutOfRange 3 3)) ∧
    thicket.performEach [.edit (.deleteChild ⟨0⟩ 2), .edit (.addChild ⟨0⟩ ⟨3⟩),
      .edit (.setPosition ⟨3⟩ 2)] = (.ok (), thicket) ∧
    knot.performEach [.edit (.deleteChild ⟨0⟩ 0), .edit (.addChild ⟨0⟩ ⟨1⟩),
      .edit (.setPosition ⟨1⟩ 0)] = (.ok (), knot) := by
  obtain ⟨moves, restores⟩ := sibling_moves_are_undone reachable_thicket
  refine ⟨?_, ?_, ?_, ?_, ?_⟩
  · obtain ⟨current, after, place, replied, moved, back⟩ :=
      ((moves ⟨1⟩ _ 2 rfl).2 ⟨0⟩ rfl).2 (by decide)
    cases place
    have children : after.childrenOf ⟨0⟩ = [⟨2⟩, ⟨3⟩, ⟨1⟩] := moved.children
    obtain ⟨record, found, _, changed⟩ := moved.places 1 ⟨3⟩ (by rw [children]; rfl)
    cases found
    exact ⟨after, replied, children, changed, moved.others ⟨4⟩ (by decide) (by decide), back⟩
  · exact (moves ⟨0⟩ _ 0 rfl).1.mpr rfl
  · exact ((moves ⟨1⟩ _ 3 rfl).2 ⟨0⟩ rfl).1.mpr (by decide)
  · obtain ⟨child, listed, _, restored⟩ := restores ⟨0⟩ 2 (by decide)
    cases listed
    exact restored
  · obtain ⟨child, listed, _, restored⟩ :=
      (sibling_moves_are_undone reachable_knot).2 ⟨0⟩ 0 (by decide)
    cases listed
    exact restored

end Builder

end SyntaxForest
