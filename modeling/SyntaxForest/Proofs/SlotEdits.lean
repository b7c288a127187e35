import SyntaxForest.Proofs.Persistence
import SyntaxForest.Proofs.Replacement

/-!
Edits of one slot of a child list. Setting a child and deleting one do what the replacement of the
range that holds this slot alone does, with the child or with an empty list.
-/

namespace SyntaxForest

/-- Putting a node in the slot of another one, once it has left the list, places it between what is
left on both sides of the slot. -/
theorem set_erase_eq_placedBetween {front back : List NodeId} {displaced child : NodeId}
    {slot : Nat} (nodup : (front ++ displaced :: back).Nodup) (apart : displaced ≠ child)
    (listed : ((front ++ displaced :: back).erase child)[slot]? = some displaced) :
    ((front ++ displaced :: back).erase child).set slot child =
      placedBetween front [child] back := by
  have others : (fun id => id != child) = fun id => decide (id ∉ [child]) := by
    funext id
    by_cases same : id = child <;> simp [same]
  have left : (front ++ displaced :: back).erase child =
      front.filter (fun id => id ∉ [child]) ++ displaced :: back.filter fun id => id ∉ [child] := by
    rw [nodup.erase_eq_filter, others, List.filter_append,
      List.filter_cons_of_pos (by simpa using apart)]
  have nodupLeft := nodup.erase child
  rw [left] at listed nodupLeft ⊢
  have here : (front.filter (fun id => id ∉ [child]) ++
      displaced :: back.filter fun id => id ∉ [child])[
      (front.filter fun id => id ∉ [child]).length]? = some displaced := by simp
  obtain ⟨inside, _⟩ := List.getElem?_eq_some_iff.mp here
  have slotIs := (List.getElem?_inj inside nodupLeft).mp (here.trans listed.symm)
  rw [← slotIs, List.set_append_right _ _ (Nat.le_refl _), Nat.sub_self, List.set_cons_zero,
    placedBetween, List.append_assoc, List.singleton_append]

/-- A node that comes in for itself stays between its siblings. -/
theorem placedBetween_self {front back : List NodeId} {child : NodeId}
    (nodup : (front ++ child :: back).Nodup) :
    placedBetween front [child] back = front ++ child :: back := by
  have absent := (List.nodup_cons.mp (List.nodup_middle.mp nodup)).1
  rw [List.mem_append, not_or] at absent
  have stays {ids : List NodeId} (outside : child ∉ ids) :
      ids.filter (fun id => id ∉ [child]) = ids := by
    rw [List.filter_eq_self]
    intro id member
    simpa using fun same : id = child => outside (same ▸ member)
  rw [placedBetween, stays absent.1, stays absent.2, List.append_assoc, List.singleton_append]

/-- A node with an entry in its child list is held. -/
theorem Forest.holds_of_listed {forest : Forest} {parent child : NodeId} {position : Nat}
    (listed : (forest.childrenOf parent)[position]? = some child) : forest.Holds parent := by
  by_contra missing
  simp [childrenOf, get?_eq_none missing] at listed

/-- A child of one node stands in no other list. -/
theorem Forest.Linked.erase_elsewhere {forest : Forest} (linked : forest.Linked)
    {parent child other : NodeId} (member : child ∈ forest.childrenOf parent)
    (different : other ≠ parent) :
    (forest.childrenOf other).erase child = forest.childrenOf other := by
  apply List.erase_of_not_mem
  intro again
  rw [linked.mem_childrenOf_iff] at member again
  rw [member, Option.some.injEq] at again
  exact different again.symm

/-- A concrete replacement is gone from every list but the one of its new parent. -/
theorem Forest.ReplacesRange.childrenOf_eq_erase {before after : Forest}
    {parent replacement other : NodeId} {start stop : Nat} {source : Node}
    (replaces : before.ReplacesRange after parent start stop replacement source)
    (concrete : source.content.isNil = false) (different : other ≠ parent) :
    after.childrenOf other = (before.childrenOf other).erase replacement := by
  by_cases member : replacement ∈ before.childrenOf other
  · exact replaces.left concrete other (by simpa using different) member
  · rw [List.erase_of_not_mem member]
    exact replaces.others other (by simpa using different) (by simp [concrete]) fun _ => member

namespace EditM

variable {before : Forest} {checkCycles : Bool} {tree displaced child : NodeId} {position : Nat}

theorem map_congr {α β : Type} {edit other : EditM α} (same : edit before = other before)
    (change : α → β) : (change <$> edit) before = (change <$> other) before := by
  change EStateM.map change edit before = EStateM.map change other before
  simp only [EStateM.map, same]

theorem deleteChild_ok (linked : before.Linked)
    (listed : (before.childrenOf tree)[position]? = some displaced) :
    deleteChild tree position before = .ok displaced (before.uprooted displaced) := by
  have member := List.mem_of_getElem? listed
  rw [deleteChild, bind_ok (query_ok (Forest.childAt_eq_ok (Forest.holds_of_listed listed) listed)),
    bind_ok (detach_ok linked (linked.solid_of_mem member).holds)]
  rfl

/-- The replacement of a slot relinks the forest once the check has passed, and what comes in for
the other node then fills the slot. -/
theorem replaceSlot_eq (linked : before.Linked) {node : Node}
    (listed : (before.childrenOf tree)[position]? = some displaced)
    (found : before.get? child = some node) (different : child ≠ tree) :
    ∃ after, replaceChildren checkCycles tree position position child before =
        concluded (before.checkAttach checkCycles tree (node.incoming child)) () before after ∧
      before.Relinks after ∧
      (tree ∉ node.incoming child →
        before.ReplacesRange after tree position position child node) := by
  have held := Forest.holds_of_listed listed
  obtain ⟨inside, _⟩ := List.getElem?_eq_some_iff.mp listed
  refine ⟨_, replaceChildren_eq linked held (Nat.le_refl position) inside different found, ?_, ?_⟩
  · exact ((Forest.Relinks.released before child node).trans (.uprootedEach _ _)).trans
      (.relist _ _ _)
  · exact linked.replacesRange held (Nat.le_refl position) different found

/-- A child that is put in a slot stands between what is left on both sides of it, and no other
list keeps it. -/
theorem exists_setChild_eq (linked : before.Linked) {node : Node}
    (listed : (before.childrenOf tree)[position]? = some displaced)
    (found : before.get? child = some node) (concrete : node.content.isNil = false) :
    ∃ after, setChild checkCycles tree position child before =
        concluded (before.checkAttach checkCycles tree [child]) () before after ∧
      before.Relinks after ∧ (child ≠ tree → after.Linked) ∧
      ∀ other, after.childrenOf other = if other = tree then
        placedBetween ((before.childrenOf tree).take position) [child]
          ((before.childrenOf tree).drop (position + 1))
        else (before.childrenOf other).erase child := by
  have member := List.mem_of_getElem? listed
  have held := Forest.holds_of_listed listed
  refine ⟨_, setChild_eq linked held listed found concrete, ?_⟩
  have nodup := linked.nodup_childrenOf tree
  obtain ⟨front, back, children, rfl⟩ := exists_append_of_getElem? listed
  rw [children] at nodup
  have split : (front ++ displaced :: back).take front.length = front ∧
      (front ++ displaced :: back).drop (front.length + 1) = back := by simp
  rw [children, split.1, split.2]
  split_ifs with same
  · subst same
    refine ⟨.refl before, fun _ => linked, fun other => ?_⟩
    split_ifs with isTree
    · rw [isTree, children, placedBetween_self nodup]
    · rw [linked.erase_elsewhere member isTree]
  · have slotListed := getElem?_slotAfterLeaving linked found listed same
    refine ⟨(Forest.Relinks.uprooted before child).trans (.relist _ _ _), ?_, fun other => ?_⟩
    · intro different
      rw [← children]
      exact (linked.uprooted child).relist
        (admits_substitute linked held listed found concrete different same)
    · rw [children] at slotListed
      rw [Forest.childrenOf_relist (by simpa using held), linked.childrenOf_uprooted,
        set_erase_eq_placedBetween nodup same slotListed]

/-- Setting a child is the replacement of its slot. -/
theorem setChild_eq_replaceChildren (linked : before.Linked)
    (listed : (before.childrenOf tree)[position]? = some displaced) (solid : before.Solid child) :
    setChild checkCycles tree position child before =
      replaceChildren checkCycles tree position position child before := by
  have held := Forest.holds_of_listed listed
  obtain ⟨node, found, concrete⟩ := solid
  have single := Node.incoming_of_concrete concrete child
  obtain ⟨inside, _⟩ := List.getElem?_eq_some_iff.mp listed
  obtain ⟨after, set, relinks, linkedAfter, lists⟩ :=
    exists_setChild_eq linked listed found concrete
  rw [set]
  by_cases own : child = tree
  · subst own
    rw [replaceChildren_of_same held (by omega), Forest.checkAttach, if_pos rfl]
    rfl
  · obtain ⟨other, replaced, relinksOther, replaces⟩ := replaceSlot_eq linked listed found own
    have replaces := replaces (by simpa [single] using Ne.symm own)
    rw [replaced, single]
    congr 1
    apply relinks.eq_of_childrenOf relinksOther (linkedAfter own) replaces.linked
    intro id
    rw [lists]
    split_ifs with isTree
    · rw [isTree, replaces.children, single, placedBetween]
    · exact (replaces.childrenOf_eq_erase concrete isTree).symm

/-- Deleting a child is the replacement of its slot by an empty list. -/
theorem replaceChildren_empty (linked : before.Linked) {node : Node}
    (listed : (before.childrenOf tree)[position]? = some displaced)
    (found : before.get? child = some node) (nil : node.content.isNil = true)
    (childless : node.children = []) :
    replaceChildren checkCycles tree position position child before =
      .ok () (before.uprooted displaced) := by
  have nothing : node.incoming child = [] := (Node.incoming_of_nil nil child).trans childless
  have different : child ≠ tree := by
    rintro rfl
    rw [Forest.childrenOf_eq found, childless] at listed
    simp at listed
  obtain ⟨after, replaced, relinks, replaces⟩ := replaceSlot_eq linked listed found different
  have replaces := replaces (by simp [nothing])
  rw [replaced, nothing]
  change EStateM.Result.ok () after = _
  congr 1
  apply relinks.eq_of_childrenOf (.uprooted before displaced) replaces.linked
    (linked.uprooted displaced)
  intro id
  rw [linked.childrenOf_uprooted]
  by_cases isTree : id = tree
  · have nodup := linked.nodup_childrenOf tree
    have children := replaces.children
    obtain ⟨front, back, split, rfl⟩ := exists_append_of_getElem? listed
    rw [split] at nodup
    have absent := (List.nodup_cons.mp (List.nodup_middle.mp nodup)).1
    rw [List.mem_append, not_or] at absent
    rw [isTree, children, nothing, split, List.erase_append_right _ absent.1, List.erase_cons_head]
    simp
  · rw [linked.erase_elsewhere (List.mem_of_getElem? listed) isTree]
    by_cases isList : id = child
    · rw [isList, replaces.emptied nil, Forest.childrenOf_eq found, childless]
    · exact replaces.others id (by simpa using isTree) (fun _ => isList) (by simp [nil])

end EditM

namespace Builder

variable {builder : Builder}

/-- Edits that end alike are performed alike. -/
theorem perform_congr {first second : Edit}
    (same : first.apply builder.options.checkCycles builder.forest =
      second.apply builder.options.checkCycles builder.forest) :
    builder.perform (.edit first) = builder.perform (.edit second) := by
  simp only [perform, same]

/-- In every reachable builder an edit of one slot is the replacement of the range that holds this
slot alone. Setting a concrete child ends as its replacement does, with a reply or with one of two
refusals. Deleting the child returns it, and leaves what the replacement by any empty list leaves.
-/
theorem slot_edits_are_replacements (reachable : builder.Reachable) {tree displaced : NodeId}
    {position : Nat}
    (listed : (builder.forest.childrenOf tree)[position]? = some displaced) :
    (∀ child, builder.forest.Solid child →
      builder.perform (.edit (.setChild tree position child)) =
        builder.perform (.edit (.replaceChildren tree position position child)) ∧
      (builder.perform (.edit (.setChild tree position child))).1 ∈
        [.ok .done, .error (.refused .selfChild), .error (.refused .cycle)]) ∧
    ∃ after, builder.perform (.edit (.deleteChild tree position)) =
        (.ok (.node displaced), { builder with forest := after }) ∧
      ∀ list node, builder.forest.get? list = some node → node.content.isNil = true →
        node.children = [] →
        builder.perform (.edit (.replaceChildren tree position position list)) =
          (.ok .done, { builder with forest := after }) := by
  have sound := reachable.sound
  have held := Forest.holds_of_listed listed
  refine ⟨fun child solid => ⟨?_, ?_⟩, builder.forest.uprooted displaced, ?_, ?_⟩
  · exact perform_congr (EditM.map_congr
      (EditM.setChild_eq_replaceChildren sound.linked listed solid) fun _ => Reply.done)
  · obtain ⟨node, found, concrete⟩ := solid
    have single := Node.incoming_of_concrete concrete child
    have applied : (Edit.setChild tree position child).apply builder.options.checkCycles
        builder.forest = _ :=
      EditM.map_concluded (EditM.setChild_eq sound.linked held listed found concrete)
        fun _ => Reply.done
    rw [← single] at applied
    obtain ⟨_, verdict⟩ | ⟨_, ⟨_, verdict⟩ | ⟨_, verdict⟩⟩ :=
      sound.linked.checkAttach_cases sound.acyclic held found
    · rw [verdict, EditM.concluded] at applied
      simp [perform_of_stop applied]
    · rw [verdict, EditM.concluded] at applied
      simp [perform_of_stop applied]
    · rw [verdict, EditM.concluded] at applied
      simp [perform_of_reply applied]
  · exact perform_of_reply (EditM.map_ok (EditM.deleteChild_ok sound.linked listed) Reply.node)
  · intro list node found nil childless
    exact perform_of_reply (EditM.map_ok
      (EditM.replaceChildren_empty sound.linked listed found nil childless) fun _ => Reply.done)

/-- The left sibling, the child itself, the right sibling and a node below the left sibling are set
in the middle slot, and the parent itself is refused there. The child is deleted as by an empty
list. -/
theorem slot_edits_are_replacements_thicket :
    (∀ child ∈ [(⟨1⟩ : NodeId), ⟨2⟩, ⟨3⟩, ⟨4⟩, ⟨0⟩],
      thicket.perform (.edit (.setChild ⟨0⟩ 1 child)) =
        thicket.perform (.edit (.replaceChildren ⟨0⟩ 1 1 child))) ∧
    (thicket.perform (.edit (.setChild ⟨0⟩ 1 ⟨1⟩))).2.forest.childrenOf ⟨0⟩ = [⟨1⟩, ⟨3⟩] ∧
    (thicket.perform (.edit (.setChild ⟨0⟩ 1 ⟨0⟩))).1 = .error (.refused .selfChild) ∧
    ∃ after, thicket.perform (.edit (.deleteChild ⟨0⟩ 1)) =
        (.ok (.node ⟨2⟩), { thicket with forest := after }) ∧
      thicket.perform (.edit (.replaceChildren ⟨0⟩ 1 1 ⟨7⟩)) =
        (.ok .done, { thicket with forest := after }) := by
  have listed : (thicket.forest.childrenOf ⟨0⟩)[1]? = some ⟨2⟩ := rfl
  have solid : ∀ child ∈ [(⟨1⟩ : NodeId), ⟨2⟩, ⟨3⟩, ⟨4⟩, ⟨0⟩], thicket.forest.Solid child := by
    simp only [List.forall_mem_cons]
    exact ⟨⟨_, rfl, rfl⟩, ⟨_, rfl, rfl⟩, ⟨_, rfl, rfl⟩, ⟨_, rfl, rfl⟩, ⟨_, rfl, rfl⟩, by simp⟩
  obtain ⟨set, after, deleted, replaced⟩ := slot_edits_are_replacements reachable_thicket listed
  exact ⟨fun child member => (set child (solid child member)).1, rfl, rfl, after, deleted,
    replaced ⟨7⟩ _ rfl rfl rfl⟩

end Builder

end SyntaxForest
