import SyntaxForest.Edit.Children
import SyntaxForest.Proofs.Attaching

/-!
What the edits among the children of a node leave behind. Each of them ends in one relisting, whose
new child list is written in terms of the old one.
-/

namespace SyntaxForest

theorem mem_middle {front back : List NodeId} {middle id : NodeId} :
    id ∈ front ++ middle :: back ↔ id = middle ∨ id ∈ front ++ back := by
  rw [List.perm_middle.mem_iff, List.mem_cons]

namespace Forest

variable {forest : Forest} {handles : List NodeId}

theorem blames_childAt (forest : Forest) {tree : NodeId}
    (listed : forest.Holds tree ∨ tree ∈ handles) (position : Nat) :
    forest.Blames handles (forest.childAt tree position) := by
  apply Blames.bind (forest.blames_fetch listed)
  intro node _
  split
  · exact .ok _
  · exact .refused _

/-- An answered child stands at the position asked for. -/
theorem getElem?_of_childAt {tree child : NodeId} {position : Nat}
    (answered : forest.childAt tree position = .ok child) :
    forest.Holds tree ∧ (forest.childrenOf tree)[position]? = some child := by
  obtain ⟨node, fetched, answered⟩ := answer_of_bind answered
  have found := get?_of_fetch fetched
  rw [childrenOf_eq found]
  split at answered
  · next listed =>
      cases answered
      exact ⟨holds_of_get? found, listed⟩
  · contradiction

theorem childAt_eq_ok {tree child : NodeId} {position : Nat} (held : forest.Holds tree)
    (listed : (forest.childrenOf tree)[position]? = some child) :
    forest.childAt tree position = .ok child := by
  obtain ⟨node, found⟩ := (forest.holds_iff tree).mp held
  rw [childrenOf_eq found] at listed
  rw [childAt, fetch_eq_ok found]
  simp only [Bind.bind, Except.bind, listed, Pure.pure, Except.pure]

theorem childAt_eq_error {tree : NodeId} {position : Nat} (held : forest.Holds tree)
    (outside : (forest.childrenOf tree).length ≤ position) :
    forest.childAt tree position =
      .error (.refused (.indexOutOfRange position (forest.childrenOf tree).length)) := by
  obtain ⟨node, found⟩ := (forest.holds_iff tree).mp held
  rw [childrenOf_eq found] at outside ⊢
  rw [childAt, fetch_eq_ok found]
  simp only [Bind.bind, Except.bind, List.getElem?_eq_none outside]

/-- Rearranged children are admissible. -/
theorem Linked.admits_perm (linked : forest.Linked) {parent : NodeId}
    (held : forest.Holds parent) {children : List NodeId}
    (perm : children.Perm (forest.childrenOf parent)) : forest.Admits parent children where
  held := held
  nodup := perm.nodup_iff.mpr (linked.nodup_childrenOf parent)
  solid _ member := linked.solid_of_mem (perm.mem_iff.mp member)
  different _ member := linked.ne_of_mem (perm.mem_iff.mp member)
  free _ member := .inl (perm.mem_iff.mp member)

/-- A root can take the place of any child. -/
theorem Linked.admits_exchange (linked : forest.Linked) {parent child displaced : NodeId}
    {front back : List NodeId} (held : forest.Holds parent) (solid : forest.Solid child)
    (different : child ≠ parent) (isRoot : forest.parentOf child = none)
    (children : forest.childrenOf parent = front ++ displaced :: back) :
    forest.Admits parent (front ++ child :: back) := by
  have kept : ∀ other ∈ front ++ back, other ∈ forest.childrenOf parent := by
    intro other member
    rw [children]
    rcases List.mem_append.mp member with inFront | inBack
    · exact List.mem_append_left _ inFront
    · exact List.mem_append_right _ (List.mem_cons_of_mem _ inBack)
  have absent : child ∉ front ++ back := by
    intro member
    rw [linked.mem_childrenOf_iff.mp (kept child member)] at isRoot
    contradiction
  refine ⟨held, ?_, ?_, ?_, ?_⟩
  · have nodup := linked.nodup_childrenOf parent
    rw [children, List.nodup_middle, List.nodup_cons] at nodup
    exact List.nodup_middle.mpr (List.nodup_cons.mpr ⟨absent, nodup.2⟩)
  · intro other member
    rcases mem_middle.mp member with rfl | inside
    · exact solid
    · exact linked.solid_of_mem (kept other inside)
  · intro other member
    rcases mem_middle.mp member with rfl | inside
    · exact different
    · exact linked.ne_of_mem (kept other inside)
  · intro other member
    rcases mem_middle.mp member with rfl | inside
    · exact .inr isRoot
    · exact .inl (kept other inside)

end Forest

/-- An entry divides its list. -/
theorem exists_append_of_getElem? {ids : List NodeId} {position : Nat} {id : NodeId}
    (listed : ids[position]? = some id) :
    ∃ front back, ids = front ++ id :: back ∧ front.length = position := by
  obtain ⟨inside, rfl⟩ := List.getElem?_eq_some_iff.mp listed
  refine ⟨ids.take position, ids.drop (position + 1), ?_, ?_⟩
  · rw [List.getElem_cons_drop, List.take_append_drop]
  · rw [List.length_take, Nat.min_eq_left (Nat.le_of_lt inside)]

/-- The other entries of a list keep their places when one entry is exchanged. -/
theorem idxOf_exchange {front back : List NodeId} {old new id : NodeId}
    (different : id ≠ old) (differentNew : id ≠ new) :
    (front ++ new :: back).idxOf id = (front ++ old :: back).idxOf id := by
  by_cases inFront : id ∈ front
  · rw [List.idxOf_append_of_mem inFront, List.idxOf_append_of_mem inFront]
  · rw [List.idxOf_append_of_notMem inFront, List.idxOf_append_of_notMem inFront,
      List.idxOf_cons_ne _ different.symm, List.idxOf_cons_ne _ differentNew.symm]

/-- Only the displaced entry leaves the list. -/
theorem eq_displaced_iff {front back : List NodeId} {displaced child id : NodeId}
    (nodup : (front ++ displaced :: back).Nodup) (apart : displaced ≠ child) :
    id = displaced ↔ id ∈ front ++ displaced :: back ∧ id ∉ front ++ child :: back := by
  have absent := (List.nodup_cons.mp (List.nodup_middle.mp nodup)).1
  rw [mem_middle, mem_middle]
  constructor
  · rintro rfl
    exact ⟨.inl rfl, not_or.mpr ⟨apart, absent⟩⟩
  · rintro ⟨same | inside, outside⟩
    · exact same
    · exact absurd (.inr inside) outside

/-- Taking an entry out of a list and putting it back elsewhere rearranges the list. -/
theorem perm_insertIdx_eraseIdx {ids : List NodeId} {current position : Nat} {id : NodeId}
    (listed : ids[current]? = some id) (inside : position < ids.length) :
    ((ids.eraseIdx current).insertIdx position id).Perm ids := by
  obtain ⟨insideCurrent, rfl⟩ := List.getElem?_eq_some_iff.mp listed
  have room : position ≤ (ids.eraseIdx current).length := by
    rw [List.length_eraseIdx_of_lt insideCurrent]
    omega
  exact (List.perm_insertIdx _ _ room).trans (List.getElem_cons_eraseIdx_perm insideCurrent)

namespace EditM

variable {before : Forest} {checkCycles : Bool}

theorem insertAt_ok {parent child : NodeId} {node : Node} {position : Nat}
    (found : before.get? parent = some node) (inside : position ≤ node.children.length) :
    insertAt parent position child before = .ok () (before.modify parent fun record =>
      record.withChildren (node.children.insertIdx position child)) := by
  rw [insertAt, bind_ok (fetch_ok found), if_neg (by omega)]
  exact setChildren_ok (Forest.holds_of_get? found) _

theorem putAt_ok {parent child : NodeId} {node : Node} {position : Nat}
    (found : before.get? parent = some node) (inside : position < node.children.length) :
    putAt parent position child before = .ok () (before.modify parent fun record =>
      record.withChildren (node.children.set position child)) := by
  rw [putAt, bind_ok (fetch_ok found), if_neg (by omega)]
  exact setChildren_ok (Forest.holds_of_get? found) _

theorem splice_ok {parent : NodeId} {node : Node} {position count : Nat}
    (found : before.get? parent = some node) (inside : position + count ≤ node.children.length)
    (incoming : List NodeId) :
    splice parent position count incoming before = .ok () (before.modify parent fun record =>
      record.withChildren (node.children.take position ++ incoming ++
        node.children.drop (position + count))) := by
  rw [splice, bind_ok (fetch_ok found), if_neg (by omega)]
  exact setChildren_ok (Forest.holds_of_get? found) _

/-- The later of two child lists counts. -/
theorem modify_withChildren_twice (forest : Forest) (parent : NodeId)
    (first second : List NodeId) :
    (forest.modify parent fun record => record.withChildren first).modify parent
        (fun record => record.withChildren second) =
      forest.modify parent fun record => record.withChildren second := by
  apply Forest.ext_get?
  intro id
  rw [Forest.get?_modify, Forest.get?_modify, Forest.get?_modify]
  split_ifs
  · rw [Option.map_map]
    rfl
  · rfl

/-- A deleted child is uprooted. -/
theorem deleteChild_ensures (linked : before.Linked) (tree : NodeId) (position : Nat) :
    (deleteChild tree position).Ensures before [tree] fun child after =>
      (before.childrenOf tree)[position]? = some child ∧ after = before.uprooted child := by
  apply Ensures.bind_query (before.blames_childAt (.inr List.mem_cons_self) position)
  intro child answered
  have listed := (Forest.getElem?_of_childAt answered).2
  have solid := linked.solid_of_mem (List.mem_of_getElem? listed)
  apply Ensures.bind_ok (detach_ok linked solid.holds) (by simp)
  exact .pure ⟨listed, rfl⟩

theorem deleteChild_follows (linked : before.Linked) (tree : NodeId) (position : Nat) :
    (deleteChild tree position).Ensures before [tree] fun _ after =>
      after.Follows checkCycles before := by
  refine (deleteChild_ensures linked tree position).mono (List.Subset.refl _) ?_
  rintro child after ⟨_, rfl⟩
  exact (linked.narrows_uprooted child).follows (linked.uprooted child) checkCycles

/-- A child is taken out of the list and put back at another position. -/
theorem move_ok (linked : before.Linked) {parent id : NodeId} {current position : Nat}
    (listed : (before.childrenOf parent)[current]? = some id)
    (inside : position < (before.childrenOf parent).length) :
    (do
      let moved ← removeAt parent current
      insertAt parent position moved
      renumber parent (min current position) : EditM Unit) before =
      .ok () (before.relist parent
        (((before.childrenOf parent).eraseIdx current).insertIdx position id)) := by
  have above := linked.mem_childrenOf_iff.mp (List.mem_of_getElem? listed)
  obtain ⟨node, found⟩ := (before.holds_iff parent).mp (linked.holds_parent above)
  have held := Forest.holds_of_get? found
  have childrenEq := Forest.childrenOf_eq found
  have room : position ≤ ((before.childrenOf parent).eraseIdx current).length := by
    obtain ⟨insideCurrent, _⟩ := List.getElem?_eq_some_iff.mp listed
    rw [List.length_eraseIdx_of_lt insideCurrent]
    omega
  have foundAgain : (before.modify parent fun record => record.withChildren
      ((before.childrenOf parent).eraseIdx current)).get? parent =
      some (node.withChildren ((before.childrenOf parent).eraseIdx current)) := by
    rw [Forest.get?_modify, if_pos rfl, found, Option.map_some]
  have perm := perm_insertIdx_eraseIdx listed inside
  have admits := linked.admits_perm held perm
  obtain ⟨after, renumbered, moved⟩ := moved_renumber (moved_withChildren before parent _) held
    admits.nodup (fun child member => (admits.solid child member).holds) (min current position)
  rw [bind_ok (removeAt_ok found (childrenEq ▸ listed)), ← childrenEq,
    bind_ok (insertAt_ok foundAgain room), modify_withChildren_twice]
  refine renumbered.trans (congrArg _ ?_)
  apply linked.eq_relist_of_moved moved
  · intro child member
    exact List.mem_of_mem_drop (by simpa using member)
  · intro child member early
    apply place_of_take_eq _ member (by simpa using early)
    rw [List.take_insertIdx_eq_take_of_le _ _ _ _ (Nat.min_le_right _ _),
      List.take_eraseIdx_eq_take_of_le _ _ _ (Nat.min_le_left _ _)]
  · intro child
    rw [perm.mem_iff]
    simp

/-- A node moves among its siblings. -/
theorem setPosition_ensures (linked : before.Linked) (id : NodeId) (position : Nat) :
    (setPosition id position).Ensures before [id] fun _ after =>
      ∃ parent current, (before.childrenOf parent)[current]? = some id ∧
        position < (before.childrenOf parent).length ∧
        after = before.relist parent
          (((before.childrenOf parent).eraseIdx current).insertIdx position id) := by
  apply Ensures.bind_fetch (.inr List.mem_cons_self)
  intro record found
  split
  · next parent current above place =>
      obtain ⟨node, recorded, foundParent, same, listed⟩ := linked.up id record parent found above
      rw [place, Option.some.injEq] at same
      subst recorded
      rw [← Forest.childrenOf_eq foundParent] at listed
      apply Ensures.bind_query
        (before.blames_childAt (.inl (Forest.holds_of_get? foundParent)) position)
      intro other answered
      obtain ⟨inside, _⟩ := List.getElem?_eq_some_iff.mp (Forest.getElem?_of_childAt answered).2
      exact .of_ok (move_ok linked listed inside) (by simp)
        ⟨parent, current, listed, inside, rfl⟩
  · exact .refuse .noParent

theorem setPosition_follows (linked : before.Linked) (id : NodeId) (position : Nat) :
    (setPosition id position).Ensures before [id] fun _ after =>
      after.Follows checkCycles before := by
  refine (setPosition_ensures linked id position).mono (List.Subset.refl _) ?_
  rintro _ after ⟨parent, current, listed, inside, rfl⟩
  have above := linked.mem_childrenOf_iff.mp (List.mem_of_getElem? listed)
  have perm := perm_insertIdx_eraseIdx listed inside
  have passed : before.checkAttach checkCycles parent [] = .ok () := rfl
  exact linked.follows_relist (fun _ _ link => link)
    (linked.admits_perm (linked.holds_parent above) perm) passed
    fun child member => .inl (perm.mem_iff.mp member)

/-- Once the child has left its old place, the displaced node stands in the slot. -/
theorem getElem?_slotAfterLeaving (linked : before.Linked) {tree child displaced : NodeId}
    {position : Nat} {node : Node} (found : before.get? child = some node)
    (listed : (before.childrenOf tree)[position]? = some displaced)
    (different : displaced ≠ child) :
    ((before.childrenOf tree).erase child)[node.slotAfterLeaving tree position]? =
      some displaced := by
  by_cases member : child ∈ before.childrenOf tree
  · obtain ⟨above, place⟩ := linked.place_of_mem found member
    have entry := List.getElem?_idxOf member
    rw [← List.eraseIdx_idxOf_eq_erase, List.getElem?_eraseIdx]
    generalize (before.childrenOf tree).idxOf child = current at place entry ⊢
    have apart : current ≠ position := by
      rintro rfl
      rw [listed, Option.some.injEq] at entry
      exact different entry
    simp only [Node.slotAfterLeaving, above, place, true_and]
    split_ifs with left
    · omega
    · rw [Nat.sub_add_cancel (by omega), listed]
    · exact listed
    · omega
  · have stays : node.slotAfterLeaving tree position = position := by
      have above : node.parent ≠ some tree := by
        rwa [linked.mem_childrenOf_iff, Forest.parentOf_eq found] at member
      unfold Node.slotAfterLeaving
      split
      · next parent current isParent _ =>
          rw [if_neg]
          rintro ⟨rfl, _⟩
          exact above isParent
      · rfl
    rw [List.erase_of_not_mem member, stays, listed]

/-- A root takes the place of a child, which becomes a root. -/
theorem exchange_ok (linked : before.Linked) {parent child displaced : NodeId} {slot : Nat}
    (held : before.Holds parent) (solid : before.Solid child) (different : child ≠ parent)
    (isRoot : before.parentOf child = none)
    (listed : (before.childrenOf parent)[slot]? = some displaced) :
    (do
      putAt parent slot child
      unplace displaced
      place child parent slot : EditM Unit) before =
      .ok () (before.relist parent ((before.childrenOf parent).set slot child)) := by
  obtain ⟨front, back, children, rfl⟩ := exists_append_of_getElem? listed
  have admits := linked.admits_exchange held solid different isRoot children
  have exchanged : (before.childrenOf parent).set front.length child = front ++ child :: back := by
    rw [children]
    simp
  obtain ⟨node, found⟩ := (before.holds_iff parent).mp held
  have childrenEq := Forest.childrenOf_eq found
  have inside : front.length < node.children.length := by
    rw [← childrenEq, children]
    simp
  have place : (front ++ child :: back).idxOf child = front.length := by
    have fresh := (List.nodup_cons.mp (List.nodup_middle.mp admits.nodup)).1
    rw [List.idxOf_append_of_notMem fun member => fresh (List.mem_append_left _ member)]
    simp
  have memberDisplaced := List.mem_of_getElem? listed
  obtain ⟨middle, unplaced, moved⟩ := moved_unplace
    (moved_withChildren before parent (front ++ child :: back))
    (linked.solid_of_mem memberDisplaced).holds List.not_mem_nil
  obtain ⟨after, placed, moved⟩ := moved_place moved solid.holds place
  rw [bind_ok (putAt_ok found inside), ← childrenEq, exchanged, bind_ok unplaced, placed]
  congr 1
  have nodup := linked.nodup_childrenOf parent
  rw [children] at nodup
  have absent := (List.nodup_cons.mp (List.nodup_middle.mp nodup)).1
  have apart : displaced ≠ child := by
    rintro rfl
    rw [linked.mem_childrenOf_iff.mp memberDisplaced] at isRoot
    contradiction
  apply linked.eq_relist_of_moved moved
  · simp
  · intro id member unmoved
    have notChild : id ≠ child := by simpa using unmoved
    have inside := (mem_middle.mp member).resolve_left notChild
    have notDisplaced : id ≠ displaced := fun same => absent (same ▸ inside)
    rw [children]
    exact ⟨mem_middle.mpr (.inr inside), idxOf_exchange notDisplaced notChild⟩
  · intro id
    rw [children, List.mem_singleton]
    exact eq_displaced_iff nodup apart

/-- A node leaves its old place and takes the slot of another one. -/
theorem substitute_ok (linked : before.Linked) {tree child displaced : NodeId} {position : Nat}
    {node : Node} (held : before.Holds tree)
    (listed : (before.childrenOf tree)[position]? = some displaced)
    (found : before.get? child = some node) (concrete : node.content.isNil = false)
    (different : child ≠ tree) (apart : displaced ≠ child) :
    (do
      detach child
      putAt tree (node.slotAfterLeaving tree position) child
      unplace displaced
      place child tree (node.slotAfterLeaving tree position) : EditM Unit) before =
      .ok () ((before.uprooted child).relist tree (((before.childrenOf tree).erase child).set
        (node.slotAfterLeaving tree position) child)) := by
  have solid : before.Solid child := ⟨node, found, concrete⟩
  have isRoot : (before.uprooted child).parentOf child = none := by
    rw [linked.parentOf_uprooted, if_pos rfl]
  have slotListed := getElem?_slotAfterLeaving linked found listed apart
  rw [← linked.childrenOf_uprooted] at slotListed
  rw [bind_ok (detach_ok linked solid.holds), ← linked.childrenOf_uprooted]
  exact exchange_ok (linked.uprooted child) (by simpa using held) (by simpa using solid)
    different isRoot slotListed

/-- The list in which a node has taken the slot of another one is admissible. -/
theorem admits_substitute (linked : before.Linked) {tree child displaced : NodeId} {position : Nat}
    {node : Node} (held : before.Holds tree)
    (listed : (before.childrenOf tree)[position]? = some displaced)
    (found : before.get? child = some node) (concrete : node.content.isNil = false)
    (different : child ≠ tree) (apart : displaced ≠ child) :
    (before.uprooted child).Admits tree (((before.childrenOf tree).erase child).set
      (node.slotAfterLeaving tree position) child) := by
  have isRoot : (before.uprooted child).parentOf child = none := by
    rw [linked.parentOf_uprooted, if_pos rfl]
  have slotListed := getElem?_slotAfterLeaving linked found listed apart
  rw [← linked.childrenOf_uprooted] at slotListed ⊢
  obtain ⟨front, back, children, length⟩ := exists_append_of_getElem? slotListed
  rw [← length, children, List.set_append_right _ _ (Nat.le_refl _), Nat.sub_self,
    List.set_cons_zero]
  exact (linked.uprooted child).admits_exchange (by simpa using held)
    (by simpa using ⟨node, found, concrete⟩) different isRoot children

/-- A child that is put in the slot of another one displaces it. -/
theorem setChild_ensures (linked : before.Linked) (tree : NodeId) (position : Nat)
    (child : NodeId) :
    (setChild checkCycles tree position child).Ensures before [tree, child] fun _ after =>
      ∃ displaced node, (before.childrenOf tree)[position]? = some displaced ∧
        before.get? child = some node ∧ node.content.isNil = false ∧
        before.checkAttach checkCycles tree [child] = .ok () ∧
        after = if displaced = child then before else (before.uprooted child).relist tree
          (((before.childrenOf tree).erase child).set (node.slotAfterLeaving tree position)
            child) := by
  apply Ensures.bind_query (before.blames_childAt (.inr List.mem_cons_self) position)
  intro displaced answered
  obtain ⟨held, listed⟩ := Forest.getElem?_of_childAt answered
  apply Ensures.bind_fetch (.inr (by simp))
  intro node found
  split_ifs with nil same
  · exact .refuse .nilChild
  · apply Ensures.bind_query (linked.blames_checkAttach checkCycles (.inl held) _)
    intro _ passed
    exact .pure ⟨displaced, node, listed, found, by simpa using nil, passed, by rw [if_pos same]⟩
  · apply Ensures.bind_query (linked.blames_checkAttach checkCycles (.inl held) _)
    intro _ passed
    have concrete : node.content.isNil = false := by simpa using nil
    have different := Forest.different_of_checkAttach passed child List.mem_cons_self
    refine .of_ok (substitute_ok linked held listed found concrete different same) (by simp) ?_
    exact ⟨displaced, node, listed, found, concrete, passed, by rw [if_neg same]⟩

theorem setChild_follows (linked : before.Linked) (tree : NodeId) (position : Nat)
    (child : NodeId) :
    (setChild checkCycles tree position child).Ensures before [tree, child] fun _ after =>
      after.Follows checkCycles before := by
  refine (setChild_ensures linked tree position child).mono (List.Subset.refl _) ?_
  rintro _ after ⟨displaced, node, listed, found, solid, passed, rfl⟩
  split_ifs with same
  · exact linked.follows checkCycles
  · have above := linked.mem_childrenOf_iff.mp (List.mem_of_getElem? listed)
    have different := Forest.different_of_checkAttach passed child List.mem_cons_self
    have admits := admits_substitute linked (linked.holds_parent above) listed found solid
      different same
    refine (linked.uprooted child).follows_relist (linked.narrows_uprooted child) admits passed ?_
    intro other member
    rw [linked.childrenOf_uprooted, List.mem_singleton]
    exact List.mem_or_eq_of_mem_set member

end EditM

end SyntaxForest
