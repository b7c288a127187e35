import SyntaxForest.Proofs.Rearranging

/-!
Replacement of a range of children. The members of the range make room for the incoming nodes, and
an incoming node that was a child outside the range has left its old place before.
-/

namespace SyntaxForest

/-- Two lists without repetition have equally many members of each other. -/
theorem length_filter_mem_comm {first second : List NodeId} (nodupFirst : first.Nodup)
    (nodupSecond : second.Nodup) :
    (first.filter (· ∈ second)).length = (second.filter (· ∈ first)).length := by
  apply List.Perm.length_eq
  rw [List.perm_ext_iff_of_nodup (nodupFirst.filter _) (nodupSecond.filter _)]
  intro id
  simp [and_comm]

/-- A range divides its list. -/
theorem split_range {start stop : Nat} (ordered : start ≤ stop) (ids : List NodeId) :
    ids = ids.take start ++ (ids.drop start).take (stop + 1 - start) ++ ids.drop (stop + 1) := by
  have tail : ids.drop (stop + 1) = (ids.drop start).drop (stop + 1 - start) := by
    rw [List.drop_drop, Nat.add_sub_cancel' (by omega)]
  rw [List.append_assoc, tail, List.take_append_drop, List.take_append_drop]

/-- The incoming nodes stand between what remains of the front and of the back. -/
def placedBetween (front incoming back : List NodeId) : List NodeId :=
  front.filter (fun id => id ∉ incoming) ++ incoming ++ back.filter fun id => id ∉ incoming

theorem nodup_placedBetween {front incoming back : List NodeId} (nodup : incoming.Nodup)
    (nodupRest : (front ++ back).Nodup) : (placedBetween front incoming back).Nodup := by
  have rest : (front.filter (fun id => id ∉ incoming) ++
      back.filter fun id => id ∉ incoming).Nodup := by
    rw [← List.filter_append]
    exact nodupRest.filter _
  have perm : (placedBetween front incoming back).Perm (incoming ++
      (front.filter (fun id => id ∉ incoming) ++ back.filter fun id => id ∉ incoming)) := by
    rw [placedBetween, ← List.append_assoc]
    exact List.perm_append_comm.append_right _
  rw [perm.nodup_iff]
  apply nodup.append rest
  intro id isIncoming member
  simp [isIncoming] at member

/-- What does not come in was there, on either side of the range. -/
theorem mem_placedBetween {front removed back incoming : List NodeId} {id : NodeId}
    (member : id ∈ placedBetween front incoming back) :
    id ∈ incoming ∨ id ∈ front.filter (fun id => id ∉ incoming) ++ removed ++
      back.filter fun id => id ∉ incoming := by
  rw [placedBetween, List.mem_append, List.mem_append] at member
  rcases member with (inFront | isIncoming) | inBack
  · exact .inr (List.mem_append_left _ (List.mem_append_left _ inFront))
  · exact .inl isIncoming
  · exact .inr (List.mem_append_right _ inBack)

/-- The members of the range that do not come in again are the ones that leave. -/
theorem mem_removed_iff {front removed back incoming : List NodeId} {id : NodeId}
    (nodup : (front.filter (fun id => id ∉ incoming) ++ removed ++
      back.filter fun id => id ∉ incoming).Nodup) :
    id ∈ removed ∧ id ∉ incoming ↔
      id ∈ front.filter (fun id => id ∉ incoming) ++ removed ++
        back.filter (fun id => id ∉ incoming) ∧ id ∉ placedBetween front incoming back := by
  rw [List.nodup_append, List.nodup_append] at nodup
  obtain ⟨⟨_, _, apartFront⟩, _, apartBack⟩ := nodup
  rw [placedBetween, List.mem_append, List.mem_append, List.mem_append, List.mem_append]
  constructor
  · rintro ⟨inRemoved, notIncoming⟩
    refine ⟨.inl (.inr inRemoved), ?_⟩
    rintro ((inFront | isIncoming) | inBack)
    · exact apartFront id inFront id inRemoved rfl
    · exact notIncoming isIncoming
    · exact apartBack id (List.mem_append_right _ inRemoved) id inBack rfl
  · rintro ⟨inside, outside⟩
    rw [not_or, not_or] at outside
    obtain ⟨⟨notFront, notIncoming⟩, notBack⟩ := outside
    exact ⟨(inside.resolve_right notBack).resolve_left notFront, notIncoming⟩

namespace Forest

variable {forest : Forest} {parent : NodeId} {front removed back incoming : List NodeId}

/-- A record names a place before `start` exactly for the first `start` children. -/
theorem Linked.isBefore_iff (linked : forest.Linked) {parent id : NodeId} {node : Node}
    (found : forest.get? id = some node) (start : Nat) :
    (decide (node.parent = some parent) &&
        node.position.any fun position => decide (position < start)) =
      decide (id ∈ (forest.childrenOf parent).take start) := by
  by_cases member : id ∈ forest.childrenOf parent
  · obtain ⟨above, place⟩ := linked.place_of_mem found member
    simp [above, place, List.mem_take_iff_idxOf_lt member]
  · have elsewhere : node.parent ≠ some parent := by
      rwa [linked.mem_childrenOf_iff, parentOf_eq found] at member
    have outside : id ∉ (forest.childrenOf parent).take start :=
      fun inside => member (List.mem_of_mem_take inside)
    simp [elsewhere, outside]

/-- The nodes before the range are counted by the child list. -/
theorem Linked.countBefore_eq (linked : forest.Linked) {ids : List NodeId}
    (held : ∀ id ∈ ids, forest.Holds id) (parent : NodeId) (start : Nat) :
    forest.countBefore parent start ids =
      .ok (ids.filter (· ∈ (forest.childrenOf parent).take start)).length := by
  have fetched : ∃ nodes, ids.mapM forest.fetch = .ok nodes ∧
      (nodes.countP fun node => decide (node.parent = some parent) &&
          node.position.any fun position => decide (position < start)) =
        ids.countP (· ∈ (forest.childrenOf parent).take start) := by
    induction ids with
    | nil => exact ⟨[], rfl, rfl⟩
    | cons id rest ih =>
        obtain ⟨node, found⟩ := (forest.holds_iff id).mp (held id (by simp))
        obtain ⟨nodes, fetched, counted⟩ := ih fun other member => held other (by simp [member])
        refine ⟨node :: nodes, ?_, ?_⟩
        · rw [List.mapM_cons, fetch_eq_ok found, fetched]
          rfl
        · rw [List.countP_cons, List.countP_cons, counted, linked.isBefore_iff found]
  obtain ⟨nodes, fetched, counted⟩ := fetched
  rw [countBefore, fetched, ← List.countP_eq_length_filter, ← counted]
  rfl

/-- Once the incoming nodes from outside the range have left, the range stands between the rest. -/
theorem Linked.childrenOf_range (linked : forest.Linked)
    (children : forest.childrenOf parent = front ++ removed ++ back) :
    (forest.uprootedEach (incoming.filter fun id => id ∉ removed)).childrenOf parent =
      front.filter (fun id => id ∉ incoming) ++ removed ++
        back.filter fun id => id ∉ incoming := by
  have nodup := linked.nodup_childrenOf parent
  rw [children, List.nodup_append, List.nodup_append] at nodup
  obtain ⟨⟨_, _, apartFront⟩, _, apartBack⟩ := nodup
  rw [linked.childrenOf_uprootedEach, children, List.filter_append, List.filter_append]
  congr 1
  · congr 1
    · apply List.filter_congr
      intro id member
      have outside : id ∉ removed := fun inside => apartFront id member id inside rfl
      simp [outside]
    · apply List.filter_eq_self.mpr
      intro id member
      simp [member]
  · apply List.filter_congr
    intro id member
    have outside : id ∉ removed :=
      fun inside => apartBack id (List.mem_append_right _ inside) id member rfl
    simp [outside]

/-- The incoming nodes are then gone from all other lists. -/
theorem Linked.childrenOf_outside_range (linked : forest.Linked)
    (children : forest.childrenOf parent = front ++ removed ++ back) {other : NodeId}
    (elsewhere : other ≠ parent) :
    (forest.uprootedEach (incoming.filter fun id => id ∉ removed)).childrenOf other =
      (forest.childrenOf other).filter fun id => id ∉ incoming := by
  rw [linked.childrenOf_uprootedEach]
  apply List.filter_congr
  intro child member
  have outside : child ∉ removed := by
    intro inside
    have listed : child ∈ forest.childrenOf parent := by
      rw [children]
      exact List.mem_append_left _ (List.mem_append_right _ inside)
    rw [linked.mem_childrenOf_iff] at member listed
    rw [member, Option.some.injEq] at listed
    exact elsewhere listed
  simp [outside]

/-- The incoming nodes can take the place of the range. -/
theorem Linked.admits_range (linked : forest.Linked) (held : forest.Holds parent)
    (children : forest.childrenOf parent = front ++ removed ++ back) (nodup : incoming.Nodup)
    (solid : ∀ id ∈ incoming, forest.Solid id) (different : ∀ id ∈ incoming, id ≠ parent) :
    (forest.uprootedEach (incoming.filter fun id => id ∉ removed)).Admits parent
      (placedBetween front incoming back) := by
  have linkedBare := linked.uprootedEach (incoming.filter fun id => id ∉ removed)
  have split : ∀ id ∈ placedBetween front incoming back, id ∈ incoming ∨
      id ∈ (forest.uprootedEach (incoming.filter fun id => id ∉ removed)).childrenOf parent := by
    intro id member
    rw [linked.childrenOf_range children]
    exact mem_placedBetween member
  refine ⟨by simpa using held, ?_, ?_, ?_, ?_⟩
  · apply nodup_placedBetween nodup
    apply List.Nodup.sublist _ (linked.nodup_childrenOf parent)
    rw [children]
    exact (List.sublist_append_left front removed).append (List.Sublist.refl back)
  · intro id member
    rcases split id member with isIncoming | inside
    · simpa using solid id isIncoming
    · exact linkedBare.solid_of_mem inside
  · intro id member
    rcases split id member with isIncoming | inside
    · exact different id isIncoming
    · exact linkedBare.ne_of_mem inside
  · intro id member
    rcases split id member with isIncoming | inside
    · by_cases inRange : id ∈ removed
      · rw [linked.childrenOf_range children]
        exact .inl (List.mem_append_left _ (List.mem_append_right _ inRange))
      · rw [linked.parentOf_uprootedEach, if_pos (by simp [isIncoming, inRange])]
        exact .inr rfl
    · exact .inl inside

/-- A replacement that gives its children away leaves the list of the parent alone, so what comes in
for it can take the place of the range. -/
theorem Linked.admits_replacement (linked : forest.Linked) (held : forest.Holds parent)
    {start stop : Nat} {replacement : NodeId} {source : Node} (ordered : start ≤ stop)
    (different : replacement ≠ parent) (found : forest.get? replacement = some source)
    (apart : ∀ id ∈ source.incoming replacement, id ≠ parent) :
    (forest.released replacement source).childrenOf parent =
        (forest.childrenOf parent).take start ++
          ((forest.childrenOf parent).drop start).take (stop + 1 - start) ++
          (forest.childrenOf parent).drop (stop + 1) ∧
      ((forest.released replacement source).uprootedEach
        ((source.incoming replacement).filter fun id =>
          id ∉ ((forest.childrenOf parent).drop start).take (stop + 1 - start))).Admits parent
        (placedBetween ((forest.childrenOf parent).take start) (source.incoming replacement)
          ((forest.childrenOf parent).drop (stop + 1))) := by
  have heldSource := holds_of_get? found
  have children := (childrenOf_released heldSource different source).trans
    (split_range ordered (forest.childrenOf parent))
  have solid : ∀ id ∈ source.incoming replacement,
      (forest.released replacement source).Solid id := by
    intro id member
    rw [solid_released]
    exact linked.solid_incoming found id member
  exact ⟨children, (linked.released heldSource source).admits_range (by simpa using held) children
    (linked.nodup_incoming found) solid apart⟩

/-- The members of the range that do not come in again become roots. -/
theorem Linked.parentOf_removed (linked : forest.Linked)
    (children : forest.childrenOf parent = front ++ removed ++ back)
    (admits : (forest.uprootedEach (incoming.filter fun id => id ∉ removed)).Admits parent
      (placedBetween front incoming back)) {id : NodeId} (inRange : id ∈ removed)
    (notIncoming : id ∉ incoming) :
    ((forest.uprootedEach (incoming.filter fun id => id ∉ removed)).relist parent
      (placedBetween front incoming back)).parentOf id = none := by
  have linkedBare := linked.uprootedEach (incoming.filter fun id => id ∉ removed)
  have nodup := linkedBare.nodup_childrenOf parent
  rw [linked.childrenOf_range children] at nodup
  obtain ⟨listed, unplaced⟩ := (mem_removed_iff nodup).mp ⟨inRange, notIncoming⟩
  rw [← linked.childrenOf_range children] at listed
  rw [linkedBare.parentOf_relist admits, if_neg unplaced, if_pos listed]

end Forest

namespace EditM

variable {before : Forest} {checkCycles : Bool} {parent : NodeId}
  {front removed back incoming : List NodeId}

/-- Incoming nodes from the front shift the range to what remains of the front. -/
theorem shiftDown_ok (forest : Forest) (nodupFront : front.Nodup) (nodup : incoming.Nodup) :
    shiftDown front.length (incoming.filter (· ∈ front)).length forest =
      .ok (front.filter fun id => id ∉ incoming).length forest := by
  have parts := front.length_eq_length_filter_add (· ∈ incoming)
  rw [length_filter_mem_comm nodupFront nodup] at parts
  have rest : (front.filter fun id => !decide (id ∈ incoming)) =
      front.filter fun id => id ∉ incoming := by simp
  rw [rest] at parts
  rw [shiftDown, if_neg (by omega), show front.length - (incoming.filter (· ∈ front)).length =
    (front.filter fun id => id ∉ incoming).length by omega]
  rfl

/-- The incoming nodes take the place of the range. -/
theorem spliceRange_ok (linked : before.Linked) (held : before.Holds parent)
    (children : before.childrenOf parent = front.filter (fun id => id ∉ incoming) ++ removed ++
      back.filter fun id => id ∉ incoming)
    (admits : before.Admits parent (placedBetween front incoming back)) :
    (do
      splice parent (front.filter fun id => id ∉ incoming).length removed.length incoming
      unplaceEach (removed.filter fun id => id ∉ incoming)
      renumber parent 0 : EditM Unit) before =
      .ok () (before.relist parent (placedBetween front incoming back)) := by
  obtain ⟨node, found⟩ := (before.holds_iff parent).mp held
  have childrenEq := Forest.childrenOf_eq found
  have room : (front.filter fun id => id ∉ incoming).length + removed.length ≤
      node.children.length := by
    rw [← childrenEq, children]
    simp
  have spliced : node.children.take (front.filter fun id => id ∉ incoming).length ++ incoming ++
      node.children.drop ((front.filter fun id => id ∉ incoming).length + removed.length) =
      placedBetween front incoming back := by
    rw [← childrenEq, children, placedBetween]
    simp
  have inRange : ∀ id ∈ removed.filter (fun id => id ∉ incoming),
      id ∈ before.childrenOf parent := by
    intro id member
    rw [children]
    exact List.mem_append_left _ (List.mem_append_right _ (List.mem_of_mem_filter member))
  obtain ⟨middle, unplaced, moved⟩ := moved_unplaceEach
    (moved_withChildren before parent (placedBetween front incoming back))
    (fun id member => (linked.solid_of_mem (inRange id member)).holds)
    (fun id _ => List.not_mem_nil)
  obtain ⟨after, renumbered, moved⟩ := moved_renumber moved held admits.nodup
    (fun id member => (admits.solid id member).holds) 0
  rw [bind_ok (splice_ok found room incoming), spliced, bind_ok unplaced, renumbered]
  congr 1
  apply linked.eq_relist_of_moved moved
  · simp
  · intro id member early
    simp [member] at early
  · intro id
    have nodup := linked.nodup_childrenOf parent
    rw [children] at nodup ⊢
    simpa using mem_removed_iff nodup

/-- The nodes from outside the range leave their places, and then all incoming nodes fill it. -/
theorem fillRange_ok (linked : before.Linked) (held : before.Holds parent)
    (children : before.childrenOf parent = front ++ removed ++ back) (nodup : incoming.Nodup)
    (solid : ∀ id ∈ incoming, before.Solid id) (different : ∀ id ∈ incoming, id ≠ parent) :
    (do
      let shift ← query fun forest => forest.countBefore parent front.length incoming
      detachEach (incoming.filter fun id => id ∉ removed)
      let first ← shiftDown front.length shift
      splice parent first removed.length incoming
      unplaceEach (removed.filter fun id => id ∉ incoming)
      renumber parent 0 : EditM Unit) before =
      .ok () ((before.uprootedEach (incoming.filter fun id => id ∉ removed)).relist parent
        (placedBetween front incoming back)) := by
  have counted := linked.countBefore_eq (fun id member => (solid id member).holds) parent
    front.length
  have isFront : (before.childrenOf parent).take front.length = front := by
    rw [children, List.append_assoc, List.take_left]
  rw [isFront] at counted
  have nodupFront : front.Nodup := by
    rw [← isFront]
    exact (linked.nodup_childrenOf parent).sublist (List.take_sublist _ _)
  have heldOutside : ∀ id ∈ incoming.filter (fun id => id ∉ removed), before.Holds id :=
    fun id member => (solid id (List.mem_of_mem_filter member)).holds
  rw [bind_ok (query_ok counted), bind_ok (detachEach_ok linked heldOutside),
    bind_ok (shiftDown_ok _ nodupFront nodup)]
  exact spliceRange_ok (linked.uprootedEach _) (by simpa using held)
    (linked.childrenOf_range children)
    (linked.admits_range held children nodup solid different)

/-- A nil replacement gives its children away, and the incoming nodes fill the range. -/
theorem replaceRange_ok (linked : before.Linked) (held : before.Holds parent) {start stop : Nat}
    {replacement : NodeId} {source : Node} (ordered : start ≤ stop)
    (inside : stop < (before.childrenOf parent).length) (different : replacement ≠ parent)
    (found : before.get? replacement = some source)
    (differentIncoming : ∀ id ∈ source.incoming replacement, id ≠ parent) :
    (do
      release replacement source
      let shift ← query fun forest =>
        forest.countBefore parent start (source.incoming replacement)
      detachEach ((source.incoming replacement).filter fun id =>
        id ∉ ((before.childrenOf parent).drop start).take (stop + 1 - start))
      let first ← shiftDown start shift
      splice parent first (((before.childrenOf parent).drop start).take (stop + 1 - start)).length
        (source.incoming replacement)
      unplaceEach ((((before.childrenOf parent).drop start).take (stop + 1 - start)).filter
        fun id => id ∉ source.incoming replacement)
      renumber parent 0 : EditM Unit) before =
      .ok () (((before.released replacement source).uprootedEach
        ((source.incoming replacement).filter fun id =>
          id ∉ ((before.childrenOf parent).drop start).take (stop + 1 - start))).relist parent
        (placedBetween ((before.childrenOf parent).take start) (source.incoming replacement)
          ((before.childrenOf parent).drop (stop + 1)))) := by
  have heldSource := Forest.holds_of_get? found
  have children := Forest.childrenOf_released heldSource different source
  have range := split_range ordered (before.childrenOf parent)
  have length : ((before.childrenOf parent).take start).length = start := by
    rw [List.length_take, Nat.min_eq_left (by omega)]
  have solid : ∀ id ∈ source.incoming replacement,
      (before.released replacement source).Solid id := by
    intro id member
    rw [Forest.solid_released]
    exact linked.solid_incoming found id member
  have filled := fillRange_ok (linked.released heldSource source) (by simpa using held)
    (children.trans range) (linked.nodup_incoming found) solid differentIncoming
  rw [length] at filled
  rw [bind_ok (release_ok linked heldSource source)]
  exact filled

/-- The range makes room for the replacement, or for the children of a nil replacement. -/
theorem replaceChildren_ensures (linked : before.Linked) (parent : NodeId) (start stop : Nat)
    (replacement : NodeId) :
    (replaceChildren checkCycles parent start stop replacement).Ensures before
      [parent, replacement] fun _ after =>
      ∃ source, before.get? replacement = some source ∧ before.Holds parent ∧ start ≤ stop ∧
        stop < (before.childrenOf parent).length ∧ replacement ≠ parent ∧
        before.checkAttach checkCycles parent (source.incoming replacement) = .ok () ∧
        after = ((before.released replacement source).uprootedEach
          ((source.incoming replacement).filter fun id =>
            id ∉ ((before.childrenOf parent).drop start).take (stop + 1 - start))).relist parent
          (placedBetween ((before.childrenOf parent).take start) (source.incoming replacement)
            ((before.childrenOf parent).drop (stop + 1))) := by
  apply Ensures.bind_fetch (.inr List.mem_cons_self)
  intro node found
  have held := Forest.holds_of_get? found
  have childrenEq := Forest.childrenOf_eq found
  rw [← childrenEq]
  split_ifs with outside same
  · exact .refuse _
  · exact .refuse .selfChild
  · apply Ensures.bind_fetch (.inr (by simp))
    intro source foundSource
    apply Ensures.bind_query (linked.blames_checkAttach checkCycles (.inl held) _)
    intro _ passed
    rw [not_or, Nat.not_lt, Nat.not_le] at outside
    obtain ⟨ordered, inside⟩ := outside
    exact .of_ok (replaceRange_ok linked held ordered inside same foundSource
      (Forest.different_of_checkAttach passed)) (by simp)
      ⟨source, foundSource, held, ordered, inside, same, passed, rfl⟩

theorem replaceChildren_follows (linked : before.Linked) (parent : NodeId) (start stop : Nat)
    (replacement : NodeId) :
    (replaceChildren checkCycles parent start stop replacement).Ensures before
      [parent, replacement] fun _ after => after.Follows checkCycles before := by
  refine (replaceChildren_ensures linked parent start stop replacement).mono
    (List.Subset.refl _) ?_
  rintro _ after ⟨source, found, held, ordered, _, different, passed, rfl⟩
  have linkedFreed := linked.released (Forest.holds_of_get? found) source
  obtain ⟨children, admits⟩ := linked.admits_replacement held ordered different found
    (Forest.different_of_checkAttach passed)
  refine (linkedFreed.uprootedEach _).follows_relist
    ((linkedFreed.narrows_uprootedEach _).trans (linked.narrows_released replacement source))
    admits passed ?_
  intro id member
  rw [linkedFreed.childrenOf_range children]
  exact (mem_placedBetween member).symm

end EditM

end SyntaxForest
