import SyntaxForest.Edit.Links
import SyntaxForest.Proofs.Ensures
import SyntaxForest.Proofs.Relisting

/-!
The steps behind every change of shape, read as relistings. In a linked forest, leaving a parent,
joining one and giving all children away rewrite exactly the records that a relisting rewrites.
-/

namespace SyntaxForest

/-- A node records a place below a parent. -/
def Node.placedAt (node : Node) (parent : NodeId) (position : Nat) : Node :=
  { node with parent := some parent, position := some position }

/-- A node records that it is a root. -/
def Node.unplaced (node : Node) : Node := { node with parent := none, position := none }

/-- A node receives a child list. -/
def Node.withChildren (node : Node) (children : List NodeId) : Node := { node with children }

/-- The forest `after` is under way from `before` to a new child list of `parent`. -/
structure Forest.Moved (before after : Forest) (parent : NodeId)
    (children placed dropped : List NodeId) : Prop where
  size : after.size = before.size
  records : ∀ id node, before.get? id = some node →
    after.get? id = some (node.moved id parent children placed dropped)

/-- A relisting needs to place the nodes whose place changes, and to drop the nodes that leave. -/
theorem Forest.Linked.eq_relist_of_moved {forest after : Forest} (linked : forest.Linked)
    {parent : NodeId} {children placed dropped : List NodeId}
    (moved : forest.Moved after parent children placed dropped) (told : placed ⊆ children)
    (kept : ∀ id ∈ children, id ∉ placed → id ∈ forest.childrenOf parent ∧
      children.idxOf id = (forest.childrenOf parent).idxOf id)
    (lost : ∀ id, id ∈ dropped ↔ id ∈ forest.childrenOf parent ∧ id ∉ children) :
    after = forest.relist parent children := by
  apply Forest.eq_relist moved.size
  intro id node found
  rw [moved.records id node found, Option.some.injEq]
  simp only [Node.moved, Node.mk.injEq, true_and, and_true]
  by_cases member : id ∈ children
  · by_cases isPlaced : id ∈ placed
    · simp [member, isPlaced]
    · obtain ⟨inside, index⟩ := kept id member isPlaced
      obtain ⟨above, place⟩ := linked.place_of_mem found inside
      have isKept : id ∉ dropped := fun isDropped => ((lost id).mp isDropped).2 member
      simp [member, isPlaced, isKept, above, place, index]
  · have notPlaced : id ∉ placed := fun isPlaced => member (told isPlaced)
    by_cases inside : id ∈ forest.childrenOf parent
    · have isDropped := (lost id).mpr ⟨inside, member⟩
      simp [member, notPlaced, isDropped, inside]
    · have isKept : id ∉ dropped := fun isDropped => inside ((lost id).mp isDropped).1
      simp [member, notPlaced, isKept, inside]

/-- Two lists with a common beginning agree on the places of its members. -/
theorem place_of_take_eq {old new : List NodeId} {start : Nat}
    (same : new.take start = old.take start) {id : NodeId} (member : id ∈ new)
    (early : id ∉ new.drop start) : id ∈ old ∧ new.idxOf id = old.idxOf id := by
  have inside : id ∈ new.take start := by
    rw [← List.take_append_drop start new, List.mem_append] at member
    exact member.resolve_right early
  constructor
  · rw [same] at inside
    exact List.mem_of_mem_take inside
  · rw [← List.take_append_drop start new, List.idxOf_append_of_mem inside, same,
      ← List.idxOf_append_of_mem (same ▸ inside), List.take_append_drop]

/-- Without repetition, taking out the entry at a position is erasing it. -/
theorem eraseIdx_eq_erase {ids : List NodeId} {position : Nat} {id : NodeId} (nodup : ids.Nodup)
    (listed : ids[position]? = some id) : ids.eraseIdx position = ids.erase id := by
  obtain ⟨inside, rfl⟩ := List.getElem?_eq_some_iff.mp listed
  rw [← List.eraseIdx_idxOf_eq_erase, nodup.idxOf_getElem]

namespace EditM

variable {before middle : Forest} {parent : NodeId} {children placed dropped : List NodeId}

theorem place_ok {child : NodeId} (held : before.Holds child) (parent : NodeId) (position : Nat) :
    place child parent position before =
      .ok () (before.modify child fun node => node.placedAt parent position) :=
  update_ok held _

theorem unplace_ok {id : NodeId} (held : before.Holds id) :
    unplace id before = .ok () (before.modify id Node.unplaced) :=
  update_ok held _

theorem setChildren_ok {parent : NodeId} (held : before.Holds parent) (children : List NodeId) :
    setChildren parent children before =
      .ok () (before.modify parent fun node => node.withChildren children) :=
  update_ok held _

/-- The move begins with the child list. -/
theorem moved_withChildren (before : Forest) (parent : NodeId) (children : List NodeId) :
    before.Moved (before.modify parent fun node => node.withChildren children)
      parent children [] [] where
  size := by simp
  records id node found := by
    rw [Forest.get?_modify, found]
    by_cases same : parent = id
    · simp [Node.moved, Node.withChildren, same]
    · simp [Node.moved, same, Ne.symm same]

/-- A node that leaves is made a root. -/
theorem moved_unplace (moved : before.Moved middle parent children placed dropped) {id : NodeId}
    (held : before.Holds id) (leaves : id ∉ placed) :
    ∃ after, unplace id middle = .ok () after ∧
      before.Moved after parent children placed (id :: dropped) := by
  refine ⟨_, unplace_ok (by rwa [Forest.Holds, moved.size]), by simp [moved.size], ?_⟩
  intro other node found
  rw [Forest.get?_modify, moved.records other node found]
  by_cases same : id = other
  · subst other
    simp [Node.moved, Node.unplaced, leaves]
  · simp [Node.moved, same, Ne.symm same]

theorem moved_unplaceEach {ids : List NodeId}
    (moved : before.Moved middle parent children placed dropped)
    (held : ∀ id ∈ ids, before.Holds id) (leave : ∀ id ∈ ids, id ∉ placed) :
    ∃ after, unplaceEach ids middle = .ok () after ∧
      before.Moved after parent children placed (ids.reverse ++ dropped) := by
  induction ids generalizing middle dropped with
  | nil => exact ⟨middle, rfl, moved⟩
  | cons first rest ih =>
      obtain ⟨next, ran, moved⟩ := moved_unplace moved (held first (by simp))
        (leave first (by simp))
      obtain ⟨after, ranRest, moved⟩ := ih moved (fun id member => held id (by simp [member]))
        (fun id member => leave id (by simp [member]))
      refine ⟨after, ?_, by simpa using moved⟩
      rw [unplaceEach, bind_ok ran, ranRest]

/-- A node that stays or joins is told its place. -/
theorem moved_place (moved : before.Moved middle parent children placed dropped) {id : NodeId}
    {position : Nat} (held : before.Holds id) (place : children.idxOf id = position) :
    ∃ after, EditM.place id parent position middle = .ok () after ∧
      before.Moved after parent children (id :: placed) dropped := by
  refine ⟨_, place_ok (by rwa [Forest.Holds, moved.size]) _ _, by simp [moved.size], ?_⟩
  intro other node found
  rw [Forest.get?_modify, moved.records other node found]
  by_cases same : id = other
  · subst other
    simp [Node.moved, Node.placedAt, place]
  · simp [Node.moved, same, Ne.symm same]

theorem moved_placeEach {ids : List NodeId}
    (moved : before.Moved middle parent children placed dropped)
    (held : ∀ id ∈ ids, before.Holds id) {start : Nat}
    (places : ∀ offset id, ids[offset]? = some id → children.idxOf id = start + offset) :
    ∃ after, placeEach parent start ids middle = .ok () after ∧
      before.Moved after parent children (ids.reverse ++ placed) dropped := by
  induction ids generalizing middle placed start with
  | nil => exact ⟨middle, rfl, moved⟩
  | cons first rest ih =>
      have placeFirst : children.idxOf first = start := places 0 first rfl
      have placesRest : ∀ offset id, rest[offset]? = some id →
          children.idxOf id = start + 1 + offset := by
        intro offset id listed
        rw [places (offset + 1) id (by simpa using listed)]
        omega
      obtain ⟨next, ran, moved⟩ := moved_place moved (held first (by simp)) placeFirst
      obtain ⟨after, ranRest, moved⟩ := ih moved (fun id member => held id (by simp [member]))
        placesRest
      refine ⟨after, ?_, by simpa using moved⟩
      rw [placeEach, bind_ok ran, ranRest]

/-- The children from a position on are told their places. -/
theorem moved_renumber (moved : before.Moved middle parent children placed dropped)
    (heldParent : before.Holds parent) (nodup : children.Nodup)
    (held : ∀ id ∈ children, before.Holds id) (start : Nat) :
    ∃ after, renumber parent start middle = .ok () after ∧
      before.Moved after parent children ((children.drop start).reverse ++ placed) dropped := by
  obtain ⟨node, found⟩ := (before.holds_iff parent).mp heldParent
  have foundAgain := moved.records parent node found
  have places : ∀ offset id, (children.drop start)[offset]? = some id →
      children.idxOf id = start + offset := by
    intro offset id listed
    rw [List.getElem?_drop] at listed
    obtain ⟨inside, rfl⟩ := List.getElem?_eq_some_iff.mp listed
    exact nodup.idxOf_getElem _ inside
  obtain ⟨after, ran, moved⟩ := moved_placeEach moved
    (fun id member => held id (List.mem_of_mem_drop member)) places
  refine ⟨after, ?_, moved⟩
  rw [renumber, bind_ok (fetch_ok foundAgain)]
  simpa [Node.moved] using ran

theorem removeAt_ok {parent child : NodeId} {node : Node} {position : Nat}
    (found : before.get? parent = some node) (listed : node.children[position]? = some child) :
    removeAt parent position before = .ok child (before.modify parent fun record =>
      record.withChildren (node.children.eraseIdx position)) := by
  rw [removeAt, bind_ok (fetch_ok found)]
  simp only [listed]
  rw [bind_ok (setChildren_ok (Forest.holds_of_get? found) _)]
  rfl

/-- Detaching a node uproots it. -/
theorem detach_ok (linked : before.Linked) {id : NodeId} (held : before.Holds id) :
    detach id before = .ok () (before.uprooted id) := by
  obtain ⟨record, found⟩ := (before.holds_iff id).mp held
  rw [detach, bind_ok (fetch_ok found)]
  cases above : record.parent with
  | none =>
      rw [Forest.uprooted_of_root (by rw [Forest.parentOf_eq found, above])]
      rfl
  | some parent =>
      obtain ⟨node, position, foundParent, place, listed⟩ := linked.up id record parent found above
      have childrenEq := Forest.childrenOf_eq foundParent
      have nodup := linked.nodup_childrenOf parent
      rw [← childrenEq] at listed
      have erased := eraseIdx_eq_erase nodup listed
      have heldRest : ∀ child ∈ (before.childrenOf parent).erase id, before.Holds child :=
        fun child member => (linked.solid_of_mem (List.mem_of_mem_erase member)).holds
      have absent : id ∉ (before.childrenOf parent).erase id := nodup.not_mem_erase
      have started := moved_withChildren before parent ((before.childrenOf parent).erase id)
      obtain ⟨middle, renumbered, moved⟩ := moved_renumber started
        (Forest.holds_of_get? foundParent) (nodup.erase id) heldRest position
      obtain ⟨after, unplaced, moved⟩ := moved_unplace moved held
        (by simpa using fun member => absent (List.mem_of_mem_drop member))
      simp only [place]
      rw [bind_ok (removeAt_ok foundParent (childrenEq ▸ listed)), ← childrenEq, erased,
        bind_ok renumbered, unplaced,
        Forest.uprooted_of_child (by rw [Forest.parentOf_eq found, above])]
      congr 1
      apply linked.eq_relist_of_moved moved
      · intro child member
        exact List.mem_of_mem_drop (by simpa using member)
      · intro child member early
        apply place_of_take_eq _ member (by simpa using early)
        rw [← erased, List.take_eraseIdx_eq_take_of_le _ _ _ (Nat.le_refl position)]
      · intro child
        rw [nodup.mem_erase_iff, List.mem_singleton]
        constructor
        · rintro rfl
          exact ⟨List.mem_of_getElem? listed, by simp⟩
        · rintro ⟨inside, outside⟩
          by_contra other
          exact outside ⟨other, inside⟩

theorem detachEach_ok (linked : before.Linked) {ids : List NodeId}
    (held : ∀ id ∈ ids, before.Holds id) :
    detachEach ids before = .ok () (before.uprootedEach ids) := by
  induction ids generalizing before with
  | nil => rfl
  | cons id rest ih =>
      rw [detachEach, bind_ok (detach_ok linked (held id (by simp)))]
      apply ih (linked.uprooted id)
      intro other member
      rw [Forest.holds_uprooted]
      exact held other (by simp [member])

/-- Taking the children of a node empties it. -/
theorem takeChildren_ok (linked : before.Linked) {id : NodeId} (held : before.Holds id) :
    takeChildren id before = .ok () (before.emptied id) := by
  obtain ⟨node, found⟩ := (before.holds_iff id).mp held
  have childrenEq := Forest.childrenOf_eq found
  obtain ⟨after, unplaced, moved⟩ := moved_unplaceEach (moved_withChildren before id [])
    (fun child member => (linked.solid_of_mem member).holds) (fun child _ => List.not_mem_nil)
  rw [takeChildren, bind_ok (fetch_ok found), bind_ok (setChildren_ok held []), ← childrenEq,
    unplaced]
  congr 1
  apply linked.eq_relist_of_moved moved <;> simp

/-- Appending a node makes its new parent adopt it. -/
theorem append_ok (linked : before.Linked) {parent child : NodeId} (held : before.Holds parent)
    (solid : before.Solid child) (different : child ≠ parent) :
    append parent child before = .ok () (before.adopted parent child) := by
  have linkedBare := linked.uprooted child
  have admits := linked.admits_append held solid different
  obtain ⟨node, found⟩ := ((before.uprooted child).holds_iff parent).mp admits.held
  have childrenEq := Forest.childrenOf_eq found
  have absent : child ∉ (before.uprooted child).childrenOf parent := by
    rw [linkedBare.mem_childrenOf_iff, linked.parentOf_uprooted, if_pos rfl]
    simp
  have last : ((before.uprooted child).childrenOf parent ++ [child]).idxOf child =
      ((before.uprooted child).childrenOf parent).length := by
    simp [List.idxOf_append_of_notMem absent]
  obtain ⟨after, placed, moved⟩ := moved_place
    (moved_withChildren (before.uprooted child) parent _) (admits.solid child (by simp)).holds last
  rw [append, bind_ok (detach_ok linked solid.holds), bind_ok (fetch_ok found), ← childrenEq,
    bind_ok (setChildren_ok admits.held _), placed]
  congr 1
  apply linkedBare.eq_relist_of_moved moved
  · simp
  · intro id member early
    have inside : id ∈ (before.uprooted child).childrenOf parent := by
      rcases List.mem_append.mp member with inside | isLast
      · exact inside
      · exact absurd isLast early
    exact ⟨inside, List.idxOf_append_of_mem inside⟩
  · intro id
    constructor
    · intro gone
      exact absurd gone List.not_mem_nil
    · rintro ⟨inside, outside⟩
      exact absurd (List.mem_append_left _ inside) outside

/-- Without its new parent in the forest, a node cannot be appended. -/
theorem append_ensures (linked : before.Linked) {parent child : NodeId} {handles : List NodeId}
    (listed : before.Holds parent ∨ parent ∈ handles) (solid : before.Solid child)
    (different : child ≠ parent) :
    (append parent child).Ensures before handles fun _ after =>
      before.Holds parent ∧ after = before.adopted parent child := by
  by_cases held : before.Holds parent
  · exact .of_ok (append_ok linked held solid different) (by simp) ⟨held, rfl⟩
  · apply Ensures.bind_ok (detach_ok linked solid.holds) (by simp)
    apply Ensures.bind_fetch (.inr (listed.resolve_left held))
    intro node found
    rw [← Forest.holds_uprooted before child parent] at held
    exact absurd (Forest.holds_of_get? found) held

theorem appendEach_ensures (linked : before.Linked) {parent : NodeId} {ids handles : List NodeId}
    (listed : before.Holds parent ∨ parent ∈ handles) (solid : ∀ id ∈ ids, before.Solid id)
    (different : ∀ id ∈ ids, id ≠ parent) :
    (appendEach parent ids).Ensures before handles fun _ after =>
      (ids = [] ∨ before.Holds parent) ∧ after = before.adoptedEach parent ids := by
  induction ids generalizing before with
  | nil => exact .pure ⟨.inl rfl, rfl⟩
  | cons child rest ih =>
      apply (append_ensures linked listed (solid child (by simp)) (different child (by simp))).bind
      rintro _ middle _ ⟨held, rfl⟩
      have linkedNext := linked.adopted held (solid child (by simp)) (different child (by simp))
      have ensured := ih linkedNext (.inl (by simpa using held))
        (fun id member => by simpa using solid id (by simp [member]))
        (fun id member => different id (by simp [member]))
      exact ensured.mono (List.Subset.refl _) fun _ after result => ⟨.inr held, result.2⟩

end EditM

end SyntaxForest
