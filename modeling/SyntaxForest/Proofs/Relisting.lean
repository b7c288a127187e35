import SyntaxForest.Proofs.Links

/-!
The one change of shape behind all others. A node receives a new child list, and every node that
joins or leaves the list records its new place. Uprooting, adopting and emptying are such changes.
-/

namespace SyntaxForest

/-- The record of a node when `parent` has received a child list, `placed` lists the nodes that have
been told their place in it, and `dropped` lists the nodes that have been made roots. -/
def Node.moved (node : Node) (id parent : NodeId) (children placed dropped : List NodeId) : Node :=
  { node with
    children := if id = parent then children else node.children
    parent := if id ∈ placed then some parent else if id ∈ dropped then none else node.parent
    position :=
      if id ∈ placed then some (children.idxOf id)
      else if id ∈ dropped then none else node.position }

namespace Forest

/-- The child list of a node changes, its new members record their places, and the old members that
are not among them become roots. -/
def relist (forest : Forest) (parent : NodeId) (children : List NodeId) : Forest where
  nodes := forest.nodes.mapIdx fun index node =>
    node.moved ⟨index⟩ parent children children (forest.childrenOf parent)

@[simp] theorem size_relist (forest : Forest) (parent : NodeId) (children : List NodeId) :
    (forest.relist parent children).size = forest.size := by
  simp [relist, size]

@[simp] theorem holds_relist (forest : Forest) (parent : NodeId) (children : List NodeId)
    (id : NodeId) : (forest.relist parent children).Holds id ↔ forest.Holds id := by
  simp [Holds]

theorem get?_relist (forest : Forest) (parent : NodeId) (children : List NodeId) (id : NodeId) :
    (forest.relist parent children).get? id = (forest.get? id).map fun node =>
      node.moved id parent children children (forest.childrenOf parent) := by
  simp [relist, get?, Array.getElem?_mapIdx]

theorem get?_relist_of_get? {forest : Forest} {id : NodeId} {node : Node}
    (found : forest.get? id = some node) (parent : NodeId) (children : List NodeId) :
    (forest.relist parent children).get? id =
      some (node.moved id parent children children (forest.childrenOf parent)) := by
  rw [get?_relist, found, Option.map_some]

/-- A forest is a relisting when all its records are. -/
theorem eq_relist {forest after : Forest} {parent : NodeId} {children : List NodeId}
    (size : after.size = forest.size)
    (records : ∀ id node, forest.get? id = some node → after.get? id =
      some (node.moved id parent children children (forest.childrenOf parent))) :
    after = forest.relist parent children := by
  apply ext_get?
  intro id
  rw [get?_relist]
  cases found : forest.get? id with
  | none =>
      apply get?_eq_none
      rw [Holds, size]
      intro inside
      obtain ⟨node, present⟩ := (forest.holds_iff id).mp inside
      rw [found] at present
      contradiction
  | some node => exact records id node found

theorem childrenOf_relist {forest : Forest} {parent : NodeId} (held : forest.Holds parent)
    (children : List NodeId) (id : NodeId) :
    (forest.relist parent children).childrenOf id =
      if id = parent then children else forest.childrenOf id := by
  by_cases same : id = parent
  · subst id
    obtain ⟨node, found⟩ := (forest.holds_iff parent).mp held
    simp [childrenOf, get?_relist, found, Node.moved]
  · cases found : forest.get? id <;>
      simp [childrenOf, get?_relist, found, Node.moved, same]

@[simp] theorem solid_relist (forest : Forest) (parent : NodeId) (children : List NodeId)
    (id : NodeId) : (forest.relist parent children).Solid id ↔ forest.Solid id := by
  cases found : forest.get? id <;> simp [Solid, get?_relist, found, Node.moved]

/-- A child list is admissible when its members are distinct solid nodes other than the parent, and
each of them is a root or already a child of the parent. -/
structure Admits (forest : Forest) (parent : NodeId) (children : List NodeId) : Prop where
  held : forest.Holds parent
  nodup : children.Nodup
  solid : ∀ child ∈ children, forest.Solid child
  different : ∀ child ∈ children, child ≠ parent
  free : ∀ child ∈ children, child ∈ forest.childrenOf parent ∨ forest.parentOf child = none

section Relist

variable {forest : Forest} {parent : NodeId} {children : List NodeId}

/-- An entry of the new child list leads to a record of exactly this place. -/
theorem Admits.entry (admits : forest.Admits parent children) {child : NodeId} {position : Nat}
    (listed : children[position]? = some child) :
    ∃ record, (forest.relist parent children).get? child = some record ∧
      record.parent = some parent ∧ record.position = some position ∧ child ≠ parent ∧
      record.content.isNil = false := by
  have member := List.mem_of_getElem? listed
  obtain ⟨record, found, solid⟩ := admits.solid child member
  refine ⟨_, get?_relist_of_get? found parent children, ?_, ?_, admits.different child member,
    solid⟩
  · simp [Node.moved, member]
  · obtain ⟨inside, rfl⟩ := List.getElem?_eq_some_iff.mp listed
    simp [Node.moved, admits.nodup.idxOf_getElem]

/-- An entry of any other child list still leads to a record of its place. -/
theorem Linked.entry_elsewhere (linked : forest.Linked) (admits : forest.Admits parent children)
    {other child : NodeId} {position : Nat} (different : other ≠ parent)
    (listed : (forest.childrenOf other)[position]? = some child) :
    ∃ record, (forest.relist parent children).get? child = some record ∧
      record.parent = some other ∧ record.position = some position ∧ child ≠ other ∧
      record.content.isNil = false := by
  obtain ⟨record, found, above, place, apart, solid⟩ := linked.entry listed
  have elsewhere : child ∉ forest.childrenOf parent := by
    rw [linked.mem_childrenOf_iff, parentOf_eq found, above, Option.some.injEq]
    exact different
  have outside : child ∉ children := by
    intro member
    rcases admits.free child member with inside | isRoot
    · exact elsewhere inside
    · rw [parentOf_eq found, above] at isRoot
      contradiction
  refine ⟨_, get?_relist_of_get? found parent children, ?_, ?_, apart, solid⟩
  · simpa [Node.moved, outside, elsewhere] using above
  · simpa [Node.moved, outside, elsewhere] using place

/-- A parent that is recorded after the change lists the child at the recorded position. -/
theorem Linked.listed_of_relist (linked : forest.Linked) (admits : forest.Admits parent children)
    {child other : NodeId} {record : Node}
    (found : (forest.relist parent children).get? child = some record)
    (above : record.parent = some other) :
    ∃ node position, (forest.relist parent children).get? other = some node ∧
      record.position = some position ∧ node.children[position]? = some child := by
  rw [get?_relist, Option.map_eq_some_iff] at found
  obtain ⟨before, found, rfl⟩ := found
  by_cases member : child ∈ children
  · simp only [Node.moved, if_pos member, Option.some.injEq] at above ⊢
    subst other
    obtain ⟨node, foundParent⟩ := (forest.holds_iff parent).mp admits.held
    refine ⟨_, _, get?_relist_of_get? foundParent parent children, rfl, ?_⟩
    simpa [Node.moved] using List.getElem?_idxOf member
  · by_cases inside : child ∈ forest.childrenOf parent
    · simp [Node.moved, member, inside] at above
    · simp only [Node.moved, if_neg member, if_neg inside] at above ⊢
      obtain ⟨node, position, foundParent, place, listed⟩ :=
        linked.up child before other found above
      have different : other ≠ parent := by
        rintro rfl
        apply inside
        rw [childrenOf_eq foundParent]
        exact List.mem_of_getElem? listed
      refine ⟨_, position, get?_relist_of_get? foundParent parent children, place, ?_⟩
      simpa [Node.moved, different] using listed

/-- A linked forest stays linked under every admissible child list. -/
theorem Linked.relist (linked : forest.Linked) (admits : forest.Admits parent children) :
    (forest.relist parent children).Linked where
  down := by
    intro other node position child found listed
    rw [← childrenOf_eq found, childrenOf_relist admits.held] at listed
    by_cases same : other = parent
    · rw [if_pos same] at listed
      rw [same]
      exact admits.entry listed
    · rw [if_neg same] at listed
      exact linked.entry_elsewhere admits same listed
  up _ _ _ found above := linked.listed_of_relist admits found above
  root := by
    intro id node found
    rw [get?_relist, Option.map_eq_some_iff] at found
    obtain ⟨before, found, rfl⟩ := found
    have roots := linked.root id before found
    simp only [Node.moved]
    split_ifs <;> simp [roots]

/-- After a relisting exactly the new members of the list have the parent, and the old members that
are not among them have none. -/
theorem Linked.parentOf_relist (linked : forest.Linked) (admits : forest.Admits parent children)
    (id : NodeId) :
    (forest.relist parent children).parentOf id =
      if id ∈ children then some parent
      else if id ∈ forest.childrenOf parent then none else forest.parentOf id := by
  cases found : forest.get? id with
  | none =>
      have missing : ¬ forest.Holds id := by
        rw [holds_iff, found]
        simp
      have outside : id ∉ children := fun member => missing (admits.solid id member).holds
      have elsewhere : id ∉ forest.childrenOf parent :=
        fun member => missing (linked.solid_of_mem member).holds
      rw [if_neg outside, if_neg elsewhere, parentOf, parentOf, get?_relist, found]
      rfl
  | some node =>
      rw [parentOf_eq (get?_relist_of_get? found parent children), parentOf_eq found]
      rfl

end Relist

/-- All children of a node become roots. -/
def emptied (forest : Forest) (id : NodeId) : Forest := forest.relist id []

theorem Linked.emptied {forest : Forest} (linked : forest.Linked) {id : NodeId}
    (held : forest.Holds id) : (forest.emptied id).Linked :=
  linked.relist ⟨held, List.nodup_nil, by simp, by simp, by simp⟩

/-- A node leaves its parent, if it has one. -/
def uprooted (forest : Forest) (id : NodeId) : Forest :=
  match forest.parentOf id with
  | none => forest
  | some parent => forest.relist parent ((forest.childrenOf parent).erase id)

theorem uprooted_of_root {forest : Forest} {id : NodeId} (isRoot : forest.parentOf id = none) :
    forest.uprooted id = forest := by
  simp [uprooted, isRoot]

theorem uprooted_of_child {forest : Forest} {id parent : NodeId}
    (above : forest.parentOf id = some parent) :
    forest.uprooted id = forest.relist parent ((forest.childrenOf parent).erase id) := by
  simp [uprooted, above]

@[simp] theorem size_uprooted (forest : Forest) (id : NodeId) :
    (forest.uprooted id).size = forest.size := by
  unfold uprooted
  split <;> simp

@[simp] theorem holds_uprooted (forest : Forest) (id other : NodeId) :
    (forest.uprooted id).Holds other ↔ forest.Holds other := by
  simp [Holds]

@[simp] theorem solid_uprooted (forest : Forest) (id other : NodeId) :
    (forest.uprooted id).Solid other ↔ forest.Solid other := by
  unfold uprooted
  split <;> simp

/-- What is left of a child list is admissible. -/
theorem Linked.admits_sublist {forest : Forest} (linked : forest.Linked) {parent : NodeId}
    (held : forest.Holds parent) {children : List NodeId}
    (sublist : children.Sublist (forest.childrenOf parent)) : forest.Admits parent children where
  held := held
  nodup := (linked.nodup_childrenOf parent).sublist sublist
  solid _ member := linked.solid_of_mem (sublist.subset member)
  different _ member := linked.ne_of_mem (sublist.subset member)
  free _ member := .inl (sublist.subset member)

theorem Linked.uprooted {forest : Forest} (linked : forest.Linked) (id : NodeId) :
    (forest.uprooted id).Linked := by
  cases above : forest.parentOf id with
  | none => rwa [uprooted_of_root above]
  | some parent =>
      rw [uprooted_of_child above]
      exact linked.relist (linked.admits_sublist (linked.holds_parent above) List.erase_sublist)

/-- An uprooted node is gone from every child list. -/
theorem Linked.childrenOf_uprooted {forest : Forest} (linked : forest.Linked)
    (id other : NodeId) :
    (forest.uprooted id).childrenOf other = (forest.childrenOf other).erase id := by
  have outside (different : forest.parentOf id ≠ some other) :
      (forest.childrenOf other).erase id = forest.childrenOf other := by
    apply List.erase_of_not_mem
    rwa [linked.mem_childrenOf_iff]
  cases above : forest.parentOf id with
  | none => rw [uprooted_of_root above, outside (by simp [above])]
  | some parent =>
      rw [uprooted_of_child above, childrenOf_relist (linked.holds_parent above)]
      by_cases same : other = parent
      · rw [if_pos same, same]
      · rw [if_neg same, outside (by simpa [above] using Ne.symm same)]

/-- Only the uprooted node changes its parent. -/
theorem Linked.parentOf_uprooted {forest : Forest} (linked : forest.Linked)
    (id other : NodeId) :
    (forest.uprooted id).parentOf other = if other = id then none else forest.parentOf other := by
  apply Option.ext
  intro parent
  rw [← (linked.uprooted id).mem_childrenOf_iff, linked.childrenOf_uprooted,
    (linked.nodup_childrenOf parent).mem_erase_iff, linked.mem_childrenOf_iff]
  by_cases same : other = id <;> simp [same]

/-- A node leaves its parent and becomes the last child of another one. -/
def adopted (forest : Forest) (parent child : NodeId) : Forest :=
  (forest.uprooted child).relist parent ((forest.uprooted child).childrenOf parent ++ [child])

@[simp] theorem size_adopted (forest : Forest) (parent child : NodeId) :
    (forest.adopted parent child).size = forest.size := by
  simp [adopted]

@[simp] theorem holds_adopted (forest : Forest) (parent child id : NodeId) :
    (forest.adopted parent child).Holds id ↔ forest.Holds id := by
  simp [adopted]

@[simp] theorem solid_adopted (forest : Forest) (parent child id : NodeId) :
    (forest.adopted parent child).Solid id ↔ forest.Solid id := by
  simp [adopted]

/-- An uprooted node can join the end of a child list. -/
theorem Linked.admits_append {forest : Forest} (linked : forest.Linked) {parent child : NodeId}
    (held : forest.Holds parent) (solid : forest.Solid child) (different : child ≠ parent) :
    (forest.uprooted child).Admits parent
      ((forest.uprooted child).childrenOf parent ++ [child]) := by
  have kept := (linked.uprooted child).admits_sublist (by simpa using held)
    (List.Sublist.refl ((forest.uprooted child).childrenOf parent))
  have absent : child ∉ (forest.uprooted child).childrenOf parent := by
    simp [(linked.uprooted child).mem_childrenOf_iff, linked.parentOf_uprooted]
  refine ⟨kept.held, ?_, ?_, ?_, ?_⟩
  · exact List.Nodup.append kept.nodup (List.nodup_singleton child)
      (List.disjoint_singleton.mpr absent)
  · intro other member
    rcases List.mem_append.mp member with inside | last
    · exact kept.solid other inside
    · rw [List.mem_singleton.mp last, solid_uprooted]
      exact solid
  · intro other member
    rcases List.mem_append.mp member with inside | last
    · exact kept.different other inside
    · rw [List.mem_singleton.mp last]
      exact different
  · intro other member
    rcases List.mem_append.mp member with inside | last
    · exact .inl inside
    · rw [List.mem_singleton.mp last, linked.parentOf_uprooted, if_pos rfl]
      exact .inr rfl

theorem Linked.adopted {forest : Forest} (linked : forest.Linked) {parent child : NodeId}
    (held : forest.Holds parent) (solid : forest.Solid child) (different : child ≠ parent) :
    (forest.adopted parent child).Linked :=
  (linked.uprooted child).relist (linked.admits_append held solid different)

/-- Only the adopted node changes its parent. -/
theorem Linked.parentOf_adopted {forest : Forest} (linked : forest.Linked) {parent child : NodeId}
    (held : forest.Holds parent) (solid : forest.Solid child) (different : child ≠ parent)
    (id : NodeId) :
    (forest.adopted parent child).parentOf id =
      if id = child then some parent else forest.parentOf id := by
  have bare := linked.uprooted child
  rw [Forest.adopted, bare.parentOf_relist (linked.admits_append held solid different),
    linked.parentOf_uprooted]
  by_cases same : id = child
  · simp [same]
  · by_cases inside : id ∈ (forest.uprooted child).childrenOf parent
    · have above := bare.mem_childrenOf_iff.mp inside
      rw [linked.parentOf_uprooted, if_neg same] at above
      simp [same, inside, above]
    · simp [same, inside]

/-- The adopted node leaves every child list and stands at the end of the one of its parent. -/
theorem Linked.childrenOf_adopted {forest : Forest} (linked : forest.Linked)
    {parent : NodeId} (held : forest.Holds parent) (child other : NodeId) :
    (forest.adopted parent child).childrenOf other =
      if other = parent then (forest.childrenOf parent).erase child ++ [child]
      else (forest.childrenOf other).erase child := by
  rw [Forest.adopted, childrenOf_relist (by simpa using held), linked.childrenOf_uprooted,
    linked.childrenOf_uprooted]

/-- The nodes are adopted one after another. -/
def adoptedEach (forest : Forest) (parent : NodeId) : List NodeId → Forest
  | [] => forest
  | child :: rest => (forest.adopted parent child).adoptedEach parent rest

@[simp] theorem size_adoptedEach (forest : Forest) (parent : NodeId) (ids : List NodeId) :
    (forest.adoptedEach parent ids).size = forest.size := by
  induction ids generalizing forest with
  | nil => rfl
  | cons child rest ih => rw [adoptedEach, ih, size_adopted]

theorem Linked.adoptedEach {forest : Forest} (linked : forest.Linked) {parent : NodeId}
    {ids : List NodeId} (held : ids = [] ∨ forest.Holds parent)
    (solid : ∀ id ∈ ids, forest.Solid id) (different : ∀ id ∈ ids, id ≠ parent) :
    (forest.adoptedEach parent ids).Linked := by
  induction ids generalizing forest with
  | nil => exact linked
  | cons child rest ih =>
      have heldParent : forest.Holds parent := held.resolve_left (by simp)
      apply ih (linked.adopted heldParent (solid child (by simp)) (different child (by simp)))
      · exact .inr (by simpa using heldParent)
      · intro id member
        rw [solid_adopted]
        exact solid id (by simp [member])
      · intro id member
        exact different id (by simp [member])

/-- Exactly the adopted nodes change their parent. -/
theorem Linked.parentOf_adoptedEach {forest : Forest} (linked : forest.Linked) {parent : NodeId}
    {ids : List NodeId} (held : forest.Holds parent) (solid : ∀ id ∈ ids, forest.Solid id)
    (different : ∀ id ∈ ids, id ≠ parent) (other : NodeId) :
    (forest.adoptedEach parent ids).parentOf other =
      if other ∈ ids then some parent else forest.parentOf other := by
  induction ids generalizing forest with
  | nil => simp [Forest.adoptedEach]
  | cons child rest ih =>
      have solidFirst := solid child List.mem_cons_self
      have differentFirst := different child List.mem_cons_self
      rw [Forest.adoptedEach, ih (linked.adopted held solidFirst differentFirst)
        (by simpa using held) (fun id member => by simpa using solid id (by simp [member]))
        (fun id member => different id (by simp [member])),
        linked.parentOf_adopted held solidFirst differentFirst]
      by_cases same : other = child <;> simp [same]

/-- The adopted nodes leave every child list and stand in order at the end of the one of their
parent. -/
theorem Linked.childrenOf_adoptedEach {forest : Forest} (linked : forest.Linked) {parent : NodeId}
    {ids : List NodeId} (held : forest.Holds parent) (nodup : ids.Nodup)
    (solid : ∀ id ∈ ids, forest.Solid id) (different : ∀ id ∈ ids, id ≠ parent) (other : NodeId) :
    (forest.adoptedEach parent ids).childrenOf other =
      (forest.childrenOf other).filter (fun child => child ∉ ids) ++
        if other = parent then ids else [] := by
  induction ids generalizing forest with
  | nil => simp [Forest.adoptedEach]
  | cons child rest ih =>
      rw [List.nodup_cons] at nodup
      rw [List.forall_mem_cons] at solid different
      have kept : ((forest.childrenOf other).erase child).filter (fun id => id ∉ rest) =
          (forest.childrenOf other).filter fun id => id ∉ child :: rest := by
        rw [(linked.nodup_childrenOf other).erase_eq_filter, List.filter_filter]
        apply List.filter_congr
        intro id _
        by_cases same : id = child <;> simp [same]
      rw [Forest.adoptedEach, ih (linked.adopted held solid.1 different.1) (by simpa using held)
        nodup.2 (fun id member => by simpa using solid.2 id member) different.2,
        linked.childrenOf_adopted held]
      by_cases same : other = parent
      · subst other
        rw [if_pos rfl, if_pos rfl, if_pos rfl, List.filter_append, kept]
        simp [nodup.1]
      · rw [if_neg same, if_neg same, if_neg same, kept]

/-- The nodes are uprooted one after another. -/
def uprootedEach (forest : Forest) : List NodeId → Forest
  | [] => forest
  | id :: rest => (forest.uprooted id).uprootedEach rest

@[simp] theorem size_uprootedEach (forest : Forest) (ids : List NodeId) :
    (forest.uprootedEach ids).size = forest.size := by
  induction ids generalizing forest with
  | nil => rfl
  | cons id rest ih => rw [uprootedEach, ih, size_uprooted]

@[simp] theorem holds_uprootedEach (forest : Forest) (ids : List NodeId) (other : NodeId) :
    (forest.uprootedEach ids).Holds other ↔ forest.Holds other := by
  simp [Holds]

@[simp] theorem solid_uprootedEach (forest : Forest) (ids : List NodeId) (other : NodeId) :
    (forest.uprootedEach ids).Solid other ↔ forest.Solid other := by
  induction ids generalizing forest with
  | nil => rfl
  | cons id rest ih => rw [uprootedEach, ih, solid_uprooted]

theorem Linked.uprootedEach {forest : Forest} (linked : forest.Linked) (ids : List NodeId) :
    (forest.uprootedEach ids).Linked := by
  induction ids generalizing forest with
  | nil => exact linked
  | cons id rest ih => exact ih (linked.uprooted id)

/-- The uprooted nodes are gone from every child list. -/
theorem Linked.childrenOf_uprootedEach {forest : Forest} (linked : forest.Linked)
    (ids : List NodeId) (other : NodeId) :
    (forest.uprootedEach ids).childrenOf other =
      (forest.childrenOf other).filter fun child => child ∉ ids := by
  induction ids generalizing forest with
  | nil => simp [Forest.uprootedEach]
  | cons id rest ih =>
      rw [Forest.uprootedEach, ih (linked.uprooted id), linked.childrenOf_uprooted,
        (linked.nodup_childrenOf other).erase_eq_filter, List.filter_filter]
      apply List.filter_congr
      intro child _
      by_cases same : child = id <;> simp [same]

/-- Exactly the uprooted nodes lose their parent. -/
theorem Linked.parentOf_uprootedEach {forest : Forest} (linked : forest.Linked)
    (ids : List NodeId) (other : NodeId) :
    (forest.uprootedEach ids).parentOf other =
      if other ∈ ids then none else forest.parentOf other := by
  induction ids generalizing forest with
  | nil => simp [Forest.uprootedEach]
  | cons id rest ih =>
      rw [Forest.uprootedEach, ih (linked.uprooted id), linked.parentOf_uprooted]
      by_cases same : other = id <;> simp [same]

end Forest

end SyntaxForest
