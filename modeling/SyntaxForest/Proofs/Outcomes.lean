import SyntaxForest.Proofs.RangeReplacement

/-!
The outcomes of the edits that attach nodes. Once the arguments of such an edit are found fit, the
test of the incoming nodes alone decides between a refusal, which leaves the forest as it is, and
one finished forest.
-/

namespace SyntaxForest.EditM

variable {α : Type} {before after : Forest} {checkCycles : Bool}

/-- A verdict lets an edit end with its value and its forest, or stops it where it began. -/
def concluded (verdict : Except Stop Unit) (value : α) (before after : Forest) :
    EStateM.Result Stop Forest α :=
  match verdict with
  | .ok _ => .ok value after
  | .error stop => .error stop before

/-- An edit that runs through after its last question is concluded by the answer. -/
theorem query_bind_eq {question : Forest → Except Stop Unit} {next : Unit → EditM α} {value : α}
    (rest : question before = .ok () → next () before = .ok value after) :
    (query question >>= next) before = concluded (question before) value before after := by
  cases answered : question before with
  | ok verdict => rw [bind_ok (query_ok answered), rest answered, concluded]
  | error stop => rw [bind_error (query_error answered), concluded]

theorem appendEach_ok (linked : before.Linked) {parent : NodeId} {ids : List NodeId}
    (held : before.Holds parent) (solid : ∀ id ∈ ids, before.Solid id)
    (different : ∀ id ∈ ids, id ≠ parent) :
    appendEach parent ids before = .ok () (before.adoptedEach parent ids) := by
  induction ids generalizing before with
  | nil => rfl
  | cons child rest ih =>
      have solidFirst := solid child List.mem_cons_self
      have differentFirst := different child List.mem_cons_self
      rw [appendEach, bind_ok (append_ok linked held solidFirst differentFirst)]
      exact ih (linked.adopted held solidFirst differentFirst) (by simpa using held)
        (fun id member => by simpa using solid id (by simp [member]))
        (fun id member => different id (by simp [member]))

theorem addChild_eq (linked : before.Linked) {tree child : NodeId} {node : Node}
    (found : before.get? child = some node) (held : before.Holds tree) (different : child ≠ tree) :
    addChild checkCycles tree child before =
      concluded (before.checkAttach checkCycles tree (node.incoming child)) () before
        ((before.released child node).adoptedEach tree (node.incoming child)) := by
  have heldChild := Forest.holds_of_get? found
  rw [addChild, if_neg different, bind_ok (fetch_ok found)]
  apply query_bind_eq
  intro passed
  rw [bind_ok (release_ok linked heldChild node)]
  apply appendEach_ok (linked.released heldChild node) (by simpa using held)
  · intro id member
    rw [Forest.solid_released]
    exact linked.solid_incoming found id member
  · exact Forest.different_of_checkAttach passed

theorem setParent_eq (linked : before.Linked) {id parent : NodeId} (solid : before.Solid id)
    (held : before.Holds parent) :
    setParent checkCycles id (some parent) before =
      concluded (before.checkAttach checkCycles parent [id]) () before
        (before.adopted parent id) := by
  obtain ⟨node, found, concrete⟩ := solid
  rw [setParent, bind_ok (fetch_ok found), if_neg (by simp [concrete])]
  apply query_bind_eq
  intro passed
  exact append_ok linked held ⟨node, found, concrete⟩
    (Forest.different_of_checkAttach passed id List.mem_cons_self)

/-- A nil new root without exactly one child is refused before anything else is looked at. -/
theorem becomeRoot_of_malformed {newRoot : NodeId} {wrapper : Node} (oldRoot : NodeId)
    (found : before.get? newRoot = some wrapper) (nil : wrapper.content.isNil = true)
    (malformed : wrapper.children.length ≠ 1) :
    becomeRoot checkCycles newRoot (some oldRoot) before =
      .error (.refused (.malformedRoot wrapper.children.length)) before := by
  rw [becomeRoot, bind_error (query_error (Forest.effectiveRoot_of_length found nil malformed))]

theorem becomeRoot_eq (linked : before.Linked) {newRoot oldRoot root : NodeId}
    {wrapper node : Node} (effective : before.effectiveRoot newRoot = .ok root)
    (foundWrapper : before.get? newRoot = some wrapper)
    (found : before.get? oldRoot = some node) :
    becomeRoot checkCycles newRoot (some oldRoot) before =
      concluded (before.checkAttach checkCycles root (node.incoming oldRoot)) root before
        (((before.released newRoot wrapper).released oldRoot node).adoptedEach root
          (node.incoming oldRoot)) := by
  have heldWrapper := Forest.holds_of_get? foundWrapper
  have linkedNext := linked.released heldWrapper wrapper
  have held : (before.released newRoot wrapper).Holds oldRoot := by
    simpa using Forest.holds_of_get? found
  rw [becomeRoot, bind_ok (query_ok effective), bind_ok (fetch_ok found)]
  apply query_bind_eq
  intro passed
  rw [bind_ok (unwrap_ok linked effective foundWrapper), bind_ok (release_ok linkedNext held node)]
  have appended := appendEach_ok (linkedNext.released held node)
    (by simpa using (linked.solid_effectiveRoot effective).holds)
    (fun id member => by simpa using linked.solid_incoming found id member)
    (Forest.different_of_checkAttach passed)
  rw [bind_ok appended]
  rfl

theorem setChild_eq (linked : before.Linked) {tree child displaced : NodeId} {position : Nat}
    {node : Node} (held : before.Holds tree)
    (listed : (before.childrenOf tree)[position]? = some displaced)
    (found : before.get? child = some node) (concrete : node.content.isNil = false) :
    setChild checkCycles tree position child before =
      concluded (before.checkAttach checkCycles tree [child]) () before
        (if displaced = child then before else (before.uprooted child).relist tree
          (((before.childrenOf tree).erase child).set (node.slotAfterLeaving tree position)
            child)) := by
  rw [setChild, bind_ok (query_ok (Forest.childAt_eq_ok held listed)), bind_ok (fetch_ok found),
    if_neg (by simp [concrete])]
  apply query_bind_eq
  intro passed
  have different := Forest.different_of_checkAttach passed child List.mem_cons_self
  by_cases same : displaced = child
  · rw [if_pos same, if_pos same]
    rfl
  · rw [if_neg same, if_neg same]
    exact substitute_ok linked held listed found concrete different same

/-- A range that does not lie inside the list is refused before anything else is looked at. -/
theorem replaceChildren_of_outside {parent : NodeId} {start stop : Nat} (replacement : NodeId)
    (held : before.Holds parent)
    (outside : stop < start ∨ (before.childrenOf parent).length ≤ stop) :
    replaceChildren checkCycles parent start stop replacement before =
      .error (.refused (.rangeOutOfRange start stop (before.childrenOf parent).length))
        before := by
  obtain ⟨node, found⟩ := (before.holds_iff parent).mp held
  rw [Forest.childrenOf_eq found] at outside ⊢
  rw [replaceChildren, bind_ok (fetch_ok found), if_pos outside]
  rfl

/-- The parent cannot take the place of its own children. -/
theorem replaceChildren_of_same {parent : NodeId} {start stop : Nat} (held : before.Holds parent)
    (inside : ¬ (stop < start ∨ (before.childrenOf parent).length ≤ stop)) :
    replaceChildren checkCycles parent start stop parent before =
      .error (.refused .selfChild) before := by
  obtain ⟨node, found⟩ := (before.holds_iff parent).mp held
  rw [Forest.childrenOf_eq found] at inside
  rw [replaceChildren, bind_ok (fetch_ok found), if_neg inside, if_pos rfl]
  rfl

theorem replaceChildren_eq (linked : before.Linked) {parent replacement : NodeId}
    {start stop : Nat} {source : Node} (held : before.Holds parent) (ordered : start ≤ stop)
    (inside : stop < (before.childrenOf parent).length) (different : replacement ≠ parent)
    (found : before.get? replacement = some source) :
    replaceChildren checkCycles parent start stop replacement before =
      concluded (before.checkAttach checkCycles parent (source.incoming replacement)) () before
        (((before.released replacement source).uprootedEach
          ((source.incoming replacement).filter fun id =>
            id ∉ ((before.childrenOf parent).drop start).take (stop + 1 - start))).relist parent
          (placedBetween ((before.childrenOf parent).take start) (source.incoming replacement)
            ((before.childrenOf parent).drop (stop + 1)))) := by
  obtain ⟨node, foundParent⟩ := (before.holds_iff parent).mp held
  have inRange : ¬ (stop < start ∨ node.children.length ≤ stop) := by
    rw [← Forest.childrenOf_eq foundParent]
    omega
  rw [replaceChildren, bind_ok (fetch_ok foundParent), if_neg inRange, if_neg different,
    bind_ok (fetch_ok found), ← Forest.childrenOf_eq foundParent]
  apply query_bind_eq
  intro passed
  exact replaceRange_ok linked held ordered inside different found
    (Forest.different_of_checkAttach passed)

end SyntaxForest.EditM
