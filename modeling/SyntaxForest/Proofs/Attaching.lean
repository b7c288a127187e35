import SyntaxForest.Edit.Attach
import SyntaxForest.Proofs.Ancestors
import SyntaxForest.Proofs.LinkSteps

/-!
What the edits that attach nodes leave behind. Once its tests have passed, such an edit empties the
nil nodes it unwraps and lets the new parent adopt the incoming nodes one after another.
-/

namespace SyntaxForest

theorem Node.mem_incoming_iff {node : Node} {id other : NodeId} :
    other ∈ node.incoming id ↔ node.content.isNil = true ∧ other ∈ node.children ∨
      node.content.isNil = false ∧ other = id := by
  unfold Node.incoming
  split_ifs with nil <;> simp [nil]

theorem Node.incoming_of_concrete {node : Node} (concrete : node.content.isNil = false)
    (id : NodeId) : node.incoming id = [id] := by
  simp [incoming, concrete]

theorem Node.incoming_of_nil {node : Node} (nil : node.content.isNil = true) (id : NodeId) :
    node.incoming id = node.children := by
  simp [incoming, nil]

/-- One node comes in for every node but a nil node without exactly one child. -/
theorem Node.exists_incoming_eq_singleton (node : Node) (id : NodeId)
    (wellFormed : ¬ (node.content.isNil = true ∧ node.children.length ≠ 1)) :
    ∃ single, node.incoming id = [single] := by
  unfold Node.incoming
  split_ifs with nil
  · rw [not_and, not_not] at wellFormed
    exact List.length_eq_one_iff.mp (wellFormed nil)
  · exact ⟨id, rfl⟩

namespace Forest

/-- A forest follows another soundly when it is linked and, where cycles are checked for, has no
cycle that the other one lacks. -/
structure Follows (after : Forest) (checkCycles : Bool) (before : Forest) : Prop where
  linked : after.Linked
  acyclic : checkCycles = true → before.Acyclic → after.Acyclic

/-- A linked forest with fewer links follows soundly. -/
theorem Narrows.follows {before after : Forest} (narrows : after.Narrows before)
    (linked : after.Linked) (checkCycles : Bool) : after.Follows checkCycles before :=
  ⟨linked, fun _ acyclic => acyclic.narrow narrows⟩

theorem Linked.follows {forest : Forest} (linked : forest.Linked) (checkCycles : Bool) :
    forest.Follows checkCycles forest :=
  ⟨linked, fun _ acyclic => acyclic⟩

theorem Follows.trans {first second third : Forest} {checkCycles : Bool}
    (later : third.Follows checkCycles second) (earlier : second.Follows checkCycles first) :
    third.Follows checkCycles first :=
  ⟨later.linked, fun checked acyclic => later.acyclic checked (earlier.acyclic checked acyclic)⟩

/-- A nil node gives its children away. -/
def released (forest : Forest) (id : NodeId) (node : Node) : Forest :=
  if node.content.isNil then forest.emptied id else forest

/-- A concrete node gives nothing away. -/
theorem released_of_concrete {node : Node} (concrete : node.content.isNil = false)
    (forest : Forest) (id : NodeId) : forest.released id node = forest := by
  simp [released, concrete]

section Released

variable (forest : Forest) (id : NodeId) (node : Node)

@[simp] theorem size_released : (forest.released id node).size = forest.size := by
  unfold released
  split_ifs <;> simp [emptied]

@[simp] theorem holds_released (other : NodeId) :
    (forest.released id node).Holds other ↔ forest.Holds other := by
  simp [Holds]

@[simp] theorem solid_released (other : NodeId) :
    (forest.released id node).Solid other ↔ forest.Solid other := by
  unfold released
  split_ifs <;> simp [emptied]

end Released

theorem Linked.narrows_emptied {forest : Forest} (linked : forest.Linked) (id : NodeId) :
    (forest.emptied id).Narrows forest :=
  linked.narrows_relist (List.nil_subset _)

theorem Linked.released {forest : Forest} (linked : forest.Linked) {id : NodeId}
    (held : forest.Holds id) (node : Node) : (forest.released id node).Linked := by
  unfold Forest.released
  split_ifs
  · exact linked.emptied held
  · exact linked

theorem Linked.narrows_released {forest : Forest} (linked : forest.Linked) (id : NodeId)
    (node : Node) : (forest.released id node).Narrows forest := by
  unfold Forest.released
  split_ifs
  · exact linked.narrows_emptied id
  · exact fun _ _ link => link

/-- What comes in for a node is solid. -/
theorem Linked.solid_incoming {forest : Forest} (linked : forest.Linked) {id : NodeId}
    {node : Node} (found : forest.get? id = some node) :
    ∀ child ∈ node.incoming id, forest.Solid child := by
  intro child member
  unfold Node.incoming at member
  split_ifs at member with nil
  · rw [← childrenOf_eq found] at member
    exact linked.solid_of_mem member
  · rw [List.mem_singleton.mp member]
    exact ⟨node, found, by simpa using nil⟩

theorem Linked.nodup_incoming {forest : Forest} (linked : forest.Linked) {id : NodeId}
    {node : Node} (found : forest.get? id = some node) : (node.incoming id).Nodup := by
  unfold Node.incoming
  split_ifs
  · rw [← childrenOf_eq found]
    exact linked.nodup_childrenOf id
  · exact List.nodup_singleton id

/-- Only a nil node itself loses children when it gives them away. -/
theorem childrenOf_released {forest : Forest} {id other : NodeId} (held : forest.Holds id)
    (different : id ≠ other) (node : Node) :
    (forest.released id node).childrenOf other = forest.childrenOf other := by
  unfold Forest.released
  split_ifs
  · rw [emptied, childrenOf_relist held, if_neg different.symm]
  · rfl

/-- A nil node that gives its children away loses none but those that come in for it. -/
theorem filter_released {forest : Forest} {id : NodeId} {node : Node} (held : forest.Holds id)
    (given : node.content.isNil = true → forest.childrenOf id ⊆ node.children) (other : NodeId) :
    ((forest.released id node).childrenOf other).filter (fun child => child ∉ node.incoming id) =
      (forest.childrenOf other).filter fun child => child ∉ node.incoming id := by
  by_cases own : node.content.isNil = true ∧ other = id
  · obtain ⟨nil, rfl⟩ := own
    have gone :
        (forest.childrenOf other).filter (fun child => child ∉ node.incoming other) = [] := by
      apply List.filter_eq_nil_iff.mpr
      intro child member
      simp [Node.mem_incoming_iff, nil, given nil member]
    rw [gone, released, if_pos nil, emptied, childrenOf_relist held, if_pos rfl]
    rfl
  · unfold released
    split_ifs with nil
    · rw [emptied, childrenOf_relist held, if_neg fun same => own ⟨nil, same⟩]
    · rfl

/-- Only the children of a released nil node lose their parent. -/
theorem Linked.parentOf_released {forest : Forest} (linked : forest.Linked) {id : NodeId}
    (held : forest.Holds id) (node : Node) (other : NodeId) :
    (forest.released id node).parentOf other =
      if node.content.isNil = true ∧ other ∈ forest.childrenOf id then none
      else forest.parentOf other := by
  unfold Forest.released
  split_ifs with nil gone gone
  · rw [Forest.emptied, linked.parentOf_relist (linked.admits_sublist held (List.nil_sublist _))]
    simp [gone.2]
  · have stays : other ∉ forest.childrenOf id := fun inside => gone ⟨nil, inside⟩
    rw [Forest.emptied, linked.parentOf_relist (linked.admits_sublist held (List.nil_sublist _))]
    simp [stays]
  · exact absurd gone.1 nil
  · rfl

/-- A nil node that gives its children away cuts no link to a solid node. -/
theorem Linked.childOf_released {forest : Forest} (linked : forest.Linked) {id child above : NodeId}
    {node : Node} (held : forest.Holds id)
    (hollow : node.content.isNil = true → ¬ forest.Solid id)
    (link : forest.ChildOf child above) (solid : forest.Solid above) :
    (forest.released id node).ChildOf child above := by
  rw [ChildOf, linked.parentOf_released held, if_neg, link]
  rintro ⟨nil, member⟩
  rw [linked.mem_childrenOf_iff, link, Option.some.injEq] at member
  exact hollow nil (member ▸ solid)

/-- A nil node is not solid. -/
theorem not_solid_of_nil {forest : Forest} {id : NodeId} {node : Node}
    (found : forest.get? id = some node) (nil : node.content.isNil = true) : ¬ forest.Solid id := by
  rintro ⟨record, foundAgain, concrete⟩
  rw [found, Option.some.injEq] at foundAgain
  rw [← foundAgain, nil] at concrete
  contradiction

section Check

variable {forest : Forest} {checkCycles : Bool} {parent : NodeId} {ids handles : List NodeId}

theorem checkAttach_cons_eq_ok_iff {first : NodeId} :
    forest.checkAttach checkCycles parent (first :: ids) = .ok () ↔
      first ≠ parent ∧ (checkCycles = true → forest.isAncestorOrSelf first parent = .ok false) ∧
        forest.checkAttach checkCycles parent ids = .ok () := by
  rw [checkAttach]
  by_cases same : first = parent
  · simp [same]
  · cases checkCycles with
    | false => simp [same, Bind.bind, Except.bind]
    | true =>
        cases answered : forest.isAncestorOrSelf first parent with
        | error stop => simp [same, Bind.bind, Except.bind]
        | ok above => cases above <;> simp [same, Bind.bind, Except.bind]

/-- Nodes that pass the check differ from the parent. -/
theorem different_of_checkAttach (passed : forest.checkAttach checkCycles parent ids = .ok ()) :
    ∀ id ∈ ids, id ≠ parent := by
  induction ids with
  | nil => simp
  | cons first rest ih =>
      obtain ⟨different, _, passed⟩ := checkAttach_cons_eq_ok_iff.mp passed
      intro id member
      rcases List.mem_cons.mp member with rfl | inside
      · exact different
      · exact ih passed id inside

/-- Nodes that pass the check for cycles are clear. -/
theorem clear_of_checkAttach (passed : forest.checkAttach true parent ids = .ok ()) :
    forest.Clear parent ids := by
  induction ids with
  | nil => exact fun _ member => absurd member List.not_mem_nil
  | cons first rest ih =>
      obtain ⟨_, denied, passed⟩ := checkAttach_cons_eq_ok_iff.mp passed
      intro id member
      rcases List.mem_cons.mp member with rfl | inside
      · exact not_reaches_of_isAncestorOrSelf (denied rfl)
      · exact ih passed id inside

theorem Linked.blames_checkAttach (linked : forest.Linked) (checkCycles : Bool)
    (listed : forest.Holds parent ∨ parent ∈ handles) (ids : List NodeId) :
    forest.Blames handles (forest.checkAttach checkCycles parent ids) := by
  induction ids with
  | nil => exact .ok ()
  | cons first rest ih =>
      have asked : forest.Blames handles
          (if checkCycles then forest.isAncestorOrSelf first parent else .ok false) := by
        split_ifs
        · exact linked.blames_isAncestorOrSelf first listed
        · exact .ok false
      rw [checkAttach]
      by_cases same : first = parent
      · rw [if_pos same]
        exact .refused .selfChild
      · rw [if_neg same]
        apply asked.bind
        intro above _
        split_ifs
        · exact .refused .cycle
        · exact ih

/-- Incoming nodes that passed the check join a child list soundly. -/
theorem Linked.follows_relist {middle : Forest} (linked : middle.Linked)
    (narrows : middle.Narrows forest) {children : List NodeId}
    (admits : middle.Admits parent children)
    (passed : forest.checkAttach checkCycles parent ids = .ok ())
    (joined : ∀ child ∈ children, child ∈ middle.childrenOf parent ∨ child ∈ ids) :
    (middle.relist parent children).Follows checkCycles forest := by
  refine ⟨linked.relist admits, fun checked acyclic => ?_⟩
  rw [checked] at passed
  have bare := acyclic.narrow narrows
  apply bare.relist
  intro child member
  rcases joined child member with inside | incoming
  · exact bare.clear_childrenOf linked parent child inside
  · exact (clear_of_checkAttach passed).narrow narrows child incoming

/-- The effective root is a concrete node itself, or the only child of a nil node. -/
theorem effectiveRoot_cases (forest : Forest) {newRoot root : NodeId}
    (effective : forest.effectiveRoot newRoot = .ok root) :
    ∃ node, forest.get? newRoot = some node ∧
      (node.content.isNil = false ∧ root = newRoot ∨
        node.content.isNil = true ∧ node.children = [root]) := by
  obtain ⟨node, fetched, effective⟩ := answer_of_bind effective
  refine ⟨node, get?_of_fetch fetched, ?_⟩
  split_ifs at effective with nil
  · split at effective
    · next single children =>
        cases effective
        exact .inr ⟨nil, children⟩
    · contradiction
  · cases effective
    exact .inl ⟨by simpa using nil, rfl⟩

/-- What comes in for a node is its effective root, if that is one node. -/
theorem effectiveRoot_of_incoming {newRoot root : NodeId} {node : Node}
    (found : forest.get? newRoot = some node) (single : node.incoming newRoot = [root]) :
    forest.effectiveRoot newRoot = .ok root := by
  rw [effectiveRoot, fetch_eq_ok found]
  unfold Node.incoming at single
  split_ifs at single with nil
  · simp [Bind.bind, Except.bind, Pure.pure, Except.pure, nil, single]
  · rw [List.singleton_inj] at single
    simp [Bind.bind, Except.bind, Pure.pure, Except.pure, nil, single]

/-- A nil node without exactly one child has no effective root. -/
theorem effectiveRoot_of_length {newRoot : NodeId} {node : Node}
    (found : forest.get? newRoot = some node) (nil : node.content.isNil = true)
    (malformed : node.children.length ≠ 1) :
    forest.effectiveRoot newRoot = .error (.refused (.malformedRoot node.children.length)) := by
  rw [effectiveRoot, fetch_eq_ok found]
  simp only [Bind.bind, Except.bind, nil, if_true]
  split
  · next single children =>
      rw [children] at malformed
      contradiction
  · rfl

/-- A root that exists is refused only as a nil node without exactly one child. -/
theorem effectiveRoot_error {newRoot : NodeId} {node : Node} {stop : Stop}
    (found : forest.get? newRoot = some node)
    (stopped : forest.effectiveRoot newRoot = .error stop) :
    ∃ children, stop = .refused (.malformedRoot children) := by
  rw [effectiveRoot, fetch_eq_ok found] at stopped
  simp only [Bind.bind, Except.bind] at stopped
  split_ifs at stopped
  · split at stopped
    · contradiction
    · cases stopped
      exact ⟨_, rfl⟩
  · contradiction

theorem Linked.solid_effectiveRoot (linked : forest.Linked) {newRoot root : NodeId}
    (effective : forest.effectiveRoot newRoot = .ok root) : forest.Solid root := by
  obtain ⟨node, found, ⟨solid, rfl⟩ | ⟨_, children⟩⟩ := forest.effectiveRoot_cases effective
  · exact ⟨node, found, solid⟩
  · have member : root ∈ forest.childrenOf newRoot := by
      rw [childrenOf_eq found, children]
      exact List.mem_cons_self
    exact linked.solid_of_mem member

theorem blames_effectiveRoot (forest : Forest) {newRoot : NodeId} (listed : newRoot ∈ handles) :
    forest.Blames handles (forest.effectiveRoot newRoot) := by
  apply Blames.bind (forest.blames_fetch (.inr listed))
  intro node _
  split_ifs
  · split
    · exact .ok _
    · exact .refused _
  · exact .ok newRoot

/-- Incoming nodes that passed the check are adopted soundly. -/
theorem Linked.follows_adoptedEach {middle : Forest} (linked : middle.Linked)
    (narrows : middle.Narrows forest) (held : ids = [] ∨ middle.Holds parent)
    (solid : ∀ id ∈ ids, middle.Solid id)
    (passed : forest.checkAttach checkCycles parent ids = .ok ()) :
    (middle.adoptedEach parent ids).Follows checkCycles forest := by
  constructor
  · exact linked.adoptedEach held solid (different_of_checkAttach passed)
  · intro checked acyclic
    rw [checked] at passed
    exact (acyclic.narrow narrows).adoptedEach linked held solid
      ((clear_of_checkAttach passed).narrow narrows)

end Check

end Forest

namespace EditM

variable {before : Forest} {checkCycles : Bool}

theorem release_ok (linked : before.Linked) {id : NodeId} (held : before.Holds id) (node : Node) :
    release id node before = .ok () (before.released id node) := by
  unfold release Forest.released
  split_ifs
  · exact takeChildren_ok linked held
  · rfl

/-- The tree adopts the child, or the children of a nil child. -/
theorem addChild_ensures (linked : before.Linked) (tree child : NodeId) :
    (addChild checkCycles tree child).Ensures before [tree, child] fun _ after =>
      ∃ node, before.get? child = some node ∧ child ≠ tree ∧
        before.checkAttach checkCycles tree (node.incoming child) = .ok () ∧
        (node.incoming child = [] ∨ before.Holds tree) ∧
        after = (before.released child node).adoptedEach tree (node.incoming child) := by
  unfold addChild
  split_ifs with same
  · exact .refuse .selfChild
  · apply Ensures.bind_fetch (.inr (by simp))
    intro node found
    apply Ensures.bind_query (linked.blames_checkAttach checkCycles (.inr List.mem_cons_self) _)
    intro _ passed
    have held := Forest.holds_of_get? found
    apply Ensures.bind_ok (release_ok linked held node) (by simp)
    refine (appendEach_ensures (linked.released held node) (.inr List.mem_cons_self) ?_
      (Forest.different_of_checkAttach passed)).mono (List.Subset.refl _) ?_
    · intro id member
      rw [Forest.solid_released]
      exact linked.solid_incoming found id member
    · rintro _ after ⟨present, result⟩
      exact ⟨node, found, same, passed, by simpa using present, result⟩

theorem addChild_follows (linked : before.Linked) (tree child : NodeId) :
    (addChild checkCycles tree child).Ensures before [tree, child] fun _ after =>
      after.Follows checkCycles before := by
  refine (addChild_ensures linked tree child).mono (List.Subset.refl _) ?_
  rintro _ after ⟨node, found, _, passed, present, rfl⟩
  have held := Forest.holds_of_get? found
  refine (linked.released held node).follows_adoptedEach (linked.narrows_released child node)
    (by simpa using present) ?_ passed
  intro id member
  rw [Forest.solid_released]
  exact linked.solid_incoming found id member

/-- The node becomes a root, or the parent adopts it. -/
theorem setParent_ensures (linked : before.Linked) (id : NodeId) (parent : Option NodeId) :
    (setParent checkCycles id parent).Ensures before (id :: parent.toList) fun _ after =>
      match parent with
      | none => before.Holds id ∧ after = before.uprooted id
      | some parent => before.Solid id ∧ before.Holds parent ∧
          before.checkAttach checkCycles parent [id] = .ok () ∧
          after = before.adopted parent id := by
  cases parent with
  | none =>
      by_cases held : before.Holds id
      · exact .of_ok (detach_ok linked held) (by simp) ⟨held, rfl⟩
      · apply Ensures.bind_fetch (.inr List.mem_cons_self)
        intro node found
        exact absurd (Forest.holds_of_get? found) held
  | some parent =>
      apply Ensures.bind_fetch (.inr List.mem_cons_self)
      intro node found
      split_ifs with nil
      · exact .refuse .nilChild
      · have solid : before.Solid id := ⟨node, found, by simpa using nil⟩
        have listed : before.Holds parent ∨ parent ∈ id :: (some parent).toList := .inr (by simp)
        apply Ensures.bind_query (linked.blames_checkAttach checkCycles listed _)
        intro _ passed
        have different := Forest.different_of_checkAttach passed id List.mem_cons_self
        refine (append_ensures linked listed solid different).mono (List.Subset.refl _) ?_
        rintro _ after ⟨held, result⟩
        exact ⟨solid, held, passed, result⟩

theorem setParent_follows (linked : before.Linked) (id : NodeId) (parent : Option NodeId) :
    (setParent checkCycles id parent).Ensures before (id :: parent.toList) fun _ after =>
      after.Follows checkCycles before := by
  refine (setParent_ensures linked id parent).mono (List.Subset.refl _) ?_
  intro _ after result
  cases parent with
  | none =>
      obtain ⟨_, rfl⟩ := result
      exact (linked.narrows_uprooted id).follows (linked.uprooted id) checkCycles
  | some parent =>
      obtain ⟨solid, held, passed, rfl⟩ := result
      refine linked.follows_adoptedEach (fun _ _ link => link) (.inr held) ?_ passed
      intro other member
      rw [List.mem_singleton.mp member]
      exact solid

/-- A nil new root gives its only child away. -/
theorem unwrap_ok (linked : before.Linked) {newRoot root : NodeId} {wrapper : Node}
    (effective : before.effectiveRoot newRoot = .ok root)
    (found : before.get? newRoot = some wrapper) :
    (if root = newRoot then pure () else takeChildren newRoot : EditM Unit) before =
      .ok () (before.released newRoot wrapper) := by
  obtain ⟨node, foundAgain, kind⟩ := before.effectiveRoot_cases effective
  rw [found, Option.some.injEq] at foundAgain
  subst node
  rcases kind with ⟨concrete, rfl⟩ | ⟨nil, children⟩
  · rw [if_pos rfl, Forest.released, if_neg (by simp [concrete])]
    rfl
  · have different : root ≠ newRoot := by
      apply linked.ne_of_mem
      rw [Forest.childrenOf_eq found, children]
      exact List.mem_cons_self
    rw [if_neg different, Forest.released, if_pos nil]
    exact takeChildren_ok linked (Forest.holds_of_get? found)

/-- The old root, or its children, come below the effective root, and a nil new root is emptied. -/
theorem becomeRoot_ensures (linked : before.Linked) (newRoot oldRoot : NodeId) :
    (becomeRoot checkCycles newRoot (some oldRoot)).Ensures before [newRoot, oldRoot]
      fun root after => ∃ wrapper node, before.get? newRoot = some wrapper ∧
        before.get? oldRoot = some node ∧ before.effectiveRoot newRoot = .ok root ∧
        before.checkAttach checkCycles root (node.incoming oldRoot) = .ok () ∧
        after = ((before.released newRoot wrapper).released oldRoot node).adoptedEach root
          (node.incoming oldRoot) := by
  apply Ensures.bind_query (before.blames_effectiveRoot List.mem_cons_self)
  intro root effective
  apply Ensures.bind_fetch (.inr (by simp))
  intro node found
  have solid := linked.solid_effectiveRoot effective
  apply Ensures.bind_query (linked.blames_checkAttach checkCycles (.inl solid.holds) _)
  intro _ passed
  obtain ⟨wrapper, foundWrapper, _⟩ := before.effectiveRoot_cases effective
  have linkedNext := linked.released (Forest.holds_of_get? foundWrapper) wrapper
  have held : (before.released newRoot wrapper).Holds oldRoot := by
    simpa using Forest.holds_of_get? found
  apply Ensures.bind_ok (unwrap_ok linked effective foundWrapper) (by simp)
  apply Ensures.bind_ok (release_ok linkedNext held node) (by simp)
  refine Ensures.bind (appendEach_ensures (linkedNext.released held node)
    (.inl (by simpa using solid.holds)) ?_ (Forest.different_of_checkAttach passed)) ?_
  · intro id member
    rw [Forest.solid_released, Forest.solid_released]
    exact linked.solid_incoming found id member
  · rintro _ after _ ⟨_, result⟩
    exact .pure ⟨wrapper, node, foundWrapper, found, effective, passed, result⟩

theorem becomeRoot_follows (linked : before.Linked) (newRoot : NodeId)
    (oldRoot : Option NodeId) :
    (becomeRoot checkCycles newRoot oldRoot).Ensures before (newRoot :: oldRoot.toList)
      fun _ after => after.Follows checkCycles before := by
  cases oldRoot with
  | none => exact .pure (linked.follows checkCycles)
  | some oldRoot =>
      refine (becomeRoot_ensures linked newRoot oldRoot).mono (List.Subset.refl _) ?_
      rintro root after ⟨wrapper, node, foundWrapper, found, effective, passed, rfl⟩
      have linkedNext := linked.released (Forest.holds_of_get? foundWrapper) wrapper
      have held : (before.released newRoot wrapper).Holds oldRoot := by
        simpa using Forest.holds_of_get? found
      refine (linkedNext.released held node).follows_adoptedEach
        ((linkedNext.narrows_released oldRoot node).trans (linked.narrows_released newRoot wrapper))
        (.inr (by simpa using (linked.solid_effectiveRoot effective).holds)) ?_ passed
      intro id member
      rw [Forest.solid_released, Forest.solid_released]
      exact linked.solid_incoming found id member

/-- A nil root with one child lets it go, and no other root changes anything. -/
theorem unwrapRoot_ensures (linked : before.Linked) (root : NodeId) :
    (unwrapRoot root).Ensures before [root] fun result after =>
      after = before ∨
        ∃ single, before.childrenOf root = [single] ∧ result = some single ∧
          after = before.uprooted single := by
  apply Ensures.bind_fetch (.inr List.mem_cons_self)
  intro node found
  split_ifs
  · split
    · exact .pure (.inl rfl)
    · next single children =>
        rw [← Forest.childrenOf_eq found] at children
        have solid := linked.solid_of_mem (children ▸ List.mem_cons_self)
        apply Ensures.bind_ok (detach_ok linked solid.holds) (by simp)
        exact .pure (.inr ⟨single, children, rfl, rfl⟩)
    · exact .pure (.inl rfl)
  · exact .pure (.inl rfl)

theorem unwrapRoot_follows (linked : before.Linked) (root : NodeId) :
    (unwrapRoot root).Ensures before [root] fun _ after => after.Follows checkCycles before := by
  refine (unwrapRoot_ensures linked root).mono (List.Subset.refl _) ?_
  rintro _ after (rfl | ⟨single, _, _, rfl⟩)
  · exact linked.follows checkCycles
  · exact (linked.narrows_uprooted single).follows (linked.uprooted single) checkCycles

end EditM

end SyntaxForest
