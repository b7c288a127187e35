import SyntaxForest.Proofs.Persistence
import SyntaxForest.Proofs.Transfers

/-!
Adding a child. A concrete child becomes the last child of its tree. A nil child gives its children
away, and this ends as adding them one after another does: an accepted node puts nothing above the
tree, so the test of the whole list finds what the tests of its members find in turn.
-/

namespace SyntaxForest

namespace Forest

open Relation

variable {forest : Forest} {parent child : NodeId} {ids : List NodeId} {checkCycles : Bool}

/-- The check of a list is the check of its first node followed by the check of the others. -/
theorem checkAttach_cons (forest : Forest) (checkCycles : Bool) (parent first : NodeId)
    (rest : List NodeId) :
    forest.checkAttach checkCycles parent (first :: rest) =
      (forest.checkAttach checkCycles parent [first]).bind fun _ =>
        forest.checkAttach checkCycles parent rest := by
  rw [checkAttach, checkAttach]
  by_cases same : first = parent
  · rw [if_pos same, if_pos same]
    rfl
  · rw [if_neg same, if_neg same]
    rcases (if checkCycles then forest.isAncestorOrSelf first parent
      else .ok false) with stop | above
    · rfl
    · cases above <;> rfl

/-- Adopting a clear node leaves the ancestors of its parent as they are. -/
theorem Acyclic.reaches_adopted_iff (acyclic : forest.Acyclic) (linked : forest.Linked)
    (held : forest.Holds parent) (solid : forest.Solid child)
    (clear : forest.Clear parent [child]) (above : NodeId) :
    ReflTransGen (forest.adopted parent child).ChildOf parent above ↔
      ReflTransGen forest.ChildOf parent above := by
  refine ⟨acyclic.reaches_of_adopted linked clear, fun path => ?_⟩
  have notAbove := clear child List.mem_cons_self
  have different : child ≠ parent := by
    rintro rfl
    exact notAbove .refl
  induction path with
  | refl => exact .refl
  | @tail middle above path link ih =>
      have stays : middle ≠ child := fun same => notAbove (same ▸ path)
      refine ih.tail ?_
      rwa [ChildOf, linked.parentOf_adopted held solid different, if_neg stays]

/-- A node that passed the check and was adopted makes no difference to later checks. -/
theorem Linked.checkAttach_adopted (linked : forest.Linked)
    (acyclic : checkCycles = true → forest.Acyclic) (held : forest.Holds parent)
    (solid : forest.Solid child)
    (passed : forest.checkAttach checkCycles parent [child] = .ok ()) (ids : List NodeId) :
    (forest.adopted parent child).checkAttach checkCycles parent ids =
      forest.checkAttach checkCycles parent ids := by
  have different := different_of_checkAttach passed child List.mem_cons_self
  induction ids with
  | nil => rfl
  | cons first rest ih =>
      have same : (if checkCycles then (forest.adopted parent child).isAncestorOrSelf first parent
          else .ok false) =
          if checkCycles then forest.isAncestorOrSelf first parent else .ok false := by
        split_ifs with checked
        · subst checked
          have acyclic := acyclic rfl
          have clear := clear_of_checkAttach passed
          obtain ⟨isAbove, answered, exact⟩ := acyclic.exists_isAncestorOrSelf linked held first
          obtain ⟨isAboveNext, answeredNext, exactNext⟩ :=
            (acyclic.adopted linked clear).exists_isAncestorOrSelf
              (linked.adopted held solid different) (by simpa using held) first
          rw [acyclic.reaches_adopted_iff linked held solid clear, ← exact] at exactNext
          rw [answered, answeredNext, Bool.eq_iff_iff.mpr exactNext]
        · rfl
      rw [checkAttach, checkAttach, same, ih]

/-- Nodes that leave the list of a nil node before they are adopted end up as nodes that leave it
one by one. -/
theorem Linked.adoptedEach_released (linked : forest.Linked) (held : forest.Holds parent)
    {node : Node} (found : forest.get? child = some node)
    (different : ∀ id ∈ node.incoming child, id ≠ parent) :
    (forest.released child node).adoptedEach parent (node.incoming child) =
      forest.adoptedEach parent (node.incoming child) := by
  have heldChild := holds_of_get? found
  have solid := linked.solid_incoming found
  have nodup := linked.nodup_incoming found
  have linkedNext := linked.released heldChild node
  have solidNext : ∀ id ∈ node.incoming child, (forest.released child node).Solid id :=
    fun id member => by simpa using solid id member
  apply ((Relinks.released forest child node).trans (.adoptedEach _ _ _)).eq_of_childrenOf
    (.adoptedEach forest parent _)
    (linkedNext.adoptedEach (.inr (by simpa using held)) solidNext different)
    (linked.adoptedEach (.inr held) solid different)
  intro other
  rw [linkedNext.childrenOf_adoptedEach (by simpa using held) nodup solidNext different,
    linked.childrenOf_adoptedEach held nodup solid different, filter_released heldChild]
  intro _
  rw [childrenOf_eq found]
  exact List.Subset.refl _

end Forest

/-- Adding a concrete child is concluded by the check of this child, also where it is the tree. -/
theorem EditM.addChild_solid {before : Forest} {checkCycles : Bool} (linked : before.Linked)
    {tree child : NodeId} (held : before.Holds tree) (solid : before.Solid child) :
    addChild checkCycles tree child before =
      concluded (before.checkAttach checkCycles tree [child]) () before
        (before.adopted tree child) := by
  obtain ⟨node, found, concrete⟩ := solid
  by_cases same : child = tree
  · rw [addChild, if_pos same, Forest.checkAttach, if_pos same]
    rfl
  · rw [addChild_eq linked found held same, Node.incoming_of_concrete concrete,
      Forest.released_of_concrete concrete]
    rfl

namespace Builder

open Relation

variable {builder : Builder}

/-- The requests are made in turn, and the first one that stops ends the course with its stop. -/
def performEach (builder : Builder) : List Request → Except Stop Unit × Builder
  | [] => (.ok (), builder)
  | request :: rest =>
      match builder.perform request with
      | (.ok _, next) => next.performEach rest
      | (.error stop, next) => (.error stop, next)

theorem performEach_cons {after : Builder} {request : Request} {reply : Reply}
    (replied : builder.perform request = (.ok reply, after)) (rest : List Request) :
    builder.performEach (request :: rest) = after.performEach rest := by
  rw [performEach, replied]

/-- The first request of a completed course got a reply. -/
theorem reply_of_performEach {after : Builder} {request : Request} {rest : List Request}
    (ran : builder.performEach (request :: rest) = (.ok (), after)) :
    ∃ reply next, builder.perform request = (.ok reply, next) ∧
      next.performEach rest = (.ok (), after) := by
  rcases outcome : builder.perform request with ⟨stop | reply, next⟩
  · rw [performEach, outcome] at ran
    cases ran
  · rw [performEach_cons outcome] at ran
    exact ⟨reply, next, rfl, ran⟩

/-- A completed course is followed by the rest of the requests. -/
theorem performEach_append {after : Builder} {requests : List Request}
    (ran : builder.performEach requests = (.ok (), after)) (rest : List Request) :
    builder.performEach (requests ++ rest) = after.performEach rest := by
  induction requests generalizing builder with
  | nil =>
      cases ran
      rfl
  | cons request others ih =>
      obtain ⟨reply, next, replied, ran⟩ := reply_of_performEach ran
      rw [List.cons_append, performEach_cons replied, ih ran]

/-- A completed course is a run. -/
theorem run?_of_performEach {after : Builder} {requests : List Request}
    (ran : builder.performEach requests = (.ok (), after)) : builder.run? requests = some after := by
  induction requests generalizing builder with
  | nil =>
      cases ran
      rfl
  | cons request rest ih =>
      obtain ⟨reply, next, replied, ran⟩ := reply_of_performEach ran
      rw [run?, step?_eq_some_iff.mpr (.inl ⟨reply, replied⟩)]
      exact ih ran

/-- Adding concrete nodes in turn is concluded by the check of the whole list in the forest in which
the course begins. -/
theorem Sound.performEach_addChild (sound : builder.Sound) {tree : NodeId} {ids : List NodeId}
    (held : builder.forest.Holds tree) (solid : ∀ id ∈ ids, builder.forest.Solid id) :
    (builder.forest.checkAttach builder.options.checkCycles tree ids = .ok () →
      builder.performEach (ids.map fun id => .edit (.addChild tree id)) =
        (.ok (), { builder with forest := builder.forest.adoptedEach tree ids })) ∧
    ∀ stop, builder.forest.checkAttach builder.options.checkCycles tree ids = .error stop →
      (builder.performEach (ids.map fun id => .edit (.addChild tree id))).1 = .error stop := by
  induction ids generalizing builder with
  | nil => exact ⟨fun _ => rfl, fun _ stopped => by cases stopped⟩
  | cons first rest ih =>
      rw [List.forall_mem_cons] at solid
      have applied : (Edit.addChild tree first).apply builder.options.checkCycles builder.forest =
          _ := EditM.map_concluded (EditM.addChild_solid sound.linked held solid.1)
            fun _ => Reply.done
      rw [List.map_cons, performEach, Forest.checkAttach_cons]
      cases verdict : builder.forest.checkAttach builder.options.checkCycles tree [first] with
      | error stop =>
          rw [verdict, EditM.concluded] at applied
          rw [perform_of_stop applied]
          exact ⟨fun passed => (by cases passed), fun _ stopped => stopped⟩
      | ok _ =>
          rw [verdict, EditM.concluded] at applied
          have performed := perform_of_reply applied
          have soundNext := sound.step (step?_eq_some_iff.mpr (.inl ⟨_, performed⟩))
          rw [performed, Except.bind, ← sound.linked.checkAttach_adopted sound.acyclic held solid.1
            verdict rest]
          exact ih soundNext (by simpa using held) fun id member => by simpa using solid.2 id member

/-- Adding a nil child is concluded by the check of its children, and then it leaves what adding
them in turn leaves. -/
theorem Sound.perform_addChild_nil (sound : builder.Sound) {tree child : NodeId} {node : Node}
    (held : builder.forest.Holds tree) (found : builder.forest.get? child = some node)
    (nil : node.content.isNil = true) (different : child ≠ tree) :
    (builder.forest.checkAttach builder.options.checkCycles tree node.children = .ok () →
      builder.perform (.edit (.addChild tree child)) =
        (.ok .done, { builder with forest := builder.forest.adoptedEach tree node.children }) ∧
      (builder.forest.adoptedEach tree node.children).childrenOf child = []) ∧
    ∀ stop, builder.forest.checkAttach builder.options.checkCycles tree node.children =
        .error stop →
      builder.perform (.edit (.addChild tree child)) = (.error stop, builder) := by
  have linked := sound.linked
  have members := Node.incoming_of_nil nil child
  have applied : (Edit.addChild tree child).apply builder.options.checkCycles builder.forest = _ :=
    EditM.map_concluded (EditM.addChild_eq linked found held different) fun _ => Reply.done
  have solid := linked.solid_incoming found
  have nodup := linked.nodup_incoming found
  rw [members] at applied solid nodup
  constructor
  · intro passed
    have apart := Forest.different_of_checkAttach passed
    have same := linked.adoptedEach_released held found (by rwa [members])
    rw [members] at same
    rw [passed, same, EditM.concluded] at applied
    refine ⟨perform_of_reply applied, ?_⟩
    rw [linked.childrenOf_adoptedEach held nodup solid apart, if_neg different,
      Forest.childrenOf_eq found]
    simp
  · intro stop stopped
    rw [stopped, EditM.concluded] at applied
    exact perform_of_stop applied

/-- In every reachable builder a concrete child is refused exactly when it is the tree itself, else
exactly when cycles are checked for and it lies above the tree. Otherwise it leaves its old list and
becomes the last child of the tree, and no other list changes. Adding a nil child other than the
tree succeeds exactly when adding its children in turn does. Both then leave the same builder, in
which the nil child is empty, and otherwise both stop alike. -/
theorem added_child_joins_or_splices (reachable : builder.Reachable) {tree child : NodeId}
    {node : Node} (held : builder.forest.Holds tree)
    (found : builder.forest.get? child = some node) :
    (node.content.isNil = false →
      ((builder.perform (.edit (.addChild tree child))).1 = .error (.refused .selfChild) ↔
        child = tree) ∧
      (child ≠ tree →
        ((builder.perform (.edit (.addChild tree child))).1 = .error (.refused .cycle) ↔
          builder.options.checkCycles = true ∧ TransGen builder.forest.ChildOf tree child) ∧
        (¬ (builder.options.checkCycles = true ∧ TransGen builder.forest.ChildOf tree child) →
          ∃ after, builder.perform (.edit (.addChild tree child)) =
              (.ok .done, { builder with forest := after }) ∧
            after.childrenOf tree = (builder.forest.childrenOf tree).erase child ++ [child] ∧
            ∀ other, other ≠ tree →
              (child ∈ builder.forest.childrenOf other →
                after.childrenOf other = (builder.forest.childrenOf other).erase child) ∧
              (child ∉ builder.forest.childrenOf other →
                after.childrenOf other = builder.forest.childrenOf other)))) ∧
    (node.content.isNil = true → child ≠ tree →
      let inTurn := builder.performEach (node.children.map fun id => .edit (.addChild tree id))
      ((builder.perform (.edit (.addChild tree child))).1 = .ok .done ↔ inTurn.1 = .ok ()) ∧
      (inTurn.1 = .ok () →
        (builder.perform (.edit (.addChild tree child))).2 = inTurn.2 ∧
        inTurn.2.forest.childrenOf child = []) ∧
      ∀ stop, inTurn.1 = .error stop →
        builder.perform (.edit (.addChild tree child)) = (.error stop, builder)) := by
  have sound := reachable.sound
  have linked := sound.linked
  refine ⟨fun concrete => ?_, fun nil different => ?_⟩
  · have solid : builder.forest.Solid child := ⟨node, found, concrete⟩
    have single := Node.incoming_of_concrete concrete child
    have applied : (Edit.addChild tree child).apply builder.options.checkCycles builder.forest =
        _ := EditM.map_concluded (EditM.addChild_solid linked held solid) fun _ => Reply.done
    rw [← single] at applied
    obtain ⟨_, refused, passed⟩ := sound.outcome_of_concluded held found applied
    simp only [single, List.mem_singleton, Forest.DetectsCycle, exists_eq_left] at refused passed
    refine ⟨refused.trans eq_comm, fun different => ?_⟩
    obtain ⟨cycle, accepted⟩ := passed (Ne.symm different)
    refine ⟨cycle, fun clear => ⟨_, accepted clear, ?_, fun other elsewhere => ?_⟩⟩
    · rw [linked.childrenOf_adopted held, if_pos rfl]
    · rw [linked.childrenOf_adopted held, if_neg elsewhere]
      exact ⟨fun _ => rfl, List.erase_of_not_mem⟩
  · intro inTurn
    have solid := linked.solid_incoming found
    rw [Node.incoming_of_nil nil] at solid
    obtain ⟨accepts, stops⟩ := sound.perform_addChild_nil held found nil different
    obtain ⟨acceptsEach, stopsEach⟩ := sound.performEach_addChild held solid
    cases verdict : builder.forest.checkAttach builder.options.checkCycles tree node.children with
    | ok _ =>
        obtain ⟨performed, emptied⟩ := accepts verdict
        have ran : inTurn = _ := acceptsEach verdict
        rw [performed, ran]
        exact ⟨iff_of_true rfl rfl, fun _ => ⟨rfl, emptied⟩, fun _ stopped => by cases stopped⟩
    | error stop =>
        have stopped : inTurn.1 = .error stop := stopsEach stop verdict
        rw [stops stop verdict, stopped]
        refine ⟨iff_of_false (by simp) (by simp), by simp, ?_⟩
        rintro other same
        rw [Except.error.inj same]

/-- A builder with a list of two nodes, a node below the second of them, and a node apart. -/
def sheaf : Builder where
  forest := { nodes := #[
    { content := .token (.imaginary 4 "a"), children := [⟨1⟩], parent := some ⟨3⟩,
      position := some 1 },
    { content := .token (.imaginary 4 "b"), parent := some ⟨0⟩, position := some 0 },
    { content := .token (.imaginary 4 "c"), parent := some ⟨3⟩, position := some 0 },
    { content := .nil, children := [⟨2⟩, ⟨0⟩] },
    { content := .token (.imaginary 4 "d") }] }

theorem reachable_sheaf : sheaf.Reachable :=
  ⟨{}, [.edit (.createImaginary 4 "a"), .edit (.createImaginary 4 "b"),
    .edit (.createImaginary 4 "c"), .edit .createNil, .edit (.createImaginary 4 "d"),
    .edit (.addChild ⟨0⟩ ⟨1⟩), .edit (.addChild ⟨3⟩ ⟨2⟩), .edit (.addChild ⟨3⟩ ⟨0⟩)], rfl⟩

/-- The list is spliced into the node apart. It is refused by the node below its second member,
though its first member alone is accepted there, and by its first member. The node below moves away,
and the node above it is refused. -/
theorem added_child_joins_or_splices_sheaf :
    (∃ after, sheaf.perform (.edit (.addChild ⟨4⟩ ⟨3⟩)) = (.ok .done, after) ∧
      sheaf.performEach [.edit (.addChild ⟨4⟩ ⟨2⟩), .edit (.addChild ⟨4⟩ ⟨0⟩)] = (.ok (), after) ∧
      after.forest.childrenOf ⟨4⟩ = [⟨2⟩, ⟨0⟩] ∧ after.forest.childrenOf ⟨3⟩ = []) ∧
    sheaf.perform (.edit (.addChild ⟨1⟩ ⟨3⟩)) = (.error (.refused .cycle), sheaf) ∧
    sheaf.perform (.edit (.addChild ⟨2⟩ ⟨3⟩)) = (.error (.refused .selfChild), sheaf) ∧
    (∃ after, sheaf.perform (.edit (.addChild ⟨4⟩ ⟨1⟩)) =
        (.ok .done, { sheaf with forest := after }) ∧
      after.childrenOf ⟨4⟩ = [⟨1⟩] ∧ after.childrenOf ⟨0⟩ = [] ∧
      after.childrenOf ⟨3⟩ = [⟨2⟩, ⟨0⟩]) ∧
    (sheaf.perform (.edit (.addChild ⟨1⟩ ⟨0⟩))).1 = .error (.refused .cycle) := by
  have apart : sheaf.forest.Holds ⟨4⟩ := by decide
  have below : sheaf.forest.Holds ⟨1⟩ := by decide
  have first : sheaf.forest.Holds ⟨2⟩ := by decide
  have list : sheaf.forest.get? ⟨3⟩ = some { content := .nil, children := [⟨2⟩, ⟨0⟩] } := rfl
  have lower : sheaf.forest.get? ⟨1⟩ =
    some { content := .token (.imaginary 4 "b"), parent := some ⟨0⟩, position := some 0 } := rfl
  have upper : sheaf.forest.get? ⟨0⟩ =
    some { content := .token (.imaginary 4 "a"), children := [⟨1⟩], parent := some ⟨3⟩,
           position := some 1 } := rfl
  refine ⟨?_, ?_, ?_, ?_, ?_⟩
  · obtain ⟨succeeds, same, _⟩ :=
      (added_child_joins_or_splices reachable_sheaf apart list).2 rfl (by decide)
    obtain ⟨left, emptied⟩ := same rfl
    exact ⟨_, Prod.ext (succeeds.mpr rfl) left, rfl, rfl, emptied⟩
  · exact ((added_child_joins_or_splices reachable_sheaf below list).2 rfl (by decide)).2.2 _ rfl
  · exact ((added_child_joins_or_splices reachable_sheaf first list).2 rfl (by decide)).2.2 _ rfl
  · have clear : ¬ (true = true ∧ TransGen sheaf.forest.ChildOf ⟨4⟩ ⟨1⟩) := by
      rintro ⟨_, path⟩
      obtain ⟨above, link, _⟩ := TransGen.head'_iff.mp path
      cases link
    obtain ⟨after, replied, joined, others⟩ :=
      (((added_child_joins_or_splices reachable_sheaf apart lower).1 rfl).2 (by decide)).2 clear
    exact ⟨after, replied, joined, (others ⟨0⟩ (by decide)).1 (by decide),
      (others ⟨3⟩ (by decide)).2 (by decide)⟩
  · exact (((added_child_joins_or_splices reachable_sheaf below upper).1 rfl).2 (by decide)).1.mpr
      ⟨rfl, .single rfl⟩

end Builder

end SyntaxForest
