import SyntaxForest.Proofs.RootChange
import SyntaxForest.Proofs.SlotEdits
import SyntaxForest.Proofs.Splicing

/-!
The three ways to attach nodes. Setting a parent and making a concrete node the new root do what
adding a child does. A nil node that is made a root stands for its only child, which adopts the same
nodes and leaves the nil node.
-/

namespace SyntaxForest

namespace Forest

variable {before : Forest} {newRoot root oldRoot : NodeId} {wrapper node : Node}

/-- A concrete node that is made a root adopts what comes in and gives nothing away. -/
theorem rooted_of_concrete (concrete : wrapper.content.isNil = false) :
    before.rooted newRoot wrapper root oldRoot node =
      (before.released oldRoot node).adoptedEach root (node.incoming oldRoot) := by
  rw [rooted, released_of_concrete concrete]

/-- A concrete node that does not come in itself adopts the incoming nodes, which leave every other
list. -/
theorem Linked.joined (linked : before.Linked) (solid : before.Solid root)
    (found : before.get? oldRoot = some node) (outside : root ∉ node.incoming oldRoot) :
    ((before.released oldRoot node).adoptedEach root (node.incoming oldRoot)).Linked ∧
      ∀ other, ((before.released oldRoot node).adoptedEach root
          (node.incoming oldRoot)).childrenOf other =
        (before.childrenOf other).filter (fun id => id ∉ node.incoming oldRoot) ++
          if other = root then node.incoming oldRoot else [] := by
  have ⟨record, foundRoot, concrete⟩ := solid
  have linkedJoined := linked.rooted foundRoot found solid outside
  have lists := linked.childrenOf_rooted foundRoot found solid outside
  rw [rooted_of_concrete concrete] at linkedJoined lists
  rw [released_of_concrete concrete] at lists
  exact ⟨linkedJoined, lists⟩

theorem Relinks.rooted (forest : Forest) (newRoot : NodeId) (wrapper : Node) (root oldRoot : NodeId)
    (node : Node) : forest.Relinks (forest.rooted newRoot wrapper root oldRoot node) :=
  ((Relinks.released forest newRoot wrapper).trans (.released _ oldRoot node)).trans
    (.adoptedEach _ root _)

/-- The only child of a nil node that is made a root adopts what comes in. It may leave the nil node
before this or after it, since it does not come in itself. -/
theorem Linked.rooted_of_nil (linked : before.Linked)
    (foundWrapper : before.get? newRoot = some wrapper) (nil : wrapper.content.isNil = true)
    (children : wrapper.children = [root]) (found : before.get? oldRoot = some node)
    (outside : root ∉ node.incoming oldRoot) :
    before.rooted newRoot wrapper root oldRoot node =
      ((before.released oldRoot node).adoptedEach root (node.incoming oldRoot)).uprooted root := by
  have single : wrapper.incoming newRoot = [root] := (Node.incoming_of_nil nil newRoot).trans children
  have listed : before.childrenOf newRoot = [root] := by rw [childrenOf_eq foundWrapper, children]
  have member : root ∈ before.childrenOf newRoot := by simp [listed]
  have different := linked.ne_of_mem member
  obtain ⟨solid, _⟩ := linked.root_cases foundWrapper single
  obtain ⟨linkedJoined, lists⟩ := linked.joined solid found outside
  apply (Relinks.rooted before newRoot wrapper root oldRoot node).eq_of_childrenOf
    (((Relinks.released before oldRoot node).trans (.adoptedEach _ _ _)).trans (.uprooted _ root))
    (linked.rooted foundWrapper found solid outside) (linkedJoined.uprooted root)
  intro other
  rw [linked.childrenOf_rooted foundWrapper found solid outside, linkedJoined.childrenOf_uprooted,
    lists, childrenOf_released_eq foundWrapper]
  by_cases isWrapper : other = newRoot
  · rw [if_pos ⟨(isNil_iff_content? foundWrapper).mp nil, isWrapper⟩, isWrapper, listed,
      if_neg (Ne.symm different)]
    simp [outside]
  · rw [if_neg fun own => isWrapper own.2, List.erase_of_not_mem]
    rw [List.mem_append, List.mem_filter, not_or]
    constructor
    · rintro ⟨again, _⟩
      rw [linked.mem_childrenOf_iff] at member again
      rw [member, Option.some.injEq] at again
      exact isWrapper again.symm
    · split_ifs
      · exact outside
      · exact List.not_mem_nil

end Forest

/-- Adding a child to a concrete tree is concluded by the check of what comes in, also where the
child is the tree. -/
theorem EditM.addChild_to_solid {before : Forest} {checkCycles : Bool} (linked : before.Linked)
    {tree child : NodeId} {node : Node} (solid : before.Solid tree)
    (found : before.get? child = some node) :
    addChild checkCycles tree child before =
      concluded (before.checkAttach checkCycles tree (node.incoming child)) () before
        ((before.released child node).adoptedEach tree (node.incoming child)) := by
  by_cases same : child = tree
  · subst same
    obtain ⟨record, foundAgain, concrete⟩ := solid
    rw [found, Option.some.injEq] at foundAgain
    rw [← foundAgain] at concrete
    rw [addChild, if_pos rfl, Node.incoming_of_concrete concrete, Forest.checkAttach, if_pos rfl]
    rfl
  · exact addChild_eq linked found solid.holds same

namespace Builder

variable {builder : Builder}

/-- Two edits that are concluded by one check of incoming nodes are refused for one reason and change
nothing, or both end with their replies. -/
theorem Sound.both_of_concluded (sound : builder.Sound) {first second : Edit} {parent id : NodeId}
    {node : Node} {reply replySecond : Reply} {after afterSecond : Forest}
    (held : builder.forest.Holds parent) (found : builder.forest.get? id = some node)
    (applied : first.apply builder.options.checkCycles builder.forest =
      EditM.concluded (builder.forest.checkAttach builder.options.checkCycles parent
        (node.incoming id)) reply builder.forest after)
    (appliedSecond : second.apply builder.options.checkCycles builder.forest =
      EditM.concluded (builder.forest.checkAttach builder.options.checkCycles parent
        (node.incoming id)) replySecond builder.forest afterSecond) :
    (∃ refusal, builder.perform (.edit first) = (.error (.refused refusal), builder) ∧
      builder.perform (.edit second) = (.error (.refused refusal), builder)) ∨
    parent ∉ node.incoming id ∧
      builder.perform (.edit first) = (.ok reply, { builder with forest := after }) ∧
      builder.perform (.edit second) =
        (.ok replySecond, { builder with forest := afterSecond }) := by
  obtain ⟨_, verdict⟩ | ⟨outside, ⟨_, verdict⟩ | ⟨_, verdict⟩⟩ :=
    sound.linked.checkAttach_cases sound.acyclic held found
  · rw [verdict, EditM.concluded] at applied appliedSecond
    exact .inl ⟨_, perform_of_stop applied, perform_of_stop appliedSecond⟩
  · rw [verdict, EditM.concluded] at applied appliedSecond
    exact .inl ⟨_, perform_of_stop applied, perform_of_stop appliedSecond⟩
  · rw [verdict, EditM.concluded] at applied appliedSecond
    exact .inr ⟨outside, perform_of_reply applied, perform_of_reply appliedSecond⟩

/-- In every reachable builder the ways to attach nodes agree. Setting the parent of a concrete node
and adding the node to that parent end alike. So do making a concrete node the new root and adding
the old root to it. A nil new root with one child is refused as adding the old root to this child is,
and otherwise it leaves what adding the old root to the child and deleting the child leave. -/
theorem attaching_paths_agree (reachable : builder.Reachable) :
    (∀ parent id, builder.forest.Holds parent → builder.forest.Solid id →
      (∃ refusal, builder.perform (.edit (.setParent id (some parent))) =
          (.error (.refused refusal), builder) ∧
        builder.perform (.edit (.addChild parent id)) = (.error (.refused refusal), builder)) ∨
      ∃ after, builder.perform (.edit (.setParent id (some parent))) = (.ok .done, after) ∧
        builder.perform (.edit (.addChild parent id)) = (.ok .done, after)) ∧
    (∀ root oldRoot, builder.forest.Solid root → builder.forest.Holds oldRoot →
      (∃ refusal, builder.perform (.edit (.becomeRoot root (some oldRoot))) =
          (.error (.refused refusal), builder) ∧
        builder.perform (.edit (.addChild root oldRoot)) = (.error (.refused refusal), builder)) ∨
      ∃ after, builder.perform (.edit (.becomeRoot root (some oldRoot))) = (.ok (.node root), after) ∧
        builder.perform (.edit (.addChild root oldRoot)) = (.ok .done, after)) ∧
    ∀ newRoot wrapper root oldRoot, builder.forest.get? newRoot = some wrapper →
      wrapper.content.isNil = true → wrapper.children = [root] → builder.forest.Holds oldRoot →
      (∃ refusal, builder.perform (.edit (.becomeRoot newRoot (some oldRoot))) =
          (.error (.refused refusal), builder) ∧
        builder.perform (.edit (.addChild root oldRoot)) = (.error (.refused refusal), builder)) ∨
      ∃ after added, builder.perform (.edit (.becomeRoot newRoot (some oldRoot))) =
          (.ok (.node root), after) ∧
        builder.perform (.edit (.addChild root oldRoot)) = (.ok .done, added) ∧
        added.perform (.edit (.deleteChild newRoot 0)) = (.ok (.node root), after) := by
  have sound := reachable.sound
  have linked := sound.linked
  refine ⟨fun parent id held solid => ?_, fun root oldRoot solid heldOld => ?_,
    fun newRoot wrapper root oldRoot foundWrapper nil children heldOld => ?_⟩
  · have ⟨node, found, concrete⟩ := solid
    have single := Node.incoming_of_concrete concrete id
    have applied : (Edit.setParent id (some parent)).apply builder.options.checkCycles
        builder.forest = _ :=
      EditM.map_concluded (EditM.setParent_eq linked solid held) fun _ => Reply.done
    have appliedChild : (Edit.addChild parent id).apply builder.options.checkCycles
        builder.forest = _ :=
      EditM.map_concluded (EditM.addChild_solid linked held solid) fun _ => Reply.done
    rw [← single] at applied appliedChild
    refine (sound.both_of_concluded held found applied appliedChild).imp_right ?_
    rintro ⟨_, performed⟩
    exact ⟨_, performed⟩
  · obtain ⟨node, found⟩ := (builder.forest.holds_iff oldRoot).mp heldOld
    have ⟨record, foundRoot, concrete⟩ := solid
    have effective := Forest.effectiveRoot_of_incoming foundRoot
      (Node.incoming_of_concrete concrete root)
    have applied : (Edit.becomeRoot root (some oldRoot)).apply builder.options.checkCycles
        builder.forest = _ :=
      EditM.map_concluded (EditM.becomeRoot_eq linked effective foundRoot found) Reply.node
    have appliedChild : (Edit.addChild root oldRoot).apply builder.options.checkCycles
        builder.forest = _ :=
      EditM.map_concluded (EditM.addChild_to_solid linked solid found) fun _ => Reply.done
    rw [Forest.released_of_concrete concrete] at applied
    refine (sound.both_of_concluded solid.holds found applied appliedChild).imp_right ?_
    rintro ⟨_, performed⟩
    exact ⟨_, performed⟩
  · obtain ⟨node, found⟩ := (builder.forest.holds_iff oldRoot).mp heldOld
    have single := (Node.incoming_of_nil nil newRoot).trans children
    obtain ⟨solid, _⟩ := linked.root_cases foundWrapper single
    have effective := Forest.effectiveRoot_of_incoming foundWrapper single
    have applied : (Edit.becomeRoot newRoot (some oldRoot)).apply builder.options.checkCycles
        builder.forest = _ :=
      EditM.map_concluded (EditM.becomeRoot_eq linked effective foundWrapper found) Reply.node
    have appliedChild : (Edit.addChild root oldRoot).apply builder.options.checkCycles
        builder.forest = _ :=
      EditM.map_concluded (EditM.addChild_to_solid linked solid found) fun _ => Reply.done
    refine (sound.both_of_concluded solid.holds found applied appliedChild).imp_right ?_
    rintro ⟨outside, rooted, added⟩
    refine ⟨_, _, rooted, added, ?_⟩
    obtain ⟨linkedJoined, lists⟩ := linked.joined solid found outside
    have stays := lists newRoot
    rw [Forest.childrenOf_eq foundWrapper, children] at stays
    have listed : (((builder.forest.released oldRoot node).adoptedEach root
        (node.incoming oldRoot)).childrenOf newRoot)[0]? = some root := by simp [stays, outside]
    have unwrapped := linked.rooted_of_nil foundWrapper nil children found outside
    rw [Forest.rooted] at unwrapped
    rw [unwrapped]
    exact perform_of_reply (EditM.map_ok (EditM.deleteChild_ok linkedJoined listed) Reply.node)

/-- A grandchild moves up by two ways, and its grandparent is refused by both. A list is spliced into
a concrete node by two ways. The only child of a list adopts another tree and leaves the list by two
ways, and neither the list nor the child itself may come below the child. -/
theorem attaching_paths_agree_thicket :
    (∃ after, thicket.perform (.edit (.setParent ⟨4⟩ (some ⟨0⟩))) = (.ok .done, after) ∧
      thicket.perform (.edit (.addChild ⟨0⟩ ⟨4⟩)) = (.ok .done, after)) ∧
    thicket.perform (.edit (.setParent ⟨0⟩ (some ⟨4⟩))) = (.error (.refused .cycle), thicket) ∧
    (∃ after, thicket.perform (.edit (.becomeRoot ⟨1⟩ (some ⟨5⟩))) = (.ok (.node ⟨1⟩), after) ∧
      thicket.perform (.edit (.addChild ⟨1⟩ ⟨5⟩)) = (.ok .done, after)) ∧
    (∃ after added, thicket.perform (.edit (.becomeRoot ⟨5⟩ (some ⟨0⟩))) = (.ok (.node ⟨6⟩), after) ∧
      thicket.perform (.edit (.addChild ⟨6⟩ ⟨0⟩)) = (.ok .done, added) ∧
      added.perform (.edit (.deleteChild ⟨5⟩ 0)) = (.ok (.node ⟨6⟩), after)) ∧
    ∀ old ∈ [(⟨5⟩ : NodeId), ⟨6⟩], thicket.perform (.edit (.becomeRoot ⟨5⟩ (some old))) =
      (.error (.refused .selfChild), thicket) := by
  obtain ⟨byParent, byRoot, byWrapper⟩ := attaching_paths_agree reachable_thicket
  -- Each edit ends as the child is added, and there the forest itself tells how.
  have accepted {edit : Edit} {refusal : Refusal}
      (replied : (thicket.perform (.edit edit)).1 = .ok .done) :
      thicket.perform (.edit edit) ≠ (.error (.refused refusal), thicket) := by
    intro refused
    rw [refused] at replied
    contradiction
  refine ⟨?_, ?_, ?_, ?_, ?_⟩
  · obtain ⟨_, _, refused⟩ | agreed := byParent ⟨0⟩ ⟨4⟩ (by decide) ⟨_, rfl, rfl⟩
    · exact absurd refused (accepted rfl)
    · exact agreed
  · obtain ⟨_, refused, added⟩ | ⟨_, _, added⟩ := byParent ⟨4⟩ ⟨0⟩ (by decide) ⟨_, rfl, rfl⟩
    · cases added
      exact refused
    · cases added
  · obtain ⟨_, _, refused⟩ | agreed := byRoot ⟨1⟩ ⟨5⟩ ⟨_, rfl, rfl⟩ (by decide)
    · exact absurd refused (accepted rfl)
    · exact agreed
  · obtain ⟨_, _, refused⟩ | agreed := byWrapper ⟨5⟩ _ ⟨6⟩ ⟨0⟩ rfl rfl rfl (by decide)
    · exact absurd refused (accepted rfl)
    · exact agreed
  · intro old member
    have held : thicket.forest.Holds old := by
      revert old
      decide
    have selfChild : (thicket.perform (.edit (.addChild ⟨6⟩ old))).1 =
        .error (.refused .selfChild) := by
      revert old
      decide
    obtain ⟨_, refused, added⟩ | ⟨_, _, _, added, _⟩ := byWrapper ⟨5⟩ _ ⟨6⟩ old rfl rfl rfl held
    · rw [added] at selfChild
      cases selfChild
      exact refused
    · rw [added] at selfChild
      cases selfChild

end Builder

end SyntaxForest
