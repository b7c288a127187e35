import SyntaxForest.Proofs.Observations
import SyntaxForest.Proofs.Transfers

/-!
The change of root. A nil node that is made a root gives way to its only child. The root keeps the
children that do not come in again and adopts what comes in for the old root. Where cycles are
checked for, every adopted tree is written as before. A root that is made from a token is new to all
links, so nothing can stand in its way.
-/

namespace SyntaxForest

namespace Forest

open Relation

variable {before after : Forest} {newRoot root oldRoot : NodeId} {wrapper node : Node}

/-- The root has adopted what comes in for the old root. -/
structure ChangesRoot (before after : Forest) (newRoot : NodeId) (wrapper : Node)
    (root oldRoot : NodeId) (node : Node) : Prop
    extends before.Vacates after oldRoot node [root, newRoot] where
  children : after.childrenOf root =
    (before.childrenOf root).filter (fun id => id ∉ node.incoming oldRoot) ++ node.incoming oldRoot
  unwrapped : wrapper.content.isNil = true →
    after.childrenOf newRoot = [] ∧ after.parentOf root = none
  kept : wrapper.content.isNil = false → after.parentOf root = before.parentOf root

/-- The forest after a change of root. -/
def rooted (forest : Forest) (newRoot : NodeId) (wrapper : Node) (root oldRoot : NodeId)
    (node : Node) : Forest :=
  ((forest.released newRoot wrapper).released oldRoot node).adoptedEach root (node.incoming oldRoot)

/-- What comes in for the new root is solid, and it is the new root itself or the only child of a nil
new root. -/
theorem Linked.root_cases (linked : before.Linked)
    (foundWrapper : before.get? newRoot = some wrapper)
    (single : wrapper.incoming newRoot = [root]) : before.Solid root ∧
    (wrapper.content.isNil = true ∧ root ∈ before.childrenOf newRoot ∧ newRoot ≠ root ∨
      wrapper.content.isNil = false ∧ newRoot = root) := by
  have solid := linked.solid_incoming foundWrapper root (by simp [single])
  refine ⟨solid, ?_⟩
  unfold Node.incoming at single
  split_ifs at single with nil
  · refine .inl ⟨nil, by simp [childrenOf_eq foundWrapper, single], ?_⟩
    rintro rfl
    exact not_solid_of_nil foundWrapper nil solid
  · exact .inr ⟨by simpa using nil, by simpa using single⟩

section Rooted

variable (linked : before.Linked) (foundWrapper : before.get? newRoot = some wrapper)
  (found : before.get? oldRoot = some node) (solid : before.Solid root)
  (outside : root ∉ node.incoming oldRoot)

include linked foundWrapper found solid outside

/-- Once the new root and the old root have given their children away, the root can adopt the
incoming nodes. -/
theorem Linked.rooted_ready : ((before.released newRoot wrapper).released oldRoot node).Linked ∧
    ((before.released newRoot wrapper).released oldRoot node).Holds root ∧
    (node.incoming oldRoot).Nodup ∧
    (∀ id ∈ node.incoming oldRoot,
      ((before.released newRoot wrapper).released oldRoot node).Solid id) ∧
    ∀ id ∈ node.incoming oldRoot, id ≠ root := by
  have linkedNext := linked.released (holds_of_get? foundWrapper) wrapper
  refine ⟨linkedNext.released (by simpa using holds_of_get? found) node,
    by simpa using solid.holds, linked.nodup_incoming found, ?_, ?_⟩
  · intro id member
    simpa using linked.solid_incoming found id member
  · rintro id member rfl
    exact outside member

theorem Linked.rooted : (before.rooted newRoot wrapper root oldRoot node).Linked := by
  obtain ⟨ready, held, _, solidIncoming, different⟩ :=
    linked.rooted_ready foundWrapper found solid outside
  exact ready.adoptedEach (.inr held) solidIncoming different

/-- The incoming nodes leave every list, and the root lists them at the end. -/
theorem Linked.childrenOf_rooted (other : NodeId) :
    (before.rooted newRoot wrapper root oldRoot node).childrenOf other =
      ((before.released newRoot wrapper).childrenOf other).filter
          (fun id => id ∉ node.incoming oldRoot) ++
        if other = root then node.incoming oldRoot else [] := by
  obtain ⟨ready, held, nodup, solidIncoming, different⟩ :=
    linked.rooted_ready foundWrapper found solid outside
  rw [Forest.rooted, ready.childrenOf_adoptedEach held nodup solidIncoming different,
    filter_released]
  · simpa using holds_of_get? found
  · intro _
    rw [childrenOf_released_eq foundWrapper]
    split_ifs
    · exact List.nil_subset _
    · rw [childrenOf_eq found]
      exact List.Subset.refl _

/-- The root is parted from a nil new root, and otherwise it stays where it is. -/
theorem Linked.parentOf_rooted :
    (before.rooted newRoot wrapper root oldRoot node).parentOf root =
      if wrapper.content.isNil = true ∧ root ∈ before.childrenOf newRoot then none
      else before.parentOf root := by
  have linkedNext := linked.released (holds_of_get? foundWrapper) wrapper
  obtain ⟨ready, held, _, solidIncoming, different⟩ :=
    linked.rooted_ready foundWrapper found solid outside
  have notGiven : ¬ (node.content.isNil = true ∧
      root ∈ (before.released newRoot wrapper).childrenOf oldRoot) := by
    rintro ⟨nil, member⟩
    apply outside
    rw [childrenOf_released_eq foundWrapper] at member
    split_ifs at member
    · contradiction
    · rw [childrenOf_eq found] at member
      exact Node.mem_incoming_iff.mpr (.inl ⟨nil, member⟩)
  rw [Forest.rooted, ready.parentOf_adoptedEach held solidIncoming different, if_neg outside,
    linkedNext.parentOf_released (by simpa using holds_of_get? found), if_neg notGiven,
    linked.parentOf_released (holds_of_get? foundWrapper)]

end Rooted

/-- A root that is not among the incoming nodes adopts them. -/
theorem Linked.changesRoot (linked : before.Linked)
    (foundWrapper : before.get? newRoot = some wrapper)
    (single : wrapper.incoming newRoot = [root]) (found : before.get? oldRoot = some node)
    (outside : root ∉ node.incoming oldRoot) :
    before.ChangesRoot (before.rooted newRoot wrapper root oldRoot node) newRoot wrapper root
      oldRoot node := by
  obtain ⟨solid, shape⟩ := linked.root_cases foundWrapper single
  have lists := linked.childrenOf_rooted foundWrapper found solid outside
  have parent := linked.parentOf_rooted foundWrapper found solid outside
  refine ⟨linked.vacates (linked.rooted foundWrapper found solid outside) found ?_ ?_, ?_, ?_, ?_⟩
  · intro nil inside
    rw [List.mem_cons, List.mem_singleton] at inside
    rcases inside with rfl | rfl
    · exact not_solid_of_nil found nil solid
    · -- A wrapper that is both arguments would have its only child come in.
      rw [found, Option.some.injEq] at foundWrapper
      rw [foundWrapper, single] at outside
      exact outside List.mem_cons_self
  · intro other elsewhere
    rw [List.mem_cons, List.mem_singleton, not_or] at elsewhere
    rw [lists, if_neg elsewhere.1, List.append_nil,
      childrenOf_released (holds_of_get? foundWrapper) (Ne.symm elsewhere.2)]
  · rw [lists, if_pos rfl]
    congr 2
    rcases shape with ⟨_, _, different⟩ | ⟨concrete, _⟩
    · exact childrenOf_released (holds_of_get? foundWrapper) different wrapper
    · rw [Forest.released, if_neg (by simp [concrete])]
  · intro nil
    rcases shape with ⟨_, member, different⟩ | ⟨concrete, _⟩
    · rw [parent, if_pos ⟨nil, member⟩, lists, if_neg different, childrenOf_released_eq foundWrapper,
        if_pos ⟨(isNil_iff_content? foundWrapper).mp nil, rfl⟩]
      exact ⟨rfl, rfl⟩
    · rw [nil] at concrete
      contradiction
  · intro concrete
    rw [parent, if_neg (by simp [concrete])]

/-- An adopted tree is written as before, since the root does not lie in it. -/
theorem Acyclic.exists_render_rooted (acyclic : before.Acyclic) (linked : before.Linked)
    (foundWrapper : before.get? newRoot = some wrapper)
    (single : wrapper.incoming newRoot = [root]) (found : before.get? oldRoot = some node)
    (outside : root ∉ node.incoming oldRoot)
    (clear : ¬ before.DetectsCycle true root (node.incoming oldRoot)) {id : NodeId}
    (member : id ∈ node.incoming oldRoot) :
    ∃ text, before.render id = .ok text ∧
      (before.rooted newRoot wrapper root oldRoot node).render id = .ok text := by
  have solid := linked.solid_incoming found id member
  have apartRoot : ¬ ReflTransGen before.ChildOf root id := by
    intro path
    rcases reflTransGen_iff_eq_or_transGen.mp path with same | path
    · exact outside (same ▸ member)
    · exact clear ⟨rfl, id, member, path⟩
  have apart : ∀ target ∈ [root, newRoot], ¬ ReflTransGen before.ChildOf target id := by
    rw [List.forall_mem_cons, List.forall_mem_singleton]
    refine ⟨apartRoot, fun path => ?_⟩
    rcases (linked.root_cases foundWrapper single).2 with ⟨nil, _⟩ | ⟨_, same⟩
    · have isRoot := (parentOf_eq foundWrapper).trans (linked.nil_parent foundWrapper nil)
      rw [← eq_of_reaches isRoot path] at solid
      exact not_solid_of_nil foundWrapper nil solid
    · exact apartRoot (same ▸ path)
  have changed := linked.changesRoot foundWrapper single found outside
  apply acyclic.exists_render linked solid.holds
  · simp [Forest.rooted]
  · intro other _
    simp [Forest.rooted]
  · intro other below
    exact changed.childrenOf_below acyclic linked found member apart below

end Forest

namespace Builder

open Relation

variable {builder : Builder}

/-- Without an old root the new root is returned as it is. With one, a nil new root without exactly
one child is refused. Otherwise the root is refused exactly when it is itself among the incoming
nodes, else exactly when a cycle is detected, and else it adopts them. Where cycles are checked for,
every adopted node is written as before. -/
theorem new_root_adopts_old_root (reachable : builder.Reachable) {newRoot : NodeId} {wrapper : Node}
    (foundWrapper : builder.forest.get? newRoot = some wrapper) :
    builder.perform (.edit (.becomeRoot newRoot none)) = (.ok (.node newRoot), builder) ∧
    ∀ oldRoot node, builder.forest.get? oldRoot = some node →
      (∀ count, (builder.perform (.edit (.becomeRoot newRoot (some oldRoot)))).1 =
          .error (.refused (.malformedRoot count)) ↔
        wrapper.content.isNil = true ∧ wrapper.children.length = count ∧ count ≠ 1) ∧
      ∀ root, wrapper.incoming newRoot = [root] →
        ((builder.perform (.edit (.becomeRoot newRoot (some oldRoot)))).1 =
            .error (.refused .selfChild) ↔ root ∈ node.incoming oldRoot) ∧
        (root ∉ node.incoming oldRoot →
          ((builder.perform (.edit (.becomeRoot newRoot (some oldRoot)))).1 =
              .error (.refused .cycle) ↔
            builder.forest.DetectsCycle builder.options.checkCycles root
              (node.incoming oldRoot)) ∧
          (¬ builder.forest.DetectsCycle builder.options.checkCycles root
              (node.incoming oldRoot) →
            ∃ after, builder.perform (.edit (.becomeRoot newRoot (some oldRoot))) =
                (.ok (.node root), { builder with forest := after }) ∧
              builder.forest.ChangesRoot after newRoot wrapper root oldRoot node ∧
              (builder.options.checkCycles = true → ∀ id ∈ node.incoming oldRoot,
                ∃ text, builder.forest.render id = .ok text ∧ after.render id = .ok text))) := by
  have sound := reachable.sound
  refine ⟨rfl, fun oldRoot node found => ?_⟩
  have applied (root : NodeId) (single : wrapper.incoming newRoot = [root]) :
      (Edit.becomeRoot newRoot (some oldRoot)).apply builder.options.checkCycles
        builder.forest = _ :=
    EditM.map_concluded (EditM.becomeRoot_eq sound.linked
      (Forest.effectiveRoot_of_incoming foundWrapper single) foundWrapper found) Reply.node
  have outcome (root : NodeId) (single : wrapper.incoming newRoot = [root]) :=
    sound.outcome_of_concluded (sound.linked.root_cases foundWrapper single).1.holds found
      (applied root single)
  refine ⟨fun count => ?_, fun root single => ?_⟩
  · by_cases malformed : wrapper.content.isNil = true ∧ wrapper.children.length ≠ 1
    · obtain ⟨nil, several⟩ := malformed
      have stopped : (Edit.becomeRoot newRoot (some oldRoot)).apply
          builder.options.checkCycles builder.forest = _ :=
        EditM.map_error (EditM.becomeRoot_of_malformed oldRoot foundWrapper nil several) Reply.node
      rw [perform_of_stop stopped, Except.error.injEq, Stop.refused.injEq,
        Refusal.malformedRoot.injEq]
      exact ⟨fun same => ⟨nil, same, same ▸ several⟩, fun same => same.2.1⟩
    · obtain ⟨root, single⟩ := wrapper.exists_incoming_eq_singleton newRoot malformed
      apply iff_of_false
      · intro refused
        simpa using (outcome root single).1 _ refused
      · rintro ⟨nil, rfl, several⟩
        exact malformed ⟨nil, several⟩
  · obtain ⟨_, refused, passed⟩ := outcome root single
    refine ⟨refused, fun outside => ⟨(passed outside).1, fun clear => ?_⟩⟩
    refine ⟨_, (passed outside).2 clear,
      sound.linked.changesRoot foundWrapper single found outside, fun checked id member => ?_⟩
    rw [checked] at clear
    exact (sound.acyclic checked).exists_render_rooted sound.linked foundWrapper single found
      outside clear member

/-- A nil new root gives way to its only child, which adopts a tree from inside another one, and a
node inside a tree adopts the child of a nil old root. An empty new root, a new root that is the old
root as well, and an old root above the new one are refused. -/
theorem new_root_adopts_old_root_thicket :
    thicket.perform (.edit (.becomeRoot ⟨5⟩ none)) = (.ok (.node ⟨5⟩), thicket) ∧
    (∃ after, thicket.perform (.edit (.becomeRoot ⟨5⟩ (some ⟨1⟩))) =
        (.ok (.node ⟨6⟩), { thicket with forest := after }) ∧
      after.childrenOf ⟨6⟩ = [⟨1⟩] ∧ after.childrenOf ⟨5⟩ = [] ∧ after.parentOf ⟨6⟩ = none ∧
      after.childrenOf ⟨0⟩ = [⟨2⟩, ⟨3⟩] ∧ after.childrenOf ⟨1⟩ = [⟨4⟩] ∧ after.Linked ∧
      after.render ⟨1⟩ = .ok "(b e)") ∧
    (∃ after, thicket.perform (.edit (.becomeRoot ⟨1⟩ (some ⟨5⟩))) =
        (.ok (.node ⟨1⟩), { thicket with forest := after }) ∧
      after.childrenOf ⟨1⟩ = [⟨4⟩, ⟨6⟩] ∧ after.childrenOf ⟨5⟩ = [] ∧
      after.parentOf ⟨1⟩ = some ⟨0⟩) ∧
    (thicket.perform (.edit (.becomeRoot ⟨7⟩ (some ⟨0⟩)))).1 =
      .error (.refused (.malformedRoot 0)) ∧
    (thicket.perform (.edit (.becomeRoot ⟨5⟩ (some ⟨5⟩)))).1 = .error (.refused .selfChild) ∧
    (thicket.perform (.edit (.becomeRoot ⟨4⟩ (some ⟨0⟩)))).1 = .error (.refused .cycle) := by
  have list : thicket.forest.get? ⟨5⟩ = some { content := .nil, children := [⟨6⟩] } := rfl
  have inner : thicket.forest.get? ⟨1⟩ =
    some { content := .token (.imaginary 4 "b"), children := [⟨4⟩], parent := some ⟨0⟩,
           position := some 0 } := rfl
  have leaf : thicket.forest.get? ⟨4⟩ =
    some { content := .token (.imaginary 4 "e"), parent := some ⟨1⟩, position := some 0 } := rfl
  have empty : thicket.forest.get? ⟨7⟩ = some { content := .nil } := rfl
  -- Below a root there is nothing above a node but this root.
  have clear {root above other : NodeId} (link : thicket.forest.parentOf root = some above)
      (isRoot : thicket.forest.parentOf above = none) (different : other ≠ above) :
      ¬ thicket.forest.DetectsCycle true root [other] := by
    rintro ⟨_, id, member, path⟩
    obtain ⟨middle, first, rest⟩ := TransGen.head'_iff.mp path
    rw [Forest.ChildOf, link, Option.some.injEq] at first
    subst middle
    rw [← Forest.eq_of_reaches isRoot rest, List.mem_singleton] at member
    exact different member.symm
  obtain ⟨unchanged, adopts⟩ := new_root_adopts_old_root reachable_thicket list
  refine ⟨unchanged, ?_, ?_, ?_, ?_, ?_⟩
  · obtain ⟨after, replied, changed, written⟩ :=
      (((adopts ⟨1⟩ _ inner).2 ⟨6⟩ rfl).2 (by decide)).2 (clear rfl rfl (by decide))
    obtain ⟨text, rendered, renderedAfter⟩ := written rfl ⟨1⟩ List.mem_cons_self
    have form : thicket.forest.render ⟨1⟩ = .ok "(b e)" := by decide +kernel
    rw [form, Except.ok.injEq] at rendered
    rw [← rendered] at renderedAfter
    exact ⟨after, replied, changed.children, (changed.unwrapped rfl).1, (changed.unwrapped rfl).2,
      changed.left rfl ⟨0⟩ (by decide) (by decide),
      changed.others ⟨1⟩ (by decide) (by decide) (by decide), changed.linked, renderedAfter⟩
  · obtain ⟨after, replied, changed, _⟩ := ((((new_root_adopts_old_root reachable_thicket inner).2
      ⟨5⟩ _ list).2 ⟨1⟩ rfl).2 (by decide)).2 (clear rfl rfl (by decide))
    exact ⟨after, replied, changed.children, changed.emptied rfl, changed.kept rfl⟩
  · exact (((new_root_adopts_old_root reachable_thicket empty).2 ⟨0⟩ _ rfl).1 0).mpr (by decide)
  · exact ((adopts ⟨5⟩ _ list).2 ⟨6⟩ rfl).1.mpr List.mem_cons_self
  · exact ((((new_root_adopts_old_root reachable_thicket leaf).2 ⟨0⟩ _ rfl).2 ⟨4⟩ rfl).2
      (by decide)).1.mpr ⟨rfl, ⟨0⟩, List.mem_cons_self, .tail (.single rfl) rfl⟩

end Builder

section TokenRoot

variable {before : Forest} {oldRoot : NodeId} {node : Node}

end TokenRoot

namespace Builder

variable {builder : Builder}

end Builder

end SyntaxForest
