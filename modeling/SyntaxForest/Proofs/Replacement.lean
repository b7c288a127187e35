import SyntaxForest.Proofs.Transfers

/-!
The replacement of a range of children. The bounds of the range are tested first, then the
replacement. A replacement that passes stands between what is left on both sides of the range, and
the members of the range that do not come in again are roots.
-/

namespace SyntaxForest

namespace Forest

variable {before after : Forest} {parent replacement : NodeId} {start stop : Nat} {source : Node}

/-- The children from `start` to `stop` have made room for what comes in for a node. -/
structure ReplacesRange (before after : Forest) (parent : NodeId) (start stop : Nat)
    (replacement : NodeId) (source : Node) : Prop
    extends before.Vacates after replacement source [parent] where
  children : after.childrenOf parent =
    ((before.childrenOf parent).take start).filter (fun id => id ∉ source.incoming replacement) ++
      source.incoming replacement ++
      ((before.childrenOf parent).drop (stop + 1)).filter fun id =>
        id ∉ source.incoming replacement
  freed : ∀ id ∈ ((before.childrenOf parent).drop start).take (stop + 1 - start),
    id ∉ source.incoming replacement →
    ∃ record, after.get? id = some record ∧ record.parent = none ∧ record.position = none

/-- The incoming nodes that stand outside the range leave their places, and then all incoming nodes
fill the range. -/
theorem Linked.replacesRange (linked : before.Linked) (held : before.Holds parent)
    (ordered : start ≤ stop) (different : replacement ≠ parent)
    (found : before.get? replacement = some source)
    (outside : parent ∉ source.incoming replacement) :
    before.ReplacesRange (((before.released replacement source).uprootedEach
      ((source.incoming replacement).filter fun id =>
        id ∉ ((before.childrenOf parent).drop start).take (stop + 1 - start))).relist parent
      (placedBetween ((before.childrenOf parent).take start) (source.incoming replacement)
        ((before.childrenOf parent).drop (stop + 1)))) parent start stop replacement source := by
  have heldSource := holds_of_get? found
  have linkedFreed := linked.released heldSource source
  obtain ⟨range, admits⟩ := linked.admits_replacement held ordered different found
    fun id member same => outside (same ▸ member)
  refine ⟨linked.vacates ((linkedFreed.uprootedEach _).relist admits) found (by simp [different]) ?_,
    ?_, ?_⟩
  · intro other elsewhere
    rw [List.mem_singleton] at elsewhere
    rw [childrenOf_relist admits.held, if_neg elsewhere,
      linkedFreed.childrenOf_outside_range range elsewhere, filter_released heldSource]
    intro _
    rw [childrenOf_eq found]
    exact List.Subset.refl _
  · rw [childrenOf_relist admits.held, if_pos rfl, placedBetween]
  · intro id inRange notIncoming
    apply ((linkedFreed.uprootedEach _).relist admits).exists_unplaced
    · have listed := List.mem_of_mem_drop (List.mem_of_mem_take inRange)
      simpa using (linked.solid_of_mem listed).holds
    · exact linkedFreed.parentOf_removed range admits inRange notIncoming

end Forest

namespace Builder

open Relation

variable {builder : Builder}

/-- The replacement of a range is refused exactly when the range does not lie inside the list, else
exactly when the parent would become its own child, and else exactly when a cycle is detected.
Otherwise the range is replaced. -/
theorem replacement_fills_range (reachable : builder.Reachable) {parent replacement : NodeId}
    {source : Node} (held : builder.forest.Holds parent)
    (found : builder.forest.get? replacement = some source) (start stop : Nat) :
    ((builder.perform (.edit (.replaceChildren parent start stop replacement))).1 =
        .error (.refused (.rangeOutOfRange start stop (builder.forest.childrenOf parent).length)) ↔
      stop < start ∨ (builder.forest.childrenOf parent).length ≤ stop) ∧
    (start ≤ stop → stop < (builder.forest.childrenOf parent).length →
      ((builder.perform (.edit (.replaceChildren parent start stop replacement))).1 =
          .error (.refused .selfChild) ↔
        replacement = parent ∨ source.content.isNil = true ∧ parent ∈ source.children) ∧
      (¬ (replacement = parent ∨ source.content.isNil = true ∧ parent ∈ source.children) →
        ((builder.perform (.edit (.replaceChildren parent start stop replacement))).1 =
            .error (.refused .cycle) ↔
          builder.forest.DetectsCycle builder.options.checkCycles parent
            (source.incoming replacement)) ∧
        (¬ builder.forest.DetectsCycle builder.options.checkCycles parent
            (source.incoming replacement) →
          ∃ after, builder.perform (.edit (.replaceChildren parent start stop replacement)) =
              (.ok .done, { builder with forest := after }) ∧
            builder.forest.ReplacesRange after parent start stop replacement source))) := by
  have sound := reachable.sound
  by_cases outside : stop < start ∨ (builder.forest.childrenOf parent).length ≤ stop
  · have stopped : (Edit.replaceChildren parent start stop replacement).apply
        builder.options.checkCycles builder.forest = _ :=
      EditM.map_error (EditM.replaceChildren_of_outside replacement held outside) fun _ => Reply.done
    rw [perform_of_stop stopped]
    exact ⟨iff_of_true rfl outside, fun ordered inside => by omega⟩
  · by_cases same : replacement = parent
    · subst same
      have stopped : (Edit.replaceChildren replacement start stop replacement).apply
          builder.options.checkCycles builder.forest = _ :=
        EditM.map_error (EditM.replaceChildren_of_same held outside) fun _ => Reply.done
      rw [perform_of_stop stopped]
      exact ⟨iff_of_false (by simp) outside,
        fun _ _ => ⟨by simp, fun different => absurd (.inl rfl) different⟩⟩
    · have own : parent ∈ source.incoming replacement ↔
          replacement = parent ∨ source.content.isNil = true ∧ parent ∈ source.children := by
        simp [Node.mem_incoming_iff, same, Ne.symm same]
      obtain ⟨ordered, inside⟩ : start ≤ stop ∧ stop < (builder.forest.childrenOf parent).length := by
        omega
      have applied : (Edit.replaceChildren parent start stop replacement).apply
          builder.options.checkCycles builder.forest = _ :=
        EditM.map_concluded
          (EditM.replaceChildren_eq sound.linked held ordered inside same found) fun _ => Reply.done
      obtain ⟨reasons, refused, passed⟩ := sound.outcome_of_concluded held found applied
      refine ⟨iff_of_false (fun refused => by simpa using reasons _ refused) outside, fun _ _ => ?_⟩
      rw [← own]
      refine ⟨refused, fun notOwn => ⟨(passed notOwn).1, fun clear => ?_⟩⟩
      exact ⟨_, (passed notOwn).2 clear,
        sound.linked.replacesRange held ordered same found notOwn⟩

/-- A grandchild takes the place of its parent and of the sibling beside it, and leaves the list of
its parent. A range beyond the list, the parent itself and a node above it are refused. -/
theorem replacement_fills_range_thicket :
    (∃ after, thicket.perform (.edit (.replaceChildren ⟨0⟩ 0 1 ⟨4⟩)) =
        (.ok .done, { thicket with forest := after }) ∧
      after.childrenOf ⟨0⟩ = [⟨4⟩, ⟨3⟩] ∧ after.childrenOf ⟨1⟩ = [] ∧
      (∃ record, after.get? ⟨1⟩ = some record ∧ record.parent = none ∧ record.position = none) ∧
      after.childrenOf ⟨5⟩ = [⟨6⟩] ∧ after.Linked) ∧
    (∃ after, thicket.perform (.edit (.replaceChildren ⟨0⟩ 1 1 ⟨5⟩)) =
        (.ok .done, { thicket with forest := after }) ∧
      after.childrenOf ⟨0⟩ = [⟨1⟩, ⟨6⟩, ⟨3⟩] ∧ after.childrenOf ⟨5⟩ = []) ∧
    (thicket.perform (.edit (.replaceChildren ⟨0⟩ 1 3 ⟨4⟩))).1 =
      .error (.refused (.rangeOutOfRange 1 3 3)) ∧
    (thicket.perform (.edit (.replaceChildren ⟨0⟩ 0 0 ⟨0⟩))).1 = .error (.refused .selfChild) ∧
    (thicket.perform (.edit (.replaceChildren ⟨1⟩ 0 0 ⟨0⟩))).1 = .error (.refused .cycle) := by
  have held : thicket.forest.Holds ⟨0⟩ := by decide
  have top : thicket.forest.get? ⟨0⟩ =
    some { content := .token (.imaginary 4 "a"), children := [⟨1⟩, ⟨2⟩, ⟨3⟩] } := rfl
  have nested : thicket.forest.get? ⟨4⟩ =
    some { content := .token (.imaginary 4 "e"), parent := some ⟨1⟩, position := some 0 } := rfl
  have list : thicket.forest.get? ⟨5⟩ = some { content := .nil, children := [⟨6⟩] } := rfl
  have clear : ∀ ids, ¬ thicket.forest.DetectsCycle true ⟨0⟩ ids := by
    rintro ids ⟨_, id, _, path⟩
    obtain ⟨above, link, _⟩ := TransGen.head'_iff.mp path
    cases link
  refine ⟨?_, ?_, ?_, ?_, ?_⟩
  · obtain ⟨after, replied, replaced⟩ := (((replacement_fills_range reachable_thicket held nested
      0 1).2 (by decide) (by decide)).2 (by decide)).2 (clear _)
    exact ⟨after, replied, replaced.children, replaced.left rfl ⟨1⟩ (by decide) (by decide),
      replaced.freed ⟨1⟩ (by decide) (by decide),
      replaced.others ⟨5⟩ (by decide) (by decide) (by decide), replaced.linked⟩
  · obtain ⟨after, replied, replaced⟩ := (((replacement_fills_range reachable_thicket held list
      1 1).2 (by decide) (by decide)).2 (by decide)).2 (clear _)
    exact ⟨after, replied, replaced.children, replaced.emptied rfl⟩
  · exact (replacement_fills_range reachable_thicket held nested 1 3).1.mpr (by decide)
  · exact ((replacement_fills_range reachable_thicket held top 0 0).2 (by decide)
      (by decide)).1.mpr (.inl rfl)
  · have heldNext : thicket.forest.Holds ⟨1⟩ := by decide
    exact (((replacement_fills_range reachable_thicket heldNext top 0 0).2 (by decide)
      (by decide)).2 (by decide)).1.mpr ⟨rfl, ⟨0⟩, List.mem_cons_self, .single rfl⟩

end Builder

end SyntaxForest
