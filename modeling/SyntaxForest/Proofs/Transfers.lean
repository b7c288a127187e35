import SyntaxForest.Proofs.CycleCheck
import SyntaxForest.Proofs.Outcomes
import SyntaxForest.Proofs.Soundness

/-!
The transfer of what comes in for a node to a new parent. The parent itself among the incoming nodes
is refused first and a cycle second, and nothing else is. After a transfer the incoming nodes have
left their old places, and what lies below them is as it was.
-/

namespace SyntaxForest

namespace Forest

open Relation

variable {before after : Forest} {id : NodeId} {node : Node} {changed : List NodeId}

/-- What comes in for a node has left its old place: a nil node has no children, and a concrete node
is gone from the list of its parent. No other list has changed, those of the `changed` nodes apart. -/
structure Vacates (before after : Forest) (id : NodeId) (node : Node) (changed : List NodeId) :
    Prop where
  linked : after.Linked
  emptied : node.content.isNil = true → after.childrenOf id = []
  left : node.content.isNil = false → ∀ other, other ∉ changed → id ∈ before.childrenOf other →
    after.childrenOf other = (before.childrenOf other).erase id
  others : ∀ other, other ∉ changed → (node.content.isNil = true → other ≠ id) →
    (node.content.isNil = false → id ∉ before.childrenOf other) →
    after.childrenOf other = before.childrenOf other

/-- A place is vacated when what comes in for the node is gone from every list that is not
`changed`. -/
theorem Linked.vacates (linked : before.Linked) (linkedAfter : after.Linked)
    (found : before.get? id = some node) (apart : node.content.isNil = true → id ∉ changed)
    (lists : ∀ other, other ∉ changed → after.childrenOf other =
      (before.childrenOf other).filter fun child => child ∉ node.incoming id) :
    before.Vacates after id node changed where
  linked := linkedAfter
  emptied nil := by
    rw [lists id (apart nil), List.filter_eq_nil_iff, childrenOf_eq found]
    intro child member
    simp [Node.mem_incoming_iff, nil, member]
  left concrete other outside member := by
    rw [lists other outside, (linked.nodup_childrenOf other).erase_eq_filter]
    apply List.filter_congr
    intro child _
    by_cases same : child = id <;> simp [Node.mem_incoming_iff, concrete, same]
  others other outside notNil notChild := by
    rw [lists other outside, List.filter_eq_self]
    intro child member
    rw [decide_eq_true_iff, Node.mem_incoming_iff]
    rintro (⟨nil, inside⟩ | ⟨concrete, rfl⟩)
    · -- The list that holds this child is the one of the nil node.
      rw [← childrenOf_eq found, linked.mem_childrenOf_iff] at inside
      rw [linked.mem_childrenOf_iff, inside, Option.some.injEq] at member
      exact notNil nil member.symm
    · exact notChild concrete member

/-- Without cycles the lists below an incoming node stay, if no `changed` node lies there. -/
theorem Vacates.childrenOf_below (vacates : before.Vacates after id node changed)
    (acyclic : before.Acyclic) (linked : before.Linked) (found : before.get? id = some node)
    {moved other : NodeId} (member : moved ∈ node.incoming id)
    (apart : ∀ target ∈ changed, ¬ ReflTransGen before.ChildOf target moved)
    (below : ReflTransGen before.ChildOf other moved) :
    after.childrenOf other = before.childrenOf other := by
  rw [Node.mem_incoming_iff] at member
  apply vacates.others other fun inside => apart other inside below
  · -- A nil node lies below nothing but itself, and it does not come in for itself.
    rintro nil rfl
    rw [← childrenOf_eq found] at member
    have isRoot := (parentOf_eq found).trans (linked.nil_parent found nil)
    have same := eq_of_reaches isRoot below
    simp only [nil, true_and, Bool.true_eq_false, false_and, or_false] at member
    exact linked.ne_of_mem member same.symm
  · intro concrete inside
    simp only [concrete, Bool.false_eq_true, false_and, true_and, false_or] at member
    rw [member] at below
    exact acyclic id (TransGen.head' (linked.mem_childrenOf_iff.mp inside) below)

end Forest

namespace EditM

/-- A concluded edit with its value changed is concluded by the same verdict. -/
theorem map_concluded {α β : Type} {before after : Forest} {edit : EditM α} {verdict : Except Stop Unit} {value : α}
    (ran : edit before = concluded verdict value before after) (change : α → β) :
    (change <$> edit) before = concluded verdict (change value) before after := by
  cases verdict with
  | ok _ => exact map_ok ran change
  | error stop => exact map_error ran change

end EditM

namespace Builder

variable {builder : Builder}

/-- An edit that the check of the incoming nodes concludes is refused exactly when the parent itself
is among them, else exactly when a cycle is detected, and for no other reason. Otherwise it ends with
its reply. -/
theorem Sound.outcome_of_concluded (sound : builder.Sound) {edit : Edit} {parent id : NodeId}
    {node : Node} {reply : Reply} {after : Forest} (held : builder.forest.Holds parent)
    (found : builder.forest.get? id = some node)
    (applied : edit.apply builder.options.checkCycles builder.forest =
      EditM.concluded (builder.forest.checkAttach builder.options.checkCycles parent
        (node.incoming id)) reply builder.forest after) :
    (∀ refusal, (builder.perform (.edit edit)).1 = .error (.refused refusal) →
      refusal = .selfChild ∨ refusal = .cycle) ∧
    ((builder.perform (.edit edit)).1 = .error (.refused .selfChild) ↔
      parent ∈ node.incoming id) ∧
    (parent ∉ node.incoming id →
      ((builder.perform (.edit edit)).1 = .error (.refused .cycle) ↔
        builder.forest.DetectsCycle builder.options.checkCycles parent (node.incoming id)) ∧
      (¬ builder.forest.DetectsCycle builder.options.checkCycles parent (node.incoming id) →
        builder.perform (.edit edit) = (.ok reply, { builder with forest := after }))) := by
  obtain ⟨member, verdict⟩ | ⟨outside, ⟨detected, verdict⟩ | ⟨clear, verdict⟩⟩ :=
    sound.linked.checkAttach_cases sound.acyclic held found
  · rw [verdict, EditM.concluded] at applied
    rw [perform_of_stop applied]
    simp [member]
  · rw [verdict, EditM.concluded] at applied
    rw [perform_of_stop applied]
    simp [outside, detected]
  · rw [verdict, EditM.concluded] at applied
    rw [perform_of_reply applied]
    simp [outside, clear]

/-- A builder with a tree of three levels, a list of one node and an empty list. -/
def thicket : Builder where
  forest := { nodes := #[
    { content := .token (.imaginary 4 "a"), children := [⟨1⟩, ⟨2⟩, ⟨3⟩] },
    { content := .token (.imaginary 4 "b"), children := [⟨4⟩], parent := some ⟨0⟩,
      position := some 0 },
    { content := .token (.imaginary 4 "c"), parent := some ⟨0⟩, position := some 1 },
    { content := .token (.imaginary 4 "d"), parent := some ⟨0⟩, position := some 2 },
    { content := .token (.imaginary 4 "e"), parent := some ⟨1⟩, position := some 0 },
    { content := .nil, children := [⟨6⟩] },
    { content := .token (.imaginary 4 "f"), parent := some ⟨5⟩, position := some 0 },
    { content := .nil }] }

theorem reachable_thicket : thicket.Reachable :=
  ⟨{}, [.edit (.createImaginary 4 "a"), .edit (.createImaginary 4 "b"),
    .edit (.createImaginary 4 "c"), .edit (.createImaginary 4 "d"),
    .edit (.createImaginary 4 "e"), .edit .createNil, .edit (.createImaginary 4 "f"),
    .edit .createNil, .edit (.addChild ⟨0⟩ ⟨1⟩), .edit (.addChild ⟨0⟩ ⟨2⟩),
    .edit (.addChild ⟨0⟩ ⟨3⟩), .edit (.addChild ⟨1⟩ ⟨4⟩), .edit (.addChild ⟨5⟩ ⟨6⟩)], rfl⟩

end Builder

end SyntaxForest
