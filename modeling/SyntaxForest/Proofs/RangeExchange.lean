import SyntaxForest.Proofs.Observations
import SyntaxForest.Proofs.Replacement
import SyntaxForest.Proofs.Splicing

/-!
The exchange of a range of children with the members of a list. The list replaces the range and then
takes in the nodes that were removed. The exchange back is never refused, since the removed nodes were
children of the parent, and it restores the forest.
-/

namespace SyntaxForest

/-- A range that stands between two lists is found by its bounds. -/
theorem range_of_append {front leaving : List NodeId} {start stop : Nat} (back : List NodeId)
    (starts : front.length = start) (stops : start + leaving.length = stop + 1) :
    (front ++ leaving ++ back).take start = front ∧
      ((front ++ leaving ++ back).drop start).take (stop + 1 - start) = leaving ∧
      (front ++ leaving ++ back).drop (stop + 1) = back := by
  subst starts
  rw [← stops, Nat.add_sub_cancel_left]
  simp

namespace Forest

open Relation

variable {before after : Forest} {parent list : NodeId}
  {front leaving entering back : List NodeId}

theorem Relinks.solid (relinks : before.Relinks after) {id : NodeId} (solid : before.Solid id) :
    after.Solid id := by
  obtain ⟨node, found, concrete⟩ := solid
  obtain ⟨children, parent, position, foundNext⟩ := relinks.records id node found
  exact ⟨_, foundNext, concrete⟩

/-- A nil node is still a nil node, and so a root. -/
theorem Relinks.parentOf_nil (relinks : before.Relinks after) (linked : after.Linked) {id : NodeId}
    {node : Node} (found : before.get? id = some node) (nil : node.content.isNil = true) :
    after.parentOf id = none := by
  obtain ⟨children, parent, position, foundNext⟩ := relinks.records id node found
  exact (parentOf_eq foundNext).trans (linked.nil_parent foundNext nil)

/-- A range of children and the members of a list have changed places, and the list is a root. -/
structure Exchanges (before after : Forest) (parent list : NodeId)
    (front leaving entering back : List NodeId) : Prop where
  relinks : before.Relinks after
  linked : after.Linked
  isRoot : after.parentOf list = none
  given : before.childrenOf parent = front ++ leaving ++ back
  taken : before.childrenOf list = entering
  children : after.childrenOf parent = front ++ entering ++ back
  members : after.childrenOf list = leaving
  others : ∀ other, other ≠ parent → other ≠ list → after.childrenOf other = before.childrenOf other

namespace Exchanges

/-- A path from the parent up goes along old links until it ends at the list. -/
theorem reaches (exchanges : before.Exchanges after parent list front leaving entering back)
    (linked : before.Linked) (acyclic : after.Acyclic) {above : NodeId}
    (path : ReflTransGen after.ChildOf parent above) :
    ReflTransGen before.ChildOf parent above ∨ above = list := by
  induction path with
  | refl => exact .inl .refl
  | @tail middle above path link ih =>
      rcases ih with pathBefore | rfl
      · by_cases isParent : above = parent
        · -- Back at the parent, the path would be a cycle.
          exact absurd (TransGen.tail' path (isParent ▸ link)) (acyclic parent)
        · by_cases isList : above = list
          · exact .inr isList
          · have member := exchanges.linked.mem_childrenOf_iff.mpr link
            rw [exchanges.others above isParent isList] at member
            exact .inl (pathBefore.tail (linked.mem_childrenOf_iff.mp member))
      · rw [ChildOf, exchanges.isRoot] at link
        contradiction

/-- The nodes that left the parent do not lie above it. -/
theorem clear (exchanges : before.Exchanges after parent list front leaving entering back)
    (linked : before.Linked) (acyclic : before.Acyclic) (acyclicAfter : after.Acyclic) :
    after.Clear parent leaving := by
  intro id member path
  rcases exchanges.reaches linked acyclicAfter path with pathBefore | rfl
  · apply acyclic.clear_childrenOf linked parent id _ pathBefore
    rw [exchanges.given]
    exact List.mem_append_left _ (List.mem_append_right _ member)
  · rw [← exchanges.members] at member
    exact exchanges.linked.ne_of_mem member rfl

/-- So they may be attached to it again. -/
theorem checkAttach {checkCycles : Bool}
    (exchanges : before.Exchanges after parent list front leaving entering back)
    (linked : before.Linked) (acyclic : checkCycles = true → before.Acyclic)
    (acyclicAfter : checkCycles = true → after.Acyclic) (held : before.Holds parent) :
    after.checkAttach checkCycles parent leaving = .ok () := by
  have outside : parent ∉ leaving := by
    intro member
    have own : parent ∈ before.childrenOf parent := by simp [exchanges.given, member]
    exact linked.ne_of_mem own rfl
  rw [Holds, ← exchanges.relinks.size] at held
  exact exchanges.linked.checkAttach_of_clear acyclicAfter held outside
    fun checked => exchanges.clear linked (acyclic checked) (acyclicAfter checked)

/-- An exchange and the exchange back leave the forest as it was. -/
theorem undone {final : Forest}
    (exchanges : before.Exchanges after parent list front leaving entering back)
    (returns : after.Exchanges final parent list front entering leaving back)
    (linked : before.Linked) : final = before := by
  apply (exchanges.relinks.trans returns.relinks).eq_of_childrenOf (.refl before) returns.linked
    linked
  intro id
  by_cases isParent : id = parent
  · rw [isParent, returns.children, exchanges.given]
  · by_cases isList : id = list
    · rw [isList, returns.members, exchanges.taken]
    · rw [returns.others id isParent isList, exchanges.others id isParent isList]

end Exchanges

/-- Roots that are adopted leave no list. -/
theorem Linked.childrenOf_adoptedEach_roots {forest : Forest} (linked : forest.Linked)
    {ids : List NodeId} (held : forest.Holds parent) (nodup : ids.Nodup)
    (solid : ∀ id ∈ ids, forest.Solid id) (different : ∀ id ∈ ids, id ≠ parent)
    (roots : ∀ id ∈ ids, forest.parentOf id = none) (other : NodeId) :
    (forest.adoptedEach parent ids).childrenOf other =
      forest.childrenOf other ++ if other = parent then ids else [] := by
  rw [linked.childrenOf_adoptedEach held nodup solid different, List.filter_eq_self.mpr]
  intro child member
  rw [decide_eq_true_iff]
  intro inside
  rw [linked.mem_childrenOf_iff, roots child inside] at member
  contradiction

/-- A list that takes in the nodes it has replaced has exchanged its members with them. -/
theorem ReplacesRange.exchanges {start stop : Nat} {node : Node} {middle : Forest}
    (replaces : before.ReplacesRange middle parent start stop list node)
    (relinks : before.Relinks middle) (linked : before.Linked)
    (given : before.childrenOf parent = front ++ leaving ++ back) (starts : front.length = start)
    (stops : start + leaving.length = stop + 1) (different : list ≠ parent)
    (found : before.get? list = some node) (nil : node.content.isNil = true) :
    (∀ id ∈ leaving, middle.Solid id) ∧ (∀ id ∈ leaving, id ≠ list) ∧
      before.Exchanges (middle.adoptedEach list leaving) parent list front leaving node.children
        back := by
  obtain ⟨isFront, isRange, isBack⟩ := range_of_append back starts stops
  rw [← given] at isFront isRange isBack
  have members := Node.incoming_of_nil nil list
  have apart : ∀ id ∈ before.childrenOf parent, id ∉ node.children := by
    intro id isChild isMember
    rw [← childrenOf_eq found, linked.mem_childrenOf_iff] at isMember
    rw [linked.mem_childrenOf_iff, isMember, Option.some.injEq] at isChild
    exact different isChild
  have inside : ∀ id ∈ leaving, id ∈ before.childrenOf parent := by
    intro id member
    rw [given]
    exact List.mem_append_left _ (List.mem_append_right _ member)
  have solid : ∀ id ∈ leaving, middle.Solid id :=
    fun id member => relinks.solid (linked.solid_of_mem (inside id member))
  have notList : ∀ id ∈ leaving, id ≠ list := by
    rintro id member rfl
    exact not_solid_of_nil found nil (linked.solid_of_mem (inside id member))
  have roots : ∀ id ∈ leaving, middle.parentOf id = none := by
    intro id member
    have notIncoming : id ∉ node.incoming list := by
      rw [members]
      exact apart id (inside id member)
    obtain ⟨record, foundNext, isRoot, _⟩ :=
      replaces.freed id (by rwa [isRange]) notIncoming
    rw [parentOf_eq foundNext, isRoot]
  have nodup : leaving.Nodup := by
    rw [← isRange]
    exact (linked.nodup_childrenOf parent).sublist
      ((List.take_sublist _ _).trans (List.drop_sublist _ _))
  have held : middle.Holds list := by
    rw [Holds, relinks.size]
    exact holds_of_get? found
  have lists := replaces.linked.childrenOf_adoptedEach_roots held nodup solid notList roots
  have linkedAfter := replaces.linked.adoptedEach (.inr held) solid notList
  have relinksAfter := relinks.trans (.adoptedEach middle list leaving)
  refine ⟨solid, notList, relinksAfter, linkedAfter, relinksAfter.parentOf_nil linkedAfter found nil,
    given, childrenOf_eq found, ?_, ?_, ?_⟩
  · rw [lists, if_neg (Ne.symm different), List.append_nil, replaces.children, members, isFront,
      isBack, List.filter_eq_self.mpr, List.filter_eq_self.mpr]
    · intro id member
      simpa using apart id (by simp [given, member])
    · intro id member
      simpa using apart id (by simp [given, member])
  · rw [lists, if_pos rfl, replaces.emptied nil, List.nil_append]
  · intro other notParent notMember
    rw [lists, if_neg notMember, List.append_nil]
    exact replaces.others other (by simpa using notParent) (fun _ => notMember) (by simp [nil])

end Forest

namespace Builder

variable {builder : Builder} {parent list : NodeId} {node : Node} {start stop : Nat}
  {front leaving back : List NodeId}

/-- A replacement that passes the check replaces the range. -/
theorem Sound.perform_replaceChildren (sound : builder.Sound) (held : builder.forest.Holds parent)
    (ordered : start ≤ stop) (inside : stop < (builder.forest.childrenOf parent).length)
    (different : list ≠ parent) (found : builder.forest.get? list = some node)
    (passed : builder.forest.checkAttach builder.options.checkCycles parent (node.incoming list) =
      .ok ()) :
    ∃ after, builder.perform (.edit (.replaceChildren parent start stop list)) =
        (.ok .done, { builder with forest := after }) ∧
      builder.forest.Relinks after ∧
      builder.forest.ReplacesRange after parent start stop list node := by
  have applied : (Edit.replaceChildren parent start stop list).apply builder.options.checkCycles
      builder.forest = _ :=
    EditM.map_concluded (EditM.replaceChildren_eq sound.linked held ordered inside different found)
      fun _ => Reply.done
  rw [passed, EditM.concluded] at applied
  exact ⟨_, perform_of_reply applied, Edit.relinks_of_reply sound.linked rfl applied,
    sound.linked.replacesRange held ordered different found
      fun member => Forest.different_of_checkAttach passed parent member rfl⟩

/-- A list exchanges its members with a range of children, provided that its members may be attached
to the parent. -/
theorem Sound.performEach_exchange (sound : builder.Sound) (held : builder.forest.Holds parent)
    (given : builder.forest.childrenOf parent = front ++ leaving ++ back)
    (starts : front.length = start) (stops : start + leaving.length = stop + 1)
    (ordered : start ≤ stop) (different : list ≠ parent)
    (found : builder.forest.get? list = some node) (nil : node.content.isNil = true)
    (passed : builder.forest.checkAttach builder.options.checkCycles parent node.children =
      .ok ()) :
    ∃ after, builder.performEach (.edit (.replaceChildren parent start stop list) ::
        leaving.map fun id => .edit (.addChild list id)) =
          (.ok (), { builder with forest := after }) ∧
      builder.forest.Exchanges after parent list front leaving node.children back := by
  have inside : stop < (builder.forest.childrenOf parent).length := by
    rw [given, List.length_append, List.length_append]
    omega
  rw [← Node.incoming_of_nil nil list] at passed
  obtain ⟨middle, replied, relinks, replaces⟩ :=
    sound.perform_replaceChildren held ordered inside different found passed
  obtain ⟨solid, notList, exchanges⟩ :=
    replaces.exchanges relinks sound.linked given starts stops different found nil
  have heldList : middle.Holds list := by
    rw [Forest.Holds, relinks.size]
    exact Forest.holds_of_get? found
  have accepted := Forest.checkAttach_of_root builder.options.checkCycles heldList
    (relinks.parentOf_nil replaces.linked found nil) notList
  have soundNext := sound.step (step?_eq_some_iff.mpr (.inl ⟨_, replied⟩))
  refine ⟨_, ?_, exchanges⟩
  rw [performEach_cons replied]
  exact (soundNext.performEach_addChild heldList solid).1 accepted

/-- In every reachable builder a replacement of a range by a nil list with members is undone by three
steps: the removed nodes are added to the list in turn, the list replaces its old members, and these
are added to it again. -/
theorem replacement_is_undone (reachable : builder.Reachable) {after : Builder} {reply : Reply}
    (found : builder.forest.get? list = some node) (nil : node.content.isNil = true)
    (different : list ≠ parent) (filled : node.children ≠ [])
    (replaced : builder.perform (.edit (.replaceChildren parent start stop list)) =
      (.ok reply, after)) :
    after.performEach
      ((((builder.forest.childrenOf parent).drop start).take (stop + 1 - start)).map
          (fun id => .edit (.addChild list id)) ++
        [.edit (.replaceChildren parent start (start + node.children.length - 1) list)] ++
        node.children.map fun id => .edit (.addChild list id)) = (.ok (), builder) := by
  have sound := reachable.sound
  have linked := sound.linked
  obtain ⟨applied, _⟩ := apply_of_reply replaced
  obtain ⟨_, ran, _⟩ := EditM.ok_of_map applied
  obtain ⟨source, foundAgain, held, ordered, inside, _, passed, _⟩ :=
    (EditM.replaceChildren_ensures linked parent start stop list).result ran
  obtain rfl : node = source := by rwa [found, Option.some.injEq] at foundAgain
  rw [Node.incoming_of_nil nil] at passed
  have starts : ((builder.forest.childrenOf parent).take start).length = start := by
    rw [List.length_take]
    omega
  have stops : start +
      (((builder.forest.childrenOf parent).drop start).take (stop + 1 - start)).length =
        stop + 1 := by
    rw [List.length_take, List.length_drop]
    omega
  obtain ⟨middle, exchanged, exchanges⟩ := sound.performEach_exchange held
    (split_range ordered _) starts stops ordered different found nil passed
  have soundMiddle := (sound.run (run?_of_performEach exchanged)).1
  obtain ⟨children, above, position, foundNext⟩ := exchanges.relinks.records list node found
  have heldNext : middle.Holds parent := by rwa [Forest.Holds, exchanges.relinks.size]
  have accepted := exchanges.checkAttach linked sound.acyclic soundMiddle.acyclic held
  rw [← exchanges.members, Forest.childrenOf_eq foundNext] at accepted
  have many := List.length_pos_iff.mpr filled
  obtain ⟨final, returned, returns⟩ := soundMiddle.performEach_exchange
    heldNext exchanges.children starts
    (show start + node.children.length = start + node.children.length - 1 + 1 by omega) (by omega)
    different foundNext nil accepted
  rw [← Forest.childrenOf_eq foundNext, exchanges.members] at returns
  rw [performEach_cons replaced] at exchanged
  rw [List.append_assoc, performEach_append exchanged, List.singleton_append, returned,
    exchanges.undone returns linked]

/-- A builder without the check for cycles, in which two nodes are below each other, and a list of
two nodes. -/
def coil : Builder where
  options := { checkCycles := false }
  forest := { nodes := #[
    { content := .token (.imaginary 4 "a"), children := [⟨1⟩, ⟨2⟩], parent := some ⟨1⟩,
      position := some 0 },
    { content := .token (.imaginary 4 "b"), children := [⟨0⟩], parent := some ⟨0⟩,
      position := some 0 },
    { content := .token (.imaginary 4 "c"), parent := some ⟨0⟩, position := some 1 },
    { content := .nil, children := [⟨4⟩, ⟨5⟩] },
    { content := .token (.imaginary 4 "d"), parent := some ⟨3⟩, position := some 0 },
    { content := .token (.imaginary 4 "e"), parent := some ⟨3⟩, position := some 1 }] }

theorem reachable_coil : coil.Reachable :=
  ⟨{ checkCycles := false }, [.edit (.createImaginary 4 "a"), .edit (.createImaginary 4 "b"),
    .edit (.createImaginary 4 "c"), .edit .createNil, .edit (.createImaginary 4 "d"),
    .edit (.createImaginary 4 "e"), .edit (.addChild ⟨0⟩ ⟨1⟩), .edit (.addChild ⟨0⟩ ⟨2⟩),
    .edit (.addChild ⟨1⟩ ⟨0⟩), .edit (.addChild ⟨3⟩ ⟨4⟩), .edit (.addChild ⟨3⟩ ⟨5⟩)], rfl⟩

/-- A list of one node replaces two of three children and gives way to them again. Without the check
for cycles this also holds where the parent lies below the child that it loses. -/
theorem replacement_is_undone_thicket :
    thicket.performEach [.edit (.replaceChildren ⟨0⟩ 0 1 ⟨5⟩), .edit (.addChild ⟨5⟩ ⟨1⟩),
      .edit (.addChild ⟨5⟩ ⟨2⟩), .edit (.replaceChildren ⟨0⟩ 0 0 ⟨5⟩), .edit (.addChild ⟨5⟩ ⟨6⟩)] =
        (.ok (), thicket) ∧
    coil.performEach [.edit (.replaceChildren ⟨0⟩ 0 0 ⟨3⟩), .edit (.addChild ⟨3⟩ ⟨1⟩),
      .edit (.replaceChildren ⟨0⟩ 0 1 ⟨3⟩), .edit (.addChild ⟨3⟩ ⟨4⟩),
      .edit (.addChild ⟨3⟩ ⟨5⟩)] = (.ok (), coil) := by
  constructor
  · have list : thicket.forest.get? ⟨5⟩ = some { content := .nil, children := [⟨6⟩] } := rfl
    obtain ⟨after, replaced⟩ : ∃ after, thicket.perform (.edit (.replaceChildren ⟨0⟩ 0 1 ⟨5⟩)) =
      (.ok .done, after) := ⟨_, rfl⟩
    rw [performEach_cons replaced]
    exact replacement_is_undone reachable_thicket list rfl (by decide) (by decide) replaced
  · have list : coil.forest.get? ⟨3⟩ = some { content := .nil, children := [⟨4⟩, ⟨5⟩] } := rfl
    obtain ⟨after, replaced⟩ : ∃ after, coil.perform (.edit (.replaceChildren ⟨0⟩ 0 0 ⟨3⟩)) =
      (.ok .done, after) := ⟨_, rfl⟩
    rw [performEach_cons replaced]
    exact replacement_is_undone reachable_coil list rfl (by decide) (by decide) replaced

end Builder

end SyntaxForest
