import SyntaxForest.Proofs.OperatorChains
import SyntaxForest.Proofs.WrittenForms

/-!
What is left at the end of a rule. A list of one node gives way to that node, an empty list to
nothing, and every other node is normal and stays. None of this changes the written form.
-/

namespace SyntaxForest

open Relation

namespace Node

variable {node : Node}

/-- A list of no nodes. -/
def IsEmptyList (node : Node) : Prop := node.content.isNil = true ∧ node.children = []

instance (node : Node) : Decidable node.IsEmptyList := inferInstanceAs (Decidable (_ ∧ _))

/-- A node is normal unless it is a list of fewer than two nodes. -/
def Normal (node : Node) : Prop := node.content.isNil = true → 2 ≤ node.children.length

theorem Normal.of_concrete (concrete : node.content.isNil = false) : node.Normal := by
  intro isNil
  rw [concrete] at isNil
  contradiction

theorem Normal.not_isEmptyList (normal : node.Normal) : ¬ node.IsEmptyList := by
  intro ⟨isNil, empty⟩
  have several := normal isNil
  rw [empty, List.length_nil] at several
  omega

theorem not_isEmptyList_of_single {single : NodeId} (only : node.children = [single]) :
    ¬ node.IsEmptyList := by
  intro ⟨_, empty⟩
  rw [only] at empty
  contradiction

theorem emptyList_or_single_or_normal (node : Node) :
    node.IsEmptyList ∨ (∃ single, node.content.isNil = true ∧ node.children = [single]) ∨
      node.Normal := by
  cases kind : node.content.isNil with
  | false => exact .inr (.inr (.of_concrete kind))
  | true =>
      rcases children : node.children with _ | ⟨first, _ | ⟨second, rest⟩⟩
      · exact .inl ⟨kind, children⟩
      · exact .inr (.inl ⟨first, rfl, rfl⟩)
      · refine .inr (.inr fun _ => ?_)
        rw [children, List.length_cons, List.length_cons]
        omega

end Node

namespace Forest

/-- The only node of a list has become a root, and the list is empty. All other records are the
same. -/
structure Unwraps (before after : Forest) (list single : NodeId) : Prop where
  emptied : after.get? list = (before.get? list).map fun record => record.withChildren []
  freed : after.get? single = (before.get? single).map Node.unplaced
  others : ∀ id, id ≠ list → id ≠ single → after.get? id = before.get? id

variable {forest : Forest} {list single : NodeId}

/-- Only the node of the list and the list itself notice that it is emptied. -/
theorem Linked.unwraps_emptied (linked : forest.Linked)
    (only : forest.childrenOf list = [single]) :
    forest.Unwraps (forest.emptied list) list single := by
  have different : single ≠ list := linked.ne_of_mem (only ▸ List.mem_cons_self)
  refine ⟨?_, ?_, fun id notList notSingle => ?_⟩
  · rw [Forest.emptied, get?_relist, only]
    simp [Node.moved, Node.withChildren, different.symm]
  · rw [Forest.emptied, get?_relist, only]
    congr 1
    funext record
    simp [Node.moved, Node.unplaced, different]
  · rw [Forest.emptied, get?_relist, only]
    simp [Node.moved, notList, notSingle]

/-- A list of one node is written as this node. -/
theorem render_single {text : String} (isNil : forest.content? list = some .nil)
    (only : forest.childrenOf list = [single]) (rendered : forest.render list = .ok text) :
    forest.render single = .ok text := by
  obtain ⟨tree, read, written⟩ := answer_of_bind rendered
  obtain ⟨node, below, found, rfl, subtrees⟩ := subtreeWithin_succ_eq_ok_iff.mp read
  rw [content?_eq found, Option.some.injEq] at isNil
  rw [← childrenOf_eq found, only] at subtrees
  obtain ⟨inner, readInner, rfl⟩ : ∃ inner,
      forest.subtreeWithin forest.size single = .ok inner ∧ below = [inner] := by
    cases subtrees with
    | cons readInner none =>
        cases none
        exact ⟨_, readInner, rfl⟩
  have readAgain : forest.subtree single = .ok inner :=
    subtreeWithin_of_alike readInner (fun _ _ => rfl) (fun _ _ => rfl) (Nat.le_succ _)
  rw [render, readAgain, ← written, isNil]
  -- The list has no label and no parentheses, and nothing follows its first node.
  simp [OrderedTree.map, OrderedTree.mapEach, OrderedTree.render, OrderedTree.renderEach,
    Content.isNil, Bind.bind, Except.bind, Pure.pure, Except.pure]

theorem Acyclic.exists_form (acyclic : forest.Acyclic) (linked : forest.Linked) {id : NodeId}
    (held : forest.Holds id) : ∃ text, forest.render id = .ok text := by
  obtain ⟨tree, read⟩ := acyclic.exists_subtree linked held
  refine ⟨(tree.map Prod.snd).render, ?_⟩
  rw [render, read]
  rfl

/-- The list lies above its only node and not below it. -/
theorem Linked.ne_of_below_single (linked : forest.Linked)
    (isNil : forest.content? list = some .nil) (only : forest.childrenOf list = [single])
    {id : NodeId} (below : ReflTransGen forest.ChildOf id single) : id ≠ list := by
  intro same
  obtain ⟨node, found⟩ := (forest.holds_iff list).mp (holds_of_content? isNil)
  have isRoot : forest.parentOf list = none := by
    rw [parentOf_eq found]
    exact linked.nil_parent found ((isNil_iff_content? found).mpr isNil)
  rw [same] at below
  exact linked.ne_of_mem (only ▸ List.mem_cons_self) (eq_of_reaches isRoot below).symm

/-- The only node is written as the list was, also when the list has let it go. -/
theorem Acyclic.exists_render_single (acyclic : forest.Acyclic) (linked : forest.Linked)
    (isNil : forest.content? list = some .nil) (only : forest.childrenOf list = [single]) :
    ∃ text, forest.render list = .ok text ∧ (forest.emptied list).render single = .ok text := by
  have held : forest.Holds list := holds_of_content? isNil
  have heldSingle : forest.Holds single :=
    (linked.solid_of_mem (only ▸ List.mem_cons_self)).holds
  obtain ⟨text, rendered⟩ := acyclic.exists_form linked held
  have contents (other : NodeId) :
      (forest.emptied list).content? other = forest.content? other := content?_relist ..
  have children (other : NodeId) (below : ReflTransGen forest.ChildOf other single) :
      (forest.emptied list).childrenOf other = forest.childrenOf other := by
    rw [Forest.emptied, childrenOf_relist held, if_neg (linked.ne_of_below_single isNil only below)]
  obtain ⟨form, renderedSingle, renderedAfter⟩ := acyclic.exists_render linked heldSingle
    (size_relist forest list []).ge (fun other _ => contents other) children
  rw [render_single isNil only rendered] at renderedSingle
  cases renderedSingle
  exact ⟨text, rendered, renderedAfter⟩

end Forest

namespace EditM

variable {before : Forest} {root : NodeId} {node : Node}

theorem unwrapRoot_of_isEmptyList (found : before.get? root = some node)
    (empty : node.IsEmptyList) : unwrapRoot root before = .ok none before := by
  rw [unwrapRoot, bind_ok (fetch_ok found), if_pos empty.1, empty.2]
  rfl

/-- A normal node stays as it is. -/
theorem unwrapRoot_of_normal (found : before.get? root = some node) (normal : node.Normal) :
    unwrapRoot root before = .ok (some root) before := by
  rw [unwrapRoot, bind_ok (fetch_ok found)]
  split_ifs with isNil
  · have several := normal isNil
    rcases children : node.children with _ | ⟨first, _ | ⟨second, rest⟩⟩
    · simp [children] at several
    · simp [children] at several
    · rfl
  · rfl

end EditM

namespace Builder

variable {builder : Builder} {root : NodeId} {node : Node}

theorem perform_unwrapRoot {result : Option NodeId} {forest : Forest}
    (ran : EditM.unwrapRoot root builder.forest = .ok result forest) :
    builder.perform (.edit (.unwrapRoot root)) =
      (.ok (.optionalNode result), { builder with forest }) :=
  perform_of_reply (EditM.map_ok ran Reply.optionalNode)

/-- Take any node of a reachable builder that checks for cycles. Unwrapping it gives nothing exactly
when it is an empty list, and then nothing changes. Otherwise the result is a normal node that is
written as the given node was. It is the given node itself, and nothing changes, or the given node is
a list of this one node, which becomes a root and leaves the list empty. Unwrapping the result again
gives it back and changes nothing. -/
theorem unwrapping_keeps_written_form (reachable : builder.Reachable)
    (checked : builder.options.checkCycles = true)
    (found : builder.forest.get? root = some node) :
    ((builder.perform (.edit (.unwrapRoot root))).1 = .ok (.optionalNode none) ↔
      node.IsEmptyList) ∧
    (node.IsEmptyList →
      builder.perform (.edit (.unwrapRoot root)) = (.ok (.optionalNode none), builder)) ∧
    (¬ node.IsEmptyList → ∃ result record text after,
      builder.perform (.edit (.unwrapRoot root)) = (.ok (.optionalNode (some result)), after) ∧
      builder.perform (.query (.render root)) = (.ok (.text text), builder) ∧
      after.perform (.query (.render result)) = (.ok (.text text), after) ∧
      after.forest.get? result = some record ∧ record.Normal ∧
      (result = root ∧ after = builder ∨
        node.content.isNil = true ∧ node.children = [result] ∧
          ∃ forest, after = { builder with forest } ∧
            builder.forest.Unwraps forest root result) ∧
      after.perform (.edit (.unwrapRoot result)) = (.ok (.optionalNode (some result)), after)) := by
  have linked := reachable.sound.linked
  have acyclic := reachable.sound.acyclic checked
  rcases node.emptyList_or_single_or_normal with empty | ⟨single, isNil, only⟩ | normal
  · have performed := perform_unwrapRoot (EditM.unwrapRoot_of_isEmptyList found empty)
    exact ⟨by simp [performed, empty], fun _ => performed, fun filled => absurd empty filled⟩
  · have filled := Node.not_isEmptyList_of_single only
    have carried : node.incoming root = [single] := by rw [Node.incoming_of_nil isNil, only]
    have ran := EditM.unwrapRoot_ok linked found carried
    rw [Forest.released, if_pos isNil] at ran
    have performed := perform_unwrapRoot ran
    have children : builder.forest.childrenOf root = [single] := by
      rw [Forest.childrenOf_eq found, only]
    obtain ⟨record, foundSingle, concrete⟩ :=
      linked.solid_of_mem (children ▸ List.mem_cons_self)
    have unwraps := linked.unwraps_emptied children
    have foundAfter : (builder.forest.emptied root).get? single = some record.unplaced := by
      rw [unwraps.freed, foundSingle, Option.map_some]
    have normal : record.unplaced.Normal := .of_concrete concrete
    obtain ⟨text, rendered, renderedAfter⟩ := acyclic.exists_render_single linked
      ((Forest.isNil_iff_content? found).mp isNil) children
    refine ⟨by simp [performed, filled], fun empty => absurd empty filled, fun _ => ?_⟩
    exact ⟨single, _, text, _, performed, perform_render rendered, perform_render renderedAfter,
      foundAfter, normal, .inr ⟨isNil, only, _, rfl, unwraps⟩,
      perform_unwrapRoot (EditM.unwrapRoot_of_normal foundAfter normal)⟩
  · have performed := perform_unwrapRoot (EditM.unwrapRoot_of_normal found normal)
    have filled := normal.not_isEmptyList
    obtain ⟨text, rendered⟩ := acyclic.exists_form linked (Forest.holds_of_get? found)
    refine ⟨by simp [performed, filled], fun empty => absurd empty filled, fun _ => ?_⟩
    exact ⟨root, node, text, builder, performed, perform_render rendered, perform_render rendered,
      found, normal, .inl ⟨rfl, rfl⟩, performed⟩

/-- A builder with a list of one tree, an empty list and a list of two leaves. -/
def husks : Builder where
  forest := { nodes := #[
    { content := .token (.imaginary 4 "a"), children := [⟨1⟩, ⟨2⟩], parent := some ⟨3⟩,
      position := some 0 },
    { content := .token (.imaginary 4 "b"), parent := some ⟨0⟩, position := some 0 },
    { content := .token (.imaginary 4 "c"), parent := some ⟨0⟩, position := some 1 },
    { content := .nil, children := [⟨0⟩] },
    { content := .nil },
    { content := .nil, children := [⟨6⟩, ⟨7⟩] },
    { content := .token (.imaginary 4 "d"), parent := some ⟨5⟩, position := some 0 },
    { content := .token (.imaginary 4 "e"), parent := some ⟨5⟩, position := some 1 }] }

theorem reachable_husks : husks.Reachable :=
  ⟨{}, [.edit (.createImaginary 4 "a"), .edit (.createImaginary 4 "b"),
    .edit (.createImaginary 4 "c"), .edit .createNil, .edit .createNil, .edit .createNil,
    .edit (.createImaginary 4 "d"), .edit (.createImaginary 4 "e"), .edit (.addChild ⟨3⟩ ⟨0⟩),
    .edit (.addChild ⟨0⟩ ⟨1⟩), .edit (.addChild ⟨0⟩ ⟨2⟩), .edit (.addChild ⟨5⟩ ⟨6⟩),
    .edit (.addChild ⟨5⟩ ⟨7⟩)], rfl⟩

/-- The tree leaves the list of one node with its written form. The empty list gives nothing, and the
list of two leaves and a leaf inside the tree stay. -/
theorem unwrapping_keeps_written_form_husks :
    (∃ after, husks.perform (.edit (.unwrapRoot ⟨3⟩)) = (.ok (.optionalNode (some ⟨0⟩)), after) ∧
      after.perform (.query (.render ⟨0⟩)) = (.ok (.text "(a b c)"), after) ∧
      after.forest.parentOf ⟨0⟩ = none ∧ after.forest.childrenOf ⟨3⟩ = [] ∧
      after.forest.get? ⟨1⟩ = husks.forest.get? ⟨1⟩ ∧
      after.perform (.edit (.unwrapRoot ⟨0⟩)) = (.ok (.optionalNode (some ⟨0⟩)), after)) ∧
    husks.perform (.edit (.unwrapRoot ⟨4⟩)) = (.ok (.optionalNode none), husks) ∧
    husks.perform (.edit (.unwrapRoot ⟨5⟩)) = (.ok (.optionalNode (some ⟨5⟩)), husks) ∧
    husks.perform (.edit (.unwrapRoot ⟨1⟩)) = (.ok (.optionalNode (some ⟨1⟩)), husks) := by
  have tree : husks.forest.get? ⟨3⟩ = some { content := .nil, children := [⟨0⟩] } := rfl
  have empty : husks.forest.get? ⟨4⟩ = some { content := .nil } := rfl
  have pair : husks.forest.get? ⟨5⟩ = some { content := .nil, children := [⟨6⟩, ⟨7⟩] } := rfl
  have leaf : husks.forest.get? ⟨1⟩ = some
    { content := .token (.imaginary 4 "b"), parent := some ⟨0⟩, position := some 0 } := rfl
  refine ⟨?_, ?_, ?_, ?_⟩
  · obtain ⟨result, _, text, after, performed, rendered, renderedAfter, found, normal, way, again⟩ :=
      (unwrapping_keeps_written_form reachable_husks rfl tree).2.2 (by decide)
    have known : husks.perform (.query (.render ⟨3⟩)) = (.ok (.text "(a b c)"), husks) := by
      decide +kernel
    rw [known] at rendered
    cases rendered
    rcases way with ⟨rfl, rfl⟩ | ⟨_, only, forest, rfl, unwraps⟩
    · rw [tree] at found
      cases found
      exact absurd (normal rfl) (by decide)
    · cases only
      refine ⟨_, performed, renderedAfter, ?_, ?_, unwraps.others ⟨1⟩ (by decide) (by decide), again⟩
      · rw [Forest.parentOf, unwraps.freed]
        rfl
      · rw [Forest.childrenOf, unwraps.emptied]
        rfl
  · exact (unwrapping_keeps_written_form reachable_husks rfl empty).2.1 (by decide)
  · obtain ⟨_, _, _, _, performed, _, _, _, _, way, _⟩ :=
      (unwrapping_keeps_written_form reachable_husks rfl pair).2.2 (by decide)
    rcases way with ⟨rfl, rfl⟩ | ⟨_, only, _⟩
    · exact performed
    · simp at only
  · obtain ⟨_, _, _, _, performed, _, _, _, _, way, _⟩ :=
      (unwrapping_keeps_written_form reachable_husks rfl leaf).2.2 (by decide)
    rcases way with ⟨rfl, rfl⟩ | ⟨isNil, _⟩
    · exact performed
    · contradiction

end Builder

end SyntaxForest
