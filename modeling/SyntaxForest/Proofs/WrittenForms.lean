import SyntaxForest.Proofs.LinkCheck
import SyntaxForest.Proofs.Observations
import SyntaxForest.Proofs.Soundness
import SyntaxForest.Proofs.Spelling

/-!
What the written form of a node tells. Where everything below a node is a token with a plain text,
the written form is the spelling of the texts, so the reader recovers the tree from it.
-/

namespace SyntaxForest

namespace Forest

variable {forest : Forest} {root : NodeId}

def text? (forest : Forest) (id : NodeId) : Option String :=
  (forest.content? id).bind Content.text?

/-- Every node from the root down carries a token with a plain text. -/
def PlainBelow (forest : Forest) (root : NodeId) : Prop :=
  ∀ path id, forest.descend root path = some id →
    ∃ content, forest.content? id = some content ∧ content.Plain

/-- A tree is plain where every node of the forest is. -/
theorem Linked.plainBelow (linked : forest.Linked) (held : forest.Holds root)
    (plain : ∀ id, forest.Holds id → ∃ content, forest.content? id = some content ∧ content.Plain) :
    forest.PlainBelow root := by
  have closed : forest.Closed := fun parent child member => (linked.solid_of_mem member).holds
  intro path id led
  exact plain id (closed.holds_of_reaches held (reaches_of_descend led))

/-- The paths in a tree that was read lead to the nodes to which they lead in the forest. -/
theorem labelAt?_of_subtreeWithin {depth : Nat} {id : NodeId}
    {tree : OrderedTree (NodeId × Content)} (read : forest.subtreeWithin depth id = .ok tree)
    (path : List Nat) :
    (tree.map Prod.snd).labelAt? path = (forest.descend id path).bind forest.content? := by
  rw [OrderedTree.labelAt?_map]
  induction depth generalizing id tree path with
  | zero => contradiction
  | succ depth ih =>
      obtain ⟨node, below, found, rfl, answered⟩ := subtreeWithin_succ_eq_ok_iff.mp read
      cases path with
      | nil => exact (content?_eq found).symm
      | cons position path =>
          rw [OrderedTree.labelAt?, descend, childrenOf_eq found]
          rcases Nat.lt_or_ge position node.children.length with inside | outside
          · have insideBelow := answered.length_eq ▸ inside
            rw [List.getElem?_eq_getElem inside, List.getElem?_eq_getElem insideBelow]
            exact ih (answered.get inside insideBelow) path
          · rw [List.getElem?_eq_none outside,
              List.getElem?_eq_none (answered.length_eq ▸ outside)]
            rfl

/-- A plain tree has a written form, which is the spelling of its texts. -/
theorem Acyclic.exists_spelled (acyclic : forest.Acyclic) (linked : forest.Linked)
    (plain : forest.PlainBelow root) :
    ∃ (text : String) (tree : OrderedTree String), forest.render root = .ok text ∧
      tree.Every PlainText ∧
      tree.spelled = text.toList ∧
      ∀ path, (tree.labelAt? path).map some = (forest.descend root path).map forest.text? := by
  obtain ⟨content, shown, _⟩ := plain [] root rfl
  obtain ⟨tree, read⟩ := acyclic.exists_subtree linked (holds_of_content? shown)
  have labels := labelAt?_of_subtreeWithin read
  have every : (tree.map Prod.snd).Every Content.Plain := by
    intro path label labelled
    rw [labels] at labelled
    obtain ⟨id, led, shown⟩ := Option.bind_eq_some_iff.mp labelled
    obtain ⟨content, shownAgain, plainContent⟩ := plain path id led
    rw [shown, Option.some.injEq] at shownAgain
    rwa [shownAgain]
  refine ⟨_, _, ?_, ?_, (OrderedTree.toList_render _ every).symm, fun path => ?_⟩
  · rw [render, read]
    rfl
  · intro path text labelled
    rw [OrderedTree.labelAt?_map] at labelled
    obtain ⟨content, shown, rfl⟩ := Option.map_eq_some_iff.mp labelled
    exact (every path content shown).label.1
  · rw [OrderedTree.labelAt?_map, labels]
    cases led : forest.descend root path with
    | none => rfl
    | some id =>
        obtain ⟨content, shown, plainContent⟩ := plain path id led
        simp [text?, shown, plainContent.label.2.1]

end Forest

namespace Builder

variable {first second : Builder} {one other : NodeId}

theorem perform_render {builder : Builder} {id : NodeId} {text : String}
    (rendered : builder.forest.render id = .ok text) :
    builder.perform (.query (.render id)) = (.ok (.text text), builder) := by
  change (Reply.text <$> builder.forest.render id, builder) = _
  rw [rendered]
  rfl

/-- Take two nodes of reachable builders that check for cycles, and let both trees be plain. Their
written forms are equal exactly when every path of child positions leads to a node in both trees or
in neither, and the two nodes have the same text. From the written form the reader recovers the tree
with these paths and texts. -/
theorem written_form_determines_tree (reachable : first.Reachable)
    (reachableSecond : second.Reachable) (checked : first.options.checkCycles = true)
    (checkedSecond : second.options.checkCycles = true) (plain : first.forest.PlainBelow one)
    (plainSecond : second.forest.PlainBelow other) :
    ∃ form formSecond,
      first.perform (.query (.render one)) = (.ok (.text form), first) ∧
      second.perform (.query (.render other)) = (.ok (.text formSecond), second) ∧
      (form = formSecond ↔ ∀ path, (first.forest.descend one path).map first.forest.text? =
        (second.forest.descend other path).map second.forest.text?) ∧
      ∃ tree, readTree form = some tree ∧ ∀ path, (tree.labelAt? path).map some =
        (first.forest.descend one path).map first.forest.text? := by
  have sound := reachable.sound
  have soundSecond := reachableSecond.sound
  obtain ⟨form, tree, rendered, every, spelled, paths⟩ :=
    (sound.acyclic checked).exists_spelled sound.linked plain
  obtain ⟨formSecond, treeSecond, renderedSecond, everySecond, spelledSecond, pathsSecond⟩ :=
    (soundSecond.acyclic checkedSecond).exists_spelled soundSecond.linked plainSecond
  have read := readTree_eq_some_iff.mpr ⟨every, spelled⟩
  have readSecond := readTree_eq_some_iff.mpr ⟨everySecond, spelledSecond⟩
  refine ⟨form, formSecond, perform_render rendered, perform_render renderedSecond,
    ⟨fun same path => ?_, fun same => ?_⟩, tree, read, paths⟩
  · rw [same, readSecond, Option.some.injEq] at read
    rw [← paths, ← pathsSecond, read]
  · have trees : tree = treeSecond := by
      apply OrderedTree.eq_of_labelAt?
      intro path
      apply Option.map_injective (Option.some_injective String)
      rw [paths, pathsSecond, same]
    rw [← String.toList_inj, ← spelled, ← spelledSecond, trees]

/-- A builder of nodes with the empty text. One of them has a child, and another one has two. -/
def blanks : Builder where
  forest := { nodes := #[
    { content := .token (.imaginary 4 ""), children := [⟨1⟩] },
    { content := .token (.imaginary 4 ""), parent := some ⟨0⟩, position := some 0 },
    { content := .token (.imaginary 4 ""), children := [⟨3⟩, ⟨4⟩] },
    { content := .token (.imaginary 4 ""), parent := some ⟨2⟩, position := some 0 },
    { content := .token (.imaginary 4 ""), parent := some ⟨2⟩, position := some 1 }] }

theorem reachable_blanks : blanks.Reachable :=
  ⟨{}, [.edit (.createImaginary 4 ""), .edit (.createImaginary 4 ""),
    .edit (.createImaginary 4 ""), .edit (.createImaginary 4 ""), .edit (.createImaginary 4 ""),
    .edit (.addChild ⟨0⟩ ⟨1⟩), .edit (.addChild ⟨2⟩ ⟨3⟩), .edit (.addChild ⟨2⟩ ⟨4⟩)], rfl⟩

/-- A builder in which the second node has the first one as its child, with the empty text and
another kind. -/
def hollow : Builder where
  forest := { nodes := #[
    { content := .token (.imaginary 5 ""), parent := some ⟨1⟩, position := some 0 },
    { content := .token (.imaginary 5 ""), children := [⟨0⟩] }] }

theorem reachable_hollow : hollow.Reachable :=
  ⟨{}, [.edit (.createImaginary 5 ""), .edit (.createImaginary 5 ""), .edit (.addChild ⟨1⟩ ⟨0⟩)],
    rfl⟩

/-- One child is told from two by a space. The same tree in another builder has the same form. -/
theorem written_form_determines_tree_blanks :
    (∃ form wider, blanks.perform (.query (.render ⟨0⟩)) = (.ok (.text form), blanks) ∧
      blanks.perform (.query (.render ⟨2⟩)) = (.ok (.text wider), blanks) ∧ form ≠ wider) ∧
    ∃ form, blanks.perform (.query (.render ⟨0⟩)) = (.ok (.text form), blanks) ∧
      hollow.perform (.query (.render ⟨1⟩)) = (.ok (.text form), hollow) ∧
      readTree form = some (.node "" [.node "" []]) := by
  have plain : ∀ root, blanks.forest.Holds root → blanks.forest.PlainBelow root := by
    intro root held
    apply reachable_blanks.sound.linked.plainBelow held
    rintro ⟨index⟩ inside
    change index < 5 at inside
    refine ⟨.token (.imaginary 4 ""), ?_, _, "", rfl, rfl, by simp [PlainText]⟩
    interval_cases index <;> rfl
  have plainHollow : hollow.forest.PlainBelow ⟨1⟩ := by
    apply reachable_hollow.sound.linked.plainBelow (by decide)
    rintro ⟨index⟩ inside
    change index < 2 at inside
    refine ⟨.token (.imaginary 5 ""), ?_, _, "", rfl, rfl, by simp [PlainText]⟩
    interval_cases index <;> rfl
  constructor
  · obtain ⟨form, wider, rendered, renderedWider, same, _⟩ :=
      written_form_determines_tree reachable_blanks reachable_blanks rfl rfl
        (plain ⟨0⟩ (by decide)) (plain ⟨2⟩ (by decide))
    refine ⟨form, wider, rendered, renderedWider, fun equal => ?_⟩
    have second := same.mp equal [1]
    contradiction
  · obtain ⟨form, other, rendered, renderedOther, same, tree, read, paths⟩ :=
      written_form_determines_tree reachable_blanks reachable_hollow rfl rfl
        (plain ⟨0⟩ (by decide)) plainHollow
    have labels (path : List Nat) : (OrderedTree.labelAt? (.node "" [.node "" []]) path).map some =
        (blanks.forest.descend ⟨0⟩ path).map blanks.forest.text? := by
      rcases path with _ | ⟨_ | position, _ | ⟨next, rest⟩⟩ <;> rfl
    have labelsHollow (path : List Nat) :
        (OrderedTree.labelAt? (.node "" [.node "" []]) path).map some =
          (hollow.forest.descend ⟨1⟩ path).map hollow.forest.text? := by
      rcases path with _ | ⟨_ | position, _ | ⟨next, rest⟩⟩ <;> rfl
    have equal : form = other := same.mpr fun path => (labels path).symm.trans (labelsHollow path)
    have known : tree = .node "" [.node "" []] := by
      apply OrderedTree.eq_of_labelAt?
      intro path
      apply Option.map_injective (Option.some_injective String)
      rw [paths, labels]
    rw [← equal] at renderedOther
    rw [known] at read
    exact ⟨form, rendered, renderedOther, read⟩

end Builder

end SyntaxForest
