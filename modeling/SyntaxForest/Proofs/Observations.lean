import SyntaxForest.Proofs.Copies
import SyntaxForest.Proofs.Readings

/-!
What a forest shows at a node after each change of shape: the content, the children and the parent.
Contents never change, and a new node changes nothing elsewhere.
-/

namespace SyntaxForest.Forest

variable {forest : Forest}

@[simp] theorem content?_relist (forest : Forest) (parent : NodeId) (children : List NodeId)
    (id : NodeId) : (forest.relist parent children).content? id = forest.content? id := by
  simp [content?, get?_relist, Node.moved, Function.comp_def]

@[simp] theorem content?_adopted (forest : Forest) (parent child id : NodeId) :
    (forest.adopted parent child).content? id = forest.content? id := by
  unfold adopted uprooted
  split <;> simp

@[simp] theorem content?_adoptedEach (forest : Forest) (parent : NodeId) (ids : List NodeId)
    (id : NodeId) : (forest.adoptedEach parent ids).content? id = forest.content? id := by
  induction ids generalizing forest with
  | nil => rfl
  | cons child rest ih => rw [adoptedEach, ih, content?_adopted]

@[simp] theorem content?_released (forest : Forest) (released : NodeId) (node : Node)
    (id : NodeId) : (forest.released released node).content? id = forest.content? id := by
  unfold Forest.released
  split_ifs <;> simp [emptied]

theorem content?_push (forest : Forest) (node : Node) (id : NodeId) :
    (forest.push node).content? id =
      if id = ⟨forest.size⟩ then some node.content else forest.content? id := by
  cases id
  simp only [content?, get?_push, NodeId.mk.injEq]
  split_ifs <;> rfl

theorem parentOf_push (forest : Forest) {node : Node} (isRoot : node.parent = none)
    (id : NodeId) : (forest.push node).parentOf id = forest.parentOf id := by
  rw [parentOf, parentOf, get?_push]
  split_ifs with last
  · have missing : ¬ forest.Holds id := by rw [Holds, last]; omega
    simp [get?_eq_none missing, isRoot]
  · rfl

theorem isNil_iff_content? {id : NodeId} {node : Node} (found : forest.get? id = some node) :
    node.content.isNil = true ↔ forest.content? id = some .nil := by
  rw [content?_eq found]
  cases node.content <;> simp [Content.isNil]

/-- A nil node that gives its children away has none left. -/
theorem childrenOf_released_eq {id : NodeId} {node : Node} (found : forest.get? id = some node)
    (other : NodeId) : (forest.released id node).childrenOf other =
      if forest.content? id = some .nil ∧ other = id then [] else forest.childrenOf other := by
  have isNil := isNil_iff_content? found
  unfold Forest.released
  split_ifs with nil own own
  · rw [emptied, childrenOf_relist (holds_of_get? found), if_pos own.2]
  · rw [emptied, childrenOf_relist (holds_of_get? found),
      if_neg fun same => own ⟨isNil.mp nil, same⟩]
  · exact absurd (isNil.mpr own.1) nil
  · rfl

/-- Nothing lies above a root, so every other node may be attached there. -/
theorem checkAttach_of_root {parent : NodeId} {ids : List NodeId} (checkCycles : Bool)
    (held : forest.Holds parent) (isRoot : forest.parentOf parent = none)
    (different : ∀ id ∈ ids, id ≠ parent) : forest.checkAttach checkCycles parent ids = .ok () := by
  obtain ⟨node, found⟩ := (forest.holds_iff parent).mp held
  rw [parentOf_eq found] at isRoot
  induction ids with
  | nil => rfl
  | cons id rest ih =>
      rw [List.forall_mem_cons] at different
      refine checkAttach_cons_eq_ok_iff.mpr ⟨different.1, fun _ => ?_, ih different.2⟩
      rw [isAncestorOrSelf, if_neg different.1, ancestorsUpTo, fetch_eq_ok found]
      simp [Bind.bind, Except.bind, isRoot, climb]

theorem solid_of_content? {id : NodeId} {content : Content}
    (shown : forest.content? id = some content) (concrete : content.isNil = false) :
    forest.Solid id := by
  obtain ⟨node, found, rfl⟩ := Option.map_eq_some_iff.mp shown
  exact ⟨node, found, concrete⟩

theorem Solid.content?_ne {id : NodeId} (solid : forest.Solid id) :
    forest.content? id ≠ some .nil := by
  obtain ⟨node, found, concrete⟩ := solid
  rw [content?_eq found, ne_eq, Option.some.injEq]
  intro isNil
  rw [isNil] at concrete
  contradiction

theorem holds_of_content? {id : NodeId} {content : Content}
    (shown : forest.content? id = some content) : forest.Holds id := by
  obtain ⟨node, found, _⟩ := Option.map_eq_some_iff.mp shown
  exact holds_of_get? found

theorem childrenOf_eq_nil {id : NodeId} (missing : ¬ forest.Holds id) :
    forest.childrenOf id = [] := by
  simp [childrenOf, get?_eq_none missing]

end SyntaxForest.Forest
