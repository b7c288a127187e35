import SyntaxForest.Proofs.Locality
import SyntaxForest.Proofs.Observations
import SyntaxForest.Proofs.Outcomes

/-!
Chains of left-associative operators. A rule starts with an empty list, adds the first operand, and
lets every further operator become the root over what was built so far. The tree that results nests
to the left, however long the chain is.
-/

namespace SyntaxForest

namespace EditM

end EditM

namespace Forest

variable {forest : Forest}

/-- The root carries the tree that was built so far, as the only child of a nil node or as a
concrete root. The list that the rule began with is that nil node, or it has been emptied. -/
structure Carries (forest : Forest) (list root top : NodeId)
    (tree : OrderedTree (NodeId × Content)) : Prop where
  linked : forest.Linked
  isRoot : forest.parentOf root = none
  carried : forest.content? root = some .nil ∧ forest.childrenOf root = [top] ∨
    root = top ∧ forest.Solid top
  read : forest.subtreeWithin tree.handles.length top = .ok tree
  short : tree.handles.length ≤ forest.size
  hollow : forest.content? list = some .nil
  spent : root = list ∨ forest.childrenOf list = []

/-- The new root stands over what the old root carried and over a new leaf. A nil old root is
emptied, and nothing else changes below any node. -/
structure Joined (before after : Forest) (root top : NodeId) (operator operand : Token) :
    Prop where
  linked : after.Linked
  size : after.size = before.size + 2
  isRoot : after.parentOf ⟨before.size⟩ = none
  children : ∀ id, after.childrenOf id =
    if id = ⟨before.size⟩ then [top, ⟨before.size + 1⟩]
    else if before.content? root = some .nil ∧ id = root then [] else before.childrenOf id
  contents : ∀ id, after.content? id =
    if id = ⟨before.size + 1⟩ then some (.token operand)
    else if id = ⟨before.size⟩ then some (.token operator) else before.content? id

namespace Carries

variable {list root top : NodeId} {tree : OrderedTree (NodeId × Content)}

theorem solid_top (carries : forest.Carries list root top tree) : forest.Solid top := by
  rcases carries.carried with ⟨_, only⟩ | ⟨_, solid⟩
  · exact carries.linked.solid_of_mem (by rw [only]; exact List.mem_cons_self)
  · exact solid

theorem holds_of_mem (carries : forest.Carries list root top tree) :
    ∀ id ∈ tree.handles, forest.Holds id := fun _ member =>
  holds_of_reaches carries.solid_top.holds
    ((carries.linked.mem_handles_iff carries.read).mp member)

/-- A nil root is not in the tree that it carries. -/
theorem apart (carries : forest.Carries list root top tree) :
    ∀ id ∈ tree.handles, ¬ (forest.content? root = some .nil ∧ id = root) := by
  rintro id member ⟨isNil, rfl⟩
  have path := (carries.linked.mem_handles_iff carries.read).mp member
  have solid := carries.solid_top
  rw [← eq_of_reaches carries.isRoot path] at solid
  exact solid.content?_ne isNil

/-- The list is empty once the root has given away what it carries. -/
theorem list_emptied (carries : forest.Carries list root top tree) :
    (if forest.content? root = some .nil ∧ list = root then [] else forest.childrenOf list) =
      [] := by
  split_ifs with own
  · rfl
  · refine carries.spent.resolve_left fun same => own ⟨?_, same.symm⟩
    rw [same]
    exact carries.hollow

/-- A new leaf elsewhere changes nothing. -/
theorem push (carries : forest.Carries list root top tree) (token : Token) :
    (forest.push { content := .token token }).Carries list root top tree := by
  have shows : ∀ id, forest.Holds id →
      (forest.push { content := .token token }).content? id = forest.content? id := by
    intro id held
    rw [content?_push, if_neg (ne_of_holds held).symm]
  have heldList := holds_of_content? carries.hollow
  refine ⟨carries.linked.push rfl rfl rfl, ?_, ?_, ?_, ?_, ?_, ?_⟩
  · rw [parentOf_push forest rfl, carries.isRoot]
  · rw [childrenOf_push forest rfl]
    rcases carries.carried with ⟨isNil, only⟩ | ⟨same, solid⟩
    · rw [shows root (holds_of_content? isNil)]
      exact .inl ⟨isNil, only⟩
    · exact .inr ⟨same, solid_push solid _⟩
  · apply subtreeWithin_of_alike carries.read _ _ (Nat.le_refl _)
    · exact fun id member => shows id (carries.holds_of_mem id member)
    · exact fun id _ => childrenOf_push forest rfl id
  · rw [size_push]
    exact Nat.le_succ_of_le carries.short
  · rw [shows list heldList, carries.hollow]
  · rw [childrenOf_push forest rfl]
    exact carries.spent

/-- A root that gives away what it carries lets the tree stand alone. -/
theorem released {node : Node} (carries : forest.Carries list root top tree)
    (found : forest.get? root = some node) :
    (forest.released root node).Carries list top top tree := by
  have held := holds_of_get? found
  have solid : (forest.released root node).Solid top := by simpa using carries.solid_top
  refine ⟨carries.linked.released held node, ?_, .inr ⟨rfl, solid⟩, ?_, ?_, ?_, ?_⟩
  · rw [carries.linked.parentOf_released held]
    split_ifs with gone
    · rfl
    · rcases carries.carried with ⟨hollow, only⟩ | ⟨same, _⟩
      · exact absurd ⟨(isNil_iff_content? found).mpr hollow, by simp [only]⟩ gone
      · rw [← same]
        exact carries.isRoot
  · apply subtreeWithin_of_alike carries.read _ _ (Nat.le_refl _)
    · intro id _
      rw [content?_released]
    · intro id member
      rw [childrenOf_released_eq found, if_neg (carries.apart id member)]
  · rw [size_released]
    exact carries.short
  · rw [content?_released]
    exact carries.hollow
  · rw [childrenOf_released_eq found]
    exact .inr carries.list_emptied

/-- The tree of the new root has the old tree and the new leaf below it. -/
theorem joined {after : Forest} {operator operand : Token}
    (carries : forest.Carries list root top tree)
    (joined : forest.Joined after root top operator operand) :
    after.Carries list ⟨forest.size⟩ ⟨forest.size⟩ (.node (⟨forest.size⟩, .token operator)
      [tree, .node (⟨forest.size + 1⟩, .token operand) []]) := by
  have count : (OrderedTree.node (⟨forest.size⟩, .token operator)
      [tree, .node (⟨forest.size + 1⟩, .token operand) []]).handles.length =
        tree.handles.length + 1 + 1 := by
    simp [OrderedTree.handles_node]
  have differs : ∀ id, forest.Holds id → id ≠ ⟨forest.size⟩ ∧ id ≠ ⟨forest.size + 1⟩ := by
    rintro ⟨index⟩ held
    simp only [Holds] at held
    simp only [ne_eq, NodeId.mk.injEq]
    omega
  have shown : after.content? ⟨forest.size⟩ = some (.token operator) := by
    simp [joined.contents]
  refine ⟨joined.linked, joined.isRoot, .inr ⟨rfl, solid_of_content? shown rfl⟩, ?_, ?_, ?_, ?_⟩
  · rw [count]
    apply subtreeWithin_eq_ok shown
    rw [joined.children, if_pos rfl]
    refine .cons ?_ (.cons ?_ .nil)
    -- Only the new root and a nil old root have changed below, and the old tree holds neither.
    · apply subtreeWithin_of_alike carries.read _ _ (Nat.le_succ _)
      · intro other member
        have different := differs other (carries.holds_of_mem other member)
        rw [joined.contents, if_neg different.2, if_neg different.1]
      · intro other member
        have different := differs other (carries.holds_of_mem other member)
        rw [joined.children, if_neg different.1, if_neg (carries.apart other member)]
    · apply subtreeWithin_eq_ok (by simp [joined.contents])
      have missing : ¬ forest.Holds ⟨forest.size + 1⟩ := by simp [Holds]
      have empty := childrenOf_eq_nil missing
      rw [joined.children, if_neg (by simp), empty, ite_self]
      exact .nil
  · rw [count, joined.size]
    exact Nat.add_le_add_right carries.short 2
  · have different := differs list (holds_of_content? carries.hollow)
    rw [joined.contents, if_neg different.2, if_neg different.1]
    exact carries.hollow
  · have different := differs list (holds_of_content? carries.hollow)
    rw [joined.children, if_neg different.1]
    exact .inr carries.list_emptied

end Carries

end Forest

namespace EditM

variable {before : Forest} {list root top : NodeId} {tree : OrderedTree (NodeId × Content)}

/-- The root lets the tree that it carries stand alone. -/
theorem unwrapRoot_ok {node : Node} (linked : before.Linked) (found : before.get? root = some node)
    (carried : node.incoming root = [top]) :
    unwrapRoot root before = .ok (some top) (before.released root node) := by
  rw [unwrapRoot, bind_ok (fetch_ok found)]
  unfold Node.incoming at carried
  split_ifs at carried with isNil
  · have only : before.childrenOf root = [top] := by rw [Forest.childrenOf_eq found, carried]
    have member : top ∈ before.childrenOf root := by simp [only]
    have emptied : before.uprooted top = before.emptied root := by
      rw [Forest.uprooted_of_child (linked.mem_childrenOf_iff.mp member), only,
        List.erase_cons_head, Forest.emptied]
    rw [if_pos isNil, carried, Forest.released, if_pos isNil, ← emptied]
    exact bind_ok (detach_ok linked (linked.solid_of_mem member).holds)
  · rw [if_neg isNil, Forest.released, if_neg isNil, List.singleton_inj.mp carried]
    rfl

end EditM

namespace EditM.Confined

variable {scope : Scope}

end EditM.Confined

namespace Builder

variable {builder : Builder}

end Builder

end SyntaxForest
