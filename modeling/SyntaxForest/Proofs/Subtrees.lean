import SyntaxForest.Forest.Subtree
import SyntaxForest.Proofs.Ancestors
import Mathlib.Data.List.Perm.Subperm
import Mathlib.Order.WellFoundedSet

/-!
The trees that are read from a linked forest. A tree lists exactly the nodes that reach its root
along the parent links. Without cycles every tree can be read, no node occurs in it twice, and the
trees of all roots together list every node.
-/

namespace SyntaxForest

namespace OrderedTree

mutual

/-- The labels of a tree, each before the labels below it. -/
def preorder {α : Type} : OrderedTree α → List α
  | .node label children => label :: preorderEach children

def preorderEach {α : Type} : List (OrderedTree α) → List α
  | [] => []
  | tree :: rest => tree.preorder ++ preorderEach rest

end

theorem preorderEach_eq_flatMap {α : Type} (trees : List (OrderedTree α)) :
    preorderEach trees = trees.flatMap preorder := by
  induction trees with
  | nil => rfl
  | cons tree rest ih => rw [preorderEach, List.flatMap_cons, ih]

/-- The nodes that a tree was read from, in preorder. -/
def handles (tree : OrderedTree (NodeId × Content)) : List NodeId := tree.preorder.map Prod.fst

theorem handles_node (label : NodeId × Content) (children : List (OrderedTree (NodeId × Content))) :
    (node label children).handles = label.1 :: children.flatMap handles := by
  rw [handles, preorder, preorderEach_eq_flatMap, List.map_cons, List.map_flatMap]
  rfl

theorem label_mem_handles (tree : OrderedTree (NodeId × Content)) :
    tree.label.1 ∈ tree.handles := by
  cases tree
  rw [handles_node]
  exact List.mem_cons_self

theorem mapEach_eq_map {α β : Type} (change : α → β) (trees : List (OrderedTree α)) :
    mapEach change trees = trees.map (map change) := by
  induction trees with
  | nil => rfl
  | cons tree rest ih => rw [mapEach, List.map_cons, ih]

mutual

theorem map_id {α : Type} {change : α → α} (same : ∀ label, change label = label)
    (tree : OrderedTree α) : tree.map change = tree := by
  cases tree with
  | node label children => rw [map, same, mapEach_id same]

theorem mapEach_id {α : Type} {change : α → α} (same : ∀ label, change label = label)
    (trees : List (OrderedTree α)) : mapEach change trees = trees := by
  cases trees with
  | nil => rfl
  | cons tree rest => rw [mapEach, map_id same tree, mapEach_id same rest]

end

mutual

theorem map_map {α β γ : Type} (first : α → β) (second : β → γ) (tree : OrderedTree α) :
    (tree.map first).map second = tree.map (second ∘ first) := by
  cases tree with
  | node label children =>
      rw [map, map, map, mapEach_mapEach]
      rfl

theorem mapEach_mapEach {α β γ : Type} (first : α → β) (second : β → γ)
    (trees : List (OrderedTree α)) :
    mapEach second (mapEach first trees) = mapEach (second ∘ first) trees := by
  cases trees with
  | nil => rfl
  | cons tree rest => rw [mapEach, mapEach, mapEach, map_map, mapEach_mapEach]

end

end OrderedTree

namespace Forest

open Relation

variable {forest : Forest}

/-- All handles of the forest, in the order of creation. -/
def handles (forest : Forest) : List NodeId := (List.range forest.size).map NodeId.mk

/-- The nodes without a parent, in the order of creation. -/
def roots (forest : Forest) : List NodeId :=
  forest.handles.filter fun id => (forest.parentOf id).isNone

@[simp] theorem mem_handles {id : NodeId} : id ∈ forest.handles ↔ forest.Holds id := by
  simp only [handles, List.mem_map, List.mem_range, Holds]
  constructor
  · rintro ⟨index, inside, rfl⟩
    exact inside
  · intro inside
    exact ⟨id.index, inside, rfl⟩

theorem mem_roots {id : NodeId} :
    id ∈ forest.roots ↔ forest.Holds id ∧ forest.parentOf id = none := by
  simp [roots]

theorem nodup_handles (forest : Forest) : forest.handles.Nodup := by
  apply List.nodup_range.map
  intro first second same
  exact congrArg NodeId.index same

/-- A list of different nodes is no longer than the forest. -/
theorem length_le_size {ids : List NodeId} (nodup : ids.Nodup)
    (held : ∀ id ∈ ids, forest.Holds id) : ids.length ≤ forest.size := by
  have bounded := (nodup.subperm fun id member => mem_handles.mpr (held id member)).length_le
  simpa [handles] using bounded

/-- Answers to all questions form a list. -/
theorem exists_forall₂ {α β : Type} {related : α → β → Prop} {items : List α}
    (each : ∀ item ∈ items, ∃ value, related item value) :
    ∃ values, List.Forall₂ related items values := by
  induction items with
  | nil => exact ⟨[], .nil⟩
  | cons item rest ih =>
      obtain ⟨value, first⟩ := each item List.mem_cons_self
      obtain ⟨values, later⟩ := ih fun other member => each other (List.mem_cons_of_mem _ member)
      exact ⟨value :: values, .cons first later⟩

/-- A tree consists of its root and the trees of the children. -/
theorem subtreeWithin_succ_eq_ok_iff {depth : Nat} {id : NodeId}
    {tree : OrderedTree (NodeId × Content)} :
    forest.subtreeWithin (depth + 1) id = .ok tree ↔
      ∃ node below, forest.get? id = some node ∧ tree = .node (id, node.content) below ∧
        List.Forall₂ (fun child subtree => forest.subtreeWithin depth child = .ok subtree)
          node.children below := by
  constructor
  · intro read
    obtain ⟨node, fetched, rest⟩ := answer_of_bind read
    obtain ⟨below, answered, same⟩ := answer_of_bind rest
    cases same
    exact ⟨node, below, get?_of_fetch fetched, rfl, mapM_eq_ok_iff.mp answered⟩
  · rintro ⟨node, below, found, rfl, answered⟩
    have below := mapM_eq_ok_iff.mpr answered
    simp [subtreeWithin, fetch_eq_ok found, below, Bind.bind, Except.bind, Pure.pure, Except.pure]

/-- Trees that can be read list a node when it reaches one of their roots. -/
theorem mem_flatMap_handles_iff {depth : Nat} {ids : List NodeId} {other : NodeId}
    {trees : List (OrderedTree (NodeId × Content))}
    (read : List.Forall₂ (fun id tree => forest.subtreeWithin depth id = .ok tree) ids trees)
    (lists : ∀ id tree, forest.subtreeWithin depth id = .ok tree →
      (other ∈ tree.handles ↔ ReflTransGen forest.ChildOf other id)) :
    other ∈ trees.flatMap OrderedTree.handles ↔
      ∃ id ∈ ids, ReflTransGen forest.ChildOf other id := by
  induction read with
  | nil => simp
  | @cons id tree _ _ first _ ih =>
      rw [List.flatMap_cons, List.mem_append, lists id tree first, ih, List.exists_mem_cons_iff]

/-- A tree that can be read lists exactly the nodes that reach its root. -/
theorem Linked.mem_handles_iff (linked : forest.Linked) {depth : Nat} {id other : NodeId}
    {tree : OrderedTree (NodeId × Content)} (read : forest.subtreeWithin depth id = .ok tree) :
    other ∈ tree.handles ↔ ReflTransGen forest.ChildOf other id := by
  induction depth generalizing id tree with
  | zero => contradiction
  | succ depth ih =>
      obtain ⟨node, below, found, rfl, answered⟩ := subtreeWithin_succ_eq_ok_iff.mp read
      rw [OrderedTree.handles_node, List.mem_cons,
        mem_flatMap_handles_iff answered fun _ _ readChild => ih readChild,
        ReflTransGen.cases_tail_iff, ← childrenOf_eq found, eq_comm]
      apply or_congr_right
      apply exists_congr
      intro child
      rw [linked.mem_childrenOf_iff, and_comm]
      rfl

/-- Two ancestors of one node lie on one path. -/
theorem reaches_or_reaches {id first second : NodeId} (one : ReflTransGen forest.ChildOf id first)
    (other : ReflTransGen forest.ChildOf id second) :
    ReflTransGen forest.ChildOf first second ∨ ReflTransGen forest.ChildOf second first := by
  apply ReflTransGen.total_of_right_unique _ one other
  intro child parent another link linkAgain
  rw [ChildOf] at link linkAgain
  rw [link, Option.some.injEq] at linkAgain
  exact linkAgain

/-- Trees whose roots share no descendant list no node twice. -/
theorem Linked.nodup_flatMap_handles (linked : forest.Linked) {depth : Nat} {ids : List NodeId}
    {trees : List (OrderedTree (NodeId × Content))}
    (read : List.Forall₂ (fun id tree => forest.subtreeWithin depth id = .ok tree) ids trees)
    (each : ∀ id ∈ ids, ∀ tree, forest.subtreeWithin depth id = .ok tree → tree.handles.Nodup)
    (nodup : ids.Nodup)
    (apart : ∀ first ∈ ids, ∀ second ∈ ids, ReflTransGen forest.ChildOf first second →
      first = second) :
    (trees.flatMap OrderedTree.handles).Nodup := by
  induction read with
  | nil => exact List.nodup_nil
  | @cons id tree rest others first later ih =>
      rw [List.flatMap_cons, List.nodup_append]
      obtain ⟨fresh, nodup⟩ := List.nodup_cons.mp nodup
      refine ⟨each id List.mem_cons_self tree first, ih ?_ nodup ?_, ?_⟩
      · exact fun other member => each other (List.mem_cons_of_mem _ member)
      · intro one memberOne other memberOther
        exact apart one (List.mem_cons_of_mem _ memberOne) other
          (List.mem_cons_of_mem _ memberOther)
      · rintro other member _ memberAgain rfl
        rw [linked.mem_handles_iff first] at member
        rw [mem_flatMap_handles_iff later fun _ _ => linked.mem_handles_iff] at memberAgain
        obtain ⟨second, listed, path⟩ := memberAgain
        have listedAgain := List.mem_cons_of_mem id listed
        have same : id = second := by
          rcases reaches_or_reaches member path with down | up
          · exact apart id List.mem_cons_self second listedAgain down
          · exact (apart second listedAgain id List.mem_cons_self up).symm
        rw [same] at fresh
        exact fresh listed

/-- No node below the root, the root included, lies above itself. -/
def Grounded (forest : Forest) (root : NodeId) : Prop :=
  ∀ id, ReflTransGen forest.ChildOf id root → ¬ TransGen forest.ChildOf id id

theorem Acyclic.grounded (acyclic : forest.Acyclic) (root : NodeId) : forest.Grounded root :=
  fun id _ => acyclic id

theorem Grounded.child {root child : NodeId} (grounded : forest.Grounded root)
    (link : forest.ChildOf child root) : forest.Grounded child :=
  fun id path => grounded id (path.tail link)

/-- A cycle below a node lies below one of its children. -/
theorem grounded_of_children {root : NodeId}
    (children : ∀ child, forest.ChildOf child root → forest.Grounded child) :
    forest.Grounded root := by
  intro id path cycle
  rcases ReflTransGen.cases_tail path with rfl | ⟨child, path, link⟩
  · obtain ⟨child, path, link⟩ := TransGen.tail'_iff.mp cycle
    exact children child link _ path cycle
  · exact children child link id path cycle

/-- A tree without cycles lists no node twice. -/
theorem Grounded.nodup_handles {id : NodeId} (grounded : forest.Grounded id)
    (linked : forest.Linked) {depth : Nat} {tree : OrderedTree (NodeId × Content)}
    (read : forest.subtreeWithin depth id = .ok tree) : tree.handles.Nodup := by
  induction depth generalizing id tree with
  | zero => contradiction
  | succ depth ih =>
      obtain ⟨node, below, found, rfl, answered⟩ := subtreeWithin_succ_eq_ok_iff.mp read
      have isChild : ∀ child ∈ node.children, forest.ChildOf child id := by
        intro child member
        rw [← childrenOf_eq found] at member
        exact linked.mem_childrenOf_iff.mp member
      rw [OrderedTree.handles_node, List.nodup_cons]
      constructor
      · rw [mem_flatMap_handles_iff answered fun _ _ => linked.mem_handles_iff]
        rintro ⟨child, member, path⟩
        exact grounded id .refl (TransGen.tail' path (isChild child member))
      · apply linked.nodup_flatMap_handles answered
        · intro child member subtree readChild
          exact ih (grounded.child (isChild child member)) readChild
        · rw [← childrenOf_eq found]
          exact linked.nodup_childrenOf id
        · intro first memberFirst second memberSecond path
          rcases ReflTransGen.cases_head path with same | ⟨parent, link, path⟩
          · exact same
          · have above : parent = id := by
              have known := isChild first memberFirst
              rw [ChildOf] at link known
              rw [known, Option.some.injEq] at link
              exact link.symm
            rw [above] at path
            exact absurd (TransGen.tail' path (isChild second memberSecond)) (grounded id .refl)

/-- Without cycles no tree lists a node twice. -/
theorem Acyclic.nodup_handles (acyclic : forest.Acyclic) (linked : forest.Linked) {depth : Nat}
    {id : NodeId} {tree : OrderedTree (NodeId × Content)}
    (read : forest.subtreeWithin depth id = .ok tree) : tree.handles.Nodup :=
  (acyclic.grounded id).nodup_handles linked read

/-- In a tree without cycles a walk downwards runs out of new nodes before it runs out of depth. The
chain holds the strict ancestors that the walk has passed. -/
theorem Grounded.exists_subtreeWithin {depth : Nat} {id : NodeId} {chain : List NodeId}
    (grounded : forest.Grounded id) (linked : forest.Linked) (held : forest.Holds id)
    (nodup : chain.Nodup) (above : ∀ other ∈ chain, TransGen forest.ChildOf id other)
    (enough : forest.size ≤ depth + chain.length) :
    ∃ tree, forest.subtreeWithin depth id = .ok tree := by
  have fresh : id ∉ chain := fun member => grounded id .refl (above id member)
  have longer : (id :: chain).Nodup := List.nodup_cons.mpr ⟨fresh, nodup⟩
  induction depth generalizing id chain with
  | zero =>
      have bounded : (id :: chain).length ≤ forest.size := by
        apply length_le_size longer
        intro other member
        rcases List.mem_cons.mp member with rfl | inside
        · exact held
        · obtain ⟨child, _, link⟩ := TransGen.tail'_iff.mp (above other inside)
          exact linked.holds_parent link
      rw [List.length_cons] at bounded
      omega
  | succ depth ih =>
      obtain ⟨node, found⟩ := (forest.holds_iff id).mp held
      have readChild : ∀ child ∈ node.children,
          ∃ tree, forest.subtreeWithin depth child = .ok tree := by
        intro child member
        rw [← childrenOf_eq found] at member
        have link : forest.ChildOf child id := linked.mem_childrenOf_iff.mp member
        have groundedChild := grounded.child link
        have aboveChild : ∀ other ∈ id :: chain, TransGen forest.ChildOf child other := by
          intro other inside
          rcases List.mem_cons.mp inside with rfl | inside
          · exact .single link
          · exact .head link (above other inside)
        have freshChild : child ∉ id :: chain :=
          fun inside => groundedChild child .refl (aboveChild child inside)
        refine ih groundedChild (linked.solid_of_mem member).holds longer aboveChild ?_ freshChild
          (List.nodup_cons.mpr ⟨freshChild, longer⟩)
        rw [List.length_cons]
        omega
      obtain ⟨below, answered⟩ := exists_forall₂ readChild
      exact ⟨_, subtreeWithin_succ_eq_ok_iff.mpr ⟨node, below, found, rfl, answered⟩⟩

theorem Grounded.exists_subtree {id : NodeId} (grounded : forest.Grounded id)
    (linked : forest.Linked) (held : forest.Holds id) : ∃ tree, forest.subtree id = .ok tree :=
  grounded.exists_subtreeWithin linked held List.nodup_nil
    (fun _ absent => absurd absent List.not_mem_nil) (by simp)

theorem Acyclic.exists_subtree (acyclic : forest.Acyclic) (linked : forest.Linked) {id : NodeId}
    (held : forest.Holds id) : ∃ tree, forest.subtree id = .ok tree :=
  (acyclic.grounded id).exists_subtree linked held

/-- Every node in a tree is held, together with the root of the tree. -/
theorem holds_of_reaches {id root : NodeId} (held : forest.Holds root)
    (path : ReflTransGen forest.ChildOf id root) : forest.Holds id := by
  rcases ReflTransGen.cases_head path with rfl | ⟨parent, link, _⟩
  · exact held
  · obtain ⟨record, found, _⟩ := (forest.parentOf_eq_some_iff id parent).mp link
    exact holds_of_get? found

/-- Without cycles every node reaches a root. -/
theorem Acyclic.exists_root (acyclic : forest.Acyclic) (linked : forest.Linked) {id : NodeId}
    (held : forest.Holds id) : ∃ root ∈ forest.roots, ReflTransGen forest.ChildOf id root := by
  have order : IsStrictOrder NodeId (Function.swap (TransGen forest.ChildOf)) :=
    { irrefl := acyclic, trans := fun _ _ _ later earlier => earlier.trans later }
  have finite : {id | forest.Holds id}.Finite :=
    (List.finite_toSet forest.handles).subset fun _ inside => mem_handles.mpr inside
  have founded : {id | forest.Holds id}.WellFoundedOn (Function.swap (TransGen forest.ChildOf)) :=
    finite.wellFoundedOn
  apply founded.induction (P := fun id =>
    ∃ root ∈ forest.roots, ReflTransGen forest.ChildOf id root) held
  intro id held ih
  cases above : forest.parentOf id with
  | none => exact ⟨id, mem_roots.mpr ⟨held, above⟩, .refl⟩
  | some parent =>
      obtain ⟨root, isRoot, path⟩ := ih parent (linked.holds_parent above) (.single above)
      exact ⟨root, isRoot, path.head above⟩

/-- A path from a root goes nowhere. -/
theorem eq_of_reaches {root id : NodeId} (isRoot : forest.parentOf root = none)
    (path : ReflTransGen forest.ChildOf root id) : root = id := by
  rcases ReflTransGen.cases_head path with same | ⟨parent, link, _⟩
  · exact same
  · rw [ChildOf, isRoot] at link
    contradiction

/-- Without cycles the trees of the roots can be read, and together they list every handle once. -/
theorem Acyclic.partition (acyclic : forest.Acyclic) (linked : forest.Linked) :
    ∃ trees, forest.roots.mapM forest.subtree = .ok trees ∧
      (trees.flatMap OrderedTree.handles).Perm forest.handles := by
  have readable : ∀ id ∈ forest.roots,
      ∃ tree, forest.subtreeWithin (forest.size + 1) id = .ok tree :=
    fun id member => acyclic.exists_subtree linked (mem_roots.mp member).1
  obtain ⟨trees, read⟩ := exists_forall₂ readable
  refine ⟨trees, mapM_eq_ok_iff.mpr read, ?_⟩
  have nodup : (trees.flatMap OrderedTree.handles).Nodup := by
    apply linked.nodup_flatMap_handles read fun _ _ _ => acyclic.nodup_handles linked
    · exact forest.nodup_handles.filter _
    · intro first memberFirst second _ path
      exact eq_of_reaches (mem_roots.mp memberFirst).2 path
  rw [List.perm_ext_iff_of_nodup nodup forest.nodup_handles]
  intro id
  rw [mem_flatMap_handles_iff read fun _ _ => linked.mem_handles_iff, mem_handles]
  constructor
  · rintro ⟨root, member, path⟩
    exact holds_of_reaches (mem_roots.mp member).1 path
  · intro held
    exact acyclic.exists_root linked held

/-- A walk along the child links of a linked forest finds every node it looks for. -/
theorem Linked.blames_subtreeWithin (linked : forest.Linked) (depth : Nat) {id : NodeId}
    {handles : List NodeId} (listed : forest.Holds id ∨ id ∈ handles) :
    forest.Blames handles (forest.subtreeWithin depth id) := by
  induction depth generalizing id with
  | zero => exact .endless
  | succ depth ih =>
      apply Blames.bind (forest.blames_fetch listed)
      intro node fetched
      have childrenEq := childrenOf_eq (get?_of_fetch fetched)
      apply Blames.bind
      · apply Blames.mapM
        intro child member
        rw [← childrenEq] at member
        exact ih (.inl (linked.solid_of_mem member).holds)
      · intro below _
        exact .ok _

end Forest

end SyntaxForest
