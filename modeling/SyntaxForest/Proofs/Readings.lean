import SyntaxForest.Forest.Verify
import SyntaxForest.Proofs.Walks

/-!
What is read from a tree depends on the records of the tree alone. A tree of a linked forest that
can be read also passes the check of its links.
-/

namespace SyntaxForest.Forest

open Relation

variable {forest before after : Forest}

/-- A handle that the forest does not hold has no content. -/
def content? (forest : Forest) (id : NodeId) : Option Content := (forest.get? id).map Node.content

theorem content?_eq {id : NodeId} {node : Node} (found : forest.get? id = some node) :
    forest.content? id = some node.content := by
  simp [content?, found]

/-- A tree is read from the content of its root and the trees of the children. -/
theorem subtreeWithin_eq_ok {depth : Nat} {id : NodeId} {content : Content}
    {below : List (OrderedTree (NodeId × Content))} (shown : forest.content? id = some content)
    (answered : List.Forall₂ (fun child subtree => forest.subtreeWithin depth child = .ok subtree)
      (forest.childrenOf id) below) :
    forest.subtreeWithin (depth + 1) id = .ok (.node (id, content) below) := by
  obtain ⟨record, found, rfl⟩ := Option.map_eq_some_iff.mp shown
  rw [childrenOf_eq found] at answered
  exact subtreeWithin_succ_eq_ok_iff.mpr ⟨record, below, found, rfl, answered⟩

/-- A tree is read again, under other names, from every forest in which the nodes with these names
have the same contents and the renamed children, however many levels the walk may enter beyond those
of the tree. -/
theorem subtreeWithin_map (rename : NodeId → NodeId) {depth more : Nat} {id : NodeId}
    {tree : OrderedTree (NodeId × Content)} (read : before.subtreeWithin depth id = .ok tree)
    (contents : ∀ other ∈ tree.handles, after.content? (rename other) = before.content? other)
    (children : ∀ other ∈ tree.handles,
      after.childrenOf (rename other) = (before.childrenOf other).map rename)
    (deeper : depth ≤ more) :
    after.subtreeWithin more (rename id) =
      .ok (tree.map (Prod.map rename fun content => content)) := by
  induction depth generalizing id tree more with
  | zero => contradiction
  | succ depth ih =>
      obtain ⟨more, rfl⟩ := Nat.exists_eq_add_of_le' (Nat.le_trans (Nat.le_add_left 1 depth) deeper)
      obtain ⟨node, below, found, rfl, answered⟩ := subtreeWithin_succ_eq_ok_iff.mp read
      rw [OrderedTree.handles_node, List.forall_mem_cons] at contents children
      rw [OrderedTree.map, OrderedTree.mapEach_eq_map]
      apply subtreeWithin_eq_ok (contents.1.trans (content?_eq found))
      rw [children.1, childrenOf_eq found, List.forall₂_map_left_iff, List.forall₂_map_right_iff]
      have listed : List.Forall₂ (fun child subtree => subtree ∈ below ∧
          before.subtreeWithin depth child = .ok subtree) node.children below :=
        List.Forall₂.flip ((List.forall₂_and_left _ _).mpr ⟨fun _ member => member, answered.flip⟩)
      refine listed.imp ?_
      rintro child subtree ⟨member, readChild⟩
      apply ih readChild _ _ (by omega)
      · intro other inside
        exact contents.2 other (List.mem_flatMap.mpr ⟨subtree, member, inside⟩)
      · intro other inside
        exact children.2 other (List.mem_flatMap.mpr ⟨subtree, member, inside⟩)

/-- A tree is read again from every forest in which its nodes have the same contents and children,
however many levels the walk may enter beyond those of the tree. -/
theorem subtreeWithin_of_alike {depth more : Nat} {id : NodeId}
    {tree : OrderedTree (NodeId × Content)} (read : before.subtreeWithin depth id = .ok tree)
    (contents : ∀ other ∈ tree.handles, after.content? other = before.content? other)
    (children : ∀ other ∈ tree.handles, after.childrenOf other = before.childrenOf other)
    (deeper : depth ≤ more) : after.subtreeWithin more id = .ok tree := by
  have renamed := subtreeWithin_map (fun other => other) read contents
    (fun other member => by rw [children other member, List.map_id']) deeper
  exact renamed.trans (congrArg Except.ok (OrderedTree.map_id (fun _ => rfl) tree))

/-- A walk that reached a root is repeated in every forest in which the nodes on it have the same
records, however long the walk may go on. -/
theorem climb_of_alike {limit more : Nat} {start : Option NodeId} {above : List NodeId}
    (walked : before.climb limit start = .ok above) (ended : above.length < limit)
    (records : ∀ other ∈ above, after.get? other = before.get? other) (longer : limit ≤ more) :
    after.climb more start = .ok above := by
  induction limit generalizing start above more with
  | zero => omega
  | succ limit ih =>
      obtain ⟨more, rfl⟩ := Nat.exists_eq_add_of_le' (Nat.le_trans (Nat.le_add_left 1 limit) longer)
      rcases climb_succ_eq_ok walked with ⟨rfl, rfl⟩ | ⟨first, node, rest, rfl, found, climbed, rfl⟩
      · rfl
      · rw [List.length_cons] at ended
        rw [List.forall_mem_cons] at records
        have later : after.climb more node.parent = .ok rest :=
          ih climbed (by omega) records.2 (by omega)
        rw [climb, fetch_eq_ok (records.1.trans found)]
        exact congrArg (· >>= fun others => pure (first :: others)) later

/-- A tree that is read again under other names is written as before. -/
theorem exists_render_map (rename : NodeId → NodeId) {id : NodeId}
    {tree : OrderedTree (NodeId × Content)} (read : before.subtree id = .ok tree)
    (grown : before.size ≤ after.size)
    (contents : ∀ other ∈ tree.handles, after.content? (rename other) = before.content? other)
    (children : ∀ other ∈ tree.handles,
      after.childrenOf (rename other) = (before.childrenOf other).map rename) :
    ∃ text, before.render id = .ok text ∧ after.render (rename id) = .ok text := by
  have readAfter : after.subtree (rename id) =
      .ok (tree.map (Prod.map rename fun content => content)) :=
    subtreeWithin_map rename read contents children (Nat.succ_le_succ grown)
  refine ⟨(tree.map Prod.snd).render, ?_, ?_⟩
  · rw [render, read]
    rfl
  · have same : (tree.map (Prod.map rename fun content => content)).map Prod.snd =
        tree.map Prod.snd := OrderedTree.map_map _ _ tree
    rw [render, readAfter, ← same]
    rfl

/-- Without cycles every tree has a written form, which depends on the contents and the children of
its nodes. -/
theorem Acyclic.exists_render (acyclic : before.Acyclic) (linked : before.Linked) {id : NodeId}
    (held : before.Holds id) (grown : before.size ≤ after.size)
    (contents : ∀ other, ReflTransGen before.ChildOf other id →
      after.content? other = before.content? other)
    (children : ∀ other, ReflTransGen before.ChildOf other id →
      after.childrenOf other = before.childrenOf other) :
    ∃ text, before.render id = .ok text ∧ after.render id = .ok text := by
  obtain ⟨tree, read⟩ := acyclic.exists_subtree linked held
  apply exists_render_map (fun other => other) read grown
  · intro other member
    exact contents other ((linked.mem_handles_iff read).mp member)
  · intro other member
    rw [children other ((linked.mem_handles_iff read).mp member), List.map_id']

/-- Without cycles the written form of a tree depends on the records of its nodes. -/
theorem Acyclic.render_eq (acyclic : before.Acyclic) (linked : before.Linked) {id : NodeId}
    (held : before.Holds id) (grown : before.size ≤ after.size)
    (records : ∀ other, ReflTransGen before.ChildOf other id →
      after.get? other = before.get? other) : after.render id = before.render id := by
  obtain ⟨text, rendered, renderedAfter⟩ := acyclic.exists_render linked held grown
    (fun other below => by rw [content?, content?, records other below])
    (fun other below => by rw [childrenOf, childrenOf, records other below])
  rw [rendered, renderedAfter]

/-- Without cycles the ancestors of a node depend on its own record and on theirs. -/
theorem Acyclic.ancestors_eq (acyclic : before.Acyclic) (linked : before.Linked) {id : NodeId}
    (held : before.Holds id) (grown : before.size ≤ after.size)
    (records : ∀ other, ReflTransGen before.ChildOf id other →
      after.get? other = before.get? other) : after.ancestors id = before.ancestors id := by
  obtain ⟨above, walked, short, lists⟩ := acyclic.exists_ancestorsUpTo linked held
  obtain ⟨node, fetched, climbed⟩ := answer_of_bind walked
  have climbedAfter : after.climb (after.size + 1) node.parent = .ok above := by
    apply climb_of_alike climbed (Nat.lt_succ_of_le short) _ (Nat.succ_le_succ grown)
    intro other member
    exact records other ((lists other).mp member).to_reflTransGen
  have walkedAfter : after.ancestorsUpTo (after.size + 1) id = .ok above := by
    rw [ancestorsUpTo, fetch_eq_ok ((records id .refl).trans (get?_of_fetch fetched))]
    exact climbedAfter
  rw [ancestors, ancestors, walked, walkedAfter]
  simp only [Bind.bind, Except.bind, Nat.not_lt.mpr short, Nat.not_lt.mpr (short.trans grown)]

/-- The children of a node stand where they were found. -/
theorem Linked.defectAmong?_eq_none (linked : forest.Linked) {parent : NodeId}
    {front rest : List NodeId} (listed : forest.childrenOf parent = front ++ rest) :
    forest.defectAmong? parent front.length rest = .ok none := by
  induction rest generalizing front with
  | nil => rfl
  | cons child rest ih =>
      have entry : (forest.childrenOf parent)[front.length]? = some child := by simp [listed]
      obtain ⟨record, found, above, place, _, solid⟩ := linked.entry entry
      have sound : record.defectAt? parent front.length = none := by
        simp [Node.defectAt?, above, place, solid]
      have later : forest.defectAmong? parent (front ++ [child]).length rest = .ok none :=
        ih (by simp [listed])
      rw [List.length_append, List.length_singleton] at later
      rw [defectAmong?, fetch_eq_ok found]
      simp only [Bind.bind, Except.bind, sound]
      exact later

/-- The waiting nodes are the roots of trees that can be read, and every visit leaves one node
fewer to visit. -/
theorem Linked.exists_inspectWithin (linked : forest.Linked) {visits : Nat} {waiting : List NodeId}
    {trees : List (OrderedTree (NodeId × Content))}
    (read : List.Forall₂ (fun id tree => ∃ depth, forest.subtreeWithin depth id = .ok tree)
      waiting trees) (enough : (trees.flatMap OrderedTree.handles).length ≤ visits) :
    ∃ visited, forest.inspectWithin visits waiting = .ok ⟨visited, none⟩ := by
  induction visits generalizing waiting trees with
  | zero =>
      cases read with
      | nil => exact ⟨[], rfl⟩
      | @cons id tree _ _ first later =>
          have nonempty := List.length_pos_of_mem tree.label_mem_handles
          rw [List.flatMap_cons, List.length_append] at enough
          omega
  | succ visits ih =>
      cases read with
      | nil => exact ⟨[], rfl⟩
      | @cons id tree rest others first later =>
          obtain ⟨depth, readFirst⟩ := first
          cases depth with
          | zero => contradiction
          | succ depth =>
              obtain ⟨node, below, found, rfl, answered⟩ :=
                subtreeWithin_succ_eq_ok_iff.mp readFirst
              have readBelow : List.Forall₂
                  (fun id tree => ∃ depth, forest.subtreeWithin depth id = .ok tree)
                  node.children.reverse below.reverse :=
                List.forall₂_reverse_iff.mpr (answered.imp fun _ _ readChild => ⟨depth, readChild⟩)
              -- The children wait in the place of their parent, which is one node fewer.
              have enoughNext : ((below.reverse ++ others).flatMap OrderedTree.handles).length ≤
                  visits := by
                have reversed := ((List.reverse_perm below).flatMap_right
                  OrderedTree.handles).length_eq
                rw [List.flatMap_cons, OrderedTree.handles_node, List.length_append,
                  List.length_cons] at enough
                rw [List.flatMap_append, List.length_append]
                omega
              obtain ⟨visited, inspected⟩ := ih (List.rel_append readBelow later) enoughNext
              have sound : forest.defectAmong? id ([] : List NodeId).length node.children =
                  .ok none := linked.defectAmong?_eq_none (childrenOf_eq found)
              rw [List.length_nil] at sound
              refine ⟨id :: visited, ?_⟩
              rw [inspectWithin, fetch_eq_ok found]
              simp only [Bind.bind, Except.bind, sound, inspected, Pure.pure, Except.pure]

/-- A tree that can be read passes the check, which visits each of its nodes once. -/
theorem Linked.verify_eq_ok (linked : forest.Linked) {depth : Nat} {id : NodeId}
    {tree : OrderedTree (NodeId × Content)} (read : forest.subtreeWithin depth id = .ok tree)
    (short : tree.handles.length ≤ forest.size) : forest.verify id = .ok () := by
  have alone : ([tree].flatMap OrderedTree.handles).length ≤ forest.size + 1 := by
    rw [List.flatMap_singleton]
    exact Nat.le_succ_of_le short
  obtain ⟨visited, inspected⟩ :=
    linked.exists_inspectWithin (.cons ⟨depth, read⟩ .nil) alone
  rw [verify, inspect, inspected]
  rfl

/-- Without cycles every node passes the check. -/
theorem Acyclic.verify_eq_ok (acyclic : forest.Acyclic) (linked : forest.Linked) {id : NodeId}
    (held : forest.Holds id) : forest.verify id = .ok () := by
  obtain ⟨tree, read⟩ := acyclic.exists_subtree linked held
  apply linked.verify_eq_ok read
  apply length_le_size (acyclic.nodup_handles linked read)
  intro other member
  exact holds_of_reaches held ((linked.mem_handles_iff read).mp member)

end SyntaxForest.Forest
