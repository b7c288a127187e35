import SyntaxForest.Proofs.LinkCheck
import SyntaxForest.Proofs.Readings
import SyntaxForest.Proofs.Soundness

/-!
The line of ancestors of a node. Without cycles the walk from parent to parent ends at a root. It
lists the nodes from which the child lists lead down to the node, so the two ends of the links tell
the same about who lies above whom.
-/

namespace SyntaxForest

/-- A search whose questions are all answered finds the first item that passes the test. -/
theorem findM?_eq_ok {α : Type} {ask : α → Except Stop Bool} {test : α → Bool} {items : List α}
    (answered : ∀ item ∈ items, ask item = .ok (test item)) :
    items.findM? ask = .ok (items.find? test) := by
  induction items with
  | nil => rfl
  | cons item rest ih =>
      rw [List.forall_mem_cons] at answered
      rw [List.findM?, answered.1]
      cases passed : test item with
      | true =>
          rw [List.find?_cons_of_pos passed]
          rfl
      | false =>
          rw [List.find?_cons_of_neg (by simp [passed])]
          exact ih answered.2

namespace Forest

open Relation

variable {forest : Forest} {id : NodeId} {limit : Nat} {start : Option NodeId}
  {above : List NodeId}

/-- A handle that the forest does not hold has no kind. -/
def kindOf? (forest : Forest) (id : NodeId) : Option Kind := (forest.content? id).map Content.kind

/-- The line of a node leads from parent to parent and ends at a root. It names no node twice and
does not name the node itself. -/
structure Line (forest : Forest) (id : NodeId) (above : List NodeId) : Prop where
  nodup : above.Nodup
  apart : id ∉ above
  chain : (id :: above).IsChain forest.ChildOf
  ends : ∀ last ∈ above.getLast?, forest.parentOf last = none
  empty : above = [] ↔ forest.parentOf id = none

/-- The child lists of a linked forest follow the parent links backwards. -/
theorem Linked.lists_eq_swap (linked : forest.Linked) :
    forest.Lists = Function.swap forest.ChildOf := by
  funext parent child
  exact propext linked.mem_childrenOf_iff

/-- A node lies above another one when child lists lead from it to the other. -/
theorem Linked.transGen_lists_iff (linked : forest.Linked) {ancestor descendant : NodeId} :
    TransGen forest.Lists ancestor descendant ↔ TransGen forest.ChildOf descendant ancestor := by
  rw [linked.lists_eq_swap]
  exact transGen_swap

/-- A walk that lists nothing has nowhere to start. -/
theorem start_of_climb_nil (walked : forest.climb limit start = .ok []) (positive : 0 < limit) :
    start = none := by
  cases limit with
  | zero => omega
  | succ limit =>
      rcases climb_succ_eq_ok walked with ⟨nowhere, _⟩ | ⟨_, _, _, _, _, _, listed⟩
      · exact nowhere
      · contradiction

/-- A walk begins where it starts and goes on from parent to parent. -/
theorem isChain_of_climb (walked : forest.climb limit start = .ok above) :
    (∀ first ∈ above.head?, start = some first) ∧ above.IsChain forest.ChildOf := by
  induction limit generalizing start above with
  | zero =>
      cases walked
      simp
  | succ limit ih =>
      rcases climb_succ_eq_ok walked with ⟨_, rfl⟩ | ⟨first, node, rest, rfl, found, climbed, rfl⟩
      · simp
      · obtain ⟨begins, chain⟩ := ih climbed
        constructor
        · simp
        · apply chain.cons
          intro next isNext
          rw [ChildOf, parentOf_eq found]
          exact begins next isNext

/-- A walk that stops before its limit has come to a root. -/
theorem parentOf_last_of_climb (walked : forest.climb limit start = .ok above)
    (ended : above.length < limit) : ∀ last ∈ above.getLast?, forest.parentOf last = none := by
  induction limit generalizing start above with
  | zero => omega
  | succ limit ih =>
      rcases climb_succ_eq_ok walked with ⟨_, rfl⟩ | ⟨first, node, rest, rfl, found, climbed, rfl⟩
      · simp
      · rw [List.length_cons] at ended
        cases rest with
        | nil =>
            rw [List.getLast?_singleton]
            intro last isLast
            cases isLast
            rw [parentOf_eq found]
            exact start_of_climb_nil climbed (by omega)
        | cons next rest =>
            rw [List.getLast?_cons_cons]
            exact ih climbed (by omega)

/-- Without cycles every node has a line, and the walk from parent to parent lists it. -/
theorem Acyclic.exists_line (acyclic : forest.Acyclic) (linked : forest.Linked)
    (held : forest.Holds id) :
    ∃ above, forest.ancestorsUpTo (forest.size + 1) id = .ok above ∧
      above.length ≤ forest.size ∧ forest.Line id above ∧
      ∀ other, other ∈ above ↔ TransGen forest.ChildOf id other := by
  obtain ⟨above, walked, short, lists⟩ := acyclic.exists_ancestorsUpTo linked held
  obtain ⟨node, fetched, climbed⟩ := answer_of_bind walked
  have parent := parentOf_eq (get?_of_fetch fetched)
  obtain ⟨begins, chain⟩ := isChain_of_climb climbed
  have line : forest.Line id above := by
    constructor
    · exact acyclic.nodup_of_climb climbed
    · intro member
      exact acyclic id ((lists id).mp member)
    · apply chain.cons
      intro first isFirst
      rw [ChildOf, parent]
      exact begins first isFirst
    · exact parentOf_last_of_climb climbed (by omega)
    · rw [parent]
      constructor
      · intro nothing
        rw [nothing] at climbed
        exact start_of_climb_nil climbed (by omega)
      · intro isRoot
        rw [isRoot] at climbed
        cases climbed
        rfl
  exact ⟨above, walked, short, line, lists⟩

/-- A walk that ends in time lists all ancestors. -/
theorem ancestors_eq_ok (walked : forest.ancestorsUpTo (forest.size + 1) id = .ok above)
    (short : above.length ≤ forest.size) : forest.ancestors id = .ok above := by
  rw [ancestors, walked]
  simp [Bind.bind, Except.bind, Nat.not_lt.mpr short]

/-- The nearest ancestor of a kind is the first one of this kind on the line. -/
theorem ancestorOfKind?_eq_ok (walked : forest.ancestorsUpTo (forest.size + 1) id = .ok above)
    (short : above.length ≤ forest.size) (kind : Kind) :
    forest.ancestorOfKind? id kind =
      .ok (above.find? fun other => forest.kindOf? other = some kind) := by
  obtain ⟨node, _, climbed⟩ := answer_of_bind walked
  have found : above.findM? (fun ancestor =>
      (fun node : Node => decide (node.content.kind = kind)) <$> forest.fetch ancestor) =
      .ok (above.find? fun other => forest.kindOf? other = some kind) := by
    apply findM?_eq_ok
    intro other member
    obtain ⟨record, present⟩ := (forest.holds_iff other).mp (reaches_of_climb climbed other member).1
    rw [fetch_eq_ok present, kindOf?, content?_eq present]
    simp [Functor.map, Except.map]
  rw [ancestorOfKind?, nearestAncestor?, walked]
  simp only [Bind.bind, Except.bind, found, Nat.not_lt.mpr short, decide_false, Bool.and_false,
    Bool.false_eq_true, if_false]

end Forest

namespace Builder

open Relation

variable {builder : Builder}

/-- In every reachable builder that checks for cycles the walk from parent to parent ends at a root
and names no node twice. It lists exactly the nodes from which child lists lead down to its start.
The question whether a node is another one or lies above it is answered by the tree of that node,
and the nearest ancestor of a kind is the first one of this kind on the walk. -/
theorem ancestors_mirror_descendants (reachable : builder.Reachable)
    (checked : builder.options.checkCycles = true) {id : NodeId}
    (held : builder.forest.Holds id) :
    ∃ above, builder.perform (.query (.ancestors id)) = (.ok (.nodes above), builder) ∧
      builder.forest.Line id above ∧
      (∀ candidate, builder.forest.Holds candidate →
        (candidate ∈ above ↔ TransGen builder.forest.Lists candidate id) ∧
        ∃ tree, builder.forest.subtree candidate = .ok tree ∧
          builder.perform (.query (.isAncestorOrSelf candidate id)) =
            (.ok (.flag (decide (id ∈ tree.handles))), builder)) ∧
      ∀ kind,
        builder.perform (.query (.ancestorOfKind id kind)) =
          (.ok (.optionalNode (above.find? fun other =>
            builder.forest.kindOf? other = some kind)), builder) ∧
        ((builder.perform (.query (.ancestorOfKind id kind))).1 = .ok (.optionalNode none) ↔
          ∀ other, TransGen builder.forest.Lists other id →
            builder.forest.kindOf? other ≠ some kind) := by
  have linked := reachable.sound.linked
  have acyclic := reachable.sound.acyclic checked
  obtain ⟨above, walked, short, line, lists⟩ := acyclic.exists_line linked held
  have listed (other : NodeId) : other ∈ above ↔ TransGen builder.forest.Lists other id := by
    rw [lists, linked.transGen_lists_iff]
  refine ⟨above, ?_, line, ?_, ?_⟩
  · rw [perform, Query.answer, Forest.ancestors_eq_ok walked short]
    rfl
  · intro candidate heldCandidate
    obtain ⟨tree, read⟩ := acyclic.exists_subtree linked heldCandidate
    obtain ⟨isAbove, answered, exact⟩ := acyclic.exists_isAncestorOrSelf linked held candidate
    have inside : isAbove = decide (id ∈ tree.handles) := by
      rw [Bool.eq_iff_iff, decide_eq_true_iff, exact, linked.mem_handles_iff read]
    refine ⟨listed candidate, tree, read, ?_⟩
    rw [perform, Query.answer, answered, inside]
    rfl
  · intro kind
    have found : builder.perform (.query (.ancestorOfKind id kind)) =
        (.ok (.optionalNode (above.find? fun other =>
          builder.forest.kindOf? other = some kind)), builder) := by
      rw [perform, Query.answer, Forest.ancestorOfKind?_eq_ok walked short]
      rfl
    refine ⟨found, ?_⟩
    rw [found, Except.ok.injEq, Reply.optionalNode.injEq, List.find?_eq_none]
    simp only [listed, decide_eq_true_iff, ne_eq]

/-- A builder with a tower of four nodes. The first and the third have one kind, and the last has a
kind of its own. -/
def tower : Builder where
  forest := { nodes := #[
    { content := .token (.imaginary 5 "a"), children := [⟨1⟩] },
    { content := .token (.imaginary 6 "b"), children := [⟨2⟩], parent := some ⟨0⟩,
      position := some 0 },
    { content := .token (.imaginary 5 "c"), children := [⟨3⟩], parent := some ⟨1⟩,
      position := some 0 },
    { content := .token (.imaginary 4 "d"), parent := some ⟨2⟩, position := some 0 }] }

theorem reachable_tower : tower.Reachable :=
  ⟨{}, [.edit (.createImaginary 5 "a"), .edit (.createImaginary 6 "b"),
    .edit (.createImaginary 5 "c"), .edit (.createImaginary 4 "d"), .edit (.addChild ⟨2⟩ ⟨3⟩),
    .edit (.addChild ⟨0⟩ ⟨1⟩), .edit (.addChild ⟨1⟩ ⟨2⟩)], rfl⟩

/-- The line of the last node passes the nearer node of two of one kind first, and no node above the
last one has its kind. The line of the first node is empty. -/
theorem ancestors_mirror_descendants_tower :
    tower.forest.Line ⟨3⟩ [⟨2⟩, ⟨1⟩, ⟨0⟩] ∧
    tower.perform (.query (.ancestorOfKind ⟨3⟩ 5)) = (.ok (.optionalNode (some ⟨2⟩)), tower) ∧
    (∀ other, TransGen tower.forest.Lists other ⟨3⟩ → tower.forest.kindOf? other ≠ some 4) ∧
    TransGen tower.forest.Lists ⟨0⟩ ⟨3⟩ ∧ ¬ TransGen tower.forest.Lists ⟨3⟩ ⟨3⟩ ∧
    tower.perform (.query (.isAncestorOrSelf ⟨3⟩ ⟨3⟩)) = (.ok (.flag true), tower) ∧
    tower.forest.Line ⟨0⟩ [] := by
  have last : tower.forest.Holds ⟨3⟩ := by decide
  have first : tower.forest.Holds ⟨0⟩ := by decide
  obtain ⟨above, walked, line, candidates, kinds⟩ :=
    ancestors_mirror_descendants reachable_tower rfl last
  have listed : above = [⟨2⟩, ⟨1⟩, ⟨0⟩] := by
    have known : tower.perform (.query (.ancestors ⟨3⟩)) =
      (.ok (.nodes [⟨2⟩, ⟨1⟩, ⟨0⟩]), tower) := rfl
    rw [known] at walked
    cases walked
    rfl
  subst listed
  obtain ⟨upper, _, lineFirst, _⟩ := ancestors_mirror_descendants reachable_tower rfl first
  have nothing : upper = [] := lineFirst.empty.mpr rfl
  subst nothing
  refine ⟨line, (kinds 5).1, (kinds 4).2.mp rfl, ?_, ?_, ?_, lineFirst⟩
  · exact (candidates ⟨0⟩ first).1.mp (by decide)
  · intro path
    exact line.apart ((candidates ⟨3⟩ last).1.mpr path)
  · obtain ⟨tree, read, answered⟩ := (candidates ⟨3⟩ last).2
    cases read
    exact answered

end Builder

end SyntaxForest
