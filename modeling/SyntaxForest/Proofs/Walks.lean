import SyntaxForest.Proofs.Subtrees

/-!
Walks that come to an end. Without cycles the walk along the parent links lists every strict
ancestor once, so the question whether one node lies above another is always answered.
-/

namespace SyntaxForest.Forest

open Relation

variable {forest : Forest}

/-- A walk lists the node at which it starts and goes on with the parent. -/
theorem climb_succ_eq_ok {limit : Nat} {start : Option NodeId} {above : List NodeId}
    (walked : forest.climb (limit + 1) start = .ok above) :
    start = none ∧ above = [] ∨
      ∃ first node rest, start = some first ∧ forest.get? first = some node ∧
        forest.climb limit node.parent = .ok rest ∧ above = first :: rest := by
  cases start with
  | none =>
      cases walked
      exact .inl ⟨rfl, rfl⟩
  | some first =>
      obtain ⟨node, fetched, walked⟩ := answer_of_bind walked
      obtain ⟨rest, climbed, same⟩ := answer_of_bind walked
      cases same
      exact .inr ⟨first, node, rest, rfl, get?_of_fetch fetched, climbed, rfl⟩

/-- Every node that a walk lists was found, and it lies at the start or above it. -/
theorem reaches_of_climb {limit : Nat} {start : Option NodeId} {above : List NodeId}
    (walked : forest.climb limit start = .ok above) : ∀ id ∈ above,
      forest.Holds id ∧ ∃ first, start = some first ∧ ReflTransGen forest.ChildOf first id := by
  induction limit generalizing start above with
  | zero =>
      cases walked
      exact fun _ absent => absurd absent List.not_mem_nil
  | succ limit ih =>
      rcases climb_succ_eq_ok walked with ⟨_, rfl⟩ | ⟨first, node, rest, rfl, found, climbed, rfl⟩
      · exact fun _ absent => absurd absent List.not_mem_nil
      · intro id member
        rcases List.mem_cons.mp member with rfl | inside
        · exact ⟨holds_of_get? found, id, rfl, .refl⟩
        · obtain ⟨held, parent, isAbove, path⟩ := ih climbed id inside
          have link : forest.ChildOf first parent := by rw [ChildOf, parentOf_eq found, isAbove]
          exact ⟨held, first, rfl, .head link path⟩

/-- Without cycles a walk lists no node twice. -/
theorem Acyclic.nodup_of_climb (acyclic : forest.Acyclic) {limit : Nat} {start : Option NodeId}
    {above : List NodeId} (walked : forest.climb limit start = .ok above) : above.Nodup := by
  induction limit generalizing start above with
  | zero =>
      cases walked
      exact List.nodup_nil
  | succ limit ih =>
      rcases climb_succ_eq_ok walked with ⟨_, rfl⟩ | ⟨first, node, rest, rfl, found, climbed, rfl⟩
      · exact List.nodup_nil
      · refine List.nodup_cons.mpr ⟨?_, ih climbed⟩
        intro member
        obtain ⟨_, parent, isAbove, path⟩ := reaches_of_climb climbed first member
        have link : forest.ChildOf first parent := by rw [ChildOf, parentOf_eq found, isAbove]
        exact acyclic first (TransGen.head' link path)

/-- A walk along the parent links of a linked forest always has an answer. -/
theorem Linked.exists_climb (linked : forest.Linked) (limit : Nat) {start : Option NodeId}
    (held : ∀ first, start = some first → forest.Holds first) :
    ∃ above, forest.climb limit start = .ok above := by
  induction limit generalizing start with
  | zero => exact ⟨[], rfl⟩
  | succ limit ih =>
      cases start with
      | none => exact ⟨[], rfl⟩
      | some first =>
          obtain ⟨node, found⟩ := (forest.holds_iff first).mp (held first rfl)
          have heldAbove : ∀ parent, node.parent = some parent → forest.Holds parent := by
            intro parent above
            apply linked.holds_parent
            rw [parentOf_eq found, above]
          obtain ⟨above, climbed⟩ := ih heldAbove
          refine ⟨first :: above, ?_⟩
          rw [climb, fetch_eq_ok found]
          exact congrArg (· >>= fun rest => pure (first :: rest)) climbed

/-- Without cycles the walk to the root ends in time, and it lists exactly the strict ancestors. -/
theorem Acyclic.exists_ancestorsUpTo (acyclic : forest.Acyclic) (linked : forest.Linked)
    {id : NodeId} (held : forest.Holds id) :
    ∃ above, forest.ancestorsUpTo (forest.size + 1) id = .ok above ∧
      above.length ≤ forest.size ∧ ∀ other, other ∈ above ↔ TransGen forest.ChildOf id other := by
  obtain ⟨node, found⟩ := (forest.holds_iff id).mp held
  have heldAbove : ∀ parent, node.parent = some parent → forest.Holds parent := by
    intro parent above
    apply linked.holds_parent
    rw [parentOf_eq found, above]
  obtain ⟨above, climbed⟩ := linked.exists_climb (forest.size + 1) heldAbove
  have short : above.length ≤ forest.size :=
    length_le_size (acyclic.nodup_of_climb climbed)
      fun other member => (reaches_of_climb climbed other member).1
  refine ⟨above, ?_, short, ?_⟩
  · rw [ancestorsUpTo, fetch_eq_ok found]
    exact climbed
  · intro other
    constructor
    · intro member
      obtain ⟨_, parent, isAbove, path⟩ := reaches_of_climb climbed other member
      have link : forest.ChildOf id parent := by rw [ChildOf, parentOf_eq found, isAbove]
      exact TransGen.head' link path
    · intro path
      obtain ⟨parent, link, path⟩ := TransGen.head'_iff.mp path
      rw [ChildOf, parentOf_eq found] at link
      rw [link] at climbed
      exact mem_of_climb climbed (Nat.lt_succ_of_le short) path

/-- Without cycles it is always decided whether a node is another one or lies above it. -/
theorem Acyclic.exists_isAncestorOrSelf (acyclic : forest.Acyclic) (linked : forest.Linked)
    {id : NodeId} (held : forest.Holds id) (candidate : NodeId) :
    ∃ isAbove, forest.isAncestorOrSelf candidate id = .ok isAbove ∧
      (isAbove = true ↔ ReflTransGen forest.ChildOf id candidate) := by
  rw [isAncestorOrSelf]
  split_ifs with same
  · rw [same]
    exact ⟨true, rfl, iff_of_true rfl .refl⟩
  · obtain ⟨above, walked, short, lists⟩ := acyclic.exists_ancestorsUpTo linked held
    have reaches : ReflTransGen forest.ChildOf id candidate ↔ candidate ∈ above := by
      rw [lists, reflTransGen_iff_eq_or_transGen]
      exact or_iff_right same
    rw [reaches, walked]
    by_cases member : candidate ∈ above
    · refine ⟨true, ?_, iff_of_true rfl member⟩
      simp [Bind.bind, Except.bind, member]
    · refine ⟨false, ?_, iff_of_false Bool.false_ne_true member⟩
      simp [Bind.bind, Except.bind, member, Nat.not_lt.mpr short]

end SyntaxForest.Forest
