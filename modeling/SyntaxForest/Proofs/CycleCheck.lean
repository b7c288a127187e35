import SyntaxForest.Proofs.Attaching
import SyntaxForest.Proofs.Walks

/-!
The check of incoming nodes in a forest without cycles. It refuses the parent itself and, where
cycles are checked for, the nodes above the parent. Hanging such a node below the parent closes a cycle.
-/

namespace SyntaxForest.Forest

open Relation

variable {before after forest : Forest} {parent : NodeId} {ids : List NodeId}

/-- A node that is neither the parent nor above it passes. -/
theorem Acyclic.checkAttach_cons_of_clear (acyclic : forest.Acyclic) (linked : forest.Linked)
    (held : forest.Holds parent) (checkCycles : Bool) {id : NodeId}
    (clear : ¬ ReflTransGen forest.ChildOf parent id) :
    forest.checkAttach checkCycles parent (id :: ids) =
      forest.checkAttach checkCycles parent ids := by
  have different : id ≠ parent := by
    rintro rfl
    exact clear .refl
  obtain ⟨isAbove, answered, exact⟩ := acyclic.exists_isAncestorOrSelf linked held id
  have denied : isAbove = false := by simpa using mt exact.mp clear
  rw [checkAttach, if_neg different]
  cases checkCycles <;> simp [answered, denied, Bind.bind, Except.bind]

/-- The first node above the parent is refused. -/
theorem Acyclic.checkAttach_cons_of_above (acyclic : forest.Acyclic) (linked : forest.Linked)
    (held : forest.Holds parent) {id : NodeId} (above : TransGen forest.ChildOf parent id) :
    forest.checkAttach true parent (id :: ids) = .error (.refused .cycle) := by
  have different : id ≠ parent := by
    rintro rfl
    exact acyclic id above
  obtain ⟨isAbove, answered, exact⟩ := acyclic.exists_isAncestorOrSelf linked held id
  have confirmed : isAbove = true := exact.mpr above.to_reflTransGen
  rw [checkAttach, if_neg different]
  simp [answered, confirmed, Bind.bind, Except.bind]

/-- Clear nodes pass with and without the check for cycles. -/
theorem Acyclic.checkAttach_of_clear (acyclic : forest.Acyclic) (linked : forest.Linked)
    (held : forest.Holds parent) (checkCycles : Bool) (clear : forest.Clear parent ids) :
    forest.checkAttach checkCycles parent ids = .ok () := by
  induction ids with
  | nil => rfl
  | cons id rest ih =>
      rw [acyclic.checkAttach_cons_of_clear linked held checkCycles (clear id List.mem_cons_self)]
      exact ih fun other member => clear other (List.mem_cons_of_mem _ member)

/-- The parent itself is refused for its own sake where no incoming node lies above it. -/
theorem Acyclic.checkAttach_of_mem (acyclic : forest.Acyclic) (linked : forest.Linked)
    (held : forest.Holds parent) (checkCycles : Bool) (member : parent ∈ ids)
    (apart : ∀ id ∈ ids, ¬ TransGen forest.ChildOf parent id) :
    forest.checkAttach checkCycles parent ids = .error (.refused .selfChild) := by
  induction ids with
  | nil => exact absurd member List.not_mem_nil
  | cons id rest ih =>
      by_cases same : id = parent
      · rw [checkAttach, if_pos same]
      · have clear : ¬ ReflTransGen forest.ChildOf parent id := by
          rw [reflTransGen_iff_eq_or_transGen]
          exact not_or.mpr ⟨same, apart id List.mem_cons_self⟩
        rw [acyclic.checkAttach_cons_of_clear linked held checkCycles clear]
        exact ih (List.mem_of_ne_of_mem (Ne.symm same) member)
          fun other inside => apart other (List.mem_cons_of_mem _ inside)

/-- Without the check for cycles only the parent itself is refused. -/
theorem checkAttach_false_of_not_mem (outside : parent ∉ ids) :
    forest.checkAttach false parent ids = .ok () := by
  induction ids with
  | nil => rfl
  | cons id rest ih =>
      rw [List.mem_cons, not_or] at outside
      rw [checkAttach, if_neg (Ne.symm outside.1)]
      exact ih outside.2

/-- Nodes that are clear where cycles are checked for, and among which the parent is not, pass. -/
theorem Linked.checkAttach_of_clear (linked : forest.Linked) {checkCycles : Bool}
    (acyclic : checkCycles = true → forest.Acyclic) (held : forest.Holds parent)
    (outside : parent ∉ ids) (clear : checkCycles = true → forest.Clear parent ids) :
    forest.checkAttach checkCycles parent ids = .ok () := by
  cases checkCycles with
  | false => exact checkAttach_false_of_not_mem outside
  | true => exact (acyclic rfl).checkAttach_of_clear linked held true (clear rfl)

/-- Without the check for cycles the parent itself is refused wherever it stands in the list. -/
theorem checkAttach_false_of_mem (member : parent ∈ ids) :
    forest.checkAttach false parent ids = .error (.refused .selfChild) := by
  induction ids with
  | nil => exact absurd member List.not_mem_nil
  | cons id rest ih =>
      by_cases same : id = parent
      · rw [checkAttach, if_pos same]
      · rw [checkAttach, if_neg same]
        exact ih (List.mem_of_ne_of_mem (Ne.symm same) member)

/-- A node above the parent is refused wherever it stands in the list. -/
theorem Acyclic.checkAttach_of_not_clear (acyclic : forest.Acyclic) (linked : forest.Linked)
    (held : forest.Holds parent) (outside : parent ∉ ids) (blocked : ¬ forest.Clear parent ids) :
    forest.checkAttach true parent ids = .error (.refused .cycle) := by
  induction ids with
  | nil => exact absurd (fun _ member => absurd member List.not_mem_nil) blocked
  | cons id rest ih =>
      rw [List.mem_cons, not_or] at outside
      by_cases above : TransGen forest.ChildOf parent id
      · exact acyclic.checkAttach_cons_of_above linked held above
      · have clear : ¬ ReflTransGen forest.ChildOf parent id := by
          rw [reflTransGen_iff_eq_or_transGen]
          exact not_or.mpr ⟨Ne.symm outside.1, above⟩
        rw [acyclic.checkAttach_cons_of_clear linked held true clear]
        apply ih outside.2
        intro clearRest
        apply blocked
        intro other member
        rcases List.mem_cons.mp member with rfl | inside
        · exact clear
        · exact clearRest other inside

/-- A single node that is the parent itself does not lie above it. -/
theorem Acyclic.apart_singleton (acyclic : forest.Acyclic) {id : NodeId} (member : parent ∈ [id]) :
    ∀ other ∈ [id], ¬ TransGen forest.ChildOf parent other := by
  intro other inside
  rw [List.mem_singleton] at member inside
  rw [member, inside]
  exact acyclic id

/-- What comes in together with the parent itself does not lie above it. -/
theorem Acyclic.apart_incoming (acyclic : forest.Acyclic) (linked : forest.Linked) {id : NodeId}
    {node : Node} (found : forest.get? id = some node) (member : parent ∈ node.incoming id) :
    ∀ other ∈ node.incoming id, ¬ TransGen forest.ChildOf parent other := by
  intro other inside path
  unfold Node.incoming at member inside
  split_ifs at member inside with nil
  · rw [← childrenOf_eq found] at member inside
    obtain ⟨above, link, path⟩ := TransGen.head'_iff.mp path
    rw [ChildOf, linked.mem_childrenOf_iff.mp member, Option.some.injEq] at link
    subst above
    rcases ReflTransGen.cases_head path with same | ⟨higher, link, _⟩
    · exact linked.ne_of_mem inside same.symm
    · rw [ChildOf, parentOf_eq found, linked.nil_parent found nil] at link
      contradiction
  · exact acyclic.apart_singleton member other inside path

/-- Cycles are checked for, and one of the nodes lies strictly above the parent. -/
def DetectsCycle (forest : Forest) (checkCycles : Bool) (parent : NodeId) (ids : List NodeId) :
    Prop :=
  checkCycles = true ∧ ∃ id ∈ ids, TransGen forest.ChildOf parent id

/-- What comes in for a node is refused when the parent itself is among it, else when a cycle is
detected, and else it passes. -/
theorem Linked.checkAttach_cases (linked : forest.Linked) {checkCycles : Bool}
    (acyclic : checkCycles = true → forest.Acyclic) (held : forest.Holds parent) {id : NodeId}
    {node : Node} (found : forest.get? id = some node) :
    parent ∈ node.incoming id ∧
        forest.checkAttach checkCycles parent (node.incoming id) = .error (.refused .selfChild) ∨
      parent ∉ node.incoming id ∧
        (forest.DetectsCycle checkCycles parent (node.incoming id) ∧
            forest.checkAttach checkCycles parent (node.incoming id) = .error (.refused .cycle) ∨
          ¬ forest.DetectsCycle checkCycles parent (node.incoming id) ∧
            forest.checkAttach checkCycles parent (node.incoming id) = .ok ()) := by
  cases checkCycles with
  | false =>
      by_cases member : parent ∈ node.incoming id
      · exact .inl ⟨member, checkAttach_false_of_mem member⟩
      · exact .inr ⟨member, .inr ⟨by simp [DetectsCycle], checkAttach_false_of_not_mem member⟩⟩
  | true =>
      have acyclic := acyclic rfl
      by_cases member : parent ∈ node.incoming id
      · exact .inl ⟨member, acyclic.checkAttach_of_mem linked held true member
          (acyclic.apart_incoming linked found member)⟩
      · refine .inr ⟨member, ?_⟩
        by_cases above : ∃ other ∈ node.incoming id, TransGen forest.ChildOf parent other
        · obtain ⟨other, inside, path⟩ := above
          refine .inl ⟨⟨rfl, other, inside, path⟩,
            acyclic.checkAttach_of_not_clear linked held member ?_⟩
          exact fun clear => clear other inside path.to_reflTransGen
        · refine .inr ⟨fun blocked => above blocked.2,
            acyclic.checkAttach_of_clear linked held true ?_⟩
          intro other inside path
          rcases reflTransGen_iff_eq_or_transGen.mp path with same | path
          · exact member (same ▸ inside)
          · exact above ⟨other, inside, path⟩

/-- A change hangs nodes below a parent when it gives them this parent and leaves every other node
below its solid parent, the old children of the parent apart. -/
structure Hangs (before after : Forest) (parent : NodeId) (ids : List NodeId) : Prop where
  joined : ∀ id ∈ ids, after.ChildOf id parent
  kept : ∀ child above, before.ChildOf child above → before.Solid above → child ∉ ids →
    child ∉ before.childrenOf parent → after.ChildOf child above

/-- The path from the parent up to a node that is hung below it survives as far as the first such
node. -/
theorem Hangs.reaches (hangs : before.Hangs after parent ids) (acyclic : before.Acyclic)
    (linked : before.Linked) {id : NodeId} (path : ReflTransGen before.ChildOf parent id)
    (solid : before.Solid id) :
    ReflTransGen after.ChildOf parent id ∨
      ∃ other ∈ ids, ReflTransGen after.ChildOf parent other := by
  induction path with
  | refl => exact .inl .refl
  | @tail middle above path link ih =>
      have member := linked.mem_childrenOf_iff.mpr link
      rcases ih (linked.solid_of_mem member) with reached | first
      · by_cases incoming : middle ∈ ids
        · exact .inr ⟨middle, incoming, reached⟩
        · have notBelow : middle ∉ before.childrenOf parent := by
            -- An old child of the parent on this path would lie above itself.
            intro below
            exact acyclic middle (TransGen.head' (linked.mem_childrenOf_iff.mp below) path)
          exact .inl (reached.tail (hangs.kept middle above link solid incoming notBelow))
      · exact .inr first

/-- Hanging a node below its own descendant closes a cycle. -/
theorem Hangs.not_acyclic (hangs : before.Hangs after parent ids) (acyclic : before.Acyclic)
    (linked : before.Linked) (solid : ∀ id ∈ ids, before.Solid id)
    (blocked : ¬ before.Clear parent ids) : ¬ after.Acyclic := by
  intro still
  apply blocked
  intro id member path
  have closes : ∀ other ∈ ids, ¬ ReflTransGen after.ChildOf parent other :=
    fun other inside up => still other (TransGen.head' (hangs.joined other inside) up)
  rcases hangs.reaches acyclic linked path (solid id member) with reached | ⟨other, inside, reached⟩
  · exact closes id member reached
  · exact closes other inside reached

/-- Adopted nodes hang below their new parent. -/
theorem Linked.hangs_adoptedEach {middle : Forest} (linked : middle.Linked)
    (held : middle.Holds parent) (solid : ∀ id ∈ ids, middle.Solid id)
    (different : ∀ id ∈ ids, id ≠ parent)
    (kept : ∀ child above, before.ChildOf child above → before.Solid above →
      middle.ChildOf child above) :
    before.Hangs (middle.adoptedEach parent ids) parent ids where
  joined id member := by
    rw [ChildOf, linked.parentOf_adoptedEach held solid different, if_pos member]
  kept child above link solidAbove outside _ := by
    rw [ChildOf, linked.parentOf_adoptedEach held solid different, if_neg outside]
    exact kept child above link solidAbove

/-- The members of a new child list hang below its parent. -/
theorem Linked.hangs_relist {middle : Forest} {children : List NodeId} (linked : middle.Linked)
    (admits : middle.Admits parent children) (listed : ids ⊆ children)
    (joined : ∀ child ∈ children, child ∈ ids ∨ child ∈ before.childrenOf parent)
    (narrows : middle.Narrows before) (beforeLinked : before.Linked)
    (kept : ∀ child above, before.ChildOf child above → before.Solid above → child ∉ ids →
      middle.ChildOf child above) :
    before.Hangs (middle.relist parent children) parent ids where
  joined id member := by
    rw [ChildOf, linked.parentOf_relist admits, if_pos (listed member)]
  kept child above link solidAbove outside notBelow := by
    have unlisted : child ∉ children := by
      intro member
      exact (joined child member).elim outside notBelow
    have elsewhere : child ∉ middle.childrenOf parent := by
      intro member
      apply notBelow
      rw [beforeLinked.mem_childrenOf_iff]
      exact narrows child parent (linked.mem_childrenOf_iff.mp member)
    rw [ChildOf, linked.parentOf_relist admits, if_neg unlisted, if_neg elsewhere]
    exact kept child above link solidAbove outside

end SyntaxForest.Forest
