import SyntaxForest.Proofs.Locality

/-!
Edits of different trees commute. Each of them looks at its own trees and changes nothing outside,
so the other one finds there what it would have found at first.
-/

namespace SyntaxForest

namespace Forest

variable {forest : Forest}

/-- The nodes of all trees that contain one of the handles. -/
def treesOf (forest : Forest) (ids : List NodeId) : Set NodeId :=
  {id | ∃ named ∈ ids, forest.SameTree id named}

theorem uncrossed_treesOf (forest : Forest) (ids : List NodeId) :
    forest.Uncrossed (forest.treesOf ids) := by
  intro child parent link
  have sameRoot : ∀ named, forest.SameTree child named ↔ forest.SameTree parent named := by
    intro named
    apply exists_congr
    intro root
    apply and_congr_right
    intro isRoot
    exact and_congr_left fun _ => uncrossed_treeOf (mem_roots.mp isRoot).2 child parent link
  simp only [treesOf, Set.mem_ofPred_eq, sameRoot]

/-- Handles without a common tree have no node in common. -/
theorem not_mem_treesOf {ids others : List NodeId}
    (apart : ∀ first ∈ ids, ∀ second ∈ others, ¬ forest.SameTree first second) :
    ∀ id ∈ forest.treesOf ids, id ∉ forest.treesOf others := by
  rintro id ⟨first, namedFirst, sameFirst⟩ ⟨second, namedSecond, root, isRoot, inside, insideSecond⟩
  have insideFirst := sameFirst.symm.mem_treeOf isRoot inside
  exact apart first namedFirst second namedSecond ⟨root, isRoot, insideFirst, insideSecond⟩

theorem Acyclic.mem_treesOf (acyclic : forest.Acyclic) (linked : forest.Linked)
    {ids : List NodeId} (held : ∀ id ∈ ids, forest.Holds id) :
    ∀ id ∈ ids, id ∈ forest.treesOf ids := by
  intro id named
  obtain ⟨root, isRoot, path⟩ := acyclic.exists_root linked (held id named)
  exact ⟨id, named, root, isRoot, path, path⟩

theorem holds_of_mem_treesOf {ids : List NodeId} {id : NodeId} (inside : id ∈ forest.treesOf ids) :
    forest.Holds id := by
  obtain ⟨named, _, root, isRoot, path, _⟩ := inside
  exact holds_of_reaches (mem_roots.mp isRoot).1 path

/-- A forest that spares all new handles has not grown. -/
theorem size_eq_of_spares {before after : Forest} {region : Set NodeId}
    (held : ∀ id ∈ region, before.Holds id)
    (spares : (Scope.within region before.size).Spares before after)
    (grown : before.size ≤ after.size) : after.size = before.size := by
  apply Nat.le_antisymm _ grown
  by_contra larger
  have new : (⟨before.size⟩ : NodeId) ∉ region := fun inside => Nat.lt_irrefl _ (held _ inside)
  obtain ⟨node, found⟩ := (after.holds_iff ⟨before.size⟩).mp (Nat.not_le.mp larger)
  rw [spares _ new] at found
  exact Nat.lt_irrefl _ (holds_of_get? found)

end Forest

namespace Builder

variable {builder : Builder} {edit other : Edit}

/-- An edit changes the forest of the builder at most. -/
theorem perform_edit_eq (builder : Builder) (edit : Edit) :
    (builder.perform (.edit edit)).2 =
      { builder with forest := (builder.perform (.edit edit)).2.forest } := by
  cases ran : edit.apply builder.options.checkCycles builder.forest with
  | ok reply after => rw [perform_of_reply ran]
  | error stop after => rw [perform_of_stop ran]

theorem perform_edits_eq (builder : Builder) (edit other : Edit) :
    ((builder.perform (.edit edit)).2.perform (.edit other)).2 =
      { builder with
        forest := ((builder.perform (.edit edit)).2.perform (.edit other)).2.forest } := by
  have later := perform_edit_eq (builder.perform (.edit edit)).2 other
  have options : (builder.perform (.edit edit)).2.options = builder.options := by
    rw [perform_edit_eq]
  have serials : (builder.perform (.edit edit)).2.serials = builder.serials := by
    rw [perform_edit_eq]
  rw [options, serials] at later
  exact later

/-- An edit that creates no nodes changes nothing outside of the trees of its handles. -/
theorem Sound.perform_spares (sound : builder.Sound) (checked : builder.options.checkCycles = true)
    (fixed : edit.allocates = false) (held : ∀ id ∈ edit.handles, builder.forest.Holds id) :
    (builder.perform (.edit edit)).2.forest.size = builder.forest.size ∧
      ∀ id, id ∉ builder.forest.treesOf edit.handles →
        (builder.perform (.edit edit)).2.forest.get? id = builder.forest.get? id := by
  have named := (sound.acyclic checked).mem_treesOf sound.linked held
  have relates := sound.linked.relates_within (builder.forest.uncrossed_treesOf edit.handles)
  obtain ⟨_, relatesAfter, spares⟩ := perform_confined rfl named (by simp [fixed]) relates
  exact ⟨Forest.size_eq_of_spares (fun _ => Forest.holds_of_mem_treesOf) spares relatesAfter.grown,
    spares⟩

/-- After an edit of other trees, an edit has the outcome that it would have had before. It leaves
its own trees as if it came first, and the rest as the other edit left it. -/
theorem Sound.perform_after (sound : builder.Sound) (checked : builder.options.checkCycles = true)
    (fixed : edit.allocates = false) (fixedOther : other.allocates = false)
    (held : ∀ id ∈ edit.handles, builder.forest.Holds id)
    (heldOther : ∀ id ∈ other.handles, builder.forest.Holds id)
    (disjoint : ∀ id ∈ builder.forest.treesOf edit.handles,
      id ∉ builder.forest.treesOf other.handles) :
    ((builder.perform (.edit other)).2.perform (.edit edit)).1 =
        (builder.perform (.edit edit)).1 ∧
      (∀ id ∈ builder.forest.treesOf edit.handles,
        ((builder.perform (.edit other)).2.perform (.edit edit)).2.forest.get? id =
          (builder.perform (.edit edit)).2.forest.get? id) ∧
      ∀ id, id ∉ builder.forest.treesOf edit.handles →
        ((builder.perform (.edit other)).2.perform (.edit edit)).2.forest.get? id =
          (builder.perform (.edit other)).2.forest.get? id := by
  have named := (sound.acyclic checked).mem_treesOf sound.linked held
  obtain ⟨size, spares⟩ := sound.perform_spares checked fixedOther heldOther
  have options : (builder.perform (.edit other)).2.options = builder.options := by
    rw [perform_edit_eq]
  have here := sound.linked.relates_within (builder.forest.uncrossed_treesOf edit.handles)
  have relates : (Scope.within (builder.forest.treesOf edit.handles) builder.forest.size).Relates
      builder.forest (builder.perform (.edit other)).2.forest :=
    ⟨size, here.grown, fun id inside => spares id (disjoint id inside),
      here.closed⟩
  obtain ⟨outcome, relatesAfter, _⟩ := perform_confined options named (by simp [fixed]) relates
  obtain ⟨_, _, sparesLater⟩ :=
    perform_confined options.symm named (by simp [fixed]) relates.symm
  exact ⟨outcome, relatesAfter.same, sparesLater⟩

/-- In a builder that checks for cycles, two edits that create no nodes and name no handles of one
tree commute. Either order gives both edits the same outcomes and leaves the same builder. -/
theorem edits_of_different_trees_commute (reachable : builder.Reachable)
    (checked : builder.options.checkCycles = true) (fixed : edit.allocates = false)
    (fixedOther : other.allocates = false)
    (held : ∀ id ∈ edit.handles ++ other.handles, builder.forest.Holds id)
    (apart : ∀ first ∈ edit.handles, ∀ second ∈ other.handles,
      ¬ builder.forest.SameTree first second) :
    ((builder.perform (.edit other)).2.perform (.edit edit)).1 =
        (builder.perform (.edit edit)).1 ∧
      ((builder.perform (.edit edit)).2.perform (.edit other)).1 =
        (builder.perform (.edit other)).1 ∧
      ((builder.perform (.edit edit)).2.perform (.edit other)).2 =
        ((builder.perform (.edit other)).2.perform (.edit edit)).2 := by
  have sound := reachable.sound
  obtain ⟨heldEdit, heldOther⟩ := List.forall_mem_append.mp held
  have disjoint := Forest.not_mem_treesOf apart
  obtain ⟨outcome, inside, outside⟩ :=
    sound.perform_after checked fixed fixedOther heldEdit heldOther disjoint
  obtain ⟨outcomeOther, insideOther, outsideOther⟩ :=
    sound.perform_after checked fixedOther fixed heldOther heldEdit
      fun id theirs mine => disjoint id mine theirs
  refine ⟨outcome, outcomeOther, ?_⟩
  have sameForest : ((builder.perform (.edit edit)).2.perform (.edit other)).2.forest =
      ((builder.perform (.edit other)).2.perform (.edit edit)).2.forest := by
    apply Forest.ext_get?
    intro id
    -- Each node lies in a tree of the one edit, or of the other, or of neither.
    by_cases mine : id ∈ builder.forest.treesOf edit.handles
    · rw [outsideOther id (disjoint id mine), inside id mine]
    · rw [outside id mine]
      by_cases theirs : id ∈ builder.forest.treesOf other.handles
      · exact insideOther id theirs
      · rw [outsideOther id theirs, (sound.perform_spares checked fixed heldEdit).2 id mine,
          (sound.perform_spares checked fixedOther heldOther).2 id theirs]
  rw [perform_edits_eq, sameForest, ← perform_edits_eq]

/-- The list replaces the child of one tree while the children of another tree change places. -/
theorem edits_of_different_trees_commute_grove :
    (grove.perform (.edit (.replaceChildren ⟨3⟩ 0 0 ⟨5⟩))).2.forest.childrenOf ⟨3⟩ = [⟨6⟩] ∧
    (grove.perform (.edit (.setPosition ⟨2⟩ 0))).2.forest.childrenOf ⟨0⟩ = [⟨2⟩, ⟨1⟩] ∧
    ((grove.perform (.edit (.setPosition ⟨2⟩ 0))).2.perform
        (.edit (.replaceChildren ⟨3⟩ 0 0 ⟨5⟩))).1 =
      (grove.perform (.edit (.replaceChildren ⟨3⟩ 0 0 ⟨5⟩))).1 ∧
    ((grove.perform (.edit (.replaceChildren ⟨3⟩ 0 0 ⟨5⟩))).2.perform
        (.edit (.setPosition ⟨2⟩ 0))).1 =
      (grove.perform (.edit (.setPosition ⟨2⟩ 0))).1 ∧
    ((grove.perform (.edit (.replaceChildren ⟨3⟩ 0 0 ⟨5⟩))).2.perform
        (.edit (.setPosition ⟨2⟩ 0))).2 =
      ((grove.perform (.edit (.setPosition ⟨2⟩ 0))).2.perform
        (.edit (.replaceChildren ⟨3⟩ 0 0 ⟨5⟩))).2 := by
  have isRoot : ⟨0⟩ ∈ grove.forest.roots := by decide
  have outside : ∀ first ∈ [(⟨3⟩ : NodeId), ⟨5⟩], ¬ grove.forest.SameTree first ⟨2⟩ := by
    intro first named same
    have inside := same.mem_treeOf isRoot ((mem_treeOf_grove _).mpr (by decide))
    rw [mem_treeOf_grove] at inside
    have distinct : ∀ first ∈ [(⟨3⟩ : NodeId), ⟨5⟩], first ∉ [(⟨0⟩ : NodeId), ⟨1⟩, ⟨2⟩] := by decide
    exact distinct first named inside
  refine ⟨by decide, by decide, ?_⟩
  apply edits_of_different_trees_commute reachable_grove rfl rfl rfl (by decide)
  simpa only [Edit.handles, List.forall_mem_singleton] using outside

end Builder

end SyntaxForest
