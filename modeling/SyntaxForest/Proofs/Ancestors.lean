import SyntaxForest.Forest.Ancestry
import SyntaxForest.Proofs.Ensures
import SyntaxForest.Proofs.Relisting
import Mathlib.Logic.Relation

/-!
Ancestors along the parent links. A node that is neither a given parent nor above it can join the
children of that parent without closing a cycle, and a completed walk decides whether it is above.
-/

namespace SyntaxForest.Forest

open Relation

/-- The parent link of a node as a relation. -/
def ChildOf (forest : Forest) (child parent : NodeId) : Prop :=
  forest.parentOf child = some parent

/-- No node is its own strict ancestor. -/
def Acyclic (forest : Forest) : Prop := ∀ id, ¬ TransGen forest.ChildOf id id

/-- None of the nodes is the parent itself or an ancestor of it. -/
def Clear (forest : Forest) (parent : NodeId) (ids : List NodeId) : Prop :=
  ∀ id ∈ ids, ¬ ReflTransGen forest.ChildOf parent id

/-- Every parent link of `after` is one of `before`. -/
def Narrows (after before : Forest) : Prop :=
  ∀ child parent, after.ChildOf child parent → before.ChildOf child parent

theorem Narrows.trans {first second third : Forest} (later : third.Narrows second)
    (earlier : second.Narrows first) : third.Narrows first :=
  fun child parent link => earlier child parent (later child parent link)

theorem acyclic_empty : Forest.empty.Acyclic := by
  intro id cycle
  obtain ⟨parent, link, _⟩ := TransGen.head'_iff.mp cycle
  simp [ChildOf, parentOf, Forest.empty, get?] at link

/-- A relisting makes no links but those from the listed nodes to their parent. -/
theorem childOf_of_relist {forest : Forest} {parent : NodeId} {children : List NodeId}
    {child above : NodeId} (link : (forest.relist parent children).ChildOf child above) :
    child ∈ children ∧ above = parent ∨ forest.ChildOf child above := by
  obtain ⟨record, found, link⟩ := (parentOf_eq_some_iff _ child above).mp link
  rw [get?_relist, Option.map_eq_some_iff] at found
  obtain ⟨node, found, rfl⟩ := found
  simp only [Node.moved] at link
  split_ifs at link with member
  · exact .inl ⟨member, (Option.some.inj link).symm⟩
  · exact .inr (by rw [ChildOf, parentOf_eq found, link])

/-- A relisting that only removes children makes no link at all. -/
theorem Linked.narrows_relist {forest : Forest} (linked : forest.Linked)
    {parent : NodeId} {children : List NodeId} (subset : children ⊆ forest.childrenOf parent) :
    (forest.relist parent children).Narrows forest := by
  intro child above link
  rcases childOf_of_relist link with ⟨member, rfl⟩ | link
  · exact linked.mem_childrenOf_iff.mp (subset member)
  · exact link

theorem Linked.narrows_uprooted {forest : Forest} (linked : forest.Linked) (id : NodeId) :
    (forest.uprooted id).Narrows forest := by
  intro child above link
  rw [ChildOf, linked.parentOf_uprooted] at link
  split_ifs at link
  exact link

theorem Linked.narrows_uprootedEach {forest : Forest} (linked : forest.Linked)
    (ids : List NodeId) : (forest.uprootedEach ids).Narrows forest := by
  intro child above link
  rw [ChildOf, linked.parentOf_uprootedEach] at link
  split_ifs at link
  exact link

/-- Fewer links close no cycle. -/
theorem Acyclic.narrow {before after : Forest} (acyclic : before.Acyclic)
    (narrows : after.Narrows before) : after.Acyclic :=
  fun id cycle => acyclic id (TransGen.mono narrows _ _ cycle)

theorem Clear.narrow {before after : Forest} {parent : NodeId} {ids : List NodeId}
    (clear : before.Clear parent ids) (narrows : after.Narrows before) : after.Clear parent ids :=
  fun id member path => clear id member (ReflTransGen.mono narrows _ _ path)

/-- The present children of a node are no ancestors of it. -/
theorem Acyclic.clear_childrenOf {forest : Forest} (acyclic : forest.Acyclic)
    (linked : forest.Linked) (parent : NodeId) :
    forest.Clear parent (forest.childrenOf parent) := by
  intro child member path
  have link : forest.ChildOf child parent := linked.mem_childrenOf_iff.mp member
  exact acyclic child (TransGen.head' link path)

/-- A relisting with clear nodes gives its parent no new ancestor. -/
theorem Clear.reaches_of_relist {forest : Forest} {parent : NodeId} {children : List NodeId}
    (clear : forest.Clear parent children) {above : NodeId}
    (path : ReflTransGen (forest.relist parent children).ChildOf parent above) :
    ReflTransGen forest.ChildOf parent above := by
  induction path with
  | refl => exact .refl
  | tail _ link ih =>
      rcases childOf_of_relist link with ⟨member, _⟩ | link
      · exact absurd ih (clear _ member)
      · exact ih.tail link

/-- Above a node that its parent reaches, a relisting with clear nodes makes no path. -/
theorem Clear.path_of_relist {forest : Forest} {parent : NodeId} {children : List NodeId}
    (clear : forest.Clear parent children) {id above : NodeId}
    (reached : ReflTransGen forest.ChildOf parent id)
    (path : TransGen (forest.relist parent children).ChildOf id above) :
    TransGen forest.ChildOf id above := by
  induction path with
  | single link =>
      rcases childOf_of_relist link with ⟨member, _⟩ | link
      · exact absurd reached (clear _ member)
      · exact .single link
  | tail _ link ih =>
      rcases childOf_of_relist link with ⟨member, _⟩ | link
      · exact absurd (reached.trans ih.to_reflTransGen) (clear _ member)
      · exact ih.tail link

/-- A path after a relisting is an old one, or it passes through the parent. -/
theorem path_or_passes_of_relist {forest : Forest} {parent : NodeId} {children : List NodeId}
    {id above : NodeId} (path : TransGen (forest.relist parent children).ChildOf id above) :
    TransGen forest.ChildOf id above ∨
      ReflTransGen (forest.relist parent children).ChildOf parent above := by
  induction path with
  | single link =>
      rcases childOf_of_relist link with ⟨_, rfl⟩ | link
      · exact .inr .refl
      · exact .inl (.single link)
  | tail _ link ih =>
      rcases ih with old | new
      · rcases childOf_of_relist link with ⟨_, rfl⟩ | link
        · exact .inr .refl
        · exact .inl (old.tail link)
      · exact .inr (new.tail link)

/-- A relisting with clear nodes closes no cycle. -/
theorem Acyclic.relist {forest : Forest} (acyclic : forest.Acyclic) {parent : NodeId}
    {children : List NodeId} (clear : forest.Clear parent children) :
    (forest.relist parent children).Acyclic := by
  intro id cycle
  rcases path_or_passes_of_relist cycle with old | new
  · exact acyclic id old
  · have reached := clear.reaches_of_relist new
    exact acyclic id (clear.path_of_relist reached cycle)

/-- The children of a node and one more clear node are clear together. -/
theorem Acyclic.clear_append {forest : Forest} (acyclic : forest.Acyclic) (linked : forest.Linked)
    {parent child : NodeId} (clear : forest.Clear parent [child]) :
    forest.Clear parent (forest.childrenOf parent ++ [child]) := by
  intro id member
  rcases List.mem_append.mp member with inside | last
  · exact acyclic.clear_childrenOf linked parent id inside
  · exact clear id last

theorem Acyclic.adopted {forest : Forest} (acyclic : forest.Acyclic) (linked : forest.Linked)
    {parent child : NodeId} (clear : forest.Clear parent [child]) :
    (forest.adopted parent child).Acyclic := by
  have narrows := linked.narrows_uprooted child
  have bare := acyclic.narrow narrows
  exact bare.relist (bare.clear_append (linked.uprooted child) (clear.narrow narrows))

/-- Adopting a clear node gives its parent no new ancestor. -/
theorem Acyclic.reaches_of_adopted {forest : Forest} (acyclic : forest.Acyclic)
    (linked : forest.Linked) {parent child above : NodeId} (clear : forest.Clear parent [child])
    (path : ReflTransGen (forest.adopted parent child).ChildOf parent above) :
    ReflTransGen forest.ChildOf parent above := by
  have narrows := linked.narrows_uprooted child
  have all := (acyclic.narrow narrows).clear_append (linked.uprooted child) (clear.narrow narrows)
  exact ReflTransGen.mono narrows _ _ (all.reaches_of_relist path)

theorem Acyclic.adoptedEach {forest : Forest} (acyclic : forest.Acyclic) (linked : forest.Linked)
    {parent : NodeId} {ids : List NodeId} (held : ids = [] ∨ forest.Holds parent)
    (solid : ∀ id ∈ ids, forest.Solid id) (clear : forest.Clear parent ids) :
    (forest.adoptedEach parent ids).Acyclic := by
  induction ids generalizing forest with
  | nil => exact acyclic
  | cons child rest ih =>
      have heldParent : forest.Holds parent := held.resolve_left (by simp)
      have clearFirst : forest.Clear parent [child] := by
        intro id member
        exact clear id (by simp_all)
      have different : child ≠ parent := by
        rintro rfl
        exact clear child (by simp) .refl
      apply ih (acyclic.adopted linked clearFirst)
        (linked.adopted heldParent (solid child (by simp)) different)
      · exact .inr (by simpa using heldParent)
      · intro id member
        rw [solid_adopted]
        exact solid id (by simp [member])
      · intro id member path
        exact clear id (by simp [member]) (acyclic.reaches_of_adopted linked clearFirst path)

/-- A walk that ends before its limit lists every node from its start upwards. -/
theorem mem_of_climb {forest : Forest} {limit : Nat} {first id : NodeId} {above : List NodeId}
    (walked : forest.climb limit (some first) = .ok above) (ended : above.length < limit)
    (path : ReflTransGen forest.ChildOf first id) : id ∈ above := by
  induction limit generalizing first above with
  | zero => omega
  | succ limit ih =>
      obtain ⟨node, fetched, walked⟩ := answer_of_bind walked
      obtain ⟨rest, climbed, same⟩ := answer_of_bind walked
      cases same
      rcases ReflTransGen.cases_head path with rfl | ⟨next, link, path⟩
      · exact List.mem_cons_self
      · rw [ChildOf, parentOf_eq (get?_of_fetch fetched)] at link
        rw [link] at climbed
        exact List.mem_cons_of_mem _ (ih climbed (by simpa using ended) path)

/-- A node that the walk denies is neither the node itself nor above it. -/
theorem not_reaches_of_isAncestorOrSelf {forest : Forest} {candidate id : NodeId}
    (denied : forest.isAncestorOrSelf candidate id = .ok false) :
    ¬ ReflTransGen forest.ChildOf id candidate := by
  intro path
  unfold isAncestorOrSelf at denied
  split_ifs at denied with same
  · contradiction
  · obtain ⟨above, walked, denied⟩ := answer_of_bind denied
    split_ifs at denied with member long
    · contradiction
    obtain ⟨node, fetched, walked⟩ := answer_of_bind walked
    rcases ReflTransGen.cases_head path with rfl | ⟨next, link, path⟩
    · exact same rfl
    · rw [ChildOf, parentOf_eq (get?_of_fetch fetched)] at link
      rw [link] at walked
      exact member (mem_of_climb walked (by omega) path)

section Blame

variable {forest : Forest} {handles : List NodeId}

/-- A walk along the parent links of a linked forest finds every node it looks for. -/
theorem Linked.blames_climb (linked : forest.Linked) (limit : Nat) {start : Option NodeId}
    (held : ∀ first, start = some first → forest.Holds first) :
    forest.Blames handles (forest.climb limit start) := by
  induction limit generalizing start with
  | zero => exact .ok []
  | succ limit ih =>
      cases start with
      | none => exact .ok []
      | some first =>
          apply Blames.bind (forest.blames_fetch (.inl (held first rfl)))
          intro node fetched
          apply Blames.bind
          · apply ih
            intro parent above
            apply linked.holds_parent
            rw [parentOf_eq (get?_of_fetch fetched), above]
          · intro rest _
            exact .ok _

theorem Linked.blames_ancestorsUpTo (linked : forest.Linked) (limit : Nat) {id : NodeId}
    (listed : forest.Holds id ∨ id ∈ handles) :
    forest.Blames handles (forest.ancestorsUpTo limit id) := by
  apply Blames.bind (forest.blames_fetch listed)
  intro node fetched
  apply linked.blames_climb
  intro parent above
  apply linked.holds_parent
  rw [parentOf_eq (get?_of_fetch fetched), above]

theorem Linked.blames_isAncestorOrSelf (linked : forest.Linked) (candidate : NodeId) {id : NodeId}
    (listed : forest.Holds id ∨ id ∈ handles) :
    forest.Blames handles (forest.isAncestorOrSelf candidate id) := by
  unfold isAncestorOrSelf
  split_ifs
  · exact .ok true
  · apply Blames.bind (linked.blames_ancestorsUpTo _ listed)
    intro above _
    split_ifs
    · exact .ok true
    · exact .endless
    · exact .ok false

end Blame

end SyntaxForest.Forest
