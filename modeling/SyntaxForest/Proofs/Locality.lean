import SyntaxForest.Proofs.Faults
import SyntaxForest.Proofs.Footprints
import SyntaxForest.Proofs.Readings

/-!
Locality. A request writes only to the trees of the handles it names and to new nodes. A tree of
which a whole run names no handle keeps its records, and with them everything that is read from it.
-/

namespace SyntaxForest

open Relation

namespace Scope

/-- The scope of edits that look at a region and nowhere else. -/
def within (region : Set NodeId) (start : Nat) : Scope := ⟨region, region, start, subset_rfl⟩

/-- The scope of edits that look everywhere and change new nodes only. -/
def fresh (start : Nat) : Scope :=
  ⟨Set.univ, {id | start ≤ id.index}, start, Set.subset_univ _⟩

theorem open_fresh (start : Nat) : (fresh start).Open := fun _ new => new

end Scope

namespace Forest

variable {forest before after : Forest}

/-- The nodes of the tree below a root. -/
def treeOf (forest : Forest) (root : NodeId) : Set NodeId :=
  {id | ReflTransGen forest.ChildOf id root}

/-- One tree of the forest contains both nodes. -/
def SameTree (forest : Forest) (first second : NodeId) : Prop :=
  ∃ root ∈ forest.roots, first ∈ forest.treeOf root ∧ second ∈ forest.treeOf root

theorem SameTree.symm {first second : NodeId} (same : forest.SameTree first second) :
    forest.SameTree second first := by
  obtain ⟨root, isRoot, insideFirst, insideSecond⟩ := same
  exact ⟨root, isRoot, insideSecond, insideFirst⟩

/-- The tree of a node has one root only. -/
theorem SameTree.mem_treeOf {first second root : NodeId} (same : forest.SameTree first second)
    (isRoot : root ∈ forest.roots) (inside : second ∈ forest.treeOf root) :
    first ∈ forest.treeOf root := by
  obtain ⟨otherRoot, isOtherRoot, insideFirst, insideSecond⟩ := same
  have sameRoot : root = otherRoot := by
    rcases reaches_or_reaches inside insideSecond with path | path
    · exact eq_of_reaches (mem_roots.mp isRoot).2 path
    · exact (eq_of_reaches (mem_roots.mp isOtherRoot).2 path).symm
  rw [sameRoot]
  exact insideFirst

/-- Two forests agree at a node when its record and everything that is read from there agree. -/
structure AgreesAt (after before : Forest) (id : NodeId) : Prop where
  record : after.get? id = before.get? id
  render : after.render id = before.render id
  verify : after.verify id = before.verify id
  ancestors : after.ancestors id = before.ancestors id

theorem AgreesAt.trans {first second third : Forest} {id : NodeId}
    (later : third.AgreesAt second id) (earlier : second.AgreesAt first id) :
    third.AgreesAt first id where
  record := later.record.trans earlier.record
  render := later.render.trans earlier.render
  verify := later.verify.trans earlier.verify
  ancestors := later.ancestors.trans earlier.ancestors

/-- No link leads into the region or out of it. -/
def Uncrossed (forest : Forest) (region : Set NodeId) : Prop :=
  ∀ child parent, forest.ChildOf child parent → (child ∈ region ↔ parent ∈ region)

theorem Uncrossed.compl {region : Set NodeId} (uncrossed : forest.Uncrossed region) :
    forest.Uncrossed regionᶜ :=
  fun child parent link => not_congr (uncrossed child parent link)

/-- A tree is linked to no other tree. -/
theorem uncrossed_treeOf {root : NodeId} (isRoot : forest.parentOf root = none) :
    forest.Uncrossed (forest.treeOf root) := by
  intro child parent link
  constructor
  · intro path
    rcases ReflTransGen.cases_head path with rfl | ⟨above, linkAgain, path⟩
    · rw [ChildOf, isRoot] at link
      contradiction
    · rw [ChildOf] at link linkAgain
      rw [link, Option.some.injEq] at linkAgain
      rw [linkAgain]
      exact path
  · intro path
    exact path.head link

/-- The records in a region that no link crosses mention nodes of the region only. -/
theorem Linked.within_region (linked : forest.Linked) {region : Set NodeId}
    (uncrossed : forest.Uncrossed region) {id : NodeId} {node : Node} (inside : id ∈ region)
    (found : forest.get? id = some node) : node.Within region where
  children child listed := by
    rw [← childrenOf_eq found] at listed
    exact (uncrossed child id (linked.mem_childrenOf_iff.mp listed)).mpr inside
  parent parent above := by
    have link : forest.ChildOf id parent := by rw [ChildOf, parentOf_eq found, above]
    exact (uncrossed id parent link).mp inside

theorem Linked.relates_within (linked : forest.Linked) {region : Set NodeId}
    (uncrossed : forest.Uncrossed region) :
    (Scope.within region forest.size).Relates forest forest where
  size := rfl
  grown := Nat.le_refl _
  same _ _ := rfl
  closed _ inside _ found := linked.within_region uncrossed inside found

theorem relates_fresh (forest : Forest) : (Scope.fresh forest.size).Relates forest forest where
  size := rfl
  grown := Nat.le_refl _
  same _ _ := rfl
  closed _ new _ found := absurd (holds_of_get? found) (Nat.not_lt.mpr new)

/-- A tree whose root lies in a closed region lies there as a whole. -/
theorem Linked.treeOf_subset (linked : forest.Linked) {scope : Scope} {other : Forest}
    (relates : scope.Relates forest other) {root : NodeId} (inside : root ∈ scope.region) :
    forest.treeOf root ⊆ scope.region := by
  intro id path
  induction path using ReflTransGen.head_induction_on with
  | refl => exact inside
  | @head child parent link _ insideParent =>
      obtain ⟨node, found⟩ := (forest.holds_iff parent).mp (linked.holds_parent link)
      have listed := linked.mem_childrenOf_iff.mpr link
      rw [childrenOf_eq found] at listed
      exact (relates.closed parent insideParent node found).children child listed

/-- Without cycles two forests agree throughout a tree of the earlier one when they have the same
records there. -/
theorem Acyclic.agreesAt (acyclic : before.Acyclic) (linked : before.Linked)
    (acyclicAfter : after.Acyclic) (linkedAfter : after.Linked) (grown : before.size ≤ after.size)
    {root id : NodeId} (isRoot : root ∈ before.roots)
    (records : ∀ other ∈ before.treeOf root, after.get? other = before.get? other)
    (inside : id ∈ before.treeOf root) : after.AgreesAt before id := by
  obtain ⟨heldRoot, parentless⟩ := mem_roots.mp isRoot
  have held : before.Holds id := holds_of_reaches heldRoot inside
  have heldAfter : after.Holds id := Nat.lt_of_lt_of_le held grown
  refine ⟨records id inside, ?_, ?_, ?_⟩
  · apply acyclic.render_eq linked held grown
    intro other path
    exact records other (path.trans inside)
  · rw [acyclic.verify_eq_ok linked held, acyclicAfter.verify_eq_ok linkedAfter heldAfter]
  · apply acyclic.ancestors_eq linked held grown
    -- Two ancestors of one node lie on one path, and no path leads beyond the root.
    intro other path
    apply records other
    rcases reaches_or_reaches path inside with up | down
    · exact up
    · rw [← eq_of_reaches parentless down]
      exact .refl

/-- A tree whose records stay keeps its nodes. -/
theorem Linked.treeOf_eq (linked : before.Linked) (linkedAfter : after.Linked) {root : NodeId}
    (records : ∀ other ∈ before.treeOf root, after.get? other = before.get? other) :
    after.treeOf root = before.treeOf root := by
  ext id
  constructor
  · intro path
    induction path using ReflTransGen.head_induction_on with
    | refl => exact .refl
    | @head child parent link _ inside =>
        have listed : child ∈ after.childrenOf parent := linkedAfter.mem_childrenOf_iff.mpr link
        rw [childrenOf, records parent inside] at listed
        exact ReflTransGen.head (linked.mem_childrenOf_iff.mp listed) inside
  · intro path
    induction path using ReflTransGen.head_induction_on with
    | refl => exact .refl
    | @head child parent link path above =>
        have linkAfter : after.ChildOf child parent := by
          rw [ChildOf, parentOf, records child (path.head link)]
          exact link
        exact ReflTransGen.head linkAfter above

end Forest

/-- A tree is copied into new nodes, wherever it stands. -/
theorem EditM.Confined.copyTree_fresh (start : Nat) (tree : NodeId) :
    EditM.Confined (Scope.fresh start) (EditM.copyTree tree)
      fun copy => copy ∈ (Scope.fresh start).region := by
  have reads : ∀ id ∈ (Set.univ : Set NodeId), EditM.Confined (Scope.fresh start) (EditM.fetch id)
      fun node => ∀ child ∈ node.children, child ∈ (Set.univ : Set NodeId) :=
    fun _ visible => (EditM.Confined.fetch_visible visible).mono fun _ _ _ _ => trivial
  exact EditM.Confined.copyTree (fun _ visible => visible) reads (Scope.open_fresh start) trivial

namespace Builder

variable {builder after : Builder} {scope : Scope}

/-- An edit that is confined to a scope ends alike for two builders whose forests look the same
there. -/
theorem perform_confined {first second : Builder} {edit : Edit}
    (options : second.options = first.options) (named : ∀ id ∈ edit.handles, id ∈ scope.region)
    (roomy : edit.allocates = true → scope.Open)
    (relates : scope.Relates first.forest second.forest) :
    (second.perform (.edit edit)).1 = (first.perform (.edit edit)).1 ∧
      scope.Relates (first.perform (.edit edit)).2.forest
        (second.perform (.edit edit)).2.forest ∧
      scope.Spares first.forest (first.perform (.edit edit)).2.forest := by
  have confined := edit.confined first.options.checkCycles named roomy
  cases confined first.forest second.forest relates with
  | ok ran ranSecond _ relates spares =>
      rw [← options] at ranSecond
      rw [perform_of_reply ran, perform_of_reply ranSecond]
      exact ⟨rfl, relates, spares⟩
  | error stopped stoppedSecond relates spares =>
      rw [← options] at stoppedSecond
      rw [perform_of_stop stopped, perform_of_stop stoppedSecond]
      exact ⟨rfl, relates, spares⟩

/-- A completed request that names nodes of the region only changes nothing outside. -/
theorem step?_confined (roomy : scope.Open) {request : Request}
    (named : ∀ id ∈ request.handles, id ∈ scope.region)
    (relates : scope.Relates builder.forest builder.forest)
    (completed : builder.step? request = some after) :
    scope.Relates after.forest after.forest ∧ scope.Spares builder.forest after.forest := by
  rw [← perform_of_step? completed]
  cases request with
  | edit edit => exact (perform_confined rfl named (fun _ => roomy) relates).2
  | query query => exact ⟨relates, fun _ _ => rfl⟩
  | serial node => exact ⟨relates, fun _ _ => rfl⟩

theorem run?_confined (roomy : scope.Open) {requests : List Request}
    (named : ∀ request ∈ requests, ∀ id ∈ request.handles, id ∈ scope.region)
    (relates : scope.Relates builder.forest builder.forest)
    (ran : builder.run? requests = some after) : scope.Spares builder.forest after.forest := by
  induction requests generalizing builder with
  | nil =>
      cases ran
      exact fun _ _ => rfl
  | cons request rest ih =>
      obtain ⟨next, completed, ran⟩ := Option.bind_eq_some_iff.mp ran
      obtain ⟨namedFirst, namedRest⟩ := List.forall_mem_cons.mp named
      obtain ⟨relatesNext, spares⟩ := step?_confined roomy namedFirst relates completed
      exact spares.trans (ih namedRest relatesNext ran)

/-- A tree that no request of a run names is the same after the run. -/
theorem Sound.agreesAt_of_run? (sound : builder.Sound)
    (checked : builder.options.checkCycles = true) {root : NodeId}
    (isRoot : root ∈ builder.forest.roots) {requests : List Request}
    (avoids : ∀ request ∈ requests, ∀ id ∈ request.handles, id ∉ builder.forest.treeOf root)
    (ran : builder.run? requests = some after) :
    ∀ id ∈ builder.forest.treeOf root, after.forest.AgreesAt builder.forest id := by
  obtain ⟨held, parentless⟩ := Forest.mem_roots.mp isRoot
  have roomy : (Scope.within (builder.forest.treeOf root)ᶜ builder.forest.size).Open :=
    fun id new inside => Nat.not_lt.mpr new (Forest.holds_of_reaches held inside)
  have relates := sound.linked.relates_within (Forest.uncrossed_treeOf parentless).compl
  have spares := run?_confined roomy avoids relates ran
  obtain ⟨soundAfter, kept, grown⟩ := sound.run ran
  have acyclicAfter := soundAfter.acyclic (by rw [kept, checked])
  intro id inside
  exact (sound.acyclic checked).agreesAt sound.linked acyclicAfter soundAfter.linked grown isRoot
    (fun other inside => spares other (not_not.mpr inside)) inside

/-- A copy is a new tree, and making it changes no earlier node. -/
theorem Sound.copyTree_spares (sound : builder.Sound) {tree copy : NodeId} {copied : Builder}
    (performed : builder.perform (.edit (.copyTree tree)) = (.ok (.node copy), copied)) :
    copy ∈ copied.forest.roots ∧
      (∀ id, builder.forest.Holds id → copied.forest.get? id = builder.forest.get? id) ∧
      ∀ id ∈ copied.forest.treeOf copy, ¬ builder.forest.Holds id := by
  obtain ⟨ran, _⟩ := apply_of_reply performed
  obtain ⟨value, ran, same⟩ := EditM.ok_of_map ran
  cases same
  obtain ⟨extended, isRoot⟩ := EditM.copyTree_extends sound.linked builder.options.checkCycles ran
  have confined := EditM.Confined.copyTree_fresh builder.forest.size tree
  obtain ⟨new, relates, spares⟩ := confined.result builder.forest.relates_fresh ran
  refine ⟨isRoot, fun id held => spares id (Nat.not_le.mpr held), ?_⟩
  intro id inside
  exact Nat.not_lt.mpr (extended.linked.treeOf_subset relates new inside)

/-- Three trees: a node over two leaves, a node over one leaf, and a list of one leaf. -/
def grove : Builder where
  forest := { nodes := #[
    { content := .token (.imaginary 4 "a"), children := [⟨1⟩, ⟨2⟩] },
    { content := .token (.imaginary 4 "b"), parent := some ⟨0⟩, position := some 0 },
    { content := .token (.imaginary 4 "c"), parent := some ⟨0⟩, position := some 1 },
    { content := .token (.imaginary 4 "d"), children := [⟨4⟩] },
    { content := .token (.imaginary 4 "e"), parent := some ⟨3⟩, position := some 0 },
    { content := .nil, children := [⟨6⟩] },
    { content := .token (.imaginary 4 "f"), parent := some ⟨5⟩, position := some 0 }] }

theorem reachable_grove : grove.Reachable :=
  ⟨{}, [.edit (.createImaginary 4 "a"), .edit (.createImaginary 4 "b"),
    .edit (.createImaginary 4 "c"), .edit (.createImaginary 4 "d"),
    .edit (.createImaginary 4 "e"), .edit .createNil, .edit (.createImaginary 4 "f"),
    .edit (.addChild ⟨0⟩ ⟨1⟩), .edit (.addChild ⟨0⟩ ⟨2⟩), .edit (.addChild ⟨3⟩ ⟨4⟩),
    .edit (.addChild ⟨5⟩ ⟨6⟩)], rfl⟩

theorem mem_treeOf_grove (id : NodeId) :
    id ∈ grove.forest.treeOf ⟨0⟩ ↔ id ∈ [(⟨0⟩ : NodeId), ⟨1⟩, ⟨2⟩] := by
  have read : grove.forest.subtree ⟨0⟩ = .ok (.node (⟨0⟩, .token (.imaginary 4 "a"))
      [.node (⟨1⟩, .token (.imaginary 4 "b")) [], .node (⟨2⟩, .token (.imaginary 4 "c")) []]) := rfl
  exact (reachable_grove.sound.linked.mem_handles_iff read).symm

/-- In a builder that checks for cycles, every run leaves a tree as it was of which it names no
handle. In particular a tree and a copy of it are apart, and requests that name no handle of the one
leave it as it was. -/
theorem unnamed_trees_stay (reachable : builder.Reachable)
    (checked : builder.options.checkCycles = true) :
    (∀ root ∈ builder.forest.roots, ∀ requests later,
      (∀ request ∈ requests, ∀ id ∈ request.handles, id ∉ builder.forest.treeOf root) →
      builder.run? requests = some later →
      ∀ id ∈ builder.forest.treeOf root, later.forest.AgreesAt builder.forest id) ∧
    ∀ tree copy copied,
      builder.perform (.edit (.copyTree tree)) = (.ok (.node copy), copied) →
      copy ∈ copied.forest.roots ∧
      (∀ id ∈ copied.forest.treeOf copy, ¬ builder.forest.Holds id) ∧
      ∀ requests later, copied.run? requests = some later →
        ((∀ request ∈ requests, ∀ id ∈ request.handles, ¬ builder.forest.SameTree id tree) →
          ∀ id, builder.forest.SameTree id tree → later.forest.AgreesAt builder.forest id) ∧
        ((∀ request ∈ requests, ∀ id ∈ request.handles, id ∉ copied.forest.treeOf copy) →
          ∀ id ∈ copied.forest.treeOf copy, later.forest.AgreesAt copied.forest id) := by
  have sound := reachable.sound
  refine ⟨fun root isRoot requests later avoids ran =>
    sound.agreesAt_of_run? checked isRoot avoids ran, ?_⟩
  intro tree copy copied performed
  have completed : builder.step? (.edit (.copyTree tree)) = some copied :=
    step?_eq_some_iff.mpr (.inl ⟨_, performed⟩)
  obtain ⟨isRoot, records, new⟩ := sound.copyTree_spares performed
  obtain ⟨_, kept, grown, _⟩ := sound.follows completed
  have soundCopied := sound.step completed
  have checkedCopied : copied.options.checkCycles = true := by rw [kept, checked]
  refine ⟨isRoot, new, fun requests later ran => ⟨?_, fun avoids =>
    soundCopied.agreesAt_of_run? checkedCopied isRoot avoids ran⟩⟩
  -- The original lies in a tree of the builder, which copying has left as it was.
  rintro avoids id ⟨root, wasRoot, inside, insideTree⟩
  obtain ⟨held, parentless⟩ := Forest.mem_roots.mp wasRoot
  have stays : ∀ other ∈ builder.forest.treeOf root,
      copied.forest.get? other = builder.forest.get? other :=
    fun other member => records other (Forest.holds_of_reaches held member)
  have sameNodes := sound.linked.treeOf_eq soundCopied.linked stays
  have stillRoot : root ∈ copied.forest.roots := by
    rw [Forest.mem_roots, Forest.parentOf, records root held]
    exact ⟨Nat.lt_of_lt_of_le held grown, parentless⟩
  have unchanged : copied.forest.AgreesAt builder.forest id :=
    (sound.acyclic checked).agreesAt sound.linked (soundCopied.acyclic checkedCopied)
      soundCopied.linked grown wasRoot stays inside
  refine Forest.AgreesAt.trans
    (soundCopied.agreesAt_of_run? checkedCopied stillRoot ?_ ran id ?_) unchanged
  · intro request member other named
    rw [sameNodes]
    intro insideOther
    exact avoids request member other named ⟨root, wasRoot, insideOther, insideTree⟩
  · rw [sameNodes]
    exact inside

/-- The list moves below a node, an attempt to close a cycle is refused, a tree is copied and a
child deleted. All this leaves the first tree alone. So does the deletion of a child of its copy, and the
copy stays when a child of the first tree is deleted. -/
theorem unnamed_trees_stay_grove :
    (∃ later, grove.run? [.edit (.addChild ⟨3⟩ ⟨5⟩), .edit (.addChild ⟨4⟩ ⟨3⟩),
        .edit (.copyTree ⟨3⟩), .edit (.deleteChild ⟨3⟩ 0)] = some later ∧
      later.forest.childrenOf ⟨3⟩ = [⟨6⟩] ∧ later.forest.AgreesAt grove.forest ⟨1⟩) ∧
    ∃ copied, grove.perform (.edit (.copyTree ⟨0⟩)) = (.ok (.node ⟨7⟩), copied) ∧
      (∃ later, copied.run? [.edit (.deleteChild ⟨7⟩ 0)] = some later ∧
        later.forest.childrenOf ⟨7⟩ = [⟨9⟩] ∧ later.forest.AgreesAt grove.forest ⟨1⟩) ∧
      ∃ later, copied.run? [.edit (.deleteChild ⟨0⟩ 1)] = some later ∧
        later.forest.childrenOf ⟨0⟩ = [⟨1⟩] ∧ later.forest.AgreesAt copied.forest ⟨7⟩ := by
  obtain ⟨stay, apart⟩ := unnamed_trees_stay reachable_grove rfl
  have isRoot : ⟨0⟩ ∈ grove.forest.roots := by decide
  have below : ⟨1⟩ ∈ grove.forest.treeOf ⟨0⟩ := ReflTransGen.single rfl
  have moved : (grove.run? [.edit (.addChild ⟨3⟩ ⟨5⟩), .edit (.addChild ⟨4⟩ ⟨3⟩),
      .edit (.copyTree ⟨3⟩), .edit (.deleteChild ⟨3⟩ 0)]).map
        (fun later => later.forest.childrenOf ⟨3⟩) = some [⟨6⟩] := by decide +kernel
  have movedCopy : ((grove.perform (.edit (.copyTree ⟨0⟩))).2.run? [.edit (.deleteChild ⟨7⟩ 0)]).map
      (fun later => later.forest.childrenOf ⟨7⟩) = some [⟨9⟩] := by decide +kernel
  have movedOriginal : ((grove.perform (.edit (.copyTree ⟨0⟩))).2.run?
      [.edit (.deleteChild ⟨0⟩ 1)]).map
      (fun later => later.forest.childrenOf ⟨0⟩) = some [⟨1⟩] := by decide +kernel
  have replied : (grove.perform (.edit (.copyTree ⟨0⟩))).1 = .ok (.node ⟨7⟩) := by decide +kernel
  obtain ⟨copied, performed⟩ : ∃ copied, grove.perform (.edit (.copyTree ⟨0⟩)) =
    (.ok (.node ⟨7⟩), copied) := ⟨_, Prod.ext replied rfl⟩
  rw [performed] at movedCopy movedOriginal
  obtain ⟨_, new, rest⟩ := apart ⟨0⟩ ⟨7⟩ copied performed
  obtain ⟨first, ranFirst, movedFirst⟩ := Option.map_eq_some_iff.mp moved
  obtain ⟨second, ranSecond, movedSecond⟩ := Option.map_eq_some_iff.mp movedCopy
  obtain ⟨third, ranThird, movedThird⟩ := Option.map_eq_some_iff.mp movedOriginal
  refine ⟨⟨first, ranFirst, movedFirst, ?_⟩, copied, performed,
    ⟨second, ranSecond, movedSecond, ?_⟩, third, ranThird, movedThird, ?_⟩
  · apply stay ⟨0⟩ isRoot _ first _ ranFirst ⟨1⟩ below
    simp only [mem_treeOf_grove]
    decide
  · apply (rest _ second ranSecond).1 _ ⟨1⟩ ⟨⟨0⟩, isRoot, below, .refl⟩
    simp only [List.forall_mem_singleton, Request.handles, Edit.handles]
    rintro ⟨root, isRoot, inside, _⟩
    exact absurd (Forest.holds_of_reaches (Forest.mem_roots.mp isRoot).1 inside) (by decide)
  · apply (rest _ third ranThird).2 _ ⟨7⟩ .refl
    simp only [List.forall_mem_singleton, Request.handles, Edit.handles]
    exact fun inside => new ⟨0⟩ inside (by decide)

end Builder

end SyntaxForest
