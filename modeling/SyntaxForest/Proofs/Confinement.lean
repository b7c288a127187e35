import SyntaxForest.Proofs.Ensures

/-!
Rules for edits that keep to a part of the forest. The outcome of a confined edit depends on the
nodes that it may look at, and every node outside its region keeps its record.
-/

namespace SyntaxForest

/-- All handles that a record mentions lie in the region. -/
structure Node.Within (node : Node) (region : Set NodeId) : Prop where
  children : ∀ child ∈ node.children, child ∈ region
  parent : ∀ parent, node.parent = some parent → parent ∈ region

/-- A record without links lies in every region. -/
theorem Node.within_of_unlinked {node : Node} {region : Set NodeId}
    (childless : node.children = [] := by rfl) (parentless : node.parent = none := by rfl) :
    node.Within region where
  children child listed := by simp [childless] at listed
  parent parent above := by simp [parentless] at above

/-- A scope tells which nodes an edit may look at and which of them, its region, it may change. The
forest had `start` nodes when the scope was chosen. -/
structure Scope where
  visible : Set NodeId
  region : Set NodeId
  start : Nat
  subset : region ⊆ visible

namespace Scope

/-- An open scope lets every new node join its region. -/
def Open (scope : Scope) : Prop := ∀ id : NodeId, scope.start ≤ id.index → id ∈ scope.region

/-- Two forests of one size look the same in a scope, and no link leads out of its region. -/
structure Relates (scope : Scope) (first second : Forest) : Prop where
  size : second.size = first.size
  grown : scope.start ≤ first.size
  same : ∀ id ∈ scope.visible, second.get? id = first.get? id
  closed : ∀ id ∈ scope.region, ∀ node, first.get? id = some node → node.Within scope.region

/-- Every node outside the region keeps its record. -/
def Spares (scope : Scope) (before after : Forest) : Prop :=
  ∀ id, id ∉ scope.region → after.get? id = before.get? id

theorem Spares.trans {scope : Scope} {before middle after : Forest}
    (spares : scope.Spares before middle) (later : scope.Spares middle after) :
    scope.Spares before after :=
  fun id outside => (later id outside).trans (spares id outside)

variable {scope : Scope} {first second : Forest}

theorem Relates.symm (relates : scope.Relates first second) : scope.Relates second first where
  size := relates.size.symm
  grown := relates.size ▸ relates.grown
  same id visible := (relates.same id visible).symm
  closed id inside node found :=
    relates.closed id inside node ((relates.same id (scope.subset inside)) ▸ found)

theorem Relates.fetch (relates : scope.Relates first second) {id : NodeId}
    (visible : id ∈ scope.visible) : second.fetch id = first.fetch id := by
  rw [Forest.fetch, Forest.fetch, relates.same id visible, relates.size]

theorem Relates.within_of_fetch (relates : scope.Relates first second) {id : NodeId} {node : Node}
    (inside : id ∈ scope.region) (fetched : first.fetch id = .ok node) :
    node.Within scope.region :=
  relates.closed id inside node (Forest.get?_of_fetch fetched)

end Scope

namespace EditM

variable {α β : Type} {scope : Scope} {first second : Forest}

/-- An edit ends alike on two forests, with a value that satisfies `post` or with a stop. It leaves
forests that look the same in the scope, and it spares all nodes outside the region. -/
inductive Mirrors (scope : Scope) (edit : EditM α) (post : α → Prop) (first second : Forest) : Prop
  | ok {value : α} {firstAfter secondAfter : Forest} (ran : edit first = .ok value firstAfter)
      (ranSecond : edit second = .ok value secondAfter) (holds : post value)
      (relates : scope.Relates firstAfter secondAfter) (spares : scope.Spares first firstAfter)
  | error {stop : Stop} {firstAfter secondAfter : Forest}
      (stopped : edit first = .error stop firstAfter)
      (stoppedSecond : edit second = .error stop secondAfter)
      (relates : scope.Relates firstAfter secondAfter) (spares : scope.Spares first firstAfter)

/-- After a first part that ended alike, the second part decides. -/
theorem Mirrors.bind_ok {edit : EditM α} {next : α → EditM β} {final : β → Prop} {value : α}
    {firstAfter secondAfter : Forest} (ran : edit first = .ok value firstAfter)
    (ranSecond : edit second = .ok value secondAfter) (spares : scope.Spares first firstAfter)
    (later : (next value).Mirrors scope final firstAfter secondAfter) :
    (edit >>= next).Mirrors scope final first second := by
  cases later with
  | ok ranLater ranLaterSecond holds relates sparesLater =>
      exact .ok ((EditM.bind_ok ran).trans ranLater) ((EditM.bind_ok ranSecond).trans ranLaterSecond)
        holds relates (spares.trans sparesLater)
  | error stopped stoppedSecond relates sparesLater =>
      exact .error ((EditM.bind_ok ran).trans stopped) ((EditM.bind_ok ranSecond).trans stoppedSecond)
        relates (spares.trans sparesLater)

/-- A confined edit ends alike on all forests that look the same in its scope. -/
def Confined (scope : Scope) (edit : EditM α) (post : α → Prop) : Prop :=
  ∀ first second, scope.Relates first second → edit.Mirrors scope post first second

namespace Confined

variable {post : α → Prop}

theorem pure {value : α} (holds : post value) : Confined scope (Pure.pure value) post :=
  fun _ _ relates => .ok rfl rfl holds relates fun _ _ => rfl

theorem refuse (refusal : Refusal) : Confined scope (EditM.refuse refusal) post :=
  fun _ _ relates => .error rfl rfl relates fun _ _ => rfl

theorem fail (fault : Fault) : Confined scope (EditM.fail fault) post :=
  fun _ _ relates => .error rfl rfl relates fun _ _ => rfl

/-- A value that an edit ends with satisfies what the edit is confined to. -/
theorem result {edit : EditM α} {forest after : Forest} {value : α}
    (confined : edit.Confined scope post) (relates : scope.Relates forest forest)
    (ran : edit forest = .ok value after) :
    post value ∧ scope.Relates after after ∧ scope.Spares forest after := by
  cases confined forest forest relates with
  | error stopped _ _ _ =>
      rw [ran] at stopped
      contradiction
  | ok ranFirst ranSecond holds relatesAfter spares =>
      rw [ran] at ranFirst ranSecond
      cases ranFirst
      cases ranSecond
      exact ⟨holds, relatesAfter, spares⟩

theorem mono {edit : EditM α} {weaker : α → Prop} (confined : edit.Confined scope post)
    (implies : ∀ value, post value → weaker value) : edit.Confined scope weaker := by
  intro first second relates
  cases confined first second relates with
  | ok ran ranSecond holds relates spares =>
      exact .ok ran ranSecond (implies _ holds) relates spares
  | error stopped stoppedSecond relates spares =>
      exact .error stopped stoppedSecond relates spares

theorem bind {edit : EditM α} {next : α → EditM β} {final : β → Prop}
    (confined : edit.Confined scope post)
    (later : ∀ value, post value → (next value).Confined scope final) :
    (edit >>= next).Confined scope final := by
  intro first second relates
  cases confined first second relates with
  | error stopped stoppedSecond relates spares =>
      exact .error (bind_error stopped) (bind_error stoppedSecond) relates spares
  | ok ran ranSecond holds relates spares =>
      exact .bind_ok ran ranSecond spares (later _ holds _ _ relates)

theorem map {edit : EditM α} (confined : edit.Confined scope post) (change : α → β) :
    (change <$> edit).Confined scope fun _ => True := by
  rw [map_eq_pure_bind]
  exact confined.bind fun _ _ => pure trivial

theorem ite {condition : Prop} [Decidable condition] {one other : EditM α}
    (confined : one.Confined scope post) (confinedOther : other.Confined scope post) :
    (if condition then one else other).Confined scope post := by
  split_ifs
  · exact confined
  · exact confinedOther

/-- A question that has the same answer on both forests is confined. -/
theorem query {question : Forest → Except Stop α}
    (same : ∀ first second, scope.Relates first second → question second = question first)
    (answered : ∀ first second, scope.Relates first second → ∀ value, question first = .ok value →
      post value) : Confined scope (EditM.query question) post := by
  intro first second relates
  have again := same first second relates
  cases answer : question first with
  | ok value =>
      exact .ok (query_ok answer) (query_ok (again.trans answer))
        (answered first second relates value answer) relates fun _ _ => rfl
  | error stop =>
      exact .error (query_error answer) (query_error (again.trans answer)) relates fun _ _ => rfl

theorem fetch {id : NodeId} (inside : id ∈ scope.region) :
    Confined scope (EditM.fetch id) fun node => node.Within scope.region :=
  query (fun _ _ relates => relates.fetch (scope.subset inside))
    fun _ _ relates _ => relates.within_of_fetch inside

theorem fetch_visible {id : NodeId} (visible : id ∈ scope.visible) :
    Confined scope (EditM.fetch id) fun _ => True :=
  query (fun _ _ relates => relates.fetch visible) fun _ _ _ _ _ => trivial

/-- A change of one record in the region stays in the region. -/
theorem update {id : NodeId} {change : Node → Node} (inside : id ∈ scope.region)
    (within : ∀ node, node.Within scope.region → (change node).Within scope.region) :
    Confined scope (EditM.update id change) fun _ => True := by
  intro first second relates
  by_cases held : first.Holds id
  · have heldSecond : second.Holds id := by rwa [Forest.Holds, relates.size]
    refine .ok (update_ok held change) (update_ok heldSecond change) trivial ?_ ?_
    · refine ⟨by simpa using relates.size, by simpa using relates.grown, ?_, ?_⟩
      · intro other visible
        rw [Forest.get?_modify, Forest.get?_modify, relates.same other visible]
      · intro other insideOther node found
        rw [Forest.get?_modify] at found
        split_ifs at found with same
        · obtain ⟨record, foundRecord, rfl⟩ := Option.map_eq_some_iff.mp found
          exact within record (relates.closed other insideOther record foundRecord)
        · exact relates.closed other insideOther node found
    · intro other outside
      rw [Forest.get?_modify, if_neg]
      rintro rfl
      exact outside inside
  · have stopped : ∀ forest : Forest, ¬ forest.Holds id → EditM.update id change forest =
        .error (.fault (.missingNode id forest.size)) forest := fun forest missing => if_neg missing
    have missingSecond : ¬ second.Holds id := by rwa [Forest.Holds, relates.size]
    refine .error (stopped first held) ?_ relates fun _ _ => rfl
    rw [stopped second missingSecond, relates.size]

/-- Forests of one size are full together. -/
theorem mirrors_of_full {node : Node} {post : NodeId → Prop} {first second : Forest}
    (relates : scope.Relates first second) (full : ¬ first.size < Forest.capacity) :
    (EditM.allocate node).Mirrors scope post first second := by
  have fullSecond : ¬ second.size < Forest.capacity := by rwa [relates.size]
  exact .error (if_neg full) (if_neg fullSecond) relates fun _ _ => rfl

/-- A new node joins an open region. -/
theorem allocate {node : Node} (roomy : scope.Open) (within : node.Within scope.region) :
    Confined scope (EditM.allocate node) fun id => id ∈ scope.region := by
  intro first second relates
  by_cases room : first.size < Forest.capacity
  · have inside : (⟨first.size⟩ : NodeId) ∈ scope.region := roomy _ relates.grown
    have ranSecond : EditM.allocate node second = .ok ⟨first.size⟩ (second.push node) := by
      rw [EditM.allocate, relates.size, if_pos room]
    refine .ok (if_pos room) ranSecond inside ?_ ?_
    · refine ⟨by simp [relates.size], by simpa using Nat.le_succ_of_le relates.grown, ?_, ?_⟩
      · intro id visible
        rw [Forest.get?_push, Forest.get?_push, relates.size, relates.same id visible]
      · intro id insideId record found
        rw [Forest.get?_push] at found
        split_ifs at found
        · cases found
          exact within
        · exact relates.closed id insideId record found
    · intro id outside
      rw [Forest.get?_push, if_neg]
      intro last
      have isLast : id = ⟨first.size⟩ := congrArg NodeId.mk last
      rw [isLast] at outside
      exact outside inside
  · exact mirrors_of_full relates room

end Confined

end EditM

end SyntaxForest
