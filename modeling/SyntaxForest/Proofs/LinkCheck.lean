import SyntaxForest.Forest.Verify
import SyntaxForest.Proofs.Subtrees

/-!
The check of the links below a node, on forests of every kind. The child lists may share nodes, run
in circles and contradict the parents and the positions that the nodes record. The check finds out
whether they do, and it goes on without end only from a root that lies below itself.
-/

namespace SyntaxForest

/-- The first way in which a record contradicts the place where it was found: the parent, then the
position, then the content. -/
def Node.Contradicts (node : Node) (parent : NodeId) (position : Nat) : Defect → Prop
  | .parent found expected =>
      found = node.parent ∧ expected = parent ∧ node.parent ≠ some parent
  | .position found expected =>
      found = node.position ∧ expected = position ∧ node.parent = some parent ∧
        node.position ≠ some position
  | .nilChild =>
      node.parent = some parent ∧ node.position = some position ∧ node.content.isNil = true

theorem Node.contradicts_of_defectAt? {node : Node} {parent : NodeId} {position : Nat}
    {defect : Defect} (reported : node.defectAt? parent position = some defect) :
    node.Contradicts parent position defect := by
  unfold Node.defectAt? at reported
  split_ifs at reported with above place nil
  · cases reported
    exact ⟨rfl, rfl, above⟩
  · cases reported
    exact ⟨rfl, rfl, not_not.mp above, place⟩
  · cases reported
    exact ⟨not_not.mp above, not_not.mp place, nil⟩

/-- A record is without defect when it names its place and is no nil node. -/
theorem Node.defectAt?_eq_none_iff {node : Node} {parent : NodeId} {position : Nat} :
    node.defectAt? parent position = none ↔
      node.parent = some parent ∧ node.position = some position ∧
        node.content.isNil = false := by
  unfold Node.defectAt?
  split_ifs <;> simp_all

namespace Forest

open Relation

variable {forest : Forest} {root parent child id : NodeId} {waiting visited : List NodeId}
  {inspection : Inspection}

/-- The child lists name only nodes that the forest holds. -/
def Closed (forest : Forest) : Prop :=
  ∀ parent, ∀ child ∈ forest.childrenOf parent, forest.Holds child

/-- The entry of a child in the list of its parent as a relation. -/
def Lists (forest : Forest) (parent child : NodeId) : Prop := child ∈ forest.childrenOf parent

/-- The record of the child names this place, and the child is no nil node. -/
def Fits (forest : Forest) (parent : NodeId) (position : Nat) (child : NodeId) : Prop :=
  ∃ record, forest.get? child = some record ∧ record.parent = some parent ∧
    record.position = some position ∧ record.content.isNil = false

/-- Every child of the node fits the place where it is listed. -/
def Orderly (forest : Forest) (parent : NodeId) : Prop :=
  ∀ position child, (forest.childrenOf parent)[position]? = some child →
    forest.Fits parent position child

/-- The node that a path of child positions leads to. -/
def descend (forest : Forest) : NodeId → List Nat → Option NodeId
  | id, [] => some id
  | id, position :: rest => (forest.childrenOf id)[position]?.bind (forest.descend · rest)

theorem descend_append (forest : Forest) (id : NodeId) (path rest : List Nat) :
    forest.descend id (path ++ rest) = (forest.descend id path).bind (forest.descend · rest) := by
  induction path generalizing id with
  | nil => rfl
  | cons position path ih =>
      rw [List.cons_append, descend, descend, Option.bind_assoc]
      congr 1
      funext child
      exact ih child

theorem descend_concat (forest : Forest) (id : NodeId) (path : List Nat) (position : Nat) :
    forest.descend id (path ++ [position]) =
      (forest.descend id path).bind fun parent => (forest.childrenOf parent)[position]? := by
  rw [descend_append]
  congr 1
  funext parent
  simp [descend]

theorem reaches_of_descend {path : List Nat} (led : forest.descend root path = some id) :
    ReflTransGen forest.Lists root id := by
  induction path using List.reverseRecOn generalizing id with
  | nil =>
      cases led
      exact .refl
  | append_singleton path position ih =>
      rw [descend_concat] at led
      obtain ⟨parent, led, listed⟩ := Option.bind_eq_some_iff.mp led
      exact (ih led).tail (List.mem_of_getElem? listed)

theorem exists_descend (path : ReflTransGen forest.Lists root id) :
    ∃ positions, forest.descend root positions = some id := by
  induction path with
  | refl => exact ⟨[], rfl⟩
  | tail _ member ih =>
      obtain ⟨positions, led⟩ := ih
      obtain ⟨position, listed⟩ := List.mem_iff_getElem?.mp member
      refine ⟨positions ++ [position], ?_⟩
      rw [descend_concat, led]
      exact listed

/-- A child of an orderly node names this node as its parent. -/
theorem Orderly.parentOf_eq (orderly : forest.Orderly parent) (member : forest.Lists parent child) :
    forest.parentOf child = some parent := by
  obtain ⟨position, listed⟩ := List.mem_iff_getElem?.mp member
  obtain ⟨record, found, above, _⟩ := orderly position child listed
  rw [Forest.parentOf_eq found, above]

/-- An orderly node lists no child twice. -/
theorem Orderly.nodup (orderly : forest.Orderly parent) : (forest.childrenOf parent).Nodup := by
  rw [List.nodup_iff_getElem?_ne_getElem?]
  intro first second before inside same
  have listed := List.getElem?_eq_getElem inside
  obtain ⟨record, found, _, place, _⟩ := orderly first _ (same.trans listed)
  obtain ⟨other, foundAgain, _, placeAgain, _⟩ := orderly second _ listed
  rw [found, Option.some.injEq] at foundAgain
  rw [foundAgain, placeAgain, Option.some.injEq] at place
  omega

/-- Where everything is orderly and the root does not lie below itself, one path leads to each node.
The last step of a path is read off the record of its end. -/
theorem descend_injective (orderly : ∀ id, ReflTransGen forest.Lists root id → forest.Orderly id)
    (uncycled : ¬ TransGen forest.Lists root root) {first second : List Nat}
    (led : forest.descend root first = some id) (ledAgain : forest.descend root second = some id) :
    first = second := by
  have cycle {path : List Nat} {position : Nat}
      (led : forest.descend root (path ++ [position]) = some root) : False := by
    rw [descend_concat] at led
    obtain ⟨parent, led, listed⟩ := Option.bind_eq_some_iff.mp led
    exact uncycled (TransGen.tail' (reaches_of_descend led) (List.mem_of_getElem? listed))
  induction first using List.reverseRecOn generalizing id second with
  | nil =>
      cases led
      rcases List.eq_nil_or_concat' second with rfl | ⟨path, position, rfl⟩
      · rfl
      · exact (cycle ledAgain).elim
  | append_singleton path position ih =>
      rcases List.eq_nil_or_concat' second with rfl | ⟨otherPath, otherPosition, rfl⟩
      · cases ledAgain
        exact (cycle led).elim
      · rw [descend_concat] at led ledAgain
        obtain ⟨parent, ledParent, listed⟩ := Option.bind_eq_some_iff.mp led
        obtain ⟨other, ledOther, listedOther⟩ := Option.bind_eq_some_iff.mp ledAgain
        obtain ⟨record, found, above, place, _⟩ :=
          orderly parent (reaches_of_descend ledParent) position id listed
        obtain ⟨_, foundAgain, aboveAgain, placeAgain, _⟩ :=
          orderly other (reaches_of_descend ledOther) otherPosition id listedOther
        rw [found, Option.some.injEq] at foundAgain
        rw [← foundAgain, above, Option.some.injEq] at aboveAgain
        rw [← foundAgain, place, Option.some.injEq] at placeAgain
        rw [← aboveAgain] at ledOther
        rw [ih ledParent ledOther, placeAgain]

section Children

variable {children : List NodeId} {position : Nat}

/-- Nothing is reported about children that all fit their places. -/
theorem defectAmong?_eq_none_iff :
    forest.defectAmong? parent position children = .ok none ↔
      ∀ offset child, children[offset]? = some child →
        forest.Fits parent (position + offset) child := by
  induction children generalizing position with
  | nil => simp [defectAmong?]
  | cons first rest ih =>
      have shifted : (∀ offset child, rest[offset]? = some child →
          forest.Fits parent (position + 1 + offset) child) ↔
          ∀ offset child, (first :: rest)[offset + 1]? = some child →
            forest.Fits parent (position + (offset + 1)) child := by
        simp only [List.getElem?_cons_succ, Nat.add_assoc, Nat.add_comm 1]
      rw [← Nat.and_forall_add_one, ← shifted, ← ih, defectAmong?]
      cases found : forest.get? first with
      | none => simp [fetch, Fits, found, Bind.bind, Except.bind]
      | some record =>
          have fits : forest.Fits parent position first ↔
              record.defectAt? parent position = none := by
            rw [Node.defectAt?_eq_none_iff]
            simp [Fits, found]
          rw [fetch_eq_ok found]
          cases reported : record.defectAt? parent position with
          | none => simp [Bind.bind, Except.bind, fits, reported]
          | some defect => simp [Bind.bind, Except.bind, fits, reported, Pure.pure, Except.pure]

/-- A reported child contradicts the place where it is listed. -/
theorem contradicts_of_defectAmong? {defect : Defect}
    (reported : forest.defectAmong? parent position children = .ok (some (child, defect))) :
    ∃ offset record, children[offset]? = some child ∧ forest.get? child = some record ∧
      record.Contradicts parent (position + offset) defect := by
  induction children generalizing position with
  | nil => cases reported
  | cons first rest ih =>
      obtain ⟨record, fetched, reported⟩ := answer_of_bind reported
      split at reported
      · next other here =>
          cases reported
          exact ⟨0, record, rfl, get?_of_fetch fetched, Node.contradicts_of_defectAt? here⟩
      · obtain ⟨offset, other, listed, found, contradicts⟩ := ih reported
        refine ⟨offset + 1, other, by simpa using listed, found, ?_⟩
        rwa [Nat.add_assoc, Nat.add_comm 1] at contradicts

/-- Children that the forest holds are all tested. -/
theorem exists_defectAmong? (parent : NodeId) (position : Nat)
    (held : ∀ child ∈ children, forest.Holds child) :
    ∃ report, forest.defectAmong? parent position children = .ok report := by
  induction children generalizing position with
  | nil => exact ⟨none, rfl⟩
  | cons first rest ih =>
      rw [List.forall_mem_cons] at held
      obtain ⟨record, found⟩ := (forest.holds_iff first).mp held.1
      rw [defectAmong?, fetch_eq_ok found]
      cases reported : record.defectAt? parent position with
      | none =>
          obtain ⟨report, answered⟩ := ih (position + 1) held.2
          exact ⟨report, by simp [Bind.bind, Except.bind, reported, answered]⟩
      | some defect => exact ⟨some (first, defect), by simp [Bind.bind, Except.bind, reported]; rfl⟩

end Children

/-- The course of an inspection, however many visits it takes. -/
inductive Inspects (forest : Forest) : List NodeId → Inspection → Prop
  | done : Inspects forest [] ⟨[], none⟩
  | stop {id : NodeId} {waiting : List NodeId} {finding : NodeId × Defect}
      (held : forest.Holds id)
      (reported : forest.defectAmong? id 0 (forest.childrenOf id) = .ok (some finding)) :
      Inspects forest (id :: waiting) ⟨[id], some finding⟩
  | visit {id : NodeId} {waiting visited : List NodeId} {finding : Option (NodeId × Defect)}
      (held : forest.Holds id) (orderly : forest.Orderly id)
      (later : Inspects forest ((forest.childrenOf id).reverse ++ waiting) ⟨visited, finding⟩) :
      Inspects forest (id :: waiting) ⟨id :: visited, finding⟩

/-- An inspection that may make `visits` visits runs through when its course has no more. -/
theorem inspectWithin_eq_ok_iff {visits : Nat} :
    forest.inspectWithin visits waiting = .ok inspection ↔
      forest.Inspects waiting inspection ∧ inspection.visited.length ≤ visits := by
  constructor
  · intro inspected
    induction visits generalizing waiting inspection with
    | zero =>
        cases waiting with
        | nil =>
            cases inspected
            exact ⟨.done, Nat.le_refl _⟩
        | cons id rest => cases inspected
    | succ visits ih =>
        cases waiting with
        | nil =>
            cases inspected
            exact ⟨.done, Nat.zero_le _⟩
        | cons id rest =>
            obtain ⟨node, fetched, inspected⟩ := answer_of_bind inspected
            have found := get?_of_fetch fetched
            obtain ⟨report, reported, inspected⟩ := answer_of_bind inspected
            rw [← childrenOf_eq found] at reported
            cases report with
            | some finding =>
                cases inspected
                exact ⟨.stop (holds_of_get? found) reported, Nat.succ_le_succ (Nat.zero_le _)⟩
            | none =>
                obtain ⟨later, inspectedLater, same⟩ := answer_of_bind inspected
                cases same
                rw [← childrenOf_eq found] at inspectedLater
                obtain ⟨course, short⟩ := ih inspectedLater
                refine ⟨.visit (holds_of_get? found) ?_ course, Nat.succ_le_succ short⟩
                simpa [Orderly] using defectAmong?_eq_none_iff.mp reported
  · rintro ⟨course, short⟩
    induction course generalizing visits with
    | done => cases visits <;> rfl
    | @stop id waiting finding held reported =>
        obtain ⟨more, rfl⟩ : ∃ more, visits = more + 1 := Nat.exists_eq_add_of_le' short
        obtain ⟨node, found⟩ := (forest.holds_iff id).mp held
        rw [childrenOf_eq found] at reported
        rw [inspectWithin, fetch_eq_ok found]
        simp only [Bind.bind, Except.bind, reported]
        rfl
    | @visit id waiting visited finding held orderly later ih =>
        obtain ⟨more, rfl⟩ : ∃ more, visits = more + 1 :=
          Nat.exists_eq_add_of_le' (Nat.le_trans (Nat.le_add_left 1 visited.length) short)
        obtain ⟨node, found⟩ := (forest.holds_iff id).mp held
        have reported : forest.defectAmong? id 0 node.children = .ok none := by
          rw [defectAmong?_eq_none_iff, ← childrenOf_eq found]
          simpa [Orderly] using orderly
        have inspected := ih (Nat.le_of_succ_le_succ short)
        rw [childrenOf_eq found] at inspected
        rw [inspectWithin, fetch_eq_ok found]
        simp only [Bind.bind, Except.bind, reported, inspected]
        rfl

namespace Inspects

/-- The course of an inspection is determined. -/
theorem unique {other : Inspection} (course : forest.Inspects waiting inspection)
    (again : forest.Inspects waiting other) : inspection = other := by
  have one := inspectWithin_eq_ok_iff.mpr
    ⟨course, Nat.le_max_left inspection.visited.length other.visited.length⟩
  have second := inspectWithin_eq_ok_iff.mpr
    ⟨again, Nat.le_max_right inspection.visited.length other.visited.length⟩
  rw [one, Except.ok.injEq] at second
  exact second

/-- The first of the waiting nodes alone take no more visits. -/
theorem front {back : List NodeId} (course : forest.Inspects (waiting ++ back) inspection) :
    ∃ other, forest.Inspects waiting other ∧
      other.visited.length ≤ inspection.visited.length := by
  generalize all : waiting ++ back = both at course
  induction course generalizing waiting with
  | done =>
      rw [(List.append_eq_nil_iff.mp all).1]
      exact ⟨_, .done, Nat.le_refl _⟩
  | @stop id rest finding held reported =>
      cases waiting with
      | nil => exact ⟨_, .done, Nat.zero_le _⟩
      | cons first later =>
          obtain ⟨rfl, rfl⟩ := List.cons_eq_cons.mp all
          exact ⟨_, .stop held reported, Nat.le_refl _⟩
  | @visit id rest visited finding held orderly later ih =>
      cases waiting with
      | nil => exact ⟨_, .done, Nat.zero_le _⟩
      | cons first others =>
          obtain ⟨rfl, rfl⟩ := List.cons_eq_cons.mp all
          obtain ⟨⟨visitedFirst, findingFirst⟩, course, short⟩ := ih (List.append_assoc _ _ _)
          exact ⟨_, .visit held orderly course, Nat.succ_le_succ short⟩

/-- From a visited node on, an inspection is the course of an inspection itself. -/
theorem resume {earlier later : List NodeId} (course : forest.Inspects waiting inspection)
    (split : inspection.visited = earlier ++ id :: later) :
    ∃ rest finding, forest.Inspects (id :: rest) ⟨id :: later, finding⟩ := by
  induction course generalizing earlier with
  | done => simp at split
  | @stop first rest finding held reported =>
      cases earlier with
      | nil =>
          cases split
          exact ⟨rest, some finding, .stop held reported⟩
      | cons other earlier => simp at split
  | @visit first rest visited finding held orderly course ih =>
      cases earlier with
      | nil =>
          cases split
          exact ⟨rest, finding, .visit held orderly course⟩
      | cons other earlier => exact ih (List.cons_eq_cons.mp split).2

/-- An inspection that ends does not come back to its root: the second visit would take as long as
the first one, which takes longer. -/
theorem root_once (course : forest.Inspects [root] inspection) :
    ∃ later, inspection.visited = root :: later ∧ root ∉ later := by
  have first : ∃ later, inspection.visited = root :: later := by
    cases course with
    | stop => exact ⟨[], rfl⟩
    | visit => exact ⟨_, rfl⟩
  obtain ⟨later, visited⟩ := first
  refine ⟨later, visited, fun again => ?_⟩
  obtain ⟨earlier, rest, rfl⟩ := List.append_of_mem again
  rw [← List.cons_append] at visited
  obtain ⟨back, finding, resumed⟩ := course.resume visited
  rw [← List.singleton_append] at resumed
  obtain ⟨other, courseAgain, short⟩ := resumed.front
  rw [courseAgain.unique course, visited] at short
  simp only [List.length_cons, List.length_append] at short
  omega

theorem holds (course : forest.Inspects waiting inspection) :
    ∀ id ∈ inspection.visited, forest.Holds id := by
  induction course with
  | done => simp
  | stop held _ => exact List.forall_mem_singleton.mpr held
  | visit held _ _ ih => exact List.forall_mem_cons.mpr ⟨held, ih⟩

/-- An inspection without a finding visits everything that waits and everything below it, and all of
it is orderly. -/
theorem covers (course : forest.Inspects waiting inspection) (clean : inspection.finding = none) :
    (∀ id ∈ waiting, id ∈ inspection.visited) ∧
      ∀ id ∈ inspection.visited, forest.Orderly id ∧
        ∀ child ∈ forest.childrenOf id, child ∈ inspection.visited := by
  induction course with
  | done => simp
  | stop => cases clean
  | @visit first rest visited finding held orderly later ih =>
      obtain ⟨entered, closed⟩ := ih clean
      simp only [List.mem_append, List.mem_reverse] at entered
      refine ⟨?_, ?_⟩
      · intro id member
        rcases List.mem_cons.mp member with rfl | later
        · exact List.mem_cons_self
        · exact List.mem_cons_of_mem _ (entered id (.inr later))
      · intro id member
        rcases List.mem_cons.mp member with rfl | inside
        · exact ⟨orderly, fun child listed => List.mem_cons_of_mem _ (entered child (.inl listed))⟩
        · obtain ⟨orderly, below⟩ := closed id inside
          exact ⟨orderly, fun child listed => List.mem_cons_of_mem _ (below child listed)⟩

/-- Every visit to a node brings a visit to each of its children. -/
theorem count_le (course : forest.Inspects waiting inspection) (clean : inspection.finding = none)
    (member : forest.Lists parent child) :
    waiting.count child + inspection.visited.count parent ≤ inspection.visited.count child := by
  induction course with
  | done => simp
  | stop => cases clean
  | @visit first rest visited finding held orderly later ih =>
      have below : ((forest.childrenOf first).reverse ++ rest).count child +
          visited.count parent ≤ visited.count child := ih clean
      rw [List.count_append, List.count_reverse] at below
      rw [List.count_cons, List.count_cons, List.count_cons]
      by_cases same : first = parent
      · have listed : 0 < (forest.childrenOf first).count child := by
          rw [same]
          exact List.count_pos_iff.mpr member
        simp only [same, beq_self_eq_true, if_true] at listed below ⊢
        omega
      · simp only [beq_eq_false_iff_ne.mpr same, Bool.false_eq_true, if_false]
        omega

/-- What an inspection finds is listed below one of the waiting nodes and contradicts its place. -/
theorem contradicts {defect : Defect} (course : forest.Inspects waiting inspection)
    (reported : inspection.finding = some (child, defect)) :
    ∃ start ∈ waiting, ∃ parent position record, ReflTransGen forest.Lists start parent ∧
      (forest.childrenOf parent)[position]? = some child ∧ forest.get? child = some record ∧
      record.Contradicts parent position defect := by
  induction course with
  | done => cases reported
  | @stop first rest finding held here =>
      cases reported
      obtain ⟨position, record, listed, found, contradicts⟩ := contradicts_of_defectAmong? here
      rw [Nat.zero_add] at contradicts
      exact ⟨first, List.mem_cons_self, first, position, record, .refl, listed, found, contradicts⟩
  | @visit first rest visited finding held orderly later ih =>
      obtain ⟨start, member, parent, position, record, path, rest⟩ := ih reported
      rw [List.mem_append, List.mem_reverse] at member
      rcases member with below | waits
      · exact ⟨first, List.mem_cons_self, parent, position, record, .head below path, rest⟩
      · exact ⟨start, List.mem_cons_of_mem _ waits, parent, position, record, path, rest⟩

end Inspects

/-- How far an inspection of a root has come. Everything lies below the root. The visited nodes and
the waiting ones, the root apart, are different, and each of them was found below its parent. -/
structure Explored (forest : Forest) (root : NodeId) (visited waiting : List NodeId) : Prop where
  reached : ∀ id ∈ visited ++ waiting, ReflTransGen forest.Lists root id
  nodup : (visited ++ waiting.filter (· ≠ root)).Nodup
  parent : ∀ id ∈ visited ++ waiting.filter (· ≠ root), id ≠ root →
    ∃ above ∈ visited, forest.parentOf id = some above

namespace Explored

theorem start (orderly : forest.Orderly root) :
    forest.Explored root [root] (forest.childrenOf root).reverse where
  reached id member := by
    rw [List.singleton_append, List.mem_cons, List.mem_reverse] at member
    rcases member with rfl | listed
    · exact .refl
    · exact .single listed
  nodup := by
    rw [List.singleton_append, List.nodup_cons]
    exact ⟨by simp, (List.nodup_reverse.mpr orderly.nodup).filter _⟩
  parent id member different := by
    rw [List.singleton_append, List.mem_cons, List.mem_filter, List.mem_reverse] at member
    have listed := (member.resolve_left different).1
    exact ⟨root, List.mem_cons_self, orderly.parentOf_eq listed⟩

/-- A visit to an orderly node finds new nodes only: a node found before has another parent. -/
theorem visit (explored : forest.Explored root visited (id :: waiting)) (different : id ≠ root)
    (orderly : forest.Orderly id) :
    forest.Explored root (visited ++ [id]) ((forest.childrenOf id).reverse ++ waiting) := by
  obtain ⟨reached, nodup, parents⟩ := explored
  have passes : (id :: waiting).filter (· ≠ root) = id :: waiting.filter (· ≠ root) := by
    simp [different]
  rw [passes] at nodup parents
  have fresh : id ∉ visited :=
    fun member => (List.nodup_cons.mp (List.nodup_middle.mp nodup)).1
      (List.mem_append_left _ member)
  have perm : ((visited ++ [id]) ++
      ((forest.childrenOf id).reverse ++ waiting).filter (· ≠ root)).Perm
      ((forest.childrenOf id).reverse.filter (· ≠ root) ++
        (visited ++ id :: waiting.filter (· ≠ root))) := by
    rw [List.filter_append]
    simpa using List.perm_append_comm_assoc (visited ++ [id])
      ((forest.childrenOf id).reverse.filter (· ≠ root)) (waiting.filter (· ≠ root))
  refine ⟨?_, ?_, ?_⟩
  · intro other member
    have below : other ∈ forest.childrenOf id ∨ other ∈ visited ++ id :: waiting := by
      simp only [List.mem_append, List.mem_reverse, List.mem_cons] at member ⊢
      tauto
    rcases below with listed | inside
    · exact (reached id (by simp)).tail listed
    · exact reached other inside
  · rw [perm.nodup_iff]
    apply ((List.nodup_reverse.mpr orderly.nodup).filter _).append nodup
    intro child member again
    rw [List.mem_filter, List.mem_reverse, decide_eq_true_iff] at member
    obtain ⟨above, inside, link⟩ := parents child again member.2
    rw [orderly.parentOf_eq member.1, Option.some.injEq] at link
    exact fresh (link ▸ inside)
  · intro other member notRoot
    rw [perm.mem_iff, List.mem_append, List.mem_filter, List.mem_reverse] at member
    rcases member with ⟨listed, _⟩ | inside
    · exact ⟨id, by simp, orderly.parentOf_eq listed⟩
    · obtain ⟨above, inside, link⟩ := parents other inside notRoot
      exact ⟨above, List.mem_append_left _ inside, link⟩

theorem nodup_concat (explored : forest.Explored root visited (id :: waiting))
    (different : id ≠ root) : (visited ++ [id]).Nodup := by
  have sublist : (visited ++ [id]).Sublist (visited ++ (id :: waiting).filter (· ≠ root)) := by
    simp [different]
  exact explored.nodup.sublist sublist

/-- As long as the root is not visited again, no node is. -/
theorem nodup_visited (explored : forest.Explored root visited waiting)
    (course : forest.Inspects waiting inspection) (left : root ∉ inspection.visited) :
    (visited ++ inspection.visited).Nodup := by
  induction course generalizing visited with
  | done => exact explored.nodup
  | stop held reported => exact explored.nodup_concat (by simpa [eq_comm] using left)
  | @visit id waiting later finding held orderly course ih =>
      rw [List.mem_cons, not_or] at left
      simpa using ih (explored.visit (Ne.symm left.1) orderly) left.2

/-- An inspection that cannot come back to its root ends, since it visits new nodes only. -/
theorem exists_course (explored : forest.Explored root visited waiting) (closed : forest.Closed)
    (held : ∀ id, ReflTransGen forest.Lists root id → forest.Holds id)
    (apart : ∀ id, ReflTransGen forest.Lists root id → forest.Orderly id →
      root ∉ forest.childrenOf id)
    (left : root ∉ waiting) {visits : Nat} (enough : forest.size ≤ visited.length + visits) :
    ∃ inspection, forest.Inspects waiting inspection := by
  induction visits generalizing visited waiting with
  | zero =>
      cases waiting with
      | nil => exact ⟨_, .done⟩
      | cons id rest =>
          rw [List.mem_cons, not_or] at left
          have bounded := length_le_size (explored.nodup_concat (Ne.symm left.1)) fun other member =>
            held other (explored.reached other (by
              rw [List.append_cons]
              exact List.mem_append_left _ member))
          rw [List.length_append, List.length_singleton] at bounded
          omega
  | succ visits ih =>
      cases waiting with
      | nil => exact ⟨_, .done⟩
      | cons id rest =>
          rw [List.mem_cons, not_or] at left
          have path := explored.reached id (by simp)
          obtain ⟨report, reported⟩ := exists_defectAmong? id 0 (closed id)
          cases report with
          | some finding => exact ⟨_, .stop (held id path) reported⟩
          | none =>
              have orderly : forest.Orderly id := by
                simpa [Orderly] using defectAmong?_eq_none_iff.mp reported
              have leftNext : root ∉ (forest.childrenOf id).reverse ++ rest := by
                rw [List.mem_append, List.mem_reverse, not_or]
                exact ⟨apart id path orderly, left.2⟩
              obtain ⟨⟨visited, finding⟩, course⟩ := ih (explored.visit (Ne.symm left.1) orderly)
                leftNext (by rw [List.length_append, List.length_singleton]; omega)
              exact ⟨_, .visit (held id path) orderly course⟩

end Explored

namespace Inspects

/-- An inspection that ends visits no node twice. -/
theorem nodup (course : forest.Inspects [root] inspection) : inspection.visited.Nodup := by
  obtain ⟨later, visited, once⟩ := course.root_once
  cases course with
  | stop => exact List.nodup_singleton root
  | visit held orderly course =>
      cases visited
      rw [List.append_nil] at course
      exact (Explored.start orderly).nodup_visited course once

/-- So it ends in time. -/
theorem inspect_eq_ok (course : forest.Inspects [root] inspection) :
    forest.inspect root = .ok inspection :=
  inspectWithin_eq_ok_iff.mpr
    ⟨course, Nat.le_succ_of_le (length_le_size course.nodup course.holds)⟩

/-- Without a finding everything below the root is orderly. -/
theorem orderly_of_reaches (course : forest.Inspects [root] inspection)
    (clean : inspection.finding = none) (path : ReflTransGen forest.Lists root id) :
    id ∈ inspection.visited ∧ forest.Orderly id := by
  obtain ⟨entered, closed⟩ := course.covers clean
  have member : id ∈ inspection.visited := by
    induction path with
    | refl => exact entered root List.mem_cons_self
    | tail _ listed ih => exact (closed _ ih).2 _ listed
  exact ⟨member, (closed id member).1⟩

/-- Without a finding the root does not lie below itself, or it would be visited again. -/
theorem uncycled (course : forest.Inspects [root] inspection) (clean : inspection.finding = none) :
    ¬ TransGen forest.Lists root root := by
  intro cycle
  obtain ⟨parent, path, listed⟩ := TransGen.tail'_iff.mp cycle
  have visits := course.count_le clean listed
  have once := List.nodup_iff_count_le_one.mp course.nodup root
  have visited := List.count_pos_iff.mpr (course.orderly_of_reaches clean path).1
  rw [List.count_singleton_self] at visits
  omega

/-- The verdict on the root is the finding of the inspection. -/
theorem verify_eq_ok_iff (course : forest.Inspects [root] inspection) :
    forest.verify root = .ok () ↔ inspection.finding = none := by
  rw [verify, course.inspect_eq_ok]
  cases finding : inspection.finding <;> simp [Bind.bind, Except.bind, finding]

theorem finding_of_verify {stop : Stop} (course : forest.Inspects [root] inspection)
    (stopped : forest.verify root = .error stop) :
    ∃ child defect, inspection.finding = some (child, defect) ∧
      stop = .refused (.inconsistent child defect.message) := by
  rw [verify, course.inspect_eq_ok] at stopped
  cases finding : inspection.finding with
  | none => simp [Bind.bind, Except.bind, finding] at stopped
  | some found =>
      simp only [Bind.bind, Except.bind, finding, Except.error.injEq] at stopped
      exact ⟨found.1, found.2, rfl, stopped.symm⟩

end Inspects

/-- Everything below a node that the forest holds is held, where the child lists are closed. -/
theorem Closed.holds_of_reaches (closed : forest.Closed) (held : forest.Holds root)
    (path : ReflTransGen forest.Lists root id) : forest.Holds id := by
  rcases ReflTransGen.cases_tail path with rfl | ⟨parent, _, listed⟩
  · exact held
  · exact closed parent id listed

/-- A root without a parent, or that does not lie below itself, is inspected to the end. -/
theorem Closed.exists_inspects (closed : forest.Closed) (held : forest.Holds root)
    (apart : forest.parentOf root = none ∨ ¬ TransGen forest.Lists root root) :
    ∃ inspection, forest.Inspects [root] inspection := by
  have notListed : ∀ id, ReflTransGen forest.Lists root id → forest.Orderly id →
      root ∉ forest.childrenOf id := by
    intro id path orderly listed
    rcases apart with isRoot | uncycled
    · rw [orderly.parentOf_eq listed] at isRoot
      contradiction
    · exact uncycled (TransGen.tail' path listed)
  obtain ⟨report, reported⟩ := exists_defectAmong? root 0 (closed root)
  cases report with
  | some finding => exact ⟨_, .stop held reported⟩
  | none =>
      have orderly : forest.Orderly root := by
        simpa [Orderly] using defectAmong?_eq_none_iff.mp reported
      obtain ⟨⟨visited, finding⟩, course⟩ := (Explored.start orderly).exists_course closed
        (fun id path => closed.holds_of_reaches held path) notListed
        (by simpa using notListed root .refl orderly) (Nat.le_add_left _ _)
      exact ⟨_, .visit held orderly (by simpa using course)⟩

/-- An inspection of nodes that the forest holds runs through or uses up its visits. -/
theorem Closed.inspectWithin_cases (closed : forest.Closed) (visits : Nat)
    (held : ∀ id ∈ waiting, forest.Holds id) :
    (∃ inspection, forest.inspectWithin visits waiting = .ok inspection) ∨
      forest.inspectWithin visits waiting = .error .endless := by
  induction visits generalizing waiting with
  | zero =>
      cases waiting with
      | nil => exact .inl ⟨_, rfl⟩
      | cons id rest => exact .inr rfl
  | succ visits ih =>
      cases waiting with
      | nil => exact .inl ⟨_, rfl⟩
      | cons id rest =>
          rw [List.forall_mem_cons] at held
          obtain ⟨node, found⟩ := (forest.holds_iff id).mp held.1
          have heldBelow : ∀ child ∈ node.children, forest.Holds child := by
            rw [← childrenOf_eq found]
            exact closed id
          have heldNext : ∀ other ∈ node.children.reverse ++ rest, forest.Holds other := by
            rw [List.forall_mem_append]
            exact ⟨fun child member => heldBelow child (List.mem_reverse.mp member), held.2⟩
          obtain ⟨report, reported⟩ := exists_defectAmong? id 0 heldBelow
          rw [inspectWithin, fetch_eq_ok found]
          simp only [Bind.bind, Except.bind, reported]
          cases report with
          | some finding => exact .inl ⟨_, rfl⟩
          | none =>
              rcases ih heldNext with ⟨later, inspected⟩ | endless
              · exact .inl ⟨_, by simp only [inspected]; rfl⟩
              · exact .inr (by simp only [endless])

/-- In every forest whose child lists are closed, the check of a root ends if the root has no parent
or does not lie below itself, and then it visits no node twice. A check without a verdict would have
none after any number of visits. A check with a verdict passes exactly when every node below the
root is orderly, and then one path leads to each of them. Otherwise it names a child below the root
and the first way in which this child contradicts its place. -/
theorem verify_decides_links (closed : forest.Closed) (held : forest.Holds root) :
    (forest.parentOf root = none ∨ ¬ TransGen forest.Lists root root →
      forest.verify root ≠ .error .endless ∧
        ∃ inspection, forest.inspect root = .ok inspection ∧ inspection.visited.Nodup) ∧
    (forest.verify root = .error .endless →
      ∀ visits, forest.inspectWithin visits [root] = .error .endless) ∧
    (forest.verify root ≠ .error .endless →
      (forest.verify root = .ok () ↔
        ∀ id, ReflTransGen forest.Lists root id → forest.Orderly id)) ∧
    (forest.verify root = .ok () →
      ∀ id, ReflTransGen forest.Lists root id → ∃! path, forest.descend root path = some id) ∧
    ∀ stop, forest.verify root = .error stop → stop ≠ .endless →
      ∃ parent position child record defect, ReflTransGen forest.Lists root parent ∧
        (forest.childrenOf parent)[position]? = some child ∧ forest.get? child = some record ∧
        record.Contradicts parent position defect ∧
        stop = .refused (.inconsistent child defect.message) := by
  by_cases ends : ∃ inspection, forest.Inspects [root] inspection
  · obtain ⟨inspection, course⟩ := ends
    have settled : forest.verify root ≠ .error .endless := by
      intro endless
      obtain ⟨_, _, _, same⟩ := course.finding_of_verify endless
      contradiction
    refine ⟨fun _ => ⟨settled, inspection, course.inspect_eq_ok, course.nodup⟩,
      fun endless => absurd endless settled, fun _ => ?_, ?_, ?_⟩
    · rw [course.verify_eq_ok_iff]
      refine ⟨fun clean id path => (course.orderly_of_reaches clean path).2, fun orderly => ?_⟩
      -- A finding would contradict the order at its place.
      by_contra reported
      obtain ⟨⟨child, defect⟩, reported⟩ := Option.ne_none_iff_exists'.mp reported
      obtain ⟨start, member, parent, position, record, path, listed, found, contradicts⟩ :=
        course.contradicts reported
      rw [List.mem_singleton.mp member] at path
      obtain ⟨other, foundAgain, above, place, solid⟩ := orderly parent path position child listed
      rw [found, Option.some.injEq] at foundAgain
      subst other
      cases defect with
      | parent => exact contradicts.2.2 above
      | position => exact contradicts.2.2.2 place
      | nilChild => simp [contradicts.2.2] at solid
    · intro passed id path
      have clean := course.verify_eq_ok_iff.mp passed
      obtain ⟨positions, led⟩ := exists_descend path
      refine ⟨positions, led, fun other ledAgain => ?_⟩
      exact descend_injective (fun other path => (course.orderly_of_reaches clean path).2)
        (course.uncycled clean) ledAgain led
    · intro stop stopped _
      obtain ⟨child, defect, reported, same⟩ := course.finding_of_verify stopped
      obtain ⟨start, member, parent, position, record, path, listed, found, contradicts⟩ :=
        course.contradicts reported
      rw [List.mem_singleton.mp member] at path
      exact ⟨parent, position, child, record, defect, path, listed, found, contradicts, same⟩
  · have endless (visits : Nat) : forest.inspectWithin visits [root] = .error .endless := by
      rcases closed.inspectWithin_cases visits (List.forall_mem_singleton.mpr held) with
        ⟨inspection, inspected⟩ | endless
      · exact absurd ⟨inspection, (inspectWithin_eq_ok_iff.mp inspected).1⟩ ends
      · exact endless
    have unsettled : forest.verify root = .error .endless := by
      rw [verify, inspect, endless]
      rfl
    refine ⟨fun apart => absurd (closed.exists_inspects held apart) ends, fun _ => endless,
      fun settled => absurd unsettled settled, fun passed => ?_, fun stop stopped settled => ?_⟩
    · rw [unsettled] at passed
      contradiction
    · rw [unsettled, Except.error.injEq] at stopped
      exact absurd stopped.symm settled

/-- A forest in which two nodes share a child, and in which two other nodes lie below each other. -/
def tangle : Forest where
  nodes := #[
    { content := .token (.imaginary 4 "a"), children := [⟨1⟩, ⟨2⟩] },
    { content := .token (.imaginary 4 "b"), children := [⟨3⟩, ⟨4⟩], parent := some ⟨0⟩,
      position := some 0 },
    { content := .token (.imaginary 4 "c"), children := [⟨3⟩], parent := some ⟨0⟩,
      position := some 1 },
    { content := .token (.imaginary 4 "d"), parent := some ⟨1⟩, position := some 0 },
    { content := .token (.imaginary 4 "e"), parent := some ⟨1⟩, position := some 1 },
    { content := .token (.imaginary 4 "f"), children := [⟨6⟩], parent := some ⟨6⟩,
      position := some 0 },
    { content := .token (.imaginary 4 "g"), children := [⟨5⟩], parent := some ⟨5⟩,
      position := some 0 }]

/-- The shared child is found out, below one of its parents everything is in order, and the circle
is walked without end. -/
theorem verify_decides_links_tangle :
    tangle.verify ⟨0⟩ =
      .error (.refused (.inconsistent ⟨3⟩ "parent is Some(NodeId(1)), expected NodeId(2)")) ∧
    (∃ inspection, tangle.inspect ⟨0⟩ = .ok inspection ∧ inspection.visited.Nodup) ∧
    (∃ parent position child record defect, ReflTransGen tangle.Lists ⟨0⟩ parent ∧
      (tangle.childrenOf parent)[position]? = some child ∧ tangle.get? child = some record ∧
      record.Contradicts parent position defect) ∧
    tangle.verify ⟨1⟩ = .ok () ∧ (∃! path, tangle.descend ⟨1⟩ path = some ⟨4⟩) ∧
    ∀ visits, tangle.inspectWithin visits [⟨5⟩] = .error .endless := by
  have closed : tangle.Closed := by
    intro parent child listed
    by_cases held : tangle.Holds parent
    · have all : ∀ index < 7, ∀ child ∈ tangle.childrenOf ⟨index⟩, tangle.Holds child := by decide
      exact all parent.index held child listed
    · simp [childrenOf, get?_eq_none held] at listed
  have refused : tangle.verify ⟨0⟩ = .error (.refused (.inconsistent ⟨3⟩
      "parent is Some(NodeId(1)), expected NodeId(2)")) := by decide +kernel
  have heldTop : tangle.Holds ⟨0⟩ := by decide
  have heldInner : tangle.Holds ⟨1⟩ := by decide
  have heldCircle : tangle.Holds ⟨5⟩ := by decide
  have listed : ⟨4⟩ ∈ tangle.childrenOf ⟨1⟩ := by decide
  obtain ⟨ends, _, _, _, named⟩ := verify_decides_links closed heldTop
  obtain ⟨_, _, _, single, _⟩ := verify_decides_links closed heldInner
  obtain ⟨_, endless, _⟩ := verify_decides_links closed heldCircle
  obtain ⟨parent, position, child, record, defect, path, place, found, contradicts, _⟩ :=
    named _ refused (by decide)
  exact ⟨refused, (ends (.inl rfl)).2,
    ⟨parent, position, child, record, defect, path, place, found, contradicts⟩, rfl,
    single rfl ⟨4⟩ (.single listed), endless rfl⟩

end Forest

end SyntaxForest
