import SyntaxForest.Proofs.Confinement
import SyntaxForest.Proofs.Edits

/-!
Every edit is confined to any region that holds the handles it names and that no link leads out of.
The steps of an edit reach other nodes only along links, so they stay in the region. An edit that
creates nodes needs a region that new nodes may join.
-/

namespace SyntaxForest

namespace Scope

variable {scope : Scope} {first second : Forest}

/-- A walk that starts in the region stays there. -/
theorem Relates.climb (relates : scope.Relates first second) (limit : Nat) {start : Option NodeId}
    (inside : ∀ id, start = some id → id ∈ scope.region) :
    second.climb limit start = first.climb limit start := by
  induction limit generalizing start with
  | zero => rfl
  | succ limit ih =>
      cases start with
      | none => rfl
      | some id =>
          have insideId := inside id rfl
          rw [Forest.climb, Forest.climb, relates.fetch (scope.subset insideId)]
          apply bind_congr_of_ok
          intro node fetched
          rw [ih (relates.within_of_fetch insideId fetched).parent]

theorem Relates.isAncestorOrSelf (relates : scope.Relates first second) (candidate : NodeId)
    {id : NodeId} (inside : id ∈ scope.region) :
    second.isAncestorOrSelf candidate id = first.isAncestorOrSelf candidate id := by
  have walked : second.ancestorsUpTo (first.size + 1) id =
      first.ancestorsUpTo (first.size + 1) id := by
    rw [Forest.ancestorsUpTo, Forest.ancestorsUpTo, relates.fetch (scope.subset inside)]
    apply bind_congr_of_ok
    intro node fetched
    exact relates.climb _ (relates.within_of_fetch inside fetched).parent
  rw [Forest.isAncestorOrSelf, Forest.isAncestorOrSelf, relates.size, walked]

/-- The check looks at the parent and above it. The incoming nodes are only compared. -/
theorem Relates.checkAttach (relates : scope.Relates first second) (checkCycles : Bool)
    {parent : NodeId} (inside : parent ∈ scope.region) (ids : List NodeId) :
    second.checkAttach checkCycles parent ids = first.checkAttach checkCycles parent ids := by
  induction ids with
  | nil => rfl
  | cons id rest ih =>
      rw [Forest.checkAttach, Forest.checkAttach, relates.isAncestorOrSelf id inside, ih]

theorem Relates.effectiveRoot (relates : scope.Relates first second) {id : NodeId}
    (inside : id ∈ scope.region) : second.effectiveRoot id = first.effectiveRoot id := by
  rw [Forest.effectiveRoot, Forest.effectiveRoot, relates.fetch (scope.subset inside)]

theorem Relates.childAt (relates : scope.Relates first second) {id : NodeId}
    (inside : id ∈ scope.region) (position : Nat) :
    second.childAt id position = first.childAt id position := by
  rw [Forest.childAt, Forest.childAt, relates.fetch (scope.subset inside)]

theorem Relates.countBefore (relates : scope.Relates first second) (parent : NodeId) (start : Nat)
    {ids : List NodeId} (inside : ∀ id ∈ ids, id ∈ scope.region) :
    second.countBefore parent start ids = first.countBefore parent start ids := by
  rw [Forest.countBefore, Forest.countBefore,
    mapM_congr_of_mem fun id member => relates.fetch (scope.subset (inside id member))]

theorem Relates.mem_of_effectiveRoot (relates : scope.Relates first second) {id root : NodeId}
    (inside : id ∈ scope.region) (answered : first.effectiveRoot id = .ok root) :
    root ∈ scope.region := by
  obtain ⟨node, found, ⟨_, rfl⟩ | ⟨_, only⟩⟩ := first.effectiveRoot_cases answered
  · exact inside
  · exact (relates.closed id inside node found).children root (by simp [only])

theorem Relates.mem_of_childAt (relates : scope.Relates first second) {id child : NodeId}
    {position : Nat} (inside : id ∈ scope.region)
    (answered : first.childAt id position = .ok child) : child ∈ scope.region := by
  obtain ⟨held, listed⟩ := Forest.getElem?_of_childAt answered
  obtain ⟨node, found⟩ := (first.holds_iff id).mp held
  rw [Forest.childrenOf_eq found] at listed
  exact (relates.closed id inside node found).children child (List.mem_of_getElem? listed)

end Scope

namespace EditM.Confined

variable {scope : Scope}

theorem place {child parent : NodeId} (inside : child ∈ scope.region)
    (insideParent : parent ∈ scope.region) (position : Nat) :
    Confined scope (EditM.place child parent position) fun _ => True := by
  apply update inside
  intro node within
  refine ⟨within.children, ?_⟩
  rintro _ ⟨⟩
  exact insideParent

theorem unplace {id : NodeId} (inside : id ∈ scope.region) :
    Confined scope (EditM.unplace id) fun _ => True := by
  apply update inside
  intro node within
  refine ⟨within.children, ?_⟩
  rintro _ ⟨⟩

theorem unplaceEach {ids : List NodeId} (inside : ∀ id ∈ ids, id ∈ scope.region) :
    Confined scope (EditM.unplaceEach ids) fun _ => True := by
  induction ids with
  | nil => exact pure trivial
  | cons id rest ih =>
      obtain ⟨insideFirst, insideRest⟩ := List.forall_mem_cons.mp inside
      exact (unplace insideFirst).bind fun _ _ => ih insideRest

theorem placeEach {parent : NodeId} {ids : List NodeId} (insideParent : parent ∈ scope.region)
    (inside : ∀ id ∈ ids, id ∈ scope.region) (position : Nat) :
    Confined scope (EditM.placeEach parent position ids) fun _ => True := by
  induction ids generalizing position with
  | nil => exact pure trivial
  | cons id rest ih =>
      obtain ⟨insideFirst, insideRest⟩ := List.forall_mem_cons.mp inside
      exact (place insideFirst insideParent position).bind fun _ _ => ih insideRest _

theorem renumber {parent : NodeId} (inside : parent ∈ scope.region) (position : Nat) :
    Confined scope (EditM.renumber parent position) fun _ => True := by
  apply (fetch inside).bind
  intro node within
  exact placeEach inside (fun id member => within.children id (List.mem_of_mem_drop member)) _

theorem setChildren {parent : NodeId} {children : List NodeId} (inside : parent ∈ scope.region)
    (insideEach : ∀ child ∈ children, child ∈ scope.region) :
    Confined scope (EditM.setChildren parent children) fun _ => True :=
  update inside fun _ within => ⟨insideEach, within.parent⟩

theorem removeAt {parent : NodeId} (inside : parent ∈ scope.region) (position : Nat) :
    Confined scope (EditM.removeAt parent position) fun child => child ∈ scope.region := by
  apply (fetch inside).bind
  intro node within
  cases listed : node.children[position]? with
  | none => exact fail _
  | some child =>
      have insideRest : ∀ id ∈ node.children.eraseIdx position, id ∈ scope.region :=
        fun id member => within.children id (List.mem_of_mem_eraseIdx member)
      exact (setChildren inside insideRest).bind fun _ _ =>
        pure (within.children child (List.mem_of_getElem? listed))

theorem insertAt {parent child : NodeId} (inside : parent ∈ scope.region)
    (insideChild : child ∈ scope.region) (position : Nat) :
    Confined scope (EditM.insertAt parent position child) fun _ => True := by
  apply (fetch inside).bind
  intro node within
  apply ite (fail _)
  apply setChildren inside
  intro id member
  rcases List.eq_or_mem_of_mem_insertIdx member with rfl | present
  · exact insideChild
  · exact within.children id present

theorem putAt {parent child : NodeId} (inside : parent ∈ scope.region)
    (insideChild : child ∈ scope.region) (position : Nat) :
    Confined scope (EditM.putAt parent position child) fun _ => True := by
  apply (fetch inside).bind
  intro node within
  apply ite (fail _)
  apply setChildren inside
  intro id member
  rcases List.mem_or_eq_of_mem_set member with present | rfl
  · exact within.children id present
  · exact insideChild

theorem splice {parent : NodeId} {incoming : List NodeId} (inside : parent ∈ scope.region)
    (insideEach : ∀ id ∈ incoming, id ∈ scope.region) (position count : Nat) :
    Confined scope (EditM.splice parent position count incoming) fun _ => True := by
  apply (fetch inside).bind
  intro node within
  apply ite (fail _)
  apply setChildren inside
  intro id member
  rw [List.mem_append, List.mem_append] at member
  rcases member with (front | new) | back
  · exact within.children id (List.mem_of_mem_take front)
  · exact insideEach id new
  · exact within.children id (List.mem_of_mem_drop back)

theorem detach {id : NodeId} (inside : id ∈ scope.region) :
    Confined scope (EditM.detach id) fun _ => True := by
  apply (fetch inside).bind
  intro node within
  split
  · next parent position above _ =>
      have insideParent := within.parent parent above
      apply (removeAt insideParent position).bind
      intro _ _
      exact (renumber insideParent position).bind fun _ _ => unplace inside
  · exact pure trivial

theorem detachEach {ids : List NodeId} (inside : ∀ id ∈ ids, id ∈ scope.region) :
    Confined scope (EditM.detachEach ids) fun _ => True := by
  induction ids with
  | nil => exact pure trivial
  | cons id rest ih =>
      obtain ⟨insideFirst, insideRest⟩ := List.forall_mem_cons.mp inside
      exact (detach insideFirst).bind fun _ _ => ih insideRest

theorem append {parent child : NodeId} (inside : parent ∈ scope.region)
    (insideChild : child ∈ scope.region) :
    Confined scope (EditM.append parent child) fun _ => True := by
  apply (detach insideChild).bind
  intro _ _
  apply (fetch inside).bind
  intro node within
  have insideEach : ∀ id ∈ node.children ++ [child], id ∈ scope.region := by
    intro id member
    rcases List.mem_append.mp member with present | new
    · exact within.children id present
    · rw [List.mem_singleton.mp new]
      exact insideChild
  exact (setChildren inside insideEach).bind fun _ _ => place insideChild inside _

theorem appendEach {parent : NodeId} {ids : List NodeId} (insideParent : parent ∈ scope.region)
    (inside : ∀ id ∈ ids, id ∈ scope.region) :
    Confined scope (EditM.appendEach parent ids) fun _ => True := by
  induction ids with
  | nil => exact pure trivial
  | cons id rest ih =>
      obtain ⟨insideFirst, insideRest⟩ := List.forall_mem_cons.mp inside
      exact (append insideParent insideFirst).bind fun _ _ => ih insideRest

theorem takeChildren {id : NodeId} (inside : id ∈ scope.region) :
    Confined scope (EditM.takeChildren id) fun _ => True := by
  apply (fetch inside).bind
  intro node within
  apply (setChildren inside fun _ absent => absurd absent List.not_mem_nil).bind
  intro _ _
  exact unplaceEach within.children

theorem release {id : NodeId} (inside : id ∈ scope.region) (node : Node) :
    Confined scope (EditM.release id node) fun _ => True :=
  ite (takeChildren inside) (pure trivial)

theorem checkAttach {parent : NodeId} (inside : parent ∈ scope.region) (checkCycles : Bool)
    (ids : List NodeId) :
    Confined scope (EditM.query fun forest => forest.checkAttach checkCycles parent ids)
      fun _ => True :=
  query (fun _ _ relates => relates.checkAttach checkCycles inside ids) fun _ _ _ _ _ => trivial

theorem childAt {tree : NodeId} (inside : tree ∈ scope.region) (position : Nat) :
    Confined scope (EditM.query fun forest => forest.childAt tree position)
      fun child => child ∈ scope.region :=
  query (fun _ _ relates => relates.childAt inside position)
    fun _ _ relates _ => relates.mem_of_childAt inside

/-- What a parent receives lies in the region together with the node that brings it. -/
theorem mem_of_incoming {id : NodeId} {node : Node} (inside : id ∈ scope.region)
    (within : node.Within scope.region) : ∀ other ∈ node.incoming id, other ∈ scope.region := by
  intro other member
  unfold Node.incoming at member
  split_ifs at member
  · exact within.children other member
  · rw [List.mem_singleton.mp member]
    exact inside

theorem addChild {tree child : NodeId} (checkCycles : Bool) (inside : tree ∈ scope.region)
    (insideChild : child ∈ scope.region) :
    Confined scope (EditM.addChild checkCycles tree child) fun _ => True := by
  apply ite (refuse _)
  apply (fetch insideChild).bind
  intro node within
  apply (checkAttach inside checkCycles _).bind
  intro _ _
  apply (release insideChild node).bind
  intro _ _
  exact appendEach inside (mem_of_incoming insideChild within)

theorem setParent {id : NodeId} {parent : Option NodeId} (checkCycles : Bool)
    (inside : id ∈ scope.region) (insideParent : ∀ other ∈ parent.toList, other ∈ scope.region) :
    Confined scope (EditM.setParent checkCycles id parent) fun _ => True := by
  cases parent with
  | none => exact detach inside
  | some parent =>
      have insideParent := insideParent parent List.mem_cons_self
      apply (fetch inside).bind
      intro node _
      apply ite (refuse _)
      apply (checkAttach insideParent checkCycles _).bind
      intro _ _
      exact append insideParent inside

theorem becomeRoot {newRoot : NodeId} {oldRoot : Option NodeId} (checkCycles : Bool)
    (inside : newRoot ∈ scope.region) (insideOld : ∀ other ∈ oldRoot.toList, other ∈ scope.region) :
    Confined scope (EditM.becomeRoot checkCycles newRoot oldRoot) fun root =>
      root ∈ scope.region := by
  cases oldRoot with
  | none => exact pure inside
  | some oldRoot =>
      have insideOld := insideOld oldRoot List.mem_cons_self
      have chosen : Confined scope (EditM.query fun forest => forest.effectiveRoot newRoot)
          fun root => root ∈ scope.region :=
        query (fun _ _ relates => relates.effectiveRoot inside)
          fun _ _ relates _ => relates.mem_of_effectiveRoot inside
      apply chosen.bind
      intro root insideRoot
      apply (fetch insideOld).bind
      intro node within
      apply (checkAttach insideRoot checkCycles _).bind
      intro _ _
      apply (ite (pure trivial) (takeChildren inside)).bind
      intro _ _
      apply (release insideOld node).bind
      intro _ _
      apply (appendEach insideRoot (mem_of_incoming insideOld within)).bind
      intro _ _
      exact pure insideRoot

theorem becomeRootToken {oldRoot : Option NodeId} (checkCycles : Bool) (token : Token)
    (roomy : scope.Open) (insideOld : ∀ other ∈ oldRoot.toList, other ∈ scope.region) :
    Confined scope (EditM.becomeRootToken checkCycles token oldRoot) fun root =>
      root ∈ scope.region := by
  apply (allocate roomy Node.within_of_unlinked).bind
  intro newRoot inside
  exact becomeRoot checkCycles inside insideOld

theorem unwrapRoot {root : NodeId} (inside : root ∈ scope.region) :
    Confined scope (EditM.unwrapRoot root) fun _ => True := by
  apply (fetch inside).bind
  intro node within
  apply ite _ (pure trivial)
  split
  · exact pure trivial
  · next single only =>
      have insideSingle : single ∈ scope.region := within.children single (by simp [only])
      exact (detach insideSingle).bind fun _ _ => pure trivial
  · exact pure trivial

theorem setChild {tree child : NodeId} (checkCycles : Bool) (inside : tree ∈ scope.region)
    (position : Nat) (insideChild : child ∈ scope.region) :
    Confined scope (EditM.setChild checkCycles tree position child) fun _ => True := by
  apply (childAt inside position).bind
  intro displaced insideDisplaced
  apply (fetch insideChild).bind
  intro node _
  apply ite (refuse _)
  apply (checkAttach inside checkCycles _).bind
  intro _ _
  apply ite (pure trivial)
  apply (detach insideChild).bind
  intro _ _
  apply (putAt inside insideChild _).bind
  intro _ _
  apply (unplace insideDisplaced).bind
  intro _ _
  exact place insideChild inside _

theorem deleteChild {tree : NodeId} (inside : tree ∈ scope.region) (position : Nat) :
    Confined scope (EditM.deleteChild tree position) fun _ => True := by
  apply (childAt inside position).bind
  intro child insideChild
  exact (detach insideChild).bind fun _ _ => pure trivial

theorem setPosition {id : NodeId} (inside : id ∈ scope.region) (position : Nat) :
    Confined scope (EditM.setPosition id position) fun _ => True := by
  apply (fetch inside).bind
  intro node within
  split
  · next parent current above _ =>
      have insideParent := within.parent parent above
      apply (childAt insideParent position).bind
      intro _ _
      apply (removeAt insideParent current).bind
      intro moved insideMoved
      apply (insertAt insideParent insideMoved position).bind
      intro _ _
      exact renumber insideParent _
  · exact refuse _

theorem replaceChildren {parent replacement : NodeId} (checkCycles : Bool)
    (inside : parent ∈ scope.region) (start stop : Nat) (insideNew : replacement ∈ scope.region) :
    Confined scope (EditM.replaceChildren checkCycles parent start stop replacement)
      fun _ => True := by
  apply (fetch inside).bind
  intro node within
  apply ite (refuse _)
  apply ite (refuse _)
  apply (fetch insideNew).bind
  intro source withinSource
  have insideEach := mem_of_incoming insideNew withinSource
  apply (checkAttach inside checkCycles _).bind
  intro _ _
  apply (release insideNew source).bind
  intro _ _
  have counted : Confined scope
      (EditM.query fun forest => forest.countBefore parent start (source.incoming replacement))
      fun _ => True :=
    query (fun _ _ relates => relates.countBefore parent start insideEach) fun _ _ _ _ _ => trivial
  apply counted.bind
  intro shift _
  apply (detachEach fun id member => insideEach id (List.mem_of_mem_filter member)).bind
  intro _ _
  apply (ite (fail _) (pure trivial) : Confined scope (EditM.shiftDown start shift)
    fun _ => True).bind
  intro first _
  apply (splice inside insideEach first _).bind
  intro _ _
  refine (unplaceEach fun id member => within.children id ?_).bind fun _ _ => renumber inside 0
  exact List.mem_of_mem_drop (List.mem_of_mem_take (List.mem_of_mem_filter member))

theorem updateToken {id : NodeId} (inside : id ∈ scope.region) (change : Token → Token) :
    Confined scope (EditM.updateToken id change) fun _ => True := by
  apply (fetch inside).bind
  intro node _
  split
  · exact update inside fun _ within => ⟨within.children, within.parent⟩
  · exact refuse _
  · exact refuse _

theorem setBoundaries {id : NodeId} (inside : id ∈ scope.region) (start stop : Option Token) :
    Confined scope (EditM.setBoundaries id start stop) fun _ => True :=
  update inside fun _ within => ⟨within.children, within.parent⟩

theorem createError (stream : TokenStream) (start stop : Token) (diagnostic : String)
    (roomy : scope.Open) :
    Confined scope (EditM.createError stream start stop diagnostic) fun id =>
      id ∈ scope.region := by
  unfold EditM.createError
  split
  · exact refuse _
  · exact allocate roomy Node.within_of_unlinked

/-- The original is only looked at. -/
theorem copyNode {id : NodeId} (visible : id ∈ scope.visible) (roomy : scope.Open) :
    Confined scope (EditM.copyNode id) fun copy => copy ∈ scope.region := by
  apply (fetch_visible visible).bind
  intro node _
  exact allocate roomy Node.within_of_unlinked

section Copies

variable {sources : Set NodeId} (subset : sources ⊆ scope.visible)
  (reads : ∀ id ∈ sources, Confined scope (EditM.fetch id)
    fun node => ∀ child ∈ node.children, child ∈ sources)
  (roomy : scope.Open)

include subset reads roomy

theorem copyChildrenFrom {source copy : NodeId} (known : source ∈ sources)
    (inside : copy ∈ scope.region) (position count : Nat) :
    Confined scope (EditM.copyChildrenFrom source copy position count)
      fun pairs => ∀ pair ∈ pairs, pair.1 ∈ sources ∧ pair.2 ∈ scope.region := by
  induction count generalizing position with
  | zero => exact pure fun _ absent => absurd absent List.not_mem_nil
  | succ count ih =>
      apply (reads source known).bind
      intro node below
      split
      · exact fail _
      · next child listed =>
          have knownChild := below child (List.mem_of_getElem? listed)
          apply (copyNode (subset knownChild) roomy).bind
          intro childCopy insideCopy
          apply (append inside insideCopy).bind
          intro _ _
          apply (ih (position + 1)).bind
          intro pairs waits
          exact pure (List.forall_mem_cons.mpr ⟨⟨knownChild, insideCopy⟩, waits⟩)

theorem copyChildren {source copy : NodeId} (known : source ∈ sources)
    (inside : copy ∈ scope.region) : Confined scope (EditM.copyChildren source copy)
      fun pairs => ∀ pair ∈ pairs, pair.1 ∈ sources ∧ pair.2 ∈ scope.region :=
  (reads source known).bind fun _ _ => copyChildrenFrom subset reads roomy known inside 0 _

/-- The pairs that wait lead from known nodes into the region. The induction is on the work in the
first forest, and the second forest keeps step with it. -/
theorem copyPending {pending : List (NodeId × NodeId)}
    (waits : ∀ pair ∈ pending, pair.1 ∈ sources ∧ pair.2 ∈ scope.region) :
    Confined scope (EditM.copyPending pending) fun _ => True := by
  intro first second relates
  induction pending, first using EditM.copyPending.induct generalizing second with
  | case1 first =>
      rw [copyPending_nil]
      exact pure trivial first second relates
  | case2 source copy rest first pairs middle ran ih =>
      rw [List.forall_mem_cons] at waits
      rw [copyPending_cons]
      cases copyChildren subset reads roomy waits.1.1 waits.1.2 first second relates with
      | error stopped _ _ _ =>
          rw [ran] at stopped
          contradiction
      | ok ranFirst ranSecond holds relatesNext spares =>
          rw [ran] at ranFirst
          cases ranFirst
          apply Mirrors.bind_ok ran ranSecond spares
          apply ih _ _ relatesNext
          intro pair member
          rcases List.mem_append.mp member with new | old
          · exact holds pair (List.mem_reverse.mp new)
          · exact waits.2 pair old
  | case3 source copy rest first stop middle stopped =>
      rw [List.forall_mem_cons] at waits
      rw [copyPending_cons]
      cases copyChildren subset reads roomy waits.1.1 waits.1.2 first second relates with
      | ok ran _ _ _ _ =>
          rw [stopped] at ran
          contradiction
      | error stoppedFirst stoppedSecond relatesAfter spares =>
          exact .error (bind_error stoppedFirst) (bind_error stoppedSecond) relatesAfter spares

/-- A tree is copied into the region, wherever it can be seen. -/
theorem copyTree {id : NodeId} (known : id ∈ sources) :
    Confined scope (EditM.copyTree id) fun copy => copy ∈ scope.region := by
  apply (copyNode (subset known) roomy).bind
  intro copy inside
  have waits : ∀ pair ∈ [(id, copy)], pair.1 ∈ sources ∧ pair.2 ∈ scope.region := by
    simpa using ⟨known, inside⟩
  apply (copyPending subset reads roomy waits).bind
  intro _ _
  exact pure inside

end Copies

end EditM.Confined

namespace Edit

open EditM

/-- An edit is confined to every region that holds the handles it names, and that new nodes join if
it creates any. -/
theorem confined {scope : Scope} (checkCycles : Bool) (edit : Edit)
    (named : ∀ id ∈ edit.handles, id ∈ scope.region)
    (roomy : edit.allocates = true → scope.Open) :
    (edit.apply checkCycles).Confined scope fun _ => True := by
  cases edit with
  | create token => exact (Confined.allocate (roomy rfl) Node.within_of_unlinked).map _
  | createOfKind kind token => exact (Confined.allocate (roomy rfl) Node.within_of_unlinked).map _
  | createWithText kind token text =>
      exact (Confined.allocate (roomy rfl) Node.within_of_unlinked).map _
  | createImaginary kind text => exact (Confined.allocate (roomy rfl) Node.within_of_unlinked).map _
  | createNil => exact (Confined.allocate (roomy rfl) Node.within_of_unlinked).map _
  | createError stream start stop diagnostic =>
      exact (Confined.createError stream start stop diagnostic (roomy rfl)).map _
  | copyNode node =>
      exact (Confined.copyNode (scope.subset (named node List.mem_cons_self)) (roomy rfl)).map _
  | copyTree tree =>
      have reads : ∀ id ∈ scope.region, Confined scope (EditM.fetch id)
          fun node => ∀ child ∈ node.children, child ∈ scope.region :=
        fun id inside => (Confined.fetch inside).mono fun _ within => within.children
      exact (Confined.copyTree scope.subset reads (roomy rfl) (named tree List.mem_cons_self)).map _
  | addChild tree child =>
      exact (Confined.addChild checkCycles (named tree (by simp [handles]))
        (named child (by simp [handles]))).map _
  | becomeRoot newRoot oldRoot =>
      obtain ⟨inside, insideOld⟩ := List.forall_mem_cons.mp named
      exact (Confined.becomeRoot checkCycles inside insideOld).map _
  | becomeRootToken token oldRoot =>
      exact (Confined.becomeRootToken checkCycles token (roomy rfl) named).map _
  | unwrapRoot root => exact (Confined.unwrapRoot (named root List.mem_cons_self)).map _
  | setChild tree position child =>
      exact (Confined.setChild checkCycles (named tree (by simp [handles])) position
        (named child (by simp [handles]))).map _
  | deleteChild tree position =>
      exact (Confined.deleteChild (named tree List.mem_cons_self) position).map _
  | setParent node parent =>
      obtain ⟨inside, insideParent⟩ := List.forall_mem_cons.mp named
      exact (Confined.setParent checkCycles inside insideParent).map _
  | setPosition node position =>
      exact (Confined.setPosition (named node List.mem_cons_self) position).map _
  | replaceChildren parent start stop replacement =>
      exact (Confined.replaceChildren checkCycles (named parent (by simp [handles])) start stop
        (named replacement (by simp [handles]))).map _
  | setKind node kind => exact (Confined.updateToken (named node List.mem_cons_self) _).map _
  | setText node text => exact (Confined.updateToken (named node List.mem_cons_self) _).map _
  | setBoundaries tree start stop =>
      exact (Confined.setBoundaries (named tree List.mem_cons_self) start stop).map _

end Edit

end SyntaxForest
