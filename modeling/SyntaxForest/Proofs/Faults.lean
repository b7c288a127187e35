import SyntaxForest.Proofs.Soundness
import SyntaxForest.Proofs.Walks

/-!
Faults. A walk over a linked forest finds every node that the links lead to. So while there is room
for new nodes, a fault can only come from a handle that the caller named and that the forest does not
hold. In a forest that becomes full a fault may also say so.
-/

namespace SyntaxForest

namespace Forest

variable {forest : Forest} {handles : List NodeId}

theorem Blames.findM? {α : Type} {ask : α → Except Stop Bool} {items : List α}
    (blames : ∀ item ∈ items, forest.Blames handles (ask item)) :
    forest.Blames handles (items.findM? ask) := by
  induction items with
  | nil => exact .ok none
  | cons item rest ih =>
      rw [List.findM?]
      apply Blames.bind (blames item List.mem_cons_self)
      intro passed _
      split
      · exact .ok (some item)
      · exact ih fun other member => blames other (List.mem_cons_of_mem _ member)

theorem Linked.blames_ancestors (linked : forest.Linked) {id : NodeId} (listed : id ∈ handles) :
    forest.Blames handles (forest.ancestors id) := by
  apply Blames.bind (linked.blames_ancestorsUpTo _ (.inr listed))
  intro above _
  split_ifs
  · exact .endless
  · exact .ok above

theorem Linked.blames_nearestAncestor? (linked : forest.Linked) {id : NodeId}
    (listed : id ∈ handles) (test : Node → Bool) :
    forest.Blames handles (forest.nearestAncestor? id test) := by
  apply Blames.bind (linked.blames_ancestorsUpTo _ (.inr listed))
  intro above walked
  obtain ⟨node, _, climbed⟩ := answer_of_bind walked
  apply Blames.bind
  · apply Blames.findM?
    intro ancestor member
    exact (forest.blames_fetch (.inl (reaches_of_climb climbed ancestor member).1)).map test
  · intro found _
    split_ifs
    · exact .endless
    · exact .ok found

theorem Linked.blames_firstChildOfKind? (linked : forest.Linked) {id : NodeId}
    (listed : id ∈ handles) (kind : Kind) :
    forest.Blames handles (forest.firstChildOfKind? id kind) := by
  apply Blames.bind (forest.blames_fetch (.inr listed))
  intro node fetched
  apply Blames.findM?
  intro child member
  rw [← childrenOf_eq (get?_of_fetch fetched)] at member
  apply Blames.bind (forest.blames_fetch (.inl (linked.solid_of_mem member).holds))
  intro record _
  exact .ok _

theorem Linked.blames_render (linked : forest.Linked) {id : NodeId} (listed : id ∈ handles) :
    forest.Blames handles (forest.render id) := by
  apply Blames.bind (linked.blames_subtreeWithin _ (.inr listed))
  intro tree _
  exact .ok _

theorem blames_defectAmong? (parent : NodeId) {position : Nat} {children : List NodeId}
    (held : ∀ child ∈ children, forest.Holds child) :
    forest.Blames handles (forest.defectAmong? parent position children) := by
  induction children generalizing position with
  | nil => exact .ok none
  | cons child rest ih =>
      rw [defectAmong?]
      apply Blames.bind (forest.blames_fetch (.inl (held child List.mem_cons_self)))
      intro record _
      split
      · exact .ok _
      · exact ih fun other member => held other (List.mem_cons_of_mem _ member)

/-- The waiting nodes are the one that the caller named and nodes that links lead to. -/
theorem Linked.blames_inspectWithin (linked : forest.Linked) {visits : Nat} {waiting : List NodeId}
    (listed : ∀ id ∈ waiting, forest.Holds id ∨ id ∈ handles) :
    forest.Blames handles (forest.inspectWithin visits waiting) := by
  induction visits generalizing waiting with
  | zero =>
      cases waiting with
      | nil => exact .ok _
      | cons id rest => exact .endless
  | succ visits ih =>
      cases waiting with
      | nil => exact .ok _
      | cons id rest =>
          rw [inspectWithin]
          apply Blames.bind (forest.blames_fetch (listed id List.mem_cons_self))
          intro node fetched
          have held : ∀ child ∈ node.children, forest.Holds child := by
            intro child member
            rw [← childrenOf_eq (get?_of_fetch fetched)] at member
            exact (linked.solid_of_mem member).holds
          apply Blames.bind (blames_defectAmong? id held)
          intro finding _
          split
          · exact .ok _
          · apply Blames.bind
            · apply ih
              intro other member
              rcases List.mem_append.mp member with below | later
              · exact .inl (held other (List.mem_reverse.mp below))
              · exact listed other (List.mem_cons_of_mem _ later)
            · intro inspection _
              exact .ok _

theorem Linked.blames_verify (linked : forest.Linked) {root : NodeId} (listed : root ∈ handles) :
    forest.Blames handles (forest.verify root) := by
  apply Blames.bind
  · apply linked.blames_inspectWithin
    intro id member
    rw [List.mem_singleton.mp member]
    exact .inr listed
  · intro inspection _
    split
    · exact .refused _
    · exact .ok ()

end Forest

namespace Query

/-- The handles that a query names. -/
def handles : Query → List NodeId
  | .size => []
  | .isNil id | .childAt id _ | .childCount id | .children id | .parent id | .position id
  | .kind id | .text id | .token id | .errorSpan id | .startIndex id | .stopIndex id
  | .ancestors id | .ancestorsUpTo _ id | .ancestorOfKind id _ | .hasAncestorOfKind id _
  | .firstChildOfKind id _ | .render id | .verify id => [id]
  | .sameContent first second => [first, second]
  | .isAncestorOrSelf candidate id => [candidate, id]

/-- Every fault of a query is due to a handle that the caller named. -/
theorem blames_answer {forest : Forest} (linked : forest.Linked) (query : Query) :
    forest.Blames query.handles (query.answer forest) := by
  have reads : ∀ {handles : List NodeId} {id : NodeId} (change : Node → Reply), id ∈ handles →
      forest.Blames handles (change <$> forest.fetch id) := by
    intro handles id change listed
    exact (forest.blames_fetch (.inr listed)).map change
  cases query with
  | size => exact .ok _
  | isNil node => exact reads _ List.mem_cons_self
  | childAt tree position =>
      exact (forest.blames_childAt (.inr List.mem_cons_self) position).map _
  | childCount tree => exact reads _ List.mem_cons_self
  | children tree => exact reads _ List.mem_cons_self
  | parent node => exact reads _ List.mem_cons_self
  | position node => exact reads _ List.mem_cons_self
  | kind node => exact reads _ List.mem_cons_self
  | text node => exact reads _ List.mem_cons_self
  | token node => exact reads _ List.mem_cons_self
  | errorSpan node => exact reads _ List.mem_cons_self
  | startIndex tree => exact reads _ List.mem_cons_self
  | stopIndex tree => exact reads _ List.mem_cons_self
  | sameContent first second =>
      apply Forest.Blames.bind (forest.blames_fetch (.inr List.mem_cons_self))
      intro one _
      apply Forest.Blames.bind (forest.blames_fetch (.inr (by simp)))
      intro other _
      exact .ok _
  | ancestors node => exact (linked.blames_ancestors List.mem_cons_self).map _
  | ancestorsUpTo limit node =>
      exact (linked.blames_ancestorsUpTo limit (.inr List.mem_cons_self)).map _
  | ancestorOfKind node wanted =>
      exact (linked.blames_nearestAncestor? List.mem_cons_self _).map _
  | hasAncestorOfKind node wanted =>
      exact (linked.blames_nearestAncestor? List.mem_cons_self _).map _
  | firstChildOfKind tree wanted =>
      exact (linked.blames_firstChildOfKind? List.mem_cons_self wanted).map _
  | isAncestorOrSelf candidate node =>
      exact (linked.blames_isAncestorOrSelf candidate (.inr (by simp [handles]))).map _
  | render tree => exact (linked.blames_render List.mem_cons_self).map _
  | verify root => exact (linked.blames_verify List.mem_cons_self).map _

end Query

/-- The handles that a request names. -/
def Request.handles : Request → List NodeId
  | .edit change => change.handles
  | .query question => question.handles
  | .serial node => [node]

namespace EditM

variable {α : Type} {before after : Forest} {handles : List NodeId}

/-- An edit that creates no nodes does not run out of handles. -/
theorem Ensures.ne_full {edit : EditM α} {post : α → Forest → Prop}
    (ensured : edit.Ensures before handles post) :
    edit before ≠ .error (.fault .outOfHandles) after := by
  intro stopped
  obtain ⟨_, id, _, named, _⟩ := ensured.blame stopped
  contradiction

/-- With room for one more node a single node can be created. -/
theorem Creates.ne_full {edit : EditM α} {post : α → Forest → Prop}
    (creates : edit.Creates before 1 post) (room : before.size < Forest.capacity) :
    edit before ≠ .error (.fault .outOfHandles) after := by
  obtain ⟨value, forest, ran, _⟩ := creates.room (by rw [Forest.limit]; omega)
  rw [ran]
  simp

theorem createError_ne_full (room : before.size < Forest.capacity) (stream : TokenStream)
    (start stop : Token) (diagnostic : String) :
    createError stream start stop diagnostic before ≠ .error (.fault .outOfHandles) after := by
  have refused : Ensures (refuse .nodeStream : EditM NodeId) before [] fun _ _ => True :=
    .refuse .nodeStream
  rw [createError]
  cases stream.kind with
  | nodes => exact refused.ne_full
  | tokens => exact (allocate_creates _).ne_full room

theorem copyNode_ne_full (room : before.size < Forest.capacity) (id : NodeId) :
    copyNode id before ≠ .error (.fault .outOfHandles) after := by
  by_cases held : before.Holds id
  · obtain ⟨node, found⟩ := (before.holds_iff id).mp held
    exact (copyNode_creates found).ne_full room
  · rw [copyNode_missing held]
    simp

theorem becomeRootToken_ne_full (linked : before.Linked) (room : before.size < Forest.capacity)
    (checkCycles : Bool) (token : Token) (oldRoot : Option NodeId) :
    becomeRootToken checkCycles token oldRoot before ≠ .error (.fault .outOfHandles) after := by
  have pushed : (before.push { content := .token token }).Linked := linked.push rfl rfl rfl
  rw [becomeRootToken, create, bind_ok (allocate_ok room _)]
  exact (becomeRoot_follows pushed ⟨before.size⟩ oldRoot).ne_full

end EditM

namespace Edit

open EditM

/-- With room for one more node only the copy of a tree can run out of handles. -/
theorem copyTree_of_full {before after : Forest} (linked : before.Linked)
    (room : before.size < Forest.capacity) {checkCycles : Bool} {edit : Edit}
    (stopped : edit.apply checkCycles before = .error (.fault .outOfHandles) after) :
    ∃ tree, edit = .copyTree tree := by
  cases edit with
  | copyTree tree => exact ⟨tree, rfl⟩
  | create | createOfKind | createWithText | createImaginary | createNil =>
      exact absurd (error_of_map stopped) ((allocate_creates _).ne_full room)
  | createError stream start stop diagnostic =>
      exact absurd (error_of_map stopped) (createError_ne_full room stream start stop diagnostic)
  | copyNode node => exact absurd (error_of_map stopped) (copyNode_ne_full room node)
  | becomeRootToken token oldRoot =>
      exact absurd (error_of_map stopped)
        (becomeRootToken_ne_full linked room checkCycles token oldRoot)
  | addChild | becomeRoot | unwrapRoot | setChild | deleteChild | setParent | setPosition
  | replaceChildren | setKind | setText | setBoundaries =>
      exact absurd stopped (apply_ensures linked checkCycles rfl).ne_full

end Edit

namespace Builder

variable {builder after : Builder}

/-- Every fault of a sound builder is due to a handle that the caller named, or to a full forest. -/
theorem Sound.blame (sound : builder.Sound) {request : Request} {fault : Fault}
    (stopped : builder.perform request = (.error (.fault fault), after)) :
    (∃ id ∈ request.handles, fault = .missingNode id after.forest.size ∧
        builder.forest.size ≤ after.forest.size ∧ ¬ after.forest.Holds id) ∨
      fault = .outOfHandles ∧ after.forest.size = builder.forest.limit ∧
        (builder.forest.size < Forest.capacity → ∃ tree, request = .edit (.copyTree tree)) := by
  cases request with
  | edit edit =>
      obtain ⟨ran, _⟩ := apply_of_stop stopped
      obtain ⟨grown, ⟨id, named, same, missing⟩ | ⟨rfl, full⟩⟩ :=
        (edit.apply_grows sound.linked builder.options.checkCycles).blame ran
      · exact .inl ⟨id, named, same, grown.1, missing⟩
      · refine .inr ⟨rfl, full, fun room => ?_⟩
        obtain ⟨tree, rfl⟩ := edit.copyTree_of_full sound.linked room ran
        exact ⟨tree, rfl⟩
  | query query =>
      have answered : query.answer builder.forest = .error (.fault fault) :=
        congrArg Prod.fst stopped
      have same : builder = after := congrArg Prod.snd stopped
      rw [← same]
      obtain ⟨id, named, missing⟩ := query.blames_answer sound.linked fault answered
      exact .inl ⟨id, named, missing.1, Nat.le_refl _, missing.2⟩
  | serial node =>
      have answered := congrArg Prod.fst stopped
      contradiction

end Builder

end SyntaxForest
