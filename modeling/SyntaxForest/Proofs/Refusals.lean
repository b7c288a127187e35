import SyntaxForest.Proofs.Ensures
import SyntaxForest.Proofs.Runs

/-!
Refusals. All tests of an edit come before its first change, and the steps that change the forest
never refuse, so a refused edit leaves the forest as it found it. The one exception creates its new
root before anything is tested.
-/

namespace SyntaxForest

/-- The answer is no refusal. -/
def Unrefused {α : Type} (answer : Except Stop α) : Prop :=
  ∀ refusal, answer ≠ .error (.refused refusal)

theorem Unrefused.bind {α β : Type} {first : Except Stop α} {next : α → Except Stop β}
    (unrefused : Unrefused first) (later : ∀ value, Unrefused (next value)) :
    Unrefused (first >>= next) := by
  intro refusal refused
  cases first with
  | ok value => exact later value refusal refused
  | error stop =>
      apply unrefused refusal
      simpa [Bind.bind, Except.bind] using refused

theorem Unrefused.mapM {α β : Type} {ask : α → Except Stop β} (items : List α)
    (unrefused : ∀ item, Unrefused (ask item)) : Unrefused (items.mapM ask) := by
  induction items with
  | nil => simp [Unrefused, Pure.pure, Except.pure]
  | cons item rest ih =>
      rw [List.mapM_cons]
      apply (unrefused item).bind
      intro value
      apply ih.bind
      intro values refusal refused
      contradiction

theorem Forest.unrefused_fetch (forest : Forest) (id : NodeId) : Unrefused (forest.fetch id) := by
  intro refusal refused
  unfold fetch at refused
  split at refused <;> simp at refused

theorem Forest.unrefused_countBefore (forest : Forest) (parent : NodeId) (start : Nat)
    (ids : List NodeId) : Unrefused (forest.countBefore parent start ids) := by
  apply Unrefused.bind (.mapM ids forest.unrefused_fetch)
  intro nodes refusal refused
  contradiction

namespace EditM

variable {α β : Type}

/-- A settled edit never refuses. -/
def Settled (edit : EditM α) : Prop :=
  ∀ before after refusal, edit before ≠ .error (.refused refusal) after

/-- A guarded edit leaves the forest unchanged when it refuses. -/
def Guarded (edit : EditM α) : Prop :=
  ∀ before after refusal, edit before = .error (.refused refusal) after → after = before

theorem Settled.guarded {edit : EditM α} (settled : edit.Settled) : edit.Guarded :=
  fun before after refusal refused => absurd refused (settled before after refusal)

theorem settled_pure (value : α) : Settled (pure value) := by
  intro before after refusal refused
  contradiction

theorem settled_query {question : Forest → Except Stop α}
    (unrefused : ∀ forest, Unrefused (question forest)) : (query question).Settled := by
  intro before after refusal refused
  cases answered : question before with
  | ok value =>
      rw [query_ok answered] at refused
      contradiction
  | error stop =>
      rw [query_error answered] at refused
      cases refused
      exact unrefused before refusal answered

theorem Settled.bind {first : EditM α} {next : α → EditM β} (settled : first.Settled)
    (later : ∀ value, (next value).Settled) : (first >>= next).Settled := by
  intro before after refusal refused
  cases ran : first before with
  | ok value middle =>
      rw [bind_ok ran] at refused
      exact later value middle after refusal refused
  | error stop middle =>
      rw [bind_error ran] at refused
      cases refused
      exact settled before after refusal ran

theorem Settled.ite {condition : Prop} [Decidable condition] {first second : EditM α}
    (one : first.Settled) (other : second.Settled) :
    (if condition then first else second).Settled := by
  split_ifs
  · exact one
  · exact other

theorem guarded_refuse (refusal : Refusal) : (refuse refusal : EditM α).Guarded := by
  rintro before after other ⟨⟩
  rfl

/-- A question may refuse before anything has changed. -/
theorem guarded_query_bind {question : Forest → Except Stop α} {next : α → EditM β}
    (later : ∀ value, (next value).Guarded) : (query question >>= next).Guarded := by
  intro before after refusal refused
  cases answered : question before with
  | ok value =>
      rw [bind_ok (query_ok answered)] at refused
      exact later value before after refusal refused
  | error stop =>
      rw [bind_error (query_error answered)] at refused
      cases refused
      rfl

theorem error_of_map {edit : EditM α} {change : α → β} {before after : Forest} {stop : Stop}
    (stopped : (change <$> edit) before = .error stop after) :
    edit before = .error stop after := by
  rw [map_eq_pure_bind] at stopped
  cases ran : edit before with
  | ok value middle =>
      rw [bind_ok ran] at stopped
      contradiction
  | error other middle =>
      rw [bind_error ran] at stopped
      cases stopped
      rfl

theorem ok_of_map {edit : EditM α} {change : α → β} {before after : Forest} {reply : β}
    (ran : (change <$> edit) before = .ok reply after) :
    ∃ value, edit before = .ok value after ∧ reply = change value := by
  rw [map_eq_pure_bind] at ran
  cases ended : edit before with
  | ok value middle =>
      rw [bind_ok ended] at ran
      cases ran
      exact ⟨value, rfl, rfl⟩
  | error stop middle =>
      rw [bind_error ended] at ran
      contradiction

theorem map_ok {edit : EditM α} {before after : Forest} {value : α}
    (ran : edit before = .ok value after) (change : α → β) :
    (change <$> edit) before = .ok (change value) after := by
  rw [map_eq_pure_bind, bind_ok ran]
  rfl

theorem map_error {edit : EditM α} {before after : Forest} {stop : Stop}
    (stopped : edit before = .error stop after) (change : α → β) :
    (change <$> edit) before = .error stop after := by
  rw [map_eq_pure_bind, bind_error stopped]

theorem Guarded.map {edit : EditM α} (guarded : edit.Guarded) (change : α → β) :
    (change <$> edit).Guarded :=
  fun before after refusal refused => guarded before after refusal (error_of_map refused)

section Steps

theorem settled_fail (fault : Fault) : (fail fault : EditM α).Settled := by
  rintro before after refusal ⟨⟩

theorem settled_fetch (id : NodeId) : (fetch id).Settled :=
  settled_query fun forest => forest.unrefused_fetch id

theorem settled_update (id : NodeId) (change : Node → Node) : (update id change).Settled := by
  intro before after refusal refused
  unfold update at refused
  split at refused <;> simp at refused

theorem settled_allocate (node : Node) : (allocate node).Settled := by
  intro before after refusal refused
  unfold allocate at refused
  split at refused <;> simp at refused

theorem settled_unplaceEach (ids : List NodeId) : (unplaceEach ids).Settled := by
  induction ids with
  | nil => exact settled_pure ()
  | cons id rest ih => exact (settled_update id _).bind fun _ => ih

theorem settled_placeEach (parent : NodeId) (position : Nat) (ids : List NodeId) :
    (placeEach parent position ids).Settled := by
  induction ids generalizing position with
  | nil => exact settled_pure ()
  | cons id rest ih => exact (settled_update id _).bind fun _ => ih (position + 1)

theorem settled_renumber (parent : NodeId) (position : Nat) : (renumber parent position).Settled :=
  (settled_fetch parent).bind fun _ => settled_placeEach parent position _

theorem settled_removeAt (parent : NodeId) (position : Nat) :
    (removeAt parent position).Settled := by
  apply (settled_fetch parent).bind
  intro node
  split
  · exact settled_fail _
  · exact (settled_update parent _).bind fun _ => settled_pure _

theorem settled_insertAt (parent : NodeId) (position : Nat) (child : NodeId) :
    (insertAt parent position child).Settled :=
  (settled_fetch parent).bind fun _ => .ite (settled_fail _) (settled_update parent _)

theorem settled_putAt (parent : NodeId) (position : Nat) (child : NodeId) :
    (putAt parent position child).Settled :=
  (settled_fetch parent).bind fun _ => .ite (settled_fail _) (settled_update parent _)

theorem settled_splice (parent : NodeId) (position count : Nat) (incoming : List NodeId) :
    (splice parent position count incoming).Settled :=
  (settled_fetch parent).bind fun _ => .ite (settled_fail _) (settled_update parent _)

theorem settled_detach (id : NodeId) : (detach id).Settled := by
  apply (settled_fetch id).bind
  intro node
  split
  · next parent position _ _ =>
      apply (settled_removeAt parent position).bind
      intro _
      apply (settled_renumber parent position).bind
      intro _
      exact settled_update id _
  · exact settled_pure ()

theorem settled_detachEach (ids : List NodeId) : (detachEach ids).Settled := by
  induction ids with
  | nil => exact settled_pure ()
  | cons id rest ih => exact (settled_detach id).bind fun _ => ih

theorem settled_append (parent child : NodeId) : (append parent child).Settled := by
  apply (settled_detach child).bind
  intro _
  apply (settled_fetch parent).bind
  intro node
  apply (settled_update parent _).bind
  intro _
  exact settled_update child _

theorem settled_appendEach (parent : NodeId) (ids : List NodeId) :
    (appendEach parent ids).Settled := by
  induction ids with
  | nil => exact settled_pure ()
  | cons id rest ih => exact (settled_append parent id).bind fun _ => ih

theorem settled_takeChildren (id : NodeId) : (takeChildren id).Settled := by
  apply (settled_fetch id).bind
  intro node
  exact (settled_update id _).bind fun _ => settled_unplaceEach node.children

theorem settled_release (id : NodeId) (node : Node) : (release id node).Settled :=
  .ite (settled_takeChildren id) (settled_pure ())

theorem settled_shiftDown (position shift : Nat) : (shiftDown position shift).Settled :=
  .ite (settled_fail _) (settled_pure _)

theorem settled_copyNode (id : NodeId) : (copyNode id).Settled :=
  (settled_fetch id).bind fun _ => settled_allocate _

theorem settled_copyChildrenFrom (source copy : NodeId) (position count : Nat) :
    (copyChildrenFrom source copy position count).Settled := by
  induction count generalizing position with
  | zero => exact settled_pure []
  | succ count ih =>
      apply (settled_fetch source).bind
      intro node
      split
      · exact settled_fail _
      · next child _ =>
          apply (settled_copyNode child).bind
          intro childCopy
          apply (settled_append copy childCopy).bind
          intro _
          exact (ih (position + 1)).bind fun _ => settled_pure _

theorem settled_copyChildren (source copy : NodeId) : (copyChildren source copy).Settled :=
  (settled_fetch source).bind fun _ => settled_copyChildrenFrom source copy 0 _

theorem settled_copyPending (pending : List (NodeId × NodeId)) :
    (copyPending pending).Settled := by
  intro before after refusal refused
  induction pending, before using copyPending.induct with
  | case1 before =>
      rw [copyPending_nil] at refused
      contradiction
  | case2 source copy rest before pairs middle ran ih =>
      rw [copyPending_cons, bind_ok ran] at refused
      exact ih refused
  | case3 source copy rest before stop middle stopped =>
      rw [copyPending_cons, bind_error stopped] at refused
      cases refused
      exact settled_copyChildren source copy before after refusal stopped

theorem settled_copyTree (id : NodeId) : (copyTree id).Settled := by
  apply (settled_copyNode id).bind
  intro copy
  exact (settled_copyPending [(id, copy)]).bind fun _ => settled_pure copy

end Steps

section Edits

variable (checkCycles : Bool)

theorem guarded_updateToken (id : NodeId) (change : Token → Token) :
    (updateToken id change).Guarded := by
  apply guarded_query_bind
  intro node
  split
  · exact (settled_update id _).guarded
  · exact guarded_refuse .noToken
  · exact guarded_refuse .noToken

theorem guarded_createError (stream : TokenStream) (start stop : Token) (diagnostic : String) :
    (createError stream start stop diagnostic).Guarded := by
  unfold createError
  split
  · exact guarded_refuse .nodeStream
  · exact (settled_allocate _).guarded

theorem guarded_addChild (tree child : NodeId) : (addChild checkCycles tree child).Guarded := by
  unfold addChild
  split_ifs
  · exact guarded_refuse .selfChild
  · apply guarded_query_bind
    intro node
    apply guarded_query_bind
    intro _
    apply Settled.guarded
    exact (settled_release child node).bind fun _ => settled_appendEach tree _

theorem guarded_setParent (id : NodeId) (parent : Option NodeId) :
    (setParent checkCycles id parent).Guarded := by
  cases parent with
  | none => exact (settled_detach id).guarded
  | some parent =>
      apply guarded_query_bind
      intro node
      split_ifs
      · exact guarded_refuse .nilChild
      · apply guarded_query_bind
        intro _
        exact (settled_append parent id).guarded

theorem guarded_becomeRoot (newRoot : NodeId) (oldRoot : Option NodeId) :
    (becomeRoot checkCycles newRoot oldRoot).Guarded := by
  cases oldRoot with
  | none => exact (settled_pure newRoot).guarded
  | some oldRoot =>
      apply guarded_query_bind
      intro root
      apply guarded_query_bind
      intro node
      apply guarded_query_bind
      intro _
      apply Settled.guarded
      apply (Settled.ite (settled_pure ()) (settled_takeChildren newRoot)).bind
      intro _
      apply (settled_release oldRoot node).bind
      intro _
      exact (settled_appendEach root _).bind fun _ => settled_pure root

theorem guarded_unwrapRoot (root : NodeId) : (unwrapRoot root).Guarded := by
  apply guarded_query_bind
  intro node
  apply Settled.guarded
  split_ifs
  · split
    · exact settled_pure none
    · next single _ => exact (settled_detach single).bind fun _ => settled_pure _
    · exact settled_pure _
  · exact settled_pure _

theorem guarded_setChild (tree : NodeId) (position : Nat) (child : NodeId) :
    (setChild checkCycles tree position child).Guarded := by
  apply guarded_query_bind
  intro displaced
  apply guarded_query_bind
  intro node
  split_ifs
  · exact guarded_refuse .nilChild
  · apply guarded_query_bind
    intro _
    exact (settled_pure ()).guarded
  · apply guarded_query_bind
    intro _
    apply Settled.guarded
    apply (settled_detach child).bind
    intro _
    apply (settled_putAt tree _ child).bind
    intro _
    apply (settled_update displaced _).bind
    intro _
    exact settled_update child _

theorem guarded_deleteChild (tree : NodeId) (position : Nat) :
    (deleteChild tree position).Guarded := by
  apply guarded_query_bind
  intro child
  apply Settled.guarded
  exact (settled_detach child).bind fun _ => settled_pure child

theorem guarded_setPosition (id : NodeId) (position : Nat) : (setPosition id position).Guarded := by
  apply guarded_query_bind
  intro node
  split
  · next parent current _ _ =>
      apply guarded_query_bind
      intro _
      apply Settled.guarded
      apply (settled_removeAt parent current).bind
      intro moved
      apply (settled_insertAt parent position moved).bind
      intro _
      exact settled_renumber parent _
  · exact guarded_refuse .noParent

theorem guarded_replaceChildren (parent : NodeId) (start stop : Nat) (replacement : NodeId) :
    (replaceChildren checkCycles parent start stop replacement).Guarded := by
  apply guarded_query_bind
  intro node
  split_ifs
  · exact guarded_refuse _
  · exact guarded_refuse .selfChild
  · apply guarded_query_bind
    intro source
    apply guarded_query_bind
    intro _
    apply Settled.guarded
    apply (settled_release replacement source).bind
    intro _
    apply (settled_query fun forest => forest.unrefused_countBefore parent start _).bind
    intro shift
    apply (settled_detachEach _).bind
    intro _
    apply (settled_shiftDown start shift).bind
    intro first
    apply (settled_splice parent first _ _).bind
    intro _
    apply (settled_unplaceEach _).bind
    intro _
    exact settled_renumber parent 0

/-- A refused change of root still leaves the new root behind. -/
theorem forest_of_becomeRootToken {before after : Forest} {token : Token}
    {oldRoot : Option NodeId} {refusal : Refusal}
    (refused : becomeRootToken checkCycles token oldRoot before =
      .error (.refused refusal) after) :
    before.size < Forest.capacity ∧ after = before.push { content := .token token } := by
  by_cases room : before.size < Forest.capacity
  · have created : create token before =
        .ok ⟨before.size⟩ (before.push { content := .token token }) := if_pos room
    rw [becomeRootToken, bind_ok created] at refused
    exact ⟨room, guarded_becomeRoot checkCycles _ oldRoot _ after refusal refused⟩
  · have stopped : create token before = .error (.fault .outOfHandles) before := if_neg room
    rw [becomeRootToken, bind_error stopped] at refused
    simp at refused

end Edits

end EditM

namespace Edit

/-- What a refused edit leaves behind. Only an edit that creates its own root changes the forest
before it can refuse. -/
def residue (forest : Forest) : Edit → Forest
  | .becomeRootToken token _ => forest.push { content := .token token }
  | _ => forest

theorem residue_eq (forest : Forest) {edit : Edit}
    (different : ∀ token oldRoot, edit ≠ .becomeRootToken token oldRoot) :
    edit.residue forest = forest := by
  unfold residue
  split
  · exact absurd rfl (different _ _)
  · rfl

theorem forest_of_refused {checkCycles : Bool} {edit : Edit} {before after : Forest}
    {refusal : Refusal}
    (refused : edit.apply checkCycles before = .error (.refused refusal) after) :
    after = edit.residue before := by
  cases edit with
  | create token => exact (EditM.settled_allocate _).guarded.map _ _ _ _ refused
  | createOfKind kind token => exact (EditM.settled_allocate _).guarded.map _ _ _ _ refused
  | createWithText kind token text => exact (EditM.settled_allocate _).guarded.map _ _ _ _ refused
  | createImaginary kind text => exact (EditM.settled_allocate _).guarded.map _ _ _ _ refused
  | createNil => exact (EditM.settled_allocate _).guarded.map _ _ _ _ refused
  | createError stream start stop diagnostic =>
      exact (EditM.guarded_createError stream start stop diagnostic).map _ _ _ _ refused
  | copyNode node => exact (EditM.settled_copyNode node).guarded.map _ _ _ _ refused
  | copyTree tree => exact (EditM.settled_copyTree tree).guarded.map _ _ _ _ refused
  | addChild tree child =>
      exact (EditM.guarded_addChild checkCycles tree child).map _ _ _ _ refused
  | becomeRoot newRoot oldRoot =>
      exact (EditM.guarded_becomeRoot checkCycles newRoot oldRoot).map _ _ _ _ refused
  | becomeRootToken token oldRoot =>
      exact (EditM.forest_of_becomeRootToken checkCycles (EditM.error_of_map refused)).2
  | unwrapRoot root => exact (EditM.guarded_unwrapRoot root).map _ _ _ _ refused
  | setChild tree position child =>
      exact (EditM.guarded_setChild checkCycles tree position child).map _ _ _ _ refused
  | deleteChild tree position =>
      exact (EditM.guarded_deleteChild tree position).map _ _ _ _ refused
  | setParent node parent =>
      exact (EditM.guarded_setParent checkCycles node parent).map _ _ _ _ refused
  | setPosition node position =>
      exact (EditM.guarded_setPosition node position).map _ _ _ _ refused
  | replaceChildren parent start stop replacement =>
      exact (EditM.guarded_replaceChildren checkCycles parent start stop replacement).map
        _ _ _ _ refused
  | setKind node kind => exact (EditM.guarded_updateToken node _).map _ _ _ _ refused
  | setText node text => exact (EditM.guarded_updateToken node _).map _ _ _ _ refused
  | setBoundaries tree start stop =>
      exact (EditM.settled_update tree _).guarded.map _ _ _ _ refused

end Edit

namespace Builder

/-- A refused request leaves the whole builder unchanged. Only the request to make a new token the
root adds one node without links to the forest before it is refused. -/
theorem unchanged_of_refused {builder after : Builder} {request : Request} {refusal : Refusal}
    (refused : builder.perform request = (.error (.refused refusal), after)) :
    ((∀ token oldRoot, request ≠ .edit (.becomeRootToken token oldRoot)) → after = builder) ∧
      ∀ token oldRoot, request = .edit (.becomeRootToken token oldRoot) →
        after = { builder with forest := builder.forest.push { content := .token token } } ∧
          after.forest.size = builder.forest.size + 1 ∧
          ∀ id, builder.forest.Holds id → after.forest.get? id = builder.forest.get? id := by
  cases request with
  | query query =>
      have same : builder = after := congrArg Prod.snd refused
      exact ⟨fun _ => same.symm, fun _ _ other => nomatch other⟩
  | serial node =>
      have stopped := congrArg Prod.fst refused
      contradiction
  | edit edit =>
      obtain ⟨ran, rest⟩ := apply_of_stop refused
      constructor
      · intro different
        rw [rest, Edit.forest_of_refused ran, Edit.residue_eq]
        intro token oldRoot same
        exact different token oldRoot (congrArg Request.edit same)
      · rintro token oldRoot ⟨⟩
        rw [rest, Edit.forest_of_refused ran, Edit.residue]
        refine ⟨rfl, builder.forest.size_push _, ?_⟩
        intro id held
        rw [Forest.get?_push, if_neg (Nat.ne_of_lt held)]

/-- A nil list whose second node lies above the tree is refused as a whole, and a new root that
would be its own child is refused after it was created. -/
theorem unchanged_of_refused_list :
    ∃ builder,
      (ofOptions {}).run? [.edit (.createImaginary 4 "a"), .edit (.createImaginary 4 "b"),
        .edit (.createImaginary 4 "c"), .edit .createNil, .edit (.addChild ⟨0⟩ ⟨1⟩),
        .edit (.addChild ⟨3⟩ ⟨2⟩), .edit (.addChild ⟨3⟩ ⟨0⟩)] = some builder ∧
      (builder.perform (.edit (.addChild ⟨1⟩ ⟨3⟩))).1 = .error (.refused .cycle) ∧
      (∀ after, builder.perform (.edit (.addChild ⟨1⟩ ⟨3⟩)) = (.error (.refused .cycle), after) →
        after = builder) ∧
      (builder.perform (.edit (.becomeRootToken (.imaginary 4 "d") (some ⟨4⟩)))).1 =
        .error (.refused .selfChild) ∧
      ∀ after, builder.perform (.edit (.becomeRootToken (.imaginary 4 "d") (some ⟨4⟩))) =
          (.error (.refused .selfChild), after) →
        after.forest.size = builder.forest.size + 1 := by
  refine ⟨{ forest := { nodes := #[
      { content := .token (.imaginary 4 "a"), children := [⟨1⟩], parent := some ⟨3⟩,
        position := some 1 },
      { content := .token (.imaginary 4 "b"), parent := some ⟨0⟩, position := some 0 },
      { content := .token (.imaginary 4 "c"), parent := some ⟨3⟩, position := some 0 },
      { content := .nil, children := [⟨2⟩, ⟨0⟩] }] } }, rfl, rfl, ?_, rfl, ?_⟩
  · intro after refused
    exact (unchanged_of_refused refused).1 (by simp)
  · intro after refused
    exact ((unchanged_of_refused refused).2 _ _ rfl).2.1

end Builder

end SyntaxForest
