import SyntaxForest.Proofs.Locality

/-!
What stays of a node. A restructuring rewrites links and nothing else, so a node keeps its handle,
its content and its boundaries through every run, apart from what the caller sets at that very node.
-/

namespace SyntaxForest

/-- The second record of a node tells what the first one tells, apart from what the replied requests
of a history have set at this node. -/
structure Node.Persists (first second : Node) (id : NodeId)
    (history : List (Request × Except Stop Reply)) : Prop where
  nil : first.content = .nil → second.content = .nil
  error : ∀ span, first.content = .error span → second.content = .error span
  token : ∀ token, first.content = .token token → ∃ value, second.content = .token value ∧
    value.index = token.index ∧ value.line = token.line ∧ value.column = token.column
  kind : (∀ kind reply, (.edit (.setKind id kind), .ok reply) ∉ history) →
    second.content.kind = first.content.kind
  text : (∀ text reply, (.edit (.setText id text), .ok reply) ∉ history) →
    second.content.text? = first.content.text?
  boundaries : (∀ start stop reply, (.edit (.setBoundaries id start stop), .ok reply) ∉ history) →
    second.start = first.start ∧ second.stop = first.stop

namespace Node.Persists

variable {first second third : Node} {id : NodeId}
  {history later : List (Request × Except Stop Reply)}

/-- Records that differ in their links only tell the same. -/
theorem of_unlinked_eq (content : second.content = first.content)
    (start : second.start = first.start) (stop : second.stop = first.stop) :
    first.Persists second id history where
  nil isNil := content.trans isNil
  error _ isError := content.trans isError
  token token isToken := ⟨token, content.trans isToken, rfl, rfl, rfl⟩
  kind _ := by rw [content]
  text _ := by rw [content]
  boundaries _ := ⟨start, stop⟩

theorem trans (one : first.Persists second id history) (other : second.Persists third id later) :
    first.Persists third id (history ++ later) where
  nil isNil := other.nil (one.nil isNil)
  error span isError := other.error span (one.error span isError)
  token token isToken := by
    obtain ⟨value, isValue, index, line, column⟩ := one.token token isToken
    obtain ⟨last, isLast, lastIndex, lastLine, lastColumn⟩ := other.token value isValue
    exact ⟨last, isLast, lastIndex.trans index, lastLine.trans line, lastColumn.trans column⟩
  kind unset := by
    simp only [List.mem_append, not_or] at unset
    exact (other.kind fun kind reply => (unset kind reply).2).trans
      (one.kind fun kind reply => (unset kind reply).1)
  text unset := by
    simp only [List.mem_append, not_or] at unset
    exact (other.text fun text reply => (unset text reply).2).trans
      (one.text fun text reply => (unset text reply).1)
  boundaries unset := by
    simp only [List.mem_append, not_or] at unset
    obtain ⟨start, stop⟩ := one.boundaries fun start stop reply => (unset start stop reply).1
    obtain ⟨lastStart, lastStop⟩ :=
      other.boundaries fun start stop reply => (unset start stop reply).2
    exact ⟨lastStart.trans start, lastStop.trans stop⟩

end Node.Persists

namespace Forest

variable {before middle after : Forest} {history later : List (Request × Except Stop Reply)}

/-- Every node of the earlier forest is still there, and its record persists. -/
def Persists (before after : Forest) (history : List (Request × Except Stop Reply)) : Prop :=
  ∀ id node, before.get? id = some node →
    ∃ record, after.get? id = some record ∧ node.Persists record id history

theorem Persists.trans (one : before.Persists middle history) (other : middle.Persists after later) :
    before.Persists after (history ++ later) := by
  intro id node found
  obtain ⟨record, foundNext, persists⟩ := one id node found
  obtain ⟨last, foundLast, persistsLast⟩ := other id record foundNext
  exact ⟨last, foundLast, persists.trans persistsLast⟩

/-- Records that stay persist. -/
theorem persists_of_kept (kept : ∀ id node, before.get? id = some node → after.get? id = some node)
    (history : List (Request × Except Stop Reply)) : before.Persists after history :=
  fun id node found => ⟨node, kept id node found, .of_unlinked_eq rfl rfl rfl⟩

/-- A change of one record persists when the changed record does. -/
theorem persists_modify {target : NodeId} {change : Node → Node}
    (persists : ∀ node, before.get? target = some node →
      node.Persists (change node) target history) :
    before.Persists (before.modify target change) history := by
  intro id node found
  rw [get?_modify]
  by_cases same : target = id
  · subst id
    rw [if_pos rfl, found]
    exact ⟨change node, rfl, persists node found⟩
  · rw [if_neg same]
    exact ⟨node, found, .of_unlinked_eq rfl rfl rfl⟩

/-- The forests have the same nodes, and their records differ in their links only. -/
structure Relinks (before after : Forest) : Prop where
  size : after.size = before.size
  records : ∀ id node, before.get? id = some node →
    ∃ children parent position, after.get? id = some { node with children, parent, position }

namespace Relinks

theorem refl (forest : Forest) : forest.Relinks forest :=
  ⟨rfl, fun _ node found => ⟨node.children, node.parent, node.position, found⟩⟩

theorem trans (one : before.Relinks middle) (other : middle.Relinks after) :
    before.Relinks after where
  size := other.size.trans one.size
  records id node found := by
    obtain ⟨children, parent, position, foundNext⟩ := one.records id node found
    obtain ⟨newChildren, newParent, newPosition, foundLast⟩ := other.records id _ foundNext
    exact ⟨newChildren, newParent, newPosition, foundLast⟩

theorem persists (relinks : before.Relinks after)
    (history : List (Request × Except Stop Reply)) : before.Persists after history := by
  intro id node found
  obtain ⟨children, parent, position, foundNext⟩ := relinks.records id node found
  exact ⟨_, foundNext, .of_unlinked_eq rfl rfl rfl⟩

theorem relist (forest : Forest) (parent : NodeId) (children : List NodeId) :
    forest.Relinks (forest.relist parent children) :=
  ⟨by simp, fun _ _ found => ⟨_, _, _, get?_relist_of_get? found parent children⟩⟩

theorem uprooted (forest : Forest) (id : NodeId) : forest.Relinks (forest.uprooted id) := by
  unfold Forest.uprooted
  split
  · exact refl forest
  · exact relist forest _ _

theorem uprootedEach (forest : Forest) (ids : List NodeId) :
    forest.Relinks (forest.uprootedEach ids) := by
  induction ids generalizing forest with
  | nil => exact refl forest
  | cons id rest ih => exact (uprooted forest id).trans (ih _)

theorem adopted (forest : Forest) (parent child : NodeId) :
    forest.Relinks (forest.adopted parent child) :=
  (uprooted forest child).trans (relist _ _ _)

theorem adoptedEach (forest : Forest) (parent : NodeId) (ids : List NodeId) :
    forest.Relinks (forest.adoptedEach parent ids) := by
  induction ids generalizing forest with
  | nil => exact refl forest
  | cons id rest ih => exact (adopted forest parent id).trans (ih _)

theorem released (forest : Forest) (id : NodeId) (node : Node) :
    forest.Relinks (forest.released id node) := by
  unfold Forest.released
  split_ifs
  · exact relist forest id []
  · exact refl forest

/-- The child lists of a linked forest determine all other links, so two ways to relink a forest
that leave the same lists leave the same forest. -/
theorem eq_of_childrenOf {first second : Forest} (one : before.Relinks first)
    (other : before.Relinks second) (linked : first.Linked) (linkedSecond : second.Linked)
    (lists : ∀ id, first.childrenOf id = second.childrenOf id) : first = second := by
  have parents (id : NodeId) : first.parentOf id = second.parentOf id := by
    apply Option.ext
    intro parent
    rw [← linked.mem_childrenOf_iff, ← linkedSecond.mem_childrenOf_iff, lists]
  apply ext_get?
  intro id
  cases found : before.get? id with
  | none =>
      have missing : ¬ before.Holds id := by
        rw [holds_iff, found]
        simp
      rw [get?_eq_none (by rwa [Holds, one.size]), get?_eq_none (by rwa [Holds, other.size])]
  | some node =>
      obtain ⟨children, parent, position, foundFirst⟩ := one.records id node found
      obtain ⟨otherChildren, otherParent, otherPosition, foundSecond⟩ := other.records id node found
      have sameChildren := lists id
      have sameParent := parents id
      rw [childrenOf_eq foundFirst, childrenOf_eq foundSecond] at sameChildren
      rw [parentOf_eq foundFirst, parentOf_eq foundSecond] at sameParent
      dsimp only at sameChildren sameParent
      subst sameChildren sameParent
      have samePosition : position = otherPosition := by
        cases parent with
        | none =>
            have unplaced := (linked.root id _ foundFirst).mp rfl
            exact unplaced.trans ((linkedSecond.root id _ foundSecond).mp rfl).symm
        | some above =>
            have member : id ∈ first.childrenOf above := by
              rw [linked.mem_childrenOf_iff, parentOf_eq foundFirst]
            have place := (linked.place_of_mem foundFirst member).2
            rw [lists] at member place
            exact place.trans (linkedSecond.place_of_mem foundSecond member).2.symm
      rw [foundFirst, foundSecond, samePosition]

end Relinks

end Forest

namespace EditM

variable {before after : Forest} {checkCycles : Bool}

theorem becomeRoot_relinks (linked : before.Linked) {newRoot root : NodeId}
    {oldRoot : Option NodeId} (ran : becomeRoot checkCycles newRoot oldRoot before = .ok root after) :
    before.Relinks after := by
  cases oldRoot with
  | none =>
      cases ran
      exact .refl _
  | some oldRoot =>
      obtain ⟨wrapper, node, _, _, _, _, rfl⟩ := (becomeRoot_ensures linked newRoot oldRoot).result ran
      exact ((Forest.Relinks.released before newRoot wrapper).trans (.released _ oldRoot node)).trans
        (.adoptedEach _ root _)

/-- A concrete new root is the root of the result. -/
theorem becomeRoot_root (linked : before.Linked) {newRoot root : NodeId} {oldRoot : Option NodeId}
    (solid : before.Solid newRoot)
    (ran : becomeRoot checkCycles newRoot oldRoot before = .ok root after) : root = newRoot := by
  cases oldRoot with
  | none =>
      cases ran
      rfl
  | some oldRoot =>
      obtain ⟨_, _, _, _, effective, _⟩ := (becomeRoot_ensures linked newRoot oldRoot).result ran
      obtain ⟨record, found, ⟨_, same⟩ | ⟨nil, _⟩⟩ := before.effectiveRoot_cases effective
      · exact same
      · exact absurd solid (Forest.not_solid_of_nil found nil)

theorem updateToken_persists {id : NodeId} {change : Token → Token}
    {history : List (Request × Except Stop Reply)}
    (ran : updateToken id change before = .ok () after)
    (keeps : ∀ token, (change token).index = token.index ∧ (change token).line = token.line ∧
      (change token).column = token.column)
    (kind : (∀ kind reply, (.edit (.setKind id kind), .ok reply) ∉ history) →
      ∀ token, (change token).kind = token.kind)
    (text : (∀ text reply, (.edit (.setText id text), .ok reply) ∉ history) →
      ∀ token, (change token).text = token.text) : before.Persists after history := by
  obtain ⟨node, token, found, content, rfl⟩ := (updateToken_ensures id change).result ran
  apply Forest.persists_modify
  intro record foundAgain
  rw [found, Option.some.injEq] at foundAgain
  subst record
  refine ⟨?_, ?_, ?_, ?_, ?_, fun _ => ⟨rfl, rfl⟩⟩
  · intro isNil
    rw [content] at isNil
    contradiction
  · intro span isError
    rw [content] at isError
    contradiction
  · intro old isToken
    rw [content] at isToken
    cases isToken
    exact ⟨change token, rfl, keeps token⟩
  · intro unset
    rw [content]
    exact kind unset token
  · intro unset
    rw [content]
    exact text unset token

theorem setBoundaries_persists {id : NodeId} {start stop : Option Token} {reply : Reply}
    (ran : setBoundaries id start stop before = .ok () after) :
    before.Persists after [(.edit (.setBoundaries id start stop), .ok reply)] := by
  obtain ⟨_, rfl⟩ := (setBoundaries_ensures id start stop).result ran
  apply Forest.persists_modify
  intro node _
  refine ⟨fun isNil => isNil, fun _ isError => isError,
    fun token isToken => ⟨token, isToken, rfl, rfl, rfl⟩, fun _ => rfl, fun _ => rfl, ?_⟩
  intro unset
  exact absurd List.mem_cons_self (unset start stop reply)

/-- An edit that works on new nodes only keeps every record, and the node it returns is new. -/
theorem Confined.created {edit : EditM NodeId} {new : NodeId}
    (confined : edit.Confined (Scope.fresh before.size)
      fun id => id ∈ (Scope.fresh before.size).region)
    (ran : edit before = .ok new after) :
    ¬ before.Holds new ∧ ∀ id node, before.get? id = some node → after.get? id = some node := by
  obtain ⟨isNew, _, spares⟩ := confined.result before.relates_fresh ran
  refine ⟨Nat.not_lt.mpr isNew, ?_⟩
  intro id node found
  rw [spares id (Nat.not_le.mpr (Forest.holds_of_get? found)), found]

/-- The new root is a new node, and the rest of the edit moves nodes. -/
theorem becomeRootToken_created (linked : before.Linked) {token : Token} {oldRoot : Option NodeId}
    {root : NodeId} (ran : becomeRootToken checkCycles token oldRoot before = .ok root after) :
    root = ⟨before.size⟩ ∧ (before.push { content := .token token }).Relinks after := by
  have linkedNext : (before.push { content := .token token }).Linked := linked.push rfl rfl rfl
  obtain ⟨_, _, created, ran⟩ := ok_of_bind ran
  obtain ⟨_, rfl, rfl⟩ := of_allocate created
  exact ⟨becomeRoot_root linkedNext (Forest.solid_push_last rfl) ran,
    becomeRoot_relinks linkedNext ran⟩

end EditM

namespace Edit

variable {before after : Forest} {checkCycles : Bool} {edit : Edit} {reply : Reply}

/-- The edits that move nodes and create none. -/
def relinks : Edit → Bool
  | .addChild .. | .becomeRoot .. | .unwrapRoot _ | .setChild .. | .deleteChild .. | .setParent ..
  | .setPosition .. | .replaceChildren .. => true
  | _ => false

/-- An edit that only moves nodes rewrites links and nothing else. -/
theorem relinks_of_reply (linked : before.Linked) (moves : edit.relinks = true)
    (ran : edit.apply checkCycles before = .ok reply after) : before.Relinks after := by
  cases edit with
  | addChild tree child =>
      obtain ⟨_, ran, _⟩ := EditM.ok_of_map ran
      obtain ⟨node, _, _, _, _, rfl⟩ := (EditM.addChild_ensures linked tree child).result ran
      exact (Forest.Relinks.released before child node).trans (.adoptedEach _ tree _)
  | becomeRoot newRoot oldRoot =>
      obtain ⟨_, ran, _⟩ := EditM.ok_of_map ran
      exact EditM.becomeRoot_relinks linked ran
  | unwrapRoot root =>
      obtain ⟨_, ran, _⟩ := EditM.ok_of_map ran
      obtain rfl | ⟨single, _, _, rfl⟩ := (EditM.unwrapRoot_ensures linked root).result ran
      · exact .refl _
      · exact .uprooted before single
  | setChild tree position child =>
      obtain ⟨_, ran, _⟩ := EditM.ok_of_map ran
      obtain ⟨displaced, node, _, _, _, _, rfl⟩ :=
        (EditM.setChild_ensures linked tree position child).result ran
      split_ifs
      · exact .refl before
      · exact (Forest.Relinks.uprooted before child).trans (.relist _ tree _)
  | deleteChild tree position =>
      obtain ⟨child, ran, _⟩ := EditM.ok_of_map ran
      obtain ⟨_, rfl⟩ := (EditM.deleteChild_ensures linked tree position).result ran
      exact .uprooted before child
  | setParent node parent =>
      obtain ⟨_, ran, _⟩ := EditM.ok_of_map ran
      have result := (EditM.setParent_ensures linked node parent).result ran
      cases parent with
      | none =>
          obtain ⟨_, rfl⟩ := result
          exact .uprooted before node
      | some parent =>
          obtain ⟨_, _, _, rfl⟩ := result
          exact .adopted before parent node
  | setPosition node position =>
      obtain ⟨_, ran, _⟩ := EditM.ok_of_map ran
      obtain ⟨parent, _, _, _, rfl⟩ := (EditM.setPosition_ensures linked node position).result ran
      exact .relist before parent _
  | replaceChildren parent start stop replacement =>
      obtain ⟨_, ran, _⟩ := EditM.ok_of_map ran
      obtain ⟨source, _, _, _, _, _, _, rfl⟩ :=
        (EditM.replaceChildren_ensures linked parent start stop replacement).result ran
      exact ((Forest.Relinks.released before replacement source).trans (.uprootedEach _ _)).trans
        (.relist _ parent _)
  | _ => cases moves

/-- An edit that creates nodes and moves no other node keeps every record, and it replies with a
handle that no node had before. -/
theorem created_of_reply (creates : edit.allocates = true)
    (moveless : ∀ token oldRoot, edit ≠ .becomeRootToken token oldRoot)
    (ran : edit.apply checkCycles before = .ok reply after) :
    ∃ new, reply = .node new ∧ ¬ before.Holds new ∧
      ∀ id node, before.get? id = some node → after.get? id = some node := by
  have roomy := Scope.open_fresh before.size
  have confined : ∃ program : EditM NodeId, edit.apply checkCycles = Reply.node <$> program ∧
      program.Confined (Scope.fresh before.size)
        fun id => id ∈ (Scope.fresh before.size).region := by
    cases edit with
    | create | createOfKind | createWithText | createImaginary | createNil =>
        exact ⟨_, rfl, .allocate roomy Node.within_of_unlinked⟩
    | createError stream start stop diagnostic =>
        exact ⟨_, rfl, .createError stream start stop diagnostic roomy⟩
    | copyNode node => exact ⟨_, rfl, .copyNode trivial roomy⟩
    | copyTree tree => exact ⟨_, rfl, .copyTree_fresh before.size tree⟩
    | becomeRootToken token oldRoot => exact absurd rfl (moveless token oldRoot)
    | _ => cases creates
  obtain ⟨program, same, confined⟩ := confined
  rw [same] at ran
  obtain ⟨new, ran, isNew⟩ := EditM.ok_of_map ran
  exact ⟨new, isNew, confined.created ran⟩

/-- An edit that creates nodes replies with a handle that no node had before. -/
theorem fresh_of_reply {new : NodeId} (linked : before.Linked) (creates : edit.allocates = true)
    (ran : edit.apply checkCycles before = .ok (.node new) after) : ¬ before.Holds new := by
  by_cases moves : ∃ token oldRoot, edit = .becomeRootToken token oldRoot
  · obtain ⟨token, oldRoot, rfl⟩ := moves
    obtain ⟨_, ran, same⟩ := EditM.ok_of_map ran
    cases same
    rw [(EditM.becomeRootToken_created linked ran).1]
    exact Nat.lt_irrefl _
  · simp only [not_exists] at moves
    obtain ⟨_, same, isNew, _⟩ := created_of_reply creates moves ran
    cases same
    exact isNew

/-- Every earlier node persists through an edit. -/
theorem persists_of_reply (linked : before.Linked)
    (ran : edit.apply checkCycles before = .ok reply after) :
    before.Persists after [(.edit edit, .ok reply)] := by
  cases edit with
  | addChild | becomeRoot | unwrapRoot | setChild | deleteChild | setParent | setPosition
  | replaceChildren => exact (relinks_of_reply linked rfl ran).persists _
  | becomeRootToken token oldRoot =>
      obtain ⟨_, ran, _⟩ := EditM.ok_of_map ran
      have pushed : before.Persists (before.push { content := .token token }) [] :=
        Forest.persists_of_kept (fun _ _ found => Forest.get?_push_of_get? found _) []
      exact pushed.trans ((EditM.becomeRootToken_created linked ran).2.persists _)
  | create | createOfKind | createWithText | createImaginary | createNil | createError | copyNode
  | copyTree =>
      obtain ⟨_, _, _, kept⟩ := created_of_reply rfl (by simp) ran
      exact Forest.persists_of_kept kept _
  | setKind node kind =>
      obtain ⟨_, ran, _⟩ := EditM.ok_of_map ran
      exact EditM.updateToken_persists ran (fun _ => ⟨rfl, rfl, rfl⟩)
        (fun unset => absurd List.mem_cons_self (unset kind reply)) fun _ _ => rfl
  | setText node text =>
      obtain ⟨_, ran, _⟩ := EditM.ok_of_map ran
      exact EditM.updateToken_persists ran (fun _ => ⟨rfl, rfl, rfl⟩) (fun _ _ => rfl)
        fun unset => absurd List.mem_cons_self (unset text reply)
  | setBoundaries tree start stop =>
      obtain ⟨_, ran, _⟩ := EditM.ok_of_map ran
      exact EditM.setBoundaries_persists ran

end Edit

namespace Builder

variable {builder after : Builder} {request : Request} {requests : List Request}

/-- Every node persists through a completed request. -/
theorem Sound.persists_of_step? (sound : builder.Sound)
    (completed : builder.step? request = some after) :
    builder.forest.Persists after.forest [(request, (builder.perform request).1)] := by
  cases request with
  | query query =>
      rw [← perform_of_step? completed]
      exact Forest.persists_of_kept (fun _ _ found => found) _
  | serial node =>
      rw [← perform_of_step? completed]
      exact Forest.persists_of_kept (fun _ _ found => found) _
  | edit edit =>
      rcases step?_eq_some_iff.mp completed with ⟨reply, replied⟩ | ⟨refusal, refused⟩
      · rw [replied]
        exact edit.persists_of_reply sound.linked (apply_of_reply replied).1
      · rw [Edit.forest_of_refused (apply_of_stop refused).1]
        apply Forest.persists_of_kept
        intro id node found
        unfold Edit.residue
        split
        · exact Forest.get?_push_of_get? found _
        · exact found

/-- Every node persists through a run. -/
theorem Sound.persists_of_run? (sound : builder.Sound) (ran : builder.run? requests = some after) :
    builder.forest.Persists after.forest (builder.history requests) := by
  induction requests generalizing builder with
  | nil =>
      cases ran
      exact Forest.persists_of_kept (fun _ _ found => found) _
  | cons request rest ih =>
      obtain ⟨next, completed, ran⟩ := Option.bind_eq_some_iff.mp ran
      rw [history_cons, completed]
      exact (sound.persists_of_step? completed).trans (ih (sound.step completed) ran)

/-- Through every run from a reachable builder a node keeps its handle and what it carries, apart
from the kind, the text and the boundaries that replied requests set at this node, and no node that
is created later takes its handle. An edit that moves nodes keeps the options, the serial numbers
and the number of nodes, and of every record it rewrites the links alone. -/
theorem nodes_persist (reachable : builder.Reachable) :
    (∀ id node requests after, builder.forest.get? id = some node →
      builder.run? requests = some after →
      (∃ record, after.forest.get? id = some record ∧
        node.Persists record id (builder.history requests)) ∧
      ∀ edit new next, edit.allocates = true →
        after.perform (.edit edit) = (.ok (.node new), next) → ¬ after.forest.Holds new) ∧
    ∀ edit reply after, edit.relinks = true →
      builder.perform (.edit edit) = (.ok reply, after) →
      after = { builder with forest := after.forest } ∧ builder.forest.Relinks after.forest := by
  have sound := reachable.sound
  refine ⟨fun id node requests after found ran => ⟨?_, ?_⟩, ?_⟩
  · exact sound.persists_of_run? ran id node found
  · intro edit new next creates replied
    exact edit.fresh_of_reply (sound.run ran).1.linked creates (apply_of_reply replied).1
  · intro edit reply after moves replied
    obtain ⟨applied, rest⟩ := apply_of_reply replied
    exact ⟨rest, edit.relinks_of_reply sound.linked moves applied⟩

/-- One node gets a kind, the nil node is refused a text, and its child takes the place of two
others. What was not set stays, a new nil node has a new handle, and a list moves by its links
alone. -/
theorem nodes_persist_grove :
    (∃ after, grove.run? [.edit (.setKind ⟨1⟩ 9), .edit (.setText ⟨5⟩ "g"),
        .edit (.replaceChildren ⟨0⟩ 0 1 ⟨5⟩)] = some after ∧
      after.forest.childrenOf ⟨0⟩ = [⟨6⟩] ∧
      (∃ record, after.forest.get? ⟨1⟩ = some record ∧ record.content.text? = some "b") ∧
      (∃ record, after.forest.get? ⟨2⟩ = some record ∧ record.content.kind = 4) ∧
      (∃ record, after.forest.get? ⟨5⟩ = some record ∧ record.content = .nil) ∧
      ∃ next, after.perform (.edit .createNil) = (.ok (.node ⟨7⟩), next) ∧
        ¬ after.forest.Holds ⟨7⟩) ∧
    ∃ moved, grove.perform (.edit (.addChild ⟨3⟩ ⟨5⟩)) = (.ok .done, moved) ∧
      grove.forest.Relinks moved.forest := by
  obtain ⟨stay, move⟩ := nodes_persist reachable_grove
  let requests : List Request := [.edit (.setKind ⟨1⟩ 9), .edit (.setText ⟨5⟩ "g"),
    .edit (.replaceChildren ⟨0⟩ 0 1 ⟨5⟩)]
  have told : grove.history requests = [(.edit (.setKind ⟨1⟩ 9), .ok .done),
      (.edit (.setText ⟨5⟩ "g"), .error (.refused .noToken)),
      (.edit (.replaceChildren ⟨0⟩ 0 1 ⟨5⟩), .ok .done)] := rfl
  obtain ⟨after, ran⟩ : ∃ after, grove.run? requests = some after := ⟨_, rfl⟩
  have replaced : (grove.run? requests).map (fun after => after.forest.childrenOf ⟨0⟩) =
      some [⟨6⟩] := rfl
  have created : (grove.run? requests).map (fun after => (after.perform (.edit .createNil)).1) =
      some (.ok (.node ⟨7⟩)) := rfl
  rw [ran, Option.map_some, Option.some.injEq] at replaced created
  obtain ⟨⟨first, foundFirst, keptFirst⟩, new⟩ := stay ⟨1⟩ _ requests after rfl ran
  obtain ⟨⟨second, foundSecond, keptSecond⟩, _⟩ := stay ⟨2⟩ _ requests after rfl ran
  obtain ⟨⟨list, foundList, keptList⟩, _⟩ := stay ⟨5⟩ _ requests after rfl ran
  refine ⟨⟨after, ran, replaced, ⟨first, foundFirst, ?_⟩, ⟨second, foundSecond, ?_⟩,
    ⟨list, foundList, keptList.nil rfl⟩, ⟨_, Prod.ext created rfl, ?_⟩⟩, ?_⟩
  · exact keptFirst.text (by simp [told])
  · exact keptSecond.kind (by simp [told])
  · exact new .createNil ⟨7⟩ _ rfl (Prod.ext created rfl)
  · exact ⟨_, rfl, (move (.addChild ⟨3⟩ ⟨5⟩) .done _ rfl rfl).2⟩

end Builder

end SyntaxForest
