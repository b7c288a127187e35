import SyntaxForest.Proofs.CycleCheck
import SyntaxForest.Proofs.Faults
import SyntaxForest.Proofs.Outcomes

/-!
The check for cycles as a filter. In a forest without cycles the check refuses an edit exactly when
the unchecked edit would close a cycle, and otherwise the two edits end alike. So a run that is
never refused for a cycle is the run of a builder that does not check.
-/

namespace SyntaxForest

namespace EditM

open Relation

variable {α β : Type} {before after : Forest} {parent : NodeId} {ids handles : List NodeId}

/-- An edit attaches nodes to a parent when the check of these nodes decides its outcome and its
finished forest has them hang below the parent. -/
structure Attaches (edit : Bool → EditM α) (before : Forest) (parent : NodeId) (ids : List NodeId)
    (value : α) (after : Forest) : Prop where
  outcome : ∀ checkCycles, edit checkCycles before =
    concluded (before.checkAttach checkCycles parent ids) value before after
  held : before.Holds parent
  solid : ∀ id ∈ ids, before.Solid id
  apart : parent ∈ ids → ∀ id ∈ ids, ¬ TransGen before.ChildOf parent id
  hangs : parent ∉ ids → before.Hangs after parent ids

/-- The check for cycles filters an edit when it refuses exactly what would close a cycle, and
changes nothing else about the edit. -/
structure Filters (edit : Bool → EditM α) (before : Forest) : Prop where
  refused_iff : (∃ after, edit true before = .error (.refused .cycle) after) ↔
    ∃ value after, edit false before = .ok value after ∧ ¬ after.Acyclic
  agrees : (∀ after, edit true before ≠ .error (.refused .cycle) after) →
    edit false before = edit true before

namespace Filters

variable {edit : Bool → EditM α}

/-- An edit that ends alike with and without the check, and is not refused for a cycle, is
filtered. -/
theorem of_eq (same : edit false before = edit true before)
    (accepted : ∀ after, edit true before ≠ .error (.refused .cycle) after)
    (follows : (edit true).Ensures before handles fun _ after => after.Follows true before)
    (acyclic : before.Acyclic) : Filters edit before where
  refused_iff := by
    constructor
    · rintro ⟨after, refused⟩
      exact absurd refused (accepted after)
    · rintro ⟨value, after, ran, cyclic⟩
      rw [same] at ran
      exact absurd ((follows.result ran).acyclic rfl acyclic) cyclic
  agrees _ := same

/-- An edit that stops for another reason is filtered. -/
theorem of_stopped (stop : Stop)
    (stopped : ∀ checkCycles, edit checkCycles before = .error stop before)
    (different : stop ≠ .refused .cycle) : Filters edit before where
  refused_iff := by
    simp only [stopped]
    constructor
    · rintro ⟨after, refused⟩
      cases refused
      exact absurd rfl different
    · rintro ⟨value, after, ran, _⟩
      contradiction
  agrees _ := by rw [stopped, stopped]

/-- The check of the incoming nodes decides, and a node above the parent would close a cycle. -/
theorem of_attaches {value : α} (attaches : Attaches edit before parent ids value after)
    (follows : (edit true).Ensures before handles fun _ after => after.Follows true before)
    (acyclic : before.Acyclic) (linked : before.Linked) : Filters edit before := by
  have outcome := attaches.outcome
  -- The parent among the incoming nodes is refused either way, clear nodes pass either way, and
  -- only the nodes above the parent tell the two edits apart.
  by_cases member : parent ∈ ids
  · have refused := fun checkCycles =>
      acyclic.checkAttach_of_mem linked attaches.held checkCycles member (attaches.apart member)
    simp only [refused, concluded] at outcome
    refine of_eq (by rw [outcome, outcome]) ?_ follows acyclic
    intro other stopped
    rw [outcome] at stopped
    cases stopped
  · by_cases clear : before.Clear parent ids
    · have passed := fun checkCycles =>
        acyclic.checkAttach_of_clear linked attaches.held checkCycles clear
      simp only [passed, concluded] at outcome
      refine of_eq (by rw [outcome, outcome]) ?_ follows acyclic
      intro other stopped
      rw [outcome] at stopped
      cases stopped
    · have refused := outcome true
      rw [acyclic.checkAttach_of_not_clear linked attaches.held member clear, concluded] at refused
      have ran := outcome false
      rw [Forest.checkAttach_false_of_not_mem member, concluded] at ran
      have cyclic := (attaches.hangs member).not_acyclic acyclic linked attaches.solid clear
      exact ⟨iff_of_true ⟨before, refused⟩ ⟨value, after, ran, cyclic⟩,
        fun accepted => absurd refused (accepted before)⟩

/-- Edits with the same outcomes are filtered alike. -/
theorem congr {other : Bool → EditM α} {middle : Forest} (filters : Filters other middle)
    (same : ∀ checkCycles, edit checkCycles before = other checkCycles middle) :
    Filters edit before := by
  refine ⟨?_, ?_⟩
  · rw [same, same]
    exact filters.refused_iff
  · rw [same, same]
    exact filters.agrees

theorem map (filters : Filters edit before) (change : α → β) :
    Filters (fun checkCycles => change <$> edit checkCycles) before where
  refused_iff := by
    constructor
    · rintro ⟨after, refused⟩
      obtain ⟨value, later, ran, cyclic⟩ := filters.refused_iff.mp ⟨after, error_of_map refused⟩
      exact ⟨change value, later, map_ok ran change, cyclic⟩
    · rintro ⟨_, after, ran, cyclic⟩
      obtain ⟨value, ran, _⟩ := ok_of_map ran
      obtain ⟨later, refused⟩ := filters.refused_iff.mpr ⟨value, after, ran, cyclic⟩
      exact ⟨later, map_error refused change⟩
  agrees := by
    intro accepted
    have same := filters.agrees fun after refused => accepted after (map_error refused change)
    cases ran : edit true before with
    | ok value after => rw [map_ok ran, map_ok (same.trans ran)]
    | error stop after => rw [map_error ran, map_error (same.trans ran)]

end Filters

theorem addChild_filters (linked : before.Linked) (acyclic : before.Acyclic) {tree child : NodeId}
    (held : before.Holds tree) (heldChild : before.Holds child) :
    Filters (fun checkCycles => addChild checkCycles tree child) before := by
  by_cases same : child = tree
  · apply Filters.of_stopped (.refused .selfChild)
    · intro checkCycles
      rw [addChild, if_pos same]
      rfl
    · simp
  · obtain ⟨node, found⟩ := (before.holds_iff child).mp heldChild
    have linkedFreed := linked.released heldChild node
    have attaches : Attaches (fun checkCycles => addChild checkCycles tree child) before tree
        (node.incoming child) ()
        ((before.released child node).adoptedEach tree (node.incoming child)) := by
      refine ⟨fun _ => addChild_eq linked found held same, held, linked.solid_incoming found,
        acyclic.apart_incoming linked found, ?_⟩
      intro outside
      apply linkedFreed.hangs_adoptedEach (by simpa using held)
      · intro id member
        rw [Forest.solid_released]
        exact linked.solid_incoming found id member
      · rintro id member rfl
        exact outside member
      · intro _ _
        exact linked.childOf_released heldChild (Forest.not_solid_of_nil found)
    exact .of_attaches attaches (addChild_follows linked tree child) acyclic linked

theorem setParent_filters (linked : before.Linked) (acyclic : before.Acyclic) {id : NodeId}
    {parent : Option NodeId} (held : before.Holds id)
    (heldParent : ∀ other ∈ parent, before.Holds other) :
    Filters (fun checkCycles => setParent checkCycles id parent) before := by
  have follows : (setParent true id parent).Ensures before (id :: parent.toList)
      fun _ after => after.Follows true before := setParent_follows linked id parent
  cases parent with
  | none =>
      refine .of_eq rfl ?_ follows acyclic
      intro after
      exact settled_detach id before after .cycle
  | some parent =>
      obtain ⟨node, found⟩ := (before.holds_iff id).mp held
      by_cases nil : node.content.isNil = true
      · apply Filters.of_stopped (.refused .nilChild)
        · intro checkCycles
          rw [setParent, bind_ok (fetch_ok found), if_pos nil]
          rfl
        · simp
      · have solid : before.Solid id := ⟨node, found, by simpa using nil⟩
        have heldParent := heldParent parent rfl
        have attaches : Attaches (fun checkCycles => setParent checkCycles id (some parent)) before
            parent [id] () (before.adoptedEach parent [id]) := by
          refine ⟨fun _ => setParent_eq linked solid heldParent, heldParent, by simpa using solid,
            acyclic.apart_singleton, ?_⟩
          intro outside
          apply linked.hangs_adoptedEach heldParent (by simpa using solid)
          · rintro other member rfl
            exact outside member
          · exact fun _ _ link _ => link
        exact .of_attaches attaches follows acyclic linked

theorem becomeRoot_filters (linked : before.Linked) (acyclic : before.Acyclic) {newRoot : NodeId}
    {oldRoot : Option NodeId} (held : before.Holds newRoot)
    (heldOld : ∀ other ∈ oldRoot, before.Holds other) :
    Filters (fun checkCycles => becomeRoot checkCycles newRoot oldRoot) before := by
  have follows : (becomeRoot true newRoot oldRoot).Ensures before (newRoot :: oldRoot.toList)
      fun _ after => after.Follows true before := becomeRoot_follows linked newRoot oldRoot
  cases oldRoot with
  | none =>
      refine .of_eq rfl ?_ follows acyclic
      rintro after ⟨⟩
  | some oldRoot =>
      obtain ⟨wrapper, foundWrapper⟩ := (before.holds_iff newRoot).mp held
      have heldOld := heldOld oldRoot rfl
      obtain ⟨node, found⟩ := (before.holds_iff oldRoot).mp heldOld
      cases effective : before.effectiveRoot newRoot with
      | error stop =>
          obtain ⟨children, rfl⟩ := Forest.effectiveRoot_error foundWrapper effective
          apply Filters.of_stopped (.refused (.malformedRoot children))
          · intro checkCycles
            rw [becomeRoot, bind_error (query_error effective)]
          · simp
      | ok root =>
          have heldRoot := (linked.solid_effectiveRoot effective).holds
          have linkedNext := linked.released held wrapper
          have heldNext : (before.released newRoot wrapper).Holds oldRoot := by simpa using heldOld
          have attaches : Attaches
              (fun checkCycles => becomeRoot checkCycles newRoot (some oldRoot))
              before root (node.incoming oldRoot) root
              (((before.released newRoot wrapper).released oldRoot node).adoptedEach root
                (node.incoming oldRoot)) := by
            refine ⟨fun _ => becomeRoot_eq linked effective foundWrapper found, heldRoot,
              linked.solid_incoming found, acyclic.apart_incoming linked found, ?_⟩
            intro outside
            apply (linkedNext.released heldNext node).hangs_adoptedEach (by simpa using heldRoot)
            · intro id member
              rw [Forest.solid_released, Forest.solid_released]
              exact linked.solid_incoming found id member
            · rintro id member rfl
              exact outside member
            · intro child above link solid
              have first := linked.childOf_released held (Forest.not_solid_of_nil foundWrapper)
                link solid
              refine linkedNext.childOf_released heldNext ?_ first (by simpa using solid)
              rw [Forest.solid_released]
              exact Forest.not_solid_of_nil found
          exact .of_attaches attaches follows acyclic linked

/-- The new root is fresh, and from there on the edit is a change of root. -/
theorem becomeRootToken_filters (linked : before.Linked) (acyclic : before.Acyclic)
    {token : Token} {oldRoot : Option NodeId} (heldOld : ∀ other ∈ oldRoot, before.Holds other) :
    Filters (fun checkCycles => becomeRootToken checkCycles token oldRoot) before := by
  have pushed : (before.push { content := .token token }).Follows true before :=
    linked.follows_push rfl rfl rfl true
  by_cases room : before.size < Forest.capacity
  · have filters := becomeRoot_filters pushed.linked (pushed.acyclic rfl acyclic)
      (before.holds_push_last _) fun other member => Forest.holds_push (heldOld other member) _
    exact filters.congr fun _ => bind_ok (allocate_ok room _)
  · have full := allocate_full (Nat.le_of_not_lt room) { content := .token token }
    exact .of_stopped (.fault .outOfHandles) (fun _ => bind_error full) (by simp)

theorem setChild_filters (linked : before.Linked) (acyclic : before.Acyclic) {tree child : NodeId}
    (position : Nat) (held : before.Holds tree) (heldChild : before.Holds child) :
    Filters (fun checkCycles => setChild checkCycles tree position child) before := by
  obtain ⟨record, foundTree⟩ := (before.holds_iff tree).mp held
  obtain ⟨node, found⟩ := (before.holds_iff child).mp heldChild
  cases listed : (before.childrenOf tree)[position]? with
  | none =>
      apply Filters.of_stopped (.refused (.indexOutOfRange position record.children.length))
      · intro checkCycles
        rw [Forest.childrenOf_eq foundTree] at listed
        have refused : before.childAt tree position =
            .error (.refused (.indexOutOfRange position record.children.length)) := by
          rw [Forest.childAt, Forest.fetch_eq_ok foundTree]
          simp only [Bind.bind, Except.bind, listed]
        rw [setChild, bind_error (query_error refused)]
      · simp
  | some displaced =>
      by_cases nil : node.content.isNil = true
      · apply Filters.of_stopped (.refused .nilChild)
        · intro checkCycles
          rw [setChild, bind_ok (query_ok (Forest.childAt_eq_ok held listed)),
            bind_ok (fetch_ok found), if_pos nil]
          rfl
        · simp
      · have concrete : node.content.isNil = false := by simpa using nil
        have solid : before.Solid child := ⟨node, found, concrete⟩
        refine .of_attaches ⟨fun _ => setChild_eq linked held listed found concrete, held,
          by simpa using solid, acyclic.apart_singleton, ?_⟩ (setChild_follows linked tree position
          child) acyclic linked
        intro outside
        have different : child ≠ tree := by
          rintro rfl
          exact outside List.mem_cons_self
        split_ifs with same
        · refine ⟨?_, fun _ _ link _ _ _ => link⟩
          intro id member
          rw [List.mem_singleton.mp member, ← same]
          exact linked.mem_childrenOf_iff.mp (List.mem_of_getElem? listed)
        · have slotListed := getElem?_slotAfterLeaving linked found listed same
          apply (linked.uprooted child).hangs_relist
            (admits_substitute linked held listed found concrete different same)
          · obtain ⟨inside, _⟩ := List.getElem?_eq_some_iff.mp slotListed
            rw [List.cons_subset]
            exact ⟨List.mem_set inside child, List.nil_subset _⟩
          · intro other member
            rcases List.mem_or_eq_of_mem_set member with inside | isChild
            · exact .inr (List.mem_of_mem_erase inside)
            · exact .inl (List.mem_singleton.mpr isChild)
          · exact linked.narrows_uprooted child
          · exact linked
          · intro other above link _ notChild
            rw [Forest.ChildOf, linked.parentOf_uprooted, if_neg (by simpa using notChild)]
            exact link

theorem replaceChildren_filters (linked : before.Linked) (acyclic : before.Acyclic)
    {parent replacement : NodeId} (start stop : Nat) (held : before.Holds parent)
    (heldReplacement : before.Holds replacement) :
    Filters (fun checkCycles => replaceChildren checkCycles parent start stop replacement)
      before := by
  by_cases outside : stop < start ∨ (before.childrenOf parent).length ≤ stop
  · exact .of_stopped _ (fun _ => replaceChildren_of_outside replacement held outside) (by simp)
  · by_cases same : replacement = parent
    · subst same
      exact .of_stopped _ (fun _ => replaceChildren_of_same held outside) (by simp)
    · rw [not_or, Nat.not_lt, Nat.not_le] at outside
      obtain ⟨ordered, inside⟩ := outside
      obtain ⟨source, found⟩ := (before.holds_iff replacement).mp heldReplacement
      refine .of_attaches ⟨fun _ => replaceChildren_eq linked held ordered inside same found, held,
        linked.solid_incoming found, acyclic.apart_incoming linked found, ?_⟩
        (replaceChildren_follows linked parent start stop replacement) acyclic linked
      intro notParent
      have linkedFreed := linked.released heldReplacement source
      have different : ∀ id ∈ source.incoming replacement, id ≠ parent := by
        rintro id member rfl
        exact notParent member
      obtain ⟨_, admits⟩ := linked.admits_replacement held ordered same found different
      apply (linkedFreed.uprootedEach _).hangs_relist admits
      · intro id member
        exact List.mem_append_left _ (List.mem_append_right _ member)
      · intro id member
        rcases List.mem_append.mp member with early | late
        · rcases List.mem_append.mp early with inFront | incoming
          · exact .inr (List.mem_of_mem_take (List.mem_of_mem_filter inFront))
          · exact .inl incoming
        · exact .inr (List.mem_of_mem_drop (List.mem_of_mem_filter late))
      · exact (linkedFreed.narrows_uprootedEach _).trans
          (linked.narrows_released replacement source)
      · exact linked
      · intro child above link solidAbove outside
        rw [Forest.ChildOf, linkedFreed.parentOf_uprootedEach,
          if_neg fun member => outside (List.mem_of_mem_filter member)]
        exact linked.childOf_released heldReplacement (Forest.not_solid_of_nil found) link
          solidAbove

end EditM

namespace Edit

/-- The edits that attach nodes. -/
def attaches : Edit → Bool
  | .addChild .. | .becomeRoot .. | .becomeRootToken .. | .setChild .. | .setParent ..
  | .replaceChildren .. => true
  | _ => false

/-- Only the edits that attach nodes obey the choice on cycles. -/
theorem apply_eq_of_not_attaches {edit : Edit} (other : edit.attaches = false)
    (checkCycles : Bool) : edit.apply checkCycles = edit.apply true := by
  cases edit with
  | addChild | becomeRoot | becomeRootToken | setChild | setParent | replaceChildren => cases other
  | _ => rfl

/-- The check for cycles filters every edit that attaches nodes. -/
theorem filters {before : Forest} (linked : before.Linked) (acyclic : before.Acyclic) {edit : Edit}
    (attaches : edit.attaches = true) (held : ∀ id ∈ edit.handles, before.Holds id) :
    EditM.Filters (fun checkCycles => edit.apply checkCycles) before := by
  cases edit with
  | addChild tree child =>
      exact (EditM.addChild_filters linked acyclic (held tree (by simp [handles]))
        (held child (by simp [handles]))).map _
  | becomeRoot newRoot oldRoot =>
      exact (EditM.becomeRoot_filters linked acyclic (held newRoot List.mem_cons_self)
        fun other member => held other (List.mem_cons_of_mem _ (by simpa using member))).map _
  | becomeRootToken token oldRoot =>
      exact (EditM.becomeRootToken_filters linked acyclic
        fun other member => held other (by simpa [handles] using member)).map _
  | setChild tree position child =>
      exact (EditM.setChild_filters linked acyclic position (held tree (by simp [handles]))
        (held child (by simp [handles]))).map _
  | setParent node parent =>
      exact (EditM.setParent_filters linked acyclic (held node List.mem_cons_self)
        fun other member => held other (List.mem_cons_of_mem _ (by simpa using member))).map _
  | replaceChildren parent start stop replacement =>
      exact (EditM.replaceChildren_filters linked acyclic start stop
        (held parent (by simp [handles])) (held replacement (by simp [handles]))).map _
  | _ => cases attaches

end Edit

namespace Builder

open Relation

variable {builder : Builder}

/-- The same builder without the check for cycles. -/
def unchecked (builder : Builder) : Builder :=
  { builder with options := { builder.options with checkCycles := false } }

/-- Each request of the list names handles that exist when its turn comes. -/
def NamesHeld (builder : Builder) : List Request → Prop
  | [] => True
  | request :: rest =>
      (∀ id ∈ request.handles, builder.forest.Holds id) ∧
        ∀ next, builder.step? request = some next → next.NamesHeld rest

/-- The check refuses an edit exactly when the unchecked edit replies and closes a cycle. -/
theorem Sound.refused_cycle_iff (sound : builder.Sound)
    (checked : builder.options.checkCycles = true) {edit : Edit} (attaches : edit.attaches = true)
    (held : ∀ id ∈ edit.handles, builder.forest.Holds id) :
    (builder.perform (.edit edit)).1 = .error (.refused .cycle) ↔
      ∃ reply after, builder.unchecked.perform (.edit edit) = (.ok reply, after) ∧
        ∃ id, TransGen after.forest.ChildOf id id := by
  have filters := edit.filters sound.linked (sound.acyclic checked) attaches held
  have cyclic : ∀ forest : Forest, (∃ id, TransGen forest.ChildOf id id) ↔ ¬ forest.Acyclic := by
    intro forest
    rw [Forest.Acyclic, not_forall_not]
  simp only [cyclic]
  constructor
  · intro refused
    obtain ⟨ran, _⟩ := apply_of_stop (Prod.ext refused rfl)
    rw [checked] at ran
    obtain ⟨reply, forest, replied, closes⟩ := filters.refused_iff.mp ⟨_, ran⟩
    exact ⟨reply, { builder.unchecked with forest }, perform_of_reply replied, closes⟩
  · rintro ⟨reply, after, replied, closes⟩
    obtain ⟨ran, _⟩ := apply_of_reply replied
    obtain ⟨forest, refused⟩ := filters.refused_iff.mpr ⟨reply, after.forest, ran, closes⟩
    rw [← checked] at refused
    rw [perform_of_stop refused]

/-- A request that is not refused for a cycle ends alike without the check. -/
theorem Sound.perform_unchecked (sound : builder.Sound)
    (checked : builder.options.checkCycles = true) {request : Request}
    (held : ∀ id ∈ request.handles, builder.forest.Holds id)
    (accepted : (builder.perform request).1 ≠ .error (.refused .cycle)) :
    builder.unchecked.perform request =
      ((builder.perform request).1, (builder.perform request).2.unchecked) := by
  cases request with
  | query query => rfl
  | serial node => rfl
  | edit edit =>
      have same : edit.apply false builder.forest = edit.apply true builder.forest := by
        cases attaches : edit.attaches with
        | false => rw [Edit.apply_eq_of_not_attaches attaches]
        | true =>
            apply (edit.filters sound.linked (sound.acyclic checked) attaches held).agrees
            intro forest refused
            rw [← checked] at refused
            rw [perform_of_stop refused] at accepted
            exact accepted rfl
      rw [← checked] at same
      cases ran : edit.apply builder.options.checkCycles builder.forest with
      | ok reply forest =>
          rw [perform_of_reply ran]
          exact perform_of_reply (same.trans ran)
      | error stop forest =>
          rw [perform_of_stop ran]
          exact perform_of_stop (same.trans ran)

/-- A request that ends alike is completed alike. -/
theorem step?_unchecked {request : Request}
    (same : builder.unchecked.perform request =
      ((builder.perform request).1, (builder.perform request).2.unchecked)) :
    builder.unchecked.step? request = (builder.step? request).map unchecked := by
  rw [step?, step?, same]
  rcases builder.perform request with ⟨outcome, after⟩
  cases outcome with
  | ok reply => rfl
  | error stop => cases stop <;> rfl

/-- A run that is never refused for a cycle is also the run without the check. -/
theorem Sound.trace_unchecked (sound : builder.Sound)
    (checked : builder.options.checkCycles = true) {requests : List Request}
    (held : builder.NamesHeld requests)
    (accepted : ∀ step ∈ builder.trace requests, step.1 ≠ .error (.refused .cycle)) :
    builder.unchecked.trace requests =
      (builder.trace requests).map fun step => (step.1, step.2.unchecked) := by
  induction requests generalizing builder with
  | nil => rfl
  | cons request rest ih =>
      obtain ⟨heldFirst, heldRest⟩ := held
      rw [trace] at accepted ⊢
      have performed := sound.perform_unchecked checked heldFirst (accepted _ List.mem_cons_self)
      rw [trace, performed, List.map_cons, step?_unchecked performed]
      cases completed : builder.step? request with
      | none => rfl
      | some next =>
          rw [completed] at accepted
          have checkedNext : next.options.checkCycles = true := by
            rw [(sound.follows completed).2.1, checked]
          have later := ih (sound.step completed) checkedNext (heldRest next completed)
            fun step member => accepted step (List.mem_cons_of_mem _ member)
          exact congrArg (_ :: ·) later

/-- In every reachable builder that checks for cycles, an edit with existing handles is refused for
a cycle exactly when the same edit without the check would reply and leave a node above itself. Every
other edit ends alike with and without the check, and so does every run that is never refused for a
cycle. -/
theorem cycle_check_filters (reachable : builder.Reachable)
    (checked : builder.options.checkCycles = true) :
    (∀ edit : Edit, edit.attaches = true → (∀ id ∈ edit.handles, builder.forest.Holds id) →
      ((builder.perform (.edit edit)).1 = .error (.refused .cycle) ↔
        ∃ reply after, builder.unchecked.perform (.edit edit) = (.ok reply, after) ∧
          ∃ id, TransGen after.forest.ChildOf id id) ∧
      ((builder.perform (.edit edit)).1 ≠ .error (.refused .cycle) →
        builder.unchecked.perform (.edit edit) =
          ((builder.perform (.edit edit)).1, (builder.perform (.edit edit)).2.unchecked))) ∧
      ∀ requests, builder.NamesHeld requests →
        (∀ step ∈ builder.trace requests, step.1 ≠ .error (.refused .cycle)) →
        builder.unchecked.trace requests =
          (builder.trace requests).map fun step => (step.1, step.2.unchecked) := by
  have sound := reachable.sound
  refine ⟨?_, fun requests held accepted => sound.trace_unchecked checked held accepted⟩
  intro edit attaches held
  exact ⟨sound.refused_cycle_iff checked attaches held,
    fun accepted => sound.perform_unchecked checked held accepted⟩

/-- A nil list is refused because its second node lies above the tree. A move of the node below, and
the refused attempt to put a node below itself, end alike without the check. -/
theorem cycle_check_filters_list : ∃ builder : Builder, builder.Reachable ∧
    builder.options.checkCycles = true ∧
    (builder.perform (.edit (.addChild ⟨1⟩ ⟨3⟩))).1 = .error (.refused .cycle) ∧
    (∃ reply after, builder.unchecked.perform (.edit (.addChild ⟨1⟩ ⟨3⟩)) = (.ok reply, after) ∧
      ∃ id, TransGen after.forest.ChildOf id id) ∧
    builder.unchecked.trace [.edit (.addChild ⟨2⟩ ⟨1⟩), .edit (.setParent ⟨1⟩ (some ⟨1⟩))] =
      (builder.trace [.edit (.addChild ⟨2⟩ ⟨1⟩), .edit (.setParent ⟨1⟩ (some ⟨1⟩))]).map
        fun step => (step.1, step.2.unchecked) := by
  have reachable : Reachable { forest := { nodes := #[
      { content := .token (.imaginary 4 "a"), children := [⟨1⟩], parent := some ⟨3⟩,
        position := some 1 },
      { content := .token (.imaginary 4 "b"), parent := some ⟨0⟩, position := some 0 },
      { content := .token (.imaginary 4 "c"), parent := some ⟨3⟩, position := some 0 },
      { content := .nil, children := [⟨2⟩, ⟨0⟩] }] } } :=
    ⟨{}, [.edit (.createImaginary 4 "a"), .edit (.createImaginary 4 "b"),
      .edit (.createImaginary 4 "c"), .edit .createNil, .edit (.addChild ⟨0⟩ ⟨1⟩),
      .edit (.addChild ⟨3⟩ ⟨2⟩), .edit (.addChild ⟨3⟩ ⟨0⟩)], rfl⟩
  obtain ⟨each, runs⟩ := cycle_check_filters reachable rfl
  refine ⟨_, reachable, rfl, rfl, (each _ rfl (by decide)).1.mp rfl, runs _ ?_ ?_⟩
  · refine ⟨by decide, ?_⟩
    intro next completed
    cases completed
    exact ⟨by decide, fun _ _ => trivial⟩
  · decide

end Builder

end SyntaxForest
