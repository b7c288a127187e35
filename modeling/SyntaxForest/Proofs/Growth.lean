import SyntaxForest.Edit.Content
import SyntaxForest.Proofs.Attaching

/-!
New nodes and changes of content. A new node has no links, and a change of content leaves all links
as they are, so neither can disturb a linked forest. A forest that is full takes no further node, and
an edit that would need one stops there.
-/

namespace SyntaxForest

/-- The part of a record that links depend on. -/
def Node.links (node : Node) : List NodeId × Option NodeId × Option Nat × Bool :=
  (node.children, node.parent, node.position, node.content.isNil)

namespace Forest

/-- The most nodes that the forest can come to hold. -/
def limit (forest : Forest) : Nat := max forest.size capacity

theorem limit_eq_capacity {forest : Forest} (fits : forest.size ≤ capacity) :
    forest.limit = capacity :=
  Nat.max_eq_right fits

/-- What has grown within its limit has the same limit. -/
theorem limit_eq {before after : Forest} (grown : before.size ≤ after.size)
    (fits : after.size ≤ before.limit) : after.limit = before.limit := by
  unfold limit at fits ⊢
  omega

/-- A new node without links adds no link to the forest. -/
theorem narrows_push (forest : Forest) {node : Node} (isRoot : node.parent = none) :
    (forest.push node).Narrows forest := by
  intro child parent link
  obtain ⟨record, found, link⟩ := (parentOf_eq_some_iff _ child parent).mp link
  rw [get?_push] at found
  split_ifs at found
  · cases found
    rw [isRoot] at link
    contradiction
  · rw [ChildOf, parentOf_eq found, link]

theorem get?_push_of_get? {forest : Forest} {id : NodeId} {record : Node}
    (found : forest.get? id = some record) (node : Node) :
    (forest.push node).get? id = some record := by
  have inside : id.index < forest.size := holds_of_get? found
  rw [get?_push, if_neg (by omega), found]

theorem holds_push {forest : Forest} {id : NodeId} (held : forest.Holds id) (node : Node) :
    (forest.push node).Holds id := by
  rw [Holds, size_push]
  exact Nat.lt_succ_of_lt held

theorem holds_push_last (forest : Forest) (node : Node) :
    (forest.push node).Holds ⟨forest.size⟩ := by
  simp [Holds]

theorem solid_push {forest : Forest} {id : NodeId} (solid : forest.Solid id) (node : Node) :
    (forest.push node).Solid id := by
  obtain ⟨record, found, solid⟩ := solid
  exact ⟨record, get?_push_of_get? found node, solid⟩

theorem Linked.push {forest : Forest} (linked : forest.Linked) {node : Node}
    (leaf : node.children = []) (isRoot : node.parent = none) (unplaced : node.position = none) :
    (forest.push node).Linked where
  down := by
    intro parent record position child found listed
    rw [get?_push] at found
    split_ifs at found
    · cases found
      simp [leaf] at listed
    · obtain ⟨below, foundChild, facts⟩ := linked.down parent record position child found listed
      exact ⟨below, get?_push_of_get? foundChild node, facts⟩
  up := by
    intro child record parent found above
    rw [get?_push] at found
    split_ifs at found
    · cases found
      rw [isRoot] at above
      contradiction
    · obtain ⟨above, position, foundParent, facts⟩ := linked.up child record parent found above
      exact ⟨above, position, get?_push_of_get? foundParent node, facts⟩
  root := by
    intro id record found
    rw [get?_push] at found
    split_ifs at found
    · cases found
      simp [isRoot, unplaced]
    · exact linked.root id record found

theorem Linked.follows_push {forest : Forest} (linked : forest.Linked) {node : Node}
    (leaf : node.children = []) (isRoot : node.parent = none) (unplaced : node.position = none)
    (checkCycles : Bool) : (forest.push node).Follows checkCycles forest :=
  (forest.narrows_push isRoot).follows (linked.push leaf isRoot unplaced) checkCycles

/-- Forests with the same links are linked together. -/
theorem Linked.congr {forest after : Forest} (linked : forest.Linked)
    (same : ∀ id, (after.get? id).map Node.links = (forest.get? id).map Node.links) :
    after.Linked := by
  have backward : ∀ id record, after.get? id = some record →
      ∃ old, forest.get? id = some old ∧ old.links = record.links := by
    intro id record found
    rw [← Option.map_eq_some_iff, ← same, found, Option.map_some]
  have forward : ∀ id old, forest.get? id = some old →
      ∃ record, after.get? id = some record ∧ record.links = old.links := by
    intro id old found
    rw [← Option.map_eq_some_iff, same, found, Option.map_some]
  simp only [Node.links, Prod.mk.injEq] at backward forward
  constructor
  · intro parent node position child found listed
    obtain ⟨old, foundOld, children, _⟩ := backward parent node found
    obtain ⟨below, foundBelow, above, place, different, solid⟩ :=
      linked.down parent old position child foundOld (children ▸ listed)
    obtain ⟨record, foundRecord, _, sameParent, samePosition, sameNil⟩ :=
      forward child below foundBelow
    exact ⟨record, foundRecord, sameParent ▸ above, samePosition ▸ place, different,
      sameNil ▸ solid⟩
  · intro child record parent found above
    obtain ⟨old, foundOld, _, sameParent, samePosition, _⟩ := backward child record found
    obtain ⟨node, position, foundNode, place, listed⟩ :=
      linked.up child old parent foundOld (sameParent ▸ above)
    obtain ⟨next, foundNext, children, _⟩ := forward parent node foundNode
    exact ⟨next, position, foundNext, samePosition ▸ place, children ▸ listed⟩
  · intro id record found
    obtain ⟨old, foundOld, _, sameParent, samePosition, _⟩ := backward id record found
    rw [← sameParent, ← samePosition]
    exact linked.root id old foundOld

/-- A change of one record that keeps its links changes no link of the forest. -/
theorem links_modify {forest : Forest} {id : NodeId} {change : Node → Node} {node : Node}
    (found : forest.get? id = some node) (keeps : (change node).links = node.links)
    (other : NodeId) :
    ((forest.modify id change).get? other).map Node.links =
      (forest.get? other).map Node.links := by
  rw [get?_modify]
  by_cases same : id = other
  · subst other
    rw [if_pos rfl, found, Option.map_some, Option.map_some, Option.map_some, keeps]
  · rw [if_neg same]

theorem narrows_of_links {forest after : Forest}
    (same : ∀ id, (after.get? id).map Node.links = (forest.get? id).map Node.links) :
    after.Narrows forest := by
  intro child parent link
  obtain ⟨record, found, link⟩ := (parentOf_eq_some_iff _ child parent).mp link
  have links := same child
  rw [found, Option.map_some, eq_comm, Option.map_eq_some_iff] at links
  obtain ⟨old, foundOld, links⟩ := links
  simp only [Node.links, Prod.mk.injEq] at links
  rw [ChildOf, parentOf_eq foundOld, links.2.1, link]

theorem Linked.follows_modify {forest : Forest} (linked : forest.Linked) {id : NodeId}
    {change : Node → Node} {node : Node} (found : forest.get? id = some node)
    (keeps : (change node).links = node.links) (checkCycles : Bool) :
    (forest.modify id change).Follows checkCycles forest :=
  (narrows_of_links (links_modify found keeps)).follows (linked.congr (links_modify found keeps))
    checkCycles

end Forest

namespace EditM

variable {α β : Type} {before middle after : Forest} {checkCycles : Bool} {handles : List NodeId}

/-- Like `Ensures` for an edit that may create nodes. A fault may then also mean that the forest has
become full. -/
def Grows (edit : EditM α) (before : Forest) (handles : List NodeId)
    (post : α → Forest → Prop) : Prop :=
  match edit before with
  | .ok value after => (before.size ≤ after.size ∧ after.size ≤ before.limit) ∧ post value after
  | .error stop after => ∀ fault, stop = .fault fault →
      (before.size ≤ after.size ∧ after.size ≤ before.limit) ∧
        ((∃ id ∈ handles, fault = .missingNode id after.size ∧ ¬ after.Holds id) ∨
          fault = .outOfHandles ∧ after.size = before.limit)

namespace Grows

variable {post : α → Forest → Prop}

theorem of_ok {edit : EditM α} {value : α} (ran : edit before = .ok value after)
    (grown : before.size ≤ after.size ∧ after.size ≤ before.limit) (holds : post value after) :
    edit.Grows before handles post := by
  simp only [Grows, ran]
  exact ⟨grown, holds⟩

theorem of_full {edit : EditM α} (stopped : edit before = .error (.fault .outOfHandles) after)
    (size : after.size = before.limit) : edit.Grows before handles post := by
  simp only [Grows, stopped]
  rintro fault ⟨⟩
  exact ⟨⟨size ▸ Nat.le_max_left _ _, size.le⟩, .inr ⟨rfl, size⟩⟩

theorem of_missing {edit : EditM α} {id : NodeId}
    (stopped : edit before = .error (.fault (.missingNode id before.size)) before)
    (listed : id ∈ handles) (missing : ¬ before.Holds id) : edit.Grows before handles post := by
  simp only [Grows, stopped]
  rintro fault ⟨⟩
  exact ⟨⟨Nat.le_refl _, Nat.le_max_left _ _⟩, .inl ⟨id, listed, rfl, missing⟩⟩

theorem result {edit : EditM α} {value : α} (grows : edit.Grows before handles post)
    (ran : edit before = .ok value after) : post value after := by
  simp only [Grows, ran] at grows
  exact grows.2

theorem size_le {edit : EditM α} {value : α} (grows : edit.Grows before handles post)
    (ran : edit before = .ok value after) :
    before.size ≤ after.size ∧ after.size ≤ before.limit := by
  simp only [Grows, ran] at grows
  exact grows.1

/-- A fault is due to a listed handle, or the forest is full. -/
theorem blame {edit : EditM α} {fault : Fault} (grows : edit.Grows before handles post)
    (stopped : edit before = .error (.fault fault) after) :
    (before.size ≤ after.size ∧ after.size ≤ before.limit) ∧
      ((∃ id ∈ handles, fault = .missingNode id after.size ∧ ¬ after.Holds id) ∨
        fault = .outOfHandles ∧ after.size = before.limit) := by
  simp only [Grows, stopped] at grows
  exact grows fault rfl

theorem bind_ok {first : EditM α} {next : α → EditM β} {value : α} {final : β → Forest → Prop}
    (ran : first before = .ok value middle)
    (grown : before.size ≤ middle.size ∧ middle.size ≤ before.limit)
    (later : (next value).Grows middle handles final) :
    (first >>= next).Grows before handles final := by
  have limit := Forest.limit_eq grown.1 grown.2
  cases ended : next value middle with
  | ok result after =>
      simp only [Grows, EditM.bind_ok ran, ended, limit] at later ⊢
      exact ⟨⟨grown.1.trans later.1.1, later.1.2⟩, later.2⟩
  | error stop after =>
      simp only [Grows, EditM.bind_ok ran, ended, limit] at later ⊢
      intro fault stopped
      obtain ⟨grownRest, named⟩ := later fault stopped
      exact ⟨⟨grown.1.trans grownRest.1, grownRest.2⟩, named⟩

theorem mono {edit : EditM α} {final : α → Forest → Prop} (grows : edit.Grows before handles post)
    (weaker : ∀ value after, post value after → final value after) :
    edit.Grows before handles final := by
  cases ran : edit before with
  | ok value after =>
      simp only [Grows, ran] at grows ⊢
      exact ⟨grows.1, weaker value after grows.2⟩
  | error stop after =>
      simp only [Grows, ran] at grows ⊢
      exact grows

theorem map {edit : EditM α} {change : α → β} {final : β → Forest → Prop}
    (grows : edit.Grows before handles fun value => final (change value)) :
    (change <$> edit).Grows before handles final := by
  rw [map_eq_pure_bind]
  cases ran : edit before with
  | ok value after =>
      simp only [Grows, ran, EditM.bind_ok ran] at grows ⊢
      exact grows
  | error stop after =>
      simp only [Grows, ran, bind_error ran] at grows ⊢
      exact grows

end Grows

/-- What needs no new node grows by none. -/
theorem Ensures.grows {edit : EditM α} {post : α → Forest → Prop}
    (ensured : edit.Ensures before handles post) : edit.Grows before handles post := by
  cases ran : edit before with
  | ok value after =>
      simp only [Ensures, Grows, ran] at ensured ⊢
      exact ⟨⟨ensured.1.ge, ensured.1 ▸ Nat.le_max_left _ _⟩, ensured.2⟩
  | error stop after =>
      simp only [Ensures, Grows, ran] at ensured ⊢
      intro fault stopped
      obtain ⟨size, named⟩ := ensured fault stopped
      exact ⟨⟨size.ge, size ▸ Nat.le_max_left _ _⟩, .inl named⟩

/-- The edit creates so many nodes and ends with a value when there is room for all of them. If not,
it stops once the forest is full. -/
structure Creates (edit : EditM α) (before : Forest) (count : Nat) (post : α → Forest → Prop) :
    Prop where
  room : before.size + count ≤ before.limit → ∃ value after,
    edit before = .ok value after ∧ after.size = before.size + count ∧ post value after
  full : before.limit < before.size + count → ∃ after,
    edit before = .error (.fault .outOfHandles) after ∧ after.size = before.limit

namespace Creates

variable {count more : Nat} {post : α → Forest → Prop}

theorem of_ok {edit : EditM α} {value : α} (ran : edit before = .ok value after)
    (size : after.size = before.size) (holds : post value after) :
    edit.Creates before 0 post where
  room _ := ⟨value, after, ran, size, holds⟩
  full full := absurd full (Nat.not_lt.mpr (Nat.le_max_left _ _))

theorem result {edit : EditM α} {value : α} (creates : edit.Creates before count post)
    (ran : edit before = .ok value after) :
    after.size = before.size + count ∧ after.size ≤ before.limit ∧ post value after := by
  by_cases room : before.size + count ≤ before.limit
  · obtain ⟨_, _, ended, size, holds⟩ := creates.room room
    rw [ran, EStateM.Result.ok.injEq] at ended
    obtain ⟨rfl, rfl⟩ := ended
    exact ⟨size, size ▸ room, holds⟩
  · obtain ⟨_, stopped, _⟩ := creates.full (by omega)
    rw [ran] at stopped
    contradiction

/-- The edit stops for no other reason. -/
theorem blame {edit : EditM α} {stop : Stop} (creates : edit.Creates before count post)
    (stopped : edit before = .error stop after) :
    stop = .fault .outOfHandles ∧ after.size = before.limit := by
  by_cases room : before.size + count ≤ before.limit
  · obtain ⟨_, _, ran, _⟩ := creates.room room
    rw [stopped] at ran
    contradiction
  · obtain ⟨_, ended, size⟩ := creates.full (by omega)
    rw [stopped, EStateM.Result.error.injEq] at ended
    obtain ⟨rfl, rfl⟩ := ended
    exact ⟨rfl, size⟩

theorem mono {edit : EditM α} {final : α → Forest → Prop} (creates : edit.Creates before count post)
    (weaker : ∀ value after, edit before = .ok value after → after.size = before.size + count →
      post value after → final value after) : edit.Creates before count final where
  room room := by
    obtain ⟨value, after, ran, size, holds⟩ := creates.room room
    exact ⟨value, after, ran, size, weaker value after ran size holds⟩
  full := creates.full

theorem congr {edit : EditM α} (creates : edit.Creates before count post) (same : count = more) :
    edit.Creates before more post :=
  same ▸ creates

/-- The nodes of both parts add up. -/
theorem bind {first : EditM α} {next : α → EditM β} {final : β → Forest → Prop}
    (creates : first.Creates before count post)
    (later : ∀ value middle, middle.size = before.size + count → post value middle →
      (next value).Creates middle more final) :
    (first >>= next).Creates before (count + more) final := by
  by_cases roomFirst : before.size + count ≤ before.limit
  · obtain ⟨value, middle, ran, size, holds⟩ := creates.room roomFirst
    have rest := later value middle size holds
    have limit : middle.limit = before.limit := Forest.limit_eq (by omega) (by omega)
    constructor
    · intro room
      obtain ⟨result, after, ended, sizeAfter, holdsAfter⟩ := rest.room (by omega)
      exact ⟨result, after, (bind_ok ran).trans ended, by omega, holdsAfter⟩
    · intro full
      obtain ⟨after, stopped, sizeAfter⟩ := rest.full (by omega)
      exact ⟨after, (bind_ok ran).trans stopped, by omega⟩
  · obtain ⟨after, stopped, size⟩ := creates.full (by omega)
    constructor
    · intro room
      omega
    · intro _
      exact ⟨after, bind_error stopped, size⟩

theorem bind_ok {first : EditM α} {next : α → EditM β} {value : α} {final : β → Forest → Prop}
    (ran : first before = .ok value middle) (size : middle.size = before.size)
    (later : (next value).Creates middle count final) :
    (first >>= next).Creates before count final := by
  have here : first.Creates before 0 fun found forest => found = value ∧ forest = middle :=
    of_ok ran size ⟨rfl, rfl⟩
  rw [← Nat.zero_add count]
  apply here.bind
  rintro found forest _ ⟨rfl, rfl⟩
  exact later

/-- The last part changes the value only. -/
theorem bind_pure {first : EditM α} {change : α → β} {final : β → Forest → Prop}
    (creates : first.Creates before count post)
    (weaker : ∀ value after, post value after → final (change value) after) :
    (first >>= fun value => pure (change value)).Creates before count final := by
  have joined : (first >>= fun value => pure (change value)).Creates before (count + 0) final := by
    apply creates.bind
    intro value middle _ holds
    exact of_ok rfl rfl (weaker value middle holds)
  exact joined

theorem grows {edit : EditM α} (creates : edit.Creates before count post)
    {final : α → Forest → Prop} (weaker : ∀ value after, post value after → final value after) :
    edit.Grows before handles final := by
  by_cases room : before.size + count ≤ before.limit
  · obtain ⟨value, after, ran, size, holds⟩ := creates.room room
    exact .of_ok ran (by omega) (weaker value after holds)
  · obtain ⟨after, stopped, size⟩ := creates.full (by omega)
    exact .of_full stopped size

end Creates

theorem allocate_ok (room : before.size < Forest.capacity) (node : Node) :
    allocate node before = .ok ⟨before.size⟩ (before.push node) :=
  if_pos room

theorem allocate_full (full : Forest.capacity ≤ before.size) (node : Node) :
    allocate node before = .error (.fault .outOfHandles) before :=
  if_neg (Nat.not_lt.mpr full)

/-- A handle is only given out while there is room. -/
theorem of_allocate {node : Node} {id : NodeId} (ran : allocate node before = .ok id after) :
    before.size < Forest.capacity ∧ id = ⟨before.size⟩ ∧ after = before.push node := by
  by_cases room : before.size < Forest.capacity
  · rw [allocate_ok room, EStateM.Result.ok.injEq] at ran
    exact ⟨room, ran.1.symm, ran.2.symm⟩
  · rw [allocate_full (Nat.le_of_not_lt room)] at ran
    contradiction

theorem allocate_creates (node : Node) : (allocate node).Creates before 1 fun id after =>
    id = ⟨before.size⟩ ∧ after = before.push node where
  room room := by
    unfold Forest.limit at room
    exact ⟨_, _, allocate_ok (by omega) node, by simp, rfl, rfl⟩
  full full := by
    unfold Forest.limit at full
    refine ⟨before, allocate_full (by omega) node, ?_⟩
    rw [Forest.limit]
    omega

theorem allocate_grows (linked : before.Linked) {node : Node} (leaf : node.children = [])
    (isRoot : node.parent = none) (unplaced : node.position = none) :
    (allocate node).Grows before handles fun _ after => after.Follows checkCycles before := by
  apply (allocate_creates node).grows
  rintro _ _ ⟨_, rfl⟩
  exact linked.follows_push leaf isRoot unplaced checkCycles

theorem createError_grows (linked : before.Linked) (stream : TokenStream) (start stop : Token)
    (diagnostic : String) :
    (createError stream start stop diagnostic).Grows before handles fun _ after =>
      after.Follows checkCycles before := by
  unfold createError
  split
  · exact (Ensures.refuse .nodeStream).grows
  · exact allocate_grows linked rfl rfl rfl

/-- A token gives way to a token. -/
theorem updateToken_ensures (id : NodeId) (change : Token → Token) :
    (updateToken id change).Ensures before [id] fun _ after =>
      ∃ node token, before.get? id = some node ∧ node.content = .token token ∧
        after = before.modify id fun node => { node with content := .token (change token) } := by
  apply Ensures.bind_fetch (.inr List.mem_cons_self)
  intro node found
  split
  · next token content =>
      apply Ensures.update (.inr List.mem_cons_self)
      intro _ _
      exact ⟨node, token, found, content, rfl⟩
  · exact .refuse .noToken
  · exact .refuse .noToken

theorem updateToken_follows (linked : before.Linked) (id : NodeId) (change : Token → Token) :
    (updateToken id change).Ensures before [id] fun _ after =>
      after.Follows checkCycles before := by
  refine (updateToken_ensures id change).mono (List.Subset.refl _) ?_
  rintro _ after ⟨node, token, found, content, rfl⟩
  exact linked.follows_modify found (by simp [Node.links, content, Content.isNil]) checkCycles

theorem setBoundaries_ensures (id : NodeId) (start stop : Option Token) :
    (setBoundaries id start stop).Ensures before [id] fun _ after =>
      before.Holds id ∧ after = before.modify id fun node =>
        { node with start := start.bind Token.index, stop := stop.bind Token.index } :=
  Ensures.update (.inr List.mem_cons_self) fun _ found => ⟨Forest.holds_of_get? found, rfl⟩

theorem setBoundaries_follows (linked : before.Linked) (id : NodeId) (start stop : Option Token) :
    (setBoundaries id start stop).Ensures before [id] fun _ after =>
      after.Follows checkCycles before := by
  refine (setBoundaries_ensures id start stop).mono (List.Subset.refl _) ?_
  rintro _ after ⟨held, rfl⟩
  obtain ⟨node, found⟩ := (before.holds_iff id).mp held
  exact linked.follows_modify found rfl checkCycles

/-- The new root is created first, and the old root then comes below it. -/
theorem becomeRootToken_grows (linked : before.Linked) (token : Token)
    (oldRoot : Option NodeId) :
    (becomeRootToken checkCycles token oldRoot).Grows before oldRoot.toList fun _ after =>
      after.Follows checkCycles before := by
  have created : (create token).Creates before 1 fun id after =>
      id = ⟨before.size⟩ ∧ after = before.push { content := .token token } := allocate_creates _
  by_cases room : before.size + 1 ≤ before.limit
  · obtain ⟨_, _, ran, size, rfl, rfl⟩ := created.room room
    have pushed : (before.push { content := .token token }).Follows checkCycles before :=
      linked.follows_push rfl rfl rfl checkCycles
    apply Grows.bind_ok ran (by omega)
    apply (((becomeRoot_follows pushed.linked ⟨before.size⟩ oldRoot).of_holds
      (before.holds_push_last _)).grows).mono
    intro _ after next
    exact next.trans pushed
  · obtain ⟨after, stopped, size⟩ := created.full (by omega)
    exact .of_full (bind_error stopped) size

end EditM

end SyntaxForest
