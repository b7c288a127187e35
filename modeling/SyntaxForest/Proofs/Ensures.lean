import SyntaxForest.Edit.Basic
import SyntaxForest.Proofs.Links
import Mathlib.Data.List.Forall2

/-!
Rules for reasoning about questions and edits step by step. A question or an edit blames the caller
when every fault it stops with names a handle from a given list that the forest does not hold.
-/

namespace SyntaxForest

/-- Every fault of the answer names a listed handle that the forest does not hold. -/
def Forest.Blames {α : Type} (forest : Forest) (handles : List NodeId)
    (answer : Except Stop α) : Prop :=
  ∀ fault, answer = .error (.fault fault) →
    ∃ id ∈ handles, fault = .missingNode id forest.size ∧ ¬ forest.Holds id

namespace Forest.Blames

variable {α β : Type} {forest : Forest} {handles : List NodeId}

theorem ok (value : α) : forest.Blames handles (.ok value : Except Stop α) := by
  intro fault stopped
  contradiction

theorem refused (refusal : Refusal) :
    forest.Blames handles (.error (.refused refusal) : Except Stop α) := by
  intro fault stopped
  simp at stopped

theorem endless : forest.Blames handles (.error .endless : Except Stop α) := by
  intro fault stopped
  simp at stopped

theorem bind {first : Except Stop α} {next : α → Except Stop β}
    (blames : forest.Blames handles first)
    (later : ∀ value, first = .ok value → forest.Blames handles (next value)) :
    forest.Blames handles (first >>= next) := by
  intro fault stopped
  cases result : first with
  | ok value =>
      rw [result] at stopped
      exact later value result fault stopped
  | error stop =>
      rw [result] at stopped
      apply blames fault
      rw [result]
      simpa [Bind.bind, Except.bind] using stopped

theorem map {first : Except Stop α} (blames : forest.Blames handles first) (change : α → β) :
    forest.Blames handles (change <$> first) := by
  intro fault stopped
  apply blames fault
  cases first with
  | ok value => simp [Functor.map, Except.map] at stopped
  | error stop => simpa [Functor.map, Except.map] using stopped

theorem mapM {ask : α → Except Stop β} {items : List α}
    (blames : ∀ item ∈ items, forest.Blames handles (ask item)) :
    forest.Blames handles (items.mapM ask) := by
  induction items with
  | nil => exact ok []
  | cons item rest ih =>
      rw [List.mapM_cons]
      apply bind (blames item List.mem_cons_self)
      intro value _
      apply bind (ih fun other member => blames other (List.mem_cons_of_mem _ member))
      intro values _
      exact ok _

end Forest.Blames

/-- An answer in two parts has two answers. -/
theorem answer_of_bind {α β : Type} {first : Except Stop α} {next : α → Except Stop β} {value : β}
    (answered : first >>= next = .ok value) :
    ∃ part, first = .ok part ∧ next part = .ok value := by
  cases first with
  | ok part => exact ⟨part, rfl, answered⟩
  | error stop => simp [Bind.bind, Except.bind] at answered

/-- Two questions that go on alike from every answer have the same answer. -/
theorem bind_congr_of_ok {α β : Type} {first : Except Stop α} {next other : α → Except Stop β}
    (same : ∀ value, first = .ok value → next value = other value) :
    first >>= next = first >>= other := by
  cases first with
  | ok value => exact same value rfl
  | error stop => rfl

theorem mapM_congr_of_mem {α β : Type} {ask other : α → Except Stop β} {items : List α}
    (same : ∀ item ∈ items, ask item = other item) : items.mapM ask = items.mapM other := by
  induction items with
  | nil => rfl
  | cons item rest ih =>
      rw [List.mapM_cons, List.mapM_cons, same item List.mem_cons_self,
        ih fun later member => same later (List.mem_cons_of_mem _ member)]

/-- A list of questions is answered when every one of them is. -/
theorem mapM_eq_ok_iff {α β : Type} {ask : α → Except Stop β} {items : List α}
    {values : List β} : items.mapM ask = .ok values ↔
      List.Forall₂ (fun item value => ask item = .ok value) items values := by
  induction items generalizing values with
  | nil =>
      rw [List.mapM_nil, List.forall₂_nil_left_iff]
      constructor
      · rintro ⟨⟩
        rfl
      · rintro rfl
        rfl
  | cons item rest ih =>
      rw [List.mapM_cons, List.forall₂_cons_left_iff]
      constructor
      · intro answered
        obtain ⟨value, first, remaining⟩ := answer_of_bind answered
        obtain ⟨others, later, same⟩ := answer_of_bind remaining
        cases same
        exact ⟨value, others, first, ih.mp later, rfl⟩
      · rintro ⟨value, others, first, answered, rfl⟩
        rw [first, ih.mpr answered]
        rfl

namespace Forest

theorem fetch_eq_ok {forest : Forest} {id : NodeId} {node : Node}
    (found : forest.get? id = some node) : forest.fetch id = .ok node := by
  simp [fetch, found]

theorem get?_of_fetch {forest : Forest} {id : NodeId} {node : Node}
    (fetched : forest.fetch id = .ok node) : forest.get? id = some node := by
  unfold fetch at fetched
  split at fetched
  · simp_all
  · contradiction

theorem blames_fetch (forest : Forest) {handles : List NodeId} {id : NodeId}
    (listed : forest.Holds id ∨ id ∈ handles) : forest.Blames handles (forest.fetch id) := by
  intro fault stopped
  by_cases held : forest.Holds id
  · obtain ⟨node, found⟩ := (forest.holds_iff id).mp held
    rw [fetch_eq_ok found] at stopped
    contradiction
  · refine ⟨id, listed.resolve_left held, ?_, held⟩
    simpa [fetch, get?_eq_none held] using stopped.symm

end Forest

namespace EditM

variable {α β : Type} {before middle after : Forest} {handles : List NodeId}

/-- An edit that ends with a value satisfies `post`, and an edit that stops with a fault names a
listed handle that the forest does not hold. The edit neither creates nor removes nodes. -/
def Ensures (edit : EditM α) (before : Forest) (handles : List NodeId)
    (post : α → Forest → Prop) : Prop :=
  match edit before with
  | .ok value after => after.size = before.size ∧ post value after
  | .error stop after => ∀ fault, stop = .fault fault → after.size = before.size ∧
      ∃ id ∈ handles, fault = .missingNode id after.size ∧ ¬ after.Holds id

theorem bind_ok {first : EditM α} {next : α → EditM β} {value : α}
    (ran : first before = .ok value after) : (first >>= next) before = next value after := by
  change EStateM.bind first next before = _
  simp only [EStateM.bind, ran]

theorem bind_error {first : EditM α} {next : α → EditM β} {stop : Stop}
    (stopped : first before = .error stop after) :
    (first >>= next) before = .error stop after := by
  change EStateM.bind first next before = _
  simp only [EStateM.bind, stopped]

theorem query_ok {question : Forest → Except Stop α} {value : α}
    (answered : question before = .ok value) : query question before = .ok value before := by
  simp only [query, answered]

theorem query_error {question : Forest → Except Stop α} {stop : Stop}
    (stopped : question before = .error stop) : query question before = .error stop before := by
  simp only [query, stopped]

theorem fetch_ok {id : NodeId} {node : Node} (found : before.get? id = some node) :
    fetch id before = .ok node before :=
  query_ok (Forest.fetch_eq_ok found)

theorem update_ok {id : NodeId} (held : before.Holds id) (change : Node → Node) :
    update id change before = .ok () (before.modify id change) :=
  if_pos held

namespace Ensures

variable {post : α → Forest → Prop}

theorem of_ok {edit : EditM α} {value : α} (ran : edit before = .ok value after)
    (size : after.size = before.size) (holds : post value after) :
    edit.Ensures before handles post := by
  simp only [Ensures, ran]
  exact ⟨size, holds⟩

theorem pure {value : α} (holds : post value before) :
    Ensures (Pure.pure value) before handles post :=
  of_ok rfl rfl holds

theorem refuse (refusal : Refusal) :
    Ensures (EditM.refuse refusal) before handles post := by
  intro fault stopped
  contradiction

/-- A value satisfies what the edit ensures. -/
theorem result {edit : EditM α} {value : α} (ensured : edit.Ensures before handles post)
    (ran : edit before = .ok value after) : post value after := by
  simp only [Ensures, ran] at ensured
  exact ensured.2

/-- A fault is due to a listed handle. -/
theorem blame {edit : EditM α} {fault : Fault} (ensured : edit.Ensures before handles post)
    (stopped : edit before = .error (.fault fault) after) : after.size = before.size ∧
      ∃ id ∈ handles, fault = .missingNode id after.size ∧ ¬ after.Holds id := by
  simp only [Ensures, stopped] at ensured
  exact ensured fault rfl

theorem bind {first : EditM α} {next : α → EditM β} {final : β → Forest → Prop}
    (ensured : first.Ensures before handles post)
    (later : ∀ value middle, middle.size = before.size → post value middle →
      (next value).Ensures middle handles final) :
    (first >>= next).Ensures before handles final := by
  cases ran : first before with
  | ok value middle =>
      simp only [Ensures, ran] at ensured
      have rest := later value middle ensured.1 ensured.2
      simp only [Ensures, EditM.bind_ok ran] at rest ⊢
      cases ended : next value middle with
      | ok result after =>
          simp only [ended] at rest
          exact ⟨rest.1.trans ensured.1, rest.2⟩
      | error stop after =>
          simp only [ended] at rest
          intro fault stopped
          exact ⟨(rest fault stopped).1.trans ensured.1, (rest fault stopped).2⟩
  | error stop middle =>
      simp only [Ensures, ran] at ensured
      simp only [Ensures, bind_error ran]
      exact ensured

theorem bind_ok {first : EditM α} {next : α → EditM β} {value : α}
    {final : β → Forest → Prop} (ran : first before = .ok value middle)
    (size : middle.size = before.size)
    (later : (next value).Ensures middle handles final) :
    (first >>= next).Ensures before handles final := by
  have here : first.Ensures before handles fun found forest =>
      found = value ∧ forest = middle := of_ok ran size ⟨rfl, rfl⟩
  apply bind here
  rintro found forest _ ⟨rfl, rfl⟩
  exact later

theorem query {question : Forest → Except Stop α} (blames : before.Blames handles (question before))
    (answered : ∀ value, question before = .ok value → post value before) :
    Ensures (EditM.query question) before handles post := by
  cases result : question before with
  | ok value => exact of_ok (query_ok result) rfl (answered value result)
  | error stop =>
      simp only [Ensures, query_error result, true_and]
      rintro fault rfl
      exact blames fault result

theorem bind_query {question : Forest → Except Stop α} {next : α → EditM β}
    {final : β → Forest → Prop} (blames : before.Blames handles (question before))
    (later : ∀ value, question before = .ok value →
      (next value).Ensures before handles final) :
    (EditM.query question >>= next).Ensures before handles final := by
  have here : (EditM.query question).Ensures before handles fun value forest =>
      question before = .ok value ∧ forest = before := query blames fun _ answer => ⟨answer, rfl⟩
  apply bind here
  rintro value forest _ ⟨answer, rfl⟩
  exact later value answer

theorem bind_fetch {id : NodeId} {next : Node → EditM β} {final : β → Forest → Prop}
    (listed : before.Holds id ∨ id ∈ handles)
    (later : ∀ node, before.get? id = some node → (next node).Ensures before handles final) :
    (EditM.fetch id >>= next).Ensures before handles final :=
  bind_query (before.blames_fetch listed) fun node fetched =>
    later node (Forest.get?_of_fetch fetched)

theorem update {id : NodeId} {change : Node → Node} {final : Unit → Forest → Prop}
    (listed : before.Holds id ∨ id ∈ handles)
    (changed : ∀ node, before.get? id = some node → final () (before.modify id change)) :
    (EditM.update id change).Ensures before handles final := by
  by_cases held : before.Holds id
  · obtain ⟨node, found⟩ := (before.holds_iff id).mp held
    exact of_ok (update_ok held change) (by simp) (changed node found)
  · have stopped : EditM.update id change before =
        .error (.fault (.missingNode id before.size)) before := if_neg held
    simp only [Ensures, stopped, true_and]
    rintro fault ⟨⟩
    exact ⟨id, listed.resolve_left held, rfl, held⟩

theorem map {edit : EditM α} {change : α → β} {final : β → Forest → Prop}
    (ensured : edit.Ensures before handles fun value => final (change value)) :
    (change <$> edit).Ensures before handles final := by
  rw [map_eq_pure_bind]
  exact bind ensured fun value middle _ holds => pure holds

theorem mono {edit : EditM α} {final : α → Forest → Prop} {more : List NodeId}
    (ensured : edit.Ensures before handles post) (listed : handles ⊆ more)
    (weaker : ∀ value after, post value after → final value after) :
    edit.Ensures before more final := by
  cases ran : edit before with
  | ok value after =>
      simp only [Ensures, ran] at ensured ⊢
      exact ⟨ensured.1, weaker value after ensured.2⟩
  | error stop after =>
      simp only [Ensures, ran] at ensured ⊢
      intro fault stopped
      obtain ⟨size, id, member, named⟩ := ensured fault stopped
      exact ⟨size, id, listed member, named⟩

/-- A handle that the forest holds is never to blame. -/
theorem of_holds {edit : EditM α} {id : NodeId} (ensured : edit.Ensures before (id :: handles) post)
    (held : before.Holds id) : edit.Ensures before handles post := by
  cases ran : edit before with
  | ok value after =>
      simp only [Ensures, ran] at ensured ⊢
      exact ensured
  | error stop after =>
      simp only [Ensures, ran] at ensured ⊢
      intro fault stopped
      obtain ⟨size, other, member, named, missing⟩ := ensured fault stopped
      have different : other ≠ id := by
        rintro rfl
        rw [Forest.Holds, size] at missing
        exact missing held
      exact ⟨size, other, List.mem_of_ne_of_mem different member, named, missing⟩

end Ensures

end EditM

end SyntaxForest
