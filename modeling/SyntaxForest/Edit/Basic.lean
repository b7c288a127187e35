import SyntaxForest.Forest.Basic

/-!
Edits of a forest. An edit that stops also returns the forest as it then stands, so that nothing is
undone silently.
-/

namespace SyntaxForest

/-- An edit yields a value or a stop, and in both cases the forest that it leaves behind. -/
abbrev EditM := EStateM Stop Forest

namespace EditM

/-- A question about the forest changes nothing. -/
def query {α : Type} (question : Forest → Except Stop α) : EditM α := fun forest =>
  match question forest with
  | .ok value => .ok value forest
  | .error stop => .error stop forest

def refuse {α : Type} (refusal : Refusal) : EditM α := throw (.refused refusal)

def fail {α : Type} (fault : Fault) : EditM α := throw (.fault fault)

def fetch (id : NodeId) : EditM Node := query fun forest => forest.fetch id

/-- Writing to a handle that the forest does not hold is a fault. -/
def update (id : NodeId) (change : Node → Node) : EditM Unit := fun forest =>
  if id.index < forest.size then .ok () (forest.modify id change)
  else .error (.fault (.missingNode id forest.size)) forest

/-- The handle of a new node is the number of nodes before it. A full forest gives out no handle. -/
def allocate (node : Node) : EditM NodeId := fun forest =>
  if forest.size < Forest.capacity then .ok ⟨forest.size⟩ (forest.push node)
  else .error (.fault .outOfHandles) forest

/-- An edit in two parts that ends with a value has two parts that do. -/
theorem ok_of_bind {α β : Type} {first : EditM α} {next : α → EditM β} {before after : Forest}
    {value : β} (ran : (first >>= next) before = .ok value after) :
    ∃ part middle, first before = .ok part middle ∧ next part middle = .ok value after := by
  change EStateM.bind first next before = .ok value after at ran
  unfold EStateM.bind at ran
  split at ran
  · next part middle ended => exact ⟨part, middle, ended, ran⟩
  · contradiction

/-- However the edit ends, it has neither created nor removed a node. -/
def KeepsSize {α : Type} (edit : EditM α) : Prop :=
  ∀ before, match edit before with
    | .ok _ after | .error _ after => after.size = before.size

namespace KeepsSize

variable {α β : Type} {before after : Forest}

theorem size_eq {edit : EditM α} {value : α} (keeps : edit.KeepsSize)
    (ran : edit before = .ok value after) : after.size = before.size := by
  have kept := keeps before
  rwa [ran] at kept

theorem pure (value : α) : KeepsSize (Pure.pure value : EditM α) :=
  fun _ => rfl

theorem fail (fault : Fault) : KeepsSize (EditM.fail fault : EditM α) :=
  fun _ => rfl

theorem query (question : Forest → Except Stop α) : KeepsSize (EditM.query question) := by
  intro before
  unfold EditM.query
  cases question before <;> rfl

theorem update (id : NodeId) (change : Node → Node) : KeepsSize (EditM.update id change) := by
  intro before
  by_cases held : id.index < before.size
  · simp [EditM.update, held]
  · simp [EditM.update, held]

theorem bind {first : EditM α} {next : α → EditM β} (keeps : first.KeepsSize)
    (later : ∀ value, (next value).KeepsSize) : (first >>= next).KeepsSize := by
  intro before
  have kept := keeps before
  change match EStateM.bind first next before with
    | .ok _ after | .error _ after => after.size = before.size
  unfold EStateM.bind
  cases ran : first before with
  | ok value middle =>
      rw [ran] at kept
      have rest := later value middle
      rw [kept] at rest
      exact rest
  | error stop middle =>
      rw [ran] at kept
      exact kept

end KeepsSize

end EditM

end SyntaxForest
