import SyntaxForest.Builder

/-!
Runs of a builder. A request is complete when it gets a reply or a refusal, and the builder then
goes on. A fault and a walk without end complete nothing, so no run goes past them.
-/

namespace SyntaxForest.Builder

variable {builder after : Builder} {request : Request}

/-- The builder after a request, provided that the request is completed. -/
def step? (builder : Builder) (request : Request) : Option Builder :=
  match builder.perform request with
  | (.ok _, after) => some after
  | (.error (.refused _), after) => some after
  | (.error (.fault _), _) => none
  | (.error .endless, _) => none

/-- The builder after a list of requests, provided that each of them is completed. -/
def run? (builder : Builder) : List Request → Option Builder
  | [] => some builder
  | request :: rest => do
      let next ← builder.step? request
      next.run? rest

/-- The outcomes of a list of requests, each with the builder as it then stands, up to the first
request that is not completed. -/
def trace (builder : Builder) : List Request → List (Except Stop Reply × Builder)
  | [] => []
  | request :: rest =>
      builder.perform request ::
        match builder.step? request with
        | some next => next.trace rest
        | none => []

/-- The requests of a run, each with its outcome, up to the first request that is not completed. -/
def history (builder : Builder) (requests : List Request) :
    List (Request × Except Stop Reply) :=
  requests.zip ((builder.trace requests).map Prod.fst)

/-- A reachable builder is left behind by completed requests to a new one. -/
def Reachable (builder : Builder) : Prop :=
  ∃ options requests, (ofOptions options).run? requests = some builder

theorem step?_eq_some_iff : builder.step? request = some after ↔
    (∃ reply, builder.perform request = (.ok reply, after)) ∨
      ∃ refusal, builder.perform request = (.error (.refused refusal), after) := by
  unfold step?
  split <;> simp_all

theorem history_cons (builder : Builder) (request : Request) (rest : List Request) :
    builder.history (request :: rest) = (request, (builder.perform request).1) ::
      match builder.step? request with
      | some next => next.history rest
      | none => [] := by
  cases completed : builder.step? request <;> simp [history, trace, completed]

theorem perform_of_step? (completed : builder.step? request = some after) :
    (builder.perform request).2 = after := by
  rcases step?_eq_some_iff.mp completed with ⟨reply, performed⟩ | ⟨refusal, performed⟩
  · rw [performed]
  · rw [performed]

/-- A reply to an edit changes the forest of the builder and nothing else. -/
theorem apply_of_reply {edit : Edit} {reply : Reply}
    (replied : builder.perform (.edit edit) = (.ok reply, after)) :
    edit.apply builder.options.checkCycles builder.forest = .ok reply after.forest ∧
      after = { builder with forest := after.forest } := by
  cases ran : edit.apply builder.options.checkCycles builder.forest with
  | error stop forest => simp [perform, ran] at replied
  | ok other forest =>
      simp only [perform, ran, Prod.mk.injEq, Except.ok.injEq] at replied
      obtain ⟨rfl, rfl⟩ := replied
      exact ⟨rfl, rfl⟩

/-- A stop of an edit changes the forest of the builder at most. -/
theorem apply_of_stop {edit : Edit} {stop : Stop}
    (stopped : builder.perform (.edit edit) = (.error stop, after)) :
    edit.apply builder.options.checkCycles builder.forest = .error stop after.forest ∧
      after = { builder with forest := after.forest } := by
  cases ran : edit.apply builder.options.checkCycles builder.forest with
  | ok reply forest => simp [perform, ran] at stopped
  | error other forest =>
      simp only [perform, ran, Prod.mk.injEq, Except.error.injEq] at stopped
      obtain ⟨rfl, rfl⟩ := stopped
      exact ⟨rfl, rfl⟩

theorem perform_of_reply {edit : Edit} {reply : Reply} {forest : Forest}
    (ran : edit.apply builder.options.checkCycles builder.forest = .ok reply forest) :
    builder.perform (.edit edit) = (.ok reply, { builder with forest }) := by
  simp only [perform, ran]

theorem perform_of_stop {edit : Edit} {stop : Stop} {forest : Forest}
    (stopped : edit.apply builder.options.checkCycles builder.forest = .error stop forest) :
    builder.perform (.edit edit) = (.error stop, { builder with forest }) := by
  simp only [perform, stopped]

/-- What every completed request preserves is preserved by every run. -/
theorem run?_preserves {motive : Builder → Prop}
    (step : ∀ builder request after, builder.step? request = some after →
      motive builder → motive after)
    {requests : List Request} (ran : builder.run? requests = some after)
    (holds : motive builder) : motive after := by
  induction requests generalizing builder with
  | nil =>
      cases ran
      exact holds
  | cons request rest ih =>
      obtain ⟨next, completed, ran⟩ := Option.bind_eq_some_iff.mp ran
      exact ih ran (step builder request next completed holds)

/-- What holds of new builders and is preserved by completed requests holds of all reachable
builders. -/
theorem Reachable.invariant {motive : Builder → Prop}
    (initial : ∀ options, motive (ofOptions options))
    (step : ∀ builder request after, builder.step? request = some after →
      motive builder → motive after)
    (reachable : builder.Reachable) : motive builder := by
  obtain ⟨options, requests, ran⟩ := reachable
  exact run?_preserves step ran (initial options)

end SyntaxForest.Builder
