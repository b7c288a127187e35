import SyntaxForest.Proofs.Runs
import Mathlib.Data.List.Induction
import Mathlib.Data.List.Nodup

/-!
Serial numbers. The next number is the size of the table, so it is new only as long as the numbers of
the table are those below its size. This invariant is kept by every request. Above it stands the list
of the handles in the order of their first mention, and the number of a handle is its place there.
-/

namespace SyntaxForest

namespace Serials

variable {serials : Serials} {node other : NodeId} {number : Nat}

/-- No handle is stored twice, and the handles share out the numbers below the size among them. -/
structure Dense (serials : Serials) : Prop where
  nodup : (serials.entries.map Prod.fst).Nodup
  bounded : ∀ node number, serials.find? node = some number → number < serials.size
  distinct : ∀ node other number, serials.find? node = some number →
    serials.find? other = some number → node = other
  onto : ∀ number < serials.size, ∃ node, serials.find? node = some number

theorem dense_empty : empty.Dense where
  nodup := List.nodup_nil
  bounded _ _ found := by contradiction
  distinct _ _ _ found := by contradiction
  onto number inside := absurd inside (Nat.not_lt_zero number)

theorem find?_eq_none_iff : serials.find? node = none ↔ node ∉ serials.entries.map Prod.fst := by
  rw [find?, List.lookup_eq_none_iff]
  constructor
  · intro absent stored
    obtain ⟨entry, member, rfl⟩ := List.mem_map.mp stored
    simpa using absent entry member
  · intro absent entry member
    rw [bne_iff_ne]
    rintro rfl
    exact absent (List.mem_map_of_mem member)

/-- The next number belongs to no handle, so it may be stored for a new one. -/
theorem Dense.insert (dense : serials.Dense) (new : serials.find? node = none) :
    (serials.insert node serials.size).Dense where
  nodup := List.nodup_cons.mpr ⟨find?_eq_none_iff.mp new, dense.nodup⟩
  bounded other number found := by
    rw [find?_insert] at found
    rw [size_insert]
    split_ifs at found
    · cases found
      exact Nat.lt_succ_self _
    · exact Nat.lt_succ_of_lt (dense.bounded other number found)
  distinct first second number foundFirst foundSecond := by
    rw [find?_insert] at foundFirst foundSecond
    split_ifs at foundFirst foundSecond with isFirst isSecond isSecond
    · rw [isFirst, isSecond]
    · cases foundFirst
      exact absurd (dense.bounded second _ foundSecond) (Nat.lt_irrefl _)
    · cases foundSecond
      exact absurd (dense.bounded first _ foundFirst) (Nat.lt_irrefl _)
    · exact dense.distinct first second number foundFirst foundSecond
  onto number inside := by
    rw [size_insert, Nat.lt_succ_iff_lt_or_eq] at inside
    rcases inside with old | rfl
    · obtain ⟨other, found⟩ := dense.onto number old
      refine ⟨other, ?_⟩
      rw [find?_insert, if_neg, found]
      rintro rfl
      rw [new] at found
      contradiction
    · exact ⟨node, by rw [find?_insert, if_pos rfl]⟩

theorem Dense.assign (dense : serials.Dense) (node : NodeId) : (serials.assign node).2.Dense := by
  cases found : serials.find? node with
  | some number => rwa [assign_of_some found]
  | none =>
      rw [assign_of_none found]
      exact dense.insert found

/-- The number that is handed out is the one that is stored. -/
theorem find?_assign_self (serials : Serials) (node : NodeId) :
    (serials.assign node).2.find? node = some (serials.assign node).1 := by
  cases found : serials.find? node with
  | some number => rw [assign_of_some found, found]
  | none => rw [assign_of_none found, find?_insert, if_pos rfl]

/-- A handle with a number keeps it. -/
theorem find?_assign_of_some (found : serials.find? other = some number) (node : NodeId) :
    (serials.assign node).2.find? other = some number := by
  cases known : serials.find? node with
  | some number => rwa [assign_of_some known]
  | none =>
      rw [assign_of_none known, find?_insert, if_neg, found]
      rintro rfl
      rw [known] at found
      contradiction

/-- The table after all of the handles have been asked about in turn. -/
def assignAll (serials : Serials) (asked : List NodeId) : Serials :=
  asked.foldl (fun serials node => (serials.assign node).2) serials

theorem Dense.assignAll (dense : serials.Dense) (asked : List NodeId) :
    (serials.assignAll asked).Dense := by
  induction asked generalizing serials with
  | nil => exact dense
  | cons node rest ih => exact ih (dense.assign node)

theorem find?_assignAll_of_some (found : serials.find? node = some number) (asked : List NodeId) :
    (serials.assignAll asked).find? node = some number := by
  induction asked generalizing serials with
  | nil => exact found
  | cons other rest ih => exact ih (find?_assign_of_some found other)

/-- The number of a handle is its place in the list. -/
structure Lists (serials : Serials) (mentions : List NodeId) : Prop where
  size : serials.size = mentions.length
  place : ∀ node number, serials.find? node = some number ↔ mentions[number]? = some node

namespace Lists

variable {mentions : List NodeId}

theorem exists_find?_iff (lists : serials.Lists mentions) :
    (∃ number, serials.find? node = some number) ↔ node ∈ mentions := by
  simp only [lists.place, List.mem_iff_getElem?]

/-- A new handle comes last. -/
theorem insert (lists : serials.Lists mentions) (new : serials.find? node = none) :
    (serials.insert node serials.size).Lists (mentions ++ [node]) where
  size := by rw [size_insert, lists.size, List.length_append, List.length_singleton]
  place other number := by
    rw [find?_insert, lists.size, List.getElem?_append]
    by_cases isNew : other = node
    · subst other
      have absent : mentions[number]? ≠ some node := by
        intro listed
        rw [← lists.place, new] at listed
        contradiction
      rw [if_pos rfl, Option.some.injEq]
      split_ifs with inside
      · exact iff_of_false (Nat.ne_of_gt inside) absent
      · simp only [List.getElem?_singleton]
        split_ifs <;> simp <;> omega
    · rw [if_neg isNew, lists.place]
      split_ifs with inside
      · rfl
      · rw [List.getElem?_eq_none (Nat.le_of_not_lt inside), List.getElem?_singleton]
        split_ifs <;> simp [Ne.symm isNew]

/-- The handles that a new table is asked about are listed at their first mention. -/
theorem of_asked (asked : List NodeId) : (empty.assignAll asked).Lists asked.eraseDups := by
  induction asked using List.reverseRecOn with
  | nil => exact ⟨rfl, by simp [Serials.assignAll, find?, empty]⟩
  | append_singleton rest node ih =>
      have last : empty.assignAll (rest ++ [node]) =
          ((empty.assignAll rest).assign node).2 := by
        simp [Serials.assignAll]
      rw [last, List.eraseDups_append]
      cases found : (empty.assignAll rest).find? node with
      | some number =>
          have old : node ∈ rest :=
            List.mem_eraseDups.mp (ih.exists_find?_iff.mp ⟨number, found⟩)
          rw [assign_of_some found]
          simpa [List.removeAll, old] using ih
      | none =>
          have new : node ∉ rest := by
            rw [← List.mem_eraseDups, ← ih.exists_find?_iff, found]
            simp
          rw [assign_of_none found]
          simpa [List.removeAll, new, List.eraseDups_cons] using ih.insert found

end Lists

end Serials

namespace Builder

variable {builder : Builder} {request : Request}

/-- The handles that a run asks the serial number of, each with the outcome. -/
def serialAnswers (builder : Builder) (requests : List Request) :
    List (NodeId × Except Stop Reply) :=
  (builder.history requests).filterMap fun
    | (.serial node, outcome) => some (node, outcome)
    | _ => none

theorem perform_serial (builder : Builder) (node : NodeId) :
    (builder.perform (.serial node)).1 = .ok (.number (builder.serials.assign node).1) := rfl

/-- Only the wish for a serial number can change the table of serial numbers. -/
theorem serials_of_perform (builder : Builder) (other : ∀ node, request ≠ .serial node) :
    (builder.perform request).2.serials = builder.serials := by
  cases request with
  | serial node => exact absurd rfl (other node)
  | query query => rfl
  | edit edit =>
      cases ran : edit.apply builder.options.checkCycles builder.forest with
      | ok reply forest => rw [perform_of_reply ran]
      | error stop forest => rw [perform_of_stop ran]

/-- No request disturbs the table. -/
theorem dense_of_perform (dense : builder.serials.Dense) (request : Request) :
    (builder.perform request).2.serials.Dense := by
  by_cases asks : ∃ node, request = .serial node
  · obtain ⟨node, rfl⟩ := asks
    exact dense.assign node
  · rwa [serials_of_perform builder (not_exists.mp asks)]

theorem Reachable.dense (reachable : builder.Reachable) : builder.serials.Dense := by
  apply reachable.invariant (motive := fun builder => builder.serials.Dense)
  · intro _
    exact Serials.dense_empty
  · intro builder request after completed dense
    rw [← perform_of_step? completed]
    exact dense_of_perform dense request

theorem serialAnswers_cons_serial (builder : Builder) (node : NodeId) (rest : List Request) :
    builder.serialAnswers (.serial node :: rest) =
      (node, .ok (.number (builder.serials.assign node).1)) ::
        { builder with serials := (builder.serials.assign node).2 }.serialAnswers rest := by
  rw [serialAnswers, history_cons]
  rfl

/-- A run passes over its other requests. -/
theorem serialAnswers_cons_other (other : ∀ node, request ≠ .serial node) (rest : List Request) :
    builder.serialAnswers (request :: rest) =
      match builder.step? request with
      | some next => next.serialAnswers rest
      | none => [] := by
  rw [serialAnswers, history_cons, List.filterMap_cons_none]
  · cases builder.step? request <;> rfl
  · cases request with
    | serial node => exact absurd rfl (other node)
    | query query => rfl
    | edit edit => rfl

/-- Every answer of a run is the number that the handle has when all handles of the run are stored.
-/
theorem serialAnswers_stored (builder : Builder) (requests : List Request) :
    ∀ answer ∈ builder.serialAnswers requests, ∃ number, answer.2 = .ok (.number number) ∧
      (builder.serials.assignAll ((builder.serialAnswers requests).map Prod.fst)).find? answer.1 =
        some number := by
  induction requests generalizing builder with
  | nil => simp [serialAnswers, history]
  | cons request rest ih =>
      by_cases asks : ∃ node, request = .serial node
      · obtain ⟨node, rfl⟩ := asks
        rw [serialAnswers_cons_serial]
        intro answer member
        rcases List.mem_cons.mp member with rfl | later
        · exact ⟨_, rfl, Serials.find?_assignAll_of_some
            (builder.serials.find?_assign_self node) _⟩
        · exact ih _ answer later
      · rw [not_exists] at asks
        rw [serialAnswers_cons_other asks]
        cases completed : builder.step? request with
        | none => simp
        | some next =>
            have kept : next.serials = builder.serials := by
              rw [← perform_of_step? completed, serials_of_perform builder asks]
            rw [← kept]
            exact ih next

/-- In every run of a new builder two answers are the same exactly when they are about the same
handle, and the handles in the order of their first mention have the numbers from zero on. No other
request changes what a builder would answer. In every reachable builder the handles with a number
share out the numbers below the size of the table. -/
theorem serials_count_handles (options : Options) (requests : List Request) :
    (∀ first ∈ (ofOptions options).serialAnswers requests,
      ∀ second ∈ (ofOptions options).serialAnswers requests,
        first.2 = second.2 ↔ first.1 = second.1) ∧
    (∀ position node,
      (((ofOptions options).serialAnswers requests).map Prod.fst).eraseDups[position]? =
        some node →
      ∀ outcome, (node, outcome) ∈ (ofOptions options).serialAnswers requests →
        outcome = .ok (.number position)) ∧
    (∀ (builder : Builder) (request : Request), (∀ node, request ≠ .serial node) →
      ∀ node, ((builder.perform request).2.perform (.serial node)).1 =
        (builder.perform (.serial node)).1) ∧
    ∀ builder : Builder, builder.Reachable → builder.serials.Dense := by
  have stored := (ofOptions options).serialAnswers_stored requests
  have new : (ofOptions options).serials = .empty := rfl
  rw [new] at stored
  refine ⟨?_, ?_, ?_, fun _ reachable => reachable.dense⟩
  · intro first answered second answeredOther
    obtain ⟨number, isNumber, found⟩ := stored first answered
    obtain ⟨other, isOther, foundOther⟩ := stored second answeredOther
    rw [isNumber, isOther, Except.ok.injEq, Reply.number.injEq]
    constructor
    · rintro rfl
      exact (Serials.dense_empty.assignAll _).distinct _ _ number found foundOther
    · intro same
      rw [same, foundOther, Option.some.injEq] at found
      exact found.symm
  · intro position node listed outcome answered
    obtain ⟨number, isNumber, found⟩ := stored (node, outcome) answered
    have place := ((Serials.Lists.of_asked _).place node position).mpr listed
    rw [found, Option.some.injEq] at place
    rw [← place]
    exact isNumber
  · intro builder request other node
    rw [perform_serial, perform_serial, serials_of_perform builder other]

/-- Three handles are asked about, one of them before it exists and one that never does. In between
a node is created, put below itself in vain, and copied. -/
theorem serials_count_handles_mixed : ∃ requests,
    (ofOptions {}).serialAnswers requests =
      [(⟨1⟩, .ok (.number 0)), (⟨0⟩, .ok (.number 1)), (⟨1⟩, .ok (.number 0)),
        (⟨9⟩, .ok (.number 2)), (⟨0⟩, .ok (.number 1))] ∧
    (∀ outcome, (⟨9⟩, outcome) ∈ (ofOptions {}).serialAnswers requests →
      outcome = .ok (.number 2)) ∧
    (∀ answer ∈ (ofOptions {}).serialAnswers requests,
      answer.2 = .ok (.number 0) ↔ answer.1 = ⟨1⟩) ∧
    (((ofOptions {}).perform (.edit (.addChild ⟨0⟩ ⟨0⟩))).2.perform (.serial ⟨5⟩)).1 =
      ((ofOptions {}).perform (.serial ⟨5⟩)).1 ∧
    ∃ builder, (ofOptions {}).run? requests = some builder ∧ builder.serials.size = 3 ∧
      builder.serials.Dense := by
  let requests : List Request := [.serial ⟨1⟩, .edit (.createImaginary 4 "a"), .serial ⟨0⟩,
    .edit (.addChild ⟨0⟩ ⟨0⟩), .serial ⟨1⟩, .edit (.copyTree ⟨0⟩), .serial ⟨9⟩, .serial ⟨0⟩]
  have answers : (ofOptions {}).serialAnswers requests =
      [(⟨1⟩, .ok (.number 0)), (⟨0⟩, .ok (.number 1)), (⟨1⟩, .ok (.number 0)),
        (⟨9⟩, .ok (.number 2)), (⟨0⟩, .ok (.number 1))] := by decide +kernel
  have finished : ∃ builder, (ofOptions {}).run? requests = some builder ∧
      builder.serials.size = 3 := by
    have size : ((ofOptions {}).run? requests).map (fun builder => builder.serials.size) = some 3 := by
      decide +kernel
    exact Option.map_eq_some_iff.mp size
  obtain ⟨builder, ran, size⟩ := finished
  obtain ⟨same, counted, stable, dense⟩ := serials_count_handles {} requests
  refine ⟨requests, answers, counted 2 ⟨9⟩ (by decide +kernel), ?_, stable _ _ (by simp) _,
    builder, ran, size, dense builder ⟨{}, requests, ran⟩⟩
  intro answer member
  exact same answer member (⟨1⟩, .ok (.number 0)) (by rw [answers]; exact List.mem_cons_self)

end Builder

end SyntaxForest
