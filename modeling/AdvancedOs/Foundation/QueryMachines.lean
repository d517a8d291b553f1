import Mathlib

/-!
# Machines that answer queries

A machine takes a query in a state, gives an answer and goes to another state, as a cache does that
reads what it is asked for. `answers` is the list of answers to queries put one after the other, and
`after` the state they leave. `Throughout` says that every query is admitted in the state in which
it is put. `answers_eq_map` is the rule by which such a machine is shown to be a function of the
query alone: an invariant that every admitted query keeps, and under which it gets the answer of the
function.
-/

namespace AdvancedOs.Foundation.QueryMachines

variable {State Query Answer : Type*} (step : State → Query → Answer × State)

def answers : State → List Query → List Answer
  | _, [] => []
  | state, query :: queries => (step state query).1 :: answers (step state query).2 queries

def after : State → List Query → State
  | state, [] => state
  | state, query :: queries => after (step state query).2 queries

/-- Every query is admitted in the state in which it is put. -/
def Throughout (Admitted : State → Query → Prop) : State → List Query → Prop
  | _, [] => True
  | state, query :: queries =>
    Admitted state query ∧ Throughout Admitted (step state query).2 queries

variable {step} {Inv : State → Prop} {Admitted : State → Query → Prop} {state : State}
  {queries : List Query}

/-- Assumes: an invariant that the admitted queries keep, and under which their answers, seen
through `view`, are those of `spec`. The answers to any queries do not depend on those before. -/
theorem answers_eq_map {Result : Type*} {view : Answer → Result} {spec : Query → Result}
    (hstep : ∀ {state query}, Inv state → Admitted state query →
      view (step state query).1 = spec query ∧ Inv (step state query).2)
    (hstate : Inv state) (hqueries : Throughout step Admitted state queries) :
    (answers step state queries).map view = queries.map spec := by
  induction queries generalizing state with
  | nil => rfl
  | cons query queries ih =>
    obtain ⟨hquery, hrest⟩ := hqueries
    obtain ⟨hanswer, hnext⟩ := hstep hstate hquery
    rw [answers, List.map_cons, List.map_cons, hanswer, ih hnext hrest]

/-- An invariant that the admitted queries keep holds after them. -/
theorem Throughout.invariant
    (hstep : ∀ {state query}, Inv state → Admitted state query → Inv (step state query).2)
    (hstate : Inv state) (hqueries : Throughout step Admitted state queries) :
    Inv (after step state queries) := by
  induction queries generalizing state with
  | nil => exact hstate
  | cons query queries ih => exact ih (hstep hstate hqueries.1) hqueries.2

/-- Queries that the invariant admits in every state are admitted in the states of their run. -/
theorem Throughout.of_invariant
    (hstep : ∀ {state query}, Inv state → Admitted state query → Inv (step state query).2)
    (hstate : Inv state)
    (hadmitted : ∀ query ∈ queries, ∀ {state}, Inv state → Admitted state query) :
    Throughout step Admitted state queries := by
  induction queries generalizing state with
  | nil => exact trivial
  | cons query queries ih =>
    have hquery := hadmitted query List.mem_cons_self hstate
    exact ⟨hquery, ih (hstep hstate hquery) fun other hother =>
      hadmitted other (List.mem_cons_of_mem _ hother)⟩

theorem Throughout.of_append {query : Query}
    (hqueries : Throughout step Admitted state (queries ++ [query])) :
    Throughout step Admitted state queries ∧ Admitted (after step state queries) query := by
  induction queries generalizing state with
  | nil => exact ⟨trivial, hqueries.1⟩
  | cons first queries ih =>
    obtain ⟨hrest, hlast⟩ := ih hqueries.2
    exact ⟨⟨hqueries.1, hrest⟩, hlast⟩

end AdvancedOs.Foundation.QueryMachines
