import Mathlib

/-!
# Runs of a step function

A step takes a state to the next one or ends with a result. A run ends or goes on for ever, and
which of the two is the same for all states on its way (`ends_iff_of_reaches`). A run that comes
back to a state goes on for ever (`not_halts_of_cycle`), and so does one that keeps a property which
lets it take a step (`not_halts_of_invariant`). A run whose states become smaller ends
(`halts_of_measure`). One that goes on for ever has a state for every number (`exists_orbit`).
-/

namespace AdvancedOs.Foundation.StepRuns

variable {σ ρ : Type} (step : σ → σ ⊕ ρ)
variable {state later : σ} {orbit : ℕ → σ}

def run : ℕ → σ → Option ρ
  | 0, _ => none
  | fuel + 1, state =>
    match step state with
    | .inl next => run fuel next
    | .inr result => some result

def Next (state next : σ) : Prop := step state = .inl next

/-- The run from one state comes to the other. -/
abbrev Reaches : σ → σ → Prop := Relation.ReflTransGen (Next step)

def Ends (state : σ) (result : ρ) : Prop := ∃ fuel, run step fuel state = some result

def Halts (state : σ) : Prop := ∃ result, Ends step state result

variable {step}

theorem ends_of_step {result : ρ} (h : step state = .inr result) : Ends step state result :=
  ⟨1, by rw [run, h]⟩

theorem ends_iff_of_next {next : σ} (h : Next step state next) (result : ρ) :
    Ends step state result ↔ Ends step next result := by
  constructor
  · rintro ⟨fuel, hfuel⟩
    cases fuel with
    | zero => cases hfuel
    | succ fuel =>
      rw [run, h] at hfuel
      exact ⟨fuel, hfuel⟩
  · rintro ⟨fuel, hfuel⟩
    exact ⟨fuel + 1, by rw [run, h]; exact hfuel⟩

theorem ends_iff_of_reaches (h : Reaches step state later) (result : ρ) :
    Ends step state result ↔ Ends step later result := by
  induction h with
  | refl => exact Iff.rfl
  | tail _ hnext ih => exact ih.trans (ends_iff_of_next hnext result)

theorem halts_iff_of_reaches (h : Reaches step state later) : Halts step state ↔ Halts step later :=
  exists_congr (ends_iff_of_reaches h)

/-- Assumes: the run comes back to the state. -/
theorem not_halts_of_cycle (h : Relation.TransGen (Next step) state state) :
    ¬ Halts step state := by
  have hnone : ∀ fuel, ∀ state, Relation.TransGen (Next step) state state →
      run step fuel state = none := by
    intro fuel
    induction fuel with
    | zero => exact fun _ _ => rfl
    | succ fuel ih =>
      intro state hcycle
      -- The state after the next step lies on the same cycle.
      obtain ⟨next, hnext, hback⟩ := Relation.TransGen.head'_iff.mp hcycle
      rw [run, hnext]
      exact ih next (Relation.TransGen.tail' hback hnext)
  rintro ⟨result, fuel, hfuel⟩
  rw [hnone fuel state h] at hfuel
  cases hfuel

/-- Assumes: the next state of one with the property has it again. -/
theorem not_halts_of_invariant {P : σ → Prop}
    (h : ∀ state, P state → ∃ next, Next step state next ∧ P next) (hstate : P state) :
    ¬ Halts step state := by
  rintro ⟨result, fuel, hfuel⟩
  induction fuel generalizing state with
  | zero => cases hfuel
  | succ fuel ih =>
    obtain ⟨next, hnext, hh⟩ := h state hstate
    rw [run, hnext] at hfuel
    exact ih hh hfuel

/-- Assumes: every step from a state with the property keeps it and makes the state smaller. -/
theorem halts_of_measure {α : Type} {r : α → α → Prop} (hr : WellFounded r) (measure : σ → α)
    {P : σ → Prop}
    (h : ∀ state next, P state → Next step state next → P next ∧ r (measure next) (measure state))
    (hstate : P state) : Halts step state := by
  induction hmeas : measure state using hr.induction generalizing state with
  | _ value ih =>
    cases hstep : step state with
    | inr result => exact ⟨result, ends_of_step hstep⟩
    | inl next =>
      obtain ⟨hh, hless⟩ := h state next hstate hstep
      subst hmeas
      exact (halts_iff_of_reaches (.single hstep)).mpr (ih _ hless hh rfl)

theorem exists_next_of_not_halts (h : ¬ Halts step state) :
    ∃ next, Next step state next ∧ ¬ Halts step next := by
  cases hstep : step state with
  | inr result => exact absurd ⟨result, ends_of_step hstep⟩ h
  | inl next =>
    have hrch : Reaches step state next := .single hstep
    exact ⟨next, hstep, fun hhalts => h ((halts_iff_of_reaches hrch).mpr hhalts)⟩

/-- Assumes: the run goes on for ever. -/
theorem exists_orbit (h : ¬ Halts step state) :
    ∃ orbit : ℕ → σ, orbit 0 = state ∧ ∀ n, Next step (orbit n) (orbit (n + 1)) := by
  choose next hnext hnot using @exists_next_of_not_halts σ ρ step
  let orbit : ℕ → { state : σ // ¬ Halts step state } := fun n =>
    Nat.rec ⟨state, h⟩ (fun _ old => ⟨next old.2, hnot old.2⟩) n
  exact ⟨fun n => (orbit n).1, rfl, fun n => hnext (orbit n).2⟩

theorem reaches_of_orbit (h : ∀ n, Next step (orbit n) (orbit (n + 1))) (m n : ℕ) :
    Reaches step (orbit m) (orbit (m + n)) := by
  induction n with
  | zero => exact .refl
  | succ n ih => exact ih.tail (h (m + n))

theorem transGen_of_orbit (h : ∀ n, Next step (orbit n) (orbit (n + 1))) {m n : ℕ} (hmn : m < n) :
    Relation.TransGen (Next step) (orbit m) (orbit n) := by
  obtain ⟨more, rfl⟩ := Nat.exists_eq_add_of_lt hmn
  exact Relation.TransGen.tail' (reaches_of_orbit h m more) (h (m + more))

end AdvancedOs.Foundation.StepRuns
