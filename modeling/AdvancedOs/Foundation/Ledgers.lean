import Mathlib

/-!
# Ledgers

A log of events shows which items have been given back. It `Balances` if every item that was taken
is still held or has been given back once, and nothing else has been given back. Giving back an item
that is held keeps the balance, and so does everything that gives back nothing.
-/

namespace AdvancedOs.Foundation.Ledgers

open List

variable {ι ε : Type} [DecidableEq ε]

/-- In a log with one part for each number, an event of one part is counted there. -/
theorem count_flatMap_range {part : ℕ → List ε} {event : ε} {i : ℕ}
    (hoth : ∀ j, j ≠ i → event ∉ part j) (n : ℕ) :
    ((List.range n).flatMap part).count event = if i < n then (part i).count event else 0 := by
  induction n with
  | zero => rfl
  | succ n ih =>
    rw [range_succ, flatMap_append, count_append, ih, flatMap_singleton]
    by_cases hi : i = n
    · rw [hi, if_neg (Nat.lt_irrefl n), if_pos (Nat.lt_succ_self n), Nat.zero_add]
    · rw [List.count_eq_zero.mpr (hoth n (Ne.symm hi)), Nat.add_zero]
      exact if_congr (by omega) rfl rfl

/-- Every item that was taken is still held, or `back` of it is in the log once. -/
def Balances (back : ι → ε) (taken held : ι → Bool) (log : List ε) : Prop :=
  ∀ i, log.count (back i) + (held i).toNat = (taken i).toNat

namespace Balances

variable {back : ι → ε} {taken held : ι → Bool} {log events : List ε} {i : ι}

theorem append (hbala : Balances back taken held log) (hoth : ∀ i, back i ∉ events) :
    Balances back taken held (log ++ events) := by
  intro i
  rw [count_append, List.count_eq_zero.mpr (hoth i), Nat.add_zero]
  exact hbala i

/-- An item that is held is given back. -/
theorem giveBack [DecidableEq ι] (hbala : Balances back taken held log)
    (hback : Function.Injective back) (hheld : held i = true) :
    Balances back taken (Function.update held i false) (log ++ [back i]) := by
  intro j
  have hj := hbala j
  rw [count_append]
  by_cases hji : j = i
  · rw [hji, hheld] at hj
    rw [hji, Function.update_self, count_singleton_self]
    exact hj
  · rw [Function.update_of_ne hji, count_singleton, if_neg (by simpa using hback.ne (Ne.symm hji))]
    exact hj

/-- What is not held any more has been given back as often as it was taken. -/
theorem count_eq (hbala : Balances back taken held log) (hheld : held i = false) :
    log.count (back i) = (taken i).toNat := by
  have hi := hbala i
  rwa [hheld] at hi

/-- Only what was taken is held. -/
theorem taken_of_held (hbala : Balances back taken held log) (hheld : held i = true) :
    taken i = true := by
  have hi := hbala i
  rw [hheld, Bool.toNat_true] at hi
  cases htak : taken i with
  | true => rfl
  | false =>
    rw [htak, Bool.toNat_false] at hi
    omega

end Balances

end AdvancedOs.Foundation.Ledgers
