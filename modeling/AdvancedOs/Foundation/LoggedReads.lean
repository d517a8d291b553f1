import Mathlib

/-!
# Computations that log what they read

A decoder of untrusted bytes is safe when it reads only the bytes it was given, whatever these
contain. `Logged ε α` is a computation that reads the cells of an array, may fail with an error, and
keeps the indices it has read. `Logged.read` is the only way to a cell, so the log is complete by
construction; a failure keeps the log up to the point of failure.

`result_bind_of_ok` and `result_bind_of_error` compute the result of a sequence, and
`mem_log_bind` says which indices it has read: those of the first part, and those of the second part
if the first succeeds.
-/

namespace AdvancedOs.Foundation.LoggedReads

/-- A computation that may fail, with the indices it has read. -/
structure Logged (ε α : Type) where
  result : Except ε α
  log : List ℕ

namespace Logged

variable {ε α β κ : Type}

/-- One computation after the other, if the first succeeds. -/
def andThen (first : Logged ε α) (second : α → Logged ε β) : Logged ε β :=
  match first.result with
  | .ok value => ⟨(second value).result, first.log ++ (second value).log⟩
  | .error why => ⟨.error why, first.log⟩

instance : Monad (Logged ε) where
  pure value := ⟨.ok value, []⟩
  bind := andThen

def read (cells : ℕ → κ) (i : ℕ) : Logged ε κ := ⟨.ok (cells i), [i]⟩

def fail (why : ε) : Logged ε α := ⟨.error why, []⟩

/-- A computation that reads nothing. -/
def ofExcept (value : Except ε α) : Logged ε α := ⟨value, []⟩

@[simp] theorem result_pure (value : α) : (pure value : Logged ε α).result = .ok value := rfl

@[simp] theorem log_pure (value : α) : (pure value : Logged ε α).log = [] := rfl

@[simp] theorem result_fail (why : ε) : (fail why : Logged ε α).result = .error why := rfl

@[simp] theorem log_fail (why : ε) : (fail why : Logged ε α).log = [] := rfl

@[simp] theorem result_read_bind (cells : ℕ → κ) (i : ℕ) (second : κ → Logged ε β) :
    (read cells i >>= second).result = (second (cells i)).result := rfl

@[simp] theorem log_read_bind (cells : ℕ → κ) (i : ℕ) (second : κ → Logged ε β) :
    (read cells i >>= second).log = i :: (second (cells i)).log := rfl

@[simp] theorem pure_bind' (value : α) (second : α → Logged ε β) :
    (pure value >>= second) = second value := rfl

variable {first : Logged ε α}

theorem result_bind_of_ok {value : α} (hfst : first.result = .ok value)
    (second : α → Logged ε β) : (first >>= second).result = (second value).result := by
  change (andThen first second).result = _
  rw [andThen, hfst]

theorem log_bind_of_ok {value : α} (hfst : first.result = .ok value) (second : α → Logged ε β) :
    (first >>= second).log = first.log ++ (second value).log := by
  change (andThen first second).log = _
  rw [andThen, hfst]

theorem result_bind_of_error {why : ε} (hfst : first.result = .error why)
    (second : α → Logged ε β) : (first >>= second).result = .error why := by
  change (andThen first second).result = _
  rw [andThen, hfst]

theorem log_bind_of_error {why : ε} (hfst : first.result = .error why)
    (second : α → Logged ε β) : (first >>= second).log = first.log := by
  change (andThen first second).log = _
  rw [andThen, hfst]

/-- A sequence has read what its first part has read, and what its second part has read if the first
succeeds. -/
theorem mem_log_bind {second : α → Logged ε β} {i : ℕ} : i ∈ (first >>= second).log ↔
    i ∈ first.log ∨ ∃ value, first.result = .ok value ∧ i ∈ (second value).log := by
  cases hfst : first.result with
  | ok value => simp [log_bind_of_ok hfst]
  | error why => simp [log_bind_of_error hfst]

end Logged

end AdvancedOs.Foundation.LoggedReads
