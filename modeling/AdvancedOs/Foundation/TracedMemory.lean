import Mathlib

/-!
# Programs that log their accesses

A program over the cells of an array reads and assigns them, and each access leaves the index of the
cell in a log. `load` and `assign` are the only ways to a cell, so that the log is complete by
construction.

The accesses of a program lie below a bound (`Below`) if those of its parts do (`below_bind`).
-/

namespace AdvancedOs.Foundation.TracedMemory

/-- What a program leaves: its value, the cells, and the indices of the cells it has accessed. -/
structure Trace (κ α : Type) where
  value : α
  cells : ℕ → κ
  log : List ℕ

/-- A program over cells. -/
structure Traced (κ α : Type) where
  run : (ℕ → κ) → Trace κ α

namespace Traced

variable {κ α β : Type}

def andThen (first : Traced κ α) (second : α → Traced κ β) : Traced κ β where
  run cells :=
    let trace := first.run cells
    let rest := (second trace.value).run trace.cells
    ⟨rest.value, rest.cells, trace.log ++ rest.log⟩

instance : Monad (Traced κ) where
  pure value := ⟨fun cells => ⟨value, cells, []⟩⟩
  bind := andThen

def load (i : ℕ) : Traced κ κ := ⟨fun cells => ⟨cells i, cells, [i]⟩⟩

def assign (i : ℕ) (cell : κ) : Traced κ Unit :=
  ⟨fun cells => ⟨(), Function.update cells i cell, [i]⟩⟩

def outcome (program : Traced κ α) (cells : ℕ → κ) : α × (ℕ → κ) :=
  ((program.run cells).value, (program.run cells).cells)

def Below (bound : ℕ) (program : Traced κ α) (cells : ℕ → κ) : Prop :=
  ∀ i ∈ (program.run cells).log, i < bound

variable {bound : ℕ} {cells : ℕ → κ}

@[simp] theorem outcome_pure (value : α) (cells : ℕ → κ) :
    (pure value : Traced κ α).outcome cells = (value, cells) := rfl

theorem outcome_bind (first : Traced κ α) (second : α → Traced κ β) (cells : ℕ → κ) :
    (first >>= second).outcome cells = (second (first.outcome cells).1).outcome
      (first.outcome cells).2 := rfl

@[simp] theorem outcome_load_bind (i : ℕ) (second : κ → Traced κ β) (cells : ℕ → κ) :
    (load i >>= second).outcome cells = (second (cells i)).outcome cells := rfl

@[simp] theorem outcome_assign_bind (i : ℕ) (cell : κ) (second : Unit → Traced κ β)
    (cells : ℕ → κ) : (assign i cell >>= second).outcome cells =
      (second ()).outcome (Function.update cells i cell) := rfl

@[simp] theorem below_pure (value : α) : Below bound (pure value : Traced κ α) cells :=
  fun _ hi => absurd hi List.not_mem_nil

theorem below_bind (first : Traced κ α) (second : α → Traced κ β) :
    Below bound (first >>= second) cells ↔ Below bound first cells ∧
      Below bound (second (first.outcome cells).1) (first.outcome cells).2 :=
  List.forall_mem_append

@[simp] theorem below_load_bind (i : ℕ) (second : κ → Traced κ β) :
    Below bound (load i >>= second) cells ↔ i < bound ∧ Below bound (second (cells i)) cells :=
  List.forall_mem_cons

@[simp] theorem below_assign_bind (i : ℕ) (cell : κ) (second : Unit → Traced κ β) :
    Below bound (assign i cell >>= second) cells ↔
      i < bound ∧ Below bound (second ()) (Function.update cells i cell) :=
  List.forall_mem_cons

end Traced

end AdvancedOs.Foundation.TracedMemory
