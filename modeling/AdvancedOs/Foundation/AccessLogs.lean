import Mathlib

/-!
# Logs of array accesses

A computation that works on arrays of changing sizes leaves a log of its accesses, each with the
index and the number of elements that the array had then. It stays `Inside` if every index is one of
an element, and it does so just if its parts do (`inside_bind`).
-/

namespace AdvancedOs.Foundation.AccessLogs

open List

/-- An access to an element of an array, and the number of elements of the array. -/
structure Access where
  index : ℤ
  count : ℕ

/-- A value, and the accesses that were made for it. -/
structure Logged (α : Type) where
  value : α
  log : List Access

namespace Logged

variable {α β : Type}

instance : Monad Logged where
  pure value := ⟨value, []⟩
  bind first second := ⟨(second first.value).value, first.log ++ (second first.value).log⟩

def access (count : ℕ) (index : ℤ) : Logged Unit := ⟨(), [⟨index, count⟩]⟩

def accessRange (count start size : ℕ) : Logged Unit :=
  ⟨(), (List.range' start size).map fun index : ℕ => ⟨index, count⟩⟩

def Inside (logged : Logged α) : Prop :=
  ∀ access ∈ logged.log, 0 ≤ access.index ∧ access.index < access.count

@[simp] theorem value_pure (value : α) : (pure value : Logged α).value = value := rfl

@[simp] theorem value_bind (first : Logged α) (second : α → Logged β) :
    (first >>= second).value = (second first.value).value := rfl

@[simp] theorem value_ite (guard : Prop) [Decidable guard] (first second : Logged α) :
    (if guard then first else second).value = if guard then first.value else second.value :=
  apply_ite value guard first second

@[simp] theorem inside_pure (value : α) : Inside (pure value : Logged α) :=
  fun _ h => absurd h not_mem_nil

theorem inside_bind (first : Logged α) (second : α → Logged β) :
    Inside (first >>= second) ↔ Inside first ∧ Inside (second first.value) :=
  forall_mem_append

@[simp] theorem inside_access (count : ℕ) (index : ℤ) :
    Inside (access count index) ↔ 0 ≤ index ∧ index < count :=
  forall_mem_singleton

@[simp] theorem inside_accessRange (count start size : ℕ) :
    Inside (accessRange count start size) ↔ 0 < size → start + size ≤ count := by
  constructor
  · intro h hsize
    have hlast := h ⟨(start + size - 1 : ℕ), count⟩
      (mem_map.mpr ⟨start + size - 1, mem_range'_1.mpr (by omega), rfl⟩)
    dsimp only at hlast
    omega
  · rintro h _ hacce
    obtain ⟨index, hidx, rfl⟩ := mem_map.mp hacce
    obtain ⟨hlow, hhigh⟩ := mem_range'_1.mp hidx
    have hend := h (by omega)
    dsimp only
    omega

end Logged

end AdvancedOs.Foundation.AccessLogs
