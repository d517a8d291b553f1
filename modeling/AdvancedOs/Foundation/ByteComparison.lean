import Mathlib

/-!
# Comparing bytes

`memcmp` compares areas of memory of one size, and only the sign of its result is known (`Memcmp`).
The order of areas of any sizes is that of the bytes both have, or that of their sizes
(`compare_eq_take`), so that a comparison of the common bytes followed by one of the sizes gives the
lexicographic order (`Memcmp.compareCommon_lt_iff`, `Memcmp.compareCommon_eq_iff`).
-/

namespace AdvancedOs.Foundation.ByteComparison

def signOf : Ordering → ℤ
  | .lt => -1
  | .eq => 0
  | .gt => 1

@[simp] theorem signOf_eq_neg_one {order : Ordering} : signOf order = -1 ↔ order = .lt := by
  cases order <;> decide

@[simp] theorem signOf_eq_zero {order : Ordering} : signOf order = 0 ↔ order = .eq := by
  cases order <;> decide

/-- A `memcmp` of all bytes of two areas of one size. Only the sign of its result is known. -/
structure Memcmp where
  compareBytes : List UInt8 → List UInt8 → ℤ
  sign_eq : ∀ data1 data2, data1.length = data2.length →
    (compareBytes data1 data2).sign = signOf (compare data1 data2)

/-- A `memcmp` that returns -1, 0 or 1. -/
def Memcmp.sign : Memcmp where
  compareBytes data1 data2 := signOf (compare data1 data2)
  sign_eq data1 data2 _ := by cases compare data1 data2 <;> rfl

/-- The order of two areas is that of the bytes both have, or that of their sizes. -/
theorem compare_eq_take (data1 data2 : List UInt8) :
    compare data1 data2 = (compare (data1.take (min data1.length data2.length))
        (data2.take (min data1.length data2.length))).then
        (compare data1.length data2.length) := by
  rw [List.compare_eq_compareLex]
  induction data1 generalizing data2 with
  | nil =>
    cases data2 with
    | nil => rfl
    | cons byte2 data2 => exact (Nat.compare_eq_lt.mpr (Nat.succ_pos data2.length)).symm
  | cons byte1 data1 ih =>
    cases data2 with
    | nil => exact (Nat.compare_eq_gt.mpr (Nat.succ_pos data1.length)).symm
    | cons byte2 data2 =>
      have hsize : compare (byte1 :: data1).length (byte2 :: data2).length =
          compare data1.length data2.length := by
        simp only [List.length_cons, compare, compareOfLessAndEq, Nat.add_lt_add_iff_right,
          Nat.add_right_cancel_iff]
      rw [hsize, List.length_cons, List.length_cons, Nat.add_min_add_right, List.take_succ_cons,
        List.take_succ_cons, List.compareLex_cons_cons, List.compareLex_cons_cons, ih data2]
      cases compare byte1 byte2 <;> rfl

namespace Memcmp

variable (memcmp : Memcmp) (data1 data2 : List UInt8)

def compareCommon : ℤ :=
  memcmp.compareBytes (data1.take (min data1.length data2.length))
    (data2.take (min data1.length data2.length))

theorem sign_compareCommon :
    (memcmp.compareCommon data1 data2).sign =
      signOf (compare (data1.take (min data1.length data2.length))
        (data2.take (min data1.length data2.length))) :=
  memcmp.sign_eq _ _ (by simp)

/-- The areas are ordered as the bytes both have, or as their sizes if these are the same. -/
theorem signOf_compare :
    signOf (compare data1 data2) = if memcmp.compareCommon data1 data2 = 0 then
      signOf (compare data1.length data2.length) else (memcmp.compareCommon data1 data2).sign := by
  have hsign := memcmp.sign_compareCommon data1 data2
  rw [compare_eq_take]
  split_ifs with hzero
  · rw [hzero, Int.sign_zero, eq_comm, signOf_eq_zero] at hsign
    rw [hsign, Ordering.eq_then]
  · rw [← Int.sign_eq_zero_iff_zero, hsign, signOf_eq_zero] at hzero
    rw [hsign, Ordering.then]
    exact hzero

/-- The first area comes before the second just when its bytes do, or they are the same and it is
the smaller one. -/
theorem compareCommon_lt_iff :
    compare data1 data2 = .lt ↔ memcmp.compareCommon data1 data2 < 0 ∨
      memcmp.compareCommon data1 data2 = 0 ∧ data1.length < data2.length := by
  rw [← signOf_eq_neg_one, memcmp.signOf_compare]
  split_ifs with hzero
  · rw [signOf_eq_neg_one, Nat.compare_eq_lt]
    simp [hzero]
  · rw [Int.sign_eq_neg_one_iff_neg]
    simp [hzero]

/-- The areas are the same just when their bytes and their sizes are. -/
theorem compareCommon_eq_iff :
    data1 = data2 ↔ memcmp.compareCommon data1 data2 = 0 ∧ data1.length = data2.length := by
  rw [← Std.compare_eq_iff_eq, ← signOf_eq_zero, memcmp.signOf_compare]
  split_ifs with hzero
  · rw [signOf_eq_zero, Nat.compare_eq_eq]
    simp [hzero]
  · rw [Int.sign_eq_zero_iff_zero]
    simp [hzero]

end Memcmp

end AdvancedOs.Foundation.ByteComparison
