import Mathlib

/-!
# Signed machine words and their little endian bytes

The kernel's `s64` is a 64-bit two's complement word: every sum, difference and shift is reduced to
the representative of its residue modulo `2 ^ 64` that lies in `[-2 ^ 63, 2 ^ 63)`. Values are
integers here and the reduction is explicit: `s64 x` is the word a computation with result `x`
leaves behind, `IsS64 x` says that `x` is itself such a word, and on such values the reduction does
nothing (`s64_of_isS64`). Reductions nested inside sums and products collapse to one
(`s64_s64_add`, `s64_s64_mul_add`).

A number of any width is stored as bytes, the least significant first, the last one carrying the
sign. `signedLe` is the value of such a byte string, `signedLe_append_singleton` relates it to the
value without its last byte, and a number with enough bytes is that value (`signedLe_lowBytes`).
-/

namespace AdvancedOs.Foundation.SignedWords

open List

/-! ### Sixty-four bit words -/

/-- The 64-bit two's complement word left by a computation with result `x`. -/
def s64 (x : ℤ) : ℤ := Int.bmod x (2 ^ 64)

/-- The value is a 64-bit two's complement word. -/
def IsS64 (x : ℤ) : Prop := -2 ^ 63 ≤ x ∧ x < 2 ^ 63

instance decidableIsS64 (x : ℤ) : Decidable (IsS64 x) :=
  inferInstanceAs (Decidable (-2 ^ 63 ≤ x ∧ x < 2 ^ 63))

variable {x : ℤ} {count : ℕ}

/-- Assumes: a value that is already a word. Reduction leaves it alone. -/
theorem s64_of_isS64 (hx : IsS64 x) : s64 x = x := by
  unfold IsS64 at hx
  exact Int.bmod_eq_of_le (by omega) (by omega)

theorem isS64_s64 (x : ℤ) : IsS64 (s64 x) := by
  have hlow := Int.le_bmod (x := x) (m := 2 ^ 64) (by norm_num)
  have hhigh := Int.bmod_lt (x := x) (m := 2 ^ 64) (by norm_num)
  unfold IsS64 s64
  omega

theorem exists_s64_eq (x : ℤ) : ∃ k : ℤ, s64 x = x + k * 2 ^ 64 := by
  refine ⟨-(Int.bdiv x (2 ^ 64)), ?_⟩
  have h := Int.bmod_eq_self_sub_bdiv_mul x (2 ^ 64)
  unfold s64
  rw [h]
  ring

/-- A reduction inside a sum is absorbed by the reduction of the sum. -/
theorem s64_s64_add (x y : ℤ) : s64 (s64 x + y) = s64 (x + y) := Int.bmod_add_bmod

/-- A reduction inside a product is absorbed by the reduction of a sum with it. -/
theorem s64_s64_mul_add (x y z : ℤ) : s64 (s64 x * y + z) = s64 (x * y + z) := by
  have hprod : s64 (s64 x * y) = s64 (x * y) := Int.bmod_mul_bmod
  rw [← s64_s64_add, hprod, s64_s64_add]

/-- Assumes: two words, the second positive, whose exact sum is not below zero. The reduced sum
equals a nonnegative word exactly when the exact sum does. -/
theorem s64_add_eq_iff {y z : ℤ} (hx : IsS64 x) (hy : IsS64 y) (hz : IsS64 z) (hx0 : 0 ≤ x)
    (hy0 : 0 ≤ y) (hz0 : 0 ≤ z) : s64 (x + y) = z ↔ x + y = z := by
  unfold IsS64 at hx hy hz
  constructor
  · intro h
    obtain ⟨k, hk⟩ := exists_s64_eq (x + y)
    omega
  · rintro rfl
    exact s64_of_isS64 ⟨by omega, hz.2⟩

/-- The 64-bit word without a sign left by a computation with result `x`. -/
def u64 (x : ℤ) : ℤ := x % 2 ^ 64

theorem u64_of_nonneg (hlow : 0 ≤ x) (hhigh : x < 2 ^ 64) : u64 x = x :=
  Int.emod_eq_of_lt hlow hhigh

/-! ### Little endian bytes -/

def s8 (byte : UInt8) : ℤ := if byte.toNat < 128 then byte.toNat else byte.toNat - 256

/-- The value of a little endian byte string whose last byte carries the sign. -/
def signedLe : List UInt8 → ℤ
  | [] => 0
  | [byte] => s8 byte
  | byte :: next :: rest => byte.toNat + 2 ^ 8 * signedLe (next :: rest)

/-- The value of a little endian byte string without a sign. -/
def unsignedLe : List UInt8 → ℤ
  | [] => 0
  | byte :: rest => byte.toNat + 2 ^ 8 * unsignedLe rest

theorem unsignedLe_append_singleton (bytes : List UInt8) (top : UInt8) :
    unsignedLe (bytes ++ [top]) = unsignedLe bytes + 2 ^ (8 * bytes.length) * top.toNat := by
  induction bytes with
  | nil => simp [unsignedLe]
  | cons byte bytes ih =>
    rw [cons_append, unsignedLe, ih, unsignedLe, length_cons, Nat.mul_succ, pow_add]
    ring

/-- Assumes: a nonempty tail. A leading byte adds its unsigned value below the tail's. -/
theorem signedLe_cons {rest : List UInt8} (hrest : rest ≠ []) (byte : UInt8) :
    signedLe (byte :: rest) = byte.toNat + 2 ^ 8 * signedLe rest := by
  cases rest with
  | nil => exact absurd rfl hrest
  | cons next rest => rfl

/-- The last byte carries the sign, the others add their unsigned value. -/
theorem signedLe_append_singleton (bytes : List UInt8) (top : UInt8) :
    signedLe (bytes ++ [top]) = unsignedLe bytes + 2 ^ (8 * bytes.length) * s8 top := by
  induction bytes with
  | nil => simp [unsignedLe, signedLe]
  | cons byte bytes ih =>
    rw [cons_append, signedLe_cons (by simp), ih, unsignedLe, length_cons, Nat.mul_succ, pow_add]
    ring

theorem s8_bounds (byte : UInt8) : -2 ^ 7 ≤ s8 byte ∧ s8 byte < 2 ^ 7 := by
  have h := UInt8.toNat_lt byte
  unfold s8
  split_ifs <;> omega

/-! ### Writing numbers as bytes -/

/-- The low byte of a number in two's complement, `x & 0xff`. -/
def lowByte (x : ℤ) : UInt8 := UInt8.ofNat (x % 2 ^ 8).toNat

/-- The `count` low bytes of a number in two's complement, the lowest first. -/
def lowBytes : ℕ → ℤ → List UInt8
  | 0, _ => []
  | count + 1, x => lowByte x :: lowBytes count (x / 2 ^ 8)

theorem toNat_lowByte (x : ℤ) : ((lowByte x).toNat : ℤ) = x % 2 ^ 8 := by
  have hbyte : (lowByte x).toNat = (x % 2 ^ 8).toNat % 2 ^ 8 := rfl
  rw [hbyte]
  omega

@[simp] theorem length_lowBytes (count : ℕ) (x : ℤ) : (lowBytes count x).length = count := by
  induction count generalizing x with
  | zero => rfl
  | succ count ih => rw [lowBytes, length_cons, ih]

theorem lowBytes_ne_nil (hcnt : count ≠ 0) (x : ℤ) : lowBytes count x ≠ [] := by
  rwa [ne_eq, ← length_eq_zero_iff, length_lowBytes]

theorem lowBytes_succ (count : ℕ) (x : ℤ) :
    lowBytes (count + 1) x = lowBytes count x ++ [lowByte (x / 2 ^ (8 * count))] := by
  induction count generalizing x with
  | zero => simp [lowBytes]
  | succ count ih =>
    have hshift : x / 2 ^ 8 / 2 ^ (8 * count) = x / 2 ^ (8 * (count + 1)) := by
      rw [Int.ediv_ediv_of_nonneg (by positivity), ← pow_add, Nat.mul_succ, Nat.add_comm]
    rw [lowBytes, ih, hshift, lowBytes, cons_append]

/-- Assumes: a number that fits into `count + 1` bytes with its sign. Reading its low bytes gives
the number back. -/
theorem signedLe_lowBytes (hlow : -2 ^ (8 * count + 7) ≤ x) (hhigh : x < 2 ^ (8 * count + 7)) :
    signedLe (lowBytes (count + 1) x) = x := by
  induction count generalizing x with
  | zero =>
    have hbyte := toNat_lowByte x
    have hval : signedLe (lowBytes 1 x) = s8 (lowByte x) := rfl
    rw [hval, s8]
    split_ifs <;> omega
  | succ count ih =>
    have hpow : (2 : ℤ) ^ (8 * (count + 1) + 7) = 2 ^ 8 * 2 ^ (8 * count + 7) := by
      rw [← pow_add]
      congr 1
      omega
    rw [hpow] at hlow hhigh
    have hquo := ih (x := x / 2 ^ 8) (by omega) (by omega)
    rw [lowBytes, signedLe_cons (by simp [lowBytes]), hquo, toNat_lowByte]
    omega

/-- Assumes: a number whose part above the `count` lowest bytes fits into one byte with its sign.
Reading `count + 1` low bytes gives the number back. -/
theorem signedLe_lowBytes_of_quotient (hlow : -2 ^ 7 ≤ x / 2 ^ (8 * count))
    (hhigh : x / 2 ^ (8 * count) < 2 ^ 7) : signedLe (lowBytes (count + 1) x) = x := by
  have hpos : (0 : ℤ) < 2 ^ (8 * count) := by positivity
  rw [Int.le_ediv_iff_mul_le hpos] at hlow
  rw [Int.ediv_lt_iff_lt_mul hpos] at hhigh
  refine signedLe_lowBytes ?_ ?_ <;> rw [pow_add] <;> omega

end AdvancedOs.Foundation.SignedWords
