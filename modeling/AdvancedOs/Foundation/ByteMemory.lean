import Mathlib

/-!
# Byte-addressed memory

A memory gives the byte at each address. Numbers are stored with the least significant byte first
(`storeLe`), and loaded from where they were stored (`loadLe_storeLe`). Stores leave the bytes
elsewhere as they are (`storeLe_of_outside`), so that a load depends only on the bytes of its range
(`loadLe_congr`).

Parts of the address space are ranges. What lies inside of disjoint ranges is disjoint
(`Range.Disjoint.mono`).
-/

namespace AdvancedOs.Foundation.ByteMemory

abbrev Memory := ℕ → UInt8

/-- The addresses from the start on, as many as the length says. -/
structure Range where
  start : ℕ
  length : ℕ
deriving DecidableEq

namespace Range

def Contains (r : Range) (address : ℕ) : Prop := r.start ≤ address ∧ address < r.start + r.length

def Inside (r s : Range) : Prop := s.start ≤ r.start ∧ r.start + r.length ≤ s.start + s.length

def Disjoint (r s : Range) : Prop :=
  r.start + r.length ≤ s.start ∨ s.start + s.length ≤ r.start

theorem Disjoint.symm {r s : Range} (hdisj : r.Disjoint s) : s.Disjoint r := Or.symm hdisj

theorem Disjoint.mono {r s r' s' : Range} (hdisj : r.Disjoint s) (hr : r'.Inside r)
    (hs : s'.Inside s) : r'.Disjoint s' := by
  unfold Disjoint Inside at *
  omega

theorem Disjoint.not_contains {r s : Range} (hdisj : r.Disjoint s) {address : ℕ}
    (hr : r.Contains address) : ¬ s.Contains address := by
  unfold Disjoint Contains at *
  omega

theorem Inside.contains {r s : Range} (hin : r.Inside s) {address : ℕ}
    (hr : r.Contains address) : s.Contains address := by
  unfold Inside Contains at *
  omega

end Range

def AgreeOn (r : Range) (mem mem' : Memory) : Prop :=
  ∀ address, r.Contains address → mem' address = mem address

variable {r : Range} {mem mem' : Memory} {address count : ℕ}

theorem AgreeOn.mono {s : Range} (hagree : AgreeOn s mem mem') (hin : r.Inside s) :
    AgreeOn r mem mem' :=
  fun address hr => hagree address (hin.contains hr)

theorem AgreeOn.trans {mem'' : Memory} (hfst : AgreeOn r mem mem')
    (hsec : AgreeOn r mem' mem'') : AgreeOn r mem mem'' :=
  fun address hr => (hsec address hr).trans (hfst address hr)

theorem agreeOn_update (hr : ¬ r.Contains address) (mem : Memory) (byte : UInt8) :
    AgreeOn r mem (Function.update mem address byte) := by
  intro other hoth
  refine Function.update_of_ne ?_ byte mem
  rintro rfl
  exact hr hoth

/-! ### Numbers -/

def loadLe (mem : Memory) : ℕ → ℕ → ℕ
  | _, 0 => 0
  | address, count + 1 => (mem address).toNat + 256 * loadLe mem (address + 1) count

def storeLe (mem : Memory) : ℕ → ℕ → ℕ → Memory
  | _, 0, _ => mem
  | address, count + 1, value =>
    Function.update (storeLe mem (address + 1) count (value / 256)) address (UInt8.ofNat value)

theorem storeLe_of_outside {value other : ℕ} (hoth : ¬ Range.Contains ⟨address, count⟩ other) :
    storeLe mem address count value other = mem other := by
  unfold Range.Contains at hoth
  dsimp only at hoth
  induction count generalizing address value with
  | zero => rfl
  | succ count ih =>
    rw [storeLe, Function.update_of_ne (by omega), ih (by omega)]

theorem agreeOn_storeLe (hdisj : r.Disjoint ⟨address, count⟩) (mem : Memory) (value : ℕ) :
    AgreeOn r mem (storeLe mem address count value) :=
  fun _ hr => storeLe_of_outside (hdisj.not_contains hr)

theorem loadLe_congr (hagree : AgreeOn ⟨address, count⟩ mem mem') :
    loadLe mem' address count = loadLe mem address count := by
  induction count generalizing address with
  | zero => rfl
  | succ count ih =>
    have hhead : mem' address = mem address :=
      hagree address ⟨le_refl _, Nat.lt_add_of_pos_right count.succ_pos⟩
    have hin : Range.Inside ⟨address + 1, count⟩ ⟨address, count + 1⟩ := by
      unfold Range.Inside
      dsimp only
      omega
    rw [loadLe, loadLe, hhead, ih (hagree.mono hin)]

/-- A number is loaded from where it was stored, as far as it fits there. -/
theorem loadLe_storeLe (mem : Memory) (address count value : ℕ) :
    loadLe (storeLe mem address count value) address count = value % 256 ^ count := by
  induction count generalizing address value with
  | zero => rw [loadLe, Nat.pow_zero, Nat.mod_one]
  | succ count ih =>
    have hrest : loadLe (Function.update (storeLe mem (address + 1) count (value / 256)) address
        (UInt8.ofNat value)) (address + 1) count =
          loadLe (storeLe mem (address + 1) count (value / 256)) (address + 1) count := by
      refine loadLe_congr (agreeOn_update ?_ _ _)
      unfold Range.Contains
      dsimp only
      omega
    have hpow : 256 ^ (count + 1) = 256 * 256 ^ count := by rw [Nat.pow_succ, Nat.mul_comm]
    rw [storeLe, loadLe, Function.update_self, hrest, ih, UInt8.toNat_ofNat', hpow, Nat.mod_mul]

end AdvancedOs.Foundation.ByteMemory
