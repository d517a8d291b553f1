import AdvancedOs.Foundation.ArraySegments

/-!
# Literals and back references

A stream of tokens stands for a list: a literal appends an item, and a phrase appends items one by
one, each a copy of the item that lies `back` places before the end. A phrase may be longer than
`back`; it then repeats what it has appended itself. `expand` is the list a stream stands for.

A decoder keeps the list in an array and copies within it. `copyForward` copies cell by cell,
upwards, and `segment_copyForward` says that this appends a phrase. A block move does the same as
long as source and destination do not overlap (`memcpy_eq_copyForward`), and the rest may follow
cell by cell (`copyForward_add`).
-/

namespace AdvancedOs.Foundation.BackReferences

open ArraySegments

variable {α : Type*}

/-- A literal, or a phrase of `length` items that starts `back` places before the end. -/
inductive Token (α : Type*) where
  | literal (item : α)
  | phrase (back length : ℕ)
deriving DecidableEq, Repr

/-- Appends the item `back` places before the end, as often as given. -/
def copyBack (out : List α) (back : ℕ) : ℕ → List α
  | 0 => out
  | count + 1 => copyBack (out ++ (out[out.length - back]?).toList) back count

def extend (out : List α) : Token α → List α
  | .literal item => out ++ [item]
  | .phrase back length => copyBack out back length

def expand (tokens : List (Token α)) : List α := tokens.foldl extend []

theorem expand_concat (tokens : List (Token α)) (token : Token α) :
    expand (tokens ++ [token]) = extend (expand tokens) token := by
  simp [expand]

/-- Assumes: a reference inside the list. The list grows by the length of the phrase. -/
theorem length_copyBack {out : List α} {back : ℕ} (hlow : 1 ≤ back) (hhigh : back ≤ out.length)
    (count : ℕ) : (copyBack out back count).length = out.length + count := by
  induction count generalizing out with
  | zero => rfl
  | succ count ih =>
    have hsome : (out ++ (out[out.length - back]?).toList).length = out.length + 1 := by
      rw [List.getElem?_eq_getElem (by omega)]
      simp
    rw [copyBack, ih (by omega), hsome]
    omega

/-! ### Copying within an array -/

/-- Copies `count` cells from `src` on to `dst`, one by one and upwards. -/
def copyForward (cells : ℕ → α) (dst src : ℕ) : ℕ → ℕ → α
  | 0 => cells
  | count + 1 => copyForward (Function.update cells dst (cells src)) (dst + 1) (src + 1) count

section

variable {cells : ℕ → α} {dst src count : ℕ}

/-- A copy in two parts. -/
theorem copyForward_add (cells : ℕ → α) (dst src first second : ℕ) :
    copyForward cells dst src (first + second) =
      copyForward (copyForward cells dst src first) (dst + first) (src + first) second := by
  induction first generalizing cells dst src with
  | zero => rw [Nat.zero_add]; rfl
  | succ first ih =>
    rw [Nat.add_right_comm, copyForward, ih, copyForward, Nat.add_assoc, Nat.add_assoc,
      Nat.add_comm 1 first]

theorem copyForward_outside {i : ℕ} (hi : i < dst ∨ dst + count ≤ i) :
    copyForward cells dst src count i = cells i := by
  induction count generalizing cells dst src with
  | zero => rfl
  | succ count ih => rw [copyForward, ih (by omega), Function.update_of_ne (by omega)]

/-- Assumes: a source that ends at or before the destination. The copy is that of a block. -/
theorem memcpy_eq_copyForward (hap : src + count ≤ dst) :
    memcpy cells dst cells src count = copyForward cells dst src count := by
  induction count generalizing cells dst src with
  | zero =>
    funext i
    exact if_neg (by omega)
  | succ count ih =>
    rw [copyForward, ← ih (by omega)]
    funext i
    unfold memcpy
    by_cases hfst : i = dst
    · subst hfst
      rw [if_pos (by omega), if_neg (by omega), Function.update_self, Nat.sub_self, Nat.zero_add]
    · by_cases hin : dst + 1 ≤ i ∧ i < dst + 1 + count
      · rw [if_pos hin, if_pos (by omega), Function.update_of_ne (by omega)]
        congr 1
        omega
      · rw [if_neg hin, if_neg (by omega), Function.update_of_ne hfst]

/-- Assumes: an array that spells a list, and a reference inside it. Copying from there to the end
of the list appends the phrase. -/
theorem segment_copyForward {start back : ℕ} {out : List α} (hseg : Segment cells start out)
    (hlow : 1 ≤ back) (hhigh : back ≤ out.length) (count : ℕ) :
    Segment (copyForward cells (start + out.length) (start + out.length - back) count) start
      (copyBack out back count) := by
  induction count generalizing cells out with
  | zero => exact hseg
  | succ count ih =>
    have hin : out.length - back < out.length := by omega
    have hitem : cells (start + out.length - back) = out[out.length - back] := by
      rw [← hseg.getElem hin]
      congr 1
      omega
    rw [copyForward, copyBack, List.getElem?_eq_getElem hin, Option.toList_some]
    have hlong := ih (hseg.concat (cells (start + out.length - back)))
      (by rw [List.length_append]; omega)
    rw [List.length_append, List.length_singleton] at hlong
    rw [hitem] at hlong ⊢
    rwa [show start + (out.length + 1) - back = start + out.length - back + 1 by omega] at hlong

end

end AdvancedOs.Foundation.BackReferences
