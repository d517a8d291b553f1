import AdvancedOs.Foundation.ArraySegments

/-!
# Contents that are kept in pages

The contents of a file are kept in pages of a fixed size. `flat` is the contents as one array.
Copying a block into one page is copying it into the contents (`flat_copyTo`), and two copies that
meet are one copy (`memcpy_memcpy`). So a copy which is made page by page is one copy of the whole.
-/

namespace AdvancedOs.Foundation.PagedBytes

open ArraySegments

variable {α : Type}

def flat (size : ℕ) (pages : ℕ → ℕ → α) (i : ℕ) : α := pages (i / size) (i % size)

def copyTo (pages : ℕ → ℕ → α) (page ofs : ℕ) (other : ℕ → α) (src count : ℕ) : ℕ → ℕ → α :=
  Function.update pages page (memcpy (pages page) ofs other src count)

variable {size page ofs src count more dst : ℕ} {pages : ℕ → ℕ → α} {cells other : ℕ → α}

/-- Assumes: a block that fits into the page. It is copied to its place in the contents. -/
theorem flat_copyTo (hroom : ofs + count ≤ size) :
    flat size (copyTo pages page ofs other src count) =
      memcpy (flat size pages) (page * size + ofs) other src count := by
  funext i
  have hi := Nat.div_add_mod' i size
  rw [flat, copyTo, memcpy, flat]
  by_cases hpage : i / size = page
  · rw [hpage] at hi ⊢
    rw [Function.update_self, memcpy]
    split_ifs with hin hwh hwh
    · rw [show i - (page * size + ofs) = i % size - ofs by omega]
    · omega
    · omega
    · rfl
  · rw [Function.update_of_ne hpage, if_neg]
    rintro ⟨hlow, hhigh⟩
    exact hpage (Nat.div_eq_of_lt_le (by omega) (by rw [Nat.succ_mul]; omega))

/-- Assumes: an array whose cells up to `count` are those of a first one, and then those of a
second. Copying the two one behind the other is copying it. -/
theorem memcpy_memcpy {front back : ℕ → α} (hfr : ∀ i < count, other i = front i)
    (hback : ∀ i < more, other (count + i) = back i) :
    memcpy (memcpy cells dst front 0 count) (dst + count) back 0 more =
      memcpy cells dst other 0 (count + more) := by
  funext i
  unfold memcpy
  split_ifs with hsec hall hfst hall
  · rw [← hback _ (by omega)]
    congr 1
    omega
  · omega
  · exact (hfr _ (by omega)).symm
  · omega
  · omega
  · rfl

theorem memcpy_zero : memcpy cells dst other src 0 = cells := by
  funext i
  exact if_neg (by omega)

end AdvancedOs.Foundation.PagedBytes
