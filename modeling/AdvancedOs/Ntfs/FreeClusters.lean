import AdvancedOs.Ntfs.RunlistElements

/-!
# Counting free clusters

`get_nr_free_clusters` takes the set bits of the cluster bitmap from the number of clusters, page by
page. A page that cannot be read counts as full. The bits behind the last cluster are set up to a
multiple of 64, and are given back in the end. `getNrFreeClusters_spec` says that the count is
right, and that it is at most too low when pages cannot be read.
-/

namespace AdvancedOs.Ntfs.FreeClusters

open RunlistElements

/-! ### The driver -/

def pageBits : ℕ := pageSize * 8

/-- `bitmap_weight`, the number of set bits from `start` on. -/
def bitmapWeight (bitmap : ℕ → Bool) (start count : ℕ) : ℕ :=
  Nat.count (fun i => bitmap (start + i) = true) count

/-- The loop over the pages, of which `left` are left. -/
def countPages (bitmap readable : ℕ → Bool) : ℕ → ℕ → ℤ → ℤ
  | 0, _, nrFree => nrFree
  | left + 1, index, nrFree =>
    countPages bitmap readable left (index + 1)
      (nrFree - if readable index then bitmapWeight bitmap (index * pageBits) pageBits else
        pageBits)

/-- A volume has less than 2^32 clusters, so no sum is too large for a word. -/
def getNrFreeClusters (nrClusters : ℕ) (bitmap readable : ℕ → Bool) : ℤ :=
  let maxIndex := ((nrClusters + 7) / 8 + pageSize - 1) / pageSize
  let nrFree := countPages bitmap readable maxIndex 0 nrClusters
  let nrFree := if nrClusters % 64 ≠ 0 then nrFree + (64 - nrClusters % 64 : ℕ) else nrFree
  if nrFree < 0 then 0 else nrFree

/-! ### The count -/

variable {bitmap readable : ℕ → Bool}

theorem bitmapWeight_add (start count more : ℕ) : bitmapWeight bitmap start (count + more) =
    bitmapWeight bitmap start count + bitmapWeight bitmap (start + count) more := by
  simp only [bitmapWeight, Nat.count_add, Nat.add_assoc]

theorem countPages_spec (left index : ℕ) (nrFree : ℤ) :
    countPages bitmap readable left index nrFree ≤
        nrFree - bitmapWeight bitmap (index * pageBits) (left * pageBits) ∧
      ((∀ page, readable page = true) → countPages bitmap readable left index nrFree =
        nrFree - bitmapWeight bitmap (index * pageBits) (left * pageBits)) := by
  induction left generalizing index nrFree with
  | zero => simp [countPages, bitmapWeight]
  | succ left ih =>
    have hpage : bitmapWeight bitmap (index * pageBits) pageBits ≤ pageBits := Nat.count_le _
    obtain ⟨hle, heq⟩ := ih (index + 1) (nrFree - (if readable index then
      bitmapWeight bitmap (index * pageBits) pageBits else pageBits : ℕ))
    rw [Nat.succ_mul] at hle heq
    rw [Nat.succ_mul, Nat.add_comm (left * pageBits), bitmapWeight_add, countPages]
    constructor
    · split_ifs at hle ⊢ <;> omega
    · intro hread
      rw [heq hread, if_pos (hread index)]
      omega

theorem bitmapWeight_behind {nrClusters count : ℕ}
    (hset : ∀ i, nrClusters ≤ i → i < (nrClusters + 63) / 64 * 64 → bitmap i = true)
    (hclear : ∀ i, (nrClusters + 63) / 64 * 64 ≤ i → bitmap i = false)
    (hcnt : (nrClusters + 63) / 64 * 64 ≤ nrClusters + count) :
    bitmapWeight bitmap nrClusters count = (nrClusters + 63) / 64 * 64 - nrClusters := by
  have hspl := @bitmapWeight_add bitmap nrClusters ((nrClusters + 63) / 64 * 64 - nrClusters)
    (nrClusters + count - (nrClusters + 63) / 64 * 64)
  rw [show (nrClusters + 63) / 64 * 64 - nrClusters + (nrClusters + count -
    (nrClusters + 63) / 64 * 64) = count by omega] at hspl
  have hfull : bitmapWeight bitmap nrClusters ((nrClusters + 63) / 64 * 64 - nrClusters) =
      (nrClusters + 63) / 64 * 64 - nrClusters :=
    Nat.count_iff_forall.mpr fun i hi => hset _ (by omega) (by omega)
  have hemp : bitmapWeight bitmap (nrClusters + ((nrClusters + 63) / 64 * 64 - nrClusters))
      (nrClusters + count - (nrClusters + 63) / 64 * 64) = 0 :=
    Nat.count_iff_forall_not.mpr fun i _ => by rw [hclear _ (by omega)]; decide
  omega

theorem count_clear (nrClusters : ℕ) : Nat.count (fun i => ¬ bitmap i = true) nrClusters +
    bitmapWeight bitmap 0 nrClusters = nrClusters := by
  induction nrClusters with
  | zero => rfl
  | succ nrClusters ih =>
    simp only [bitmapWeight, Nat.zero_add, Nat.count_succ] at ih ⊢
    split_ifs <;> omega

/-- Assumes: a bitmap whose bits behind the last cluster are set up to a multiple of 64 and no
further. The count is not negative and not above the number of free clusters, and it is that number
if all pages can be read. -/
theorem getNrFreeClusters_spec {nrClusters : ℕ}
    (hset : ∀ i, nrClusters ≤ i → i < (nrClusters + 63) / 64 * 64 → bitmap i = true)
    (hclear : ∀ i, (nrClusters + 63) / 64 * 64 ≤ i → bitmap i = false) :
    0 ≤ getNrFreeClusters nrClusters bitmap readable ∧
      getNrFreeClusters nrClusters bitmap readable ≤
        Nat.count (fun i => ¬ bitmap i = true) nrClusters ∧
      ((∀ page, readable page = true) → getNrFreeClusters nrClusters bitmap readable =
        Nat.count (fun i => ¬ bitmap i = true) nrClusters) := by
  have htotal := @count_clear bitmap nrClusters
  obtain ⟨hle, heq⟩ := @countPages_spec bitmap readable
    (((nrClusters + 7) / 8 + pageSize - 1) / pageSize) 0 nrClusters
  -- The pages reach up to the multiple of 64.
  obtain ⟨count, hcount, hreach⟩ : ∃ count, ((nrClusters + 7) / 8 + pageSize - 1) /
    pageSize * pageBits =
      nrClusters + count ∧ (nrClusters + 63) / 64 * 64 ≤ nrClusters + count := by
    refine ⟨_, (Nat.add_sub_of_le ?_).symm, ?_⟩
    all_goals
      unfold pageBits pageSize
      omega
  rw [hcount, Nat.zero_mul, bitmapWeight_add, Nat.zero_add, bitmapWeight_behind hset hclear hreach]
    at hle heq
  unfold getNrFreeClusters
  dsimp only
  refine ⟨?_, ?_, fun hreadable => ?_⟩
  · split_ifs <;> omega
  · split_ifs <;> omega
  · rw [heq hreadable]
    split_ifs <;> omega

/-- One cluster that is free, and one page that cannot be read. -/
theorem getNrFreeClusters_spec_one :
    getNrFreeClusters 1 (fun i => 0 < i ∧ i < 64) (fun _ => false) ≤ 1 :=
  (@getNrFreeClusters_spec (fun i => 0 < i ∧ i < 64) (fun _ => false) 1
    (fun _ hlow hhigh => decide_eq_true ⟨hlow, hhigh⟩)
    (fun _ hi => decide_eq_false fun hlt => absurd hlt.2 (not_lt.mpr hi))).2.1

end AdvancedOs.Ntfs.FreeClusters
