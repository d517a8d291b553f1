import Mathlib

/-!
# Sums and counts over a family

The members of a finite family change one at a time. A quantity that is summed over all of them
changes with the one (`sum_update`), and so does the number of those that have a property
(`countWhere_update`).
-/

namespace AdvancedOs.Foundation.FamilySums

variable {ι α : Type} [Fintype ι]

def countWhere (p : α → Bool) (f : ι → α) : ℤ := (Finset.univ.filter fun i => p (f i) = true).card

theorem countWhere_congr {p q : α → Bool} {f g : ι → α} (h : ∀ i, p (f i) = q (g i)) :
    countWhere p f = countWhere q g := by
  simp only [countWhere, h]

theorem countWhere_nonneg (p : α → Bool) (f : ι → α) : 0 ≤ countWhere p f := Int.natCast_nonneg _

theorem countWhere_eq_zero {p : α → Bool} {f : ι → α} :
    countWhere p f = 0 ↔ ∀ i, p (f i) = false := by
  simp [countWhere, Finset.filter_eq_empty_iff]

variable [DecidableEq ι]

theorem sum_update (f : ι → α) (weight : ι → α → ℤ) (i : ι) (a : α) :
    ∑ j, weight j (Function.update f i a j) = ∑ j,
      weight j (f j) + (weight i a - weight i (f i)) := by
  rw [← Finset.sum_erase_add _ _ (Finset.mem_univ i), ← Finset.sum_erase_add Finset.univ
    (fun j => weight j (f j)) (Finset.mem_univ i), Function.update_self]
  have hrest : ∑ j ∈ Finset.univ.erase i, weight j (Function.update f i a j) =
      ∑ j ∈ Finset.univ.erase i, weight j (f j) := by
    refine Finset.sum_congr rfl fun j hj => ?_
    rw [Function.update_of_ne (Finset.ne_of_mem_erase hj)]
  rw [hrest]
  omega

theorem countWhere_update (p : α → Bool) (f : ι → α) (i : ι) (a : α) :
    countWhere p (Function.update f i a) = countWhere p f + ((p a).toInt - (p (f i)).toInt) := by
  have hsum : ∀ g : ι → α, countWhere p g = ∑ j, (p (g j)).toInt := by
    intro g
    rw [countWhere, Finset.card_filter, Nat.cast_sum]
    refine Finset.sum_congr rfl fun j _ => ?_
    cases p (g j) <;> rfl
  rw [hsum, hsum, sum_update f (fun _ a => (p a).toInt)]

end AdvancedOs.Foundation.FamilySums
