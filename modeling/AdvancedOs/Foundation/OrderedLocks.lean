import Mathlib

/-!
# Locks that are taken in order

Threads hold resources and wait for others. If every thread waits only for a resource of higher rank
than those it holds, and there are finitely many resources, then not every thread that holds one can
wait: who waits for the resource of highest rank does so for a thread that waits for none
(`exists_not_waiting`).
-/

namespace AdvancedOs.Foundation.OrderedLocks

variable {Thread Resource Rank : Type} [LinearOrder Rank]

/-- Assumes: finitely many resources, threads that wait for resources that are held, of higher rank
than those they hold themselves, and a thread that waits. There is a thread that holds a resource
and does not wait. -/
theorem exists_not_waiting [Finite Resource] {holds waits : Thread → Resource → Prop}
    {rank : Resource → Rank} (hheld : ∀ t r, waits t r → ∃ u, holds u r)
    (hrank : ∀ t q r, holds t q → waits t r → rank q < rank r) {t : Thread} {r : Resource}
    (hwaits : waits t r) : ∃ u q, holds u q ∧ ∀ r', ¬ waits u r' := by
  -- The resource of the highest rank that a thread waits for is held by one that does not wait.
  obtain ⟨q, ⟨v, hv⟩, hmax⟩ := Set.exists_max_image {r | ∃ t, waits t r} rank (Set.toFinite _)
    ⟨r, t, hwaits⟩
  obtain ⟨u, hu⟩ := hheld v q hv
  refine ⟨u, q, hu, fun r' hr' => ?_⟩
  exact absurd (hrank u q r' hu hr') (not_lt.mpr (hmax r' ⟨u, hr'⟩))

end AdvancedOs.Foundation.OrderedLocks
