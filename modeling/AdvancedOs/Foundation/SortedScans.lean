import Mathlib

/-!
# Scans of sorted lists

A scan looks through a list for items that are wanted. Each item tells whether it is one, whether
what is looked for comes before it, so that the scan ends, or behind it, so that the scan goes on
(`Verdict`). A scan that is taken up again behind each item it has found gives the `hits`.

The hits are all wanted items just when the verdicts tell these as far as the scan comes, and no
wanted item follows the one before which it ends (`map_hits_eq_iff`).
-/

namespace AdvancedOs.Foundation.SortedScans

open List

/-- Where what is looked for stands to an item. -/
inductive Verdict
  | same | before | behind
deriving DecidableEq, Repr

/-- The verdict on an item that compares in the given way with what is looked for. -/
def Verdict.ofOrdering : Ordering → Verdict
  | .lt => .before
  | .eq => .same
  | .gt => .behind

variable {α : Type}

def hits (verdict : α → Verdict) : List α → List α
  | [] => []
  | item :: rest =>
    match verdict item with
    | .same => item :: hits verdict rest
    | .before => []
    | .behind => hits verdict rest

variable {verdict : α → Verdict}

theorem hits_append_of_behind {front : List α} (hfr : ∀ item ∈ front, verdict item = .behind)
    (rest : List α) : hits verdict (front ++ rest) = hits verdict rest := by
  induction front with
  | nil => rfl
  | cons item front ih =>
    rw [cons_append, hits, hfr item mem_cons_self]
    exact ih fun other hoth => hfr other (mem_cons_of_mem _ hoth)

/-- Where a scan ends: behind items it goes on from, it has found an item, or what it looks for
comes before the next item, or there is none. -/
theorem hits_cases (verdict : α → Verdict) (items : List α) :
    ∃ front rest, items = front ++ rest ∧ (∀ item ∈ front, verdict item = .behind) ∧
      ((∃ item behind, rest = item :: behind ∧ verdict item = .same ∧
          hits verdict items = item :: hits verdict behind) ∨
        (∀ item ∈ rest.head?, verdict item = .before) ∧ hits verdict items = []) := by
  induction items with
  | nil => exact ⟨[], [], rfl, by simp, .inr ⟨by simp, rfl⟩⟩
  | cons item behind ih =>
    cases hver : verdict item with
    | same =>
      refine ⟨[], item :: behind, rfl, by simp, .inl ⟨item, behind, rfl, hver, ?_⟩⟩
      rw [hits, hver]
    | before =>
      refine ⟨[], item :: behind, rfl, by simp, .inr ⟨by simpa using hver, ?_⟩⟩
      rw [hits, hver]
    | behind =>
      obtain ⟨front, rest, rfl, hfr, hrest⟩ := ih
      have hhits : hits verdict (item :: (front ++ rest)) = hits verdict (front ++ rest) := by
        rw [hits, hver]
      refine ⟨item :: front, rest, rfl, List.forall_mem_cons.mpr ⟨hver, hfr⟩, ?_⟩
      rw [hhits]
      exact hrest

/-- As far as a scan comes, its verdicts tell the wanted items, and none follows where it ends. -/
def Agrees (verdict : α → Verdict) (wanted : α → Bool) : List α → Prop
  | [] => True
  | item :: rest =>
    (verdict item = .same ↔ wanted item = true) ∧
      if verdict item = .before then ∀ later ∈ rest, wanted later = false
      else Agrees verdict wanted rest

variable {wanted : α → Bool}

theorem Agrees.of_append {front rest : List α} (hagrees : Agrees verdict wanted (front ++ rest))
    (hfront : ∀ item ∈ front, verdict item ≠ .before) : Agrees verdict wanted rest := by
  induction front with
  | nil => exact hagrees
  | cons item front ih =>
    obtain ⟨hitem, hfront⟩ := forall_mem_cons.mp hfront
    have hrest := hagrees.2
    rw [if_neg hitem] at hrest
    exact ih hrest hfront

theorem hits_subset (items : List α) : hits verdict items ⊆ items := by
  induction items with
  | nil => exact Subset.refl _
  | cons item rest ih =>
    rw [hits]
    cases verdict item with
    | same => exact cons_subset_cons _ ih
    | before => exact nil_subset _
    | behind => exact fun _ hmem => mem_cons_of_mem _ (ih hmem)

/-- Assumes: items with different keys. The scans find all wanted items, by their keys, just when
their verdicts agree with what is wanted as far as they come. -/
theorem map_hits_eq_iff {κ : Type} {key : α → κ} {items : List α} (hkeys : (items.map key).Nodup) :
    (hits verdict items).map key = (items.filter wanted).map key ↔ Agrees verdict wanted items := by
  induction items with
  | nil => exact iff_of_true rfl trivial
  | cons item rest ih =>
    rw [map_cons, nodup_cons] at hkeys
    obtain ⟨hnew, hkeys⟩ := hkeys
    have hnotHit : key item ∉ (hits verdict rest).map key :=
      fun hmem => hnew (map_subset key (hits_subset rest) hmem)
    have hnotWanted : key item ∉ (rest.filter wanted).map key :=
      fun hmem => hnew (map_subset key (filter_sublist.subset) hmem)
    unfold Agrees
    rw [hits]
    cases hverdict : verdict item with
    | same =>
      by_cases hwanted : wanted item = true
      · rw [filter_cons_of_pos hwanted, map_cons, map_cons, cons_inj_right, ih hkeys]
        simp [hwanted]
      · rw [filter_cons_of_neg hwanted]
        refine iff_of_false (fun heq => hnotWanted ?_) (by simp [hwanted])
        rw [← heq]
        exact mem_cons_self
    | before =>
      rw [if_pos rfl, map_nil, eq_comm, map_eq_nil_iff, filter_eq_nil_iff, forall_mem_cons]
      simp
    | behind =>
      by_cases hwanted : wanted item = true
      · rw [filter_cons_of_pos hwanted]
        refine iff_of_false (fun heq => hnotHit ?_) (by simp [hwanted])
        rw [heq]
        exact mem_cons_self
      · rw [filter_cons_of_neg hwanted]
        simp [hwanted, ih hkeys]

end AdvancedOs.Foundation.SortedScans
