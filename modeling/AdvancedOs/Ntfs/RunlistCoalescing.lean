import AdvancedOs.Ntfs.RunlistMerge

/-!
# Coalescing consecutive runs

The merge routines join neighbouring runs where they can. On consecutive runs this changes the list
and not the map it stands for. `SameMap first last runs other` says that the two lists cover the
same clusters with the same result; `sameMap_merge` is the step, two runs that
`ntfs_are_rl_mergeable` accepts and their merger, and `sameMap_splice` what follows for two lists
joined where they meet.

The remaining results read the list functions of `RunlistMergeRoutines` on consecutive runs: the
marker behind inserted runs is already where the driver puts it (`spliceTail_eq`), and the parts of
a run that is cut keep its clusters (`lcnIn_cutRun`).
-/

namespace AdvancedOs.Ntfs.RunlistCoalescing

open Foundation.SignedWords RunlistElements RunlistMergeRoutines RunlistMerge List

/-! ### Lists that stand for the same map -/

/-- The second list covers the clusters from `first` to `last` with the results of the first list,
and each of its runs starts like one of the first list. -/
structure SameMap (first last : ℤ) (runs other : List RunlistElement) : Prop where
  chain : Chain first other last
  lcnIn_eq : ∀ vcn, lcnIn other vcn = lcnIn runs vcn
  start_mem : ∀ run ∈ other, ∃ old ∈ runs, old.vcn = run.vcn ∧ old.lcn = run.lcn

namespace SameMap

variable {first middle last : ℤ} {runs other third more : List RunlistElement}

theorem refl (hch : Chain first runs last) : SameMap first last runs runs :=
  ⟨hch, fun _ => rfl, fun run hrun => ⟨run, hrun, rfl, rfl⟩⟩

theorem trans (hfst : SameMap first last runs other) (hsec : SameMap first last other third) :
    SameMap first last runs third where
  chain := hsec.chain
  lcnIn_eq vcn := (hsec.lcnIn_eq vcn).trans (hfst.lcnIn_eq vcn)
  start_mem := by
    intro run hrun
    obtain ⟨old, hold, hvcn, hlcn⟩ := hsec.start_mem run hrun
    obtain ⟨older, holder, hvcn', hlcn'⟩ := hfst.start_mem old hold
    exact ⟨older, holder, hvcn'.trans hvcn, hlcn'.trans hlcn⟩

theorem append_left (hsame : SameMap middle last runs other) (hmore : Chain first more middle) :
    SameMap first last (more ++ runs) (more ++ other) where
  chain := (chain_append _ _ _ _).mpr ⟨middle, hmore, hsame.chain⟩
  lcnIn_eq vcn := by rw [lcnIn_append, lcnIn_append, hsame.lcnIn_eq]
  start_mem := by
    intro run hrun
    rcases List.mem_append.mp hrun with hmem | hmem
    · exact ⟨run, mem_append_left _ hmem, rfl, rfl⟩
    · obtain ⟨old, hold, hst⟩ := hsame.start_mem run hmem
      exact ⟨old, mem_append_right _ hold, hst⟩

theorem append_right (hsame : SameMap first middle runs other) (hmore : Chain middle more last) :
    SameMap first last (runs ++ more) (other ++ more) where
  chain := (chain_append _ _ _ _).mpr ⟨middle, hsame.chain, hmore⟩
  lcnIn_eq vcn := by rw [lcnIn_append, lcnIn_append, hsame.lcnIn_eq]
  start_mem := by
    intro run hrun
    rcases List.mem_append.mp hrun with hmem | hmem
    · obtain ⟨old, hold, hst⟩ := hsame.start_mem run hmem
      exact ⟨old, mem_append_left _ hold, hst⟩
    · exact ⟨run, mem_append_right _ hmem, rfl, rfl⟩

theorem isS64_lcn (hsame : SameMap first last runs other) (hwords : ∀ run ∈ runs, IsS64 run.lcn) :
    ∀ run ∈ other, IsS64 run.lcn := by
  intro run hrun
  obtain ⟨old, hold, -, hlcn⟩ := hsame.start_mem run hrun
  exact hlcn ▸ hwords old hold

end SameMap

/-! ### Merging two runs -/

variable {dst src marker : RunlistElement} {vcn first last : ℤ}
  {before runs rest more : List RunlistElement}

theorem mergeable_cases (hmrg : ntfsAreRlMergeable dst src = true) :
    (dst.lcn = lcnRlNotMapped ∧ src.lcn = lcnRlNotMapped) ∨
      (dst.lcn = lcnHole ∧ src.lcn = lcnHole) ∨
      (0 ≤ dst.lcn ∧ 0 ≤ src.lcn ∧ s64 (dst.lcn + dst.length) = src.lcn) := by
  unfold ntfsAreRlMergeable at hmrg
  split_ifs at hmrg with hunm hadj hmap hhole
  · exact .inl hunm
  · exact .inr (.inr hmap)
  · exact .inr (.inl hhole)

theorem lcnAt_eq_of_mergeable (hmrg : ntfsAreRlMergeable dst src = true)
    (hadj : src.vcn = dst.vcn + dst.length) (hdst : IsS64 dst.lcn) (hsrc : IsS64 src.lcn)
    (hlen : 0 < dst.length) (hvcn : 0 ≤ dst.vcn) (hword : IsS64 vcn) (hlow : src.vcn ≤ vcn) :
    src.lcnAt vcn = dst.lcnAt vcn := by
  rcases mergeable_cases hmrg with ⟨hd, hs⟩ | ⟨hd, hs⟩ | ⟨hd, hs, hsum⟩
  · rw [src.lcnAt_of_neg (hs ▸ by decide), dst.lcnAt_of_neg (hd ▸ by decide), hd, hs]
  · rw [src.lcnAt_of_neg (hs ▸ by decide), dst.lcnAt_of_neg (hd ▸ by decide), hd, hs]
  · unfold IsS64 at hword
    have hexact := (s64_add_eq_iff hdst ⟨by omega, by omega⟩ hsrc hd (by omega) hs).mp hsum
    have hofs : s64 (vcn - src.vcn) = vcn - src.vcn := s64_of_isS64 ⟨by omega, by omega⟩
    have hofs' : s64 (vcn - dst.vcn) = vcn - dst.vcn := s64_of_isS64 ⟨by omega, by omega⟩
    unfold RunlistElement.lcnAt
    rw [if_pos hs, if_pos hd, hofs, hofs', hadj, ← hexact]
    congr 1
    ring

/-- Assumes: two consecutive runs between nonnegative words that can be merged. Their merger stands
for the same map. -/
theorem sameMap_merge (hch : Chain first [dst, src] last) (hfst : 0 ≤ first) (hlast : IsS64 last)
    (hdst : IsS64 dst.lcn) (hsrc : IsS64 src.lcn) (hmrg : ntfsAreRlMergeable dst src = true) :
    SameMap first last [dst, src] [ntfsRlMerge dst src] := by
  obtain ⟨hvcn, hlen, hadj, hlen', hend⟩ := hch
  rw [chain_nil] at hend
  have hword := hlast
  unfold IsS64 at hword
  have hsum : (ntfsRlMerge dst src).length = dst.length + src.length :=
    s64_of_isS64 ⟨by omega, by omega⟩
  refine ⟨⟨hvcn, by omega, by rw [chain_nil]; omega⟩, fun vcn => ?_, ?_⟩
  · have hcov : (ntfsRlMerge dst src).Covers vcn ↔ dst.Covers vcn ∨ src.Covers vcn := by
      have hst : (ntfsRlMerge dst src).vcn = dst.vcn := rfl
      unfold RunlistElement.Covers
      omega
    have hlcn : (ntfsRlMerge dst src).lcnAt vcn = dst.lcnAt vcn := rfl
    rw [lcnIn_cons, lcnIn_cons, lcnIn_cons, hlcn]
    by_cases hin : dst.Covers vcn
    · rw [if_pos hin, if_pos (hcov.mpr (.inl hin))]
    · by_cases hin' : src.Covers vcn
      · have hbd := hin'
        unfold RunlistElement.Covers at hbd
        have hsame := lcnAt_eq_of_mergeable hmrg (by omega) hdst hsrc hlen (by omega)
          ⟨by omega, by omega⟩ hbd.1
        rw [if_neg hin, if_pos hin', if_pos (hcov.mpr (.inr hin')), hsame]
      · rw [if_neg hin, if_neg hin', if_neg (fun h => (hcov.mp h).elim hin hin')]
  · intro run hrun
    rw [List.mem_singleton.mp hrun]
    exact ⟨dst, by simp, rfl, rfl⟩

/-- Assumes: consecutive runs between nonnegative words. Joining two parts of them where they meet
gives a list that stands for the same map. -/
theorem sameMap_splice (hch : Chain first (runs ++ rest) last) (hfst : 0 ≤ first)
    (hlast : IsS64 last) (hwords : ∀ run ∈ runs ++ rest, IsS64 run.lcn) :
    SameMap first last (runs ++ rest) (splice runs rest) := by
  rcases eq_nil_or_concat runs with rfl | ⟨front, final, rfl⟩
  · exact SameMap.refl hch
  · rw [concat_eq_append] at *
    cases rest with
    | nil => simpa [splice] using SameMap.refl hch
    | cons next rest =>
      rw [splice, grown_concat_cons, meets_concat_cons]
      by_cases hmrg : ntfsAreRlMergeable final next = true
      · rw [if_pos hmrg, hmrg, Bool.toNat_true, drop_succ_cons, drop_zero, append_assoc,
          append_assoc]
        have hspl : front ++ ([final] ++ next :: rest) = front ++ ([final, next] ++ rest) := by simp
        rw [append_assoc, hspl, chain_append] at hch
        obtain ⟨start, hfr, hrest⟩ := hch
        obtain ⟨stop, hpair, hrest⟩ := (chain_append _ _ _ _).mp hrest
        have hst := hfr.le
        have hstop := hrest.le
        have hpos := hpair.lt (by simp)
        unfold IsS64 at hlast
        have hmerged := sameMap_merge hpair (by omega) ⟨by omega, by omega⟩
          (hwords final (by simp)) (hwords next (by simp)) hmrg
        rw [hspl]
        exact (hmerged.append_right hrest).append_left hfr
      · rw [if_neg hmrg, Bool.not_eq_true _ |>.mp hmrg, Bool.toNat_false, drop_zero]
        exact SameMap.refl hch

/-! ### The list functions on consecutive runs -/

theorem endOf_eq_of_chain (hch : Chain first runs last) (hruns : runs ≠ [])
    (hlast : IsS64 last) : endOf runs = last := by
  obtain ⟨front, final, rfl⟩ := exists_concat hruns
  obtain ⟨middle, hfr, hvcn, -, hend⟩ := (chain_append _ _ _ _).mp hch
  rw [chain_nil, ← hvcn] at hend
  rw [endOf_concat, endVcn, hend, s64_of_isS64 hlast]

theorem endOf_eq_of_chain' (hch : Chain 0 runs last) (hlast : IsS64 last) :
    endOf runs = last := by
  by_cases hruns : runs = []
  · rw [hruns] at hch ⊢
    exact (chain_nil _ _).mp hch
  · exact endOf_eq_of_chain hch hruns hlast

theorem startOf_eq_of_chain (hch : Chain first runs last) (hruns : runs ≠ []) :
    startOf runs = first := by
  obtain ⟨run, runs, rfl⟩ := exists_cons_of_ne_nil hruns
  exact hch.1

theorem startOf_concat_of_chain {last : RunlistElement} (hch : Chain first runs last.vcn) :
    startOf (runs ++ [last]) = first := by
  cases runs with
  | nil => exact ((chain_nil _ _).mp hch).symm
  | cons run runs => exact hch.1

theorem meets_eq_false_of_apart (hap : endOf before ≠ startOf runs)
    (hhead : ∀ run ∈ runs.head?, run.lcn ≠ lcnRlNotMapped) : meets before runs = false := by
  by_contra hmt
  rw [Bool.not_eq_false] at hmt
  cases runs with
  | nil => simp at hmt
  | cons run runs =>
    rcases eq_nil_or_concat before with rfl | ⟨front, final, rfl⟩
    · simp [meets] at hmt
    · rw [concat_eq_append] at hmt hap
      rw [meets_concat_cons] at hmt
      rw [endOf_concat, startOf_cons] at hap
      exact hap (endVcn_of_mergeable hmt (hhead run rfl))

theorem fixMarker_eq_self (hrest : ∀ run ∈ rest.head?, run.vcn = vcn) :
    fixMarker vcn rest = rest := by
  cases rest with
  | nil => rfl
  | cons marker rest =>
    have hvcn : marker.vcn = vcn := hrest marker rfl
    rw [fixMarker, ← hvcn]
    exact ite_id _

/-- Assumes: consecutive runs up to a terminator that cannot be merged with the runs in front of it.
The marker is already where the driver puts it, and the terminator stays out of the merging. -/
theorem spliceTail_eq (hch : Chain first (runs ++ more) last) (hruns : runs ≠ [])
    (hmrk : marker.vcn = last) (hmt : meets runs [marker] = false) (hfst : 0 ≤ first)
    (hlast : IsS64 last) (hwords : ∀ run ∈ runs ++ more, IsS64 run.lcn) :
    spliceTail runs (more ++ [marker]) = splice runs more ++ [marker] := by
  cases more with
  | nil =>
    obtain ⟨front, final, rfl⟩ := exists_concat hruns
    rw [append_nil] at hch
    have hgrown : grown (front ++ [final]) [marker] = front ++ [final] := by
      rw [meets_concat_cons] at hmt
      rw [grown_concat_cons, hmt]
      rfl
    have hend := endOf_eq_of_chain hch hruns hlast
    rw [spliceTail, splice, nil_append, hmt, hgrown, hend, fixMarker_eq_self (by simpa)]
    simp
  | cons next more =>
    -- Joined as a whole, the runs are a chain, so the marker behind the first part is in place.
    have hsame := sameMap_splice hch hfst hlast hwords
    have hpar := hsame.chain
    rw [splice, chain_append] at hpar
    obtain ⟨middle, hgrown, hrest⟩ := hpar
    have hle := hrest.le
    have hle' := hgrown.le
    unfold IsS64 at hlast
    have hend := endOf_eq_of_chain hgrown (grown_ne_nil hruns _) ⟨by omega, by omega⟩
    rw [← splice_append (cons_ne_nil _ _), spliceTail, splice]
    congr 1
    have hgrow : grown runs (next :: more ++ [marker]) = grown runs (next :: more) := by
      unfold grown
      cases runs.getLast? <;> rfl
    have hdrop : (next :: more ++ [marker]).drop (meets runs (next :: more ++ [marker])).toNat =
        (next :: more).drop (meets runs (next :: more)).toNat ++ [marker] := by
      have hmt' : meets runs (next :: more ++ [marker]) = meets runs (next :: more) := by
        unfold meets
        cases runs.getLast? <;> rfl
      rw [hmt', drop_append_of_le_length (toNat_meets_le _ _)]
    rw [hgrow, hend, hdrop]
    refine fixMarker_eq_self ?_
    cases hcut : (next :: more).drop (meets runs (next :: more)).toNat with
    | nil =>
      rw [hcut, chain_nil] at hrest
      simpa using hmrk.trans hrest.symm
    | cons run tail =>
      rw [hcut] at hrest
      simpa using hrest.1

/-! ### Runs put inside a hole -/

/-- The run with the given marker from `first` to `last`, or nothing if there is nothing between. -/
def filler (lcn first last : ℤ) : List RunlistElement :=
  if first = last then [] else [⟨first, lcn, last - first⟩]

def cutRun (run : RunlistElement) (first last : ℤ) (runs : List RunlistElement) :
    List RunlistElement :=
  filler run.lcn run.vcn first ++ (runs ++ filler run.lcn last (run.vcn + run.length))

variable {other run : RunlistElement} {finish start : Bool}

section

variable {run : RunlistElement} {lcn first last : ℤ} {runs : List RunlistElement}

theorem chain_filler (lcn : ℤ) (hle : first ≤ last) : Chain first (filler lcn first last) last := by
  unfold filler
  split_ifs with heq
  · exact heq
  · exact ⟨rfl, by simp only; omega, by simp only [chain_nil]; omega⟩

theorem lcnIn_filler (hlcn : lcn < 0) (vcn : ℤ) :
    lcnIn (filler lcn first last) vcn = if first ≤ vcn ∧ vcn < last then some lcn else none := by
  unfold filler
  by_cases heq : first = last
  · rw [if_pos heq, if_neg (by omega), lcnIn_nil]
  · have hcov : (⟨first, lcn, last - first⟩ : RunlistElement).Covers vcn ↔
        first ≤ vcn ∧ vcn < last := by
      simp only [RunlistElement.Covers]
      omega
    have hlcnAt : (⟨first, lcn, last - first⟩ : RunlistElement).lcnAt vcn = lcn :=
      RunlistElement.lcnAt_of_neg hlcn vcn
    rw [if_neg heq, lcnIn_cons, hlcnAt, lcnIn_nil]
    exact if_congr hcov rfl rfl

theorem mem_filler (hoth : other ∈ filler lcn first last) :
    other.vcn = first ∧ other.lcn = lcn := by
  unfold filler at hoth
  split_ifs at hoth
  · simp at hoth
  · rw [List.mem_singleton.mp hoth]
    exact ⟨rfl, rfl⟩

theorem chain_cutRun (hch : Chain first runs last) (hlow : run.vcn ≤ first)
    (hhigh : last ≤ run.vcn + run.length) :
    Chain run.vcn (cutRun run first last runs) (run.vcn + run.length) := by
  rw [cutRun, chain_append]
  refine ⟨first, chain_filler _ hlow, ?_⟩
  rw [chain_append]
  exact ⟨last, hch, chain_filler _ hhigh⟩

/-- A cluster of the cut run is looked up in the runs put inside it, and outside them as before. -/
theorem lcnIn_cutRun (hch : Chain first runs last) (hlow : run.vcn ≤ first)
    (hhigh : last ≤ run.vcn + run.length) (hlcn : run.lcn < 0) (vcn : ℤ) :
    lcnIn (cutRun run first last runs) vcn =
      if first ≤ vcn ∧ vcn < last then lcnIn runs vcn else lcnIn [run] vcn := by
  have hle := hch.le
  rw [cutRun, lcnIn_append, lcnIn_append, lcnIn_filler hlcn, lcnIn_filler hlcn]
  by_cases hin : first ≤ vcn ∧ vcn < last
  · rw [if_pos hin, if_neg (by omega), if_neg (by omega), Option.none_or, Option.or_none]
  · rw [if_neg hin, hch.lcnIn_eq_none (by omega), lcnIn_cons, RunlistElement.lcnAt_of_neg hlcn]
    by_cases hcov : run.Covers vcn
    · rw [if_pos hcov]
      by_cases hside : vcn < first
      · rw [if_pos ⟨hcov.1, hside⟩, Option.some_or]
      · rw [if_neg (by omega), if_pos ⟨by omega, hcov.2⟩, Option.none_or, Option.none_or]
    · rw [if_neg hcov]
      unfold RunlistElement.Covers at hcov
      rw [if_neg (by omega), if_neg (by omega)]
      rfl

theorem mem_cutRun (hoth : other ∈ cutRun run first last runs) :
    other ∈ runs ∨ (other.vcn = run.vcn ∨ other.vcn = last) ∧ other.lcn = run.lcn := by
  rw [cutRun, mem_append, mem_append] at hoth
  rcases hoth with hbefore | hruns | haft
  · exact .inr ⟨.inl (mem_filler hbefore).1, (mem_filler hbefore).2⟩
  · exact .inl hruns
  · exact .inr ⟨.inr (mem_filler haft).1, (mem_filler haft).2⟩

end

theorem tail_inside (hruns : Chain first runs last) (hne : runs ≠ [])
    (hmore : Chain (run.vcn + run.length) more marker.vcn) (hfst : 0 ≤ first)
    (hhigh : last ≤ run.vcn + run.length) (hmrk : IsS64 marker.vcn)
    (hmt : meets runs [marker] = false) (hfini : finish = true ↔ last = run.vcn + run.length)
    (hwords : ∀ other ∈ runs ++ more, IsS64 other.lcn) :
    ∃ tail, (if finish then spliceTail runs (more ++ [marker])
        else runs ++ partAfter run runs (more ++ [marker]) :: (more ++ [marker])) =
        tail ++ [marker] ∧ tail ≠ [] ∧
      SameMap first marker.vcn (runs ++ (filler run.lcn last (run.vcn + run.length) ++ more))
        tail := by
  cases finish with
  | true =>
    have hlast : last = run.vcn + run.length := hfini.mp rfl
    have hch : Chain first (runs ++ more) marker.vcn :=
      (chain_append _ _ _ _).mpr ⟨last, hruns, hlast ▸ hmore⟩
    refine ⟨splice runs more, spliceTail_eq hch hne rfl hmt hfst hmrk hwords,
      splice_ne_nil_left hne more, ?_⟩
    rw [filler, if_pos hlast]
    exact sameMap_splice hch hfst hmrk hwords
  | false =>
    have hpos := hruns.lt hne
    have hend := hmore.le
    have hap : last ≠ run.vcn + run.length := fun h => Bool.noConfusion (hfini.mpr h)
    unfold IsS64 at hmrk
    have haft : partAfter run runs (more ++ [marker]) =
        ⟨last, run.lcn, run.vcn + run.length - last⟩ := by
      rw [partAfter, endOf_eq_of_chain hruns hne ⟨by omega, by omega⟩,
        startOf_concat_of_chain hmore, s64_of_isS64 ⟨by omega, by omega⟩]
    refine ⟨_, ?_, append_ne_nil_of_left_ne_nil hne _, SameMap.refl ?_⟩
    · rw [haft, filler, if_neg hap]
      simp
    · exact (chain_append _ _ _ _).mpr ⟨_, hruns,
        (chain_append _ _ _ _).mpr ⟨_, chain_filler _ hhigh, hmore⟩⟩

/-- Assumes: a runlist with consecutive runs, and runs that lie inside one of its holes or unmapped
runs, the last of which cannot be merged with the terminator. Whichever routine their position calls
for, it leaves the terminator alone and coalesces the runlist with the cut run in place of `run`. -/
theorem mergeRuns_inside (hbefore : Chain 0 before run.vcn) (hruns : Chain first runs last)
    (hne : runs ≠ []) (hmore : Chain (run.vcn + run.length) more marker.vcn)
    (hgap : isGap run = true) (hlow : run.vcn ≤ first) (hhigh : last ≤ run.vcn + run.length)
    (hmrk : IsS64 marker.vcn) (hmt : meets runs [marker] = false)
    (hst : start = true ↔ run.vcn = first) (hfini : finish = true ↔ last = run.vcn + run.length)
    (hwords : ∀ other ∈ before ++ (runs ++ more), IsS64 other.lcn) :
    ∃ merged, mergeRuns start finish before run runs (more ++ [marker]) = merged ++ [marker] ∧
      SameMap 0 marker.vcn (before ++ (cutRun run first last runs ++ more)) merged := by
  have hpos := hruns.lt hne
  have horig := hbefore.le
  have hend := hmore.le
  have hword := hmrk
  unfold IsS64 at hword
  have hrunsStart : startOf runs = first := startOf_eq_of_chain hruns hne
  obtain ⟨tail, htail, htailNe, hsame⟩ := tail_inside hruns hne hmore (horig.trans hlow) hhigh
    hmrk hmt hfini fun other hoth => hwords other (mem_append_right _ hoth)
  cases start with
  | true =>
    have hfst : run.vcn = first := hst.mp rfl
    have hnoGap : leavesGap before runs = false := by
      have hbeforeEnd : endOf before = run.vcn := endOf_eq_of_chain' hbefore ⟨by omega, by omega⟩
      rw [leavesGap, hbeforeEnd, hrunsStart, decide_eq_false (by omega), Bool.and_false]
    have hmrg : mergeRuns true finish before run runs (more ++ [marker]) =
        splice before (tail ++ [marker]) := by
      rw [← htail]
      cases finish with
      | true => rfl
      | false =>
        rw [mergeRuns, insertRuns, hnoGap, hgap]
        exact (splice_append hne _ _).symm
    have hwh := hsame.append_left (hfst ▸ hbefore)
    refine ⟨splice before tail, by rw [hmrg, splice_append htailNe], ?_⟩
    rw [cutRun, filler, if_pos hfst, nil_append, append_assoc]
    refine hwh.trans (sameMap_splice hwh.chain le_rfl hmrk (hwh.isS64_lcn ?_))
    intro other hoth
    simp only [mem_append] at hoth hwords
    rcases hoth with hmem | hmem | hmem | hmem
    · exact hwords other (.inl hmem)
    · exact hwords other (.inr (.inl hmem))
    · rw [(mem_filler hmem).2]
      rcases of_decide_eq_true hgap with hlcn | hlcn <;> rw [hlcn] <;> decide
    · exact hwords other (.inr (.inr hmem))
  | false =>
    have hap : run.vcn ≠ first := fun h => Bool.noConfusion (hst.mpr h)
    have hpart : partBefore run runs = ⟨run.vcn, run.lcn, first - run.vcn⟩ := by
      rw [partBefore, hrunsStart, s64_of_isS64 ⟨by omega, by omega⟩]
    have hmrg : mergeRuns false finish before run runs (more ++ [marker]) =
        before ++ partBefore run runs :: (tail ++ [marker]) := by
      rw [← htail]
      cases finish <;> rfl
    have hfr : Chain 0 (before ++ filler run.lcn run.vcn first) first :=
      (chain_append _ _ _ _).mpr ⟨_, hbefore, chain_filler _ hlow⟩
    refine ⟨before ++ filler run.lcn run.vcn first ++ tail, ?_, ?_⟩
    · rw [hmrg, hpart, filler, if_neg hap]
      simp
    · simpa only [cutRun, append_assoc] using hsame.append_left hfr

/-! ### Runs put behind the end -/

section

variable {before runs : List RunlistElement} {marker : RunlistElement} {first last : ℤ}
  (hbefore : Chain 0 before marker.vcn) (hruns : Chain first runs last) (hne : runs ≠ [])
  (hlow : marker.vcn ≤ first) (hlast : IsS64 last)
  (hwords : ∀ other ∈ before ++ runs, IsS64 other.lcn)
include hbefore hruns hne hlow hlast hwords

theorem insertRuns_behind (hgap : isGap marker = false)
    (hhead : ∀ run ∈ runs.head?, run.lcn ≠ lcnRlNotMapped) :
    ∃ merged, insertRuns before marker runs [] = merged ++ [{ marker with vcn := last }] ∧
      SameMap 0 last (before ++ (filler lcnRlNotMapped marker.vcn first ++ runs)) merged := by
  have hpos := hruns.lt hne
  have horig := hbefore.le
  have hword := hlast
  unfold IsS64 at hword
  have hbeforeEnd : endOf before = marker.vcn := endOf_eq_of_chain' hbefore ⟨by omega, by omega⟩
  have hrunsEnd : endOf runs = last := endOf_eq_of_chain hruns hne hlast
  have hrunsStart : startOf runs = first := startOf_eq_of_chain hruns hne
  rw [insertRuns, hgap, hrunsEnd]
  by_cases hmeets : marker.vcn = first
  · have hnoGap : leavesGap before runs = false := by
      rw [leavesGap, hbeforeEnd, hrunsStart, decide_eq_false (by omega), Bool.and_false]
    refine ⟨splice before runs, by simp [hnoGap], ?_⟩
    rw [filler, if_pos hmeets, nil_append]
    exact sameMap_splice ((chain_append _ _ _ _).mpr ⟨_, hmeets ▸ hbefore, hruns⟩)
      le_rfl hlast hwords
  · have hap := meets_eq_false_of_apart (by rwa [hbeforeEnd, hrunsStart]) hhead
    have hgapTrue : leavesGap before runs = true := by
      rw [leavesGap, hap, hbeforeEnd, hrunsStart, decide_eq_true (by omega)]
      rfl
    have hlen : s64 (first - marker.vcn) = first - marker.vcn :=
      s64_of_isS64 ⟨by omega, by omega⟩
    refine ⟨before ++ (filler lcnRlNotMapped marker.vcn first ++ runs), ?_, SameMap.refl ?_⟩
    · simp [hgapTrue, hbeforeEnd, hrunsStart, filler, hmeets, hlen]
    · exact (chain_append _ _ _ _).mpr ⟨_, hbefore,
        (chain_append _ _ _ _).mpr ⟨_, chain_filler _ hlow, hruns⟩⟩

theorem mergeRuns_behind (hst : start = true ↔ marker.vcn = first)
    (hlcn : marker.lcn = lcnRlNotMapped) (terminator : RunlistElement) :
    ∃ merged, mergeRuns start true before marker (runs ++ [terminator]) [] =
      merged ++ [terminator] ∧
      SameMap 0 last (before ++ (filler lcnRlNotMapped marker.vcn first ++ runs)) merged := by
  have hpos := hruns.lt hne
  have horig := hbefore.le
  have hword := hlast
  unfold IsS64 at hword
  have hrunsStart : startOf runs = first := startOf_eq_of_chain hruns hne
  have htail : spliceTail (runs ++ [terminator]) [] = runs ++ [terminator] := by
    simp [spliceTail, fixMarker]
  cases start with
  | true =>
    have hfst : marker.vcn = first := hst.mp rfl
    refine ⟨splice before runs, ?_, ?_⟩
    · rw [mergeRuns, replaceRuns, htail, splice_append hne]
    · rw [filler, if_pos hfst, nil_append]
      exact sameMap_splice ((chain_append _ _ _ _).mpr ⟨_, hfst ▸ hbefore, hruns⟩) le_rfl hlast
        hwords
  | false =>
    have hmeets : marker.vcn ≠ first := fun h => absurd (hst.mpr h) (by decide)
    have hlen : s64 (first - marker.vcn) = first - marker.vcn :=
      s64_of_isS64 ⟨by omega, by omega⟩
    refine ⟨before ++ (filler lcnRlNotMapped marker.vcn first ++ runs), ?_, SameMap.refl ?_⟩
    · rw [mergeRuns, appendRuns, htail, partBefore, startOf_append hne, hrunsStart, hlen, hlcn,
        filler, if_neg hmeets]
      simp
    · exact (chain_append _ _ _ _).mpr ⟨_, hbefore,
        (chain_append _ _ _ _).mpr ⟨_, chain_filler _ hlow, hruns⟩⟩

end

end AdvancedOs.Ntfs.RunlistCoalescing
