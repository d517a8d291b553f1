import AdvancedOs.Ntfs.RunlistEndMarker

/-!
# Lookups in a list that is not consecutive

A merge whose source overlaps the destination leaves a list whose runs are not consecutive, and what
a lookup finds in it depends on the walk alone: on the `vcn` of each following element, on the first
element of length zero, and on nothing else.

`vcnToLcnLoop_congr` is the rule for all that follows: two lists that begin alike give the same
result when their remainders start at the same vcn and give the same result. Joining two adjacent
runs does not change a walk (`sameWalk_merge`), so the list a merge computes walks like
`placedRuns`, in which nothing is joined (`sameWalk_mergedRuns`). `clusterIn` forgets the markers
and keeps the clusters of the device; the marker code does not touch those
(`fixEndMarker_clusters`).
-/

namespace AdvancedOs.Ntfs.RunlistWalks

open Foundation.ArraySegments Foundation.SignedWords List
open RunlistElements RunlistMergeRoutines RunlistMerge RunlistCoalescing RunlistMergeMap
open RunlistEndMarker

/-! ### Walks -/

variable {run next other last : RunlistElement} {items rest more runs : List RunlistElement}
  {vcn value lcn : ℤ} {block : RlArray}

theorem vcnToLcnLoop_of_zero (rest : List RunlistElement) (vcn : ℤ) (hlen : run.length = 0) :
    vcnToLcnLoop (run :: rest) vcn = some (if run.lcn < 0 then run.lcn else lcnEnoent) := by
  exact if_pos hlen

theorem vcnToLcnLoop_step (next : RunlistElement) (rest : List RunlistElement) (vcn : ℤ)
    (hlen : run.length ≠ 0) : vcnToLcnLoop (run :: next :: rest) vcn =
      if vcn < next.vcn then some (run.lcnAt vcn) else vcnToLcnLoop (next :: rest) vcn := by
  rw [vcnToLcnLoop, if_neg hlen]

theorem vcnToLcnLoop_marker (rest : List RunlistElement) (other vcn : ℤ) (hlcn : run.lcn < 0) :
    vcnToLcnLoop ({ run with vcn := other } :: rest) vcn = vcnToLcnLoop (run :: rest) vcn := by
  have hlcn' : ({ run with vcn := other } : RunlistElement).lcnAt vcn = run.lcn :=
    if_neg (not_le.mpr hlcn)
  cases rest with
  | nil => rfl
  | cons next rest => rw [vcnToLcnLoop, vcnToLcnLoop, hlcn', run.lcnAt_of_neg hlcn]

theorem vcnToLcnLoop_append_of_some (hval : vcnToLcnLoop items vcn = some value)
    (rest : List RunlistElement) : vcnToLcnLoop (items ++ rest) vcn = some value := by
  induction items with
  | nil => exact absurd hval (by simp [vcnToLcnLoop])
  | cons run items ih =>
    by_cases hlen : run.length = 0
    · rw [vcnToLcnLoop_of_zero _ _ hlen] at hval
      rw [cons_append, vcnToLcnLoop_of_zero _ _ hlen, hval]
    · cases items with
      | nil => exact absurd hval (by simp [vcnToLcnLoop, hlen])
      | cons next items =>
        rw [vcnToLcnLoop_step _ _ _ hlen] at hval
        rw [cons_append, cons_append, vcnToLcnLoop_step _ _ _ hlen]
        by_cases hlt : vcn < next.vcn
        · rwa [if_pos hlt] at hval ⊢
        · rw [if_neg hlt] at hval ⊢
          exact ih hval

theorem exists_vcnToLcnLoop (hit : ∃ run ∈ items, run.length = 0) (vcn : ℤ) :
    ∃ value, vcnToLcnLoop items vcn = some value := by
  induction items with
  | nil => simp at hit
  | cons run items ih =>
    by_cases hlen : run.length = 0
    · exact ⟨_, vcnToLcnLoop_of_zero _ _ hlen⟩
    · have hrest : ∃ other ∈ items, other.length = 0 := by
        obtain ⟨other, hoth, hzero⟩ := hit
        rcases List.mem_cons.mp hoth with rfl | hmem
        · exact absurd hzero hlen
        · exact ⟨other, hmem, hzero⟩
      obtain ⟨value, hval⟩ := ih hrest
      cases items with
      | nil => simp at hrest
      | cons next items =>
        rw [vcnToLcnLoop_step _ _ _ hlen]
        by_cases hlt : vcn < next.vcn
        · exact ⟨_, if_pos hlt⟩
        · exact ⟨value, (if_neg hlt).trans hval⟩

/-- Assumes: two lists that begin alike, with remainders that start at the same vcn. What is read
off the walks over the remainders alike is read off the walks over the lists alike. -/
theorem vcnToLcnLoop_congr {β : Type*} (view : Option ℤ → β) (front : List RunlistElement)
    (hvcn : next.vcn = other.vcn)
    (hview : view (vcnToLcnLoop (next :: rest) vcn) = view (vcnToLcnLoop (other :: more) vcn)) :
    view (vcnToLcnLoop (front ++ next :: rest) vcn) =
      view (vcnToLcnLoop (front ++ other :: more) vcn) := by
  induction front with
  | nil => exact hview
  | cons run front ih =>
    by_cases hlen : run.length = 0
    · rw [cons_append, cons_append, vcnToLcnLoop_of_zero _ _ hlen, vcnToLcnLoop_of_zero _ _ hlen]
    · cases front with
      | nil =>
        rw [cons_append, cons_append, nil_append, nil_append,
          vcnToLcnLoop_step _ _ _ hlen, vcnToLcnLoop_step _ _ _ hlen, ← hvcn]
        by_cases hlt : vcn < next.vcn
        · rw [if_pos hlt, if_pos hlt]
        · rwa [if_neg hlt, if_neg hlt]
      | cons second front =>
        simp only [cons_append] at ih ⊢
        rw [vcnToLcnLoop_step _ _ _ hlen, vcnToLcnLoop_step _ _ _ hlen]
        by_cases hlt : vcn < second.vcn
        · rw [if_pos hlt, if_pos hlt]
        · rwa [if_neg hlt, if_neg hlt]

/-- The two lists are walked alike: every lookup finds the same, no element ends a walk in the first
that is not in the second, they start at the same vcn, and their last elements are the same. -/
structure SameWalk (items other : List RunlistElement) : Prop where
  loop_eq : ∀ vcn, IsS64 vcn → vcnToLcnLoop items vcn = vcnToLcnLoop other vcn
  zero_mem : ∀ run ∈ items, run.length = 0 → run ∈ other
  startOf_eq : startOf items = startOf other
  getLast?_eq : items.getLast? = other.getLast?

theorem SameWalk.refl (items : List RunlistElement) : SameWalk items items :=
  ⟨fun _ _ => rfl, fun _ hrun _ => hrun, rfl, rfl⟩

theorem SameWalk.trans {other third : List RunlistElement} (hfst : SameWalk items other)
    (hsec : SameWalk other third) : SameWalk items third where
  loop_eq vcn hword := (hfst.loop_eq vcn hword).trans (hsec.loop_eq vcn hword)
  zero_mem run hrun hzero := hsec.zero_mem run (hfst.zero_mem run hrun hzero) hzero
  startOf_eq := hfst.startOf_eq.trans hsec.startOf_eq
  getLast?_eq := hfst.getLast?_eq.trans hsec.getLast?_eq

theorem sameWalk_merge (front : List RunlistElement) {second : RunlistElement}
    (rest : List RunlistElement) (hmrg : ntfsAreRlMergeable run second = true)
    (hadj : second.vcn = run.vcn + run.length) (hvcn : 0 ≤ run.vcn) (hlen : 0 < run.length)
    (hlen' : 0 < second.length) (hend : IsS64 (second.vcn + second.length)) (hrun : IsS64 run.lcn)
    (hsec : IsS64 second.lcn) (hnext : second.vcn ≤ next.vcn) :
    SameWalk (front ++ ntfsRlMerge run second :: next :: rest)
      (front ++ run :: second :: next :: rest) := by
  have hmerged : (ntfsRlMerge run second).length ≠ 0 := by
    unfold IsS64 at hend
    have hsum : (ntfsRlMerge run second).length = run.length + second.length :=
      s64_of_isS64 ⟨by omega, by omega⟩
    omega
  refine ⟨fun vcn hword => vcnToLcnLoop_congr id front rfl ?_, fun other hoth hzero => ?_, ?_, ?_⟩
  · have hlcn : (ntfsRlMerge run second).lcnAt vcn = run.lcnAt vcn := rfl
    rw [vcnToLcnLoop_step _ _ _ hmerged, vcnToLcnLoop_step _ _ _ hlen.ne', hlcn]
    by_cases hlow : vcn < second.vcn
    · rw [if_pos hlow, if_pos (by omega)]
    · have hsame := lcnAt_eq_of_mergeable hmrg hadj hrun hsec hlen hvcn hword (not_lt.mp hlow)
      rw [if_neg hlow, vcnToLcnLoop_step _ _ _ hlen'.ne', hsame]
  · simp only [mem_append, mem_cons] at hoth ⊢
    rcases hoth with hmem | rfl | hmem
    · exact .inl hmem
    · exact absurd hzero hmerged
    · exact .inr (.inr (.inr hmem))
  · cases front <;> rfl
  · simp [List.getLast?_cons]

/-! ### Clusters of the device -/

def toCluster (lcn : Option ℤ) : Option ℤ := lcn.filter fun lcn => decide (0 ≤ lcn)

theorem toCluster_of_neg (hlcn : lcn < 0) : toCluster (some lcn) = none := by
  rw [toCluster, Option.filter_some_neg (by simpa using hlcn)]

theorem toCluster_eq_some {found : Option ℤ} :
    toCluster found = some lcn ↔ found = some lcn ∧ 0 ≤ lcn := by
  rw [toCluster, Option.filter_eq_some_iff, decide_eq_true_iff]

def clusterIn (items : List RunlistElement) (vcn : ℤ) : Option ℤ :=
  toCluster (vcnToLcnLoop items vcn)

theorem clusterIn_terminator (rest : List RunlistElement) (vcn : ℤ) (hlen : last.length = 0) :
    clusterIn (last :: rest) vcn = none := by
  rw [clusterIn, vcnToLcnLoop_of_zero _ _ hlen]
  refine toCluster_of_neg ?_
  split_ifs with hlcn
  · exact hlcn
  · decide

theorem clusterIn_unmapped (rest : List RunlistElement) (vcn : ℤ) (hlcn : run.lcn < 0)
    (hlen : last.length = 0) : clusterIn (run :: last :: rest) vcn = none := by
  by_cases hrun : run.length = 0
  · exact clusterIn_terminator _ vcn hrun
  · rw [clusterIn, vcnToLcnLoop_step _ _ _ hrun, run.lcnAt_of_neg hlcn]
    split_ifs
    · exact toCluster_of_neg hlcn
    · exact clusterIn_terminator rest vcn hlen

theorem clusterIn_congr (front : List RunlistElement) (hvcn : next.vcn = other.vcn)
    (hview : clusterIn (next :: rest) vcn = clusterIn (other :: more) vcn) :
    clusterIn (front ++ next :: rest) vcn = clusterIn (front ++ other :: more) vcn :=
  vcnToLcnLoop_congr toCluster front hvcn hview

theorem clusterIn_endMarked (runs : List RunlistElement) (markerVcn vcn : ℤ)
    (hlen : last.length = 0) : clusterIn (endMarked runs last markerVcn) vcn =
      clusterIn (runs ++ [last]) vcn := by
  have hunm : lcnRlNotMapped < 0 := by decide
  have hlong : clusterIn (runs ++ [⟨last.vcn, lcnRlNotMapped, s64 (markerVcn - last.vcn)⟩,
      ⟨markerVcn, lcnEnoent, 0⟩]) vcn = clusterIn (runs ++ [last]) vcn := by
    refine clusterIn_congr runs rfl ?_
    rw [clusterIn_unmapped [] vcn hunm rfl, clusterIn_terminator [] vcn hlen]
  unfold endMarked
  split_ifs with hbef hsame
  · rfl
  · refine clusterIn_congr runs rfl ?_
    rw [clusterIn_terminator [] vcn hlen]
    exact clusterIn_terminator [] vcn hlen
  · rcases eq_nil_or_concat runs with rfl | ⟨front, final, rfl⟩
    · exact hlong
    · rw [concat_eq_append] at hlong ⊢
      rw [List.getLast?_concat, dropLast_concat]
      by_cases hext : last.lcn = lcnEnoent ∧ final.lcn = lcnRlNotMapped
      · simp only [if_pos hext]
        rw [← append_cons]
        refine clusterIn_congr front rfl ?_
        have hfin : final.lcn < 0 := hext.2 ▸ hunm
        rw [clusterIn_unmapped [] vcn hfin hlen]
        exact clusterIn_unmapped [] vcn hfin rfl
      · simp only [if_neg hext]
        exact hlong

/-! ### Blocks -/

def clusterAt (block : RlArray) (vcn : ℤ) : Option ℤ := toCluster (block.lookup vcn)

theorem lookup_of_holds (hblk : block.Holds items) (hzero : ∃ run ∈ items, run.length = 0)
    (vcn : ℤ) : block.lookup vcn = ntfsRlVcnToLcn (some items) vcn := by
  obtain ⟨rest, hrest⟩ := hblk.exists_toList
  obtain ⟨value, hval⟩ := exists_vcnToLcnLoop hzero vcn
  have hwalk := vcnToLcnLoop_append_of_some hval rest
  cases items with
  | nil => simp at hzero
  | cons run items =>
    rw [cons_append] at hwalk
    rw [RlArray.lookup, hrest, cons_append]
    simp only [ntfsRlVcnToLcn, hval, hwalk]

theorem lookup_of_loop (hblk : block.Holds items) (hst : startOf items = 0) (hvcn : 0 ≤ vcn)
    (hval : vcnToLcnLoop items vcn = some value) : block.lookup vcn = some value := by
  obtain ⟨rest, hrest⟩ := hblk.exists_toList
  have hwalk := vcnToLcnLoop_append_of_some hval rest
  cases items with
  | nil => exact absurd hval (by simp [vcnToLcnLoop])
  | cons run items =>
    rw [startOf_cons] at hst
    rw [RlArray.lookup, hrest, cons_append, ntfsRlVcnToLcn, if_neg (by omega), ← hwalk]
    exact if_neg (by omega)

theorem clusterAt_eq (hblk : block.Holds items) (hst : startOf items = 0)
    (hzero : ∃ run ∈ items, run.length = 0) (hvcn : 0 ≤ vcn) :
    clusterAt block vcn = clusterIn items vcn := by
  obtain ⟨value, hval⟩ := exists_vcnToLcnLoop hzero vcn
  rw [clusterAt, clusterIn, hval, lookup_of_loop hblk hst hvcn hval]

theorem clusterIn_append (hzero : ∃ run ∈ items, run.length = 0) (rest : List RunlistElement)
    (vcn : ℤ) : clusterIn (items ++ rest) vcn = clusterIn items vcn := by
  obtain ⟨value, hval⟩ := exists_vcnToLcnLoop hzero vcn
  rw [clusterIn, clusterIn, hval, vcnToLcnLoop_append_of_some hval]

theorem startOf_endMarked (hruns : runs ≠ []) (last : RunlistElement) (markerVcn : ℤ) :
    startOf (endMarked runs last markerVcn) = startOf runs := by
  obtain ⟨front, final, rfl⟩ := exists_concat hruns
  unfold endMarked
  rw [List.getLast?_concat, dropLast_concat]
  split_ifs
  · exact startOf_append hruns _
  · exact startOf_append hruns _
  · simp only
    split_ifs
    · cases front <;> rfl
    · exact startOf_append hruns _

theorem exists_zero_endMarked (runs : List RunlistElement) (markerVcn : ℤ)
    (hlen : last.length = 0) : ∃ run ∈ endMarked runs last markerVcn, run.length = 0 := by
  unfold endMarked
  split_ifs
  · exact ⟨last, by simp, hlen⟩
  · exact ⟨{ last with lcn := lcnEnoent }, by simp, hlen⟩
  · cases runs.getLast? with
    | none => exact ⟨⟨markerVcn, lcnEnoent, 0⟩, by simp, rfl⟩
    | some final =>
      simp only
      split_ifs
      · exact ⟨⟨markerVcn, lcnEnoent, 0⟩, by simp, rfl⟩
      · exact ⟨⟨markerVcn, lcnEnoent, 0⟩, by simp, rfl⟩

theorem fixEndMarker_clusters (allocator : Allocator) {drl : RlArray} (srl : RlArray) {dend : ℕ}
    {markerVcn : ℤ} (hdrl : drl.Holds items) (hdend : 0 < dend) (hend : dend < items.length)
    (hst : startOf items = 0) (hlast : ∃ last ∈ items.getLast?, last.length = 0)
    (hzero : ∀ run ∈ items, run.length = 0 → markerVcn ≤ run.vcn ∨ run.lcn = lcnEnoent ∨
      run.lcn = lcnRlNotMapped) :
    ∃ block, fixEndMarker allocator drl srl dend markerVcn = .done block ∧
      ∀ vcn, 0 ≤ vcn → clusterAt block vcn = clusterIn items vcn := by
  -- The scan stops at the first element of length zero from `dend` on.
  have hfnd : ((items.drop dend).find? fun run => decide (run.length = 0)).isSome := by
    obtain ⟨last, hmem, hlen⟩ := hlast
    rw [List.find?_isSome]
    refine ⟨last, mem_of_getLast? ?_, by simpa using hlen⟩
    rw [List.getLast?_drop, if_neg (by omega)]
    exact hmem
  obtain ⟨found, hfind⟩ := Option.isSome_iff_exists.mp hfnd
  obtain ⟨hlen, behind, rest, hspl, hbeh⟩ := List.find?_eq_some_iff_append.mp hfind
  rw [decide_eq_true_iff] at hlen
  obtain ⟨front, hfr, hit⟩ : ∃ front, List.length front = dend ∧
      items = (front ++ behind) ++ [found] ++ rest := by
    refine ⟨items.take dend, length_take_of_le (by omega), ?_⟩
    nth_rewrite 1 [← take_append_drop dend items]
    rw [hspl]
    simp
  subst hit
  have hne : front ++ behind ≠ [] := by
    rintro hnil
    rw [(List.append_eq_nil_iff.mp hnil).1, length_nil] at hfr
    omega
  obtain ⟨block, hdone, hblk⟩ := fixEndMarker_spec allocator srl (holds_of_append hdrl) hne
    (fun run hrun => by simpa using hbeh run hrun) hlen markerVcn
    (hzero found (by simp) hlen)
  rw [append_assoc, startOf_append hne] at hst
  refine ⟨block, hfr ▸ hdone, fun vcn hvcn => ?_⟩
  rw [clusterAt_eq hblk ((startOf_endMarked hne _ _).trans hst)
    (exists_zero_endMarked _ _ hlen) hvcn, clusterIn_endMarked _ _ _ hlen]
  exact (clusterIn_append ⟨found, by simp, hlen⟩ rest vcn).symm

/-! ### Joined and separate runs -/

theorem first_bounds (src : Source) : IsS64 src.first.lcn ∧ src.first.lcn ≠ lcnRlNotMapped ∧
    0 < src.first.length ∧ IsS64 (src.first.vcn + src.first.length) := by
  have hmem : src.first ∈ src.mapped := head_mem _
  obtain ⟨hlow, hlen, hend⟩ := (chain_stopOf src).1.mem hmem
  obtain ⟨-, -, hword⟩ := stopOf_bounds src
  have hst := src.start_nonneg
  have hlcn := src.first_lcn
  refine ⟨src.lcn_isS64 _ hmem, ?_, hlen, ?_⟩
  · unfold lcnHole lcnRlNotMapped at *
    omega
  · unfold IsS64 at *
    omega

theorem sameWalk_splice {before : List RunlistElement} {head : RunlistElement} {last : ℤ}
    (hbef : Chain 0 before last) (hlast : IsS64 last) (hwords : ∀ run ∈ before, IsS64 run.lcn)
    (hhead : IsS64 head.lcn) (hlcn : head.lcn ≠ lcnRlNotMapped) (hlen : 0 < head.length)
    (hend : IsS64 (head.vcn + head.length)) (hnext : head.vcn ≤ next.vcn) :
    SameWalk (splice before (head :: next :: rest)) (before ++ head :: next :: rest) := by
  rcases eq_nil_or_concat before with rfl | ⟨front, final, rfl⟩
  · exact SameWalk.refl _
  · rw [concat_eq_append] at *
    rw [splice, grown_concat_cons, meets_concat_cons]
    by_cases hmrg : ntfsAreRlMergeable final head = true
    · obtain ⟨hlow, hpos, hhigh⟩ := hbef.mem (show final ∈ front ++ [final] by simp)
      have hadj := endVcn_of_mergeable hmrg hlcn
      rw [endVcn_eq_of_chain hbef le_rfl hlast (by simp)] at hadj
      rw [if_pos hmrg, hmrg, Bool.toNat_true, drop_succ_cons, append_assoc, append_assoc]
      exact sameWalk_merge front rest hmrg hadj.symm hlow hpos hlen hend
        (hwords final (by simp)) hhead hnext
    · rw [if_neg hmrg, Bool.not_eq_true _ |>.mp hmrg, Bool.toNat_false]
      exact SameWalk.refl _

/-! ### The list of a merge, with nothing joined -/

/-- The insertion point is a run of the destination, with further runs behind it. -/
structure Inside {dst : Runlist} {vcn : ℤ} (spot : Spot dst vcn) (more : List RunlistElement) :
    Prop where
  rest_eq : spot.rest = more ++ [dst.last]
  runs_eq : dst.runs = spot.before ++ spot.run :: more
  length_pos : 0 < spot.run.length
  lt_end : vcn < spot.run.vcn + spot.run.length
  chain_more : Chain (spot.run.vcn + spot.run.length) more dst.last.vcn

theorem last_or_inside {dst : Runlist} (spot : Spot dst vcn) :
    (spot.rest = [] ∧ spot.run = dst.last ∧ spot.before = dst.runs) ∨ ∃ more, Inside spot more :=
  spot.stop.imp id fun ⟨more, hrest, hruns, hlen, hlt, hmore⟩ =>
    ⟨more, hrest, hruns, hlen, hlt, hmore⟩

/-- What precedes the inserted runs: the runs in front of the insertion point and what is left there
of the run they are inserted into. A merge that takes such a run for the end of the file puts an
unmapped run in its place. -/
def placedFront {dst : Runlist} (src : Source) (spot : Spot dst src.start) : List RunlistElement :=
  spot.before ++ filler (if spot.run.lcn < lcnRlNotMapped then lcnRlNotMapped else spot.run.lcn)
    spot.run.vcn src.start

/-- The element behind inserted runs that do not finish the run they are inserted into. -/
def placedAfter (src : Source) (run : RunlistElement) : RunlistElement :=
  if src.starts run = true ∧ isGap run = false then { run with vcn := stopOf src }
  else ⟨stopOf src, run.lcn, s64 (run.vcn + run.length - stopOf src)⟩

def placedTail {dst : Runlist} (src : Source) (spot : Spot dst src.start) : List RunlistElement :=
  if src.finishes spot.run = true then fixMarker (stopOf src) spot.rest
  else placedAfter src spot.run :: spot.rest

def placedRuns {dst : Runlist} (src : Source) (spot : Spot dst src.start) : List RunlistElement :=
  placedFront src spot ++ (src.mapped ++ placedTail src spot)

theorem exists_append_cons (hruns : runs ≠ []) (next : RunlistElement)
    (rest : List RunlistElement) : ∃ second others,
      runs ++ next :: rest = runs.head hruns :: second :: others ∧
      (second ∈ runs ∨ second = next) := by
  match runs with
  | [run] => exact ⟨next, rest, rfl, .inr rfl⟩
  | run :: second :: others => exact ⟨second, others ++ next :: rest, rfl, .inl (by simp)⟩

section

variable {dst : Runlist} {src : Source} (spot : Spot dst src.start) {more : List RunlistElement}
  (hinside : Inside spot more)
include hinside

/-- The inserted runs stay apart from what follows them, or the last of them is joined with the run
of the destination that starts where they end. -/
theorem spliceTail_cases :
    spliceTail src.mapped spot.rest = src.mapped ++ fixMarker (stopOf src) spot.rest ∨
      ∃ runs final next second others, src.mapped = runs ++ [final] ∧
        spot.rest = next :: second :: others ∧ next ∈ more ∧
        ntfsAreRlMergeable final next = true ∧ next.vcn = final.vcn + final.length ∧
        second.vcn = next.vcn + next.length ∧ IsS64 second.vcn ∧
        fixMarker (stopOf src) spot.rest = spot.rest ∧
        spliceTail src.mapped spot.rest = runs ++ ntfsRlMerge final next :: second :: others := by
  obtain ⟨hrest, hruns, -, -, hmore⟩ := hinside
  obtain ⟨runs, final, hmap⟩ := exists_concat src.mapped_ne_nil
  have hmem : final ∈ src.mapped := by simp [hmap]
  by_cases hmt : meets src.mapped spot.rest = true
  · right
    cases more with
    | nil =>
      rw [hrest, nil_append, meets_terminator src.final_mapped dst.last_lcn] at hmt
      exact absurd hmt (by decide)
    | cons next others =>
      obtain ⟨second, others', hoths⟩ : ∃ second others',
          others ++ [dst.last] = second :: others' :=
        exists_cons_of_ne_nil (by simp)
      have hrest' : spot.rest = next :: second :: others' := by rw [hrest, cons_append, hoths]
      rw [hrest', hmap, meets_concat_cons] at hmt
      have hnext : next.lcn ≠ lcnRlNotMapped := by
        have hfin : lcnHole ≤ final.lcn := src.final_mapped final (by simp [hmap])
        have hcs := mergeable_cases hmt
        unfold lcnHole lcnRlNotMapped at *
        omega
      have hnextMem : next ∈ dst.runs := by simp [hruns]
      have hadj := endVcn_of_mergeable hmt hnext
      have hend : endVcn final = stopOf src := by rw [stopOf, hmap, endOf_concat]
      rw [src.endVcn_eq (mem_append_left _ hmem)] at hadj
      obtain ⟨hvcn, hpos, hothersChain⟩ := hmore
      have hsec : second.vcn = next.vcn + next.length := by
        have hst := startOf_concat_of_chain hothersChain
        rw [hoths, startOf_cons] at hst
        rw [hst, hvcn]
      have hnextEnd := endVcn_eq_of_chain dst.chain le_rfl dst.last_vcn_isS64 hnextMem
      have hfix : fixMarker (stopOf src) spot.rest = spot.rest := by
        refine fixMarker_eq_self ?_
        rw [hrest', ← hend, src.endVcn_eq (mem_append_left _ hmem), hadj]
        simp
      refine ⟨runs, final, next, second, others', hmap, hrest', by simp, hmt, hadj.symm, hsec,
        ?_, hfix, ?_⟩
      · obtain ⟨hlow, -, hhigh⟩ := dst.chain.mem hnextMem
        have hlast := dst.last_vcn_isS64
        unfold IsS64 at *
        omega
      · rw [spliceTail, hrest', hmap, grown_concat_cons, meets_concat_cons, if_pos hmt, hmt,
          Bool.toNat_true, drop_succ_cons, endOf_concat,
          endVcn_ntfsRlMerge hmt hnext, hnextEnd, ← hsec, fixMarker_eq_self (by simp)]
        simp
  · left
    have hnot := Bool.not_eq_true _ |>.mp hmt
    have hgrown : grown src.mapped spot.rest = src.mapped := by
      cases hrest' : spot.rest with
      | nil => exact grown_nil_right _
      | cons next others =>
        rw [hrest', hmap, meets_concat_cons] at hmt
        rw [hmap, grown_concat_cons, if_neg hmt]
    rw [spliceTail, hgrown, hnot, Bool.toNat_false]
    rfl

theorem sameWalk_spliceTail (front : List RunlistElement) :
    SameWalk (front ++ spliceTail src.mapped spot.rest)
      (front ++ (src.mapped ++ fixMarker (stopOf src) spot.rest)) := by
  rcases spliceTail_cases spot hinside with happa |
    ⟨runs, final, next, second, others, hmap, hrest', hnextMem, hmrg, hadj, hsec, hend, hfix, hjoin⟩
  · rw [happa]
    exact SameWalk.refl _
  · obtain ⟨-, hruns, -, -, hmore⟩ := hinside
    have hfinalMem : final ∈ src.mapped := by simp [hmap]
    obtain ⟨hlow, hpos, -⟩ := (chain_stopOf src).1.mem hfinalMem
    have hnextPos := (hmore.mem hnextMem).2.1
    have hst := src.start_nonneg
    have hwalk := sameWalk_merge (front ++ runs) others hmrg hadj (by omega) hpos
      hnextPos (hsec ▸ hend) (src.lcn_isS64 final hfinalMem)
      (dst.lcn_isS64 next (by simp [hruns, hnextMem])) (show next.vcn ≤ second.vcn by omega)
    rw [hjoin, hfix, hrest', hmap]
    simpa using hwalk

theorem run_bounds : 0 ≤ spot.run.vcn ∧ spot.run.vcn ≤ src.start ∧ IsS64 spot.run.vcn ∧
    IsS64 (spot.run.vcn + spot.run.length) ∧
    endVcn spot.run = spot.run.vcn + spot.run.length ∧
    startOf spot.rest = spot.run.vcn + spot.run.length := by
  obtain ⟨hrest, hruns, hlen, -, hmore⟩ := hinside
  have horig := spot.chain_before.le
  have hle := hmore.le
  have hlast := dst.last_vcn_isS64
  unfold IsS64 at *
  refine ⟨horig, spot.run_vcn_le, by omega, by omega,
    endVcn_eq_of_chain dst.chain le_rfl dst.last_vcn_isS64 (by simp [hruns]), ?_⟩
  rw [hrest]
  exact startOf_concat_of_chain hmore

theorem exists_spliceTail_cons : ∃ head next others,
    spliceTail src.mapped spot.rest = head :: next :: others ∧ head.vcn = src.start ∧
      head.lcn = src.first.lcn ∧ 0 < head.length ∧ IsS64 (head.vcn + head.length) ∧
      src.start ≤ next.vcn := by
  obtain ⟨-, -, -, hword, -, hst⟩ := run_bounds spot hinside
  obtain ⟨hch, -⟩ := chain_stopOf src
  obtain ⟨hstop, -, hstopWord⟩ := stopOf_bounds src
  have horig := src.start_nonneg
  obtain ⟨-, -, hfirstLe, hfirstWord⟩ := first_bounds src
  rcases spliceTail_cases spot hinside with happa |
    ⟨runs, final, next, second, others, hmap, hrest', hnextMem, hmrg, hadj, hsec, hend, -, hjoin⟩
  · obtain ⟨marker, rest, hmrk⟩ := exists_cons_of_ne_nil
      (show spot.rest ≠ [] by simp [hinside.rest_eq])
    obtain ⟨fixed, hfixed, hvcn⟩ : ∃ fixed, fixMarker (stopOf src) spot.rest = fixed :: rest ∧
        src.start ≤ fixed.vcn := by
      have hlt := hinside.lt_end
      rw [hmrk, startOf_cons] at hst
      rw [hmrk, fixMarker]
      split_ifs
      · exact ⟨_, rfl, hstop.le⟩
      · exact ⟨_, rfl, by omega⟩
    obtain ⟨second, others, hlist, hsec⟩ := exists_append_cons src.mapped_ne_nil fixed rest
    refine ⟨src.first, second, others, ?_, rfl, rfl, hfirstLe, hfirstWord, ?_⟩
    · rw [happa, hfixed, hlist]
      rfl
    · rcases hsec with hmem | rfl
      · exact (hch.mem hmem).1
      · exact hvcn
  · have hnextPos := (hinside.chain_more.mem hnextMem).2.1
    have hfin := hch.mem (show final ∈ src.mapped by simp [hmap])
    cases runs with
    | nil =>
      have hfst : src.first = final := by simp [Source.first, hmap]
      have hsum : (ntfsRlMerge final next).length = final.length + next.length := by
        unfold IsS64 at hend
        exact s64_of_isS64 ⟨by omega, by omega⟩
      refine ⟨ntfsRlMerge final next, second, others, hjoin, ?_, ?_, by omega, ?_, by omega⟩
      · rw [Source.start, hfst]
        rfl
      · rw [hfst]
        rfl
      · have hvcn : (ntfsRlMerge final next).vcn = final.vcn := rfl
        unfold IsS64 at *
        omega
    | cons run runs =>
      have hfst : src.first = run := by simp [Source.first, hmap]
      obtain ⟨second', others', hlist, hsec'⟩ := exists_append_cons (cons_ne_nil run runs)
        (ntfsRlMerge final next) (second :: others)
      refine ⟨run, second', others', hjoin.trans hlist, ?_, ?_, ?_, ?_, ?_⟩
      · exact congrArg RunlistElement.vcn hfst.symm
      · exact congrArg RunlistElement.lcn hfst.symm
      · exact hfst ▸ hfirstLe
      · exact hfst ▸ hfirstWord
      · rcases hsec' with hmem | rfl
        · exact (hch.mem (by rw [hmap]; exact mem_append_left _ hmem)).1
        · exact hfin.1

theorem sameWalk_insertRuns (hst : src.starts spot.run = true) :
    SameWalk (insertRuns spot.before spot.run src.mapped spot.rest)
      (placedFront src spot ++ (src.mapped ++ placedAfter src spot.run :: spot.rest)) := by
  obtain ⟨horig, hle, hvcnWord, -, -, hrestStart⟩ := run_bounds spot hinside
  obtain ⟨hfirstWord, hfirstLcn, hfirstLe, hfirstEnd⟩ := first_bounds src
  have hbeforeEnd : endOf spot.before = spot.run.vcn :=
    endOf_eq_of_chain' spot.chain_before hvcnWord
  have haft : (if isGap spot.run = true then partAfter spot.run src.mapped spot.rest
      else { spot.run with vcn := endOf src.mapped }) = placedAfter src spot.run := by
    rw [placedAfter, hst, partAfter, hrestStart]
    cases hgap : isGap spot.run <;> rfl
  rw [insertRuns, haft]
  by_cases hfst : spot.run.vcn = src.start
  · have hnoGap : leavesGap spot.before src.mapped = false := by
      rw [leavesGap, src.startOf_mapped, decide_eq_false (by omega), Bool.and_false]
    have hfr : placedFront src spot = spot.before := by
      rw [placedFront, filler, if_pos hfst, append_nil]
    obtain ⟨second, others, hlist, hsec⟩ := exists_append_cons src.mapped_ne_nil
      (placedAfter src spot.run) spot.rest
    have hnext : src.start ≤ second.vcn := by
      rcases hsec with hmem | rfl
      · exact ((chain_stopOf src).1.mem hmem).1
      · have hstop := (stopOf_bounds src).1
        unfold placedAfter
        split_ifs <;> exact hstop.le
    simp only [hnoGap]
    rw [hfr, ← splice_append src.mapped_ne_nil, hlist]
    exact sameWalk_splice spot.chain_before hvcnWord
      (fun run hrun => dst.lcn_isS64 run (spot.mem_runs hrun)) hfirstWord hfirstLcn hfirstLe
      hfirstEnd hnext
  · have hlcn := (of_decide_eq_true hst).resolve_right hfst
    have hhead : ∀ run ∈ src.mapped.head?, run.lcn ≠ lcnRlNotMapped := by
      rw [src.cons_tail]
      rintro run ⟨⟩
      exact hfirstLcn
    have hap : meets spot.before src.mapped = false :=
      meets_eq_false_of_apart (by rwa [hbeforeEnd, src.startOf_mapped]) hhead
    have hgap : leavesGap spot.before src.mapped = true := by
      rw [leavesGap, hap, src.startOf_mapped, decide_eq_true (by omega)]
      rfl
    have hlen : s64 (src.start - spot.run.vcn) = src.start - spot.run.vcn := by
      have hstartWord := src.start_isS64
      unfold IsS64 at *
      exact s64_of_isS64 ⟨by omega, by omega⟩
    simp only [hgap]
    rw [hbeforeEnd, src.startOf_mapped, hlen, placedFront, filler, if_pos hlcn, if_neg hfst,
      ← append_cons]
    exact SameWalk.refl _

theorem sameWalk_mergedRuns : SameWalk (mergedRuns src spot) (placedRuns src spot) := by
  obtain ⟨horig, hle, hvcnWord, -, -, hrestStart⟩ := run_bounds spot hinside
  rw [mergedRuns, src.inserted_eq hinside.length_pos.ne', placedRuns, placedTail]
  cases hst : src.starts spot.run with
  | true =>
    cases hfin : src.finishes spot.run with
    | true =>
      have hlcn : lcnRlNotMapped ≤ spot.run.lcn :=
        (of_decide_eq_true (Bool.and_eq_true_iff.mp hfin).1).1
      have hfst := (of_decide_eq_true hst).resolve_left (not_lt.mpr hlcn)
      obtain ⟨hfirstWord, hfirstLcn, -⟩ := first_bounds src
      obtain ⟨head, next, others, hlist, hvcn, hheadLcn, hlen, hend, hnext⟩ :=
        exists_spliceTail_cons spot hinside
      have htail := sameWalk_spliceTail spot hinside spot.before
      rw [mergeRuns, replaceRuns, placedFront, filler, if_pos hfst, append_nil]
      rw [hlist] at htail ⊢
      exact (sameWalk_splice spot.chain_before hvcnWord
        (fun run hrun => dst.lcn_isS64 run (spot.mem_runs hrun)) (hheadLcn ▸ hfirstWord)
        (hheadLcn ▸ hfirstLcn) hlen hend (hvcn ▸ hnext)).trans htail
    | false =>
      exact sameWalk_insertRuns spot hinside hst
  | false =>
    have hstart := of_decide_eq_false hst
    rw [not_or] at hstart
    have hpart : partBefore spot.run src.mapped =
        ⟨spot.run.vcn, spot.run.lcn, src.start - spot.run.vcn⟩ := by
      have hstartWord := src.start_isS64
      unfold IsS64 at *
      rw [partBefore, src.startOf_mapped, s64_of_isS64 ⟨by omega, by omega⟩]
    rw [placedFront, filler, if_neg hstart.1, if_neg hstart.2]
    cases hfin : src.finishes spot.run with
    | true =>
      have hwalk := sameWalk_spliceTail spot hinside (spot.before ++
        [⟨spot.run.vcn, spot.run.lcn, src.start - spot.run.vcn⟩])
      rw [mergeRuns, appendRuns, hpart]
      simpa using hwalk
    | false =>
      have haft : placedAfter src spot.run = partAfter spot.run src.mapped spot.rest := by
        rw [placedAfter, hst, partAfter, hrestStart]
        rfl
      simp only [mergeRuns, splitRuns, haft, hpart, ← append_cons]
      exact SameWalk.refl _

end

end AdvancedOs.Ntfs.RunlistWalks
