import AdvancedOs.Ntfs.RunlistWalks

/-!
# What a merge does to clusters that are mapped already

`ntfs_runlists_merge` looks for an overlap of the two runlists in one place only: at the first run
of the source that has a mapping, and only when a run of the destination starts there too.
Everything else is merged as if there were no overlap.

`mergeBlocks_inside` says which clusters the result has when the source goes into a run of the
destination, whatever the two runlists contain, and `mergeBlocks_behind` when it goes behind the
end. From these `mergesSafely_iff` reads off when a merge keeps every cluster the destination had
mapped and reports every overlap.
-/

namespace AdvancedOs.Ntfs.RunlistRemapping

open Foundation.ArraySegments Foundation.SignedWords List Option
open RunlistElements RunlistMergeRoutines RunlistMerge RunlistCoalescing RunlistMergeMap
open RunlistEndMarker RunlistWalks

def lastStart (src : Source) : ℤ := (src.mapped.getLast src.mapped_ne_nil).vcn

/-! ### Merging into a run -/

variable {srl drl : RlArray} {more : List RunlistElement}

section

variable {dst : Runlist} {src : Source} (spot : Spot dst src.start) {more : List RunlistElement}
  (hinside : Inside spot more)
variable {drl : RlArray} {vcn lcn : ℤ}
include hinside

theorem le_length_mergedRuns
    (hflags : ¬ (src.starts spot.run = true ∧ src.finishes spot.run = true)) :
    dst.elements.length ≤ (mergedRuns src spot).length := by
  have hpos := length_pos_iff.mpr src.mapped_ne_nil
  rw [mergedRuns, src.inserted_eq hinside.length_pos.ne', spot.elements_eq]
  cases hst : src.starts spot.run with
  | true =>
    cases hfin : src.finishes spot.run with
    | true => exact absurd ⟨hst, hfin⟩ hflags
    | false =>
      have hbit : (meets spot.before src.mapped).toNat ≤ 1 := Bool.toNat_le _
      rw [mergeRuns, length_insertRuns]
      omega
  | false =>
    cases hfin : src.finishes spot.run with
    | true =>
      have hbit : (meets src.mapped spot.rest).toNat ≤ 1 := Bool.toNat_le _
      rw [mergeRuns, appendRuns, spliceTail]
      simp only [length_append, length_cons, length_grown, length_fixMarker, length_drop]
      omega
    | false =>
      rw [mergeRuns, splitRuns]
      simp only [length_append, length_cons]
      omega

omit hinside in
theorem startOf_placedRuns : startOf (placedRuns src spot) = 0 := by
  have hbefore := spot.chain_before
  rw [placedRuns, placedFront]
  cases hfr : spot.before with
  | cons run runs =>
    rw [hfr] at hbefore
    exact hbefore.1
  | nil =>
    rw [hfr] at hbefore
    rw [nil_append, filler]
    split_ifs with hst hlcn
    · rw [nil_append, startOf_append src.mapped_ne_nil, src.startOf_mapped, ← hst, hbefore]
    · exact hbefore.symm
    · exact hbefore.symm

theorem getLast?_placedRuns : ∃ last ∈ (placedRuns src spot).getLast?, last.length = 0 := by
  have hlast : ∃ last ∈ (placedTail src spot).getLast?, last.length = 0 := by
    unfold placedTail
    rw [hinside.rest_eq]
    split_ifs
    · cases more with
      | nil =>
        rw [nil_append, fixMarker]
        split_ifs
        · exact ⟨_, rfl, dst.last_length⟩
        · exact ⟨_, rfl, dst.last_length⟩
      | cons next others =>
        rw [cons_append, fixMarker]
        split_ifs
        · exact ⟨dst.last, by simp [List.getLast?_cons], dst.last_length⟩
        · exact ⟨dst.last, by simp [List.getLast?_cons], dst.last_length⟩
    · exact ⟨dst.last, by simp [List.getLast?_cons], dst.last_length⟩
  obtain ⟨last, hmem, hlen⟩ := hlast
  refine ⟨last, ?_, hlen⟩
  rw [placedRuns, List.getLast?_append, List.getLast?_append, mem_def.mp hmem]
  simp

theorem placedAfter_zero_iff : (placedAfter src spot.run).length = 0 ↔
    ¬ (src.starts spot.run = true ∧ isGap spot.run = false) ∧ lcnRlNotMapped ≤ spot.run.lcn ∧
      stopOf src = spot.run.vcn + spot.run.length := by
  obtain ⟨horig, hle, -, hword, -, -⟩ := run_bounds spot hinside
  obtain ⟨hstop, -, hstopWord⟩ := stopOf_bounds src
  have hlen := hinside.length_pos
  by_cases hkeeps : src.starts spot.run = true ∧ isGap spot.run = false
  · rw [placedAfter, if_pos hkeeps]
    exact iff_of_false hlen.ne' fun h => h.1 hkeeps
  · have hlcn : lcnRlNotMapped ≤ spot.run.lcn := by
      by_contra hlt
      refine hkeeps ⟨decide_eq_true (.inl (not_le.mp hlt)), decide_eq_false ?_⟩
      unfold lcnHole lcnRlNotMapped at *
      omega
    unfold IsS64 at *
    rw [placedAfter, if_neg hkeeps, s64_of_isS64 ⟨by omega, by omega⟩, and_iff_right hkeeps]
    simp only
    omega

theorem placedAfter_zero (hfin : src.finishes spot.run = false)
    (hzero : (placedAfter src spot.run).length = 0) : src.last.vcn ≤ stopOf src := by
  obtain ⟨-, -, -, -, hend, -⟩ := run_bounds spot hinside
  obtain ⟨-, hlast, -⟩ := stopOf_bounds src
  obtain ⟨-, hlcn, hfills⟩ := (placedAfter_zero_iff spot hinside).mp hzero
  have hrch : src.reaches spot.run = true :=
    decide_eq_true ⟨hlcn, by rw [hend, src.final_bounds.2.2.2]; omega⟩
  rw [Source.finishes, hrch, Bool.true_and, Bool.not_eq_false', decide_eq_true_iff, hend] at hfin
  -- The last run of the source starts before its mapped part ends, so it belongs to that part.
  obtain ⟨-, htrail⟩ := chain_stopOf src
  by_cases hnil : src.trail = []
  · rw [hnil] at htrail
    exact htrail.ge
  · have hmem : src.final ∈ src.trail := by
      rw [Source.final, getLast_append_of_ne_nil _ hnil]
      exact getLast_mem _
    have hbd := htrail.mem hmem
    omega

theorem zero_of_placedRuns {run : RunlistElement} (hrun : run ∈ placedRuns src spot)
    (hzero : run.length = 0) : src.last.vcn ≤ run.vcn ∨ run.lcn = lcnEnoent ∨
      run.lcn = lcnRlNotMapped := by
  have hrest : ∀ other ∈ spot.rest, other.length = 0 → other.lcn = lcnEnoent ∨
      other.lcn = lcnRlNotMapped := by
    intro other hoth hnone
    rw [hinside.rest_eq] at hoth
    rcases mem_append.mp hoth with hmem | hmem
    · exact absurd hnone (hinside.chain_more.mem hmem).2.1.ne'
    · rw [mem_singleton.mp hmem]
      exact dst.last_lcn
  rw [placedRuns, placedFront, mem_append, mem_append, mem_append] at hrun
  rcases hrun with (hmem | hmem) | hmem | hmem
  · exact absurd hzero (spot.chain_before.mem hmem).2.1.ne'
  · exact absurd hzero ((chain_filler _ spot.run_vcn_le).mem hmem).2.1.ne'
  · exact absurd hzero ((chain_stopOf src).1.mem hmem).2.1.ne'
  · unfold placedTail at hmem
    split_ifs at hmem with hfin
    · cases hcs : spot.rest with
      | nil =>
        rw [hcs] at hmem
        exact absurd hmem (by simp [fixMarker])
      | cons marker rest =>
        rw [hcs] at hmem hrest
        rw [fixMarker] at hmem
        split_ifs at hmem with hlcn
        · rcases mem_cons.mp hmem with rfl | htail
          · exact .inr (.inl hlcn)
          · exact .inr (hrest run (mem_cons_of_mem _ htail) hzero)
        · exact .inr (hrest run hmem hzero)
    · rcases mem_cons.mp hmem with rfl | htail
      · left
        have hend := placedAfter_zero spot hinside (Bool.not_eq_true _ |>.mp hfin) hzero
        unfold placedAfter
        split_ifs <;> exact hend
      · exact .inr (hrest run htail hzero)

theorem holds_mergedRuns {block : RlArray} (hdrl : drl.Holds dst.elements)
    (hblk : block.Holds (mergedRuns src spot))
    (hfrm : src.starts spot.run = true → src.finishes spot.run = true →
      pageAlign (dst.elements.length * elementSize) ≤ block.bytes ∧ ∀ i,
    (mergedRuns src spot).length ≤ i → i < dst.elements.length → block.elem i = drl.elem i) :
    block.Holds (mergedRuns src spot ++ dst.elements.drop (mergedRuns src spot).length) := by
  by_cases hlong : dst.elements.length ≤ (mergedRuns src spot).length
  · rwa [drop_eq_nil_of_le hlong, append_nil]
  · have hflags : src.starts spot.run = true ∧ src.finishes spot.run = true :=
      not_not.mp fun hnot => hlong (le_length_mergedRuns spot hinside hnot)
    obtain ⟨hroom, hold⟩ := hfrm hflags.1 hflags.2
    have hspl := (segment_append drl.elem 0 (dst.elements.take (mergedRuns src spot).length)
      (dst.elements.drop (mergedRuns src spot).length)).mp (by
        rw [take_append_drop]
        exact hdrl.2)
    rw [length_take_of_le (by omega)] at hspl
    refine ⟨?_, (segment_append _ _ _ _).mpr ⟨hblk.2, hspl.2.transfer fun i hi => ?_⟩⟩
    · rwa [length_append, length_drop, Nat.add_sub_of_le (by omega)]
    · rw [length_drop] at hi
      exact hold _ (by omega) (by omega)

theorem ends_mergedRuns :
    (∃ last ∈ (mergedRuns src spot ++ dst.elements.drop (mergedRuns src spot).length).getLast?,
      last.length = 0) ∧
    ∀ run ∈ mergedRuns src spot ++ dst.elements.drop (mergedRuns src spot).length, run.length = 0 →
        src.last.vcn ≤ run.vcn ∨ run.lcn = lcnEnoent ∨ run.lcn = lcnRlNotMapped := by
  have hwalk := sameWalk_mergedRuns spot hinside
  obtain ⟨last, hlast, hlastLength⟩ := getLast?_placedRuns spot hinside
  rw [← hwalk.getLast?_eq] at hlast
  constructor
  · rw [List.getLast?_append, List.getLast?_drop]
    split_ifs
    · exact ⟨last, by simpa using hlast, hlastLength⟩
    · exact ⟨dst.last, by simp [Runlist.elements], dst.last_length⟩
  · intro run hrun hnone
    rcases mem_append.mp hrun with hmem | hmem
    · exact zero_of_placedRuns spot hinside (hwalk.zero_mem run hmem hnone) hnone
    · rcases mem_append.mp (mem_of_mem_drop hmem) with hold | hold
      · exact absurd hnone (dst.chain.mem hold).2.1.ne'
      · rw [mem_singleton.mp hold]
        exact .inr dst.last_lcn

/-- Assumes: two runlists in memory without the overlap the code looks for, the source going into a
run of the destination. The merge fails for want of memory and touches nothing, or returns a runlist
with the clusters of the list in which nothing is joined. -/
theorem mergeBlocks_inside (allocator : Allocator) (hdrl : drl.Holds dst.elements)
    (hsrl : srl.Holds src.elements) (hovl : ¬ src.Overlaps spot.run) :
    (mergeBlocks allocator drl srl).RunsShort allocator drl srl ∨
      ∃ block, mergeBlocks allocator drl srl = .done block ∧
        ∀ vcn, 0 ≤ vcn → IsS64 vcn → clusterAt block vcn = clusterIn (placedRuns src spot) vcn := by
  have hroom : ¬ Overruns drl src spot := not_overruns spot hdrl fun h => by
    have hend := hinside.chain_more.le
    have hlt := hinside.lt_end
    have hbeh := h.1.2
    omega
  have hwalk := sameWalk_mergedRuns spot hinside
  have hst : startOf (mergedRuns src spot) = 0 := hwalk.startOf_eq.trans (startOf_placedRuns spot)
  obtain ⟨last, hlast, hlastLength⟩ := getLast?_placedRuns spot hinside
  rw [← hwalk.getLast?_eq] at hlast
  have hzero : ∃ run ∈ mergedRuns src spot, run.length = 0 :=
    ⟨last, mem_of_getLast? hlast, hlastLength⟩
  have hclus : ∀ vcn, IsS64 vcn → clusterIn (mergedRuns src spot) vcn =
      clusterIn (placedRuns src spot) vcn := fun vcn hword => by
    rw [clusterIn, clusterIn, hwalk.loop_eq vcn hword]
  rw [mergeBlocks_eq allocator spot hdrl hsrl, if_neg hovl]
  rcases mergeRoutine_spec allocator spot hdrl hsrl with
    ⟨hfail, hmemo⟩ | ⟨hovr, -⟩ | ⟨-, block, hdone, hblk, -, hfrm⟩
  · rw [hfail]
    exact .inl ⟨rfl, hmemo⟩
  · exact absurd hovr hroom
  · right
    rw [hdone, afterRoutine]
    by_cases hmrk : src.last.lcn = lcnEnoent
    · rw [if_pos hmrk]
      have hh := holds_mergedRuns spot hinside hdrl hblk hfrm
      have hdend : 0 < dst.elements.length - 1 := by
        have hpos := length_pos_iff.mpr dst.runs_ne_nil
        rw [dst.length_elements]
        omega
      have hbeh : dst.elements.length - 1 < (mergedRuns src spot ++
          dst.elements.drop (mergedRuns src spot).length).length := by
        rw [length_append, length_drop]
        omega
      have hst' : startOf (mergedRuns src spot ++ dst.elements.drop (mergedRuns src spot).length) =
          0 := by
        rw [startOf_append fun hnil => by simp [hnil] at hzero, hst]
      obtain ⟨hlast', hzeros⟩ := ends_mergedRuns spot hinside
      obtain ⟨marked, hfixed, hmark⟩ := fixEndMarker_clusters allocator srl hh hdend hbeh
        hst' hlast' hzeros
      refine ⟨marked, hfixed, fun vcn hvcn hword => ?_⟩
      rw [hmark vcn hvcn, clusterIn_append hzero, hclus vcn hword]
    · rw [if_neg hmrk]
      refine ⟨block, rfl, fun vcn hvcn hword => ?_⟩
      rw [clusterAt_eq hblk hst hzero hvcn, hclus vcn hword]

/-! ### The clusters of the merged list -/

omit hinside in
theorem chain_placedFront : Chain 0 (placedFront src spot) src.start :=
  (chain_append _ _ _ _).mpr ⟨_, spot.chain_before, chain_filler _ spot.run_vcn_le⟩

omit hinside in
theorem vcnToLcnLoop_placedRuns (hle : src.start ≤ vcn) :
    vcnToLcnLoop (placedRuns src spot) vcn =
      vcnToLcnLoop (src.mapped ++ placedTail src spot) vcn := by
  have hch : Chain 0 (placedFront src spot) src.first.vcn := chain_placedFront spot
  have hwalk := hch.vcnToLcnLoop_append (src.mapped.tail ++ placedTail src spot)
    (src.start_nonneg.trans hle)
  rw [hch.lcnIn_eq_none (.inr hle)] at hwalk
  rw [placedRuns, src.cons_tail]
  exact hwalk

omit hinside in
theorem clusterIn_elements (hvcn : 0 ≤ vcn) :
    clusterIn dst.elements vcn = toCluster (lcnIn dst.runs vcn) := by
  have hlast := dst.last_lcn_neg
  rw [clusterIn, Runlist.elements, dst.chain.vcnToLcnLoop_append [] hvcn,
    vcnToLcnLoop_terminator [] dst.last_length hlast]
  cases lcnIn dst.runs vcn with
  | none => exact toCluster_of_neg hlast
  | some lcn => rfl

theorem clusterIn_elements_run (hcov : spot.run.Covers vcn) :
    clusterIn dst.elements vcn = toCluster (some (spot.run.lcnAt vcn)) := by
  have horig := spot.chain_before.le
  rw [clusterIn_elements (by unfold RunlistElement.Covers at hcov; omega), hinside.runs_eq,
    lcnIn_append, spot.chain_before.lcnIn_eq_none (.inr hcov.1), none_or, lcnIn_cons,
    if_pos hcov]

theorem clusterIn_start_ne_none (hvcn : spot.run.vcn = src.start) (hmap : 0 ≤ spot.run.lcn) :
    clusterIn dst.elements src.start ≠ none := by
  have hword := dst.lcn_isS64 spot.run (by simp [hinside.runs_eq])
  have hself := (congrArg spot.run.lcnAt hvcn.symm).trans (RunlistElement.lcnAt_self hword)
  rw [clusterIn_elements_run spot hinside ⟨hvcn.le, hinside.lt_end⟩, hself,
    toCluster_eq_some.mpr ⟨rfl, hmap⟩]
  exact some_ne_none _

theorem clusterIn_placedRuns_of_lt (hvcn : 0 ≤ vcn) (hlt : vcn < src.start) :
    clusterIn (placedRuns src spot) vcn = clusterIn dst.elements vcn := by
  have hch : Chain 0 (placedFront src spot) src.first.vcn := chain_placedFront spot
  have hwalk := hch.vcnToLcnLoop_append (src.mapped.tail ++ placedTail src spot) hvcn
  obtain ⟨_, run, _, -, -, hsome⟩ := hch.exists_covers hvcn hlt
  have hplaced : clusterIn (placedRuns src spot) vcn =
      toCluster (lcnIn (placedFront src spot) vcn) := by
    rw [placedRuns, src.cons_tail]
    rw [hsome, some_or] at hwalk
    rw [hsome, ← hwalk]
    rfl
  rw [hplaced, placedFront, lcnIn_append]
  by_cases hbefore : vcn < spot.run.vcn
  · obtain ⟨_, run, _, -, -, hfnd⟩ := spot.chain_before.exists_covers hvcn hbefore
    rw [clusterIn_elements hvcn, hinside.runs_eq, lcnIn_append, hfnd, some_or, some_or]
  · have hend := hinside.lt_end
    rw [clusterIn_elements_run spot hinside ⟨by omega, by omega⟩,
      spot.chain_before.lcnIn_eq_none (by omega), filler, if_neg (by omega),
      lcnIn_cons, if_pos ⟨by simp only; omega, by simp only; omega⟩]
    split_ifs with hlcn
    · -- The run taken for the end of the file had no clusters either.
      have hneg : spot.run.lcn < 0 := hlcn.trans (by decide)
      have hunm : lcnRlNotMapped < 0 := by decide
      rw [spot.run.lcnAt_of_neg hneg, toCluster_of_neg hneg]
      exact toCluster_of_neg hunm
    · rfl

theorem vcnToLcnLoop_elements (hle : spot.run.vcn + spot.run.length ≤ vcn) :
    vcnToLcnLoop dst.elements vcn = vcnToLcnLoop spot.rest vcn := by
  obtain ⟨next, rest, hnext⟩ := exists_cons_of_ne_nil
    (show spot.rest ≠ [] by simp [hinside.rest_eq])
  obtain ⟨horig, -, -, -, -, hst⟩ := run_bounds spot hinside
  have hlen := hinside.length_pos
  rw [hnext, startOf_cons] at hst
  have hch : Chain 0 (spot.before ++ [spot.run]) next.vcn :=
    (chain_append _ _ _ _).mpr ⟨_, spot.chain_before, rfl, hlen, hst.symm⟩
  have hwalk := hch.vcnToLcnLoop_append rest (show 0 ≤ vcn by omega)
  rw [hch.lcnIn_eq_none (by omega), none_or] at hwalk
  rw [spot.elements_eq, hnext, ← hwalk]
  simp

omit hinside in
theorem vcnToLcnLoop_mapped (next : RunlistElement) (rest : List RunlistElement)
    (hle : src.start ≤ vcn) : vcnToLcnLoop (src.mapped ++ next :: rest) vcn =
      if vcn < lastStart src ∨ vcn < next.vcn ∧ vcn < stopOf src then lcnIn src.mapped vcn
      else if vcn < next.vcn then some ((src.mapped.getLast src.mapped_ne_nil).lcnAt vcn)
      else vcnToLcnLoop (next :: rest) vcn := by
  obtain ⟨runs, final, hmap⟩ := exists_concat src.mapped_ne_nil
  have hch := (chain_stopOf src).1
  rw [hmap, chain_append] at hch
  obtain ⟨middle, hruns, hvcn, hlen, hend⟩ := hch
  rw [← hvcn] at hruns hend
  rw [chain_nil] at hend
  have hlast : lastStart src = final.vcn := by simp [lastStart, hmap]
  have hfin : src.mapped.getLast src.mapped_ne_nil = final := by simp [hmap]
  have hwalk := hruns.vcnToLcnLoop_append (next :: rest) hle
  rw [hfin, hlast, hmap, ← append_cons, hwalk, lcnIn_append]
  by_cases hlow : vcn < final.vcn
  · obtain ⟨_, run, _, -, -, hsome⟩ := hruns.exists_covers hle hlow
    rw [if_pos (.inl hlow), hsome, some_or, some_or]
  · rw [hruns.lcnIn_eq_none (by omega), none_or, none_or, vcnToLcnLoop_step _ _ _ hlen.ne']
    by_cases hnext : vcn < next.vcn
    · rw [if_pos hnext]
      by_cases hin : vcn < stopOf src
      · rw [if_pos (.inr ⟨hnext, hin⟩), lcnIn_cons, if_pos ⟨by omega, by omega⟩]
      · rw [if_neg (by omega)]
    · rw [if_neg hnext, if_neg (by omega)]

/-! ### Displaced clusters -/

omit hinside in
/-- A lookup of the vcn, which lies behind the run at the insertion point, no longer reaches the
runs of the destination there: it stops in the inserted runs or at an empty element behind them. -/
def Displaced {dst : Runlist} (src : Source) (spot : Spot dst src.start) (vcn : ℤ) : Prop :=
  if src.finishes spot.run = true then
    vcn < lastStart src ∨ (vcn < stopOf src ∧ ∃ next ∈ spot.rest.head?, next.lcn = lcnEnoent)
  else vcn < stopOf src ∨
    (stopOf src = spot.run.vcn + spot.run.length ∧ lcnRlNotMapped ≤ spot.run.lcn)

omit hinside in
theorem lastStart_bounds (src : Source) : src.start ≤ lastStart src ∧
    lastStart src < stopOf src := by
  obtain ⟨hlow, hlen, hend⟩ := (chain_stopOf src).1.mem (getLast_mem src.mapped_ne_nil)
  exact ⟨hlow, lt_of_lt_of_le (lt_add_of_pos_right _ hlen) hend⟩

omit hinside in
theorem placedAfter_vcn (run : RunlistElement) : (placedAfter src run).vcn = stopOf src := by
  unfold placedAfter
  split_ifs <;> rfl

theorem placedAfter_length_eq_zero (hst : clusterIn dst.elements src.start = none) :
    (placedAfter src spot.run).length = 0 ↔
      stopOf src = spot.run.vcn + spot.run.length ∧ lcnRlNotMapped ≤ spot.run.lcn := by
  rw [placedAfter_zero_iff spot hinside]
  refine ⟨fun h => ⟨h.2.2, h.2.1⟩, fun h => ⟨fun hkeeps => ?_, h.2, h.1⟩⟩
  -- A run that starts with the source and is neither a hole nor unmapped has a cluster there.
  have hfst := (of_decide_eq_true hkeeps.1).resolve_left (not_lt.mpr h.2)
  have hgap := of_decide_eq_false hkeeps.2
  refine clusterIn_start_ne_none spot hinside hfst ?_ hst
  unfold lcnHole lcnRlNotMapped at *
  omega

theorem lcnIn_of_displaced (hst : clusterIn dst.elements src.start = none) (hle : src.start ≤ vcn)
    (hdisp : Displaced src spot vcn) (hclu : clusterIn (placedRuns src spot) vcn = some lcn) :
    lcnIn src.mapped vcn = some lcn := by
  obtain ⟨-, hlast⟩ := lastStart_bounds src
  rw [clusterIn, vcnToLcnLoop_placedRuns spot hle] at hclu
  unfold Displaced at hdisp
  unfold placedTail at hclu
  split_ifs at hdisp with hfin
  · obtain ⟨next, rest, hnext⟩ := exists_cons_of_ne_nil
      (show spot.rest ≠ [] by simp [hinside.rest_eq])
    rw [hnext, fixMarker] at hclu
    rw [hnext] at hdisp
    split_ifs at hclu with hlcn
    · rw [vcnToLcnLoop_mapped _ _ hle, if_pos ?_] at hclu
      · exact (toCluster_eq_some.mp hclu).1
      · exact hdisp.imp id fun h => ⟨h.1, h.1⟩
    · have hlow : vcn < lastStart src := hdisp.resolve_right fun h => hlcn (by simpa using h.2)
      rw [vcnToLcnLoop_mapped _ _ hle, if_pos (.inl hlow)] at hclu
      exact (toCluster_eq_some.mp hclu).1
  · rw [if_neg hfin, vcnToLcnLoop_mapped _ _ hle, placedAfter_vcn] at hclu
    by_cases hlow : vcn < stopOf src
    · rw [if_pos (.inr ⟨hlow, hlow⟩)] at hclu
      exact (toCluster_eq_some.mp hclu).1
    · have hzero := (placedAfter_length_eq_zero spot hinside hst).mpr (hdisp.resolve_left hlow)
      rw [if_neg (by omega), if_neg hlow] at hclu
      have hnone := clusterIn_terminator spot.rest vcn hzero
      exact absurd (hclu.symm.trans hnone) (by simp)

theorem clusterIn_of_not_displaced (hst : clusterIn dst.elements src.start = none)
    (hle : spot.run.vcn + spot.run.length ≤ vcn) (hkept : ¬ Displaced src spot vcn) :
    clusterIn (placedRuns src spot) vcn = clusterIn dst.elements vcn := by
  obtain ⟨-, -, -, -, -, hrestStart⟩ := run_bounds spot hinside
  have hlt := hinside.lt_end
  have hstartLe : src.start ≤ vcn := by omega
  obtain ⟨next, rest, hnext⟩ := exists_cons_of_ne_nil
    (show spot.rest ≠ [] by simp [hinside.rest_eq])
  rw [clusterIn, vcnToLcnLoop_placedRuns spot hstartLe, clusterIn,
    vcnToLcnLoop_elements spot hinside hle, placedTail]
  rw [hnext, startOf_cons] at hrestStart
  unfold Displaced at hkept
  split_ifs at hkept ⊢ with hfin
  · rw [not_or] at hkept
    rw [hnext, fixMarker]
    split_ifs with hlcn
    · have hstop : ¬ vcn < stopOf src := fun h => hkept.2 ⟨h, next, by simp [hnext], hlcn⟩
      rw [vcnToLcnLoop_mapped _ _ hstartLe, if_neg (by simp only; omega), if_neg hstop]
      exact congrArg toCluster (vcnToLcnLoop_marker rest _ vcn (hlcn ▸ by decide))
    · rw [vcnToLcnLoop_mapped _ _ hstartLe, if_neg (by omega), if_neg (by omega)]
  · rw [not_or] at hkept
    have hlen : (placedAfter src spot.run).length ≠ 0 := fun hzero =>
      hkept.2 ((placedAfter_length_eq_zero spot hinside hst).mp hzero)
    obtain ⟨-, hlast⟩ := lastStart_bounds src
    rw [vcnToLcnLoop_mapped _ _ hstartLe, placedAfter_vcn, if_neg (by omega), if_neg (by omega),
      hnext, vcnToLcnLoop_step _ _ _ hlen, if_neg (by omega)]

theorem clusterIn_run_eq_none (hst : clusterIn dst.elements src.start = none)
    (hle : src.start ≤ vcn) (hlt : vcn < spot.run.vcn + spot.run.length) :
    clusterIn dst.elements vcn = none := by
  obtain ⟨horig, hlow, -, hword, -, -⟩ := run_bounds spot hinside
  have hlcnWord := dst.lcn_isS64 spot.run (by simp [hinside.runs_eq])
  rw [clusterIn_elements_run spot hinside ⟨hlow, hinside.lt_end⟩] at hst
  rw [clusterIn_elements_run spot hinside ⟨hlow.trans hle, hlt⟩]
  by_cases hmap : 0 ≤ spot.run.lcn
  · -- The clusters of a run grow until they overflow, and from there on they are markers.
    have hofs : ∀ other, spot.run.vcn ≤ other → other ≤ vcn →
        (0 ≤ spot.run.lcnAt other ↔ spot.run.lcn + (other - spot.run.vcn) < 2 ^ 63) := by
      intro other hfrom hto
      unfold IsS64 at hword hlcnWord
      have hexact : s64 (other - spot.run.vcn) = other - spot.run.vcn :=
        s64_of_isS64 ⟨by omega, by omega⟩
      rw [RunlistElement.lcnAt, hexact]
      obtain ⟨k, hk⟩ := exists_s64_eq (spot.run.lcn + (other - spot.run.vcn))
      have hrange := isS64_s64 (spot.run.lcn + (other - spot.run.vcn))
      unfold IsS64 at hrange
      omega
    have hnot : ¬ 0 ≤ spot.run.lcnAt src.start := fun hnn => by
      rw [toCluster_eq_some.mpr ⟨rfl, hnn⟩] at hst
      exact absurd hst (by simp)
    refine toCluster_of_neg (not_le.mp fun hnn => hnot ?_)
    rw [hofs _ hlow hle]
    have hbound := (hofs vcn (hlow.trans hle) le_rfl).mp hnn
    omega
  · have hneg := not_le.mp hmap
    rw [spot.run.lcnAt_of_neg hneg]
    exact toCluster_of_neg hneg

theorem lcnIn_start (hclu : clusterIn (placedRuns src spot) src.start = some lcn) :
    lcnIn src.mapped src.start = some lcn := by
  obtain ⟨hstop, -, -⟩ := stopOf_bounds src
  obtain ⟨-, -, -, -, -, hrestStart⟩ := run_bounds spot hinside
  have hlt := hinside.lt_end
  rw [clusterIn, vcnToLcnLoop_placedRuns spot le_rfl] at hclu
  obtain ⟨next, rest, hnext, hvcn⟩ : ∃ next rest, placedTail src spot = next :: rest ∧
      src.start < next.vcn := by
    obtain ⟨marker, rest, hmrk⟩ := exists_cons_of_ne_nil
      (show spot.rest ≠ [] by simp [hinside.rest_eq])
    rw [hmrk, startOf_cons] at hrestStart
    unfold placedTail
    split_ifs
    · rw [hmrk, fixMarker]
      split_ifs
      · exact ⟨_, _, rfl, hstop⟩
      · exact ⟨_, _, rfl, by omega⟩
    · exact ⟨_, _, rfl, (placedAfter_vcn spot.run).symm ▸ hstop⟩
  rw [hnext, vcnToLcnLoop_mapped _ _ le_rfl, if_pos (.inr ⟨hvcn, hstop⟩)] at hclu
  exact (toCluster_eq_some.mp hclu).1

end

/-! ### Merging behind the end -/

/-- The source goes behind an unmapped terminator, knows the end of the attribute, and has an
unmapped trail in front of it: one run of that trail takes the place of the terminator, and nothing
ends the runlist. -/
def LosesEnd (dst : Runlist) (src : Source) : Prop :=
  dst.last.vcn ≤ src.start ∧ dst.last.lcn = lcnRlNotMapped ∧ src.trail ≠ [] ∧
    src.last.lcn = lcnEnoent

section

variable {dst : Runlist} {src : Source} (spot : Spot dst src.start) (hrest : spot.rest = [])
  (hrun : spot.run = dst.last) (hbefore : spot.before = dst.runs)
include hrest hrun hbefore

theorem le_length_mergedRuns_behind : dst.elements.length ≤ (mergedRuns src spot).length := by
  have hpos := length_pos_iff.mpr src.mapped_ne_nil
  have hcnt : dst.elements.length = dst.runs.length + 1 := dst.length_elements
  have hbit : (meets dst.runs (src.inserted dst.last)).toNat ≤ 1 := Bool.toNat_le _
  have hne := src.inserted_ne_nil dst.last
  have hins : src.mapped.length ≤ (src.inserted dst.last).length := by
    simp [Source.inserted]
  rw [mergedRuns, hrest, hrun, hbefore]
  cases hst : src.starts dst.last with
  | true =>
    cases hfin : src.finishes dst.last with
    | true =>
      have hlen := length_replaceRuns dst.runs hne []
      have hmore : (src.inserted dst.last).length = src.mapped.length + 1 :=
        hrun ▸ length_inserted_last spot hrun (hrun ▸ (Bool.and_eq_true_iff.mp hfin).1)
      rw [meets_nil_right, Bool.toNat_false] at hlen
      rw [mergeRuns]
      omega
    | false =>
      rw [mergeRuns, length_insertRuns]
      simp only [length_append, length_cons]
      omega
  | false =>
    cases hfin : src.finishes dst.last with
    | true =>
      rw [mergeRuns, appendRuns]
      simp only [length_append, length_cons]
      omega
    | false =>
      rw [mergeRuns, splitRuns]
      simp only [length_append, length_cons]
      omega

theorem ends_mergedRuns_behind (hmrk : src.last.lcn = lcnEnoent) (hend : ¬ LosesEnd dst src) :
    (∃ last ∈ (mergedRuns src spot).getLast?, last.length = 0) ∧
    ∀ run ∈ mergedRuns src spot, run.length = 0 →
      src.last.vcn ≤ run.vcn ∨ run.lcn = lcnEnoent ∨ run.lcn = lcnRlNotMapped := by
  obtain ⟨runs, last, hlist, hsame, -, hends, -⟩ := mergedRuns_behind spot hrest hrun hbefore
  obtain ⟨hzero, hlcn⟩ := hends.resolve_right fun h =>
    hend ⟨hrun ▸ spot.run_vcn_le, h.1, h.2.1, hmrk⟩
  rw [hlist]
  refine ⟨⟨last, by simp, hzero⟩, fun run hmem hnone => ?_⟩
  rcases mem_append.mp hmem with hmem | hmem
  · exact absurd hnone (hsame.chain.mem hmem).2.1.ne'
  · rw [mem_singleton.mp hmem]
    exact .inr hlcn

/-- Assumes: two runlists in memory, the source going behind the end of the destination and neither
filling its pages nor losing the end. The merge fails for want of memory and touches nothing, or
returns a runlist with the clusters of the destination below its end. -/
theorem mergeBlocks_behind (allocator : Allocator) (hdrl : drl.Holds dst.elements)
    (hsrl : srl.Holds src.elements) (hroom : ¬ (GoesBehind dst src ∧ Fills dst src))
    (hend : ¬ LosesEnd dst src) : (mergeBlocks allocator drl srl).RunsShort allocator drl srl ∨
      ∃ block, mergeBlocks allocator drl srl = .done block ∧
        ∀ vcn, 0 ≤ vcn → vcn < dst.last.vcn → clusterAt block vcn = clusterIn dst.elements vcn := by
  have hovl : ¬ src.Overlaps spot.run := fun h =>
    absurd h.2.1 (not_le.mpr (hrun ▸ dst.last_lcn_neg))
  obtain ⟨runs, last, hlist, hsame, hvcn, -⟩ := mergedRuns_behind spot hrest hrun hbefore
  have hch : Chain 0 runs last.vcn := hvcn ▸ hsame.chain
  have hst : startOf (runs ++ [last]) = 0 := startOf_concat_of_chain hch
  -- A walk for a vcn below the end of the destination stops in its runs.
  have hloop : ∀ vcn, 0 ≤ vcn → vcn < dst.last.vcn →
      ∃ lcn, vcnToLcnLoop (runs ++ [last]) vcn = some lcn ∧ lcnIn dst.runs vcn = some lcn := by
    intro vcn h0 hlt
    obtain ⟨_, run, _, -, -, hsome⟩ := dst.chain.exists_covers h0 hlt
    refine ⟨run.lcnAt vcn, ?_, hsome⟩
    rw [hch.vcnToLcnLoop_append [] h0, hsame.lcnIn_eq, lcnIn_append, hsome, some_or, some_or]
  have hclus : ∀ vcn, 0 ≤ vcn → vcn < dst.last.vcn →
      clusterIn (runs ++ [last]) vcn = clusterIn dst.elements vcn := by
    intro vcn h0 hlt
    obtain ⟨lcn, hwalk, hsome⟩ := hloop vcn h0 hlt
    rw [clusterIn, hwalk, clusterIn_elements h0, hsome]
  rw [mergeBlocks_eq allocator spot hdrl hsrl, if_neg hovl]
  rcases mergeRoutine_spec allocator spot hdrl hsrl with
    ⟨hfail, hmemo⟩ | ⟨hovr, -⟩ | ⟨-, block, hdone, hblk, -⟩
  · rw [hfail]
    exact .inl ⟨rfl, hmemo⟩
  · exact absurd hovr (not_overruns spot hdrl hroom)
  · right
    have hlen := le_length_mergedRuns_behind spot hrest hrun hbefore
    have hcnt := dst.length_elements
    have hpos := length_pos_iff.mpr dst.runs_ne_nil
    rw [hlist] at hblk hlen
    rw [hdone, afterRoutine]
    by_cases hmrk : src.last.lcn = lcnEnoent
    · obtain ⟨hlastZero, hzeros⟩ := ends_mergedRuns_behind spot hrest hrun hbefore hmrk hend
      rw [hlist] at hlastZero hzeros
      obtain ⟨marked, hfixed, hmark⟩ := fixEndMarker_clusters allocator srl
        (show block.Holds (runs ++ [last]) from hblk)
        (show 0 < dst.elements.length - 1 by omega) (by omega) hst hlastZero hzeros
      rw [if_pos hmrk]
      refine ⟨marked, hfixed, fun vcn h0 hlt => ?_⟩
      rw [hmark vcn h0, hclus vcn h0 hlt]
    · rw [if_neg hmrk]
      refine ⟨block, rfl, fun vcn h0 hlt => ?_⟩
      obtain ⟨lcn, hwalk, -⟩ := hloop vcn h0 hlt
      rw [clusterAt, lookup_of_loop hblk hst h0 hwalk, ← hclus vcn h0 hlt, clusterIn, hwalk]

end

variable {dst rl : Runlist} {src : Source} {vcn : ℤ} {block : RlArray}

theorem scanFrom_eq_none {stop : RunlistElement → Bool} {i : ℕ}
    (hcl : ∀ j, i ≤ j → stop (block.elem j) = false) : scanFrom stop block i = none := by
  have hscan : ∀ fuel j, i ≤ j → scan stop block.elem fuel j = none := by
    intro fuel
    induction fuel with
    | zero => exact fun j _ => rfl
    | succ fuel ih =>
      intro j hj
      have hcell : ¬ stop (block.elem j) = true := by simp [hcl j hj]
      rw [scan, if_neg hcell]
      exact ih (j + 1) (by omega)
  exact hscan _ i le_rfl

/-- A source that loses the end goes behind the end of the destination. -/
theorem LosesEnd.behind (hloses : LosesEnd dst src) (spot : Spot dst src.start) :
    spot.rest = [] ∧ spot.run = dst.last ∧ spot.before = dst.runs := by
  rcases last_or_inside spot with hlast | ⟨more, hinside⟩
  · exact hlast
  · have hlow := hloses.1
    have hlt := hinside.lt_end
    have hle := hinside.chain_more.le
    omega

theorem LosesEnd.length_ne_zero (hloses : LosesEnd dst src) (spot : Spot dst src.start)
    {allocator : Allocator} (hblk : block.Holds (mergedRuns src spot))
    (hstale : StaleBehind allocator drl block (mergedRuns src spot).length)
    (hold : ∀ i, dst.elements.length ≤ i → (drl.elem i).length ≠ 0)
    (hfresh : ∀ i, (allocator.junk i).length ≠ 0) (i : ℕ) : (block.elem i).length ≠ 0 := by
  obtain ⟨hrest, hrun, hbefore⟩ := hloses.behind spot
  obtain ⟨-, hopen, htrail, -⟩ := hloses
  obtain ⟨runs, last, hlist, hsame, -, -, htrai, -⟩ := mergedRuns_behind spot hrest hrun hbefore
  have hlong := le_length_mergedRuns_behind spot hrest hrun hbefore
  -- All elements of the merged list are runs, the last one from the trail of the source.
  have hruns : ∀ run ∈ mergedRuns src spot, run.length ≠ 0 := by
    intro run hmem
    rw [hlist] at hmem
    rcases mem_append.mp hmem with hmem | hmem
    · exact (hsame.chain.mem hmem).2.1.ne'
    · obtain ⟨head, tail, hhead⟩ := exists_cons_of_ne_nil htrail
      have hlast := htrai hopen
      rw [hhead] at hlast
      rw [mem_singleton.mp hmem, ← head_eq_of_cons_eq hlast]
      exact ((chain_stopOf src).2.mem (by simp [hhead])).2.1.ne'
  by_cases hi : i < (mergedRuns src spot).length
  · have hcell := hblk.2.getElem hi
    rw [zero_add] at hcell
    rw [hcell]
    exact hruns _ (getElem_mem hi)
  · rcases hstale i (not_lt.mp hi) with hsameLength | hfreshLength
    · rw [hsameLength]
      exact hold i (by omega)
    · rw [hfreshLength]
      exact hfresh i

theorem LosesEnd.finishes (hloses : LosesEnd dst src) (spot : Spot dst src.start) :
    src.finishes spot.run = true := by
  obtain ⟨hrest, hrun, -⟩ := hloses.behind spot
  exact (finishes_of_last spot hrest (by rw [hrun, hloses.2.1])).2.2

theorem merge_loses_end (hloses : LosesEnd dst src) :
    ∃ allocator drl srl drl' srl', drl.Holds dst.elements ∧ srl.Holds src.elements ∧
      ntfsRunlistsMerge allocator (.block drl) (.block srl) = .failed .overrun drl' srl' := by
  obtain ⟨spot⟩ := exists_spot dst src.start_nonneg
  obtain ⟨-, hrun, -⟩ := hloses.behind spot
  let junk : RunlistElement := ⟨0, 0, 1⟩
  let allocator : Allocator := ⟨fun _ => true, fun _ => junk⟩
  let drl := RlArray.ofList dst.elements 0 fun _ => junk
  let srl := RlArray.ofList src.elements 0 fun _ => junk
  have hdrl : drl.Holds dst.elements := RlArray.holds_ofList _ _ _
  have hsrl : srl.Holds src.elements := RlArray.holds_ofList _ _ _
  have hovl : ¬ src.Overlaps spot.run := fun h =>
    absurd h.2.1 (not_le.mpr (hrun ▸ dst.last_lcn_neg))
  have hmrg := mergeBlocks_eq allocator spot hdrl hsrl
  rw [if_neg hovl] at hmrg
  rcases mergeRoutine_spec allocator spot hdrl hsrl with
    ⟨-, hmemo⟩ | ⟨-, drl', srl', hfail⟩ | ⟨-, block, hdone, hblk, hstale, -⟩
  · exact absurd (fun _ => rfl) hmemo
  · refine ⟨allocator, drl, srl, .block drl', .block srl', hdrl, hsrl, ?_⟩
    rw [ntfsRunlistsMerge, hmrg, hfail]
    rfl
  · have hold : ∀ i, dst.elements.length ≤ i → (drl.elem i).length ≠ 0 := fun i hi => by
      rw [show drl.elem i = junk from getD_eq_default _ _ hi]
      exact one_ne_zero
    have hcl := hloses.length_ne_zero spot hblk (hstale (hloses.finishes spot)) hold
      fun _ => one_ne_zero
    refine ⟨allocator, drl, srl, .block block, .block srl, hdrl, hsrl, ?_⟩
    rw [ntfsRunlistsMerge, hmrg, hdone, afterRoutine, if_pos hloses.2.2.2, fixEndMarker,
      scanFrom_eq_none fun j _ => decide_eq_false (hcl j)]

/-! ### When a merge is safe -/

def Maps (items : List RunlistElement) (vcn : ℤ) : Prop :=
  ∃ lcn, 0 ≤ lcn ∧ ntfsRlVcnToLcn (some items) vcn = some lcn

/-- Merging the source into the destination either fails with an error and leaves both as they were,
or returns a runlist in which every vcn the destination mapped to a cluster is mapped to the same
cluster; and whenever the two map a common vcn it fails with `-ERANGE`. This on all blocks that hold
the two runlists, whether or not there is memory to allocate. -/
def MergesSafely (dst : Runlist) (src : Source) : Prop :=
  ∀ (allocator : Allocator) (drl srl : RlArray), drl.Holds dst.elements → srl.Holds src.elements →
    ((∃ code, ntfsRunlistsMerge allocator (.block drl) (.block srl) =
          .failed (.errno code) (.block drl) (.block srl)) ∨
        ∃ block, ntfsRunlistsMerge allocator (.block drl) (.block srl) = .done (.block block) ∧
          ∀ vcn lcn, 0 ≤ lcn → drl.lookup vcn = some lcn → block.lookup vcn = some lcn) ∧
      ((∃ vcn, Maps dst.elements vcn ∧ Maps src.elements vcn) →
        ntfsRunlistsMerge allocator (.block drl) (.block srl) =
          .failed (.errno .erange) (.block drl) (.block srl))

/-- The merge has nothing to remap: the two runlists map no common vcn, the destination maps neither
the vcn at which the source starts nor one that is displaced, and neither the end of the runlist nor
the block is lost. -/
structure NothingToRemap {dst : Runlist} (src : Source) (spot : Spot dst src.start) : Prop where
  disjoint : ¬ ∃ vcn, Maps dst.elements vcn ∧ Maps src.elements vcn
  start_unmapped : ¬ Maps dst.elements src.start
  not_displaced : ∀ vcn, spot.run.vcn + spot.run.length ≤ vcn → Maps dst.elements vcn →
    ¬ Displaced src spot vcn
  keeps_end : ¬ LosesEnd dst src
  room : ¬ (GoesBehind dst src ∧ Fills dst src)

theorem exists_zero_elements (rl : Runlist) : ∃ run ∈ rl.elements, run.length = 0 :=
  ⟨rl.last, by simp [Runlist.elements], rl.last_length⟩

theorem startOf_elements (rl : Runlist) : startOf rl.elements = 0 :=
  startOf_concat_of_chain rl.chain

theorem maps_iff (rl : Runlist) (vcn : ℤ) :
    Maps rl.elements vcn ↔ 0 ≤ vcn ∧ ∃ lcn, clusterIn rl.elements vcn = some lcn := by
  by_cases hvcn : 0 ≤ vcn
  · obtain ⟨block, hblk, -⟩ := exists_tight_block rl.elements rl.last
    have hclu := clusterAt_eq hblk (startOf_elements rl) (exists_zero_elements rl) hvcn
    have hlk := lookup_of_holds hblk (exists_zero_elements rl) vcn
    simp only [Maps, ← hlk, ← hclu, clusterAt, toCluster_eq_some]
    tauto
  · refine iff_of_false ?_ fun h => hvcn h.1
    rintro ⟨lcn, -, hfnd⟩
    unfold ntfsRlVcnToLcn at hfnd
    rw [if_pos (not_le.mp hvcn)] at hfnd
    exact absurd hfnd (by simp)

theorem clusterIn_start_eq_none (hst : ¬ Maps dst.elements src.start) :
    clusterIn dst.elements src.start = none :=
  eq_none_iff_forall_ne_some.mpr fun lcn hlcn =>
    hst ((maps_iff dst _).mpr ⟨src.start_nonneg, lcn, hlcn⟩)

theorem maps_source {lcn : ℤ} (hlcn : 0 ≤ lcn) (hfnd : lcnIn src.mapped vcn = some lcn) :
    Maps src.elements vcn := by
  obtain ⟨hch, -⟩ := chain_stopOf src
  obtain ⟨-, hle, -⟩ := stopOf_bounds src
  have hin : src.start ≤ vcn ∧ vcn < stopOf src := by
    by_contra hout
    rw [hch.lcnIn_eq_none (by omega)] at hfnd
    exact absurd hfnd (by simp)
  obtain ⟨block, hblk, -⟩ := exists_tight_block src.elements src.last
  refine ⟨lcn, hlcn, ?_⟩
  rw [← lookup_of_holds hblk ⟨src.last, by simp [Source.elements], src.last_length⟩,
    lookup_source hblk hin.1 (by omega), lcnIn_append, hfnd, some_or]

theorem start_le_of_maps (hmaps : Maps src.elements vcn) : src.start ≤ vcn := by
  by_contra hlt
  obtain ⟨lcn, hlcn, hfnd⟩ := hmaps
  have hch : Chain src.origin src.lead src.first.vcn := src.chain_parts.1
  have helt : src.elements = src.lead ++ src.first ::
      (src.mapped.tail ++ (src.trail ++ [src.last])) := by
    rw [Source.elements, src.cons_tail]
    rfl
  obtain ⟨head, rest, hhead⟩ := exists_cons_of_ne_nil
    (show src.elements ≠ [] by simp [Source.elements])
  have hvcn : head.vcn = src.origin := by
    have hst : startOf src.elements = src.origin := by
      rw [helt]
      cases hlead : src.lead with
      | nil =>
        rw [hlead] at hch
        exact hch.symm
      | cons run runs =>
        rw [hlead] at hch
        exact hch.1
    rwa [hhead, startOf_cons] at hst
  have hnega : lcn < 0 := by
    rw [hhead] at hfnd
    unfold ntfsRlVcnToLcn at hfnd
    split_ifs at hfnd with hneg
    simp only at hfnd
    split_ifs at hfnd with hbel
    · obtain rfl : lcnEnoent = lcn := by simpa using hfnd
      decide
    · have hwalk := hch.vcnToLcnLoop_append (src.mapped.tail ++ (src.trail ++ [src.last]))
        (show src.origin ≤ vcn by omega)
      obtain ⟨before, run, after, hlead, -, hsome⟩ := hch.exists_covers (by omega) (not_le.mp hlt)
      have hrun : run.lcn < 0 := by
        have hunm := src.lead_unmapped run (by simp [hlead])
        unfold lcnHole at hunm
        omega
      rw [← hhead, helt, hwalk, hsome, run.lcnAt_of_neg hrun] at hfnd
      obtain rfl : run.lcn = lcn := by simpa using hfnd
      exact hrun
  omega

theorem clusterAt_elements (hblk : block.Holds rl.elements) (hvcn : 0 ≤ vcn) :
    clusterAt block vcn = clusterIn rl.elements vcn :=
  clusterAt_eq hblk (startOf_elements rl) (exists_zero_elements rl) hvcn

theorem bounds_of_maps (hmaps : Maps rl.elements vcn) :
    0 ≤ vcn ∧ vcn < rl.last.vcn ∧ IsS64 vcn := by
  obtain ⟨hvcn, lcn, hclu⟩ := (maps_iff rl vcn).mp hmaps
  have hword := rl.last_vcn_isS64
  have hlt : vcn < rl.last.vcn := by
    by_contra hle
    rw [clusterIn_elements hvcn, rl.chain.lcnIn_eq_none (by omega)] at hclu
    exact absurd hclu (by simp [toCluster])
  unfold IsS64 at *
  omega

theorem mergesSafely_of_outcome (hdisj : ¬ ∃ vcn, Maps dst.elements vcn ∧ Maps src.elements vcn)
    (hout : ∀ (allocator : Allocator) (drl srl : RlArray), drl.Holds dst.elements →
      srl.Holds src.elements → mergeBlocks allocator drl srl = .failed
    (.errno .enomem) drl srl ∨ ∃ block, mergeBlocks allocator drl srl = .done block ∧ ∀ vcn,
      Maps dst.elements vcn → clusterAt block vcn = clusterIn dst.elements vcn) :
    MergesSafely dst src := by
  intro allocator drl srl hdrl hsrl
  refine ⟨?_, fun hover => absurd hover hdisj⟩
  rcases hout allocator drl srl hdrl hsrl with hfail | ⟨block, hdone, hclus⟩
  · exact .inl ⟨.enomem, by rw [ntfsRunlistsMerge, hfail]⟩
  · refine .inr ⟨block, by rw [ntfsRunlistsMerge, hdone], fun vcn lcn hlcn hfnd => ?_⟩
    have hmaps : Maps dst.elements vcn :=
      ⟨lcn, hlcn, by rw [← lookup_of_holds hdrl (exists_zero_elements dst), hfnd]⟩
    have hclu := hclus vcn hmaps
    rw [← clusterAt_elements hdrl (bounds_of_maps hmaps).1, clusterAt, clusterAt, hfnd,
      toCluster_eq_some.mpr ⟨rfl, hlcn⟩] at hclu
    exact (toCluster_eq_some.mp hclu).1

section

variable {dst : Runlist} {src : Source} (spot : Spot dst src.start)

theorem mergesSafely_of_overlaps (hovl : src.Overlaps spot.run) : MergesSafely dst src := by
  intro allocator drl srl hdrl hsrl
  have hmrg : ntfsRunlistsMerge allocator (.block drl) (.block srl) =
      .failed (.errno .erange) (.block drl) (.block srl) := by
    rw [ntfsRunlistsMerge, mergeBlocks_eq allocator spot hdrl hsrl, if_pos hovl]
  exact ⟨.inl ⟨.erange, hmrg⟩, fun _ => hmrg⟩

theorem mergesSafely_of_nothingToRemap (hsafe : NothingToRemap src spot) :
    MergesSafely dst src := by
  refine mergesSafely_of_outcome hsafe.disjoint fun allocator drl srl hdrl hsrl => ?_
  have hst := clusterIn_start_eq_none hsafe.start_unmapped
  rcases last_or_inside spot with ⟨hrest, hrun, hbefore⟩ | ⟨more, hinside⟩
  · refine (mergeBlocks_behind spot hrest hrun hbefore allocator hdrl hsrl hsafe.room
      hsafe.keeps_end).imp (fun h => h.1) ?_
    rintro ⟨block, hdone, hclus⟩
    refine ⟨block, hdone, fun vcn hmaps => ?_⟩
    obtain ⟨hvcn, hlt, -⟩ := bounds_of_maps hmaps
    exact hclus vcn hvcn hlt
  · have hovl : ¬ src.Overlaps spot.run := fun h =>
      clusterIn_start_ne_none spot hinside h.1 h.2.1 hst
    refine (mergeBlocks_inside spot hinside allocator hdrl hsrl hovl).imp (fun h => h.1) ?_
    rintro ⟨block, hdone, hclus⟩
    refine ⟨block, hdone, fun vcn hmaps => ?_⟩
    obtain ⟨hvcn, -, hword⟩ := bounds_of_maps hmaps
    rw [hclus vcn hvcn hword]
    by_cases hlt : vcn < src.start
    · exact clusterIn_placedRuns_of_lt spot hinside hvcn hlt
    · by_cases hend : spot.run.vcn + spot.run.length ≤ vcn
      · exact clusterIn_of_not_displaced spot hinside hst hend (hsafe.not_displaced vcn hend hmaps)
      · -- Between the start of the source and the end of the run nothing was mapped.
        obtain ⟨-, lcn, hclu⟩ := (maps_iff dst vcn).mp hmaps
        rw [clusterIn_run_eq_none spot hinside hst (by omega) (by omega)] at hclu
        exact absurd hclu (by simp)

theorem exists_merge_inside (hinside : Inside spot more) (hovl : ¬ src.Overlaps spot.run) :
    ∃ allocator drl srl block, drl.Holds dst.elements ∧ srl.Holds src.elements ∧
      ntfsRunlistsMerge allocator (.block drl) (.block srl) = .done (.block block) ∧
      ∀ vcn, 0 ≤ vcn → IsS64 vcn → clusterAt block vcn = clusterIn (placedRuns src spot) vcn := by
  obtain ⟨drl, hdrl, -⟩ := exists_tight_block dst.elements dst.last
  obtain ⟨srl, hsrl, -⟩ := exists_tight_block src.elements dst.last
  let allocator : Allocator := ⟨fun _ => true, fun _ => dst.last⟩
  rcases mergeBlocks_inside spot hinside allocator hdrl hsrl hovl with
    ⟨-, hmemo⟩ | ⟨block, hdone, hclus⟩
  · exact absurd (fun _ => rfl) hmemo
  · exact ⟨allocator, drl, srl, block, hdrl, hsrl, by rw [ntfsRunlistsMerge, hdone], hclus⟩

theorem inside_of_mergesSafely (hinside : Inside spot more) (hovl : ¬ src.Overlaps spot.run)
    (hsafe : MergesSafely dst src) :
    (¬ ∃ vcn, Maps dst.elements vcn ∧ Maps src.elements vcn) ∧
      ∀ vcn, Maps dst.elements vcn → ∃ lcn, clusterIn (placedRuns src spot) vcn = some lcn := by
  obtain ⟨allocator, drl, srl, block, hdrl, hsrl, hdone, hclus⟩ :=
    exists_merge_inside spot hinside hovl
  obtain ⟨hout, hrepo⟩ := hsafe allocator drl srl hdrl hsrl
  rw [hdone] at hout hrepo
  refine ⟨fun hover => absurd (hrepo hover) (by simp), fun vcn hmaps => ?_⟩
  obtain ⟨block', heq, hkept⟩ := hout.resolve_left (by rintro ⟨code, h⟩; exact absurd h (by simp))
  obtain rfl : block = block' := by simpa using heq
  obtain ⟨hvcn, -, hword⟩ := bounds_of_maps hmaps
  obtain ⟨lcn, hlcn, hfnd⟩ := hmaps
  rw [← lookup_of_holds hdrl (exists_zero_elements dst)] at hfnd
  refine ⟨lcn, ?_⟩
  rw [← hclus vcn hvcn hword]
  exact toCluster_eq_some.mpr ⟨hkept vcn lcn hlcn hfnd, hlcn⟩

theorem nothingToRemap_of_mergesSafely (hsafe : MergesSafely dst src)
    (hovl : ¬ src.Overlaps spot.run) : NothingToRemap src spot := by
  rcases last_or_inside spot with ⟨hrest, hrun, hbefore⟩ | ⟨more, hinside⟩
  · -- Behind the end nothing is mapped; what can go wrong is the end itself.
    have hlow : dst.last.vcn ≤ src.start := hrun ▸ spot.run_vcn_le
    refine ⟨?_, fun hmaps => ?_, fun vcn hend hmaps => ?_, fun hloses => ?_, fun hfull => ?_⟩
    · rintro ⟨vcn, hmaps, hsour⟩
      have hbd := bounds_of_maps hmaps
      have hst := start_le_of_maps hsour
      omega
    · have hbd := bounds_of_maps hmaps
      omega
    · have hbd := bounds_of_maps hmaps
      rw [hrun, dst.last_length] at hend
      omega
    · obtain ⟨allocator, drl, srl, drl', srl', hdrl, hsrl, hfail⟩ := merge_loses_end hloses
      have hout := (hsafe allocator drl srl hdrl hsrl).1
      rw [hfail] at hout
      simp at hout
    · obtain ⟨allocator, drl, srl, drl', srl', -, hdrl, hsrl, hfail⟩ :=
        merge_overruns hfull.1 hfull.2
      have hout := (hsafe allocator drl srl hdrl hsrl).1
      rw [hfail] at hout
      simp at hout
  · obtain ⟨hdisj, hkept⟩ := inside_of_mergesSafely spot hinside hovl hsafe
    have hlt := hinside.lt_end
    have hle := hinside.chain_more.le
    have hst : ¬ Maps dst.elements src.start := fun hmaps => by
      obtain ⟨lcn, hlcn⟩ := hkept _ hmaps
      exact hdisj ⟨_, hmaps,
        maps_source (toCluster_eq_some.mp hlcn).2 (lcnIn_start spot hinside hlcn)⟩
    refine ⟨hdisj, hst, fun vcn hend hmaps hdisp => ?_, fun hloses => ?_, fun hfull => ?_⟩
    · obtain ⟨lcn, hlcn⟩ := hkept _ hmaps
      exact hdisj ⟨vcn, hmaps, maps_source (toCluster_eq_some.mp hlcn).2 (lcnIn_of_displaced spot
        hinside (clusterIn_start_eq_none hst) (by omega) hdisp hlcn)⟩
    · have hlow := hloses.1
      omega
    · have hlow := hfull.1.2
      omega

end

/-- A merge keeps every cluster the destination has mapped and reports every overlap exactly when
the source starts with a cluster where a run of the destination starts that has one too, or there is
nothing to remap. -/
theorem mergesSafely_iff (dst : Runlist) (src : Source) (spot : Spot dst src.start) :
    MergesSafely dst src ↔ src.Overlaps spot.run ∨ NothingToRemap src spot := by
  constructor
  · intro hsafe
    by_cases hoverlaps : src.Overlaps spot.run
    · exact .inl hoverlaps
    · exact .inr (nothingToRemap_of_mergesSafely spot hsafe hoverlaps)
  · rintro (hoverlaps | hnothing)
    · exact mergesSafely_of_overlaps spot hoverlaps
    · exact mergesSafely_of_nothingToRemap spot hnothing

def mappedTen : Runlist where
  runs := [⟨0, 300, 10⟩]
  last := unmappedTen.last
  runs_ne_nil := by simp
  chain := by decide
  last_length := unmappedTen.last_length
  last_lcn := unmappedTen.last_lcn
  last_vcn_isS64 := ⟨by decide, by decide⟩
  lcn_isS64 := by decide

/-- The clusters five and six of the file are mapped elsewhere by an extent. Its first run starts in
the middle of the run of the file, and the overlap is not seen. -/
theorem not_mergesSafely_mappedTen :
    ¬ MergesSafely mappedTen (twoClusters 5 (by decide) (by decide)).toSource := by
  intro hsafe
  let spot : Spot mappedTen (twoClusters 5 (by decide) (by decide)).start :=
    ⟨[], ⟨0, 300, 10⟩, [⟨10, lcnEnoent, 0⟩], rfl, rfl, by decide,
      .inr ⟨[], rfl, rfl, by decide, by decide, rfl⟩⟩
  have hinside : Inside spot [] := ⟨rfl, rfl, by decide, by decide, rfl⟩
  have hoverlaps : ¬ (twoClusters 5 (by decide) (by decide)).Overlaps spot.run := by decide
  exact (inside_of_mergesSafely spot hinside hoverlaps hsafe).1
    ⟨5, ⟨305, by decide, by decide⟩, ⟨100, by decide, by decide⟩⟩

end AdvancedOs.Ntfs.RunlistRemapping
