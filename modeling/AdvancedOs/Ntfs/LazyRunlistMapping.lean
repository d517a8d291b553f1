import AdvancedOs.Foundation.QueryMachines
import AdvancedOs.Ntfs.AttributeExtents

/-!
# Reading the mapping of an attribute on demand

`ntfsAttrVcnToLcnNolock` looks up a vcn in the runlist of an inode. Where the runlist says that the
mapping has not been read, `ntfsMapRunlistNolock` looks for the extent of the vcn, decodes it and
merges it with what is there, and the lookup is tried again.

The runlists this can lead to are described by `Reached`: every extent is either wholly there or
wholly unmapped. Merging an extent that is unmapped keeps this (`Reached.merge_extent`,
`Reached.merge_base`), and under it a lookup gives the cluster of the attribute or an unmapped vcn
(`ReadSome.lookup`). So every query gets the cluster of the attribute whatever has been asked before
(`Follows.query`), and so does any sequence of them (`queries_eq_lookup`).

Two things can spoil this. A base extent of one cluster with more extents behind it looks like the
only one, and the end of the attribute is then put behind its cluster. And a runlist of 340 runs can
make `ntfs_rl_append` read behind its block.
-/

namespace AdvancedOs.Ntfs.LazyRunlistMapping

open Foundation.QueryMachines Foundation.SignedWords RunlistElements RunlistMerge
  RunlistMergeRoutines RunlistCoalescing RunlistMergeMap RunlistEndMarker MappingPairs
  MappingPairsSoundness MappingPairsBuild AttributeExtents Option

/-! ### The driver -/

/-- The fields of `ntfs_inode` that mapping a runlist uses. -/
structure NtfsInode where
  vol : NtfsVolume
  allocatedSize : ℤ
  rl : RlPtr

/-- What the mft gives: whether the base mft record can be mapped, whether there is memory for a
search context, and the attribute record `ntfs_attr_lookup` finds for a vcn. -/
structure MftView where
  mapMftRecord : Except Errno Unit
  getSearchCtx : Bool
  attrLookup : ℤ → Except Errno AttrRecord

/-- A search context of the caller: the attribute record it stands at, and whether type and name are
those of the inode. -/
structure AttrSearchCtx where
  attr : AttrRecord
  isOwn : Bool

section

variable (allocator : Allocator) (view : MftView)

/-- `ntfs_attr_lookup` as `ntfs_map_runlist_nolock` calls it. -/
def lookupExtent (vcn : ℤ) : Except Errno AttrRecord :=
  match view.attrLookup vcn with
  | .error .enoent => .error .eio
  | found => found

/-- The extent `ntfs_map_runlist_nolock` reads: that of a search context which already stands at the
vcn, or which need not because the vcn is behind the allocated size, and otherwise that of a
lookup. -/
def extentFor (ni : NtfsInode) (vcn : ℤ) : Option AttrSearchCtx → Except Errno AttrRecord
  | none => do
    view.mapMftRecord
    if view.getSearchCtx then lookupExtent view vcn else .error .enomem
  | some ctx =>
    let allocatedSizeVcn := ni.allocatedSize / ni.vol.clusterSize
    let endVcn := if ctx.attr.lowestVcn = 0 ∧ ctx.attr.highestVcn ≤ 0 then allocatedSizeVcn - 1
      else ctx.attr.highestVcn
    if allocatedSizeVcn ≤ vcn ∨ ctx.isOwn = true ∧ ctx.attr.lowestVcn ≤ vcn ∧ vcn ≤ endVcn then
      .ok ctx.attr
    else lookupExtent view vcn

def ntfsMapRunlistNolock (ni : NtfsInode) (vcn : ℤ) (ctx : Option AttrSearchCtx) :
    Except Failure Unit × NtfsInode :=
  match extentFor view ni vcn ctx with
  | .error code => (.error (.errno code), ni)
  | .ok attr =>
    if vcn ≠ 0 ∧ s64 (attr.highestVcn + 1) ≤ vcn then (.error (.errno .enoent), ni)
    else match (ntfsMappingPairsDecompress allocator ni.vol attr ni.rl).result with
      | .error (why, rl) => (.error why, { ni with rl := rl })
      | .ok rl => (.ok (), { ni with rl := rl })

def isNull : RlPtr → Bool
  | .null => true
  | _ => false

/-- `ntfs_rl_vcn_to_lcn` of the runlist of an inode. -/
def lcnOfPtr : RlPtr → ℤ → Option ℤ
  | .null, vcn => ntfsRlVcnToLcn none vcn
  | .err _, _ => none
  | .block rl, vcn => rl.lookup vcn

/-- The conversion behind `retry_remap`: a result of the lookup that is no cluster, hole, unmapped
part or end is an error. -/
def convert (ni : NtfsInode) (vcn : ℤ) : Except Failure ℤ :=
  match lcnOfPtr ni.rl vcn with
  | none => .error .overrun
  | some lcn =>
    .ok (if lcnHole ≤ lcn ∨ lcn = lcnRlNotMapped ∨ lcn = lcnEnoent then lcn else lcnEio)

/-- The result that stands for an error of `ntfs_map_runlist_nolock`. -/
def lcnOfErrno : Errno → ℤ
  | .enoent => lcnEnoent
  | .enomem => lcnEnomem
  | _ => lcnEio

/-- `ntfs_attr_vcn_to_lcn_nolock`, for a caller that is alone with the runlist. An unmapped part is
mapped once, and then the conversion is tried again. -/
def ntfsAttrVcnToLcnNolock (ni : NtfsInode) (vcn : ℤ) : Except Failure ℤ × NtfsInode :=
  if vcn < 0 then (.error .bug, ni)
  else if isNull ni.rl ∧ ni.allocatedSize = 0 then (.ok lcnEnoent, ni)
  else match convert ni vcn with
    | .error why => (.error why, ni)
    | .ok lcn =>
      if lcn ≠ lcnRlNotMapped then (.ok lcn, ni)
      else match ntfsMapRunlistNolock allocator view ni vcn none with
        | (.ok (), ni) => (convert ni vcn, ni)
        | (.error (.errno code), ni) => (.ok (lcnOfErrno code), ni)
        | (.error why, ni) => (.error why, ni)

end

/-! ### Runlists that have been read in part -/

variable {first last lcn : ℤ} {allocator : Allocator} {drl srl : RlArray}

section

variable {vol : NtfsVolume} {stream : Attribute vol} {rl merged : Runlist} {ext : Extent}

def Unread (rl : Runlist) (ext : Extent) : Prop :=
  ∀ vcn, ext.Covers vcn → vcn < rl.last.vcn → lcnIn rl.runs vcn = some lcnRlNotMapped

def WhollyRead (rl : Runlist) (ext : Extent) : Prop :=
  ext.stop ≤ rl.last.vcn ∧ ∀ vcn, ext.Covers vcn → lcnIn rl.runs vcn = lcnIn ext.runs vcn

/-- The runlists that reading extents of the attribute leads to. Every extent has been read or not,
the runlist ends with an extent and claims the end of the attribute only there, its runs start where
runs of the attribute do, and the unmapped ones where extents do. -/
structure Reached (stream : Attribute vol) (rl : Runlist) : Prop where
  extents : ∀ ext ∈ stream.extents, Unread rl ext ∨ WhollyRead rl ext
  boundary : ∃ ext ∈ stream.extents, rl.last.vcn = ext.stop
  ends : rl.last.lcn = lcnEnoent → rl.last.vcn = stream.stop
  starts : ∀ run ∈ rl.runs, ∃ old ∈ stream.runs, old.vcn = run.vcn
  unmapped : ∀ run ∈ rl.runs, run.lcn = lcnRlNotMapped → ∃ ext ∈ stream.extents, run.vcn = ext.start

theorem exists_start_at_stop (hext : ext ∈ stream.extents) (hlt : ext.stop < stream.stop) :
    (∃ old ∈ stream.runs, old.vcn = ext.stop) ∧ ∃ next ∈ stream.extents, ext.stop = next.start := by
  obtain ⟨next, hnext, hst⟩ := stream.exists_next hext hlt
  obtain ⟨old, hold, hvcn⟩ := stream.exists_run_at_start hnext
  exact ⟨⟨old, hold, hvcn.trans hst⟩, next, hnext, hst.symm⟩

theorem Reached.last_le (hrch : Reached stream rl) : rl.last.vcn ≤ stream.stop := by
  obtain ⟨ext, hext, heq⟩ := hrch.boundary
  rw [heq]
  exact (stream.bounds hext).2.2

theorem Reached.absorb (hrch : Reached stream rl) (hext : ext ∈ stream.extents)
    (habs : Absorbs rl ext.start ext.stop ext.runs merged) (hle : rl.last.vcn ≤ merged.last.vcn)
    (hstop : ext.stop ≤ merged.last.vcn)
    (hbdy : ∃ other ∈ stream.extents, merged.last.vcn = other.stop)
    (hends : merged.last.lcn = lcnEnoent → merged.last.vcn = stream.stop) :
    Reached stream merged ∧ WhollyRead merged ext := by
  have hread : WhollyRead merged ext :=
    ⟨hstop, fun vcn hcov => habs.on_runs vcn hcov.1 hcov.2⟩
  have hlast : merged.last.vcn ≤ stream.stop := by
    obtain ⟨other, hoth, heq⟩ := hbdy
    rw [heq]
    exact (stream.bounds hoth).2.2
  have hst : ∀ run ∈ merged.runs, (∃ old ∈ stream.runs, old.vcn = run.vcn) ∧
      (run.lcn = lcnRlNotMapped → ∃ other ∈ stream.extents, run.vcn = other.start) := by
    intro run hrun
    have hbd := merged.chain.mem hrun
    rcases habs.starts run hrun with ⟨old, hold, hvcn, hlcn⟩ | hvcn | hvcn
    · rcases List.mem_append.mp hold with hmem | hmem
      · obtain ⟨older, holder, hstart⟩ := hrch.starts old hmem
        refine ⟨⟨older, holder, hstart.trans hvcn⟩, fun hnot => ?_⟩
        rw [← hvcn]
        exact hrch.unmapped old hmem (hlcn.trans hnot)
      · refine ⟨⟨old, List.mem_flatMap.mpr ⟨ext, hext, hmem⟩, hvcn⟩, fun hnot => ?_⟩
        exact absurd (ext.lcn_ge old hmem) (by rw [hlcn, hnot]; decide)
    · obtain ⟨hrun, hnext⟩ := exists_start_at_stop hext (by omega)
      exact ⟨hvcn ▸ hrun, fun _ => hvcn ▸ hnext⟩
    · obtain ⟨other, hoth, hend⟩ := hrch.boundary
      obtain ⟨hrun, hnext⟩ := exists_start_at_stop hoth (by omega)
      rw [hvcn, hend]
      exact ⟨hrun, fun _ => hnext⟩
  refine ⟨⟨fun other hoth => ?_, hbdy, hends, fun run hrun => (hst run hrun).1,
    fun run hrun => (hst run hrun).2⟩, hread⟩
  by_cases hsame : other = ext
  · exact .inr (hsame ▸ hread)
  have hout : ∀ vcn, other.Covers vcn → ¬ (ext.start ≤ vcn ∧ vcn < ext.stop) :=
    fun vcn hcov hin => hsame (stream.eq_of_covers hoth hext hcov hin)
  rcases hrch.extents other hoth with hunr | ⟨hend, hmap⟩
  · refine .inl fun vcn hcov hlt => ?_
    by_cases hold : vcn < rl.last.vcn
    · rw [habs.on_destination vcn hold (hout vcn hcov)]
      exact hunr vcn hcov hold
    · exact habs.on_gap vcn (not_lt.mp hold) hlt (hout vcn hcov)
  · refine .inr ⟨hend.trans hle, fun vcn hcov => ?_⟩
    rw [habs.on_destination vcn (lt_of_lt_of_le hcov.2 hend) (hout vcn hcov)]
    exact hmap vcn hcov

theorem lcn_of_lcnAt_eq {run : RunlistElement} {vcn : ℤ} (hlcn : IsS64 run.lcn)
    (hvcn : 0 ≤ run.vcn) (hle : run.vcn ≤ vcn) (hlt : vcn < 2 ^ 63 - 1)
    (hat : run.lcnAt vcn = lcnRlNotMapped) : run.lcn = lcnRlNotMapped := by
  unfold RunlistElement.lcnAt at hat
  split_ifs at hat with hmap
  · have hword := hlcn.2
    have hofs : s64 (vcn - run.vcn) = vcn - run.vcn := s64_of_isS64 ⟨by omega, by omega⟩
    rw [s64, Int.bmod_def] at hat
    unfold lcnRlNotMapped at hat
    split_ifs at hat <;> omega
  · exact hat

theorem exists_unmapped_run (hfst : 0 ≤ first) (hlt : first < last) (hlast : last ≤ rl.last.vcn)
    (hunr : ∀ vcn, first ≤ vcn → vcn < last → lcnIn rl.runs vcn = some lcnRlNotMapped)
    (hst : ∀ run ∈ rl.runs, run.lcn = lcnRlNotMapped → run.vcn ≤ first ∨ last ≤ run.vcn) :
    ∃ before run after, rl.runs = before ++ run :: after ∧ run.lcn = lcnRlNotMapped ∧
      run.vcn ≤ first ∧ last ≤ run.vcn + run.length := by
  have hword := rl.last_vcn_isS64.2
  have hat : ∀ vcn, first ≤ vcn → vcn < last → ∃ before run after,
      rl.runs = before ++ run :: after ∧ run.Covers vcn ∧ run.lcn = lcnRlNotMapped := by
    intro vcn hlow hhigh
    obtain ⟨before, run, after, hruns, hrun, hlcn⟩ :=
      rl.chain.exists_covers (show 0 ≤ vcn by omega) (show vcn < rl.last.vcn by omega)
    have hmem : run ∈ rl.runs := by simp [hruns]
    rw [hunr vcn hlow hhigh, Option.some.injEq] at hlcn
    exact ⟨before, run, after, hruns, hrun, lcn_of_lcnAt_eq (rl.lcn_isS64 run hmem)
      (rl.chain.mem hmem).1 hrun.1 (by omega) hlcn.symm⟩
  obtain ⟨before, run, after, hruns, hcov, hlcn⟩ := hat first le_rfl hlt
  refine ⟨before, run, after, hruns, hlcn, hcov.1, ?_⟩
  -- A run behind this one would be unmapped, and would start between the two vcns.
  by_contra hshort
  rw [not_le] at hshort
  have hend := hcov.2
  have hch := rl.chain
  rw [hruns, chain_append] at hch
  obtain ⟨middle, -, hvcn, -, haft⟩ := hch
  rw [← hvcn] at haft
  obtain ⟨next, rest, rfl⟩ : ∃ next rest, after = next :: rest :=
    List.exists_cons_of_ne_nil fun hnil => by
      rw [hnil, chain_nil] at haft
      omega
  obtain ⟨front, other, back, hruns', hoth, hlcn'⟩ :=
    hat (run.vcn + run.length) hend.le hshort
  have hnext : next ∈ rl.runs := by simp [hruns]
  have hfol := haft.1
  have hlen := haft.2.1
  have hsame : next = other := RunlistMergeMap.eq_of_covers rl.chain hnext (by simp [hruns'])
    ⟨hfol.le, by omega⟩ hoth
  rcases hst next hnext (hsame ▸ hlcn') with hle | hle <;> omega

theorem Reached.exists_gap (hrch : Reached stream rl) (hext : ext ∈ stream.extents)
    (hunr : Unread rl ext) (hstop : ext.stop ≤ rl.last.vcn) :
    ∃ before run after, rl.runs = before ++ run :: after ∧ run.lcn = lcnRlNotMapped ∧
      run.vcn ≤ ext.start ∧ ext.stop ≤ run.vcn + run.length := by
  have hbd := stream.bounds hext
  refine exists_unmapped_run hbd.1 hbd.2.1 hstop
    (fun vcn hlow hhigh => hunr vcn ⟨hlow, hhigh⟩ (hhigh.trans_le hstop)) fun run hrun hlcn => ?_
  obtain ⟨inner, hinner, hst⟩ := hrch.unmapped run hrun hlcn
  rw [hst]
  exact stream.start_le_or hext hinner

theorem Reached.last_le_or (hrch : Reached stream rl) (hext : ext ∈ stream.extents) :
    rl.last.vcn ≤ ext.start ∨ ext.stop ≤ rl.last.vcn := by
  obtain ⟨other, hoth, heq⟩ := hrch.boundary
  rw [heq]
  exact stream.stop_le_or hext hoth

/-! ### The first extent read -/

def unreadList (last : ℤ) (hpos : 0 < last) (hword : IsS64 last) : Runlist where
  runs := [Attribute.unmappedRun last]
  last := ⟨last, lcnRlNotMapped, 0⟩
  runs_ne_nil := List.cons_ne_nil _ _
  chain := ⟨rfl, hpos, zero_add last⟩
  last_length := rfl
  last_lcn := .inr rfl
  last_vcn_isS64 := hword
  lcn_isS64 run hrun := by
    rw [List.mem_singleton.mp hrun]
    exact isS64_lcnRlNotMapped

theorem reached_unreadList (hext : ext ∈ stream.extents) (hpos : 0 < ext.stop)
    (hword : IsS64 ext.stop) : Reached stream (unreadList ext.stop hpos hword) where
  extents other hoth := by
    refine .inl fun vcn hcov hlt => ?_
    have hlow := (stream.bounds hoth).1.trans hcov.1
    have hin : (Attribute.unmappedRun ext.stop).Covers vcn :=
      ⟨hlow, lt_of_lt_of_eq hlt (zero_add ext.stop).symm⟩
    change lcnIn [Attribute.unmappedRun ext.stop] vcn = _
    rw [lcnIn_cons, if_pos hin]
    rfl
  boundary := ⟨ext, hext, rfl⟩
  ends hlcn := absurd hlcn (show ¬ lcnRlNotMapped = lcnEnoent by decide)
  starts run hrun := by
    obtain ⟨old, hold, hvcn⟩ := stream.exists_run_at_start stream.base_mem
    refine ⟨old, hold, ?_⟩
    rw [hvcn, stream.base_start, List.mem_singleton.mp hrun]
    rfl
  unmapped run hrun _ := by
    refine ⟨stream.base, stream.base_mem, ?_⟩
    rw [stream.base_start, List.mem_singleton.mp hrun]
    rfl

theorem exists_decodedStop (hext : ext ∈ stream.extents) :
    ∃ other ∈ stream.extents, stream.decodedStop ext = other.stop := by
  unfold Attribute.decodedStop
  split_ifs
  · obtain ⟨other, hoth, hstop⟩ := stream.exists_last
    exact ⟨other, hoth, hstop.symm⟩
  · exact ⟨ext, hext, rfl⟩

theorem exists_decoded (htold : ext.start = 0 → stream.BaseTold) (hext : ext ∈ stream.extents) :
    ∃ rl : Runlist, rl.elements = ext.record.decodedRuns vol ++ [ext.record.decodedLast vol] ∧
      Reached stream rl ∧ WhollyRead rl ext := by
  obtain ⟨hruns, hlast⟩ := stream.decoded_eq htold hext
  obtain ⟨other, hoth, hstop⟩ := exists_decodedStop hext
  have hbd := stream.bounds hext
  have hle := (stream.stop_le_decodedStop hext).1
  have hword := stream.stop_isS64_of_mem hoth
  rw [hstop] at hruns hlast hle
  have hpos : 0 < other.stop := by omega
  have hhigh : ext.stop ≤ (Attribute.unmappedRun other.stop).vcn +
      (Attribute.unmappedRun other.stop).length := hle.trans (zero_add other.stop).ge
  have hch : Chain 0 (cutRun (Attribute.unmappedRun other.stop) ext.start ext.stop ext.runs)
      (0 + other.stop) := chain_cutRun ext.chain hbd.1 hhigh
  rw [zero_add] at hch
  have hsame := SameMap.refl hch
  have hwords : ∀ run ∈ cutRun (Attribute.unmappedRun other.stop) ext.start ext.stop ext.runs,
      IsS64 run.lcn := by
    intro run hrun
    rcases mem_cutRun hrun with hmem | ⟨-, hlcn⟩
    · exact ext.lcn_isS64 hmem
    · rw [hlcn]
      exact isS64_lcnRlNotMapped
  obtain ⟨rl, hrl, hend⟩ : ∃ rl : Runlist, rl.runs = ext.record.decodedRuns vol ∧
      rl.last = ext.record.decodedLast vol := by
    rw [hruns, hlast]
    exact exists_runlist hsame hpos rfl (endLcn_cases ext.record) hword hwords
  have hvcn : rl.last.vcn = other.stop := by rw [hend, hlast]
  have habs : Absorbs (unreadList other.stop hpos hword) ext.start ext.stop ext.runs rl := by
    have hdst : (unreadList other.stop hpos hword).runs =
      [] ++ Attribute.unmappedRun other.stop :: [] := rfl
    refine absorbs_inside hdst rfl (zero_add _) ext.chain hbd.1 hhigh
      (show lcnRlNotMapped < 0 by decide) hvcn ?_
    rw [List.append_nil, hrl, hruns]
    exact hsame
  have hends : rl.last.lcn = lcnEnoent → rl.last.vcn = stream.stop := by
    intro hlcn
    rw [hend] at hlcn
    rw [hvcn, ← hstop]
    refine if_pos (by_contra fun hbase => ?_)
    have hopen : endLcn ext.record = lcnRlNotMapped := if_neg hbase
    exact absurd (hopen.symm.trans hlcn) (by decide)
  refine ⟨rl, by rw [Runlist.elements, hrl, hend], ?_⟩
  exact (reached_unreadList hoth hpos hword).absorb hext habs hvcn.ge (hvcn ▸ hle)
    ⟨other, hoth, hvcn⟩ hends

/-! ### Merging further extents -/

theorem nodup_vcn {runs : List RunlistElement} (hch : Chain first runs last) :
    (runs.map RunlistElement.vcn).Nodup := by
  induction runs generalizing first with
  | nil => exact List.nodup_nil
  | cons run runs ih =>
    obtain ⟨hvcn, hlen, hrest⟩ := hch
    rw [List.map_cons, List.nodup_cons]
    refine ⟨fun hmem => ?_, ih hrest⟩
    obtain ⟨other, hoth, heq⟩ := List.mem_map.mp hmem
    have hbd := hrest.mem hoth
    omega

theorem Reached.length_le (hrch : Reached stream rl) (hext : ext ∈ stream.extents)
    (hlt : rl.last.vcn < ext.start) : rl.runs.length + 1 + ext.runs.length ≤
      stream.runs.length := by
  obtain ⟨runs, hdef⟩ : ∃ runs, runs = rl.runs ++
      (⟨rl.last.vcn, lcnRlNotMapped, ext.start - rl.last.vcn⟩ :: ext.runs) := ⟨_, rfl⟩
  have hch : Chain 0 runs ext.stop := by
    rw [hdef, chain_append]
    refine ⟨_, rl.chain, rfl, sub_pos.mpr hlt, ?_⟩
    rw [add_sub_cancel]
    exact ext.chain
  have hsubs : runs.map RunlistElement.vcn ⊆ stream.runs.map RunlistElement.vcn := by
    intro vcn hvcn
    obtain ⟨run, hrun, rfl⟩ := List.mem_map.mp hvcn
    rw [hdef, List.mem_append, List.mem_cons] at hrun
    rcases hrun with hold | rfl | hnew
    · obtain ⟨old, hmem, hst⟩ := hrch.starts run hold
      exact List.mem_map.mpr ⟨old, hmem, hst⟩
    · obtain ⟨other, hoth, heq⟩ := hrch.boundary
      have hbd := stream.bounds hext
      obtain ⟨⟨old, hmem, hst⟩, -⟩ := exists_start_at_stop hoth (by omega)
      exact List.mem_map.mpr ⟨old, hmem, hst.trans heq.symm⟩
    · exact List.mem_map_of_mem (List.mem_flatMap.mpr ⟨ext, hext, hnew⟩)
  have hlen := (List.subperm_of_subset (nodup_vcn hch) hsubs).length_le
  rw [List.length_map, List.length_map, hdef, List.length_append, List.length_cons] at hlen
  omega

/-- The runs of the extent go behind an unmapped terminator with a gap in between, and the runlist
then fills its pages up to the field that `ntfs_rl_append` reads behind it. -/
def Overreads (rl : Runlist) (ext : Extent) : Prop :=
  rl.last.lcn = lcnRlNotMapped ∧ rl.last.vcn < ext.start ∧
    ((rl.elements.length + ext.runs.length + 1) % 512 = 0 ∨
      (rl.elements.length + ext.runs.length + 1) % 512 = 341)

theorem Reached.not_overreads (hrch : Reached stream rl) (hcount : stream.runs.length < 340)
    (hext : ext ∈ stream.extents) : ¬ Overreads rl ext := by
  rintro ⟨-, hlt, hfills⟩
  have hlen := hrch.length_le hext hlt
  rw [rl.length_elements] at hfills
  omega

/-- Assumes: memory, a partly read runlist and an extent behind the base extent that has not been
read and that can be merged without a read behind the runlist. The merge reads the extent. -/
theorem Reached.merge_extent (hrch : Reached stream rl) (hroom : ¬ Overreads rl ext)
    (hext : ext ∈ stream.extents) (hst : ext.start ≠ 0)
    (hunr : Unread rl ext) (hmemory : ∀ bytes, allocator.succeeds bytes = true)
    (hdrl : drl.Holds rl.elements)
    (hsrl : srl.Holds (ext.record.decodedRuns vol ++ [ext.record.decodedLast vol])) :
    ∃ (block : RlArray) (merged : Runlist),
      ntfsRunlistsMerge allocator (.block drl) (.block srl) = .done (.block block) ∧
      block.Holds merged.elements ∧ Reached stream merged ∧ WhollyRead merged ext := by
  rw [← stream.elements_extentSource hext hst] at hsrl
  have hvcn := stream.start_extentSource hext hst
  have hfits : Fits rl (stream.extentSource hext hst).toSource := by
    unfold Fits
    rw [hvcn]
    rcases hrch.last_le_or hext with hle | hle
    · exact .inr hle
    · obtain ⟨before, run, after, hruns, hlcn, hlow, hhigh⟩ := hrch.exists_gap hext hunr hle
      exact .inl ⟨run, by simp [hruns], decide_eq_true (.inr hlcn), hlow, hhigh⟩
  have hroom' : ¬ (GoesBehind rl (stream.extentSource hext hst).toSource ∧
      Fills rl (stream.extentSource hext hst).toSource) :=
    fun hover => hroom ⟨hover.1.1, hvcn ▸ hover.1.2, hover.2⟩
  obtain ⟨block, merged, hdone, hh, habs, hends⟩ :=
    merge_extent_done hfits hroom' hmemory hdrl hsrl
  rw [hvcn] at habs
  refine ⟨block, merged, hdone, hh, ?_⟩
  rcases hends with ⟨hlast, hle⟩ | ⟨hlast, hle, hlcn⟩
  · exact hrch.absorb hext habs (by rw [hlast]) (hlast ▸ hle)
      (hlast ▸ hrch.boundary) (hlast ▸ hrch.ends)
  · have hstop : merged.last.vcn = ext.stop := hlast
    have hbd := stream.bounds hext
    refine hrch.absorb hext habs (by omega) hstop.ge ⟨ext, hext, hstop⟩ fun hend => ?_
    -- A runlist that knew the end of the attribute would not end before the extent.
    rcases rl.last_lcn with hkn | hopen
    · have hlast_vcn := hrch.ends hkn
      omega
    · exact absurd ((hlcn hopen).symm.trans hend) (by decide)

theorem WhollyRead.not_unread (hread : WhollyRead rl ext) (hext : ext ∈ stream.extents) :
    ¬ Unread rl ext := by
  intro hunr
  have hbd := stream.bounds hext
  have hcov : ext.Covers ext.start := ⟨le_rfl, hbd.2.1⟩
  obtain ⟨lcn, hlcn, hge⟩ := ext.exists_lcn hcov
  have hmrk := hunr ext.start hcov (hbd.2.1.trans_le hread.1)
  rw [hread.2 ext.start hcov, hlcn, Option.some.injEq] at hmrk
  exact absurd hge (by rw [hmrk]; decide)

theorem base_stop_lt (hext : ext ∈ stream.extents) (hread : WhollyRead rl ext)
    (hunr : Unread rl stream.base) : stream.base.stop < stream.stop := by
  have hbd := stream.bounds hext
  refine lt_of_le_of_ne (stream.bounds stream.base_mem).2.2 fun heq => ?_
  have hcov : stream.base.Covers ext.start := ⟨stream.base_start.trans_le hbd.1, by omega⟩
  obtain rfl := stream.eq_of_covers hext stream.base_mem ⟨le_rfl, hbd.2.1⟩ hcov
  exact hread.not_unread hext hunr

theorem Reached.fitsBase (hrch : Reached stream rl) (hmore : stream.base.stop < stream.stop)
    (hunr : Unread rl stream.base) :
    ∃ first after, FitsBase rl (stream.baseSource hmore) first after := by
  have hst := stream.base_start
  have hpos := rl.last_vcn_pos
  have hstop : stream.base.stop ≤ rl.last.vcn :=
    (hrch.last_le_or stream.base_mem).resolve_left (by omega)
  obtain ⟨before, run, after, hruns, hlcn, hlow, hhigh⟩ :=
    hrch.exists_gap stream.base_mem hunr hstop
  have hch := rl.chain
  rw [hruns, chain_append] at hch
  obtain ⟨middle, hbef, hvcn, -⟩ := hch
  have hnil : before = [] := by
    by_contra hne
    have hlt := hbef.lt hne
    omega
  rw [hnil] at hruns
  exact ⟨run, after, hruns, hlcn, hhigh, hrch.last_le⟩

/-- Assumes: memory, and a partly read runlist without the base extent. The merge reads the base
extent. -/
theorem Reached.merge_base (hrch : Reached stream rl) (htold : stream.BaseTold)
    (hmore : stream.base.stop < stream.stop) (hunr : Unread rl stream.base)
    (hmemory : ∀ bytes, allocator.succeeds bytes = true) (hdrl : drl.Holds rl.elements)
    (hsrl : srl.Holds (stream.base.record.decodedRuns vol ++
      [stream.base.record.decodedLast vol])) :
    ∃ (block : RlArray) (merged : Runlist),
      ntfsRunlistsMerge allocator (.block drl) (.block srl) = .done (.block block) ∧
      block.Holds merged.elements ∧ Reached stream merged ∧ WhollyRead merged stream.base := by
  rw [← stream.elements_baseSource htold hmore] at hsrl
  obtain ⟨first, after, hfits⟩ := hrch.fitsBase hmore hunr
  have hst : (stream.baseSource hmore).start = stream.base.start :=
    (stream.baseSource hmore).start_eq_zero.trans stream.base_start.symm
  have hle : stream.base.stop ≤ rl.last.vcn := hfits.le_first.trans (chain_first hfits).2.2.le
  -- The merge sets the end of the attribute, unless the runlist gets shorter.
  by_cases hshri : Shrinks (stream.baseSource hmore) first after
  · obtain ⟨-, hfail⟩ | ⟨block, merged, hdone, hh, habs, hlast⟩ :=
      mergeBlocks_base_shrinks hfits allocator hdrl hsrl hshri
    · exact absurd hmemory hfail
    · rw [hst] at habs
      refine ⟨block, merged, by simp only [ntfsRunlistsMerge, hdone], hh, ?_⟩
      exact hrch.absorb stream.base_mem habs (by rw [hlast]) (hlast ▸ hle)
        (hlast ▸ hrch.boundary) (hlast ▸ hrch.ends)
  · obtain ⟨-, hfail⟩ | ⟨block, merged, hdone, hh, habs, hlast, -⟩ :=
      mergeBlocks_base_grows hfits allocator hdrl hsrl hshri
    · exact absurd hmemory hfail
    · have hend : merged.last.vcn = stream.stop := hlast
      obtain ⟨final, hfin, hstop⟩ := stream.exists_last
      rw [hst] at habs
      refine ⟨block, merged, by simp only [ntfsRunlistsMerge, hdone], hh, ?_⟩
      exact hrch.absorb stream.base_mem habs (hend ▸ hrch.last_le) (hend ▸ hmore.le)
        ⟨final, hfin, hend.trans hstop.symm⟩ fun _ => hend

end

/-! ### Queries -/

section

variable {vol : NtfsVolume} (stream : Attribute vol)
variable {ni : NtfsInode} {block : RlArray} {ext : Extent} {list : Runlist}

/-- The cluster of a vcn: that of the runs of all extents, and no entry behind them. -/
def lcnOfStream (vcn : ℤ) : ℤ := (lcnIn stream.runs vcn).getD lcnEnoent

/-- The runlist of an inode after some queries: none, or one with extents of the attribute. -/
def ReadSome (rl : RlPtr) : Prop :=
  (rl = .null) ∨ ∃ (block : RlArray) (list : Runlist), rl = .block block ∧
    block.Holds list.elements ∧ Reached stream list ∧ ∃ ext ∈ stream.extents, WhollyRead list ext

/-- The mft records can be read, and the lookup finds an extent for every vcn: the one that covers
it, and some extent for a vcn behind the attribute. -/
structure Serves (view : MftView) : Prop where
  mapMftRecord : view.mapMftRecord = .ok ()
  getSearchCtx : view.getSearchCtx = true
  attrLookup : ∀ vcn, 0 ≤ vcn → ∃ ext ∈ stream.extents, view.attrLookup vcn = .ok ext.record ∧
    (vcn < stream.stop → ext.Covers vcn)

variable {stream} {rl : RlPtr} {vcn : ℤ}

theorem lcnOfStream_of_covers (hext : ext ∈ stream.extents) (hcov : ext.Covers vcn) :
    lcnIn ext.runs vcn = some (lcnOfStream stream vcn) ∧ lcnHole ≤ lcnOfStream stream vcn := by
  obtain ⟨lcn, hlcn, hge⟩ := ext.exists_lcn hcov
  rw [lcnOfStream, stream.lcnIn_runs hext hcov, hlcn]
  exact ⟨rfl, hge⟩

theorem lcnOfStream_of_le (hle : stream.stop ≤ vcn) : lcnOfStream stream vcn = lcnEnoent := by
  have hch : Chain 0 stream.runs stream.stop := Extent.chain_flatMap stream.chain
  rw [lcnOfStream, hch.lcnIn_eq_none (.inr hle), getD_none]

theorem lcnOfStream_cases (hvcn : 0 ≤ vcn) :
    lcnHole ≤ lcnOfStream stream vcn ∨ lcnOfStream stream vcn = lcnEnoent := by
  by_cases hlt : vcn < stream.stop
  · obtain ⟨ext, hext, hcov⟩ := stream.exists_covers hvcn hlt
    exact .inl (lcnOfStream_of_covers hext hcov).2
  · exact .inr (lcnOfStream_of_le (not_lt.mp hlt))

theorem convert_eq (hlk : lcnOfPtr ni.rl vcn = some lcn)
    (hset : lcnHole ≤ lcn ∨ lcn = lcnRlNotMapped ∨ lcn = lcnEnoent) :
    convert ni vcn = .ok lcn := by
  simp only [convert, hlk, if_pos hset]

theorem lookup_of_whollyRead (hh : block.Holds list.elements) (hext : ext ∈ stream.extents)
    (hread : WhollyRead list ext) (hcov : ext.Covers vcn) :
    block.lookup vcn = some (lcnOfStream stream vcn) := by
  have hvcn : 0 ≤ vcn := (stream.bounds hext).1.trans hcov.1
  rw [hh.lookup_eq hvcn, list.lookup_eq hvcn, hread.2 vcn hcov,
    (lcnOfStream_of_covers hext hcov).1, getD_some]

/-- A lookup gives the cluster of the attribute, or that the vcn is unmapped. -/
theorem ReadSome.lookup (hread : ReadSome stream rl) (hvcn : 0 ≤ vcn) :
    lcnOfPtr rl vcn = some (lcnOfStream stream vcn) ∨ lcnOfPtr rl vcn = some lcnRlNotMapped := by
  rcases hread with rfl | ⟨block, list, rfl, hh, hrch, -⟩
  · exact .inr (if_neg (not_lt.mpr hvcn))
  change block.lookup vcn = _ ∨ block.lookup vcn = _
  by_cases hlast : list.last.vcn ≤ vcn
  · rw [hh.lookup_eq hvcn, list.lookup_of_le hlast]
    rcases list.last_lcn with hend | hopen
    · rw [lcnOfStream_of_le (hrch.ends hend ▸ hlast), hend]
      exact .inl rfl
    · exact .inr (congrArg some hopen)
  · rw [not_le] at hlast
    obtain ⟨ext, hext, hcov⟩ := stream.exists_covers hvcn (hlast.trans_le hrch.last_le)
    rcases hrch.extents ext hext with hunr | hread
    · refine .inr ?_
      rw [hh.lookup_eq hvcn, list.lookup_eq hvcn, hunr vcn hcov hlast, getD_some]
    · exact .inl (lookup_of_whollyRead hh hext hread hcov)

theorem unread_of_lookup (hh : block.Holds list.elements) (hrch : Reached stream list)
    (hext : ext ∈ stream.extents) (hcov : ext.Covers vcn)
    (hunm : block.lookup vcn = some lcnRlNotMapped) : Unread list ext := by
  refine (hrch.extents ext hext).resolve_right fun hread => ?_
  have hge := (lcnOfStream_of_covers hext hcov).2
  rw [lookup_of_whollyRead hh hext hread hcov, Option.some.injEq] at hunm
  exact absurd hge (by rw [hunm]; decide)

variable {allocator : Allocator} (hmemory : ∀ bytes, allocator.succeeds bytes = true)
include hmemory

theorem ReadSome.decompress (hread : ReadSome stream rl) (hext : ext ∈ stream.extents)
    (htold : ext.start = 0 → stream.BaseTold)
    (hroom : ∀ block list, rl = .block block → block.Holds list.elements → ¬ Overreads list ext)
    (hcov : ext.Covers vcn) (hunm : lcnOfPtr rl vcn = some lcnRlNotMapped) :
    ∃ block : RlArray, (ntfsMappingPairsDecompress allocator vol ext.record rl).result =
        .ok (.block block) ∧ ReadSome stream (.block block) ∧
      block.lookup vcn = some (lcnOfStream stream vcn) := by
  obtain ⟨srl, hsrl, hres⟩ := decompress_eq_combine hmemory (stream.decodes hext).1
  rw [hres]
  suffices hcomb : ∃ (block : RlArray) (list : Runlist),
      combine allocator srl rl = .ok (.block block) ∧ block.Holds list.elements ∧
        Reached stream list ∧ WhollyRead list ext by
    obtain ⟨block, list, hblk, hh, hrch, hwh⟩ := hcomb
    exact ⟨block, hblk, .inr ⟨block, list, rfl, hh, hrch, ext, hext, hwh⟩,
      lookup_of_whollyRead hh hext hwh hcov⟩
  rcases hread with rfl | ⟨drl, list, rfl, hh, hrch, other, hoth, hwh⟩
  · obtain ⟨list, helt, hlist⟩ := exists_decoded htold hext
    exact ⟨srl, list, rfl, helt ▸ hsrl, hlist⟩
  · have hunr := unread_of_lookup hh hrch hext hcov hunm
    obtain ⟨block, merged, hdone, hmerged⟩ : ∃ (block : RlArray) (merged : Runlist),
        ntfsRunlistsMerge allocator (.block drl) (.block srl) = .done (.block block) ∧
          block.Holds merged.elements ∧ Reached stream merged ∧ WhollyRead merged ext := by
      by_cases hbase : ext.start = 0
      · obtain rfl := stream.eq_base hext hbase
        exact hrch.merge_base (htold hbase) (base_stop_lt hoth hwh hunr) hunr hmemory hh hsrl
      · exact hrch.merge_extent (hroom drl list rfl hh) hext hbase hunr hmemory hh hsrl
    exact ⟨block, merged, by simp only [combine, hdone], hmerged⟩

omit hmemory

theorem s64_highestVcn (hext : ext ∈ stream.extents) :
    s64 (ext.record.highestVcn + 1) = ext.stop := by
  rw [ext.highestVcn_eq, sub_add_cancel]
  exact s64_of_isS64 (stream.stop_isS64_of_mem hext)

/-- The state of an inode of the attribute after some queries. -/
structure Follows (stream : Attribute vol) (ni : NtfsInode) : Prop where
  vol_eq : ni.vol = vol
  allocatedSize_eq : ni.allocatedSize = stream.base.record.allocatedSize
  readSome : ReadSome stream ni.rl

/-- The step that a query of the vcn takes in this state meets neither of two defects. If it has to
map an extent, then that is not a base extent of a single cluster with others behind it, which the
driver takes for the only one, and the merge does not read behind the runlist. -/
structure Admitted (stream : Attribute vol) (ni : NtfsInode) (vcn : ℤ) : Prop where
  nonneg : 0 ≤ vcn
  told : lcnOfPtr ni.rl vcn = some lcnRlNotMapped → vcn < stream.base.stop → stream.BaseTold
  room : lcnOfPtr ni.rl vcn = some lcnRlNotMapped → ∀ ext ∈ stream.extents, ext.Covers vcn →
    ∀ block list, ni.rl = .block block → block.Holds list.elements → ¬ Overreads list ext

variable {view : MftView} (hserves : Serves stream view)
include hserves

theorem Serves.extentFor (ni : NtfsInode) (hvcn : 0 ≤ vcn) : ∃ ext ∈ stream.extents,
    extentFor view ni vcn none = .ok ext.record ∧ (vcn < stream.stop → ext.Covers vcn) := by
  obtain ⟨ext, hext, hlk, hcov⟩ := hserves.attrLookup vcn hvcn
  refine ⟨ext, hext, ?_, hcov⟩
  simp only [LazyRunlistMapping.extentFor, lookupExtent, hserves.mapMftRecord,
    hserves.getSearchCtx, hlk]
  rfl

theorem mapRunlist_behind (ni : NtfsInode) (hle : stream.stop ≤ vcn) :
    ntfsMapRunlistNolock allocator view ni vcn none = (.error (.errno .enoent), ni) := by
  have hpos := stream.stop_pos
  obtain ⟨ext, hext, hexte, -⟩ := hserves.extentFor ni (show 0 ≤ vcn by omega)
  have hstop := (stream.bounds hext).2.2
  have hbeh : vcn ≠ 0 ∧ s64 (ext.record.highestVcn + 1) ≤ vcn := by
    rw [s64_highestVcn hext]
    exact ⟨by omega, by omega⟩
  simp only [ntfsMapRunlistNolock, hexte, if_pos hbeh]

include hmemory

theorem Follows.mapRunlist (hfol : Follows stream ni) (hadm : Admitted stream ni vcn)
    (hlt : vcn < stream.stop) (hunm : lcnOfPtr ni.rl vcn = some lcnRlNotMapped) :
    ∃ ni', ntfsMapRunlistNolock allocator view ni vcn none = (.ok (), ni') ∧ Follows stream ni' ∧
      lcnOfPtr ni'.rl vcn = some (lcnOfStream stream vcn) := by
  obtain ⟨ext, hext, hexte, hcov⟩ := hserves.extentFor ni hadm.nonneg
  have htold : ext.start = 0 → stream.BaseTold := fun hbase =>
    hadm.told hunm (stream.eq_base hext hbase ▸ (hcov hlt).2)
  obtain ⟨block, hres, hread, hlk⟩ := hfol.readSome.decompress hmemory hext htold
    (hadm.room hunm ext hext (hcov hlt)) (hcov hlt) hunm
  have hin : ¬ (vcn ≠ 0 ∧ s64 (ext.record.highestVcn + 1) ≤ vcn) := by
    rw [s64_highestVcn hext]
    exact fun hbeh => absurd hbeh.2 (not_le.mpr (hcov hlt).2)
  refine ⟨{ ni with rl := .block block }, ?_, ⟨hfol.vol_eq, hfol.allocatedSize_eq, hread⟩, hlk⟩
  simp only [ntfsMapRunlistNolock, hexte, if_neg hin, hfol.vol_eq, hres]

/-- Every admitted query gets the cluster of the attribute, whatever has been read before. -/
theorem Follows.query (hfol : Follows stream ni) (hadm : Admitted stream ni vcn) :
    (ntfsAttrVcnToLcnNolock allocator view ni vcn).1 = .ok (lcnOfStream stream vcn) ∧
      Follows stream (ntfsAttrVcnToLcnNolock allocator view ni vcn).2 := by
  have hvcn := hadm.nonneg
  have hsize : ¬ (isNull ni.rl = true ∧ ni.allocatedSize = 0) := by
    rw [hfol.allocatedSize_eq, stream.allocatedSize_eq]
    have hpos : 0 < stream.stop * vol.clusterSize :=
      mul_pos stream.stop_pos (pow_pos (by decide) _)
    exact fun hzero => hpos.ne' hzero.2
  have hcs : lcnHole ≤ lcnOfStream stream vcn ∨ lcnOfStream stream vcn = lcnEnoent :=
    lcnOfStream_cases hvcn
  have hmapp : lcnOfStream stream vcn ≠ lcnRlNotMapped := by
    unfold lcnHole lcnEnoent at hcs
    unfold lcnRlNotMapped
    omega
  unfold ntfsAttrVcnToLcnNolock
  rw [if_neg (not_lt.mpr hvcn), if_neg hsize]
  rcases hfol.readSome.lookup hvcn with hkn | hunm
  · simp only [convert_eq hkn (hcs.imp_right .inr), if_pos hmapp]
    exact ⟨trivial, hfol⟩
  · simp only [convert_eq hunm (.inr (.inl rfl)), ne_eq]
    by_cases hlt : vcn < stream.stop
    · obtain ⟨ni', hmap, hfol', hlk⟩ :=
        hfol.mapRunlist hmemory hserves hadm hlt hunm
      simp only [hmap]
      exact ⟨convert_eq hlk (hcs.imp_right .inr), hfol'⟩
    · have hle := not_lt.mp hlt
      simp only [mapRunlist_behind hserves ni hle, lcnOfStream_of_le hle]
      exact ⟨rfl, hfol⟩

end

/-! ### Order independence -/

section

variable {vol : NtfsVolume} (stream : Attribute vol)

def unmappedInode : NtfsInode := ⟨vol, stream.base.record.allocatedSize, .null⟩

theorem follows_unmappedInode : Follows stream (unmappedInode stream) := ⟨rfl, rfl, .inl rfl⟩

/-- The attribute is the runlist split into extents: the runs of the extents map what its runs map,
and it ends with them. -/
structure SplitOf (full : Runlist) : Prop where
  last_eq : full.last = ⟨stream.stop, lcnEnoent, 0⟩
  lcnIn_eq : ∀ vcn, lcnIn stream.runs vcn = lcnIn full.runs vcn

variable {stream} in
theorem Follows.admitted {ni : NtfsInode} (hfollows : Follows stream ni) (htold : stream.BaseTold)
    (hcount : stream.runs.length < 340) {vcn : ℤ} (hvcn : 0 ≤ vcn) : Admitted stream ni vcn where
  nonneg := hvcn
  told _ _ := htold
  room _ ext hext _ block list hblock hholds := by
    rcases hfollows.readSome with hnull | ⟨other, reached, hother, hheld, hreached, -⟩
    · rw [hnull] at hblock
      cases hblock
    · obtain rfl := RlPtr.block.inj (hother.symm.trans hblock)
      obtain ⟨hruns, hlast⟩ := RlArray.Holds.runs_eq hheld hholds
      have hroom := hreached.not_overreads hcount hext
      unfold Overreads Runlist.elements at hroom ⊢
      rwa [hruns, hlast] at hroom

/-- Assumes: memory, and a mft that finds the extent of every vcn. In every run in which no query
meets one of the two defects, the queries get, in any order, the clusters of the full runlist. -/
theorem queries_eq_lookup (full : Runlist) (hsplit : SplitOf stream full) (allocator : Allocator)
    (hmemory : ∀ bytes, allocator.succeeds bytes = true) (view : MftView)
    (hserves : Serves stream view) (queries : List ℤ)
    (hqueries : Throughout (ntfsAttrVcnToLcnNolock allocator view) (Admitted stream)
      (unmappedInode stream) queries) :
    (answers (ntfsAttrVcnToLcnNolock allocator view) (unmappedInode stream) queries).map
      Except.toOption = queries.map full.lookup := by
  refine answers_eq_map (fun {ni vcn} hfollows hadmitted => ?_)
    (follows_unmappedInode stream) hqueries
  obtain ⟨hanswer, hnext⟩ := Follows.query hmemory hserves hfollows hadmitted
  refine ⟨?_, hnext⟩
  rw [hanswer, full.lookup_eq hadmitted.nonneg, hsplit.last_eq, ← hsplit.lcnIn_eq]
  rfl

def fullRunlist : Runlist where
  runs := stream.runs
  last := stream.terminator
  runs_ne_nil hnil := stream.base.runs_ne_nil (List.flatMap_eq_nil_iff.mp hnil _ stream.base_mem)
  chain := Extent.chain_flatMap stream.chain
  last_length := stream.terminator_length
  last_lcn := stream.terminator_lcn
  last_vcn_isS64 := stream.stop_isS64
  lcn_isS64 run hrun := by
    obtain ⟨ext, -, hmem⟩ := List.mem_flatMap.mp hrun
    exact ext.lcn_isS64 hmem

theorem splitOf_fullRunlist : SplitOf stream (fullRunlist stream) := ⟨rfl, fun _ => rfl⟩

def mftOf : MftView where
  mapMftRecord := .ok ()
  getSearchCtx := true
  attrLookup vcn :=
    .ok ((stream.extents.find? fun ext => decide (ext.Covers vcn)).getD stream.base).record

theorem serves_mftOf : Serves stream (mftOf stream) where
  mapMftRecord := rfl
  getSearchCtx := rfl
  attrLookup vcn hvcn := by
    rcases hfind : stream.extents.find? fun ext => decide (ext.Covers vcn) with _ | ext
    · refine ⟨stream.base, stream.base_mem, by simp only [mftOf, hfind, getD_none], fun hlt => ?_⟩
      obtain ⟨ext, hext, hcov⟩ := stream.exists_covers hvcn hlt
      exact absurd (decide_eq_true hcov) (List.find?_eq_none.mp hfind ext hext)
    · have hcov := List.find?_some hfind
      exact ⟨ext, List.mem_of_find?_eq_some hfind, by simp only [mftOf, hfind, getD_some],
        fun _ => of_decide_eq_true hcov⟩

end

def onePair (clusters lcn : ℤ) (i : ℕ) : UInt8 :=
  [0x11, lowByte clusters, lowByte lcn].getD (i - 64) 0

theorem encodes_onePair (start : ℤ) {clusters : ℤ} (hclus : 0 < clusters ∧ clusters < 2 ^ 7)
    (hlcn : 0 ≤ lcn ∧ lcn < 2 ^ 7) :
    Encodes (onePair clusters lcn) 72 64 0 [⟨start, lcn, clusters⟩] := by
  have hbyte : ∀ x : ℤ, 0 ≤ x → x < 2 ^ 7 → signedLe (lowBytes (0 + 1) x) = x := fun x hlow hhigh =>
    signedLe_lowBytes (by norm_num; omega) (by norm_num; omega)
  have hlen := hbyte clusters hclus.1.le hclus.2
  have hdelta := hbyte lcn hlcn.1 hlcn.2
  have hends : 64 + (MappingPair.mk (lowBytes 1 clusters) (lowBytes 1 lcn)).size = 67 := by
    simp [MappingPair.size]
  have hhdr : (0x11 : UInt8) = UInt8.ofNat (1 <<< 4 ||| 1) := by decide
  refine ⟨⟨lowBytes 1 clusters, lowBytes 1 lcn⟩, ⟨hhdr, rfl, rfl, trivial⟩, ?_, ?_⟩
  · exact ⟨lowBytes_ne_nil one_ne_zero _, by simp, by simp, hlen,
      .inr ⟨hlcn.1, lowBytes_ne_nil one_ne_zero _, by rw [sub_zero]; exact hdelta⟩⟩
  · rw [hends]
    exact ⟨by decide, rfl⟩

def oneRun (allocatedSize start clusters lcn : ℤ)
    (hwords : IsS64 allocatedSize ∧ 0 ≤ start ∧ start + clusters < 2 ^ 63)
    (hclusters : 0 < clusters ∧ clusters < 2 ^ 7) (hlcn : 0 ≤ lcn ∧ lcn < 2 ^ 7) : Extent where
  record :=
    { length := 72
      mappingPairsOffset := 64
      lowestVcn := start
      highestVcn := start + clusters - 1
      allocatedSize := allocatedSize
      bytes := onePair clusters lcn
      length_le := (smallRecord []).length_le
      lowestVcn_isS64 := ⟨by omega, by omega⟩
      highestVcn_isS64 := ⟨by omega, by omega⟩
      allocatedSize_isS64 := hwords.1 }
  runs := [⟨start, lcn, clusters⟩]
  stop := start + clusters
  runs_ne_nil := List.cons_ne_nil _ _
  chain := ⟨rfl, hclusters.1, rfl⟩
  encodes := encodes_onePair start hclusters hlcn
  highestVcn_eq := rfl
  lcn_ge run hrun := by
    rw [List.mem_singleton.mp hrun]
    exact le_trans (by decide) hlcn.1
  lcn_le run hrun := by
    rw [List.mem_singleton.mp hrun]
    change lcn + clusters ≤ 2 ^ 63
    omega

theorem twoExtents_bounds {clusters : ℤ} (hclusters : 0 < clusters ∧ clusters < 2 ^ 7) :
    (IsS64 ((clusters + 1) * 4096) ∧ 0 ≤ (0 : ℤ) ∧ 0 + clusters < 2 ^ 63) ∧
      (IsS64 0 ∧ 0 ≤ clusters ∧ clusters + 1 < 2 ^ 63) ∧ IsS64 (clusters + 1) := by
  unfold IsS64
  omega

theorem twoExtents_spans {clusters : ℤ} (hpos : 0 < clusters) : 0 < 0 + clusters - 0 ∧
    clusters = 0 + (0 + clusters - 0) ∧ 0 < clusters + 1 - clusters ∧
      0 + (0 + clusters - 0) + (clusters + 1 - clusters) = clusters + 1 := by
  omega

def twoExtents (clusters : ℤ) (hclusters : 0 < clusters ∧ clusters < 2 ^ 7) :
    Attribute smallVolume where
  base := oneRun ((clusters + 1) * 4096) 0 clusters 100 (twoExtents_bounds hclusters).1 hclusters
    (by decide)
  more := [oneRun 0 clusters 1 5 (twoExtents_bounds hclusters).2.1 (by decide) (by decide)]
  stop := clusters + 1
  chain := ⟨rfl, twoExtents_spans hclusters.1⟩
  stop_isS64 := (twoExtents_bounds hclusters).2.2
  allocatedSize_eq := rfl

/-- A base extent of two clusters and the extent behind it are read in any order. -/
theorem queries_twoClusterBase :
    (answers (ntfsAttrVcnToLcnNolock plenty (mftOf (twoExtents 2 (by decide))))
        (unmappedInode (twoExtents 2 (by decide))) [2, 5, 0, 1]).map Except.toOption =
      [2, 5, 0, 1].map (fullRunlist (twoExtents 2 (by decide))).lookup :=
  queries_eq_lookup _ _ (splitOf_fullRunlist _) plenty plenty_succeeds _ (serves_mftOf _) _
    (Throughout.of_invariant
      (fun hfollows hadmitted =>
        (Follows.query plenty_succeeds (serves_mftOf _) hfollows hadmitted).2)
      (follows_unmappedInode _)
      fun vcn hvcn {_} hfollows =>
        hfollows.admitted (.inr (by decide)) (by decide)
          ((by decide : ∀ vcn ∈ [2, 5, 0, 1], (0 : ℤ) ≤ vcn) vcn hvcn))

/-- A base extent of one cluster is taken for the only extent, so that the cluster behind it is not
found once the base extent has been read. -/
theorem queries_oneClusterBase :
    SplitOf (twoExtents 1 (by decide)) (fullRunlist (twoExtents 1 (by decide))) ∧
    Serves (twoExtents 1 (by decide)) (mftOf (twoExtents 1 (by decide))) ∧
    (answers (ntfsAttrVcnToLcnNolock plenty (mftOf (twoExtents 1 (by decide))))
        (unmappedInode (twoExtents 1 (by decide))) [0, 1]).map Except.toOption =
      [some 100, some lcnEnoent] ∧
    [0, 1].map (fullRunlist (twoExtents 1 (by decide))).lookup = [some 100, some 5] :=
  ⟨splitOf_fullRunlist _, serves_mftOf _, by decide +kernel⟩

end AdvancedOs.Ntfs.LazyRunlistMapping
