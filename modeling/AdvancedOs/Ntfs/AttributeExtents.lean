import AdvancedOs.Ntfs.MappingPairsBuild
import AdvancedOs.Ntfs.RunlistEndMarker

/-!
# The extents of an attribute

The mapping of a large attribute is spread over several attribute records. An `Extent` is one of
them: a record whose mapping pairs encode the runs from its lowest to its highest vcn. An
`Attribute` is a base extent and more extents that follow one another from vcn zero on; the base
extent has the allocated size of the whole. No vcn belongs to two extents
(`Attribute.eq_of_covers`), none starts or ends inside another, and the runs of all of them map a
vcn as those of its own extent do (`Attribute.lcnIn_runs`).

The decoder makes of every extent a list that is unmapped but for the runs of the extent
(`Attribute.decoded_eq`). Only the base extent knows where the attribute ends, and it is told from
the only extent of an attribute by a highest vcn that is not zero, which a base extent of one
cluster does not have (`Attribute.BaseTold`).
-/

namespace AdvancedOs.Ntfs.AttributeExtents

open Foundation.ArraySegments Foundation.LoggedReads Foundation.SignedWords RunlistElements
  RunlistMerge RunlistMergeRoutines RunlistCoalescing RunlistMergeMap RunlistEndMarker MappingPairs
  MappingPairsSoundness MappingPairsBuild List

/-! ### Extents -/

variable {first last vcn : ℤ}

theorem exists_lcn_of_chain {runs : List RunlistElement} (hch : Chain first runs last)
    (hge : ∀ run ∈ runs, lcnHole ≤ run.lcn) (hle : ∀ run ∈ runs, run.lcn + run.length ≤ 2 ^ 63)
    (hlow : first ≤ vcn) (hhigh : vcn < last) :
    ∃ lcn, lcnIn runs vcn = some lcn ∧ lcnHole ≤ lcn := by
  obtain ⟨before, run, after, hruns, hrun, hlcn⟩ := hch.exists_covers hlow hhigh
  have hmem : run ∈ runs := by simp [hruns]
  have hrunGe := hge run hmem
  have hrunLe := hle run hmem
  refine ⟨_, hlcn, ?_⟩
  unfold RunlistElement.lcnAt
  unfold RunlistElement.Covers at hrun
  split_ifs with hmap
  · have hofs : s64 (vcn - run.vcn) = vcn - run.vcn := s64_of_isS64 ⟨by omega, by omega⟩
    have hsum : s64 (run.lcn + (vcn - run.vcn)) = run.lcn + (vcn - run.vcn) :=
      s64_of_isS64 ⟨by omega, by omega⟩
    rw [hofs, hsum]
    omega
  · exact hrunGe

/-- A valid extent: an attribute record whose mapping pairs encode the runs from its lowest to its
highest vcn. Every run is a hole or has clusters with 64-bit numbers. -/
structure Extent where
  record : AttrRecord
  runs : List RunlistElement
  stop : ℤ
  runs_ne_nil : runs ≠ []
  chain : Chain record.lowestVcn runs stop
  encodes : Encodes record.bytes record.length record.mappingPairsOffset 0 runs
  highestVcn_eq : record.highestVcn = stop - 1
  lcn_ge : ∀ run ∈ runs, lcnHole ≤ run.lcn
  lcn_le : ∀ run ∈ runs, run.lcn + run.length ≤ 2 ^ 63

namespace Extent

variable (ext : Extent)

def start : ℤ := ext.record.lowestVcn

def span : RunlistElement := ⟨ext.start, 0, ext.stop - ext.start⟩

def Covers (vcn : ℤ) : Prop := ext.start ≤ vcn ∧ vcn < ext.stop

instance (vcn : ℤ) : Decidable (ext.Covers vcn) := by
  unfold Covers
  infer_instance

theorem start_lt_stop : ext.start < ext.stop := ext.chain.lt ext.runs_ne_nil

theorem lcn_isS64 {run : RunlistElement} (hrun : run ∈ ext.runs) : IsS64 run.lcn := by
  have hge := ext.lcn_ge run hrun
  have hle := ext.lcn_le run hrun
  have hlen := (ext.chain.mem hrun).2.1
  unfold lcnHole at hge
  exact ⟨by omega, by omega⟩

theorem exists_lcn (hcov : ext.Covers vcn) :
    ∃ lcn, lcnIn ext.runs vcn = some lcn ∧ lcnHole ≤ lcn :=
  exists_lcn_of_chain ext.chain ext.lcn_ge ext.lcn_le hcov.1 hcov.2

variable {extents : List Extent}

/-- Extents that follow one another do not overlap. -/
theorem eq_of_covers (hch : Chain first (extents.map span) last) {ext other : Extent}
    (hext : ext ∈ extents) (hoth : other ∈ extents) (hcov : ext.Covers vcn)
    (hcov' : other.Covers vcn) : ext = other := by
  induction extents generalizing first with
  | nil => simp at hext
  | cons head tail ih =>
    obtain ⟨hst, -, htail⟩ := hch
    have hbeh : ∀ later ∈ tail, head.stop ≤ later.start := by
      intro later hlat
      have hspan := (htail.mem (mem_map_of_mem hlat)).1
      simp only [span] at hspan hst
      omega
    unfold Covers at hcov hcov'
    rcases List.mem_cons.mp hext with rfl | hmem <;> rcases List.mem_cons.mp hoth with rfl | hmem'
    · rfl
    · have hle := hbeh other hmem'
      omega
    · have hle := hbeh ext hmem
      omega
    · exact ih htail hmem hmem'

theorem chain_flatMap (hch : Chain first (extents.map span) last) :
    Chain first (extents.flatMap runs) last := by
  induction extents generalizing first with
  | nil => exact hch
  | cons head tail ih =>
    obtain ⟨hst, -, htail⟩ := hch
    rw [flatMap_cons, chain_append]
    refine ⟨head.stop, ?_, ?_⟩
    · rw [← hst]
      exact head.chain
    · refine ih ?_
      rw [← hst] at htail
      simp only [span] at htail
      rwa [add_sub_cancel] at htail

end Extent

/-! ### Attributes -/

/-- A non-resident attribute: a base extent and more extents, which follow one another from vcn zero
to `stop`. The base extent has the allocated size. -/
structure Attribute (vol : NtfsVolume) where
  base : Extent
  more : List Extent
  stop : ℤ
  chain : Chain 0 ((base :: more).map Extent.span) stop
  stop_isS64 : IsS64 stop
  allocatedSize_eq : base.record.allocatedSize = stop * vol.clusterSize

namespace Attribute

variable {vol : NtfsVolume} (stream : Attribute vol)
variable {ext other : Extent} {vcn : ℤ}

def extents : List Extent := stream.base :: stream.more

def runs : List RunlistElement := stream.extents.flatMap Extent.runs

theorem base_mem : stream.base ∈ stream.extents := by simp [extents]

theorem base_start : stream.base.start = 0 := stream.chain.1

theorem bounds (hext : ext ∈ stream.extents) :
    0 ≤ ext.start ∧ ext.start < ext.stop ∧ ext.stop ≤ stream.stop := by
  have hspan := stream.chain.mem (mem_map_of_mem hext)
  simp only [Extent.span] at hspan
  omega

theorem stop_pos : 0 < stream.stop := by
  have hbd := stream.bounds stream.base_mem
  omega

theorem stop_isS64_of_mem (hext : ext ∈ stream.extents) : IsS64 ext.stop := by
  have hbd := stream.bounds hext
  have hword := stream.stop_isS64.2
  exact ⟨by omega, by omega⟩

theorem exists_covers (hlow : 0 ≤ vcn) (hhigh : vcn < stream.stop) :
    ∃ ext ∈ stream.extents, ext.Covers vcn := by
  obtain ⟨before, run, after, hruns, hcov, -⟩ := stream.chain.exists_covers hlow hhigh
  have hmem : run ∈ stream.extents.map Extent.span := by simp [extents, hruns]
  obtain ⟨ext, hext, rfl⟩ := List.mem_map.mp hmem
  refine ⟨ext, hext, hcov.1, ?_⟩
  have hlt := hcov.2
  simp only [Extent.span] at hlt
  omega

/-- Extents do not overlap. -/
theorem eq_of_covers (hext : ext ∈ stream.extents) (hoth : other ∈ stream.extents)
    (hcov : ext.Covers vcn) (hcov' : other.Covers vcn) : ext = other :=
  Extent.eq_of_covers stream.chain hext hoth hcov hcov'

theorem start_le_or (hext : ext ∈ stream.extents) (hoth : other ∈ stream.extents) :
    other.start ≤ ext.start ∨ ext.stop ≤ other.start := by
  by_contra hin
  have hcov : ext.Covers other.start := ⟨by omega, by omega⟩
  rw [stream.eq_of_covers hext hoth hcov ⟨le_rfl, other.start_lt_stop⟩] at hin
  omega

theorem stop_le_or (hext : ext ∈ stream.extents) (hoth : other ∈ stream.extents) :
    other.stop ≤ ext.start ∨ ext.stop ≤ other.stop := by
  by_contra hin
  have hlt := other.start_lt_stop
  have hcov : ext.Covers (other.stop - 1) := ⟨by omega, by omega⟩
  rw [stream.eq_of_covers hext hoth hcov ⟨by omega, by omega⟩] at hin
  omega

theorem exists_next (hext : ext ∈ stream.extents) (hlt : ext.stop < stream.stop) :
    ∃ next ∈ stream.extents, next.start = ext.stop := by
  have hbd := stream.bounds hext
  obtain ⟨next, hnext, hcov⟩ := stream.exists_covers (by omega) hlt
  unfold Extent.Covers at hcov
  rcases stream.stop_le_or hnext hext with hle | hle
  · exact ⟨next, hnext, by omega⟩
  · omega

theorem exists_last : ∃ ext ∈ stream.extents, ext.stop = stream.stop := by
  have hpos := stream.stop_pos
  obtain ⟨ext, hext, hcov⟩ := stream.exists_covers (show 0 ≤ stream.stop - 1 by omega) (by omega)
  have hbd := stream.bounds hext
  unfold Extent.Covers at hcov
  exact ⟨ext, hext, by omega⟩

/-- Assumes: a vcn of an extent. The runs of the attribute give what those of the extent give. -/
theorem lcnIn_runs (hext : ext ∈ stream.extents) (hcov : ext.Covers vcn) :
    lcnIn stream.runs vcn = lcnIn ext.runs vcn := by
  obtain ⟨before, after, hspl⟩ := append_of_mem hext
  have hch := stream.chain
  change Chain 0 (stream.extents.map Extent.span) stream.stop at hch
  rw [hspl, map_append, map_cons, chain_append] at hch
  obtain ⟨middle, hbef, hst, -, haft⟩ := hch
  have hbef' := Extent.chain_flatMap hbef
  have haft' := Extent.chain_flatMap haft
  unfold Extent.Covers at hcov
  simp only [Extent.span] at hst haft'
  rw [runs, hspl, flatMap_append, flatMap_cons, lcnIn_append, lcnIn_append,
    hbef'.lcnIn_eq_none (by omega), haft'.lcnIn_eq_none (by omega), Option.none_or,
    Option.or_none]

theorem eq_base (hext : ext ∈ stream.extents) (hst : ext.start = 0) : ext = stream.base := by
  have hlt := ext.start_lt_stop
  have hlt' := stream.base.start_lt_stop
  have hcov : ext.Covers 0 := ⟨by omega, by omega⟩
  rw [stream.base_start] at hlt'
  exact stream.eq_of_covers hext stream.base_mem hcov ⟨stream.base_start.le, hlt'⟩

theorem exists_run_at_start (hext : ext ∈ stream.extents) :
    ∃ run ∈ stream.runs, run.vcn = ext.start := by
  obtain ⟨run, rest, hruns⟩ := exists_cons_of_ne_nil ext.runs_ne_nil
  have hch := ext.chain
  rw [hruns] at hch
  exact ⟨run, List.mem_flatMap.mpr ⟨ext, hext, by simp [hruns]⟩, hch.1⟩

/-! ### What the extents decode to -/

/-- The runlist that the decoder makes of an extent other than the base extent: unmapped up to the
extent, and open behind it. -/
def extentSource {ext : Extent} (hext : ext ∈ stream.extents) (hstart : ext.start ≠ 0) :
    ExtentSource where
  toSource := .fromZero [⟨0, lcnRlNotMapped, ext.start⟩] ext.runs [] ⟨ext.stop, lcnRlNotMapped, 0⟩
    (by simp [lcnRlNotMapped, lcnHole]) ext.runs_ne_nil
    (fun run hrun => ⟨ext.lcn_ge run hrun, ext.lcn_isS64 hrun⟩)
    (by
      refine ⟨rfl, lt_of_le_of_ne (stream.bounds hext).1 hstart.symm, ?_⟩
      rw [List.append_nil, zero_add]
      exact ext.chain)
    rfl (.inr rfl) (stream.stop_isS64_of_mem hext)
  lead_length_le := le_rfl
  lead_lcn := by simp [Source.fromZero]
  mapped_lcn := ext.lcn_ge
  trail_eq_nil := rfl
  last_lcn_eq := rfl

/-- The terminator behind all extents. -/
def terminator : RunlistElement := ⟨stream.stop, lcnEnoent, 0⟩

theorem terminator_length : stream.terminator.length = 0 := rfl

theorem terminator_lcn :
    stream.terminator.lcn = lcnEnoent ∨ stream.terminator.lcn = lcnRlNotMapped := .inl rfl

/-- The runlist that the decoder makes of the base extent when there are more extents: unmapped from
the end of the extent to the end of the attribute. -/
def baseSource (hmore : stream.base.stop < stream.stop) : BaseSource where
  toSource := .fromZero [] stream.base.runs
    [⟨stream.base.stop, lcnRlNotMapped, stream.stop - stream.base.stop⟩] stream.terminator
    (by simp [lcnRlNotMapped, lcnHole]) stream.base.runs_ne_nil
    (fun run hrun => ⟨stream.base.lcn_ge run hrun, stream.base.lcn_isS64 hrun⟩)
    (by
      rw [List.nil_append, chain_append]
      refine ⟨stream.base.stop, ?_, rfl, sub_pos.mpr hmore, add_sub_cancel _ _⟩
      have hchain := stream.base.chain
      rwa [show stream.base.record.lowestVcn = 0 from stream.base_start] at hchain)
    stream.terminator_length stream.terminator_lcn stream.stop_isS64
  rest := ⟨stream.base.stop, lcnRlNotMapped, stream.stop - stream.base.stop⟩
  lead_eq_nil := rfl
  origin_eq_zero := rfl
  mapped_lcn := stream.base.lcn_ge
  trail_eq := rfl
  rest_lcn := rfl
  last_lcn_eq := rfl

/-- The base extent does not look like that of an attribute with a single extent, unless it is one.
A highest vcn of zero is what the driver takes for a single extent. -/
def BaseTold : Prop := stream.base.stop = stream.stop ∨ 2 ≤ stream.base.stop

def unmappedRun (last : ℤ) : RunlistElement := ⟨0, lcnRlNotMapped, last⟩

/-- Where the runlist decoded from an extent ends: at the end of the attribute for the base
extent. -/
def decodedStop (ext : Extent) : ℤ := if ext.start = 0 then stream.stop else ext.stop

theorem stop_le_decodedStop (hext : ext ∈ stream.extents) :
    ext.stop ≤ stream.decodedStop ext ∧ stream.decodedStop ext ≤ stream.stop := by
  have hbd := stream.bounds hext
  unfold decodedStop
  split_ifs
  · exact ⟨hbd.2.2, le_rfl⟩
  · exact ⟨le_rfl, hbd.2.2⟩

theorem decodes (hext : ext ∈ stream.extents) :
    ext.record.Decodes vol ∧ runsOf ext.start 0 ext.record.pairs = ext.runs ∧
      vcnAfter ext.start ext.record.pairs = ext.stop := by
  have hbd := stream.bounds hext
  have hstop := stream.stop_isS64_of_mem hext
  have hsp := ext.encodes.spells ext.chain hbd.1 hstop (fun run hrun => ext.lcn_isS64 hrun)
    ⟨le_rfl, by decide⟩
  refine decodes_of_spells vol hsp ext.runs_ne_nil ext.chain hbd.1 hstop ext.highestVcn_eq
    fun hbase => ?_
  rw [stream.eq_base hext hbase, maxCluster_eq stream.stop_pos.le stream.allocatedSize_eq,
    stream.base.highestVcn_eq]
  have hstop := (stream.bounds stream.base_mem).2.2
  omega

theorem continues_iff (htold : ext.start = 0 → stream.BaseTold) (hext : ext ∈ stream.extents) :
    ext.record.Continues vol ↔ ext.start = 0 ∧ ext.stop < stream.stop := by
  refine and_congr_right fun hbase => ?_
  obtain rfl := stream.eq_base hext hbase
  have hbaseTold := htold hbase
  unfold BaseTold at hbaseTold
  rw [maxCluster_eq stream.stop_pos.le stream.allocatedSize_eq, stream.base.highestVcn_eq]
  omega

theorem rest_eq (htold : ext.start = 0 → stream.BaseTold) (hext : ext ∈ stream.extents) :
    ext.record.rest vol ext.stop = filler lcnRlNotMapped ext.stop (stream.decodedStop ext) ∧
      ext.record.endVcn vol ext.stop = stream.decodedStop ext := by
  unfold AttrRecord.rest AttrRecord.endVcn filler
  by_cases hcont : ext.start = 0 ∧ ext.stop < stream.stop
  · have hstop : stream.decodedStop ext = stream.stop := if_pos hcont.1
    have hpos := (stream.bounds hext).2.1
    have hword := stream.stop_isS64.2
    have hlen : s64 (maxCluster vol ext.record - ext.record.highestVcn) =
        stream.stop - ext.stop := by
      rw [stream.eq_base hext hcont.1,
        maxCluster_eq stream.stop_pos.le stream.allocatedSize_eq, stream.base.highestVcn_eq,
        sub_sub_sub_cancel_right, ← stream.eq_base hext hcont.1]
      exact s64_of_isS64 ⟨by omega, by omega⟩
    have hends : ¬ ext.stop = stream.stop := hcont.2.ne
    rw [if_pos ((stream.continues_iff htold hext).mpr hcont), hstop, hlen, if_neg hends,
      if_pos ((stream.continues_iff htold hext).mpr hcont), add_sub_cancel]
    exact ⟨rfl, s64_of_isS64 stream.stop_isS64⟩
  · have hstop : ext.stop = stream.decodedStop ext := by
      have hle := (stream.bounds hext).2.2
      unfold decodedStop
      split_ifs <;> omega
    have hends := mt (stream.continues_iff htold hext).mp hcont
    rw [if_neg hends, if_neg hends, if_pos hstop]
    exact ⟨rfl, hstop⟩

/-- Assumes: the base extent, if it is this one, is told from a single one. An extent decodes to its
runs in a list that is otherwise unmapped. The list of the base extent ends with the attribute, the
others are open behind the extent. -/
theorem decoded_eq (htold : ext.start = 0 → stream.BaseTold) (hext : ext ∈ stream.extents) :
    ext.record.decodedRuns vol =
        cutRun (unmappedRun (stream.decodedStop ext)) ext.start ext.stop ext.runs ∧
      ext.record.decodedLast vol = ⟨stream.decodedStop ext, endLcn ext.record, 0⟩ := by
  obtain ⟨-, hruns, hvcn⟩ := stream.decodes hext
  obtain ⟨hrest, hend⟩ := stream.rest_eq htold hext
  have hlead : ext.record.lead = filler lcnRlNotMapped 0 ext.start := by
    unfold AttrRecord.lead filler
    rw [sub_zero]
    exact if_congr eq_comm rfl rfl
  unfold AttrRecord.decodedRuns AttrRecord.decodedLast cutRun unmappedRun
  change ext.record.lead ++ runsOf ext.start 0 ext.record.pairs ++
      ext.record.rest vol (vcnAfter ext.start ext.record.pairs) = _ ∧
    RunlistElement.mk (ext.record.endVcn vol (vcnAfter ext.start ext.record.pairs)) _ 0 = _
  rw [hruns, hvcn, hlead, hrest, hend, append_assoc, zero_add]
  exact ⟨rfl, rfl⟩

theorem start_extentSource (hext : ext ∈ stream.extents) (hst : ext.start ≠ 0) :
    (stream.extentSource hext hst).start = ext.start := by
  obtain ⟨run, rest, hruns⟩ := exists_cons_of_ne_nil ext.runs_ne_nil
  have hch := ext.chain
  rw [hruns] at hch
  refine Eq.trans ?_ hch.1
  simp [Source.start, Source.first, extentSource, Source.fromZero, hruns]

theorem elements_extentSource (hext : ext ∈ stream.extents) (hst : ext.start ≠ 0) :
    (stream.extentSource hext hst).elements =
      ext.record.decodedRuns vol ++ [ext.record.decodedLast vol] := by
  obtain ⟨hruns, hlast⟩ := stream.decoded_eq (fun hbase => absurd hbase hst) hext
  have hstop : stream.decodedStop ext = ext.stop := if_neg hst
  have hlcn : endLcn ext.record = lcnRlNotMapped := if_neg hst
  rw [hruns, hlast, hstop, hlcn]
  simp [Source.elements, extentSource, Source.fromZero, cutRun, unmappedRun, filler, hst.symm]

theorem elements_baseSource (htold : stream.BaseTold) (hmore : stream.base.stop < stream.stop) :
    (stream.baseSource hmore).elements =
      stream.base.record.decodedRuns vol ++ [stream.base.record.decodedLast vol] := by
  obtain ⟨hruns, hlast⟩ := stream.decoded_eq (fun _ => htold) stream.base_mem
  have hstop : stream.decodedStop stream.base = stream.stop := if_pos stream.base_start
  have hlcn : endLcn stream.base.record = lcnEnoent := if_pos stream.base_start
  rw [hruns, hlast, hstop, hlcn, stream.base_start]
  simp [Source.elements, baseSource, Source.fromZero, terminator, cutRun, unmappedRun, filler,
    hmore.ne]

end Attribute

end AdvancedOs.Ntfs.AttributeExtents
