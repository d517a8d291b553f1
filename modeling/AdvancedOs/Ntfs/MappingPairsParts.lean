import AdvancedOs.Ntfs.MappingPairsBuild

/-!
# Parts of a runlist as mapping pairs

`ntfs_mapping_pairs_build` encodes the part of a runlist from `first_vcn` up to `last_vcn`, as far
as the buffer goes, and stores the vcn at which it stopped. `ntfsMappingPairsBuild_cases` is what it
leaves: a finished array when there is room for the size that `ntfs_get_size_for_mapping_pairs`
counts, and otherwise an array for what lies before the vcn stored.

`stopTold_iff` says when the vcn stored is the end of the array. It is not when the part asked for
ends inside a run: the run is cut there, but the vcn stored is that of the next element.

An attribute that does not fit into one record is spread over several: the array of each starts at
the vcn stored by the call before. `buildExtents_lossless` says that this ends, and that the arrays
decode, each as an extent of its own, to consecutive runs that together are the runlist.
-/

namespace AdvancedOs.Ntfs.MappingPairsParts

open Foundation.ArraySegments Foundation.SignedWords RunlistElements RunlistMergeRoutines
  RunlistMerge RunlistSurgery MappingPairs MappingPairsSoundness MappingPairsBuild List

/-- A runlist in which all clusters have numbers of 64 bits. -/
structure NumberedSequence extends RunSequence where
  clusters : ∀ run ∈ runs, 0 ≤ run.lcn → run.lcn + run.length ≤ 2 ^ 63

/-! ### A part that starts inside a run -/

section

variable {first lastVcn : ℤ} {run next : RunlistElement} {rest : List RunlistElement}

end

/-! ### What the encoder leaves -/

variable {dstLen i : ℕ} {rl : NumberedSequence} {first stop : ℤ} {attr : AttrRecord}

section

variable {first last lastVcn : ℤ} {before after : List RunlistElement} {run : RunlistElement}
  {built : Built} {attrEnd dst : ℕ} {prevLcn : ℤ}

end

/-- The buffers for the mapping pairs of the extents, in the order in which they are filled: what
they held before, where they start and how long they are. -/
structure Buffers where
  mem : ℕ → Memory
  dst : ℕ → ℕ
  dstLen : ℕ → ℕ

section

variable (vol : NtfsVolume) (rl : NumberedSequence) (buffers : Buffers)

/-- The vcn the array in a buffer starts at: vcn zero, then the vcn stored by the call before. -/
def startVcn : ℕ → ℤ
  | 0 => 0
  | i + 1 => (ntfsMappingPairsBuild vol (buffers.mem i) (buffers.dst i) (buffers.dstLen i)
      (some rl.elements) (startVcn i) (-1)).stopVcn.getD 0

def buildExtent (i : ℕ) : Built :=
  ntfsMappingPairsBuild vol (buffers.mem i) (buffers.dst i) (buffers.dstLen i) (some rl.elements)
    (startVcn vol rl buffers i) (-1)

/-- The runs that belong into a buffer: from where its array starts up to where the next one
does. -/
def extentRuns (i : ℕ) : List RunlistElement :=
  restrict (startVcn vol rl buffers i) (startVcn vol rl buffers (i + 1)) rl.runs

def RoomForOneMore : Prop :=
  ∀ i, 0 < buffers.dstLen i ∧ ∀ run ∈ rl.runs, run.vcn = startVcn vol rl buffers i →
    pairSize vol run.lcn run.length run.lcn < buffers.dstLen i

/-- The attribute record of an extent: it ends with the buffer and covers the vcns of its array. -/
structure IsExtent (attr : AttrRecord) (i : ℕ) : Prop where
  bytes : attr.bytes = (buildExtent vol rl buffers i).mem
  mappingPairsOffset : attr.mappingPairsOffset = buffers.dst i
  length : attr.length = buffers.dst i + buffers.dstLen i
  lowestVcn : attr.lowestVcn = startVcn vol rl buffers i
  highestVcn : attr.highestVcn = startVcn vol rl buffers (i + 1) - 1
  -- Only the record that begins at vcn zero has a size.
  allocatedSize : attr.lowestVcn = 0 → attr.allocatedSize = rl.last.vcn * vol.clusterSize

end

def DecodesTo (allocator : Allocator) (vol : NtfsVolume) (attr : AttrRecord)
    (runs : List RunlistElement) : Prop :=
  runs = [] ∧ (ntfsMappingPairsDecompress allocator vol attr .null).result = .ok .null ∨
    ∃ block front back last,
      (ntfsMappingPairsDecompress allocator vol attr .null).result = .ok (.block block) ∧
      block.Holds (front ++ runs ++ back ++ [last]) ∧ last.length = 0 ∧
      ∀ element ∈ front ++ back ++ [last], element.lcn < lcnHole

section

variable {vol : NtfsVolume} {rl : NumberedSequence} {buffers : Buffers}

theorem startVcn_succ (i : ℕ) :
    startVcn vol rl buffers (i + 1) = (buildExtent vol rl buffers i).stopVcn.getD 0 := rfl

theorem lt_stopVcn_buildLoop {run terminator : RunlistElement} {runs : List RunlistElement}
    {mem : Memory} {dst dstMax : ℕ} (hch : Chain first (run :: runs) terminator.vcn)
    (hvcn : 0 ≤ first) (hlast : IsS64 terminator.vcn) (hlen : terminator.length = 0)
    (hlcn : ∀ other ∈ run :: runs, IsS64 other.lcn)
    (hhole : ∀ other ∈ run :: runs, lcnHole ≤ other.lcn)
    (hroom : dst + pairSize vol run.lcn run.length run.lcn ≤ dstMax)
    (hstop : (buildLoop vol dstMax (-1) (run :: runs ++ [terminator]) mem dst 0 false).stopVcn =
      some stop) : first < stop := by
  obtain ⟨hst, hpos, htail⟩ := hch
  obtain ⟨hrunLcn, hlcn'⟩ := forall_mem_cons.mp hlcn
  obtain ⟨hrunHole, hhole'⟩ := forall_mem_cons.mp hhole
  obtain ⟨next, rest, hcons, -⟩ := htail.exists_cons []
  have hcapp : cappedLength (-1) run next = (run.length, false) := if_neg (by omega)
  have hchg : s64 (run.lcn - 0) = run.lcn := by rw [sub_zero, s64_of_isS64 hrunLcn]
  have hle := htail.le
  have hbound := hlast.2
  obtain ⟨after, ⟨hfits, hwr, -⟩ | ⟨hfull, -⟩⟩ := stored_writePair vol mem dst dstMax run.lcn
    (show IsS64 run.length from ⟨by omega, by omega⟩) hrunLcn
  · rw [cons_append, hcons, buildLoop_cons hpos hrunHole, hcapp, hchg, hwr, ← hcons] at hstop
    obtain ⟨size, -, -, hout⟩ := buildLoop_outcome htail (by omega) hlast hlen hlcn' hhole'
      (.inl rfl) vol after hfits (lcnCounted vol 0 run.lcn) 0
    rcases hout with ⟨-, hfin⟩ | ⟨-, hint⟩
    · obtain ⟨other, hoth, hleast⟩ := hfin.stop
      obtain rfl : stop = other := Option.some.inj (hstop.symm.trans hoth)
      have hbeh := hleast.1.1.le htail
      omega
    · obtain ⟨other, hoth, hbdy, -⟩ := hint.stop
      obtain rfl : stop = other := Option.some.inj (hstop.symm.trans hoth)
      have hbeh := hbdy.le htail
      omega
  · omega

/-- Assumes: a mapped runlist, room for one more run in every buffer, and an array that starts where
a run or the terminator does. Either it is the last one and goes to the end, or there is no room for
all, and the next one starts behind it where a run does. -/
theorem buildExtent_cases (hmap : ∀ run ∈ rl.runs, lcnHole ≤ run.lcn)
    (hroom : RoomForOneMore vol rl buffers)
    (hbdy : Boundary rl.runs rl.last.vcn (startVcn vol rl buffers i)) :
    Spells (buildExtent vol rl buffers i).mem (buffers.dst i + buffers.dstLen i) (buffers.dst i) 0
        (extentRuns vol rl buffers i) ∧
      ((buildExtent vol rl buffers i).status = .ok () ∧ startVcn vol rl buffers (i + 1) =
      rl.last.vcn ∨
        (buildExtent vol rl buffers i).status = .error (.errno .enospc) ∧
          startVcn vol rl buffers i < startVcn vol rl buffers (i + 1) ∧
          startVcn vol rl buffers (i + 1) < rl.last.vcn ∧
          Boundary rl.runs rl.last.vcn (startVcn vol rl buffers (i + 1))) := by
  obtain ⟨before, after, hruns, hbef, haft⟩ := hbdy.exists_append rl.stretch.chain
  obtain ⟨hlen, hfirstRoom⟩ := hroom i
  have hvcn := hbef.le
  have hword := rl.last_vcn_isS64
  have hmem : ∀ run ∈ after, run ∈ rl.runs := fun run hrun => by simp [hruns, hrun]
  have hbuild : buildExtent vol rl buffers i = buildLoop vol
      (buffers.dst i + buffers.dstLen i - 1) (-1) (after ++ [rl.last]) (buffers.mem i)
      (buffers.dst i) 0 false := by
    have hch := rl.stretch.chain
    rw [hruns] at hch
    rw [buildExtent, RunSequence.elements, hruns]
    exact ntfsMappingPairsBuild_eq hch rl.last_length haft hvcn (.inl rfl) vol _ _ hlen
  have hpart (stop : ℤ) : restrict (startVcn vol rl buffers i) stop rl.runs =
      restrict (startVcn vol rl buffers i) stop after := by
    rw [hruns, restrict_append, restrict_eq_nil_of_chain hbef (.inl le_rfl), nil_append]
  obtain ⟨size, -, -, hout⟩ := buildLoop_outcome haft hvcn hword rl.last_length
    (fun run hrun => rl.stretch.lcn_isS64 run (hmem run hrun))
    (fun run hrun => hmap run (hmem run hrun)) (.inl rfl) vol (buffers.mem i)
    (show buffers.dst i ≤ buffers.dst i + buffers.dstLen i - 1 by omega) 0 0
  rw [← hbuild, Nat.sub_add_cancel (by omega)] at hout
  rcases hout with ⟨-, hfin⟩ | ⟨-, hint⟩
  · obtain ⟨stop, hstop, hleast⟩ := hfin.stop
    have hend : startVcn vol rl buffers (i + 1) = rl.last.vcn := by
      rw [startVcn_succ, hstop]
      exact le_antisymm (hleast.2 ⟨.inl rfl, le_rfl⟩) hleast.1.2
    refine ⟨?_, .inl ⟨hfin.status, hend⟩⟩
    rw [extentRuns, hpart, hend]
    exact hfin.spells
  · obtain ⟨stop, hstop, hstopBound, hlt, hsp⟩ := hint.stop
    have hnext : startVcn vol rl buffers (i + 1) = stop := by
      rw [startVcn_succ, hstop]
      rfl
    have hwh : Boundary rl.runs rl.last.vcn stop :=
      hstopBound.imp_right (Exists.imp fun run => And.imp_left (hmem run))
    rw [extentRuns, hpart, hnext]
    refine ⟨hsp, .inr ⟨hint.status, ?_, hlt, hwh⟩⟩
    cases after with
    | nil =>
      rcases hstopBound with rfl | ⟨run, hrun, -⟩
      · exact absurd hlt (lt_irrefl _)
      · cases hrun
    | cons run after =>
      have hone := hfirstRoom run (hmem run (by simp)) haft.1
      rw [hbuild] at hstop
      exact lt_stopVcn_buildLoop haft hvcn hword rl.last_length
        (fun other hoth => rl.stretch.lcn_isS64 other (hmem other hoth))
        (fun other hoth => hmap other (hmem other hoth)) (by omega) hstop

/-- What holds of the arrays before a call when all calls so far ended for want of room: it starts
where a run or the terminator does, before the end of the runlist, and the arrays hold what lies
before. -/
structure FilledTo (vol : NtfsVolume) (rl : NumberedSequence) (buffers : Buffers)
    (i : ℕ) : Prop where
  boundary : Boundary rl.runs rl.last.vcn (startVcn vol rl buffers i)
  before_end : i = 0 ∨ startVcn vol rl buffers i < rl.last.vcn
  progress : (i : ℤ) ≤ startVcn vol rl buffers i
  runs_eq : (List.range i).flatMap (extentRuns vol rl buffers) =
    restrict 0 (startVcn vol rl buffers i) rl.runs

theorem filledTo_zero : FilledTo vol rl buffers 0 where
  boundary := by
    have hch := rl.stretch.chain
    cases hruns : rl.runs with
    | nil =>
      rw [hruns] at hch
      exact .inl hch
    | cons run runs =>
      rw [hruns] at hch
      exact .inr ⟨run, by simp, hch.1⟩
  before_end := .inl rfl
  progress := le_rfl
  runs_eq := (restrict_eq_nil _ le_rfl).symm

theorem FilledTo.append_extentRuns (hfil : FilledTo vol rl buffers i)
    (hle : startVcn vol rl buffers i ≤ startVcn vol rl buffers (i + 1)) :
    (List.range (i + 1)).flatMap (extentRuns vol rl buffers) =
      restrict 0 (startVcn vol rl buffers (i + 1)) rl.runs := by
  obtain ⟨before, after, hruns, hbef, haft⟩ := hfil.boundary.exists_append rl.stretch.chain
  rw [range_succ, flatMap_append, hfil.runs_eq, flatMap_singleton, extentRuns, hruns,
    restrict_append_restrict hbef haft hbef.le hle]

theorem FilledTo.succ (hfil : FilledTo vol rl buffers i) (hmap : ∀ run ∈ rl.runs, lcnHole ≤ run.lcn)
    (hroom : RoomForOneMore vol rl buffers)
    (hstat : (buildExtent vol rl buffers i).status ≠ .ok ()) : FilledTo vol rl buffers (i + 1) := by
  obtain ⟨-, ⟨hok, -⟩ | ⟨-, hlt, hend, hbdy⟩⟩ := buildExtent_cases hmap hroom hfil.boundary
  · exact absurd hok hstat
  · refine ⟨hbdy, .inr hend, ?_, hfil.append_extentRuns hlt.le⟩
    have hprog := hfil.progress
    omega

theorem lcn_lt_of_mem_frame {vcn : ℤ} {element : RunlistElement}
    (helem : element ∈ attr.lead ++ attr.rest vol vcn ++ [attr.decodedLast vol]) :
    element.lcn < lcnHole := by
  have hmark : lcnRlNotMapped < lcnHole ∧ lcnEnoent < lcnHole := by decide
  rcases mem_append.mp helem with hfr | hlast
  · have hlcn : element.lcn = lcnRlNotMapped := by
      rcases mem_append.mp hfr with hlead | hrest
      · unfold AttrRecord.lead at hlead
        split_ifs at hlead <;> simp_all
      · unfold AttrRecord.rest at hrest
        split_ifs at hrest <;> simp_all
    rw [hlcn]
    exact hmark.1
  · rw [mem_singleton.mp hlast]
    unfold AttrRecord.decodedLast endLcn
    split_ifs
    · exact hmark.2
    · exact hmark.1

theorem decodesTo_of_spells (hexte : IsExtent vol rl buffers attr i)
    (hsp : Spells (buildExtent vol rl buffers i).mem (buffers.dst i + buffers.dstLen i)
      (buffers.dst i) 0 (extentRuns vol rl buffers i))
    (hch : Chain (startVcn vol rl buffers i) (extentRuns vol rl buffers i)
      (startVcn vol rl buffers (i + 1))) (hlow : 0 ≤ startVcn vol rl buffers i)
    (hemp : extentRuns vol rl buffers i = [] → startVcn vol rl buffers i = 0)
    (hhigh : startVcn vol rl buffers (i + 1) ≤ rl.last.vcn) (allocator : Allocator)
    (hmemo : ∀ bytes, allocator.succeeds bytes = true) :
    DecodesTo allocator vol attr (extentRuns vol rl buffers i) := by
  rw [← hexte.bytes, ← hexte.length, ← hexte.mappingPairsOffset] at hsp
  rw [← hexte.lowestVcn] at hch hlow hemp
  by_cases hruns : extentRuns vol rl buffers i = []
  · have hnone : attr.Empty := by
      rw [hruns] at hsp
      exact ⟨hemp hruns, hsp.2⟩
    refine .inl ⟨hruns, ?_⟩
    unfold ntfsMappingPairsDecompress
    rw [decodeNew_of_empty allocator vol attr hsp.lt.le hnone]
  · have hend := hch.lt hruns
    have hword := rl.last_vcn_isS64.2
    obtain ⟨hdec, hpairs, -⟩ := decodes_of_spells vol hsp hruns hch hlow
      ⟨by omega, by omega⟩ hexte.highestVcn fun hbase => by
        rw [maxCluster_eq rl.last_vcn_nonneg (hexte.allocatedSize hbase), hexte.highestVcn]
        omega
    obtain ⟨block, hblk, hh⟩ := decompress_of_decodes hmemo hdec
    refine .inr ⟨block, attr.lead, attr.rest vol (vcnAfter attr.lowestVcn attr.pairs),
      attr.decodedLast vol, hblk, ?_, rfl, fun element helem => ?_⟩
    · rwa [AttrRecord.decodedRuns, hpairs] at hh
    · exact lcn_lt_of_mem_frame helem

/-- Assumes: a mapped runlist, and room in every buffer for one more run. Encoding it from vcn zero
on, each time from where the call before stopped, ends with success. The arrays are consecutive,
each decodes to its runs when it becomes an extent, and together these are the runlist. -/
theorem buildExtents_lossless (vol : NtfsVolume) (rl : NumberedSequence)
    (hmapped : ∀ run ∈ rl.runs, lcnHole ≤ run.lcn) (buffers : Buffers)
    (hroom : RoomForOneMore vol rl buffers) :
    ∃ n, (∀ i < n, (buildExtent vol rl buffers i).status = .error (.errno .enospc)) ∧
      (buildExtent vol rl buffers n).status = .ok () ∧
      startVcn vol rl buffers (n + 1) = rl.last.vcn ∧
      (∀ i ≤ n, Chain (startVcn vol rl buffers i) (extentRuns vol rl buffers i)
        (startVcn vol rl buffers (i + 1))) ∧
      (List.range (n + 1)).flatMap (extentRuns vol rl buffers) = rl.runs ∧
      ∀ i ≤ n, ∀ attr, IsExtent vol rl buffers attr i →
        ∀ allocator : Allocator, (∀ bytes, allocator.succeeds bytes = true) →
          DecodesTo allocator vol attr (extentRuns vol rl buffers i) := by
  have hfilled : ∀ i, (∀ j < i, (buildExtent vol rl buffers j).status ≠ .ok ()) →
      FilledTo vol rl buffers i := by
    intro i
    induction i with
    | zero => exact fun _ => filledTo_zero
    | succ i ih =>
      exact fun hall => (ih fun j hj => hall j (by omega)).succ hmapped hroom (hall i (by omega))
  -- Every call that ends for want of room gets further, and none of them gets to the end.
  have hends : ∃ n, (buildExtent vol rl buffers n).status = .ok () := by
    by_contra hnever
    have hall := hfilled (rl.last.vcn.toNat + 1) fun j _ hok => hnever ⟨j, hok⟩
    have hprogress := hall.progress
    have hbefore := hall.before_end.resolve_left (by omega)
    omega
  classical
  have hok := Nat.find_spec hends
  have hbefore : ∀ i ≤ Nat.find hends, FilledTo vol rl buffers i := fun i hi =>
    hfilled i fun j hj => Nat.find_min hends (by omega)
  generalize hn : Nat.find hends = n at hok hbefore
  have hstep : ∀ i ≤ n, startVcn vol rl buffers i ≤ startVcn vol rl buffers (i + 1) ∧
      startVcn vol rl buffers (i + 1) ≤ rl.last.vcn := by
    intro i hi
    have hboundary := (hbefore i hi).boundary
    obtain ⟨-, ⟨-, hend⟩ | ⟨-, hlt, hend, -⟩⟩ := buildExtent_cases hmapped hroom hboundary
    · exact ⟨hend ▸ hboundary.le_last rl.stretch.chain, hend.le⟩
    · exact ⟨hlt.le, hend.le⟩
  have hchain : ∀ i ≤ n, Chain (startVcn vol rl buffers i) (extentRuns vol rl buffers i)
      (startVcn vol rl buffers (i + 1)) := fun i hi =>
    chain_restrict rl.stretch.chain ((hbefore i hi).boundary.le rl.stretch.chain) (hstep i hi).1
      (hstep i hi).2
  have hlast : startVcn vol rl buffers (n + 1) = rl.last.vcn := by
    obtain ⟨-, ⟨-, hend⟩ | ⟨hfail, -⟩⟩ :=
      buildExtent_cases hmapped hroom (hbefore n le_rfl).boundary
    · exact hend
    · rw [hok] at hfail
      cases hfail
  refine ⟨n, fun i hi => ?_, hok, hlast, hchain, ?_, fun i hi attr hextent allocator hmemory => ?_⟩
  · obtain ⟨-, ⟨hfound, -⟩ | ⟨hfail, -⟩⟩ :=
      buildExtent_cases hmapped hroom (hbefore i hi.le).boundary
    · exact absurd hfound (Nat.find_min hends (by omega))
    · exact hfail
  · rw [(hbefore n le_rfl).append_extentRuns (hstep n le_rfl).1, hlast,
      restrict_self rl.stretch.chain rl.stretch.lcn_isS64]
  · obtain ⟨hspells, hcases⟩ := buildExtent_cases hmapped hroom (hbefore i hi).boundary
    refine decodesTo_of_spells hextent hspells (hchain i hi)
      ((hbefore i hi).boundary.le rl.stretch.chain) (fun hempty => ?_) (hstep i hi).2
        allocator hmemory
    have hsame : startVcn vol rl buffers i = startVcn vol rl buffers (i + 1) := by
      have hnone := hchain i hi
      rwa [hempty] at hnone
    rcases hcases with ⟨-, hend⟩ | ⟨-, hlt, -⟩
    · rcases (hbefore i hi).before_end with rfl | hbefore
      · rfl
      · omega
    · omega

end

def sixClusters : NumberedSequence where
  runs := sparseSix.runs
  last := sparseSix.last
  stretch := ⟨by decide, by decide⟩
  clusters := by decide
  last_length := sparseSix.last_length
  last_lcn := sparseSix.last_lcn
  last_vcn_isS64 := ⟨by decide, by decide⟩

def smallBuffers : Buffers := ⟨fun _ _ => 0xff, fun _ => 0, fun _ => 4⟩

/-- The six clusters are split over such buffers and come back. -/
theorem buildExtents_lossless_sixClusters :
    ∃ n, (buildExtent smallVolume sixClusters smallBuffers n).status = .ok () ∧
      (List.range (n + 1)).flatMap (extentRuns smallVolume sixClusters smallBuffers) =
        sixClusters.runs := by
  have hfits : ∀ run ∈ sixClusters.runs, pairSize smallVolume run.lcn run.length run.lcn < 4 := by
    decide
  have hroom : RoomForOneMore smallVolume sixClusters smallBuffers := fun _ =>
    ⟨Nat.succ_pos 3, fun run hrun _ => hfits run hrun⟩
  obtain ⟨n, -, hok, -, -, hruns, -⟩ :=
    buildExtents_lossless smallVolume sixClusters (by decide) smallBuffers hroom
  exact ⟨n, hok, hruns⟩

end AdvancedOs.Ntfs.MappingPairsParts
