import AdvancedOs.Ntfs.MappingPairs

/-!
# What the decoder lets through

The bytes of an attribute record come from the device, so that the decoder of mapping pairs has to
check them.

It should make sure that the runlist it makes is well formed (`Sound`): consecutive runs of positive
length from vcn zero on, no number beyond 64 bits, and one terminator. The decoder rejects negative
lengths and lcns below `LCN_HOLE`, but it takes a pair of length zero, whose run then looks like a
terminator in the middle of the runlist; it adds lengths up without looking for an overflow; and it
takes a negative `lowest_vcn` as the length of the unmapped run before the extent.
`decompress_sound_iff` says that nothing else can go wrong.

It should also read only bytes of the record. The decoder compares the address of the last
byte of a number with the address behind the record, and lets them be equal: a number whose last
byte would be the one behind the record is read. `reads_inside_iff` says exactly when this happens:
when a pair that the decoder gets to ends there (`PairsInside`), or when the mapping pairs of a base
extent start there.
-/

namespace AdvancedOs.Ntfs.MappingPairsSoundness

open Foundation.ArraySegments Foundation.LoggedReads Foundation.SignedWords RunlistElements
  RunlistMerge RunlistMergeRoutines MappingPairs List AttrRecord

/-! ### Well-formed results -/

/-- Consecutive runs of positive length from vcn zero on, with lcns that are clusters, holes or
unmapped, and a terminator. All numbers are 64-bit words. -/
def WellFormed (runs : List RunlistElement) (last : RunlistElement) : Prop :=
  Chain 0 runs last.vcn ∧ IsS64 last.vcn ∧ last.length = 0 ∧
    (last.lcn = lcnEnoent ∨ last.lcn = lcnRlNotMapped) ∧ ∀ run ∈ runs, lcnRlNotMapped ≤ run.lcn

def Sound (rl : RlArray) : Prop := ∃ runs last, rl.Holds (runs ++ [last]) ∧ WellFormed runs last

theorem eq_of_terminated {cells : ℕ → RunlistElement} {offset : ℕ}
    {runs items : List RunlistElement} {last term : RunlistElement}
    (hruns : Segment cells offset (runs ++ [last])) (hit : Segment cells offset (items ++ [term]))
    (hlast : last.length = 0) (hterm : term.length = 0) (hlen : ∀ run ∈ runs, run.length ≠ 0)
    (hlcn : ∀ item ∈ items, item.length = 0 → item.lcn ≠ last.lcn) :
    runs = items ∧ last = term := by
  induction runs generalizing offset items with
  | nil =>
    cases items with
    | nil => exact ⟨rfl, hruns.1.symm.trans hit.1⟩
    | cons item items =>
      have heq : last = item := hruns.1.symm.trans hit.1
      exact absurd (heq ▸ rfl) (hlcn item (by simp) (heq ▸ hlast))
  | cons run runs ih =>
    cases items with
    | nil =>
      have heq : run = term := hruns.1.symm.trans hit.1
      exact absurd (heq ▸ hterm) (hlen run (by simp))
    | cons item items =>
      have heq : run = item := hruns.1.symm.trans hit.1
      obtain ⟨hrest, hend⟩ := ih hruns.2 hit.2
        (fun other hoth => hlen other (mem_cons_of_mem _ hoth))
        fun other hoth => hlcn other (mem_cons_of_mem _ hoth)
      exact ⟨by rw [heq, hrest], hend⟩

def totalLength (pairs : List MappingPair) : ℤ := (pairs.map MappingPair.length).sum

variable {attrEnd buf : ℕ} {allocator : Allocator} {vcn lcn : ℤ} {vol : NtfsVolume}
  {pairs : List MappingPair} {attr : AttrRecord}

theorem AllAccepted.length_nonneg (hall : AllAccepted attrEnd buf lcn pairs) :
    ∀ pair ∈ pairs, 0 ≤ pair.length := by
  induction pairs generalizing buf lcn with
  | nil => simp
  | cons pair pairs ih =>
    intro other hoth
    rcases mem_cons.mp hoth with rfl | hmem
    · exact hall.1.2.2.1
    · exact ih hall.2 other hmem

theorem AllAccepted.lcn_ge (hall : AllAccepted attrEnd buf lcn pairs) (vcn : ℤ) :
    ∀ run ∈ runsOf vcn lcn pairs, lcnHole ≤ run.lcn := by
  induction pairs generalizing buf vcn lcn with
  | nil => simp [runsOf]
  | cons pair pairs ih =>
    intro run hrun
    rcases mem_cons.mp hrun with rfl | hmem
    · unfold MappingPair.run MappingPair.lcnOf
      split_ifs with hhole
      · exact le_rfl
      · exact (hall.1.2.2.2 hhole).2
    · exact ih hall.2 _ run hmem

theorem totalLength_nonneg (hlen : ∀ pair ∈ pairs, 0 ≤ pair.length) : 0 ≤ totalLength pairs := by
  refine sum_nonneg fun length hmem => ?_
  obtain ⟨pair, hpair, rfl⟩ := mem_map.mp hmem
  exact hlen pair hpair

variable {first : ℤ} {rl : RlArray} {i : ℕ}

theorem eq_of_chain_runsOf (hch : Chain first (runsOf vcn lcn pairs) (vcnAfter vcn pairs)) :
    first = vcn := by
  cases pairs with
  | nil => exact hch
  | cons pair pairs => exact hch.1.symm

theorem chain_runsOf_iff (lcn : ℤ) (hvcn : IsS64 vcn) (hvcn0 : 0 ≤ vcn)
    (hlen : ∀ pair ∈ pairs, 0 ≤ pair.length) :
    Chain vcn (runsOf vcn lcn pairs) (vcnAfter vcn pairs) ↔
      (∀ pair ∈ pairs, pair.length ≠ 0) ∧ vcn + totalLength pairs < 2 ^ 63 := by
  induction pairs generalizing vcn lcn with
  | nil => simpa [runsOf, vcnAfter, totalLength] using hvcn.2
  | cons pair pairs ih =>
    have hpair := hlen pair (by simp)
    have hrest : ∀ other ∈ pairs, 0 ≤ other.length := fun other hoth => hlen other (by simp [hoth])
    have hnn := totalLength_nonneg hrest
    have htotal : totalLength (pair :: pairs) = pair.length + totalLength pairs := by
      simp [totalLength]
    have hwrap := isS64_s64 (vcn + pair.length)
    have hstep : Chain vcn (runsOf vcn lcn (pair :: pairs)) (vcnAfter vcn (pair :: pairs)) ↔
        0 < pair.length ∧ Chain (vcn + pair.length)
          (runsOf (s64 (vcn + pair.length)) (pair.lcnAfter lcn) pairs)
          (vcnAfter (s64 (vcn + pair.length)) pairs) := and_iff_right rfl
    rw [hstep, htotal, forall_mem_cons]
    constructor
    · rintro ⟨hpos, hch⟩
      have hsum := eq_of_chain_runsOf hch
      rw [← hsum] at hwrap hch
      have hih := (ih (pair.lcnAfter lcn) hwrap (by omega) hrest).mp hch
      exact ⟨⟨hpos.ne', hih.1⟩, by omega⟩
    · rintro ⟨⟨hne, hoths⟩, hlt⟩
      have hsum : IsS64 (vcn + pair.length) := ⟨by omega, by omega⟩
      refine ⟨lt_of_le_of_ne hpair (Ne.symm hne), ?_⟩
      rw [s64_of_isS64 hsum]
      exact (ih (pair.lcnAfter lcn) hsum (by omega) hrest).mpr ⟨hoths, by omega⟩

theorem vcnAfter_eq (hvcn0 : 0 ≤ vcn) (hlen : ∀ pair ∈ pairs, 0 ≤ pair.length)
    (hlt : vcn + totalLength pairs < 2 ^ 63) : vcnAfter vcn pairs = vcn + totalLength pairs := by
  induction pairs generalizing vcn with
  | nil => simp [vcnAfter, totalLength]
  | cons pair pairs ih =>
    obtain ⟨hpair, hrest⟩ := forall_mem_cons.mp hlen
    have hnn := totalLength_nonneg hrest
    have htotal : totalLength (pair :: pairs) = pair.length + totalLength pairs := by
      simp [totalLength]
    have hsum : IsS64 (vcn + pair.length) := ⟨by omega, by omega⟩
    rw [vcnAfter, s64_of_isS64 hsum, ih (by omega) hrest (by omega), htotal, add_assoc]

section

variable (vol : NtfsVolume) (attr : AttrRecord)

def HasSoundPairs : Prop :=
  0 ≤ attr.lowestVcn ∧ (∀ pair ∈ attr.pairs, pair.length ≠ 0) ∧
    attr.lowestVcn + totalLength attr.pairs < 2 ^ 63

theorem chain_lead_iff (middle : ℤ) :
    Chain 0 attr.lead middle ↔ 0 ≤ attr.lowestVcn ∧ middle = attr.lowestVcn := by
  unfold lead
  split_ifs with hbase
  · rw [chain_nil, hbase, and_iff_right le_rfl, eq_comm]
  · constructor
    · rintro ⟨-, hpos, hend⟩
      exact ⟨hpos.le, hend.symm.trans (zero_add _)⟩
    · rintro ⟨hnn, rfl⟩
      exact ⟨rfl, lt_of_le_of_ne hnn (Ne.symm hbase), zero_add _⟩

theorem ediv_clusterSize_bounds {size : ℤ} (hsize : IsS64 size) :
    -2 ^ 55 ≤ size / 2 ^ vol.clusterSizeBits ∧ size / 2 ^ vol.clusterSizeBits < 2 ^ 55 := by
  have hclu : (2 : ℤ) ^ 9 ≤ 2 ^ vol.clusterSizeBits :=
    pow_le_pow_right₀ (by norm_num) vol.clusterSizeBits_ge
  obtain ⟨hlow, hhigh⟩ := hsize
  have hpos : (0 : ℤ) < 2 ^ vol.clusterSizeBits := by positivity
  exact ⟨Int.le_ediv_of_mul_le hpos (show -2 ^ 55 * 2 ^ vol.clusterSizeBits ≤ size by omega),
    Int.ediv_lt_of_lt_mul hpos (show size < 2 ^ 55 * 2 ^ vol.clusterSizeBits by omega)⟩

theorem maxCluster_eq_ediv : maxCluster vol attr =
    s64 (attr.allocatedSize + vol.clusterSize - 1) / 2 ^ vol.clusterSizeBits - 1 := by
  have hbd := ediv_clusterSize_bounds vol (isS64_s64 (attr.allocatedSize + vol.clusterSize - 1))
  exact s64_of_isS64 ⟨by omega, by omega⟩

theorem maxCluster_bounds : -2 ^ 56 ≤ maxCluster vol attr ∧ maxCluster vol attr < 2 ^ 56 := by
  have hbd := ediv_clusterSize_bounds vol (isS64_s64 (attr.allocatedSize + vol.clusterSize - 1))
  rw [maxCluster_eq_ediv]
  omega

theorem chain_rest (hvcn : IsS64 vcn) (hvcn0 : 0 ≤ vcn)
    (hhigh : attr.highestVcn = 0 ∨ s64 (vcn - 1) = attr.highestVcn) :
    Chain vcn (attr.rest vol vcn) (attr.endVcn vol vcn) := by
  unfold AttrRecord.rest AttrRecord.endVcn
  split_ifs with hcont
  swap
  · rfl
  obtain ⟨-, hne, hlt⟩ := hcont
  have hbd := maxCluster_bounds vol attr
  have hlast : attr.highestVcn = vcn - 1 := by
    rw [← hhigh.resolve_left hne]
    exact s64_of_isS64 ⟨by omega, by have := hvcn.2; omega⟩
  have hlen : s64 (maxCluster vol attr - attr.highestVcn) =
      maxCluster vol attr - attr.highestVcn := s64_of_isS64 ⟨by omega, by omega⟩
  have hend : s64 (vcn + (maxCluster vol attr - attr.highestVcn)) =
      vcn + (maxCluster vol attr - attr.highestVcn) := s64_of_isS64 ⟨by omega, by omega⟩
  rw [hlen, hend]
  exact ⟨rfl, sub_pos.mpr hlt, rfl⟩

theorem eq_of_chain_rest (hch : Chain first (attr.rest vol vcn) (attr.endVcn vol vcn)) :
    first = vcn := by
  unfold AttrRecord.rest AttrRecord.endVcn at hch
  split_ifs at hch with hcont
  · exact hch.1.symm
  · exact hch

theorem chain_decodedRuns_iff (hdec : attr.Decodes vol) :
    Chain 0 (attr.decodedRuns vol) (attr.decodedLast vol).vcn ↔ HasSoundPairs attr := by
  obtain ⟨-, -, hall, -, hhigh, -⟩ := hdec
  have hlen := AllAccepted.length_nonneg hall
  unfold decodedRuns HasSoundPairs
  rw [chain_append]
  constructor
  · rintro ⟨middle, hmap, hrest⟩
    obtain rfl := eq_of_chain_rest vol attr hrest
    obtain ⟨first, hlead, hruns⟩ := (chain_append _ _ _ _).mp hmap
    obtain ⟨hlow, rfl⟩ := (chain_lead_iff attr first).mp hlead
    exact ⟨hlow, (chain_runsOf_iff 0 attr.lowestVcn_isS64 hlow hlen).mp hruns⟩
  · rintro ⟨hlow, hne, hlt⟩
    have hvcn := vcnAfter_eq hlow hlen hlt
    have hnn := totalLength_nonneg hlen
    refine ⟨vcnAfter attr.lowestVcn attr.pairs, (chain_append _ _ _ _).mpr
      ⟨attr.lowestVcn, (chain_lead_iff attr _).mpr ⟨hlow, rfl⟩, ?_⟩, ?_⟩
    · exact (chain_runsOf_iff 0 attr.lowestVcn_isS64 hlow hlen).mpr ⟨hne, hlt⟩
    · exact chain_rest vol attr (by rw [hvcn]; exact ⟨by omega, hlt⟩) (by omega) hhigh

theorem isS64_vcnAfter (hvcn : IsS64 vcn) (pairs : List MappingPair) :
    IsS64 (vcnAfter vcn pairs) := by
  induction pairs generalizing vcn with
  | nil => exact hvcn
  | cons pair pairs ih => exact ih (isS64_s64 _)

theorem isS64_decodedLast : IsS64 (attr.decodedLast vol).vcn := by
  unfold AttrRecord.decodedLast AttrRecord.endVcn
  split_ifs
  · exact isS64_s64 _
  · exact isS64_vcnAfter attr.lowestVcn_isS64 _

theorem endLcn_cases : endLcn attr = lcnEnoent ∨ endLcn attr = lcnRlNotMapped := by
  exact ite_eq_or_eq _ _ _

theorem lcn_decodedRuns (hdec : attr.Decodes vol) {run : RunlistElement}
    (hrun : run ∈ attr.decodedRuns vol) : lcnHole ≤ run.lcn ∨ run.lcn = lcnRlNotMapped ∧
      run.length ≠ 0 := by
  unfold decodedRuns lead rest at hrun
  rw [mem_append, mem_append] at hrun
  rcases hrun with (hlead | hrun) | hrest
  · split_ifs at hlead with hbase
    · exact absurd hlead not_mem_nil
    · obtain rfl := mem_singleton.mp hlead
      exact .inr ⟨rfl, hbase⟩
  · exact .inl (AllAccepted.lcn_ge hdec.2.2.1 _ run hrun)
  · split_ifs at hrest with hcont
    · obtain rfl := mem_singleton.mp hrest
      obtain ⟨-, -, hlt⟩ := hcont
      obtain ⟨k, hk⟩ := exists_s64_eq (maxCluster vol attr - attr.highestVcn)
      have hmax := maxCluster_bounds vol attr
      have hhigh := attr.highestVcn_isS64.1
      refine .inr ⟨rfl, ?_⟩
      dsimp only
      omega
    · exact absurd hrest not_mem_nil

theorem wellFormed_iff (hdec : attr.Decodes vol) :
    WellFormed (attr.decodedRuns vol) (attr.decodedLast vol) ↔ HasSoundPairs attr := by
  rw [← chain_decodedRuns_iff vol attr hdec]
  refine ⟨fun hwell => hwell.1, fun hch => ⟨hch, isS64_decodedLast vol attr, rfl,
    endLcn_cases attr, fun run hrun => ?_⟩⟩
  rcases lcn_decodedRuns vol attr hdec hrun with hle | ⟨hlcn, -⟩
  · exact le_trans (by decide) hle
  · exact hlcn.ge

/-- Assumes: a record that decodes, and a block that holds the result. The block holds a well-formed
runlist just when the pairs are sound. -/
theorem sound_iff (hdec : attr.Decodes vol)
    (hh : rl.Holds (attr.decodedRuns vol ++ [attr.decodedLast vol])) :
    Sound rl ↔ HasSoundPairs attr := by
  constructor
  · rintro ⟨runs, last, hrl, hwell⟩
    have hlen : ∀ run ∈ runs, run.length ≠ 0 := fun run hrun => (hwell.1.mem hrun).2.1.ne'
    have hlcn : ∀ run ∈ attr.decodedRuns vol, run.length = 0 → run.lcn ≠ last.lcn := by
      intro run hrun hzero heq
      have hhole := (lcn_decodedRuns vol attr hdec hrun).resolve_right fun h => h.2 hzero
      rw [heq] at hhole
      rcases hwell.2.2.2.1 with hlast | hlast <;> rw [hlast] at hhole <;> revert hhole <;> decide
    obtain ⟨rfl, rfl⟩ := eq_of_terminated hrl.2 hh.2 hwell.2.2.1 rfl hlen hlcn
    exact (wellFormed_iff vol attr hdec).mp hwell
  · exact fun hpairs => ⟨_, _, hh, (wellFormed_iff vol attr hdec).mpr hpairs⟩

end

theorem decodes_of_decompress
    (hrl : (ntfsMappingPairsDecompress allocator vol attr .null).result = .ok (.block rl)) :
    attr.Decodes vol ∧ rl.Holds (attr.decodedRuns vol ++ [attr.decodedLast vol]) := by
  unfold ntfsMappingPairsDecompress at hrl
  rcases decodeNew_spec allocator vol attr with
    ⟨hfail, -⟩ | ⟨hnone, -⟩ | ⟨hfail, -⟩ | ⟨hdec, block, hblk, hh⟩
  · simp [hfail] at hrl
  · simp [hnone] at hrl
  · simp [hfail] at hrl
  · have heq : block = rl := by simpa [hblk, combine] using hrl
    exact ⟨hdec, heq ▸ hh⟩

theorem decompress_eq_combine (hmemo : ∀ bytes, allocator.succeeds bytes = true)
    (hdec : attr.Decodes vol) : ∃ rl : RlArray,
      rl.Holds (attr.decodedRuns vol ++ [attr.decodedLast vol]) ∧ ∀ oldRl,
      (ntfsMappingPairsDecompress allocator vol attr oldRl).result =
      combine allocator rl oldRl := by
  unfold ntfsMappingPairsDecompress
  rcases decodeNew_spec allocator vol attr with
    ⟨-, hnot⟩ | ⟨-, hemp⟩ | ⟨-, hnot⟩ | ⟨-, rl, hrl, hh⟩
  · exact absurd hmemo hnot
  · exact absurd hemp hdec.2.1
  · exact absurd hdec hnot
  · exact ⟨rl, hh, fun oldRl => by rw [hrl]⟩

theorem decompress_of_decodes (hmemo : ∀ bytes, allocator.succeeds bytes = true)
    (hdec : attr.Decodes vol) : ∃ rl, (ntfsMappingPairsDecompress allocator vol attr .null).result =
      .ok (.block rl) ∧ rl.Holds (attr.decodedRuns vol ++ [attr.decodedLast vol]) := by
  obtain ⟨rl, hh, hres⟩ := decompress_eq_combine hmemo hdec
  exact ⟨rl, hres .null, hh⟩

/-- Assumes: a runlist made from no old one. It is well formed just when the lowest vcn is not
negative, no pair has length zero, and the lengths do not overflow. -/
theorem decompress_sound_iff (allocator : Allocator) (vol : NtfsVolume) (attr : AttrRecord)
    {rl : RlArray}
    (hrl : (ntfsMappingPairsDecompress allocator vol attr .null).result = .ok (.block rl)) :
    Sound rl ↔ HasSoundPairs attr := by
  obtain ⟨hdecodes, hholds⟩ := decodes_of_decompress hrl
  exact sound_iff vol attr hdecodes hholds

def smallVolume : NtfsVolume := ⟨3, 12, Nat.le_add_right 9 3, by decide⟩

def smallRecord (content : List UInt8) : AttrRecord where
  length := 72
  mappingPairsOffset := 64
  lowestVcn := 0
  highestVcn := 0
  allocatedSize := 4096
  bytes i := content.getD (i - 64) 0
  length_le := by decide
  lowestVcn_isS64 := by decide
  highestVcn_isS64 := by decide
  allocatedSize_isS64 := by decide

def plenty : Allocator := ⟨fun _ => true, fun _ => ⟨0, 0, 0⟩⟩

theorem plenty_succeeds (bytes : ℕ) : plenty.succeeds bytes = true := rfl

/-- One run of three clusters decodes to a well-formed runlist. -/
theorem decompress_sound_threeClusters :
    ∃ rl, (ntfsMappingPairsDecompress plenty smallVolume (smallRecord [0x11, 3, 5]) .null).result =
      .ok (.block rl) ∧ Sound rl := by
  have hdecodes : (smallRecord [0x11, 3, 5]).Decodes smallVolume := by decide +kernel
  obtain ⟨rl, hrl, -⟩ := decompress_of_decodes plenty_succeeds hdecodes
  refine ⟨rl, hrl, (decompress_sound_iff plenty smallVolume _ hrl).mpr ?_⟩
  unfold HasSoundPairs
  decide +kernel

/-- One run of no clusters decodes too, and the runlist begins with an element that looks like a
terminator but has a cluster. -/
theorem decompress_unsound_noClusters :
    ∃ rl, (ntfsMappingPairsDecompress plenty smallVolume (smallRecord [0x11, 0, 5]) .null).result =
      .ok (.block rl) ∧ ¬ Sound rl := by
  have hdecodes : (smallRecord [0x11, 0, 5]).Decodes smallVolume := by decide +kernel
  have hzero : ¬ ∀ pair ∈ (smallRecord [0x11, 0, 5]).pairs, pair.length ≠ 0 := by decide +kernel
  obtain ⟨rl, hrl, hholds⟩ := decompress_of_decodes plenty_succeeds hdecodes
  exact ⟨rl, hrl, fun hsound => hzero ((sound_iff _ _ hdecodes hholds).mp hsound).2.1⟩

/-! ### Reads -/

/-- A number of the pair is read whose last byte is the first behind the attribute. -/
def Overreads (attrEnd buf : ℕ) (pair : MappingPair) : Prop :=
  pair.LengthRead attrEnd buf ∧ buf + pair.lengthBytes.length = attrEnd ∨
    pair.DeltaRead attrEnd buf ∧
      buf + (pair.lengthBytes.length + pair.deltaBytes.length) = attrEnd

/-- None of the pairs that the decoder gets to makes it read behind the attribute. It gets to a pair
when it takes the one before. -/
def PairsInside (attrEnd : ℕ) : ℕ → ℤ → List MappingPair → Prop
  | _, _, [] => True
  | buf, lcn, pair :: rest => ¬ Overreads attrEnd buf pair ∧ (pair.Accepted attrEnd buf lcn →
        PairsInside attrEnd (buf + pair.size) (pair.lcnAfter lcn) rest)

section

variable {allocator : Allocator} {attr : AttrRecord} {fuel : ℕ} {st : DecodeState}

theorem mem_log_decodeLoop (hpair : st.AtPair attr) :
    i ∈ (decodeLoop allocator attr (fuel + 1) st).log ↔ i = st.buf ∨
      ∃ rl, (ensureRoom allocator st.rl st.rlpos).result = .ok rl ∧
        (i ∈ (decodePair attr st.buf st.lcn (attr.bytes st.buf)).log ∨
          (pairAt attr.bytes st.buf).Accepted attr.length st.buf st.lcn ∧
            i ∈ (decodeLoop allocator attr fuel (st.next rl (pairAt attr.bytes st.buf))).log) := by
  have hdecoded := (decodePair_spec attr st.buf st.lcn).1
  rw [decodeLoop, if_pos hpair.1, Logged.log_read_bind, if_neg hpair.2, mem_cons,
    Logged.mem_log_bind]
  have hroom : i ∉ (ensureRoom allocator st.rl st.rlpos).log := by
    unfold ensureRoom
    split_ifs <;> simp
  rw [or_iff_right hroom]
  refine or_congr_right (exists_congr fun rl => and_congr_right fun _ => ?_)
  rw [Logged.mem_log_bind]
  refine or_congr_right ?_
  split_ifs at hdecoded with hacc
  · simp only [hdecoded, Except.ok.injEq, exists_eq_left', hacc, true_and, DecodeState.next,
      MappingPair.size, MappingPair.run, length_lengthBytes_pairAt, length_deltaBytes_pairAt]
  · simp [hdecoded, hacc]

theorem lt_of_mem_log_decodeLoop (hin : PairsInside attr.length st.buf st.lcn
      (pairsFrom attr.bytes attr.length fuel st.buf))
    (hi : i ∈ (decodeLoop allocator attr fuel st).log) : i < attr.length := by
  induction fuel generalizing st with
  | zero => exact absurd hi not_mem_nil
  | succ fuel ih =>
    by_cases hpair : st.AtPair attr
    swap
    · exact (decodeLoop_of_not_atPair allocator attr (fuel + 1) hpair).2 i hi
    rw [pairsFrom_of_atPair fuel hpair.1 hpair.2] at hin
    rcases (mem_log_decodeLoop hpair).mp hi with rfl | ⟨rl, -, hread | ⟨hacc, hrest⟩⟩
    · exact hpair.1
    · rcases ((decodePair_spec attr st.buf st.lcn).2 i).mp hread with
        ⟨hlen, -, hle⟩ | ⟨hdelta, -, hle⟩
      · have hne := fun heq => hin.1 (.inl ⟨hlen, heq⟩)
        exact lt_of_le_of_lt hle (lt_of_le_of_ne hlen.2 hne)
      · have hne := fun heq => hin.1 (.inr ⟨hdelta, heq⟩)
        exact lt_of_le_of_lt hle (lt_of_le_of_ne hdelta.2.2.2 hne)
    · exact ih (hin.2 hacc) hrest

theorem exists_ensureRoom (hmemo : ∀ bytes, allocator.succeeds bytes = true) (rl : RlArray)
    (rlpos : ℕ) : ∃ block, (ensureRoom allocator rl rlpos).result = .ok block := by
  unfold ensureRoom
  split_ifs with hfull hpage
  · exact ⟨_, rfl⟩
  · exact absurd (hmemo _) hpage
  · exact ⟨_, rfl⟩

theorem mem_log_of_not_pairsInside (hmemo : ∀ bytes, allocator.succeeds bytes = true)
    (hout : ¬ PairsInside attr.length st.buf st.lcn
      (pairsFrom attr.bytes attr.length fuel st.buf)) :
    attr.length ∈ (decodeLoop allocator attr fuel st).log := by
  induction fuel generalizing st with
  | zero => exact absurd trivial hout
  | succ fuel ih =>
    by_cases hpair : st.AtPair attr
    swap
    · rw [pairsFrom_of_not_atPair _ hpair] at hout
      exact absurd trivial hout
    rw [pairsFrom_of_atPair fuel hpair.1 hpair.2] at hout
    obtain ⟨rl, hrl⟩ := exists_ensureRoom hmemo st.rl st.rlpos
    refine (mem_log_decodeLoop hpair).mpr (.inr ⟨rl, hrl, ?_⟩)
    by_cases hover : Overreads attr.length st.buf (pairAt attr.bytes st.buf)
    · refine .inl (((decodePair_spec attr st.buf st.lcn).2 _).mpr ?_)
      rcases hover with ⟨hlen, heq⟩ | ⟨hdelta, heq⟩
      · exact .inl ⟨hlen, hpair.1, heq.ge⟩
      · refine .inr ⟨hdelta, ?_, heq.ge⟩
        have hpos := length_pos_iff.mpr hdelta.2.2.1
        omega
    · refine .inr ?_
      by_contra hnot
      refine hout ⟨hover, fun hacc => ?_⟩
      by_contra hrest
      have hnext : attr.length ∈ (decodeLoop allocator attr fuel
        (st.next rl (pairAt attr.bytes st.buf))).log := ih hrest
      exact hnot ⟨hacc, hnext⟩

theorem mem_log_decodeRuns : i ∈ (decodeRuns allocator vol attr).log ↔
    allocator.succeeds pageSize = true ∧
      i ∈ (decodeLoop allocator attr attr.length (startState allocator attr)).log := by
  unfold decodeRuns
  split_ifs with hpage
  · rw [Logged.mem_log_bind]
    simp [Logged.ofExcept, hpage]
  · simp [hpage]

theorem mem_log_decodeNew : i ∈ (decodeNew allocator vol attr).log ↔
    attr.mappingPairsOffset ≤ attr.length ∧ (attr.lowestVcn = 0 ∧ i = attr.mappingPairsOffset ∨
        ¬ attr.Empty ∧ i ∈ (decodeRuns allocator vol attr).log) := by
  unfold decodeNew AttrRecord.Empty
  by_cases hofs : attr.mappingPairsOffset ≤ attr.length
  swap
  · simp [hofs, not_le.mp hofs]
  rw [if_neg (not_lt.mpr hofs)]
  by_cases hbase : attr.lowestVcn = 0
  · by_cases hhdr : attr.bytes attr.mappingPairsOffset = 0 <;> simp [hofs, hbase, hhdr]
  · simp [hofs, hbase]

end

def ReadsInside (attr : AttrRecord) : Prop :=
  ∀ (allocator : Allocator) (vol : NtfsVolume) (oldRl : RlPtr),
    ∀ i ∈ (ntfsMappingPairsDecompress allocator vol attr oldRl).log, i < attr.length

/-- The decoder reads only bytes of the attribute just when no pair it gets to ends behind it, and
the mapping pairs of a base extent do not start there. -/
theorem reads_inside_iff (attr : AttrRecord) :
    ReadsInside attr ↔ ¬ (attr.lowestVcn = 0 ∧ attr.mappingPairsOffset = attr.length) ∧
      PairsInside attr.length attr.mappingPairsOffset 0 attr.pairs := by
  have hstart := fun allocator => (startState_spec allocator attr).2.2
  constructor
  · intro hreads
    refine ⟨fun ⟨hbase, hoffset⟩ => ?_, ?_⟩
    · have hread := hreads plenty smallVolume .null attr.mappingPairsOffset
        (mem_log_decodeNew.mpr ⟨hoffset.le, .inl ⟨hbase, rfl⟩⟩)
      exact absurd hoffset hread.ne
    · by_contra houtside
      have hloop : attr.length ∈
          (decodeLoop plenty attr attr.length (startState plenty attr)).log := by
        obtain ⟨hbuf, -, hlcn⟩ := hstart plenty
        refine mem_log_of_not_pairsInside plenty_succeeds ?_
        rwa [hbuf, hlcn]
      have hpair : attr.mappingPairsOffset < attr.length ∧
          attr.bytes attr.mappingPairsOffset ≠ 0 := by
        by_contra hstop
        rw [AttrRecord.pairs, pairsFrom_of_not_atPair _ hstop] at houtside
        exact houtside trivial
      have hread := hreads plenty smallVolume .null attr.length (mem_log_decodeNew.mpr
        ⟨hpair.1.le, .inr ⟨fun hempty => hpair.2 hempty.2, mem_log_decodeRuns.mpr ⟨rfl, hloop⟩⟩⟩)
      exact absurd hread (lt_irrefl _)
  · rintro ⟨hoffset, hinside⟩ allocator vol oldRl i hi
    obtain ⟨hle, ⟨hbase, rfl⟩ | ⟨-, hruns⟩⟩ := mem_log_decodeNew.mp hi
    · exact lt_of_le_of_ne hle fun heq => hoffset ⟨hbase, heq⟩
    · obtain ⟨hbuf, -, hlcn⟩ := hstart allocator
      refine lt_of_mem_log_decodeLoop ?_ (mem_log_decodeRuns.mp hruns).2
      rwa [hbuf, hlcn]

/-- A pair with one length byte and seven lcn bytes in the last eight bytes of a record: the last of
them is the first byte behind the record. -/
theorem not_readsInside_sevenBytes : ¬ ReadsInside (smallRecord [0x71, 1]) := by
  intro hreads
  have hlog : 72 ∈
      (ntfsMappingPairsDecompress plenty smallVolume (smallRecord [0x71, 1]) .null).log := by
    decide +kernel
  exact absurd (hreads plenty smallVolume .null 72 hlog) (by decide)

end AdvancedOs.Ntfs.MappingPairsSoundness
