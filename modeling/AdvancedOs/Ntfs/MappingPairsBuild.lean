import AdvancedOs.Ntfs.MappingPairsSoundness
import AdvancedOs.Ntfs.RunlistSurgery

/-!
# The encoder of mapping pairs

`ntfsMappingPairsBuild` writes the mapping pairs of a part of a runlist into a buffer: a run that
contains the first vcn is cut at its front, one that contains the last vcn at its end, and holes
have no lcn on volumes of version three or later. It stops at the first pair for which there is no
room and says at which vcn, with a zero header behind the pairs that it has written.

What is stored for a run is a pair of which the decoder makes the run (`stored_writePair`,
`gives_codedPair`). `Spells` says of bytes that they are such pairs for given runs, with a zero
header behind them. The loop leaves bytes that spell the part asked for, or as much of it as there
is room for (`buildLoop_outcome`), and the decoder makes the runs of them (`Spells.decodes`).
Together, a mapped runlist that has been written into its attribute record is read back as it was:
`decompress_build`.

`Encodes` says the same of bytes without any reference to the encoder or the decoder, and the
decoder takes such bytes too (`Encodes.spells`).
-/

namespace AdvancedOs.Ntfs.MappingPairsBuild

open Foundation.ArraySegments Foundation.LoggedReads Foundation.SignedWords RunlistElements Function
  RunlistMerge RunlistMergeRoutines RunlistSurgery MappingPairs MappingPairsSoundness List

/-! ### Significant bytes -/

abbrev Memory := ℕ → UInt8

/-- The loop of `ntfs_write_significant_bytes`: the bytes of `l` from the lowest on, until only the
sign is left. It gives the place behind the last byte, or none when there is no more room. A 64-bit
word takes eight turns at most. -/
def writeLoop (dstMax : ℕ) : ℕ → Memory → ℕ → ℤ → Memory × Option ℕ
  | 0, mem, dst, _ => (mem, some dst)
  | fuel + 1, mem, dst, l =>
    if dstMax < dst then (mem, none)
    else if l / 2 ^ 8 ≠ 0 ∧ l / 2 ^ 8 ≠ -1 then
      writeLoop dstMax fuel (update mem dst (lowByte l)) (dst + 1) (l / 2 ^ 8)
    else (update mem dst (lowByte l), some (dst + 1))

/-- `ntfs_write_significant_bytes`: the number of bytes written, or none in place of `-ENOSPC`. -/
def ntfsWriteSignificantBytes (mem : Memory) (dst dstMax : ℕ) (n : ℤ) : Memory × Option ℕ :=
  match writeLoop dstMax 8 mem dst n with
  | (mem, none) => (mem, none)
  | (mem, some next) =>
    let i := next - dst
    let j := s8 (lowByte (n / 2 ^ (8 * (i - 1))))
    -- If the sign bit is wrong, an extra byte is needed.
    if n < 0 ∧ 0 ≤ j then
      if dstMax < next then (mem, none) else (update mem next 0xff, some (i + 1))
    else if 0 < n ∧ j < 0 then
      if dstMax < next then (mem, none) else (update mem next 0, some (i + 1))
    else (mem, some i)

/-! ### The encoder -/

/-- What `ntfs_mapping_pairs_build` leaves: the memory, its result, and the vcn stored through
`stop_vcn` on success and when there is no more room. -/
structure Built where
  mem : Memory
  status : Except Failure Unit
  stopVcn : Option ℤ

/-- The lcn of the run is stored: it has one, or the volume stores holes as lcn -1. -/
def storesLcn (vol : NtfsVolume) (lcn : ℤ) : Bool := decide (0 ≤ lcn ∨ vol.majorVer < 3)

/-- Writes the pair of a run with the given length and change of lcn at `dst`, and gives the place
behind it. There has to be room for a terminator behind the pair. -/
def writePair (vol : NtfsVolume) (mem : Memory) (dst dstMax : ℕ) (lcn length change : ℤ) :
    Memory × Option ℕ :=
  match ntfsWriteSignificantBytes mem (dst + 1) dstMax length with
  | (mem, none) => (mem, none)
  | (mem, some lenLen) =>
    match if storesLcn vol lcn then
        ntfsWriteSignificantBytes mem (dst + 1 + lenLen) dstMax change else (mem, some 0) with
    | (mem, none) => (mem, none)
    | (mem, some lcnLen) =>
      let dstNext := dst + lenLen + lcnLen + 1
      if dstMax < dstNext then (mem, none)
      else (update mem dst (UInt8.ofNat (lcnLen <<< 4 ||| lenLen)), some dstNext)

/-- The end of `ntfs_mapping_pairs_build` at the element `run`, with the terminator at `dst`. -/
def endBuild (mem : Memory) (dst : ℕ) (run : RunlistElement) (status : Except Failure Unit) :
    Built :=
  ⟨update mem dst 0, status, some run.vcn⟩

/-- The end of `ntfs_mapping_pairs_build` at an element that cannot be encoded. -/
def rejectRun (mem : Memory) (run : RunlistElement) : Built :=
  ⟨mem, .error (.errno (if run.lcn = lcnRlNotMapped then .einval else .eio)), none⟩

/-- The length of the run up to `lastVcn`, and whether the run reaches it. -/
def cappedLength (lastVcn : ℤ) (run next : RunlistElement) : ℤ × Bool :=
  if 0 ≤ lastVcn ∧ lastVcn < next.vcn then
    (if s64 (lastVcn + 1) < next.vcn then s64 (s64 (lastVcn + 1) - run.vcn) else run.length, true)
  else (run.length, false)

/-- The loop of `ntfs_mapping_pairs_build` over the full runs. -/
def buildLoop (vol : NtfsVolume) (dstMax : ℕ) (lastVcn : ℤ) :
    List RunlistElement → Memory → ℕ → ℤ → Bool → Built
  | [], mem, _, _, _ => ⟨mem, .error .overrun, none⟩
  | run :: rest, mem, dst, prevLcn, theEnd =>
    if run.length = 0 ∨ theEnd then endBuild mem dst run (.ok ())
    else if run.length < 0 ∨ run.lcn < lcnHole then rejectRun mem run
    else match rest with
      | [] => ⟨mem, .error .overrun, none⟩
      | next :: _ =>
        let capped := cappedLength lastVcn run next
        match writePair vol mem dst dstMax run.lcn capped.1 (s64 (run.lcn - prevLcn)) with
        | (mem, none) => endBuild mem dst run (.error (.errno .enospc))
        | (mem, some dst) => buildLoop vol dstMax lastVcn rest mem dst
            (if storesLcn vol run.lcn then run.lcn else prevLcn) capped.2

/-- The loop that skips to the element containing `firstVcn`. -/
def skipTo (firstVcn : ℤ) : List RunlistElement → List RunlistElement
  | [] => []
  | run :: rest =>
    if run.length = 0 then run :: rest
    else match rest with
      | [] => []
      | next :: _ => if next.vcn ≤ firstVcn then skipTo firstVcn rest else run :: rest

/-- The first run of `ntfs_mapping_pairs_build` when `firstVcn` lies inside it, and the loop. -/
def buildPartial (vol : NtfsVolume) (mem : Memory) (dst dstMax : ℕ) (firstVcn lastVcn : ℤ)
    (run next : RunlistElement) (rest : List RunlistElement) : Built :=
  if run.length < 0 ∨ run.lcn < lcnHole then rejectRun mem run
  else
    let capped := cappedLength lastVcn run next
    let delta := s64 (firstVcn - run.vcn)
    let prevLcn := if storesLcn vol run.lcn then
      if 0 ≤ run.lcn then s64 (run.lcn + delta) else run.lcn else 0
    match writePair vol mem dst dstMax run.lcn (s64 (capped.1 - delta)) prevLcn with
    | (mem, none) => endBuild mem dst run (.error (.errno .enospc))
    | (mem, some dst) => buildLoop vol dstMax lastVcn (next :: rest) mem dst prevLcn capped.2

/-- `ntfs_mapping_pairs_build`, with the destination from `dst` on. -/
def ntfsMappingPairsBuild (vol : NtfsVolume) (mem : Memory) (dst dstLen : ℕ)
    (rl : Option (List RunlistElement)) (firstVcn lastVcn : ℤ) : Built :=
  if firstVcn < 0 ∨ lastVcn < -1 ∨ (0 ≤ lastVcn ∧ lastVcn < firstVcn) ∨ dstLen < 1 then
    ⟨mem, .error .bug, none⟩
  else match rl with
    | none =>
      if firstVcn ≠ 0 ∨ 0 < lastVcn then ⟨mem, .error .bug, none⟩
      else ⟨update mem dst 0, .ok (), some 0⟩
    | some rl =>
      match skipTo firstVcn rl with
      | [] => ⟨mem, .error .overrun, none⟩
      | run :: rest =>
        if (run.length = 0 ∧ run.vcn < firstVcn) ∨ firstVcn < run.vcn then
          ⟨mem, .error (.errno .einval), none⟩
        else if run.vcn < firstVcn then
          match rest with
          | [] => ⟨mem, .error .overrun, none⟩
          | next :: rest =>
            buildPartial vol mem dst (dst + dstLen - 1) firstVcn lastVcn run next rest
        else buildLoop vol (dst + dstLen - 1) lastVcn (run :: rest) mem dst 0 false

/-! ### The size of the mapping pairs -/

/-- The loop of `ntfs_get_nr_significant_bytes`: the number of bytes until only the sign is left. -/
def countLoop : ℕ → ℤ → ℕ
  | 0, _ => 0
  | fuel + 1, l =>
    if l / 2 ^ 8 ≠ 0 ∧ l / 2 ^ 8 ≠ -1 then countLoop fuel (l / 2 ^ 8) + 1 else 1

/-- `ntfs_get_nr_significant_bytes`. A 64-bit word takes eight turns at most. -/
def ntfsGetNrSignificantBytes (n : ℤ) : ℕ :=
  let i := countLoop 8 n
  let j := s8 (lowByte (n / 2 ^ (8 * (i - 1))))
  if (n < 0 ∧ 0 ≤ j) ∨ (0 < n ∧ j < 0) then i + 1 else i

def pairSize (vol : NtfsVolume) (lcn length change : ℤ) : ℕ :=
  1 + ntfsGetNrSignificantBytes length +
    if storesLcn vol lcn then ntfsGetNrSignificantBytes change else 0

/-- The error of `ntfs_get_size_for_mapping_pairs` at an element that cannot be encoded. -/
def rejectSize (run : RunlistElement) : Except Failure ℕ :=
  .error (.errno (if run.lcn = lcnRlNotMapped then .einval else .eio))

/-- The loop of `ntfs_get_size_for_mapping_pairs` over the full runs. -/
def sizeLoop (vol : NtfsVolume) (lastVcn : ℤ) :
    List RunlistElement → ℕ → ℤ → Bool → Except Failure ℕ
  | [], _, _, _ => .error .overrun
  | run :: rest, rls, prevLcn, theEnd =>
    if run.length = 0 ∨ theEnd then .ok rls
    else if run.length < 0 ∨ run.lcn < lcnHole then rejectSize run
    else match rest with
      | [] => .error .overrun
      | next :: _ =>
        let capped := cappedLength lastVcn run next
        sizeLoop vol lastVcn rest
          (rls + pairSize vol run.lcn capped.1 (s64 (run.lcn - prevLcn)))
          (if storesLcn vol run.lcn then run.lcn else prevLcn) capped.2

/-- The first run of `ntfs_get_size_for_mapping_pairs` when `firstVcn` lies inside it, and the
loop. -/
def sizePartial (vol : NtfsVolume) (firstVcn lastVcn : ℤ) (run next : RunlistElement)
    (rest : List RunlistElement) : Except Failure ℕ :=
  if run.length < 0 ∨ run.lcn < lcnHole then rejectSize run
  else
    let capped := cappedLength lastVcn run next
    let delta := s64 (firstVcn - run.vcn)
    let prevLcn := if storesLcn vol run.lcn then
      if 0 ≤ run.lcn then s64 (run.lcn + delta) else run.lcn else 0
    sizeLoop vol lastVcn (next :: rest)
      (1 + pairSize vol run.lcn (s64 (capped.1 - delta)) prevLcn) prevLcn capped.2

def ntfsGetSizeForMappingPairs (vol : NtfsVolume) (rl : Option (List RunlistElement))
    (firstVcn lastVcn : ℤ) : Except Failure ℕ :=
  if firstVcn < 0 ∨ lastVcn < -1 ∨ (0 ≤ lastVcn ∧ lastVcn < firstVcn) then .error .bug
  else match rl with
    | none => if firstVcn ≠ 0 ∨ 0 < lastVcn then .error .bug else .ok 1
    | some rl =>
      match skipTo firstVcn rl with
      | [] => .error .overrun
      | run :: rest =>
        if (run.length = 0 ∧ run.vcn < firstVcn) ∨ firstVcn < run.vcn then
          .error (.errno .einval)
        else if run.vcn < firstVcn then
          match rest with
          | [] => .error .overrun
          | next :: rest => sizePartial vol firstVcn lastVcn run next rest
        else sizeLoop vol lastVcn (run :: rest) 1 0 false

/-! ### What the significant bytes are -/

/-- The memory differs at most from `dst` up to but excluding `next`. -/
def FrameOutside (dst next : ℕ) (before after : Memory) : Prop :=
  ∀ i, i < dst ∨ next ≤ i → after i = before i

theorem FrameOutside.trans {dst middle next : ℕ} {first second third : Memory}
    (hfst : FrameOutside dst middle first second) (hsec : FrameOutside middle next second third)
    (hle : dst ≤ middle) (hle' : middle ≤ next) : FrameOutside dst next first third := by
  intro i hi
  rw [hsec i (by omega), hfst i (by omega)]

theorem frameOutside_update (mem : Memory) (dst : ℕ) (byte : UInt8) :
    FrameOutside dst (dst + 1) mem (update mem dst byte) :=
  fun _ hi => update_of_ne (by omega) _ _

theorem FrameOutside.segment {dst next offset : ℕ} {before after : Memory} {bytes : List UInt8}
    (hfrm : FrameOutside dst next before after) (hseg : Segment before offset bytes)
    (hout : offset + bytes.length ≤ dst ∨ next ≤ offset) : Segment after offset bytes :=
  hseg.transfer fun i hi => hfrm _ (by omega)

/-- The `size` bytes are stored at `dst` if they end at or before `limit`, and `value` is the
result. Otherwise there is none, and nothing before `dst` has changed. -/
def Stored (mem : Memory) (dst limit size : ℕ) (bytes : List UInt8) (value : ℕ)
    (result : Memory × Option ℕ) : Prop :=
  ∃ after, (dst + size ≤ limit ∧ result = (after, some value) ∧ Segment after dst bytes ∧
      FrameOutside dst (dst + size) mem after) ∨
    (limit < dst + size ∧ result = (after, none) ∧ ∀ i < dst, after i = mem i)

section

variable {mem : Memory} {dst dstMax fuel : ℕ} {l n : ℤ}

theorem countLoop_pos : 0 < countLoop (fuel + 1) l := by
  rw [countLoop]
  split_ifs <;> omega

theorem countLoop_spec {fuel : ℕ} {l : ℤ} (hlow : -2 ^ (8 * (fuel + 1)) ≤ l)
    (hhigh : l < 2 ^ (8 * (fuel + 1))) : ∃ k ≤ fuel, countLoop (fuel + 1) l = k + 1 ∧
      (l / 2 ^ (8 * (k + 1)) = 0 ∨ l / 2 ^ (8 * (k + 1)) = -1) := by
  rw [countLoop]
  split_ifs with hmore
  · -- The bound leaves more than one byte, so that there is fuel for the rest.
    obtain ⟨fuel, rfl⟩ : ∃ rest, fuel = rest + 1 := by
      refine Nat.exists_eq_succ_of_ne_zero fun hzero => ?_
      subst hzero
      omega
    rw [Nat.mul_succ, Nat.add_comm, pow_add] at hlow hhigh
    obtain ⟨k, hk, hcnt, hsign⟩ := @countLoop_spec fuel (l / 2 ^ 8) (by omega) (by omega)
    rw [Int.ediv_ediv_of_nonneg (by positivity), ← pow_add, Nat.add_comm, ← Nat.mul_succ] at hsign
    exact ⟨k + 1, by omega, by rw [hcnt], hsign⟩
  · refine ⟨0, Nat.zero_le _, rfl, ?_⟩
    by_contra hsign
    exact hmore (not_or.mp hsign)
termination_by fuel

theorem stored_writeLoop (mem : Memory) (dst : ℕ) (l : ℤ) (hdst : fuel ≠ 0 ∨ dst ≤ dstMax + 1) :
    Stored mem dst (dstMax + 1) (countLoop fuel l) (lowBytes (countLoop fuel l) l)
      (dst + countLoop fuel l) (writeLoop dstMax fuel mem dst l) := by
  induction fuel generalizing mem dst l with
  | zero => exact ⟨mem, .inl ⟨by simpa [countLoop] using hdst, rfl, trivial, fun _ _ => rfl⟩⟩
  | succ fuel ih =>
    have hpos := @countLoop_pos fuel l
    have hfrm := frameOutside_update mem dst (lowByte l)
    rw [writeLoop]
    by_cases hfull : dstMax < dst
    · exact ⟨mem, .inr ⟨by omega, if_pos hfull, fun _ _ => rfl⟩⟩
    rw [if_neg hfull, countLoop]
    split_ifs with hmore
    · obtain ⟨after, hcs⟩ := ih (update mem dst (lowByte l)) (dst + 1) (l / 2 ^ 8) (.inr (by omega))
      rw [Nat.add_assoc, Nat.add_comm 1] at hcs
      rcases hcs with ⟨hroom, hwr, hseg, hrest⟩ | ⟨hnone, hwr, hbel⟩
      · refine ⟨after, .inl ⟨hroom, hwr, ⟨?_, hseg⟩, hfrm.trans hrest ?_ ?_⟩⟩
        · rw [hrest dst (.inl (by omega)), update_self]
        · omega
        · omega
      · refine ⟨after, .inr ⟨hnone, hwr, fun i hi => ?_⟩⟩
        rw [hbel i (by omega), update_of_ne hi.ne]
    · exact ⟨_, .inl ⟨by omega, rfl, ⟨update_self .., trivial⟩, hfrm⟩⟩

def significantBytes (n : ℤ) : List UInt8 := lowBytes (ntfsGetNrSignificantBytes n) n

@[simp] theorem length_significantBytes (n : ℤ) :
    (significantBytes n).length = ntfsGetNrSignificantBytes n := length_lowBytes ..

theorem countLoop_eight (hn : IsS64 n) : ∃ k < 8, countLoop 8 n = k + 1 ∧
    n / 2 ^ (8 * (k + 1)) = if n < 0 then -1 else 0 := by
  obtain ⟨hlow, hhigh⟩ := hn
  obtain ⟨k, hk, hcnt, hsign⟩ := @countLoop_spec 7 n (by norm_num; omega) (by norm_num; omega)
  have hpos : (0 : ℤ) < 2 ^ (8 * (k + 1)) := by positivity
  refine ⟨k, by omega, hcnt, ?_⟩
  split_ifs with hneg
  · have hquo := Int.ediv_neg_of_neg_of_pos hneg hpos
    omega
  · have hquo := Int.ediv_nonneg (not_lt.mp hneg) hpos.le
    omega

/-- Assumes: a 64-bit word. Its significant bytes, at most nine, give it back with its sign. -/
theorem significantBytes_spec (hn : IsS64 n) : significantBytes n ≠ [] ∧
    (significantBytes n).length < 16 ∧ signedLe (significantBytes n) = n := by
  obtain ⟨k, hk, hcnt, hsign⟩ := countLoop_eight hn
  have hquo : n / 2 ^ (8 * (k + 1)) = n / 2 ^ (8 * k) / 2 ^ 8 := by
    rw [Int.ediv_ediv_of_nonneg (by positivity), ← pow_add, Nat.mul_succ]
  have hbyte := toNat_lowByte (n / 2 ^ (8 * k))
  have hzero : n = 0 → n / 2 ^ (8 * k) = 0 := by
    rintro rfl
    exact Int.zero_ediv _
  unfold significantBytes ntfsGetNrSignificantBytes
  rw [length_lowBytes, hcnt]
  simp only [Nat.add_sub_cancel]
  by_cases hextra : (n < 0 ∧ 0 ≤ s8 (lowByte (n / 2 ^ (8 * k)))) ∨
    (0 < n ∧ s8 (lowByte (n / 2 ^ (8 * k))) < 0)
  · rw [if_pos hextra]
    refine ⟨lowBytes_ne_nil (by omega) _, by omega, signedLe_lowBytes_of_quotient ?_ ?_⟩ <;>
      rw [hsign] <;> split_ifs <;> decide
  · rw [if_neg hextra]
    rw [hquo] at hsign
    unfold s8 at hextra
    refine ⟨lowBytes_ne_nil (by omega) _, by omega, signedLe_lowBytes_of_quotient ?_ ?_⟩ <;>
      split_ifs at hsign hextra <;> omega

theorem stored_ntfsWriteSignificantBytes (mem : Memory) (dst dstMax : ℕ) (hn : IsS64 n) :
    Stored mem dst (dstMax + 1) (ntfsGetNrSignificantBytes n) (significantBytes n)
      (ntfsGetNrSignificantBytes n) (ntfsWriteSignificantBytes mem dst dstMax n) := by
  obtain ⟨k, -, hcnt, hsign⟩ := countLoop_eight hn
  obtain ⟨written, hcs⟩ :=
    @stored_writeLoop dstMax 8 mem dst n (.inl (Nat.succ_ne_zero 7))
  rw [hcnt] at hcs
  unfold ntfsWriteSignificantBytes significantBytes ntfsGetNrSignificantBytes
  rw [hcnt]
  rcases hcs with ⟨hroom, hloop, hseg, hfrm⟩ | ⟨hnone, hloop, hbel⟩
  · rw [hloop]
    dsimp only
    rw [Nat.add_sub_cancel_left]
    -- An extra byte is the next of the low bytes, and carries the sign alone.
    have hextra : ∀ byte, lowByte (n / 2 ^ (8 * (k + 1))) = byte →
        Stored mem dst (dstMax + 1) (k + 1 + 1) (lowBytes (k + 1 + 1) n) (k + 1 + 1)
          (if dstMax < dst + (k + 1) then (written, none)
            else (update written (dst + (k + 1)) byte, some (k + 1 + 1))) := by
      intro byte hbyte
      split_ifs with hfull
      · exact ⟨written, .inr ⟨by omega, rfl, fun i hi => hfrm i (.inl hi)⟩⟩
      · refine ⟨_, .inl ⟨by omega, rfl, ?_, hfrm.trans (frameOutside_update _ _ _) ?_ ?_⟩⟩
        · rw [lowBytes_succ, segment_append, length_lowBytes, hbyte]
          exact ⟨hseg.update_of_le (by rw [length_lowBytes]), update_self .., trivial⟩
        · omega
        · omega
    by_cases hless : n < 0 ∧ 0 ≤ s8 (lowByte (n / 2 ^ (8 * (k + 1 - 1))))
    · rw [if_pos hless, if_pos (.inl hless)]
      exact hextra 0xff (by rw [hsign, if_pos hless.1]; rfl)
    by_cases hmore : 0 < n ∧ s8 (lowByte (n / 2 ^ (8 * (k + 1 - 1)))) < 0
    · rw [if_neg hless, if_pos hmore, if_pos (.inr hmore)]
      exact hextra 0 (by rw [hsign, if_neg (by omega)]; rfl)
    · rw [if_neg hless, if_neg hmore, if_neg (not_or.mpr ⟨hless, hmore⟩)]
      exact ⟨written, .inl ⟨hroom, rfl, hseg, hfrm⟩⟩
  · rw [hloop]
    refine ⟨written, .inr ⟨?_, rfl, hbel⟩⟩
    dsimp only
    split_ifs <;> omega

end

/-! ### Encoded runs -/

/-- The bytes of a pair: the header, the length and the change of lcn. -/
def pairBytes (pair : MappingPair) : List UInt8 :=
  UInt8.ofNat (pair.deltaBytes.length <<< 4 ||| pair.lengthBytes.length) ::
    (pair.lengthBytes ++ pair.deltaBytes)

/-- The pair encodes the run behind a run that starts at `prevLcn`. -/
structure StandsFor (pair : MappingPair) (prevLcn : ℤ) (run : RunlistElement) : Prop where
  lengthBytes_ne_nil : pair.lengthBytes ≠ []
  lengthBytes_lt : pair.lengthBytes.length < 16
  deltaBytes_lt : pair.deltaBytes.length < 16
  length_eq : signedLe pair.lengthBytes = run.length
  lcn_eq : run.lcn = lcnHole ∧ pair.deltaBytes = [] ∨
    0 ≤ run.lcn ∧ pair.deltaBytes ≠ [] ∧ signedLe pair.deltaBytes = run.lcn - prevLcn

/-- The lcn the run behind `run` counts from. Holes have none. -/
def lcnBehind (prevLcn : ℤ) (run : RunlistElement) : ℤ := if 0 ≤ run.lcn then run.lcn else prevLcn

/-- The bytes from `buf` on encode the runs, in pairs that end with a zero header before
`attrEnd`. -/
def Encodes (bytes : ℕ → UInt8) (attrEnd : ℕ) : ℕ → ℤ → List RunlistElement → Prop
  | buf, _, [] => buf < attrEnd ∧ bytes buf = 0
  | buf, prevLcn, run :: rest => ∃ pair, Segment bytes buf (pairBytes pair) ∧
      StandsFor pair prevLcn run ∧
      Encodes bytes attrEnd (buf + pair.size) (lcnBehind prevLcn run) rest

/-- The decoder makes the run of the pair when it counts from `prevLcn`, and takes it. -/
structure Gives (pair : MappingPair) (prevLcn : ℤ) (run : RunlistElement) : Prop where
  lengthBytes_ne_nil : pair.lengthBytes ≠ []
  lengthBytes_lt : pair.lengthBytes.length < 16
  deltaBytes_lt : pair.deltaBytes.length < 16
  run_eq : pair.run run.vcn prevLcn = run
  lcn_ge : pair.deltaBytes ≠ [] → lcnHole ≤ pair.lcnAfter prevLcn

/-- The bytes from `buf` on are pairs of which the decoder makes the runs, and end with a zero
header before `attrEnd`. -/
def Spells (bytes : ℕ → UInt8) (attrEnd : ℕ) : ℕ → ℤ → List RunlistElement → Prop
  | buf, _, [] => buf < attrEnd ∧ bytes buf = 0
  | buf, prevLcn, run :: rest => ∃ pair, Segment bytes buf (pairBytes pair) ∧
      Gives pair prevLcn run ∧ Spells bytes attrEnd (buf + pair.size) (pair.lcnAfter prevLcn) rest

@[simp] theorem length_pairBytes (pair : MappingPair) : (pairBytes pair).length = pair.size := by
  simp [pairBytes, MappingPair.size]

theorem toNat_header {lenLen lcnLen : ℕ} (hlen : lenLen < 16) (hlcn : lcnLen < 16) :
    (UInt8.ofNat (lcnLen <<< 4 ||| lenLen)).toNat % 16 = lenLen ∧
      (UInt8.ofNat (lcnLen <<< 4 ||| lenLen)).toNat / 16 = lcnLen := by
  have hall : ∀ len < 16, ∀ lcn < 16, (UInt8.ofNat (lcn <<< 4 ||| len)).toNat % 16 = len ∧
      (UInt8.ofNat (lcn <<< 4 ||| len)).toNat / 16 = lcn := by decide
  exact hall lenLen hlen lcnLen hlcn

theorem bytesFrom_of_segment {bytes : ℕ → UInt8} {start : ℕ} {items : List UInt8}
    (hseg : Segment bytes start items) : bytesFrom bytes start items.length = items := by
  refine ext_getElem (length_bytesFrom ..) fun i hleft hright => ?_
  simpa [bytesFrom] using hseg.getElem hright

theorem pairAt_of_segment {bytes : ℕ → UInt8} {buf : ℕ} {pair : MappingPair}
    (hlen : pair.lengthBytes.length < 16) (hdelta : pair.deltaBytes.length < 16)
    (hseg : Segment bytes buf (pairBytes pair)) : pairAt bytes buf = pair := by
  obtain ⟨hhdr, hrest⟩ := hseg
  obtain ⟨hlengthBytes, hdeltaBytes⟩ := (segment_append _ _ _ _).mp hrest
  obtain ⟨hlow, hhigh⟩ := toNat_header hlen hdelta
  rw [← hhdr] at hlow hhigh
  unfold pairAt
  rw [hlow, hhigh, bytesFrom_of_segment hlengthBytes, Nat.add_right_comm,
    bytesFrom_of_segment hdeltaBytes]

section

variable {bytes : ℕ → UInt8} {attrEnd buf fuel : ℕ} {vcn prevLcn : ℤ} {runs : List RunlistElement}

theorem Spells.lt (hsp : Spells bytes attrEnd buf prevLcn runs) : buf < attrEnd := by
  induction runs generalizing buf prevLcn with
  | nil => exact hsp.1
  | cons run runs ih =>
    obtain ⟨pair, -, -, hrest⟩ := hsp
    have hlt := ih hrest
    omega

theorem StandsFor.run_eq {pair : MappingPair} {run : RunlistElement}
    (hstan : StandsFor pair prevLcn run) (hlen : IsS64 run.length) (hlcn : IsS64 run.lcn)
    (hprev : 0 ≤ prevLcn ∧ IsS64 prevLcn) : pair.run run.vcn prevLcn = run ∧
      pair.length = run.length ∧ pair.lcnAfter prevLcn = lcnBehind prevLcn run := by
  have hval : pair.length = run.length := by
    unfold MappingPair.length
    rw [if_neg hstan.lengthBytes_ne_nil, hstan.length_eq, s64_of_isS64 hlen]
  have haft : pair.lcnAfter prevLcn = lcnBehind prevLcn run ∧ pair.lcnOf prevLcn = run.lcn := by
    unfold MappingPair.lcnOf MappingPair.lcnAfter lcnBehind
    rcases hstan.lcn_eq with ⟨hhole, hnil⟩ | ⟨hnn, hne, hdelta⟩
    · have hneg : ¬ 0 ≤ run.lcn := by
        rw [hhole]
        decide
      rw [if_pos hnil, if_pos hnil, if_neg hneg]
      exact ⟨rfl, hhole.symm⟩
    · have hchg : IsS64 (run.lcn - prevLcn) := by
        unfold IsS64 at *
        omega
      rw [if_neg hne, if_neg hne, if_pos hnn, hdelta, s64_of_isS64 hchg, add_sub_cancel,
        s64_of_isS64 hlcn]
      exact ⟨rfl, rfl⟩
  refine ⟨?_, hval, haft.1⟩
  unfold MappingPair.run
  rw [hval, haft.2]

/-- Assumes: an encoding of consecutive runs of 64-bit numbers. The decoder makes the runs of it. -/
theorem Encodes.spells (henco : Encodes bytes attrEnd buf prevLcn runs) {last : ℤ}
    (hch : Chain vcn runs last) (hvcn : 0 ≤ vcn) (hlast : IsS64 last)
    (hlcn : ∀ run ∈ runs, IsS64 run.lcn) (hprev : 0 ≤ prevLcn ∧ IsS64 prevLcn) :
    Spells bytes attrEnd buf prevLcn runs := by
  induction runs generalizing buf vcn prevLcn with
  | nil => exact henco
  | cons run runs ih =>
    obtain ⟨pair, hseg, hstan, hrest⟩ := henco
    obtain ⟨-, hlen, htail⟩ := hch
    have hle := htail.le
    have hbd := hlast.2
    obtain ⟨hrun, -, hbeh⟩ := hstan.run_eq ⟨by omega, by omega⟩ (hlcn run (by simp)) hprev
    have hprev' : 0 ≤ lcnBehind prevLcn run ∧ IsS64 (lcnBehind prevLcn run) := by
      unfold lcnBehind
      split_ifs with hnn
      · exact ⟨hnn, hlcn run (by simp)⟩
      · exact hprev
    refine ⟨pair, hseg, ⟨hstan.lengthBytes_ne_nil, hstan.lengthBytes_lt, hstan.deltaBytes_lt, hrun,
      fun _ => ?_⟩, ?_⟩
    · rw [hbeh]
      exact le_trans (by decide) hprev'.1
    · rw [hbeh]
      exact ih hrest htail (by omega) (fun other hoth => hlcn other (by simp [hoth])) hprev'

/-- Assumes: pairs of which the decoder makes consecutive runs of 64-bit numbers. It takes the
pairs, and they stand for the runs. -/
theorem Spells.decodes (hsp : Spells bytes attrEnd buf prevLcn runs) {last : ℤ}
    (hch : Chain vcn runs last) (hvcn : 0 ≤ vcn) (hlast : IsS64 last)
    (hfuel : attrEnd ≤ buf + fuel) :
    AllAccepted attrEnd buf prevLcn (pairsFrom bytes attrEnd fuel buf) ∧
      runsOf vcn prevLcn (pairsFrom bytes attrEnd fuel buf) = runs ∧
      vcnAfter vcn (pairsFrom bytes attrEnd fuel buf) = last ∧
      buf + sizeOfPairs (pairsFrom bytes attrEnd fuel buf) < attrEnd := by
  induction runs generalizing buf fuel vcn prevLcn with
  | nil =>
    rw [pairsFrom_of_not_atPair _ fun hpair => hpair.2 hsp.2]
    exact ⟨trivial, rfl, hch, hsp.1⟩
  | cons run runs ih =>
    have hlt := hsp.lt
    obtain ⟨pair, hseg, hgives, hrest⟩ := hsp
    obtain ⟨fuel, rfl⟩ : ∃ more, fuel = more + 1 := Nat.exists_eq_succ_of_ne_zero (by omega)
    have hpair := pairAt_of_segment hgives.lengthBytes_lt hgives.deltaBytes_lt hseg
    have hpos := List.length_pos_iff.mpr hgives.lengthBytes_ne_nil
    have hhdr : bytes buf ≠ 0 := by
      intro hzero
      have hnil := length_lengthBytes_pairAt buf bytes
      rw [hpair, hzero] at hnil
      exact absurd hnil hpos.ne'
    obtain ⟨hst, hlen, htail⟩ := hch
    have hle := htail.le
    have hbd := hlast.2
    have hval : pair.length = run.length := congrArg RunlistElement.length hgives.run_eq
    have hsum : s64 (vcn + pair.length) = vcn + run.length := by
      rw [hval]
      exact s64_of_isS64 ⟨by omega, by omega⟩
    have hsize : pair.size = pair.lengthBytes.length + pair.deltaBytes.length + 1 := rfl
    have hfuel' : attrEnd ≤ buf + pair.size + fuel := by omega
    obtain ⟨hall, hruns, hvcnAfter, hin⟩ := ih hrest htail (by omega) hfuel'
    rw [pairsFrom_of_atPair fuel hlt hhdr, hpair]
    refine ⟨⟨⟨hgives.lengthBytes_ne_nil, by omega, by omega, fun hne => ⟨by omega, ?_⟩⟩, hall⟩, ?_,
      ?_, ?_⟩
    · exact hgives.lcn_ge hne
    · rw [runsOf, hsum, hruns, ← hst, hgives.run_eq]
    · rw [vcnAfter, hsum, hvcnAfter]
    · rw [sizeOfPairs, map_cons, sum_cons, ← Nat.add_assoc]
      exact hin

end

/-! ### What the encoder writes -/

def codedPair (vol : NtfsVolume) (lcn length change : ℤ) : MappingPair :=
  ⟨significantBytes length, if storesLcn vol lcn then significantBytes change else []⟩

def lcnCounted (vol : NtfsVolume) (prevLcn lcn : ℤ) : ℤ :=
  if storesLcn vol lcn then lcn else prevLcn

section

variable {vol : NtfsVolume} {mem after : Memory} {dst dstMax next : ℕ} {lcn length change : ℤ}

@[simp] theorem length_lengthBytes_codedPair (vol : NtfsVolume) (lcn length change : ℤ) :
    (codedPair vol lcn length change).lengthBytes.length = ntfsGetNrSignificantBytes length :=
  length_significantBytes _

@[simp] theorem length_deltaBytes_codedPair (vol : NtfsVolume) (lcn length change : ℤ) :
    (codedPair vol lcn length change).deltaBytes.length =
      if storesLcn vol lcn then ntfsGetNrSignificantBytes change else 0 := by
  unfold codedPair
  split_ifs
  · exact length_significantBytes _
  · rfl

@[simp] theorem size_codedPair (vol : NtfsVolume) (lcn length change : ℤ) :
    (codedPair vol lcn length change).size = pairSize vol lcn length change := by
  rw [MappingPair.size, pairSize, length_lengthBytes_codedPair, length_deltaBytes_codedPair]
  omega

/-- Assumes: 64-bit words. The pair is stored, if there is room for it and a terminator. -/
theorem stored_writePair (vol : NtfsVolume) (mem : Memory) (dst dstMax : ℕ) (lcn : ℤ)
    (hlen : IsS64 length) (hchg : IsS64 change) :
    Stored mem dst dstMax (pairSize vol lcn length change)
      (pairBytes (codedPair vol lcn length change)) (dst + pairSize vol lcn length change)
      (writePair vol mem dst dstMax lcn length change) := by
  have hsize : pairSize vol lcn length change = 1 + ntfsGetNrSignificantBytes length +
      (codedPair vol lcn length change).deltaBytes.length := by
    rw [length_deltaBytes_codedPair, pairSize]
  unfold writePair
  obtain ⟨first, ⟨hroom, hfst, hlengthBytes, hlengthFrame⟩ | ⟨hfull, hfst, hbel⟩⟩ :=
    stored_ntfsWriteSignificantBytes mem (dst + 1) dstMax hlen
  swap
  · rw [hfst]
    exact ⟨first, .inr ⟨by omega, rfl, fun i hi => hbel i (by omega)⟩⟩
  have hlcn : Stored first (dst + 1 + ntfsGetNrSignificantBytes length) (dstMax + 1)
      (codedPair vol lcn length change).deltaBytes.length
      (codedPair vol lcn length change).deltaBytes
      (codedPair vol lcn length change).deltaBytes.length (if storesLcn vol lcn then
        ntfsWriteSignificantBytes first (dst + 1 + ntfsGetNrSignificantBytes length) dstMax change
        else (first, some 0)) := by
    rw [length_deltaBytes_codedPair]
    unfold codedPair
    split_ifs
    · exact stored_ntfsWriteSignificantBytes _ _ _ hchg
    · exact ⟨first, .inl ⟨hroom, rfl, trivial, fun _ _ => rfl⟩⟩
  rw [hfst]
  dsimp only
  obtain ⟨second, ⟨-, hsec, hdeltaBytes, hdeltaFrame⟩ | ⟨hfull, hsec, hbel⟩⟩ := hlcn
  swap
  · rw [hsec]
    refine ⟨second, .inr ⟨by omega, rfl, fun i hi => ?_⟩⟩
    rw [hbel i (by omega), hlengthFrame i (by omega)]
  rw [hsec]
  dsimp only
  split_ifs with hfull
  · refine ⟨second, .inr ⟨by omega, rfl, fun i hi => ?_⟩⟩
    rw [hdeltaFrame i (by omega), hlengthFrame i (by omega)]
  refine ⟨_, .inl ⟨by omega, Prod.ext rfl (congrArg some (by omega)),
    ⟨?_, (segment_append ..).mpr ⟨?_, ?_⟩⟩, fun i hi => ?_⟩⟩
  · rw [update_self, length_lengthBytes_codedPair]
  · refine (hdeltaFrame.segment hlengthBytes (.inl ?_)).update_of_lt (by omega)
    rw [length_significantBytes]
  · rw [length_lengthBytes_codedPair]
    exact hdeltaBytes.update_of_lt (by omega)
  · rw [update_of_ne (by omega), hdeltaFrame i (by omega), hlengthFrame i (by omega)]

/-- Assumes: a run of 64-bit numbers that is mapped or a hole. The decoder makes the run of the pair
written for it, and counts on as the encoder does. -/
theorem gives_codedPair {run : RunlistElement} {prevLcn : ℤ} (hlen : IsS64 run.length)
    (hlcn : IsS64 run.lcn) (hhole : lcnHole ≤ run.lcn) :
    Gives (codedPair vol run.lcn run.length (s64 (run.lcn - prevLcn))) prevLcn run ∧
      (codedPair vol run.lcn run.length (s64 (run.lcn - prevLcn))).lcnAfter prevLcn =
        lcnCounted vol prevLcn run.lcn := by
  obtain ⟨hne, hlt, hval⟩ := significantBytes_spec hlen
  obtain ⟨hne', hlt', hval'⟩ := significantBytes_spec (isS64_s64 (run.lcn - prevLcn))
  unfold codedPair lcnCounted
  cases hstor : storesLcn vol run.lcn with
  | true =>
    have haft : s64 (prevLcn + s64 (s64 (run.lcn - prevLcn))) = run.lcn := by
      rw [s64_of_isS64 (isS64_s64 _), add_comm, s64_s64_add, sub_add_cancel, s64_of_isS64 hlcn]
    simp only [if_true, MappingPair.lcnAfter, if_neg hne', hval', haft, and_true]
    refine ⟨hne, hlt, hlt', ?_, fun _ => ?_⟩
    · simp only [MappingPair.run, MappingPair.length, MappingPair.lcnOf, MappingPair.lcnAfter,
        if_neg hne, if_neg hne', hval, hval', haft, s64_of_isS64 hlen]
    · simpa only [MappingPair.lcnAfter, if_neg hne', hval', haft] using hhole
  | false =>
    have hnega : run.lcn = lcnHole := by
      have hneg := (not_or.mp (of_decide_eq_false hstor)).1
      unfold lcnHole at *
      omega
    refine ⟨⟨hne, hlt, by simp, ?_, fun hnil => absurd rfl hnil⟩, rfl⟩
    simp [MappingPair.run, MappingPair.length, MappingPair.lcnOf, if_neg hne, hval,
      s64_of_isS64 hlen, ← hnega]

theorem spells_cons {run : RunlistElement} {prevLcn : ℤ} {runs : List RunlistElement} {attrEnd : ℕ}
    (hlen : IsS64 run.length) (hlcn : IsS64 run.lcn) (hhole : lcnHole ≤ run.lcn)
    (hpair : Segment mem dst
      (pairBytes (codedPair vol run.lcn run.length (s64 (run.lcn - prevLcn)))))
    (hrest : Spells mem attrEnd (dst + pairSize vol run.lcn run.length (s64 (run.lcn - prevLcn)))
      (lcnCounted vol prevLcn run.lcn) runs) :
    Spells mem attrEnd dst prevLcn (run :: runs) := by
  obtain ⟨hgives, hcnt⟩ := gives_codedPair hlen hlcn hhole
  refine ⟨_, hpair, hgives, ?_⟩
  rw [size_codedPair, hcnt]
  exact hrest

end

/-! ### What the loop leaves -/

/-- Where the part up to `lastVcn` of runs that end at `last` ends. -/
def partEnd (lastVcn last : ℤ) : ℤ := if lastVcn = -1 then last else min (lastVcn + 1) last

/-- One of the runs starts at `vcn`, or their terminator. -/
def Boundary (runs : List RunlistElement) (last vcn : ℤ) : Prop :=
  vcn = last ∨ ∃ run ∈ runs, run.vcn = vcn

/-- The array spells the whole part from `first` up to `lastVcn`, and the vcn stored is where the
first element at or behind its end starts. -/
structure Finished (built : Built) (attrEnd dst : ℕ) (prevLcn first lastVcn last : ℤ)
    (runs : List RunlistElement) : Prop where
  status : built.status = .ok ()
  spells : Spells built.mem attrEnd dst prevLcn (restrict first (partEnd lastVcn last) runs)
  stop : ∃ stop, built.stopVcn = some stop ∧
    IsLeast {vcn | Boundary runs last vcn ∧ partEnd lastVcn last ≤ vcn} stop

/-- There was no room for the whole part: the vcn stored is where an element before its end starts,
and the array spells the runs up to there. -/
structure Interrupted (built : Built) (attrEnd dst : ℕ) (prevLcn first lastVcn last : ℤ)
    (runs : List RunlistElement) : Prop where
  status : built.status = .error (.errno .enospc)
  stop : ∃ stop, built.stopVcn = some stop ∧ Boundary runs last stop ∧
    stop < partEnd lastVcn last ∧ Spells built.mem attrEnd dst prevLcn (restrict first stop runs)

/-- The array takes `size` bytes without its terminator. It is finished when there is room for it,
and interrupted when there is not. -/
def Outcome (built : Built) (attrEnd dst size : ℕ) (prevLcn first lastVcn last : ℤ)
    (runs : List RunlistElement) : Prop :=
  (dst + size < attrEnd ∧ Finished built attrEnd dst prevLcn first lastVcn last runs) ∨
    (attrEnd ≤ dst + size ∧ Interrupted built attrEnd dst prevLcn first lastVcn last runs)

section

variable {vol : NtfsVolume} {mem after : Memory} {dst dstMax attrEnd next size : ℕ}
  {prevLcn first lastVcn vcn last : ℤ} {run : RunlistElement} {runs rest : List RunlistElement}
variable {theEnd : Bool} {built : Built} {before : List RunlistElement}
  {terminator : RunlistElement} {rls : ℕ}

theorem boundary_cons :
    Boundary (run :: runs) last vcn ↔ run.vcn = vcn ∨ Boundary runs last vcn := by
  simp only [Boundary, mem_cons, exists_eq_or_imp]
  exact or_left_comm

theorem Boundary.le (hbdy : Boundary runs last vcn) (hch : Chain first runs last) :
    first ≤ vcn := by
  rcases hbdy with rfl | ⟨run, hrun, rfl⟩
  · exact hch.le
  · exact (hch.mem hrun).1

theorem Boundary.le_last (hbdy : Boundary runs last vcn) (hch : Chain first runs last) :
    vcn ≤ last := by
  rcases hbdy with rfl | ⟨run, hrun, rfl⟩
  · exact le_rfl
  · obtain ⟨-, hlen, hend⟩ := hch.mem hrun
    omega

theorem Boundary.exists_append (hbdy : Boundary runs last vcn) (hch : Chain first runs last) :
    ∃ before after, runs = before ++ after ∧ Chain first before vcn ∧ Chain vcn after last := by
  rcases hbdy with rfl | ⟨run, hrun, rfl⟩
  · exact ⟨runs, [], (append_nil _).symm, hch, rfl⟩
  · obtain ⟨before, after, rfl⟩ := append_of_mem hrun
    obtain ⟨middle, hbef, haft⟩ := (chain_append ..).mp hch
    obtain rfl : run.vcn = middle := haft.1
    exact ⟨before, run :: after, rfl, hbef, haft⟩

theorem le_partEnd (hlast : vcn ≤ last) (hlastVcn : lastVcn = -1 ∨ vcn ≤ lastVcn + 1) :
    vcn ≤ partEnd lastVcn last := by
  unfold partEnd
  split_ifs <;> omega

theorem partEnd_le : partEnd lastVcn last ≤ last := by
  unfold partEnd
  split_ifs <;> omega

theorem cappedLength_eq {next : RunlistElement} (hnext : next.vcn = run.vcn + run.length)
    (hvcn : 0 ≤ run.vcn) (hword : IsS64 next.vcn) (hlow : lastVcn = -1 ∨ run.vcn ≤ lastVcn) :
    cappedLength lastVcn run next =
      if 0 ≤ lastVcn ∧ lastVcn < next.vcn then ((upTo run (lastVcn + 1)).length, true)
      else (run.length, false) := by
  have hbound := hword.2
  unfold cappedLength upTo
  split_ifs with hreach hcut
  · have hend : s64 (lastVcn + 1) = lastVcn + 1 := s64_of_isS64 ⟨by omega, by omega⟩
    rw [hend, s64_of_isS64 ⟨by omega, by omega⟩]
  · have hend : s64 (lastVcn + 1) = lastVcn + 1 := s64_of_isS64 ⟨by omega, by omega⟩
    simp only [Prod.mk.injEq, and_true]
    omega
  · rfl

theorem buildLoop_cons {next : RunlistElement} (hlen : 0 < run.length) (hhole : lcnHole ≤ run.lcn) :
    buildLoop vol dstMax lastVcn (run :: next :: rest) mem dst prevLcn false =
      match writePair vol mem dst dstMax run.lcn (cappedLength lastVcn run next).1
        (s64 (run.lcn - prevLcn)) with
      | (mem, none) => endBuild mem dst run (.error (.errno .enospc))
      | (mem, some dst) => buildLoop vol dstMax lastVcn (next :: rest) mem dst
          (lcnCounted vol prevLcn run.lcn) (cappedLength lastVcn run next).2 := by
  have hgoes : ¬ (run.length = 0 ∨ false = true) := by simp [hlen.ne']
  have htak : ¬ (run.length < 0 ∨ run.lcn < lcnHole) := by omega
  rw [buildLoop, if_neg hgoes, if_neg htak]
  rfl

theorem sizeLoop_cons {next : RunlistElement} (hlen : 0 < run.length) (hhole : lcnHole ≤ run.lcn) :
    sizeLoop vol lastVcn (run :: next :: rest) rls prevLcn false =
      sizeLoop vol lastVcn (next :: rest)
        (rls + pairSize vol run.lcn (cappedLength lastVcn run next).1 (s64 (run.lcn - prevLcn)))
        (lcnCounted vol prevLcn run.lcn) (cappedLength lastVcn run next).2 := by
  have hgoes : ¬ (run.length = 0 ∨ false = true) := by simp [hlen.ne']
  have htak : ¬ (run.length < 0 ∨ run.lcn < lcnHole) := by omega
  rw [sizeLoop, if_neg hgoes, if_neg htak]
  rfl

theorem buildLoop_theEnd (hend : run.length = 0 ∨ theEnd = true) :
    buildLoop vol dstMax lastVcn (run :: rest) mem dst prevLcn theEnd =
      endBuild mem dst run (.ok ()) := by
  cases rest <;> rw [buildLoop, if_pos hend]

theorem sizeLoop_theEnd (hend : run.length = 0 ∨ theEnd = true) :
    sizeLoop vol lastVcn (run :: rest) rls prevLcn theEnd = .ok rls := by
  cases rest <;> rw [sizeLoop, if_pos hend]

theorem interrupted_endBuild (hch : Chain first (run :: runs) last)
    (hend : first < partEnd lastVcn last) (hdst : dst < attrEnd) :
    Interrupted (endBuild mem dst run (.error (.errno .enospc))) attrEnd dst prevLcn first lastVcn
      last (run :: runs) := by
  refine ⟨rfl, run.vcn, rfl, boundary_cons.mpr (.inl rfl), hch.1 ▸ hend, ?_⟩
  rw [restrict_eq_nil _ hch.1.le]
  exact ⟨hdst, update_self ..⟩

theorem Outcome.cons (hch : Chain first (run :: runs) last) (hword : IsS64 run.length)
    (hlcn : IsS64 run.lcn) (hhole : lcnHole ≤ run.lcn)
    (hend : first + run.length ≤ partEnd lastVcn last) (hpair : Segment built.mem dst
      (pairBytes (codedPair vol run.lcn run.length (s64 (run.lcn - prevLcn)))))
    (hout : Outcome built attrEnd (dst + pairSize vol run.lcn run.length (s64 (run.lcn - prevLcn)))
      size (lcnCounted vol prevLcn run.lcn) (first + run.length) lastVcn last runs) :
    Outcome built attrEnd dst (pairSize vol run.lcn run.length (s64 (run.lcn - prevLcn)) + size)
      prevLcn first lastVcn last (run :: runs) := by
  have hvcn := hch.1
  have hlen := hch.2.1
  rcases hout with ⟨hroom, hfin⟩ | ⟨hfull, hint⟩
  · obtain ⟨stop, hstop, hleast⟩ := hfin.stop
    refine .inl ⟨by omega, hfin.status, ?_, stop, hstop, ?_, ?_⟩
    · rw [restrict_cons_of_le hch hlcn (by omega)]
      exact spells_cons hword hlcn hhole hpair hfin.spells
    · exact ⟨boundary_cons.mpr (.inr hleast.1.1), hleast.1.2⟩
    · rintro vcn ⟨hbdy, hle⟩
      rcases boundary_cons.mp hbdy with rfl | hbdy
      · omega
      · exact hleast.2 ⟨hbdy, hle⟩
  · obtain ⟨stop, hstop, hbdy, hlt, hsp⟩ := hint.stop
    have hle := hbdy.le hch.2.2
    refine .inr ⟨by omega, hint.status, stop, hstop, boundary_cons.mpr (.inr hbdy), hlt, ?_⟩
    rw [restrict_cons_of_le hch hlcn (by omega)]
    exact spells_cons hword hlcn hhole hpair hsp

theorem Outcome.spells (hout : Outcome built attrEnd dst size prevLcn first lastVcn last runs)
    (hstat : built.status = .ok ()) :
    Spells built.mem attrEnd dst prevLcn (restrict first (partEnd lastVcn last) runs) := by
  rcases hout with ⟨-, hfin⟩ | ⟨-, hint⟩
  · exact hfin.spells
  · rw [hint.status] at hstat
    cases hstat

/-- Assumes: a first run that reaches `lastVcn`, capped there and written. The part ends with it,
and the vcn stored is where the next element starts. -/
theorem finished_of_reach (hch : Chain first (run :: runs) terminator.vcn) (hvcn : 0 ≤ first)
    (hlast : IsS64 terminator.vcn) (hlcn : IsS64 run.lcn) (hhole : lcnHole ≤ run.lcn)
    (hlow : first ≤ lastVcn) (hhigh : lastVcn < first + run.length)
    (hpair : Segment mem dst (pairBytes (codedPair vol run.lcn (upTo run (lastVcn + 1)).length
      (s64 (run.lcn - prevLcn)))))
    (hnext : next = dst + pairSize vol run.lcn (upTo run (lastVcn + 1)).length
      (s64 (run.lcn - prevLcn))) (hroom : next ≤ dstMax) :
    Finished (buildLoop vol dstMax lastVcn (runs ++ [terminator]) mem next
        (lcnCounted vol prevLcn run.lcn) true) (dstMax + 1) dst prevLcn first lastVcn terminator.vcn
        (run :: runs) := by
  have hle := hch.2.2.le
  have hbound := hlast.2
  have hst := hch.1
  have hend : partEnd lastVcn terminator.vcn = lastVcn + 1 := by
    unfold partEnd
    rw [if_neg (by omega), min_eq_left (by omega)]
  have hword : IsS64 (upTo run (lastVcn + 1)).length := by
    unfold IsS64 upTo
    dsimp only
    omega
  obtain ⟨following, rest, hcons, hfoll⟩ := hch.2.2.exists_cons []
  rw [hcons, buildLoop_theEnd (.inr rfl)]
  refine ⟨rfl, ?_, following.vcn, rfl, ⟨boundary_cons.mpr (.inr ?_), by omega⟩, ?_⟩
  · rw [hend, restrict_cons_of_lt hch hlcn (by omega) (by omega)]
    refine spells_cons hword hlcn hhole (hpair.update_of_le ?_) ⟨?_, ?_⟩
    · rw [length_pairBytes, size_codedPair, hnext]
    · exact Nat.lt_succ_of_le (hnext.ge.trans hroom)
    · exact hnext ▸ update_self ..
  · cases runs with
    | nil => exact .inl (congrArg RunlistElement.vcn (List.cons.inj hcons).1).symm
    | cons second runs =>
      obtain ⟨rfl, -⟩ := List.cons.inj hcons
      exact .inr ⟨_, mem_cons_self, rfl⟩
  · rintro vcn ⟨hbdy, hbeh⟩
    rcases boundary_cons.mp hbdy with rfl | hbdy
    · omega
    · rw [hfoll]
      exact hbdy.le hch.2.2

/-- Assumes: consecutive runs of 64-bit numbers that are mapped or holes, with a terminator, and a
`lastVcn` at or behind their start. The loop writes nothing before `dst`, and finishes the part up
to `lastVcn` exactly when there is room for the size counted for it. -/
theorem buildLoop_outcome (hch : Chain first runs terminator.vcn) (hvcn : 0 ≤ first)
    (hlast : IsS64 terminator.vcn) (hlen : terminator.length = 0)
    (hlcn : ∀ run ∈ runs, IsS64 run.lcn) (hhole : ∀ run ∈ runs, lcnHole ≤ run.lcn)
    (hlastVcn : lastVcn = -1 ∨ first ≤ lastVcn) (vol : NtfsVolume) (mem : Memory)
    (hdst : dst ≤ dstMax) (prevLcn : ℤ) (rls : ℕ) :
    ∃ size, sizeLoop vol lastVcn (runs ++ [terminator]) rls prevLcn false =
      .ok (rls + size) ∧ (∀ i < dst,
        (buildLoop vol dstMax lastVcn (runs ++ [terminator]) mem dst prevLcn false).mem i = mem i) ∧
      Outcome (buildLoop vol dstMax lastVcn (runs ++ [terminator]) mem dst prevLcn false)
        (dstMax + 1) dst size prevLcn first lastVcn terminator.vcn runs := by
  induction runs generalizing first mem dst prevLcn rls with
  | nil =>
    obtain rfl : first = terminator.vcn := hch
    rw [nil_append, sizeLoop_theEnd (.inl hlen), buildLoop_theEnd (.inl hlen)]
    refine ⟨0, rfl, fun i hi => update_of_ne hi.ne _ _, .inl ⟨by omega, rfl, ?_,
      terminator.vcn, rfl, ⟨.inl rfl, partEnd_le⟩, ?_⟩⟩
    · exact ⟨by omega, update_self ..⟩
    · rintro vcn ⟨hbdy, -⟩
      exact hbdy.le (show Chain terminator.vcn [] terminator.vcn from rfl)
  | cons run runs ih =>
    have hch' := hch
    obtain ⟨hst, hpos, htail⟩ := hch'
    have hle := htail.le
    have hbound := hlast.2
    obtain ⟨hrunLcn, hlcn'⟩ := List.forall_mem_cons.mp hlcn
    obtain ⟨hrunHole, hhole'⟩ := List.forall_mem_cons.mp hhole
    obtain ⟨following, rest, hcons, hfoll⟩ := hch.2.2.exists_cons []
    have hword : IsS64 following.vcn := ⟨by omega, by omega⟩
    have hcapp : cappedLength lastVcn run following = _ :=
      cappedLength_eq (by omega) (by omega) hword (by omega)
    have hend : first + 1 ≤ partEnd lastVcn terminator.vcn := le_partEnd (by omega) (by omega)
    rw [cons_append, hcons, buildLoop_cons hpos hrunHole, sizeLoop_cons hpos hrunHole,
      ← hcons, hcapp]
    split_ifs with hreach
    · have hlengthWord : IsS64 (upTo run (lastVcn + 1)).length := by
        unfold IsS64 upTo
        dsimp only
        omega
      obtain ⟨after, ⟨hroom, hwr, hpair, hfrm⟩ | ⟨hfull, hwr, hbel⟩⟩ :=
        stored_writePair vol mem dst dstMax run.lcn hlengthWord (isS64_s64 (run.lcn - prevLcn))
      · have hfin := finished_of_reach hch hvcn hlast hrunLcn hrunHole (by omega) (by omega)
          hpair rfl hroom
        rw [hcons] at hfin ⊢
        rw [buildLoop_theEnd (.inr rfl)] at hfin
        simp only [hwr, buildLoop_theEnd (.inr rfl), sizeLoop_theEnd (.inr rfl)]
        refine ⟨_, rfl, fun i hi => ?_, .inl ⟨by omega, hfin⟩⟩
        exact (update_of_ne (by omega) _ _).trans (hfrm i (.inl hi))
      · rw [hcons, sizeLoop_theEnd (.inr rfl)]
        simp only [hwr]
        refine ⟨_, rfl, fun i hi => ?_,
          .inr ⟨by omega, interrupted_endBuild hch (by omega) (by omega)⟩⟩
        exact (update_of_ne hi.ne _ _).trans (hbel i hi)
    · have hlengthWord : IsS64 run.length := ⟨by omega, by omega⟩
      obtain ⟨after, ⟨hroom, hwr, hpair, hfrm⟩ | ⟨hfull, hwr, hbel⟩⟩ :=
        stored_writePair vol mem dst dstMax run.lcn hlengthWord (isS64_s64 (run.lcn - prevLcn))
      · obtain ⟨size, hsize, hbef, hout⟩ := ih htail (by omega) hlcn' hhole' (by omega) after
          hroom (lcnCounted vol prevLcn run.lcn)
          (rls + pairSize vol run.lcn run.length (s64 (run.lcn - prevLcn)))
        simp only [hwr]
        refine ⟨_, hsize.trans (by rw [Nat.add_assoc]), fun i hi => ?_, ?_⟩
        · rw [hbef i (by omega), hfrm i (.inl hi)]
        · refine hout.cons hch hlengthWord hrunLcn hrunHole (le_partEnd (by omega) (by omega))
            (hpair.transfer fun i hi => hbef _ ?_)
          rw [length_pairBytes, size_codedPair] at hi
          omega
      · obtain ⟨size, hsize, -, -⟩ := ih htail (by omega) hlcn' hhole' (by omega) after
          (le_refl dstMax) (lcnCounted vol prevLcn run.lcn)
          (rls + pairSize vol run.lcn run.length (s64 (run.lcn - prevLcn)))
        simp only [hwr]
        refine ⟨_, hsize.trans (by rw [Nat.add_assoc]), fun i hi => ?_, .inr ⟨by omega,
          interrupted_endBuild hch (by omega) (by omega)⟩⟩
        exact (update_of_ne hi.ne _ _).trans (hbel i hi)

theorem skipTo_append {after : List RunlistElement}
    (hch : Chain first (before ++ after) terminator.vcn) (haft : Chain last after terminator.vcn)
    (hle : last ≤ vcn) : skipTo vcn (before ++ after ++ [terminator]) =
      skipTo vcn (after ++ [terminator]) := by
  induction before generalizing first with
  | nil => rfl
  | cons run before ih =>
    have hfull : Chain first (run :: (before ++ after)) terminator.vcn := hch
    obtain ⟨following, rest, hcons, hfoll⟩ := hfull.2.2.exists_cons []
    have hrch : following.vcn ≤ vcn := by
      obtain ⟨middle, hbef, hmidd⟩ := (chain_append ..).mp hch.2.2
      have hmeet : middle = last := by
        cases after with
        | nil => exact hmidd.trans haft.symm
        | cons second after => exact hmidd.1.symm.trans haft.1
      have hfr := hbef.le
      omega
    rw [cons_append, cons_append, hcons, skipTo, if_neg hch.2.1.ne', if_pos hrch,
      ← hcons, ih hch.2.2]

theorem skipTo_of_covers (hch : Chain first (run :: runs) terminator.vcn) (hcov : run.Covers vcn) :
    skipTo vcn (run :: runs ++ [terminator]) = run :: runs ++ [terminator] := by
  obtain ⟨following, rest, hcons, hfoll⟩ := hch.2.2.exists_cons []
  have hst := hch.1
  have hbeh : vcn < following.vcn := by
    rw [hfoll, ← hst]
    exact hcov.2
  rw [cons_append, hcons, skipTo, if_neg hch.2.1.ne', if_neg (not_le.mpr hbeh)]

theorem ntfsMappingPairsBuild_eq {after : List RunlistElement}
    (hch : Chain 0 (before ++ after) terminator.vcn) (hlen : terminator.length = 0)
    (haft : Chain first after terminator.vcn) (hfst : 0 ≤ first)
    (hlastVcn : lastVcn = -1 ∨ first ≤ lastVcn) (vol : NtfsVolume) (mem : Memory) (dst : ℕ)
    {dstLen : ℕ} (hroom : 0 < dstLen) :
    ntfsMappingPairsBuild vol mem dst dstLen (some (before ++ after ++ [terminator]))
      first lastVcn = buildLoop vol (dst + dstLen - 1) lastVcn (after ++ [terminator]) mem dst
      0 false := by
  have hskip : skipTo first (after ++ [terminator]) = after ++ [terminator] := by
    cases after with
    | nil => rw [nil_append, skipTo, if_pos hlen]
    | cons run after =>
      refine skipTo_of_covers haft ⟨haft.1.le, ?_⟩
      have hpos := haft.2.1
      have hst := haft.1
      omega
  unfold ntfsMappingPairsBuild
  rw [if_neg (by omega)]
  simp only [skipTo_append hch haft le_rfl, hskip]
  cases after with
  | nil =>
    obtain rfl : first = terminator.vcn := haft
    simp
  | cons run after =>
    obtain rfl : run.vcn = first := haft.1
    simp

end

theorem maxCluster_eq {vol : NtfsVolume} {attr : AttrRecord} {clusters : ℤ} (hclus : 0 ≤ clusters)
    (hallo : attr.allocatedSize = clusters * vol.clusterSize) :
    maxCluster vol attr = clusters - 1 := by
  have hsize := attr.allocatedSize_isS64
  rw [hallo] at hsize
  unfold NtfsVolume.clusterSize at hsize hallo
  have hbits := vol.clusterSizeBits_lt
  have hpos : (0 : ℤ) < 2 ^ vol.clusterSizeBits := by positivity
  obtain ⟨more, hmore⟩ := Nat.exists_eq_add_of_lt (show vol.clusterSizeBits < 63 by omega)
  have hpow : (2 : ℤ) ^ 63 = 2 ^ (more + 1) * 2 ^ vol.clusterSizeBits := by
    rw [← pow_add]
    congr 1
    omega
  have hlt : clusters < 2 ^ (more + 1) := by
    have hhigh := hsize.2
    rw [hpow] at hhigh
    exact lt_of_mul_lt_mul_right hhigh hpos.le
  have hnext : (clusters + 1) * 2 ^ vol.clusterSizeBits ≤ 2 ^ 63 := by
    rw [hpow]
    exact mul_le_mul_of_nonneg_right (by omega) hpos.le
  have hsum : s64 (attr.allocatedSize + vol.clusterSize - 1) =
      2 ^ vol.clusterSizeBits - 1 + clusters * 2 ^ vol.clusterSizeBits := by
    unfold NtfsVolume.clusterSize
    rw [hallo, s64_of_isS64]
    · ring
    · have hnn : 0 ≤ clusters * 2 ^ vol.clusterSizeBits := mul_nonneg hclus hpos.le
      rw [add_mul, one_mul] at hnext
      exact ⟨by omega, by omega⟩
  have hquo : (2 ^ vol.clusterSizeBits - 1 + clusters * 2 ^ vol.clusterSizeBits) /
      2 ^ vol.clusterSizeBits = clusters := by
    rw [Int.add_mul_ediv_right _ _ hpos.ne', Int.ediv_eq_zero_of_lt (by omega) (by omega), zero_add]
  have hle : clusters * 1 ≤ clusters * 2 ^ vol.clusterSizeBits :=
    mul_le_mul_of_nonneg_left (by omega) hclus
  have hhigh := hsize.2
  unfold maxCluster
  rw [hsum, hquo]
  exact s64_of_isS64 ⟨by omega, by omega⟩

theorem decodes_of_spells (vol : NtfsVolume) {attr : AttrRecord}
    {runs : List RunlistElement} {last : ℤ}
    (hsp : Spells attr.bytes attr.length attr.mappingPairsOffset 0 runs) (hruns : runs ≠ [])
    (hch : Chain attr.lowestVcn runs last) (hlow : 0 ≤ attr.lowestVcn) (hlast : IsS64 last)
    (hhigh : attr.highestVcn = last - 1)
    (hmax : attr.lowestVcn = 0 → attr.highestVcn ≤ maxCluster vol attr) :
    attr.Decodes vol ∧ runsOf attr.lowestVcn 0 attr.pairs = runs ∧
      vcnAfter attr.lowestVcn attr.pairs = last := by
  obtain ⟨hall, hpairs, hvcn, hin⟩ :=
    hsp.decodes hch hlow hlast (Nat.le_add_left _ _)
  have hpos := hch.lt hruns
  have hbd := hlast.2
  refine ⟨⟨hsp.lt.le, fun hemp => hruns ?_, hall, hin, .inr ?_, fun hbase _ => hmax hbase⟩,
    hpairs, hvcn⟩
  · rw [← hpairs, pairsFrom_of_not_atPair _ fun hpair => hpair.2 hemp.2]
    rfl
  · rw [AttrRecord.pairs, hvcn, hhigh]
    exact s64_of_isS64 ⟨by omega, by omega⟩

/-- Assumes: a volume that leaves out the lcn of holes, a mapped runlist with its end, and an
attribute record for it whose mapping pairs have been built from it. The decoder gives the runlist
back. -/
theorem decompress_build (vol : NtfsVolume) (_hversion : 3 ≤ vol.majorVer) (rl : Runlist)
    (hmapped : ∀ run ∈ rl.runs, lcnHole ≤ run.lcn) (hend : rl.last.lcn = lcnEnoent) (mem : Memory)
    (attr : AttrRecord) (hlowest : attr.lowestVcn = 0)
    (hhighest : attr.highestVcn = rl.last.vcn - 1)
    (hallocated : attr.allocatedSize = rl.last.vcn * vol.clusterSize)
    (hbytes : attr.bytes = (ntfsMappingPairsBuild vol mem attr.mappingPairsOffset
      (attr.length - attr.mappingPairsOffset) (some rl.elements) 0 (-1)).mem)
    (hbuilt : (ntfsMappingPairsBuild vol mem attr.mappingPairsOffset
      (attr.length - attr.mappingPairsOffset) (some rl.elements) 0 (-1)).status = .ok ())
    (allocator : Allocator) (hmemory : ∀ bytes, allocator.succeeds bytes = true) :
    ∃ block, (ntfsMappingPairsDecompress allocator vol attr .null).result = .ok (.block block) ∧
      block.Holds rl.elements := by
  have hroom : 0 < attr.length - attr.mappingPairsOffset := by
    by_contra hnone
    unfold ntfsMappingPairsBuild at hbuilt
    rw [if_pos (by omega)] at hbuilt
    simp at hbuilt
  have hwhole : Chain 0 ([] ++ rl.runs) rl.last.vcn := rl.chain
  rw [show rl.elements = [] ++ rl.runs ++ [rl.last] from rfl, ntfsMappingPairsBuild_eq hwhole
    rl.last_length rl.chain le_rfl (.inl rfl) vol mem _ hroom] at hbytes hbuilt
  have hmax := maxCluster_eq rl.last_vcn_pos.le hallocated
  have hspells : Spells attr.bytes attr.length attr.mappingPairsOffset 0 rl.runs := by
    obtain ⟨size, -, -, houtcome⟩ := buildLoop_outcome rl.chain le_rfl rl.last_vcn_isS64
      rl.last_length rl.lcn_isS64 hmapped (.inl rfl) vol mem (show attr.mappingPairsOffset ≤
        attr.mappingPairsOffset + (attr.length - attr.mappingPairsOffset) - 1 by omega) 0 0
    have hspells := houtcome.spells hbuilt
    rwa [← hbytes, Nat.sub_add_cancel (by omega), Nat.add_sub_cancel' (by omega),
      show partEnd (-1) rl.last.vcn = rl.last.vcn from rfl, restrict_self rl.chain rl.lcn_isS64]
      at hspells
  obtain ⟨hdecodes, hruns, hvcn⟩ := decodes_of_spells vol hspells rl.runs_ne_nil
    (by rw [hlowest]; exact rl.chain) hlowest.ge rl.last_vcn_isS64 hhighest
    (fun _ => by rw [hmax, hhighest])
  obtain ⟨block, hblock, hholds⟩ := decompress_of_decodes hmemory hdecodes
  have hcontinues : ¬ attr.Continues vol :=
    fun h => absurd h.2.2 (by rw [hmax, hhighest]; exact lt_irrefl _)
  have hdecoded : attr.decodedRuns vol = rl.runs := by
    unfold AttrRecord.decodedRuns AttrRecord.lead AttrRecord.rest
    rw [if_pos hlowest, if_neg hcontinues, hruns, List.nil_append, List.append_nil]
  have hlast : attr.decodedLast vol = rl.last := by
    unfold AttrRecord.decodedLast AttrRecord.endVcn endLcn
    rw [if_neg hcontinues, if_pos hlowest, hvcn, ← hend, ← rl.last_length]
  rw [hdecoded, hlast] at hholds
  exact ⟨block, hblock, hholds⟩

/-- Three clusters, a hole of two, and a cluster before the three. -/
def sparseSix : Runlist where
  runs := [⟨0, 5, 3⟩, ⟨3, lcnHole, 2⟩, ⟨5, 2, 1⟩]
  last := ⟨6, lcnEnoent, 0⟩
  runs_ne_nil := by decide
  chain := by decide
  last_length := rfl
  last_lcn := .inl rfl
  last_vcn_isS64 := by decide
  lcn_isS64 := by decide

def sparseSixRecord : AttrRecord where
  length := 128
  mappingPairsOffset := 64
  lowestVcn := 0
  highestVcn := 5
  allocatedSize := 6 * 4096
  bytes := (ntfsMappingPairsBuild smallVolume (fun _ => 0xff) 64 64
    (some sparseSix.elements) 0 (-1)).mem
  length_le := by decide
  lowestVcn_isS64 := ⟨by decide, by decide⟩
  highestVcn_isS64 := by decide
  allocatedSize_isS64 := by decide

/-- The six clusters come back. -/
theorem decompress_build_sparseSix :
    ∃ block, (ntfsMappingPairsDecompress plenty smallVolume sparseSixRecord .null).result =
      .ok (.block block) ∧ block.Holds sparseSix.elements :=
  decompress_build smallVolume (by decide) sparseSix (by decide) rfl (fun _ => 0xff) sparseSixRecord
    rfl rfl rfl rfl rfl plenty plenty_succeeds

/-! ### The fewest bytes -/

section

variable {n : ℤ} {k : ℕ}

theorem signedLe_lowBytes_bounds (k : ℕ) (n : ℤ) :
    -2 ^ (8 * k + 7) ≤ signedLe (lowBytes (k + 1) n) ∧ signedLe (lowBytes (k + 1) n) <
      2 ^ (8 * k + 7) := by
  induction k generalizing n with
  | zero => exact s8_bounds _
  | succ k ih =>
    obtain ⟨hlow, hhigh⟩ := ih (n / 2 ^ 8)
    have hbyte := (lowByte n).toNat_lt
    rw [lowBytes, signedLe_cons (lowBytes_ne_nil (Nat.succ_ne_zero k) _),
      show 8 * (k + 1) + 7 = 8 * k + 7 + 8 by ring, pow_add _ _ 8]
    rw [Nat.succ_eq_add_one]
    omega

theorem countLoop_le (fuel k : ℕ) (hlow : -2 ^ (8 * k + 8) ≤ n) (hhigh : n < 2 ^ (8 * k + 8)) :
    countLoop fuel n ≤ k + 1 := by
  induction fuel generalizing n k with
  | zero => exact Nat.zero_le _
  | succ fuel ih =>
    rw [countLoop]
    split_ifs with hmore
    · obtain ⟨k, rfl⟩ : ∃ j, k = j + 1 := by
        refine Nat.exists_eq_succ_of_ne_zero ?_
        rintro rfl
        omega
      rw [show 8 * (k + 1) + 8 = 8 * k + 8 + 8 by ring, pow_add] at hlow hhigh
      exact Nat.succ_le_succ (ih k (by omega) (by omega))
    · omega

/-- A number that fits `k + 1` bytes with its sign has no more significant bytes. -/
theorem ntfsGetNrSignificantBytes_le (hn : IsS64 n) (hlow : -2 ^ (8 * k + 7) ≤ n)
    (hhigh : n < 2 ^ (8 * k + 7)) : ntfsGetNrSignificantBytes n ≤ k + 1 := by
  obtain ⟨i, -, hcount, -⟩ := countLoop_eight hn
  have hpow : (2 : ℤ) ^ (8 * k + 8) = 2 ^ (8 * k + 7) * 2 := pow_succ ..
  have hle := @countLoop_le n 8 k (by omega) (by omega)
  rw [hcount] at hle
  unfold ntfsGetNrSignificantBytes
  rw [hcount]
  dsimp only
  split_ifs with hextra
  · rcases Nat.lt_or_eq_of_le hle with hlt | heq
    · omega
    -- All bytes are taken, and the highest of them has the sign of the number.
    obtain rfl : i = k := by omega
    have hbyte := toNat_lowByte (n / 2 ^ (8 * i))
    rw [pow_add] at hlow hhigh
    have hpos : (0 : ℤ) < 2 ^ (8 * i) := by positivity
    have hquot : -2 ^ 7 ≤ n / 2 ^ (8 * i) ∧ n / 2 ^ (8 * i) < 2 ^ 7 :=
      ⟨Int.le_ediv_of_mul_le hpos (by linarith), Int.ediv_lt_of_lt_mul hpos (by linarith)⟩
    have hneg := Int.ediv_neg_of_neg_of_pos (a := n) (b := 2 ^ (8 * i))
    have hnonn := @Int.ediv_nonneg n (2 ^ (8 * i))
    rw [Nat.add_sub_cancel] at hextra
    unfold s8 at hextra
    split_ifs at hextra <;> omega
  · exact hle

/-- Assumes: a 64-bit word. The number of its significant bytes is the least with which the low
bytes give it back, these are the bytes that are stored if there is room for them, and the loop that
reads a mapping pair recovers the word from them. -/
theorem significantBytes_minimal (hn : IsS64 n) :
    IsLeast {k | 1 ≤ k ∧ signedLe (lowBytes k n) = n} (ntfsGetNrSignificantBytes n) ∧
      (∀ mem dst dstMax,
        if dst + ntfsGetNrSignificantBytes n ≤ dstMax + 1 then
          (ntfsWriteSignificantBytes mem dst dstMax n).2 = some (ntfsGetNrSignificantBytes n) ∧
            Segment (ntfsWriteSignificantBytes mem dst dstMax n).1 dst
              (lowBytes (ntfsGetNrSignificantBytes n) n) ∧
            FrameOutside dst (dst + ntfsGetNrSignificantBytes n) mem
              (ntfsWriteSignificantBytes mem dst dstMax n).1
        else (ntfsWriteSignificantBytes mem dst dstMax n).2 = none) ∧
      ∀ bytes base, Segment bytes (base + 1) (lowBytes (ntfsGetNrSignificantBytes n) n) →
        (readSigned bytes base (ntfsGetNrSignificantBytes n)).result = .ok n := by
  obtain ⟨hne, -, hvalue⟩ := significantBytes_spec hn
  have hpos : ntfsGetNrSignificantBytes n ≠ 0 :=
    fun hzero => hne (by rw [significantBytes, hzero]; rfl)
  refine ⟨⟨⟨Nat.one_le_iff_ne_zero.mpr hpos, hvalue⟩, ?_⟩, fun mem dst dstMax => ?_,
    fun bytes base hbytes => ?_⟩
  · rintro k ⟨hk, heq⟩
    obtain ⟨k, rfl⟩ := Nat.exists_eq_add_of_le' hk
    have hbounds := signedLe_lowBytes_bounds k n
    rw [heq] at hbounds
    exact ntfsGetNrSignificantBytes_le hn hbounds.1 hbounds.2
  · obtain ⟨after, ⟨hroom, hwrite, hseg, hframe⟩ | ⟨hfull, hwrite, -⟩⟩ :=
      stored_ntfsWriteSignificantBytes mem dst dstMax hn
    · rw [if_pos hroom, hwrite]
      exact ⟨rfl, hseg, hframe⟩
    · rw [if_neg (not_le.mpr hfull), hwrite]
  · have hlist := bytesFrom_of_segment hbytes
    rw [length_lowBytes] at hlist
    rw [(readSigned_eq bytes base hpos).1, hlist]
    exact congrArg Except.ok ((congrArg s64 hvalue).trans (s64_of_isS64 hn))

theorem significantBytes_minimal_twoHundred :
    IsLeast {k | 1 ≤ k ∧ signedLe (lowBytes k 200) = 200} (ntfsGetNrSignificantBytes 200) :=
  (significantBytes_minimal (by decide)).1

end

end AdvancedOs.Ntfs.MappingPairsBuild
