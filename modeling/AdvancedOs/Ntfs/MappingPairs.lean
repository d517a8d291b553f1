import AdvancedOs.Foundation.LoggedReads
import AdvancedOs.Ntfs.RunlistMerge

/-!
# The decoder of mapping pairs

A non-resident attribute stores its runlist as an array of mapping pairs. A pair is a header byte,
whose two nibbles count the bytes that follow, the length of a run, and the distance of its first
cluster from that of the run before; both are signed little endian numbers of as many bytes as they
need. A pair without a distance is a hole, and a zero header ends the array.

The module has the format twice. `MappingPair`, `pairsFrom` and `runsOf` say what bytes mean: the
pairs an array spells, and the runs they stand for. `ntfsMappingPairsDecompress` is the driver's
decoder, with its checks, its 64-bit sums and its page by page allocation; every byte it reads from
the record goes through `Logged.read`. `decodePair_spec` ties one turn of the loop to the pair it
reads, `decodeLoop_spec` the loop to the list of pairs, and `decodeNew_spec` the decoder to the
record.
-/

namespace AdvancedOs.Ntfs.MappingPairs

open Foundation.ArraySegments Foundation.LoggedReads Foundation.SignedWords RunlistElements
  RunlistMerge RunlistMergeRoutines List Logged

/-! ### Attribute records and volumes -/

/-- The part of a non-resident attribute record that the decoder reads. The record lies inside an
mft record, of at most 64 KiB, and `bytes i` is its byte number `i`, or what follows it in
memory. -/
structure AttrRecord where
  length : ℕ
  mappingPairsOffset : ℕ
  lowestVcn : ℤ
  highestVcn : ℤ
  allocatedSize : ℤ
  bytes : ℕ → UInt8
  length_le : length ≤ 2 ^ 16
  lowestVcn_isS64 : IsS64 lowestVcn
  highestVcn_isS64 : IsS64 highestVcn
  allocatedSize_isS64 : IsS64 allocatedSize

/-- The part of `ntfs_volume` that the encoder and the decoder read. A cluster has at least one
sector of 512 bytes, and its size is a 32-bit word. -/
structure NtfsVolume where
  majorVer : ℕ
  clusterSizeBits : ℕ
  clusterSizeBits_ge : 9 ≤ clusterSizeBits
  clusterSizeBits_lt : clusterSizeBits < 32

def NtfsVolume.clusterSize (vol : NtfsVolume) : ℤ := 2 ^ vol.clusterSizeBits

/-! ### The format -/

/-- The bytes of `bytes` from `start` on. -/
def bytesFrom (bytes : ℕ → UInt8) (start count : ℕ) : List UInt8 :=
  (List.range count).map fun i => bytes (start + i)

@[simp] theorem length_bytesFrom (bytes : ℕ → UInt8) (start count : ℕ) :
    (bytesFrom bytes start count).length = count := by
  simp [bytesFrom]

theorem bytesFrom_succ (bytes : ℕ → UInt8) (start count : ℕ) :
    bytesFrom bytes start (count + 1) = bytesFrom bytes start count ++ [bytes (start + count)] := by
  simp [bytesFrom, range_succ]

variable {rl : RlArray} {count : ℕ} {bytes : ℕ → UInt8} {lcn : ℤ} {items : List RunlistElement}

@[simp] theorem bytesFrom_eq_nil {start : ℕ} : bytesFrom bytes start count = [] ↔ count = 0 := by
  rw [← length_eq_zero_iff, length_bytesFrom]

/-- A mapping pair: the bytes of the length of a run and those of the change of its lcn. -/
structure MappingPair where
  lengthBytes : List UInt8
  deltaBytes : List UInt8
deriving DecidableEq, Repr

namespace MappingPair

def size (pair : MappingPair) : ℕ := pair.lengthBytes.length + pair.deltaBytes.length + 1

/-- The length of the run. A pair without length bytes has a negative one. -/
def length (pair : MappingPair) : ℤ :=
  if pair.lengthBytes = [] then -1 else s64 (signedLe pair.lengthBytes)

/-- The lcn the next pair counts from, when this one counts from `lcn`. -/
def lcnAfter (pair : MappingPair) (lcn : ℤ) : ℤ :=
  if pair.deltaBytes = [] then lcn else s64 (lcn + s64 (signedLe pair.deltaBytes))

/-- The lcn of the run, when the pair counts from `lcn`. Without a change of lcn the run is a
hole. -/
def lcnOf (pair : MappingPair) (lcn : ℤ) : ℤ :=
  if pair.deltaBytes = [] then lcnHole else pair.lcnAfter lcn

/-- The run the pair stands for, when it starts at `vcn` and counts from `lcn`. -/
def run (pair : MappingPair) (vcn lcn : ℤ) : RunlistElement := ⟨vcn, pair.lcnOf lcn, pair.length⟩

/-- The decoder takes the pair: the length is present and not negative, the bytes end at or before
`attrEnd` and the lcn is not below `LCN_HOLE`. -/
def Accepted (pair : MappingPair) (attrEnd buf : ℕ) (lcn : ℤ) : Prop :=
  pair.lengthBytes ≠ [] ∧ buf + pair.lengthBytes.length ≤ attrEnd ∧ 0 ≤ pair.length ∧
    (pair.deltaBytes ≠ [] → buf + pair.lengthBytes.length + pair.deltaBytes.length ≤ attrEnd ∧
        lcnHole ≤ pair.lcnAfter lcn)

instance (pair : MappingPair) (attrEnd buf : ℕ) (lcn : ℤ) :
    Decidable (pair.Accepted attrEnd buf lcn) := by
  unfold Accepted
  infer_instance

end MappingPair

/-- The mapping pair whose header is at `buf`. -/
def pairAt (bytes : ℕ → UInt8) (buf : ℕ) : MappingPair :=
  ⟨bytesFrom bytes (buf + 1) ((bytes buf).toNat % 16),
    bytesFrom bytes (buf + (bytes buf).toNat % 16 + 1) ((bytes buf).toNat / 16)⟩

/-- The mapping pairs from `buf` on, up to a zero header or the end of the attribute. Every pair
takes at least a byte, so that as many pairs as there are bytes are enough. -/
def pairsFrom (bytes : ℕ → UInt8) (attrEnd : ℕ) : ℕ → ℕ → List MappingPair
  | 0, _ => []
  | fuel + 1, buf =>
    if buf < attrEnd ∧ bytes buf ≠ 0 then
      pairAt bytes buf :: pairsFrom bytes attrEnd fuel (buf + (pairAt bytes buf).size)
    else []

def sizeOfPairs (pairs : List MappingPair) : ℕ := (pairs.map MappingPair.size).sum

/-- The runs of a list of mapping pairs that starts at `vcn` and counts from `lcn`. -/
def runsOf : ℤ → ℤ → List MappingPair → List RunlistElement
  | _, _, [] => []
  | vcn, lcn, pair :: rest =>
    pair.run vcn lcn :: runsOf (s64 (vcn + pair.length)) (pair.lcnAfter lcn) rest

def vcnAfter : ℤ → List MappingPair → ℤ
  | vcn, [] => vcn
  | vcn, pair :: rest => vcnAfter (s64 (vcn + pair.length)) rest

def lcnAfter : ℤ → List MappingPair → ℤ
  | lcn, [] => lcn
  | lcn, pair :: rest => lcnAfter (pair.lcnAfter lcn) rest

def AllAccepted (attrEnd : ℕ) : ℕ → ℤ → List MappingPair → Prop
  | _, _, [] => True
  | buf, lcn, pair :: rest => pair.Accepted attrEnd buf lcn ∧
      AllAccepted attrEnd (buf + pair.size) (pair.lcnAfter lcn) rest

instance decidableAllAccepted (attrEnd : ℕ) : (buf : ℕ) → (lcn : ℤ) →
    (pairs : List MappingPair) → Decidable (AllAccepted attrEnd buf lcn pairs)
  | _, _, [] => inferInstanceAs (Decidable True)
  | buf, lcn, pair :: rest =>
    have := decidableAllAccepted attrEnd (buf + pair.size) (pair.lcnAfter lcn) rest
    inferInstanceAs (Decidable (pair.Accepted attrEnd buf lcn ∧
      AllAccepted attrEnd (buf + pair.size) (pair.lcnAfter lcn) rest))

@[simp] theorem length_runsOf (vcn lcn : ℤ) (pairs : List MappingPair) :
    (runsOf vcn lcn pairs).length = pairs.length := by
  induction pairs generalizing vcn lcn with
  | nil => rfl
  | cons pair pairs ih => simp [runsOf, ih]

/-! ### One pair -/

/-- The loop that shifts the lower bytes of a number into `value`, from `base + count` down to
`base + 1`. -/
def shiftIn (bytes : ℕ → UInt8) (base : ℕ) : ℕ → ℤ → Logged Failure ℤ
  | 0, value => pure value
  | count + 1, value => do
    let byte ← Logged.read bytes (base + (count + 1))
    shiftIn bytes base count (s64 (s64 (value * 2 ^ 8) + byte.toNat))

/-- Reads the signed number whose `count` bytes follow `base`, the highest byte first. -/
def readSigned (bytes : ℕ → UInt8) (base count : ℕ) : Logged Failure ℤ := do
  let top ← Logged.read bytes (base + count)
  shiftIn bytes base (count - 1) (s8 top)

/-- What a pair gives: the length and the lcn of its run, and the lcn the next pair counts from. -/
structure DecodedPair where
  length : ℤ
  runLcn : ℤ
  lcn : ℤ

theorem shiftIn_eq (bytes : ℕ → UInt8) (base count : ℕ) (value : ℤ) :
    (shiftIn bytes base count (s64 value)).result =
        .ok (s64 (value * 2 ^ (8 * count) + unsignedLe (bytesFrom bytes (base + 1) count))) ∧
      ∀ i, i ∈ (shiftIn bytes base count (s64 value)).log ↔ base < i ∧ i ≤ base + count := by
  induction count generalizing value with
  | zero =>
    refine ⟨by simp [shiftIn, bytesFrom, unsignedLe], fun i => ?_⟩
    simp only [shiftIn, log_pure, not_mem_nil, false_iff]
    omega
  | succ count ih =>
    have hidx : base + 1 + count = base + (count + 1) := by omega
    have hshift : s64 (s64 (s64 value * 2 ^ 8) + (bytes (base + (count + 1))).toNat) =
        s64 (value * 2 ^ 8 + (bytes (base + (count + 1))).toNat) := by
      rw [s64_s64_add, s64_s64_mul_add]
    obtain ⟨hres, hlog⟩ := ih (value * 2 ^ 8 + (bytes (base + (count + 1))).toNat)
    rw [← hshift] at hres hlog
    refine ⟨?_, fun i => ?_⟩
    · rw [shiftIn, result_read_bind, hres, bytesFrom_succ, unsignedLe_append_singleton,
        length_bytesFrom, hidx, Nat.mul_succ]
      congr 2
      ring
    · rw [shiftIn, log_read_bind, mem_cons, hlog]
      omega

theorem readSigned_eq (bytes : ℕ → UInt8) (base : ℕ) (hcnt : count ≠ 0) :
    (readSigned bytes base count).result = .ok (s64 (signedLe (bytesFrom bytes (base + 1) count))) ∧
      ∀ i, i ∈ (readSigned bytes base count).log ↔ base < i ∧ i ≤ base + count := by
  obtain ⟨count, rfl⟩ := Nat.exists_eq_succ_of_ne_zero hcnt
  have hidx : base + 1 + count = base + (count + 1) := by omega
  have htop : s64 (s8 (bytes (base + (count + 1)))) = s8 (bytes (base + (count + 1))) := by
    refine s64_of_isS64 ?_
    have hbd := s8_bounds (bytes (base + (count + 1)))
    unfold IsS64
    omega
  obtain ⟨hres, hlog⟩ := shiftIn_eq bytes base count (s8 (bytes (base + (count + 1))))
  rw [htop] at hres hlog
  refine ⟨?_, fun i => ?_⟩
  · rw [readSigned, result_read_bind, Nat.succ_sub_one, hres, bytesFrom_succ,
      signedLe_append_singleton, length_bytesFrom]
    congr 2
    ring_nf
  · rw [readSigned, log_read_bind, mem_cons, Nat.succ_sub_one, hlog]
    omega

/-- The length bytes of a pair are read when there are any and they end at or before `attrEnd`. -/
def MappingPair.LengthRead (pair : MappingPair) (attrEnd buf : ℕ) : Prop :=
  pair.lengthBytes ≠ [] ∧ buf + pair.lengthBytes.length ≤ attrEnd

/-- The lcn bytes of a pair are read when the length was and is not negative, there are any, and
they end at or before `attrEnd`. -/
def MappingPair.DeltaRead (pair : MappingPair) (attrEnd buf : ℕ) : Prop :=
  pair.LengthRead attrEnd buf ∧ 0 ≤ pair.length ∧ pair.deltaBytes ≠ [] ∧
    buf + (pair.lengthBytes.length + pair.deltaBytes.length) ≤ attrEnd

section

variable (attr : AttrRecord) (buf : ℕ) (lcn : ℤ)

@[simp] theorem length_lengthBytes_pairAt (bytes : ℕ → UInt8) :
    (pairAt bytes buf).lengthBytes.length = (bytes buf).toNat % 16 := length_bytesFrom _ _ _

@[simp] theorem length_deltaBytes_pairAt (bytes : ℕ → UInt8) :
    (pairAt bytes buf).deltaBytes.length = (bytes buf).toNat / 16 := length_bytesFrom _ _ _

@[simp] theorem lengthBytes_pairAt_eq_nil :
    (pairAt bytes buf).lengthBytes = [] ↔ (bytes buf).toNat % 16 = 0 := bytesFrom_eq_nil

@[simp] theorem deltaBytes_pairAt_eq_nil :
    (pairAt bytes buf).deltaBytes = [] ↔ (bytes buf).toNat / 16 = 0 := bytesFrom_eq_nil

def decodeDelta (header : UInt8) (length : ℤ) : Logged Failure DecodedPair :=
  if length < 0 then Logged.fail (.errno .eio)
  else if header.toNat / 16 = 0 then pure ⟨length, lcnHole, lcn⟩
  else if attr.length < buf + (header.toNat % 16 + header.toNat / 16) then
    Logged.fail (.errno .eio)
  else do
    let delta ← readSigned attr.bytes (buf + header.toNat % 16) (header.toNat / 16)
    if s64 (lcn + delta) < lcnHole then Logged.fail (.errno .eio)
    else pure ⟨length, s64 (lcn + delta), s64 (lcn + delta)⟩

/-- The body of the loop of `ntfs_mapping_pairs_decompress` for a pair with the given header at
`buf`. The driver reads the header again wherever it is used. -/
def decodePair (header : UInt8) : Logged Failure DecodedPair :=
  if header.toNat % 16 = 0 then decodeDelta attr buf lcn header (-1)
  else if attr.length < buf + header.toNat % 16 then Logged.fail (.errno .eio)
  else do
    let length ← readSigned attr.bytes buf (header.toNat % 16)
    decodeDelta attr buf lcn header length

/-- Assumes: a pair whose length bytes have been read. The decoder takes the pair or fails with
`EIO`, and it reads the lcn bytes if it gets to them. -/
theorem decodeDelta_spec (hread : (pairAt attr.bytes buf).LengthRead attr.length buf) :
    (decodeDelta attr buf lcn (attr.bytes buf) (pairAt attr.bytes buf).length).result =
        (if (pairAt attr.bytes buf).Accepted attr.length buf lcn then
          .ok ⟨(pairAt attr.bytes buf).length, (pairAt attr.bytes buf).lcnOf lcn,
            (pairAt attr.bytes buf).lcnAfter lcn⟩
        else .error (.errno .eio)) ∧
      ∀ i, i ∈ (decodeDelta attr buf lcn (attr.bytes buf) (pairAt attr.bytes buf).length).log ↔
        (pairAt attr.bytes buf).DeltaRead attr.length buf ∧
        buf + (pairAt attr.bytes buf).lengthBytes.length < i ∧
          i ≤ buf +
          ((pairAt attr.bytes buf).lengthBytes.length +
          (pairAt attr.bytes buf).deltaBytes.length) := by
  have hlen := hread
  unfold MappingPair.LengthRead at hlen
  unfold decodeDelta MappingPair.DeltaRead MappingPair.Accepted MappingPair.lcnOf
    MappingPair.lcnAfter
  simp only [ne_eq, deltaBytes_pairAt_eq_nil, length_lengthBytes_pairAt,
    length_deltaBytes_pairAt] at hlen ⊢
  by_cases hneg : (pairAt attr.bytes buf).length < 0
  · simp [hneg]
  by_cases hhole : (attr.bytes buf).toNat / 16 = 0
  · simp [hneg, hhole, hlen]
  by_cases hlong : attr.length < buf + ((attr.bytes buf).toNat % 16 + (attr.bytes buf).toNat / 16)
  · have hnot : ¬ buf + (attr.bytes buf).toNat % 16 + (attr.bytes buf).toNat / 16 ≤
        attr.length := by
      omega
    simp [hneg, hhole, hlong, hnot]
  have hfits : buf + (attr.bytes buf).toNat % 16 + (attr.bytes buf).toNat / 16 ≤ attr.length := by
    omega
  obtain ⟨hres, hlog⟩ :=
    readSigned_eq attr.bytes (buf + (attr.bytes buf).toNat % 16) hhole
  have hdelta : (pairAt attr.bytes buf).deltaBytes = bytesFrom attr.bytes
    (buf + (attr.bytes buf).toNat % 16 + 1) ((attr.bytes buf).toNat / 16) := rfl
  simp only [hneg, hhole, hlong, if_false, hlen, hfits, not_false_eq_true, true_and, hread,
    not_lt.mp hneg, true_implies]
  rw [result_bind_of_ok hres, log_bind_of_ok hres, ← hdelta]
  by_cases hlow : s64 (lcn + s64 (signedLe (pairAt attr.bytes buf).deltaBytes)) < lcnHole
  · simp only [hlow, if_true, not_le.mpr hlow, if_false, result_fail, log_fail, append_nil,
      hlog, true_and]
    intro i
    omega
  · simp only [hlow, if_false, not_lt.mp hlow, if_true, result_pure, log_pure, append_nil,
      hlog, true_and]
    intro i
    omega

/-- The decoder takes a pair or fails with `EIO`, and it reads the length and lcn bytes it has
checked. -/
theorem decodePair_spec :
    (decodePair attr buf lcn (attr.bytes buf)).result =
      (if (pairAt attr.bytes buf).Accepted attr.length buf lcn then
          .ok ⟨(pairAt attr.bytes buf).length, (pairAt attr.bytes buf).lcnOf lcn,
            (pairAt attr.bytes buf).lcnAfter lcn⟩
        else .error (.errno .eio)) ∧
      ∀ i, i ∈ (decodePair attr buf lcn (attr.bytes buf)).log ↔
        ((pairAt attr.bytes buf).LengthRead attr.length buf ∧ buf < i ∧
            i ≤ buf + (pairAt attr.bytes buf).lengthBytes.length) ∨
          ((pairAt attr.bytes buf).DeltaRead attr.length buf ∧
          buf + (pairAt attr.bytes buf).lengthBytes.length < i ∧
            i ≤ buf +
            ((pairAt attr.bytes buf).lengthBytes.length +
            (pairAt attr.bytes buf).deltaBytes.length)) := by
  by_cases hread : (pairAt attr.bytes buf).LengthRead attr.length buf
  · obtain ⟨hres, hlog⟩ := decodeDelta_spec attr buf lcn hread
    have hby := hread
    unfold MappingPair.LengthRead at hby
    rw [ne_eq, lengthBytes_pairAt_eq_nil, length_lengthBytes_pairAt] at hby
    obtain ⟨hval, hvalLog⟩ := readSigned_eq attr.bytes buf hby.1
    have hlen : (pairAt attr.bytes buf).length = s64 (signedLe
        (bytesFrom attr.bytes (buf + 1) ((attr.bytes buf).toNat % 16))) := if_neg hread.1
    rw [← hlen] at hval
    rw [decodePair, if_neg hby.1, if_neg (not_lt.mpr hby.2), result_bind_of_ok hval,
      log_bind_of_ok hval]
    refine ⟨hres, fun i => ?_⟩
    rw [mem_append, hvalLog, hlog, length_lengthBytes_pairAt]
    simp only [hread, true_and]
  · have hnot : ¬ (pairAt attr.bytes buf).Accepted attr.length buf lcn :=
      fun hacc => hread ⟨hacc.1, hacc.2.1⟩
    have hfail : decodePair attr buf lcn (attr.bytes buf) = fail (.errno .eio) := by
      unfold MappingPair.LengthRead at hread
      rw [ne_eq, lengthBytes_pairAt_eq_nil, length_lengthBytes_pairAt] at hread
      unfold decodePair
      split_ifs with hzero hlong
      · exact if_pos (by decide)
      · rfl
      · exact absurd ⟨hzero, not_lt.mp hlong⟩ hread
    rw [hfail, if_neg hnot]
    refine ⟨rfl, fun i => ?_⟩
    simp [hread, MappingPair.DeltaRead]

end

/-! ### The loop over the pairs -/

/-- The variables of the loop of `ntfs_mapping_pairs_decompress`. The size of the block is its
`rlsize`. -/
structure DecodeState where
  buf : ℕ
  vcn : ℤ
  lcn : ℤ
  rl : RlArray
  rlpos : ℕ

def ensureRoom (allocator : Allocator) (rl : RlArray) (rlpos : ℕ) : Logged Failure RlArray :=
  if rl.bytes < (rlpos + 3) * elementSize then
    if allocator.succeeds (rl.bytes + pageSize) then
      pure (recycle allocator rl rl.bytes (rl.bytes + pageSize))
    else Logged.fail (.errno .enomem)
  else pure rl

/-- The loop of `ntfs_mapping_pairs_decompress`. The position in the runlist is a 16-bit word. -/
def decodeLoop (allocator : Allocator) (attr : AttrRecord) :
    ℕ → DecodeState → Logged Failure DecodeState
  | 0, st => pure st
  | fuel + 1, st =>
    if st.buf < attr.length then do
      let header ← Logged.read attr.bytes st.buf
      if header = 0 then pure st
      else do
        let rl ← ensureRoom allocator st.rl st.rlpos
        let pair ← decodePair attr st.buf st.lcn header
        decodeLoop allocator attr fuel
          { buf := st.buf + (header.toNat % 16 + header.toNat / 16 + 1)
            vcn := s64 (st.vcn + pair.length)
            lcn := pair.lcn
            rl := store rl st.rlpos ⟨st.vcn, pair.runLcn, pair.length⟩
            rlpos := (st.rlpos + 1) % 2 ^ 16 }
    else pure st

/-- The block has whole pages and begins with the given elements, with room for two more. -/
def Written (rl : RlArray) (items : List RunlistElement) : Prop :=
  pageSize ∣ rl.bytes ∧ (items.length + 2) * elementSize ≤ rl.bytes ∧ Segment rl.elem 0 items

theorem segment_store (hseg : Segment rl.elem 0 items) (item : RunlistElement) :
    Segment (store rl items.length item).elem 0 (items ++ [item]) := by
  rw [segment_append]
  refine ⟨hseg.update_of_le (by omega), ?_, trivial⟩
  rw [Nat.zero_add, store_elem, Function.update_self]

theorem written_store (hpgs : pageSize ∣ rl.bytes)
    (hroom : (items.length + 3) * elementSize ≤ rl.bytes) (hseg : Segment rl.elem 0 items)
    (item : RunlistElement) : Written (store rl items.length item) (items ++ [item]) := by
  refine ⟨hpgs, ?_, segment_store hseg item⟩
  rwa [length_append, length_singleton]

theorem holds_of_segment (hpgs : pageSize ∣ rl.bytes)
    (hroom : items.length * elementSize ≤ rl.bytes) (hseg : Segment rl.elem 0 items) :
    rl.Holds items := by
  refine ⟨?_, hseg⟩
  obtain ⟨pages, hby⟩ := hpgs
  unfold pageAlign
  unfold pageSize at hby ⊢
  omega

theorem ensureRoom_spec (allocator : Allocator) (hwrit : Written rl items) :
    (ensureRoom allocator rl items.length).log = [] ∧
      (((ensureRoom allocator rl items.length).result = .error (.errno .enomem) ∧ allocator.Short) ∨
        ∃ block, (ensureRoom allocator rl items.length).result = .ok block ∧
          pageSize ∣ block.bytes ∧ (items.length + 3) * elementSize ≤ block.bytes ∧
          Segment block.elem 0 items) := by
  obtain ⟨hpgs, hroom, hseg⟩ := hwrit
  unfold ensureRoom
  split_ifs with hfull hmemo
  · have hmore : (items.length + 3) * elementSize ≤ rl.bytes + pageSize := by
      unfold elementSize at hroom ⊢
      unfold pageSize
      omega
    refine ⟨rfl, .inr ⟨_, rfl, Nat.dvd_add hpgs (Nat.dvd_refl _), hmore,
      hseg.transfer fun i hi => ?_⟩⟩
    have hidx : (0 + i + 1) * elementSize ≤ (items.length + 2) * elementSize :=
      Nat.mul_le_mul_right _ (by omega)
    exact if_pos (le_min (hidx.trans hroom) (hidx.trans (hroom.trans (Nat.le_add_right _ _))))
  · exact ⟨rfl, .inl ⟨rfl, fun hall => hmemo (hall _)⟩⟩
  · exact ⟨rfl, .inr ⟨rl, rfl, hpgs, not_lt.mp hfull, hseg⟩⟩

def DecodeState.AtPair (attr : AttrRecord) (st : DecodeState) : Prop :=
  st.buf < attr.length ∧ attr.bytes st.buf ≠ 0

def DecodeState.next (st : DecodeState) (rl : RlArray) (pair : MappingPair) : DecodeState :=
  { buf := st.buf + pair.size
    vcn := s64 (st.vcn + pair.length)
    lcn := pair.lcnAfter st.lcn
    rl := store rl st.rlpos (pair.run st.vcn st.lcn)
    rlpos := (st.rlpos + 1) % 2 ^ 16 }

section

variable (allocator : Allocator) (attr : AttrRecord) (fuel : ℕ)
variable {st : DecodeState} {bytes : ℕ → UInt8} {attrEnd buf : ℕ}

theorem decodeLoop_of_not_atPair (hstop : ¬ st.AtPair attr) :
    (decodeLoop allocator attr fuel st).result = .ok st ∧
      ∀ i ∈ (decodeLoop allocator attr fuel st).log, i < attr.length := by
  cases fuel with
  | zero => exact ⟨rfl, fun i hi => absurd hi not_mem_nil⟩
  | succ fuel =>
    unfold decodeLoop
    split_ifs with hin
    · have hzero : attr.bytes st.buf = 0 := not_not.mp fun hne => hstop ⟨hin, hne⟩
      rw [result_read_bind, log_read_bind, if_pos hzero]
      refine ⟨rfl, fun i hi => ?_⟩
      rwa [mem_singleton.mp hi]
    · exact ⟨rfl, fun i hi => absurd hi not_mem_nil⟩

theorem decodeLoop_of_atPair (hpair : st.AtPair attr) {rl : RlArray}
    (hroom : (ensureRoom allocator st.rl st.rlpos).result = .ok rl) :
    (decodeLoop allocator attr (fuel + 1) st).result =
      if (pairAt attr.bytes st.buf).Accepted attr.length st.buf st.lcn then
        (decodeLoop allocator attr fuel (st.next rl (pairAt attr.bytes st.buf))).result
      else .error (.errno .eio) := by
  have hdecoded := (decodePair_spec attr st.buf st.lcn).1
  rw [decodeLoop, if_pos hpair.1, result_read_bind, if_neg hpair.2, result_bind_of_ok hroom]
  split_ifs with hacc
  · rw [if_pos hacc] at hdecoded
    rw [result_bind_of_ok hdecoded]
    simp only [DecodeState.next, MappingPair.size, MappingPair.run, length_lengthBytes_pairAt,
      length_deltaBytes_pairAt]
  · rw [if_neg hacc] at hdecoded
    exact result_bind_of_error hdecoded _

theorem pairsFrom_of_atPair (hin : buf < attrEnd) (hhdr : bytes buf ≠ 0) :
    pairsFrom bytes attrEnd (fuel + 1) buf =
      pairAt bytes buf :: pairsFrom bytes attrEnd fuel (buf + (pairAt bytes buf).size) :=
  if_pos ⟨hin, hhdr⟩

theorem pairsFrom_of_not_atPair (hstop : ¬ (buf < attrEnd ∧ bytes buf ≠ 0)) :
    pairsFrom bytes attrEnd fuel buf = [] := by
  cases fuel with
  | zero => rfl
  | succ fuel => exact if_neg hstop

theorem MappingPair.Accepted.two_le_size {pair : MappingPair}
    (hacc : pair.Accepted attrEnd buf lcn) : 2 ≤ pair.size := by
  have hlen := length_pos_iff.mpr hacc.1
  unfold MappingPair.size
  omega

/-- How the loop over a list of pairs ends: for want of memory, with `EIO` at a pair that the
decoder does not take, or behind all the pairs, with their runs written behind `items`. -/
def LoopEnds (st : DecodeState) (items : List RunlistElement) (pairs : List MappingPair)
    (result : Except Failure DecodeState) : Prop :=
  (result = .error (.errno .enomem) ∧ ¬ ∀ bytes, allocator.succeeds bytes = true) ∨
    (result = .error (.errno .eio) ∧ ¬ AllAccepted attr.length st.buf st.lcn pairs) ∨
    (AllAccepted attr.length st.buf st.lcn pairs ∧
      ∃ rl, Written rl (items ++ runsOf st.vcn st.lcn pairs) ∧
        result = .ok ⟨st.buf + sizeOfPairs pairs, vcnAfter st.vcn pairs, lcnAfter st.lcn pairs, rl,
          items.length + pairs.length⟩)

/-- Assumes: a state whose block begins with the runs decoded so far, not more of them than the
bytes before `buf` can have given. The loop ends in one of the three ways. -/
theorem decodeLoop_spec (hwrit : Written st.rl items) (hrlpos : st.rlpos = items.length)
    (hit : 2 * items.length + (attr.length + 1 - st.buf) ≤ 2 ^ 16 + 4) :
    LoopEnds allocator attr st items (pairsFrom attr.bytes attr.length fuel st.buf)
      (decodeLoop allocator attr fuel st).result := by
  induction fuel generalizing st items with
  | zero =>
    refine .inr (.inr ⟨trivial, st.rl, by simpa [pairsFrom, runsOf] using hwrit, ?_⟩)
    rw [← hrlpos]
    rfl
  | succ fuel ih =>
    by_cases hpair : st.AtPair attr
    · rw [pairsFrom_of_atPair fuel hpair.1 hpair.2]
      obtain ⟨-, hmemo | ⟨rl, hrl, hpgs, hroom, hseg⟩⟩ := ensureRoom_spec allocator hwrit
      · rw [← hrlpos] at hmemo
        refine .inl ⟨?_, hmemo.2⟩
        rw [decodeLoop, if_pos hpair.1, result_read_bind, if_neg hpair.2]
        exact result_bind_of_error hmemo.1 _
      rw [← hrlpos] at hrl
      rw [decodeLoop_of_atPair allocator attr fuel hpair hrl]
      split_ifs with hacc
      · have htwo := hacc.two_le_size
        have hin := hpair.1
        have hrun := written_store hpgs hroom hseg ((pairAt attr.bytes st.buf).run st.vcn st.lcn)
        rw [← hrlpos] at hrun
        have hnextpos : (st.next rl (pairAt attr.bytes st.buf)).rlpos =
            (items ++ [(pairAt attr.bytes st.buf).run st.vcn st.lcn]).length := by
          rw [length_append, ← hrlpos]
          exact Nat.mod_eq_of_lt (by omega)
        have hbuf : (st.next rl (pairAt attr.bytes st.buf)).buf =
          st.buf + (pairAt attr.bytes st.buf).size := rfl
        have hnext := ih hrun hnextpos (by rw [hbuf, length_append, length_singleton]; omega)
        rcases hnext with hmemo | ⟨hfail, hnot⟩ | ⟨hall, final, hfin, hres⟩
        · exact .inl hmemo
        · exact .inr (.inl ⟨hfail, fun hall => hnot hall.2⟩)
        · refine .inr (.inr ⟨⟨hacc, hall⟩, final, ?_, ?_⟩)
          · rw [append_assoc] at hfin
            exact hfin
          · rw [hbuf] at hres
            rw [hres, length_append, length_singleton, sizeOfPairs,
              sizeOfPairs, map_cons, sum_cons, Nat.add_assoc, Nat.add_assoc,
              Nat.add_comm 1]
            rfl
      · exact .inr (.inl ⟨rfl, fun hall => hacc hall.1⟩)
    · rw [pairsFrom_of_not_atPair _ hpair]
      refine .inr (.inr ⟨trivial, st.rl, by simpa [runsOf] using hwrit, ?_⟩)
      rw [(decodeLoop_of_not_atPair allocator attr (fuel + 1) hpair).1, ← hrlpos]
      rfl

end

/-! ### The decoder -/

section

variable (allocator : Allocator) (vol : NtfsVolume) (attr : AttrRecord)

/-- The last cluster of the allocated size, `max_cluster`. -/
def maxCluster : ℤ :=
  s64 (s64 (attr.allocatedSize + vol.clusterSize - 1) / 2 ^ vol.clusterSizeBits - 1)

/-- The state in which the loop starts: runs before the extent are not mapped. -/
def startState : DecodeState :=
  let page : RlArray := ⟨pageSize, allocator.junk⟩
  if attr.lowestVcn = 0 then ⟨attr.mappingPairsOffset, attr.lowestVcn, 0, page, 0⟩
  else ⟨attr.mappingPairsOffset, attr.lowestVcn, 0,
    store page 0 ⟨0, lcnRlNotMapped, attr.lowestVcn⟩, 1⟩

/-- The unmapped run behind the base extent when there are more extents. -/
def addRest (st : DecodeState) : Except Failure DecodeState :=
  if attr.lowestVcn = 0 ∧ attr.highestVcn ≠ 0 then
    if attr.highestVcn < maxCluster vol attr then
      let length := s64 (maxCluster vol attr - attr.highestVcn)
      .ok { st with
        vcn := s64 (st.vcn + length)
        rl := store st.rl st.rlpos ⟨st.vcn, lcnRlNotMapped, length⟩
        rlpos := (st.rlpos + 1) % 2 ^ 16 }
    else if maxCluster vol attr < attr.highestVcn then .error (.errno .eio)
    else .ok st
  else .ok st

/-- The marker of the terminator. -/
def endLcn : ℤ := if attr.lowestVcn = 0 then lcnEnoent else lcnRlNotMapped

/-- The checks behind the loop and the terminator. -/
def finish (st : DecodeState) : Except Failure RlArray :=
  if attr.length ≤ st.buf then .error (.errno .eio)
  else if attr.highestVcn ≠ 0 ∧ s64 (st.vcn - 1) ≠ attr.highestVcn then .error (.errno .eio)
  else do
    let st ← addRest vol attr st
    return store st.rl st.rlpos ⟨st.vcn, endLcn attr, 0⟩

/-- The decoding of the mapping pairs into a new runlist. -/
def decodeRuns : Logged Failure (Option RlArray) :=
  if allocator.succeeds pageSize then do
    let st ← decodeLoop allocator attr attr.length (startState allocator attr)
    Logged.ofExcept ((finish vol attr st).map some)
  else Logged.fail (.errno .enomem)

/-- `ntfs_mapping_pairs_decompress` up to the merge with the old runlist. There is no new runlist
when the base extent has no mapping pairs. -/
def decodeNew : Logged Failure (Option RlArray) :=
  if attr.length < attr.mappingPairsOffset then Logged.fail (.errno .eio)
  else if attr.lowestVcn = 0 then do
    let header ← Logged.read attr.bytes attr.mappingPairsOffset
    if header = 0 then pure none else decodeRuns allocator vol attr
  else decodeRuns allocator vol attr

/-- The end of `ntfs_mapping_pairs_decompress`: a new runlist is merged into the old one if there is
one. A failure comes with the old runlist as it is left. -/
def combine (rl : RlArray) : RlPtr → Except (Failure × RlPtr) RlPtr
  | .null => .ok (.block rl)
  | oldRl => match ntfsRunlistsMerge allocator oldRl (.block rl) with
    | .done rl => .ok rl
    | .failed why oldRl _ => .error (why, oldRl)

def ntfsMappingPairsDecompress (oldRl : RlPtr) : Logged (Failure × RlPtr) RlPtr where
  result := match (decodeNew allocator vol attr).result with
    | .error why => .error (why, oldRl)
    | .ok none => .ok oldRl
    | .ok (some rl) => combine allocator rl oldRl
  log := (decodeNew allocator vol attr).log

end

/-! ### What is decoded -/

namespace AttrRecord

variable (attr : AttrRecord) (vol : NtfsVolume)

def pairs : List MappingPair :=
  pairsFrom attr.bytes attr.length attr.length attr.mappingPairsOffset

def Empty : Prop := attr.lowestVcn = 0 ∧ attr.bytes attr.mappingPairsOffset = 0

def lead : List RunlistElement :=
  if attr.lowestVcn = 0 then [] else [⟨0, lcnRlNotMapped, attr.lowestVcn⟩]

/-- There are more extents behind the base extent. -/
def Continues : Prop :=
  attr.lowestVcn = 0 ∧ attr.highestVcn ≠ 0 ∧ attr.highestVcn < maxCluster vol attr

instance : Decidable (attr.Continues vol) := by
  unfold Continues
  infer_instance

def rest (vcn : ℤ) : List RunlistElement :=
  if attr.Continues vol then
    [⟨vcn, lcnRlNotMapped, s64 (maxCluster vol attr - attr.highestVcn)⟩] else []

/-- The vcn of the terminator, when the pairs end at `vcn`. -/
def endVcn (vcn : ℤ) : ℤ :=
  if attr.Continues vol then s64 (vcn + s64 (maxCluster vol attr - attr.highestVcn)) else vcn

/-- The checks behind the loop, which ends at `buf` and `vcn`. -/
def Closes (buf : ℕ) (vcn : ℤ) : Prop :=
  buf < attr.length ∧ (attr.highestVcn = 0 ∨ s64 (vcn - 1) = attr.highestVcn) ∧
    (attr.lowestVcn = 0 → attr.highestVcn ≠ 0 → attr.highestVcn ≤ maxCluster vol attr)

def Decodes : Prop :=
  attr.mappingPairsOffset ≤ attr.length ∧ ¬ attr.Empty ∧
    AllAccepted attr.length attr.mappingPairsOffset 0 attr.pairs ∧
    attr.Closes vol (attr.mappingPairsOffset + sizeOfPairs attr.pairs)
      (vcnAfter attr.lowestVcn attr.pairs)

instance : Decidable (attr.Decodes vol) := by
  unfold Decodes Empty Closes
  infer_instance

def decodedRuns : List RunlistElement :=
  attr.lead ++ runsOf attr.lowestVcn 0 attr.pairs ++
    attr.rest vol (vcnAfter attr.lowestVcn attr.pairs)

def decodedLast : RunlistElement :=
  ⟨attr.endVcn vol (vcnAfter attr.lowestVcn attr.pairs), endLcn attr, 0⟩

end AttrRecord

section

variable (allocator : Allocator) (vol : NtfsVolume) (attr : AttrRecord)

theorem addRest_spec {st : DecodeState} (hseg : Segment st.rl.elem 0 items)
    (hrlpos : st.rlpos = items.length) (hit : items.length + 1 < 2 ^ 16) :
    (addRest vol attr st = .error (.errno .eio) ∧
        ¬ (attr.lowestVcn = 0 → attr.highestVcn ≠ 0 → attr.highestVcn ≤ maxCluster vol attr)) ∨
      ((attr.lowestVcn = 0 → attr.highestVcn ≠ 0 → attr.highestVcn ≤ maxCluster vol attr) ∧
        ∃ final, addRest vol attr st = .ok final ∧ final.rl.bytes = st.rl.bytes ∧
          final.vcn = attr.endVcn vol st.vcn ∧
          final.rlpos = (items ++ attr.rest vol st.vcn).length ∧
          Segment final.rl.elem 0 (items ++ attr.rest vol st.vcn)) := by
  unfold AttrRecord.endVcn AttrRecord.rest
  by_cases hcont : attr.Continues vol
  · have ⟨hbase, hhigh, hlt⟩ := hcont
    refine .inr ⟨fun _ _ => hlt.le, _, (if_pos ⟨hbase, hhigh⟩).trans (if_pos hlt), rfl, ?_⟩
    rw [if_pos hcont, if_pos hcont, length_append, hrlpos]
    exact ⟨rfl, Nat.mod_eq_of_lt hit, segment_store hseg _⟩
  · rw [if_neg hcont, if_neg hcont, append_nil]
    unfold addRest
    split_ifs with hbase hlt hgt
    · exact absurd ⟨hbase.1, hbase.2, hlt⟩ hcont
    · exact .inl ⟨rfl, fun hle => absurd (hle hbase.1 hbase.2) (not_le.mpr hgt)⟩
    · exact .inr ⟨fun _ _ => not_lt.mp hgt, st, rfl, rfl, rfl, hrlpos, hseg⟩
    · exact .inr ⟨fun hlow hhigh => absurd ⟨hlow, hhigh⟩ hbase, st, rfl, rfl, rfl, hrlpos, hseg⟩

theorem length_rest_le (vcn : ℤ) : (attr.rest vol vcn).length ≤ 1 := by
  unfold AttrRecord.rest
  split_ifs <;> simp

theorem finish_spec (st : DecodeState) (hwrit : Written st.rl items)
    (hrlpos : st.rlpos = items.length) (hit : items.length + 1 < 2 ^ 16) :
    (finish vol attr st = .error (.errno .eio) ∧ ¬ attr.Closes vol st.buf st.vcn) ∨
      (attr.Closes vol st.buf st.vcn ∧ ∃ rl, finish vol attr st = .ok rl ∧
        rl.Holds (items ++ attr.rest vol st.vcn ++
        [⟨attr.endVcn vol st.vcn, endLcn attr, 0⟩])) := by
  obtain ⟨hpgs, hroom, hseg⟩ := hwrit
  unfold finish AttrRecord.Closes
  by_cases hin : st.buf < attr.length
  swap
  · exact .inl ⟨if_pos (not_lt.mp hin), fun hclos => hin hclos.1⟩
  rw [if_neg (not_le.mpr hin)]
  by_cases hhigh : attr.highestVcn = 0 ∨ s64 (st.vcn - 1) = attr.highestVcn
  swap
  · exact .inl ⟨if_pos (not_or.mp hhigh), fun hclos => hhigh hclos.2.1⟩
  rw [if_neg (not_and_or.mpr (hhigh.imp not_not.mpr not_not.mpr))]
  rcases addRest_spec vol attr hseg hrlpos hit with
    ⟨hfail, hnot⟩ | ⟨hle, final, hfin, hby, hvcn, hpos, hrest⟩
  · refine .inl ⟨?_, fun hclos => hnot hclos.2.2⟩
    rw [hfail]
    rfl
  · refine .inr ⟨⟨hin, hhigh, hle⟩, store final.rl final.rlpos ⟨final.vcn, endLcn attr, 0⟩, ?_, ?_⟩
    · rw [hfin]
      rfl
    · rw [hpos, hvcn]
      refine holds_of_segment ?_ ?_ (segment_store hrest _)
      · rwa [store_bytes, hby]
      · have hlen := length_rest_le vol attr st.vcn
        rw [store_bytes, hby]
        refine le_trans (Nat.mul_le_mul_right _ ?_) hroom
        rw [length_append, length_append, length_singleton]
        omega

theorem startState_spec : Written (startState allocator attr).rl attr.lead ∧
    (startState allocator attr).rlpos = attr.lead.length ∧
    (startState allocator attr).buf = attr.mappingPairsOffset ∧
    (startState allocator attr).vcn = attr.lowestVcn ∧ (startState allocator attr).lcn = 0 := by
  unfold startState AttrRecord.lead
  split_ifs with hbase
  · have hroom : (([] : List RunlistElement).length + 2) * elementSize ≤ pageSize := by decide
    exact ⟨⟨dvd_refl _, hroom, trivial⟩, rfl, rfl, rfl, rfl⟩
  · have hroom : (([] : List RunlistElement).length + 3) * elementSize ≤ pageSize := by decide
    have hemp : Segment (RlArray.mk pageSize allocator.junk).elem 0 [] := trivial
    exact ⟨written_store (dvd_refl _) hroom hemp _, rfl, rfl, rfl, rfl⟩

theorem length_lead_le : attr.lead.length ≤ 1 := by
  unfold AttrRecord.lead
  split_ifs <;> simp

theorem AllAccepted.sizeOfPairs_le {attrEnd buf : ℕ} {pairs : List MappingPair}
    (hall : AllAccepted attrEnd buf lcn pairs) (hbuf : buf ≤ attrEnd + 1) :
    2 * pairs.length ≤ sizeOfPairs pairs ∧ buf + sizeOfPairs pairs ≤ attrEnd + 1 := by
  induction pairs generalizing buf lcn with
  | nil => exact ⟨Nat.zero_le _, hbuf⟩
  | cons pair pairs ih =>
    obtain ⟨hacc, hrest⟩ := hall
    have htwo := hacc.two_le_size
    have hend : buf + pair.size ≤ attrEnd + 1 := by
      obtain ⟨-, hlen, -, hdelta⟩ := hacc
      unfold MappingPair.size
      by_cases hnil : pair.deltaBytes = []
      · rw [hnil, length_nil]
        omega
      · have := (hdelta hnil).1
        omega
    have ih' := ih hrest hend
    unfold sizeOfPairs at ih' ⊢
    rw [map_cons, sum_cons, length_cons]
    omega

theorem decodeRuns_spec (hofs : attr.mappingPairsOffset ≤ attr.length) :
    ((decodeRuns allocator vol attr).result = .error (.errno .enomem) ∧ allocator.Short) ∨
      ((decodeRuns allocator vol attr).result = .error (.errno .eio) ∧
        ¬ (AllAccepted attr.length attr.mappingPairsOffset 0 attr.pairs ∧
          attr.Closes vol (attr.mappingPairsOffset + sizeOfPairs attr.pairs)
            (vcnAfter attr.lowestVcn attr.pairs))) ∨
      ((AllAccepted attr.length attr.mappingPairsOffset 0 attr.pairs ∧
          attr.Closes vol (attr.mappingPairsOffset + sizeOfPairs attr.pairs)
            (vcnAfter attr.lowestVcn attr.pairs)) ∧
        ∃ rl, (decodeRuns allocator vol attr).result = .ok (some rl) ∧
          rl.Holds (attr.decodedRuns vol ++ [attr.decodedLast vol])) := by
  unfold decodeRuns
  split_ifs with hpage
  swap
  · exact .inl ⟨rfl, fun hall => hpage (hall _)⟩
  obtain ⟨hwrit, hrlpos, hbuf, hvcn, hlcn⟩ := startState_spec allocator attr
  have hlead := length_lead_le attr
  have hlen := attr.length_le
  have hloop := decodeLoop_spec allocator attr attr.length hwrit hrlpos (by omega)
  unfold LoopEnds at hloop
  rw [hbuf, hvcn, hlcn] at hloop
  rcases hloop with ⟨hfail, hmemo⟩ | ⟨hfail, hnot⟩ | ⟨hall, rl, hrl, hres⟩
  · exact .inl ⟨result_bind_of_error hfail _, hmemo⟩
  · exact .inr (.inl ⟨result_bind_of_error hfail _, fun hacc => hnot hacc.1⟩)
  have hsize := hall.sizeOfPairs_le (by omega)
  have hcnt : (attr.lead ++ runsOf attr.lowestVcn 0 attr.pairs).length =
      attr.lead.length + attr.pairs.length := by
    rw [length_append, length_runsOf]
  have hpairs : 2 * attr.pairs.length ≤ attr.length + 1 := by
    unfold AttrRecord.pairs
    omega
  change Written rl (attr.lead ++ runsOf attr.lowestVcn 0 attr.pairs) at hrl
  rw [result_bind_of_ok hres]
  rcases finish_spec vol attr ⟨_, _, _, rl, _⟩ hrl hcnt.symm (by omega) with
    ⟨hfail, hnot⟩ | ⟨hclos, block, hblk, hh⟩
  · refine .inr (.inl ⟨?_, fun hacc => hnot hacc.2⟩)
    exact congrArg (Except.map some) hfail
  · refine .inr (.inr ⟨⟨hall, hclos⟩, block, ?_, hh⟩)
    exact congrArg (Except.map some) hblk

theorem decodeNew_of_empty (hofs : attr.mappingPairsOffset ≤ attr.length) (hemp : attr.Empty) :
    (decodeNew allocator vol attr).result = .ok none := by
  rw [decodeNew, if_neg (not_lt.mpr hofs), if_pos hemp.1, result_read_bind,
    if_pos hemp.2, result_pure]

/-- The decoder ends for want of memory, without a runlist because the base extent has no mapping
pairs, with `EIO`, or with the decoded runlist. -/
theorem decodeNew_spec :
    ((decodeNew allocator vol attr).result = .error (.errno .enomem) ∧ allocator.Short) ∨
      ((decodeNew allocator vol attr).result = .ok none ∧ attr.Empty) ∨
      ((decodeNew allocator vol attr).result = .error (.errno .eio) ∧ ¬ attr.Decodes vol) ∨
      (attr.Decodes vol ∧ ∃ rl, (decodeNew allocator vol attr).result = .ok (some rl) ∧
        rl.Holds (attr.decodedRuns vol ++ [attr.decodedLast vol])) := by
  by_cases hofs : attr.mappingPairsOffset ≤ attr.length
  swap
  · exact .inr
      (.inr (.inl ⟨by rw [decodeNew, if_pos (not_le.mp hofs)]; rfl, fun hdec => hofs hdec.1⟩))
  by_cases hemp : attr.Empty
  · exact .inr (.inl ⟨decodeNew_of_empty allocator vol attr hofs hemp, hemp⟩)
  have hruns : (decodeNew allocator vol attr).result = (decodeRuns allocator vol attr).result := by
    rw [decodeNew, if_neg (not_lt.mpr hofs)]
    split_ifs with hbase
    · rw [result_read_bind, if_neg fun hzero => hemp ⟨hbase, hzero⟩]
    · rfl
  rw [hruns]
  rcases decodeRuns_spec allocator vol attr hofs with hmemo | ⟨hfail, hnot⟩ | ⟨hacc, hrl⟩
  · exact .inl hmemo
  · exact .inr (.inr (.inl ⟨hfail, fun hdec => hnot hdec.2.2⟩))
  · exact .inr (.inr (.inr ⟨⟨hofs, hemp, hacc⟩, hrl⟩))

end

end AdvancedOs.Ntfs.MappingPairs
