import AdvancedOs.Foundation.PagedBytes
import AdvancedOs.Ntfs.RunlistElements

/-!
# Loading an attribute list

`load_attribute_list` reads the clusters of an attribute list block by block into a buffer. A block
that reaches the initialized size is copied in part and ends the load, and the rest of the buffer
becomes zero.

`Copies` says what a stretch of the load does with the bytes it reads. Two stretches are one
(`Copies.bind`), which gives the loop over the blocks of a run and the loop over the runs. A runlist
that ends before the initialized size ends the load without an error, with the bytes in between as
they were: `loadsComplete_iff` says which runlists are loaded completely.
-/

namespace AdvancedOs.Ntfs.AttributeListLoading

open Foundation.ArraySegments Foundation.PagedBytes Foundation.SignedWords RunlistElements

/-! ### The driver -/

structure Volume where
  clusterSizeBits : ℕ
  blocksizeBits : ℕ
  blocksizeBits_le : blocksizeBits ≤ clusterSizeBits

def Volume.clusterSize (vol : Volume) : ℕ := 2 ^ vol.clusterSizeBits

def Volume.blockSize (vol : Volume) : ℕ := 2 ^ vol.blocksizeBits

/-- `x << cluster_size_bits >> block_size_bits` of a signed word, as an unsigned one. -/
def Volume.blocks (vol : Volume) (x : ℤ) : ℕ :=
  (u64 (s64 (x * vol.clusterSize) / vol.blockSize)).toNat

abbrev Bytes := ℕ → UInt8

/-- What a load returns, and the buffer it leaves. -/
structure Loaded where
  result : Except Failure Unit
  al : Bytes

/-- A load: the bytes of the device and the blocks of it that can be read, and the sizes. -/
structure Load where
  vol : Volume
  bytes : Bytes
  readable : ℕ → Bool
  size : ℕ
  initializedSize : ℕ

namespace Load

variable (load : Load)

def blockAt (block : ℕ) : Bytes := fun i => load.bytes (block * load.vol.blockSize + i)

def sbBread (block : ℕ) : Option Bytes :=
  if load.readable block then some (load.blockAt block) else none

/-- The label `initialize`. -/
def zeroTail (al : Bytes) : Bytes :=
  if load.initializedSize < load.size then
    memcpy al load.initializedSize (fun _ => 0) 0 (load.size - load.initializedSize)
  else al

/-- The label `do_final`. -/
def doFinal (data al : Bytes) (pos : ℕ) : Loaded :=
  if pos < load.initializedSize then
    ⟨.ok (), load.zeroTail (memcpy al pos data 0 (load.initializedSize - pos))⟩
  else ⟨.error (.errno .eio), al⟩

/-- One block, from the read to the next place in the buffer. A jump out of the loop ends the
load. -/
def readBlock (block : ℕ) (al : Bytes) (pos : ℕ) : Except Loaded (Bytes × ℕ) :=
  match load.sbBread block with
  | none => .error ⟨.error (.errno .eio), al⟩
  | some data =>
    if load.initializedSize ≤ pos + load.vol.blockSize then .error (load.doFinal data al pos)
    else .ok (memcpy al pos data 0 load.vol.blockSize, pos + load.vol.blockSize)

/-- The loop over a block and `more` others. -/
def readBlocks : ℕ → ℕ → Bytes → ℕ → Except Loaded (Bytes × ℕ)
  | 0, block, al, pos => load.readBlock block al pos
  | more + 1, block, al, pos => do
    let (al, pos) ← load.readBlock block al pos
    readBlocks more (block + 1) al pos

def readRuns : List RunlistElement → Bytes → ℕ → Except Loaded (Bytes × ℕ)
  | [], al, _ => .error ⟨.error .overrun, al⟩
  | run :: rest, al, pos =>
    if run.length = 0 then .ok (al, pos)
    else match ntfsRlVcnToLcn (some (run :: rest)) run.vcn with
      | none => .error ⟨.error .overrun, al⟩
      | some lcn =>
        if lcn < 0 then .error ⟨.error (.errno .eio), al⟩
        else do
          let block := load.vol.blocks lcn
          let maxBlock := (block + load.vol.blocks run.length) % 2 ^ 64
          let (al, pos) ← load.readBlocks (maxBlock - (block + 1)) block al pos
          readRuns rest al pos

/-- The part of `load_attribute_list` behind its checks. -/
def walk (rl : List RunlistElement) (alStart : Bytes) : Loaded :=
  match load.readRuns rl alStart 0 with
  | .error loaded => loaded
  | .ok (al, _) => ⟨.ok (), load.zeroTail al⟩

end Load

def loadAttributeList (vol : Volume) (bytes : Bytes) (readable : ℕ → Bool)
    (rl : Option (List RunlistElement)) (alStart : Bytes) (size initializedSize : ℤ) : Loaded :=
  if size ≤ 0 ∨ initializedSize < 0 ∨ size < initializedSize then
    ⟨.error (.errno .einval), alStart⟩
  else if initializedSize = 0 then ⟨.ok (), memcpy alStart 0 (fun _ => 0) 0 size.toNat⟩
  else match rl with
    | none => ⟨.error (.errno .eio), alStart⟩
    | some rl => Load.walk ⟨vol, bytes, readable, size.toNat, initializedSize.toNat⟩ rl alStart

/-! ### Stretches of a load -/

/-- What a stretch of `count` bytes does: it fails, or copies the bytes up to the initialized size
and ends the load, or copies all of them. -/
inductive Copies (load : Load) (fails : Prop) (data : Bytes) (count : ℕ) (al : Bytes) (pos : ℕ) :
    Except Loaded (Bytes × ℕ) → Prop
  | failed (left : Bytes) (hfails : fails) :
      Copies load fails data count al pos (.error ⟨.error (.errno .eio), left⟩)
  | ended (hend : load.initializedSize ≤ pos + count) :
      Copies load fails data count al pos
        (.error ⟨.ok (), load.zeroTail (memcpy al pos data 0 (load.initializedSize - pos))⟩)
  | passed (hpass : pos + count < load.initializedSize) :
      Copies load fails data count al pos (.ok (memcpy al pos data 0 count, pos + count))

variable {load : Load} {fails : Prop} {front back data al : Bytes} {pos first second : ℕ}

/-- Assumes: bytes made of those of two stretches, the second of which goes on where the first
passes. The two are one stretch. -/
theorem Copies.bind {out : Except Loaded (Bytes × ℕ)} {rest : Bytes × ℕ → Except Loaded (Bytes × ℕ)}
    (hout : Copies load fails front first al pos out)
    (hfr : ∀ i < first, data i = front i) (hback : ∀ i, data (first + i) = back i)
    (hrest : pos + first < load.initializedSize →
      Copies load fails back second (memcpy al pos front 0 first) (pos + first)
        (rest (memcpy al pos front 0 first, pos + first))) :
    Copies load fails data (first + second) al pos (out >>= rest) := by
  cases hout with
  | failed left hfail => exact .failed left hfail
  | ended hend =>
    have hsame : memcpy al pos front 0 (load.initializedSize - pos) =
        memcpy al pos data 0 (load.initializedSize - pos) := by
      funext i
      dsimp only [memcpy]
      split_ifs
      · exact (hfr _ (by omega)).symm
      · rfl
    rw [hsame]
    exact .ended (by omega)
  | passed hpass =>
    change Copies load fails data (first + second) al pos (rest _)
    generalize hnext : rest _ = next at hrest ⊢
    cases hrest hpass with
    | failed left hfail => exact .failed left hfail
    | ended hend =>
      rw [memcpy_memcpy hfr fun i _ => hback i,
        show first + (load.initializedSize - (pos + first)) = load.initializedSize - pos by omega]
      exact .ended (by omega)
    | passed hlat =>
      rw [memcpy_memcpy hfr fun i _ => hback i, Nat.add_assoc]
      exact .passed (by omega)

theorem copies_readBlock (hblk : ∀ block, load.readable block = false → fails) (block : ℕ)
    (hpos : pos < load.initializedSize) :
    Copies load fails (load.blockAt block) load.vol.blockSize al pos
      (load.readBlock block al pos) := by
  unfold Load.readBlock Load.sbBread
  cases hread : load.readable block with
  | false => exact .failed al (hblk block hread)
  | true =>
    simp only [if_true]
    by_cases hend : load.initializedSize ≤ pos + load.vol.blockSize
    · rw [if_pos hend, Load.doFinal, if_pos hpos]
      exact .ended hend
    · rw [if_neg hend]
      exact .passed (by omega)

theorem copies_readBlocks (hblk : ∀ block, load.readable block = false → fails) (more block : ℕ)
    (hpos : pos < load.initializedSize) :
    Copies load fails (load.blockAt block) ((more + 1) * load.vol.blockSize) al pos
      (load.readBlocks more block al pos) := by
  induction more generalizing block al pos with
  | zero =>
    rw [Nat.zero_add, Nat.one_mul]
    exact copies_readBlock hblk block hpos
  | succ more ih =>
    have hone := @copies_readBlock load fails al pos hblk block hpos
    rw [Nat.succ_mul, Nat.add_comm]
    refine hone.bind (fun _ _ => rfl) (fun i => ?_) fun hpass => ih (block + 1) hpass
    unfold Load.blockAt
    rw [Nat.succ_mul, Nat.add_assoc]

/-! ### The loop over the runs -/

def byteCount (vol : Volume) : List RunlistElement → ℕ
  | [] => 0
  | run :: rest => run.length.toNat * vol.clusterSize + byteCount vol rest

def clusterByte (vol : Volume) (bytes : Bytes) : List RunlistElement → Bytes
  | [], _ => 0
  | run :: rest, i =>
    if i < run.length.toNat * vol.clusterSize then bytes (run.lcn.toNat * vol.clusterSize + i)
    else clusterByte vol bytes rest (i - run.length.toNat * vol.clusterSize)

/-- The run lies on a device, which has less than 2^63 bytes. -/
def OnDevice (vol : Volume) (run : RunlistElement) : Prop :=
  0 ≤ run.lcn → (run.lcn + run.length) * vol.clusterSize < 2 ^ 63

theorem blocks_mul (vol : Volume) {x : ℤ} (hlow : 0 ≤ x) (hhigh : x * vol.clusterSize < 2 ^ 63) :
    vol.blocks x * vol.blockSize = x.toNat * vol.clusterSize := by
  obtain ⟨n, rfl⟩ := Int.eq_ofNat_of_zero_le hlow
  obtain ⟨bits, hbits⟩ := Nat.exists_eq_add_of_le vol.blocksizeBits_le
  have hpos : 0 < vol.blockSize := Nat.two_pow_pos _
  have hclu : vol.clusterSize = vol.blockSize * 2 ^ bits := by
    rw [Volume.clusterSize, hbits, Nat.pow_add, Volume.blockSize]
  have hcast : (n * vol.clusterSize : ℤ) = (n * 2 ^ bits * vol.blockSize : ℕ) := by
    rw [hclu]
    push_cast
    ring
  rw [hcast] at hhigh
  have hle := Nat.le_mul_of_pos_right (n * 2 ^ bits) hpos
  rw [Volume.blocks, hcast, s64_of_isS64 ⟨by omega, hhigh⟩, ← Int.natCast_ediv,
    Nat.mul_div_cancel _ hpos, u64_of_nonneg (by omega) (by omega)]
  rw [Int.toNat_natCast, Int.toNat_natCast, hclu]
  ring

/-- Assumes: a run of clusters on the device. The loop over its blocks takes all of them. -/
theorem OnDevice.blocks {vol : Volume} {run : RunlistElement} (hdevi : OnDevice vol run)
    (hlcn : 0 ≤ run.lcn) (hlen : 0 < run.length) :
    vol.blocks run.lcn * vol.blockSize = run.lcn.toNat * vol.clusterSize ∧
      ((vol.blocks run.lcn + vol.blocks run.length) % 2 ^ 64 - (vol.blocks run.lcn + 1) + 1) *
        vol.blockSize = run.length.toNat * vol.clusterSize := by
  have hsize : (0 : ℤ) < vol.clusterSize := by exact_mod_cast Nat.two_pow_pos _
  have hby := hdevi hlcn
  rw [add_mul] at hby
  have hbef := mul_nonneg hlcn hsize.le
  have hspan := mul_pos hlen hsize
  have hpl := blocks_mul vol hlcn (by omega)
  have hcnt := blocks_mul vol hlen.le (by omega)
  have hword : (vol.blocks run.lcn + vol.blocks run.length) * vol.blockSize < 2 ^ 63 := by
    rw [Nat.add_mul, hpl, hcnt]
    zify
    rwa [Int.toNat_of_nonneg hlcn, Int.toNat_of_nonneg hlen.le]
  have hle := Nat.le_mul_of_pos_right (vol.blocks run.lcn + vol.blocks run.length)
    (Nat.two_pow_pos vol.blocksizeBits)
  have hpos : vol.blocks run.length ≠ 0 := fun hzero => by
    have hclus := Nat.mul_pos (Int.pos_iff_toNat_pos.mp hlen) (Nat.two_pow_pos vol.clusterSizeBits)
    rw [hzero, Nat.zero_mul] at hcnt
    exact absurd hcnt hclus.ne
  refine ⟨hpl, ?_⟩
  rw [← hcnt, Nat.mod_eq_of_lt ((hle.trans_lt hword).trans (by decide))]
  congr 1
  omega

section

variable {start : ℤ} {run last : RunlistElement} {runs : List RunlistElement}

theorem readRuns_cons (hch : Chain start (run :: runs) last.vcn) (hst : 0 ≤ start)
    (hlcn : IsS64 run.lcn) : load.readRuns (run :: (runs ++ [last])) al pos =
      if run.lcn < 0 then .error ⟨.error (.errno .eio), al⟩
      else (load.readBlocks ((load.vol.blocks run.lcn + load.vol.blocks run.length) % 2 ^ 64 -
        (load.vol.blocks run.lcn + 1)) (load.vol.blocks run.lcn) al pos) >>= fun next =>
          load.readRuns (runs ++ [last]) next.1 next.2 := by
  obtain ⟨hvcn, hlen, -⟩ := id hch
  have hcov : run.Covers run.vcn := ⟨le_refl _, by omega⟩
  have hloop := hch.vcnToLcnLoop_append [] hvcn.ge
  rw [lcnIn_cons, if_pos hcov, RunlistElement.lcnAt_self hlcn, Option.some_or] at hloop
  have hwalk : ntfsRlVcnToLcn (some (run :: (runs ++ [last]))) run.vcn = some run.lcn := by
    unfold ntfsRlVcnToLcn
    rw [if_neg (by omega)]
    exact (if_neg (lt_irrefl _)).trans hloop
  rw [Load.readRuns, if_neg hlen.ne', hwalk]

theorem copies_readRuns (hch : Chain start runs last.vcn) (hst : 0 ≤ start)
    (hlast : last.length = 0) (hlcn : ∀ run ∈ runs, IsS64 run.lcn)
    (hdevi : ∀ run ∈ runs, OnDevice load.vol run)
    (hblk : ∀ block, load.readable block = false → fails) (hmrk : ∀ run ∈ runs, run.lcn < 0 → fails)
    (hpos : pos < load.initializedSize) :
    Copies load fails (clusterByte load.vol load.bytes runs) (byteCount load.vol runs) al pos
      (load.readRuns (runs ++ [last]) al pos) := by
  induction runs generalizing start al pos with
  | nil =>
    have hsame : memcpy al pos (clusterByte load.vol load.bytes []) 0 0 = al := by
      funext i
      exact if_neg (by omega)
    rw [List.nil_append, Load.readRuns, if_pos hlast]
    nth_rewrite 2 [← hsame]
    exact .passed hpos
  | cons run runs ih =>
    rw [List.forall_mem_cons] at hlcn hdevi hmrk
    rw [List.cons_append, readRuns_cons hch hst hlcn.1]
    split_ifs with hneg
    · exact .failed al (hmrk.1 hneg)
    obtain ⟨hpl, hcnt⟩ := hdevi.1.blocks (not_lt.mp hneg) hch.2.1
    rw [byteCount, ← hcnt]
    refine (copies_readBlocks hblk _ _ hpos).bind (fun i hi => ?_) (fun i => ?_)
      fun hpass => ih hch.2.2 (by have := hch.2.1; omega) hlcn.2 hdevi.2 hmrk.2 hpass
    · rw [hcnt] at hi
      rw [clusterByte, if_pos hi, Load.blockAt, hpl]
    · rw [hcnt, clusterByte, if_neg (by omega), Nat.add_sub_cancel_left]

theorem readRuns_ok {next : Bytes × ℕ} (hch : Chain start runs last.vcn) (hst : 0 ≤ start)
    (hlcn : ∀ run ∈ runs, IsS64 run.lcn) (hok : load.readRuns (runs ++ [last]) al pos = .ok next) :
    ∀ run ∈ runs, 0 ≤ run.lcn := by
  induction runs generalizing start al pos with
  | nil => simp
  | cons run runs ih =>
    rw [List.forall_mem_cons] at hlcn ⊢
    rw [List.cons_append, readRuns_cons hch hst hlcn.1] at hok
    split_ifs at hok with hneg
    cases hblks : load.readBlocks _ (load.vol.blocks run.lcn) al pos with
    | error loaded =>
      rw [hblks] at hok
      cases hok
    | ok middle =>
      rw [hblks] at hok
      exact ⟨not_lt.mp hneg, ih hch.2.2 (by have := hch.2.1; omega) hlcn.2 hok⟩

end

/-! ### Complete loads -/

theorem zeroTail_memcpy (hle : load.initializedSize ≤ load.size) (i : ℕ) :
    load.zeroTail (memcpy al 0 data 0 load.initializedSize) i =
      if i < load.initializedSize then data i else if i < load.size then 0 else al i := by
  unfold Load.zeroTail
  by_cases htail : load.initializedSize < load.size
  · rw [if_pos htail]
    dsimp only [memcpy]
    split_ifs <;> first | omega | rfl
  · rw [if_neg htail]
    dsimp only [memcpy]
    split_ifs <;> first | omega | rfl

/-- Consecutive runs on the device of a volume, in front of a terminator. -/
structure DeviceRunlist (vol : Volume) where
  runs : List RunlistElement
  last : RunlistElement
  chain : Chain 0 runs last.vcn
  last_length : last.length = 0
  lcn_isS64 : ∀ run ∈ runs, IsS64 run.lcn
  onDevice : ∀ run ∈ runs, OnDevice vol run

namespace DeviceRunlist

variable {vol : Volume} (rl : DeviceRunlist vol) {size initializedSize : ℤ}

/-- The buffer has the bytes of the runs up to the initialized size, zeros up to its size, and
behind that what it had before. -/
def IsComplete (bytes alStart : Bytes) (size initializedSize : ℤ) (al : Bytes) : Prop :=
  initializedSize ≤ byteCount vol rl.runs ∧ ∀ i : ℕ,
    (i < initializedSize → al i = clusterByte vol bytes rl.runs i) ∧
      (initializedSize ≤ i → i < size → al i = 0) ∧ (size ≤ i → al i = alStart i)

/-- Every load that succeeds is complete, whatever the device holds and the buffer held. -/
def LoadsComplete (size initializedSize : ℤ) : Prop :=
  ∀ bytes readable alStart loaded,
    loadAttributeList vol bytes readable (some (rl.runs ++ [rl.last])) alStart size
      initializedSize = loaded →
    loaded.result = .ok () → rl.IsComplete bytes alStart size initializedSize loaded.al

theorem load_cases (hpos : 0 < initializedSize) (hle : initializedSize ≤ size) (bytes : Bytes)
    (readable : ℕ → Bool) (alStart : Bytes) {loaded : Loaded}
    (hload : loadAttributeList vol bytes readable (some (rl.runs ++ [rl.last])) alStart size
      initializedSize = loaded) :
    (loaded.result = .error (.errno .eio) ∧
      ((∃ run ∈ rl.runs, run.lcn < 0) ∨ ∃ block, readable block = false)) ∨
      (loaded.result = .ok () ∧ rl.IsComplete bytes alStart size initializedSize loaded.al) ∨
      (loaded.result = .ok () ∧ byteCount vol rl.runs < initializedSize ∧ ∀ run ∈ rl.runs,
      0 ≤ run.lcn) := by
  obtain ⟨n, rfl⟩ := Int.eq_ofNat_of_zero_le hpos.le
  obtain ⟨m, rfl⟩ := Int.eq_ofNat_of_zero_le (hpos.le.trans hle)
  have hcopi := @copies_readRuns ⟨vol, bytes, readable, m, n⟩
    ((∃ run ∈ rl.runs, run.lcn < 0) ∨ ∃ block, readable block = false) alStart 0 0 rl.last rl.runs
    rl.chain le_rfl rl.last_length rl.lcn_isS64 rl.onDevice (fun block h => .inr ⟨block, h⟩)
    (fun run hrun h => .inl ⟨run, hrun, h⟩) (Int.natCast_pos.mp hpos)
  rw [loadAttributeList, if_neg (by omega), if_neg (by omega)] at hload
  dsimp only [Int.toNat_natCast, Load.walk] at hload
  subst hload
  generalize hout : Load.readRuns _ (rl.runs ++ [rl.last]) alStart 0 = out at hcopi ⊢
  cases hcopi with
  | failed left hfail => exact .inl ⟨rfl, hfail⟩
  | ended hend =>
    refine .inr (.inl ⟨rfl, by simpa using hend, fun i => ?_⟩)
    dsimp only
    rw [Nat.sub_zero, zeroTail_memcpy (Int.ofNat_le.mp hle)]
    dsimp only
    refine ⟨fun hi => ?_, fun hlow hhigh => ?_, fun hi => ?_⟩
    · rw [if_pos (by omega)]
    · rw [if_neg (by omega), if_pos (by omega)]
    · rw [if_neg (by omega), if_neg (by omega)]
  | passed hpass =>
    exact .inr (.inr ⟨rfl, by simpa using hpass, readRuns_ok rl.chain le_rfl rl.lcn_isS64 hout⟩)

theorem not_loadsComplete (hpos : 0 < initializedSize) (hle : initializedSize ≤ size)
    (hshort : byteCount vol rl.runs < initializedSize) (hruns : ∀ run ∈ rl.runs, 0 ≤ run.lcn) :
    ¬ rl.LoadsComplete size initializedSize := by
  intro hall
  have hcomp := hall (fun _ => 0) (fun _ => true) (fun _ => 0) _ rfl
  rcases rl.load_cases hpos hle (fun _ => 0) (fun _ => true) (fun _ => 0) rfl with
    ⟨-, ⟨run, hrun, hneg⟩ | ⟨block, hblk⟩⟩ | hok | hok
  · exact absurd (hruns run hrun) (not_le.mpr hneg)
  · cases hblk
  · exact absurd (hcomp hok.1).1 (not_le.mpr hshort)
  · exact absurd (hcomp hok.1).1 (not_le.mpr hshort)

/-- Assumes: an initialized size that is positive and at most the size. Every load that succeeds is
complete exactly when the runs reach the initialized size or one of them is a marker. -/
theorem loadsComplete_iff (size initializedSize : ℤ) (hpos : 0 < initializedSize)
    (hle : initializedSize ≤ size) :
    rl.LoadsComplete size initializedSize ↔
      initializedSize ≤ byteCount vol rl.runs ∨ ∃ run ∈ rl.runs, run.lcn < 0 := by
  constructor
  · intro hall
    by_contra hcond
    push Not at hcond
    exact rl.not_loadsComplete hpos hle hcond.1 hcond.2 hall
  · intro hcond bytes readable alStart loaded hloaded hok
    rcases rl.load_cases hpos hle bytes readable alStart hloaded with
      ⟨hfails, -⟩ | ⟨-, hcomplete⟩ | ⟨-, hshort, hruns⟩
    · rw [hfails] at hok
      cases hok
    · exact hcomplete
    · rcases hcond with hreach | ⟨run, hrun, hneg⟩
      · exact absurd hreach (not_le.mpr hshort)
      · exact absurd (hruns run hrun) (not_le.mpr hneg)

def oneCluster : DeviceRunlist ⟨12, 9, by decide⟩ where
  runs := [⟨0, 100, 1⟩]
  last := ⟨1, lcnEnoent, 0⟩
  chain := by decide
  last_length := rfl
  lcn_isS64 := by decide
  onDevice := by
    intro run hrun hlcn
    rw [List.mem_singleton.mp hrun]
    decide

/-- A list of 4000 bytes is loaded completely from one cluster. -/
theorem oneCluster_loadsComplete : oneCluster.LoadsComplete 4096 4000 :=
  (loadsComplete_iff oneCluster 4096 4000 (by decide) (by decide)).mpr (.inl (by decide))

/-- A list of 8000 bytes is not. -/
theorem oneCluster_not_loadsComplete : ¬ oneCluster.LoadsComplete 8192 8000 :=
  not_loadsComplete oneCluster (by decide) (by decide) (by decide) (by decide)

end DeviceRunlist

end AdvancedOs.Ntfs.AttributeListLoading
