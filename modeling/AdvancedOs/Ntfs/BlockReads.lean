import AdvancedOs.Ntfs.LazyRunlistMapping

/-!
# Reading a page block by block

`ntfs_read_block` fills a page of an attribute. It goes over the buffers of the page, looks up the
cluster of each, and decides whether the buffer has to be read or is zero; a part of the runlist
that is not mapped is mapped on the way. The reads then end in any order, and the completion handler
makes what lies behind the initialized size zero and sets the page uptodate with the last of them.

`DataAttribute.byte` is the file: its byte at an offset. `Maps` says what the runlist in memory has
to do with the clusters of the attribute, and `maps_inodeMapper` that `ntfs_map_runlist` keeps to
it. `Looped` is the invariant of the loop over the buffers and `Pending` that of the reads still to
come. `ntfsReadBlock_returns_file` puts them together: a page that is uptodate in the end holds the
file. `lookEach_eq_fresh` compares lookups behind a cursor with those from the start.

Sizes and offsets are computed in 64-bit words. The number of blocks below a size may overflow near
the largest file size; `iblock_lt_blocksBelow` says that the comparison with it is right even then.
-/

namespace AdvancedOs.Ntfs.BlockReads

open Foundation.QueryMachines Foundation.SignedWords RunlistElements RunlistMergeRoutines
  RunlistMerge MappingPairs Function AttributeExtents LazyRunlistMapping List Option Except

/-! ### Volumes, pages and buffers -/

/-- The sizes of clusters, pages and blocks. Pages and clusters consist of whole blocks. -/
structure Geometry where
  vol : NtfsVolume
  pageCacheShift : ℕ
  blocksizeBits : ℕ
  blocksizeBits_le_page : blocksizeBits ≤ pageCacheShift
  blocksizeBits_le_cluster : blocksizeBits ≤ vol.clusterSizeBits

namespace Geometry

variable (geo : Geometry)

def blocksize : ℕ := 2 ^ geo.blocksizeBits

def pageCacheSize : ℕ := 2 ^ geo.pageCacheShift

def nrBuffers : ℕ := 2 ^ (geo.pageCacheShift - geo.blocksizeBits)

end Geometry

/-- The sizes of an attribute, as they are while its page is read. -/
structure Sizes where
  allocatedSize : ℤ
  initializedSize : ℤ
  iSize : ℤ

/-- The part of `struct buffer_head` a read uses. -/
structure BufferHead where
  mapped : Bool
  uptodate : Bool
  asyncRead : Bool
  locked : Bool
  blocknr : ℤ

/-- A page of the page cache: its number in the file, its bytes, its buffers if it has some, and its
flags. -/
structure Page where
  index : ℤ
  mem : ℕ → UInt8
  buffers : Option (ℕ → BufferHead)
  error : Bool
  uptodate : Bool
  locked : Bool

/-- The runlist of an inode and what maps its parts: the states of the inode, the runlist in each of
them, and `ntfs_map_runlist`. -/
structure Mapper (State : Type) where
  rl : State → RlPtr
  mapRunlist : State → ℤ → Except Failure Unit × State

/-! ### Looking up a block -/

def elementsOf : RlPtr → Option (List RunlistElement)
  | .null => none
  | .err _ => some []
  | .block rl => some rl.toList

def seek (vcn : ℤ) : List RunlistElement → List RunlistElement
  | run :: next :: rest =>
    if run.length ≠ 0 ∧ next.vcn ≤ vcn then seek vcn (next :: rest) else run :: next :: rest
  | rl => rl

/-- The lookup of a vcn from the element `rl` points to, and the element it leaves `rl` at. -/
def lookFrom (vcn : ℤ) : Option (List RunlistElement) →
    Except Failure (ℤ × Option (List RunlistElement))
  | none => .ok (lcnRlNotMapped, none)
  | some rl =>
    match ntfsRlVcnToLcn (some (seek vcn rl)) vcn with
    | some lcn => .ok (lcn, some (seek vcn rl))
    | none => .error .overrun

/-- What is known of a vcn after at most one attempt to map it. -/
structure Located (State : Type) where
  lcn : ℤ
  err : Option Errno
  ni : State
  rl : Option (List RunlistElement)

section

variable {State : Type} (mapper : Mapper State) (geo : Geometry) (sizes : Sizes)

/-- The lookup behind `lock_retry_remap`. A part of the runlist that is not mapped is mapped, and
then the lookup is tried once more from the start of the runlist. -/
def locate (vcn : ℤ) (ni : State) (rl : Option (List RunlistElement)) :
    Except Failure (Located State) := do
  let (lcn, rl) ← lookFrom vcn (rl.or (elementsOf (mapper.rl ni)))
  if lcn = lcnRlNotMapped then
    match mapper.mapRunlist ni vcn with
    | (.ok (), ni) =>
      let (lcn, rl) ← lookFrom vcn (elementsOf (mapper.rl ni))
      return ⟨lcn, none, ni, rl⟩
    | (.error (.errno err), ni) => return ⟨lcn, some err, ni, none⟩
    | (.error why, _) => .error why
  else return ⟨lcn, none, ni, rl⟩

/-! ### `ntfs_read_block` -/

def initSize : ℤ :=
  if sizes.iSize < sizes.initializedSize then sizes.iSize else sizes.initializedSize

/-- The number of blocks that begin below `size`. -/
def blocksBelow (size : ℤ) : ℤ := u64 (s64 (size + geo.blocksize - 1) / geo.blocksize)

def lblock : ℤ := blocksBelow geo sizes.allocatedSize

def zblock : ℤ := blocksBelow geo (initSize sizes)

/-- `iblock` for the buffer number `i` of a page. -/
def iblock (index : ℤ) (i : ℕ) : ℤ := u64 (u64 (s64 (index * geo.nrBuffers)) + i)

def blockOfs (index : ℤ) (i : ℕ) : ℤ := s64 (iblock geo index i * geo.blocksize)

/-- The state of the loop over the buffers: the inode, the element `rl` points to, the buffers that
have to be read, and the page. -/
structure ReadState (State : Type) where
  ni : State
  rl : Option (List RunlistElement)
  arr : List ℕ
  bufs : ℕ → BufferHead
  mem : ℕ → UInt8
  error : Bool

/-- `handle_zblock`: the part of the page is zero, and uptodate unless there was an error. -/
def handleZblock (i : ℕ) (ok : Bool) (st : ReadState State) : ReadState State :=
  { st with
    mem := fun offset =>
      if i * geo.blocksize ≤ offset ∧ offset < i * geo.blocksize + geo.blocksize then 0
      else st.mem offset
    bufs := if ok then update st.bufs i { st.bufs i with uptodate := true } else st.bufs }

def handleHole (i : ℕ) (ok : Bool) (st : ReadState State) : ReadState State :=
  handleZblock geo i ok
    { st with bufs := update st.bufs i { st.bufs i with blocknr := u64 (-1), mapped := false } }

/-- What is done with the buffer number `i` of a block within the allowed limits, once its cluster
has been looked up. -/
def readLocated (index : ℤ) (i : ℕ) (st : ReadState State) (found : Located State) :
    ReadState State :=
  let vcnOfs := blockOfs geo index i % geo.vol.clusterSize
  let st := { st with ni := found.ni, rl := found.rl }
  if 0 ≤ found.lcn then
    let blocknr := u64 (s64 (s64 (found.lcn * geo.vol.clusterSize) + vcnOfs) / geo.blocksize)
    let st := { st with
      bufs := update st.bufs i { st.bufs i with blocknr := blocknr, mapped := true } }
    if iblock geo index i < zblock geo sizes then { st with arr := st.arr ++ [i] }
    else handleZblock geo i true st
  else if found.lcn = lcnHole ∨ found.err = some .enoent ∨ found.lcn = lcnEnoent then
    handleHole geo i true st
  else handleHole geo i false { st with error := true }

/-- The loop body for the buffer number `i`. -/
def readBuffer (index : ℤ) (i : ℕ) (st : ReadState State) : Except Failure (ReadState State) :=
  if (st.bufs i).uptodate then .ok st
  else if (st.bufs i).mapped then .ok { st with arr := st.arr ++ [i] }
  else if iblock geo index i < lblock geo sizes then
    (locate mapper (blockOfs geo index i / geo.vol.clusterSize) st.ni st.rl).map
      (readLocated geo sizes index i st)
  else .ok (handleHole geo i true st)

/-- What `ntfs_read_block` leaves: the page, the buffers that are being read, and the result. -/
structure Started where
  page : Page
  arr : List ℕ
  status : Except Errno Unit

def lockBuffers (st : ReadState State) (i : ℕ) : BufferHead :=
  if i ∈ st.arr then { st.bufs i with locked := true, asyncRead := true } else st.bufs i

/-- The end of `ntfs_read_block`: the reads are started, or the page is unlocked if there are
none. -/
def startReads (page : Page) (st : ReadState State) : Started :=
  let page := { page with mem := st.mem, error := st.error, buffers := some st.bufs }
  if st.arr ≠ [] then ⟨{ page with buffers := some (lockBuffers st) }, st.arr, .ok ()⟩
  else if st.error then ⟨{ page with locked := false }, [], .error .eio⟩
  else ⟨{ page with uptodate := true, locked := false }, [], .ok ()⟩

end

/-! ### `ntfs_end_buffer_async_read` -/

/-- What the loop over the buffers of the page finds: one that is still being read, one that is but
is not locked, or whether all are uptodate. -/
inductive Scan
  | stillBusy
  | bug
  | done (pageUptodate : Bool)

def scan (bufs : ℕ → BufferHead) : List ℕ → Bool → Scan
  | [], pageUptodate => .done pageUptodate
  | tmp :: rest, pageUptodate =>
    if (bufs tmp).asyncRead then if (bufs tmp).locked then .stillBusy else .bug
    else scan bufs rest (pageUptodate && (bufs tmp).uptodate)

section

variable (geo : Geometry) (sizes : Sizes)

/-- The buffers of a page in the order of `b_this_page`, from the buffer number `i` on. -/
def ring (i : ℕ) : List ℕ := List.range' i (geo.nrBuffers - i) ++ List.range i

/-- What lies behind the initialized size in the buffer number `i` becomes zero. -/
def zeroTail (index : ℤ) (i : ℕ) (mem : ℕ → UInt8) : ℕ → UInt8 :=
  let fileOfs := s64 (s64 (index * geo.pageCacheSize) + i * geo.blocksize)
  if u64 (initSize sizes) < u64 (fileOfs + geo.blocksize) then
    let ofs := if fileOfs < initSize sizes then (initSize sizes - fileOfs).toNat else 0
    fun offset =>
      if i * geo.blocksize + ofs ≤ offset ∧ offset < i * geo.blocksize + geo.blocksize then 0
      else mem offset
  else mem

/-- The buffers when the read of the buffer number `i` has ended. -/
def endBuffer (bufs : ℕ → BufferHead) (i : ℕ) (uptodate : Bool) : ℕ → BufferHead :=
  update bufs i { bufs i with uptodate := uptodate, asyncRead := false, locked := false }

/-- `ntfs_end_buffer_async_read` of the buffer number `i`, for an attribute without multi sector
transfer protection. -/
def ntfsEndBufferAsyncRead (page : Page) (bufs : ℕ → BufferHead) (i : ℕ) (uptodate : Bool) :
    Except Failure Page :=
  let bufs := endBuffer bufs i uptodate
  let page := { page with
    buffers := some bufs
    mem := if uptodate then zeroTail geo sizes page.index i page.mem else page.mem
    error := page.error || !uptodate }
  match scan bufs (ring geo i) true with
  | .bug => .error .bug
  | .stillBusy => .ok page
  | .done pageUptodate =>
    .ok { page with uptodate := page.uptodate || (pageUptodate && !page.error), locked := false }

/-- The end of a read: of which buffer, whether it succeeded, and what a failed one leaves. -/
structure Completion where
  buffer : ℕ
  ok : Bool
  junk : ℕ → UInt8

/-- The bytes of a page after the data of a read has been transferred. -/
def transfer (device : ℤ → UInt8) (blocknr : ℤ) (done : Completion) (mem : ℕ → UInt8) : ℕ → UInt8 :=
  fun offset =>
    if done.buffer * geo.blocksize ≤ offset ∧
        offset < done.buffer * geo.blocksize + geo.blocksize then
      if done.ok then device (blocknr * geo.blocksize + (offset - done.buffer * geo.blocksize : ℕ))
      else done.junk offset
    else mem offset

/-- A read ends: its data is in the page, and the completion handler is called. -/
def complete (device : ℤ → UInt8) (page : Page) (done : Completion) : Except Failure Page :=
  match page.buffers with
  | none => .error .bug
  | some bufs =>
    ntfsEndBufferAsyncRead geo sizes
      { page with mem := transfer geo device (bufs done.buffer).blocknr done page.mem }
      bufs done.buffer done.ok

def completeAll (device : ℤ → UInt8) : Page → List Completion → Except Failure Page
  | page, [] => .ok page
  | page, done :: rest => do
    let page ← complete geo sizes device page done
    completeAll device page rest

end

/-! ### The file -/

/-- A non-resident attribute: the cluster of every vcn, or a negative number where there is none,
and its sizes. The clusters lie on a device whose size in bytes is a 64-bit word. -/
structure DataAttribute (geo : Geometry) where
  lcn : ℤ → ℤ
  sizes : Sizes
  lcn_le : ∀ vcn, (lcn vcn + 1) * geo.vol.clusterSize ≤ 2 ^ 63
  allocatedSize_isS64 : 0 ≤ sizes.allocatedSize ∧ sizes.allocatedSize < 2 ^ 63
  initializedSize_isS64 : 0 ≤ sizes.initializedSize ∧ sizes.initializedSize < 2 ^ 63
  iSize_isS64 : 0 ≤ sizes.iSize ∧ sizes.iSize < 2 ^ 63

/-- The byte of the file at an offset: that on the device, where the file is initialized, its block
begins below the allocated size and it has a cluster, and otherwise zero. The allocated size comes
from the attribute record and the clusters from the mapping pairs: neither is derived from the
other. -/
def DataAttribute.byte {geo : Geometry} (attr : DataAttribute geo) (device : ℤ → UInt8)
    (offset : ℤ) : UInt8 :=
  let lcn := attr.lcn (offset / geo.vol.clusterSize)
  if offset < min attr.sizes.initializedSize attr.sizes.iSize ∧
      offset / geo.blocksize * geo.blocksize < attr.sizes.allocatedSize ∧ 0 ≤ lcn then
    device (lcn * geo.vol.clusterSize + offset % geo.vol.clusterSize)
  else 0

/-- The page lies in a file: the offsets of its bytes are 64-bit words. -/
def InFile (geo : Geometry) (index : ℤ) : Prop :=
  0 ≤ index ∧ (index + 1) * geo.pageCacheSize ≤ 2 ^ 63

/-- Where the buffer number `i` of a page starts in the file. -/
def blockStart (geo : Geometry) (index : ℤ) (i : ℕ) : ℤ :=
  index * geo.pageCacheSize + i * geo.blocksize

section

variable {geo : Geometry} {index : ℤ} {i : ℕ}

theorem blocksize_pos (geo : Geometry) : 0 < geo.blocksize := Nat.two_pow_pos _

theorem blocksize_le (geo : Geometry) : geo.blocksize ≤ 2 ^ 31 :=
  Nat.pow_le_pow_right (by decide) (by
    have hclu := geo.blocksizeBits_le_cluster
    have hbits := geo.vol.clusterSizeBits_lt
    omega)

theorem pageCacheSize_eq (geo : Geometry) :
    geo.pageCacheSize = geo.nrBuffers * geo.blocksize := by
  unfold Geometry.pageCacheSize Geometry.nrBuffers Geometry.blocksize
  rw [← pow_add, Nat.sub_add_cancel geo.blocksizeBits_le_page]

theorem blocksize_dvd_clusterSize (geo : Geometry) : (geo.blocksize : ℤ) ∣ geo.vol.clusterSize := by
  exact pow_dvd_pow _ geo.blocksizeBits_le_cluster

theorem clusterSize_pos (geo : Geometry) : 0 < geo.vol.clusterSize := pow_pos (by decide) _

theorem blockStart_eq (geo : Geometry) (index : ℤ) (i : ℕ) :
    blockStart geo index i = (index * geo.nrBuffers + i) * geo.blocksize := by
  rw [blockStart, pageCacheSize_eq]
  push_cast
  ring

theorem blockStart_bounds (hfile : InFile geo index) (hi : i < geo.nrBuffers) :
    0 ≤ index * geo.nrBuffers + i ∧ blockStart geo index i + geo.blocksize ≤ 2 ^ 63 := by
  obtain ⟨hlow, hhigh⟩ := hfile
  have hprod : 0 ≤ index * geo.nrBuffers := mul_nonneg hlow (Int.natCast_nonneg _)
  refine ⟨by omega, le_trans ?_ hhigh⟩
  have hnext : ((i : ℤ) + 1) * geo.blocksize ≤ geo.nrBuffers * geo.blocksize :=
    mul_le_mul_of_nonneg_right (by omega) (Int.natCast_nonneg _)
  rw [blockStart, pageCacheSize_eq]
  push_cast at *
  linarith

theorem iblock_eq (hfile : InFile geo index) (hi : i < geo.nrBuffers) :
    iblock geo index i = index * geo.nrBuffers + i := by
  obtain ⟨hlow, hhigh⟩ := blockStart_bounds hfile hi
  have hpos : (1 : ℤ) ≤ geo.blocksize := by exact_mod_cast blocksize_pos geo
  have hle : index * geo.nrBuffers + i ≤ blockStart geo index i := by
    rw [blockStart_eq]
    exact le_mul_of_one_le_right hlow hpos
  have hfst : 0 ≤ index * geo.nrBuffers := mul_nonneg hfile.1 (Int.natCast_nonneg _)
  rw [iblock, s64_of_isS64 ⟨by omega, by omega⟩, u64_of_nonneg hfst (by omega),
    u64_of_nonneg hlow (by omega)]

theorem blockOfs_eq (hfile : InFile geo index) (hi : i < geo.nrBuffers) :
    blockOfs geo index i = blockStart geo index i := by
  obtain ⟨hlow, hhigh⟩ := blockStart_bounds hfile hi
  have hpos := blocksize_pos geo
  have hst : 0 ≤ blockStart geo index i := by
    rw [blockStart_eq]
    exact mul_nonneg hlow (Int.natCast_nonneg _)
  rw [blockOfs, iblock_eq hfile hi, ← blockStart_eq, s64_of_isS64 ⟨by omega, by omega⟩]

/-- Assumes: a size that is a 64-bit word. The block lies below the limit computed from the size
when it starts below the size, even where the computation of the limit overflows. -/
theorem iblock_lt_blocksBelow (hfile : InFile geo index) (hi : i < geo.nrBuffers) {size : ℤ}
    (hlow : 0 ≤ size) (hhigh : size < 2 ^ 63) :
    iblock geo index i < blocksBelow geo size ↔ blockStart geo index i < size := by
  obtain ⟨hblk, hend⟩ := blockStart_bounds hfile hi
  have hpos : (0 : ℤ) < geo.blocksize := by exact_mod_cast blocksize_pos geo
  have hle : (geo.blocksize : ℤ) ≤ 2 ^ 31 := by exact_mod_cast blocksize_le geo
  have hst := blockStart_eq geo index i
  rw [iblock_eq hfile hi, blocksBelow]
  generalize index * geo.nrBuffers + i = block at *
  generalize (geo.blocksize : ℤ) = size' at *
  by_cases hfits : size + size' - 1 < 2 ^ 63
  · have hquo : (size + size' - 1) / size' < 2 ^ 63 :=
      (Int.ediv_le_self _ (by omega)).trans_lt hfits
    rw [s64_of_isS64 ⟨by omega, hfits⟩,
      u64_of_nonneg (Int.ediv_nonneg (by omega) hpos.le) (by omega), ← Int.add_one_le_iff,
      Int.le_ediv_iff_mul_le hpos, add_mul, hst]
    omega
  · obtain ⟨k, hk⟩ := exists_s64_eq (size + size' - 1)
    have hword := isS64_s64 (size + size' - 1)
    have hneg : s64 (size + size' - 1) < 0 := by
      unfold IsS64 at hword
      omega
    have hquo : s64 (size + size' - 1) / size' < 0 := Int.ediv_neg_of_neg_of_pos hneg hpos
    have hfloor : -2 ^ 63 ≤ s64 (size + size' - 1) / size' := by
      rw [Int.le_ediv_iff_mul_le hpos]
      nlinarith [hword.1]
    have hlimit : u64 (s64 (size + size' - 1) / size') =
        s64 (size + size' - 1) / size' + 2 ^ 64 := by
      unfold u64
      omega
    have hlast : block ≤ blockStart geo index i := by
      rw [hst]
      exact le_mul_of_one_le_right hblk (by omega)
    omega

theorem add_ediv_emod (geo : Geometry) (index : ℤ) (i : ℕ) {r : ℤ} (hr : 0 ≤ r)
    (hlt : r < geo.blocksize) : (blockStart geo index i + r) / geo.vol.clusterSize =
      blockStart geo index i / geo.vol.clusterSize ∧
      (blockStart geo index i + r) % geo.vol.clusterSize =
      blockStart geo index i % geo.vol.clusterSize + r := by
  obtain ⟨count, hcnt⟩ := blocksize_dvd_clusterSize geo
  have hpos : (0 : ℤ) < geo.blocksize := by exact_mod_cast blocksize_pos geo
  have hquo : (blockStart geo index i + r) / geo.vol.clusterSize =
      blockStart geo index i / geo.vol.clusterSize := by
    rw [hcnt, ← Int.ediv_ediv_of_nonneg hpos.le, ← Int.ediv_ediv_of_nonneg hpos.le, blockStart_eq,
      Int.mul_ediv_cancel _ hpos.ne', add_comm, Int.add_mul_ediv_right _ _ hpos.ne',
      Int.ediv_eq_zero_of_lt hr hlt, zero_add]
  refine ⟨hquo, ?_⟩
  rw [Int.emod_def, Int.emod_def, hquo]
  ring

theorem add_ediv_blocksize_mul (geo : Geometry) (index : ℤ) (i : ℕ) {r : ℤ} (hr : 0 ≤ r)
    (hlt : r < geo.blocksize) :
    (blockStart geo index i + r) / geo.blocksize * geo.blocksize = blockStart geo index i := by
  have hpos : (0 : ℤ) < geo.blocksize := by exact_mod_cast blocksize_pos geo
  rw [blockStart_eq, add_comm, Int.add_mul_ediv_right _ _ hpos.ne', Int.ediv_eq_zero_of_lt hr hlt,
    zero_add]

theorem blocknr_mul (hfile : InFile geo index) (hi : i < geo.nrBuffers) {lcn : ℤ} (hlcn : 0 ≤ lcn)
    (hle : (lcn + 1) * geo.vol.clusterSize ≤ 2 ^ 63) :
    u64 (s64 (s64 (lcn * geo.vol.clusterSize) + blockOfs geo index i % geo.vol.clusterSize) /
        geo.blocksize) * geo.blocksize =
      lcn * geo.vol.clusterSize + blockStart geo index i % geo.vol.clusterSize := by
  have hclu := clusterSize_pos geo
  have hpos : (0 : ℤ) < geo.blocksize := by exact_mod_cast blocksize_pos geo
  have hdvd := blocksize_dvd_clusterSize geo
  have hofs := Int.emod_nonneg (blockStart geo index i) hclu.ne'
  have hlt := Int.emod_lt_of_pos (blockStart geo index i) hclu
  have hprod : 0 ≤ lcn * geo.vol.clusterSize := mul_nonneg hlcn hclu.le
  rw [add_mul] at hle
  have hsum : (geo.blocksize : ℤ) ∣ lcn * geo.vol.clusterSize +
      blockStart geo index i % geo.vol.clusterSize := by
    have hst : (geo.blocksize : ℤ) ∣ blockStart geo index i := by
      rw [blockStart_eq]
      exact Int.dvd_mul_left _ _
    refine Int.dvd_add (Int.dvd_mul_of_dvd_right hdvd) (Int.dvd_of_emod_eq_zero ?_)
    rw [Int.emod_emod_of_dvd _ hdvd]
    exact Int.emod_eq_zero_of_dvd hst
  have hsm : (lcn * geo.vol.clusterSize + blockStart geo index i % geo.vol.clusterSize) /
      geo.blocksize ≤ lcn * geo.vol.clusterSize + blockStart geo index i % geo.vol.clusterSize :=
    Int.ediv_le_self _ (by omega)
  have hword : s64 (lcn * geo.vol.clusterSize) = lcn * geo.vol.clusterSize :=
    s64_of_isS64 ⟨by omega, by omega⟩
  rw [blockOfs_eq hfile hi, hword, s64_of_isS64 ⟨by omega, by omega⟩,
    u64_of_nonneg (Int.ediv_nonneg (by omega) hpos.le) (by omega), Int.ediv_mul_cancel hsum]

end

/-! ### Runlists that are mapped on demand -/

/-- Assumes: `Inv` holds of the inode. What its runlist maps are clusters of the attribute, whatever
is mapped on the way, and `-ENOENT` means that there is no such cluster. -/
structure Maps {State : Type} (mapper : Mapper State) (lcn : ℤ → ℤ)
    (Inv : State → Prop) : Prop where
  start : ∀ {ni run rest}, Inv ni → elementsOf (mapper.rl ni) = some (run :: rest) → run.vcn = 0
  lookup : ∀ {ni vcn}, Inv ni → 0 ≤ vcn → lcnOfPtr (mapper.rl ni) vcn = some (lcn vcn) ∨
      lcnOfPtr (mapper.rl ni) vcn = some lcnRlNotMapped
  mapRunlist : ∀ {ni vcn}, Inv ni → 0 ≤ vcn → Inv (mapper.mapRunlist ni vcn).2
  enoent : ∀ {ni vcn}, Inv ni → 0 ≤ vcn →
    (mapper.mapRunlist ni vcn).1 = .error (.errno .enoent) → lcn vcn < 0

section

variable {vcn before : ℤ} {rl : List RunlistElement}

theorem seek_seek (hle : before ≤ vcn) (rl : List RunlistElement) :
    seek vcn (seek before rl) = seek vcn rl := by
  induction rl with
  | nil => rfl
  | cons run rest ih =>
    cases rest with
    | nil => rfl
    | cons next rest =>
      by_cases hmoves : run.length ≠ 0 ∧ next.vcn ≤ before
      · rw [seek, if_pos hmoves, ih, seek, if_pos ⟨hmoves.1, hmoves.2.trans hle⟩]
      · rw [seek, if_neg hmoves]

theorem vcnToLcnLoop_seek (vcn : ℤ) (rl : List RunlistElement) :
    vcnToLcnLoop (seek vcn rl) vcn = vcnToLcnLoop rl vcn := by
  induction rl with
  | nil => rfl
  | cons run rest ih =>
    cases rest with
    | nil => rfl
    | cons next rest =>
      rw [seek]
      split_ifs with hmoves
      · rw [ih, vcnToLcnLoop, if_neg hmoves.1, if_neg (not_lt.mpr hmoves.2)]
      · rfl

theorem seek_head {run : RunlistElement} (hrun : run.vcn ≤ vcn) (rest : List RunlistElement) :
    ∃ first others, seek vcn (run :: rest) = first :: others ∧ first.vcn ≤ vcn := by
  induction rest generalizing run with
  | nil => exact ⟨run, [], rfl, hrun⟩
  | cons next rest ih =>
    rw [seek]
    split_ifs with hmoves
    · exact ih hmoves.2
    · exact ⟨run, next :: rest, rfl, hrun⟩

theorem ntfsRlVcnToLcn_seek (hvcn : 0 ≤ vcn) (hst : ∀ run rest, rl = run :: rest → run.vcn = 0) :
    ntfsRlVcnToLcn (some (seek vcn rl)) vcn = ntfsRlVcnToLcn (some rl) vcn := by
  cases rl with
  | nil => rfl
  | cons run rest =>
    have hrun : run.vcn ≤ vcn := (hst run rest rfl).trans_le hvcn
    obtain ⟨first, others, hseek, hfst⟩ := seek_head hrun rest
    have hloop := vcnToLcnLoop_seek vcn (run :: rest)
    rw [hseek] at hloop
    simp only [hseek, ntfsRlVcnToLcn, if_neg (not_lt.mpr hfst), if_neg (not_lt.mpr hrun), hloop]

end

section

variable {State : Type} {mapper : Mapper State} {lcn : ℤ → ℤ} {Inv : State → Prop}
  {ni : State} {rl : Option (List RunlistElement)} {vcn : ℤ}

/-- `rl` is not set, or it points into the runlist to a place from where every vcn from this one on
is found as from its start. -/
def CursorAt (ptr : RlPtr) (vcn : ℤ) (rl : Option (List RunlistElement)) : Prop :=
  rl = none ∨ ∀ next, vcn ≤ next → rl.map (seek next) = (elementsOf ptr).map (seek next)

theorem CursorAt.mono {ptr : RlPtr} {next : ℤ} (hcur : CursorAt ptr vcn rl) (hle : vcn ≤ next) :
    CursorAt ptr next rl :=
  hcur.imp_right fun hseek other hoth => hseek other (hle.trans hoth)

theorem CursorAt.map_seek {ptr : RlPtr} (hcur : CursorAt ptr vcn rl) :
    (rl.or (elementsOf ptr)).map (seek vcn) = (elementsOf ptr).map (seek vcn) := by
  rcases hcur with rfl | hcur
  · rw [none_or]
  · cases rl with
    | none => rw [none_or]
    | some list => exact hcur vcn le_rfl

theorem ntfsRlVcnToLcn_elementsOf (ptr : RlPtr) (vcn : ℤ) :
    ntfsRlVcnToLcn (elementsOf ptr) vcn = lcnOfPtr ptr vcn := by
  cases ptr with
  | null => rfl
  | err code => exact ite_self _
  | block block => rfl

theorem lookFrom_spec (hmaps : Maps mapper lcn Inv) (hinv : Inv ni) (hvcn : 0 ≤ vcn)
    (hseek : rl.map (seek vcn) = (elementsOf (mapper.rl ni)).map (seek vcn))
    {found : ℤ × Option (List RunlistElement)} (hlook : lookFrom vcn rl = .ok found) :
    (found.1 = lcn vcn ∨ found.1 = lcnRlNotMapped) ∧ CursorAt (mapper.rl ni) vcn found.2 := by
  have hlk := hmaps.lookup hinv hvcn
  have hst := fun run rest => @hmaps.start ni run rest hinv
  rw [← ntfsRlVcnToLcn_elementsOf] at hlk
  unfold CursorAt
  cases rl with
  | none =>
    obtain rfl := ok.inj hlook
    exact ⟨.inr rfl, .inl rfl⟩
  | some list =>
    cases helt : elementsOf (mapper.rl ni) with
    | none =>
      rw [helt] at hseek
      cases hseek
    | some elements =>
      simp only [helt, Option.some.injEq] at hlk hst
      have hlist : seek vcn list = seek vcn elements := by
        rw [helt] at hseek
        exact some.inj hseek
      simp only [lookFrom, hlist, ntfsRlVcnToLcn_seek hvcn hst] at hlook
      have hcur : ∀ next, vcn ≤ next → (some (seek vcn elements)).map (seek next) =
          (some elements).map (seek next) := fun next hle => congrArg some (seek_seek hle elements)
      rcases hlk with hkn | hunm
      · rw [hkn] at hlook
        obtain rfl := ok.inj hlook
        exact ⟨.inl rfl, .inr hcur⟩
      · rw [hunm] at hlook
        obtain rfl := ok.inj hlook
        exact ⟨.inr rfl, .inr hcur⟩

/-- What is known of a vcn after the lookup. -/
structure LocatedAt (mapper : Mapper State) (lcn : ℤ → ℤ) (Inv : State → Prop) (vcn : ℤ)
    (found : Located State) : Prop where
  inv : Inv found.ni
  cursor : CursorAt (mapper.rl found.ni) vcn found.rl
  lcn_eq : 0 ≤ found.lcn → found.lcn = lcn vcn
  lcn_neg : found.lcn = lcnHole ∨ found.err = some .enoent ∨ found.lcn = lcnEnoent → lcn vcn < 0

theorem locatedAt_of_lookup (hinv : Inv ni) (hcur : CursorAt (mapper.rl ni) vcn rl) {value : ℤ}
    (hval : value = lcn vcn ∨ value = lcnRlNotMapped) :
    LocatedAt mapper lcn Inv vcn ⟨value, none, ni, rl⟩ := by
  refine ⟨hinv, hcur, fun hge => ?_, fun hnone => ?_⟩
  · change 0 ≤ value at hge
    unfold lcnRlNotMapped at hval
    exact hval.resolve_right (by omega)
  · have hmrk : value = lcnHole ∨ value = lcnEnoent :=
      hnone.imp_right fun hrest => hrest.resolve_left (fun herr => by cases herr)
    unfold lcnHole lcnEnoent at hmrk
    unfold lcnRlNotMapped at hval
    omega

theorem locate_spec (hmaps : Maps mapper lcn Inv) (hinv : Inv ni) (hvcn : 0 ≤ vcn)
    (hcur : CursorAt (mapper.rl ni) vcn rl) {found : Located State}
    (hloc : locate mapper vcn ni rl = .ok found) : LocatedAt mapper lcn Inv vcn found := by
  have hseek := hcur.map_seek
  unfold locate at hloc
  cases hlook : lookFrom vcn (rl.or (elementsOf (mapper.rl ni))) with
  | error why =>
    rw [hlook] at hloc
    cases hloc
  | ok first =>
    obtain ⟨hfst, hleft⟩ := lookFrom_spec hmaps hinv hvcn hseek hlook
    rw [hlook] at hloc
    change (if first.1 = lcnRlNotMapped then _ else _) = _ at hloc
    split_ifs at hloc with hunm
    · -- The part is mapped, and then looked up once more.
      have hmap := hmaps.mapRunlist hinv hvcn
      have henoe := hmaps.enoent hinv hvcn
      generalize mapper.mapRunlist ni vcn = result at hloc hmap henoe
      obtain ⟨⟨⟨code⟩ | _ | _⟩ | ⟨⟩, ni'⟩ := result
      · obtain rfl := ok.inj hloc
        refine ⟨hmap, .inl rfl, fun hge => ?_, fun hnone => henoe ?_⟩
        · rw [show first.1 = lcnRlNotMapped from hunm] at hge
          exact absurd hge (show ¬ 0 ≤ lcnRlNotMapped by decide)
        · rw [hunm] at hnone
          have herr := (hnone.resolve_left (show lcnRlNotMapped ≠ lcnHole by decide)).resolve_right
            (show lcnRlNotMapped ≠ lcnEnoent by decide)
          rw [some.inj herr]
      · cases hloc
      · cases hloc
      · change (lookFrom vcn (elementsOf (mapper.rl ni'))).bind _ = _ at hloc
        cases hagain : lookFrom vcn (elementsOf (mapper.rl ni')) with
        | error why =>
          rw [hagain] at hloc
          cases hloc
        | ok second =>
          obtain ⟨hsec, hleft'⟩ := lookFrom_spec hmaps hmap hvcn rfl hagain
          rw [hagain] at hloc
          obtain rfl := ok.inj hloc
          exact locatedAt_of_lookup hmap hleft' hsec
    · obtain rfl := ok.inj hloc
      exact locatedAt_of_lookup hinv hleft hfst

end

/-! ### The loop over the buffers -/

section

variable {State : Type} {mapper : Mapper State} {geo : Geometry} {attr : DataAttribute geo}
  {Inv : State → Prop} {index : ℤ} {i : ℕ} {st st' : ReadState State}

/-- The buffer is to be read from the place of its cluster on the device. -/
structure ToRead (attr : DataAttribute geo) (index : ℤ) (i : ℕ) (bh : BufferHead) : Prop where
  allocated : blockStart geo index i < attr.sizes.allocatedSize
  lcn_nonneg : 0 ≤ attr.lcn (blockStart geo index i / geo.vol.clusterSize)
  blocknr_mul : bh.blocknr * geo.blocksize =
    attr.lcn (blockStart geo index i / geo.vol.clusterSize) * geo.vol.clusterSize +
      blockStart geo index i % geo.vol.clusterSize

def Holds (attr : DataAttribute geo) (device : ℤ → UInt8) (index : ℤ) (i : ℕ) (mem : ℕ → UInt8) :
    Prop :=
  ∀ r < geo.blocksize, mem (i * geo.blocksize + r) = attr.byte device (blockStart geo index i + r)

/-- What the loop has done with a buffer: it holds the bytes of the file, it is to be read, or there
was an error. -/
inductive Treated (attr : DataAttribute geo) (device : ℤ → UInt8) (index : ℤ) (st : ReadState State)
    (i : ℕ) : Prop
  | zeroed (hnot : i ∉ st.arr) (huptodate : (st.bufs i).uptodate = true)
    (hholds : Holds attr device index i st.mem)
  | toRead (hmem : i ∈ st.arr) (huptodate : (st.bufs i).uptodate = false)
    (hread : ToRead attr index i (st.bufs i))
  | failed (hnot : i ∉ st.arr) (huptodate : (st.bufs i).uptodate = false) (herror : st.error = true)

/-- The loop has gone over the first `count` buffers, and those behind them are as they were. -/
structure Looped (mapper : Mapper State) (Inv : State → Prop) (attr : DataAttribute geo)
    (device : ℤ → UInt8) (index : ℤ) (count : ℕ) (st : ReadState State) : Prop where
  inv : Inv st.ni
  cursor : CursorAt (mapper.rl st.ni) (blockStart geo index count / geo.vol.clusterSize) st.rl
  treated : ∀ i < count, Treated attr device index st i
  fresh : ∀ i, count ≤ i → i < geo.nrBuffers → (st.bufs i).uptodate = false ∧
    (st.bufs i).mapped = false
  arr_lt : ∀ i ∈ st.arr, i < count
  nodup : st.arr.Nodup

/-- Nothing has been done to other buffers than the number `i`. -/
structure Leaves (geo : Geometry) (i : ℕ) (st st' : ReadState State) : Prop where
  bufs : ∀ j, j ≠ i → st'.bufs j = st.bufs j
  arr : st'.arr = st.arr ∨ st'.arr = st.arr ++ [i]
  mem : ∀ offset, ¬ (i * geo.blocksize ≤ offset ∧ offset < i * geo.blocksize + geo.blocksize) →
    st'.mem offset = st.mem offset
  error : st.error = true → st'.error = true

theorem block_disjoint (geo : Geometry) {j r : ℕ} (hne : j ≠ i) (hr : r < geo.blocksize) :
    ¬ (i * geo.blocksize ≤ j * geo.blocksize + r ∧ j * geo.blocksize + r <
      i * geo.blocksize + geo.blocksize) := by
  rintro ⟨hlow, hhigh⟩
  rcases Nat.lt_or_gt_of_ne hne with hlt | hgt
  · have hstep : (j + 1) * geo.blocksize ≤ i * geo.blocksize := Nat.mul_le_mul_right _ hlt
    rw [Nat.add_mul] at hstep
    omega
  · have hstep : (i + 1) * geo.blocksize ≤ j * geo.blocksize := Nat.mul_le_mul_right _ hgt
    rw [Nat.add_mul] at hstep
    omega

theorem Leaves.mem_arr (hleaves : Leaves geo i st st') {j : ℕ} (hne : j ≠ i) :
    j ∈ st'.arr ↔ j ∈ st.arr := by
  rcases hleaves.arr with harr | harr <;> rw [harr]
  simp [hne]

theorem Leaves.treated {device : ℤ → UInt8} (hleaves : Leaves geo i st st') {j : ℕ} (hne : j ≠ i)
    (htrea : Treated attr device index st j) : Treated attr device index st' j := by
  have hbufs := hleaves.bufs j hne
  cases htrea with
  | zeroed hnot hupt hh =>
    refine .zeroed (mt (hleaves.mem_arr hne).mp hnot) (hbufs ▸ hupt) fun r hr => ?_
    rw [hleaves.mem _ (block_disjoint geo hne hr)]
    exact hh r hr
  | toRead hmem hupt hread =>
    exact .toRead ((hleaves.mem_arr hne).mpr hmem) (hbufs ▸ hupt) (hbufs ▸ hread)
  | failed hnot hupt herr =>
    exact .failed (mt (hleaves.mem_arr hne).mp hnot) (hbufs ▸ hupt) (hleaves.error herr)

theorem initSize_eq_min (sizes : Sizes) :
    initSize sizes = min sizes.initializedSize sizes.iSize := by
  unfold initSize
  omega

theorem byte_eq_zero (attr : DataAttribute geo) (device : ℤ → UInt8)
    (hzero : attr.lcn (blockStart geo index i / geo.vol.clusterSize) < 0 ∨
      initSize attr.sizes ≤ blockStart geo index i ∨
      attr.sizes.allocatedSize ≤ blockStart geo index i) {r : ℕ} (hr : r < geo.blocksize) :
    attr.byte device (blockStart geo index i + r) = 0 := by
  obtain ⟨hquo, -⟩ := add_ediv_emod geo index i (Int.natCast_nonneg r) (by omega)
  rw [initSize_eq_min] at hzero
  refine if_neg ?_
  rw [hquo, add_ediv_blocksize_mul geo index i (Int.natCast_nonneg r) (by omega)]
  omega

theorem treated_handleZblock (device : ℤ → UInt8)
    (hzero : attr.lcn (blockStart geo index i / geo.vol.clusterSize) < 0 ∨
      initSize attr.sizes ≤ blockStart geo index i ∨
      attr.sizes.allocatedSize ≤ blockStart geo index i) (hnot : i ∉ st.arr) :
    Treated attr device index (handleZblock geo i true st) i := by
  refine .zeroed hnot ?_ fun r hr => ?_
  · simp [handleZblock]
  · rw [byte_eq_zero attr device hzero hr]
    exact if_pos ⟨Nat.le_add_right _ _, Nat.add_lt_add_left hr _⟩

theorem leaves_handleZblock {ok : Bool} (hleaves : Leaves geo i st st') :
    Leaves geo i st (handleZblock geo i ok st') where
  bufs j hj := by
    rw [← hleaves.bufs j hj]
    unfold handleZblock
    split_ifs
    · exact update_of_ne hj _ _
    · rfl
  arr := hleaves.arr
  mem offset hofs := (if_neg hofs).trans (hleaves.mem offset hofs)
  error := hleaves.error

theorem leaves_update (ni : State) (rl : Option (List RunlistElement)) (bh : BufferHead)
    {error : Bool} (herr : st.error = true → error = true) :
    Leaves geo i st
      { st with ni := ni, rl := rl, bufs := update st.bufs i bh, error := error } where
  bufs _ hj := update_of_ne hj _ _
  arr := .inl rfl
  mem _ _ := rfl
  error := herr

structure Stepped (mapper : Mapper State) (Inv : State → Prop) (attr : DataAttribute geo)
    (device : ℤ → UInt8) (index : ℤ) (i : ℕ) (st st' : ReadState State) : Prop where
  leaves : Leaves geo i st st'
  inv : Inv st'.ni
  cursor : CursorAt (mapper.rl st'.ni) (blockStart geo index i / geo.vol.clusterSize) st'.rl
  treated : Treated attr device index st' i

theorem readLocated_spec (device : ℤ → UInt8) (hfile : InFile geo index) (hi : i < geo.nrBuffers)
    (halloc : blockStart geo index i < attr.sizes.allocatedSize)
    (hupt : (st.bufs i).uptodate = false) (hnot : i ∉ st.arr) {found : Located State}
    (hfnd : LocatedAt mapper attr.lcn Inv (blockStart geo index i / geo.vol.clusterSize) found) :
    Stepped mapper Inv attr device index i st (readLocated geo attr.sizes index i st found) := by
  obtain ⟨hinv, hcur, hlcn, hneg⟩ := hfnd
  have hzblo : iblock geo index i < zblock geo attr.sizes ↔
      blockStart geo index i < initSize attr.sizes := by
    have hinit := attr.initializedSize_isS64
    have hisize := attr.iSize_isS64
    refine iblock_lt_blocksBelow hfile hi ?_ ?_ <;> rw [initSize_eq_min] <;> omega
  unfold readLocated
  split_ifs with hmap hinit hhole
  · have heq := hlcn hmap
    refine ⟨⟨fun j hj => update_of_ne hj _ _, .inr rfl, fun _ _ => rfl, id⟩, hinv, hcur,
      .toRead (by simp) (by simpa using hupt) ⟨halloc, heq ▸ hmap, ?_⟩⟩
    dsimp only
    rw [update_self, heq]
    exact blocknr_mul hfile hi (heq ▸ hmap) (attr.lcn_le _)
  · exact ⟨leaves_handleZblock (leaves_update found.ni found.rl _ id), hinv, hcur,
      treated_handleZblock device (.inr (.inl (not_lt.mp (mt hzblo.mpr hinit)))) hnot⟩
  · exact ⟨leaves_handleZblock (leaves_update found.ni found.rl _ id), hinv, hcur,
      treated_handleZblock device (.inl (hneg hhole)) hnot⟩
  · refine ⟨leaves_handleZblock (leaves_update found.ni found.rl _ fun _ => rfl), hinv, hcur,
      .failed hnot ?_ rfl⟩
    simpa [handleHole, handleZblock] using hupt

theorem readBuffer_spec (hmaps : Maps mapper attr.lcn Inv) (device : ℤ → UInt8)
    (hfile : InFile geo index) (hi : i < geo.nrBuffers) (hinv : Inv st.ni)
    (hcur : CursorAt (mapper.rl st.ni) (blockStart geo index i / geo.vol.clusterSize) st.rl)
    (hupt : (st.bufs i).uptodate = false) (hmap : (st.bufs i).mapped = false) (hnot : i ∉ st.arr)
    (hbody : readBuffer mapper geo attr.sizes index i st = .ok st') :
    Stepped mapper Inv attr device index i st st' := by
  have hst : 0 ≤ blockStart geo index i := by
    rw [blockStart_eq]
    exact mul_nonneg (blockStart_bounds hfile hi).1 (Int.natCast_nonneg _)
  have hvcn := Int.ediv_nonneg hst (clusterSize_pos geo).le
  have hlimit :=
    iblock_lt_blocksBelow hfile hi attr.allocatedSize_isS64.1 attr.allocatedSize_isS64.2
  unfold readBuffer at hbody
  rw [if_neg (by rw [hupt]; exact Bool.noConfusion),
    if_neg (by rw [hmap]; exact Bool.noConfusion), blockOfs_eq hfile hi] at hbody
  split_ifs at hbody with hbel
  · cases hloc : locate mapper (blockStart geo index i / geo.vol.clusterSize) st.ni st.rl with
    | error why =>
      rw [hloc] at hbody
      cases hbody
    | ok found =>
      rw [hloc] at hbody
      obtain rfl := ok.inj hbody
      exact readLocated_spec device hfile hi (hlimit.mp hbel) hupt hnot
        (locate_spec hmaps hinv hvcn hcur hloc)
  · -- The block begins at or behind the allocated size: no run is sought for it.
    obtain rfl := ok.inj hbody
    exact ⟨leaves_handleZblock (leaves_update st.ni st.rl _ id), hinv, hcur,
      treated_handleZblock device (.inr (.inr (not_lt.mp (mt hlimit.mpr hbel)))) hnot⟩

theorem Looped.step (hmaps : Maps mapper attr.lcn Inv) {device : ℤ → UInt8}
    (hfile : InFile geo index) (hi : i < geo.nrBuffers)
    (hloop : Looped mapper Inv attr device index i st)
    (hbody : readBuffer mapper geo attr.sizes index i st = .ok st') :
    Looped mapper Inv attr device index (i + 1) st' := by
  have hnot : i ∉ st.arr := fun hmem => (hloop.arr_lt i hmem).ne rfl
  obtain ⟨hupt, hmap⟩ := hloop.fresh i le_rfl hi
  obtain ⟨hleaves, hinv, hcur, htrea⟩ := readBuffer_spec hmaps device hfile hi hloop.inv
    hloop.cursor hupt hmap hnot hbody
  refine ⟨hinv, hcur.mono ?_, fun j hj => ?_, fun j hj hlt => ?_, fun j hj => ?_, ?_⟩
  · refine Int.ediv_le_ediv (clusterSize_pos geo) ?_
    unfold blockStart
    push_cast
    nlinarith [Int.natCast_nonneg geo.blocksize]
  · by_cases hji : j = i
    · exact hji ▸ htrea
    · exact hleaves.treated hji (hloop.treated j (by omega))
  · rw [hleaves.bufs j (by omega)]
    exact hloop.fresh j (by omega) hlt
  · by_cases hji : j = i
    · omega
    · have hlt := hloop.arr_lt j ((hleaves.mem_arr hji).mp hj)
      omega
  · rcases hleaves.arr with harr | harr <;> rw [harr]
    · exact hloop.nodup
    · exact nodup_append.mpr ⟨hloop.nodup, by simp, by
        rintro j hj _ hmem rfl
        exact hnot (mem_singleton.mp hmem ▸ hj)⟩

end

/-! ### The completion handler -/

section

variable {geo : Geometry} {attr : DataAttribute geo} {device : ℤ → UInt8} {index : ℤ} {i : ℕ}
variable {done : Completion} {rest : List ℕ} {page page' : Page} {j : ℕ} {bufs : ℕ → BufferHead}

theorem scan_eq_done {buffers : List ℕ} {pageUptodate : Bool}
    (hscan : scan bufs buffers pageUptodate = .done true) :
    pageUptodate = true ∧ ∀ j ∈ buffers, (bufs j).asyncRead = false ∧ (bufs j).uptodate = true := by
  induction buffers generalizing pageUptodate with
  | nil => exact ⟨Scan.done.inj hscan, by simp⟩
  | cons tmp rest ih =>
    rw [scan] at hscan
    split_ifs at hscan with hasync
    obtain ⟨hboth, hrest⟩ := ih hscan
    obtain ⟨hbef, hupt⟩ := Bool.and_eq_true_iff.mp hboth
    refine ⟨hbef, fun j hj => ?_⟩
    rcases mem_cons.mp hj with rfl | hmem
    · exact ⟨Bool.eq_false_of_not_eq_true hasync, hupt⟩
    · exact hrest j hmem

theorem mem_ring (hi : i < geo.nrBuffers) (hj : j < geo.nrBuffers) : j ∈ ring geo i := by
  rw [ring, mem_append, mem_range'_1, mem_range]
  omega

theorem zeroTail_apply (hfile : InFile geo index) (hi : i < geo.nrBuffers) (mem : ℕ → UInt8) {r : ℕ}
    (hr : r < geo.blocksize) :
    zeroTail geo attr.sizes index i mem (i * geo.blocksize + r) =
      if blockStart geo index i + r < initSize attr.sizes then
      mem (i * geo.blocksize + r) else 0 := by
  obtain ⟨hblk, hend⟩ := blockStart_bounds hfile hi
  have hst : 0 ≤ blockStart geo index i := by
    rw [blockStart_eq]
    exact mul_nonneg hblk (Int.natCast_nonneg _)
  have hinit : 0 ≤ initSize attr.sizes ∧ initSize attr.sizes < 2 ^ 63 := by
    have hinitialized := attr.initializedSize_isS64
    have hisize := attr.iSize_isS64
    rw [initSize_eq_min]
    omega
  have hofs : s64 (s64 (index * geo.pageCacheSize) + i * geo.blocksize) =
      blockStart geo index i := by
    rw [s64_s64_add, ← blockStart, s64_of_isS64 ⟨by omega, by omega⟩]
  unfold zeroTail
  simp only [hofs, u64_of_nonneg hinit.1 (by omega : initSize attr.sizes < 2 ^ 64),
    u64_of_nonneg (by omega : 0 ≤ blockStart geo index i + geo.blocksize) (by omega)]
  by_cases hover : initSize attr.sizes < blockStart geo index i + geo.blocksize
  · rw [if_pos hover]
    split_ifs <;> first | rfl | omega
  · rw [if_neg hover, if_pos (by omega)]

theorem zeroTail_outside (sizes : Sizes) (mem : ℕ → UInt8) {offset : ℕ}
    (hofs : ¬ (i * geo.blocksize ≤ offset ∧ offset < i * geo.blocksize + geo.blocksize)) :
    zeroTail geo sizes index i mem offset = mem offset := by
  unfold zeroTail
  split_ifs
  · exact if_neg (by omega)
  · exact if_neg (by omega)
  · rfl

theorem holds_zeroTail (hfile : InFile geo index) (hi : i < geo.nrBuffers) {bh : BufferHead}
    (hread : ToRead attr index i bh) (hbuff : done.buffer = i) (hok : done.ok = true)
    (mem : ℕ → UInt8) : Holds attr device index i
      (zeroTail geo attr.sizes index i (transfer geo device bh.blocknr done mem)) := by
  intro r hr
  obtain ⟨hquo, hrema⟩ := add_ediv_emod geo index i (Int.natCast_nonneg r) (by omega)
  have hdata : transfer geo device bh.blocknr done mem (i * geo.blocksize + r) =
      device (attr.lcn (blockStart geo index i / geo.vol.clusterSize) * geo.vol.clusterSize +
        (blockStart geo index i % geo.vol.clusterSize + r)) := by
    unfold transfer
    rw [hbuff, if_pos ⟨Nat.le_add_right _ _, Nat.add_lt_add_left hr _⟩, if_pos hok,
      Nat.add_sub_cancel_left, hread.blocknr_mul, add_assoc]
  rw [zeroTail_apply hfile hi _ hr, hdata, DataAttribute.byte, hquo, hrema, ← initSize_eq_min,
    add_ediv_blocksize_mul geo index i (Int.natCast_nonneg r) (by omega)]
  refine if_congr ?_ rfl rfl
  exact ⟨fun hlt => ⟨hlt, hread.allocated, hread.lcn_nonneg⟩, And.left⟩

/-- The page while the buffers in `pending` are still being read. -/
structure Pending (attr : DataAttribute geo) (device : ℤ → UInt8) (index : ℤ) (pending : List ℕ)
    (page : Page) (bufs : ℕ → BufferHead) : Prop where
  index_eq : page.index = index
  buffers_eq : page.buffers = some bufs
  lt : ∀ i ∈ pending, i < geo.nrBuffers
  busy : ∀ i ∈ pending, (bufs i).asyncRead = true ∧ ToRead attr index i (bufs i)
  holds : ∀ i < geo.nrBuffers, i ∉ pending → (bufs i).uptodate = true →
    Holds attr device index i page.mem
  uptodate : page.uptodate = true → pending = [] ∧ ∀ i < geo.nrBuffers, (bufs i).uptodate = true

theorem Pending.holds_endBuffer (hfile : InFile geo index)
    (hpend : Pending attr device index (done.buffer :: rest) page bufs) (hj : j < geo.nrBuffers)
    (hnot : j ∉ rest) (hupt : (endBuffer bufs done.buffer done.ok j).uptodate = true) :
    Holds attr device index j
      (if done.ok then zeroTail geo attr.sizes index done.buffer
        (transfer geo device (bufs done.buffer).blocknr done page.mem)
      else transfer geo device (bufs done.buffer).blocknr done page.mem) := by
  unfold endBuffer at hupt
  by_cases hji : j = done.buffer
  · rw [hji, update_self] at hupt
    rw [if_pos hupt, hji]
    exact holds_zeroTail hfile (hji ▸ hj) (hpend.busy _ mem_cons_self).2 rfl hupt page.mem
  · rw [update_of_ne hji] at hupt
    intro r hr
    have hout := block_disjoint geo hji hr
    rw [← hpend.holds j hj (by simp [hji, hnot]) hupt r hr]
    split_ifs
    · rw [zeroTail_outside _ _ hout]
      exact if_neg hout
    · exact if_neg hout

theorem Pending.step (hfile : InFile geo index)
    (hpend : Pending attr device index (done.buffer :: rest) page bufs)
    (hnd : (done.buffer :: rest).Nodup)
    (hcomp : complete geo attr.sizes device page done = .ok page') :
    Pending attr device index rest page' (endBuffer bufs done.buffer done.ok) := by
  obtain ⟨hnot, -⟩ := nodup_cons.mp hnd
  have hi := hpend.lt done.buffer mem_cons_self
  have hlt : ∀ j ∈ rest, j < geo.nrBuffers := fun j hj => hpend.lt j (mem_cons_of_mem _ hj)
  have hstale : page.uptodate ≠ true := fun hupt =>
    cons_ne_nil _ _ (hpend.uptodate hupt).1
  have hbusy : ∀ j ∈ rest, (endBuffer bufs done.buffer done.ok j).asyncRead = true ∧
      ToRead attr index j (endBuffer bufs done.buffer done.ok j) := by
    intro j hj
    have hne : j ≠ done.buffer := fun heq => hnot (heq ▸ hj)
    rw [endBuffer, update_of_ne hne]
    exact hpend.busy j (mem_cons_of_mem _ hj)
  have hh : ∀ j < geo.nrBuffers, j ∉ rest →
      (endBuffer bufs done.buffer done.ok j).uptodate = true → Holds attr device index j _ :=
    fun j hj hnot' hupt => hpend.holds_endBuffer hfile hj hnot' hupt
  unfold complete at hcomp
  simp only [hpend.buffers_eq, ntfsEndBufferAsyncRead, hpend.index_eq] at hcomp
  cases hscan : scan (endBuffer bufs done.buffer done.ok) (ring geo done.buffer) true with
  | bug =>
    rw [hscan] at hcomp
    cases hcomp
  | stillBusy =>
    rw [hscan] at hcomp
    obtain rfl := ok.inj hcomp
    exact ⟨rfl, rfl, hlt, hbusy, hh, fun hupt => absurd hupt hstale⟩
  | done pageUptodate =>
    rw [hscan] at hcomp
    obtain rfl := ok.inj hcomp
    refine ⟨rfl, rfl, hlt, hbusy, hh, fun hupt => ?_⟩
    have hall : pageUptodate = true :=
      (Bool.and_eq_true_iff.mp ((Bool.or_eq_true_iff.mp hupt).resolve_left hstale)).1
    obtain ⟨-, hscanned⟩ := scan_eq_done (hall ▸ hscan)
    refine ⟨eq_nil_iff_forall_not_mem.mpr fun j hj => ?_, fun j hj => ?_⟩
    · have hidle := (hscanned j (mem_ring hi (hlt j hj))).1
      rw [(hbusy j hj).1] at hidle
      cases hidle
    · exact (hscanned j (mem_ring hi hj)).2

/-- The reads end in any order. A page that is uptodate then holds the bytes of the file. -/
theorem Pending.run (hfile : InFile geo index) {completions : List Completion}
    (hpend : Pending attr device index (completions.map Completion.buffer) page bufs)
    (hnd : (completions.map Completion.buffer).Nodup)
    (hcomp : completeAll geo attr.sizes device page completions = .ok page') :
    ∃ bufs', Pending attr device index [] page' bufs' := by
  induction completions generalizing page bufs with
  | nil =>
    obtain rfl := ok.inj hcomp
    exact ⟨bufs, hpend⟩
  | cons done rest ih =>
    cases hfst : complete geo attr.sizes device page done with
    | error why =>
      rw [completeAll, hfst] at hcomp
      cases hcomp
    | ok middle =>
      rw [completeAll, hfst] at hcomp
      exact ih (hpend.step hfile hnd hfst) (nodup_cons.mp hnd).2 hcomp

end

/-! ### Pages that have been read -/

/-- The page is to be read, and none of its buffers is mapped or uptodate. -/
structure Unread (geo : Geometry) (page : Page) : Prop where
  uptodate : page.uptodate = false
  buffers : ∀ bufs, page.buffers = some bufs →
    ∀ i < geo.nrBuffers, (bufs i).uptodate = false ∧ (bufs i).mapped = false

section

variable {State : Type} {mapper : Mapper State} {geo : Geometry} {attr : DataAttribute geo}
  {Inv : State → Prop} {page : Page} {device : ℤ → UInt8}

theorem Looped.pending {st : ReadState State} (hunr : Unread geo page)
    (hloop : Looped mapper Inv attr device page.index geo.nrBuffers st) :
    ∃ bufs, Pending attr device page.index (startReads page st).arr
      (startReads page st).page bufs := by
  have hh : ∀ i < geo.nrBuffers, i ∉ st.arr → (st.bufs i).uptodate = true →
      Holds attr device page.index i st.mem := by
    intro i hi hnot hupt
    cases hloop.treated i hi with
    | zeroed _ _ hh => exact hh
    | toRead hmem => exact absurd hmem hnot
    | failed _ hstale =>
      rw [hstale] at hupt
      cases hupt
  have hstale : page.uptodate ≠ true := by
    rw [hunr.uptodate]
    exact Bool.noConfusion
  unfold startReads
  split_ifs with hrds herr
  · refine ⟨lockBuffers st, rfl, rfl, hloop.arr_lt, fun i hi => ?_, fun i hi hnot hupt => ?_,
      fun hupt => absurd hupt hstale⟩
    · rw [lockBuffers, if_pos hi]
      cases hloop.treated i (hloop.arr_lt i hi) with
      | zeroed hnot => exact absurd hi hnot
      | toRead _ _ hread =>
        exact ⟨rfl, hread.allocated, hread.lcn_nonneg, hread.blocknr_mul⟩
      | failed hnot => exact absurd hi hnot
    · rw [lockBuffers, if_neg hnot] at hupt
      exact hh i hi hnot hupt
  · exact ⟨st.bufs, rfl, rfl, nofun, nofun, fun i hi _ =>
      hh i hi (by rw [not_not.mp hrds]; exact not_mem_nil),
      fun hupt => absurd hupt hstale⟩
  · have hnone : ∀ i, i ∉ st.arr := fun i => by
      rw [not_not.mp hrds]
      exact not_mem_nil
    refine ⟨st.bufs, rfl, rfl, nofun, nofun, fun i hi _ => hh i hi (hnone i), fun _ =>
      ⟨rfl, fun i hi => ?_⟩⟩
    cases hloop.treated i hi with
    | zeroed _ hupt => exact hupt
    | toRead hmem => exact absurd hmem (hnone i)
    | failed _ _ hfail => exact absurd hfail herr

end

def twoClusters : Mapper Unit where
  rl _ := .block ⟨48, fun i => [⟨0, 5, 2⟩].getD i ⟨2, lcnEnoent, 0⟩⟩
  mapRunlist _ _ := (.error (.errno .eio), ())

def ntfsMapRunlist (allocator : Allocator) (view : MftView) (ni : NtfsInode) (vcn : ℤ) :
    Except Failure Unit × NtfsInode :=
  match lcnOfPtr ni.rl vcn with
  | none => (.error .overrun, ni)
  | some lcn =>
    if lcn ≤ lcnRlNotMapped then ntfsMapRunlistNolock allocator view ni vcn none else (.ok (), ni)

/-- The runlist of an inode is mapped by `ntfs_map_runlist`. -/
def inodeMapper (allocator : Allocator) (view : MftView) : Mapper NtfsInode :=
  ⟨NtfsInode.rl, ntfsMapRunlist allocator view⟩

section

variable {vol : NtfsVolume} {stream : Attribute vol} {allocator : Allocator} {view : MftView}
  {ni : NtfsInode} {vcn : ℤ}

/-- Assumes: memory, and a mft that finds the extent of every vcn. A mapping that meets none of the
defects succeeds for a vcn of the attribute, and its cluster can then be looked up. -/
theorem follows_ntfsMapRunlist (hmemory : ∀ bytes, allocator.succeeds bytes = true)
    (hserves : Serves stream view) (hfollows : Follows stream ni)
    (hadmitted : Admitted stream ni vcn) :
    Follows stream (ntfsMapRunlist allocator view ni vcn).2 ∧
      (vcn < stream.stop → (ntfsMapRunlist allocator view ni vcn).1 = .ok () ∧
        lcnOfPtr (ntfsMapRunlist allocator view ni vcn).2.rl vcn = some (lcnOfStream stream vcn)) ∧
      (stream.stop ≤ vcn →
        (ntfsMapRunlist allocator view ni vcn).1 = .error (.errno .enoent)) := by
  have hvcn := hadmitted.nonneg
  have hlookup := hfollows.readSome.lookup hvcn
  by_cases hlt : vcn < stream.stop
  · rcases hlookup with hknown | hunmapped
    · obtain ⟨ext, hext, hcovers⟩ := stream.exists_covers hvcn hlt
      have hge := (lcnOfStream_of_covers hext hcovers).2
      have hmapped : ¬ lcnOfStream stream vcn ≤ lcnRlNotMapped := by
        unfold lcnHole at hge
        unfold lcnRlNotMapped
        omega
      simp only [ntfsMapRunlist, hknown, if_neg hmapped]
      exact ⟨hfollows, fun _ => ⟨trivial, trivial⟩, fun hle => absurd hlt (not_lt.mpr hle)⟩
    · obtain ⟨ni', hdone, hnext, hlcn⟩ :=
        hfollows.mapRunlist hmemory hserves hadmitted hlt hunmapped
      simp only [ntfsMapRunlist, hunmapped, le_refl, if_true, hdone]
      exact ⟨hnext, fun _ => ⟨trivial, hlcn⟩, fun hle => absurd hlt (not_lt.mpr hle)⟩
  · -- Behind the attribute no extent is found, whether or not the runlist knows its end.
    have hle := not_lt.mp hlt
    have hlook : ∃ lcn ≤ lcnRlNotMapped, lcnOfPtr ni.rl vcn = some lcn := by
      rcases hlookup with hknown | hunmapped
      · exact ⟨lcnEnoent, by decide, lcnOfStream_of_le hle ▸ hknown⟩
      · exact ⟨_, le_rfl, hunmapped⟩
    obtain ⟨lcn, hlcn, hlook⟩ := hlook
    simp only [ntfsMapRunlist, hlook, if_pos hlcn, mapRunlist_behind hserves ni hle]
    exact ⟨hfollows, fun hin => absurd hin hlt, fun _ => trivial⟩

/-- Assumes: memory, a mft that finds the extent of every vcn, a base extent that is the only one or
has at least two clusters, and fewer than 340 runs. The runlist of the inode maps the clusters of
the attribute on demand. -/
theorem maps_inodeMapper (stream : Attribute vol) (htold : stream.BaseTold)
    (hcount : stream.runs.length < 340) (hmemory : ∀ bytes, allocator.succeeds bytes = true)
    (hserves : Serves stream view) :
    Maps (inodeMapper allocator view) (lcnOfStream stream) (Follows stream) where
  start hfollows hrun := by
    rcases hfollows.readSome with hnull | ⟨block, list, hblock, hholds, -⟩
    · change elementsOf (NtfsInode.rl _) = _ at hrun
      rw [hnull] at hrun
      cases hrun
    · change elementsOf (NtfsInode.rl _) = _ at hrun
      obtain ⟨more, hmore⟩ := hholds.exists_toList
      obtain ⟨first, runs, hruns⟩ := exists_cons_of_ne_nil list.runs_ne_nil
      have hfirst : first.vcn = 0 := (hruns ▸ list.chain).1
      rw [hblock, elementsOf, hmore, Runlist.elements, hruns] at hrun
      obtain ⟨rfl, -⟩ := List.cons.inj (some.inj hrun)
      exact hfirst
  lookup hfollows hvcn := hfollows.readSome.lookup hvcn
  mapRunlist hfollows hvcn :=
    (follows_ntfsMapRunlist hmemory hserves hfollows (hfollows.admitted htold hcount hvcn)).1
  enoent {ni vcn} hfollows hvcn herror := by
    obtain ⟨-, hin, -⟩ :=
      follows_ntfsMapRunlist hmemory hserves hfollows (hfollows.admitted htold hcount hvcn)
    by_cases hlt : vcn < stream.stop
    · rw [show (ntfsMapRunlist allocator view _ _).1 = _ from herror] at hin
      cases (hin hlt).1
    · rw [lcnOfStream_of_le (not_lt.mp hlt)]
      decide

end

/-- Assumes: memory, and a mft that finds the extent of every vcn. From an unmapped runlist, after
any mappings in any order that meet none of the defects, every lookup gives the cluster of the
attribute or that it is not mapped. The vcn mapped last has its cluster if the attribute has one,
and otherwise there is no entry. -/
theorem ntfsMapRunlist_reads_stream {vol : NtfsVolume} (stream : Attribute vol)
    (allocator : Allocator) (hmemory : ∀ bytes, allocator.succeeds bytes = true) (view : MftView)
    (hserves : Serves stream view) (vcns : List ℤ) (vcn : ℤ)
    (hadmitted : Throughout (ntfsMapRunlist allocator view) (Admitted stream)
      (unmappedInode stream) (vcns ++ [vcn])) :
    let mapped := ntfsMapRunlist allocator view
      (after (ntfsMapRunlist allocator view) (unmappedInode stream) vcns) vcn
    (∀ other, 0 ≤ other → lcnOfPtr mapped.2.rl other = some (lcnOfStream stream other) ∨
      lcnOfPtr mapped.2.rl other = some lcnRlNotMapped) ∧
    (vcn < stream.stop → mapped.1 = .ok () ∧
      lcnOfPtr mapped.2.rl vcn = some (lcnOfStream stream vcn)) ∧
    (stream.stop ≤ vcn → mapped.1 = .error (.errno .enoent)) := by
  obtain ⟨hbefore, hlast⟩ := hadmitted.of_append
  have hfollows : Follows stream
      (after (ntfsMapRunlist allocator view) (unmappedInode stream) vcns) :=
    hbefore.invariant
      (fun hfollows hadmitted => (follows_ntfsMapRunlist hmemory hserves hfollows hadmitted).1)
      (follows_unmappedInode stream)
  obtain ⟨hnext, hin, hbehind⟩ := follows_ntfsMapRunlist hmemory hserves hfollows hlast
  exact ⟨fun other hother => hnext.readSome.lookup hother, hin, hbehind⟩

/-- The second extent is mapped, then the first, and both clusters of the file are then found. -/
theorem ntfsMapRunlist_twoExtents :
    let stream := twoExtents 2 (by decide)
    let mapped := ntfsMapRunlist MappingPairsSoundness.plenty (mftOf stream)
      (after (ntfsMapRunlist MappingPairsSoundness.plenty (mftOf stream)) (unmappedInode stream)
        [2, 7]) 0
    mapped.1 = .ok () ∧ lcnOfPtr mapped.2.rl 0 = some 100 ∧ lcnOfPtr mapped.2.rl 2 = some 5 := by
  obtain ⟨-, hin, -⟩ := ntfsMapRunlist_reads_stream (twoExtents 2 (by decide))
    MappingPairsSoundness.plenty MappingPairsSoundness.plenty_succeeds _ (serves_mftOf _) [2, 7] 0
    (Throughout.of_invariant
      (fun hfollows hadmitted =>
        (follows_ntfsMapRunlist MappingPairsSoundness.plenty_succeeds (serves_mftOf _) hfollows
          hadmitted).1)
      (follows_unmappedInode _)
      fun vcn hvcn {_} hfollows =>
        hfollows.admitted (.inr (by decide)) (by decide)
          ((by decide : ∀ vcn ∈ [2, 7, 0], (0 : ℤ) ≤ vcn) vcn hvcn))
  obtain ⟨hok, hfirst⟩ := hin (by decide)
  exact ⟨hok, hfirst.trans (by decide), by decide +kernel⟩

/-! ### The cursor against a search from the start -/

section

/-- The loop of `ntfs_rl_find_vcn_nolock`. -/
def findVcnLoop : List RunlistElement → ℤ → Option (Option RunlistElement)
  | [], _ => none
  | run :: rest, vcn =>
    if run.length = 0 then some (if run.lcn = lcnEnoent then some run else none)
    else match rest with
      | [] => none
      | next :: _ =>
        if vcn < next.vcn then some (if lcnHole ≤ run.lcn then some run else none)
        else findVcnLoop rest vcn

/-- `ntfs_rl_find_vcn_nolock`: the element, or none for `NULL`. No value stands for the `BUG_ON` and
for a walk past the end of the list. -/
def ntfsRlFindVcnNolock (rl : Option (List RunlistElement)) (vcn : ℤ) :
    Option (Option RunlistElement) :=
  if vcn < 0 then none
  else match rl with
    | none => some none
    | some [] => none
    | some (run :: rest) => if vcn < run.vcn then some none else findVcnLoop (run :: rest) vcn

/-- What the readers get for one vcn after the other, with the cursor they keep. -/
def lookEach : List RunlistElement → List ℤ → List (Option ℤ)
  | _, [] => []
  | rl, vcn :: vcns => ntfsRlVcnToLcn (some (seek vcn rl)) vcn :: lookEach (seek vcn rl) vcns

variable {vcn first : ℤ} {runs : List RunlistElement} {last : RunlistElement}

/-- The cursor may stand anywhere from where the vcns to come are sought as from the start. -/
theorem lookEach_eq {rl cursor : List RunlistElement} {vcns : List ℤ}
    (hsort : vcns.Pairwise (· ≤ ·)) (hcurs : ∀ vcn ∈ vcns, seek vcn cursor = seek vcn rl) :
    lookEach cursor vcns = vcns.map fun vcn => ntfsRlVcnToLcn (some (seek vcn rl)) vcn := by
  induction vcns generalizing cursor with
  | nil => rfl
  | cons vcn vcns ih =>
    obtain ⟨hle, hsort⟩ := pairwise_cons.mp hsort
    rw [lookEach, map_cons, hcurs vcn mem_cons_self, ih hsort]
    exact fun next hnext => seek_seek (hle next hnext) rl

theorem lcnHole_le_lcnAt {run : RunlistElement} (hcovers : run.Covers vcn) (hlcn : IsS64 run.lcn)
    (hlength : run.length < 2 ^ 63) :
    lcnHole ≤ run.lcnAt vcn ↔ lcnHole ≤ run.lcn ∧ NumberedAt run vcn := by
  unfold RunlistElement.Covers at hcovers
  unfold IsS64 at hlcn
  unfold RunlistElement.lcnAt NumberedAt lcnHole
  by_cases hmapped : 0 ≤ run.lcn
  · rw [if_pos hmapped, s64_of_isS64 (x := vcn - run.vcn) ⟨by omega, by omega⟩, s64, Int.bmod_def]
    split_ifs <;> omega
  · simp [hmapped]

theorem loops_agree (hchain : Chain first runs last.vcn) (hlast : last.length = 0)
    (hlcn : last.lcn < lcnHole) (hlow : first ≤ vcn)
    (hword : ∀ run ∈ runs, IsS64 run.lcn ∧ run.length < 2 ^ 63) :
    ∃ lcn, vcnToLcnLoop (runs ++ [last]) vcn = some lcn ∧ (lcnHole ≤ lcn ↔ ∃ run,
      findVcnLoop (runs ++ [last]) vcn = some (some run) ∧ run.Covers vcn ∧ lcnHole ≤ run.lcn ∧
        NumberedAt run vcn) := by
  induction runs generalizing first with
  | nil =>
    refine ⟨last.lcn, vcnToLcnLoop_terminator [] hlast (hlcn.trans (by decide)), ?_⟩
    refine iff_of_false (not_le.mpr hlcn) ?_
    rintro ⟨run, hfind, -, hhole, -⟩
    rw [nil_append, findVcnLoop, if_pos hlast] at hfind
    split_ifs at hfind with henoe
    · cases hfind
      exact absurd hhole (not_le.mpr hlcn)
    · cases hfind
  | cons run runs ih =>
    obtain ⟨hvcn, hpos, hrest⟩ := hchain
    obtain ⟨second, others, hseco, hstart⟩ := hrest.exists_cons []
    rw [forall_mem_cons] at hword
    rw [cons_append, hseco, vcnToLcnLoop, findVcnLoop, if_neg hpos.ne', if_neg hpos.ne']
    by_cases hlt : vcn < second.vcn
    · have hcovers : run.Covers vcn := by
        unfold RunlistElement.Covers
        omega
      refine ⟨_, by rw [if_pos hlt], ?_⟩
      rw [if_pos hlt, lcnHole_le_lcnAt hcovers hword.1.1 hword.1.2]
      refine ⟨fun h => ⟨run, by rw [if_pos h.1], hcovers, h.1, h.2⟩, ?_⟩
      rintro ⟨found, hfound, -, -, hin⟩
      split_ifs at hfound with hhole
      · cases hfound
        exact ⟨hhole, hin⟩
      · cases hfound
    · rw [if_neg hlt, if_neg hlt, ← hseco]
      exact ih hrest (by omega) hword.2

/-- Assumes: vcns in order. A reader with a cursor gets for them what searches from the start get,
and they get a cluster or a hole exactly if `ntfs_rl_find_vcn_nolock` finds the element with it and
the number of the cluster is a 64-bit word. -/
theorem lookEach_eq_fresh (rl : Runlist) {vcns : List ℤ} (hsorted : vcns.Pairwise (· ≤ ·))
    (hnonneg : ∀ vcn ∈ vcns, 0 ≤ vcn) :
    lookEach rl.elements vcns = vcns.map (ntfsRlVcnToLcn (some rl.elements)) ∧
      ∀ vcn ∈ vcns, ∃ lcn, ntfsRlVcnToLcn (some rl.elements) vcn = some lcn ∧
        (lcnHole ≤ lcn ↔ ∃ run, ntfsRlFindVcnNolock (some rl.elements) vcn = some (some run) ∧
          run.Covers vcn ∧ lcnHole ≤ run.lcn ∧ NumberedAt run vcn) := by
  obtain ⟨head, others, hlist, hhead⟩ := rl.chain.exists_cons []
  have hlast := rl.last_vcn_isS64.2
  refine ⟨?_, fun vcn hvcn => ?_⟩
  · rw [lookEach_eq hsorted fun _ _ => rfl]
    refine List.map_congr_left fun vcn hvcn => ntfsRlVcnToLcn_seek (hnonneg vcn hvcn) ?_
    rintro run rest heq
    cases hlist.symm.trans heq
    exact hhead
  · have hloops := @loops_agree vcn _ _ _ rl.chain rl.last_length
      (by rcases rl.last_lcn with h | h <;> rw [h] <;> decide) (hnonneg vcn hvcn)
      fun run hrun => ⟨rl.lcn_isS64 run hrun, by have := rl.chain.mem hrun; omega⟩
    rw [hlist] at hloops
    have hge : ¬ vcn < head.vcn := not_lt.mpr (hhead.trans_le (hnonneg vcn hvcn))
    rw [Runlist.elements, hlist]
    simp only [ntfsRlVcnToLcn, ntfsRlFindVcnNolock,
      if_neg (not_lt.mpr (hnonneg vcn hvcn)), if_neg hge]
    exact hloops

theorem lookEach_sparseSix : lookEach MappingPairsBuild.sparseSix.elements [1, 4, 4, 9] =
    [1, 4, 4, 9].map (ntfsRlVcnToLcn (some MappingPairsBuild.sparseSix.elements)) :=
  (lookEach_eq_fresh _ (by decide) (by decide)).1

/-- The run is found and contains the vcn, but the number of the cluster overflows. -/
theorem not_found_wideRun : ntfsRlVcnToLcn (some wideRun.elements) 3 = some (1 - 2 ^ 63) ∧
    ntfsRlFindVcnNolock (some wideRun.elements) 3 = some (some ⟨0, 2 ^ 63 - 2, 4⟩) ∧
    (⟨0, 2 ^ 63 - 2, 4⟩ : RunlistElement).Covers 3 := by
  decide

end

end AdvancedOs.Ntfs.BlockReads
