import AdvancedOs.Ntfs.BlockReads
import AdvancedOs.Ntfs.DecompressionSharing

/-!
# Reading a compressed page

`ntfs_read_compressed_block` reads the compression block that a page lies in and completes as many
of its pages as it can. `Request` is what it starts from: the page, the inode, the page cache, the
device, and which of the allocations, buffers and reads succeed. `Filling` is the array of pages
while they are completed, with a log of what happens to them, and `Outcome` what the read leaves.

The array is filled from the page cache (`grabPages`), the buffers of the clusters are obtained up
to the first hole (`gather`), and then the block is made zero, copied or decompressed, depending on
the number of clusters (`fillPages`). With pages of 4096 bytes there is one compression block
(`nrCbs_eq`), and `ntfsReadCompressedBlock_eq` is the read without the loop over them.
-/

namespace AdvancedOs.Ntfs.CompressedReads

open Foundation.ArraySegments Foundation.SignedWords RunlistElements MappingPairs
  BlockReads Function Decompression DecompressionSharing List

/-! ### The request -/

/-- A volume with compressed files: its clusters are pages at most, and its blocks sectors at
least. -/
structure Geometry where
  vol : NtfsVolume
  blocksizeBits : ℕ
  clusterSizeBits_le : vol.clusterSizeBits ≤ 12
  blocksizeBits_ge : 9 ≤ blocksizeBits
  blocksizeBits_le : blocksizeBits ≤ vol.clusterSizeBits

open CompressedReads.Geometry

namespace Geometry

def ofBits (clusterSizeBits blocksizeBits : ℕ)
    (hbits : 9 ≤ blocksizeBits ∧ blocksizeBits ≤ clusterSizeBits ∧ clusterSizeBits ≤ 12) :
    Geometry where
  vol := ⟨3, clusterSizeBits, hbits.1.trans hbits.2.1, hbits.2.2.trans_lt (by decide)⟩
  blocksizeBits := blocksizeBits
  clusterSizeBits_le := hbits.2.2
  blocksizeBits_ge := hbits.1
  blocksizeBits_le := hbits.2.1

variable (geo : Geometry) (index : ℕ)

def clusterSize : ℕ := 2 ^ geo.vol.clusterSizeBits

def blockSize : ℕ := 2 ^ geo.blocksizeBits

/-- `cb_clusters`: the only compression unit the driver takes is sixteen clusters. -/
def cbClusters : ℕ := 2 ^ 4

def cbSize : ℕ := 2 ^ (4 + geo.vol.clusterSizeBits)

def startVcn : ℕ := index * 4096 / geo.cbSize * geo.cbSize / geo.clusterSize

def endVcn : ℕ :=
  ((index + 1) * 4096 + geo.cbSize - 1) / geo.cbSize * geo.cbSize / geo.clusterSize

def nrCbs : ℕ := (geo.endVcn index - geo.startVcn index) * geo.clusterSize / geo.cbSize

def nrPages : ℕ := (geo.endVcn index - geo.startVcn index) * geo.clusterSize / 4096

/-- `offset`: the number of the first page of the compression blocks. -/
def offset : ℕ := geo.startVcn index * geo.clusterSize / 4096

/-- `xpage`: the place of the page in the array of pages. -/
def xpage : ℕ := index - geo.offset index

/-- `max_page` as first computed, which is a 32-bit word. -/
def pagesBelow (iSize : ℕ) : ℕ :=
  ((((iSize + 4095) / 4096 : ℕ) - geo.offset index : ℤ) % 2 ^ 32).toNat

def maxPage (iSize : ℕ) : ℕ :=
  if geo.nrPages index < geo.pagesBelow index iSize then geo.nrPages index
  else geo.pagesBelow index iSize

end Geometry

structure CachedPage where
  dirty : Bool
  uptodate : Bool
  error : Bool
  mem : ℕ → UInt8

/-- The page has to be read: it is not dirty, and it is not uptodate or has an error. -/
def CachedPage.toRead (page : CachedPage) : Bool := !page.dirty && (!page.uptodate || page.error)

/-- What a read of a compressed page starts from, and what happens to it on the way: the number of
the page and the page, the inode and its sizes, whether the arrays can be allocated, the pages that
are grabbed by their number, whether the buffers are obtained and read, the device, and what is in
the compression buffer. -/
structure Request (State : Type) where
  index : ℕ
  page : CachedPage
  ni : State
  iSize : ℕ
  initializedSize : ℕ
  memory : Bool
  grab : ℕ → Option CachedPage
  getblk : ℕ → Bool
  read : ℕ → Bool
  device : ℤ → UInt8
  buffer : ℕ → UInt8

/-! ### Pages that are given back -/

/-- What is done with the pages, which are given by their place in the array of pages. -/
inductive Event
  | grab (i : ℕ)
  | setUptodate (i : ℕ)
  | unlock (i : ℕ)
  | release (i : ℕ)
deriving DecidableEq, Repr

/-- What is done with the buffers, which have numbers in the order in which they are obtained. -/
inductive BufferEvent
  | getblk (n : ℕ)
  | brelse (n : ℕ)
deriving DecidableEq, Repr

/-- The state of the pages: the array and what it points to, the place in it, whether the requested
page is done, and what has been done so far. -/
structure Filling where
  pages : DestPages
  curPage : ℕ
  curOfs : ℕ
  xpageDone : Bool
  log : List Event

section

variable (xpage : ℕ)

/-- The events with which a page leaves the array. The requested page belongs to the caller. -/
def leaves (i : ℕ) : List Event := .unlock i :: if i = xpage then [] else [.release i]

def giveUp (i : ℕ) (st : Filling) : Filling :=
  { st with
    pages := { st.pages with held := update st.pages.held i false }
    log := st.log ++ leaves xpage i }

def complete (i : ℕ) (bytes : ℕ → UInt8) (st : Filling) : Filling :=
  giveUp xpage i
    { st with
      pages := { st.pages with
        mem := update st.pages.mem i bytes
        uptodate := update st.pages.uptodate i true }
      xpageDone := st.xpageDone || decide (i = xpage)
      log := st.log ++ [.setUptodate i] }

def fill (i : ℕ) (bytes : ℕ → UInt8) (st : Filling) : Filling :=
  { st with pages := { st.pages with mem := update st.pages.mem i bytes } }

def ifHeld (i : ℕ) (act : Filling → Filling) (st : Filling) : Filling :=
  if st.pages.held i then act st else st

def giveUpAll (entries : List ℕ) (st : Filling) : Filling :=
  entries.foldl (fun st i => ifHeld i (giveUp xpage i) st) st

end

/-! ### Grabbing the pages -/

section

variable {State : Type} (mapper : Mapper State) (geo : Geometry) (req : Request State)

/-- The page that comes to an entry of the array: the requested one, or one that is grabbed. -/
def entry (i : ℕ) : Option CachedPage :=
  if i = geo.xpage req.index then some req.page else req.grab (geo.offset req.index + i)

/-- What is done while an entry is filled. A page that need not be read is left alone. -/
def grabEvents (i : ℕ) : List Event :=
  (if i ≠ geo.xpage req.index ∧ (entry geo req i).isSome then [.grab i] else []) ++
    match entry geo req i with
    | some page => if page.toRead then [] else [.unlock i, .release i]
    | none => []

def grabbed : DestPages where
  held i := decide (i < geo.maxPage req.index req.iSize) &&
    ((entry geo req i).map CachedPage.toRead).getD false
  index i := geo.offset req.index + i
  mem i := ((entry geo req i).map CachedPage.mem).getD fun _ => 0
  uptodate i := ((entry geo req i).map CachedPage.uptodate).getD false

def grabPages : Filling :=
  ⟨grabbed geo req, 0, 0, false,
    (List.range (geo.maxPage req.index req.iSize)).flatMap (grabEvents geo req)⟩

/-! ### Reading a compression block -/

/-- A signed 32-bit word. -/
def s32 (x : ℤ) : ℤ := Int.bmod x (2 ^ 32)

/-- The loop that obtains the buffers of a cluster, from `block` on and below `maxBlock`, behind
those there are. Says whether all of them were obtained. The buffers of the compression block are
those from the number `first` on. -/
def getBlocks (first : ℕ) (maxBlock : ℤ) : ℕ → ℤ → List ℤ → List ℤ × Bool
  | 0, _, bhs => (bhs, true)
  | fuel + 1, block, bhs =>
    if req.getblk (first + bhs.length) then
      if s32 (block + 1) < maxBlock then
        getBlocks first maxBlock fuel (s32 (block + 1)) (bhs ++ [block])
      else (bhs ++ [block], true)
    else (bhs, false)

def clusterBlocks : ℕ := geo.clusterSize / geo.blockSize

/-- The buffers of the cluster `lcn`. The numbers of blocks are 32-bit words. -/
def getCluster (first : ℕ) (lcn : ℤ) (bhs : List ℤ) : List ℤ × Bool :=
  let block := s32 (s64 (lcn * geo.clusterSize) / geo.blockSize)
  getBlocks req first (s32 (block + clusterBlocks geo)) (clusterBlocks geo) block bhs

/-- How the loop over the clusters of a compression block ends: after some clusters, or with a
failure to map or to look up a cluster or to obtain a buffer. -/
inductive GatherEnd
  | clusters (count : ℕ)
  | failed
deriving DecidableEq

/-- The state of the loop over the clusters: the inode, the element `rl` points to, and the blocks
of the buffers. -/
structure Gathered (State : Type) where
  ni : State
  rl : Option (List RunlistElement)
  bhs : List ℤ

/-- The loop over the clusters of a compression block, from the cluster number `count` on. The first
hole ends it. -/
def gather (first start : ℕ) : ℕ → ℕ → Gathered State → Except Failure (Gathered State × GatherEnd)
  | 0, count, st => .ok (st, .clusters count)
  | left + 1, count, st => do
    let found ← locate mapper (start + count : ℕ) st.ni st.rl
    let st := { st with ni := found.ni, rl := found.rl }
    if found.err.isSome then return (st, .failed)
    else if 0 ≤ found.lcn then
      let (bhs, ok) := getCluster geo req first found.lcn st.bhs
      if ok then gather first start left (count + 1) { st with bhs := bhs }
      else return ({ st with bhs := bhs }, .failed)
    else if found.lcn = lcnHole then return (st, .clusters count)
    else return (st, .failed)

/-- The compression buffer when the blocks have been copied into it. As a precaution they are
followed by a zero header if there is room for one. -/
def fillBuffer (bhs : List ℤ) (i : ℕ) : UInt8 :=
  if i < bhs.length * geo.blockSize then
    req.device (bhs.getD (i / geo.blockSize) 0 * geo.blockSize + (i % geo.blockSize : ℕ))
  else if bhs.length * geo.blockSize + 2 ≤ geo.cbSize ∧ i < bhs.length * geo.blockSize + 2 then 0
  else req.buffer i

end

/-! ### Filling the pages -/

/-- A place in the pages and in the compression buffer. -/
structure Place where
  page : ℕ
  ofs : ℕ
  pos : ℕ

/-- The loops over the pages of a compression block. They end with the last page or with the
block. -/
def pageLoop (body : Place → Filling → Filling) (cbMaxPage cbSize : ℕ) :
    ℕ → Place → Filling → Place × Filling
  | 0, place, st => (place, st)
  | fuel + 1, place, st =>
    if place.page < cbMaxPage then
      let st := body place st
      let pos := place.pos + (4096 - place.ofs)
      if cbSize ≤ pos then (⟨place.page, 0, pos⟩, st)
      else pageLoop body cbMaxPage cbSize fuel ⟨place.page + 1, 0, pos⟩ st
    else (place, st)

section

variable (xpage cbMaxPage cbMaxOfs cbSize : ℕ)

/-- The place where the current compression block starts. -/
def Filling.place (st : Filling) : Place := ⟨st.curPage, st.curOfs, 0⟩

/-- `cb_max_page` without the final page that is filled in part. -/
def fullPages : ℕ := if cbMaxOfs ≠ 0 then cbMaxPage - 1 else cbMaxPage

def zeroRange (bytes : ℕ → UInt8) (start stop : ℕ) (i : ℕ) : UInt8 :=
  if start ≤ i ∧ i < stop then 0 else bytes i

def sparsePage (place : Place) (st : Filling) : Filling :=
  ifHeld place.page
    (complete xpage place.page (zeroRange (st.pages.mem place.page) place.ofs 4096)) st

/-- A page of a compression block that is not compressed, in the first stage. -/
def copyPage (cb : ℕ → UInt8) (place : Place) (st : Filling) : Filling :=
  ifHeld place.page
    (fill place.page (memcpy (st.pages.mem place.page) place.ofs cb place.pos (4096 - place.ofs)))
      st

def boundPage (iSize initializedSize : ℕ) (place : Place) (st : Filling) : Filling :=
  ifHeld place.page
    (complete xpage place.page (handleBoundsCompressedPage (st.pages.index place.page)
      (st.pages.mem place.page) iSize initializedSize)) st

def finalPage (bytes : Place → Filling → ℕ → UInt8) (place : Place) (st : Filling) : Filling :=
  if cbMaxOfs ≠ 0 ∧ place.pos < cbSize then
    { ifHeld place.page (fill place.page (bytes place st)) st with
      curPage := place.page
      curOfs := cbMaxOfs }
  else { st with curPage := place.page, curOfs := place.ofs }

def fillSparse (st : Filling) : Filling :=
  let (place, st) := pageLoop (sparsePage xpage) (fullPages cbMaxPage cbMaxOfs) cbSize
    (fullPages cbMaxPage cbMaxOfs) st.place st
  finalPage cbMaxOfs cbSize
    (fun place st => zeroRange (st.pages.mem place.page) place.ofs cbMaxOfs) place st

/-- A compression block that is not compressed is copied, and then its pages are completed. -/
def fillRaw (cb : ℕ → UInt8) (iSize initializedSize : ℕ) (st : Filling) : Filling :=
  let start := st.place
  let (place, st) := pageLoop (copyPage cb) (fullPages cbMaxPage cbMaxOfs) cbSize
    (fullPages cbMaxPage cbMaxOfs) start st
  let st := finalPage cbMaxOfs cbSize (fun place st => memcpy (st.pages.mem place.page) place.ofs cb
    place.pos (cbMaxOfs - place.ofs)) place st
  (pageLoop (boundPage xpage iSize initializedSize) (fullPages cbMaxPage cbMaxOfs) cbSize
    (fullPages cbMaxPage cbMaxOfs) start st).2

/-- The entries `ntfs_decompress` completes. -/
def completedPages (cb : ℕ → UInt8) (st : Filling) : List ℕ :=
  (doSbs ⟨cb, cbSize, cbMaxPage, cbMaxOfs, st.pages.held⟩ (cbSize + 1)
    ⟨0, st.curPage, st.curOfs, st.pages.mem, [], []⟩).1.completed

/-- A compressed compression block is decompressed. After an error the pages it did not finish leave
the array. -/
def fillCompressed (cb : ℕ → UInt8) (iSize initializedSize : ℕ) (st : Filling) :
    Filling × Except Failure Unit :=
  let out := ntfsDecompress st.pages st.curPage st.curOfs cbMaxPage cbMaxOfs xpage st.xpageDone cb
    cbSize iSize initializedSize
  let filled : Filling :=
    { pages := out.pages
      curPage := out.destIndex
      curOfs := out.destOfs
      xpageDone := out.xpageDone
      log := st.log ++ (completedPages cbMaxPage cbMaxOfs cbSize cb st).flatMap fun i =>
        .setUptodate i :: leaves xpage i }
  match out.status with
  | .ok () => (filled, .ok ())
  | .error why =>
    (giveUpAll xpage (List.range' st.curPage (out.destIndex - st.curPage)) filled, .error why)

end

/-! ### `ntfs_read_compressed_block` -/

structure Outcome where
  pages : DestPages
  log : List Event
  buffers : List BufferEvent
  status : Except Failure Unit

section

variable {State : Type} (mapper : Mapper State) (geo : Geometry) (req : Request State)

def failRead (st : Filling) (buffers : List BufferEvent) : Outcome :=
  let st := giveUpAll (geo.xpage req.index)
    (List.range' st.curPage (geo.maxPage req.index req.iSize - st.curPage)) st
  ⟨st.pages, st.log, buffers, .error (.errno .eio)⟩

/-- A compression block whose first `count` clusters are in the compression buffer is put into the
pages. `err` is the error of the compression blocks before. -/
def fillPages (count : ℕ) (cb : ℕ → UInt8) (st : Filling) (err : Except Failure Unit) :
    Filling × Except Failure Unit :=
  let stop := st.curPage * 4096 + st.curOfs + geo.cbSize
  let cbMaxPage := min (stop / 4096) (geo.maxPage req.index req.iSize)
  if count = 0 then (fillSparse (geo.xpage req.index) cbMaxPage (stop % 4096) geo.cbSize st, err)
  else if count = cbClusters then
    (fillRaw (geo.xpage req.index) cbMaxPage (stop % 4096) geo.cbSize cb req.iSize
      req.initializedSize st, err)
  else fillCompressed (geo.xpage req.index) cbMaxPage (stop % 4096) geo.cbSize cb req.iSize
    req.initializedSize st

/-- The end of a read: what is left in the array leaves it, and the read succeeds if the requested
page is done. -/
def finishRead (st : Filling) (buffers : List BufferEvent) (err : Except Failure Unit) : Outcome :=
  let st := giveUpAll (geo.xpage req.index) (List.range (geo.maxPage req.index req.iSize)) st
  ⟨st.pages, st.log, buffers,
    if st.xpageDone then .ok ()
    else match err with
      | .ok () => .error (.errno .eio)
      | .error why => .error why⟩

/-- The state between two compression blocks. -/
structure CbState (State : Type) where
  ni : State
  filling : Filling
  buffers : List BufferEvent
  err : Except Failure Unit

/-- The loop over the compression blocks, from the cluster `start` and the buffer number `first`
on. -/
def readCbs : ℕ → ℕ → ℕ → CbState State → Except Failure Outcome
  | 0, _, _, st => .ok (finishRead geo req st.filling st.buffers st.err)
  | left + 1, start, first, st => do
    let (got, ending) ← gather mapper geo req first start cbClusters 0 ⟨st.ni, none, []⟩
    let numbers := List.range' first got.bhs.length
    let obtained := st.buffers ++ numbers.map .getblk
    match ending with
    -- The buffers obtained so far are not released.
    | .failed => return failRead geo req st.filling obtained
    | .clusters count =>
      if numbers.all req.read then
        let (filling, err) := fillPages geo req count (fillBuffer geo req got.bhs) st.filling st.err
        readCbs left (start + cbClusters) (first + got.bhs.length)
          ⟨got.ni, filling, obtained ++ numbers.map .brelse, err⟩
      else return failRead geo req st.filling (obtained ++ numbers.map .brelse)

def ntfsReadCompressedBlock : Except Failure Outcome :=
  let xpage := geo.xpage req.index
  if req.memory = false then
    .ok ⟨grabbed geo req, [.unlock xpage], [], .error (.errno .enomem)⟩
  else if geo.pagesBelow req.index req.iSize ≤ xpage then
    -- Is the page fully outside i_size? (truncate in progress)
    .ok ⟨{ grabbed geo req with
        mem := update (grabbed geo req).mem xpage (zeroRange req.page.mem 0 4096)
        uptodate := update (grabbed geo req).uptodate xpage true },
      [.setUptodate xpage, .unlock xpage], [], .ok ()⟩
  else
    readCbs mapper geo req (geo.nrCbs req.index) (geo.startVcn req.index) 0
      ⟨req.ni, grabPages geo req, [], .ok ()⟩

end

/-! ### One compression block -/

section

variable (geo : Geometry) (index : ℕ)

theorem sizes_cases : (geo.clusterSize = 512 ∧ geo.cbSize = 8192) ∨
    (geo.clusterSize = 1024 ∧ geo.cbSize = 16384) ∨ (geo.clusterSize = 2048 ∧ geo.cbSize = 32768) ∨
    (geo.clusterSize = 4096 ∧ geo.cbSize = 65536) := by
  have hge := geo.vol.clusterSizeBits_ge
  have hle := geo.clusterSizeBits_le
  unfold clusterSize cbSize
  generalize geo.vol.clusterSizeBits = bits at hge hle ⊢
  interval_cases bits <;> simp

/-- A page belongs to one compression block. -/
theorem nrCbs_eq : geo.nrCbs index = 1 := by
  unfold nrCbs endVcn startVcn
  rcases sizes_cases geo with ⟨h, h'⟩ | ⟨h, h'⟩ | ⟨h, h'⟩ | ⟨h, h'⟩ <;> rw [h, h'] <;> omega

theorem nrPages_mul : geo.nrPages index * 4096 = geo.cbSize := by
  unfold nrPages endVcn startVcn
  rcases sizes_cases geo with ⟨h, h'⟩ | ⟨h, h'⟩ | ⟨h, h'⟩ | ⟨h, h'⟩ <;> rw [h, h'] <;> omega

theorem xpage_lt : geo.xpage index < geo.nrPages index := by
  unfold xpage offset nrPages endVcn startVcn
  rcases sizes_cases geo with ⟨h, h'⟩ | ⟨h, h'⟩ | ⟨h, h'⟩ | ⟨h, h'⟩ <;> rw [h, h'] <;> omega

theorem offset_add_xpage : geo.offset index + geo.xpage index = index := by
  unfold xpage offset startVcn
  rcases sizes_cases geo with ⟨h, h'⟩ | ⟨h, h'⟩ | ⟨h, h'⟩ | ⟨h, h'⟩ <;> rw [h, h'] <;> omega

theorem startVcn_mul : geo.startVcn index * geo.clusterSize = geo.offset index * 4096 := by
  unfold offset startVcn
  rcases sizes_cases geo with ⟨h, h'⟩ | ⟨h, h'⟩ | ⟨h, h'⟩ | ⟨h, h'⟩ <;> rw [h, h'] <;> omega

theorem maxPage_le (iSize : ℕ) : geo.maxPage index iSize ≤ geo.nrPages index := by
  unfold maxPage
  split_ifs <;> omega

theorem xpage_lt_maxPage {iSize : ℕ} (hin : ¬ geo.pagesBelow index iSize ≤ geo.xpage index) :
    geo.xpage index < geo.maxPage index iSize := by
  have hlt := xpage_lt geo index
  unfold maxPage
  split_ifs <;> omega

end

/-! ### The clusters of a compression block -/

/-- The numbers of the blocks the loop over a cluster asks for, from `block` on and below
`maxBlock`. -/
def askedBlocks (maxBlock : ℤ) : ℕ → ℤ → List ℤ
  | 0, _ => []
  | fuel + 1, block =>
    block :: if s32 (block + 1) < maxBlock then askedBlocks maxBlock fuel (s32 (block + 1)) else []

def blocksOf (geo : Geometry) (lcn : ℤ) : List ℤ :=
  let block := s32 (s64 (lcn * geo.clusterSize) / geo.blockSize)
  askedBlocks (s32 (block + clusterBlocks geo)) (clusterBlocks geo) block

section

variable {State : Type} {mapper : Mapper State} {geo : Geometry} {req : Request State}

theorem getBlocks_cases (req : Request State) (maxBlock : ℤ) (fuel : ℕ) (block : ℤ) (bhs : List ℤ) :
    ((∀ n, bhs.length ≤ n → n < bhs.length + (askedBlocks maxBlock fuel block).length →
      req.getblk n = true) ∧ getBlocks req 0 maxBlock fuel block bhs =
      (bhs ++ askedBlocks maxBlock fuel block, true)) ∨
    ∃ got : List ℤ, bhs.length ≤ got.length ∧
      got.length < bhs.length + (askedBlocks maxBlock fuel block).length ∧
      req.getblk got.length = false ∧ (∀ n, bhs.length ≤ n → n < got.length → req.getblk n = true) ∧
      getBlocks req 0 maxBlock fuel block bhs = (got, false) := by
  induction fuel generalizing block bhs with
  | zero => exact .inl ⟨fun n hle hlt => absurd hlt (by simpa [askedBlocks] using hle),
      by simp [getBlocks, askedBlocks]⟩
  | succ fuel ih =>
    rw [getBlocks, askedBlocks, Nat.zero_add]
    cases hget : req.getblk bhs.length with
    | false =>
      exact .inr ⟨bhs, Nat.le_refl _, by simp, hget, fun n hle hlt => absurd hlt (by omega), rfl⟩
    | true =>
      have hfst : ∀ {n}, bhs.length ≤ n → ¬ (bhs ++ [block]).length ≤ n → req.getblk n = true :=
        fun {n} hle hlt => by
          obtain rfl : n = bhs.length := by rw [length_append, length_singleton] at hlt; omega
          exact hget
      rw [if_pos rfl]
      split_ifs with hmore
      · rcases ih (s32 (block + 1)) (bhs ++ [block]) with
          ⟨hall, hgot⟩ | ⟨got, hle, hlt, hnot, hall, hgot⟩
        · refine .inl ⟨fun n hle hlt => ?_, by rw [hgot, append_assoc]; rfl⟩
          by_cases hn : (bhs ++ [block]).length ≤ n
          · exact hall n hn (by simp at hlt ⊢; omega)
          · exact hfst hle hn
        · refine .inr ⟨got, by simp at hle; omega, by simp at hlt ⊢; omega, hnot,
            fun n hle hlt => ?_, hgot⟩
          by_cases hn : (bhs ++ [block]).length ≤ n
          · exact hall n hn hlt
          · exact hfst hle hn
      · exact .inl ⟨fun n hle hlt => hfst hle (by simp at hlt ⊢; omega), rfl⟩

theorem getCluster_cases (geo : Geometry) (req : Request State) (lcn : ℤ) (bhs : List ℤ) :
    ((∀ n, bhs.length ≤ n → n < (bhs ++ blocksOf geo lcn).length → req.getblk n = true) ∧
      getCluster geo req 0 lcn bhs = (bhs ++ blocksOf geo lcn, true)) ∨
    ∃ got : List ℤ, bhs.length ≤ got.length ∧ got.length < (bhs ++ blocksOf geo lcn).length ∧
      req.getblk got.length = false ∧
      (∀ n, bhs.length ≤ n → n < got.length → req.getblk n = true) ∧
      getCluster geo req 0 lcn bhs = (got, false) := by
  rw [length_append]
  exact getBlocks_cases req _ _ _ bhs

/-- The clusters from `start` on are mapped, one after the other from the inode `first` on: the
inode and the element `rl` points to behind them, and where they are on the volume. -/
inductive Mapped (mapper : Mapper State) (start : ℕ) (first : State) :
    State → Option (List RunlistElement) → List ℤ → Prop
  | nil : Mapped mapper start first first none []
  | snoc {ni : State} {rl : Option (List RunlistElement)} {lcns : List ℤ} {found : Located State} :
      Mapped mapper start first ni rl lcns →
      locate mapper (start + lcns.length : ℕ) ni rl = .ok found → found.err = none → 0 ≤ found.lcn →
      Mapped mapper start first found.ni found.rl (lcns ++ [found.lcn])

theorem gather_succ {first start left count : ℕ} {st : Gathered State} {found : Located State}
    (hloc : locate mapper (start + count : ℕ) st.ni st.rl = .ok found) :
    gather mapper geo req first start (left + 1) count st =
      if found.err.isSome then .ok (⟨found.ni, found.rl, st.bhs⟩, .failed)
      else if 0 ≤ found.lcn then
        if (getCluster geo req first found.lcn st.bhs).2 then
          gather mapper geo req first start left (count + 1)
            ⟨found.ni, found.rl, (getCluster geo req first found.lcn st.bhs).1⟩
        else .ok (⟨found.ni, found.rl, (getCluster geo req first found.lcn st.bhs).1⟩, .failed)
      else if found.lcn = lcnHole then .ok (⟨found.ni, found.rl, st.bhs⟩, .clusters count)
      else .ok (⟨found.ni, found.rl, st.bhs⟩, .failed) := by
  rw [gather, hloc]
  rfl

/-- Assumes: clusters that are mapped, whose buffers are all obtained. The loop passes them. -/
theorem Mapped.gather_eq {start : ℕ} {ni : State} {rl : Option (List RunlistElement)}
    {lcns : List ℤ} (hmap : Mapped mapper start req.ni ni rl lcns)
    (hget : ∀ n < (lcns.flatMap (blocksOf geo)).length, req.getblk n = true) (left : ℕ) :
    gather mapper geo req 0 start (lcns.length + left) 0 ⟨req.ni, none, []⟩ =
      gather mapper geo req 0 start left lcns.length ⟨ni, rl, lcns.flatMap (blocksOf geo)⟩ := by
  induction hmap generalizing left with
  | nil => rw [length_nil, Nat.zero_add, flatMap_nil]
  | @snoc ni rl lcns found hmap hloc herr hlcn ih =>
    rw [flatMap_append, flatMap_singleton] at hget ⊢
    rw [length_append, length_singleton, Nat.add_assoc, Nat.add_comm 1 left,
      ih (fun n hn => hget n (by rw [length_append]; omega)), gather_succ hloc, herr,
      if_neg (by simp), if_pos hlcn]
    rcases getCluster_cases geo req found.lcn (lcns.flatMap (blocksOf geo)) with
      ⟨-, hgot⟩ | ⟨got, -, hlt, hnot, -⟩
    · rw [hgot, if_pos rfl]
    · rw [hget _ hlt] at hnot
      cases hnot

end

/-! ### Loops over the pages -/

section

variable {P : Filling → Prop} {st : Filling}

theorem ifHeld_preserves {i : ℕ} {act : Filling → Filling} (hst : P st)
    (hact : st.pages.held i = true → P (act st)) : P (ifHeld i act st) := by
  unfold ifHeld
  split_ifs with hheld
  · exact hact hheld
  · exact hst

theorem pageLoop_preserves {body : Place → Filling → Filling} (cbMaxPage cbSize fuel : ℕ)
    (place : Place) (hbody : ∀ place st, P st → P (body place st)) (hst : P st) :
    P (pageLoop body cbMaxPage cbSize fuel place st).2 := by
  induction fuel generalizing place st with
  | zero => exact hst
  | succ fuel ih =>
    rw [pageLoop]
    split_ifs
    · dsimp only
      split_ifs
      · exact hbody place st hst
      · exact ih _ (hbody place st hst)
    · exact hst

theorem giveUpAll_preserves {xpage : ℕ} (entries : List ℕ)
    (hgiveUp : ∀ i st, st.pages.held i = true → P st → P (giveUp xpage i st)) (hst : P st) :
    P (giveUpAll xpage entries st) := by
  induction entries generalizing st with
  | nil => exact hst
  | cons i entries ih => exact ih (ifHeld_preserves hst fun hheld => hgiveUp i st hheld hst)

theorem held_giveUpAll (xpage : ℕ) (entries : List ℕ) (st : Filling) (i : ℕ) :
    (giveUpAll xpage entries st).pages.held i = (decide (i ∉ entries) && st.pages.held i) := by
  induction entries generalizing st with
  | nil => simp [giveUpAll]
  | cons j entries ih =>
    have hstep : (ifHeld j (giveUp xpage j) st).pages.held i =
        (decide (i ≠ j) && st.pages.held i) := by
      unfold ifHeld giveUp
      by_cases hij : i = j
      · subst hij
        split_ifs with hheld <;> simp [hheld]
      · split_ifs <;> simp [hij]
    change (giveUpAll xpage entries (ifHeld j (giveUp xpage j) st)).pages.held i = _
    rw [ih, hstep]
    by_cases hij : i = j <;> simp [hij]

theorem nodup_completedPages (cbMaxPage cbMaxOfs cbSize : ℕ) (cb : ℕ → UInt8) (st : Filling) :
    (completedPages cbMaxPage cbMaxOfs cbSize cb st).Nodup := by
  have hord : InOrder ⟨0, st.curPage, st.curOfs, st.pages.mem, [], []⟩ := ⟨nodup_nil, nofun⟩
  exact (inOrder_doSbs hord (cbSize + 1)).nodup

theorem held_of_mem_completedPages {cbMaxPage cbMaxOfs cbSize : ℕ} {cb : ℕ → UInt8} {st : Filling}
    {i : ℕ} (hi : i ∈ completedPages cbMaxPage cbMaxOfs cbSize cb st) : st.pages.held i = true :=
  ((sparesAbsent_doSbs ⟨cb, cbSize, cbMaxPage, cbMaxOfs, st.pages.held⟩ (cbSize + 1)
    ⟨0, st.curPage, st.curOfs, st.pages.mem, [], []⟩).present i hi).resolve_left not_mem_nil

end

/-! ### The read of the compression block -/

section

variable {State : Type} (mapper : Mapper State) (geo : Geometry) (req : Request State)

theorem mem_grabEvents {event : Event} {j : ℕ} (hevent : event ∈ grabEvents geo req j) :
    event ∈ [.grab j, .unlock j, .release j] ∧ (entry geo req j).isSome = true := by
  unfold grabEvents at hevent
  cases hent : entry geo req j with
  | none => simp [hent] at hevent
  | some page =>
    simp only [hent, mem_append] at hevent
    refine ⟨?_, rfl⟩
    rcases hevent with hevent | hevent <;> split_ifs at hevent <;> simp_all

def readGathered (got : Gathered State) : GatherEnd → Outcome
  | .failed => failRead geo req (grabPages geo req) ((List.range got.bhs.length).map .getblk)
  | .clusters count =>
    let buffers :=
      (List.range got.bhs.length).map .getblk ++ (List.range got.bhs.length).map .brelse
    if (List.range got.bhs.length).all req.read then
      let (st, err) :=
        fillPages geo req count (fillBuffer geo req got.bhs) (grabPages geo req) (.ok ())
      finishRead geo req st buffers err
    else failRead geo req (grabPages geo req) buffers

/-- Assumes: memory for the arrays, and a page inside of the file. The read goes over the clusters
of one compression block. -/
theorem ntfsReadCompressedBlock_eq (hmemo : req.memory = true)
    (hin : ¬ geo.pagesBelow req.index req.iSize ≤ geo.xpage req.index) :
    ntfsReadCompressedBlock mapper geo req =
      (gather mapper geo req 0 (geo.startVcn req.index) 16 0 ⟨req.ni, none, []⟩).map fun found =>
        readGathered geo req found.1 found.2 := by
  unfold ntfsReadCompressedBlock
  rw [if_neg (by simp [hmemo]), if_neg hin, nrCbs_eq, readCbs]
  change (gather mapper geo req 0 (geo.startVcn req.index) 16 0 ⟨req.ni, none, []⟩).bind _ = _
  cases gather mapper geo req 0 (geo.startVcn req.index) 16 0 ⟨req.ni, none, []⟩ with
  | error why => rfl
  | ok found =>
    obtain ⟨got, ending⟩ := found
    cases ending with
    | failed => simp [Except.bind, Except.map, readGathered, range_eq_range', pure, Except.pure]
    | clusters count =>
      simp only [Except.bind, Except.map, readGathered, range_eq_range', nil_append]
      split_ifs <;> rfl

/-- How a read returns: without memory, with a page behind the end of the file, or after the loop
over the clusters of the compression block. -/
inductive Returns : Outcome → Prop
  | memory (hmemory : req.memory = false) :
      Returns ⟨grabbed geo req, [.unlock (geo.xpage req.index)], [], .error (.errno .enomem)⟩
  | outside (hmemory : req.memory = true)
      (houtside : geo.pagesBelow req.index req.iSize ≤ geo.xpage req.index) :
      Returns ⟨{ grabbed geo req with
          mem := update (grabbed geo req).mem (geo.xpage req.index) (zeroRange req.page.mem 0 4096)
          uptodate := update (grabbed geo req).uptodate (geo.xpage req.index) true },
        [.setUptodate (geo.xpage req.index), .unlock (geo.xpage req.index)], [], .ok ()⟩
  | gathered (hmemory : req.memory = true)
      (hinside : ¬ geo.pagesBelow req.index req.iSize ≤ geo.xpage req.index)
      {got : Gathered State} {ending : GatherEnd}
      (hgather : gather mapper geo req 0 (geo.startVcn req.index) 16 0 ⟨req.ni, none, []⟩ =
        .ok (got, ending)) :
      Returns (readGathered geo req got ending)

theorem returns_of_read {out : Outcome} (hread : ntfsReadCompressedBlock mapper geo req = .ok out) :
    Returns mapper geo req out := by
  by_cases hmemo : req.memory = true
  · by_cases hout : geo.pagesBelow req.index req.iSize ≤ geo.xpage req.index
    · unfold ntfsReadCompressedBlock at hread
      rw [if_neg (by simp [hmemo]), if_pos hout] at hread
      obtain rfl := Except.ok.inj hread
      exact .outside hmemo hout
    · rw [ntfsReadCompressedBlock_eq mapper geo req hmemo hout] at hread
      cases hgat : gather mapper geo req 0 (geo.startVcn req.index) 16 0 ⟨req.ni, none, []⟩ with
      | error why =>
        rw [hgat] at hread
        cases hread
      | ok found =>
        rw [hgat] at hread
        obtain rfl := Except.ok.inj hread
        exact .gathered hmemo hout hgat
  · unfold ntfsReadCompressedBlock at hread
    rw [if_pos (Bool.of_not_eq_true hmemo)] at hread
    obtain rfl := Except.ok.inj hread
    exact .memory (Bool.of_not_eq_true hmemo)

end

end AdvancedOs.Ntfs.CompressedReads
