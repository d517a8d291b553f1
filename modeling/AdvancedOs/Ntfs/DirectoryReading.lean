import AdvancedOs.Foundation.StepRuns
import AdvancedOs.Ntfs.IndexNodes
import AdvancedOs.Ntfs.NameCollation

/-!
# Reading a directory

`ntfs_readdir` lists the entries of a directory: those of the index root, and then those of the
index blocks that are in use by the index bitmap. It hands them to the callback of its caller until
the callback has had enough. What remains is in the position of the file: an offset in the index
root below the size of an mft record, and from there on a position in the index allocation. A call
that starts at such a position goes through the node again and skips the entries before it.

`step` is one round of one of the three loops, over the entries of the root, over the bits of the
bitmap, and over the entries of an index block.
-/

namespace AdvancedOs.Ntfs.DirectoryReading

open Foundation.SignedWords Foundation.StepRuns RunlistElements IndexNodes NameCollation

/-! ### Directories and their readers -/

/-- What the driver reads from an index entry of a directory: the name with its namespace, the mft
reference of the file, and whether it is a directory. -/
structure ListedName where
  name : Name
  nameType : UInt8
  indexedFile : UInt64
  isDirectory : Bool
deriving DecidableEq

/-- The index bitmap: its size in bytes, and the bits of its pages. -/
structure IndexBitmap where
  size : ℕ
  mapPage : ℤ → Except Errno (ℕ → Bool)

/-- The directory and its volume. A directory has fewer than `2 ^ 60` bytes: the numbers of its bits
fit into an `s64`. -/
structure Directory where
  ino : ℕ
  parentIno : ℕ
  iSize : ℕ
  mftRecordSize : ℕ
  blockSizeBits : ℕ
  vcnSizeBits : ℕ
  indexAllocPresent : Bool
  showSystemFiles : Bool
  ntfsUcstonls : Name → Option (List UInt8)
  nameBuffer : Bool
  mapMftRecord : Except Errno Unit
  getSearchCtx : Bool
  lookupRoot : Except Errno (IndexHeader ListedName)
  rootBuffer : Bool
  bitmap : Except Errno IndexBitmap
  mapPage : ℤ → Except Errno (Page ListedName)
  iSize_lt : iSize < 2 ^ 60

/-- What the callback gets for an entry. -/
structure Dirent where
  name : List UInt8
  fpos : ℤ
  ino : ℕ
  isDirectory : Bool
deriving DecidableEq

/-- The position, how many entries the callback will still take if not all, the entries it has
taken, and the numbers of the index blocks that have been parsed. -/
structure Reader where
  fpos : ℤ
  budget : Option ℕ
  listed : List Dirent
  parsed : List ℤ
deriving DecidableEq

/-- The callback is called with an entry; `none` if it does not take it. -/
def Reader.filldir (reader : Reader) (dirent : Dirent) : Option Reader :=
  match reader.budget with
  | none => some { reader with listed := reader.listed ++ [dirent] }
  | some 0 => none
  | some (budget + 1) =>
    some { reader with budget := some budget, listed := reader.listed ++ [dirent] }

def fileRoot : ℕ := 5

def fileFirstUser : ℕ := 16

def fileNameDos : UInt8 := 2

def mref (reference : UInt64) : ℕ := reference.toNat % 2 ^ 48

def rootHeaderSize : ℕ := 0x10

def pageBits : ℕ := pageSize * 8

section

variable (dir : Directory)

def Directory.blockSize : ℕ := 2 ^ dir.blockSizeBits

/-- What the callback gets for an index entry, or `none` for one that is skipped. -/
def Directory.dirent (fpos : ℤ) (ie : IndexEntry ListedName) : Option Dirent :=
  if ie.content.nameType = fileNameDos then none
  else if mref ie.content.indexedFile = fileRoot then none
  else if mref ie.content.indexedFile < fileFirstUser ∧ dir.showSystemFiles = false then none
  else (dir.ntfsUcstonls ie.content.name).map fun name =>
    ⟨name, fpos, mref ie.content.indexedFile, ie.content.isDirectory⟩

def ntfsFilldir (reader : Reader) (ie : IndexEntry ListedName) : Option Reader :=
  match dir.dirent reader.fpos ie with
  | none => some reader
  | some dirent => reader.filldir dirent

/-- Where a call is: in the index root, before the test of a bit of the bitmap, or in an index
block. The position `bit` is `bmp_pos + cur_bmp_pos`, and `cache` is the page of the index
allocation that is mapped, with the position for which it has been. -/
inductive Place
  | root (index : IndexHeader ListedName) (irPos : ℤ) (offset : ℕ)
  | bitmap (bitmap : IndexBitmap) (bmp : ℕ → Bool) (bit : ℕ) (iaPos : ℤ)
      (cache : Option (ℤ × Page ListedName))
  | block (bitmap : IndexBitmap) (bmp : ℕ → Bool) (bit : ℕ) (iaPos : ℤ)
      (cache : Option (ℤ × Page ListedName)) (ia : IndexBlock ListedName) (offset : ℕ)

structure State where
  reader : Reader
  place : Place

/-- How a call ends. The position is saved in any case. -/
structure Outcome where
  reader : Reader
  result : Except Errno Unit

def endOfDirectory (reader : Reader) : State ⊕ Outcome :=
  .inr ⟨{ reader with fpos := dir.iSize + dir.mftRecordSize }, .ok ()⟩

/-- The label `skip_index_root`, up to the first bit. -/
def startBlocks (reader : Reader) : State ⊕ Outcome :=
  let iaPos := reader.fpos - dir.mftRecordSize
  match dir.bitmap with
  | .error code => .inr ⟨reader, .error code⟩
  | .ok bitmap =>
    let bit := iaPos / dir.blockSize
    if (bitmap.size : ℤ) ≤ bit / 8 then .inr ⟨reader, .error .eio⟩
    else match bitmap.mapPage (bit / pageBits) with
      | .error code => .inr ⟨reader, .error code⟩
      | .ok bmp => .inl ⟨reader, .bitmap bitmap bmp bit.toNat iaPos none⟩

/-- The label `find_next_index_buffer`. In the next page of the bitmap, neither is the end of the
directory looked for nor is the position in the index allocation set. -/
def findNextIndexBuffer (reader : Reader) (bitmap : IndexBitmap) (bmp : ℕ → Bool)
    (bit : ℕ) (iaPos : ℤ) (cache : Option (ℤ × Page ListedName)) : State ⊕ Outcome :=
  if (bit + 1) % pageBits = 0 then
    match bitmap.mapPage (s64 (bit + 1) / pageBits) with
    | .error code => .inr ⟨reader, .error code⟩
    | .ok bmp => .inl ⟨reader, .bitmap bitmap bmp (bit + 1) iaPos cache⟩
  else if (dir.iSize : ℤ) ≤ s64 (bit + 1) / 8 then endOfDirectory dir reader
  else .inl ⟨reader, .bitmap bitmap bmp (bit + 1) (s64 ((bit + 1) * 2 ^ dir.blockSizeBits)) cache⟩

/-- The page with a position of the index allocation: the one that is mapped, if it is in there. -/
def pageFor (iaPos : ℤ) (cache : Option (ℤ × Page ListedName)) :
    Except Errno (ℤ × Page ListedName) :=
  match cache with
  | some (prevIaPos, page) =>
    if prevIaPos / pageSize = iaPos / pageSize then .ok (prevIaPos, page)
    else (dir.mapPage (iaPos / pageSize)).map fun page => (iaPos, page)
  | none => (dir.mapPage (iaPos / pageSize)).map fun page => (iaPos, page)

def Directory.iaStart (iaPos : ℤ) : ℤ := iaPos / dir.blockSize * dir.blockSize

def Directory.blockAt (iaPos : ℤ) (page : Page ListedName) : IndexBlock ListedName :=
  page (iaPos % pageSize / dir.blockSize * dir.blockSize).toNat

def Directory.Accepts (iaPos : ℤ) (ia : IndexBlock ListedName) : Prop :=
  ia.isIndx = true ∧ ia.indexBlockVcn = dir.iaStart iaPos / 2 ^ dir.vcnSizeBits ∧
    (ia.index.allocatedSize + blockHeaderSize) % 2 ^ 32 = dir.blockSize ∧
    iaPos % pageSize / dir.blockSize * dir.blockSize + dir.blockSize ≤ pageSize ∧
    blockHeaderSize + ia.index.indexLength ≤ dir.blockSize

instance (iaPos : ℤ) (ia : IndexBlock ListedName) : Decidable (dir.Accepts iaPos ia) := by
  unfold Directory.Accepts
  infer_instance

/-- A bit that is set: the index block is entered. -/
def enterIndexBuffer (reader : Reader) (bitmap : IndexBitmap) (bmp : ℕ → Bool) (bit : ℕ) (iaPos : ℤ)
    (cache : Option (ℤ × Page ListedName)) : State ⊕ Outcome :=
  match pageFor dir iaPos cache with
  | .error code => .inr ⟨reader, .error code⟩
  | .ok (prevIaPos, page) =>
    let ia := dir.blockAt iaPos page
    let reader := { reader with parsed := reader.parsed ++ [dir.iaStart iaPos / dir.blockSize] }
    if dir.Accepts iaPos ia then
      .inl ⟨reader, .block bitmap bmp bit iaPos (some (prevIaPos, page)) ia ia.index.entriesOffset⟩
    else .inr ⟨reader, .error .eio⟩

def InBounds (index : IndexHeader ListedName) (offset : ℕ) : Prop :=
  offset + entryHeaderSize ≤ index.indexLength ∧
    offset + (index.entryAt offset).keyLength ≤ index.indexLength

instance (index : IndexHeader ListedName) (offset : ℕ) : Decidable (InBounds index offset) := by
  unfold InBounds
  infer_instance

def step (state : State) : State ⊕ Outcome :=
  let reader := state.reader
  match state.place with
  | .root index irPos offset =>
    let ie := index.entryAt offset
    if ¬ InBounds index offset then .inr ⟨reader, .error .eio⟩
    else if ie.isEnd = true then
      if dir.indexAllocPresent = false then endOfDirectory dir reader
      else startBlocks dir { reader with fpos := dir.mftRecordSize }
    else if irPos > rootHeaderSize + offset then
      .inl ⟨reader, .root index irPos (offset + ie.length)⟩
    else
      let reader := { reader with fpos := rootHeaderSize + offset }
      match ntfsFilldir dir reader ie with
      | none => .inr ⟨reader, .ok ()⟩
      | some reader => .inl ⟨reader, .root index irPos (offset + ie.length)⟩
  | .bitmap bitmap bmp bit iaPos cache =>
    if bmp (bit % pageBits) then enterIndexBuffer dir reader bitmap bmp bit iaPos cache
    else findNextIndexBuffer dir reader bitmap bmp bit iaPos cache
  | .block bitmap bmp bit iaPos cache ia offset =>
    let ie := ia.index.entryAt offset
    if ¬ InBounds ia.index offset then .inr ⟨reader, .error .eio⟩
    else if ie.isEnd = true then findNextIndexBuffer dir reader bitmap bmp bit iaPos cache
    else if iaPos - dir.iaStart iaPos > blockHeaderSize + offset then
      .inl ⟨reader, .block bitmap bmp bit iaPos cache ia (offset + ie.length)⟩
    else
      let fpos := s64
        (blockHeaderSize + offset + ia.indexBlockVcn * 2 ^ dir.vcnSizeBits + dir.mftRecordSize)
      let reader := { reader with fpos := fpos }
      match ntfsFilldir dir reader ie with
      | none => .inr ⟨reader, .ok ()⟩
      | some reader => .inl ⟨reader, .block bitmap bmp bit iaPos cache ia (offset + ie.length)⟩

/-- `ntfs_readdir` behind the entries for the directory itself and for its parent. -/
def startRoot (reader : Reader) : State ⊕ Outcome :=
  if dir.nameBuffer = false then .inr ⟨reader, .error .enomem⟩
  else if (dir.mftRecordSize : ℤ) ≤ reader.fpos then startBlocks dir reader
  else match dir.mapMftRecord with
    | .error code => .inr ⟨reader, .error code⟩
    | .ok () =>
      if dir.getSearchCtx = false then .inr ⟨reader, .error .enomem⟩
      else match dir.lookupRoot with
        | .error code => .inr ⟨reader, .error code⟩
        | .ok index =>
          if dir.rootBuffer = false then .inr ⟨reader, .error .enomem⟩
          else .inl ⟨reader, .root index (Int.bmod reader.fpos (2 ^ 32)) index.entriesOffset⟩

def Directory.dot : Dirent := ⟨[46], 0, dir.ino, true⟩

def Directory.dotDot : Dirent := ⟨[46, 46], 1, dir.parentIno, true⟩

/-- `ntfs_readdir` from the entry for the parent on. -/
def startDotDot (reader : Reader) : State ⊕ Outcome :=
  if reader.fpos = 1 then
    match reader.filldir dir.dotDot with
    | none => .inr ⟨reader, .ok ()⟩
    | some reader => startRoot dir { reader with fpos := 2 }
  else startRoot dir reader

def start (reader : Reader) : State ⊕ Outcome :=
  if (dir.iSize : ℤ) + dir.mftRecordSize ≤ reader.fpos then .inr ⟨reader, .ok ()⟩
  else if reader.fpos = 0 then
    match reader.filldir dir.dot with
    | none => .inr ⟨reader, .ok ()⟩
    | some reader => startDotDot dir { reader with fpos := 1 }
  else startDotDot dir reader

/-- Embeds `ntfs_readdir`, called at a position with a callback that takes so many entries, with
fuel for its loops. -/
def ntfsReaddir (fuel : ℕ) (fpos : ℤ) (budget : Option ℕ) : Option Outcome :=
  match start dir ⟨fpos, budget, [], []⟩ with
  | .inr outcome => some outcome
  | .inl state => run (step dir) fuel state

/-! ### What is listed -/

/-- The entry stands in the index root or in a page of the index allocation. -/
def Directory.Stores (ie : IndexEntry ListedName) : Prop :=
  (∃ index offset, dir.lookupRoot = .ok index ∧ index.entryAt offset = ie) ∨
    ∃ number page place offset, dir.mapPage number = .ok page ∧
      (page place).index.entryAt offset = ie

/-- What a listing may show of an entry: no short name, not the root directory, and a file of the
system only if these are to be shown. -/
structure Directory.Shows (ie : IndexEntry ListedName) (dirent : Dirent) : Prop where
  stored : dir.Stores ie
  notDos : ie.content.nameType ≠ fileNameDos
  notRoot : mref ie.content.indexedFile ≠ fileRoot
  user : mref ie.content.indexedFile < fileFirstUser → dir.showSystemFiles = true
  name_eq : dir.ntfsUcstonls ie.content.name = some dirent.name
  ino_eq : dirent.ino = mref ie.content.indexedFile
  isDirectory_eq : dirent.isDirectory = ie.content.isDirectory

def FromCache (cache : Option (ℤ × Page ListedName)) : Prop :=
  ∀ mapped, cache = some mapped → ∃ number, dir.mapPage number = .ok mapped.2

/-- The node in which a call is has been read from the directory. -/
def Inside : Place → Prop
  | .root index _ _ => dir.lookupRoot = .ok index
  | .bitmap _ _ _ _ cache => FromCache dir cache
  | .block _ _ _ _ cache ia _ =>
    FromCache dir cache ∧ ∃ number page place, dir.mapPage number = .ok page ∧ page place = ia

variable {dir} {reader next : Reader}

variable {bitmap : IndexBitmap} {bmp : ℕ → Bool} {bit : ℕ} {iaPos : ℤ}
  {cache : Option (ℤ × Page ListedName)}

end

end AdvancedOs.Ntfs.DirectoryReading
