import AdvancedOs.Ntfs.RunlistElements

/-!
# Extending the initialized size of an attribute

A write behind the initialized part of an attribute first brings the initialized size up to the
place it starts at. `ntfs_attr_extend_initialized` does so: it raises the size of the file if it has
to, reads and dirties the pages between the two sizes, and stores the new size in the attribute
record. Each of the record lookups and page reads can fail.

`extends_iff` says when the four sizes fit together again behind the call: always, but for a new
size within the last page below 2^63, where the end of the last page is not an `s64` and the
`BUG_ON` behind the page loop fires unless a step before it has failed.
-/

namespace AdvancedOs.Ntfs.InitializedSizes

open Foundation.SignedWords RunlistElements

/-! ### The driver -/

/-- The sizes in the record of an attribute. The value length of a resident one is both of them. -/
structure AttrRecord where
  nonResident : Bool
  dataSize : ℤ
  initializedSize : ℤ

/-- The sizes in the inode of an attribute, and its record. -/
structure AttrInode where
  initializedSize : ℤ
  iSize : ℤ
  allocatedSize : ℤ
  nonResident : Bool
  record : AttrRecord

/-- How the steps to the attribute record end: mapping the mft record, making a search context, and
the lookup. -/
structure Lookup where
  mapMftRecord : Except Errno Unit
  getSearchCtx : Bool
  attrLookup : Except Errno Unit

def Lookup.find (lookup : Lookup) : Except Errno Unit :=
  match lookup.mapMftRecord with
  | .error why => .error why
  | .ok () =>
    if lookup.getSearchCtx then
      match lookup.attrLookup with
      | .error why => .error (if why = .enoent then .eio else why)
      | .ok () => .ok ()
    else .error .enomem

/-- The two lookups of a call and the pages it reads, each with its `PageError`. -/
structure Machine where
  first : Lookup
  last : Lookup
  readPage : ℕ → Except Errno Bool

variable (machine : Machine) (ni : AttrInode) (newInitSize : ℤ)

def extendResident : Except Failure Unit × AttrInode :=
  if ni.initializedSize ≠ ni.iSize then (.error .bug, ni)
  else match machine.first.find with
    | .error why => (.error (.errno why), ni)
    | .ok () =>
      if ni.record.nonResident ∨ ni.iSize ≠ ni.record.dataSize then (.error .bug, ni)
      else (.ok (), { ni with
        initializedSize := newInitSize
        iSize := newInitSize
        record := ⟨false, newInitSize % 2 ^ 32, newInitSize % 2 ^ 32⟩ })

def extendFile : Except Failure AttrInode :=
  if ni.iSize < newInitSize then
    match machine.first.find with
    | .error why => .error (.errno why)
    | .ok () =>
      if ni.record.nonResident = false ∨ ni.iSize ≠ ni.record.dataSize then .error .bug
      else .ok { ni with iSize := newInitSize, record.dataSize := newInitSize }
  else .ok ni

/-- One turn of the page loop gives the initialized size behind page `index`. -/
def initPage (index : ℕ) : Except Errno ℤ :=
  match machine.readPage index with
  | .error why => .error why
  | .ok true => .error .eio
  | .ok false => .ok (min (s64 ((index + 1) * 4096)) newInitSize)

/-- The page loop, with `left` turns behind the one for `index`. -/
def initPages : ℕ → ℕ → Except Errno ℤ
  | 0, index => initPage machine newInitSize index
  | left + 1, index =>
    match initPage machine newInitSize index with
    | .error why => .error why
    | .ok _ => initPages left (index + 1)

def firstPage : ℕ := (ni.initializedSize / 4096).toNat

/-- `end_index`, computed in an unsigned word. -/
def endIndex : ℕ := (u64 (newInitSize + 4095) / 4096).toNat

def extendNonResident : Except Failure Unit × AttrInode :=
  match extendFile machine ni newInitSize with
  | .error why => (.error why, ni)
  | .ok grown =>
    let index := firstPage ni
    -- At `init_err_out` the initialized size of the inode is set back.
    let restored := { grown with initializedSize := ni.initializedSize }
    match initPages machine newInitSize (endIndex newInitSize - (index + 1)) index with
    | .error why => (.error (.errno why), restored)
    | .ok initializedSize =>
      let extended := { grown with initializedSize := initializedSize }
      if initializedSize ≠ newInitSize then (.error .bug, extended)
      else match machine.last.find with
        | .error why => (.error (.errno why), restored)
        | .ok () =>
          if grown.record.nonResident = false then (.error .bug, extended)
          else (.ok (), { extended with record.initializedSize := newInitSize })

def ntfsAttrExtendInitialized : Except Failure Unit × AttrInode :=
  if ni.allocatedSize < newInitSize then (.error .bug, ni)
  else if ni.nonResident then extendNonResident machine ni newInitSize
  else extendResident machine ni newInitSize

/-! ### Sizes that fit together -/

/-- The sizes of an attribute, each within the next. A resident attribute is initialized as a whole,
and lies in its mft record, whose lengths have 32 bits. -/
structure Sizes where
  initialized : ℤ
  data : ℤ
  allocated : ℤ
  nonResident : Bool
  nonneg : 0 ≤ initialized
  initialized_le : initialized ≤ data
  data_le : data ≤ allocated
  allocated_lt : allocated < 2 ^ 63
  resident : nonResident = false → initialized = data ∧ allocated < 2 ^ 32

def Sizes.inode (sizes : Sizes) : AttrInode :=
  ⟨sizes.initialized, sizes.data, sizes.allocated, sizes.nonResident,
    ⟨sizes.nonResident, sizes.data, sizes.initialized⟩⟩

variable (sizes : Sizes)

/-- What a call for `newInitSize` has to leave behind: sizes that fit together, and on success the
new initialized size. -/
def Extends (result : Except Failure Unit × AttrInode) : Prop :=
  result.1 ≠ .error .bug ∧ ∃ after : Sizes, result.2 = after.inode ∧ (result.1 = .ok () →
    after.initialized = newInitSize ∧ after.data = max sizes.data newInitSize)

def StopsAtFile : Prop := sizes.data < newInitSize ∧ machine.first.find ≠ .ok ()

def StopsAtPage : Prop := ∃ index : ℕ, sizes.initialized / 4096 ≤ index ∧
    index * 4096 < newInitSize ∧
  machine.readPage index ≠ .ok false

variable {machine newInitSize sizes}

theorem initPage_cases (machine : Machine) (newInitSize : ℤ) (index : ℕ) :
    ((∃ why, initPage machine newInitSize index = .error why) ∧
      machine.readPage index ≠ .ok false) ∨
    initPage machine newInitSize index = .ok (min (s64 ((index + 1) * 4096)) newInitSize) ∧
      machine.readPage index = .ok false := by
  unfold initPage
  rcases machine.readPage index with why | _ | _ <;> simp

/-- The page loop fails at a page, or ends with the end of its last page or the new size. -/
theorem initPages_cases (machine : Machine) (newInitSize : ℤ) (left index : ℕ) :
    ((∃ why, initPages machine newInitSize left index = .error why) ∧
      ∃ page, index ≤ page ∧ page < index + left + 1 ∧ machine.readPage page ≠ .ok false) ∨
    initPages machine newInitSize left index =
      .ok (min (s64 (((index + left : ℕ) + 1) * 4096)) newInitSize) ∧ ∀ page, index ≤ page →
      page < index + left + 1 → machine.readPage page = .ok false := by
  induction left generalizing index with
  | zero =>
    rcases initPage_cases machine newInitSize index with ⟨hfail, hpage⟩ | ⟨hends, hread⟩
    · exact .inl ⟨hfail, index, le_rfl, by omega, hpage⟩
    · refine .inr ⟨hends, fun page hlow hhigh => ?_⟩
      rwa [show page = index by omega]
  | succ left ih =>
    rw [initPages]
    rcases initPage_cases machine newInitSize index with ⟨⟨why, hfail⟩, hpage⟩ | ⟨hends, hread⟩
    · rw [hfail]
      exact .inl ⟨⟨why, rfl⟩, index, le_rfl, by omega, hpage⟩
    · rw [hends]
      rcases ih (index + 1) with ⟨hfail, page, hlow, hhigh, hpage⟩ | ⟨hrest, hpgs⟩
      · exact .inl ⟨hfail, page, by omega, by omega, hpage⟩
      · refine .inr ⟨?_, fun page hlow hhigh => ?_⟩
        · rw [show index + (left + 1) = index + 1 + left by omega]
          exact hrest
        · rcases hlow.eq_or_lt with rfl | hlt
          · exact hread
          · exact hpgs page hlt (by omega)

theorem endIndex_eq (hlow : 0 ≤ newInitSize) (hhigh : newInitSize < 2 ^ 63) :
    (endIndex newInitSize : ℤ) = (newInitSize + 4095) / 4096 := by
  rw [endIndex, u64_of_nonneg (by omega) (by omega)]
  omega

/-- Assumes: a new size that is an `s64`. The end of the last page is cut to the new size exactly if
it is an `s64` itself. -/
theorem lastPage_eq_iff (hlow : 0 ≤ newInitSize) (hhigh : newInitSize < 2 ^ 63) :
    min (s64 (endIndex newInitSize * 4096)) newInitSize = newInitSize ↔
      newInitSize ≤ 2 ^ 63 - 4096 := by
  rw [endIndex_eq hlow hhigh, min_eq_right_iff]
  by_cases hsm : newInitSize ≤ 2 ^ 63 - 4096
  · rw [s64_of_isS64 (by unfold IsS64; omega)]
    omega
  · rw [show (newInitSize + 4095) / 4096 * 4096 = 2 ^ 63 by omega,
      show s64 (2 ^ 63) = -2 ^ 63 from by decide]
    omega

/-- Assumes: a non-resident attribute. The file is raised to the new size unless the first lookup
fails. -/
theorem extendFile_cases (machine : Machine) (hkind : sizes.nonResident = true) (newInitSize : ℤ) :
    (StopsAtFile machine newInitSize sizes ∧
      ∃ why, extendFile machine sizes.inode newInitSize = .error (.errno why)) ∨
    ¬ StopsAtFile machine newInitSize sizes ∧ extendFile machine sizes.inode newInitSize =
      .ok ⟨sizes.initialized, max sizes.data newInitSize, sizes.allocated, true,
        ⟨true, max sizes.data newInitSize, sizes.initialized⟩⟩ := by
  unfold extendFile StopsAtFile Sizes.inode
  rw [hkind]
  dsimp only
  split_ifs with hgrows hfits
  · rcases machine.first.find with why | ⟨⟩
    · exact .inl ⟨⟨hgrows, by simp⟩, why, rfl⟩
    · exact absurd hfits (by simp)
  · rcases machine.first.find with why | ⟨⟩
    · exact .inl ⟨⟨hgrows, by simp⟩, why, rfl⟩
    · exact .inr ⟨by simp, by rw [max_eq_right hgrows.le]⟩
  · exact .inr ⟨fun h => hgrows h.1, by rw [max_eq_left (not_lt.mp hgrows)]⟩

theorem extendResident_extends (hkind : sizes.nonResident = false)
    (hold : sizes.initialized < newInitSize) (hnew : newInitSize ≤ sizes.allocated) :
    Extends newInitSize sizes (extendResident machine sizes.inode newInitSize) := by
  obtain ⟨hsame, hsm⟩ := sizes.resident hkind
  have hnn := sizes.nonneg
  have hmod : newInitSize % 2 ^ 32 = newInitSize := Int.emod_eq_of_lt (by omega) (by omega)
  unfold extendResident
  rw [if_neg (show ¬ sizes.inode.initializedSize ≠ sizes.inode.iSize from not_not.mpr hsame)]
  rcases machine.first.find with why | ⟨⟩
  · exact ⟨by simp, sizes, rfl, by simp⟩
  · dsimp only
    rw [if_neg (by simp [Sizes.inode, hkind]), hmod]
    refine ⟨by simp, ⟨newInitSize, newInitSize, sizes.allocated, false, by omega, le_rfl, hnew,
      sizes.allocated_lt, fun _ => ⟨rfl, hsm⟩⟩, ?_, fun _ => ⟨rfl, ?_⟩⟩
    · rw [Sizes.inode, hkind]
      rfl
    · rw [← hsame, max_eq_right hold.le]

/-- Assumes: a new initialized size between the present one and the allocated size. The sizes fit
together behind the call exactly if the attribute is resident, or the new size is not within the
last page below 2^63, or a step fails in front of the end of the page loop. -/
theorem extends_iff (hold : sizes.initialized < newInitSize)
    (hnew : newInitSize ≤ sizes.allocated) :
    Extends newInitSize sizes (ntfsAttrExtendInitialized machine sizes.inode newInitSize) ↔
      sizes.nonResident = false ∨ newInitSize ≤ 2 ^ 63 - 4096 ∨
        StopsAtFile machine newInitSize sizes ∨ StopsAtPage machine newInitSize sizes := by
  have hnonneg := sizes.nonneg
  have hword := sizes.allocated_lt
  unfold ntfsAttrExtendInitialized
  rw [if_neg (show ¬ sizes.inode.allocatedSize < newInitSize from not_lt.mpr hnew)]
  cases hkind : sizes.nonResident with
  | false =>
    rw [if_neg (by simp [Sizes.inode, hkind])]
    exact iff_of_true (extendResident_extends hkind hold hnew) (.inl rfl)
  | true =>
    rw [if_pos (show sizes.inode.nonResident = true from hkind), or_iff_right (by simp),
      extendNonResident]
    rcases extendFile_cases machine hkind newInitSize with ⟨hstop, why, herror⟩ | ⟨hfound, hgrown⟩
    · rw [herror]
      exact iff_of_true ⟨by simp, sizes, rfl, by simp⟩ (.inr (.inl hstop))
    · rw [hgrown]
      dsimp only
      have hrestored (why : Errno) : Extends newInitSize sizes (.error (.errno why),
          ⟨sizes.initialized, max sizes.data newInitSize, sizes.allocated, true,
            ⟨true, max sizes.data newInitSize, sizes.initialized⟩⟩) :=
        ⟨by simp, ⟨sizes.initialized, max sizes.data newInitSize, sizes.allocated, true, hnonneg,
          le_max_of_le_right hold.le, max_le sizes.data_le hnew, hword, nofun⟩, rfl, by simp⟩
      have hend := endIndex_eq (hnonneg.trans hold.le) (hnew.trans_lt hword)
      have hfirst : (firstPage sizes.inode : ℤ) = sizes.initialized / 4096 := by
        change ((sizes.initialized / 4096).toNat : ℤ) = _
        omega
      -- The loop has a page, since the new size lies behind the old one.
      have hindex : firstPage sizes.inode + (endIndex newInitSize - (firstPage sizes.inode + 1)) +
        1 =
          endIndex newInitSize := by omega
      have hpages := initPages_cases machine newInitSize
        (endIndex newInitSize - (firstPage sizes.inode + 1)) (firstPage sizes.inode)
      rw [← Nat.cast_add_one, hindex] at hpages
      rcases hpages with ⟨⟨why, hfails⟩, page, hlow, hhigh, hpage⟩ | ⟨hends, hread⟩
      · rw [hfails]
        exact iff_of_true (hrestored why) (.inr (.inr ⟨page, by omega, by omega, hpage⟩))
      · have hstops : ¬ (StopsAtFile machine newInitSize sizes ∨
            StopsAtPage machine newInitSize sizes) := by
          rintro (hfile | ⟨page, hlow, hhigh, hpage⟩)
          · exact hfound hfile
          · exact hpage (hread page (by omega) (by omega))
        rw [hends, or_iff_left hstops, ← lastPage_eq_iff (hnonneg.trans hold.le) (by omega)]
        dsimp only
        by_cases hlast : min (s64 (endIndex newInitSize * 4096)) newInitSize = newInitSize
        · rw [if_neg (not_not.mpr hlast), hlast]
          refine iff_of_true ?_ rfl
          rcases machine.last.find with why | ⟨⟩
          · exact hrestored why
          · dsimp only
            rw [if_neg (by simp)]
            exact ⟨by simp, ⟨newInitSize, max sizes.data newInitSize, sizes.allocated, true,
              hnonneg.trans hold.le, le_max_right _ _, max_le sizes.data_le hnew, hword, nofun⟩,
                rfl,
              fun _ => ⟨rfl, rfl⟩⟩
        · rw [if_pos hlast]
          exact iff_of_false (fun h => h.1 rfl) hlast

def sound : Machine := ⟨⟨.ok (), true, .ok ()⟩, ⟨.ok (), true, .ok ()⟩, fun _ => .ok false⟩

/-- A sparse attribute of clusters of 512 bytes that reaches up to the last of them below 2^63. -/
def lastClusters : Sizes := ⟨2 ^ 63 - 4096, 2 ^ 63 - 4096, 2 ^ 63 - 512, true, by decide, by decide,
  by decide, by decide, nofun⟩

def oneCluster : Sizes := ⟨0, 0, 512, true, by decide, by decide, by decide, by decide, nofun⟩

theorem extends_oneCluster :
    Extends 100 oneCluster (ntfsAttrExtendInitialized sound oneCluster.inode 100) :=
  (extends_iff (by decide) (by decide)).mpr (.inr (.inl (by decide)))

/-- The end of the last page is 2^63. -/
theorem not_extends_lastClusters : ¬ Extends (2 ^ 63 - 1024) lastClusters
    (ntfsAttrExtendInitialized sound lastClusters.inode (2 ^ 63 - 1024)) :=
  fun h => h.1 (by rfl)

end AdvancedOs.Ntfs.InitializedSizes
