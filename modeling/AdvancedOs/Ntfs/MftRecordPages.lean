import AdvancedOs.Ntfs.RunlistElements

/-!
# Where the records of the mft lie in the page cache

A record of the mft is reached through the page of `$MFT` that holds it. `map_mft_record_page` reads
a record and `ntfs_mft_record_format` lays out an empty one. Both work out the page of the record
and its place in the page, and both refuse a record behind the size of `$MFT`, each with a test of
its own for the last page.

The tests do not agree. The one of `map_mft_record_page` lets a record end where `$MFT` does, the
one of `ntfs_mft_record_format` does not, unless a page ends there, too; and a record number so
large that its place in bytes does not fit into 64 bits leads back to a record at the front.
`agrees_iff` says that these are the only records on which the functions differ from one another or
from the size of `$MFT`.
-/

namespace AdvancedOs.Ntfs.MftRecordPages

open Foundation.SignedWords RunlistElements

/-! ### The driver -/

/-- The size of `$MFT` and the sizes of its records and of a page. A record is not longer than a
page: other volumes are not mounted. -/
structure Mft where
  mftRecordSizeBits : ℕ
  pageCacheShift : ℕ
  iSize : ℕ
  bits_le : mftRecordSizeBits ≤ pageCacheShift
  pageCacheShift_lt : pageCacheShift < 31
  iSize_lt : iSize < 2 ^ 63

variable (mft : Mft)

def Mft.mftRecordSize : ℕ := 2 ^ mft.mftRecordSizeBits

def Mft.pageCacheSize : ℕ := 2 ^ mft.pageCacheShift

/-- Where `map_mft_record_page` looks for a record: the page and the place in the page. The record
number is an `unsigned long`. -/
def Mft.mapPlace (mftNo : ℕ) : Except Errno (ℕ × ℕ) :=
  let start := mftNo * mft.mftRecordSize % 2 ^ 64
  let index := start / mft.pageCacheSize
  let ofs := start % mft.pageCacheSize
  let endIndex := mft.iSize / mft.pageCacheSize
  if endIndex ≤ index ∧ (endIndex < index ∨
      mft.iSize % mft.pageCacheSize < ofs + mft.mftRecordSize) then .error .enoent
  else .ok (index, ofs)

/-- `map_mft_record_page`, with the result of `ntfs_map_page` and the test for the magic number
`FILE`. -/
def mapMftRecordPage {Page : Type} (mapPage : ℕ → Except Errno Page) (isMftRecord : Page → ℕ → Bool)
    (mftNo : ℕ) : Except Errno (Page × ℕ) := do
  let (index, ofs) ← mft.mapPlace mftNo
  let page ← mapPage index
  if isMftRecord page ofs then .ok (page, ofs) else .error .eio

/-- Where `ntfs_mft_record_format` looks for a record. The record number is an `s64`, and the page
number is not signed. -/
def Mft.formatPlace (mftNo : ℕ) : Except Errno (ℕ × ℕ) :=
  let start := s64 (mftNo * mft.mftRecordSize)
  let index := (u64 (start / mft.pageCacheSize)).toNat
  let ofs := (start % mft.pageCacheSize).toNat
  let endIndex := mft.iSize / mft.pageCacheSize
  if endIndex ≤ index ∧ (endIndex < index ∨
      mft.iSize % mft.pageCacheSize ≤ ofs + mft.mftRecordSize) then .error .enoent
  else .ok (index, ofs)

/-- `ntfs_mft_record_format`, with the results of `ntfs_map_page` and of `ntfs_mft_record_layout`,
which overwrites the record. -/
def ntfsMftRecordFormat {Page : Type} (mapPage : ℕ → Except Errno Page)
    (layout : ℕ → Page → ℕ → Except Errno Page) (mftNo : ℕ) : Except Errno (ℕ × Page) := do
  let (index, ofs) ← mft.formatPlace mftNo
  let page ← mapPage index
  let page ← layout mftNo page ofs
  return (index, page)

/-! ### The records that exist -/

/-- The record is found inside `$MFT`. -/
def Finds (place : Except Errno (ℕ × ℕ)) : Prop := place ≠ .error .enoent

/-- Both functions find the record exactly if it ends inside the whole records of `$MFT`. -/
def Agrees (mftNo : ℕ) : Prop :=
  (Finds (mft.mapPlace mftNo) ↔
      (mftNo + 1) * mft.mftRecordSize ≤ mft.iSize / mft.mftRecordSize * mft.mftRecordSize) ∧
    (Finds (mft.formatPlace mftNo) ↔ Finds (mft.mapPlace mftNo))

/-- The record ends where `$MFT` does, in the middle of a page. -/
def EndsInPage (mftNo : ℕ) : Prop :=
  (mftNo + 1) * mft.mftRecordSize = mft.iSize ∧ mft.iSize % mft.pageCacheSize ≠ 0

/-- The place of the record does not fit into 64 bits, and what is left of it lies inside `$MFT`. -/
def Wraps (mftNo : ℕ) : Prop :=
  2 ^ 64 ≤ mftNo * mft.mftRecordSize ∧ mftNo * mft.mftRecordSize % 2 ^ 64 +
    mft.mftRecordSize ≤ mft.iSize

variable {mft} {mftNo start : ℕ}

theorem size_pos : 0 < mft.mftRecordSize := Nat.two_pow_pos _

theorem page_pos : 0 < mft.pageCacheSize := Nat.two_pow_pos _

theorem size_dvd_page : mft.mftRecordSize ∣ mft.pageCacheSize := Nat.pow_dvd_pow 2 mft.bits_le

theorem ofs_add_le (hst : mft.mftRecordSize ∣ start) :
    start % mft.pageCacheSize + mft.mftRecordSize ≤ mft.pageCacheSize := by
  obtain ⟨count, hcnt⟩ := (Nat.dvd_mod_iff size_dvd_page).mpr hst
  obtain ⟨all, hall⟩ := @size_dvd_page mft
  have hlt := Nat.mod_lt start (@page_pos mft)
  rw [hcnt, hall] at hlt ⊢
  have hle := Nat.lt_of_mul_lt_mul_left hlt
  calc mft.mftRecordSize * count + mft.mftRecordSize = mft.mftRecordSize * (count + 1) := by ring
    _ ≤ mft.mftRecordSize * all := Nat.mul_le_mul_left _ hle

/-- The test of the last page, for a record that may end where `$MFT` does, or only if a page ends
there, too. -/
theorem lastPage_iff (hst : mft.mftRecordSize ∣ start) :
    (¬ (mft.iSize / mft.pageCacheSize ≤ start / mft.pageCacheSize ∧
        (mft.iSize / mft.pageCacheSize < start / mft.pageCacheSize ∨ mft.iSize % mft.pageCacheSize <
          start % mft.pageCacheSize + mft.mftRecordSize)) ↔ start + mft.mftRecordSize ≤ mft.iSize) ∧
      (¬ (mft.iSize / mft.pageCacheSize ≤ start / mft.pageCacheSize ∧
        (mft.iSize / mft.pageCacheSize < start / mft.pageCacheSize ∨ mft.iSize % mft.pageCacheSize ≤
          start % mft.pageCacheSize + mft.mftRecordSize)) ↔ start + mft.mftRecordSize ≤ mft.iSize ∧
            (start + mft.mftRecordSize = mft.iSize → mft.iSize % mft.pageCacheSize = 0)) := by
  have hofs := ofs_add_le hst
  have hpos := @size_pos mft
  have hstartEq := Nat.div_add_mod start mft.pageCacheSize
  have hsizeEq := Nat.div_add_mod mft.iSize mft.pageCacheSize
  have hlt := Nat.mod_lt mft.iSize (@page_pos mft)
  rcases Nat.lt_trichotomy (start / mft.pageCacheSize) (mft.iSize / mft.pageCacheSize) with
    hbel | hsame | hbeh
  · have hpgs := Nat.mul_le_mul_left mft.pageCacheSize hbel
    rw [Nat.mul_succ] at hpgs
    constructor <;> constructor <;> intro <;> omega
  · rw [hsame] at hstartEq ⊢
    constructor <;> constructor <;> intro <;> omega
  · have hpgs := Nat.mul_le_mul_left mft.pageCacheSize hbeh
    rw [Nat.mul_succ] at hpgs
    constructor <;> constructor <;> intro <;> omega

theorem finds_ite {guard : Prop} [Decidable guard] {place : ℕ × ℕ} :
    Finds (if guard then .error .enoent else .ok place) ↔ ¬ guard := by
  by_cases hguard : guard <;> simp [Finds, hguard]

theorem dvd_start (mft : Mft) (mftNo : ℕ) :
    mft.mftRecordSize ∣ mftNo * mft.mftRecordSize % 2 ^ 64 := by
  have hbits := mft.bits_le
  have hshift := mft.pageCacheShift_lt
  exact (Nat.dvd_mod_iff (Nat.pow_dvd_pow 2 (by omega))).mpr (Nat.dvd_mul_left _ _)

theorem finds_mapPlace (mft : Mft) (mftNo : ℕ) : Finds (mft.mapPlace mftNo) ↔
    mftNo * mft.mftRecordSize % 2 ^ 64 + mft.mftRecordSize ≤ mft.iSize :=
  finds_ite.trans (lastPage_iff (dvd_start mft mftNo)).1

theorem finds_formatPlace (mft : Mft) (mftNo : ℕ) : Finds (mft.formatPlace mftNo) ↔
    mftNo * mft.mftRecordSize % 2 ^ 64 + mft.mftRecordSize ≤ mft.iSize ∧
      (mftNo * mft.mftRecordSize % 2 ^ 64 + mft.mftRecordSize = mft.iSize →
      mft.iSize % mft.pageCacheSize = 0) := by
  have hlt := mft.iSize_lt
  have hpage : (1 : ℤ) ≤ mft.pageCacheSize := by exact_mod_cast @page_pos mft
  have hword := isS64_s64 (mftNo * mft.mftRecordSize)
  obtain ⟨k, hk⟩ := exists_s64_eq (mftNo * mft.mftRecordSize)
  unfold IsS64 at hword
  unfold Mft.formatPlace
  rw [finds_ite]
  rcases Int.lt_or_le (s64 (mftNo * mft.mftRecordSize)) 0 with hneg | hnn
  · -- A negative word is a page number behind every page.
    have hlow : -2 ^ 63 ≤ s64 (mftNo * mft.mftRecordSize) / mft.pageCacheSize := by
      refine (Int.le_ediv_iff_mul_le (by omega)).mpr (le_trans ?_ hword.1)
      nlinarith
    have hhigh := Int.ediv_neg_of_neg_of_pos hneg (show (0 : ℤ) < mft.pageCacheSize by omega)
    have hend := Nat.div_le_self mft.iSize mft.pageCacheSize
    have hidx : 2 ^ 63 ≤ (u64 (s64 (mftNo * mft.mftRecordSize) / mft.pageCacheSize)).toNat := by
      unfold u64
      omega
    have hst : 2 ^ 63 ≤ mftNo * mft.mftRecordSize % 2 ^ 64 := by omega
    exact iff_of_false (fun hnot => hnot ⟨by omega, .inl (by omega)⟩) fun hin => by omega
  · have hst : s64 (mftNo * mft.mftRecordSize) = (mftNo * mft.mftRecordSize % 2 ^ 64 : ℕ) := by
      push_cast
      omega
    have hquo : mftNo * mft.mftRecordSize % 2 ^ 64 / mft.pageCacheSize < 2 ^ 64 :=
      (Nat.div_le_self _ _).trans_lt (Nat.mod_lt _ (by decide))
    rw [hst, ← Int.natCast_ediv, ← Int.natCast_emod, Int.toNat_natCast,
      u64_of_nonneg (Int.natCast_nonneg _) (by exact_mod_cast hquo), Int.toNat_natCast]
    exact (lastPage_iff (dvd_start mft mftNo)).2

theorem whole_records_iff (mft : Mft) (mftNo : ℕ) :
    (mftNo + 1) * mft.mftRecordSize ≤ mft.iSize / mft.mftRecordSize * mft.mftRecordSize ↔
      mftNo * mft.mftRecordSize + mft.mftRecordSize ≤ mft.iSize := by
  rw [Nat.mul_le_mul_right_iff size_pos, Nat.le_div_iff_mul_le size_pos, Nat.succ_mul]

/-- The functions find the records that `$MFT` has, and no others, except for a record that ends
with `$MFT` in the middle of a page and for a record number that leads back to the front. -/
theorem agrees_iff (mft : Mft) (mftNo : ℕ) :
    Agrees mft mftNo ↔ ¬ EndsInPage mft mftNo ∧ ¬ Wraps mft mftNo := by
  have hlt := mft.iSize_lt
  rw [Agrees, EndsInPage, Wraps, finds_mapPlace, finds_formatPlace, whole_records_iff, Nat.succ_mul]
  constructor
  · rintro ⟨hmap, hformat⟩
    refine ⟨fun ⟨hends, hpage⟩ => ?_, fun ⟨hwraps, hinside⟩ => ?_⟩
    · have hstart : mftNo * mft.mftRecordSize % 2 ^ 64 = mftNo * mft.mftRecordSize :=
        Nat.mod_eq_of_lt (by omega)
      rw [hstart] at hformat
      exact hpage ((hformat.mpr hends.le).2 hends)
    · have hbelow := hmap.mp hinside
      omega
  · rintro ⟨hends, hwraps⟩
    rcases Nat.lt_or_ge (mftNo * mft.mftRecordSize) (2 ^ 64) with hfits | hbig
    · rw [Nat.mod_eq_of_lt hfits]
      exact ⟨Iff.rfl, and_iff_left fun heq => not_not.mp fun hpage => hends ⟨heq, hpage⟩⟩
    · have hnot := fun hinside => hwraps ⟨hbig, hinside⟩
      exact ⟨iff_of_false hnot (by omega), iff_of_false (fun h => hnot h.1) hnot⟩

/-- Records of 1024 bytes in pages of 4096 bytes, five of them in `$MFT`. -/
def fiveRecords : Mft := ⟨10, 12, 5 * 1024, by decide, by decide, by decide⟩

/-- The last of five records can be mapped, but not formatted. -/
theorem not_agrees_fiveRecords : ¬ Agrees fiveRecords 4 := by
  have hmap : fiveRecords.mapPlace 4 = .ok (1, 0) := by decide
  have hformat : fiveRecords.formatPlace 4 = .error .enoent := by decide
  rw [Agrees, hmap, hformat]
  intro hagrees
  exact hagrees.2.mpr (by simp [Finds]) rfl

end AdvancedOs.Ntfs.MftRecordPages
