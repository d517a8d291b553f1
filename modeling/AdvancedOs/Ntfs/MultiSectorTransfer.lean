import AdvancedOs.Ntfs.RunlistElements

/-!
# Multi sector transfers

A record of several sectors is protected against a write that only reaches some of them. Before the
write the last word of every sector is saved in an array in the first sector, the update sequence
array, and replaced by a number that changes with every write. After a read the number must stand at
the end of every sector; the saved words are then put back.

`preWriteMstFixup`, `postWriteMstFixup` and `postReadMstFixup` are the loops of the driver over the
16-bit words of the buffer. What they do to the record as a whole is said by `protectedWith` and
`restored`: one saves the last words and writes the number, the other puts the words back, and it
undoes the first outside the array (`restored_protectedWith`), wherever the array is, as long as it
is apart from the header and from the ends of the sectors (`fixups_undone`). When the sectors of two
images with different numbers are mixed, the read accepts the mixture just when it is one of the two
(`postReadMstFixup_mixed`), so that a torn write is detected (`torn_write`).
-/

namespace AdvancedOs.Ntfs.MultiSectorTransfer

open RunlistElements (Errno)

/-! ### The driver -/

abbrev Record : Type := ℕ → UInt16

def ntfsBlockSize : ℕ := 512

def sectorWords : ℕ := 256

/-- The magic of a record whose sectors do not belong together. -/
def magicBaad : ℕ := 0x44414142

def magicHole : ℕ := 0x454c4f48

namespace Record

variable (b : Record)

def magic : ℕ := (b 0).toNat + 2 ^ 16 * (b 1).toNat

def usaOfs : ℕ := (b 2).toNat

/-- The field `usa_count` less one, as a 16-bit word: the number of fixups. -/
def usaCount : ℕ := (b 3 - 1).toNat

/-- The word at which the update sequence array starts, with the update sequence number. -/
def usaPos : ℕ := b.usaOfs / 2

def store (i : ℕ) (word : UInt16) : Record := Function.update b i word

def setMagic (magic : ℕ) : Record :=
  (b.store 0 (UInt16.ofNat magic)).store 1 (UInt16.ofNat (magic / 2 ^ 16))

def Checks (size : ℕ) : Prop :=
  size % ntfsBlockSize = 0 ∧ b.usaOfs % 2 = 0 ∧ b.usaOfs + b.usaCount * 2 ≤ size ∧
    size / ntfsBlockSize = b.usaCount

instance (size : ℕ) : Decidable (b.Checks size) := by
  unfold Checks
  infer_instance

end Record

/-- The loop that looks for incomplete transfers: the number stands at the end of every sector. -/
def checkLoop (b : Record) (usn : UInt16) : ℕ → ℕ → Bool
  | 0, _ => true
  | usaCount + 1, dataPos =>
    if b dataPos ≠ usn then false else checkLoop b usn usaCount (dataPos + sectorWords)

def restoreLoop : ℕ → Record → ℕ → ℕ → Record
  | 0, b, _, _ => b
  | usaCount + 1, b, usaPos, dataPos =>
    restoreLoop usaCount (b.store dataPos (b (usaPos + 1))) (usaPos + 1) (dataPos + sectorWords)

def protectLoop (usn : UInt16) : ℕ → Record → ℕ → ℕ → Record
  | 0, b, _, _ => b
  | usaCount + 1, b, usaPos, dataPos =>
    protectLoop usn usaCount ((b.store (usaPos + 1) (b dataPos)).store dataPos usn) (usaPos + 1)
      (dataPos + sectorWords)

def postReadMstFixup (b : Record) (size : ℕ) : Except Errno Unit × Record :=
  if ¬ b.Checks size then (.ok (), b)
  else if checkLoop b (b b.usaPos) b.usaCount (sectorWords - 1) = false then
    (.error .einval, b.setMagic magicBaad)
  else (.ok (), restoreLoop b.usaCount b b.usaPos (sectorWords - 1))

def nextUsn (usn : UInt16) : UInt16 := if usn + 1 = 0xffff ∨ usn + 1 = 0 then 1 else usn + 1

def preWriteMstFixup (b : Record) (size : ℕ) : Except Errno Unit × Record :=
  if b.magic = magicBaad ∨ b.magic = magicHole then (.error .einval, b)
  else if ¬ b.Checks size then (.error .einval, b)
  else
    let usn := nextUsn (b b.usaPos)
    (.ok (), protectLoop usn b.usaCount (b.store b.usaPos usn) b.usaPos (sectorWords - 1))

def postWriteMstFixup (b : Record) : Record :=
  restoreLoop b.usaCount b b.usaPos (sectorWords - 1)

/-! ### What the loops do to a record -/

/-- The word is the last of one of `count` sectors. -/
def IsTail (count i : ℕ) : Prop := i % sectorWords = sectorWords - 1 ∧ i / sectorWords < count

instance (count i : ℕ) : Decidable (IsTail count i) := by
  unfold IsTail
  infer_instance

/-- The record with the last words of its sectors in the array behind `pos`, and the number in their
place and at `pos`. -/
def protectedWith (pos count : ℕ) (usn : UInt16) (b : Record) : Record := fun i =>
  if IsTail count i ∨ i = pos then usn
  else if pos < i ∧ i ≤ pos + count then b (sectorWords * (i - pos - 1) + (sectorWords - 1))
  else b i

/-- The record with the words of the array behind `pos` at the end of its sectors. -/
def restored (pos count : ℕ) (b : Record) : Record := fun i =>
  if IsTail count i then b (pos + 1 + i / sectorWords) else b i

/-- The word lies at a multiple of the sector size behind `dataPos`, fewer than `count` sectors
away. -/
def Reaches (dataPos count i : ℕ) : Prop :=
  dataPos ≤ i ∧ (i - dataPos) % sectorWords = 0 ∧ (i - dataPos) / sectorWords < count

theorem reaches_iff_isTail (count i : ℕ) : Reaches (sectorWords - 1) count i ↔ IsTail count i := by
  unfold Reaches IsTail sectorWords
  omega

theorem reaches_succ_iff (dataPos count i : ℕ) :
    Reaches dataPos (count + 1) i ↔ i = dataPos ∨ Reaches (dataPos + sectorWords) count i := by
  unfold Reaches sectorWords
  omega

@[simp] theorem store_self (b : Record) (i : ℕ) (word : UInt16) : b.store i word i = word :=
  Function.update_self ..

variable {i count dataPos usaPos pos size : ℕ} {b image : Record}

theorem store_of_ne (b : Record) {other : ℕ} (word : UInt16) (hne : other ≠ i) :
    b.store i word other = b other := Function.update_of_ne hne ..

theorem checkLoop_eq_true_iff (b : Record) (usn : UInt16) (count dataPos : ℕ) :
    checkLoop b usn count dataPos = true ↔ ∀ i, Reaches dataPos count i → b i = usn := by
  induction count generalizing dataPos with
  | zero => exact iff_of_true rfl fun i hrch => absurd hrch.2.2 (Nat.not_lt_zero _)
  | succ count ih =>
    simp only [checkLoop, reaches_succ_iff]
    split_ifs with hword
    · exact iff_of_false not_false fun hall => hword (hall dataPos (.inl rfl))
    · rw [ih]
      refine ⟨fun hall i hrch => ?_, fun hall i hrch => hall i (.inr hrch)⟩
      rcases hrch with rfl | hrch
      · exact not_not.mp hword
      · exact hall i hrch

theorem restoreLoop_of_not_reaches (b : Record) (usaPos : ℕ) (hnot : ¬ Reaches dataPos count i) :
    restoreLoop count b usaPos dataPos i = b i := by
  induction count generalizing b usaPos dataPos with
  | zero => rfl
  | succ count ih =>
    rw [reaches_succ_iff, not_or] at hnot
    rw [restoreLoop, ih _ _ hnot.2, store_of_ne _ _ hnot.1]

/-- None of the words behind `usaPos`, `count` of them, is the end of a sector that is reached. -/
def Apart (usaPos dataPos count : ℕ) : Prop :=
  ∀ i, usaPos < i → i ≤ usaPos + count → ¬ Reaches dataPos count i

theorem Apart.ne (hap : Apart usaPos dataPos (count + 1)) (hlow : usaPos < i)
    (hhigh : i ≤ usaPos + (count + 1)) : i ≠ dataPos := by
  rintro rfl
  exact hap i hlow hhigh ((reaches_succ_iff i count i).mpr (.inl rfl))

theorem Apart.next (hap : Apart usaPos dataPos (count + 1)) :
    Apart (usaPos + 1) (dataPos + sectorWords) count := fun i hlow hhigh hrch =>
  hap i (by omega) (by omega) ((reaches_succ_iff dataPos count i).mpr (.inr hrch))

theorem restoreLoop_of_reaches (b : Record) (hap : Apart usaPos dataPos count)
    (hrch : Reaches dataPos count i) : restoreLoop count b usaPos dataPos i =
      b (usaPos + 1 + (i - dataPos) / sectorWords) := by
  induction count generalizing b usaPos dataPos with
  | zero => exact absurd hrch.2.2 (Nat.not_lt_zero _)
  | succ count ih =>
    rw [restoreLoop]
    by_cases hlat : Reaches (dataPos + sectorWords) count i
    · have hidx : usaPos + 1 + 1 + (i - (dataPos + sectorWords)) / sectorWords =
          usaPos + 1 + (i - dataPos) / sectorWords := by
        unfold Reaches sectorWords at *
        omega
      have hne : usaPos + 1 + (i - dataPos) / sectorWords ≠ dataPos := by
        have hsector := hrch.2.2
        generalize (i - dataPos) / sectorWords = sector at hsector ⊢
        exact hap.ne (by omega) (by omega)
      rw [ih _ hap.next hlat, hidx, store_of_ne _ _ hne]
    · obtain rfl := ((reaches_succ_iff dataPos count i).mp hrch).resolve_right hlat
      rw [restoreLoop_of_not_reaches _ _ hlat, store_self, Nat.sub_self, Nat.zero_div, Nat.add_zero]

/-- No word of the array, from the number at `pos` on, is the last of a sector. -/
def UsaApart (pos count : ℕ) : Prop := ∀ i, pos ≤ i → i ≤ pos + count → ¬ IsTail count i

theorem UsaApart.apart (hap : UsaApart pos count) :
    Apart pos (sectorWords - 1) count := fun i hlow hhigh =>
  mt (reaches_iff_isTail count i).mp (hap i hlow.le hhigh)

theorem usaApart_of_lt (hpos : pos + count < sectorWords - 1) : UsaApart pos count := by
  intro i hlow hhigh htail
  unfold IsTail sectorWords at *
  omega

theorem restoreLoop_eq (b : Record) (hap : UsaApart pos count) :
    restoreLoop count b pos (sectorWords - 1) = restored pos count b := by
  funext i
  unfold restored
  split_ifs with htail
  · have hidx : (i - (sectorWords - 1)) / sectorWords = i / sectorWords := by
      unfold IsTail sectorWords at *
      omega
    rw [restoreLoop_of_reaches b hap.apart ((reaches_iff_isTail count i).mpr htail), hidx]
  · exact restoreLoop_of_not_reaches b pos (mt (reaches_iff_isTail count i).mp htail)

theorem protectLoop_elsewhere (usn : UInt16) (b : Record) (hnot : ¬ Reaches dataPos count i)
    (hout : ¬ (usaPos < i ∧ i ≤ usaPos + count)) :
    protectLoop usn count b usaPos dataPos i = b i := by
  induction count generalizing b usaPos dataPos with
  | zero => rfl
  | succ count ih =>
    rw [reaches_succ_iff, not_or] at hnot
    rw [protectLoop, ih _ hnot.2 (by omega), store_of_ne _ _ hnot.1, store_of_ne _ _ (by omega)]

theorem protectLoop_of_reaches (usn : UInt16) (b : Record) (hap : Apart usaPos dataPos count)
    (hrch : Reaches dataPos count i) : protectLoop usn count b usaPos dataPos i = usn := by
  induction count generalizing b usaPos dataPos with
  | zero => exact absurd hrch.2.2 (Nat.not_lt_zero _)
  | succ count ih =>
    rw [protectLoop]
    by_cases hlat : Reaches (dataPos + sectorWords) count i
    · exact ih _ hap.next hlat
    · have hout : ¬ (usaPos + 1 < i ∧ i ≤ usaPos + 1 + count) := fun hin =>
        hap i (by omega) (by omega) hrch
      obtain rfl := ((reaches_succ_iff dataPos count i).mp hrch).resolve_right hlat
      rw [protectLoop_elsewhere usn _ hlat hout, store_self]

theorem protectLoop_saved (usn : UInt16) (b : Record) (hap : Apart usaPos dataPos count)
    (hlow : usaPos < i) (hhigh : i ≤ usaPos + count) :
    protectLoop usn count b usaPos dataPos i = b (dataPos + sectorWords * (i - usaPos - 1)) := by
  induction count generalizing b usaPos dataPos with
  | zero => omega
  | succ count ih =>
    rw [protectLoop]
    by_cases hfst : i = usaPos + 1
    · have hnot : ¬ Reaches (dataPos + sectorWords) count i := fun hrch =>
        hap i hlow hhigh ((reaches_succ_iff dataPos count i).mpr (.inr hrch))
      have hne := hap.ne hlow hhigh
      have hidx : i - usaPos - 1 = 0 := by omega
      rw [protectLoop_elsewhere usn _ hnot (by omega), store_of_ne _ _ hne, hfst, store_self,
        ← hfst, hidx, Nat.mul_zero, Nat.add_zero]
    · -- The word comes from a later sector end, which is still as it was.
      have hidx : dataPos + sectorWords + sectorWords * (i - (usaPos + 1) - 1) =
          dataPos + sectorWords * (i - usaPos - 1) := by
        unfold sectorWords
        omega
      have hbeh : dataPos < dataPos + sectorWords * (i - usaPos - 1) := by
        unfold sectorWords
        omega
      have hend : dataPos + sectorWords * (i - usaPos - 1) ≠ usaPos + 1 := fun heq => by
        refine hap (usaPos + 1) (by omega) (by omega) ?_
        unfold Reaches sectorWords at *
        omega
      rw [ih _ hap.next (by omega) (by omega), hidx, store_of_ne _ _ hbeh.ne', store_of_ne _ _ hend]

theorem protectLoop_eq (b : Record) (usn : UInt16) (hap : UsaApart pos count) :
    protectLoop usn count (b.store pos usn) pos (sectorWords - 1) =
      protectedWith pos count usn b := by
  funext i
  unfold protectedWith
  by_cases htail : IsTail count i
  · rw [if_pos (.inl htail),
      protectLoop_of_reaches usn _ hap.apart ((reaches_iff_isTail count i).mpr htail)]
  have hnot := mt (reaches_iff_isTail count i).mp htail
  by_cases hpos : i = pos
  · rw [if_pos (.inr hpos), protectLoop_elsewhere usn _ hnot (by omega), hpos, store_self]
  rw [if_neg (not_or.mpr ⟨htail, hpos⟩)]
  split_ifs with hin
  · have hend : sectorWords - 1 + sectorWords * (i - pos - 1) ≠ pos := fun heq => by
      refine hap pos le_rfl (Nat.le_add_right _ _) ?_
      unfold IsTail sectorWords at *
      omega
    rw [protectLoop_saved usn _ hap.apart hin.1 hin.2, store_of_ne _ _ hend, Nat.add_comm]
  · rw [protectLoop_elsewhere usn _ hnot hin, store_of_ne _ _ hpos]

/-- Assumes: an array apart from the sector ends. Restoring a protected record gives it back outside
the array. -/
theorem restored_protectedWith (b : Record) (usn : UInt16) (hap : UsaApart pos count)
    (hout : ¬ (pos ≤ i ∧ i ≤ pos + count)) :
    restored pos count (protectedWith pos count usn b) i = b i := by
  unfold restored
  split_ifs with htail
  · obtain ⟨hlast, hsector⟩ := htail
    have hsaved : pos < pos + 1 + i / sectorWords ∧ pos + 1 + i / sectorWords ≤ pos + count := by
      generalize i / sectorWords = sector at hsector ⊢
      omega
    have hword : ¬ (IsTail count (pos + 1 + i / sectorWords) ∨ pos + 1 + i / sectorWords = pos) :=
      not_or.mpr ⟨hap _ hsaved.1.le hsaved.2, hsaved.1.ne'⟩
    have hidx : sectorWords * (pos + 1 + i / sectorWords - pos - 1) + (sectorWords - 1) = i := by
      unfold sectorWords at *
      omega
    rw [protectedWith, if_neg hword, if_pos hsaved, hidx]
  · rw [protectedWith, if_neg (not_or.mpr ⟨htail, by omega⟩), if_neg (by omega)]

/-! ### The fixups -/

/-- The word belongs to the update sequence array. -/
def Record.InUsa (b : Record) (i : ℕ) : Prop := b.usaPos ≤ i ∧ i ≤ b.usaPos + b.usaCount

/-- The update sequence array lies in the first sector, behind the record header and before the last
word. -/
structure Record.UsaInSector (b : Record) : Prop where
  behind_header : 8 ≤ b.usaOfs
  before_tail : b.usaPos + b.usaCount < sectorWords - 1

theorem Record.UsaInSector.apart (hsector : b.UsaInSector) :
    UsaApart b.usaPos b.usaCount := usaApart_of_lt hsector.before_tail

theorem Record.UsaInSector.four_le_usaPos (hsector : b.UsaInSector) : 4 ≤ b.usaPos := by
  have hbeh := hsector.behind_header
  unfold Record.usaPos
  omega

/-- The number changes with every write. -/
theorem nextUsn_ne (usn : UInt16) : nextUsn usn ≠ usn := by
  unfold nextUsn
  split_ifs with hskip
  · rintro rfl
    exact absurd hskip (by decide)
  · simp

theorem magic_setMagic_baad (b : Record) : (b.setMagic magicBaad).magic = magicBaad := by
  rw [Record.magic, Record.setMagic, store_self, store_of_ne _ _ zero_ne_one, store_self]
  decide

section

variable {b : Record} {size : ℕ}

theorem preWriteMstFixup_eq (hmagic : ¬ (b.magic = magicBaad ∨ b.magic = magicHole))
    (hchecks : b.Checks size) (hap : UsaApart b.usaPos b.usaCount) : preWriteMstFixup b size =
      (.ok (), protectedWith b.usaPos b.usaCount (nextUsn (b b.usaPos)) b) := by
  rw [preWriteMstFixup, if_neg hmagic, if_neg (not_not.mpr hchecks)]
  simp only [protectLoop_eq b _ hap]

theorem checks_of_preWrite (hwr : (preWriteMstFixup b size).1 = .ok ()) :
    ¬ (b.magic = magicBaad ∨ b.magic = magicHole) ∧ b.Checks size := by
  unfold preWriteMstFixup at hwr
  split_ifs at hwr with hmagic hchecks
  exact ⟨hmagic, hchecks⟩

theorem postReadMstFixup_of_tails (hchecks : b.Checks size) (hap : UsaApart b.usaPos b.usaCount)
    (htails : ∀ i, IsTail b.usaCount i → b i = b b.usaPos) :
    postReadMstFixup b size = (.ok (), restored b.usaPos b.usaCount b) := by
  have hloop : checkLoop b (b b.usaPos) b.usaCount (sectorWords - 1) = true :=
    (checkLoop_eq_true_iff ..).mpr fun i hrch => htails i ((reaches_iff_isTail _ _).mp hrch)
  rw [postReadMstFixup, if_neg (not_not.mpr hchecks), hloop, if_neg Bool.true_eq_false.mp,
    restoreLoop_eq b hap]

theorem postReadMstFixup_of_torn (hchecks : b.Checks size) (htail : IsTail b.usaCount i)
    (hne : b i ≠ b b.usaPos) : postReadMstFixup b size =
      (.error .einval, b.setMagic magicBaad) := by
  have hloop : checkLoop b (b b.usaPos) b.usaCount (sectorWords - 1) = false := by
    rw [← Bool.not_eq_true, checkLoop_eq_true_iff]
    exact fun hall => hne (hall i ((reaches_iff_isTail _ _).mpr htail))
  rw [postReadMstFixup, if_neg (not_not.mpr hchecks), if_pos hloop]

end

/-! ### Mixed images -/

def mixed (fromFirst : ℕ → Bool) (first second : Record) : Record := fun i =>
  if fromFirst (i / sectorWords) then first i else second i

/-- What a read makes of an image mixed from those of two records. It accepts the image if all
sectors are from the same one, and gives back the record of that one outside the update sequence
array. Otherwise it fails and marks the record. -/
structure Detects (size : ℕ) (first second imageFirst imageSecond : Record)
    (fromFirst : ℕ → Bool) : Prop where
  all_first : (∀ sector < size / ntfsBlockSize, fromFirst sector = true) →
    ∃ read, postReadMstFixup (mixed fromFirst imageFirst imageSecond) size = (.ok (), read) ∧
      ∀ i < size / 2, ¬ first.InUsa i → read i = first i
  all_second : (∀ sector < size / ntfsBlockSize, fromFirst sector = false) →
    ∃ read, postReadMstFixup (mixed fromFirst imageFirst imageSecond) size = (.ok (), read) ∧
      ∀ i < size / 2, ¬ first.InUsa i → read i = second i
  torn : (∃ sector < size / ntfsBlockSize, fromFirst sector = true) →
    (∃ sector < size / ntfsBlockSize, fromFirst sector = false) →
    ∃ read, postReadMstFixup (mixed fromFirst imageFirst imageSecond) size =
      (.error .einval, read) ∧ read.magic = magicBaad

theorem protectedWith_header (hpos : 4 ≤ pos) (count : ℕ) (usn : UInt16) (b : Record) (hi : i < 4) :
    protectedWith pos count usn b i = b i := by
  have htail : ¬ (IsTail count i ∨ i = pos) := by
    unfold IsTail sectorWords
    omega
  rw [protectedWith, if_neg htail, if_neg (by omega)]

theorem protectedWith_tail (pos : ℕ) (usn : UInt16) (b : Record) (htail : IsTail count i) :
    protectedWith pos count usn b i = usn := if_pos (.inl htail)

theorem protectedWith_pos (pos count : ℕ) (usn : UInt16) (b : Record) :
    protectedWith pos count usn b pos = usn := if_pos (.inr rfl)

theorem postReadMstFixup_of_agrees {usn : UInt16} (hchecks : image.Checks size)
    (hsector : image.UsaInSector) (hagr : ∀ i < sectorWords * image.usaCount,
      image i = protectedWith image.usaPos image.usaCount usn b i) :
    ∃ read, postReadMstFixup image size = (.ok (), read) ∧ ∀ i < size / 2, ¬ image.InUsa i →
      read i = b i := by
  have hpos := hsector.before_tail
  have hsize : size / 2 = sectorWords * image.usaCount := by
    obtain ⟨halign, -, -, hcnt⟩ := hchecks
    unfold ntfsBlockSize at halign hcnt
    unfold sectorWords
    omega
  refine ⟨_, postReadMstFixup_of_tails hchecks hsector.apart fun i htail => ?_, fun i hi hout => ?_⟩
  · have hbd : i < sectorWords * image.usaCount ∧ image.usaPos < sectorWords * image.usaCount := by
      unfold IsTail sectorWords at *
      omega
    rw [hagr i hbd.1, hagr _ hbd.2, protectedWith_tail _ _ _ htail, protectedWith_pos]
  · rw [hsize] at hi
    refine Eq.trans ?_ (restored_protectedWith b usn hsector.apart hout)
    unfold restored
    split_ifs with htail
    · refine hagr _ ?_
      unfold IsTail sectorWords at *
      omega
    · exact hagr i hi

/-- Two records have their update sequence arrays in the same place. -/
structure SameUsa (image b : Record) : Prop where
  usaOfs_eq : image.usaOfs = b.usaOfs
  usaCount_eq : image.usaCount = b.usaCount

theorem sameUsa_of_header (hheader : ∀ i < 4, image i = b i) : SameUsa image b where
  usaOfs_eq := congrArg UInt16.toNat (hheader 2 (by decide))
  usaCount_eq := congrArg (fun word : UInt16 => (word - 1).toNat) (hheader 3 (by decide))

namespace SameUsa

variable {image b : Record} (hsame : SameUsa image b)
include hsame

theorem usaPos_eq : image.usaPos = b.usaPos := congrArg (· / 2) hsame.usaOfs_eq

theorem checks (hchecks : b.Checks size) : image.Checks size := by
  unfold Record.Checks
  rwa [hsame.usaOfs_eq, hsame.usaCount_eq]

theorem usaInSector (hsector : b.UsaInSector) : image.UsaInSector where
  behind_header := hsame.usaOfs_eq ▸ hsector.behind_header
  before_tail := by
    rw [hsame.usaPos_eq, hsame.usaCount_eq]
    exact hsector.before_tail

theorem inUsa_iff : image.InUsa i ↔ b.InUsa i := by
  unfold Record.InUsa
  rw [hsame.usaPos_eq, hsame.usaCount_eq]

end SameUsa

section

variable {first second : Record} {size : ℕ} (usn other : UInt16) (fromFirst : ℕ → Bool)

def mixture (first second : Record) : Record :=
  mixed fromFirst (protectedWith first.usaPos first.usaCount usn first)
    (protectedWith first.usaPos first.usaCount other second)

theorem mixture_tail (htail : IsTail first.usaCount i) :
    mixture usn other fromFirst first second i =
      if fromFirst (i / sectorWords) then usn else other := by
  unfold mixture mixed
  rw [protectedWith_tail _ _ _ htail, protectedWith_tail _ _ _ htail]

variable (hsector : first.UsaInSector)
include hsector

theorem mixture_pos : mixture usn other fromFirst first second first.usaPos =
    if fromFirst 0 then usn else other := by
  have hfst : first.usaPos / sectorWords = 0 := by
    have hbef := hsector.before_tail
    unfold sectorWords at *
    omega
  unfold mixture mixed
  rw [hfst, protectedWith_pos, protectedWith_pos]

variable (hheader : ∀ i < 4, second i = first i)
include hheader

theorem mixture_header (hi : i < 4) : mixture usn other fromFirst first second i = first i := by
  have hpos := hsector.four_le_usaPos
  unfold mixture mixed
  split_ifs
  · exact protectedWith_header hpos _ _ _ hi
  · rw [protectedWith_header hpos _ _ _ hi, hheader i hi]

theorem sameUsa_mixture : SameUsa (mixture usn other fromFirst first second) first :=
  sameUsa_of_header fun _ hi => mixture_header usn other fromFirst hsector hheader hi

variable (hchecks : first.Checks size)
include hchecks

theorem mixture_accepted (own : UInt16)
    (hagr : ∀ i < sectorWords * first.usaCount, mixture usn other fromFirst first second i =
      protectedWith first.usaPos first.usaCount own b i) :
    ∃ read, postReadMstFixup (mixture usn other fromFirst first second) size = (.ok (), read) ∧
      ∀ i < size / 2, ¬ first.InUsa i → read i = b i := by
  have hsame := sameUsa_mixture usn other fromFirst hsector hheader
  rw [← hsame.usaPos_eq, ← hsame.usaCount_eq] at hagr
  obtain ⟨read, hread, hwords⟩ := postReadMstFixup_of_agrees (hsame.checks hchecks)
    (hsame.usaInSector hsector) hagr
  exact ⟨read, hread, fun i hi hout => hwords i hi (mt hsame.inUsa_iff.mp hout)⟩

theorem mixture_rejected (hne : usn ≠ other) {sector : ℕ} (hlt : sector < first.usaCount)
    (hoth : fromFirst sector ≠ fromFirst 0) :
    ∃ read, postReadMstFixup (mixture usn other fromFirst first second) size =
      (.error .einval, read) ∧ read.magic = magicBaad := by
  have hsame := sameUsa_mixture usn other fromFirst hsector hheader
  have htail : IsTail first.usaCount (sectorWords * sector + (sectorWords - 1)) ∧
      (sectorWords * sector + (sectorWords - 1)) / sectorWords = sector := by
    unfold IsTail sectorWords
    omega
  refine ⟨_, postReadMstFixup_of_torn (hsame.checks hchecks)
    (i := sectorWords * sector + (sectorWords - 1)) (by rw [hsame.usaCount_eq]; exact htail.1) ?_,
    magic_setMagic_baad _⟩
  rw [hsame.usaPos_eq, mixture_pos usn other fromFirst hsector,
    mixture_tail usn other fromFirst htail.1, htail.2]
  cases hhere : fromFirst sector <;> cases hzero : fromFirst 0
  · exact absurd (hhere.trans hzero.symm) hoth
  · simpa using hne.symm
  · simpa using hne
  · exact absurd (hhere.trans hzero.symm) hoth

/-- Assumes: images of two records with the same header and different update sequence numbers. A
read detects their mixtures. -/
theorem postReadMstFixup_mixed (hne : usn ≠ other) :
    Detects size first second (protectedWith first.usaPos first.usaCount usn first)
      (protectedWith first.usaPos first.usaCount other second) fromFirst := by
  have hsize : size / ntfsBlockSize = first.usaCount := hchecks.2.2.2
  have hsectorOf : ∀ i < sectorWords * first.usaCount, i / sectorWords < size / ntfsBlockSize :=
    fun i hi => hsize ▸ Nat.div_lt_of_lt_mul hi
  refine ⟨fun hall => ?_, fun hall => ?_, ?_⟩
  · refine mixture_accepted usn other fromFirst hsector hheader hchecks usn fun i hi => ?_
    exact if_pos (hall _ (hsectorOf i hi))
  · refine mixture_accepted usn other fromFirst hsector hheader hchecks other fun i hi => ?_
    exact if_neg (by rw [hall _ (hsectorOf i hi)]; exact Bool.false_ne_true)
  · rintro ⟨ours, hours, htrue⟩ ⟨theirs, hthei, hfalse⟩
    rw [hsize] at hours hthei
    cases hzero : fromFirst 0
    · exact mixture_rejected usn other fromFirst hsector hheader hchecks hne hours
        (by rw [htrue, hzero]; exact Bool.true_eq_false.mp)
    · exact mixture_rejected usn other fromFirst hsector hheader hchecks hne hthei
        (by rw [hfalse, hzero]; exact Bool.false_ne_true)

end

/-! ### Protection is undone -/

/-- The update sequence array lies inside the record and overlaps neither its header of eight bytes
nor the last word of a sector. -/
structure Record.UsaPlaced (b : Record) (size : ℕ) : Prop where
  behind_header : 8 ≤ b.usaOfs
  inside : b.usaOfs + 2 * (b.usaCount + 1) ≤ size
  apart : UsaApart b.usaPos b.usaCount

/-- Assumes: a record that passes the checks of the protection, with its update sequence array in
place. The record is protected, and both ways to deprotect it succeed with the same record, which is
the first one outside the array. -/
theorem fixups_undone (b : Record) (size : ℕ)
    (hmagic : ¬ (b.magic = magicBaad ∨ b.magic = magicHole)) (hchecks : b.Checks size)
    (hplaced : b.UsaPlaced size) :
    ∃ image after, preWriteMstFixup b size = (.ok (), image) ∧ postWriteMstFixup image = after ∧
      postReadMstFixup image size = (.ok (), after) ∧ ∀ i, ¬ b.InUsa i → after i = b i := by
  have hapart := hplaced.apart
  have hpos : 4 ≤ b.usaPos := by
    have hbehind := hplaced.behind_header
    unfold Record.usaPos
    omega
  have hwrite := preWriteMstFixup_eq hmagic hchecks hapart
  refine ⟨_, _, hwrite, rfl, ?_, fun i hout => ?_⟩
  all_goals
    -- The header of the image is that of the record, so both deprotect the same words.
    have hsame := sameUsa_of_header fun i hi =>
      protectedWith_header hpos b.usaCount (nextUsn (b b.usaPos)) b hi
    unfold postWriteMstFixup
    rw [hsame.usaPos_eq, hsame.usaCount_eq, restoreLoop_eq _ hapart]
  · rw [postReadMstFixup_of_tails (hsame.checks hchecks), hsame.usaPos_eq, hsame.usaCount_eq]
    · rw [hsame.usaPos_eq, hsame.usaCount_eq]
      exact hapart
    · intro i htail
      rw [hsame.usaCount_eq] at htail
      rw [hsame.usaPos_eq, protectedWith_tail _ _ _ htail, protectedWith_pos]
  · exact restored_protectedWith b _ hapart hout

def usaInSecondSector : Record := fun i => if i = 2 then 512 else if i = 3 then 3 else 1

theorem fixups_undone_usaInSecondSector : usaInSecondSector.UsaPlaced 1024 ∧
    ∃ image after, preWriteMstFixup usaInSecondSector 1024 = (.ok (), image) ∧
      postWriteMstFixup image = after ∧ postReadMstFixup image 1024 = (.ok (), after) ∧
      ∀ i, ¬ usaInSecondSector.InUsa i → after i = usaInSecondSector i := by
  have hpos : usaInSecondSector.usaPos = 256 := rfl
  have hcount : usaInSecondSector.usaCount = 2 := rfl
  have hplaced : usaInSecondSector.UsaPlaced 1024 := by
    refine ⟨by decide, by decide, ?_⟩
    rw [hpos, hcount]
    intro i hlow hhigh htail
    unfold IsTail sectorWords at htail
    omega
  exact ⟨hplaced, fixups_undone usaInSecondSector 1024 (by decide) (by decide) hplaced⟩

/-! ### Torn writes -/

def EditedOutside (b edited : Record) : Prop := ∀ i, i < 4 ∨ b.InUsa i → edited i = b i

/-- Assumes: a record that is written, with its update sequence array in the first sector, then
deprotected, edited, and written again. A read detects every mixture of the two images. -/
theorem torn_write (b : Record) (size : ℕ) (hwrite : (preWriteMstFixup b size).1 = .ok ())
    (hsector : b.UsaInSector) (edited : Record)
    (hedits : EditedOutside (postWriteMstFixup (preWriteMstFixup b size).2) edited)
    (fromFirst : ℕ → Bool) :
    (preWriteMstFixup edited size).1 = .ok () ∧
      Detects size b edited (preWriteMstFixup b size).2 (preWriteMstFixup edited size).2
        fromFirst := by
  obtain ⟨hmagic, hchecks⟩ := checks_of_preWrite hwrite
  have hpos := hsector.four_le_usaPos
  have hbefore := hsector.before_tail
  rw [preWriteMstFixup_eq hmagic hchecks hsector.apart] at hedits ⊢
  -- After the write the record is as before, but for the update sequence array.
  have himage := sameUsa_of_header fun i hi =>
    protectedWith_header hpos b.usaCount (nextUsn (b b.usaPos)) b hi
  have hafter : postWriteMstFixup (protectedWith b.usaPos b.usaCount (nextUsn (b b.usaPos)) b) =
      restored b.usaPos b.usaCount
        (protectedWith b.usaPos b.usaCount (nextUsn (b b.usaPos)) b) := by
    rw [postWriteMstFixup, himage.usaPos_eq, himage.usaCount_eq, restoreLoop_eq _ hsector.apart]
  have hkept : ∀ i < 4,
      postWriteMstFixup (protectedWith b.usaPos b.usaCount (nextUsn (b b.usaPos)) b) i = b i :=
    fun i hi => by rw [hafter, restored_protectedWith b _ hsector.apart (by omega)]
  have hheader : ∀ i < 4, edited i = b i := fun i hi => (hedits i (.inl hi)).trans (hkept i hi)
  have hsame := sameUsa_of_header hheader
  have husn : edited b.usaPos = nextUsn (b b.usaPos) := by
    have hin := (sameUsa_of_header hkept).inUsa_iff.mpr ⟨le_rfl, Nat.le_add_right _ _⟩
    have htail : ¬ IsTail b.usaCount b.usaPos := by
      unfold IsTail sectorWords at *
      omega
    rw [hedits _ (.inr hin), hafter, restored, if_neg htail, protectedWith_pos]
  have hmagic' : ¬ (edited.magic = magicBaad ∨ edited.magic = magicHole) := by
    unfold Record.magic at hmagic ⊢
    rwa [hheader 0 (by decide), hheader 1 (by decide)]
  rw [preWriteMstFixup_eq hmagic' (hsame.checks hchecks) (hsame.usaInSector hsector).apart,
    hsame.usaPos_eq, hsame.usaCount_eq, husn]
  exact ⟨rfl, postReadMstFixup_mixed _ _ fromFirst hsector hheader hchecks (nextUsn_ne _).symm⟩

/-- A record of two sectors with its update sequence array at byte 8, and `1` in every other
word. -/
def twoSectors : Record := fun i => if i = 2 then 8 else if i = 3 then 3 else 1

/-- A change of the last word of the second sector is detected when only one sector gets there. -/
theorem torn_write_twoSectors : twoSectors.UsaInSector ∧
    ∃ read, postReadMstFixup (mixed (fun sector => decide (sector = 0))
      (preWriteMstFixup twoSectors 1024).2
      (preWriteMstFixup ((postWriteMstFixup (preWriteMstFixup twoSectors 1024).2).store 511 7)
        1024).2) 1024 = (.error .einval, read) ∧ read.magic = magicBaad := by
  have hsector : twoSectors.UsaInSector := ⟨by decide, by decide⟩
  have hfields : ∀ i < 4, postWriteMstFixup (preWriteMstFixup twoSectors 1024).2 i =
      twoSectors i := by
    decide +kernel
  have hedits : EditedOutside (postWriteMstFixup (preWriteMstFixup twoSectors 1024).2)
      ((postWriteMstFixup (preWriteMstFixup twoSectors 1024).2).store 511 7) := by
    intro i hi
    refine store_of_ne _ _ ?_
    rw [(sameUsa_of_header hfields).inUsa_iff] at hi
    rcases hi with hheader | hin
    · omega
    · have hbefore := hsector.before_tail
      have hlast := hin.2
      unfold sectorWords at hbefore
      omega
  have hdetects := torn_write twoSectors 1024 (by decide +kernel) hsector _ hedits
    fun sector => decide (sector = 0)
  exact ⟨hsector, hdetects.2.torn ⟨0, by decide, by decide⟩ ⟨1, by decide, by decide⟩⟩

end AdvancedOs.Ntfs.MultiSectorTransfer
