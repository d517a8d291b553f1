import AdvancedOs.Foundation.TracedMemory
import AdvancedOs.Ntfs.MultiSectorTransfer

/-!
# The bounds of the fixups

The fixups take the place and the length of the update sequence array from the record. They compare
the two with the size of the record, but leave out the update sequence number, which is one word of
the array more than there are sectors. An array that ends one word behind the record passes.

`postReadTraced` and `preWriteTraced` are the fixups with a log of the words that they access. What
they do to the record is what `postReadMstFixup` and `preWriteMstFixup` do
(`outcome_postReadTraced`, `outcome_preWriteTraced`). They stay inside of the record just if the
array does, or if they stop before they get to its last word (`inside_iff`).
-/

namespace AdvancedOs.Ntfs.MultiSectorBounds

open Foundation.TracedMemory Foundation.TracedMemory.Traced RunlistElements MultiSectorTransfer

/-! ### The fixups with a log -/

def checkTraced (usn : UInt16) : ℕ → ℕ → Traced UInt16 Bool
  | 0, _ => pure true
  | usaCount + 1, dataPos => do
    let word ← load dataPos
    if word ≠ usn then pure false else checkTraced usn usaCount (dataPos + sectorWords)

def restoreTraced : ℕ → ℕ → ℕ → Traced UInt16 Unit
  | 0, _, _ => pure ()
  | usaCount + 1, usaPos, dataPos => do
    let word ← load (usaPos + 1)
    assign dataPos word
    restoreTraced usaCount (usaPos + 1) (dataPos + sectorWords)

def protectTraced (usn : UInt16) : ℕ → ℕ → ℕ → Traced UInt16 Unit
  | 0, _, _ => pure ()
  | usaCount + 1, usaPos, dataPos => do
    let word ← load dataPos
    assign (usaPos + 1) word
    assign dataPos usn
    protectTraced usn usaCount (usaPos + 1) (dataPos + sectorWords)

/-- The size and alignment checks, for the fields `usa_ofs` and `usa_count`. -/
def FieldsCheck (usaOfs usaCount : UInt16) (size : ℕ) : Prop :=
  size % ntfsBlockSize = 0 ∧ usaOfs.toNat % 2 = 0 ∧
    usaOfs.toNat + (usaCount - 1).toNat * 2 ≤ size ∧ size / ntfsBlockSize = (usaCount - 1).toNat

instance (usaOfs usaCount : UInt16) (size : ℕ) : Decidable (FieldsCheck usaOfs usaCount size) := by
  unfold FieldsCheck
  infer_instance

/-- `post_read_mst_fixup` with a log. The field `usa_count` is read again for the second loop. -/
def postReadTraced (size : ℕ) : Traced UInt16 (Except Errno Unit) := do
  let usaOfs ← load 2
  let usaCount ← load 3
  if ¬ FieldsCheck usaOfs usaCount size then pure (.ok ())
  else
    let usn ← load (usaOfs.toNat / 2)
    let complete ← checkTraced usn (usaCount - 1).toNat (sectorWords - 1)
    if complete = false then
      assign 0 (UInt16.ofNat magicBaad)
      assign 1 (UInt16.ofNat (magicBaad / 2 ^ 16))
      pure (.error .einval)
    else
      let usaCount ← load 3
      restoreTraced (usaCount - 1).toNat (usaOfs.toNat / 2) (sectorWords - 1)
      pure (.ok ())

def preWriteTraced (size : ℕ) : Traced UInt16 (Except Errno Unit) := do
  let low ← load 0
  let high ← load 1
  let magic := low.toNat + 2 ^ 16 * high.toNat
  if magic = magicBaad ∨ magic = magicHole then pure (.error .einval)
  else
    let usaOfs ← load 2
    let usaCount ← load 3
    if ¬ FieldsCheck usaOfs usaCount size then pure (.error .einval)
    else
      let word ← load (usaOfs.toNat / 2)
      assign (usaOfs.toNat / 2) (nextUsn word)
      protectTraced (nextUsn word) (usaCount - 1).toNat (usaOfs.toNat / 2) (sectorWords - 1)
      pure (.ok ())

/-! ### The fixups do what they do without a log -/

section

variable (b : Record)

theorem outcome_checkTraced (usn : UInt16) (count dataPos : ℕ) :
    (checkTraced usn count dataPos).outcome b = (checkLoop b usn count dataPos, b) := by
  induction count generalizing dataPos with
  | zero => rfl
  | succ count ih =>
    rw [checkTraced, checkLoop, outcome_load_bind]
    split_ifs
    · rfl
    · exact ih _

theorem outcome_restoreTraced (count usaPos dataPos : ℕ) :
    (restoreTraced count usaPos dataPos).outcome b = ((), restoreLoop count b usaPos dataPos) := by
  induction count generalizing b usaPos dataPos with
  | zero => rfl
  | succ count ih => exact ih _ _ _

theorem outcome_protectTraced (usn : UInt16) (count usaPos dataPos : ℕ) :
    (protectTraced usn count usaPos dataPos).outcome b =
      ((), protectLoop usn count b usaPos dataPos) := by
  induction count generalizing b usaPos dataPos with
  | zero => rfl
  | succ count ih => exact ih _ _ _

theorem fieldsCheck_iff (size : ℕ) : FieldsCheck (b 2) (b 3) size ↔ b.Checks size := Iff.rfl

theorem outcome_postReadTraced (size : ℕ) :
    (postReadTraced size).outcome b = postReadMstFixup b size := by
  unfold postReadTraced postReadMstFixup
  rw [outcome_load_bind, outcome_load_bind]
  by_cases hchk : b.Checks size
  · rw [if_neg (not_not.mpr ((fieldsCheck_iff b size).mpr hchk)),
      if_neg (not_not.mpr hchk), outcome_load_bind, outcome_bind, outcome_checkTraced]
    change (ite (checkLoop b (b b.usaPos) b.usaCount (sectorWords - 1) = false) _ _ :
      Traced UInt16 (Except Errno Unit)).outcome b = _
    split_ifs
    · rfl
    · rw [outcome_load_bind, outcome_bind, outcome_restoreTraced]
      rfl
  · rw [if_pos (mt (fieldsCheck_iff b size).mp hchk), if_pos hchk]
    rfl

theorem outcome_preWriteTraced (size : ℕ) :
    (preWriteTraced size).outcome b = preWriteMstFixup b size := by
  unfold preWriteTraced preWriteMstFixup
  rw [outcome_load_bind, outcome_load_bind]
  by_cases hmagic : b.magic = magicBaad ∨ b.magic = magicHole
  · rw [if_pos hmagic]
    change (ite (b.magic = magicBaad ∨ b.magic = magicHole) _ _ : Traced UInt16
      (Except Errno Unit)).outcome b = _
    rw [if_pos hmagic]
    rfl
  rw [if_neg hmagic]
  change (ite (b.magic = magicBaad ∨ b.magic = magicHole) _ _ : Traced UInt16
    (Except Errno Unit)).outcome b = _
  rw [if_neg hmagic, outcome_load_bind, outcome_load_bind]
  by_cases hchk : b.Checks size
  · rw [if_neg (not_not.mpr ((fieldsCheck_iff b size).mpr hchk)),
      if_neg (not_not.mpr hchk), outcome_load_bind, outcome_assign_bind, outcome_bind,
      outcome_protectTraced]
    rfl
  · rw [if_pos (mt (fieldsCheck_iff b size).mp hchk), if_pos hchk]
    rfl

end

/-! ### Where they access the record -/

section

variable {b : Record} {bound : ℕ}

theorem below_checkTraced (usn : UInt16) {count dataPos : ℕ}
    (hdata : dataPos + sectorWords * count ≤ bound + (sectorWords - 1)) :
    Below bound (checkTraced usn count dataPos) b := by
  induction count generalizing dataPos with
  | zero => exact below_pure _
  | succ count ih =>
    rw [checkTraced, below_load_bind]
    unfold sectorWords at *
    refine ⟨by omega, ?_⟩
    split_ifs
    · exact below_pure _
    · exact ih (by omega)

theorem below_restoreTraced {count usaPos dataPos : ℕ}
    (hdata : dataPos + sectorWords * count ≤ bound + (sectorWords - 1)) :
    Below bound (restoreTraced count usaPos dataPos) b ↔ (count ≠ 0 → usaPos + count < bound) := by
  induction count generalizing b usaPos dataPos with
  | zero => exact iff_of_true (below_pure _) fun hne => absurd rfl hne
  | succ count ih =>
    rw [restoreTraced, below_load_bind, below_assign_bind, ih (by unfold sectorWords at *; omega)]
    unfold sectorWords at hdata
    omega

theorem below_protectTraced {usn : UInt16} {count usaPos dataPos : ℕ}
    (hdata : dataPos + sectorWords * count ≤ bound + (sectorWords - 1)) :
    Below bound (protectTraced usn count usaPos dataPos) b ↔
      (count ≠ 0 → usaPos + count < bound) := by
  induction count generalizing b usaPos dataPos with
  | zero => exact iff_of_true (below_pure _) fun hne => absurd rfl hne
  | succ count ih =>
    rw [protectTraced, below_load_bind, below_assign_bind, below_assign_bind,
      ih (by unfold sectorWords at *; omega)]
    unfold sectorWords at hdata
    omega

variable {size : ℕ}

def Inside (size : ℕ) {α : Type} (program : Traced UInt16 α) (b : Record) : Prop :=
  ∀ word ∈ (program.run b).log, 2 * word + 1 < size

theorem inside_iff_below {α : Type} (program : Traced UInt16 α) :
    Inside size program b ↔ Below (size / 2) program b := by
  refine forall₂_congr fun word _ => ?_
  omega

theorem bounds_of_checks (hsize : 0 < size) (hchk : b.Checks size) :
    b.usaCount ≠ 0 ∧ b.usaPos < size / 2 ∧
      sectorWords - 1 + sectorWords * b.usaCount ≤ size / 2 + (sectorWords - 1) ∧
      (b.usaPos + b.usaCount < size / 2 ↔ b.usaOfs + 2 * b.usaCount ≠ size) := by
  obtain ⟨halign, heven, hle, hcnt⟩ := hchk
  unfold Record.usaPos
  unfold ntfsBlockSize at halign hcnt
  unfold sectorWords
  omega

theorem inside_postReadTraced_iff (hsize : 0 < size) (halign : size % ntfsBlockSize = 0) :
    Inside size (postReadTraced size) b ↔ (b.Checks size →
      (∀ i, IsTail b.usaCount i → b i = b b.usaPos) → b.usaOfs + 2 * b.usaCount ≠ size) := by
  have hhdr : 3 < size / 2 := by
    unfold ntfsBlockSize at halign
    omega
  rw [inside_iff_below, postReadTraced, below_load_bind, below_load_bind]
  by_cases hchk : b.Checks size
  · obtain ⟨hcnt, hpos, hdata, hend⟩ := bounds_of_checks hsize hchk
    have hloop := @below_checkTraced b (size / 2) (b b.usaPos) b.usaCount (sectorWords - 1) hdata
    have hcomp : checkLoop b (b b.usaPos) b.usaCount (sectorWords - 1) = true ↔
        ∀ i, IsTail b.usaCount i → b i = b b.usaPos := by
      rw [checkLoop_eq_true_iff]
      exact forall_congr' fun i => by rw [reaches_iff_isTail]
    rw [if_neg (not_not.mpr ((fieldsCheck_iff b size).mpr hchk)), below_load_bind, below_bind,
      outcome_checkTraced]
    change (_ ∧ _ ∧ _ ∧ _ ∧ Below (size / 2) (ite (checkLoop b (b b.usaPos) b.usaCount
      (sectorWords - 1) = false) _ _ : Traced UInt16 (Except Errno Unit)) b) ↔ _
    have hbef : 2 < size / 2 ∧ 3 < size / 2 ∧ b.usaPos < size / 2 ∧
        Below (size / 2) (checkTraced (b b.usaPos) b.usaCount (sectorWords - 1)) b :=
      ⟨by omega, hhdr, hpos, hloop⟩
    by_cases htails : checkLoop b (b b.usaPos) b.usaCount (sectorWords - 1) = true
    · rw [if_neg (by rw [htails]; exact Bool.true_eq_false.mp), below_load_bind, below_bind,
        show (b 3 - 1).toNat = b.usaCount from rfl, below_restoreTraced hdata]
      rw [hcomp] at htails
      constructor
      · rintro ⟨-, -, -, -, -, hin, -⟩ - -
        exact hend.mp (hin hcnt)
      · intro hall
        exact ⟨hbef.1, hbef.2.1, hbef.2.2.1, hbef.2.2.2, hhdr, fun _ => hend.mpr (hall hchk htails),
          below_pure _⟩
    · rw [if_pos (by simpa using htails), below_assign_bind, below_assign_bind]
      rw [hcomp] at htails
      refine iff_of_true ⟨hbef.1, hbef.2.1, hbef.2.2.1, hbef.2.2.2, by omega, by omega,
        below_pure _⟩ fun _ hall => absurd hall htails
  · rw [if_pos (mt (fieldsCheck_iff b size).mp hchk)]
    exact iff_of_true ⟨by omega, hhdr, below_pure _⟩ fun hh => absurd hh hchk

theorem inside_preWriteTraced_iff (hsize : 0 < size) (halign : size % ntfsBlockSize = 0) :
    Inside size (preWriteTraced size) b ↔ (¬ (b.magic = magicBaad ∨ b.magic = magicHole) →
      b.Checks size → b.usaOfs + 2 * b.usaCount ≠ size) := by
  have hhdr : 3 < size / 2 := by
    unfold ntfsBlockSize at halign
    omega
  rw [inside_iff_below, preWriteTraced, below_load_bind, below_load_bind]
  change (_ ∧ _ ∧ Below (size / 2) (ite (b.magic = magicBaad ∨ b.magic = magicHole) _ _ :
    Traced UInt16 (Except Errno Unit)) b) ↔ _
  by_cases hmagic : b.magic = magicBaad ∨ b.magic = magicHole
  · rw [if_pos hmagic]
    exact iff_of_true ⟨by omega, by omega, below_pure _⟩ fun hnot => absurd hmagic hnot
  rw [if_neg hmagic, below_load_bind, below_load_bind]
  by_cases hchk : b.Checks size
  · obtain ⟨hcnt, hpos, hdata, hend⟩ := bounds_of_checks hsize hchk
    rw [if_neg (not_not.mpr ((fieldsCheck_iff b size).mpr hchk)), below_load_bind,
      below_assign_bind, below_bind, show (b 3 - 1).toNat = b.usaCount from rfl,
      below_protectTraced hdata]
    constructor
    · rintro ⟨-, -, -, -, -, -, hin, -⟩ - -
      exact hend.mp (hin hcnt)
    · intro hall
      exact ⟨by omega, by omega, by omega, hhdr, hpos, hpos, fun _ => hend.mpr (hall hmagic hchk),
        below_pure _⟩
  · rw [if_pos (mt (fieldsCheck_iff b size).mp hchk)]
    exact iff_of_true ⟨by omega, by omega, by omega, hhdr, below_pure _⟩ fun _ hh => absurd hh hchk

/-- Assumes: a size of whole sectors. The two fixups stay inside of the record just if an array that
passes the checks does not end one word behind the record, or if the write refuses the magic of the
record and the read a sector end. -/
theorem inside_iff (b : Record) (size : ℕ) (hsize : 0 < size) (halign : size % ntfsBlockSize = 0) :
    Inside size (postReadTraced size) b ∧ Inside size (preWriteTraced size) b ↔
      (b.Checks size → b.usaOfs + 2 * b.usaCount = size →
      (b.magic = magicBaad ∨ b.magic = magicHole) ∧
          ∃ i, IsTail b.usaCount i ∧ b i ≠ b b.usaPos) := by
  rw [inside_postReadTraced_iff hsize halign, inside_preWriteTraced_iff hsize halign]
  constructor
  · rintro ⟨hread, hwrite⟩ hchecks hends
    constructor
    · by_contra hmagic
      exact hwrite hmagic hchecks hends
    · by_contra hall
      push Not at hall
      exact hread hchecks hall hends
  · intro hcondition
    refine ⟨fun hchecks htails hends => ?_, fun hmagic hchecks hends => ?_⟩
    · obtain ⟨-, i, htail, hne⟩ := hcondition hchecks hends
      exact hne (htails i htail)
    · exact hmagic (hcondition hchecks hends).1

/-- A record of two sectors whose update sequence array starts at the given byte, with `1` in every
word behind the header. -/
def arrayAt (usaOfs : UInt16) : Record := fun i => if i = 2 then usaOfs else if i = 3 then 3 else 1

theorem inside_iff_arrayAt : Inside 1024 (postReadTraced 1024) (arrayAt 1018) ∧
    Inside 1024 (preWriteTraced 1024) (arrayAt 1018) :=
  (inside_iff (arrayAt 1018) 1024 (by decide) (by decide)).mpr fun _ hends =>
    absurd hends (by decide)

/-- An array that starts two words before the end has its last word behind it. -/
theorem not_inside_arrayAt : ¬ Inside 1024 (postReadTraced 1024) (arrayAt 1020) ∧
    ¬ Inside 1024 (preWriteTraced 1024) (arrayAt 1020) := by
  have hchecks : (arrayAt 1020).Checks 1024 := by decide
  have hends : (arrayAt 1020).usaOfs + 2 * (arrayAt 1020).usaCount = 1024 := by decide
  constructor
  · rw [inside_postReadTraced_iff (by decide) (by decide)]
    intro hall
    refine hall hchecks (fun i htail => ?_) hends
    have hword : 4 ≤ i := by
      unfold IsTail sectorWords at htail
      omega
    rw [show (arrayAt 1020) (arrayAt 1020).usaPos = 1 from rfl, arrayAt, if_neg (by omega),
      if_neg (by omega)]
  · rw [inside_preWriteTraced_iff (by decide) (by decide)]
    exact fun hall => hall (by decide) hchecks hends

end

end AdvancedOs.Ntfs.MultiSectorBounds
