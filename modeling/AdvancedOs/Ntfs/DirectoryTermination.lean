import AdvancedOs.Ntfs.DirectoryReading
import AdvancedOs.Ntfs.IndexTermination

/-!
# Do walks through a directory return?

A lookup and a listing both go from entry to entry by the lengths on disk, and a lookup goes from
block to block by the numbers in the entries. The driver checks neither for progress. Both return if
and only if the listing comes to no entry of length zero but one that ends a node, and the lookup is
`Straight` (`walksReturn_iff`). One entry of length zero in the index root keeps both from returning
(`not_walksReturn_zeroLength`).
-/

namespace AdvancedOs.Ntfs.DirectoryTermination

open Foundation.SignedWords Foundation.StepRuns RunlistElements IndexNodes NameCollation
open IndexTermination DirectoryReading

/-! ### Listings -/

section

def entryOf (state : DirectoryReading.State) : Option (IndexHeader ListedName × ℕ) :=
  match state.place with
  | .root index _ offset => some (index, offset)
  | .bitmap .. => none
  | .block _ _ _ _ _ ia offset => some (ia.index, offset)

/-- The listing is not at an entry of length zero, but for one that ends the node. -/
def Moves (state : DirectoryReading.State) : Prop :=
  ∀ index offset, entryOf state = some (index, offset) → InBounds index offset →
    (index.entryAt offset).isEnd = false → (index.entryAt offset).length ≠ 0

def ReaddirReturns (dir : Directory) (fpos : ℤ) : Prop :=
  ∃ fuel outcome, ntfsReaddir dir fuel fpos none = some outcome

/-- The listing comes to no entry of length zero inside its node, but to one that ends the node. -/
def ReaddirStraight (dir : Directory) (fpos : ℤ) : Prop :=
  ∀ first state, start dir ⟨fpos, none, [], []⟩ = .inl first →
    Reaches (DirectoryReading.step dir) first state → Moves state

variable {dir : Directory}
variable {fpos : ℤ} {reader : Reader} {state first next : DirectoryReading.State}
  {index : IndexHeader ListedName} {offset : ℕ}

theorem readdirReturns_iff_halts : ReaddirReturns dir fpos ↔
    ∀ first, start dir ⟨fpos, none, [], []⟩ = .inl first →
      Halts (DirectoryReading.step dir) first := by
  unfold ReaddirReturns ntfsReaddir
  cases hst : start dir ⟨fpos, none, [], []⟩ with
  | inr outcome => simp
  | inl first =>
    simp only [Sum.inl.injEq, forall_eq']
    exact exists_comm

theorem filldir_none (dir : Directory) (h : reader.budget = none)
    (ie : IndexEntry ListedName) (fpos : ℤ) :
    ∃ next, ntfsFilldir dir { reader with fpos := fpos } ie = some next ∧ next.budget = none := by
  unfold ntfsFilldir Reader.filldir
  cases dir.dirent fpos ie with
  | none => exact ⟨_, rfl, h⟩
  | some dirent =>
    exact ⟨{ reader with fpos := fpos, listed := reader.listed ++ [dirent] }, by simp only [h], h⟩

theorem next_root (hbud : reader.budget = none) (hbd : InBounds index offset)
    (hend : (index.entryAt offset).isEnd = false) (dir : Directory) (irPos : ℤ) :
    ∃ next, next.budget = none ∧ DirectoryReading.step dir ⟨reader, .root index irPos offset⟩ =
        .inl ⟨next, .root index irPos (offset + (index.entryAt offset).length)⟩ := by
  unfold DirectoryReading.step
  dsimp only
  rw [if_neg (not_not.mpr hbd), if_neg (by simp [hend])]
  split_ifs
  · exact ⟨reader, hbud, rfl⟩
  · obtain ⟨next, hfill, hnext⟩ := filldir_none dir hbud (index.entryAt offset)
      (rootHeaderSize + offset)
    exact ⟨next, hnext, by rw [hfill]⟩

theorem next_block (hbud : reader.budget = none) {ia : IndexBlock ListedName}
    (hbd : InBounds ia.index offset) (hend : (ia.index.entryAt offset).isEnd = false)
    (dir : Directory) (bitmap : IndexBitmap) (bmp : ℕ → Bool) (bit : ℕ) (iaPos : ℤ)
    (cache : Option (ℤ × Page ListedName)) : ∃ next, next.budget = none ∧
      DirectoryReading.step dir ⟨reader, .block bitmap bmp bit iaPos cache ia offset⟩ =
        .inl ⟨next,
        .block bitmap bmp bit iaPos cache ia (offset + (ia.index.entryAt offset).length)⟩ := by
  unfold DirectoryReading.step
  dsimp only
  rw [if_neg (not_not.mpr hbd), if_neg (by simp [hend])]
  split_ifs
  · exact ⟨reader, hbud, rfl⟩
  · obtain ⟨next, hfill, hnext⟩ := filldir_none dir hbud (ia.index.entryAt offset)
      (s64 (blockHeaderSize + offset + ia.indexBlockVcn * 2 ^ dir.vcnSizeBits + dir.mftRecordSize))
    exact ⟨next, hnext, by rw [hfill]⟩

theorem not_halts_of_length_zero (hbud : state.reader.budget = none)
    (hent : entryOf state = some (index, offset)) (hbd : InBounds index offset)
    (hend : (index.entryAt offset).isEnd = false) (hzero : (index.entryAt offset).length = 0) :
    ¬ Halts (DirectoryReading.step dir) state := by
  refine not_halts_of_invariant (P := fun other => other.place = state.place ∧
    other.reader.budget = none) ?_ ⟨rfl, hbud⟩
  rintro ⟨reader, place⟩ ⟨rfl, hnone⟩
  cases hpl : state.place with
  | root rootIndex irPos rootOffset =>
    obtain ⟨rfl, rfl⟩ : rootIndex = index ∧ rootOffset = offset := by
      simpa [entryOf, hpl] using hent
    obtain ⟨next, hnext, hstep⟩ := next_root hnone hbd hend dir irPos
    rw [hzero, Nat.add_zero] at hstep
    exact ⟨_, hstep, rfl, hnext⟩
  | bitmap => simp [entryOf, hpl] at hent
  | block bitmap bmp bit iaPos cache ia blockOffset =>
    obtain ⟨rfl, rfl⟩ : ia.index = index ∧ blockOffset = offset := by
      simpa [entryOf, hpl] using hent
    obtain ⟨next, hnext, hstep⟩ := next_block hnone hbd hend dir bitmap bmp bit iaPos cache
    rw [hzero, Nat.add_zero] at hstep
    exact ⟨_, hstep, rfl, hnext⟩

/-- The bits that a listing looks at are not far beyond those of the directory. -/
def NearBit (dir : Directory) : DirectoryReading.Place → Prop
  | .root .. => True
  | .bitmap _ _ bit _ _ => bit ≤ 8 * dir.iSize + 2
  | .block _ _ bit _ _ _ _ => bit ≤ 8 * dir.iSize + 2

/-- What becomes smaller with each step: the index root comes first, then each bit, with the entries
of its index block. -/
def remaining (dir : Directory) (state : DirectoryReading.State) : ℕ × ℕ × ℕ :=
  match state.place with
  | .root index _ offset => (1, 0, index.indexLength + 1 - offset)
  | .bitmap _ _ bit _ _ => (0, 2 * (8 * dir.iSize + 3 - bit) + 1, 0)
  | .block _ _ bit _ _ ia offset =>
    (0, 2 * (8 * dir.iSize + 3 - bit), ia.index.indexLength + 1 - offset)

/-- The order in which it does. -/
def Smaller : ℕ × ℕ × ℕ → ℕ × ℕ × ℕ → Prop := Prod.Lex Nat.lt (Prod.Lex Nat.lt Nat.lt)

theorem wellFounded_smaller : WellFounded Smaller :=
  (Prod.lex Nat.lt_wfRel (Prod.lex Nat.lt_wfRel Nat.lt_wfRel)).wf

theorem eq_of_findNext {bitmap : IndexBitmap} {bmp : ℕ → Bool} {bit : ℕ} {iaPos : ℤ}
    {cache : Option (ℤ × Page ListedName)} (hnear : bit ≤ 8 * dir.iSize + 2)
    (h : findNextIndexBuffer dir reader bitmap bmp bit iaPos cache = .inl next) :
    ∃ nextBmp nextPos, next = ⟨reader, .bitmap bitmap nextBmp (bit + 1) nextPos cache⟩ ∧
      bit + 1 ≤ 8 * dir.iSize + 2 := by
  have hsize := dir.iSize_lt
  have hword : s64 ((bit : ℤ) + 1) = bit + 1 := s64_of_isS64 ⟨by omega, by omega⟩
  unfold findNextIndexBuffer at h
  split_ifs at h with hpage hlast
  · rw [show pageBits = 32768 from rfl] at hpage
    cases hmap : bitmap.mapPage (s64 ((bit : ℤ) + 1) / pageBits) with
    | error code => simp [hmap] at h
    | ok nextBmp =>
      rw [hmap] at h
      exact ⟨nextBmp, iaPos, (Sum.inl.inj h).symm, by omega⟩
  · cases h
  · exact ⟨bmp, _, (Sum.inl.inj h).symm, by omega⟩

theorem eq_of_startBlocks (hfpos : reader.fpos - dir.mftRecordSize ≤ dir.iSize + 2)
    (h : startBlocks dir reader = .inl next) :
    next.reader = reader ∧ NearBit dir next.place ∧ (remaining dir next).1 = 0 := by
  unfold startBlocks at h
  cases hbitm : dir.bitmap with
  | error code => simp [hbitm] at h
  | ok bitmap =>
    rw [hbitm] at h
    dsimp only at h
    split_ifs at h
    cases hmap : bitmap.mapPage ((reader.fpos - dir.mftRecordSize) / dir.blockSize / pageBits) with
    | error code => simp [hmap] at h
    | ok bmp =>
      rw [hmap] at h
      obtain rfl := Sum.inl.inj h
      refine ⟨rfl, ?_, rfl⟩
      change ((reader.fpos - dir.mftRecordSize) / dir.blockSize).toNat ≤ 8 * dir.iSize + 2
      rcases le_or_gt 0 (reader.fpos - dir.mftRecordSize) with hpos | hneg
      · have hless := Int.ediv_le_self (dir.blockSize : ℤ) hpos
        omega
      · have hsize : (0 : ℤ) < dir.blockSize := Int.natCast_pos.mpr (Nat.two_pow_pos _)
        have hless := Int.ediv_neg_of_neg_of_pos hneg hsize
        omega

theorem smaller_of_next (hbud : state.reader.budget = none) (hnear : NearBit dir state.place)
    (h : Next (DirectoryReading.step dir) state next) :
    next.reader.budget = none ∧ NearBit dir next.place ∧
      (Moves state → Smaller (remaining dir next) (remaining dir state)) := by
  obtain ⟨reader, place⟩ := state
  cases place with
  | root index irPos offset =>
    by_cases hbd : InBounds index offset
    case neg => simp [Next, DirectoryReading.step, hbd] at h
    cases hend : (index.entryAt offset).isEnd with
    | false =>
      obtain ⟨later, hlat, hstep⟩ := next_root hbud hbd hend dir irPos
      obtain rfl := Sum.inl.inj (hstep.symm.trans h)
      have hhdr := hbd.1
      refine ⟨hlat, trivial, fun hmoves => .right _ (.right _ ?_)⟩
      have hpos := hmoves index offset rfl hbd hend
      change index.indexLength + 1 - _ < index.indexLength + 1 - _
      omega
    | true =>
      have hst : startBlocks dir { reader with fpos := dir.mftRecordSize } = .inl next := by
        unfold Next DirectoryReading.step at h
        dsimp only at h
        rw [if_neg (not_not.mpr hbd), if_pos hend] at h
        split_ifs at h with hpres
        · cases h
        · exact h
      obtain ⟨hread, hbit, hzero⟩ := eq_of_startBlocks (by simp; omega) hst
      refine ⟨by rw [hread]; exact hbud, hbit, fun _ => ?_⟩
      rw [← Prod.mk.eta (p := remaining dir next), hzero]
      exact .left _ _ Nat.zero_lt_one
  | bitmap bitmap bmp bit iaPos cache =>
    have hbit : bit ≤ 8 * dir.iSize + 2 := hnear
    unfold Next DirectoryReading.step at h
    dsimp only at h
    split_ifs at h
    · unfold enterIndexBuffer at h
      cases hpage : pageFor dir iaPos cache with
      | error code => simp [hpage] at h
      | ok mapped =>
        rw [hpage] at h
        dsimp only at h
        split_ifs at h
        obtain rfl := Sum.inl.inj h
        exact ⟨hbud, hbit, fun _ => .right _ (.left _ _ (Nat.lt_succ_self _))⟩
    · obtain ⟨nextBmp, nextPos, rfl, hnext⟩ := eq_of_findNext hbit h
      refine ⟨hbud, hnext, fun _ => .right _ (.left _ _ ?_)⟩
      change 2 * (8 * dir.iSize + 3 - (bit + 1)) + 1 < 2 * (8 * dir.iSize + 3 - bit) + 1
      omega
  | block bitmap bmp bit iaPos cache ia offset =>
    have hbit : bit ≤ 8 * dir.iSize + 2 := hnear
    by_cases hbd : InBounds ia.index offset
    case neg => simp [Next, DirectoryReading.step, hbd] at h
    cases hend : (ia.index.entryAt offset).isEnd with
    | false =>
      obtain ⟨later, hlat, hstep⟩ := next_block hbud hbd hend dir bitmap bmp bit iaPos cache
      obtain rfl := Sum.inl.inj (hstep.symm.trans h)
      have hhdr := hbd.1
      refine ⟨hlat, hbit, fun hmoves => .right _ (.right _ ?_)⟩
      have hpos := hmoves ia.index offset rfl hbd hend
      change ia.index.indexLength + 1 - _ < ia.index.indexLength + 1 - _
      omega
    | true =>
      have hfind : findNextIndexBuffer dir reader bitmap bmp bit iaPos cache = .inl next := by
        unfold Next DirectoryReading.step at h
        dsimp only at h
        rwa [if_neg (not_not.mpr hbd), if_pos hend] at h
      obtain ⟨nextBmp, nextPos, rfl, hnext⟩ := eq_of_findNext hbit hfind
      refine ⟨hbud, hnext, fun _ => .right _ (.left _ _ ?_)⟩
      change 2 * (8 * dir.iSize + 3 - (bit + 1)) + 1 < 2 * (8 * dir.iSize + 3 - bit)
      omega

theorem startRoot_spec (hbud : reader.budget = none)
    (hfpos : reader.fpos - dir.mftRecordSize ≤ dir.iSize + 2)
    (h : startRoot dir reader = .inl first) :
    first.reader.budget = none ∧ NearBit dir first.place := by
  unfold startRoot at h
  by_cases hbuff : dir.nameBuffer = false
  case pos => simp [hbuff] at h
  by_cases hblks : (dir.mftRecordSize : ℤ) ≤ reader.fpos
  · rw [if_neg hbuff, if_pos hblks] at h
    obtain ⟨hread, hbit, -⟩ := eq_of_startBlocks hfpos h
    exact ⟨by rw [hread]; exact hbud, hbit⟩
  · rw [if_neg hbuff, if_neg hblks] at h
    cases hmft : dir.mapMftRecord with
    | error code => simp [hmft] at h
    | ok done =>
      cases hroot : dir.lookupRoot with
      | error code => cases hctx : dir.getSearchCtx <;> simp [hmft, hctx, hroot] at h
      | ok index =>
        rw [hmft, hroot] at h
        split_ifs at h
        obtain rfl := Sum.inl.inj h
        exact ⟨hbud, trivial⟩

theorem start_spec (h : start dir ⟨fpos, none, [], []⟩ = .inl first) :
    first.reader.budget = none ∧ NearBit dir first.place := by
  unfold start at h
  split_ifs at h with hend hdot
  · refine startRoot_spec ?_ ?_ h
    · rfl
    · dsimp only
      omega
  · unfold startDotDot at h
    split_ifs at h with hdotDot
    · refine startRoot_spec ?_ ?_ h
      · rfl
      · dsimp only
        omega
    · refine startRoot_spec rfl ?_ h
      omega

theorem keeps_of_reaches (hbud : first.reader.budget = none) (hnear : NearBit dir first.place)
    (h : Reaches (DirectoryReading.step dir) first state) :
    state.reader.budget = none ∧ NearBit dir state.place := by
  induction h with
  | refl => exact ⟨hbud, hnear⟩
  | tail _ hnext ih =>
    obtain ⟨hlat, hnearer, -⟩ := smaller_of_next ih.1 ih.2 hnext
    exact ⟨hlat, hnearer⟩

theorem readdirReturns_iff : ReaddirReturns dir fpos ↔ ReaddirStraight dir fpos := by
  rw [readdirReturns_iff_halts]
  constructor
  · intro hhalts first state hst hrch index offset hent hbd hend hzero
    obtain ⟨hbud, hnear⟩ := start_spec hst
    have hkeeps := keeps_of_reaches hbud hnear hrch
    exact not_halts_of_length_zero hkeeps.1 hent hbd hend hzero
      ((halts_iff_of_reaches hrch).mp (hhalts first hst))
  · intro hstra first hst
    obtain ⟨hbud, hnear⟩ := start_spec hst
    refine halts_of_measure wellFounded_smaller (remaining dir) (P := fun state =>
      Reaches (DirectoryReading.step dir) first state ∧ state.reader.budget = none ∧
        NearBit dir state.place) ?_ ⟨.refl, hbud, hnear⟩
    rintro state next ⟨hrch, hstate, hbit⟩ hnext
    obtain ⟨hlat, hnearer, hless⟩ := smaller_of_next hstate hbit hnext
    exact ⟨⟨hrch.tail hnext, hlat, hnearer⟩, hless (hstra first state hst hrch)⟩

end

/-! ### Lookups and listings -/

/-- Assumes: finitely many index blocks. A lookup and a listing return if and only if the lookup is
straight and the listing comes to no entry of length zero. -/
theorem walksReturn_iff (vol : DirectoryLookup.NameVolume) (uname : Name)
    {dir : DirectoryLookup.DirInode} (hfinite : FinitelyManyPages dir.index) (listed : Directory)
    (fpos : ℤ) : LookupReturns vol uname dir ∧ ReaddirReturns listed fpos ↔
      LookupStraight vol uname dir ∧ ReaddirStraight listed fpos :=
  and_congr (lookupReturns_iff hfinite) readdirReturns_iff

section

def exampleVolume : DirectoryLookup.NameVolume := ⟨[], true, fun _ => true⟩

def constantNode {κ : Type} (length : ℕ) (content : κ) : IndexHeader κ where
  entriesOffset := 16
  indexLength := 112
  allocatedSize := 112
  isLeaf := true
  entryAt _ := ⟨length, 82, false, false, 0, content⟩

def lookupDir (length : ℕ) : DirectoryLookup.DirInode where
  index := ⟨12, 12, 4096, false, fun _ => .error .eio, Nat.le_add_right 12 0⟩
  mapMftRecord := .ok ()
  getSearchCtx := true
  lookupRoot := .ok (constantNode length ⟨[97], 1, 64⟩)

def listedDir (length : ℕ) : Directory where
  ino := 32
  parentIno := 5
  iSize := 0
  mftRecordSize := 1024
  blockSizeBits := 12
  vcnSizeBits := 12
  indexAllocPresent := false
  showSystemFiles := false
  ntfsUcstonls _ := some [97]
  nameBuffer := true
  mapMftRecord := .ok ()
  getSearchCtx := true
  lookupRoot := .ok (constantNode length ⟨[97], 1, 64, false⟩)
  rootBuffer := true
  bitmap := .error .enoent
  mapPage _ := .error .eio
  iSize_lt := by decide

theorem finitelyManyPages_lookupDir (length : ℕ) : FinitelyManyPages (lookupDir length).index := by
  unfold FinitelyManyPages lookupDir
  simp

theorem finitelyManyPages_twoNames (low high : DirectoryLookup.FileName) :
    FinitelyManyPages (DirectoryLookup.twoNames low high).index := by
  refine Set.Subsingleton.finite ?_
  rintro page ⟨index, hpage⟩ page' ⟨index', hpage'⟩
  exact Except.ok.inj (hpage.symm.trans hpage')

/-- A directory with the name "b" in its root and the name "a" in an index block. -/
theorem walksReturn_twoNames : LookupReturns exampleVolume [97]
      (DirectoryLookup.twoNames ⟨[97], 1, 64⟩ ⟨[98], 1, 65⟩) ∧ ReaddirReturns (listedDir 96) 0 ↔
    LookupStraight exampleVolume [97]
      (DirectoryLookup.twoNames ⟨[97], 1, 64⟩ ⟨[98], 1, 65⟩) ∧ ReaddirStraight (listedDir 96) 0 :=
  walksReturn_iff exampleVolume [97] (finitelyManyPages_twoNames _ _) (listedDir 96) 0

/-- An entry of length zero keeps the lookup of a later name from returning, and the listing. -/
theorem not_walksReturn_zeroLength : ¬ LookupReturns exampleVolume [98] (lookupDir 0) ∧
    ¬ ReaddirReturns (listedDir 0) 0 := by
  constructor
  · rw [lookupReturns_iff (finitelyManyPages_lookupDir 0)]
    intro hstraight
    have hpasses := (hstraight _ rfl rfl rfl).passes _ none .refl
    exact hpasses ⟨⟨by decide, by decide⟩, rfl, rfl⟩ rfl rfl
  · rw [readdirReturns_iff]
    intro hstraight
    exact hstraight _ _ rfl .refl (constantNode 0 ⟨[97], 1, 64, false⟩) 16 rfl
      ⟨by decide, by decide⟩ rfl rfl

end

end AdvancedOs.Ntfs.DirectoryTermination
