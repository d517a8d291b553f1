import AdvancedOs.Ntfs.RunlistElements

/-!
# The extent inodes of a base inode

A file whose attributes do not fit into one mft record has extent records. `map_extent_mft_record`
maps one of them: the base inode keeps an array of the extent inodes it has met, and a reference to
a record that is not among them makes a new extent inode and attaches it. The array grows by four
pointers at a time, whenever their number is a multiple of four.

`mapExtentMftRecord_cases` says all that a call can do. Over any sequence of calls no record is
attached twice, the array has room for the number of its pointers rounded up to a multiple of four,
and a call that fails changes nothing (`extents_cached`).

A reference can come without a sequence number. Such a reference is not checked when the extent
inode is made, but it is when the extent inode is found in the array, so that the first call with it
succeeds and every later one fails. `repeats_iff` says that there is no other way to be refused
behind a success.
-/

namespace AdvancedOs.Ntfs.ExtentInodes

open RunlistElements Function List

/-! ### The driver -/

/-- An mft record: its sequence number and its bytes. -/
structure MftRecord where
  sequenceNumber : UInt16
  bytes : List UInt8

/-- An extent inode, where it lies in memory, and the reference it was made for. -/
structure ExtentInode where
  address : ℕ
  mftNo : ℕ
  seqNo : UInt16

/-- A base inode: its references, its extent inodes, and the number of pointers their array has room
for. -/
structure BaseInode where
  count : ℤ
  extentNtfsInos : List ExtentInode
  capacity : ℕ

/-- What a call finds: memory for an inode and for an array, and the records of the mft. No request
for 2 GiB or more is served. -/
structure Machine where
  newExtentInode : Option ℕ
  kmalloc : ℕ → Bool
  kmalloc_lt : ∀ bytes, kmalloc bytes = true → bytes < 2 ^ 31
  mapMftRecord : ℕ → Except Errno MftRecord

/-- `MREF`, the record number of a reference. -/
def mrefOf (mref : ℕ) : ℕ := mref % 2 ^ 48

/-- `MSEQNO`, the sequence number of a reference. -/
def mseqnoOf (mref : ℕ) : UInt16 := UInt16.ofNat (mref / 2 ^ 48)

/-- `new_size`, an `int` that is passed to `kmalloc` as a `size_t`. -/
def newSize (nrExtents : ℕ) : ℕ := (Int.bmod ((nrExtents + 4) * 8) (2 ^ 32) % 2 ^ 64).toNat

variable (machine : Machine) (base : BaseInode)

def attached (mref : ℕ) : Option ExtentInode :=
  base.extentNtfsInos.find? fun ni => ni.mftNo == mrefOf mref

/-- The number of pointers the array has room for before one more is added. -/
def grownCapacity : Option ℕ :=
  let nrExtents := base.extentNtfsInos.length
  if nrExtents % 4 = 0 then
    if machine.kmalloc (newSize nrExtents) then some (newSize nrExtents / 8) else none
  else some base.capacity

def addCount (change : ℤ) : BaseInode := { base with count := base.count + change }

def mapExtentMftRecord (mref : ℕ) : BaseInode × Except Failure (ExtentInode × MftRecord) :=
  let base := addCount base 1
  match attached base mref with
  | some ni =>
    (addCount base (-1), match machine.mapMftRecord ni.mftNo with
      | .error why => .error (.errno why)
      | .ok m => if m.sequenceNumber = mseqnoOf mref then .ok (ni, m) else .error (.errno .eio))
  | none =>
    match machine.newExtentInode with
    | none => (addCount base (-1), .error (.errno .enomem))
    | some address =>
      let ni : ExtentInode := ⟨address, mrefOf mref, mseqnoOf mref⟩
      match machine.mapMftRecord ni.mftNo with
      | .error why => (addCount base (-1), .error (.errno why))
      | .ok m =>
        -- A reference without a sequence number is not checked here.
        if mseqnoOf mref ≠ 0 ∧ m.sequenceNumber ≠ mseqnoOf mref then
          (addCount base (-1), .error (.errno .eio))
        else match grownCapacity machine base with
          | none => (addCount base (-1), .error (.errno .enomem))
          | some capacity =>
            if capacity ≤ base.extentNtfsInos.length then (addCount base (-1), .error .overrun)
            else (addCount ⟨base.count, base.extentNtfsInos ++ [ni], capacity⟩ (-1), .ok (ni, m))

def run (calls : List (Machine × ℕ)) : BaseInode :=
  calls.foldl (fun base call => (mapExtentMftRecord call.1 base call.2).1) base

/-! ### What a call can do -/

variable {machine base} {mref : ℕ} {ni : ExtentInode} {m : MftRecord}

theorem attached_addCount (change : ℤ) : attached (addCount base change) mref =
    attached base mref := rfl

@[simp] theorem addCount_addCount : addCount (addCount base 1) (-1) = base := by
  simp [addCount]

theorem mftNo_of_attached (hni : attached base mref = some ni) : ni.mftNo = mrefOf mref := by
  simpa using List.find?_some hni

theorem mapExtentMftRecord_of_attached (hni : attached base mref = some ni)
    (hm : machine.mapMftRecord (mrefOf mref) = .ok m) : mapExtentMftRecord machine base mref =
      (base, if m.sequenceNumber = mseqnoOf mref then .ok (ni, m) else .error (.errno .eio)) := by
  rw [← mftNo_of_attached hni] at hm
  simp only [mapExtentMftRecord, attached_addCount, hni, hm, addCount_addCount]

/-- A call fails and leaves the base inode as it was, or maps an attached extent inode, or attaches
a new one. -/
theorem mapExtentMftRecord_cases (machine : Machine) (base : BaseInode) (mref : ℕ) :
    (∃ why, mapExtentMftRecord machine base mref = (base, .error why) ∧
        (why = .overrun → ∃ capacity, grownCapacity machine base = some capacity ∧
          capacity ≤ base.extentNtfsInos.length)) ∨
      (∃ ni m, attached base mref = some ni ∧ machine.mapMftRecord (mrefOf mref) = .ok m ∧
        m.sequenceNumber = mseqnoOf mref ∧ mapExtentMftRecord machine base mref =
        (base, .ok (ni, m))) ∨
      ∃ address m capacity, attached base mref = none ∧ machine.mapMftRecord (mrefOf mref) = .ok m ∧
        (mseqnoOf mref ≠ 0 → m.sequenceNumber = mseqnoOf mref) ∧
        grownCapacity machine base = some capacity ∧ base.extentNtfsInos.length < capacity ∧
        mapExtentMftRecord machine base mref = (⟨base.count, base.extentNtfsInos ++
          [⟨address, mrefOf mref, mseqnoOf mref⟩], capacity⟩,
          .ok (⟨address, mrefOf mref, mseqnoOf mref⟩, m)) := by
  cases hatta : attached base mref with
  | some ni =>
    cases hm : machine.mapMftRecord (mrefOf mref) with
    | error why =>
      rw [← mftNo_of_attached hatta] at hm
      refine .inl ⟨.errno why, ?_, fun h => by cases h⟩
      simp only [mapExtentMftRecord, attached_addCount, hatta, hm, addCount_addCount]
    | ok m =>
      rw [mapExtentMftRecord_of_attached hatta hm]
      by_cases hseq : m.sequenceNumber = mseqnoOf mref
      · exact .inr (.inl ⟨ni, m, rfl, rfl, hseq, by rw [if_pos hseq]⟩)
      · exact .inl ⟨_, by rw [if_neg hseq], fun h => by cases h⟩
  | none =>
    have hgrown : grownCapacity machine (addCount base 1) = grownCapacity machine base := rfl
    unfold mapExtentMftRecord
    simp only [attached_addCount, hatta, hgrown, addCount_addCount]
    cases machine.newExtentInode with
    | none => exact .inl ⟨_, rfl, fun h => by cases h⟩
    | some address =>
      cases hm : machine.mapMftRecord (mrefOf mref) with
      | error why => exact .inl ⟨_, rfl, fun h => by cases h⟩
      | ok m =>
        dsimp only
        split_ifs with hstale
        · exact .inl ⟨_, rfl, fun h => by cases h⟩
        · cases hcapa : grownCapacity machine base with
          | none => exact .inl ⟨_, rfl, fun h => by cases h⟩
          | some capacity =>
            dsimp only
            split_ifs with hroom
            · exact .inl ⟨_, rfl, fun _ => ⟨capacity, rfl, hroom⟩⟩
            · refine .inr (.inr ⟨address, m, capacity, trivial, rfl, fun hseq => ?_, rfl,
                not_le.mp hroom, by simp [addCount]⟩)
              exact not_not.mp fun hne => hstale ⟨hseq, hne⟩

/-! ### Over a sequence of calls -/

/-- The array of extent inodes: no record is there twice, and there is room for the number of
pointers rounded up to a multiple of four. -/
structure Cached (base : BaseInode) : Prop where
  nodup : (base.extentNtfsInos.map ExtentInode.mftNo).Nodup
  capacity : base.capacity = (base.extentNtfsInos.length + 3) / 4 * 4
  small : base.capacity * 8 < 2 ^ 31

theorem Cached.grownCapacity (hcach : Cached base) {capacity : ℕ}
    (hgrown : grownCapacity machine base = some capacity) :
    capacity = (base.extentNtfsInos.length + 1 + 3) / 4 * 4 ∧ capacity * 8 < 2 ^ 31 := by
  have hcapa := hcach.capacity
  have hsm := hcach.small
  unfold ExtentInodes.grownCapacity at hgrown
  dsimp only at hgrown
  split_ifs at hgrown with hfull hmemo
  · have hlt := machine.kmalloc_lt _ hmemo
    cases hgrown
    -- The product has not left the range of an `int`: a negative size is far too large for
    -- `kmalloc`.
    unfold newSize at hlt ⊢
    rw [Int.bmod_def] at hlt ⊢
    split_ifs at hlt ⊢ <;> omega
  · cases hgrown
    omega

theorem Cached.step (hcach : Cached base) (machine : Machine) (mref : ℕ) :
    Cached (mapExtentMftRecord machine base mref).1 := by
  rcases mapExtentMftRecord_cases machine base mref with ⟨why, hcall, -⟩ | ⟨ni, m, -, -, -, hcall⟩ |
    ⟨address, m, capacity, hnone, -, -, hgrown, -, hcall⟩
  · rwa [hcall]
  · rwa [hcall]
  · obtain ⟨hcapa, hsm⟩ := hcach.grownCapacity hgrown
    rw [hcall]
    refine ⟨?_, by simpa using hcapa, hsm⟩
    rw [map_append, nodup_append]
    refine ⟨hcach.nodup, by simp, fun mftNo hmem other hoth => ?_⟩
    obtain ⟨ni, hni, rfl⟩ := List.mem_map.mp hmem
    have hne := List.find?_eq_none.mp hnone ni hni
    simp only [map_cons, map_nil, mem_singleton] at hoth
    simpa [hoth] using hne

theorem Cached.run (hcach : Cached base) (calls : List (Machine × ℕ)) :
    Cached (run base calls) := by
  induction calls generalizing base with
  | nil => exact hcach
  | cons call calls ih => exact ih (hcach.step call.1 call.2)

/-- Assumes: a base inode with a well-formed array. Behind any sequence of calls no record is
attached twice, the array has room for the number of its pointers rounded up to a multiple of four,
and whatever the next call finds, it keeps the references to the base inode and writes inside the
array, and if it fails, it changes nothing. -/
theorem extents_cached (hcached : Cached base) (calls : List (Machine × ℕ)) :
    ((run base calls).extentNtfsInos.map ExtentInode.mftNo).Nodup ∧
      (run base calls).capacity = ((run base calls).extentNtfsInos.length + 3) / 4 * 4 ∧
      ∀ machine mref, let out := mapExtentMftRecord machine (run base calls) mref
        out.1.count = (run base calls).count ∧ out.2 ≠ .error .overrun ∧
          ∀ why, out.2 = .error why → out.1 = run base calls := by
  have hrun := hcached.run calls
  refine ⟨hrun.nodup, hrun.capacity, fun machine mref => ?_⟩
  rcases mapExtentMftRecord_cases machine (run base calls) mref with ⟨why, hcall, hoverrun⟩ |
    ⟨ni, m, -, -, -, hcall⟩ | ⟨address, m, capacity, -, -, -, -, -, hcall⟩
  · rw [hcall]
    refine ⟨rfl, fun h => ?_, fun _ _ => rfl⟩
    obtain ⟨capacity, hgrown, hle⟩ := hoverrun (Except.error.inj h)
    have hroom := (hrun.grownCapacity hgrown).1
    omega
  · rw [hcall]
    exact ⟨rfl, by simp, by simp⟩
  · rw [hcall]
    exact ⟨rfl, by simp, by simp⟩

def noExtents : BaseInode := ⟨1, [], 0⟩

/-- A machine with memory, in which every record has the sequence number. -/
def steady (sequenceNumber : UInt16) : Machine :=
  ⟨some 16, fun bytes => decide (bytes < 2 ^ 31), fun _ h => of_decide_eq_true h,
    fun _ => .ok ⟨sequenceNumber, []⟩⟩

/-- The reference to a record with sequence number 5. -/
def fifth (mftNo : ℕ) : ℕ := mftNo + 5 * 2 ^ 48

/-- Record 30 is attached, which makes room for four, and found again. Then a stale reference to
record 31 fails, and records 31 to 34 are attached, for the last of which the array grows. -/
def sevenCalls : List (Machine × ℕ) :=
  [(steady 5, fifth 30), (steady 5, fifth 30), (steady 4, fifth 31), (steady 5, fifth 31),
    (steady 5, fifth 32), (steady 5, fifth 33), (steady 5, fifth 34)]

theorem extents_cached_sevenCalls : Cached noExtents ∧
    (run noExtents sevenCalls).extentNtfsInos.map ExtentInode.mftNo = [30, 31, 32, 33, 34] ∧
    (run noExtents sevenCalls).capacity = 8 ∧
    (mapExtentMftRecord (steady 4) (run noExtents sevenCalls) (fifth 35)).2 = .error (.errno .eio) ∧
    (mapExtentMftRecord (steady 4) (run noExtents sevenCalls) (fifth 35)).1 =
      run noExtents sevenCalls := by
  have hcached : Cached noExtents := ⟨by decide, by decide, by decide⟩
  obtain ⟨-, hcapacity, hnext⟩ := extents_cached hcached sevenCalls
  have hstale : (mapExtentMftRecord (steady 4) (run noExtents sevenCalls) (fifth 35)).2 =
    .error (.errno .eio) := rfl
  exact ⟨hcached, rfl, hcapacity, hstale, (hnext _ _).2.2 _ hstale⟩

/-! ### The same call again -/

theorem attached_run (hni : attached base mref = some ni) (calls : List (Machine × ℕ)) :
    attached (run base calls) mref = some ni := by
  induction calls generalizing base with
  | nil => exact hni
  | cons call calls ih =>
    refine ih (show attached (mapExtentMftRecord call.1 base call.2).1 mref = some ni from ?_)
    rcases mapExtentMftRecord_cases call.1 base call.2 with ⟨why, hcall, -⟩ |
      ⟨other, m, -, -, -, hcall⟩ | ⟨address, m, capacity, -, -, -, -, -, hcall⟩
    · rwa [hcall]
    · rwa [hcall]
    · unfold attached at hni ⊢
      rw [hcall, List.find?_append, hni]
      rfl

/-- Behind the first call, every call with the same reference gives the same extent inode and
record, as long as the mft stays as it is. -/
def Repeats (machine : Machine) (base : BaseInode) (mref : ℕ) : Prop :=
  ∀ calls later, later.mapMftRecord = machine.mapMftRecord →
    (mapExtentMftRecord later (run (mapExtentMftRecord machine base mref).1 calls) mref).2 =
      (mapExtentMftRecord machine base mref).2

/-- Assumes: a call that succeeds. Later calls with the same reference do so, too, exactly if the
extent inode was attached already, or the reference has a sequence number, or the record has
none. -/
theorem repeats_iff (hfirst : (mapExtentMftRecord machine base mref).2 = .ok (ni, m)) :
    Repeats machine base mref ↔ (attached base mref).isSome ∨ mseqnoOf mref ≠ 0 ∨
      ∀ record, machine.mapMftRecord (mrefOf mref) = .ok record → record.sequenceNumber = 0 := by
  rcases mapExtentMftRecord_cases machine base mref with ⟨why, hcall, -⟩ |
    ⟨other, record, hattached, hrecord, hseq, hcall⟩ |
    ⟨address, record, capacity, hnone, hrecord, hseq, -, -, hcall⟩
  · rw [hcall] at hfirst
    cases hfirst
  · refine iff_of_true (fun calls later hlater => ?_) (.inl (by rw [hattached]; rfl))
    rw [hcall, mapExtentMftRecord_of_attached (attached_run hattached calls) (hlater ▸ hrecord),
      if_pos hseq]
  · have hattached : attached (mapExtentMftRecord machine base mref).1 mref =
        some ⟨address, mrefOf mref, mseqnoOf mref⟩ := by
      unfold attached at hnone ⊢
      rw [hcall, List.find?_append, hnone]
      simp
    have hagain := fun calls later (hlater : Machine.mapMftRecord later = machine.mapMftRecord) =>
      mapExtentMftRecord_of_attached (attached_run hattached calls) (hlater ▸ hrecord)
    constructor
    · intro hrepeats
      have hsame := hrepeats [] machine rfl
      rw [hagain [] machine rfl, hcall] at hsame
      by_contra hnot
      rw [hnone] at hnot
      simp only [Option.isSome_none, Bool.false_eq_true, false_or, not_or, not_not] at hnot
      refine hnot.2 fun found hfound => ?_
      rw [hrecord] at hfound
      cases hfound
      by_contra hne
      rw [if_neg fun h => hne (h.trans hnot.1)] at hsame
      cases hsame
    · intro hcondition calls later hlater
      rw [hagain calls later hlater, hcall, if_pos]
      rw [hnone] at hcondition
      by_cases hzero : mseqnoOf mref = 0
      · rcases hcondition with hsome | hne | hall
        · cases hsome
        · exact absurd hzero hne
        · rw [hall record hrecord, hzero]
      · exact hseq hzero

/-- The reference to record 30 with sequence number 5. -/
theorem repeats_iff_steady : Repeats (steady 5) noExtents (30 + 5 * 2 ^ 48) :=
  (@repeats_iff (steady 5) noExtents (30 + 5 * 2 ^ 48) ⟨16, 30, 5⟩ ⟨5, []⟩ rfl).mpr
    (.inr (.inl (by decide)))

/-- The reference to record 30 without a sequence number is accepted once. -/
theorem not_repeats_steady :
    (mapExtentMftRecord (steady 5) noExtents 30).2 = .ok (⟨16, 30, 0⟩, ⟨5, []⟩) ∧
      ¬ Repeats (steady 5) noExtents 30 := by
  refine ⟨rfl, fun hrepeats => ?_⟩
  have hsame := hrepeats [] (steady 5) rfl
  cases hsame

end AdvancedOs.Ntfs.ExtentInodes
