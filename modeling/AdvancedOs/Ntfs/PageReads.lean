import AdvancedOs.Ntfs.RunlistElements

/-!
# Reading a page of a resident attribute

`ntfs_readpage` fills a page of the page cache. The pages of an attribute that is not resident are
left to `ntfs_read_block` and `ntfs_read_compressed_block`. The value of a resident attribute is
copied from the mft record into the first page, behind a search for the attribute, and all other
pages are zero.

The labels at the end of the function fall through into one another: behind the search come the
labels that put the search context and unmap the record, and then the one that sets the page
uptodate. The errors of the search jump to the first two of them, so that they set the page
uptodate, too, although nothing has been copied. `readpage_truthful_iff` says that this is the only
case in which the function fails and the page looks as if it had been read, or in which a page that
looks so does not hold the value of the attribute (`Truthful`). Nothing is held when the function
returns, and only the lock of the page when it leaves the page to another one
(`released_ntfsReadpage`).

A write in parallel can make the attribute non-resident before its record is mapped. The function
then starts again; `Pass` is what it finds between one start and the next.
-/

namespace AdvancedOs.Ntfs.PageReads

open RunlistElements

/-! ### The driver -/

/-- A page of the page cache: its number in the file, its bytes and its flags. -/
structure Page where
  index : ℕ
  mem : ℕ → UInt8
  uptodate : Bool
  locked : Bool

/-- The types of attributes that the function tells apart. -/
inductive AttrType
  | indexAllocation | data | other
deriving DecidableEq, Repr

/-- The part of the inode that stays as it is during a call. -/
structure Inode where
  type : AttrType
  named : Bool
  encrypted : Bool
  compressed : Bool

/-- What the function finds between one start and the next: the size of the file, whether the
attribute is resident, before and after its record is mapped, whether this and the search fail, the
value of the attribute, and its sizes behind the search. A value is not longer than a record, which
is not longer than a page. -/
structure Pass where
  iSize : ℕ
  nonResident : Bool
  mapMftRecord : Except Errno Unit
  nonResidentNow : Bool
  searchCtx : Bool
  attrLookup : Except Errno Unit
  value : List UInt8
  initializedSize : ℕ
  iSizeNow : ℕ
  length_value_le : value.length ≤ pageSize

/-- A call: its page, whether it has set the page uptodate, and what it holds. -/
structure Call where
  page : Page
  marked : Bool
  recordMapped : Bool
  ctxHeld : Bool

/-- How a pass ends. A page of an attribute that is not resident is left to another function. A call
that starts again goes on with what it has; it is `unfinished` if no further pass is given. -/
inductive Outcome
  | returned (pass : Pass) (call : Call) (err : Except Errno Unit)
  | readCompressedBlock (call : Call)
  | readBlock (call : Call)
  | retry (call : Call)
  | unfinished (page : Page)
  | bug

section

variable (ni : Inode) (pass : Pass)

def zeroUser (page : Page) : Page :=
  { page with mem := fun i => if i < pageSize then 0 else page.mem i }

def errOut (err : Except Errno Unit) (call : Call) : Outcome :=
  .returned pass { call with page := { call.page with locked := false } } err

def done (err : Except Errno Unit) (call : Call) : Outcome :=
  errOut pass err { call with page := { call.page with uptodate := true }, marked := true }

def unmErrOut (err : Except Errno Unit) (call : Call) : Outcome :=
  done pass err { call with recordMapped := false }

def putUnmErrOut (err : Except Errno Unit) (call : Call) : Outcome :=
  unmErrOut pass err { call with ctxHeld := false }

def attrLen : ℕ := min (min pass.value.length pass.initializedSize) pass.iSizeNow

def copyValue (page : Page) : Page :=
  { page with
    mem := fun i => if i < attrLen pass then pass.value.getD i 0
      else if i < pageSize then 0 else page.mem i }

def search (page : Page) : Outcome :=
  if pass.searchCtx = false then unmErrOut pass (.error .enomem) ⟨page, false, true, false⟩
  else match pass.attrLookup with
    | .error code => putUnmErrOut pass (.error code) ⟨page, false, true, true⟩
    | .ok () => putUnmErrOut pass (.ok ()) ⟨copyValue pass page, false, true, true⟩

/-- The record is unmapped, and the function starts again. -/
def retryReadpage (call : Call) : Outcome := .retry { call with recordMapped := false }

def readResident (page : Page) : Outcome :=
  if 0 < page.index then done pass (.ok ()) ⟨zeroUser page, false, false, false⟩
  else match pass.mapMftRecord with
    | .error code => errOut pass (.error code) ⟨page, false, false, false⟩
    | .ok () =>
      if pass.nonResidentNow = true then retryReadpage ⟨page, false, true, false⟩
      else search pass page

/-- The function from one start to the next. -/
def readPass (page : Page) : Outcome :=
  if page.locked = false then .bug
  else if (pass.iSize + pageSize - 1) / pageSize ≤ page.index then
    done pass (.ok ()) ⟨zeroUser page, false, false, false⟩
  else if page.uptodate = true then errOut pass (.ok ()) ⟨page, false, false, false⟩
  else if ni.type ≠ .indexAllocation ∧ ni.encrypted = true then
    if ni.type ≠ .data then .bug else errOut pass (.error .eacces) ⟨page, false, false, false⟩
  else if ni.type ≠ .indexAllocation ∧ pass.nonResident = true ∧ ni.compressed = true then
    if ni.type ≠ .data ∨ ni.named = true then .bug
    else .readCompressedBlock ⟨page, false, false, false⟩
  else if pass.nonResident = true then .readBlock ⟨page, false, false, false⟩
  else readResident pass page

def ntfsReadpage : List Pass → Page → Outcome
  | [], page => .unfinished page
  | pass :: passes, page => match readPass ni pass page with
    | .retry call => ntfsReadpage passes call.page
    | outcome => outcome

end

/-! ### Pages that have been read -/

section

variable (ni : Inode) (pass : Pass) (page : Page)

def Pass.byte (iSize offset : ℕ) : UInt8 :=
  if offset < min pass.initializedSize iSize then pass.value.getD offset 0 else 0

/-- The page holds the bytes of the attribute, with the size of the file as it has been read before
or behind the search. -/
def Shows : Prop :=
  (∀ i < pageSize, page.mem i = pass.byte pass.iSize (page.index * pageSize + i)) ∨
    ∀ i < pageSize, page.mem i = pass.byte pass.iSizeNow (page.index * pageSize + i)

/-- A call that fails does not set the page uptodate, and one that does leaves the bytes of the
attribute in it. -/
def Truthful : Outcome → Prop
  | .returned pass call err =>
      (err ≠ .ok () → call.marked = false) ∧ (call.marked = true → Shows pass call.page)
  | _ => True

/-- The pass comes to the search for the attribute, if this is still resident then. -/
structure ReachesRecord : Prop where
  locked : page.locked = true
  inside : 0 < pass.iSize
  stale : page.uptodate = false
  allowed : ni.type = .indexAllocation ∨ ni.encrypted = false
  resident : pass.nonResident = false
  first : page.index = 0
  mapped : pass.mapMftRecord = .ok ()

structure SearchFails : Prop where
  reaches : ReachesRecord ni pass page
  resident : pass.nonResidentNow = false
  fails : pass.searchCtx = false ∨ pass.attrLookup ≠ .ok ()

theorem Pass.byte_eq_zero {pass : Pass} {iSize offset : ℕ}
    (hofs : min pass.value.length (min pass.initializedSize iSize) ≤ offset) :
    pass.byte iSize offset = 0 := by
  unfold Pass.byte
  split_ifs with hsize
  · rw [List.getD_eq_getElem?_getD, List.getElem?_eq_none (by omega)]
    rfl
  · rfl

variable {pass page}

theorem shows_zeroUser (hpage : pass.iSize ≤ page.index * pageSize ∨ 0 < page.index) :
    Shows pass (zeroUser page) := by
  refine .inl fun i hi => ?_
  have hlen := pass.length_value_le
  have hidx : 0 < page.index → pageSize ≤ page.index * pageSize := Nat.le_mul_of_pos_left pageSize
  have hzero : (zeroUser page).mem i = 0 := if_pos hi
  rw [hzero, Pass.byte_eq_zero]
  change _ ≤ page.index * pageSize + i
  omega

theorem shows_copyValue (hfst : page.index = 0) : Shows pass (copyValue pass page) := by
  refine .inr fun i hi => ?_
  have hidx : (copyValue pass page).index * pageSize + i = i := by
    change page.index * pageSize + i = i
    rw [hfst, Nat.zero_mul, Nat.zero_add]
  have hmem : (copyValue pass page).mem i =
      if i < attrLen pass then pass.value.getD i 0 else 0 := by
    unfold copyValue
    dsimp only
    rw [if_pos hi]
  rw [hidx, hmem]
  split_ifs with hcopi
  · unfold attrLen at hcopi
    exact (if_pos (by omega)).symm
  · unfold attrLen at hcopi
    exact (Pass.byte_eq_zero (by omega)).symm

theorem truthful_search (hfst : page.index = 0) :
    Truthful (search pass page) ↔ pass.searchCtx = true ∧ pass.attrLookup = .ok () := by
  unfold search
  cases pass.searchCtx with
  | false =>
    rw [if_pos rfl]
    exact iff_of_false (fun h => absurd (h.1 (by simp)) (by simp)) (by simp)
  | true =>
    rw [if_neg (by decide), and_iff_right rfl]
    cases pass.attrLookup with
    | error code => exact iff_of_false (fun h => absurd (h.1 (by simp)) (by simp)) (by simp)
    | ok _ => exact iff_of_true ⟨fun h => absurd rfl h, fun _ => shows_copyValue hfst⟩ rfl

theorem search_ne_retry (call : Call) : search pass page ≠ .retry call := by
  unfold search
  cases pass.searchCtx with
  | false => nofun
  | true => cases pass.attrLookup <;> nofun

theorem pages_le_iff (iSize index : ℕ) :
    (iSize + pageSize - 1) / pageSize ≤ index ↔ iSize ≤ index * pageSize := by
  rw [← Nat.lt_succ_iff, Nat.div_lt_iff_lt_mul (by decide), Nat.succ_mul]
  unfold pageSize
  omega

variable {ni : Inode}

theorem readPass_of_reachesRecord (hrch : ReachesRecord ni pass page) :
    readPass ni pass page =
      if pass.nonResidentNow = true then retryReadpage ⟨page, false, true, false⟩
      else search pass page := by
  have hpage : ¬ (pass.iSize + pageSize - 1) / pageSize ≤ page.index := by
    rw [pages_le_iff, hrch.first, Nat.zero_mul, not_le]
    exact hrch.inside
  have hallo : ¬ (ni.type ≠ .indexAllocation ∧ ni.encrypted = true) := by
    rcases hrch.allowed with h | h <;> simp [h]
  unfold readPass readResident
  rw [if_neg (by simp [hrch.locked]), if_neg hpage, if_neg (by simp [hrch.stale]),
    if_neg hallo, if_neg (by simp [hrch.resident]), if_neg (by simp [hrch.resident]),
    if_neg (by simp [hrch.first]), hrch.mapped]

theorem truthful_of_not_reachesRecord (hnot : ¬ ReachesRecord ni pass page) :
    (∀ call, readPass ni pass page ≠ .retry call) ∧ Truthful (readPass ni pass page) := by
  unfold readPass
  by_cases hlock : page.locked = false
  · rw [if_pos hlock]
    exact ⟨nofun, trivial⟩
  rw [if_neg hlock]
  by_cases hpage : (pass.iSize + pageSize - 1) / pageSize ≤ page.index
  · rw [if_pos hpage]
    rw [pages_le_iff] at hpage
    exact ⟨nofun, fun h => absurd rfl h, fun _ => shows_zeroUser (.inl hpage)⟩
  rw [if_neg hpage]
  by_cases hupt : page.uptodate = true
  · rw [if_pos hupt]
    exact ⟨nofun, fun _ => rfl, nofun⟩
  rw [if_neg hupt]
  by_cases hencr : ni.type ≠ .indexAllocation ∧ ni.encrypted = true
  · rw [if_pos hencr]
    split_ifs
    · exact ⟨nofun, trivial⟩
    · exact ⟨nofun, fun _ => rfl, nofun⟩
  rw [if_neg hencr]
  split_ifs with hcomp hbug hresident
  · exact ⟨nofun, trivial⟩
  · exact ⟨nofun, trivial⟩
  · exact ⟨nofun, trivial⟩
  unfold readResident
  by_cases hidx : 0 < page.index
  · rw [if_pos hidx]
    exact ⟨nofun, fun h => absurd rfl h, fun _ => shows_zeroUser (.inr hidx)⟩
  rw [if_neg hidx]
  cases hmap : pass.mapMftRecord with
  | error code => exact ⟨nofun, fun _ => rfl, nofun⟩
  | ok _ =>
    refine absurd ⟨by simpa using hlock, ?_, by simpa using hupt,
      ?_, by simpa using hresident, by omega, hmap⟩ hnot
    · rw [pages_le_iff] at hpage
      omega
    · by_contra hnone
      exact hencr (by simpa [not_or] using hnone)

end

/-! ### Calls -/

section

variable {ni : Inode} {page : Page}

theorem ntfsReadpage_of_ne {pass : Pass} (hne : ∀ call, readPass ni pass page ≠ .retry call)
    (passes : List Pass) : ntfsReadpage ni (pass :: passes) page = readPass ni pass page := by
  rw [ntfsReadpage]
  cases hout : readPass ni pass page with
  | retry call => exact absurd hout (hne call)
  | _ => rfl

def CallSearchFails (ni : Inode) (passes : List Pass) (page : Page) : Prop :=
  ∃ retried pass rest, passes = retried ++ pass :: rest ∧
    (∀ earlier ∈ retried, ReachesRecord ni earlier page ∧ earlier.nonResidentNow = true) ∧
    SearchFails ni pass page

theorem callSearchFails_cons {pass : Pass} {passes : List Pass} :
    CallSearchFails ni (pass :: passes) page ↔ SearchFails ni pass page ∨
      (ReachesRecord ni pass page ∧ pass.nonResidentNow = true ∧
      CallSearchFails ni passes page) := by
  constructor
  · rintro ⟨_ | ⟨first, retried⟩, last, rest, hpass, hretr, hfail⟩
    · obtain ⟨rfl, rfl⟩ := List.cons.inj hpass
      exact .inl hfail
    · obtain ⟨rfl, rfl⟩ := List.cons.inj hpass
      obtain ⟨hrch, hnow⟩ := hretr pass List.mem_cons_self
      exact .inr ⟨hrch, hnow, retried, last, rest, rfl,
        fun earlier h => hretr earlier (List.mem_cons_of_mem _ h), hfail⟩
  · rintro (hfail | ⟨hrch, hnow, retried, last, rest, rfl, hretr, hfail⟩)
    · exact ⟨[], pass, passes, rfl, nofun, hfail⟩
    · refine ⟨pass :: retried, last, rest, rfl, fun earlier h => ?_, hfail⟩
      rcases List.mem_cons.mp h with rfl | h
      · exact ⟨hrch, hnow⟩
      · exact hretr earlier h

/-- `ntfs_readpage` tells the truth just if no search fails: otherwise it returns an error and has
set the page uptodate. -/
theorem readpage_truthful_iff (ni : Inode) (passes : List Pass) (page : Page) :
    Truthful (ntfsReadpage ni passes page) ↔ ¬ CallSearchFails ni passes page := by
  -- A pass that starts again leaves the page as it is.
  induction passes with
  | nil =>
    refine iff_of_true trivial ?_
    rintro ⟨retried, pass, rest, hpasses, -⟩
    simp at hpasses
  | cons pass passes ih =>
    rw [callSearchFails_cons]
    by_cases hreaches : ReachesRecord ni pass page
    · have hpass := readPass_of_reachesRecord hreaches
      cases hnow : pass.nonResidentNow with
      | true =>
        have hnot : ¬ SearchFails ni pass page := fun h =>
          absurd (hnow.symm.trans h.resident) (by decide)
        rw [if_pos hnow] at hpass
        rw [ntfsReadpage, hpass, or_iff_right hnot]
        change Truthful (ntfsReadpage ni passes page) ↔ _
        rw [ih]
        exact not_congr ⟨fun h => ⟨hreaches, rfl, h⟩, fun h => h.2.2⟩
      | false =>
        rw [if_neg (by rw [hnow]; decide)] at hpass
        rw [ntfsReadpage_of_ne (by rw [hpass]; exact search_ne_retry), hpass,
          truthful_search hreaches.first, or_iff_left fun h => absurd h.2.1 (by decide)]
        constructor
        · rintro ⟨hctx, hlookup⟩ hfails
          rcases hfails.fails with hnone | hcode
          · exact absurd (hctx.symm.trans hnone) (by decide)
          · exact hcode hlookup
        · intro hnot
          by_contra hok
          refine hnot ⟨hreaches, hnow, ?_⟩
          by_contra hfine
          rw [not_or, not_ne_iff, Bool.not_eq_false] at hfine
          exact hok hfine
    · obtain ⟨hne, htruthful⟩ := truthful_of_not_reachesRecord hreaches
      rw [ntfsReadpage_of_ne hne]
      refine iff_of_true htruthful ?_
      rintro (hfails | ⟨hreaches', -⟩)
      · exact hreaches hfails.reaches
      · exact hreaches hreaches'

def outOfMemory : Pass where
  iSize := 1
  nonResident := false
  mapMftRecord := .ok ()
  nonResidentNow := false
  searchCtx := false
  attrLookup := .ok ()
  value := [0x61]
  initializedSize := 1
  iSizeNow := 1
  length_value_le := by decide

/-- A page with an error that looks as if it had been read. -/
theorem not_truthful_outOfMemory :
    ¬ Truthful (ntfsReadpage ⟨.data, false, false, false⟩ [outOfMemory]
      ⟨0, fun _ => 0xff, false, true⟩) := by
  have hreaches : ReachesRecord ⟨.data, false, false, false⟩ outOfMemory
      ⟨0, fun _ => 0xff, false, true⟩ :=
    ⟨rfl, Nat.one_pos, rfl, .inr rfl, rfl, rfl, rfl⟩
  have hpass := readPass_of_reachesRecord hreaches
  rw [if_neg (show ¬ outOfMemory.nonResidentNow = true from nofun)] at hpass
  rw [ntfsReadpage_of_ne (by rw [hpass]; exact search_ne_retry), hpass, truthful_search rfl]
  exact fun h => absurd h.1 nofun

end

end AdvancedOs.Ntfs.PageReads
