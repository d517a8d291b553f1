import AdvancedOs.Foundation.SortedScans
import AdvancedOs.Ntfs.NameCollation
import AdvancedOs.Ntfs.RunlistElements

/-!
# Attributes in an mft record

An mft record has attribute records one after the other, up to an end marker (`MftRecord.Lists`).
`ntfs_attr_find` looks for an attribute of some type, name and value from where the search context
stands, and leaves the context at the attribute where it ends.

What it does at each attribute is a `Verdict`, so that a search is a scan of the attributes
(`ntfsAttrFind_cases`), and calls one after the other find the hits of the scan, and then none
(`trace_ntfsAttrFind`).
-/

namespace AdvancedOs.Ntfs.AttributeRecords

open Foundation.ByteComparison Foundation.SortedScans RunlistElements NameCollation List

/-! ### The format -/

/-- An attribute record: the fields of its header that a search looks at, its name, and the value of
a resident attribute. -/
structure AttrRecord where
  type : UInt32
  length : ℕ
  nonResident : Bool
  name : Name
  attrInstance : ℕ
  lowestVcn : ℤ
  value : List UInt8

/-- An mft record, and the attribute records that reads at an offset in it give. -/
structure MftRecord where
  bytesAllocated : ℕ
  attrsOffset : ℕ
  attrAt : ℕ → AttrRecord

def atAttributeList : UInt32 := 0x20

def atEnd : UInt32 := 0xffffffff

/-- The mft number and the sequence number of an inode. -/
structure InodeNo where
  mftNo : ℕ
  seqNo : ℕ
deriving DecidableEq

/-- `ntfs_attr_search_ctx`. The attribute is given by its offset in the mft record, and the entry of
the attribute list by its offset in the list. -/
structure AttrSearchCtx where
  mrec : MftRecord
  attr : ℕ
  isFirst : Bool
  ntfsIno : InodeNo
  alEntry : Option ℕ
  baseNtfsIno : Option InodeNo
  baseMrec : Option MftRecord
  baseAttr : Option ℕ

def ntfsAttrInitSearchCtx (ni : InodeNo) (mrec : MftRecord) : AttrSearchCtx :=
  ⟨mrec, mrec.attrsOffset, true, ni, none, none, none, none⟩

/-- What an attribute is looked for by. A missing name stands for no name, a missing value for
any. -/
structure SearchArgs where
  type : UInt32
  name : Option Name
  ic : IgnoreCase
  val : Option (List UInt8)

/-! ### The driver -/

section

variable (upcase : List UInt16) (memcmp : Memcmp) (args : SearchArgs)

def collateVerdict (name other : Name) : Verdict :=
  let rc := ntfsCollateNames upcase 1 .ignoreCase name other
  if rc = -1 then .before
  else if rc ≠ 0 then .behind
  else
    let rc := ntfsCollateNames upcase 1 .caseSensitive name other
    if rc = -1 then .before
    else if rc ≠ 0 then .behind
    else .same

def nameVerdict (areEqual : Name → Bool) (other : Name) : Verdict :=
  match args.name with
  | none => if other = [] then .same else .before
  | some name => if areEqual name = true then .same else collateVerdict upcase name other

def valueVerdict (val value : List UInt8) : Verdict :=
  let rc := memcmp.compareCommon val value
  if rc = 0 then
    if val.length = value.length then .same else if val.length < value.length then .before
    else .behind
  else if rc < 0 then .before
  else .behind

def attrVerdict (a : AttrRecord) : Verdict :=
  if a.type ≠ args.type then .behind
  else match nameVerdict upcase args (ntfsAreNamesEqual upcase · a.name args.ic) a.name with
    | .same => match args.val with
      | none => .same
      | some val => valueVerdict memcmp val a.value
    | verdict => verdict

def attrFindFrom : ℕ → ℕ → AttrSearchCtx → Except Errno Unit × AttrSearchCtx
  | 0, _, ctx => (.error .eio, ctx)
  | fuel + 1, a, ctx =>
    if ctx.mrec.bytesAllocated < a then (.error .eio, ctx)
    else
      let attr := ctx.mrec.attrAt a
      let ctx := { ctx with attr := a }
      if args.type < attr.type ∨ attr.type = atEnd then (.error .enoent, ctx)
      else if attr.length = 0 then (.error .eio, ctx)
      else match attrVerdict upcase memcmp args attr with
        | .same => (.ok (), ctx)
        | .before => (.error .enoent, ctx)
        | .behind => attrFindFrom fuel (a + attr.length) ctx

/-- Where a search begins: at the attribute of the context, or behind it. -/
def AttrSearchCtx.start (ctx : AttrSearchCtx) : ℕ :=
  if ctx.isFirst = true then ctx.attr else ctx.attr + (ctx.mrec.attrAt ctx.attr).length

/-- `ntfs_attr_find`. Each round of its loop goes at least one byte further, so that the fuel is
enough to get out of the record. -/
def ntfsAttrFind (ctx : AttrSearchCtx) : Except Errno Unit × AttrSearchCtx :=
  attrFindFrom upcase memcmp args (ctx.mrec.bytesAllocated + 2) ctx.start { ctx with
    isFirst := false }

end

/-- The results of calls one after the other, up to the first that fails: the attribute that a call
has found, or its error. -/
def trace (find : AttrSearchCtx → Except Errno Unit × AttrSearchCtx) :
    ℕ → AttrSearchCtx → List (Except Errno ℕ)
  | 0, _ => []
  | n + 1, ctx =>
    match find ctx with
    | (.ok (), next) => .ok next.attr :: trace find n next
    | (.error code, _) => [.error code]

/-- The results of calls that find attributes at the given offsets and then no more. -/
def findings (places : List ℕ) : List (Except Errno ℕ) :=
  places.map Except.ok ++ [Except.error .enoent]

/-! ### Attributes in a record -/

def span (attrs : List AttrRecord) : ℕ := (attrs.map AttrRecord.length).sum

def placed : ℕ → List AttrRecord → List (ℕ × AttrRecord)
  | _, [] => []
  | offset, a :: rest => (offset, a) :: placed (offset + a.length) rest

/-- The attributes lie in the record from the offset on, followed by the end marker. -/
def MftRecord.Lists (mrec : MftRecord) : ℕ → List AttrRecord → Prop
  | offset, [] => offset ≤ mrec.bytesAllocated ∧ (mrec.attrAt offset).type = atEnd
  | offset, a :: rest =>
    offset ≤ mrec.bytesAllocated ∧ mrec.attrAt offset = a ∧ a.type ≠ atEnd ∧ a.length ≠ 0 ∧
      mrec.Lists (offset + a.length) rest

section

variable {mrec : MftRecord}
variable {offset : ℕ} {attrs : List AttrRecord}

@[simp] theorem span_nil : span [] = 0 := rfl

@[simp] theorem span_cons (a : AttrRecord) (rest : List AttrRecord) :
    span (a :: rest) = a.length + span rest := rfl

theorem span_append (front rest : List AttrRecord) :
    span (front ++ rest) = span front + span rest := by
  simp [span]

theorem placed_append (offset : ℕ) (front rest : List AttrRecord) :
    placed offset (front ++ rest) = placed offset front ++ placed (offset + span front) rest := by
  induction front generalizing offset with
  | nil => rfl
  | cons a front ih => simp [placed, ih, Nat.add_assoc]

theorem map_snd_placed (offset : ℕ) (attrs : List AttrRecord) :
    (placed offset attrs).map Prod.snd = attrs := by
  induction attrs generalizing offset with
  | nil => rfl
  | cons a rest ih => simp [placed, ih]

theorem snd_mem_of_mem_placed {place : ℕ × AttrRecord} (hmem : place ∈ placed offset attrs) :
    place.2 ∈ attrs := by
  rw [← map_snd_placed offset attrs]
  exact mem_map_of_mem hmem

theorem MftRecord.Lists.le (hls : mrec.Lists offset attrs) : offset ≤ mrec.bytesAllocated := by
  cases attrs with
  | nil => exact hls.1
  | cons a rest => exact hls.1

theorem MftRecord.Lists.append {front rest : List AttrRecord}
    (hls : mrec.Lists offset (front ++ rest)) : mrec.Lists (offset + span front) rest := by
  induction front generalizing offset with
  | nil => exact hls
  | cons a front ih =>
    rw [span_cons, ← Nat.add_assoc]
    exact ih hls.2.2.2.2

theorem MftRecord.Lists.length_le (hls : mrec.Lists offset attrs) :
    offset + attrs.length ≤ mrec.bytesAllocated := by
  induction attrs generalizing offset with
  | nil => exact hls.1
  | cons a rest ih =>
    have hrest := ih hls.2.2.2.2
    have hlen := hls.2.2.2.1
    rw [length_cons]
    omega

end

/-! ### Searches in a record -/

section

variable {upcase : List UInt16} {memcmp : Memcmp} {args : SearchArgs}
variable {a : AttrRecord} {ctx : AttrSearchCtx} {attrs : List AttrRecord}

def verdictAt (upcase : List UInt16) (memcmp : Memcmp) (args : SearchArgs) (a : AttrRecord) :
    Verdict :=
  if args.type < a.type then .before else attrVerdict upcase memcmp args a

def hitPlaces (upcase : List UInt16) (memcmp : Memcmp) (args : SearchArgs) (offset : ℕ)
    (attrs : List AttrRecord) : List ℕ :=
  (hits (fun place => verdictAt upcase memcmp args place.2) (placed offset attrs)).map Prod.fst

theorem attrVerdict_of_behind (hbeh : verdictAt upcase memcmp args a = .behind) :
    ¬ args.type < a.type ∧ attrVerdict upcase memcmp args a = .behind := by
  unfold verdictAt at hbeh
  split_ifs at hbeh with htype
  exact ⟨htype, hbeh⟩

theorem attrFindFrom_of_behind {front rest : List AttrRecord} {offset : ℕ}
    (hls : ctx.mrec.Lists offset (front ++ rest))
    (hfr : ∀ a ∈ front, verdictAt upcase memcmp args a = .behind) (fuel : ℕ) :
    ∃ attr, attrFindFrom upcase memcmp args (front.length + fuel) offset ctx =
      attrFindFrom upcase memcmp args fuel (offset + span front) { ctx with attr := attr } := by
  induction front generalizing offset ctx with
  | nil =>
    refine ⟨ctx.attr, ?_⟩
    rw [length_nil, Nat.zero_add]
    rfl
  | cons a front ih =>
    obtain ⟨hle, hattr, hend, hlen, hrest⟩ := hls
    obtain ⟨htype, hbeh⟩ := attrVerdict_of_behind (hfr a mem_cons_self)
    obtain ⟨attr, hfind⟩ := @ih { ctx with attr := offset } (offset + a.length) hrest
      fun b hb => hfr b (mem_cons_of_mem _ hb)
    refine ⟨attr, ?_⟩
    rw [length_cons, Nat.add_right_comm, attrFindFrom, if_neg (not_lt.mpr hle), hattr]
    rw [if_neg (not_or.mpr ⟨htype, hend⟩), if_neg hlen, hbeh]
    rw [hfind, span_cons, Nat.add_assoc]

theorem hitPlaces_of_same (hsame : verdictAt upcase memcmp args a = .same) (offset : ℕ)
    (rest : List AttrRecord) : hitPlaces upcase memcmp args offset (a :: rest) =
      offset :: hitPlaces upcase memcmp args (offset + a.length) rest := by
  rw [hitPlaces, placed, hits]
  rw [hsame]
  rfl

theorem hitPlaces_of_before (hbef : verdictAt upcase memcmp args a = .before) (offset : ℕ)
    (rest : List AttrRecord) : hitPlaces upcase memcmp args offset (a :: rest) = [] := by
  rw [hitPlaces, placed, hits]
  rw [hbef]
  rfl

theorem hitPlaces_of_behind (hbeh : verdictAt upcase memcmp args a = .behind) (offset : ℕ)
    (rest : List AttrRecord) : hitPlaces upcase memcmp args offset (a :: rest) =
      hitPlaces upcase memcmp args (offset + a.length) rest := by
  rw [hitPlaces, placed, hits]
  rw [hbeh]
  rfl

/-- Assumes: attributes in the record from where the search begins. It finds the first of the hits,
or none if there is none. -/
theorem ntfsAttrFind_cases (hls : ctx.mrec.Lists ctx.start attrs) :
    ∃ front rest, attrs = front ++ rest ∧ (∀ a ∈ front, verdictAt upcase memcmp args a = .behind) ∧
      ((∃ a behind, rest = a :: behind ∧ verdictAt upcase memcmp args a = .same ∧
          hitPlaces upcase memcmp args ctx.start attrs = (ctx.start + span front) ::
            hitPlaces upcase memcmp args (ctx.start + span front + a.length) behind ∧
          ntfsAttrFind upcase memcmp args ctx =
            (.ok (), { ctx with isFirst := false, attr := ctx.start + span front })) ∨
        (∀ a ∈ rest.head?, verdictAt upcase memcmp args a = .before) ∧
          hitPlaces upcase memcmp args ctx.start attrs = [] ∧
          ntfsAttrFind upcase memcmp args ctx =
            (.error .enoent, { ctx with isFirst := false, attr := ctx.start + span front })) := by
  obtain ⟨front, rest, rfl, hfr, hrest⟩ := hits_cases (verdictAt upcase memcmp args) attrs
  have hlen := hls.length_le
  rw [length_append] at hlen
  obtain ⟨fuel, hfuel⟩ : ∃ fuel, ctx.mrec.bytesAllocated + 2 = front.length + (fuel + 1) :=
    ⟨ctx.mrec.bytesAllocated + 1 - front.length, by omega⟩
  obtain ⟨attr, hfind⟩ := @attrFindFrom_of_behind upcase memcmp args { ctx with isFirst := false }
    front rest ctx.start hls hfr (fuel + 1)
  have hplac : hitPlaces upcase memcmp args ctx.start (front ++ rest) =
      hitPlaces upcase memcmp args (ctx.start + span front) rest := by
    rw [hitPlaces, placed_append, hits_append_of_behind fun place hpl =>
      hfr place.2 (snd_mem_of_mem_placed hpl)]
    rfl
  have hlistsRest : ctx.mrec.Lists (ctx.start + span front) rest := hls.append
  have hst : ntfsAttrFind upcase memcmp args ctx = attrFindFrom upcase memcmp args (fuel + 1)
      (ctx.start + span front) { ctx with isFirst := false, attr := attr } := by
    rw [ntfsAttrFind, hfuel, hfind]
  refine ⟨front, rest, rfl, hfr, ?_⟩
  rw [hplac, hst, attrFindFrom, if_neg (not_lt.mpr hlistsRest.le)]
  rcases hrest with ⟨a, behind, rfl, hsame, -⟩ | ⟨hbef, -⟩
  · obtain ⟨-, hattr, hend, hlenNe, -⟩ := hlistsRest
    refine .inl ⟨a, behind, rfl, hsame, hitPlaces_of_same hsame _ _, ?_⟩
    unfold verdictAt at hsame
    split_ifs at hsame with htype
    rw [hattr, if_neg (not_or.mpr ⟨htype, hend⟩), if_neg hlenNe, hsame]
  · refine .inr ⟨hbef, ?_, ?_⟩
    · cases rest with
      | nil => rfl
      | cons a behind => exact hitPlaces_of_before (hbef a rfl) _ _
    · cases rest with
      | nil => rw [if_pos (.inr hlistsRest.2)]
      | cons a behind =>
        obtain ⟨-, hattr, hend, hlenNe, -⟩ := hlistsRest
        have hver := hbef a rfl
        unfold verdictAt at hver
        rw [hattr]
        split_ifs at hver with htype
        · rw [if_pos (.inl htype)]
        · rw [if_neg (not_or.mpr ⟨htype, hend⟩), if_neg hlenNe, hver]

theorem ntfsAttrFind_ok_iff (hls : ctx.mrec.Lists ctx.start attrs) :
    (ntfsAttrFind upcase memcmp args ctx).1 = .ok () ↔
      hitPlaces upcase memcmp args ctx.start attrs ≠ [] := by
  obtain ⟨front, rest, -, -, hcs⟩ := @ntfsAttrFind_cases upcase memcmp args ctx attrs hls
  rcases hcs with ⟨a, behind, -, -, hplac, hfind⟩ | ⟨-, hplac, hfind⟩
  · rw [hfind, hplac]
    exact iff_of_true rfl (cons_ne_nil _ _)
  · rw [hfind, hplac]
    exact iff_of_false nofun fun h => h rfl

/-- Assumes: attributes in the record from where a search begins. Calls one after the other give the
hits, and then `ENOENT`. -/
theorem trace_ntfsAttrFind (hls : ctx.mrec.Lists ctx.start attrs) (n : ℕ) :
    trace (ntfsAttrFind upcase memcmp args) n ctx =
      (findings (hitPlaces upcase memcmp args ctx.start attrs)).take n := by
  induction n generalizing ctx attrs with
  | zero => rfl
  | succ n ih =>
    obtain ⟨front, rest, rfl, -, hcs⟩ :=
      @ntfsAttrFind_cases upcase memcmp args ctx attrs hls
    rcases hcs with ⟨a, behind, rfl, -, hplac, hfind⟩ | ⟨-, hplac, hfind⟩
    · have hlistsRest : ctx.mrec.Lists (ctx.start + span front) (a :: behind) := hls.append
      have hst : AttrSearchCtx.start
          { ctx with isFirst := false, attr := ctx.start + span front } = ctx.start + span front +
              a.length := by
        rw [AttrSearchCtx.start, if_neg (by simp)]
        rw [hlistsRest.2.1]
      rw [trace, hfind, hplac]
      dsimp only
      rw [@ih { ctx with isFirst := false, attr := ctx.start + span front } behind
        (by rw [hst]; exact hlistsRest.2.2.2.2), hst]
      rfl
    · rw [trace, hfind, hplac]
      exact (take_of_length_le (Nat.succ_le_succ (Nat.zero_le n))).symm

end

end AdvancedOs.Ntfs.AttributeRecords
