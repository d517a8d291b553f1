import AdvancedOs.Ntfs.AttributeRecords

/-!
# Attribute lists

An inode whose attributes do not fit into one mft record has an attribute list, with an entry for
each attribute or extent of one (`BaseInode.ListsEntries`). `ntfs_external_attr_find` goes through
the entries from where the search context stands. At an entry with the type and the name that are
looked for, it goes to the mft record that the entry refers to, and looks there for the attribute
with the instance of the entry.

What the search does at an entry, as far as type and name go, is a `Verdict`
(`externalFindFrom_cons`). Then it opens the entry (`findInstance_of_mem`,
`findInstance_of_absent`), or ends without success (`notFound_eq`).
-/

namespace AdvancedOs.Ntfs.AttributeLists

open Foundation.ByteComparison Foundation.SortedScans RunlistElements NameCollation
  AttributeRecords List

/-! ### The format -/

/-- An entry of an attribute list. The reference is that of the mft record with the attribute. -/
structure AttrListEntry where
  type : UInt32
  length : ℕ
  name : Name
  lowestVcn : ℤ
  mftReference : InodeNo
  attrInstance : ℕ

/-- A base inode with its attribute list, the entries that reads at an offset in the list give, and
the extent mft records that can be mapped. -/
structure BaseInode where
  no : InodeNo
  hasAttrList : Bool
  attrList : ℕ → AttrListEntry
  attrListSize : ℕ
  mapExtentMftRecord : InodeNo → Except Errno MftRecord

def listEntrySize : ℕ := 26

/-! ### The driver -/

section

variable (upcase : List UInt16) (memcmp : Memcmp) (args : SearchArgs) (inode : BaseInode)
  (lowestVcn : ℤ)

def nextFits (next : ℕ) (entry : AttrListEntry) : Bool :=
  lowestVcn ≠ 0 && next + 6 < inode.attrListSize &&
    next + (inode.attrList next).length ≤ inode.attrListSize &&
    (inode.attrList next).lowestVcn ≤ lowestVcn && (inode.attrList next).type = entry.type &&
    (inode.attrList next).name.length = entry.name.length &&
    ntfsAreNamesEqual upcase (inode.attrList next).name entry.name .caseSensitive

/-- The context when a search fails: it is in the base mft record. -/
def backToBase (ctx : AttrSearchCtx) : AttrSearchCtx :=
  { ctx with
    ntfsIno := inode.no, mrec := ctx.baseMrec.getD ctx.mrec, attr := ctx.baseAttr.getD ctx.attr }

def corrupt (ctx : AttrSearchCtx) : Except Errno Unit × AttrSearchCtx :=
  (.error .eio, if ctx.ntfsIno ≠ inode.no then backToBase inode ctx else ctx)

def selectRecord (entry : AttrListEntry) (ctx : AttrSearchCtx) :
    Except (Except Errno Unit × AttrSearchCtx) AttrSearchCtx :=
  if entry.mftReference.mftNo = ctx.ntfsIno.mftNo then
    if entry.mftReference.seqNo ≠ ctx.ntfsIno.seqNo then .error (corrupt inode ctx) else .ok ctx
  else if entry.mftReference.mftNo = inode.no.mftNo then
    let mrec := ctx.baseMrec.getD ctx.mrec
    .ok { ctx with ntfsIno := inode.no, mrec := mrec, attr := mrec.attrsOffset }
  else match inode.mapExtentMftRecord entry.mftReference with
    | .error .enoent => .error (.error .eio, backToBase inode ctx)
    | .error code => .error (.error code, backToBase inode ctx)
    | .ok mrec =>
      .ok { ctx with ntfsIno := entry.mftReference, mrec := mrec, attr := mrec.attrsOffset }

def hasValue (a : AttrRecord) : Bool :=
  match args.val with
  | none => true
  | some val =>
    !a.nonResident && a.value.length = val.length && memcmp.compareBytes a.value val = 0

/-- The loop over the attributes of an mft record, from `do_next_attr_loop` on. It looks for the
instance of an entry, and goes on behind it if the value is another one. -/
def findInstance (entry : AttrListEntry) : ℕ → ℕ → AttrSearchCtx → Bool × AttrSearchCtx
  | 0, _, ctx => (false, ctx)
  | fuel + 1, a, ctx =>
    if ctx.mrec.bytesAllocated < a then (false, ctx)
    else
      let attr := ctx.mrec.attrAt a
      if attr.type = atEnd then (false, ctx)
      else if attr.length = 0 then (false, ctx)
      else if entry.attrInstance ≠ attr.attrInstance then
        findInstance entry fuel (a + attr.length) ctx
      else if entry.type ≠ attr.type then (false, ctx)
      else if ntfsAreNamesEqual upcase attr.name entry.name .caseSensitive = false then (false, ctx)
      else
        let ctx := { ctx with attr := a }
        if hasValue memcmp args attr = true then (true, ctx)
        else findInstance entry fuel (a + attr.length) ctx

def openEntry (entry : AttrListEntry) (ctx : AttrSearchCtx) : Except Errno Unit × AttrSearchCtx :=
  match selectRecord inode entry ctx with
  | .error failure => failure
  | .ok ctx =>
    match findInstance upcase memcmp args entry (ctx.mrec.bytesAllocated + 2) ctx.attr ctx with
    | (true, ctx) => (.ok (), ctx)
    | (false, ctx) => corrupt inode ctx

/-- Calls of `ntfs_attr_find` up to one that fails. -/
def findToEnd : ℕ → AttrSearchCtx → Except Errno Unit × AttrSearchCtx
  | 0, ctx => (.error .eio, ctx)
  | fuel + 1, ctx =>
    match ntfsAttrFind upcase memcmp args ctx with
    | (.ok (), ctx) => findToEnd fuel ctx
    | failure => failure

/-- The end of a search without success, from `not_found` on. -/
def notFound (ctx : AttrSearchCtx) : Except Errno Unit × AttrSearchCtx :=
  let mrec := ctx.baseMrec.getD ctx.mrec
  if args.type = atEnd then
    ntfsAttrFind upcase memcmp args (ntfsAttrInitSearchCtx inode.no mrec)
  else
    findToEnd upcase memcmp args (mrec.bytesAllocated + 2)
      { ntfsAttrInitSearchCtx inode.no mrec with alEntry := ctx.alEntry }

def externalFindFrom : ℕ → ℕ → AttrSearchCtx → Except Errno Unit × AttrSearchCtx
  | 0, _, ctx => corrupt inode ctx
  | fuel + 1, alEntry, ctx =>
    if inode.attrListSize < alEntry then corrupt inode ctx
    else
      let ctx := { ctx with alEntry := some alEntry }
      if alEntry = inode.attrListSize then notFound upcase memcmp args inode ctx
      else
        let entry := inode.attrList alEntry
        if entry.length = 0 then corrupt inode ctx
        else if inode.attrListSize < alEntry + 6 ∨ inode.attrListSize < alEntry + entry.length then
          corrupt inode ctx
        else
          let next := alEntry + entry.length
          if args.type < entry.type then notFound upcase memcmp args inode ctx
          else if entry.type ≠ args.type then externalFindFrom fuel next ctx
          else match nameVerdict upcase args (ntfsAreNamesEqual upcase entry.name · args.ic)
              entry.name with
            | .before => notFound upcase memcmp args inode ctx
            | .behind => externalFindFrom fuel next ctx
            | .same =>
              if nextFits upcase inode lowestVcn next entry = true then
                externalFindFrom fuel next ctx
              else openEntry upcase memcmp args inode entry ctx

def prepare (ctx : AttrSearchCtx) : AttrSearchCtx :=
  let ctx := if ctx.baseNtfsIno = none then
    { ctx with baseNtfsIno := some ctx.ntfsIno, baseMrec := some ctx.mrec } else ctx
  if ctx.ntfsIno = inode.no then { ctx with baseAttr := some ctx.attr } else ctx

/-- Where a search begins in the list: at the entry of the context, or behind it. -/
def listStart (ctx : AttrSearchCtx) : ℕ :=
  let alEntry := ctx.alEntry.getD 0
  if ctx.isFirst = true then alEntry else alEntry + (inode.attrList alEntry).length

/-- `ntfs_external_attr_find`. Each round of the loop goes at least one byte further in the list. -/
def ntfsExternalAttrFind (ctx : AttrSearchCtx) : Except Errno Unit × AttrSearchCtx :=
  let ctx := prepare inode ctx
  if args.type = atEnd then notFound upcase memcmp args inode ctx
  else
    externalFindFrom upcase memcmp args inode lowestVcn (inode.attrListSize + 2)
      (listStart inode ctx) { ctx with isFirst := false, alEntry := some (ctx.alEntry.getD 0) }

def ntfsAttrLookup (ctx : AttrSearchCtx) : Except Errno Unit × AttrSearchCtx :=
  if inode.hasAttrList = false ∨ args.type = atAttributeList then
    ntfsAttrFind upcase memcmp args ctx
  else ntfsExternalAttrFind upcase memcmp args inode lowestVcn ctx

end

/-! ### Entries in a list -/

/-- The entries lie in the attribute list from the offset on, up to its end. -/
def BaseInode.ListsEntries (inode : BaseInode) : ℕ → List AttrListEntry → Prop
  | offset, [] => offset = inode.attrListSize
  | offset, entry :: rest =>
    inode.attrList offset = entry ∧ listEntrySize ≤ entry.length ∧
      inode.ListsEntries (offset + entry.length) rest

section

variable {inode : BaseInode}

theorem BaseInode.ListsEntries.add_length_le {offset : ℕ} {entries : List AttrListEntry}
    (hls : inode.ListsEntries offset entries) :
    offset + listEntrySize * entries.length ≤ inode.attrListSize := by
  induction entries generalizing offset with
  | nil => exact le_of_eq hls
  | cons entry rest ih =>
    have hrest := ih hls.2.2
    have hlen := hls.2.1
    rw [length_cons, Nat.mul_succ]
    omega

theorem BaseInode.ListsEntries.le {offset : ℕ} {entries : List AttrListEntry}
    (hls : inode.ListsEntries offset entries) : offset ≤ inode.attrListSize := by
  have hle := hls.add_length_le
  omega

end

/-! ### The steps of a search -/

section

variable {upcase : List UInt16} {memcmp : Memcmp} {args : SearchArgs} {inode : BaseInode}
  {lowestVcn : ℤ}
variable {ctx : AttrSearchCtx} {entry : AttrListEntry} {offset : ℕ}

def entryVerdict (upcase : List UInt16) (args : SearchArgs) (entry : AttrListEntry) : Verdict :=
  if args.type < entry.type then .before
  else if entry.type ≠ args.type then .behind
  else nameVerdict upcase args (ntfsAreNamesEqual upcase entry.name · args.ic) entry.name

theorem externalFindFrom_nil (hls : inode.ListsEntries offset []) (fuel : ℕ) (ctx : AttrSearchCtx) :
    externalFindFrom upcase memcmp args inode lowestVcn (fuel + 1) offset ctx =
      notFound upcase memcmp args inode { ctx with alEntry := some offset } := by
  have hofs : offset = inode.attrListSize := hls
  rw [externalFindFrom, if_neg (by omega)]
  rw [if_pos hofs]

/-- One round of the search, at an entry of the list. -/
theorem externalFindFrom_cons {rest : List AttrListEntry}
    (hls : inode.ListsEntries offset (entry :: rest)) (fuel : ℕ) (ctx : AttrSearchCtx) :
    externalFindFrom upcase memcmp args inode lowestVcn (fuel + 1) offset ctx =
      match entryVerdict upcase args entry with
      | .before => notFound upcase memcmp args inode { ctx with alEntry := some offset }
      | .behind =>
        externalFindFrom upcase memcmp args inode lowestVcn fuel (offset + entry.length)
          { ctx with alEntry := some offset }
      | .same =>
        if nextFits upcase inode lowestVcn (offset + entry.length) entry = true then
          externalFindFrom upcase memcmp args inode lowestVcn fuel (offset + entry.length)
            { ctx with alEntry := some offset }
        else openEntry upcase memcmp args inode entry { ctx with alEntry := some offset } := by
  obtain ⟨hent, hlen, hrest⟩ := hls
  have hle := hrest.le
  unfold listEntrySize at hlen
  rw [externalFindFrom, if_neg (by omega)]
  rw [if_neg (by omega), hent, if_neg (by omega), if_neg (by omega)]
  unfold entryVerdict
  by_cases htype : args.type < entry.type
  · rw [if_pos htype, if_pos htype]
  · rw [if_neg htype, if_neg htype]
    by_cases hne : entry.type ≠ args.type
    · rw [if_pos hne, if_pos hne]
    · rw [if_neg hne, if_neg hne]

theorem findInstance_of_ne {front rest : List AttrRecord}
    (hls : ctx.mrec.Lists offset (front ++ rest))
    (hfr : ∀ a ∈ front, a.attrInstance ≠ entry.attrInstance) (fuel : ℕ) :
    findInstance upcase memcmp args entry (front.length + fuel) offset ctx =
      findInstance upcase memcmp args entry fuel (offset + span front) ctx := by
  induction front generalizing offset with
  | nil => rw [length_nil, Nat.zero_add, span_nil, Nat.add_zero]
  | cons a front ih =>
    obtain ⟨hle, hattr, hend, hlen, hrest⟩ := hls
    have hne := hfr a mem_cons_self
    rw [length_cons, Nat.add_right_comm, findInstance, if_neg (not_lt.mpr hle), hattr]
    rw [if_neg hend, if_neg hlen, if_pos (Ne.symm hne),
      ih hrest fun b hb => hfr b (mem_cons_of_mem _ hb), span_cons, Nat.add_assoc]

/-- Assumes: attributes in the record, with none of the instance. The search fails. -/
theorem findInstance_of_absent {ctx : AttrSearchCtx} {entry : AttrListEntry}
    {attrs : List AttrRecord} {offset : ℕ} (hls : ctx.mrec.Lists offset attrs)
    (hattrs : ∀ a ∈ attrs, a.attrInstance ≠ entry.attrInstance) {fuel : ℕ}
    (hfuel : attrs.length < fuel) : findInstance upcase memcmp args entry fuel offset ctx =
      (false, ctx) := by
  obtain ⟨more, rfl⟩ := Nat.exists_eq_add_of_lt hfuel
  have hls' : ctx.mrec.Lists offset (attrs ++ []) := by rwa [append_nil]
  have hend := hls'.append
  rw [Nat.add_assoc, findInstance_of_ne hls' hattrs, findInstance, if_neg (not_lt.mpr hend.1)]
  rw [if_pos hend.2]

/-- Assumes: attributes in the record, with one of the instance that the entry describes. The search
looks at its value. -/
theorem findInstance_of_mem {ctx : AttrSearchCtx} {entry : AttrListEntry}
    {front rest : List AttrRecord} {a : AttrRecord} {offset : ℕ}
    (hls : ctx.mrec.Lists offset (front ++ a :: rest))
    (hfr : ∀ b ∈ front, b.attrInstance ≠ entry.attrInstance)
    (hinst : a.attrInstance = entry.attrInstance) (htype : a.type = entry.type)
    (hname : a.name = entry.name) {fuel : ℕ} (hfuel : front.length < fuel) :
    findInstance upcase memcmp args entry fuel offset ctx =
      if hasValue memcmp args a = true then (true, { ctx with attr := offset + span front })
      else findInstance upcase memcmp args entry (fuel - front.length - 1)
        (offset + span front + a.length) { ctx with attr := offset + span front } := by
  obtain ⟨more, rfl⟩ := Nat.exists_eq_add_of_lt hfuel
  have hmore : front.length + more + 1 - front.length - 1 = more := by omega
  obtain ⟨hle, hattr, hend, hlen, -⟩ := hls.append
  have hequal : ntfsAreNamesEqual upcase a.name entry.name .caseSensitive = true :=
    ntfsAreNamesEqual_of_map_eq (by rw [hname])
  rw [hmore, Nat.add_assoc, findInstance_of_ne hls hfr, findInstance,
    if_neg (not_lt.mpr hle), hattr]
  rw [if_neg hend, if_neg hlen, if_neg (not_not.mpr hinst.symm),
    if_neg (not_not.mpr htype.symm), if_neg (by simp [hequal])]

theorem prepare_eq (hino : ctx.ntfsIno = inode.no)
    (hbaseMrec : ctx.baseNtfsIno ≠ none → ctx.baseMrec = some ctx.mrec) :
    ∃ ino, prepare inode ctx = { ctx with
        baseNtfsIno := some ino, baseMrec := some ctx.mrec, baseAttr := some ctx.attr } := by
  unfold prepare
  cases hbase : ctx.baseNtfsIno with
  | none =>
    refine ⟨ctx.ntfsIno, ?_⟩
    rw [if_pos rfl]
    rw [if_pos hino]
  | some ino =>
    refine ⟨ino, ?_⟩
    rw [if_neg (Option.some_ne_none ino), if_pos hino, ← hbase,
      ← hbaseMrec (by rw [hbase]; exact Option.some_ne_none ino)]

theorem findToEnd_eq {ctx : AttrSearchCtx} {attrs : List AttrRecord}
    (hls : ctx.mrec.Lists ctx.start attrs) {fuel : ℕ} (hfuel : attrs.length < fuel) :
    (findToEnd upcase memcmp args fuel ctx).1 = .error .enoent := by
  induction fuel generalizing ctx attrs with
  | zero => omega
  | succ fuel ih =>
    obtain ⟨front, rest, rfl, -, hcs⟩ := @ntfsAttrFind_cases upcase memcmp args ctx attrs hls
    rcases hcs with ⟨a, behind, rfl, -, -, hfind⟩ | ⟨-, -, hfind⟩
    · have hlistsRest : ctx.mrec.Lists (ctx.start + span front) (a :: behind) := hls.append
      have hst : AttrSearchCtx.start
          { ctx with isFirst := false, attr := ctx.start + span front } = ctx.start + span front +
              a.length := by
        rw [AttrSearchCtx.start, if_neg (by simp)]
        rw [hlistsRest.2.1]
      rw [findToEnd, hfind]
      refine @ih _ behind (by rw [hst]; exact hlistsRest.2.2.2.2) ?_
      rw [length_append, length_cons] at hfuel
      omega
    · rw [findToEnd, hfind]

/-- Assumes: attributes in the base mft record. A search without success ends with `ENOENT`. -/
theorem notFound_eq {ctx : AttrSearchCtx} {mrec : MftRecord} {attrs : List AttrRecord}
    (htype : args.type ≠ atEnd) (hmrec : ctx.baseMrec = some mrec)
    (hls : mrec.Lists mrec.attrsOffset attrs) :
    (notFound upcase memcmp args inode ctx).1 = .error .enoent := by
  have hlen := hls.length_le
  rw [notFound, if_neg htype, hmrec]
  exact @findToEnd_eq _ _ _
    { ntfsAttrInitSearchCtx inode.no mrec with alEntry := ctx.alEntry } attrs hls
    (mrec.bytesAllocated + 2) (by omega)

end

end AdvancedOs.Ntfs.AttributeLists
