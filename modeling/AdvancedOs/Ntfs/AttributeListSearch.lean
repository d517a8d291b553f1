import AdvancedOs.Ntfs.AttributeLists
import AdvancedOs.Ntfs.AttributeSearch

/-!
# Searches by an attribute list

An mft record without extents can be searched by itself, with `ntfs_attr_find`, or by an attribute
list that describes its attributes in order (`Described`), with `ntfs_external_attr_find`. Both
compare types and names in the same way, but a value differently. By itself, a search compares it
with that of the attribute, and goes on or gives up. By a list, it goes on behind an attribute with
another value in the mft record, where no other attribute has the instance of the entry, and takes
the list for corrupt.

Calls one after the other have the same results just when every attribute with the type and the name
that are looked for has the value, if there is one (`sameResults_iff`).
-/

namespace AdvancedOs.Ntfs.AttributeListSearch

open Foundation.ByteComparison Foundation.SortedScans RunlistElements NameCollation AttributeRecords
  AttributeSearch AttributeLists

/-! ### Lists that describe a record -/

/-- The entry describes an attribute of the base mft record. -/
structure Describes (base : InodeNo) (entry : AttrListEntry) (a : AttrRecord) : Prop where
  type_eq : entry.type = a.type
  name_eq : entry.name = a.name
  lowestVcn_eq : entry.lowestVcn = a.lowestVcn
  instance_eq : entry.attrInstance = a.attrInstance
  reference_eq : entry.mftReference = base

/-- The entries describe the attributes in order. The attribute list itself need not have an
entry. -/
inductive Described (base : InodeNo) : List AttrRecord → List AttrListEntry → Prop
  | nil : Described base [] []
  | listed {a : AttrRecord} {entry : AttrListEntry} {attrs : List AttrRecord}
      {entries : List AttrListEntry} :
      Describes base entry a → Described base attrs entries →
        Described base (a :: attrs) (entry :: entries)
  | unlisted {a : AttrRecord} {attrs : List AttrRecord} {entries : List AttrListEntry} :
      a.type = atAttributeList → Described base attrs entries → Described base (a :: attrs) entries

/-- A sorted mft record without extents, and an attribute list that describes its attributes. -/
structure DescribedRecord (upcase : List UInt16) (inode : BaseInode) (mrec : MftRecord)
    (attrs : List AttrRecord) : Prop where
  lists : mrec.Lists mrec.attrsOffset attrs
  ordered : Ordered upcase attrs
  instances : (attrs.map AttrRecord.attrInstance).Nodup
  described : ∃ entries, inode.ListsEntries 0 entries ∧ Described inode.no attrs entries

/-- The results of calls one after the other, up to the first that fails: the mft record and the
attribute that a call has found, or its error. -/
def locations (find : AttrSearchCtx → Except Errno Unit × AttrSearchCtx) :
    ℕ → AttrSearchCtx → List (Except Errno (MftRecord × ℕ))
  | 0, _ => []
  | n + 1, ctx =>
    match find ctx with
    | (.ok (), next) => .ok (next.mrec, next.attr) :: locations find n next
    | (.error code, _) => [.error code]

def SameResults (upcase : List UInt16) (memcmp : Memcmp) (args : SearchArgs) (inode : BaseInode)
    (mrec : MftRecord) : Prop :=
  ∀ n, locations (ntfsExternalAttrFind upcase memcmp args inode 0) n
      (ntfsAttrInitSearchCtx inode.no mrec) =
    locations (ntfsAttrFind upcase memcmp args) n (ntfsAttrInitSearchCtx inode.no mrec)

def typeNameVerdict (upcase : List UInt16) (args : SearchArgs) (a : AttrRecord) : Verdict :=
  if args.type < a.type then .before
  else if a.type ≠ args.type then .behind
  else nameVerdict upcase args (ntfsAreNamesEqual upcase · a.name args.ic) a.name

def OneValue (upcase : List UInt16) (args : SearchArgs) (attrs : List AttrRecord) : Prop :=
  ∀ val, args.val = some val → ∀ a ∈ hits (typeNameVerdict upcase args) attrs, a.value = val

/-! ### Searches by a list -/

section

variable {upcase : List UInt16} {memcmp : Memcmp} {args : SearchArgs} {inode : BaseInode}
  {mrec : MftRecord}
variable {base : InodeNo} {entry : AttrListEntry} {attrs : List AttrRecord} {ctx : AttrSearchCtx}
  {a : AttrRecord} {entries : List AttrListEntry}

theorem entryVerdict_eq (hdesc : Describes base entry a) :
    entryVerdict upcase args entry = typeNameVerdict upcase args a := by
  unfold entryVerdict typeNameVerdict
  rw [hdesc.type_eq, hdesc.name_eq]
  simp only [ntfsAreNamesEqual_comm a.name]

theorem Described.exists_describes (hdesc : Described base attrs entries)
    (hent : entry ∈ entries) : ∃ a ∈ attrs, Describes base entry a := by
  induction hdesc with
  | nil => cases hent
  | listed hdescribes _ ih =>
    rcases List.mem_cons.mp hent with rfl | hent
    · exact ⟨_, List.mem_cons_self, hdescribes⟩
    · obtain ⟨b, hb, hentryB⟩ := ih hent
      exact ⟨b, List.mem_cons_of_mem _ hb, hentryB⟩
  | unlisted _ _ ih =>
    obtain ⟨b, hb, hentryB⟩ := ih hent
    exact ⟨b, List.mem_cons_of_mem _ hb, hentryB⟩

def externalFindings (upcase : List UInt16) (memcmp : Memcmp) (args : SearchArgs) :
    ℕ → List AttrRecord → List (Except Errno ℕ)
  | _, [] => [.error .enoent]
  | offset, a :: rest =>
    match typeNameVerdict upcase args a with
    | .before => [.error .enoent]
    | .behind => externalFindings upcase memcmp args (offset + a.length) rest
    | .same =>
      if hasValue memcmp args a = true then
        .ok offset :: externalFindings upcase memcmp args (offset + a.length) rest
      else [.error .eio]

/-- What is left to search: the attributes from some behind that of the context on, and the entries
that describe them from where the next search begins on. -/
structure Resumes (inode : BaseInode) (mrec : MftRecord) (ctx : AttrSearchCtx)
    (front attrs : List AttrRecord) (entries : List AttrListEntry) : Prop where
  mrec_eq : ctx.mrec = mrec
  ntfsIno_eq : ctx.ntfsIno = inode.no
  baseMrec_eq : ctx.baseNtfsIno ≠ none → ctx.baseMrec = some mrec
  lists : mrec.Lists ctx.attr (front ++ attrs)
  instances : ((front ++ attrs).map AttrRecord.attrInstance).Nodup
  types : attrs.Pairwise fun a b => a.type ≤ b.type
  described : Described inode.no attrs entries
  listsEntries : inode.ListsEntries (listStart inode ctx) entries

theorem selectRecord_base (hino : ctx.ntfsIno = inode.no) (href : entry.mftReference = inode.no) :
    selectRecord inode entry ctx = .ok ctx := by
  rw [selectRecord, hino, href, if_pos rfl, if_neg (not_not.mpr rfl)]

theorem openEntry_eq {entry : AttrListEntry} {ctx : AttrSearchCtx} {front rest : List AttrRecord}
    {a : AttrRecord} (hino : ctx.ntfsIno = inode.no)
    (hls : ctx.mrec.Lists ctx.attr (front ++ a :: rest))
    (hinst : ((front ++ a :: rest).map AttrRecord.attrInstance).Nodup)
    (hdesc : Describes inode.no entry a) : openEntry upcase memcmp args inode entry ctx =
      if hasValue memcmp args a = true then (.ok (), { ctx with attr := ctx.attr + span front })
      else (.error .eio, { ctx with attr := ctx.attr + span front }) := by
  have hlen := hls.length_le
  rw [List.length_append, List.length_cons] at hlen
  rw [List.map_append, List.map_cons, List.nodup_append, List.nodup_cons] at hinst
  obtain ⟨-, ⟨hrest, -⟩, hfr⟩ := hinst
  have hfrontNe : ∀ b ∈ front, b.attrInstance ≠ entry.attrInstance := by
    intro b hb
    rw [hdesc.instance_eq]
    exact hfr _ (List.mem_map_of_mem hb) _ List.mem_cons_self
  have hrestNe : ∀ b ∈ rest, b.attrInstance ≠ entry.attrInstance := by
    intro b hb heq
    rw [hdesc.instance_eq] at heq
    exact hrest (heq ▸ List.mem_map_of_mem hb)
  rw [openEntry, selectRecord_base hino hdesc.reference_eq]
  dsimp only
  rw [findInstance_of_mem hls hfrontNe hdesc.instance_eq.symm hdesc.type_eq.symm
    hdesc.name_eq.symm (by omega)]
  by_cases hval : hasValue memcmp args a = true
  · rw [if_pos hval, if_pos hval]
  · have hbeh : ctx.mrec.Lists (ctx.attr + span front + a.length) rest :=
      hls.append.2.2.2.2
    rw [if_neg hval, if_neg hval]
    rw [@findInstance_of_absent upcase memcmp args { ctx with attr := ctx.attr + span front } entry
      rest _ hbeh hrestNe _ (by omega)]
    dsimp only
    rw [corrupt, if_neg (not_not.mpr hino)]

theorem externalFindFrom_of_types_lt (htype : args.type ≠ atEnd) {all : List AttrRecord}
    (hall : mrec.Lists mrec.attrsOffset all) (hbase : ctx.baseMrec = some mrec) {alOffset : ℕ}
    (hents : inode.ListsEntries alOffset entries) (hdesc : Described inode.no attrs entries)
    (hlt : ∀ a ∈ attrs, args.type < a.type) (fuel : ℕ) :
    (externalFindFrom upcase memcmp args inode 0 (fuel + 1) alOffset ctx).1 = .error .enoent := by
  cases entries with
  | nil =>
    rw [externalFindFrom_nil hents]
    exact @notFound_eq _ _ _ _ { ctx with alEntry := some alOffset } _ _ htype hbase hall
  | cons entry rest =>
    obtain ⟨a, ha, hdescribes⟩ := hdesc.exists_describes List.mem_cons_self
    have hver : entryVerdict upcase args entry = .before := by
      rw [entryVerdict_eq hdescribes, typeNameVerdict, if_pos (hlt a ha)]
    rw [externalFindFrom_cons hents, hver]
    exact @notFound_eq _ _ _ _ { ctx with alEntry := some alOffset } _ _ htype hbase hall

/-- The outcome of a search is the first of the results for the attributes at the offset. If an
attribute is found, the context is at it and at its entry, and the entries behind describe the
attributes behind. -/
def FirstOutcome (upcase : List UInt16) (memcmp : Memcmp) (args : SearchArgs) (inode : BaseInode)
    (offset : ℕ) (attrs : List AttrRecord) (ctx : AttrSearchCtx)
    (outcome : Except Errno Unit × AttrSearchCtx) : Prop :=
  (∃ mid a behind entry later alPlace, attrs = mid ++ a :: behind ∧
      Described inode.no behind later ∧ inode.ListsEntries alPlace (entry :: later) ∧
      externalFindings upcase memcmp args offset attrs = .ok (offset + span mid) ::
        externalFindings upcase memcmp args (offset + span mid + a.length) behind ∧
      outcome = (.ok (), { ctx with alEntry := some alPlace, attr := offset + span mid })) ∨
    ∃ code, externalFindings upcase memcmp args offset attrs = [.error code] ∧
      outcome.1 = .error code

theorem FirstOutcome.of_behind {offset : ℕ} (alEntry : Option ℕ)
    {outcome : Except Errno Unit × AttrSearchCtx} (hbeh : typeNameVerdict upcase args a = .behind)
    (hfst : FirstOutcome upcase memcmp args inode
    (offset + a.length) attrs { ctx with alEntry := alEntry } outcome) :
    FirstOutcome upcase memcmp args inode offset (a :: attrs) ctx outcome := by
  have hfind : externalFindings upcase memcmp args offset (a :: attrs) =
      externalFindings upcase memcmp args (offset + a.length) attrs := by
    rw [externalFindings, hbeh]
  rcases hfst with ⟨mid, b, behind, entry, later, alPlace, rfl, hdesc, hents, hfst,
    hout⟩ | ⟨code, hfst, hout⟩
  · refine .inl ⟨a :: mid, b, behind, entry, later, alPlace, rfl, hdesc, hents, ?_, ?_⟩
    · rw [hfind, hfst, span_cons, Nat.add_assoc offset]
    · rw [hout, span_cons, Nat.add_assoc]
  · exact .inr ⟨code, by rw [hfind, hfst], hout⟩

/-- Assumes: a context in the base mft record, with attributes behind that of the context and the
entries that describe them. A search by the list gives the first of the results. -/
theorem firstOutcome_externalFindFrom (htype : args.type ≠ atEnd)
    (hlist : args.type ≠ atAttributeList) {all attrs : List AttrRecord}
    (hall : mrec.Lists mrec.attrsOffset all) {entries : List AttrListEntry}
    (hdescribed : Described inode.no attrs entries) {ctx : AttrSearchCtx} {front : List AttrRecord}
    (hmrec : ctx.mrec = mrec) (hino : ctx.ntfsIno = inode.no) (hbase : ctx.baseMrec = some mrec)
    (hls : mrec.Lists ctx.attr (front ++ attrs))
    (hinst : ((front ++ attrs).map AttrRecord.attrInstance).Nodup)
    (htypes : attrs.Pairwise fun a b => a.type ≤ b.type) {alOffset : ℕ}
    (hents : inode.ListsEntries alOffset entries) {fuel : ℕ} (hfuel : entries.length < fuel) :
    FirstOutcome upcase memcmp args inode (ctx.attr + span front) attrs ctx
      (externalFindFrom upcase memcmp args inode 0 fuel alOffset ctx) := by
  induction hdescribed generalizing ctx front alOffset fuel with
  | nil =>
    obtain ⟨more, rfl⟩ := Nat.exists_eq_add_of_lt hfuel
    refine .inr ⟨.enoent, rfl, ?_⟩
    rw [externalFindFrom_nil hents]
    exact @notFound_eq _ _ _ _ { ctx with alEntry := some alOffset } _ _ htype hbase hall
  | @listed a entry attrs entries hdesc hrest ih =>
    obtain ⟨fuel, rfl⟩ := Nat.exists_eq_add_one_of_ne_zero (Nat.ne_zero_of_lt hfuel)
    rw [externalFindFrom_cons hents, entryVerdict_eq hdesc]
    cases hver : typeNameVerdict upcase args a with
    | before =>
      refine .inr ⟨.enoent, by rw [externalFindings, hver], ?_⟩
      exact @notFound_eq _ _ _ _ { ctx with alEntry := some alOffset } _ _ htype hbase hall
    | behind =>
      -- An attribute that the search has passed is moved to those in front.
      rw [List.append_cons] at hls hinst
      have hrest := @ih { ctx with alEntry := some alOffset } (front ++ [a]) hmrec hino hbase hls
        hinst htypes.of_cons _ hents.2.2 _ (Nat.lt_of_succ_lt_succ hfuel)
      rw [span_append, ← Nat.add_assoc] at hrest
      exact hrest.of_behind _ hver
    | same =>
      have hopen := @openEntry_eq upcase memcmp args inode entry
        { ctx with alEntry := some alOffset } front attrs a hino (by rw [hmrec]; exact hls)
        hinst hdesc
      have hnext : nextFits upcase inode 0 (alOffset + entry.length) entry = false := by
        simp [nextFits]
      rw [hnext, if_neg Bool.false_ne_true, hopen]
      by_cases hval : hasValue memcmp args a = true
      · rw [if_pos hval]
        refine .inl ⟨[], a, attrs, entry, entries, alOffset, rfl, hrest, hents, ?_, rfl⟩
        rw [externalFindings, hver]
        rw [if_pos hval]
        rfl
      · rw [if_neg hval]
        refine .inr ⟨.eio, ?_, rfl⟩
        rw [externalFindings, hver]
        rw [if_neg hval]
  | @unlisted a attrs entries hunli hrest ih =>
    rw [List.pairwise_cons] at htypes
    by_cases hlt : args.type < a.type
    · obtain ⟨fuel, rfl⟩ := Nat.exists_eq_add_one_of_ne_zero (Nat.ne_zero_of_lt hfuel)
      refine .inr ⟨.enoent, ?_, ?_⟩
      · rw [externalFindings, typeNameVerdict, if_pos hlt]
      · exact externalFindFrom_of_types_lt htype hall hbase hents hrest
          (fun b hb => UInt32.lt_of_lt_of_le hlt (htypes.1 b hb)) fuel
    · have hver : typeNameVerdict upcase args a = .behind := by
        rw [typeNameVerdict, if_neg hlt, if_pos (by rw [hunli]; exact hlist.symm)]
      rw [List.append_cons] at hls hinst
      have hrest := @ih ctx (front ++ [a]) hmrec hino hbase hls hinst htypes.2 _ hents _ hfuel
      rw [span_append, ← Nat.add_assoc] at hrest
      exact FirstOutcome.of_behind ctx.alEntry hver hrest

/-- Assumes: a search that can go on. A call gives the first of the results, and the search can go
on behind an attribute that it has found. -/
theorem ntfsExternalAttrFind_cases (htype : args.type ≠ atEnd) (hlist : args.type ≠ atAttributeList)
    {all : List AttrRecord} (hall : mrec.Lists mrec.attrsOffset all) {ctx : AttrSearchCtx}
    {front attrs : List AttrRecord} {entries : List AttrListEntry}
    (hresumes : Resumes inode mrec ctx front attrs entries) :
    (∃ next a behind later, Resumes inode mrec next [a] behind later ∧
        externalFindings upcase memcmp args (ctx.attr + span front) attrs =
          .ok next.attr :: externalFindings upcase memcmp args (next.attr + span [a]) behind ∧
        ntfsExternalAttrFind upcase memcmp args inode 0 ctx = (.ok (), next)) ∨
      ∃ code, externalFindings upcase memcmp args (ctx.attr + span front) attrs = [.error code] ∧
        (ntfsExternalAttrFind upcase memcmp args inode 0 ctx).1 = .error code := by
  obtain rfl := hresumes.mrec_eq
  obtain ⟨ino, hprep⟩ := prepare_eq hresumes.ntfsIno_eq hresumes.baseMrec_eq
  have hlen := hresumes.listsEntries.add_length_le
  unfold listEntrySize at hlen
  have hfst := @firstOutcome_externalFindFrom upcase memcmp args inode ctx.mrec htype hlist all
    attrs hall entries hresumes.described
    { ctx with
      isFirst := false, alEntry := some (ctx.alEntry.getD 0), baseNtfsIno := some ino,
      baseMrec := some ctx.mrec, baseAttr := some ctx.attr } front rfl
    hresumes.ntfsIno_eq rfl hresumes.lists hresumes.instances hresumes.types _
    hresumes.listsEntries (inode.attrListSize + 2) (by omega)
  have hfind : ntfsExternalAttrFind upcase memcmp args inode 0 ctx =
      externalFindFrom upcase memcmp args inode 0 (inode.attrListSize + 2) (listStart inode ctx)
        { ctx with
          isFirst := false, alEntry := some (ctx.alEntry.getD 0), baseNtfsIno := some ino,
          baseMrec := some ctx.mrec, baseAttr := some ctx.attr } := by
    rw [ntfsExternalAttrFind, hprep]
    rw [if_neg htype]
    rfl
  rw [← hfind] at hfst
  rcases hfst with ⟨mid, a, behind, entry, later, alPlace, rfl, hdesc, hents, hfindings,
    hout⟩ | hfail
  · refine .inl ⟨_, a, behind, later, ?_, hfindings, hout⟩
    have hls := hresumes.lists
    have hinst := hresumes.instances
    rw [← List.append_assoc] at hls hinst
    exact {
      mrec_eq := rfl
      ntfsIno_eq := hresumes.ntfsIno_eq
      baseMrec_eq := fun _ => rfl
      lists := by
        have hpl := hls.append
        rw [span_append, ← Nat.add_assoc] at hpl
        exact hpl
      instances := by
        rw [List.map_append, List.nodup_append] at hinst
        exact hinst.2.1
      types := (List.pairwise_append.mp hresumes.types).2.1.of_cons
      described := hdesc
      listsEntries := by
        have hpl := hents.2.2
        rw [← hents.1] at hpl
        exact hpl }
  · exact .inr hfail

theorem locations_ntfsExternalAttrFind (htype : args.type ≠ atEnd)
    (hlist : args.type ≠ atAttributeList) {all : List AttrRecord}
    (hall : mrec.Lists mrec.attrsOffset all) {ctx : AttrSearchCtx} {front attrs : List AttrRecord}
    {entries : List AttrListEntry} (hresumes : Resumes inode mrec ctx front attrs entries) (n : ℕ) :
    locations (ntfsExternalAttrFind upcase memcmp args inode 0) n ctx =
      ((externalFindings upcase memcmp args (ctx.attr + span front) attrs).map
        (Except.map (Prod.mk mrec))).take n := by
  induction n generalizing ctx front attrs entries with
  | zero => rfl
  | succ n ih =>
    rcases @ntfsExternalAttrFind_cases upcase memcmp args inode mrec htype hlist all hall ctx front
      attrs entries hresumes with ⟨next, a, behind, later, hnext, hfindings, hfind⟩ |
      ⟨code, hfindings, hfind⟩
    · rw [locations, hfind, hfindings]
      dsimp only
      rw [ih hnext, hnext.mrec_eq]
      rfl
    · have hcall : ntfsExternalAttrFind upcase memcmp args inode 0 ctx =
          (.error code, (ntfsExternalAttrFind upcase memcmp args inode 0 ctx).2) :=
        Prod.ext hfind rfl
      rw [locations, hcall, hfindings]
      exact (List.take_of_length_le (Nat.succ_le_succ (Nat.zero_le n))).symm

end

/-! ### Searches without a list -/

section

variable {upcase : List UInt16} {memcmp : Memcmp} {args : SearchArgs}

theorem attrFindFrom_mrec (fuel a : ℕ) (ctx : AttrSearchCtx) :
    (attrFindFrom upcase memcmp args fuel a ctx).2.mrec = ctx.mrec := by
  induction fuel generalizing a ctx with
  | zero => rfl
  | succ fuel ih =>
    rw [attrFindFrom]
    dsimp only
    split_ifs
    · rfl
    · rfl
    · rfl
    · split
      · rfl
      · rfl
      · exact ih _ _

theorem locations_ntfsAttrFind (n : ℕ) (ctx : AttrSearchCtx) :
    locations (ntfsAttrFind upcase memcmp args) n ctx =
      (trace (ntfsAttrFind upcase memcmp args) n ctx).map (Except.map (Prod.mk ctx.mrec)) := by
  induction n generalizing ctx with
  | zero => rfl
  | succ n ih =>
    have hmrec : (ntfsAttrFind upcase memcmp args ctx).2.mrec = ctx.mrec := attrFindFrom_mrec _ _ _
    rw [locations, trace]
    rcases hfind : ntfsAttrFind upcase memcmp args ctx with ⟨code | _, next⟩
    · rfl
    · rw [hfind] at hmrec
      dsimp only
      rw [ih, hmrec]
      rfl

end

/-! ### Both searches -/

section

variable {upcase : List UInt16} {memcmp : Memcmp} {args : SearchArgs}

theorem verdictAt_eq (a : AttrRecord) :
    verdictAt upcase memcmp args a =
      match typeNameVerdict upcase args a with
      | .same => match args.val with
        | none => .same
        | some val => valueVerdict memcmp val a.value
      | verdict => verdict := by
  unfold verdictAt typeNameVerdict attrVerdict
  split_ifs <;> rfl

theorem hasValue_iff {a : AttrRecord} (hresident : args.val ≠ none → a.nonResident = false) :
    hasValue memcmp args a = true ↔ ∀ val, args.val = some val → a.value = val := by
  unfold hasValue
  cases hval : args.val with
  | none => simp
  | some val =>
    have hnon := hresident (by rw [hval]; exact nofun)
    simp only [hnon, Bool.not_false, Bool.true_and, Bool.and_eq_true, decide_eq_true_eq,
      Option.some.injEq, forall_eq']
    constructor
    · rintro ⟨hlen, hby⟩
      have hsign := memcmp.sign_eq a.value val hlen
      rw [hby, Int.sign_zero, eq_comm, signOf_eq_zero] at hsign
      exact Std.LawfulEqCmp.eq_of_compare hsign
    · rintro rfl
      have hself : compare a.value a.value = .eq := Std.ReflCmp.compare_self
      have hsign := memcmp.sign_eq a.value a.value rfl
      rw [hself] at hsign
      exact ⟨rfl, Int.sign_eq_zero_iff_zero.mp hsign⟩

theorem type_eq_of_same {a : AttrRecord} (hsame : typeNameVerdict upcase args a = .same) :
    a.type = args.type := by
  unfold typeNameVerdict at hsame
  split_ifs at hsame with hlt hne
  exact not_not.mp hne

theorem eio_ne_findings (places : List ℕ) : [Except.error Errno.eio] ≠ findings places := by
  cases places <;> simp [findings]

theorem externalFindings_eq_iff {attrs : List AttrRecord}
    (hresident : args.val ≠ none → ∀ a ∈ attrs, a.type = args.type → a.nonResident = false)
    (offset : ℕ) : externalFindings upcase memcmp args offset attrs =
      findings (hitPlaces upcase memcmp args offset attrs) ↔ OneValue upcase args attrs := by
  induction attrs generalizing offset with
  | nil => exact iff_of_true rfl fun _ _ a ha => absurd ha List.not_mem_nil
  | cons a rest ih =>
    have hrest := ih (fun hval b hb => hresident hval b (List.mem_cons_of_mem _ hb))
      (offset + a.length)
    have hverdictAt := @verdictAt_eq upcase memcmp args a
    rw [OneValue, externalFindings, hits]
    cases hver : typeNameVerdict upcase args a with
    | before =>
      rw [hver] at hverdictAt
      rw [hitPlaces_of_before hverdictAt]
      exact iff_of_true rfl fun _ _ b hb => absurd hb List.not_mem_nil
    | behind =>
      rw [hver] at hverdictAt
      rw [hitPlaces_of_behind hverdictAt]
      exact hrest
    | same =>
      have htype : a.type = args.type := type_eq_of_same hver
      have hvalue := @hasValue_iff memcmp args a fun hval =>
        hresident hval a List.mem_cons_self htype
      rw [hver] at hverdictAt
      by_cases hhas : hasValue memcmp args a = true
      · have hvalu := hvalue.mp hhas
        have hsame : verdictAt upcase memcmp args a = .same := by
          rw [hverdictAt]
          cases hval : args.val with
          | none => rfl
          | some val =>
            have hself : compare val val = .eq := Std.ReflCmp.compare_self
            dsimp only
            rw [hvalu val hval, valueVerdict_eq, hself]
            rfl
        have hfind : findings (hitPlaces upcase memcmp args offset (a :: rest)) =
            .ok offset :: findings (hitPlaces upcase memcmp args (offset + a.length) rest) := by
          rw [hitPlaces_of_same hsame]
          rfl
        rw [if_pos hhas, hfind, List.cons_inj_right, hrest]
        exact forall₂_congr fun val hval => by
          rw [List.forall_mem_cons, and_iff_right (hvalu val hval)]
      · rw [if_neg hhas]
        refine iff_of_false (eio_ne_findings _) fun hone => hhas (hvalue.mpr fun val hval => ?_)
        exact hone val hval a List.mem_cons_self

theorem eq_of_take_eq {α : Type} {list other : List α} (htake : ∀ n, list.take n = other.take n) :
    list = other := by
  have hlong := htake (max list.length other.length)
  rwa [List.take_of_length_le (le_max_left _ _), List.take_of_length_le (le_max_right _ _)] at hlong

theorem map_located_injective (mrec : MftRecord) :
    Function.Injective (List.map (Except.map (ε := Errno) (Prod.mk mrec : ℕ → MftRecord × ℕ))) := by
  refine List.map_injective_iff.mpr ?_
  rintro (code | place) (code' | place') h
  · cases h
    rfl
  · cases h
  · cases h
  · cases h
    rfl

/-- Assumes: a record with an attribute list that describes it, a type that is neither that of the
attribute list nor the end marker, and resident attributes of the type if there is a value. Calls
one after the other have the same results with and without the list just when every attribute with
the type and the name has the value, if there is one. -/
theorem sameResults_iff (memcmp : Memcmp) {inode : BaseInode} {mrec : MftRecord}
    {attrs : List AttrRecord} (hrecord : DescribedRecord upcase inode mrec attrs)
    (htype : args.type ≠ atEnd) (hlist : args.type ≠ atAttributeList)
    (hresident : args.val ≠ none → ∀ a ∈ attrs, a.type = args.type → a.nonResident = false) :
    SameResults upcase memcmp args inode mrec ↔ OneValue upcase args attrs := by
  obtain ⟨entries, hentries, hdescribed⟩ := hrecord.described
  have hresumes : Resumes inode mrec (ntfsAttrInitSearchCtx inode.no mrec) [] attrs entries := {
    mrec_eq := rfl
    ntfsIno_eq := rfl
    baseMrec_eq := fun h => absurd rfl h
    lists := hrecord.lists
    instances := hrecord.instances
    types := hrecord.ordered.imp fun {a b} hle => by
      rcases hle with hlt | ⟨heq, -⟩
      · exact UInt32.le_of_lt hlt
      · exact UInt32.le_of_eq heq
    described := hdescribed
    listsEntries := hentries }
  have hexternal :=
    fun n => @locations_ntfsExternalAttrFind upcase memcmp args inode mrec htype hlist
    attrs hrecord.lists _ _ _ _ hresumes n
  have hinternal := fun n => @locations_ntfsAttrFind upcase memcmp args n
    (ntfsAttrInitSearchCtx inode.no mrec)
  have htrace := fun n => @trace_ntfsAttrFind upcase memcmp args
    (ntfsAttrInitSearchCtx inode.no mrec) attrs hrecord.lists n
  rw [← @externalFindings_eq_iff upcase memcmp args attrs hresident mrec.attrsOffset]
  constructor
  · intro hsame
    refine map_located_injective mrec (eq_of_take_eq fun n => ?_)
    have hn := hsame n
    rw [hexternal, hinternal, htrace, List.map_take] at hn
    exact hn
  · intro heq n
    rw [hexternal, hinternal, htrace, List.map_take]
    exact congrArg (fun results => (List.map _ results).take n) heq

end

def twoNames : List AttrRecord := [⟨0x30, 8, false, [], 0, 0, [1]⟩, ⟨0x30, 8, false, [], 1, 0, [2]⟩]

def twoNamesInode : BaseInode where
  no := ⟨5, 1⟩
  hasAttrList := true
  attrList offset := ⟨0x30, 32, [], 0, ⟨5, 1⟩, offset / 32⟩
  attrListSize := 64
  mapExtentMftRecord _ := .error .enoent

theorem describedRecord_twoNames :
    DescribedRecord [] twoNamesInode (recordOf twoNames) twoNames where
  lists := lists_recordOf (by decide) (by decide)
  ordered := List.pairwise_pair.mpr (.inr ⟨rfl, .inr ⟨rfl, fun _ _ => by decide⟩⟩)
  instances := by decide
  described := by
    refine ⟨[⟨0x30, 32, [], 0, ⟨5, 1⟩, 0⟩, ⟨0x30, 32, [], 0, ⟨5, 1⟩, 1⟩], ?_, ?_⟩
    · exact ⟨rfl, by decide, rfl, by decide, rfl⟩
    · exact .listed ⟨rfl, rfl, rfl, rfl, rfl⟩ (.listed ⟨rfl, rfl, rfl, rfl, rfl⟩ .nil)

theorem sameResults_iff_twoNames :
    SameResults [] .sign ⟨0x30, none, .caseSensitive, none⟩ twoNamesInode (recordOf twoNames) :=
  (sameResults_iff .sign describedRecord_twoNames (by decide) (by decide) (by decide)).mpr nofun

/-- The search for the second value finds it in the record, but takes the list for corrupt. -/
theorem not_sameResults_twoNames :
    DescribedRecord [] twoNamesInode (recordOf twoNames) twoNames ∧
      ¬ SameResults [] .sign ⟨0x30, none, .caseSensitive, some [2]⟩ twoNamesInode
        (recordOf twoNames) := by
  refine ⟨describedRecord_twoNames, fun hsame => ?_⟩
  have hone := hsame 1
  have hexternal : locations (ntfsExternalAttrFind [] .sign ⟨0x30, none, .caseSensitive, some [2]⟩
      twoNamesInode 0) 1 (ntfsAttrInitSearchCtx ⟨5, 1⟩ (recordOf twoNames)) = [.error .eio] := rfl
  have hinternal : locations (ntfsAttrFind [] .sign ⟨0x30, none, .caseSensitive, some [2]⟩) 1
      (ntfsAttrInitSearchCtx ⟨5, 1⟩ (recordOf twoNames)) = [.ok (recordOf twoNames, 8)] := rfl
  cases (hexternal.symm.trans hone).trans hinternal

end AdvancedOs.Ntfs.AttributeListSearch
