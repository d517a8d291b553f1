import AdvancedOs.Ntfs.AttributeLists
import AdvancedOs.Ntfs.AttributeSearch

/-!
# The choice of an extent

The extents of an attribute have entries of one type and name in the attribute list, each with the
lowest vcn of the extent. A search for a vcn goes through the entries in order. At one with the type
and the name it looks at the next entry: if that is an extent of the same attribute that does not
begin behind the vcn, it goes on.

In a sorted list with valid references (`ExtentList`) this finds the extent that begins last among
those that do not begin behind the vcn, whatever other attributes the list has
(`search_chooses_extent`). The comparison of names ends at NUL, so that another attribute may be
taken if names have NUL in them (`not_chooses_nul`).
-/

namespace AdvancedOs.Ntfs.AttributeListExtents

open Foundation.ByteComparison Foundation.SortedScans RunlistElements NameCollation AttributeRecords
  AttributeSearch AttributeLists List

/-! ### Lists of extents -/

/-- The order of entries: by type, then by name, and extents of an attribute by their lowest vcn. -/
def EntryLe (upcase : List UInt16) (e f : AttrListEntry) : Prop :=
  e.type < f.type ∨ e.type = f.type ∧
    (nameOrder upcase e.name f.name = .lt ∨ e.name = f.name ∧ e.lowestVcn ≤ f.lowestVcn)

def extentsOf (type : UInt32) (name : Name) (entries : List AttrListEntry) : List AttrListEntry :=
  entries.filter fun e => e.type = type && e.name = name

/-- The extents begin at vcn 0, and each one behind the one before. -/
structure Chained (extents : List AttrListEntry) : Prop where
  first : ∀ e ∈ extents.head?, e.lowestVcn = 0
  increasing : extents.Pairwise fun e f => e.lowestVcn < f.lowestVcn

/-- The entry leads to the mft record with its extent, which is the first attribute there with the
instance of the entry. -/
def ValidReference (inode : BaseInode) (base : MftRecord) (e : AttrListEntry) : Prop :=
  ∃ mrec front a rest, (e.mftReference = inode.no ∧ mrec = base ∨
      e.mftReference.mftNo ≠ inode.no.mftNo ∧ inode.mapExtentMftRecord e.mftReference = .ok mrec) ∧
    mrec.Lists mrec.attrsOffset (front ++ a :: rest) ∧
    (∀ b ∈ front, b.attrInstance ≠ e.attrInstance) ∧ a.attrInstance = e.attrInstance ∧
    a.type = e.type ∧ a.name = e.name ∧ a.lowestVcn = e.lowestVcn

def matchesEntry (upcase : List UInt16) (args : SearchArgs) (e : AttrListEntry) : Bool :=
  e.type = args.type && namesMatch upcase args.ic (soughtName args) e.name

/-- A sorted attribute list of an inode, in which the extents of what is looked for begin at vcn 0,
one behind the other, and have valid references. -/
structure ExtentList (upcase : List UInt16) (args : SearchArgs) (inode : BaseInode)
    (base : MftRecord) (entries : List AttrListEntry) : Prop where
  lists : inode.ListsEntries 0 entries
  sorted : entries.Pairwise (EntryLe upcase)
  chained : ∀ name, namesMatch upcase args.ic (soughtName args) name = true →
    Chained (extentsOf args.type name entries)
  valid : ∀ e ∈ entries, matchesEntry upcase args e = true → ValidReference inode base e

/-- The outcome of a search is an extent of what is looked for: that of an entry which begins last
among those of the attribute that do not begin behind the vcn. -/
def ChoosesExtent (upcase : List UInt16) (args : SearchArgs) (inode : BaseInode)
    (entries : List AttrListEntry) (vcn : ℤ) (outcome : Except Errno Unit × AttrSearchCtx) : Prop :=
  outcome.1 = .ok () ∧ ∃ e ∈ entries, matchesEntry upcase args e = true ∧ e.lowestVcn ≤ vcn ∧
    (∀ f ∈ extentsOf e.type e.name entries, f.lowestVcn ≤ vcn → f.lowestVcn ≤ e.lowestVcn) ∧
    (∃ place, outcome.2.alEntry = some place ∧ inode.attrList place = e) ∧
    outcome.2.ntfsIno = e.mftReference ∧
    (outcome.2.mrec.attrAt outcome.2.attr).attrInstance = e.attrInstance ∧
    (outcome.2.mrec.attrAt outcome.2.attr).type = e.type ∧
    (outcome.2.mrec.attrAt outcome.2.attr).name = e.name ∧
    (outcome.2.mrec.attrAt outcome.2.attr).lowestVcn = e.lowestVcn

/-- The search compares no two names that differ and are taken for one. It compares the name that is
looked for with those in front of the first entry that matches. From an extent of the attribute that
does not begin behind the vcn it compares the name with that of the next entry, if that does not
begin behind the vcn either. -/
structure TellsApart (upcase : List UInt16) (args : SearchArgs) (vcn : ℤ)
    (entries : List AttrListEntry) : Prop where
  sought : ∀ front e rest, entries = front ++ e :: rest → matchesEntry upcase args e = true →
    ∀ f ∈ front, f.type = args.type →
      ntfsAreNamesEqual upcase f.name (soughtName args) args.ic = true →
      matchesEntry upcase args f = true
  next : ∀ front e f rest, entries = front ++ e :: f :: rest → matchesEntry upcase args e = true →
    (∀ d ∈ front, matchesEntry upcase args d = true → d.name = e.name) → vcn ≠ 0 →
    e.lowestVcn ≤ vcn → f.lowestVcn ≤ vcn → f.type = e.type →
      ntfsAreNamesEqual upcase f.name e.name .caseSensitive = true → f.name = e.name

/-! ### Verdicts on entries -/

section

variable {upcase : List UInt16} {args : SearchArgs}

theorem collateVerdict_eq_or (name other : Name) :
    collateVerdict upcase name other = .behind ∨
      collateVerdict upcase name other = .ofOrdering (nameOrder upcase name other) := by
  rw [collateVerdict_eq_ite]
  rcases @collateTwice_eq_or upcase name other with hone | hord
  · rw [hone]
    exact .inl rfl
  · rw [hord]
    exact .inr (by cases nameOrder upcase name other <;> rfl)

theorem matchesEntry_iff {e : AttrListEntry} : matchesEntry upcase args e = true ↔
    e.type = args.type ∧ namesMatch upcase args.ic (soughtName args) e.name = true := by
  rw [matchesEntry, Bool.and_eq_true, decide_eq_true_eq]

theorem nameVerdict_cases {other : Name}
    (htold : ntfsAreNamesEqual upcase other (soughtName args) args.ic = true →
      namesMatch upcase args.ic (soughtName args) other = true) :
    namesMatch upcase args.ic (soughtName args) other = true ∧
        nameVerdict upcase args (ntfsAreNamesEqual upcase other · args.ic) other = .same ∨
      namesMatch upcase args.ic (soughtName args) other = false ∧
        (nameVerdict upcase args (ntfsAreNamesEqual upcase other · args.ic) other = .behind ∨
          nameOrder upcase (soughtName args) other = .lt ∧
            nameVerdict upcase args (ntfsAreNamesEqual upcase other · args.ic) other =
            .before) := by
  unfold nameVerdict soughtName at *
  cases hsome : args.name with
  | none =>
    by_cases hnil : other = []
    · exact .inl ⟨by simp [namesMatch, hnil], if_pos hnil⟩
    · refine .inr ⟨by simpa [namesMatch] using Ne.symm hnil, .inr ⟨nameOrder_nil hnil, ?_⟩⟩
      exact if_neg hnil
  | some name =>
    rw [hsome] at htold
    dsimp only [Option.getD_some] at htold ⊢
    have hequal : ntfsAreNamesEqual upcase other name args.ic =
        namesMatch upcase args.ic name other := by
      rw [Bool.eq_iff_iff]
      refine ⟨htold, fun hmatch => ?_⟩
      rw [namesMatch, decide_eq_true_eq] at hmatch
      exact ntfsAreNamesEqual_of_map_eq hmatch.symm
    cases hmat : namesMatch upcase args.ic name other with
    | true => exact .inl ⟨rfl, if_pos (hequal.trans hmat)⟩
    | false =>
      refine .inr ⟨rfl, ?_⟩
      rw [if_neg (by rw [hequal, hmat]; exact Bool.false_ne_true)]
      rcases @collateVerdict_eq_or upcase name other with hbeh | hord
      · exact .inl hbeh
      · rw [hord]
        cases hcmp : nameOrder upcase name other with
        | lt => exact .inr ⟨rfl, rfl⟩
        | gt => exact .inl rfl
        | eq =>
          have heq : name = other := Std.LawfulEqCmp.eq_of_compare hcmp
          rw [namesMatch, heq, decide_eq_false_iff_not] at hmat
          exact absurd rfl hmat

theorem entryVerdict_of_matches {e : AttrListEntry} (he : matchesEntry upcase args e = true) :
    entryVerdict upcase args e = .same := by
  obtain ⟨htype, hname⟩ := matchesEntry_iff.mp he
  rw [entryVerdict, htype, if_neg (UInt32.lt_irrefl _), if_neg (not_not.mpr rfl)]
  rcases nameVerdict_cases fun _ => hname with ⟨-, hsame⟩ | ⟨hnot, -⟩
  · exact hsame
  · rw [hnot] at hname
    cases hname

theorem entryVerdict_behind {e f : AttrListEntry} (hle : EntryLe upcase e f)
    (htold : e.type = args.type →
      ntfsAreNamesEqual upcase e.name (soughtName args) args.ic = true →
      matchesEntry upcase args e = true) (he : matchesEntry upcase args e = false)
    (hf : matchesEntry upcase args f = true) : entryVerdict upcase args e = .behind := by
  obtain ⟨htypeF, hnameF⟩ := matchesEntry_iff.mp hf
  rw [entryVerdict, ← htypeF]
  rcases hle with hlt | ⟨heq, hname⟩
  · rw [if_neg (UInt32.lt_asymm hlt), if_pos (UInt32.ne_of_lt hlt)]
  · have hnotMatch : namesMatch upcase args.ic (soughtName args) e.name = false := by
      rw [matchesEntry, heq, htypeF, decide_eq_true rfl, Bool.true_and] at he
      exact he
    rw [heq, if_neg (UInt32.lt_irrefl _), if_neg (not_not.mpr rfl)]
    have htoldE := fun hequal => (matchesEntry_iff.mp (htold (heq.trans htypeF) hequal)).2
    rcases nameVerdict_cases htoldE with ⟨hmat, -⟩ | ⟨-, hbeh | ⟨hlt, -⟩⟩
    · rw [hnotMatch] at hmat
      cases hmat
    · exact hbeh
    · have hlat := namesMatch_of_lt hlt hnotMatch (hname.imp_right And.left)
      rw [hlat] at hnameF
      cases hnameF

end

/-! ### Extents in order -/

section

variable {upcase : List UInt16} {args : SearchArgs}
variable {entries front behind : List AttrListEntry} {e f : AttrListEntry}

theorem mem_extentsOf {type : UInt32} {name : Name} :
    e ∈ extentsOf type name entries ↔ e ∈ entries ∧ e.type = type ∧ e.name = name := by
  rw [extentsOf, mem_filter, Bool.and_eq_true, decide_eq_true_eq, decide_eq_true_eq]

theorem Chained.nonneg {extents : List AttrListEntry} (hchai : Chained extents)
    (he : e ∈ extents) : 0 ≤ e.lowestVcn := by
  cases extents with
  | nil => cases he
  | cons first rest =>
    have hzero := hchai.first first rfl
    rcases mem_cons.mp he with rfl | he
    · exact hzero.ge
    · have hlt := (pairwise_cons.mp hchai.increasing).1 e he
      omega

theorem Chained.lowestVcn_lt (hents : entries = front ++ e :: behind)
    (hchai : Chained (extentsOf e.type e.name entries)) (hf : f ∈ behind)
    (htype : f.type = e.type) (hname : f.name = e.name) : e.lowestVcn < f.lowestVcn := by
  have hincr := hchai.increasing
  rw [extentsOf, pairwise_filter, hents, pairwise_append, pairwise_cons] at hincr
  exact hincr.2.1.1 f hf (by simp) (by simp [htype, hname])

theorem Chained.lowestVcn_eq_zero (hents : entries = front ++ e :: behind)
    (hchai : Chained (extentsOf e.type e.name entries))
    (hfr : ∀ f ∈ front, ¬ (f.type = e.type ∧ f.name = e.name)) : e.lowestVcn = 0 := by
  refine hchai.first e ?_
  have hnil : extentsOf e.type e.name front = [] := by
    refine eq_nil_iff_forall_not_mem.mpr fun f hf => ?_
    obtain ⟨hmem, hsame⟩ := mem_extentsOf.mp hf
    exact hfr f hmem hsame
  unfold extentsOf at hnil ⊢
  rw [hents, filter_append, hnil, nil_append, filter_cons_of_pos (by simp)]
  rfl

theorem EntryLe.same_of_between {g : AttrListEntry} (hef : EntryLe upcase e f)
    (hfg : EntryLe upcase f g) (htype : g.type = e.type) (hname : g.name = e.name) :
    f.type = e.type ∧ f.name = e.name := by
  rcases hef with hlt | ⟨heq, hlt | ⟨hnameEq, -⟩⟩
  · exfalso
    rcases hfg with hltG | ⟨heqG, -⟩
    · exact UInt32.lt_irrefl _ (UInt32.lt_trans hlt (htype ▸ hltG))
    · rw [heqG, htype] at hlt
      exact UInt32.lt_irrefl _ hlt
  · exfalso
    rcases hfg with hltG | ⟨-, hltG | ⟨hnameG, -⟩⟩
    · rw [htype, heq] at hltG
      exact UInt32.lt_irrefl _ hltG
    · rw [hname, ← nameOrder_gt_iff, hlt] at hltG
      cases hltG
    · have hself : nameOrder upcase e.name e.name = .eq := Std.ReflCmp.compare_self
      rw [hnameG, hname, hself] at hlt
      cases hlt
  · exact ⟨heq.symm, hnameEq.symm⟩

theorem EntryLe.lowestVcn_le (hle : EntryLe upcase e f) (htype : e.type = f.type)
    (hname : e.name = f.name) : e.lowestVcn ≤ f.lowestVcn := by
  have hself : nameOrder upcase f.name f.name = .eq := Std.ReflCmp.compare_self
  rcases hle with hlt | ⟨-, hlt | ⟨-, hvcn⟩⟩
  · rw [htype] at hlt
    exact absurd hlt (UInt32.lt_irrefl _)
  · rw [hname, hself] at hlt
    cases hlt
  · exact hvcn

end

/-! ### The search -/

section

variable {upcase : List UInt16} {memcmp : Memcmp} {args : SearchArgs} {inode : BaseInode}
  {base : MftRecord} {vcn : ℤ}

theorem externalFindFrom_of_behind {front rest : List AttrListEntry} {offset : ℕ}
    (hls : inode.ListsEntries offset (front ++ rest))
    (hfr : ∀ e ∈ front, entryVerdict upcase args e = .behind) (fuel : ℕ) (ctx : AttrSearchCtx) :
    ∃ place alEntry, inode.ListsEntries place rest ∧
      externalFindFrom upcase memcmp args inode vcn (front.length + fuel) offset ctx =
        externalFindFrom upcase memcmp args inode vcn fuel place { ctx with
        alEntry := alEntry } := by
  induction front generalizing offset ctx with
  | nil =>
    refine ⟨offset, ctx.alEntry, hls, ?_⟩
    rw [length_nil, Nat.zero_add]
  | cons e front ih =>
    obtain ⟨place, alEntry, hpl, hfind⟩ := ih hls.2.2
      (fun f hf => hfr f (mem_cons_of_mem _ hf)) { ctx with alEntry := some offset }
    refine ⟨place, alEntry, hpl, ?_⟩
    rw [length_cons, Nat.add_right_comm, externalFindFrom_cons hls, hfr e mem_cons_self]
    exact hfind

theorem nextFits_nil {next : ℕ} (hls : inode.ListsEntries next []) (e : AttrListEntry) :
    nextFits upcase inode vcn next e = false := by
  have hnext : next = inode.attrListSize := hls
  simp [nextFits, hnext]

theorem nextFits_cons {next : ℕ} {f : AttrListEntry} {rest : List AttrListEntry}
    (hls : inode.ListsEntries next (f :: rest)) (e : AttrListEntry) :
    nextFits upcase inode vcn next e = true ↔ vcn ≠ 0 ∧ f.lowestVcn ≤ vcn ∧ f.type = e.type ∧
      ntfsAreNamesEqual upcase f.name e.name .caseSensitive = true := by
  obtain ⟨hent, hlen, hrest⟩ := hls
  have hle := hrest.le
  unfold listEntrySize at hlen
  have hsize : next + 6 < inode.attrListSize := by omega
  simp only [nextFits, hent, Bool.and_eq_true, decide_eq_true_eq, hsize, hle, and_true]
  constructor
  · rintro ⟨⟨⟨⟨hvcn, hfits⟩, htype⟩, -⟩, hname⟩
    exact ⟨hvcn, hfits, htype, hname⟩
  · rintro ⟨hvcn, hfits, htype, hname⟩
    exact ⟨⟨⟨⟨hvcn, hfits⟩, htype⟩, ((ntfsAreNamesEqual_eq_true_iff _ _ _).mp hname).1⟩, hname⟩

/-- Assumes: an entry that matches and does not begin behind the vcn. From there the search goes on
to the last such extent of the attribute, and opens it. -/
theorem externalFindFrom_extent {e : AttrListEntry} {rest : List AttrListEntry}
    (htold : ∀ front d f later, e :: rest = front ++ d :: f :: later →
      matchesEntry upcase args d = true → (∀ c ∈ front, c.name = d.name) → vcn ≠ 0 →
      d.lowestVcn ≤ vcn → f.lowestVcn ≤ vcn → f.type = d.type →
      ntfsAreNamesEqual upcase f.name d.name .caseSensitive = true → f.name = d.name) {place : ℕ}
    (hls : inode.ListsEntries place (e :: rest)) (hmat : matchesEntry upcase args e = true)
    (hvcn : e.lowestVcn ≤ vcn) {fuel : ℕ} (hfuel : rest.length < fuel) (ctx : AttrSearchCtx) :
    ∃ front g behind alPlace, e :: rest = front ++ g :: behind ∧
      inode.ListsEntries alPlace (g :: behind) ∧ g.type = e.type ∧ g.name = e.name ∧
      g.lowestVcn ≤ vcn ∧ nextFits upcase inode vcn (alPlace + g.length) g = false ∧
      externalFindFrom upcase memcmp args inode vcn fuel place ctx =
        openEntry upcase memcmp args inode g { ctx with alEntry := some alPlace } := by
  induction rest generalizing e place fuel ctx with
  | nil =>
    obtain ⟨fuel, rfl⟩ := Nat.exists_eq_add_one_of_ne_zero (Nat.ne_zero_of_lt hfuel)
    have hnext := @nextFits_nil upcase inode vcn _ hls.2.2 e
    refine ⟨[], e, [], place, rfl, hls, rfl, rfl, hvcn, hnext, ?_⟩
    rw [externalFindFrom_cons hls, entryVerdict_of_matches hmat]
    rw [hnext, if_neg Bool.false_ne_true]
  | cons f rest ih =>
    obtain ⟨fuel, rfl⟩ := Nat.exists_eq_add_one_of_ne_zero (Nat.ne_zero_of_lt hfuel)
    have hnextIff := @nextFits_cons upcase inode vcn _ f rest hls.2.2 e
    rw [externalFindFrom_cons hls, entryVerdict_of_matches hmat]
    cases hnext : nextFits upcase inode vcn (place + e.length) e with
    | true =>
      obtain ⟨hne, hfits, htype, hequal⟩ := hnextIff.mp hnext
      have hname := htold [] e f rest rfl hmat (by simp) hne hvcn hfits htype hequal
      have htoldF : ∀ front d g later, f :: rest = front ++ d :: g :: later →
          matchesEntry upcase args d = true → (∀ c ∈ front, c.name = d.name) → vcn ≠ 0 →
          d.lowestVcn ≤ vcn → g.lowestVcn ≤ vcn → g.type = d.type →
          ntfsAreNamesEqual upcase g.name d.name .caseSensitive = true → g.name = d.name := by
        intro front d g later hsplit hmatch hfront
        refine htold (e :: front) d g later (by rw [hsplit, cons_append]) hmatch
          (forall_mem_cons.mpr ⟨?_, hfront⟩)
        cases front with
        | nil => exact hname.symm.trans (congrArg _ (cons.inj hsplit).1)
        | cons c front =>
          rw [← hname, (cons.inj hsplit).1]
          exact hfront c mem_cons_self
      have hmatF : matchesEntry upcase args f = true := by
        rw [matchesEntry, htype, hname]
        exact hmat
      obtain ⟨front, g, behind, alPlace, hspl, hpl, htypeG, hnameG, hrest⟩ := ih htoldF
        hls.2.2 hmatF hfits
        (Nat.lt_of_succ_lt_succ hfuel) { ctx with alEntry := some place }
      refine ⟨e :: front, g, behind, alPlace, by rw [hspl, cons_append], hpl,
        htypeG.trans htype, hnameG.trans hname, ?_⟩
      rw [if_pos rfl]
      exact hrest
    | false =>
      refine ⟨[], e, f :: rest, place, rfl, hls, rfl, rfl, hvcn, hnext, ?_⟩
      rw [if_neg Bool.false_ne_true]

theorem openEntry_valid (hval : args.val = none) {g : AttrListEntry}
    (hvalid : ValidReference inode base g) {ctx : AttrSearchCtx} (hino : ctx.ntfsIno = inode.no)
    (hmrec : ctx.mrec = base) (hattr : ctx.attr = base.attrsOffset) :
    ∃ mrec attr, openEntry upcase memcmp args inode g ctx =
        (.ok (), { ctx with ntfsIno := g.mftReference, mrec := mrec, attr := attr }) ∧
      (mrec.attrAt attr).attrInstance = g.attrInstance ∧ (mrec.attrAt attr).type = g.type ∧
      (mrec.attrAt attr).name = g.name ∧ (mrec.attrAt attr).lowestVcn = g.lowestVcn := by
  obtain ⟨mrec, front, a, rest, href, hls, hfr, hinst, htype, hname, hlow⟩ := hvalid
  have hsele : selectRecord inode g ctx =
      .ok { ctx with ntfsIno := g.mftReference, mrec := mrec, attr := mrec.attrsOffset } := by
    unfold selectRecord
    rcases href with ⟨href, rfl⟩ | ⟨hne, hmap⟩
    · rw [hino, href, if_pos rfl, if_neg (not_not.mpr rfl), ← hattr, ← hmrec, ← hino]
    · rw [hino, if_neg hne, if_neg hne, hmap]
  have hlen := hls.length_le
  rw [length_append, length_cons] at hlen
  have hfnd := @findInstance_of_mem upcase memcmp args
    { ctx with ntfsIno := g.mftReference, mrec := mrec, attr := mrec.attrsOffset } g front rest a
    mrec.attrsOffset hls hfr hinst htype hname (mrec.bytesAllocated + 2) (by omega)
  have hvalue : hasValue memcmp args a = true := by rw [hasValue, hval]
  have hat : mrec.attrAt (mrec.attrsOffset + span front) = a := hls.append.2.1
  rw [if_pos hvalue] at hfnd
  refine ⟨mrec, mrec.attrsOffset + span front, ?_, ?_⟩
  · rw [openEntry, hsele]
    dsimp only
    rw [hfnd]
  · rw [hat]
    exact ⟨hinst, htype, hname, hlow⟩

theorem ExtentList.exists_first {entries : List AttrListEntry}
    (hlist : ExtentList upcase args inode base entries)
    (hpres : ∃ e ∈ entries, matchesEntry upcase args e = true) :
    ∃ front e rest, entries = front ++ e :: rest ∧ matchesEntry upcase args e = true ∧
      e.lowestVcn = 0 ∧ ∀ f ∈ front, matchesEntry upcase args f = false := by
  obtain ⟨e, hfind⟩ := Option.isSome_iff_exists.mp (List.find?_isSome.mpr hpres)
  obtain ⟨hmat, front, rest, hspl, hfr⟩ := List.find?_eq_some_iff_append.mp hfind
  have hfrontNone : ∀ f ∈ front, matchesEntry upcase args f = false := by
    intro f hf
    simpa using hfr f hf
  obtain ⟨htype, hname⟩ := matchesEntry_iff.mp hmat
  have hchai := hlist.chained e.name hname
  rw [← htype] at hchai
  refine ⟨front, e, rest, hspl, hmat, hchai.lowestVcn_eq_zero hspl ?_, hfrontNone⟩
  rintro f hf ⟨htypeF, hnameF⟩
  have hnot := hfrontNone f hf
  rw [matchesEntry, htypeF, hnameF] at hnot
  rw [matchesEntry, hnot] at hmat
  cases hmat

theorem vcn_lt_of_behind {g : AttrListEntry} {behind : List AttrListEntry} {place : ℕ}
    (hls : inode.ListsEntries place (g :: behind)) (hsort : (g :: behind).Pairwise (EntryLe upcase))
    (hnext : nextFits upcase inode vcn (place + g.length) g = false)
    (hnn : 0 ≤ g.lowestVcn) {f : AttrListEntry} (hf : f ∈ behind) (htype : f.type = g.type)
    (hname : f.name = g.name) (hlt : g.lowestVcn < f.lowestVcn) : vcn < f.lowestVcn := by
  obtain ⟨h, later, rfl⟩ := exists_cons_of_ne_nil (ne_nil_of_mem hf)
  have hnextIff := @nextFits_cons upcase inode vcn _ h later hls.2.2 g
  rw [pairwise_cons] at hsort
  have hle := hsort.1 h mem_cons_self
  -- The next entry is of the attribute too.
  have hsame : (h.type = g.type ∧ h.name = g.name) ∧ h.lowestVcn ≤ f.lowestVcn := by
    rcases mem_cons.mp hf with rfl | hlat
    · exact ⟨⟨htype, hname⟩, le_refl _⟩
    · have hleF := (pairwise_cons.mp hsort.2).1 f hlat
      have hsame := hle.same_of_between hleF htype hname
      exact ⟨hsame, hleF.lowestVcn_le (hsame.1.trans htype.symm) (hsame.2.trans hname.symm)⟩
  rw [hnext] at hnextIff
  by_contra hvcn
  refine absurd (hnextIff.mpr ⟨by omega, by omega, hsame.1.1, ?_⟩) Bool.false_ne_true
  exact ntfsAreNamesEqual_of_map_eq (by rw [hsame.1.2])

/-- Assumes: a sorted list with valid references, which has extents of what is looked for, and a vcn
for which the search compares no two different names that are taken for one. A new search for the
vcn finds the extent that begins last among those that do not begin behind it. -/
theorem search_chooses_extent (memcmp : Memcmp) {entries : List AttrListEntry}
    (hlist : ExtentList upcase args inode base entries) (htold : TellsApart upcase args vcn entries)
    (hpresent : ∃ e ∈ entries, matchesEntry upcase args e = true) (hval : args.val = none)
    (hvcn : 0 ≤ vcn) :
    ChoosesExtent upcase args inode entries vcn
      (ntfsExternalAttrFind upcase memcmp args inode vcn
      (ntfsAttrInitSearchCtx inode.no base)) := by
  obtain ⟨front, e, rest, hsplit, hmatches, hzero, hfront⟩ := hlist.exists_first hpresent
  obtain ⟨htype, hname⟩ := matchesEntry_iff.mp hmatches
  have hend : args.type ≠ atEnd := by
    obtain ⟨mrec, before, a, after, -, hlists, -, -, htypeA, -⟩ :=
      hlist.valid e (by simp [hsplit]) hmatches
    rw [← htype, ← htypeA]
    exact hlists.append.2.2.1
  have hlength := hlist.lists.add_length_le
  unfold listEntrySize at hlength
  obtain ⟨more, hmore, hrest⟩ :
      ∃ more, inode.attrListSize + 2 = front.length + more ∧ rest.length < more := by
    rw [hsplit, List.length_append, List.length_cons] at hlength
    exact ⟨inode.attrListSize + 2 - front.length, by omega, by omega⟩
  obtain ⟨ino, hprepare⟩ := @prepare_eq inode (ntfsAttrInitSearchCtx inode.no base) rfl
    fun h => absurd rfl h
  let start : AttrSearchCtx :=
    ⟨base, base.attrsOffset, false, inode.no, some 0, some ino, some base, some base.attrsOffset⟩
  -- The search gets to the first entry that matches, goes on to the last extent that fits, and
  -- opens it.
  have hsorted := hlist.sorted
  rw [hsplit, List.pairwise_append] at hsorted
  obtain ⟨place, alEntry, hplace, hbehind⟩ := @externalFindFrom_of_behind upcase memcmp args inode
    vcn front (e :: rest) 0 (hsplit ▸ hlist.lists) (fun f hf => entryVerdict_behind
      (hsorted.2.2 f hf e List.mem_cons_self) (htold.sought front e rest hsplit hmatches f hf)
      (hfront f hf) hmatches) more start
  have hnextTold : ∀ before d f later, e :: rest = before ++ d :: f :: later →
      matchesEntry upcase args d = true → (∀ c ∈ before, c.name = d.name) → vcn ≠ 0 →
      d.lowestVcn ≤ vcn → f.lowestVcn ≤ vcn → f.type = d.type →
      ntfsAreNamesEqual upcase f.name d.name .caseSensitive = true → f.name = d.name := by
    intro before d f later hsplitRest hmatch hbefore
    refine htold.next (front ++ before) d f later (by rw [hsplit, hsplitRest, List.append_assoc])
      hmatch fun c hc hmatchC => ?_
    rcases List.mem_append.mp hc with hc | hc
    · rw [hfront c hc] at hmatchC
      cases hmatchC
    · exact hbefore c hc
  obtain ⟨middle, g, behind, alPlace, hsplitRest, hlistsG, htypeG, hnameG, hvcnG, hnext, hopen⟩ :=
    @externalFindFrom_extent upcase memcmp args inode vcn e rest hnextTold place hplace hmatches
      (by omega) more hrest { start with alEntry := alEntry }
  have hsplitG : entries = (front ++ middle) ++ g :: behind := by
    rw [hsplit, hsplitRest, List.append_assoc]
  have hmemG : g ∈ entries := by simp [hsplitG]
  have hmatchesG : matchesEntry upcase args g = true := by
    rw [matchesEntry, htypeG, hnameG]
    exact hmatches
  obtain ⟨mrec, attr, hfound, hattr⟩ := @openEntry_valid upcase memcmp args inode base hval g
    (hlist.valid g hmemG hmatchesG) { start with alEntry := some alPlace } rfl rfl rfl
  have houtcome : ntfsExternalAttrFind upcase memcmp args inode vcn
      (ntfsAttrInitSearchCtx inode.no base) = (.ok (), { start with
          alEntry := some alPlace, ntfsIno := g.mftReference, mrec := mrec, attr := attr }) := by
    rw [ntfsExternalAttrFind, hprepare]
    rw [if_neg hend, hmore]
    exact (hbehind.trans hopen).trans hfound
  -- No other extent that fits begins later.
  have hchained := hlist.chained e.name hname
  rw [← htype, ← htypeG, ← hnameG] at hchained
  have hsortedG := hlist.sorted
  rw [hsplitG, List.pairwise_append] at hsortedG
  rw [ChoosesExtent, houtcome]
  refine ⟨rfl, g, hmemG, hmatchesG, hvcnG, fun f hf hvcnF => ?_,
    ⟨alPlace, rfl, hlistsG.1⟩, rfl, hattr⟩
  obtain ⟨hmemF, htypeF, hnameF⟩ := mem_extentsOf.mp hf
  rw [hsplitG, List.mem_append, List.mem_cons] at hmemF
  rcases hmemF with hbefore | rfl | hafter
  · exact (hsortedG.2.2 f hbefore g List.mem_cons_self).lowestVcn_le htypeF hnameF
  · exact le_refl _
  · have hlt := hchained.lowestVcn_lt hsplitG hafter htypeF hnameF
    have hnonneg := hchained.nonneg (mem_extentsOf.mpr ⟨hmemG, rfl, rfl⟩)
    have hvcnLt := vcn_lt_of_behind hlistsG hsortedG.2.1 hnext hnonneg hafter htypeF hnameF hlt
    omega

end

/-! ### Named streams -/

/-- A stream "A", and a stream "a" with two extents, the second one in another mft record. -/
def streamEntries : List AttrListEntry :=
  [⟨0x80, 32, [0x41], 0, ⟨5, 1⟩, 0⟩, ⟨0x80, 32, [0x61], 0, ⟨5, 1⟩, 1⟩,
    ⟨0x80, 32, [0x61], 4, ⟨9, 2⟩, 0⟩]

def streamInode : BaseInode where
  no := ⟨5, 1⟩
  hasAttrList := true
  attrList offset := streamEntries.getD (offset / 32) ⟨0, 0, [], 0, ⟨0, 0⟩, 0⟩
  attrListSize := 96
  mapExtentMftRecord _ := .ok (recordOf [⟨0x80, 8, true, [0x61], 0, 4, []⟩])

def streamBase : MftRecord :=
  recordOf [⟨0x80, 8, true, [0x41], 0, 0, []⟩, ⟨0x80, 8, true, [0x61], 1, 0, []⟩]

def streamArgs : SearchArgs := ⟨0x80, some [0x61], .caseSensitive, none⟩

theorem namesMatch_caseSensitive {upcase : List UInt16} {name other : Name}
    (hmat : namesMatch upcase .caseSensitive name other = true) : other = name := by
  rw [namesMatch, decide_eq_true_eq] at hmat
  exact ((map_injective_iff.mpr Function.injective_id) hmat).symm

theorem extentList_stream : ExtentList [] streamArgs streamInode streamBase streamEntries where
  lists := ⟨rfl, by decide, rfl, by decide, rfl, by decide, rfl⟩
  sorted := by
    refine pairwise_cons.mpr ⟨?_, pairwise_pair.mpr (.inr ⟨rfl, .inr ⟨rfl, by decide⟩⟩)⟩
    intro f hf
    rcases mem_pair.mp hf with rfl | rfl
    · exact .inr ⟨rfl, .inl rfl⟩
    · exact .inr ⟨rfl, .inl rfl⟩
  chained name hmatch := by
    obtain rfl := namesMatch_caseSensitive hmatch
    exact ⟨by decide, by decide⟩
  valid e he hmat := by
    simp only [streamEntries, mem_cons, not_mem_nil, or_false] at he
    rcases he with rfl | rfl | rfl
    · exact absurd hmat (by decide)
    · refine ⟨streamBase, [⟨0x80, 8, true, [0x41], 0, 0, []⟩],
        ⟨0x80, 8, true, [0x61], 1, 0, []⟩, [], .inl ⟨rfl, rfl⟩,
        lists_recordOf (by decide) (by decide), by decide, rfl, rfl, rfl, rfl⟩
    · refine ⟨recordOf [⟨0x80, 8, true, [0x61], 0, 4, []⟩], [],
        ⟨0x80, 8, true, [0x61], 0, 4, []⟩, [], .inr ⟨by decide, rfl⟩,
        lists_recordOf (by decide) (by decide), by decide, rfl, rfl, rfl, rfl⟩

theorem search_chooses_extent_stream :
    ChoosesExtent [] streamArgs streamInode streamEntries 6
      (ntfsExternalAttrFind [] .sign streamArgs streamInode 6
        (ntfsAttrInitSearchCtx streamInode.no streamBase)) := by
  have hnul : ∀ e ∈ streamEntries, ∀ c ∈ e.name, c ≠ 0 := by
    simp [streamEntries]
  have htold : ∀ {name : Name}, ∀ e ∈ streamEntries,
      ntfsAreNamesEqual [] e.name name .caseSensitive = true → e.name = name := by
    intro name e he hequal
    rw [@ntfsAreNamesEqual_iff e.name name .caseSensitive [] (hnul e he)] at hequal
    exact map_injective_iff.mpr Function.injective_id hequal
  refine search_chooses_extent .sign extentList_stream
    ⟨fun front e rest hsplit hmatch f hf htype hequal => ?_,
      fun front e f rest hsplit _ _ _ _ _ _ hequal => ?_⟩
    ⟨_, List.mem_cons_of_mem _ List.mem_cons_self, by decide⟩ rfl (by decide)
  · have hlisted : f ∈ streamEntries := by
      rw [hsplit]
      exact mem_append_left _ hf
    rw [matchesEntry_iff, namesMatch, decide_eq_true_eq, htold f hlisted hequal]
    exact ⟨htype, rfl⟩
  · have hlisted : f ∈ streamEntries := by
      rw [hsplit]
      exact mem_append_right _ (mem_cons_of_mem _ mem_cons_self)
    exact htold f hlisted hequal

/-- Two streams with names that differ behind a NUL. -/
def nulEntries : List AttrListEntry :=
  [⟨0x80, 32, [0, 1], 0, ⟨5, 1⟩, 0⟩, ⟨0x80, 32, [0, 2], 0, ⟨5, 1⟩, 1⟩]

def nulInode : BaseInode where
  no := ⟨5, 1⟩
  hasAttrList := true
  attrList offset := nulEntries.getD (offset / 32) ⟨0, 0, [], 0, ⟨0, 0⟩, 0⟩
  attrListSize := 64
  mapExtentMftRecord _ := .error .enoent

def nulBase : MftRecord :=
  recordOf [⟨0x80, 8, true, [0, 1], 0, 0, []⟩, ⟨0x80, 8, true, [0, 2], 1, 0, []⟩]

def nulArgs : SearchArgs := ⟨0x80, some [0, 2], .caseSensitive, none⟩

theorem extentList_nul : ExtentList [] nulArgs nulInode nulBase nulEntries where
  lists := ⟨rfl, by decide, rfl, by decide, rfl⟩
  sorted := pairwise_pair.mpr (.inr ⟨rfl, .inl rfl⟩)
  chained name hmatch := by
    obtain rfl := namesMatch_caseSensitive hmatch
    exact ⟨by decide, by decide⟩
  valid e he hmat := by
    rcases mem_pair.mp he with rfl | rfl
    · exact absurd hmat (by decide)
    · refine ⟨nulBase, [⟨0x80, 8, true, [0, 1], 0, 0, []⟩], ⟨0x80, 8, true, [0, 2], 1, 0, []⟩, [],
        .inl ⟨rfl, rfl⟩, lists_recordOf (by decide) (by decide), by decide, rfl, rfl, rfl, rfl⟩

/-- The search for the second stream finds the first one. -/
theorem not_chooses_nul :
    ExtentList [] nulArgs nulInode nulBase nulEntries ∧
      (∃ e ∈ nulEntries, matchesEntry [] nulArgs e = true) ∧
      ¬ ChoosesExtent [] nulArgs nulInode nulEntries 0
        (ntfsExternalAttrFind [] .sign nulArgs nulInode 0
          (ntfsAttrInitSearchCtx nulInode.no nulBase)) := by
  refine ⟨extentList_nul, ⟨_, List.mem_cons_of_mem _ List.mem_cons_self, by decide⟩, ?_⟩
  rintro ⟨-, e, -, hmatches, -, -, ⟨place, hplace, hentry⟩, -⟩
  have hfirst : (ntfsExternalAttrFind [] .sign nulArgs nulInode 0
      (ntfsAttrInitSearchCtx nulInode.no nulBase)).2.alEntry = some 0 := rfl
  rw [hfirst, Option.some.injEq] at hplace
  rw [← hentry, ← hplace] at hmatches
  exact absurd hmatches (by decide)

end AdvancedOs.Ntfs.AttributeListExtents
