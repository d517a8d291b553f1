import AdvancedOs.Ntfs.AttributeRecords

/-!
# Searching a sorted mft record

The attributes of an mft record are sorted by type, then by name, and repeated ones by value
(`Ordered`). `ntfs_attr_find` relies on that: it gives up at an attribute before which the one that
is looked for would have to stand. Searches are `Complete` if they find the attributes that are
looked for one after the other, and if the place where an attribute was not found is the one to
insert it.

With case they are. Without case there are two ways to go wrong. The comparison of names ends at a
character that is NUL in upper case, and takes names for equal that differ behind it. And names that
differ in case only follow each other in the record, each with its own values in order, but the
search compares the value with those of all of them as if they were in one order. `Unmisled` says
that neither does harm at an attribute that the search comes to, and searches are complete just then
(`complete_iff`).
-/

namespace AdvancedOs.Ntfs.AttributeSearch

open Foundation.ByteComparison Foundation.SortedScans RunlistElements NameCollation AttributeRecords

/-! ### Sorted records -/

/-- The order of attributes: by type, then by name, and repeated resident attributes by value. -/
def AttrLe (upcase : List UInt16) (a b : AttrRecord) : Prop :=
  a.type < b.type ∨ a.type = b.type ∧ (nameOrder upcase a.name b.name = .lt ∨ a.name = b.name ∧
      (a.nonResident = false → b.nonResident = false → compare a.value b.value ≠ .gt))

def Ordered (upcase : List UInt16) (attrs : List AttrRecord) : Prop :=
  attrs.Pairwise (AttrLe upcase)

def namesMatch (upcase : List UInt16) (ic : IgnoreCase) (name other : Name) : Bool :=
  name.map (fold upcase ic) = other.map (fold upcase ic)

def matchesArgs (upcase : List UInt16) (args : SearchArgs) (a : AttrRecord) : Bool :=
  a.type = args.type &&
    (match args.name with
      | none => a.name = []
      | some name => namesMatch upcase args.ic name a.name) &&
    (match args.val with
      | none => true
      | some val => a.value = val)

/-- What a search goes through: attributes of a record in order, with clean names, and resident ones
of the type that is looked for if there is a value. -/
structure Searchable (upcase : List UInt16) (args : SearchArgs) (attrs : List AttrRecord) :
    Prop where
  ordered : Ordered upcase attrs
  clean : ∀ a ∈ attrs, Clean upcase a.name
  resident : args.val ≠ none → ∀ a ∈ attrs, a.type = args.type → a.nonResident = false

def IsSought (args : SearchArgs) (a : AttrRecord) : Prop :=
  a.type = args.type ∧ a.name = args.name.getD [] ∧
    ∀ val, args.val = some val → a.value = val ∧ a.nonResident = false

/-- Searches in the record are complete: the first one finds an attribute that is looked for if
there is one; if not, the attribute can be inserted where the search has ended; and calls one after
the other find every attribute that is looked for, in order, and then none. -/
structure Complete (upcase : List UInt16) (memcmp : Memcmp) (args : SearchArgs) (ni : InodeNo)
    (mrec : MftRecord) (attrs : List AttrRecord) : Prop where
  found_iff : (ntfsAttrFind upcase memcmp args (ntfsAttrInitSearchCtx ni mrec)).1 = .ok () ↔
    ∃ a ∈ attrs, matchesArgs upcase args a = true
  inserts : (ntfsAttrFind upcase memcmp args (ntfsAttrInitSearchCtx ni mrec)).1 = .error .enoent →
    ∃ front rest, attrs = front ++ rest ∧
      (ntfsAttrFind upcase memcmp args (ntfsAttrInitSearchCtx ni mrec)).2.attr =
        mrec.attrsOffset + span front ∧
      ∀ a, IsSought args a → Ordered upcase (front ++ a :: rest)
  enumerates : ∀ n, trace (ntfsAttrFind upcase memcmp args) n (ntfsAttrInitSearchCtx ni mrec) =
    (findings (((placed mrec.attrsOffset attrs).filter fun place =>
      matchesArgs upcase args place.2).map Prod.fst)).take n

/-- The name that is looked for. No name is the empty one. -/
def soughtName (args : SearchArgs) : Name := args.name.getD []

/-- The attribute has the type, and a name that the comparison takes for the one that is looked
for. -/
def Taken (upcase : List UInt16) (args : SearchArgs) (a : AttrRecord) : Prop :=
  a.type = args.type ∧
    match args.name with
    | none => a.name = []
    | some name => ntfsAreNamesEqual upcase name a.name args.ic = true

/-- The attribute is of a later type, or of a later name that is not taken for the one that is
looked for, or of such a name and with a greater value. -/
def Ends (upcase : List UInt16) (args : SearchArgs) (a : AttrRecord) : Prop :=
  args.type < a.type ∨ a.type = args.type ∧
    (¬ Taken upcase args a ∧ nameOrder upcase (soughtName args) a.name = .lt ∨
      Taken upcase args a ∧ ∃ val, args.val = some val ∧ compare val a.value = .lt)

/-- An attribute whose name is taken for the one that is looked for, although it is another one,
does no harm, if nothing before it ends the search. It is not found unless the names match. With a
greater value it has no attribute that is looked for behind it, and its name does not stand before
the one that is looked for, unless such an attribute stands before it. With a smaller value its name
does not stand behind the one that is looked for, unless there is such an attribute. -/
def Unmisled (upcase : List UInt16) (args : SearchArgs) (attrs : List AttrRecord) : Prop :=
  ∀ front a rest, attrs = front ++ a :: rest → (∀ b ∈ front, ¬ Ends upcase args b) →
    Taken upcase args a →
      ((∀ val, args.val = some val → a.value = val) →
        namesMatch upcase args.ic (soughtName args) a.name = true) ∧
      ∀ val, args.val = some val →
        (compare val a.value = .lt → (∀ b ∈ rest, matchesArgs upcase args b = false) ∧
          (nameOrder upcase (soughtName args) a.name ≠ .gt ∨
            ∃ b ∈ front, matchesArgs upcase args b = true)) ∧
        (compare val a.value = .gt → nameOrder upcase (soughtName args) a.name ≠ .lt ∨
          ∃ b ∈ attrs, matchesArgs upcase args b = true)

/-! ### Verdicts -/

section

variable {upcase : List UInt16} {memcmp : Memcmp} {args : SearchArgs}

theorem valueVerdict_eq (memcmp : Memcmp) (val value : List UInt8) :
    valueVerdict memcmp val value = .ofOrdering (compare val value) := by
  have hlt := memcmp.compareCommon_lt_iff val value
  have heq := memcmp.compareCommon_eq_iff val value
  unfold valueVerdict
  dsimp only
  generalize memcmp.compareCommon val value = rc at hlt heq ⊢
  cases hcmp : compare val value with
  | lt =>
    rcases hlt.mp hcmp with hneg | ⟨rfl, hshort⟩
    · rw [if_neg hneg.ne, if_pos hneg]
      rfl
    · rw [if_pos rfl, if_neg hshort.ne, if_pos hshort]
      rfl
  | eq =>
    obtain ⟨rfl, hlen⟩ := heq.mp (Std.LawfulEqCmp.eq_of_compare hcmp)
    rw [if_pos rfl, if_pos hlen]
    rfl
  | gt =>
    have hnotLt : ¬ (rc < 0 ∨ rc = 0 ∧ val.length < value.length) := by
      rw [← hlt, hcmp]
      decide
    have hnotEq : ¬ (rc = 0 ∧ val.length = value.length) := by
      rw [← heq]
      rintro rfl
      have hself : compare val val = .eq := Std.ReflCmp.compare_self
      rw [hself] at hcmp
      cases hcmp
    split_ifs with hzero hlen hshort hneg
    · exact absurd ⟨hzero, hlen⟩ hnotEq
    · exact absurd (.inr ⟨hzero, hshort⟩) hnotLt
    · rfl
    · exact absurd (.inl hneg) hnotLt
    · rfl

theorem collateVerdict_eq_ite (name other : Name) :
    collateVerdict upcase name other =
      if collateTwice upcase 1 name other = -1 then .before
      else if collateTwice upcase 1 name other ≠ 0 then .behind else .same := by
  unfold collateVerdict collateTwice
  dsimp only
  split_ifs <;> first | rfl | omega

theorem collateVerdict_eq {name : Name} (hclean : Clean upcase name) (other : Name) :
    collateVerdict upcase name other = .ofOrdering (nameOrder upcase name other) := by
  rw [collateVerdict_eq_ite, collateTwice_eq (hclean.collatable 1)]
  cases nameOrder upcase name other <;> rfl

theorem nameOrder_nil {other : Name} (hne : other ≠ []) : nameOrder upcase [] other = .lt := by
  cases other with
  | nil => exact absurd rfl hne
  | cons c other => rfl

theorem matchesArgs_iff {a : AttrRecord} : matchesArgs upcase args a = true ↔
    a.type = args.type ∧ namesMatch upcase args.ic (soughtName args) a.name = true ∧
      ∀ val, args.val = some val → a.value = val := by
  have hnil : namesMatch upcase args.ic [] a.name = true ↔ a.name = [] := by
    rw [namesMatch, decide_eq_true_iff, List.map_nil, eq_comm, List.map_eq_nil_iff]
  unfold matchesArgs soughtName
  cases args.name <;> cases args.val <;> simp [hnil, and_assoc]

theorem taken_of_namesMatch {a : AttrRecord} (htype : a.type = args.type)
    (hmatch : namesMatch upcase args.ic (soughtName args) a.name = true) : Taken upcase args a := by
  refine ⟨htype, ?_⟩
  rw [namesMatch, decide_eq_true_iff] at hmatch
  unfold soughtName at hmatch
  cases hsome : args.name with
  | none =>
    rw [hsome] at hmatch
    exact List.map_eq_nil_iff.mp hmatch.symm
  | some name =>
    rw [hsome] at hmatch
    exact ntfsAreNamesEqual_of_map_eq hmatch

theorem taken_of_name_eq {a : AttrRecord} (htype : a.type = args.type)
    (hname : a.name = soughtName args) : Taken upcase args a :=
  taken_of_namesMatch htype (by rw [hname, namesMatch, decide_eq_true_iff])

/-- Assumes: a clean name. The verdict of the driver in terms of the order of names and values. -/
theorem verdictAt_eq (hname : ∀ name, args.name = some name → Clean upcase name) {a : AttrRecord}
    (htype : a.type = args.type) [Decidable (Taken upcase args a)] :
    verdictAt upcase memcmp args a =
      if Taken upcase args a then
        match args.val with
        | none => .same
        | some val => .ofOrdering (compare val a.value)
      else .ofOrdering (nameOrder upcase (soughtName args) a.name) := by
  have hnotEq : ¬ Taken upcase args a → nameOrder upcase (soughtName args) a.name ≠ .eq :=
    fun hnot heq => hnot (taken_of_name_eq htype (Std.LawfulEqCmp.eq_of_compare heq).symm)
  unfold verdictAt attrVerdict nameVerdict
  rw [if_neg (htype ▸ UInt32.lt_irrefl _), if_neg (not_not.mpr htype)]
  by_cases htaken : Taken upcase args a
  · have hsame := htaken.2
    rw [if_pos htaken]
    cases hsome : args.name with
    | none =>
      rw [hsome] at hsame
      dsimp only
      rw [if_pos hsame]
      cases args.val with
      | none => rfl
      | some val => exact valueVerdict_eq memcmp val a.value
    | some name =>
      rw [hsome] at hsame
      dsimp only
      rw [if_pos hsame]
      cases args.val with
      | none => rfl
      | some val => exact valueVerdict_eq memcmp val a.value
  · have hdiffer : ¬ _ := fun hsame => htaken ⟨htype, hsame⟩
    have hne := hnotEq htaken
    rw [if_neg htaken]
    unfold soughtName at hne ⊢
    cases hsome : args.name with
    | none =>
      rw [hsome] at hdiffer
      dsimp only [Option.getD_none]
      rw [if_neg hdiffer, nameOrder_nil hdiffer]
      rfl
    | some name =>
      rw [hsome] at hdiffer hne
      dsimp only [Option.getD_some] at hne ⊢
      rw [if_neg hdiffer, collateVerdict_eq (hname name hsome)]
      cases hord : nameOrder upcase name a.name with
      | lt => rfl
      | eq => exact absurd hord hne
      | gt => rfl

theorem ne_of_compare {val value : List UInt8} (hcompare : compare val value ≠ .eq) :
    value ≠ val := by
  rintro rfl
  exact hcompare Std.ReflCmp.compare_self

theorem verdictAt_iff (hname : ∀ name, args.name = some name → Clean upcase name) (a : AttrRecord) :
    (verdictAt upcase memcmp args a = .before ↔ Ends upcase args a) ∧
      (verdictAt upcase memcmp args a = .same ↔
        Taken upcase args a ∧ ∀ val, args.val = some val → a.value = val) := by
  classical
  by_cases htype : a.type = args.type
  · have hnotLt : ¬ args.type < a.type := htype ▸ UInt32.lt_irrefl _
    rw [verdictAt_eq hname htype]
    unfold Ends
    by_cases htaken : Taken upcase args a
    · cases hval : args.val with
      | none => simp [htaken, hnotLt]
      | some val =>
        cases hcmp : compare val a.value with
        | lt =>
          have hne : a.value ≠ val := ne_of_compare (by simp [hcmp])
          simp [htaken, htype, hcmp, hne, Verdict.ofOrdering]
        | eq =>
          simp [htaken, hnotLt, (Std.LawfulEqCmp.eq_of_compare hcmp).symm, Verdict.ofOrdering]
        | gt =>
          have hne : a.value ≠ val := ne_of_compare (by simp [hcmp])
          simp [htaken, hcmp, hne, hnotLt, Verdict.ofOrdering]
    · have hne : nameOrder upcase (soughtName args) a.name ≠ .eq := fun heq =>
        htaken (taken_of_name_eq htype (Std.LawfulEqCmp.eq_of_compare heq).symm)
      cases hord : nameOrder upcase (soughtName args) a.name with
      | lt => simp [htaken, htype, Verdict.ofOrdering]
      | eq => exact absurd hord hne
      | gt => simp [htaken, hnotLt, Verdict.ofOrdering]
  · have hnotTaken : ¬ Taken upcase args a := fun htaken => htype htaken.1
    unfold verdictAt attrVerdict Ends
    by_cases hlt : args.type < a.type
    · simp [hlt, hnotTaken]
    · simp [hlt, htype, hnotTaken]

def Before (upcase : List UInt16) (args : SearchArgs) (a : AttrRecord) : Prop :=
  args.type < a.type ∨ a.type = args.type ∧ (nameOrder upcase (soughtName args) a.name = .lt ∨
      ∃ val, args.val = some val ∧ a.name = soughtName args ∧ compare val a.value = .lt)

def Behind (upcase : List UInt16) (args : SearchArgs) (a : AttrRecord) : Prop :=
  a.type < args.type ∨ a.type = args.type ∧ (nameOrder upcase (soughtName args) a.name = .gt ∨
      ∃ val, args.val = some val ∧ a.name = soughtName args ∧ compare val a.value = .gt)

end

/-! ### Sorted attributes -/

section

variable {upcase : List UInt16} {memcmp : Memcmp} {args : SearchArgs} {attrs : List AttrRecord}
variable {a new : AttrRecord}

theorem namesMatch_of_lt {ic : IgnoreCase} {name first second : Name}
    (hlt : nameOrder upcase name first = .lt) (hnot : namesMatch upcase ic name first = false)
    (hle : nameOrder upcase first second = .lt ∨ first = second) :
    namesMatch upcase ic name second = false := by
  rw [← Bool.not_eq_true]
  intro hmat
  rcases hle with hlat | rfl
  · rw [namesMatch, decide_eq_true_iff] at hmat
    rw [namesMatch, decide_eq_false_iff_not] at hnot
    cases ic with
    | caseSensitive =>
      have heq : name = second := (List.map_id _).symm.trans (hmat.trans (List.map_id _))
      rw [← heq, ← nameOrder_gt_iff, hlt] at hlat
      cases hlat
    | ignoreCase =>
      change ¬ name.map (upper upcase) = first.map (upper upcase) at hnot
      change name.map (upper upcase) = second.map (upper upcase) at hmat
      rw [nameOrder_of_ne hnot] at hlt
      rw [nameOrder_of_ne fun h => hnot (hmat.trans h.symm), ← hmat,
        ← Std.OrientedCmp.gt_iff_lt, hlt] at hlat
      cases hlat
  · rw [hnot] at hmat
    cases hmat

theorem Before.of_attrLe (hsrch : Searchable upcase args attrs) {b : AttrRecord} (ha : a ∈ attrs)
    (hb : b ∈ attrs) (hbefore : Before upcase args a) (hle : AttrLe upcase a b) :
    Before upcase args b := by
  rcases hle with hlt | ⟨htypes, hnames⟩
  · refine .inl ?_
    rcases hbefore with htype | ⟨htype, -⟩
    · exact UInt32.lt_trans htype hlt
    · exact htype ▸ hlt
  rcases hbefore with htype | ⟨htype, hbefore⟩
  · exact .inl (htypes ▸ htype)
  have htypeB : b.type = args.type := htypes.symm.trans htype
  refine .inr ⟨htypeB, ?_⟩
  rcases hbefore with hlt | ⟨val, hval, hsought, hlt⟩
  · rcases hnames with hlater | ⟨heq, -⟩
    · exact .inl (Std.TransCmp.lt_trans hlt hlater)
    · exact .inl (heq ▸ hlt)
  · have hsome : args.val ≠ none := by simp [hval]
    rcases hnames with hlater | ⟨heq, hvalues⟩
    · exact .inl (hsought ▸ hlater)
    · have hvalLe : (compare a.value b.value).isLE := by
        rw [Ordering.isLE_iff_ne_gt]
        exact hvalues (hsrch.resident hsome a ha htype) (hsrch.resident hsome b hb htypeB)
      exact .inr ⟨val, hval, heq ▸ hsought, Std.TransCmp.lt_of_lt_of_isLE hlt hvalLe⟩

/-- No attribute behind one that ends the search matches, unless it is that one's value that ends
it. -/
theorem not_matches_of_ends {b : AttrRecord} (hends : Ends upcase args a)
    (hnot : ¬ Taken upcase args a) (hle : AttrLe upcase a b) :
    matchesArgs upcase args b = false := by
  rw [← Bool.not_eq_true, matchesArgs_iff]
  rintro ⟨htype, hmatch, -⟩
  rcases hends with hlt | ⟨htypeA, ⟨-, hlt⟩ | ⟨htaken, -⟩⟩
  · rcases hle with hlater | ⟨htypes, -⟩
    · exact UInt32.lt_irrefl _ (UInt32.lt_trans (htype ▸ hlater) hlt)
    · exact UInt32.lt_irrefl _ (htype ▸ htypes ▸ hlt)
  · rcases hle with hlater | ⟨-, hnames⟩
    · exact UInt32.lt_irrefl _ (htype ▸ htypeA ▸ hlater)
    · have hnone : namesMatch upcase args.ic (soughtName args) a.name = false := by
        rw [← Bool.not_eq_true]
        exact fun hsame => hnot (taken_of_namesMatch htypeA hsame)
      rw [namesMatch_of_lt hlt hnone (hnames.imp_right And.left)] at hmatch
      cases hmatch
  · exact hnot htaken

theorem IsSought.attrLe_of_before (hnew : IsSought args new) (hbef : Before upcase args a) :
    AttrLe upcase new a := by
  obtain ⟨htypeNew, hnameNew, hvalueNew⟩ := hnew
  change new.name = soughtName args at hnameNew
  rcases hbef with htype | ⟨htype, hlt | ⟨val, hval, hsought, hlt⟩⟩
  · exact .inl (htypeNew ▸ htype)
  · exact .inr ⟨htypeNew.trans htype.symm, .inl (hnameNew ▸ hlt)⟩
  · refine .inr ⟨htypeNew.trans htype.symm, .inr ⟨hnameNew.trans hsought.symm, fun _ _ => ?_⟩⟩
    rw [(hvalueNew val hval).1, hlt]
    decide

theorem IsSought.attrLe_of_behind (hnew : IsSought args new) (hbeh : Behind upcase args a) :
    AttrLe upcase a new := by
  obtain ⟨htypeNew, hnameNew, hvalueNew⟩ := hnew
  change new.name = soughtName args at hnameNew
  rcases hbeh with htype | ⟨htype, hgt | ⟨val, hval, hsought, hgt⟩⟩
  · exact .inl (htypeNew ▸ htype)
  · refine .inr ⟨htype.trans htypeNew.symm, .inl ?_⟩
    rw [hnameNew, ← nameOrder_gt_iff]
    exact hgt
  · refine .inr ⟨htype.trans htypeNew.symm, .inr ⟨hsought.trans hnameNew.symm, fun _ _ => ?_⟩⟩
    rw [(hvalueNew val hval).1, Std.OrientedCmp.gt_iff_lt.mp hgt]
    decide

theorem nodup_placed {mrec : MftRecord} {offset : ℕ} (hlists : mrec.Lists offset attrs) :
    ((placed offset attrs).map Prod.fst).Nodup ∧
      ∀ place ∈ (placed offset attrs).map Prod.fst, offset ≤ place := by
  induction attrs generalizing offset with
  | nil => simp [placed]
  | cons a rest ih =>
    obtain ⟨hnodup, hle⟩ := ih hlists.2.2.2.2
    have hlength := hlists.2.2.2.1
    rw [placed, List.map_cons, List.nodup_cons]
    refine ⟨⟨fun hmem => ?_, hnodup⟩, List.forall_mem_cons.mpr ⟨le_rfl, fun place hplace => ?_⟩⟩
    · have hplace := hle offset hmem
      omega
    · have hplace := hle place hplace
      omega

theorem forall_placed (offset : ℕ) (attrs : List AttrRecord) (P : AttrRecord → Prop) :
    (∀ place ∈ placed offset attrs, P place.2) ↔ ∀ a ∈ attrs, P a := by
  nth_rewrite 2 [← map_snd_placed offset attrs]
  exact List.forall_mem_map.symm

/-- The verdicts agree with what is looked for, as far as the search comes. -/
def Judges (upcase : List UInt16) (memcmp : Memcmp) (args : SearchArgs) (attrs : List AttrRecord) :
    Prop :=
  Agrees (verdictAt upcase memcmp args) (matchesArgs upcase args) attrs

theorem agrees_placed (offset : ℕ) (attrs : List AttrRecord) :
    Agrees (fun place : ℕ × AttrRecord => verdictAt upcase memcmp args place.2)
      (fun place => matchesArgs upcase args place.2) (placed offset attrs) ↔
      Judges upcase memcmp args attrs := by
  induction attrs generalizing offset with
  | nil => exact Iff.rfl
  | cons a rest ih =>
    unfold Judges at ih ⊢
    rw [placed, Agrees, Agrees, ih]
    rw [forall_placed _ rest fun later => matchesArgs upcase args later = false]

theorem hitPlaces_eq_iff {mrec : MftRecord} (hlists : mrec.Lists mrec.attrsOffset attrs) :
    hitPlaces upcase memcmp args mrec.attrsOffset attrs =
      ((placed mrec.attrsOffset attrs).filter fun place =>
      matchesArgs upcase args place.2).map Prod.fst ↔
      Judges upcase memcmp args attrs :=
  (map_hits_eq_iff (nodup_placed hlists).1).trans (agrees_placed _ attrs)

theorem filter_placed_eq_nil_iff (offset : ℕ) (attrs : List AttrRecord) :
    ((placed offset attrs).filter fun place => matchesArgs upcase args place.2).map Prod.fst = [] ↔
      ∀ a ∈ attrs, matchesArgs upcase args a = false := by
  rw [List.map_eq_nil_iff, List.filter_eq_nil_iff, ← forall_placed offset attrs]
  simp only [Bool.not_eq_true]

theorem judges_of_unmisled (hname : ∀ name, args.name = some name → Clean upcase name)
    (hordered : Ordered upcase attrs) (hunmisled : Unmisled upcase args attrs) :
    Judges upcase memcmp args attrs := by
  have hsuffix : ∀ {front rest : List AttrRecord}, attrs = front ++ rest →
      (∀ b ∈ front, ¬ Ends upcase args b) → Judges upcase memcmp args rest := by
    intro front rest
    induction rest generalizing front with
    | nil => exact fun _ _ => trivial
    | cons a rest ih =>
      intro hattrs hfront
      obtain ⟨hbefore, hsame⟩ := @verdictAt_iff upcase memcmp args hname a
      have hlater := (List.pairwise_cons.mp (List.pairwise_append.mp (hattrs ▸ hordered)).2.1).1
      refine ⟨hsame.trans ⟨fun htaken => ?_, fun hmatch => ?_⟩, ?_⟩
      · exact matchesArgs_iff.mpr ⟨htaken.1.1,
          (hunmisled front a rest hattrs hfront htaken.1).1 htaken.2, htaken.2⟩
      · obtain ⟨htype, hnames, hvalue⟩ := matchesArgs_iff.mp hmatch
        exact ⟨taken_of_namesMatch htype hnames, hvalue⟩
      split_ifs with hends
      · intro b hb
        by_cases htaken : Taken upcase args a
        · -- Only a greater value ends the search at a name that is taken for the right one.
          rcases hbefore.mp hends with hlt | ⟨-, ⟨hnot, -⟩ | ⟨-, val, hval, hlt⟩⟩
          · exact absurd (htaken.1 ▸ hlt) (UInt32.lt_irrefl _)
          · exact absurd htaken hnot
          · exact ((hunmisled front a rest hattrs hfront htaken).2 val hval).1 hlt |>.1 b hb
        · exact not_matches_of_ends (hbefore.mp hends) htaken (hlater b hb)
      · refine @ih (front ++ [a]) (by simp [hattrs]) fun b hb => ?_
        rcases List.mem_append.mp hb with hb | hb
        · exact hfront b hb
        · exact List.mem_singleton.mp hb ▸ mt hbefore.mpr hends
  exact @hsuffix [] attrs rfl (by simp)

theorem eq_of_span_eq {front front' rest rest' : List AttrRecord} {mrec : MftRecord} {offset : ℕ}
    (hlists : mrec.Lists offset attrs) (hattrs : attrs = front ++ rest)
    (hattrs' : attrs = front' ++ rest') (hspan : span front = span front') :
    front = front' ∧ rest = rest' := by
  have hpositive : ∀ a ∈ attrs, 0 < a.length := by
    intro a ha
    obtain ⟨before, behind, rfl⟩ := List.append_of_mem ha
    exact Nat.pos_of_ne_zero hlists.append.2.2.2.1
  have hempty : ∀ {more : List AttrRecord}, (∀ a ∈ more, 0 < a.length) → span more = 0 →
      more = [] := by
    intro more hmore hzero
    cases more with
    | nil => rfl
    | cons a more =>
      have ha := hmore a List.mem_cons_self
      rw [span, List.map_cons, List.sum_cons] at hzero
      omega
  rcases List.append_eq_append_iff.mp (hattrs.symm.trans hattrs') with
    ⟨more, rfl, rfl⟩ | ⟨more, rfl, rfl⟩
  all_goals
    have hmore : more = [] := by
      refine hempty (fun a ha => hpositive a (by rw [hattrs]; simp [ha])) ?_
      simp only [span, List.map_append, List.sum_append] at hspan ⊢
      omega
    simp [hmore]

/-- An attribute that the search has passed stands before the one that is looked for, unless its
value is smaller and its name a later one. -/
theorem behind_of_passed (hname : ∀ name, args.name = some name → Clean upcase name)
    (hpassed : verdictAt upcase memcmp args a = .behind)
    (hvalue : Taken upcase args a → ∀ val, args.val = some val → compare val a.value = .gt →
      nameOrder upcase (soughtName args) a.name ≠ .lt) : Behind upcase args a := by
  classical
  by_cases htype : a.type = args.type
  · rw [verdictAt_eq hname htype] at hpassed
    refine .inr ⟨htype, ?_⟩
    by_cases htaken : Taken upcase args a
    · rw [if_pos htaken] at hpassed
      cases hval : args.val with
      | none =>
        rw [hval] at hpassed
        cases hpassed
      | some val =>
        have hgt : compare val a.value = .gt := by
          rw [hval] at hpassed
          dsimp only at hpassed
          cases hcmp : compare val a.value <;> rw [hcmp] at hpassed <;> first | rfl | cases hpassed
        cases hord : nameOrder upcase (soughtName args) a.name with
        | lt => exact absurd hord (hvalue htaken val hval hgt)
        | eq => exact .inr ⟨val, rfl, (Std.LawfulEqCmp.eq_of_compare hord).symm, hgt⟩
        | gt => exact .inl rfl
    · rw [if_neg htaken] at hpassed
      cases hord : nameOrder upcase (soughtName args) a.name <;> rw [hord] at hpassed <;>
        first | exact .inl rfl | cases hpassed
  · refine .inl (UInt32.lt_of_le_of_ne (UInt32.not_lt.mp fun hlt => ?_) htype)
    rw [verdictAt, if_pos hlt] at hpassed
    cases hpassed

/-- An attribute that ends the search stands behind the one that is looked for, unless its value is
greater and its name an earlier one. -/
theorem before_of_ends (hends : Ends upcase args a)
    (hvalue : Taken upcase args a → ∀ val, args.val = some val → compare val a.value = .lt →
      nameOrder upcase (soughtName args) a.name ≠ .gt) : Before upcase args a := by
  rcases hends with hlt | ⟨htype, ⟨-, hlt⟩ | ⟨htaken, val, hval, hlt⟩⟩
  · exact .inl hlt
  · exact .inr ⟨htype, .inl hlt⟩
  · refine .inr ⟨htype, ?_⟩
    cases hord : nameOrder upcase (soughtName args) a.name with
    | lt => exact .inl rfl
    | eq => exact .inr ⟨val, hval, (Std.LawfulEqCmp.eq_of_compare hord).symm, hlt⟩
    | gt => exact absurd hord (hvalue htaken val hval hlt)

theorem IsSought.ordered_insert {front rest : List AttrRecord} (hnew : IsSought args new)
    (hord : Ordered upcase (front ++ rest)) (hfr : ∀ a ∈ front, Behind upcase args a)
    (hrest : ∀ a ∈ rest, Before upcase args a) : Ordered upcase (front ++ new :: rest) := by
  unfold Ordered at hord ⊢
  rw [List.pairwise_append] at hord ⊢
  obtain ⟨hfrontOrdered, hrestOrdered, hcross⟩ := hord
  refine ⟨hfrontOrdered, List.pairwise_cons.mpr
    ⟨fun a ha => hnew.attrLe_of_before (hrest a ha), hrestOrdered⟩, fun a ha b hb => ?_⟩
  rcases List.mem_cons.mp hb with rfl | hb
  · exact hnew.attrLe_of_behind (hfr a ha)
  · exact hcross a ha b hb

theorem complete_of_unmisled {ni : InodeNo} {mrec : MftRecord}
    (hname : ∀ name, args.name = some name → Clean upcase name)
    (hlists : mrec.Lists mrec.attrsOffset attrs) (hsearch : Searchable upcase args attrs)
    (hunmisled : Unmisled upcase args attrs) : Complete upcase memcmp args ni mrec attrs := by
  have hplaces := (@hitPlaces_eq_iff upcase memcmp args attrs mrec hlists).mpr
    (judges_of_unmisled hname hsearch.ordered hunmisled)
  have hnone : hitPlaces upcase memcmp args mrec.attrsOffset attrs = [] ↔
      ∀ a ∈ attrs, matchesArgs upcase args a = false := by
    rw [hplaces, filter_placed_eq_nil_iff]
  obtain ⟨front, rest, hattrs, hfront, hcases⟩ :=
    @ntfsAttrFind_cases upcase memcmp args (ntfsAttrInitSearchCtx ni mrec) attrs hlists
  refine ⟨?_, fun hnoent => ⟨front, rest, hattrs, ?_, fun new hnew => ?_⟩, fun n => ?_⟩
  · rw [ntfsAttrFind_ok_iff hlists]
    refine (not_congr hnone).trans ?_
    push Not
    simp
  · rcases hcases with ⟨a, behind, -, -, -, hfind⟩ | ⟨-, -, hfind⟩
    · rw [hfind]
      rfl
    · rw [hfind]
      rfl
  · rcases hcases with ⟨a, behind, -, -, -, hfind⟩ | ⟨hhead, hplace, -⟩
    · rw [hfind] at hnoent
      cases hnoent
    have hunmatched := hnone.mp hplace
    have hpassed : ∀ b ∈ front, ¬ Ends upcase args b := fun b hb hends => by
      rw [← (@verdictAt_iff upcase memcmp args hname b).1, hfront b hb] at hends
      cases hends
    have hordered : Ordered upcase (front ++ rest) := hattrs ▸ hsearch.ordered
    refine hnew.ordered_insert hordered (fun a ha => ?_) fun a ha => ?_
    · obtain ⟨before, after, rfl⟩ := List.append_of_mem ha
      refine behind_of_passed hname (hfront a ha) fun htaken val hval hgt hlt => ?_
      have hsplit : attrs = before ++ a :: (after ++ rest) := by simp [hattrs]
      rcases ((hunmisled before a _ hsplit (fun b hb => hpassed b (by simp [hb])) htaken).2 val
        hval).2 hgt with hnot | ⟨b, hb, hmatch⟩
      · exact hnot hlt
      · rw [hunmatched b hb] at hmatch
        cases hmatch
    · -- The search has ended before the first of them.
      cases rest with
      | nil => cases ha
      | cons first later =>
        have hfirst : Before upcase args first := by
          refine before_of_ends ((verdictAt_iff hname first).1.mp (hhead first rfl))
            fun htaken val hval hlt hgt => ?_
          rcases (((hunmisled front first later hattrs hpassed htaken).2 val hval).1 hlt).2 with
            hnot | ⟨b, hb, hmatch⟩
          · exact hnot hgt
          · rw [hunmatched b (by rw [hattrs]; simp [hb])] at hmatch
            cases hmatch
        rcases List.mem_cons.mp ha with rfl | hlater
        · exact hfirst
        · have hle := (List.pairwise_cons.mp (List.pairwise_append.mp hordered).2.1).1 a hlater
          exact hfirst.of_attrLe hsearch (by simp [hattrs]) (by simp [hattrs, hlater]) hle
  · rw [trace_ntfsAttrFind hlists]
    exact congrArg (fun places => (findings places).take n) hplaces

end

/-! ### Names that differ in case only -/

section

variable {upcase : List UInt16} {memcmp : Memcmp} {args : SearchArgs}

def recordOf (attrs : List AttrRecord) : MftRecord where
  bytesAllocated := 8 * attrs.length
  attrsOffset := 0
  attrAt offset := attrs.getD (offset / 8) ⟨atEnd, 0, false, [], 0, 0, []⟩

theorem lists_recordOf {attrs : List AttrRecord} (htype : ∀ a ∈ attrs, a.type ≠ atEnd)
    (hlen : ∀ a ∈ attrs, a.length = 8) : (recordOf attrs).Lists 0 attrs := by
  have hsuff : ∀ {front rest : List AttrRecord}, attrs = front ++ rest →
      (recordOf attrs).Lists (8 * front.length) rest := by
    intro front rest
    induction rest generalizing front with
    | nil =>
      rintro rfl
      refine ⟨by simp [recordOf], ?_⟩
      simp [recordOf]
    | cons a rest ih =>
      intro hattrs
      have ha : a ∈ attrs := by simp [hattrs]
      have hnext := @ih (front ++ [a]) (by simp [hattrs])
      refine ⟨?_, ?_, htype a ha, ?_, ?_⟩
      · simp only [recordOf, hattrs, List.length_append]
        omega
      · simp [recordOf, hattrs]
      · rw [hlen a ha]
        decide
      · rw [hlen a ha]
        simpa [Nat.mul_add] using hnext
  exact @hsuff [] attrs rfl

def residentOf (args : SearchArgs) (name : Name) (value : List UInt8) : AttrRecord :=
  ⟨args.type, 8, false, name, 0, 0, value⟩

theorem judges_of_complete {ni : InodeNo} {mrec : MftRecord} {attrs : List AttrRecord}
    (hlists : mrec.Lists mrec.attrsOffset attrs)
    (hcomplete : Complete upcase memcmp args ni mrec attrs) : Judges upcase memcmp args attrs := by
  refine (hitPlaces_eq_iff hlists).mp ?_
  generalize hwanted : ((placed mrec.attrsOffset attrs).filter fun place =>
    matchesArgs upcase args place.2).map Prod.fst = wanted
  generalize hfound : hitPlaces upcase memcmp args mrec.attrsOffset attrs = found
  -- The traces of both lengths are whole lists of findings.
  have htraces : ∀ n, (findings found).take n = (findings wanted).take n := fun n => by
    rw [← hfound, ← hwanted, ← hcomplete.enumerates n]
    exact (@trace_ntfsAttrFind upcase memcmp args (ntfsAttrInitSearchCtx ni mrec) attrs
      hlists n).symm
  have hfindings : findings found = findings wanted := by
    have hall := htraces ((findings found).length + (findings wanted).length)
    rwa [List.take_of_length_le (by omega), List.take_of_length_le (by omega)] at hall
  exact List.map_injective_iff.mpr (fun _ _ => Except.ok.inj) (List.append_cancel_right hfindings)

/-- If nothing matches, the attribute that is looked for can be inserted where the search ends. -/
theorem Complete.ordered {ni : InodeNo} {mrec : MftRecord} {attrs : List AttrRecord}
    (hcomplete : Complete upcase memcmp args ni mrec attrs)
    (hlists : mrec.Lists mrec.attrsOffset attrs)
    (hnone : ¬ ∃ a ∈ attrs, matchesArgs upcase args a = true) :
    ∃ front rest, attrs = front ++ rest ∧
      (∀ a ∈ front, verdictAt upcase memcmp args a = .behind) ∧
      (∀ a ∈ rest.head?, verdictAt upcase memcmp args a = .before) ∧
      ∀ new, IsSought args new → Ordered upcase (front ++ new :: rest) := by
  obtain ⟨front, rest, hattrs, hfront, ⟨a, behind, -, -, -, hfind⟩ | ⟨hhead, -, hfind⟩⟩ :=
    @ntfsAttrFind_cases upcase memcmp args (ntfsAttrInitSearchCtx ni mrec) attrs hlists
  · exact absurd (hcomplete.found_iff.mp (by rw [hfind])) hnone
  · obtain ⟨front', rest', hattrs', hplace, hinsert⟩ := hcomplete.inserts (by rw [hfind])
    rw [hfind] at hplace
    obtain ⟨rfl, rfl⟩ := eq_of_span_eq hlists hattrs hattrs' (Nat.add_left_cancel hplace)
    exact ⟨front, rest, hattrs, hfront, hhead, hinsert⟩

theorem isSought_residentOf {val : List UInt8} (hval : args.val = some val) :
    IsSought args (residentOf args (soughtName args) val) :=
  ⟨rfl, rfl, fun _ hother => ⟨Option.some.inj (hval.symm.trans hother), rfl⟩⟩

theorem nameOrder_of_attrLe {a b : AttrRecord} (htype : a.type = b.type) (hle : AttrLe upcase a b) :
    nameOrder upcase a.name b.name ≠ .gt := by
  rcases hle with hlt | ⟨-, hlt | ⟨heq, -⟩⟩
  · exact absurd (htype ▸ hlt) (UInt32.lt_irrefl _)
  · rw [hlt]
    decide
  · have hself : nameOrder upcase b.name b.name = .eq := Std.ReflCmp.compare_self
    rw [heq, hself]
    decide

theorem unmisled_of_complete {ni : InodeNo} {mrec : MftRecord} {attrs : List AttrRecord}
    (hname : ∀ name, args.name = some name → Clean upcase name)
    (hlists : mrec.Lists mrec.attrsOffset attrs)
    (hcomplete : Complete upcase memcmp args ni mrec attrs) : Unmisled upcase args attrs := by
  intro front a rest hattrs hfront htaken
  obtain ⟨hends, hsame⟩ := @verdictAt_iff upcase memcmp args hname a
  have hpassed : ∀ b ∈ front, verdictAt upcase memcmp args b ≠ .before :=
    fun b hb hbefore => hfront b hb ((verdictAt_iff hname b).1.mp hbefore)
  have hjudges : Judges upcase memcmp args (a :: rest) :=
    (hattrs ▸ judges_of_complete hlists hcomplete : Agrees _ _ (front ++ a :: rest)).of_append
      hpassed
  refine ⟨fun hvalue => (matchesArgs_iff.mp (hjudges.1.mp (hsame.mpr ⟨htaken, hvalue⟩))).2.1,
    fun val hval => ⟨fun hlt => ?_, fun hgt => ?_⟩⟩
  · have hbefore := hends.mpr (.inr ⟨htaken.1, .inr ⟨htaken, val, hval, hlt⟩⟩)
    have hrest := hjudges.2
    rw [if_pos hbefore] at hrest
    refine ⟨hrest, or_iff_not_imp_right.mpr fun hnone hgt => ?_⟩
    have hunmatched : ¬ ∃ b ∈ attrs, matchesArgs upcase args b = true := by
      rintro ⟨b, hb, hmatch⟩
      rw [hattrs, List.mem_append, List.mem_cons] at hb
      rcases hb with hb | rfl | hb
      · exact hnone ⟨b, hb, hmatch⟩
      · rw [hjudges.1.mpr hmatch] at hbefore
        cases hbefore
      · rw [hrest b hb] at hmatch
        cases hmatch
    obtain ⟨passed, stopped, hsplit, hbehind, -, hinsert⟩ := hcomplete.ordered hlists hunmatched
    have hmem : a ∈ passed ++ stopped := by rw [← hsplit, hattrs]; simp
    have hstopped : a ∈ stopped := (List.mem_append.mp hmem).resolve_left fun ha => by
      rw [hbehind a ha] at hbefore
      cases hbefore
    have hle := (List.pairwise_cons.mp
      (List.pairwise_append.mp (hinsert _ (isSought_residentOf hval))).2.1).1 a hstopped
    exact nameOrder_of_attrLe htaken.1.symm hle hgt
  · refine or_iff_not_imp_right.mpr fun hunmatched hlt => ?_
    have hnotBefore : verdictAt upcase memcmp args a ≠ .before := fun heq => by
      rcases hends.mp heq with hlater | ⟨-, ⟨hnot, -⟩ | ⟨-, other, hother, hless⟩⟩
      · exact UInt32.lt_irrefl _ (htaken.1 ▸ hlater)
      · exact hnot htaken
      · rw [Option.some.inj (hother.symm.trans hval), hgt] at hless
        cases hless
    obtain ⟨passed, stopped, hsplit, -, hhead, hinsert⟩ := hcomplete.ordered hlists hunmatched
    -- The search has not ended before this attribute.
    have hmem : a ∈ passed := by
      rcases List.append_eq_append_iff.mp (hattrs.symm.trans hsplit) with
        ⟨more, hpassedEq, hmore⟩ | ⟨more, hfrontEq, hmore⟩
      · cases more with
        | nil => exact absurd (hhead a (by rw [← List.nil_append stopped, ← hmore]; rfl)) hnotBefore
        | cons b more =>
          rw [hpassedEq, (List.cons.inj hmore).1]
          simp
      · cases more with
        | nil => exact absurd (hhead a (by rw [hmore]; rfl)) hnotBefore
        | cons b more =>
          exact absurd (hhead b (by rw [hmore]; rfl)) (hpassed b (by rw [hfrontEq]; simp))
    have hle := (List.pairwise_append.mp (hinsert _ (isSought_residentOf hval))).2.2 a hmem _
      List.mem_cons_self
    exact nameOrder_of_attrLe htaken.1 hle (nameOrder_gt_iff.mpr hlt)

/-- Assumes: a clean name, and a sorted record. Searches are complete just when no attribute that
they come to misleads them. -/
theorem complete_iff (memcmp : Memcmp) (hname : ∀ name, args.name = some name → Clean upcase name)
    (ni : InodeNo) (mrec : MftRecord) (attrs : List AttrRecord)
    (hlists : mrec.Lists mrec.attrsOffset attrs) (hsearch : Searchable upcase args attrs) :
    Complete upcase memcmp args ni mrec attrs ↔ Unmisled upcase args attrs :=
  ⟨unmisled_of_complete hname hlists, complete_of_unmisled hname hlists hsearch⟩

def letterArgs (ic : IgnoreCase) : SearchArgs := ⟨0x100, some [0x61], ic, some [3]⟩

def twoLetters (ic : IgnoreCase) : List AttrRecord :=
  [residentOf (letterArgs ic) [0x41] [5], residentOf (letterArgs ic) [0x61] [3]]

theorem lists_twoLetters (ic : IgnoreCase) : (recordOf (twoLetters ic)).Lists 0 (twoLetters ic) :=
  lists_recordOf (by cases ic <;> decide) (by cases ic <;> decide)

theorem searchable_twoLetters (ic : IgnoreCase) :
    Searchable (tableUpToA 0x41) (letterArgs ic) (twoLetters ic) := by
  have hlt : nameOrder (tableUpToA 0x41) [0x41] [0x61] = .lt := by decide
  refine ⟨List.pairwise_pair.mpr (.inr ⟨rfl, .inl hlt⟩), ?_, fun _ a ha _ => ?_⟩
  · cases ic <;> decide
  · rcases List.mem_pair.mp ha with rfl | rfl <;> rfl

/-- A record with "A" alone, whose value is the one that is looked for. -/
def capital : List AttrRecord := [residentOf (letterArgs .ignoreCase) [0x41] [3]]

/-- The search for "a" without case comes to another spelling, and is complete. -/
theorem complete_capital :
    Complete (tableUpToA 0x41) Memcmp.sign (letterArgs .ignoreCase) ⟨5, 1⟩ (recordOf capital)
      capital := by
  have hname : ∀ name, (letterArgs .ignoreCase).name = some name →
      Clean (tableUpToA 0x41) name := by
    rintro name ⟨⟩
    decide
  refine (complete_iff Memcmp.sign hname _ _ _ (lists_recordOf (by decide) (by decide))
    ⟨List.pairwise_singleton _ _, by decide, fun _ a ha _ => ?_⟩).mpr ?_
  · obtain rfl := List.mem_singleton.mp ha
    rfl
  · intro front a rest hattrs _ _
    obtain ⟨rfl, hsingle⟩ : front = [] ∧ capital = a :: rest := by
      cases front with
      | nil => exact ⟨rfl, hattrs⟩
      | cons first front => simp at hattrs
    obtain ⟨rfl, rfl⟩ := List.cons.inj hsingle
    refine ⟨fun _ => by decide, ?_⟩
    rintro val ⟨⟩
    decide

/-- Without case, the search for "a" with its value ends at "A". -/
theorem not_complete_letters :
    Clean (tableUpToA 0x41) [0x61] ∧
      (recordOf (twoLetters .ignoreCase)).Lists 0 (twoLetters .ignoreCase) ∧
      Searchable (tableUpToA 0x41) (letterArgs .ignoreCase) (twoLetters .ignoreCase) ∧
      ¬ Complete (tableUpToA 0x41) Memcmp.sign (letterArgs .ignoreCase) ⟨5, 1⟩
        (recordOf (twoLetters .ignoreCase)) (twoLetters .ignoreCase) := by
  refine ⟨by decide, lists_twoLetters _, searchable_twoLetters _, fun hcomplete => ?_⟩
  have hfound := hcomplete.found_iff.mpr ⟨_, List.mem_cons_of_mem _ List.mem_cons_self, by decide⟩
  refine (ntfsAttrFind_ok_iff (lists_twoLetters .ignoreCase)).mp hfound ?_
  exact hitPlaces_of_before (by decide) _ _

end

end AdvancedOs.Ntfs.AttributeSearch
