import AdvancedOs.Ntfs.IndexNodes
import AdvancedOs.Ntfs.NameCollation

/-!
# Looking up a name in a directory

`ntfs_lookup_inode_by_name` walks through the index of a directory. At each entry it compares the
names exactly, then without case if the volume ignores case and the entry is outside the POSIX
namespace, and then collates them to learn where to go on (`visitName`). A match without case is
kept, and its reference is returned if the walk ends without an exact match (`answerOf`).

What the search finds depends on the entries on its way that are taken for the name (`Finds`). That
gives when the lookup returns a reference (`returns_iff`).

In a directory in order (`WellOrdered`) and for names without NUL and without the characters that
the collation calls illegal, the entry with the name lies on the way of the search, and so does an
entry that is alone with the name in some case (`WellOrdered.mem_path`). The lookup returns what it
should if and only if no other entry is taken for the name (`looksUp_iff`), as for names that do not
fold to NUL (`lookup_answers`). A name that does may find another one (`not_looksUp_nul`). With an
illegal character the collation takes the name for greater, so that an entry below another one may
be missed (`findsStored_iff`), and of several entries that differ in case only, the one outside the
POSIX namespace may lie off the way (`findsMatch_iff`).
-/

namespace AdvancedOs.Ntfs.DirectoryLookup

open Foundation.SearchTrees RunlistElements IndexNodes NameCollation List

/-! ### The driver -/

/-- What an index entry of a directory has: the name with its namespace, and the mft reference of
the file. -/
structure FileName where
  name : Name
  nameType : UInt8
  indexedFile : UInt64
deriving DecidableEq

/-- `FILE_NAME_POSIX`, the namespace of names that are not to be found in another case. -/
def fileNamePosix : UInt8 := 0

/-- `FILE_NAME_DOS`, the namespace of short names. -/
def fileNameDos : UInt8 := 2

abbrev DirEntry := IndexEntry FileName

/-- `ntfs_name`, with which the caller learns of a name that is not the one looked up. -/
structure NtfsName where
  mref : UInt64
  type : UInt8
  name : Name
deriving DecidableEq

def ntfsNameSize : ℕ := 10

/-- The part of the volume that a lookup uses, and whether an allocation of some bytes succeeds. -/
structure NameVolume where
  upcase : List UInt16
  caseSensitive : Bool
  kmalloc : ℕ → Bool

/-- What a lookup returns: the mft reference, or the error number that `ERR_MREF` puts in its place,
and the name in `*res`. -/
abbrev Answer := Except Errno (UInt64 × Option NtfsName)

/-- The part of a directory inode that a lookup uses. -/
structure DirInode where
  index : IndexInode FileName
  mapMftRecord : Except Errno Unit
  getSearchCtx : Bool
  lookupRoot : Except Errno (IndexHeader FileName)

section

variable (vol : NameVolume) (uname : Name)

/-- A perfect match, from `found_it` on. -/
def foundIt (cached : Option NtfsName) (ie : DirEntry) : Move (Option NtfsName) Answer :=
  if ie.content.nameType = fileNameDos then
    if cached = none ∧ vol.kmalloc ntfsNameSize = false then .halt (.error .enomem)
    else .halt (.ok (ie.content.indexedFile, some ⟨ie.content.indexedFile, fileNameDos, []⟩))
  else .halt (.ok (ie.content.indexedFile, none))

/-- The comparison without case on a volume that ignores it. A name that matches is kept. -/
def cacheName (cached : Option NtfsName) (ie : DirEntry) : Except Errno (Option NtfsName) :=
  if vol.caseSensitive = false ∧ ie.content.nameType ≠ fileNamePosix ∧
      ntfsAreNamesEqual vol.upcase uname ie.content.name .ignoreCase = true then
    if cached ≠ none then .error .eio
    else
      let name := if ie.content.nameType = fileNameDos then [] else ie.content.name
      if vol.kmalloc (ntfsNameSize + 2 * name.length) then
        .ok (some ⟨ie.content.indexedFile, ie.content.nameType, name⟩)
      else .error .enomem
  else .ok cached

def collateEntry (cached : Option NtfsName) (ie : DirEntry) : Move (Option NtfsName) Answer :=
  let rc := ntfsCollateNames vol.upcase 1 .ignoreCase uname ie.content.name
  if rc = -1 then .descend cached
  else if rc ≠ 0 then .advance cached
  else
    let rc := ntfsCollateNames vol.upcase 1 .caseSensitive uname ie.content.name
    if rc = -1 then .descend cached
    else if rc ≠ 0 then .advance cached
    else foundIt vol cached ie

def visitName (cached : Option NtfsName) (ie : DirEntry) : Move (Option NtfsName) Answer :=
  if ntfsAreNamesEqual vol.upcase uname ie.content.name .caseSensitive = true then
    foundIt vol cached ie
  else match cacheName vol uname cached ie with
    | .error code => .halt (.error code)
    | .ok cached => collateEntry vol uname cached ie

def answerOf : Outcome FileName (Option NtfsName) Answer → Answer
  | .failed code => .error code
  | .halted answer _ => answer
  | .exhausted (some name) _ _ => .ok (name.mref, some name)
  | .exhausted none _ _ => .error .enoent

def ntfsLookupInodeByName (dir : DirInode) (fuel : ℕ) : Option Answer :=
  match dir.mapMftRecord with
  | .error code => some (.error code)
  | .ok () =>
    if dir.getSearchCtx = false then some (.error .enomem)
    else match dir.lookupRoot with
      | .error .enoent => some (.error .eio)
      | .error code => some (.error code)
      | .ok root =>
        (run dir.index IndexEntry.keyLength (visitName vol uname) fuel
          ⟨.root, root, root.entriesOffset, none⟩).map answerOf

end

/-! ### Directories -/

/-- The entries of a directory in order. Among names that differ in case only, one at most is
outside the POSIX namespace. -/
structure WellOrdered (upcase : List UInt16) (entries : List DirEntry) : Prop where
  ordered : entries.Pairwise fun a b => nameOrder upcase a.content.name b.content.name = .lt
  unique : ∀ a ∈ entries, ∀ b ∈ entries, a.content.nameType ≠ fileNamePosix →
    b.content.nameType ≠ fileNamePosix → SameCase upcase a.content.name b.content.name →
    a.content.name = b.content.name

def DirInode.Holds (dir : DirInode) (tree : SearchTree DirEntry) : Prop :=
  dir.mapMftRecord = .ok () ∧ dir.getSearchCtx = true ∧ ∃ root, dir.lookupRoot = .ok root ∧
      Laid dir.index IndexEntry.keyLength true root root.entriesOffset tree

def Matches (vol : NameVolume) (uname : Name) (ie : DirEntry) : Prop :=
  vol.caseSensitive = false ∧ ie.content.nameType ≠ fileNamePosix ∧
    SameCase vol.upcase uname ie.content.name

/-- What a lookup should return: the reference of the entry with the name; without one, the
reference of an entry that matches it, certainly if no other entry has the name in some case, or
else no entry. -/
def Answers (vol : NameVolume) (uname : Name) (entries : List DirEntry)
    (mref : Except Errno UInt64) : Prop :=
  (∀ ie ∈ entries, ie.content.name = uname → mref = .ok ie.content.indexedFile) ∧
    ((∀ ie ∈ entries, ie.content.name ≠ uname) → (∀ ie ∈ entries, Matches vol uname ie →
        (∀ other ∈ entries, SameCase vol.upcase uname other.content.name →
          other.content.name = ie.content.name) → mref = .ok ie.content.indexedFile) ∧
      (mref = .error .enoent ∨ ∃ ie ∈ entries, Matches vol uname ie ∧
        mref = .ok ie.content.indexedFile))

def LooksUp (vol : NameVolume) (uname : Name) (dir : DirInode) (entries : List DirEntry) : Prop :=
  ∃ enough, ∀ fuel, enough ≤ fuel → ∃ answer, ntfsLookupInodeByName vol uname dir fuel =
    some answer ∧
      Answers vol uname entries (answer.map Prod.fst)

/-! ### One entry -/

section

variable {vol : NameVolume} {uname : Name} {ie : DirEntry}

def cachedName (ie : DirEntry) : NtfsName :=
  ⟨ie.content.indexedFile, ie.content.nameType,
    if ie.content.nameType = fileNameDos then [] else ie.content.name⟩

/-- The name in `*res` for an entry with the name. -/
def foundName (ie : DirEntry) : Option NtfsName :=
  if ie.content.nameType = fileNameDos then some ⟨ie.content.indexedFile, fileNameDos, []⟩ else none

def Taken (vol : NameVolume) (uname : Name) (ie : DirEntry) : Prop :=
  vol.caseSensitive = false ∧ ie.content.nameType ≠ fileNamePosix ∧
    ntfsAreNamesEqual vol.upcase uname ie.content.name .ignoreCase = true

instance : DecidablePred (Taken vol uname) := fun _ => inferInstanceAs (Decidable (_ ∧ _))

def keptBehind (vol : NameVolume) (uname : Name) (cached : Option NtfsName) (ie : DirEntry) :
    Option NtfsName := if Taken vol uname ie then some (cachedName ie) else cached

/-- Where the driver goes from an entry: nowhere if it has the name, and down if it is collated
behind the name. -/
def side (vol : NameVolume) (uname : Name) (ie : DirEntry) : Ordering :=
  if ie.content.name = uname then .eq
  else if collateTwice vol.upcase 1 uname ie.content.name = -1 then .lt else .gt

theorem side_eq_iff : side vol uname ie = .eq ↔ ie.content.name = uname := by
  unfold side
  split_ifs with hname <;> simp [hname]

theorem side_of_clean (hclean : Clean vol.upcase uname) :
    side vol uname = fun ie => nameOrder vol.upcase uname ie.content.name := by
  funext ie
  rw [side, collateTwice_eq (hclean.collatable 1)]
  cases hord : nameOrder vol.upcase uname ie.content.name with
  | eq => exact if_pos (Std.LawfulEqCmp.eq_of_compare hord).symm
  | lt | gt =>
    refine if_neg fun heq => ?_
    have hself : nameOrder vol.upcase uname uname = .eq := Std.ReflCmp.compare_self
    rw [heq, hself] at hord
    cases hord

theorem taken_iff (hupper : UpperClean vol.upcase uname) :
    Taken vol uname ie ↔ Matches vol uname ie :=
  and_congr_right' (and_congr_right' (@ntfsAreNamesEqual_iff uname ie.content.name .ignoreCase
    vol.upcase hupper))

theorem foundIt_eq (hmemo : ∀ size, vol.kmalloc size = true) (cached : Option NtfsName) :
    foundIt vol cached ie = .halt (.ok (ie.content.indexedFile, foundName ie)) := by
  unfold foundIt foundName
  rw [hmemo]
  split_ifs with hdos hnone
  · cases hnone.2
  · rfl
  · rfl

theorem collateEntry_eq_ite (cached : Option NtfsName) (ie : DirEntry) :
    collateEntry vol uname cached ie =
      if collateTwice vol.upcase 1 uname ie.content.name = -1 then .descend cached
      else if collateTwice vol.upcase 1 uname ie.content.name ≠ 0 then .advance cached
      else foundIt vol cached ie := by
  unfold collateEntry collateTwice
  dsimp only
  split_ifs <;> first | rfl | omega

theorem cacheName_eq (hmemo : ∀ size, vol.kmalloc size = true) (cached : Option NtfsName) :
    cacheName vol uname cached ie =
      if Taken vol uname ie ∧ cached ≠ none then .error .eio
      else .ok (keptBehind vol uname cached ie) := by
  unfold cacheName keptBehind
  by_cases htak : Taken vol uname ie
  · rw [if_pos (show _ ∧ _ from htak), if_pos htak]
    simp only [hmemo, and_iff_right htak]
    rfl
  · rw [if_neg (show ¬ (_ ∧ _) from htak), if_neg fun h => htak h.1, if_neg htak]

theorem visitName_of_eq (hmemo : ∀ size, vol.kmalloc size = true)
    (heq : ie.content.name = uname) (cached : Option NtfsName) :
    visitName vol uname cached ie = .halt (.ok (ie.content.indexedFile, foundName ie)) := by
  rw [visitName, if_pos (ntfsAreNamesEqual_of_map_eq (by rw [heq])), foundIt_eq hmemo]

theorem visitName_of_ne (hmemo : ∀ size, vol.kmalloc size = true) (hnul : ∀ c ∈ uname, c ≠ 0)
    (hne : ie.content.name ≠ uname) (cached : Option NtfsName) :
    visitName vol uname cached ie =
      if Taken vol uname ie ∧ cached ≠ none then .halt (.error .eio)
      else
        if side vol uname ie = .lt then .descend (keptBehind vol uname cached ie)
        else .advance (keptBehind vol uname cached ie) := by
  have hdiff : ¬ ntfsAreNamesEqual vol.upcase uname ie.content.name .caseSensitive = true := by
    rw [ntfsAreNamesEqual_iff hnul]
    exact fun h => hne (map_injective_iff.mpr Function.injective_id h).symm
  have hzero : collateTwice vol.upcase 1 uname ie.content.name ≠ 0 := by
    rcases @collateTwice_eq_or vol.upcase uname ie.content.name with hone | hord
    · omega
    · rw [hord, ne_eq, Foundation.ByteComparison.signOf_eq_zero]
      exact fun h => hne (Std.LawfulEqCmp.eq_of_compare h).symm
  have hcoll : ∀ next, collateEntry vol uname next ie =
      if side vol uname ie = .lt then .descend next else .advance next := by
    intro next
    rw [collateEntry_eq_ite, side, if_neg hne]
    split_ifs <;> simp_all
  rw [visitName, if_neg hdiff, cacheName_eq hmemo]
  by_cases hsec : Taken vol uname ie ∧ cached ≠ none
  · rw [if_pos hsec, if_pos hsec]
  · rw [if_neg hsec, if_neg hsec]
    exact hcoll _

theorem side_of_visitName (hmemo : ∀ size, vol.kmalloc size = true) (hnul : ∀ c ∈ uname, c ≠ 0)
    {cached state : Option NtfsName} :
    (visitName vol uname cached ie = .descend state → side vol uname ie = .lt) ∧
      (visitName vol uname cached ie = .advance state → side vol uname ie = .gt) := by
  by_cases heq : ie.content.name = uname
  · rw [visitName_of_eq hmemo heq]
    exact ⟨nofun, nofun⟩
  · rw [visitName_of_ne hmemo hnul heq]
    by_cases hsec : Taken vol uname ie ∧ cached ≠ none
    · rw [if_pos hsec]
      exact ⟨nofun, nofun⟩
    · rw [if_neg hsec]
      cases hside : side vol uname ie with
      | lt => exact ⟨fun _ => rfl, nofun⟩
      | eq => exact absurd (side_eq_iff.mp hside) heq
      | gt => exact ⟨nofun, fun _ => rfl⟩

end

/-! ### The entries on the way -/

section

variable {vol : NameVolume} {uname : Name} {tree : SearchTree DirEntry}

def settle : Option NtfsName → List DirEntry → Answer ⊕ Option NtfsName
  | cached, [] => .inr cached
  | none, ie :: rest => settle (some (cachedName ie)) rest
  | some _, _ :: _ => .inl (.error .eio)

theorem replay_eq_settle (hmemo : ∀ size, vol.kmalloc size = true) (hnul : ∀ c ∈ uname, c ≠ 0)
    {entries : List DirEntry} (hne : ∀ ie ∈ entries, ie.content.name ≠ uname)
    (cached : Option NtfsName) : SearchTree.replay (visitName vol uname) entries cached =
      settle cached (entries.filter fun ie => Taken vol uname ie) := by
  induction entries generalizing cached with
  | nil => cases cached <;> rfl
  | cons first rest ih =>
    obtain ⟨hfst, hrest⟩ := forall_mem_cons.mp hne
    rw [SearchTree.replay, visitName_of_ne hmemo hnul hfst]
    by_cases hsec : Taken vol uname first ∧ cached ≠ none
    · obtain ⟨kept, rfl⟩ := Option.ne_none_iff_exists'.mp hsec.2
      rw [if_pos hsec, filter_cons_of_pos (by simpa using hsec.1)]
      rfl
    · -- The search goes on with the rest, down or along the row.
      have hkept : settle cached ((first :: rest).filter fun ie => Taken vol uname ie) =
          settle (keptBehind vol uname cached first) (rest.filter fun ie =>
              Taken vol uname ie) := by
        by_cases htak : Taken vol uname first
        · obtain rfl : cached = none := by_contra fun h => hsec ⟨htak, h⟩
          rw [filter_cons_of_pos (by simpa using htak), keptBehind, if_pos htak, settle]
        · rw [filter_cons_of_neg (by simpa using htak), keptBehind, if_neg htak]
      rw [hkept, ← ih hrest]
      split_ifs <;> rfl

/-- Assumes: memory, and a name without NUL. The search settles on an entry that is taken for the
name, if there is none with the name on the way, or else finds that, if it gets there. -/
theorem search_cases (hmemo : ∀ size, vol.kmalloc size = true) (hnul : ∀ c ∈ uname, c ≠ 0)
    (tree : SearchTree DirEntry) :
    (∀ ie ∈ tree.path (side vol uname), ie.content.name ≠ uname) ∧
      tree.search (visitName vol uname) none =
          settle none ((tree.path (side vol uname)).filter fun ie => Taken vol uname ie) ∨
      ∃ others ie, tree.path (side vol uname) = others ++ [ie] ∧ ie.content.name = uname ∧
        (∀ other ∈ others, other.content.name ≠ uname) ∧
        tree.search (visitName vol uname) none =
          (settle none (others.filter fun ie => Taken vol uname ie)).elim .inl fun _ =>
            .inl (.ok (ie.content.indexedFile, foundName ie)) := by
  rw [@SearchTree.search_eq_replay _ _ _ (visitName vol uname) (side vol uname) tree
    (fun ie _ _ _ => (side_of_visitName hmemo hnul).1)
    (fun ie _ _ _ => (side_of_visitName hmemo hnul).2) none]
  rcases SearchTree.path_cases (side vol uname) tree with hall | ⟨others, ie, hpath, hie, hoths⟩
  · have hne : ∀ ie ∈ tree.path (side vol uname), ie.content.name ≠ uname :=
      fun ie h => mt side_eq_iff.mpr (hall ie h)
    exact .inl ⟨hne, replay_eq_settle hmemo hnul hne none⟩
  · have hne : ∀ other ∈ others, other.content.name ≠ uname :=
      fun other h => mt side_eq_iff.mpr (hoths other h)
    refine .inr ⟨others, ie, hpath, side_eq_iff.mp hie, hne, ?_⟩
    rw [hpath, SearchTree.replay_append, replay_eq_settle hmemo hnul hne none]
    congr 1
    funext state
    rw [SearchTree.replay, visitName_of_eq hmemo (side_eq_iff.mp hie)]

theorem nameOrder_irrefl (upcase : List UInt16) (ie : DirEntry) :
    ¬ nameOrder upcase ie.content.name ie.content.name = .lt := by
  have hself : nameOrder upcase ie.content.name ie.content.name = .eq := Std.ReflCmp.compare_self
  rw [hself]
  decide

theorem WellOrdered.names {entries : List DirEntry} (hord : WellOrdered vol.upcase entries) :
    entries.Pairwise fun a b => a.content.name ≠ b.content.name := by
  refine hord.ordered.imp ?_
  intro a b hlt heq
  exact nameOrder_irrefl vol.upcase a (by rwa [← heq] at hlt)

theorem WellOrdered.eq_of_name {entries : List DirEntry} (hord : WellOrdered vol.upcase entries)
    {a b : DirEntry} (ha : a ∈ entries) (hb : b ∈ entries)
    (hname : a.content.name = b.content.name) : a = b := by
  have hsymm : Std.Symm fun a b : DirEntry => a.content.name ≠ b.content.name :=
    ⟨fun _ _ h => h.symm⟩
  by_contra hne
  exact hord.names.forall ha hb hne hname

theorem WellOrdered.nodup {entries : List DirEntry} (hord : WellOrdered vol.upcase entries) :
    entries.Nodup := hord.names.imp fun h heq => h (by rw [heq])

theorem WellOrdered.mem_path_iff (hord : WellOrdered vol.upcase tree.items)
    {s : DirEntry → Ordering} {ie : DirEntry} :
    ie ∈ tree.path s ↔ ie ∈ tree.items ∧ tree.LeadsTo s ie :=
  ⟨fun h => have hmem := SearchTree.mem_items_of_mem_path h
    ⟨hmem, (SearchTree.mem_path_iff hord.nodup hmem).mp h⟩,
    fun h => (SearchTree.mem_path_iff hord.nodup h.1).mpr h.2⟩

/-- Assumes: an entry with the name that is looked for, or one that has it in some case and is alone
with that. It is on the way. -/
theorem WellOrdered.mem_path (hord : WellOrdered vol.upcase tree.items) {ie : DirEntry}
    (hmem : ie ∈ tree.items) (hsame : SameCase vol.upcase uname ie.content.name)
    (honly : ie.content.name = uname ∨ ∀ other ∈ tree.items,
      SameCase vol.upcase uname other.content.name → other.content.name = ie.content.name) :
    ie ∈ tree.path fun ie => nameOrder vol.upcase uname ie.content.name := by
  have horder : ∀ other ∈ tree.items, other ≠ ie → nameOrder vol.upcase uname other.content.name =
        nameOrder vol.upcase ie.content.name other.content.name := by
    intro other hoth hne
    rcases honly with rfl | honly
    · rfl
    · have hdiff : ¬ SameCase vol.upcase uname other.content.name := fun h =>
        hne (hord.eq_of_name hoth hmem (honly other hoth h))
      rw [nameOrder_of_ne hdiff, hsame, nameOrder_of_ne fun h => hdiff (hsame.trans h)]
  refine hord.mem_path_iff.mpr ⟨hmem, fun other h => ?_, fun other h => ?_⟩
  · have hlt := SearchTree.before_of_below hord.ordered h
    exact (horder other (SearchTree.mem_items_of_below h).1 fun h =>
      nameOrder_irrefl vol.upcase ie (h ▸ hlt)).trans hlt
  · have hlt := SearchTree.before_of_behind hord.ordered h
    exact (horder other (SearchTree.mem_items_of_behind h).1 fun h =>
      nameOrder_irrefl vol.upcase ie (h ▸ hlt)).trans (nameOrder_gt_iff.mpr hlt)

theorem settle_cases {taken : List DirEntry} (hnd : taken.Nodup) :
    (∃ a ∈ taken, ∃ b ∈ taken, a ≠ b) ∧ settle none taken = .inl (.error .eio) ∨
      (∀ a ∈ taken, ∀ b ∈ taken, a = b) ∧ settle none taken =
      .inr (taken.head?.map cachedName) := by
  match taken with
  | [] => exact .inr ⟨by simp, rfl⟩
  | [ie] => exact .inr ⟨by simp, rfl⟩
  | a :: b :: rest =>
    refine .inl ⟨⟨a, by simp, b, by simp, fun h => ?_⟩, rfl⟩
    exact (nodup_cons.mp hnd).1 (h ▸ mem_cons_self)

theorem mem_filter_taken {entries : List DirEntry} {ie : DirEntry} :
    (ie ∈ entries.filter fun ie => Taken vol uname ie) ↔ ie ∈ entries ∧ Taken vol uname ie := by
  rw [mem_filter, decide_eq_true_iff]

end

/-! ### The lookup -/

section

variable {vol : NameVolume} {uname : Name} {tree : SearchTree DirEntry}

def answerOfFound : Answer ⊕ Option NtfsName → Answer
  | .inl answer => answer
  | .inr (some name) => .ok (name.mref, some name)
  | .inr none => .error .enoent

theorem answerOf_eq {outcome : Outcome FileName (Option NtfsName) Answer}
    {found : Answer ⊕ Option NtfsName} (hfnd : outcome.found = some found) :
    answerOf outcome = answerOfFound found := by
  cases outcome with
  | failed code => cases hfnd
  | halted answer place =>
    cases hfnd
    rfl
  | exhausted cached ie place =>
    cases hfnd
    cases cached <;> rfl

theorem lookup_eq_search {dir : DirInode} (hdir : dir.Holds tree) :
    ∃ enough, ∀ fuel, enough ≤ fuel → ntfsLookupInodeByName vol uname dir fuel =
      some (answerOfFound (tree.search (visitName vol uname) none)) := by
  obtain ⟨hreco, hctx, root, hroot, hlaid⟩ := hdir
  obtain ⟨enough, hrun⟩ := @exists_run FileName (Option NtfsName) Answer dir.index
    IndexEntry.keyLength (visitName vol uname) tree ⟨.root, root, root.entriesOffset, none⟩ trivial
    hlaid
  refine ⟨enough, fun fuel hfuel => ?_⟩
  obtain ⟨outcome, hout, hfnd⟩ := Option.bind_eq_some_iff.mp (hrun fuel hfuel)
  simp only [ntfsLookupInodeByName, hreco, hctx, hroot, hout, Option.map_some,
    answerOf_eq hfnd, Bool.true_eq_false, if_false]

theorem looksUp_iff_search {dir : DirInode} (hdir : dir.Holds tree) :
    LooksUp vol uname dir tree.items ↔ Answers vol uname tree.items
      ((answerOfFound (tree.search (visitName vol uname) none)).map Prod.fst) := by
  obtain ⟨enough, hlookup⟩ := @lookup_eq_search vol uname tree dir hdir
  constructor
  · rintro ⟨enough', hanswers⟩
    obtain ⟨answer, hanswer, hright⟩ := hanswers (max enough enough') (le_max_right _ _)
    rw [hlookup _ (le_max_left _ _)] at hanswer
    cases hanswer
    exact hright
  · exact fun hright => ⟨enough, fun fuel hfuel => ⟨_, hlookup fuel hfuel, hright⟩⟩

end

/-! ### When a reference is returned -/

section

variable {vol : NameVolume} {uname : Name} {tree : SearchTree DirEntry} {dir : DirInode}

def Returns (vol : NameVolume) (uname : Name) (dir : DirInode) (mref : UInt64) : Prop :=
  ∃ enough, ∀ fuel, enough ≤ fuel →
    ∃ res, ntfsLookupInodeByName vol uname dir fuel = some (.ok (mref, res))

def OnWay (vol : NameVolume) (uname : Name) (tree : SearchTree DirEntry) (ie : DirEntry) : Prop :=
  ie ∈ tree.items ∧ tree.LeadsTo (side vol uname) ie

def TakesOne (vol : NameVolume) (uname : Name) (tree : SearchTree DirEntry) : Prop :=
  ∀ a b, OnWay vol uname tree a → OnWay vol uname tree b → a.content.name ≠ uname →
    b.content.name ≠ uname → Taken vol uname a → Taken vol uname b → a = b

theorem returns_iff_search (hdir : dir.Holds tree) (mref : UInt64) :
    Returns vol uname dir mref ↔
      ∃ res, answerOfFound (tree.search (visitName vol uname) none) = .ok (mref, res) := by
  obtain ⟨enough, hlk⟩ := @lookup_eq_search vol uname tree dir hdir
  constructor
  · rintro ⟨enough', hretu⟩
    obtain ⟨res, hres⟩ := hretu (max enough enough') (le_max_right _ _)
    rw [hlk _ (le_max_left _ _)] at hres
    exact ⟨res, Option.some.inj hres⟩
  · rintro ⟨res, hres⟩
    exact ⟨enough, fun fuel hfuel => ⟨res, by rw [hlk fuel hfuel, hres]⟩⟩

/-- What the search of a tree finds. -/
inductive Finds (vol : NameVolume) (uname : Name) (tree : SearchTree DirEntry) : Answer → Prop
  | two (hnot : ¬ TakesOne vol uname tree) : Finds vol uname tree (.error .eio)
  | named (found : DirEntry) (hone : TakesOne vol uname tree) (hway : OnWay vol uname tree found)
      (hname : found.content.name = uname) :
      Finds vol uname tree (.ok (found.content.indexedFile, foundName found))
  | taken (found : DirEntry) (hone : TakesOne vol uname tree) (hway : OnWay vol uname tree found)
      (htaken : Taken vol uname found)
      (hnone : ∀ ie, OnWay vol uname tree ie → ie.content.name ≠ uname) :
      Finds vol uname tree (.ok ((cachedName found).mref, some (cachedName found)))
  | nothing (hone : TakesOne vol uname tree)
      (hnone : ∀ ie, OnWay vol uname tree ie → ie.content.name ≠ uname ∧ ¬ Taken vol uname ie) :
      Finds vol uname tree (.error .enoent)

theorem finds_search (hmemory : ∀ size, vol.kmalloc size = true)
    (hordered : WellOrdered vol.upcase tree.items) (hnul : ∀ c ∈ uname, c ≠ 0) :
    Finds vol uname tree (answerOfFound (tree.search (visitName vol uname) none)) := by
  have hway : ∀ {ie}, ie ∈ tree.path (side vol uname) ↔ OnWay vol uname tree ie :=
    hordered.mem_path_iff
  have hnodup := @SearchTree.nodup_path _ (side vol uname) _ hordered.nodup
  rcases search_cases hmemory hnul tree with
    ⟨hnone, hsearch⟩ | ⟨others, found, hpath, hname, hothers, hsearch⟩
  · simp only [hway] at hnone
    rw [hsearch]
    rcases settle_cases (hnodup.filter fun ie => Taken vol uname ie) with
      ⟨⟨a, ha, b, hb, hne⟩, hsettle⟩ | ⟨hone, hsettle⟩
    · rw [mem_filter_taken, hway] at ha hb
      rw [hsettle]
      exact .two fun h => hne (h a b ha.1 hb.1 (hnone a ha.1) (hnone b hb.1) ha.2 hb.2)
    · have htakes : TakesOne vol uname tree := fun a b ha hb _ _ htaken htaken' =>
        hone a (mem_filter_taken.mpr ⟨hway.mpr ha, htaken⟩) b
          (mem_filter_taken.mpr ⟨hway.mpr hb, htaken'⟩)
      rw [hsettle]
      cases hhead : ((tree.path (side vol uname)).filter fun ie => Taken vol uname ie).head? with
      | none =>
        refine .nothing htakes fun ie hie => ⟨hnone ie hie, fun htaken => ?_⟩
        have hmem := mem_filter_taken.mpr ⟨hway.mpr hie, htaken⟩
        rw [List.head?_eq_none_iff.mp hhead] at hmem
        cases hmem
      | some first =>
        obtain ⟨hfirst, htaken⟩ := mem_filter_taken.mp (mem_of_head? hhead)
        exact .taken first htakes (hway.mp hfirst) htaken hnone
  · have hmem : ∀ {ie}, OnWay vol uname tree ie ↔ ie ∈ others ∨ ie = found := by
      intro ie
      rw [← hway, hpath, mem_append, mem_singleton]
    have hbefore : ∀ {ie}, OnWay vol uname tree ie → ie.content.name ≠ uname → ie ∈ others :=
      fun h hne => (hmem.mp h).resolve_right fun heq => hne (heq ▸ hname)
    rw [hpath] at hnodup
    rw [hsearch]
    rcases settle_cases (hnodup.of_append_left.filter fun ie => Taken vol uname ie) with
      ⟨⟨a, ha, b, hb, hne⟩, hsettle⟩ | ⟨hone, hsettle⟩
    · rw [mem_filter_taken] at ha hb
      rw [hsettle]
      exact .two fun h => hne (h a b (hmem.mpr (.inl ha.1)) (hmem.mpr (.inl hb.1))
        (hothers a ha.1) (hothers b hb.1) ha.2 hb.2)
    · simp only [mem_filter_taken] at hone
      rw [hsettle]
      exact .named found (fun a b ha hb hne hne' htaken htaken' =>
        hone a ⟨hbefore ha hne, htaken⟩ b ⟨hbefore hb hne', htaken'⟩) (hmem.mpr (.inr rfl)) hname

/-- Assumes: memory, a directory with an ordered index that can be read, and a name without NUL. The
lookup returns a reference just when it takes one entry at most for the name, and the reference is
that of an entry on the way with the name, or without such an entry of one that is taken for it. -/
theorem returns_iff (hmemo : ∀ size, vol.kmalloc size = true) (hdir : dir.Holds tree)
    (hord : WellOrdered vol.upcase tree.items) (hnul : ∀ c ∈ uname, c ≠ 0) (mref : UInt64) :
    Returns vol uname dir mref ↔ TakesOne vol uname tree ∧
      ∃ ie, OnWay vol uname tree ie ∧ ie.content.indexedFile = mref ∧ (ie.content.name = uname ∨
        Taken vol uname ie ∧ ∀ other, OnWay vol uname tree other → other.content.name ≠ uname) := by
  rw [returns_iff_search hdir]
  have hfinds := finds_search hmemo hord hnul
  generalize answerOfFound _ = answer at hfinds ⊢
  cases hfinds with
  | two hnot => exact iff_of_false nofun fun h => hnot h.1
  | named found hone hway hname =>
    constructor
    · rintro ⟨res, hres⟩
      cases hres
      exact ⟨hone, found, hway, rfl, .inl hname⟩
    · rintro ⟨-, ie, hie, rfl, hname' | ⟨-, hnot⟩⟩
      · rw [hord.eq_of_name hie.1 hway.1 (hname'.trans hname.symm)]
        exact ⟨_, rfl⟩
      · exact absurd hname (hnot found hway)
  | taken found hone hway htaken hnone =>
    constructor
    · rintro ⟨res, hres⟩
      cases hres
      exact ⟨hone, found, hway, rfl, .inr ⟨htaken, hnone⟩⟩
    · rintro ⟨-, ie, hie, rfl, hname | ⟨htaken', -⟩⟩
      · exact absurd hname (hnone ie hie)
      · rw [hone ie found hie hway (hnone ie hie) (hnone found hway) htaken' htaken]
        exact ⟨_, rfl⟩
  | nothing hone hnone =>
    refine iff_of_false nofun ?_
    rintro ⟨-, ie, hie, -, hname | ⟨htaken, -⟩⟩
    · exact (hnone ie hie).1 hname
    · exact (hnone ie hie).2 htaken

/-- Assumes: memory, an ordered index, and a clean name. The search answers as it should just when
it takes one entry at most for the name, and that has the reference of an entry that matches the
name, unless there is an entry with the name. -/
theorem answers_search_iff (hmemory : ∀ size, vol.kmalloc size = true)
    (hordered : WellOrdered vol.upcase tree.items) (hclean : Clean vol.upcase uname) :
    Answers vol uname tree.items
        ((answerOfFound (tree.search (visitName vol uname) none)).map Prod.fst) ↔
      TakesOne vol uname tree ∧ ((∃ ie ∈ tree.items, ie.content.name = uname) ∨
        ∀ ie, OnWay vol uname tree ie → Taken vol uname ie → ∃ other ∈ tree.items,
          Matches vol uname other ∧ other.content.indexedFile = ie.content.indexedFile) := by
  have hways (ie) (hie : ie ∈ tree.items) := @WellOrdered.mem_path vol uname tree hordered ie hie
  rw [← side_of_clean hclean] at hways
  simp only [hordered.mem_path_iff] at hways
  have hstored : ∀ ie ∈ tree.items, ie.content.name = uname → OnWay vol uname tree ie :=
    fun ie hie hname => hways ie hie (by rw [hname]; rfl) (.inl hname)
  have hmatched : ∀ ie ∈ tree.items, Matches vol uname ie →
      (∀ other ∈ tree.items, SameCase vol.upcase uname other.content.name →
        other.content.name = ie.content.name) → OnWay vol uname tree ie ∧ Taken vol uname ie :=
    fun ie hie hmatches honly => ⟨hways ie hie hmatches.2.2 (.inr honly), hmatches.1, hmatches.2.1,
      ntfsAreNamesEqual_of_map_eq hmatches.2.2⟩
  have hfinds := finds_search hmemory hordered fun c hc => (hclean c hc).1
  generalize answerOfFound _ = answer at hfinds ⊢
  cases hfinds with
  | two hnot =>
    refine iff_of_false (fun hanswers => ?_) fun h => hnot h.1
    by_cases hnone : ∀ ie ∈ tree.items, ie.content.name ≠ uname
    · rcases (hanswers.2 hnone).2 with herror | ⟨ie, -, -, hok⟩
      · cases herror
      · cases hok
    · push Not at hnone
      obtain ⟨ie, hie, hname⟩ := hnone
      cases hanswers.1 ie hie hname
  | named found hone hway hname =>
    refine iff_of_true ⟨fun ie hie hname' => ?_, fun hnot => absurd hname (hnot found hway.1)⟩
      ⟨hone, .inl ⟨found, hway.1, hname⟩⟩
    rw [hordered.eq_of_name hie hway.1 (hname'.trans hname.symm)]
    rfl
  | taken found hone hway htaken hnone =>
    have hunstored : ∀ ie ∈ tree.items, ie.content.name ≠ uname :=
      fun ie hie hname => hnone ie (hstored ie hie hname) hname
    have hsame : ∀ ie, OnWay vol uname tree ie → Taken vol uname ie → ie = found :=
      fun ie hie htaken' => hone ie found hie hway (hnone ie hie) (hnone found hway) htaken' htaken
    constructor
    · refine fun hanswers => ⟨hone, .inr fun ie hie htaken' => ?_⟩
      rw [hsame ie hie htaken']
      rcases (hanswers.2 hunstored).2 with herror | ⟨other, hother, hmatches, hok⟩
      · cases herror
      · exact ⟨other, hother, hmatches, (Except.ok.inj hok).symm⟩
    · rintro ⟨-, ⟨ie, hie, hname⟩ | hmatch⟩
      · exact absurd hname (hunstored ie hie)
      obtain ⟨other, hother, hmatches, href⟩ := hmatch found hway htaken
      refine ⟨fun ie hie hname => absurd hname (hunstored ie hie), fun _ =>
        ⟨fun ie hie hie' honly => ?_, .inr ⟨other, hother, hmatches, congrArg _ href.symm⟩⟩⟩
      obtain ⟨hway', htaken'⟩ := hmatched ie hie hie' honly
      rw [hsame ie hway' htaken']
      rfl
  | nothing hone hnone =>
    refine iff_of_true ⟨fun ie hie hname => ?_, fun _ =>
      ⟨fun ie hie hmatches honly => ?_, .inl rfl⟩⟩
      ⟨hone, .inr fun ie hie htaken => absurd htaken (hnone ie hie).2⟩
    · exact absurd hname (hnone ie (hstored ie hie hname)).1
    · obtain ⟨hway, htaken⟩ := hmatched ie hie hmatches honly
      exact absurd htaken (hnone ie hway).2

/-- Assumes: memory, a directory with an ordered index that can be read, and a name without NUL,
before or after folding, and without illegal characters. The lookup returns the reference it
should. -/
theorem lookup_answers (hmemory : ∀ size, vol.kmalloc size = true) (hdir : dir.Holds tree)
    (hordered : WellOrdered vol.upcase tree.items) (hclean : Clean vol.upcase uname)
    (hupper : UpperClean vol.upcase uname) : LooksUp vol uname dir tree.items := by
  rw [looksUp_iff_search hdir, answers_search_iff hmemory hordered hclean]
  refine ⟨fun a b ha hb _ _ htaken htaken' => ?_, .inr fun ie hie htaken =>
    ⟨ie, hie.1, (taken_iff hupper).mp htaken, rfl⟩⟩
  obtain ⟨-, htype, hsame⟩ := (taken_iff hupper).mp htaken
  obtain ⟨-, htype', hsame'⟩ := (taken_iff hupper).mp htaken'
  exact hordered.eq_of_name ha.1 hb.1
    (hordered.unique a ha.1 b hb.1 htype htype' (hsame.symm.trans hsame'))

/-- Assumes: memory, a directory with an ordered index that can be read, and a name without NUL and
illegal characters. The lookup returns the reference it should just when the search takes one entry
at most for the name, and that has the reference of an entry that matches it, unless there is an
entry with the name. -/
theorem looksUp_iff (hmemory : ∀ size, vol.kmalloc size = true) (hdir : dir.Holds tree)
    (hordered : WellOrdered vol.upcase tree.items) (hclean : Clean vol.upcase uname) :
    LooksUp vol uname dir tree.items ↔
      TakesOne vol uname tree ∧ ((∃ ie ∈ tree.items, ie.content.name = uname) ∨
        ∀ ie, OnWay vol uname tree ie → Taken vol uname ie → ∃ other ∈ tree.items,
          Matches vol uname other ∧ other.content.indexedFile = ie.content.indexedFile) := by
  rw [looksUp_iff_search hdir, answers_search_iff hmemory hordered hclean]

/-- Assumes: memory, a directory with an ordered index that can be read, and an entry of it with a
name without NUL. A lookup of the name returns the reference of the entry just when it takes one
other entry at most for the name, and the collation of the name with every entry above it gives the
value -1, or there is an entry on the way with the same reference that is taken for it. -/
theorem findsStored_iff (hmemory : ∀ size, vol.kmalloc size = true) (hdir : dir.Holds tree)
    (hordered : WellOrdered vol.upcase tree.items) {ie : DirEntry} (hie : ie ∈ tree.items)
    (hnul : ∀ c ∈ ie.content.name, c ≠ 0) :
    Returns vol ie.content.name dir ie.content.indexedFile ↔ TakesOne vol ie.content.name tree ∧
        ((∀ upper, tree.Below upper ie →
            collateTwice vol.upcase 1 ie.content.name upper.content.name = -1) ∨
          ∃ other, OnWay vol ie.content.name tree other ∧ Taken vol ie.content.name other ∧
            other.content.indexedFile = ie.content.indexedFile) := by
  have hne : ∀ {other : DirEntry}, nameOrder vol.upcase ie.content.name other.content.name ≠ .eq →
      other.content.name ≠ ie.content.name := by
    intro other hne heq
    rw [heq] at hne
    exact hne Std.ReflCmp.compare_self
  have honWay : OnWay vol ie.content.name tree ie ↔ ∀ upper, tree.Below upper ie →
      collateTwice vol.upcase 1 ie.content.name upper.content.name = -1 := by
    rw [OnWay, ← hordered.mem_path_iff,
      SearchTree.mem_path_iff_below hordered.ordered hordered.nodup hie]
    · refine forall_congr' fun upper => forall_congr' fun hbelow => ?_
      have hlt := SearchTree.before_of_below hordered.ordered hbelow
      rw [side, if_neg (hne (by simp [hlt]))]
      split_ifs with hminus <;> simp [hminus]
    · intro other hother hlt
      rw [side, if_neg (hne (by simp [nameOrder_gt_iff.mpr hlt])), if_neg fun hminus => ?_]
      rcases @collateTwice_eq_or vol.upcase ie.content.name other.content.name with hone | horder
      · omega
      · rw [horder, nameOrder_gt_iff.mpr hlt] at hminus
        cases hminus
  rw [returns_iff hmemory hdir hordered hnul, ← honWay]
  refine and_congr_right fun _ => ⟨?_, fun h => ?_⟩
  · rintro ⟨other, hway, href, hname | ⟨htaken, -⟩⟩
    · exact .inl (hordered.eq_of_name hway.1 hie hname ▸ hway)
    · exact .inr ⟨other, hway, htaken, href⟩
  · by_cases hway : OnWay vol ie.content.name tree ie
    · exact ⟨ie, hway, rfl, .inl rfl⟩
    · obtain ⟨other, hother, htaken, href⟩ := h.resolve_left hway
      refine ⟨other, hother, href, .inr ⟨htaken, fun third hthird hname => hway ?_⟩⟩
      exact hordered.eq_of_name hthird.1 hie hname ▸ hthird

/-- Assumes: memory, a volume that ignores case, a directory with an ordered index that can be read,
and a name without NUL that no entry has, but one outside the POSIX namespace in another case. A
lookup of the name returns the reference of that entry just when it takes one entry at most for the
name, and the entries lead to that entry, or to another one with the same reference that is taken
for the name. -/
theorem findsMatch_iff (hmemory : ∀ size, vol.kmalloc size = true)
    (hcase : vol.caseSensitive = false) (hdir : dir.Holds tree)
    (hordered : WellOrdered vol.upcase tree.items) (hnul : ∀ c ∈ uname, c ≠ 0) {ie : DirEntry}
    (hie : ie ∈ tree.items) (htype : ie.content.nameType ≠ fileNamePosix)
    (hsame : SameCase vol.upcase uname ie.content.name)
    (hnot : ∀ other ∈ tree.items, other.content.name ≠ uname) :
    Returns vol uname dir ie.content.indexedFile ↔ TakesOne vol uname tree ∧
      (tree.LeadsTo (side vol uname) ie ∨ ∃ other, other ≠ ie ∧ OnWay vol uname tree other ∧
        Taken vol uname other ∧ other.content.indexedFile = ie.content.indexedFile) := by
  have htaken : Taken vol uname ie := ⟨hcase, htype, ntfsAreNamesEqual_of_map_eq hsame⟩
  rw [returns_iff hmemory hdir hordered hnul]
  refine and_congr_right fun _ => ⟨?_, ?_⟩
  · rintro ⟨other, hway, href, hname | ⟨htaken, -⟩⟩
    · exact absurd hname (hnot other hway.1)
    · by_cases heq : other = ie
      · exact .inl (heq ▸ hway.2)
      · exact .inr ⟨other, heq, hway, htaken, href⟩
  · rintro (hleads | ⟨other, -, hway, htaken, href⟩)
    · exact ⟨ie, ⟨hie, hleads⟩, rfl, .inr ⟨htaken, fun other h => hnot other h.1⟩⟩
    · exact ⟨other, hway, href, .inr ⟨htaken, fun other h => hnot other h.1⟩⟩

end

/-! ### A directory with one name -/

def nameEntry (content : FileName) : DirEntry := ⟨0x58, 0x48, false, false, 0, content⟩

def oneName (content : FileName) : DirInode where
  index := ⟨12, 12, 4096, false, fun _ => .error .eio, le_rfl⟩
  mapMftRecord := .ok ()
  getSearchCtx := true
  lookupRoot := .ok ⟨0x10, 0x78, 0x78, true, fun offset =>
    if offset = 0x10 then nameEntry content else ⟨0x10, 0, true, false, 0, content⟩⟩

def oneNameTree (content : FileName) : SearchTree DirEntry :=
  .entry .none (nameEntry content) (.last .none)

theorem oneName_holds (content : FileName) : (oneName content).Holds (oneNameTree content) := by
  have hfst : 0x10 + 0x10 ≤ 0x78 ∧ 0x10 + 0x48 ≤ 0x78 := by decide
  have hlast : 0x10 + 0x58 + 0x10 ≤ 0x78 ∧ 0x10 + 0x58 + 0 ≤ 0x78 := by decide
  exact ⟨rfl, rfl, _, rfl, hfst, rfl, rfl, .inl ⟨rfl, rfl⟩, hlast, rfl, .inl ⟨rfl, rfl⟩⟩

theorem oneNameTree_ordered (upcase : List UInt16) (content : FileName) :
    WellOrdered upcase (oneNameTree content).items := by
  refine ⟨pairwise_singleton _ _, fun a ha b hb _ _ _ => ?_⟩
  rw [mem_singleton.mp ha, mem_singleton.mp hb]

/-- If the letter a is NUL in upper case, the name "ac" finds the name "ab", which does not match
it. -/
theorem not_looksUp_nul :
    Clean (tableUpToA 0) [0x61, 0x63] ∧ Clean (tableUpToA 0) [0x61, 0x62] ∧
      (oneName ⟨[0x61, 0x62], 1, 5⟩).Holds (oneNameTree ⟨[0x61, 0x62], 1, 5⟩) ∧
      WellOrdered (tableUpToA 0) (oneNameTree ⟨[0x61, 0x62], 1, 5⟩).items ∧
      ¬ LooksUp ⟨tableUpToA 0, false, fun _ => true⟩ [0x61, 0x63] (oneName ⟨[0x61, 0x62], 1, 5⟩)
        (oneNameTree ⟨[0x61, 0x62], 1, 5⟩).items := by
  refine ⟨by decide, by decide, oneName_holds _, oneNameTree_ordered _ _, fun hlooksUp => ?_⟩
  have hanswers := (looksUp_iff_search (oneName_holds _)).mp hlooksUp
  obtain ⟨-, hreference⟩ := hanswers.2 (by decide)
  rcases hreference with herror | ⟨ie, hie, hmatches, -⟩
  · revert herror
    decide
  · obtain rfl := List.mem_singleton.mp hie
    revert hmatches
    rintro ⟨-, -, hsame⟩
    revert hsame
    unfold SameCase
    decide

/-! ### A directory with two names -/

def nameNode (content : FileName) (hasNode : Bool) : IndexHeader FileName where
  entriesOffset := 0x10
  indexLength := 0x78
  allocatedSize := 4096 - blockHeaderSize
  isLeaf := !hasNode
  entryAt offset := if offset = 0x10 then { nameEntry content with hasNode := hasNode }
    else ⟨0x10, 0, true, false, 0, content⟩

def twoNames (low high : FileName) : DirInode where
  index := ⟨12, 12, 4096, true, fun _ => .ok fun _ => ⟨true, 0, nameNode low false⟩, le_rfl⟩
  mapMftRecord := .ok ()
  getSearchCtx := true
  lookupRoot := .ok (nameNode high true)

def twoNamesTree (low high : FileName) : SearchTree DirEntry :=
  .entry (.entry .none (nameEntry low) (.last .none)) { nameEntry high with hasNode := true }
    (.last .none)

theorem twoNames_holds (low high : FileName) :
    (twoNames low high).Holds (twoNamesTree low high) := by
  have hfst : 0x10 + 0x10 ≤ 0x78 ∧ 0x10 + 0x48 ≤ 0x78 := by decide
  have hlast : 0x10 + 0x58 + 0x10 ≤ 0x78 ∧ 0x10 + 0x58 + 0 ≤ 0x78 := by decide
  have hblk : (twoNames low high).index.Accepts 0 ⟨true, 0, nameNode low false⟩ :=
    ⟨rfl, rfl, rfl, (by decide : pageOffset 12 0 + 4096 ≤ pageSize),
      (by decide : blockHeaderSize + 0x78 ≤ 4096)⟩
  have hleads : Leads (twoNames low high).index true (nameNode high true)
      { nameEntry high with hasNode := true } ⟨true, 0, nameNode low false⟩ :=
    ⟨rfl, rfl, ⟨le_rfl, (by decide : (0 : ℤ) * 2 ^ 12 < 2 ^ 63)⟩, _, rfl, rfl, hblk⟩
  exact ⟨rfl, rfl, _, rfl, hfst, rfl, rfl,
    .inr ⟨_, hleads, hfst, rfl, rfl, .inl ⟨rfl, rfl⟩, hlast, rfl, .inl ⟨rfl, rfl⟩⟩,
    hlast, rfl, .inl ⟨rfl, rfl⟩⟩

theorem twoNamesTree_ordered {upcase : List UInt16} {low high : FileName}
    (hlt : nameOrder upcase low.name high.name = .lt) (hposix : high.nameType = fileNamePosix) :
    WellOrdered upcase (twoNamesTree low high).items := by
  refine ⟨pairwise_pair.mpr hlt, fun a ha b hb htype htype' _ => ?_⟩
  rcases mem_pair.mp ha with rfl | rfl
  · rcases mem_pair.mp hb with rfl | rfl
    · rfl
    · exact absurd hposix htype'
  · exact absurd hposix htype

theorem twoNames_takesOne {vol : NameVolume} {uname : Name} {low high : FileName}
    (hposix : high.nameType = fileNamePosix) : TakesOne vol uname (twoNamesTree low high) := by
  have hlow : ∀ ie ∈ (twoNamesTree low high).items, Taken vol uname ie → ie = nameEntry low :=
    fun ie hie htak => (mem_pair.mp hie).resolve_right fun h => htak.2.1 (h ▸ hposix)
  intro a b ha hb _ _ htak htak'
  rw [hlow a ha.1 htak, hlow b hb.1 htak']

theorem twoNames_leadsTo {low high : FileName} {s : DirEntry → Ordering}
    (hdown : s { nameEntry high with hasNode := true } = .lt) :
    (twoNamesTree low high).LeadsTo s (nameEntry low) := by
  rw [twoNamesTree, SearchTree.leadsTo_entry]
  refine ⟨fun _ => ⟨hdown, ?_⟩, nofun⟩
  exact ⟨nofun, nofun⟩

/-- The lookup of "aA" is right: it goes down from the POSIX name "aa" and takes the name "Aa",
which matches. -/
theorem looksUp_iff_below :
    LooksUp ⟨tableUpToA 0x41, false, fun _ => true⟩ [0x61, 0x41]
      (twoNames ⟨[0x41, 0x61], 1, 5⟩ ⟨[0x61, 0x61], 0, 6⟩)
      (twoNamesTree ⟨[0x41, 0x61], 1, 5⟩ ⟨[0x61, 0x61], 0, 6⟩).items := by
  refine (looksUp_iff (fun _ => rfl) (twoNames_holds _ _) (twoNamesTree_ordered (by decide) rfl)
    (by decide)).mpr ⟨twoNames_takesOne rfl, .inr fun ie hie htaken => ⟨ie, hie.1, ?_, rfl⟩⟩
  exact (taken_iff (by decide)).mp htaken

/-- The name "Aa" is found below the POSIX name "aa". -/
theorem findsStored_iff_below :
    Returns ⟨tableUpToA 0x41, false, fun _ => true⟩ [0x41, 0x61]
      (twoNames ⟨[0x41, 0x61], 1, 5⟩ ⟨[0x61, 0x61], 0, 6⟩) 5 := by
  refine (@findsStored_iff ⟨tableUpToA 0x41, false, fun _ => true⟩ _ _ (fun _ => rfl)
    (twoNames_holds _ _) (twoNamesTree_ordered (by decide) rfl) (nameEntry ⟨[0x41, 0x61], 1, 5⟩)
    List.mem_cons_self (by simp [nameEntry])).mpr ⟨twoNames_takesOne rfl,
      .inl fun upper hbelow => ?_⟩
  rcases hbelow with ⟨rfl, -⟩ | (⟨-, hnone⟩ | hnone | hnone) | hnone
  · decide
  · cases hnone
  · exact hnone.elim
  · exact hnone.elim
  · exact hnone.elim

/-- The name "aA" finds the name "Aa" below the POSIX name "aa". -/
theorem findsMatch_iff_below :
    Returns ⟨tableUpToA 0x41, false, fun _ => true⟩ [0x61, 0x41]
      (twoNames ⟨[0x41, 0x61], 1, 5⟩ ⟨[0x61, 0x61], 0, 6⟩) 5 :=
  (@findsMatch_iff ⟨tableUpToA 0x41, false, fun _ => true⟩ [0x61, 0x41] _ _ (fun _ => rfl) rfl
    (twoNames_holds _ _) (twoNamesTree_ordered (by decide) rfl) (by simp)
    (nameEntry ⟨[0x41, 0x61], 1, 5⟩) List.mem_cons_self (by decide) (by unfold SameCase; decide)
    (by decide)).mpr ⟨twoNames_takesOne rfl, .inl (twoNames_leadsTo (by decide))⟩

/-- The POSIX name "*a" in a subtree is not found, as the collation with the name "+" above it stops
at the first character. -/
theorem not_returns_star :
    (twoNames ⟨[0x2A, 0x61], 0, 5⟩ ⟨[0x2B], 0, 6⟩).Holds
        (twoNamesTree ⟨[0x2A, 0x61], 0, 5⟩ ⟨[0x2B], 0, 6⟩) ∧
      WellOrdered [] (twoNamesTree ⟨[0x2A, 0x61], 0, 5⟩ ⟨[0x2B], 0, 6⟩).items ∧
      ¬ Returns ⟨[], false, fun _ => true⟩ [0x2A, 0x61]
        (twoNames ⟨[0x2A, 0x61], 0, 5⟩ ⟨[0x2B], 0, 6⟩) 5 := by
  refine ⟨twoNames_holds _ _, twoNamesTree_ordered (by decide) rfl, ?_⟩
  rw [returns_iff_search (twoNames_holds _ _)]
  rintro ⟨res, hres⟩
  cases hres

/-- The name "aA" does not find the only other name "AA" of its kind, which lies below the POSIX
name "Aa". -/
theorem not_returns_posix :
    (twoNames ⟨[0x41, 0x41], 1, 5⟩ ⟨[0x41, 0x61], 0, 6⟩).Holds
        (twoNamesTree ⟨[0x41, 0x41], 1, 5⟩ ⟨[0x41, 0x61], 0, 6⟩) ∧
      WellOrdered (tableUpToA 0x41)
        (twoNamesTree ⟨[0x41, 0x41], 1, 5⟩ ⟨[0x41, 0x61], 0, 6⟩).items ∧
      ¬ Returns ⟨tableUpToA 0x41, false, fun _ => true⟩ [0x61, 0x41]
        (twoNames ⟨[0x41, 0x41], 1, 5⟩ ⟨[0x41, 0x61], 0, 6⟩) 5 := by
  refine ⟨twoNames_holds _ _, twoNamesTree_ordered (by decide) rfl, ?_⟩
  rw [returns_iff_search (twoNames_holds _ _)]
  rintro ⟨res, hres⟩
  have hlost : answerOfFound ((twoNamesTree ⟨[0x41, 0x41], 1, 5⟩ ⟨[0x41, 0x61], 0, 6⟩).search
      (visitName ⟨tableUpToA 0x41, false, fun _ => true⟩ [0x61, 0x41]) none) = .error .enoent := by
    decide
  cases hres

end AdvancedOs.Ntfs.DirectoryLookup
