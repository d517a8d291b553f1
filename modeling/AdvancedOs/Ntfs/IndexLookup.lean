import AdvancedOs.Foundation.ByteComparison
import AdvancedOs.Ntfs.IndexNodes

/-!
# Looking up a key in a view index

`ntfs_index_lookup` walks through a view index as the lookup of names does through a directory, with
`ntfs_collate` to tell where to go on. The collation returns what `memcmp` returns, of which only
the sign is known (`Memcmp`). The walk takes any value but -1 and 0 for an order behind the entry.

In an index in order the search finds a key just when the key's entry is on its way
(`right_iff_mem_path`), and that is so just when the collation with every entry above it gives -1
(`mem_path_iff_collate`). `findsKey_iff_reaches` puts this together with the `BUG_ON`s, for empty
keys and for numbers that are not of four bytes. With a `memcmp` that returns the difference of the
bytes, a key is lost if it differs from one above it by more than one (`not_findsKey_apart`).
-/

namespace AdvancedOs.Ntfs.IndexLookup

open Foundation.ByteComparison Foundation.SearchTrees RunlistElements IndexNodes SearchTree List

/-! ### Collation -/

inductive CollationRule
  | binary | fileName | unicodeString
  | ntofsUlong | ntofsSid | ntofsSecurityHash | ntofsUlongs
deriving DecidableEq, Repr

def CollationRule.isSupported : CollationRule → Bool
  | .binary | .ntofsUlong => true
  | _ => false

def le32ToCpup (data : List UInt8) : ℕ :=
  (data.take 4).foldr (fun byte value => byte.toNat + 2 ^ 8 * value) 0

section

variable (memcmp : Memcmp) (rule : CollationRule) (key : List UInt8)

def ntfsCollateBinary (data1 data2 : List UInt8) : ℤ :=
  let rc := memcmp.compareCommon data1 data2
  if rc = 0 ∧ data1.length ≠ data2.length then if data1.length < data2.length then -1 else 1
  else rc

def ntfsCollateNtofsUlong (data1 data2 : List UInt8) : Except Failure ℤ :=
  if data1.length ≠ data2.length then .error .bug
  else if data1.length ≠ 4 then .error .bug
  else if le32ToCpup data1 < le32ToCpup data2 then .ok (-1)
  else if le32ToCpup data1 = le32ToCpup data2 then .ok 0
  else .ok 1

def ntfsCollate (data1 data2 : List UInt8) : Except Failure ℤ :=
  match rule with
  | .binary => .ok (ntfsCollateBinary memcmp data1 data2)
  | .ntofsUlong => ntfsCollateNtofsUlong data1 data2
  | _ => .error .bug

/-! ### The driver -/

/-- What an entry of a view index has: the bytes from its key on, and where its data lies in it. -/
structure ViewData where
  keyByte : ℕ → UInt8
  dataOffset : ℕ
  dataLength : ℕ

abbrev ViewEntry := IndexEntry ViewData

def viewKey (ie : ViewEntry) : List UInt8 := (List.range ie.keyLength).map ie.content.keyByte

/-- The part of `ntfs_index_context` that a lookup sets. The data is given by its distance from the
entry. -/
structure IndexContext where
  isInRoot : Bool
  entry : ViewEntry
  data : ℕ
  dataLen : ℕ

def contextAt (isInRoot : Bool) (ie : ViewEntry) : IndexContext :=
  ⟨isInRoot, ie, ie.content.dataOffset, ie.content.dataLength⟩

/-- What a lookup returns once it has set the context: no error, or `ENOENT`. -/
abbrev Reply := Except Failure (Option Errno × IndexContext)

/-- The part of the inode of a view index that a lookup uses. -/
structure ViewInode where
  index : IndexInode ViewData
  collationRule : CollationRule
  mapMftRecord : Except Errno Unit
  getSearchCtx : Bool
  lookupRoot : Except Errno (IndexHeader ViewData)

def visitKey (_ : Unit) (ie : ViewEntry) : Move Unit (Except Failure ViewEntry) :=
  if ie.content.dataOffset < entryHeaderSize + ie.keyLength ∨
      ie.length < ie.content.dataOffset + ie.content.dataLength then .halt (.error (.errno .eio))
  else if key.length = ie.keyLength ∧ memcmp.compareBytes key (viewKey ie) = 0 then .halt (.ok ie)
  else match ntfsCollate memcmp rule key (viewKey ie) with
    | .error failure => .halt (.error failure)
    | .ok rc => if rc = -1 then .descend () else if rc = 0 then .halt (.ok ie) else .advance ()

def replyOf : Outcome ViewData Unit (Except Failure ViewEntry) → Reply
  | .failed code => .error (.errno code)
  | .halted (.error failure) _ => .error failure
  | .halted (.ok ie) place => .ok (none, contextAt place.inRoot ie)
  | .exhausted _ ie place => .ok (some .enoent, contextAt place.inRoot ie)

def ntfsIndexLookup (inode : ViewInode) (fuel : ℕ) : Option Reply :=
  if key = [] then some (.error .bug)
  else if inode.collationRule.isSupported = false then some (.error (.errno .eopnotsupp))
  else match inode.mapMftRecord with
    | .error code => some (.error (.errno code))
    | .ok () =>
      if inode.getSearchCtx = false then some (.error (.errno .enomem))
      else match inode.lookupRoot with
        | .error .enoent => some (.error (.errno .eio))
        | .error code => some (.error (.errno code))
        | .ok root =>
          (run inode.index IndexEntry.length (visitKey memcmp inode.collationRule key) fuel
            ⟨.root, root, root.entriesOffset, ()⟩).map replyOf

end

/-! ### View indexes -/

def keyOrder : CollationRule → List UInt8 → List UInt8 → Ordering
  | .ntofsUlong, data1, data2 => compare (le32ToCpup data1) (le32ToCpup data2)
  | _, data1, data2 => compare data1 data2

/-- The keys of the entries are in the order of the rule, which for numbers are four bytes, and the
data of each entry lies in it behind the key. -/
structure WellOrdered (rule : CollationRule) (entries : List ViewEntry) : Prop where
  ordered : entries.Pairwise fun a b => keyOrder rule (viewKey a) (viewKey b) = .lt
  wide : rule = .ntofsUlong → ∀ ie ∈ entries, (viewKey ie).length = 4
  inside : ∀ ie ∈ entries, entryHeaderSize + ie.keyLength ≤ ie.content.dataOffset ∧
    ie.content.dataOffset + ie.content.dataLength ≤ ie.length

def ViewInode.Holds (inode : ViewInode) (tree : SearchTree ViewEntry) : Prop :=
  inode.mapMftRecord = .ok () ∧ inode.getSearchCtx = true ∧ ∃ root, inode.lookupRoot = .ok root ∧
      Laid inode.index IndexEntry.length true root root.entriesOffset tree

/-- With enough fuel the lookup returns the entry with the key if there is one, and `ENOENT` if
not. -/
def FindsKey (memcmp : Memcmp) (key : List UInt8) (inode : ViewInode) (entries : List ViewEntry) :
    Prop :=
  ∃ enough, ∀ fuel, enough ≤ fuel → ∃ reply, ntfsIndexLookup memcmp key inode fuel = some reply ∧
      (∀ ie ∈ entries, viewKey ie = key → ∃ isInRoot, reply = .ok (none, contextAt isInRoot ie)) ∧
      ((∀ ie ∈ entries, viewKey ie ≠ key) → ∃ context, reply = .ok (some .enoent, context))

/-- The lookup of a key gets to it: the key is not empty, a number has four bytes, and before every
entry below which an entry with the key lies, `memcmp` gives just the value -1 for bytes that
differ. -/
def Reaches (memcmp : Memcmp) (rule : CollationRule) (key : List UInt8)
    (tree : SearchTree ViewEntry) : Prop :=
  key ≠ [] ∧ (rule = .ntofsUlong → key.length = 4 ∨ tree.items = []) ∧
    (rule = .binary → ∀ ie upper, viewKey ie = key → tree.Below upper ie →
      ntfsCollateBinary memcmp key (viewKey upper) = -1)

/-! ### Collation and order -/

theorem viewKey_length (ie : ViewEntry) : (viewKey ie).length = ie.keyLength := by
  simp [viewKey]

theorem le32ToCpup_injective {data1 data2 : List UInt8} (hleng : data1.length = 4)
    (hlength2 : data2.length = 4) (heq : le32ToCpup data1 = le32ToCpup data2) : data1 = data2 := by
  have hinj : ∀ {size : ℕ} {a b : List UInt8}, a.length = size → b.length = size →
      a.foldr (fun byte value => byte.toNat + 2 ^ 8 * value) 0 =
        b.foldr (fun byte value => byte.toNat + 2 ^ 8 * value) 0 → a = b := by
    intro size
    induction size with
    | zero =>
      intro a b ha hb _
      rw [eq_nil_of_length_eq_zero ha, eq_nil_of_length_eq_zero hb]
    | succ size ih =>
      intro a b ha hb h
      obtain ⟨byte1, a, rfl⟩ := exists_cons_of_length_eq_add_one ha
      obtain ⟨byte2, b, rfl⟩ := exists_cons_of_length_eq_add_one hb
      rw [foldr_cons, foldr_cons] at h
      have hbyte1 := byte1.toNat_lt
      have hbyte2 := byte2.toNat_lt
      have hbyte : byte1.toNat = byte2.toNat := by omega
      rw [UInt8.toNat_inj.mp hbyte, ih (Nat.succ.inj ha) (Nat.succ.inj hb) (by omega)]
  unfold le32ToCpup at heq
  rw [take_of_length_le hleng.le, take_of_length_le hlength2.le] at heq
  exact hinj hleng hlength2 heq

theorem sign_ntfsCollateBinary (memcmp : Memcmp) (data1 data2 : List UInt8) :
    (ntfsCollateBinary memcmp data1 data2).sign = signOf (compare data1 data2) := by
  rw [memcmp.signOf_compare]
  unfold ntfsCollateBinary
  by_cases hzero : memcmp.compareCommon data1 data2 = 0
  · rw [if_pos hzero]
    rcases lt_trichotomy data1.length data2.length with hlt | heq | hgt
    · rw [if_pos ⟨hzero, hlt.ne⟩, if_pos hlt, Nat.compare_eq_lt.mpr hlt]
      rfl
    · rw [if_neg (by simp [heq]), hzero, Nat.compare_eq_eq.mpr heq]
      rfl
    · rw [if_pos ⟨hzero, hgt.ne.symm⟩, if_neg hgt.not_gt, Nat.compare_eq_gt.mpr hgt]
      rfl
  · rw [if_neg hzero, if_neg fun h => hzero h.1]

section

variable {memcmp : Memcmp} {rule : CollationRule} {key other : List UInt8}

theorem exists_ntfsCollate (hsup : rule.isSupported = true)
    (hwide : rule = .ntofsUlong → key.length = 4 ∧ other.length = 4) :
    ∃ rc, ntfsCollate memcmp rule key other = .ok rc ∧
      rc.sign = signOf (keyOrder rule key other) := by
  cases rule with
  | binary => exact ⟨_, rfl, sign_ntfsCollateBinary memcmp key other⟩
  | ntofsUlong =>
    obtain ⟨hkey, hoth⟩ := hwide rfl
    rw [ntfsCollate, ntfsCollateNtofsUlong, if_neg (by rw [hkey, hoth]; decide),
      if_neg (by rw [hkey]; decide), keyOrder]
    rcases lt_trichotomy (le32ToCpup key) (le32ToCpup other) with hlt | heq | hgt
    · exact ⟨-1, if_pos hlt, by rw [Nat.compare_eq_lt.mpr hlt]; rfl⟩
    · refine ⟨0, ?_, by rw [Nat.compare_eq_eq.mpr heq]; rfl⟩
      rw [if_neg heq.not_lt, if_pos heq]
    · refine ⟨1, ?_, by rw [Nat.compare_eq_gt.mpr hgt]; rfl⟩
      rw [if_neg hgt.not_gt, if_neg hgt.ne']
  | _ => cases hsup

theorem eq_of_keyOrder (hwide : rule = .ntofsUlong → key.length = 4 ∧ other.length = 4)
    (heq : keyOrder rule key other = .eq) : key = other := by
  cases rule with
  | ntofsUlong =>
    obtain ⟨hkey, hoth⟩ := hwide rfl
    exact le32ToCpup_injective hkey hoth (Nat.compare_eq_eq.mp heq)
  | _ => exact Std.LawfulEqCmp.eq_of_compare (show compare key other = .eq from heq)

theorem keyOrder_self : keyOrder rule key key = .eq := by
  cases rule with
  | ntofsUlong => exact Nat.compare_eq_eq.mpr rfl
  | _ =>
    change compare key key = .eq
    exact Std.ReflCmp.compare_self

theorem keyOrder_gt_iff : keyOrder rule key other = .gt ↔ keyOrder rule other key = .lt := by
  cases rule with
  | ntofsUlong =>
    change compare (le32ToCpup key) (le32ToCpup other) = .gt ↔ compare _ _ = .lt
    exact Std.OrientedCmp.gt_iff_lt
  | _ =>
    change compare key other = .gt ↔ compare other key = .lt
    exact Std.OrientedCmp.gt_iff_lt

end

/-! ### The entries on the way -/

section

variable {memcmp : Memcmp} {rule : CollationRule} {key : List UInt8}

/-- Where a lookup goes from an entry. It goes down only for the value -1. -/
def side (memcmp : Memcmp) (rule : CollationRule) (key : List UInt8) (ie : ViewEntry) : Ordering :=
  match ntfsCollate memcmp rule key (viewKey ie) with
  | .error _ => .eq
  | .ok rc => if rc = -1 then .lt else if rc = 0 then .eq else .gt

theorem side_of_visitKey {ie : ViewEntry} :
    (visitKey memcmp rule key () ie = .descend () → side memcmp rule key ie = .lt) ∧
      (visitKey memcmp rule key () ie = .advance () → side memcmp rule key ie = .gt) := by
  unfold visitKey side
  split_ifs
  · exact ⟨nofun, nofun⟩
  · exact ⟨nofun, nofun⟩
  · cases ntfsCollate memcmp rule key (viewKey ie) with
    | error failure => exact ⟨nofun, nofun⟩
    | ok rc =>
      dsimp only
      split_ifs
      · exact ⟨fun _ => rfl, nofun⟩
      · exact ⟨nofun, nofun⟩
      · exact ⟨nofun, fun _ => rfl⟩

/-- The entry can be looked at for the key: no check fails at it, and the collation accepts the
keys. -/
structure Passable (rule : CollationRule) (key : List UInt8) (ie : ViewEntry) : Prop where
  inside : entryHeaderSize + ie.keyLength ≤ ie.content.dataOffset ∧
    ie.content.dataOffset + ie.content.dataLength ≤ ie.length
  wide : rule = .ntofsUlong → key.length = 4 ∧ (viewKey ie).length = 4

theorem visitKey_of_eq {ie : ViewEntry} (hpass : Passable rule key ie) (heq : viewKey ie = key) :
    visitKey memcmp rule key () ie = .halt (.ok ie) := by
  have hzero : (memcmp.compareBytes key (viewKey ie)).sign = 0 := by
    rw [memcmp.sign_eq _ _ (by rw [heq]), heq]
    have hself : compare key key = .eq := Std.ReflCmp.compare_self
    rw [hself]
    rfl
  unfold visitKey
  rw [if_neg (not_or.mpr ⟨not_lt.mpr hpass.inside.1, not_lt.mpr hpass.inside.2⟩),
    if_pos ⟨by rw [← heq, viewKey_length], Int.sign_eq_zero_iff_zero.mp hzero⟩]

theorem visitKey_of_ne (hsup : rule.isSupported = true) {ie : ViewEntry}
    (hpass : Passable rule key ie) (hne : viewKey ie ≠ key) :
    visitKey memcmp rule key () ie = .descend () ∨ visitKey memcmp rule key () ie =
      .advance () := by
  obtain ⟨rc, hrc, hsign⟩ := @exists_ntfsCollate memcmp rule key (viewKey ie) hsup hpass.wide
  have hnot : ¬ (key.length = ie.keyLength ∧ memcmp.compareBytes key (viewKey ie) = 0) := by
    rintro ⟨hlen, hzero⟩
    have hby := memcmp.sign_eq key (viewKey ie) (hlen.trans (viewKey_length ie).symm)
    rw [hzero, Int.sign_zero, eq_comm, signOf_eq_zero] at hby
    exact hne (Std.LawfulEqCmp.eq_of_compare hby).symm
  have hrcNe : rc ≠ 0 := by
    rintro rfl
    rw [Int.sign_zero, eq_comm, signOf_eq_zero] at hsign
    exact hne (eq_of_keyOrder hpass.wide hsign).symm
  unfold visitKey
  rw [if_neg (not_or.mpr ⟨not_lt.mpr hpass.inside.1, not_lt.mpr hpass.inside.2⟩), if_neg hnot, hrc]
  dsimp only
  rw [if_neg hrcNe]
  split_ifs
  · exact .inl rfl
  · exact .inr rfl

theorem replay_visitKey (hsup : rule.isSupported = true) {entries : List ViewEntry}
    (hpass : ∀ ie ∈ entries, Passable rule key ie) :
    (∃ ie ∈ entries, viewKey ie = key ∧ replay (visitKey memcmp rule key) entries () =
      .inl (.ok ie)) ∨ (∀ ie ∈ entries, viewKey ie ≠ key) ∧
      replay (visitKey memcmp rule key) entries () = .inr () := by
  induction entries with
  | nil => exact .inr ⟨by simp, rfl⟩
  | cons first rest ih =>
    have hfst := hpass first mem_cons_self
    by_cases heq : viewKey first = key
    · refine .inl ⟨first, mem_cons_self, heq, ?_⟩
      rw [replay, visitKey_of_eq hfst heq]
    · have hgoes : replay (visitKey memcmp rule key) (first :: rest) () =
          replay (visitKey memcmp rule key) rest () := by
        rw [replay]
        rcases @visitKey_of_ne memcmp rule key hsup first hfst heq with hmove | hmove <;> rw [hmove]
      rw [hgoes]
      rcases ih fun ie hie => hpass ie (mem_cons_of_mem _ hie) with
        ⟨ie, hie, hkey, hend⟩ | ⟨hnone, hend⟩
      · exact .inl ⟨ie, mem_cons_of_mem _ hie, hkey, hend⟩
      · exact .inr ⟨List.forall_mem_cons.mpr ⟨heq, hnone⟩, hend⟩

end

/-! ### The lookup -/

section

variable {memcmp : Memcmp} {rule : CollationRule} {key : List UInt8} {tree : SearchTree ViewEntry}

theorem WellOrdered.eq_of_key {entries : List ViewEntry} (hord : WellOrdered rule entries)
    {a b : ViewEntry} (ha : a ∈ entries) (hb : b ∈ entries) (hkey : viewKey a = viewKey b) :
    a = b := by
  have hdiff : entries.Pairwise fun a b => viewKey a ≠ viewKey b := by
    refine hord.ordered.imp ?_
    intro a b hlt heq
    rw [heq, keyOrder_self] at hlt
    cases hlt
  have hsymm : Std.Symm fun a b : ViewEntry => viewKey a ≠ viewKey b := ⟨fun _ _ h => h.symm⟩
  by_contra hne
  exact hdiff.forall ha hb hne hkey

/-- What a lookup should find. -/
def Right (key : List UInt8) (entries : List ViewEntry) (found : Except Failure ViewEntry ⊕ Unit) :
    Prop :=
  (∀ ie ∈ entries, viewKey ie = key → found = .inl (.ok ie)) ∧
    ((∀ ie ∈ entries, viewKey ie ≠ key) → found = .inr ())

theorem findsKey_iff_right {inode : ViewInode} (hinode : inode.Holds tree) (hkey : key ≠ [])
    (hsup : inode.collationRule.isSupported = true) :
    FindsKey memcmp key inode tree.items ↔
      Right key tree.items (tree.search (visitKey memcmp inode.collationRule key) ()) := by
  obtain ⟨hreco, hctx, root, hroot, hlaid⟩ := hinode
  obtain ⟨enough, hrun⟩ := @exists_run ViewData Unit (Except Failure ViewEntry) inode.index
    IndexEntry.length (visitKey memcmp inode.collationRule key) tree
    ⟨.root, root, root.entriesOffset, ()⟩ trivial hlaid
  have hlk : ∀ fuel, enough ≤ fuel → ∃ outcome, ntfsIndexLookup memcmp key inode fuel =
    some (replyOf outcome) ∧
        outcome.found = some (tree.search (visitKey memcmp inode.collationRule key) ()) := by
    intro fuel hfuel
    obtain ⟨outcome, hout, hfnd⟩ := Option.bind_eq_some_iff.mp (hrun fuel hfuel)
    refine ⟨outcome, ?_, hfnd⟩
    simp only [ntfsIndexLookup, hkey, hsup, hreco, hctx, hroot, hout, Option.map_some,
      Bool.true_eq_false, if_false]
  generalize tree.search (visitKey memcmp inode.collationRule key) () = found at hlk
  constructor
  · rintro ⟨enough', hrepl⟩
    obtain ⟨reply, hreply, hmem, hnot⟩ := hrepl (max enough enough') (le_max_right _ _)
    obtain ⟨outcome, hout, hfnd⟩ := hlk (max enough enough') (le_max_left _ _)
    rw [hreply] at hout
    cases hout
    refine ⟨fun ie hie hieKey => ?_, fun hnone => ?_⟩
    · obtain ⟨isInRoot, hok⟩ := hmem ie hie hieKey
      rcases outcome with code | ⟨failure | other, place⟩ | ⟨state, other, place⟩ <;> cases hok
      exact (Option.some.inj hfnd).symm
    · obtain ⟨context, hok⟩ := hnot hnone
      rcases outcome with code | ⟨failure | other, place⟩ | ⟨state, other, place⟩ <;> cases hok
      exact (Option.some.inj hfnd).symm
  · rintro ⟨hmem, hnot⟩
    refine ⟨enough, fun fuel hfuel => ?_⟩
    obtain ⟨outcome, hout, hfnd⟩ := hlk fuel hfuel
    refine ⟨_, hout, fun ie hie hieKey => ?_, fun hnone => ?_⟩
    · rw [hmem ie hie hieKey] at hfnd
      rcases outcome with code | ⟨result, place⟩ | ⟨state, other, place⟩ <;> cases hfnd
      exact ⟨place.inRoot, rfl⟩
    · rw [hnot hnone] at hfnd
      rcases outcome with code | ⟨result, place⟩ | ⟨state, other, place⟩ <;> cases hfnd
      exact ⟨_, rfl⟩

/-- Assumes: an ordered index, with keys the collation accepts. The search finds what it should just
when the entries with the key are on its way. -/
theorem right_iff_mem_path (hsup : rule.isSupported = true)
    (hord : WellOrdered rule tree.items) (hwide : rule = .ntofsUlong → key.length = 4) :
    Right key tree.items (tree.search (visitKey memcmp rule key) ()) ↔
      ∀ ie ∈ tree.items, viewKey ie = key → ie ∈ tree.path (side memcmp rule key) := by
  rw [@search_eq_replay _ _ _ (visitKey memcmp rule key) (side memcmp rule key) tree
    (fun _ _ _ _ => side_of_visitKey.1) (fun _ _ _ _ => side_of_visitKey.2) ()]
  have hpass : ∀ ie ∈ tree.path (side memcmp rule key), Passable rule key ie := fun ie hie =>
    have hmem := mem_items_of_mem_path hie
    ⟨hord.inside ie hmem, fun h => ⟨hwide h, hord.wide h ie hmem⟩⟩
  rcases @replay_visitKey memcmp rule key hsup _ hpass with
    ⟨found, hfnd, hfoundKey, hrepl⟩ | ⟨hnone, hrepl⟩
  · have hfoundMem := mem_items_of_mem_path hfnd
    rw [hrepl]
    refine iff_of_true ⟨fun ie hie hkey => ?_, fun hnot => absurd hfoundKey (hnot found hfoundMem)⟩
      fun ie hie hkey => ?_
    · rw [hord.eq_of_key hie hfoundMem (hkey.trans hfoundKey.symm)]
    · rw [hord.eq_of_key hie hfoundMem (hkey.trans hfoundKey.symm)]
      exact hfnd
  · rw [hrepl]
    refine ⟨fun hright ie hie hkey => ?_, fun hpath => ⟨fun ie hie hkey => ?_, fun _ => rfl⟩⟩
    · cases hright.1 ie hie hkey
    · exact absurd hkey (hnone ie (hpath ie hie hkey))

/-- Assumes: an ordered index, and an entry of it with the key. The entry is on the way just when
the collation of the key with every entry above it gives the value -1. -/
theorem mem_path_iff_collate (hsup : rule.isSupported = true) (hord : WellOrdered rule tree.items)
    {ie : ViewEntry} (hie : ie ∈ tree.items) (hkey : viewKey ie = key) :
    ie ∈ tree.path (side memcmp rule key) ↔ ∀ upper, tree.Below upper ie →
      ntfsCollate memcmp rule key (viewKey upper) = .ok (-1) := by
  have hcoll : ∀ other ∈ tree.items, ∃ rc, ntfsCollate memcmp rule key (viewKey other) = .ok rc ∧
      rc.sign = signOf (keyOrder rule (viewKey ie) (viewKey other)) := fun other hoth => by
    rw [hkey]
    exact exists_ntfsCollate hsup fun h =>
      ⟨by rw [← hkey]; exact hord.wide h ie hie, hord.wide h other hoth⟩
  have hsides : ∀ upper, tree.Below upper ie → (side memcmp rule key upper = .lt ↔
      ntfsCollate memcmp rule key (viewKey upper) = .ok (-1)) := by
    intro upper hbel
    obtain ⟨rc, hrc, -⟩ := hcoll upper (mem_items_of_below hbel).1
    rw [side, hrc]
    dsimp only
    split_ifs with hminus hzero <;> simp_all
  have hnd : tree.items.Nodup := hord.ordered.imp fun hlt heq => by
    rw [heq, keyOrder_self] at hlt
    cases hlt
  rw [mem_path_iff_below hord.ordered hnd hie]
  · exact forall_congr' fun upper => forall_congr' fun hbel => hsides upper hbel
  · intro other hoth hbef
    obtain ⟨rc, hrc, hsign⟩ := hcoll other hoth
    rw [keyOrder_gt_iff.mpr hbef] at hsign
    have hpos : 0 < rc := Int.sign_eq_one_iff_pos.mp hsign
    rw [side, hrc]
    dsimp only
    rw [if_neg (by omega), if_neg (by omega)]

theorem search_eq_bug (hord : WellOrdered .ntofsUlong tree.items) (hit : tree.items ≠ [])
    (hlen : key.length ≠ 4) : tree.search (visitKey memcmp .ntofsUlong key) () =
      .inl (.error .bug) := by
  rw [@search_eq_replay _ _ _ (visitKey memcmp .ntofsUlong key)
    (side memcmp .ntofsUlong key) tree (fun _ _ _ _ => side_of_visitKey.1)
    (fun _ _ _ _ => side_of_visitKey.2) ()]
  obtain ⟨first, rest, hpath⟩ := exists_cons_of_ne_nil
    (mt (@path_eq_nil_iff _ (side memcmp .ntofsUlong key) tree).mp hit)
  have hfst : first ∈ tree.items :=
    mem_items_of_mem_path (hpath ▸ mem_cons_self)
  have hwide := hord.wide rfl first hfst
  have hin := hord.inside first hfst
  have hvisit : visitKey memcmp .ntofsUlong key () first = .halt (.error .bug) := by
    rw [visitKey, if_neg (not_or.mpr ⟨not_lt.mpr hin.1, not_lt.mpr hin.2⟩),
      if_neg fun h => hlen (h.1.trans ((viewKey_length first).symm.trans hwide)), ntfsCollate,
      ntfsCollateNtofsUlong, if_pos (by rw [hwide]; exact hlen)]
  rw [hpath, replay, hvisit]

theorem ntfsCollate_of_below (hord : WellOrdered .ntofsUlong tree.items) {ie upper : ViewEntry}
    (hbel : tree.Below upper ie) :
    ntfsCollate memcmp .ntofsUlong (viewKey ie) (viewKey upper) = .ok (-1) := by
  obtain ⟨hupper, hie⟩ := mem_items_of_below hbel
  have hlt := Nat.compare_eq_lt.mp (before_of_below hord.ordered hbel)
  have hwide := hord.wide rfl ie hie
  have hwide' := hord.wide rfl upper hupper
  rw [ntfsCollate, ntfsCollateNtofsUlong, if_neg (by rw [hwide, hwide']; decide),
    if_neg (by rw [hwide]; decide), if_pos hlt]

/-- Assumes: a supported rule, and an ordered index that can be read. The lookup returns the entry
with the key if there is one, and `ENOENT` if not, just when it can get to the key. -/
theorem findsKey_iff_reaches {inode : ViewInode}
    (hsupported : inode.collationRule.isSupported = true) (hinode : inode.Holds tree)
    (hordered : WellOrdered inode.collationRule tree.items) :
    FindsKey memcmp key inode tree.items ↔ Reaches memcmp inode.collationRule key tree := by
  by_cases hkey : key = []
  · -- An empty key is a `BUG`, whatever the index has.
    refine iff_of_false ?_ fun h => h.1 hkey
    rintro ⟨enough, hreplies⟩
    obtain ⟨reply, hreply, hmem, hnot⟩ := hreplies enough le_rfl
    rw [ntfsIndexLookup, if_pos hkey] at hreply
    cases hreply
    by_cases hexists : ∃ ie ∈ tree.items, viewKey ie = key
    · obtain ⟨ie, hie, hieKey⟩ := hexists
      obtain ⟨_, hok⟩ := hmem ie hie hieKey
      cases hok
    · obtain ⟨_, hok⟩ := hnot fun ie hie hieKey => hexists ⟨ie, hie, hieKey⟩
      cases hok
  rw [findsKey_iff_right hinode hkey hsupported]
  unfold Reaches
  rw [and_iff_right hkey]
  cases hrule : inode.collationRule with
  | binary =>
    rw [hrule] at hordered
    rw [right_iff_mem_path rfl hordered nofun]
    refine ⟨fun hpath => ⟨nofun, fun _ ie upper hieKey hbelow => ?_⟩,
      fun hcollate ie hie hieKey => ?_⟩
    · have hie := (mem_items_of_below hbelow).2
      have hminus := (mem_path_iff_collate rfl hordered hie hieKey).mp (hpath ie hie hieKey) upper
        hbelow
      exact Except.ok.inj hminus
    · refine (mem_path_iff_collate rfl hordered hie hieKey).mpr fun upper hbelow => ?_
      rw [ntfsCollate, hcollate.2 rfl ie upper hieKey hbelow]
  | ntofsUlong =>
    rw [hrule] at hordered
    by_cases hlength : key.length = 4
    · rw [right_iff_mem_path rfl hordered fun _ => hlength]
      refine iff_of_true (fun ie hie hieKey => ?_) ⟨fun _ => .inl hlength, nofun⟩
      refine (mem_path_iff_collate rfl hordered hie hieKey).mpr fun upper hbelow => ?_
      rw [← hieKey]
      exact ntfsCollate_of_below hordered hbelow
    · have hnone : ∀ ie ∈ tree.items, viewKey ie ≠ key := fun ie hie hieKey =>
        hlength (hieKey ▸ hordered.wide rfl ie hie)
      by_cases hitems : tree.items = []
      · rw [@search_eq_replay _ _ _ (visitKey memcmp .ntofsUlong key)
          (side memcmp .ntofsUlong key) tree (fun _ _ _ _ => side_of_visitKey.1)
          (fun _ _ _ _ => side_of_visitKey.2) (), path_eq_nil_iff.mpr hitems]
        exact iff_of_true ⟨fun ie hie hieKey => absurd hieKey (hnone ie hie), fun _ => rfl⟩
          ⟨fun _ => .inr hitems, nofun⟩
      · rw [search_eq_bug hordered hitems hlength]
        refine iff_of_false (fun hright => ?_) fun h => (h.1 rfl).elim hlength hitems
        cases hright.2 hnone
  | _ =>
    rw [hrule] at hsupported
    cases hsupported

end

/-! ### An index with two keys -/

def firstDifference : List UInt8 → List UInt8 → ℤ
  | byte1 :: data1, byte2 :: data2 =>
    if byte1 = byte2 then firstDifference data1 data2 else (byte1.toNat : ℤ) - byte2.toNat
  | _, _ => 0

/-- A `memcmp` that returns the difference of the first bytes that differ. -/
def bytewise : Memcmp where
  compareBytes := firstDifference
  sign_eq data1 data2 hlength := by
    rw [List.compare_eq_compareLex]
    induction data1 generalizing data2 with
    | nil =>
      obtain rfl := List.eq_nil_of_length_eq_zero hlength.symm
      rfl
    | cons byte1 data1 ih =>
      obtain ⟨byte2, data2, rfl⟩ := List.exists_cons_of_length_eq_add_one hlength.symm
      rw [firstDifference, List.compareLex_cons_cons]
      split_ifs with heq
      · rw [ih data2 (Nat.succ.inj hlength), heq]
        have hself : compare byte2 byte2 = .eq := Std.ReflCmp.compare_self
        rw [hself]
        rfl
      · have hne : byte1.toNat ≠ byte2.toNat := fun h => heq (UInt8.toNat_inj.mp h)
        rcases Nat.lt_or_gt_of_ne hne with hlt | hgt
        · rw [Std.compare_eq_lt.mpr (UInt8.lt_iff_toNat_lt.mpr hlt),
            Int.sign_eq_neg_one_iff_neg.mpr (by omega)]
          rfl
        · rw [Std.compare_eq_gt.mpr (UInt8.lt_iff_toNat_lt.mpr hgt),
            Int.sign_eq_one_iff_pos.mpr (by omega)]
          rfl

def byteEntry (byte : UInt8) (hasNode : Bool) : ViewEntry :=
  ⟨0x28, 1, false, hasNode, 0, ⟨fun _ => byte, 0x14, 4⟩⟩

def byteNode (byte : UInt8) (hasNode : Bool) : IndexHeader ViewData where
  entriesOffset := 0x10
  indexLength := 0x48
  allocatedSize := 4096 - blockHeaderSize
  isLeaf := !hasNode
  entryAt offset := if offset = 0x10 then byteEntry byte hasNode else
    { byteEntry byte hasNode with length := 0x10, isEnd := true, hasNode := false }

def twoKeys (low high : UInt8) : ViewInode where
  index := ⟨12, 12, 4096, true, fun _ => .ok fun _ => ⟨true, 0, byteNode low false⟩, Nat.le.refl⟩
  collationRule := .binary
  mapMftRecord := .ok ()
  getSearchCtx := true
  lookupRoot := .ok (byteNode high true)

def twoKeysTree (low high : UInt8) : SearchTree ViewEntry :=
  .entry (.entry .none (byteEntry low false) (.last .none)) (byteEntry high true) (.last .none)

theorem twoKeys_holds (low high : UInt8) : (twoKeys low high).Holds (twoKeysTree low high) := by
  have hfst : 0x10 + 0x10 ≤ 0x48 ∧ 0x10 + 0x28 ≤ 0x48 := by decide
  have hlast : 0x10 + 0x28 + 0x10 ≤ 0x48 ∧ 0x10 + 0x28 + 0x10 ≤ 0x48 := by decide
  have hblk : (twoKeys low high).index.Accepts 0 ⟨true, 0, byteNode low false⟩ :=
    ⟨rfl, rfl, rfl, (by decide : pageOffset 12 0 + 4096 ≤ pageSize),
      (by decide : blockHeaderSize + 0x48 ≤ 4096)⟩
  have hleads : Leads (twoKeys low high).index true (byteNode high true) (byteEntry high true)
      ⟨true, 0, byteNode low false⟩ :=
    ⟨rfl, rfl, ⟨le_rfl, (by decide : (0 : ℤ) * 2 ^ 12 < 2 ^ 63)⟩, _, rfl, rfl, hblk⟩
  exact ⟨rfl, rfl, _, rfl, hfst, rfl, rfl,
    .inr ⟨_, hleads, hfst, rfl, rfl, .inl ⟨rfl, rfl⟩, hlast, rfl, .inl ⟨rfl, rfl⟩⟩,
    hlast, rfl, .inl ⟨rfl, rfl⟩⟩

theorem twoKeysTree_ordered {low high : UInt8} (hlt : compare [low] [high] = .lt) :
    WellOrdered .binary (twoKeysTree low high).items := by
  refine ⟨List.pairwise_pair.mpr hlt, nofun, fun ie hie => ?_⟩
  have hin : entryHeaderSize + 1 ≤ 0x14 ∧ 0x14 + 4 ≤ 0x28 := by decide
  rcases List.mem_pair.mp hie with rfl | rfl <;> exact hin

/-- The key 4 is found before the key 5. -/
theorem findsKey_iff_reaches_adjacent :
    FindsKey bytewise [4] (twoKeys 4 5) (twoKeysTree 4 5).items := by
  refine (findsKey_iff_reaches rfl (twoKeys_holds 4 5) (twoKeysTree_ordered (by decide))).mpr
    ⟨by decide, nofun, fun _ ie upper _ hbelow => ?_⟩
  rcases hbelow with ⟨rfl, -⟩ | hbelow | hbelow
  · decide
  · rcases hbelow with ⟨-, h⟩ | h | h
    · cases h
    · exact h.elim
    · exact h.elim
  · exact hbelow.elim

/-- The key 3 is not found before the key 5, for which `memcmp` returns -2. -/
theorem not_findsKey_apart :
    (twoKeys 3 5).collationRule.isSupported = true ∧ (twoKeys 3 5).Holds (twoKeysTree 3 5) ∧
      WellOrdered (twoKeys 3 5).collationRule (twoKeysTree 3 5).items ∧
      ¬ FindsKey bytewise [3] (twoKeys 3 5) (twoKeysTree 3 5).items := by
  refine ⟨rfl, twoKeys_holds 3 5, twoKeysTree_ordered (by decide), ?_⟩
  rw [findsKey_iff_right (twoKeys_holds 3 5) (by decide) rfl]
  intro hright
  have hfound := hright.1 (byteEntry 3 false) (by simp [twoKeysTree, items]) rfl
  have hlost : (twoKeysTree 3 5).search (visitKey bytewise .binary [3]) () = .inr () := rfl
  rw [show (twoKeys 3 5).collationRule = .binary from rfl, hlost] at hfound
  cases hfound

end AdvancedOs.Ntfs.IndexLookup
