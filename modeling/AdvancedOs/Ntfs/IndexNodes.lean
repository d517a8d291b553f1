import AdvancedOs.Foundation.SearchTrees
import AdvancedOs.Ntfs.RunlistElements

/-!
# Index nodes

The index of a directory, and that of a view index, is a tree of nodes: the root in the mft record,
and index blocks in the index allocation attribute. `ntfs_lookup_inode_by_name` and
`ntfs_index_lookup` walk through them in the same way. `step` is one round of their loops: the
bounds checks, the visit to the entry, and at the end of the walk through a node the descent into a
child node, with the page of the old node if the child lies in the same page.

`Laid` says that a tree of entries lies in the nodes. Then the walk is the search in that tree
(`exists_run`): the pages and blocks it goes through are the right ones, no check fails, and it
ends. A page is used again only for a child in it (`leaveNode_eq_descendInto`).
-/

namespace AdvancedOs.Ntfs.IndexNodes

open Foundation.SearchTrees Foundation.SignedWords RunlistElements

/-! ### The format -/

/-- An index entry: the fields of its header, the vcn of the child node in its last eight bytes, and
what the kind of index has in it. -/
structure IndexEntry (κ : Type) where
  length : ℕ
  keyLength : ℕ
  isEnd : Bool
  hasNode : Bool
  subnode : ℤ
  content : κ

/-- An index header, and the entries that reads at a distance from it give. -/
structure IndexHeader (κ : Type) where
  entriesOffset : ℕ
  indexLength : ℕ
  allocatedSize : ℕ
  isLeaf : Bool
  entryAt : ℕ → IndexEntry κ

/-- An index block: whether its magic is that of an index record, its own vcn, and the node. -/
structure IndexBlock (κ : Type) where
  isIndx : Bool
  indexBlockVcn : ℤ
  index : IndexHeader κ

/-- A page of the index allocation: the index blocks that reads at an offset give. -/
abbrev Page (κ : Type) := ℕ → IndexBlock κ

/-- The part of the inode that a walk through the index uses. The vcns of index blocks count
clusters, or sectors if clusters are larger than index blocks. -/
structure IndexInode (κ : Type) where
  vcnSizeBits : ℕ
  clusterSizeBits : ℕ
  blockSize : ℕ
  indexAllocPresent : Bool
  mapPage : ℤ → Except Errno (Page κ)
  vcnSizeBits_le : vcnSizeBits ≤ clusterSizeBits

def entryHeaderSize : ℕ := 16

def blockHeaderSize : ℕ := 0x18

def pageIndex (bits : ℕ) (vcn : ℤ) : ℤ := s64 (vcn * 2 ^ bits) / pageSize

def pageOffset (bits : ℕ) (vcn : ℤ) : ℕ := (s64 (vcn * 2 ^ bits) % pageSize).toNat

/-! ### The walk -/

section

variable {κ σ ρ : Type}

/-- Where a walk is: in the index root, or in an index block of a page. -/
inductive Place (κ : Type) where
  | root
  | block (vcn : ℤ) (page : Page κ)

/-- The state of a walk: the node, the distance of the entry from its header, and the state of the
search. -/
structure Cursor (κ σ : Type) where
  place : Place κ
  index : IndexHeader κ
  offset : ℕ
  state : σ

/-- How a walk ends: with an error, with a result at an entry, or at an entry without a child
node. -/
inductive Outcome (κ σ ρ : Type) where
  | failed (code : Errno)
  | halted (result : ρ) (place : Place κ)
  | exhausted (state : σ) (ie : IndexEntry κ) (place : Place κ)

variable (inode : IndexInode κ) (reach : IndexEntry κ → ℕ) (visit : σ → IndexEntry κ → Move σ ρ)

/-- The checks of an index block that is entered, from `fast_descend_into_child_node` on. -/
def enterBlock (vcn : ℤ) (page : Page κ) (state : σ) : Cursor κ σ ⊕ Outcome κ σ ρ :=
  let ofs := pageOffset inode.vcnSizeBits vcn
  let ia := page ofs
  if ia.isIndx = false then .inr (.failed .eio)
  else if ia.indexBlockVcn ≠ vcn then .inr (.failed .eio)
  else if (ia.index.allocatedSize + blockHeaderSize) % 2 ^ 32 ≠ inode.blockSize then
    .inr (.failed .eio)
  else if pageSize < ofs + inode.blockSize then .inr (.failed .eio)
  else if inode.blockSize < blockHeaderSize + ia.index.indexLength then .inr (.failed .eio)
  else .inl ⟨.block vcn page, ia.index, ia.index.entriesOffset, state⟩

/-- The descent into an index block, from `descend_into_child_node` on. -/
def descendInto (vcn : ℤ) (state : σ) : Cursor κ σ ⊕ Outcome κ σ ρ :=
  match inode.mapPage (pageIndex inode.vcnSizeBits vcn) with
  | .error code => .inr (.failed code)
  | .ok page => enterBlock inode vcn page state

/-- The end of the walk through a node, at the given entry. A page is used again if the child node
is in it; the driver takes the vcns for clusters here. -/
def leaveNode (cur : Cursor κ σ) (ie : IndexEntry κ) (state : σ) : Cursor κ σ ⊕ Outcome κ σ ρ :=
  if ie.hasNode = false then .inr (.exhausted state ie cur.place)
  else match cur.place with
    | .root =>
      if inode.indexAllocPresent = false then .inr (.failed .eio)
      else descendInto inode ie.subnode state
    | .block oldVcn page =>
      if cur.index.isLeaf = true then .inr (.failed .eio)
      else if ie.subnode < 0 then .inr (.failed .eio)
      else if pageIndex inode.clusterSizeBits oldVcn =
          pageIndex inode.clusterSizeBits ie.subnode then
        enterBlock inode ie.subnode page state
      else descendInto inode ie.subnode state

/-- One round of the loop over the entries of a node. Which length of an entry has to lie inside the
node differs between the two functions. -/
def step (cur : Cursor κ σ) : Cursor κ σ ⊕ Outcome κ σ ρ :=
  let ie := cur.index.entryAt cur.offset
  if cur.index.indexLength < cur.offset + entryHeaderSize ∨
      cur.index.indexLength < cur.offset + reach ie then .inr (.failed .eio)
  else if ie.isEnd = true then leaveNode inode cur ie cur.state
  else match visit cur.state ie with
    | .halt result => .inr (.halted result cur.place)
    | .descend state => leaveNode inode cur ie state
    | .advance state => .inl { cur with offset := cur.offset + ie.length, state := state }

/-- The walk. Nothing keeps it from going on for ever in a corrupt index. -/
def run : ℕ → Cursor κ σ → Option (Outcome κ σ ρ)
  | 0, _ => none
  | fuel + 1, cur =>
    match step inode reach visit cur with
    | .inl cur => run fuel cur
    | .inr outcome => some outcome

end

/-! ### Trees in nodes -/

section

variable {κ : Type} (inode : IndexInode κ) (reach : IndexEntry κ → ℕ)

/-- The entry at the given distance lies inside the node. -/
def IndexHeader.Fits (index : IndexHeader κ) (offset : ℕ) : Prop :=
  offset + entryHeaderSize ≤ index.indexLength ∧
    offset + reach (index.entryAt offset) ≤ index.indexLength

def IndexInode.Accepts (vcn : ℤ) (block : IndexBlock κ) : Prop :=
  block.isIndx = true ∧ block.indexBlockVcn = vcn ∧
    (block.index.allocatedSize + blockHeaderSize) % 2 ^ 32 = inode.blockSize ∧
    pageOffset inode.vcnSizeBits vcn + inode.blockSize ≤ pageSize ∧
    blockHeaderSize + block.index.indexLength ≤ inode.blockSize

/-- The vcn is one of the index allocation: no shift of it overflows. -/
def IndexInode.InRange (vcn : ℤ) : Prop := 0 ≤ vcn ∧ vcn * 2 ^ inode.clusterSizeBits < 2 ^ 63

/-- The entry of the node leads to the block. A node in an index block is not a leaf then, and there
is an index allocation. -/
def Leads (inRoot : Bool) (index : IndexHeader κ) (ie : IndexEntry κ) (block : IndexBlock κ) :
    Prop :=
  ie.hasNode = true ∧ (if inRoot then inode.indexAllocPresent = true else index.isLeaf = false) ∧
    inode.InRange ie.subnode ∧
    ∃ page, inode.mapPage (pageIndex inode.vcnSizeBits ie.subnode) = .ok page ∧
      page (pageOffset inode.vcnSizeBits ie.subnode) = block ∧ inode.Accepts ie.subnode block

/-- The entries of the tree lie in the node from the given distance on, and those of its subtrees in
the index blocks the entries lead to. -/
def Laid : Bool → IndexHeader κ → ℕ → SearchTree (IndexEntry κ) → Prop
  | _, _, _, .none => False
  | inRoot, index, offset, .last child =>
    index.Fits reach offset ∧ (index.entryAt offset).isEnd = true ∧
      ((index.entryAt offset).hasNode = false ∧ child = .none ∨
        ∃ block, Leads inode inRoot index (index.entryAt offset) block ∧
          Laid false block.index block.index.entriesOffset child)
  | inRoot, index, offset, .entry child item rest =>
    index.Fits reach offset ∧ index.entryAt offset = item ∧ item.isEnd = false ∧
      (item.hasNode = false ∧ child = .none ∨ ∃ block, Leads inode inRoot index item block ∧
          Laid false block.index block.index.entriesOffset child) ∧
      Laid inRoot index (offset + item.length) rest

end

/-! ### The walk through a tree -/

section

variable {κ σ ρ : Type} {inode : IndexInode κ} {reach : IndexEntry κ → ℕ}
  {visit : σ → IndexEntry κ → Move σ ρ}
variable {cur next : Cursor κ σ} {vcn : ℤ} {ie : IndexEntry κ} {outcome : Outcome κ σ ρ}
  {result : ρ ⊕ σ}

def Outcome.found : Outcome κ σ ρ → Option (ρ ⊕ σ)
  | .failed _ => none
  | .halted result _ => some (.inl result)
  | .exhausted state _ _ => some (.inr state)

def Place.inRoot : Place κ → Bool
  | .root => true
  | .block _ _ => false

def Place.Mapped (inode : IndexInode κ) : Place κ → Prop
  | .root => True
  | .block vcn page =>
    inode.InRange vcn ∧ inode.mapPage (pageIndex inode.vcnSizeBits vcn) = .ok page

theorem IndexInode.InRange.pageIndex_eq (hrange : inode.InRange vcn) {bits : ℕ}
    (hbits : bits ≤ inode.clusterSizeBits) : pageIndex bits vcn = vcn * 2 ^ bits / pageSize := by
  obtain ⟨hlow, hhigh⟩ := hrange
  have hle : vcn * 2 ^ bits ≤ vcn * 2 ^ inode.clusterSizeBits :=
    mul_le_mul_of_nonneg_left (pow_le_pow_right₀ (by decide) hbits) hlow
  have hnn : 0 ≤ vcn * 2 ^ bits := mul_nonneg hlow (by positivity)
  rw [pageIndex, s64_of_isS64 ⟨by omega, by omega⟩]

theorem pageIndex_eq_of_clusters {old : ℤ} (hold : inode.InRange old) (hvcn : inode.InRange vcn)
    (hsame : pageIndex inode.clusterSizeBits old = pageIndex inode.clusterSizeBits vcn) :
    pageIndex inode.vcnSizeBits old = pageIndex inode.vcnSizeBits vcn := by
  obtain ⟨more, hmore⟩ := Nat.exists_eq_add_of_le inode.vcnSizeBits_le
  have hspl : ∀ x : ℤ, x * 2 ^ inode.vcnSizeBits / pageSize =
      x * 2 ^ inode.clusterSizeBits / pageSize / 2 ^ more := by
    intro x
    rw [Int.ediv_ediv_of_nonneg (by decide), hmore, pow_add, ← mul_assoc,
      Int.mul_ediv_mul_of_pos_left _ _ (by positivity)]
  rw [hold.pageIndex_eq le_rfl, hvcn.pageIndex_eq le_rfl] at hsame
  rw [hold.pageIndex_eq inode.vcnSizeBits_le, hvcn.pageIndex_eq inode.vcnSizeBits_le,
    hspl, hspl, hsame]

theorem enterBlock_of_accepts {vcn : ℤ} {page : Page κ} {state : σ}
    (hacc : inode.Accepts vcn (page (pageOffset inode.vcnSizeBits vcn))) :
    (enterBlock inode vcn page state : Cursor κ σ ⊕ Outcome κ σ ρ) =
      .inl ⟨.block vcn page, (page (pageOffset inode.vcnSizeBits vcn)).index,
        (page (pageOffset inode.vcnSizeBits vcn)).index.entriesOffset, state⟩ := by
  obtain ⟨hindx, hvcn, hsize, hpage, hlen⟩ := hacc
  unfold enterBlock
  rw [if_neg (by simp [hindx]), if_neg (not_not.mpr hvcn), if_neg (not_not.mpr hsize),
    if_neg (not_lt.mpr hpage), if_neg (not_lt.mpr hlen)]

theorem leaveNode_of_leads {block : IndexBlock κ} (hmap : cur.place.Mapped inode)
    (hleads : Leads inode cur.place.inRoot cur.index ie block) (state : σ) :
    ∃ page, (Place.block ie.subnode page).Mapped inode ∧
      (leaveNode inode cur ie state : Cursor κ σ ⊕ Outcome κ σ ρ) =
        .inl ⟨.block ie.subnode page, block.index, block.index.entriesOffset, state⟩ := by
  obtain ⟨hnode, hpl, hrange, page, hpage, rfl, hacc⟩ := hleads
  refine ⟨page, ⟨hrange, hpage⟩, ?_⟩
  have henter := @enterBlock_of_accepts κ σ ρ inode _ _ state hacc
  have hdesc : (descendInto inode ie.subnode state : Cursor κ σ ⊕ Outcome κ σ ρ) =
      enterBlock inode ie.subnode page state := by
    rw [descendInto, hpage]
  obtain ⟨place, index, offset, old⟩ := cur
  rw [leaveNode, if_neg (by simp [hnode])]
  cases place with
  | root =>
    have hpres : inode.indexAllocPresent = true := hpl
    rw [if_neg (by simp [hpres]), hdesc, henter]
  | block oldVcn oldPage =>
    obtain ⟨holdRange, holdPage⟩ := hmap
    have hleaf : index.isLeaf = false := hpl
    dsimp only
    rw [if_neg (by simp [hleaf]), if_neg (not_lt.mpr hrange.1)]
    split_ifs with hsame
    · -- The page of the old node is the one that would be mapped for the child.
      rw [pageIndex_eq_of_clusters holdRange hrange hsame, hpage] at holdPage
      cases holdPage
      exact henter
    · rw [hdesc, henter]

theorem run_of_step (hstep : step inode reach visit cur = .inl next) (fuel : ℕ) :
    run inode reach visit (fuel + 1) cur = run inode reach visit fuel next := by
  rw [run, hstep]

theorem run_of_outcome (hstep : step inode reach visit cur = .inr outcome) (fuel : ℕ) :
    run inode reach visit (fuel + 1) cur = some outcome := by
  rw [run, hstep]

def Finds (inode : IndexInode κ) (reach : IndexEntry κ → ℕ) (visit : σ → IndexEntry κ → Move σ ρ)
    (cur : Cursor κ σ) (result : ρ ⊕ σ) : Prop :=
  ∃ enough, ∀ fuel, enough ≤ fuel → (run inode reach visit fuel cur).bind Outcome.found =
    some result

theorem Finds.of_step (hfinds : Finds inode reach visit next result)
    (hstep : step inode reach visit cur = .inl next) : Finds inode reach visit cur result := by
  obtain ⟨enough, hrun⟩ := hfinds
  refine ⟨enough + 1, fun fuel hfuel => ?_⟩
  obtain ⟨fuel, rfl⟩ := Nat.exists_eq_succ_of_ne_zero (Nat.ne_zero_of_lt hfuel)
  rw [run_of_step hstep]
  exact hrun fuel (Nat.le_of_succ_le_succ hfuel)

theorem finds_of_outcome (hstep : step inode reach visit cur = .inr outcome)
    (hfnd : outcome.found = some result) : Finds inode reach visit cur result := by
  refine ⟨1, fun fuel hfuel => ?_⟩
  obtain ⟨fuel, rfl⟩ := Nat.exists_eq_succ_of_ne_zero (Nat.ne_zero_of_lt hfuel)
  rw [run_of_outcome hstep, Option.bind_some, hfnd]

theorem finds_of_leave {child : SearchTree (IndexEntry κ)} {state : σ}
    (hmap : cur.place.Mapped inode)
    (hstep : step inode reach visit cur = leaveNode inode cur ie state)
    (hchild : ie.hasNode = false ∧ child = .none ∨ ∃ block,
      Leads inode cur.place.inRoot cur.index ie block ∧
        Laid inode reach false block.index block.index.entriesOffset child)
    (hwalk : ∀ next : Cursor κ σ, next.place.Mapped inode →
      Laid inode reach next.place.inRoot next.index next.offset child → Finds inode reach visit next
    (child.search visit next.state)) : Finds inode reach visit cur (child.search visit state) := by
  rcases hchild with ⟨hnode, rfl⟩ | ⟨block, hleads, hblk⟩
  · exact finds_of_outcome (hstep.trans (if_pos hnode)) rfl
  · obtain ⟨page, hpl, hleave⟩ := leaveNode_of_leads hmap hleads state
    have hfinds := hwalk ⟨.block ie.subnode page, block.index, block.index.entriesOffset, state⟩
      hpl hblk
    exact hfinds.of_step (hstep.trans hleave)

/-- Assumes: a mapped place with a tree laid in its node. The walk through the node finds what the
search in the tree finds. -/
theorem exists_run {tree : SearchTree (IndexEntry κ)} {cur : Cursor κ σ}
    (hmap : cur.place.Mapped inode)
    (hlaid : Laid inode reach cur.place.inRoot cur.index cur.offset tree) :
    Finds inode reach visit cur (tree.search visit cur.state) := by
  induction tree generalizing cur with
  | none => exact hlaid.elim
  | last child ih =>
    obtain ⟨hfits, hend, hchild⟩ := hlaid
    have hstep : step inode reach visit cur =
        leaveNode inode cur (cur.index.entryAt cur.offset) cur.state := by
      rw [step, if_neg (not_or.mpr ⟨not_lt.mpr hfits.1, not_lt.mpr hfits.2⟩), if_pos hend]
    rw [SearchTree.search]
    exact finds_of_leave hmap hstep hchild fun next => ih
  | entry child item rest ihChild ihRest =>
    obtain ⟨hfits, rfl, hend, hchild, hrest⟩ := hlaid
    have hstep : step inode reach visit cur =
        match visit cur.state (cur.index.entryAt cur.offset) with
        | .halt result => .inr (.halted result cur.place)
        | .descend state => leaveNode inode cur (cur.index.entryAt cur.offset) state
        | .advance state => .inl { cur with
            offset := cur.offset + (cur.index.entryAt cur.offset).length, state := state } := by
      rw [step, if_neg (not_or.mpr ⟨not_lt.mpr hfits.1, not_lt.mpr hfits.2⟩),
        if_neg (by simp [hend])]
    rw [SearchTree.search]
    cases hmove : visit cur.state (cur.index.entryAt cur.offset) with
    | halt result =>
      rw [hmove] at hstep
      exact finds_of_outcome hstep rfl
    | descend state =>
      rw [hmove] at hstep
      exact finds_of_leave hmap hstep hchild fun next => ihChild
    | advance state =>
      rw [hmove] at hstep
      have hfinds := @ihRest { cur with
        offset := cur.offset + (cur.index.entryAt cur.offset).length, state := state } hmap hrest
      exact hfinds.of_step hstep

end

/-! ### Pages that are used again -/

section

variable {κ σ ρ : Type}

/-- The sizes that the boot sector gives. -/
structure SectorSizes where
  sectorSizeBits : ℕ
  clusterSizeBits : ℕ
  sector_le_cluster : sectorSizeBits ≤ clusterSizeBits

/-- What `ntfs_read_locked_inode` sets up for an index, with the block size of the index root. -/
def setupIndex (vol : SectorSizes) (blockSize : ℕ) (indexAllocPresent : Bool)
    (mapPage : ℤ → Except Errno (Page κ)) : Except Errno (IndexInode κ) :=
  if blockSize &&& (blockSize - 1) ≠ 0 then .error .eio
  else if pageSize < blockSize then .error .eopnotsupp
  else if blockSize < 512 then .error .eopnotsupp
  else if 2 ^ vol.clusterSizeBits ≤ blockSize then
    .ok ⟨vol.clusterSizeBits, vol.clusterSizeBits, blockSize, indexAllocPresent, mapPage, le_rfl⟩
  else .ok ⟨vol.sectorSizeBits, vol.clusterSizeBits, blockSize, indexAllocPresent, mapPage,
    vol.sector_le_cluster⟩

theorem clusterSizeBits_of_setupIndex {vol : SectorSizes} {blockSize : ℕ} {present : Bool}
    {mapPage : ℤ → Except Errno (Page κ)} {inode : IndexInode κ}
    (hsetup : setupIndex vol blockSize present mapPage = .ok inode) :
    inode.clusterSizeBits = vol.clusterSizeBits := by
  unfold setupIndex at hsetup
  split_ifs at hsetup <;> cases hsetup <;> rfl

/-- Assumes: an index as it is set up, and vcns of a node and of its child that fit a 64-bit word in
bytes, taken for clusters. The page of the node is used again only for a child in it, so that the
child is entered as behind a lookup of its page. -/
theorem leaveNode_eq_descendInto {vol : SectorSizes} {blockSize : ℕ} {present : Bool}
    {mapPage : ℤ → Except Errno (Page κ)} {inode : IndexInode κ} {old : ℤ} {page : Page κ}
    {cur : Cursor κ σ} {ie : IndexEntry κ} (state : σ)
    (hsetup : setupIndex vol blockSize present mapPage = .ok inode)
    (hold : 0 ≤ old ∧ old * 2 ^ vol.clusterSizeBits < 2 ^ 63)
    (hchild : 0 ≤ ie.subnode ∧ ie.subnode * 2 ^ vol.clusterSizeBits < 2 ^ 63)
    (hplace : cur.place = .block old page) (hnode : ie.hasNode = true)
    (hleaf : cur.index.isLeaf = false)
    (hpage : inode.mapPage (pageIndex inode.vcnSizeBits old) = .ok page) :
    (pageIndex inode.clusterSizeBits old = pageIndex inode.clusterSizeBits ie.subnode →
        ie.subnode * 2 ^ inode.vcnSizeBits / pageSize = old * 2 ^ inode.vcnSizeBits / pageSize) ∧
      (leaveNode inode cur ie state : Cursor κ σ ⊕ Outcome κ σ ρ) =
        descendInto inode ie.subnode state := by
  rw [← clusterSizeBits_of_setupIndex hsetup] at hold hchild
  have hpages := @pageIndex_eq_of_clusters κ inode ie.subnode old hold hchild
  refine ⟨fun hsame => ?_, ?_⟩
  · rw [← IndexInode.InRange.pageIndex_eq hold inode.vcnSizeBits_le, hpages hsame,
      IndexInode.InRange.pageIndex_eq hchild inode.vcnSizeBits_le]
  · unfold leaveNode
    rw [hnode, hplace, if_neg nofun]
    dsimp only
    rw [hleaf, if_neg nofun, if_neg (not_lt.mpr hchild.1)]
    split_ifs with hsame
    · rw [descendInto, ← hpages hsame, hpage]
    · rfl

/-- Blocks of 2 kB in clusters of 8 kB: the child of the block at vcn 0 is in its page. -/
def halfPage : Page Unit :=
  fun _ => ⟨true, 4, ⟨16, 0, 0, false, fun _ => ⟨0, 0, true, true, 4, ()⟩⟩⟩

def halfPages : IndexInode Unit := ⟨9, 13, 2048, true, fun _ => .ok halfPage, by decide⟩

theorem leaveNode_halfPages : (leaveNode halfPages ⟨.block 0 halfPage, (halfPage 0).index, 16, ()⟩
    ⟨0, 0, true, true, 4, ()⟩ () : Cursor Unit Unit ⊕ Outcome Unit Unit Unit) =
      descendInto halfPages 4 () :=
  (@leaveNode_eq_descendInto Unit Unit Unit ⟨9, 13, by decide⟩ 2048 true _ halfPages 0
    halfPage _ _ () rfl (by decide) (by decide) rfl rfl rfl rfl).2

end

end AdvancedOs.Ntfs.IndexNodes
