import AdvancedOs.Foundation.StepRuns
import AdvancedOs.Ntfs.DirectoryLookup

/-!
# Do walks through an index end?

Nothing in an index that has been damaged keeps a walk through it from going on for ever. An entry
of length zero leads to itself, and child nodes may lead back to a node above them. The walk ends if
and only if it passes no entry of length zero without learning anything and never comes back to the
start of an index block knowing what it knew there before (`halts_iff`). `lookupReturns_iff` says so
of the lookup of a name in a directory.
-/

namespace AdvancedOs.Ntfs.IndexTermination

open Foundation.SearchTrees Foundation.StepRuns RunlistElements IndexNodes

section

variable {κ σ ρ : Type} (inode : IndexInode κ) (reach : IndexEntry κ → ℕ)
  (visit : σ → IndexEntry κ → Move σ ρ)
variable {cur next : Cursor κ σ} {state : σ}

def Passes (cur : Cursor κ σ) (state : σ) : Prop :=
  cur.index.Fits reach cur.offset ∧ (cur.index.entryAt cur.offset).isEnd = false ∧
    visit cur.state (cur.index.entryAt cur.offset) = .advance state

def AtBlockStart (cur : Cursor κ σ) : Prop :=
  ∃ vcn page, cur.place = .block vcn page ∧ cur.offset = cur.index.entriesOffset

/-- The walk goes past no entry of length zero in the same state, and does not come back to the
start of an index block in the same state. -/
structure Straight (start : Cursor κ σ) : Prop where
  passes : ∀ cur state, Reaches (step inode reach visit) start cur → Passes reach visit cur state →
    (cur.index.entryAt cur.offset).length = 0 → state ≠ cur.state
  descends : ∀ cur, Reaches (step inode reach visit) start cur → AtBlockStart cur →
    ¬ Relation.TransGen (Next (step inode reach visit)) cur cur

def FinitelyManyPages : Prop := {page | ∃ index, inode.mapPage index = .ok page}.Finite

def FromPage : Place κ → Prop
  | .root => True
  | .block _ page => ∃ index, inode.mapPage index = .ok page

def blockStart (page : Page κ) (offset : ℕ) (state : σ) : Cursor κ σ :=
  ⟨.block (page offset).indexBlockVcn page, (page offset).index, (page offset).index.entriesOffset,
    state⟩

variable {inode reach visit}

theorem pageOffset_lt (bits : ℕ) (vcn : ℤ) : pageOffset bits vcn < pageSize := by
  have hlow := Int.emod_nonneg (Foundation.SignedWords.s64 (vcn * 2 ^ bits))
    (show (pageSize : ℤ) ≠ 0 by decide)
  have hhigh := Int.emod_lt_of_pos (Foundation.SignedWords.s64 (vcn * 2 ^ bits))
    (show (0 : ℤ) < pageSize by decide)
  unfold pageOffset
  omega

theorem eq_of_enterBlock {vcn : ℤ} {page : Page κ}
    (h : (enterBlock inode vcn page state : Cursor κ σ ⊕ Outcome κ σ ρ) = .inl next) :
    ∃ offset < pageSize, next = blockStart page offset state := by
  refine ⟨pageOffset inode.vcnSizeBits vcn, pageOffset_lt _ _, ?_⟩
  unfold enterBlock at h
  dsimp only at h
  split_ifs at h with hindx hvcn hsize hpage hlen
  obtain rfl := Sum.inl.inj h
  rw [blockStart, not_not.mp hvcn]

theorem eq_of_leaveNode {ie : IndexEntry κ} (hpage : FromPage inode cur.place)
    (h : (leaveNode inode cur ie state : Cursor κ σ ⊕ Outcome κ σ ρ) = .inl next) :
    ∃ page offset, (∃ index, inode.mapPage index = .ok page) ∧ offset < pageSize ∧
      next = blockStart page offset state := by
  have hdesc : ∀ vcn, (descendInto inode vcn state : Cursor κ σ ⊕ Outcome κ σ ρ) = .inl next →
      ∃ page offset, (∃ index, inode.mapPage index = .ok page) ∧ offset < pageSize ∧
        next = blockStart page offset state := by
    intro vcn hvcn
    unfold descendInto at hvcn
    cases hmap : inode.mapPage (pageIndex inode.vcnSizeBits vcn) with
    | error code => simp [hmap] at hvcn
    | ok page =>
      rw [hmap] at hvcn
      obtain ⟨offset, hofs, rfl⟩ := eq_of_enterBlock hvcn
      exact ⟨page, offset, ⟨_, hmap⟩, hofs, rfl⟩
  unfold leaveNode at h
  by_cases hnode : ie.hasNode = false
  · rw [if_pos hnode] at h
    cases h
  rw [if_neg hnode] at h
  cases hpl : cur.place with
  | root =>
    rw [hpl] at h
    dsimp only at h
    split_ifs at h
    exact hdesc _ h
  | block oldVcn page =>
    rw [hpl] at h hpage
    dsimp only at h
    split_ifs at h
    · obtain ⟨offset, hofs, rfl⟩ := eq_of_enterBlock h
      exact ⟨page, offset, hpage, hofs, rfl⟩
    · exact hdesc _ h

theorem next_cases (hpage : FromPage inode cur.place) (h : Next (step inode reach visit) cur next) :
    (∃ state, Passes reach visit cur state ∧ next = { cur with
      offset := cur.offset + (cur.index.entryAt cur.offset).length, state := state }) ∨
    ∃ page offset state, (∃ index, inode.mapPage index = .ok page) ∧ offset < pageSize ∧
      next = blockStart page offset state ∧
      (state = cur.state ∨ visit cur.state (cur.index.entryAt cur.offset) = .descend state) := by
  unfold Next step at h
  dsimp only at h
  split_ifs at h with hbd hend
  · obtain ⟨page, offset, hmap, hofs, hnext⟩ := eq_of_leaveNode hpage h
    exact .inr ⟨page, offset, _, hmap, hofs, hnext, .inl rfl⟩
  · obtain ⟨hhdr, hreach⟩ := not_or.mp hbd
    cases hvisit : visit cur.state (cur.index.entryAt cur.offset) with
    | halt result => simp [hvisit] at h
    | descend state =>
      rw [hvisit] at h
      obtain ⟨page, offset, hmap, hofs, hnext⟩ := eq_of_leaveNode hpage h
      exact .inr ⟨page, offset, state, hmap, hofs, hnext, .inr rfl⟩
    | advance state =>
      rw [hvisit] at h
      refine .inl ⟨state, ⟨⟨not_lt.mp hhdr, not_lt.mp hreach⟩, by simpa using hend, hvisit⟩, ?_⟩
      exact (Sum.inl.inj h).symm

theorem fromPage_next (hpage : FromPage inode cur.place)
    (h : Next (step inode reach visit) cur next) : FromPage inode next.place := by
  rcases next_cases hpage h with ⟨state, -, rfl⟩ | ⟨page, offset, state, hmap, -, rfl, -⟩
  · exact hpage
  · exact hmap

theorem next_self {cur : Cursor κ σ} (h : Passes reach visit cur cur.state)
    (hzero : (cur.index.entryAt cur.offset).length = 0) :
    Next (step inode reach visit) cur cur := by
  obtain ⟨⟨hhdr, hreach⟩, hend, hvisit⟩ := h
  unfold Next step
  rw [if_neg (not_or.mpr ⟨not_lt.mpr hhdr, not_lt.mpr hreach⟩), if_neg (by simp [hend]), hvisit]
  rw [hzero, add_zero]

end

/-! ### Walks that learn finitely often -/

section

variable {κ σ ρ : Type} {inode : IndexInode κ} {reach : IndexEntry κ → ℕ}
  {visit : σ → IndexEntry κ → Move σ ρ}

/-- The state of the search changes finitely often: each change lowers a number. -/
def Learns (visit : σ → IndexEntry κ → Move σ ρ) (rank : σ → ℕ) : Prop :=
  ∀ state ie next, visit state ie = .advance next ∨ visit state ie = .descend next →
    next = state ∨ rank next < rank state

theorem straight_of_halts {start : Cursor κ σ} (h : Halts (step inode reach visit) start) :
    Straight inode reach visit start := by
  constructor
  · rintro cur state hrch hpass hzero rfl
    have hcycle := not_halts_of_cycle (.single (@next_self _ _ _ inode _ _ _ hpass hzero))
    exact hcycle ((halts_iff_of_reaches hrch).mp h)
  · intro cur hrch _ hcycle
    exact not_halts_of_cycle hcycle ((halts_iff_of_reaches hrch).mp h)

theorem state_next {rank : σ → ℕ} (hlear : Learns visit rank) {cur next : Cursor κ σ}
    (hpage : FromPage inode cur.place) (h : Next (step inode reach visit) cur next) :
    next.state = cur.state ∨ rank next.state < rank cur.state := by
  rcases next_cases hpage h with ⟨state, hpass, rfl⟩ | ⟨page, offset, state, -, -, rfl, hstate⟩
  · exact hlear cur.state _ state (.inl hpass.2.2)
  · rcases hstate with rfl | hvisit
    · exact .inl rfl
    · exact hlear cur.state _ state (.inr hvisit)

variable {orbit : ℕ → Cursor κ σ}

theorem fromPage_orbit (hpage : FromPage inode (orbit 0).place)
    (horbit : ∀ n, Next (step inode reach visit) (orbit n) (orbit (n + 1))) (n : ℕ) :
    FromPage inode (orbit n).place := by
  induction n with
  | zero => exact hpage
  | succ n ih => exact fromPage_next ih (horbit n)

theorem exists_settled {rank : σ → ℕ} (hlear : Learns visit rank)
    (hpage : FromPage inode (orbit 0).place)
    (horbit : ∀ n, Next (step inode reach visit) (orbit n) (orbit (n + 1))) :
    ∃ settled, ∀ n, (orbit (settled + n)).state = (orbit settled).state := by
  -- From the point of lowest rank on, a change of the state would lower it further.
  let settled := Function.argmin fun n => rank (orbit n).state
  have hleast : ∀ n, rank (orbit settled).state ≤ rank (orbit n).state :=
    fun n => Function.argmin_le (fun n => rank (orbit n).state) n
  refine ⟨settled, fun n => ?_⟩
  induction n with
  | zero => rfl
  | succ n ih =>
    rcases state_next hlear (fromPage_orbit hpage horbit _) (horbit (settled + n)) with
      hsame | hless
    · exact hsame.trans ih
    · have hlow := hleast (settled + n + 1)
      rw [ih] at hless
      omega

theorem not_passes_always {first : ℕ}
    (hpass : ∀ n, first ≤ n → ∃ state, Passes reach visit (orbit n) state ∧
      0 < ((orbit n).index.entryAt (orbit n).offset).length ∧ orbit (n + 1) = { orbit n with
        offset := (orbit n).offset + ((orbit n).index.entryAt (orbit n).offset).length,
        state := state }) : False := by
  have hgrows : ∀ n, (orbit (first + n)).index = (orbit first).index ∧
      (orbit first).offset + n ≤ (orbit (first + n)).offset := by
    intro n
    induction n with
    | zero => exact ⟨rfl, le_rfl⟩
    | succ n ih =>
      obtain ⟨state, -, hlen, hnext⟩ := hpass (first + n) (by omega)
      rw [← Nat.add_assoc, hnext]
      exact ⟨ih.1, by dsimp only; omega⟩
  obtain ⟨state, ⟨⟨hhdr, -⟩, -⟩, -⟩ :=
    hpass (first + (orbit first).index.indexLength) (by omega)
  obtain ⟨hidx, hofs⟩ := hgrows (orbit first).index.indexLength
  rw [hidx] at hhdr
  unfold entryHeaderSize at hhdr
  omega

theorem halts_of_straight (hfini : FinitelyManyPages inode) {rank : σ → ℕ}
    (hlear : Learns visit rank) {start : Cursor κ σ} (hpage : FromPage inode start.place)
    (h : Straight inode reach visit start) : Halts (step inode reach visit) start := by
  by_contra hnot
  obtain ⟨orbit, rfl, horbit⟩ := exists_orbit hnot
  obtain ⟨settled, hset⟩ := exists_settled hlear hpage horbit
  have hrch : ∀ n, Reaches (step inode reach visit) (orbit 0) (orbit n) := fun n => by
    simpa using reaches_of_orbit horbit 0 n
  -- The cursors at the starts of index blocks, in the state that does not change any more.
  let starts : Set (Cursor κ σ) := (fun block : Page κ × ℕ =>
    blockStart block.1 block.2 (orbit settled).state) ''
      ({page | ∃ index, inode.mapPage index = .ok page} ×ˢ {offset | offset < pageSize})
  have hst : starts.Finite := (Set.Finite.prod hfini (Set.finite_lt_nat pageSize)).image _
  have hinfi : {n | settled ≤ n ∧ orbit (n + 1) ∈ starts}.Infinite := by
    refine Set.infinite_of_forall_exists_gt fun first => ?_
    by_contra hnone
    refine @not_passes_always _ _ _ reach visit orbit (settled + first + 1) fun n hn => ?_
    obtain ⟨more, rfl⟩ := Nat.exists_eq_add_of_le (show settled ≤ n by omega)
    have hsame : (orbit (settled + more + 1)).state = (orbit (settled + more)).state :=
      (hset (more + 1)).trans (hset more).symm
    rcases next_cases (fromPage_orbit hpage horbit _) (horbit (settled + more)) with
      ⟨state, hpass, hnext⟩ | ⟨page, offset, state, hmap, hofs, hnext, -⟩
    · refine ⟨state, hpass, Nat.pos_of_ne_zero fun hzero => ?_, hnext⟩
      refine h.passes _ state (hrch _) hpass hzero ?_
      rwa [hnext] at hsame
    · refine absurd ⟨settled + more, ⟨by omega, ⟨(page, offset), ⟨hmap, hofs⟩, ?_⟩⟩, by omega⟩ hnone
      have hstate : state = (orbit settled).state := by
        rw [← hset (more + 1), ← Nat.add_assoc, hnext]
        rfl
      rw [← hstate]
      exact hnext.symm
  obtain ⟨m, hm, n, -, hmn, hback⟩ :=
    hinfi.exists_lt_map_eq_of_mapsTo (f := fun n => orbit (n + 1)) (fun n hn => hn.2) hst
  obtain ⟨⟨page, offset⟩, -, hblk⟩ := hm.2
  refine h.descends (orbit (m + 1)) (hrch _) ?_ ?_
  · rw [← hblk]
    exact ⟨_, _, rfl, rfl⟩
  · have hcycle := transGen_of_orbit horbit (Nat.succ_lt_succ hmn)
    exact hback ▸ hcycle

theorem halts_iff (hfini : FinitelyManyPages inode) {rank : σ → ℕ} (hlear : Learns visit rank)
    {start : Cursor κ σ} (hpage : FromPage inode start.place) :
    Halts (step inode reach visit) start ↔ Straight inode reach visit start :=
  ⟨straight_of_halts, halts_of_straight hfini hlear hpage⟩

end

/-! ### Lookups of names -/

section

open NameCollation DirectoryLookup

variable {vol : NameVolume} {uname : Name}

theorem foundIt_halts (vol : NameVolume) (cached : Option NtfsName) (ie : DirEntry) :
    ∃ answer, foundIt vol cached ie = .halt answer := by
  unfold foundIt
  split_ifs <;> exact ⟨_, rfl⟩

theorem eq_of_cacheName {cached next : Option NtfsName} {ie : DirEntry}
    (h : cacheName vol uname cached ie = .ok next) :
    next = cached ∨ (cached = none ∧ next ≠ none) := by
  unfold cacheName at h
  dsimp only at h
  split_ifs at h with hmat hcach hdos hmemo hmemo'
  all_goals
    obtain rfl := Except.ok.inj h
    first
    | exact .inl rfl
    | exact .inr ⟨not_not.mp hcach, by simp⟩

theorem eq_of_collateEntry {cached next : Option NtfsName} {ie : DirEntry}
    (h : collateEntry vol uname cached ie = .advance next ∨
      collateEntry vol uname cached ie = .descend next) : next = cached := by
  obtain ⟨answer, hfnd⟩ := foundIt_halts vol cached ie
  unfold collateEntry at h
  dsimp only at h
  rw [hfnd] at h
  split_ifs at h <;> simp_all

theorem learns_visitName (vol : NameVolume) (uname : Name) :
    Learns (visitName vol uname) fun cached => if cached = none then 1 else 0 := by
  intro cached ie next h
  unfold visitName at h
  split_ifs at h with hequal
  · obtain ⟨answer, hfnd⟩ := foundIt_halts vol cached ie
    simp [hfnd] at h
  · cases hcache : cacheName vol uname cached ie with
    | error code => simp [hcache] at h
    | ok kept =>
      rw [hcache] at h
      obtain rfl := eq_of_collateEntry h
      rcases eq_of_cacheName hcache with rfl | ⟨rfl, hsome⟩
      · exact .inl rfl
      · exact .inr (by simp [hsome])

theorem run_eq (inode : IndexInode FileName) (fuel : ℕ) (cur : Cursor FileName (Option NtfsName)) :
    IndexNodes.run inode IndexEntry.keyLength (visitName vol uname) fuel cur =
      Foundation.StepRuns.run (step inode IndexEntry.keyLength (visitName vol uname)) fuel cur := by
  induction fuel generalizing cur with
  | zero => rfl
  | succ fuel ih =>
    rw [IndexNodes.run, Foundation.StepRuns.run]
    cases step inode IndexEntry.keyLength (visitName vol uname) cur with
    | inl next => exact ih next
    | inr outcome => rfl

def LookupReturns (vol : NameVolume) (uname : Name) (dir : DirInode) : Prop :=
  ∃ fuel answer, ntfsLookupInodeByName vol uname dir fuel = some answer

/-- The walk that the lookup comes to, if it does, is straight. -/
def LookupStraight (vol : NameVolume) (uname : Name) (dir : DirInode) : Prop :=
  ∀ root, dir.mapMftRecord = .ok () → dir.getSearchCtx = true → dir.lookupRoot = .ok root →
    Straight dir.index IndexEntry.keyLength (visitName vol uname) ⟨.root, root,
      root.entriesOffset, none⟩

theorem lookupReturns_iff {dir : DirInode} (hfini : FinitelyManyPages dir.index) :
    LookupReturns vol uname dir ↔ LookupStraight vol uname dir := by
  unfold LookupReturns LookupStraight ntfsLookupInodeByName
  cases hmft : dir.mapMftRecord with
  | error code => simp
  | ok done =>
    cases hctx : dir.getSearchCtx with
    | false => simp
    | true =>
      cases hroot : dir.lookupRoot with
      | error code => cases code <;> simp
      | ok root =>
        have hhalts :=
          @halts_iff _ _ _ _ IndexEntry.keyLength _ hfini _ (learns_visitName vol uname)
          ⟨.root, root, root.entriesOffset, none⟩ trivial
        simp only [Bool.true_eq_false, if_false, Except.ok.injEq, true_imp_iff, forall_eq',
          Option.map_eq_some_iff, run_eq, ← hhalts]
        constructor
        · rintro ⟨fuel, answer, outcome, hrun, -⟩
          exact ⟨outcome, fuel, hrun⟩
        · rintro ⟨outcome, fuel, hrun⟩
          exact ⟨fuel, answerOf outcome, outcome, hrun, rfl⟩

end

end AdvancedOs.Ntfs.IndexTermination
