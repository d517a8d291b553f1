import AdvancedOs.Ntfs.CompressedReads

/-!
# The pages a compressed read completes

A page of 4096 bytes belongs to one compression block, and a compression block consists of whole
pages. So the loops of `ntfs_read_compressed_block` run from the first page of the block to its last
one, or to the end of the file, and never meet a page that is filled in part (`pageLoop_zero`,
`fillPages_grabPages`).

`Finishes` says what such a loop does with the pages of the array: it completes some of them, each
with given bytes. `finishes_fillSparse`, `finishes_fillRaw` and `finishes_fillCompressed` give these
bytes for the three kinds of compression blocks. `completes_readGathered` puts them together for the
outcome of the read: a page that was not in the array keeps its bytes, and a page that is set
uptodate was in the array and has the bytes of its kind of block.
-/

namespace AdvancedOs.Ntfs.CompressedPages

open Foundation.ArraySegments RunlistElements MappingPairs Decompression DecompressionSharing
  CompressedReads List

open BlockReads hiding Geometry complete

/-! ### Loops over the pages of a block -/

theorem pageLoop_eq (body : Place → Filling → Filling) {maxPage cbSize : ℕ}
    (hsize : maxPage * 4096 ≤ cbSize) {fuel start : ℕ} (hfuel : maxPage ≤ start + fuel)
    (st : Filling) : (pageLoop body maxPage cbSize fuel ⟨start, 0, start * 4096⟩ st).2 =
      (List.range' start (maxPage - start)).foldl (fun st i => body ⟨i, 0, i * 4096⟩ st) st := by
  induction fuel generalizing start st with
  | zero =>
    rw [pageLoop, Nat.sub_eq_zero_of_le (by omega)]
    rfl
  | succ fuel ih =>
    have hpos : start * 4096 + (4096 - 0) = (start + 1) * 4096 := by omega
    rw [pageLoop]
    dsimp only
    split_ifs with hlt hend
    · -- The block ends with the last page.
      rw [show maxPage - start = 1 by omega]
      rfl
    · rw [hpos, ih (by omega), show maxPage - start = maxPage - (start + 1) + 1 by omega,
        List.range'_succ, foldl_cons]
    · rw [Nat.sub_eq_zero_of_le (not_lt.mp hlt)]
      rfl

def overPages (body : Place → Filling → Filling) (maxPage : ℕ) (st : Filling) : Filling :=
  (List.range maxPage).foldl (fun st i => body ⟨i, 0, i * 4096⟩ st) st

theorem pageLoop_zero (body : Place → Filling → Filling) {maxPage cbSize : ℕ}
    (hsize : maxPage * 4096 ≤ cbSize) (st : Filling) :
    (pageLoop body maxPage cbSize maxPage ⟨0, 0, 0⟩ st).2 = overPages body maxPage st := by
  have hloop := pageLoop_eq body hsize (Nat.le_add_left maxPage 0) st
  rw [Nat.zero_mul, Nat.sub_zero, ← range_eq_range'] at hloop
  exact hloop

section

theorem setUptodate_not_mem_leaves (xpage i j : ℕ) : Event.setUptodate j ∉ leaves xpage i := by
  unfold leaves
  split_ifs <;> simp

theorem foldl_complete (xpage : ℕ) (bytes : ℕ → (ℕ → UInt8) → ℕ → UInt8) (entries : List ℕ)
    (st : Filling) (i : ℕ) : let last := entries.foldl (fun st i =>
      ifHeld i (complete xpage i (bytes (st.pages.index i) (st.pages.mem i))) st) st
    last.pages.mem i = (if st.pages.held i = true ∧ i ∈ entries then
        bytes (st.pages.index i) (st.pages.mem i) else st.pages.mem i) ∧
      (.setUptodate i ∈ last.log ↔ .setUptodate i ∈ st.log ∨
          (st.pages.held i = true ∧ i ∈ entries)) := by
  induction entries generalizing st with
  | nil => simp
  | cons j entries ih =>
    have hrest := ih (ifHeld j (complete xpage j (bytes (st.pages.index j) (st.pages.mem j))) st)
    dsimp only at hrest ⊢
    rw [foldl_cons, hrest.1, hrest.2]
    unfold ifHeld
    by_cases hheld : st.pages.held j = true
    · rw [if_pos hheld]
      by_cases hij : i = j
      · subst hij
        simp [complete, giveUp, hheld]
      · simp [complete, giveUp, hij, setUptodate_not_mem_leaves]
    · rw [if_neg hheld]
      by_cases hij : i = j
      · subst hij
        simp [hheld]
      · simp [hij]

theorem foldl_fill (bytes : ℕ → (ℕ → UInt8) → ℕ → UInt8) {entries : List ℕ} (hnd : entries.Nodup)
    (st : Filling) :
    let last := entries.foldl (fun st i => ifHeld i (fill i (bytes i (st.pages.mem i))) st) st
    last.pages.held = st.pages.held ∧ last.pages.index = st.pages.index ∧ last.log = st.log ∧
      ∀ i, last.pages.mem i = if st.pages.held i = true ∧ i ∈ entries then
        bytes i (st.pages.mem i) else st.pages.mem i := by
  induction entries generalizing st with
  | nil => simp
  | cons j entries ih =>
    obtain ⟨hnot, hnd⟩ := nodup_cons.mp hnd
    have hrest := ih hnd (ifHeld j (fill j (bytes j (st.pages.mem j))) st)
    dsimp only at hrest ⊢
    rw [foldl_cons, hrest.1, hrest.2.1, hrest.2.2.1]
    unfold ifHeld at hrest ⊢
    by_cases hheld : st.pages.held j = true
    · simp only [if_pos hheld] at hrest ⊢
      refine ⟨rfl, rfl, rfl, fun i => (hrest.2.2.2 i).trans ?_⟩
      by_cases hij : i = j
      · subst hij
        simp [fill, hnot, hheld]
      · simp [fill, hij]
    · simp only [if_neg hheld] at hrest ⊢
      refine ⟨trivial, trivial, trivial, fun i => (hrest.2.2.2 i).trans ?_⟩
      by_cases hij : i = j
      · subst hij
        simp [hheld]
      · simp [hij]

end

/-! ### The three kinds of compression blocks -/

/-- Pages are finished: those of `done` are uptodate with their bytes, and those that are not in the
array are left alone. -/
structure Finishes (done : ℕ → Prop) (bytes : ℕ → ℕ → UInt8) (st st' : Filling) : Prop where
  mem_eq : ∀ i, done i → st'.pages.mem i = bytes i
  mem_absent : ∀ i, st.pages.held i = false → st'.pages.mem i = st.pages.mem i
  mark_iff : ∀ i, .setUptodate i ∈ st'.log ↔ .setUptodate i ∈ st.log ∨ done i

theorem Finishes.of_same {done : ℕ → Prop} {bytes : ℕ → ℕ → UInt8} {st st' last : Filling}
    (hfin : Finishes done bytes st st') (hpgs : last.pages = st'.pages)
    (hlog : last.log = st'.log) : Finishes done bytes st last := by
  refine ⟨?_, ?_, ?_⟩
  · rw [hpgs]
    exact hfin.mem_eq
  · rw [hpgs]
    exact hfin.mem_absent
  · rw [hlog]
    exact hfin.mark_iff

theorem Finishes.giveUpAll {done : ℕ → Prop} {bytes : ℕ → ℕ → UInt8} {st st' : Filling}
    (hfin : Finishes done bytes st st') (xpage : ℕ) (entries : List ℕ) :
    Finishes done bytes st (giveUpAll xpage entries st') := by
  refine giveUpAll_preserves entries (fun i last _ h => ⟨h.mem_eq, h.mem_absent, fun j => ?_⟩) hfin
  have hleaves := setUptodate_not_mem_leaves xpage i j
  rw [← h.mark_iff j]
  simp [giveUp, hleaves]

theorem finalPage_zero (cbSize : ℕ) (bytes : Place → Filling → ℕ → UInt8) (place : Place)
    (st : Filling) : finalPage 0 cbSize bytes place st =
      { st with curPage := place.page, curOfs := place.ofs } :=
  if_neg fun h => h.1 rfl

theorem fullPages_zero (maxPage : ℕ) : fullPages maxPage 0 = maxPage := if_neg fun h => h rfl

section

variable {st : Filling} {maxPage cbSize : ℕ} (xpage : ℕ)

theorem finishes_overPages {body : Place → Filling → Filling} (bytes : ℕ → (ℕ → UInt8) → ℕ → UInt8)
    (hbody : ∀ st i, body ⟨i, 0, i * 4096⟩ st =
      ifHeld i (complete xpage i (bytes (st.pages.index i) (st.pages.mem i))) st)
    (hheld : ∀ i, st.pages.held i = true → i < maxPage) :
    Finishes (fun i => st.pages.held i = true) (fun i =>
      bytes (st.pages.index i) (st.pages.mem i)) st
      (overPages body maxPage st) := by
  have hdone : ∀ i, st.pages.held i = true ∧ i ∈ List.range maxPage ↔ st.pages.held i = true :=
    fun i => and_iff_left_of_imp fun h => mem_range.mpr (hheld i h)
  have hall := foldl_complete xpage bytes (List.range maxPage) st
  simp only [hdone] at hall
  unfold overPages
  simp only [hbody]
  refine ⟨fun i hi => (hall i).1.trans (if_pos hi), fun i hi => (hall i).1.trans (if_neg ?_),
    fun i => (hall i).2⟩
  rw [hi]
  exact Bool.false_ne_true

section

variable (hsize : maxPage * 4096 ≤ cbSize) (hpage : st.curPage = 0) (hofs : st.curOfs = 0)
  (hheld : ∀ i, st.pages.held i = true → i < maxPage)

include hsize hpage hofs hheld

/-- A sparse block makes its pages zero. -/
theorem finishes_fillSparse : Finishes (fun i => st.pages.held i = true)
    (fun i => zeroRange (st.pages.mem i) 0 4096) st (fillSparse xpage maxPage 0 cbSize st) := by
  have hfin := @finishes_overPages st maxPage xpage (sparsePage xpage)
    (fun _ mem => zeroRange mem 0 4096) (fun _ _ => rfl) hheld
  unfold fillSparse
  dsimp only
  rw [finalPage_zero, fullPages_zero, Filling.place, hpage, hofs, pageLoop_zero _ hsize]
  exact hfin.of_same rfl rfl

/-- A block that is not compressed is copied to its pages. -/
theorem finishes_fillRaw (cb : ℕ → UInt8) (iSize initializedSize : ℕ) :
    Finishes (fun i => st.pages.held i = true)
      (fun i => handleBoundsCompressedPage (st.pages.index i)
        (memcpy (st.pages.mem i) 0 cb (i * 4096) 4096) iSize initializedSize) st
      (fillRaw xpage maxPage 0 cbSize cb iSize initializedSize st) := by
  obtain ⟨hheld', hidx, hlog, hmem⟩ := foldl_fill
    (fun i mem => memcpy mem 0 cb (i * 4096) 4096) (@List.nodup_range maxPage) st
  have hcopi : ∀ i, st.pages.held i = true → (overPages (copyPage cb) maxPage st).pages.mem i =
      memcpy (st.pages.mem i) 0 cb (i * 4096) 4096 := fun i hi =>
    (hmem i).trans (if_pos ⟨hi, mem_range.mpr (hheld i hi)⟩)
  unfold fillRaw
  dsimp only
  rw [finalPage_zero, fullPages_zero, Filling.place, hpage, hofs, pageLoop_zero _ hsize,
    pageLoop_zero _ hsize]
  generalize (pageLoop (copyPage cb) maxPage cbSize maxPage ⟨0, 0, 0⟩ st).1 = place
  have hbound := @finishes_overPages
    { overPages (copyPage cb) maxPage st with curPage := place.page, curOfs := place.ofs } maxPage
    xpage (boundPage xpage iSize initializedSize)
    (fun index mem => handleBoundsCompressedPage index mem iSize initializedSize) (fun _ _ => rfl)
    (fun i hi => hheld i ((congrFun hheld' i).symm.trans hi))
  refine ⟨fun i hi => ?_, fun i hi => ?_, fun i => ?_⟩
  · refine (hbound.mem_eq i ((congrFun hheld' i).trans hi)).trans ?_
    rw [hcopi i hi, show (overPages (copyPage cb) maxPage st).pages.index = _ from hidx]
  · refine (hbound.mem_absent i ((congrFun hheld' i).trans hi)).trans ((hmem i).trans (if_neg ?_))
    rw [hi]
    exact fun h => Bool.false_ne_true h.1
  · refine (hbound.mark_iff i).trans (or_congr ?_ ?_)
    · exact (congrArg (Event.setUptodate i ∈ ·) hlog).to_iff
    · exact (congrArg (· = true) (congrFun hheld' i)).to_iff

end

/-- A compressed block is decompressed into its pages. -/
theorem finishes_fillCompressed (hpage : st.curPage = 0) (hofs : st.curOfs = 0) (cb : ℕ → UInt8)
    (iSize initializedSize : ℕ) :
    Finishes (fun i => i ∈ completedPages maxPage 0 cbSize cb st)
      (fun i => (ntfsDecompress st.pages 0 0 maxPage 0 xpage st.xpageDone cb cbSize iSize
        initializedSize).pages.mem i) st
      (fillCompressed xpage maxPage 0 cbSize cb iSize initializedSize st).1 := by
  have hspar := sparesAbsent_doSbs ⟨cb, cbSize, maxPage, 0, st.pages.held⟩ (cbSize + 1)
    ⟨0, st.curPage, st.curOfs, st.pages.mem, [], []⟩
  have hnd := nodup_completedPages maxPage 0 cbSize cb st
  have hfil : ∀ last : Filling, last.pages = (ntfsDecompress st.pages st.curPage st.curOfs maxPage 0
        xpage st.xpageDone cb cbSize iSize initializedSize).pages →
      last.log = st.log ++ (completedPages maxPage 0 cbSize cb st).flatMap (fun i =>
        .setUptodate i :: leaves xpage i) →
      Finishes (fun i => i ∈ completedPages maxPage 0 cbSize cb st)
        (fun i => (ntfsDecompress st.pages 0 0 maxPage 0 xpage st.xpageDone cb cbSize iSize
          initializedSize).pages.mem i) st last := by
    intro last hpgs hlog
    refine ⟨fun i _ => by rw [hpgs, hpage, hofs], fun i hi => ?_, fun i => ?_⟩
    · rw [hpgs]
      refine (foldl_finalizePage iSize initializedSize _ hnd i).1.trans
        ((if_neg ?_).trans (hspar.mem_eq i hi))
      exact fun hmem => by simp [held_of_mem_completedPages hmem] at hi
    · rw [hlog]
      simp [setUptodate_not_mem_leaves]
  unfold fillCompressed
  dsimp only
  split
  · exact hfil _ rfl rfl
  · exact (hfil _ rfl rfl).giveUpAll _ _

end

/-! ### The outcome of a read -/

section

variable {State : Type} (geo : Geometry) (req : Request State)

/-- The outcome of a read: the pages of `done` are set uptodate with their bytes, and those that
were not in the array are left alone. -/
structure Finished (done : ℕ → Prop) (bytes : ℕ → ℕ → UInt8) (out : Outcome) : Prop where
  mem_eq : ∀ i, done i → out.pages.mem i = bytes i
  mem_absent : ∀ i, (grabbed geo req).held i = false → out.pages.mem i = (grabbed geo req).mem i
  mark_iff : ∀ i, .setUptodate i ∈ out.log ↔ done i

theorem setUptodate_not_mem_grabPages (i : ℕ) : Event.setUptodate i ∉ (grabPages geo req).log := by
  intro hmem
  obtain ⟨j, -, hevent⟩ := mem_flatMap.mp hmem
  have hcs := (mem_grabEvents geo req hevent).1
  simp at hcs

theorem finished_of_finishes {done : ℕ → Prop} {bytes : ℕ → ℕ → UInt8} {st : Filling}
    (hfin : Finishes done bytes (grabPages geo req) st) (xpage : ℕ) (entries : List ℕ)
    {out : Outcome} (hpgs : out.pages = (giveUpAll xpage entries st).pages)
    (hlog : out.log = (giveUpAll xpage entries st).log) : Finished geo req done bytes out := by
  have hlast := hfin.giveUpAll xpage entries
  refine ⟨?_, ?_, fun i => ?_⟩
  · rw [hpgs]
    exact hlast.mem_eq
  · rw [hpgs]
    exact hlast.mem_absent
  · rw [hlog, hlast.mark_iff i]
    exact or_iff_right (setUptodate_not_mem_grabPages geo req i)

theorem finished_failRead (bytes : ℕ → ℕ → UInt8) (buffers : List BufferEvent) :
    Finished geo req (fun _ => False) bytes (failRead geo req (grabPages geo req) buffers) :=
  @finished_of_finishes _ geo req _ bytes (grabPages geo req)
    ⟨fun _ => False.elim, fun _ _ => rfl, fun _ => (or_iff_left not_false).symm⟩ _ _ _ rfl rfl

theorem held_grabbed_lt {i : ℕ} (hheld : (grabbed geo req).held i = true) :
    i < geo.maxPage req.index req.iSize := by
  unfold grabbed at hheld
  simp only [Bool.and_eq_true, decide_eq_true_eq] at hheld
  exact hheld.1

theorem maxPage_mul_le : geo.maxPage req.index req.iSize * 4096 ≤ geo.cbSize := by
  rw [← nrPages_mul geo req.index]
  exact Nat.mul_le_mul_right _ (maxPage_le geo req.index req.iSize)

/-- The compression block fills whole pages, up to the end of the file. -/
theorem fillPages_grabPages (count : ℕ) (cb : ℕ → UInt8) (err : Except Failure Unit) :
    fillPages geo req count cb (grabPages geo req) err =
      if count = 0 then
        (fillSparse (geo.xpage req.index) (geo.maxPage req.index req.iSize) 0 geo.cbSize
        (grabPages geo req), err)
      else if count = Geometry.cbClusters then
        (fillRaw (geo.xpage req.index) (geo.maxPage req.index req.iSize) 0 geo.cbSize cb req.iSize
          req.initializedSize (grabPages geo req), err)
      else fillCompressed (geo.xpage req.index) (geo.maxPage req.index req.iSize) 0 geo.cbSize cb
        req.iSize req.initializedSize (grabPages geo req) := by
  have hstop : 0 * 4096 + 0 + geo.cbSize = geo.nrPages req.index * 4096 := by
    rw [nrPages_mul, Nat.zero_mul, Nat.add_zero, Nat.zero_add]
  have hpage : (grabPages geo req).curPage = 0 := rfl
  have hofs : (grabPages geo req).curOfs = 0 := rfl
  unfold fillPages
  dsimp only
  rw [hpage, hofs, hstop, Nat.mul_div_cancel _ (by omega), Nat.mul_mod_left,
    Nat.min_eq_right (maxPage_le geo req.index req.iSize)]

section

variable (got : Gathered State)
  (hread : (List.range got.bhs.length).all req.read = true)

include hread

theorem finished_sparse : Finished geo req (fun i => (grabbed geo req).held i = true)
    (fun i => zeroRange ((grabbed geo req).mem i) 0 4096)
    (readGathered geo req got (.clusters 0)) := by
  have hfin := @finishes_fillSparse (grabPages geo req) _ _ (geo.xpage req.index)
    (maxPage_mul_le geo req) rfl rfl (fun i hi => held_grabbed_lt geo req hi)
  rw [readGathered]
  rw [if_pos hread, fillPages_grabPages, if_pos rfl]
  exact finished_of_finishes geo req hfin _ _ rfl rfl

theorem finished_raw : Finished geo req (fun i => (grabbed geo req).held i = true)
    (fun i => handleBoundsCompressedPage (geo.offset req.index + i)
      (memcpy ((grabbed geo req).mem i) 0 (fillBuffer geo req got.bhs) (i * 4096) 4096) req.iSize
      req.initializedSize)
    (readGathered geo req got (.clusters Geometry.cbClusters)) := by
  have hfin := @finishes_fillRaw (grabPages geo req) _ _ (geo.xpage req.index)
    (maxPage_mul_le geo req) rfl rfl (fun i hi => held_grabbed_lt geo req hi)
    (fillBuffer geo req got.bhs) req.iSize req.initializedSize
  rw [readGathered]
  rw [if_pos hread, fillPages_grabPages, if_neg (by decide), if_pos rfl]
  exact finished_of_finishes geo req hfin _ _ rfl rfl

theorem finished_compressed {count : ℕ} (hsome : count ≠ 0) (hnot : count ≠ Geometry.cbClusters) :
    Finished geo req
      (fun i => i ∈ completedPages (geo.maxPage req.index req.iSize) 0 geo.cbSize
        (fillBuffer geo req got.bhs) (grabPages geo req))
      (fun i => (ntfsDecompress (grabbed geo req) 0 0 (geo.maxPage req.index req.iSize) 0
        (geo.xpage req.index) false (fillBuffer geo req got.bhs) geo.cbSize req.iSize
        req.initializedSize).pages.mem i)
      (readGathered geo req got (.clusters count)) := by
  have hfin := @finishes_fillCompressed (grabPages geo req) (geo.maxPage req.index req.iSize)
    geo.cbSize (geo.xpage req.index) rfl rfl (fillBuffer geo req got.bhs) req.iSize
    req.initializedSize
  rw [readGathered]
  rw [if_pos hread, fillPages_grabPages, if_neg hsome, if_neg hnot]
  exact finished_of_finishes geo req hfin _ _ rfl rfl

end

/-- The bytes of a page that is completed, by how the loop over the clusters has ended. -/
inductive Completed (got : Gathered State) (i : ℕ) : GatherEnd → (ℕ → UInt8) → Prop
  | sparse : Completed got i (.clusters 0) (zeroRange ((grabbed geo req).mem i) 0 4096)
  | raw : Completed got i (.clusters Geometry.cbClusters)
      (handleBoundsCompressedPage (geo.offset req.index + i)
        (memcpy ((grabbed geo req).mem i) 0 (fillBuffer geo req got.bhs) (i * 4096) 4096) req.iSize
        req.initializedSize)
  | compressed {count : ℕ} (hsome : count ≠ 0) (hnot : count ≠ Geometry.cbClusters)
      (hdone : i ∈ completedPages (geo.maxPage req.index req.iSize) 0 geo.cbSize
        (fillBuffer geo req got.bhs) (grabPages geo req)) :
      Completed got i (.clusters count)
        ((ntfsDecompress (grabbed geo req) 0 0 (geo.maxPage req.index req.iSize) 0
          (geo.xpage req.index) false (fillBuffer geo req got.bhs) geo.cbSize req.iSize
          req.initializedSize).pages.mem i)

/-- Pages that were not in the array are left alone, and a page that is set uptodate was in the
array and has been completed. -/
structure Completes (got : Gathered State) (ending : GatherEnd) (out : Outcome) : Prop where
  absent : ∀ i, (grabbed geo req).held i = false → out.pages.mem i = (grabbed geo req).mem i
  held : ∀ i, .setUptodate i ∈ out.log → (grabbed geo req).held i = true
  bytes : ∀ i, .setUptodate i ∈ out.log → Completed geo req got i ending (out.pages.mem i)

theorem Finished.completes {done : ℕ → Prop} {bytes : ℕ → ℕ → UInt8} {out : Outcome}
    (hfin : Finished geo req done bytes out) (got : Gathered State) (ending : GatherEnd)
    (hheld : ∀ i, done i → (grabbed geo req).held i = true)
    (hby : ∀ i, done i → Completed geo req got i ending (bytes i)) :
    Completes geo req got ending out := by
  refine ⟨hfin.mem_absent, fun i hmark => hheld i ((hfin.mark_iff i).mp hmark), fun i hmark => ?_⟩
  have hdone := (hfin.mark_iff i).mp hmark
  rw [hfin.mem_eq i hdone]
  exact hby i hdone

theorem completes_readGathered (got : Gathered State) (ending : GatherEnd) :
    Completes geo req got ending (readGathered geo req got ending) := by
  have hfail := fun buffers => (finished_failRead geo req (fun _ _ => 0) buffers).completes geo req
    got ending (fun _ => False.elim) (fun _ => False.elim)
  cases ending with
  | failed => exact hfail _
  | clusters count =>
    by_cases hread : (List.range got.bhs.length).all req.read = true
    · by_cases hspar : count = 0
      · subst hspar
        exact (finished_sparse geo req got hread).completes geo req got _ (fun _ h => h) fun _ _ =>
          .sparse
      by_cases hraw : count = Geometry.cbClusters
      · subst hraw
        exact (finished_raw geo req got hread).completes geo req got _ (fun _ h => h) fun _ _ =>
          .raw
      · exact (finished_compressed geo req got hread hspar hraw).completes geo req got _
          (fun _ => held_of_mem_completedPages) fun _ => .compressed hspar hraw
    · rw [readGathered]
      rw [if_neg hread]
      exact hfail _

end

end AdvancedOs.Ntfs.CompressedPages
