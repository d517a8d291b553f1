import AdvancedOs.Ntfs.DecompressionReads

/-!
# Decompression with some of the pages in the cache

The pages of a compression block that are uptodate already are not in the array that
`ntfs_decompress` gets, and it skips their sub-blocks by the length in the header. In a valid
compression block the tokens of a sub-block end where its header says, and stand for 4096 bytes, so
that a run that decodes the sub-block and a run that skips it go on from the same position of the
source and of the destination.

`Alike` relates two runs with different pages in the array: their positions are the same, and so are
the pages that both of them hold. A sub-block keeps it (`alike_doSb`), because what happens to a
page depends on nothing but the bytes of the source and the page itself (`doSb_bare`), and so does
the loop (`alike_doSbs`). The second stage then finishes the same pages in both runs
(`same_pages_of_held`).
-/

namespace AdvancedOs.Ntfs.DecompressionSharing

open Foundation.ArraySegments CompressionFormat RunlistElements Decompression
  DecompressionReads Function Relation List

/-! ### Sub-blocks are passed -/

section

variable {job : Job} {spot : Spot}

theorem takesToken_of_step {bytes : ℕ → UInt8} {stop : ℕ} {cursor next : Cursor}
    {token : Foundation.BackReferences.Token UInt8} (hstep : Step bytes stop cursor token next) :
    TakesToken bytes stop cursor next := by
  have hfits := hstep.fits
  rw [← hstep.token_eq] at hfits
  refine ⟨hstep.inside, ?_, by rw [hstep.next_eq, hstep.token_eq]⟩
  cases htok : (cursor.load bytes).token bytes with
  | literal item =>
    rw [htok] at hfits
    exact Nat.le_of_lt hfits
  | phrase back length =>
    rw [htok] at hfits
    exact hfits

theorem takesTokens_of_reads {bytes : ℕ → UInt8} {stop : ℕ} {start cursor : Cursor}
    {tokens : List (Foundation.BackReferences.Token UInt8)}
    (hrds : Reads bytes stop start tokens cursor) :
    ReflTransGen (TakesToken bytes stop) start cursor := by
  induction hrds with
  | start => exact .refl
  | concat _ hstep ih => exact ih.tail (takesToken_of_step hstep)

theorem passes_of_isSubBlock {stop : ℕ} {block : SubBlock}
    (hblk : IsSubBlock job.cbStart spot.cb stop block) : Passes job spot sbSize := by
  cases hpres : job.present spot.index with
  | false => exact Passes.skipped hpres
  | true =>
    cases block with
    | stored data =>
      obtain ⟨hflag, rfl, hsize, -⟩ := hblk
      exact Passes.copied hpres hflag hsize
    | compressed tokens =>
      obtain ⟨hflag, rfl, -, cursor, hrds, hpos⟩ := hblk
      have hprod := hrds.produced_le rfl
      have hpass := Passes.decoded ⟨hpres, hflag⟩
        ⟨cursor, takesTokens_of_reads hrds, .inl hpos, rfl⟩
      rwa [Nat.max_eq_right hprod] at hpass

end

/-! ### What a sub-block does to the pages -/

section

variable (job : Job) (st : JobState)

def bare : JobState :=
  { st with mem := fun _ => st.mem st.destIndex, completed := [], log := [] }

/-- The pages of a state, from those of another and from what a run with the current page alone has
left of it. -/
structure Extends (st result alone : JobState) : Prop where
  mem_eq : result.mem = update st.mem st.destIndex (alone.mem st.destIndex)
  completed_eq : result.completed = st.completed ++ alone.completed
  completed_cases : alone.completed = [] ∨
    (alone.completed = [st.destIndex] ∧ result.destIndex = st.destIndex + 1)
  destIndex_le : st.destIndex ≤ result.destIndex

theorem Extends.of_same {st result alone : JobState} (hmem : result.mem = st.mem)
    (hcomp : result.completed = st.completed) (hpage : alone.mem st.destIndex = st.mem st.destIndex)
    (hnone : alone.completed = []) (hle : st.destIndex ≤ result.destIndex) :
    Extends st result alone where
  mem_eq := by rw [hmem, hpage, update_eq_self]
  completed_eq := by rw [hcomp, hnone, append_nil]
  completed_cases := .inl hnone
  destIndex_le := hle

theorem Extends.not_mem_completed {st result alone : JobState} (hext : Extends st result alone)
    {i : ℕ} (hi : i ≠ st.destIndex) : i ∉ alone.completed := by
  rcases hext.completed_cases with hnone | ⟨hone, -⟩
  · rw [hnone]
    exact not_mem_nil
  · rw [hone, mem_singleton]
    exact hi

theorem Extends.finishSb {st result alone : JobState} (hext : Extends st result alone)
    (hnone : alone.completed = []) (hres : result.destIndex = st.destIndex)
    (halone : alone.destIndex = st.destIndex) (destOfs : ℕ) :
    Extends st (finishSb job result destOfs).1 (finishSb job alone destOfs).1 := by
  have hcomp := hext.completed_eq
  rw [hnone, append_nil] at hcomp
  unfold Decompression.finishSb
  split_ifs
  · exact ⟨hext.mem_eq, by simp [hcomp, hnone, hres, halone],
      .inr (by simp [hnone, hres, halone]), by simp [hres]⟩
  · exact ⟨hext.mem_eq, hext.completed_eq, .inl hnone, hext.destIndex_le⟩

theorem extends_update (cb destOfs : ℕ) (page : ℕ → UInt8) (log log' : List Access) :
    Extends st
      ⟨cb, st.destIndex, destOfs, update st.mem st.destIndex page, st.completed, log⟩
      ⟨cb, st.destIndex, destOfs, update (fun _ => st.mem st.destIndex) st.destIndex page,
      [], log'⟩ where
  mem_eq := by dsimp only; rw [update_self]
  completed_eq := (append_nil _).symm
  completed_cases := .inl rfl
  destIndex_le := Nat.le_refl _

theorem extends_copySb (cbSbEnd : ℕ) :
    Extends st (copySb job (checked st) cbSbEnd).1 (copySb job (checked (bare st)) cbSbEnd).1 := by
  have hbare : (checked (bare st)).cb = (checked st).cb := rfl
  unfold copySb
  rw [hbare]
  split_ifs
  · exact Extends.of_same rfl rfl rfl rfl (Nat.le_refl _)
  · exact (extends_update st _ _ _ _ _).finishSb job rfl rfl rfl _

theorem extends_decodeSb (cbSbEnd : ℕ) :
    Extends st (decodeSb job (checked st) cbSbEnd).1
      (decodeSb job (checked (bare st)) cbSbEnd).1 := by
  unfold decodeSb
  dsimp only [checked, bare]
  rcases parseTags job.cbStart ⟨cbSbEnd, st.destOfs⟩ (cbSbEnd - st.cb)
    ⟨st.cb + 2, st.destOfs, st.destOfs, st.mem st.destIndex, []⟩ with ⟨out, ok⟩
  cases ok with
  | true => exact (extends_update st _ _ _ _ _).finishSb job rfl rfl rfl _
  | false => exact extends_update st _ _ _ _ _

theorem extends_skipSb (cbSbEnd : ℕ) :
    Extends st (skipSb job (checked st) cbSbEnd).1 (skipSb job (checked (bare st)) cbSbEnd).1 := by
  have hbare : (checked (bare st)).destOfs = (checked st).destOfs := rfl
  unfold skipSb
  rw [hbare]
  split_ifs
  · exact Extends.of_same rfl rfl rfl rfl (Nat.le_succ _)
  · exact Extends.of_same rfl rfl rfl rfl (Nat.le_refl _)

/-- What a sub-block does to a page is seen with the page alone. -/
theorem doSb_bare (hhdr : le16 job.cbStart st.cb ≠ 0) :
    Extends st (doSb job st).1 (doSb job (bare st)).1 := by
  have hcb : (bare st).cb = st.cb := rfl
  have hidx : (bare st).destIndex = st.destIndex := rfl
  by_cases hent : Enters job (spotOf st)
  · rw [doSb_eq hent.fits hent.room hent.inside,
      @doSb_eq job (bare st) hent.fits hent.room hent.inside, hcb, hidx]
    split_ifs
    · exact extends_skipSb job st _
    · exact extends_copySb job st _
    · exact extends_decodeSb job st _
  · rw [doSb_of_not_enters hhdr hent, @doSb_of_not_enters job (bare st) hhdr hent]
    exact Extends.of_same rfl rfl rfl rfl (Nat.le_refl _)

theorem doSb_present {other : ℕ → Bool} (hoth : other st.destIndex = job.present st.destIndex) :
    doSb { job with present := other } st = doSb job st := by
  unfold doSb
  simp only [hoth]
  rfl

end

/-! ### Two runs -/

/-- The states of two runs that differ in the pages of the array: they stand at the same place, and
the pages that both have are the same. -/
structure Alike (first second : ℕ → Bool) (st st' : JobState) : Prop where
  spot_eq : spotOf st = spotOf st'
  mem_eq : ∀ i, first i = true → second i = true → st.mem i = st'.mem i
  completed_iff : ∀ i, first i = true → second i = true → (i ∈ st.completed ↔ i ∈ st'.completed)

section

variable {job : Job} {st st' : JobState} {first second : ℕ → Bool}

theorem Alike.doSb_bare_eq (halk : Alike first second st st') (hfst : first st.destIndex = true)
    (hsec : second st.destIndex = true) :
    doSb { job with present := second } (bare st') =
      doSb { job with present := first } (bare st) := by
  obtain ⟨hcb, hidx, hofs⟩ := Spot.mk.inj halk.spot_eq
  have hbare : bare st' = bare st := by
    unfold bare
    rw [← hcb, ← hidx, ← hofs, halk.mem_eq _ hfst hsec]
  rw [hbare]
  exact doSb_present { job with present := first } (bare st) (hsec.trans hfst.symm)

theorem Alike.pages_doSb (halk : Alike first second st st')
    (hhdr : le16 job.cbStart st.cb ≠ 0) {i : ℕ} (hfst : first i = true) (hsec : second i = true) :
    (doSb { job with present := first } st).1.mem i =
      (doSb { job with present := second } st').1.mem i ∧
      (i ∈ (doSb { job with present := first } st).1.completed ↔
        i ∈ (doSb { job with present := second } st').1.completed) := by
  obtain ⟨hcb, hidx, -⟩ := Spot.mk.inj halk.spot_eq
  have hext := doSb_bare { job with present := first } st hhdr
  have hext' := doSb_bare { job with present := second } st' (hcb ▸ hhdr)
  rw [hext.mem_eq, hext'.mem_eq, hext.completed_eq, hext'.completed_eq, mem_append,
    mem_append, halk.completed_iff i hfst hsec, ← hidx]
  by_cases hi : i = st.destIndex
  · subst hi
    rw [halk.doSb_bare_eq hfst hsec, update_self, update_self]
    exact ⟨rfl, Iff.rfl⟩
  · rw [update_of_ne hi, update_of_ne hi]
    rw [or_iff_left (hext.not_mem_completed hi), or_iff_left (hext'.not_mem_completed (hidx ▸ hi))]
    exact ⟨halk.mem_eq i hfst hsec, Iff.rfl⟩

/-- Assumes: a valid sub-block, in two runs that are alike. They are alike behind it, and both of
them go on or neither does. -/
theorem alike_doSb {stop : ℕ} {block : SubBlock} (halk : Alike first second st st')
    (hblk : IsSubBlock job.cbStart st.cb stop block) :
    Alike first second (doSb { job with present := first } st).1
        (doSb { job with present := second } st').1 ∧
      (doSb { job with present := first } st).2 = (doSb { job with present := second } st').2 ∧
      ((doSb { job with present := first } st).2 = true →
          (doSb { job with present := first } st).1.cb = stop) := by
  have hhdr := hblk.le16_ne_zero
  have hspot := halk.spot_eq
  have hcb : st.cb = st'.cb := congrArg Spot.cb hspot
  suffices hruns : spotOf (doSb { job with present := first } st).1 =
        spotOf (doSb { job with present := second } st').1 ∧
      (doSb { job with present := first } st).2 = (doSb { job with present := second } st').2 ∧
      ((doSb { job with present := first } st).2 = true →
          (doSb { job with present := first } st).1.cb = stop) from
    ⟨⟨hruns.1, fun i hfst hsec => (halk.pages_doSb hhdr hfst hsec).1,
      fun i hfst hsec => (halk.pages_doSb hhdr hfst hsec).2⟩, hruns.2⟩
  by_cases hent : Enters { job with present := first } (spotOf st)
  · have hent' : Enters { job with present := second } (spotOf st') :=
      hspot ▸ ⟨hent.header, hent.fits, hent.room, hent.inside⟩
    obtain ⟨hnext, hok⟩ := (@stepsFrom { job with present := first } st hhdr).passes sbSize hent
      (passes_of_isSubBlock hblk)
    obtain ⟨hnext', hok'⟩ := (@stepsFrom { job with present := second } st' (hcb ▸ hhdr)).passes
      sbSize hent' (passes_of_isSubBlock (hcb ▸ hblk))
    refine ⟨?_, ?_, fun _ => ?_⟩
    · rw [hnext, hnext', hspot]
      rfl
    · rw [Bool.eq_iff_iff, hok, hok', hspot]
    · have hend := congrArg Spot.cb hnext
      rw [hblk.stop_eq]
      refine hend.trans ?_
      unfold Spot.behind
      split_ifs <;> rfl
  · have hent' : ¬ Enters { job with present := second } (spotOf st') := fun h =>
      hent (hspot ▸ ⟨h.header, h.fits, h.room, h.inside⟩)
    rw [@doSb_of_not_enters { job with present := first } st hhdr hent,
      @doSb_of_not_enters { job with present := second } st' (hcb ▸ hhdr) hent']
    exact ⟨hspot, rfl, nofun⟩

/-- Assumes: a valid compression block from the position of two runs that are alike. They end
alike. -/
theorem alike_doSbs {stop fuel : ℕ} {blocks : List SubBlock} (halk : Alike first second st st')
    (hblks : AreSubBlocks job.cbStart st.cb blocks stop)
    (hstop : stop = job.cbSize ∨ le16 job.cbStart stop = 0) :
    Alike first second (doSbs { job with present := first } fuel st).1
        (doSbs { job with present := second } fuel st').1 ∧
      (doSbs { job with present := first } fuel st).2 =
          (doSbs { job with present := second } fuel st').2 := by
  induction fuel generalizing st st' blocks with
  | zero => exact ⟨halk, rfl⟩
  | succ fuel ih =>
    obtain ⟨hcb, hidx, hofs⟩ := Spot.mk.inj halk.spot_eq
    have hatEnd : AtEnd { job with present := first } st ↔
        AtEnd { job with present := second } st' := by
      unfold AtEnd
      rw [hcb, hidx, hofs]
    rw [doSbs, doSbs]
    by_cases hend : AtEnd { job with present := first } st
    · rw [if_pos hend, if_pos (hatEnd.mp hend)]
      exact ⟨halk, rfl⟩
    rw [if_neg hend, if_neg (mt hatEnd.mpr hend)]
    cases blocks with
    | nil =>
      have hcbStop : st.cb = stop := hblks
      refine absurd ?_ hend
      rcases hstop with hsize | hzero
      · exact .inl (hcbStop.trans hsize)
      · exact .inr (.inl (hcbStop ▸ hzero))
    | cons block blocks =>
      obtain ⟨middle, hblk, hrest⟩ := hblks
      obtain ⟨halk', hok, hmidd⟩ := alike_doSb halk hblk
      rcases hdo : doSb { job with present := first } st with ⟨next, ok⟩
      rcases hdo' : doSb { job with present := second } st' with ⟨next', ok'⟩
      rw [hdo, hdo'] at halk' hok
      rw [hdo] at hmidd
      subst hok
      cases ok with
      | true => exact ih halk' ((hmidd rfl).symm ▸ hrest)
      | false => exact ⟨halk', rfl⟩

end

/-! ### Completed pages -/

/-- The completed pages lie before the current one, and each is completed once. -/
structure InOrder (st : JobState) : Prop where
  nodup : st.completed.Nodup
  lt : ∀ i ∈ st.completed, i < st.destIndex

variable {job : Job} {st : JobState} {i : ℕ}

theorem inOrder_doSb (hord : InOrder st) (hhdr : le16 job.cbStart st.cb ≠ 0) :
    InOrder (doSb job st).1 := by
  have hext := doSb_bare job st hhdr
  have hle := hext.destIndex_le
  have hcomp := hext.completed_eq
  rcases hext.completed_cases with hnone | ⟨hone, hnext⟩
  · rw [hnone, append_nil] at hcomp
    exact ⟨hcomp ▸ hord.nodup, fun i hi => Nat.lt_of_lt_of_le (hord.lt i (hcomp ▸ hi)) hle⟩
  · rw [hone] at hcomp
    constructor
    · rw [hcomp, nodup_append]
      refine ⟨hord.nodup, by simp, fun i hi j hj => ?_⟩
      rw [mem_singleton.mp hj]
      exact Nat.ne_of_lt (hord.lt i hi)
    · intro i hi
      rw [hnext]
      rcases mem_append.mp (hcomp ▸ hi) with hold | hnew
      · exact Nat.lt_succ_of_lt (hord.lt i hold)
      · rw [mem_singleton.mp hnew]
        exact Nat.lt_succ_self _

theorem inOrder_doSbs (hord : InOrder st) (fuel : ℕ) : InOrder (doSbs job fuel st).1 :=
  @doSbs_induction job (fun st st' => InOrder st → InOrder st') (fun _ => id)
    (fun hfst hsec => hsec ∘ hfst)
    (fun _ hgoes hord => inOrder_doSb hord fun hzero => hgoes (.inr (.inl hzero))) fuel st hord

theorem doSb_absent (habs : job.present st.destIndex = false) :
    (doSb job st).1.mem = st.mem ∧ (doSb job st).1.completed = st.completed := by
  unfold doSb skipSb
  simp only [habs, if_true]
  split_ifs <;> exact ⟨rfl, rfl⟩

/-- Entries without a page are not written and not completed. -/
structure SparesAbsent (job : Job) (st st' : JobState) : Prop where
  mem_eq : ∀ i, job.present i = false → st'.mem i = st.mem i
  present : ∀ i ∈ st'.completed, i ∈ st.completed ∨ job.present i = true

theorem sparesAbsent_doSb (hhdr : le16 job.cbStart st.cb ≠ 0) :
    SparesAbsent job st (doSb job st).1 := by
  cases hpres : job.present st.destIndex with
  | false =>
    obtain ⟨hmem, hcomp⟩ := doSb_absent hpres
    exact ⟨fun i _ => congrFun hmem i, fun i hi => .inl (hcomp ▸ hi)⟩
  | true =>
    have hext := doSb_bare job st hhdr
    refine ⟨fun i habs => ?_, fun i hi => ?_⟩
    · have hne : i ≠ st.destIndex := fun h => by
        rw [h, hpres] at habs
        cases habs
      rw [hext.mem_eq, update_of_ne hne]
    · rw [hext.completed_eq] at hi
      rcases mem_append.mp hi with hold | hnew
      · exact .inl hold
      · by_cases hne : i = st.destIndex
        · exact .inr (hne ▸ hpres)
        · exact absurd hnew (hext.not_mem_completed hne)

theorem sparesAbsent_doSbs (job : Job) (fuel : ℕ) (st : JobState) :
    SparesAbsent job st (doSbs job fuel st).1 := by
  refine doSbs_induction (fun _ => ⟨fun _ _ => rfl, fun _ => .inl⟩) (fun hstep hrest => ?_)
    (fun st hgoes => sparesAbsent_doSb fun hzero => hgoes (.inr (.inl hzero))) fuel st
  exact ⟨fun i hi => (hrest.mem_eq i hi).trans (hstep.mem_eq i hi), fun i hi =>
    (hrest.present i hi).elim (hstep.present i) .inr⟩

/-! ### The decoder with some pages and with others -/

theorem mem_ntfsDecompress (pages : DestPages) (destIndex destOfs destMaxIndex destMaxOfs xpage : ℕ)
    (xpageDone : Bool) (cb : ℕ → UInt8) (cbSize iSize initializedSize : ℕ)
    (hi : i ∈ (doSbs ⟨cb, cbSize, destMaxIndex, destMaxOfs, pages.held⟩
    (cbSize + 1) ⟨0, destIndex, destOfs, pages.mem, [], []⟩).1.completed) :
    (ntfsDecompress pages destIndex destOfs destMaxIndex destMaxOfs xpage xpageDone cb cbSize iSize
        initializedSize).pages.mem i =
      handleBoundsCompressedPage (pages.index i)
        ((doSbs ⟨cb, cbSize, destMaxIndex, destMaxOfs, pages.held⟩ (cbSize + 1)
          ⟨0, destIndex, destOfs, pages.mem, [], []⟩).1.mem i) iSize initializedSize := by
  have hord : InOrder ⟨0, destIndex, destOfs, pages.mem, [], []⟩ := ⟨nodup_nil, nofun⟩
  have hnd :=
    (@inOrder_doSbs ⟨cb, cbSize, destMaxIndex, destMaxOfs, pages.held⟩ _ hord (cbSize + 1)).nodup
  exact (foldl_finalizePage iSize initializedSize { pages with mem := _ } hnd i).1.trans (if_pos hi)

/-- A valid compression block leaves the same bytes in a page, whichever of the other pages are in
the array, and the same position and status. -/
theorem same_pages_of_held (pages : DestPages) (first second : ℕ → Bool)
    (destIndex destOfs destMaxIndex destMaxOfs xpage : ℕ) (xpageDone : Bool) (cbStart : ℕ → UInt8)
    (cbSize iSize initializedSize : ℕ) (blocks : List SubBlock)
    (hvalid : ∃ stop, AreSubBlocks cbStart 0 blocks stop ∧
      (stop = cbSize ∨ le16 cbStart stop = 0)) :
    let run (held : ℕ → Bool) : Decompressed :=
      ntfsDecompress { pages with held := held } destIndex destOfs destMaxIndex destMaxOfs xpage
        xpageDone cbStart cbSize iSize initializedSize
    (run first).destIndex = (run second).destIndex ∧ (run first).destOfs = (run second).destOfs ∧
      (run first).status = (run second).status ∧
      ∀ i, first i = true → second i = true → (run first).pages.mem i = (run second).pages.mem i ∧
          (run first).pages.uptodate i = (run second).pages.uptodate i := by
  obtain ⟨stop, hblocks, hstop⟩ := hvalid
  intro run
  obtain ⟨halike, hok⟩ := @alike_doSbs ⟨cbStart, cbSize, destMaxIndex, destMaxOfs, first⟩
    ⟨0, destIndex, destOfs, pages.mem, [], []⟩ ⟨0, destIndex, destOfs, pages.mem, [],
      []⟩ first second
    stop (cbSize + 1) blocks ⟨rfl, fun _ _ _ => rfl, fun _ _ _ => Iff.rfl⟩ hblocks hstop
  have horder : InOrder ⟨0, destIndex, destOfs, pages.mem, [], []⟩ := ⟨List.nodup_nil, nofun⟩
  have hfirst := (@inOrder_doSbs ⟨cbStart, cbSize, destMaxIndex, destMaxOfs, first⟩ _ horder
    (cbSize + 1)).nodup
  have hsecond := (@inOrder_doSbs ⟨cbStart, cbSize, destMaxIndex, destMaxOfs, second⟩ _ horder
    (cbSize + 1)).nodup
  obtain ⟨-, hindex, hofs⟩ := Spot.mk.inj halike.spot_eq
  refine ⟨hindex, hofs, ?_, fun i hi hi' => ?_⟩
  · unfold run ntfsDecompress
    dsimp only at hok ⊢
    rw [hok]
  · obtain ⟨hmem, huptodate, -⟩ := foldl_finalizePage iSize initializedSize
      { { pages with held := first } with mem := (doSbs ⟨cbStart, cbSize, destMaxIndex, destMaxOfs,
        first⟩ (cbSize + 1) ⟨0, destIndex, destOfs, pages.mem, [], []⟩).1.mem } hfirst i
    obtain ⟨hmem', huptodate', -⟩ := foldl_finalizePage iSize initializedSize
      { { pages with held := second } with mem := (doSbs ⟨cbStart, cbSize, destMaxIndex, destMaxOfs,
        second⟩ (cbSize + 1) ⟨0, destIndex, destOfs, pages.mem, [], []⟩).1.mem } hsecond i
    have hcompleted := halike.completed_iff i hi hi'
    have hsame := halike.mem_eq i hi hi'
    refine ⟨hmem.trans (Eq.trans ?_ hmem'.symm), huptodate.trans (Eq.trans ?_ huptodate'.symm)⟩
    · simp only [hcompleted, hsame]
    · simp only [hcompleted]

/-- The sub-block of six bytes is decoded or skipped. -/
theorem same_pages_of_held_sixBytes :
    (ntfsDecompress { twoPages with held := fun _ => true } 0 0 2 0 0 false sixBytes 8192 8192
        8192).destIndex =
      (ntfsDecompress { twoPages with held := fun i => i == 1 } 0 0 2 0 0 false sixBytes 8192 8192
        8192).destIndex :=
  (same_pages_of_held twoPages (fun _ => true) (fun i => i == 1) 0 0 2 0 0 false sixBytes
    8192 8192 8192 [.compressed [.literal 0x61, .phrase 1 5]] (by
      obtain ⟨stop, hblocks, hzero, -⟩ := validBlock_sixBytes
      exact ⟨stop, hblocks, .inr hzero⟩)).1

end AdvancedOs.Ntfs.DecompressionSharing
