import AdvancedOs.Ntfs.RunlistSurgery

/-!
# Truncating a runlist

`ntfs_rl_truncate_nolock` gives a runlist a new length. A shorter one cuts the run that contains the
new end, or drops it if the end is where the run starts, and makes the element behind the
terminator; a longer one stretches a hole at the end of the runlist, or appends one.

`Truncated` is what a truncation is for, in terms of lookups alone: a fully known runlist of the new
length that is as before up to the smaller of the two ends and a hole behind the old one. Each of
the three cases leaves such a runlist (`shrinkRunlist_spec`, `expandRunlist_spec`,
`truncated_refl`), and `ntfsRlTruncateNolock_spec` puts them together: the function fails only for
want of memory, and then no lookup changes.
-/

namespace AdvancedOs.Ntfs.RunlistTruncation

open Foundation.ArraySegments Foundation.SignedWords RunlistElements RunlistMergeRoutines
  RunlistMerge RunlistSurgery List

/-! ### The function -/

/-- The part of `ntfs_rl_truncate_nolock` that shrinks the runlist, whose element `i` contains the
new end. -/
def shrinkRunlist (allocator : Allocator) (block : RlArray) (i : ℕ) (newLength : ℤ) : Edited :=
  match scanFrom (fun run => run.length = 0) block (i + 1) with
  | none => ⟨some block, .error .overrun⟩
  | some trl =>
    let oldSize := trl + 1
    let length := s64 (newLength - (block.elem i).vcn)
    let block := store block i { block.elem i with length := length }
    if length ≠ 0 then
      -- The run was cut, so that the element behind it becomes the terminator.
      let isEnd := (block.elem (i + 1)).length = 0
      let block := store block (i + 1) ⟨newLength, lcnEnoent, 0⟩
      ⟨some (if isEnd then block else shrinkTo allocator block oldSize (i + 1 + 1)), .ok ()⟩
    else
      let block := store block i { block.elem i with lcn := lcnEnoent }
      ⟨some (shrinkTo allocator block oldSize (i + 1)), .ok ()⟩

/-- The part of `ntfs_rl_truncate_nolock` that expands the runlist, whose terminator is element
`i`. -/
def expandRunlist (allocator : Allocator) (block : RlArray) (i : ℕ) (newLength : ℤ) : Edited :=
  if 0 < i ∧ (block.elem (i - 1)).lcn = lcnHole then
    let block := store block (i - 1) { block.elem (i - 1) with
      length := s64 (newLength - (block.elem (i - 1)).vcn) }
    ⟨some (store block i { block.elem i with vcn := newLength, lcn := lcnEnoent }), .ok ()⟩
  else match ntfsRlRealloc allocator block (i + 1) (i + 1 + 1) with
    | .error why => ⟨some block, .error why⟩
    | .ok block =>
      let block := store block i { block.elem i with
        lcn := lcnHole, length := s64 (newLength - (block.elem i).vcn) }
      ⟨some (store block (i + 1) ⟨newLength, lcnEnoent, 0⟩), .ok ()⟩

def ntfsRlTruncateNolock (allocator : Allocator) (rl : Option RlArray) (newLength : ℤ) : Edited :=
  if newLength < 0 then ⟨rl, .error .bug⟩
  else if newLength = 0 then ⟨none, .ok ()⟩
  else match rl with
    | none =>
      if allocator.succeeds pageSize then
        let block := store ⟨pageSize, allocator.junk⟩ 0 ⟨0, lcnHole, newLength⟩
        ⟨some (store block 1 ⟨newLength, lcnEnoent, 0⟩), .ok ()⟩
      else ⟨none, .error (.errno .enomem)⟩
    | some block =>
      if newLength < (block.elem 0).vcn then ⟨some block, .error .bug⟩
      else match seekFrom newLength block 0 with
        | none => ⟨some block, .error .overrun⟩
        | some i =>
          if (block.elem i).length ≠ 0 then shrinkRunlist allocator block i newLength
          else if (block.elem i).vcn < newLength then expandRunlist allocator block i newLength
          else ⟨some (store block i { block.elem i with lcn := lcnEnoent }), .ok ()⟩

/-! ### Fully known runlists -/

/-- Every run is mapped or a hole, and the attribute ends at the terminator. -/
structure Known (rl : RunSequence) : Prop where
  last_lcn : rl.last.lcn = lcnEnoent
  run_lcn : ∀ run ∈ rl.runs, lcnHole ≤ run.lcn

/-- The pointer leads to a fully known runlist that ends at `stop`. A null pointer does if there is
nothing before `stop`. -/
def KnownUpTo (stop : ℤ) : Option RlArray → Prop
  | none => stop = 0
  | some block => ∃ rl : RunSequence, block.Holds rl.elements ∧ Known rl ∧ rl.last.vcn = stop

/-- A truncation from `stop` to `newLength` did what it has to: the runlist is as before up to the
smaller of the two, and a hole from `stop` on. -/
structure Truncated (before : Option RlArray) (stop newLength : ℤ) (after : Option RlArray) :
    Prop where
  known : KnownUpTo newLength after
  null_iff : after = none ↔ newLength = 0
  kept : ∀ vcn, 0 ≤ vcn → vcn < min stop newLength → lookupAt after vcn = lookupAt before vcn
  hole : ∀ vcn, stop ≤ vcn → vcn < newLength → lookupAt after vcn = some lcnHole

section

variable {before : Option RlArray} {runs part : List RunlistElement} {block : RlArray}
  {stop newLength : ℤ}

theorem lookupAt_of_holds {rl : RunSequence} (hholds : block.Holds rl.elements) {vcn : ℤ}
    (hlow : 0 ≤ vcn) (hhigh : vcn < rl.last.vcn) :
    lookupAt (some block) vcn = lcnIn rl.runs vcn := by
  obtain ⟨_, run, _, -, -, hlcn⟩ := rl.stretch.chain.exists_covers hlow hhigh
  have hlk := lookup_of_holds hholds hlow
  rw [hlcn, Option.getD_some, ← hlcn] at hlk
  exact hlk

theorem truncated_of_part (hstop : 0 ≤ stop)
    (hbef : ∀ vcn, 0 ≤ vcn → vcn < stop → lookupAt before vcn = lcnIn runs vcn)
    (hpart : Stretch 0 newLength part) (hlcn : ∀ run ∈ part, lcnHole ≤ run.lcn)
    (hholds : block.Holds (part ++ [⟨newLength, lcnEnoent, 0⟩])) (hpos : 0 < newLength)
    (hword : IsS64 newLength) (hagr : ∀ vcn, 0 ≤ vcn → vcn < newLength →
      lcnIn part vcn = if vcn < stop then lcnIn runs vcn else some lcnHole) :
    Truncated before stop newLength (some block) := by
  obtain ⟨rl, rfl, hlast⟩ : ∃ rl : RunSequence, rl.runs = part ∧
      rl.last = ⟨newLength, lcnEnoent, 0⟩ :=
    ⟨⟨part, _, hpart, rfl, .inl rfl, hword⟩, rfl, rfl⟩
  have hend : rl.last.vcn = newLength := by rw [hlast]
  have hrl : block.Holds rl.elements := by
    rw [RunSequence.elements, hlast]
    exact hholds
  have hlk : ∀ vcn, 0 ≤ vcn → vcn < newLength →
      lookupAt (some block) vcn = if vcn < stop then lcnIn runs vcn else some lcnHole := by
    intro vcn hlow hhigh
    rw [lookupAt_of_holds hrl hlow (hend ▸ hhigh), hagr vcn hlow hhigh]
  refine ⟨⟨rl, hrl, ⟨by rw [hlast], hlcn⟩, hend⟩, by simp [hpos.ne'], fun vcn hlow hhigh => ?_,
    fun vcn hlow hhigh => ?_⟩
  · obtain ⟨hlt, hnew⟩ := lt_min_iff.mp hhigh
    rw [hlk vcn hlow hnew, if_pos hlt, hbef vcn hlow hlt]
  · rw [hlk vcn (hstop.trans hlow) hhigh, if_neg (not_lt.mpr hlow)]

end

/-! ### The three cases -/

section

variable (allocator : Allocator) {block : RlArray} {rl : RunSequence}
  (hholds : block.Holds rl.elements) (hknown : Known rl) {newLength : ℤ} (hpos : 0 < newLength)
  (hword : IsS64 newLength)
include hholds hknown hpos hword

/-- Assumes: a new end inside a run. The runlist is cut there. -/
theorem shrinkRunlist_spec {before after : List RunlistElement} {run : RunlistElement}
    (hruns : rl.runs = before ++ run :: after) (hcov : run.Covers newLength) :
    ∃ smaller, shrinkRunlist allocator block before.length newLength = ⟨some smaller, .ok ()⟩ ∧
      Truncated (some block) rl.last.vcn newLength (some smaller) := by
  have hstr := rl.stretch
  have hlcn := hknown.run_lcn
  rw [hruns] at hstr hlcn
  obtain ⟨hbef, hlen, haft⟩ := hstr.around
  have hlk : ∀ vcn, 0 ≤ vcn → vcn < rl.last.vcn →
      lookupAt (some block) vcn = lcnIn rl.runs vcn := fun vcn => lookupAt_of_holds hholds
  have helt : rl.elements = (before ++ [run]) ++ (after ++ [rl.last]) := by
    simp [RunSequence.elements, hruns]
  rw [helt] at hholds
  have hscan := scanFrom_terminator hholds haft.chain rl.last_length
  obtain ⟨hroom, hcl⟩ := hholds
  simp only [length_append, length_singleton, ← Nat.add_assoc] at hscan hroom
  rw [← append_cons] at hcl
  have hcell : block.elem before.length = run := by
    simpa using ((segment_append _ _ _ _).mp hcl).2.1
  have hin := haft.chain.le
  obtain ⟨hlow, hhigh⟩ := hcov
  have hnn := hbef.chain.le
  have hs64 : s64 (newLength - run.vcn) = newLength - run.vcn := by
    unfold IsS64 at hword
    exact s64_of_isS64 ⟨by omega, by omega⟩
  unfold shrinkRunlist
  rw [hscan]
  simp only [hcell, hs64]
  by_cases hcut : newLength - run.vcn = 0
  · -- The run starts at the new end, and becomes the terminator itself.
    obtain rfl : newLength = run.vcn := by omega
    rw [if_neg (not_not.mpr hcut)]
    refine ⟨_, rfl, truncated_of_part rl.last_vcn_nonneg hlk hbef
      (fun other hoth => hlcn other (by simp [hoth])) ?_ hpos hword fun vcn hvcn hlt => ?_⟩
    · refine holds_shrinkTo allocator ?_ ?_ (by simp) (by omega)
      · simpa only [store_bytes] using hroom
      · have hset := hcl.update_at ⟨run.vcn, lcnEnoent, 0⟩
        rw [append_cons, segment_append] at hset
        simpa [hcut] using hset.1
    · rw [if_pos (by omega), hruns]
      exact (front_before hstr).agrees vcn hlt
  · rw [if_pos hcut]
    have hcutRun : { run with length := newLength - run.vcn } = upTo run newLength := rfl
    have hfr := front_upTo hstr (by omega) hhigh.le
    have hseg : Segment (store (store block before.length (upTo run newLength))
        (before.length + 1) ⟨newLength, lcnEnoent, 0⟩).elem 0
        (before ++ [upTo run newLength] ++ [⟨newLength, lcnEnoent, 0⟩]) := by
      rw [append_cons, segment_append] at hcl
      simpa using (hcl.1.update_at (upTo run newLength)).concat ⟨newLength, lcnEnoent, 0⟩
    refine ⟨_, rfl, truncated_of_part rl.last_vcn_nonneg hlk hfr.stretch ?_ ?_ hpos hword
      fun vcn hvcn hlt => ?_⟩
    · intro other hoth
      rcases List.mem_append.mp hoth with hmem | hmem
      · exact hlcn other (by simp [hmem])
      · rw [List.mem_singleton.mp hmem]
        exact hlcn run (by simp)
    · rw [hcutRun]
      split_ifs
      · refine ⟨le_trans (pageAlign_mono (Nat.mul_le_mul_right _ ?_)) hroom, hseg⟩
        simp
      · refine holds_shrinkTo allocator ?_ hseg (by simp) (by omega)
        simpa only [store_bytes] using hroom
    · rw [if_pos (by omega), hruns]
      exact hfr.agrees vcn hlt

omit hknown in
theorem truncated_expanded (hlt : rl.last.vcn < newLength) {start : ℤ} {front : List RunlistElement}
    {larger : RlArray} (hfr : Front rl.runs 0 start front) (hlcn : ∀ run ∈ front, lcnHole ≤ run.lcn)
    (hst : start ≤ rl.last.vcn)
    (hhole : ∀ vcn, start ≤ vcn → vcn < rl.last.vcn → lcnIn rl.runs vcn = some lcnHole)
    (hlarg : larger.Holds (front ++ [holeBetween start newLength] ++ [⟨newLength, lcnEnoent, 0⟩])) :
    Truncated (some block) rl.last.vcn newLength (some larger) := by
  have hback : Back rl.runs newLength newLength [] :=
    ⟨stretch_nil newLength, fun vcn hvcn =>
      (rl.stretch.chain.lcnIn_eq_none (.inr (hlt.le.trans hvcn))).symm⟩
  obtain ⟨hstr, hval⟩ := hfr.punch hback (hst.trans_lt hlt)
  refine truncated_of_part rl.last_vcn_nonneg (fun vcn => lookupAt_of_holds hholds) hstr ?_
    hlarg hpos hword fun vcn hlow hhigh => ?_
  · intro run hrun
    rcases List.mem_append.mp hrun with hmem | hmem
    · exact hlcn run hmem
    · rw [List.mem_singleton.mp hmem]
      exact le_rfl
  · rw [hval]
    split_ifs with hin hbef hbef
    · exact (hhole vcn hin.1 hbef).symm
    · rfl
    · rfl
    · omega

/-- Assumes: a new end behind that of the runlist. The runlist goes on with a hole up to there, if
there is memory for it. -/
theorem expandRunlist_spec (hlt : rl.last.vcn < newLength) :
    (∃ larger, expandRunlist allocator block rl.runs.length newLength = ⟨some larger, .ok ()⟩ ∧
        Truncated (some block) rl.last.vcn newLength (some larger)) ∨
      expandRunlist allocator block rl.runs.length newLength =
      ⟨some block, .error (.errno .enomem)⟩ := by
  have hs64 : ∀ vcn, 0 ≤ vcn → vcn ≤ newLength → s64 (newLength - vcn) = newLength - vcn := by
    intro vcn hlow hhigh
    unfold IsS64 at hword
    exact s64_of_isS64 ⟨by omega, by omega⟩
  have hlast : ∀ vcn lcn, (⟨vcn, lcn, rl.last.length⟩ : RunlistElement) = ⟨vcn, lcn, 0⟩ := by
    simp [rl.last_length]
  have hnn := rl.last_vcn_nonneg
  unfold expandRunlist
  by_cases hprev : 0 < rl.runs.length ∧ (block.elem (rl.runs.length - 1)).lcn = lcnHole
  · -- The last run is a hole, and is stretched in place.
    obtain ⟨before, run, hruns⟩ := exists_concat (ne_nil_of_length_pos hprev.1)
    have hstr := rl.stretch
    have hcl := hholds.2
    have hcnt : rl.runs.length - 1 = before.length := by simp [hruns]
    rw [RunSequence.elements, hruns, append_assoc] at hcl
    have hcell : block.elem before.length = run := by
      simpa using ((segment_append _ _ _ _).mp hcl).2.1
    rw [if_pos hprev, hcnt, hcell]
    rw [hcnt, hcell] at hprev
    have hlcn := hknown.run_lcn
    rw [hruns] at hstr hlcn
    obtain ⟨hbef, hlen, hend⟩ := hstr.around
    have hst := hbef.chain.le
    have hstop : run.vcn + run.length = rl.last.vcn := hend.chain
    have hrun : { run with length := newLength - run.vcn } = holeBetween run.vcn newLength := by
      rw [hprev.2]
      rfl
    have hterm : (store block before.length (holeBetween run.vcn newLength)).elem
        (before.length + 1) = rl.last := by
      rw [store_elem, Function.update_of_ne (by omega)]
      simpa using ((segment_append _ _ _ _).mp hcl).2.2.1
    simp only [hs64 _ hst (by omega), hrun, show rl.runs.length = before.length + 1 by
      simp [hruns], hterm, hlast]
    refine .inl ⟨_, rfl, truncated_expanded hholds hpos hword hlt (hruns ▸ front_before hstr)
      (fun other hoth => hlcn other (by simp [hoth])) (by omega) (fun vcn hlow hhigh => ?_)
      ⟨?_, ?_⟩⟩
    · rw [hruns, ← (back_self hstr).agrees vcn hlow, lcnIn_cons, if_pos ⟨hlow, by omega⟩,
        run.lcnAt_of_neg (hprev.2.trans_lt (by decide)), hprev.2]
    · simpa [hruns] using hholds.1
    · have hset := hcl.update_at (holeBetween run.vcn newLength)
      rw [append_cons] at hset
      simpa using hset.update_at ⟨newLength, lcnEnoent, 0⟩
  · rw [if_neg hprev]
    have hreal := ntfsRlRealloc_spec allocator hholds
      (show rl.elements.length ≤ rl.runs.length + 1 + 1 by simp)
    have hroom := le_reallocBytes hholds (rl.runs.length + 1 + 1)
    rw [rl.length_elements] at hreal hroom
    rcases hreal with ⟨hfail, -⟩ | ⟨larger, hok, hby, hseg, -⟩
    · rw [hfail]
      exact .inr rfl
    · have hcell : larger.elem rl.runs.length = rl.last := by
        rw [RunSequence.elements, segment_append] at hseg
        simpa using hseg.2.1
      have hhole : { rl.last with lcn := lcnHole, length := newLength - rl.last.vcn } =
        holeBetween rl.last.vcn newLength := rfl
      rw [hok]
      simp only [hcell, hs64 _ hnn hlt.le, hhole]
      refine .inl ⟨_, rfl, truncated_expanded hholds hpos hword hlt
        ⟨rl.stretch, fun _ _ => rfl⟩ hknown.run_lcn le_rfl
        (fun vcn hlow hhigh => absurd hlow (not_le.mpr hhigh)) ⟨?_, ?_⟩⟩
      · rw [store_bytes, store_bytes, hby]
        simpa using hroom
      · simpa using (hseg.update_at (holeBetween rl.last.vcn newLength)).concat
          ⟨newLength, lcnEnoent, 0⟩

end

/-! ### The whole function -/

theorem KnownUpTo.nonneg {stop : ℤ} {rl : Option RlArray} (hknown : KnownUpTo stop rl) :
    0 ≤ stop := by
  cases rl with
  | none => exact hknown.ge
  | some block =>
    obtain ⟨rl, -, -, rfl⟩ := hknown
    exact rl.last_vcn_nonneg

theorem truncated_null (junk : ℕ → RunlistElement) {newLength : ℤ} (hpos : 0 < newLength)
    (hword : IsS64 newLength) :
    Truncated none 0 newLength (some (store (store ⟨pageSize, junk⟩ 0 ⟨0, lcnHole, newLength⟩) 1
      ⟨newLength, lcnEnoent, 0⟩)) := by
  have hstr := stretch_holeBetween hpos
  have hhole : holeBetween 0 newLength = ⟨0, lcnHole, newLength⟩ := by simp [holeBetween]
  have hpage : pageAlign (2 * elementSize) ≤ pageSize := by decide
  have hnoth : ∀ vcn, 0 ≤ vcn → vcn < 0 → lookupAt none vcn = lcnIn [] vcn :=
    fun vcn hlow hhigh => absurd hlow (not_le.mpr hhigh)
  rw [hhole] at hstr
  refine truncated_of_part le_rfl hnoth hstr (by simp) ⟨hpage, rfl, rfl, trivial⟩ hpos hword
    fun vcn hlow hhigh => ?_
  rw [if_neg (not_lt.mpr hlow), lcnIn_cons, if_pos ⟨hlow, by simpa using hhigh⟩]
  rfl

section

variable {block : RlArray} {rl : RunSequence} (hholds : block.Holds rl.elements)
include hholds

/-- The new end is that of the runlist. Nothing changes. -/
theorem truncated_refl (hknown : Known rl) (hpos : 0 < rl.last.vcn) :
    Truncated (some block) rl.last.vcn rl.last.vcn (some block) where
  known := ⟨rl, hholds, hknown, rfl⟩
  null_iff := by simp [hpos.ne']
  kept _ _ _ := rfl
  hole _ hlow hhigh := absurd hlow (not_le.mpr hhigh)

theorem elem_zero_vcn : (block.elem 0).vcn = 0 := by
  have hcl := hholds.2
  have hch := rl.stretch.chain
  rw [RunSequence.elements] at hcl
  cases hruns : rl.runs with
  | nil =>
    rw [hruns] at hcl hch
    rw [hcl.1]
    exact hch.symm
  | cons run runs =>
    rw [hruns] at hcl hch
    rw [hcl.1]
    exact hch.1

end

/-- Assumes: a pointer to a fully known runlist, or a null pointer, and a new length. The truncation
either succeeds, with a fully known runlist of the new length that is as before up to the smaller of
the two ends and a hole behind the old one, or it fails for want of memory and no lookup changes. -/
theorem ntfsRlTruncateNolock_spec (allocator : Allocator) {rl : Option RlArray} {stop newLength : ℤ}
    (hknown : KnownUpTo stop rl) (hnew : 0 ≤ newLength) (hword : IsS64 newLength) :
    ((ntfsRlTruncateNolock allocator rl newLength).status = .ok () ∧
        Truncated rl stop newLength (ntfsRlTruncateNolock allocator rl newLength).rl) ∨
      ((ntfsRlTruncateNolock allocator rl newLength).status = .error (.errno .enomem) ∧
        ∀ vcn, lookupAt (ntfsRlTruncateNolock allocator rl newLength).rl vcn =
        lookupAt rl vcn) := by
  unfold ntfsRlTruncateNolock
  rw [if_neg (not_lt.mpr hnew)]
  by_cases hzero : newLength = 0
  · rw [if_pos hzero]
    have hstop := hknown.nonneg
    exact .inl ⟨rfl, hzero, by simp [hzero], fun vcn hlow hhigh => by omega,
      fun vcn hlow hhigh => by omega⟩
  rw [if_neg hzero]
  have hpos : 0 < newLength := lt_of_le_of_ne hnew (Ne.symm hzero)
  cases rl with
  | none =>
    obtain rfl : stop = 0 := hknown
    split_ifs
    · exact .inl ⟨rfl, truncated_null allocator.junk hpos hword⟩
    · exact .inr ⟨rfl, fun _ => rfl⟩
  | some block =>
    obtain ⟨rl, hholds, hrl, rfl⟩ := hknown
    have hcap := hholds.length_le_cap
    rw [rl.length_elements] at hcap
    dsimp only
    rw [elem_zero_vcn hholds, if_neg (not_lt.mpr hnew)]
    rcases lt_or_ge newLength rl.last.vcn with hlt | hge
    · obtain ⟨before, run, after, hruns, hcovers, -⟩ :=
        rl.stretch.chain.exists_covers hpos.le hlt
      have hcells := hholds.2
      have hchain := rl.stretch.chain
      rw [hruns, List.length_append, List.length_cons] at hcap
      rw [RunSequence.elements, hruns, List.append_assoc] at hcells
      rw [hruns] at hchain
      have hcell : block.elem before.length = run := by
        simpa using ((segment_append _ _ _ _).mp hcells).2.1
      have hlength := (hchain.mem (List.mem_append_right before List.mem_cons_self)).2.1
      rw [seekFrom, seek_of_covers hchain hcovers hcells (by omega), Nat.zero_add]
      dsimp only
      rw [hcell, if_pos hlength.ne']
      obtain ⟨smaller, hresult, htruncated⟩ :=
        shrinkRunlist_spec allocator hholds hrl hpos hword hruns hcovers
      rw [hresult]
      exact .inl ⟨rfl, htruncated⟩
    · have hcell : block.elem rl.runs.length = rl.last := by
        simpa using ((segment_append _ _ _ _).mp hholds.2).2.1
      rw [seekFrom, seek_of_le rl.stretch.chain rl.last_length hge hholds.2 (by omega),
        Nat.zero_add]
      dsimp only
      rw [hcell, if_neg (not_not.mpr rl.last_length)]
      split_ifs with hlt
      · rcases expandRunlist_spec allocator hholds hrl hpos hword hlt with
          ⟨larger, hresult, htruncated⟩ | hresult
        · rw [hresult]
          exact .inl ⟨rfl, htruncated⟩
        · rw [hresult]
          exact .inr ⟨rfl, fun _ => rfl⟩
      · obtain rfl : newLength = rl.last.vcn := by omega
        have hsame : store block rl.runs.length { rl.last with lcn := lcnEnoent } = block := by
          rw [← hrl.last_lcn, ← hcell, store, Function.update_eq_self]
        rw [hsame]
        exact .inl ⟨rfl, truncated_refl hholds hrl hpos⟩

def fiveClusters : RunSequence where
  runs := [⟨0, 10, 3⟩, ⟨3, lcnHole, 2⟩]
  last := ⟨5, lcnEnoent, 0⟩
  stretch := ⟨by decide, by decide⟩
  last_length := rfl
  last_lcn := .inl rfl
  last_vcn_isS64 := by decide

def fiveBlock : RlArray := RlArray.ofList fiveClusters.elements 0 fun _ => ⟨0, 0, 0⟩

/-- The runlist is cut to its first two clusters, for which no memory is needed. -/
theorem ntfsRlTruncateNolock_fiveClusters :
    (ntfsRlTruncateNolock ⟨fun _ => false, fun _ => ⟨0, 0, 0⟩⟩ (some fiveBlock) 2).status = .ok () ∧
      Truncated (some fiveBlock) 5 2
        (ntfsRlTruncateNolock ⟨fun _ => false, fun _ => ⟨0, 0, 0⟩⟩ (some fiveBlock) 2).rl := by
  have hknown : KnownUpTo 5 (some fiveBlock) :=
    ⟨fiveClusters, RlArray.holds_ofList _ _ _, ⟨rfl, by decide⟩, rfl⟩
  refine (ntfsRlTruncateNolock_spec _ hknown (by decide) (by decide)).resolve_right ?_
  exact fun hfailed => absurd hfailed.1 (by decide)

end AdvancedOs.Ntfs.RunlistTruncation
