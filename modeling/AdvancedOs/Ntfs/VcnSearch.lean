import AdvancedOs.Ntfs.LazyRunlistMapping

/-!
# Finding the runlist element of a vcn

`ntfs_attr_find_vcn_nolock` returns the element of a runlist that has a vcn. Where the runlist has
not been read, it maps the part with the vcn and looks again. A caller may pass a search context
that stands at an attribute of the base mft record, or none, as the allocator for the bitmap of the
mft does.

Before the mapping the function asks whether the context is a valid one, and it does so also where
there is no context: it reads through a null pointer. `findsSame_iff` says that a search without a
context ends as one with a context does exactly if nothing has to be mapped.
-/

namespace AdvancedOs.Ntfs.VcnSearch

open RunlistElements RunlistMerge RunlistMergeRoutines MappingPairs MappingPairsSoundness
  LazyRunlistMapping

/-! ### The driver -/

inductive Stop
  | failure (why : Failure)
  | nullPointer
deriving DecidableEq

/-- The search ends at an element that does not give the vcn: nothing has been found if it is not
mapped, and the search fails otherwise. -/
def stopAt (run : RunlistElement) : Except Failure (Option ℕ) :=
  if run.lcn = lcnRlNotMapped then .ok none
  else .error (.errno (if run.lcn = lcnEnoent then .enoent else .eio))

/-- The loop of `ntfs_attr_find_vcn_nolock`, from element `i` on. -/
def findVcnLoop : List RunlistElement → ℤ → ℕ → Except Failure (Option ℕ)
  | [], _, _ => .error .overrun
  | run :: rest, vcn, i =>
    if run.length = 0 then stopAt run
    else match rest with
      | [] => .error .overrun
      | next :: _ =>
        if vcn < next.vcn then if lcnHole ≤ run.lcn then .ok (some i) else stopAt run
        else findVcnLoop rest vcn (i + 1)

/-- The search behind `retry_remap`. -/
def findVcn : RlPtr → ℤ → Except Failure (Option ℕ)
  | .null, _ => .ok none
  | .err _, _ => .error .overrun
  | .block rl, vcn =>
    match rl.toList with
    | [] => .error .overrun
    | run :: rest => if run.vcn ≤ vcn then findVcnLoop (run :: rest) vcn 0 else .ok none

def ntfsAttrFindVcnNolock (allocator : Allocator) (view : MftView) (ni : NtfsInode) (vcn : ℤ)
    (ctx : Option AttrSearchCtx) : Except Stop ℕ × NtfsInode :=
  if vcn < 0 then (.error (.failure .bug), ni)
  else if isNull ni.rl ∧ ni.allocatedSize = 0 then (.error (.failure (.errno .enoent)), ni)
  else match findVcn ni.rl vcn with
    | .error why => (.error (.failure why), ni)
    | .ok (some i) => (.ok i, ni)
    | .ok none =>
      match ctx with
      -- `IS_ERR(ctx->mrec)`.
      | none => (.error .nullPointer, ni)
      | some ctx =>
        match ntfsMapRunlistNolock allocator view ni vcn (some ctx) with
        | (.error why, ni) =>
          (.error (.failure (if why = .errno .einval then .errno .eio else why)), ni)
        | (.ok (), ni) =>
          match findVcn ni.rl vcn with
          | .error why => (.error (.failure why), ni)
          | .ok (some i) => (.ok i, ni)
          | .ok none => (.error (.failure (.errno .eio)), ni)

/-! ### What has to be mapped -/

def Represents : RlPtr → Option Runlist → Prop
  | .null, none => True
  | .block block, some rl => block.Holds rl.elements
  | _, _ => False

/-- The vcn lies in a part of the attribute whose mapping has not been read. -/
def NeedsMapping (allocatedSize vcn : ℤ) : Option Runlist → Prop
  | none => allocatedSize ≠ 0
  | some rl => (∃ run ∈ rl.runs, run.Covers vcn ∧ run.lcn = lcnRlNotMapped) ∨
      rl.last.vcn ≤ vcn ∧ rl.last.lcn = lcnRlNotMapped

variable {first vcn : ℤ} {runs : List RunlistElement} {last run : RunlistElement}

theorem stopAt_eq_none_iff : stopAt run = .ok none ↔ run.lcn = lcnRlNotMapped := by
  unfold stopAt
  split_ifs with h <;> simp [h]

theorem findVcnLoop_eq_none_iff (hch : Chain first runs last.vcn) (hlen : last.length = 0)
    (hlow : first ≤ vcn) (rest : List RunlistElement) (i : ℕ) :
    findVcnLoop (runs ++ last :: rest) vcn i = .ok none ↔
      (∃ run ∈ runs, run.Covers vcn ∧ run.lcn = lcnRlNotMapped) ∨
        last.vcn ≤ vcn ∧ last.lcn = lcnRlNotMapped := by
  induction runs generalizing first i with
  | nil =>
    rw [chain_nil] at hch
    rw [List.nil_append]
    unfold findVcnLoop
    rw [if_pos hlen, stopAt_eq_none_iff]
    simp [← hch, hlow]
  | cons run runs ih =>
    obtain ⟨hvcn, hpos, hrest⟩ := hch
    have hle := hrest.le
    obtain ⟨second, others, hsec, hst⟩ := hrest.exists_cons rest
    rw [List.cons_append, hsec, findVcnLoop, if_neg hpos.ne', List.exists_mem_cons_iff]
    by_cases hcov : run.Covers vcn
    · have hlt : vcn < second.vcn := by
        unfold RunlistElement.Covers at hcov
        omega
      have hoths : ¬ ∃ other ∈ runs, other.Covers vcn ∧ other.lcn = lcnRlNotMapped := by
        rintro ⟨other, hoth, hbeh, -⟩
        have hmem := hrest.mem hoth
        unfold RunlistElement.Covers at hbeh
        omega
      rw [if_pos hlt, or_assoc, or_iff_left (by rintro (h | h) <;> [exact hoths h; omega]),
        and_iff_right hcov]
      split_ifs with hhole
      · have hne : run.lcn ≠ lcnRlNotMapped := by
          unfold lcnHole at hhole
          unfold lcnRlNotMapped
          omega
        simp [hne]
      · exact stopAt_eq_none_iff
    · have hge : first + run.length ≤ vcn := by
        unfold RunlistElement.Covers at hcov
        omega
      rw [if_neg (by omega), ← hsec, ih hrest hge]
      simp [hcov]

/-- Assumes: an inode with no runlist or with a well-formed one. The search finds nothing exactly if
the vcn has to be mapped. -/
theorem findVcn_eq_none_iff {ni : NtfsInode} {rl : Option Runlist} (hrl : Represents ni.rl rl)
    (hvcn : 0 ≤ vcn) (hsize : ¬ (isNull ni.rl = true ∧ ni.allocatedSize = 0)) :
    findVcn ni.rl vcn = .ok none ↔ NeedsMapping ni.allocatedSize vcn rl := by
  cases hptr : ni.rl with
  | err code => cases rl <;> simp [hptr, Represents] at hrl
  | null =>
    rw [hptr] at hrl hsize
    cases rl with
    | some rl => simp [Represents] at hrl
    | none => exact iff_of_true rfl fun hzero => hsize ⟨rfl, hzero⟩
  | block block =>
    rw [hptr] at hrl
    cases rl with
    | none => simp [Represents] at hrl
    | some rl =>
      obtain ⟨rest, hrest⟩ := RlArray.Holds.exists_toList hrl
      rw [Runlist.elements, List.append_assoc, List.singleton_append] at hrest
      obtain ⟨head, others, hlist, hhead⟩ := rl.chain.exists_cons rest
      rw [findVcn, hrest, hlist]
      dsimp only
      rw [if_pos (by omega), ← hlist, findVcnLoop_eq_none_iff rl.chain rl.last_length hvcn]
      rfl

/-- Assumes: an inode with no runlist or with a well-formed one, and a vcn. A search without a
context gives the same element or error as one with a context exactly if the vcn does not have to be
mapped. -/
theorem findsSame_iff (allocator : Allocator) (view : MftView) {ni : NtfsInode}
    {rl : Option Runlist} (hrl : Represents ni.rl rl) (hvcn : 0 ≤ vcn) (ctx : AttrSearchCtx) :
    (ntfsAttrFindVcnNolock allocator view ni vcn none).1 =
        (ntfsAttrFindVcnNolock allocator view ni vcn (some ctx)).1 ↔
      ¬ NeedsMapping ni.allocatedSize vcn rl := by
  unfold ntfsAttrFindVcnNolock
  rw [if_neg (not_lt.mpr hvcn), if_neg (not_lt.mpr hvcn)]
  by_cases hsize : isNull ni.rl = true ∧ ni.allocatedSize = 0
  · rw [if_pos hsize, if_pos hsize]
    refine iff_of_true rfl ?_
    cases rl with
    | none => exact not_not.mpr hsize.2
    | some rl => cases hptr : ni.rl <;> simp [hptr, isNull, Represents] at hsize hrl
  · rw [if_neg hsize, if_neg hsize, ← findVcn_eq_none_iff hrl hvcn hsize]
    cases hfind : findVcn ni.rl vcn with
    | error why => simp
    | ok found =>
      cases found with
      | some i => simp
      | none =>
        refine iff_of_false (fun hsame => ?_) (not_not.mpr rfl)
        dsimp only at hsame
        split at hsame
        · cases hsame
        · split at hsame <;> cases hsame

def oneRun : Runlist where
  runs := [⟨0, 5, 1⟩]
  last := ⟨1, lcnRlNotMapped, 0⟩
  runs_ne_nil := by decide
  chain := by decide
  last_length := rfl
  last_lcn := .inr rfl
  last_vcn_isS64 := by decide
  lcn_isS64 := by decide

def partInode : NtfsInode := ⟨smallVolume, 2 * smallVolume.clusterSize,
  .block (RlArray.ofList oneRun.elements 0 fun _ => ⟨0, 0, 0⟩)⟩

theorem represents_partInode : Represents partInode.rl (some oneRun) := RlArray.holds_ofList _ _ _

def baseCtx : AttrSearchCtx := ⟨smallRecord [0], false⟩

def lostMft : MftView := ⟨.ok (), true, fun _ => .error .eio⟩

theorem findsSame_partInode : (ntfsAttrFindVcnNolock plenty lostMft partInode 0 none).1 =
    (ntfsAttrFindVcnNolock plenty lostMft partInode 0 (some baseCtx)).1 :=
  (findsSame_iff plenty lostMft represents_partInode le_rfl baseCtx).mpr (by
    rintro (⟨run, hrun, -, hlcn⟩ | ⟨hvcn, -⟩)
    · rw [List.mem_singleton.mp hrun] at hlcn
      exact absurd hlcn (by decide)
    · exact absurd hvcn (by decide))

/-- Without a context the search for the second cluster reads through a null pointer. -/
theorem not_findsSame_partInode : (ntfsAttrFindVcnNolock plenty lostMft partInode 1 none).1 ≠
    (ntfsAttrFindVcnNolock plenty lostMft partInode 1 (some baseCtx)).1 := by
  have hnone : findVcn partInode.rl 1 = .ok none :=
    (findVcn_eq_none_iff represents_partInode (by decide) (by decide)).mpr (.inr ⟨by decide, rfl⟩)
  have hmap : ntfsMapRunlistNolock plenty lostMft partInode 1 (some baseCtx) =
      (.error (.errno .eio), partInode) := rfl
  have hptr : isNull partInode.rl = false := rfl
  simp [ntfsAttrFindVcnNolock, hnone, hmap, hptr]

end AdvancedOs.Ntfs.VcnSearch
