import AdvancedOs.Ntfs.RunlistMerge

/-!
# Cutting runs and runlists

The functions that change a mapping cut runs in two, drop runs and put holes in their place. A
`Stretch first last runs` is what they work on: consecutive runs from `first` up to `last`. A run is
cut at a vcn into the part before (`upTo`) and the part from there on (`onward`). The two parts give
every cluster the run gave (`lcnAt_upTo`, `lcnAt_onward`), provided that the cluster at the cut has
a number of 64 bits. `Front.punch` is what punching a hole comes to: a hole between a stretch that
agrees with the runs before it and one that agrees with the runs behind it. `restrict first stop
runs` is the part of the runs between two vcns, with the runs at its ends cut (`chain_restrict`).

A `RunSequence` is a whole runlist of this kind: a stretch from vcn zero on, possibly without any
run, and a terminator. `seek` is the loop with which the driver looks for the element that contains
a vcn.
-/

namespace AdvancedOs.Ntfs.RunlistSurgery

open Foundation.ArraySegments Foundation.SignedWords RunlistElements RunlistMergeRoutines
  RunlistMerge List

/-! ### Stretches -/

/-- Consecutive runs of positive length from `first` up to but excluding `last`. -/
structure Stretch (first last : ℤ) (runs : List RunlistElement) : Prop where
  chain : Chain first runs last
  lcn_isS64 : ∀ run ∈ runs, IsS64 run.lcn

variable {run last : RunlistElement} {block : RlArray} {i : ℕ} {runs : List RunlistElement}

section

variable {first middle last : ℤ} {runs more : List RunlistElement}

theorem stretch_nil (vcn : ℤ) : Stretch vcn vcn [] where
  chain := rfl
  lcn_isS64 := by simp

theorem stretch_singleton (hlen : 0 < run.length) (hword : IsS64 run.lcn) :
    Stretch run.vcn (run.vcn + run.length) [run] where
  chain := ⟨rfl, hlen, rfl⟩
  lcn_isS64 := by simpa using hword

theorem Stretch.append (hruns : Stretch first middle runs) (hmore : Stretch middle last more) :
    Stretch first last (runs ++ more) where
  chain := (chain_append ..).mpr ⟨middle, hruns.chain, hmore.chain⟩
  lcn_isS64 run hrun := (mem_append.mp hrun).elim (hruns.lcn_isS64 run) (hmore.lcn_isS64 run)

theorem Stretch.of_append (hstr : Stretch first last (runs ++ more)) :
    ∃ middle, Stretch first middle runs ∧ Stretch middle last more := by
  obtain ⟨middle, hruns, hmore⟩ := (chain_append ..).mp hstr.chain
  refine ⟨middle, ⟨hruns, fun run hrun => hstr.lcn_isS64 run ?_⟩,
    ⟨hmore, fun run hrun => hstr.lcn_isS64 run ?_⟩⟩
  all_goals simp [hrun]

theorem Stretch.around {before after : List RunlistElement}
    (hstr : Stretch first last (before ++ run :: after)) :
    Stretch first run.vcn before ∧ 0 < run.length ∧ Stretch (run.vcn + run.length) last after := by
  obtain ⟨middle, hbef, hrest⟩ := hstr.of_append
  obtain ⟨hvcn, hlen, haft⟩ := hrest.chain
  rw [← hvcn] at hbef haft
  exact ⟨hbef, hlen, haft, fun other hoth => hrest.lcn_isS64 other (mem_cons_of_mem _ hoth)⟩

theorem Stretch.lcnIn_append (hruns : Stretch first middle runs)
    (hmore : Stretch middle last more) (vcn : ℤ) : lcnIn (runs ++ more) vcn = if vcn < middle then
      lcnIn runs vcn else lcnIn more vcn := by
  rw [RunlistElements.lcnIn_append]
  split_ifs with hlt
  · rw [hmore.chain.lcnIn_eq_none (.inl hlt), Option.or_none]
  · rw [hruns.chain.lcnIn_eq_none (.inr (not_lt.mp hlt)), Option.none_or]

end

/-! ### Parts of a run -/

def upTo (run : RunlistElement) (vcn : ℤ) : RunlistElement :=
  { run with length := vcn - run.vcn }

def onward (run : RunlistElement) (vcn : ℤ) : RunlistElement :=
  ⟨vcn, run.lcnAt vcn, run.vcn + run.length - vcn⟩

/-- A hole from `first` up to but excluding `last`. -/
def holeBetween (first last : ℤ) : RunlistElement := ⟨first, lcnHole, last - first⟩

section

variable {vcn : ℤ} {run : RunlistElement}

/-- The part before a vcn gives the clusters of the run. -/
theorem lcnAt_upTo (run : RunlistElement) (vcn other : ℤ) :
    (upTo run vcn).lcnAt other = run.lcnAt other := rfl

theorem lcnAt_holeBetween (first last other : ℤ) :
    (holeBetween first last).lcnAt other = lcnHole := rfl

theorem lcnAt_eq_add (hnum : NumberedAt run vcn) (hcov : run.Covers vcn) :
    run.lcnAt vcn = if 0 ≤ run.lcn then run.lcn + (vcn - run.vcn) else run.lcn := by
  unfold RunlistElement.Covers at hcov
  unfold RunlistElement.lcnAt
  split_ifs with hlcn
  · have hlt := hnum hlcn
    rw [s64_of_isS64 (x := vcn - run.vcn) ⟨by omega, by omega⟩, s64_of_isS64 ⟨by omega, by omega⟩]
  · rfl

/-- Assumes: a vcn inside a run, with a number of 64 bits for its cluster. From there on its part
gives the clusters of the run. -/
theorem lcnAt_onward (hnum : NumberedAt run vcn) (hcov : run.Covers vcn) (other : ℤ) :
    (onward run vcn).lcnAt other = run.lcnAt other := by
  have hval := lcnAt_eq_add hnum hcov
  have hsum (x y : ℤ) : s64 (x + s64 y) = s64 (x + y) := by rw [add_comm, s64_s64_add, add_comm]
  unfold RunlistElement.Covers at hcov
  unfold onward
  rw [hval]
  unfold RunlistElement.lcnAt
  by_cases hlcn : 0 ≤ run.lcn
  · simp only [if_pos hlcn]
    rw [if_pos (by omega), hsum, hsum]
    congr 1
    ring
  · simp only [if_neg hlcn]

end

/-! ### Agreement with given runs -/

/-- A stretch up to `vcn` that gives the clusters the runs give before `vcn`. -/
structure Front (runs : List RunlistElement) (first vcn : ℤ) (part : List RunlistElement) :
    Prop where
  stretch : Stretch first vcn part
  agrees : ∀ other < vcn, lcnIn part other = lcnIn runs other

/-- A stretch from `vcn` on that gives the clusters the runs give from `vcn` on. -/
structure Back (runs : List RunlistElement) (vcn last : ℤ) (part : List RunlistElement) :
    Prop where
  stretch : Stretch vcn last part
  agrees : ∀ other, vcn ≤ other → lcnIn part other = lcnIn runs other

section

variable {first last start stop vcn : ℤ} {runs before after front back : List RunlistElement}
  {run : RunlistElement}

theorem front_before (hstr : Stretch first last (before ++ run :: after)) :
    Front (before ++ run :: after) first run.vcn before := by
  obtain ⟨middle, hbef, hrest⟩ := hstr.of_append
  obtain rfl : run.vcn = middle := hrest.chain.1
  refine ⟨hbef, fun other hoth => ?_⟩
  rw [hbef.lcnIn_append hrest, if_pos hoth]

theorem back_self (hstr : Stretch first last (before ++ run :: after)) :
    Back (before ++ run :: after) run.vcn last (run :: after) := by
  obtain ⟨middle, hbef, hrest⟩ := hstr.of_append
  obtain rfl : run.vcn = middle := hrest.chain.1
  refine ⟨hrest, fun other hoth => ?_⟩
  rw [hbef.lcnIn_append hrest, if_neg (not_lt.mpr hoth)]

theorem back_after (hstr : Stretch first last (before ++ run :: after)) :
    Back (before ++ run :: after) (run.vcn + run.length) last after := by
  obtain ⟨-, hlen, haft⟩ := hstr.around
  refine ⟨haft, fun other hoth => ?_⟩
  rw [← (back_self hstr).agrees other (by omega), lcnIn_cons, if_neg]
  unfold RunlistElement.Covers
  omega

theorem front_upTo (hstr : Stretch first last (before ++ run :: after))
    (hlow : run.vcn < vcn) (hhigh : vcn ≤ run.vcn + run.length) :
    Front (before ++ run :: after) first vcn (before ++ [upTo run vcn]) := by
  have hbef := front_before hstr
  have hself := back_self hstr
  have hpart : Stretch run.vcn vcn [upTo run vcn] := by
    have hword := hstr.lcn_isS64 run (by simp)
    have hlen : 0 < (upTo run vcn).length := sub_pos.mpr hlow
    simpa [upTo] using stretch_singleton hlen hword
  refine ⟨hbef.stretch.append hpart, fun other hoth => ?_⟩
  rw [hbef.stretch.lcnIn_append hpart]
  split_ifs with hlt
  · exact hbef.agrees other hlt
  · rw [← hself.agrees other (not_lt.mp hlt), lcnIn_cons, lcnIn_cons, lcnAt_upTo]
    have hcov : run.Covers other ∧ (upTo run vcn).Covers other := by
      unfold RunlistElement.Covers upTo
      simp only
      omega
    rw [if_pos hcov.1, if_pos hcov.2]

theorem stretch_onward (hstr : Stretch first last (before ++ run :: after))
    (hcov : run.Covers vcn) : Stretch vcn last (onward run vcn :: after) := by
  obtain ⟨-, -, haft⟩ := hstr.around
  have hlen : 0 < (onward run vcn).length := by
    unfold RunlistElement.Covers onward at *
    simp only
    omega
  have hword : IsS64 (onward run vcn).lcn := by
    simp only [onward, RunlistElement.lcnAt]
    split_ifs
    · exact isS64_s64 _
    · exact hstr.lcn_isS64 run (by simp)
  have hpart : Stretch vcn (run.vcn + run.length) [onward run vcn] := by
    simpa [onward] using stretch_singleton hlen hword
  exact hpart.append haft

theorem back_onward (hstr : Stretch first last (before ++ run :: after)) (hnum : NumberedAt run vcn)
    (hcov : run.Covers vcn) : Back (before ++ run :: after) vcn last (onward run vcn :: after) := by
  have hself := back_self hstr
  refine ⟨stretch_onward hstr hcov, fun other hoth => ?_⟩
  have hlow : run.vcn ≤ other := hcov.1.trans hoth
  have hcovs : (onward run vcn).Covers other ↔ run.Covers other := by
    unfold RunlistElement.Covers onward
    simp only
    omega
  rw [← hself.agrees other hlow, lcnIn_cons, lcnIn_cons, lcnAt_onward hnum hcov]
  simp only [hcovs]

theorem stretch_holeBetween (hlt : start < stop) : Stretch start stop [holeBetween start stop] := by
  have hword : IsS64 lcnHole := by decide
  refine ⟨⟨rfl, sub_pos.mpr hlt, add_sub_cancel start stop⟩, fun run hrun => ?_⟩
  rw [mem_singleton.mp hrun]
  exact hword

/-- A hole between a stretch that agrees with the runs before it and one that agrees with the runs
behind it: the runs with a hole punched into them. -/
theorem Front.punch (hfr : Front runs first start front) (hback : Back runs stop last back)
    (hlt : start < stop) : Stretch first last (front ++ holeBetween start stop :: back) ∧
      ∀ vcn, lcnIn (front ++ holeBetween start stop :: back) vcn =
        if start ≤ vcn ∧ vcn < stop then some lcnHole else lcnIn runs vcn := by
  have hhole := stretch_holeBetween hlt
  have hrest : Stretch start last (holeBetween start stop :: back) := hhole.append hback.stretch
  refine ⟨hfr.stretch.append hrest, fun vcn => ?_⟩
  rw [hfr.stretch.lcnIn_append hrest, ← singleton_append, hhole.lcnIn_append hback.stretch]
  split_ifs with hbef hbeh hin hin hin
  · omega
  · exact hfr.agrees vcn hbef
  · rw [lcnIn_cons, lcnAt_holeBetween, if_pos]
    unfold RunlistElement.Covers holeBetween
    simp only
    omega
  · omega
  · omega
  · exact hback.agrees vcn (by omega)

end

/-! ### The part between two vcns -/

/-- The part of the run between `first` and `stop`, if there is one. -/
def clip (first stop : ℤ) (run : RunlistElement) : Option RunlistElement :=
  let low := max first run.vcn
  let high := min stop (run.vcn + run.length)
  if low < high then some ⟨low, run.lcnAt low, high - low⟩ else none

/-- The runs between `first` and `stop`. -/
def restrict (first stop : ℤ) (runs : List RunlistElement) : List RunlistElement :=
  runs.filterMap (clip first stop)

section

variable {first last start stop vcn : ℤ} {runs before after : List RunlistElement}
  {run : RunlistElement}

theorem restrict_eq_nil (runs : List RunlistElement) (hle : stop ≤ first) :
    restrict first stop runs = [] := by
  refine filterMap_eq_nil_iff.mpr fun run _ => if_neg ?_
  omega

theorem restrict_eq_nil_of_chain (hch : Chain start runs last)
    (hout : last ≤ first ∨ stop ≤ start) : restrict first stop runs = [] := by
  refine filterMap_eq_nil_iff.mpr fun run hrun => if_neg ?_
  obtain ⟨hlow, hlen, hhigh⟩ := hch.mem hrun
  omega

theorem restrict_append (first stop : ℤ) (runs more : List RunlistElement) :
    restrict first stop (runs ++ more) = restrict first stop runs ++ restrict first stop more :=
  filterMap_append ..

theorem restrict_congr (hch : Chain start runs last) (hfst : first ≤ start)
    (hvcn : vcn ≤ start) : restrict first stop runs = restrict vcn stop runs := by
  refine filterMap_congr fun run hrun => ?_
  obtain ⟨hlow, hlen, hhigh⟩ := hch.mem hrun
  unfold clip
  rw [max_eq_right (hfst.trans hlow), max_eq_right (hvcn.trans hlow)]

theorem restrict_cons_of_le (hch : Chain start (run :: runs) last) (hlcn : IsS64 run.lcn)
    (hstop : run.vcn + run.length ≤ stop) :
    restrict start stop (run :: runs) = run :: restrict (start + run.length) stop runs := by
  obtain ⟨rfl, hlen, hrest⟩ := hch
  have hclip : clip run.vcn stop run = some run := by
    unfold clip
    rw [max_self, min_eq_right hstop, if_pos (by omega), run.lcnAt_self hlcn, add_sub_cancel_left]
  rw [restrict, filterMap_cons_some hclip, ← restrict,
    restrict_congr hrest (show run.vcn ≤ run.vcn + run.length by omega) le_rfl]

theorem restrict_cons_of_lt (hch : Chain start (run :: runs) last) (hlcn : IsS64 run.lcn)
    (hlow : run.vcn < stop) (hhigh : stop ≤ run.vcn + run.length) :
    restrict start stop (run :: runs) = [upTo run stop] := by
  obtain ⟨rfl, hlen, hrest⟩ := hch
  have hclip : clip run.vcn stop run = some (upTo run stop) := by
    unfold clip
    rw [max_self, min_eq_left hhigh, if_pos hlow, run.lcnAt_self hlcn]
    rfl
  rw [restrict, filterMap_cons_some hclip, ← restrict, restrict_eq_nil_of_chain hrest (.inr hhigh)]

theorem restrict_append_restrict (hbef : Chain start before vcn) (haft : Chain vcn after last)
    (hlow : first ≤ vcn) (hhigh : vcn ≤ stop) :
    restrict first vcn (before ++ after) ++ restrict vcn stop (before ++ after) =
      restrict first stop (before ++ after) := by
  have hfr : restrict first vcn before = restrict first stop before := by
    refine filterMap_congr fun run hrun => ?_
    obtain ⟨-, -, hend⟩ := hbef.mem hrun
    unfold clip
    rw [min_eq_right hend, min_eq_right (hend.trans hhigh)]
  rw [restrict_append, restrict_append, restrict_append, hfr,
    restrict_eq_nil_of_chain haft (.inr le_rfl), restrict_eq_nil_of_chain hbef (.inl le_rfl),
      append_nil, nil_append,
    restrict_congr haft le_rfl hlow]

/-- Assumes: a part between two vcns of consecutive runs. It is consecutive from the one to the
other. -/
theorem chain_restrict (hch : Chain start runs last) (hlow : start ≤ first) (hle : first ≤ stop)
    (hhigh : stop ≤ last) : Chain first (restrict first stop runs) stop := by
  induction runs generalizing start first with
  | nil =>
    obtain rfl : start = last := hch
    exact le_antisymm hle (hhigh.trans hlow)
  | cons run runs ih =>
    obtain ⟨rfl, hlen, hrest⟩ := hch
    have hclip : clip first stop run = if first < min stop (run.vcn + run.length) then
        some ⟨first, run.lcnAt first, min stop (run.vcn + run.length) - first⟩ else none := by
      unfold clip
      rw [max_eq_left hlow]
    by_cases hbeh : run.vcn + run.length ≤ first
    · rw [if_neg (by omega)] at hclip
      rw [restrict, filterMap_cons_none hclip]
      exact ih hrest hbeh hle
    by_cases hemp : stop ≤ first
    · rw [restrict_eq_nil _ hemp]
      exact le_antisymm hle hemp
    rw [if_pos (by omega)] at hclip
    rw [restrict, filterMap_cons_some hclip, ← restrict]
    refine ⟨rfl, by dsimp only; omega, ?_⟩
    by_cases hin : stop ≤ run.vcn + run.length
    · rw [restrict_eq_nil_of_chain hrest (.inr hin), min_eq_left hin]
      exact add_sub_cancel first stop
    · rw [min_eq_right (by omega), add_sub_cancel, restrict_congr hrest (by omega) le_rfl]
      exact ih hrest le_rfl (by omega)

theorem restrict_self (hch : Chain first runs last) (hlcn : ∀ run ∈ runs, IsS64 run.lcn) :
    restrict first last runs = runs := by
  induction runs generalizing first with
  | nil => rfl
  | cons run runs ih =>
    obtain ⟨hhead, htail⟩ := forall_mem_cons.mp hlcn
    have hend : run.vcn + run.length ≤ last := by
      rw [hch.1]
      exact hch.2.2.le
    rw [restrict_cons_of_le hch hhead hend, ih hch.2.2 htail]

end

/-! ### Whole runlists -/

/-- A runlist as in `Runlist`, possibly without any run: a stretch from vcn zero on and a
terminator. -/
structure RunSequence where
  runs : List RunlistElement
  last : RunlistElement
  stretch : Stretch 0 last.vcn runs
  last_length : last.length = 0
  last_lcn : last.lcn = lcnEnoent ∨ last.lcn = lcnRlNotMapped
  last_vcn_isS64 : IsS64 last.vcn

namespace RunSequence

variable (rl : RunSequence)

def elements : List RunlistElement := rl.runs ++ [rl.last]

theorem last_lcn_neg : rl.last.lcn < 0 := by
  rcases rl.last_lcn with h | h <;> rw [h] <;> decide

theorem last_vcn_nonneg : 0 ≤ rl.last.vcn := rl.stretch.chain.le

@[simp] theorem length_elements : rl.elements.length = rl.runs.length + 1 := by
  simp [elements]

end RunSequence

theorem lookup_of_holds {rl : RunSequence} (hh : block.Holds rl.elements) {vcn : ℤ}
    (hvcn : 0 ≤ vcn) : block.lookup vcn = some ((lcnIn rl.runs vcn).getD rl.last.lcn) := by
  obtain ⟨rest, hrest⟩ := hh.exists_toList
  rw [RlArray.lookup, hrest, RunSequence.elements, append_assoc]
  exact rl.stretch.chain.ntfsRlVcnToLcn_append rl.last_length rl.last_lcn_neg rest hvcn

/-! ### Changing a runlist in memory -/

/-- What a function that changes a runlist leaves: the pointer to its elements and its result. -/
structure Edited where
  rl : Option RlArray
  status : Except Failure Unit

def lookupAt (rl : Option RlArray) (vcn : ℤ) : Option ℤ :=
  ntfsRlVcnToLcn (rl.map RlArray.toList) vcn

section

variable {block : RlArray} {front rest : List RunlistElement} {item : RunlistElement}

theorem elem_of_holds (hh : block.Holds (front ++ item :: rest)) (hi : i = front.length) :
    block.elem i = item := by
  have hcell := ((segment_append _ _ _ _).mp hh.2).2.1
  rwa [Nat.zero_add, ← hi] at hcell

theorem elem_succ_of_holds {first : RunlistElement}
    (hh : block.Holds (front ++ first :: item :: rest)) (hi : i = front.length + 1) :
    block.elem i = item := by
  rw [append_cons] at hh
  exact elem_of_holds hh (by simpa using hi)

theorem holds_store (hh : block.Holds (front ++ item :: rest)) (value : RunlistElement)
    (hi : i = front.length) : (store block i value).Holds (front ++ value :: rest) := by
  refine ⟨by simpa using hh.1, ?_⟩
  have hset := hh.2.update_at value
  rwa [Nat.zero_add, ← hi] at hset

end

/-- The reallocation of a runlist that has become shorter. If it fails, the old block is kept. -/
def shrinkTo (allocator : Allocator) (block : RlArray) (oldSize newSize : ℕ) : RlArray :=
  match ntfsRlRealloc allocator block oldSize newSize with
  | .ok smaller => smaller
  | .error _ => block

theorem holds_shrinkTo (allocator : Allocator) {items : List RunlistElement} {oldSize newSize : ℕ}
    (hroom : pageAlign (oldSize * elementSize) ≤ block.bytes)
    (hseg : Segment block.elem 0 items) (hnew : items.length ≤ newSize)
    (hold : newSize ≤ oldSize) : (shrinkTo allocator block oldSize newSize).Holds items := by
  have hit : pageAlign (items.length * elementSize) ≤ pageAlign (newSize * elementSize) :=
    pageAlign_mono (Nat.mul_le_mul_right _ hnew)
  have hmono : pageAlign (newSize * elementSize) ≤ pageAlign (oldSize * elementSize) :=
    pageAlign_mono (Nat.mul_le_mul_right _ hold)
  have hkept : block.Holds items := ⟨hit.trans (hmono.trans hroom), hseg⟩
  unfold shrinkTo ntfsRlRealloc
  dsimp only
  split_ifs with hpgs hmemo
  · exact hkept
  · refine ⟨hit, hseg.transfer fun i hi => if_pos (le_min ?_ ?_)⟩
    all_goals
      have hidx : (0 + i + 1) * elementSize ≤ newSize * elementSize :=
        Nat.mul_le_mul_right _ (by omega)
      have hle := le_pageAlign (newSize * elementSize)
      omega
  · exact hkept

/-! ### Looking for an element -/

/-- The loop that looks for the element containing `vcn`, by the vcn of the element behind. -/
def seek (vcn : ℤ) (cells : ℕ → RunlistElement) : ℕ → ℕ → Option ℕ
  | 0, _ => none
  | fuel + 1, i =>
    if (cells i).length ≠ 0 ∧ (cells (i + 1)).vcn ≤ vcn then seek vcn cells fuel (i + 1)
    else some i

/-- The search from element `i` on. One that does not stop inside the block runs out of it. -/
def seekFrom (vcn : ℤ) (block : RlArray) (i : ℕ) : Option ℕ :=
  seek vcn block.elem (block.cap - i) i

section

variable {first vcn : ℤ} {cells : ℕ → RunlistElement} {i fuel : ℕ}
  {before after : List RunlistElement} {run next : RunlistElement}

theorem seek_append (hch : Chain first before next.vcn) (hvcn : next.vcn ≤ vcn)
    (hcl : Segment cells i (before ++ [next])) :
    seek vcn cells (fuel + before.length) i = seek vcn cells fuel (i + before.length) := by
  induction before generalizing i first with
  | nil => rfl
  | cons run before ih =>
    obtain ⟨hst, hlen, hrest⟩ := hch
    obtain ⟨hcell, hseg⟩ := hcl
    have hsec : (cells (i + 1)).vcn ≤ vcn := by
      have hle := hrest.le
      cases before with
      | nil =>
        rw [hseg.1]
        exact hvcn
      | cons second before =>
        rw [hseg.1, hrest.1]
        omega
    have hpass : (cells i).length ≠ 0 ∧ (cells (i + 1)).vcn ≤ vcn := by
      rw [hcell]
      exact ⟨hlen.ne', hsec⟩
    rw [length_cons, ← Nat.add_assoc, seek, if_pos hpass, ih hrest hseg]
    congr 1
    omega

/-- Assumes: consecutive elements of which one contains `vcn`. The search stops there. -/
theorem seek_of_covers (hch : Chain first (before ++ run :: after) last.vcn)
    (hcov : run.Covers vcn) (hcl : Segment cells i (before ++ run :: (after ++ [last])))
    (hfuel : before.length < fuel) : seek vcn cells fuel i = some (i + before.length) := by
  obtain ⟨middle, hbef, hvcn, hlen, haft⟩ := (chain_append ..).mp hch
  rw [← hvcn] at hbef
  obtain ⟨more, rfl⟩ := Nat.exists_eq_add_of_lt hfuel
  have hfr : Segment cells i (before ++ [run]) := by
    rw [append_cons, segment_append] at hcl
    exact hcl.1
  have hrest := ((segment_append _ _ _ _).mp hcl).2
  have hnext : vcn < (cells (i + before.length + 1)).vcn := by
    unfold RunlistElement.Covers at hcov
    cases after with
    | nil =>
      rw [chain_nil] at haft
      rw [hrest.2.1]
      omega
    | cons second after =>
      rw [hrest.2.1, haft.1]
      omega
  rw [show before.length + more + 1 = more + 1 + before.length by omega,
    seek_append hbef hcov.1 hfr, seek, if_neg fun h => absurd h.2 (not_le.mpr hnext)]

/-- Assumes: consecutive elements with a terminator at or before `vcn`. The search stops at the
terminator. -/
theorem seek_of_le (hch : Chain first runs last.vcn) (hlast : last.length = 0)
    (hle : last.vcn ≤ vcn) (hcl : Segment cells i (runs ++ [last])) (hfuel : runs.length < fuel) :
    seek vcn cells fuel i = some (i + runs.length) := by
  obtain ⟨more, rfl⟩ := Nat.exists_eq_add_of_lt hfuel
  have hcell := ((segment_append _ _ _ _).mp hcl).2.1
  rw [show runs.length + more + 1 = more + 1 + runs.length by omega,
    seek_append hch hle hcl, seek, if_neg fun h => absurd (hcell ▸ hlast) h.1]

theorem scanFrom_terminator {front : List RunlistElement} {stop : ℤ}
    (hblk : block.Holds (front ++ (runs ++ [last]))) (hch : Chain first runs stop)
    (hlast : last.length = 0) : scanFrom (fun run => run.length = 0) block front.length =
      some (front.length + runs.length) := by
  refine scanFrom_eq _ hblk (fun other hoth => ?_) (decide_eq_true hlast)
  exact decide_eq_false (hch.mem hoth).2.1.ne'

end

end AdvancedOs.Ntfs.RunlistSurgery
