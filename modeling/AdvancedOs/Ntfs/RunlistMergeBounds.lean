import AdvancedOs.Foundation.AccessLogs
import AdvancedOs.Ntfs.RunlistRemapping

/-!
# The bounds of a merge

The routines that merge runs into a runlist size its array for the elements of the combined runlist,
and then read and write single elements by an index. Here they are written once more, step by step,
with a log of every index and of the number of elements that the last reallocation asked for; the
log changes nothing about the result (`value_mergeBlocksLogged`).

A split, an insertion and a replacement always stay inside, and so does the marker code as long as
an element of length zero ends the combined list. An append looks for an end marker behind the
appended runs also when nothing is there, which happens when the source goes behind an unmapped
terminator: `mergesInside_iff` says that this is one of the two ways out of the array, the other
being a source that makes the merge lose the end of the runlist.
-/

namespace AdvancedOs.Ntfs.RunlistMergeBounds

open Foundation.AccessLogs Foundation.AccessLogs.Logged Foundation.ArraySegments
  Foundation.SignedWords RunlistElements RunlistMergeRoutines RunlistMerge RunlistMergeMap
  RunlistRemapping List

/-! ### Arrays with a number of elements -/

/-- A block, and the number of elements that it has been allocated for. -/
structure Counted where
  rl : RlArray
  count : ℕ

namespace Counted

variable (array : Counted)

def load (i : ℕ) : Logged RunlistElement := do
  access array.count i
  pure (array.rl.elem i)

def loadBefore (i : ℕ) : Logged RunlistElement := do
  access array.count (i - 1)
  pure (array.rl.elem (i - 1))

def assign (i : ℕ) (value : RunlistElement) : Logged Counted := do
  access array.count i
  pure { array with rl := store array.rl i value }

def assignBefore (i : ℕ) (value : RunlistElement) : Logged Counted := do
  access array.count (i - 1)
  pure { array with rl := store array.rl (i - 1) value }

def move (dst src size : ℕ) : Logged Counted :=
  if dst ≠ src ∧ 0 < size then do
    accessRange array.count src size
    accessRange array.count dst size
    pure { array with rl := ntfsRlMm array.rl dst src size }
  else pure array

def copy (dst : ℕ) (source : Counted) (src size : ℕ) : Logged Counted :=
  if 0 < size then do
    accessRange source.count src size
    accessRange array.count dst size
    pure { array with rl := ntfsRlMc array.rl dst source.rl src size }
  else pure array

/-- `ntfs_rl_realloc` sets the number of elements. -/
def realloc (allocator : Allocator) (oldSize newSize : ℕ) : Except Failure Counted :=
  match ntfsRlRealloc allocator array.rl oldSize newSize with
  | .ok rl => .ok ⟨rl, newSize⟩
  | .error why => .error why

/-- `ntfs_rl_realloc_nofail` sets the number of elements. -/
def reallocNofail (allocator : Allocator) (oldSize newSize : ℕ) : Counted :=
  ⟨ntfsRlReallocNofail allocator array.rl oldSize newSize, newSize⟩

end Counted

/-! ### The routines with a log -/

section

variable (allocator : Allocator) (dst : Counted) (dsize : ℕ) (src : Counted) (sofs ssize loc : ℕ)

/-- The test whether the last run of the source can be merged with the element behind `loc`. -/
def rightLogged : Logged Bool :=
  if loc + 1 < dsize then do
    let final ← src.load (sofs + (ssize - 1))
    let next ← dst.load (loc + 1)
    pure (ntfsAreRlMergeable final next)
  else pure false

/-- The test whether the element before `loc` can be merged with the first run of the source. -/
def leftLogged : Logged Bool :=
  if 0 < loc then do
    let previous ← dst.loadBefore loc
    let first ← src.load sofs
    pure (ntfsAreRlMergeable previous first)
  else pure false

/-- The element behind `loc` is merged into the last run of the source. -/
def mergeRightLogged (right : Bool) : Logged Counted :=
  if right then do
    let final ← src.load (sofs + (ssize - 1))
    let next ← dst.load (loc + 1)
    src.assign (sofs + (ssize - 1)) (ntfsRlMerge final next)
  else pure src

/-- The first run of the source is merged into the element before `loc`. -/
def mergeLeftLogged (left : Bool) : Logged Counted :=
  if left then do
    let previous ← dst.loadBefore loc
    let first ← src.load sofs
    dst.assignBefore loc (ntfsRlMerge previous first)
  else pure dst

/-- An end marker at `marker` is set to the end of the element before it. -/
def fixMarkerLogged (marker : ℕ) (mark : RunlistElement) : Logged Counted :=
  if mark.lcn = lcnEnoent then do
    let final ← dst.loadBefore marker
    dst.assign marker { mark with vcn := endVcn final }
  else pure dst

/-- The end of an append, which looks for an end marker at `marker`. -/
def closeAppendLogged (marker : ℕ) : Logged (MergeOutcome Counted) := do
  let mark ← dst.load marker
  if dst.rl.bytes < marker * elementSize + lcnEnd then pure (.failed .overrun dst src)
  else
    let dst ← fixMarkerLogged dst marker mark
    pure (.done dst)

def appendLogged : Logged (MergeOutcome Counted) := do
  let right ← rightLogged dst dsize src sofs ssize loc
  match dst.realloc allocator dsize (dsize + ssize - right.toNat) with
  | .error why => pure (.failed why dst src)
  | .ok dst =>
    let src ← mergeRightLogged dst src sofs ssize loc right
    let marker := loc + ssize + 1
    let dst ← dst.move marker (loc + 1 + right.toNat) (dsize - (loc + 1 + right.toNat))
    let dst ← dst.copy (loc + 1) src sofs ssize
    let next ← dst.load (loc + 1)
    let hole ← dst.load loc
    let dst ← dst.assign loc { hole with length := s64 (next.vcn - hole.vcn) }
    closeAppendLogged dst src marker

/-- A gap behind the inserted runs is made to end at the element behind it. -/
def stretchGapLogged (marker : ℕ) : Logged (Except Failure Counted) := do
  let after ← dst.load marker
  if isGap after then
    let next ← dst.load (marker + 1)
    if dst.rl.cap ≤ marker + 1 then pure (.error .overrun)
    else
      let dst ← dst.assign marker { after with length := s64 (next.vcn - after.vcn) }
      pure (.ok dst)
  else pure (.ok dst)

def adjustAfterLogged (marker : ℕ) : Logged (Except Failure Counted) := do
  let final ← dst.loadBefore marker
  let after ← dst.load marker
  let dst ← dst.assign marker { after with vcn := endVcn final }
  stretchGapLogged dst marker

/-- The test whether there is a gap between the element before `loc` and the source. -/
def discLogged (left : Bool) : Logged Bool :=
  if loc = 0 then do
    let first ← src.load sofs
    pure (decide (0 < first.vcn))
  else do
    let previous ← dst.loadBefore loc
    let first ← src.load sofs
    let mergedLength := if left then s64 (previous.length + first.length) else previous.length
    pure (decide (s64 (previous.vcn + mergedLength) < first.vcn))

/-- The gap in front of the source becomes an unmapped run. -/
def fillGapLogged (disc : Bool) : Logged Counted :=
  if disc then
    if 0 < loc then do
      let previous ← dst.loadBefore loc
      let next ← dst.load (loc + 1)
      dst.assign loc ⟨endVcn previous, lcnRlNotMapped, s64 (next.vcn - endVcn previous)⟩
    else do
      let next ← dst.load (loc + 1)
      dst.assign loc ⟨0, lcnRlNotMapped, next.vcn⟩
  else pure dst

def insertLogged : Logged (MergeOutcome Counted) := do
  let left ← leftLogged dst src sofs loc
  let disc ← discLogged dst src sofs loc left
  match dst.realloc allocator dsize (dsize + ssize - left.toNat + disc.toNat) with
  | .error why => pure (.failed why dst src)
  | .ok dst =>
    let dst ← mergeLeftLogged dst src sofs loc left
    let marker := loc + ssize - left.toNat + disc.toNat
    let dst ← dst.move marker loc (dsize - loc)
    let dst ← dst.copy (loc + disc.toNat) src (sofs + left.toNat) (ssize - left.toNat)
    match ← adjustAfterLogged dst marker with
    | .error why => pure (.failed why dst src)
    | .ok dst =>
      let dst ← fillGapLogged dst loc disc
      pure (.done dst)

/-- `growBy` with a number of elements, which stays as it is when the runlist does not get
longer. -/
def growByCounted (delta : ℤ) : Except Failure Counted :=
  if 0 < delta then dst.realloc allocator dsize (dsize + delta.toNat) else .ok dst

def closeReplaceLogged (behind marker : ℕ) : Logged (MergeOutcome Counted) :=
  if 0 < behind then do
    let mark ← dst.load marker
    let dst ← fixMarkerLogged dst marker mark
    pure (.done dst)
  else pure (.done dst)

def replaceLogged : Logged (MergeOutcome Counted) := do
  let right ← rightLogged dst dsize src sofs ssize loc
  let left ← leftLogged dst src sofs loc
  let delta : ℤ := ssize - 1 - left.toNat - right.toNat
  match growByCounted allocator dst dsize delta with
  | .error why => pure (.failed why dst src)
  | .ok dst =>
    let src ← mergeRightLogged dst src sofs ssize loc right
    let dst ← mergeLeftLogged dst src sofs loc left
    let tail := loc + right.toNat + 1
    let marker := loc + ssize - left.toNat
    let dst ← dst.move marker tail (dsize - tail)
    let dst ← dst.copy loc src (sofs + left.toNat) (ssize - left.toNat)
    closeReplaceLogged dst (dsize - tail) marker

/-- The end of a split, which makes the second half of the hole end at the element behind it. -/
def closeSplitLogged (after : ℕ) : Logged (MergeOutcome Counted) := do
  let next ← dst.load (after + 1)
  let hole ← dst.load after
  if dst.rl.cap ≤ after + 1 then pure (.failed .overrun dst src)
  else
    let dst ← dst.assign after { hole with length := s64 (next.vcn - hole.vcn) }
    pure (.done dst)

def splitLogged : Logged (MergeOutcome Counted) :=
  match dst.realloc allocator dsize (dsize + ssize + 1) with
  | .error why => pure (.failed why dst src)
  | .ok dst => do
    let dst ← dst.move (loc + 1 + ssize) loc (dsize - loc)
    let dst ← dst.copy (loc + 1) src sofs ssize
    let next ← dst.load (loc + 1)
    let hole ← dst.load loc
    let dst ← dst.assign loc { hole with length := s64 (next.vcn - hole.vcn) }
    let final ← dst.load (loc + ssize)
    let after ← dst.load (loc + ssize + 1)
    let dst ← dst.assign (loc + ssize + 1) { after with vcn := endVcn final }
    closeSplitLogged dst src (loc + ssize + 1)

def mergeRoutineLogged (start finish : Bool) : Logged (MergeOutcome Counted) :=
  match start, finish with
  | true, true => replaceLogged allocator dst dsize src sofs ssize loc
  | true, false => insertLogged allocator dst dsize src sofs ssize loc
  | false, true => appendLogged allocator dst dsize src sofs ssize loc
  | false, false => splitLogged allocator dst dsize src sofs ssize loc

/-- A forward scan with a log. Behind the last element of the block it reads one more. -/
def scanLogged (stop : RunlistElement → Bool) (array : Counted) : ℕ → ℕ → Logged (Option ℕ)
  | 0, i => do
    access array.count i
    pure none
  | fuel + 1, i => do
    let run ← array.load i
    if stop run then pure (some i) else scanLogged stop array fuel (i + 1)

/-- The unmapped element at `ds` gets its length, and the terminator goes behind it, into a slot if
there is one left. -/
def addEndLogged (drl : Counted) (ds slots : ℕ) (markerVcn : ℤ) :
    Logged (MergeOutcome Counted) := do
  let run ← drl.load ds
  let drl ← drl.assign ds { run with length := s64 (markerVcn - run.vcn) }
  let drl := if slots = 0 then drl.reallocNofail allocator (ds + 1) (ds + 1 + 1) else drl
  let drl ← drl.assign (ds + 1) ⟨markerVcn, lcnEnoent, 0⟩
  pure (.done drl)

def unmapLogged (drl : Counted) (ds : ℕ) : Logged Counted := do
  let run ← drl.load ds
  drl.assign ds { run with lcn := lcnRlNotMapped }

def moveEndLogged (drl : Counted) (ds slots : ℕ) (markerVcn : ℤ) :
    Logged (MergeOutcome Counted) := do
  let run ← drl.load ds
  if run.lcn = lcnRlNotMapped then addEndLogged allocator drl ds slots markerVcn
  else if slots = 0 then
    let drl := drl.reallocNofail allocator ds (ds + 2)
    let previous ← drl.loadBefore (ds + 1)
    let added ← drl.load (ds + 1)
    let drl ← drl.assign (ds + 1) { added with vcn := endVcn previous }
    let drl ← unmapLogged drl (ds + 1)
    addEndLogged allocator drl (ds + 1) 1 markerVcn
  else
    let drl ← unmapLogged drl (ds + 1)
    addEndLogged allocator drl (ds + 1) (slots - 1) markerVcn

def placeMarkerLogged (drl : Counted) (ds : ℕ) (markerVcn : ℤ) : Logged (MergeOutcome Counted) := do
  let last ← drl.load ds
  if markerVcn < last.vcn then pure (.done drl)
  else if last.vcn = markerVcn then
    let drl ← drl.assign ds { last with lcn := lcnEnoent }
    pure (.done drl)
  else if last.lcn = lcnEnoent then
    let _ ← drl.loadBefore ds
    moveEndLogged allocator drl (ds - 1) 1 markerVcn
  else moveEndLogged allocator drl ds 0 markerVcn

def fixEndMarkerLogged (drl srl : Counted) (dend : ℕ) (markerVcn : ℤ) :
    Logged (MergeOutcome Counted) := do
  match ← scanLogged (fun run => run.length = 0) drl (drl.rl.cap - dend) dend with
  | none => pure (.failed .overrun drl srl)
  | some ds => placeMarkerLogged allocator drl ds markerVcn

/-- `mergeAt` with a log of the four routines and the marker code. -/
def mergeAtLogged (drl srl : Counted) (sstart send dins dend : ℕ) :
    Logged (MergeOutcome Counted) := do
  let marker := if (srl.rl.elem send).lcn = lcnEnoent then send else 0
  let markerVcn := (srl.rl.elem send).vcn
  let run := drl.rl.elem dins
  let final := srl.rl.elem (send - 1)
  let start := decide (run.lcn < lcnRlNotMapped ∨ run.vcn = (srl.rl.elem sstart).vcn)
  let finish := decide (lcnRlNotMapped ≤ run.lcn ∧ endVcn run ≤ endVcn final)
  let ss := mappedEnd srl.rl.elem (send + 1) - sstart + (if finish ∧ run.length = 0 then 1 else 0)
  let finish := finish && !decide (marker ≠ 0 ∧ final.vcn < endVcn run)
  match ← mergeRoutineLogged allocator drl (dend + 1) srl sstart ss dins start finish with
  | .failed why drl srl => pure (.failed why drl srl)
  | .done rl =>
    if marker ≠ 0 then fixEndMarkerLogged allocator rl srl dend markerVcn else pure (.done rl)

/-- `mergeBlocks` with a log of the four routines and the marker code. -/
def mergeBlocksLogged (drl srl : Counted) : Logged (MergeOutcome Counted) :=
  match scanFrom (fun run => run.length = 0 ∨ lcnHole ≤ run.lcn) srl.rl 0 with
  | none => pure (.failed .overrun drl srl)
  | some sstart =>
    let first := srl.rl.elem sstart
    if first.length = 0 then pure (.failed .bug drl srl)
    else match scanFrom (fun run => run.length = 0 ∨ first.vcn < endVcn run) drl.rl 0 with
    | none => pure (.failed .overrun drl srl)
    | some dins =>
      let run := drl.rl.elem dins
      if run.vcn = first.vcn ∧ 0 ≤ run.lcn ∧ 0 ≤ first.lcn then
        pure (.failed (.errno .erange) drl srl)
      else match scanFrom (fun run => run.length = 0) srl.rl sstart,
          scanFrom (fun run => run.length = 0) drl.rl dins with
        | some send, some dend => mergeAtLogged allocator drl srl sstart send dins dend
        | _, _ => pure (.failed .overrun drl srl)

end

/-! ### The routines do what they do without a log -/

def erase : MergeOutcome Counted → MergeOutcome RlArray
  | .done array => .done array.rl
  | .failed why drl srl => .failed why drl.rl srl.rl

@[simp] theorem erase_done (array : Counted) : erase (.done array) = .done array.rl := rfl

@[simp] theorem erase_failed (why : Failure) (drl srl : Counted) :
    erase (.failed why drl srl) = .failed why drl.rl srl.rl := rfl

@[simp] theorem erase_ite (guard : Prop) [Decidable guard] (first second : MergeOutcome Counted) :
    erase (if guard then first else second) = if guard then erase first else erase second :=
  apply_ite erase guard first second

variable {drl srl : Counted} {dend ds marker fuel i slots : ℕ} {left : Bool}
  {before rest : List RunlistElement} {run : RunlistElement} {markerVcn : ℤ} {dst : Runlist}
  {src : Source}

section

variable (allocator : Allocator) (dst : Counted) (dsize : ℕ) (src : Counted) (sofs ssize loc : ℕ)

@[simp] theorem value_load (i : ℕ) : (dst.load i).value = dst.rl.elem i := rfl

@[simp] theorem value_loadBefore (i : ℕ) : (dst.loadBefore i).value = dst.rl.elem (i - 1) := rfl

@[simp] theorem value_assignBefore (i : ℕ) (value : RunlistElement) :
    (dst.assignBefore i value).value = ⟨store dst.rl (i - 1) value, dst.count⟩ := rfl

@[simp] theorem value_assign (i : ℕ) (value : RunlistElement) :
    (dst.assign i value).value = ⟨store dst.rl i value, dst.count⟩ := rfl

@[simp] theorem value_move (to' from' size : ℕ) :
    (dst.move to' from' size).value = ⟨ntfsRlMm dst.rl to' from' size, dst.count⟩ := by
  unfold Counted.move
  split_ifs with hmove
  · rfl
  · unfold ntfsRlMm
    rw [if_neg hmove]
    rfl

@[simp] theorem value_copy (to' : ℕ) (source : Counted) (from' size : ℕ) :
    (dst.copy to' source from' size).value = ⟨ntfsRlMc dst.rl to' source.rl from' size,
      dst.count⟩ := by
  unfold Counted.copy
  split_ifs with hcopy
  · rfl
  · unfold ntfsRlMc
    rw [if_neg hcopy]
    rfl

theorem realloc_eq (oldSize newSize : ℕ) : dst.realloc allocator oldSize newSize =
    (ntfsRlRealloc allocator dst.rl oldSize newSize).map fun rl => ⟨rl, newSize⟩ := by
  rw [Counted.realloc]
  cases ntfsRlRealloc allocator dst.rl oldSize newSize <;> rfl

theorem growByCounted_eq (delta : ℤ) : growByCounted allocator dst dsize delta =
    (growBy allocator dst.rl dsize delta).map fun rl =>
      ⟨rl, if 0 < delta then dsize + delta.toNat else dst.count⟩ := by
  unfold growByCounted growBy
  split_ifs
  · exact realloc_eq allocator dst dsize _
  · rfl

@[simp] theorem value_rightLogged : (rightLogged dst dsize src sofs ssize loc).value =
    (decide (loc + 1 < dsize) &&
      ntfsAreRlMergeable (src.rl.elem (sofs + (ssize - 1))) (dst.rl.elem (loc + 1))) := by
  unfold rightLogged
  split_ifs with hbeh
  · rw [decide_eq_true hbeh]
    rfl
  · rw [decide_eq_false hbeh]
    rfl

@[simp] theorem value_leftLogged : (leftLogged dst src sofs loc).value =
    (decide (0 < loc) && ntfsAreRlMergeable (dst.rl.elem (loc - 1)) (src.rl.elem sofs)) := by
  unfold leftLogged
  split_ifs with hbef
  · rw [decide_eq_true hbef]
    rfl
  · rw [decide_eq_false hbef]
    rfl

@[simp] theorem value_mergeRightLogged (right : Bool) :
    (mergeRightLogged dst src sofs ssize loc right).value =
      ⟨if right then store src.rl (sofs + (ssize - 1))
        (ntfsRlMerge (src.rl.elem (sofs + (ssize - 1))) (dst.rl.elem (loc + 1))) else src.rl,
        src.count⟩ := by
  cases right <;> rfl

@[simp] theorem value_mergeLeftLogged (left : Bool) :
    (mergeLeftLogged dst src sofs loc left).value = ⟨if left then store dst.rl (loc - 1)
        (ntfsRlMerge (dst.rl.elem (loc - 1)) (src.rl.elem sofs)) else dst.rl, dst.count⟩ := by
  cases left <;> rfl

@[simp] theorem value_fixMarkerLogged (marker : ℕ) (mark : RunlistElement) :
    (fixMarkerLogged dst marker mark).value = ⟨if mark.lcn = lcnEnoent then
        store dst.rl marker { mark with vcn := endVcn (dst.rl.elem (marker - 1)) } else dst.rl,
        dst.count⟩ := by
  unfold fixMarkerLogged
  split_ifs <;> rfl

@[simp] theorem value_closeAppendLogged (marker : ℕ) :
    (closeAppendLogged dst src marker).value =
      if dst.rl.bytes < marker * elementSize + lcnEnd then .failed .overrun dst src
      else .done ⟨if (dst.rl.elem marker).lcn = lcnEnoent then
        store dst.rl marker
          { dst.rl.elem marker with vcn := endVcn (dst.rl.elem (marker - 1)) } else dst.rl,
        dst.count⟩ := by
  simp only [closeAppendLogged, value_bind, value_load, value_ite, value_pure,
    value_fixMarkerLogged]

@[simp] theorem value_closeReplaceLogged (behind marker : ℕ) :
    (closeReplaceLogged dst behind marker).value =
      .done ⟨if 0 < behind ∧ (dst.rl.elem marker).lcn = lcnEnoent then
        store dst.rl marker
          { dst.rl.elem marker with vcn := endVcn (dst.rl.elem (marker - 1)) } else dst.rl,
        dst.count⟩ := by
  simp only [closeReplaceLogged, value_bind, value_load, value_ite, value_pure,
    value_fixMarkerLogged, ite_and]
  split_ifs <;> rfl

@[simp] theorem value_closeSplitLogged (after : ℕ) :
    (closeSplitLogged dst src after).value =
      if dst.rl.cap ≤ after + 1 then .failed .overrun dst src
      else .done ⟨store dst.rl after { dst.rl.elem after with
        length := s64 ((dst.rl.elem (after + 1)).vcn - (dst.rl.elem after).vcn) }, dst.count⟩ := by
  simp only [closeSplitLogged, value_bind, value_load, value_assign, value_ite, value_pure]

@[simp] theorem value_stretchGapLogged (marker : ℕ) :
    (stretchGapLogged dst marker).value = Except.map (fun rl => ⟨rl, dst.count⟩)
      (if isGap (dst.rl.elem marker) then
        if dst.rl.cap ≤ marker + 1 then .error .overrun
        else .ok (store dst.rl marker { dst.rl.elem marker with
          length := s64 ((dst.rl.elem (marker + 1)).vcn - (dst.rl.elem marker).vcn) })
      else .ok dst.rl) := by
  unfold stretchGapLogged
  rw [value_bind, value_load]
  simp only [value_bind, value_load, value_assign, value_ite, value_pure]
  split_ifs <;> rfl

@[simp] theorem value_adjustAfterLogged (marker : ℕ) :
    (adjustAfterLogged dst marker).value = (adjustAfter dst.rl marker).map fun rl =>
      ⟨rl, dst.count⟩ := by
  simp only [adjustAfterLogged, adjustAfter, value_bind, value_load, value_loadBefore, value_assign,
    value_stretchGapLogged]

@[simp] theorem value_discLogged (left : Bool) :
    (discLogged dst src sofs loc left).value =
      if loc = 0 then decide (0 < (src.rl.elem sofs).vcn)
      else decide (s64 ((dst.rl.elem (loc - 1)).vcn +
        (if left then s64 ((dst.rl.elem (loc - 1)).length + (src.rl.elem sofs).length)
          else (dst.rl.elem (loc - 1)).length)) < (src.rl.elem sofs).vcn) := by
  unfold discLogged
  split_ifs <;> rfl

@[simp] theorem value_fillGapLogged (disc : Bool) :
    (fillGapLogged dst loc disc).value = ⟨if disc then
        store dst.rl loc ⟨if 0 < loc then endVcn (dst.rl.elem (loc - 1)) else 0, lcnRlNotMapped,
          if 0 < loc then
            s64 ((dst.rl.elem (loc + 1)).vcn - (if 0 < loc then
            endVcn (dst.rl.elem (loc - 1)) else 0))
          else (dst.rl.elem (loc + 1)).vcn⟩ else dst.rl, dst.count⟩ := by
  unfold fillGapLogged
  split_ifs <;> rfl

theorem value_insertLogged :
    erase (insertLogged allocator dst dsize src sofs ssize loc).value =
      ntfsRlInsert allocator dst.rl dsize src.rl sofs ssize loc := by
  rw [insertLogged, ntfsRlInsert, value_bind, value_leftLogged, value_bind, value_discLogged]
  generalize (decide (0 < loc) && _) = left
  generalize (if loc = 0 then _ else _) = disc
  cases hreal : ntfsRlRealloc allocator dst.rl dsize
      (dsize + ssize - left.toNat + disc.toNat) with
  | error why =>
    rw [realloc_eq, hreal]
    rfl
  | ok block =>
    simp only [realloc_eq, hreal, Except.map, value_bind, value_mergeLeftLogged, value_move,
      value_copy, value_adjustAfterLogged]
    generalize ntfsRlMc _ _ _ _ _ = moved
    cases adjustAfter moved (loc + ssize - left.toNat + disc.toNat) with
    | error why => rfl
    | ok adjusted =>
      simp only [value_bind, value_fillGapLogged, value_pure, erase_done]

theorem value_appendLogged :
    erase (appendLogged allocator dst dsize src sofs ssize loc).value =
      ntfsRlAppend allocator dst.rl dsize src.rl sofs ssize loc := by
  rw [appendLogged, ntfsRlAppend, value_bind, value_rightLogged]
  generalize (decide (loc + 1 < dsize) && _) = right
  cases hreal : ntfsRlRealloc allocator dst.rl dsize (dsize + ssize - right.toNat) with
  | error why =>
    rw [realloc_eq, hreal]
    rfl
  | ok block =>
    simp only [realloc_eq, hreal, Except.map, value_bind, value_mergeRightLogged, value_move,
      value_copy, value_load, value_assign, value_closeAppendLogged, erase_ite, erase_done,
      erase_failed]

theorem value_replaceLogged :
    erase (replaceLogged allocator dst dsize src sofs ssize loc).value =
      ntfsRlReplace allocator dst.rl dsize src.rl sofs ssize loc := by
  rw [replaceLogged, ntfsRlReplace, value_bind, value_rightLogged, value_bind, value_leftLogged]
  dsimp only
  generalize (decide (loc + 1 < dsize) && _) = right
  generalize (decide (0 < loc) && _) = left
  rw [growByCounted_eq]
  cases growBy allocator dst.rl dsize (ssize - 1 - left.toNat - right.toNat) with
  | error why => rfl
  | ok block =>
    simp only [Except.map, value_bind, value_mergeRightLogged, value_mergeLeftLogged, value_move,
      value_copy, value_closeReplaceLogged, erase_done]

theorem value_splitLogged :
    erase (splitLogged allocator dst dsize src sofs ssize loc).value =
      ntfsRlSplit allocator dst.rl dsize src.rl sofs ssize loc := by
  rw [splitLogged, ntfsRlSplit]
  cases hreal : ntfsRlRealloc allocator dst.rl dsize (dsize + ssize + 1) with
  | error why =>
    rw [realloc_eq, hreal]
    rfl
  | ok block =>
    simp only [realloc_eq, hreal, Except.map, value_bind, value_move, value_copy, value_load,
      value_assign, value_closeSplitLogged, erase_ite, erase_done, erase_failed]

theorem value_scanLogged (stop : RunlistElement → Bool) (fuel i : ℕ) :
    (scanLogged stop dst fuel i).value = scan stop dst.rl.elem fuel i := by
  induction fuel generalizing i with
  | zero => rfl
  | succ fuel ih =>
    rw [scanLogged, scan, value_bind, value_load, value_ite, ih]
    rfl

theorem value_mergeRoutineLogged (start finish : Bool) :
    erase (mergeRoutineLogged allocator dst dsize src sofs ssize loc start finish).value =
      mergeRoutine start finish allocator dst.rl dsize src.rl sofs ssize loc := by
  cases start <;> cases finish
  · exact value_splitLogged allocator dst dsize src sofs ssize loc
  · exact value_appendLogged allocator dst dsize src sofs ssize loc
  · exact value_insertLogged allocator dst dsize src sofs ssize loc
  · exact value_replaceLogged allocator dst dsize src sofs ssize loc

theorem value_addEndLogged (drl : Counted) (ds slots : ℕ) (markerVcn : ℤ) :
    erase (addEndLogged allocator drl ds slots markerVcn).value =
      let drl := store drl.rl ds
        { drl.rl.elem ds with length := s64 (markerVcn - (drl.rl.elem ds).vcn) }
      let drl := if slots = 0 then ntfsRlReallocNofail allocator drl (ds + 1) (ds + 1 + 1) else drl
      .done (store drl (ds + 1) ⟨markerVcn, lcnEnoent, 0⟩) := by
  unfold addEndLogged
  by_cases hslots : slots = 0
  · simp only [if_pos hslots]
    rfl
  · simp only [if_neg hslots]
    rfl

theorem value_placeMarkerLogged (srl : RlArray) (markerVcn : ℤ)
    (hscan : scanFrom (fun run => run.length = 0) drl.rl dend = some ds) :
    erase (placeMarkerLogged allocator drl ds markerVcn).value =
      fixEndMarker allocator drl.rl srl dend markerVcn := by
  rw [placeMarkerLogged, value_bind, value_load]
  by_cases hlt : markerVcn < (drl.rl.elem ds).vcn
  · simp only [fixEndMarker, hscan, if_pos hlt]
    rfl
  by_cases heq : (drl.rl.elem ds).vcn = markerVcn
  · simp only [fixEndMarker, hscan, if_neg hlt, if_pos heq]
    rfl
  rw [if_neg hlt, if_neg heq]
  by_cases hend : (drl.rl.elem ds).lcn = lcnEnoent
  · rw [if_pos hend, value_bind, moveEndLogged, value_bind, value_load]
    by_cases hopen : (drl.rl.elem (ds - 1)).lcn = lcnRlNotMapped
    · rw [if_pos hopen, value_addEndLogged]
      simp [fixEndMarker, hscan, hlt, heq, hend, hopen]
    · rw [if_neg hopen, if_neg one_ne_zero, value_bind, value_addEndLogged]
      simp [fixEndMarker, hscan, hlt, heq, hend, hopen, unmapLogged]
  · rw [if_neg hend, moveEndLogged, value_bind, value_load]
    by_cases hopen : (drl.rl.elem ds).lcn = lcnRlNotMapped
    · have hoth : lcnRlNotMapped ≠ lcnEnoent := by decide
      rw [if_pos hopen, value_addEndLogged]
      simp [fixEndMarker, hscan, hlt, heq, hopen, hoth]
    · rw [if_neg hopen, if_pos rfl]
      simp [fixEndMarker, hscan, hlt, heq, hend, hopen, value_addEndLogged, unmapLogged,
        Counted.reallocNofail]

theorem value_fixEndMarkerLogged (drl srl : Counted) (dend : ℕ) (markerVcn : ℤ) :
    erase (fixEndMarkerLogged allocator drl srl dend markerVcn).value =
      fixEndMarker allocator drl.rl srl.rl dend markerVcn := by
  rw [fixEndMarkerLogged, value_bind, value_scanLogged]
  change erase (Logged.value (match scanFrom _ drl.rl dend with
    | none => _
    | some ds => _)) = _
  cases hscan : scanFrom (fun run => decide (run.length = 0)) drl.rl dend with
  | none =>
    rw [fixEndMarker, hscan]
    rfl
  | some ds => exact value_placeMarkerLogged allocator srl.rl markerVcn hscan

theorem value_mergeAtLogged (drl srl : Counted) (sstart send dins dend : ℕ) :
    erase (mergeAtLogged allocator drl srl sstart send dins dend).value =
      mergeAt allocator drl.rl srl.rl sstart send dins dend := by
  unfold mergeAtLogged mergeAt
  rw [value_bind]
  dsimp only
  rw [← value_mergeRoutineLogged]
  cases (mergeRoutineLogged allocator drl (dend + 1) srl sstart _ dins _ _).value with
  | failed why drl srl => rfl
  | done rl =>
    rw [value_ite, erase_ite, value_fixEndMarkerLogged]
    rfl

/-- The merge with a log has the result of the merge without one. -/
theorem value_mergeBlocksLogged (drl srl : Counted) :
    erase (mergeBlocksLogged allocator drl srl).value = mergeBlocks allocator drl.rl srl.rl := by
  unfold mergeBlocksLogged mergeBlocks
  cases scanFrom (fun run => run.length = 0 ∨ lcnHole ≤ run.lcn) srl.rl 0 with
  | none => rfl
  | some sstart =>
    rw [value_ite, erase_ite]
    congr 1
    cases scanFrom (fun run => run.length = 0 ∨ (srl.rl.elem sstart).vcn < endVcn run) drl.rl 0 with
    | none => rfl
    | some dins =>
      rw [value_ite, erase_ite]
      congr 1
      cases scanFrom (fun run => run.length = 0) srl.rl sstart with
      | none => rfl
      | some send =>
        cases scanFrom (fun run => run.length = 0) drl.rl dins with
        | none => rfl
        | some dend => exact value_mergeAtLogged allocator drl srl sstart send dins dend

end

/-! ### The number of elements afterwards -/

def HasCount (count : ℕ) : MergeOutcome Counted → Prop
  | .done array => array.count = count
  | .failed _ _ _ => True

section

variable (allocator : Allocator) (dst : Counted) (dsize : ℕ) (src : Counted) (sofs ssize loc : ℕ)

theorem hasCount_splitLogged :
    HasCount (dsize + ssize + 1) (splitLogged allocator dst dsize src sofs ssize loc).value := by
  rw [splitLogged, realloc_eq]
  cases ntfsRlRealloc allocator dst.rl dsize (dsize + ssize + 1) with
  | error why => trivial
  | ok block =>
    simp only [Except.map, value_bind, value_move, value_copy, value_assign, value_closeSplitLogged]
    split_ifs <;> trivial

variable {dst src sofs} {before runs rest : List RunlistElement} {run : RunlistElement}
  (hdst : dst.rl.Holds (before ++ run :: rest)) (hsrc : Segment src.rl.elem sofs runs)
  (hruns : runs ≠ [])
include hdst hsrc hruns

theorem hasCount_appendLogged :
    HasCount ((before ++ run :: rest).length + runs.length - (meets runs rest).toNat)
      (appendLogged allocator dst (before ++ run :: rest).length src sofs runs.length
      before.length).value := by
  rw [appendLogged, value_bind, value_rightLogged, right_eq_meets hdst.2 hsrc hruns, realloc_eq]
  cases ntfsRlRealloc allocator dst.rl _ _ with
  | error why => trivial
  | ok block =>
    simp only [Except.map, value_bind, value_mergeRightLogged, value_move, value_copy, value_assign,
      value_closeAppendLogged]
    split_ifs <;> trivial

theorem hasCount_replaceLogged (hcnt : dst.count = (before ++ run :: rest).length) :
    HasCount (max (before ++ run :: rest).length (replaceRuns before runs rest).length)
      (replaceLogged allocator dst (before ++ run :: rest).length src sofs runs.length
      before.length).value := by
  have hlen := length_replaceRuns before hruns rest
  rw [replaceLogged]
  rw [value_bind, value_rightLogged, right_eq_meets hdst.2 hsrc hruns, value_bind, value_leftLogged,
    left_eq_meets hdst.2 hsrc hruns]
  dsimp only
  rw [growByCounted_eq]
  cases growBy allocator dst.rl _ _ with
  | error why => trivial
  | ok block =>
    simp only [Except.map, value_bind, value_mergeRightLogged, value_mergeLeftLogged, value_move,
      value_copy, value_closeReplaceLogged, HasCount]
    have harou := length_around before run rest
    split_ifs <;> omega

theorem hasCount_insertLogged (hhead : ∀ first ∈ runs.head?,
    first.lcn ≠ lcnRlNotMapped ∧ first.vcn ≤ endVcn first) :
    HasCount (insertRuns before run runs rest).length
      (insertLogged allocator dst (before ++ run :: rest).length src sofs runs.length
      before.length).value := by
  rw [length_insertRuns, insertLogged]
  rw [value_bind, value_bind, value_discLogged, value_leftLogged, left_eq_meets hdst.2 hsrc hruns,
    disc_eq_leavesGap hdst.2 hsrc hruns hhead]
  rw [realloc_eq]
  cases ntfsRlRealloc allocator dst.rl _ _ with
  | error why => trivial
  | ok block =>
    simp only [Except.map, value_bind, value_mergeLeftLogged, value_move, value_copy,
      value_adjustAfterLogged]
    cases adjustAfter _ _ with
    | error why => trivial
    | ok adjusted =>
      simp only [value_bind, value_fillGapLogged]
      rfl

end

/-! ### The bounds of the routines -/

section

variable (allocator : Allocator) (dst : Counted) (dsize : ℕ) (src : Counted) (sofs ssize loc : ℕ)

@[simp] theorem inside_load (i : ℕ) : Inside (dst.load i) ↔ i < dst.count := by
  simp [Counted.load, inside_bind]

@[simp] theorem inside_loadBefore (i : ℕ) : Inside (dst.loadBefore i) ↔ 0 < i ∧ i ≤ dst.count := by
  simp [Counted.loadBefore, inside_bind]
  omega

@[simp] theorem inside_assign (i : ℕ) (value : RunlistElement) :
    Inside (dst.assign i value) ↔ i < dst.count := by
  simp [Counted.assign, inside_bind]

@[simp] theorem inside_assignBefore (i : ℕ) (value : RunlistElement) :
    Inside (dst.assignBefore i value) ↔ 0 < i ∧ i ≤ dst.count := by
  simp [Counted.assignBefore, inside_bind]
  omega

@[simp] theorem inside_move (to' from' size : ℕ) :
    Inside (dst.move to' from' size) ↔
      (to' ≠ from' → 0 < size → from' + size ≤ dst.count ∧ to' + size ≤ dst.count) := by
  unfold Counted.move
  split_ifs with hmove
  · simp [inside_bind, hmove]
  · simp
    omega

@[simp] theorem inside_copy (to' : ℕ) (source : Counted) (from' size : ℕ) :
    Inside (dst.copy to' source from' size) ↔
      (0 < size → from' + size ≤ source.count ∧ to' + size ≤ dst.count) := by
  unfold Counted.copy
  split_ifs with hcopy
  · simp [inside_bind, hcopy]
  · simp
    omega

variable {dst dsize src sofs ssize loc}

theorem inside_rightLogged (hdst : dsize ≤ dst.count) (hsrc : sofs + ssize ≤ src.count)
    (hssize : 0 < ssize) : Inside (rightLogged dst dsize src sofs ssize loc) := by
  unfold rightLogged
  split_ifs with hbeh
  · simp only [inside_bind, inside_load, inside_pure, and_true]
    omega
  · exact inside_pure _

theorem lt_of_rightLogged (h : (rightLogged dst dsize src sofs ssize loc).value = true) :
    loc + 1 < dsize := by
  rw [value_rightLogged] at h
  exact of_decide_eq_true (Bool.and_eq_true_iff.mp h).1

theorem pos_of_leftLogged (h : (leftLogged dst src sofs loc).value = true) : 0 < loc := by
  rw [value_leftLogged] at h
  exact of_decide_eq_true (Bool.and_eq_true_iff.mp h).1

theorem inside_leftLogged (hloc : loc < dst.count) (hsofs : sofs < src.count) :
    Inside (leftLogged dst src sofs loc) := by
  unfold leftLogged
  split_ifs with hbef
  · simp only [inside_bind, inside_load, inside_loadBefore, inside_pure, and_true]
    omega
  · exact inside_pure _

theorem inside_mergeRightLogged {right : Bool} (hsrc : sofs + ssize ≤ src.count)
    (hssize : 0 < ssize) (hright : right = true → loc + 1 < dst.count) :
    Inside (mergeRightLogged dst src sofs ssize loc right) := by
  unfold mergeRightLogged
  split_ifs with hmrg
  · have hnext := hright hmrg
    simp only [inside_bind, inside_load, inside_assign]
    omega
  · exact inside_pure _

theorem inside_mergeLeftLogged (hloc : loc < dst.count) (hsofs : sofs < src.count)
    (hleft : left = true → 0 < loc) : Inside (mergeLeftLogged dst src sofs loc left) := by
  unfold mergeLeftLogged
  split_ifs with hmrg
  · have hbef := hleft hmrg
    simp only [inside_bind, inside_load, inside_loadBefore, inside_assignBefore]
    omega
  · exact inside_pure _

theorem inside_fixMarkerLogged (mark : RunlistElement) (hpos : 0 < marker)
    (hmrk : marker < dst.count) : Inside (fixMarkerLogged dst marker mark) := by
  unfold fixMarkerLogged
  split_ifs
  · simp only [inside_bind, inside_loadBefore, inside_assign]
    omega
  · exact inside_pure _

theorem inside_closeAppendLogged (hpos : 0 < marker) :
    Inside (closeAppendLogged dst src marker) ↔ marker < dst.count := by
  unfold closeAppendLogged
  rw [inside_bind, inside_load, and_iff_left_iff_imp]
  intro hmrk
  split_ifs
  · exact inside_pure _
  · rw [inside_bind]
    exact ⟨inside_fixMarkerLogged _ hpos hmrk, inside_pure _⟩

theorem inside_closeReplaceLogged {behind : ℕ} (hpos : 0 < marker)
    (hmrk : 0 < behind → marker < dst.count) : Inside (closeReplaceLogged dst behind marker) := by
  unfold closeReplaceLogged
  split_ifs with hbeh
  · rw [inside_bind, inside_load, inside_bind]
    exact ⟨hmrk hbeh, inside_fixMarkerLogged _ hpos (hmrk hbeh), inside_pure _⟩
  · exact inside_pure _

theorem inside_closeSplitLogged {after : ℕ} (haft : after + 1 < dst.count) :
    Inside (closeSplitLogged dst src after) := by
  unfold closeSplitLogged
  rw [inside_bind, inside_load, inside_bind, inside_load]
  refine ⟨haft, by omega, ?_⟩
  split_ifs
  · exact inside_pure _
  · rw [inside_bind, inside_assign]
    exact ⟨by omega, inside_pure _⟩

theorem inside_stretchGapLogged (hmrk : marker < dst.count)
    (hgap : isGap (dst.rl.elem marker) = true → marker + 1 < dst.count) :
    Inside (stretchGapLogged dst marker) := by
  unfold stretchGapLogged
  rw [inside_bind, inside_load, value_load]
  refine ⟨hmrk, ?_⟩
  by_cases hstr : isGap (dst.rl.elem marker) = true
  · rw [if_pos hstr, inside_bind, inside_load]
    refine ⟨hgap hstr, ?_⟩
    split_ifs
    · exact inside_pure _
    · rw [inside_bind, inside_assign]
      exact ⟨hmrk, inside_pure _⟩
  · rw [if_neg hstr]
    exact inside_pure _

theorem inside_adjustAfterLogged (hpos : 0 < marker) (hmrk : marker < dst.count)
    (hgap : isGap (dst.rl.elem marker) = true → marker + 1 < dst.count) :
    Inside (adjustAfterLogged dst marker) := by
  unfold adjustAfterLogged
  simp only [inside_bind, inside_loadBefore, inside_load, inside_assign, value_loadBefore,
    value_load, value_assign]
  refine ⟨⟨hpos, by omega⟩, hmrk, hmrk, inside_stretchGapLogged hmrk fun h => hgap ?_⟩
  simpa [isGap] using h

theorem inside_discLogged (hloc : loc < dst.count) (hsofs : sofs < src.count) :
    Inside (discLogged dst src sofs loc left) := by
  unfold discLogged
  split_ifs with hfst
  · simp only [inside_bind, inside_load, inside_pure, and_true]
    omega
  · simp only [inside_bind, inside_load, inside_loadBefore, inside_pure, and_true]
    omega
  · simp only [inside_bind, inside_load, inside_loadBefore, inside_pure, and_true]
    omega

theorem inside_fillGapLogged {disc : Bool} (hnext : disc = true → loc + 1 < dst.count) :
    Inside (fillGapLogged dst loc disc) := by
  unfold fillGapLogged
  split_ifs with hdisc
  · have hbeh := hnext hdisc
    simp only [inside_bind, inside_load, inside_loadBefore, inside_assign]
    omega
  · have hbeh := hnext hdisc
    simp only [inside_bind, inside_load, inside_assign]
    omega
  · exact inside_pure _

theorem inside_splitLogged (hsrc : sofs + ssize ≤ src.count) (hloc : loc + 1 < dsize) :
    Inside (splitLogged allocator dst dsize src sofs ssize loc) := by
  rw [splitLogged, realloc_eq]
  cases ntfsRlRealloc allocator dst.rl dsize (dsize + ssize + 1) with
  | error why => exact inside_pure _
  | ok block =>
    simp only [Except.map, inside_bind, inside_move, inside_copy, inside_load, inside_assign,
      value_move, value_copy, value_load, value_assign]
    refine ⟨by omega, by omega, by omega, by omega, by omega, by omega, by omega, by omega, ?_⟩
    exact inside_closeSplitLogged (show loc + ssize + 1 + 1 < dsize + ssize + 1 by omega)

theorem inside_replaceLogged (hcnt : dst.count = dsize) (hsrc : sofs + ssize ≤ src.count)
    (hssize : 0 < ssize) (hloc : loc < dsize) :
    Inside (replaceLogged allocator dst dsize src sofs ssize loc) := by
  rw [replaceLogged, inside_bind, inside_bind]
  refine ⟨inside_rightLogged hcnt.ge hsrc hssize, inside_leftLogged (by omega) (by omega), ?_⟩
  have hright := @lt_of_rightLogged dst dsize src sofs ssize loc
  have hleft := @pos_of_leftLogged dst src sofs loc
  generalize (rightLogged dst dsize src sofs ssize loc).value = right at hright ⊢
  generalize (leftLogged dst src sofs loc).value = left at hleft ⊢
  dsimp only
  rw [growByCounted_eq]
  cases growBy allocator dst.rl dsize (ssize - 1 - left.toNat - right.toNat) with
  | error why => exact inside_pure _
  | ok block =>
    have hrightBit : loc + right.toNat < dsize := by cases right <;> simp at hright ⊢ <;> omega
    have hleftBit : left.toNat ≤ loc ∧ left.toNat ≤ 1 := by cases left <;> simp at hleft ⊢; omega
    have hroom : ∀ count, count = (if 0 < (ssize : ℤ) - 1 - left.toNat - right.toNat then
          dsize + ((ssize : ℤ) - 1 - left.toNat - right.toNat).toNat else dst.count) →
        dsize ≤ count ∧ dsize + ssize ≤ count + 1 + left.toNat + right.toNat := by
      rintro count rfl
      split_ifs <;> omega
    specialize hroom _ rfl
    dsimp only [Except.map]
    generalize (if 0 < (ssize : ℤ) - 1 - left.toNat - right.toNat then _ else _) = count at hroom ⊢
    simp only [inside_bind, inside_move, inside_copy, value_mergeRightLogged, value_mergeLeftLogged,
      value_move, value_copy]
    refine ⟨inside_mergeRightLogged hsrc hssize fun h => ?_,
      inside_mergeLeftLogged (by dsimp only; omega) (by dsimp only; omega) hleft, by
        omega, by omega,
      inside_closeReplaceLogged (by omega) fun h => ?_⟩
    · have hnext := hright h
      dsimp only
      omega
    · dsimp only
      omega

theorem inside_insertLogged (hdst : dst.rl.Holds (before ++ run :: rest))
    (hcnt : dst.count = (before ++ run :: rest).length) (hsrc : sofs + ssize ≤ src.count)
    (hssize : 0 < ssize) (hgap : isGap run = true → rest ≠ []) :
    Inside (insertLogged allocator dst (before ++ run :: rest).length src sofs ssize
      before.length) := by
  have hlen := length_around before run rest
  rw [insertLogged, inside_bind, inside_bind]
  refine ⟨inside_leftLogged (by omega) (by omega), inside_discLogged (by omega) (by omega), ?_⟩
  have hleft := @pos_of_leftLogged dst src sofs before.length
  generalize (leftLogged dst src sofs before.length).value = left at hleft ⊢
  generalize (discLogged dst src sofs before.length left).value = disc
  have hleftBit : left.toNat ≤ before.length ∧ left.toNat ≤ 1 := by
    cases left <;> simp at hleft ⊢
    omega
  rw [realloc_eq]
  rcases ntfsRlRealloc_spec allocator hdst (show (before ++ run :: rest).length ≤
    (before ++ run :: rest).length + ssize - left.toNat + disc.toNat by omega) with
    ⟨herr, -⟩ | ⟨block, hok, -, hblk, -⟩
  · rw [herr]
    exact inside_pure _
  · rw [hok]
    dsimp only [Except.map]
    simp only [inside_bind, inside_move, inside_copy, value_mergeLeftLogged, value_move, value_copy]
    refine ⟨inside_mergeLeftLogged (by dsimp only; omega) (by omega) hleft, by omega, by omega,
      inside_adjustAfterLogged (by omega) (by dsimp only; omega) fun h => ?_, ?_⟩
    · have hrun : block.elem before.length = run := by
        have hcell := ((segment_append _ _ _ _).mp hblk).2.1
        rwa [zero_add] at hcell
      -- The copied runs end in front of the moved element, and the merge on the left leaves it.
      rw [ntfsRlMc_elem, memcpy, if_neg (by omega), ntfsRlMm_elem, memmove, if_pos (by omega),
        ite_store_elem] at h
      have hcell : (if left = true then Function.update block.elem (before.length - 1)
          (ntfsRlMerge (block.elem (before.length - 1)) (src.rl.elem sofs)) else block.elem)
            (before.length + ssize - left.toNat + disc.toNat -
              (before.length + ssize - left.toNat + disc.toNat) + before.length) = run := by
        rw [Nat.sub_self, zero_add]
        split_ifs with hmrg
        · have hbef := hleft hmrg
          rw [Function.update_of_ne (by omega), hrun]
        · exact hrun
      rw [hcell] at h
      have hrest := length_pos_iff.mpr (hgap h)
      dsimp only
      omega
    · rw [value_adjustAfterLogged]
      cases adjustAfter _ _ with
      | error why => exact inside_pure _
      | ok adjusted =>
        simp only [Except.map]
        rw [inside_bind]
        refine ⟨inside_fillGapLogged fun hgap => ?_, inside_pure _⟩
        rw [hgap, Bool.toNat_true]
        dsimp only
        omega

theorem inside_appendLogged {runs : List RunlistElement}
    (hdst : dst.rl.Holds (before ++ run :: rest))
    (hcnt : dst.count = (before ++ run :: rest).length) (hruns : Segment src.rl.elem sofs runs)
    (hsrc : sofs + runs.length ≤ src.count) (hne : runs ≠ []) :
    (Inside (appendLogged allocator dst (before ++ run :: rest).length src sofs runs.length
      before.length) ∧ allocator.Short) ∨
    (Inside (appendLogged allocator dst (before ++ run :: rest).length src sofs runs.length
      before.length) ↔ (meets runs rest).toNat < rest.length) := by
  have hpos := length_pos_iff.mpr hne
  have hdrop := toNat_meets_le runs rest
  have hbit : (meets runs rest).toNat ≤ 1 := Bool.toNat_le _
  have hlen := length_around before run rest
  rw [appendLogged]
  rw [inside_bind, value_rightLogged, right_eq_meets hdst.2 hruns hne,
    and_iff_right (inside_rightLogged hcnt.ge hsrc hpos), realloc_eq]
  rcases ntfsRlRealloc_spec allocator hdst (show (before ++ run :: rest).length ≤
    (before ++ run :: rest).length + runs.length - (meets runs rest).toNat by omega) with
    ⟨herr, hmemo⟩ | ⟨block, hok, -, -, -⟩
  · rw [herr]
    exact .inl ⟨inside_pure _, hmemo⟩
  · rw [hok]
    right
    have hnext : meets runs rest = true → before.length + 1 <
        (before ++ run :: rest).length + runs.length - (meets runs rest).toNat := by
      intro hmt
      rw [hmt, Bool.toNat_true] at hdrop ⊢
      omega
    simp only [Except.map, inside_bind, inside_move, inside_copy, inside_load, inside_assign,
      value_mergeRightLogged, value_move, value_copy, value_load, value_assign]
    rw [inside_closeAppendLogged (by omega),
      and_iff_right (inside_mergeRightLogged hsrc hpos hnext)]
    dsimp only
    omega

theorem inside_scanLogged (stop : RunlistElement → Bool) (found : ℕ) (hle : i ≤ found)
    (hfuel : found < i + fuel) (hfnd : found < dst.count)
    (hstop : stop (dst.rl.elem found) = true) :
    Inside (scanLogged stop dst fuel i) ∧ ∃ ds, (scanLogged stop dst fuel i).value = some ds ∧
      i ≤ ds ∧ ds ≤ found ∧ stop (dst.rl.elem ds) = true := by
  induction fuel generalizing i with
  | zero => omega
  | succ fuel ih =>
    rw [scanLogged, inside_bind, inside_load, value_bind, value_load]
    by_cases hhere : stop (dst.rl.elem i) = true
    · rw [if_pos hhere]
      exact ⟨⟨by omega, inside_pure _⟩, i, rfl, le_rfl, hle, hhere⟩
    · have hne : i ≠ found := fun h => hhere (h ▸ hstop)
      obtain ⟨hin, ds, hval, hlow, hhigh, hds⟩ := ih (i := i + 1) (by omega) (by omega)
      rw [if_neg hhere]
      exact ⟨⟨by omega, hin⟩, ds, hval, by omega, hhigh, hds⟩

theorem not_inside_scanLogged {stop : RunlistElement → Bool} (hle : i ≤ dst.count)
    (hfuel : dst.count ≤ i + fuel) (hcl : ∀ j, i ≤ j → stop (dst.rl.elem j) = false) :
    ¬ Inside (scanLogged stop dst fuel i) := by
  induction fuel generalizing i with
  | zero =>
    rw [scanLogged, inside_bind, inside_access]
    omega
  | succ fuel ih =>
    rw [scanLogged, inside_bind, inside_load, value_load, hcl i le_rfl, if_neg Bool.false_ne_true]
    rintro ⟨hlt, hin⟩
    exact ih (by omega) (by omega) (fun j hj => hcl j (by omega)) hin

theorem inside_addEndLogged (markerVcn : ℤ) (hds : ds < dst.count)
    (hslots : slots ≠ 0 → ds + 1 < dst.count) :
    Inside (addEndLogged allocator dst ds slots markerVcn) := by
  unfold addEndLogged
  simp only [inside_bind, inside_load, inside_assign, value_load, value_assign,
    inside_pure, and_true]
  refine ⟨hds, hds, ?_⟩
  split_ifs with hnone
  · exact Nat.lt_succ_self (ds + 1)
  · exact hslots hnone

theorem inside_unmapLogged (hds : ds < dst.count) : Inside (unmapLogged dst ds) := by
  unfold unmapLogged
  rw [inside_bind, inside_load, inside_assign]
  exact ⟨hds, hds⟩

theorem inside_moveEndLogged (markerVcn : ℤ) (hds : ds < dst.count)
    (hslots : (slots = 0 ∧ (dst.rl.elem ds).lcn = lcnRlNotMapped) ∨
      (slots = 1 ∧ ds + 1 < dst.count)) :
    Inside (moveEndLogged allocator dst ds slots markerVcn) := by
  unfold moveEndLogged
  rw [inside_bind, inside_load, value_load]
  refine ⟨hds, ?_⟩
  by_cases hopen : (dst.rl.elem ds).lcn = lcnRlNotMapped
  · rw [if_pos hopen]
    exact inside_addEndLogged allocator markerVcn hds (by omega)
  · obtain ⟨rfl, hnext⟩ := hslots.resolve_left fun h => hopen h.2
    rw [if_neg hopen, if_neg one_ne_zero, inside_bind]
    exact ⟨inside_unmapLogged hnext, inside_addEndLogged allocator markerVcn hnext (by omega)⟩

theorem inside_placeMarkerLogged (hpos : 0 < ds) (hds : ds < dst.count)
    (hlast : markerVcn ≤ (dst.rl.elem ds).vcn ∨
      (dst.rl.elem ds).lcn = lcnEnoent ∨ (dst.rl.elem ds).lcn = lcnRlNotMapped) :
    Inside (placeMarkerLogged allocator dst ds markerVcn) := by
  rw [placeMarkerLogged, inside_bind, inside_load, value_load]
  refine ⟨hds, ?_⟩
  split_ifs with hlt heq hend
  · exact inside_pure _
  · rw [inside_bind, inside_assign]
    exact ⟨hds, inside_pure _⟩
  · rw [inside_bind, inside_loadBefore]
    exact ⟨by omega, inside_moveEndLogged allocator markerVcn (by omega) (by omega)⟩
  · have hopen : (dst.rl.elem ds).lcn = lcnRlNotMapped :=
      (hlast.resolve_left (by omega)).resolve_left hend
    exact inside_moveEndLogged allocator markerVcn hds (.inl ⟨rfl, hopen⟩)

theorem inside_fixEndMarkerLogged {items : List RunlistElement} (hdst : dst.rl.Holds items)
    (hcnt : items.length ≤ dst.count) (hdend : 0 < dend) (hend : dend < items.length)
    (hlast : ∃ last ∈ items.getLast?, last.length = 0) (hzero : ∀ run ∈ items, run.length = 0 →
      markerVcn ≤ run.vcn ∨ run.lcn = lcnEnoent ∨ run.lcn = lcnRlNotMapped) :
    Inside (fixEndMarkerLogged allocator dst srl dend markerVcn) := by
  have hcell : ∀ i (hi : i < items.length), dst.rl.elem i = items[i] := fun i hi => by
    have hget := hdst.2.getElem hi
    rwa [zero_add] at hget
  obtain ⟨last, hmem, hlen⟩ := hlast
  have hfin : items[items.length - 1] = last := by
    rw [List.getLast?_eq_getElem?] at hmem
    exact (List.getElem?_eq_some_iff.mp hmem).2
  have hcap := hdst.length_le_cap
  have hstop : decide ((dst.rl.elem (items.length - 1)).length = 0) = true := by
    rw [hcell _ (by omega), hfin]
    exact decide_eq_true hlen
  obtain ⟨hin, ds, hval, hlow, hhigh, hds⟩ := inside_scanLogged
    (fun run => run.length = 0) (items.length - 1) (Nat.le_pred_of_lt hend)
    (show items.length - 1 < dend + (dst.rl.cap - dend) by omega) (by omega) hstop
  have hdsItems : ds < items.length := by omega
  rw [hcell ds hdsItems, decide_eq_true_iff] at hds
  unfold fixEndMarkerLogged
  rw [inside_bind, hval]
  refine ⟨hin, inside_placeMarkerLogged allocator (by omega) (by omega) ?_⟩
  rw [hcell ds hdsItems]
  exact hzero _ (getElem_mem hdsItems) hds

end

/-! ### When a merge stays inside its arrays -/

def afterRoutineLogged (allocator : Allocator) (dend : ℕ) (last : RunlistElement) (srl : Counted) :
    MergeOutcome Counted → Logged (MergeOutcome Counted)
  | .failed why drl srl => pure (.failed why drl srl)
  | .done rl =>
    if last.lcn = lcnEnoent then fixEndMarkerLogged allocator rl srl dend last.vcn
    else pure (.done rl)

section

variable (allocator : Allocator) {dst : Runlist} {src : Source} (spot : Spot dst src.start)
  {drl srl : Counted} (hdrl : drl.rl.Holds dst.elements) (hsrl : srl.rl.Holds src.elements)

def routineLogged (drl srl : Counted) : Logged (MergeOutcome Counted) :=
  mergeRoutineLogged allocator drl dst.elements.length srl src.lead.length
    (src.inserted spot.run).length spot.before.length (src.starts spot.run) (src.finishes spot.run)

theorem value_routineLogged (drl srl : Counted) :
    erase (routineLogged allocator spot drl srl).value =
      mergeRoutine (src.starts spot.run) (src.finishes spot.run) allocator drl.rl
        dst.elements.length srl.rl src.lead.length (src.inserted spot.run).length
        spot.before.length :=
  value_mergeRoutineLogged ..

include hdrl hsrl

theorem mergeAtLogged_eq :
    mergeAtLogged allocator drl srl src.lead.length (src.elements.length - 1) spot.before.length
        (dst.elements.length - 1) =
      routineLogged allocator spot drl srl >>=
        afterRoutineLogged allocator (dst.elements.length - 1) src.last srl := by
  have hdsize : dst.elements.length - 1 + 1 = dst.elements.length := by
    rw [dst.length_elements]
    rfl
  unfold mergeAtLogged
  simp only [src.elem_first hsrl, src.elem_last hsrl, src.elem_final hsrl,
    src.mappedEnd_eq_length hsrl, elem_eq hdrl _ _ _ spot.elements_eq, src.marker_ne_zero_iff,
    hdsize]
  rw [routineLogged, ← src.length_inserted]
  rfl

theorem mergeBlocksLogged_eq :
    mergeBlocksLogged allocator drl srl =
      if src.Overlaps spot.run then pure (.failed (.errno .erange) drl srl)
      else routineLogged allocator spot drl srl >>=
        afterRoutineLogged allocator (dst.elements.length - 1) src.last srl := by
  have hfst : 0 < src.first.length := src.length_pos _
    (mem_append_left _ (head_mem src.mapped_ne_nil))
  have hdins : scanFrom (fun run => run.length = 0 ∨ src.first.vcn < endVcn run) drl.rl 0 =
    some spot.before.length := spot.scanFrom_run hdrl
  unfold mergeBlocksLogged
  rw [src.scanFrom_first hsrl]
  simp only [src.elem_first hsrl]
  rw [if_neg hfst.ne', hdins]
  simp only [elem_eq hdrl _ _ _ spot.elements_eq]
  rw [src.scanFrom_last hsrl, spot.scanFrom_end hdrl]
  simp only [mergeAtLogged_eq allocator spot hdrl hsrl]
  rfl

theorem holds_routineLogged {array : Counted}
    (hdone : (routineLogged allocator spot drl srl).value = .done array) :
    array.rl.Holds (mergedRuns src spot) ∧
      ((src.finishes spot.run = true →
      StaleBehind allocator drl.rl array.rl (mergedRuns src spot).length) ∧
      (src.starts spot.run = true → src.finishes spot.run = true →
        pageAlign (dst.elements.length * elementSize) ≤ array.rl.bytes ∧
        ∀ i, (mergedRuns src spot).length ≤ i → i < dst.elements.length →
        array.rl.elem i = drl.rl.elem i)) := by
  have hspec := mergeRoutine_spec allocator spot hdrl hsrl
  rw [← value_routineLogged, hdone, erase_done] at hspec
  rcases hspec with ⟨hfail, -⟩ | ⟨-, drl', srl', hfail⟩ | ⟨-, block, hblk, hh, hstale, hfrm⟩
  · exact absurd hfail (by simp)
  · exact absurd hfail (by simp)
  · rw [MergeOutcome.done.injEq] at hblk
    rw [hblk]
    exact ⟨hh, hstale, hfrm⟩

theorem exists_routineLogged (hbeh : ¬ GoesBehind dst src)
    (hmemo : ∀ bytes, allocator.succeeds bytes = true) :
    ∃ array, (routineLogged allocator spot drl srl).value = .done array := by
  have hspec := mergeRoutine_spec allocator spot hdrl hsrl
  rw [← value_routineLogged] at hspec
  cases hcase : (routineLogged allocator spot drl srl).value with
  | done array => exact ⟨array, rfl⟩
  | failed why drl' srl' =>
    rw [hcase] at hspec
    rcases hspec with ⟨-, hfail⟩ | ⟨hovr, -⟩ | ⟨-, block, hblk, -⟩
    · exact absurd hmemo hfail
    · exact absurd (goesBehind_of_overruns spot hovr).1 hbeh
    · exact absurd hblk (by simp)

variable (hdcount : drl.count = dst.elements.length) (hscount : srl.count = src.elements.length)
include hdcount

theorem hasCount_routineLogged :
    HasCount (max dst.elements.length (mergedRuns src spot).length)
      (routineLogged allocator spot drl srl).value := by
  have hsour := src.inserted_segment hsrl spot.run
  have hne := src.inserted_ne_nil spot.run
  have hpos := length_pos_iff.mpr hne
  have hdst := hdrl
  rw [spot.elements_eq] at hdst hdcount
  unfold routineLogged mergedRuns
  rw [spot.elements_eq]
  cases src.starts spot.run <;> cases src.finishes spot.run
  · have hsize : max (spot.before ++ spot.run :: spot.rest).length
        (splitRuns spot.before spot.run (src.inserted spot.run) spot.rest).length =
        (spot.before ++ spot.run :: spot.rest).length + (src.inserted spot.run).length + 1 := by
      simp only [splitRuns, length_append, length_cons]
      omega
    rw [mergeRuns, hsize]
    exact hasCount_splitLogged allocator drl _ srl _ _ _
  · have hbit : (meets (src.inserted spot.run) spot.rest).toNat ≤ 1 := Bool.toNat_le _
    have hdrop := toNat_meets_le (src.inserted spot.run) spot.rest
    have hsize : max (spot.before ++ spot.run :: spot.rest).length
        (appendRuns spot.before spot.run (src.inserted spot.run) spot.rest).length =
        (spot.before ++ spot.run :: spot.rest).length + (src.inserted spot.run).length -
          (meets (src.inserted spot.run) spot.rest).toNat := by
      simp only [appendRuns, spliceTail, length_append, length_cons, length_grown,
        length_fixMarker, length_drop]
      omega
    rw [mergeRuns, hsize]
    exact hasCount_appendLogged allocator hdst hsour hne
  · have hbit : (meets spot.before (src.inserted spot.run)).toNat ≤ 1 := Bool.toNat_le _
    have hlong : (spot.before ++ spot.run :: spot.rest).length ≤
        (insertRuns spot.before spot.run (src.inserted spot.run) spot.rest).length := by
      rw [length_insertRuns]
      omega
    rw [mergeRuns, max_eq_right hlong]
    exact hasCount_insertLogged allocator hdst hsour hne (src.head_inserted spot.run)
  · exact hasCount_replaceLogged allocator hdst hsour hne hdcount

theorem inside_afterRoutineLogged (hend : ¬ LosesEnd dst src) :
    Inside (afterRoutineLogged allocator (dst.elements.length - 1) src.last srl
      (routineLogged allocator spot drl srl).value) := by
  have hcnt := hasCount_routineLogged allocator spot hdrl hsrl hdcount
  cases hval : (routineLogged allocator spot drl srl).value with
  | failed why drl srl => exact inside_pure _
  | done array =>
    obtain ⟨hmerged, -, hfrm⟩ := holds_routineLogged allocator spot hdrl hsrl hval
    rw [hval] at hcnt
    change array.count = _ at hcnt
    have hlen := dst.length_elements
    have hpos := length_pos_iff.mpr dst.runs_ne_nil
    rw [afterRoutineLogged]
    split_ifs with hmrk
    · rcases RunlistWalks.last_or_inside spot with ⟨hrest, hrun, hbef⟩ | ⟨more, hin⟩
      · have hlong := le_length_mergedRuns_behind spot hrest hrun hbef
        obtain ⟨hlast, hzeros⟩ := ends_mergedRuns_behind spot hrest hrun hbef hmrk hend
        exact inside_fixEndMarkerLogged allocator hmerged (by omega) (by omega) (by omega) hlast
          hzeros
      · obtain ⟨hlast, hzeros⟩ := ends_mergedRuns spot hin
        refine inside_fixEndMarkerLogged allocator (holds_mergedRuns spot hin hdrl hmerged hfrm)
          ?_ (by omega) ?_ hlast hzeros <;>
        · rw [length_append, length_drop]
          omega
    · exact inside_pure _

include hscount

theorem inside_routineLogged (hbeh : ¬ GoesBehind dst src) :
    Inside (routineLogged allocator spot drl srl) := by
  have hsour := src.inserted_segment hsrl spot.run
  have hne := src.inserted_ne_nil spot.run
  have hpos := length_pos_iff.mpr hne
  have hins := hscount ▸ src.length_inserted_le spot.run
  have hdst := hdrl
  rw [spot.elements_eq] at hdst hdcount
  have hlen := length_around spot.before spot.run spot.rest
  unfold routineLogged
  rw [spot.elements_eq]
  cases hst : src.starts spot.run <;> cases hfin : src.finishes spot.run
  · have hrest := length_pos_iff.mpr (rest_ne_nil spot hfin (lcn_of_not_starts hst))
    exact inside_splitLogged allocator hins (by omega)
  · rcases inside_appendLogged allocator hdst hdcount hsour hins hne with
      ⟨hin, -⟩ | hiff
    · exact hin
    · refine hiff.mpr (not_le.mp fun hle => hbeh ?_)
      exact (goesBehind_of_append spot hst hfin (drop_eq_nil_of_le hle)).1
  · exact inside_insertLogged allocator hdst hdcount hins hpos fun hgap =>
      rest_ne_nil spot hfin (lcn_of_isGap hgap)
  · exact inside_replaceLogged allocator hdcount hins hpos (by omega)

theorem not_inside_routineLogged (hbeh : GoesBehind dst src)
    (hmemo : ∀ bytes, allocator.succeeds bytes = true) :
    ¬ Inside (routineLogged allocator spot drl srl) := by
  obtain ⟨hst, hfin, hrest, -⟩ := append_of_goesBehind spot hbeh
  have hdst := hdrl
  rw [spot.elements_eq] at hdst hdcount
  unfold routineLogged
  rw [hst, hfin, spot.elements_eq]
  rcases inside_appendLogged allocator hdst hdcount (src.inserted_segment hsrl spot.run)
    (hscount ▸ src.length_inserted_le spot.run) (src.inserted_ne_nil spot.run) with
    ⟨-, hfail⟩ | hiff
  · exact absurd hmemo hfail
  · intro hin
    have hlt := hiff.mp hin
    rw [hrest] at hlt
    exact absurd hlt (Nat.not_lt_zero _)

end

/-- The indices of all elements that the four routines and the marker code read or write, in all
blocks that hold the two runlists, are below the number of elements of their array. -/
def MergesInside (dst : Runlist) (src : Source) : Prop :=
  ∀ allocator drl srl, drl.Holds dst.elements → srl.Holds src.elements →
    Inside (mergeBlocksLogged allocator ⟨drl, dst.elements.length⟩ ⟨srl, src.elements.length⟩)

theorem mergesInside_of_ends (hbeh : ¬ GoesBehind dst src) (hend : ¬ LosesEnd dst src) :
    MergesInside dst src := by
  intro allocator drl srl hdrl hsrl
  obtain ⟨spot⟩ := exists_spot dst src.start_nonneg
  rw [mergeBlocksLogged_eq allocator spot hdrl hsrl]
  split_ifs with hovl
  · exact inside_pure _
  · rw [inside_bind]
    exact ⟨inside_routineLogged allocator spot hdrl hsrl rfl rfl hbeh,
      inside_afterRoutineLogged allocator spot hdrl hsrl rfl hend⟩

theorem mergeBlocksLogged_behind (allocator : Allocator) (spot : Spot dst src.start)
    (hdrl : drl.rl.Holds dst.elements) (hsrl : srl.rl.Holds src.elements)
    (hrun : spot.run = dst.last) : mergeBlocksLogged allocator drl srl =
      routineLogged allocator spot drl srl >>= afterRoutineLogged allocator
      (dst.elements.length - 1) src.last srl := by
  have hovl : ¬ src.Overlaps spot.run := fun h =>
    absurd h.2.1 (not_le.mpr (hrun ▸ dst.last_lcn_neg))
  rw [mergeBlocksLogged_eq allocator spot hdrl hsrl, if_neg hovl]

def fullAllocator : Allocator := ⟨fun _ => true, fun _ => ⟨0, 0, 1⟩⟩

def fullArray (items : List RunlistElement) : Counted :=
  ⟨RlArray.ofList items 0 fun _ => ⟨0, 0, 1⟩, items.length⟩

theorem holds_fullArray (items : List RunlistElement) : (fullArray items).rl.Holds items :=
  RlArray.holds_ofList _ _ _

theorem not_inside_of_goesBehind (hbeh : GoesBehind dst src) :
    ¬ Inside (mergeBlocksLogged fullAllocator (fullArray dst.elements)
      (fullArray src.elements)) := by
  obtain ⟨spot⟩ := exists_spot dst src.start_nonneg
  obtain ⟨-, -, -, hrun⟩ := append_of_goesBehind spot hbeh
  have hdrl := holds_fullArray dst.elements
  have hsrl := holds_fullArray src.elements
  rw [mergeBlocksLogged_behind fullAllocator spot hdrl hsrl hrun, inside_bind]
  exact fun h => not_inside_routineLogged fullAllocator spot hdrl hsrl rfl rfl hbeh
    (fun _ => rfl) h.1

theorem not_inside_of_losesEnd (hloses : LosesEnd dst src) :
    ¬ Inside (mergeBlocksLogged fullAllocator (fullArray dst.elements)
      (fullArray src.elements)) := by
  obtain ⟨spot⟩ := exists_spot dst src.start_nonneg
  obtain ⟨hrest, hrun, hbef⟩ := hloses.behind spot
  have hdrl := holds_fullArray dst.elements
  have hsrl := holds_fullArray src.elements
  by_cases hbeh : GoesBehind dst src
  · exact not_inside_of_goesBehind hbeh
  rw [mergeBlocksLogged_behind fullAllocator spot hdrl hsrl hrun, inside_bind]
  rintro ⟨-, hin⟩
  obtain ⟨array, hdone⟩ := exists_routineLogged fullAllocator spot hdrl hsrl hbeh fun _ => rfl
  have hcnt := hasCount_routineLogged fullAllocator spot hdrl hsrl rfl
  obtain ⟨hmerged, hstale, -⟩ := holds_routineLogged fullAllocator spot hdrl hsrl hdone
  have hold : ∀ i, dst.elements.length ≤ i → ((fullArray dst.elements).rl.elem i).length ≠ 0 :=
    fun i hi => by
      rw [show (fullArray dst.elements).rl.elem i = _ from getD_eq_default _ _ hi]
      exact one_ne_zero
  have hcl := hloses.length_ne_zero spot hmerged (hstale (hloses.finishes spot)) hold
    fun _ => one_ne_zero
  have hlong := le_length_mergedRuns_behind spot hrest hrun hbef
  have hcap := hmerged.length_le_cap
  rw [hdone] at hin hcnt
  change array.count = _ at hcnt
  rw [afterRoutineLogged, if_pos hloses.2.2.2, fixEndMarkerLogged, inside_bind] at hin
  exact not_inside_scanLogged (by omega) (by omega) (fun j _ => decide_eq_false (hcl j)) hin.1

/-- Every index that the four routines and the marker code of a merge use is below the number of
elements of its array, exactly unless the runs go behind an unmapped terminator with a gap in
between, or the merge loses the end of the runlist. -/
theorem mergesInside_iff (dst : Runlist) (src : Source) :
    MergesInside dst src ↔ ¬ GoesBehind dst src ∧ ¬ LosesEnd dst src := by
  constructor
  · intro hinside
    have hfull := hinside fullAllocator _ _ (holds_fullArray dst.elements)
      (holds_fullArray src.elements)
    exact ⟨fun h => not_inside_of_goesBehind h hfull, fun h => not_inside_of_losesEnd h hfull⟩
  · rintro ⟨hbehind, hend⟩
    exact mergesInside_of_ends hbehind hend

/-- One mapped cluster with an unmapped rest, and two clusters of an extent three clusters further
on. -/
theorem not_mergesInside_oneCluster :
    ¬ MergesInside (scattered 1 (by decide) (by decide))
      (twoClusters 4 (by decide) (by decide)).toSource := by
  intro hinside
  exact not_inside_of_goesBehind ⟨rfl, by decide⟩ (hinside fullAllocator _ _
    (holds_fullArray _) (holds_fullArray _))

end AdvancedOs.Ntfs.RunlistMergeBounds
