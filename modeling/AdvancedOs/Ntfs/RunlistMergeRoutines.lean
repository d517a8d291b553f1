import AdvancedOs.Ntfs.RunlistElements

/-!
# The four routines that merge runs into a runlist
-/

namespace AdvancedOs.Ntfs.RunlistMergeRoutines

open Foundation.ArraySegments Foundation.SignedWords RunlistElements Function List

/-! ### Memory -/

/-- The page allocator: which sizes it can serve, and what fresh memory holds. -/
structure Allocator where
  succeeds : ℕ → Bool
  junk : ℕ → RunlistElement

/-- Some request for memory fails. -/
abbrev Allocator.Short (allocator : Allocator) : Prop := ¬ ∀ bytes, allocator.succeeds bytes = true

def ntfsRlMm (base : RlArray) (dst src size : ℕ) : RlArray :=
  if dst ≠ src ∧ 0 < size then { base with elem := memmove base.elem dst src size } else base

def ntfsRlMc (dstbase : RlArray) (dst : ℕ) (srcbase : RlArray) (src size : ℕ) : RlArray :=
  if 0 < size then { dstbase with elem := memcpy dstbase.elem dst srcbase.elem src size }
  else dstbase

/-- The block a reallocation from `oldBytes` to `newBytes` bytes leaves: the elements inside both
sizes are copied, the others are whatever fresh memory holds. -/
def recycle (allocator : Allocator) (rl : RlArray) (oldBytes newBytes : ℕ) : RlArray :=
  ⟨newBytes, fun i =>
    if (i + 1) * elementSize ≤ min oldBytes newBytes then rl.elem i else allocator.junk i⟩

def reallocBytes (rl : RlArray) (oldSize newSize : ℕ) : ℕ :=
  if pageAlign (oldSize * elementSize) = pageAlign (newSize * elementSize) then rl.bytes
  else pageAlign (newSize * elementSize)

def ntfsRlRealloc (allocator : Allocator) (rl : RlArray) (oldSize newSize : ℕ) :
    Except Failure RlArray :=
  let oldBytes := pageAlign (oldSize * elementSize)
  let newBytes := pageAlign (newSize * elementSize)
  if oldBytes = newBytes then .ok rl
  else if allocator.succeeds newBytes then .ok (recycle allocator rl oldBytes newBytes)
  else .error (.errno .enomem)

def ntfsRlReallocNofail (allocator : Allocator) (rl : RlArray) (oldSize newSize : ℕ) : RlArray :=
  let oldBytes := pageAlign (oldSize * elementSize)
  let newBytes := pageAlign (newSize * elementSize)
  if oldBytes = newBytes then rl else recycle allocator rl oldBytes newBytes

def store (block : RlArray) (i : ℕ) (value : RunlistElement) : RlArray :=
  { block with elem := update block.elem i value }

@[simp] theorem store_bytes (block : RlArray) (i : ℕ) (value : RunlistElement) :
    (store block i value).bytes = block.bytes := rfl

@[simp] theorem store_elem (block : RlArray) (i : ℕ) (value : RunlistElement) :
    (store block i value).elem = update block.elem i value := rfl

@[simp] theorem store_store (block : RlArray) (i : ℕ) (first second : RunlistElement) :
    store (store block i first) i second = store block i second := by
  simp [store]

@[simp] theorem ite_store_bytes (guard : Prop) [Decidable guard] (block : RlArray) (i : ℕ)
    (value : RunlistElement) : (if guard then store block i value else block).bytes =
      block.bytes := by
  split_ifs <;> rfl

@[simp] theorem ite_store_elem (guard : Prop) [Decidable guard] (block : RlArray) (i : ℕ)
    (value : RunlistElement) : (if guard then store block i value else block).elem =
      if guard then update block.elem i value else block.elem := by
  split_ifs <;> rfl

@[simp] theorem ntfsRlMm_bytes (base : RlArray) (dst src size : ℕ) :
    (ntfsRlMm base dst src size).bytes = base.bytes := by
  unfold ntfsRlMm
  split_ifs <;> rfl

@[simp] theorem ntfsRlMc_bytes (dstbase : RlArray) (dst : ℕ) (srcbase : RlArray) (src size : ℕ) :
    (ntfsRlMc dstbase dst srcbase src size).bytes = dstbase.bytes := by
  unfold ntfsRlMc
  split_ifs <;> rfl

@[simp] theorem ntfsRlMm_elem (base : RlArray) (dst src size : ℕ) :
    (ntfsRlMm base dst src size).elem = memmove base.elem dst src size := by
  unfold ntfsRlMm
  split_ifs with hguard
  · rfl
  · funext i
    unfold memmove
    split_ifs with hin
    · congr 1
      omega
    · rfl

@[simp] theorem ntfsRlMc_elem (dstbase : RlArray) (dst : ℕ) (srcbase : RlArray) (src size : ℕ) :
    (ntfsRlMc dstbase dst srcbase src size).elem =
      memcpy dstbase.elem dst srcbase.elem src size := by
  unfold ntfsRlMc
  split_ifs with hguard
  · rfl
  · funext i
    unfold memcpy
    rw [if_neg (by omega)]

variable {dst block rl src : RlArray} {cells : ℕ → RunlistElement}
  {pos offset i sofs marker newSize : ℕ} {items runs before front rest : List RunlistElement}
  {run : RunlistElement}

theorem segment_recycle {allocator : Allocator} {oldSize : ℕ} (hseg : Segment rl.elem 0 items)
    (hold : items.length ≤ oldSize) (hle : oldSize ≤ newSize) :
    Segment (recycle allocator rl (pageAlign (oldSize * elementSize))
      (pageAlign (newSize * elementSize))).elem 0 items := by
  refine hseg.transfer fun i hi => ?_
  have hby := le_pageAlign (oldSize * elementSize)
  have hmono := pageAlign_mono (Nat.mul_le_mul_right elementSize hle)
  have hidx : (0 + i + 1) * elementSize ≤ oldSize * elementSize :=
    Nat.mul_le_mul_right _ (by omega)
  exact if_pos (le_min (hidx.trans hby) (hidx.trans (hby.trans hmono)))

theorem le_reallocBytes (hh : rl.Holds items) (newSize : ℕ) :
    pageAlign (newSize * elementSize) ≤ reallocBytes rl items.length newSize := by
  unfold reallocBytes
  split_ifs with hpgs
  · rw [← hpgs]
    exact hh.1
  · exact le_rfl

theorem ntfsRlRealloc_spec (allocator : Allocator) (hh : rl.Holds items)
    (hle : items.length ≤ newSize) :
    (ntfsRlRealloc allocator rl items.length newSize = .error (.errno .enomem) ∧ allocator.Short) ∨
      ∃ block, ntfsRlRealloc allocator rl items.length newSize = .ok block ∧
        block.bytes = reallocBytes rl items.length newSize ∧ Segment block.elem 0 items ∧
        ∀ i, block.elem i = rl.elem i ∨ block.elem i = allocator.junk i := by
  by_cases hpgs : pageAlign (items.length * elementSize) = pageAlign (newSize * elementSize)
  · exact .inr ⟨rl, if_pos hpgs, (if_pos hpgs).symm, hh.2, fun i => .inl rfl⟩
  · by_cases hmemo : allocator.succeeds (pageAlign (newSize * elementSize)) = true
    · refine .inr ⟨_, (if_neg hpgs).trans (if_pos hmemo), (if_neg hpgs).symm,
        segment_recycle hh.2 le_rfl hle, fun i => ?_⟩
      exact ite_eq_or_eq _ _ _
    · exact .inl ⟨(if_neg hpgs).trans (if_neg hmemo), fun hall => hmemo (hall _)⟩

theorem ntfsRlReallocNofail_spec (allocator : Allocator) (hh : rl.Holds items)
    (hle : items.length ≤ newSize) : pageAlign (newSize * elementSize) ≤
      (ntfsRlReallocNofail allocator rl items.length newSize).bytes ∧
      Segment (ntfsRlReallocNofail allocator rl items.length newSize).elem 0 items := by
  unfold ntfsRlReallocNofail
  by_cases hpgs : pageAlign (items.length * elementSize) = pageAlign (newSize * elementSize)
  · rw [if_pos hpgs]
    exact ⟨by rw [← hpgs]; exact hh.1, hh.2⟩
  · rw [if_neg hpgs]
    exact ⟨le_rfl, segment_recycle hh.2 le_rfl hle⟩

/-! ### The routines -/

def ntfsAreRlMergeable (dst src : RunlistElement) : Bool :=
  if dst.lcn = lcnRlNotMapped ∧ src.lcn = lcnRlNotMapped then true
  else if s64 (dst.vcn + dst.length) ≠ src.vcn then false
  else if 0 ≤ dst.lcn ∧ 0 ≤ src.lcn ∧ s64 (dst.lcn + dst.length) = src.lcn then true
  else if dst.lcn = lcnHole ∧ src.lcn = lcnHole then true
  else false

def ntfsRlMerge (dst src : RunlistElement) : RunlistElement :=
  { dst with length := s64 (dst.length + src.length) }

def endVcn (run : RunlistElement) : ℤ := s64 (run.vcn + run.length)

def isGap (run : RunlistElement) : Bool :=
  decide (run.lcn = lcnHole ∨ run.lcn = lcnRlNotMapped)

/-- How a merge ends: with the combined runlist, or with a failure and the two runlists as it left
them. -/
inductive MergeOutcome (Rl : Type)
  | done (rl : Rl)
  | failed (why : Failure) (drl srl : Rl)

def MergeOutcome.RunsShort (outcome : MergeOutcome RlArray) (allocator : Allocator)
    (drl srl : RlArray) : Prop :=
  outcome = .failed (.errno .enomem) drl srl ∧ allocator.Short

/-- The end of the field `lcn` inside a `runlist_element`, in bytes. -/
def lcnEnd : ℕ := 16

/-- `ntfs_rl_append`. The source pointer is `src + sofs`. -/
def ntfsRlAppend (allocator : Allocator) (dst : RlArray) (dsize : ℕ) (src : RlArray)
    (sofs ssize loc : ℕ) : MergeOutcome RlArray :=
  let right := decide (loc + 1 < dsize) &&
    ntfsAreRlMergeable (src.elem (sofs + (ssize - 1))) (dst.elem (loc + 1))
  match ntfsRlRealloc allocator dst dsize (dsize + ssize - right.toNat) with
  | .error why => .failed why dst src
  | .ok dst =>
    let src := if right then store src (sofs + (ssize - 1))
      (ntfsRlMerge (src.elem (sofs + (ssize - 1))) (dst.elem (loc + 1))) else src
    let marker := loc + ssize + 1
    let dst := ntfsRlMm dst marker (loc + 1 + right.toNat) (dsize - (loc + 1 + right.toNat))
    let dst := ntfsRlMc dst (loc + 1) src sofs ssize
    -- The hole before the appended runs shrinks.
    let dst := store dst loc
      { dst.elem loc with length := s64 ((dst.elem (loc + 1)).vcn - (dst.elem loc).vcn) }
    -- The marker is read also when the runs went behind the last element: it may lie outside then.
    if dst.bytes < marker * elementSize + lcnEnd then .failed .overrun dst src
    else .done (if (dst.elem marker).lcn = lcnEnoent then
      store dst marker { dst.elem marker with vcn := endVcn (dst.elem (marker - 1)) } else dst)

/-- The adjustment `ntfs_rl_insert` makes to the first run after the insertion: its start, and for a
hole or an unmapped run its length too. -/
def adjustAfter (dst : RlArray) (marker : ℕ) : Except Failure RlArray :=
  let dst := store dst marker { dst.elem marker with vcn := endVcn (dst.elem (marker - 1)) }
  if isGap (dst.elem marker) then
    if dst.cap ≤ marker + 1 then .error .overrun
    else .ok (store dst marker { dst.elem marker with
      length := s64 ((dst.elem (marker + 1)).vcn - (dst.elem marker).vcn) })
  else .ok dst

/-- `ntfs_rl_insert`. The source pointer is `src + sofs`. -/
def ntfsRlInsert (allocator : Allocator) (dst : RlArray) (dsize : ℕ) (src : RlArray)
    (sofs ssize loc : ℕ) : MergeOutcome RlArray :=
  let left := decide (0 < loc) && ntfsAreRlMergeable (dst.elem (loc - 1)) (src.elem sofs)
  let mergedLength := if left then s64 ((dst.elem (loc - 1)).length + (src.elem sofs).length)
    else (dst.elem (loc - 1)).length
  let disc := if loc = 0 then decide (0 < (src.elem sofs).vcn)
    else decide (s64 ((dst.elem (loc - 1)).vcn + mergedLength) < (src.elem sofs).vcn)
  match ntfsRlRealloc allocator dst dsize (dsize + ssize - left.toNat + disc.toNat) with
  | .error why => .failed why dst src
  | .ok dst =>
    let dst := if left then
      store dst (loc - 1) (ntfsRlMerge (dst.elem (loc - 1)) (src.elem sofs)) else dst
    let marker := loc + ssize - left.toNat + disc.toNat
    let dst := ntfsRlMm dst marker loc (dsize - loc)
    let dst := ntfsRlMc dst (loc + disc.toNat) src (sofs + left.toNat) (ssize - left.toNat)
    match adjustAfter dst marker with
    | .error why => .failed why dst src
    | .ok dst =>
      -- A gap between the end of the destination and the source becomes an unmapped run.
      .done (if disc then
        let vcn := if 0 < loc then endVcn (dst.elem (loc - 1)) else 0
        let length := if 0 < loc then s64 ((dst.elem (loc + 1)).vcn - vcn)
          else (dst.elem (loc + 1)).vcn
        store dst loc ⟨vcn, lcnRlNotMapped, length⟩ else dst)

/-- The reallocation of `ntfs_rl_replace`, made only when the runlist gets longer. -/
def growBy (allocator : Allocator) (dst : RlArray) (dsize : ℕ) (delta : ℤ) :
    Except Failure RlArray :=
  if 0 < delta then ntfsRlRealloc allocator dst dsize (dsize + delta.toNat) else .ok dst

/-- `ntfs_rl_replace`. The source pointer is `src + sofs`. -/
def ntfsRlReplace (allocator : Allocator) (dst : RlArray) (dsize : ℕ) (src : RlArray)
    (sofs ssize loc : ℕ) : MergeOutcome RlArray :=
  let right := decide (loc + 1 < dsize) &&
    ntfsAreRlMergeable (src.elem (sofs + (ssize - 1))) (dst.elem (loc + 1))
  let left := decide (0 < loc) && ntfsAreRlMergeable (dst.elem (loc - 1)) (src.elem sofs)
  let delta : ℤ := ssize - 1 - left.toNat - right.toNat
  match growBy allocator dst dsize delta with
  | .error why => .failed why dst src
  | .ok dst =>
    let src := if right then store src (sofs + (ssize - 1))
      (ntfsRlMerge (src.elem (sofs + (ssize - 1))) (dst.elem (loc + 1))) else src
    let dst := if left then
      store dst (loc - 1) (ntfsRlMerge (dst.elem (loc - 1)) (src.elem sofs)) else dst
    let tail := loc + right.toNat + 1
    let marker := loc + ssize - left.toNat
    let dst := ntfsRlMm dst marker tail (dsize - tail)
    let dst := ntfsRlMc dst loc src (sofs + left.toNat) (ssize - left.toNat)
    .done (if 0 < dsize - tail ∧ (dst.elem marker).lcn = lcnEnoent then
      store dst marker { dst.elem marker with vcn := endVcn (dst.elem (marker - 1)) } else dst)

/-- `ntfs_rl_split`. The source pointer is `src + sofs`. -/
def ntfsRlSplit (allocator : Allocator) (dst : RlArray) (dsize : ℕ) (src : RlArray)
    (sofs ssize loc : ℕ) : MergeOutcome RlArray :=
  match ntfsRlRealloc allocator dst dsize (dsize + ssize + 1) with
  | .error why => .failed why dst src
  | .ok dst =>
    let dst := ntfsRlMm dst (loc + 1 + ssize) loc (dsize - loc)
    let dst := ntfsRlMc dst (loc + 1) src sofs ssize
    let dst := store dst loc
      { dst.elem loc with length := s64 ((dst.elem (loc + 1)).vcn - (dst.elem loc).vcn) }
    let dst := store dst (loc + ssize + 1)
      { dst.elem (loc + ssize + 1) with vcn := endVcn (dst.elem (loc + ssize)) }
    if dst.cap ≤ loc + ssize + 2 then .failed .overrun dst src
    else .done (store dst (loc + ssize + 1) { dst.elem (loc + ssize + 1) with
      length := s64 ((dst.elem (loc + ssize + 2)).vcn - (dst.elem (loc + ssize + 1)).vcn) })

/-! ### The same routines on lists -/

def startOf (runs : List RunlistElement) : ℤ := (runs.head?.map RunlistElement.vcn).getD 0

def endOf (runs : List RunlistElement) : ℤ := (runs.getLast?.map endVcn).getD 0

def meets (runs rest : List RunlistElement) : Bool :=
  match runs.getLast?, rest with
  | some final, next :: _ => ntfsAreRlMergeable final next
  | _, _ => false

def grown (runs rest : List RunlistElement) : List RunlistElement :=
  match runs.getLast?, rest with
  | some final, next :: _ =>
    if ntfsAreRlMergeable final next then runs.dropLast ++ [ntfsRlMerge final next] else runs
  | _, _ => runs

def splice (runs rest : List RunlistElement) : List RunlistElement :=
  grown runs rest ++ rest.drop (meets runs rest).toNat

/-- An end-of-attribute marker behind inserted runs is set to where they end. -/
def fixMarker (vcn : ℤ) : List RunlistElement → List RunlistElement
  | [] => []
  | marker :: rest =>
    if marker.lcn = lcnEnoent then { marker with vcn := vcn } :: rest else marker :: rest

/-- Runs placed in front of the rest of a runlist and merged with it where they meet, with the
marker behind them fixed. -/
def spliceTail (runs rest : List RunlistElement) : List RunlistElement :=
  grown runs rest ++ fixMarker (endOf (grown runs rest)) (rest.drop (meets runs rest).toNat)

def partBefore (run : RunlistElement) (runs : List RunlistElement) : RunlistElement :=
  { run with length := s64 (startOf runs - run.vcn) }

def partAfter (run : RunlistElement) (runs rest : List RunlistElement) : RunlistElement :=
  ⟨endOf runs, run.lcn, s64 (startOf rest - endOf runs)⟩

/-- The runs start behind the end of `before` and are not merged with it. -/
def leavesGap (before runs : List RunlistElement) : Bool :=
  !meets before runs && decide (endOf before < startOf runs)

/-- What `ntfs_rl_append` makes of a runlist: the runs go between `run` and the rest. -/
def appendRuns (before : List RunlistElement) (run : RunlistElement)
    (runs rest : List RunlistElement) : List RunlistElement :=
  before ++ partBefore run runs :: spliceTail runs rest

/-- What `ntfs_rl_replace` makes of a runlist: the runs take the place of the element between
`before` and the rest. -/
def replaceRuns (before runs rest : List RunlistElement) : List RunlistElement :=
  splice before (spliceTail runs rest)

/-- What `ntfs_rl_insert` makes of a runlist: the runs go in front of `run`, which starts where they
end; a gap between `before` and the runs is filled with an unmapped run. -/
def insertRuns (before : List RunlistElement) (run : RunlistElement)
    (runs rest : List RunlistElement) : List RunlistElement :=
  let after := if isGap run then partAfter run runs rest else { run with vcn := endOf runs }
  if leavesGap before runs then
    before ++ ⟨endOf before, lcnRlNotMapped, s64 (startOf runs - endOf before)⟩ ::
      (runs ++ after :: rest)
  else splice before runs ++ after :: rest

/-- What `ntfs_rl_split` makes of a runlist: the runs go into the middle of `run`. -/
def splitRuns (before : List RunlistElement) (run : RunlistElement)
    (runs rest : List RunlistElement) : List RunlistElement :=
  before ++ partBefore run runs :: (runs ++ partAfter run runs rest :: rest)

theorem length_around (before : List RunlistElement) (run : RunlistElement)
    (rest : List RunlistElement) : (before ++ run :: rest).length =
      before.length + 1 + rest.length := by
  simp only [length_append, length_cons]
  omega

theorem exists_concat (hruns : runs ≠ []) : ∃ before final, runs = before ++ [final] :=
  ⟨runs.dropLast, runs.getLast hruns, (dropLast_append_getLast hruns).symm⟩

@[simp] theorem startOf_cons (run : RunlistElement) (runs : List RunlistElement) :
    startOf (run :: runs) = run.vcn := rfl

@[simp] theorem endOf_concat (runs : List RunlistElement) (final : RunlistElement) :
    endOf (runs ++ [final]) = endVcn final := by
  simp [endOf]

theorem endOf_append (runs : List RunlistElement) {more : List RunlistElement}
    (hmore : more ≠ []) : endOf (runs ++ more) = endOf more := by
  obtain ⟨before, final, rfl⟩ := exists_concat hmore
  rw [← append_assoc, endOf_concat, endOf_concat]

theorem startOf_append (hruns : runs ≠ []) (more : List RunlistElement) :
    startOf (runs ++ more) = startOf runs := by
  obtain ⟨run, runs, rfl⟩ := exists_cons_of_ne_nil hruns
  rfl

@[simp] theorem meets_nil_left (rest : List RunlistElement) : meets [] rest = false := rfl

@[simp] theorem meets_nil_right (runs : List RunlistElement) : meets runs [] = false := by
  unfold meets
  split <;> simp_all

@[simp] theorem meets_concat_cons (runs rest : List RunlistElement) (final next : RunlistElement) :
    meets (runs ++ [final]) (next :: rest) = ntfsAreRlMergeable final next := by
  simp [meets]

@[simp] theorem grown_nil_right (runs : List RunlistElement) : grown runs [] = runs := by
  unfold grown
  split <;> simp_all

@[simp] theorem grown_concat_cons (runs rest : List RunlistElement) (final next : RunlistElement) :
    grown (runs ++ [final]) (next :: rest) = runs ++
      [if ntfsAreRlMergeable final next then ntfsRlMerge final next else final] := by
  simp only [grown, List.getLast?_append, List.getLast?_singleton, Option.some_or, dropLast_concat]
  split_ifs <;> rfl

@[simp] theorem length_grown (runs rest : List RunlistElement) :
    (grown runs rest).length = runs.length := by
  rcases eq_nil_or_concat runs with rfl | ⟨before, final, rfl⟩
  · rfl
  · cases rest with
    | nil => simp
    | cons next rest => simp

theorem grown_ne_nil (hruns : runs ≠ []) (rest : List RunlistElement) : grown runs rest ≠ [] := by
  intro hnil
  have hlen := length_grown runs rest
  rw [hnil] at hlen
  exact hruns (length_eq_zero_iff.mp hlen.symm)

@[simp] theorem startOf_grown (runs rest : List RunlistElement) :
    startOf (grown runs rest) = startOf runs := by
  rcases eq_nil_or_concat runs with rfl | ⟨before, final, rfl⟩
  · rfl
  · cases rest with
    | nil => simp
    | cons next rest =>
      rw [concat_eq_append, grown_concat_cons]
      cases before with
      | nil =>
        split_ifs <;> rfl
      | cons run before => rfl

@[simp] theorem length_fixMarker (vcn : ℤ) (rest : List RunlistElement) :
    (fixMarker vcn rest).length = rest.length := by
  cases rest with
  | nil => rfl
  | cons marker rest =>
    simp only [fixMarker]
    split_ifs <;> rfl

/-! ### The routines compute the functions on lists -/

theorem segment_grown (hsrc : Segment src.elem sofs runs) (hruns : runs ≠ [])
    (rest : List RunlistElement) (next : RunlistElement)
    (hnext : meets runs rest = true → rest.head? = some next) :
    Segment (if meets runs rest then store src (sofs + (runs.length - 1))
      (ntfsRlMerge (src.elem (sofs + (runs.length - 1))) next) else src).elem sofs
        (grown runs rest) := by
  obtain ⟨before, final, rfl⟩ := exists_concat hruns
  have hspl := (segment_append _ _ _ _).mp hsrc
  cases rest with
  | nil => simpa using hsrc
  | cons head rest =>
    rw [meets_concat_cons] at hnext ⊢
    rw [grown_concat_cons]
    by_cases hmrg : ntfsAreRlMergeable final head = true
    · have hhead : head = next := by simpa using hnext hmrg
      have hfin : src.elem (sofs + before.length) = final := hspl.2.1
      rw [if_pos hmrg, if_pos hmrg, segment_append]
      simp only [store_elem, length_append, length_cons, length_nil, Nat.add_sub_cancel]
      refine ⟨hspl.1.update_of_le le_rfl, ?_, trivial⟩
      rw [update_self, hfin, hhead]
    · rw [if_neg hmrg, if_neg hmrg]
      exact hsrc

theorem growBy_spec (allocator : Allocator) (hh : dst.Holds items) {delta : ℤ}
    (hsize : (newSize : ℤ) = items.length + delta) :
    (growBy allocator dst items.length delta = .error (.errno .enomem) ∧ allocator.Short) ∨
      ∃ block, growBy allocator dst items.length delta = .ok block ∧
        pageAlign (newSize * elementSize) ≤ block.bytes ∧ Segment block.elem 0 items ∧
        (newSize ≤ items.length → block = dst) ∧
        ∀ i, block.elem i = dst.elem i ∨ block.elem i = allocator.junk i := by
  unfold growBy
  split_ifs with hdelta
  · rw [show items.length + delta.toNat = newSize by omega]
    rcases ntfsRlRealloc_spec allocator hh (show items.length ≤ newSize by omega) with
      herr | ⟨block, hok, hby, hblk, hcl⟩
    · exact .inl herr
    · exact .inr ⟨block, hok, hby ▸ le_reallocBytes hh newSize, hblk, fun hle => by omega, hcl⟩
  · refine .inr ⟨dst, rfl, ?_, hh.2, fun _ => rfl, fun i => .inl rfl⟩
    exact le_trans (pageAlign_mono (Nat.mul_le_mul_right _ (by omega))) hh.1

theorem right_eq_meets (hdst : Segment dst.elem 0 (before ++ run :: rest))
    (hsrc : Segment src.elem sofs runs) (hruns : runs ≠ []) :
    (decide (before.length + 1 < (before ++ run :: rest).length) &&
      ntfsAreRlMergeable (src.elem (sofs + (runs.length - 1))) (dst.elem (before.length + 1))) =
        meets runs rest := by
  obtain ⟨front, final, rfl⟩ := exists_concat hruns
  have hfin : src.elem (sofs + front.length) = final :=
    ((segment_append _ _ _ _).mp hsrc).2.1
  cases rest with
  | nil => simp
  | cons next rest =>
    have hnext := ((segment_append _ _ _ _).mp hdst).2.2.1
    rw [zero_add] at hnext
    simp [hfin, hnext]

theorem left_eq_meets (hdst : Segment dst.elem 0 (before ++ rest))
    (hsrc : Segment src.elem sofs runs) (hruns : runs ≠ []) :
    (decide (0 < before.length) &&
      ntfsAreRlMergeable (dst.elem (before.length - 1)) (src.elem sofs)) = meets before runs := by
  obtain ⟨first, runs, rfl⟩ := exists_cons_of_ne_nil hruns
  rcases eq_nil_or_concat before with rfl | ⟨front, final, rfl⟩
  · rfl
  · rw [concat_eq_append] at hdst ⊢
    have hfin := ((segment_append _ _ _ _).mp ((segment_append _ _ _ _).mp hdst).1).2.1
    rw [zero_add] at hfin
    simp [hfin, hsrc.1]

theorem segment_startOf (hseg : Segment cells offset items) (hit : items ≠ []) :
    (cells offset).vcn = startOf items := by
  obtain ⟨item, items, rfl⟩ := exists_cons_of_ne_nil hit
  rw [hseg.1, startOf_cons]

theorem segment_partBefore (hfr : Segment cells 0 (before ++ [run]))
    (hit : Segment cells (before.length + 1) items) (hne : items ≠ [])
    (hst : startOf items = startOf runs) : ∃ cut,
      update cells before.length { cells before.length with
        length := s64 ((cells (before.length + 1)).vcn - (cells before.length).vcn) } = cut ∧
      Segment cut 0 (before ++ [partBefore run runs]) ∧
      ∀ i, before.length < i → cut i = cells i := by
  have hspl := (segment_append _ _ _ _).mp hfr
  have hrun : cells before.length = run := by simpa using hspl.2.1
  refine ⟨_, rfl, (segment_append _ _ _ _).mpr ⟨hspl.1.update_of_le (by simp), ?_, trivial⟩,
    fun i hi => update_of_ne (by omega) _ _⟩
  rw [segment_startOf hit hne, hst, hrun, zero_add, update_self]
  rfl

theorem segment_fixMarker (hfr : Segment cells 0 front) (hruns : Segment cells pos runs)
    (hrest : Segment cells marker rest) (hne : runs ≠ []) (hmrk : marker = pos + runs.length)
    (hpos : front.length ≤ marker) (guard : Prop) [Decidable guard]
    (hguard : rest ≠ [] → (guard ↔ (cells marker).lcn = lcnEnoent)) :
    let fixed := if guard then update cells marker
      { cells marker with vcn := endVcn (cells (marker - 1)) } else cells
    Segment fixed 0 front ∧ Segment fixed pos runs ∧
        Segment fixed marker (fixMarker (endOf runs) rest) := by
  intro fixed
  obtain ⟨before, final, rfl⟩ := exists_concat hne
  have hfin : cells (pos + before.length) = final := ((segment_append _ _ _ _).mp hruns).2.1
  have hidx : marker - 1 = pos + before.length := by
    rw [hmrk]
    simp
  have hstays : ∀ i, i ≠ marker → fixed i = cells i := by
    intro i hi
    by_cases hg : guard
    · simp only [fixed, if_pos hg, update_of_ne hi]
    · simp only [fixed, if_neg hg]
  refine ⟨hfr.transfer fun i hi => hstays _ (by omega), hruns.transfer fun i hi => ?_, ?_⟩
  · exact hstays _ (by omega)
  · cases rest with
    | nil => trivial
    | cons head rest =>
      have hiff := hguard (by simp)
      have htail : Segment fixed (marker + 1) rest :=
        hrest.2.transfer fun i hi => hstays _ (by omega)
      rw [hrest.1] at hiff
      rw [endOf_concat, fixMarker]
      by_cases hg : guard
      · rw [if_pos (hiff.mp hg)]
        refine ⟨?_, htail⟩
        simp only [fixed, if_pos hg, update_self, hidx, hfin, hrest.1]
      · rw [if_neg fun h => hg (hiff.mpr h)]
        refine ⟨?_, htail⟩
        simp only [fixed, if_neg hg, hrest.1]

theorem head?_of_meets (hcl : Segment cells 0 (before ++ run :: rest))
    (hmt : meets runs rest = true) : rest.head? = some (cells (before.length + 1)) := by
  cases rest with
  | nil => simp at hmt
  | cons next rest =>
    have hnext := ((segment_append _ _ _ _).mp hcl).2.2.1
    rw [zero_add] at hnext
    rw [hnext, List.head?_cons]

theorem toNat_meets_le (runs rest : List RunlistElement) :
    (meets runs rest).toNat ≤ rest.length := by
  cases rest with
  | nil => simp
  | cons next rest => exact (Bool.toNat_le _).trans (by simp)

theorem segment_join (hfr : Segment cells 0 front) (hruns : Segment cells pos runs)
    (hrest : Segment cells marker rest) (hpos : pos = front.length)
    (hmrk : marker = pos + runs.length) : Segment cells 0 (front ++ (runs ++ rest)) := by
  rw [segment_append, segment_append, zero_add, ← hpos, ← hmrk]
  exact ⟨hfr, hruns, hrest⟩

theorem segment_endOf (hseg : Segment cells 0 items) :
    (if 0 < items.length then endVcn (cells (items.length - 1)) else 0) = endOf items := by
  rcases eq_nil_or_concat items with rfl | ⟨front, final, rfl⟩
  · rfl
  · rw [concat_eq_append] at hseg ⊢
    have hfin := ((segment_append _ _ _ _).mp hseg).2.1
    rw [zero_add] at hfin
    simp [hfin]

theorem segment_drop {count : ℕ} (hseg : Segment cells offset items)
    (hcnt : count ≤ items.length) : Segment cells (offset + count) (items.drop count) := by
  rw [← take_append_drop count items, segment_append, length_take_of_le hcnt] at hseg
  exact hseg.2

theorem lt_cap_iff (block : RlArray) (i : ℕ) :
    i < block.cap ↔ (i + 1) * elementSize ≤ block.bytes :=
  Nat.le_div_iff_mul_le (by decide)

theorem lt_cap_of_pageAlign_le {size : ℕ} (hby : pageAlign (size * elementSize) ≤ block.bytes)
    (hi : i < size) : i < block.cap :=
  (lt_cap_iff block i).mpr (((Nat.mul_le_mul_right _ hi).trans (le_pageAlign _)).trans hby)

/-- From the given index on the lengths in a block are those of the old one or of fresh memory. -/
def StaleBehind (allocator : Allocator) (dst block : RlArray) (size : ℕ) : Prop :=
  ∀ i, size ≤ i → (block.elem i).length = (dst.elem i).length ∨
    (block.elem i).length = (allocator.junk i).length

theorem length_ite_update (guard : Prop) [Decidable guard] (cells : ℕ → RunlistElement)
    (marker i : ℕ) (vcn : ℤ) :
    ((if guard then update cells marker { cells marker with vcn := vcn } else cells) i).length
      = (cells i).length := by
  split_ifs
  · by_cases hi : i = marker
    · rw [hi, update_self]
    · rw [update_of_ne hi]
  · rfl

/-- The append reads a field outside its block: nothing follows the appended runs, and they fill the
block. -/
def AppendOverruns (dst : RlArray) (dsize : ℕ) (runs rest : List RunlistElement) : Prop :=
  rest.drop (meets runs rest).toNat = [] ∧
    reallocBytes dst dsize (dsize + runs.length - (meets runs rest).toNat) <
      (dsize + runs.length - (meets runs rest).toNat) * elementSize + lcnEnd

theorem ntfsRlAppend_spec (allocator : Allocator) (hdst : dst.Holds (before ++ run :: rest))
    (hsrc : Segment src.elem sofs runs) (hruns : runs ≠ []) :
    let outcome := ntfsRlAppend allocator dst (before ++ run :: rest).length src sofs runs.length
      before.length
    outcome.RunsShort allocator dst src ∨
      (AppendOverruns dst (before ++ run :: rest).length runs rest ∧
        ∃ drl srl, outcome = .failed .overrun drl srl) ∨
      (¬ AppendOverruns dst (before ++ run :: rest).length runs rest ∧
        ∃ block, outcome = .done block ∧ block.Holds (appendRuns before run runs rest) ∧
          StaleBehind allocator dst block (appendRuns before run runs rest).length) := by
  have hpos := length_pos_iff.mpr hruns
  have hdrop := toNat_meets_le runs rest
  have hbit : (meets runs rest).toNat ≤ 1 := Bool.toNat_le _
  have hlen := length_around before run rest
  have hrestLength := length_drop (i := (meets runs rest).toNat) (l := rest)
  unfold ntfsRlAppend
  simp only [right_eq_meets hdst.2 hsrc hruns]
  rcases ntfsRlRealloc_spec allocator hdst (show (before ++ run :: rest).length ≤
    (before ++ run :: rest).length + runs.length - (meets runs rest).toNat by omega) with
    ⟨herr, hmemo⟩ | ⟨block, hok, hby, hblk, hcl⟩
  · rw [herr]
    exact .inl ⟨rfl, hmemo⟩
  · rw [hok]
    right
    have hroom := hby ▸ le_reallocBytes hdst _
    have hiff : AppendOverruns dst (before ++ run :: rest).length runs rest ↔
        block.bytes < (before.length + runs.length + 1) * elementSize + lcnEnd := by
      rw [AppendOverruns, ← hby]
      constructor
      · rintro ⟨hnil, hlt⟩
        rw [hnil, length_nil] at hrestLength
        rwa [show before.length + runs.length + 1 = (before ++ run :: rest).length + runs.length -
          (meets runs rest).toNat by omega]
      · intro hlt
        -- An element behind the runs would lie inside the block as a whole.
        have hge : ¬ before.length + runs.length + 1 < (before ++ run :: rest).length +
          runs.length -
            (meets runs rest).toNat := fun h => by
          have hin := (lt_cap_iff _ _).mp (lt_cap_of_pageAlign_le hroom h)
          unfold elementSize lcnEnd at *
          omega
        have hsize : (before ++ run :: rest).length + runs.length - (meets runs rest).toNat =
          before.length + runs.length + 1 := by omega
        rw [hsize]
        exact ⟨drop_eq_nil_iff.mpr (by omega), hlt⟩
    simp only [store_bytes, ntfsRlMc_bytes, ntfsRlMm_bytes]
    by_cases hover : block.bytes < (before.length + runs.length + 1) * elementSize + lcnEnd
    · rw [if_pos hover]
      exact .inl ⟨hiff.mpr hover, _, _, rfl⟩
    rw [if_neg hover]
    refine .inr ⟨fun h => hover (hiff.mp h), _, rfl, ?_⟩
    have hgrown := segment_grown hsrc hruns rest _ (head?_of_meets hblk)
    generalize (if meets runs rest then store src (sofs + (runs.length - 1))
      (ntfsRlMerge (src.elem (sofs + (runs.length - 1))) (block.elem (before.length + 1)))
      else src) = source at hgrown ⊢
    have hspl := (segment_append _ _ _ _).mp hblk
    have hfr : Segment block.elem 0 (before ++ [run]) :=
      (segment_append _ _ _ _).mpr ⟨hspl.1, hspl.2.1, trivial⟩
    have hrest := segment_drop hspl.2.2 hdrop
    rw [zero_add] at hrest
    have hspli := segment_splice hfr hrest hgrown
      (show (before ++ [run]).length ≤ before.length + 1 by simp)
    have hsize : (before ++ run :: rest).length - (before.length + 1 + (meets runs rest).toNat) =
        (rest.drop (meets runs rest).toNat).length := by
      omega
    have hmrk : before.length + runs.length + 1 = before.length + 1 + (grown runs rest).length := by
      rw [length_grown]
      omega
    rw [hsize, hmrk, ← length_grown runs rest]
    have hcnt : (appendRuns before run runs rest).length =
        (before ++ run :: rest).length + runs.length - (meets runs rest).toNat := by
      simp only [appendRuns, spliceTail, length_append, length_cons, length_grown, length_fixMarker]
      omega
    refine ⟨⟨?_, ?_⟩, fun i hi => ?_⟩
    · rw [hcnt]
      simpa only [ite_store_bytes, store_bytes, ntfsRlMc_bytes, ntfsRlMm_bytes] using hroom
    · simp only [ite_store_elem, store_elem, ntfsRlMc_elem, ntfsRlMm_elem]
      obtain ⟨hcl, hin, hbeh⟩ := hspli
      obtain ⟨cut, hcut, hpart, hkept⟩ := segment_partBefore hcl hin (grown_ne_nil hruns rest)
        (startOf_grown runs rest)
      rw [hcut]
      obtain ⟨hfixed, hgrownFixed, hrestFixed⟩ := segment_fixMarker hpart
        (hin.transfer fun i _ => hkept _ (by omega)) (hbeh.transfer fun i _ => hkept _ (by omega))
        (grown_ne_nil hruns rest) rfl (by simp) _ fun _ => Iff.rfl
      have hwh := segment_join hfixed hgrownFixed hrestFixed (by simp) rfl
      simpa only [appendRuns, spliceTail, ← append_cons] using hwh
    · simp only [ite_store_elem, store_elem, ntfsRlMc_elem, ntfsRlMm_elem, length_ite_update]
      rw [update_of_ne (by omega), memcpy, if_neg (by omega), memmove, if_neg (by omega)]
      exact (hcl i).imp (congrArg _) (congrArg _)

theorem ntfsAreRlMergeable_congr (dst : RunlistElement) {src other : RunlistElement}
    (hvcn : src.vcn = other.vcn) (hlcn : src.lcn = other.lcn) :
    ntfsAreRlMergeable dst src = ntfsAreRlMergeable dst other := by
  unfold ntfsAreRlMergeable
  rw [hvcn, hlcn]

theorem endVcn_of_mergeable {dst src : RunlistElement}
    (hmrg : ntfsAreRlMergeable dst src = true) (hlcn : src.lcn ≠ lcnRlNotMapped) :
    endVcn dst = src.vcn := by
  unfold ntfsAreRlMergeable at hmrg
  rw [if_neg fun h => hlcn h.2] at hmrg
  by_contra hne
  have hfalse : false = true := (if_pos hne).symm.trans hmrg
  exact absurd hfalse (by decide)

theorem endVcn_ntfsRlMerge {dst src : RunlistElement}
    (hmrg : ntfsAreRlMergeable dst src = true) (hlcn : src.lcn ≠ lcnRlNotMapped) :
    endVcn (ntfsRlMerge dst src) = endVcn src := by
  have hadj := endVcn_of_mergeable hmrg hlcn
  unfold endVcn at *
  rw [← hadj, s64_s64_add]
  simp only [ntfsRlMerge]
  rw [add_comm dst.vcn, s64_s64_add]
  congr 1
  ring

theorem exists_grown_cons (first : RunlistElement) (runs rest : List RunlistElement) :
    ∃ head more, grown (first :: runs) rest = head :: more ∧ head.vcn = first.vcn ∧
      head.lcn = first.lcn := by
  rcases eq_nil_or_concat runs with rfl | ⟨front, final, rfl⟩
  · cases rest with
    | nil => exact ⟨first, [], by simp, rfl, rfl⟩
    | cons next rest =>
      refine ⟨_, [], grown_concat_cons [] rest first next, ?_, ?_⟩ <;> split_ifs <;> rfl
  · cases rest with
    | nil => exact ⟨first, front ++ [final], by simp, rfl, rfl⟩
    | cons next rest =>
      rw [concat_eq_append]
      exact ⟨first, _, grown_concat_cons (first :: front) rest final next, rfl, rfl⟩

theorem head?_grown_lcn_ne {lcn : ℤ} (hhead : ∀ first ∈ runs.head?, first.lcn ≠ lcn) :
    ∀ first ∈ (grown runs rest).head?, first.lcn ≠ lcn := by
  cases runs with
  | nil => exact hhead
  | cons first runs =>
    obtain ⟨head, more, hgrown, -, hlcn⟩ := exists_grown_cons first runs rest
    rw [hgrown]
    rintro other ⟨⟩
    rw [hlcn]
    exact hhead first rfl

theorem meets_grown (before : List RunlistElement) (hruns : runs ≠ [])
    (rest : List RunlistElement) : meets before (grown runs rest) = meets before runs := by
  obtain ⟨first, runs, rfl⟩ := exists_cons_of_ne_nil hruns
  obtain ⟨head, more, hgrown, hvcn, hlcn⟩ := exists_grown_cons first runs rest
  rw [hgrown]
  rcases eq_nil_or_concat before with rfl | ⟨front, final, rfl⟩
  · rfl
  · rw [concat_eq_append, meets_concat_cons, meets_concat_cons,
      ntfsAreRlMergeable_congr final hvcn hlcn]

theorem splice_append (hruns : runs ≠ []) (before more : List RunlistElement) :
    splice before (runs ++ more) = splice before runs ++ more := by
  obtain ⟨first, runs, rfl⟩ := exists_cons_of_ne_nil hruns
  have hle : (meets before (first :: runs)).toNat ≤ (first :: runs).length := toNat_meets_le _ _
  have hmt : meets before (first :: runs ++ more) = meets before (first :: runs) := by
    unfold meets
    cases before.getLast? <;> rfl
  have hgrown : grown before (first :: runs ++ more) = grown before (first :: runs) := by
    unfold grown
    cases before.getLast? <;> rfl
  rw [splice, splice, hmt, hgrown, drop_append_of_le_length hle, append_assoc]

theorem length_splice (before runs : List RunlistElement) :
    (splice before runs).length + (meets before runs).toNat = before.length + runs.length := by
  have hle := toNat_meets_le before runs
  rw [splice, length_append, length_grown, length_drop]
  omega

theorem splice_ne_nil (hruns : runs ≠ []) (before : List RunlistElement) :
    splice before runs ≠ [] := by
  rcases eq_nil_or_concat before with rfl | ⟨front, final, rfl⟩
  · simpa [splice, grown, meets] using hruns
  · exact append_ne_nil_of_left_ne_nil (grown_ne_nil (by simp) runs) _

theorem splice_ne_nil_left (hruns : runs ≠ []) (rest : List RunlistElement) :
    splice runs rest ≠ [] :=
  append_ne_nil_of_left_ne_nil (grown_ne_nil hruns rest) _

theorem endOf_splice (hruns : runs ≠ []) (hhead : ∀ first ∈ runs.head?, first.lcn ≠ lcnRlNotMapped)
    (before : List RunlistElement) : endOf (splice before runs) = endOf runs := by
  obtain ⟨first, runs, rfl⟩ := exists_cons_of_ne_nil hruns
  rcases eq_nil_or_concat before with rfl | ⟨front, final, rfl⟩
  · rfl
  · rw [concat_eq_append, splice, grown_concat_cons, meets_concat_cons]
    by_cases hmrg : ntfsAreRlMergeable final first = true
    · rw [hmrg, if_pos rfl, Bool.toNat_true, drop_succ_cons, drop_zero]
      -- The first run has gone into the element in front of it.
      cases runs with
      | nil =>
        rw [append_nil, endOf_concat, endVcn_ntfsRlMerge hmrg (hhead first rfl)]
        rfl
      | cons second runs =>
        rw [endOf_append _ (by simp)]
        exact (endOf_append [first] (by simp)).symm
    · rw [Bool.not_eq_true] at hmrg
      rw [hmrg, Bool.toNat_false, drop_zero, endOf_append _ (by simp)]

theorem length_pos_of_meets (hmt : meets before runs = true) : 0 < before.length := by
  rcases eq_nil_or_concat before with rfl | ⟨front, final, rfl⟩
  · simp [meets] at hmt
  · simp

theorem exists_grown_left {source : RlArray} (hblk : Segment block.elem 0 before)
    (hsour : Segment source.elem sofs runs) (hruns : runs ≠ []) :
    ∃ front, (if meets before runs then store block (before.length - 1)
        (ntfsRlMerge (block.elem (before.length - 1)) (source.elem sofs)) else block) = front ∧
      front.bytes = block.bytes ∧ Segment front.elem 0 (grown before runs) ∧
      ∀ i, before.length ≤ i → front.elem i = block.elem i := by
  refine ⟨_, rfl, ite_store_bytes _ _ _ _, ?_, fun i hi => ?_⟩
  · obtain ⟨first, runs, rfl⟩ := exists_cons_of_ne_nil hruns
    rcases eq_nil_or_concat before with rfl | ⟨front, final, rfl⟩
    · trivial
    · rw [hsour.1]
      have hgrown := segment_grown hblk (by simp) (first :: runs) first (by simp)
      simpa only [zero_add] using hgrown
  · split_ifs with hmt
    · have hpos := length_pos_of_meets hmt
      rw [store_elem, update_of_ne (by omega)]
    · rfl

theorem length_replaceRuns (before : List RunlistElement) (hruns : runs ≠ [])
    (rest : List RunlistElement) :
    (replaceRuns before runs rest).length + (meets before runs).toNat + (meets runs rest).toNat =
      before.length + runs.length + rest.length := by
  have hspli := length_splice before (grown runs rest)
  have hdrop := toNat_meets_le runs rest
  rw [meets_grown before hruns, length_grown] at hspli
  rw [replaceRuns, spliceTail, splice_append (grown_ne_nil hruns rest), length_append,
    length_fixMarker, length_drop]
  omega

theorem ntfsRlReplace_spec (allocator : Allocator) (hdst : dst.Holds (before ++ run :: rest))
    (hsrc : Segment src.elem sofs runs) (hruns : runs ≠ [])
    (hhead : ∀ first ∈ runs.head?, first.lcn ≠ lcnRlNotMapped) :
    let outcome := ntfsRlReplace allocator dst (before ++ run :: rest).length src sofs runs.length
      before.length
    outcome.RunsShort allocator dst src ∨
      ∃ block, outcome = .done block ∧ block.Holds (replaceRuns before runs rest) ∧
        pageAlign ((before ++ run :: rest).length * elementSize) ≤ block.bytes ∧
        ∀ i, (replaceRuns before runs rest).length ≤ i → block.elem i = dst.elem i ∨
          (before ++ run :: rest).length ≤ i ∧ block.elem i = allocator.junk i := by
  have hpos := length_pos_iff.mpr hruns
  have hdrop := toNat_meets_le runs rest
  have hleftBit : (meets before runs).toNat ≤ 1 := Bool.toNat_le _
  have hgrownNe := grown_ne_nil hruns rest
  have hlen := length_around before run rest
  have hspli := length_splice before (grown runs rest)
  rw [meets_grown before hruns, length_grown] at hspli
  have hcnt := length_replaceRuns before hruns rest
  have hrestLength := length_drop (i := (meets runs rest).toNat) (l := rest)
  unfold ntfsRlReplace
  simp only [right_eq_meets hdst.2 hsrc hruns, left_eq_meets hdst.2 hsrc hruns]
  rcases growBy_spec allocator hdst (show ((replaceRuns before runs rest).length : ℤ) =
    (before ++ run :: rest).length + (runs.length - 1 - (meets before runs).toNat -
      (meets runs rest).toNat) by omega) with
    ⟨herr, hnone⟩ | ⟨block, hok, hby, hblk, hsame, hcl⟩
  · rw [herr]
    exact .inl ⟨rfl, hnone⟩
  · rw [hok]
    refine .inr ⟨_, rfl, ?_⟩
    have hgrown := segment_grown hsrc hruns rest _ (head?_of_meets hblk)
    generalize (if meets runs rest then store src (sofs + (runs.length - 1))
      (ntfsRlMerge (src.elem (sofs + (runs.length - 1))) (block.elem (before.length + 1)))
      else src) = source at hgrown ⊢
    have hspl := (segment_append _ _ _ _).mp hblk
    obtain ⟨front, hmerged, hfrontBytes, hfr, hkeep⟩ := exists_grown_left hspl.1 hgrown hgrownNe
    rw [meets_grown before hruns] at hmerged
    rw [hmerged]
    have hrest := segment_drop hspl.2.2 hdrop
    rw [zero_add] at hrest
    have hrestFront : Segment front.elem (before.length + (meets runs rest).toNat + 1)
        (rest.drop (meets runs rest).toNat) := by
      refine hrest.transfer fun i _ => ?_
      rw [hkeep _ (by omega), Nat.add_right_comm before.length]
    have hit := segment_drop hgrown
      (show (meets before runs).toNat ≤ (grown runs rest).length by rw [length_grown]; omega)
    have hitemsLength : ((grown runs rest).drop (meets before runs).toNat).length =
        runs.length - (meets before runs).toNat := by rw [length_drop, length_grown]
    have hmoved := segment_splice hfr hrestFront hit
      (show (grown before (grown runs rest)).length ≤ before.length by rw [length_grown])
    have hsize : (before ++ run :: rest).length - (before.length + (meets runs rest).toNat + 1) =
        (rest.drop (meets runs rest).toNat).length := by omega
    have hmrk : before.length + runs.length - (meets before runs).toNat =
        before.length + ((grown runs rest).drop (meets before runs).toNat).length := by omega
    rw [hsize, hmrk, ← hitemsLength]
    simp only [RlArray.Holds, ite_store_bytes, ite_store_elem, ntfsRlMc_bytes, ntfsRlMm_bytes,
      ntfsRlMc_elem, ntfsRlMm_elem, hfrontBytes]
    refine ⟨⟨hby, ?_⟩, ?_, fun i hlow => ?_⟩
    · generalize memcpy (memmove front.elem _ _ _) _ _ _ _ = cells at hmoved ⊢
      obtain ⟨hcl, hin, hbeh⟩ := hmoved
      have hjoin : Segment cells 0 (splice before (grown runs rest)) := by
        rw [splice, meets_grown before hruns, segment_append, length_grown, zero_add]
        exact ⟨hcl, hin⟩
      have hjoinLength : (splice before (grown runs rest)).length =
          before.length + ((grown runs rest).drop (meets before runs).toNat).length := by omega
      obtain ⟨-, hfixed, hmarkerFixed⟩ := segment_fixMarker (segment_nil cells 0) hjoin hbeh
        (splice_ne_nil hgrownNe before) (by omega) (Nat.zero_le _)
        (0 < (rest.drop (meets runs rest).toNat).length ∧
          (cells (before.length + ((grown runs rest).drop (meets before runs).toNat).length)).lcn =
            lcnEnoent) fun hne => and_iff_right (length_pos_iff.mpr hne)
      rw [endOf_splice hgrownNe (head?_grown_lcn_ne hhead)] at hmarkerFixed
      rw [replaceRuns, spliceTail, splice_append hgrownNe, segment_append, zero_add, hjoinLength]
      exact ⟨hfixed, hmarkerFixed⟩
    · rcases le_total (replaceRuns before runs rest).length (before ++ run :: rest).length with
        hle | hle
      · exact (hsame hle).symm ▸ hdst.1
      · exact (pageAlign_mono (Nat.mul_le_mul_right _ hle)).trans hby
    · -- Every write ends before the new length, so what lies behind is the reallocated block's.
      have hcell : memcpy (memmove front.elem (before.length +
          ((grown runs rest).drop (meets before runs).toNat).length)
          (before.length + (meets runs rest).toNat + 1) (rest.drop (meets runs rest).toNat).length)
          before.length source.elem (sofs + (meets before runs).toNat)
          ((grown runs rest).drop (meets before runs).toNat).length i = block.elem i := by
        rw [memcpy, if_neg (by omega), memmove, if_neg (by omega), hkeep i (by omega)]
      have hold : block.elem i = dst.elem i ∨
          (before ++ run :: rest).length ≤ i ∧ block.elem i = allocator.junk i := by
        by_cases hi : i < (before ++ run :: rest).length
        · exact .inl (by rw [hsame (by omega)])
        · exact (hcl i).imp_right fun h => ⟨by omega, h⟩
      split_ifs with hguard
      · rwa [update_of_ne (by omega), hcell]
      · rwa [hcell]

theorem segment_partAfter (hfr : Segment cells 0 front) (hruns : Segment cells pos runs)
    (hrest : Segment cells marker (run :: rest)) (hne : runs ≠ [])
    (hmrk : marker = pos + runs.length) (hpos : front.length ≤ marker) (guard : Bool)
    (hguard : guard = true → rest ≠ []) :
    let moved := update cells marker { cells marker with vcn := endVcn (cells (marker - 1)) }
    let fixed := if guard then update moved marker { moved marker with
      length := s64 ((moved (marker + 1)).vcn - (moved marker).vcn) } else moved
    Segment fixed 0 front ∧ Segment fixed pos runs ∧ Segment fixed marker
      ((if guard then partAfter run runs rest else { run with vcn := endOf runs }) :: rest) := by
  intro moved fixed
  obtain ⟨before, final, rfl⟩ := exists_concat hne
  have hfin : cells (pos + before.length) = final := ((segment_append _ _ _ _).mp hruns).2.1
  have hidx : marker - 1 = pos + before.length := by
    rw [hmrk]
    simp
  have hmoved : moved marker = { run with vcn := endVcn final } := by
    simp only [moved, update_self, hidx, hfin, hrest.1]
  have hstays : ∀ i, i ≠ marker → fixed i = cells i := by
    intro i hi
    cases guard <;> simp [fixed, moved, update_of_ne hi]
  refine ⟨hfr.transfer fun i hi => hstays _ (by omega), hruns.transfer fun i hi => ?_, ?_,
    hrest.2.transfer fun i hi => hstays _ (by omega)⟩
  · exact hstays _ (by omega)
  · rw [partAfter, endOf_concat]
    by_cases hg : guard = true
    · have hnext : (moved (marker + 1)).vcn = startOf rest := by
        simp only [moved, update_of_ne (show marker + 1 ≠ marker by omega)]
        exact segment_startOf hrest.2 (hguard hg)
      simp only [fixed, if_pos hg, update_self, hnext, hmoved]
    · simp only [fixed, if_neg hg, hmoved]

theorem adjustAfter_spec (hfr : Segment dst.elem 0 front) (hruns : Segment dst.elem pos runs)
    (hrest : Segment dst.elem marker (run :: rest)) (hne : runs ≠ [])
    (hmrk : marker = pos + runs.length) (hpos : front.length ≤ marker)
    (hgap : isGap run = true → rest ≠ [] ∧ marker + 1 < dst.cap) :
    ∃ fixed, adjustAfter dst marker = .ok fixed ∧ fixed.bytes = dst.bytes ∧
      Segment fixed.elem 0 front ∧ Segment fixed.elem pos runs ∧ Segment fixed.elem marker
        ((if isGap run then partAfter run runs rest else { run with vcn := endOf runs }) ::
        rest) := by
  have hfixed := segment_partAfter hfr hruns hrest hne hmrk hpos (isGap run) fun h => (hgap h).1
  have htest : isGap ((store dst marker { dst.elem marker with
      vcn := endVcn (dst.elem (marker - 1)) }).elem marker) = isGap run := by
    rw [store_elem, update_self, hrest.1]
    rfl
  unfold adjustAfter
  simp only [htest]
  by_cases hg : isGap run = true
  · simp only [hg] at hfixed ⊢
    exact ⟨_, if_neg (not_le.mpr (hgap hg).2), rfl, hfixed⟩
  · simp only [hg] at hfixed ⊢
    exact ⟨_, rfl, rfl, hfixed⟩

theorem disc_eq_leavesGap (hdst : Segment dst.elem 0 (before ++ rest))
    (hsrc : Segment src.elem sofs runs) (hruns : runs ≠ [])
    (hhead : ∀ first ∈ runs.head?, first.lcn ≠ lcnRlNotMapped ∧ first.vcn ≤ endVcn first) :
    (if before.length = 0 then decide (0 < (src.elem sofs).vcn)
      else decide (s64 ((dst.elem (before.length - 1)).vcn +
        if meets before runs then s64 ((dst.elem (before.length - 1)).length +
          (src.elem sofs).length) else (dst.elem (before.length - 1)).length) <
        (src.elem sofs).vcn)) = leavesGap before runs := by
  obtain ⟨first, runs, rfl⟩ := exists_cons_of_ne_nil hruns
  obtain ⟨hlcn, hforw⟩ := hhead first rfl
  rcases eq_nil_or_concat before with rfl | ⟨front, final, rfl⟩
  · rw [hsrc.1]
    rfl
  · rw [concat_eq_append] at hdst ⊢
    have hfin := ((segment_append _ _ _ _).mp ((segment_append _ _ _ _).mp hdst).1).2.1
    rw [zero_add] at hfin
    rw [if_neg (by simp), leavesGap, meets_concat_cons, endOf_concat, hsrc.1]
    simp only [length_append, length_cons, length_nil, Nat.add_sub_cancel, hfin]
    by_cases hmrg : ntfsAreRlMergeable final first = true
    · have hend := endVcn_ntfsRlMerge hmrg hlcn
      rw [hmrg, Bool.not_true, Bool.false_and, decide_eq_false_iff_not, not_lt]
      exact hforw.trans hend.ge
    · rw [Bool.not_eq_true _ |>.mp hmrg]
      rfl

theorem meets_of_leavesGap (hgap : leavesGap before runs = true) : meets before runs = false := by
  simpa using (Bool.and_eq_true_iff.mp hgap).1

theorem length_insertRuns (before : List RunlistElement) (run : RunlistElement)
    (rest : List RunlistElement) : (insertRuns before run runs rest).length =
      (before ++ run :: rest).length + runs.length - (meets before runs).toNat +
      (leavesGap before runs).toNat := by
  have hspli := length_splice before runs
  have hlen := length_around before run rest
  unfold insertRuns
  by_cases hgap : leavesGap before runs = true
  · rw [hgap, meets_of_leavesGap hgap]
    simp
    omega
  · rw [if_neg hgap, Bool.not_eq_true _ |>.mp hgap, length_append, length_cons, Bool.toNat_false]
    omega

theorem ntfsRlInsert_spec (allocator : Allocator) (hdst : dst.Holds (before ++ run :: rest))
    (hsrc : Segment src.elem sofs runs) (hruns : runs ≠ [])
    (hhead : ∀ first ∈ runs.head?, first.lcn ≠ lcnRlNotMapped ∧ first.vcn ≤ endVcn first)
    (hst : IsS64 (startOf runs)) (hrest : isGap run = true → rest ≠ []) :
    let outcome := ntfsRlInsert allocator dst (before ++ run :: rest).length src sofs runs.length
      before.length
    outcome.RunsShort allocator dst src ∨
      ∃ block, outcome = .done block ∧ block.Holds (insertRuns before run runs rest) := by
  have hposi := length_pos_iff.mpr hruns
  have hleftBit : (meets before runs).toNat ≤ 1 := Bool.toNat_le _
  have hlen := length_around before run rest
  have hspli := length_splice before runs
  have hcnt := @length_insertRuns runs before run rest
  unfold ntfsRlInsert
  simp only [left_eq_meets hdst.2 hsrc hruns, disc_eq_leavesGap hdst.2 hsrc hruns hhead]
  rcases ntfsRlRealloc_spec allocator hdst (show (before ++ run :: rest).length ≤
    (before ++ run :: rest).length + runs.length - (meets before runs).toNat +
      (leavesGap before runs).toNat by omega) with
    ⟨herr, hmemo⟩ | ⟨block, hok, hby, hblk, hcl⟩
  · rw [herr]
    exact .inl ⟨rfl, hmemo⟩
  · rw [hok]
    right
    have hroom := hby ▸ le_reallocBytes hdst _
    rw [← hcnt] at hroom
    have hspl := (segment_append _ _ _ _).mp hblk
    rw [zero_add] at hspl
    have hsize : (before ++ run :: rest).length - before.length = (run :: rest).length := by
      rw [length_cons]
      omega
    rw [hsize]
    have hin : isGap run = true → ∀ marker, marker + rest.length + 1 =
        (insertRuns before run runs rest).length → rest ≠ [] ∧ marker + 1 < block.cap := by
      intro hgap marker hmrk
      have hpos := length_pos_iff.mpr (hrest hgap)
      exact ⟨hrest hgap, lt_cap_of_pageAlign_le hroom (by omega)⟩
    by_cases hgap : leavesGap before runs = true
    · have hmt := meets_of_leavesGap hgap
      rw [hgap, hmt] at hcnt ⊢
      simp only [Bool.toNat_false, Bool.toNat_true, Nat.sub_zero, Nat.add_zero, if_true,
        Bool.false_eq_true, if_false] at hcnt ⊢
      have hmoved := segment_splice hspl.1 hspl.2 hsrc (Nat.le_add_right before.length 1)
      rw [show before.length + 1 + runs.length = before.length + runs.length + 1 by omega,
        ← ntfsRlMm_elem, ← ntfsRlMc_elem] at hmoved
      have hmovedBytes : (ntfsRlMc (ntfsRlMm block (before.length + runs.length + 1) before.length
        (run :: rest).length) (before.length + 1) src sofs runs.length).bytes = block.bytes := by
        rw [ntfsRlMc_bytes, ntfsRlMm_bytes]
      obtain ⟨hbef, hins, hbeh⟩ := hmoved
      obtain ⟨fixed, hfixed, hfixedBytes, hfr, hruns', hrest'⟩ := adjustAfter_spec hbef
        hins hbeh hruns (by omega) (by omega) fun hg => by
          rw [RlArray.cap, hmovedBytes]
          exact hin hg _ (by omega)
      rw [hfixed]
      refine ⟨_, rfl, by rwa [store_bytes, hfixedBytes, hmovedBytes], ?_⟩
      rw [insertRuns, if_pos hgap, store_elem, segment_endOf hfr, segment_startOf hruns' hruns]
      have hgapLength : (if 0 < before.length then s64 (startOf runs - endOf before)
          else startOf runs) = s64 (startOf runs - endOf before) := by
        split_ifs with hpos
        · rfl
        · rw [length_eq_zero_iff.mp (show before.length = 0 by omega)]
          rw [show endOf [] = 0 from rfl, sub_zero, s64_of_isS64 hst]
      rw [hgapLength, segment_append, segment_cons, segment_append, zero_add, update_self,
        show before.length + 1 + runs.length = before.length + runs.length + 1 by omega]
      exact ⟨hfr.update_of_le (by omega), rfl, hruns'.update_of_lt (by omega),
        hrest'.update_of_lt (by omega)⟩
    · rw [Bool.not_eq_true _ |>.mp hgap] at hcnt ⊢
      simp only [Bool.toNat_false, Nat.add_zero, Bool.false_eq_true, if_false] at hcnt ⊢
      obtain ⟨front, hmerged, hfrontBytes, hfr, hkeep⟩ := exists_grown_left hspl.1 hsrc hruns
      rw [hmerged]
      have hrestFront : Segment front.elem before.length (run :: rest) :=
        hspl.2.transfer fun i _ => hkeep _ (by omega)
      have hit := segment_drop hsrc (show (meets before runs).toNat ≤ runs.length by omega)
      have hitemsLength := length_drop (i := (meets before runs).toNat) (l := runs)
      have hmoved := segment_splice hfr hrestFront hit
        (show (grown before runs).length ≤ before.length by rw [length_grown])
      rw [hitemsLength, ← Nat.add_sub_assoc (by omega), ← ntfsRlMm_elem, ← ntfsRlMc_elem] at hmoved
      have hmovedBytes : (ntfsRlMc (ntfsRlMm front (before.length + runs.length -
        (meets before runs).toNat) before.length (run :: rest).length) before.length src
        (sofs + (meets before runs).toNat) (runs.length - (meets before runs).toNat)).bytes =
          block.bytes := by
        rw [ntfsRlMc_bytes, ntfsRlMm_bytes, hfrontBytes]
      generalize ntfsRlMc _ _ _ _ _ = moved at hmoved hmovedBytes ⊢
      obtain ⟨hbef, hins, hbeh⟩ := hmoved
      have hjoin : Segment moved.elem 0 (splice before runs) := by
        rw [splice, segment_append, length_grown, zero_add]
        exact ⟨hbef, hins⟩
      obtain ⟨fixed, hfixed, hfixedBytes, -, hspli', hrest'⟩ := adjustAfter_spec
        (segment_nil moved.elem 0) hjoin hbeh (splice_ne_nil hruns before) (by omega)
        (Nat.zero_le _) fun hg => by
          rw [RlArray.cap, hmovedBytes]
          exact hin hg _ (by omega)
      rw [hfixed]
      refine ⟨_, rfl, by rwa [hfixedBytes, hmovedBytes], ?_⟩
      rw [insertRuns, if_neg hgap, segment_append, zero_add,
        show (splice before runs).length = before.length + runs.length - (meets before runs).toNat
          by omega]
      rw [partAfter, endOf_splice hruns fun first hfst => (hhead first hfst).1] at hrest'
      exact ⟨hspli', hrest'⟩

theorem ntfsRlSplit_spec (allocator : Allocator) (hdst : dst.Holds (before ++ run :: rest))
    (hsrc : Segment src.elem sofs runs) (hruns : runs ≠ []) (hrest : rest ≠ []) :
    let outcome := ntfsRlSplit allocator dst (before ++ run :: rest).length src sofs runs.length
      before.length
    outcome.RunsShort allocator dst src ∨
      ∃ block, outcome = .done block ∧ block.Holds (splitRuns before run runs rest) := by
  have hpos := length_pos_iff.mpr hrest
  have hlen := length_around before run rest
  have hcnt : (splitRuns before run runs rest).length = (before ++ run :: rest).length +
      runs.length + 1 := by
    simp only [splitRuns, length_append, length_cons]
    omega
  unfold ntfsRlSplit
  rcases ntfsRlRealloc_spec allocator hdst (show (before ++ run :: rest).length ≤
    (before ++ run :: rest).length + runs.length + 1 by omega) with
    ⟨herr, hmemo⟩ | ⟨block, hok, hby, hblk, hcl⟩
  · rw [herr]
    exact .inl ⟨rfl, hmemo⟩
  · rw [hok]
    right
    have hroom := hby ▸ le_reallocBytes hdst _
    rw [← hcnt] at hroom
    have hin : ¬ block.cap ≤ before.length + runs.length + 2 :=
      not_le.mpr (lt_cap_of_pageAlign_le hroom (by omega))
    have hspl := (segment_append _ _ _ _).mp hblk
    rw [zero_add] at hspl
    have hfr : Segment block.elem 0 (before ++ [run]) :=
      (segment_append _ _ _ _).mpr ⟨hspl.1, by rw [zero_add]; exact ⟨hspl.2.1, trivial⟩⟩
    have hmoved := segment_splice hfr hspl.2 hsrc
      (show (before ++ [run]).length ≤ before.length + 1 by simp)
    have hsize : (before ++ run :: rest).length - before.length = (run :: rest).length := by
      rw [length_cons]
      omega
    rw [hsize]
    simp only [RlArray.cap, store_bytes, ntfsRlMc_bytes, ntfsRlMm_bytes]
    rw [← RlArray.cap, if_neg hin]
    refine ⟨_, rfl, ?_, ?_⟩
    · simpa only [store_bytes, ntfsRlMc_bytes, ntfsRlMm_bytes] using hroom
    · simp only [store_elem, ntfsRlMc_elem, ntfsRlMm_elem]
      obtain ⟨hcl, hins, hbeh⟩ := hmoved
      obtain ⟨cut, hcut, hpart, hkept⟩ := segment_partBefore hcl hins hruns rfl
      rw [hcut]
      have hfixed := segment_partAfter hpart (hins.transfer fun i _ => hkept _ (by omega))
        (hbeh.transfer fun i _ => hkept _ (by omega)) hruns rfl (by simp) true fun _ => hrest
      simp only [if_true] at hfixed
      rw [show before.length + 1 + runs.length = before.length + runs.length + 1 by omega,
        show before.length + runs.length + 1 - 1 = before.length + runs.length by omega] at hfixed
      obtain ⟨hfr', hruns', hrest'⟩ := hfixed
      have hwh := segment_join hfr' hruns' hrest' (by simp) (by omega)
      simpa only [splitRuns, ← append_cons] using hwh

end AdvancedOs.Ntfs.RunlistMergeRoutines
