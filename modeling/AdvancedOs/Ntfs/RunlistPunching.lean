import AdvancedOs.Ntfs.RunlistSurgery

/-!
# Punching a hole into a runlist

`ntfs_rl_punch_nolock` turns the clusters from `start` on into a hole. What it has to do to the
array depends on whether `start` lies in a hole, at the start of a run or inside one, and on the
element the end lies in: it stretches a hole, and drops and trims what the hole covers, or it makes
room for one or two further elements and splits a run.

The proof has two sides. The steps are followed on lists of elements, whatever these mean:
`dropCovered_spec`, `segment_splitEnd`, `segment_splitNext`, `segment_splitBoth` and `meetHole_spec`
say what each leaves in the array. `AtStop` says where the end lies, and `punched_of_front` that a
hole between what was in front and what is left behind is the runlist with the hole punched into it.
The function leaves the hole, or an error and nothing changed (`ntfsRlPunchNolock_spec`).
-/

namespace AdvancedOs.Ntfs.RunlistPunching

open Foundation.ArraySegments Foundation.SignedWords RunlistElements RunlistMergeRoutines
  RunlistMerge RunlistSurgery List

/-! ### The function -/

/-- The loop that looks for the element containing `stop`. It fails at an element that is neither
mapped nor a hole. -/
def seekEnd (stop : ℤ) (cells : ℕ → RunlistElement) : ℕ → ℕ → Except Failure ℕ
  | 0, _ => .error .overrun
  | fuel + 1, i =>
    if (cells i).length ≠ 0 ∧ (cells (i + 1)).vcn ≤ stop then
      if (cells i).lcn < lcnHole then .error (.errno .einval) else seekEnd stop cells fuel (i + 1)
    else .ok i

/-- Cuts out the elements from `i` up to but excluding `rlEnd`, where `rlRealEnd` is the
terminator. -/
def cutOut (block : RlArray) (i rlEnd rlRealEnd : ℕ) : RlArray :=
  if i < rlEnd then { block with elem := memmove block.elem i rlEnd (rlRealEnd - rlEnd + 1) }
  else block

/-- The code at `shrink_allocation`: gives back the memory of the elements that were cut out. -/
def shrinkAllocation (allocator : Allocator) (block : RlArray) (oldSize i rlEnd : ℕ) : Edited :=
  ⟨some (if i < rlEnd then shrinkTo allocator block oldSize (oldSize - (rlEnd - i)) else block),
    .ok ()⟩

/-- The element without the part before `stop`. -/
def trim (stop : ℤ) (run : RunlistElement) : RunlistElement :=
  let delta := s64 (stop - run.vcn)
  ⟨stop, if 0 ≤ run.lcn then s64 (run.lcn + delta) else run.lcn, s64 (run.length - delta)⟩

/-- Cuts out the elements from `i` on that a hole up to `stop` covers. -/
def dropCovered (allocator : Allocator) (block : RlArray) (oldSize i rlEnd rlRealEnd : ℕ)
    (stop : ℤ) : Edited :=
  let block := cutOut block i rlEnd rlRealEnd
  let block := if (block.elem i).vcn < stop then store block i (trim stop (block.elem i)) else block
  shrinkAllocation allocator block oldSize i rlEnd

/-- The code at `extend_hole`: the hole at `i` goes up to `stop`, or to the end of a hole that
`stop` is in. -/
def extendHole (allocator : Allocator) (block : RlArray) (oldSize i rlEnd rlRealEnd : ℕ)
    (stop : ℤ) : Edited :=
  let block := store block i { block.elem i with length := s64 (stop - (block.elem i).vcn) }
  let atHole := (block.elem rlEnd).lcn = lcnHole
  let rlEnd := if atHole then rlEnd + 1 else rlEnd
  let block := if atHole then
    store block i { block.elem i with
      length := s64 ((block.elem rlEnd).vcn - (block.elem i).vcn) } else block
  -- The hole is done, and now the remaining tail.
  dropCovered allocator block oldSize (i + 1) rlEnd rlRealEnd stop

/-- The code at `split_end`: the first `length` clusters of the run at `i` become a hole. -/
def splitEnd (block : RlArray) (i rlRealEnd : ℕ) (length : ℤ) (lcnFixup : Bool) : RlArray :=
  let block := { block with elem := memmove block.elem (i + 1) i (rlRealEnd - i + 1) }
  let block := store block i { block.elem i with lcn := lcnHole, length := length }
  let run := block.elem (i + 1)
  store block (i + 1) ⟨s64 (run.vcn + length),
    if 0 ≤ run.lcn ∨ lcnFixup then s64 (run.lcn + length) else run.lcn, s64 (run.length - length)⟩

/-- The run at `i` without the part from `start` on. -/
def truncateRun (block : RlArray) (i : ℕ) (start : ℤ) : RlArray :=
  store block i { block.elem i with length := s64 (start - (block.elem i).vcn) }

/-- The end is in a hole, which is stretched to the front up to `start`, inside the run at `i`. -/
def meetHole (allocator : Allocator) (block : RlArray) (oldSize i rlEnd rlRealEnd : ℕ)
    (start : ℤ) : Edited :=
  let block := cutOut (truncateRun block i start) (i + 1) rlEnd rlRealEnd
  let block := store block (i + 1) { block.elem (i + 1) with
    vcn := start, length := s64 ((block.elem (i + 1 + 1)).vcn - start) }
  shrinkAllocation allocator block oldSize (i + 1) rlEnd

/-- The end is in the element behind the run at `i`, which `start` is inside of. The element is
moved to the front up to `start` and then split. -/
def splitNext (block : RlArray) (i rlRealEnd : ℕ) (start length : ℤ) : RlArray :=
  let block := truncateRun block i start
  let run := block.elem (i + 1)
  let delta := s64 (run.vcn - start)
  let block := store block (i + 1)
    ⟨start, if 0 ≤ run.lcn then s64 (run.lcn - delta) else run.lcn, s64 (run.length + delta)⟩
  splitEnd block (i + 1) rlRealEnd length (decide (0 ≤ run.lcn))

/-- The run at `i` is split into three. -/
def splitBoth (block : RlArray) (i rlRealEnd : ℕ) (start length stop : ℤ) : RlArray :=
  let block := { block with elem := memmove block.elem (i + 2) i (rlRealEnd - i + 1) }
  let block := truncateRun block i start
  let block := store block (i + 1) ⟨start, lcnHole, length⟩
  let run := block.elem (i + 2)
  let delta := s64 (stop - run.vcn)
  store block (i + 2) ⟨stop, s64 (run.lcn + delta), s64 (run.length - delta)⟩

/-- Goes on with a block that has room for more elements, unless there is no memory for them. -/
def withRoom (allocator : Allocator) (block : RlArray) (oldSize newSize : ℕ)
    (next : RlArray → RlArray) : Edited :=
  match ntfsRlRealloc allocator block oldSize newSize with
  | .error _ => ⟨some block, .error (.errno .enomem)⟩
  | .ok larger => ⟨some (next larger), .ok ()⟩

/-- The second half of `ntfs_rl_punch_nolock`, with `start` in the element `i`, the end in the
element `rlEnd` and the terminator at `rlRealEnd`. -/
def punchAt (allocator : Allocator) (block : RlArray) (i rlEnd rlRealEnd : ℕ)
    (start length stop : ℤ) : Edited :=
  let oldSize := rlRealEnd + 1
  if (block.elem i).lcn = lcnHole then
    if stop ≤ (block.elem (i + 1)).vcn then ⟨some block, .ok ()⟩
    else extendHole allocator block oldSize i rlEnd rlRealEnd stop
  else if start = (block.elem i).vcn then
    if 0 < i ∧ (block.elem (i - 1)).lcn = lcnHole then
      extendHole allocator block oldSize (i - 1) rlEnd rlRealEnd stop
    else if (block.elem (i + 1)).vcn ≤ stop then
      extendHole allocator (store block i { block.elem i with lcn := lcnHole }) oldSize i rlEnd
        rlRealEnd stop
    else withRoom allocator block oldSize (oldSize + 1) fun block =>
      splitEnd block i rlRealEnd length false
  else if (block.elem rlEnd).lcn = lcnHole then
    meetHole allocator block oldSize i rlEnd rlRealEnd start
  else if (block.elem (i + 1)).vcn ≤ stop then
    if (block.elem (i + 1)).length ≠ 0 ∧ (block.elem (i + 2)).vcn ≤ stop then
      let block := truncateRun block i start
      extendHole allocator
        (store block (i + 1) { block.elem (i + 1) with vcn := start, lcn := lcnHole }) oldSize
        (i + 1) rlEnd rlRealEnd stop
    else withRoom allocator block oldSize (oldSize + 1) fun block =>
      splitNext block i rlRealEnd start length
  else withRoom allocator block oldSize (oldSize + 2) fun block =>
    splitBoth block i rlRealEnd start length stop

def ntfsRlPunchNolock (allocator : Allocator) (rl : Option RlArray) (start length : ℤ) : Edited :=
  let stop := s64 (start + length)
  if start < 0 ∨ length < 0 ∨ stop < 0 then ⟨rl, .error .bug⟩
  else match rl with
    | none => ⟨none, if start = 0 ∧ length = 0 then .ok () else .error (.errno .enoent)⟩
    | some block =>
      match seekFrom start block 0 with
      | none => ⟨some block, .error .overrun⟩
      | some i =>
        match seekEnd stop block.elem (block.cap - i) i with
        | .error why => ⟨some block, .error why⟩
        | .ok rlEnd =>
          if (block.elem rlEnd).length ≠ 0 ∧ (block.elem rlEnd).lcn < lcnHole then
            ⟨some block, .error (.errno .einval)⟩
          else if (block.elem rlEnd).length = 0 ∧ (block.elem rlEnd).vcn < stop then
            ⟨some block, .error (.errno .enoent)⟩
          else if length = 0 then ⟨some block, .ok ()⟩
          else if (block.elem i).length = 0 then ⟨some block, .error (.errno .enoent)⟩
          else match scanFrom (fun run => run.length = 0) block rlEnd with
            | none => ⟨some block, .error .overrun⟩
            | some rlRealEnd => punchAt allocator block i rlEnd rlRealEnd start length stop

/-! ### What the steps do to the array -/

section

variable {block : RlArray} {front gone tail : List RunlistElement} {run fin : RunlistElement}
variable {items : List RunlistElement} {rlEnd rlRealEnd : ℕ} {next : RunlistElement}

theorem segment_cutOut (hcl : Segment block.elem 0 (front ++ (gone ++ fin :: tail)))
    (hend : rlEnd = front.length + gone.length) (hreal : rlRealEnd = rlEnd + tail.length) :
    Segment (cutOut block front.length rlEnd rlRealEnd).elem 0 (front ++ fin :: tail) := by
  rw [segment_append, segment_append] at hcl
  obtain ⟨hfr, -, htail⟩ := hcl
  rw [Nat.zero_add, ← hend] at htail
  rw [segment_append, Nat.zero_add]
  unfold cutOut
  split_ifs with hcut
  · refine ⟨hfr.memmove_outside (.inl (by omega)), ?_⟩
    have hmoved : Segment (memmove block.elem front.length rlEnd (rlRealEnd - rlEnd + 1))
        (rlEnd - rlEnd + front.length) (fin :: tail) :=
      htail.memmove_inside le_rfl (by simp only [length_cons]; omega)
    rwa [Nat.sub_self, Nat.zero_add] at hmoved
  · have hnone : rlEnd = front.length := by omega
    exact ⟨hfr, hnone ▸ htail⟩

@[simp] theorem cutOut_bytes (block : RlArray) (i rlEnd rlRealEnd : ℕ) :
    (cutOut block i rlEnd rlRealEnd).bytes = block.bytes := by
  unfold cutOut
  split_ifs <;> rfl

theorem shrinkAllocation_spec (allocator : Allocator) {oldSize i : ℕ}
    (hroom : pageAlign (oldSize * elementSize) ≤ block.bytes)
    (hseg : Segment block.elem 0 items) (hlength : items.length + (rlEnd - i) = oldSize) :
    ∃ after, shrinkAllocation allocator block oldSize i rlEnd = ⟨some after, .ok ()⟩ ∧
      after.Holds items := by
  refine ⟨_, rfl, ?_⟩
  split_ifs with hcut
  · exact holds_shrinkTo allocator hroom hseg (by omega) (by omega)
  · refine ⟨le_trans (pageAlign_mono (Nat.mul_le_mul_right _ ?_)) hroom, hseg⟩
    omega

/-- The element that is left of `fin` behind `stop`. -/
def trimmed (stop : ℤ) (fin : RunlistElement) : RunlistElement :=
  if fin.vcn < stop then trim stop fin else fin

/-- Assumes: a list, elements to be cut out, and the element at the end. The list is followed by
what is left of that element. -/
theorem dropCovered_spec (allocator : Allocator) (stop : ℤ)
    (hholds : block.Holds (front ++ (gone ++ fin :: tail)))
    (hend : rlEnd = front.length + gone.length) (hreal : rlRealEnd = rlEnd + tail.length) :
    ∃ after, dropCovered allocator block (rlRealEnd + 1) front.length rlEnd rlRealEnd stop =
        ⟨some after, .ok ()⟩ ∧ after.Holds (front ++ trimmed stop fin :: tail) := by
  obtain ⟨hroom, hcl⟩ := hholds
  have hcut := segment_cutOut hcl hend hreal
  have hcell : (cutOut block front.length rlEnd rlRealEnd).elem front.length = fin := by
    simpa using ((segment_append _ _ _ _).mp hcut).2.1
  have hsize : (front ++ (gone ++ fin :: tail)).length = rlRealEnd + 1 := by
    simp only [length_append, length_cons]
    omega
  rw [hsize] at hroom
  unfold dropCovered trimmed
  simp only [hcell]
  refine shrinkAllocation_spec allocator (by simpa using hroom) ?_ ?_
  · split_ifs
    · simpa using hcut.update_at (trim stop fin)
    · exact hcut
  · simp only [length_append, length_cons]
    omega

theorem extendHole_of_ne (allocator : Allocator) (stop : ℤ)
    (hholds : block.Holds (front ++ run :: (gone ++ fin :: tail))) (hfin : fin.lcn ≠ lcnHole)
    (hend : rlEnd = front.length + 1 + gone.length) (hreal : rlRealEnd = rlEnd + tail.length) :
    ∃ after, extendHole allocator block (rlRealEnd + 1) front.length rlEnd rlRealEnd stop =
      ⟨some after, .ok ()⟩ ∧
      after.Holds (front ++ { run with length := s64 (stop - run.vcn) } ::
      trimmed stop fin :: tail) := by
  have hcell := elem_of_holds hholds rfl
  have hset := holds_store hholds { run with length := s64 (stop - run.vcn) } rfl
  rw [append_cons] at hset
  have hpar := hset
  rw [← append_assoc] at hpar
  have hat := elem_of_holds hpar (i := rlEnd) (by simp; omega)
  obtain ⟨after, hres, haft⟩ :=
    dropCovered_spec allocator stop hset (by simpa using hend) hreal
  unfold extendHole
  simp only [hcell, hat, if_neg hfin]
  exact ⟨after, by simpa using hres, by simpa using haft⟩

theorem extendHole_of_eq (allocator : Allocator) {stop : ℤ}
    (hholds : block.Holds (front ++ run :: (gone ++ fin :: next :: tail)))
    (hfin : fin.lcn = lcnHole) (hnext : stop ≤ next.vcn)
    (hend : rlEnd = front.length + 1 + gone.length)
    (hreal : rlRealEnd = rlEnd + (next :: tail).length) :
    ∃ after, extendHole allocator block (rlRealEnd + 1) front.length rlEnd rlRealEnd stop =
      ⟨some after, .ok ()⟩ ∧
      after.Holds (front ++ { run with length := s64 (next.vcn - run.vcn) } :: next :: tail) := by
  have hcell := elem_of_holds hholds rfl
  have hfst := holds_store hholds { run with length := s64 (stop - run.vcn) } rfl
  have hset := holds_store hfst { run with length := s64 (next.vcn - run.vcn) } rfl
  have hself := elem_of_holds hfst rfl
  rw [append_cons, ← append_assoc] at hfst
  have hat := elem_of_holds hfst (i := rlEnd) (by simp; omega)
  have hbeh := elem_succ_of_holds hfst (i := rlEnd + 1) (by simp; omega)
  rw [append_cons, append_cons gone] at hset
  obtain ⟨after, hres, haft⟩ := dropCovered_spec allocator stop hset
    (show rlEnd + 1 = _ by simp; omega) (show rlRealEnd = _ by rw [hreal, length_cons]; omega)
  unfold extendHole
  simp only [hcell, hat, if_pos hfin, hbeh]
  refine ⟨after, by simpa using hres, ?_⟩
  have hkept : trimmed stop next = next := if_neg (not_lt.mpr hnext)
  rw [hkept] at haft
  simpa using haft

theorem segment_shift {cells : ℕ → RunlistElement} {count : ℕ}
    (hcl : Segment cells 0 (front ++ run :: tail)) (hcnt : 0 < count) :
    Segment (memmove cells (front.length + count) front.length (tail.length + 1)) 0
        (front ++ [run]) ∧
      Segment (memmove cells (front.length + count) front.length (tail.length + 1))
        (front.length + count) (run :: tail) := by
  have htail := ((segment_append _ _ _ _).mp hcl).2
  rw [Nat.zero_add] at htail
  rw [append_cons, segment_append] at hcl
  refine ⟨hcl.1.memmove_outside (.inl (by simp; omega)), ?_⟩
  · have hmoved : Segment (memmove cells (front.length + count) front.length (tail.length + 1))
        (front.length - front.length + (front.length + count)) (run :: tail) :=
      htail.memmove_inside le_rfl le_rfl
    rwa [Nat.sub_self, Nat.zero_add] at hmoved

/-- Splitting a run turns its first clusters into a hole. -/
theorem segment_splitEnd (rlRealEnd : ℕ) (length : ℤ) (lcnFixup : Bool)
    (hcl : Segment block.elem 0 (front ++ run :: tail))
    (hreal : rlRealEnd = front.length + tail.length) :
    Segment (splitEnd block front.length rlRealEnd length lcnFixup).elem 0
      (front ++ { run with lcn := lcnHole, length := length } ::
        ⟨s64 (run.vcn + length), if 0 ≤ run.lcn ∨ lcnFixup then s64 (run.lcn + length) else run.lcn,
          s64 (run.length - length)⟩ :: tail) := by
  obtain ⟨hkept, hmoved⟩ := segment_shift hcl (Nat.one_pos)
  have hsize : rlRealEnd - front.length + 1 = tail.length + 1 := by omega
  unfold splitEnd
  rw [hsize]
  have hcell := ((segment_append _ _ _ _).mp hkept).2.1
  have hnext := hmoved.1
  have hjoin : Segment (memmove block.elem (front.length + 1) front.length (tail.length + 1)) 0
      (front ++ run :: run :: tail) := by
    rw [append_cons, segment_append, length_append, Nat.zero_add]
    exact ⟨hkept, hmoved⟩
  have hhole := hjoin.update_at { run with lcn := lcnHole, length := length }
  rw [append_cons] at hhole
  rw [Nat.zero_add] at hcell hhole
  have hrest := hhole.update_at ⟨s64 (run.vcn + length),
    if 0 ≤ run.lcn ∨ lcnFixup then s64 (run.lcn + length) else run.lcn, s64 (run.length - length)⟩
  rw [Nat.zero_add, length_append, ← append_cons] at hrest
  simp only [store_elem, hcell, Function.update_of_ne (Nat.succ_ne_self _), hnext]
  exact hrest

/-- Splitting the element behind a run takes the end of the run into the hole. -/
theorem segment_splitNext (rlRealEnd : ℕ) (start length : ℤ)
    (hcl : Segment block.elem 0 (front ++ run :: fin :: tail))
    (hreal : rlRealEnd = front.length + 1 + tail.length) :
    Segment (splitNext block front.length rlRealEnd start length).elem 0
      (front ++ { run with length := s64 (start - run.vcn) } :: ⟨start, lcnHole, length⟩ ::
      ⟨s64 (start + length),
          if 0 ≤ fin.lcn then s64 (s64 (fin.lcn - s64 (fin.vcn - start)) + length) else fin.lcn,
          s64 (s64 (fin.length + s64 (fin.vcn - start)) - length)⟩ :: tail) := by
  have hcell := ((segment_append _ _ _ _).mp hcl).2.1
  have hnext := ((segment_append _ _ _ _).mp hcl).2.2.1
  rw [Nat.zero_add] at hcell hnext
  -- The element behind the run is first moved to the front, up to `start`.
  have hmoved : ∀ moved : RunlistElement, Segment (store (store block front.length
      { run with length := s64 (start - run.vcn) }) (front.length + 1) moved).elem 0
      ((front ++ [{ run with length := s64 (start - run.vcn) }]) ++ moved :: tail) := by
    intro moved
    have hcut := hcl.update_at { run with length := s64 (start - run.vcn) }
    rw [append_cons] at hcut
    simpa using hcut.update_at moved
  have hspl := segment_splitEnd rlRealEnd length (decide (0 ≤ fin.lcn)) (hmoved ⟨start,
    if 0 ≤ fin.lcn then s64 (fin.lcn - s64 (fin.vcn - start)) else fin.lcn,
    s64 (fin.length + s64 (fin.vcn - start))⟩) (by simpa using hreal)
  have hlcn : ∀ lcn : ℤ, (if 0 ≤ (if 0 ≤ fin.lcn then lcn else fin.lcn) ∨
      decide (0 ≤ fin.lcn) = true then s64 ((if 0 ≤ fin.lcn then lcn else fin.lcn) + length)
      else if 0 ≤ fin.lcn then lcn else fin.lcn) =
        if 0 ≤ fin.lcn then s64 (lcn + length) else fin.lcn := by
    intro lcn
    by_cases hnn : 0 ≤ fin.lcn <;> simp [hnn]
  rw [hlcn, ← append_cons, length_append] at hspl
  unfold splitNext truncateRun
  simp only [hcell, store_elem, Function.update_of_ne (Nat.succ_ne_self _), hnext]
  exact hspl

/-- Splitting a run into three. -/
theorem segment_splitBoth (rlRealEnd : ℕ) (start length stop : ℤ)
    (hcl : Segment block.elem 0 (front ++ run :: tail))
    (hreal : rlRealEnd = front.length + tail.length) :
    Segment (splitBoth block front.length rlRealEnd start length stop).elem 0
      (front ++ { run with length := s64 (start - run.vcn) } :: ⟨start, lcnHole, length⟩ ::
        ⟨stop, s64 (run.lcn + s64 (stop - run.vcn)), s64 (run.length - s64 (stop - run.vcn))⟩ ::
        tail) := by
  obtain ⟨hkept, hmoved⟩ := segment_shift hcl (Nat.two_pos)
  have hsize : rlRealEnd - front.length + 1 = tail.length + 1 := by omega
  have hcell := ((segment_append _ _ _ _).mp hkept).2.1
  rw [Nat.zero_add] at hcell
  have hfr := (hkept.update_at { run with length := s64 (start - run.vcn) }).concat
    ⟨start, lcnHole, length⟩
  simp only [Nat.zero_add, length_append] at hfr
  have hrest : Segment (Function.update (Function.update (memmove block.elem (front.length + 2)
      front.length (tail.length + 1)) front.length { run with length := s64 (start - run.vcn) })
      (front.length + 1) ⟨start, lcnHole, length⟩) (front.length + 2) (run :: tail) :=
    (hmoved.update_of_lt (by omega)).update_of_lt (by omega)
  have hthree := (segment_append _ 0 (front ++ [{ run with length := s64 (start - run.vcn) }] ++
    [⟨start, lcnHole, length⟩]) (run :: tail)).mpr ⟨hfr, by
      rw [Nat.zero_add, length_append, length_append]
      exact hrest⟩
  have hset := hthree.update_at
    ⟨stop, s64 (run.lcn + s64 (stop - run.vcn)), s64 (run.length - s64 (stop - run.vcn))⟩
  simp only [Nat.zero_add, length_append, append_assoc] at hset
  unfold splitBoth truncateRun
  rw [hsize]
  simp only [store_elem, hcell, hrest.1]
  exact hset

/-- Assumes: a hole at the end, behind elements to be cut out. It begins at `start`, up to where the
run in front is cut. -/
theorem meetHole_spec (allocator : Allocator) (start : ℤ)
    (hholds : block.Holds (front ++ run :: (gone ++ fin :: next :: tail)))
    (hend : rlEnd = front.length + 1 + gone.length)
    (hreal : rlRealEnd = rlEnd + (next :: tail).length) :
    ∃ after, meetHole allocator block (rlRealEnd + 1) front.length rlEnd rlRealEnd start =
      ⟨some after, .ok ()⟩ ∧ after.Holds (front ++ { run with length := s64 (start - run.vcn) } ::
        ⟨start, fin.lcn, s64 (next.vcn - start)⟩ :: next :: tail) := by
  have hcell := elem_of_holds hholds rfl
  have hset := holds_store hholds { run with length := s64 (start - run.vcn) } rfl
  have hsize : (front ++ run :: (gone ++ fin :: next :: tail)).length = rlRealEnd + 1 := by
    simp only [length_append, length_cons] at hreal ⊢
    omega
  have hroom := hholds.1
  rw [hsize] at hroom
  rw [append_cons] at hset
  have hcut := segment_cutOut hset.2 (show rlEnd = _ by simpa using hend) hreal
  have hpar := (segment_append _ _ _ _).mp hcut
  simp only [Nat.zero_add, length_append, length_singleton] at hpar
  obtain ⟨-, hfin, hnext, -⟩ := hpar
  unfold meetHole truncateRun
  simp only [hcell, hfin, hnext]
  refine shrinkAllocation_spec allocator (by simpa using hroom) ?_ ?_
  · simpa using hcut.update_at ⟨start, fin.lcn, s64 (next.vcn - start)⟩
  · simp only [length_append, length_cons] at hsize ⊢
    omega

theorem withRoom_spec (allocator : Allocator) {longer : List RunlistElement} {newSize : ℕ}
    {next : RlArray → RlArray} (hholds : block.Holds items) (hle : items.length ≤ newSize)
    (hsize : longer.length = newSize) (hby : ∀ larger, (next larger).bytes = larger.bytes)
    (hnext : ∀ larger : RlArray, Segment larger.elem 0 items → Segment
    (next larger).elem 0 longer) :
    (∃ after, withRoom allocator block items.length newSize next = ⟨some after, .ok ()⟩ ∧
      after.Holds longer) ∨ withRoom allocator block items.length newSize next =
      ⟨some block, .error (.errno .enomem)⟩ := by
  unfold withRoom
  rcases ntfsRlRealloc_spec allocator hholds hle with ⟨hfail, -⟩ | ⟨larger, hok, hroom, hseg, -⟩
  · rw [hfail]
    exact .inr rfl
  · rw [hok]
    refine .inl ⟨_, rfl, ?_, hnext larger hseg⟩
    rw [hby, hroom, hsize]
    exact le_reallocBytes hholds newSize

end

/-! ### Where the end lies -/

/-- `fin` is the element the end lies in: the run that contains it, in which the cluster there has a
number of 64 bits, or the terminator if the end is that of the runlist. -/
structure AtStop (rl : RunSequence) (stop : ℤ) (skipped : List RunlistElement)
    (fin : RunlistElement) (tail : List RunlistElement) : Prop where
  elements_eq : rl.elements = skipped ++ fin :: tail
  position : (fin = rl.last ∧ tail = [] ∧ rl.last.vcn = stop) ∨
    ∃ more, rl.runs = skipped ++ fin :: more ∧ tail = more ++ [rl.last] ∧ fin.Covers stop ∧
      NumberedAt fin stop

/-- The elements are those of the runlist with the clusters from `start` up to `stop` turned into a
hole. -/
def Punched (rl : RunSequence) (start stop : ℤ) (items : List RunlistElement) : Prop :=
  ∃ after : RunSequence, after.elements = items ∧ after.last = rl.last ∧ ∀ vcn,
    lcnIn after.runs vcn =
      if start ≤ vcn ∧ vcn < stop then some lcnHole else lcnIn rl.runs vcn

def Punches (rl : RunSequence) (start stop : ℤ) (edited : Edited) : Prop :=
  ∃ after items, edited = ⟨some after, .ok ()⟩ ∧ after.Holds items ∧ Punched rl start stop items

variable {rl : RunSequence} {before after : List RunlistElement} {run : RunlistElement}

theorem elements_around (hruns : rl.runs = before ++ run :: after) :
    rl.elements = before ++ run :: (after ++ [rl.last]) := by
  rw [RunSequence.elements, hruns, append_assoc, cons_append]

theorem length_around (hruns : rl.runs = before ++ run :: after) {rlRealEnd : ℕ}
    (hreal : rlRealEnd = rl.runs.length) :
    rlRealEnd = before.length + (after ++ [rl.last]).length := by
  simp [hreal, hruns]

theorem lcnIn_of_hole (hruns : rl.runs = before ++ run :: after) (hhole : run.lcn = lcnHole)
    {vcn : ℤ} (hcovers : run.Covers vcn) : lcnIn rl.runs vcn = some lcnHole := by
  rw [hruns, ← (back_self (hruns ▸ rl.stretch)).agrees vcn hcovers.1, lcnIn_cons, if_pos hcovers,
    run.lcnAt_of_neg (hhole.trans_lt (by decide)), hhole]

section

variable {rl : RunSequence} {start stop : ℤ} {skipped front back tail : List RunlistElement}
  {fin : RunlistElement}

/-- Assumes: a stretch that agrees with the runs up to `first`, one that agrees with them from
`last` on, and holes between these and the part to be punched. A hole between the two is what
punching leaves. -/
theorem punched_of_front {first last : ℤ} (hfr : Front rl.runs 0 first front)
    (hback : Back rl.runs last rl.last.vcn back) (hfst : first ≤ start) (hlt : start < stop)
    (hlast : stop ≤ last)
    (hbef : ∀ vcn, first ≤ vcn → vcn < start → lcnIn rl.runs vcn = some lcnHole)
    (hbeh : ∀ vcn, stop ≤ vcn → vcn < last → lcnIn rl.runs vcn = some lcnHole) :
    Punched rl start stop (front ++ holeBetween first last :: (back ++ [rl.last])) := by
  obtain ⟨hstr, hval⟩ := hfr.punch hback (by omega)
  refine ⟨⟨_, rl.last, hstr, rl.last_length, rl.last_lcn, rl.last_vcn_isS64⟩, ?_, rfl,
    fun vcn => ?_⟩
  · simp [RunSequence.elements]
  · rw [hval]
    split_ifs with hwide hinside hinside
    · rfl
    · by_cases hvcn : vcn < start
      · exact (hbef vcn hwide.1 hvcn).symm
      · exact (hbeh vcn (by omega) hwide.2).symm
    · omega
    · rfl

theorem s64_vcn_sub (rl : RunSequence) {high low : ℤ} (hlow : 0 ≤ low) (hle : low ≤ high)
    (hhigh : high ≤ rl.last.vcn) : s64 (high - low) = high - low := by
  have hword := rl.last_vcn_isS64
  unfold IsS64 at hword
  exact s64_of_isS64 ⟨by omega, by omega⟩

theorem trim_eq_onward (rl : RunSequence) (hlow : 0 ≤ fin.vcn) (hcovers : fin.Covers stop)
    (hhigh : fin.vcn + fin.length ≤ rl.last.vcn) : trim stop fin = onward fin stop := by
  unfold RunlistElement.Covers at hcovers
  have hdelta : s64 (stop - fin.vcn) = stop - fin.vcn := s64_vcn_sub rl hlow hcovers.1 (by omega)
  have hlength : s64 (fin.length - (stop - fin.vcn)) = fin.vcn + fin.length - stop := by
    rw [show fin.length - (stop - fin.vcn) = fin.vcn + fin.length - stop by ring]
    exact s64_vcn_sub rl (by omega) hcovers.2.le hhigh
  simp only [trim, onward, RunlistElement.lcnAt, hdelta, hlength]

theorem front_cut (hruns : rl.runs = before ++ run :: after) (hcovers : run.Covers start)
    (hst : run.vcn < start) : Front rl.runs 0 start (before ++ [upTo run start]) ∧
      ({ run with length := s64 (start - run.vcn) } : RunlistElement) = upTo run start := by
  have hstr := rl.stretch
  rw [hruns] at hstr ⊢
  obtain ⟨hbef, -, haft⟩ := hstr.around
  refine ⟨front_upTo hstr hst hcovers.2.le, ?_⟩
  rw [s64_vcn_sub rl hbef.chain.le hcovers.1 (hcovers.2.le.trans haft.chain.le)]
  rfl

theorem back_cut (hruns : rl.runs = before ++ run :: after) (hcovers : run.Covers stop)
    (hnumbered : NumberedAt run stop) : Back rl.runs stop rl.last.vcn (onward run stop :: after) ∧
      trim stop run = onward run stop := by
  have hstr := rl.stretch
  rw [hruns] at hstr ⊢
  obtain ⟨hbef, -, haft⟩ := hstr.around
  exact ⟨back_onward hstr hnumbered hcovers, trim_eq_onward rl hbef.chain.le hcovers haft.chain.le⟩

theorem AtStop.exists_back (hat : AtStop rl stop skipped fin tail) :
    ∃ back, Back rl.runs stop rl.last.vcn back ∧ back ++ [rl.last] = trimmed stop fin :: tail := by
  rcases hat.position with ⟨rfl, rfl, rfl⟩ | ⟨more, hruns, rfl, hcovers, hnumbered⟩
  · refine ⟨[], ⟨stretch_nil _, fun vcn hvcn => ?_⟩, ?_⟩
    · exact (rl.stretch.chain.lcnIn_eq_none (.inr hvcn)).symm
    · rw [trimmed, if_neg (lt_irrefl _)]
      rfl
  · unfold trimmed
    split_ifs with hlt
    · obtain ⟨hback, htrim⟩ := back_cut hruns hcovers hnumbered
      exact ⟨_, hback, by rw [htrim]; rfl⟩
    · obtain rfl : stop = fin.vcn := le_antisymm (not_lt.mp hlt) hcovers.1
      exact ⟨_, hruns ▸ back_self (hruns ▸ rl.stretch), rfl⟩

theorem vcn_of_head {first : ℤ} {runs rest : List RunlistElement} {last next : RunlistElement}
    (hch : Chain first runs last.vcn) (hnext : runs ++ [last] = next :: rest) :
    next.vcn = first := by
  cases runs with
  | nil =>
    obtain ⟨rfl, -⟩ := List.cons.inj hnext
    exact hch.symm
  | cons second runs =>
    obtain ⟨rfl, -⟩ := List.cons.inj hnext
    exact hch.1

theorem AtStop.exists_back_of_hole (hat : AtStop rl stop skipped fin tail)
    (hfin : fin.lcn = lcnHole) : ∃ next more back, tail = next :: more ∧ back ++ [rl.last] = tail ∧
      Back rl.runs next.vcn rl.last.vcn back ∧ stop < next.vcn ∧
      ∀ vcn, stop ≤ vcn → vcn < next.vcn → lcnIn rl.runs vcn = some lcnHole := by
  rcases hat.position with ⟨rfl, -, -⟩ | ⟨more, hruns, rfl, hcovers, -⟩
  · rcases rl.last_lcn with hlast | hlast <;> rw [hlast] at hfin <;> exact absurd hfin (by decide)
  · have hstr := rl.stretch
    rw [hruns] at hstr ⊢
    have hback := back_after hstr
    obtain ⟨next, others, hnext⟩ : ∃ next others, more ++ [rl.last] = next :: others :=
      exists_cons_of_ne_nil (by simp)
    have hvcn := vcn_of_head hback.stretch.chain hnext
    refine ⟨next, others, more, hnext, rfl, hvcn ▸ hback, hvcn ▸ hcovers.2,
      fun vcn hlow hhigh => ?_⟩
    rw [← hruns]
    exact lcnIn_of_hole hruns hfin ⟨hcovers.1.trans hlow, by omega⟩

theorem AtStop.vcn_le (hat : AtStop rl stop skipped fin tail) : fin.vcn ≤ stop := by
  rcases hat.position with ⟨rfl, -, hstop⟩ | ⟨-, -, -, hcovers, -⟩
  · exact hstop.le
  · exact hcovers.1

theorem AtStop.length_eq (hat : AtStop rl stop skipped fin tail) {rlRealEnd : ℕ}
    (hreal : rlRealEnd = rl.runs.length) : rlRealEnd = skipped.length + tail.length := by
  have hsize := congrArg List.length hat.elements_eq
  rw [rl.length_elements, length_append, length_cons] at hsize
  omega

/-- The elements before the one the end lies in are consecutive runs. -/
theorem AtStop.stretch (hat : AtStop rl stop skipped fin tail) : Stretch 0 fin.vcn skipped := by
  rcases hat.position with ⟨rfl, rfl, -⟩ | ⟨more, hruns, -, -⟩
  · have hlist := hat.elements_eq
    rw [← (append_inj' hlist rfl).1]
    exact rl.stretch
  · have hstr := rl.stretch
    rw [hruns] at hstr
    exact hstr.around.1

theorem AtStop.isS64 (hat : AtStop rl stop skipped fin tail) :
    IsS64 fin.lcn ∧ IsS64 fin.length := by
  rcases hat.position with ⟨rfl, -, -⟩ | ⟨more, hruns, -, -⟩
  · rw [rl.last_length]
    rcases rl.last_lcn with hlcn | hlcn <;> rw [hlcn] <;> decide
  · have hmem : fin ∈ rl.runs := by simp [hruns]
    have hbd := rl.stretch.chain.mem hmem
    have hword := rl.last_vcn_isS64
    refine ⟨rl.stretch.lcn_isS64 fin hmem, ?_⟩
    unfold IsS64 at *
    omega

theorem AtStop.splitNext_eq {length : ℤ} (hat : AtStop rl (start + length) skipped fin tail)
    (hst : 0 ≤ start) (hle : start ≤ fin.vcn) (hlength : 0 ≤ length)
    (hstop : start + length ≤ rl.last.vcn) : (⟨s64 (start + length),
      if 0 ≤ fin.lcn then s64 (s64 (fin.lcn - s64 (fin.vcn - start)) + length) else fin.lcn,
      s64 (s64 (fin.length + s64 (fin.vcn - start)) - length)⟩ : RunlistElement) =
      trimmed (start + length) fin := by
  have hvcn := hat.vcn_le
  obtain ⟨hlcnWord, hlengthWord⟩ := hat.isS64
  have hdelta := s64_vcn_sub rl hst hle (hvcn.trans hstop)
  have hrest := s64_vcn_sub rl (hst.trans hle) hvcn hstop
  have hend : s64 (start + length) = start + length := by
    rw [← sub_zero (start + length)]
    exact s64_vcn_sub rl le_rfl (by omega) hstop
  have hlcn : s64 (s64 (fin.lcn - (fin.vcn - start)) + length) =
      s64 (fin.lcn + (start + length - fin.vcn)) := by
    rw [s64_s64_add]
    congr 1
    ring
  have hsize : s64 (s64 (fin.length + (fin.vcn - start)) - length) =
      s64 (fin.length - (start + length - fin.vcn)) := by
    rw [sub_eq_add_neg, s64_s64_add]
    congr 1
    ring
  rw [hend, hdelta, hlcn, hsize]
  by_cases hlt : fin.vcn < start + length
  · rw [trimmed, if_pos hlt]
    simp only [trim, hrest]
  · have hsame : start + length = fin.vcn := by omega
    rw [trimmed, if_neg hlt, hsame, sub_self, add_zero, sub_zero, s64_of_isS64 hlcnWord,
      s64_of_isS64 hlengthWord, ite_self]

end

/-! ### The cases -/

section

variable (allocator : Allocator) {rl : RunSequence} {block : RlArray} {start stop : ℤ}
  {before front gone skipped tail : List RunlistElement} {run hole fin : RunlistElement}
  {rlEnd rlRealEnd : ℕ}

theorem extendHole_punches (hholds : block.Holds (front ++ hole :: (gone ++ fin :: tail)))
    (hhole : hole.lcn = lcnHole) (hfr : Front rl.runs 0 hole.vcn front) (hfst : hole.vcn ≤ start)
    (hlt : start < stop)
    (hbef : ∀ vcn, hole.vcn ≤ vcn → vcn < start → lcnIn rl.runs vcn = some lcnHole)
    (hat : AtStop rl stop skipped fin tail) (hend : rlEnd = front.length + 1 + gone.length)
    (hreal : rlRealEnd = rlEnd + tail.length) : Punches rl start stop
      (extendHole allocator block (rlRealEnd + 1) front.length rlEnd rlRealEnd stop) := by
  have hnn := hfr.stretch.chain.le
  by_cases hfin : fin.lcn = lcnHole
  · obtain ⟨next, more, back, rfl, hlist, hback, hnext, hbeh⟩ := hat.exists_back_of_hole hfin
    obtain ⟨after, hres, haft⟩ :=
      extendHole_of_eq allocator hholds hfin hnext.le hend hreal
    have hlength := s64_vcn_sub rl hnn (show hole.vcn ≤ next.vcn by omega) hback.stretch.chain.le
    refine ⟨after, _, hres, haft, ?_⟩
    rw [hlength, hhole, ← hlist]
    exact punched_of_front hfr hback hfst hlt hnext.le hbef hbeh
  · obtain ⟨back, hback, hlist⟩ := hat.exists_back
    obtain ⟨after, hres, haft⟩ :=
      extendHole_of_ne allocator stop hholds hfin hend hreal
    have hlength := s64_vcn_sub rl hnn (show hole.vcn ≤ stop by omega) hback.stretch.chain.le
    refine ⟨after, _, hres, haft, ?_⟩
    rw [hlength, hhole, ← hlist]
    exact punched_of_front hfr hback hfst hlt le_rfl hbef
      fun vcn hlow hhigh => absurd hlow (not_le.mpr hhigh)

theorem punches_self (hholds : block.Holds rl.elements)
    (hhole : ∀ vcn, start ≤ vcn → vcn < stop → lcnIn rl.runs vcn = some lcnHole) :
    Punches rl start stop ⟨some block, .ok ()⟩ := by
  refine ⟨block, rl.elements, rfl, hholds, rl, rfl, rfl, fun vcn => ?_⟩
  split_ifs with hinside
  · exact hhole vcn hinside.1 hinside.2
  · rfl

theorem extendPrevious_punches {after : List RunlistElement} (hholds : block.Holds rl.elements)
    (hruns : rl.runs = before ++ run :: after) (hst : start = run.vcn) (hlt : start < stop)
    (hprev : 0 < before.length ∧ (block.elem (before.length - 1)).lcn = lcnHole)
    (hat : AtStop rl stop skipped fin tail) (helt : rl.elements = before ++ (gone ++ fin :: tail))
    (hend : rlEnd = before.length + gone.length) (hreal : rlRealEnd = rlEnd + tail.length) :
    Punches rl start stop
      (extendHole allocator block (rlRealEnd + 1) (before.length - 1) rlEnd rlRealEnd stop) := by
  obtain ⟨front, prev, rfl⟩ := exists_concat (ne_nil_of_length_pos hprev.1)
  have hcnt : (front ++ [prev]).length - 1 = front.length := by simp
  rw [helt, ← append_cons] at hholds
  rw [← append_cons] at hruns
  rw [hcnt, elem_of_holds hholds rfl] at hprev
  rw [hcnt]
  have hstr := hruns ▸ rl.stretch
  have hnext : run.vcn = prev.vcn + prev.length := hstr.around.2.2.chain.1
  have hlength := hstr.around.2.1
  refine extendHole_punches allocator hholds hprev.2 (hruns ▸ front_before hstr) (by omega) hlt
    (fun vcn hlow hhigh => lcnIn_of_hole hruns hprev.2 ⟨hlow, by omega⟩) hat ?_ hreal
  simpa using hend

theorem AtStop.not_passed (hat : AtStop rl stop skipped fin tail)
    (hholds : block.Holds rl.elements) :
    ¬ (fin.length ≠ 0 ∧ (block.elem (skipped.length + 1)).vcn ≤ stop) := by
  rintro ⟨hlength, hvcn⟩
  rcases hat.position with ⟨rfl, -, -⟩ | ⟨more, hruns, rfl, hcovers, -⟩
  · exact hlength rl.last_length
  · obtain ⟨next, rest, hnext⟩ : ∃ next rest, more ++ [rl.last] = next :: rest :=
      exists_cons_of_ne_nil (by simp)
    have hstr := hruns ▸ rl.stretch
    have hpar := hat.elements_eq ▸ hholds
    rw [hnext] at hpar
    rw [elem_succ_of_holds hpar rfl, vcn_of_head hstr.around.2.2.chain hnext] at hvcn
    exact absurd hcovers.2 (not_lt.mpr hvcn)

/-- The outcome of a change that needs memory: the punched runlist, or nothing changed. -/
def PunchesOrFails (rl : RunSequence) (start stop : ℤ) (block : RlArray) (edited : Edited) : Prop :=
  Punches rl start stop edited ∨ edited = ⟨some block, .error (.errno .enomem)⟩

theorem withRoom_punches {items : List RunlistElement} {newSize : ℕ} {next : RlArray → RlArray}
    (hholds : block.Holds rl.elements) (hreal : rlRealEnd = rl.runs.length)
    (hpunc : Punched rl start stop items) (hsize : items.length = newSize)
    (hle : rl.runs.length + 1 ≤ newSize) (hby : ∀ larger, (next larger).bytes = larger.bytes)
    (hnext : ∀ larger : RlArray, Segment larger.elem 0 rl.elements →
      Segment (next larger).elem 0 items) :
    PunchesOrFails rl start stop block (withRoom allocator block (rlRealEnd + 1) newSize next) := by
  rw [hreal, ← rl.length_elements]
  rcases withRoom_spec allocator hholds (by simpa using hle) hsize hby hnext with
    ⟨after, hres, haft⟩ | hres
  · exact .inl ⟨after, items, hres, haft, hpunc⟩
  · exact .inr hres

section

/-! The whole hole lies inside one run. -/

variable {after : List RunlistElement} {length : ℤ} (hholds : block.Holds rl.elements)
  (hruns : rl.runs = before ++ run :: after) (hcovers : run.Covers start)
  (hlength : 0 < length) (hinside : run.Covers (start + length))
  (hnumbered : NumberedAt run (start + length)) (hreal : rlRealEnd = rl.runs.length)
include hholds hruns hcovers hlength hinside hnumbered hreal

omit hcovers in
theorem splitEnd_punches (hlcn : 0 ≤ run.lcn) (hst : start = run.vcn) :
    PunchesOrFails rl start (start + length) block
      (withRoom allocator block (rlRealEnd + 1) (rlRealEnd + 1 + 1)
        fun block => splitEnd block before.length rlRealEnd length false) := by
  have hstr := hruns ▸ rl.stretch
  have hlow := hstr.around.1.chain.le
  obtain ⟨hback, hrest⟩ := back_cut hruns hinside hnumbered
  have hfr : Front rl.runs 0 start before := hst ▸ hruns ▸ front_before hstr
  have hpunc := punched_of_front hfr hback le_rfl (by omega) le_rfl (by omega) (by omega)
  have hcnt := length_around hruns hreal
  refine withRoom_punches allocator hholds hreal hpunc ?_ (by omega) (fun _ => rfl) ?_
  · simp only [length_append, length_cons] at hcnt ⊢
    omega
  · intro larger hcl
    have hspl := segment_splitEnd rlRealEnd length false (elements_around hruns ▸ hcl) hcnt
    have hhole : ({ run with lcn := lcnHole, length := length } : RunlistElement) =
        holeBetween start (start + length) := by
      simp [holeBetween, hst]
    have hdelta : s64 (start + length - run.vcn) = length := by
      rw [s64_vcn_sub rl hlow hinside.1 hback.stretch.chain.le, hst]
      ring
    have hvcn : s64 (run.vcn + length) = start + length := by
      rw [← hst, ← sub_zero (start + length)]
      exact s64_vcn_sub rl le_rfl (hlow.trans hinside.1) hback.stretch.chain.le
    rw [trim, hdelta, if_pos hlcn] at hrest
    rw [hhole, hvcn, if_pos (.inl hlcn), hrest] at hspl
    exact hspl

theorem splitBoth_punches (hlcn : 0 ≤ run.lcn) (hst : run.vcn < start) :
    PunchesOrFails rl start (start + length) block
      (withRoom allocator block (rlRealEnd + 1) (rlRealEnd + 1 + 2)
        fun block => splitBoth block before.length rlRealEnd start length (start + length)) := by
  obtain ⟨hfr, hcut⟩ := front_cut hruns hcovers hst
  obtain ⟨hback, hrest⟩ := back_cut hruns hinside hnumbered
  have hpunc := punched_of_front hfr hback le_rfl (by omega) le_rfl (by omega) (by omega)
  have hcnt := length_around hruns hreal
  refine withRoom_punches allocator hholds hreal hpunc ?_ (by omega) (fun _ => rfl) ?_
  · simp only [length_append, length_cons, length_nil] at hcnt ⊢
    omega
  · intro larger hcl
    have hspl := segment_splitBoth rlRealEnd start length (start + length)
      (elements_around hruns ▸ hcl) hcnt
    rw [trim, if_pos hlcn] at hrest
    rw [hcut, hrest] at hspl
    simpa [holeBetween] using hspl

/-- Assumes: a run that is mapped or a hole, and contains both ends. -/
theorem punchAt_inside (hlcn : lcnHole ≤ run.lcn) :
    PunchesOrFails rl start (start + length) block
      (punchAt allocator block before.length before.length rlRealEnd start length
      (start + length)) := by
  have hstr := hruns ▸ rl.stretch
  have helt := elements_around hruns
  have hpar := helt ▸ hholds
  have hcell := elem_of_holds hpar rfl
  have hat : AtStop rl (start + length) before run (after ++ [rl.last]) :=
    ⟨helt, .inr ⟨after, hruns, rfl, hinside, hnumbered⟩⟩
  have hcnt := length_around hruns hreal
  obtain ⟨next, rest, hnext⟩ : ∃ next rest, after ++ [rl.last] = next :: rest :=
    exists_cons_of_ne_nil (by simp)
  have hnextVcn := vcn_of_head hstr.around.2.2.chain hnext
  rw [hnext] at hpar
  have hnextCell := elem_succ_of_holds hpar rfl
  unfold punchAt
  simp only [hcell, hnextCell, hnextVcn]
  by_cases hhole : run.lcn = lcnHole
  · -- The clusters are a hole already.
    rw [if_pos hhole, if_pos hinside.2.le]
    refine .inl (punches_self hholds fun vcn hlow hhigh => lcnIn_of_hole hruns hhole ⟨?_, ?_⟩)
    · exact hcovers.1.trans hlow
    · exact hhigh.trans hinside.2
  · have hnn : 0 ≤ run.lcn := by
      unfold lcnHole at hlcn hhole
      omega
    rw [if_neg hhole, if_neg (not_le.mpr hinside.2)]
    by_cases hst : start = run.vcn
    · split_ifs with hprev
      · exact .inl (extendPrevious_punches allocator hholds hruns hst (by omega) hprev hat
          (show rl.elements = before ++ ([] ++ run :: (after ++ [rl.last])) from helt) rfl hcnt)
      · exact splitEnd_punches allocator hholds hruns hlength hinside hnumbered hreal hnn hst
    · rw [if_neg hst, if_neg hhole, if_neg (not_le.mpr hinside.2)]
      exact splitBoth_punches allocator hholds hruns hcovers hlength hinside hnumbered hreal hnn
        (lt_of_le_of_ne hcovers.1 (Ne.symm hst))

end

section

/-! The hole ends behind the run it begins in. -/

variable {after : List RunlistElement} (hholds : block.Holds rl.elements)
  (hruns : rl.runs = before ++ run :: after) (hcovers : run.Covers start) (hlt : start < stop)
include hholds hruns hcovers hlt

theorem meetHole_punches (hat : AtStop rl stop (before ++ run :: gone) fin tail)
    (hfin : fin.lcn = lcnHole) (hst : run.vcn < start)
    (hend : rlEnd = before.length + 1 + gone.length) (hreal : rlRealEnd = rlEnd + tail.length) :
    Punches rl start stop
      (meetHole allocator block (rlRealEnd + 1) before.length rlEnd rlRealEnd start) := by
  obtain ⟨hfr, hcut⟩ := front_cut hruns hcovers hst
  obtain ⟨next, more, back, rfl, hlist, hback, hnext, hbeh⟩ := hat.exists_back_of_hole hfin
  have hpar := hat.elements_eq ▸ hholds
  rw [append_assoc] at hpar
  obtain ⟨smaller, hres, hsmal⟩ := meetHole_spec allocator start hpar hend hreal
  have hlength := s64_vcn_sub rl hfr.stretch.chain.le (hlt.le.trans hnext.le) hback.stretch.chain.le
  refine ⟨smaller, _, hres, hsmal, ?_⟩
  have hpunc := punched_of_front hfr hback le_rfl hlt hnext.le (by omega) hbeh
  rw [hlist, ← append_cons] at hpunc
  rw [hcut, hlength, hfin]
  exact hpunc

theorem extendNext_punches {second : RunlistElement}
    (hat : AtStop rl stop (before ++ run :: second :: gone) fin tail) (hst : run.vcn < start)
    (hend : rlEnd = before.length + 1 + 1 + gone.length) (hreal : rlRealEnd = rlEnd + tail.length) :
    Punches rl start stop
      (extendHole allocator (store (truncateRun block before.length start) (before.length + 1)
        { (truncateRun block before.length start).elem (before.length + 1) with
          vcn := start, lcn := lcnHole }) (rlRealEnd + 1) (before.length + 1) rlEnd rlRealEnd
        stop) := by
  obtain ⟨hfr, hcut⟩ := front_cut hruns hcovers hst
  have hpar := hat.elements_eq ▸ hholds
  rw [append_assoc, cons_append] at hpar
  have htrun := holds_store hpar (upTo run start) rfl
  have hcell := elem_of_holds hpar rfl
  rw [append_cons] at htrun
  have hblk : truncateRun block before.length start =
      store block before.length (upTo run start) := by
    rw [truncateRun, hcell, hcut]
  have hsec := elem_of_holds htrun (i := before.length + 1) (by simp)
  have hset := holds_store htrun { second with vcn := start, lcn := lcnHole }
    (i := before.length + 1) (by simp)
  rw [hblk, hsec]
  have hpunc := extendHole_punches allocator hset rfl hfr le_rfl hlt (by omega) hat
    (by simpa using hend) hreal
  simpa only [length_append, length_singleton] using hpunc

omit hlt in
theorem splitNext_punches {length : ℤ} (hlength : 0 < length)
    (hat : AtStop rl (start + length) (before ++ [run]) fin tail) (hst : run.vcn < start)
    (hreal : rlRealEnd = rl.runs.length) :
    PunchesOrFails rl start (start + length) block
      (withRoom allocator block (rlRealEnd + 1) (rlRealEnd + 1 + 1)
        fun block => splitNext block before.length rlRealEnd start length) := by
  obtain ⟨hfr, hcut⟩ := front_cut hruns hcovers hst
  obtain ⟨back, hback, hlist⟩ := hat.exists_back
  have helt := hat.elements_eq
  rw [← append_cons] at helt
  have hcnt : rlRealEnd = before.length + 1 + tail.length := by
    simpa using hat.length_eq hreal
  have hpunc := punched_of_front hfr hback le_rfl (by omega) le_rfl (by omega) (by omega)
  rw [hlist] at hpunc
  refine withRoom_punches allocator hholds hreal hpunc ?_ (by omega) (fun _ => rfl) ?_
  · simp only [length_append, length_cons, length_nil]
    omega
  · intro larger hcl
    have hspl := segment_splitNext rlRealEnd start length (helt ▸ hcl) hcnt
    have hend : run.vcn + run.length = fin.vcn := hat.stretch.around.2.2.chain
    rw [hat.splitNext_eq hfr.stretch.chain.le (hend ▸ hcovers.2.le) hlength.le
      hback.stretch.chain.le, hcut] at hspl
    simpa [holeBetween] using hspl

omit hruns hcovers hlt in
theorem elem_behind (hat : AtStop rl stop (before ++ run :: gone) fin tail) :
    (block.elem (before.length + 1)).vcn = run.vcn + run.length ∧ run.vcn + run.length ≤ stop ∧
      block.elem (before.length + 1 + gone.length) = fin ∧
      ((block.elem (before.length + 1)).length ≠ 0 ∧ (block.elem (before.length + 2)).vcn ≤ stop ↔
      gone ≠ []) := by
  have hstop := hat.vcn_le
  have hgone := hat.stretch.around.2.2.chain
  have hpar := hat.elements_eq ▸ hholds
  have hfin := elem_of_holds hpar (i := before.length + 1 + gone.length)
    (by simp only [length_append, length_cons]; omega)
  rw [append_assoc, cons_append, append_cons] at hpar
  refine ⟨?_, hgone.le.trans hstop, hfin, ?_⟩
  · cases gone with
    | nil =>
      rw [elem_of_holds hpar (by simp)]
      exact hgone.symm
    | cons second gone =>
      rw [elem_of_holds hpar (by simp)]
      exact hgone.1
  · cases gone with
    | nil =>
      have hpass := hat.not_passed hholds
      rw [length_append] at hpass
      rw [elem_of_holds hpar (by simp)]
      exact iff_of_false hpass (not_not.mpr rfl)
    | cons second gone =>
      rw [elem_of_holds hpar (by simp)]
      refine iff_of_true ⟨hgone.2.1.ne', ?_⟩ (cons_ne_nil _ _)
      have hle := hgone.2.2.le
      cases gone with
      | nil =>
        rw [elem_succ_of_holds hpar (by simp)]
        exact hstop
      | cons third gone =>
        rw [cons_append] at hpar
        rw [elem_succ_of_holds hpar (by simp), hgone.2.2.1]
        omega

omit hlt in
/-- Assumes: a run that the hole begins in, and an element behind it that the end lies in. -/
theorem punchAt_beyond {length : ℤ} (hlength : 0 < length)
    (hat : AtStop rl (start + length) (before ++ run :: gone) fin tail)
    (hend : rlEnd = before.length + 1 + gone.length) (hreal : rlRealEnd = rl.runs.length) :
    PunchesOrFails rl start (start + length) block
      (punchAt allocator block before.length rlEnd rlRealEnd start length (start + length)) := by
  have hcell := elem_of_holds (elements_around hruns ▸ hholds) rfl
  obtain ⟨hnext, hle, hfinCell, hwh⟩ := elem_behind hholds hat
  have hfr : Front rl.runs 0 run.vcn before := hruns ▸ front_before (hruns ▸ rl.stretch)
  have helt := hat.elements_eq
  rw [append_assoc] at helt
  have hcnt : rlRealEnd = rlEnd + tail.length := by
    have hsize := hat.length_eq hreal
    simp only [length_append, length_cons] at hsize
    omega
  rw [← hend] at hfinCell
  unfold punchAt
  simp only [hcell, hfinCell, hnext, hwh]
  by_cases hhole : run.lcn = lcnHole
  · split_ifs with hstop
    · refine .inl (punches_self hholds fun vcn hlow hhigh => lcnIn_of_hole hruns hhole ⟨?_, ?_⟩)
      · exact hcovers.1.trans hlow
      · exact hhigh.trans_le hstop
    · exact .inl (extendHole_punches allocator (helt ▸ hholds) hhole hfr hcovers.1
        (by omega) (fun vcn hlow hhigh => lcnIn_of_hole hruns hhole ⟨hlow, hhigh.trans hcovers.2⟩)
        hat hend hcnt)
  rw [if_neg hhole]
  by_cases hst : start = run.vcn
  · split_ifs with hprev
    · exact .inl (extendPrevious_punches allocator hholds hruns hst (by omega) hprev hat
        (show rl.elements = before ++ (run :: gone ++ fin :: tail) from helt)
        (by rw [hend, length_cons]; omega) hcnt)
    · have hset := holds_store (helt ▸ hholds) { run with lcn := lcnHole } rfl
      exact .inl (extendHole_punches allocator hset rfl hfr hst.ge (by omega) (by dsimp only; omega)
        hat hend hcnt)
  have hinside : run.vcn < start := lt_of_le_of_ne hcovers.1 (Ne.symm hst)
  rw [if_neg hst]
  by_cases hfin : fin.lcn = lcnHole
  · rw [if_pos hfin]
    exact .inl (meetHole_punches allocator hholds hruns hcovers (by omega) hat hfin
      hinside hend hcnt)
  rw [if_neg hfin, if_pos hle]
  cases gone with
  | nil =>
    rw [if_neg (not_not.mpr rfl)]
    exact splitNext_punches allocator hholds hruns hcovers hlength hat hinside hreal
  | cons second gone =>
    refine .inl (extendNext_punches allocator hholds hruns hcovers (by omega) hat hinside ?_ hcnt)
    rw [hend, length_cons]
    omega

end

end

/-! ### The whole function -/

section

variable {rl : RunSequence} {block : RlArray} {start stop : ℤ}
  {before gone skipped after tail : List RunlistElement} {run fin : RunlistElement}

theorem seekEnd_append {cells : ℕ → RunlistElement} {first : ℤ} {i fuel : ℕ}
    (hch : Chain first skipped fin.vcn) (hlcn : ∀ other ∈ skipped, lcnHole ≤ other.lcn)
    (hfin : fin.vcn ≤ stop) (hcl : Segment cells i (skipped ++ [fin])) :
    seekEnd stop cells (fuel + skipped.length) i =
      seekEnd stop cells fuel (i + skipped.length) := by
  induction skipped generalizing i first with
  | nil => rfl
  | cons run skipped ih =>
    obtain ⟨-, hlength, hrest⟩ := hch
    obtain ⟨hcell, hseg⟩ := hcl
    have hsec : (cells (i + 1)).vcn ≤ stop := by
      have hle := hrest.le
      cases skipped with
      | nil =>
        rw [hseg.1]
        exact hfin
      | cons second skipped =>
        rw [hseg.1, hrest.1]
        omega
    have hpass : (cells i).length ≠ 0 ∧ (cells (i + 1)).vcn ≤ stop := by
      rw [hcell]
      exact ⟨hlength.ne', hsec⟩
    have hmap : ¬ (cells i).lcn < lcnHole := by
      rw [hcell]
      exact not_lt.mpr (hlcn run (by simp))
    rw [length_cons, ← Nat.add_assoc, seekEnd, if_pos hpass, if_neg hmap,
      ih hrest (fun other hoth => hlcn other (by simp [hoth])) hseg]
    congr 1
    omega

theorem AtStop.search (hholds : block.Holds rl.elements)
    (hat : AtStop rl stop (before ++ gone) fin tail) (hlcn : ∀ other ∈ gone, lcnHole ≤ other.lcn) :
    seekEnd stop block.elem (block.cap - before.length) before.length =
      .ok (before.length + gone.length) ∧ block.elem (before.length + gone.length) = fin ∧
      scanFrom (fun run => run.length = 0) block (before.length + gone.length) =
      some rl.runs.length := by
  have hpar := hat.elements_eq ▸ hholds
  have hcell := elem_of_holds hpar (length_append ..).symm
  obtain ⟨middle, -, hgone⟩ := hat.stretch.of_append
  have hcap := hholds.length_le_cap
  rw [hat.elements_eq, length_append, length_append, length_cons] at hcap
  obtain ⟨more, hfuel⟩ : ∃ more, block.cap - before.length = more + 1 + gone.length :=
    ⟨block.cap - before.length - gone.length - 1, by omega⟩
  have hseg : Segment block.elem before.length (gone ++ [fin]) := by
    have hcl := hpar.2
    rw [append_assoc, segment_append, Nat.zero_add, append_cons, segment_append] at hcl
    exact hcl.2.1
  have hpass := hat.not_passed hholds
  rw [length_append, ← hcell] at hpass
  refine ⟨?_, hcell, ?_⟩
  · rw [hfuel, seekEnd_append hgone.chain hlcn hat.vcn_le hseg, seekEnd, if_neg hpass]
  · rcases hat.position with ⟨rfl, rfl, -⟩ | ⟨others, hruns, rfl, -⟩
    · have hscan := scanFrom_terminator
        (show block.Holds ((before ++ gone) ++ ([] ++ [rl.last])) from hpar)
        (show Chain 0 [] 0 from rfl) rl.last_length
      rw [length_append] at hscan
      rw [hscan]
      simpa using (hat.length_eq rfl).symm
    · have hscan := scanFrom_terminator
        (show block.Holds ((before ++ gone) ++ (fin :: others ++ [rl.last])) from hpar)
        (back_self (hruns ▸ rl.stretch)).stretch.chain rl.last_length
      rw [length_append] at hscan
      rw [hscan, hruns]
      simp only [length_append]

theorem exists_atStop (hruns : rl.runs = before ++ run :: after) (hlow : run.vcn ≤ stop)
    (hhigh : stop ≤ rl.last.vcn)
    (hnumbered : ∀ run ∈ rl.runs, run.Covers stop → NumberedAt run stop) :
    run.Covers stop ∨ ∃ gone fin tail, AtStop rl stop (before ++ run :: gone) fin tail := by
  have haft := (hruns ▸ rl.stretch).around.2.2.chain
  by_cases hinside : stop < run.vcn + run.length
  · exact .inl ⟨hlow, hinside⟩
  right
  rcases hhigh.lt_or_eq with hlt | heq
  · obtain ⟨gone, fin, more, hlist, hcovers, -⟩ := haft.exists_covers (not_lt.mp hinside) hlt
    refine ⟨gone, fin, more ++ [rl.last], ?_, .inr ⟨more, ?_, rfl, hcovers, ?_⟩⟩
    · simp [RunSequence.elements, hruns, hlist]
    · simp [hruns, hlist]
    · exact hnumbered fin (by simp [hruns, hlist]) hcovers
  · refine ⟨after, rl.last, [], ?_, .inl ⟨rfl, rfl, heq.symm⟩⟩
    rw [RunSequence.elements, hruns]

theorem lcn_ge_of_lookup (hholds : block.Holds rl.elements)
    (hruns : rl.runs = before ++ run :: after) {vcn lcn : ℤ} (hcovers : run.Covers vcn)
    (hlk : block.lookup vcn = some lcn) (hlcn : lcnHole ≤ lcn) : lcnHole ≤ run.lcn := by
  have hstr := hruns ▸ rl.stretch
  have hvcn := hstr.around.1.chain.le.trans hcovers.1
  rw [lookup_of_holds hholds hvcn, hruns, ← (back_self hstr).agrees vcn hcovers.1, lcnIn_cons,
    if_pos hcovers, Option.getD_some, Option.some_inj] at hlk
  by_cases hneg : run.lcn < 0
  · rw [run.lcnAt_of_neg hneg] at hlk
    rw [hlk]
    exact hlcn
  · unfold lcnHole
    omega

theorem AtStop.lcn_ge (hat : AtStop rl stop (before ++ run :: gone) fin tail)
    (hholds : block.Holds rl.elements) (hst : start ≤ run.vcn + run.length)
    (hmap : ∀ vcn, start ≤ vcn → vcn < stop → ∃ lcn, block.lookup vcn = some lcn ∧ lcnHole ≤ lcn)
    {other : RunlistElement} (hoth : other ∈ gone) : lcnHole ≤ other.lcn := by
  obtain ⟨hlow, hlength, hhigh⟩ := hat.stretch.around.2.2.chain.mem hoth
  have hfin := hat.vcn_le
  obtain ⟨lcn, hlk, hlcn⟩ := hmap other.vcn (by omega) (by omega)
  obtain ⟨first, second, rfl⟩ := append_of_mem hoth
  obtain ⟨rest, hruns⟩ : ∃ rest, rl.runs = (before ++ run :: first) ++ other :: rest := by
    rcases hat.position with ⟨rfl, rfl, -⟩ | ⟨more, hruns, -, -⟩
    · have hlist := (append_inj' hat.elements_eq rfl).1
      exact ⟨second, by simp [hlist]⟩
    · exact ⟨second ++ fin :: more, by simp [hruns]⟩
  exact lcn_ge_of_lookup hholds hruns ⟨le_rfl, by omega⟩ hlk hlcn

end

/-- What a call leaves when it succeeds: a runlist with the same terminator, which looks up as a
hole from `start` up to but excluding `stop`, and as before everywhere else. -/
def LeavesHole (rl : RunSequence) (block : RlArray) (start stop : ℤ) (after : Option RlArray) :
    Prop :=
  ∃ (larger : RlArray) (punched : RunSequence), after = some larger ∧
    larger.Holds punched.elements ∧ punched.last = rl.last ∧
    (∀ vcn, start ≤ vcn → vcn < stop → larger.lookup vcn = some lcnHole) ∧
    ∀ vcn, ¬ (start ≤ vcn ∧ vcn < stop) → larger.lookup vcn = block.lookup vcn

section

variable {rl : RunSequence} {block : RlArray} {start stop : ℤ}

theorem Punches.leavesHole {edited : Edited} (hpunc : Punches rl start stop edited)
    (hholds : block.Holds rl.elements) (hst : 0 ≤ start) :
    edited.status = .ok () ∧ LeavesHole rl block start stop edited.rl := by
  obtain ⟨after, items, rfl, haft, punched, rfl, hlast, hval⟩ := hpunc
  refine ⟨rfl, after, punched, rfl, haft, hlast, fun vcn hlow hhigh => ?_, fun vcn hout => ?_⟩
  · rw [lookup_of_holds haft (hst.trans hlow), hval, if_pos ⟨hlow, hhigh⟩, Option.getD_some]
  · rcases lt_or_ge vcn 0 with hneg | hnn
    · exact (if_pos hneg).trans (if_pos hneg).symm
    · rw [lookup_of_holds haft hnn, hval, if_neg hout, lookup_of_holds hholds hnn, hlast]

/-- Assumes: the element `start` lies in, the one the end lies in, and what the second half of the
function does from there. The call succeeds with the hole, or fails and has changed nothing. -/
theorem ntfsRlPunchNolock_of_atStop (allocator : Allocator) (hholds : block.Holds rl.elements)
    {length : ℤ} (hst : 0 ≤ start) (hlength : 0 ≤ length) (hend : start + length ≤ rl.last.vcn)
    {before gone tail : List RunlistElement} {fin : RunlistElement}
    (hseek : seekFrom start block 0 = some before.length)
    (hat : AtStop rl (start + length) (before ++ gone) fin tail)
    (hlcn : ∀ other ∈ gone, lcnHole ≤ other.lcn)
    (hpunch : length = 0 ∨ (block.elem before.length).length ≠ 0 ∧
      PunchesOrFails rl start (start + length) block (punchAt allocator block before.length
        (before.length + gone.length) rl.runs.length start length (start + length))) :
    ((ntfsRlPunchNolock allocator (some block) start length).status = .ok () ∧
        LeavesHole rl block start (start + length)
          (ntfsRlPunchNolock allocator (some block) start length).rl) ∨
      ∃ code, ntfsRlPunchNolock allocator (some block) start length =
      ⟨some block, .error (.errno code)⟩ := by
  have hstop : s64 (start + length) = start + length := by
    rw [← sub_zero (start + length)]
    exact s64_vcn_sub rl le_rfl (by omega) hend
  have hvalid : ¬ (start < 0 ∨ length < 0 ∨ start + length < 0) := by omega
  obtain ⟨hseekEnd, hfin, hscan⟩ := hat.search hholds hlcn
  have hfinds : ¬ (fin.length = 0 ∧ fin.vcn < start + length) := by
    rintro ⟨hzero, hvcn⟩
    rcases hat.position with ⟨rfl, -, hlast⟩ | ⟨more, hruns, -, -⟩
    · exact absurd hvcn (not_lt.mpr hlast.ge)
    · exact absurd hzero (rl.stretch.chain.mem (by simp [hruns])).2.1.ne'
  unfold ntfsRlPunchNolock
  simp only [hstop, hseek, hseekEnd, hfin, if_neg hfinds]
  split_ifs with hunm hzero hemp
  · exact .inr ⟨_, rfl⟩
  · refine .inl (Punches.leavesHole (punches_self hholds fun vcn hlow hhigh => ?_) hholds hst)
    omega
  · exact .inr ⟨_, rfl⟩
  · simp only [hscan]
    rcases (hpunch.resolve_left hzero).2 with hpunc | hfail
    · exact .inl (hpunc.leavesHole hholds hst)
    · exact .inr ⟨_, hfail⟩

/-- Assumes: a runlist, and a part of it in which every vcn is mapped or a hole and behind which the
cluster, if a run is cut there, has a number of 64 bits. The call either succeeds, with a runlist
that ends as before, is a hole in that part and looks up as before everywhere else, or it fails with
an error number and has changed nothing. -/
theorem ntfsRlPunchNolock_spec (allocator : Allocator) (hholds : block.Holds rl.elements)
    {length : ℤ} (hstart : 0 ≤ start) (hlength : 0 ≤ length) (hend : start + length ≤ rl.last.vcn)
    (hmapped : ∀ vcn, start ≤ vcn → vcn < start + length →
      ∃ lcn, block.lookup vcn = some lcn ∧ lcnHole ≤ lcn)
    (hnumbered : ∀ run ∈ rl.runs, run.Covers (start + length) → NumberedAt run (start + length)) :
    ((ntfsRlPunchNolock allocator (some block) start length).status = .ok () ∧
        LeavesHole rl block start (start + length)
          (ntfsRlPunchNolock allocator (some block) start length).rl) ∨
      ∃ code, ntfsRlPunchNolock allocator (some block) start length =
        ⟨some block, .error (.errno code)⟩ := by
  have hcap := hholds.length_le_cap
  rw [rl.length_elements] at hcap
  rcases lt_or_ge start rl.last.vcn with hlt | hge
  · obtain ⟨before, run, after, hruns, hcovers, -⟩ := rl.stretch.chain.exists_covers hstart hlt
    have hparts := elements_around hruns ▸ hholds
    have hchain := rl.stretch.chain
    rw [hruns] at hchain
    have hseek : seekFrom start block 0 = some before.length := by
      rw [hruns, List.length_append] at hcap
      rw [seekFrom, seek_of_covers hchain hcovers hparts.2 (by omega), Nat.zero_add]
    have hcell := elem_of_holds hparts rfl
    have hrunLength := (hchain.mem (List.mem_append_right before List.mem_cons_self)).2.1
    have hrunLcn : 0 < length → lcnHole ≤ run.lcn := by
      intro hpos
      obtain ⟨lcn, hlookup, hge⟩ := hmapped start le_rfl (by omega)
      exact lcn_ge_of_lookup hholds hruns hcovers hlookup hge
    rcases exists_atStop hruns (hcovers.1.trans (by omega)) hend hnumbered with
      hinside | ⟨gone, fin, tail, hat⟩
    · have hrun := hnumbered run (by simp [hruns]) hinside
      have hat : AtStop rl (start + length) (before ++ []) run (after ++ [rl.last]) := by
        rw [List.append_nil]
        exact ⟨elements_around hruns, .inr ⟨after, hruns, rfl, hinside, hrun⟩⟩
      refine ntfsRlPunchNolock_of_atStop allocator hholds hstart hlength hend hseek hat (by simp) ?_
      rcases hlength.eq_or_lt with hzero | hpos
      · exact .inl hzero.symm
      · exact .inr ⟨hcell ▸ hrunLength.ne', punchAt_inside allocator hholds hruns hcovers hpos
          hinside hrun rfl (hrunLcn hpos)⟩
    · have hpos : 0 < length := by
        have hgone := hat.stretch.around.2.2.chain.le
        have hvcn := hat.vcn_le
        have hhigh := hcovers.2
        omega
      refine ntfsRlPunchNolock_of_atStop allocator hholds hstart hlength hend hseek hat ?_
        (.inr ⟨hcell ▸ hrunLength.ne', ?_⟩)
      · intro other hother
        rcases List.mem_cons.mp hother with rfl | hgone
        · exact hrunLcn hpos
        · exact hat.lcn_ge hholds hcovers.2.le hmapped hgone
      · have hpunch := punchAt_beyond allocator hholds hruns hcovers hpos hat rfl rfl
        rw [List.length_cons]
        convert hpunch using 2
        omega
  · have hat : AtStop rl (start + length) (rl.runs ++ []) rl.last [] := by
      rw [List.append_nil]
      exact ⟨rfl, .inl ⟨rfl, rfl, by omega⟩⟩
    have hseek : seekFrom start block 0 = some rl.runs.length := by
      rw [seekFrom, seek_of_le rl.stretch.chain rl.last_length hge hholds.2 (by omega),
        Nat.zero_add]
    exact ntfsRlPunchNolock_of_atStop allocator hholds hstart hlength hend hseek hat (by simp)
      (.inl (by omega))

end

def nineClusters : RunSequence where
  runs := [⟨0, 10, 4⟩, ⟨4, lcnHole, 2⟩, ⟨6, 20, 3⟩]
  last := ⟨9, lcnEnoent, 0⟩
  stretch := ⟨by decide, by decide⟩
  last_length := rfl
  last_lcn := .inl rfl
  last_vcn_isS64 := by decide

def nineBlock : RlArray := RlArray.ofList nineClusters.elements 0 fun _ => ⟨0, 0, 0⟩

/-- The second and the third cluster become a hole, which splits the first run into three. -/
theorem ntfsRlPunchNolock_nineClusters :
    (ntfsRlPunchNolock ⟨fun _ => false, fun _ => ⟨0, 0, 0⟩⟩ (some nineBlock) 1 2).status = .ok () ∧
      LeavesHole nineClusters nineBlock 1 3
        (ntfsRlPunchNolock ⟨fun _ => false, fun _ => ⟨0, 0, 0⟩⟩ (some nineBlock) 1 2).rl := by
  have hmapped : ∀ vcn : ℤ, 1 ≤ vcn → vcn < 1 + 2 →
      ∃ lcn, nineBlock.lookup vcn = some lcn ∧ lcnHole ≤ lcn := by
    intro vcn hlow hhigh
    obtain rfl | rfl : vcn = 1 ∨ vcn = 2 := by omega
    · exact ⟨11, by decide, by decide⟩
    · exact ⟨12, by decide, by decide⟩
  have hok : (ntfsRlPunchNolock ⟨fun _ => false, fun _ => ⟨0, 0, 0⟩⟩ (some nineBlock) 1 2).status =
    .ok () := by decide
  have hholds : nineBlock.Holds nineClusters.elements := RlArray.holds_ofList _ _ _
  refine (ntfsRlPunchNolock_spec _ hholds (by decide) (by decide) (by decide) hmapped
    (by unfold NumberedAt; decide)).resolve_right ?_
  rintro ⟨code, hfailed⟩
  rw [hfailed] at hok
  cases hok

def wideBlock : RlArray := RlArray.ofList wideRun.elements 0 fun _ => ⟨0, 0, 0⟩

/-- The last two of four clusters have numbers of more than 64 bits. When the first two become a
hole, the last one looks up as the third. -/
theorem not_punched_wideRun :
    wideBlock.Holds wideRun.elements ∧
      (∀ vcn : ℤ, 0 ≤ vcn → vcn < 0 + 2 → ∃ lcn, wideBlock.lookup vcn = some lcn ∧ lcnHole ≤ lcn) ∧
      (ntfsRlPunchNolock ⟨fun _ => true, fun _ => ⟨0, 0, 0⟩⟩ (some wideBlock) 0 2).status = .ok () ∧
      lookupAt (ntfsRlPunchNolock ⟨fun _ => true, fun _ => ⟨0, 0, 0⟩⟩ (some wideBlock) 0 2).rl 3 ≠
        wideBlock.lookup 3 := by
  refine ⟨RlArray.holds_ofList _ _ _, fun vcn hlow hhigh => ?_, by decide, by decide⟩
  obtain rfl | rfl : vcn = 0 ∨ vcn = 1 := by omega
  · exact ⟨2 ^ 63 - 2, by decide, by decide⟩
  · exact ⟨2 ^ 63 - 1, by decide, by decide⟩

end AdvancedOs.Ntfs.RunlistPunching
