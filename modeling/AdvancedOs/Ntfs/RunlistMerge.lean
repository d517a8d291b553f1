import AdvancedOs.Ntfs.RunlistMergeRoutines

/-!
# Merging two runlists

`ntfsRunlistsMerge` locates the place in the destination where the mapped part of the source begins,
picks one of the four routines of `RunlistMergeRoutines` and, when the source says where the
attribute ends, fixes the end of the combined runlist. `mergeBlocks` is the case of two runlists in
memory: three forward scans and one backward scan over the arrays, the choice in `mergeAt`, and the
marker code in `fixEndMarker`.

The scans are resolved once, over lists. `Spot` names the parts of the two lists the code
distinguishes: the elements in front of the insertion point, the element there and the rest; the
unmapped lead of the source, its mapped part, the unmapped trail and the terminator.
`mergeBlocks_eq` says what the code does with them, `mergeRoutine_spec` what comes out of the chosen
routine as a list, and `fixEndMarker_spec` what the marker code makes of a terminated list.
-/

namespace AdvancedOs.Ntfs.RunlistMerge

open Foundation.ArraySegments Foundation.SignedWords RunlistElements RunlistMergeRoutines List

/-! ### The code -/

/-- A forward scan of at most `fuel` elements: the index of the first one that stops it. -/
def scan (stop : RunlistElement → Bool) (cells : ℕ → RunlistElement) : ℕ → ℕ → Option ℕ
  | 0, _ => none
  | fuel + 1, i => if stop (cells i) then some i else scan stop cells fuel (i + 1)

/-- A forward scan from `i` on. One that does not stop inside the block runs out of it. -/
def scanFrom (stop : RunlistElement → Bool) (block : RlArray) (i : ℕ) : Option ℕ :=
  scan stop block.elem (block.cap - i) i

/-- The backward scan for the last element with `lcn >= LCN_HOLE` among the first `count`: one more
than its index, or zero if there is none. -/
def mappedEnd (cells : ℕ → RunlistElement) : ℕ → ℕ
  | 0 => 0
  | i + 1 => if lcnHole ≤ (cells i).lcn then i + 1 else mappedEnd cells i

/-- The marker code of `ntfs_runlists_merge`, run when the source says that the attribute ends at
`markerVcn`. -/
def fixEndMarker (allocator : Allocator) (drl srl : RlArray) (dend : ℕ) (markerVcn : ℤ) :
    MergeOutcome RlArray :=
  match scanFrom (fun run => run.length = 0) drl dend with
  | none => .failed .overrun drl srl
  | some ds =>
    if markerVcn < (drl.elem ds).vcn then .done drl
    else if (drl.elem ds).vcn = markerVcn then
      .done (store drl ds { drl.elem ds with lcn := lcnEnoent })
    else
      let atEnd := (drl.elem ds).lcn = lcnEnoent
      let slots := if atEnd then 1 else 0
      let ds := if atEnd then ds - 1 else ds
      let mapped := (drl.elem ds).lcn ≠ lcnRlNotMapped
      -- Add an unmapped element, in the place of the old terminator if there is one to overwrite.
      let grow := mapped ∧ slots = 0
      let drl := if grow then ntfsRlReallocNofail allocator drl ds (ds + 2) else drl
      let slots := if grow then 2 else slots
      let ds := if mapped then ds + 1 else ds
      let drl := if mapped ∧ slots ≠ 1 then
        store drl ds { drl.elem ds with vcn := endVcn (drl.elem (ds - 1)) } else drl
      let drl := if mapped then store drl ds { drl.elem ds with lcn := lcnRlNotMapped } else drl
      let slots := if mapped then slots - 1 else slots
      let drl := store drl ds { drl.elem ds with length := s64 (markerVcn - (drl.elem ds).vcn) }
      let ds := ds + 1
      let drl := if slots = 0 then ntfsRlReallocNofail allocator drl ds (ds + 1) else drl
      .done (store drl ds ⟨markerVcn, lcnEnoent, 0⟩)

def mergeRoutine (start finish : Bool) (allocator : Allocator) (drl : RlArray) (ds : ℕ)
    (srl : RlArray) (sstart ss dins : ℕ) : MergeOutcome RlArray :=
  match start, finish with
  | true, true => ntfsRlReplace allocator drl ds srl sstart ss dins
  | true, false => ntfsRlInsert allocator drl ds srl sstart ss dins
  | false, true => ntfsRlAppend allocator drl ds srl sstart ss dins
  | false, false => ntfsRlSplit allocator drl ds srl sstart ss dins

/-- The second half of `ntfs_runlists_merge`, with all positions known. -/
def mergeAt (allocator : Allocator) (drl srl : RlArray) (sstart send dins dend : ℕ) :
    MergeOutcome RlArray :=
  let marker := if (srl.elem send).lcn = lcnEnoent then send else 0
  let markerVcn := (srl.elem send).vcn
  let run := drl.elem dins
  let final := srl.elem (send - 1)
  let start := decide (run.lcn < lcnRlNotMapped ∨ run.vcn = (srl.elem sstart).vcn)
  let finish := decide (lcnRlNotMapped ≤ run.lcn ∧ endVcn run ≤ endVcn final)
  -- Or we will lose an end marker.
  let ss := mappedEnd srl.elem (send + 1) - sstart + (if finish ∧ run.length = 0 then 1 else 0)
  let finish := finish && !decide (marker ≠ 0 ∧ final.vcn < endVcn run)
  match mergeRoutine start finish allocator drl (dend + 1) srl sstart ss dins with
  | .failed why drl srl => .failed why drl srl
  | .done rl => if marker ≠ 0 then fixEndMarker allocator rl srl dend markerVcn else .done rl

/-- `ntfs_runlists_merge` on two runlists in memory. -/
def mergeBlocks (allocator : Allocator) (drl srl : RlArray) : MergeOutcome RlArray :=
  match scanFrom (fun run => run.length = 0 ∨ lcnHole ≤ run.lcn) srl 0 with
  | none => .failed .overrun drl srl
  | some sstart =>
    let first := srl.elem sstart
    -- Can't have an entirely unmapped source runlist.
    if first.length = 0 then .failed .bug drl srl
    else match scanFrom (fun run => run.length = 0 ∨ first.vcn < endVcn run) drl 0 with
    | none => .failed .overrun drl srl
    | some dins =>
      let run := drl.elem dins
      if run.vcn = first.vcn ∧ 0 ≤ run.lcn ∧ 0 ≤ first.lcn then .failed (.errno .erange) drl srl
      else match scanFrom (fun run => run.length = 0) srl sstart,
          scanFrom (fun run => run.length = 0) drl dins with
        | some send, some dend => mergeAt allocator drl srl sstart send dins dend
        | _, _ => .failed .overrun drl srl

/-- `ntfs_runlists_merge` when there is no destination: the source becomes the runlist, with an
unmapped element in front if it does not start at zero. -/
def firstMapping (allocator : Allocator) (srl : RlArray) : Except Failure RlArray :=
  if (srl.elem 0).vcn = 0 then .ok srl
  else match scanFrom (fun run => run.length = 0) srl 0 with
    | none => .error .overrun
    | some dend =>
      match ntfsRlRealloc allocator srl (dend + 1) (dend + 1 + 1) with
      | .error why => .error why
      | .ok drl =>
        let drl := ntfsRlMm drl 1 0 (dend + 1)
        .ok (store drl 0 ⟨0, lcnRlNotMapped, (drl.elem 1).vcn⟩)

/-- A pointer to a runlist: a null pointer, an error number in its place, or a block. -/
inductive RlPtr
  | null
  | err (code : Errno)
  | block (rl : RlArray)

def ntfsRunlistsMerge (allocator : Allocator) : RlPtr → RlPtr → MergeOutcome RlPtr
  | drl, .null => .done drl
  | drl, .err code => .failed (.errno .einval) drl (.err code)
  | .err code, .block srl => .failed (.errno .einval) (.err code) (.block srl)
  | .null, .block srl =>
    match firstMapping allocator srl with
    | .error why => .failed why .null (.block srl)
    | .ok rl => .done (.block rl)
  | .block drl, .block srl =>
    match mergeBlocks allocator drl srl with
    | .failed why drl srl => .failed why (.block drl) (.block srl)
    | .done rl => .done (.block rl)

/-! ### Scans over lists -/

variable {block drl srl : RlArray} {cells : ℕ → RunlistElement}
  {front items rest skipped : List RunlistElement} {dst : Runlist} {run found : RunlistElement}

theorem scan_eq {stop : RunlistElement → Bool} {i fuel : ℕ}
    (hcl : Segment cells i (skipped ++ [found])) (hskip : ∀ run ∈ skipped, stop run = false)
    (hfnd : stop found = true) (hfuel : skipped.length < fuel) :
    scan stop cells fuel i = some (i + skipped.length) := by
  induction skipped generalizing i fuel with
  | nil =>
    obtain ⟨fuel, rfl⟩ := Nat.exists_eq_add_of_lt hfuel
    rw [length_nil, zero_add, scan, hcl.1, if_pos hfnd, Nat.add_zero]
  | cons run skipped ih =>
    obtain ⟨fuel, rfl⟩ := Nat.exists_eq_add_of_lt hfuel
    have hrun : ¬ stop run = true := by simp [hskip run (by simp)]
    have hnext : scan stop cells (skipped.length + 1 + fuel) (i + 1) =
        some (i + 1 + skipped.length) :=
      ih hcl.2 (fun other hoth => hskip other (by simp [hoth])) (by omega)
    rw [length_cons, scan, hcl.1, if_neg hrun, hnext]
    congr 1
    omega

theorem scanFrom_eq (stop : RunlistElement → Bool)
    (hblock : block.Holds (front ++ (skipped ++ found :: rest)))
    (hskip : ∀ run ∈ skipped, stop run = false) (hfnd : stop found = true) :
    scanFrom stop block front.length = some (front.length + skipped.length) := by
  have hcap := hblock.length_le_cap
  simp only [length_append, length_cons] at hcap
  have hcl := ((segment_append _ _ _ _).mp hblock.2).2
  rw [zero_add, append_cons, segment_append] at hcl
  exact scan_eq hcl.1 hskip hfnd (by omega)

theorem mappedEnd_eq {trail : List RunlistElement} {final : RunlistElement}
    (hcl : Segment cells 0 (front ++ final :: trail)) (hfin : lcnHole ≤ final.lcn)
    (htrail : ∀ run ∈ trail, run.lcn < lcnHole) :
    mappedEnd cells (front.length + 1 + trail.length) = front.length + 1 := by
  induction trail using List.reverseRecOn with
  | nil =>
    have hcell := ((segment_append _ _ _ _).mp hcl).2.1
    rw [zero_add] at hcell
    rw [length_nil, Nat.add_zero, mappedEnd, hcell, if_pos hfin]
  | append_singleton trail run ih =>
    rw [← cons_append, ← append_assoc, segment_append] at hcl
    have hcell := hcl.2.1
    have hidx : 0 + (front ++ final :: trail).length = front.length + 1 + trail.length := by
      simp only [length_append, length_cons]
      omega
    rw [hidx] at hcell
    rw [length_append, length_singleton, ← Nat.add_assoc, mappedEnd, hcell,
      if_neg (not_le.mpr (htrail run (by simp)))]
    exact ih hcl.1 fun other hoth => htrail other (by simp [hoth])

theorem endVcn_eq_of_chain {first last : ℤ} {runs : List RunlistElement}
    (hch : Chain first runs last) (hfst : 0 ≤ first) (hlast : IsS64 last) (hrun : run ∈ runs) :
    endVcn run = run.vcn + run.length := by
  obtain ⟨hlow, hlen, hhigh⟩ := hch.mem hrun
  unfold IsS64 at hlast
  exact s64_of_isS64 ⟨by omega, by omega⟩

/-! ### The parts of the two lists -/

/-- The place in a runlist where runs from `vcn` on go: the runs in front of it, the run that
contains `vcn` or the terminator, and what follows. -/
structure Spot (drl : Runlist) (vcn : ℤ) where
  before : List RunlistElement
  run : RunlistElement
  rest : List RunlistElement
  elements_eq : drl.elements = before ++ run :: rest
  chain_before : Chain 0 before run.vcn
  run_vcn_le : run.vcn ≤ vcn
  stop : (rest = [] ∧ run = drl.last ∧ before = drl.runs) ∨
    ∃ more, rest = more ++ [drl.last] ∧ drl.runs = before ++ run :: more ∧ 0 < run.length ∧
      vcn < run.vcn + run.length ∧ Chain (run.vcn + run.length) more drl.last.vcn

theorem exists_spot (drl : Runlist) {vcn : ℤ} (hvcn : 0 ≤ vcn) : Nonempty (Spot drl vcn) := by
  by_cases hend : drl.last.vcn ≤ vcn
  · exact ⟨⟨drl.runs, drl.last, [], rfl, drl.chain, hend, .inl ⟨rfl, rfl, rfl⟩⟩⟩
  · obtain ⟨before, run, more, hruns, hcov, -⟩ := drl.chain.exists_covers hvcn (not_le.mp hend)
    have hch := drl.chain
    rw [hruns, chain_append] at hch
    obtain ⟨middle, hbef, hmidd, hlen, hmore⟩ := hch
    rw [← hmidd] at hbef hmore
    refine ⟨⟨before, run, more ++ [drl.last], ?_, hbef, hcov.1,
      .inr ⟨more, rfl, hruns, hlen, hcov.2, hmore⟩⟩⟩
    rw [Runlist.elements, hruns, append_assoc, cons_append]

/-- A source runlist: an unmapped lead, the part from the first to the last run with
`lcn >= LCN_HOLE`, an unmapped trail and the terminator. The runs are consecutive and of positive
length, from `origin` on. -/
structure Source where
  origin : ℤ
  lead : List RunlistElement
  mapped : List RunlistElement
  trail : List RunlistElement
  last : RunlistElement
  lead_unmapped : ∀ run ∈ lead, run.lcn < lcnHole
  mapped_ne_nil : mapped ≠ []
  first_mapped : ∀ run ∈ mapped.head?, lcnHole ≤ run.lcn
  final_mapped : ∀ run ∈ mapped.getLast?, lcnHole ≤ run.lcn
  trail_unmapped : ∀ run ∈ trail, run.lcn < lcnHole
  origin_nonneg : 0 ≤ origin
  chain : Chain origin (lead ++ (mapped ++ trail)) last.vcn
  last_length : last.length = 0
  last_lcn : last.lcn = lcnEnoent ∨ last.lcn = lcnRlNotMapped
  last_vcn_isS64 : IsS64 last.vcn
  lcn_isS64 : ∀ run ∈ mapped, IsS64 run.lcn

namespace Source

def fromZero (lead mapped trail : List RunlistElement) (last : RunlistElement)
    (hunmapped : ∀ run ∈ lead ++ trail, run.lcn < lcnHole) (hne : mapped ≠ [])
    (hlcn : ∀ run ∈ mapped, lcnHole ≤ run.lcn ∧ IsS64 run.lcn)
    (hchain : Chain 0 (lead ++ (mapped ++ trail)) last.vcn) (hlength : last.length = 0)
    (hlast : last.lcn = lcnEnoent ∨ last.lcn = lcnRlNotMapped) (hword : IsS64 last.vcn) :
    Source where
  origin := 0
  lead := lead
  mapped := mapped
  trail := trail
  last := last
  lead_unmapped run hrun := hunmapped run (List.mem_append_left _ hrun)
  mapped_ne_nil := hne
  first_mapped run hrun := (hlcn run (List.mem_of_mem_head? hrun)).1
  final_mapped run hrun := (hlcn run (List.mem_of_mem_getLast? hrun)).1
  trail_unmapped run hrun := hunmapped run (List.mem_append_right _ hrun)
  origin_nonneg := le_rfl
  chain := hchain
  last_length := hlength
  last_lcn := hlast
  last_vcn_isS64 := hword
  lcn_isS64 run hrun := (hlcn run hrun).2

def elements (srl : Source) : List RunlistElement :=
  srl.lead ++ (srl.mapped ++ (srl.trail ++ [srl.last]))

def first (srl : Source) : RunlistElement := srl.mapped.head srl.mapped_ne_nil

def final (srl : Source) : RunlistElement := (srl.mapped ++ srl.trail).getLast
  (List.append_ne_nil_of_left_ne_nil srl.mapped_ne_nil _)

def start (srl : Source) : ℤ := srl.first.vcn

def Overlaps (srl : Source) (run : RunlistElement) : Prop :=
  run.vcn = srl.start ∧ 0 ≤ run.lcn ∧ 0 ≤ srl.first.lcn

instance decidableOverlaps (srl : Source) (run : RunlistElement) : Decidable (srl.Overlaps run) :=
  inferInstanceAs (Decidable (_ ∧ _ ∧ _))

def starts (srl : Source) (run : RunlistElement) : Bool :=
  decide (run.lcn < lcnRlNotMapped ∨ run.vcn = srl.start)

def reaches (srl : Source) (run : RunlistElement) : Bool :=
  decide (lcnRlNotMapped ≤ run.lcn ∧ endVcn run ≤ endVcn srl.final)

/-- The source reaches the end of the destination's element, and does so before its last run when it
knows the end of the attribute. -/
def finishes (srl : Source) (run : RunlistElement) : Bool :=
  srl.reaches run && !decide (srl.last.lcn = lcnEnoent ∧ srl.final.vcn < endVcn run)

/-- The elements copied from the source: the mapped part, and one more behind the end of the
destination, so as not to lose its end marker. -/
def inserted (srl : Source) (run : RunlistElement) : List RunlistElement :=
  srl.mapped ++
    if srl.reaches run = true ∧ run.length = 0 then (srl.trail ++ [srl.last]).take 1 else []

variable (srl : Source)

theorem cons_tail : srl.mapped = srl.first :: srl.mapped.tail :=
  (cons_head_tail srl.mapped_ne_nil).symm

theorem startOf_mapped : startOf srl.mapped = srl.start := by
  rw [srl.cons_tail, startOf_cons]
  rfl

theorem chain_parts : Chain srl.origin srl.lead srl.start ∧
    Chain srl.start (srl.mapped ++ srl.trail) srl.last.vcn := by
  obtain ⟨middle, hlead, hmap⟩ := (chain_append _ _ _ _).mp srl.chain
  have hmidd : middle = srl.start := by
    have hfst := hmap
    rw [srl.cons_tail] at hfst
    exact hfst.1.symm
  rw [hmidd] at hlead hmap
  exact ⟨hlead, hmap⟩

theorem start_nonneg : 0 ≤ srl.start := srl.origin_nonneg.trans srl.chain_parts.1.le

theorem first_lcn : lcnHole ≤ srl.first.lcn := srl.first_mapped _ (head_mem_head? _)

theorem final_eq : ∃ front, srl.mapped ++ srl.trail = front ++ [srl.final] :=
  ⟨_, (dropLast_append_getLast _).symm⟩

theorem last_lcn_lt : srl.last.lcn < lcnHole := by
  rcases srl.last_lcn with h | h <;> rw [h] <;> decide

theorem final_bounds : srl.start ≤ srl.final.vcn ∧ 0 < srl.final.length ∧
    srl.final.vcn + srl.final.length = srl.last.vcn ∧ endVcn srl.final = srl.last.vcn := by
  obtain ⟨front, hfr⟩ := srl.final_eq
  have hch := srl.chain_parts.2
  rw [hfr, chain_append] at hch
  obtain ⟨middle, hbef, hvcn, hlen, hend⟩ := hch
  have hle := hbef.le
  have hsum : srl.final.vcn + srl.final.length = srl.last.vcn := by
    rw [hvcn]
    exact hend
  refine ⟨hvcn ▸ hle, hlen, hsum, ?_⟩
  rw [endVcn, hsum, s64_of_isS64 srl.last_vcn_isS64]

theorem start_isS64 : IsS64 srl.start := by
  obtain ⟨hle, hlen, hsum, -⟩ := srl.final_bounds
  have hst := srl.start_nonneg
  have hlast := srl.last_vcn_isS64
  unfold IsS64 at *
  omega

theorem endVcn_eq {run : RunlistElement} (hrun : run ∈ srl.mapped ++ srl.trail) :
    endVcn run = run.vcn + run.length :=
  endVcn_eq_of_chain srl.chain_parts.2 srl.start_nonneg srl.last_vcn_isS64 hrun

theorem inserted_eq {run : RunlistElement} (hlen : run.length ≠ 0) :
    srl.inserted run = srl.mapped := by
  rw [inserted, if_neg fun h => hlen h.2, append_nil]

theorem length_inserted (run : RunlistElement) : srl.lead.length + srl.mapped.length -
    srl.lead.length + (if srl.reaches run = true ∧ run.length = 0 then 1 else 0) =
      (srl.inserted run).length := by
  rw [inserted, length_append]
  split_ifs <;> simp

theorem length_inserted_le (run : RunlistElement) :
    srl.lead.length + (srl.inserted run).length ≤ srl.elements.length := by
  have hone : (if srl.reaches run = true ∧ run.length = 0 then 1 else 0) ≤ 1 := by
    split_ifs <;> omega
  rw [← srl.length_inserted run, elements]
  simp only [length_append, length_cons]
  omega

theorem head_inserted (run : RunlistElement) : ∀ first ∈ (srl.inserted run).head?,
    first.lcn ≠ lcnRlNotMapped ∧ first.vcn ≤ endVcn first := by
  rw [inserted, srl.cons_tail]
  rintro first ⟨⟩
  have hmem : srl.first ∈ srl.mapped ++ srl.trail :=
    mem_append_left _ (head_mem srl.mapped_ne_nil)
  have hlcn := srl.first_lcn
  have hlen := (srl.chain_parts.2.mem hmem).2.1
  rw [srl.endVcn_eq hmem]
  unfold lcnHole lcnRlNotMapped at *
  omega

theorem marker_ne_zero_iff :
    (if srl.last.lcn = lcnEnoent then srl.elements.length - 1 else 0) ≠ 0 ↔
      srl.last.lcn = lcnEnoent := by
  have hpos := List.length_pos_iff.mpr srl.mapped_ne_nil
  have hsend : srl.elements.length - 1 ≠ 0 := by
    simp [elements]
    omega
  split_ifs with hend
  · exact iff_of_true hsend hend
  · exact iff_of_false (fun h => h rfl) hend

theorem inserted_ne_nil (run : RunlistElement) : srl.inserted run ≠ [] :=
  append_ne_nil_of_left_ne_nil srl.mapped_ne_nil _

theorem length_pos (run : RunlistElement) (hrun : run ∈ srl.mapped ++ srl.trail) : 0 < run.length :=
  (srl.chain_parts.2.mem hrun).2.1

theorem inserted_segment {block : RlArray} (hblock : block.Holds srl.elements)
    (run : RunlistElement) : Segment block.elem srl.lead.length (srl.inserted run) := by
  have hcl := ((segment_append _ _ _ _).mp hblock.2).2
  rw [zero_add, segment_append] at hcl
  rw [inserted, segment_append]
  refine ⟨hcl.1, ?_⟩
  split_ifs with htake
  · have hrest := hcl.2
    rw [← take_append_drop 1 (srl.trail ++ [srl.last]), segment_append] at hrest
    exact hrest.1
  · trivial

end Source

theorem elem_eq (hblock : block.Holds items) (front : List RunlistElement) (item : RunlistElement)
    (rest : List RunlistElement) (hit : items = front ++ item :: rest) :
    block.elem front.length = item := by
  have hcl := hblock.2
  rw [hit, segment_append, zero_add] at hcl
  exact hcl.2.1

namespace Source

variable (srl : Source) {block : RlArray} (hblock : block.Holds srl.elements)
include hblock

theorem elem_first : block.elem srl.lead.length = srl.first :=
  elem_eq hblock srl.lead srl.first (srl.mapped.tail ++ (srl.trail ++ [srl.last])) (by
    rw [elements, srl.cons_tail]
    rfl)

theorem elem_last : block.elem (srl.elements.length - 1) = srl.last := by
  have hcell := elem_eq hblock (srl.lead ++ (srl.mapped ++ srl.trail)) srl.last []
    (by simp [elements])
  convert hcell using 2
  simp [elements]
  omega

theorem elem_final : block.elem (srl.elements.length - 1 - 1) = srl.final := by
  obtain ⟨front, hfr⟩ := srl.final_eq
  have helt : srl.elements = (srl.lead ++ front) ++ srl.final :: [srl.last] := by
    rw [elements, ← append_assoc srl.mapped, hfr]
    simp
  have hcell := elem_eq hblock _ _ _ helt
  convert hcell using 2
  rw [helt]
  simp

theorem mappedEnd_eq_length : mappedEnd block.elem (srl.elements.length - 1 + 1) =
    srl.lead.length + srl.mapped.length := by
  obtain ⟨front, final, hmap⟩ := exists_concat srl.mapped_ne_nil
  have hfin : lcnHole ≤ final.lcn := srl.final_mapped final (by simp [hmap])
  have helt : srl.elements = (srl.lead ++ front) ++ final :: (srl.trail ++ [srl.last]) := by
    rw [elements, hmap]
    simp
  have htrail : ∀ run ∈ srl.trail ++ [srl.last], run.lcn < lcnHole := by
    intro run hrun
    rcases List.mem_append.mp hrun with htrail | hlast
    · exact srl.trail_unmapped run htrail
    · rw [List.mem_singleton.mp hlast]
      exact srl.last_lcn_lt
  have hscan := mappedEnd_eq (helt ▸ hblock.2) hfin htrail
  have hcnt : srl.elements.length - 1 + 1 = (srl.lead ++ front).length + 1 +
      (srl.trail ++ [srl.last]).length := by
    rw [helt]
    simp
    omega
  rw [hcnt, hscan, hmap]
  simp
  omega

theorem scanFrom_first : scanFrom (fun run => run.length = 0 ∨ lcnHole ≤ run.lcn) block 0 =
    some srl.lead.length := by
  have helt : srl.elements =
      [] ++ (srl.lead ++ srl.first :: (srl.mapped.tail ++ (srl.trail ++ [srl.last]))) := by
    rw [elements, srl.cons_tail]
    rfl
  have hscan := scanFrom_eq (fun run => run.length = 0 ∨ lcnHole ≤ run.lcn) (helt ▸ hblock)
    (fun run hrun => by
      have hlen := (srl.chain_parts.1.mem hrun).2.1.ne'
      simpa using And.intro hlen (srl.lead_unmapped run hrun)) (by simp [srl.first_lcn])
  rwa [length_nil, zero_add] at hscan

theorem scanFrom_last : scanFrom (fun run => run.length = 0) block srl.lead.length =
    some (srl.elements.length - 1) := by
  have helt : srl.elements = srl.lead ++ ((srl.mapped ++ srl.trail) ++ srl.last :: []) := by
    simp [elements]
  have hscan := scanFrom_eq (fun run => run.length = 0) (helt ▸ hblock)
    (fun run hrun => by simpa using (srl.length_pos run hrun).ne') (by simp [srl.last_length])
  have hcnt : srl.lead.length + (srl.mapped ++ srl.trail).length = srl.elements.length - 1 := by
    rw [helt]
    simp
    omega
  rwa [hcnt] at hscan

end Source

/-! ### What the code does with the parts -/

def mergeRuns (start finish : Bool) (before : List RunlistElement) (run : RunlistElement)
    (runs rest : List RunlistElement) : List RunlistElement :=
  match start, finish with
  | true, true => replaceRuns before runs rest
  | true, false => insertRuns before run runs rest
  | false, true => appendRuns before run runs rest
  | false, false => splitRuns before run runs rest

/-- The end of the merge: on success the marker code follows when the source knows the end of the
attribute. -/
def afterRoutine (allocator : Allocator) (dend : ℕ) (last : RunlistElement) (srl : RlArray) :
    MergeOutcome RlArray → MergeOutcome RlArray
  | .failed why drl srl => .failed why drl srl
  | .done rl =>
    if last.lcn = lcnEnoent then fixEndMarker allocator rl srl dend last.vcn else .done rl

theorem mergeAt_eq (allocator : Allocator) {src : Source} (spot : Spot dst src.start)
    (hdrl : drl.Holds dst.elements) (hsrl : srl.Holds src.elements) :
    mergeAt allocator drl srl src.lead.length (src.elements.length - 1) spot.before.length
        (dst.elements.length - 1) =
      afterRoutine allocator (dst.elements.length - 1) src.last srl
        (mergeRoutine (src.starts spot.run) (src.finishes spot.run) allocator drl
          dst.elements.length srl src.lead.length (src.inserted spot.run).length
          spot.before.length) := by
  have hdsize : dst.elements.length - 1 + 1 = dst.elements.length := by
    rw [dst.length_elements]
    rfl
  unfold mergeAt
  simp only [src.elem_first hsrl, src.elem_last hsrl, src.elem_final hsrl,
    src.mappedEnd_eq_length hsrl, elem_eq hdrl _ _ _ spot.elements_eq, src.marker_ne_zero_iff,
    hdsize]
  rw [← src.length_inserted]
  rfl

namespace Spot

variable {dst : Runlist} {vcn : ℤ} (spot : Spot dst vcn)

theorem mem_runs {run : RunlistElement} (hrun : run ∈ spot.before) : run ∈ dst.runs := by
  rcases spot.stop with ⟨-, -, hbef⟩ | ⟨more, -, hruns, -⟩
  · rwa [← hbef]
  · rw [hruns]
    exact mem_append_left _ hrun

theorem before_passed {run : RunlistElement} (hrun : run ∈ spot.before) :
    run.length ≠ 0 ∧ ¬ vcn < endVcn run := by
  obtain ⟨-, hlen, hhigh⟩ := spot.chain_before.mem hrun
  rw [endVcn_eq_of_chain dst.chain le_rfl dst.last_vcn_isS64 (spot.mem_runs hrun)]
  have hle := spot.run_vcn_le
  exact ⟨hlen.ne', by omega⟩

theorem run_stops : spot.run.length = 0 ∨ vcn < endVcn spot.run := by
  rcases spot.stop with ⟨-, hrun, -⟩ | ⟨more, -, hruns, -, hlt, -⟩
  · exact .inl (hrun ▸ dst.last_length)
  · right
    rwa [endVcn_eq_of_chain dst.chain le_rfl dst.last_vcn_isS64 (by rw [hruns]; simp)]

theorem scanFrom_run {block : RlArray} (hblock : block.Holds dst.elements) :
    scanFrom (fun run => run.length = 0 ∨ vcn < endVcn run) block 0 = some spot.before.length := by
  have helt : dst.elements = [] ++ (spot.before ++ spot.run :: spot.rest) := spot.elements_eq
  have hscan := scanFrom_eq (fun run => run.length = 0 ∨ vcn < endVcn run) (helt ▸ hblock)
    (fun run hrun => by
      have hpass := spot.before_passed hrun
      simpa using hpass) (by simpa using spot.run_stops)
  rwa [length_nil, zero_add] at hscan

theorem scanFrom_end {block : RlArray} (hblock : block.Holds dst.elements) :
    scanFrom (fun run => run.length = 0) block spot.before.length =
      some (dst.elements.length - 1) := by
  rcases spot.stop with ⟨hrest, hrun, -⟩ | ⟨more, hrest, hruns, -⟩
  · have helt : dst.elements = spot.before ++ ([] ++ dst.last :: []) := by
      rw [spot.elements_eq, hrest, hrun]
      rfl
    have hscan := scanFrom_eq (fun run => run.length = 0) (helt ▸ hblock) (by simp)
      (by simp [dst.last_length])
    rw [hscan, helt]
    simp
  · have helt : dst.elements = spot.before ++ ((spot.run :: more) ++ dst.last :: []) := by
      rw [spot.elements_eq, hrest]
      rfl
    have hscan := scanFrom_eq (fun run => run.length = 0) (helt ▸ hblock) (by
      intro run hrun
      have hmem : run ∈ dst.runs := by
        rw [hruns]
        exact mem_append_right _ hrun
      simpa using (dst.chain.mem hmem).2.1.ne') (by simp [dst.last_length])
    rw [hscan, helt]
    simp

end Spot

/-- On two runlists in memory the code rejects the overlap it looks for, and otherwise picks the
routine by the parts of the two lists. -/
theorem mergeBlocks_eq (allocator : Allocator) {src : Source} (spot : Spot dst src.start)
    (hdrl : drl.Holds dst.elements) (hsrl : srl.Holds src.elements) :
    mergeBlocks allocator drl srl =
      if src.Overlaps spot.run then .failed (.errno .erange) drl srl
      else afterRoutine allocator (dst.elements.length - 1) src.last srl
        (mergeRoutine (src.starts spot.run) (src.finishes spot.run) allocator drl
          dst.elements.length srl src.lead.length (src.inserted spot.run).length
          spot.before.length) := by
  have hfst : 0 < src.first.length := src.length_pos _
    (mem_append_left _ (head_mem src.mapped_ne_nil))
  have hdins : scanFrom (fun run => run.length = 0 ∨ src.first.vcn < endVcn run) drl 0 =
    some spot.before.length := spot.scanFrom_run hdrl
  unfold mergeBlocks
  rw [src.scanFrom_first hsrl]
  simp only [src.elem_first hsrl]
  rw [if_neg hfst.ne', hdins]
  simp only [elem_eq hdrl _ _ _ spot.elements_eq]
  rw [src.scanFrom_last hsrl, spot.scanFrom_end hdrl]
  simp only [mergeAt_eq allocator spot hdrl hsrl]
  rfl

theorem finishes_of_last {src : Source} (spot : Spot dst src.start) (hrest : spot.rest = [])
    (hlcn : lcnRlNotMapped ≤ spot.run.lcn) :
    spot.run = dst.last ∧ src.reaches spot.run = true ∧ src.finishes spot.run = true := by
  have hrun : spot.run = dst.last := by
    rcases spot.stop with ⟨-, hrun, -⟩ | ⟨more, hmore, -⟩
    · exact hrun
    · simp [hrest] at hmore
  have hend : endVcn spot.run = spot.run.vcn := by
    rw [hrun, endVcn, dst.last_length, add_zero, s64_of_isS64 dst.last_vcn_isS64]
  have hle := spot.run_vcn_le
  obtain ⟨hst, hlen, hsum, hfin⟩ := src.final_bounds
  have hrch : src.reaches spot.run = true :=
    decide_eq_true ⟨hlcn, by rw [hend, hfin]; omega⟩
  refine ⟨hrun, hrch, ?_⟩
  rw [Source.finishes, hrch, Bool.true_and, Bool.not_eq_true', decide_eq_false_iff_not, hend]
  exact fun h => absurd h.2 (by omega)

theorem rest_ne_nil {src : Source} (spot : Spot dst src.start)
    (hfin : src.finishes spot.run = false) (hlcn : lcnRlNotMapped ≤ spot.run.lcn) :
    spot.rest ≠ [] := by
  intro hrest
  rw [(finishes_of_last spot hrest hlcn).2.2] at hfin
  exact absurd hfin (by decide)

theorem lcn_of_not_starts {src : Source} (hst : src.starts run = false) :
    lcnRlNotMapped ≤ run.lcn :=
  not_lt.mp fun hlt => absurd (of_decide_eq_false hst) (not_not.mpr (.inl hlt))

theorem lcn_of_isGap (hgap : isGap run = true) : lcnRlNotMapped ≤ run.lcn := by
  rcases of_decide_eq_true hgap with h | h <;> simp [h, lcnHole, lcnRlNotMapped]

def mergedRuns {dst : Runlist} (src : Source) (spot : Spot dst src.start) : List RunlistElement :=
  mergeRuns (src.starts spot.run) (src.finishes spot.run) spot.before spot.run
    (src.inserted spot.run) spot.rest

/-- The merge appends behind the unmapped terminator of the destination, and reads outside the block
while it does so. -/
def Overruns {dst : Runlist} (drl : RlArray) (src : Source) (spot : Spot dst src.start) : Prop :=
  src.starts spot.run = false ∧ src.finishes spot.run = true ∧
    AppendOverruns drl dst.elements.length (src.inserted spot.run) spot.rest

/-- The chosen routine either fails for want of memory and touches nothing, or runs out of the
block, or leaves a block with the merged runlist. Behind it an append or a replacement leaves
nothing new, and a replacement keeps room for the old runlist and its elements there. -/
theorem mergeRoutine_spec (allocator : Allocator) {src : Source} (spot : Spot dst src.start)
    (hdrl : drl.Holds dst.elements) (hsrl : srl.Holds src.elements) :
    let outcome := mergeRoutine (src.starts spot.run) (src.finishes spot.run) allocator drl
      dst.elements.length srl src.lead.length (src.inserted spot.run).length spot.before.length
    outcome.RunsShort allocator drl srl ∨
      (Overruns drl src spot ∧ ∃ drl' srl', outcome = .failed .overrun drl' srl') ∨
      (¬ Overruns drl src spot ∧ ∃ block, outcome = .done block ∧
        block.Holds (mergedRuns src spot) ∧
          (src.finishes spot.run = true →
            StaleBehind allocator drl block (mergedRuns src spot).length) ∧
        (src.starts spot.run = true → src.finishes spot.run = true →
          pageAlign (dst.elements.length * elementSize) ≤ block.bytes ∧
          ∀ i, (mergedRuns src spot).length ≤ i → i < dst.elements.length →
              block.elem i = drl.elem i)) := by
  intro outcome
  have hsour := src.inserted_segment hsrl spot.run
  have hne := src.inserted_ne_nil spot.run
  have hhead := src.head_inserted spot.run
  have hst : startOf (src.inserted spot.run) = src.start := by
    rw [Source.inserted, startOf_append src.mapped_ne_nil, src.startOf_mapped]
  have hdst := hdrl
  rw [spot.elements_eq] at hdst
  unfold Overruns mergedRuns
  rw [spot.elements_eq]
  cases hs : src.starts spot.run <;> cases hf : src.finishes spot.run <;>
    simp only [outcome, hs, hf, spot.elements_eq, mergeRoutine, mergeRuns, true_and, false_and,
      not_false_eq_true, false_or, forall_const, Bool.false_eq_true, Bool.true_eq_false,
      IsEmpty.forall_iff, and_true]
  · exact ntfsRlSplit_spec allocator hdst hsour hne (rest_ne_nil spot hf (lcn_of_not_starts hs))
  · exact ntfsRlAppend_spec allocator hdst hsour hne
  · exact ntfsRlInsert_spec allocator hdst hsour hne hhead
      (by rw [hst]; exact src.start_isS64) fun hgap => rest_ne_nil spot hf (lcn_of_isGap hgap)
  · rcases ntfsRlReplace_spec allocator hdst hsour hne fun first hfst => (hhead first hfst).1
      with herr | ⟨block, hok, hh, hroom, hfrm⟩
    · exact .inl herr
    · refine .inr ⟨block, hok, hh, fun i hi => ?_, hroom, fun i hlow hhigh => ?_⟩
      · exact (hfrm i hi).imp (congrArg _) fun h => congrArg _ h.2
      · exact (hfrm i hlow).resolve_right fun h => absurd h.1 (by omega)

/-! ### The marker code -/

theorem holds_store {item : RunlistElement} (hblock : block.Holds (front ++ item :: rest))
    (value : RunlistElement) : (store block front.length value).Holds (front ++ value :: rest) := by
  obtain ⟨hby, hcl⟩ := hblock
  rw [segment_append, zero_add] at hcl
  refine ⟨by simpa using hby, (segment_append _ _ _ _).mpr ⟨hcl.1.update_of_le (by simp), ?_⟩⟩
  rw [zero_add]
  exact ⟨Function.update_self .., hcl.2.2.update_of_lt (by omega)⟩

theorem holds_concat (allocator : Allocator) (hblock : block.Holds items) (value : RunlistElement) :
    (store (ntfsRlReallocNofail allocator block items.length (items.length + 1)) items.length
      value).Holds (items ++ [value]) := by
  obtain ⟨hby, hcl⟩ := ntfsRlReallocNofail_spec allocator hblock (Nat.le_succ items.length)
  refine ⟨by simpa using hby, (segment_append _ _ _ _).mpr ⟨hcl.update_of_le (by simp), ?_⟩⟩
  rw [zero_add]
  exact ⟨Function.update_self .., trivial⟩

/-- The end the marker code gives a runlist: the terminator moves to `vcn`, and what lies between is
not mapped. -/
def endMarked (runs : List RunlistElement) (last : RunlistElement) (vcn : ℤ) :
    List RunlistElement :=
  if vcn < last.vcn then runs ++ [last]
  else if last.vcn = vcn then runs ++ [{ last with lcn := lcnEnoent }]
  else match runs.getLast? with
    | some final =>
      if last.lcn = lcnEnoent ∧ final.lcn = lcnRlNotMapped then
        runs.dropLast ++ [{ final with length := s64 (vcn - final.vcn) }, ⟨vcn, lcnEnoent, 0⟩]
      else runs ++ [⟨last.vcn, lcnRlNotMapped, s64 (vcn - last.vcn)⟩, ⟨vcn, lcnEnoent, 0⟩]
    | none => runs ++ [⟨last.vcn, lcnRlNotMapped, s64 (vcn - last.vcn)⟩, ⟨vcn, lcnEnoent, 0⟩]

/-- Assumes: a terminated runlist, of which the marker code scans a part that reaches the
terminator; a terminator that has to move is one of the two usual ones. The marker code succeeds and
leaves the runlist with its end marked. -/
theorem fixEndMarker_spec (allocator : Allocator) (srl : RlArray) {behind : List RunlistElement}
    {last : RunlistElement} (hdrl : drl.Holds ((front ++ behind) ++ [last]))
    (hne : front ++ behind ≠ []) (hbeh : ∀ run ∈ behind, run.length ≠ 0)
    (hlen : last.length = 0) (vcn : ℤ)
    (hlcn : vcn ≤ last.vcn ∨ last.lcn = lcnEnoent ∨ last.lcn = lcnRlNotMapped) :
    ∃ block, fixEndMarker allocator drl srl front.length vcn = .done block ∧
      block.Holds (endMarked (front ++ behind) last vcn) := by
  have hscan := scanFrom_eq (fun run => run.length = 0) (append_assoc front _ _ ▸ hdrl)
    (fun run hrun => by simpa using hbeh run hrun) (by simp [hlen])
  rw [← length_append] at hscan
  have hlast := elem_eq hdrl _ _ _ rfl
  obtain ⟨runs, final, hruns⟩ := exists_concat hne
  unfold fixEndMarker endMarked
  rw [hscan]
  rw [hruns] at hdrl hlast ⊢
  simp only [hlast]
  by_cases hbef : vcn < last.vcn
  · rw [if_pos hbef, if_pos hbef]
    exact ⟨drl, rfl, hdrl⟩
  rw [if_neg hbef, if_neg hbef]
  by_cases hsame : last.vcn = vcn
  · rw [if_pos hsame, if_pos hsame]
    exact ⟨_, rfl, holds_store hdrl _⟩
  rw [if_neg hsame, if_neg hsame]
  have hfin : drl.elem runs.length = final := elem_eq hdrl runs final [last] (by simp)
  have hcnt : (runs ++ [final]).length = runs.length + 1 := by simp
  have hopenNe : lcnRlNotMapped ≠ lcnEnoent := by decide
  -- The terminator is overwritten by an unmapped run, and the new terminator goes behind it.
  have hlong := holds_concat allocator (holds_store hdrl
    ⟨last.vcn, lcnRlNotMapped, s64 (vcn - last.vcn)⟩) ⟨vcn, lcnEnoent, 0⟩
  rw [hcnt] at hlast ⊢
  rcases hlcn with hle | hend | hopen
  · omega
  · by_cases hunm : final.lcn = lcnRlNotMapped
    · -- The last run is extended instead.
      have hstor := holds_store (append_assoc runs [final] [last] ▸ hdrl)
        ⟨final.vcn, lcnRlNotMapped, s64 (vcn - final.vcn)⟩
      rw [append_cons] at hstor
      have hshort := holds_store hstor ⟨vcn, lcnEnoent, 0⟩
      simpa [hend, hfin, hunm] using hshort
    · simpa [hend, hfin, hunm, hlast] using hlong
  · simpa [hopen, hfin, hlast, hopenNe] using hlong

end AdvancedOs.Ntfs.RunlistMerge
