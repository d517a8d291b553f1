import AdvancedOs.Foundation.ArraySegments
import AdvancedOs.Foundation.SignedWords

/-!
# Runlists and the lookup of a cluster

A runlist is an array of elements, each mapping `length` clusters of an attribute from `vcn` on to
the clusters of the device from `lcn` on. Negative values of `lcn` are markers: a hole, a part whose
mapping has not been read yet, or the end of the attribute. The array ends with an element of length
zero. `ntfsRlVcnToLcn` walks the elements as the driver does, by the `vcn` of the following element.

`Chain first runs last` says that the runs are consecutive and of positive length, from `first` up
to but excluding `last`, and `lcnIn runs vcn` is the map such runs stand for: the cluster of the run
that contains `vcn`. A `Runlist` carries the shape the driver relies on, and its lookup is that map,
with the marker of the terminator outside the runs (`Runlist.lookup_eq`).

In memory a runlist is the front part of a block of whole pages. `RlArray` is such a block; what
follows the terminator is whatever the block held before.
-/

namespace AdvancedOs.Ntfs.RunlistElements

open Foundation.ArraySegments Foundation.SignedWords List

/-! ### Elements, markers and errors -/

structure RunlistElement where
  vcn : ℤ
  lcn : ℤ
  length : ℤ
deriving DecidableEq, Repr

/-- `LCN_HOLE`: the clusters are not allocated. -/
def lcnHole : ℤ := -1

/-- `LCN_RL_NOT_MAPPED`: the mapping of the clusters has not been read. -/
def lcnRlNotMapped : ℤ := -2

/-- `LCN_ENOENT`: the attribute has no such cluster. -/
def lcnEnoent : ℤ := -3

/-- `LCN_ENOMEM`: there was no memory to read the mapping. -/
def lcnEnomem : ℤ := -4

/-- `LCN_EIO`: the mapping could not be read. -/
def lcnEio : ℤ := -5

theorem isS64_lcnRlNotMapped : IsS64 lcnRlNotMapped := by decide

/-- The error numbers the modelled functions return, without their sign. -/
inductive Errno
  | enoent | eio | enomem | einval | enospc | erange | eopnotsupp | eoverflow | eacces
deriving DecidableEq, Repr

/-- How a call ends without a result: with an error number, at a `BUG_ON`, or by running past the
end of an allocated block. -/
inductive Failure
  | errno (code : Errno)
  | bug
  | overrun
deriving DecidableEq, Repr

/-! ### Lookup -/

def RunlistElement.lcnAt (run : RunlistElement) (vcn : ℤ) : ℤ :=
  if 0 ≤ run.lcn then s64 (run.lcn + s64 (vcn - run.vcn)) else run.lcn

variable {first last vcn : ℤ} {run next : RunlistElement} {runs : List RunlistElement}

/-- The cluster of the run at the vcn has a number of 64 bits, if the run is mapped. -/
def NumberedAt (run : RunlistElement) (vcn : ℤ) : Prop :=
  0 ≤ run.lcn → run.lcn + (vcn - run.vcn) < 2 ^ 63

theorem RunlistElement.lcnAt_of_neg (hlcn : run.lcn < 0) (vcn : ℤ) :
    run.lcnAt vcn = run.lcn := if_neg (not_le.mpr hlcn)

theorem RunlistElement.lcnAt_self (hlcn : IsS64 run.lcn) : run.lcnAt run.vcn = run.lcn := by
  have hzero : s64 0 = 0 := s64_of_isS64 (by decide)
  unfold RunlistElement.lcnAt
  split_ifs
  · rw [sub_self, hzero, add_zero, s64_of_isS64 hlcn]
  · rfl

/-- The loop of `ntfs_rl_vcn_to_lcn`. A list that ends without an element of length zero is left at
its end, with no value. -/
def vcnToLcnLoop : List RunlistElement → ℤ → Option ℤ
  | [], _ => none
  | run :: rest, vcn =>
    if run.length = 0 then some (if run.lcn < 0 then run.lcn else lcnEnoent)
    else match rest with
      | [] => none
      | next :: _ => if vcn < next.vcn then some (run.lcnAt vcn) else vcnToLcnLoop rest vcn

/-- `ntfs_rl_vcn_to_lcn`. No value stands for the `BUG_ON` and for a walk past the end of the
list. -/
def ntfsRlVcnToLcn (rl : Option (List RunlistElement)) (vcn : ℤ) : Option ℤ :=
  if vcn < 0 then none
  else match rl with
    | none => some lcnRlNotMapped
    | some [] => none
    | some (run :: rest) =>
      if vcn < run.vcn then some lcnEnoent else vcnToLcnLoop (run :: rest) vcn

theorem vcnToLcnLoop_cons_cons {rest : List RunlistElement} (hlen : run.length ≠ 0)
    (hlt : vcn < next.vcn) : vcnToLcnLoop (run :: next :: rest) vcn = some (run.lcnAt vcn) := by
  rw [vcnToLcnLoop, if_neg hlen, if_pos hlt]

theorem vcnToLcnLoop_terminator {last : RunlistElement} (rest : List RunlistElement)
    (hlen : last.length = 0) (hlcn : last.lcn < 0) :
    vcnToLcnLoop (last :: rest) vcn = some last.lcn := by
  unfold vcnToLcnLoop
  rw [if_pos hlen, if_pos hlcn]

/-! ### Consecutive runs -/

/-- The runs are consecutive and of positive length, from `first` up to but excluding `last`. -/
def Chain : ℤ → List RunlistElement → ℤ → Prop
  | first, [], last => first = last
  | first, run :: rest, last =>
    run.vcn = first ∧ 0 < run.length ∧ Chain (first + run.length) rest last

instance decidableChain : (first : ℤ) → (runs : List RunlistElement) → (last : ℤ) →
    Decidable (Chain first runs last)
  | first, [], last => inferInstanceAs (Decidable (first = last))
  | first, run :: rest, last =>
    have := decidableChain (first + run.length) rest last
    inferInstanceAs (Decidable (run.vcn = first ∧ 0 < run.length ∧
      Chain (first + run.length) rest last))

@[simp] theorem chain_nil (first last : ℤ) : Chain first [] last ↔ first = last := Iff.rfl

@[simp] theorem chain_cons (first last : ℤ) (run : RunlistElement) (rest : List RunlistElement) :
    Chain first (run :: rest) last ↔
      run.vcn = first ∧ 0 < run.length ∧ Chain (first + run.length) rest last := Iff.rfl

theorem chain_append (first last : ℤ) (runs more : List RunlistElement) :
    Chain first (runs ++ more) last ↔ ∃ middle, Chain first runs middle ∧
      Chain middle more last := by
  induction runs generalizing first with
  | nil => simp
  | cons run runs ih =>
    simp only [cons_append, chain_cons, ih]
    constructor
    · rintro ⟨hvcn, hlen, middle, hruns, hmore⟩
      exact ⟨middle, ⟨hvcn, hlen, hruns⟩, hmore⟩
    · rintro ⟨middle, ⟨hvcn, hlen, hruns⟩, hmore⟩
      exact ⟨hvcn, hlen, middle, hruns, hmore⟩

/-- A chain does not run backwards. -/
theorem Chain.le (hch : Chain first runs last) : first ≤ last := by
  induction runs generalizing first with
  | nil => exact le_of_eq hch
  | cons run runs ih =>
    have hrest := ih hch.2.2
    have hlen := hch.2.1
    omega

theorem Chain.lt (hch : Chain first runs last) (hruns : runs ≠ []) : first < last := by
  cases runs with
  | nil => exact absurd rfl hruns
  | cons run runs =>
    have hrest := hch.2.2.le
    have hlen := hch.2.1
    omega

/-- Every run of a chain has positive length and lies between its ends. -/
theorem Chain.mem (hch : Chain first runs last) (hrun : run ∈ runs) :
    first ≤ run.vcn ∧ 0 < run.length ∧ run.vcn + run.length ≤ last := by
  induction runs generalizing first with
  | nil => simp at hrun
  | cons head runs ih =>
    obtain ⟨hvcn, hlen, hrest⟩ := hch
    rcases List.mem_cons.mp hrun with rfl | hmem
    · exact ⟨hvcn.ge, hlen, by rw [hvcn]; exact hrest.le⟩
    · have hbd := ih hrest hmem
      omega

/-! ### The map a chain stands for -/

def RunlistElement.Covers (run : RunlistElement) (vcn : ℤ) : Prop :=
  run.vcn ≤ vcn ∧ vcn < run.vcn + run.length

instance decidableCovers (run : RunlistElement) (vcn : ℤ) : Decidable (run.Covers vcn) :=
  inferInstanceAs (Decidable (run.vcn ≤ vcn ∧ vcn < run.vcn + run.length))

/-- The cluster the runs give for a vcn, if one of them contains it. -/
def lcnIn (runs : List RunlistElement) (vcn : ℤ) : Option ℤ :=
  (runs.find? fun run => run.Covers vcn).map fun run => run.lcnAt vcn

@[simp] theorem lcnIn_nil (vcn : ℤ) : lcnIn [] vcn = none := rfl

theorem lcnIn_cons (run : RunlistElement) (runs : List RunlistElement) (vcn : ℤ) :
    lcnIn (run :: runs) vcn = if run.Covers vcn then some (run.lcnAt vcn) else lcnIn runs vcn := by
  unfold lcnIn
  by_cases hcov : run.Covers vcn
  · rw [List.find?_cons_of_pos (by simpa using hcov), if_pos hcov, Option.map_some]
  · rw [List.find?_cons_of_neg (by simpa using hcov), if_neg hcov]

theorem lcnIn_append (runs more : List RunlistElement) (vcn : ℤ) :
    lcnIn (runs ++ more) vcn = (lcnIn runs vcn).or (lcnIn more vcn) := by
  induction runs with
  | nil => simp
  | cons run runs ih =>
    rw [cons_append, lcnIn_cons, lcnIn_cons, ih]
    split_ifs <;> simp

theorem Chain.lcnIn_eq_none (hch : Chain first runs last) (hout : vcn < first ∨ last ≤ vcn) :
    lcnIn runs vcn = none := by
  induction runs generalizing first with
  | nil => rfl
  | cons run runs ih =>
    obtain ⟨hvcn, hlen, hrest⟩ := hch
    have hle := hrest.le
    have hnot : ¬ run.Covers vcn := by
      unfold RunlistElement.Covers
      omega
    rw [lcnIn_cons, if_neg hnot]
    exact ih hrest (by omega)

theorem Chain.exists_covers (hch : Chain first runs last) (hlow : first ≤ vcn)
    (hhigh : vcn < last) : ∃ before run after, runs = before ++ run :: after ∧ run.Covers vcn ∧
      lcnIn runs vcn = some (run.lcnAt vcn) := by
  induction runs generalizing first with
  | nil =>
    have heq := (chain_nil first last).mp hch
    omega
  | cons run runs ih =>
    obtain ⟨hvcn, hlen, hrest⟩ := hch
    by_cases hcov : run.Covers vcn
    · exact ⟨[], run, runs, rfl, hcov, by rw [lcnIn_cons, if_pos hcov]⟩
    · have hge : first + run.length ≤ vcn := by
        unfold RunlistElement.Covers at hcov
        omega
      obtain ⟨before, other, after, hspl, hoth, hlcn⟩ := ih hrest hge
      refine ⟨run :: before, other, after, by rw [hspl, cons_append], hoth, ?_⟩
      rw [lcnIn_cons, if_neg hcov, hlcn]

theorem Chain.exists_cons (hch : Chain first runs next.vcn) (rest : List RunlistElement) :
    ∃ head others, runs ++ next :: rest = head :: others ∧ head.vcn = first := by
  cases runs with
  | nil => exact ⟨next, rest, rfl, ((chain_nil _ _).mp hch).symm⟩
  | cons run runs => exact ⟨run, runs ++ next :: rest, rfl, hch.1⟩

theorem Chain.vcnToLcnLoop_append (hch : Chain first runs next.vcn) (rest : List RunlistElement)
    (hlow : first ≤ vcn) :
    vcnToLcnLoop (runs ++ next :: rest) vcn =
      (lcnIn runs vcn).or (vcnToLcnLoop (next :: rest) vcn) := by
  induction runs generalizing first with
  | nil => simp
  | cons run runs ih =>
    obtain ⟨hvcn, hlen, hrest⟩ := hch
    have hne : run.length ≠ 0 := hlen.ne'
    obtain ⟨second, others, hsec, hst⟩ := hrest.exists_cons rest
    rw [cons_append, hsec, lcnIn_cons]
    by_cases hcov : run.Covers vcn
    · have hlt : vcn < second.vcn := by
        unfold RunlistElement.Covers at hcov
        omega
      rw [vcnToLcnLoop_cons_cons hne hlt, if_pos hcov, Option.some_or]
    · have hge : first + run.length ≤ vcn := by
        unfold RunlistElement.Covers at hcov
        omega
      rw [if_neg hcov, ← ih hrest hge, hsec, vcnToLcnLoop, if_neg hne, if_neg (by omega)]

theorem Chain.ntfsRlVcnToLcn_append (hch : Chain 0 runs next.vcn) (hlen : next.length = 0)
    (hlcn : next.lcn < 0) (rest : List RunlistElement) (hvcn : 0 ≤ vcn) :
    ntfsRlVcnToLcn (some (runs ++ next :: rest)) vcn = some ((lcnIn runs vcn).getD next.lcn) := by
  have hloop := hch.vcnToLcnLoop_append rest hvcn
  rw [vcnToLcnLoop_terminator rest hlen hlcn] at hloop
  have hval : (lcnIn runs vcn).or (some next.lcn) = some ((lcnIn runs vcn).getD next.lcn) := by
    cases lcnIn runs vcn <;> rfl
  obtain ⟨head, others, hlist, hhead⟩ := hch.exists_cons rest
  rw [← hval, ← hloop, hlist]
  unfold ntfsRlVcnToLcn
  rw [if_neg (not_lt.mpr hvcn)]
  exact if_neg (by omega)

/-! ### Well-formed runlists -/

/-- A well-formed runlist: at least one run, consecutive runs of positive length from vcn zero on,
and a terminator of length zero that says either that the attribute ends there or that the rest of
its mapping has not been read. All numbers are 64-bit words. -/
structure Runlist where
  runs : List RunlistElement
  last : RunlistElement
  runs_ne_nil : runs ≠ []
  chain : Chain 0 runs last.vcn
  last_length : last.length = 0
  last_lcn : last.lcn = lcnEnoent ∨ last.lcn = lcnRlNotMapped
  last_vcn_isS64 : IsS64 last.vcn
  lcn_isS64 : ∀ run ∈ runs, IsS64 run.lcn

namespace Runlist

variable (rl : Runlist)

def elements : List RunlistElement := rl.runs ++ [rl.last]

def lookup (vcn : ℤ) : Option ℤ := ntfsRlVcnToLcn (some rl.elements) vcn

theorem last_lcn_neg : rl.last.lcn < 0 := by
  rcases rl.last_lcn with h | h <;> rw [h] <;> decide

theorem last_vcn_pos : 0 < rl.last.vcn := rl.chain.lt rl.runs_ne_nil

@[simp] theorem length_elements : rl.elements.length = rl.runs.length + 1 := by
  simp [elements]

theorem ntfsRlVcnToLcn_append (rest : List RunlistElement) {vcn : ℤ} (hvcn : 0 ≤ vcn) :
    ntfsRlVcnToLcn (some (rl.elements ++ rest)) vcn =
      some ((lcnIn rl.runs vcn).getD rl.last.lcn) := by
  rw [elements, append_assoc]
  exact rl.chain.ntfsRlVcnToLcn_append rl.last_length rl.last_lcn_neg rest hvcn

/-- A lookup finds the cluster of the run that contains the vcn, and the marker of the terminator
when none does. -/
theorem lookup_eq {vcn : ℤ} (hvcn : 0 ≤ vcn) :
    rl.lookup vcn = some ((lcnIn rl.runs vcn).getD rl.last.lcn) := by
  simpa only [append_nil, lookup] using rl.ntfsRlVcnToLcn_append [] hvcn

theorem lookup_of_le {vcn : ℤ} (hvcn : rl.last.vcn ≤ vcn) : rl.lookup vcn = some rl.last.lcn := by
  have hpos := rl.last_vcn_pos
  rw [rl.lookup_eq (by omega), rl.chain.lcnIn_eq_none (.inr hvcn), Option.getD_none]

end Runlist

/-- Four clusters in one run, of which the last two have numbers of more than 64 bits. -/
def wideRun : Runlist where
  runs := [⟨0, 2 ^ 63 - 2, 4⟩]
  last := ⟨4, lcnEnoent, 0⟩
  runs_ne_nil := by simp
  chain := by decide
  last_length := rfl
  last_lcn := .inl rfl
  last_vcn_isS64 := by decide
  lcn_isS64 := by decide

/-! ### Runlists in memory -/

/-- `PAGE_SIZE` on x86. Where it matters how pages, blocks and clusters compare, the page size is a
parameter instead. -/
def pageSize : ℕ := 4096

def elementSize : ℕ := 24

/-- `PAGE_ALIGN`: the number of bytes of the whole pages that hold `bytes` bytes. -/
def pageAlign (bytes : ℕ) : ℕ := (bytes + (pageSize - 1)) / pageSize * pageSize

theorem le_pageAlign (bytes : ℕ) : bytes ≤ pageAlign bytes := by
  unfold pageAlign pageSize
  omega

theorem pageAlign_mono {first second : ℕ} (hle : first ≤ second) :
    pageAlign first ≤ pageAlign second := by
  unfold pageAlign pageSize
  omega

/-- An allocated block of `bytes` bytes, as an array of runlist elements. -/
structure RlArray where
  bytes : ℕ
  elem : ℕ → RunlistElement

namespace RlArray

def cap (block : RlArray) : ℕ := block.bytes / elementSize

def toList (block : RlArray) : List RunlistElement := (List.range block.cap).map block.elem

/-- The block begins with the given elements. Blocks are allocated in whole pages. -/
def Holds (block : RlArray) (items : List RunlistElement) : Prop :=
  pageAlign (items.length * elementSize) ≤ block.bytes ∧ Segment block.elem 0 items

/-- A block of the given elements with `pages` pages to spare, all further content being `junk`. -/
def ofList (items : List RunlistElement) (pages : ℕ) (junk : ℕ → RunlistElement) : RlArray :=
  ⟨pageAlign (items.length * elementSize) + pages * pageSize, fun i => items.getD i (junk i)⟩

def lookup (block : RlArray) (vcn : ℤ) : Option ℤ := ntfsRlVcnToLcn (some block.toList) vcn

theorem Holds.length_le_cap {block : RlArray} {items : List RunlistElement}
    (hh : block.Holds items) : items.length ≤ block.cap := by
  have hpgs := (le_pageAlign _).trans hh.1
  exact (Nat.le_div_iff_mul_le (by decide)).mpr hpgs

theorem Holds.exists_toList {block : RlArray} {items : List RunlistElement}
    (hh : block.Holds items) : ∃ rest, block.toList = items ++ rest := by
  have hcap := hh.length_le_cap
  refine ⟨block.toList.drop items.length, ?_⟩
  have htake : block.toList.take items.length = items := by
    refine ext_getElem (by simp [toList, hcap]) fun i hleft hright => ?_
    simpa [toList] using hh.2.getElem hright
  nth_rewrite 1 [← htake]
  exact (take_append_drop _ _).symm

/-- A block that begins with a runlist looks up like the runlist. -/
theorem Holds.lookup_eq {block : RlArray} {rl : Runlist} (hh : block.Holds rl.elements)
    {vcn : ℤ} (hvcn : 0 ≤ vcn) : block.lookup vcn = rl.lookup vcn := by
  obtain ⟨rest, hrest⟩ := hh.exists_toList
  rw [RlArray.lookup, hrest, rl.ntfsRlVcnToLcn_append rest hvcn, rl.lookup_eq hvcn]

/-- The runs of a runlist are those before the first element without clusters. -/
theorem runs_eq_of_append {first first' : ℤ} {runs runs' rest rest' : List RunlistElement}
    {last last' : RunlistElement} (hchain : Chain first runs last.vcn)
    (hchain' : Chain first' runs' last'.vcn) (hlast : last.length = 0) (hlast' : last'.length = 0)
    (happend : runs ++ last :: rest = runs' ++ last' :: rest') : runs = runs' ∧ last = last' := by
  induction runs generalizing first first' runs' with
  | nil =>
    cases runs' with
    | nil => exact ⟨rfl, (cons.inj happend).1⟩
    | cons run' runs' =>
      have hpos := hchain'.2.1
      rw [← (cons.inj happend).1] at hpos
      omega
  | cons run runs ih =>
    cases runs' with
    | nil =>
      have hpos := hchain.2.1
      rw [(cons.inj happend).1] at hpos
      omega
    | cons run' runs' =>
      obtain ⟨hruns, hend⟩ := ih hchain.2.2 hchain'.2.2 (cons.inj happend).2
      exact ⟨by rw [(cons.inj happend).1, hruns], hend⟩

theorem Holds.runs_eq {block : RlArray} {rl rl' : Runlist} (hh : block.Holds rl.elements)
    (hh' : block.Holds rl'.elements) : rl.runs = rl'.runs ∧ rl.last = rl'.last := by
  obtain ⟨rest, hrest⟩ := hh.exists_toList
  obtain ⟨rest', hrest'⟩ := hh'.exists_toList
  have happend : rl.runs ++ rl.last :: rest = rl'.runs ++ rl'.last :: rest' := by
    simpa [Runlist.elements] using hrest.symm.trans hrest'
  exact runs_eq_of_append rl.chain rl'.chain rl.last_length rl'.last_length happend

theorem holds_ofList (items : List RunlistElement) (pages : ℕ) (junk : ℕ → RunlistElement) :
    (ofList items pages junk).Holds items :=
  ⟨Nat.le_add_right _ _, segment_getD items junk⟩

end RlArray

end AdvancedOs.Ntfs.RunlistElements
