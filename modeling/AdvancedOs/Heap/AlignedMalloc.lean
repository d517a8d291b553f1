import AdvancedOs.Foundation.ByteMemory

/-!
# Aligned allocation

`alignedMalloc` takes a block from `malloc` that is larger than what is asked for, and returns an
aligned address in it. The address of the block is stored right before that, where `alignedFree`
finds it again.

A `State` has the blocks that `malloc` has given away and the allocations that are still in use. It
changes by allocations, by writes of the user into what was allocated, and by frees (`Step`). What
`malloc` is asked for is assumed to be answered with a new block (`MallocAnswers`). However a state
is reached, all of its allocations are aligned, lie in their blocks apart from each other, and are
freed by the addresses of their blocks (`sound_of_reachable`). That `malloc` may fail is not looked
at (`reports_iff`).
-/

namespace AdvancedOs.Heap.AlignedMalloc

open Foundation.ByteMemory List BitVec

/-! ### The functions -/

/-- `sizeof(size_t *)`. -/
def pointerSize : BitVec 64 := 8

/-- What `malloc` is asked for. -/
def mallocSize (size alignment : BitVec 64) : BitVec 64 :=
  if pointerSize ≤ alignment then size + alignment + alignment else size + alignment + pointerSize

def nextAligned (ptr1 alignment : BitVec 64) : BitVec 64 :=
  (ptr1 + alignment - 1) &&& ~~~(alignment - 1)

/-- The loop that goes on to an address with room for a pointer before it. -/
def skip (ptr1 alignment : BitVec 64) : ℕ → BitVec 64 → Option (BitVec 64)
  | 0, _ => none
  | fuel + 1, ptr2 =>
    if ptr2 - ptr1 < pointerSize then skip ptr1 alignment fuel (ptr2 + alignment) else some ptr2

/-- The address that is returned. With an alignment of at least one, the loop has no more than eight
rounds. -/
def place (ptr1 alignment : BitVec 64) : Option (BitVec 64) :=
  let ptr2 := nextAligned ptr1 alignment
  if pointerSize ≤ alignment then
    some (if ptr2 - ptr1 < pointerSize then ptr2 + alignment else ptr2)
  else skip ptr1 alignment 9 ptr2

/-- `alignedMalloc`, with a `malloc` that returns an address and may change the memory. -/
def alignedMalloc (malloc : BitVec 64 → BitVec 64 × Memory) (size alignment : BitVec 64) :
    Option (BitVec 64 × Memory) :=
  let (ptr1, mem) := malloc (mallocSize size alignment)
  (place ptr1 alignment).map fun ptr2 =>
    (ptr2, storeLe mem (ptr2 - pointerSize).toNat pointerSize.toNat ptr1.toNat)

/-- The address that `alignedFree` passes to `free`. -/
def alignedFree (mem : Memory) (ptr : BitVec 64) : BitVec 64 :=
  .ofNat 64 (loadLe mem (ptr - pointerSize).toNat pointerSize.toNat)

/-! ### Allocations in use -/

/-- An allocation: the address that `malloc` has returned, the address that the caller has got, and
what was asked for. -/
structure Allocation where
  base : BitVec 64
  ptr : BitVec 64
  size : BitVec 64
  alignment : BitVec 64

namespace Allocation

/-- The block that `malloc` has given away. -/
def block (a : Allocation) : Range := ⟨a.base.toNat, (mallocSize a.size a.alignment).toNat⟩

/-- What the caller may use. -/
def region (a : Allocation) : Range := ⟨a.ptr.toNat, a.size.toNat⟩

/-- Where the address of the block is stored. -/
def header (a : Allocation) : Range := ⟨a.ptr.toNat - pointerSize.toNat, pointerSize.toNat⟩

end Allocation

/-- The memory, the blocks that `malloc` has given away and were not freed, and the allocations in
use. -/
structure State where
  mem : Memory
  blocks : List Range
  live : List Allocation

def State.blocksWithout (state : State) (address : BitVec 64) : List Range :=
  state.blocks.filter fun b => b.start ≠ address.toNat

/-- The alignment is a power of two, and what `malloc` is asked for does not overflow. -/
structure ValidRequest (size alignment : BitVec 64) : Prop where
  power : ∃ k, alignment.toNat = 2 ^ k
  fits : size.toNat + alignment.toNat + max alignment.toNat pointerSize.toNat < 2 ^ 64

/-- What is assumed of `malloc`: it returns an aligned address of a block that is apart from those
that it has given away, and leaves these as they are. -/
structure MallocAnswers (state : State) (total : BitVec 64) (answer : BitVec 64 × Memory) :
    Prop where
  nonnull : answer.1 ≠ 0
  aligned : 8 ∣ answer.1.toNat
  bounded : answer.1.toNat + total.toNat ≤ 2 ^ 64
  disjoint : ∀ b ∈ state.blocks, Range.Disjoint ⟨answer.1.toNat, total.toNat⟩ b
  agree : ∀ b ∈ state.blocks, AgreeOn b state.mem answer.2

/-- An allocation, a write of the user into what was allocated, or a free of an allocation in use.
`free` takes back the block at the address that it gets, and may change the memory outside of the
others. -/
inductive Step : State → State → Prop
  | alloc {state : State} {a : Allocation} {mem : Memory}
      {malloc : BitVec 64 → BitVec 64 × Memory} :
      ValidRequest a.size a.alignment →
      MallocAnswers state (mallocSize a.size a.alignment) (malloc (mallocSize a.size a.alignment)) →
      (malloc (mallocSize a.size a.alignment)).1 = a.base →
      alignedMalloc malloc a.size a.alignment = some (a.ptr, mem) →
      Step state ⟨mem, a.block :: state.blocks, a :: state.live⟩
  | write {state : State} {a : Allocation} {address : ℕ} (byte : UInt8) :
      a ∈ state.live → a.region.Contains address →
      Step state { state with mem := Function.update state.mem address byte }
  | free {state : State} {front rest : List Allocation} {a : Allocation} {mem : Memory} :
      state.live = front ++ a :: rest →
      (∀ b ∈ state.blocksWithout (alignedFree state.mem a.ptr), AgreeOn b state.mem mem) →
      Step state ⟨mem, state.blocksWithout (alignedFree state.mem a.ptr), front ++ rest⟩

def Reachable (state : State) : Prop := ∃ mem, Relation.ReflTransGen Step ⟨mem, [], []⟩ state

structure Sound (state : State) : Prop where
  aligned : ∀ a ∈ state.live, a.alignment.toNat ∣ a.ptr.toNat
  region_inside : ∀ a ∈ state.live, a.region.Inside a.block
  header_inside : ∀ a ∈ state.live, a.header.Inside a.block
  disjoint : (state.live.flatMap fun a => [a.header, a.region]).Pairwise Range.Disjoint
  frees : ∀ a ∈ state.live, alignedFree state.mem a.ptr = a.base
  returns : ∀ size alignment malloc, ValidRequest size alignment →
    MallocAnswers state (mallocSize size alignment) (malloc (mallocSize size alignment)) →
    (alignedMalloc malloc size alignment).isSome

/-! ### The address that is returned -/

section

theorem and_not_eq_sub (x mask : BitVec 64) : x &&& ~~~mask = x - (x &&& mask) := by
  have hspl : (x &&& mask) + (x &&& ~~~mask) = x := by
    rw [BitVec.add_eq_or_of_and_eq_zero]
    · ext i
      simp only [BitVec.getElem_or, BitVec.getElem_and, BitVec.getElem_not]
      grind
    · ext i
      simp only [BitVec.getElem_and, BitVec.getElem_not, BitVec.getElem_zero]
      grind
  generalize x &&& ~~~mask = high at hspl ⊢
  generalize x &&& mask = low at hspl ⊢
  bv_omega

variable {ptr1 size alignment : BitVec 64}

theorem toNat_nextAligned {k : ℕ} (hpower : alignment.toNat = 2 ^ k)
    (hfits : ptr1.toNat + alignment.toNat ≤ 2 ^ 64) :
    (nextAligned ptr1 alignment).toNat =
      ptr1.toNat + alignment.toNat - 1 - (ptr1.toNat + alignment.toNat - 1) % alignment.toNat := by
  have hpos : 0 < alignment.toNat := by rw [hpower]; positivity
  have hmask : (alignment - 1).toNat = 2 ^ k - 1 := by bv_omega
  have hsum : (ptr1 + alignment - 1).toNat = ptr1.toNat + alignment.toNat - 1 := by
    bv_omega
  have hlow : ((ptr1 + alignment - 1) &&& (alignment - 1)).toNat =
      (ptr1.toNat + alignment.toNat - 1) % alignment.toNat := by
    rw [toNat_and, hmask, hsum, Nat.and_two_pow_sub_one_eq_mod, hpower]
  rw [nextAligned, and_not_eq_sub, toNat_sub_of_le, hsum, hlow]
  rw [le_def, toNat_and]
  exact Nat.and_le_left

/-- What is known of an aligned address in a block of some size: a pointer fits before it, and what
was asked for behind it. -/
structure Placed (base size alignment : BitVec 64) (ptr : BitVec 64) : Prop where
  aligned : alignment.toNat ∣ ptr.toNat
  room : base.toNat + 8 ≤ ptr.toNat
  fits : ptr.toNat + size.toNat ≤ base.toNat + (mallocSize size alignment).toNat

theorem toNat_mallocSize (hvalid : ValidRequest size alignment) :
    (mallocSize size alignment).toNat = size.toNat + alignment.toNat +
      max alignment.toNat pointerSize.toNat := by
  have hfits := hvalid.fits
  unfold mallocSize
  split_ifs with hle
  · rw [le_def] at hle
    rw [Nat.max_eq_left hle] at hfits ⊢
    bv_omega
  · rw [le_def, not_le] at hle
    rw [Nat.max_eq_right hle.le] at hfits ⊢
    bv_omega

theorem skip_eq (hpos : 0 < alignment.toNat) {n : ℕ} {ptr2 : BitVec 64}
    (hptr1 : ptr1.toNat ≤ ptr2.toNat) (hptr2 : ptr2.toNat + n * alignment.toNat = ptr1.toNat + 8)
    (hboun : ptr1.toNat + 8 < 2 ^ 64) {fuel : ℕ} (hfuel : n < fuel) :
    skip ptr1 alignment fuel ptr2 = some (ptr1 + 8) := by
  obtain ⟨fuel, rfl⟩ := Nat.exists_eq_add_one_of_ne_zero (Nat.ne_zero_of_lt hfuel)
  have hdist : (ptr2 - ptr1).toNat = ptr2.toNat - ptr1.toNat :=
    toNat_sub_of_le (le_def.mpr hptr1)
  have hpoin : pointerSize.toNat = 8 := rfl
  induction n generalizing ptr2 fuel with
  | zero =>
    rw [skip, if_neg (by rw [lt_def]; omega)]
    congr 1
    bv_omega
  | succ n ih =>
    rw [Nat.succ_mul] at hptr2
    have hnext : (ptr2 + alignment).toNat = ptr2.toNat + alignment.toNat := by
      bv_omega
    obtain ⟨fuel, rfl⟩ :=
      Nat.exists_eq_add_one_of_ne_zero (Nat.ne_zero_of_lt (Nat.lt_of_succ_lt_succ hfuel))
    rw [skip, if_pos (by rw [lt_def]; omega)]
    exact ih (by omega) (by omega) fuel (by omega) (toNat_sub_of_le (le_def.mpr (by omega)))

theorem exists_place {state : State} {answer : BitVec 64 × Memory}
    (hvalid : ValidRequest size alignment)
    (hans : MallocAnswers state (mallocSize size alignment) answer) :
    ∃ ptr, place answer.1 alignment = some ptr ∧ Placed answer.1 size alignment ptr := by
  obtain ⟨k, hpower⟩ := hvalid.power
  have htotal := toNat_mallocSize hvalid
  have hboun := hans.bounded
  have halig := hans.aligned
  have hpos : 0 < alignment.toNat := by rw [hpower]; positivity
  have hpoin : pointerSize.toNat = 8 := rfl
  have hnext := @toNat_nextAligned answer.1 alignment k hpower (by omega)
  have hdvd : alignment.toNat ∣ (nextAligned answer.1 alignment).toNat := by
    rw [hnext]
    exact Nat.dvd_sub_mod _
  have hlow : (answer.1.toNat + alignment.toNat - 1) % alignment.toNat < alignment.toNat :=
    Nat.mod_lt _ hpos
  have hdist : (nextAligned answer.1 alignment - answer.1).toNat =
      (nextAligned answer.1 alignment).toNat - answer.1.toNat :=
    toNat_sub_of_le (le_def.mpr (by omega))
  unfold place
  by_cases hlarge : pointerSize ≤ alignment
  · rw [if_pos hlarge]
    rw [le_def] at hlarge
    rw [Nat.max_eq_left hlarge] at htotal
    have height : 2 ^ 3 ∣ alignment.toNat := by
      rw [hpower] at hlarge ⊢
      exact (@Nat.pow_dvd_pow_iff_pow_le_pow 3 k 2 (by decide)).mpr hlarge
    by_cases hclose : nextAligned answer.1 alignment - answer.1 < pointerSize
    · -- The address is the block itself, since that is aligned to a pointer.
      rw [lt_def] at hclose
      have hbase : (nextAligned answer.1 alignment).toNat = answer.1.toNat := by
        have := Nat.dvd_sub (height.trans hdvd) halig
        omega
      have hsum : (nextAligned answer.1 alignment + alignment).toNat =
          answer.1.toNat + alignment.toNat := by
        bv_omega
      refine ⟨_, by rw [if_pos (lt_def.mpr hclose)], ?_, by omega, by omega⟩
      rw [hsum, ← hbase]
      exact Nat.dvd_add hdvd (Nat.dvd_refl _)
    · refine ⟨_, by rw [if_neg hclose], hdvd, ?_, by omega⟩
      rw [lt_def, not_lt] at hclose
      omega
  · rw [if_neg hlarge]
    rw [le_def, not_le] at hlarge
    have height : alignment.toNat ∣ 8 := by
      rw [hpower] at hlarge ⊢
      exact (@Nat.pow_dvd_pow_iff_pow_le_pow k 3 2 (by decide)).mpr hlarge.le
    have hbase : (nextAligned answer.1 alignment).toNat = answer.1.toNat := by
      obtain ⟨m, hm⟩ := height.trans halig
      have hmod : (answer.1.toNat + alignment.toNat - 1) % alignment.toNat =
          alignment.toNat - 1 := by
        rw [hm, Nat.add_sub_assoc hpos, Nat.mul_add_mod, Nat.mod_eq_of_lt (by omega)]
      omega
    obtain ⟨n, hn⟩ := height
    have hsum : (answer.1 + 8).toNat = answer.1.toNat + 8 := by
      bv_omega
    have hroun : n ≤ 8 := by
      rw [hn]
      exact Nat.le_mul_of_pos_left n hpos
    refine ⟨answer.1 + 8, skip_eq hpos (n := n) (by omega) ?_ (by omega) (by omega),
      ?_, by omega, by omega⟩
    · rw [hbase, Nat.mul_comm, ← hn]
    · rw [hsum]
      exact Nat.dvd_add (hbase ▸ hdvd) ⟨n, hn⟩

end

/-! ### What every step keeps -/

section

/-- What holds in every state: the blocks are those of the allocations in use and are apart from
each other, each allocation is placed in its block, and its address is stored. -/
structure Invariant (state : State) : Prop where
  blocks_eq : state.blocks = state.live.map Allocation.block
  disjoint : state.live.Pairwise fun a b => a.block.Disjoint b.block
  placed : ∀ a ∈ state.live, Placed a.base a.size a.alignment a.ptr
  frees : ∀ a ∈ state.live, alignedFree state.mem a.ptr = a.base

variable {state : State} {a : Allocation}

theorem Placed.toNat_sub (hplaced : Placed a.base a.size a.alignment a.ptr) :
    (a.ptr - pointerSize).toNat = a.ptr.toNat - pointerSize.toNat := by
  have hroom := hplaced.room
  have hpoin : pointerSize.toNat = 8 := rfl
  exact toNat_sub_of_le (le_def.mpr (by omega))

theorem Placed.header_inside (hplaced : Placed a.base a.size a.alignment a.ptr) :
    a.header.Inside a.block := by
  have hroom := hplaced.room
  have hfits := hplaced.fits
  have hpoin : pointerSize.toNat = 8 := rfl
  unfold Range.Inside Allocation.header Allocation.block
  dsimp only
  omega

theorem Placed.region_inside (hplaced : Placed a.base a.size a.alignment a.ptr) :
    a.region.Inside a.block := by
  have hroom := hplaced.room
  have hfits := hplaced.fits
  unfold Range.Inside Allocation.region Allocation.block
  dsimp only
  omega

theorem Placed.header_disjoint (hplaced : Placed a.base a.size a.alignment a.ptr) :
    a.header.Disjoint a.region := by
  have hroom := hplaced.room
  have hpoin : pointerSize.toNat = 8 := rfl
  refine .inl ?_
  unfold Allocation.header Allocation.region
  dsimp only
  omega

theorem Placed.alignedFree_congr (hplaced : Placed a.base a.size a.alignment a.ptr)
    {mem mem' : Memory} (hagree : AgreeOn a.header mem mem') :
    alignedFree mem' a.ptr = alignedFree mem a.ptr := by
  unfold alignedFree
  rw [hplaced.toNat_sub, loadLe_congr hagree]

theorem alignedFree_storeLe (a : Allocation) (mem : Memory) :
    alignedFree (storeLe mem (a.ptr - pointerSize).toNat pointerSize.toNat a.base.toNat) a.ptr =
      a.base := by
  unfold alignedFree
  have hsize : 256 ^ pointerSize.toNat = 2 ^ 64 := by decide
  rw [loadLe_storeLe, hsize, Nat.mod_eq_of_lt a.base.isLt, ofNat_toNat, setWidth_eq]

theorem Invariant.frees_of_agree (hinv : Invariant state) {mem : Memory} {b : Allocation}
    (hb : b ∈ state.live) (hagree : AgreeOn b.block state.mem mem) :
    alignedFree mem b.ptr = b.base := by
  have hplaced := hinv.placed b hb
  rw [hplaced.alignedFree_congr (hagree.mono hplaced.header_inside), hinv.frees b hb]

theorem Invariant.alloc (hinv : Invariant state) {mem : Memory}
    {malloc : BitVec 64 → BitVec 64 × Memory} (hvalid : ValidRequest a.size a.alignment)
    (hans : MallocAnswers state (mallocSize a.size a.alignment)
      (malloc (mallocSize a.size a.alignment)))
    (hbase : (malloc (mallocSize a.size a.alignment)).1 = a.base)
    (halloc : alignedMalloc malloc a.size a.alignment = some (a.ptr, mem)) :
    Invariant ⟨mem, a.block :: state.blocks, a :: state.live⟩ := by
  obtain ⟨ptr, hpl, hplaced⟩ := exists_place hvalid hans
  unfold alignedMalloc at halloc
  dsimp only at halloc
  rw [hpl, Option.map_some, Option.some.injEq, Prod.mk.injEq] at halloc
  obtain ⟨rfl, rfl⟩ := halloc
  rw [hbase] at hplaced
  have hdisj : ∀ b ∈ state.live, a.block.Disjoint b.block := by
    intro b hb
    have hblk := hans.disjoint b.block (by
      rw [hinv.blocks_eq]
      exact mem_map_of_mem hb)
    rw [hbase] at hblk
    exact hblk
  refine ⟨by rw [hinv.blocks_eq, map_cons], pairwise_cons.mpr ⟨hdisj, hinv.disjoint⟩,
    forall_mem_cons.mpr ⟨hplaced, hinv.placed⟩, forall_mem_cons.mpr ⟨?_, fun b hb => ?_⟩⟩
  · rw [hbase]
    exact alignedFree_storeLe a _
  · refine hinv.frees_of_agree hb (AgreeOn.trans (hans.agree b.block ?_) (agreeOn_storeLe ?_ _ _))
    · rw [hinv.blocks_eq]
      exact mem_map_of_mem hb
    · rw [hplaced.toNat_sub]
      exact (hdisj b hb).symm.mono ⟨le_refl _, le_refl _⟩ hplaced.header_inside

theorem Invariant.write (hinv : Invariant state) {address : ℕ} (byte : UInt8)
    (ha : a ∈ state.live) (haddr : a.region.Contains address) :
    Invariant { state with mem := Function.update state.mem address byte } := by
  refine ⟨hinv.blocks_eq, hinv.disjoint, hinv.placed, fun b hb => ?_⟩
  have hplaced := hinv.placed a ha
  have hother := hinv.placed b hb
  have hap : a.region.Disjoint b.header := by
    by_cases hab : a = b
    · exact hab ▸ hplaced.header_disjoint.symm
    · have : Std.Symm fun a b : Allocation => a.block.Disjoint b.block := ⟨fun _ _ h => h.symm⟩
      exact (hinv.disjoint.forall ha hb hab).mono hplaced.region_inside hother.header_inside
  rw [hother.alignedFree_congr (agreeOn_update (hap.not_contains haddr) _ _), hinv.frees b hb]

theorem Invariant.free (hinv : Invariant state) {front rest : List Allocation} {mem : Memory}
    (hlive : state.live = front ++ a :: rest)
    (hagree : ∀ b ∈ state.blocksWithout (alignedFree state.mem a.ptr), AgreeOn b state.mem mem) :
    Invariant ⟨mem, state.blocksWithout (alignedFree state.mem a.ptr), front ++ rest⟩ := by
  have hmem : ∀ b ∈ front ++ rest, b ∈ state.live := by
    intro b hb
    rw [hlive]
    rcases mem_append.mp hb with hb | hb
    · exact mem_append_left _ hb
    · exact mem_append_right _ (mem_cons_of_mem _ hb)
  have hdisj := hinv.disjoint
  rw [hlive, pairwise_append, pairwise_cons] at hdisj
  have hap : ∀ b ∈ front ++ rest, a.block.Disjoint b.block := by
    intro b hb
    rcases mem_append.mp hb with hb | hb
    · exact (hdisj.2.2 b hb a mem_cons_self).symm
    · exact hdisj.2.1.1 b hb
  have hplaced := hinv.placed a (by rw [hlive]; exact mem_append_right _ mem_cons_self)
  have hst : ∀ b ∈ front ++ rest, b.block.start ≠ a.base.toNat := by
    intro b hb
    have hab := hap b hb
    have hroom := hplaced.room
    have hfits := hplaced.fits
    have hother := hinv.placed b (hmem b hb)
    have hroomB := hother.room
    have hfitsB := hother.fits
    unfold Range.Disjoint Allocation.block at hab
    unfold Allocation.block
    dsimp only at hab ⊢
    omega
  have hblks : state.blocksWithout (alignedFree state.mem a.ptr) =
      (front ++ rest).map Allocation.block := by
    have hkeep : (front ++ rest).map Allocation.block =
        ((front ++ rest).map Allocation.block).filter fun b => b.start ≠ a.base.toNat := by
      refine (filter_eq_self.mpr fun r hr => ?_).symm
      obtain ⟨b, hb, rfl⟩ := mem_map.mp hr
      exact decide_eq_true (hst b hb)
    rw [State.blocksWithout, hinv.frees a (by rw [hlive]; simp), hinv.blocks_eq, hlive, hkeep]
    rw [map_append, map_cons, filter_append, map_append, filter_append,
      filter_cons_of_neg (by simp [Allocation.block])]
  refine ⟨hblks, ?_, fun b hb => hinv.placed b (hmem b hb), fun b hb => ?_⟩
  · exact pairwise_append.mpr ⟨hdisj.1, hdisj.2.1.2, fun b hb c hc =>
      hdisj.2.2 b hb c (mem_cons_of_mem _ hc)⟩
  · refine hinv.frees_of_agree (hmem b hb) (hagree b.block ?_)
    rw [hblks]
    exact mem_map_of_mem hb

theorem Invariant.step (hinv : Invariant state) {next : State} (hstep : Step state next) :
    Invariant next := by
  cases hstep with
  | alloc hvalid hans hbase halloc => exact hinv.alloc hvalid hans hbase halloc
  | write byte ha haddr => exact hinv.write byte ha haddr
  | free hlive hagree => exact hinv.free hlive hagree

theorem Invariant.sound (hinv : Invariant state) : Sound state where
  aligned a ha := (hinv.placed a ha).aligned
  region_inside a ha := (hinv.placed a ha).region_inside
  header_inside a ha := (hinv.placed a ha).header_inside
  disjoint := by
    refine pairwise_flatMap.mpr ⟨fun a ha =>
      pairwise_pair.mpr (hinv.placed a ha).header_disjoint, ?_⟩
    refine hinv.disjoint.imp_of_mem fun {a b} ha hb hdisj r hr s hs => ?_
    have hin : ∀ {c : Allocation}, c ∈ state.live → ∀ {t : Range}, t ∈ [c.header, c.region] →
        t.Inside c.block := by
      intro c hc t ht
      rcases mem_pair.mp ht with rfl | rfl
      · exact (hinv.placed c hc).header_inside
      · exact (hinv.placed c hc).region_inside
    exact hdisj.mono (hin ha hr) (hin hb hs)
  frees := hinv.frees
  returns size alignment malloc hvalid hans := by
    obtain ⟨ptr, hpl, -⟩ := exists_place hvalid hans
    rw [alignedMalloc]
    dsimp only
    rw [hpl]
    rfl

end

/-- Assumes: a state that is reached by any allocations, writes and frees. It keeps what is
promised. -/
theorem sound_of_reachable {state : State} (hreachable : Reachable state) : Sound state := by
  obtain ⟨mem, hsteps⟩ := hreachable
  refine Invariant.sound ?_
  induction hsteps with
  | refl => exact ⟨rfl, List.Pairwise.nil, nofun, nofun⟩
  | tail _ hstep ih => exact ih.step hstep

/-- 24 bytes at a multiple of 16, in the block at 4096. -/
def exampleFirst : Allocation := ⟨4096, 4112, 24, 16⟩

/-- Three bytes at a multiple of 2, in the block at 8192. -/
def exampleSecond : Allocation := ⟨8192, 8200, 3, 2⟩

def exampleState : State where
  mem := Function.update (storeLe (storeLe (fun _ => 0) 4104 8 4096) 8192 8 8192) 4112 1
  blocks := [exampleSecond.block, exampleFirst.block]
  live := [exampleSecond, exampleFirst]

theorem sound_exampleState : Reachable exampleState ∧ Sound exampleState := by
  have hreachable : Reachable exampleState := by
    refine ⟨fun _ => 0, ?_⟩
    have hfirst : Step ⟨fun _ => 0, [], []⟩
        ⟨storeLe (fun _ => 0) 4104 8 4096, [exampleFirst.block], [exampleFirst]⟩ :=
      @Step.alloc ⟨fun _ => 0, [], []⟩ exampleFirst _ (fun _ => (4096, fun _ => 0))
        ⟨⟨4, rfl⟩, by decide⟩ ⟨by decide, by decide, by decide, nofun, nofun⟩ rfl rfl
    have hsecond : Step
        ⟨storeLe (fun _ => 0) 4104 8 4096, [exampleFirst.block], [exampleFirst]⟩
        ⟨storeLe (storeLe (fun _ => 0) 4104 8 4096) 8192 8 8192,
          [exampleSecond.block, exampleFirst.block], [exampleSecond, exampleFirst]⟩ := by
      refine @Step.alloc _ exampleSecond _
        (fun _ => (8192, storeLe (fun _ => 0) 4104 8 4096)) ⟨⟨1, rfl⟩, by decide⟩
        ⟨by decide, by decide, by decide, fun b hb => ?_, fun b hb => ?_⟩ rfl rfl
      · obtain rfl := List.mem_singleton.mp hb
        exact .inr (by decide)
      · exact fun _ _ => rfl
    have hthird := @Step.write
      ⟨storeLe (storeLe (fun _ => 0) 4104 8 4096) 8192 8 8192,
        [exampleSecond.block, exampleFirst.block], [exampleSecond, exampleFirst]⟩
      exampleFirst 4112 1 (List.mem_cons_of_mem _ List.mem_cons_self) ⟨by decide, by decide⟩
    exact ((Relation.ReflTransGen.single hfirst).tail hsecond).tail hthird
  exact ⟨hreachable, sound_of_reachable hreachable⟩

/-! ### Requests that cannot be met -/

section

variable {ptr1 size alignment : BitVec 64}

/-- There is no block, or what `malloc` is asked for does not fit a `size_t`. -/
def CannotServe (ptr1 size alignment : BitVec 64) : Prop :=
  ptr1 = 0 ∨ 2 ^ 64 ≤ size.toNat + alignment.toNat + max alignment.toNat pointerSize.toNat

/-- What is expected of an allocation for which `malloc` returns `ptr1`, whatever is in the memory:
`NULL` and no store if it cannot be served, and otherwise an address in the block with room behind
it. -/
def Reports (ptr1 size alignment : BitVec 64) : Prop :=
  (CannotServe ptr1 size alignment →
    ∀ mem, alignedMalloc (fun _ => (ptr1, mem)) size alignment = some (0, mem)) ∧
  (¬ CannotServe ptr1 size alignment → ∀ mem, ∃ ptr mem',
    alignedMalloc (fun _ => (ptr1, mem)) size alignment = some (ptr, mem') ∧
      Range.Inside ⟨ptr.toNat, size.toNat⟩ ⟨ptr1.toNat, (mallocSize size alignment).toNat⟩)

/-- The address of the block is stored in any case. -/
theorem not_reports (hfail : CannotServe ptr1 size alignment) : ¬ Reports ptr1 size alignment := by
  intro hrepo
  have hother := alignedFree_storeLe ⟨ptr1 + 1, 0, size, alignment⟩ fun _ => 0
  have hnull := hrepo.1 hfail (storeLe (fun _ => 0) ((0 : BitVec 64) - pointerSize).toNat
    pointerSize.toNat (ptr1 + 1).toNat)
  obtain ⟨ptr2, -, hptr2⟩ := Option.map_eq_some_iff.mp hnull
  obtain ⟨rfl, hmem⟩ := Prod.mk.inj hptr2
  have hsame := alignedFree_storeLe ⟨ptr1, 0, size, alignment⟩ (storeLe (fun _ => 0)
    ((0 : BitVec 64) - pointerSize).toNat pointerSize.toNat (ptr1 + 1).toNat)
  dsimp only at hother hsame
  rw [hmem, hother] at hsame
  bv_omega

/-- Assumes: an alignment that is a power of two, and a `malloc` that returns `NULL` or an aligned
block. A failure is reported exactly if there is none. -/
theorem reports_iff (hpower : ∃ k, alignment.toNat = 2 ^ k) (haligned : 8 ∣ ptr1.toNat)
    (hbounded : ptr1 ≠ 0 → ptr1.toNat + (mallocSize size alignment).toNat ≤ 2 ^ 64) :
    Reports ptr1 size alignment ↔ ¬ CannotServe ptr1 size alignment := by
  refine ⟨fun hreports hfail => not_reports hfail hreports,
    fun hserves => ⟨fun hfail => absurd hfail hserves, fun _ mem => ?_⟩⟩
  obtain ⟨hnonnull, hfits⟩ := not_or.mp hserves
  obtain ⟨ptr, hplace, hplaced⟩ : ∃ ptr, place ptr1 alignment = some ptr ∧
      Placed ptr1 size alignment ptr :=
    @exists_place size alignment ⟨mem, [], []⟩ (ptr1, mem) ⟨hpower, not_le.mp hfits⟩
      ⟨hnonnull, haligned, hbounded hnonnull, nofun, nofun⟩
  refine ⟨ptr, _, by dsimp only [alignedMalloc]; rw [hplace]; rfl, ?_⟩
  exact Placed.region_inside (a := ⟨ptr1, ptr, size, alignment⟩) hplaced

theorem reports_iff_page : Reports 4096 24 8 :=
  (reports_iff ⟨3, rfl⟩ (by decide) (by decide)).mpr (by unfold CannotServe; decide)

/-- Without a block, an address is returned and zero is stored in front of it. -/
theorem not_reports_null : ¬ Reports 0 24 8 := not_reports (.inl rfl)

end

end AdvancedOs.Heap.AlignedMalloc
