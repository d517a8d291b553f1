import Mathlib

/-!
# Segments of a mutable array

An array in memory is a function from indices to cells. `Segment cells offset items` says that the
cells from `offset` on spell the list `items`; what lies before and after is not described. The two
block moves of C are functions on such arrays: `memmove` copies a block within one array, also onto
an overlapping place, and `memcpy` copies a block from another array.

Every fact about a block move is pointwise, so one rule carries them all: `Segment.transfer` moves a
segment to any array and offset at which its cells reappear. Appending lists splits segments
(`segment_append`), and single cell updates leave the segments they lie outside of alone
(`Segment.update_of_lt`, `Segment.update_of_le`). `segment_splice` is what inserting a block into a
list in place comes to: the tail moves away, and the block is copied into the gap.
-/

namespace AdvancedOs.Foundation.ArraySegments

open Function List

variable {α : Type*}
variable {cells other : ℕ → α} {offset i dst src size : ℕ} {item value : α} {items : List α}

/-- The cells from `offset` on spell the list. -/
def Segment (cells : ℕ → α) (offset : ℕ) : List α → Prop
  | [] => True
  | item :: rest => cells offset = item ∧ Segment cells (offset + 1) rest

/-- `memmove(cells + dst, cells + src, size)`: the block from `src` appears at `dst`. -/
def memmove (cells : ℕ → α) (dst src size : ℕ) : ℕ → α :=
  fun i => if dst ≤ i ∧ i < dst + size then cells (i - dst + src) else cells i

/-- `memcpy(cells + dst, other + src, size)`: the block of `other` from `src` appears at `dst`. -/
def memcpy (cells : ℕ → α) (dst : ℕ) (other : ℕ → α) (src size : ℕ) : ℕ → α :=
  fun i => if dst ≤ i ∧ i < dst + size then other (i - dst + src) else cells i

@[simp] theorem segment_nil (cells : ℕ → α) (offset : ℕ) : Segment cells offset [] := trivial

@[simp] theorem segment_cons (cells : ℕ → α) (offset : ℕ) (item : α) (rest : List α) :
    Segment cells offset (item :: rest) ↔ cells offset = item ∧ Segment cells (offset + 1) rest :=
      Iff.rfl

/-- A segment that spells a concatenation is two adjacent segments. -/
theorem segment_append (cells : ℕ → α) (offset : ℕ) (first second : List α) :
    Segment cells offset (first ++ second) ↔
      Segment cells offset first ∧ Segment cells (offset + first.length) second := by
  induction first generalizing offset with
  | nil => simp
  | cons item rest ih =>
    rw [cons_append, segment_cons, segment_cons, ih, length_cons, and_assoc, Nat.add_right_comm,
      Nat.add_assoc]

/-- Assumes: a segment, and an array whose cells from `target` on repeat the cells of the segment.
The list is spelled there too. -/
theorem Segment.transfer {target : ℕ} (hseg : Segment cells offset items)
    (hcl : ∀ i < items.length, other (target + i) = cells (offset + i)) :
    Segment other target items := by
  induction items generalizing offset target with
  | nil => exact trivial
  | cons item rest ih =>
    obtain ⟨hitem, hrest⟩ := hseg
    refine ⟨?_, ih hrest fun i hi => ?_⟩
    · rw [← hitem]
      exact hcl 0 (by simp)
    · have hnext := hcl (i + 1) (by simpa using hi)
      rwa [show target + (i + 1) = target + 1 + i by omega,
        show offset + (i + 1) = offset + 1 + i by omega] at hnext

theorem Segment.getElem (hseg : Segment cells offset items) (hi : i < items.length) :
    cells (offset + i) = items[i] := by
  induction items generalizing offset i with
  | nil => simp at hi
  | cons item rest ih =>
    cases i with
    | zero => exact hseg.1
    | succ i =>
      have hnext := ih hseg.2 (i := i) (by simpa using hi)
      rw [show offset + (i + 1) = offset + 1 + i by omega, hnext]
      rfl

/-- Cells that all hold one item spell its repetition. -/
theorem segment_replicate {count : ℕ} (hcl : ∀ i < count, cells (offset + i) = item) :
    Segment cells offset (List.replicate count item) := by
  induction count generalizing offset with
  | zero => exact trivial
  | succ count ih =>
    refine ⟨hcl 0 (by omega), ih fun i hi => ?_⟩
    rw [← hcl (i + 1) (by omega)]
    congr 1
    omega

theorem segment_getD (items : List α) (junk : ℕ → α) :
    Segment (fun i => items.getD i (junk i)) 0 items := by
  suffices h : ∀ before rest : List α,
      Segment (fun i => (before ++ rest).getD i (junk i)) before.length rest from h [] items
  intro before rest
  induction rest generalizing before with
  | nil => trivial
  | cons item rest ih =>
    refine ⟨by simp, ?_⟩
    have hnext := ih (before ++ [item])
    simpa only [← append_cons, length_append, length_cons, length_nil] using hnext

/-- Assumes: a segment that begins after the updated cell. The update leaves it alone. -/
theorem Segment.update_of_lt (hseg : Segment cells offset items) (hi : i < offset) :
    Segment (update cells i value) offset items :=
  hseg.transfer fun j _ => update_of_ne (by omega) _ _

/-- Assumes: a segment that ends at or before the updated cell. The update leaves it alone. -/
theorem Segment.update_of_le (hseg : Segment cells offset items)
    (hi : offset + items.length ≤ i) : Segment (update cells i value) offset items :=
  hseg.transfer fun j _ => update_of_ne (by omega) _ _

theorem Segment.update_at {before after : List α}
    (hseg : Segment cells offset (before ++ item :: after)) (value : α) :
    Segment (update cells (offset + before.length) value) offset
      (before ++ value :: after) := by
  rw [segment_append, segment_cons] at hseg ⊢
  obtain ⟨hbef, -, haft⟩ := hseg
  exact ⟨hbef.update_of_le (Nat.le_refl _), update_self .., haft.update_of_lt (by omega)⟩

theorem Segment.concat (hseg : Segment cells offset items) (value : α) :
    Segment (update cells (offset + items.length) value) offset (items ++ [value]) :=
  (segment_append ..).mpr ⟨hseg.update_of_le (Nat.le_refl _), update_self .., trivial⟩

/-- Assumes: a segment that the moved block covers. The list is spelled where the block goes. -/
theorem Segment.memmove_inside (hseg : Segment cells offset items) (hlow : src ≤ offset)
    (hhigh : offset + items.length ≤ src + size) :
    Segment (memmove cells dst src size) (offset - src + dst) items := by
  refine hseg.transfer fun i hi => ?_
  rw [memmove, if_pos (by omega)]
  congr 1
  omega

/-- Assumes: a segment that lies before or after the place the block moves to. It stays. -/
theorem Segment.memmove_outside (hseg : Segment cells offset items)
    (hout : offset + items.length ≤ dst ∨ dst + size ≤ offset) :
    Segment (memmove cells dst src size) offset items :=
  hseg.transfer fun i hi => by rw [memmove, if_neg (by omega)]

/-- Assumes: a segment of the source that the copied block covers. The list is spelled where the
block goes. -/
theorem Segment.memcpy_inside (hseg : Segment other offset items) (hlow : src ≤ offset)
    (hhigh : offset + items.length ≤ src + size) :
    Segment (memcpy cells dst other src size) (offset - src + dst) items := by
  refine hseg.transfer fun i hi => ?_
  rw [memcpy, if_pos (by omega)]
  congr 1
  omega

/-- Assumes: a segment that lies before or after the place the block is copied to. It stays. -/
theorem Segment.memcpy_outside (hseg : Segment cells offset items)
    (hout : offset + items.length ≤ dst ∨ dst + size ≤ offset) :
    Segment (memcpy cells dst other src size) offset items :=
  hseg.transfer fun i hi => by rw [memcpy, if_neg (by omega)]

/-- Assumes: a list at the front of an array, a second one further on, and a block of another array
that spells a third. Moving the second list away and copying the block in between leaves the front
followed, from `pos` on, by the block and the second list. -/
theorem segment_splice {tail pos : ℕ} {front rest : List α} (hfr : Segment cells 0 front)
    (hrest : Segment cells tail rest) (hit : Segment other src items) (hpos : front.length ≤ pos) :
    Segment (memcpy (memmove cells (pos + items.length) tail rest.length) pos other src
      items.length) 0 front ∧
      Segment (memcpy (memmove cells (pos + items.length) tail rest.length) pos other src
      items.length) pos items ∧
      Segment (memcpy (memmove cells (pos + items.length) tail rest.length) pos other src
        items.length) (pos + items.length) rest := by
  refine ⟨?_, ?_, ?_⟩
  · exact (hfr.memmove_outside (.inl (by omega))).memcpy_outside (.inl (by omega))
  · have hcopi : Segment (memcpy (memmove cells (pos + items.length) tail rest.length) pos other
        src items.length) (src - src + pos) items :=
      hit.memcpy_inside (Nat.le_refl _) (Nat.le_refl _)
    rwa [Nat.sub_self, Nat.zero_add] at hcopi
  · have hmoved : Segment (memmove cells (pos + items.length) tail rest.length)
        (tail - tail + (pos + items.length)) rest :=
      hrest.memmove_inside (Nat.le_refl _) (Nat.le_refl _)
    rw [Nat.sub_self, Nat.zero_add] at hmoved
    exact hmoved.memcpy_outside (.inr (Nat.le_refl _))

end AdvancedOs.Foundation.ArraySegments
