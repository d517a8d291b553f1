import AdvancedOs.Foundation.PagedBytes
import AdvancedOs.Ntfs.RunlistElements

/-!
# Filling a part of an attribute with a byte

`ntfs_attr_set` is `memset` on the contents of an attribute. It works on the pages of the page
cache: the first page is read if the part begins inside it, the pages that belong to the part as a
whole are overwritten without being read, and the last page is read if the part ends inside it. A
part that begins and ends inside the same page is filled by the code for the first one.

Pages that cannot be had make the function fail in the middle. `attrSet_spec` says that it has
filled the part, and nothing else, when it succeeds, and that nothing is changed when the part is
not inside the attribute.
-/

namespace AdvancedOs.Ntfs.AttributeFilling

open Foundation.ArraySegments Foundation.PagedBytes RunlistElements

/-! ### The driver -/

inductive Outcome
  | done
  | espipe
  | enomem
  | readError (code : Errno)
  | bug
deriving DecidableEq

/-- What the function finds: the size of the attribute, whether it is compressed or encrypted, the
pages that cannot be read and those for which there is no memory. -/
structure Attribute where
  iSize : ℕ
  compressed : Bool
  encrypted : Bool
  readMappingPage : ℕ → Option Errno
  grabCachePage : ℕ → Bool

abbrev Pages := ℕ → ℕ → UInt8

variable (attr : Attribute) (val : UInt8)

def memset (pages : Pages) (idx start size : ℕ) : Pages :=
  copyTo pages idx start (fun _ => val) 0 size

/-- The loop over `count` whole pages, and whether there was memory for all of them. -/
def fillPages : ℕ → ℕ → Pages → Bool × Pages
  | 0, _, pages => (true, pages)
  | count + 1, idx, pages =>
    if attr.grabCachePage idx then fillPages count (idx + 1) (memset val pages idx 0 pageSize)
    else (false, pages)

/-- The whole pages from `idx` on, and the last page. -/
def fillRest (idx last endOfs : ℕ) (pages : Pages) : Outcome × Pages :=
  let (filled, pages) := fillPages attr val (last - idx) idx pages
  if filled = false then (.enomem, pages)
  else if endOfs = 0 then (.done, pages)
  else match attr.readMappingPage last with
    | some code => (.readError code, pages)
    | none => (.done, memset val pages last 0 endOfs)

/-- The part from `start` up to `stop`, which is not empty. -/
def fillPart (start stop : ℕ) (pages : Pages) : Outcome × Pages :=
  let idx := start / pageSize
  let startOfs := start % pageSize
  let last := stop / pageSize
  let endOfs := stop % pageSize
  if startOfs = 0 then fillRest attr val idx last endOfs pages
  else match attr.readMappingPage idx with
    | some code => (.readError code, pages)
    | none =>
      if idx = last then (.done, memset val pages idx startOfs (endOfs - startOfs))
      else fillRest attr val (idx + 1) last endOfs
        (memset val pages idx startOfs (pageSize - startOfs))

def ntfsAttrSet (ofs cnt : Int64) (pages : Pages) : Outcome × Pages :=
  if ofs.toInt < 0 ∨ cnt.toInt < 0 then (.bug, pages)
  else if cnt.toInt = 0 then (.done, pages)
  else if attr.compressed ∨ attr.encrypted then (.bug, pages)
  else
    -- The sum need not fit into an `s64`, but it fits into a `pgoff_t`.
    let stop := (ofs.toInt + cnt.toInt).toNat % 2 ^ 64
    if attr.iSize < stop then (.espipe, pages) else fillPart attr val ofs.toInt.toNat stop pages

/-! ### The contents -/

/-- The contents with `count` bytes from `start` on set to the value. -/
def fill (contents : ℕ → UInt8) (start count : ℕ) : ℕ → UInt8 :=
  memcpy contents start (fun _ => val) 0 count

variable {attr val} {idx last start size endOfs count more : ℕ} {pages after : Pages}
  {contents : ℕ → UInt8}

theorem fill_fill : fill val (fill val contents start count) (start + count) more =
    fill val contents start (count + more) :=
  memcpy_memcpy (fun _ _ => rfl) fun _ _ => rfl

theorem flat_memset (hroom : start + size ≤ pageSize) :
    flat pageSize (memset val pages idx start size) =
      fill val (flat pageSize pages) (idx * pageSize + start) size := flat_copyTo hroom

theorem flat_fillPages (hfil : (fillPages attr val count idx pages).1 = true) :
    flat pageSize (fillPages attr val count idx pages).2 =
      fill val (flat pageSize pages) (idx * pageSize) (count * pageSize) := by
  induction count generalizing idx pages with
  | zero =>
    rw [Nat.zero_mul]
    exact memcpy_zero.symm
  | succ count ih =>
    rw [fillPages] at hfil ⊢
    split_ifs at hfil ⊢
    rw [ih hfil, flat_memset (by omega), Nat.add_zero, Nat.succ_mul, fill_fill, Nat.succ_mul,
      Nat.add_comm pageSize]

theorem fillRest_spec (attr : Attribute) (val : UInt8) (pages : Pages) (hle : idx ≤ last)
    (hofs : endOfs < pageSize) :
    let out := fillRest attr val idx last endOfs pages
    out.1 ≠ .espipe ∧ (out.1 = .done → flat pageSize out.2 = fill val (flat pageSize pages)
      (idx * pageSize) (last * pageSize + endOfs - idx * pageSize)) := by
  have hwh : last * pageSize = idx * pageSize + (last - idx) * pageSize := by
    rw [← Nat.add_mul, Nat.add_sub_cancel' hle]
  unfold fillRest
  dsimp only
  split_ifs with hfil hzero
  · simp
  · refine ⟨by simp, fun _ => ?_⟩
    rw [flat_fillPages (Bool.not_eq_false _ ▸ hfil), hzero, hwh, Nat.add_zero,
      Nat.add_sub_cancel_left]
  · split
    · simp
    · refine ⟨by simp, fun _ => ?_⟩
      rw [flat_memset (by omega), flat_fillPages (Bool.not_eq_false _ ▸ hfil), Nat.add_zero, hwh,
        fill_fill, Nat.add_assoc, Nat.add_sub_cancel_left]

theorem fillPart_spec (attr : Attribute) (val : UInt8) (pages : Pages) {stop : ℕ}
    (hlt : start < stop) : let out := fillPart attr val start stop pages
    out.1 ≠ .espipe ∧ (out.1 = .done → flat pageSize out.2 =
      fill val (flat pageSize pages) start (stop - start)) := by
  have hst := Nat.div_add_mod' start pageSize
  have hstop := Nat.div_add_mod' stop pageSize
  have hstartLt := Nat.mod_lt start (show 0 < pageSize by decide)
  have hstopLt := Nat.mod_lt stop (show 0 < pageSize by decide)
  have hle : start / pageSize ≤ stop / pageSize := Nat.div_le_div_right hlt.le
  unfold fillPart
  dsimp only
  by_cases hzero : start % pageSize = 0
  · rw [if_pos hzero]
    have hrest := fillRest_spec attr val pages hle hstopLt
    rwa [hstop, show start / pageSize * pageSize = start by omega] at hrest
  rw [if_neg hzero]
  cases attr.readMappingPage (start / pageSize) with
  | some code => simp
  | none =>
    dsimp only
    by_cases hsame : start / pageSize = stop / pageSize
    · have hpgs : start / pageSize * pageSize = stop / pageSize * pageSize := by rw [hsame]
      rw [if_pos hsame]
      refine ⟨by simp, fun _ => ?_⟩
      rw [flat_memset (by omega), hst]
      congr 1
      omega
    · rw [if_neg hsame]
      have hnext : (start / pageSize + 1) * pageSize = start + (pageSize - start % pageSize) := by
        rw [Nat.succ_mul]
        omega
      have hrest := fillRest_spec attr val
        (memset val pages (start / pageSize) (start % pageSize) (pageSize - start % pageSize))
        (show start / pageSize + 1 ≤ stop / pageSize by omega) hstopLt
      have hbel : start + (pageSize - start % pageSize) ≤ stop := by
        rw [← hnext, ← hstop]
        exact (Nat.mul_le_mul_right _ (by omega)).trans (Nat.le_add_right _ _)
      rw [flat_memset (by omega), hst, hstop, hnext, fill_fill] at hrest
      rwa [show pageSize - start % pageSize + (stop - (start + (pageSize - start % pageSize))) =
        stop - start by omega] at hrest

/-- If the function succeeds, the bytes of the part have been set to the value and all others are as
they were. If it fails with `ESPIPE`, all bytes are as they were, and the part ends behind the
attribute. -/
theorem attrSet_spec (attr : Attribute) (val : UInt8) (ofs cnt : Int64) (pages : Pages) :
    let out := ntfsAttrSet attr val ofs cnt pages
    (out.1 = .done → flat pageSize out.2 =
      fill val (flat pageSize pages) ofs.toInt.toNat cnt.toInt.toNat) ∧
    (out.1 = .espipe → out.2 = pages ∧ attr.iSize < ofs.toInt + cnt.toInt) := by
  have hofs := ofs.toInt_lt
  have hcnt := cnt.toInt_lt
  unfold ntfsAttrSet
  dsimp only
  split_ifs with hbug hzero hkind hbehind
  · simp
  · rw [hzero]
    exact ⟨fun _ => memcpy_zero.symm, by simp⟩
  · simp
  · exact ⟨by simp, fun _ => ⟨rfl, by omega⟩⟩
  · have hstop : (ofs.toInt + cnt.toInt).toNat % 2 ^ 64 =
      ofs.toInt.toNat + cnt.toInt.toNat := by omega
    have hpart := fillPart_spec attr val pages
      (show ofs.toInt.toNat < ofs.toInt.toNat + cnt.toInt.toNat by omega)
    rw [Nat.add_sub_cancel_left] at hpart
    rw [hstop]
    exact ⟨hpart.2, fun h => absurd h hpart.1⟩

end AdvancedOs.Ntfs.AttributeFilling
