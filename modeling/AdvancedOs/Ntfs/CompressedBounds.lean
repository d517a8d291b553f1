import AdvancedOs.Ntfs.CompressedPages

/-!
# What compressed reads show behind the end of a file

A page that a compressed read sets uptodate should be zero from the initialized size of the
attribute on: what lies there on the device has not been written by the file. Sparse compression
blocks are zero, and in the others `handle_bounds_compressed_page` makes the tail zero, but only if
the initialized size is below the size of the file. When both are the same, which is the rule for
compressed files, the bytes behind the end of the file are left as they were read.

`zeroBehind_readGathered` is the first half: an initialized size below the size of the file is
enough. For the other half, `onesRequest` reads a file from a device full of ones (`ones_behind`).
`zeroBehind_iff` puts them together: for every page and every pair of sizes it says whether the
pages are zero whatever the runlist, the page cache and the device are.
-/

namespace AdvancedOs.Ntfs.CompressedBounds

open Foundation.ArraySegments Foundation.SignedWords RunlistElements MappingPairs Decompression
  DecompressionSharing CompressedReads CompressedPages

open BlockReads hiding Geometry complete

/-! ### Zeros behind the initialized size -/

section

variable {State : Type} (geo : Geometry) (req : Request State)

/-- Every page that is set uptodate is zero from the initialized size on. -/
def ZeroBehind (out : Outcome) : Prop :=
  ∀ i, .setUptodate i ∈ out.log → ∀ ofs < 4096,
    req.initializedSize ≤ (geo.offset req.index + i) * 4096 + ofs → out.pages.mem i ofs = 0

/-- Assumes: the initialized size is below the size of the file. The pages that are completed are
zero from it on. -/
theorem zeroBehind_readGathered (hlt : req.initializedSize < req.iSize) (got : Gathered State)
    (ending : GatherEnd) : ZeroBehind geo req (readGathered geo req got ending) := by
  intro i hmark ofs hofs hbeh
  have hbd := fun bytes => (handleBoundsCompressedPage_apply (geo.offset req.index + i) bytes
    req.iSize req.initializedSize hofs).trans (if_pos ⟨hlt, hbeh⟩)
  have hby := (completes_readGathered geo req got ending).bytes i hmark
  generalize (readGathered geo req got ending).pages.mem i = bytes at hby ⊢
  cases hby with
  | sparse => exact if_pos ⟨Nat.zero_le _, hofs⟩
  | raw => exact hbd _
  | compressed hsome hnot hdone =>
    have hmem := mem_ntfsDecompress (grabbed geo req) 0 0 (geo.maxPage req.index req.iSize) 0
      (geo.xpage req.index) false (fillBuffer geo req got.bhs) geo.cbSize req.iSize
      req.initializedSize hdone
    rw [hmem]
    exact hbd _

end

/-! ### A block full of ones -/

def oneRun (clusters : ℕ) : Mapper Unit where
  rl _ := .block ⟨48, fun i => [⟨0, 0, clusters⟩].getD i ⟨clusters, lcnEnoent, 0⟩⟩
  mapRunlist _ _ := (.error (.errno .eio), ())

theorem locate_oneRun {clusters vcn : ℕ} (hvcn : vcn < clusters) (hclus : clusters < 2 ^ 63)
    {rl : Option (List RunlistElement)}
    (hrl : rl = none ∨ rl = some [⟨0, 0, clusters⟩, ⟨clusters, lcnEnoent, 0⟩]) :
    locate (oneRun clusters) vcn () rl =
      .ok ⟨vcn, none, (), some [⟨0, 0, clusters⟩, ⟨clusters, lcnEnoent, 0⟩]⟩ := by
  have hor : rl.or (elementsOf ((oneRun clusters).rl ())) =
      some [⟨0, 0, clusters⟩, ⟨clusters, lcnEnoent, 0⟩] := by
    rcases hrl with rfl | rfl
    · simp [elementsOf, oneRun, RlArray.toList, RlArray.cap, elementSize, List.range_succ]
    · rfl
  have hlook : lookFrom vcn (some [⟨0, 0, (clusters : ℤ)⟩, ⟨clusters, lcnEnoent, 0⟩]) =
      .ok ((vcn : ℤ), some [⟨0, 0, clusters⟩, ⟨clusters, lcnEnoent, 0⟩]) := by
    have hseek : seek vcn [⟨0, 0, (clusters : ℤ)⟩, ⟨clusters, lcnEnoent, 0⟩] =
        [⟨0, 0, clusters⟩, ⟨clusters, lcnEnoent, 0⟩] := if_neg fun h => by
      have hle : (clusters : ℤ) ≤ vcn := h.2
      omega
    have hlcn : ntfsRlVcnToLcn (some [⟨0, 0, (clusters : ℤ)⟩, ⟨clusters, lcnEnoent, 0⟩]) vcn =
        some (vcn : ℤ) := by
      have hnone : clusters ≠ 0 := by omega
      have hword : s64 (vcn : ℤ) = vcn := s64_of_isS64 ⟨by omega, by omega⟩
      simp [ntfsRlVcnToLcn, vcnToLcnLoop, RunlistElement.lcnAt, hnone, hvcn, hword]
    unfold lookFrom
    simp only [hseek, hlcn]
  have hmap : (vcn : ℤ) ≠ lcnRlNotMapped := by
    unfold lcnRlNotMapped
    omega
  unfold locate
  simp only [hor, hlook, bind, Except.bind, if_neg hmap]
  rfl

theorem mapped_oneRun {clusters start : ℕ} (hclus : clusters < 2 ^ 63) (count : ℕ)
    (hle : start + count ≤ clusters) :
    ∃ rl, (rl = none ∨ rl = some [⟨0, 0, (clusters : ℤ)⟩, ⟨clusters, lcnEnoent, 0⟩]) ∧
      ∃ lcns, lcns.length = count ∧ Mapped (oneRun clusters) start () () rl lcns := by
  induction count with
  | zero => exact ⟨none, .inl rfl, [], rfl, .nil⟩
  | succ count ih =>
    obtain ⟨rl, hrl, lcns, hlen, hmap⟩ := ih (by omega)
    have hloc := @locate_oneRun clusters (start + lcns.length) (by omega) hclus rl hrl
    exact ⟨_, .inr rfl, _, by rw [List.length_append, hlen, List.length_singleton],
      hmap.snoc hloc rfl (Int.natCast_nonneg _)⟩

def freshPage : CachedPage := ⟨false, false, false, fun _ => 0⟩

def onesRequest (index size : ℕ) : Request Unit where
  index := index
  page := freshPage
  ni := ()
  iSize := size
  initializedSize := size
  memory := true
  grab _ := some freshPage
  getblk _ := true
  read _ := true
  device _ := 0xff
  buffer _ := 0xff

theorem fillBuffer_ones (geo : Geometry) (index size : ℕ) (bhs : List ℤ) (i : ℕ) :
    fillBuffer geo (onesRequest index size) bhs (i * 4096 + 4095) = 0xff := by
  have hblk : 512 ∣ geo.blockSize := Nat.pow_dvd_pow 2 geo.blocksizeBits_ge
  obtain ⟨sectors, hsect⟩ := hblk
  unfold fillBuffer
  split_ifs with hbel hhead
  · rfl
  · rw [hsect, show bhs.length * (512 * sectors) = 512 * (bhs.length * sectors) by
      rw [Nat.mul_left_comm]] at hbel hhead
    omega
  · rfl

theorem read_ones (geo : Geometry) {index size : ℕ} (hidx : index < 2 ^ 51)
    (hin : ¬ geo.pagesBelow index size ≤ geo.xpage index) :
    ∃ got, ntfsReadCompressedBlock (oneRun (geo.startVcn index + 16)) geo (onesRequest index size) =
      .ok (readGathered geo (onesRequest index size) got (.clusters Geometry.cbClusters)) := by
  have hclus : geo.startVcn index + 16 < 2 ^ 63 := by
    have hst := startVcn_mul geo index
    have hofs := offset_add_xpage geo index
    have hsize : 512 ≤ geo.clusterSize := by
      rcases sizes_cases geo with h | h | h | h <;> omega
    have hmul := Nat.mul_le_mul_left (geo.startVcn index) hsize
    omega
  obtain ⟨rl, -, lcns, hlen, hmap⟩ :=
    @mapped_oneRun (geo.startVcn index + 16) (geo.startVcn index) hclus 16 (Nat.le_refl _)
  have hgat := @Mapped.gather_eq Unit (oneRun (geo.startVcn index + 16)) geo
    (onesRequest index size) _ () rl lcns hmap (fun _ _ => rfl) 0
  rw [Nat.add_zero, hlen] at hgat
  have hread := ntfsReadCompressedBlock_eq (oneRun (geo.startVcn index + 16)) geo
    (onesRequest index size) rfl hin
  rw [hread]
  exact ⟨_,
    congrArg (Except.map fun found => readGathered geo (onesRequest index size) found.1 found.2)
      hgat⟩

/-- Assumes: a page inside of the file. All pages up to the end of the file are set uptodate, and
the last byte of each is one that was read. -/
theorem ones_behind (geo : Geometry) {index size : ℕ} (hidx : index < 2 ^ 51)
    (hin : ¬ geo.pagesBelow index size ≤ geo.xpage index) :
    ∃ out, ntfsReadCompressedBlock (oneRun (geo.startVcn index + 16)) geo (onesRequest index size) =
      .ok out ∧ ∀ i < geo.maxPage index size, .setUptodate i ∈ out.log ∧
      out.pages.mem i 4095 = 0xff := by
  obtain ⟨got, hread⟩ := read_ones geo hidx hin
  have hfin := finished_raw geo (onesRequest index size) got (List.all_eq_true.mpr fun _ _ => rfl)
  refine ⟨_, hread, fun i hi => ?_⟩
  have hent : entry geo (onesRequest index size) i = some freshPage := ite_self _
  have hheld : (grabbed geo (onesRequest index size)).held i = true := by
    change (decide (i < geo.maxPage index size) && _) = true
    rw [hent, decide_eq_true hi]
    rfl
  refine ⟨(hfin.mark_iff i).mpr hheld, ?_⟩
  rw [hfin.mem_eq i hheld, handleBoundsCompressedPage_apply _ _ _ _ (by omega),
    if_neg fun h => Nat.lt_irrefl _ h.1, memcpy, if_pos ⟨by omega, by omega⟩, Nat.sub_zero,
    Nat.add_comm]
  exact fillBuffer_ones geo index size got.bhs i

/-! ### When the pages are zero -/

/-- Assumes: the initialized size is not above the size of the file. Whatever is on the device, the
pages are zero from the initialized size on exactly when it is below the size of the file, or the
page lies behind the file, or the pages that are read end before it. -/
theorem zeroBehind_iff (geo : Geometry) {index iSize initializedSize : ℕ} (hindex : index < 2 ^ 51)
    (hle : initializedSize ≤ iSize) :
    (∀ (State : Type) (mapper : Mapper State) (req : Request State), req.index = index →
        req.iSize = iSize → req.initializedSize = initializedSize →
        ∀ out, ntfsReadCompressedBlock mapper geo req = .ok out → ZeroBehind geo req out) ↔
      (initializedSize < iSize ∨ geo.pagesBelow index iSize ≤ geo.xpage index ∨
        (geo.offset index + geo.maxPage index iSize) * 4096 ≤ initializedSize) := by
  constructor
  · intro hzero
    by_contra hnot
    obtain ⟨hlt, hinside, hbelow⟩ : ¬ initializedSize < iSize ∧
        ¬ geo.pagesBelow index iSize ≤ geo.xpage index ∧
        ¬ (geo.offset index + geo.maxPage index iSize) * 4096 ≤ initializedSize := by
      simpa only [not_or] using hnot
    obtain rfl : initializedSize = iSize := by omega
    obtain ⟨out, hread, hones⟩ := ones_behind geo hindex hinside
    have hpos := xpage_lt_maxPage geo index hinside
    obtain ⟨hmark, hbyte⟩ := hones (geo.maxPage index initializedSize - 1) (by omega)
    have hbehind :=
      hzero Unit _ (onesRequest index initializedSize) rfl rfl rfl out hread _ hmark 4095
      (by omega) (by
        change initializedSize ≤ (geo.offset index + _) * 4096 + 4095
        omega)
    rw [hbyte] at hbehind
    exact absurd hbehind (by decide)
  · rintro hcases State mapper req rfl rfl rfl out hread
    cases returns_of_read mapper geo req hread with
    | memory hmemory => exact fun i hmark => by simp at hmark
    | outside hmemory houtside =>
      intro i hmark ofs hofs _
      obtain rfl : i = geo.xpage req.index := by simpa using hmark
      exact (congrFun (Function.update_self ..) ofs).trans (if_pos ⟨Nat.zero_le _, hofs⟩)
    | @gathered hmemory hinside got ending hgather =>
      rcases hcases with hlt | houtside | hends
      · exact zeroBehind_readGathered geo req hlt got ending
      · exact absurd houtside hinside
      · -- All pages that are read end before the initialized size.
        intro i hmark ofs hofs hbehind
        have hi :=
          held_grabbed_lt geo req ((completes_readGathered geo req got ending).held i hmark)
        omega

/-! ### A tail that is shown -/

def wholePages : Geometry := .ofBits 12 9 (by decide)

/-- The page of a file with a hundred bytes, fifty of which are initialized, is zero behind
these. -/
theorem zeroBehind_iff_fifty : 50 < 100 ∧
    ∀ (State : Type) (mapper : Mapper State) (req : Request State), req.index = 0 →
      req.iSize = 100 → req.initializedSize = 50 → ∀ out,
      ntfsReadCompressedBlock mapper wholePages req = .ok out →
        ZeroBehind wholePages req out :=
  ⟨by omega, (@zeroBehind_iff wholePages 0 100 50 (by omega) (by omega)).mpr (.inl (by omega))⟩

/-- A file of a hundred bytes, all of them initialized, that is not compressed: the last byte of its
page is what is on the device. -/
theorem not_zeroBehind_ones : ∃ out,
    ntfsReadCompressedBlock (oneRun 16) wholePages (onesRequest 0 100) = .ok out ∧
      .setUptodate 0 ∈ out.log ∧ out.pages.mem 0 4095 = 0xff := by
  obtain ⟨out, hread, hones⟩ := @ones_behind wholePages 0 100 (by omega) (by decide)
  exact ⟨out, hread, hones 0 (by decide)⟩

end AdvancedOs.Ntfs.CompressedBounds
