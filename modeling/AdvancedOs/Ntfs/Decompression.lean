import AdvancedOs.Ntfs.CompressionFormat
import AdvancedOs.Ntfs.RunlistElements

/-!
# Decompression

`ntfs_decompress` decodes a compression block into an array of pages, a sub-block to a page. Both
are made of loops inside loops: over the sub-blocks, over the tags of a sub-block and over the
tokens of a tag, each with its own checks, and with two counters for the position in the
destination. The model keeps them as they are, together with a log of what is done with the
destination (`Access`). The pages that have been completed are finished in a second stage, where
what lies behind the initialized size becomes zero.

A position of the decoder inside a sub-block is one of the format (`StandsAt`). `resume_step` is one
token, `resume_reads` a sequence of them, `parseTags_of_reads` a sub-block and
`doSbs_of_areSubBlocks` a sequence of sub-blocks. `ntfsDecompress_validBlock` is the result for a
valid compression block: every page that has a sub-block holds the bytes it stands for.
-/

namespace AdvancedOs.Ntfs.Decompression

open Foundation.ArraySegments Foundation.BackReferences CompressionFormat RunlistElements List
open Function hiding extend

/-! ### One sub-block -/

/-- The sub-block being decoded: where it ends in the compression block, and `dest_ofs` when it
started. Pointers into the destination page are offsets into it. -/
structure SbBounds where
  cbSbEnd : ℕ
  doSbStart : ℕ

namespace SbBounds

variable (sb : SbBounds)

def doSbEnd : ℕ := sb.doSbStart + sbSize

def dpSbStart : ℕ := sb.doSbStart

def dpSbEnd : ℕ := sb.dpSbStart + sbSize

end SbBounds

/-- The positions in the source and the destination, the destination page, and the offsets in it
that have been stored to. The memory of the page goes on behind its end. -/
structure SbState where
  cb : ℕ
  dpAddr : ℕ
  destOfs : ℕ
  page : ℕ → UInt8
  stores : List ℕ

/-- How a token ends: with the next one, with the loop over the tokens, or with an overflow. -/
inductive TokenEnd
  | next | leave | overflow

def lgLoop : ℕ → ℕ → ℕ
  | 0, _ => 0
  | fuel + 1, i => if 0x10 ≤ i then lgLoop fuel (i >>> 1) + 1 else 0

/-- The copy of a phrase: the part that does not overlap, then the rest byte by byte. -/
def copyPhrase (page : ℕ → UInt8) (dpAddr dpBackAddr length : ℕ) : ℕ → UInt8 :=
  let maxNonOverlap := dpAddr - dpBackAddr
  if length ≤ maxNonOverlap then memcpy page dpAddr page dpBackAddr length
  else copyForward (memcpy page dpAddr page dpBackAddr maxNonOverlap) (dpAddr + maxNonOverlap)
    (dpBackAddr + maxNonOverlap) (length - maxNonOverlap)

section

variable (src : ℕ → UInt8) (sb : SbBounds)

def parseToken (tag : ℕ) (st : SbState) : SbState × TokenEnd :=
  if sb.cbSbEnd ≤ st.cb ∨ sb.dpSbEnd < st.dpAddr then (st, .leave)
  else if tag &&& 1 = 0 then
    (⟨st.cb + 1, st.dpAddr + 1, st.destOfs + 1, update st.page st.dpAddr (src st.cb),
      st.stores ++ [st.dpAddr]⟩, .next)
  else if st.dpAddr = sb.dpSbStart then (st, .overflow)
  else
    let lg := lgLoop 16 (st.destOfs - sb.doSbStart - 1)
    let pt := le16 src st.cb
    if st.dpAddr < sb.dpSbStart + (pt >>> (12 - lg)) + 1 then (st, .overflow)
    else
      let dpBackAddr := st.dpAddr - (pt >>> (12 - lg)) - 1
      let length := (pt &&& (0xfff >>> lg)) + 3
      if sb.doSbEnd < st.destOfs + length then
        ({ st with destOfs := st.destOfs + length }, .overflow)
      else
        (⟨st.cb + 2, st.dpAddr + length, st.destOfs + length,
          copyPhrase st.page st.dpAddr dpBackAddr length,
          st.stores ++ List.range' st.dpAddr length⟩, .next)

/-- The loop over the tokens of a tag. Says whether it ended without an overflow. -/
def parseTokens : ℕ → ℕ → SbState → SbState × Bool
  | 0, _, st => (st, true)
  | tokens + 1, tag, st =>
    match parseToken src sb tag st with
    | (st, .next) => parseTokens tokens (tag >>> 1) st
    | (st, .leave) => (st, true)
    | (st, .overflow) => (st, false)

/-- The end of a sub-block: what is missing of it becomes zero. -/
def fillSb (st : SbState) : SbState :=
  if st.dpAddr < sb.dpSbEnd then
    let nrBytes := sb.doSbEnd - st.destOfs
    { st with
      destOfs := st.destOfs + nrBytes
      page := fun i => if st.dpAddr ≤ i ∧ i < st.dpAddr + nrBytes then 0 else st.page i
      stores := st.stores ++ List.range' st.dpAddr nrBytes }
  else st

/-- The loop over the tags of a sub-block. Says whether it ended without an overflow. Every turn
takes at least the byte of a tag. -/
def parseTags : ℕ → SbState → SbState × Bool
  | 0, st => (st, false)
  | fuel + 1, st =>
    if st.cb = sb.cbSbEnd then (fillSb sb st, true)
    else if sb.cbSbEnd < st.cb ∨ sb.dpSbEnd < st.dpAddr then (st, false)
    else match parseTokens src sb 8 (src st.cb).toNat { st with cb := st.cb + 1 } with
      | (st, true) => parseTags fuel st
      | (st, false) => (st, false)

end

/-! ### The loop over the sub-blocks -/

/-- What is done with the destination: a sub-block starts at an offset, an entry of the array of
pages is read, a byte of the page of an entry is stored. -/
inductive Access
  | subBlock (destOfs : ℕ)
  | entry (index : ℕ)
  | store (index offset : ℕ)
deriving DecidableEq, Repr

/-- What `ntfs_decompress` is given: the compression block, the end of the destination, and which
entries of the array of pages hold a page. -/
structure Job where
  cbStart : ℕ → UInt8
  cbSize : ℕ
  destMaxIndex : ℕ
  destMaxOfs : ℕ
  present : ℕ → Bool

/-- The state between two sub-blocks: the positions in the source and the destination, the memory of
the pages, the entries completed, and what has been done so far. -/
structure JobState where
  cb : ℕ
  destIndex : ℕ
  destOfs : ℕ
  mem : ℕ → ℕ → UInt8
  completed : List ℕ
  log : List Access

section

variable (job : Job)

/-- What a sub-block leaves when it has been decoded up to `destOfs`: the offset wraps at the end of
the page, and the page is completed there. Says whether there may be a next one. -/
def finishSb (st : JobState) (destOfs : ℕ) : JobState × Bool :=
  if destOfs % 4096 = 0 then
    ({ st with
      destIndex := st.destIndex + 1
      destOfs := 0
      completed := st.completed ++ [st.destIndex] },
      decide (st.destIndex + 1 ≤ job.destMaxIndex))
  else ({ st with destOfs := destOfs % 4096 }, true)

def skipSb (st : JobState) (cbSbEnd : ℕ) : JobState × Bool :=
  if (st.destOfs + sbSize) % 4096 = 0 then
    ({ st with cb := cbSbEnd, destOfs := 0, destIndex := st.destIndex + 1 },
      decide (st.destIndex + 1 ≤ job.destMaxIndex))
  else ({ st with cb := cbSbEnd, destOfs := (st.destOfs + sbSize) % 4096 }, true)

/-- A sub-block that is not compressed must have its full size, and is copied. -/
def copySb (st : JobState) (cbSbEnd : ℕ) : JobState × Bool :=
  if cbSbEnd - (st.cb + 2) ≠ sbSize then ({ st with cb := st.cb + 2 }, false)
  else finishSb job
    { st with
      cb := st.cb + 2 + sbSize
      mem := update st.mem st.destIndex
        (memcpy (st.mem st.destIndex) st.destOfs job.cbStart (st.cb + 2) sbSize)
      log := st.log ++ (List.range' st.destOfs sbSize).map (Access.store st.destIndex) }
    (st.destOfs + sbSize)

def decodeSb (st : JobState) (cbSbEnd : ℕ) : JobState × Bool :=
  let (out, ok) := parseTags job.cbStart ⟨cbSbEnd, st.destOfs⟩ (cbSbEnd - st.cb)
    ⟨st.cb + 2, st.destOfs, st.destOfs, st.mem st.destIndex, []⟩
  let st' : JobState := { st with
    cb := out.cb
    destOfs := out.destOfs
    mem := update st.mem st.destIndex out.page
    log := st.log ++ out.stores.map (Access.store st.destIndex) }
  if ok then finishSb job st' out.destOfs else (st', false)

def doSb (st : JobState) : JobState × Bool :=
  let st := { st with log := st.log ++ [.subBlock st.destOfs] }
  if st.destIndex = job.destMaxIndex ∧ job.destMaxOfs < st.destOfs + sbSize then (st, false)
  else if job.cbSize < st.cb + 6 then (st, false)
  else
    let cbSbEnd := st.cb + (le16 job.cbStart st.cb &&& 0x0fff) + 3
    if job.cbSize < cbSbEnd then (st, false)
    else
      let st := { st with log := st.log ++ [.entry st.destIndex] }
      if job.present st.destIndex = false then skipSb job st cbSbEnd
      else if le16 job.cbStart st.cb &&& 0x8000 = 0 then copySb job st cbSbEnd
      else decodeSb job st cbSbEnd

def AtEnd (st : JobState) : Prop :=
  st.cb = job.cbSize ∨ le16 job.cbStart st.cb = 0 ∨
    (st.destIndex = job.destMaxIndex ∧ st.destOfs = job.destMaxOfs)

instance (st : JobState) : Decidable (AtEnd job st) := by
  unfold AtEnd
  infer_instance

/-- The loop over the sub-blocks. Says whether it came to an end without an overflow. Every turn
takes at least three bytes of the compression block. -/
def doSbs : ℕ → JobState → JobState × Bool
  | 0, st => (st, false)
  | fuel + 1, st =>
    if AtEnd job st then (st, true)
    else match doSb job st with
      | (st, true) => doSbs fuel st
      | (st, false) => (st, false)

end

/-! ### The second stage -/

/-- `zero_partial_compressed_page` on the page number `index` of the file. -/
def zeroPartialCompressedPage (index : ℕ) (bytes : ℕ → UInt8) (initializedSize : ℕ) : ℕ → UInt8 :=
  if initializedSize ≤ index * 4096 then fun i => if i < 4096 then 0 else bytes i
  else fun i => if initializedSize % 4096 ≤ i ∧ i < 4096 then 0 else bytes i

/-- `handle_bounds_compressed_page` on the page number `index` of the file. -/
def handleBoundsCompressedPage (index : ℕ) (bytes : ℕ → UInt8) (iSize initializedSize : ℕ) :
    ℕ → UInt8 :=
  if initializedSize / 4096 ≤ index ∧ initializedSize < iSize then
    zeroPartialCompressedPage index bytes initializedSize
  else bytes

/-- The array of pages and what it points to: whether an entry still holds its page, the number of
the page in the file, its memory and whether it is uptodate. -/
structure DestPages where
  held : ℕ → Bool
  index : ℕ → ℕ
  mem : ℕ → ℕ → UInt8
  uptodate : ℕ → Bool

def finalizePage (iSize initializedSize : ℕ) (pages : DestPages) (di : ℕ) : DestPages :=
  { pages with
    held := update pages.held di false
    mem := update pages.mem di
      (handleBoundsCompressedPage (pages.index di) (pages.mem di) iSize initializedSize)
    uptodate := update pages.uptodate di true }

structure Decompressed where
  pages : DestPages
  destIndex : ℕ
  destOfs : ℕ
  xpageDone : Bool
  log : List Access
  status : Except Failure Unit

def ntfsDecompress (pages : DestPages) (destIndex destOfs destMaxIndex destMaxOfs : ℕ) (xpage : ℕ)
    (xpageDone : Bool) (cbStart : ℕ → UInt8) (cbSize iSize initializedSize : ℕ) : Decompressed :=
  let job : Job := ⟨cbStart, cbSize, destMaxIndex, destMaxOfs, pages.held⟩
  let (st, ok) := doSbs job (cbSize + 1) ⟨0, destIndex, destOfs, pages.mem, [], []⟩
  { pages := st.completed.foldl (finalizePage iSize initializedSize) { pages with mem := st.mem }
    destIndex := st.destIndex
    destOfs := st.destOfs
    xpageDone := xpageDone || decide (xpage ∈ st.completed)
    log := st.log ++ st.completed.map Access.entry
    status := if ok then .ok () else .error (.errno .eoverflow) }

/-! ### Reading a token -/

theorem lgLoop_eq {fuel i : ℕ} (hi : i < 2 ^ (fuel + 4)) : lgLoop fuel i = i.size - 4 := by
  induction fuel generalizing i with
  | zero =>
    have hsize : i.size ≤ 4 := Nat.size_le.mpr hi
    rw [lgLoop]
    omega
  | succ fuel ih =>
    rw [lgLoop]
    split_ifs with hlarge
    · have hhalf : i >>> 1 = i / 2 := Nat.shiftRight_one i
      have hsize : i.size = (i / 2).size + 1 := by
        have hbit : Nat.bit (i.testBit 0) (i / 2) = i := by
          exact Nat.bit_testBit_zero_shiftRight_one i
        conv_lhs => rw [← hbit]
        exact Nat.size_bit (by omega)
      have hfour : 3 < (i / 2).size := Nat.lt_size.mpr (by omega)
      rw [hhalf, ih (by rw [Nat.pow_succ'] at hi; omega)]
      omega
    · have hsize : i.size ≤ 4 := Nat.size_le.mpr (by omega)
      omega

theorem extraBits_le {produced : ℕ} (hprod : produced ≤ sbSize) : extraBits produced ≤ 8 := by
  have hsize : (produced - 1).size ≤ 12 := Nat.size_le.mpr (by unfold sbSize at hprod; omega)
  unfold extraBits
  omega

theorem and_shiftRight_eq (word : ℕ) {bits : ℕ} (hbits : bits ≤ 8) :
    word &&& (0xfff >>> bits) = word % 2 ^ (12 - bits) := by
  have hmask : ∀ bits ≤ 8, 0xfff >>> bits = 2 ^ (12 - bits) - 1 := by decide
  rw [hmask bits hbits, Nat.and_two_pow_sub_one_eq_mod]

theorem copyPhrase_eq (page : ℕ → UInt8) {dpAddr dpBackAddr : ℕ} (hback : dpBackAddr ≤ dpAddr)
    (length : ℕ) : copyPhrase page dpAddr dpBackAddr length =
      copyForward page dpAddr dpBackAddr length := by
  unfold copyPhrase
  dsimp only
  split_ifs with hshort
  · exact memcpy_eq_copyForward (by omega)
  · rw [memcpy_eq_copyForward (by omega), ← copyForward_add, Nat.add_sub_cancel' (by omega)]

/-- The state of a sub-block stands at the cursor, with `out` produced so far. -/
structure StandsAt (sb : SbBounds) (st : SbState) (cursor : Cursor) (out : List UInt8) : Prop where
  cb_eq : st.cb = cursor.pos
  dpAddr_eq : st.dpAddr = sb.doSbStart + cursor.produced
  destOfs_eq : st.destOfs = sb.doSbStart + cursor.produced
  length_eq : out.length = cursor.produced
  segment : Segment st.page sb.doSbStart out

/-- Between two states of a sub-block, nothing outside of the 4096 bytes has been stored. -/
structure Inside (sb : SbBounds) (st st' : SbState) : Prop where
  page_eq : ∀ i, i < sb.doSbStart ∨ sb.doSbStart + sbSize ≤ i → st'.page i = st.page i
  stores : ∃ more, st'.stores = st.stores ++ more ∧
    ∀ i ∈ more, sb.doSbStart ≤ i ∧ i < sb.doSbStart + sbSize

theorem Inside.refl (sb : SbBounds) (st : SbState) : Inside sb st st :=
  ⟨fun _ _ => rfl, [], by simp⟩

theorem Inside.trans {sb : SbBounds} {first second third : SbState}
    (hfst : Inside sb first second) (hsec : Inside sb second third) : Inside sb first third := by
  obtain ⟨more, hmore, hin⟩ := hfst.stores
  obtain ⟨other, hoth, hin'⟩ := hsec.stores
  refine ⟨fun i hi => (hsec.page_eq i hi).trans (hfst.page_eq i hi), more ++ other, ?_, ?_⟩
  · rw [hoth, hmore, append_assoc]
  · intro i hi
    exact (mem_append.mp hi).elim (hin i) (hin' i)

section

variable {src : ℕ → UInt8} {sb : SbBounds} {st : SbState} {cursor : Cursor} {out : List UInt8}

theorem StandsAt.goes (hat : StandsAt sb st cursor out) (hin : cursor.pos < sb.cbSbEnd)
    (hprod : cursor.produced ≤ sbSize) :
    ¬ (sb.cbSbEnd ≤ st.cb ∨ sb.dpSbEnd < st.dpAddr) := by
  rw [hat.cb_eq, hat.dpAddr_eq]
  unfold SbBounds.dpSbEnd SbBounds.dpSbStart
  omega

theorem parseToken_literal (hat : StandsAt sb st cursor out) (hin : cursor.pos < sb.cbSbEnd)
    (hprod : cursor.produced ≤ sbSize) (htag : cursor.tag % 2 = 0) :
    ∃ st', parseToken src sb cursor.tag st = (st', .next) ∧
      StandsAt sb st' (cursor.advance (cursor.token src)) (extend out (cursor.token src)) ∧
      st'.page = update st.page st.dpAddr (src st.cb) ∧
      st'.stores = st.stores ++ [st.dpAddr] := by
  have htok : cursor.token src = .literal (src cursor.pos) := if_pos htag
  rw [parseToken, if_neg (hat.goes hin hprod), Nat.and_one_is_mod, if_pos htag, htok]
  refine ⟨_, rfl, ⟨?_, ?_, ?_, ?_, ?_⟩, rfl, rfl⟩
  · simp only [Cursor.advance, hat.cb_eq]
  · simp only [Cursor.advance, hat.dpAddr_eq, Nat.add_assoc]
  · simp only [Cursor.advance, hat.destOfs_eq, Nat.add_assoc]
  · simp only [Cursor.advance, extend, length_append, hat.length_eq, length_singleton]
  · rw [hat.cb_eq, hat.dpAddr_eq, ← hat.length_eq]
    exact hat.segment.concat _

theorem phrase_eq (src : ℕ → UInt8) (pos : ℕ) {destOfs produced : ℕ} (hprod : produced ≤ sbSize)
    (hdestOfs : destOfs = sb.doSbStart + produced) :
    lgLoop 16 (destOfs - sb.doSbStart - 1) = extraBits produced ∧
      le16 src pos >>> (12 - extraBits produced) + 1 = phraseBack produced (le16 src pos) ∧
      (le16 src pos &&& (0xfff >>> extraBits produced)) + 3 =
      phraseLength produced (le16 src pos) := by
  have hposi : destOfs - sb.doSbStart - 1 = produced - 1 := by omega
  refine ⟨?_, ?_, ?_⟩
  · rw [hposi, lgLoop_eq (by unfold sbSize at hprod; omega)]
    rfl
  · rw [Nat.shiftRight_eq_div_pow]
    rfl
  · rw [and_shiftRight_eq _ (extraBits_le hprod)]
    rfl

theorem parseToken_of_fits (hat : StandsAt sb st cursor out) (hin : cursor.pos < sb.cbSbEnd)
    (hprod : cursor.produced ≤ sbSize) (hfits : Fits cursor.produced (cursor.token src)) :
    ∃ st', parseToken src sb cursor.tag st = (st', .next) ∧
      StandsAt sb st' (cursor.advance (cursor.token src)) (extend out (cursor.token src)) ∧
      Inside sb st st' := by
  have hdpAddr := hat.dpAddr_eq
  by_cases htag : cursor.tag % 2 = 0
  · obtain ⟨st', hpars, hat', hpage, hstor⟩ := @parseToken_literal src _ _ _ _ hat hin hprod htag
    rw [Cursor.token, if_pos htag] at hfits
    have hlt : cursor.produced < sbSize := hfits
    refine ⟨st', hpars, hat', fun i hi => ?_, [st.dpAddr], hstor, fun i hi => ?_⟩
    · rw [hpage, update_of_ne (by omega)]
    · rw [mem_singleton.mp hi]
      omega
  · have htok : cursor.token src = .phrase (phraseBack cursor.produced (le16 src cursor.pos))
        (phraseLength cursor.produced (le16 src cursor.pos)) := if_neg htag
    obtain ⟨hlg, hback, hlen⟩ := phrase_eq src cursor.pos hprod hat.destOfs_eq
    rw [htok] at hfits ⊢
    generalize phraseBack cursor.produced (le16 src cursor.pos) = back at hfits hback
    generalize phraseLength cursor.produced (le16 src cursor.pos) = length at hfits hlen
    obtain ⟨hrch, hends⟩ := hfits
    have hpos : 1 ≤ back := hback ▸ Nat.le_add_left _ _
    have hdestOfs := hat.destOfs_eq
    have hst : st.dpAddr ≠ sb.dpSbStart := by
      unfold SbBounds.dpSbStart
      omega
    have hnear : ¬ st.dpAddr < sb.dpSbStart + back := by
      unfold SbBounds.dpSbStart
      omega
    have hroom : ¬ sb.doSbEnd < st.destOfs + length := by
      unfold SbBounds.doSbEnd
      omega
    rw [parseToken, if_neg (hat.goes hin hprod), Nat.and_one_is_mod, if_neg htag, if_neg hst]
    simp only [hlg, hat.cb_eq]
    simp only [Nat.add_assoc, Nat.sub_sub, hback, hlen, if_neg hnear, if_neg hroom]
    refine ⟨_, rfl, ⟨rfl, ?_, ?_, ?_, ?_⟩, ?_, List.range' st.dpAddr length, rfl, ?_⟩
    · simp only [Cursor.advance]
      omega
    · simp only [Cursor.advance]
      omega
    · simp only [Cursor.advance, extend]
      rw [length_copyBack hpos (by rw [hat.length_eq]; exact hrch), hat.length_eq]
    · rw [copyPhrase_eq _ (by omega), hdpAddr, ← hat.length_eq]
      exact segment_copyForward hat.segment hpos (by rw [hat.length_eq]; exact hrch) length
    · intro i hi
      rw [copyPhrase_eq _ (by omega)]
      exact copyForward_outside (by omega)
    · intro i hi
      obtain ⟨hlow, hhigh⟩ := mem_range'_1.mp hi
      omega

end

/-! ### Reading a sub-block -/

/-- The rest of a sub-block from inside a tag: its tokens that are left, then the other tags. -/
def resume (src : ℕ → UInt8) (sb : SbBounds) (fuel left tag : ℕ) (st : SbState) : SbState × Bool :=
  match parseTokens src sb left tag st with
  | (st, true) => parseTags src sb fuel st
  | (st, false) => (st, false)

section

variable {src : ℕ → UInt8} {sb : SbBounds} {st : SbState} {cursor next : Cursor} {out : List UInt8}
  {fuel left : ℕ}

theorem parseTags_eq_resume (st : SbState) (tag : ℕ) :
    parseTags src sb fuel st = resume src sb fuel 0 tag st := rfl

theorem resume_of_next {tag : ℕ} {st' : SbState} (htok : parseToken src sb tag st = (st', .next)) :
    resume src sb fuel (left + 1) tag st = resume src sb fuel left (tag / 2) st' := by
  unfold resume
  rw [parseTokens, htok, Nat.shiftRight_one]

theorem resume_of_leave {tag : ℕ} (hleave : sb.cbSbEnd ≤ st.cb ∨ sb.dpSbEnd < st.dpAddr) :
    resume src sb fuel left tag st = parseTags src sb fuel st := by
  cases left with
  | zero => rfl
  | succ left =>
    have htok : parseToken src sb tag st = (st, .leave) := if_pos hleave
    unfold resume
    rw [parseTokens, htok]

theorem parseTags_of_past (hne : st.cb ≠ sb.cbSbEnd)
    (hpast : sb.cbSbEnd < st.cb ∨ sb.dpSbEnd < st.dpAddr) :
    parseTags src sb fuel st = (st, false) := by
  cases fuel with
  | zero => rfl
  | succ fuel => rw [parseTags, if_neg hne, if_pos hpast]

theorem resume_load (hat : StandsAt sb st cursor out) (hin : cursor.pos < sb.cbSbEnd)
    (hprod : cursor.produced ≤ sbSize) (hfuel : sb.cbSbEnd < cursor.pos + fuel) :
    ∃ st' fuel', resume src sb fuel cursor.left cursor.tag st =
        resume src sb fuel' (cursor.load src).left (cursor.load src).tag st' ∧
      StandsAt sb st' (cursor.load src) out ∧ Inside sb st st' ∧
      sb.cbSbEnd < (cursor.load src).pos + fuel' ∧ (cursor.load src).left ≠ 0 := by
  unfold Cursor.load
  split_ifs with hleft
  · obtain ⟨fuel, rfl⟩ : ∃ rest, fuel = rest + 1 := Nat.exists_eq_succ_of_ne_zero (by omega)
    have hcb := hat.cb_eq
    have hmore : ¬ st.cb = sb.cbSbEnd := by omega
    have hgoes : ¬ (sb.cbSbEnd < st.cb ∨ sb.dpSbEnd < st.dpAddr) := fun h =>
      hat.goes hin hprod (h.imp_left Nat.le_of_lt)
    refine ⟨{ st with cb := st.cb + 1 }, fuel, ?_,
      ⟨?_, hat.dpAddr_eq, hat.destOfs_eq, hat.length_eq, hat.segment⟩,
        ⟨fun _ _ => rfl, [], by simp⟩, by dsimp only; omega,
      Nat.succ_ne_zero 7⟩
    · rw [hleft, ← parseTags_eq_resume, parseTags, if_neg hmore, if_neg hgoes, hcb]
      rfl
    · rw [hcb]
  · exact ⟨st, fuel, rfl, hat, Inside.refl sb st, hfuel, hleft⟩

/-- Assumes: a state before a token, and enough fuel. It moves behind the token. -/
theorem resume_step {token : Token UInt8} (hat : StandsAt sb st cursor out)
    (hstep : Step src sb.cbSbEnd cursor token next) (hprod : cursor.produced ≤ sbSize)
    (hfuel : sb.cbSbEnd < cursor.pos + fuel) :
    ∃ st' fuel', resume src sb fuel cursor.left cursor.tag st =
      resume src sb fuel' next.left next.tag st' ∧ StandsAt sb st' next (extend out token) ∧
      Inside sb st st' ∧ sb.cbSbEnd < next.pos + fuel' := by
  have hbef : cursor.pos < sb.cbSbEnd := (cursor.le_pos_load src).trans_lt hstep.inside
  obtain ⟨loaded, fuel', hload, hatLoaded, hsame, hfuel', hleft⟩ :=
    @resume_load src sb st cursor out fuel hat hbef hprod hfuel
  obtain ⟨left, hsucc⟩ := Nat.exists_eq_succ_of_ne_zero hleft
  have hfits : Fits (cursor.load src).produced ((cursor.load src).token src) := by
    rw [hstep.token_eq, Cursor.produced_load]
    exact hstep.fits
  obtain ⟨st', htok, hatNext, hin⟩ := parseToken_of_fits hatLoaded hstep.inside
    (by rwa [Cursor.produced_load]) hfits
  rw [hstep.token_eq, ← hstep.next_eq] at hatNext
  have hnext : next.left = left ∧ next.tag = (cursor.load src).tag / 2 ∧
      (cursor.load src).pos ≤ next.pos := by
    rw [hstep.next_eq]
    cases token <;> exact ⟨by simp only [Cursor.advance, hsucc]; rfl, rfl, Nat.le_add_right ..⟩
  refine ⟨st', fuel', ?_, hatNext, hsame.trans hin, by omega⟩
  rw [hload, hsucc, resume_of_next htok, hnext.1, hnext.2.1]

/-- Assumes: a state at the start of a sub-block, and enough fuel. It moves behind tokens that can
be read one after the other, and the page holds what they stand for. -/
theorem resume_reads {start : Cursor} {tokens : List (Token UInt8)}
    (hrds : Reads src sb.cbSbEnd start tokens cursor) (hat : StandsAt sb st start [])
    (hfuel : sb.cbSbEnd < start.pos + fuel) :
    ∃ st' fuel', resume src sb fuel start.left start.tag st =
      resume src sb fuel' cursor.left cursor.tag st' ∧ StandsAt sb st' cursor (expand tokens) ∧
      Inside sb st st' ∧ sb.cbSbEnd < cursor.pos + fuel' := by
  induction hrds with
  | start => exact ⟨st, fuel, rfl, hat, Inside.refl sb st, hfuel⟩
  | concat hrds hstep ih =>
    obtain ⟨st', fuel', hrun, hat', hin, hfuel'⟩ := ih
    obtain ⟨st'', fuel'', hrun', hat'', hin', hfuel''⟩ :=
      resume_step hat' hstep (hrds.produced_le hat.length_eq.symm) hfuel'
    rw [← expand_concat] at hat''
    exact ⟨st'', fuel'', hrun.trans hrun', hat'', hin.trans hin', hfuel''⟩

theorem resume_end (hat : StandsAt sb st cursor out)
    (hend : cursor.pos = sb.cbSbEnd ∨ (cursor.load src).pos = sb.cbSbEnd)
    (hprod : cursor.produced ≤ sbSize) (hfuel : sb.cbSbEnd < cursor.pos + fuel) :
    ∃ st', resume src sb fuel cursor.left cursor.tag st = (fillSb sb st', true) ∧
      (∃ cursor', StandsAt sb st' cursor' out ∧ cursor'.produced = cursor.produced ∧
        cursor'.pos = sb.cbSbEnd) ∧ Inside sb st st' := by
  have hhere : ∀ {cursor : Cursor} {st : SbState} {fuel : ℕ}, StandsAt sb st cursor out →
      cursor.pos = sb.cbSbEnd → sb.cbSbEnd < cursor.pos + fuel →
      resume src sb fuel cursor.left cursor.tag st = (fillSb sb st, true) := by
    intro cursor st fuel hat hend hfuel
    have hcb : st.cb = sb.cbSbEnd := hat.cb_eq.trans hend
    obtain ⟨fuel, rfl⟩ : ∃ rest, fuel = rest + 1 := Nat.exists_eq_succ_of_ne_zero (by omega)
    rw [resume_of_leave (.inl hcb.ge), parseTags, if_pos hcb]
  by_cases hpos : cursor.pos = sb.cbSbEnd
  · exact ⟨st, hhere hat hpos hfuel, ⟨cursor, hat, rfl, hpos⟩, Inside.refl sb st⟩
  · have hload := hend.resolve_left hpos
    have hbef : cursor.pos < sb.cbSbEnd :=
      lt_of_le_of_ne ((cursor.le_pos_load src).trans_eq hload) hpos
    obtain ⟨st', fuel', hrun, hat', hin, hfuel', -⟩ :=
      @resume_load src sb st cursor out fuel hat hbef hprod hfuel
    exact ⟨st', hrun.trans (hhere hat' hload hfuel'),
      ⟨_, hat', cursor.produced_load src, hload⟩, hin⟩

theorem fillSb_spec (hat : StandsAt sb st cursor out) :
    (fillSb sb st).destOfs = sb.doSbStart + max cursor.produced sbSize ∧ (fillSb sb st).cb = st.cb ∧
      Segment (fillSb sb st).page sb.doSbStart (out ++ List.replicate (sbSize - out.length) 0) ∧
      Inside sb st (fillSb sb st) := by
  have hdpAddr := hat.dpAddr_eq
  have hdestOfs := hat.destOfs_eq
  have hlen := hat.length_eq
  have hend : sb.dpSbEnd = sb.doSbStart + sbSize := rfl
  have hend' : sb.doSbEnd = sb.doSbStart + sbSize := rfl
  unfold fillSb
  split_ifs with hshort
  · refine ⟨by dsimp only; omega, rfl, (segment_append ..).mpr ⟨?_, ?_⟩, ?_, _, rfl, ?_⟩
    · exact hat.segment.transfer fun i hi => if_neg (by omega)
    · exact segment_replicate fun i hi => if_pos (by omega)
    · intro i hi
      exact if_neg (by omega)
    · intro i hi
      obtain ⟨hlow, hhigh⟩ := mem_range'_1.mp hi
      omega
  · have hfull : sbSize - out.length = 0 := by omega
    rw [hfull, replicate_zero, append_nil]
    exact ⟨by omega, rfl, hat.segment, Inside.refl sb st⟩

/-- Assumes: a state at the first token of a sub-block, tokens up to its end or to a last tag, and
enough fuel. The sub-block is decoded, and the page holds what it stands for. -/
theorem parseTags_of_reads {tokens : List (Token UInt8)}
    (hrds : Reads src sb.cbSbEnd ⟨0, 0, st.cb, 0⟩ tokens cursor)
    (hend : cursor.pos = sb.cbSbEnd ∨ (cursor.load src).pos = sb.cbSbEnd)
    (hdpAddr : st.dpAddr = sb.doSbStart) (hdestOfs : st.destOfs = sb.doSbStart)
    (hfuel : sb.cbSbEnd < st.cb + fuel) : ∃ st', parseTags src sb fuel st = (st', true) ∧
      st'.cb = sb.cbSbEnd ∧ st'.destOfs = sb.doSbEnd ∧
      Segment st'.page sb.doSbStart (SubBlock.compressed tokens).contents ∧ Inside sb st st' := by
  have hat : StandsAt sb st ⟨0, 0, st.cb, 0⟩ [] := ⟨rfl, hdpAddr, hdestOfs, rfl, trivial⟩
  have hprod := hrds.produced_le rfl
  obtain ⟨read, fuel', hrun, hatRead, hin, hfuel'⟩ := resume_reads hrds hat hfuel
  obtain ⟨last, hclose, ⟨cursor', hatLast, hsame, hpos⟩, hin'⟩ :=
    resume_end hatRead hend hprod hfuel'
  obtain ⟨hfil, hcb, hseg, hin''⟩ := fillSb_spec hatLast
  rw [hsame, Nat.max_eq_right hprod] at hfil
  refine ⟨fillSb sb last, ?_, ?_, hfil, hseg, (hin.trans hin').trans hin''⟩
  · rw [parseTags_eq_resume st 0, hrun, hclose]
  · rw [hcb, hatLast.cb_eq, hpos]

end

/-! ### Between sub-blocks -/

section

variable {job : Job} {st : JobState}

theorem and_sizeMask (header : ℕ) : header &&& 0x0fff = header % 2 ^ 12 :=
  Nat.and_two_pow_sub_one_eq_mod header 12

theorem and_isCompressed_eq_zero {header : ℕ} (hhdr : header < 2 ^ 16) :
    header &&& 0x8000 = 0 ↔ header < 2 ^ 15 := by
  rw [show 0x8000 = 2 ^ 15 from rfl, Nat.and_two_pow, Nat.testBit_eq_decide_div_mod_eq,
    Nat.mul_eq_zero, Bool.toNat_eq_zero, decide_eq_false_iff_not]
  omega

def checked (st : JobState) : JobState :=
  { st with log := st.log ++ [.subBlock st.destOfs, .entry st.destIndex] }

def copied (job : Job) (st : JobState) : JobState :=
  { checked st with
    cb := st.cb + 2 + sbSize
    mem := update st.mem st.destIndex
      (memcpy (st.mem st.destIndex) st.destOfs job.cbStart (st.cb + 2) sbSize)
    log := (checked st).log ++ (List.range' st.destOfs sbSize).map (Access.store st.destIndex) }

def parseSb (job : Job) (st : JobState) : SbState × Bool :=
  parseTags job.cbStart ⟨sbEnd job.cbStart st.cb, st.destOfs⟩ (sbEnd job.cbStart st.cb - st.cb)
    ⟨st.cb + 2, st.destOfs, st.destOfs, st.mem st.destIndex, []⟩

/-- The state behind the tokens of a sub-block, when decoding it has left `out`. -/
def decoded (st : JobState) (out : SbState) : JobState :=
  { checked st with
    cb := out.cb
    destOfs := out.destOfs
    mem := update st.mem st.destIndex out.page
    log := (checked st).log ++ out.stores.map (Access.store st.destIndex) }

theorem doSb_of_rejected
    (hnot : ¬ (¬ (st.destIndex = job.destMaxIndex ∧ job.destMaxOfs < st.destOfs + sbSize) ∧
      st.cb + 6 ≤ job.cbSize ∧ sbEnd job.cbStart st.cb ≤ job.cbSize)) :
    doSb job st = ({ st with log := st.log ++ [.subBlock st.destOfs] }, false) := by
  unfold doSb
  dsimp only
  split_ifs with hdest hroom hend
  · rfl
  · rfl
  · rfl
  all_goals
    rw [and_sizeMask] at hend
    exact absurd ⟨hdest, not_lt.mp hroom, not_lt.mp hend⟩ hnot

section

variable (hfits : ¬ (st.destIndex = job.destMaxIndex ∧ job.destMaxOfs < st.destOfs + sbSize))
  (hroom : st.cb + 6 ≤ job.cbSize) (hend : sbEnd job.cbStart st.cb ≤ job.cbSize)

include hfits hroom hend

theorem doSb_eq :
    doSb job st =
      if job.present st.destIndex = false then skipSb job (checked st) (sbEnd job.cbStart st.cb)
      else if le16 job.cbStart st.cb < 2 ^ 15 then
        copySb job (checked st) (sbEnd job.cbStart st.cb)
      else decodeSb job (checked st) (sbEnd job.cbStart st.cb) := by
  have hmask : st.cb + (le16 job.cbStart st.cb &&& 0x0fff) + 3 = sbEnd job.cbStart st.cb := by
    rw [and_sizeMask]
    rfl
  unfold doSb
  dsimp only
  rw [if_neg hfits, if_neg (by omega), hmask, if_neg (by omega)]
  simp only [append_assoc, and_isCompressed_eq_zero (le16_lt job.cbStart st.cb)]
  rfl

variable (hpresent : job.present st.destIndex = true)

include hpresent

theorem doSb_of_stored (hflag : le16 job.cbStart st.cb < 2 ^ 15) :
    doSb job st = if sbEnd job.cbStart st.cb = st.cb + 2 + sbSize then
        finishSb job (copied job st) (st.destOfs + sbSize)
      else ({ checked st with cb := st.cb + 2 }, false) := by
  have hsize : ¬ (sbEnd job.cbStart st.cb - ((checked st).cb + 2) ≠ sbSize) ↔
      sbEnd job.cbStart st.cb = st.cb + 2 + sbSize := by
    dsimp only [checked, sbSize]
    omega
  rw [doSb_eq hfits hroom hend, if_neg (by rw [hpresent]; exact Bool.noConfusion), if_pos hflag,
    copySb, ← ite_not]
  exact if_congr hsize rfl rfl

theorem doSb_of_compressed (hflag : 2 ^ 15 ≤ le16 job.cbStart st.cb) {out : SbState} {ok : Bool}
    (hpars : parseSb job st = (out, ok)) :
    doSb job st = if ok then finishSb job (decoded st out) out.destOfs else
      (decoded st out, false) := by
  rw [doSb_eq hfits hroom hend, if_neg (by rw [hpresent]; exact Bool.noConfusion),
    if_neg (not_lt.mpr hflag), decodeSb]
  dsimp only [checked]
  rw [show parseTags .. = (out, ok) from hpars]
  rfl

end

theorem finishSb_of_full {destOfs : ℕ} (hofs : destOfs = sbSize) (st : JobState) :
    finishSb job st destOfs = ({ st with
        destIndex := st.destIndex + 1
        destOfs := 0
        completed := st.completed ++ [st.destIndex] },
        decide (st.destIndex + 1 ≤ job.destMaxIndex)) := by
  subst hofs
  rfl

theorem parseSb_of_reads {tokens : List (Token UInt8)} {cursor : Cursor}
    (hrds : Reads job.cbStart (sbEnd job.cbStart st.cb) (firstToken st.cb) tokens cursor)
    (hend : cursor.pos = sbEnd job.cbStart st.cb ∨ (cursor.load job.cbStart).pos =
      sbEnd job.cbStart st.cb) :
    ∃ out, parseSb job st = (out, true) ∧ out.cb = sbEnd job.cbStart st.cb ∧
      out.destOfs = st.destOfs + sbSize ∧
      Segment out.page st.destOfs (SubBlock.compressed tokens).contents := by
  obtain ⟨out, hpars, hcb, hdest, hseg, -⟩ := @parseTags_of_reads job.cbStart
    ⟨sbEnd job.cbStart st.cb, st.destOfs⟩ ⟨st.cb + 2, st.destOfs, st.destOfs,
      st.mem st.destIndex, []⟩
    cursor (sbEnd job.cbStart st.cb - st.cb) tokens hrds hend rfl rfl (by dsimp only; omega)
  exact ⟨out, hpars, hcb, hdest, hseg⟩

theorem doSbs_induction {R : JobState → JobState → Prop} (hrefl : ∀ st, R st st)
    (htrans : ∀ {first second third}, R first second → R second third → R first third)
    (hstep : ∀ st, ¬ AtEnd job st → R st (doSb job st).1) (fuel : ℕ) (st : JobState) :
    R st (doSbs job fuel st).1 := by
  induction fuel generalizing st with
  | zero => exact hrefl st
  | succ fuel ih =>
    rw [doSbs]
    split_ifs with hend
    · exact hrefl st
    · have hnext := hstep st hend
      rcases hdo : doSb job st with ⟨next, ok⟩
      rw [hdo] at hnext
      cases ok with
      | true => exact htrans hnext (ih next)
      | false => exact hnext

/-- The state behind a sub-block whose page is complete. -/
structure Completes (st st' : JobState) (stop : ℕ) : Prop where
  cb_eq : st'.cb = stop
  destIndex_eq : st'.destIndex = st.destIndex + 1
  destOfs_eq : st'.destOfs = 0
  completed_eq : st'.completed = st.completed ++ [st.destIndex]
  mem_eq : ∀ i, i ≠ st.destIndex → st'.mem i = st.mem i

theorem doSb_of_isSubBlock {stop : ℕ} {block : SubBlock}
    (hblk : IsSubBlock job.cbStart st.cb stop block) (hofs : st.destOfs = 0)
    (hidx : st.destIndex < job.destMaxIndex) (hpresent : job.present st.destIndex = true)
    (hroom : st.cb + 6 ≤ job.cbSize) (hend : stop ≤ job.cbSize) :
    ∃ st', doSb job st = (st', true) ∧ Completes st st' stop ∧
      Segment (st'.mem st.destIndex) 0 block.contents := by
  have hstop := hblk.stop_eq
  subst hstop
  have hnext : decide (st.destIndex + 1 ≤ job.destMaxIndex) = true := decide_eq_true hidx
  have hfits : ¬ (st.destIndex = job.destMaxIndex ∧ job.destMaxOfs < st.destOfs + sbSize) :=
    fun h =>
    hidx.ne h.1
  have hfull : st.destOfs + sbSize = sbSize := by rw [hofs, Nat.zero_add]
  cases block with
  | stored data =>
    obtain ⟨hflag, -, hsize, hlen, hdata⟩ := hblk
    rw [doSb_of_stored hfits hroom hend hpresent hflag, if_pos hsize, finishSb_of_full hfull]
    refine ⟨_, Prod.ext rfl hnext, ⟨hsize.symm, rfl, rfl, rfl, fun i hi => ?_⟩, ?_⟩
    · exact update_of_ne hi _ _
    · have hcopy : Segment (memcpy (st.mem st.destIndex) st.destOfs job.cbStart (st.cb + 2) sbSize)
          (st.cb + 2 - (st.cb + 2) + st.destOfs) data :=
        hdata.memcpy_inside (Nat.le_refl _) (by rw [hlen])
      rw [Nat.sub_self, hofs] at hcopy
      dsimp only [copied]
      rw [update_self, hofs]
      exact hcopy
  | compressed tokens =>
    obtain ⟨hflag, -, -, cursor, hrds, hpos⟩ := hblk
    obtain ⟨out, hpars, hcb, hdest, hseg⟩ := parseSb_of_reads hrds (.inl hpos)
    rw [doSb_of_compressed hfits hroom hend hpresent hflag hpars, if_pos rfl,
      finishSb_of_full (hdest.trans hfull)]
    refine ⟨_, Prod.ext rfl hnext, ⟨hcb, rfl, rfl, rfl, fun i hi => ?_⟩, ?_⟩
    · exact update_of_ne hi _ _
    · dsimp only [decoded]
      rw [update_self]
      exact hofs ▸ hseg

/-- What the loop leaves when it has gone over the given sub-blocks. -/
structure Covers (st st' : JobState) (blocks : List SubBlock) : Prop where
  destIndex_eq : st'.destIndex = st.destIndex + blocks.length
  destOfs_eq : st'.destOfs = 0
  completed_eq : st'.completed = st.completed ++ List.range' st.destIndex blocks.length
  segment : ∀ i (hi : i < blocks.length),
    Segment (st'.mem (st.destIndex + i)) 0 (blocks.get ⟨i, hi⟩).contents
  mem_eq : ∀ i, i < st.destIndex ∨ st.destIndex + blocks.length ≤ i → st'.mem i = st.mem i

theorem Completes.covers {middle last : JobState} {stop : ℕ} {block : SubBlock}
    {blocks : List SubBlock} (hfst : Completes st middle stop)
    (hseg : Segment (middle.mem st.destIndex) 0 block.contents)
    (hrest : Covers middle last blocks) : Covers st last (block :: blocks) where
  destIndex_eq := by
    rw [hrest.destIndex_eq, hfst.destIndex_eq, length_cons]
    omega
  destOfs_eq := hrest.destOfs_eq
  completed_eq := by
    rw [hrest.completed_eq, hfst.completed_eq, hfst.destIndex_eq, append_assoc,
      length_cons, List.range'_succ, singleton_append]
  segment i hi := by
    cases i with
    | zero =>
      rw [hrest.mem_eq _ (.inl (by rw [hfst.destIndex_eq]; omega))]
      exact hseg
    | succ i =>
      have hlat := hrest.segment i (Nat.lt_of_succ_lt_succ hi)
      rwa [hfst.destIndex_eq, Nat.add_assoc, Nat.add_comm 1 i] at hlat
  mem_eq i hi := by
    have hidx := hfst.destIndex_eq
    rw [length_cons] at hi
    rw [hrest.mem_eq i (by omega), hfst.mem_eq i (by omega)]

/-- Assumes: the sub-blocks of a valid compression block, a page for each of them, and enough fuel.
They are followed by a zero header, or their pages are all there are. The loop writes every one to
its page. -/
theorem doSbs_of_areSubBlocks {blocks : List SubBlock} {stop fuel : ℕ}
    (hblks : AreSubBlocks job.cbStart st.cb blocks stop)
    (hzero : le16 job.cbStart stop = 0 ∨ (st.destIndex + blocks.length = job.destMaxIndex ∧
      job.destMaxOfs = 0)) (hleft : stop + 512 ≤ job.cbSize) (hofs : st.destOfs = 0)
    (hpgs : st.destIndex + blocks.length ≤ job.destMaxIndex)
    (hpresent : ∀ i, st.destIndex ≤ i → i < job.destMaxIndex → job.present i = true)
    (hfuel : blocks.length < fuel) : ∃ st', doSbs job fuel st = (st', true) ∧
      Covers st st' blocks := by
  induction blocks generalizing st fuel with
  | nil =>
    obtain ⟨fuel, rfl⟩ : ∃ rest, fuel = rest + 1 := Nat.exists_eq_succ_of_ne_zero (by omega)
    have hcb : st.cb = stop := hblks
    have hend : AtEnd job st := by
      rcases hzero with hzero | ⟨hidx, hmax⟩
      · exact .inr (.inl (by rw [hcb, hzero]))
      · exact .inr (.inr ⟨hidx, hofs.trans hmax.symm⟩)
    refine ⟨st, by rw [doSbs, if_pos hend], ⟨rfl, hofs, ?_, fun i hi => ?_, fun _ _ => rfl⟩⟩
    · exact (append_nil _).symm
    · exact absurd hi (Nat.not_lt_zero i)
  | cons block blocks ih =>
    obtain ⟨fuel, rfl⟩ : ∃ rest, fuel = rest + 1 := Nat.exists_eq_succ_of_ne_zero (by omega)
    obtain ⟨middle, hblk, hrest⟩ := hblks
    have hlow := hblk.stop_eq
    unfold sbEnd at hlow
    have hhigh := hrest.add_length_le
    rw [length_cons] at hpgs hfuel
    have hgoes : ¬ AtEnd job st := by
      rintro (hcb | hhdr | ⟨hidx, -⟩)
      · omega
      · exact hblk.le16_ne_zero hhdr
      · omega
    obtain ⟨st', hdo, hcomp, hseg⟩ := doSb_of_isSubBlock hblk hofs (by omega)
      (hpresent _ le_rfl (by omega)) (by omega) (by omega)
    have hidx := hcomp.destIndex_eq
    obtain ⟨last, hloop, hcov⟩ := ih (hcomp.cb_eq ▸ hrest)
      (hzero.imp_right fun h => ⟨by rw [length_cons] at h; omega, h.2⟩) hcomp.destOfs_eq
      (by omega)
      (fun i hi => hpresent i (by omega)) (show blocks.length < fuel by omega)
    refine ⟨last, ?_, hcomp.covers hseg hcov⟩
    rw [doSbs, if_neg hgoes, hdo]
    exact hloop

end

/-! ### The second stage -/

theorem handleBoundsCompressedPage_apply (index : ℕ) (bytes : ℕ → UInt8) (iSize initializedSize : ℕ)
    {offset : ℕ} (hofs : offset < 4096) :
    handleBoundsCompressedPage index bytes iSize initializedSize offset =
      if initializedSize < iSize ∧ initializedSize ≤ index * 4096 + offset then 0
      else bytes offset := by
  unfold handleBoundsCompressedPage zeroPartialCompressedPage
  by_cases hbd : initializedSize / 4096 ≤ index ∧ initializedSize < iSize
  · rw [if_pos hbd]
    by_cases hall : initializedSize ≤ index * 4096
    · rw [if_pos hall, if_pos hofs, if_pos (by omega)]
    · rw [if_neg hall]
      split_ifs <;> first | rfl | omega
  · rw [if_neg hbd, if_neg (by omega)]

theorem foldl_finalizePage (iSize initializedSize : ℕ) (pages : DestPages) {completed : List ℕ}
    (hnd : completed.Nodup) (i : ℕ) :
    (completed.foldl (finalizePage iSize initializedSize) pages).mem i = (if i ∈ completed then
          handleBoundsCompressedPage (pages.index i) (pages.mem i) iSize initializedSize
        else pages.mem i) ∧
      (completed.foldl (finalizePage iSize initializedSize) pages).uptodate i =
        (decide (i ∈ completed) || pages.uptodate i) ∧
      (completed.foldl (finalizePage iSize initializedSize) pages).held i =
        (decide (i ∉ completed) && pages.held i) := by
  induction completed generalizing pages with
  | nil => simp
  | cons di completed ih =>
    obtain ⟨hnot, hnd⟩ := nodup_cons.mp hnd
    obtain ⟨hmem, hupt, hheld⟩ := ih (finalizePage iSize initializedSize pages di) hnd
    rw [foldl_cons, hmem, hupt, hheld]
    by_cases hi : i = di
    · subst hi
      simp [finalizePage, hnot]
    · simp [finalizePage, hi]

/-! ### Valid compression blocks -/

/-- Assumes: a valid compression block with no more sub-blocks than pages, and all pages present. It
is decompressed: the page of every sub-block holds the bytes it stands for, up to the initialized
size when that is below the size of the file. -/
theorem ntfsDecompress_validBlock (pages : DestPages) (destIndex destMaxIndex destMaxOfs xpage : ℕ)
    (xpageDone : Bool) (cbStart : ℕ → UInt8) (cbSize iSize initializedSize : ℕ)
    (blocks : List SubBlock) (hvalid : ValidBlock cbStart cbSize blocks)
    (hpages : destIndex + blocks.length ≤ destMaxIndex)
    (hpresent : ∀ i, destIndex ≤ i → i < destMaxIndex → pages.held i = true) :
    (ntfsDecompress pages destIndex 0 destMaxIndex destMaxOfs xpage xpageDone cbStart cbSize iSize
        initializedSize).status = .ok () ∧
      ∀ i (hi : i < blocks.length),
        (ntfsDecompress pages destIndex 0 destMaxIndex destMaxOfs xpage xpageDone
        cbStart cbSize iSize
            initializedSize).pages.uptodate (destIndex + i) = true ∧
          ∀ offset < 4096,
            (ntfsDecompress pages destIndex 0 destMaxIndex destMaxOfs xpage xpageDone cbStart cbSize
                iSize initializedSize).pages.mem (destIndex + i) offset =
              if initializedSize < iSize ∧
                initializedSize ≤ pages.index (destIndex + i) * 4096 + offset then 0
              else (blocks.get ⟨i, hi⟩).contents.getD offset 0 := by
  obtain ⟨stop, hblocks, hzero, hleft⟩ := hvalid
  have hfuel := hblocks.add_length_le
  obtain ⟨st, hloop, hcovers⟩ := @doSbs_of_areSubBlocks
    ⟨cbStart, cbSize, destMaxIndex, destMaxOfs, pages.held⟩ ⟨0, destIndex, 0, pages.mem, [], []⟩
    blocks stop (cbSize + 1) hblocks (.inl hzero) hleft rfl hpages hpresent (by omega)
  have hcompleted : st.completed = List.range' destIndex blocks.length := hcovers.completed_eq
  unfold ntfsDecompress
  simp only [hloop]
  refine ⟨rfl, fun i hi => ?_⟩
  have hmem : destIndex + i ∈ st.completed := by
    rw [hcompleted, List.mem_range'_1]
    omega
  obtain ⟨hbytes, huptodate, -⟩ := foldl_finalizePage iSize initializedSize
    { pages with mem := st.mem } (hcompleted ▸ List.nodup_range' ..) (destIndex + i)
  rw [huptodate, hbytes, if_pos hmem]
  refine ⟨by simp [hmem], fun offset hoffset => ?_⟩
  rw [handleBoundsCompressedPage_apply _ _ _ _ hoffset]
  have hsegment : Segment (st.mem (destIndex + i)) 0 (blocks.get ⟨i, hi⟩).contents :=
    hcovers.segment i hi
  have hlength : offset < (blocks.get ⟨i, hi⟩).contents.length := by
    rw [hblocks.length_contents (List.get_mem blocks ⟨i, hi⟩)]
    exact hoffset
  have hbyte := hsegment.getElem hlength
  rw [Nat.zero_add] at hbyte
  rw [List.getD_eq_getElem _ _ hlength, ← hbyte]

/-- A sub-block of six bytes: a literal and a phrase that repeats it five times. -/
def sixBytes (i : ℕ) : UInt8 := [0x03, 0x80, 0x02, 0x61, 0x02, 0x00].getD i 0

theorem validBlock_sixBytes :
    ValidBlock sixBytes 8192 [.compressed [.literal 0x61, .phrase 1 5]] := by
  have hlit : Step sixBytes 6 (firstToken 0) (.literal 0x61) ⟨7, 1, 4, 1⟩ :=
    ⟨by decide, by decide, by simp [Fits, firstToken, sbSize], by decide⟩
  have hphra : Step sixBytes 6 ⟨7, 1, 4, 1⟩ (.phrase 1 5) ⟨6, 0, 6, 6⟩ :=
    ⟨by decide, by simp [Cursor.load, Cursor.token, phraseBack, phraseLength, extraBits, le16,
      sixBytes], by simp [Fits, sbSize], by decide⟩
  have hblk : IsSubBlock sixBytes 0 6 (.compressed [.literal 0x61, .phrase 1 5]) :=
    ⟨by decide, by decide, by simp, _, (Reads.start.concat hlit).concat hphra, rfl⟩
  exact ⟨6, ⟨6, hblk, rfl⟩, by decide, by decide⟩

def twoPages : DestPages := ⟨fun _ => true, id, fun _ _ => 0xff, fun _ => false⟩

/-- The sub-block of six bytes is decompressed. -/
theorem ntfsDecompress_validBlock_sixBytes :
    (ntfsDecompress twoPages 0 0 2 0 0 false sixBytes 8192 8192 8192).status = .ok () ∧
      (ntfsDecompress twoPages 0 0 2 0 0 false sixBytes 8192 8192 8192).pages.mem 0 5 = 0x61 := by
  obtain ⟨hstatus, hpages⟩ :=
    ntfsDecompress_validBlock twoPages 0 2 0 0 false sixBytes 8192 8192 8192
    _ validBlock_sixBytes (by decide) (fun _ _ _ => rfl)
  exact ⟨hstatus, ((hpages 0 (by decide)).2 5 (by decide)).trans (by decide)⟩

end AdvancedOs.Ntfs.Decompression
