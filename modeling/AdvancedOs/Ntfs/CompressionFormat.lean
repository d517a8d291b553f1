import AdvancedOs.Foundation.BackReferences

/-!
# The format of compressed data

A compression block is a sequence of sub-blocks, each for 4096 bytes of the file. A sub-block starts
with a header of 16 bits that holds its size and whether it is compressed. One that is not
compressed holds the 4096 bytes. One that is holds groups of a tag byte and up to eight tokens; the
bits of the tag say which of them are literals and which are phrases. A phrase is 16 bits, and how
many of them give the distance and how many the length depends on how much of the sub-block has been
produced.

`Cursor` is a position between two tokens, `Step` the token read there, and `Reads` a sequence of
them that stays inside the 4096 bytes. `IsSubBlock` and `ValidBlock` say which bytes are a sub-block
and a compression block, and `SubBlock.contents` is what a sub-block stands for. Sub-blocks depend
on nothing but the bytes before their end (`AreSubBlocks.congr`).
-/

namespace AdvancedOs.Ntfs.CompressionFormat

open Foundation.ArraySegments Foundation.BackReferences List

def le16 (bytes : ℕ → UInt8) (i : ℕ) : ℕ := (bytes i).toNat + 2 ^ 8 * (bytes (i + 1)).toNat

theorem le16_lt (bytes : ℕ → UInt8) (i : ℕ) : le16 bytes i < 2 ^ 16 := by
  have hlow := (bytes i).toNat_lt
  have hhigh := (bytes (i + 1)).toNat_lt
  unfold le16
  omega

/-- The bytes a sub-block stands for: `NTFS_SB_SIZE`. -/
def sbSize : ℕ := 4096

/-! ### Tokens -/

/-- The bits of a distance beyond the least four. There are as many as the last byte produced has in
its offset. -/
def extraBits (produced : ℕ) : ℕ := (produced - 1).size - 4

def phraseBack (produced word : ℕ) : ℕ := word / 2 ^ (12 - extraBits produced) + 1

def phraseLength (produced word : ℕ) : ℕ := word % 2 ^ (12 - extraBits produced) + 3

/-- A position between two tokens of a sub-block: how many tokens of the current tag are left, their
bits, where the next byte is, and how much has been produced. -/
structure Cursor where
  left : ℕ
  tag : ℕ
  pos : ℕ
  produced : ℕ
deriving DecidableEq, Repr

namespace Cursor

variable (bytes : ℕ → UInt8) (cursor : Cursor)

/-- The position at the next token itself, behind a new tag if there is one in between. -/
def load : Cursor :=
  if cursor.left = 0 then ⟨8, (bytes cursor.pos).toNat, cursor.pos + 1, cursor.produced⟩ else cursor

def token : Token UInt8 :=
  if cursor.tag % 2 = 0 then .literal (bytes cursor.pos)
  else .phrase (phraseBack cursor.produced (le16 bytes cursor.pos))
    (phraseLength cursor.produced (le16 bytes cursor.pos))

def advance : Token UInt8 → Cursor
  | .literal _ => ⟨cursor.left - 1, cursor.tag / 2, cursor.pos + 1, cursor.produced + 1⟩
  | .phrase _ length => ⟨cursor.left - 1, cursor.tag / 2, cursor.pos + 2, cursor.produced + length⟩

@[simp] theorem produced_load : (cursor.load bytes).produced = cursor.produced := by
  unfold load
  split_ifs <;> rfl

end Cursor

/-- The token refers to what has been produced, and what it produces belongs to the sub-block. -/
def Fits (produced : ℕ) : Token UInt8 → Prop
  | .literal _ => produced < sbSize
  | .phrase back length => back ≤ produced ∧ produced + length ≤ sbSize

/-- The token between two positions of a sub-block that ends at `stop`. -/
structure Step (bytes : ℕ → UInt8) (stop : ℕ) (cursor : Cursor) (token : Token UInt8)
    (next : Cursor) : Prop where
  inside : (cursor.load bytes).pos < stop
  token_eq : (cursor.load bytes).token bytes = token
  fits : Fits cursor.produced token
  next_eq : next = (cursor.load bytes).advance token

/-- The tokens between two positions of a sub-block that ends at `stop`. -/
inductive Reads (bytes : ℕ → UInt8) (stop : ℕ) (start : Cursor) : List (Token UInt8) → Cursor → Prop
  | start : Reads bytes stop start [] start
  | concat {tokens : List (Token UInt8)} {cursor next : Cursor} {token : Token UInt8}
    (reads : Reads bytes stop start tokens cursor) (step : Step bytes stop cursor token next) :
    Reads bytes stop start (tokens ++ [token]) next

section

variable {bytes : ℕ → UInt8} {stop : ℕ} {start cursor next : Cursor} {tokens : List (Token UInt8)}
  {token : Token UInt8}

theorem Step.length_extend (hstep : Step bytes stop cursor token next) {out : List UInt8}
    (hout : out.length = cursor.produced) : (extend out token).length = next.produced := by
  have hload := cursor.produced_load bytes
  cases token with
  | literal item =>
    rw [hstep.next_eq, extend, length_append, hout]
    simp only [Cursor.advance, hload, length_singleton]
  | phrase back length =>
    have hfits := hstep.fits
    have hback : 1 ≤ back := by
      have htok := hstep.token_eq
      unfold Cursor.token at htok
      split_ifs at htok
      obtain ⟨hback, -⟩ := Token.phrase.inj htok
      rw [← hback]
      exact Nat.le_add_left _ _
    rw [hstep.next_eq, extend, length_copyBack hback (hout ▸ hfits.1), hout]
    simp only [Cursor.advance, hload]

theorem Step.produced_le (hstep : Step bytes stop cursor token next) : next.produced ≤ sbSize := by
  have hload := cursor.produced_load bytes
  have hfits := hstep.fits
  rw [hstep.next_eq]
  cases token with
  | literal item =>
    simp only [Cursor.advance, hload]
    exact hfits
  | phrase back length =>
    simp only [Cursor.advance, hload]
    exact hfits.2

theorem Reads.length_expand (hrds : Reads bytes stop start tokens cursor)
    (hst : start.produced = 0) : (expand tokens).length = cursor.produced := by
  induction hrds with
  | start => exact hst.symm
  | concat _ hstep ih => rw [expand_concat, hstep.length_extend ih]

theorem Reads.produced_le (hrds : Reads bytes stop start tokens cursor)
    (hst : start.produced = 0) : cursor.produced ≤ sbSize := by
  cases hrds with
  | start => exact hst ▸ Nat.zero_le _
  | concat _ hstep => exact hstep.produced_le

end

/-! ### Sub-blocks and compression blocks -/

/-- A sub-block: 4096 bytes as they are, or tokens. -/
inductive SubBlock where
  | stored (data : List UInt8)
  | compressed (tokens : List (Token UInt8))

/-- The 4096 bytes a sub-block stands for. What the tokens leave is zero. -/
def SubBlock.contents : SubBlock → List UInt8
  | .stored data => data
  | .compressed tokens => expand tokens ++ List.replicate (sbSize - (expand tokens).length) 0

/-- Where the sub-block with its header at `start` ends. -/
def sbEnd (bytes : ℕ → UInt8) (start : ℕ) : ℕ := start + le16 bytes start % 2 ^ 12 + 3

def firstToken (start : ℕ) : Cursor := ⟨0, 0, start + 2, 0⟩

/-- The bytes from `start` up to `stop` are the sub-block. The top bit of its header says whether it
is compressed. -/
def IsSubBlock (bytes : ℕ → UInt8) (start stop : ℕ) : SubBlock → Prop
  | .stored data => le16 bytes start < 2 ^ 15 ∧ stop = sbEnd bytes start ∧
      stop = start + 2 + sbSize ∧ data.length = sbSize ∧ Segment bytes (start + 2) data
  | .compressed tokens => 2 ^ 15 ≤ le16 bytes start ∧ stop = sbEnd bytes start ∧ tokens ≠ [] ∧
      ∃ cursor, Reads bytes stop (firstToken start) tokens cursor ∧ cursor.pos = stop

/-- The bytes from `start` up to `stop` are the sub-blocks. -/
def AreSubBlocks (bytes : ℕ → UInt8) : ℕ → List SubBlock → ℕ → Prop
  | start, [], stop => start = stop
  | start, block :: rest, stop =>
      ∃ middle, IsSubBlock bytes start middle block ∧ AreSubBlocks bytes middle rest stop

/-- The compression block of `cbSize` bytes consists of the sub-blocks and a zero header, which has
at least 512 bytes of the block left. -/
def ValidBlock (bytes : ℕ → UInt8) (cbSize : ℕ) (blocks : List SubBlock) : Prop :=
  ∃ stop, AreSubBlocks bytes 0 blocks stop ∧ le16 bytes stop = 0 ∧ stop + 512 ≤ cbSize

variable {bytes : ℕ → UInt8} {start stop : ℕ}

variable {block : SubBlock} {blocks : List SubBlock} {cursor : Cursor}

theorem IsSubBlock.length_contents (hblk : IsSubBlock bytes start stop block) :
    block.contents.length = sbSize := by
  cases block with
  | stored data => exact hblk.2.2.2.1
  | compressed tokens =>
    obtain ⟨-, -, -, cursor, hrds, -⟩ := hblk
    have hle := hrds.produced_le rfl
    rw [SubBlock.contents, length_append, length_replicate, hrds.length_expand rfl]
    omega

theorem AreSubBlocks.length_contents (hblks : AreSubBlocks bytes start blocks stop)
    (hblk : block ∈ blocks) : block.contents.length = sbSize := by
  induction blocks generalizing start with
  | nil => cases hblk
  | cons first rest ih =>
    obtain ⟨middle, hfst, hrest⟩ := hblks
    rcases List.mem_cons.mp hblk with rfl | hlat
    · exact hfst.length_contents
    · exact ih hrest hlat

theorem IsSubBlock.le16_ne_zero (hblk : IsSubBlock bytes start stop block) :
    le16 bytes start ≠ 0 := by
  cases block with
  | stored data =>
    obtain ⟨-, hend, hsize, -⟩ := hblk
    unfold sbEnd sbSize at *
    omega
  | compressed tokens =>
    have hbit := hblk.1
    omega

theorem IsSubBlock.stop_eq (hblk : IsSubBlock bytes start stop block) :
    stop = sbEnd bytes start := by
  cases block with
  | stored data => exact hblk.2.1
  | compressed tokens => exact hblk.2.1

theorem AreSubBlocks.add_length_le (hblks : AreSubBlocks bytes start blocks stop) :
    start + 3 * blocks.length ≤ stop := by
  induction blocks generalizing start with
  | nil => exact Nat.le_of_eq hblks
  | cons block blocks ih =>
    obtain ⟨middle, hblk, hrest⟩ := hblks
    have hle := ih hrest
    have hend := hblk.stop_eq
    unfold sbEnd at hend
    rw [length_cons]
    omega

/-! ### Bytes that are read -/

section

variable {bytes other : ℕ → UInt8} {start stop : ℕ}

theorem Cursor.pos_lt_advance (cursor : Cursor) (token : Token UInt8) :
    cursor.pos < (cursor.advance token).pos := by
  cases token <;> simp [Cursor.advance]

theorem Cursor.le_pos_load (bytes : ℕ → UInt8) (cursor : Cursor) :
    cursor.pos ≤ (cursor.load bytes).pos := by
  unfold Cursor.load
  split_ifs
  · exact Nat.le_succ _
  · exact Nat.le_refl _

theorem le16_congr (hsame : ∀ i < stop, other i = bytes i) {i : ℕ} (hi : i + 1 < stop) :
    le16 other i = le16 bytes i := by
  unfold le16
  rw [hsame i (by omega), hsame (i + 1) hi]

/-- A token that ends before `stop` is read from the bytes before it. -/
theorem Step.congr {next : Cursor} {token : Token UInt8} (hstep : Step bytes stop cursor token next)
    (hnext : next.pos ≤ stop) (hsame : ∀ i < stop, other i = bytes i) :
    Step other stop cursor token next := by
  have hin := hstep.inside
  have hload : cursor.load other = cursor.load bytes := by
    unfold Cursor.load at hin ⊢
    split_ifs with hleft
    · rw [if_pos hleft] at hin
      rw [hsame cursor.pos (Nat.lt_of_succ_lt hin)]
    · rfl
  have htok : (cursor.load bytes).token other = (cursor.load bytes).token bytes := by
    have heq := hstep.token_eq
    rw [hstep.next_eq, ← heq] at hnext
    unfold Cursor.token at hnext ⊢
    split_ifs with htag
    · rw [hsame _ hin]
    · rw [if_neg htag] at hnext
      rw [le16_congr hsame (Nat.lt_of_succ_le hnext)]
  exact ⟨hload ▸ hin, by rw [hload, htok, hstep.token_eq], hstep.fits, by rw [hload, hstep.next_eq]⟩

theorem Reads.congr {first : Cursor} {tokens : List (Token UInt8)}
    (hrds : Reads bytes stop first tokens cursor) (hcur : cursor.pos ≤ stop)
    (hsame : ∀ i < stop, other i = bytes i) : Reads other stop first tokens cursor := by
  induction hrds with
  | start => exact .start
  | @concat tokens cursor next token hrds hstep ih =>
    have hlow := cursor.le_pos_load bytes
    have hadva := (cursor.load bytes).pos_lt_advance token
    rw [← hstep.next_eq] at hadva
    exact .concat (ih (by omega)) (hstep.congr hcur hsame)

/-- A sub-block is read from the bytes before its end. -/
theorem IsSubBlock.congr (hblk : IsSubBlock bytes start stop block)
    (hsame : ∀ i < stop, other i = bytes i) : IsSubBlock other start stop block := by
  have hstop := hblk.stop_eq
  have hhdr : le16 other start = le16 bytes start :=
    le16_congr hsame (by unfold sbEnd at hstop; omega)
  have hend : sbEnd other start = sbEnd bytes start := by
    unfold sbEnd
    rw [hhdr]
  cases block with
  | stored data =>
    obtain ⟨hflag, -, hsize, hlen, hdata⟩ := hblk
    refine ⟨hhdr ▸ hflag, hend ▸ hstop, hsize, hlen, ?_⟩
    exact hdata.transfer fun i hi => hsame _ (by omega)
  | compressed tokens =>
    obtain ⟨hflag, -, htoke, cursor, hrds, hpos⟩ := hblk
    exact ⟨hhdr ▸ hflag, hend ▸ hstop, htoke, cursor, hrds.congr (Nat.le_of_eq hpos) hsame, hpos⟩

theorem AreSubBlocks.le (hblks : AreSubBlocks bytes start blocks stop) : start ≤ stop := by
  have hle := hblks.add_length_le
  omega

theorem AreSubBlocks.congr (hblks : AreSubBlocks bytes start blocks stop)
    (hsame : ∀ i < stop, other i = bytes i) : AreSubBlocks other start blocks stop := by
  induction blocks generalizing start with
  | nil => exact hblks
  | cons block blocks ih =>
    obtain ⟨middle, hblk, hrest⟩ := hblks
    have hle := hrest.le
    exact ⟨middle, hblk.congr fun i hi => hsame i (by omega), ih hrest⟩

theorem AreSubBlocks.take (hblks : AreSubBlocks bytes start blocks stop) (count : ℕ) :
    ∃ middle ≤ stop, AreSubBlocks bytes start (blocks.take count) middle := by
  induction blocks generalizing start count with
  | nil => exact ⟨start, Nat.le_of_eq hblks, by rw [take_nil]; rfl⟩
  | cons block blocks ih =>
    cases count with
    | zero => exact ⟨start, hblks.le, rfl⟩
    | succ count =>
      obtain ⟨middle, hblk, hrest⟩ := hblks
      obtain ⟨last, hle, hlast⟩ := ih hrest count
      exact ⟨last, hle, middle, hblk, hlast⟩

end

end AdvancedOs.Ntfs.CompressionFormat
