import AdvancedOs.Foundation.TracedMemory
import AdvancedOs.Ntfs.DecompressionSafety

/-!
# What decompression reads

The headers of sub-blocks and the phrases are words of 16 bits, but the decoder checks only that a
byte is left: it reads the header of a next sub-block wherever the last one has ended, unless that
is the end of the compression block, and it reads a phrase whose first byte belongs to the
sub-block. One byte before the end of the compression block, the word goes behind it.

`ntfsDecompressTraced` is the decoder with a log of the bytes that it reads, and does what
`ntfsDecompress` does (`outcome_ntfsDecompressTraced`). `Spot` is a place in the source and the
destination between two sub-blocks, and a phrase of which only the first byte is there is a
`HalfPhrase`. The decoder reads behind the end of the compression block just if it comes to a spot
one byte before it, or to half a phrase at the end of it (`reads_below_iff`).
-/

namespace AdvancedOs.Ntfs.DecompressionReads

open Foundation.ArraySegments Foundation.BackReferences Foundation.TracedMemory
  Foundation.TracedMemory.Traced CompressionFormat RunlistElements Decompression DecompressionSafety
  Relation

/-! ### The decoder with a log -/

section

def loadLe16 (i : ℕ) : Traced UInt8 ℕ := do
  let low ← load i
  let high ← load (i + 1)
  pure (low.toNat + 2 ^ 8 * high.toNat)

def loadBytes (start : ℕ) : ℕ → Traced UInt8 (List UInt8)
  | 0 => pure []
  | count + 1 => do
    let byte ← load start
    let rest ← loadBytes (start + 1) count
    pure (byte :: rest)

variable (sb : SbBounds)

/-- `parseToken` with a log. What the token is depends on the bytes that have been read. -/
def parseTokenTraced (tag : ℕ) (st : SbState) : Traced UInt8 (SbState × TokenEnd) :=
  if sb.cbSbEnd ≤ st.cb ∨ sb.dpSbEnd < st.dpAddr then pure (st, .leave)
  else if tag &&& 1 = 0 then do
    let byte ← load st.cb
    pure (parseToken (fun _ => byte) sb tag st)
  else if st.dpAddr = sb.dpSbStart then pure (st, .overflow)
  else do
    let low ← load st.cb
    let high ← load (st.cb + 1)
    pure (parseToken (fun i => if i = st.cb then low else high) sb tag st)

def parseTokensTraced : ℕ → ℕ → SbState → Traced UInt8 (SbState × Bool)
  | 0, _, st => pure (st, true)
  | tokens + 1, tag, st => do
    match ← parseTokenTraced sb tag st with
    | (st, .next) => parseTokensTraced tokens (tag >>> 1) st
    | (st, .leave) => pure (st, true)
    | (st, .overflow) => pure (st, false)

def parseTagsTraced : ℕ → SbState → Traced UInt8 (SbState × Bool)
  | 0, st => pure (st, false)
  | fuel + 1, st =>
    if st.cb = sb.cbSbEnd then pure (fillSb sb st, true)
    else if sb.cbSbEnd < st.cb ∨ sb.dpSbEnd < st.dpAddr then pure (st, false)
    else do
      let tag ← load st.cb
      match ← parseTokensTraced sb 8 tag.toNat { st with cb := st.cb + 1 } with
      | (st, true) => parseTagsTraced fuel st
      | (st, false) => pure (st, false)

variable (job : Job)

def copySbTraced (st : JobState) (cbSbEnd : ℕ) : Traced UInt8 (JobState × Bool) :=
  if cbSbEnd - (st.cb + 2) ≠ sbSize then pure ({ st with cb := st.cb + 2 }, false)
  else do
    let bytes ← loadBytes (st.cb + 2) sbSize
    pure (copySb { job with cbStart := fun i => bytes.getD (i - (st.cb + 2)) 0 } st cbSbEnd)

def decodeSbTraced (st : JobState) (cbSbEnd : ℕ) : Traced UInt8 (JobState × Bool) := do
  let (out, ok) ← parseTagsTraced ⟨cbSbEnd, st.destOfs⟩ (cbSbEnd - st.cb)
    ⟨st.cb + 2, st.destOfs, st.destOfs, st.mem st.destIndex, []⟩
  let st' : JobState := { st with
    cb := out.cb
    destOfs := out.destOfs
    mem := Function.update st.mem st.destIndex out.page
    log := st.log ++ out.stores.map (Access.store st.destIndex) }
  pure (if ok then finishSb job st' out.destOfs else (st', false))

/-- `doSb` with a log. The header is read again for its flag. -/
def doSbTraced (st : JobState) : Traced UInt8 (JobState × Bool) :=
  let st := { st with log := st.log ++ [.subBlock st.destOfs] }
  if st.destIndex = job.destMaxIndex ∧ job.destMaxOfs < st.destOfs + sbSize then pure (st, false)
  else if job.cbSize < st.cb + 6 then pure (st, false)
  else do
    let header ← loadLe16 st.cb
    let cbSbEnd := st.cb + (header &&& 0x0fff) + 3
    if job.cbSize < cbSbEnd then pure (st, false)
    else
      let st := { st with log := st.log ++ [.entry st.destIndex] }
      if job.present st.destIndex = false then pure (skipSb job st cbSbEnd)
      else do
        let header ← loadLe16 st.cb
        if header &&& 0x8000 = 0 then copySbTraced job st cbSbEnd else decodeSbTraced job st cbSbEnd

/-- `doSbs` with a log. At the end of the compression block no header is read. -/
def doSbsTraced : ℕ → JobState → Traced UInt8 (JobState × Bool)
  | 0, st => pure (st, false)
  | fuel + 1, st =>
    if st.cb = job.cbSize then pure (st, true)
    else do
      let header ← loadLe16 st.cb
      if header = 0 ∨ (st.destIndex = job.destMaxIndex ∧ st.destOfs = job.destMaxOfs) then
        pure (st, true)
      else match ← doSbTraced job st with
        | (st, true) => doSbsTraced fuel st
        | (st, false) => pure (st, false)

end

def ntfsDecompressTraced (pages : DestPages) (destIndex destOfs destMaxIndex destMaxOfs : ℕ)
    (xpage : ℕ) (xpageDone : Bool) (cbSize iSize initializedSize : ℕ) :
    Traced UInt8 Decompressed := do
  let (st, ok) ← doSbsTraced ⟨fun _ => 0, cbSize, destMaxIndex, destMaxOfs, pages.held⟩ (cbSize + 1)
    ⟨0, destIndex, destOfs, pages.mem, [], []⟩
  pure
    { pages := st.completed.foldl (finalizePage iSize initializedSize) { pages with mem := st.mem }
      destIndex := st.destIndex
      destOfs := st.destOfs
      xpageDone := xpageDone || decide (xpage ∈ st.completed)
      log := st.log ++ st.completed.map Access.entry
      status := if ok then .ok () else .error (.errno .eoverflow) }

/-! ### The decoder does what it does without a log -/

variable {β : Type} {st' : SbState}

section

variable (src : ℕ → UInt8)
variable (sb : SbBounds) (fuel cbSbEnd tag : ℕ) (st : SbState)

@[simp] theorem outcome_loadLe16_bind (i : ℕ) (second : ℕ → Traced UInt8 β) :
    (loadLe16 i >>= second).outcome src = (second (le16 src i)).outcome src := rfl

theorem outcome_loadBytes (start count : ℕ) :
    (loadBytes start count).outcome src = ((List.range' start count).map src, src) := by
  induction count generalizing start with
  | zero => rfl
  | succ count ih =>
    rw [loadBytes, outcome_load_bind, outcome_bind, ih, outcome_pure, List.range'_succ,
      List.map_cons]

theorem parseToken_congr {other : ℕ → UInt8} (hlow : other st.cb = src st.cb)
    (hhigh : tag &&& 1 ≠ 0 → other (st.cb + 1) = src (st.cb + 1)) :
    parseToken other sb tag st = parseToken src sb tag st := by
  unfold parseToken
  by_cases hlit : tag &&& 1 = 0
  · rw [hlow, if_pos hlit, if_pos hlit]
  · have hword : le16 other st.cb = le16 src st.cb := by
      rw [le16, le16, hlow, hhigh hlit]
    rw [if_neg hlit, if_neg hlit, hword]

theorem outcome_parseTokenTraced :
    (parseTokenTraced sb tag st).outcome src = (parseToken src sb tag st, src) := by
  unfold parseTokenTraced
  split_ifs with hleave hlit hst
  · rw [outcome_pure, parseToken, if_pos hleave]
  · have hsame : parseToken (fun _ => src st.cb) sb tag st = parseToken src sb tag st :=
      parseToken_congr src sb tag st rfl fun hne => absurd hlit hne
    rw [outcome_load_bind, outcome_pure, hsame]
  · rw [outcome_pure, parseToken, if_neg hleave, if_neg hlit, if_pos hst]
  · rw [outcome_load_bind, outcome_load_bind, outcome_pure,
      parseToken_congr src sb tag st (if_pos rfl) fun _ => if_neg (Nat.succ_ne_self _)]

theorem outcome_parseTokensTraced (tokens : ℕ) :
    (parseTokensTraced sb tokens tag st).outcome src = (parseTokens src sb tokens tag st, src) := by
  induction tokens generalizing tag st with
  | zero => rfl
  | succ tokens ih =>
    rw [parseTokensTraced, outcome_bind, outcome_parseTokenTraced, parseTokens]
    rcases parseToken src sb tag st with ⟨next, _ | _ | _⟩
    · exact ih _ _
    · rfl
    · rfl

theorem outcome_parseTagsTraced :
    (parseTagsTraced sb fuel st).outcome src = (parseTags src sb fuel st, src) := by
  induction fuel generalizing st with
  | zero => rfl
  | succ fuel ih =>
    rw [parseTagsTraced, parseTags]
    split_ifs
    · rfl
    · rfl
    · rw [outcome_load_bind, outcome_bind, outcome_parseTokensTraced]
      rcases parseTokens src sb 8 (src st.cb).toNat { st with cb := st.cb + 1 } with ⟨next, _ | _⟩
      · rfl
      · exact ih _

variable (job : Job)

theorem outcome_copySbTraced (st : JobState) :
    (copySbTraced job st cbSbEnd).outcome src =
      (copySb { job with cbStart := src } st cbSbEnd, src) := by
  unfold copySbTraced
  split_ifs with hsize
  · rw [outcome_pure, copySb, if_pos hsize]
  · have hby : memcpy (st.mem st.destIndex) st.destOfs
          (fun i => ((List.range' (st.cb + 2) sbSize).map src).getD (i - (st.cb + 2)) 0) (st.cb + 2)
          sbSize = memcpy (st.mem st.destIndex) st.destOfs src (st.cb + 2) sbSize := by
      funext i
      unfold memcpy
      split_ifs with hi
      · dsimp only
        rw [List.getD_eq_getElem _ _ (by simp; omega), List.getElem_map, List.getElem_range']
        congr 1
        omega
      · rfl
    rw [outcome_bind, outcome_loadBytes, outcome_pure, copySb, copySb, if_neg hsize, if_neg hsize]
    rw [hby]
    rfl

theorem outcome_decodeSbTraced (st : JobState) :
    (decodeSbTraced job st cbSbEnd).outcome src =
      (decodeSb { job with cbStart := src } st cbSbEnd, src) := by
  rw [decodeSbTraced, outcome_bind, outcome_parseTagsTraced]
  rfl

theorem outcome_doSbTraced (st : JobState) :
    (doSbTraced job st).outcome src = (doSb { job with cbStart := src } st, src) := by
  unfold doSbTraced doSb
  by_cases hdest : st.destIndex = job.destMaxIndex ∧ job.destMaxOfs < st.destOfs + sbSize
  · rw [if_pos hdest, if_pos hdest]
    rfl
  by_cases hroom : job.cbSize < st.cb + 6
  · rw [if_neg hdest, if_neg hdest, if_pos hroom, if_pos hroom]
    rfl
  rw [if_neg hdest, if_neg hdest, if_neg hroom, if_neg hroom, outcome_loadLe16_bind]
  by_cases hend : job.cbSize < st.cb + (le16 src st.cb &&& 0x0fff) + 3
  · rw [if_pos hend, if_pos hend]
    rfl
  rw [if_neg hend, if_neg hend]
  by_cases habs : job.present st.destIndex = false
  · rw [if_pos habs, if_pos habs, outcome_pure, skipSb, skipSb]
  rw [if_neg habs, if_neg habs, outcome_loadLe16_bind]
  by_cases hflag : le16 src st.cb &&& 0x8000 = 0
  · rw [if_pos hflag, if_pos hflag, outcome_copySbTraced]
  · rw [if_neg hflag, if_neg hflag, outcome_decodeSbTraced]

theorem outcome_doSbsTraced (st : JobState) :
    (doSbsTraced job fuel st).outcome src = (doSbs { job with cbStart := src } fuel st, src) := by
  induction fuel generalizing st with
  | zero => rfl
  | succ fuel ih =>
    rw [doSbsTraced, doSbs]
    by_cases hcb : st.cb = job.cbSize
    · have hend : AtEnd { job with cbStart := src } st := .inl hcb
      rw [if_pos hcb, if_pos hend, outcome_pure]
    rw [if_neg hcb, outcome_loadLe16_bind]
    by_cases hend : le16 src st.cb = 0 ∨
      (st.destIndex = job.destMaxIndex ∧ st.destOfs = job.destMaxOfs)
    · have hatEnd : AtEnd { job with cbStart := src } st := .inr hend
      rw [if_pos hend, if_pos hatEnd, outcome_pure]
    have hgoes : ¬ AtEnd { job with cbStart := src } st := not_or.mpr ⟨hcb, hend⟩
    rw [if_neg hend, if_neg hgoes, outcome_bind, outcome_doSbTraced]
    rcases doSb { job with cbStart := src } st with ⟨next, _ | _⟩
    · rfl
    · exact ih _

end

theorem outcome_ntfsDecompressTraced (pages : DestPages)
    (destIndex destOfs destMaxIndex destMaxOfs xpage : ℕ) (xpageDone : Bool) (cbStart : ℕ → UInt8)
    (cbSize iSize initializedSize : ℕ) :
    ((ntfsDecompressTraced pages destIndex destOfs destMaxIndex destMaxOfs xpage
      xpageDone cbSize iSize initializedSize).outcome cbStart).1 =
      ntfsDecompress pages destIndex destOfs destMaxIndex
        destMaxOfs xpage xpageDone cbStart cbSize iSize initializedSize := by
  rw [ntfsDecompressTraced, outcome_bind, outcome_doSbsTraced]
  rfl

/-! ### Inside a sub-block -/

/-- The decoder takes the token. It takes a literal also when the sub-block is full. -/
def Taken (produced : ℕ) : Token UInt8 → Prop
  | .literal _ => produced ≤ sbSize
  | .phrase back length => back ≤ produced ∧ produced + length ≤ sbSize

/-- The decoder goes over a token, between two positions of a sub-block that ends at `stop`. -/
@[mk_iff]
structure TakesToken (bytes : ℕ → UInt8) (stop : ℕ) (cursor next : Cursor) : Prop where
  inside : (cursor.load bytes).pos < stop
  taken : Taken cursor.produced ((cursor.load bytes).token bytes)
  next_eq : next = (cursor.load bytes).advance ((cursor.load bytes).token bytes)

/-- The decoder reads a phrase at the position, of which only the first byte belongs to the
sub-block. -/
@[mk_iff]
structure HalfPhrase (bytes : ℕ → UInt8) (stop : ℕ) (cursor : Cursor) : Prop where
  last : (cursor.load bytes).pos + 1 = stop
  phrase : (cursor.load bytes).tag % 2 ≠ 0
  begun : cursor.produced ≠ 0
  room : cursor.produced ≤ sbSize

/-- The sub-block ends at the position, or behind a last tag. -/
def EndsAt (bytes : ℕ → UInt8) (stop : ℕ) (cursor : Cursor) : Prop :=
  cursor.pos = stop ∨ ((cursor.load bytes).pos = stop ∧ cursor.produced ≤ sbSize)

def ReachesHalf (bytes : ℕ → UInt8) (stop : ℕ) (cursor : Cursor) : Prop :=
  ∃ last, ReflTransGen (TakesToken bytes stop) cursor last ∧ HalfPhrase bytes stop last

def ReachesEnd (bytes : ℕ → UInt8) (stop : ℕ) (cursor : Cursor) (produced : ℕ) : Prop :=
  ∃ last, ReflTransGen (TakesToken bytes stop) cursor last ∧ EndsAt bytes stop last ∧
    last.produced = produced

section

variable {bytes : ℕ → UInt8} {stop : ℕ} {cursor : Cursor}

theorem exists_path_iff {α : Type} {r : α → α → Prop} {P : α → Prop} {start : α} :
    (∃ last, ReflTransGen r start last ∧ P last) ↔
      P start ∨ ∃ next, r start next ∧ ∃ last, ReflTransGen r next last ∧ P last := by
  constructor
  · rintro ⟨last, hpath, hlast⟩
    rcases hpath.cases_head with rfl | ⟨next, hstep, hrest⟩
    · exact .inl hlast
    · exact .inr ⟨next, hstep, last, hrest, hlast⟩
  · rintro (hst | ⟨next, hstep, last, hrest, hlast⟩)
    · exact ⟨start, .refl, hst⟩
    · exact ⟨last, hrest.head hstep, hlast⟩

theorem Cursor.load_of_ne {cursor : Cursor} (bytes : ℕ → UInt8) (hleft : cursor.left ≠ 0) :
    cursor.load bytes = cursor := if_neg hleft

theorem Cursor.left_load_ne (bytes : ℕ → UInt8) (cursor : Cursor) :
    (cursor.load bytes).left ≠ 0 := by
  unfold Cursor.load
  split_ifs with hleft
  · exact Nat.succ_ne_zero 7
  · exact hleft

theorem reaches_of_not_taken (h : ∀ next, ¬ TakesToken bytes stop cursor next) (P : Cursor → Prop) :
    (∃ last, ReflTransGen (TakesToken bytes stop) cursor last ∧ P last) ↔ P cursor :=
  exists_path_iff.trans (or_iff_left fun ⟨next, hstep, _⟩ => h next hstep)

theorem reaches_of_taken {next : Cursor} (h : TakesToken bytes stop cursor next)
    (P : Cursor → Prop) : (∃ last, ReflTransGen (TakesToken bytes stop) cursor last ∧ P last) ↔
      P cursor ∨ ∃ last, ReflTransGen (TakesToken bytes stop) next last ∧ P last := by
  refine exists_path_iff.trans (or_congr_right ⟨?_, fun hrch => ⟨next, h, hrch⟩⟩)
  rintro ⟨other, hoth, hrch⟩
  rwa [hoth.next_eq.trans h.next_eq.symm] at hrch

theorem reaches_load (hpos : cursor.pos < stop) (hprod : cursor.produced ≤ sbSize) :
    (ReachesHalf bytes stop cursor ↔ ReachesHalf bytes stop (cursor.load bytes)) ∧
      ∀ n, ReachesEnd bytes stop cursor n ↔ ReachesEnd bytes stop (cursor.load bytes) n := by
  have hload : (cursor.load bytes).load bytes = cursor.load bytes :=
    Cursor.load_of_ne bytes (Cursor.left_load_ne bytes cursor)
  have hsame := cursor.produced_load bytes
  have htakes : ∀ next, TakesToken bytes stop cursor next ↔
      TakesToken bytes stop (cursor.load bytes) next := fun next => by
    rw [takesToken_iff, takesToken_iff, hload, hsame]
  have hhalf : HalfPhrase bytes stop cursor ↔ HalfPhrase bytes stop (cursor.load bytes) := by
    rw [halfPhrase_iff, halfPhrase_iff, hload, hsame]
  have hends : EndsAt bytes stop cursor ↔ EndsAt bytes stop (cursor.load bytes) := by
    unfold EndsAt
    rw [hload]
    constructor
    · rintro (hend | ⟨hend, -⟩)
      · omega
      · exact .inl hend
    · rintro (hend | ⟨hend, -⟩) <;> exact .inr ⟨hend, hprod⟩
  constructor
  · unfold ReachesHalf
    rw [exists_path_iff, @exists_path_iff _ _ _ (cursor.load bytes), hhalf]
    simp only [htakes]
  · intro n
    unfold ReachesEnd
    rw [exists_path_iff, @exists_path_iff _ _ _ (cursor.load bytes), hends, hsame]
    simp only [htakes]

end

/-! ### Reading a sub-block -/

def resumeTraced (sb : SbBounds) (fuel left tag : ℕ) (st : SbState) :
    Traced UInt8 (SbState × Bool) := do
  match ← parseTokensTraced sb left tag st with
  | (st, true) => parseTagsTraced sb fuel st
  | (st, false) => pure (st, false)

section

variable {src : ℕ → UInt8} {sb : SbBounds} {st : SbState} {cursor : Cursor} {out : List UInt8}
  {fuel left tag bound : ℕ}

theorem parseToken_of_taken (hat : StandsAt sb st cursor out) (hin : cursor.pos < sb.cbSbEnd)
    (htak : Taken cursor.produced (cursor.token src)) :
    ∃ st' out', parseToken src sb cursor.tag st = (st', .next) ∧
      StandsAt sb st' (cursor.advance (cursor.token src)) out' := by
  by_cases htag : cursor.tag % 2 = 0
  · have hroom : cursor.produced ≤ sbSize := by
      rw [Cursor.token, if_pos htag] at htak
      exact htak
    obtain ⟨st', hpars, hat', -⟩ := parseToken_literal hat hin hroom htag
    exact ⟨st', _, hpars, hat'⟩
  · have htok : cursor.token src = .phrase (phraseBack cursor.produced (le16 src cursor.pos))
        (phraseLength cursor.produced (le16 src cursor.pos)) := if_neg htag
    rw [htok] at htak
    have hroom := htak.2
    obtain ⟨st', hpars, hat', -⟩ := parseToken_of_fits hat hin (by omega) (by rw [htok]; exact htak)
    exact ⟨st', _, hpars, hat'⟩

theorem parseToken_of_not_taken (hat : StandsAt sb st cursor out) (hin : cursor.pos < sb.cbSbEnd)
    (hprod : cursor.produced ≤ sbSize) (hnot : ¬ Taken cursor.produced (cursor.token src)) :
    ∃ st', parseToken src sb cursor.tag st = (st', .overflow) := by
  have htag : ¬ cursor.tag % 2 = 0 := by
    intro hlit
    rw [Cursor.token, if_pos hlit] at hnot
    exact hnot hprod
  have hfits : ¬ Fits cursor.produced (cursor.token src) := by
    rw [Cursor.token, if_neg htag] at hnot ⊢
    exact hnot
  obtain ⟨st', hpars, -⟩ := parseToken_of_not_fits hat hin hprod htag hfits
  exact ⟨st', hpars⟩

theorem below_parseTokenTraced (hat : StandsAt sb st cursor out) (hstop : sb.cbSbEnd ≤ bound)
    (hin : cursor.pos < sb.cbSbEnd) (hprod : cursor.produced ≤ sbSize) (hleft : cursor.left ≠ 0) :
    Below bound (parseTokenTraced sb cursor.tag st) src ↔
      ¬ (sb.cbSbEnd = bound ∧ HalfPhrase src sb.cbSbEnd cursor) := by
  have hcb := hat.cb_eq
  have hdpAddr := hat.dpAddr_eq
  have hload : cursor.load src = cursor := Cursor.load_of_ne src hleft
  rw [parseTokenTraced, if_neg (hat.goes hin hprod), Nat.and_one_is_mod]
  by_cases htag : cursor.tag % 2 = 0
  · rw [if_pos htag, below_load_bind]
    refine iff_of_true ⟨by omega, below_pure _⟩ ?_
    rintro ⟨-, hhalf⟩
    have hphra := hhalf.phrase
    rw [hload] at hphra
    exact hphra htag
  rw [if_neg htag]
  by_cases hst : st.dpAddr = sb.dpSbStart
  · rw [if_pos hst]
    refine iff_of_true (below_pure _) ?_
    rintro ⟨-, hhalf⟩
    refine hhalf.begun ?_
    unfold SbBounds.dpSbStart at hst
    omega
  · rw [if_neg hst, below_load_bind, below_load_bind]
    constructor
    · rintro ⟨-, hsec, -⟩ ⟨hbound, hhalf⟩
      have hlast := hhalf.last
      rw [hload] at hlast
      omega
    · intro hnot
      have hlt : st.cb + 1 < bound := by
        by_contra hge
        refine hnot ⟨by omega, by rw [hload]; omega, by rwa [hload], ?_, hprod⟩
        intro hzero
        refine hst ?_
        unfold SbBounds.dpSbStart
        omega
      exact ⟨by omega, hlt, below_pure _⟩

theorem below_resume_of_next (htok : parseToken src sb tag st = (st', .next)) :
    Below bound (resumeTraced sb fuel (left + 1) tag st) src ↔
      Below bound (parseTokenTraced sb tag st) src ∧
        Below bound (resumeTraced sb fuel left (tag / 2) st') src := by
  unfold resumeTraced
  rw [parseTokensTraced, below_bind, below_bind, below_bind, outcome_bind,
    outcome_parseTokenTraced, htok]
  rw [Nat.shiftRight_one, and_assoc]

theorem below_resume_of_overflow (htok : parseToken src sb tag st = (st', .overflow)) :
    Below bound (resumeTraced sb fuel (left + 1) tag st) src ↔
      Below bound (parseTokenTraced sb tag st) src := by
  unfold resumeTraced
  rw [parseTokensTraced, below_bind, below_bind, outcome_bind, outcome_parseTokenTraced, htok]
  exact ⟨fun h => h.1.1, fun h => ⟨⟨h, below_pure _⟩, below_pure _⟩⟩

theorem resume_of_overflow (htok : parseToken src sb tag st = (st', .overflow)) :
    resume src sb fuel (left + 1) tag st = (st', false) := by
  unfold resume
  rw [parseTokens, htok]

theorem below_resume_of_leave (hleave : sb.cbSbEnd ≤ st.cb ∨ sb.dpSbEnd < st.dpAddr) :
    Below bound (resumeTraced sb fuel left tag st) src ↔
      Below bound (parseTagsTraced sb fuel st) src := by
  unfold resumeTraced
  cases left with
  | zero =>
    rw [below_bind]
    exact and_iff_right (below_pure _)
  | succ left =>
    have htrac : parseTokenTraced sb tag st = pure (st, .leave) := if_pos hleave
    rw [parseTokensTraced, htrac, below_bind, below_bind]
    exact and_iff_right ⟨below_pure _, below_pure _⟩

theorem below_parseTags_of_past (hne : st.cb ≠ sb.cbSbEnd)
    (hpast : sb.cbSbEnd < st.cb ∨ sb.dpSbEnd < st.dpAddr) :
    Below bound (parseTagsTraced sb fuel st) src := by
  cases fuel with
  | zero => exact below_pure _
  | succ fuel =>
    rw [parseTagsTraced, if_neg hne, if_pos hpast]
    exact below_pure _

/-- What the decoder does from a position of a sub-block on, with the bound at or behind its end. -/
structure ReadsFrom (src : ℕ → UInt8) (bound : ℕ) (sb : SbBounds) (cursor : Cursor) (fuel : ℕ)
    (st : SbState) : Prop where
  below_iff : Below bound (resumeTraced sb fuel cursor.left cursor.tag st) src ↔
    ¬ (sb.cbSbEnd = bound ∧ ReachesHalf src sb.cbSbEnd cursor)
  ends : ∀ n, ReachesEnd src sb.cbSbEnd cursor n →
    ∃ st', resume src sb fuel cursor.left cursor.tag st = (st', true) ∧ st'.cb = sb.cbSbEnd ∧
      st'.destOfs = sb.doSbStart + max n sbSize
  fails : (∀ n, ¬ ReachesEnd src sb.cbSbEnd cursor n) →
    ∃ st', resume src sb fuel cursor.left cursor.tag st = (st', false)

theorem ReadsFrom.of_same {cursor' : Cursor} {fuel' : ℕ}
    (hrest : ReadsFrom src bound sb cursor' fuel' st')
    (hbel : Below bound (resumeTraced sb fuel cursor.left cursor.tag st) src ↔
      ¬ (sb.cbSbEnd = bound ∧ ReachesHalf src sb.cbSbEnd cursor))
    (hrun : resume src sb fuel cursor.left cursor.tag st =
      resume src sb fuel' cursor'.left cursor'.tag st')
    (hends : ∀ n, ReachesEnd src sb.cbSbEnd cursor n ↔ ReachesEnd src sb.cbSbEnd cursor' n) :
    ReadsFrom src bound sb cursor fuel st := by
  refine ⟨hbel, fun n hrch => ?_, fun hnone => ?_⟩
  · rw [hrun]
    exact hrest.ends n ((hends n).mp hrch)
  · rw [hrun]
    exact hrest.fails fun n hrch => hnone n ((hends n).mpr hrch)

theorem readsFrom_of_le (hat : StandsAt sb st cursor out) (hpos : sb.cbSbEnd ≤ cursor.pos)
    (hfuel : sb.cbSbEnd < cursor.pos + fuel) : ReadsFrom src bound sb cursor fuel st := by
  have hcb := hat.cb_eq
  have hload := Cursor.le_pos_load src cursor
  have hleave : sb.cbSbEnd ≤ st.cb ∨ sb.dpSbEnd < st.dpAddr := .inl (by omega)
  have hresu := @resume_of_leave src sb st fuel cursor.left cursor.tag hleave
  have hbel := @below_resume_of_leave src sb st fuel cursor.left cursor.tag bound hleave
  have hrch := @reaches_of_not_taken src sb.cbSbEnd cursor fun next htakes => by
    have hin := htakes.inside
    omega
  have hends := fun n => hrch fun cursor => EndsAt src sb.cbSbEnd cursor ∧ cursor.produced = n
  have hhalf : ReachesHalf src sb.cbSbEnd cursor ↔ _ := hrch _
  have hnoha : ¬ HalfPhrase src sb.cbSbEnd cursor := fun h => by
    have hlast := h.last
    omega
  by_cases hpast : cursor.pos = sb.cbSbEnd
  · obtain ⟨fuel, rfl⟩ : ∃ rest, fuel = rest + 1 := Nat.exists_eq_succ_of_ne_zero (by omega)
    have hend : st.cb = sb.cbSbEnd := hcb.trans hpast
    obtain ⟨hdest, hsame, -⟩ := fillSb_spec hat
    refine ⟨?_, fun n hn => ?_, fun hnone => absurd ((hends _).mpr ⟨.inl hpast, rfl⟩) (hnone _)⟩
    · rw [hbel, parseTagsTraced, if_pos hend, hhalf]
      exact iff_of_true (below_pure _) fun h => hnoha h.2
    · obtain ⟨-, rfl⟩ := (hends n).mp hn
      exact ⟨_, by rw [hresu, parseTags, if_pos hend], hsame.trans hend, hdest⟩
  · have hnoend : ∀ n, ¬ ReachesEnd src sb.cbSbEnd cursor n := by
      intro n hn
      rcases ((hends n).mp hn).1 with hend | ⟨hend, -⟩ <;> omega
    have hne : st.cb ≠ sb.cbSbEnd := hcb ▸ hpast
    have hover : sb.cbSbEnd < st.cb ∨ sb.dpSbEnd < st.dpAddr := .inl (by omega)
    refine ⟨?_, fun n hn => absurd hn (hnoend n), fun _ =>
      ⟨st, hresu.trans (parseTags_of_past hne hover)⟩⟩
    rw [hbel, hhalf]
    exact iff_of_true (below_parseTags_of_past hne hover) fun h => hnoha h.2

theorem readsFrom_of_full (hat : StandsAt sb st cursor out) (hpos : cursor.pos < sb.cbSbEnd)
    (hfull : sbSize < cursor.produced) : ReadsFrom src bound sb cursor fuel st := by
  have hcb := hat.cb_eq
  have hover : sb.dpSbEnd < st.dpAddr := by
    rw [hat.dpAddr_eq]
    unfold SbBounds.dpSbEnd SbBounds.dpSbStart
    omega
  have hrch := @reaches_of_not_taken src sb.cbSbEnd cursor fun next htakes => by
    have htak := htakes.taken
    unfold Cursor.token at htak
    split_ifs at htak
    · have hle : cursor.produced ≤ sbSize := htak
      omega
    · have hle := htak.2
      omega
  have hnoend : ∀ n, ¬ ReachesEnd src sb.cbSbEnd cursor n := by
    intro n hn
    rcases ((hrch _).mp hn).1 with hend | ⟨-, hroom⟩ <;> omega
  have hne : st.cb ≠ sb.cbSbEnd := by omega
  refine ⟨?_, fun n hn => absurd hn (hnoend n), fun _ =>
    ⟨st, (resume_of_leave (.inr hover)).trans (parseTags_of_past hne (.inr hover))⟩⟩
  rw [below_resume_of_leave (.inr hover)]
  refine iff_of_true (below_parseTags_of_past hne (.inr hover)) fun h => ?_
  have hroom := ((hrch _).mp h.2).room
  omega

theorem advance_eq (cursor : Cursor) (token : Token UInt8) :
    (cursor.advance token).left = cursor.left - 1 ∧ (cursor.advance token).tag = cursor.tag / 2 ∧
      cursor.pos < (cursor.advance token).pos := by
  cases token with
  | literal item => exact ⟨rfl, rfl, Nat.lt_succ_self _⟩
  | phrase back length => exact ⟨rfl, rfl, Nat.lt_add_of_pos_right Nat.two_pos⟩

theorem readsFrom_of_load (hat : StandsAt sb st cursor out) (hstop : sb.cbSbEnd ≤ bound)
    (hpos : cursor.pos < sb.cbSbEnd) (hprod : cursor.produced ≤ sbSize) (hleft : cursor.left = 0)
    (hfuel : sb.cbSbEnd < cursor.pos + fuel)
    (hrest : ∀ st', StandsAt sb st' (cursor.load src) out → ∀ fuel',
      sb.cbSbEnd < (cursor.load src).pos + fuel' →
        ReadsFrom src bound sb (cursor.load src) fuel' st') :
    ReadsFrom src bound sb cursor fuel st := by
  obtain ⟨fuel, rfl⟩ : ∃ rest, fuel = rest + 1 := Nat.exists_eq_succ_of_ne_zero (by omega)
  have hcb := hat.cb_eq
  have hload : cursor.load src = ⟨8, (src cursor.pos).toNat, cursor.pos + 1, cursor.produced⟩ :=
    if_pos hleft
  have hmore : ¬ st.cb = sb.cbSbEnd := by omega
  have hgoes : ¬ (sb.cbSbEnd < st.cb ∨ sb.dpSbEnd < st.dpAddr) := fun h =>
    hat.goes hpos hprod (h.imp_left Nat.le_of_lt)
  have hat' : StandsAt sb { st with cb := st.cb + 1 } (cursor.load src) out := by
    rw [hload]
    exact ⟨by rw [hcb], hat.dpAddr_eq, hat.destOfs_eq, hat.length_eq, hat.segment⟩
  have hbeh := hrest _ hat' fuel (by rw [hload]; dsimp only; omega)
  obtain ⟨hhalf, hends⟩ := @reaches_load src sb.cbSbEnd cursor hpos hprod
  have hrun : resume src sb (fuel + 1) cursor.left cursor.tag st =
      resume src sb fuel (cursor.load src).left (cursor.load src).tag { st with
          cb := st.cb + 1 } := by
    rw [hleft, ← parseTags_eq_resume, parseTags, if_neg hmore, if_neg hgoes, hload, hcb]
    rfl
  have hbel : Below bound (resumeTraced sb (fuel + 1) cursor.left cursor.tag st) src ↔
      Below bound (resumeTraced sb fuel (cursor.load src).left (cursor.load src).tag
        { st with cb := st.cb + 1 }) src := by
    unfold resumeTraced
    rw [hleft, parseTokensTraced, below_bind, and_iff_right (below_pure _), outcome_pure]
    dsimp only
    rw [parseTagsTraced, if_neg hmore, if_neg hgoes, below_load_bind, hload, hcb]
    exact and_iff_right (by omega)
  refine hbeh.of_same ?_ hrun hends
  rw [hbel, hbeh.below_iff, hhalf]

theorem readsFrom_of_standsAt (hat : StandsAt sb st cursor out) (hstop : sb.cbSbEnd ≤ bound)
    (hfuel : sb.cbSbEnd < cursor.pos + fuel) : ReadsFrom src bound sb cursor fuel st := by
  -- Every tag and every token takes at least a byte.
  induction hn : sb.cbSbEnd - cursor.pos using Nat.strong_induction_on
    generalizing cursor st out fuel with
  | _ n ih =>
    rcases Nat.lt_or_ge cursor.pos sb.cbSbEnd with hpos | hpos
    swap
    · exact readsFrom_of_le hat hpos hfuel
    rcases Nat.lt_or_ge sbSize cursor.produced with hfull | hprod
    · exact readsFrom_of_full hat hpos hfull
    by_cases hleft : cursor.left = 0
    · exact readsFrom_of_load hat hstop hpos hprod hleft hfuel fun st' hat' fuel' hfuel' =>
        ih _ (by rw [Cursor.load, if_pos hleft]; dsimp only; omega) hat' hfuel' rfl
    · obtain ⟨left, hsucc⟩ := Nat.exists_eq_succ_of_ne_zero hleft
      have hload : cursor.load src = cursor := Cursor.load_of_ne src hleft
      have hnoend : ¬ EndsAt src sb.cbSbEnd cursor := by
        rintro (hend | ⟨hend, -⟩)
        · omega
        · rw [hload] at hend
          omega
      have hbel := @below_parseTokenTraced src sb st cursor out bound hat hstop hpos hprod hleft
      by_cases htak : Taken cursor.produced (cursor.token src)
      · obtain ⟨st', out', htok, hat'⟩ := parseToken_of_taken hat hpos htak
        have htakes : TakesToken src sb.cbSbEnd cursor (cursor.advance (cursor.token src)) :=
          ⟨by rwa [hload], by rwa [hload], by rw [hload]⟩
        obtain ⟨hleft', htag', hpos'⟩ := advance_eq cursor (cursor.token src)
        have hhalf : ReachesHalf src sb.cbSbEnd cursor ↔ _ := reaches_of_taken htakes _
        have hrest := ih _ (by omega) hat' (show sb.cbSbEnd < _ + fuel by omega) rfl
        have hrun : resume src sb fuel cursor.left cursor.tag st =
            resume src sb fuel (cursor.advance (cursor.token src)).left
              (cursor.advance (cursor.token src)).tag st' := by
          rw [hsucc, resume_of_next htok, hleft', htag', hsucc, Nat.succ_sub_one]
        refine hrest.of_same ?_ hrun fun n => (reaches_of_taken htakes _).trans (or_iff_right ?_)
        · rw [hsucc, below_resume_of_next htok, hbel, hhalf]
          have hrestBelow := hrest.below_iff
          rw [hleft', htag', hsucc, Nat.succ_sub_one] at hrestBelow
          rw [hrestBelow, and_or_left, not_or]
          rfl
        · exact fun h => hnoend h.1
      · obtain ⟨st', htok⟩ := parseToken_of_not_taken hat hpos hprod htak
        have hrch := @reaches_of_not_taken src sb.cbSbEnd cursor fun next htakes =>
          htak (by have htak := htakes.taken; rwa [hload] at htak)
        have hhalf : ReachesHalf src sb.cbSbEnd cursor ↔ _ := hrch _
        refine ⟨?_, fun n hn => absurd ((hrch _).mp hn).1 hnoend,
          fun _ => ⟨st', by rw [hsucc, resume_of_overflow htok]⟩⟩
        rw [hsucc, below_resume_of_overflow htok, hbel, hhalf]

end

/-! ### Between sub-blocks -/

/-- A place between two sub-blocks: the position in the source, and the entry and the offset of the
destination. -/
structure Spot where
  cb : ℕ
  index : ℕ
  ofs : ℕ

def spotOf (st : JobState) : Spot := ⟨st.cb, st.destIndex, st.destOfs⟩

section

variable (job : Job)

def Spot.behind (spot : Spot) (produced : ℕ) : Spot :=
  if (spot.ofs + produced) % 4096 = 0 then ⟨sbEnd job.cbStart spot.cb, spot.index + 1, 0⟩
  else ⟨sbEnd job.cbStart spot.cb, spot.index, (spot.ofs + produced) % 4096⟩

/-- There is a sub-block at the place, and room for it. -/
structure Enters (spot : Spot) : Prop where
  header : le16 job.cbStart spot.cb ≠ 0
  fits : ¬ (spot.index = job.destMaxIndex ∧ job.destMaxOfs < spot.ofs + sbSize)
  room : spot.cb + 6 ≤ job.cbSize
  inside : sbEnd job.cbStart spot.cb ≤ job.cbSize

/-- The sub-block at the place is compressed, and has a page. -/
structure IsDecoded (spot : Spot) : Prop where
  present : job.present spot.index = true
  compressed : 2 ^ 15 ≤ le16 job.cbStart spot.cb

/-- The decoder gets to the end of the sub-block at the place, with so many bytes produced. -/
inductive Passes (spot : Spot) : ℕ → Prop
  | skipped (absent : job.present spot.index = false) : Passes spot sbSize
  | copied (present : job.present spot.index = true) (stored : le16 job.cbStart spot.cb < 2 ^ 15)
    (full : sbEnd job.cbStart spot.cb = spot.cb + 2 + sbSize) : Passes spot sbSize
  | decoded (decoded : IsDecoded job spot) {produced : ℕ}
    (ends : ReachesEnd job.cbStart (sbEnd job.cbStart spot.cb) (firstToken spot.cb) produced) :
    Passes spot (max produced sbSize)

/-- The decoder goes from one place to the next. -/
structure NextSpot (spot next : Spot) : Prop where
  enters : Enters job spot
  passes : ∃ produced, Passes job spot produced ∧ next = spot.behind job produced ∧
    ((spot.ofs + produced) % 4096 = 0 → spot.index + 1 ≤ job.destMaxIndex)

/-- The compression block ends in the middle of a phrase of the sub-block at the place. -/
structure HalfAtEnd (spot : Spot) : Prop where
  enters : Enters job spot
  decoded : IsDecoded job spot
  last : sbEnd job.cbStart spot.cb = job.cbSize
  half : ReachesHalf job.cbStart (sbEnd job.cbStart spot.cb) (firstToken spot.cb)

/-- At the place a word is read of which only the first byte belongs to the compression block. -/
def StrayAt (spot : Spot) : Prop := spot.cb + 1 = job.cbSize ∨ HalfAtEnd job spot

/-- The decoder comes to such a place. -/
def ReachesStray (start : Spot) : Prop :=
  ∃ spot, ReflTransGen (NextSpot job) start spot ∧ StrayAt job spot

end

section

variable {job : Job} {st : JobState}
variable {bound : ℕ} {spot next : Spot} {cells : ℕ → UInt8}

@[simp] theorem below_loadLe16_bind (i : ℕ) (second : ℕ → Traced UInt8 β) :
    Below bound (loadLe16 i >>= second) cells ↔ i + 1 < bound ∧
      Below bound (second (le16 cells i)) cells := by
  rw [below_bind, loadLe16, below_load_bind, below_load_bind]
  constructor
  · rintro ⟨⟨-, hhigh, -⟩, hrest⟩
    exact ⟨hhigh, hrest⟩
  · rintro ⟨hhigh, hrest⟩
    exact ⟨⟨by omega, hhigh, below_pure _⟩, hrest⟩

theorem below_loadBytes {start count : ℕ} (hbound : start + count ≤ bound) :
    Below bound (loadBytes start count) cells := by
  induction count generalizing start with
  | zero => exact below_pure _
  | succ count ih =>
    rw [loadBytes, below_load_bind, below_bind]
    exact ⟨by omega, ih (by omega), below_pure _⟩

/-- What the decoder does with the sub-block at a place. -/
structure StepsFrom (job : Job) (st : JobState) : Prop where
  below_iff : Below job.cbSize (doSbTraced job st) job.cbStart ↔ ¬ HalfAtEnd job (spotOf st)
  passes : ∀ produced, Enters job (spotOf st) → Passes job (spotOf st) produced →
    spotOf (doSb job st).1 = (spotOf st).behind job produced ∧
      ((doSb job st).2 = true ↔ (((spotOf st).ofs + produced) % 4096 = 0 →
        (spotOf st).index + 1 ≤ job.destMaxIndex))
  stops : (Enters job (spotOf st) → ∀ produced, ¬ Passes job (spotOf st) produced) →
    (doSb job st).2 = false

theorem StepsFrom.goes (hsteps : StepsFrom job st) (hnext : NextSpot job (spotOf st) next) :
    doSb job st = ((doSb job st).1, true) ∧ spotOf (doSb job st).1 = next := by
  obtain ⟨hent, produced, hpass, rfl, hentry⟩ := hnext
  obtain ⟨hspot, hok⟩ := hsteps.passes produced hent hpass
  exact ⟨Prod.ext rfl (hok.mpr hentry), hspot⟩

theorem StepsFrom.fails (hsteps : StepsFrom job st)
    (hnone : ∀ next, ¬ NextSpot job (spotOf st) next) : doSb job st = ((doSb job st).1, false) := by
  refine Prod.ext rfl ?_
  by_cases hpass : Enters job (spotOf st) ∧ ∃ produced, Passes job (spotOf st) produced
  · obtain ⟨hent, produced, hpass⟩ := hpass
    obtain ⟨hspot, hok⟩ := hsteps.passes produced hent hpass
    rw [← Bool.not_eq_true, hok]
    exact fun hentry => hnone _ ⟨hent, produced, hpass, rfl, hentry⟩
  · exact hsteps.stops fun hent produced hprod => hpass ⟨hent, produced, hprod⟩

theorem doSb_of_not_enters (hhdr : le16 job.cbStart st.cb ≠ 0) (hnot : ¬ Enters job (spotOf st)) :
    doSb job st = ({ st with log := st.log ++ [.subBlock st.destOfs] }, false) :=
  doSb_of_rejected fun h => hnot ⟨hhdr, h.1, h.2.1, h.2.2⟩

theorem stepsFrom_of_not_enters (hhdr : le16 job.cbStart st.cb ≠ 0)
    (hnot : ¬ Enters job (spotOf st)) : StepsFrom job st := by
  refine ⟨iff_of_true ?_ fun h => hnot h.enters, fun produced h => absurd h hnot,
    fun _ => by rw [doSb_of_not_enters hhdr hnot]⟩
  unfold doSbTraced
  dsimp only
  split_ifs with hdest hroom
  · exact below_pure _
  · exact below_pure _
  all_goals
    have hend : job.cbSize < st.cb + (le16 job.cbStart st.cb &&& 0x0fff) + 3 := by
      by_contra hin
      rw [and_sizeMask] at hin
      exact hnot ⟨hhdr, hdest, not_lt.mp hroom, not_lt.mp hin⟩
    rw [below_loadLe16_bind, if_pos hend]
    exact ⟨by omega, below_pure _⟩

theorem below_doSbTraced (hent : Enters job (spotOf st)) :
    Below job.cbSize (doSbTraced job st) job.cbStart ↔ (job.present st.destIndex = true →
        Below job.cbSize (if le16 job.cbStart st.cb < 2 ^ 15 then
          copySbTraced job (checked st) (sbEnd job.cbStart st.cb)
        else decodeSbTraced job (checked st) (sbEnd job.cbStart st.cb)) job.cbStart) := by
  have hfits : ¬ (st.destIndex = job.destMaxIndex ∧ job.destMaxOfs < st.destOfs + sbSize) :=
    hent.fits
  have hroom : st.cb + 6 ≤ job.cbSize := hent.room
  have hin : sbEnd job.cbStart st.cb ≤ job.cbSize := hent.inside
  have hmask : st.cb + (le16 job.cbStart st.cb &&& 0x0fff) + 3 = sbEnd job.cbStart st.cb := by
    rw [and_sizeMask]
    rfl
  unfold doSbTraced
  dsimp only
  rw [if_neg hfits, if_neg (by omega), below_loadLe16_bind, hmask, if_neg (by omega),
    and_iff_right (by omega)]
  cases hpres : job.present st.destIndex with
  | false =>
    exact iff_of_true (below_pure _) nofun
  | true =>
    rw [if_neg Bool.true_eq_false.mp, below_loadLe16_bind, and_iff_right (by omega)]
    simp only [List.append_assoc, and_isCompressed_eq_zero (le16_lt job.cbStart st.cb)]
    exact ⟨fun h _ => h, fun h => h trivial⟩

theorem spotOf_finishSb (st' : JobState) {produced destOfs : ℕ}
    (hofs : destOfs = spot.ofs + produced) (hidx : st'.destIndex = spot.index)
    (hcb : st'.cb = sbEnd job.cbStart spot.cb) :
    spotOf (finishSb job st' destOfs).1 = spot.behind job produced ∧
      ((finishSb job st' destOfs).2 = true ↔
        ((spot.ofs + produced) % 4096 = 0 → spot.index + 1 ≤ job.destMaxIndex)) := by
  unfold finishSb Spot.behind spotOf
  rw [hofs]
  split_ifs with hwrap
  · exact ⟨by rw [hcb, hidx], by simp [hidx, hwrap]⟩
  · exact ⟨by rw [hcb, hidx], iff_of_true rfl fun h => absurd h hwrap⟩

theorem spotOf_skipSb (st : JobState) :
    spotOf (skipSb job (checked st) (sbEnd job.cbStart st.cb)).1 = (spotOf st).behind job sbSize ∧
      ((skipSb job (checked st) (sbEnd job.cbStart st.cb)).2 = true ↔
        (((spotOf st).ofs + sbSize) % 4096 = 0 → (spotOf st).index + 1 ≤ job.destMaxIndex)) := by
  unfold skipSb Spot.behind spotOf checked
  split_ifs with hwrap
  · exact ⟨rfl, by simp [hwrap]⟩
  · exact ⟨rfl, iff_of_true rfl fun h => absurd h hwrap⟩

theorem stepsFrom_of_absent (hent : Enters job (spotOf st))
    (habs : job.present st.destIndex = false) : StepsFrom job st := by
  refine ⟨?_, fun produced _ hpass => ?_, fun hnone =>
    absurd (Passes.skipped habs) (hnone hent sbSize)⟩
  · rw [below_doSbTraced hent, habs]
    refine iff_of_true nofun fun h => ?_
    exact Bool.false_ne_true (habs.symm.trans h.decoded.present)
  · rw [doSb_eq hent.fits hent.room hent.inside, if_pos habs]
    cases hpass with
    | skipped _ => exact spotOf_skipSb st
    | copied hpres _ _ => exact absurd (habs.symm.trans hpres) Bool.false_ne_true
    | decoded hdecoded _ => exact absurd (habs.symm.trans hdecoded.present) Bool.false_ne_true

theorem stepsFrom_of_stored (hent : Enters job (spotOf st))
    (hpres : job.present st.destIndex = true) (hstor : le16 job.cbStart st.cb < 2 ^ 15) :
    StepsFrom job st := by
  have hin : sbEnd job.cbStart st.cb ≤ job.cbSize := hent.inside
  have hdo := doSb_of_stored hent.fits hent.room hent.inside hpres hstor
  refine ⟨?_, fun produced _ hpass => ?_, fun hnone => ?_⟩
  · rw [below_doSbTraced hent]
    refine iff_of_true (fun _ => ?_) fun h => absurd h.decoded.compressed (not_le.mpr hstor)
    unfold copySbTraced
    split_ifs with hsize
    · exact below_pure _
    · rw [below_bind]
      refine ⟨below_loadBytes ?_, below_pure _⟩
      unfold sbSize checked at *
      omega
  · cases hpass with
    | skipped habs => exact absurd (habs.symm.trans hpres) Bool.false_ne_true
    | copied _ _ hsize =>
      rw [hdo, if_pos (show sbEnd job.cbStart st.cb = st.cb + 2 + sbSize from hsize)]
      exact spotOf_finishSb _ rfl rfl hsize.symm
    | decoded hdecoded _ => exact absurd hdecoded.compressed (not_le.mpr hstor)
  · have hsize : ¬ sbEnd job.cbStart st.cb = st.cb + 2 + sbSize := fun hsize =>
      hnone hent _ (Passes.copied hpres hstor hsize)
    rw [hdo, if_neg hsize]

theorem below_decodeSbTraced (bound : ℕ) (cells : ℕ → UInt8) (st : JobState) (cbSbEnd : ℕ) :
    Below bound (decodeSbTraced job st cbSbEnd) cells ↔
      Below bound (resumeTraced ⟨cbSbEnd, st.destOfs⟩ (cbSbEnd - st.cb) 0 0
        ⟨st.cb + 2, st.destOfs, st.destOfs, st.mem st.destIndex, []⟩) cells := by
  unfold decodeSbTraced resumeTraced
  rw [below_bind, parseTokensTraced, below_bind]
  exact ⟨fun h => ⟨below_pure _, h.1⟩, fun h => ⟨h.2, below_pure _⟩⟩

theorem stepsFrom_of_compressed (hent : Enters job (spotOf st))
    (hdecoded : IsDecoded job (spotOf st)) : StepsFrom job st := by
  have hpres : job.present st.destIndex = true := hdecoded.present
  have hcomp : ¬ le16 job.cbStart st.cb < 2 ^ 15 := not_lt.mpr hdecoded.compressed
  have hdo : ∀ {out : SbState} {ok : Bool}, parseSb job st = (out, ok) → doSb job st = _ :=
    doSb_of_compressed hent.fits hent.room hent.inside hpres hdecoded.compressed
  have hat : StandsAt ⟨sbEnd job.cbStart st.cb, st.destOfs⟩
      ⟨st.cb + 2, st.destOfs, st.destOfs, st.mem st.destIndex, []⟩ (firstToken st.cb) [] :=
    ⟨rfl, rfl, rfl, rfl, trivial⟩
  have hrds := @readsFrom_of_standsAt job.cbStart _ _ _ _ (sbEnd job.cbStart st.cb - st.cb)
    job.cbSize hat hent.inside (by dsimp only [firstToken]; omega)
  refine ⟨?_, fun produced _ hpass => ?_, fun hnone => ?_⟩
  · rw [below_doSbTraced hent, if_neg hcomp, below_decodeSbTraced]
    refine Iff.trans ⟨fun h => h hpres, fun h _ => h⟩ (hrds.below_iff.trans (not_congr ?_))
    exact ⟨fun h => ⟨hent, hdecoded, h.1, h.2⟩, fun h => ⟨h.last, h.half⟩⟩
  · cases hpass with
    | skipped habs => exact absurd (habs.symm.trans hpres) Bool.false_ne_true
    | copied _ hstor _ => exact absurd hstor hcomp
    | decoded _ hends =>
      obtain ⟨out, hrun, hcb, hdest⟩ := hrds.ends _ hends
      rw [hdo hrun]
      exact spotOf_finishSb _ hdest rfl hcb
  · obtain ⟨out, hrun⟩ := hrds.fails fun produced hends =>
      hnone hent _ (Passes.decoded hdecoded hends)
    rw [hdo hrun]
    rfl

theorem stepsFrom (hhdr : le16 job.cbStart st.cb ≠ 0) : StepsFrom job st := by
  by_cases hent : Enters job (spotOf st)
  · cases hpres : job.present st.destIndex with
    | false => exact stepsFrom_of_absent hent hpres
    | true =>
      rcases Nat.lt_or_ge (le16 job.cbStart st.cb) (2 ^ 15) with hstor | hcomp
      · exact stepsFrom_of_stored hent hpres hstor
      · exact stepsFrom_of_compressed hent ⟨hpres, hcomp⟩
  · exact stepsFrom_of_not_enters hhdr hent

theorem reachesStray_iff : ReachesStray job spot ↔
    StrayAt job spot ∨ ∃ next, NextSpot job spot next ∧ ReachesStray job next :=
  exists_path_iff

theorem not_reachesStray_of_not_enters (hnot : ¬ Enters job spot) (hcb : spot.cb + 1 ≠ job.cbSize) :
    ¬ ReachesStray job spot := by
  rw [reachesStray_iff]
  rintro ((hlast | hhalf) | ⟨next, hnext, -⟩)
  · exact hcb hlast
  · exact hnot hhalf.enters
  · exact hnot hnext.enters

theorem NextSpot.cb_eq (h : NextSpot job spot next) : next.cb = sbEnd job.cbStart spot.cb := by
  obtain ⟨-, produced, -, rfl, -⟩ := h
  unfold Spot.behind
  split_ifs <;> rfl

theorem below_doSbsTraced {fuel : ℕ} (hcb : st.cb ≤ job.cbSize)
    (hfuel : job.cbSize < st.cb + fuel) : Below job.cbSize (doSbsTraced job fuel st) job.cbStart ↔
      ¬ ReachesStray job (spotOf st) := by
  -- The position grows with every sub-block, and each of them takes some fuel.
  induction fuel generalizing st with
  | zero => omega
  | succ fuel ih =>
    rw [doSbsTraced]
    by_cases hend : st.cb = job.cbSize
    · rw [if_pos hend]
      refine iff_of_true (below_pure _) (not_reachesStray_of_not_enters (fun h => ?_) ?_)
      · have hroom := h.room
        dsimp only [spotOf] at hroom
        omega
      · dsimp only [spotOf]
        omega
    rw [if_neg hend, below_loadLe16_bind]
    by_cases hlast : st.cb + 1 = job.cbSize
    · refine iff_of_false (fun h => absurd h.1 (by omega)) (not_not.mpr ?_)
      exact reachesStray_iff.mpr (.inl (.inl hlast))
    rw [and_iff_right (by omega)]
    split_ifs with hstop
    · refine iff_of_true (below_pure _) (not_reachesStray_of_not_enters (fun h => ?_) hlast)
      rcases hstop with hzero | ⟨hidx, hofs⟩
      · exact h.header hzero
      · exact h.fits ⟨hidx, by dsimp only [spotOf]; unfold sbSize; omega⟩
    have hsteps := stepsFrom fun hzero => hstop (.inl hzero)
    rw [below_bind, outcome_doSbTraced, hsteps.below_iff, reachesStray_iff]
    by_cases hnext : ∃ next, NextSpot job (spotOf st) next
    · obtain ⟨next, hnext⟩ := hnext
      obtain ⟨hdo, rfl⟩ := hsteps.goes hnext
      have hcb' : (doSb job st).1.cb = sbEnd job.cbStart st.cb := hnext.cb_eq
      have hin : sbEnd job.cbStart st.cb ≤ job.cbSize := hnext.enters.inside
      have hrest := @ih (doSb job st).1 (by omega) (by unfold sbEnd at hcb'; omega)
      rw [hdo]
      rw [hrest]
      constructor
      · rintro ⟨hhalf, hstray⟩ ((hword | hword) | ⟨other, hoth, hrch⟩)
        · exact hlast hword
        · exact hhalf hword
        · exact hstray ((hsteps.goes hoth).2 ▸ hrch)
      · intro h
        exact ⟨fun hhalf => h (.inl (.inr hhalf)), fun hrch => h (.inr ⟨_, hnext, hrch⟩)⟩
    · have hnone : ∀ next, ¬ NextSpot job (spotOf st) next := fun next h => hnext ⟨next, h⟩
      rw [hsteps.fails hnone]
      constructor
      · rintro ⟨hhalf, -⟩ ((hword | hword) | hoth)
        · exact hlast hword
        · exact hhalf hword
        · exact hnext ⟨hoth.choose, hoth.choose_spec.1⟩
      · exact fun h => ⟨fun hhalf => h (.inl (.inr hhalf)), below_pure _⟩

end

theorem doSbsTraced_congr (job : Job) (other : ℕ → UInt8) (fuel : ℕ) (st : JobState) :
    doSbsTraced { job with cbStart := other } fuel st = doSbsTraced job fuel st := by
  induction fuel generalizing st with
  | zero => rfl
  | succ fuel ih =>
    rw [doSbsTraced]
    simp only [ih]
    rfl

/-! ### The bytes that the decoder reads -/

/-- `ntfs_decompress` reads below the end of the compression block if it reaches no place with one
byte left, and no phrase whose second byte is behind the end. -/
theorem reads_below_iff (pages : DestPages) (destIndex destOfs destMaxIndex destMaxOfs xpage : ℕ)
    (xpageDone : Bool) (cbStart : ℕ → UInt8) (cbSize iSize initializedSize : ℕ) :
    Below cbSize (ntfsDecompressTraced pages destIndex destOfs destMaxIndex destMaxOfs
      xpage xpageDone
        cbSize iSize initializedSize) cbStart ↔
      ¬ ReachesStray ⟨cbStart, cbSize, destMaxIndex, destMaxOfs, pages.held⟩
        ⟨0, destIndex, destOfs⟩ := by
  unfold ntfsDecompressTraced
  rw [below_bind, and_iff_left (below_pure _), ← doSbsTraced_congr _ cbStart]
  exact below_doSbsTraced (Nat.zero_le _) (by dsimp only; omega)

def oneByteLeft (i : ℕ) : UInt8 :=
  if i = 0 then 0xff else if i = 1 then 0x3f else if i = 4098 then 0xfa else if i = 4099 then 0xbf
  else 0

/-- Two pages at the start of a file, of which the second has been read. -/
def firstPage : DestPages := ⟨fun index => index == 0, id, fun _ _ => 0, fun index => index == 1⟩

/-- A header is read at the last byte of the compression block. -/
theorem not_below_oneByteLeft : ¬ Below 8192
    (ntfsDecompressTraced firstPage 0 0 2 0 0 false 8192 8192 8192) oneByteLeft := by
  have hfirst : sbEnd oneByteLeft 0 = 4098 := by decide
  have hsecond : sbEnd oneByteLeft 4098 = 8191 := by decide
  have hstored : NextSpot ⟨oneByteLeft, 8192, 2, 0, firstPage.held⟩ ⟨0, 0, 0⟩ ⟨4098, 1, 0⟩ := by
    refine ⟨⟨by decide, by decide, by decide, by rw [hfirst]; decide⟩, _,
      Passes.copied rfl (by decide) hfirst, ?_, by decide⟩
    unfold Spot.behind
    rw [if_pos (by decide), hfirst]
  have hskipped : NextSpot ⟨oneByteLeft, 8192, 2, 0, firstPage.held⟩ ⟨4098, 1, 0⟩ ⟨8191, 2, 0⟩ := by
    refine ⟨⟨by decide, by decide, by decide, by rw [hsecond]; decide⟩, _,
      Passes.skipped rfl, ?_, by decide⟩
    unfold Spot.behind
    rw [if_pos (by decide), hsecond]
  have hbelow := @below_doSbsTraced ⟨oneByteLeft, 8192, 2, 0, firstPage.held⟩
    ⟨0, 0, 0, firstPage.mem, [], []⟩ (8192 + 1) (Nat.zero_le _) (by decide)
  unfold ntfsDecompressTraced
  rw [below_bind, and_iff_left (below_pure _), ← doSbsTraced_congr _ oneByteLeft]
  exact fun h => hbelow.mp h ⟨_, (ReflTransGen.single hstored).tail hskipped, .inl rfl⟩

end AdvancedOs.Ntfs.DecompressionReads
