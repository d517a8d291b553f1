import AdvancedOs.Ntfs.Decompression

/-!
# Decompression of untrusted data

The bytes of a compression block come from the disk, and the decoder has to stay inside the pages it
is given whatever they are. A phrase is checked against the end of the sub-block before it is
copied, but a literal is stored as long as the position is not behind that end: at the end itself it
is stored too, in the first byte behind the page, and the next sub-block then starts at offset one.

`Overfull` says of the bytes of a sub-block that they do this, and `ReachesOverfull` that the
decoder comes to such a sub-block. Inside a sub-block the two ways it can go are
`mem_stores_of_overfull` and `parseTags_of_not_overfull`; `doSb_safe` is a step of the loop over the
sub-blocks, `doSbs_safe` and `mem_log_of_reachesOverfull` its runs. `log_inBounds_iff` is the
result: every access of the destination is in bounds exactly when no overfull sub-block is reached.
-/

namespace AdvancedOs.Ntfs.DecompressionSafety

open Foundation.ArraySegments Foundation.BackReferences CompressionFormat RunlistElements
  Decompression Relation List

/-! ### What untrusted data can do -/

/-- The tokens of the sub-block from `start` up to `stop` produce all of its 4096 bytes, and a
literal follows. -/
def Overfull (bytes : ℕ → UInt8) (start stop : ℕ) : Prop :=
  ∃ tokens cursor, Reads bytes stop (firstToken start) tokens cursor ∧ cursor.produced = sbSize ∧
    (cursor.load bytes).pos < stop ∧ (cursor.load bytes).tag % 2 = 0

/-- The tokens of the sub-block go to its end, where a last tag may have none. -/
def Closes (bytes : ℕ → UInt8) (start stop : ℕ) : Prop :=
  ∃ tokens cursor, Reads bytes stop (firstToken start) tokens cursor ∧
    (cursor.pos = stop ∨ (cursor.load bytes).pos = stop)

/-- Where a sub-block starts: the position of its header, and the entry of its page. -/
structure Place where
  cb : ℕ
  index : ℕ

section

variable (job : Job)

/-- There is a sub-block at the place, and an entry for it. -/
structure StartsSb (place : Place) : Prop where
  header : le16 job.cbStart place.cb ≠ 0
  entry : place.index < job.destMaxIndex
  room : place.cb + 6 ≤ job.cbSize
  inside : sbEnd job.cbStart place.cb ≤ job.cbSize

/-- Decoding goes from one sub-block to the next: it has no page, or is stored in full size, or its
tokens go to its end. -/
structure NextSb (place next : Place) : Prop where
  starts : StartsSb job place
  next_eq : next = ⟨sbEnd job.cbStart place.cb, place.index + 1⟩
  decodes : job.present place.index = false ∨
    (le16 job.cbStart place.cb < 2 ^ 15 ∧ sbEnd job.cbStart place.cb = place.cb + 2 + sbSize) ∨
    (2 ^ 15 ≤ le16 job.cbStart place.cb ∧ Closes job.cbStart place.cb (sbEnd job.cbStart place.cb))

/-- The sub-block at the place has a page and is compressed, and its tokens make it overfull. -/
structure OverfullAt (place : Place) : Prop where
  starts : StartsSb job place
  present : job.present place.index = true
  compressed : 2 ^ 15 ≤ le16 job.cbStart place.cb
  overfull : Overfull job.cbStart place.cb (sbEnd job.cbStart place.cb)

def ReachesOverfull (start : Place) : Prop :=
  ∃ place, ReflTransGen (NextSb job) start place ∧ OverfullAt job place

end

/-! ### Where the tokens of a sub-block end -/

section

variable {bytes : ℕ → UInt8} {stop : ℕ} {start cursor : Cursor} {tokens : List (Token UInt8)}

theorem exists_last_token (hrds : Reads bytes stop start tokens cursor) :
    ∃ tokens cursor, Reads bytes stop start tokens cursor ∧ ∀ token next,
      ¬ Step bytes stop cursor token next := by
  -- Every token takes at least a byte, and the positions before a token lie before `stop`.
  induction hn : stop - cursor.pos using Nat.strong_induction_on generalizing tokens cursor with
  | _ n ih =>
    by_cases hmore : ∃ token next, Step bytes stop cursor token next
    · obtain ⟨token, next, hstep⟩ := hmore
      refine ih _ ?_ (hrds.concat hstep) rfl
      have hin := hstep.inside
      have hload := cursor.le_pos_load bytes
      have hnext := (cursor.load bytes).pos_lt_advance token
      rw [← hstep.next_eq] at hnext
      omega
    · exact ⟨tokens, cursor, hrds, fun token next hstep => hmore ⟨token, next, hstep⟩⟩

end

/-! ### Stores of a sub-block -/

section

variable {src : ℕ → UInt8} {sb : SbBounds} {st : SbState} {cursor : Cursor} {out : List UInt8}
  {fuel : ℕ}

theorem stores_parseToken (src : ℕ → UInt8) (sb : SbBounds) (tag : ℕ) (st : SbState) :
    st.stores <+: (parseToken src sb tag st).1.stores := by
  unfold parseToken
  dsimp only
  split_ifs
  · exact prefix_rfl
  · exact prefix_append _ _
  · exact prefix_rfl
  · exact prefix_rfl
  · exact prefix_rfl
  · exact prefix_append _ _

theorem stores_parseTokens (src : ℕ → UInt8) (sb : SbBounds) (count tag : ℕ) (st : SbState) :
    st.stores <+: (parseTokens src sb count tag st).1.stores := by
  induction count generalizing tag st with
  | zero => exact prefix_rfl
  | succ count ih =>
    have htok := stores_parseToken src sb tag st
    rw [parseTokens]
    generalize parseToken src sb tag st = parsed at htok ⊢
    rcases parsed with ⟨st', _ | _ | _⟩
    · exact htok.trans (ih _ _)
    · exact htok
    · exact htok

theorem stores_parseTags (src : ℕ → UInt8) (sb : SbBounds) (fuel : ℕ) (st : SbState) :
    st.stores <+: (parseTags src sb fuel st).1.stores := by
  induction fuel generalizing st with
  | zero => exact prefix_rfl
  | succ fuel ih =>
    rw [parseTags]
    split_ifs
    · unfold fillSb
      split_ifs
      · exact prefix_append _ _
      · exact prefix_rfl
    · exact prefix_rfl
    · have htoke := stores_parseTokens src sb 8 (src st.cb).toNat { st with cb := st.cb + 1 }
      generalize parseTokens src sb 8 (src st.cb).toNat { st with cb := st.cb + 1 } =
        parsed at htoke ⊢
      rcases parsed with ⟨st', _ | _⟩
      · exact htoke
      · exact htoke.trans (ih _)

theorem stores_resume (src : ℕ → UInt8) (sb : SbBounds) (fuel left tag : ℕ) (st : SbState) :
    st.stores <+: (resume src sb fuel left tag st).1.stores := by
  have htoke := stores_parseTokens src sb left tag st
  unfold resume
  generalize parseTokens src sb left tag st = parsed at htoke ⊢
  rcases parsed with ⟨st', _ | _⟩
  · exact htoke
  · exact htoke.trans (stores_parseTags src sb fuel st')

/-- Assumes: a state at the first token of an overfull sub-block, and enough fuel. A byte is stored
behind its end. -/
theorem mem_stores_of_overfull {start : ℕ} (hover : Overfull src start sb.cbSbEnd)
    (hcb : st.cb = start + 2) (hdpAddr : st.dpAddr = sb.doSbStart)
    (hdestOfs : st.destOfs = sb.doSbStart) (hfuel : sb.cbSbEnd < st.cb + fuel) :
    sb.doSbStart + sbSize ∈ (parseTags src sb fuel st).1.stores := by
  obtain ⟨tokens, cursor, hrds, hfull, hin, hlit⟩ := hover
  have hfst : firstToken start = ⟨0, 0, st.cb, 0⟩ := by rw [firstToken, hcb]
  rw [hfst] at hrds
  have hat : StandsAt sb st ⟨0, 0, st.cb, 0⟩ [] := ⟨rfl, hdpAddr, hdestOfs, rfl, trivial⟩
  obtain ⟨read, fuel', hrun, hatRead, -, hfuel'⟩ := resume_reads hrds hat hfuel
  have hbef : cursor.pos < sb.cbSbEnd := (cursor.le_pos_load src).trans_lt hin
  obtain ⟨loaded, fuel'', hload, hatLoaded, -, -, hleft⟩ :=
    @resume_load src sb read cursor _ fuel' hatRead hbef hfull.le hfuel'
  obtain ⟨left, hsucc⟩ := Nat.exists_eq_succ_of_ne_zero hleft
  have hdp : loaded.dpAddr = sb.doSbStart + sbSize := by
    rw [hatLoaded.dpAddr_eq, Cursor.produced_load, hfull]
  obtain ⟨st', htok, -, -, hstor⟩ := parseToken_literal hatLoaded hin
    (by rw [Cursor.produced_load, hfull]) hlit
  rw [parseTags_eq_resume st 0, hrun, hload, hsucc, resume_of_next htok]
  refine (stores_resume _ _ _ _ _ _).subset ?_
  rw [hstor, hdp]
  simp

theorem parseToken_of_not_fits (hat : StandsAt sb st cursor out) (hin : cursor.pos < sb.cbSbEnd)
    (hprod : cursor.produced ≤ sbSize) (htag : ¬ cursor.tag % 2 = 0)
    (hnot : ¬ Fits cursor.produced (cursor.token src)) :
    ∃ st', parseToken src sb cursor.tag st = (st', .overflow) ∧ Inside sb st st' := by
  have hdpAddr := hat.dpAddr_eq
  have hdestOfs := hat.destOfs_eq
  have htok : cursor.token src = .phrase (phraseBack cursor.produced (le16 src cursor.pos))
      (phraseLength cursor.produced (le16 src cursor.pos)) := if_neg htag
  obtain ⟨hlg, hback, hlen⟩ := phrase_eq src cursor.pos hprod hdestOfs
  rw [htok] at hnot
  rw [parseToken, if_neg (hat.goes hin hprod), Nat.and_one_is_mod, if_neg htag]
  by_cases hst : st.dpAddr = sb.dpSbStart
  · rw [if_pos hst]
    exact ⟨st, rfl, Inside.refl sb st⟩
  rw [if_neg hst]
  simp only [hlg, hat.cb_eq]
  simp only [Nat.add_assoc, hback, hlen]
  split_ifs with hfar hlong
  · exact ⟨st, rfl, Inside.refl sb st⟩
  · exact ⟨_, rfl, fun _ _ => rfl, [], by simp⟩
  · refine absurd ⟨?_, ?_⟩ hnot
    · unfold SbBounds.dpSbStart at hfar
      omega
    · unfold SbBounds.doSbEnd at hlong
      omega

/-- Assumes: a state at the first token of a sub-block that is not overfull, and enough fuel.
Nothing is stored outside of its 4096 bytes, and when it is decoded its tokens go to its end. -/
theorem parseTags_of_not_overfull {start : ℕ} (hnot : ¬ Overfull src start sb.cbSbEnd)
    (hcb : st.cb = start + 2) (hdpAddr : st.dpAddr = sb.doSbStart)
    (hdestOfs : st.destOfs = sb.doSbStart) (hfuel : sb.cbSbEnd < st.cb + fuel) :
    ∃ st' ok, parseTags src sb fuel st = (st', ok) ∧ Inside sb st st' ∧
      (ok = true → st'.cb = sb.cbSbEnd ∧ st'.destOfs = sb.doSbEnd ∧
      Closes src start sb.cbSbEnd) := by
  have hfst : firstToken start = ⟨0, 0, st.cb, 0⟩ := by rw [firstToken, hcb]
  obtain ⟨tokens, cursor, hrds, hlast⟩ :=
    exists_last_token (@Reads.start src sb.cbSbEnd (firstToken start))
  by_cases hend : cursor.pos = sb.cbSbEnd ∨ (cursor.load src).pos = sb.cbSbEnd
  · obtain ⟨st', hpars, hstop, hofs, -, hin⟩ :=
      parseTags_of_reads (hfst ▸ hrds) hend hdpAddr hdestOfs hfuel
    exact ⟨st', true, hpars, hin, fun _ => ⟨hstop, hofs, tokens, cursor, hrds, hend⟩⟩
  have hprod := hrds.produced_le rfl
  have hat : StandsAt sb st (firstToken start) [] := by
    rw [hfst]
    exact ⟨rfl, hdpAddr, hdestOfs, rfl, trivial⟩
  obtain ⟨read, fuel', hrun, hatRead, hin, hfuel'⟩ := resume_reads hrds hat
    (by rw [hfst]; exact hfuel)
  rw [parseTags_eq_resume st (firstToken start).tag]
  rw [show (0 : ℕ) = (firstToken start).left from rfl, hrun]
  have hcur := not_or.mp hend
  rcases Nat.lt_or_gt_of_ne hcur.1 with hbef | hbeh
  · obtain ⟨loaded, fuel'', hload, hatLoaded, hin', -, hleft⟩ :=
      @resume_load src sb read cursor _ fuel' hatRead hbef hprod hfuel'
    obtain ⟨left, hsucc⟩ := Nat.exists_eq_succ_of_ne_zero hleft
    have hinsi : (cursor.load src).pos < sb.cbSbEnd := by
      refine lt_of_le_of_ne ?_ hcur.2
      unfold Cursor.load
      split_ifs
      · exact hbef
      · exact hbef.le
    have hfits : ¬ Fits (cursor.load src).produced ((cursor.load src).token src) := fun hfits =>
      hlast _ _ ⟨hinsi, rfl, by rwa [Cursor.produced_load] at hfits, rfl⟩
    have htag : ¬ (cursor.load src).tag % 2 = 0 := by
      intro hlit
      refine hnot ⟨tokens, cursor, hrds, ?_, hinsi, hlit⟩
      rw [Cursor.token, if_pos hlit, Cursor.produced_load] at hfits
      exact le_antisymm hprod (not_lt.mp hfits)
    obtain ⟨st', htok, hin''⟩ := parseToken_of_not_fits hatLoaded hinsi
      (by rwa [Cursor.produced_load]) htag hfits
    refine ⟨st', false, ?_, (hin.trans hin').trans hin'', by simp⟩
    rw [hload, hsucc, resume, parseTokens, htok]
  · have hpast : sb.cbSbEnd < read.cb := by
      rw [hatRead.cb_eq]
      exact hbeh
    exact ⟨read, false, by rw [resume_of_leave (.inl hpast.le),
      parseTags_of_past hpast.ne' (.inl hpast)], hin, by simp⟩

end

/-! ### Accesses of the whole loop -/

/-- The access is as it should be: a sub-block starts at the start of a page, an entry belongs to
the array of `nrPages` pages, and a store stays inside its page. -/
def InBounds (nrPages : ℕ) : Access → Prop
  | .subBlock destOfs => destOfs = 0
  | .entry index => index < nrPages
  | .store index offset => index < nrPages ∧ offset < 4096

section

variable {job : Job} {st : JobState} {nrPages : ℕ}

theorem log_finishSb (st : JobState) (destOfs : ℕ) : (finishSb job st destOfs).1.log = st.log := by
  unfold finishSb
  split_ifs <;> rfl

theorem log_doSb (job : Job) (st : JobState) : st.log <+: (doSb job st).1.log := by
  have hst : st.log <+: st.log ++ [Access.subBlock st.destOfs] := prefix_append _ _
  unfold doSb
  dsimp only
  split_ifs
  · exact hst
  · exact hst
  · exact hst
  · unfold skipSb
    split_ifs <;> exact hst.trans (prefix_append _ _)
  · unfold copySb
    split_ifs
    · exact hst.trans (prefix_append _ _)
    · rw [log_finishSb]
      exact (hst.trans (prefix_append _ _)).trans (prefix_append _ _)
  · unfold decodeSb
    dsimp only
    split_ifs
    · rw [log_finishSb]
      exact (hst.trans (prefix_append _ _)).trans (prefix_append _ _)
    · exact (hst.trans (prefix_append _ _)).trans (prefix_append _ _)

theorem log_doSbs (job : Job) (fuel : ℕ) (st : JobState) : st.log <+: (doSbs job fuel st).1.log :=
  @doSbs_induction job (fun st st' => st.log <+: st'.log) (fun _ => prefix_rfl) List.IsPrefix.trans
    (fun st _ => log_doSb job st) fuel st

end

/-! ### One sub-block -/

def placeOf (st : JobState) : Place := ⟨st.cb, st.destIndex⟩

section

variable {job : Job} {st : JobState} {nrPages : ℕ}

theorem StartsSb.fits (hst : StartsSb job (placeOf st)) :
    ¬ (st.destIndex = job.destMaxIndex ∧ job.destMaxOfs < st.destOfs + sbSize) := fun h =>
  hst.entry.ne h.1

theorem doSb_of_absent (hst : StartsSb job (placeOf st)) (hofs : st.destOfs = 0)
    (hpres : job.present st.destIndex = false) :
    doSb job st = ({ checked st with
      cb := sbEnd job.cbStart st.cb, destOfs := 0, destIndex := st.destIndex + 1 }, true) := by
  have hwrap : ((checked st).destOfs + sbSize) % 4096 = 0 := by
    rw [show (checked st).destOfs = 0 from hofs]
    rfl
  rw [doSb_eq hst.fits hst.room hst.inside, if_pos hpres, skipSb, if_pos hwrap]
  exact Prod.ext rfl (decide_eq_true hst.entry)

theorem doSb_of_nextSb {next : Place} (hofs : st.destOfs = 0)
    (hnext : NextSb job (placeOf st) next) : ∃ st', doSb job st = (st', true) ∧ placeOf st' = next ∧
      st'.destOfs = 0 := by
  have hst := hnext.starts
  have hfull : st.destOfs + sbSize = sbSize := by rw [hofs, Nat.zero_add]
  rw [hnext.next_eq]
  cases hpres : job.present st.destIndex with
  | false => exact ⟨_, doSb_of_absent hst hofs hpres, rfl, rfl⟩
  | true =>
    rcases hnext.decodes with habs | ⟨hflag, hsize⟩ | ⟨hflag, tokens, cursor, hrds, hend⟩
    · exact absurd (habs.symm.trans hpres) Bool.noConfusion
    · have hsize : sbEnd job.cbStart st.cb = st.cb + 2 + sbSize := hsize
      rw [doSb_of_stored hst.fits hst.room hst.inside hpres hflag, if_pos hsize,
        finishSb_of_full hfull]
      exact ⟨_, Prod.ext rfl (decide_eq_true hst.entry), congrArg (Place.mk · _) hsize.symm, rfl⟩
    · obtain ⟨out, hpars, hcb, hdest, -⟩ := parseSb_of_reads hrds hend
      rw [doSb_of_compressed hst.fits hst.room hst.inside hpres hflag hpars,
        if_pos rfl, finishSb_of_full (hdest.trans hfull)]
      exact ⟨_, Prod.ext rfl (decide_eq_true hst.entry), congrArg (Place.mk · _) hcb, rfl⟩

theorem mem_log_of_overfullAt (hofs : st.destOfs = 0) (hover : OverfullAt job (placeOf st)) :
    Access.store st.destIndex 4096 ∈ (doSb job st).1.log := by
  have hstore : st.destOfs + sbSize ∈ (parseSb job st).1.stores :=
    mem_stores_of_overfull hover.overfull rfl rfl rfl (by dsimp only; omega)
  have hst := hover.starts
  rcases hpars : parseSb job st with ⟨out, ok⟩
  rw [hpars, hofs] at hstore
  rw [doSb_of_compressed hst.fits hst.room hst.inside hover.present hover.compressed hpars]
  have hmem : Access.store st.destIndex 4096 ∈ (decoded st out).log := by
    refine mem_append_right _ (mem_map_of_mem ?_)
    exact hstore
  cases ok with
  | true => rwa [if_pos rfl, log_finishSb]
  | false => exact hmem

/-- What has been done between two states is in bounds. -/
structure Safe (nrPages : ℕ) (st st' : JobState) : Prop where
  log : ∃ more, st'.log = st.log ++ more ∧ ∀ access ∈ more, InBounds nrPages access
  completed : ∀ di ∈ st'.completed, di ∈ st.completed ∨ di < nrPages

theorem Safe.refl (nrPages : ℕ) (st : JobState) : Safe nrPages st st :=
  ⟨⟨[], by simp⟩, fun _ hdi => .inl hdi⟩

theorem Safe.trans {first second third : JobState} (hfst : Safe nrPages first second)
    (hsec : Safe nrPages second third) : Safe nrPages first third := by
  obtain ⟨more, hmore, hin⟩ := hfst.log
  obtain ⟨other, hoth, hin'⟩ := hsec.log
  refine ⟨⟨more ++ other, by rw [hoth, hmore, append_assoc], fun access hacce => ?_⟩, ?_⟩
  · exact (mem_append.mp hacce).elim (hin access) (hin' access)
  · intro di hdi
    exact (hsec.completed di hdi).elim (hfst.completed di) .inr

/-- What a sub-block that is not overfull does: its accesses are in bounds, and when there is a next
one, decoding goes on to it. -/
def SafeStep (job : Job) (nrPages : ℕ) (st : JobState) : Prop :=
  ∃ st' ok, doSb job st = (st', ok) ∧ Safe nrPages st st' ∧
    (ok = true → st'.destOfs = 0 ∧ NextSb job (placeOf st) (placeOf st'))

theorem safe_of_checked (hofs : st.destOfs = 0) (hent : st.destIndex < nrPages) {stores : List ℕ}
    (hstor : ∀ i ∈ stores, i < 4096) {st' : JobState}
    (hlog : st'.log = (checked st).log ++ stores.map (Access.store st.destIndex))
    (hcomp : ∀ di ∈ st'.completed, di ∈ st.completed ∨ di = st.destIndex) :
    Safe nrPages st st' := by
  refine ⟨⟨[Access.subBlock st.destOfs, Access.entry st.destIndex] ++
    stores.map (Access.store st.destIndex), ?_, ?_⟩, ?_⟩
  · rw [hlog, ← append_assoc]
    rfl
  · intro access hacce
    rcases mem_append.mp hacce with hst | hstore
    · rcases mem_pair.mp hst with rfl | rfl
      · exact hofs
      · exact hent
    · obtain ⟨offset, hoffs, rfl⟩ := mem_map.mp hstore
      exact ⟨hent, hstor offset hoffs⟩
  · intro di hdi
    rcases hcomp di hdi with hold | rfl
    · exact .inl hold
    · exact .inr hent

theorem safeStep_of_absent (hst : StartsSb job (placeOf st)) (hofs : st.destOfs = 0)
    (hent : st.destIndex < nrPages) (hpres : job.present st.destIndex = false) :
    SafeStep job nrPages st := by
  refine ⟨_, _, doSb_of_absent hst hofs hpres, ?_, fun _ => ⟨rfl, hst, rfl, .inl hpres⟩⟩
  exact @safe_of_checked st nrPages hofs hent [] (by simp) _ (append_nil _).symm
    fun di hdi => .inl hdi

theorem safeStep_of_stored (hst : StartsSb job (placeOf st)) (hofs : st.destOfs = 0)
    (hent : st.destIndex < nrPages) (hpres : job.present st.destIndex = true)
    (hflag : le16 job.cbStart st.cb < 2 ^ 15) : SafeStep job nrPages st := by
  unfold SafeStep
  rw [doSb_of_stored hst.fits hst.room hst.inside hpres hflag]
  split_ifs with hstop
  · rw [finishSb_of_full (by rw [hofs, Nat.zero_add])]
    refine ⟨_, _, rfl, safe_of_checked hofs hent (fun i hi => ?_) rfl ?_,
      fun _ => ⟨rfl, hst, congrArg (Place.mk · _) hstop.symm, .inr (.inl ⟨hflag, hstop⟩)⟩⟩
    · rw [hofs] at hi
      exact (mem_range'_1.mp hi).2
    · intro di hdi
      exact (mem_append.mp hdi).imp_right mem_singleton.mp
  · refine ⟨_, _, rfl, @safe_of_checked st nrPages hofs hent [] (by simp) _ ?_ ?_, nofun⟩
    · exact (append_nil _).symm
    · exact fun di hdi => .inl hdi

theorem safeStep_of_compressed (hst : StartsSb job (placeOf st)) (hofs : st.destOfs = 0)
    (hent : st.destIndex < nrPages) (hpres : job.present st.destIndex = true)
    (hflag : 2 ^ 15 ≤ le16 job.cbStart st.cb) (hnot : ¬ OverfullAt job (placeOf st)) :
    SafeStep job nrPages st := by
  obtain ⟨out, ok, hpars, hin, hclose⟩ := @parseTags_of_not_overfull job.cbStart
    ⟨sbEnd job.cbStart st.cb, st.destOfs⟩
    ⟨st.cb + 2, st.destOfs, st.destOfs, st.mem st.destIndex, []⟩
    (sbEnd job.cbStart st.cb - st.cb) st.cb
    (fun hover => hnot ⟨hst, hpres, hflag, hover⟩) rfl rfl rfl (by dsimp only; omega)
  obtain ⟨more, hmore, hstor⟩ := hin.stores
  have hby : ∀ i ∈ out.stores, i < 4096 := by
    intro i hi
    rw [hmore, nil_append] at hi
    have hi' := (hstor i hi).2
    rwa [hofs, Nat.zero_add] at hi'
  unfold SafeStep
  rw [doSb_of_compressed hst.fits hst.room hst.inside hpres hflag hpars]
  cases ok with
  | false =>
    exact ⟨_, _, rfl, safe_of_checked hofs hent hby rfl fun di hdi => .inl hdi, nofun⟩
  | true =>
    obtain ⟨hcb', hofs', hclos⟩ := hclose rfl
    rw [if_pos rfl, finishSb_of_full (hofs'.trans (by rw [SbBounds.doSbEnd, hofs, Nat.zero_add]))]
    refine ⟨_, _, rfl, safe_of_checked hofs hent hby rfl fun di hdi => ?_,
      fun _ => ⟨rfl, hst, congrArg (Place.mk · _) hcb', .inr (.inr ⟨hflag, hclos⟩)⟩⟩
    exact (mem_append.mp hdi).imp_right mem_singleton.mp

/-- Assumes: a state at the start of a page, with something left to decode, and a sub-block that is
not overfull. Its step is safe. -/
theorem doSb_safe (hofs : st.destOfs = 0) (hgoes : ¬ AtEnd job st)
    (hidx : st.destIndex ≤ job.destMaxIndex) (hpgs : job.destMaxIndex ≤ nrPages)
    (hmaxOfs : job.destMaxOfs < 4096) (hnot : ¬ OverfullAt job (placeOf st)) :
    SafeStep job nrPages st := by
  by_cases hente : ¬ (st.destIndex = job.destMaxIndex ∧ job.destMaxOfs < st.destOfs + sbSize) ∧
      st.cb + 6 ≤ job.cbSize ∧ sbEnd job.cbStart st.cb ≤ job.cbSize
  swap
  · refine ⟨_, _, doSb_of_rejected hente, ⟨⟨_, rfl, fun access hacce => ?_⟩, fun di hdi =>
      .inl hdi⟩, nofun⟩
    rw [mem_singleton.mp hacce]
    exact hofs
  obtain ⟨hfits, hroom, hinsi⟩ := hente
  have hent : st.destIndex < job.destMaxIndex := by
    refine lt_of_le_of_ne hidx fun hlast => hfits ⟨hlast, ?_⟩
    unfold sbSize
    omega
  have hst : StartsSb job (placeOf st) :=
    ⟨fun hzero => hgoes (.inr (.inl hzero)), hent, hroom, hinsi⟩
  have hin := hent.trans_le hpgs
  cases hpres : job.present st.destIndex with
  | false => exact safeStep_of_absent hst hofs hin hpres
  | true =>
    rcases Nat.lt_or_ge (le16 job.cbStart st.cb) (2 ^ 15) with hflag | hflag
    · exact safeStep_of_stored hst hofs hin hpres hflag
    · exact safeStep_of_compressed hst hofs hin hpres hflag hnot

end

/-! ### The whole loop -/

section

variable {job : Job} {st : JobState} {nrPages : ℕ}

theorem StartsSb.not_atEnd (hst : StartsSb job (placeOf st)) : ¬ AtEnd job st := by
  have hroom : st.cb + 6 ≤ job.cbSize := hst.room
  have hent : st.destIndex < job.destMaxIndex := hst.entry
  rintro (hcb | hzero | ⟨hidx, -⟩)
  · omega
  · exact hst.header hzero
  · omega

/-- Assumes: a state at the start of a page, from which no overfull sub-block is reached. Whatever
the loop does is in bounds. -/
theorem doSbs_safe (hofs : st.destOfs = 0) (hidx : st.destIndex ≤ job.destMaxIndex)
    (hpgs : job.destMaxIndex ≤ nrPages) (hmaxOfs : job.destMaxOfs < 4096)
    (hnot : ¬ ReachesOverfull job (placeOf st)) (fuel : ℕ) :
    Safe nrPages st (doSbs job fuel st).1 := by
  induction fuel generalizing st with
  | zero => exact Safe.refl nrPages st
  | succ fuel ih =>
    rw [doSbs]
    split_ifs with hend
    · exact Safe.refl nrPages st
    · obtain ⟨st', ok, hdo, hsafe, hnext⟩ := doSb_safe hofs hend hidx hpgs hmaxOfs
        fun hover => hnot ⟨_, .refl, hover⟩
      rw [hdo]
      cases ok with
      | false => exact hsafe
      | true =>
        obtain ⟨hofs', hstep⟩ := hnext rfl
        have hidx' : st'.destIndex ≤ job.destMaxIndex := by
          rw [show st'.destIndex = st.destIndex + 1 from congrArg Place.index hstep.next_eq]
          exact hstep.starts.entry
        refine hsafe.trans (ih hofs' hidx' ?_)
        rintro ⟨place, hpath, hover⟩
        exact hnot ⟨place, hpath.head hstep, hover⟩

theorem log_doSb_doSbs (hgoes : ¬ AtEnd job st) (fuel : ℕ) :
    (doSb job st).1.log <+: (doSbs job (fuel + 1) st).1.log := by
  rw [doSbs, if_neg hgoes]
  rcases doSb job st with ⟨st', _ | _⟩
  · exact prefix_rfl
  · exact log_doSbs job fuel st'

/-- Assumes: a state at the start of a page, from which an overfull sub-block is reached, and enough
fuel. The loop stores a byte behind the end of a page. -/
theorem mem_log_of_reachesOverfull {fuel : ℕ} (hofs : st.destOfs = 0)
    (hrch : ReachesOverfull job (placeOf st)) (hfuel : job.cbSize < st.cb + fuel) :
    ∃ index, Access.store index 4096 ∈ (doSbs job fuel st).1.log := by
  obtain ⟨place, hpath, hover⟩ := hrch
  generalize hpl : placeOf st = start at hpath
  induction hpath using ReflTransGen.head_induction_on generalizing st fuel with
  | refl =>
    subst hpl
    have hroom : st.cb + 6 ≤ job.cbSize := hover.starts.room
    obtain ⟨fuel, rfl⟩ : ∃ rest, fuel = rest + 1 := Nat.exists_eq_succ_of_ne_zero (by omega)
    exact ⟨_, (log_doSb_doSbs hover.starts.not_atEnd fuel).subset
      (mem_log_of_overfullAt hofs hover)⟩
  | head hstep _ ih =>
    subst hpl
    have hroom : st.cb + 6 ≤ job.cbSize := hstep.starts.room
    obtain ⟨fuel, rfl⟩ : ∃ rest, fuel = rest + 1 := Nat.exists_eq_succ_of_ne_zero (by omega)
    obtain ⟨st', hdo, hpl', hofs'⟩ := doSb_of_nextSb hofs hstep
    have hcb : st'.cb = sbEnd job.cbStart st.cb :=
      congrArg Place.cb (hpl'.trans hstep.next_eq)
    rw [doSbs, if_neg hstep.starts.not_atEnd, hdo]
    refine ih hofs' ?_ hpl'
    unfold sbEnd at hcb
    omega

end

/-! ### Untrusted data -/

/-- Assumes: the destination is an array of `nrPages` pages, and it ends at an entry of it or behind
the last. Every sub-block starts at the start of a page, every entry used is one of the array and
every byte is stored inside its page, exactly when decoding comes to no overfull sub-block. -/
theorem log_inBounds_iff (pages : DestPages) (nrPages destIndex destMaxIndex destMaxOfs xpage : ℕ)
    (xpageDone : Bool) (cbStart : ℕ → UInt8) (cbSize iSize initializedSize : ℕ)
    (hindex : destIndex ≤ destMaxIndex) (hpages : destMaxIndex ≤ nrPages)
    (hmaxOfs : destMaxOfs < 4096) :
    (∀ access ∈ (ntfsDecompress pages destIndex 0 destMaxIndex destMaxOfs xpage xpageDone cbStart
        cbSize iSize initializedSize).log, InBounds nrPages access) ↔
      ¬ ReachesOverfull ⟨cbStart, cbSize, destMaxIndex, destMaxOfs, pages.held⟩ ⟨0, destIndex⟩ := by
  constructor
  · intro hall hreaches
    obtain ⟨index, hstore⟩ := @mem_log_of_reachesOverfull _ ⟨0, destIndex, 0, pages.mem, [], []⟩
      (cbSize + 1) rfl hreaches (by dsimp only; omega)
    exact absurd (hall _ (List.mem_append_left _ hstore)).2 (Nat.lt_irrefl 4096)
  · intro hnot access haccess
    obtain ⟨⟨more, hlog, hin⟩, hcompleted⟩ := @doSbs_safe _
      ⟨0, destIndex, 0, pages.mem, [], []⟩ nrPages rfl hindex hpages hmaxOfs hnot (cbSize + 1)
    unfold ntfsDecompress at haccess
    rcases List.mem_append.mp haccess with hfirst | hsecond
    · rw [hlog, List.nil_append] at hfirst
      exact hin access hfirst
    · obtain ⟨di, hdi, rfl⟩ := List.mem_map.mp hsecond
      exact (hcompleted di hdi).resolve_left (List.not_mem_nil)

def storedPage (i : ℕ) : UInt8 := [0xff, 0x0f, 0x61].getD i 0

theorem not_reachesOverfull_storedPage :
    ¬ ReachesOverfull ⟨storedPage, 8192, 2, 0, twoPages.held⟩ ⟨0, 0⟩ := by
  rintro ⟨place, hpath, hover⟩
  rcases hpath.cases_head with rfl | ⟨next, hstep, hrest⟩
  · exact absurd hover.compressed (by decide)
  · have hend : ¬ StartsSb ⟨storedPage, 8192, 2, 0, twoPages.held⟩ next := by
      rw [hstep.next_eq]
      exact fun hst => hst.header (by decide)
    rcases hrest.cases_head with rfl | ⟨_, hstep', -⟩
    · exact hend hover.starts
    · exact hend hstep'.starts

/-- The accesses for a sub-block that is stored. -/
theorem log_inBounds_storedPage : ¬ ReachesOverfull ⟨storedPage, 8192, 2, 0, twoPages.held⟩ ⟨0, 0⟩ ∧
    ∀ access ∈ (ntfsDecompress twoPages 0 0 2 0 0 false storedPage 8192 8192 8192).log,
      InBounds 2 access :=
  ⟨not_reachesOverfull_storedPage, (log_inBounds_iff twoPages 2 0 2 0 0 false storedPage
    8192 8192 8192 (by decide) (by decide) (by decide)).mpr not_reachesOverfull_storedPage⟩

/-- A sub-block of seven bytes: a literal, a phrase that repeats it up to the end, and a literal. -/
def sevenBytes (i : ℕ) : UInt8 := [0x04, 0x80, 0x02, 0x61, 0xfc, 0x0f, 0x62].getD i 0

theorem overfull_sevenBytes : Overfull sevenBytes 0 7 := by
  have hlit : Step sevenBytes 7 (firstToken 0) (.literal 0x61) ⟨7, 1, 4, 1⟩ :=
    ⟨by decide, by decide, by simp [Fits, firstToken, sbSize], by decide⟩
  have hphra : Step sevenBytes 7 ⟨7, 1, 4, 1⟩ (.phrase 1 4095) ⟨6, 0, 6, 4096⟩ :=
    ⟨by decide, by simp [Cursor.load, Cursor.token, phraseBack, phraseLength, extraBits, le16,
      sevenBytes], by simp [Fits, sbSize], by decide⟩
  exact ⟨_, _, (Reads.start.concat hlit).concat hphra, rfl, by decide, by decide⟩

/-- The second literal of the sub-block of seven bytes is stored behind the page. -/
theorem not_inBounds_sevenBytes :
    ¬ ∀ access ∈ (ntfsDecompress twoPages 0 0 2 0 0 false sevenBytes 8192 8192 8192).log,
      InBounds 2 access := by
  intro hall
  have hover : OverfullAt ⟨sevenBytes, 8192, 2, 0, twoPages.held⟩ ⟨0, 0⟩ :=
    ⟨⟨by decide, by decide, by decide, by decide⟩, rfl, by decide, overfull_sevenBytes⟩
  obtain ⟨index, hstore⟩ := @mem_log_of_reachesOverfull ⟨sevenBytes, 8192, 2, 0, twoPages.held⟩
    ⟨0, 0, 0, twoPages.mem, [], []⟩ 8193 rfl ⟨_, .refl, hover⟩ (by decide)
  exact absurd (hall _ (List.mem_append_left _ hstore)).2 (Nat.lt_irrefl 4096)

end AdvancedOs.Ntfs.DecompressionSafety
