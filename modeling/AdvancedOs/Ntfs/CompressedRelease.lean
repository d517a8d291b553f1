import AdvancedOs.Foundation.Ledgers
import AdvancedOs.Ntfs.CompressedReads

/-!
# What a compressed read gives back

`ntfs_read_compressed_block` takes the other pages of the compression block from the page cache, and
a buffer for every block of its clusters. The pages change hands on the way: a page that need not be
read is given back at once, the loops over the pages and the decoder give back those they complete,
and what is left in the array is given back at the end, which every error reaches too. `Ledger` says
that the array holds what was taken and not given back. Each of these steps keeps it, so that the
pages are always given back once.

The buffers are released when they have been read, or when reading one of them fails. If the loop
over the clusters fails, because a cluster cannot be mapped or a buffer cannot be obtained, those it
has obtained before are never released. `settles_iff` says that a read gives back all it has taken
unless it `FailsLate`, and in `not_settled_secondFails` one buffer is kept.
-/

namespace AdvancedOs.Ntfs.CompressedRelease

open Foundation.Ledgers RunlistElements BlockReads Decompression DecompressionSharing
  CompressedReads List

/-! ### The pages -/

/-- The pages of the array are those that were taken and have not been unlocked and released. The
requested page belongs to the caller and need not be released. -/
structure Ledger (xpage : ℕ) (taken : ℕ → Bool) (st : Filling) : Prop where
  unlocks : Balances Event.unlock taken st.pages.held st.log
  releases : Balances (fun i : {i // i ≠ xpage} => Event.release i) (fun i => taken i)
    (fun i => st.pages.held i) st.log
  grabs : ∀ i, Event.grab i ∈ st.log → taken i = true

section

variable {xpage : ℕ} {taken : ℕ → Bool} {st : Filling}

theorem unlock_injective : Function.Injective Event.unlock := fun _ _ h => Event.unlock.inj h

theorem release_injective : Function.Injective fun i : {i // i ≠ xpage} => Event.release i :=
  fun _ _ h => Subtype.ext (Event.release.inj h)

theorem Ledger.giveUp {i : ℕ} (hled : Ledger xpage taken st) (hheld : st.pages.held i = true) :
    Ledger xpage taken (giveUp xpage i st) := by
  have hlog : (CompressedReads.giveUp xpage i st).log =
      st.log ++ [.unlock i] ++ if i = xpage then [] else [.release i] := by
    rw [append_assoc]
    rfl
  refine ⟨?_, ?_, fun j hj => hled.grabs j ?_⟩
  · rw [hlog]
    refine (hled.unlocks.giveBack unlock_injective hheld).append fun j => ?_
    split_ifs <;> simp
  · have hrele : Balances (fun i : {i // i ≠ xpage} => Event.release i) (fun i => taken i)
        (fun i => st.pages.held i) (st.log ++ [.unlock i]) := hled.releases.append (by simp)
    rw [hlog]
    by_cases hi : i = xpage
    · rw [if_pos hi, append_nil]
      convert hrele using 1
      funext j
      exact Function.update_of_ne (fun h => j.2 (h.trans hi)) _ _
    · rw [if_neg hi]
      convert hrele.giveBack (i := ⟨i, hi⟩) release_injective hheld using 1
      funext j
      by_cases hj : j = ⟨i, hi⟩
      · simp [CompressedReads.giveUp, hj]
      · have hne : (j : ℕ) ≠ i := fun h => hj (Subtype.ext h)
        simp [CompressedReads.giveUp, Function.update_of_ne hj, Function.update_of_ne hne]
  · rw [hlog] at hj
    split_ifs at hj <;> simpa using hj

theorem Ledger.of_same {st' : Filling} (hled : Ledger xpage taken st)
    (hheld : st'.pages.held = st.pages.held) (uptodate : List ℕ)
    (hlog : st'.log = st.log ++ uptodate.map .setUptodate) : Ledger xpage taken st' := by
  refine ⟨?_, ?_, fun j hj => hled.grabs j ?_⟩
  · rw [hheld, hlog]
    exact hled.unlocks.append (by simp)
  · rw [hheld, hlog]
    exact hled.releases.append (by simp)
  · rw [hlog] at hj
    simpa using hj

theorem Ledger.complete {i : ℕ} (hled : Ledger xpage taken st) (bytes : ℕ → UInt8)
    (hheld : st.pages.held i = true) : Ledger xpage taken (complete xpage i bytes st) :=
  Ledger.giveUp (hled.of_same rfl [i] rfl) hheld

theorem Ledger.fill {i : ℕ} {bytes : ℕ → UInt8} (hled : Ledger xpage taken st) :
    Ledger xpage taken (fill i bytes st) :=
  hled.of_same rfl [] (append_nil _).symm

theorem Ledger.giveUpAll (hled : Ledger xpage taken st) (entries : List ℕ) :
    Ledger xpage taken (giveUpAll xpage entries st) :=
  giveUpAll_preserves entries (fun _ _ hheld h => h.giveUp hheld) hled

theorem Ledger.completed {st' : Filling} {completed : List ℕ} (hled : Ledger xpage taken st)
    (hnd : completed.Nodup) (hheld : ∀ i ∈ completed, st.pages.held i = true)
    (hleft : ∀ i, st'.pages.held i = (decide (i ∉ completed) && st.pages.held i))
    (hlog : st'.log = st.log ++ completed.flatMap fun i => .setUptodate i :: leaves xpage i) :
    Ledger xpage taken st' := by
  induction completed generalizing st with
  | nil => exact hled.of_same (funext fun i => by simp [hleft i]) [] (by simpa using hlog)
  | cons i completed ih =>
    obtain ⟨hnot, hnd⟩ := nodup_cons.mp hnd
    refine ih (hled.complete (st.pages.mem i) (hheld i mem_cons_self)) hnd
      (fun j hj => ?_) (fun j => ?_) ?_
    · exact (Function.update_of_ne (ne_of_mem_of_not_mem hj hnot) _ _).trans
        (hheld j (mem_cons_of_mem i hj))
    · rw [hleft]
      by_cases hj : j = i
      · simp [CompressedReads.complete, CompressedReads.giveUp, hj]
      · simp [CompressedReads.complete, CompressedReads.giveUp, hj]
    · simp [hlog, CompressedReads.complete, CompressedReads.giveUp]

end

/-! ### Filling the pages -/

section

variable {xpage : ℕ} {taken : ℕ → Bool} {st : Filling} (cbMaxPage cbMaxOfs cbSize : ℕ)

theorem Ledger.finalPage (hled : Ledger xpage taken st) (bytes : Place → Filling → ℕ → UInt8)
    (place : Place) : Ledger xpage taken (finalPage cbMaxOfs cbSize bytes place st) := by
  unfold CompressedReads.finalPage
  split_ifs
  · have hfil : Ledger xpage taken
        (ifHeld place.page (CompressedReads.fill place.page (bytes place st)) st) :=
      ifHeld_preserves hled fun _ => hled.fill
    exact hfil.of_same rfl [] (append_nil _).symm
  · exact hled.of_same rfl [] (append_nil _).symm

theorem Ledger.fillSparse (hled : Ledger xpage taken st) :
    Ledger xpage taken (fillSparse xpage cbMaxPage cbMaxOfs cbSize st) := by
  unfold CompressedReads.fillSparse
  refine Ledger.finalPage cbMaxOfs cbSize (pageLoop_preserves _ _ _ _ (fun place st h => ?_) hled) _
    _
  exact ifHeld_preserves h fun hheld => h.complete _ hheld

theorem Ledger.fillRaw (hled : Ledger xpage taken st) (cb : ℕ → UInt8) (iSize initializedSize : ℕ) :
    Ledger xpage taken (fillRaw xpage cbMaxPage cbMaxOfs cbSize cb iSize initializedSize st) := by
  refine pageLoop_preserves _ _ _ _ (fun place st h => ?_) (Ledger.finalPage cbMaxOfs cbSize
    (pageLoop_preserves _ _ _ _ (fun place st h => ?_) hled) _ _)
  · exact ifHeld_preserves h fun hheld => h.complete _ hheld
  · exact ifHeld_preserves h fun _ => h.fill

/-- The decoder completes pages of the array, each of them once. -/
theorem Ledger.fillCompressed (hled : Ledger xpage taken st) (cb : ℕ → UInt8)
    (iSize initializedSize : ℕ) : Ledger xpage taken
      (fillCompressed xpage cbMaxPage cbMaxOfs cbSize cb iSize initializedSize st).1 := by
  have hnd := nodup_completedPages cbMaxPage cbMaxOfs cbSize cb st
  have hheld := fun i => @held_of_mem_completedPages cbMaxPage cbMaxOfs cbSize cb st i
  have hfil := fun st' hleft hlog => @Ledger.completed xpage taken st st' _ hled hnd hheld
    hleft hlog
  unfold CompressedReads.fillCompressed
  dsimp only
  split
  · exact hfil _ (fun i => (foldl_finalizePage iSize initializedSize _ hnd i).2.2) rfl
  · exact (hfil _ (fun i => (foldl_finalizePage iSize initializedSize _ hnd i).2.2) rfl).giveUpAll _

end

/-! ### The whole read -/

section

variable {State : Type} (mapper : Mapper State) (geo : CompressedReads.Geometry)
  (req : Request State)

def taken (i : ℕ) : Bool :=
  decide (i < geo.maxPage req.index req.iSize) && (entry geo req i).isSome

theorem count_grabPages {event : Event} {i : ℕ} (hevent : event = .unlock i ∨ event = .release i) :
    (grabPages geo req).log.count event + ((grabPages geo req).pages.held i).toNat =
      (taken geo req i).toNat := by
  have hoth : ∀ j, j ≠ i → event ∉ grabEvents geo req j := fun j hj hmem => by
    have hmem := (mem_grabEvents geo req hmem).1
    rcases hevent with rfl | rfl <;> simp [Ne.symm hj] at hmem
  have hcnt : (grabEvents geo req i).count event +
      (((entry geo req i).map CachedPage.toRead).getD false).toNat =
          (entry geo req i).isSome.toNat := by
    unfold grabEvents
    cases entry geo req i with
    | none => simp
    | some page =>
      cases hread : page.toRead <;> rcases hevent with rfl | rfl <;> split_ifs <;> simp [hread]
  change List.count _ ((List.range _).flatMap _) + (decide _ && _).toNat = (decide _ && _).toNat
  rw [count_flatMap_range hoth]
  by_cases hlt : i < geo.maxPage req.index req.iSize
  · rw [if_pos hlt, decide_eq_true hlt, Bool.true_and, Bool.true_and]
    exact hcnt
  · rw [if_neg hlt, decide_eq_false hlt, Bool.false_and, Bool.false_and, Nat.zero_add]

theorem ledger_grabPages : Ledger (geo.xpage req.index) (taken geo req) (grabPages geo req) := by
  refine ⟨fun i => count_grabPages geo req (.inl rfl), fun i => count_grabPages geo req (.inr rfl),
    fun i hi => ?_⟩
  obtain ⟨j, hj, hmem⟩ := mem_flatMap.mp hi
  obtain ⟨hevent, hsome⟩ := mem_grabEvents geo req hmem
  obtain rfl : i = j := by simpa using hevent
  rw [taken, hsome, Bool.and_true]
  exact decide_eq_true (mem_range.mp hj)

theorem ledger_fillPages {st : Filling} (hled : Ledger (geo.xpage req.index) (taken geo req) st)
    (count : ℕ) (cb : ℕ → UInt8) (err : Except Failure Unit) :
    Ledger (geo.xpage req.index) (taken geo req) (fillPages geo req count cb st err).1 := by
  unfold fillPages
  split_ifs
  · exact hled.fillSparse _ _ _
  · exact hled.fillRaw _ _ _ _ _ _
  · exact hled.fillCompressed _ _ _ _ _ _

/-- What has been taken is given back: every buffer and every other page once, and the requested
page is unlocked once. -/
structure Settled (xpage : ℕ) (out : Outcome) : Prop where
  buffers : ∀ n, .getblk n ∈ out.buffers → out.buffers.count (.brelse n) = 1
  requested : out.log.count (.unlock xpage) = 1
  others : ∀ i, i ≠ xpage → .grab i ∈ out.log →
    out.log.count (.unlock i) = 1 ∧ out.log.count (.release i) = 1

theorem settled_of_ledger {st : Filling} (hled : Ledger (geo.xpage req.index) (taken geo req) st)
    (hin : ¬ geo.pagesBelow req.index req.iSize ≤ geo.xpage req.index) {out : Outcome}
    (hlog : out.log =
      (giveUpAll (geo.xpage req.index) (List.range (geo.maxPage req.index req.iSize)) st).log)
    (hbuff : ∀ n, .getblk n ∈ out.buffers → out.buffers.count (.brelse n) = 1) :
    Settled (geo.xpage req.index) out := by
  have hleft : ∀ i, (giveUpAll (geo.xpage req.index)
      (List.range (geo.maxPage req.index req.iSize)) st).pages.held i = false := fun i => by
    rw [held_giveUpAll]
    cases hheld : st.pages.held i with
    | false => exact Bool.and_false _
    | true =>
      have htak := hled.unlocks.taken_of_held hheld
      rw [taken, Bool.and_eq_true, decide_eq_true_iff, ← mem_range] at htak
      simp only [htak.1, not_true_eq_false, decide_false, Bool.false_and]
  have hset := hled.giveUpAll (List.range (geo.maxPage req.index req.iSize))
  have hxpage : taken geo req (geo.xpage req.index) = true := by
    simp [taken, entry, xpage_lt_maxPage geo req.index hin]
  refine ⟨hbuff, ?_, fun i hi hgrab => ?_⟩
  · rw [hlog, hset.unlocks.count_eq (hleft _), hxpage, Bool.toNat_true]
  · rw [hlog] at hgrab ⊢
    rw [hset.unlocks.count_eq (hleft i), hset.releases.count_eq (i := ⟨i, hi⟩) (hleft i),
      hset.grabs i hgrab]
    exact ⟨rfl, rfl⟩

theorem settled_failRead (hin : ¬ geo.pagesBelow req.index req.iSize ≤ geo.xpage req.index)
    {buffers : List BufferEvent}
    (hbuff : ∀ n, .getblk n ∈ buffers → buffers.count (.brelse n) = 1) :
    Settled (geo.xpage req.index) (failRead geo req (grabPages geo req) buffers) := by
  refine settled_of_ledger geo req (ledger_grabPages geo req) hin ?_ hbuff
  rw [range_eq_range']
  rfl

theorem count_brelse (count n : ℕ)
    (hget : BufferEvent.getblk n ∈ (List.range count).map BufferEvent.getblk ++
      (List.range count).map BufferEvent.brelse) :
    ((List.range count).map BufferEvent.getblk ++
      (List.range count).map BufferEvent.brelse).count (.brelse n) = 1 := by
  have hn : n ∈ List.range count := by simpa using hget
  have hnd : ((List.range count).map BufferEvent.brelse).Nodup :=
    nodup_range.map fun _ _ h => BufferEvent.brelse.inj h
  rw [count_append, count_eq_zero.mpr (by simp), Nat.zero_add,
    count_eq_one_of_mem hnd (mem_map_of_mem hn)]

theorem settled_readGathered
    (hin : ¬ geo.pagesBelow req.index req.iSize ≤ geo.xpage req.index) {got : Gathered State}
    {ending : GatherEnd} (hnone : ending = .failed → got.bhs = []) :
    Settled (geo.xpage req.index) (readGathered geo req got ending) := by
  cases ending with
  | failed =>
    rw [readGathered, hnone rfl]
    exact settled_failRead geo req hin (by simp)
  | clusters count =>
    have hbuff := count_brelse got.bhs.length
    rw [readGathered]
    split_ifs
    · exact settled_of_ledger geo req (ledger_fillPages geo req (ledger_grabPages geo req) _ _ _)
        hin rfl hbuff
    · exact settled_failRead geo req hin hbuff

/-- The lookup of a cluster fails: mapping it fails, or it is neither a cluster nor a hole. -/
def LookupFails (found : Located State) : Prop :=
  found.err.isSome = true ∨ (found.lcn < 0 ∧ found.lcn ≠ lcnHole)

/-- The read fails over the clusters when some buffers have been obtained: the lookup of a cluster
fails behind clusters that are mapped, or a buffer other than the first cannot be obtained. -/
def FailsLate : Prop :=
  ∃ ni rl lcns, Mapped mapper (geo.startVcn req.index) req.ni ni rl lcns ∧
    lcns.length ≤ Geometry.cbClusters ∧ ((lcns ≠ [] ∧ lcns.length < Geometry.cbClusters ∧
        (∀ n < (lcns.flatMap (blocksOf geo)).length, req.getblk n = true) ∧
        ∃ found, locate mapper (geo.startVcn req.index + lcns.length : ℕ) ni rl = .ok found ∧
          LookupFails found) ∨
      ∃ n, 0 < n ∧ n < (lcns.flatMap (blocksOf geo)).length ∧ req.getblk n = false ∧
        ∀ m < n, req.getblk m = true)

theorem failsLate_of_gather {st got : Gathered State} {lcns : List ℤ} (left : ℕ)
    (hmap : Mapped mapper (geo.startVcn req.index) req.ni st.ni st.rl lcns)
    (hcnt : lcns.length + left = Geometry.cbClusters) (hbhs : st.bhs = lcns.flatMap (blocksOf geo))
    (hget : ∀ n < st.bhs.length, req.getblk n = true)
    (hgat : gather mapper geo req 0 (geo.startVcn req.index) left lcns.length st =
      .ok (got, .failed)) (hsome : got.bhs ≠ []) : FailsLate mapper geo req := by
  induction left generalizing st lcns with
  | zero =>
    rw [gather] at hgat
    simp at hgat
  | succ left ih =>
    cases hloc : locate mapper (geo.startVcn req.index + lcns.length : ℕ) st.ni st.rl with
    | error why =>
      rw [gather, hloc] at hgat
      cases hgat
    | ok found =>
      have hstops : LookupFails found → got.bhs = st.bhs → FailsLate mapper geo req :=
        fun hfail hgot => by
          rw [hbhs] at hgot hget
          refine ⟨st.ni, st.rl, lcns, hmap, by omega, .inl ⟨?_, by omega, hget, found, hloc, hfail⟩⟩
          rintro rfl
          exact hsome hgot
      rw [gather_succ hloc] at hgat
      split_ifs at hgat with herr hlcn hok hhole
      · obtain ⟨rfl, -⟩ := Prod.mk.inj (Except.ok.inj hgat)
        exact hstops (.inl herr) rfl
      · rcases getCluster_cases geo req found.lcn st.bhs with
          ⟨hall, hgot⟩ | ⟨got', -, -, -, -, hgot⟩
        · rw [hgot] at hgat
          refine @ih ⟨found.ni, found.rl, st.bhs ++ blocksOf geo found.lcn⟩ _
            (hmap.snoc hloc (by simpa using herr) hlcn) ?_ ?_ ?_ ?_
          · rw [length_append, length_singleton]
            omega
          · rw [hbhs, flatMap_append, flatMap_singleton]
          · intro n hn
            by_cases hlt : n < st.bhs.length
            · exact hget n hlt
            · exact hall n (not_lt.mp hlt) hn
          · rw [length_append, length_singleton]
            exact hgat
        · rw [hgot] at hok
          cases hok
      · obtain ⟨rfl, -⟩ := Prod.mk.inj (Except.ok.inj hgat)
        rcases getCluster_cases geo req found.lcn st.bhs with
          ⟨-, hgot⟩ | ⟨got', -, hlt, hnot, hall, hgot⟩
        · rw [hgot] at hok
          exact absurd rfl hok
        · rw [hgot] at hsome
          refine ⟨found.ni, found.rl, _, hmap.snoc hloc (by simpa using herr) hlcn, ?_,
            .inr ⟨got'.length, length_pos_iff.mpr hsome, ?_, hnot, fun m hm => ?_⟩⟩
          · rw [length_append, length_singleton]
            omega
          · rw [flatMap_append, flatMap_singleton, ← hbhs]
            exact hlt
          · by_cases hlt : m < st.bhs.length
            · exact hget m hlt
            · exact hall m (not_lt.mp hlt) hm
      · cases (Prod.mk.inj (Except.ok.inj hgat)).2
      · obtain ⟨rfl, -⟩ := Prod.mk.inj (Except.ok.inj hgat)
        exact hstops (.inr ⟨not_le.mp hlcn, hhole⟩) rfl

theorem blocksOf_ne_nil (lcn : ℤ) : blocksOf geo lcn ≠ [] := by
  have hpos : clusterBlocks geo ≠ 0 :=
    Nat.ne_of_gt (Nat.div_pos (Nat.pow_le_pow_right (by decide) geo.blocksizeBits_le)
      (Nat.two_pow_pos _))
  unfold blocksOf
  obtain ⟨fuel, hfuel⟩ := Nat.exists_eq_succ_of_ne_zero hpos
  rw [hfuel]
  exact cons_ne_nil _ _

theorem gather_of_getblk {ni : State} {rl : Option (List RunlistElement)} {lcns : List ℤ}
    (hmap : Mapped mapper (geo.startVcn req.index) req.ni ni rl lcns) {n : ℕ} (hpos : 0 < n)
    (hlt : n < (lcns.flatMap (blocksOf geo)).length) (hnot : req.getblk n = false)
    (hall : ∀ m < n, req.getblk m = true) (left : ℕ) :
    ∃ got, gather mapper geo req 0 (geo.startVcn req.index) (lcns.length + left) 0
      ⟨req.ni, none, []⟩ = .ok (got, .failed) ∧ got.bhs ≠ [] := by
  induction hmap generalizing left with
  | nil => simp at hlt
  | @snoc ni rl lcns found hmap hloc herr hlcn ih =>
    rw [length_append, length_singleton, Nat.add_assoc]
    by_cases hbef : n < (lcns.flatMap (blocksOf geo)).length
    · exact ih hbef _
    rw [hmap.gather_eq (fun m hm => hall m (by omega)), Nat.add_comm 1 left, gather_succ hloc,
      herr, if_neg (by simp), if_pos hlcn]
    rw [flatMap_append, flatMap_singleton] at hlt
    rcases getCluster_cases geo req found.lcn (lcns.flatMap (blocksOf geo)) with
      ⟨hget, -⟩ | ⟨got, hle, -, hfail, -, hgot⟩
    · rw [hget n (not_lt.mp hbef) hlt] at hnot
      cases hnot
    · rw [hgot]
      refine ⟨_, rfl, length_pos_iff.mp (Nat.pos_of_ne_zero fun hzero => ?_)⟩
      change got.length = 0 at hzero
      rw [hzero, hall 0 hpos] at hfail
      cases hfail

theorem gather_of_failsLate (hlate : FailsLate mapper geo req) :
    ∃ got, gather mapper geo req 0 (geo.startVcn req.index) 16 0 ⟨req.ni, none, []⟩ =
      .ok (got, .failed) ∧ got.bhs ≠ [] := by
  obtain ⟨ni, rl, lcns, hmap, hle, hcs⟩ := hlate
  obtain ⟨left, hleft⟩ := Nat.exists_eq_add_of_le hle
  change 16 = _ at hleft
  rw [hleft]
  rcases hcs with ⟨hne, hlt, hget, found, hloc, hfail⟩ | ⟨n, hpos, hlt, hnot, hall⟩
  · obtain ⟨left, rfl⟩ : ∃ before, left = before + 1 := ⟨left - 1, by change _ < 16 at hlt; omega⟩
    rw [hmap.gather_eq hget, gather_succ hloc]
    have hbhs : lcns.flatMap (blocksOf geo) ≠ [] := by
      obtain ⟨lcn, hlcn⟩ := exists_mem_of_ne_nil _ hne
      exact fun h => blocksOf_ne_nil geo lcn (flatMap_eq_nil_iff.mp h lcn hlcn)
    by_cases herr : found.err.isSome = true
    · rw [if_pos herr]
      exact ⟨_, rfl, hbhs⟩
    · obtain ⟨hlcn, hhole⟩ := hfail.resolve_left herr
      rw [if_neg herr, if_neg (not_le.mpr hlcn), if_neg hhole]
      exact ⟨_, rfl, hbhs⟩
  · exact gather_of_getblk mapper geo req hmap hpos hlt hnot hall left

/-- A read gives back what it has taken unless it fails over the clusters when some buffers have
been obtained. -/
theorem settles_iff : (∀ out, ntfsReadCompressedBlock mapper geo req = .ok out →
      Settled (geo.xpage req.index) out) ↔
    ¬ (req.memory = true ∧ geo.xpage req.index < geo.pagesBelow req.index req.iSize ∧
      FailsLate mapper geo req) := by
  constructor
  · rintro hsettled ⟨hmemory, hinside, hlate⟩
    obtain ⟨got, hgather, hsome⟩ := gather_of_failsLate mapper geo req hlate
    have hout := ntfsReadCompressedBlock_eq mapper geo req hmemory (not_le.mpr hinside)
    rw [hgather] at hout
    have hzero : BufferEvent.getblk 0 ∈ (List.range got.bhs.length).map BufferEvent.getblk :=
      List.mem_map_of_mem (List.mem_range.mpr (List.length_pos_iff.mpr hsome))
    have hcount := (hsettled _ hout).buffers 0 hzero
    change List.count _ ((List.range got.bhs.length).map BufferEvent.getblk) = 1 at hcount
    rw [List.count_eq_zero.mpr (by simp)] at hcount
    cases hcount
  · intro hnot out hout
    cases returns_of_read mapper geo req hout with
    | memory hmemory => exact ⟨nofun, by simp, by simp⟩
    | outside hmemory houtside => exact ⟨nofun, by simp, by simp⟩
    | @gathered hmemory hinside got ending hgather =>
      refine settled_readGathered geo req hinside fun hfailed => ?_
      by_contra hsome
      subst hfailed
      exact hnot ⟨hmemory, not_le.mp hinside,
        @failsLate_of_gather State mapper geo req ⟨req.ni, none, []⟩ got [] 16 Mapped.nil rfl rfl
          (fun n hn => absurd hn (Nat.not_lt_zero n)) hgather hsome⟩

end

/-! ### A buffer that is not released -/

def twoBlocks : CompressedReads.Geometry := .ofBits 10 9 (by decide)

def sixteenClusters : Mapper Unit where
  rl _ := .block ⟨48, fun i => [⟨0, 8, 16⟩].getD i ⟨16, lcnEnoent, 0⟩⟩
  mapRunlist _ _ := (.error (.errno .eio), ())

def secondFails : Request Unit where
  index := 0
  page := ⟨false, false, false, fun _ => 0⟩
  ni := ()
  iSize := 16384
  initializedSize := 16384
  memory := true
  grab _ := none
  getblk n := n != 1
  read _ := true
  device _ := 0
  buffer _ := 0

/-- The first buffer is obtained and not released. -/
theorem not_settled_secondFails : ∃ out,
    ntfsReadCompressedBlock sixteenClusters twoBlocks secondFails = .ok out ∧
      out.buffers = [.getblk 0] ∧ ¬ Settled (twoBlocks.xpage 0) out := by
  have hout := ntfsReadCompressedBlock_eq sixteenClusters twoBlocks secondFails rfl (by decide)
  have hgather : gather sixteenClusters twoBlocks secondFails 0 (twoBlocks.startVcn 0) 16 0
      ⟨(), none, []⟩ = .ok (⟨(), some [⟨0, 8, 16⟩, ⟨16, lcnEnoent, 0⟩], [16]⟩, .failed) := rfl
  change _ = (gather sixteenClusters twoBlocks secondFails 0 (twoBlocks.startVcn 0) 16 0
    ⟨(), none, []⟩).map _ at hout
  rw [hgather] at hout
  refine ⟨_, hout, rfl, fun hsettled => ?_⟩
  have hcount := hsettled.buffers 0 (List.mem_singleton.mpr rfl)
  exact absurd hcount (by decide)

end AdvancedOs.Ntfs.CompressedRelease
