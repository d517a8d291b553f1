import AdvancedOs.Ntfs.RunlistCoalescing

/-!
# The map a merge leaves

A further extent of an attribute is merged into the runlist read so far: its runs go inside one hole
or one unmapped run of the destination, or at or behind its end. The result is a well-formed runlist
that gives the clusters of the extent where the extent has runs, the clusters of the destination
everywhere else below its end, and no mapping in a gap between the two. `exists_merged` states this
for the list the merge computes.

In memory there is one case in which the merge does not get that far. When the runs go behind an
unmapped terminator with a gap in between, `ntfs_rl_append` looks at the element behind the new
terminator. The block has been sized for the new runlist, so the field it reads lies outside when
the runlist fills the pages of its block (`pageAlign_lt_iff`). `merge_extent_iff` combines the two:
the merge behaves as described on every block that holds the two runlists, exactly when it is not
that case.
-/

namespace AdvancedOs.Ntfs.RunlistMergeMap

open Foundation.ArraySegments Foundation.SignedWords List Option
open RunlistElements RunlistMergeRoutines RunlistMerge RunlistCoalescing

/-! ### Extents -/

/-- The runlist of a further extent: at most one unmapped run in front, runs with
`lcn >= LCN_HOLE`, and an unmapped terminator. -/
structure ExtentSource extends Source where
  lead_length_le : lead.length ≤ 1
  lead_lcn : ∀ run ∈ lead, run.lcn = lcnRlNotMapped
  mapped_lcn : ∀ run ∈ mapped, lcnHole ≤ run.lcn
  trail_eq_nil : trail = []
  last_lcn_eq : last.lcn = lcnRlNotMapped

/-- The runs of the source lie inside one hole or unmapped run of the destination, or at or behind
its end. -/
def Fits (dst : Runlist) (src : Source) : Prop :=
  (∃ run ∈ dst.runs, isGap run = true ∧ run.vcn ≤ src.start ∧
    src.last.vcn ≤ run.vcn + run.length) ∨ dst.last.vcn ≤ src.start

variable {first last vcn : ℤ} {dst : Runlist} {src : Source} {runs : List RunlistElement}
  {run : RunlistElement}

theorem eq_of_covers (hch : Chain first runs last) {other : RunlistElement} (hrun : run ∈ runs)
    (hoth : other ∈ runs) (hcov : run.Covers vcn) (hcov' : other.Covers vcn) :
    run = other := by
  induction runs generalizing first with
  | nil => simp at hrun
  | cons head runs ih =>
    obtain ⟨hvcn, hlen, hrest⟩ := hch
    unfold RunlistElement.Covers at hcov hcov'
    rcases mem_cons.mp hrun with rfl | hmem <;> rcases mem_cons.mp hoth with rfl | hmem'
    · rfl
    · have hbd := hrest.mem hmem'
      omega
    · have hbd := hrest.mem hmem
      omega
    · exact ih hrest hmem hmem'

theorem meets_terminator {last : RunlistElement} (hfin : ∀ run ∈ runs.getLast?, lcnHole ≤ run.lcn)
    (hlast : last.lcn = lcnEnoent ∨ last.lcn = lcnRlNotMapped) : meets runs [last] = false := by
  rcases eq_nil_or_concat runs with rfl | ⟨front, final, rfl⟩
  · rfl
  · rw [concat_eq_append] at hfin ⊢
    rw [meets_concat_cons]
    have hlcn : lcnHole ≤ final.lcn := hfin final (by simp)
    by_contra hmrg
    rw [Bool.not_eq_false] at hmrg
    have hcs := mergeable_cases hmrg
    unfold lcnHole lcnRlNotMapped lcnEnoent at *
    omega

theorem lcnIn_override {start stop : ℤ} {before more : List RunlistElement}
    (hbef : Chain first before run.vcn) (hmore : Chain (run.vcn + run.length) more last)
    (hruns : Chain start runs stop) (hlow : run.vcn ≤ start) (hhigh : stop ≤ run.vcn + run.length)
    (hlcn : run.lcn < 0) (vcn : ℤ) : lcnIn (before ++ (cutRun run start stop runs ++ more)) vcn =
      if start ≤ vcn ∧ vcn < stop then lcnIn runs vcn else lcnIn (before ++ run :: more) vcn := by
  rw [lcnIn_append, lcnIn_append, lcnIn_cutRun hruns hlow hhigh hlcn]
  by_cases hin : start ≤ vcn ∧ vcn < stop
  · rw [if_pos hin, if_pos hin, hbef.lcnIn_eq_none (by omega), hmore.lcnIn_eq_none (by omega),
      none_or, or_none]
  · have hcons : run :: more = [run] ++ more := rfl
    rw [if_neg hin, if_neg hin, hcons, lcnIn_append before, lcnIn_append [run]]

def stopOf (src : Source) : ℤ := endOf src.mapped

theorem chain_stopOf (src : Source) : Chain src.start src.mapped (stopOf src) ∧
    Chain (stopOf src) src.trail src.last.vcn := by
  obtain ⟨middle, hmap, htrail⟩ := (chain_append _ _ _ _).mp src.chain_parts.2
  have hst := src.start_nonneg
  have hle := hmap.le
  have hle' := htrail.le
  have hlast := src.last_vcn_isS64
  unfold IsS64 at hlast
  have hstop : stopOf src = middle :=
    endOf_eq_of_chain hmap src.mapped_ne_nil ⟨by omega, by omega⟩
  rw [hstop]
  exact ⟨hmap, htrail⟩

theorem stopOf_bounds (src : Source) : src.start < stopOf src ∧ stopOf src ≤ src.last.vcn ∧
    IsS64 (stopOf src) := by
  obtain ⟨hmap, htrail⟩ := chain_stopOf src
  have hst := src.start_nonneg
  have hlt := hmap.lt src.mapped_ne_nil
  have hle := htrail.le
  have hlast := src.last_vcn_isS64
  unfold IsS64 at *
  omega

theorem lookup_source {block : RlArray} (hblk : block.Holds src.elements) (hlow : src.start ≤ vcn)
    (hhigh : vcn < src.last.vcn) : block.lookup vcn = lcnIn (src.mapped ++ src.trail) vcn := by
  obtain ⟨rest, hrest⟩ := hblk.exists_toList
  obtain ⟨hlead, hmap⟩ := src.chain_parts
  have horig := hlead.le
  have hpos := src.origin_nonneg
  have helt : src.elements ++ rest =
      (src.lead ++ (src.mapped ++ src.trail)) ++ src.last :: rest := by simp [Source.elements]
  have hloop := src.chain.vcnToLcnLoop_append rest (show src.origin ≤ vcn by omega)
  obtain ⟨_, run, _, -, -, hsome⟩ := hmap.exists_covers hlow hhigh
  rw [lcnIn_append, hlead.lcnIn_eq_none (.inr hlow), none_or, hsome, some_or] at hloop
  obtain ⟨head, tail, hhead⟩ := exists_cons_of_ne_nil
    (show src.lead ++ (src.mapped ++ src.trail) ≠ [] by simp [src.mapped_ne_nil])
  have hvcn : head.vcn = src.origin := (hhead ▸ src.chain).1
  rw [RlArray.lookup, hrest, helt, hsome, ← hloop, hhead, cons_append]
  unfold ntfsRlVcnToLcn
  rw [if_neg (by omega)]
  exact if_neg (by omega)

/-! ### The merged runlist -/

theorem exists_runlist {other : List RunlistElement} {last : RunlistElement}
    (hsame : SameMap 0 last.vcn runs other) (hpos : 0 < last.vcn) (hlen : last.length = 0)
    (hlcn : last.lcn = lcnEnoent ∨ last.lcn = lcnRlNotMapped) (hword : IsS64 last.vcn)
    (hwords : ∀ run ∈ runs, IsS64 run.lcn) : ∃ merged :
    Runlist, merged.runs = other ∧ merged.last = last := by
  have hne : other ≠ [] := by
    rintro rfl
    have heq := (chain_nil _ _).mp hsame.chain
    omega
  exact ⟨⟨other, last, hne, hsame.chain, hlen, hlcn, hword, hsame.isS64_lcn hwords⟩, rfl, rfl⟩

theorem mergedRuns_behind (spot : Spot dst src.start) (hrest : spot.rest = [])
    (hrun : spot.run = dst.last) (hbef : spot.before = dst.runs) :
    ∃ runs last, mergedRuns src spot = runs ++ [last] ∧ SameMap 0 (stopOf src)
        (dst.runs ++ (filler lcnRlNotMapped dst.last.vcn src.start ++ src.mapped)) runs ∧
      last.vcn = stopOf src ∧
      ((last.length = 0 ∧ (last.lcn = lcnEnoent ∨ last.lcn = lcnRlNotMapped)) ∨
        (dst.last.lcn = lcnRlNotMapped ∧ src.trail ≠ [] ∧ last ∈ src.trail)) ∧
      (dst.last.lcn = lcnRlNotMapped → (src.trail ++ [src.last]).take 1 = [last]) ∧
      (dst.last.lcn = lcnEnoent → last.lcn = lcnEnoent) := by
  have hlow : dst.last.vcn ≤ src.start := hrun ▸ spot.run_vcn_le
  obtain ⟨hmap, htrail⟩ := chain_stopOf src
  obtain ⟨-, -, hstopWord⟩ := stopOf_bounds src
  have hwords : ∀ other ∈ dst.runs ++ src.mapped, IsS64 other.lcn := by
    intro other hoth
    rcases mem_append.mp hoth with hmem | hmem
    · exact dst.lcn_isS64 other hmem
    · exact src.lcn_isS64 other hmem
  rcases dst.last_lcn with hend | hopen
  · have hhead : ∀ run ∈ src.mapped.head?, run.lcn ≠ lcnRlNotMapped := by
      intro run hfst
      have hlcn := src.first_mapped run hfst
      unfold lcnHole lcnRlNotMapped at *
      omega
    obtain ⟨runs, hlist, hsame⟩ := insertRuns_behind dst.chain hmap src.mapped_ne_nil hlow hstopWord
      hwords (show isGap dst.last = false by rw [isGap, hend]; decide) hhead
    refine ⟨runs, { dst.last with vcn := stopOf src }, ?_, hsame, rfl,
      .inl ⟨dst.last_length, dst.last_lcn⟩, fun h => absurd (hend.symm.trans h) (by decide),
      fun _ => hend⟩
    have hst : src.starts dst.last = true := decide_eq_true (.inl (by rw [hend]; decide))
    have hrch : src.reaches dst.last = false :=
      decide_eq_false fun h => absurd h.1 (by rw [hend]; decide)
    have hfin : src.finishes dst.last = false := by rw [Source.finishes, hrch, Bool.false_and]
    rw [← hlist, mergedRuns, hrest, hrun, hbef, hst, hfin, Source.inserted, hrch,
      if_neg (by simp), append_nil]
    rfl
  · obtain ⟨-, hrch, hfin⟩ := finishes_of_last spot hrest (by rw [hrun, hopen])
    have hstart : src.starts dst.last = true ↔ dst.last.vcn = src.start := by
      rw [Source.starts, decide_eq_true_iff, hopen]
      exact ⟨fun h => h.resolve_left (lt_irrefl _), .inr⟩
    rw [hrun] at hrch hfin
    -- One element of the source is copied besides its mapped part.
    obtain ⟨last, htake, hvcn, hends⟩ : ∃ last, (src.trail ++ [src.last]).take 1 = [last] ∧
      last.vcn = stopOf src ∧
        ((last.length = 0 ∧ (last.lcn = lcnEnoent ∨ last.lcn = lcnRlNotMapped)) ∨
          (dst.last.lcn = lcnRlNotMapped ∧ src.trail ≠ [] ∧ last ∈ src.trail)) := by
      cases hcs : src.trail with
      | nil =>
        rw [hcs, chain_nil] at htrail
        exact ⟨src.last, rfl, htrail.symm, .inl ⟨src.last_length, src.last_lcn⟩⟩
      | cons run runs =>
        rw [hcs] at htrail
        exact ⟨run, rfl, htrail.1, .inr ⟨hopen, by simp, by simp⟩⟩
    obtain ⟨runs, hlist, hsame⟩ := mergeRuns_behind dst.chain hmap src.mapped_ne_nil hlow hstopWord
      hwords hstart hopen last
    refine ⟨runs, last, ?_, hsame, hvcn, hends, fun _ => htake, fun h =>
      absurd (hopen.symm.trans h) (by decide)⟩
    rw [← hlist, mergedRuns, hrest, hrun, hbef, hfin, Source.inserted, hrch,
      if_pos ⟨rfl, dst.last_length⟩, htake]

/-- The merged runlist has taken in the runs from `first` to `last`: it agrees with them there, with
the destination elsewhere below its end, and is unmapped elsewhere behind it. Its runs start like
runs of the two, at the end of the runs taken in or at the end of the destination. -/
structure Absorbs (dst : Runlist) (first last : ℤ) (runs : List RunlistElement)
    (merged : Runlist) : Prop where
  on_runs : ∀ vcn, first ≤ vcn → vcn < last → lcnIn merged.runs vcn = lcnIn runs vcn
  on_destination : ∀ vcn, vcn < dst.last.vcn → ¬ (first ≤ vcn ∧ vcn < last) →
    lcnIn merged.runs vcn = lcnIn dst.runs vcn
  on_gap : ∀ vcn, dst.last.vcn ≤ vcn → vcn < merged.last.vcn → ¬ (first ≤ vcn ∧ vcn < last) →
    lcnIn merged.runs vcn = some lcnRlNotMapped
  starts : ∀ run ∈ merged.runs, (∃ old ∈ dst.runs ++ runs, old.vcn = run.vcn ∧ old.lcn = run.lcn) ∨
      run.vcn = last ∨ run.vcn = dst.last.vcn

section

variable {dst merged : Runlist} {first last : ℤ} {runs : List RunlistElement}

theorem absorbs_inside {before more : List RunlistElement} {run : RunlistElement}
    (hdst : dst.runs = before ++ run :: more) (hbef : Chain 0 before run.vcn)
    (hmore : Chain (run.vcn + run.length) more dst.last.vcn) (hruns : Chain first runs last)
    (hlow : run.vcn ≤ first) (hhigh : last ≤ run.vcn + run.length) (hlcn : run.lcn < 0)
    (hend : merged.last.vcn = dst.last.vcn)
    (hsame : SameMap 0 dst.last.vcn (before ++ (cutRun run first last runs ++ more)) merged.runs) :
    Absorbs dst first last runs merged where
  on_runs vcn hfrom hto := by
    rw [hsame.lcnIn_eq, lcnIn_override hbef hmore hruns hlow hhigh hlcn, if_pos ⟨hfrom, hto⟩]
  on_destination vcn _ hout := by
    rw [hsame.lcnIn_eq, lcnIn_override hbef hmore hruns hlow hhigh hlcn, if_neg hout, hdst]
  on_gap vcn hfrom hto := by omega
  starts := by
    intro other hoth
    obtain ⟨old, hold, hvcn, hst⟩ := hsame.start_mem other hoth
    simp only [mem_append] at hold
    rcases hold with hmem | hmem | hmem
    · exact .inl ⟨old, by simp [hdst, hmem], hvcn, hst⟩
    · rcases mem_cutRun hmem with hin | ⟨hfr | hback, hgap⟩
      · exact .inl ⟨old, by simp [hin], hvcn, hst⟩
      · exact .inl ⟨run, by simp [hdst], hfr.symm.trans hvcn, hgap.symm.trans hst⟩
      · exact .inr (.inl (hvcn.symm.trans hback))
    · exact .inl ⟨old, by simp [hdst, hmem], hvcn, hst⟩

theorem absorbs_behind (hruns : Chain first runs last) (hlow : dst.last.vcn ≤ first)
    (hend : merged.last.vcn = last)
    (hsame : SameMap 0 last (dst.runs ++ (filler lcnRlNotMapped dst.last.vcn first ++ runs))
      merged.runs) : Absorbs dst first last runs merged where
  on_runs vcn hfrom hto := by
    rw [hsame.lcnIn_eq, lcnIn_append, lcnIn_append, lcnIn_filler (by decide),
      dst.chain.lcnIn_eq_none (by omega), if_neg (by omega), none_or, none_or]
  on_destination vcn hlt _ := by
    rw [hsame.lcnIn_eq, lcnIn_append, lcnIn_append, lcnIn_filler (by decide), if_neg (by omega),
      hruns.lcnIn_eq_none (by omega), none_or, or_none]
  on_gap vcn hfrom hto hout := by
    rw [hsame.lcnIn_eq, lcnIn_append, lcnIn_append, lcnIn_filler (by decide),
      dst.chain.lcnIn_eq_none (by omega), if_pos (by omega), none_or, some_or]
  starts := by
    intro other hoth
    obtain ⟨old, hold, hvcn, hst⟩ := hsame.start_mem other hoth
    simp only [mem_append] at hold
    rcases hold with hmem | hmem | hmem
    · exact .inl ⟨old, by simp [hmem], hvcn, hst⟩
    · exact .inr (.inr (hvcn.symm.trans (mem_filler hmem).1))
    · exact .inl ⟨old, by simp [hmem], hvcn, hst⟩

end

namespace ExtentSource

variable (src : ExtentSource)

theorem chain_mapped : Chain src.start src.mapped src.last.vcn := by
  simpa [src.trail_eq_nil] using src.chain_parts.2

theorem start_lt : src.start < src.last.vcn := src.chain_mapped.lt src.mapped_ne_nil

theorem finishes_eq (run : RunlistElement) : src.finishes run = src.reaches run := by
  rw [Source.finishes, src.last_lcn_eq, decide_eq_false (fun h => absurd h.1 (by decide)),
    Bool.not_false, Bool.and_true]

end ExtentSource

section

variable {dst : Runlist} {src : ExtentSource} (spot : Spot dst src.start)

/-- Where the merged runlist ends: where the destination does, or where the extent does if that lies
behind. An unmapped terminator stays one. -/
def EndsBehind (dst : Runlist) (src : ExtentSource) (merged : Runlist) : Prop :=
  merged.last = dst.last ∧ src.last.vcn ≤ dst.last.vcn ∨
    merged.last.vcn = src.last.vcn ∧ dst.last.vcn ≤ src.start ∧
      (dst.last.lcn = lcnRlNotMapped → merged.last.lcn = lcnRlNotMapped)

def TakesIn : Prop :=
  ∃ merged : Runlist, mergedRuns src.toSource spot = merged.elements ∧
    Absorbs dst src.start src.last.vcn src.mapped merged ∧ EndsBehind dst src merged ∧
    (dst.last.lcn = lcnEnoent → merged.last.lcn = lcnEnoent)

theorem exists_merged_inside {more : List RunlistElement} (hrest : spot.rest = more ++ [dst.last])
    (hruns : dst.runs = spot.before ++ spot.run :: more)
    (hmore : Chain (spot.run.vcn + spot.run.length) more dst.last.vcn) (hlen : 0 < spot.run.length)
    (hgap : isGap spot.run = true) (hhigh : src.last.vcn ≤ spot.run.vcn + spot.run.length) :
    TakesIn spot := by
  have hlcn : lcnRlNotMapped ≤ spot.run.lcn ∧ spot.run.lcn < 0 := by
    have hcs := of_decide_eq_true hgap
    unfold lcnHole lcnRlNotMapped at *
    omega
  have hrunMem : spot.run ∈ dst.runs := by simp [hruns]
  have hend : endVcn spot.run = spot.run.vcn + spot.run.length :=
    endVcn_eq_of_chain dst.chain le_rfl dst.last_vcn_isS64 hrunMem
  have hfin := src.final_bounds.2.2.2
  have hst : src.starts spot.run = true ↔ spot.run.vcn = src.start := by
    rw [Source.starts, decide_eq_true_iff]
    exact ⟨fun h => h.resolve_left (not_lt.mpr hlcn.1), .inr⟩
  have hfini : src.finishes spot.run = true ↔ src.last.vcn = spot.run.vcn + spot.run.length := by
    rw [src.finishes_eq, Source.reaches, decide_eq_true_iff, hend, hfin]
    exact ⟨fun h => le_antisymm hhigh h.2, fun h => ⟨hlcn.1, h.ge⟩⟩
  have hdstWord := dst.lcn_isS64
  rw [hruns, forall_mem_append, forall_mem_cons] at hdstWord
  obtain ⟨hbeforeWord, hrunWord, hmoreWord⟩ := hdstWord
  have hwords : ∀ other ∈ spot.before ++ (src.mapped ++ more), IsS64 other.lcn :=
    forall_mem_append.mpr ⟨hbeforeWord, forall_mem_append.mpr ⟨src.lcn_isS64, hmoreWord⟩⟩
  obtain ⟨runs, hlist, hsame⟩ := mergeRuns_inside spot.chain_before src.chain_mapped
    src.mapped_ne_nil hmore hgap spot.run_vcn_le hhigh dst.last_vcn_isS64
    (meets_terminator src.final_mapped dst.last_lcn) hst hfini hwords
  have hspecWord : ∀ other ∈ spot.before ++
      (cutRun spot.run src.start src.last.vcn src.mapped ++ more), IsS64 other.lcn := by
    refine forall_mem_append.mpr ⟨hbeforeWord,
      forall_mem_append.mpr ⟨fun other hoth => ?_, hmoreWord⟩⟩
    rcases mem_cutRun hoth with hmap | ⟨-, hrun⟩
    · exact src.lcn_isS64 other hmap
    · exact hrun ▸ hrunWord
  obtain ⟨merged, rfl, hlast⟩ := exists_runlist hsame dst.last_vcn_pos dst.last_length
    dst.last_lcn dst.last_vcn_isS64 hspecWord
  refine ⟨merged, ?_, absorbs_inside hruns spot.chain_before hmore src.chain_mapped spot.run_vcn_le
    hhigh hlcn.2 (by rw [hlast]) hsame, .inl ⟨hlast, hhigh.trans hmore.le⟩, by rw [hlast]; exact id⟩
  rw [Runlist.elements, hlast, ← hlist, mergedRuns, src.inserted_eq hlen.ne', hrest]

theorem exists_merged_behind (hrest : spot.rest = []) (hrun : spot.run = dst.last)
    (hbef : spot.before = dst.runs) : TakesIn spot := by
  have hlow : dst.last.vcn ≤ src.start := hrun ▸ spot.run_vcn_le
  have hpos := dst.last_vcn_pos
  have hstartLt := src.start_lt
  have hstop : stopOf src.toSource = src.last.vcn := by
    have htrail := (chain_stopOf src.toSource).2
    rwa [src.trail_eq_nil, chain_nil] at htrail
  obtain ⟨runs, last, hlist, hsame, hvcn, hends, hopen, hclos⟩ :=
    mergedRuns_behind spot hrest hrun hbef
  obtain ⟨hlen, hlcn⟩ := hends.resolve_right fun h => h.2.1 src.trail_eq_nil
  rw [hstop] at hvcn hsame
  have hspecWord : ∀ other ∈ dst.runs ++
      (filler lcnRlNotMapped dst.last.vcn src.start ++ src.mapped), IsS64 other.lcn := by
    refine forall_mem_append.mpr ⟨dst.lcn_isS64,
      forall_mem_append.mpr ⟨fun other hoth => ?_, src.lcn_isS64⟩⟩
    rw [(mem_filler hoth).2]
    decide
  obtain ⟨merged, rfl, rfl⟩ := exists_runlist (hvcn ▸ hsame) (by omega) hlen hlcn
    (hvcn ▸ src.last_vcn_isS64) hspecWord
  refine ⟨merged, hlist, absorbs_behind src.chain_mapped hlow hvcn hsame,
    .inr ⟨hvcn, hlow, fun hunm => ?_⟩, hclos⟩
  have hlast := hopen hunm
  rw [src.trail_eq_nil] at hlast
  rw [← head_eq_of_cons_eq hlast]
  exact src.last_lcn_eq

theorem run_lcn_neg (hfits : Fits dst src.toSource) : spot.run.lcn < 0 := by
  have hle := spot.run_vcn_le
  rcases spot.stop with ⟨-, hrun, -⟩ | ⟨more, -, hruns, -, hlt, hmore⟩
  · exact hrun ▸ dst.last_lcn_neg
  · have hend := hmore.le
    rcases hfits with ⟨run, hmem, hgap, hlow, hhigh⟩ | hbeh
    · have hst := src.start_lt
      have hsame : spot.run = run :=
        eq_of_covers dst.chain (by simp [hruns]) hmem ⟨hle, hlt⟩ ⟨hlow, by omega⟩
      rw [hsame]
      rcases of_decide_eq_true hgap with h | h <;> (rw [h]; decide)
    · omega

/-- An extent that fits is taken in. -/
theorem exists_merged (hfits : Fits dst src.toSource) :
    TakesIn spot := by
  have hle := spot.run_vcn_le
  rcases spot.stop with ⟨hrest, hrun, hbef⟩ | ⟨more, hrest, hruns, hlen, hlt, hmore⟩
  · exact exists_merged_behind spot hrest hrun hbef
  · have hend := hmore.le
    have hrunMem : spot.run ∈ dst.runs := by simp [hruns]
    rcases hfits with ⟨run, hmem, hgap, hlow, hhigh⟩ | hbeh
    · -- The run the extent fits in is the one at the insertion point.
      have hst := src.start_lt
      have hsame : spot.run = run :=
        eq_of_covers dst.chain hrunMem hmem ⟨hle, hlt⟩ ⟨hlow, by omega⟩
      exact exists_merged_inside spot hrest hruns hmore hlen (hsame ▸ hgap) (hsame ▸ hhigh)
    · omega

end

/-! ### The element behind the block -/

/-- The runs go behind an unmapped terminator with a gap in between. -/
def GoesBehind (dst : Runlist) (src : Source) : Prop :=
  dst.last.lcn = lcnRlNotMapped ∧ dst.last.vcn < src.start

def appendedLength (dst : Runlist) (src : Source) : ℕ := dst.elements.length + src.mapped.length + 1

/-- The field behind the runlist lies outside a block that is sized for it. -/
theorem pageAlign_lt_iff (size : ℕ) :
    pageAlign (size * elementSize) < size * elementSize + lcnEnd ↔ size % 512 = 0 ∨
      size % 512 = 341 := by
  unfold pageAlign pageSize elementSize lcnEnd
  -- 512 elements fill three pages, so only the remainder counts.
  obtain ⟨pages, hpgs⟩ : ∃ pages, pages = (24 * (size % 512) + 4095) / 4096 := ⟨_, rfl⟩
  have hquo : (size * 24 + (4096 - 1)) / 4096 = 3 * (size / 512) + pages := by omega
  have hle : pages ≤ 3 := by omega
  rw [hquo]
  interval_cases pages <;> omega

theorem exists_tight_block (items : List RunlistElement) (junk : RunlistElement) :
    ∃ block : RlArray, block.Holds items ∧ block.bytes =
      pageAlign (items.length * elementSize) := by
  refine ⟨RlArray.ofList items 0 fun _ => junk, RlArray.holds_ofList _ _ _, ?_⟩
  rw [RlArray.ofList, Nat.zero_mul, Nat.add_zero]

section

variable {dst : Runlist} {src : Source} (spot : Spot dst src.start) {drl : RlArray}

theorem length_inserted_last (hrun : spot.run = dst.last) (hrch : src.reaches spot.run = true) :
    (src.inserted spot.run).length = src.mapped.length + 1 := by
  rw [Source.inserted, hrch, if_pos ⟨rfl, hrun ▸ dst.last_length⟩]
  simp

theorem goesBehind_of_append (hst : src.starts spot.run = false)
    (hfin : src.finishes spot.run = true)
    (hdrop : spot.rest.drop (meets (src.inserted spot.run) spot.rest).toNat = []) :
    GoesBehind dst src ∧ spot.rest = [] ∧ spot.run = dst.last := by
  have hnot := of_decide_eq_false hst
  have hlcn := (of_decide_eq_true (Bool.and_eq_true_iff.mp hfin).1).1
  rcases spot.stop with ⟨hrest, hrun, -⟩ | ⟨more, hrest, -, hlen, -⟩
  · have hle := spot.run_vcn_le
    rw [hrun] at hlcn hnot hle
    refine ⟨⟨?_, lt_of_le_of_ne hle fun h => hnot (.inr h)⟩, hrest, hrun⟩
    exact dst.last_lcn.resolve_left fun h => absurd hlcn (by rw [h]; decide)
  · rw [src.inserted_eq hlen.ne', hrest] at hdrop
    have hle := drop_eq_nil_iff.mp hdrop
    cases more with
    | nil =>
      rw [nil_append, meets_terminator src.final_mapped dst.last_lcn] at hle
      simp at hle
    | cons next more =>
      have hbit : (meets src.mapped (next :: more ++ [dst.last])).toNat ≤ 1 := Bool.toNat_le _
      simp only [length_append, length_cons, length_nil] at hle
      omega

theorem append_of_goesBehind (hbeh : GoesBehind dst src) :
    src.starts spot.run = false ∧ src.finishes spot.run = true ∧ spot.rest = [] ∧
      spot.run = dst.last := by
  obtain ⟨hlcn, hlt⟩ := hbeh
  rcases spot.stop with ⟨hrest, hrun, -⟩ | ⟨more, -, -, -, hlt', hmore⟩
  · have hrunLcn : lcnRlNotMapped ≤ spot.run.lcn := by rw [hrun, hlcn]
    obtain ⟨-, -, hfin⟩ := finishes_of_last spot hrest hrunLcn
    refine ⟨decide_eq_false ?_, hfin, hrest, hrun⟩
    rw [hrun, hlcn]
    rintro (h | h)
    · exact lt_irrefl _ h
    · exact hlt.ne h
  · have hle := hmore.le
    omega

theorem goesBehind_of_overruns (hovr : Overruns drl src spot) :
    GoesBehind dst src ∧ reallocBytes drl dst.elements.length (appendedLength dst src) <
      appendedLength dst src * elementSize + lcnEnd := by
  obtain ⟨hst, hfin, hdrop, hby⟩ := hovr
  obtain ⟨hbeh, hrest, hrun⟩ := goesBehind_of_append spot hst hfin hdrop
  have hrch := (Bool.and_eq_true_iff.mp hfin).1
  rw [hrest, meets_nil_right, length_inserted_last spot hrun hrch] at hby
  exact ⟨hbeh, hby⟩

theorem overruns_of_goesBehind (hbeh : GoesBehind dst src)
    (hby : reallocBytes drl dst.elements.length (appendedLength dst src) <
      appendedLength dst src * elementSize + lcnEnd) : Overruns drl src spot := by
  obtain ⟨hst, hfin, hrest, hrun⟩ := append_of_goesBehind spot hbeh
  have hrch := (Bool.and_eq_true_iff.mp hfin).1
  refine ⟨hst, hfin, by simp [hrest], ?_⟩
  rw [hrest, meets_nil_right, length_inserted_last spot hrun hrch]
  exact hby

/-- The appended runlist fills the pages of its block up to the field `ntfs_rl_append` reads. -/
def Fills (dst : Runlist) (src : Source) : Prop :=
  appendedLength dst src % 512 = 0 ∨ appendedLength dst src % 512 = 341

theorem not_overruns (hdrl : drl.Holds dst.elements)
    (hroom : ¬ (GoesBehind dst src ∧ Fills dst src)) : ¬ Overruns drl src spot := by
  intro hovr
  obtain ⟨hbeh, hby⟩ := goesBehind_of_overruns spot hovr
  exact hroom ⟨hbeh, (pageAlign_lt_iff _).mp ((le_reallocBytes hdrl _).trans_lt hby)⟩

theorem overruns_of_tight (hbeh : GoesBehind dst src) (hfills : Fills dst src)
    (htight : drl.bytes = pageAlign (dst.elements.length * elementSize)) :
    Overruns drl src spot := by
  have hby : reallocBytes drl dst.elements.length (appendedLength dst src) =
      pageAlign (appendedLength dst src * elementSize) := by
    unfold reallocBytes
    split_ifs with hpgs
    · rw [htight, hpgs]
    · rfl
  exact overruns_of_goesBehind spot hbeh (hby ▸ (pageAlign_lt_iff _).mpr hfills)

end

/-! ### The merge of an extent -/

/-- With memory to allocate, merging the source into the destination returns a well-formed runlist
that agrees with the source on its runs, with the destination on every other vcn below its end, and
has no mapping in a gap between the two; whatever blocks hold the two runlists. -/
def MergesAsExtent (dst : Runlist) (src : ExtentSource) : Prop :=
  ∀ (allocator : Allocator) (drl srl : RlArray), (∀ bytes, allocator.succeeds bytes = true) →
    drl.Holds dst.elements → srl.Holds src.elements →
    ∃ (block : RlArray) (merged : Runlist),
      ntfsRunlistsMerge allocator (.block drl) (.block srl) = .done (.block block) ∧
      block.Holds merged.elements ∧
      (∀ vcn, src.start ≤ vcn → vcn < src.last.vcn → block.lookup vcn = srl.lookup vcn) ∧
      (∀ vcn, 0 ≤ vcn → vcn < dst.last.vcn → ¬ (src.start ≤ vcn ∧ vcn < src.last.vcn) →
        block.lookup vcn = drl.lookup vcn) ∧
      (∀ vcn, dst.last.vcn ≤ vcn → vcn < src.start → block.lookup vcn = some lcnRlNotMapped)

theorem merge_overruns (hbeh : GoesBehind dst src) (hfills : Fills dst src) :
    ∃ allocator drl srl drl' srl', (∀ bytes, allocator.succeeds bytes = true) ∧
      drl.Holds dst.elements ∧ srl.Holds src.elements ∧
      ntfsRunlistsMerge allocator (.block drl) (.block srl) = .failed .overrun drl' srl' := by
  obtain ⟨spot⟩ := exists_spot dst src.start_nonneg
  obtain ⟨drl, hdrl, htight⟩ := exists_tight_block dst.elements dst.last
  obtain ⟨srl, hsrl, -⟩ := exists_tight_block src.elements dst.last
  let allocator : Allocator := ⟨fun _ => true, fun _ => dst.last⟩
  have hnoOverlap : ¬ src.Overlaps spot.run := by
    rintro ⟨-, hlcn, -⟩
    rcases spot.stop with ⟨-, hrun, -⟩ | ⟨more, -, -, -, hlt, hmore⟩
    · exact absurd hlcn (not_le.mpr (hrun ▸ dst.last_lcn_neg))
    · have hle := hmore.le
      have hend := hbeh.2
      omega
  rcases mergeRoutine_spec allocator spot hdrl hsrl with
    ⟨-, hmemo⟩ | ⟨-, drl', srl', hfail⟩ | ⟨hin, -⟩
  · exact absurd (fun _ => rfl) hmemo
  · refine ⟨allocator, drl, srl, .block drl', .block srl', fun _ => rfl, hdrl, hsrl, ?_⟩
    simp only [ntfsRunlistsMerge, mergeBlocks_eq allocator spot hdrl hsrl, if_neg hnoOverlap, hfail,
      afterRoutine]
  · exact absurd (overruns_of_tight spot hbeh hfills htight) hin

/-- Assumes: an extent that fits, and either no gap behind an unmapped terminator or room for the
field `ntfs_rl_append` reads. The merge fails for want of memory, or it returns a well-formed
runlist that has taken in the extent. A runlist that knows the end of the attribute still does. -/
theorem merge_extent_cases {dst : Runlist} {src : ExtentSource} (hfits : Fits dst src.toSource)
    (hroom : ¬ (GoesBehind dst src.toSource ∧ Fills dst src.toSource)) {allocator : Allocator}
    {drl srl : RlArray} (hdrl : drl.Holds dst.elements) (hsrl : srl.Holds src.elements) :
    ((∃ drl' srl', ntfsRunlistsMerge allocator (.block drl) (.block srl) =
        .failed (.errno .enomem) drl' srl') ∧ allocator.Short) ∨
      ∃ (block : RlArray) (merged : Runlist),
        ntfsRunlistsMerge allocator (.block drl) (.block srl) = .done (.block block) ∧
        block.Holds merged.elements ∧ Absorbs dst src.start src.last.vcn src.mapped merged ∧
        EndsBehind dst src merged ∧ (dst.last.lcn = lcnEnoent → merged.last.lcn = lcnEnoent) := by
  obtain ⟨spot⟩ := exists_spot dst src.start_nonneg
  have hnoOverlap : ¬ src.Overlaps spot.run := fun h =>
    absurd h.2.1 (not_le.mpr (run_lcn_neg spot hfits))
  obtain ⟨merged, hlist, habs, hends⟩ := exists_merged spot hfits
  rcases mergeRoutine_spec allocator spot hdrl hsrl with
    ⟨hfail, hnone⟩ | ⟨hovr, -⟩ | ⟨-, block, hdone, hh, -⟩
  · refine .inl ⟨⟨.block drl, .block srl, ?_⟩, hnone⟩
    simp only [ntfsRunlistsMerge, mergeBlocks_eq allocator spot hdrl hsrl, if_neg hnoOverlap, hfail,
      afterRoutine]
  · exact absurd hovr (not_overruns spot hdrl hroom)
  · rw [hlist] at hh
    refine .inr ⟨block, merged, ?_, hh, habs, hends⟩
    simp only [ntfsRunlistsMerge, mergeBlocks_eq allocator spot hdrl hsrl, if_neg hnoOverlap,
      hdone, afterRoutine, src.last_lcn_eq]
    rw [if_neg (by decide)]

theorem merge_extent_done {src : ExtentSource} (hfits : Fits dst src.toSource)
    (hroom : ¬ (GoesBehind dst src.toSource ∧ Fills dst src.toSource)) {allocator : Allocator}
    {drl srl : RlArray} (hmemo : ∀ bytes, allocator.succeeds bytes = true)
    (hdrl : drl.Holds dst.elements) (hsrl : srl.Holds src.elements) :
    ∃ (block : RlArray) (merged : Runlist),
      ntfsRunlistsMerge allocator (.block drl) (.block srl) = .done (.block block) ∧
      block.Holds merged.elements ∧ Absorbs dst src.start src.last.vcn src.mapped merged ∧
      EndsBehind dst src merged := by
  obtain ⟨-, hnone⟩ | ⟨block, merged, hdone, hh, habs, hends, -⟩ :=
    merge_extent_cases hfits hroom hdrl hsrl
  · exact absurd hmemo hnone
  · exact ⟨block, merged, hdone, hh, habs, hends⟩

theorem mergesAsExtent_of_room {src : ExtentSource} (hfits : Fits dst src.toSource)
    (hroom : ¬ (GoesBehind dst src.toSource ∧ Fills dst src.toSource)) :
    MergesAsExtent dst src := by
  intro allocator drl srl hmemo hdrl hsrl
  obtain ⟨block, merged, hdone, hh, habs, hends⟩ :=
    merge_extent_done hfits hroom hmemo hdrl hsrl
  have hpos := dst.last_vcn_pos
  have hst := src.start_nonneg
  have hstartLt := src.start_lt
  refine ⟨block, merged, hdone, hh, fun vcn hlow hhigh => ?_, fun vcn h0 hlt hout => ?_,
    fun vcn hlow hlt => ?_⟩
  · obtain ⟨_, run, _, -, -, hsome⟩ := src.chain_mapped.exists_covers hlow hhigh
    rw [hh.lookup_eq (by omega), merged.lookup_eq (by omega), habs.on_runs vcn hlow hhigh,
      lookup_source hsrl hlow hhigh, src.trail_eq_nil, append_nil, hsome, getD_some]
  · obtain ⟨_, run, _, -, -, hsome⟩ := dst.chain.exists_covers h0 hlt
    rw [hh.lookup_eq h0, merged.lookup_eq h0, habs.on_destination vcn hlt hout,
      hdrl.lookup_eq h0, dst.lookup_eq h0, hsome, getD_some, getD_some]
  · have hend : vcn < merged.last.vcn := by
      rcases hends with ⟨-, hle⟩ | ⟨hvcn, -⟩ <;> omega
    rw [hh.lookup_eq (by omega), merged.lookup_eq (by omega),
      habs.on_gap vcn hlow hend (by omega), getD_some]

/-- Assumes: an extent that fits. The merge behaves as described on all blocks that hold the two
runlists, exactly unless the runs go behind an unmapped terminator with a gap in between and the
runlist then fills its pages up to the field `ntfs_rl_append` reads. -/
theorem merge_extent_iff (dst : Runlist) (src : ExtentSource) (hfits : Fits dst src.toSource) :
    MergesAsExtent dst src ↔ ¬ (GoesBehind dst src.toSource ∧
      (appendedLength dst src.toSource % 512 = 0 ∨
      appendedLength dst src.toSource % 512 = 341)) := by
  refine ⟨?_, mergesAsExtent_of_room hfits⟩
  rintro hmerges ⟨hbehind, hfull⟩
  obtain ⟨allocator, drl, srl, drl', srl', hmemory, hdrl, hsrl, hfailed⟩ :=
    merge_overruns hbehind hfull
  obtain ⟨block, merged, hdone, -⟩ := hmerges allocator drl srl hmemory hdrl hsrl
  rw [hfailed] at hdone
  exact absurd hdone (by simp)

def unmappedTen : Runlist where
  runs := [⟨0, lcnRlNotMapped, 10⟩]
  last := ⟨10, lcnEnoent, 0⟩
  runs_ne_nil := by simp
  chain := by decide
  last_length := rfl
  last_lcn := .inl rfl
  last_vcn_isS64 := by decide
  lcn_isS64 := by decide

/-- An extent with two clusters from `vcn` on. -/
def twoClusters (vcn : ℕ) (hvcn : 0 < vcn) (hword : IsS64 (vcn + 2)) : ExtentSource where
  toSource := .fromZero [⟨0, lcnRlNotMapped, vcn⟩] [⟨vcn, 100, 2⟩] [] ⟨vcn + 2, lcnRlNotMapped, 0⟩
    (by simp [lcnRlNotMapped, lcnHole]) (by simp) (by simp [lcnHole, IsS64]) (by simp; omega) rfl
    (.inr rfl) hword
  lead_length_le := le_rfl
  lead_lcn := by simp [Source.fromZero]
  mapped_lcn := by simp [Source.fromZero, lcnHole]
  trail_eq_nil := rfl
  last_lcn_eq := rfl

/-- Two clusters in the middle of the unmapped ten. -/
theorem merge_extent_unmappedTen :
    MergesAsExtent unmappedTen (twoClusters 3 (by decide) (by decide)) :=
  (merge_extent_iff _ _ (.inl ⟨⟨0, lcnRlNotMapped, 10⟩, by simp [unmappedTen], rfl, by decide,
    by decide⟩)).mpr fun h => absurd h.1.1 (by decide)

/-- A runlist of single clusters, each of them somewhere else, of which the rest is not mapped. -/
def scattered (count : ℕ) (hcount : 0 < count) (hword : IsS64 count) : Runlist where
  runs := (List.range count).map fun i : ℕ => ⟨i, 2 * i % 2 ^ 32, 1⟩
  last := ⟨count, lcnRlNotMapped, 0⟩
  runs_ne_nil := by simpa using hcount.ne'
  chain := by
    clear hcount hword
    induction count with
    | zero => rfl
    | succ count ih =>
      rw [List.range_succ, List.map_append, chain_append]
      exact ⟨count, ih, rfl, Int.one_pos, by simp⟩
  last_length := rfl
  last_lcn := .inr rfl
  last_vcn_isS64 := hword
  lcn_isS64 := by
    intro run hrun
    obtain ⟨i, -, rfl⟩ := List.mem_map.mp hrun
    unfold IsS64
    simp only
    omega

theorem appendedLength_scattered {count vcn : ℕ} (hcnt : 0 < count) (hword : IsS64 count)
    (hvcn : 0 < vcn) (hword' : IsS64 (vcn + 2)) :
    appendedLength (scattered count hcnt hword) (twoClusters vcn hvcn hword').toSource =
      count + 3 := by
  simp [appendedLength, scattered, twoClusters, Source.fromZero, Runlist.elements]

/-- With 338 runs in the destination and one far behind its end, the merged runlist has 341
elements, which end eight bytes before the end of two pages. -/
theorem merge_extent_scattered :
    Fits (scattered 338 (by decide) (by decide))
      (twoClusters 400 (by decide) (by decide)).toSource ∧
      ¬ MergesAsExtent (scattered 338 (by decide) (by decide))
        (twoClusters 400 (by decide) (by decide)) := by
  have hfits : Fits (scattered 338 (by decide) (by decide))
      (twoClusters 400 (by decide) (by decide)).toSource := .inr (by decide)
  have hbehind : GoesBehind (scattered 338 (by decide) (by decide))
      (twoClusters 400 (by decide) (by decide)).toSource := ⟨rfl, by decide⟩
  have hfills : Fills (scattered 338 (by decide) (by decide))
      (twoClusters 400 (by decide) (by decide)).toSource :=
    .inr (by rw [appendedLength_scattered])
  refine ⟨hfits, fun hmerges => ?_⟩
  obtain ⟨allocator, drl, srl, drl', srl', hmemory, hdrl, hsrl, hfailed⟩ :=
    merge_overruns hbehind hfills
  obtain ⟨block, merged, hdone, -⟩ := hmerges allocator drl srl hmemory hdrl hsrl
  rw [hfailed] at hdone
  exact absurd hdone (by simp)

end AdvancedOs.Ntfs.RunlistMergeMap
