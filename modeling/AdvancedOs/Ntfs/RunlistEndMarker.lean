import AdvancedOs.Ntfs.RunlistMergeMap

/-!
# Merging the base extent

The base extent of an attribute knows where the attribute ends. Its runlist maps the clusters from
zero to some vcn, and leaves the rest up to the end unmapped.
Merging it into a runlist that has not read the first extent yet should move the end of that runlist
to the end of the attribute.

`exists_endMarked` is what the marker code does to a runlist: it moves the terminator and puts an
unmapped run in front of it. The marker code starts its search for the terminator at the index the
terminator had before the merge. When `ntfs_rl_replace` puts a single run in place of the first
unmapped run and joins it with the run behind, the runlist becomes one element shorter, and the
search finds the old terminator behind the new one: the new one stays as it was
(`fixEndMarker_stale`). `merge_base_iff` says that the end of the attribute is kept exactly when
this does not happen, or does not matter because the runlist already ended there.
-/

namespace AdvancedOs.Ntfs.RunlistEndMarker

open Foundation.ArraySegments Foundation.SignedWords List
open RunlistElements RunlistMergeRoutines RunlistMerge RunlistCoalescing RunlistMergeMap

/-! ### Moving the end of a runlist -/

variable {dst : Runlist} {vcn : ℤ} {first : RunlistElement} {more runs : List RunlistElement}

theorem exists_sameMap_endMarked (rl : Runlist) (hle : rl.last.vcn ≤ vcn) (hword : IsS64 vcn) :
    ∃ runs last, endMarked rl.runs rl.last vcn = runs ++ [last] ∧
      last.vcn = vcn ∧ last.lcn = lcnEnoent ∧ last.length = 0 ∧
      SameMap 0 vcn (rl.runs ++ filler lcnRlNotMapped rl.last.vcn vcn) runs := by
  unfold endMarked
  rw [if_neg (by omega)]
  by_cases hsame : rl.last.vcn = vcn
  · rw [if_pos hsame]
    refine ⟨_, _, rfl, hsame, rfl, rl.last_length, ?_⟩
    rw [filler, if_pos hsame, append_nil]
    exact SameMap.refl (hsame ▸ rl.chain)
  · rw [if_neg hsame]
    have hposi := rl.last_vcn_pos
    have hlen : s64 (vcn - rl.last.vcn) = vcn - rl.last.vcn := by
      unfold IsS64 at hword
      exact s64_of_isS64 ⟨by omega, by omega⟩
    have hch : Chain 0 (rl.runs ++ filler lcnRlNotMapped rl.last.vcn vcn) vcn :=
      (chain_append _ _ _ _).mpr ⟨_, rl.chain, chain_filler _ hle⟩
    obtain ⟨front, final, hruns⟩ := exists_concat rl.runs_ne_nil
    rw [filler, if_neg hsame] at hch ⊢
    rw [hruns, List.getLast?_concat, dropLast_concat]
    by_cases hext : rl.last.lcn = lcnEnoent ∧ final.lcn = lcnRlNotMapped
    · -- The last run is unmapped already: it is extended, as if merged with the new one.
      simp only [if_pos hext]
      rw [hruns, append_assoc, chain_append] at hch
      obtain ⟨middle, hfr, hpair⟩ := hch
      have hst := hfr.le
      have hmrg : ntfsAreRlMergeable final ⟨rl.last.vcn, lcnRlNotMapped, vcn - rl.last.vcn⟩ =
          true := by
        rw [ntfsAreRlMergeable, if_pos ⟨hext.2, rfl⟩]
      have hmerged := sameMap_merge hpair hst hword (hext.2 ▸ isS64_lcnRlNotMapped)
        isS64_lcnRlNotMapped hmrg
      have hfin : ntfsRlMerge final ⟨rl.last.vcn, lcnRlNotMapped, vcn - rl.last.vcn⟩ =
          { final with length := s64 (vcn - final.vcn) } := by
        obtain ⟨hvcn, hpos, hnext, -⟩ := hpair
        simp only at hnext
        rw [ntfsRlMerge, hvcn, hnext]
        congr 2
        ring
      rw [hfin] at hmerged
      refine ⟨front ++ [{ final with length := s64 (vcn - final.vcn) }], ⟨vcn, lcnEnoent, 0⟩,
        by simp, rfl, rfl, rfl, ?_⟩
      rw [append_assoc]
      exact hmerged.append_left hfr
    · simp only [if_neg hext, hlen]
      exact ⟨front ++ [final] ++ [⟨rl.last.vcn, lcnRlNotMapped, vcn - rl.last.vcn⟩],
        ⟨vcn, lcnEnoent, 0⟩, by simp, rfl, rfl, rfl, SameMap.refl (hruns ▸ hch)⟩

/-- Assumes: an end at or behind the end of the runlist. The marker code makes a well-formed runlist
with that end, and an unmapped run behind the old one. -/
theorem exists_endMarked (rl : Runlist) (hle : rl.last.vcn ≤ vcn) (hword : IsS64 vcn) :
    ∃ marked : Runlist, marked.elements = endMarked rl.runs rl.last vcn ∧ marked.last.vcn = vcn ∧
      marked.last.lcn = lcnEnoent ∧
      SameMap 0 vcn (rl.runs ++ filler lcnRlNotMapped rl.last.vcn vcn) marked.runs := by
  obtain ⟨runs, last, hlist, hvcn, hlcn, hlen, hsame⟩ := exists_sameMap_endMarked rl hle hword
  have hpos := rl.last_vcn_pos
  have hwords : ∀ run ∈ rl.runs ++ filler lcnRlNotMapped rl.last.vcn vcn, IsS64 run.lcn := by
    intro run hrun
    rcases mem_append.mp hrun with hmem | hmem
    · exact rl.lcn_isS64 run hmem
    · rw [(mem_filler hmem).2]
      decide
  obtain ⟨marked, rfl, rfl⟩ := exists_runlist (hvcn ▸ hsame) (by omega) hlen (.inl hlcn)
    (hvcn ▸ hword) (hvcn ▸ hwords)
  exact ⟨marked, hlist.symm, hvcn, hlcn, hsame⟩

theorem absorbs_endMarked {merged marked : Runlist} {first last : ℤ}
    (habs : Absorbs dst first last runs merged) (hend : merged.last.vcn = dst.last.vcn)
    (hlast : last ≤ dst.last.vcn) (hmark : marked.last.vcn = vcn)
    (hsame : SameMap 0 vcn (merged.runs ++ filler lcnRlNotMapped merged.last.vcn vcn) marked.runs) :
    Absorbs dst first last runs marked where
  on_runs other hlow hhigh := by
    rw [hsame.lcnIn_eq, lcnIn_append, lcnIn_filler (by decide), if_neg (by omega), Option.or_none,
      habs.on_runs other hlow hhigh]
  on_destination other hlt hout := by
    rw [hsame.lcnIn_eq, lcnIn_append, lcnIn_filler (by decide), if_neg (by omega), Option.or_none,
      habs.on_destination other hlt hout]
  on_gap other hlow hhigh hout := by
    rw [hsame.lcnIn_eq, lcnIn_append, lcnIn_filler (by decide), if_pos (by omega),
      merged.chain.lcnIn_eq_none (by omega), Option.none_or]
  starts := by
    intro run hrun
    obtain ⟨old, hold, hvcn, hlcn⟩ := hsame.start_mem run hrun
    rcases mem_append.mp hold with hmem | hmem
    · rw [← hvcn, ← hlcn]
      exact habs.starts old hmem
    · exact .inr (.inr (by rw [← hvcn, (mem_filler hmem).1, hend]))

theorem holds_of_append {block : RlArray} {items : List RunlistElement}
    (hblk : block.Holds (items ++ more)) : block.Holds items := by
  refine ⟨le_trans (pageAlign_mono (Nat.mul_le_mul_right _ ?_)) hblk.1,
    ((segment_append _ _ _ _).mp hblk.2).1⟩
  rw [length_append]
  omega

/-- Assumes: a terminated runlist with a copy of its terminator behind it. The marker code, started
at the copy, succeeds and leaves the runlist and its terminator as they were. -/
theorem fixEndMarker_stale (allocator : Allocator) {drl : RlArray} (srl : RlArray)
    {last : RunlistElement} (hdrl : drl.Holds (runs ++ [last] ++ [last])) (hlen : last.length = 0)
    (hlcn : last.lcn = lcnEnoent ∨ last.lcn = lcnRlNotMapped) (vcn : ℤ) :
    ∃ block, fixEndMarker allocator drl srl (runs.length + 1) vcn = .done block ∧
      block.Holds (runs ++ [last]) := by
  obtain ⟨block, hdone, hh⟩ := fixEndMarker_spec allocator srl
    (show drl.Holds ((runs ++ [last]) ++ [] ++ [last]) by rwa [append_nil]) (by simp) (by simp)
    hlen vcn (.inr hlcn)
  rw [append_nil] at hh
  have hcnt : (runs ++ [last]).length = runs.length + 1 := by simp
  rw [hcnt] at hdone
  refine ⟨block, hdone, ?_⟩
  have hkeeps : ¬ (last.lcn = lcnEnoent ∧ last.lcn = lcnRlNotMapped) := fun h =>
    absurd (h.1.symm.trans h.2) (by decide)
  unfold endMarked at hh
  rw [List.getLast?_concat] at hh
  simp only [if_neg hkeeps] at hh
  split_ifs at hh
  · exact holds_of_append hh
  · exact holds_of_append hh
  · exact holds_of_append hh

/-! ### The base extent -/

/-- The runlist of a base extent: runs with `lcn >= LCN_HOLE` from zero on, an unmapped run up to
the end of the attribute, and a terminator that marks the end. -/
structure BaseSource extends Source where
  rest : RunlistElement
  lead_eq_nil : lead = []
  origin_eq_zero : origin = 0
  mapped_lcn : ∀ run ∈ mapped, lcnHole ≤ run.lcn
  trail_eq : trail = [rest]
  rest_lcn : rest.lcn = lcnRlNotMapped
  last_lcn_eq : last.lcn = lcnEnoent

/-- The runs of the base extent lie inside the first run of the destination, which is unmapped, and
the attribute ends at or after the end of the destination. -/
structure FitsBase (dst : Runlist) (src : BaseSource) (first : RunlistElement)
    (more : List RunlistElement) : Prop where
  runs_eq : dst.runs = first :: more
  first_lcn : first.lcn = lcnRlNotMapped
  le_first : src.rest.vcn ≤ first.vcn + first.length
  end_le : dst.last.vcn ≤ src.last.vcn

namespace BaseSource

variable (src : BaseSource)

theorem start_eq_zero : src.start = 0 := by
  have hlead := src.chain_parts.1
  rw [src.lead_eq_nil, chain_nil, src.origin_eq_zero] at hlead
  exact hlead.symm

theorem chain_mapped : Chain src.start src.mapped src.rest.vcn := by
  have hch := src.chain_parts.2
  rw [src.trail_eq, chain_append] at hch
  obtain ⟨middle, hmap, hvcn, -⟩ := hch
  rwa [hvcn]

theorem final_eq_rest : src.final = src.rest := by
  obtain ⟨front, hfr⟩ := src.toSource.final_eq
  rw [src.trail_eq] at hfr
  simpa using (append_inj' hfr rfl).2.symm

end BaseSource

section

variable {dst : Runlist} {src : BaseSource} {first : RunlistElement} {more : List RunlistElement}
  (hfits : FitsBase dst src first more)
include hfits

theorem chain_first : first.vcn = 0 ∧ 0 < first.length ∧
    Chain (first.vcn + first.length) more dst.last.vcn := by
  have hch := dst.chain
  rw [hfits.runs_eq] at hch
  obtain ⟨hvcn, hlen, hmore⟩ := hch
  exact ⟨hvcn, hlen, by rwa [hvcn]⟩

theorem exists_spot_first : ∃ spot : Spot dst src.start,
    spot.before = [] ∧ spot.run = first ∧ spot.rest = more ++ [dst.last] := by
  obtain ⟨hvcn, hlen, hmore⟩ := chain_first hfits
  refine ⟨⟨[], first, more ++ [dst.last], ?_, hvcn.symm, ?_, .inr ⟨more, rfl, hfits.runs_eq, hlen,
    ?_, hmore⟩⟩, rfl, rfl, rfl⟩
  · rw [Runlist.elements, hfits.runs_eq]
    rfl
  · rw [src.start_eq_zero, hvcn]
  · rw [src.start_eq_zero, hvcn]
    omega

theorem flags_first : src.starts first = true ∧
    (src.finishes first = true ↔ src.rest.vcn = first.vcn + first.length) ∧
    src.inserted first = src.mapped := by
  obtain ⟨hvcn, hlen, hmore⟩ := chain_first hfits
  have hle := hmore.le
  have hend : endVcn first = first.vcn + first.length :=
    endVcn_eq_of_chain dst.chain le_rfl dst.last_vcn_isS64 (by simp [hfits.runs_eq])
  have hfin := src.final_bounds.2.2.2
  have hrch : src.reaches first = true := by
    refine decide_eq_true ⟨hfits.first_lcn.ge, ?_⟩
    have hend_le := hfits.end_le
    omega
  refine ⟨decide_eq_true (.inr ?_), ?_, ?_⟩
  · rw [src.start_eq_zero, hvcn]
  · have hbound := hfits.le_first
    rw [Source.finishes, hrch, Bool.true_and, Bool.not_eq_true', decide_eq_false_iff_not,
      src.final_eq_rest, hend]
    exact ⟨fun h => le_antisymm hbound (not_lt.mp fun hlt => h ⟨src.last_lcn_eq, hlt⟩),
      fun h hand => absurd hand.2 (by omega)⟩
  · exact src.inserted_eq hlen.ne'

/-- The base extent is a single run that fills the first run of the destination and is joined with
the run behind it. -/
def Shrinks (src : BaseSource) (first : RunlistElement) (more : List RunlistElement) : Prop :=
  src.mapped.length = 1 ∧ src.rest.vcn = first.vcn + first.length ∧ meets src.mapped more = true

/-- The merged list is a well-formed runlist that has taken in the base extent and has the
terminator of the destination. It is shorter than the destination if the base extent shrinks it, and
at least as long otherwise. -/
theorem exists_merged_first {spot : Spot dst src.start} (hbef : spot.before = [])
    (hrun : spot.run = first) (hrest : spot.rest = more ++ [dst.last]) :
    ∃ merged : Runlist, mergedRuns src.toSource spot = merged.elements ∧ merged.last = dst.last ∧
      Absorbs dst src.start src.rest.vcn src.mapped merged ∧
      (Shrinks src first more → src.finishes first = true ∧ merged.elements.length + 1 =
      dst.elements.length) ∧
      (¬ Shrinks src first more → dst.elements.length ≤ merged.elements.length) := by
  obtain ⟨hvcn, hlen, hmore⟩ := chain_first hfits
  obtain ⟨hst, hfin, hins⟩ := flags_first hfits
  have hgap : isGap first = true := decide_eq_true (.inr hfits.first_lcn)
  have hwords : ∀ other ∈ [] ++ (src.mapped ++ more), IsS64 other.lcn := by
    intro other hoth
    rw [nil_append] at hoth
    rcases mem_append.mp hoth with hmem | hmem
    · exact src.lcn_isS64 other hmem
    · exact dst.lcn_isS64 other (by simp [hfits.runs_eq, hmem])
  have hmt := meets_terminator src.final_mapped dst.last_lcn
  have hemp : Chain 0 [] first.vcn := hvcn.symm
  have hstart : first.vcn = src.start := by rw [src.start_eq_zero, hvcn]
  obtain ⟨runs, hlist, hsame⟩ := mergeRuns_inside hemp src.chain_mapped src.mapped_ne_nil hmore hgap
    hstart.le hfits.le_first dst.last_vcn_isS64 hmt (iff_of_true hst hstart) hfin hwords
  have hspecWord : ∀ other ∈ [] ++ (cutRun first src.start src.rest.vcn src.mapped ++ more),
      IsS64 other.lcn := by
    intro other hoth
    rw [nil_append] at hoth
    rcases mem_append.mp hoth with hmem | hmem
    · rcases mem_cutRun hmem with hmap | ⟨-, hlcn⟩
      · exact src.lcn_isS64 other hmap
      · rw [hlcn, hfits.first_lcn]
        exact isS64_lcnRlNotMapped
    · exact dst.lcn_isS64 other (by simp [hfits.runs_eq, hmem])
  obtain ⟨merged, rfl, hlast⟩ := exists_runlist hsame dst.last_vcn_pos dst.last_length
    dst.last_lcn dst.last_vcn_isS64 hspecWord
  have helt : merged.elements = merged.runs ++ [dst.last] := by rw [Runlist.elements, hlast]
  have habs : Absorbs dst src.start src.rest.vcn src.mapped merged :=
    absorbs_inside hfits.runs_eq hemp hmore src.chain_mapped hstart.le hfits.le_first
      (by rw [hfits.first_lcn]; decide) (by rw [hlast]) hsame
  have hmerged : mergedRuns src.toSource spot = merged.elements := by
    rw [helt, ← hlist, mergedRuns, hbef, hrun, hrest, hins]
  have hcnt : dst.elements.length = more.length + 2 := by
    rw [Runlist.elements, hfits.runs_eq]
    simp
  have hpos := length_pos_iff.mpr src.mapped_ne_nil
  have hmeetsMore : meets src.mapped (more ++ [dst.last]) = meets src.mapped more := by
    cases more with
    | nil => rw [nil_append, hmt, meets_nil_right]
    | cons next more =>
      unfold meets
      cases src.mapped.getLast? <;> rfl
  have hbit : (meets src.mapped more).toNat ≤ 1 := Bool.toNat_le _
  have hrepl := length_replaceRuns [] src.mapped_ne_nil (more ++ [dst.last])
  have hinsertLength := @length_insertRuns src.mapped [] first (more ++ [dst.last])
  rw [hmeetsMore] at hrepl
  simp only [meets_nil_left, Bool.toNat_false, length_append, length_cons, length_nil,
    nil_append] at hrepl hinsertLength
  refine ⟨merged, hmerged, hlast, habs, ?_, ?_⟩
  · rintro ⟨hone, hfill, hjoin⟩
    have hfini := hfin.mpr hfill
    refine ⟨hfini, ?_⟩
    rw [hst, hfini, mergeRuns] at hlist
    rw [hjoin, Bool.toNat_true] at hrepl
    rw [helt, ← hlist, hcnt]
    omega
  · intro hnot
    rw [helt, ← hlist, hcnt, hst]
    cases hfini : src.finishes first with
    | true =>
      have hfill := hfin.mp hfini
      rw [mergeRuns]
      by_cases hjoin : meets src.mapped more = true
      · have hmany : src.mapped.length ≠ 1 := fun hone => hnot ⟨hone, hfill, hjoin⟩
        omega
      · rw [Bool.not_eq_true _ |>.mp hjoin, Bool.toNat_false] at hrepl
        omega
    | false =>
      rw [mergeRuns]
      omega

end

/-! ### The merge of the base extent -/

/-- Merging the base extent succeeds when there is memory, and a merge that succeeds returns a
well-formed runlist that ends where the attribute does: from the end of the destination up to there
it has no mapping, and behind it no clusters. -/
def KeepsEnd (dst : Runlist) (src : BaseSource) : Prop :=
  ∀ (allocator : Allocator) (drl srl : RlArray), drl.Holds dst.elements → srl.Holds src.elements →
    ((∀ bytes, allocator.succeeds bytes = true) →
      ∃ rl, ntfsRunlistsMerge allocator (.block drl) (.block srl) = .done rl) ∧
    ∀ rl, ntfsRunlistsMerge allocator (.block drl) (.block srl) = .done rl →
      ∃ (block : RlArray) (merged : Runlist), rl = .block block ∧ block.Holds merged.elements ∧
        merged.last.vcn = src.last.vcn ∧ merged.last.lcn = lcnEnoent ∧
        (∀ vcn, dst.last.vcn ≤ vcn → vcn < src.last.vcn → ¬ (0 ≤ vcn ∧ vcn < src.rest.vcn) →
          block.lookup vcn = some lcnRlNotMapped) ∧
        ∀ vcn, src.last.vcn ≤ vcn → block.lookup vcn = some lcnEnoent

def MergesTo (dst : Runlist) (src : BaseSource) (allocator : Allocator) (drl srl : RlArray)
    (ends : Runlist → Prop) : Prop :=
  (mergeBlocks allocator drl srl).RunsShort allocator drl srl ∨
    ∃ (block : RlArray) (merged : Runlist), mergeBlocks allocator drl srl = .done block ∧
      block.Holds merged.elements ∧ Absorbs dst src.start src.rest.vcn src.mapped merged ∧
      ends merged

section

variable {dst : Runlist} {src : BaseSource} {first : RunlistElement} {more : List RunlistElement}
  (hfits : FitsBase dst src first more) (allocator : Allocator) {drl srl : RlArray}
  (hdrl : drl.Holds dst.elements) (hsrl : srl.Holds src.elements)
include hfits hdrl hsrl

/-- What the merge of a base extent comes to: it fails for want of memory, or the runlist that comes
out of the routine has the terminator of the destination and goes through the marker code. If the
base extent shrinks the runlist, the old terminator is left behind the new one. -/
theorem mergeBlocks_base : ∃ merged : Runlist, merged.last = dst.last ∧
    Absorbs dst src.start src.rest.vcn src.mapped merged ∧
    ((mergeBlocks allocator drl srl).RunsShort allocator drl srl ∨ ∃ block,
      mergeBlocks allocator drl srl =
          fixEndMarker allocator block srl (dst.elements.length - 1) src.last.vcn ∧
        block.Holds merged.elements ∧
        (Shrinks src first more → merged.elements.length + 1 = dst.elements.length ∧
          block.Holds (merged.elements ++ [dst.last])) ∧
        (¬ Shrinks src first more → dst.elements.length ≤ merged.elements.length)) := by
  obtain ⟨spot, hbef, hrun, hrest⟩ := exists_spot_first hfits
  obtain ⟨merged, hlist, hlast, habs, hshri, hgrows⟩ :=
    exists_merged_first hfits hbef hrun hrest
  obtain ⟨hst, -, -⟩ := flags_first hfits
  have hnoOverlap : ¬ src.Overlaps spot.run := by
    rintro ⟨-, hlcn, -⟩
    rw [hrun, hfits.first_lcn] at hlcn
    exact absurd hlcn (by decide)
  refine ⟨merged, hlast, habs, ?_⟩
  rw [mergeBlocks_eq allocator spot hdrl hsrl, if_neg hnoOverlap]
  rcases mergeRoutine_spec allocator spot hdrl hsrl with
    ⟨hfail, hmemo⟩ | ⟨⟨hnot, -⟩, -⟩ | ⟨-, block, hdone, hh, -, hfrm⟩
  · rw [hfail]
    exact .inl ⟨rfl, hmemo⟩
  · rw [hrun, hst] at hnot
    exact absurd hnot (by decide)
  · right
    rw [hdone, afterRoutine, if_pos src.last_lcn_eq]
    rw [hlist] at hh hfrm
    refine ⟨block, rfl, hh, fun hshrink => ?_, hgrows⟩
    obtain ⟨hfini, hcnt⟩ := hshri hshrink
    obtain ⟨hroom, hold⟩ := hfrm (hrun ▸ hst) (hrun ▸ hfini)
    refine ⟨hcnt, ?_, (segment_append _ _ _ _).mpr ⟨hh.2, ?_, trivial⟩⟩
    · rwa [length_append, length_singleton, hcnt]
    · have hcell := elem_eq hdrl dst.runs dst.last [] rfl
      have hidx : merged.elements.length = dst.runs.length := by
        rw [dst.length_elements] at hcnt
        omega
      rw [zero_add, hold _ le_rfl (by omega), hidx, hcell]

theorem mergeBlocks_base_grows (hgrows : ¬ Shrinks src first more) :
    MergesTo dst src allocator drl srl fun marked =>
      marked.last.vcn = src.last.vcn ∧ marked.last.lcn = lcnEnoent := by
  obtain ⟨merged, hlast, habs, hfail | ⟨block, hmrg, hh, -, hlong⟩⟩ :=
    mergeBlocks_base hfits allocator hdrl hsrl
  · exact .inl hfail
  · have hcnt := hlong hgrows
    rw [merged.length_elements, dst.length_elements] at hcnt
    have hspl : merged.elements = (merged.runs.take dst.runs.length ++
        merged.runs.drop dst.runs.length) ++ [merged.last] := by
      rw [take_append_drop, Runlist.elements]
    have hbeh : ∀ run ∈ merged.runs.drop dst.runs.length, run.length ≠ 0 := fun run hrun =>
      (merged.chain.mem (mem_of_mem_drop hrun)).2.1.ne'
    obtain ⟨block', hdone, hmark⟩ := fixEndMarker_spec allocator srl (hspl ▸ hh)
      (by rw [take_append_drop]; exact merged.runs_ne_nil) hbeh merged.last_length
      src.last.vcn (.inr merged.last_lcn)
    obtain ⟨marked, helt, hvcn, hlcn, hsame⟩ := exists_endMarked merged
      (show merged.last.vcn ≤ src.last.vcn by rw [hlast]; exact hfits.end_le) src.last_vcn_isS64
    have hbase := hfits.le_first.trans (chain_first hfits).2.2.le
    rw [take_append_drop] at hmark
    rw [length_take_of_le (by omega)] at hdone
    refine .inr ⟨block', marked, ?_, helt ▸ hmark,
      absorbs_endMarked habs (by rw [hlast]) hbase hvcn hsame, hvcn, hlcn⟩
    rw [hmrg, dst.length_elements, Nat.add_sub_cancel, hdone]

theorem mergeBlocks_base_shrinks (hshri : Shrinks src first more) :
    MergesTo dst src allocator drl srl fun merged => merged.last = dst.last := by
  obtain ⟨merged, hlast, habs, hfail | ⟨block, hmrg, -, hstale, -⟩⟩ :=
    mergeBlocks_base hfits allocator hdrl hsrl
  · exact .inl hfail
  · obtain ⟨hcnt, hh⟩ := hstale hshri
    rw [Runlist.elements, hlast] at hh
    obtain ⟨block', hdone, hkept⟩ := fixEndMarker_stale allocator srl hh dst.last_length
      dst.last_lcn src.last.vcn
    refine .inr ⟨block', merged, ?_, by rwa [Runlist.elements, hlast], habs, hlast⟩
    have hidx : dst.elements.length - 1 = merged.runs.length + 1 := by
      rw [merged.length_elements] at hcnt
      omega
    rw [hmrg, hidx, hdone]

end

theorem not_keepsEnd {src : BaseSource} (hfits : FitsBase dst src first more)
    (hshri : Shrinks src first more)
    (hend : ¬ (dst.last.vcn = src.last.vcn ∧ dst.last.lcn = lcnEnoent)) : ¬ KeepsEnd dst src := by
  intro hkeeps
  obtain ⟨drl, hdrl, -⟩ := exists_tight_block dst.elements dst.last
  obtain ⟨srl, hsrl, -⟩ := exists_tight_block src.elements dst.last
  let allocator : Allocator := ⟨fun _ => true, fun _ => dst.last⟩
  rcases mergeBlocks_base_shrinks hfits allocator hdrl hsrl hshri with
    ⟨-, hmemo⟩ | ⟨block, merged, hdone, hh, -, hlast⟩
  · exact hmemo fun _ => rfl
  · obtain ⟨block', -, heq, -, -, -, hunm, hbeh⟩ :=
      (hkeeps allocator drl srl hdrl hsrl).2 (.block block) (by rw [ntfsRunlistsMerge, hdone])
    obtain rfl : block = block' := by simpa using heq
    have hpos := dst.last_vcn_pos
    have hle := hfits.end_le
    have hlk : ∀ vcn, dst.last.vcn ≤ vcn → block.lookup vcn = some dst.last.lcn := by
      intro vcn hvcn
      rw [hh.lookup_eq (by omega), merged.lookup_of_le (hlast ▸ hvcn), hlast]
    -- At the end of the attribute the old terminator must say so already.
    have hlcn : dst.last.lcn = lcnEnoent := by
      have hfnd := (hlk src.last.vcn hle).symm.trans (hbeh _ le_rfl)
      simpa using hfnd
    have hlt : dst.last.vcn < src.last.vcn := lt_of_le_of_ne hle fun h => hend ⟨h, hlcn⟩
    obtain ⟨hvcn, hlen, hmore⟩ := chain_first hfits
    have hfst := hfits.le_first
    have hfnd := (hlk dst.last.vcn le_rfl).symm.trans (hunm _ le_rfl hlt fun h => by
      have hend_le := hmore.le
      omega)
    rw [hlcn] at hfnd
    exact absurd hfnd (by decide)

theorem keepsEnd_of {src : BaseSource} (hfits : FitsBase dst src first more)
    (hgood : ¬ Shrinks src first more ∨ (dst.last.vcn = src.last.vcn ∧ dst.last.lcn = lcnEnoent)) :
    KeepsEnd dst src := by
  intro allocator drl srl hdrl hsrl
  have hpos := dst.last_vcn_pos
  have hle := hfits.end_le
  have houtc : MergesTo dst src allocator drl srl fun marked =>
      marked.last.vcn = src.last.vcn ∧ marked.last.lcn = lcnEnoent := by
    by_cases hshri : Shrinks src first more
    · obtain ⟨hvcn, hlcn⟩ := hgood.resolve_left (not_not.mpr hshri)
      rcases mergeBlocks_base_shrinks hfits allocator hdrl hsrl hshri with
        hfail | ⟨block, merged, hdone, hh, habs, hlast⟩
      · exact .inl hfail
      · exact .inr ⟨block, merged, hdone, hh, habs, hlast ▸ hvcn, hlast ▸ hlcn⟩
    · exact mergeBlocks_base_grows hfits allocator hdrl hsrl hshri
  rcases houtc with ⟨hfail, hmemo⟩ | ⟨block, marked, hdone, hh, habs, hvcn, hlcn⟩
  · refine ⟨fun hall => absurd hall hmemo, fun rl hrl => ?_⟩
    rw [ntfsRunlistsMerge, hfail] at hrl
    exact absurd hrl (by simp)
  · have hmrg : ntfsRunlistsMerge allocator (.block drl) (.block srl) = .done (.block block) := by
      rw [ntfsRunlistsMerge, hdone]
    refine ⟨fun _ => ⟨_, hmrg⟩, fun rl hrl => ?_⟩
    rw [hmrg] at hrl
    refine ⟨block, marked, by simpa using hrl.symm, hh, hvcn, hlcn, fun vcn hlow hhigh hout => ?_,
      fun vcn hlow => ?_⟩
    · rw [hh.lookup_eq (by omega), marked.lookup_eq (by omega), habs.on_gap vcn hlow
        (by omega) (by rwa [src.start_eq_zero]), Option.getD_some]
    · rw [hh.lookup_eq (by omega), marked.lookup_of_le (by omega), hlcn]

/-- Assumes: a base extent that fits. The merge keeps the end of the attribute exactly unless the
base extent is a single run that fills the first unmapped run and is joined with the run behind it,
while the runlist does not yet end where the attribute does. -/
theorem merge_base_iff (dst : Runlist) (src : BaseSource) (first : RunlistElement)
    (more : List RunlistElement) (hfits : FitsBase dst src first more) :
    KeepsEnd dst src ↔ ¬ Shrinks src first more ∨
      (dst.last.vcn = src.last.vcn ∧ dst.last.lcn = lcnEnoent) := by
  refine ⟨fun hkeeps => ?_, keepsEnd_of hfits⟩
  by_contra hbad
  rw [not_or, not_not] at hbad
  exact not_keepsEnd hfits hbad.1 hbad.2 hkeeps

def secondRead (lcn : ℤ) (hlcn : IsS64 lcn) : Runlist where
  runs := [⟨0, lcnRlNotMapped, 5⟩, ⟨5, lcn, 3⟩]
  last := ⟨8, lcnRlNotMapped, 0⟩
  runs_ne_nil := by simp
  chain := by simp
  last_length := rfl
  last_lcn := .inr rfl
  last_vcn_isS64 := by decide
  lcn_isS64 := by
    intro run hrun
    rcases List.mem_cons.mp hrun with rfl | hrest
    · exact isS64_lcnRlNotMapped
    · rw [List.mem_singleton.mp hrest]
      exact hlcn

def firstFive : BaseSource where
  toSource := .fromZero [] [⟨0, 100, 5⟩] [⟨5, lcnRlNotMapped, 3⟩] ⟨8, lcnEnoent, 0⟩
    (by simp [lcnHole, lcnRlNotMapped]) (by simp) (by decide) (by decide) rfl (.inl rfl) (by decide)
  rest := ⟨5, lcnRlNotMapped, 3⟩
  lead_eq_nil := rfl
  origin_eq_zero := rfl
  mapped_lcn := by simp [Source.fromZero, lcnHole]
  trail_eq := rfl
  rest_lcn := rfl
  last_lcn_eq := rfl

theorem fitsBase_secondRead (lcn : ℤ) (hlcn : IsS64 lcn) :
    FitsBase (secondRead lcn hlcn) firstFive ⟨0, lcnRlNotMapped, 5⟩ [⟨5, lcn, 3⟩] :=
  ⟨rfl, rfl, by decide, le_rfl⟩

/-- The clusters five to seven lie somewhere else. -/
theorem merge_base_apart : KeepsEnd (secondRead 300 (by decide)) firstFive :=
  (merge_base_iff _ _ _ _ (fitsBase_secondRead 300 (by decide))).mpr
    (.inl fun h => absurd h.2.2 (by decide))

/-- The clusters five to seven follow the first five on the device. -/
theorem merge_base_adjacent : FitsBase (secondRead 105 (by decide)) firstFive
      ⟨0, lcnRlNotMapped, 5⟩ [⟨5, 105, 3⟩] ∧ ¬ KeepsEnd (secondRead 105 (by decide)) firstFive :=
  ⟨fitsBase_secondRead 105 (by decide), not_keepsEnd (fitsBase_secondRead 105 (by decide))
    ⟨rfl, rfl, by decide⟩ fun h => absurd h.2 (by decide)⟩

end AdvancedOs.Ntfs.RunlistEndMarker
