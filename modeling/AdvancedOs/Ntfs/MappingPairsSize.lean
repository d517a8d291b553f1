import AdvancedOs.Ntfs.MappingPairsBuild

/-!
# The size of mapping pairs

`ntfs_get_size_for_mapping_pairs` goes through a runlist as `ntfs_mapping_pairs_build` does, but
counts the bytes instead of writing them. `Agrees` relates a size, or an error, to what the encoder
does with room for so many bytes or for fewer. It holds at the end of the loops and for a pair
before a part for which it holds (`Agrees.pair`), and so for the loops and for the functions,
whatever the runlist is (`size_exact`).

A pair has at most 17 bytes, and an element of the runlist has 24, so that the size of a runlist the
driver can allocate fits into an `int`.
-/

namespace AdvancedOs.Ntfs.MappingPairsSize

open Foundation.ArraySegments Foundation.SignedWords RunlistElements MappingPairs
  MappingPairsBuild List

/-! ### Sizes and what is written -/

/-- An encoder that writes at `dst`, into a buffer whose last byte is at `dstMax`. -/
abbrev Encoder := Memory → ℕ → ℕ → Built

/-- The encoder writes exactly the given bytes when there is room for them, and otherwise says that
there is none. -/
def Writes (encoder : Encoder) (bytes : List UInt8) : Prop :=
  ∀ mem dst dstMax, dst ≤ dstMax → (dst + bytes.length ≤ dstMax + 1 →
      (encoder mem dst dstMax).status = .ok () ∧ Segment (encoder mem dst dstMax).mem dst bytes ∧
        FrameOutside dst (dst + bytes.length) mem (encoder mem dst dstMax).mem) ∧
    (dstMax + 1 < dst + bytes.length → (encoder mem dst dstMax).status = .error (.errno .enospc))

def Fails (encoder : Encoder) (failure : Failure) : Prop :=
  ∃ enough, ∀ mem dst dstMax, dst + enough ≤ dstMax → (encoder mem dst dstMax).status =
    .error failure

/-- The size, less what has been counted before, is that of the bytes the encoder writes, or both
fail in the same way. -/
def Agrees (size : Except Failure ℕ) (counted : ℕ) (encoder : Encoder) : Prop :=
  match size with
  | .ok n => ∃ bytes, bytes ≠ [] ∧ n = counted + bytes.length ∧ Writes encoder bytes
  | .error failure => Fails encoder failure

section

variable {vol : NtfsVolume} {size : Except Failure ℕ} {counted : ℕ} {lcn length change : ℤ}
variable {encoder : Encoder} {run : RunlistElement} {runs : List RunlistElement}

theorem agrees_endBuild (run : RunlistElement) (counted : ℕ) :
    Agrees (.ok (counted + 1)) counted fun mem dst _ => endBuild mem dst run (.ok ()) := by
  refine ⟨[0], cons_ne_nil _ _, rfl, fun mem dst dstMax hdst => ⟨fun _ => ⟨rfl, ?_, ?_⟩, ?_⟩⟩
  · exact ⟨Function.update_self .., trivial⟩
  · exact frameOutside_update mem dst 0
  · intro hfull
    rw [length_singleton] at hfull
    omega

theorem agrees_of_fails {failure : Failure}
    (h : ∀ mem dst dstMax, (encoder mem dst dstMax).status = .error failure) :
    Agrees (.error failure) counted encoder :=
  ⟨0, fun mem dst dstMax _ => h mem dst dstMax⟩

/-- Assumes: 64-bit words. A pair before what the size and the encoder agree on. -/
theorem Agrees.pair (run : RunlistElement) (hlen : IsS64 length) (hchg : IsS64 change)
    (hrest : Agrees size (counted + pairSize vol lcn length change) encoder) :
    Agrees size counted fun mem dst dstMax =>
      match writePair vol mem dst dstMax lcn length change with
      | (mem, none) => endBuild mem dst run (.error (.errno .enospc))
      | (mem, some dst) => encoder mem dst dstMax := by
  cases size with
  | ok n =>
    obtain ⟨bytes, hne, hn, hwrit⟩ := hrest
    have hpos := List.length_pos_iff.mpr hne
    refine ⟨pairBytes (codedPair vol lcn length change) ++ bytes,
      append_ne_nil_of_right_ne_nil _ hne, ?_, fun mem dst dstMax hdst => ?_⟩
    · rw [length_append, length_pairBytes, size_codedPair, hn, Nat.add_assoc]
    rw [length_append, length_pairBytes, size_codedPair]
    obtain ⟨after, ⟨hroom, hwr, hseg, hfrm⟩ | ⟨hfull, hwr, -⟩⟩ :=
      stored_writePair vol mem dst dstMax lcn hlen hchg
    · obtain ⟨hfits, hfull⟩ := hwrit after _ dstMax hroom
      simp only [hwr]
      refine ⟨fun hle => ?_, fun hlt => hfull (by omega)⟩
      obtain ⟨hstat, hby, houter⟩ := hfits (by omega)
      refine ⟨hstat, (segment_append ..).mpr ⟨houter.segment hseg (.inl ?_), ?_⟩, ?_⟩
      · rw [length_pairBytes, size_codedPair]
      · rw [length_pairBytes, size_codedPair]
        exact hby
      · rw [← Nat.add_assoc]
        exact hfrm.trans houter (by omega) (by omega)
    · -- The pair does not fit together with the terminator, and so nothing that contains both does.
      simp only [hwr]
      exact ⟨fun hle => absurd hle (by omega), fun _ => rfl⟩
  | error failure =>
    obtain ⟨enough, hfail⟩ := hrest
    refine ⟨pairSize vol lcn length change + enough, fun mem dst dstMax hroom => ?_⟩
    obtain ⟨after, ⟨-, hwr, -⟩ | ⟨hfull, -⟩⟩ :=
      stored_writePair vol mem dst dstMax lcn hlen hchg
    · simp only [hwr]
      exact hfail _ _ _ (by omega)
    · omega

theorem isS64_cappedLength (lastVcn : ℤ) (next : RunlistElement) (hrun : IsS64 run.length) :
    IsS64 (cappedLength lastVcn run next).1 := by
  unfold cappedLength
  split_ifs
  · exact isS64_s64 _
  · exact hrun
  · exact hrun

theorem agrees_loop (vol : NtfsVolume) (lastVcn : ℤ) (hruns : ∀ run ∈ runs, IsS64 run.length)
    (counted : ℕ) (prevLcn : ℤ) (theEnd : Bool) :
    Agrees (sizeLoop vol lastVcn runs (counted + 1) prevLcn theEnd) counted fun mem dst dstMax =>
      buildLoop vol dstMax lastVcn runs mem dst prevLcn theEnd := by
  induction runs generalizing counted prevLcn theEnd with
  | nil => exact agrees_of_fails fun _ _ _ => rfl
  | cons run rest ih =>
    simp only [sizeLoop, buildLoop]
    by_cases hend : run.length = 0 ∨ theEnd = true
    · simp only [if_pos hend]
      exact agrees_endBuild run counted
    by_cases hbad : run.length < 0 ∨ run.lcn < lcnHole
    · simp only [if_neg hend, if_pos hbad]
      exact agrees_of_fails fun _ _ _ => rfl
    simp only [if_neg hend, if_neg hbad]
    cases rest with
    | nil => exact agrees_of_fails fun _ _ _ => rfl
    | cons next rest =>
      have hcapp := isS64_cappedLength lastVcn next (hruns run mem_cons_self)
      refine Agrees.pair run hcapp (isS64_s64 _) ?_
      dsimp only
      rw [Nat.add_right_comm]
      exact ih (fun other hoth => hruns other (mem_cons_of_mem _ hoth)) _ _ _

theorem isS64_partialLcn (vol : NtfsVolume) (delta : ℤ)
    (h : ¬ (run.length < 0 ∨ run.lcn < lcnHole)) :
    IsS64 (if storesLcn vol run.lcn then if 0 ≤ run.lcn then s64 (run.lcn + delta) else run.lcn
      else 0) := by
  unfold lcnHole at h
  split_ifs
  · exact isS64_s64 _
  · constructor <;> omega
  · decide

theorem agrees_firstCut (vol : NtfsVolume) (firstVcn lastVcn : ℤ) {next : RunlistElement}
    {rest : List RunlistElement} (hruns : ∀ other ∈ run :: next :: rest, IsS64 other.length) :
    Agrees (sizePartial vol firstVcn lastVcn run next rest) 0 fun mem dst dstMax =>
      buildPartial vol mem dst dstMax firstVcn lastVcn run next rest := by
  unfold sizePartial buildPartial
  by_cases hbad : run.length < 0 ∨ run.lcn < lcnHole
  · simp only [if_pos hbad]
    exact agrees_of_fails fun _ _ _ => rfl
  simp only [if_neg hbad]
  refine Agrees.pair run (isS64_s64 _) ?_ ?_
  · exact isS64_partialLcn vol _ hbad
  · rw [Nat.zero_add, Nat.add_comm 1]
    exact agrees_loop vol lastVcn (fun other hoth => hruns other (mem_cons_of_mem _ hoth)) _ _ _

theorem mem_of_mem_skipTo {firstVcn : ℤ} (h : run ∈ skipTo firstVcn runs) : run ∈ runs := by
  induction runs with
  | nil => exact h
  | cons first rest ih =>
    cases rest with
    | nil =>
      unfold skipTo at h
      split_ifs at h
      · exact h
      · cases h
    | cons next rest =>
      unfold skipTo at h
      dsimp only at h
      split_ifs at h
      · exact h
      · exact mem_cons_of_mem _ (ih h)
      · exact h

theorem Agrees.congr {other : Encoder}
    (h : ∀ mem dst dstMax, dst ≤ dstMax → other mem dst dstMax = encoder mem dst dstMax)
    (hagr : Agrees size counted encoder) : Agrees size counted other := by
  cases size with
  | ok n =>
    obtain ⟨bytes, hne, hn, hwrit⟩ := hagr
    refine ⟨bytes, hne, hn, fun mem dst dstMax hdst => ?_⟩
    rw [h mem dst dstMax hdst]
    exact hwrit mem dst dstMax hdst
  | error failure =>
    obtain ⟨enough, hfail⟩ := hagr
    refine ⟨enough, fun mem dst dstMax hroom => ?_⟩
    rw [h mem dst dstMax (by omega)]
    exact hfail mem dst dstMax hroom

theorem agrees_functions (vol : NtfsVolume) {rl : Option (List RunlistElement)}
    (hrl : ∀ runs ∈ rl, ∀ run ∈ runs, IsS64 run.length) (firstVcn lastVcn : ℤ) :
    Agrees (ntfsGetSizeForMappingPairs vol rl firstVcn lastVcn) 0 fun mem dst dstMax =>
      ntfsMappingPairsBuild vol mem dst (dstMax + 1 - dst) rl firstVcn lastVcn := by
  unfold ntfsGetSizeForMappingPairs ntfsMappingPairsBuild
  by_cases hrange : firstVcn < 0 ∨ lastVcn < -1 ∨ 0 ≤ lastVcn ∧ lastVcn < firstVcn
  · rw [if_pos hrange]
    refine agrees_of_fails fun mem dst dstMax => ?_
    rw [if_pos (by tauto)]
  rw [if_neg hrange]
  -- With a buffer of at least one byte, the encoder asks the same.
  have hasks : ∀ dst dstMax, dst ≤ dstMax → ¬ (firstVcn < 0 ∨ lastVcn < -1 ∨
      (0 ≤ lastVcn ∧ lastVcn < firstVcn) ∨ dstMax + 1 - dst < 1) := by
    intro dst dstMax hdst
    omega
  refine Agrees.congr (fun mem dst dstMax hdst => if_neg (hasks dst dstMax hdst)) ?_
  cases rl with
  | none =>
    split_ifs
    · exact agrees_of_fails fun _ _ _ => rfl
    · exact agrees_endBuild ⟨0, 0, 0⟩ 0
  | some runs =>
    have hruns : ∀ run ∈ skipTo firstVcn runs, IsS64 run.length :=
      fun run hrun => hrl runs rfl run (mem_of_mem_skipTo hrun)
    dsimp only
    cases hskip : skipTo firstVcn runs with
    | nil => exact agrees_of_fails fun _ _ _ => rfl
    | cons run rest =>
      rw [hskip] at hruns
      by_cases hout : (run.length = 0 ∧ run.vcn < firstVcn) ∨ firstVcn < run.vcn
      · simp only [if_pos hout]
        exact agrees_of_fails fun _ _ _ => rfl
      simp only [if_neg hout]
      have hmax : ∀ dst dstMax, dst ≤ dstMax → dst + (dstMax + 1 - dst) - 1 = dstMax := by omega
      by_cases hin : run.vcn < firstVcn
      · simp only [if_pos hin]
        cases rest with
        | nil => exact agrees_of_fails fun _ _ _ => rfl
        | cons next rest =>
          refine Agrees.congr (fun mem dst dstMax hdst => ?_)
            (agrees_firstCut vol firstVcn lastVcn hruns)
          rw [hmax dst dstMax hdst]
      · simp only [if_neg hin]
        refine Agrees.congr (fun mem dst dstMax hdst => ?_)
          (agrees_loop vol lastVcn hruns 0 0 false)
        rw [hmax dst dstMax hdst]

/-- Assumes: 64-bit lengths. With room for as many bytes as are counted the encoder succeeds, and
the bytes it writes are so many, whatever the memory was; with room for fewer it says that there is
none. Where counting fails, the encoder fails in the same way if there is enough room. -/
theorem size_exact (vol : NtfsVolume) (rl : Option (List RunlistElement))
    (hrl : ∀ runs ∈ rl, ∀ run ∈ runs, IsS64 run.length) (firstVcn lastVcn : ℤ) :
    (∀ n, ntfsGetSizeForMappingPairs vol rl firstVcn lastVcn = .ok n → 0 < n ∧
      ∃ bytes : List UInt8, bytes.length = n ∧ ∀ mem dst dstLen,
        let built := ntfsMappingPairsBuild vol mem dst dstLen rl firstVcn lastVcn
        (n ≤ dstLen → built.status = .ok () ∧ Segment built.mem dst bytes ∧
          ∀ i, i < dst ∨ dst + n ≤ i → built.mem i = mem i) ∧
        (1 ≤ dstLen → dstLen < n → built.status = .error (.errno .enospc))) ∧
    ∀ failure, ntfsGetSizeForMappingPairs vol rl firstVcn lastVcn = .error failure →
      ∃ enough, ∀ mem dst dstLen, enough ≤ dstLen →
        (ntfsMappingPairsBuild vol mem dst dstLen rl firstVcn lastVcn).status = .error failure := by
  have hagrees := agrees_functions vol hrl firstVcn lastVcn
  have hlen : ∀ dst dstLen, 1 ≤ dstLen → dst + dstLen - 1 + 1 - dst = dstLen := by omega
  constructor
  · intro n hsize
    rw [hsize] at hagrees
    obtain ⟨bytes, hne, hn, hwrites⟩ := hagrees
    rw [Nat.zero_add] at hn
    subst hn
    have hpos := List.length_pos_iff.mpr hne
    refine ⟨hpos, bytes, rfl, fun mem dst dstLen => ⟨fun hroom => ?_, fun hone hfull => ?_⟩⟩
    · have hwritten := (hwrites mem dst (dst + dstLen - 1) (by omega)).1 (by omega)
      simp only [hlen dst dstLen (show 1 ≤ dstLen by omega)] at hwritten
      exact hwritten
    · have hrefused := (hwrites mem dst (dst + dstLen - 1) (by omega)).2 (by omega)
      simp only [hlen dst dstLen hone] at hrefused
      exact hrefused
  · intro failure hsize
    rw [hsize] at hagrees
    obtain ⟨enough, hfails⟩ := hagrees
    refine ⟨enough + 1, fun mem dst dstLen hroom => ?_⟩
    have hfailed := hfails mem dst (dst + dstLen - 1) (by omega)
    simp only [hlen dst dstLen (show 1 ≤ dstLen by omega)] at hfailed
    exact hfailed

def sixClusters : List RunlistElement :=
  [⟨0, 90, 2⟩, ⟨2, lcnHole, 3⟩, ⟨5, 10, 1⟩, ⟨6, lcnEnoent, 0⟩]

/-- From the second cluster on, nine bytes are needed. -/
theorem size_exact_sixClusters :
    ntfsGetSizeForMappingPairs ⟨3, 12, by decide, by decide⟩ (some sixClusters) 1 (-1) = .ok 9 ∧
      ∀ mem dst, (ntfsMappingPairsBuild ⟨3, 12, by decide, by decide⟩ mem dst 8 (some sixClusters)
        1 (-1)).status = .error (.errno .enospc) := by
  have hsize : ntfsGetSizeForMappingPairs ⟨3, 12, by decide, by decide⟩ (some sixClusters) 1 (-1) =
      .ok 9 := by rfl
  have hwords : ∀ runs ∈ some sixClusters, ∀ run ∈ runs, IsS64 run.length := by
    rintro runs ⟨⟩
    decide
  obtain ⟨-, bytes, -, hbuilt⟩ :=
    (size_exact ⟨3, 12, by decide, by decide⟩ _ hwords 1 (-1)).1 9 hsize
  exact ⟨hsize, fun mem dst => (hbuilt mem dst 8).2 (by decide) (by decide)⟩

end

end AdvancedOs.Ntfs.MappingPairsSize
