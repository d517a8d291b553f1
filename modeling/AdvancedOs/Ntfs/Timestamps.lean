import AdvancedOs.Foundation.SignedWords

/-!
# Timestamps

The volume counts time in steps of 100 nanoseconds from 1601 on, and the kernel in seconds and
nanoseconds from 1970 on. `utc2ntfs` and `ntfs2utc` convert one into the other. The way back divides
a word without a sign, so a time before 1970 becomes one in the far future. `conversion_iff` says
that the conversions are inverse from 1970 on and not before, and which two times they put in the
wrong order.
-/

namespace AdvancedOs.Ntfs.Timestamps

open Foundation.SignedWords

/-- `struct timespec`. -/
@[ext]
structure Timespec where
  tvSec : ℤ
  tvNsec : ℤ
deriving DecidableEq

/-- `NTFS_TIME_OFFSET`, the steps from 1601 to 1970. -/
def ntfsTimeOffset : ℤ := (369 * 365 + 89) * 24 * 3600 * 10000000

def utc2ntfs (ts : Timespec) : ℤ :=
  s64 (s64 (s64 (ts.tvSec * 10000000) + ts.tvNsec.tdiv 100) + ntfsTimeOffset)

/-- The dividend of `ntfs2utc`. -/
def ticks (time : ℤ) : ℤ := u64 (s64 (time - ntfsTimeOffset))

def ntfs2utc (time : ℤ) : Timespec :=
  ⟨s64 (ticks time / 10000000), ticks time % 10000000 * 100⟩

def NotLater (first second : Timespec) : Prop :=
  first.tvSec < second.tvSec ∨ first.tvSec = second.tvSec ∧ first.tvNsec ≤ second.tvNsec

/-- A time from 1601 on that the volume can store. -/
structure Storable (ts : Timespec) : Prop where
  nsec_nonneg : 0 ≤ ts.tvNsec
  nsec_lt : ts.tvNsec < 1000000000
  nsec_dvd : ts.tvNsec % 100 = 0
  nonneg : 0 ≤ ts.tvSec * 10000000 + ts.tvNsec / 100 + ntfsTimeOffset
  lt : ts.tvSec * 10000000 + ts.tvNsec / 100 + ntfsTimeOffset < 2 ^ 63

variable {ts : Timespec} {time first second : ℤ}

theorem ticks_eq (hlow : 0 ≤ time) (hhigh : time < 2 ^ 63) : ticks time =
    if ntfsTimeOffset ≤ time then time - ntfsTimeOffset else time - ntfsTimeOffset + 2 ^ 64 := by
  unfold ticks ntfsTimeOffset
  rw [s64_of_isS64 ⟨by omega, by omega⟩, u64]
  split_ifs with hlate <;> omega

theorem tvSec_ntfs2utc (hlow : 0 ≤ time) (hhigh : time < 2 ^ 63) :
    (ntfs2utc time).tvSec = ticks time / 10000000 := by
  have hticks := ticks_eq hlow hhigh
  refine s64_of_isS64 ⟨?_, ?_⟩
  all_goals
    unfold ntfsTimeOffset at hticks
    split_ifs at hticks <;> omega

theorem utc2ntfs_eq (hts : Storable ts) :
    utc2ntfs ts = ts.tvSec * 10000000 + ts.tvNsec / 100 + ntfsTimeOffset := by
  obtain ⟨hnn, hlt, -, hlow, hhigh⟩ := hts
  rw [utc2ntfs, s64_s64_add, Int.add_comm (s64 _), Int.add_assoc, Int.tdiv_eq_ediv_of_nonneg hnn,
    Int.add_comm, Int.add_assoc, s64_s64_add, ← Int.add_assoc, Int.add_right_comm]
  exact s64_of_isS64 ⟨by omega, hhigh⟩

theorem ntfs2utc_utc2ntfs_iff (hts : Storable ts) : ntfs2utc (utc2ntfs ts) = ts ↔ 0 ≤ ts.tvSec := by
  rw [utc2ntfs_eq hts]
  obtain ⟨hnn, hlt, hdvd, hlow, hhigh⟩ := hts
  have hsec := tvSec_ntfs2utc hlow hhigh
  have hticks := ticks_eq hlow hhigh
  unfold ntfsTimeOffset at hlow hhigh hsec hticks ⊢
  constructor
  · intro hsame
    rw [hsame] at hsec
    split_ifs at hticks with hlate <;> omega
  · intro hpos
    rw [if_pos (by omega), Int.add_sub_cancel] at hticks
    rw [hticks] at hsec
    refine Timespec.ext (hsec.trans (by omega)) ?_
    rw [ntfs2utc, hticks]
    dsimp only
    omega

theorem notLater_ntfs2utc_iff (hfst : 0 ≤ first) (hle : first ≤ second) (hsec : second < 2 ^ 63) :
    NotLater (ntfs2utc first) (ntfs2utc second) ↔
      ¬ (first < ntfsTimeOffset ∧ ntfsTimeOffset ≤ second) := by
  have hticks := ticks_eq hfst (by omega)
  have hticks' := ticks_eq (hfst.trans hle) hsec
  rw [NotLater, tvSec_ntfs2utc hfst (by omega), tvSec_ntfs2utc (hfst.trans hle) hsec,
    ntfs2utc, ntfs2utc]
  unfold ntfsTimeOffset at *
  dsimp only
  split_ifs at hticks hticks' <;> omega

/-- Assumes: a time that can be stored, and two times of the volume in order. The first comes back
just if it is not before 1970, and the other two stay in order unless 1970 lies between them. -/
theorem conversion_iff (hts : Storable ts) (hfirst : 0 ≤ first) (hle : first ≤ second)
    (hsecond : second < 2 ^ 63) :
    (ntfs2utc (utc2ntfs ts) = ts ↔ 0 ≤ ts.tvSec) ∧ (NotLater (ntfs2utc first) (ntfs2utc second) ↔
        ¬ (first < ntfsTimeOffset ∧ ntfsTimeOffset ≤ second)) ∧
      0 ≤ (ntfs2utc first).tvNsec ∧ (ntfs2utc first).tvNsec < 1000000000 := by
  refine ⟨ntfs2utc_utc2ntfs_iff hts, notLater_ntfs2utc_iff hfirst hle hsecond, ?_⟩
  dsimp only [ntfs2utc]
  omega

/-- The first second of 1970, and two steps around it. -/
theorem conversion_iff_epoch : ntfs2utc (utc2ntfs ⟨0, 0⟩) = ⟨0, 0⟩ ∧
    ¬ NotLater (ntfs2utc (ntfsTimeOffset - 1)) (ntfs2utc ntfsTimeOffset) := by
  have hboth := @conversion_iff ⟨0, 0⟩ (ntfsTimeOffset - 1) ntfsTimeOffset
    ⟨by decide, by decide, by decide, by decide, by decide⟩ (by decide) (by decide) (by decide)
  exact ⟨hboth.1.mpr le_rfl, fun hnot => hboth.2.1.mp hnot ⟨by decide, by decide⟩⟩

/-- The second before 1970. -/
theorem not_inverse_of_before : Storable ⟨-1, 0⟩ ∧ ntfs2utc (utc2ntfs ⟨-1, 0⟩) ≠ ⟨-1, 0⟩ := by
  have hts : Storable ⟨-1, 0⟩ := ⟨by decide, by decide, by decide, by decide, by decide⟩
  exact ⟨hts, fun hsame => absurd ((ntfs2utc_utc2ntfs_iff hts).mp hsame) (by decide)⟩

end AdvancedOs.Ntfs.Timestamps
