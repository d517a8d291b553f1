import AdvancedOs.Foundation.SignedWords

/-!
# The boot sector

A mount reads the boot sector, checks it with `is_boot_sector_ntfs` and takes the geometry of the
volume from it with `parse_ntfs_boot_sector`. The sizes are kept with their logarithms, which `ffs`
gives: the number of the lowest bit, and so the logarithm for powers of two only.

The number of sectors in a cluster is checked to be a power of two, and those of clusters in a
record are too (`clusters_of_isValid`), but the size of a sector is only checked to lie between 256
and 4096. The lcns of the mft and its mirror are compared with the size of the volume as signed
numbers. So the volume of an accepted boot sector is sane just when the size of a sector is a power
of two and neither lcn is negative (`sane_iff`). `ntfs_setup_allocators` divides it into zones,
which lie inside the volume unless its arithmetic overflows (`zonesInside_iff`). No boot sector that
is accepted makes it overflow.
-/

namespace AdvancedOs.Ntfs.BootSector

open Foundation.SignedWords

/-! ### The driver -/

/-- `BIOS_PARAMETER_BLOCK`, without the fields that nothing looks at. -/
structure BiosParameterBlock where
  bytesPerSector : UInt16
  sectorsPerCluster : UInt8
  reservedSectors : UInt16
  fats : UInt8
  rootEntries : UInt16
  sectors : UInt16
  sectorsPerFat : UInt16
  largeSectors : UInt32

/-- `NTFS_BOOT_SECTOR`, without the fields that only warnings depend on. -/
structure NtfsBootSector where
  oemId : UInt64
  bpb : BiosParameterBlock
  numberOfSectors : Int64
  mftLcn : Int64
  mftmirrLcn : Int64
  clustersPerMftRecord : Int8
  clustersPerIndexRecord : Int8
  volumeSerialNumber : UInt64

/-- `magicNTFS`, the characters "NTFS    ". -/
def magicNtfs : UInt64 := 0x202020205346544e

def ntfsMaxClusterSize : ℕ := 64 * 1024

def isValidRecordClusters (clusters : Int8) : Bool :=
  (0xe1 ≤ clusters.toUInt8 && clusters.toUInt8 ≤ 0xf7) || [1, 2, 4, 8, 16, 32, 64].contains clusters

def isBootSectorNtfs (b : NtfsBootSector) : Bool :=
  b.oemId = magicNtfs &&
    (0x100 ≤ b.bpb.bytesPerSector && b.bpb.bytesPerSector ≤ 0x1000) &&
    [1, 2, 4, 8, 16, 32, 64, 128].contains b.bpb.sectorsPerCluster &&
    b.bpb.bytesPerSector.toNat * b.bpb.sectorsPerCluster.toNat ≤ ntfsMaxClusterSize &&
    (b.bpb.reservedSectors = 0 && b.bpb.rootEntries = 0 && b.bpb.sectors = 0 &&
      b.bpb.sectorsPerFat = 0 && b.bpb.largeSectors = 0 && b.bpb.fats = 0) &&
    isValidRecordClusters b.clustersPerMftRecord &&
    isValidRecordClusters b.clustersPerIndexRecord

/-- `ffs`: one more than the number of the lowest bit that is set, or zero. -/
def ffs (x : ℕ) : ℕ :=
  match (List.range 32).find? x.testBit with
  | some i => i + 1
  | none => 0

/-- What the machine and the device give. -/
structure Machine where
  pageCacheSize : ℕ
  sBlocksize : ℕ
  sizeofLong : ℕ

/-- The part of `ntfs_volume` that the boot sector gives. -/
structure Volume where
  sectorSize : ℕ
  sectorSizeBits : ℕ
  clusterSize : ℕ
  clusterSizeMask : ℕ
  clusterSizeBits : ℕ
  mftRecordSize : ℕ
  mftRecordSizeMask : ℕ
  mftRecordSizeBits : ℕ
  indexRecordSize : ℕ
  indexRecordSizeMask : ℕ
  indexRecordSizeBits : ℕ
  nrClusters : ℤ
  mftLcn : ℤ
  mftmirrLcn : ℤ
  mftmirrSize : ℕ
  serialNo : UInt64

/-- The size of a record, from a number of clusters or from minus its logarithm. -/
def recordSize (clusterSize : ℕ) (clusters : ℤ) : ℕ :=
  (if 0 < clusters then clusterSize * 2 ^ (ffs clusters.toNat - 1) else 2 ^ (-clusters).toNat) %
    2 ^ 32

/-- The number of records in the mft mirror: four, or as many as fit into a larger cluster. -/
def mirrorSize (clusterSize mftRecordSizeBits : ℕ) : ℕ :=
  if clusterSize ≤ 4 * 2 ^ mftRecordSizeBits then 4 else clusterSize / 2 ^ mftRecordSizeBits

def parseNtfsBootSector (machine : Machine) (b : NtfsBootSector) : Option Volume :=
  let sectorSize := b.bpb.bytesPerSector.toNat
  if sectorSize < machine.sBlocksize then none else
  let sectorsPerClusterBits := ffs b.bpb.sectorsPerCluster.toNat - 1
  let clusterSize := sectorSize * 2 ^ sectorsPerClusterBits % 2 ^ 32
  if clusterSize < sectorSize then none else
  let mftRecordSize := recordSize clusterSize b.clustersPerMftRecord.toInt
  if machine.pageCacheSize < mftRecordSize then none else
  if mftRecordSize < sectorSize then none else
  let indexRecordSize := recordSize clusterSize b.clustersPerIndexRecord.toInt
  if indexRecordSize < sectorSize then none else
  let nrClusters := b.numberOfSectors.toInt / 2 ^ sectorsPerClusterBits
  if 2 ^ 32 ≤ u64 nrClusters then none else
  let clusterSizeBits := ffs clusterSize - 1
  if machine.sizeofLong < 8 ∧ 2 ^ 41 ≤ u64 (nrClusters * 2 ^ clusterSizeBits) then none else
  if nrClusters ≤ b.mftLcn.toInt then none else
  if nrClusters ≤ b.mftmirrLcn.toInt then none else
  let mftRecordSizeBits := ffs mftRecordSize - 1
  some {
    sectorSize := sectorSize
    sectorSizeBits := ffs sectorSize - 1
    clusterSize := clusterSize
    clusterSizeMask := clusterSize - 1
    clusterSizeBits := clusterSizeBits
    mftRecordSize := mftRecordSize
    mftRecordSizeMask := mftRecordSize - 1
    mftRecordSizeBits := mftRecordSizeBits
    indexRecordSize := indexRecordSize
    indexRecordSizeMask := indexRecordSize - 1
    indexRecordSizeBits := ffs indexRecordSize - 1
    nrClusters := nrClusters
    mftLcn := b.mftLcn.toInt
    mftmirrLcn := b.mftmirrLcn.toInt
    mftmirrSize := mirrorSize clusterSize mftRecordSizeBits
    serialNo := b.volumeSerialNumber }

/-! ### Sane volumes -/

/-- The size is a power of two, with its logarithm and its mask. -/
def IsShift (size bits mask : ℕ) : Prop := size = 2 ^ bits ∧ mask = size - 1

structure Sane (machine : Machine) (vol : Volume) : Prop where
  sector : vol.sectorSize = 2 ^ vol.sectorSizeBits
  cluster : IsShift vol.clusterSize vol.clusterSizeBits vol.clusterSizeMask
  mftRecord : IsShift vol.mftRecordSize vol.mftRecordSizeBits vol.mftRecordSizeMask
  indexRecord : IsShift vol.indexRecordSize vol.indexRecordSizeBits vol.indexRecordSizeMask
  sector_le_cluster : vol.sectorSize ≤ vol.clusterSize
  cluster_le : vol.clusterSize ≤ 64 * 1024
  sector_le_mftRecord : vol.sectorSize ≤ vol.mftRecordSize
  mftRecord_le : vol.mftRecordSize ≤ machine.pageCacheSize
  mftLcn : 0 ≤ vol.mftLcn ∧ vol.mftLcn < vol.nrClusters
  mftmirrLcn : 0 ≤ vol.mftmirrLcn ∧ vol.mftmirrLcn < vol.nrClusters

/-! ### Sizes -/

variable {bits : ℕ} {clusters : Int8} {b : NtfsBootSector}

theorem ffs_two_pow (hbits : bits < 32) : ffs (2 ^ bits) = bits + 1 := by
  have hfind : (List.range 32).find? (2 ^ bits : ℕ).testBit = some bits := by
    rw [List.find?_range_eq_some]
    refine ⟨Nat.testBit_two_pow_self, List.mem_range.mpr hbits, fun j hj => ?_⟩
    rw [Nat.testBit_two_pow_of_ne hj.ne']
    rfl
  rw [ffs, hfind]

theorem isShift_ffs (hbits : bits < 32) :
    IsShift (2 ^ bits) (ffs (2 ^ bits) - 1) (2 ^ bits - 1) := by
  rw [ffs_two_pow hbits]
  exact ⟨rfl, rfl⟩

/-- A valid number of clusters is a power of two up to 64, or minus the logarithm of a size from 512
bytes to 2 GiB. -/
theorem clusters_of_isValid (hvalid : isValidRecordClusters clusters = true) :
    (∃ more ≤ 6, clusters.toInt = 2 ^ more) ∨ ∃ bits < 32, clusters.toInt = -(bits : ℕ) ∧
      0 < bits := by
  obtain ⟨⟨bits⟩⟩ := clusters
  revert bits
  decide

theorem exists_recordSize (hbits : bits ≤ 16) (hvalid : isValidRecordClusters clusters = true) :
    ∃ recordBits < 32, recordSize (2 ^ bits) clusters.toInt = 2 ^ recordBits := by
  rcases clusters_of_isValid hvalid with ⟨more, hmore, hclus⟩ | ⟨size, hsize, hclus, hpos⟩
  · have hnat : ((2 : ℤ) ^ more).toNat = 2 ^ more := by
      rw [Int.toNat_pow_of_nonneg (by decide)]
      rfl
    have hlt : 2 ^ (bits + more) < 2 ^ 32 := Nat.pow_lt_pow_right (by decide) (by omega)
    refine ⟨bits + more, by omega, ?_⟩
    rw [recordSize, hclus, if_pos (by positivity), hnat, ffs_two_pow (by omega),
      Nat.add_sub_cancel, ← pow_add, Nat.mod_eq_of_lt hlt]
  · have hlt : 2 ^ size < 2 ^ 32 := Nat.pow_lt_pow_right (by decide) hsize
    refine ⟨size, hsize, ?_⟩
    rw [recordSize, hclus, if_neg (by omega), neg_neg, Int.toNat_natCast, Nat.mod_eq_of_lt hlt]

theorem sizes_of_isBootSector (hacc : isBootSectorNtfs b = true) :
    (0 < b.bpb.bytesPerSector.toNat ∧ ∃ bits ≤ 7, b.bpb.sectorsPerCluster.toNat = 2 ^ bits ∧
        b.bpb.bytesPerSector.toNat * 2 ^ bits ≤ 64 * 1024) ∧
      isValidRecordClusters b.clustersPerMftRecord = true ∧
      isValidRecordClusters b.clustersPerIndexRecord = true := by
  simp only [isBootSectorNtfs, Bool.and_eq_true, decide_eq_true_eq] at hacc
  obtain ⟨⟨⟨⟨⟨⟨-, hsect⟩, hclu⟩, hsize⟩, -⟩, hmft⟩, hidx⟩ := hacc
  have hlow := UInt16.le_iff_toNat_le.mp hsect.1
  have hbits : ∃ bits ≤ 7, b.bpb.sectorsPerCluster.toNat = 2 ^ bits := by
    generalize b.bpb.sectorsPerCluster = sectors at hclu
    obtain ⟨bits⟩ := sectors
    revert bits
    decide
  obtain ⟨bits, hle, heq⟩ := hbits
  rw [heq] at hsize
  exact ⟨⟨lt_of_lt_of_le (by decide) hlow, bits, hle, heq, hsize⟩, hmft, hidx⟩

/-! ### Parsed boot sectors -/

theorem parse_cases {machine : Machine} {vol : Volume}
    (hpars : parseNtfsBootSector machine b = some vol) :
    vol.sectorSize = b.bpb.bytesPerSector.toNat ∧ vol.sectorSizeBits = ffs vol.sectorSize - 1 ∧
      vol.clusterSize = vol.sectorSize * 2 ^ (ffs b.bpb.sectorsPerCluster.toNat - 1) % 2 ^ 32 ∧
      (vol.clusterSizeBits = ffs vol.clusterSize - 1 ∧ vol.clusterSizeMask = vol.clusterSize - 1) ∧
      vol.mftRecordSize = recordSize vol.clusterSize b.clustersPerMftRecord.toInt ∧
      (vol.mftRecordSizeBits = ffs vol.mftRecordSize - 1 ∧
      vol.mftRecordSizeMask = vol.mftRecordSize - 1) ∧
      vol.indexRecordSize = recordSize vol.clusterSize b.clustersPerIndexRecord.toInt ∧
      (vol.indexRecordSizeBits = ffs vol.indexRecordSize - 1 ∧ vol.indexRecordSizeMask =
      vol.indexRecordSize - 1) ∧
      (vol.mftLcn = b.mftLcn.toInt ∧ vol.mftmirrLcn = b.mftmirrLcn.toInt) ∧
      (vol.sectorSize ≤ vol.clusterSize ∧ vol.sectorSize ≤ vol.mftRecordSize ∧
        vol.mftRecordSize ≤ machine.pageCacheSize) ∧
      vol.mftLcn < vol.nrClusters ∧ vol.mftmirrLcn < vol.nrClusters := by
  simp only [parseNtfsBootSector] at hpars
  split_ifs at hpars with hblk hclu hpage hmft hidx hclus hlong hlcn hmirr
  cases hpars
  exact ⟨rfl, rfl, rfl, ⟨rfl, rfl⟩, rfl, ⟨rfl, rfl⟩, rfl, ⟨rfl, rfl⟩, ⟨rfl, rfl⟩,
    ⟨not_lt.mp hclu, not_lt.mp hmft, not_lt.mp hpage⟩, not_le.mp hlcn, not_le.mp hmirr⟩

/-- Assumes: a boot sector that is accepted and parsed. The volume is sane just when the size of a
sector is a power of two and neither lcn is negative. -/
theorem sane_iff {machine : Machine} {b : NtfsBootSector} {vol : Volume}
    (haccepts : isBootSectorNtfs b = true) (hparse : parseNtfsBootSector machine b = some vol) :
    Sane machine vol ↔ (∃ bits, b.bpb.bytesPerSector.toNat = 2 ^ bits) ∧
      0 ≤ b.mftLcn.toInt ∧ 0 ≤ b.mftmirrLcn.toInt := by
  obtain ⟨⟨hpos, more, hmore, hsectors, hmax⟩, hmftValid, hindexValid⟩ :=
    sizes_of_isBootSector haccepts
  obtain ⟨hsector, hsectorBits, hcluster, ⟨hclusterBits, hclusterMask⟩, hmft, ⟨hmftBits, hmftMask⟩,
    hindex, ⟨hindexBits, hindexMask⟩, ⟨hlcn, hmirr⟩, ⟨hle, hmftLe, hpage⟩, hlcnLt, hmirrLt⟩ :=
    parse_cases hparse
  rw [hsectors, ffs_two_pow (by omega), Nat.add_sub_cancel, hsector, Nat.mod_eq_of_lt (by omega)]
    at hcluster
  constructor
  · intro hsane
    exact ⟨⟨_, hsector ▸ hsane.sector⟩, hlcn ▸ hsane.mftLcn.1, hmirr ▸ hsane.mftmirrLcn.1⟩
  · rintro ⟨⟨bits, hbits⟩, hlcnLe, hmirrLe⟩
    rw [hbits, ← pow_add] at hcluster hmax
    -- All sizes are powers of two now, and only their exponents matter.
    have hexponent : bits + more ≤ 16 := (Nat.pow_le_pow_iff_right (by decide)).mp hmax
    obtain ⟨mftExponent, hmftExponent, hmftSize⟩ := exists_recordSize hexponent hmftValid
    obtain ⟨indexExponent, hindexExponent, hindexSize⟩ := exists_recordSize hexponent hindexValid
    rw [hcluster, hmftSize] at hmft
    rw [hcluster, hindexSize] at hindex
    refine ⟨?_, ?_, ?_, ?_, hle, by rw [hcluster]; exact hmax, hmftLe, hpage,
      ⟨by rwa [hlcn], hlcnLt⟩, ⟨by rwa [hmirr], hmirrLt⟩⟩
    · rw [hsectorBits, hsector, hbits]
      exact (isShift_ffs (by omega)).1
    · rw [hclusterBits, hclusterMask, hcluster]
      exact isShift_ffs (by omega)
    · rw [hmftBits, hmftMask, hmft]
      exact isShift_ffs hmftExponent
    · rw [hindexBits, hindexMask, hindex]
      exact isShift_ffs hindexExponent

/-! ### Boot sectors of small volumes -/

def bootSector (bytesPerSector : UInt16) (mftLcn : Int64) : NtfsBootSector where
  oemId := magicNtfs
  bpb := ⟨bytesPerSector, 8, 0, 0, 0, 0, 0, 0⟩
  numberOfSectors := 0x20000
  mftLcn := mftLcn
  mftmirrLcn := 2
  clustersPerMftRecord := -10
  clustersPerIndexRecord := 1
  volumeSerialNumber := 0

/-- A machine with pages of 4 KiB and a device with blocks of 512 bytes. -/
def smallMachine : Machine := ⟨4096, 512, 8⟩

/-- A volume with sectors of 512 bytes is sane. -/
theorem sane_iff_ordinary :
    isBootSectorNtfs (bootSector 512 4) = true ∧
      ∃ vol, parseNtfsBootSector smallMachine (bootSector 512 4) = some vol ∧
      Sane smallMachine vol := by
  have haccepts : isBootSectorNtfs (bootSector 512 4) = true := by decide
  exact ⟨haccepts, _, rfl, (sane_iff haccepts rfl).mpr ⟨⟨9, rfl⟩, by decide, by decide⟩⟩

/-- Sectors of 768 bytes are accepted, and so is an mft before the start of the volume. -/
theorem not_sane_accepted :
    (isBootSectorNtfs (bootSector 768 4) = true ∧
      ∃ vol, parseNtfsBootSector smallMachine (bootSector 768 4) = some vol ∧
      ¬ Sane smallMachine vol) ∧ isBootSectorNtfs (bootSector 512 (-1)) = true ∧
      ∃ vol, parseNtfsBootSector smallMachine (bootSector 512 (-1)) = some vol ∧
        ¬ Sane smallMachine vol := by
  refine ⟨⟨by decide, _, rfl, fun hsane => ?_⟩, by decide, _, rfl, fun hsane => ?_⟩
  · exact absurd hsane.sector (by decide)
  · exact absurd hsane.mftLcn.1 (by decide)

/-! ### The zones of the allocators -/

section

/-- What `ntfs_setup_allocators` sets. -/
structure Zones where
  mftZoneStart : ℤ
  mftZonePos : ℤ
  mftZoneEnd : ℤ
  data1ZonePos : ℤ
  data2ZonePos : ℤ
  mftDataPos : ℤ

/-- The size of the mft zone, as a part of the volume. -/
def mftZoneSize (nrClusters : ℤ) (mftZoneMultiplier : UInt8) : ℤ :=
  if mftZoneMultiplier = 4 then nrClusters / 2
  else if mftZoneMultiplier = 3 then s64 (nrClusters + nrClusters / 2) / 2 ^ 2
  else if mftZoneMultiplier = 2 then nrClusters / 2 ^ 2
  else nrClusters / 2 ^ 3

/-- The loop that halves the zone until its end is inside the volume. A 64-bit word is used up by 64
rounds. -/
def capZone (nrClusters mftLcn : ℤ) : ℕ → ℤ → Option ℤ
  | 0, _ => none
  | fuel + 1, size =>
    if nrClusters ≤ s64 (mftLcn + size) then capZone nrClusters mftLcn fuel (size / 2)
    else some (s64 (mftLcn + size))

/-- Where the mft is on an unmodified volume. -/
def standardMftLcn (clusterSize : ℕ) : ℤ :=
  let mftLcn := (8192 + 2 * clusterSize - 1) / clusterSize
  if mftLcn * clusterSize < 16 * 1024 then ((16 * 1024 + clusterSize - 1) / clusterSize : ℕ) else
    mftLcn

/-- `ntfs_setup_allocators`. There are no zones if the loop does not end or the cluster size, which
is a divisor, is zero. -/
def ntfsSetupAllocators (nrClusters mftLcn : ℤ) (clusterSize : ℕ) (mftZoneMultiplier : UInt8) :
    Option Zones :=
  if clusterSize = 0 then none
  else (capZone nrClusters mftLcn 64 (mftZoneSize nrClusters mftZoneMultiplier)).map fun zoneEnd =>
    { mftZoneStart := if mftLcn ≤ standardMftLcn clusterSize then 0 else mftLcn
      mftZonePos := mftLcn
      mftZoneEnd := zoneEnd
      data1ZonePos := zoneEnd
      data2ZonePos := 0
      mftDataPos := 24 }

/-- The zones are set up, and the mft zone lies inside the volume around the start of the mft. -/
def ZonesInside (nrClusters mftLcn : ℤ) (clusterSize : ℕ) (multiplier : UInt8) : Prop :=
  ∃ zones, ntfsSetupAllocators nrClusters mftLcn clusterSize multiplier = some zones ∧
    0 ≤ zones.mftZoneStart ∧ zones.mftZoneStart ≤ zones.mftZonePos ∧ zones.mftZonePos = mftLcn ∧
    mftLcn ≤ zones.mftZoneEnd ∧ zones.mftZoneEnd < nrClusters ∧
    zones.data1ZonePos = zones.mftZoneEnd

/-- Neither the size of the mft zone nor its first end overflows. -/
def NoOverflow (nrClusters mftLcn : ℤ) (multiplier : UInt8) : Prop :=
  (multiplier = 3 → nrClusters + nrClusters / 2 < 2 ^ 63) ∧
    mftLcn + mftZoneSize nrClusters multiplier < 2 ^ 63

variable {nrClusters mftLcn : ℤ} {multiplier : UInt8}

theorem mftZoneSize_bounds (hnr : 0 ≤ nrClusters)
    (hfits : multiplier = 3 → nrClusters + nrClusters / 2 < 2 ^ 63) :
    0 ≤ mftZoneSize nrClusters multiplier ∧ mftZoneSize nrClusters multiplier ≤ nrClusters := by
  unfold mftZoneSize
  split_ifs with hfour hthree
  · omega
  · have := hfits hthree
    rw [s64_of_isS64 ⟨by omega, by omega⟩]
    omega
  · omega
  · omega

/-- The size of 37.5 percent is negative if the sum that it comes from overflows. -/
theorem mftZoneSize_neg (hnr : 0 ≤ nrClusters ∧ nrClusters < 2 ^ 63)
    (hover : 2 ^ 63 ≤ nrClusters + nrClusters / 2) :
    mftZoneSize nrClusters 3 < 0 ∧ -2 ^ 63 ≤ mftZoneSize nrClusters 3 := by
  have hwrap : s64 (nrClusters + nrClusters / 2) = nrClusters + nrClusters / 2 - 2 ^ 64 := by
    rw [s64, Int.bmod_def]
    omega
  rw [mftZoneSize, if_neg (by decide), if_pos rfl, hwrap]
  omega

/-- The loop ends: a zone of size zero is inside the volume. -/
theorem exists_capZone (hmft : 0 ≤ mftLcn ∧ mftLcn < nrClusters) (hnr : nrClusters < 2 ^ 63)
    (fuel : ℕ) {size : ℤ} (hsize : 0 ≤ size ∧ size < 2 ^ fuel ∧ mftLcn + size < 2 ^ 63) :
    ∃ zoneEnd, capZone nrClusters mftLcn (fuel + 1) size = some zoneEnd ∧ mftLcn ≤ zoneEnd ∧
      zoneEnd < nrClusters := by
  induction fuel generalizing size with
  | zero =>
    have hzero : size = 0 := by omega
    rw [capZone, hzero, s64_of_isS64 ⟨by omega, by omega⟩, if_neg (by omega)]
    exact ⟨_, rfl, by omega, by omega⟩
  | succ fuel ih =>
    rw [capZone, s64_of_isS64 ⟨by omega, by omega⟩]
    split_ifs with hpast
    · rw [pow_succ] at hsize
      exact ih ⟨by omega, by omega, by omega⟩
    · exact ⟨_, rfl, by omega, by omega⟩

theorem zonesInside_of_noOverflow (hmft : 0 ≤ mftLcn ∧ mftLcn < nrClusters)
    (hnr : nrClusters < 2 ^ 63) {clusterSize : ℕ} (hcluster : clusterSize ≠ 0)
    (hfits : NoOverflow nrClusters mftLcn multiplier) :
    ZonesInside nrClusters mftLcn clusterSize multiplier := by
  obtain ⟨hlow, hhigh⟩ := mftZoneSize_bounds (by omega) hfits.1
  obtain ⟨zoneEnd, hcap, hge, hlt⟩ := exists_capZone hmft hnr 63 ⟨hlow, by omega, hfits.2⟩
  refine ⟨_, by rw [ntfsSetupAllocators, if_neg hcluster, hcap]; rfl, ?_, ?_, rfl, hge, hlt, rfl⟩
  · dsimp only
    split_ifs <;> omega
  · dsimp only
    split_ifs <;> omega

theorem nrClusters_lt {machine : Machine} {vol : Volume}
    (hparse : parseNtfsBootSector machine b = some vol) (hnr : 0 ≤ vol.nrClusters) :
    vol.nrClusters < 2 ^ 32 := by
  simp only [parseNtfsBootSector] at hparse
  split_ifs at hparse with hblock hcluster hpage hmft hindex hclusters
  cases hparse
  have hsectors := (Int.ediv_nonneg_iff_of_pos (by positivity)).mp hnr
  have hlt : b.numberOfSectors.toInt / 2 ^ (ffs b.bpb.sectorsPerCluster.toNat - 1) < 2 ^ 64 :=
    (Int.ediv_le_self _ hsectors).trans_lt (b.numberOfSectors.toInt_lt.trans (by decide))
  rw [u64_of_nonneg hnr hlt] at hclusters
  exact not_le.mp hclusters

/-- For a volume with the mft in it, the zones lie inside it just when the arithmetic does not
overflow. They do so for every boot sector that is accepted, unless the lcn of the mft in it is
negative. -/
theorem zonesInside_iff (multiplier : UInt8) :
    (∀ (nrClusters mftLcn : ℤ) (clusterSize : ℕ), nrClusters < 2 ^ 63 → 0 ≤ mftLcn →
        mftLcn < nrClusters → 512 ≤ clusterSize → clusterSize ≤ 64 * 1024 →
        (ZonesInside nrClusters mftLcn clusterSize multiplier ↔
          NoOverflow nrClusters mftLcn multiplier)) ∧
      ∀ (machine : Machine) (b : NtfsBootSector) (vol : Volume), isBootSectorNtfs b = true →
        parseNtfsBootSector machine b = some vol → 0 ≤ vol.mftLcn →
        ZonesInside vol.nrClusters vol.mftLcn vol.clusterSize multiplier := by
  refine ⟨fun nrClusters mftLcn clusterSize hnr hlow hhigh hcluster _ => ⟨?_, ?_⟩, ?_⟩
  · rintro ⟨zones, hzones, -, -, -, hge, hlt, -⟩
    rw [ntfsSetupAllocators, if_neg (by omega), Option.map_eq_some_iff] at hzones
    obtain ⟨zoneEnd, hcap, rfl⟩ := hzones
    have hfits : multiplier = 3 → nrClusters + nrClusters / 2 < 2 ^ 63 := by
      rintro rfl
      by_contra! hover
      obtain ⟨hneg, hmin⟩ := mftZoneSize_neg ⟨by omega, hnr⟩ hover
      rw [capZone, s64_of_isS64 ⟨by omega, by omega⟩, if_neg (by omega)] at hcap
      cases hcap
      dsimp only at hge
      omega
    refine ⟨hfits, ?_⟩
    by_contra! hover
    obtain ⟨-, hle⟩ := mftZoneSize_bounds (by omega) hfits
    -- The end wraps around to a negative number, with which the loop is left at once.
    have hwrap : s64 (mftLcn + mftZoneSize nrClusters multiplier) =
        mftLcn + mftZoneSize nrClusters multiplier - 2 ^ 64 := by
      rw [s64, Int.bmod_def]
      omega
    rw [capZone, hwrap, if_neg (by omega)] at hcap
    cases hcap
    dsimp only at hge
    omega
  · exact zonesInside_of_noOverflow ⟨hlow, hhigh⟩ hnr (by omega)
  · intro machine b vol haccepts hparse hlow
    obtain ⟨⟨hpos, -⟩, -⟩ := sizes_of_isBootSector haccepts
    obtain ⟨hsector, -, -, -, -, -, -, -, -, ⟨hle, -⟩, hlt, -⟩ := parse_cases hparse
    have hnr := nrClusters_lt hparse (by omega)
    have hfits : multiplier = 3 → vol.nrClusters + vol.nrClusters / 2 < 2 ^ 63 := fun _ => by omega
    have hsize := mftZoneSize_bounds (by omega) hfits
    exact zonesInside_of_noOverflow ⟨hlow, hlt⟩ (by omega) (by omega) ⟨hfits, by omega⟩

/-- The zones of a volume of a hundred clusters with the mft near its end, and of a boot sector. -/
theorem zonesInside_hundred :
    ZonesInside 100 90 4096 1 ∧ ∃ vol, parseNtfsBootSector smallMachine (bootSector 512 4) =
      some vol ∧ ZonesInside vol.nrClusters vol.mftLcn vol.clusterSize 3 :=
  ⟨((zonesInside_iff 1).1 100 90 4096 (by decide) (by decide) (by decide) (by decide)
    (by decide)).mpr (by unfold NoOverflow; decide), _, rfl,
    (zonesInside_iff 3).2 smallMachine (bootSector 512 4) _ (by decide) rfl (by decide)⟩

/-- In a volume of 2^63 - 1 clusters, 37.5 percent overflow. The zone ends below zero. -/
theorem not_inside_overflow : ¬ ZonesInside (2 ^ 63 - 1) 0 4096 3 := by
  rintro ⟨zones, hzones, -, -, -, hge, -⟩
  cases hzones
  revert hge
  decide

end

end AdvancedOs.Ntfs.BootSector
