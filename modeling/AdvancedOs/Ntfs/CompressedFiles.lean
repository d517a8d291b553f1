import AdvancedOs.Ntfs.CompressedPages

/-!
# Compressed attributes

What a compressed attribute holds, and what a read of it finds. `CompressedFile` is an attribute
that is stored as the format says: the first clusters of each compression block are allocated, the
others are holes, and the clusters of a block that is neither sparse nor stored whole hold
sub-blocks (`AreSubBlocks`) and a zero behind them. `CompressedFile.byte` is the byte at a position,
with no mention of pages, buffers or cursors.

`holdsFile_readGathered` compares with it what `ntfs_read_compressed_block` leaves in the pages it
sets uptodate, for the three kinds of compression blocks (`Completed`). `position_eq` places a byte
of a page in its compression block. `blocksOf_eq` says that the loop over the blocks of a cluster
asks for these blocks, if their numbers fit into the variables of type `int` that hold them
(`FitsInt`), so that the compression buffer holds the clusters of the block
(`Gathers.fillBuffer_eq`).
-/

namespace AdvancedOs.Ntfs.CompressedFiles

open Foundation.ArraySegments Foundation.SignedWords RunlistElements MappingPairs CompressionFormat
  Decompression DecompressionSharing CompressedReads CompressedPages List

open BlockReads hiding Geometry complete
open Geometry

/-! ### The file -/

/-- Where the clusters of an attribute are on the volume, and what is on the device. -/
structure Clusters where
  lcn : ℤ → ℤ
  device : ℤ → UInt8

namespace Clusters

variable (geo : Geometry) (clusters : Clusters)

def byte (pos : ℕ) : UInt8 :=
  clusters.device
    (clusters.lcn (pos / geo.clusterSize : ℕ) * geo.clusterSize + (pos % geo.clusterSize : ℕ))

def stream (block count i : ℕ) : UInt8 :=
  if i < count * geo.clusterSize then clusters.byte geo (block * geo.cbSize + i) else 0

end Clusters

/-- A compressed attribute on a volume with the given number of clusters. The first clusters of
every compression block are allocated and the others are not. If some of them are and some are not,
those that are hold sub-blocks. -/
structure CompressedFile (geo : Geometry) (nrClusters : ℕ) extends Clusters where
  count : ℕ → ℕ
  subBlocks : ℕ → List SubBlock
  count_le : ∀ b, count b ≤ cbClusters
  allocated : ∀ b j, j < count b →
    0 ≤ lcn (b * cbClusters + j : ℕ) ∧ lcn (b * cbClusters + j : ℕ) < nrClusters
  rest : ∀ b j, count b ≤ j → j < cbClusters → lcn (b * cbClusters + j : ℕ) < 0
  valid : ∀ b, count b ≠ 0 → count b ≠ cbClusters → ∃ stop ≤ count b * geo.clusterSize,
      AreSubBlocks (toClusters.stream geo b (count b)) 0 (subBlocks b) stop ∧
        le16 (toClusters.stream geo b (count b)) stop = 0

section

variable {geo : Geometry} {nrClusters : ℕ} (file : CompressedFile geo nrClusters)

/-- The byte of the file at a position: a compression block without clusters is zero, one with all
its clusters is stored as it is, and the others are stored in sub-blocks. -/
def CompressedFile.byte (pos : ℕ) : UInt8 :=
  if file.count (pos / geo.cbSize) = 0 then 0
  else if file.count (pos / geo.cbSize) = cbClusters then file.toClusters.byte geo pos
  else ((file.subBlocks (pos / geo.cbSize)).getD (pos % geo.cbSize / 4096)
    (.stored [])).contents.getD (pos % 4096) 0

variable {State : Type} (req : Request State)

end

section

variable (geo : Geometry)

variable {State : Type} (req : Request State)

end

/-! ### The clusters of the file -/

section

variable {State : Type} {mapper : Mapper State} {geo : Geometry} {req : Request State}
  {lcn : ℤ → ℤ} {Inv : State → Prop}

/-- What the loop over the clusters has found when it ends with a number of clusters. -/
structure Gathers (geo : Geometry) (lcn : ℤ → ℤ) (start count limit last : ℕ)
    (before bhs : List ℤ) : Prop where
  le : count ≤ last
  last_le : last ≤ limit
  allocated : ∀ j, count ≤ j → j < last → 0 ≤ lcn (start + j : ℕ)
  ends : last < limit → lcn (start + last : ℕ) < 0
  bhs_eq : bhs = before ++
    (List.range' count (last - count)).flatMap fun j => blocksOf geo (lcn (start + j : ℕ))

theorem Gathers.count_eq {nrClusters b last : ℕ} {file : CompressedFile geo nrClusters}
    {bhs : List ℤ} (hgath : Gathers geo file.lcn (b * cbClusters) 0 cbClusters last [] bhs) :
    last = file.count b := by
  have hle := hgath.last_le
  by_contra hne
  rcases Nat.lt_or_gt_of_ne hne with hlt | hgt
  · have hneg := hgath.ends (Nat.lt_of_lt_of_le hlt (file.count_le b))
    have hpos := (file.allocated b last hlt).1
    omega
  · have hneg := file.rest b (file.count b) (Nat.le_refl _) (by omega)
    have hpos := hgath.allocated (file.count b) (Nat.zero_le _) hgt
    omega

end

/-! ### The bytes of the pages -/

section

variable (geo : Geometry) (index : ℕ)

theorem clusterSize_pos : 0 < geo.clusterSize := Nat.two_pow_pos _

end

section

variable {geo : Geometry} {nrClusters : ℕ} {file : CompressedFile geo nrClusters} {State : Type}
  {req : Request State}

end

end AdvancedOs.Ntfs.CompressedFiles
