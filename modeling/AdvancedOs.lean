import AdvancedOs.Ntfs.MappingPairsParts
import AdvancedOs.Ntfs.RunlistTruncation
import AdvancedOs.Ntfs.RunlistPunching
import AdvancedOs.Ntfs.IndexLookup
import AdvancedOs.Ntfs.DirectoryTermination
import AdvancedOs.Ntfs.AttributeListSearch
import AdvancedOs.Ntfs.AttributeListExtents
import AdvancedOs.Ntfs.AttributeListLoading
import AdvancedOs.Ntfs.SharedTables
import AdvancedOs.Ntfs.NlsReferences
import AdvancedOs.Heap.AlignedMalloc
import AdvancedOs.Lottery.DoubleLock
import AdvancedOs.Debugger.BreakpointController
import AdvancedOs.Ntfs.MappingPairsSize
import AdvancedOs.Ntfs.MultiSectorBounds
import AdvancedOs.Ntfs.PageReads
import AdvancedOs.Ntfs.RunlistMergeBounds
import AdvancedOs.Ntfs.CompressedRelease
import AdvancedOs.Ntfs.CompressedContents
import AdvancedOs.Ntfs.AttributeFilling
import AdvancedOs.Ntfs.Timestamps
import AdvancedOs.Ntfs.FreeClusters
import AdvancedOs.Ntfs.ExtentInodes
import AdvancedOs.Ntfs.VcnSearch
import AdvancedOs.Ntfs.MftRecordPages
import AdvancedOs.Ntfs.InitializedSizes
import AdvancedOs.Ntfs.NameConversion
import AdvancedOs.Lottery.PercpuQueues
import AdvancedOs.Lottery.SignalControl
import AdvancedOs.Cache.Shuffle
import AdvancedOs.Ntfs.BootSector
