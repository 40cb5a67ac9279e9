import FuseMdr.XorGroup
import FuseMdr.Loops
import FuseMdr.Machine
import FuseMdr.StripCode
import FuseMdr.NcfsState
import FuseMdr.StoreOps
import FuseMdr.MdrMatrix
import FuseMdr.MdrRepairSet
import FuseMdr.MdrRebuild
import FuseMdr.ArrayEncode
import FuseMdr.ArrayRun
import FuseMdr.MdrEncode
import FuseMdr.ElemHash
import FuseMdr.Evenodd
import FuseMdr.Rdp
import FuseMdr.BlockReuse
import FuseMdr.Residues
import FuseMdr.DiagonalCodes
import FuseMdr.LogField
import FuseMdr.PQCode
import FuseMdr.GfTables
import FuseMdr.Galois
import FuseMdr.Raid6Encode
import FuseMdr.Raid6Decode
import FuseMdr.Raid6Rebuild
import FuseMdr.Frontier
import FuseMdr.BlockAllocator
import FuseMdr.Raid6Alloc
import FuseMdr.Raid6NoRotate
import FuseMdr.LinearCode
import FuseMdr.Elimination
import FuseMdr.InvertMatrix
import FuseMdr.Vandermonde
import FuseMdr.Raid5
import FuseMdr.Triangle
import FuseMdr.MbrLayout
import FuseMdr.Jerasure
import FuseMdr.ReedSolomon
import FuseMdr.MbrEncode
import FuseMdr.MbrAlloc
import FuseMdr.MbrDecode
import FuseMdr.Staircase
import FuseMdr.SrcEncode
import FuseMdr.SrcDecode
import FuseMdr.PlainCodes
import FuseMdr.CodingLayer
import FuseMdr.Ownership
import FuseMdr.Capacity
import FuseMdr.IntFile
import FuseMdr.Metadata
import FuseMdr.SrcRange
import FuseMdr.FileSystem
import FuseMdr.FailedWrite
import FuseMdr.BlockTables
import FuseMdr.Reclaim
import FuseMdr.Unlink
import FuseMdr.ReadPath
import FuseMdr.LayerData
import FuseMdr.ReadRange
import FuseMdr.ReadYourWrites
import FuseMdr.MdrWidths
import FuseMdr.MdrDecode
import FuseMdr.MdrHistory
import FuseMdr.Dispatch
import FuseMdr.RepairScheduler
import FuseMdr.BlockStorage
import FuseMdr.DiagonalRebuild
import FuseMdr.DeviceEncode
import FuseMdr.MdrRecovery
import FuseMdr.DiskRecovery
import FuseMdr.MdrLookups
import FuseMdr.SpaceList
import FuseMdr.Raid6Tables
import FuseMdr.SchedulerWindow
import FuseMdr.SrcShortWrites
import FuseMdr.PartialReads
import FuseMdr.ShortReads
import FuseMdr.FlatArray
import FuseMdr.CacheBuffer
import FuseMdr.CacheTemplate
import FuseMdr.FileLength
import FuseMdr.DiagonalGeometry
import FuseMdr.BigBlocks
import FuseMdr.FaultTolerance
import FuseMdr.ErasureLibrary
import FuseMdr.OperationMode
import FuseMdr.Remap
import FuseMdr.RowSources
import FuseMdr.Migration
import FuseMdr.EncodedRuns
import FuseMdr.DegradedReads
import FuseMdr.RecoveryTool
import FuseMdr.ArrayRecovery
import FuseMdr.Lifetime
import FuseMdr.ThreadPool
import FuseMdr.PoolShutdown
