import MiniFs.Fs.Addresses
import MiniFs.Fs.AllocSize
import MiniFs.Fs.Api
import MiniFs.Fs.CallEffects
import MiniFs.Fs.Conservation
import MiniFs.Fs.Corruption
import MiniFs.Fs.CreateOutcome
import MiniFs.Fs.Dir
import MiniFs.Fs.DirectoryMap
import MiniFs.Fs.Effects
import MiniFs.Fs.Extents
import MiniFs.Fs.Faults
import MiniFs.Fs.File
import MiniFs.Fs.FileCalls
import MiniFs.Fs.FileStore
import MiniFs.Fs.FixedMetadata
import MiniFs.Fs.InodeAlloc
import MiniFs.Fs.Invariant
import MiniFs.Fs.Isolation
import MiniFs.Fs.NameCalls
import MiniFs.Fs.Namespace
import MiniFs.Fs.Offsets
import MiniFs.Fs.OneHandle
import MiniFs.Fs.Overlap
import MiniFs.Fs.Ownership
import MiniFs.Fs.Placed
import MiniFs.Fs.ReadAfterWrite
import MiniFs.Fs.Requests
import MiniFs.Fs.RootDelete
import MiniFs.Fs.Rounds
import MiniFs.Fs.Scan
import MiniFs.Fs.Solid
import MiniFs.Fs.Windows
import MiniFs.Fs.WriteLoop
import MiniFs.Io.Backends
import MiniFs.Io.DmaPool
import MiniFs.Lib.ByteString
import MiniFs.Lib.Chain
import MiniFs.Lib.Counting
import MiniFs.Lib.LoggedMap
import MiniFs.Lib.Packed
import MiniFs.Lib.Prog
import MiniFs.Lib.RunSearch
import MiniFs.Lib.SortedMap
import MiniFs.Lib.Tiling
import MiniFs.Lib.Transfer
import MiniFs.Lib.WriteCache
import MiniFs.Nebula.AllocRuns
import MiniFs.Nebula.AllocSpec
import MiniFs.Nebula.Bitmap
import MiniFs.Nebula.BlockAlloc
import MiniFs.Nebula.Checksums
import MiniFs.Nebula.Format
import MiniFs.Nebula.FreshMount
import MiniFs.Nebula.Io
import MiniFs.Nebula.Layout
import MiniFs.Nebula.Mkfs
import MiniFs.Nebula.Mount
import MiniFs.Nebula.Partition
import MiniFs.Nebula.RootSubAlloc
import MiniFs.Nebula.Summaries
import MiniFs.ObjStore.AppendLog
import MiniFs.ObjStore.AppendOnly
import MiniFs.ObjStore.Bindings
import MiniFs.ObjStore.Calls
import MiniFs.ObjStore.Chunk
import MiniFs.ObjStore.ChunkOwners
import MiniFs.ObjStore.ChunkRange
import MiniFs.ObjStore.Common
import MiniFs.ObjStore.Discipline
import MiniFs.ObjStore.DurableData
import MiniFs.ObjStore.ExtentScan
import MiniFs.ObjStore.FirstWrite
import MiniFs.ObjStore.Geometry
import MiniFs.ObjStore.IdReuse
import MiniFs.ObjStore.Keys
import MiniFs.ObjStore.Ledger
import MiniFs.ObjStore.Media
import MiniFs.ObjStore.Metadata
import MiniFs.ObjStore.ObjectStore
import MiniFs.ObjStore.Open
import MiniFs.ObjStore.OpenChunk
import MiniFs.ObjStore.Paths
import MiniFs.ObjStore.PlainSlice
import MiniFs.ObjStore.ReadBack
import MiniFs.ObjStore.Records
import MiniFs.ObjStore.Reserve
import MiniFs.ObjStore.ReserveCost
import MiniFs.ObjStore.Session
import MiniFs.ObjStore.Wire
import MiniFs.ObjStore.WriteCall
import MiniFs.Rocksdb.FileSystem
import MiniFs.Rocksdb.FlatStore
import MiniFs.Rocksdb.Refinement
import MiniFs.Rocksdb.SequentialFile
import MiniFs.Tools.Fsck
import MiniFs.Tools.Label
import MiniFs.Tools.Uuid
import MiniFs.Util.Crc32c
import MiniFs.Util.Crc32cErrors
import MiniFs.Util.Crc32cSpec
