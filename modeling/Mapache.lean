import Mapache.Lib.Run
import Mapache.Common
import Mapache.Lock.Basic
import Mapache.Lock.Handle
import Mapache.Lock.Acquire
import Mapache.Commands.LockScope
import Mapache.Repository.Packer
import Mapache.Utils.Collections
import Mapache.Repository.Index
import Mapache.Repository.IndexFile
import Mapache.Lib.ModifyFirst
import Mapache.Repository.MasterIndex
import Mapache.Repository.Backend
import Mapache.Repository.PackSaver
import Mapache.Repository.PackSaverSound
import Mapache.Repository.PackSaverFlush
import Mapache.Repository.SaveBlob
import Mapache.Repository.BlobTypes
import Mapache.Archiver.TreeSerializer
import Mapache.Archiver.Snapshot
import Mapache.Commands.Snapshot
import Mapache.Commands.RebuildIndex
import Mapache.Repository.GcScan
import Mapache.Repository.Loader
import Mapache.Repository.GcExecute
import Mapache.Repository.PackSaverFiles
import Mapache.Repository.Contains
import Mapache.Commands.RebuildAlone
import Mapache.Archiver.Processor
import Mapache.Commands.SortedTrees
import Mapache.Fs.Intermediate
import Mapache.Archiver.SourceStream
import Mapache.Archiver.TreeOrder
import Mapache.Fs.Walk
import Mapache.Archiver.Sources
import Mapache.Repository.GcInvariant
import Mapache.Repository.GcSafety
import Mapache.Commands.BackupAfterGc
import Mapache.Repository.GcRepair
import Mapache.Archiver.FileSize
import Mapache.Lib.Patch
import Mapache.Restorer.HandleCache
import Mapache.Restorer.PackRestorer
import Mapache.Restorer.Planner
import Mapache.Restorer.Restore
import Mapache.Chunker.GearCut
import Mapache.Fs.Diff
import Mapache.Lib.ActOnce
import Mapache.Repository.Dedup
import Mapache.Lib.Search
import Mapache.Repository.VerifyRefs
import Mapache.Repository.VerifyPack
import Mapache.Backend.Files
import Mapache.Commands.Sync
import Mapache.Commands.Copy
import Mapache.Commands.SyncStops
import Mapache.Fs.Names
import Mapache.Restorer.Delete
import Mapache.Restorer.LocalFs
import Mapache.Restorer.Run
import Mapache.Restorer.Strategies
import Mapache.Backend.LocalWrite
import Mapache.Backend.Cache
import Mapache.Backend.CacheRemoved
import Mapache.Repository.Keys
import Mapache.Bundle.Format
import Mapache.Bundle.Writer
import Mapache.Bundle.Reader
import Mapache.Archiver.Unreadable
import Mapache.Archiver.DepthFirst
import Mapache.Commands.Rewrite
import Mapache.Commands.Amend
import Mapache.Commands.Rechunk
import Mapache.Commands.RewriteAgain
import Mapache.Lib.Calendar
import Mapache.Repository.Retention
import Mapache.Mount.Cache
import Mapache.Mount.Stash
import Mapache.Mount.Fs
import Mapache.Mount.ReadFile
import Mapache.Mount.View
import Mapache.Mount.Load
import Mapache.Mount.Init
import Mapache.Mount.Session
import Mapache.Fs.Normalize
import Mapache.Commands.Extract
import Mapache.Commands.Clean
import Mapache.Repository.RepackChunks
import Mapache.Commands.ExtractRun
import Mapache.Fs.Times
import Mapache.Repository.PackSaverBounded
import Mapache.Commands.Verify
import Mapache.Fs.Glob
import Mapache.Fs.Filter
import Mapache.Commands.IncludePaths
import Mapache.Lib.Months
import Mapache.Repository.RetentionCounts
import Mapache.Bundle.Decode
import Mapache.Bundle.Retry
import Mapache.Repository.PackStats
import Mapache.Repository.SearchPrefix
import Mapache.Archiver.NodeStream
import Mapache.Backend.Limiter
import Mapache.Commands.Merge
import Mapache.Repository.LoadBatch
import Mapache.Repository.StorageBuffers
import Mapache.Restorer.HardLinks
import Mapache.Fs.AbsolutePath
import Mapache.Fs.Counts
import Mapache.Fs.NodePolls
import Mapache.Lib.CachedLoad
import Mapache.Mount.CacheTasks
import Mapache.Utils.DurationString
import Mapache.Utils.SecureJoin
import Mapache.Backend.Listing
import Mapache.Repository.FileListing
import Mapache.Repository.FindFile
import Mapache.Repository.Init
import Mapache.Commands.Forget
import Mapache.Commands.Stats
import Mapache.Lib.UpdateOrder
import Mapache.Restorer.Metadata
