import NextUfs.Lib.ByteStore
import NextUfs.Core.Image
import NextUfs.Core.Transaction
import NextUfs.Core.TransactionTheorems
import NextUfs.Mutate.Lifecycle
import NextUfs.Mutate.LifecycleTheorems
import NextUfs.Fsck.Device
import NextUfs.Fsck.DeviceTheorems
import NextUfs.Lib.Runs
import NextUfs.Lib.StateResult
import NextUfs.Core.Fs
import NextUfs.Core.Alloc
import NextUfs.Core.AllocTheorems
import NextUfs.Core.AllocRunTheorems
import NextUfs.Core.AllocChecked
import NextUfs.Core.AllocCheckedTheorems
import NextUfs.Core.BlockMap
import NextUfs.Lib.Extents
import NextUfs.Lib.BlockTree
import NextUfs.Core.StorageTheorems
import NextUfs.Core.BlockMapTheorems
import NextUfs.Core.FileMapTheorems
import NextUfs.Mutate.File
import NextUfs.Mutate.GrowTheorems
import NextUfs.Mutate.PruneTheorems
import NextUfs.Mutate.FileTheorems
import NextUfs.Core.Directory
import NextUfs.Core.DirectoryTheorems
import NextUfs.Mutate.Directory
import NextUfs.Mutate.DirectoryTheorems
import NextUfs.Lib.HostFile
import NextUfs.Core.Vdi
import NextUfs.Core.VdiTheorems
import NextUfs.Core.VdiRunTheorems
import NextUfs.Lib.Region
import NextUfs.Core.Layout
import NextUfs.Core.LayoutTheorems
import NextUfs.Core.GroupBlock
import NextUfs.Core.GroupBlockTheorems
import NextUfs.Core.FreeRunTheorems
import NextUfs.Core.BlockPathTheorems
import NextUfs.Core.LabelTheorems
import NextUfs.Core.LabelBytes
import NextUfs.Core.LabelBytesTheorems
import NextUfs.Fsck.DirScan
import NextUfs.Fsck.DirScanTheorems
import NextUfs.Fsck.SwapTheorems
import NextUfs.Core.Label
import NextUfs.Core.InodeAlloc
import NextUfs.Core.InodeAllocTheorems
import NextUfs.Commands.Resize
import NextUfs.Commands.ResizeTheorems
import NextUfs.Lib.NameSpace
import NextUfs.Core.Path
import NextUfs.Core.PathTheorems
import NextUfs.Lib.Utf8
import NextUfs.Lib.Json
import NextUfs.Core.Report
import NextUfs.Core.ReportTheorems
import NextUfs.Lib.Checked
import NextUfs.Mutate.DirectoryChecked
import NextUfs.Mutate.DirectoryCheckedTheorems
import NextUfs.Core.ReserveTheorems
import NextUfs.Mutate.ReserveRunTheorems
import NextUfs.Fsck.FragSupport
import NextUfs.Fsck.CgBlock
import NextUfs.Fsck.Pass5
import NextUfs.Fsck.RebuildTheorems
import NextUfs.Fsck.Pass5Theorems
import NextUfs.Fsck.InodeScan
import NextUfs.Fsck.Pass1
import NextUfs.Fsck.InodeScanTheorems
import NextUfs.Fsck.Pass1Theorems
import NextUfs.Core.FileStorage
import NextUfs.Mutate.FileStorageTheorems
import NextUfs.Mutate.Operations
import NextUfs.Mutate.FrameTheorems
import NextUfs.Mutate.EntryTheorems
import NextUfs.Mutate.LedgerTheorems
import NextUfs.Mutate.TurnTheorems
import NextUfs.Mutate.OperationTheorems
import NextUfs.Mutate.RunTheorems
import NextUfs.Mutate.CallTheorems
import NextUfs.Mutate.HandleTheorems
