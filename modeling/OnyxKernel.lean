import OnyxKernel.Mm.PmmRun
import OnyxKernel.Mm.SlabRun
import OnyxKernel.Mm.HeapRun
import OnyxKernel.Proc.QueueLinks
import OnyxKernel.Ipc.WaitExact
import OnyxKernel.Proc.Dangling
import OnyxKernel.Proc.Affinity
import OnyxKernel.Proc.MutualExclusion
import OnyxKernel.Fs.Permissions
import OnyxKernel.Fs.Rename
import OnyxKernel.Syscall.FailedCalls
import OnyxKernel.Syscall.Memory
import OnyxKernel.Tools.Elf2onxSpec
import OnyxKernel.Arch.HartId
import OnyxKernel.Syscall.SignalMask
import OnyxKernel.Srv.Frames
import OnyxKernel.Proc.Orphans
import OnyxKernel.Syscall.Pids
import OnyxKernel.Tools.MkimageTree
import OnyxKernel.Fs.SnapshotArea
import OnyxKernel.Ipc.Isolation
import OnyxKernel.Net.Tcp
import OnyxKernel.Syscall.NetSys
import OnyxKernel.Init.Passwd
import OnyxKernel.Init.Sha256
import OnyxKernel.Core.Parsers
import OnyxKernel.Fs.Fat32
import OnyxKernel.Core.String
import OnyxKernel.Drivers.Entropy
