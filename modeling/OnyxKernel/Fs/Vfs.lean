import OnyxKernel.Fs.Operations
import OnyxKernel.Ipc.Channel
import OnyxKernel.Syscall.CopyOut

/-!
# The virtual file system

`kernel/src/fs/vfs`: the functions that open, use and close files by tokens.  A token names a slot of the
descriptor table of the current process together with the epoch of the slot, which changes with every
allocation.  Behind a descriptor is a file of OnyxFS, of FAT32, of `/proc` or of `/ipc`.

`procfs` and the FAT32 driver only read; what they answer is left open (`Drivers`).  The bytes that a
function copies to or from its caller are its result or an argument.
-/

namespace OnyxKernel

open Onyxfs

def permRead : ℕ := 1
def permWrite : ℕ := 2
def permSeek : ℕ := 4
def permExec : ℕ := 8

/-- The kernel with its file systems. -/
structure Vfs where
  kernel : Kernel
  ipc : Ipc
  onyx : Onyxfs.Fs
  /-- `G_ROOT_FS`. -/
  rootFs : VfsFs
  /-- `G_MOUNTS`. -/
  mounts : List (List UInt8 × VfsFs)

/-- The answers of `procfs` and of the FAT32 driver: inode numbers and sizes, and the bytes read. -/
structure Drivers where
  procLookup : List UInt8 → Except Errno ℕ
  procStat : ℕ → Except Errno ℕ
  procRead : Kernel → (ino off len : ℕ) → Except Errno (List UInt8)
  fatLookup : List UInt8 → Except Errno (ℕ × ℕ)
  fatRead : (cluster off len : ℕ) → Except Errno (List UInt8)

/-- A function of the virtual file system. -/
abbrev VfsM := KResult Vfs

namespace Kernel

variable (h : Hart) (k : Kernel)

/-- The epoch of the next allocation; 0 is left out. -/
def nextEpoch (epoch : ℕ) : ℕ := if (epoch + 1) % 2 ^ 32 = 0 then 1 else (epoch + 1) % 2 ^ 32

/-- The first slot that a process may use: 0 to 2 belong to the terminal. -/
def firstFd : ℕ := if k.currentPid h = 0 then 0 else 3

/-- The slot that `alloc_fd` takes. -/
def freeFd : Option (Fin vfsMaxFds) :=
  (List.finRange vfsMaxFds).find? fun i => decide (k.firstFd h ≤ i) && !(k.fdGet h i).used

def fdSet (idx : Fin vfsMaxFds) (ino size : ℕ) (fs : VfsFs) (pos : ℕ) : Kernel :=
  k.fdModify h idx fun fd => { fd with ino := ino, size := size, fs := fs, pos := pos }

def fdClear (idx : Fin vfsMaxFds) : Kernel := k.fdModify h idx fun fd => { fd with used := false }

/-- The slot `idx` after its allocation. -/
def fdTake (idx : Fin vfsMaxFds) (perms : ℕ) : Kernel :=
  k.fdModify h idx fun fd => { fd with used := true, perms := perms, epoch := nextEpoch fd.epoch }

end Kernel

namespace Vfs

open Onyxfs (slash)

variable (D : Drivers) (h : Hart)

/-- A call of an OnyxFS function. -/
def onOnyx {α : Type} (x : Onyxfs.FsM α) : VfsM α := fun v =>
  match x v.onyx with
  | .ok a s => .ok a { v with onyx := s }
  | .error e s => .error e { v with onyx := s }

/-- A result that does not change the state. -/
def answer {α : Type} : Except Errno α → VfsM α
  | .ok a => pure a
  | .error e => throw e

/-- Change the kernel. -/
def onKernel (f : Kernel → Kernel) : VfsM Unit := modify fun v => { v with kernel := f v.kernel }

/-- The test of `resolve_mount` for one mount: the path below it. -/
def below (path mountPath : List UInt8) : Option (List UInt8) :=
  if path = mountPath then some []
  else if mountPath.isPrefixOf path && (path.drop mountPath.length).head? == some slash then
    some (path.drop (mountPath.length + 1))
  else none

/-- `resolve_mount`: the file system of a path, and the path in it. -/
def resolveMount (v : Vfs) (path : List UInt8) : VfsFs × List UInt8 :=
  (v.mounts.findSome? fun m => if m.2 = .none then none else (below path m.1).map fun sub => (m.2, sub)).getD
    (v.rootFs, path)

/-! ### Slots -/

def allocFd (perms : ℕ) : VfsM (Fin vfsMaxFds) := do
  match (← get).kernel.freeFd h with
  | none => throw .noMem
  | some idx =>
    onKernel fun k => k.fdTake h idx perms
    return idx

def fdCheck (token : ℕ) : VfsM (Fin vfsMaxFds) := do answer ((← get).kernel.fdCheck h token)

def fdCheckPerm (token perm : ℕ) : VfsM (Fin vfsMaxFds) := do
  let idx ← fdCheck h token
  if ((← get).kernel.fdGet h idx).perms &&& perm = 0 then throw .perm else return idx

def fdGet (idx : Fin vfsMaxFds) : VfsM VfsFd := do return (← get).kernel.fdGet h idx

/-- The token of a slot. -/
def tokenOf (idx : Fin vfsMaxFds) : VfsM ℕ := do
  return Kernel.fdToken idx (← fdGet h idx).epoch

/-! ### Opening and closing -/

/-- `ipcfs::lookup`: the calling process becomes a client of the channel. -/
def ipcLookup (name : List UInt8) : VfsM ℕ := do
  if name = [] ∨ name = [0x2E] then return onyfsRootIno
  else
    let v ← get
    let (res, ipc) := v.ipc.openByName name (v.kernel.currentPid h)
    modify fun v => { v with ipc := ipc }
    let id ← answer res
    return id + 2

/-- `ipcfs::stat`: the size. -/
def ipcStat (ino : ℕ) : Except Errno ℕ :=
  if ino = onyfsRootIno then .ok 0
  else if ino < 2 then .error .noEnt
  else if 32 ≤ ino - 2 then .error .noEnt
  else .ok 4096

/-- The part of `open` that finds the file: its file system, inode and size. -/
def findFile (name : List UInt8) : VfsM (VfsFs × ℕ × ℕ) := do
  let v ← get
  match v.resolveMount name with
  | (.proc, subpath) =>
    let ino ← answer (D.procLookup subpath)
    let size ← answer (D.procStat ino)
    return (.proc, ino, size)
  | (.ipc, subpath) =>
    let ino ← ipcLookup h subpath
    let size ← answer (ipcStat ino)
    return (.ipc, ino, size)
  | (fs, _) =>
    match v.rootFs with
    | .onyx =>
      let st ← onOnyx (lookup name)
      return (fs, st.ino, min st.size (2 ^ 32 - 1))
    | .fat32 =>
      let (cluster, size) ← answer (D.fatLookup name)
      return (fs, cluster, size)
    | _ => throw .inval

/-- `open`. -/
def openFile (path : List UInt8) (perms : ℕ) : VfsM ℕ := do
  if path.head? ≠ some slash then throw .inval
  else
    let idx ← allocFd h perms
    let (fs, ino, size) ← findFile D h path.tail
    onKernel fun k => k.fdSet h idx ino size fs 0
    tokenOf h idx

def close (token : ℕ) : VfsM Unit := do
  let idx ← fdCheck h token
  onKernel fun k => k.fdClear h idx

/-- The directory and the name in it of the path of a new file. -/
def newEntry (path : List UInt8) : VfsM (ℕ × List UInt8) := do
  if path.head? ≠ some slash then throw .inval
  else if ((← get).resolveMount path.tail).1 = .proc then throw .perm
  else
    let (parentPath, filename) := splitPath path.tail
    if filename = [] then throw .inval
    else
      let parentIno ← onOnyx (parentIno parentPath)
      return (parentIno, filename)

/-- `create`.  The descriptor is filled in the table of the current process. -/
def create (path : List UInt8) (mode : ℕ) : VfsM ℕ := do
  let (parentIno, filename) ← newEntry path
  let newIno ← onOnyx (Onyxfs.create parentIno filename mode)
  let idx ← allocFd h (permRead ||| permWrite ||| permSeek)
  onKernel fun k => k.modifyCurrent h fun p =>
    let fd := { p.fds idx with ino := newIno, size := 0, fs := .onyx, pos := 0 }
    { p with fds := Function.update p.fds idx fd }
  return Kernel.fdToken idx (((← get).kernel.current h).fds idx).epoch

def mkdir (path : List UInt8) : VfsM Unit := do
  let (parentIno, dirname) ← newEntry path
  let _ ← onOnyx (Onyxfs.mkdir parentIno dirname)

def unlink (path : List UInt8) : VfsM Unit := do
  if path.head? ≠ some slash then throw .inval
  else if ((← get).resolveMount path.tail).1 ≠ .onyx then throw .noSys
  else onOnyx (Onyxfs.unlink path)

def rename (oldPath newPath : List UInt8) : VfsM Unit := onOnyx (Onyxfs.rename oldPath newPath)

/-! ### Copies of descriptors -/

def dup (token : ℕ) : VfsM ℕ := do
  let idx ← fdCheck h token
  let fd ← fdGet h idx
  let newIdx ← allocFd h fd.perms
  onKernel fun k => k.fdSet h newIdx fd.ino fd.size fd.fs fd.pos
  tokenOf h newIdx

def createPipe : VfsM (ℕ × ℕ) := do
  let rIdx ← allocFd h permRead
  let wIdx ← allocFd h permWrite
  let pipeIno := 2 ^ 32 - 1
  onKernel fun k => k.fdSet h rIdx pipeIno 0 .ipc 0
  onKernel fun k => k.fdSet h wIdx pipeIno 0 .ipc 0
  return (← tokenOf h rIdx, ← tokenOf h wIdx)

/-! ### Reading and writing -/

/-- The result of a call of the channels, which does not wait here. -/
def onIpc {α : Type} (f : Ipc → Kernel → Flow (Except Errno α) × Ipc) : VfsM α := fun v =>
  let (flow, ipc) := f v.ipc v.kernel
  let v := { v with kernel := flow.kernel, ipc := ipc }
  match flow with
  | .ret (.ok a) _ => .ok a v
  | .ret (.error e) _ => .error e v
  | _ => .error .busy v

/-- The bytes that `read` gets from the file system. -/
def readBytes (fd : VfsFd) (toRead : ℕ) : VfsM (List UInt8) :=
  match fd.fs with
  | .onyx => do return (← onOnyx (read fd.ino fd.pos toRead)).2
  | .fat32 => answer (D.fatRead fd.ino fd.pos toRead)
  | .proc => do answer (D.procRead (← get).kernel fd.ino fd.pos toRead)
  | .ipc =>
    if fd.ino < 2 then throw .inval else onIpc fun ipc k => ipc.recv h k (fd.ino - 2) toRead none
  | .none => throw .inval

/-- `read`: the bytes. -/
def read (token len : ℕ) : VfsM (List UInt8) := do
  let idx ← fdCheckPerm h token permRead
  let fd ← fdGet h idx
  let toRead := min len (fd.size - fd.pos)
  if toRead = 0 then return []
  else
    let bytes ← readBytes D h fd toRead
    onKernel fun k => k.fdUpdatePos h idx ((fd.pos + bytes.length) % 2 ^ 32)
    return bytes

/-- The number of bytes that the file system takes from `write`. -/
def writeBytes (fd : VfsFd) (data : List UInt8) : VfsM ℕ :=
  match fd.fs with
  | .onyx => onOnyx (write fd.ino data fd.pos)
  | .proc => throw .perm
  | .ipc =>
    if fd.ino < 2 then throw .inval else onIpc fun ipc k => ipc.send h k (fd.ino - 2) data none
  | _ => throw .noSys

/-- `write`: the number of bytes. -/
def write (token : ℕ) (data : List UInt8) : VfsM ℕ := do
  let idx ← fdCheckPerm h token permWrite
  let fd ← fdGet h idx
  let written ← writeBytes h fd data
  let newPos := (fd.pos + written) % 2 ^ 32
  onKernel fun k => k.fdUpdatePos h idx newPos
  if fd.size < newPos then onKernel fun k => k.fdModify h idx fun fd => { fd with size := newPos }
  return written

/-- `stat`: the size. -/
def stat (token : ℕ) : VfsM ℕ := do
  let idx ← fdCheck h token
  return (← fdGet h idx).size

def lseek (token : ℕ) (off : ℤ) (whence : ℕ) : VfsM ℕ := do
  let idx ← fdCheckPerm h token permSeek
  let fd ← fdGet h idx
  let newPos ← match whence with
    | 0 => pure off
    | 1 => pure (fd.pos + off)
    | 2 => pure (fd.size + off)
    | _ => throw .inval
  if newPos < 0 ∨ fd.size < newPos then throw .range
  else
    onKernel fun k => k.fdUpdatePos h idx newPos.toNat
    return newPos.toNat

def truncate (token : ℕ) : VfsM Unit := do
  let idx ← fdCheck h token
  let fd ← fdGet h idx
  onOnyx (Onyxfs.truncate fd.ino)

/-- `sys_getdents64`.  The entries, and the block that is left in the buffer of OnyxFS, are left open. -/
def getdents64 (readdir : Kernel.Readdir) (b : Block) (token buf count : ℕ) : VfsM ℤ := fun v =>
  let (res, k) := v.kernel.sysGetdents64 readdir h token buf count
  .ok res { v with kernel := k, onyx := v.onyx.withBuf b }

/-- `sys_ftruncate`: a length other than 0 is accepted and ignored. -/
def ftruncate (token length : ℕ) : VfsM Unit := if length = 0 then truncate h token else pure ()

end Vfs

end OnyxKernel
