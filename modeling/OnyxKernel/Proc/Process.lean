import OnyxKernel.Mm.Pmm

/-!
# Processes

The process records of `kernel/src/proc/process` and the global state of the kernel around them: the
list of all processes, the current process of every hart, the run queues, and the memory manager
below.  A process is named by the address of its record; `G_ALL_PROCS` is the list of these
addresses, newest first, and `proc` gives the record at an address.
-/

namespace OnyxKernel

open Function

/-- The number of harts. -/
abbrev maxHarts : ℕ := 8

instance : NeZero maxHarts := ⟨by decide⟩

/-- A hart. -/
abbrev Hart := Fin maxHarts

/-- The number of file descriptors of a process (`VFS_MAX_FDS`). -/
abbrev vfsMaxFds : ℕ := 16

instance : NeZero vfsMaxFds := ⟨by decide⟩

/-- The number of signals. -/
abbrev nsig : ℕ := 32

def procRingKernel : UInt8 := 0
def procRingRoot : UInt8 := 1
def procRingUser : UInt8 := 2

/-- The pid of the first process. -/
def procPidInit : ℕ := 1

inductive ProcState where
  | free | ready | running | exited | waiting
  deriving DecidableEq, Repr

/-- `TrapFrame`: the registers of an interrupted context, in the order of the source. -/
structure TrapFrame where
  ra : ℕ := 0
  sp : ℕ := 0
  gp : ℕ := 0
  tp : ℕ := 0
  t0 : ℕ := 0
  t1 : ℕ := 0
  t2 : ℕ := 0
  s0 : ℕ := 0
  s1 : ℕ := 0
  a0 : ℕ := 0
  a1 : ℕ := 0
  a2 : ℕ := 0
  a3 : ℕ := 0
  a4 : ℕ := 0
  a5 : ℕ := 0
  a6 : ℕ := 0
  a7 : ℕ := 0
  s2 : ℕ := 0
  s3 : ℕ := 0
  s4 : ℕ := 0
  s5 : ℕ := 0
  s6 : ℕ := 0
  s7 : ℕ := 0
  s8 : ℕ := 0
  s9 : ℕ := 0
  s10 : ℕ := 0
  s11 : ℕ := 0
  t3 : ℕ := 0
  t4 : ℕ := 0
  t5 : ℕ := 0
  t6 : ℕ := 0
  sepc : ℕ := 0
  sstatus : ℕ := 0
  scause : ℕ := 0
  stval : ℕ := 0
  satp : ℕ := 0
  deriving DecidableEq, Repr

/-- The file system behind a descriptor. -/
inductive VfsFs where
  | none | onyx | fat32 | proc | ipc
  deriving DecidableEq, Repr

/-- `VfsFd`: an open file. -/
structure VfsFd where
  ino : ℕ := 0
  size : ℕ := 0
  pos : ℕ := 0
  fs : VfsFs := .none
  used : Bool := false
  perms : ℕ := 0
  epoch : ℕ := 0
  deriving DecidableEq, Repr

/-- `Proc`: the record of a process.  An affinity of -1 is `none`. -/
structure Proc where
  pid : ℕ := 0
  ring : UInt8 := procRingKernel
  state : ProcState := .free
  parentPid : ℕ := 0
  exitCode : ℤ := 0
  rootPa : ℕ := 0
  entry : ℕ := 0
  ustack : ℕ := 0
  heapBrk : ℕ := 0
  mmapBrk : ℕ := 0x30000000
  uid : ℕ := 0
  gid : ℕ := 0
  tf : TrapFrame := {}
  pendingSignals : BitVec 32 := 0
  signalMask : BitVec 32 := 0
  signalHandlers : Fin nsig → ℕ := fun _ => 0
  savedTf : TrapFrame := {}
  inSignalHandler : Bool := false
  fds : Fin vfsMaxFds → VfsFd := fun _ => {}
  affinity : Option Hart := none
  onRq : Bool := false

/-- The kernel: the memory manager, the processes, the scheduler and the clock.  `copied` is not
part of the kernel: it records the bytes stored through translated user pointers, each with the
virtual and the physical address, and nothing reads it. -/
structure Kernel where
  mm : Mm
  allProcs : List ℕ
  proc : ℕ → Proc
  hartCurrent : Hart → Option ℕ
  needResched : Hart → Bool
  runQueue : Hart → List ℕ
  rqLocked : Hart → Bool
  idleTf : Hart → TrapFrame
  nextPid : ℕ
  kernelFds : Fin vfsMaxFds → VfsFd
  upticks : ℕ
  copied : List (ℕ × ℕ)

namespace Kernel

variable (k : Kernel)

/-- Change the record at `p`. -/
def modifyProc (p : ℕ) (f : Proc → Proc) : Kernel :=
  { k with proc := update k.proc p (f (k.proc p)) }

/-- `current`: the record of the current process of a hart.  The kernel only asks for it while a
process is current; the null pointer is read as the record at 0. -/
def current (h : Hart) : Proc := k.proc ((k.hartCurrent h).getD 0)

/-- Change the record of the current process. -/
def modifyCurrent (h : Hart) (f : Proc → Proc) : Kernel :=
  k.modifyProc ((k.hartCurrent h).getD 0) f

/-- `current_pid`: the pid of the current process while it is running, otherwise 0. -/
def currentPid (h : Hart) : ℕ :=
  match k.hartCurrent h with
  | none => 0
  | some p => if (k.proc p).state = .running then (k.proc p).pid else 0

/-- `current_ring`: the ring of the current process. -/
def currentRing (h : Hart) : UInt8 :=
  match k.hartCurrent h with
  | none => procRingKernel
  | some p => (k.proc p).ring

/-- `by_pid`: the first process in the list with this pid. -/
def byPid (pid : ℕ) : Option ℕ :=
  k.allProcs.find? fun p => (k.proc p).pid == pid && (k.proc p).state != .free

/-- `uptime_us`: the time since boot. -/
def uptimeUs : UInt64 := UInt64.ofNat (k.upticks * 10000)

/-- `alloc_pid`: the next pid and the state after it has been taken. -/
def allocPid : ℕ × Kernel := (k.nextPid, { k with nextPid := (k.nextPid + 1) % 2 ^ 32 })

/-! ### File descriptors -/

/-- `fd_get`: the descriptor table is the kernel's own until a process runs. -/
def fdGet (h : Hart) (idx : Fin vfsMaxFds) : VfsFd :=
  if k.currentPid h = 0 then k.kernelFds idx else (k.current h).fds idx

/-- Change descriptor `idx` of the table that `fd_get` reads. -/
def fdModify (h : Hart) (idx : Fin vfsMaxFds) (f : VfsFd → VfsFd) : Kernel :=
  if k.currentPid h = 0 then
    { k with kernelFds := update k.kernelFds idx (f (k.kernelFds idx)) }
  else
    k.modifyCurrent h fun p => { p with fds := update p.fds idx (f (p.fds idx)) }

/-- `fd_token`: a token is the index of the descriptor with its epoch. -/
def fdToken (idx : Fin vfsMaxFds) (epoch : ℕ) : ℕ := idx * 2 ^ 32 + epoch

/-- `fd_check`: the index of an open descriptor whose epoch is the one of the token. -/
def fdCheck (h : Hart) (token : ℕ) : Except Errno (Fin vfsMaxFds) :=
  if hidx : token / 2 ^ 32 < vfsMaxFds then
    let fd := k.fdGet h ⟨token / 2 ^ 32, hidx⟩
    if !fd.used || fd.epoch != token % 2 ^ 32 then .error .badFd else .ok ⟨token / 2 ^ 32, hidx⟩
  else .error .badFd

def fdUpdatePos (h : Hart) (idx : Fin vfsMaxFds) (pos : ℕ) : Kernel :=
  k.fdModify h idx fun fd => { fd with pos := pos }

/-- `vfs::close`, with the error ignored. -/
def close (h : Hart) (token : ℕ) : Kernel :=
  match k.fdCheck h token with
  | .ok idx => k.fdModify h idx fun fd => { fd with used := false }
  | .error _ => k

end Kernel

end OnyxKernel
