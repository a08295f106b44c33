import OnyxKernel.Syscall.Process

/-!
# The system call handler

`kernel/src/syscall/handler.rs`: the numbers of the system calls, the access check by ring, and the
dispatch.  The calls on files, channels, the network and the heap of a process are not part of this
development; the dispatch is given what such a call does.
-/

namespace OnyxKernel

/-! ### Numbers -/

namespace Sys

@[match_pattern] abbrev write : ℕ := 1
@[match_pattern] abbrev read : ℕ := 2
@[match_pattern] abbrev exit : ℕ := 3
@[match_pattern] abbrev yield : ℕ := 4
@[match_pattern] abbrev getpid : ℕ := 5
@[match_pattern] abbrev brk : ℕ := 6
@[match_pattern] abbrev mmap : ℕ := 7
@[match_pattern] abbrev «open» : ℕ := 8
@[match_pattern] abbrev close : ℕ := 9
@[match_pattern] abbrev lseek : ℕ := 10
@[match_pattern] abbrev stat : ℕ := 11
@[match_pattern] abbrev exec : ℕ := 12
@[match_pattern] abbrev sbrk : ℕ := 13
@[match_pattern] abbrev spawn : ℕ := 14
@[match_pattern] abbrev wait : ℕ := 15
@[match_pattern] abbrev readdir : ℕ := 16
@[match_pattern] abbrev getring : ℕ := 17
@[match_pattern] abbrev dropring : ℕ := 18
@[match_pattern] abbrev snapshotCreate : ℕ := 19
@[match_pattern] abbrev snapshotRollback : ℕ := 20
@[match_pattern] abbrev snapshotList : ℕ := 21
@[match_pattern] abbrev kill : ℕ := 22
@[match_pattern] abbrev sigmask : ℕ := 23
@[match_pattern] abbrev writeFd : ℕ := 24
@[match_pattern] abbrev create : ℕ := 25
@[match_pattern] abbrev mkdir : ℕ := 26
@[match_pattern] abbrev chanCreate : ℕ := 27
@[match_pattern] abbrev chanConnect : ℕ := 28
@[match_pattern] abbrev chanSend : ℕ := 29
@[match_pattern] abbrev chanRecv : ℕ := 30
@[match_pattern] abbrev chanClose : ℕ := 31
@[match_pattern] abbrev chanCreateNamed : ℕ := 32
@[match_pattern] abbrev chanOpen : ℕ := 33
@[match_pattern] abbrev munmap : ℕ := 34
@[match_pattern] abbrev dup : ℕ := 35
@[match_pattern] abbrev pipe : ℕ := 36
@[match_pattern] abbrev unlink : ℕ := 37
@[match_pattern] abbrev rename : ℕ := 38
@[match_pattern] abbrev chdir : ℕ := 39
@[match_pattern] abbrev getcwd : ℕ := 40
@[match_pattern] abbrev truncate : ℕ := 41
@[match_pattern] abbrev access : ℕ := 42
@[match_pattern] abbrev gettimeofday : ℕ := 43
@[match_pattern] abbrev fcntl : ℕ := 44
@[match_pattern] abbrev getuid : ℕ := 45
@[match_pattern] abbrev getgid : ℕ := 46
@[match_pattern] abbrev utimens : ℕ := 47
@[match_pattern] abbrev uname : ℕ := 48
@[match_pattern] abbrev nanosleep : ℕ := 49
@[match_pattern] abbrev fstat : ℕ := 50
@[match_pattern] abbrev waitpid : ℕ := 51
@[match_pattern] abbrev getdents64 : ℕ := 52
@[match_pattern] abbrev ioctl : ℕ := 53
@[match_pattern] abbrev mprotect : ℕ := 54
@[match_pattern] abbrev sigaction : ℕ := 55
@[match_pattern] abbrev sigprocmask : ℕ := 56
@[match_pattern] abbrev sigreturn : ℕ := 57
@[match_pattern] abbrev execve : ℕ := 58
@[match_pattern] abbrev getppid : ℕ := 59
@[match_pattern] abbrev setpgid : ℕ := 60
@[match_pattern] abbrev setsid : ℕ := 61
@[match_pattern] abbrev getpgid : ℕ := 62
@[match_pattern] abbrev fork : ℕ := 63
@[match_pattern] abbrev clockGettime : ℕ := 64
@[match_pattern] abbrev clockGetres : ℕ := 65
@[match_pattern] abbrev isatty : ℕ := 66
@[match_pattern] abbrev getentropy : ℕ := 67
@[match_pattern] abbrev setuid : ℕ := 68
@[match_pattern] abbrev setgid : ℕ := 69
@[match_pattern] abbrev fsync : ℕ := 70
@[match_pattern] abbrev truncate2 : ℕ := 71
@[match_pattern] abbrev ftruncate : ℕ := 72
@[match_pattern] abbrev readlink : ℕ := 73
@[match_pattern] abbrev symlink : ℕ := 74
@[match_pattern] abbrev chmod : ℕ := 75
@[match_pattern] abbrev fchmod : ℕ := 76
@[match_pattern] abbrev getdents : ℕ := 77
@[match_pattern] abbrev schedSetaffinity : ℕ := 78
@[match_pattern] abbrev schedGetaffinity : ℕ := 79
@[match_pattern] abbrev netConnect : ℕ := 80
@[match_pattern] abbrev netSend : ℕ := 81
@[match_pattern] abbrev netRecv : ℕ := 82
@[match_pattern] abbrev netClose : ℕ := 83

end Sys

/-- The system calls that every process may make. -/
def userCalls : List ℕ :=
  [ Sys.write, Sys.read, Sys.exit, Sys.yield, Sys.getpid, Sys.sbrk, Sys.«open», Sys.close,
    Sys.lseek, Sys.stat, Sys.exec, Sys.readdir, Sys.getring, Sys.dropring, Sys.sigmask,
    Sys.writeFd, Sys.chanConnect, Sys.chanSend, Sys.chanRecv, Sys.chanClose, Sys.chanOpen, Sys.brk,
    Sys.mmap, Sys.munmap, Sys.dup, Sys.chdir, Sys.getcwd, Sys.access, Sys.gettimeofday, Sys.fcntl,
    Sys.getuid, Sys.getgid, Sys.uname, Sys.nanosleep, Sys.fstat, Sys.getdents64, Sys.getdents,
    Sys.ioctl, Sys.mprotect, Sys.sigaction, Sys.sigprocmask, Sys.sigreturn, Sys.execve,
    Sys.getppid, Sys.clockGettime, Sys.clockGetres, Sys.isatty, Sys.getentropy, Sys.waitpid,
    Sys.fork, Sys.ftruncate, Sys.truncate2, Sys.readlink, Sys.setsid, Sys.getpgid, Sys.setpgid,
    Sys.schedSetaffinity, Sys.schedGetaffinity, Sys.netConnect, Sys.netSend, Sys.netRecv,
    Sys.netClose ]

/-- The system calls for the rings 0 and 1. -/
def rootCalls : List ℕ :=
  [ Sys.spawn, Sys.wait, Sys.snapshotCreate, Sys.snapshotRollback, Sys.snapshotList, Sys.kill,
    Sys.create, Sys.mkdir, Sys.chanCreate, Sys.chanCreateNamed, Sys.unlink, Sys.rename,
    Sys.truncate, Sys.utimens, Sys.pipe, Sys.setuid, Sys.setgid, Sys.fsync, Sys.symlink, Sys.chmod,
    Sys.fchmod ]

def syscallAllowed (nr : ℕ) (ring : UInt8) : Bool :=
  if nr ∈ userCalls then true
  else if nr ∈ rootCalls then decide (ring ≤ procRingRoot)
  else false

/-! ### Dispatch -/

/-- What a system call of the hart `h` outside this development does.  None of them ends a process or
changes a ring, and one that returns does so in the context of its caller. -/
structure OtherCall (h : Hart) where
  run : TrapFrame → Kernel → Flow (ℤ × TrapFrame)
  ring_eq : ∀ tf k p, ((run tf k).kernel.proc p).ring = (k.proc p).ring
  current_eq : ∀ tf k a k', run tf k = .ret a k' → k'.hartCurrent h = k.hartCurrent h
  not_exited : ∀ tf k a k' p, run tf k = .ret a k' → (k.proc p).state ≠ .exited → (k'.proc p).state ≠ .exited

namespace Kernel

/-- A call that returns a value and leaves the trap frame alone. -/
def plain (tf : TrapFrame) (r : ℤ × Kernel) : Flow (ℤ × TrapFrame) := .ret (r.1, tf) r.2

/-- The same for a call that may leave. -/
def leaving (tf : TrapFrame) (x : Flow ℤ) : Flow (ℤ × TrapFrame) :=
  x.bind fun a k => .ret (a, tf) k

/-- The value of a call that returns an error or nothing. -/
def unitVal (r : Except Errno Unit × Kernel) : ℤ × Kernel := (retVal (r.1.map fun _ => 0), r.2)

/-- The match of `handle`, after the access check. -/
def dispatch (w : Supply) (readdir : Readdir) {h : Hart} (other : OtherCall h) (tf : TrapFrame)
    (k : Kernel) : Flow (ℤ × TrapFrame) :=
  let a0 := tf.a0
  let a1 := tf.a1
  let a2 := tf.a2
  match tf.a7 with
  | Sys.exit => plain tf (k.sysExit h a0)
  | Sys.yield => plain tf (k.sysYield h)
  | Sys.getpid => .ret (k.currentPid h, tf) k
  | Sys.exec => k.sysExec w h tf a0 a1
  | Sys.spawn => leaving tf (k.sysSpawn w h a0 a1 (UInt8.ofNat a2))
  | Sys.wait => leaving tf (k.sysWait h tf a0)
  | Sys.getring => plain tf (k.sysGetring h)
  | Sys.dropring => plain tf (k.sysDropring h (UInt8.ofNat a0))
  | Sys.kill => plain tf (k.sysKill h (a0 % 2 ^ 32) (a1 % 2 ^ 32))
  | Sys.sigmask => plain tf (k.sysSigmask h (a0 % 2 ^ 32) (a1 % 2 ^ 32))
  | Sys.waitpid => leaving tf (k.sysWaitpid h tf a0 a1 (a2 % 2 ^ 32))
  | Sys.getdents64 | Sys.getdents => plain tf (k.sysGetdents64 readdir h a0 a1 a2)
  | Sys.ioctl => plain tf (k.sysIoctl h a1 a2)
  | Sys.sigaction => plain tf (unitVal (k.sigaction h (a0 % 2 ^ 32) a1 a2))
  | Sys.sigprocmask => plain tf (unitVal (k.sigprocmask h (a0 % 2 ^ 32) a1 a2))
  | Sys.sigreturn =>
    let (tf, k) := k.sigreturn h tf
    .ret (0, tf) k
  | Sys.execve => k.sysExecve w h tf a0 a1 a2
  | Sys.fork => plain tf (k.sysFork w h tf)
  | Sys.getentropy => plain tf (k.sysGetentropy h a0 a1)
  | _ => other.run tf k

def handle (w : Supply) (readdir : Readdir) {h : Hart} (other : OtherCall h) (tf : TrapFrame)
    (k : Kernel) : Flow (ℤ × TrapFrame) :=
  if !syscallAllowed tf.a7 (k.currentRing h) then .ret (Errno.perm.asI64, tf) k
  else k.dispatch w readdir other tf

end Kernel

end OnyxKernel
