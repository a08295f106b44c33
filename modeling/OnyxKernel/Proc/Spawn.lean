import OnyxKernel.Onx.Load
import OnyxKernel.Proc.Argv
import OnyxKernel.Proc.Signals

/-!
# Spawning and waiting

`kernel/src/proc/spawn.rs`.  A call is given what it obtains from the rest of the kernel: the bytes of
the file it opens, the memory behind the pointers of its caller, and the memory for a process record.
-/

namespace OnyxKernel

open ByteMemory

/-- What a system call obtains from the file system, from the memory of its caller and from the heap. -/
structure Supply where
  /-- The bytes of the file at the path of the call, and their number. -/
  file : Except Errno (Memory × ℕ)
  /-- The memory read through the pointers of the caller. -/
  user : Memory
  /-- What `kmalloc` returns for a process record. -/
  record : Except Errno ℕ

namespace Kernel

variable (w : Supply) (h : Hart) (tf : TrapFrame) (k : Kernel)

/-- `onx::load` on the bytes of the file.  A loader that does not end never returns to its caller. -/
def loadFile : Flow (Except Errno Onx.OnxLoadResult) :=
  match w.file with
  | .error e => .ret (.error e) k
  | .ok (image, size) =>
    match Onx.load image size (.start k.mm) with
    | .ok r l => .ret (.ok r) { k with mm := l.mm }
    | .error (.err e) l => .ret (.error e) { k with mm := l.mm }
    | .error .hang l => .halted { k with mm := l.mm }

/-! ### `spawn` -/

/-- The part of `spawn` after the program has been loaded. -/
def spawnLoaded (argvUser : ℕ) (ringHint : UInt8) (parentPid : ℕ) (r : Onx.OnxLoadResult) :
    Except Errno ℕ × Kernel :=
  let (newPid, k) := k.allocPid
  let ring := if ringHint = procRingRoot ∧ r.ring = 1 then procRingRoot else procRingUser
  let ((argc, argvSp), mm) :=
    if argvUser ≠ 0 then Onx.copyArgvToStack w.user k.uptimeUs r.rootPa r.ustack argvUser k.mm
    else ((0, 0), k.mm)
  let k := { k with mm := mm }
  match k.createUser h w.record r.entry r.ustack r.rootPa newPid parentPid r.heapBrk ring argc argvSp with
  | .error e => (.error e, k)
  | .ok k => (.ok newPid, k)

def spawn (argvUser : ℕ) (ringHint : UInt8) (parentPid : ℕ) : Flow (Except Errno ℕ) :=
  if w.file.toOption.map Prod.snd = some 0 then .ret (.error .inval) k
  else
    (k.loadFile w).bind fun
      | .error e, k => .ret (.error e) k
      | .ok r, k =>
        let (res, k) := k.spawnLoaded w h argvUser ringHint parentPid r
        .ret res k

/-! ### `wait` -/

/-- Store through a user pointer under the page table in force: every byte at its own translated
address.  A byte that is not mapped faults, and a page fault in the kernel halts the machine. -/
def storeUser (h : Hart) : (va : ℕ) → List UInt8 → Kernel → Flow Unit
  | _, [], k => .ret () k
  | va, b :: bs, k =>
    let pa := Vmm.translate k.mm.mem (k.current h).rootPa va
    if pa = 0 then .halted k else storeUser h (wadd va 1) bs (k.copyOut va pa [b])

/-- The bytes of an exit code. -/
def codeBytes (code : ℤ) : List UInt8 := leBytes 4 (code % 2 ^ 32).toNat

/-- Does the record at `c` belong to a child of `pid`? -/
def isChild (pid c : ℕ) : Bool := (k.proc c).parentPid == pid && (k.proc c).state != .free

/-- Is it one that has exited? -/
def isExitedChild (pid c : ℕ) : Bool := (k.proc c).parentPid == pid && (k.proc c).state == .exited

/-- The end of `wait` and `waitpid`: the caller waits, and another process runs. -/
def block : Flow (Except Errno ℕ) :=
  let k :=
    match k.hartCurrent h with
    | none => k
    | some p => k.modifyProc p fun r => { r with state := .waiting }
  (k.schedYield h tf).bind fun _ k => .ret (.error .noEnt) k

def wait (statusOut : Option ℕ) : Flow (Except Errno ℕ) :=
  let myPid := k.currentPid h
  match k.allProcs.find? (k.isExitedChild myPid) with
  | some c =>
    let exitedPid := (k.proc c).pid
    let stored : Flow Unit :=
      match statusOut with
      | none => .ret () k
      | some va => k.storeUser h va (codeBytes (k.proc c).exitCode)
    stored.bind fun _ k => .ret (.ok exitedPid) (k.freeProc c)
  | none => if k.allProcs.any (k.isChild myPid) then k.block h tf else .ret (.error .noEnt) k

end Kernel

end OnyxKernel
