import OnyxKernel.Fs.Vfs
import OnyxKernel.Mm.Heap
import OnyxKernel.Syscall.Process

/-!
# Programs from files

`sys_exec` of `kernel/src/syscall/fs_sys2.rs`, `sys_execve` of `fs_sys3/extra.rs` and `spawn` of
`kernel/src/proc/spawn.rs` with what they do to the descriptors and to the heap.  The file is opened, its
bytes are read into memory from `kmalloc`, the file is closed, and the program is loaded from there.
-/

namespace OnyxKernel

open ByteMemory

/-- What a call obtains from elsewhere. -/
structure ProgramEnv where
  /-- The memory read through the pointers of the caller. -/
  user : Memory
  /-- What `kmalloc` returns for a process record. -/
  record : Except Errno ℕ
  /-- What a read that fails has put into its buffer. -/
  spill : List UInt8
  tf : TrapFrame

/-- A function that makes programs run.  It may not end, as the loader may not. -/
abbrev ProgramM := EStateM Onx.Stop Vfs

namespace Vfs

variable (D : Drivers) (h : Hart) (env : ProgramEnv)

/-- The state with another memory manager. -/
def withMm (mm : Mm) (v : Vfs) : Vfs := { v with kernel := { v.kernel with mm := mm } }

/-- A call whose error is returned. -/
def call {α : Type} (x : VfsM α) : ProgramM α := fun v =>
  match x v with
  | .ok a v' => .ok a v'
  | .error e v' => .error (.err e) v'

/-- A call whose error is ignored. -/
def callOk {α : Type} (x : VfsM α) : ProgramM (Option α) := fun v =>
  match x v with
  | .ok a v' => .ok (some a) v'
  | .error _ v' => .ok none v'

def kmalloc (size : ℕ) : ProgramM ℕ := fun v =>
  match Heap.kmalloc size v.kernel.mm with
  | none => .error .hang v
  | some (.ok p mm) => .ok p (v.withMm mm)
  | some (.error e mm) => .error (.err e) (v.withMm mm)

def kfree (p : ℕ) : ProgramM Unit := fun v =>
  match Heap.kfree p v.kernel.mm with
  | none => .error .hang v
  | some mm => .ok () (v.withMm mm)

/-- Put bytes into the image. -/
def putImage (img : ℕ) (bytes : List UInt8) : ProgramM Unit :=
  modify fun v => v.withMm { v.kernel.mm with mem := v.kernel.mm.mem.write img bytes }

/-- `onx::load` of the image at `img`. -/
def load (img size : ℕ) : ProgramM Onx.OnxLoadResult := fun v =>
  match Onx.load (fun i => v.kernel.mm.mem (img + i)) size (.start v.kernel.mm) with
  | .ok r l => .ok r (v.withMm l.mm)
  | .error stop l => .error stop (v.withMm l.mm)

/-! ### `exec` and `execve` -/

/-- The image of a file: its address and its size.  Only `open` and `kmalloc` may fail. -/
def openImage (path : List UInt8) : ProgramM (ℕ × ℕ) := do
  let token ← call (openFile D h path (permRead ||| permSeek))
  let size := (← callOk (stat h token)).getD 0
  let img ← kmalloc size
  let bytes := (← callOk (read D h token size)).getD env.spill
  putImage img bytes
  let _ ← callOk (close h token)
  return (img, size)

/-- The program is loaded; if that fails, the image is freed. -/
def loadOrFree (img size : ℕ) : ProgramM Onx.OnxLoadResult := fun v =>
  match load img size v with
  | .error (.err e) v' => (do kfree img; throw (Onx.Stop.err e) : ProgramM Onx.OnxLoadResult) v'
  | r => r

/-- The process continues with the program. -/
def runProgram (argv envp : ℕ) (entryVaddr : Onx.OnxLoadResult → ℕ) (uid : Kernel → ℕ) (more : Proc → Proc)
    (r : Onx.OnxLoadResult) : ProgramM (ℕ × TrapFrame) := fun v =>
  let ((argc, argvSp), mm) := Onx.copyArgvEnvpToStack env.user v.kernel.uptimeUs r.rootPa r.ustack argv envp
    (entryVaddr r) (uid v.kernel) v.kernel.mm
  let (tf, k) := (v.withMm mm).kernel.replaceImage h env.tf r argc argvSp more
  .ok (argc, tf) { v with kernel := k }

/-- What follows when the image is there. -/
def execImage (curRing : UInt8) (argv envp : ℕ) (entryVaddr : Onx.OnxLoadResult → ℕ) (uid : Kernel → ℕ)
    (more : Proc → Proc) (img size : ℕ) : ProgramM (ℕ × TrapFrame) := do
  let r ← loadOrFree img size
  kfree img
  if curRing = procRingUser ∧ r.ring = 1 then throw (.err .perm)
  else runProgram h env argv envp entryVaddr uid more r

/-- The common body of `sys_exec` and `sys_execve`; `path` is what `parse_user_path` gives. -/
def execWith (path : Option (List UInt8)) (argv envp : ℕ) (entryVaddr : Onx.OnxLoadResult → ℕ)
    (uid : Kernel → ℕ) (more : Proc → Proc) : ProgramM (ℕ × TrapFrame) :=
  match path with
  | none => throw (.err .inval)
  | some path => do
    let curRing := (← get).kernel.currentRing h
    let (img, size) ← openImage D h env path
    execImage h env curRing argv envp entryVaddr uid more img size

/-- `sys_exec`. -/
def exec (path : Option (List UInt8)) (argv : ℕ) : ProgramM (ℕ × TrapFrame) :=
  execWith D h env path argv 0 (fun _ => 0) (fun _ => 0) id

/-- `sys_execve`. -/
def execve (path : Option (List UInt8)) (argv envp : ℕ) : ProgramM (ℕ × TrapFrame) :=
  execWith D h env path argv envp (·.entry) (fun k => (k.current h).uid)
    fun p => { p with mmapBrk := 0x20000000 }

/-! ### `spawn` -/

/-- The part of `spawn` after the image has been read. -/
def spawnImage (argvUser : ℕ) (ringHint : UInt8) (parentPid img size : ℕ) : ProgramM ℕ := do
  let r ← load img size
  kfree img
  fun v =>
    match v.kernel.spawnLoaded ⟨.error .inval, env.user, env.record⟩ h argvUser ringHint parentPid r with
    | (.ok pid, k) => .ok pid { v with kernel := k }
    | (.error e, k) => .error (.err e) { v with kernel := k }

/-- The image of a file for `spawn`: every error is returned. -/
def readImage (path : List UInt8) : ProgramM (ℕ × ℕ) := do
  let token ← call (openFile D h path (permRead ||| permSeek))
  let size ← call (stat h token)
  if size = 0 then
    call (close h token)
    throw (.err .inval)
  else
    let img ← kmalloc size
    let bytes ← call (read D h token size)
    putImage img bytes
    call (close h token)
    return (img, size)

def spawn (path : List UInt8) (argvUser : ℕ) (ringHint : UInt8) (parentPid : ℕ) : ProgramM ℕ := do
  let (img, size) ← readImage D h path
  spawnImage h env argvUser ringHint parentPid img size

end Vfs

end OnyxKernel
