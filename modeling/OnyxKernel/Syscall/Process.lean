import OnyxKernel.Proc.Spawn
import OnyxKernel.Syscall.CopyOut

/-!
# System calls on processes

The system calls that create processes, give them a new program, end them, signal them or change
their ring: `kernel/src/syscall/proc_sys.rs`, `ring_sys.rs`, `sys_exec` of `fs_sys2.rs`, and
`sys_waitpid`, `sys_execve` and `sys_fork` of `fs_sys3/extra.rs`.  The calls that change the trap
frame return it with their value.
-/

namespace OnyxKernel

/-- The value of a `Result` as the return value of a system call. -/
def retVal : Except Errno ℕ → ℤ
  | .ok n => n
  | .error e => e.asI64

/-- A register as an `i32`. -/
def asI32 (a : ℕ) : ℤ := Int.bmod a (2 ^ 32)

/-- The option `WNOHANG` of `waitpid`. -/
def wnohang : ℕ := 1

namespace Kernel

variable (w : Supply) (h : Hart) (tf : TrapFrame) (k : Kernel)

/-! ### Ends and signals -/

def sysExit (code : ℕ) : ℤ × Kernel := (0, k.exit h (k.currentPid h) (asI32 code))

def sysYield : ℤ × Kernel := (0, k.setNeedResched h true)

def sysKill (pid signal : ℕ) : ℤ × Kernel :=
  match k.signalSend h pid signal with
  | .ok k => (0, k)
  | .error e => (e.asI64, k)

def sysSigmask (how sig : ℕ) : ℤ × Kernel :=
  if nsig ≤ sig then (Errno.inval.asI64, k)
  else
    -- KILL is never put into a mask
    let bit := if sig = sigKill then 0 else sigBit sig
    match how with
    | 0 => (0, k.modifyCurrent h fun r => { r with signalMask := r.signalMask ||| bit })
    | 1 => (0, k.modifyCurrent h fun r => { r with signalMask := r.signalMask &&& ~~~(sigBit sig) })
    | 2 => (0, k.modifyCurrent h fun r => { r with signalMask := bit })
    | _ => (Errno.inval.asI64, k)

/-! ### Rings -/

def sysGetring : ℤ × Kernel := ((k.currentRing h).toNat, k)

def sysDropring (target : UInt8) : ℤ × Kernel :=
  let ring := (k.current h).ring
  if target < ring then (Errno.perm.asI64, k)
  else if target = ring then (0, k)
  else (0, k.modifyCurrent h fun r => { r with ring := target })

/-! ### New programs and processes -/

/-- What `sys_exec` and `sys_execve` do with a loaded program: the old address space is given up, and
the process continues at the entry.  The trap handler will add 4 to `sepc` and set `a0`. -/
def replaceImage (r : Onx.OnxLoadResult) (argc argvSp : ℕ) (more : Proc → Proc) :
    TrapFrame × Kernel :=
  let rootPa := (k.current h).rootPa
  let k := if rootPa ≠ 0 then { k with mm := Vmm.destroyRoot rootPa k.mm } else k
  let k := k.modifyCurrent h fun p =>
    more { p with
      rootPa := r.rootPa, entry := r.entry
      ustack := if 0 < argc then argvSp else r.ustack
      heapBrk := r.heapBrk
      ring := if r.ring = 1 then procRingRoot else procRingUser }
  ({ tf with
      sepc := wsub r.entry 4
      sp := if 0 < argc then argvSp else r.ustack
      a0 := argc
      a1 := if 0 < argc then wadd argvSp 8 else 0
      sstatus := sstatusSpie
      satp := satpModeSv39 ||| (r.rootPa >>> 12) }, k)

/-- The common body of `sys_exec` and `sys_execve`.  `entryVaddr` and `uid` go to the auxiliary
vector. -/
def execWith (path argv envp : ℕ) (entryVaddr : Onx.OnxLoadResult → ℕ) (uid : ℕ) (more : Proc → Proc) :
    Flow (ℤ × TrapFrame) :=
  if !userPtrOk path 1 then .ret (Errno.inval.asI64, tf) k
  else
    let curRing := k.currentRing h
    (k.loadFile w).bind fun
      | .error e, k => .ret (e.asI64, tf) k
      | .ok r, k =>
        if curRing = procRingUser ∧ r.ring = 1 then .ret (Errno.perm.asI64, tf) k
        else
          let ((argc, argvSp), mm) := Onx.copyArgvEnvpToStack w.user k.uptimeUs r.rootPa r.ustack argv
            envp (entryVaddr r) uid k.mm
          let (tf, k) := { k with mm := mm }.replaceImage h tf r argc argvSp more
          .ret (argc, tf) k

def sysExec (path argv : ℕ) : Flow (ℤ × TrapFrame) :=
  k.execWith w h tf path argv 0 (fun _ => 0) 0 id

def sysExecve (path argv envp : ℕ) : Flow (ℤ × TrapFrame) :=
  k.execWith w h tf path argv envp (·.entry) (k.current h).uid
    fun p => { p with mmapBrk := 0x20000000 }

def sysSpawn (path argv : ℕ) (ringHint : UInt8) : Flow ℤ :=
  if !userPtrOk path 1 then .ret Errno.inval.asI64 k
  else (k.spawn w h argv ringHint (k.currentPid h)).bind fun res k => .ret (retVal res) k

/-- `sys_fork`: the child gets the page table of its parent. -/
def sysFork : ℤ × Kernel :=
  let parent := k.current h
  let (newPid, k) := k.allocPid
  match k.createUser h w.record parent.entry parent.ustack parent.rootPa newPid parent.pid
      parent.heapBrk parent.ring 0 parent.ustack with
  | .error e => (e.asI64, k)
  | .ok k =>
    -- the child is the first record with its pid
    (newPid, k.modifyProc ((k.byPid newPid).getD 0) fun r => { r with tf := { tf with a0 := 0 } })

/-! ### Waiting -/

def sysWait (statusOut : ℕ) : Flow ℤ :=
  let statusPtr := if statusOut ≠ 0 ∧ userPtrOk statusOut 4 then some statusOut else none
  (k.wait h tf statusPtr).bind fun res k => .ret (retVal res) k

/-- Does `waitpid` with the argument `pid` ask for the process with the pid `childPid`? -/
def matchesPid (pid childPid : ℕ) : Bool :=
  pid == 2 ^ 32 - 1 || pid == 0 || decide (2 ^ 63 ≤ pid) || childPid == pid % 2 ^ 32

/-- Store the exit code where `waitpid` is asked to. -/
def storeStatus (statusOut : ℕ) (code : ℤ) : Kernel :=
  if statusOut = 0 then k
  else
    let pa := Vmm.translate k.mm.mem (k.current h).rootPa statusOut
    if pa ≠ 0 then k.copyOut statusOut pa (codeBytes code) else k

def sysWaitpid (pid statusOut options : ℕ) : Flow ℤ :=
  let myPid := k.currentPid h
  if statusOut ≠ 0 ∧ !userPtrOk statusOut 4 then .ret Errno.inval.asI64 k
  else
    match k.allProcs.find? fun c => k.isExitedChild myPid c && matchesPid pid (k.proc c).pid with
    | some c =>
      .ret (k.proc c).pid ((k.storeStatus h statusOut (k.proc c).exitCode).freeProc c)
    | none =>
      if !k.allProcs.any fun c => k.isChild myPid c && matchesPid pid (k.proc c).pid then
        .ret Errno.noEnt.asI64 k
      else if options &&& wnohang ≠ 0 then .ret 0 k
      else (k.block h tf).bind fun res k => .ret (retVal res) k

end Kernel

end OnyxKernel
