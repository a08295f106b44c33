import OnyxKernel.Mm.PageTable
import OnyxKernel.Proc.Scheduler

/-!
# The life of a process

`alloc_proc`, `free_proc`, `exit` and `create_user` of `kernel/src/proc`.  The memory of a process
record comes from the kernel heap: `alloc_proc` is given what `kmalloc` returned for it.
-/

namespace OnyxKernel

def sstatusSpie : ℕ := 1 <<< 5
def satpModeSv39 : ℕ := 8 <<< 60

namespace Kernel

/-- `alloc_proc`: a new record at the address that `kmalloc` returned, in front of the list.  The
record is zeroed before its fields are set, so its affinity is hart 0. -/
def allocProc (mem : Except Errno ℕ) (k : Kernel) : Except Errno (ℕ × Kernel) :=
  match mem with
  | .error e => .error e
  | .ok p =>
    .ok (p, { k with
      proc := Function.update k.proc p { affinity := some 0 }
      allProcs := p :: k.allProcs })

/-- `free_proc`: take a record out of the list. -/
def freeProc (p : ℕ) (k : Kernel) : Kernel := { k with allProcs := k.allProcs.erase p }

/-- Close descriptor `i` of the process `p`, if it is in use. -/
def closeFd (h : Hart) (p : ℕ) (k : Kernel) (i : Fin vfsMaxFds) : Kernel :=
  let fd := (k.proc p).fds i
  if fd.used then k.close h (fdToken i fd.epoch) else k

/-- Wake the process `parent` if it waits. -/
def wakeParent (h : Hart) (parent : ℕ) (k : Kernel) : Kernel :=
  if parent = 0 then k
  else
    match k.byPid parent with
    | none => k
    | some pp =>
      if (k.proc pp).state = .waiting then
        (k.modifyProc pp fun r => { r with state := .ready }).enqueue h pp
      else k

/-- Hand the children of `pid` over to the first process. -/
def reparent (pid : ℕ) (k : Kernel) : Kernel :=
  k.allProcs.foldl
    (fun k c =>
      let r := k.proc c
      if r.parentPid = pid ∧ r.state ≠ .free ∧ r.state ≠ .exited then
        k.modifyProc c fun r => { r with parentPid := 1 }
      else k)
    k

/-- `exit`: end the process with the given pid. -/
def exit (h : Hart) (pid : ℕ) (code : ℤ) (k : Kernel) : Kernel :=
  match k.byPid pid with
  | none => k
  | some p =>
    let k := (List.finRange vfsMaxFds).foldl (closeFd h p) k
    let k := { k with mm := Vmm.destroyRoot (k.proc p).rootPa k.mm }
    let k := k.modifyProc p fun r => { r with exitCode := code, state := .exited }
    (k.wakeParent h (k.proc p).parentPid).reparent pid

/-- `create_user`: a new process, ready to run. -/
def createUser (h : Hart) (mem : Except Errno ℕ)
    (entry ustack rootPa pid parentPid heapBrk : ℕ) (ring : UInt8) (argc argvSp : ℕ) (k : Kernel) :
    Except Errno Kernel :=
  if entry = 0 then .error .inval
  else
    match k.allocProc mem with
    | .error e => .error e
    | .ok (p, k) =>
      let uid := if ring ≤ procRingRoot then 0 else 1000
      let tf : TrapFrame :=
        { sepc := entry
          sp := if 0 < argc then argvSp else ustack
          a0 := argc
          a1 := if 0 < argc then wadd argvSp 8 else 0
          sstatus := sstatusSpie
          satp := satpModeSv39 ||| (rootPa >>> 12) }
      let k := k.modifyProc p fun r =>
        { r with
          pid := pid, ring := ring, state := .ready, parentPid := parentPid, exitCode := 0
          rootPa := rootPa, entry := entry, ustack := ustack, heapBrk := heapBrk
          uid := uid, gid := uid, tf := tf, pendingSignals := 0, signalMask := 0 }
      .ok (k.enqueue h p)

end Kernel

end OnyxKernel
