import OnyxKernel.Proc.Process

/-!
# The scheduler

The run queues and `sched_yield` of `kernel/src/proc/scheduler`.  A run queue is the list of the
processes linked behind its head.  `sched_yield` need not return to its caller: it may continue with
the trap frame of another process, with the idle context of the hart, or halt the machine, and a
`Flow` says which.
-/

namespace OnyxKernel

open Function

/-- How a piece of kernel code ends: it returns a value, it leaves for the context of a process (for
`none`, the idle context of the hart), or it halts. -/
inductive Flow (α : Type) where
  | ret (a : α) (k : Kernel)
  | switched (dest : Option ℕ) (k : Kernel)
  | halted (k : Kernel)

namespace Flow

variable {α β : Type}

/-- Continue after the first part has returned. -/
def bind (x : Flow α) (f : α → Kernel → Flow β) : Flow β :=
  match x with
  | .ret a k => f a k
  | .switched dest k => .switched dest k
  | .halted k => .halted k

/-- The state in which the code ends. -/
def kernel : Flow α → Kernel
  | .ret _ k | .switched _ k | .halted k => k

/-- Does the code return to its caller? -/
def returns : Flow α → Bool
  | .ret _ _ => true
  | _ => false

end Flow

namespace Kernel

/-- `enqueue`: put a process at the end of a run queue, unless it is in one. -/
def enqueue (h : Hart) (p : ℕ) (k : Kernel) : Kernel :=
  if (k.proc p).onRq then k
  else
    let k := k.modifyProc p fun r => { r with onRq := true }
    { k with runQueue := update k.runQueue h (k.runQueue h ++ [p]) }

/-- `dequeue`: take the first process of a run queue. -/
def dequeue (h : Hart) (k : Kernel) : Option ℕ × Kernel :=
  match k.runQueue h with
  | [] => (none, k)
  | p :: rest =>
    let k := k.modifyProc p fun r => { r with onRq := false }
    (some p, { k with runQueue := update k.runQueue h rest })

/-- Is the process pinned to another hart? -/
def pinnedElsewhere (k : Kernel) (h : Hart) (p : ℕ) : Option Hart :=
  (k.proc p).affinity.filter (· ≠ h)

/-- The loop of `steal` over the remaining victims. -/
def stealLoop (h : Hart) : List Hart → Kernel → Option ℕ × Kernel
  | [], k => (none, k)
  | victim :: rest, k =>
    if k.rqLocked victim then stealLoop h rest k
    else
      match k.dequeue victim with
      | (none, k) => stealLoop h rest k
      | (some p, k) =>
        match k.pinnedElsewhere h p with
        | some _ => stealLoop h rest (k.enqueue victim p)
        | none => (some p, k)

/-- `steal`: a process from the queue of another hart, starting behind the own hart. -/
def steal (h : Hart) (k : Kernel) : Option ℕ × Kernel :=
  stealLoop h ((List.range' 1 (maxHarts - 1)).map fun i => h + Fin.ofNat maxHarts i) k

def setNeedResched (h : Hart) (v : Bool) (k : Kernel) : Kernel :=
  { k with needResched := update k.needResched h v }

def setCurrentForHart (h : Hart) (p : Option ℕ) (k : Kernel) : Kernel :=
  { k with hartCurrent := update k.hartCurrent h p }

/-- Save the interrupted context; a running process goes back to the end of the queue. -/
def saveContext (h : Hart) (tf : TrapFrame) (k : Kernel) : Kernel :=
  match k.hartCurrent h with
  | none => { k with idleTf := update k.idleTf h tf }
  | some p =>
    let k := k.modifyProc p fun r => { r with tf := tf }
    if (k.proc p).state = .running then
      (k.modifyProc p fun r => { r with state := .ready }).enqueue h p
    else k

/-- Take the first process of the queue; one that is pinned to another hart is passed on to it and
the next one is taken as it is. -/
def pickNext (h : Hart) (k : Kernel) : Option ℕ × Kernel :=
  match k.dequeue h with
  | (none, k) => (none, k)
  | (some p, k) =>
    match k.pinnedElsewhere h p with
    | some a => (k.enqueue a p).dequeue h
    | none => (some p, k)

/-- Continue with the process `p`. -/
def switchTo (h : Hart) (p : ℕ) (k : Kernel) : Flow Unit :=
  let k := k.modifyProc p fun r => { r with state := .running }
  .switched (some p) ((k.setCurrentForHart h (some p)).setNeedResched h false)

/-- The end of `sched_yield` when no process can be run. -/
def noneReady (h : Hart) (k : Kernel) : Flow Unit :=
  match k.hartCurrent h with
  | none => .ret () (k.setNeedResched h false)
  | some p =>
    if (k.proc p).state = .exited then
      let k := (k.setCurrentForHart h none).setNeedResched h false
      if h = 0 then .halted k else .switched none k
    else
      .ret () ((k.modifyProc p fun r => { r with state := .running }).setNeedResched h false)

def schedYield (h : Hart) (tf : TrapFrame) (k : Kernel) : Flow Unit :=
  match (k.saveContext h tf).pickNext h with
  | (some p, k) => k.switchTo h p
  | (none, k) =>
    match k.steal h with
    | (some p, k) => k.switchTo h p
    | (none, k) =>
      match k.dequeue h with
      | (some p, k) => k.switchTo h p
      | (none, k) => k.noneReady h

end Kernel

end OnyxKernel
