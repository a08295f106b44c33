import OnyxKernel.Proc.Events

/-!
# The locks of the run queues

Every run queue has a spin lock.  Here the harts are interleaved at the points at which the code takes or
drops a lock, changes a run queue or looks at a process it has taken: each hart has a program counter, and
`next` is the next such step of its code.  A lock is taken by an atomic swap, which succeeds when the lock
was free; `holder` records whose swap that was.  A hart whose next step is a change of a queue is modifying
this queue, and it should hold the lock of the queue.
-/

namespace OnyxKernel

/-- Where a hart is in the code that works on run queues. -/
inductive Pc where
  /-- In any other code. -/
  | outside
  /-- `rq_lock` at the start of `sched_yield`. -/
  | lockOwn (tf : TrapFrame)
  | save (tf : TrapFrame)
  | enqueueCurrent (p : ℕ)
  | dequeueFirst
  | checkAffinity (p : ℕ)
  /-- `enqueue` on the queue of the hart to which the process is pinned. -/
  | passOn (a : Hart) (p : ℕ)
  | dequeueSecond
  | unlockToSteal
  /-- The loop of `steal`, with the victims that are left. -/
  | tryVictim (victims : List Hart)
  | dequeueVictim (victim : Hart) (rest : List Hart)
  | unlockVictim (taken : Option ℕ) (victim : Hart) (rest : List Hart)
  | checkStolen (p : ℕ) (victim : Hart) (rest : List Hart)
  /-- `enqueue` on the queue of the victim, which is unlocked again. -/
  | putBack (p : ℕ) (victim : Hart) (rest : List Hart)
  | runStolen (p : ℕ)
  | lockAgain
  | dequeueLast
  | runNext (p : ℕ)
  | nothingReady
  | unlockOwn
  /-- `enqueue` in `create_user`, in `signal_send` and in `exit`, which then hands over the children of
  the given pid. -/
  | enqueueUnlocked (p : ℕ) (orphans : Option ℕ)

/-- The harts at work on the run queues. -/
structure RqSystem where
  kernel : Kernel
  pc : Hart → Pc
  holder : Hart → Option Hart

namespace RqSystem

/-- Hart `h` goes on at `pc`, with the kernel in the state `k`. -/
def goto (h : Hart) (k : Kernel) (pc : Pc) (s : RqSystem) : RqSystem :=
  { s with kernel := k, pc := Function.update s.pc h pc }

/-- `lock.swap(true)` on the queue `q`; the hart goes on at `pc` if the lock was free. -/
def swap (h q : Hart) (pc : Pc) (s : RqSystem) : Option RqSystem :=
  if s.kernel.rqLocked q then none
  else
    some { s.goto h { s.kernel with rqLocked := Function.update s.kernel.rqLocked q true } pc with
      holder := Function.update s.holder q (some h) }

/-- `lock.store(false)` on the queue `q`. -/
def store (h q : Hart) (pc : Pc) (s : RqSystem) : RqSystem :=
  { s.goto h { s.kernel with rqLocked := Function.update s.kernel.rqLocked q false } pc with
    holder := Function.update s.holder q none }

/-- The victims of `steal`, in order. -/
def victims (h : Hart) : List Hart :=
  (List.range' 1 (maxHarts - 1)).map fun i => h + Fin.ofNat maxHarts i

/-- The next step of hart `h`; there is none while it spins or is in other code. -/
def next (h : Hart) (s : RqSystem) : Option RqSystem :=
  let k := s.kernel
  match s.pc h with
  | .outside => none
  | .lockOwn tf => s.swap h h (.save tf)
  | .save tf =>
    match k.hartCurrent h with
    | none => some (s.goto h { k with idleTf := Function.update k.idleTf h tf } .dequeueFirst)
    | some p =>
      let k := k.modifyProc p fun r => { r with tf := tf }
      if (k.proc p).state = .running then
        some (s.goto h (k.modifyProc p fun r => { r with state := .ready }) (.enqueueCurrent p))
      else some (s.goto h k .dequeueFirst)
  | .enqueueCurrent p => some (s.goto h (k.enqueue h p) .dequeueFirst)
  | .dequeueFirst =>
    match k.dequeue h with
    | (none, k) => some (s.goto h k .unlockToSteal)
    | (some p, k) => some (s.goto h k (.checkAffinity p))
  | .checkAffinity p =>
    match k.pinnedElsewhere h p with
    | some a => some (s.goto h k (.passOn a p))
    | none => some (s.goto h k (.runNext p))
  | .passOn a p => some (s.goto h (k.enqueue a p) .dequeueSecond)
  | .dequeueSecond =>
    match k.dequeue h with
    | (none, k) => some (s.goto h k .unlockToSteal)
    | (some p, k) => some (s.goto h k (.runNext p))
  | .unlockToSteal => some (s.store h h (.tryVictim (victims h)))
  | .tryVictim [] => some (s.goto h k .lockAgain)
  | .tryVictim (victim :: rest) =>
    if k.rqLocked victim then some (s.goto h k (.tryVictim rest))
    else s.swap h victim (.dequeueVictim victim rest)
  | .dequeueVictim victim rest =>
    match k.dequeue victim with
    | (taken, k) => some (s.goto h k (.unlockVictim taken victim rest))
  | .unlockVictim none victim rest => some (s.store h victim (.tryVictim rest))
  | .unlockVictim (some p) victim rest => some (s.store h victim (.checkStolen p victim rest))
  | .checkStolen p victim rest =>
    match k.pinnedElsewhere h p with
    | some _ => some (s.goto h k (.putBack p victim rest))
    | none => some (s.goto h k (.runStolen p))
  | .putBack p victim rest => some (s.goto h (k.enqueue victim p) (.tryVictim rest))
  | .runStolen p => some (s.goto h (k.switchTo h p).kernel .outside)
  | .lockAgain => s.swap h h .dequeueLast
  | .dequeueLast =>
    match k.dequeue h with
    | (none, k) => some (s.goto h k .nothingReady)
    | (some p, k) => some (s.goto h k (.runNext p))
  | .runNext p => some (s.goto h (k.switchTo h p).kernel .unlockOwn)
  | .nothingReady => some (s.goto h (k.noneReady h).kernel .unlockOwn)
  | .unlockOwn => some (s.store h h .outside)
  | .enqueueUnlocked p none => some (s.goto h (k.enqueue h p) .outside)
  | .enqueueUnlocked p (some pid) => some (s.goto h ((k.enqueue h p).reparent pid) .outside)

end RqSystem

namespace Kernel

variable {h : Hart} {k k' k'' : Kernel} {p : ℕ}

/-- `exit` up to the point at which the process has ended. -/
def endProcess (h : Hart) (p : ℕ) (code : ℤ) (k : Kernel) : Kernel :=
  let k := (List.finRange vfsMaxFds).foldl (closeFd h p) k
  let k := { k with mm := Vmm.destroyRoot (k.proc p).rootPa k.mm }
  k.modifyProc p (Proc.ended code)

/-- The process that `exit` wakes: the one with the pid `parent`, if it waits. -/
def wokenParent (parent : ℕ) (k : Kernel) : Option ℕ :=
  if parent = 0 then none else (k.byPid parent).filter fun pp => (k.proc pp).state = .waiting

/-- The process that `signal_send` wakes. -/
def wokenTarget (pid signal : ℕ) (k : Kernel) : Option ℕ :=
  if signal = 0 ∨ nsig ≤ signal then none
  else (k.byPid pid).filter fun p => (k.proc p).state = .waiting

/-- A process in the state in which it is enqueued. -/
def makeReady (p : ℕ) (k : Kernel) : Kernel := k.modifyProc p fun r => { r with state := .ready }

end Kernel

/-- What the harts can do. -/
inductive RqEvent where
  /-- `sched_yield` is called -/
  | yield (h : Hart) (tf : TrapFrame)
  /-- `create_user` is called, with what `kmalloc` returned -/
  | createUser (h : Hart) (mem : Except Errno ℕ)
      (entry ustack rootPa pid parentPid heapBrk : ℕ) (ring : UInt8) (argc argvSp : ℕ)
  /-- `exit` is called -/
  | exit (h : Hart) (pid : ℕ) (code : ℤ)
  /-- `signal_send` is called -/
  | signalSend (h : Hart) (pid signal : ℕ)
  /-- other code runs, which does not touch the run queues -/
  | elsewhere (h : Hart) (k : Kernel)
  /-- a hart takes its next step -/
  | advance (h : Hart)

namespace RqEvent

open Kernel

/-- The hart that acts. -/
def hart : RqEvent → Hart
  | yield h _ | createUser h .. | exit h .. | signalSend h .. | elsewhere h _ | advance h => h

/-- One step of the system.  A call can be made by a hart that is in other code. -/
def step (e : RqEvent) (s : RqSystem) : Option RqSystem :=
  let k := s.kernel
  match e, s.pc e.hart with
  | advance h, _ => s.next h
  | yield h tf, .outside => some (s.goto h k (.lockOwn tf))
  | createUser h mem entry ustack rootPa pid parentPid heapBrk ring argc argvSp, .outside =>
    match if entry = 0 then .error .inval else mem with
    | .error _ => some s
    | .ok q =>
      let r := newProc entry ustack rootPa pid parentPid heapBrk ring argc argvSp
      some (s.goto h { k with proc := Function.update k.proc q r, allProcs := q :: k.allProcs }
        (.enqueueUnlocked q none))
  | exit h pid code, .outside =>
    match k.byPid pid with
    | none => some s
    | some p =>
      let k := k.endProcess h p code
      match k.wokenParent (k.proc p).parentPid with
      | none => some (s.goto h (k.reparent pid) .outside)
      | some pp => some (s.goto h (k.makeReady pp) (.enqueueUnlocked pp (some pid)))
  | signalSend h pid signal, .outside =>
    match k.signalSend h pid signal with
    | .error _ => some s
    | .ok k' =>
      match k.wokenTarget pid signal with
      | none => some (s.goto h k' .outside)
      | some p =>
        let k := k.modifyProc p fun r => { r with pendingSignals := r.pendingSignals ||| sigBit signal }
        some (s.goto h (k.makeReady p) (.enqueueUnlocked p none))
  | elsewhere h k', .outside =>
    if k'.rqLocked = k.rqLocked ∧ k'.runQueue = k.runQueue then some (s.goto h k' .outside) else none
  | _, _ => none

/-- No queue is changed without its lock.  `create_user` always enqueues the new process; `exit` and
`signal_send` enqueue a process that waits; `sched_yield` and `steal` enqueue a process that they have
taken and that is pinned to another hart. -/
def Locked (s : RqSystem) : RqEvent → Prop
  | createUser _ mem entry .. => entry = 0 ∨ mem.toOption = none
  | exit _ pid _ => ∀ p, s.kernel.byPid pid = some p →
      s.kernel.wokenParent (s.kernel.proc p).parentPid = none
  | signalSend _ pid signal => s.kernel.wokenTarget pid signal = none
  | advance h =>
    match s.pc h with
    | .checkAffinity p | .checkStolen p _ _ => s.kernel.pinnedElsewhere h p = none
    | _ => True
  | _ => True

end RqEvent

namespace RqSystem

/-- The queue that the next step of hart `h` changes. -/
def modifies (h : Hart) (s : RqSystem) : Option Hart :=
  let enqueues (q : Hart) (p : ℕ) := if (s.kernel.proc p).onRq then none else some q
  let dequeues (q : Hart) := if s.kernel.runQueue q = [] then none else some q
  match s.pc h with
  | .enqueueCurrent p | .enqueueUnlocked p _ => enqueues h p
  | .passOn q p | .putBack p q _ => enqueues q p
  | .dequeueFirst | .dequeueSecond | .dequeueLast => dequeues h
  | .dequeueVictim q _ => dequeues q
  | _ => none

/-- A hart that modifies a queue holds its lock, and it is the only one that does. -/
def MutualExclusion (s : RqSystem) : Prop :=
  ∀ h q, s.modifies h = some q → s.holder q = some h ∧ ∀ h', s.modifies h' = some q → h' = h

/-- The state after some events; an event that is not possible is left out. -/
def after (es : List RqEvent) (s : RqSystem) : RqSystem := es.foldl (fun s e => (e.step s).getD s) s

/-- The harts in other code, with all locks free. -/
def start (k : Kernel) : RqSystem where
  kernel := { k with rqLocked := fun _ => false }
  pc _ := .outside
  holder _ := none

/-- One step in which no queue is changed without its lock. -/
def LockedStep (s s' : RqSystem) : Prop := ∃ e : RqEvent, e.Locked s ∧ e.step s = some s'

end RqSystem

/-! ### The flags of the locks -/

namespace Kernel

@[simp] lemma rqLocked_modifyProc (p : ℕ) (f : Proc → Proc) (k : Kernel) :
    (k.modifyProc p f).rqLocked = k.rqLocked := rfl

@[simp] lemma rqLocked_enqueue (h : Hart) (p : ℕ) (k : Kernel) : (k.enqueue h p).rqLocked = k.rqLocked := by
  rw [enqueue]
  split <;> rfl

@[simp] lemma rqLocked_dequeue (h : Hart) (k : Kernel) : (k.dequeue h).2.rqLocked = k.rqLocked := by
  rw [dequeue]
  split <;> rfl

@[simp] lemma rqLocked_switchTo (h : Hart) (p : ℕ) (k : Kernel) :
    (k.switchTo h p).kernel.rqLocked = k.rqLocked := rfl

@[simp] lemma rqLocked_noneReady (h : Hart) (k : Kernel) : (k.noneReady h).kernel.rqLocked = k.rqLocked := by
  rw [noneReady]
  split
  · rfl
  · split
    · split <;> rfl
    · rfl

end Kernel

end OnyxKernel
