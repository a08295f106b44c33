import OnyxKernel.Proc.Dispatch

/-!
# No lost wakeup

A process that is ready must stand in a run queue, or no hart will ever take it.  `create_user`,
`sched_yield`, `signal_send` and `exit` put a process into a queue where they make it ready.  A message
that wakes the processes on the wait list of a channel does not, and these are lost
(`receiver_lost`).  As long as no such process is woken, the invariant holds along every run
(`ready_linked`).
-/

namespace OnyxKernel.Kernel

open Onx

variable {h : Hart} {tf : TrapFrame} {k k' : Kernel} {p q x : ℕ} {a : Act}

/-- Every process that is ready stands in a run queue. -/
structure Awake (k : Kernel) : Prop extends k.Registered where
  ready : ∀ p, (k.proc p).state = .ready → (k.proc p).onRq = true

/-- The condition: a process that is woken without being put into a queue stands in one, and records are
given up only when they are not in use. -/
def WakeOk : Act → Kernel → Prop
  | .readied p, k => (k.proc p).onRq = true
  | .reaped c, k => Undispatched k c
  | _, _ => True

lemma lenient_wakeOk : Lenient WakeOk where
  quiet _ := trivial
  ended _ _ := trivial
  woken _ _ _ := trivial
  created _ _ _ := trivial
  blocked _ _ _ := trivial
  readied p q k hp := ((setState_modifyProc .ready q k).onRq_eq p).trans hp

namespace Awake

lemma of_setState {st : ProcState} (hk : k.Awake) (hs : SetState st p k k')
    (hst : st = .ready → (k.proc p).onRq = true) : k'.Awake := by
  refine ⟨hk.toRegistered.of_setState hs, fun x hx => ?_⟩
  rw [hs.onRq_eq]
  by_cases hxp : x = p
  · rw [hxp] at hx ⊢
    exact hst (hs.state_self ▸ hx)
  · rw [hs.state_of_ne x hxp] at hx
    exact hk.ready x hx

lemma saved (hk : k.Awake) (hx : savedState h k x = .ready) : savedOnRq h k x = true := by
  rw [savedOnRq, Bool.or_eq_true, decide_eq_true_eq]
  by_cases hpre : Preempted h k x
  · exact .inr hpre
  · rw [savedState, if_neg hpre] at hx
    exact .inl (hk.ready x hx)

lemma schedYield (hk : k.Awake) (h : Hart) (tf : TrapFrame) : (k.schedYield h tf).kernel.Awake := by
  refine ⟨hk.toRegistered.schedYield h tf, fun x hx => ?_⟩
  obtain ⟨-, -, hout⟩ := schedYield_outcome hk.sound h tf
  rcases hout.proc_cases x with hgo | ⟨hst, hon⟩
  · exact nomatch hgo.1.symm.trans hx
  · rw [hon]
    exact hk.saved (hst ▸ hx)

lemma acts (hact : Acts a k k') (hok : WakeOk a k) (hk : k.Awake) : k'.Awake := by
  have hreg : k'.Registered := by
    refine hk.toRegistered.acts hact fun c hc => ?_
    rw [hc] at hok
    exact hok
  cases hact with
  | quiet hsame =>
    refine ⟨hreg, fun x hx => ?_⟩
    rw [hsame.state_eq] at hx
    rw [hsame.onRq_eq]
    exact hk.ready x hx
  | ended code hmem => exact hk.of_setState (setState_ended code _ k) nofun
  | woken h hmem hwait =>
    rename_i p
    have hset := setState_modifyProc .ready p k
    have henq := enqueued_enqueue h p (k.modifyProc p fun r => { r with state := .ready })
    refine ⟨hreg, fun x hx => ?_⟩
    by_cases hxp : x = p
    · rw [hxp]
      exact henq.onRq_self
    · rw [henq.state_eq, hset.state_of_ne x hxp] at hx
      rw [henq.onRq_of_ne x hxp, hset.onRq_eq]
      exact hk.ready x hx
  | readied => exact hk.of_setState (setState_modifyProc .ready _ k) fun _ => hok
  | created h r hnew hready hoff =>
    rename_i q
    have henq := enqueued_enqueue h q
      { k with proc := Function.update k.proc q r, allProcs := q :: k.allProcs }
    refine ⟨hreg, fun x hx => ?_⟩
    by_cases hxq : x = q
    · rw [hxq]
      exact henq.onRq_self
    · have hproc : (k.withRecord h q r).proc x = k.proc x := proc_withRecord_of_ne hxq
      rw [hproc] at hx ⊢
      exact hk.ready x hx
  | reaped => exact ⟨hreg, hk.ready⟩
  | entered h hmem =>
    rename_i p
    have hrun := hk.of_setState (setState_modifyProc .running p k) nofun
    exact ⟨hreg, hrun.ready⟩
  | yielded h tf => exact hk.schedYield h tf
  | blocked h tf =>
    rcases startWaiting_cases h k with ⟨-, heq⟩ | ⟨p, -, hset⟩
    · rw [heq]
      exact hk.schedYield h tf
    · exact (hk.of_setState hset nofun).schedYield h tf

lemma boot (mm : Mm) : (Kernel.boot mm).Awake where
  toRegistered := (Dispatched.boot mm).toRegistered
  ready _ hp := nomatch hp

end Awake

/-- In a run in which no message wakes a process that stands in no run queue, and records are given up
only when they are not in use, every process that is ready stands in exactly one run queue. -/
theorem ready_linked {mm : Mm} {s : System}
    (hrun : Relation.ReflTransGen (SchedStep (SchedEvent.Meets WakeOk)) (System.boot mm) s) :
    ∀ p, (s.kernel.proc p).state = .ready → (s.kernel.proc p).onRq = true ∧ s.kernel.linkCount p = 1 := by
  have hs : s.kernel.Awake := SchedStep.invariant lenient_wakeOk Awake.acts (Awake.boot mm) hrun
  intro p hp
  have hon := hs.ready p hp
  refine ⟨hon, ?_⟩
  rw [hs.sound p, if_pos hon]

/-- A second process. -/
def createSecond : SchedEvent := .createUser 0 0x2000 0x10000 0x40000000 0 2 1 0 procRingUser 0 0

/-- The first process is put into a queue and the second one behind it. -/
theorem ready_linked_createSecond :
    ((createSecond.step (createInit.step (System.boot freshMm))).kernel.proc 0x2000).state = .ready ∧
      (createSecond.step (createInit.step (System.boot freshMm))).kernel.linkCount 0x2000 = 1 := by
  refine ⟨by decide +kernel, (ready_linked (.tail (.single (.event createInit ?_ trivial))
    (.event createSecond ?_ trivial)) 0x2000 (by decide +kernel)).2⟩
  · exact List.not_mem_nil
  · exact (by decide +kernel : 0x2000 ∉ (createInit.step (System.boot freshMm)).kernel.allProcs)

/-- The first process opens a channel with the second one and waits for a message. -/
def waitingReceiver : System :=
  [ createInit, createSecond, .yield 0 {}, .ipc (.create 1), .ipc (.connect 0 2),
    .ipc (.recv 0 0 1 (some {})) ].foldl (fun s e => SchedEvent.step e s) (System.boot freshMm)

lemma reach_waitingReceiver :
    Relation.ReflTransGen (SchedStep fun _ _ => True) (System.boot freshMm) waitingReceiver := by
  refine .tail (.tail (.tail (.tail (.tail (.single (.event createInit ?_ trivial))
    (.event createSecond ?_ trivial)) (.event (.yield 0 {}) trivial trivial))
    (.event (.ipc (.create 1)) trivial trivial)) (.event (.ipc (.connect 0 2)) trivial trivial))
    (.event (.ipc (.recv 0 0 1 (some {}))) ?_ trivial)
  · exact List.not_mem_nil
  · exact (by decide +kernel : 0x2000 ∉ (createInit.step (System.boot freshMm)).kernel.allProcs)
  · rw [SchedEvent.Possible]
    decide +kernel

/-- The second process sends one byte: the first one is ready and stands in no run queue. -/
theorem receiver_lost : ∃ s : System,
    Relation.ReflTransGen (SchedStep fun _ _ => True) (System.boot freshMm) s ∧
      (s.kernel.proc 0x1000).state = .ready ∧ (s.kernel.proc 0x1000).onRq = false ∧
      s.kernel.linkCount 0x1000 = 0 := by
  refine ⟨SchedEvent.step (.ipc (.send 0 0 [7] (some {}))) waitingReceiver,
    reach_waitingReceiver.tail (.event _ ?_ trivial), ?_⟩
  · rw [SchedEvent.Possible]
    decide +kernel
  · decide +kernel

end OnyxKernel.Kernel
