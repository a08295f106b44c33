import OnyxKernel.Proc.Events

/-!
# Which processes run

Two invariants of the scheduler.  A running process is current on one hart only and stands in no run
queue (`single_dispatch`), and a process that is ready stands in exactly one (`ready_linked`).  Neither
holds without conditions: at boot `enter_user` runs a process that `create_user` has put into a queue,
`sched_yield` continues with the current process after it has handed it over to the hart to which it is
pinned, and a process that a message has woken is ready without being put into a queue.
-/

namespace OnyxKernel.Kernel

open Option List SchedEvent ProcState Onx

open Function (update update_eq_self update_self update_of_ne)

variable {h : Hart} {tf : TrapFrame} {k k' : Kernel} {p q x : ℕ} {a : Act} {st : ProcState} {v h' : Hart}

/-! ### The outcome of `sched_yield` -/

/-- Is `x` the process that `sched_yield` puts back into the queue? -/
def Preempted (h : Hart) (k : Kernel) (x : ℕ) : Prop :=
  k.hartCurrent h = some x ∧ (k.proc x).state = .running

instance (h : Hart) (k : Kernel) (x : ℕ) : Decidable (Preempted h k x) :=
  inferInstanceAs (Decidable (_ ∧ _))

/-- The state of a process after the context has been saved. -/
def savedState (h : Hart) (k : Kernel) (x : ℕ) : ProcState :=
  if Preempted h k x then .ready else (k.proc x).state

/-- Its flag `on_rq` then. -/
def savedOnRq (h : Hart) (k : Kernel) (x : ℕ) : Bool := (k.proc x).onRq || decide (Preempted h k x)

lemma QueuesSound.of_eq (hk : k.QueuesSound) (hqueue : k'.runQueue = k.runQueue)
    (hon : ∀ p, (k'.proc p).onRq = (k.proc p).onRq) : k'.QueuesSound := by
  intro p
  rw [hon p, ← hk p, linkCount, linkCount, hqueue]

/-- The state of `p` has been set, and nothing else has changed that the scheduler looks at. -/
structure SetState (st : ProcState) (p : ℕ) (k k' : Kernel) : Prop where
  allProcs_eq : k'.allProcs = k.allProcs
  hartCurrent_eq : k'.hartCurrent = k.hartCurrent
  runQueue_eq : k'.runQueue = k.runQueue
  onRq_eq : ∀ x, (k'.proc x).onRq = (k.proc x).onRq
  state_self : (k'.proc p).state = st
  state_of_ne : ∀ x ≠ p, (k'.proc x).state = (k.proc x).state

lemma setState_of {f : Proc → Proc} (hstate : ∀ r, (f r).state = st)
    (hon : ∀ r, (f r).onRq = r.onRq) (p : ℕ) (k : Kernel) : SetState st p k (k.modifyProc p f) := by
  refine ⟨rfl, rfl, rfl, fun x => ?_, ?_, fun x hx => ?_⟩
  · by_cases hx : x = p
    · rw [hx, proc_modifyProc_self, hon]
    · rw [proc_modifyProc_of_ne hx]
  · rw [proc_modifyProc_self, hstate]
  · rw [proc_modifyProc_of_ne hx]

lemma setState_modifyProc (st : ProcState) (p : ℕ) (k : Kernel) :
    SetState st p k (k.modifyProc p fun r => { r with state := st }) := by
  apply setState_of <;> exact fun _ => rfl

lemma setState_ended (code : ℤ) (p : ℕ) (k : Kernel) :
    SetState .exited p k (k.modifyProc p (Proc.ended code)) := by
  apply setState_of <;> exact fun _ => rfl

lemma SameSched.setState (hs : k.SameSched k') (p : ℕ) : SetState (k.proc p).state p k k' :=
  ⟨hs.allProcs_eq, hs.hartCurrent_eq, hs.runQueue_eq, hs.onRq_eq, hs.state_eq p, fun x _ => hs.state_eq x⟩

lemma current_update {o : Option ℕ} (hx : update k.hartCurrent h o h' = some x) :
    h' = h ∧ o = some x ∨ h' ≠ h ∧ k.hartCurrent h' = some x := by
  by_cases hh : h' = h
  · rw [hh, update_self] at hx
    exact .inl ⟨hh, hx⟩
  · rw [update_of_ne hh] at hx
    exact .inr ⟨hh, hx⟩

/-- The state in which `sched_yield` looks for a process. -/
structure SavedAs (h : Hart) (k k1 : Kernel) : Prop where
  sound : k1.QueuesSound
  allProcs_eq : k1.allProcs = k.allProcs
  hartCurrent_eq : k1.hartCurrent = k.hartCurrent
  state_eq : ∀ x, (k1.proc x).state = savedState h k x
  onRq_eq : ∀ x, (k1.proc x).onRq = savedOnRq h k x

lemma savedAs_saveContext (hk : k.QueuesSound) (h : Hart) (tf : TrapFrame) :
    SavedAs h k (k.saveContext h tf) := by
  cases hcur : k.hartCurrent h with
  | none =>
    have hnot : ∀ x, ¬ Preempted h k x := fun x hx => by
      rw [Preempted, hcur] at hx
      exact nomatch hx.1
    rw [saveContext_of_none hcur]
    refine ⟨hk.of_eq rfl fun _ => rfl, rfl, rfl, fun x => ?_, fun x => ?_⟩
    · rw [savedState, if_neg (hnot x)]
    · rw [savedOnRq, decide_eq_false (hnot x), Bool.or_false]
  | some p =>
    have hsaved := saved_saveContext hcur tf
    have hself : Preempted h k p ↔ (k.proc p).state = .running := ⟨fun hx => hx.2, fun hr => ⟨hcur, hr⟩⟩
    have hother : ∀ x ≠ p, ¬ Preempted h k x := fun x hx hpre => by
      rw [Preempted, hcur] at hpre
      exact hx (some.inj hpre.1).symm
    refine ⟨hsaved.sound hk, ?_, ?_, fun x => ?_, fun x => ?_⟩
    · rw [hsaved.eq_update]
    · rw [hsaved.eq_update]
    · by_cases hx : x = p
      · rw [hx, hsaved.state_eq, savedState]
        simp only [hself]
      · rw [hsaved.proc_of_ne x hx, savedState, if_neg (hother x hx)]
    · by_cases hx : x = p
      · rw [hx, hsaved.onRq_eq, savedOnRq]
        simp only [hself]
      · rw [hsaved.proc_of_ne x hx, savedOnRq, decide_eq_false (hother x hx), Bool.or_false]

/-- How `sched_yield` ends: it switches to a process `q` that stood in a queue, it stays with the current
process, or it leaves the hart without a process. -/
inductive YieldOutcome (h : Hart) (tf : TrapFrame) (k k' : Kernel) : Prop
  | switched (q : ℕ) (hq : savedOnRq h k q = true)
      (hcur : k'.hartCurrent = update k.hartCurrent h (some q))
      (hrun : (k'.proc q).state = .running) (hoff : (k'.proc q).onRq = false)
      (hstate : ∀ x ≠ q, (k'.proc x).state = savedState h k x)
      (hon : ∀ x ≠ q, (k'.proc x).onRq = savedOnRq h k x) : YieldOutcome h tf k k'
  | stayed (p : ℕ) (hp : k.hartCurrent h = some p) (hnone : ((k.saveContext h tf).choose h).1 = none)
      (hcur : k'.hartCurrent = k.hartCurrent)
      (hrun : (k'.proc p).state = .running) (hstate : ∀ x ≠ p, (k'.proc x).state = savedState h k x)
      (hon : ∀ x, (k'.proc x).onRq = savedOnRq h k x) : YieldOutcome h tf k k'
  | idle (hcur : k'.hartCurrent = update k.hartCurrent h none)
      (hstate : ∀ x, (k'.proc x).state = savedState h k x)
      (hon : ∀ x, (k'.proc x).onRq = savedOnRq h k x) : YieldOutcome h tf k k'

lemma schedYield_outcome (hk : k.QueuesSound) (h : Hart) (tf : TrapFrame) :
    (k.schedYield h tf).kernel.QueuesSound ∧ (k.schedYield h tf).kernel.allProcs = k.allProcs ∧
      YieldOutcome h tf k (k.schedYield h tf).kernel := by
  have hsaved := savedAs_saveContext hk h tf
  rw [schedYield_eq]
  obtain ⟨k1, hk1⟩ : ∃ k1, k1 = k.saveContext h tf := ⟨_, rfl⟩
  rw [← hk1] at hsaved ⊢
  have hpicked := Picked.choose k1 h
  have hlist : (k1.choose h).2.allProcs = k.allProcs := by
    rw [hpicked.requeued.eq_update]
    exact hsaved.allProcs_eq
  have hcurs : (k1.choose h).2.hartCurrent = k.hartCurrent :=
    hpicked.requeued.hartCurrent_eq.trans hsaved.hartCurrent_eq
  have hstates : ∀ x, ((k1.choose h).2.proc x).state = savedState h k x := fun x =>
    (hpicked.requeued.state_eq x).trans (hsaved.state_eq x)
  have hflags := hpicked.onRq_eq hsaved.sound
  have hsound := hpicked.sound hsaved.sound
  rcases hr : k1.choose h with ⟨_ | q, k2⟩
  · have hnone : ((k.saveContext h tf).choose h).1 = none := by rw [← hk1, hr]
    rw [hr] at hlist hcurs hstates hflags hsound
    have hflags' : ∀ x, (k2.proc x).onRq = savedOnRq h k x := fun x =>
      (hflags x nofun).trans (hsaved.onRq_eq x)
    rw [resume, noneReady]
    split
    · rename_i hnone
      refine ⟨hsound.of_eq rfl fun _ => rfl, hlist, .idle ?_ hstates hflags'⟩
      rw [hcurs] at hnone
      rwa [← hnone, update_eq_self]
    · rename_i p hp
      split_ifs with hexit hzero
      · refine ⟨hsound.of_eq rfl fun _ => rfl, hlist, .idle ?_ hstates hflags'⟩
        rw [← hcurs]
        rfl
      · refine ⟨hsound.of_eq rfl fun _ => rfl, hlist, .idle ?_ hstates hflags'⟩
        rw [← hcurs]
        rfl
      · have hset := setState_modifyProc .running p k2
        refine ⟨hsound.of_eq hset.runQueue_eq hset.onRq_eq, hset.allProcs_eq.trans hlist,
          .stayed p (hcurs ▸ hp) hnone (hset.hartCurrent_eq.trans hcurs) hset.state_self (fun x hx => ?_)
          fun x => (hset.onRq_eq x).trans (hflags' x)⟩
        exact (hset.state_of_ne x hx).trans (hstates x)
  · rw [hr] at hlist hcurs hstates hflags hsound
    obtain ⟨hon, hoff⟩ := hpicked.taken hsaved.sound q (by rw [hr])
    rw [hr] at hoff
    have hset := setState_modifyProc .running q k2
    refine ⟨hsound.of_eq hset.runQueue_eq hset.onRq_eq, hset.allProcs_eq.trans hlist,
      .switched q ((hsaved.onRq_eq q).symm.trans hon) ?_ hset.state_self ((hset.onRq_eq q).trans hoff)
      (fun x hx => (hset.state_of_ne x hx).trans (hstates x)) fun x hx => ?_⟩
    · rw [← hcurs]
      rfl
    · refine (hset.onRq_eq x).trans ((hflags x fun heq => ?_).trans (hsaved.onRq_eq x))
      exact hx (some.inj heq).symm

/-- The process with which hart `h` goes on: one that stood in a queue, or its own. -/
def Resumes (h : Hart) (tf : TrapFrame) (k k' : Kernel) (x : ℕ) : Prop :=
  (k'.proc x).state = .running ∧ (savedOnRq h k x = true ∧ (k'.proc x).onRq = false ∨
    k.hartCurrent h = some x ∧ ((k.saveContext h tf).choose h).1 = none ∧ (k'.proc x).onRq = savedOnRq h k x)

namespace YieldOutcome

variable (hout : YieldOutcome h tf k k')
include hout

lemma proc_cases (x : ℕ) : Resumes h tf k k' x ∨
    (k'.proc x).state = savedState h k x ∧ (k'.proc x).onRq = savedOnRq h k x := by
  cases hout with
  | switched q hq hcur hrun hoff hstate hon =>
    by_cases hx : x = q
    · rw [hx]
      exact .inl ⟨hrun, .inl ⟨hq, hoff⟩⟩
    · exact .inr ⟨hstate x hx, hon x hx⟩
  | stayed p hp hnone hcur hrun hstate hon =>
    by_cases hx : x = p
    · rw [hx]
      exact .inl ⟨hrun, .inr ⟨hp, hnone, hon p⟩⟩
    · exact .inr ⟨hstate x hx, hon x⟩
  | idle hcur hstate hon => exact .inr ⟨hstate x, hon x⟩

lemma current_cases (hx : k'.hartCurrent h' = some x) :
    h' ≠ h ∧ k.hartCurrent h' = some x ∨ h' = h ∧ Resumes h tf k k' x := by
  cases hout with
  | switched q hq hcur hrun hoff hstate hon =>
    rw [hcur] at hx
    rcases current_update hx with ⟨hh, heq⟩ | hother
    · obtain rfl := some.inj heq
      exact .inr ⟨hh, hrun, .inl ⟨hq, hoff⟩⟩
    · exact .inl hother
  | stayed p hp hnone hcur hrun hstate hon =>
    rw [hcur] at hx
    by_cases hh : h' = h
    · obtain rfl : p = x := some.inj (hp.symm.trans (hh ▸ hx))
      exact .inr ⟨hh, hrun, .inr ⟨hp, hnone, hon p⟩⟩
    · exact .inl ⟨hh, hx⟩
  | idle hcur hstate hon =>
    rw [hcur] at hx
    rcases current_update hx with ⟨-, heq⟩ | hother
    · cases heq
    · exact .inl hother

end YieldOutcome

/-! ### Records -/

/-- The run queues are sound, and the processes in them and on the harts have records in the list of all
processes. -/
structure Registered (k : Kernel) : Prop where
  sound : k.QueuesSound
  listed : ∀ p, (k.proc p).onRq = true → p ∈ k.allProcs
  current_listed : ∀ h p, k.hartCurrent h = some p → p ∈ k.allProcs

/-- The process stands in no run queue and is not current on any hart. -/
def Undispatched (k : Kernel) (p : ℕ) : Prop := (k.proc p).onRq = false ∧ ∀ h, k.hartCurrent h ≠ some p

/-- `enqueue` sets the flag of one process and changes nothing else that matters here. -/
structure Enqueued (p : ℕ) (k k' : Kernel) : Prop where
  sound : k.QueuesSound → k'.QueuesSound
  allProcs_eq : k'.allProcs = k.allProcs
  hartCurrent_eq : k'.hartCurrent = k.hartCurrent
  state_eq : ∀ x, (k'.proc x).state = (k.proc x).state
  onRq_self : (k'.proc p).onRq = true
  onRq_of_ne : ∀ x ≠ p, (k'.proc x).onRq = (k.proc x).onRq

lemma enqueued_enqueue (h : Hart) (p : ℕ) (k : Kernel) : Enqueued p k (k.enqueue h p) := by
  have hreq := requeued_enqueue h p k
  refine ⟨fun hk => hk.enqueue h p, ?_, hreq.hartCurrent_eq, hreq.state_eq, onRq_enqueue_self h p k,
    fun x hx => ?_⟩
  · rw [hreq.eq_update]
  · rw [proc_enqueue_of_ne hx]

namespace Registered

section

variable (hk : k.Registered)
include hk


lemma of_setState (hs : SetState st p k k') : k'.Registered where
  sound := hk.sound.of_eq hs.runQueue_eq hs.onRq_eq
  listed p hp := by
    rw [hs.onRq_eq] at hp
    rw [hs.allProcs_eq]
    exact hk.listed p hp
  current_listed h p hp := by
    rw [hs.hartCurrent_eq] at hp
    rw [hs.allProcs_eq]
    exact hk.current_listed h p hp

lemma of_same (hs : k.SameSched k') : k'.Registered := hk.of_setState (hs.setState 0)

lemma of_enqueued (hs : Enqueued p k k') (hmem : p ∈ k.allProcs) : k'.Registered where
  sound := hs.sound hk.sound
  listed x hx := by
    rw [hs.allProcs_eq]
    by_cases hxp : x = p
    · rwa [hxp]
    · rw [hs.onRq_of_ne x hxp] at hx
      exact hk.listed x hx
  current_listed h x hx := by
    rw [hs.hartCurrent_eq] at hx
    rw [hs.allProcs_eq]
    exact hk.current_listed h x hx

lemma addRecord {r : Proc} (hnew : q ∉ k.allProcs) (hoff : r.onRq = false) :
    Registered { k with proc := update k.proc q r, allProcs := q :: k.allProcs } where
  sound := by
    have hq : (k.proc q).onRq = false := by
      by_contra hon
      exact hnew (hk.listed q (by simpa using hon))
    refine hk.sound.of_eq rfl fun x => ?_
    dsimp only
    by_cases hx : x = q
    · rw [hx, update_self, hoff, hq]
    · rw [update_of_ne hx]
  listed x hx := by
    dsimp only at hx ⊢
    by_cases hxq : x = q
    · rw [hxq]
      exact mem_cons_self
    · rw [update_of_ne hxq] at hx
      exact mem_cons_of_mem q (hk.listed x hx)
  current_listed h x hx := mem_cons_of_mem q (hk.current_listed h x hx)

lemma freeProc (hc : Undispatched k p) : (k.freeProc p).Registered where
  sound := hk.sound.of_eq rfl fun _ => rfl
  listed x hx := by
    have hne : x ≠ p := fun heq => by
      have hon : (k.proc x).onRq = true := hx
      rw [heq, hc.1] at hon
      cases hon
    exact (mem_erase_of_ne hne).mpr (hk.listed x hx)
  current_listed h x hx := by
    have hne : x ≠ p := fun heq => hc.2 h (heq ▸ hx)
    exact (mem_erase_of_ne hne).mpr (hk.current_listed h x hx)

lemma setCurrent (hmem : p ∈ k.allProcs) (h : Hart) : (k.setCurrentForHart h (some p)).Registered where
  sound := hk.sound.of_eq rfl fun _ => rfl
  listed := hk.listed
  current_listed h' x hx := by
    rcases current_update hx with ⟨-, heq⟩ | ⟨-, hcur⟩
    · rwa [← some.inj heq]
    · exact hk.current_listed h' x hcur

lemma listed_saved (hx : savedOnRq h k x = true) : x ∈ k.allProcs := by
  rw [savedOnRq, Bool.or_eq_true, decide_eq_true_eq] at hx
  rcases hx with hon | hpre
  · exact hk.listed x hon
  · exact hk.current_listed h x hpre.1

lemma schedYield (h : Hart) (tf : TrapFrame) : (k.schedYield h tf).kernel.Registered := by
  obtain ⟨hsound, hlist, hout⟩ := schedYield_outcome hk.sound h tf
  have hgo {x : ℕ} (hx : Resumes h tf k (k.schedYield h tf).kernel x) : x ∈ k.allProcs := by
    rcases hx.2 with ⟨hq, -⟩ | ⟨hcur, -⟩
    · exact hk.listed_saved hq
    · exact hk.current_listed h x hcur
  refine ⟨hsound, fun x hx => ?_, fun h' x hx => ?_⟩
  · rw [hlist]
    rcases hout.proc_cases x with hx' | ⟨-, hon⟩
    · exact hgo hx'
    · exact hk.listed_saved (hon ▸ hx)
  · rw [hlist]
    rcases hout.current_cases hx with ⟨-, hcur⟩ | ⟨-, hx'⟩
    · exact hk.current_listed h' x hcur
    · exact hgo hx'

end

end Registered

lemma startWaiting_cases (h : Hart) (k : Kernel) : k.hartCurrent h = none ∧ k.startWaiting h = k ∨
      ∃ p, k.hartCurrent h = some p ∧ SetState .waiting p k (k.startWaiting h) := by
  unfold startWaiting
  cases hcur : k.hartCurrent h with
  | none => exact .inl ⟨rfl, rfl⟩
  | some p => exact .inr ⟨p, rfl, setState_modifyProc .waiting p k⟩

lemma Registered.acts (hk : k.Registered) (hact : Acts a k k') (hreap : ∀ c, a = .reaped c → Undispatched k c) :
    k'.Registered := by
  cases hact with
  | quiet hsame => exact hk.of_same hsame
  | ended code hmem =>
    exact hk.of_setState (setState_ended code _ k)
  | woken h hmem hwait =>
    rename_i p
    have hset := setState_modifyProc .ready p k
    exact (hk.of_setState hset).of_enqueued (enqueued_enqueue h _ _) (hset.allProcs_eq ▸ hmem)
  | readied => exact hk.of_setState (setState_modifyProc .ready _ k)
  | created h r hnew hready hoff =>
    exact (hk.addRecord hnew hoff).of_enqueued (enqueued_enqueue h _ _) mem_cons_self
  | reaped => exact hk.freeProc (hreap _ rfl)
  | entered h hmem =>
    rename_i p
    have hset := setState_modifyProc .running p k
    exact (hk.of_setState hset).setCurrent (hset.allProcs_eq ▸ hmem) h
  | yielded h tf => exact hk.schedYield h tf
  | blocked h tf =>
    rcases startWaiting_cases h k with ⟨-, heq⟩ | ⟨p, -, hset⟩
    · rw [heq]
      exact hk.schedYield h tf
    · exact (hk.of_setState hset).schedYield h tf

/-! ### Single dispatch -/

/-- No process is current on two harts, and none that is current stands in a run queue. -/
structure Placed (k : Kernel) : Prop extends k.Registered where
  off_queue : ∀ h p, k.hartCurrent h = some p → (k.proc p).onRq = false
  unique : ∀ h h' p, k.hartCurrent h = some p → k.hartCurrent h' = some p → h = h'

/-- Moreover, none that is current waits. -/
structure Dispatched (k : Kernel) : Prop extends k.Placed where
  not_waiting : ∀ h p, k.hartCurrent h = some p → (k.proc p).state ≠ .waiting

/-- Hart `h` finds a process that it may run when it calls the scheduler: its own process does not run or
may stay, or its queue is not empty, or there is one to be stolen. -/
def FindsProcess (h : Hart) (k : Kernel) : Prop :=
  ∀ p, k.hartCurrent h = some p → (k.proc p).state = .running → k.pinnedElsewhere h p ≠ none →
    k.runQueue h = [] →
      ∃ v ≠ h, k.rqLocked v = false ∧ ∃ x ∈ (k.runQueue v).head?, k.pinnedElsewhere h x = none

/-- The condition for single dispatch. -/
def DispatchOk : Act → Kernel → Prop
  | .entered _ p, k => Undispatched k p
  | .reaped c, k => Undispatched k c
  | .yielded h _, k => FindsProcess h k
  | _, _ => True

lemma lenient_dispatchOk : Lenient DispatchOk where
  quiet _ := trivial
  ended _ _ := trivial
  woken _ _ _ := trivial
  created _ _ _ := trivial
  blocked _ _ _ := trivial
  readied _ _ _ _ := trivial

lemma pickNext_ne_none {y : ℕ} {rest : List ℕ} (hqueue : k.runQueue h = x :: y :: rest) :
    (k.pickNext h).1 ≠ none := by
  unfold pickNext
  rw [dequeue_of_cons hqueue]
  dsimp only
  split
  · rename_i a ha
    have hnext : ((k.relink x false h (y :: rest)).enqueue a x).runQueue h = y :: rest := by
      rw [runQueue_enqueue_of_ne (pinnedElsewhere_ne ha).symm, runQueue_relink_self]
    rw [dequeue_of_cons hnext]
    exact some_ne_none y
  · exact some_ne_none x

lemma choose_ne_none_of_pickNext (hpick : (k.pickNext h).1 ≠ none) : (k.choose h).1 ≠ none := by
  unfold choose
  split
  · exact some_ne_none _
  · rename_i hr
    rw [hr] at hpick
    exact absurd rfl hpick

lemma choose_ne_none_of_head {rest : List ℕ} (hq : k.runQueue h = x :: rest) (hpin : k.pinnedElsewhere h x = none) :
    (k.choose h).1 ≠ none := by
  apply choose_ne_none_of_pickNext
  unfold pickNext
  rw [dequeue_of_cons hq]
  dsimp only
  rw [(requeued_relink x false h rest k).pinnedElsewhere_eq, hpin]
  exact some_ne_none x

lemma choose_ne_none_of_stealable (hv : v ≠ h) (hlock : k.rqLocked v = false)
    (hx : x ∈ (k.runQueue v).head?) (hpin : k.pinnedElsewhere h x = none) : (k.choose h).1 ≠ none := by
  have hsteal {k2 : Kernel} (hreq : k.Requeued k2) (hx2 : x ∈ (k2.runQueue v).head?) (hpick : k.pickNext h = (none, k2)) :
      (k.choose h).1 ≠ none := by
    have hfound : (k2.steal h).1 ≠ none := by
      intro hnone
      have hstolen := stolen_steal h k2
      rw [Stolen, hnone] at hstolen
      refine hstolen.2 v (mem_victims.mpr hv) ?_ x hx2 ?_
      · rwa [hreq.eq_update]
      · rwa [hreq.pinnedElsewhere_eq]
    unfold choose
    rw [hpick]
    dsimp only
    split
    · exact some_ne_none _
    · rename_i hr
      rw [hr] at hfound
      exact absurd rfl hfound
  cases hq : k.runQueue h with
  | nil => exact hsteal (.refl k) hx (by rw [pickNext, dequeue_of_nil hq])
  | cons y rest =>
    cases hpiny : k.pinnedElsewhere h y with
    | none => exact choose_ne_none_of_head hq hpiny
    | some a =>
      cases rest with
      | cons z zs => exact choose_ne_none_of_pickNext (pickNext_ne_none hq)
      | nil =>
        -- the only process of the own queue is passed on, and the queue is empty then
        have hempty : ((k.relink y false h []).enqueue a y).runQueue h = [] := by
          rw [runQueue_enqueue_of_ne (pinnedElsewhere_ne hpiny).symm, runQueue_relink_self]
        refine hsteal ((requeued_relink y false h [] k).trans (requeued_enqueue a y _)) ?_ ?_
        · apply head?_enqueue
          rwa [runQueue_relink_of_ne hv]
        · unfold pickNext
          rw [dequeue_of_cons hq]
          dsimp only
          rw [(requeued_relink y false h [] k).pinnedElsewhere_eq, hpiny]
          dsimp only
          rw [dequeue_of_nil hempty]

lemma choose_ne_none (hk : k.Placed) (hp : Preempted h k p) (hfind : FindsProcess h k) (tf : TrapFrame) :
    ((k.saveContext h tf).choose h).1 ≠ none := by
  have hsaved := saved_saveContext hp.1 tf
  generalize k.saveContext h tf = k1 at hsaved ⊢
  have hqueue : k1.runQueue = update k.runQueue h (k.runQueue h ++ [p]) := by
    rw [hsaved.queue_eq, if_pos ⟨hp.2, hk.off_queue h p hp.1⟩]
  have hown : k1.runQueue h = k.runQueue h ++ [p] := by rw [hqueue, update_self]
  have hpins : ∀ x, k1.pinnedElsewhere h x = k.pinnedElsewhere h x := fun x => by
    rw [pinnedElsewhere, pinnedElsewhere]
    by_cases hx : x = p
    · rw [hx, hsaved.proc_self]
    · rw [hsaved.proc_of_ne x hx]
  cases hq : k.runQueue h with
  | cons y rest =>
    rw [hq] at hown
    apply choose_ne_none_of_pickNext
    cases rest with
    | nil => exact pickNext_ne_none hown
    | cons z zs => exact pickNext_ne_none hown
  | nil =>
    rw [hq, nil_append] at hown
    cases hpin : k.pinnedElsewhere h p with
    | none => exact choose_ne_none_of_head hown ((hpins p).trans hpin)
    | some a =>
      -- the own process is passed on, and another one is stolen
      obtain ⟨v, hv, hlock, x, hx, hxpin⟩ := hfind p hp.1 hp.2 (hpin ▸ some_ne_none a) hq
      refine choose_ne_none_of_stealable (x := x) hv ?_ ?_ ((hpins x).trans hxpin)
      · rwa [hsaved.eq_update]
      · rwa [hqueue, update_of_ne hv]

namespace Placed

section

variable (hk : k.Placed)
include hk


lemma of_setState (hs : SetState st p k k') : k'.Placed where
  toRegistered := hk.toRegistered.of_setState hs
  off_queue h p hp := by
    rw [hs.hartCurrent_eq] at hp
    rw [hs.onRq_eq]
    exact hk.off_queue h p hp
  unique := by
    rw [hs.hartCurrent_eq]
    exact hk.unique

lemma of_same (hs : k.SameSched k') : k'.Placed := hk.of_setState (hs.setState 0)

lemma of_enqueued (hs : Enqueued p k k') (hmem : p ∈ k.allProcs)
    (hidle : ∀ h, k.hartCurrent h ≠ some p) : k'.Placed where
  toRegistered := hk.toRegistered.of_enqueued hs hmem
  off_queue h x hx := by
    rw [hs.hartCurrent_eq] at hx
    have hne : x ≠ p := fun heq => hidle h (heq ▸ hx)
    rw [hs.onRq_of_ne x hne]
    exact hk.off_queue h x hx
  unique := by
    rw [hs.hartCurrent_eq]
    exact hk.unique

lemma saved_of_current (hh : h' ≠ h) (hx : k.hartCurrent h' = some x) :
    savedOnRq h k x = false ∧ savedState h k x = (k.proc x).state := by
  have hnot : ¬ Preempted h k x := fun hpre => hh (hk.unique h' h x hx hpre.1)
  constructor
  · rw [savedOnRq, hk.off_queue h' x hx, decide_eq_false hnot, Bool.or_false]
  · rw [savedState, if_neg hnot]

lemma not_current_of_saved (hh : h' ≠ h) (hq : savedOnRq h k q = true) :
    k.hartCurrent h' ≠ some q := fun hcur => by
  rw [(hk.saved_of_current hh hcur).1] at hq
  cases hq

lemma schedYield (tf : TrapFrame) (hstay : ∀ p, Preempted h k p → ((k.saveContext h tf).choose h).1 ≠ none) :
    (k.schedYield h tf).kernel.Placed := by
  obtain ⟨-, -, hout⟩ := schedYield_outcome hk.sound h tf
  -- the process with which the hart goes on is in no queue and on no other hart
  have hgo {x : ℕ} (hx : Resumes h tf k (k.schedYield h tf).kernel x) :
      ((k.schedYield h tf).kernel.proc x).onRq = false ∧ ∀ h' ≠ h, k.hartCurrent h' ≠ some x := by
    rcases hx.2 with ⟨hq, hoff⟩ | ⟨hcur, hnone, hon⟩
    · exact ⟨hoff, fun h' hh => hk.not_current_of_saved hh hq⟩
    · have hnot : ¬ Preempted h k x := fun hpre => hstay x hpre hnone
      refine ⟨?_, fun h' hh hcur' => hh (hk.unique h' h x hcur' hcur)⟩
      rw [hon, savedOnRq, hk.off_queue h x hcur, decide_eq_false hnot, Bool.or_false]
  refine ⟨hk.toRegistered.schedYield h tf, fun h' x hx => ?_, fun h1 h2 x h1x h2x => ?_⟩
  · rcases hout.current_cases hx with ⟨hh, hcur⟩ | ⟨-, hx'⟩
    · rcases hout.proc_cases x with hx' | ⟨-, hon⟩
      · exact (hgo hx').1
      · exact hon.trans (hk.saved_of_current hh hcur).1
    · exact (hgo hx').1
  · rcases hout.current_cases h1x with ⟨hh1, hcur1⟩ | ⟨hh1, hx1⟩
    · rcases hout.current_cases h2x with ⟨-, hcur2⟩ | ⟨-, hx2⟩
      · exact hk.unique h1 h2 x hcur1 hcur2
      · exact absurd hcur1 ((hgo hx2).2 h1 hh1)
    · rcases hout.current_cases h2x with ⟨hh2, hcur2⟩ | ⟨hh2, -⟩
      · exact absurd hcur2 ((hgo hx1).2 h2 hh2)
      · exact hh1.trans hh2.symm

/-- After a call of the scheduler no current process waits, whatever the process of the hart did
before. -/
theorem dispatched_schedYield (tf : TrapFrame)
    (hstay : ∀ p, Preempted h k p → ((k.saveContext h tf).choose h).1 ≠ none)
    (hwait : ∀ h' p, h' ≠ h → k.hartCurrent h' = some p → (k.proc p).state ≠ .waiting) :
    (k.schedYield h tf).kernel.Dispatched := by
  refine ⟨hk.schedYield tf hstay, fun h' x hx => ?_⟩
  obtain ⟨-, -, hout⟩ := schedYield_outcome hk.sound h tf
  rcases hout.current_cases hx with ⟨hh, hcur⟩ | ⟨-, hgo⟩
  · rcases hout.proc_cases x with hgo | ⟨hst, -⟩
    · exact hgo.1.trans_ne noConfusion
    · rw [hst, (hk.saved_of_current hh hcur).2]
      exact hwait h' x hh hcur
  · exact hgo.1.trans_ne noConfusion

end

end Placed

namespace Dispatched

lemma acts (hact : Acts a k k') (hok : DispatchOk a k) (hk : k.Dispatched) : k'.Dispatched := by
  have hsetState : ∀ {st p k'}, SetState st p k k' → st ≠ .waiting → k'.Dispatched := by
    intro st p k' hs hst
    refine ⟨hk.toPlaced.of_setState hs, fun h x hx => ?_⟩
    by_cases hxp : x = p
    · rwa [hxp, hs.state_self]
    · rw [hs.hartCurrent_eq] at hx
      rw [hs.state_of_ne x hxp]
      exact hk.not_waiting h x hx
  have hyield : ∀ {k' h} tf, k'.Placed → (∀ p, ¬ Preempted h k' p) →
      (∀ h' p, h' ≠ h → k'.hartCurrent h' = some p → (k'.proc p).state ≠ .waiting) →
      (k'.schedYield h tf).kernel.Dispatched := fun tf hk' hnot hwait =>
    hk'.dispatched_schedYield tf (fun p hpre => absurd hpre (hnot p)) hwait
  cases hact with
  | quiet hsame =>
    refine ⟨hk.toPlaced.of_same hsame, fun h x hx => ?_⟩
    rw [hsame.hartCurrent_eq] at hx
    rw [hsame.state_eq]
    exact hk.not_waiting h x hx
  | ended code hmem => exact hsetState (setState_ended code _ k) noConfusion
  | woken h hmem hwait =>
    rename_i p
    have hset := setState_modifyProc .ready p k
    have henq := enqueued_enqueue h p (k.modifyProc p fun r => { r with state := .ready })
    have hready := hsetState hset noConfusion
    have hidle : ∀ h', (k.modifyProc p fun r => { r with state := .ready }).hartCurrent h' ≠ some p :=
      fun h' hcur => hk.not_waiting h' p (hset.hartCurrent_eq ▸ hcur) hwait
    refine ⟨hready.toPlaced.of_enqueued henq (hset.allProcs_eq ▸ hmem) hidle, fun h' x hx => ?_⟩
    rw [henq.hartCurrent_eq] at hx
    rw [henq.state_eq]
    exact hready.not_waiting h' x hx
  | readied => exact hsetState (setState_modifyProc .ready _ k) noConfusion
  | created h r hnew hready hoff =>
    rename_i q
    have henq := enqueued_enqueue h q
      { k with proc := update k.proc q r, allProcs := q :: k.allProcs }
    have hidle : ∀ h', k.hartCurrent h' ≠ some q := fun h' hcur => hnew (hk.current_listed h' q hcur)
    have hproc : ∀ h' x, k.hartCurrent h' = some x → update k.proc q r x = k.proc x :=
      fun h' x hcur => by
        have hne : x ≠ q := fun heq => hidle h' (heq ▸ hcur)
        exact update_of_ne hne ..
    have hplaced : Placed { k with proc := update k.proc q r, allProcs := q :: k.allProcs } :=
      ⟨hk.toRegistered.addRecord hnew hoff,
        fun h' x hx => (congrArg Proc.onRq (hproc h' x hx)).trans (hk.off_queue h' x hx), hk.unique⟩
    refine ⟨hplaced.of_enqueued henq mem_cons_self hidle, fun h' x hx => ?_⟩
    have hcur : k.hartCurrent h' = some x := by
      rw [← hx]
      exact congrFun henq.hartCurrent_eq.symm h'
    have hst : ((k.withRecord h q r).proc x).state = (k.proc x).state :=
      (henq.state_eq x).trans (congrArg Proc.state (hproc h' x hcur))
    rw [hst]
    exact hk.not_waiting h' x hcur
  | reaped =>
    exact ⟨⟨hk.toRegistered.freeProc hok, hk.off_queue, hk.unique⟩, hk.not_waiting⟩
  | entered h hmem =>
    rename_i p
    have hset := setState_modifyProc .running p k
    have hrun := hsetState hset noConfusion
    obtain ⟨hoff, hidle⟩ := hok
    have hcases : ∀ {h' x}, ((k.modifyProc p fun r => { r with state := .running }).setCurrentForHart h
        (some p)).hartCurrent h' = some x → h' = h ∧ x = p ∨ h' ≠ h ∧ x ≠ p ∧ k.hartCurrent h' = some x := by
      intro h' x hx
      rcases current_update hx with ⟨hh, heq⟩ | ⟨hh, hcur⟩
      · exact .inl ⟨hh, (some.inj heq).symm⟩
      · exact .inr ⟨hh, fun heq => hidle h' (heq ▸ hcur), hcur⟩
    refine ⟨⟨hrun.toRegistered.setCurrent (hset.allProcs_eq ▸ hmem) h, fun h' x hx => ?_,
      fun h1 h2 x h1x h2x => ?_⟩, fun h' x hx => ?_⟩
    · refine (hset.onRq_eq x).trans ?_
      rcases hcases hx with ⟨-, rfl⟩ | ⟨-, -, hcur⟩
      · exact hoff
      · exact hk.off_queue h' x hcur
    · rcases hcases h1x with ⟨rfl, rfl⟩ | ⟨-, hne1, hcur1⟩
      · rcases hcases h2x with ⟨rfl, -⟩ | ⟨-, hne2, -⟩
        · rfl
        · exact absurd rfl hne2
      · rcases hcases h2x with ⟨-, heq⟩ | ⟨-, -, hcur2⟩
        · exact absurd heq hne1
        · exact hk.unique h1 h2 x hcur1 hcur2
    · rcases hcases hx with ⟨-, rfl⟩ | ⟨-, -, hcur⟩
      · exact hset.state_self.trans_ne noConfusion
      · exact hrun.not_waiting h' x hcur
  | yielded h tf =>
    exact hk.toPlaced.dispatched_schedYield tf (fun p hpre => choose_ne_none hk.toPlaced hpre hok tf)
      fun h' p _ hcur => hk.not_waiting h' p hcur
  | blocked h tf =>
    rcases startWaiting_cases h k with ⟨hnone, heq⟩ | ⟨p, hp, hset⟩
    · rw [heq]
      refine hyield tf hk.toPlaced (fun p hpre => ?_) fun h' p _ hcur => hk.not_waiting h' p hcur
      rw [Preempted, hnone] at hpre
      exact nomatch hpre.1
    · refine hyield tf (hk.toPlaced.of_setState hset) (fun x hpre => ?_) fun h' x hh hcur => ?_
      · rw [Preempted, hset.hartCurrent_eq, hp] at hpre
        rw [← some.inj hpre.1, hset.state_self] at hpre
        exact nomatch hpre.2
      · rw [hset.hartCurrent_eq] at hcur
        have hne : x ≠ p := fun heq => hh (hk.unique h' h x hcur (heq ▸ hp))
        rw [hset.state_of_ne x hne]
        exact hk.not_waiting h' x hcur

lemma boot (mm : Mm) : (Kernel.boot mm).Dispatched where
  sound p := by
    exact Finset.sum_eq_zero fun _ _ => rfl
  listed _ hp := nomatch hp
  current_listed _ _ hp := nomatch hp
  off_queue _ _ hp := nomatch hp
  unique _ _ _ hp := nomatch hp
  not_waiting _ _ hp := nomatch hp

end Dispatched

/-- In a run in which `enter_user` is used for processes only that are not queued, records are given up
only when they are not in use, and a hart whose process has to move finds another one, every running
process is current on one hart only and stands in no run queue. -/
theorem single_dispatch {mm : Mm} {s : System}
    (hrun : Relation.ReflTransGen (SchedStep (SchedEvent.Meets DispatchOk)) (System.boot mm) s) :
    ∀ h p, s.kernel.hartCurrent h = some p → (s.kernel.proc p).state = .running →
      (∀ h', s.kernel.hartCurrent h' = some p → h' = h) ∧ ∀ h', p ∉ s.kernel.runQueue h' := by
  have hs : s.kernel.Dispatched :=
    SchedStep.invariant lenient_dispatchOk Dispatched.acts (Dispatched.boot mm) hrun
  intro h p hp _
  refine ⟨fun h' hp' => hs.unique h' h p hp' hp, fun h' hmem => ?_⟩
  have hon := hs.sound.onRq_of_mem hmem
  rw [hs.off_queue h p hp] at hon
  cases hon

/-- The first process, as `launch` creates it. -/
def createInit : SchedEvent := .createUser 0 0x1000 0x10000 0x40000000 0 procPidInit 0 0 procRingUser 0 0

/-- A hart without a process that calls the scheduler takes the first process. -/
theorem single_dispatch_createInit :
    (step (.yield 0 {}) (createInit.step (System.boot freshMm))).kernel.hartCurrent 0 =
        some 0x1000 ∧
      0x1000 ∉ (step (.yield 0 {}) (createInit.step (System.boot freshMm))).kernel.runQueue 0 := by
  refine ⟨by decide +kernel, (single_dispatch (.tail (.single (.event createInit ?_ trivial))
    (.event (.yield 0 {}) trivial ?_)) 0 0x1000 (by decide +kernel) (by decide +kernel)).2 0⟩
  · exact not_mem_nil
  · intro p hp
    have hnone : (createInit.step (System.boot freshMm)).kernel.hartCurrent 0 = none := by decide +kernel
    rw [hnone] at hp
    cases hp

/-- `launch`: the first process runs and stands in the queue of its hart. -/
theorem launch_dispatches_twice : ∃ s : System,
    Relation.ReflTransGen (SchedStep fun _ _ => True) (System.boot freshMm) s ∧
      s.kernel.hartCurrent 0 = some 0x1000 ∧ (s.kernel.proc 0x1000).state = .running ∧
      0x1000 ∈ s.kernel.runQueue 0 := by
  refine ⟨step (.enterUser 0 procPidInit) (createInit.step (System.boot freshMm)),
    .tail (.single (.event createInit ?_ trivial)) (.event (.enterUser 0 procPidInit) trivial trivial), ?_⟩
  · exact not_mem_nil
  · decide +kernel

end OnyxKernel.Kernel
