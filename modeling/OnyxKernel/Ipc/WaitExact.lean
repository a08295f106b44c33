import OnyxKernel.Ipc.WaitLists
import OnyxKernel.Proc.Dispatch
import OnyxKernel.Proc.Family

/-!
# Who stands in the wait lists

The wait lists of the channels should contain exactly the processes that wait for the channels.  Signals and
exits of children wake a process without taking it out of its list, `close` and `create` forget about the
processes in the lists of a channel, and `sched_yield` lets a process go on that has just been put into a list
when there is no other process to run.  Without these cases the lists are exact (`waits_exact`).
-/

namespace OnyxKernel

open List Option Nat Ipc Onx

open Function (update update_self update_of_ne)

namespace Ipc

variable {next next' : ℕ → Option ℕ} {head : Option ℕ} {l : List ℕ} {p q : ℕ}

/-- The links lead from `head` through the processes `l` to the end. -/
def Listed (next : ℕ → Option ℕ) : Option ℕ → List ℕ → Prop
  | head, [] => head = none
  | head, p :: l => head = some p ∧ Listed next (next p) l

lemma Listed.congr (hl : Listed next head l) (hnext : ∀ p ∈ l, next' p = next p) : Listed next' head l := by
  induction l generalizing head with
  | nil => exact hl
  | cons p l ih =>
    refine ⟨hl.1, ?_⟩
    rw [hnext p mem_cons_self]
    exact ih hl.2 fun q hq => hnext q (mem_cons_of_mem p hq)

lemma Listed.cons (hl : Listed next head l) (hp : p ∉ l) : Listed (update next p head) (some p) (p :: l) := by
  refine ⟨rfl, ?_⟩
  rw [update_self]
  exact hl.congr fun q hq => update_of_ne (ne_of_mem_of_not_mem hq hp) ..

lemma Listed.next_mem (hl : Listed next head l) (hp : p ∈ l) (hq : next p = some q) : q ∈ l := by
  induction l generalizing head with
  | nil => exact absurd hp not_mem_nil
  | cons a l ih =>
    rcases mem_cons.mp hp with rfl | hp
    · cases l with
      | nil => exact nomatch (hl.2 : next p = none).symm.trans hq
      | cons b l =>
        obtain rfl : q = b := some.inj (hq.symm.trans hl.2.1)
        simp
    · exact mem_cons_of_mem a (ih hl.2 hp)

lemma Reached.of_next (hr : Reached next (next p) q) : Reached next (some p) q := by
  induction hr with
  | first hq => exact .later (.first rfl) hq
  | later _ hq ih => exact ih.later hq

lemma Listed.reached_iff (hl : Listed next head l) : Reached next head p ↔ p ∈ l := by
  constructor
  · intro hr
    induction hr with
    | first hp =>
      cases l with
      | nil => exact nomatch (hl : head = none).symm.trans hp
      | cons a l => exact some.inj (hp.symm.trans hl.1) ▸ mem_cons_self
    | later _ hq ih => exact hl.next_mem ih hq
  · intro hp
    induction l generalizing head with
    | nil => exact absurd hp not_mem_nil
    | cons a l ih =>
      rcases mem_cons.mp hp with rfl | hp
      · exact .first hl.1
      · rw [hl.1]
        exact (ih hl.2 hp).of_next

/-- `wait_wake_all` comes to the processes of the list and clears their links. -/
theorem waitChain_eq {fuel : ℕ} (hl : Listed next head l) (hnodup : l.Nodup) (hfuel : l.length ≤ fuel) :
    waitChain fuel next head = (l, fun q => if q ∈ l then none else next q) := by
  induction fuel generalizing next head l with
  | zero =>
    obtain rfl : l = [] := length_eq_zero_iff.mp (le_zero.mp hfuel)
    simp [waitChain]
  | succ fuel ih =>
    cases l with
    | nil =>
      rw [show head = none from hl]
      simp [waitChain]
    | cons p l =>
      obtain ⟨hout, hnodup'⟩ := nodup_cons.mp hnodup
      have hrest : Listed (update next p none) (next p) l :=
        hl.2.congr fun q hq => update_of_ne (ne_of_mem_of_not_mem hq hout) ..
      rw [hl.1, waitChain, ih hrest hnodup' (le_of_succ_le_succ hfuel)]
      refine Prod.ext rfl (funext fun q => ?_)
      by_cases hq : q = p
      · simp [hq]
      · simp [hq]

end Ipc

namespace Kernel

variable {k k' : Kernel} {h : Hart} {tf : TrapFrame} {p q c x : ℕ} {W V : ℕ → Prop}

/-! ### Processes that are left in peace -/

/-- The processes `W` wait and are nowhere else, and no process outside `W` waits for which `V` holds. -/
structure Parks (W V : ℕ → Prop) (k : Kernel) : Prop extends k.Registered where
  waiting : ∀ p, W p → (k.proc p).state = .waiting
  apart : ∀ p, W p → Undispatched k p
  parked_listed : ∀ p, W p → p ∈ k.allProcs
  fresh : ∀ p, (k.proc p).state = .waiting → V p → W p
  address : ∀ p ∈ k.allProcs, p < wordSize

namespace Parks

section

variable (hk : Parks W V k)
include hk

lemma frame {W' V' : ℕ → Prop} (hreg : k'.Registered) (hsub : ∀ x, W' x → W x) (hall : k'.allProcs = k.allProcs)
    (hcur : k'.hartCurrent = k.hartCurrent)
    (hW : ∀ x, W' x → (k'.proc x).state = (k.proc x).state ∧ (k'.proc x).onRq = (k.proc x).onRq)
    (hV : ∀ x, (k'.proc x).state = .waiting → V' x → W' x) : Parks W' V' k' where
  toRegistered := hreg
  waiting x hx := (hW x hx).1.trans (hk.waiting x (hsub x hx))
  apart x hx := by
    rw [Undispatched, (hW x hx).2, hcur]
    exact hk.apart x (hsub x hx)
  parked_listed x hx := hall ▸ hk.parked_listed x (hsub x hx)
  fresh := hV
  address := hall ▸ hk.address

lemma of_same (hs : k.SameSched k') : Parks W V k' := by
  refine hk.frame (hk.toRegistered.of_same hs) (fun _ hx => hx) hs.allProcs_eq hs.hartCurrent_eq
    (fun x _ => ⟨hs.state_eq x, hs.onRq_eq x⟩) fun x hx => ?_
  rw [hs.state_eq] at hx
  exact hk.fresh x hx

lemma setState {st : ProcState} (hs : SetState st p k k') (hp : ¬W p)
    (hst : st = .waiting → ¬V p) : Parks W V k' := by
  refine hk.frame (hk.toRegistered.of_setState hs) (fun _ hx => hx) hs.allProcs_eq hs.hartCurrent_eq
    (fun x hx => ⟨hs.state_of_ne x fun heq => hp (heq ▸ hx), hs.onRq_eq x⟩) fun x hx hv => ?_
  by_cases hxp : x = p
  · rw [hxp, hs.state_self] at hx
    exact absurd (hxp ▸ hv) (hst hx)
  · rw [hs.state_of_ne x hxp] at hx
    exact hk.fresh x hx hv

lemma enqueued (hs : Enqueued p k k') (hmem : p ∈ k.allProcs) (hp : ¬W p) : Parks W V k' := by
  refine hk.frame (hk.toRegistered.of_enqueued hs hmem) (fun _ hx => hx) hs.allProcs_eq hs.hartCurrent_eq
    (fun x hx => ⟨hs.state_eq x, hs.onRq_of_ne x fun heq => hp (heq ▸ hx)⟩) fun x hx => ?_
  rw [hs.state_eq] at hx
  exact hk.fresh x hx

lemma woken (hmem : p ∈ k.allProcs) (hp : ¬W p) (h : Hart) :
    Parks W V ((k.modifyProc p fun r => { r with state := .ready }).enqueue h p) := by
  have hset := setState_modifyProc .ready p k
  exact (hk.setState hset hp nofun).enqueued (enqueued_enqueue h _ _) (hset.allProcs_eq ▸ hmem) hp

lemma withRecord {r : Proc} (hnew : q ∉ k.allProcs) (haddr : q < wordSize)
    (hready : r.state = .ready) (hoff : r.onRq = false) : Parks W V (k.withRecord h q r) := by
  have hq : ¬W q := fun hw => hnew (hk.parked_listed q hw)
  have hne {x : ℕ} (hx : W x) : x ≠ q := fun heq => hq (heq ▸ hx)
  refine Parks.enqueued (k := { k with proc := update k.proc q r, allProcs := q :: k.allProcs })
    { hk.toRegistered.addRecord hnew hoff with
      waiting := fun x hx => ?_, apart := fun x hx => ?_, parked_listed := fun x hx => ?_, fresh := fun x hx hv => ?_
      address := fun x hx => ?_ }
    (enqueued_enqueue h _ _) mem_cons_self hq
  · dsimp only
    rw [update_of_ne (hne hx)]
    exact hk.waiting x hx
  · unfold Undispatched
    dsimp only
    rw [update_of_ne (hne hx)]
    exact hk.apart x hx
  · exact mem_cons_of_mem q (hk.parked_listed x hx)
  · dsimp only at hx
    by_cases hxq : x = q
    · rw [hxq, update_self, hready] at hx
      cases hx
    · rw [update_of_ne hxq] at hx
      exact hk.fresh x hx hv
  · rcases mem_cons.mp hx with rfl | hx
    · exact haddr
    · exact hk.address x hx

lemma freeProc (hc : Undispatched k c) (hw : ¬W c) : Parks W V (k.freeProc c) where
  toRegistered := hk.toRegistered.freeProc hc
  waiting := hk.waiting
  apart := hk.apart
  parked_listed p hp := by
    have hne : p ≠ c := fun heq => hw (heq ▸ hp)
    exact (mem_erase_of_ne hne).mpr (hk.parked_listed p hp)
  fresh := hk.fresh
  address p hp := hk.address p (mem_of_mem_erase hp)

lemma setCurrent (hmem : p ∈ k.allProcs) (hp : ¬W p) (h : Hart) :
    Parks W V (k.setCurrentForHart h (some p)) where
  toRegistered := hk.toRegistered.setCurrent hmem h
  waiting := hk.waiting
  apart x hx := by
    refine ⟨(hk.apart x hx).1, fun h' hcur => ?_⟩
    rcases current_update hcur with ⟨-, heq⟩ | ⟨-, hcur⟩
    · exact hp (some.inj heq ▸ hx)
    · exact (hk.apart x hx).2 h' hcur
  parked_listed := hk.parked_listed
  fresh := hk.fresh
  address := hk.address

end

/-- The scheduler leaves processes in peace that wait and stand in no queue.  One of them may be current, if
another process is found. -/
theorem of_schedYield (hreg : k.Registered) (hwait : ∀ x, W x → (k.proc x).state = .waiting)
    (hoff : ∀ x, W x → (k.proc x).onRq = false) (helse : ∀ x, W x → ∀ h' ≠ h, k.hartCurrent h' ≠ some x)
    (hfound : ∀ x, W x → k.hartCurrent h = some x → ((k.saveContext h tf).choose h).1 ≠ none)
    (hlist : ∀ x, W x → x ∈ k.allProcs) (hfresh : ∀ x, (k.proc x).state = .waiting → V x → W x)
    (haddr : ∀ p ∈ k.allProcs, p < wordSize) : Parks W V (k.schedYield h tf).kernel := by
  obtain ⟨-, hall, hout⟩ := schedYield_outcome hreg.sound h tf
  have hnot {x : ℕ} (hx : W x) : ¬Preempted h k x := fun hpre => by
    have hrun := hpre.2
    rw [hwait x hx] at hrun
    cases hrun
  have hon0 {x : ℕ} (hx : W x) : savedOnRq h k x = false := by
    rw [savedOnRq, hoff x hx, decide_eq_false (hnot hx), Bool.or_false]
  -- none of them is the process with which the hart goes on
  have hother {x : ℕ} (hx : W x) : ¬Resumes h tf k (k.schedYield h tf).kernel x := by
    rintro ⟨-, ⟨hq, -⟩ | ⟨hcur, hnone, -⟩⟩
    · rw [hon0 hx] at hq
      cases hq
    · exact hfound x hx hcur hnone
  have hsaved {x : ℕ} (hx : W x) := (hout.proc_cases x).resolve_left (hother hx)
  refine { hreg.schedYield h tf with
    waiting := fun x hx => ?_, apart := fun x hx => ⟨?_, fun h' hcur => ?_⟩
    parked_listed := fun x hx => hall ▸ hlist x hx, fresh := fun x hx hv => ?_, address := hall ▸ haddr }
  · rw [(hsaved hx).1, savedState, if_neg (hnot hx), hwait x hx]
  · rw [(hsaved hx).2, hon0 hx]
  · rcases hout.current_cases hcur with ⟨hh, hcur⟩ | ⟨-, hgo⟩
    · exact helse x hx h' hh hcur
    · exact hother hx hgo
  · rcases hout.proc_cases x with hgo | ⟨hst, -⟩
    · cases hgo.1.symm.trans hx
    · rw [hst, savedState] at hx
      split_ifs at hx
      exact hfresh x hx hv

lemma schedYield (hk : Parks W V k) (h : Hart) (tf : TrapFrame) : Parks W V (k.schedYield h tf).kernel :=
  of_schedYield hk.toRegistered hk.waiting (fun x hx => (hk.apart x hx).1)
    (fun x hx h' _ => (hk.apart x hx).2 h') (fun x hx hcur => absurd hcur ((hk.apart x hx).2 h))
    hk.parked_listed hk.fresh hk.address

lemma startWaiting (hk : Parks W V k) (h : Hart) (hcur : ∀ p, k.hartCurrent h = some p → ¬V p) :
    Parks W V (k.startWaiting h) := by
  rcases startWaiting_cases h k with ⟨-, heq⟩ | ⟨p, hp, hset⟩
  · rwa [heq]
  · exact hk.setState hset (fun hw => (hk.apart p hw).2 h hp) fun _ => hcur p hp

end Parks

namespace Parks

lemma anti {V' : ℕ → Prop} (hk : Parks W V k) (hV : ∀ p, V' p → V p) : Parks W V' k :=
  { hk with fresh := fun p hp hv => hk.fresh p hp (hV p hv) }

lemma readied (hk : Parks W V k) (p : ℕ) :
    Parks (fun x => W x ∧ x ≠ p) V (k.modifyProc p fun r => { r with state := .ready }) := by
  have hset := setState_modifyProc .ready p k
  refine hk.frame (hk.toRegistered.of_setState hset) (fun _ hx => hx.1) hset.allProcs_eq hset.hartCurrent_eq
    (fun x hx => ⟨hset.state_of_ne x hx.2, hset.onRq_eq x⟩) fun x hx hv => ?_
  have hne : x ≠ p := fun heq => by
    rw [heq, hset.state_self] at hx
    cases hx
  rw [hset.state_of_ne x hne] at hx
  exact ⟨hk.fresh x hx hv, hne⟩

lemma readied_foldl (hk : Parks W V k) (l : List ℕ) :
    Parks (fun x => W x ∧ x ∉ l) V (l.foldl (fun k p => k.modifyProc p fun r => { r with state := .ready }) k) := by
  induction l generalizing k W with
  | nil => simpa using hk
  | cons p l ih =>
    have hrest := ih (hk.readied p)
    simpa [and_assoc] using hrest

end Parks

/-! ### Another process to run -/

/-- There is another process that hart `h` may run: two in its queue, or one that is not pinned to another hart,
or one that it can steal. -/
def OtherReady (h : Hart) (k : Kernel) : Prop :=
  (∃ x y rest, k.runQueue h = x :: y :: rest) ∨ (∃ x, k.runQueue h = [x] ∧ k.pinnedElsewhere h x = none) ∨
    ∃ v ≠ h, k.rqLocked v = false ∧ ∃ x ∈ (k.runQueue v).head?, k.pinnedElsewhere h x = none

lemma OtherReady.congr (hk : OtherReady h k) (hqueue : k'.runQueue = k.runQueue)
    (hlock : k'.rqLocked = k.rqLocked) (haff : ∀ x, (k'.proc x).affinity = (k.proc x).affinity) :
    OtherReady h k' := by
  have hpin (x : ℕ) : k'.pinnedElsewhere h x = k.pinnedElsewhere h x := by
    rw [pinnedElsewhere, pinnedElsewhere, haff]
  simpa only [OtherReady, hqueue, hlock, hpin] using hk

lemma choose_ne_none_of_otherReady (hk : OtherReady h k) : (k.choose h).1 ≠ none := by
  rcases hk with ⟨x, y, rest, hq⟩ | ⟨x, hq, hpin⟩ | ⟨v, hv, hlock, x, hx, hpin⟩
  · exact choose_ne_none_of_pickNext (pickNext_ne_none hq)
  · exact choose_ne_none_of_head hq hpin
  · exact choose_ne_none_of_stealable hv hlock hx hpin

/-- The current process of a hart goes into a wait list: it stands in no queue and is current on no other hart,
and there is another process to run. -/
theorem Parks.block (hk : Parks W V k) (hcur : k.hartCurrent h = some p) (hoff : (k.proc p).onRq = false)
    (helse : ∀ h' ≠ h, k.hartCurrent h' ≠ some p) (hready : OtherReady h k) (tf : TrapFrame) :
    Parks (fun x => x = p ∨ W x) (fun x => x = p ∨ V x) ((k.startWaiting h).schedYield h tf).kernel := by
  have heq : k.startWaiting h = k.modifyProc p fun r => { r with state := .waiting } := by
    rw [Kernel.startWaiting, hcur]
  have hset := setState_modifyProc .waiting p k
  rw [heq]
  obtain ⟨k1, hk1⟩ : ∃ k1, k1 = k.modifyProc p fun r => { r with state := .waiting } := ⟨_, rfl⟩
  rw [← hk1] at hset ⊢
  have hcur1 : k1.hartCurrent h = some p := hset.hartCurrent_eq ▸ hcur
  refine of_schedYield (hk.toRegistered.of_setState hset) ?_ ?_ ?_ ?_ ?_ ?_ ?_
  · rintro x (rfl | hx)
    · exact hset.state_self
    · by_cases hxp : x = p
      · rw [hxp]
        exact hset.state_self
      · rw [hset.state_of_ne x hxp]
        exact hk.waiting x hx
  · rintro x (rfl | hx)
    · rw [hset.onRq_eq, hoff]
    · rw [hset.onRq_eq]
      exact (hk.apart x hx).1
  · rintro x (rfl | hx) h' hh
    · rw [hset.hartCurrent_eq]
      exact helse h' hh
    · rw [hset.hartCurrent_eq]
      exact (hk.apart x hx).2 h'
  · intro x _ _
    have hst : (k1.proc p).state ≠ .running := by
      rw [hset.state_self]
      decide
    have hsaved : k1.saveContext h tf = k1.modifyProc p fun r => { r with tf := tf } := by
      unfold saveContext
      rw [hcur1]
      dsimp only
      rw [if_neg]
      rwa [proc_modifyProc_self]
    apply choose_ne_none_of_otherReady
    rw [hsaved, hk1]
    refine hready.congr rfl rfl fun x => ?_
    by_cases hxp : x = p
    · rw [hxp, proc_modifyProc_self, proc_modifyProc_self]
    · rw [proc_modifyProc_of_ne hxp, proc_modifyProc_of_ne hxp]
  · rintro x (rfl | hx)
    · rw [hset.allProcs_eq]
      exact hk.current_listed h x hcur
    · rw [hset.allProcs_eq]
      exact hk.parked_listed x hx
  · rintro x hx (rfl | hv)
    · exact .inl rfl
    · by_cases hxp : x = p
      · exact .inl hxp
      · rw [hset.state_of_ne x hxp] at hx
        exact .inr (hk.fresh x hx hv)
  · rw [hset.allProcs_eq]
    exact hk.address

end Kernel

open Kernel

/-! ### Exact lists -/

/-- The system, and for every process the wait list into which it has been put when it last began to wait; `none`
for a process that has last begun to wait in `wait` or `waitpid`. -/
structure Blockings where
  sys : System
  on : ℕ → Option (Fin chanMax × Side)

namespace Blockings

/-- The process of hart `h` begins to wait. -/
def mark (b : Blockings) (h : Hart) (list : Option (Fin chanMax × Side)) : ℕ → Option (Fin chanMax × Side) :=
  match b.sys.kernel.hartCurrent h with
  | none => b.on
  | some p => update b.on p list

/-- The state after an event. -/
def step (b : Blockings) (e : SchedEvent) : Blockings where
  sys := e.step b.sys
  on :=
    match e with
    | .wait h _ _ | .waitpid h _ _ _ _ => b.mark h none
    | .ipc op =>
      match op.blocksOn b.sys with
      | some (h, _, i, side) => b.mark h (some (i, side))
      | none => b.on
    | _ => b.on

/-- The process waits for a channel. -/
def Parked (b : Blockings) (p : ℕ) : Prop := (b.sys.kernel.proc p).state = .waiting ∧ b.on p ≠ none

end Blockings

/-- Every wait list is finite, contains no process twice, and contains exactly the processes that wait for this
side of the channel; and the channels for which processes wait are open. -/
structure WaitsExact (b : Blockings) : Prop where
  lists : ∀ i side, ∃ l, Ipc.Listed b.sys.ipc.waitNext ((b.sys.ipc.gates i).wait side) l ∧ l.Nodup ∧
    ∀ p, p ∈ l ↔ (b.sys.kernel.proc p).state = .waiting ∧ b.on p = some (i, side)
  isOpen : ∀ p i side, (b.sys.kernel.proc p).state = .waiting → b.on p = some (i, side) →
    (b.sys.ipc.gates i).isOpen = true

/-- Only records are given up that are not in use. -/
def ReapOk : Act → Kernel → Prop
  | .reaped c, k => Undispatched k c
  | _, _ => True

/-- In a run in which only such records are given up, the scheduler loses no process: one that stands in a queue
or is preempted is current after `sched_yield` or stands in exactly one queue. -/
theorem never_lost {mm : Mm} {s : System} {p : ℕ}
    (hrun : Relation.ReflTransGen (SchedStep (SchedEvent.Meets ReapOk)) (System.boot mm) s) (h : Hart)
    (tf : TrapFrame) (hp : savedOnRq h s.kernel p = true) :
    (s.kernel.schedYield h tf).kernel.hartCurrent h = some p ∨
      (s.kernel.schedYield h tf).kernel.linkCount p = 1 := by
  have hreg : s.kernel.Registered := by
    refine SchedStep.invariant ⟨⟨?_, ?_, ?_, ?_, ?_⟩, ?_⟩
      (fun hact hreap hk => hk.acts hact fun c hc => (hc ▸ hreap :)) (Dispatched.boot mm).toRegistered hrun
    all_goals intros; trivial
  obtain ⟨hsound, -, hout⟩ := schedYield_outcome hreg.sound h tf
  rw [hsound p]
  cases hout with
  | switched q _ hcur _ _ _ hon =>
    by_cases hpq : p = q
    · exact .inl (by rw [hcur, hpq, update_self])
    · exact .inr (by rw [hon p hpq, hp, if_pos rfl])
  | stayed _ _ _ _ _ _ hon | idle _ _ hon => exact .inr (by rw [hon p, hp, if_pos rfl])

theorem never_lost_createInit :
    ((createInit.step (System.boot freshMm)).kernel.schedYield 0 {}).kernel.hartCurrent 0 = some 0x1000 :=
  (never_lost (.single (.event createInit not_mem_nil trivial)) 0 {} (by decide +kernel)).resolve_right
    (by decide +kernel)

/-- Nobody interferes with the processes in the wait lists: no signal is sent to them, no child of them exits,
they do not exit and are not entered themselves, their channels are not closed, and a process that goes into a
list is nowhere else and there is another process to run. -/
structure Undisturbed (e : SchedEvent) (s : System) : Prop where
  signal : ∀ h pid sig p, e = .signalSend h pid sig → s.kernel.byPid pid = some p → ¬s.ipc.OnWaitList p
  exit : ∀ h pid code p, e = .exit h pid code → s.kernel.byPid pid = some p →
    ¬s.ipc.OnWaitList p ∧ ∀ q, s.ipc.OnWaitList q → (s.kernel.proc q).pid ≠ (s.kernel.proc p).parentPid
  enter : ∀ h pid p, e = .enterUser h pid → s.kernel.byPid pid = some p → ¬s.ipc.OnWaitList p
  close : ∀ (i : Fin chanMax) side, e = .ipc (.close i) → (s.ipc.gates i).wait side = none
  block : ∀ op h tf i side p, e = .ipc op → op.blocksOn s = some (h, tf, i, side) → s.kernel.hartCurrent h = some p →
    (s.kernel.proc p).onRq = false ∧ (∀ h' ≠ h, s.kernel.hartCurrent h' ≠ some p) ∧ OtherReady h s.kernel
  reap : e.Meets ReapOk s

/-- The heap returns addresses of 64 bits. -/
def SchedEvent.Addressed : SchedEvent → Prop
  | .createUser _ mem _ _ _ _ _ _ _ _ _ => mem < wordSize
  | _ => True

/-- A step of the system: a possible event that satisfies `Q`. -/
inductive Blockings.Step (Q : SchedEvent → System → Prop) (b : Blockings) : Blockings → Prop
  | event (e : SchedEvent) (hposs : e.Possible b.sys) (haddr : e.Addressed) (hq : Q e b.sys) : Step Q b (b.step e)

namespace Blockings

/-- The lists are exact, and the processes in them are nowhere else. -/
structure Sound (b : Blockings) : Prop extends WaitsExact b, Parks b.Parked (fun p => b.on p ≠ none) b.sys.kernel

variable {b : Blockings} {k' : Kernel} {ipc' : Ipc} {on' : ℕ → Option (Fin chanMax × Side)} {p : ℕ}
  {e : SchedEvent} {i : Fin chanMax} {side : Side} {h : Hart}

namespace Sound

lemma of_lists {W : ℕ → Prop} (hk : Parks W (fun p => on' p ≠ none) k') (hW : ∀ p, W p → on' p ≠ none)
    (hlists : ∀ i side, ∃ l, Ipc.Listed ipc'.waitNext ((ipc'.gates i).wait side) l ∧ l.Nodup ∧
      ∀ p, p ∈ l ↔ W p ∧ on' p = some (i, side))
    (hopen : ∀ p i side, W p → on' p = some (i, side) → (ipc'.gates i).isOpen = true) :
    Sound ⟨⟨ipc', k'⟩, on'⟩ := by
  have hparked : Parked ⟨⟨ipc', k'⟩, on'⟩ = W :=
    funext fun p => propext ⟨fun hp => hk.fresh p hp.1 hp.2, fun hp => ⟨hk.waiting p hp, hW p hp⟩⟩
  have hfresh {p : ℕ} {list : Fin chanMax × Side} (hwait : (k'.proc p).state = .waiting)
      (hlist : on' p = some list) : W p := hk.fresh p hwait (hlist ▸ some_ne_none _)
  refine ⟨⟨fun i side => ?_, fun p i side hwait hlist => hopen p i side (hfresh hwait hlist) hlist⟩, hparked ▸ hk⟩
  obtain ⟨l, hl, hnodup, hmem⟩ := hlists i side
  refine ⟨l, hl, hnodup, fun p => (hmem p).trans (and_congr_left fun hlist => ?_)⟩
  exact ⟨hk.waiting p, fun hwait => hfresh hwait hlist⟩

section

variable (hb : b.Sound)
include hb

lemma parkedList (i : Fin chanMax) (side : Side) : ∃ l,
    Ipc.Listed b.sys.ipc.waitNext ((b.sys.ipc.gates i).wait side) l ∧ l.Nodup ∧
      ∀ p, p ∈ l ↔ b.Parked p ∧ b.on p = some (i, side) := by
  obtain ⟨l, hl, hnodup, hmem⟩ := hb.lists i side
  refine ⟨l, hl, hnodup, fun p => (hmem p).trans (and_congr_left fun hlist => ?_)⟩
  exact ⟨fun hwait => ⟨hwait, hlist ▸ some_ne_none _⟩, And.left⟩

lemma onWaitList_iff : b.sys.ipc.OnWaitList p ↔ b.Parked p := by
  constructor
  · rintro ⟨i, side, hr⟩
    obtain ⟨l, hl, -, hmem⟩ := hb.parkedList i side
    exact ((hmem p).mp (hl.reached_iff.mp hr)).1
  · intro hp
    obtain ⟨⟨i, side⟩, hlist⟩ := ne_none_iff_exists'.mp hp.2
    obtain ⟨l, hl, -, hmem⟩ := hb.parkedList i side
    exact ⟨i, side, hl.reached_iff.mpr ((hmem p).mpr ⟨hp, hlist⟩)⟩

lemma length_le {l : List ℕ} (hnodup : l.Nodup) (hmem : ∀ p ∈ l, b.Parked p) : l.length ≤ wordSize := by
  have hsub : l.toFinset ⊆ Finset.range wordSize := fun p hp =>
    Finset.mem_range.mpr (hb.address p (hb.parked_listed p (hmem p (mem_toFinset.mp hp))))
  rw [← toFinset_card_of_nodup hnodup]
  exact (Finset.card_le_card hsub).trans (Finset.card_range wordSize).le

lemma of_parks (hk : Parks b.Parked (fun p => on' p ≠ none) k')
    (hon : ∀ p, b.Parked p → on' p = b.on p) (hgates : ipc'.gates = b.sys.ipc.gates)
    (hnext : ∀ p ∈ b.sys.kernel.allProcs, ipc'.waitNext p = b.sys.ipc.waitNext p) :
    Sound ⟨⟨ipc', k'⟩, on'⟩ := by
  refine .of_lists hk (fun p hp => hon p hp ▸ hp.2) (fun i side => ?_) fun p i side hp hlist => ?_
  · obtain ⟨l, hl, hnodup, hmem⟩ := hb.parkedList i side
    refine ⟨l, ?_, hnodup, fun p => (hmem p).trans (and_congr_right fun hp => by rw [hon p hp])⟩
    rw [hgates]
    exact hl.congr fun p hp => hnext p (hb.parked_listed p ((hmem p).mp hp).1)
  · rw [hgates]
    exact hb.isOpen p i side hp.1 (hon p hp ▸ hlist)

lemma of_gates {g : Gate} (hnone : ∀ side, (b.sys.ipc.gates i).wait side = none)
    (hg : ∀ side, g.wait side = none) (hgates : ipc'.gates = update b.sys.ipc.gates i g)
    (hnext : ipc'.waitNext = b.sys.ipc.waitNext) : Sound ⟨⟨ipc', b.sys.kernel⟩, b.on⟩ := by
  have hwait (j : Fin chanMax) (side : Side) : (ipc'.gates j).wait side = (b.sys.ipc.gates j).wait side := by
    rw [hgates]
    by_cases hj : j = i
    · rw [hj, update_self, hg, hnone]
    · rw [update_of_ne hj]
  refine ⟨⟨fun j side => ?_, fun p j side hw hlist => ?_⟩, hb.toParks⟩
  · obtain ⟨l, hl, hrest⟩ := hb.lists j side
    refine ⟨l, ?_, hrest⟩
    rwa [hwait, hnext]
  · show (ipc'.gates j).isOpen = true
    have hji : j ≠ i := fun heq => by
      -- the lists of the channel are empty
      obtain ⟨l, hl, -, hmem⟩ := hb.lists i side
      have hp : p ∈ l := (hmem p).mpr ⟨hw, heq ▸ hlist⟩
      have hr := hl.reached_iff.mpr hp
      rw [hnone side] at hr
      exact not_reached_none hr
    rw [hgates, update_of_ne hji]
    exact hb.isOpen p j side hw hlist

lemma wait_eq_none (hclosed : (b.sys.ipc.gates i).isOpen = false) (side : Side) :
    (b.sys.ipc.gates i).wait side = none := by
  obtain ⟨l, hl, -, hmem⟩ := hb.lists i side
  cases l with
  | nil => exact hl
  | cons p l =>
    obtain ⟨hwait, hlist⟩ := (hmem p).mp mem_cons_self
    rw [hb.isOpen p i side hwait hlist] at hclosed
    cases hclosed

lemma woke (h : Hart) (hgates : ipc'.gates = update b.sys.ipc.gates i ((b.sys.ipc.gates i).setWait side none))
    (hnext : ipc'.waitNext = (waitWakeAll ((b.sys.ipc.gates i).wait side) b.sys.ipc.waitNext b.sys.kernel).1) :
    Sound ⟨⟨ipc', (waitWakeAll ((b.sys.ipc.gates i).wait side) b.sys.ipc.waitNext
      b.sys.kernel).2.setNeedResched h true⟩, b.on⟩ := by
  obtain ⟨l, hl, hnodup, hmem⟩ := hb.parkedList i side
  have hle := hb.length_le hnodup fun p hp => ((hmem p).mp hp).1
  have hchain := waitChain_eq hl hnodup (hle.trans (le_succ wordSize))
  have hlinks : ipc'.waitNext = fun q => if q ∈ l then none else b.sys.ipc.waitNext q := by
    rw [hnext, waitWakeAll, hchain]
  -- those who still wait are those who are not in the list
  have hk : Parks (fun x => b.Parked x ∧ x ∉ l) (fun p => b.on p ≠ none)
      ((waitWakeAll ((b.sys.ipc.gates i).wait side) b.sys.ipc.waitNext b.sys.kernel).2.setNeedResched h true) := by
    rw [waitWakeAll, hchain]
    exact (hb.toParks.readied_foldl l).of_same (sameSched_setNeedResched h true _)
  refine .of_lists hk (fun p hp => hp.1.2) (fun j side' => ?_) fun p j side' hp hlist => ?_
  · by_cases hj : j = i ∧ side' = side
    · obtain ⟨rfl, rfl⟩ := hj
      refine ⟨[], ?_, nodup_nil, fun p => ⟨fun hp => absurd hp not_mem_nil, fun ⟨⟨hp, hout⟩, hlist⟩ => ?_⟩⟩
      · rw [hgates, update_self]
        exact Gate.wait_setWait_self ..
      · exact absurd ((hmem p).mpr ⟨hp, hlist⟩) hout
    · obtain ⟨l', hl', hnodup', hmem'⟩ := hb.parkedList j side'
      have hapart : ∀ p ∈ l', p ∉ l := fun p hp' hp => by
        have heq := ((hmem' p).mp hp').2.symm.trans ((hmem p).mp hp).2
        cases heq
        exact hj ⟨rfl, rfl⟩
      refine ⟨l', ?_, hnodup', fun p => ⟨fun hp => ?_, fun hp => (hmem' p).mpr ⟨hp.1.1, hp.2⟩⟩⟩
      · rw [hgates, Gate.wait_update hj, hlinks]
        exact hl'.congr fun p hp => if_neg (hapart p hp)
      · obtain ⟨hparked, hlist⟩ := (hmem' p).mp hp
        exact ⟨⟨hparked, hapart p hp⟩, hlist⟩
  · rw [hgates, Gate.isOpen_update]
    exact hb.isOpen p j side' hp.1.1 hlist

lemma block (hcur : b.sys.kernel.hartCurrent h = some p) (hopen : (b.sys.ipc.gates i).isOpen = true)
    (hk : Parks (fun x => x = p ∨ b.Parked x) (fun x => x = p ∨ b.on x ≠ none) k')
    (hgates : ipc'.gates = update b.sys.ipc.gates i ((b.sys.ipc.gates i).setWait side (some p)))
    (hnext : ipc'.waitNext = update b.sys.ipc.waitNext p ((b.sys.ipc.gates i).wait side)) :
    Sound ⟨⟨ipc', k'⟩, update b.on p (some (i, side))⟩ := by
  have hnot : ¬b.Parked p := fun hp => (hb.apart p hp).2 h hcur
  have hV (x : ℕ) : update b.on p (some (i, side)) x ≠ none ↔ x = p ∨ b.on x ≠ none := by
    by_cases hxp : x = p
    · simp [hxp]
    · simp [hxp]
  refine .of_lists (hk.anti fun x => (hV x).mp) (fun x hx => (hV x).mpr (hx.imp_right And.right))
    (fun j side' => ?_) fun x j side' hx hlist => ?_
  · obtain ⟨l, hl, hnodup, hmem⟩ := hb.parkedList j side'
    have hout : p ∉ l := fun hin => hnot ((hmem p).mp hin).1
    by_cases hj : j = i ∧ side' = side
    · obtain ⟨rfl, rfl⟩ := hj
      refine ⟨p :: l, ?_, nodup_cons.mpr ⟨hout, hnodup⟩, fun x => ?_⟩
      · rw [hgates, update_self, Gate.wait_setWait_self, hnext]
        exact hl.cons hout
      · by_cases hxp : x = p
        · simp [hxp]
        · rw [mem_cons, or_iff_right hxp, or_iff_right hxp, update_of_ne hxp, hmem]
    · refine ⟨l, ?_, hnodup, fun x => ?_⟩
      · rw [hgates, Gate.wait_update hj, hnext]
        exact hl.congr fun x hx => update_of_ne (ne_of_mem_of_not_mem hx hout) ..
      · by_cases hxp : x = p
        · subst hxp
          rw [update_self]
          refine ⟨fun hx => absurd hx hout, fun ⟨_, heq⟩ => ?_⟩
          cases heq
          exact absurd ⟨rfl, rfl⟩ hj
        · rw [or_iff_right hxp, update_of_ne hxp, hmem]
  · rw [hgates, Gate.isOpen_update]
    by_cases hxp : x = p
    · rw [hxp, update_self] at hlist
      cases hlist
      exact hopen
    · rw [update_of_ne hxp] at hlist
      exact hb.isOpen x j side' (hx.resolve_left hxp).1 hlist

lemma not_parked (hp : ¬b.sys.ipc.OnWaitList p) : ¬b.Parked p := fun hparked =>
  hp (hb.onWaitList_iff.mpr hparked)

lemma mark_parked {list : Option (Fin chanMax × Side)} (hp : b.Parked p) : b.mark h list p = b.on p := by
  unfold mark
  cases hcur : b.sys.kernel.hartCurrent h with
  | none => rfl
  | some q =>
    have hne : p ≠ q := fun heq => (hb.apart p hp).2 h (heq ▸ hcur)
    exact update_of_ne hne ..

lemma mark_none : Parks b.Parked (fun p => b.mark h none p ≠ none) b.sys.kernel ∧
      ∀ p, b.sys.kernel.hartCurrent h = some p → ¬b.mark h none p ≠ none := by
  refine ⟨hb.toParks.anti fun p hp => ?_, fun p hcur hp => hp ?_⟩
  · unfold mark at hp
    cases hcur : b.sys.kernel.hartCurrent h with
    | none => rwa [hcur] at hp
    | some q =>
      rw [hcur] at hp
      dsimp only at hp
      by_cases hpq : p = q
      · rw [hpq, update_self] at hp
        exact absurd rfl hp
      · rwa [update_of_ne hpq] at hp
  · rw [mark, hcur]
    exact update_self ..

lemma waited {found : Option ℕ} {tf : TrapFrame} (hout : WaitOutcome found h tf b.sys.kernel k')
    (hreap : ∀ c, found = some c → Undispatched b.sys.kernel c ∧ (b.sys.kernel.proc c).state = .exited) :
    Sound ⟨⟨b.sys.ipc, k'⟩, b.mark h none⟩ := by
  obtain ⟨hparks, hcur⟩ := hb.mark_none (h := h)
  refine hb.of_parks ?_ (fun p hp => hb.mark_parked hp) rfl fun _ _ => rfl
  cases hout with
  | reaped c hfound k1 hs hsame heq =>
    obtain ⟨hc, hexited⟩ := hreap c hfound
    rw [heq]
    refine (hparks.of_same hsame).freeProc ?_ fun hp => ?_
    · rwa [Undispatched, hsame.onRq_eq, hsame.hartCurrent_eq]
    · rw [hp.1] at hexited
      cases hexited
  | settled hs hsame => exact hparks.of_same hsame
  | blocked hnone heq =>
    rw [heq]
    exact (hparks.startWaiting h hcur).schedYield h tf

lemma exited {pid : ℕ} {code : ℤ} (hq : ∀ p, b.sys.kernel.byPid pid = some p → ¬b.Parked p ∧
      ∀ q, b.Parked q → (b.sys.kernel.proc q).pid ≠ (b.sys.kernel.proc p).parentPid) :
    Parks b.Parked (fun p => b.on p ≠ none) (b.sys.kernel.exit h pid code) := by
  cases hv : b.sys.kernel.byPid pid with
  | none =>
    rw [exit_of_none hv]
    exact hb.toParks
  | some v =>
    obtain ⟨hparked, hparent⟩ := hq v hv
    have hsame := sameSched_released h v b.sys.kernel
    have hsettles := Settles.released h v b.sys.kernel
    rw [exit_of_byPid h code hv]
    generalize b.sys.kernel.released h v = k1 at hsame hsettles ⊢
    have hset := setState_ended code v k1
    obtain ⟨k2, hk2⟩ : ∃ k2, k2 = k1.modifyProc v (Proc.ended code) := ⟨_, rfl⟩
    rw [← hk2] at hset ⊢
    have hk : Parks b.Parked (fun p => b.on p ≠ none) k2 :=
      (hb.toParks.of_same hsame).setState hset hparked nofun
    have hpid (q : ℕ) : (k2.proc q).pid = (b.sys.kernel.proc q).pid := by
      rw [← hsettles.pid_eq, hk2]
      by_cases hqv : q = v
      · rw [hqv, proc_modifyProc_self]
        rfl
      · rw [proc_modifyProc_of_ne hqv]
    have hpp : (k2.proc v).parentPid = (b.sys.kernel.proc v).parentPid := by
      rw [← hsettles.parentPid_eq, hk2, proc_modifyProc_self]
      rfl
    refine Parks.of_same ?_ (.reparent pid _)
    rcases wakeParent_cases h (k2.proc v).parentPid k2 with heq | ⟨pp, hfind, -, heq⟩
    · rwa [heq]
    · rw [heq]
      refine hk.woken (mem_of_byPid hfind) (fun hp => hparent pp hp ?_) h
      rw [← hpid, pid_of_byPid hfind, hpp]

lemma ipc {op : IpcOp} (hposs : (SchedEvent.ipc op).Possible b.sys)
    (hq : Undisturbed (.ipc op) b.sys) : (b.step (.ipc op)).Sound := by
  have hstep (ipc' : Ipc) (k' : Kernel) (hipc : (op.step b.sys).ipc = ipc') (hk : (op.step b.sys).kernel = k') :
      SchedEvent.step (.ipc op) b.sys = ⟨ipc', k'⟩ := by
    rw [← hipc, ← hk]
    rfl
  cases op.waitEffect hposs with
  | kept hblocks hk hgates hnext =>
    simp only [step, hblocks, hstep _ _ rfl hk]
    exact hb.of_parks hb.toParks (fun _ _ => rfl) hgates fun p _ => by rw [hnext]
  | blocked h tf i side p hblocks hcur hopen hk hgates hnext =>
    obtain ⟨hoff, helse, hready⟩ := hq.block op h tf i side p rfl hblocks hcur
    simp only [step, hblocks, hstep _ _ rfl hk, mark, hcur]
    refine hb.block hcur hopen ?_ hgates hnext
    exact (hb.toParks.of_same (sameSched_setNeedResched h true _)).block hcur hoff helse
      (hready.congr rfl rfl fun _ => rfl) tf
  | woke h i side hblocks hk hgates hnext =>
    simp only [step, hblocks, hstep _ _ rfl hk]
    exact hb.woke h hgates hnext
  | created i hblocks hunused hk hgates hnext =>
    simp only [step, hblocks, hstep _ _ rfl hk]
    refine hb.of_gates (fun side => hb.wait_eq_none ?_ side) (fun _ => rfl) hgates hnext
    rw [Gate.isOpen, hunused, Bool.false_and]
  | closed i hop hk hgates hnext =>
    have hblocks : op.blocksOn b.sys = none := by
      rw [hop]
      rfl
    have hnone (side : Side) : (b.sys.ipc.gates i).wait side = none := hq.close i side (by rw [hop])
    simp only [step, hblocks, hstep _ _ rfl hk]
    exact hb.of_gates (g := { b.sys.ipc.gates i with used := false, closed := true }) hnone hnone hgates hnext

lemma step (hposs : e.Possible b.sys) (haddr : e.Addressed) (hq : Undisturbed e b.sys) :
    (b.step e).Sound := by
  have hkernel {k' : Kernel} (hk : Parks b.Parked (fun p => b.on p ≠ none) k') : Sound ⟨⟨b.sys.ipc, k'⟩, b.on⟩ :=
    hb.of_parks hk (fun _ _ => rfl) rfl fun _ _ => rfl
  cases e with
  | createUser h mem entry ustack rootPa pid parentPid heapBrk ring argc argvSp =>
    simp only [Blockings.step, SchedEvent.step]
    split
    · rename_i k hok
      obtain ⟨q, hrec, rfl⟩ := createUser_ok hok
      cases hrec
      refine hb.of_parks (hb.toParks.withRecord hposs haddr rfl rfl) (fun _ _ => rfl) rfl fun p hp => ?_
      exact update_of_ne (ne_of_mem_of_not_mem hp hposs) ..
    · exact hb
  | enterUser h pid =>
    refine hkernel ?_
    unfold enterUser
    split
    · exact hb.toParks
    · rename_i p hv
      have hp := hb.not_parked (hq.enter h pid p rfl hv)
      have hset := setState_modifyProc .running p b.sys.kernel
      have hmem : p ∈ b.sys.kernel.allProcs := mem_of_byPid hv
      exact (hb.toParks.setState hset hp fun hwait => by cases hwait).setCurrent hmem hp h
  | yield h tf => exact hkernel (hb.toParks.schedYield h tf)
  | setaffinity h pid cpu => exact hkernel (hb.toParks.of_same (sameSched_sysSchedSetaffinity h pid cpu _))
  | exit h pid code =>
    refine hkernel (hb.exited fun p hv => ?_)
    obtain ⟨hp, hparent⟩ := hq.exit h pid code p rfl hv
    exact ⟨hb.not_parked hp, fun q hq => hparent q (hb.onWaitList_iff.mpr hq)⟩
  | signalSend h pid signal =>
    simp only [Blockings.step, SchedEvent.step]
    split
    · rename_i k hok
      refine hkernel ?_
      obtain ⟨v, k1, hv, hsame, heq | ⟨hwait, heq⟩⟩ := signalSend_cases hok
      · rw [heq]
        exact hb.toParks.of_same hsame
      · rw [heq]
        exact (hb.toParks.of_same hsame).woken (hsame.allProcs_eq ▸ mem_of_byPid hv)
          (hb.not_parked (hq.signal h pid signal v rfl hv)) h
    · exact hb
  | wait h tf statusOut =>
    refine hb.waited (waitOutcome_wait h tf statusOut b.sys.kernel) fun c hc => ⟨hq.reap c hc, ?_⟩
    exact (exited_of_isExitedChild (find?_some hc)).2
  | waitpid h tf pid statusOut options =>
    refine hb.waited (waitOutcome_sysWaitpid h tf pid statusOut options b.sys.kernel) fun c hc => ⟨hq.reap c hc, ?_⟩
    have hfound := find?_some hc
    rw [Bool.and_eq_true] at hfound
    exact (exited_of_isExitedChild hfound.1).2
  | ipc op => exact hb.ipc hposs hq

end

end Sound

/-- The system before any process has been created. -/
def boot (mm : Mm) : Blockings := ⟨System.boot mm, fun _ => none⟩

lemma Sound.boot (mm : Mm) : (Blockings.boot mm).Sound where
  lists i side := by
    refine ⟨[], by cases side <;> rfl, nodup_nil, fun p => ⟨fun hp => absurd hp not_mem_nil, fun hp => ?_⟩⟩
    exact nomatch hp.2
  isOpen p i side _ hlist := nomatch hlist
  toRegistered := (Dispatched.boot mm).toRegistered
  waiting p hp := absurd rfl hp.2
  apart p hp := absurd rfl hp.2
  parked_listed p hp := absurd rfl hp.2
  fresh p _ hv := absurd rfl hv
  address p hp := absurd hp not_mem_nil

end Blockings

/-- In a run in which nobody interferes with the processes in the wait lists, the lists are exact. -/
theorem waits_exact {mm : Mm} {b : Blockings}
    (hrun : Relation.ReflTransGen (Blockings.Step Undisturbed) (Blockings.boot mm) b) : WaitsExact b := by
  have hb : b.Sound := by
    induction hrun with
    | refl => exact .boot mm
    | tail _ hstep ih =>
      obtain ⟨e, hposs, haddr, hq⟩ := hstep
      exact ih.step hposs haddr hq
  exact hb.toWaitsExact

lemma undisturbed_of_quiet {e : SchedEvent} {s : System} (he : match e with
      | .createUser .. | .yield .. | .ipc (.create _) | .ipc (.connect ..) => True
      | _ => False) : Undisturbed e s := by
  constructor
  · rintro h pid sig p rfl
    exact he.elim
  · rintro h pid code p rfl
    exact he.elim
  · rintro h pid p rfl
    exact he.elim
  · rintro i side rfl
    exact he.elim
  · rintro op h tf i side p rfl hblocks
    cases op with
    | create pid => cases hblocks
    | connect id pid => cases hblocks
    | _ => exact he.elim
  · cases e with
    | createUser => trivial
    | yield => trivial
    | ipc op =>
      cases op with
      | create pid => trivial
      | connect id pid => trivial
      | _ => exact he.elim
    | _ => exact he.elim

/-- Two processes; the first one runs and opens a channel with the second one. -/
def openChannel : Blockings :=
  [ createInit, .createUser 0 0x2000 0x10000 0x40000000 0 2 1 0 procRingUser 0 0, .yield 0 {}, .ipc (.create 1),
    .ipc (.connect 0 2) ].foldl Blockings.step (Blockings.boot freshMm)

lemma reach_openChannel {Q : SchedEvent → System → Prop} (hQ : ∀ e s, Undisturbed e s → Q e s) :
    Relation.ReflTransGen (Blockings.Step Q) (Blockings.boot freshMm) openChannel := by
  have hquiet {e : SchedEvent} {s : System} (he : Undisturbed e s) : Q e s := hQ e s he
  refine .tail (.tail (.tail (.tail (.single (.event createInit ?_ ?_ (hquiet (undisturbed_of_quiet trivial))))
    (.event _ ?_ ?_ (hquiet (undisturbed_of_quiet trivial))))
    (.event (.yield 0 {}) trivial trivial (hquiet (undisturbed_of_quiet trivial))))
    (.event (.ipc (.create 1)) trivial trivial (hquiet (undisturbed_of_quiet trivial))))
    (.event (.ipc (.connect 0 2)) trivial trivial (hquiet (undisturbed_of_quiet trivial)))
  · exact not_mem_nil
  · exact (by decide : (0x1000 : ℕ) < wordSize)
  · exact (by decide +kernel : 0x2000 ∉ (createInit.step (System.boot freshMm)).kernel.allProcs)
  · exact (by decide : (0x2000 : ℕ) < wordSize)

lemma step_recv {Q : SchedEvent → System → Prop} (hQ : ∀ e s, Undisturbed e s → Q e s) :
    Blockings.Step Q openChannel (openChannel.step (.ipc (.recv 0 0 1 (some {})))) := by
  have hcur : openChannel.sys.kernel.hartCurrent 0 = some 0x1000 := by decide +kernel
  refine .event _ ?_ trivial (hQ _ _ ⟨?_, ?_, ?_, ?_, ?_, ?_⟩)
  · rw [SchedEvent.Possible, hcur]
    rfl
  · exact nofun
  · exact nofun
  · exact nofun
  · exact nofun
  · intro op h tf i side p heq hblocks hp
    cases heq
    have hb : (IpcOp.recv 0 0 1 (some {})).blocksOn openChannel.sys = some (0, {}, 0, .recv) := by
      decide +kernel
    rw [hb] at hblocks
    cases hblocks
    rw [hcur] at hp
    cases hp
    refine ⟨by decide +kernel, by decide +kernel, .inr (.inl ⟨0x2000, by decide +kernel, by decide +kernel⟩)⟩
  · exact fun _ _ _ _ _ _ => trivial

/-- The process stands in the list. -/
theorem waits_exact_recv : WaitsExact (openChannel.step (.ipc (.recv 0 0 1 (some {})))) :=
  waits_exact ((reach_openChannel fun _ _ h => h).tail (step_recv fun _ _ h => h))

/-- A signal wakes the process, and it stays in the list. -/
theorem not_waitsExact_signalSend : ∃ b, Relation.ReflTransGen (Blockings.Step fun _ _ => True)
    (Blockings.boot freshMm) b ∧ ¬WaitsExact b := by
  refine ⟨(openChannel.step (.ipc (.recv 0 0 1 (some {})))).step (.signalSend 0 1 15),
    ((reach_openChannel fun _ _ _ => trivial).tail (step_recv fun _ _ _ => trivial)).tail
      (.event (.signalSend 0 1 15) trivial trivial trivial), fun hexact => ?_⟩
  obtain ⟨l, hl, -, hmem⟩ := hexact.lists 0 .recv
  have hhead : ((((openChannel.step (.ipc (.recv 0 0 1 (some {})))).step (.signalSend 0 1 15)).sys.ipc.gates 0).wait
      .recv) = some 0x1000 := by decide +kernel
  have hwait := ((hmem 0x1000).mp (hl.reached_iff.mp (.first hhead))).1
  revert hwait
  decide +kernel

end OnyxKernel
