import OnyxKernel.Ipc.WaitLists
import OnyxKernel.Proc.Dispatch

/-!
# Pointers to processes

Harts, run queues and wait lists hold pointers to process records.  `wait` and `waitpid` free the record of a
process that has exited, and look at none of these places.  A process that exits is still current on its hart
until the hart calls the scheduler, and a process that has been woken by a signal or by the exit of a child may
exit while a channel still has it in a wait list.  Without these two cases no pointer dangles (`no_dangling`).
-/

namespace OnyxKernel

open Function (update update_self update_of_ne)

namespace Kernel

variable {k k' : Kernel} {h : Hart} {tf : TrapFrame} {p q x : ℕ} {a : Act} {W W' : ℕ → Prop}

/-- The records in use are listed, also those of the processes `W` in wait lists, and a process that has exited
stands in no run queue and no wait list. -/
structure Accounted (W : ℕ → Prop) (k : Kernel) : Prop extends k.Registered where
  waiting_listed : ∀ p, W p → p ∈ k.allProcs
  exited_off : ∀ p, (k.proc p).state = .exited → (k.proc p).onRq = false
  exited_apart : ∀ p, (k.proc p).state = .exited → ¬W p

/-- The condition on exits, and what is known about a process that is reaped. -/
def ExitOk (W : ℕ → Prop) : Act → Kernel → Prop
  | .ended p, k => (k.proc p).onRq = false ∧ ¬W p
  | .reaped c, k => (k.proc c).state = .exited ∧ ∀ h, k.hartCurrent h ≠ some c
  | _, _ => True

lemma mild_exitOk (W : ℕ → Prop) : Mild (ExitOk W) where
  quiet _ := trivial
  woken _ _ _ := trivial
  created _ _ _ := trivial
  blocked _ _ _ := trivial
  readied _ _ _ _ := trivial

namespace Accounted

section

variable (hk : Accounted W k)
include hk

lemma anti (hle : ∀ p, W' p → W p) : Accounted W' k where
  toRegistered := hk.toRegistered
  waiting_listed p hp := hk.waiting_listed p (hle p hp)
  exited_off := hk.exited_off
  exited_apart p hp hw := hk.exited_apart p hp (hle p hw)

lemma of_le (hreg : k'.Registered) (hlist : k.allProcs ⊆ k'.allProcs)
    (hstate : ∀ x, (k'.proc x).state = .exited → (k.proc x).state = .exited ∧ (k'.proc x).onRq = (k.proc x).onRq) :
    Accounted W k' where
  toRegistered := hreg
  waiting_listed p hp := hlist (hk.waiting_listed p hp)
  exited_off p hp := (hstate p hp).2.trans (hk.exited_off p (hstate p hp).1)
  exited_apart p hp := hk.exited_apart p (hstate p hp).1

lemma of_same (hs : k.SameSched k') : Accounted W k' := by
  refine hk.of_le (hk.toRegistered.of_same hs) (hs.allProcs_eq ▸ List.Subset.refl _) fun x hx => ?_
  rw [hs.state_eq] at hx
  exact ⟨hx, hs.onRq_eq x⟩

lemma of_setState {st : ProcState} (hs : SetState st p k k') (hst : st ≠ .exited) : Accounted W k' := by
  refine hk.of_le (hk.toRegistered.of_setState hs) (hs.allProcs_eq ▸ List.Subset.refl _) fun x hx => ?_
  by_cases hxp : x = p
  · rw [hxp, hs.state_self] at hx
    exact absurd hx hst
  · rw [hs.state_of_ne x hxp] at hx
    exact ⟨hx, hs.onRq_eq x⟩

lemma of_enqueued (hs : Enqueued p k k') (hmem : p ∈ k.allProcs)
    (hst : (k.proc p).state ≠ .exited) : Accounted W k' := by
  refine hk.of_le (hk.toRegistered.of_enqueued hs hmem) (hs.allProcs_eq ▸ List.Subset.refl _) fun x hx => ?_
  rw [hs.state_eq] at hx
  have hxp : x ≠ p := fun heq => hst (heq ▸ hx)
  exact ⟨hx, hs.onRq_of_ne x hxp⟩

lemma schedYield (h : Hart) (tf : TrapFrame) : Accounted W (k.schedYield h tf).kernel := by
  obtain ⟨hsound, hlist, hout⟩ := schedYield_outcome hk.sound h tf
  refine hk.of_le (hk.toRegistered.schedYield h tf) (hlist ▸ List.Subset.refl _) fun x hx => ?_
  rcases hout.proc_cases x with hgo | ⟨hst, hon⟩
  · exact nomatch hgo.1.symm.trans hx
  · -- only a running process is put back into the queue
    rw [hst, savedState] at hx
    split_ifs at hx with hpre
    refine ⟨hx, hon.trans ?_⟩
    rw [savedOnRq, decide_eq_false hpre, Bool.or_false]

lemma startWaiting (h : Hart) : Accounted W (k.startWaiting h) := by
  rcases startWaiting_cases h k with ⟨-, heq⟩ | ⟨p, -, hset⟩
  · rwa [heq]
  · exact hk.of_setState hset (by decide)

lemma wait (hcur : k.hartCurrent h = some p) : Accounted (fun x => x = p ∨ W x) (k.startWaiting h) := by
  have hk' := hk.startWaiting h
  obtain ⟨hnone, -⟩ | ⟨p', hp', hset⟩ := startWaiting_cases h k
  · rw [hcur] at hnone
    cases hnone
  · obtain rfl : p = p' := Option.some.inj (hcur.symm.trans hp')
    refine { hk' with waiting_listed := ?_, exited_apart := ?_ }
    · rintro x (rfl | hx)
      · rw [hset.allProcs_eq]
        exact hk.current_listed h x hcur
      · exact hk'.waiting_listed x hx
    · rintro x hx (rfl | hw)
      · rw [hset.state_self] at hx
        cases hx
      · exact hk'.exited_apart x hx hw

end

lemma acts (hact : Acts a k k') (hok : ExitOk W a k) (hk : Accounted W k) : Accounted W k' := by
  cases hact with
  | quiet hsame => exact hk.of_same hsame
  | ended code hmem =>
    rename_i p
    have hset := setState_ended code p k
    obtain ⟨hoff, hapart⟩ := hok
    refine { hk.toRegistered.of_setState hset with
      waiting_listed := fun x hx => hset.allProcs_eq ▸ hk.waiting_listed x hx, exited_off := ?_, exited_apart := ?_ }
    all_goals
      intro x hx
      by_cases hxp : x = p
    · rwa [hxp, hset.onRq_eq]
    · rw [hset.state_of_ne x hxp] at hx
      rw [hset.onRq_eq]
      exact hk.exited_off x hx
    · rwa [hxp]
    · rw [hset.state_of_ne x hxp] at hx
      exact hk.exited_apart x hx
  | woken h hmem hwait =>
    rename_i p
    have hset := setState_modifyProc .ready p k
    refine (hk.of_setState hset (by decide)).of_enqueued (enqueued_enqueue h _ _) (hset.allProcs_eq ▸ hmem) ?_
    rw [hset.state_self]
    decide
  | readied => exact hk.of_setState (setState_modifyProc .ready _ k) (by decide)
  | created h r hnew hready hoff =>
    rename_i q
    refine Accounted.of_enqueued (k := { k with proc := update k.proc q r, allProcs := q :: k.allProcs })
      ?_ (enqueued_enqueue h _ _) List.mem_cons_self ?_
    · refine hk.of_le (hk.toRegistered.addRecord hnew hoff) (List.subset_cons_self q _) fun x hx => ?_
      dsimp only at hx ⊢
      by_cases hxq : x = q
      · rw [hxq, update_self, hready] at hx
        cases hx
      · rw [update_of_ne hxq] at hx ⊢
        exact ⟨hx, rfl⟩
    · dsimp only
      rw [update_self, hready]
      decide
  | reaped =>
    rename_i c
    obtain ⟨hexited, hcur⟩ := hok
    refine { hk.toRegistered.freeProc ⟨hk.exited_off c hexited, hcur⟩ with
      waiting_listed := fun x hx => ?_, exited_off := hk.exited_off, exited_apart := hk.exited_apart }
    have hxc : x ≠ c := fun heq => hk.exited_apart c hexited (heq ▸ hx)
    exact (List.mem_erase_of_ne hxc).mpr (hk.waiting_listed x hx)
  | entered h hmem =>
    rename_i p
    have hset := setState_modifyProc .running p k
    have hk' := hk.of_setState hset (by decide)
    exact hk'.of_le (hk'.toRegistered.setCurrent (hset.allProcs_eq ▸ hmem) h) (List.Subset.refl _)
      fun x hx => ⟨hx, rfl⟩
  | yielded h tf => exact hk.schedYield h tf
  | blocked h tf => exact (hk.startWaiting h).schedYield h tf

end Accounted

end Kernel

open Kernel List Ipc SchedEvent Onx

/-- Every pointer to a process leads to a record in the list of all processes. -/
structure NoDangling (s : System) : Prop where
  current : ∀ h p, s.kernel.hartCurrent h = some p → p ∈ s.kernel.allProcs
  queued : ∀ h, ∀ p ∈ s.kernel.runQueue h, p ∈ s.kernel.allProcs
  waiting : ∀ p, s.ipc.OnWaitList p → p ∈ s.kernel.allProcs

/-- No hart takes a step between an exit and the call of the scheduler by the hart of the process, and a process
that exits stands in no run queue and no wait list. -/
structure OrderlyExit (e : SchedEvent) (s : System) : Prop where
  leaves : ∀ h p, s.kernel.hartCurrent h = some p → (s.kernel.proc p).state = .exited → ∃ tf, e = .yield h tf
  apart : ∀ h pid code p, e = .exit h pid code → s.kernel.byPid pid = some p →
    (∀ h', p ∉ s.kernel.runQueue h') ∧ ¬s.ipc.OnWaitList p

/-- The pointers are in order. -/
def System.Accounted (s : System) : Prop := Kernel.Accounted s.ipc.OnWaitList s.kernel

namespace System.Accounted

variable {s s' : System} {e : SchedEvent}

lemma noDangling (hs : s.Accounted) : NoDangling s where
  current := hs.current_listed
  queued _ p hp := hs.listed p (hs.sound.onRq_of_mem hp)
  waiting := hs.waiting_listed

lemma boot (mm : Mm) : (System.boot mm).Accounted where
  toRegistered := (Dispatched.boot mm).toRegistered
  waiting_listed p hp := by
    obtain ⟨i, side, hr⟩ := hp
    cases side <;> exact (not_reached_none hr).elim
  exited_off p hp := nomatch hp
  exited_apart p hp := nomatch hp

lemma meets (hq : OrderlyExit e s) : e.Meets (ExitOk s.ipc.OnWaitList) s := by
  -- a process that is reaped has exited, and the hart of no process that has exited calls `wait`
  have hreap {c : ℕ} (hexited : (s.kernel.proc c).state = .exited) (hyield : ∀ h tf, e ≠ .yield h tf) :
      ExitOk s.ipc.OnWaitList (.reaped c) s.kernel := by
    refine ⟨hexited, fun h hcur => ?_⟩
    obtain ⟨tf, he⟩ := hq.leaves h c hcur hexited
    exact hyield h tf he
  cases e with
  | wait h tf statusOut =>
    intro c hc
    have hfound := find?_some hc
    refine hreap ?_ nofun
    exact (exited_of_isExitedChild hfound).2
  | waitpid h tf pid statusOut options =>
    intro c hc
    have hfound := find?_some hc
    rw [Bool.and_eq_true] at hfound
    refine hreap ?_ nofun
    exact (exited_of_isExitedChild hfound.1).2
  | enterUser h pid => exact fun _ _ => trivial
  | ipc op =>
    cases op with
    | send h id bytes tf => exact fun _ _ _ _ _ => trivial
    | recv h id len tf => exact fun _ _ _ _ _ _ => trivial
    | _ => trivial
  | _ => trivial

lemma meetsExit (hs : s.Accounted) (hq : OrderlyExit e s) : e.MeetsExit (ExitOk s.ipc.OnWaitList) s := by
  cases e with
  | exit h pid code =>
    intro p k1 hv hsame
    obtain ⟨hqueue, hlist⟩ := hq.apart h pid code p rfl hv
    refine ⟨?_, hlist⟩
    rw [hsame.onRq_eq]
    by_contra hon
    obtain ⟨h', hmem⟩ := hs.sound.mem_of_onRq (Bool.eq_true_of_not_eq_false hon)
    exact hqueue h' hmem
  | _ => trivial

lemma ipc {op : IpcOp} (hs : s.Accounted) (hposs : (SchedEvent.ipc op).Possible s)
    (hkernel : Kernel.Accounted s.ipc.OnWaitList (op.step s).kernel) : (op.step s).Accounted := by
  cases op.waitEffect hposs with
  | kept hblocks hk hgates hnext =>
    refine hkernel.anti fun p hp => hp.of_le (fun i side => .inr (by rw [hgates])) fun q x hx => ?_
    rwa [hnext] at hx
  | blocked h tf i side p hblocks hcur hopen hk hgates hnext =>
    rw [System.Accounted, hk]
    have hwait := (hs.of_same (sameSched_setNeedResched h true _)).wait hcur
    exact (hwait.schedYield h tf).anti fun x hx => onWaitList_of_enqueued hgates hnext hx
  | woke h i side hblocks hk hgates hnext =>
    refine hkernel.anti fun p hp => hp.of_le (fun j side' => ?_) fun q x hx => ?_
    · rw [hgates]
      by_cases hj : j = i
      · subst hj
        rw [update_self]
        by_cases hside : side' = side
        · exact .inl (hside ▸ Gate.wait_setWait_self ..)
        · exact .inr (Gate.wait_setWait_of_ne hside ..)
      · exact .inr (by rw [update_of_ne hj])
    · rw [hnext] at hx
      exact waitChain_links hx
  | created i hblocks hunused hk hgates hnext =>
    refine hkernel.anti fun p hp => hp.of_le (fun j side' => ?_) fun q x hx => ?_
    · rw [hgates]
      by_cases hj : j = i
      · exact .inl (by rw [hj, update_self])
      · exact .inr (by rw [update_of_ne hj])
    · rwa [hnext] at hx
  | closed i hop hk hgates hnext =>
    refine hkernel.anti fun p hp => hp.of_le (fun j side' => .inr ?_) fun q x hx => ?_
    · rw [hgates]
      by_cases hj : j = i
      · rw [hj, update_self]
      · rw [update_of_ne hj]
    · rwa [hnext] at hx

lemma step (hs : s.Accounted) (hposs : e.Possible s) (hq : OrderlyExit e s) : (e.step s).Accounted := by
  have hkernel : Kernel.Accounted s.ipc.OnWaitList (e.step s).kernel :=
    ActRun.invariant Accounted.acts (e.acts_of_mild (mild_exitOk _) hposs (meets hq) (hs.meetsExit hq)) hs
  cases e with
  | createUser h mem entry ustack rootPa pid parentPid heapBrk ring argc argvSp =>
    refine hkernel.anti fun p hp => ?_
    rw [SchedEvent.step] at hp
    split at hp
    · refine hp.of_le (fun _ _ => .inr rfl) fun q x hx => ?_
      dsimp only at hx
      by_cases hqm : q = mem
      · rw [hqm, update_self] at hx
        cases hx
      · rwa [update_of_ne hqm] at hx
    · exact hp
  | signalSend h pid signal =>
    refine hkernel.anti fun p hp => ?_
    rw [SchedEvent.step] at hp
    split at hp
    · exact hp
    · exact hp
  | ipc op => exact hs.ipc hposs hkernel
  | enterUser h pid => exact hkernel
  | yield h tf => exact hkernel
  | setaffinity h pid cpu => exact hkernel
  | exit h pid code => exact hkernel
  | wait h tf statusOut => exact hkernel
  | waitpid h tf pid statusOut options => exact hkernel

end System.Accounted

/-- In a run in which processes exit in an orderly way, no pointer to a process dangles. -/
theorem no_dangling {mm : Mm} {s : System} (hrun : Relation.ReflTransGen (SchedStep OrderlyExit) (System.boot mm) s) :
    NoDangling s := by
  have hs : s.Accounted := by
    induction hrun with
    | refl => exact .boot mm
    | tail _ hstep ih =>
      obtain ⟨e, hposs, hq⟩ := hstep
      exact ih.step hposs hq
  exact hs.noDangling

lemma orderlyExit_of {e : SchedEvent} {s : System}
    (hrun : ∀ h, ∀ p ∈ s.kernel.hartCurrent h, (s.kernel.proc p).state ≠ .exited)
    (he : ∀ h pid code, e ≠ .exit h pid code) : OrderlyExit e s where
  leaves h p hcur hexited := absurd hexited (hrun h p hcur)
  apart h pid code _ heq := absurd heq (he h pid code)

/-- A process with the rights of the kernel, and its child on the second hart. -/
def createRoot : SchedEvent := .createUser 0 0x1000 0x10000 0x40000000 0 procPidInit 0 0 procRingRoot 0 0

def createOnSecond : SchedEvent := .createUser 1 0x2000 0x10000 0x40000000 0 2 1 0 procRingUser 0 0

/-- The child may run on the second hart, and both harts run a process. -/
def bothRun : System :=
  [ createRoot, createOnSecond, .yield 0 {}, .setaffinity 0 2 1, .yield 1 {} ].foldl
    (fun s e => step e s) (System.boot freshMm)

lemma reach_bothRun {Q : SchedEvent → System → Prop}
    (hQ : ∀ e s, (∀ h, ∀ p ∈ s.kernel.hartCurrent h, (s.kernel.proc p).state ≠ .exited) →
      (∀ h pid code, e ≠ .exit h pid code) → Q e s) :
    Relation.ReflTransGen (SchedStep Q) (System.boot freshMm) bothRun := by
  refine .tail (.tail (.tail (.tail (.single (.event createRoot ?_ ?_)) (.event createOnSecond ?_ ?_))
    (.event (.yield 0 {}) trivial ?_)) (.event (.setaffinity 0 2 1) trivial ?_)) (.event (.yield 1 {}) trivial ?_)
  · exact not_mem_nil
  · exact hQ _ _ (by decide +kernel) nofun
  · exact (by decide +kernel : 0x2000 ∉ (createRoot.step (System.boot freshMm)).kernel.allProcs)
  all_goals exact hQ _ _ (by decide +kernel) nofun

/-- The child exits, its hart calls the scheduler, and the parent reaps it. -/
theorem no_dangling_reaped :
    NoDangling ([ .exit 1 2 0, .yield 1 {}, .wait 0 {} none ].foldl (fun s e => step e s) bothRun) := by
  have hexit : OrderlyExit (.exit 1 2 0) bothRun := by
    have hrun : ∀ h, ∀ p ∈ bothRun.kernel.hartCurrent h, (bothRun.kernel.proc p).state ≠ .exited := by
      decide +kernel
    refine ⟨fun h p hcur hexited => absurd hexited (hrun h p hcur), fun h pid code p heq hv => ?_⟩
    cases heq
    obtain rfl : 0x2000 = p := Option.some.inj (Eq.trans (by decide +kernel) hv)
    refine ⟨by decide +kernel, ?_⟩
    rintro ⟨i, side, hr⟩
    cases side <;> exact not_reached_none hr
  have hyield : OrderlyExit (.yield 1 {}) (step (.exit 1 2 0) bothRun) := by
    have hrun : ∀ h ≠ 1, ∀ p ∈ (step (.exit 1 2 0) bothRun).kernel.hartCurrent h,
        ((step (.exit 1 2 0) bothRun).kernel.proc p).state ≠ .exited := by
      decide +kernel
    refine ⟨fun h p hcur hexited => ?_, nofun⟩
    obtain rfl : h = 1 := by
      by_contra hne
      exact hrun h hne p hcur hexited
    exact ⟨{}, rfl⟩
  exact no_dangling (.tail (.tail (.tail (reach_bothRun fun _ _ => orderlyExit_of)
    (.event (.exit 1 2 0) trivial hexit)) (.event (.yield 1 {}) trivial hyield))
    (.event (.wait 0 {} none) trivial (orderlyExit_of (by decide +kernel) nofun)))

/-- The child exits, and the parent reaps it before the second hart calls the scheduler. -/
theorem dangling_current : ∃ s : System,
    Relation.ReflTransGen (SchedStep fun _ _ => True) (System.boot freshMm) s ∧ ¬NoDangling s := by
  refine ⟨step (.wait 0 {} none) (step (.exit 1 2 0) bothRun),
    .tail (.tail (reach_bothRun fun _ _ _ _ => trivial) (.event (.exit 1 2 0) trivial trivial))
      (.event (.wait 0 {} none) trivial trivial), fun hnone => ?_⟩
  have hmem := hnone.current 1 0x2000 (by decide +kernel)
  revert hmem
  decide +kernel

end OnyxKernel
