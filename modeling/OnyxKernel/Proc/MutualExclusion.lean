import OnyxKernel.Proc.Locks

/-!
# Mutual exclusion on the run queues

`sched_yield` and `steal` change a queue under its lock, apart from a process that is pinned to another
hart: `sched_yield` passes it on under the lock of the own queue, and `steal` puts it back after the lock
has been dropped.  `exit`, `signal_send` and `create_user` enqueue without a lock.  In a run without these
steps the queues are only modified under their locks (`mutual_exclusion`).
-/

namespace OnyxKernel

open Kernel List Option Relation Function

/-! ### What the steps do with the locks -/

namespace Kernel

variable {h : Hart} {k k' k'' : Kernel} {p : ℕ}

lemma runQueue_noneReady (h : Hart) (k : Kernel) : (k.noneReady h).kernel.runQueue = k.runQueue := by
  rw [noneReady]
  split
  · rfl
  · split
    · split <;> rfl
    · rfl

@[simp] lemma rqLocked_reparent (pid : ℕ) (k : Kernel) : (k.reparent pid).rqLocked = k.rqLocked := by
  unfold reparent
  generalize k.allProcs = procs
  induction procs generalizing k with
  | nil => rfl
  | cons c procs ih =>
    rw [foldl_cons, ih]
    dsimp only
    split <;> rfl

lemma endProcess_spec (h : Hart) (p : ℕ) (code : ℤ) (k : Kernel) :
    (k.endProcess h p code).rqLocked = k.rqLocked ∧ (k.endProcess h p code).allProcs = k.allProcs ∧
      ∀ q, ∃ fds, (k.endProcess h p code).proc q =
        if q = p then { (k.proc q).ended code with fds := fds } else { k.proc q with fds := fds } := by
  have hfds := OnlyFds.foldl_closeFd h p (finRange vfsMaxFds) k
  rw [endProcess]
  generalize (finRange vfsMaxFds).foldl (closeFd h p) k = k1 at hfds ⊢
  refine ⟨by rw [rqLocked_modifyProc, hfds.eq_update], ?_, fun q => ⟨(k1.proc q).fds, ?_⟩⟩
  · rw [modifyProc, hfds.eq_update]
  · split
    · next hq =>
      rw [hq, proc_modifyProc_self, hfds.proc_eq p]
      rfl
    · next hq =>
      rw [proc_modifyProc_of_ne hq]
      exact hfds.proc_eq q

lemma wokenParent_endProcess {pid parent : ℕ} (hv : k.byPid pid = some p) (h : Hart) (code : ℤ)
    (hnone : k.wokenParent parent = none) : (k.endProcess h p code).wokenParent parent = none := by
  obtain ⟨-, hall, hproc⟩ := k.endProcess_spec h p code
  have hfree : (k.proc p).state ≠ .free := by
    have hfound := find?_some hv
    simpa using (Bool.and_eq_true_iff.mp hfound).2
  have hby : (k.endProcess h p code).byPid parent = k.byPid parent := by
    rw [byPid, byPid, hall]
    congr 1
    funext q
    obtain ⟨fds, hq⟩ := hproc q
    rw [hq]
    split
    · next heq =>
      rw [heq, bne_iff_ne.mpr hfree]
      rfl
    · rfl
  rw [wokenParent] at hnone ⊢
  split at hnone
  · next hzero => exact if_pos hzero
  · next hzero =>
    rw [if_neg hzero, hby]
    rw [filter_eq_none_iff] at hnone ⊢
    intro q hmem hwait
    refine hnone q hmem ?_
    obtain ⟨fds, hq⟩ := hproc q
    rw [hq] at hwait
    split at hwait
    · simp [Proc.ended] at hwait
    · exact hwait

lemma parentPid_endProcess (h : Hart) (code : ℤ) (k : Kernel) :
    ((k.endProcess h p code).proc p).parentPid = (k.proc p).parentPid := by
  obtain ⟨fds, hp⟩ := (k.endProcess_spec h p code).2.2 p
  rw [hp, if_pos rfl]
  rfl

lemma rqLocked_signalSend {pid signal : ℕ} (hok : k.signalSend h pid signal = .ok k') :
    k'.rqLocked = k.rqLocked := by
  obtain ⟨v, k1, -, rfl, rfl | ⟨-, rfl⟩⟩ := signalSend_eq_ok hok
  · rfl
  · rw [rqLocked_enqueue]
    rfl

end Kernel

/-- The lock that a hart holds at a point of its code. -/
def Pc.lock (h : Hart) : Pc → Option Hart
  | .save _ | .enqueueCurrent _ | .dequeueFirst | .checkAffinity _ | .passOn _ _ | .dequeueSecond
  | .unlockToSteal | .dequeueLast | .runNext _ | .nothingReady | .unlockOwn => some h
  | .dequeueVictim victim _ | .unlockVictim _ victim _ => some victim
  | _ => none

/-- A change of a queue whose lock the hart does not hold comes next. -/
def Pc.Unlocked : Pc → Prop
  | .passOn _ _ | .putBack _ _ _ | .enqueueUnlocked _ _ => True
  | _ => False

namespace RqSystem

variable {h h' q : Hart} {s s' : RqSystem}

/-- The program counters say who holds which lock, and no queue is about to be changed without its
lock. -/
structure LocksHeld (s : RqSystem) : Prop where
  locked_eq : ∀ q, s.kernel.rqLocked q = (s.holder q).isSome
  holder_eq : ∀ h q, (s.pc h).lock h = some q → s.holder q = some h
  not_unlocked : ∀ h, ¬(s.pc h).Unlocked

/-- A step does one of three things: it leaves the locks alone, it takes a lock, or it drops the lock that
the hart holds. -/
inductive LockAction (h : Hart) (s : RqSystem) : RqSystem → Prop where
  | keep {k : Kernel} {pc : Pc} (hlocked : k.rqLocked = s.kernel.rqLocked)
      (hlock : pc.lock h = (s.pc h).lock h) (hun : ¬pc.Unlocked) : LockAction h s (s.goto h k pc)
  | swap {q : Hart} {pc : Pc} {s' : RqSystem} (hlock : pc.lock h = some q) (hun : ¬pc.Unlocked)
      (hs' : s.swap h q pc = some s') : LockAction h s s'
  | store {q : Hart} {pc : Pc} (hheld : (s.pc h).lock h = some q) (hlock : pc.lock h = none)
      (hun : ¬pc.Unlocked) : LockAction h s (s.store h q pc)

lemma LocksHeld.not_unlocked_update {pc : Pc} (hs : s.LocksHeld) (hun : ¬pc.Unlocked) (g : Hart) :
    ¬(update s.pc h pc g).Unlocked := by
  by_cases hgh : g = h
  · simpa [hgh] using hun
  · simpa [hgh] using hs.not_unlocked g

lemma LockAction.locksHeld (hact : LockAction h s s') (hs : s.LocksHeld) : s'.LocksHeld := by
  cases hact with
  | keep hlocked hlock hun =>
    refine ⟨fun q => (congrFun hlocked q).trans (hs.locked_eq q), fun g q hg => ?_, hs.not_unlocked_update hun⟩
    by_cases hgh : g = h
    · rw [hgh] at hg ⊢
      apply hs.holder_eq h q
      rw [← hlock]
      simpa [goto] using hg
    · exact hs.holder_eq g q (by simpa [goto, hgh] using hg)
  | @swap q pc _ hlock hun hs' =>
    rw [RqSystem.swap] at hs'
    split at hs'
    · cases hs'
    · next hfree =>
      -- the lock was free, so no hart is at a point at which it holds it
      have hnone : s.holder q = none := by
        rw [hs.locked_eq q] at hfree
        simpa using hfree
      cases hs'
      refine ⟨fun a => ?_, fun g a hg => ?_, hs.not_unlocked_update hun⟩
      · by_cases ha : a = q
        · simp [goto, ha]
        · simpa [goto, ha] using hs.locked_eq a
      · by_cases hgh : g = h
        · have : q = a := by
            rw [hgh] at hg
            simpa [goto, hlock] using hg
          simp [← this, hgh]
        · have hheld : s.holder a = some g := hs.holder_eq g a (by simpa [goto, hgh] using hg)
          have hne : a ≠ q := by
            rintro rfl
            rw [hnone] at hheld
            cases hheld
          simpa [hne] using hheld
  | @store q pc hheld hlock hun =>
    have hown := hs.holder_eq h q hheld
    refine ⟨fun a => ?_, fun g a hg => ?_, hs.not_unlocked_update hun⟩
    · by_cases ha : a = q
      · simp [RqSystem.store, goto, ha]
      · simpa [RqSystem.store, goto, ha] using hs.locked_eq a
    · by_cases hgh : g = h
      · rw [hgh] at hg
        simp [RqSystem.store, goto, hlock] at hg
      · have hheld' : s.holder a = some g := hs.holder_eq g a (by simpa [RqSystem.store, goto, hgh] using hg)
        have hne : a ≠ q := by
          rintro rfl
          rw [hown] at hheld'
          exact hgh (some.inj hheld').symm
        simpa [RqSystem.store, hne] using hheld'

lemma lockAction_next (hs : s.LocksHeld) (hmeets : (RqEvent.advance h).Locked s)
    (hstep : s.next h = some s') : LockAction h s s' := by
  have hun := hs.not_unlocked h
  -- the points that leave the locks alone
  have hkeep : ∀ {k : Kernel} {pc : Pc}, some (s.goto h k pc) = some s' →
      k.rqLocked = s.kernel.rqLocked → pc.lock h = (s.pc h).lock h → ¬pc.Unlocked → LockAction h s s' := by
    intro k pc heq hlocked hlock hun
    cases heq
    exact .keep hlocked hlock hun
  unfold RqEvent.Locked at hmeets
  unfold next at hstep
  cases hpc : s.pc h with
  | outside => simp only [hpc, reduceCtorEq] at hstep
  | passOn a p => exact absurd trivial (by rwa [hpc] at hun)
  | putBack p victim rest => exact absurd trivial (by rwa [hpc] at hun)
  | enqueueUnlocked p orphans => exact absurd trivial (by rwa [hpc] at hun)
  | lockOwn _ | lockAgain =>
    simp only [hpc] at hstep
    exact .swap rfl id hstep
  | unlockToSteal | unlockOwn =>
    simp only [hpc, some.injEq] at hstep
    rw [← hstep]
    exact .store (by rw [hpc]; rfl) rfl id
  | unlockVictim taken victim rest =>
    cases taken
    all_goals
      simp only [hpc, some.injEq] at hstep
      rw [← hstep]
      exact .store (by rw [hpc]; rfl) rfl id
  | tryVictim victims =>
    cases victims with
    | nil =>
      simp only [hpc] at hstep
      exact hkeep hstep rfl (by rw [hpc]; rfl) id
    | cons victim rest =>
      simp only [hpc] at hstep
      split at hstep
      · exact hkeep hstep rfl (by rw [hpc]; rfl) id
      · exact .swap rfl id hstep
  | save tf =>
    simp only [hpc] at hstep
    split at hstep
    · exact hkeep hstep rfl (by rw [hpc]; rfl) id
    · split at hstep
      · exact hkeep hstep rfl (by rw [hpc]; rfl) id
      · exact hkeep hstep rfl (by rw [hpc]; rfl) id
  | checkAffinity _ | checkStolen _ _ _ =>
    simp only [hpc] at hstep hmeets
    rw [hmeets] at hstep
    exact hkeep hstep rfl (by rw [hpc]; rfl) id
  | enqueueCurrent _ | dequeueVictim _ _ | runStolen _ | runNext _ | nothingReady =>
    simp only [hpc] at hstep
    exact hkeep hstep (by simp) (by rw [hpc]; rfl) id
  | dequeueFirst | dequeueSecond | dequeueLast =>
    simp only [hpc] at hstep
    have hlocked := s.kernel.rqLocked_dequeue h
    split at hstep
    all_goals
      next heq =>
        rw [heq] at hlocked
        exact hkeep hstep hlocked (by rw [hpc]; rfl) id

lemma outside_of_step {e : RqEvent} (hcall : e ≠ .advance e.hart) (hstep : e.step s = some s') :
    s.pc e.hart = .outside := by
  unfold RqEvent.step at hstep
  split at hstep
  · exact absurd rfl hcall
  all_goals first | assumption | cases hstep

lemma LocksHeld.step (hs : s.LocksHeld) (hstep : s.LockedStep s') : s'.LocksHeld := by
  obtain ⟨e, hmeets, hstep⟩ := hstep
  by_cases hadvance : e = .advance e.hart
  · rw [hadvance] at hmeets hstep
    exact (lockAction_next hs hmeets hstep).locksHeld hs
  have hpc := outside_of_step hadvance hstep
  -- outside no lock is held
  have hcall : ∀ {k : Kernel} {pc : Pc}, k.rqLocked = s.kernel.rqLocked → pc.lock e.hart = none → ¬pc.Unlocked →
      (s.goto e.hart k pc).LocksHeld := by
    intro k pc hlocked hlock hun
    exact (LockAction.keep hlocked (by rw [hlock, hpc]; rfl) hun).locksHeld hs
  unfold RqEvent.step at hstep
  rw [hpc] at hstep
  cases e with
  | advance h => exact absurd rfl hadvance
  | yield h tf =>
    cases hstep
    exact hcall rfl rfl id
  | createUser h mem entry ustack rootPa pid parentPid heapBrk ring argc argvSp =>
    dsimp only at hstep
    split at hstep
    · cases hstep
      exact hs
    · next q hq =>
      -- a call that gets here enqueues the new process
      split_ifs at hq with hentry
      rcases hmeets with hzero | hmem
      · exact absurd hzero hentry
      · rw [hq] at hmem
        cases hmem
  | exit h pid code =>
    cases hv : s.kernel.byPid pid with
    | none =>
      simp only [hv, some.injEq] at hstep
      rwa [← hstep]
    | some p =>
      have hnone : (s.kernel.endProcess h p code).wokenParent
          ((s.kernel.endProcess h p code).proc p).parentPid = none := by
        rw [parentPid_endProcess]
        exact wokenParent_endProcess hv h code (hmeets p hv)
      simp only [hv, hnone, some.injEq] at hstep
      rw [← hstep]
      refine hcall ?_ rfl id
      rw [rqLocked_reparent]
      exact (endProcess_spec h p code s.kernel).1
  | signalSend h pid signal =>
    dsimp only at hstep
    split at hstep
    · cases hstep
      exact hs
    · next k' hok =>
      rw [show s.kernel.wokenTarget pid signal = none from hmeets] at hstep
      cases hstep
      exact hcall (rqLocked_signalSend hok) rfl id
  | elsewhere h k' =>
    dsimp only at hstep
    split at hstep
    · next hsame =>
      cases hstep
      exact hcall hsame.1 rfl id
    · cases hstep

lemma locksHeld_start (k : Kernel) : (start k).LocksHeld where
  locked_eq _ := rfl
  holder_eq _ _ hlock := nomatch hlock
  not_unlocked _ := id

lemma reaches_after (es : List RqEvent) (s : RqSystem) :
    ReflTransGen (fun s s' => ∃ e : RqEvent, e.step s = some s') s (after es s) := by
  induction es generalizing s with
  | nil => exact .refl
  | cons e es ih =>
    refine .trans ?_ (ih _)
    dsimp only
    cases hstep : e.step s with
    | none => rfl
    | some s' => exact .single ⟨e, hstep⟩

lemma LocksHeld.run (hs : s.LocksHeld) (hrun : ReflTransGen LockedStep s s') : s'.LocksHeld := by
  induction hrun with
  | refl => exact hs
  | tail _ hstep ih => exact ih.step hstep

lemma LocksHeld.holder_of_modifies (hs : s.LocksHeld) (hmod : s.modifies h = some q) :
    s.holder q = some h := by
  apply hs.holder_eq h q
  have hun := hs.not_unlocked h
  unfold modifies at hmod
  cases hpc : s.pc h with
  | passOn a p => exact absurd trivial (by rwa [hpc] at hun)
  | putBack p victim rest => exact absurd trivial (by rwa [hpc] at hun)
  | enqueueUnlocked p orphans => exact absurd trivial (by rwa [hpc] at hun)
  | enqueueCurrent _ | dequeueFirst | dequeueSecond | dequeueLast | dequeueVictim _ _ =>
    simp only [hpc] at hmod
    split at hmod
    · cases hmod
    · exact hmod
  | _ =>
    simp only [hpc, reduceCtorEq] at hmod

/-- In a run in which no step changes a queue without its lock, every hart that modifies a queue holds the
lock, and no other hart modifies the queue. -/
theorem mutual_exclusion (k : Kernel) (s : RqSystem)
    (hrun : ReflTransGen LockedStep (start k) s) : s.MutualExclusion := by
  have hs := (locksHeld_start k).run hrun
  intro h q hmod
  have hheld := hs.holder_of_modifies hmod
  refine ⟨hheld, fun h' hmod' => ?_⟩
  have hheld' := hs.holder_of_modifies hmod'
  rw [hheld] at hheld'
  exact (some.inj hheld').symm

/-- One process in the queue of hart 0, and no process current. -/
def oneReady : Kernel :=
  { boot Onx.freshMm with
    proc := update (fun _ => {}) 64 { pid := 1, state := .ready, onRq := true }
    allProcs := [64]
    runQueue := update (fun _ => []) 0 [64] }

/-- Hart 0 takes the lock of its queue and is about to dequeue. -/
theorem mutual_exclusion_oneReady :
    ∃ s, ReflTransGen LockedStep (start oneReady) s ∧ s.modifies 0 = some 0 ∧ s.MutualExclusion := by
  have hrun : ReflTransGen LockedStep (start oneReady)
      (after [.yield 0 {}, .advance 0, .advance 0] (start oneReady)) :=
    .tail (.tail (.single ⟨.yield 0 {}, trivial, rfl⟩) ⟨.advance 0, trivial, rfl⟩) ⟨.advance 0, trivial, rfl⟩
  exact ⟨_, hrun, rfl, mutual_exclusion oneReady _ hrun⟩

/-- Hart 0 creates a process while hart 7 steals from its queue: both are about to change the queue, and
hart 7 holds the lock. -/
theorem queue_modified_twice :
    ∃ s, ReflTransGen (fun s s' => ∃ e : RqEvent, e.step s = some s') (start oneReady) s ∧
      s.modifies 0 = some 0 ∧ s.modifies 7 = some 0 ∧ ¬s.MutualExclusion := by
  refine ⟨after [.yield 7 {}, .advance 7, .advance 7, .advance 7, .advance 7, .advance 7,
    .createUser 0 (.ok 128) 0x10000 0x40000000 0 2 1 0 procRingUser 0 0] (start oneReady),
    reaches_after _ _, by decide +kernel, by decide +kernel, ?_⟩
  intro hmutex
  have hheld := (hmutex 0 0 (by decide +kernel)).1
  revert hheld
  decide +kernel

end RqSystem

end OnyxKernel
