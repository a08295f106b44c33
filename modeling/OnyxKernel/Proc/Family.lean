import OnyxKernel.Proc.Events

/-!
# Parents and children

What the functions of the kernel do to the list of all processes, to pids and to parents.  Most of them
only change states (`Settles`); `exit` hands the children of a process over to the first process, and
`wait` and `waitpid` take a child that has exited out of the list.
-/

namespace OnyxKernel

namespace Kernel

variable {h : Hart} {tf : TrapFrame} {k k' k'' : Kernel} {p q c : ℕ} {f : Proc → Proc} {pid v : ℕ}

namespace Settles

lemma trans (hs : k.Settles k') (hs' : k'.Settles k'') : k.Settles k'' where
  allProcs_eq := hs'.allProcs_eq.trans hs.allProcs_eq
  nextPid_eq := hs'.nextPid_eq.trans hs.nextPid_eq
  pid_eq p := (hs'.pid_eq p).trans (hs.pid_eq p)
  parentPid_eq p := (hs'.parentPid_eq p).trans (hs.parentPid_eq p)
  state_cases p := by
    rcases hs'.state_cases p with heq | hnew
    · rw [heq]
      exact hs.state_cases p
    · exact .inr hnew

lemma state_eq {st : ProcState} (hs : k.Settles k') (hready : st ≠ .ready) (hrun : st ≠ .running)
    (hp : (k'.proc p).state = st) : (k.proc p).state = st := by
  rcases hs.state_cases p with heq | hnew | hnew
  · rw [← heq, hp]
  · exact absurd (hp.symm.trans hnew) hready
  · exact absurd (hp.symm.trans hnew) hrun

lemma modifyProc (hpid : ∀ r, (f r).pid = r.pid) (hparent : ∀ r, (f r).parentPid = r.parentPid)
    (hstate : ∀ r, (f r).state = r.state ∨ (f r).state = .ready ∨ (f r).state = .running) (p : ℕ) (k : Kernel) :
    k.Settles (k.modifyProc p f) := by
  refine ⟨rfl, rfl, fun q => ?_, fun q => ?_, fun q => ?_⟩ <;> by_cases hq : q = p
  · rw [hq, proc_modifyProc_self, hpid]
  · rw [proc_modifyProc_of_ne hq]
  · rw [hq, proc_modifyProc_self, hparent]
  · rw [proc_modifyProc_of_ne hq]
  · rw [hq, proc_modifyProc_self]
    exact hstate _
  · rw [proc_modifyProc_of_ne hq]
    exact .inl rfl

lemma modifyProc_of_eq
    (hf : ∀ r, (f r).pid = r.pid ∧ (f r).parentPid = r.parentPid ∧ (f r).state = r.state) (p : ℕ) (k : Kernel) :
    k.Settles (k.modifyProc p f) :=
  modifyProc (fun r => (hf r).1) (fun r => (hf r).2.1) (fun r => .inl (hf r).2.2) p k

lemma of_requeued (hreq : k.Requeued k') : k.Settles k' := by
  refine ⟨?_, ?_, fun p => ?_, fun p => ?_, fun p => .inl (hreq.state_eq p)⟩
  · rw [hreq.eq_update]
  · rw [hreq.eq_update]
  · rw [hreq.proc_eq p]
  · rw [hreq.proc_eq p]

lemma setRunning (p : ℕ) (k : Kernel) : k.Settles (k.modifyProc p fun r => { r with state := .running }) := by
  apply modifyProc
  · exact fun _ => rfl
  · exact fun _ => rfl
  · exact fun _ => .inr (.inr rfl)

lemma setReady (p : ℕ) (k : Kernel) : k.Settles (k.modifyProc p fun r => { r with state := .ready }) := by
  apply modifyProc
  · exact fun _ => rfl
  · exact fun _ => rfl
  · exact fun _ => .inr (.inl rfl)

lemma saveContext (h : Hart) (tf : TrapFrame) (k : Kernel) : k.Settles (k.saveContext h tf) := by
  unfold Kernel.saveContext
  split
  · exact of_proc_eq rfl rfl rfl
  · rename_i p _
    have htf : k.Settles (k.modifyProc p fun r => { r with tf := tf }) := by
      apply modifyProc_of_eq
      exact fun _ => ⟨rfl, rfl, rfl⟩
    dsimp only
    split_ifs
    · exact (htf.trans (setReady p _)).trans (of_requeued (requeued_enqueue h p _))
    · exact htf

lemma resume (h : Hart) (r : Option ℕ × Kernel) : r.2.Settles (Kernel.resume h r).kernel := by
  rcases r with ⟨_ | p, k⟩
  · unfold Kernel.resume noneReady
    dsimp only
    split
    · exact of_proc_eq rfl rfl rfl
    · rename_i p _
      split_ifs
      · exact of_proc_eq rfl rfl rfl
      · exact of_proc_eq rfl rfl rfl
      · exact (setRunning p k).trans (of_proc_eq rfl rfl rfl)
  · exact (setRunning p k).trans (of_proc_eq rfl rfl rfl)

lemma schedYield (h : Hart) (tf : TrapFrame) (k : Kernel) : k.Settles (k.schedYield h tf).kernel := by
  rw [schedYield_eq]
  exact ((saveContext h tf k).trans (of_requeued (Picked.choose _ h).requeued)).trans (resume h _)

lemma enterUser (h : Hart) (pid : ℕ) (k : Kernel) : k.Settles (k.enterUser h pid).kernel := by
  unfold Kernel.enterUser
  split
  · exact .refl k
  · exact (setRunning _ k).trans (of_proc_eq rfl rfl rfl)

lemma sysSchedSetaffinity (h : Hart) (pid : ℕ) (cpu : ℤ) (k : Kernel) :
    k.Settles (k.sysSchedSetaffinity h pid cpu).2 := by
  unfold Kernel.sysSchedSetaffinity
  split
  · exact .refl k
  · split
    · exact .refl k
    · split_ifs
      · exact .refl k
      · dsimp only
        apply modifyProc_of_eq
        exact fun _ => ⟨rfl, rfl, rfl⟩
      · dsimp only
        apply modifyProc_of_eq
        exact fun _ => ⟨rfl, rfl, rfl⟩

lemma signalSend {signal : ℕ} (hok : k.signalSend h pid signal = .ok k') : k.Settles k' := by
  obtain ⟨v, k1, -, hk1, heq⟩ := signalSend_eq_ok hok
  have hpend : k.Settles k1 := by
    rw [hk1]
    apply modifyProc_of_eq
    exact fun _ => ⟨rfl, rfl, rfl⟩
  rcases heq with rfl | ⟨-, rfl⟩
  · exact hpend
  · exact (hpend.trans (setReady v _)).trans (of_requeued (requeued_enqueue h v _))

lemma wakeParent (h : Hart) (parent : ℕ) (k : Kernel) : k.Settles (k.wakeParent h parent) := by
  rcases wakeParent_cases h parent k with heq | ⟨pp, -, -, heq⟩
  · rw [heq]
  · rw [heq]
    exact (setReady pp k).trans (of_requeued (requeued_enqueue h pp _))

lemma of_onlyFds (hfds : k.OnlyFds k') : k.Settles k' := by
  refine ⟨?_, ?_, fun p => ?_, fun p => ?_, fun p => .inl ?_⟩
  · rw [hfds.eq_update]
  · rw [hfds.eq_update]
  · rw [hfds.proc_eq p]
  · rw [hfds.proc_eq p]
  · rw [hfds.proc_eq p]

lemma released (h : Hart) (v : ℕ) (k : Kernel) : k.Settles (k.released h v) :=
  (of_onlyFds (.foldl_closeFd h v _ k)).trans (of_onlyMemory ⟨_, _, rfl⟩)

end Settles

/-! ### The effect of `exit` -/

/-- A process that `exit` of its parent hands over to the first process. -/
def Orphaned (pid : ℕ) (r : Proc) : Prop := r.parentPid = pid ∧ r.state ≠ .free ∧ r.state ≠ .exited

instance (pid : ℕ) (r : Proc) : Decidable (Orphaned pid r) := inferInstanceAs (Decidable (_ ∧ _ ∧ _))

lemma proc_reparent_foldl (pid : ℕ) (l : List ℕ) (k : Kernel) (c : ℕ) :
    (l.foldl (fun k c => if Orphaned pid (k.proc c) then k.modifyProc c fun r => { r with parentPid := 1 } else k)
      k).proc c = if c ∈ l ∧ Orphaned pid (k.proc c) then { k.proc c with parentPid := 1 } else k.proc c := by
  induction l generalizing k with
  | nil => simp
  | cons a l ih =>
    rw [List.foldl_cons, ih]
    by_cases ha : Orphaned pid (k.proc a)
    · rw [if_pos ha]
      by_cases hc : c = a
      · -- the record of `a` is the same whether or not `a` stands in the rest of the list once more
        subst hc
        rw [proc_modifyProc_self, ite_self]
        exact (if_pos ⟨List.mem_cons_self, ha⟩).symm
      · rw [proc_modifyProc_of_ne hc]
        simp [hc]
    · rw [if_neg ha]
      by_cases hc : c = a
      · rw [hc]
        simp [ha]
      · simp [hc]

lemma nextPid_reparent (pid : ℕ) (k : Kernel) : (k.reparent pid).nextPid = k.nextPid := by
  unfold reparent
  generalize k.allProcs = l
  induction l generalizing k with
  | nil => rfl
  | cons a l ih =>
    rw [List.foldl_cons, ih]
    dsimp only
    split_ifs <;> rfl

lemma reparent_eq (pid : ℕ) (k : Kernel) : k.reparent pid =
    k.allProcs.foldl (fun k c => if Orphaned pid (k.proc c) then k.modifyProc c fun r => { r with parentPid := 1 }
      else k) k := rfl

/-- What `exit` does to the family of the process `v` it ends. -/
structure Exited (pid v : ℕ) (k k' : Kernel) : Prop where
  allProcs_eq : k'.allProcs = k.allProcs
  nextPid_eq : k'.nextPid = k.nextPid
  pid_eq : ∀ p, (k'.proc p).pid = (k.proc p).pid
  state_self : (k'.proc v).state = .exited
  state_cases : ∀ p ≠ v, (k'.proc p).state = (k.proc p).state ∨
    (k.proc p).state = .waiting ∧ (k'.proc p).state = .ready
  parentPid_self : (k'.proc v).parentPid = (k.proc v).parentPid
  parentPid_eq : ∀ c ∈ k.allProcs, c ≠ v →
    (k'.proc c).parentPid = if Orphaned pid (k.proc c) then 1 else (k.proc c).parentPid
  woken : ∀ q ≠ v, (k.proc v).parentPid ≠ 0 → k.byPid (k.proc v).parentPid = some q →
    (k'.proc q).state ≠ .waiting

lemma wakeParent_not_waiting {parent : ℕ} (hparent : parent ≠ 0) (hq : k.byPid parent = some q) :
    ((k.wakeParent h parent).proc q).state ≠ .waiting := by
  unfold wakeParent
  rw [if_neg hparent, hq]
  dsimp only
  split_ifs with hwait
  · rw [(requeued_enqueue h q _).state_eq, proc_modifyProc_self]
    exact ProcState.noConfusion
  · exact hwait

lemma byPid_congr (hlist : k'.allProcs = k.allProcs)
    (hproc : ∀ p, (k'.proc p).pid = (k.proc p).pid ∧ ((k'.proc p).state = .free ↔ (k.proc p).state = .free)) :
    k'.byPid pid = k.byPid pid := by
  unfold byPid
  congr 1
  funext p
  have hfree : ((k'.proc p).state != .free) = ((k.proc p).state != .free) := by
    rw [Bool.eq_iff_iff, bne_iff_ne, bne_iff_ne, ne_eq, ne_eq, (hproc p).2]
  rw [(hproc p).1, hfree]

lemma state_ne_free_of_byPid (hv : k.byPid pid = some p) : (k.proc p).state ≠ .free := by
  have hfound := List.find?_some hv
  simp only [Bool.and_eq_true, bne_iff_ne] at hfound
  exact hfound.2

lemma pid_of_byPid (hv : k.byPid pid = some p) : (k.proc p).pid = pid := by
  have hfound := List.find?_some hv
  simp only [Bool.and_eq_true, beq_iff_eq] at hfound
  exact hfound.1

lemma byPid_of_nodup (hnodup : (k.allProcs.map fun p => (k.proc p).pid).Nodup) (hp : p ∈ k.allProcs)
    (hfree : (k.proc p).state ≠ .free) : k.byPid (k.proc p).pid = some p := by
  cases hfind : k.byPid (k.proc p).pid with
  | none =>
    have hnone := List.find?_eq_none.mp hfind p hp
    simp [hfree] at hnone
  | some q =>
    have heq := List.inj_on_of_nodup_map hnodup (mem_of_byPid hfind) hp (pid_of_byPid hfind)
    rw [heq]

lemma exited_exit (h : Hart) (code : ℤ) (hv : k.byPid pid = some v) : Exited pid v k (k.exit h pid code) := by
  obtain ⟨k0, hk0⟩ : ∃ k0, k0 = k.released h v := ⟨_, rfl⟩
  obtain ⟨k1, hk1⟩ : ∃ k1, k1 = k0.modifyProc v (Proc.ended code) := ⟨_, rfl⟩
  obtain ⟨k2, hk2⟩ : ∃ k2, k2 = k1.wakeParent h (k1.proc v).parentPid := ⟨_, rfl⟩
  have hexit : k.exit h pid code = k2.reparent pid := by rw [exit_of_byPid h code hv, hk2, hk1, hk0]
  -- up to the end of the process only descriptors have changed
  have hclosed : k.Settles k0 := hk0 ▸ .released h v k
  have hsame : k.SameSched k0 := hk0 ▸ sameSched_released h v k
  have hself : k1.proc v = (k0.proc v).ended code := by rw [hk1, proc_modifyProc_self]
  have hother : ∀ p ≠ v, k1.proc p = k0.proc p := fun p hp => by
    rw [hk1]
    exact proc_modifyProc_of_ne hp
  have hlist1 : k1.allProcs = k.allProcs := by
    rw [hk1]
    exact hclosed.allProcs_eq
  have hpid1 : ∀ p, (k1.proc p).pid = (k.proc p).pid := fun p => by
    by_cases hp : p = v
    · rw [hp, hself]
      exact hclosed.pid_eq v
    · rw [hother p hp, hclosed.pid_eq]
  have hparent1 : ∀ p, (k1.proc p).parentPid = (k.proc p).parentPid := fun p => by
    by_cases hp : p = v
    · rw [hp, hself]
      exact hclosed.parentPid_eq v
    · rw [hother p hp, hclosed.parentPid_eq]
  have hwake : k1.Settles k2 := hk2 ▸ .wakeParent h _ k1
  have hby := (bystanders_wakeParent h (k1.proc v).parentPid k1).records
  rw [← hk2] at hby
  have hend : (k2.proc v).state = .exited := by
    rcases (hby v).state_cases with heq | ⟨hwait, -⟩
    · rw [heq, hself]
      rfl
    · rw [hself] at hwait
      cases hwait
  have hstate2 : ∀ p ≠ v, (k2.proc p).state = (k.proc p).state ∨
      (k.proc p).state = .waiting ∧ (k2.proc p).state = .ready := fun p hp => by
    have hcases := (hby p).state_cases
    rwa [hother p hp, hsame.state_eq] at hcases
  have hrec : ∀ p, (k.exit h pid code).proc p =
      if p ∈ k.allProcs ∧ Orphaned pid (k2.proc p) then { k2.proc p with parentPid := 1 } else k2.proc p := by
    intro p
    rw [hexit, reparent_eq, proc_reparent_foldl, hwake.allProcs_eq, hlist1]
  have hstate : ∀ p, ((k.exit h pid code).proc p).state = (k2.proc p).state := fun p => by
    rw [hrec p]
    split_ifs <;> rfl
  have hnot : ¬Orphaned pid (k2.proc v) := fun horph => horph.2.2 hend
  refine ⟨?_, ?_, fun p => ?_, ?_, fun p hp => ?_, ?_, fun c hc hcv => ?_, fun q hq hparent hfind => ?_⟩
  · rw [hexit, (SameSched.reparent pid k2).allProcs_eq, hwake.allProcs_eq, hlist1]
  · rw [hexit, nextPid_reparent, hwake.nextPid_eq, hk1]
    exact hclosed.nextPid_eq
  · rw [hrec p, ← hpid1 p, ← hwake.pid_eq p]
    split_ifs <;> rfl
  · rw [hstate v, hend]
  · rw [hstate p]
    exact hstate2 p hp
  · rw [hrec v, if_neg fun hand => hnot hand.2, hwake.parentPid_eq, hparent1]
  · have horph : Orphaned pid (k2.proc c) ↔ Orphaned pid (k.proc c) := by
      unfold Orphaned
      rw [hwake.parentPid_eq, hparent1]
      rcases hstate2 c hcv with heq | ⟨hwait, hready⟩
      · rw [heq]
      · rw [hwait, hready]
        simp
    rw [hrec c]
    simp only [hc, true_and, horph]
    split_ifs
    · rfl
    · rw [hwake.parentPid_eq, hparent1]
  · rw [hstate q, hk2]
    refine wakeParent_not_waiting ?_ ?_
    · rwa [hparent1]
    · rw [hparent1, ← hfind]
      refine byPid_congr hlist1 fun p => ⟨hpid1 p, ?_⟩
      by_cases hp : p = v
      · rw [hp, hself]
        exact iff_of_false ProcState.noConfusion (state_ne_free_of_byPid hv)
      · rw [hother p hp, hsame.state_eq]

end Kernel

open Kernel

/-- The system that `launch` creates, with the first process in it. -/
def launch (mm : Mm) (h : Hart) (mem entry ustack rootPa heapBrk : ℕ) (ring : UInt8) : System :=
  (SchedEvent.createUser h mem entry ustack rootPa procPidInit 0 heapBrk ring 0 0).step (System.boot mm)

lemma kernel_launch (mm : Mm) (h : Hart) (mem ustack rootPa heapBrk : ℕ) (ring : UInt8) {entry : ℕ}
    (hentry : entry ≠ 0) : (launch mm h mem entry ustack rootPa heapBrk ring).kernel =
      (Kernel.boot mm).withRecord h mem (newProc entry ustack rootPa procPidInit 0 heapBrk ring 0 0) := by
  rw [launch, SchedEvent.step]
  split
  · rename_i k1 hok
    obtain ⟨q, hq, heq⟩ := createUser_ok hok
    cases hq
    exact heq
  · rename_i e herr
    unfold createUser at herr
    rw [if_neg hentry] at herr
    cases herr

end OnyxKernel
