import OnyxKernel.Proc.Signals

/-!
# What the kernel leaves alone in the process records

Most functions of the kernel change the record of a process only in the fields that belong to the
scheduler, to signals or to open files.  `Kernel.Kept` says so for all records at once: pids, rings and
page tables are as before, and no process has been ended.  The functions of the scheduler and of signal
delivery keep the records in this sense; `exit` does so for every process but the one it ends.
-/

namespace OnyxKernel

open Function

/-- The record of a process that has neither been ended nor been given another pid, ring or page
table. -/
structure Proc.Kept (r r' : Proc) : Prop where
  pid_eq : r'.pid = r.pid
  ring_eq : r'.ring = r.ring
  rootPa_eq : r'.rootPa = r.rootPa
  not_exited : r.state ≠ .exited → r'.state ≠ .exited

namespace Proc.Kept

variable {r r' r'' : Proc}

@[refl] lemma refl (r : Proc) : r.Kept r := ⟨rfl, rfl, rfl, id⟩

lemma trans (h : r.Kept r') (h' : r'.Kept r'') : r.Kept r'' :=
  ⟨h'.pid_eq.trans h.pid_eq, h'.ring_eq.trans h.ring_eq, h'.rootPa_eq.trans h.rootPa_eq,
    fun hs => h'.not_exited (h.not_exited hs)⟩

end Proc.Kept

/-- The record of a process while another one exits: files may be closed, the parent may be replaced,
and a waiting process may be woken. -/
structure Proc.Bystander (r r' : Proc) : Prop where
  eq_update : r' = { r with
    fds := r'.fds, parentPid := r'.parentPid, state := r'.state, onRq := r'.onRq }
  state_cases : r'.state = r.state ∨ r.state = .waiting ∧ r'.state = .ready

namespace Proc.Bystander

variable {r r' r'' : Proc}

@[refl] lemma refl (r : Proc) : r.Bystander r := ⟨rfl, .inl rfl⟩

lemma trans (h : r.Bystander r') (h' : r'.Bystander r'') : r.Bystander r'' where
  eq_update := by
    rw [h'.eq_update, h.eq_update]
  state_cases := by
    rcases h.state_cases with hs | ⟨hw, hr⟩
    · rw [← hs]
      exact h'.state_cases
    · rcases h'.state_cases with hs' | ⟨hw', -⟩
      · exact .inr ⟨hw, hs'.trans hr⟩
      · rw [hr] at hw'
        cases hw'

lemma kept (h : r.Bystander r') : r.Kept r' := by
  have heq := h.eq_update
  refine ⟨by rw [heq], by rw [heq], by rw [heq], fun hne => ?_⟩
  rcases h.state_cases with hs | ⟨-, hr⟩
  · rwa [hs]
  · rw [hr]
    exact ProcState.noConfusion

end Proc.Bystander

/-- The record of a process that has exited with a code. -/
def Proc.ended (code : ℤ) (r : Proc) : Proc := { r with exitCode := code, state := .exited }

lemma Proc.Bystander.ended {r r' : Proc} (h : r.Bystander r') (code : ℤ) :
    (r.ended code).Bystander (r'.ended code) := by
  refine ⟨?_, .inl rfl⟩
  rw [Proc.ended, Proc.ended, h.eq_update]

namespace Flow

variable {α β : Type} {x : Flow α} {f : α → Kernel → Flow β}

lemma bind_eq_ret_iff {b : β} {k : Kernel} :
    x.bind f = .ret b k ↔ ∃ a k', x = .ret a k' ∧ f a k' = .ret b k := by
  cases x with
  | ret a k' =>
    constructor
    · intro h
      exact ⟨a, k', rfl, h⟩
    · rintro ⟨a', k'', h, h'⟩
      cases h
      exact h'
  | switched dest k' => simp [bind]
  | halted k' => simp [bind]

end Flow

namespace Kernel

/-- All records are kept. -/
def KeptRecords (k k' : Kernel) : Prop := ∀ p, (k.proc p).Kept (k'.proc p)

/-- All records are kept, and every hart has the process it had. -/
structure Kept (k k' : Kernel) : Prop where
  records : k.KeptRecords k'
  current_eq : k'.hartCurrent = k.hartCurrent

variable {k k' k'' : Kernel} {h : Hart} {p q : ℕ} {f : Proc → Proc} {tf : TrapFrame}

lemma KeptRecords.trans (h : k.KeptRecords k') (h' : k'.KeptRecords k'') : k.KeptRecords k'' :=
  fun p => (h p).trans (h' p)

@[refl] lemma Kept.refl (k : Kernel) : k.Kept k := ⟨fun _ => .refl _, rfl⟩

lemma Kept.trans (h : k.Kept k') (h' : k'.Kept k'') : k.Kept k'' :=
  ⟨h.records.trans h'.records, h'.current_eq.trans h.current_eq⟩

lemma kept_of_proc_eq (hproc : k'.proc = k.proc) (hcur : k'.hartCurrent = k.hartCurrent) : k.Kept k' := by
  refine ⟨fun p => ?_, hcur⟩
  rw [hproc]

end Kernel

/-- `x`, begun in `k`, keeps the records, and if it returns then to the process that called it. -/
structure Flow.Keeps {α : Type} (k : Kernel) (x : Flow α) : Prop where
  records : k.KeptRecords x.kernel
  current_eq : ∀ a k', x = .ret a k' → k'.hartCurrent = k.hartCurrent

namespace Flow.Keeps

variable {α β : Type} {k k' : Kernel} {x : Flow α} {f : α → Kernel → Flow β}

lemma ret (a : α) (h : k.Kept k') : (Flow.ret a k').Keeps k := by
  refine ⟨h.records, fun a₁ k1 hret => ?_⟩
  cases hret
  exact h.current_eq

lemma switched {dest : Option ℕ} (h : k.KeptRecords k') : (Flow.switched dest k' : Flow α).Keeps k :=
  ⟨h, nofun⟩

lemma halted (h : k.KeptRecords k') : (Flow.halted k' : Flow α).Keeps k :=
  ⟨h, nofun⟩

lemma of_kept (hx : x.Keeps k') (h : k.Kept k') : x.Keeps k :=
  ⟨h.records.trans hx.records, fun a k1 hret => (hx.current_eq a k1 hret).trans h.current_eq⟩

lemma bind (hx : x.Keeps k) (hf : ∀ a k', (f a k').Keeps k') : (x.bind f).Keeps k := by
  cases x with
  | ret a k' => exact (hf a k').of_kept ⟨hx.records, hx.current_eq a k' rfl⟩
  | switched dest k' => exact switched hx.records
  | halted k' => exact halted hx.records

end Flow.Keeps

namespace Kernel

variable {k k' k'' : Kernel} {h : Hart} {p q : ℕ} {f : Proc → Proc} {tf : TrapFrame}

lemma currentPid_of_running (hcur : k.hartCurrent h = some p) (hrun : (k.proc p).state = .running) :
    k.currentPid h = (k.proc p).pid := by
  rw [currentPid, hcur]
  exact if_pos hrun

lemma kept_copyOut (va pa : ℕ) (bytes : List UInt8) (k : Kernel) : k.Kept (k.copyOut va pa bytes) :=
  kept_of_proc_eq rfl rfl

/-! ### Changing one record -/

@[simp] lemma hartCurrent_modifyProc (k : Kernel) (p : ℕ) (f : Proc → Proc) :
    (k.modifyProc p f).hartCurrent = k.hartCurrent := rfl

@[simp] lemma needResched_modifyProc (k : Kernel) (p : ℕ) (f : Proc → Proc) :
    (k.modifyProc p f).needResched = k.needResched := rfl

@[simp] lemma proc_modifyProc_self (k : Kernel) (p : ℕ) (f : Proc → Proc) :
    (k.modifyProc p f).proc p = f (k.proc p) := update_self ..

lemma proc_modifyProc_of_ne (hne : q ≠ p) : (k.modifyProc p f).proc q = k.proc q :=
  update_of_ne hne ..

lemma kept_modifyProc (hf : (k.proc p).Kept (f (k.proc p))) : k.Kept (k.modifyProc p f) := by
  refine ⟨fun q => ?_, rfl⟩
  by_cases hq : q = p
  · rwa [hq, proc_modifyProc_self]
  · rw [proc_modifyProc_of_ne hq]

lemma kept_modifyCurrent (hf : ∀ r, Proc.Kept r (f r)) : k.Kept (k.modifyCurrent h f) :=
  kept_modifyProc (hf _)

/-! ### The scheduler -/

lemma proc_enqueue_of_ne (hne : q ≠ p) : (k.enqueue h p).proc q = k.proc q := by
  unfold enqueue
  split
  · rfl
  · dsimp only
    exact proc_modifyProc_of_ne hne

/-! ### The end of a process -/

/-- No process is ended, and each record is changed at most as `exit` changes those of other
processes. -/
structure Bystanders (k k' : Kernel) : Prop where
  records : ∀ p, (k.proc p).Bystander (k'.proc p)
  current_eq : k'.hartCurrent = k.hartCurrent
  resched_eq : k'.needResched = k.needResched

@[refl] lemma Bystanders.refl (k : Kernel) : k.Bystanders k := ⟨fun _ => .refl _, rfl, rfl⟩

lemma Bystanders.trans (h : k.Bystanders k') (h' : k'.Bystanders k'') : k.Bystanders k'' :=
  ⟨fun p => (h.records p).trans (h'.records p), h'.current_eq.trans h.current_eq,
    h'.resched_eq.trans h.resched_eq⟩

lemma Bystanders.kept (h : k.Bystanders k') : k.Kept k' :=
  ⟨fun p => (h.records p).kept, h.current_eq⟩

lemma bystanders_modifyProc (hf : (k.proc p).Bystander (f (k.proc p))) : k.Bystanders (k.modifyProc p f) := by
  refine ⟨fun q => ?_, rfl, rfl⟩
  by_cases hq : q = p
  · rwa [hq, proc_modifyProc_self]
  · rw [proc_modifyProc_of_ne hq]

lemma bystanders_enqueue (h : Hart) (p : ℕ) (k : Kernel) : k.Bystanders (k.enqueue h p) := by
  unfold enqueue
  split
  · exact .refl k
  · have hrq : k.Bystanders (k.modifyProc p fun r => { r with onRq := true }) :=
      bystanders_modifyProc ⟨rfl, .inl rfl⟩
    exact hrq.trans ⟨fun p => .refl _, rfl, rfl⟩

/-- `k'` differs from `k` only in descriptors. -/
structure OnlyFds (k k' : Kernel) : Prop where
  eq_update : k' = { k with kernelFds := k'.kernelFds, proc := k'.proc }
  proc_eq : ∀ q, k'.proc q = { k.proc q with fds := (k'.proc q).fds }

namespace OnlyFds

@[refl] lemma refl (k : Kernel) : k.OnlyFds k := ⟨rfl, fun _ => rfl⟩

lemma trans (h : k.OnlyFds k') (h' : k'.OnlyFds k'') : k.OnlyFds k'' where
  eq_update := by
    rw [h'.eq_update, h.eq_update]
  proc_eq q := by
    rw [h'.proc_eq q, h.proc_eq q]

lemma fdModify (h : Hart) (idx : Fin vfsMaxFds) (f : VfsFd → VfsFd) (k : Kernel) :
    k.OnlyFds (k.fdModify h idx f) := by
  rw [Kernel.fdModify]
  split
  · exact ⟨rfl, fun _ => rfl⟩
  · refine ⟨rfl, fun q => ?_⟩
    rw [modifyCurrent, modifyProc]
    dsimp only
    by_cases hq : q = (k.hartCurrent h).getD 0
    · rw [hq, update_self]
    · rw [update_of_ne hq]

lemma closeFd (h : Hart) (p : ℕ) (k : Kernel) (i : Fin vfsMaxFds) : k.OnlyFds (k.closeFd h p i) := by
  rw [Kernel.closeFd]
  split
  · rw [close]
    split
    · exact fdModify ..
    · rfl
  · rfl

lemma foldl_closeFd (h : Hart) (p : ℕ) (is : List (Fin vfsMaxFds)) (k : Kernel) :
    k.OnlyFds (is.foldl (Kernel.closeFd h p) k) := by
  induction is generalizing k with
  | nil => exact refl k
  | cons i is ih => exact (closeFd h p k i).trans (ih _)

end OnlyFds

lemma Bystanders.of_onlyFds (hfds : k.OnlyFds k') : k.Bystanders k' := by
  refine ⟨fun p => ⟨?_, .inl ?_⟩, ?_, ?_⟩
  · rw [hfds.proc_eq p]
  · rw [hfds.proc_eq p]
  · rw [hfds.eq_update]
  · rw [hfds.eq_update]

lemma bystanders_foldl {α : Type} {step : Kernel → α → Kernel}
    (hstep : ∀ (k : Kernel) a, k.Bystanders (step k a)) (as : List α) (k : Kernel) :
    k.Bystanders (as.foldl step k) := by
  induction as generalizing k with
  | nil => exact .refl k
  | cons a as ih => exact (hstep k a).trans (ih _)

lemma wakeParent_cases (h : Hart) (parent : ℕ) (k : Kernel) : k.wakeParent h parent = k ∨
    ∃ pp, k.byPid parent = some pp ∧ (k.proc pp).state = .waiting ∧
      k.wakeParent h parent = (k.modifyProc pp fun r => { r with state := .ready }).enqueue h pp := by
  unfold wakeParent
  split
  · exact .inl rfl
  · split
    · exact .inl rfl
    · rename_i pp hv
      split
      · rename_i hwait
        exact .inr ⟨pp, hv, hwait, rfl⟩
      · exact .inl rfl

lemma bystanders_wakeParent (h : Hart) (parent : ℕ) (k : Kernel) : k.Bystanders (k.wakeParent h parent) := by
  rcases wakeParent_cases h parent k with heq | ⟨pp, -, hw, heq⟩
  · rw [heq]
  · rw [heq]
    exact (bystanders_modifyProc ⟨rfl, .inr ⟨hw, rfl⟩⟩).trans (bystanders_enqueue h pp _)

lemma bystanders_reparent (pid : ℕ) (k : Kernel) : k.Bystanders (k.reparent pid) := by
  refine bystanders_foldl (fun k c => ?_) _ k
  dsimp only
  split
  · exact bystanders_modifyProc ⟨rfl, .inl rfl⟩
  · exact .refl k

lemma exit_of_none {pid : ℕ} {code : ℤ} (hv : k.byPid pid = none) : k.exit h pid code = k := by
  rw [exit, hv]

/-- What `exit` does: the other processes are bystanders, and the process it finds has exited. -/
theorem exit_of_some {pid : ℕ} (h : Hart) (code : ℤ) (hv : k.byPid pid = some p) :
    (∀ q ≠ p, (k.proc q).Bystander ((k.exit h pid code).proc q)) ∧
      ((k.exit h pid code).proc p).state = .exited ∧
      ((k.proc p).ended code).Bystander ((k.exit h pid code).proc p) ∧
      (k.exit h pid code).hartCurrent = k.hartCurrent ∧
      (k.exit h pid code).needResched = k.needResched := by
  obtain ⟨k1, hk1⟩ : ∃ k1, k1 = (List.finRange vfsMaxFds).foldl (closeFd h p) k := ⟨_, rfl⟩
  have hclose : k.Bystanders k1 := hk1 ▸ .of_onlyFds (.foldl_closeFd h p _ k)
  obtain ⟨k2, hk2⟩ : ∃ k2, k2 = { k1 with mm := Vmm.destroyRoot (k1.proc p).rootPa k1.mm }.modifyProc p
    (Proc.ended code) := ⟨_, rfl⟩
  have hexit : k.exit h pid code = (k2.wakeParent h (k2.proc p).parentPid).reparent pid := by
    rw [exit, hv, hk2, hk1]
    rfl
  have hrest : k2.Bystanders (k.exit h pid code) := by
    rw [hexit]
    exact (bystanders_wakeParent h _ k2).trans (bystanders_reparent pid _)
  have hself : k2.proc p = (k1.proc p).ended code := by
    rw [hk2, proc_modifyProc_self]
  have hdone := hrest.records p
  have hstate : ((k.exit h pid code).proc p).state = .exited := by
    rw [hself] at hdone
    rcases hdone.state_cases with hs | ⟨hw, -⟩
    · exact hs
    · cases hw
  refine ⟨fun q hq => ?_, hstate, ?_, ?_, ?_⟩
  · have hk2q : k2.proc q = k1.proc q := by
      rw [hk2]
      exact proc_modifyProc_of_ne hq
    have := hrest.records q
    rw [hk2q] at this
    exact (hclose.records q).trans this
  · rw [hself] at hdone
    exact ((hclose.records p).ended code).trans hdone
  · rw [hrest.current_eq, hk2, hartCurrent_modifyProc]
    exact hclose.current_eq
  · rw [hrest.resched_eq, hk2, needResched_modifyProc]
    exact hclose.resched_eq

lemma signalSend_eq_ok {pid signal : ℕ} (hok : k.signalSend h pid signal = .ok k') : ∃ v k1, k.byPid pid = some v ∧
    k1 = (k.modifyProc v fun r => { r with pendingSignals := r.pendingSignals ||| sigBit signal }) ∧ (k' = k1 ∨
      (k1.proc v).state = .waiting ∧ k' = (k1.modifyProc v fun r => { r with state := .ready }).enqueue h v) := by
  unfold signalSend at hok
  split at hok
  · cases hok
  · split at hok
    · cases hok
    · rename_i v hv
      refine ⟨v, _, hv, rfl, ?_⟩
      dsimp only at hok
      split at hok
      · rename_i hwait
        cases hok
        exact .inr ⟨hwait, rfl⟩
      · cases hok
        exact .inl rfl

/-! ### A new process -/

/-- The state with a new record `r` at `q`, in front of the list and at the end of a run queue. -/
def withRecord (h : Hart) (q : ℕ) (r : Proc) (k : Kernel) : Kernel :=
  { k with proc := update k.proc q r, allProcs := q :: k.allProcs }.enqueue h q

/-- The record that `create_user` fills in. -/
def newProc (entry ustack rootPa pid parentPid heapBrk : ℕ) (ring : UInt8) (argc argvSp : ℕ) : Proc where
  pid := pid
  ring := ring
  state := .ready
  parentPid := parentPid
  rootPa := rootPa
  entry := entry
  ustack := ustack
  heapBrk := heapBrk
  uid := if ring ≤ procRingRoot then 0 else 1000
  gid := if ring ≤ procRingRoot then 0 else 1000
  tf :=
    { sepc := entry
      sp := if 0 < argc then argvSp else ustack
      a0 := argc
      a1 := if 0 < argc then wadd argvSp 8 else 0
      sstatus := sstatusSpie
      satp := satpModeSv39 ||| (rootPa >>> 12) }
  affinity := some 0

lemma createUser_ok {mem : Except Errno ℕ} {entry ustack rootPa pid parentPid heapBrk : ℕ}
    {ring : UInt8} {argc argvSp : ℕ}
    (hok : k.createUser h mem entry ustack rootPa pid parentPid heapBrk ring argc argvSp = .ok k') :
    ∃ q, mem = .ok q ∧ k' = k.withRecord h q
      (newProc entry ustack rootPa pid parentPid heapBrk ring argc argvSp) := by
  unfold createUser allocProc at hok
  split at hok
  · cases hok
  · cases mem with
    | error e => cases hok
    | ok q =>
      cases hok
      refine ⟨q, rfl, ?_⟩
      rw [withRecord, modifyProc]
      dsimp only
      rw [update_idem, update_self]
      rfl

lemma proc_withRecord_of_ne {r : Proc} (hne : p ≠ q) : (k.withRecord h q r).proc p = k.proc p := by
  rw [withRecord, proc_enqueue_of_ne hne]
  exact update_of_ne hne ..

lemma allProcs_enqueue (h : Hart) (p : ℕ) (k : Kernel) : (k.enqueue h p).allProcs = k.allProcs := by
  unfold enqueue
  split
  · rfl
  · rfl

lemma allProcs_withRecord (h : Hart) (q : ℕ) (r : Proc) (k : Kernel) :
    (k.withRecord h q r).allProcs = q :: k.allProcs := allProcs_enqueue ..

lemma nextPid_withRecord (h : Hart) (q : ℕ) (r : Proc) (k : Kernel) :
    (k.withRecord h q r).nextPid = k.nextPid := by
  unfold withRecord enqueue
  split
  · rfl
  · rfl

lemma proc_withRecord_self (h : Hart) (q : ℕ) (r : Proc) (k : Kernel) :
    (k.withRecord h q r).proc q = { r with onRq := ((k.withRecord h q r).proc q).onRq } := by
  unfold withRecord enqueue
  split
  · dsimp only
    rw [update_self]
  · dsimp only
    rw [proc_modifyProc_self]
    dsimp only
    rw [update_self]

end Kernel

end OnyxKernel
