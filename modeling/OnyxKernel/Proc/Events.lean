import OnyxKernel.Ipc.Stream
import OnyxKernel.Proc.RunQueue
import OnyxKernel.Syscall.KeptCalls

/-!
# The scheduler at work

What happens to the processes of a system in the course of time: processes are created and entered,
harts call the scheduler, processes wait, are signalled, exit and are reaped, and messages are sent and
received.  Each of these events is a sequence of a few actions on run queues and process states
(`SchedEvent.acts`), and what holds along a run is proved for the actions.
-/

namespace OnyxKernel

namespace Kernel

variable {h : Hart} {tf : TrapFrame} {k k' k'' : Kernel} {p q : ℕ}

/-- `enter_user`: hart `h` continues with the process `pid`. -/
def enterUser (h : Hart) (pid : ℕ) (k : Kernel) : Flow Unit :=
  match k.byPid pid with
  | none => .halted k
  | some p =>
    .switched (some p)
      ((k.modifyProc p fun r => { r with state := .running }).setCurrentForHart h (some p))

def sysSchedSetaffinity (h : Hart) (pid : ℕ) (cpu : ℤ) (k : Kernel) : ℤ × Kernel :=
  if cpu < -1 ∨ maxHarts ≤ cpu then (Errno.inval.asI64, k)
  else
    match k.byPid (pid % 2 ^ 32) with
    | none => (Errno.noEnt.asI64, k)
    | some p =>
      if (k.current h).pid ≠ pid % 2 ^ 32 ∧ procRingRoot < (k.current h).ring then (Errno.perm.asI64, k)
      else
        (0, k.modifyProc p fun r =>
          { r with affinity := if 0 ≤ cpu then some (Fin.ofNat maxHarts cpu.toNat) else none })

/-! ### Actions -/

/-- `k'` differs from `k` only in memory. -/
def OnlyMemory (k k' : Kernel) : Prop := ∃ mm copied, k' = { k with mm := mm, copied := copied }

namespace OnlyMemory

@[refl] lemma refl (k : Kernel) : k.OnlyMemory k := ⟨k.mm, k.copied, rfl⟩

lemma trans (hmem : k.OnlyMemory k') (hmem' : k'.OnlyMemory k'') : k.OnlyMemory k'' := by
  obtain ⟨mm, copied, rfl⟩ := hmem
  obtain ⟨mm', copied', rfl⟩ := hmem'
  exact ⟨mm', copied', rfl⟩

lemma copyOut (va pa : ℕ) (bytes : List UInt8) (k : Kernel) : k.OnlyMemory (k.copyOut va pa bytes) :=
  ⟨_, _, rfl⟩

lemma storeUser (va : ℕ) (bytes : List UInt8) (k : Kernel) :
    k.OnlyMemory (k.storeUser h va bytes).kernel := by
  induction bytes generalizing va k with
  | nil => exact .refl k
  | cons b bs ih =>
    rw [Kernel.storeUser]
    split_ifs
    · exact .refl k
    · exact (copyOut _ _ _ k).trans (ih _ _)

lemma storeStatus (statusOut : ℕ) (code : ℤ) (k : Kernel) :
    k.OnlyMemory (k.storeStatus h statusOut code) := by
  unfold Kernel.storeStatus
  split
  · exact .refl k
  · dsimp only
    split
    · exact copyOut _ _ _ k
    · exact .refl k

end OnlyMemory

/-- Nothing has happened that the scheduler could notice. -/
structure SameSched (k k' : Kernel) : Prop where
  allProcs_eq : k'.allProcs = k.allProcs
  hartCurrent_eq : k'.hartCurrent = k.hartCurrent
  runQueue_eq : k'.runQueue = k.runQueue
  state_eq : ∀ p, (k'.proc p).state = (k.proc p).state
  onRq_eq : ∀ p, (k'.proc p).onRq = (k.proc p).onRq

namespace SameSched

@[refl] lemma refl (k : Kernel) : k.SameSched k := ⟨rfl, rfl, rfl, fun _ => rfl, fun _ => rfl⟩

lemma trans (h : k.SameSched k') (h' : k'.SameSched k'') : k.SameSched k'' where
  allProcs_eq := h'.allProcs_eq.trans h.allProcs_eq
  hartCurrent_eq := h'.hartCurrent_eq.trans h.hartCurrent_eq
  runQueue_eq := h'.runQueue_eq.trans h.runQueue_eq
  state_eq p := (h'.state_eq p).trans (h.state_eq p)
  onRq_eq p := (h'.onRq_eq p).trans (h.onRq_eq p)

lemma modifyProc {f : Proc → Proc} (hstate : ∀ r, (f r).state = r.state)
    (hon : ∀ r, (f r).onRq = r.onRq) (p : ℕ) (k : Kernel) : k.SameSched (k.modifyProc p f) := by
  refine ⟨rfl, rfl, rfl, fun q => ?_, fun q => ?_⟩
  · by_cases hq : q = p
    · rw [hq, proc_modifyProc_self, hstate]
    · rw [proc_modifyProc_of_ne hq]
  · by_cases hq : q = p
    · rw [hq, proc_modifyProc_self, hon]
    · rw [proc_modifyProc_of_ne hq]

lemma foldl {α : Type} {step : Kernel → α → Kernel} (hstep : ∀ (k : Kernel) a, k.SameSched (step k a))
    (as : List α) (k : Kernel) : k.SameSched (as.foldl step k) := by
  induction as generalizing k with
  | nil => exact .refl k
  | cons a as ih => exact (hstep k a).trans (ih _)

lemma of_onlyFds (hfds : k.OnlyFds k') : k.SameSched k' := by
  refine ⟨?_, ?_, ?_, fun p => ?_, fun p => ?_⟩
  · rw [hfds.eq_update]
  · rw [hfds.eq_update]
  · rw [hfds.eq_update]
  · rw [hfds.proc_eq p]
  · rw [hfds.proc_eq p]

lemma reparent (pid : ℕ) (k : Kernel) : k.SameSched (k.reparent pid) := by
  refine foldl (fun k c => ?_) _ k
  dsimp only
  split
  · apply SameSched.modifyProc
    · exact fun _ => rfl
    · exact fun _ => rfl
  · exact .refl k

lemma of_onlyMemory (hmem : k.OnlyMemory k') : k.SameSched k' := by
  obtain ⟨mm, copied, rfl⟩ := hmem
  exact ⟨rfl, rfl, rfl, fun _ => rfl, fun _ => rfl⟩

end SameSched

/-- No process has been created or given up, and one whose state has changed is ready or runs. -/
structure Settles (k k' : Kernel) : Prop where
  allProcs_eq : k'.allProcs = k.allProcs
  nextPid_eq : k'.nextPid = k.nextPid
  pid_eq : ∀ p, (k'.proc p).pid = (k.proc p).pid
  parentPid_eq : ∀ p, (k'.proc p).parentPid = (k.proc p).parentPid
  state_cases : ∀ p, (k'.proc p).state = (k.proc p).state ∨ (k'.proc p).state = .ready ∨
    (k'.proc p).state = .running

namespace Settles

@[refl] lemma refl (k : Kernel) : k.Settles k := ⟨rfl, rfl, fun _ => rfl, fun _ => rfl, fun _ => .inl rfl⟩

lemma of_proc_eq (hproc : k'.proc = k.proc) (hlist : k'.allProcs = k.allProcs) (hnext : k'.nextPid = k.nextPid) :
    k.Settles k' := by
  refine ⟨hlist, hnext, fun p => ?_, fun p => ?_, fun p => .inl ?_⟩ <;> rw [hproc]

lemma of_onlyMemory (hmem : k.OnlyMemory k') : k.Settles k' := by
  obtain ⟨mm, copied, rfl⟩ := hmem
  exact of_proc_eq rfl rfl rfl

end Settles

/-- The current process of a hart begins to wait. -/
def startWaiting (h : Hart) (k : Kernel) : Kernel :=
  match k.hartCurrent h with
  | none => k
  | some p => k.modifyProc p fun r => { r with state := .waiting }

/-- What an event does to run queues and process states. -/
inductive Act where
  /-- nothing -/
  | quiet
  /-- a process exits -/
  | ended (p : ℕ)
  /-- a waiting process becomes ready and is put into a queue -/
  | woken (h : Hart) (p : ℕ)
  /-- a process becomes ready and is not put into a queue -/
  | readied (p : ℕ)
  /-- a new process is put into a queue -/
  | created (h : Hart) (q : ℕ)
  /-- the record of a process is given up -/
  | reaped (c : ℕ)
  /-- a hart is given to a process at boot -/
  | entered (h : Hart) (p : ℕ)
  /-- a hart calls the scheduler -/
  | yielded (h : Hart) (tf : TrapFrame)
  /-- a hart calls the scheduler after its process has begun to wait -/
  | blocked (h : Hart) (tf : TrapFrame)

/-- The effect of an action. -/
inductive Acts : Act → Kernel → Kernel → Prop
  | quiet {k k' : Kernel} (hsame : k.SameSched k') : Acts .quiet k k'
  | ended {k : Kernel} {p : ℕ} (code : ℤ) (hmem : p ∈ k.allProcs) :
      Acts (.ended p) k (k.modifyProc p (Proc.ended code))
  | woken {k : Kernel} {p : ℕ} (h : Hart) (hmem : p ∈ k.allProcs) (hwait : (k.proc p).state = .waiting) :
      Acts (.woken h p) k ((k.modifyProc p fun r => { r with state := .ready }).enqueue h p)
  | readied {k : Kernel} {p : ℕ} : Acts (.readied p) k (k.modifyProc p fun r => { r with state := .ready })
  | created {k : Kernel} {q : ℕ} (h : Hart) (r : Proc) (hnew : q ∉ k.allProcs)
      (hready : r.state = .ready) (hoff : r.onRq = false) : Acts (.created h q) k (k.withRecord h q r)
  | reaped {k : Kernel} {c : ℕ} : Acts (.reaped c) k (k.freeProc c)
  | entered {k : Kernel} {p : ℕ} (h : Hart) (hmem : p ∈ k.allProcs) :
      Acts (.entered h p) k
        ((k.modifyProc p fun r => { r with state := .running }).setCurrentForHart h (some p))
  | yielded {k : Kernel} (h : Hart) (tf : TrapFrame) : Acts (.yielded h tf) k (k.schedYield h tf).kernel
  | blocked {k : Kernel} (h : Hart) (tf : TrapFrame) :
      Acts (.blocked h tf) k ((k.startWaiting h).schedYield h tf).kernel

/-- An action that is allowed in the state in which it is taken. -/
inductive ActStep (P : Act → Kernel → Prop) (k k' : Kernel) : Prop
  | act (a : Act) (hP : P a k) (hact : Acts a k k') : ActStep P k k'

/-- A condition on actions that concerns exits and the actions in which the scheduler could go wrong. -/
structure Mild (P : Act → Kernel → Prop) : Prop where
  quiet : ∀ k, P .quiet k
  woken : ∀ h p k, P (.woken h p) k
  created : ∀ h q k, P (.created h q) k
  blocked : ∀ h tf k, P (.blocked h tf) k
  readied : ∀ p q k, P (.readied p) k → P (.readied p) (k.modifyProc q fun r => { r with state := .ready })

/-- A condition on actions that concerns those only in which the scheduler could go wrong. -/
structure Lenient (P : Act → Kernel → Prop) : Prop extends Mild P where
  ended : ∀ p k, P (.ended p) k

/-- A run of allowed actions. -/
abbrev ActRun (P : Act → Kernel → Prop) : Kernel → Kernel → Prop := Relation.ReflTransGen (ActStep P)

variable {P : Act → Kernel → Prop} {pid signal id : ℕ} {α : Type} {s : Ipc}

lemma actRun_of_same (hP : Mild P) (hsame : k.SameSched k') : ActRun P k k' :=
  .single ⟨.quiet, hP.quiet k, .quiet hsame⟩

lemma mem_of_byPid (hv : k.byPid pid = some p) : p ∈ k.allProcs := List.mem_of_find?_eq_some hv

lemma actRun_wakeParent (hP : Mild P) (h : Hart) (parent : ℕ) (k : Kernel) :
    ActRun P k (k.wakeParent h parent) := by
  rcases wakeParent_cases h parent k with heq | ⟨pp, hv, hwait, heq⟩
  · rw [heq]
  · rw [heq]
    exact .single ⟨_, hP.woken h pp k, .woken h (mem_of_byPid hv) hwait⟩

/-- What `exit` does first: it closes the descriptors of the process and gives up its address space. -/
def released (h : Hart) (v : ℕ) (k : Kernel) : Kernel :=
  let k := (List.finRange vfsMaxFds).foldl (closeFd h v) k
  { k with mm := Vmm.destroyRoot (k.proc v).rootPa k.mm }

lemma sameSched_released (h : Hart) (v : ℕ) (k : Kernel) : k.SameSched (k.released h v) :=
  (SameSched.of_onlyFds (.foldl_closeFd h v _ k)).trans (.of_onlyMemory ⟨_, _, rfl⟩)

lemma exit_of_byPid {v : ℕ} (h : Hart) (code : ℤ) (hv : k.byPid pid = some v) :
    k.exit h pid code = (((k.released h v).modifyProc v (Proc.ended code)).wakeParent h
      (((k.released h v).modifyProc v (Proc.ended code)).proc v).parentPid).reparent pid := by
  rw [exit, hv]
  rfl

lemma actRun_exit (hP : Mild P) (h : Hart) (pid : ℕ) (code : ℤ) (k : Kernel)
    (hended : ∀ p k1, k.byPid pid = some p → k.SameSched k1 → P (.ended p) k1) :
    ActRun P k (k.exit h pid code) := by
  cases hv : k.byPid pid with
  | none => rw [exit_of_none hv]
  | some p =>
    have hsame := sameSched_released h p k
    rw [exit_of_byPid h code hv]
    generalize k.released h p = k1 at hsame ⊢
    have hmem : p ∈ k1.allProcs := hsame.allProcs_eq ▸ mem_of_byPid hv
    refine (actRun_of_same hP hsame).trans (.trans (.single ⟨_, hended p k1 hv hsame, .ended code hmem⟩) ?_)
    exact (actRun_wakeParent hP h _ _).trans (actRun_of_same hP (.reparent pid _))

lemma signalSend_cases (hok : k.signalSend h pid signal = .ok k') :
    ∃ v k1, k.byPid pid = some v ∧ k.SameSched k1 ∧ (k' = k1 ∨ (k1.proc v).state = .waiting ∧
      k' = (k1.modifyProc v fun r => { r with state := .ready }).enqueue h v) := by
  obtain ⟨v, k1, hv, hk1, heq⟩ := signalSend_eq_ok hok
  refine ⟨v, k1, hv, ?_, heq⟩
  rw [hk1]
  apply SameSched.modifyProc
  · exact fun _ => rfl
  · exact fun _ => rfl

lemma actRun_signalSend (hP : Mild P) (hok : k.signalSend h pid signal = .ok k') : ActRun P k k' := by
  obtain ⟨v, k1, hv, hsame, heq | ⟨hwait, heq⟩⟩ := signalSend_cases hok
  · rw [heq]
    exact actRun_of_same hP hsame
  · rw [heq]
    have hmem : v ∈ k1.allProcs := hsame.allProcs_eq ▸ mem_of_byPid hv
    exact (actRun_of_same hP hsame).tail ⟨_, hP.woken h v k1, .woken h hmem hwait⟩

lemma actRun_createUser {mem entry ustack rootPa parentPid heapBrk : ℕ} {ring : UInt8}
    {argc argvSp : ℕ} (hP : Mild P) (hnew : mem ∉ k.allProcs)
    (hok : k.createUser h (.ok mem) entry ustack rootPa pid parentPid heapBrk ring argc argvSp = .ok k') :
    ActRun P k k' := by
  obtain ⟨q, hq, rfl⟩ := createUser_ok hok
  cases hq
  exact .single ⟨_, hP.created h mem k, .created h _ hnew rfl rfl⟩

lemma actRun_reap (hP : Mild P) (hreap : P (.reaped p) k) (hsame : k.SameSched k') :
    ActRun P k (k'.freeProc p) := by
  refine .trans (.single ⟨_, hreap, .reaped⟩) (actRun_of_same hP ?_)
  refine ⟨?_, hsame.hartCurrent_eq, hsame.runQueue_eq, hsame.state_eq, hsame.onRq_eq⟩
  rw [freeProc, freeProc, hsame.allProcs_eq]

lemma exited_of_isExitedChild {c : ℕ} (hc : k.isExitedChild pid c = true) :
    (k.proc c).parentPid = pid ∧ (k.proc c).state = .exited := by
  simpa [isExitedChild] using hc

/-- How a call of `wait` or `waitpid` ends, where `found` is the child it finds: the child is taken out of the
list, the call returns without that, or the caller begins to wait. -/
inductive WaitOutcome (found : Option ℕ) (h : Hart) (tf : TrapFrame) (k k' : Kernel) : Prop
  | reaped (c : ℕ) (hfound : found = some c) (k1 : Kernel) (hs : k.Settles k1) (hsame : k.SameSched k1)
      (heq : k' = k1.freeProc c)
  | settled (hs : k.Settles k') (hsame : k.SameSched k')
  | blocked (hnone : found = none) (heq : k' = ((k.startWaiting h).schedYield h tf).kernel)

lemma kernel_block (h : Hart) (tf : TrapFrame) (k : Kernel) :
    (k.block h tf).kernel = ((k.startWaiting h).schedYield h tf).kernel := by
  rw [block, kernel_bind_ret _ fun _ => Except.error Errno.noEnt]
  rfl

lemma waitOutcome_bind {α : Type} {found : Option ℕ} {x : Flow Unit} (hfound : found = some c)
    (hs : k.Settles x.kernel) (hsame : k.SameSched x.kernel) (a : α) :
    WaitOutcome found h tf k (x.bind fun _ k => .ret a (k.freeProc c)).kernel := by
  cases x with
  | ret a k1 => exact .reaped c hfound k1 hs hsame rfl
  | switched dest k1 => exact .settled hs hsame
  | halted k1 => exact .settled hs hsame

lemma waitOutcome_wait (h : Hart) (tf : TrapFrame) (statusOut : Option ℕ) (k : Kernel) :
    WaitOutcome (k.allProcs.find? (k.isExitedChild (k.currentPid h))) h tf k (k.wait h tf statusOut).kernel := by
  unfold wait
  dsimp only
  split
  · rename_i c hc
    cases statusOut with
    | none => exact waitOutcome_bind (x := .ret () k) hc (.refl k) (.refl k) _
    | some va => exact waitOutcome_bind hc (.of_onlyMemory (.storeUser va _ k)) (.of_onlyMemory (.storeUser va _ k)) _
  · rename_i hnone
    split_ifs
    · exact .blocked hnone (kernel_block h tf k)
    · exact .settled (.refl k) (.refl k)

lemma waitOutcome_sysWaitpid (h : Hart) (tf : TrapFrame) (pid statusOut options : ℕ) (k : Kernel) :
    WaitOutcome (k.allProcs.find? fun c =>
      k.isExitedChild (k.currentPid h) c && matchesPid pid (k.proc c).pid) h tf k
      (k.sysWaitpid h tf pid statusOut options).kernel := by
  unfold sysWaitpid
  dsimp only
  split
  · exact .settled (.refl k) (.refl k)
  · split
    · rename_i c hc
      exact .reaped c hc _ (.of_onlyMemory (.storeStatus statusOut _ k)) (.of_onlyMemory (.storeStatus statusOut _ k)) rfl
    · rename_i hnone
      split_ifs
      · exact .settled (.refl k) (.refl k)
      · exact .settled (.refl k) (.refl k)
      · refine .blocked hnone ?_
        rw [kernel_bind_ret]
        exact kernel_block h tf k

lemma actRun_of_waitOutcome (hP : Mild P) {found : Option ℕ} (hreap : ∀ c, found = some c → P (.reaped c) k)
    (hout : WaitOutcome found h tf k k') : ActRun P k k' := by
  cases hout with
  | reaped c hfound k1 hs hsame heq =>
    rw [heq]
    exact actRun_reap hP (hreap c hfound) hsame
  | settled hs hsame => exact actRun_of_same hP hsame
  | blocked hnone heq =>
    rw [heq]
    exact .single ⟨_, hP.blocked h tf k, .blocked h tf⟩

lemma actRun_readied (hP : Mild P) (ps : List ℕ) (k : Kernel) (hready : ∀ p ∈ ps, P (.readied p) k) :
    ActRun P k (ps.foldl (fun k p => k.modifyProc p fun r => { r with state := .ready }) k) := by
  induction ps generalizing k with
  | nil => rfl
  | cons p ps ih =>
    refine .head ⟨_, hready p List.mem_cons_self, .readied⟩ (ih _ fun q hq => ?_)
    exact hP.readied q p k (hready q (List.mem_cons_of_mem p hq))

lemma sameSched_setNeedResched (h : Hart) (b : Bool) (k : Kernel) :
    k.SameSched (k.setNeedResched h b) := ⟨rfl, rfl, rfl, fun _ => rfl, fun _ => rfl⟩

section

variable (hP : Mild P) (hcur : k.hartCurrent h = some p)
include hP hcur

omit hP in
lemma kernel_waitEnqueue (head : Option ℕ) (next : ℕ → Option ℕ) (tf : TrapFrame) (a : α) :
    ((((Ipc.waitEnqueue h head next k).2.2.setNeedResched h true).schedYield h tf).bind
      fun _ k => Flow.ret a k).kernel = (((k.setNeedResched h true).startWaiting h).schedYield h tf).kernel := by
  have heq : (Ipc.waitEnqueue h head next k).2.2.setNeedResched h true =
      (k.setNeedResched h true).startWaiting h := by
    rw [startWaiting, show (k.setNeedResched h true).hartCurrent h = some p from hcur, Ipc.waitEnqueue, hcur]
    rfl
  rw [kernel_bind_ret _ fun _ => a, heq]

lemma actRun_transfer {tf : Option TrapFrame} {side other : Side}
    {idle : Except Errno α} {tried : Channel → Except Errno (Option (α × Channel))}
    (hready : ∀ (i : Fin chanMax) a ch, i = id → tried (s.channels i) = .ok (some (a, ch)) →
      ∀ p ∈ (Ipc.waitChain (wordSize + 1) s.waitNext (ch.waitOf other)).1, P (.readied p) k) :
    ActRun P k (s.transfer h k id tf side other idle tried).1.kernel := by
  generalize hx : s.transfer h k id tf side other idle tried = x
  refine Ipc.transfer_cases hx ?_ ?_ ?_ ?_
  · exact fun _ _ _ => .refl
  · intro i tf' _ _ _
    rw [kernel_waitEnqueue hcur _ _ tf']
    exact .tail (actRun_of_same hP (sameSched_setNeedResched h true k)) ⟨_, hP.blocked h tf' _, .blocked h tf'⟩
  · exact fun _ _ _ _ _ => .refl
  · intro i a ch hi htry
    exact (actRun_readied hP _ k (hready i a ch hi htry)).trans
      (actRun_of_same hP (sameSched_setNeedResched h true _))

lemma actRun_send {bytes : List UInt8} (tf : Option TrapFrame)
    (hready : ∀ (hid : id < chanMax) (ch : Channel),
      (s.channels ⟨id, hid⟩).trySend (k.currentPid h) bytes = .ok ch →
        ∀ p ∈ (Ipc.waitChain (wordSize + 1) s.waitNext ch.recvWait).1, P (.readied p) k) :
    ActRun P k (s.send h k id bytes tf).1.kernel := by
  rw [Ipc.send_eq]
  refine actRun_transfer hP hcur fun i n ch hi htry => ?_
  subst hi
  exact hready i.isLt ch (Channel.sends_eq_some_iff.mp htry).2

lemma actRun_recv {len : ℕ} (tf : Option TrapFrame)
    (hready : ∀ (hid : id < chanMax) (bytes : List UInt8) (ch : Channel),
      (s.channels ⟨id, hid⟩).tryRecv (k.currentPid h) len = .ok (some (bytes, ch)) →
        ∀ p ∈ (Ipc.waitChain (wordSize + 1) s.waitNext ch.sendWait).1, P (.readied p) k) :
    ActRun P k (s.recv h k id len tf).1.kernel := by
  rw [Ipc.recv_eq]
  refine actRun_transfer hP hcur fun i bytes ch hi htry => ?_
  subst hi
  exact hready i.isLt bytes ch htry

end

lemma sameSched_sysSchedSetaffinity (h : Hart) (pid : ℕ) (cpu : ℤ) (k : Kernel) :
    k.SameSched (k.sysSchedSetaffinity h pid cpu).2 := by
  unfold sysSchedSetaffinity
  split
  · rfl
  · split
    · rfl
    · split
      · rfl
      · dsimp only
        apply SameSched.modifyProc
        · exact fun _ => rfl
        · exact fun _ => rfl

lemma actRun_enterUser (hP : ∀ p, k.byPid pid = some p → P (.entered h p) k) :
    ActRun P k (k.enterUser h pid).kernel := by
  unfold enterUser
  split
  · rfl
  · rename_i p hv
    exact .single ⟨_, hP p hv, .entered h (mem_of_byPid hv)⟩

end Kernel

/-! ### Events -/

open Kernel Option

/-- An event in the life of the system. -/
inductive SchedEvent where
  /-- `create_user`, with the address of the new record -/
  | createUser (h : Hart) (mem entry ustack rootPa pid parentPid heapBrk : ℕ) (ring : UInt8)
      (argc argvSp : ℕ)
  /-- `enter_user` -/
  | enterUser (h : Hart) (pid : ℕ)
  /-- `sched_yield` -/
  | yield (h : Hart) (tf : TrapFrame)
  /-- `sched_setaffinity` -/
  | setaffinity (h : Hart) (pid : ℕ) (cpu : ℤ)
  /-- `exit`, for whatever reason -/
  | exit (h : Hart) (pid : ℕ) (code : ℤ)
  /-- `signal_send` -/
  | signalSend (h : Hart) (pid signal : ℕ)
  /-- `wait` -/
  | wait (h : Hart) (tf : TrapFrame) (statusOut : Option ℕ)
  /-- `waitpid` -/
  | waitpid (h : Hart) (tf : TrapFrame) (pid statusOut options : ℕ)
  /-- an operation on the channels -/
  | ipc (op : IpcOp)

namespace SchedEvent

/-- The state after an event. -/
def step : SchedEvent → System → System
  | createUser h mem entry ustack rootPa pid parentPid heapBrk ring argc argvSp, s =>
    match s.kernel.createUser h (.ok mem) entry ustack rootPa pid parentPid heapBrk ring argc argvSp with
    | .ok k => ⟨{ s.ipc with waitNext := Function.update s.ipc.waitNext mem none }, k⟩
    | .error _ => s
  | enterUser h pid, s => { s with kernel := (s.kernel.enterUser h pid).kernel }
  | yield h tf, s => { s with kernel := (s.kernel.schedYield h tf).kernel }
  | setaffinity h pid cpu, s => { s with kernel := (s.kernel.sysSchedSetaffinity h pid cpu).2 }
  | exit h pid code, s => { s with kernel := s.kernel.exit h pid code }
  | signalSend h pid signal, s =>
    match s.kernel.signalSend h pid signal with
    | .ok k => { s with kernel := k }
    | .error _ => s
  | wait h tf statusOut, s => { s with kernel := (s.kernel.wait h tf statusOut).kernel }
  | waitpid h tf pid statusOut options, s =>
    { s with kernel := (s.kernel.sysWaitpid h tf pid statusOut options).kernel }
  | ipc op, s => op.step s

/-- What the surroundings guarantee: the heap returns memory for a record in which no process lives,
and messages are sent and received by processes. -/
def Possible : SchedEvent → System → Prop
  | createUser _ mem _ _ _ _ _ _ _ _ _, s => mem ∉ s.kernel.allProcs
  | ipc (.send h _ _ _), s | ipc (.recv h _ _ _), s => (s.kernel.hartCurrent h).isSome
  | ipc (.elsewhere _), _ => False
  | _, _ => True

/-- A condition on actions, for the actions of an event in which the scheduler could go wrong. -/
def Meets (P : Act → Kernel → Prop) : SchedEvent → System → Prop
  | enterUser h pid, s => ∀ p, s.kernel.byPid pid = some p → P (.entered h p) s.kernel
  | yield h tf, s => P (.yielded h tf) s.kernel
  | wait h _ _, s => ∀ c,
    s.kernel.allProcs.find? (s.kernel.isExitedChild (s.kernel.currentPid h)) = some c → P (.reaped c) s.kernel
  | waitpid h _ pid _ _, s => ∀ c,
    (s.kernel.allProcs.find? fun c =>
      s.kernel.isExitedChild (s.kernel.currentPid h) c && matchesPid pid (s.kernel.proc c).pid) = some c →
      P (.reaped c) s.kernel
  | ipc (.send h id bytes _), s => ∀ (hid : id < chanMax) (ch : Channel),
    (s.ipc.channels ⟨id, hid⟩).trySend (s.kernel.currentPid h) bytes = .ok ch →
      ∀ p ∈ (Ipc.waitChain (wordSize + 1) s.ipc.waitNext ch.recvWait).1, P (.readied p) s.kernel
  | ipc (.recv h id len _), s => ∀ (hid : id < chanMax) (bytes : List UInt8) (ch : Channel),
    (s.ipc.channels ⟨id, hid⟩).tryRecv (s.kernel.currentPid h) len = .ok (some (bytes, ch)) →
      ∀ p ∈ (Ipc.waitChain (wordSize + 1) s.ipc.waitNext ch.sendWait).1, P (.readied p) s.kernel
  | _, _ => True

variable {P : Act → Kernel → Prop} {s : System}

/-- The condition holds of every exit. -/
def MeetsExit (P : Act → Kernel → Prop) : SchedEvent → System → Prop
  | exit _ pid _, s => ∀ p k1, s.kernel.byPid pid = some p → s.kernel.SameSched k1 → P (.ended p) k1
  | _, _ => True

lemma acts_of_mild (hP : Mild P) (e : SchedEvent) (hposs : e.Possible s) (hmeets : e.Meets P s)
    (hexit : e.MeetsExit P s) : ActRun P s.kernel (e.step s).kernel := by
  cases e with
  | createUser h mem entry ustack rootPa pid parentPid heapBrk ring argc argvSp =>
    rw [step]
    split
    · rename_i k hok
      exact actRun_createUser hP hposs hok
    · rfl
  | enterUser h pid => exact actRun_enterUser hmeets
  | yield h tf => exact .single ⟨_, hmeets, .yielded h tf⟩
  | setaffinity h pid cpu => exact actRun_of_same hP (sameSched_sysSchedSetaffinity h pid cpu s.kernel)
  | exit h pid code => exact actRun_exit hP h pid code s.kernel hexit
  | signalSend h pid signal =>
    rw [step]
    split
    · rename_i k hok
      exact actRun_signalSend hP hok
    · rfl
  | wait h tf statusOut => exact actRun_of_waitOutcome hP hmeets (waitOutcome_wait h tf statusOut s.kernel)
  | waitpid h tf pid statusOut options =>
    exact actRun_of_waitOutcome hP hmeets (waitOutcome_sysWaitpid h tf pid statusOut options s.kernel)
  | ipc op =>
    cases op with
    | send h id bytes tf =>
      obtain ⟨p, hp⟩ := isSome_iff_exists.mp hposs
      exact actRun_send hP hp tf hmeets
    | recv h id len tf =>
      obtain ⟨p, hp⟩ := isSome_iff_exists.mp hposs
      exact actRun_recv hP hp tf hmeets
    | elsewhere k => exact hposs.elim
    | create pid => exact .refl
    | createNamed name pid => exact .refl
    | openByName name pid => exact .refl
    | connect id pid => exact .refl
    | disconnect id pid => exact .refl
    | close id => exact .refl

lemma acts (hP : Lenient P) (e : SchedEvent) (hposs : e.Possible s) (hmeets : e.Meets P s) :
    ActRun P s.kernel (e.step s).kernel := by
  refine e.acts_of_mild hP.toMild hposs hmeets ?_
  cases e with
  | exit h pid code => exact fun p k1 _ _ => hP.ended p k1
  | _ => trivial

end SchedEvent

/-- A step of the system: a possible event that satisfies `Q`. -/
inductive SchedStep (Q : SchedEvent → System → Prop) (s : System) : System → Prop
  | event (e : SchedEvent) (hposs : e.Possible s) (hq : Q e s) : SchedStep Q s (e.step s)

/-- The kernel before any process has been created. -/
def Kernel.boot (mm : Mm) : Kernel where
  mm := mm
  allProcs := []
  proc _ := {}
  hartCurrent _ := none
  needResched _ := false
  runQueue _ := []
  rqLocked _ := false
  idleTf _ := {}
  nextPid := 1
  kernelFds _ := {}
  upticks := 0
  copied := []

/-- The system before any process has been created. -/
def System.boot (mm : Mm) : System := ⟨{}, Kernel.boot mm⟩

lemma Kernel.ActRun.invariant {P : Act → Kernel → Prop} {I : Kernel → Prop} {k k' : Kernel}
    (hact : ∀ {k k' : Kernel} {a : Act}, Acts a k k' → P a k → I k → I k') (hrun : ActRun P k k')
    (hk : I k) : I k' := by
  induction hrun with
  | refl => exact hk
  | tail _ hstep ih =>
    obtain ⟨a, ha, hk⟩ := hstep
    exact hact hk ha ih

/-- What the allowed actions preserve holds in every state that is reached by events with allowed
actions. -/
theorem SchedStep.invariant {P : Act → Kernel → Prop} {I : Kernel → Prop} {s s' : System} (hP : Lenient P)
    (hact : ∀ {k k' : Kernel} {a : Act}, Acts a k k' → P a k → I k → I k') (hs : I s.kernel)
    (hrun : Relation.ReflTransGen (SchedStep (SchedEvent.Meets P)) s s') : I s'.kernel := by
  induction hrun with
  | refl => exact hs
  | tail _ hstep ih =>
    obtain ⟨e, hposs, hmeets⟩ := hstep
    exact ActRun.invariant hact (e.acts hP hposs hmeets) ih

end OnyxKernel
