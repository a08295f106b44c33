import OnyxKernel.Srv.Trap

/-!
# The frames that processes resume with

A process goes on after a trap with the frame the handler returns or, where the hart is given to another
process, with the frame that `sched_yield` keeps in its record until it is dispatched again.  What happens
to these frames decides two contracts with the user.

* A child of `fork` should return from the call as its parent does.  Its frame is a copy of the frame at the
  `ecall`, and the handler moves only the frame of the caller behind the instruction: the child executes the
  `ecall` once more.
* A process should go on after a signal handler as if it had not been interrupted.  `sigreturn` puts the
  saved frame in place, and the handler of the system call then sets `a0` and moves `sepc` on.
-/

namespace OnyxKernel

open Option List Sys

/-- The frame with which the process at `p` goes on after a trap. -/
def Flow.frameOf (p : ℕ) : Flow TrapFrame → Option TrapFrame
  | .ret tf _ => some tf
  | .switched _ k => some (k.proc p).tf
  | .halted _ => none

namespace Kernel

variable {h : Hart} {tf tf' : TrapFrame} {k k' : Kernel} {p q c : ℕ} {t : Trap}

/-! ### What becomes of the saved frames -/

lemma Requeued.tf_eq (hreq : k.Requeued k') (p : ℕ) : (k'.proc p).tf = (k.proc p).tf := by
  rw [hreq.proc_eq p]

lemma tf_modifyProc {f : Proc → Proc} (hf : ∀ r, (f r).tf = r.tf) (p q : ℕ) (k : Kernel) :
    ((k.modifyProc p f).proc q).tf = (k.proc q).tf := by
  by_cases hq : q = p
  · rw [hq, proc_modifyProc_self, hf]
  · rw [proc_modifyProc_of_ne hq]

lemma tf_saveContext (hcur : k.hartCurrent h = some p) (tf : TrapFrame) (q : ℕ) :
    ((k.saveContext h tf).proc q).tf = if q = p then tf else (k.proc q).tf := by
  have hmod : ((k.modifyProc p fun r => { r with tf := tf }).proc q).tf = if q = p then tf else (k.proc q).tf := by
    by_cases hq : q = p
    · rw [hq, proc_modifyProc_self, if_pos rfl]
    · rw [proc_modifyProc_of_ne hq, if_neg hq]
  rw [← hmod]
  unfold saveContext
  rw [hcur]
  dsimp only
  split_ifs
  · refine ((requeued_enqueue h p _).tf_eq q).trans ?_
    apply tf_modifyProc
    exact fun _ => rfl
  · rfl

lemma tf_resume (h : Hart) (r : Option ℕ × Kernel) (q : ℕ) :
    ((resume h r).kernel.proc q).tf = (r.2.proc q).tf := by
  have hrun : ∀ (p : ℕ) (k : Kernel), ((k.modifyProc p fun r => { r with state := .running }).proc q).tf =
      (k.proc q).tf := by
    intro p k
    apply tf_modifyProc
    exact fun _ => rfl
  rcases r with ⟨_ | p, k⟩
  · unfold resume noneReady
    dsimp only
    split
    · rfl
    · split_ifs
      · rfl
      · rfl
      · exact hrun ..
  · exact hrun p k

lemma tf_schedYield (hcur : k.hartCurrent h = some p) (tf : TrapFrame) (q : ℕ) :
    ((k.schedYield h tf).kernel.proc q).tf = if q = p then tf else (k.proc q).tf := by
  rw [schedYield_eq, tf_resume, (Picked.choose _ h).requeued.tf_eq, tf_saveContext hcur]

/-- A process that goes on does so with the frame `tf`, and the frames in the other records stay. -/
def GoesOn (p : ℕ) (tf : TrapFrame) (k : Kernel) (x : Flow TrapFrame) : Prop :=
  (∀ f, x.frameOf p = some f → f = tf) ∧ ∀ q ≠ p, (x.kernel.proc q).tf = (k.proc q).tf

lemma goesOn_schedYield (hcur : k.hartCurrent h = some p) (tf : TrapFrame) {f : Unit → Kernel → Flow TrapFrame}
    (hf : ∀ a k', f a k' = .ret tf k' ∨ f a k' = .halted k') :
    GoesOn p tf k ((k.schedYield h tf).bind f) := by
  have hyield := tf_schedYield hcur tf
  have hothers : ∀ q ≠ p, ((k.schedYield h tf).kernel.proc q).tf = (k.proc q).tf := fun q hq =>
    (hyield q).trans (if_neg hq)
  cases hx : k.schedYield h tf with
  | ret a k' =>
    rw [hx] at hothers
    rw [Flow.bind]
    rcases hf a k' with hret | hhalt
    · rw [hret]
      exact ⟨fun g hg => (some_inj.mp hg).symm, hothers⟩
    · rw [hhalt]
      exact ⟨fun g hg => (by cases hg), hothers⟩
  | switched dest k' =>
    rw [hx] at hyield hothers
    exact ⟨fun g hg => (some_inj.mp hg).symm.trans ((hyield p).trans (if_pos rfl)), hothers⟩
  | halted k' =>
    rw [hx] at hothers
    exact ⟨fun g hg => (by cases hg), hothers⟩

lemma goesOn_reschedule (hcur : k.hartCurrent h = some p) (tf : TrapFrame) :
    GoesOn p tf k (k.reschedule h tf) := by
  unfold reschedule
  split_ifs
  · exact goesOn_schedYield hcur tf fun _ _ => .inl rfl
  · exact ⟨fun f hf => (some_inj.mp hf).symm, fun q _ => rfl⟩

lemma goesOn_trapTail (hcur : k.hartCurrent h = some p) (tf : TrapFrame) :
    GoesOn p tf k (k.trapTail h tf) := by
  have hresched := goesOn_reschedule hcur tf
  unfold trapTail
  dsimp only
  split_ifs
  · split
    · split_ifs
      · exact goesOn_schedYield hcur tf fun _ _ => .inr rfl
      · exact hresched
    · exact hresched
  · exact hresched

lemma trapTail_of_nil (hnil : k.allProcs = []) (hneed : k.needResched h = false) :
    k.trapTail h tf = .ret tf k := by
  have hby (pid : ℕ) : k.byPid pid = none := by
    rw [byPid, hnil]
    rfl
  have hresched : k.reschedule h tf = .ret tf k := by
    rw [reschedule, hneed]
    rfl
  unfold trapTail
  dsimp only
  rw [hby]
  split_ifs
  · exact hresched
  · exact hresched

/-- `exit` and the delivery of signals leave the saved frames alone. -/
theorem tf_exit (h : Hart) (pid : ℕ) (code : ℤ) (k : Kernel) (q : ℕ) :
    ((k.exit h pid code).proc q).tf = (k.proc q).tf := by
  cases hv : k.byPid pid with
  | none => rw [exit_of_none hv]
  | some v =>
    obtain ⟨hothers, -, hself, -, -⟩ := exit_of_some h code hv
    by_cases hq : q = v
    · rw [hq, hself.eq_update]
      rfl
    · rw [(hothers q hq).eq_update]

lemma tf_signalCheck (hcur : k.hartCurrent h = some p) (tf : TrapFrame) (hq : q ≠ p) :
    ((k.signalCheck h tf).2.proc q).tf = (k.proc q).tf := by
  rcases signalCheck_cases hcur tf with ⟨-, s, heq⟩ | ⟨-, f, -, heq⟩
  · rw [heq, killedBy]
    refine (tf_exit ..).trans ?_
    rw [clearPending, proc_modifyProc_of_ne hq]
  · rw [heq, proc_modifyProc_of_ne hq]

/-- No signal is to be delivered. -/
def Quiet (r : Proc) : Prop :=
  r.pendingSignals &&& sigBit sigKill = 0 ∧ lowestSignal (r.pendingSignals &&& ~~~r.signalMask) = none

lemma signalCheck_of_quiet (hcur : k.hartCurrent h = some p) (hquiet : Quiet (k.proc p)) (tf : TrapFrame) :
    k.signalCheck h tf = (tf, k) := by
  unfold signalCheck
  rw [hcur]
  dsimp only
  rw [if_neg (not_not_intro hquiet.1), hquiet.2]
  split_ifs
  · rfl
  · rfl

lemma trapHandle_uEcall {ret : ℤ} (hcause : t.cause = .uEcall) (hrun : t.call.run k = .ret (ret, tf') k') :
    k.trapHandle t = trapTail t.call.h
      (k'.signalCheck t.call.h { tf' with a0 := (ret % wordSize).toNat, sepc := wadd tf'.sepc 4 }).1
      (k'.signalCheck t.call.h { tf' with a0 := (ret % wordSize).toNat, sepc := wadd tf'.sepc 4 }).2 := by
  unfold trapHandle trapBody trapDispatch
  rw [hcause]
  rw [hrun]
  rfl

lemma run_of_userCall (hcall : t.call.tf.a7 ∈ userCalls) (k : Kernel) :
    t.call.run k = k.dispatch t.call.w t.call.readdir t.call.other t.call.tf := by
  have hallowed : syscallAllowed t.call.tf.a7 (k.currentRing t.call.h) = true := if_pos hcall
  unfold Call.run handle
  rw [hallowed]
  rfl

lemma wadd_four_ne {a : ℕ} : wadd a 4 ≠ a := by
  unfold wadd wordSize
  omega

/-! ### Fork -/

lemma run_of_fork (hfork : t.call.tf.a7 = fork) (k : Kernel) :
    t.call.run k = plain t.call.tf (k.sysFork t.call.w t.call.h t.call.tf) := by
  rw [run_of_userCall (by rw [hfork]; decide)]
  unfold dispatch
  rw [hfork]
  rfl

/-- After a `fork` that made the process `c`, the parent goes on behind the `ecall` with the pid of the child in
`a0`, and so does the child with 0. -/
def ForkCorrect (t : Trap) (k : Kernel) (p : ℕ) : Prop :=
  let k' := (k.sysFork t.call.w t.call.h t.call.tf).2
  ∀ c, k'.allProcs = c :: k.allProcs →
    (∀ f, (k.trapHandle t).frameOf p = some f →
      f = { t.call.tf with a0 := (k'.proc c).pid, sepc := wadd t.call.tf.sepc 4 }) ∧
    ((k.trapHandle t).kernel.proc c).tf = { t.call.tf with a0 := 0, sepc := wadd t.call.tf.sepc 4 }

/-- `fork` fails where the record of the parent has no entry or there is no memory for another one, and
otherwise makes one process with a copy of the frame. -/
theorem sysFork_cases (w : Supply) (h : Hart) (tf : TrapFrame) (k : Kernel) :
    ((k.current h).entry = 0 ∨ ∃ e, w.record = .error e) ∧ (k.sysFork w h tf).2.allProcs = k.allProcs ∨
      ∃ c, (k.current h).entry ≠ 0 ∧ w.record = .ok c ∧ (k.sysFork w h tf).1 = k.nextPid ∧
        (k.sysFork w h tf).2.allProcs = c :: k.allProcs ∧
        (k.sysFork w h tf).2.hartCurrent = k.hartCurrent ∧
        ((k.sysFork w h tf).2.proc c).pid = k.nextPid ∧
        ((k.sysFork w h tf).2.proc c).tf = { tf with a0 := 0 } ∧
        ∀ q ≠ c, (k.sysFork w h tf).2.proc q = k.proc q := by
  obtain ⟨parent, hparent⟩ : ∃ r, r = k.current h := ⟨_, rfl⟩
  unfold sysFork
  dsimp only
  rw [← hparent]
  cases hcreate : k.allocPid.2.createUser h w.record parent.entry parent.ustack parent.rootPa k.allocPid.1
      parent.pid parent.heapBrk parent.ring 0 parent.ustack with
  | error e =>
    refine .inl ⟨?_, rfl⟩
    by_contra hgood
    rw [not_or, not_exists] at hgood
    unfold createUser allocProc at hcreate
    rw [if_neg hgood.1] at hcreate
    cases hrec : w.record with
    | error e' => exact hgood.2 e' hrec
    | ok c =>
      rw [hrec] at hcreate
      cases hcreate
  | ok k1 =>
    have hentry : parent.entry ≠ 0 := by
      intro hzero
      unfold createUser at hcreate
      rw [if_pos hzero] at hcreate
      cases hcreate
    obtain ⟨c, hrec, hk1⟩ := createUser_ok hcreate
    have hrecord : k1.proc c = { newProc parent.entry parent.ustack parent.rootPa k.allocPid.1 parent.pid
        parent.heapBrk parent.ring 0 parent.ustack with onRq := (k1.proc c).onRq } := by
      rw [hk1]
      exact proc_withRecord_self ..
    have hlist : k1.allProcs = c :: k.allProcs := by
      rw [hk1]
      exact allProcs_withRecord ..
    have hchild : k1.byPid k.allocPid.1 = some c := by
      rw [byPid, hlist, find?_cons_of_pos]
      rw [hrecord]
      simp [newProc]
    refine .inr ⟨c, hentry, hrec, rfl, ?_⟩
    dsimp only
    rw [hchild, getD_some, proc_modifyProc_self]
    refine ⟨hlist, ?_, ?_, rfl, fun q hq => ?_⟩
    · rw [hk1]
      exact (requeued_enqueue h c _).kept.current_eq
    · dsimp only
      rw [hrecord]
      rfl
    · rw [proc_modifyProc_of_ne hq, hk1]
      exact proc_withRecord_of_ne hq

/-- The frames after a `fork` that made the process `c`: the parent's is right, and the child's still points
to the `ecall`. -/
theorem frames_fork (hcur : k.hartCurrent t.call.h = some p) (hcause : t.cause = .uEcall)
    (hfork : t.call.tf.a7 = fork) (hc : c ≠ p) (hpid : k.nextPid < 2 ^ 32)
    (hnew : (k.sysFork t.call.w t.call.h t.call.tf).2.allProcs = c :: k.allProcs) :
    (Quiet (k.proc p) → ∀ f, (k.trapHandle t).frameOf p = some f →
        f = { t.call.tf with a0 := k.nextPid, sepc := wadd t.call.tf.sepc 4 }) ∧
      ((k.trapHandle t).kernel.proc c).tf = { t.call.tf with a0 := 0 } := by
  rcases sysFork_cases t.call.w t.call.h t.call.tf k with ⟨-, hsame⟩ | ⟨c', -, -, hret, hlist, hcur', -, htf, hothers⟩
  · rw [hsame] at hnew
    exact absurd hnew (ne_cons_self)
  · obtain rfl : c' = c := (cons.inj (hlist.symm.trans hnew)).1
    obtain ⟨k1, hk1⟩ : ∃ k1, k1 = (k.sysFork t.call.w t.call.h t.call.tf).2 := ⟨_, rfl⟩
    rw [← hk1] at hcur' htf hothers
    have hrun : t.call.run k = .ret ((k.nextPid : ℤ), t.call.tf) k1 := by
      rw [run_of_fork hfork, plain, hret, hk1]
    have hcur1 : k1.hartCurrent t.call.h = some p := by rw [hcur', hcur]
    have ha0 : ((k.nextPid : ℤ) % wordSize).toNat = k.nextPid := by
      unfold wordSize
      omega
    rw [trapHandle_uEcall hcause hrun, ha0]
    generalize { t.call.tf with a0 := k.nextPid, sepc := wadd t.call.tf.sepc 4 } = tf1
    have hcur2 : (k1.signalCheck t.call.h tf1).2.hartCurrent t.call.h = some p := by
      rw [(signalCheck_exited hcur1 tf1).1, hcur1]
    have hgoes := goesOn_trapTail hcur2 (k1.signalCheck t.call.h tf1).1
    constructor
    · intro hquiet f hf
      have hsame : k1.signalCheck t.call.h tf1 = (tf1, k1) :=
        signalCheck_of_quiet hcur1 (by rwa [hothers p hc.symm]) tf1
      have := hgoes.1 f hf
      rwa [hsame] at this
    · rw [hgoes.2 c' hc, tf_signalCheck hcur1 tf1 hc, htf]

/-- `fork` keeps its contract exactly when it fails: a child executes the `ecall` once more. -/
theorem forkCorrect_iff (hcur : k.hartCurrent t.call.h = some p) (hcause : t.cause = .uEcall)
    (hfork : t.call.tf.a7 = fork) (hpid : k.nextPid < 2 ^ 32)
    (hfresh : ∀ c, t.call.w.record = .ok c → c ≠ p) :
    ForkCorrect t k p ↔ (k.proc p).entry = 0 ∨ ∃ e, t.call.w.record = .error e := by
  have hcurrent : k.current t.call.h = k.proc p := by rw [current, hcur, getD_some]
  rcases sysFork_cases t.call.w t.call.h t.call.tf k with ⟨hfail, hsame⟩ | ⟨c, hentry, hrec, -, hlist, -⟩
  · rw [hcurrent] at hfail
    refine iff_of_true (fun c hnew => ?_) hfail
    rw [hsame] at hnew
    exact absurd hnew ne_cons_self
  · rw [hcurrent] at hentry
    refine iff_of_false (fun hcorrect => ?_) ?_
    · have hchild := (hcorrect c hlist).2
      rw [(frames_fork hcur hcause hfork (hfresh c hrec) hpid hlist).2] at hchild
      have hsepc : t.call.tf.sepc = wadd t.call.tf.sepc 4 := congrArg TrapFrame.sepc hchild
      exact wadd_four_ne hsepc.symm
    · rintro (hzero | ⟨e, he⟩)
      · exact hentry hzero
      · rw [hrec] at he
        cases he

/-- A process that was started at an entry. -/
def startedProcess : Kernel :=
  { oneProcess Onx.freshMm 0 with
    proc := fun _ => { pid := 1, ring := procRingUser, state := .running, entry := 0x10000 } }

/-- The system call `fork`, with memory for a record. -/
def forkTrap : Trap :=
  ⟨.uEcall, false, { callWith { a7 := fork, sepc := 0x10100 } with
    w := ⟨.error .noEnt, fun _ => 0, .ok 0x80300000⟩ }⟩

theorem forkCorrect_iff_forkTrap : ForkCorrect forkTrap startedProcess 0x80200000 ↔
      (startedProcess.proc 0x80200000).entry = 0 ∨ ∃ e, forkTrap.call.w.record = .error e :=
  forkCorrect_iff rfl rfl rfl (by decide) fun c hc => by
    cases hc
    decide

/-- The child of a process executes the `ecall` at 0x10100 again. -/
theorem not_forkCorrect_forkTrap : ¬ForkCorrect forkTrap startedProcess 0x80200000 := by
  intro hcorrect
  have hnew : (startedProcess.sysFork forkTrap.call.w forkTrap.call.h forkTrap.call.tf).2.allProcs =
      0x80300000 :: startedProcess.allProcs := by decide
  have hchild := (hcorrect _ hnew).2
  revert hchild
  decide

/-! ### Signal handlers -/

/-- The next delivery of signals enters the user's handler for `s`. -/
structure EntersHandler (r : Proc) (s : Fin nsig) : Prop where
  no_kill : r.pendingSignals &&& sigBit sigKill = 0
  outside : r.inSignalHandler = false
  lowest : lowestSignal (r.pendingSignals &&& ~~~r.signalMask) = some s
  not_default : r.signalHandlers s ≠ 0
  not_ignored : r.signalHandlers s ≠ 1

lemma signalCheck_enters {s : Fin nsig} (hcur : k.hartCurrent h = some p) (henter : EntersHandler (k.proc p) s)
    (tf : TrapFrame) :
    k.signalCheck h tf = (handlerFrame ((k.proc p).signalHandlers s) s tf,
      (clearPending p s k).modifyProc p fun r => { r with savedTf := tf, inSignalHandler := true }) := by
  unfold signalCheck
  rw [hcur]
  dsimp only
  rw [if_neg (not_not_intro henter.no_kill), henter.outside, henter.lowest]
  dsimp only
  rw [if_neg Bool.false_ne_true]
  split
  · rename_i hzero
    exact absurd hzero henter.not_default
  · rename_i hone
    exact absurd hone henter.not_ignored
  · rfl

/-- The handler of the process `p` that was entered from the frame `tf` in `k` calls `sigreturn` in the
trap `t`, in the state `k'`.  Whatever has happened since, no further signal was delivered to it. -/
structure CallsSigreturn (h : Hart) (p : ℕ) (tf : TrapFrame) (k k' : Kernel) (t : Trap) : Prop where
  current : k'.hartCurrent t.call.h = some p
  cause : t.cause = .uEcall
  number : t.call.tf.a7 = Sys.sigreturn
  saved : (k'.proc p).savedTf = ((k.signalCheck h tf).2.proc p).savedTf
  inside : (k'.proc p).inSignalHandler = ((k.signalCheck h tf).2.proc p).inSignalHandler
  quiet : Quiet (k'.proc p)

/-- The process resumes after the handler with the frame that was saved when it was entered. -/
def SignalTransparent (h : Hart) (p : ℕ) (tf : TrapFrame) (k : Kernel) : Prop :=
  ∀ s, EntersHandler (k.proc p) s → ∀ k' t, CallsSigreturn h p tf k k' t →
    ∀ f, (k'.trapHandle t).frameOf p = some f → f = tf

lemma run_of_sigreturn (hnr : t.call.tf.a7 = Sys.sigreturn) (k : Kernel) :
    t.call.run k = .ret (0, (k.sigreturn t.call.h t.call.tf).1) (k.sigreturn t.call.h t.call.tf).2 := by
  rw [run_of_userCall (by rw [hnr]; decide)]
  unfold dispatch
  rw [hnr]
  rfl

/-- The trap in which the handler calls `sigreturn` ends with the saved frame, moved on as after any other
system call. -/
theorem trapHandle_sigreturn {s : Fin nsig} (hcur : k.hartCurrent h = some p)
    (henter : EntersHandler (k.proc p) s) (hcalls : CallsSigreturn h p tf k k' t) :
    k'.trapHandle t = trapTail t.call.h { tf with a0 := 0, sepc := wadd tf.sepc 4 }
      (k'.modifyCurrent t.call.h fun r => { r with inSignalHandler := false }) := by
  obtain ⟨hcur', hcause, hnr, hsaved, hinside, hquiet⟩ := hcalls
  rw [signalCheck_enters hcur henter, proc_modifyProc_self] at hsaved hinside
  have hcurrent : k'.current t.call.h = k'.proc p := by rw [current, hcur', getD_some]
  have hret : k'.sigreturn t.call.h t.call.tf =
      (tf, k'.modifyCurrent t.call.h fun r => { r with inSignalHandler := false }) := by
    unfold sigreturn
    rw [hcurrent, if_pos hinside, hsaved]
  have hrun := run_of_sigreturn hnr k'
  rw [hret] at hrun
  rw [trapHandle_uEcall hcause hrun]
  have hquiet' : k'.modifyCurrent t.call.h (fun r => { r with inSignalHandler := false }) =
      k'.modifyProc p fun r => { r with inSignalHandler := false } := by
    rw [modifyCurrent, hcur', getD_some]
  rw [hquiet', signalCheck_of_quiet]
  · rfl
  · exact hcur'
  · rwa [proc_modifyProc_self]

/-- The state right after the handler was entered, with nothing else to do. -/
def inHandler (h : Hart) (p : ℕ) (tf : TrapFrame) (k : Kernel) : Kernel :=
  { (k.signalCheck h tf).2.modifyProc p fun r => { r with pendingSignals := 0 } with
    hartCurrent := fun _ => some p, needResched := fun _ => false, allProcs := [] }

/-- The system call `sigreturn`. -/
def sigreturnTrap : Trap := ⟨.uEcall, false, callWith { a7 := Sys.sigreturn }⟩

lemma callsSigreturn_inHandler (h : Hart) (p : ℕ) (tf : TrapFrame) (k : Kernel) :
    CallsSigreturn h p tf k (inHandler h p tf k) sigreturnTrap := by
  obtain ⟨k1, hk1⟩ : ∃ k1, k1 = (k.signalCheck h tf).2 := ⟨_, rfl⟩
  have hproc : (inHandler h p tf k).proc p = { k1.proc p with pendingSignals := 0 } := by
    rw [hk1]
    exact Function.update_self ..
  have hzero : ∀ b : BitVec 32, 0 &&& b = 0 := fun _ => BitVec.zero_and
  refine ⟨rfl, rfl, rfl, ?_, ?_, ?_⟩
  · rw [hproc, hk1]
  · rw [hproc, hk1]
  · rw [hproc, Quiet, hzero, hzero]
    decide

lemma not_signalTransparent_of_enters {s : Fin nsig} (hcur : k.hartCurrent h = some p)
    (henter : EntersHandler (k.proc p) s) (tf : TrapFrame) : ¬SignalTransparent h p tf k := by
  intro htransparent
  have hcalls := callsSigreturn_inHandler h p tf k
  have hhandle : ((inHandler h p tf k).trapHandle sigreturnTrap).frameOf p =
      some { tf with a0 := 0, sepc := wadd tf.sepc 4 } := by
    rw [trapHandle_sigreturn hcur henter hcalls, trapTail_of_nil rfl rfl]
    rfl
  have hframe := htransparent s henter _ _ hcalls _ hhandle
  exact wadd_four_ne (congrArg TrapFrame.sepc hframe)

/-- Signals are transparent for a process exactly when none enters a handler: after a handler, the process
resumes with `a0` set to 0 and behind the interrupted instruction. -/
theorem signalTransparent_iff (hcur : k.hartCurrent h = some p) (tf : TrapFrame) :
    SignalTransparent h p tf k ↔ ∀ s, ¬EntersHandler (k.proc p) s := by
  constructor
  · intro htransparent s henter
    exact not_signalTransparent_of_enters hcur henter tf htransparent
  · intro hnone s henter
    exact absurd henter (hnone s)

/-- A process with a handler for signal 10, which is pending. -/
def signalledProcess : Kernel :=
  { oneProcess Onx.freshMm 0 with
    proc := fun _ => { pid := 1, ring := procRingUser, state := .running, entry := 0x10000,
                       pendingSignals := sigBit 10, signalHandlers := fun _ => 0x11000 } }

lemma entersHandler_signalledProcess : EntersHandler (signalledProcess.proc 0x80200000) 10 := by
  constructor <;> decide

theorem signalTransparent_iff_signalledProcess :
    SignalTransparent 0 0x80200000 { sepc := 0x10100, a0 := 7 } signalledProcess ↔
      ∀ s, ¬EntersHandler (signalledProcess.proc 0x80200000) s :=
  signalTransparent_iff rfl _

/-- Interrupted at 0x10100 with 7 in `a0`, it resumes at 0x10104 with 0. -/
theorem not_signalTransparent_signalledProcess :
    ¬SignalTransparent 0 0x80200000 { sepc := 0x10100, a0 := 7 } signalledProcess :=
  not_signalTransparent_of_enters rfl entersHandler_signalledProcess _

end Kernel

end OnyxKernel
