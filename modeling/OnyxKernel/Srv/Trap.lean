import OnyxKernel.Proc.RunQueue
import OnyxKernel.Syscall.Rings

/-!
# The trap handler

`handle` of `kernel/src/srv/trap.rs`: interrupts, system calls and exceptions, then the delivery of
signals and, where it is asked for, a call of the scheduler.  When the trap ends its own process, the
handler must not return to it.  The test that is there for this case asks `current_pid`, which is 0 for
a process that no longer runs, and so never succeeds; the handler leaves an exited process only where a
call of the scheduler happens to be due (`leavesExited_iff`).
-/

namespace OnyxKernel

open Onx Sys

/-- The exceptions after which a process is ended as for a page fault. -/
inductive Fault where
  | instPf | ldPf | stPf | iamiss | ldamiss | stamiss
  deriving DecidableEq, Repr

def Fault.code : Fault → ℕ
  | .iamiss => 0
  | .ldamiss => 5
  | .stamiss => 7
  | .instPf => 12
  | .ldPf => 13
  | .stPf => 15

/-- The values of `scause`, as the handler tells them apart. -/
inductive Cause where
  | timer | external | otherInterrupt | uEcall | fault (f : Fault) | ill | brk | otherException
  deriving DecidableEq, Repr

/-- A trap: its cause, whether it was taken from the kernel, and the hart, the trap frame and what a
system call would obtain. -/
structure Trap where
  cause : Cause
  fromKernel : Bool
  call : Kernel.Call

namespace Kernel

def schedTick (h : Hart) (k : Kernel) : Kernel :=
  match k.hartCurrent h with
  | none => k
  | some p => if (k.proc p).state ≠ .free then k.setNeedResched h true else k

/-- `timer::handle`. -/
def timerHandle (h : Hart) (k : Kernel) : Kernel :=
  { k with upticks := (k.upticks + 1) % wordSize }.schedTick h

/-- The part of `handle` that depends on the cause.  No driver registers a handler for external
interrupts. -/
def trapDispatch (t : Trap) (k : Kernel) : Flow TrapFrame :=
  let h := t.call.h
  let tf := t.call.tf
  match t.cause with
  | .timer => .ret tf (k.timerHandle h)
  | .external | .otherInterrupt => .ret tf k
  | .uEcall => (t.call.run k).bind fun (ret, tf) k =>
      .ret { tf with a0 := (ret % wordSize).toNat, sepc := wadd tf.sepc 4 } k
  | .fault f =>
    let pid := k.currentPid h
    if t.fromKernel ∨ pid = 0 then .halted k else .ret tf (k.exit h pid (100 + f.code))
  | .ill => .ret tf (k.exit h (k.currentPid h) 132)
  | .brk => .ret tf (k.exit h (k.currentPid h) 133)
  | .otherException => .halted k

/-- The same with the delivery of a signal behind it. -/
def trapBody (t : Trap) (k : Kernel) : Flow TrapFrame :=
  (k.trapDispatch t).bind fun tf k =>
    let (tf, k) := k.signalCheck t.call.h tf
    .ret tf k

/-- A call of the scheduler, if one is due. -/
def reschedule (h : Hart) (tf : TrapFrame) (k : Kernel) : Flow TrapFrame :=
  if k.needResched h then (k.schedYield h tf).bind fun _ k => .ret tf k else .ret tf k

/-- The end of `handle`. -/
def trapTail (h : Hart) (tf : TrapFrame) (k : Kernel) : Flow TrapFrame :=
  let pid := k.currentPid h
  if pid ≠ 0 then
    match k.byPid pid with
    | some p =>
      if (k.proc p).state = .exited then (k.schedYield h tf).bind fun _ k => .halted k
      else k.reschedule h tf
    | none => k.reschedule h tf
  else k.reschedule h tf

/-- `trap::handle`. -/
def trapHandle (t : Trap) (k : Kernel) : Flow TrapFrame :=
  (k.trapBody t).bind (trapTail t.call.h)

variable {h : Hart} {tf : TrapFrame} {k k' k'' : Kernel} {p q : ℕ} {t : Trap}

/-! ### Calls that end no process -/

/-- Hart `h` has the process it had, and no process has been ended. -/
structure Spared (h : Hart) (k k' : Kernel) : Prop where
  current_eq : k'.hartCurrent h = k.hartCurrent h
  not_exited : ∀ p, (k.proc p).state ≠ .exited → (k'.proc p).state ≠ .exited

@[refl] lemma Spared.refl (h : Hart) (k : Kernel) : k.Spared h k := ⟨rfl, fun _ => id⟩

lemma Spared.trans (hs : k.Spared h k') (hs' : k'.Spared h k'') : k.Spared h k'' :=
  ⟨hs'.current_eq.trans hs.current_eq, fun p hp => hs'.not_exited p (hs.not_exited p hp)⟩

lemma Kept.spared (hk : k.Kept k') (h : Hart) : k.Spared h k' :=
  ⟨congrFun hk.current_eq h, fun p => (hk.records p).not_exited⟩

end Kernel

/-- `x`, begun in `k`, ends no process, and if it returns then to the process that called it. -/
def Flow.Spares {α : Type} (h : Hart) (k : Kernel) (x : Flow α) : Prop :=
  ∀ a k', x = .ret a k' → k.Spared h k'

namespace Flow.Spares

variable {α β : Type} {h : Hart} {k k' : Kernel} {x : Flow α} {f : α → Kernel → Flow β}

lemma ret (a : α) (hs : k.Spared h k') : (Flow.ret a k').Spares h k := by
  intro a1 k1 hret
  cases hret
  exact hs

lemma of_keeps (hx : x.Keeps k) (h : Hart) : x.Spares h k := by
  intro a k' hret
  have hrec := hx.records
  rw [hret] at hrec
  exact ⟨congrFun (hx.current_eq a k' hret) h, fun p => (hrec p).not_exited⟩

lemma bind (hx : x.Spares h k) (hf : ∀ a k', (f a k').Spares h k') : (x.bind f).Spares h k := by
  intro b k1 hret
  obtain ⟨a, k', hk', hrest⟩ := Flow.bind_eq_ret_iff.mp hret
  exact (hx a k' hk').trans (hf a k' b k1 hrest)

end Flow.Spares

namespace Kernel

variable {w : Supply} {readdir : Readdir} {h : Hart} {other : OtherCall h} {tf : TrapFrame}
  {k k' k'' : Kernel} {p q : ℕ} {t : Trap} {pid : ℕ} {more : Proc → Proc} {tf' : TrapFrame}

lemma kept_withMm (mm : Mm) (k : Kernel) : k.Kept { k with mm := mm } := kept_of_proc_eq rfl rfl

lemma MayCreate.spared {record : Except Errno ℕ} (hmay : MayCreate record h k k') : k.Spared h k' := by
  cases hmay with
  | failed mm heq =>
    rw [heq]
    exact ⟨rfl, fun _ => id⟩
  | created mm q r _ _ hready p' frame heq =>
    have hnew : k.Spared h ({ k.allocPid.2 with mm := mm }.withRecord h q r) := by
      refine ⟨congrFun (requeued_enqueue h q _).hartCurrent_eq h, fun p hp => ?_⟩
      by_cases hpq : p = q
      · rw [hpq, proc_withRecord_self, hready]
        exact ProcState.noConfusion
      · rwa [proc_withRecord_of_ne hpq]
    rw [heq]
    exact hnew.trans ((kept_modifyProc ⟨rfl, rfl, rfl, id⟩).spared h)

lemma spared_modifyCurrent {f : Proc → Proc} (hf : ∀ r, (f r).state = r.state) (k : Kernel) :
    k.Spared h (k.modifyCurrent h f) := by
  refine ⟨rfl, fun p hp => ?_⟩
  unfold modifyCurrent
  by_cases hpc : p = (k.hartCurrent h).getD 0
  · rw [hpc] at hp ⊢
    rwa [proc_modifyProc_self, hf]
  · rwa [proc_modifyProc_of_ne hpc]

lemma spared_sysDropring (target : UInt8) (k : Kernel) : k.Spared h (k.sysDropring h target).2 := by
  unfold sysDropring
  dsimp only
  split_ifs
  · exact .refl h k
  · exact .refl h k
  · dsimp only
    apply spared_modifyCurrent
    exact fun _ => rfl

lemma spared_replaceImage (hmore : ∀ r, (more r).state = r.state)
    (r : Onx.OnxLoadResult) (argc argvSp : ℕ) (k : Kernel) :
    k.Spared h (k.replaceImage h tf r argc argvSp more).2 := by
  unfold replaceImage
  dsimp only
  split
  · refine ((kept_withMm _ k).spared h).trans (spared_modifyCurrent ?_ _)
    exact fun r => hmore _
  · apply spared_modifyCurrent
    exact fun r => hmore _

lemma spares_execWith (hmore : ∀ r, (more r).state = r.state)
    (path argv envp : ℕ) (entryVaddr : Onx.OnxLoadResult → ℕ) (uid : ℕ) (k : Kernel) :
    (k.execWith w h tf path argv envp entryVaddr uid more).Spares h k := by
  unfold execWith
  split_ifs
  · exact .ret _ (.refl h k)
  · refine (Flow.Spares.of_keeps (keeps_loadFile w k) h).bind fun res k1 => ?_
    cases res with
    | error e => exact .ret _ (.refl h k1)
    | ok r =>
      dsimp only
      split_ifs
      · exact .ret _ (.refl h k1)
      · exact .ret _ (((kept_withMm _ k1).spared h).trans (spared_replaceImage hmore r _ _ _))

lemma spares_dispatch (hexit : tf.a7 ≠ Sys.exit) (k : Kernel) :
    (k.dispatch w readdir other tf).Spares h k := by
  by_cases hdrop : tf.a7 = dropring
  · unfold dispatch
    rw [hdrop]
    exact .ret _ (spared_sysDropring _ k)
  by_cases hexec : tf.a7 = exec
  · unfold dispatch
    rw [hexec]
    exact spares_execWith (fun _ => rfl) _ _ _ _ _ k
  by_cases hexecve : tf.a7 = execve
  · unfold dispatch sysExecve
    rw [hexecve]
    apply spares_execWith
    exact fun _ => rfl
  rcases dispatch_cases hexit hdrop hexec hexecve with hkeeps | ⟨mm, hspawn⟩ | heq
  · exact .of_keeps hkeeps h
  · intro a k' hret
    rw [hret] at hspawn
    rcases hspawn with (heq : k' = _) | hmay
    · rw [heq]
      exact (kept_withMm mm k).spared h
    · exact ((kept_withMm mm k).spared h).trans hmay.spared
  · rw [heq]
    exact fun a k' hret => ⟨other.current_eq tf k a k' hret, fun p => other.not_exited tf k a k' p hret⟩

/-! ### The end of the current process -/

/-- Whatever `exit` does, the harts keep their processes, and a process that has exited stays so. -/
theorem exit_spec (h : Hart) (pid : ℕ) (code : ℤ) (k : Kernel) :
    (k.exit h pid code).hartCurrent = k.hartCurrent ∧ (k.exit h pid code).needResched = k.needResched ∧
      ∀ p, (k.proc p).state = .exited → ((k.exit h pid code).proc p).state = .exited := by
  cases hv : k.byPid pid with
  | none =>
    rw [exit_of_none hv]
    exact ⟨rfl, rfl, fun _ => id⟩
  | some v =>
    obtain ⟨hothers, hstate, -, hcur, hneed⟩ := exit_of_some h code hv
    refine ⟨hcur, hneed, fun p hp => ?_⟩
    by_cases hpv : p = v
    · rwa [hpv]
    · rcases (hothers p hpv).state_cases with hs | ⟨hw, -⟩
      · rwa [hs]
      · rw [hp] at hw
        cases hw

/-- A signal is pending that ends the process at the next delivery. -/
def FatalSignal (r : Proc) : Prop :=
  r.pendingSignals &&& sigBit sigKill ≠ 0 ∨ r.inSignalHandler = false ∧
      ∃ s ∈ lowestSignal (r.pendingSignals &&& ~~~r.signalMask), r.signalHandlers s = 0

section

variable (hcur : k.hartCurrent h = some p)
include hcur

/-- `signal_check` ends the current process for a fatal signal, and otherwise leaves its state
alone. -/
theorem signalCheck_cases (tf : TrapFrame) : FatalSignal (k.proc p) ∧
        (∃ s, (k.signalCheck h tf).2 = killedBy h p s (clearPending p s k)) ∨
      ¬ FatalSignal (k.proc p) ∧
        ∃ f : Proc → Proc, (∀ r, (f r).state = r.state) ∧ (k.signalCheck h tf).2 = k.modifyProc p f := by
  have hid : k = k.modifyProc p id := by
    rw [modifyProc, id, Function.update_eq_self]
  unfold signalCheck
  rw [hcur]
  dsimp only
  split_ifs with hkill hin
  · exact .inl ⟨.inl hkill, sigKill, rfl⟩
  · refine .inr ⟨?_, id, fun _ => rfl, hid⟩
    rintro (hk | ⟨hout, -⟩)
    · exact hkill hk
    · rw [hin] at hout
      cases hout
  · have hout : (k.proc p).inSignalHandler = false := by simpa using hin
    split
    · rename_i hnone
      refine .inr ⟨?_, id, fun _ => rfl, hid⟩
      rintro (hk | ⟨-, s, hs, -⟩)
      · exact hkill hk
      · rw [hnone] at hs
        cases hs
    · rename_i s hs
      have hfatal : FatalSignal (k.proc p) → (k.proc p).signalHandlers s = 0 := by
        rintro (hk | ⟨-, s', hs', h0⟩)
        · exact absurd hk hkill
        · rw [hs] at hs'
          cases hs'
          exact h0
      split
      · rename_i h0
        exact .inl ⟨.inr ⟨hout, s, hs, h0⟩, s, rfl⟩
      · rename_i h1
        refine .inr ⟨fun hf => ?_,
          fun r => { r with pendingSignals := r.pendingSignals &&& ~~~(sigBit s) }, fun _ => rfl, rfl⟩
        rw [h1] at hfatal
        exact absurd (hfatal hf) (by decide)
      · rename_i hne _
        refine .inr ⟨fun hf => hne (hfatal hf), fun r => { r with
            pendingSignals := r.pendingSignals &&& ~~~(sigBit s), savedTf := tf, inSignalHandler := true },
          fun _ => rfl, ?_⟩
        rw [clearPending, modifyProc_modifyProc]

/-- After the delivery of signals an exited process is still exited, and a call of the scheduler is due
if it was before or if a signal was fatal. -/
theorem signalCheck_exited (tf : TrapFrame) : (k.signalCheck h tf).2.hartCurrent = k.hartCurrent ∧
      ((k.signalCheck h tf).2.needResched h = true ↔ k.needResched h = true ∨ FatalSignal (k.proc p)) ∧
      ((k.proc p).state = .exited → ((k.signalCheck h tf).2.proc p).state = .exited) ∧
      (((k.signalCheck h tf).2.proc p).state = .exited →
        (k.proc p).state = .exited ∨ FatalSignal (k.proc p)) := by
  rcases signalCheck_cases hcur tf with ⟨hf, s, heq⟩ | ⟨hf, f, hstate, heq⟩
  · rw [heq, killedBy]
    obtain ⟨hc, -, hex⟩ := exit_spec h ((clearPending p s k).proc p).pid (128 + s) (clearPending p s k)
    have hp : (clearPending p s k).proc p =
        { k.proc p with pendingSignals := (k.proc p).pendingSignals &&& ~~~(sigBit s) } :=
      proc_modifyProc_self ..
    refine ⟨hc, ?_, fun hexit => hex p (hp ▸ hexit), fun _ => .inr hf⟩
    simp [setNeedResched, hf]
  · rw [heq]
    refine ⟨rfl, ?_, ?_, ?_⟩
    · simp [hf]
    · rw [proc_modifyProc_self, hstate]
      exact id
    · rw [proc_modifyProc_self, hstate]
      exact .inl

/-- `sched_yield` does not return to a process that has exited, and switches to it only if it stands in
a run queue. -/
theorem schedYield_exited (hex : (k.proc p).state = .exited) (tf : TrapFrame) :
    (k.schedYield h tf).returns = false ∧
      (¬ k.Linked p → ∀ k', k.schedYield h tf ≠ .switched (some p) k') := by
  have hsaved := saved_saveContext hcur tf
  have hrun : (k.proc p).state ≠ .running := fun hr => by rw [hex] at hr; cases hr
  rw [schedYield_eq]
  generalize k.saveContext h tf = k1 at hsaved ⊢
  have hpicked := Picked.choose k1 h
  rcases hr : k1.choose h with ⟨_ | q, k2⟩
  · rw [hr] at hpicked
    have hcur2 : k2.hartCurrent h = some p := by
      rwa [hpicked.requeued.hartCurrent_eq, hsaved.eq_update]
    have hex2 : (k2.proc p).state = .exited := by
      rwa [hpicked.requeued.state_eq, hsaved.state_eq, if_neg hrun]
    rw [resume, noneReady, hcur2]
    dsimp only
    split_ifs
    · exact ⟨rfl, nofun⟩
    · exact ⟨rfl, nofun⟩
  · rw [hr] at hpicked
    refine ⟨rfl, fun hout k' hsw => hout ?_⟩
    injection hsw with hdest
    obtain ⟨a, ha⟩ := hpicked.linked_of_taken p hdest
    rw [hsaved.queue_eq, if_neg fun hand => hrun hand.1, List.append_nil, Function.update_eq_self] at ha
    exact ⟨a, ha⟩

lemma trapTail_exited (hex : (k.proc p).state = .exited)
    (tf : TrapFrame) : k.trapTail h tf = k.reschedule h tf := by
  have hpid : k.currentPid h = 0 := by
    rw [currentPid, hcur]
    dsimp only
    rw [if_neg fun hr => by rw [hex] at hr; cases hr]
  unfold trapTail
  rw [hpid, if_neg fun hne => hne rfl]

lemma reschedule_exited (hex : (k.proc p).state = .exited) (tf : TrapFrame) :
    ((k.reschedule h tf).returns = false ∧
      (¬ k.Linked p → ∀ k', k.reschedule h tf ≠ .switched (some p) k')) ↔ k.needResched h = true := by
  unfold reschedule
  split_ifs with hneed
  · obtain ⟨hret, hsw⟩ := schedYield_exited hcur hex tf
    rcases hy : k.schedYield h tf with ⟨a, k'⟩ | ⟨dest, k'⟩ | k'
    · rw [hy] at hret
      cases hret
    · rw [hy] at hsw
      refine ⟨fun _ => hneed, fun _ => ⟨rfl, fun hout k'' heq => hsw hout k'' ?_⟩⟩
      injection heq with hdest hk
      rw [hdest, hk]
    · exact ⟨fun _ => hneed, fun _ => ⟨rfl, nofun⟩⟩
  · refine ⟨fun hleft => ?_, fun hn => absurd hn hneed⟩
    cases hleft.1

end

/-- The trap itself ends the process `p`. -/
def EndsCurrent (t : Trap) (k : Kernel) (p : ℕ) : Prop :=
  k.byPid (k.proc p).pid = some p ∧
    match t.cause with
    | .uEcall => t.call.tf.a7 = Sys.exit
    | .fault _ => (k.proc p).pid ≠ 0
    | .ill | .brk => True
    | _ => False

/-- If `p` has exited by the end of the trap, then the handler does not return to it, and it does not
switch to it unless `p` stands in a run queue. -/
def LeavesExited (t : Trap) (k : Kernel) (p : ℕ) : Prop :=
  ∀ tf' k', k.trapBody t = .ret tf' k' → (k'.proc p).state = .exited →
    (k.trapHandle t).returns = false ∧ (¬ k'.Linked p → ∀ k'', k.trapHandle t ≠ .switched (some p) k'')

lemma run_of_exit (hexit : t.call.tf.a7 = Sys.exit) (k : Kernel) :
    t.call.run k = plain t.call.tf (k.sysExit t.call.h t.call.tf.a0) := by
  unfold Call.run handle
  unfold dispatch
  rw [hexit]
  rfl

lemma trapDispatch_of_ends (hcur : k.hartCurrent t.call.h = some p)
    (hrun : (k.proc p).state = .running) (huser : t.fromKernel = false) (hends : EndsCurrent t k p) :
    ∃ tf' code, k.trapDispatch t = .ret tf' (k.exit t.call.h (k.proc p).pid code) := by
  have hpid := currentPid_of_running hcur hrun
  obtain ⟨-, hcause⟩ := hends
  unfold trapDispatch
  dsimp only
  rw [hpid, huser]
  cases hc : t.cause with
  | uEcall =>
    rw [hc] at hcause
    rw [run_of_exit hcause, sysExit, hpid]
    exact ⟨_, _, rfl⟩
  | fault f =>
    rw [hc] at hcause
    have hgo : ¬ (false = true ∨ (k.proc p).pid = 0) := by simpa using hcause
    dsimp only
    rw [if_neg hgo]
    exact ⟨_, _, rfl⟩
  | ill => exact ⟨_, _, rfl⟩
  | brk => exact ⟨_, _, rfl⟩
  | timer => rw [hc] at hcause; exact hcause.elim
  | external => rw [hc] at hcause; exact hcause.elim
  | otherInterrupt => rw [hc] at hcause; exact hcause.elim
  | otherException => rw [hc] at hcause; exact hcause.elim

lemma exit_other (hother : k.byPid pid ≠ some p) (code : ℤ)
    (hp : (k.proc p).state ≠ .exited) : ((k.exit h pid code).proc p).state ≠ .exited := by
  cases hv : k.byPid pid with
  | none => rwa [exit_of_none hv]
  | some v =>
    have hpv : p ≠ v := fun heq => hother (heq ▸ hv)
    exact ((exit_of_some h code hv).1 p hpv).kept.not_exited hp

lemma trapDispatch_of_not_ends (hcur : k.hartCurrent t.call.h = some p)
    (hrun : (k.proc p).state = .running) (hends : ¬ EndsCurrent t k p)
    (hret : k.trapDispatch t = .ret tf' k') :
    k'.hartCurrent t.call.h = some p ∧ (k'.proc p).state ≠ .exited := by
  have hpid := currentPid_of_running hcur hrun
  have hp : (k.proc p).state ≠ .exited := fun hex => by rw [hrun] at hex; cases hex
  have hexit : ∀ code, k.byPid (k.proc p).pid ≠ some p →
      (k.exit t.call.h (k.proc p).pid code).hartCurrent t.call.h = some p ∧
        ((k.exit t.call.h (k.proc p).pid code).proc p).state ≠ .exited := fun code hne =>
    ⟨(congrFun (exit_spec _ _ code k).1 _).trans hcur, exit_other hne code hp⟩
  unfold trapDispatch at hret
  dsimp only at hret
  rw [hpid] at hret
  cases hc : t.cause with
  | timer =>
    rw [hc] at hret
    cases hret
    unfold timerHandle schedTick
    rw [hcur]
    dsimp only
    split_ifs
    · exact ⟨hcur, hp⟩
    · exact ⟨hcur, hp⟩
  | external =>
    rw [hc] at hret
    cases hret
    exact ⟨hcur, hp⟩
  | otherInterrupt =>
    rw [hc] at hret
    cases hret
    exact ⟨hcur, hp⟩
  | uEcall =>
    rw [hc] at hret
    obtain ⟨⟨ret, tf1⟩, k1, hcall, hrest⟩ := Flow.bind_eq_ret_iff.mp hret
    cases hrest
    by_cases hnr : t.call.tf.a7 = Sys.exit
    · rw [run_of_exit hnr, plain, sysExit, hpid] at hcall
      cases hcall
      exact hexit _ fun hby => hends ⟨hby, by rw [hc]; exact hnr⟩
    · have hsp : (t.call.run k).Spares t.call.h k := by
        unfold Call.run handle
        split_ifs
        · exact .ret _ (.refl _ k)
        · exact spares_dispatch hnr k
      obtain ⟨hcur', hne⟩ := hsp _ _ hcall
      exact ⟨hcur'.trans hcur, hne p hp⟩
  | fault f =>
    rw [hc] at hret
    split_ifs at hret with hstop
    cases hret
    exact hexit _ fun hby => hends ⟨hby, by rw [hc]; exact fun h0 => hstop (.inr h0)⟩
  | ill =>
    rw [hc] at hret
    cases hret
    exact hexit _ fun hby => hends ⟨hby, by rw [hc]; trivial⟩
  | brk =>
    rw [hc] at hret
    cases hret
    exact hexit _ fun hby => hends ⟨hby, by rw [hc]; trivial⟩
  | otherException =>
    rw [hc] at hret
    cases hret

lemma fatalSignal_exit (hv : k.byPid pid = some p) (h : Hart) (code : ℤ) :
    FatalSignal ((k.exit h pid code).proc p) ↔ FatalSignal (k.proc p) := by
  obtain ⟨-, -, hself, -, -⟩ := exit_of_some h code hv
  rw [hself.eq_update]
  exact Iff.rfl

lemma trapHandle_exited (hbody : k.trapBody t = .ret tf' k')
    (hcur : k'.hartCurrent t.call.h = some p) (hex : (k'.proc p).state = .exited) :
    k.trapHandle t = k'.reschedule t.call.h tf' := by
  rw [trapHandle, hbody]
  exact trapTail_exited hcur hex tf'

lemma leavesExited_iff_of_ends (hcur : k.hartCurrent t.call.h = some p)
    (hrun : (k.proc p).state = .running) (huser : t.fromKernel = false) (hends : EndsCurrent t k p) :
    LeavesExited t k p ↔ k.needResched t.call.h = true ∨ FatalSignal (k.proc p) := by
  obtain ⟨tf1, code, hd⟩ := trapDispatch_of_ends hcur hrun huser hends
  obtain ⟨-, hex1, -, hc1, hneed1⟩ := exit_of_some t.call.h code hends.1
  have hfatal := fatalSignal_exit hends.1 t.call.h code
  generalize k.exit t.call.h (k.proc p).pid code = k1 at hd hex1 hc1 hneed1 hfatal
  have hcur1 := (congrFun hc1 t.call.h).trans hcur
  obtain ⟨hc2, hneed2, hex2, -⟩ := signalCheck_exited hcur1 tf1
  have hbody : k.trapBody t = .ret (k1.signalCheck t.call.h tf1).1 (k1.signalCheck t.call.h tf1).2 := by
    rw [trapBody, hd]
    rfl
  have hcur2 := (congrFun hc2 t.call.h).trans hcur1
  have hleft := reschedule_exited hcur2 (hex2 hex1) (k1.signalCheck t.call.h tf1).1
  rw [← trapHandle_exited hbody hcur2 (hex2 hex1), hneed2, hneed1, hfatal] at hleft
  rw [← hleft]
  constructor
  · intro hleaves
    exact hleaves _ _ hbody (hex2 hex1)
  · intro hleft tf' k' hbody' _
    rw [hbody] at hbody'
    cases hbody'
    exact hleft

/-- A trap that does not end the process by itself always leaves it: only a fatal signal can have ended
it, and then a call of the scheduler is due. -/
theorem leavesExited_of_not_ends (hcur : k.hartCurrent t.call.h = some p)
    (hrun : (k.proc p).state = .running) (hends : ¬ EndsCurrent t k p) : LeavesExited t k p := by
  intro tf2 k2 hbody hex2
  obtain ⟨tf1, k1, hd, hrest⟩ := Flow.bind_eq_ret_iff.mp hbody
  have hk2 : (k1.signalCheck t.call.h tf1).2 = k2 := by
    injection hrest
  obtain ⟨hcur1, hne⟩ := trapDispatch_of_not_ends hcur hrun hends hd
  obtain ⟨hc, hneed, -, hwhy⟩ := signalCheck_exited hcur1 tf1
  rw [hk2] at hc hneed hwhy
  have hcur2 := (congrFun hc t.call.h).trans hcur1
  rw [trapHandle_exited hbody hcur2 hex2]
  refine (reschedule_exited hcur2 hex2 tf2).mpr (hneed.mpr (.inr ?_))
  exact (hwhy hex2).resolve_left hne

/-- The system call `exit(0)`. -/
def exitTrap : Trap := ⟨.uEcall, false, callWith { a7 := Sys.exit }⟩

lemma not_fatalSignal_of_nothing_pending {r : Proc} (hr : r.pendingSignals = 0) : ¬ FatalSignal r := by
  have hzero : ∀ b : BitVec 32, 0 &&& b = 0 := fun _ => BitVec.zero_and
  have hnone : lowestSignal 0 = none := by decide
  rw [FatalSignal, hr, hzero, hzero, hnone]
  rintro (hkill | ⟨-, s, hs, -⟩)
  · exact hkill rfl
  · cases hs

lemma not_leavesExited_exitTrap (mm : Mm) (rootPa : ℕ) :
    ¬ LeavesExited exitTrap (oneProcess mm rootPa) 0x80200000 := by
  intro hleaves
  rw [leavesExited_iff_of_ends rfl rfl rfl ⟨rfl, rfl⟩] at hleaves
  rcases hleaves with hneed | hfatal
  · cases hneed
  · exact not_fatalSignal_of_nothing_pending rfl hfatal

end Kernel

end OnyxKernel
