import OnyxKernel.Proc.RunQueue
import OnyxKernel.Syscall.Confinement
import OnyxKernel.Syscall.Handler

/-!
# System calls that keep the process records

The calls of the dispatcher other than `exit`, `exec`, `execve`, `spawn`, `fork` and `dropring` end no
process and leave pids, rings and page tables alone.
-/

namespace OnyxKernel.Kernel

open Kernel Vmm ProcState

variable {w : Supply} {readdir : Readdir} {h : Hart} {tf : TrapFrame} {k k' : Kernel} {p q : ℕ}

lemma kernel_bind_ret {α β : Type} (x : Flow α) (g : α → β) :
    (x.bind fun a k => .ret (g a) k).kernel = x.kernel := by
  cases x with
  | ret a k => rfl
  | switched dest k => rfl
  | halted k => rfl

@[simp] lemma kernel_leaving (tf : TrapFrame) (x : Flow ℤ) : (leaving tf x).kernel = x.kernel := kernel_bind_ret ..

/-! ### Signals -/

lemma kept_signalSend {pid signal : ℕ} (hok : k.signalSend h pid signal = .ok k') : k.Kept k' := by
  obtain ⟨v, k1, -, hk1, heq⟩ := signalSend_eq_ok hok
  have hbit : k.Kept k1 := hk1 ▸ kept_modifyProc ⟨rfl, rfl, rfl, id⟩
  rcases heq with rfl | ⟨-, rfl⟩
  · exact hbit
  · refine (hbit.trans (kept_modifyProc ⟨rfl, rfl, rfl, fun _ => ?_⟩)).trans (requeued_enqueue h v _).kept
    exact noConfusion

lemma kept_sysKill (pid signal : ℕ) : k.Kept (k.sysKill h pid signal).2 := by
  unfold sysKill
  split
  · rename_i hok
    exact kept_signalSend hok
  · exact .refl k

lemma kept_setCurrent {α : Type} {f : Proc → Proc} (a : α) (hf : ∀ r, Proc.Kept r (f r)) :
    k.Kept (a, k.modifyCurrent h f).2 := kept_modifyCurrent hf

lemma kept_sysSigmask (how sig : ℕ) : k.Kept (k.sysSigmask h how sig).2 := by
  unfold sysSigmask
  by_cases hsig : nsig ≤ sig
  · rw [if_pos hsig]
  · rw [if_neg hsig]
    dsimp only
    split
    · apply kept_setCurrent
      exact fun r => ⟨rfl, rfl, rfl, id⟩
    · apply kept_setCurrent
      exact fun r => ⟨rfl, rfl, rfl, id⟩
    · apply kept_setCurrent
      exact fun r => ⟨rfl, rfl, rfl, id⟩
    · exact .refl k

lemma kept_copyChecked {ok : Prop} [Decidable ok] (va : ℕ) (bytes : List UInt8) :
    k.Kept (copyChecked h ok va bytes k) := by
  unfold copyChecked
  split_ifs
  · exact .refl k
  · exact kept_copyOut _ _ _ k
  · exact .refl k

lemma kept_sigactionNew (signum : Fin nsig) (actPtr : ℕ) : k.Kept (sigactionNew h signum actPtr k).2 := by
  unfold sigactionNew
  by_cases hact : actPtr = 0
  · rw [if_pos hact]
  · rw [if_neg hact]
    by_cases hpa : translate k.mm.mem (k.current h).rootPa actPtr = 0
    · simp only [if_pos hpa]
      exact .refl k
    · simp only [if_neg hpa]
      apply kept_modifyCurrent
      exact fun r => ⟨rfl, rfl, rfl, id⟩

lemma kept_sigaction (signum actPtr oldactPtr : ℕ) :
    k.Kept (sigaction h signum actPtr oldactPtr k).2 := by
  unfold sigaction
  by_cases hsig : signum = 0 ∨ nsig ≤ signum
  · rw [dif_pos hsig]
  · rw [dif_neg hsig]
    dsimp only
    split_ifs
    · exact .refl k
    · rw [sigactionOld_eq]
      exact (kept_copyChecked _ _).trans (kept_sigactionNew _ actPtr)

lemma kept_sigprocmaskNew (how setPtr : ℕ) : k.Kept (sigprocmaskNew h how setPtr k).2 := by
  unfold sigprocmaskNew
  by_cases hset : setPtr = 0
  · rw [if_pos hset]
  · rw [if_neg hset]
    by_cases hpa : translate k.mm.mem (k.current h).rootPa setPtr = 0
    · simp only [if_pos hpa]
      exact .refl k
    · simp only [if_neg hpa]
      split
      · apply kept_setCurrent
        exact fun r => ⟨rfl, rfl, rfl, id⟩
      · apply kept_setCurrent
        exact fun r => ⟨rfl, rfl, rfl, id⟩
      · apply kept_setCurrent
        exact fun r => ⟨rfl, rfl, rfl, id⟩
      · exact .refl k

lemma kept_sigprocmask (how setPtr oldsetPtr : ℕ) :
    k.Kept (sigprocmask h how setPtr oldsetPtr k).2 := by
  rw [sigprocmask, sigprocmaskOld_eq]
  exact (kept_copyChecked _ _).trans (kept_sigprocmaskNew how setPtr)

lemma kept_sigreturn (tf : TrapFrame) : k.Kept (k.sigreturn h tf).2 := by
  unfold sigreturn
  split_ifs
  · apply kept_setCurrent
    exact fun r => ⟨rfl, rfl, rfl, id⟩
  · exact .refl k

/-! ### Copies to the user -/

lemma kept_sysGetentropy (buf len : ℕ) : k.Kept (sysGetentropy h buf len k).2 := by
  rw [sysGetentropy_eq]
  exact kept_copyChecked _ _

lemma kept_ioctlFill (arg : ℕ) (bytes : List UInt8) : k.Kept (ioctlFill h arg bytes k).2 := by
  rw [ioctlFill_eq]
  exact kept_copyChecked _ _

lemma kept_sysIoctl (request arg : ℕ) : k.Kept (sysIoctl h request arg k).2 := by
  unfold sysIoctl
  split_ifs
  · exact kept_ioctlFill arg _
  · exact .refl k
  · exact kept_ioctlFill arg _
  · exact kept_ioctlFill arg _
  · exact .refl k

lemma kept_getdentsLoop {fd : VfsFd} {buf pa count : ℕ} (fuel cursor written : ℕ) (k : Kernel) :
    k.Kept (getdentsLoop readdir fd buf pa count fuel cursor written k).2 := by
  induction fuel generalizing cursor written k with
  | zero => exact .refl k
  | succ fuel ih =>
    rw [getdentsLoop]
    split
    · exact .refl k
    · exact .refl k
    · dsimp only
      split_ifs
      · exact .refl k
      · exact (kept_copyOut _ _ _ k).trans (ih _ _ _)

lemma kept_sysGetdents64 (fd buf count : ℕ) : k.Kept (sysGetdents64 readdir h fd buf count k).2 := by
  unfold sysGetdents64
  by_cases hargs : !userPtrOk buf count ∨ count < 19
  · rw [if_pos hargs]
  · rw [if_neg hargs]
    cases hfd : k.fdCheck h fd with
    | error e => exact .refl k
    | ok idx =>
      by_cases hpa : translate k.mm.mem (k.current h).rootPa buf = 0
      · simp only [if_pos hpa]
        exact .refl k
      · simp only [if_neg hpa]
        have hloop : k.Kept (getdentsLoop readdir (k.fdGet h idx) buf
          (translate k.mm.mem (k.current h).rootPa buf) count (count + 1) (k.fdGet h idx).pos 0 k).2 :=
          kept_getdentsLoop _ _ _ k
        split
        · rename_i hk1
          rw [hk1] at hloop
          exact hloop
        · rename_i cursor written k1 hk1
          rw [hk1] at hloop
          have hpos : k1.Kept (k1.fdUpdatePos h idx cursor) := (Bystanders.of_onlyFds (.fdModify h idx _ k1)).kept
          exact hloop.trans hpos

lemma keeps_loadFile (w : Supply) (k : Kernel) : (k.loadFile w).Keeps k := by
  unfold loadFile
  split
  · exact .ret _ (.refl k)
  · split
    · exact .ret _ (kept_of_proc_eq rfl rfl)
    · exact .ret _ (kept_of_proc_eq rfl rfl)
    · exact .halted (kept_of_proc_eq rfl rfl).records

/-! ### Waiting -/

lemma keeps_storeUser (va : ℕ) (bytes : List UInt8) (k : Kernel) : (k.storeUser h va bytes).Keeps k := by
  induction bytes generalizing va k with
  | nil => exact .ret _ (.refl k)
  | cons b bs ih =>
    rw [storeUser]
    split_ifs
    · exact .halted (Kept.refl k).records
    · exact (ih _ _).of_kept (kept_copyOut _ _ _ k)

lemma keeps_block : (k.block h tf).Keeps k := by
  unfold block
  cases k.hartCurrent h with
  | none => exact (keeps_schedYield h tf k).bind fun _ k' => .ret _ (.refl k')
  | some p =>
    have hwait : k.Kept (k.modifyProc p fun r => { r with state := .waiting }) :=
      kept_modifyProc ⟨rfl, rfl, rfl, fun _ => noConfusion⟩
    exact ((keeps_schedYield h tf _).of_kept hwait).bind fun _ k' => .ret _ (.refl k')

lemma keeps_wait (statusOut : Option ℕ) : (k.wait h tf statusOut).Keeps k := by
  unfold wait
  dsimp only
  split
  · rename_i c _
    refine Flow.Keeps.bind ?_ fun _ k' => .ret _ (kept_of_proc_eq rfl rfl)
    split
    · exact .ret _ (.refl k)
    · exact keeps_storeUser _ _ k
  · split
    · exact keeps_block
    · exact .ret _ (.refl k)

lemma keeps_sysWait (statusOut : ℕ) : (k.sysWait h tf statusOut).Keeps k :=
  (keeps_wait _).bind fun _ k' => .ret _ (.refl k')

lemma kept_storeStatus (statusOut : ℕ) (code : ℤ) : k.Kept (k.storeStatus h statusOut code) := by
  unfold storeStatus
  split
  · exact .refl k
  · dsimp only
    split
    · exact kept_copyOut _ _ _ k
    · exact .refl k

lemma keeps_sysWaitpid (pid statusOut options : ℕ) : (k.sysWaitpid h tf pid statusOut options).Keeps k := by
  unfold sysWaitpid
  dsimp only
  split
  · exact .ret _ (.refl k)
  · split
    · exact .ret _ ((kept_storeStatus statusOut _).trans (kept_of_proc_eq rfl rfl))
    · split_ifs
      · exact .ret _ (.refl k)
      · exact .ret _ (.refl k)
      · exact keeps_block.bind fun _ k' => .ret _ (.refl k')

/-! ### A new process -/

/-- A call that takes a pid: it fails, or there is one new process, with this pid. -/
inductive MayCreate (record : Except Errno ℕ) (h : Hart) (k k' : Kernel) : Prop
  | failed (mm : Mm) (heq : k' = { k.allocPid.2 with mm := mm })
  | created (mm : Mm) (q : ℕ) (r : Proc) (hrec : record = .ok q) (hpid : r.pid = k.nextPid) (hready : r.state = .ready)
      (p : ℕ) (frame : Proc → TrapFrame)
      (heq : k' = ({ k.allocPid.2 with mm := mm }.withRecord h q r).modifyProc p fun r => { r with tf := frame r })

lemma mayCreate_sysFork (w : Supply) (h : Hart) (tf : TrapFrame) (k : Kernel) :
    MayCreate w.record h k (k.sysFork w h tf).2 := by
  unfold sysFork
  dsimp only
  split
  · exact .failed k.mm rfl
  · rename_i k1 hok
    obtain ⟨q, hrec, rfl⟩ := createUser_ok hok
    exact .created k.mm q _ hrec rfl rfl _ (fun _ => { tf with a0 := 0 }) rfl

lemma mayCreate_spawnLoaded (argvUser : ℕ) (ringHint : UInt8) (parentPid : ℕ) (r : Onx.OnxLoadResult) (k : Kernel) :
    MayCreate w.record h k (k.spawnLoaded w h argvUser ringHint parentPid r).2 := by
  unfold spawnLoaded
  dsimp only
  split
  · exact .failed _ rfl
  · rename_i k1 hok
    obtain ⟨q, hrec, rfl⟩ := createUser_ok hok
    exact .created _ q _ hrec rfl rfl q Proc.tf (by rw [modifyProc, Function.update_eq_self])

/-- `spawn` only takes memory, or takes a pid after that. -/
theorem spawn_cases (w : Supply) (h : Hart) (argvUser : ℕ) (ringHint : UInt8) (parentPid : ℕ) (k : Kernel) :
    ∃ mm, (k.spawn w h argvUser ringHint parentPid).kernel = { k with mm := mm } ∨
      MayCreate w.record h { k with mm := mm } (k.spawn w h argvUser ringHint parentPid).kernel := by
  unfold spawn
  split
  · exact ⟨k.mm, .inl rfl⟩
  · unfold loadFile
    split
    · exact ⟨k.mm, .inl rfl⟩
    · split
      · exact ⟨_, .inr (mayCreate_spawnLoaded ..)⟩
      · exact ⟨_, .inl rfl⟩
      · exact ⟨_, .inl rfl⟩

/-- A system call other than `exit`, `dropring`, `exec` and `execve` keeps the records, takes memory and perhaps a
pid, or is one of the other calls. -/
theorem dispatch_cases {other : OtherCall h} (hexit : tf.a7 ≠ Sys.exit) (hdrop : tf.a7 ≠ Sys.dropring)
    (hexec : tf.a7 ≠ Sys.exec) (hexecve : tf.a7 ≠ Sys.execve) : (k.dispatch w readdir other tf).Keeps k ∨
      (∃ mm, (k.dispatch w readdir other tf).kernel = { k with mm := mm } ∨
        MayCreate w.record h { k with mm := mm } (k.dispatch w readdir other tf).kernel) ∨
      k.dispatch w readdir other tf = other.run tf k := by
  unfold dispatch
  split
  · contradiction
  · exact .inl (.ret _ (kept_of_proc_eq rfl rfl))
  · exact .inl (.ret _ (.refl k))
  · contradiction
  · refine .inr (.inl ?_)
    rw [kernel_leaving]
    unfold sysSpawn
    split_ifs
    · exact ⟨k.mm, .inl rfl⟩
    · rw [kernel_bind_ret]
      exact spawn_cases ..
  · exact .inl ((keeps_sysWait _).bind fun _ k' => .ret _ (.refl k'))
  · exact .inl (.ret _ (.refl k))
  · contradiction
  · exact .inl (.ret _ (kept_sysKill _ _))
  · exact .inl (.ret _ (kept_sysSigmask _ _))
  · exact .inl ((keeps_sysWaitpid _ _ _).bind fun _ k' => .ret _ (.refl k'))
  · exact .inl (.ret _ (kept_sysGetdents64 _ _ _))
  · exact .inl (.ret _ (kept_sysGetdents64 _ _ _))
  · exact .inl (.ret _ (kept_sysIoctl _ _))
  · exact .inl (.ret _ (kept_sigaction _ _ _))
  · exact .inl (.ret _ (kept_sigprocmask _ _ _))
  · exact .inl (.ret _ (kept_sigreturn tf))
  · contradiction
  · exact .inr (.inl ⟨k.mm, .inr (mayCreate_sysFork w h tf k)⟩)
  · exact .inl (.ret _ (kept_sysGetentropy _ _))
  · exact .inr (.inr rfl)

end OnyxKernel.Kernel
