import OnyxKernel.Proc.Family

/-!
# Orphans

A process that has exited stays in the list of processes until its parent calls `wait`.  So it must have a
parent that can do so: one that has not exited, and that is not blocked in a call of `wait` already.  `exit`
hands the children of a process over to the first process, but leaves out those that have exited before; they
keep a parent that will never call `wait` again.  Where no process exits before its exited children have been
reaped, and the first process does not exit, no child is forgotten (`orphans_reapable`).
-/

namespace OnyxKernel

open Kernel List Relation Option
open Function (update update_of_ne update_self)

/-- The system, and for every process whether its last call of `wait` or `waitpid` was for any child. -/
structure Families where
  sys : System
  inWait : ℕ → Bool

namespace Families

/-- Is `waitpid` with this argument for any child? -/
def anyChild (pid : ℕ) : Bool := pid == 2 ^ 32 - 1 || pid == 0 || decide (2 ^ 63 ≤ pid)

/-- The process of `h` makes a call. -/
def mark (f : Families) (h : Hart) (any : Bool) : ℕ → Bool :=
  match f.sys.kernel.hartCurrent h with
  | none => f.inWait
  | some p => update f.inWait p any

def step (e : SchedEvent) (f : Families) : Families where
  sys := e.step f.sys
  inWait :=
    match e with
    | .wait h _ _ => f.mark h true
    | .waitpid h _ pid _ _ => f.mark h (anyChild pid)
    | _ => f.inWait

/-- The events in the life of a family.  Pids are distinct, the parent of a new process is alive, and a
process that calls `wait` runs. -/
def Ordinary : SchedEvent → Kernel → Prop
  | .createUser _ mem _ _ _ pid parentPid _ _ _ _, k =>
    mem ∉ k.allProcs ∧ pid ≠ 0 ∧ (∀ c ∈ k.allProcs, (k.proc c).pid ≠ pid) ∧
      ∃ q ∈ k.allProcs, (k.proc q).pid = parentPid ∧ (k.proc q).state ≠ .exited
  | .wait h _ _, k | .waitpid h _ _ _ _, k => ∃ p, k.hartCurrent h = some p ∧ (k.proc p).state = .running
  | .ipc _, _ => False
  | _, _ => True

/-- The first process does not exit, and no process exits while it has children that have exited. -/
def Orderly : SchedEvent → Kernel → Prop
  | .exit _ pid _, k => pid ≠ 1 ∧ ∀ c ∈ k.allProcs, (k.proc c).parentPid = pid → (k.proc c).state ≠ .exited
  | _, _ => True

inductive Step (Q : SchedEvent → Kernel → Prop) (f : Families) : Families → Prop
  | event (e : SchedEvent) (hord : Ordinary e f.sys.kernel) (hq : Q e f.sys.kernel) : Step Q f (f.step e)

end Families

open Families

/-! ### The invariant -/

/-- Every process other than the first has a parent that lives, and the parent of one that has exited is not
blocked in a call for any child. -/
structure Tended (k : Kernel) (inWait : ℕ → Bool) : Prop where
  nodup : (k.allProcs.map fun p => (k.proc p).pid).Nodup
  not_free : ∀ c ∈ k.allProcs, (k.proc c).state ≠ .free
  init : ∃ i ∈ k.allProcs, (k.proc i).pid = 1 ∧ (k.proc i).parentPid = 0 ∧ (k.proc i).state ≠ .exited
  pid_ne_zero : ∀ c ∈ k.allProcs, (k.proc c).pid ≠ 0
  not_own : ∀ c ∈ k.allProcs, (k.proc c).parentPid ≠ (k.proc c).pid
  parent : ∀ c ∈ k.allProcs, (k.proc c).pid ≠ 1 →
    ∃ q ∈ k.allProcs, (k.proc q).pid = (k.proc c).parentPid ∧ (k.proc q).state ≠ .exited
  unblocked : ∀ c ∈ k.allProcs, ∀ q ∈ k.allProcs, (k.proc c).state = .exited →
    (k.proc q).pid = (k.proc c).parentPid → (k.proc q).state = .waiting → inWait q = false

namespace Tended

variable {k k' : Kernel} {m : ℕ → Bool} {h : Hart} {p c v pid : ℕ}

section

variable (ht : Tended k m)
include ht

lemma byPid_eq (hp : p ∈ k.allProcs) : k.byPid (k.proc p).pid = some p :=
  byPid_of_nodup ht.nodup hp (ht.not_free p hp)

lemma frame {m' : ℕ → Bool} (hlist : k'.allProcs = k.allProcs) (hpid : ∀ p, (k'.proc p).pid = (k.proc p).pid)
    (hparent : ∀ p, (k'.proc p).parentPid = (k.proc p).parentPid)
    (hstate : ∀ p st, st = .exited ∨ st = .free → (k'.proc p).state = st → (k.proc p).state = st)
    (hwait : ∀ c ∈ k.allProcs, ∀ q ∈ k.allProcs, (k.proc c).state = .exited → (k.proc q).pid = (k.proc c).parentPid →
      (k'.proc q).state = .waiting → m' q = false) : Tended k' m' := by
  have hexited : ∀ p, (k'.proc p).state = .exited → (k.proc p).state = .exited := fun p => hstate p _ (.inl rfl)
  obtain ⟨i, hi, hone, hzero, halive⟩ := ht.init
  constructor
  · simpa only [hlist, hpid] using ht.nodup
  · exact fun c hc hfree => ht.not_free c (hlist ▸ hc) (hstate c _ (.inr rfl) hfree)
  · exact ⟨i, hlist ▸ hi, (hpid i).trans hone, (hparent i).trans hzero, fun hex => halive (hexited i hex)⟩
  · intro c hc
    rw [hpid]
    exact ht.pid_ne_zero c (hlist ▸ hc)
  · intro c hc
    rw [hpid, hparent]
    exact ht.not_own c (hlist ▸ hc)
  · intro c hc hne
    rw [hpid] at hne
    obtain ⟨q, hq, hpar, hlive⟩ := ht.parent c (hlist ▸ hc) hne
    exact ⟨q, hlist ▸ hq, by rw [hpid, hparent, hpar], fun hex => hlive (hexited q hex)⟩
  · intro c hc q hq hex hpar
    rw [hlist] at hc hq
    rw [hpid, hparent] at hpar
    exact hwait c hc q hq (hexited c hex) hpar

lemma settles (hs : k.Settles k') : Tended k' m := by
  refine ht.frame hs.allProcs_eq hs.pid_eq hs.parentPid_eq ?_ fun c hc q hq hex hpar hwait => ?_
  · rintro p st (rfl | rfl) hp
    · exact hs.state_eq (by decide) (by decide) hp
    · exact hs.state_eq (by decide) (by decide) hp
  · exact ht.unblocked c hc q hq hex hpar (hs.state_eq (by decide) (by decide) hwait)

lemma freeProc (hex : (k.proc c).state = .exited) : Tended (k.freeProc c) m := by
  have hmem : ∀ q ∈ k.allProcs.erase c, q ∈ k.allProcs := fun q hq => mem_of_mem_erase hq
  have hkeep : ∀ q ∈ k.allProcs, (k.proc q).state ≠ .exited → q ∈ k.allProcs.erase c := by
    intro q hq hlive
    refine (mem_erase_of_ne fun heq => hlive ?_).mpr hq
    rw [heq, hex]
  obtain ⟨i, hi, hpid, hzero, halive⟩ := ht.init
  constructor
  · exact ht.nodup.sublist (erase_sublist.map _)
  · exact fun q hq => ht.not_free q (hmem q hq)
  · exact ⟨i, hkeep i hi halive, hpid, hzero, halive⟩
  · exact fun q hq => ht.pid_ne_zero q (hmem q hq)
  · exact fun q hq => ht.not_own q (hmem q hq)
  · intro d hd hne
    obtain ⟨q, hq, hparent, hlive⟩ := ht.parent d (hmem d hd) hne
    exact ⟨q, hkeep q hq hlive, hparent, hlive⟩
  · exact fun d hd q hq => ht.unblocked d (hmem d hd) q (hmem q hq)

lemma mark_running (hrun : (k.proc p).state = .running) (any : Bool) : Tended k (update m p any) := by
  refine { ht with unblocked := fun c hc q hq hex hparent hwait => ?_ }
  have hne : q ≠ p := fun heq => by
    rw [heq, hrun] at hwait
    cases hwait
  rw [update_of_ne hne]
  exact ht.unblocked c hc q hq hex hparent hwait

lemma setWaiting {any : Bool}
    (hnone : any = true → ∀ c ∈ k.allProcs, (k.proc c).state = .exited → (k.proc c).parentPid ≠ (k.proc p).pid) :
    Tended (k.modifyProc p fun r => { r with state := .waiting }) (update m p any) := by
  generalize hk' : (k.modifyProc p fun r => { r with state := .waiting }) = k'
  have hself : k'.proc p = { k.proc p with state := .waiting } := by rw [← hk', proc_modifyProc_self]
  have hother : ∀ q ≠ p, k'.proc q = k.proc q := fun q hq => by rw [← hk', proc_modifyProc_of_ne hq]
  refine ht.frame (hk' ▸ rfl) (fun q => ?_) (fun q => ?_) (fun q st hst hq => ?_) fun c hc q hq hex hpar hwait => ?_
  · by_cases hqp : q = p
    · rw [hqp, hself]
    · rw [hother q hqp]
  · by_cases hqp : q = p
    · rw [hqp, hself]
    · rw [hother q hqp]
  · by_cases hqp : q = p
    · rw [hqp, hself] at hq
      rw [← hq] at hst
      simp at hst
    · rwa [hother q hqp] at hq
  · by_cases hqp : q = p
    · rw [hqp, update_self]
      by_contra hany
      exact hnone (by simpa using hany) c hc hex (hqp ▸ hpar).symm
    · rw [update_of_ne hqp]
      exact ht.unblocked c hc q hq hex hpar (hother q hqp ▸ hwait)

lemma exited (hv : k.byPid pid = some v) (hx : Exited pid v k k') (hinit : pid ≠ 1)
    (hreaped : ∀ c ∈ k.allProcs, (k.proc c).parentPid = pid → (k.proc c).state ≠ .exited) :
    Tended k' m ∧ ∀ c ∈ k'.allProcs, (k'.proc c).parentPid ≠ pid := by
  have hvpid := pid_of_byPid hv
  have hvmem := mem_of_byPid hv
  have hexited : ∀ p ≠ v, (k'.proc p).state = .exited → (k.proc p).state = .exited := by
    intro p hp hex
    rcases hx.state_cases p hp with heq | ⟨-, hready⟩
    · rw [← heq, hex]
    · rw [hready] at hex
      cases hex
  have hlive : ∀ q ∈ k.allProcs, (k.proc q).pid ≠ pid → (k.proc q).state ≠ .exited → (k'.proc q).state ≠ .exited :=
    fun q hq hne hlive hex => hlive (hexited q (fun heq => hne (heq ▸ hvpid)) hex)
  -- the children of the process have the first process as their parent now
  have hparent : ∀ c ∈ k.allProcs, (k'.proc c).parentPid =
      if (k.proc c).parentPid = pid then 1 else (k.proc c).parentPid := by
    intro c hc
    by_cases hcv : c = v
    · rw [hcv, hx.parentPid_self, if_neg fun heq => ht.not_own v hvmem (heq.trans hvpid.symm)]
    · rw [hx.parentPid_eq c hc hcv]
      by_cases hpar : (k.proc c).parentPid = pid
      · rw [if_pos ⟨hpar, ht.not_free c hc, hreaped c hc hpar⟩, if_pos hpar]
      · rw [if_neg fun horph => hpar horph.1, if_neg hpar]
  obtain ⟨i, hi, hone, hzero, halive⟩ := ht.init
  have hipid : (k.proc i).pid ≠ pid := by rwa [hone, ne_comm]
  have hpidzero : pid ≠ 0 := hvpid ▸ ht.pid_ne_zero v hvmem
  refine ⟨?_, fun c hc => ?_⟩
  · constructor
    · simpa only [hx.allProcs_eq, hx.pid_eq] using ht.nodup
    · intro c hc hfree
      rw [hx.allProcs_eq] at hc
      by_cases hcv : c = v
      · rw [hcv, hx.state_self] at hfree
        cases hfree
      · rcases hx.state_cases c hcv with heq | ⟨-, hready⟩
        · exact ht.not_free c hc (heq ▸ hfree)
        · rw [hready] at hfree
          cases hfree
    · refine ⟨i, hx.allProcs_eq ▸ hi, (hx.pid_eq i).trans hone, ?_, hlive i hi hipid halive⟩
      rw [hparent i hi, hzero, if_neg hpidzero.symm]
    · intro c hc
      rw [hx.pid_eq]
      exact ht.pid_ne_zero c (hx.allProcs_eq ▸ hc)
    · intro c hc
      rw [hx.allProcs_eq] at hc
      rw [hx.pid_eq, hparent c hc]
      split_ifs with hpar
      · intro hself
        -- the first process is nobody's child
        have hci := inj_on_of_nodup_map ht.nodup hc hi (hself.symm.trans hone.symm)
        rw [hci, hzero] at hpar
        exact hpidzero hpar.symm
      · exact ht.not_own c hc
    · intro c hc hne
      rw [hx.allProcs_eq] at hc
      rw [hx.pid_eq] at hne
      rw [hparent c hc]
      split_ifs with hpar
      · exact ⟨i, hx.allProcs_eq ▸ hi, (hx.pid_eq i).trans hone, hlive i hi hipid halive⟩
      · obtain ⟨q, hq, hqpid, hqlive⟩ := ht.parent c hc hne
        exact ⟨q, hx.allProcs_eq ▸ hq, (hx.pid_eq q).trans hqpid, hlive q hq (hqpid ▸ hpar) hqlive⟩
    · intro c hc q hq hex hpar hwait
      rw [hx.allProcs_eq] at hc hq
      rw [hx.pid_eq] at hpar
      have hqv : q ≠ v := fun heq => by
        rw [heq, hx.state_self] at hwait
        cases hwait
      have hwait0 : (k.proc q).state = .waiting := by
        rcases hx.state_cases q hqv with heq | ⟨hw, -⟩
        · rw [← heq, hwait]
        · exact hw
      by_cases hcv : c = v
      · -- its own parent has been woken
        rw [hcv, hx.parentPid_self] at hpar
        have hfind : k.byPid (k.proc v).parentPid = some q := by
          rw [← hpar]
          exact ht.byPid_eq hq
        exact absurd hwait (hx.woken q hqv (hpar ▸ ht.pid_ne_zero q hq) hfind)
      · have hexc := hexited c hcv hex
        have hne : (k.proc c).parentPid ≠ pid := fun heq => hreaped c hc heq hexc
        rw [hparent c hc, if_neg hne] at hpar
        exact ht.unblocked c hc q hq hexc hpar hwait0
  · rw [hx.allProcs_eq] at hc
    rw [hparent c hc]
    split_ifs with hpar
    · exact hinit.symm
    · exact hpar

lemma withRecord {r : Proc} (hnew : c ∉ k.allProcs) (hpid : r.pid ≠ 0)
    (hfresh : ∀ p ∈ k.allProcs, (k.proc p).pid ≠ r.pid) (hready : r.state = .ready)
    (hparent : ∃ q ∈ k.allProcs, (k.proc q).pid = r.parentPid ∧ (k.proc q).state ≠ .exited) :
    Tended (k.withRecord h c r) m := by
  obtain ⟨k', hk'⟩ : ∃ k', k' = k.withRecord h c r := ⟨_, rfl⟩
  have hlist : k'.allProcs = c :: k.allProcs := hk' ▸ allProcs_withRecord h c r k
  have hself := proc_withRecord_self h c r k
  rw [← hk'] at hself ⊢
  have hother : ∀ p ∈ k.allProcs, k'.proc p = k.proc p := fun p hp => by
    rw [hk']
    exact proc_withRecord_of_ne fun heq => hnew (heq ▸ hp)
  have hold : ∀ p ∈ k.allProcs, p ∈ k'.allProcs := fun p hp => hlist ▸ mem_cons_of_mem c hp
  have hselfpid : (k'.proc c).pid = r.pid := by rw [hself]
  have hselfparent : (k'.proc c).parentPid = r.parentPid := by rw [hself]
  have hselfstate : (k'.proc c).state = .ready := by rw [hself, ← hready]
  obtain ⟨i, hi, hone, hzero, halive⟩ := ht.init
  obtain ⟨g, hg, hgpid, hglive⟩ := hparent
  -- cases of a process in the list: it is the new one or an old one
  have hmem : ∀ p ∈ k'.allProcs, p = c ∨ p ∈ k.allProcs := fun p hp => mem_cons.mp (hlist ▸ hp)
  constructor
  · rw [hlist, map_cons, nodup_cons, hselfpid]
    have hmap : (k.allProcs.map fun p => (k'.proc p).pid) = k.allProcs.map fun p => (k.proc p).pid :=
      map_congr_left fun p hp => by rw [hother p hp]
    rw [hmap]
    refine ⟨fun hin => ?_, ht.nodup⟩
    obtain ⟨p, hp, heq⟩ := mem_map.mp hin
    exact hfresh p hp heq
  · intro p hp hfree
    rcases hmem p hp with rfl | hp
    · rw [hselfstate] at hfree
      cases hfree
    · exact ht.not_free p hp (hother p hp ▸ hfree)
  · exact ⟨i, hold i hi, by rw [hother i hi, hone], by rw [hother i hi, hzero], by rwa [hother i hi]⟩
  · intro p hp
    rcases hmem p hp with rfl | hp
    · rwa [hselfpid]
    · rw [hother p hp]
      exact ht.pid_ne_zero p hp
  · intro p hp
    rcases hmem p hp with rfl | hp
    · rw [hselfpid, hselfparent, ← hgpid]
      exact hfresh g hg
    · rw [hother p hp]
      exact ht.not_own p hp
  · intro p hp hne
    rcases hmem p hp with rfl | hp
    · exact ⟨g, hold g hg, by rw [hother g hg, hselfparent, hgpid], by rwa [hother g hg]⟩
    · rw [hother p hp] at hne
      obtain ⟨q, hq, hpar, hlive⟩ := ht.parent p hp hne
      exact ⟨q, hold q hq, by rw [hother q hq, hother p hp, hpar], by rwa [hother q hq]⟩
  · intro p hp q hq hex hpar hwait
    rcases hmem p hp with rfl | hp
    · rw [hselfstate] at hex
      cases hex
    rcases hmem q hq with rfl | hq
    · rw [hselfstate] at hwait
      cases hwait
    rw [hother p hp] at hex hpar
    rw [hother q hq] at hpar hwait
    exact ht.unblocked p hp q hq hex hpar hwait

lemma waited {any : Bool} {found : Option ℕ} {tf : TrapFrame}
    (hcur : k.hartCurrent h = some p) (hrun : (k.proc p).state = .running)
    (hfound : ∀ c, found = some c → (k.proc c).state = .exited)
    (hnone : found = none → any = true → ∀ c ∈ k.allProcs, (k.proc c).state = .exited →
      (k.proc c).parentPid ≠ (k.proc p).pid)
    (hout : WaitOutcome found h tf k k') : Tended k' (update m p any) := by
  have hmark := ht.mark_running hrun any
  cases hout with
  | reaped c hc k1 hs hsame heq =>
    rw [heq]
    exact (hmark.settles hs).freeProc ((hsame.state_eq c).trans (hfound c hc))
  | settled hs hsame => exact hmark.settles hs
  | blocked hnil heq =>
    rw [heq, startWaiting, hcur]
    exact (ht.setWaiting (hnone hnil)).settles (.schedYield h tf _)

end

lemma matchesPid_of_anyChild {child : ℕ} (hany : anyChild pid = true) : matchesPid pid child = true := by
  unfold anyChild at hany
  unfold matchesPid
  rw [hany, Bool.true_or]

lemma step {f : Families} {e : SchedEvent} (ht : Tended f.sys.kernel f.inWait)
    (hord : Ordinary e f.sys.kernel) (hq : Orderly e f.sys.kernel) :
    Tended (f.step e).sys.kernel (f.step e).inWait := by
  cases e with
  | createUser h mem entry ustack rootPa pid parentPid heapBrk ring argc argvSp =>
    obtain ⟨hnew, hpid, hfresh, hparent⟩ := hord
    show Tended (SchedEvent.step _ f.sys).kernel f.inWait
    rw [SchedEvent.step]
    split
    · rename_i k hok
      obtain ⟨q, hq, rfl⟩ := createUser_ok hok
      cases hq
      exact ht.withRecord hnew hpid hfresh rfl hparent
    · exact ht
  | enterUser h pid => exact ht.settles (.enterUser h pid _)
  | yield h tf => exact ht.settles (.schedYield h tf _)
  | setaffinity h pid cpu => exact ht.settles (.sysSchedSetaffinity h pid cpu _)
  | exit h pid code =>
    show Tended (f.sys.kernel.exit h pid code) f.inWait
    cases hv : f.sys.kernel.byPid pid with
    | none => rwa [exit_of_none hv]
    | some v => exact (ht.exited hv (exited_exit h code hv) hq.1 hq.2).1
  | signalSend h pid signal =>
    show Tended (SchedEvent.step _ f.sys).kernel f.inWait
    rw [SchedEvent.step]
    split
    · rename_i k hok
      exact ht.settles (.signalSend hok)
    · exact ht
  | wait h tf statusOut =>
    obtain ⟨p, hcur, hrun⟩ := hord
    have hpid := currentPid_of_running hcur hrun
    have hmark : (f.step (.wait h tf statusOut)).inWait = update f.inWait p true := by
      show f.mark h true = _
      rw [mark, hcur]
    rw [hmark]
    refine ht.waited hcur hrun (fun c hc => ?_) (fun hnil _ c hc hex hpar => ?_) (waitOutcome_wait h tf statusOut _)
    · exact (exited_of_isExitedChild (find?_some hc)).2
    · refine find?_eq_none.mp hnil c hc ?_
      rw [isExitedChild, hpid, hpar, hex]
      simp
  | waitpid h tf pid statusOut options =>
    obtain ⟨p, hcur, hrun⟩ := hord
    have hpid := currentPid_of_running hcur hrun
    have hmark : (f.step (.waitpid h tf pid statusOut options)).inWait =
        update f.inWait p (anyChild pid) := by
      show f.mark h (anyChild pid) = _
      rw [mark, hcur]
    rw [hmark]
    refine ht.waited hcur hrun (fun c hc => ?_) (fun hnil hany c hc hex hpar => ?_)
      (waitOutcome_sysWaitpid h tf pid statusOut options _)
    · have hfound := find?_some hc
      rw [Bool.and_eq_true] at hfound
      exact (exited_of_isExitedChild hfound.1).2
    · refine find?_eq_none.mp hnil c hc ?_
      rw [matchesPid_of_anyChild hany, isExitedChild, hpid, hpar, hex]
      simp
  | ipc op => exact hord.elim

lemma run {f f' : Families} (ht : Tended f.sys.kernel f.inWait)
    (hrun : ReflTransGen (Families.Step Orderly) f f') : Tended f'.sys.kernel f'.inWait := by
  induction hrun with
  | refl => exact ht
  | tail _ hstep ih =>
    obtain ⟨e, hord, hq⟩ := hstep
    exact ih.step hord hq

end Tended

/-! ### Reaping -/

/-- The state after a process has called `wait` on the hart `h` a number of times. -/
def waits (h : Hart) (tf : TrapFrame) : ℕ → Kernel → Kernel
  | 0, k => k
  | n + 1, k => waits h tf n (k.wait h tf none).kernel

/-- The children of `pid` that have exited and not been reaped. -/
def zombies (pid : ℕ) (k : Kernel) : List ℕ := k.allProcs.filter (k.isExitedChild pid)

/-- As many calls of `wait` as a process has such children reap them all. -/
theorem zombies_waits {h : Hart} {p : ℕ} (tf : TrapFrame) (n : ℕ) (k : Kernel) (hcur : k.hartCurrent h = some p)
    (hrun : (k.proc p).state = .running) (hn : (zombies (k.proc p).pid k).length = n) :
    zombies (k.proc p).pid (waits h tf n k) = [] := by
  induction n generalizing k with
  | zero => exact eq_nil_of_length_eq_zero hn
  | succ n ih =>
    have hpid := currentPid_of_running hcur hrun
    obtain ⟨c, hc⟩ : ∃ c, k.allProcs.find? (k.isExitedChild (k.proc p).pid) = some c := by
      rw [← isSome_iff_exists, find?_isSome]
      have hpos : 0 < (zombies (k.proc p).pid k).length := by omega
      obtain ⟨c, hmem⟩ := exists_mem_of_length_pos hpos
      exact ⟨c, mem_filter.mp hmem⟩
    have hwait : k.wait h tf none = .ret (.ok (k.proc c).pid) (k.freeProc c) := by
      unfold wait
      dsimp only
      rw [hpid, hc]
      rfl
    have hlen : (zombies (k.proc p).pid (k.freeProc c)).length = n := by
      have heq : zombies (k.proc p).pid (k.freeProc c) = (zombies (k.proc p).pid k).erase c :=
        (erase_filter ..).symm
      rw [heq, length_erase_of_mem, hn, Nat.add_sub_cancel]
      exact mem_filter.mpr ⟨mem_of_find?_eq_some hc, find?_some hc⟩
    rw [waits, hwait]
    exact ih (k.freeProc c) hcur hrun hlen

/-! ### From launch -/

lemma tended_launch (mm : Mm) (h : Hart) (mem ustack rootPa heapBrk : ℕ) (ring : UInt8) {entry : ℕ}
    (hentry : entry ≠ 0) (m : ℕ → Bool) :
    Tended (launch mm h mem entry ustack rootPa heapBrk ring).kernel m := by
  have hrec := kernel_launch mm h mem ustack rootPa heapBrk ring hentry
  generalize (launch mm h mem entry ustack rootPa heapBrk ring).kernel = k at hrec ⊢
  have hlist : k.allProcs = [mem] := hrec ▸ allProcs_withRecord ..
  have hself : k.proc mem = { newProc entry ustack rootPa procPidInit 0 heapBrk ring 0 0 with
      onRq := (k.proc mem).onRq } := hrec ▸ proc_withRecord_self ..
  have hpid : (k.proc mem).pid = 1 := by rw [hself]; rfl
  have hparent : (k.proc mem).parentPid = 0 := by rw [hself]; rfl
  have hstate : (k.proc mem).state = .ready := by rw [hself]; rfl
  constructor
  · simp [hlist]
  · simp [hlist, hstate]
  · exact ⟨mem, by simp [hlist], hpid, hparent, by simp [hstate]⟩
  · simp [hlist, hpid]
  · simp [hlist, hpid, hparent]
  · simp [hlist, hpid]
  · simp [hlist, hstate]

/-- Along every run in which the first process does not exit and no process exits before its exited children
have been reaped: a process that has exited has a living parent that is not blocked in a call for any child; a
process that exits leaves no children behind; and a process reaps its children by calling `wait` as often as it
has exited ones. -/
theorem orphans_reapable {mm : Mm} {h : Hart} {mem entry ustack rootPa heapBrk : ℕ} {ring : UInt8}
    (hentry : entry ≠ 0) {f : Families}
    (hrun : ReflTransGen (Families.Step Orderly)
      ⟨launch mm h mem entry ustack rootPa heapBrk ring, fun _ => false⟩ f) :
    (∀ c ∈ f.sys.kernel.allProcs, (f.sys.kernel.proc c).pid ≠ 1 → (f.sys.kernel.proc c).state = .exited →
      ∃ q ∈ f.sys.kernel.allProcs, (f.sys.kernel.proc q).pid = (f.sys.kernel.proc c).parentPid ∧
        (f.sys.kernel.proc q).state ≠ .exited ∧
        ((f.sys.kernel.proc q).state = .waiting → f.inWait q = false)) ∧
    (∀ h pid code, f.sys.kernel.byPid pid ≠ none → Orderly (.exit h pid code) f.sys.kernel →
      ∀ c ∈ (f.sys.kernel.exit h pid code).allProcs, ((f.sys.kernel.exit h pid code).proc c).parentPid ≠ pid) ∧
    ∀ h p tf, f.sys.kernel.hartCurrent h = some p → (f.sys.kernel.proc p).state = .running →
      zombies (f.sys.kernel.proc p).pid
        (waits h tf (zombies (f.sys.kernel.proc p).pid f.sys.kernel).length f.sys.kernel) = [] := by
  have ht := (tended_launch mm h mem ustack rootPa heapBrk ring hentry _).run hrun
  refine ⟨fun c hc hne hex => ?_, fun h pid code hfind hq => ?_, fun h p tf hcur hrun => ?_⟩
  · obtain ⟨q, hq, hpar, hlive⟩ := ht.parent c hc hne
    exact ⟨q, hq, hpar, hlive, ht.unblocked c hc q hq hex hpar⟩
  · obtain ⟨v, hv⟩ := ne_none_iff_exists'.mp hfind
    exact (ht.exited hv (exited_exit h code hv) hq.1 hq.2).2
  · exact zombies_waits tf _ _ hcur hrun rfl

/-- The first process at 0x1000, and events that create a child with pid 2 and a grandchild with pid 3. -/
def firstProcess : Families := ⟨launch Onx.freshMm 0 0x1000 0x10000 0x20000 0 0 procRingUser, fun _ => false⟩

def createChild : SchedEvent := .createUser 0 0x2000 0x10000 0x20000 0 2 1 0 procRingUser 0 0

def createGrandchild : SchedEvent := .createUser 0 0x3000 0x10000 0x20000 0 3 2 0 procRingUser 0 0

def threeProcesses : Families := (firstProcess.step createChild).step createGrandchild

lemma ordinary_createChild : Ordinary createChild firstProcess.sys.kernel := by
  refine ⟨by decide, by decide, by decide, 0x1000, by decide, by decide, by decide⟩

lemma ordinary_createGrandchild : Ordinary createGrandchild (firstProcess.step createChild).sys.kernel := by
  refine ⟨by decide, by decide, by decide, 0x2000, by decide, by decide, by decide⟩

/-- The grandchild exits, and its parent lives. -/
theorem orphans_reapable_grandchild : ∃ q ∈ (threeProcesses.step (.exit 0 3 0)).sys.kernel.allProcs,
      ((threeProcesses.step (.exit 0 3 0)).sys.kernel.proc q).pid =
        ((threeProcesses.step (.exit 0 3 0)).sys.kernel.proc 0x3000).parentPid ∧
      ((threeProcesses.step (.exit 0 3 0)).sys.kernel.proc q).state ≠ .exited ∧
      (((threeProcesses.step (.exit 0 3 0)).sys.kernel.proc q).state = .waiting →
        (threeProcesses.step (.exit 0 3 0)).inWait q = false) :=
  (orphans_reapable (by decide : (0x10000 : ℕ) ≠ 0)
    (((ReflTransGen.single ⟨createChild, ordinary_createChild, trivial⟩).tail
      ⟨createGrandchild, ordinary_createGrandchild, trivial⟩).tail
        ⟨.exit 0 3 0, trivial, by decide, by decide⟩)).1 0x3000 (by decide) (by decide) (by decide)

/-- The grandchild exits, then the child: the grandchild keeps a parent that has exited. -/
theorem forgotten_grandchild : ∃ f, ReflTransGen (Families.Step fun _ _ => True) firstProcess f ∧
    ¬∀ c ∈ f.sys.kernel.allProcs, (f.sys.kernel.proc c).pid ≠ 1 → (f.sys.kernel.proc c).state = .exited →
      ∃ q ∈ f.sys.kernel.allProcs, (f.sys.kernel.proc q).pid = (f.sys.kernel.proc c).parentPid ∧
        (f.sys.kernel.proc q).state ≠ .exited := by
  refine ⟨(threeProcesses.step (.exit 0 3 0)).step (.exit 0 2 0),
    (((ReflTransGen.single ⟨createChild, ordinary_createChild, trivial⟩).tail
      ⟨createGrandchild, ordinary_createGrandchild, trivial⟩).tail ⟨.exit 0 3 0, trivial, trivial⟩).tail
        ⟨.exit 0 2 0, trivial, trivial⟩, ?_⟩
  decide +kernel

end OnyxKernel
