import OnyxKernel.Proc.Family

/-!
# Pids

`spawn` and `fork` take the next number as the pid of a new process, whether or not they succeed.  The counter
starts with the pid that `launch` gives to the first process without taking it, so the first process that is
created afterwards gets the same pid, unless an attempt has failed before.  From then on all pids are distinct
until the counter wraps around (`pids_unique`).
-/

namespace OnyxKernel

namespace Kernel

variable {w : Supply} {h : Hart} {tf : TrapFrame} {k k' : Kernel} {p q c : ℕ}

/-- A call that takes a pid: it fails, or there is one new process, with this pid. -/
structure TookPid (record : Except Errno ℕ) (k k' : Kernel) : Prop where
  nextPid_eq : k'.nextPid = (k.nextPid + 1) % 2 ^ 32
  created : k'.allProcs = k.allProcs ∧ (∀ p, (k'.proc p).pid = (k.proc p).pid) ∨
    ∃ c, record = .ok c ∧ k'.allProcs = c :: k.allProcs ∧ (k'.proc c).pid = k.nextPid ∧
      ∀ p ≠ c, (k'.proc p).pid = (k.proc p).pid

lemma MayCreate.tookPid {record : Except Errno ℕ} (hmay : MayCreate record h k k') : TookPid record k k' := by
  cases hmay with
  | failed mm heq =>
    rw [heq]
    exact ⟨rfl, .inl ⟨rfl, fun _ => rfl⟩⟩
  | created mm q r hrec hpid _ p' frame heq =>
    obtain ⟨k1, hk1⟩ : ∃ k1, k1 = { k.allocPid.2 with mm := mm }.withRecord h q r := ⟨_, rfl⟩
    have hs : k1.Settles k' := by
      rw [heq, hk1]
      apply Settles.modifyProc_of_eq
      exact fun _ => ⟨rfl, rfl, rfl⟩
    refine ⟨hs.nextPid_eq.trans ?_, .inr ⟨q, hrec, hs.allProcs_eq.trans ?_, (hs.pid_eq q).trans ?_, fun p hp => (hs.pid_eq p).trans ?_⟩⟩
    · rw [hk1, nextPid_withRecord]
      rfl
    · rw [hk1, allProcs_withRecord]
      rfl
    · rw [hk1, proc_withRecord_self, hpid]
    · rw [hk1, proc_withRecord_of_ne hp]
      rfl

end Kernel

open Kernel List Onx

/-- What happens to pids. -/
inductive PidEvent where
  | spawn (w : Supply) (h : Hart) (argvUser : ℕ) (ringHint : UInt8) (parentPid : ℕ)
  | fork (w : Supply) (h : Hart) (tf : TrapFrame)
  | exit (h : Hart) (pid : ℕ) (code : ℤ)
  | wait (h : Hart) (tf : TrapFrame) (statusOut : Option ℕ)
  | waitpid (h : Hart) (tf : TrapFrame) (pid statusOut options : ℕ)
  | enterUser (h : Hart) (pid : ℕ)
  | yield (h : Hart) (tf : TrapFrame)
  | signalSend (h : Hart) (pid signal : ℕ)

namespace PidEvent

def step : PidEvent → Kernel → Kernel
  | .spawn w h argvUser ringHint parentPid, k => (k.spawn w h argvUser ringHint parentPid).kernel
  | .fork w h tf, k => (k.sysFork w h tf).2
  | .exit h pid code, k => k.exit h pid code
  | .wait h tf statusOut, k => (k.wait h tf statusOut).kernel
  | .waitpid h tf pid statusOut options, k => (k.sysWaitpid h tf pid statusOut options).kernel
  | .enterUser h pid, k => (k.enterUser h pid).kernel
  | .yield h tf, k => (k.schedYield h tf).kernel
  | .signalSend h pid signal, k =>
    match k.signalSend h pid signal with
    | .ok k => k
    | .error _ => k

/-- How many processes an event may create. -/
def creations : PidEvent → ℕ
  | .spawn .. | .fork .. => 1
  | _ => 0

/-- The heap returns memory for a record in which no process lives. -/
def Possible : PidEvent → Kernel → Prop
  | .spawn w _ _ _ _, k | .fork w _ _, k => ∀ c, w.record = .ok c → c ∉ k.allProcs
  | _, _ => True

/-- While the next pid is that of the first process, there is no memory for a new record. -/
def Later : PidEvent → Kernel → Prop
  | .spawn w _ _ _ _, k | .fork w _ _, k => k.nextPid = procPidInit → ∃ e, w.record = .error e
  | _, _ => True

/-- A step of the system, with the number of attempts to create a process so far. -/
inductive Step (Q : PidEvent → Kernel → Prop) (s : Kernel × ℕ) : Kernel × ℕ → Prop
  | event (e : PidEvent) (hposs : e.Possible s.1) (hq : Q e s.1) : Step Q s (e.step s.1, s.2 + e.creations)

end PidEvent

/-- Distinct processes have distinct pids other than 0, and are found by them. -/
structure PidsUnique (k : Kernel) : Prop where
  nodup : (k.allProcs.map fun p => (k.proc p).pid).Nodup
  ne_zero : ∀ p ∈ k.allProcs, (k.proc p).pid ≠ 0
  byPid_eq : ∀ p ∈ k.allProcs, (k.proc p).state ≠ .free → k.byPid (k.proc p).pid = some p

/-- The pids that are in use after `n` attempts to create a process. -/
structure PidsTaken (k : Kernel) (n : ℕ) : Prop where
  nodup : (k.allProcs.map fun p => (k.proc p).pid).Nodup
  taken : ∀ p ∈ k.allProcs, (k.proc p).pid = 1 ∨ 1 < (k.proc p).pid ∧ (k.proc p).pid < k.nextPid
  next_pos : 1 ≤ k.nextPid
  next_le : k.nextPid ≤ n + 1

namespace PidsTaken

variable {k k' : Kernel} {n : ℕ}

section

variable (ht : PidsTaken k n)
include ht

lemma unique : PidsUnique k where
  nodup := ht.nodup
  ne_zero p hp := by
    rcases ht.taken p hp with h1 | ⟨h1, -⟩ <;> omega
  byPid_eq p hp hfree := byPid_of_nodup ht.nodup hp hfree

lemma same (hlist : k'.allProcs.Sublist k.allProcs)
    (hpid : ∀ p, (k'.proc p).pid = (k.proc p).pid) (hnext : k'.nextPid = k.nextPid) : PidsTaken k' n := by
  constructor
  · simp only [hpid]
    exact ht.nodup.sublist (hlist.map _)
  · intro p hp
    rw [hpid, hnext]
    exact ht.taken p (hlist.subset hp)
  · rw [hnext]
    exact ht.next_pos
  · rw [hnext]
    exact ht.next_le

lemma settles (hs : k.Settles k') : PidsTaken k' n :=
  ht.same (hs.allProcs_eq ▸ .refl _) hs.pid_eq hs.nextPid_eq

lemma took {record : Except Errno ℕ} (htook : TookPid record k k') (hn : n + 1 < 2 ^ 32 - 1)
    (hfresh : ∀ c, record = .ok c → c ∉ k.allProcs) (hfirst : k.nextPid = 1 → ∃ e, record = .error e) :
    PidsTaken k' (n + 1) := by
  have hle := ht.next_le
  have hnext : k'.nextPid = k.nextPid + 1 := by
    rw [htook.nextPid_eq, Nat.mod_eq_of_lt (by omega)]
  rcases htook.created with ⟨hlist, hpid⟩ | ⟨c, hrec, hlist, hself, hother⟩
  · constructor
    · simpa only [hlist, hpid] using ht.nodup
    · intro p hp
      rw [hlist] at hp
      rw [hpid, hnext]
      have := ht.taken p hp
      omega
    · omega
    · omega
  · -- the new pid is above all pids in use
    have hone : k.nextPid ≠ 1 := fun heq => by
      obtain ⟨e, he⟩ := hfirst heq
      rw [hrec] at he
      cases he
    have hpos := ht.next_pos
    have hold : ∀ p ∈ k.allProcs, (k'.proc p).pid = (k.proc p).pid := fun p hp =>
      hother p fun heq => hfresh c hrec (heq ▸ hp)
    constructor
    · have hmap : (k.allProcs.map fun p => (k'.proc p).pid) = k.allProcs.map fun p => (k.proc p).pid :=
        map_congr_left hold
      rw [hlist, map_cons, nodup_cons, hself, hmap]
      refine ⟨fun hin => ?_, ht.nodup⟩
      obtain ⟨p, hp, heq⟩ := mem_map.mp hin
      have := ht.taken p hp
      omega
    · intro p hp
      rw [hlist] at hp
      rcases mem_cons.mp hp with rfl | hp
      · rw [hself]
        omega
      · rw [hold p hp]
        have := ht.taken p hp
        omega
    · omega
    · omega

lemma waited {found : Option ℕ} {h : Hart} {tf : TrapFrame}
    (hout : WaitOutcome found h tf k k') : PidsTaken k' n := by
  cases hout with
  | reaped c hc k1 hs hsame heq =>
    rw [heq]
    exact (ht.settles hs).same erase_sublist (fun _ => rfl) rfl
  | settled hs hsame => exact ht.settles hs
  | blocked hnone heq =>
    have hwaiting : PidsTaken (k.startWaiting h) n := by
      unfold startWaiting
      split
      · exact ht
      · rename_i p _
        refine ht.same (.refl _) (fun q => ?_) rfl
        by_cases hq : q = p
        · rw [hq, proc_modifyProc_self]
        · rw [proc_modifyProc_of_ne hq]
    rw [heq]
    exact hwaiting.settles (.schedYield h tf _)

lemma step {e : PidEvent} (hposs : e.Possible k) (hlater : e.Later k)
    (hn : n + e.creations < 2 ^ 32 - 2) : PidsTaken (e.step k) (n + e.creations) := by
  cases e with
  | spawn w h argvUser ringHint parentPid =>
    obtain ⟨mm, heq | hmay⟩ := spawn_cases w h argvUser ringHint parentPid k
    · have hs : PidsTaken { k with mm := mm } n := ht.settles (.of_proc_eq rfl rfl rfl)
      exact { heq ▸ hs with next_le := (heq ▸ hs).next_le.trans (by omega) }
    · exact ht.took ⟨hmay.tookPid.nextPid_eq, hmay.tookPid.created⟩ (by omega) hposs hlater
  | fork w h tf =>
    exact ht.took (mayCreate_sysFork w h tf k).tookPid (by omega) hposs hlater
  | exit h pid code =>
    show PidsTaken (k.exit h pid code) n
    cases hv : k.byPid pid with
    | none => rwa [exit_of_none hv]
    | some v =>
      have hx := exited_exit h code hv
      exact ht.same (hx.allProcs_eq ▸ .refl _) hx.pid_eq hx.nextPid_eq
  | wait h tf statusOut => exact ht.waited (waitOutcome_wait h tf statusOut k)
  | waitpid h tf pid statusOut options => exact ht.waited (waitOutcome_sysWaitpid h tf pid statusOut options k)
  | enterUser h pid => exact ht.settles (.enterUser h pid k)
  | yield h tf => exact ht.settles (.schedYield h tf k)
  | signalSend h pid signal =>
    rw [PidEvent.step]
    split
    · rename_i k1 hok
      exact ht.settles (.signalSend hok)
    · exact ht

end

lemma launch (mm : Mm) (h : Hart) (mem ustack rootPa heapBrk : ℕ) (ring : UInt8) {entry : ℕ}
    (hentry : entry ≠ 0) : PidsTaken (launch mm h mem entry ustack rootPa heapBrk ring).kernel 0 := by
  rw [kernel_launch mm h mem ustack rootPa heapBrk ring hentry]
  have hpid : (((Kernel.boot mm).withRecord h mem
      (newProc entry ustack rootPa procPidInit 0 heapBrk ring 0 0)).proc mem).pid = 1 := by
    rw [proc_withRecord_self]
    rfl
  constructor
  · rw [allProcs_withRecord]
    exact nodup_singleton _
  · intro p hp
    rw [allProcs_withRecord] at hp
    rw [mem_singleton.mp hp]
    exact .inl hpid
  · rw [nextPid_withRecord]
    exact le_refl 1
  · rw [nextPid_withRecord]
    exact le_refl 1

end PidsTaken

/-- In every state that is reached from launch with fewer than `2 ^ 32 - 2` attempts to create a process, all
pids are distinct, provided that no attempt succeeds while the next pid is still that of the first process. -/
theorem pids_unique {mm : Mm} {h : Hart} {mem entry ustack rootPa heapBrk : ℕ} {ring : UInt8}
    (hentry : entry ≠ 0) {s : Kernel × ℕ}
    (hrun : Relation.ReflTransGen (PidEvent.Step PidEvent.Later)
      ((launch mm h mem entry ustack rootPa heapBrk ring).kernel, 0) s)
    (hn : s.2 < 2 ^ 32 - 2) : PidsUnique s.1 := by
  -- the number of attempts only grows, so the bound holds all along the run
  have htaken : s.2 < 2 ^ 32 - 2 → PidsTaken s.1 s.2 := by
    induction hrun with
    | refl => exact fun _ => .launch mm h mem ustack rootPa heapBrk ring hentry
    | tail _ hstep ih =>
      obtain ⟨e, hposs, hlater⟩ := hstep
      intro hbound
      exact (ih (by omega) (by omega)).step hposs hlater hbound
  exact (htaken hn).unique

/-- The system calls `fork` of the first process, without and with memory for a record. -/
def forkWithout : PidEvent := .fork ⟨.error .noEnt, fun _ => 0, .error .noMem⟩ 0 {}

def forkWith : PidEvent := .fork ⟨.error .noEnt, fun _ => 0, .ok 0x2000⟩ 0 {}

/-- The first process runs. -/
def entered : Kernel :=
  (PidEvent.enterUser 0 1).step (launch freshMm 0 0x1000 0x10000 0x20000 0 0 procRingUser).kernel

lemma entered_run (Q : PidEvent → Kernel → Prop) (hq : ∀ k, Q (.enterUser 0 1) k) :
    Relation.ReflTransGen (PidEvent.Step Q)
      ((launch freshMm 0 0x1000 0x10000 0x20000 0 0 procRingUser).kernel, 0) (entered, 0) :=
  .single (.event (.enterUser 0 1) trivial (hq _))

lemma entered_possible {k : Kernel} (hk : k.allProcs = [0x1000]) : forkWith.Possible k := by
  intro c hc
  cases hc
  rw [hk]
  decide

/-- A first attempt fails, a second one succeeds. -/
theorem pids_unique_fork : PidsUnique (forkWith.step (forkWithout.step entered)) := by
  have hfail : PidEvent.Step PidEvent.Later (entered, 0) (forkWithout.step entered, 1) :=
    .event forkWithout (fun c hc => nomatch hc) fun _ => ⟨_, rfl⟩
  have hone : (forkWithout.step entered).nextPid ≠ 1 := by decide
  have hfork : PidEvent.Step PidEvent.Later (forkWithout.step entered, 1)
      (forkWith.step (forkWithout.step entered), 2) :=
    .event forkWith (entered_possible (by decide)) fun h => absurd h hone
  exact pids_unique (s := (forkWith.step (forkWithout.step entered), 2)) (by decide)
    (((entered_run PidEvent.Later fun _ => trivial).tail hfail).tail hfork) (by decide)

/-- The first process that is created gets the pid of the first process. -/
theorem not_pidsUnique_fork : ∃ s, Relation.ReflTransGen (PidEvent.Step fun _ _ => True)
    ((launch freshMm 0 0x1000 0x10000 0x20000 0 0 procRingUser).kernel, 0) s ∧
      s.2 < 2 ^ 32 - 2 ∧ ¬PidsUnique s.1 := by
  have hfork : PidEvent.Step (fun _ _ => True) (entered, 0) (forkWith.step entered, 1) :=
    .event forkWith (entered_possible (by decide)) trivial
  refine ⟨(forkWith.step entered, 1), (entered_run _ fun _ => trivial).tail hfork, by decide, fun hunique => ?_⟩
  have hnodup := hunique.nodup
  revert hnodup
  decide

end OnyxKernel
