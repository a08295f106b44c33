import OnyxKernel.Syscall.KeptCalls

/-!
# Rings only drop

A process runs in a ring, and the system calls for root are those of the rings 0 and 1.  `dropring`
moves to any less privileged ring, up to 255, while `exec` and `execve` compare the ring with 2 only:
a process that has dropped to ring 3 gets ring 1 from an executable that asks for it
(`ring_regained`).  In runs without such an `exec` a process that has left the rings 0 and 1 never
returns to them (`ring_stays_dropped`).
-/

namespace OnyxKernel.Kernel

open Onx OnxHeader Option UInt8 Sys

variable {w : Supply} {readdir : Readdir} {h : Hart} {other : OtherCall h} {tf : TrapFrame}
  {k k' : Kernel} {p q : ℕ} {parentPid argc argvSp path argv size envp uid : ℕ} {ringHint : UInt8}
  {r : OnxLoadResult} {image : ByteMemory.Memory} {l : Loader} {more : Proc → Proc}
  {entryVaddr : OnxLoadResult → ℕ}

/-! ### The calls that do not concern the ring -/

lemma proc_loadFile (w : Supply) (k : Kernel) : (k.loadFile w).kernel.proc = k.proc := by
  unfold loadFile
  split
  · rfl
  · split
    · rfl
    · rfl
    · rfl

lemma ring_exit (pid : ℕ) (code : ℤ) (p : ℕ) : ((k.exit h pid code).proc p).ring = (k.proc p).ring := by
  cases hv : k.byPid pid with
  | none => rw [exit_of_none hv]
  | some v =>
    obtain ⟨hothers, -, hself, -⟩ := exit_of_some h code hv
    by_cases hp : p = v
    · rw [hp, hself.eq_update]
      rfl
    · exact (hothers p hp).kept.ring_eq

section

variable (hrec : ∀ q, w.record = .ok q → p ≠ q)
include hrec

lemma MayCreate.ring_eq (hmay : MayCreate w.record h k k') : (k'.proc p).ring = (k.proc p).ring := by
  cases hmay with
  | failed mm heq => rw [heq]; rfl
  | created mm q r hq _ _ p' frame heq =>
    have htf : (k'.proc p).ring = (({ k.allocPid.2 with mm := mm }.withRecord h q r).proc p).ring := by
      rw [heq]
      exact ((kept_modifyProc ⟨rfl, rfl, rfl, id⟩).records p).ring_eq
    rw [htf, proc_withRecord_of_ne (hrec q hq)]
    rfl

/-- The calls other than `dropring`, `exec` and `execve` leave the rings of existing processes
alone. -/
theorem ring_dispatch (hdrop : tf.a7 ≠ dropring)
    (hexec : tf.a7 ≠ exec) (hexecve : tf.a7 ≠ execve) :
    ((k.dispatch w readdir other tf).kernel.proc p).ring = (k.proc p).ring := by
  by_cases hexit : tf.a7 = Sys.exit
  · unfold dispatch
    rw [hexit]
    exact ring_exit _ _ p
  rcases dispatch_cases hexit hdrop hexec hexecve with hkeeps | ⟨mm, heq | hmay⟩ | heq
  · exact (hkeeps.records p).ring_eq
  · rw [heq]
  · exact MayCreate.ring_eq (k := { k with mm := mm }) hrec hmay
  · rw [heq]
    exact other.ring_eq tf k p

end

/-! ### `dropring` and `exec` -/

lemma le_ring_sysDropring (target : UInt8) (hcur : k.hartCurrent h = some p) :
    (k.proc p).ring ≤ ((k.sysDropring h target).2.proc p).ring := by
  have hp : (k.hartCurrent h).getD 0 = p := by rw [hcur, getD_some]
  unfold sysDropring
  dsimp only
  split_ifs with hlt heq
  · exact UInt8.le_refl _
  · exact UInt8.le_refl _
  · have hring : ((k.modifyCurrent h fun r => { r with ring := target }).proc p).ring = target := by
      rw [modifyCurrent, hp, proc_modifyProc_self]
    rw [current, hp] at hlt
    rw [hring]
    exact UInt8.not_lt.mp hlt

lemma ring_of_load {s : Mm} (hok : load image size (.start s) = .ok r l) :
    ∃ hdr, fromBytes image size = some hdr ∧
      r.ring = if hdr.flags &&& onxFlagsRing1 ≠ 0 then 1 else 2 := by
  obtain ⟨hdr, s1, l1, l2, hhdr, hroot, hsegs, hstack, hheap⟩ := load_ok hok
  have heq := hok.symm.trans (load_of_steps hhdr hroot hsegs hstack hheap)
  injection heq with hr
  exact ⟨hdr, hhdr, congrArg OnxLoadResult.ring hr⟩

/-- The file of a call is an executable that asks for ring 1. -/
def RootImage (w : Supply) : Prop :=
  ∃ image size hdr, w.file = .ok (image, size) ∧ fromBytes image size = some hdr ∧
    hdr.flags &&& onxFlagsRing1 ≠ 0

lemma ring_replaceImage (hmore : ∀ r, (more r).ring = r.ring) (hcur : k.hartCurrent h = some p) :
    ((k.replaceImage h tf r argc argvSp more).2.proc p).ring =
      if r.ring = 1 then procRingRoot else procRingUser := by
  have hp : (k.hartCurrent h).getD 0 = p := by rw [hcur, getD_some]
  unfold replaceImage
  dsimp only
  split_ifs with hroot hring hring
  all_goals rw [modifyCurrent, hp, proc_modifyProc_self, hmore]

lemma load_of_loadFile (hok : k.loadFile w = .ret (.ok r) k') :
    ∃ image size l, w.file = .ok (image, size) ∧ load image size (.start k.mm) = .ok r l ∧
      k' = { k with mm := l.mm } := by
  unfold loadFile at hok
  split at hok
  · cases hok
  · rename_i image size hfile
    split at hok
    · rename_i r' l hload
      cases hok
      exact ⟨image, size, l, hfile, hload, rfl⟩
    · cases hok
    · cases hok

/-- `exec` gives up before or after the program has been loaded, or replaces the program of the
caller. -/
theorem execWith_cases (w : Supply) (h : Hart) (tf : TrapFrame) (path argv envp : ℕ)
    (entryVaddr : OnxLoadResult → ℕ) (uid : ℕ) (more : Proc → Proc) (k : Kernel) :
    (k.execWith w h tf path argv envp entryVaddr uid more).kernel = k ∨
    (k.execWith w h tf path argv envp entryVaddr uid more).kernel = (k.loadFile w).kernel ∨
    ∃ r k1 argc argvSp mm, k.loadFile w = .ret (.ok r) k1 ∧
      ¬ (k.currentRing h = procRingUser ∧ r.ring = 1) ∧
      copyArgvEnvpToStack w.user k1.uptimeUs r.rootPa r.ustack argv envp (entryVaddr r) uid k1.mm =
        ((argc, argvSp), mm) ∧
      k.execWith w h tf path argv envp entryVaddr uid more =
        .ret (argc, ({ k1 with mm := mm }.replaceImage h tf r argc argvSp more).1)
          ({ k1 with mm := mm }.replaceImage h tf r argc argvSp more).2 := by
  unfold execWith
  split_ifs with hpath
  · exact .inl rfl
  · right
    cases hx : k.loadFile w with
    | switched dest k1 => exact .inl rfl
    | halted k1 => exact .inl rfl
    | ret res k1 =>
      cases res with
      | error e => exact .inl rfl
      | ok r =>
        dsimp only [Flow.bind]
        by_cases hperm : k.currentRing h = procRingUser ∧ r.ring = 1
        · rw [if_pos hperm]
          exact .inl rfl
        · rw [if_neg hperm]
          exact .inr ⟨r, k1, _, _, _, rfl, hperm, rfl, rfl⟩

/-- The ring of the caller after `exec`: unchanged, or that of the program, which is not ring 1 for a
caller in ring 2. -/
theorem ring_execWith (w : Supply) (tf : TrapFrame) (path argv envp uid : ℕ)
    (entryVaddr : OnxLoadResult → ℕ) (hmore : ∀ r, (more r).ring = r.ring) (hcur : k.hartCurrent h = some p) :
    ((k.execWith w h tf path argv envp entryVaddr uid more).kernel.proc p).ring = (k.proc p).ring ∨
      ((k.execWith w h tf path argv envp entryVaddr uid more).kernel.proc p).ring = procRingUser ∨
      RootImage w ∧ (k.proc p).ring ≠ procRingUser := by
  rcases execWith_cases w h tf path argv envp entryVaddr uid more k with
    heq | heq | ⟨r, k1, argc, argvSp, mm, hload, hperm, -, heq⟩
  · rw [heq]
    exact .inl rfl
  · rw [heq, proc_loadFile]
    exact .inl rfl
  · right
    obtain ⟨image, size, l, hfile, hok, hk1⟩ := load_of_loadFile hload
    have hcur1 : { k1 with mm := mm }.hartCurrent h = some p := by
      rwa [hk1]
    rw [heq]
    by_cases hring : r.ring = 1
    · right
      obtain ⟨hdr, hhdr, hflag⟩ := ring_of_load hok
      refine ⟨⟨image, size, hdr, hfile, hhdr, fun hclear => ?_⟩, fun huser => hperm ⟨?_, hring⟩⟩
      · rw [if_neg (not_not_intro hclear), hring] at hflag
        exact absurd hflag (by decide)
      · rwa [currentRing, hcur]
    · left
      exact (ring_replaceImage hmore hcur1).trans (if_neg hring)

/-! ### Runs -/

/-- A system call: the hart and the trap frame of the caller, and what the call obtains. -/
structure Call where
  h : Hart
  tf : TrapFrame
  w : Supply
  readdir : Readdir
  other : OtherCall h

/-- The outcome of a system call. -/
def Call.run (c : Call) (k : Kernel) : Flow (ℤ × TrapFrame) := k.handle c.w c.readdir c.other c.tf

/-- A step in the life of the process with the record at `p`: it makes a system call that satisfies
`Q`, or something happens elsewhere that leaves its ring alone. -/
inductive RingStep (Q : Call → Kernel → Prop) (p : ℕ) (k : Kernel) : Kernel → Prop
  | call (c : Call) (hcur : k.hartCurrent c.h = some p) (hrec : ∀ q, c.w.record = .ok q → p ≠ q)
      (hq : Q c k) : RingStep Q p k (c.run k).kernel
  | elsewhere {k' : Kernel} (hring : (k'.proc p).ring = (k.proc p).ring) : RingStep Q p k k'

/-- A process below ring 2 does not execute a program that asks for ring 1. -/
def NoRise (c : Call) (k : Kernel) : Prop :=
  c.tf.a7 = exec ∨ c.tf.a7 = execve → procRingUser < k.currentRing c.h → ¬ RootImage c.w

/-- `exec` and `execve` keep a process out of the rings 0 and 1 that has left them. -/
theorem root_lt_ring_execWith (hmore : ∀ r, (more r).ring = r.ring) (hcur : k.hartCurrent h = some p)
    (hrise : procRingUser < (k.proc p).ring → ¬ RootImage w) (hring : procRingRoot < (k.proc p).ring) :
    procRingRoot < ((k.execWith w h tf path argv envp entryVaddr uid more).kernel.proc p).ring := by
  rcases ring_execWith w tf path argv envp uid entryVaddr hmore hcur with heq | heq | ⟨himage, hne⟩
  · rwa [heq]
  · rw [heq]
    decide
  · -- the rings above 1 other than 2 are those that `exec` does not look at
    have hlt : procRingUser < (k.proc p).ring := by
      rw [lt_iff_toNat_lt] at hring ⊢
      have hne' : (k.proc p).ring.toNat ≠ procRingUser.toNat := fun heq => hne (UInt8.toNat_inj.mp heq)
      have hroot : procRingRoot.toNat = 1 := rfl
      have huser : procRingUser.toNat = 2 := rfl
      omega
    exact absurd himage (hrise hlt)

lemma RingStep.root_lt (hs : RingStep NoRise p k k') (hring : procRingRoot < (k.proc p).ring) :
    procRingRoot < (k'.proc p).ring := by
  cases hs with
  | elsewhere heq =>
    rwa [heq]
  | call c hcur hrec hq =>
    have hcurRing : k.currentRing c.h = (k.proc p).ring := by rw [currentRing, hcur]
    unfold Call.run handle
    split_ifs
    · exact hring
    · by_cases hdrop : c.tf.a7 = dropring
      · unfold dispatch
        rw [hdrop]
        have hle := le_ring_sysDropring (ofNat c.tf.a0) hcur
        exact UInt8.lt_of_lt_of_le hring hle
      by_cases hexec : c.tf.a7 = exec
      · unfold dispatch
        rw [hexec]
        refine root_lt_ring_execWith (fun _ => rfl) hcur (fun hlt => ?_) hring
        exact hq (.inl hexec) (hcurRing ▸ hlt)
      by_cases hexecve : c.tf.a7 = execve
      · unfold dispatch
        rw [hexecve]
        refine root_lt_ring_execWith (fun _ => rfl) hcur (fun hlt => ?_) hring
        exact hq (.inr hexecve) (hcurRing ▸ hlt)
      · rwa [ring_dispatch hrec hdrop hexec hexecve]

/-- In a run in which no process below ring 2 executes a program that asks for ring 1, a process that
has left the rings 0 and 1 never returns to them, and no system call for root is allowed to it any
more. -/
theorem ring_stays_dropped (hrun : Relation.ReflTransGen (RingStep NoRise p) k k')
    (hring : procRingRoot < (k.proc p).ring) :
    procRingRoot < (k'.proc p).ring ∧ ∀ nr ∈ rootCalls, syscallAllowed nr (k'.proc p).ring = false := by
  have hlast : procRingRoot < (k'.proc p).ring := by
    induction hrun with
    | refl => exact hring
    | tail _ hs ih => exact hs.root_lt ih
  refine ⟨hlast, fun nr hnr => ?_⟩
  have huser : nr ∉ userCalls := fun hmem => by
    have hdisj : ∀ n ∈ rootCalls, n ∉ userCalls := by decide
    exact hdisj nr hnr hmem
  rw [syscallAllowed, if_neg huser, if_pos hnr]
  exact decide_eq_false (UInt8.not_le.mpr hlast)

/-! ### A run that regains ring 1 -/

/-- An executable without segments that asks for ring 1. -/
def rootImage : ByteMemory.Memory := fun i =>
  (ByteMemory.leBytes 4 onxMagic ++ ByteMemory.leBytes 4 1 ++ ByteMemory.leBytes 8 0x10000 ++
    ByteMemory.leBytes 4 0 ++ ByteMemory.leBytes 4 onxFlagsRing1).getD i 0

lemma rootImage_header : fromBytes rootImage 344 = some ⟨onxMagic, 1, 0x10000, 0, onxFlagsRing1, []⟩ := by
  decide +kernel

/-- A call of the process on hart 0 with a file. -/
def callWith (tf : TrapFrame) : Call where
  h := 0
  tf := tf
  w := ⟨.ok (rootImage, 344), fun _ => 0, .error .noMem⟩
  readdir := fun _ _ _ => .ok none
  other :=
    { run := fun tf k => .ret (0, tf) k
      ring_eq := fun _ _ _ => rfl
      current_eq := fun _ _ _ _ hret => by cases hret; rfl
      not_exited := fun _ _ _ _ _ hret hs => by cases hret; exact hs }

/-- `dropring(3)`, and `exec` of the executable. -/
def dropCall : Call := callWith { a7 := dropring, a0 := 3 }
def execCall : Call := callWith { a7 := exec, a0 := 0x10000 }

/-- `dropring` alone. -/
theorem ring_stays_dropped_dropCall :
    procRingRoot < ((dropCall.run (oneProcess freshMm 0)).kernel.proc 0x80200000).ring ∧
      ∀ nr ∈ rootCalls, syscallAllowed nr
        ((dropCall.run (oneProcess freshMm 0)).kernel.proc 0x80200000).ring = false :=
  ring_stays_dropped
    (.single (.call dropCall rfl (nofun) fun hexec => absurd hexec (by decide)))
    (by decide)

/-- `exec` of a program for ring 1 by a process that is not in ring 2. -/
theorem ring_execWith_of_load (hmore : ∀ r, (more r).ring = r.ring) (hcur : k.hartCurrent h = some p)
    (hpath : userPtrOk path 1 = true) (hfile : w.file = .ok (image, size))
    (hload : load image size (.start k.mm) = .ok r l) (hring : r.ring = 1)
    (hne : (k.proc p).ring ≠ procRingUser) :
    ((k.execWith w h tf path argv envp entryVaddr uid more).kernel.proc p).ring = procRingRoot := by
  have hret : k.loadFile w = .ret (.ok r) { k with mm := l.mm } := by
    unfold loadFile
    rw [hfile]
    simp only [hload]
  have hperm : ¬ (k.currentRing h = procRingUser ∧ r.ring = 1) := fun hp => hne (by
    rw [← hp.1, currentRing, hcur])
  have hpath' : ¬ ((!userPtrOk path 1) = true) := by
    rw [hpath]
    decide
  obtain ⟨argc, argvSp, mm, heq⟩ : ∃ (argc argvSp : ℕ) (mm : Mm),
      k.execWith w h tf path argv envp entryVaddr uid more =
        .ret (argc, ({ k with mm := mm }.replaceImage h tf r argc argvSp more).1)
          ({ k with mm := mm }.replaceImage h tf r argc argvSp more).2 := by
    unfold execWith
    rw [if_neg hpath', hret]
    dsimp only [Flow.bind]
    rw [if_neg hperm]
    exact ⟨_, _, _, rfl⟩
  have hcur' : { k with mm := mm }.hartCurrent h = some p := hcur
  rw [heq]
  exact (ring_replaceImage hmore hcur').trans (if_pos hring)

/-- A process in ring 2 drops to ring 3 and executes a program that asks for ring 1: it may make the
calls for root. -/
theorem ring_regained : ∃ (k k' : Kernel) (p : ℕ),
    Relation.ReflTransGen (RingStep (fun _ _ => True) p) k k' ∧ (k.proc p).ring = procRingUser ∧
      (k'.proc p).ring = procRingRoot ∧ syscallAllowed kill (k'.proc p).ring = true := by
  obtain ⟨r, l, -, hload, -, -, -⟩ := load_loaded freshMm_valid freshMm_physical
    rootImage_header (List.map_nil (f := Prod.fst)).symm (fun x hx => absurd hx List.not_mem_nil) (by decide)
  obtain ⟨hdr, hhdr, hring⟩ := ring_of_load hload
  cases rootImage_header.symm.trans hhdr
  obtain ⟨k1, hk1⟩ : ∃ k1, k1 = (dropCall.run (oneProcess freshMm 0)).kernel := ⟨_, rfl⟩
  have hcur : k1.hartCurrent 0 = some 0x80200000 := by rw [hk1]; rfl
  have hmm : k1.mm = freshMm := by rw [hk1]; rfl
  have hring1 : (k1.proc 0x80200000).ring ≠ procRingUser := by rw [hk1]; decide
  have hpath : userPtrOk execCall.tf.a0 1 = true := by decide
  have hroot : ((execCall.run k1).kernel.proc 0x80200000).ring = procRingRoot := by
    rw [← hmm] at hload
    exact ring_execWith_of_load (fun _ => rfl) hcur hpath rfl hload hring hring1
  refine ⟨oneProcess freshMm 0, (execCall.run k1).kernel, 0x80200000, ?_, rfl, hroot, ?_⟩
  · refine .tail (.single ?_) (.call execCall hcur (nofun) trivial)
    rw [hk1]
    exact .call dropCall rfl (nofun) trivial
  · rw [hroot]
    decide

end OnyxKernel.Kernel
