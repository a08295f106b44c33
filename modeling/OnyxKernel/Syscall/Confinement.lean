import OnyxKernel.Onx.LoadView
import OnyxKernel.Syscall.CopyOut

/-!
# Confinement of copies to user memory

A system call that writes through a user pointer is confined when every byte it stores lands at the
physical address that the caller's own page table gives, through a user page, to the virtual address
the byte belongs to.  The calls translate the first address only, accept kernel pages, and write on
contiguously, so they are not confined in general; `confined_iff` says exactly when they are: when
the first page of the range is a user page and every further page of it is a user page whose frame
follows the frame before it.
-/

namespace OnyxKernel.Kernel

open ByteMemory Vmm Nat List Kernel Onx

/-- A call that writes to user memory, with its arguments. -/
inductive CopyOp where
  | getentropy (buf len : ℕ)
  | getdents64 (fd buf count : ℕ)
  | ioctl (request arg : ℕ)
  | fillUserStat (outVa : ℕ) (info : StatInfo)
  | sigaction (signum actPtr oldactPtr : ℕ)
  | sigprocmask (how setPtr oldsetPtr : ℕ)

variable (readdir : Readdir) (h : Hart) (k : Kernel) {va pa n count buf : ℕ} {b : ℕ × ℕ} {fd : VfsFd}

/-- The state after a call. -/
def CopyOp.run (op : CopyOp) (k : Kernel) : Kernel :=
  match op with
  | .getentropy buf len => (sysGetentropy h buf len k).2
  | .getdents64 fd buf count => (sysGetdents64 readdir h fd buf count k).2
  | .ioctl request arg => (sysIoctl h request arg k).2
  | .fillUserStat outVa info => k.fillUserStat h outVa info
  | .sigaction signum actPtr oldactPtr => (Kernel.sigaction h signum actPtr oldactPtr k).2
  | .sigprocmask how setPtr oldsetPtr => (Kernel.sigprocmask h how setPtr oldsetPtr k).2

/-- The bytes a call stores: their virtual and physical addresses. -/
def CopyOp.copied (op : CopyOp) : List (ℕ × ℕ) := (op.run readdir h { k with copied := [] }).copied

/-- Every byte the call stores lands where the caller's page table maps its virtual address with
`PTE_U`. -/
def CopyOp.Confined (op : CopyOp) : Prop :=
  ∀ b ∈ op.copied readdir h k,
    b.2 ≠ 0 ∧ translateUser k.mm.mem (k.current h).rootPa b.1 = b.2

/-! ### The range a call writes -/

/-- The number of bytes that the loop of `sys_getdents64` has written when it ends. -/
def direntsLength (fd : VfsFd) (count : ℕ) : (fuel cursor written : ℕ) → ℕ
  | 0, _, written => written
  | fuel + 1, cursor, written =>
    match readdir fd.fs fd.ino cursor with
    | .ok (some (_, entry)) =>
      let len := reclenAligned (entryName entry).length
      if count < written + len then written
      else direntsLength fd count fuel ((cursor + 1) % 2 ^ 32) (written + len)
    | _ => written

/-- The size of the record that an `ioctl` request fills. -/
def ioctlSize (request : ℕ) : ℕ :=
  if request = tcgets then 60 else if request = tiocgwinsz then 8
  else if request = fionread then 4 else 0

/-- The range of user memory that a call is about to write, as its first address and its length,
when the arguments pass the checks of the call. -/
def CopyOp.range : CopyOp → Option (ℕ × ℕ)
  | .getentropy buf len => if len ≤ 256 ∧ userPtrOk buf len then some (buf, len) else none
  | .getdents64 fd buf count =>
    if userPtrOk buf count ∧ 19 ≤ count then
      match k.fdCheck h fd with
      | .ok idx =>
        some (buf, direntsLength readdir (k.fdGet h idx) count (count + 1) (k.fdGet h idx).pos 0)
      | .error _ => none
    else none
  | .ioctl request arg =>
    if arg ≠ 0 ∧ userPtrOk arg (ioctlSize request) then some (arg, ioctlSize request) else none
  | .fillUserStat outVa _ =>
    if userPtrOk outVa userStatSize then some (outVa, userStatSize) else none
  | .sigaction signum _ oldactPtr =>
    if signum ≠ 0 ∧ signum < nsig ∧ signum ≠ sigKill ∧ signum ≠ sigStop ∧ oldactPtr ≠ 0 then
      some (oldactPtr, 32)
    else none
  | .sigprocmask _ _ oldsetPtr => if oldsetPtr ≠ 0 then some (oldsetPtr, 8) else none

/-- The pages of the range `[va, va + n)` are user pages, and their frames follow the one of the
first page: at the first byte and at every page boundary inside the range. -/
def UserRange (m : Memory) (rootPa va n : ℕ) : Prop :=
  ∀ i < n, i = 0 ∨ wadd va i % pageSize = 0 →
    translateUser m rootPa (wadd va i) = translate m rootPa va + i

/-! ### What the calls store -/

/-- The addresses of a copy of `n` bytes. -/
def copyAddrs (va pa n : ℕ) : List (ℕ × ℕ) := (range n).map fun i => (wadd va i, pa + i)

lemma mem_copyAddrs : b ∈ copyAddrs va pa n ↔ ∃ i < n, (wadd va i, pa + i) = b := by
  simp [copyAddrs]

@[simp] lemma copied_copyOut (va pa : ℕ) (bytes : List UInt8) (k : Kernel) :
    (k.copyOut va pa bytes).copied = copyAddrs va pa bytes.length ++ k.copied := rfl

@[simp] lemma copied_modifyProc (p : ℕ) (f : Proc → Proc) (k : Kernel) :
    (k.modifyProc p f).copied = k.copied := rfl

@[simp] lemma copied_modifyCurrent (f : Proc → Proc) (k : Kernel) :
    (k.modifyCurrent h f).copied = k.copied := rfl

@[simp] lemma copied_fdUpdatePos (idx : Fin vfsMaxFds) (pos : ℕ) (k : Kernel) :
    (k.fdUpdatePos h idx pos).copied = k.copied := by
  unfold fdUpdatePos fdModify
  split <;> rfl

lemma wadd_wadd (a b c : ℕ) : wadd (wadd a b) c = wadd a (b + c) := by
  unfold wadd
  rw [mod_add_mod, add_assoc]

/-- The loop of `sys_getdents64` only adds to what it has written. -/
theorem le_direntsLength : ∀ fuel cursor written : ℕ,
    written ≤ direntsLength readdir fd count fuel cursor written
  | 0, _, _ => le_rfl
  | fuel + 1, cursor, written => by
    unfold direntsLength
    split
    · dsimp only
      split_ifs
      · exact le_rfl
      · exact (le_add_right _ _).trans (le_direntsLength fuel _ _)
    · exact le_rfl
lemma mem_copied_getdentsLoop {fd : VfsFd} {buf pa count : ℕ} {b : ℕ × ℕ} :
    ∀ (fuel cursor written : ℕ) (k : Kernel),
      b ∈ (getdentsLoop readdir fd buf pa count fuel cursor written k).2.copied ↔
        (∃ i, written ≤ i ∧ i < direntsLength readdir fd count fuel cursor written ∧
          (wadd buf i, pa + i) = b) ∨ b ∈ k.copied
  | 0, cursor, written, k => by
    have hnone : ∀ i, ¬ (written ≤ i ∧ i < written ∧ (wadd buf i, pa + i) = b) := by omega
    simp [getdentsLoop, direntsLength, hnone]
  | fuel + 1, cursor, written, k => by
    have hnone : ∀ i, ¬ (written ≤ i ∧ i < written ∧ (wadd buf i, pa + i) = b) := by omega
    unfold getdentsLoop direntsLength
    match hentry : readdir fd.fs fd.ino cursor with
    | .error e => simp [hnone]
    | .ok none => simp [hnone]
    | .ok (some (dIno, entry)) =>
      dsimp only
      split_ifs with hfull
      · simp [hnone]
      rw [mem_copied_getdentsLoop fuel, copied_copyOut, mem_append, mem_copyAddrs, length_direntRecord]
      set len := reclenAligned (entryName entry).length
      have hle : written + len ≤
          direntsLength readdir fd count fuel ((cursor + 1) % 2 ^ 32) (written + len) :=
        le_direntsLength readdir fuel _ _
      constructor
      · rintro (⟨i, hlo, hhi, rfl⟩ | ⟨i, hi, rfl⟩ | hb)
        · exact .inl ⟨i, by omega, hhi, rfl⟩
        · exact .inl ⟨written + i, by omega, by omega, by rw [wadd_wadd, add_assoc]⟩
        · exact .inr hb
      · rintro (⟨i, hlo, hhi, rfl⟩ | hb)
        · by_cases hi : i < written + len
          · refine .inr (.inl ⟨i - written, by omega, ?_⟩)
            rw [wadd_wadd, add_assoc, add_sub_of_le hlo]
          · exact .inl ⟨i, by omega, hhi, rfl⟩
        · exact .inr (.inr hb)

/-- `b` is one of the bytes of a copy to the range `r`, from the translation of its first address
on. -/
def CopiesTo (k : Kernel) (r : Option (ℕ × ℕ)) (b : ℕ × ℕ) : Prop :=
  ∃ va n, r = some (va, n) ∧ translate k.mm.mem (k.current h).rootPa va ≠ 0 ∧
    ∃ i < n, (wadd va i, translate k.mm.mem (k.current h).rootPa va + i) = b

lemma not_copiesTo_none (b : ℕ × ℕ) : ¬ CopiesTo h k none b := by
  rintro ⟨va, n, hr, -⟩
  cases hr

lemma copiesTo_some : CopiesTo h k (some (va, n)) b ↔ translate k.mm.mem (k.current h).rootPa va ≠ 0 ∧
      ∃ i < n, (wadd va i, translate k.mm.mem (k.current h).rootPa va + i) = b := by
  constructor
  · rintro ⟨_, _, hr, hb⟩
    cases hr
    exact hb
  · exact fun hb => ⟨va, n, rfl, hb⟩

/-- The shape of the calls with one copy: check the arguments, translate the first address, copy. -/
def copyChecked (ok : Prop) [Decidable ok] (va : ℕ) (bytes : List UInt8) (k : Kernel) : Kernel :=
  if ok then
    if translate k.mm.mem (k.current h).rootPa va = 0 then k
    else k.copyOut va (translate k.mm.mem (k.current h).rootPa va) bytes
  else k

lemma mem_copied_copyChecked {ok : Prop} [Decidable ok] {bytes : List UInt8} (hk : k.copied = []) :
    b ∈ (copyChecked h ok va bytes k).copied ↔
      CopiesTo h k (if ok then some (va, bytes.length) else none) b := by
  unfold copyChecked
  split_ifs with hok hpa
  · simp [copiesTo_some, hk, hpa]
  · simp [copiesTo_some, hk, hpa, mem_copyAddrs]
  · simp [hk, not_copiesTo_none]

lemma sysGetentropy_eq (buf len : ℕ) : (sysGetentropy h buf len k).2 =
    copyChecked h (len ≤ 256 ∧ userPtrOk buf len) buf (entropyBytes len
      (k.uptimeUs * 0x9E3779B97F4A7C15 + UInt64.ofNat (k.currentPid h))) k := by
  unfold sysGetentropy copyChecked
  by_cases hlen : len ≤ 256 <;> cases hptr : userPtrOk buf len
  all_goals simp [hlen, Nat.lt_of_not_le, Nat.not_lt.mpr, apply_ite Prod.snd]

lemma ioctlFill_eq (arg : ℕ) (bytes : List UInt8) : (ioctlFill h arg bytes k).2 =
    copyChecked h (arg ≠ 0 ∧ userPtrOk arg bytes.length) arg bytes k := by
  unfold ioctlFill copyChecked
  by_cases harg : arg = 0 <;> cases hptr : userPtrOk arg bytes.length
  all_goals simp [harg, apply_ite Prod.snd]

lemma fillUserStat_eq (outVa : ℕ) (i : StatInfo) : k.fillUserStat h outVa i =
    copyChecked h (userPtrOk outVa userStatSize) outVa (userStat i) k := by
  unfold fillUserStat copyChecked
  cases hptr : userPtrOk outVa userStatSize <;> simp

lemma mem_copied_sysIoctl {request arg : ℕ} (hk : k.copied = []) : b ∈ (sysIoctl h request arg k).2.copied ↔
      CopiesTo h k (if arg ≠ 0 ∧ userPtrOk arg (ioctlSize request) then
        some (arg, ioctlSize request) else none) b := by
  have hnone : ¬ CopiesTo h k (if arg ≠ 0 ∧ userPtrOk arg 0 then some (arg, 0) else none) b := by
    split_ifs <;> simp [copiesTo_some, not_copiesTo_none]
  have hcopied : ¬ b ∈ k.copied := by simp [hk]
  by_cases hget : request = tcgets
  · rw [sysIoctl, ioctlSize, if_pos hget, if_pos hget, ioctlFill_eq, mem_copied_copyChecked h k hk,
      length_replicate]
  by_cases hset : request = tcsets
  · subst hset
    exact ⟨fun hb => absurd hb hcopied, fun hb => absurd hb hnone⟩
  by_cases hwin : request = tiocgwinsz
  · rw [sysIoctl, ioctlSize, if_neg hget, if_neg hset, if_pos hwin, if_neg hget, if_pos hwin,
      ioctlFill_eq, mem_copied_copyChecked h k hk]
    simp [winsize]
  by_cases hread : request = fionread
  · rw [sysIoctl, ioctlSize, if_neg hget, if_neg hset, if_neg hwin, if_pos hread, if_neg hget,
      if_neg hwin, if_pos hread, ioctlFill_eq, mem_copied_copyChecked h k hk, length_leBytes]
  · rw [sysIoctl, ioctlSize, if_neg hget, if_neg hset, if_neg hwin, if_neg hread, if_neg hget,
      if_neg hwin, if_neg hread]
    exact ⟨fun hb => absurd hb hcopied, fun hb => absurd hb hnone⟩

lemma sigactionOld_eq (signum : Fin nsig) (oldactPtr : ℕ) : sigactionOld h signum oldactPtr k =
    copyChecked h (oldactPtr ≠ 0) oldactPtr (leBytes 8 ((k.current h).signalHandlers signum) ++
      leBytes 8 0 ++ leBytes 8 0 ++ leBytes 8 0) k := by
  unfold sigactionOld copyChecked
  by_cases hp : oldactPtr = 0
  · rw [if_pos hp, if_neg (not_not_intro hp)]
  · rw [if_neg hp, if_pos hp]

@[simp] lemma copied_sigactionNew (signum : Fin nsig) (actPtr : ℕ) :
    (sigactionNew h signum actPtr k).2.copied = k.copied := by
  unfold sigactionNew
  by_cases hact : actPtr = 0
  · rw [if_pos hact]
  · rw [if_neg hact]
    by_cases hpa : translate k.mm.mem (k.current h).rootPa actPtr = 0
    · simp only [if_pos hpa]
    · simp only [if_neg hpa, copied_modifyCurrent]

lemma mem_copied_sigaction {signum actPtr oldactPtr : ℕ} (hk : k.copied = []) :
    b ∈ (sigaction h signum actPtr oldactPtr k).2.copied ↔
      CopiesTo h k (if signum ≠ 0 ∧ signum < nsig ∧ signum ≠ sigKill ∧ signum ≠ sigStop ∧
        oldactPtr ≠ 0 then some (oldactPtr, 32) else none) b := by
  unfold sigaction
  by_cases hsig : signum = 0 ∨ nsig ≤ signum
  · rw [dif_pos hsig, if_neg (by omega)]
    simp [hk, not_copiesTo_none]
  rw [dif_neg hsig]
  have hlt : signum < nsig := by omega
  by_cases hcatch : (⟨signum, hlt⟩ : Fin nsig) = sigKill ∨ (⟨signum, hlt⟩ : Fin nsig) = sigStop
  · rw [if_pos hcatch, if_neg]
    · simp [hk, not_copiesTo_none]
    · rintro ⟨-, -, hkill, hstop, -⟩
      exact hcatch.elim (fun he => hkill (congrArg Fin.val he)) fun he => hstop (congrArg Fin.val he)
  · rw [if_neg hcatch, copied_sigactionNew, sigactionOld_eq, mem_copied_copyChecked h k hk]
    have hne : signum ≠ sigKill ∧ signum ≠ sigStop :=
      ⟨fun he => hcatch (.inl (Fin.ext he)), fun he => hcatch (.inr (Fin.ext he))⟩
    have hiff : (oldactPtr ≠ 0 ↔ signum ≠ 0 ∧ signum < nsig ∧ signum ≠ sigKill ∧
        signum ≠ sigStop ∧ oldactPtr ≠ 0) :=
      ⟨fun hp => ⟨by omega, hlt, hne.1, hne.2, hp⟩, fun hp => hp.2.2.2.2⟩
    simp only [length_append, length_leBytes]
    rw [if_congr hiff rfl rfl]

lemma sigprocmaskOld_eq (oldsetPtr : ℕ) : sigprocmaskOld h oldsetPtr k =
    copyChecked h (oldsetPtr ≠ 0) oldsetPtr (leBytes 8 (k.current h).signalMask.toNat) k := by
  unfold sigprocmaskOld copyChecked
  by_cases hp : oldsetPtr = 0
  · rw [if_pos hp, if_neg (not_not_intro hp)]
  · rw [if_neg hp, if_pos hp]

@[simp] lemma copied_sigprocmaskNew (how setPtr : ℕ) :
    (sigprocmaskNew h how setPtr k).2.copied = k.copied := by
  unfold sigprocmaskNew
  by_cases hset : setPtr = 0
  · rw [if_pos hset]
  · rw [if_neg hset]
    by_cases hpa : translate k.mm.mem (k.current h).rootPa setPtr = 0
    · simp only [if_pos hpa]
    · simp only [if_neg hpa]
      split <;> simp only [copied_modifyCurrent]

lemma mem_copied_sigprocmask {how setPtr oldsetPtr : ℕ} (hk : k.copied = []) :
    b ∈ (sigprocmask h how setPtr oldsetPtr k).2.copied ↔
      CopiesTo h k (if oldsetPtr ≠ 0 then some (oldsetPtr, 8) else none) b := by
  rw [sigprocmask, copied_sigprocmaskNew, sigprocmaskOld_eq, mem_copied_copyChecked h k hk,
    length_leBytes]

lemma mem_copied_sysGetdents64 {fd : ℕ} (hk : k.copied = []) :
    b ∈ (sysGetdents64 readdir h fd buf count k).2.copied ↔
      CopiesTo h k ((CopyOp.getdents64 fd buf count).range readdir h k) b := by
  unfold sysGetdents64
  simp only [CopyOp.range]
  by_cases hok : userPtrOk buf count = true ∧ 19 ≤ count
  · rw [if_pos hok, if_neg (by simp [hok.1, not_lt.mpr hok.2])]
    cases hfd : k.fdCheck h fd with
    | error e => simp [hk, not_copiesTo_none]
    | ok idx =>
      simp only [copiesTo_some]
      by_cases hpa : translate k.mm.mem (k.current h).rootPa buf = 0
      · simp [hpa, hk]
      · rw [if_neg hpa]
        have hloop := @mem_copied_getdentsLoop readdir (k.fdGet h idx) buf
          (translate k.mm.mem (k.current h).rootPa buf) count b (count + 1) (k.fdGet h idx).pos 0 k
        rcases hres : getdentsLoop readdir (k.fdGet h idx) buf
          (translate k.mm.mem (k.current h).rootPa buf) count (count + 1) (k.fdGet h idx).pos 0 k
          with ⟨result, k'⟩
        rw [hres] at hloop
        have hcopied : b ∈ k'.copied ↔ ∃ i < direntsLength readdir (k.fdGet h idx) count (count + 1)
            (k.fdGet h idx).pos 0, (wadd buf i, translate k.mm.mem (k.current h).rootPa buf + i) = b := by
          simpa [hk] using hloop
        rw [← hcopied]
        cases result with
        | error e => simp [hpa]
        | ok r => simp [hpa]
  · rw [if_neg hok, if_pos]
    · simp [hk, not_copiesTo_none]
    · rcases not_and_or.mp hok with hptr | hcount
      · exact .inl (by simpa using hptr)
      · exact .inr (by omega)

/-- What a call stores: from the translation of the first address of its range on, one byte after
the other. -/
theorem mem_copied_iff (op : CopyOp) : b ∈ op.copied readdir h k ↔ CopiesTo h k (op.range readdir h k) b := by
  change b ∈ (op.run readdir h { k with copied := [] }).copied ↔
    CopiesTo h { k with copied := [] } (op.range readdir h { k with copied := [] }) b
  generalize hk' : ({ k with copied := [] } : Kernel) = k'
  have hk : k'.copied = [] := by rw [← hk']
  cases op with
  | getentropy buf len =>
    rw [CopyOp.run, sysGetentropy_eq, mem_copied_copyChecked h k' hk, length_entropyBytes]
    rfl
  | getdents64 fd buf count => exact mem_copied_sysGetdents64 readdir h k' hk
  | ioctl request arg => exact mem_copied_sysIoctl h k' hk
  | fillUserStat outVa info =>
    rw [CopyOp.run, fillUserStat_eq, mem_copied_copyChecked h k' hk, length_userStat]
    rfl
  | sigaction signum actPtr oldactPtr => exact mem_copied_sigaction h k' hk
  | sigprocmask how setPtr oldsetPtr => exact mem_copied_sigprocmask h k' hk

/-! ### When a call is confined -/

lemma UserRange.translateUser_eq {m : Memory} {rootPa : ℕ} (hr : UserRange m rootPa va n)
    (hpa : translate m rootPa va ≠ 0) :
    ∀ i < n, translateUser m rootPa (wadd va i) = translate m rootPa va + i
  | 0, hi => hr 0 hi (.inl rfl)
  | i + 1, hi => by
    have ih := hr.translateUser_eq hpa i (lt_of_succ_lt hi)
    by_cases hpage : wadd va (i + 1) % pageSize = 0
    · exact hr (i + 1) hi (.inr hpage)
    -- a byte inside a page comes right after the byte before it, which is in the same page
    have hstep : wadd va (i + 1) = wadd va i + 1 := by
      have hwrap : wadd va (i + 1) ≠ 0 := fun hz => hpage (by rw [hz]; rfl)
      unfold wadd wordSize at hwrap ⊢
      omega
    have hne : translateUser m rootPa (wadd va i) ≠ 0 := by
      rw [ih]
      omega
    rw [hstep] at hpage ⊢
    rw [translateUser_succ hpage hne, ih, add_assoc]

/-- The condition under which a call is confined: where the first address of its range is mapped at
all, the pages of the range are user pages and their frames follow each other. -/
def CopyOp.Safe (op : CopyOp) : Prop :=
  ∀ va n, op.range readdir h k = some (va, n) →
    translate k.mm.mem (k.current h).rootPa va ≠ 0 →
    UserRange k.mm.mem (k.current h).rootPa va n

/-- A call writes only to the caller's own user pages exactly when the pages of its range are user
pages with consecutive frames (or it does not get to write). -/
theorem confined_iff (op : CopyOp) : op.Confined readdir h k ↔ op.Safe readdir h k := by
  constructor
  · intro hconf va n hrange hpa i hi _
    have hmem : (wadd va i, translate k.mm.mem (k.current h).rootPa va + i) ∈
        op.copied readdir h k :=
      (mem_copied_iff readdir h k op).mpr ⟨va, n, hrange, hpa, i, hi, rfl⟩
    exact (hconf _ hmem).2
  · intro hsafe b hb
    obtain ⟨va, n, hrange, hpa, i, hi, rfl⟩ := (mem_copied_iff readdir h k op).mp hb
    have hr := hsafe va n hrange hpa
    exact ⟨by dsimp only; omega, hr.translateUser_eq hpa i hi⟩

/-- A kernel whose first hart runs a process with the page table at `rootPa`. -/
def oneProcess (mm : Mm) (rootPa : ℕ) : Kernel where
  mm := mm
  allProcs := [0x80200000]
  proc _ := { pid := 1, ring := procRingUser, state := .running, rootPa := rootPa }
  hartCurrent h := if h = 0 then some 0x80200000 else none
  needResched _ := false
  runQueue _ := []
  rqLocked _ := false
  idleTf _ := {}
  nextPid := 2
  kernelFds _ := {}
  upticks := 0
  copied := []

/-- `getentropy` writes to the registers of the serial port, which every page table that `load` builds
maps to themselves inside the user's part. -/
theorem not_confined_getentropy : ∃ r l,
    load (tinyImage 0x10000 4096 2 [1, 2, 3]) 347 (.start freshMm) = .ok r l ∧
      ¬ (CopyOp.getentropy 0x10000000 1).Confined (fun _ _ _ => .ok none) 0
        (oneProcess l.mm r.rootPa) := by
  obtain ⟨r, l, hok, hmap⟩ := load_tinyImage
  refine ⟨r, l, hok, fun hconf => ?_⟩
  have htranslate : translate l.mm.mem r.rootPa 0x10000000 = 0x10000000 := by
    rw [Vmm.translate_eq, hmap]
    rfl
  have huser : translateUser l.mm.mem r.rootPa 0x10000000 = 0 := by
    rw [Vmm.translateUser_eq, hmap]
    rfl
  have hmem : (wadd 0x10000000 0, 0x10000000 + 0) ∈
      (CopyOp.getentropy 0x10000000 1).copied (fun _ _ _ => .ok none) 0 (oneProcess l.mm r.rootPa) := by
    refine (mem_copied_iff _ _ _ _).mpr ⟨0x10000000, 1, rfl, ?_, 0, one_pos, ?_⟩
    · exact htranslate.trans_ne (by decide)
    · exact congrArg (Prod.mk (wadd 0x10000000 0)) (congrArg (· + 0) htranslate)
  exact (hconf _ hmem).1 ((hconf _ hmem).2.symm.trans huser)

end OnyxKernel.Kernel
