import OnyxKernel.Proc.Events
import OnyxKernel.Syscall.Confinement

/-!
# Signals that cannot be blocked

KILL and STOP must never be in the mask of a process.  Three system calls change a mask: `sigprocmask`
takes both signals out of the set it is given, `sys_sigmask` leaves out KILL only, and `sigaction` adds the
word behind the new handler as it is.  The masks are free of the two signals through a sequence of calls
exactly when every call is allowed in the sense of `MaskCall.Allowed`.
-/

namespace OnyxKernel

open ByteMemory List Kernel Vmm Onx

/-- The mask blocks neither KILL nor STOP. -/
def Spares (mask : BitVec 32) : Prop := mask.getLsbD sigKill = false ∧ mask.getLsbD sigStop = false

instance (mask : BitVec 32) : Decidable (Spares mask) := inferInstanceAs (Decidable (_ ∧ _))

namespace Spares

variable {mask mask' : BitVec 32}

lemma or_iff (hmask : Spares mask) : Spares (mask ||| mask') ↔ Spares mask' := by
  simp only [Spares, BitVec.getLsbD_or, hmask.1, hmask.2, Bool.false_or]

lemma and_left (hmask : Spares mask) : Spares (mask &&& mask') := by
  simp only [Spares, BitVec.getLsbD_and, hmask.1, hmask.2, Bool.false_and, and_self]

lemma allowed (set : BitVec 32) : Spares (set &&& ~~~(sigBit sigKill ||| sigBit sigStop)) := by
  have hkill : (~~~(sigBit sigKill ||| sigBit sigStop)).getLsbD sigKill = false := by decide
  have hstop : (~~~(sigBit sigKill ||| sigBit sigStop)).getLsbD sigStop = false := by decide
  simp only [Spares, BitVec.getLsbD_and, hkill, hstop, Bool.and_false, and_self]

lemma sysSigmask_bit_iff {sig : ℕ} (hsig : sig < nsig) :
    Spares (if sig = sigKill then 0 else sigBit sig) ↔ sig ≠ sigStop := by
  revert sig
  decide

end Spares

namespace Kernel

variable {k : Kernel} {h : Hart}

/-- No process blocks KILL or STOP. -/
def MasksSpare (k : Kernel) : Prop := ∀ p, Spares (k.proc p).signalMask

lemma masksSpare_modifyCurrent (hspare : k.MasksSpare) (f : Proc → Proc) :
    (k.modifyCurrent h f).MasksSpare ↔ Spares (f (k.current h)).signalMask := by
  constructor
  · intro hafter
    have hself := hafter ((k.hartCurrent h).getD 0)
    rwa [modifyCurrent, proc_modifyProc_self] at hself
  · intro hmask p
    by_cases hp : p = (k.hartCurrent h).getD 0
    · rwa [hp, modifyCurrent, proc_modifyProc_self]
    · rw [modifyCurrent, proc_modifyProc_of_ne hp]
      exact hspare p

lemma proc_copyOut (va pa : ℕ) (bytes : List UInt8) :
    (k.copyOut va pa bytes).proc = k.proc ∧ (k.copyOut va pa bytes).hartCurrent = k.hartCurrent := ⟨rfl, rfl⟩

lemma proc_copyChecked (ok : Prop) [Decidable ok] (va : ℕ) (bytes : List UInt8) :
    (copyChecked h ok va bytes k).proc = k.proc ∧
      (copyChecked h ok va bytes k).hartCurrent = k.hartCurrent := by
  unfold copyChecked
  split_ifs
  · exact ⟨rfl, rfl⟩
  · exact proc_copyOut ..
  · exact ⟨rfl, rfl⟩

lemma MasksSpare.congr {k' : Kernel} (hspare : k.MasksSpare) (hproc : k'.proc = k.proc) : k'.MasksSpare := by
  intro p
  rw [hproc]
  exact hspare p

end Kernel

/-- The calls that change a mask, with their arguments. -/
inductive MaskCall where
  | sysSigmask (how sig : ℕ)
  | sigprocmask (how setPtr oldsetPtr : ℕ)
  | sigaction (signum actPtr oldactPtr : ℕ)

namespace MaskCall

open Kernel

/-- The state after a call of the current process of a hart. -/
def step (h : Hart) : MaskCall → Kernel → Kernel
  | .sysSigmask how sig, k => (k.sysSigmask h how sig).2
  | .sigprocmask how setPtr oldsetPtr, k => (k.sigprocmask h how setPtr oldsetPtr).2
  | .sigaction signum actPtr oldactPtr, k => (k.sigaction h signum actPtr oldactPtr).2

/-- The word that `sigaction` adds to the mask, where it gets that far. -/
def extraMask (h : Hart) (signum actPtr oldactPtr : ℕ) (k : Kernel) : Option (BitVec 32) :=
  if hsig : signum = 0 ∨ nsig ≤ signum then none
  else
    let signum : Fin nsig := ⟨signum, lt_nsig hsig⟩
    if signum = sigKill ∨ signum = sigStop then none
    else
      let mem := (sigactionOld h signum oldactPtr k).mm.mem
      let newPa := translate mem (k.current h).rootPa actPtr
      if actPtr = 0 ∨ newPa = 0 then none else some (BitVec.ofNat 32 (mem.load (newPa + 8) 8))

/-- The call does not ask for STOP to be blocked in a way that is not filtered, nor for KILL. -/
def Allowed (h : Hart) (k : Kernel) : MaskCall → Prop
  | .sysSigmask how sig => ¬(sig = sigStop ∧ (how = 0 ∨ how = 2))
  | .sigprocmask _ _ _ => True
  | .sigaction signum actPtr oldactPtr => ∀ word ∈ extraMask h signum actPtr oldactPtr k, Spares word

variable {k : Kernel} {h : Hart}

lemma sysSigmask_spare_iff (hspare : k.MasksSpare) (how sig : ℕ) :
    ((MaskCall.sysSigmask how sig).step h k).MasksSpare ↔ Allowed h k (.sysSigmask how sig) := by
  have hcur : Spares (k.current h).signalMask := hspare _
  show (k.sysSigmask h how sig).2.MasksSpare ↔ ¬(sig = sigStop ∧ (how = 0 ∨ how = 2))
  unfold Kernel.sysSigmask
  split
  · rename_i hsig
    have hne : sig ≠ sigStop := by
      intro heq
      rw [heq] at hsig
      exact absurd hsig (by decide)
    simp [hspare, hne]
  · rename_i hsig
    have hbit := Spares.sysSigmask_bit_iff (not_le.mp hsig)
    dsimp only
    split
    · rw [masksSpare_modifyCurrent hspare, hcur.or_iff, hbit]
      simp
    · rw [masksSpare_modifyCurrent hspare]
      simp [hcur.and_left]
    · rw [masksSpare_modifyCurrent hspare, hbit]
      simp
    · rename_i h0 _ h2
      exact iff_of_true hspare fun hstop => hstop.2.elim h0 h2

lemma sigprocmask_spare (hspare : k.MasksSpare) (how setPtr oldsetPtr : ℕ) :
    ((MaskCall.sigprocmask how setPtr oldsetPtr).step h k).MasksSpare := by
  obtain ⟨k1, hk1⟩ : ∃ k1, k1 = sigprocmaskOld h oldsetPtr k := ⟨_, rfl⟩
  have hspare1 : k1.MasksSpare := by
    rw [hk1, sigprocmaskOld_eq]
    exact hspare.congr (proc_copyChecked ..).1
  have hcur : Spares (k1.current h).signalMask := hspare1 _
  show (k.sigprocmask h how setPtr oldsetPtr).2.MasksSpare
  rw [Kernel.sigprocmask, ← hk1]
  unfold sigprocmaskNew
  by_cases hset : setPtr = 0
  · rwa [if_pos hset]
  rw [if_neg hset]
  by_cases hpa : translate k1.mm.mem (k1.current h).rootPa setPtr = 0
  · simp only [if_pos hpa]
    exact hspare1
  simp only [if_neg hpa]
  split
  · rw [masksSpare_modifyCurrent hspare1, hcur.or_iff]
    exact Spares.allowed _
  · rw [masksSpare_modifyCurrent hspare1]
    exact hcur.and_left
  · rw [masksSpare_modifyCurrent hspare1]
    exact Spares.allowed _
  · exact hspare1

lemma sigaction_spare_iff (hspare : k.MasksSpare) (signum actPtr oldactPtr : ℕ) :
    ((MaskCall.sigaction signum actPtr oldactPtr).step h k).MasksSpare ↔
      Allowed h k (.sigaction signum actPtr oldactPtr) := by
  show (k.sigaction h signum actPtr oldactPtr).2.MasksSpare ↔
    ∀ word ∈ extraMask h signum actPtr oldactPtr k, Spares word
  unfold Kernel.sigaction extraMask
  split
  · simp [hspare]
  dsimp only
  split
  · simp [hspare]
  · rename_i hsig hprotected
    obtain ⟨k1, hk1⟩ : ∃ k1, k1 = sigactionOld h ⟨signum, by omega⟩ oldactPtr k := ⟨_, rfl⟩
    obtain ⟨hproc, hcurrent⟩ : k1.proc = k.proc ∧ k1.hartCurrent = k.hartCurrent := by
      rw [hk1, sigactionOld_eq]
      exact proc_copyChecked ..
    have hspare1 : k1.MasksSpare := hspare.congr hproc
    have hcur : k.current h = k1.current h := by rw [current, current, hproc, hcurrent]
    have hmask : Spares (k1.current h).signalMask := hspare1 _
    rw [← hk1, hcur]
    unfold sigactionNew
    by_cases hact : actPtr = 0
    · simp [hact, hspare1]
    rw [if_neg hact]
    by_cases hpa : translate k1.mm.mem (k1.current h).rootPa actPtr = 0
    · simp [hpa, hspare1]
    · simp only [hact, hpa, or_self, if_false]
      rw [masksSpare_modifyCurrent hspare1, hmask.or_iff]
      simp

lemma spare_iff (hspare : k.MasksSpare) (c : MaskCall) : (c.step h k).MasksSpare ↔ c.Allowed h k := by
  cases c with
  | sysSigmask how sig => exact sysSigmask_spare_iff hspare how sig
  | sigprocmask how setPtr oldsetPtr => exact iff_of_true (sigprocmask_spare hspare how setPtr oldsetPtr) trivial
  | sigaction signum actPtr oldactPtr => exact sigaction_spare_iff hspare ..

end MaskCall

/-- What happens to processes in a sequence of calls: between the calls memory changes, and the harts are
given to other processes. -/
inductive MaskEvent where
  | call (h : Hart) (c : MaskCall)
  | memory (mm : Mm)
  | dispatch (h : Hart) (p : Option ℕ)

namespace MaskEvent

def step : MaskEvent → Kernel → Kernel
  | .call h c, k => c.step h k
  | .memory mm, k => { k with mm := mm }
  | .dispatch h p, k => { k with hartCurrent := Function.update k.hartCurrent h p }

def Allowed (k : Kernel) : MaskEvent → Prop
  | .call h c => c.Allowed h k
  | _ => True

/-- The state after a sequence of events. -/
def run (k : Kernel) (es : List MaskEvent) : Kernel := es.foldl (fun k e => e.step k) k

lemma spare_iff {k : Kernel} (hspare : k.MasksSpare) (e : MaskEvent) :
    (e.step k).MasksSpare ↔ e.Allowed k := by
  cases e with
  | call h c => exact MaskCall.spare_iff hspare c
  | memory mm => exact iff_of_true (hspare.congr rfl) trivial
  | dispatch h p => exact iff_of_true (hspare.congr rfl) trivial

/-- Through a sequence of calls, KILL and STOP are blocked in no state exactly when every call is allowed
in the state it is made in. -/
theorem masksSpare_run_iff {k : Kernel} (hspare : k.MasksSpare) (es : List MaskEvent) :
    (∀ pre, pre <+: es → (run k pre).MasksSpare) ↔ ∀ pre e, pre ++ [e] <+: es → e.Allowed (run k pre) := by
  constructor
  · intro hall pre e hpre
    have hbefore : (run k pre).MasksSpare := hall pre ((prefix_append pre [e]).trans hpre)
    have hafter := hall (pre ++ [e]) hpre
    rw [run, foldl_append] at hafter
    exact (spare_iff hbefore e).mp hafter
  · intro hall pre
    -- the last event of a sequence is allowed in a state that was good
    induction pre using reverseRecOn with
    | nil => exact fun _ => hspare
    | append_singleton pre e ih =>
      intro hpre
      have hbefore := ih ((prefix_append pre [e]).trans hpre)
      rw [run, foldl_append]
      exact (spare_iff hbefore e).mpr (hall pre e hpre)

lemma masksSpare_boot : (boot freshMm).MasksSpare := fun _ =>
  (by decide : Spares 0)

/-- A process blocks the signal 5. -/
theorem masksSpare_run_iff_boot : (boot freshMm).MasksSpare ∧
      ((∀ pre, pre <+: [dispatch 0 (some 0x1000), call 0 (.sysSigmask 0 5)] →
          (run (boot freshMm) pre).MasksSpare) ↔
        ∀ pre e, pre ++ [e] <+: [dispatch 0 (some 0x1000), call 0 (.sysSigmask 0 5)] →
          e.Allowed (run (boot freshMm) pre)) :=
  ⟨masksSpare_boot, masksSpare_run_iff masksSpare_boot _⟩

/-- A process blocks STOP with `sys_sigmask`. -/
theorem not_masksSpare_sysSigmask_stop :
    ¬(run (boot freshMm) [dispatch 0 (some 0x1000), call 0 (.sysSigmask 0 19)]).MasksSpare := by
  intro hspare
  have hmask := hspare 0x1000
  revert hmask
  decide

end MaskEvent

end OnyxKernel
