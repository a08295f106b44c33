import OnyxKernel.Arch.TrapAsm
import OnyxKernel.Onx.Confinement
import OnyxKernel.Proc.Events

/-!
# The hart of a trap

`hart_id` reads `tp`, where the boot code has put the number of the hart.  `trap_entry` saves this register
with the others and does not set it up again, and `trap_return` loads it from the frame: from the first
return to user mode on, `tp` holds what the user left there.  The tables that the kernel keeps for every
hart are then indexed by a value of the user.
-/

namespace OnyxKernel

open Riscv Riscv.Machine

variable (m : Machine)

def hartId : ℕ := (m.regs .tp).toNat

section Tables

variable {α : Type}

/-- An entry of a table with one entry for every hart.  An index out of bounds panics. -/
def perHart (table : Hart → α) (id : ℕ) : Option α := if h : id < maxHarts then some (table ⟨id, h⟩) else none

@[simp] lemma perHart_val (table : Hart → α) (h : Hart) : perHart table h = some (table h) := dif_pos h.isLt

end Tables

/-- `current_opt`: the process of the hart. -/
def currentOpt (k : Kernel) : Option (Option ℕ) := perHart k.hartCurrent (hartId m)

def currentRing (k : Kernel) : Option UInt8 :=
  (currentOpt m k).map fun
    | none => procRingKernel
    | some p => (k.proc p).ring

/-- The kernel code works on the tables of hart `h`. -/
structure WorksOn (h : Hart) (k : Kernel) : Prop where
  hart : hartId m = h
  current : currentOpt m k = some (k.hartCurrent h)
  ring : currentRing m k = some (k.currentRing h)
  queue : perHart k.runQueue (hartId m) = some (k.runQueue h)
  resched : perHart k.needResched (hartId m) = some (k.needResched h)

lemma WorksOn.of_hartId {h : Hart} {m : Machine} (hhart : hartId m = h) (k : Kernel) : WorksOn m h k := by
  have hcurrent : currentOpt m k = some (k.hartCurrent h) := by rw [currentOpt, hhart, perHart_val]
  constructor
  · exact hhart
  · exact hcurrent
  · rw [currentRing, hcurrent]
    rfl
  · rw [hhart, perHart_val]
  · rw [hhart, perHart_val]

/-- Compiled code of the kernel: it leaves `tp` alone. -/
def KernelCode (m m' : Machine) : Prop := m'.regs .tp = m.regs .tp

/-- At every point of the handling of a trap, the kernel finds the hart number in `tp` that the user left
there. -/
theorem hartId_of_kernelCode {m' : Machine} (hcode : KernelCode (m.trap.run trapEntry) m') :
    hartId m' = (m.regs .tp).toNat := by
  rw [hartId, hcode, (entered_trapEntry m.trap).tp, regs_trap]

/-- The code that handles a trap works on the tables of its hart exactly when the user left the number of
the hart in `tp`. -/
theorem worksOn_iff (h : Hart) (k : Kernel) :
    (∀ m', KernelCode (m.trap.run trapEntry) m' → WorksOn m' h k) ↔ (m.regs .tp).toNat = h := by
  constructor
  · intro hworks
    exact (hworks _ rfl).hart
  · intro hhart m' hcode
    exact WorksOn.of_hartId ((hartId_of_kernelCode m hcode).trans hhart) k

/-! ### A new process on another hart -/

/-- The fields of a frame in memory order. -/
def TrapFrame.words (tf : TrapFrame) : List ℕ :=
  [tf.ra, tf.sp, tf.gp, tf.tp, tf.t0, tf.t1, tf.t2, tf.s0, tf.s1, tf.a0, tf.a1, tf.a2, tf.a3, tf.a4, tf.a5,
    tf.a6, tf.a7, tf.s2, tf.s3, tf.s4, tf.s5, tf.s6, tf.s7, tf.s8, tf.s9, tf.s10, tf.s11, tf.t3, tf.t4, tf.t5,
    tf.t6, tf.sepc, tf.sstatus, tf.scause, tf.stval, tf.satp]

/-- The frame that `a0` points to, as `sched_switch` gets it. -/
def FrameAt (tf : TrapFrame) : Prop := ∀ i < 36, m.slot .a0 (8 * i) = BitVec.ofNat 64 (tf.words.getD i 0)

instance (tf : TrapFrame) : Decidable (FrameAt m tf) := inferInstanceAs (Decidable (∀ i < 36, _ = _))

/-- The frame of a new process. -/
def newFrame : TrapFrame := (Kernel.newProc 0x10000 0x20000 0x3000 2 1 0 procRingUser 0 0).tf

/-- Hart 1 about to dispatch the new process. -/
def hartOne : Machine where
  regs
    | .tp => 1
    | .a0 => 0x1000
    | _ => 0
  csr _ := 0
  mem := newFrame.words.zipIdx.foldl (fun mem w => mem.store (0x1000 + 8 * w.2) 8 w.1) fun _ => 0
  pc := 0
  mode := .supervisor

lemma frameAt_hartOne : FrameAt hartOne newFrame := by
  decide +kernel

/-- The frame of a new process has 0 in `tp`: dispatched on hart 1, its first trap is handled with the
tables of hart 0. -/
theorem not_worksOn_hartOne : hartId hartOne = 1 ∧ FrameAt hartOne newFrame ∧
      ¬∀ m', KernelCode ((hartOne.run schedSwitch).sret.trap.run trapEntry) m' →
        WorksOn m' 1 (Kernel.boot Onx.freshMm) := by
  refine ⟨rfl, frameAt_hartOne, fun hworks => ?_⟩
  have hhart := (hworks _ rfl).hart
  revert hhart
  decide

end OnyxKernel
