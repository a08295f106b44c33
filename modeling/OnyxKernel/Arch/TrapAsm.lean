import OnyxKernel.Foundation.Riscv
import OnyxKernel.Proc.Process

/-!
# Entry and return of a trap

The code of `kernel/src/arch/asm/trap_asm.rs`, instruction by instruction.  `trap_entry` stores the
registers of the user into a `TrapFrame` below the kernel stack pointer of `sscratch`, and `trap_return`
loads them back.  Its last instructions use `t0` and `t1` for the values of control registers and of `sp`,
after both were loaded: the user gets back all registers but these two.
-/

namespace OnyxKernel

open Riscv Riscv.Machine List BitVec

/-- `trap_entry`, up to the call of `trap_handler`. -/
def trapEntry : List Instr :=
  [.csrrw .sp .sscratch .sp, .addi .sp .sp (-288), .sd .t0 32 .sp, .csrr .t0 .sscratch, .sd .t0 8 .sp,
    .sd .ra 0 .sp, .sd .gp 16 .sp, .sd .tp 24 .sp, .sd .t1 40 .sp, .sd .t2 48 .sp, .sd .s0 56 .sp,
    .sd .s1 64 .sp, .sd .a0 72 .sp, .sd .a1 80 .sp, .sd .a2 88 .sp, .sd .a3 96 .sp, .sd .a4 104 .sp,
    .sd .a5 112 .sp, .sd .a6 120 .sp, .sd .a7 128 .sp, .sd .s2 136 .sp, .sd .s3 144 .sp,
    .sd .s4 152 .sp, .sd .s5 160 .sp, .sd .s6 168 .sp, .sd .s7 176 .sp, .sd .s8 184 .sp,
    .sd .s9 192 .sp, .sd .s10 200 .sp, .sd .s11 208 .sp, .sd .t3 216 .sp, .sd .t4 224 .sp,
    .sd .t5 232 .sp, .sd .t6 240 .sp, .li .t0 (1#64 <<< 18), .csrs .sstatus .t0, .csrr .t0 .sepc,
    .sd .t0 248 .sp, .csrr .t0 .sstatus, .sd .t0 256 .sp, .csrr .t0 .satp, .sd .t0 280 .sp, .mv .a0 .sp]

/-- `trap_return`, up to `sret`. -/
def trapReturn : List Instr :=
  [.ld .ra 0 .sp, .ld .gp 16 .sp, .ld .tp 24 .sp, .ld .t0 32 .sp, .ld .t1 40 .sp, .ld .t2 48 .sp,
    .ld .s0 56 .sp, .ld .s1 64 .sp, .ld .a0 72 .sp, .ld .a1 80 .sp, .ld .a2 88 .sp, .ld .a3 96 .sp,
    .ld .a4 104 .sp, .ld .a5 112 .sp, .ld .a6 120 .sp, .ld .a7 128 .sp, .ld .s2 136 .sp,
    .ld .s3 144 .sp, .ld .s4 152 .sp, .ld .s5 160 .sp, .ld .s6 168 .sp, .ld .s7 176 .sp,
    .ld .s8 184 .sp, .ld .s9 192 .sp, .ld .s10 200 .sp, .ld .s11 208 .sp, .ld .t3 216 .sp,
    .ld .t4 224 .sp, .ld .t5 232 .sp, .ld .t6 240 .sp, .ld .t0 248 .sp, .csrw .sepc .t0,
    .ld .t0 256 .sp, .li .t1 (~~~(1#64 <<< 1)), .and .t0 .t0 .t1, .csrw .sstatus .t0, .addi .t1 .sp 288,
    .csrw .sscratch .t1, .ld .t0 8 .sp, .ld .t1 280 .sp, .csrw .satp .t1, .sfenceVma, .mv .sp .t0]

/-- `sched_switch`: return through the frame at the address in `a0`. -/
def schedSwitch : List Instr := .mv .sp .a0 :: trapReturn

/-- `drop_to_user`, up to `sret`. -/
def dropToUser : List Instr :=
  [.csrw .sscratch .sp, .li .t0 ((1#64 <<< 1) ||| (1#64 <<< 8)), .csrc .sstatus .t0,
    .li .t0 ((1#64 <<< 5) ||| (1#64 <<< 18)), .csrs .sstatus .t0, .li .t0 ((1#64 <<< 1) ||| (1#64 <<< 9)),
    .csrs .sie .t0, .li .t0 (8#64 <<< 60), .srli .t1 .a2 12, .or .t0 .t0 .t1, .csrw .satp .t0, .sfenceVma,
    .csrw .sepc .a0, .mv .sp .a1, .li .a0 0, .li .a1 0, .li .a2 0, .li .a3 0, .li .a4 0, .li .a5 0,
    .li .a6 0, .li .a7 0, .li .t0 0, .li .t1 0, .li .t2 0, .li .t3 0, .li .t4 0, .li .t5 0, .li .t6 0]

/-- The offset of a register in a `TrapFrame`. -/
def frameOffset : Reg → ℕ
  | .ra => 0 | .sp => 8 | .gp => 16 | .tp => 24 | .t0 => 32 | .t1 => 40 | .t2 => 48 | .s0 => 56 | .s1 => 64
  | .a0 => 72 | .a1 => 80 | .a2 => 88 | .a3 => 96 | .a4 => 104 | .a5 => 112 | .a6 => 120 | .a7 => 128
  | .s2 => 136 | .s3 => 144 | .s4 => 152 | .s5 => 160 | .s6 => 168 | .s7 => 176 | .s8 => 184 | .s9 => 192
  | .s10 => 200 | .s11 => 208 | .t3 => 216 | .t4 => 224 | .t5 => 232 | .t6 => 240

/-- The offsets of `sepc`, `sstatus` and `satp`. -/
def sepcOffset : ℕ := 248
def sstatusOffset : ℕ := 256
def satpOffset : ℕ := 280

/-- The general registers but for `sp` and the registers of `l`. -/
def slotsWithout (l : List Reg) : List (Reg × ℕ) :=
  ([.ra, .gp, .tp, .t0, .t1, .t2, .s0, .s1, .a0, .a1, .a2, .a3, .a4, .a5, .a6, .a7, .s2, .s3, .s4, .s5, .s6,
    .s7, .s8, .s9, .s10, .s11, .t3, .t4, .t5, .t6].filter (· ∉ l)).map fun r => (r, frameOffset r)

lemma mem_slotsWithout {l : List Reg} {r : Reg} (hsp : r ≠ .sp) (hr : r ∉ l) :
    (r, frameOffset r) ∈ slotsWithout l := by
  refine mem_map.mpr ⟨r, mem_filter.mpr ⟨?_, by simpa using hr⟩, rfl⟩
  revert hsp
  cases r <;> decide

lemma aligned_frameOffset (r : Reg) : Aligned (frameOffset r) := by
  cases r <;> decide

/-! ### The two halves -/

variable (m : Machine)

/-- The code of `trap_entry` before and after the plain stores of registers. -/
def entryHead : List Instr :=
  [.csrrw .sp .sscratch .sp, .addi .sp .sp (-288), .sd .t0 32 .sp, .csrr .t0 .sscratch, .sd .t0 8 .sp]

def entryTail : List Instr :=
  [.li .t0 (1#64 <<< 18), .csrs .sstatus .t0, .csrr .t0 .sepc, .sd .t0 248 .sp, .csrr .t0 .sstatus,
    .sd .t0 256 .sp, .csrr .t0 .satp, .sd .t0 280 .sp, .mv .a0 .sp]

lemma trapEntry_eq : trapEntry = entryHead ++ saves .sp (slotsWithout [.t0]) ++ entryTail := rfl

/-- The code of `trap_return` after the plain loads of registers. -/
def returnTail : List Instr :=
  [.ld .t0 248 .sp, .csrw .sepc .t0, .ld .t0 256 .sp, .li .t1 (~~~(1#64 <<< 1)), .and .t0 .t0 .t1,
    .csrw .sstatus .t0, .addi .t1 .sp 288, .csrw .sscratch .t1, .ld .t0 8 .sp, .ld .t1 280 .sp,
    .csrw .satp .t1, .sfenceVma, .mv .sp .t0]

lemma trapReturn_eq : trapReturn = loads .sp (slotsWithout []) ++ returnTail := rfl

/-- What the frame holds and which registers are left when `trap_handler` is called. -/
structure Entered (m m' : Machine) : Prop where
  saved : ∀ r, m'.slot .sp (frameOffset r) = m.regs r
  sepc : m'.slot .sp sepcOffset = m.csr .sepc
  sstatus : m'.slot .sp sstatusOffset = m.csr .sstatus ||| 1#64 <<< 18
  satp : m'.slot .sp satpOffset = m.csr .satp
  tp : m'.regs .tp = m.regs .tp

lemma entryHead_regs {r : Reg} (hsp : r ≠ .sp) (ht0 : r ≠ .t0) : (m.run entryHead).regs r = m.regs r := by
  simp [entryHead, hsp, ht0]

lemma entryHead_csr {c : Csr} (hc : c ≠ .sscratch) : (m.run entryHead).csr c = m.csr c := by
  simp [entryHead, hc]

lemma entryHead_slot :
    (m.run entryHead).slot .sp 8 = m.regs .sp ∧ (m.run entryHead).slot .sp 32 = m.regs .t0 := by
  constructor <;> simp (disch := decide) [entryHead, slot_exec_sd]

lemma entryTail_regs {r : Reg} (ha0 : r ≠ .a0) (ht0 : r ≠ .t0) : (m.run entryTail).regs r = m.regs r := by
  simp [entryTail, ha0, ht0]

lemma entryTail_csrSlots : (m.run entryTail).slot .sp 248 = m.csr .sepc ∧
      (m.run entryTail).slot .sp 256 = m.csr .sstatus ||| 1#64 <<< 18 ∧
      (m.run entryTail).slot .sp 280 = m.csr .satp := by
  refine ⟨?_, ?_, ?_⟩ <;> simp (disch := decide) [entryTail, slot_exec_sd]

lemma entryTail_slot (r : Reg) : (m.run entryTail).slot .sp (frameOffset r) = m.slot .sp (frameOffset r) := by
  have hne : frameOffset r ≠ 248 ∧ frameOffset r ≠ 256 ∧ frameOffset r ≠ 280 := by cases r <;> decide
  obtain ⟨h1, h2, h3⟩ := hne
  simp (disch := first | exact aligned_frameOffset r | decide) [entryTail, slot_exec_sd, h1, h2, h3]

lemma entered_trapEntry : Entered m (m.run trapEntry) := by
  obtain ⟨m1, hm1⟩ : ∃ m1, m1 = m.run entryHead := ⟨_, rfl⟩
  obtain ⟨m2, hm2⟩ : ∃ m2, m2 = m1.run (saves .sp (slotsWithout [.t0])) := ⟨_, rfl⟩
  have hrun : m.run trapEntry = m2.run entryTail := by
    rw [trapEntry_eq, run_append, run_append, ← hm1, ← hm2]
  have hsame : m2 = { m1 with mem := m2.mem } := by rw [hm2]; exact run_saves_eq _
  have hregs : m2.regs = m1.regs := by rw [hsame]
  have hcsr : m2.csr = m1.csr := by rw [hsame]
  obtain ⟨hslotSp, hslotT0⟩ := entryHead_slot m
  obtain ⟨hsepc, hsstatus, hsatp⟩ := entryTail_csrSlots m2
  have hsaves (r : Reg) : (∀ r', (r', frameOffset r) ∈ slotsWithout [.t0] →
      (m1.run (saves .sp (slotsWithout [.t0]))).slot .sp (frameOffset r) = m1.regs r') ∧
      (frameOffset r ∉ (slotsWithout [.t0]).map Prod.snd →
        (m1.run (saves .sp (slotsWithout [.t0]))).slot .sp (frameOffset r) = m1.slot .sp (frameOffset r)) :=
    slot_run_saves (by decide) (by decide) (aligned_frameOffset r)
  rw [hrun]
  refine ⟨fun r => ?_, ?_, ?_, ?_, ?_⟩
  · rw [entryTail_slot]
    by_cases hsp : r = .sp
    · subst hsp
      rw [hm2, (hsaves .sp).2 (by decide), hm1]
      exact hslotSp
    by_cases ht0 : r = .t0
    · subst ht0
      rw [hm2, (hsaves .t0).2 (by decide), hm1]
      exact hslotT0
    rw [hm2, (hsaves r).1 r (mem_slotsWithout hsp (by simpa using ht0)), hm1, entryHead_regs m hsp ht0]
  · exact hsepc.trans (by rw [hcsr, hm1, entryHead_csr m (by decide)])
  · exact hsstatus.trans (by rw [hcsr, hm1, entryHead_csr m (by decide)])
  · exact hsatp.trans (by rw [hcsr, hm1, entryHead_csr m (by decide)])
  · rw [entryTail_regs m2 (by decide) (by decide), hregs, hm1, entryHead_regs m (by decide) (by decide)]

/-- What the user gets from a frame: of `t0` and `t1` the last values `trap_return` put there. -/
structure Resumed (m m' : Machine) : Prop where
  regs : ∀ r, r ≠ .sp → r ≠ .t0 → r ≠ .t1 → m'.regs r = m.slot .sp (frameOffset r)
  sp : m'.regs .sp = m.slot .sp (frameOffset .sp)
  t0 : m'.regs .t0 = m.slot .sp (frameOffset .sp)
  t1 : m'.regs .t1 = m.slot .sp satpOffset
  sepc : m'.csr .sepc = m.slot .sp sepcOffset
  sstatus : m'.csr .sstatus = m.slot .sp sstatusOffset &&& ~~~(1#64 <<< 1)

lemma returnTail_regs {r : Reg} (hsp : r ≠ .sp) (ht0 : r ≠ .t0) (ht1 : r ≠ .t1) :
    (m.run returnTail).regs r = m.regs r := by
  simp -implicitDefEqProofs [returnTail, hsp, ht0, ht1]

lemma returnTail_scratch :
    (m.run returnTail).regs .sp = m.slot .sp 8 ∧ (m.run returnTail).regs .t0 = m.slot .sp 8 ∧
      (m.run returnTail).regs .t1 = m.slot .sp 280 := by
  simp -implicitDefEqProofs [returnTail]

lemma returnTail_csr : (m.run returnTail).csr .sepc = m.slot .sp 248 ∧
      (m.run returnTail).csr .sstatus = m.slot .sp 256 &&& ~~~(1#64 <<< 1) := by
  simp -implicitDefEqProofs [returnTail]

lemma resumed_trapReturn : Resumed m (m.run trapReturn) := by
  obtain ⟨m1, hm1⟩ : ∃ m1, m1 = m.run (loads .sp (slotsWithout [])) := ⟨_, rfl⟩
  have hrun : m.run trapReturn = m1.run returnTail := by rw [trapReturn_eq, run_append, ← hm1]
  have hloads (r : Reg) : (∀ off, (r, off) ∈ slotsWithout [] → m1.regs r = m.slot .sp off) ∧
      (r ∉ (slotsWithout []).map Prod.fst → m1.regs r = m.regs r) := by
    rw [hm1]
    exact regs_run_loads (by decide) (by decide) r
  have hmem : m1.mem = m.mem := by
    rw [hm1, run_loads_eq]
  have hslot (off : ℕ) : m1.slot .sp off = m.slot .sp off := slot_congr ((hloads .sp).2 (by decide)) hmem
  obtain ⟨hsp, ht0, ht1⟩ := returnTail_scratch m1
  obtain ⟨hsepc, hsstatus⟩ := returnTail_csr m1
  rw [hslot] at hsp ht0 ht1 hsepc hsstatus
  rw [hrun]
  refine ⟨fun r hsp ht0 ht1 => ?_, hsp, ht0, ht1, hsepc, hsstatus⟩
  rw [returnTail_regs m1 hsp ht0 ht1]
  exact (hloads r).1 _ (mem_slotsWithout hsp not_mem_nil)

/-! ### A trap and its return -/

/-- The handler leaves the frame and the stack pointer as they were. -/
structure FrameKept (m m' : Machine) : Prop where
  sp : m'.regs .sp = m.regs .sp
  slot : ∀ i < 36, m'.slot .sp (8 * i) = m.slot .sp (8 * i)

/-- The user goes on as if there had been no trap, and sees no value of the kernel. -/
structure Transparent (m m' : Machine) : Prop where
  mode : m'.mode = .user
  pc : m'.pc = m.pc
  regs : ∀ r, m'.regs r = m.regs r
  satp : ∀ r, m'.regs r = m.csr .satp → m.regs r = m.csr .satp

section

variable {handled : Machine} (hslot : ∀ i < 36, handled.slot .sp (8 * i) = (m.trap.run trapEntry).slot .sp (8 * i))
include hslot

lemma resumed_of_slots :
    (∀ r, r ≠ .t0 → r ≠ .t1 → (handled.run trapReturn).sret.regs r = m.regs r) ∧
      (handled.run trapReturn).sret.regs .t0 = m.regs .sp ∧
      (handled.run trapReturn).sret.regs .t1 = m.csr .satp ∧ (handled.run trapReturn).sret.pc = m.pc := by
  have hentered := entered_trapEntry m.trap
  have hresumed := resumed_trapReturn handled
  have hregs (r : Reg) : handled.slot .sp (frameOffset r) = m.regs r := by
    have hdiv : frameOffset r = 8 * (frameOffset r / 8) ∧ frameOffset r / 8 < 36 := by cases r <;> decide
    rw [hdiv.1, hslot _ hdiv.2, ← hdiv.1, hentered.saved, regs_trap]
  have hsatp : handled.slot .sp satpOffset = m.csr .satp := by
    rw [← csr_trap (by decide) (by decide), ← hentered.satp]
    exact hslot 35 (by decide)
  have hsepc : handled.slot .sp sepcOffset = m.pc := by
    rw [← csr_trap_sepc, ← hentered.sepc]
    exact hslot 31 (by decide)
  rw [regs_sret, pc_sret, hresumed.t0, hresumed.t1, hresumed.sepc]
  refine ⟨fun r ht0 ht1 => ?_, hregs .sp, hsatp, hsepc⟩
  by_cases hsp : r = .sp
  · rw [hsp, hresumed.sp, hregs]
  · rw [hresumed.regs r hsp ht0 ht1, hregs]

lemma mode_of_slots (hmode : m.mode = .user) : (handled.run trapReturn).sret.mode = .user := by
  have hsstatus : handled.slot .sp sstatusOffset = m.trap.csr .sstatus ||| 1#64 <<< 18 := by
    rw [← (entered_trapEntry m.trap).sstatus]
    exact hslot 32 (by decide)
  apply mode_sret
  rw [(resumed_trapReturn handled).sstatus, hsstatus, getLsbD_and, getLsbD_or, csr_trap_spp hmode]
  decide

end

lemma resumed_of_frameKept {handled : Machine} (hkept : FrameKept (m.trap.run trapEntry) handled) :
    (∀ r, r ≠ .t0 → r ≠ .t1 → (handled.run trapReturn).sret.regs r = m.regs r) ∧
      (handled.run trapReturn).sret.regs .t0 = m.regs .sp ∧
      (handled.run trapReturn).sret.regs .t1 = m.csr .satp ∧ (handled.run trapReturn).sret.pc = m.pc :=
  resumed_of_slots m hkept.slot

lemma mode_return {handled : Machine} (hmode : m.mode = .user)
    (hkept : FrameKept (m.trap.run trapEntry) handled) : (handled.run trapReturn).sret.mode = .user :=
  mode_of_slots m hkept.slot hmode

lemma FrameKept.refl : FrameKept m m := ⟨rfl, fun _ _ => rfl⟩

/-- A user with all registers zero under a translation. -/
def zeroUser (satp : Word) : Machine where
  regs _ := 0
  csr
    | .satp => satp
    | _ => 0
  mem _ := 0
  pc := 0x10000
  mode := .user

end OnyxKernel
