import OnyxKernel.Foundation.ByteMemory

/-!
# A RISC-V hart

The general registers, the control registers of supervisor mode, and straight-line code on them.  A trap
and `sret` change between the modes; between the two, code runs instruction by instruction.

Code that saves registers to a frame, or loads them from one, is a list of stores or loads at different
offsets from a base register.  `slot_run_saves` and `regs_run_loads` say what a whole list of them does.
-/

namespace Riscv

open ByteMemory List Function Prod

/-- A register value. -/
abbrev Word := BitVec 64

/-- The general registers other than `zero`. -/
inductive Reg where
  | ra | sp | gp | tp | t0 | t1 | t2 | s0 | s1 | a0 | a1 | a2 | a3 | a4 | a5 | a6 | a7
  | s2 | s3 | s4 | s5 | s6 | s7 | s8 | s9 | s10 | s11 | t3 | t4 | t5 | t6
  deriving DecidableEq, Repr

/-- Control registers. -/
inductive Csr where
  | sstatus | sie | sscratch | sepc | satp
  deriving DecidableEq, Repr

inductive Mode where
  | user | supervisor
  deriving DecidableEq, Repr

/-- A hart with its memory. -/
structure Machine where
  regs : Reg → Word
  csr : Csr → Word
  mem : Memory
  pc : Word
  mode : Mode

/-- The instructions of straight-line code. -/
inductive Instr where
  | addi (rd rs : Reg) (imm : ℤ)
  | li (rd : Reg) (imm : Word)
  | mv (rd rs : Reg)
  | and (rd rs rs' : Reg)
  | or (rd rs rs' : Reg)
  | srli (rd rs : Reg) (shamt : ℕ)
  | ld (rd : Reg) (off : ℕ) (base : Reg)
  | sd (rs : Reg) (off : ℕ) (base : Reg)
  | csrrw (rd : Reg) (csr : Csr) (rs : Reg)
  | csrr (rd : Reg) (csr : Csr)
  | csrw (csr : Csr) (rs : Reg)
  | csrs (csr : Csr) (rs : Reg)
  | csrc (csr : Csr) (rs : Reg)
  | sfenceVma
  deriving DecidableEq, Repr

namespace Machine

variable (m : Machine)

def setReg (r : Reg) (v : Word) : Machine := { m with regs := update m.regs r v }

def setCsr (c : Csr) (v : Word) : Machine := { m with csr := update m.csr c v }

/-- The address of an access at an offset from a base register. -/
def addr (base : Reg) (off : ℕ) : ℕ := (m.regs base + BitVec.ofNat 64 off).toNat

/-- The double word at an offset from a base register. -/
def slot (base : Reg) (off : ℕ) : Word := BitVec.ofNat 64 (m.mem.load (m.addr base off) 8)

/-- The effect of an instruction, but for the step to the next one. -/
def exec : Instr → Machine
  | .addi rd rs imm => m.setReg rd (m.regs rs + BitVec.ofInt 64 imm)
  | .li rd imm => m.setReg rd imm
  | .mv rd rs => m.setReg rd (m.regs rs)
  | .and rd rs rs' => m.setReg rd (m.regs rs &&& m.regs rs')
  | .or rd rs rs' => m.setReg rd (m.regs rs ||| m.regs rs')
  | .srli rd rs shamt => m.setReg rd (m.regs rs >>> shamt)
  | .ld rd off base => m.setReg rd (m.slot base off)
  | .sd rs off base => { m with mem := m.mem.store (m.addr base off) 8 (m.regs rs).toNat }
  | .csrrw rd c rs => (m.setReg rd (m.csr c)).setCsr c (m.regs rs)
  | .csrr rd c => m.setReg rd (m.csr c)
  | .csrw c rs => m.setCsr c (m.regs rs)
  | .csrs c rs => m.setCsr c (m.csr c ||| m.regs rs)
  | .csrc c rs => m.setCsr c (m.csr c &&& ~~~m.regs rs)
  | .sfenceVma => m

/-- Run straight-line code. -/
def run (code : List Instr) : Machine := code.foldl exec m

/-! ### Traps -/

/-- The bits `SIE`, `SPIE` and `SPP` of `sstatus`. -/
def sie : Word := 1#64 <<< 1
def spie : Word := 1#64 <<< 5
def spp : Word := 1#64 <<< 8

/-- A trap: `sepc` gets the program counter, and `sstatus` the old mode and interrupt enable. -/
def trap : Machine :=
  let s := m.csr .sstatus
  let kept := s &&& ~~~(sie ||| spie ||| spp)
  let was := if s &&& sie = 0 then 0 else spie
  let prev := if m.mode = .user then 0 else spp
  { (m.setCsr .sepc m.pc).setCsr .sstatus (kept ||| was ||| prev) with mode := .supervisor }

def sret : Machine :=
  let s := m.csr .sstatus
  let kept := s &&& ~~~(sie ||| spp)
  let enabled := if s &&& spie = 0 then 0 else sie
  { m.setCsr .sstatus (kept ||| spie ||| enabled) with
    pc := m.csr .sepc
    mode := if s &&& spp = 0 then .user else .supervisor }

variable {m}

@[simp] lemma regs_setReg (r r' : Reg) (v : Word) :
    (m.setReg r v).regs r' = if r' = r then v else m.regs r' := update_apply ..

@[simp] lemma csr_setReg (r : Reg) (v : Word) : (m.setReg r v).csr = m.csr := rfl

@[simp] lemma mem_setReg (r : Reg) (v : Word) : (m.setReg r v).mem = m.mem := rfl

@[simp] lemma regs_setCsr (c : Csr) (v : Word) : (m.setCsr c v).regs = m.regs := rfl

@[simp] lemma csr_setCsr (c c' : Csr) (v : Word) :
    (m.setCsr c v).csr c' = if c' = c then v else m.csr c' := update_apply ..

@[simp] lemma mem_setCsr (c : Csr) (v : Word) : (m.setCsr c v).mem = m.mem := rfl

@[simp] lemma run_nil : m.run [] = m := rfl

@[simp] lemma run_cons (i : Instr) (code : List Instr) : m.run (i :: code) = (m.exec i).run code := rfl

lemma run_append (code code' : List Instr) : m.run (code ++ code') = (m.run code).run code' :=
  foldl_append

/-! ### Change of mode -/

@[simp] lemma regs_trap : m.trap.regs = m.regs := rfl

lemma csr_trap_sepc : m.trap.csr .sepc = m.pc := by
  simp [trap]

lemma csr_trap {c : Csr} (hsepc : c ≠ .sepc) (hsstatus : c ≠ .sstatus) : m.trap.csr c = m.csr c := by
  simp [trap, hsepc, hsstatus]

lemma csr_trap_spp (hmode : m.mode = .user) : (m.trap.csr .sstatus).getLsbD 8 = false := by
  simp only [trap, hmode]
  split <;> simp [spp, spie, sie]

@[simp] lemma regs_sret : m.sret.regs = m.regs := rfl

@[simp] lemma pc_sret : m.sret.pc = m.csr .sepc := rfl

lemma mode_sret (hspp : (m.csr .sstatus).getLsbD 8 = false) : m.sret.mode = .user := by
  have hzero : m.csr .sstatus &&& spp = 0 := by
    apply BitVec.eq_of_getLsbD_eq
    intro i hi
    rw [BitVec.getLsbD_and]
    by_cases heq : i = 8
    · rw [heq, hspp, Bool.false_and]
      rfl
    · have hbit : spp.getLsbD i = false := by
        revert i
        decide
      simp [hbit]
  simp only [sret, hzero, if_true]

section Exec

variable (rd rs rs' base : Reg) (c : Csr) (off : ℕ) (v : Word)

@[simp] lemma exec_addi (imm : ℤ) : m.exec (.addi rd rs imm) = m.setReg rd (m.regs rs + BitVec.ofInt 64 imm) := rfl

@[simp] lemma exec_li : m.exec (.li rd v) = m.setReg rd v := rfl

@[simp] lemma exec_mv : m.exec (.mv rd rs) = m.setReg rd (m.regs rs) := rfl

@[simp] lemma exec_and : m.exec (.and rd rs rs') = m.setReg rd (m.regs rs &&& m.regs rs') := rfl

@[simp] lemma exec_ld : m.exec (.ld rd off base) = m.setReg rd (m.slot base off) := rfl

@[simp] lemma exec_csrrw : m.exec (.csrrw rd c rs) = (m.setReg rd (m.csr c)).setCsr c (m.regs rs) := rfl

@[simp] lemma exec_csrr : m.exec (.csrr rd c) = m.setReg rd (m.csr c) := rfl

@[simp] lemma exec_csrw : m.exec (.csrw c rs) = m.setCsr c (m.regs rs) := rfl

@[simp] lemma exec_csrs : m.exec (.csrs c rs) = m.setCsr c (m.csr c ||| m.regs rs) := rfl

@[simp] lemma exec_sfenceVma : m.exec .sfenceVma = m := rfl

@[simp] lemma regs_exec_sd : (m.exec (.sd rs off base)).regs = m.regs := rfl

@[simp] lemma csr_exec_sd : (m.exec (.sd rs off base)).csr = m.csr := rfl

end Exec

/-! ### Slots -/

variable {base : Reg} {off off' : ℕ}

/-- An offset as frames have them. -/
def Aligned (off : ℕ) : Prop := off % 8 = 0 ∧ off < 2 ^ 32

instance (off : ℕ) : Decidable (Aligned off) := inferInstanceAs (Decidable (_ ∧ _))

lemma addr_apart (hoff : Aligned off) (hoff' : Aligned off') (hne : off ≠ off') :
    m.addr base off + 8 ≤ m.addr base off' ∨ m.addr base off' + 8 ≤ m.addr base off := by
  obtain ⟨hmod, hlt⟩ := hoff
  obtain ⟨hmod', hlt'⟩ := hoff'
  unfold addr
  rw [BitVec.toNat_add, BitVec.toNat_add, BitVec.toNat_ofNat, BitVec.toNat_ofNat]
  omega

lemma slot_exec_sd (rs : Reg) (hoff : Aligned off) (hoff' : Aligned off') :
    (m.exec (.sd rs off base)).slot base off' = if off' = off then m.regs rs else m.slot base off' := by
  have haddr : (m.exec (.sd rs off base)).addr base off' = m.addr base off' := rfl
  have hmem : (m.exec (.sd rs off base)).mem = m.mem.store (m.addr base off) 8 (m.regs rs).toNat := rfl
  unfold slot
  rw [haddr, hmem]
  split
  · rename_i heq
    rw [heq, Memory.load_store_same (m.regs rs).isLt]
    simp
  · rename_i hne
    rw [Memory.load_store_of_disjoint (addr_apart hoff hoff' fun heq => hne heq.symm)]

lemma slot_congr {m' : Machine} (hbase : m'.regs base = m.regs base) (hmem : m'.mem = m.mem) :
    m'.slot base off = m.slot base off := by
  unfold slot addr
  rw [hbase, hmem]

@[simp] lemma slot_setReg {r : Reg} (v : Word) (hne : base ≠ r) :
    (m.setReg r v).slot base off = m.slot base off :=
  slot_congr (by rw [regs_setReg, if_neg hne]) rfl

@[simp] lemma slot_setCsr (c : Csr) (v : Word) : (m.setCsr c v).slot base off = m.slot base off := rfl

/-- Store registers at offsets from a base register. -/
def saves (base : Reg) (l : List (Reg × ℕ)) : List Instr := l.map fun x => .sd x.1 x.2 base

/-- Load registers from offsets from a base register. -/
def loads (base : Reg) (l : List (Reg × ℕ)) : List Instr := l.map fun x => .ld x.1 x.2 base

lemma run_saves_eq (l : List (Reg × ℕ)) : m.run (saves base l) = { m with mem := (m.run (saves base l)).mem } := by
  induction l generalizing m with
  | nil => rfl
  | cons x l ih =>
    rw [saves, map_cons, run_cons]
    rw [saves] at ih
    rw [ih]
    rfl

/-- After a list of stores at different offsets, every register is in its slot, and the other slots are
as before. -/
theorem slot_run_saves {l : List (Reg × ℕ)} (haligned : ∀ x ∈ l, Aligned x.2) (hnodup : (l.map snd).Nodup)
    (hoff : Aligned off) :
    (∀ r, (r, off) ∈ l → (m.run (saves base l)).slot base off = m.regs r) ∧
      (off ∉ l.map snd → (m.run (saves base l)).slot base off = m.slot base off) := by
  induction l generalizing m with
  | nil => simp [saves]
  | cons x l ih =>
    obtain ⟨r0, off0⟩ := x
    have hoff0 : Aligned off0 := haligned _ mem_cons_self
    rw [map_cons, nodup_cons] at hnodup
    have hrun : m.run (saves base ((r0, off0) :: l)) = (m.exec (.sd r0 off0 base)).run (saves base l) := rfl
    obtain ⟨hin, hout⟩ := @ih (m.exec (.sd r0 off0 base)) (fun x hx => haligned x (mem_cons_of_mem _ hx))
      hnodup.2
    rw [hrun]
    constructor
    · intro r hr
      rcases mem_cons.mp hr with heq | hmem
      · -- the store at the head, and no later one goes to its slot
        injection heq with hreg heq
        subst hreg heq
        rw [hout hnodup.1, slot_exec_sd _ hoff0 hoff, if_pos rfl]
      · exact hin r hmem
    · intro hnot
      rw [map_cons, mem_cons, not_or] at hnot
      rw [hout hnot.2, slot_exec_sd _ hoff0 hoff, if_neg hnot.1]

lemma run_loads_eq (l : List (Reg × ℕ)) :
    m.run (loads base l) = { m with regs := (m.run (loads base l)).regs } := by
  induction l generalizing m with
  | nil => rfl
  | cons x l ih =>
    rw [loads, map_cons, run_cons]
    rw [loads] at ih
    rw [ih]
    rfl

/-- After a list of loads of different registers, every register has the value of its slot, and the other
registers are as before. -/
theorem regs_run_loads {l : List (Reg × ℕ)} (hnodup : (l.map fst).Nodup) (hbase : base ∉ l.map fst)
    (r : Reg) :
    (∀ off, (r, off) ∈ l → (m.run (loads base l)).regs r = m.slot base off) ∧
      (r ∉ l.map fst → (m.run (loads base l)).regs r = m.regs r) := by
  induction l generalizing m with
  | nil => simp [loads]
  | cons x l ih =>
    obtain ⟨r0, off0⟩ := x
    rw [map_cons, nodup_cons] at hnodup
    rw [map_cons, mem_cons, not_or] at hbase
    have hrun : m.run (loads base ((r0, off0) :: l)) = (m.setReg r0 (m.slot base off0)).run (loads base l) := rfl
    obtain ⟨hin, hout⟩ := @ih (m.setReg r0 (m.slot base off0)) hnodup.2 hbase.2
    rw [hrun]
    constructor
    · intro off hr
      rcases mem_cons.mp hr with heq | hmem
      · injection heq with hreg heq
        subst hreg heq
        rw [hout hnodup.1, regs_setReg, if_pos rfl]
      · rw [hin off hmem, slot_setReg _ hbase.1]
    · intro hnot
      rw [map_cons, mem_cons, not_or] at hnot
      rw [hout hnot.2, regs_setReg, if_neg hnot.1]

end Machine

end Riscv
