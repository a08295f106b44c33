import OnyxKernel.Foundation.ByteMemory

/-!
# Byte buffers of fixed size

A buffer of `n` bytes, as a program keeps one for a disk block or a page.  A buffer is read through
`Buffer.mem`, its bytes as a memory that is zero beyond the end of the buffer, so that the loads of
`ByteMemory` apply to buffers.  It is written by `store`, for a little-endian word, and `blit`, for
a copy of a range of bytes.

Offsets are natural numbers.  A lemma about a byte asks for its offset to be below `n`, and two
buffers with the same bytes below `n` are equal.
-/

namespace ByteMemory

open Nat Set Memory

/-- A buffer of `n` bytes. -/
abbrev Buffer (n : ℕ) := Fin n → UInt8

namespace Buffer

variable {n : ℕ}

/-- The bytes of a buffer, zero beyond its end. -/
def mem (b : Buffer n) : Memory := fun i => if h : i < n then b ⟨i, h⟩ else 0

/-- The buffer with the first `n` bytes of a memory. -/
def ofMem (n : ℕ) (m : Memory) : Buffer n := fun i => m i

/-- The buffer of zeros. -/
def zero (n : ℕ) : Buffer n := fun _ => 0

/-- The bytes from offset `off` on. -/
def view (b : Buffer n) (off : ℕ) : Memory := fun i => b.mem (off + i)

/-- Write the byte `v` at offset `off`. -/
def setByte (b : Buffer n) (off : ℕ) (v : UInt8) : Buffer n := ofMem n (b.mem.setByte off v)

/-- Write `v` as a `w`-byte little-endian word at offset `off`. -/
def store (b : Buffer n) (off w v : ℕ) : Buffer n := ofMem n (b.mem.store off w v)

/-- Copy the first `k` bytes of `src` to offset `off`. -/
def blit (b : Buffer n) (off k : ℕ) (src : Memory) : Buffer n :=
  ofMem n fun i => if off ≤ i ∧ i < off + k then src (i - off) else b.mem i

/-! ### Bytes -/

variable {a b : Buffer n} {m src : Memory} {i off k w v : ℕ}

lemma mem_ofMem (hi : i < n) : (ofMem n m).mem i = m i := dif_pos hi

@[simp] lemma mem_zero (n i : ℕ) : (zero n).mem i = 0 := by
  unfold mem
  split <;> rfl

lemma mem_of_le (hi : n ≤ i) : b.mem i = 0 := dif_neg (not_lt.mpr hi)

lemma ext_mem (h : ∀ i < n, a.mem i = b.mem i) : a = b := by
  funext i
  have hi := h i i.isLt
  simpa only [mem, i.isLt, dite_true] using hi

lemma mem_blit (hi : i < n) :
    (b.blit off k src).mem i = if off ≤ i ∧ i < off + k then src (i - off) else b.mem i :=
  mem_ofMem hi

lemma mem_blit_add (hi : off + i < n) (hk : i < k) : (b.blit off k src).mem (off + i) = src i := by
  rw [mem_blit hi, if_pos ⟨Nat.le_add_right off i, Nat.add_lt_add_left hk off⟩, Nat.add_sub_cancel_left]

lemma mem_blit_of_notMem (hi : i ∉ Ico off (off + k)) : (b.blit off k src).mem i = b.mem i := by
  by_cases hn : i < n
  · exact (mem_blit hn).trans (if_neg hi)
  · rw [mem_of_le (not_lt.mp hn), mem_of_le (not_lt.mp hn)]

lemma mem_store (hi : i < n) : (b.store off w v).mem i = b.mem.store off w v i := mem_ofMem hi

lemma mem_store_of_notMem (hi : i ∉ Ico off (off + w)) : (b.store off w v).mem i = b.mem i := by
  by_cases hn : i < n
  · rw [mem_store hn, store_apply_of_notMem hi]
  · rw [mem_of_le (not_lt.mp hn), mem_of_le (not_lt.mp hn)]

lemma mem_setByte_of_ne {c : UInt8} (hi : i ≠ off) : (b.setByte off c).mem i = b.mem i := by
  by_cases hn : i < n
  · exact (mem_ofMem hn).trans (setByte_apply_of_ne hi)
  · rw [mem_of_le (not_lt.mp hn), mem_of_le (not_lt.mp hn)]

/-! ### Words -/

lemma load_view (b : Buffer n) (off i w : ℕ) : (b.view off).load i w = b.mem.load (off + i) w := by
  unfold load view
  simp only [add_assoc]

lemma load_store_same (hn : off + w ≤ n) (hv : v < 256 ^ w) : (b.store off w v).mem.load off w = v := by
  have heq : EqOn (b.store off w v).mem (b.mem.store off w v) (Ico off (off + w)) :=
    fun i hi => mem_store (lt_of_lt_of_le hi.2 hn)
  rw [Memory.load_congr heq, Memory.load_store_same hv]

lemma load_store_of_disjoint {off' w' : ℕ} (h : off + w ≤ off' ∨ off' + w' ≤ off) :
    (b.store off w v).mem.load off' w' = b.mem.load off' w' := by
  refine load_congr fun i hi => mem_store_of_notMem fun hmem => ?_
  exact disjoint_left.mp (disjoint_Ico_of_le h) hmem hi

lemma load_blit_of_disjoint {off' w' : ℕ} (h : off + k ≤ off' ∨ off' + w' ≤ off) :
    (b.blit off k src).mem.load off' w' = b.mem.load off' w' := by
  refine load_congr fun i hi => mem_blit_of_notMem fun hmem => ?_
  exact disjoint_left.mp (disjoint_Ico_of_le h) hmem hi

end Buffer

end ByteMemory
