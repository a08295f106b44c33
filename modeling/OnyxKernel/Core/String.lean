import OnyxKernel.Core.Errno
import OnyxKernel.Foundation.ByteMemory

/-!
# Copying and moving bytes

`memcpy` and `memmove` of `core/src/string.rs`.  The copy starts at the end from which no byte is
overwritten before it has been read.
-/

namespace OnyxKernel

open ByteMemory Function

/-- The loop of `memcpy` from index `i` on, with `k` bytes to go. -/
def memcpyLoop (dst src : ℕ) : ℕ → ℕ → Memory → Memory
  | 0, _, m => m
  | k + 1, i, m => memcpyLoop dst src k (i + 1) (update m (wadd dst i) (m (wadd src i)))

def memcpy (dst src n : ℕ) (m : Memory) : ℕ × Memory := (dst, memcpyLoop dst src n 0 m)

/-- The loop of `memmove` that goes down from index `i`. -/
def memmoveLoop (dst src : ℕ) : ℕ → Memory → Memory
  | 0, m => m
  | i + 1, m => memmoveLoop dst src i (update m (wadd dst i) (m (wadd src i)))

def memmove (dst src n : ℕ) (m : Memory) : ℕ × Memory :=
  if dst < src then memcpy dst src n m
  else if src < dst then (dst, memmoveLoop dst src n m)
  else (dst, m)

/-- The memory `m` with the bytes `i, …, j - 1` of the range at `src` moved to the range at `dst`. -/
def moved (m : Memory) (dst src i j : ℕ) : Memory := fun x =>
  if dst + i ≤ x ∧ x < dst + j then m (src + (x - dst)) else m x

variable {m : Memory} {dst src n i : ℕ}

lemma moved_self : moved m dst src i i = m := funext fun _ => if_neg (by omega)

section Loop

variable (hdst : dst + n ≤ wordSize) (hsrc : src + n ≤ wordSize)

include hdst hsrc in
lemma copy_byte (hi : i < n) : update m (wadd dst i) (m (wadd src i)) = moved m dst src i (i + 1) := by
  funext x
  rw [wadd, wadd, Nat.mod_eq_of_lt (by omega), Nat.mod_eq_of_lt (by omega), update_apply, moved]
  refine if_ctx_congr (by omega) (fun hx => ?_) fun _ => rfl
  rw [show x - dst = i by omega]

include hdst hsrc in
/-- Going up, the bytes still to be copied lie above those already written. -/
lemma memcpyLoop_eq (hle : dst ≤ src) (k i : ℕ) (m : Memory) (hn : i + k = n) :
    memcpyLoop dst src k i m = moved m dst src i n := by
  induction k generalizing i m with
  | zero =>
    obtain rfl : i = n := hn
    exact moved_self.symm
  | succ k ih =>
    rw [memcpyLoop, ih _ _ (by omega), copy_byte hdst hsrc (by omega)]
    funext x
    unfold moved
    split_ifs <;> first | rfl | omega

include hdst hsrc in
/-- Going down, they lie below. -/
lemma memmoveLoop_eq (hle : src ≤ dst) (i : ℕ) (m : Memory) (hi : i ≤ n) :
    memmoveLoop dst src i m = moved m dst src 0 i := by
  induction i generalizing m with
  | zero => exact moved_self.symm
  | succ i ih =>
    rw [memmoveLoop, ih _ (by omega), copy_byte hdst hsrc (by omega)]
    funext x
    unfold moved
    split_ifs <;> first | rfl | omega

include hdst hsrc in
lemma memmove_eq : memmove dst src n m = (dst, moved m dst src 0 n) := by
  unfold memmove memcpy
  split_ifs with hlt hgt
  · rw [memcpyLoop_eq hdst hsrc hlt.le n 0 m (zero_add n)]
  · rw [memmoveLoop_eq hdst hsrc hgt.le n m le_rfl]
  · obtain rfl : dst = src := by omega
    refine congrArg _ (funext fun x => ?_)
    unfold moved
    split_ifs with hx
    · rw [show dst + (x - dst) = x by omega]
    · rfl

include hdst hsrc in
/-- `memmove` moves the range for every overlap, changes no other byte and returns its destination. -/
theorem memmove_moves :
    (memmove dst src n m).1 = dst ∧ (∀ i < n, (memmove dst src n m).2 (dst + i) = m (src + i)) ∧
      ∀ x, x < dst ∨ dst + n ≤ x → (memmove dst src n m).2 x = m x := by
  rw [memmove_eq hdst hsrc]
  refine ⟨rfl, fun i hi => ?_, fun x hx => if_neg (by omega)⟩
  refine (if_pos (by omega)).trans ?_
  rw [Nat.add_sub_cancel_left]

end Loop

theorem memmove_moves_overlap : (memmove 1 0 2 UInt8.ofNat).2 2 = 1 :=
  (memmove_moves (by decide) (by decide)).2.1 1 (by decide)

end OnyxKernel
