import Mathlib

/-!
# Run-length coding

A coded text is a sequence of tokens.  A token is a byte `0x80 ||| (n - 1)` and the byte that is repeated
`n` times, or a byte `n - 1` and `n` bytes that stand for themselves; both counts go up to 128.
-/

namespace RunLength

open Nat List

inductive Token where
  | run (count : ℕ) (b : UInt8)
  | literal (bytes : List UInt8)
  deriving DecidableEq, Repr

namespace Token

/-- The number of bytes that the token stands for. -/
def count : Token → ℕ
  | run n _ => n
  | literal bytes => bytes.length

/-- The bytes that the token stands for. -/
def expand : Token → List UInt8
  | run n b => replicate n b
  | literal bytes => bytes

/-- The bytes that the token is written as. -/
def encode : Token → List UInt8
  | run n b => [UInt8.ofNat (0x80 ||| (n - 1)), b]
  | literal bytes => UInt8.ofNat (bytes.length - 1) :: bytes

/-- The count fits into the first byte. -/
def Valid (t : Token) : Prop := 0 < t.count ∧ t.count ≤ 128

lemma length_expand (t : Token) : t.expand.length = t.count := by
  cases t with
  | run n b => exact length_replicate
  | literal bytes => rfl

lemma length_encode_pos (t : Token) : 0 < t.encode.length := by
  cases t with
  | run n b => exact succ_pos _
  | literal bytes => exact succ_pos _

lemma or_eq_add {n : ℕ} (h : 0 < n) (hn : n ≤ 128) : 0x80 ||| (n - 1) = 128 + (n - 1) := by
  have hlt : n - 1 < 2 ^ 7 := by omega
  exact (two_pow_add_eq_or_of_lt hlt 1).symm

lemma toNat_run {n : ℕ} (h : 0 < n) (hn : n ≤ 128) :
    (UInt8.ofNat (0x80 ||| (n - 1))).toNat = 128 + (n - 1) := by
  rw [or_eq_add h hn, UInt8.toNat_ofNat']
  omega

lemma toNat_literal {n : ℕ} (h : 0 < n) (hn : n ≤ 128) : (UInt8.ofNat (n - 1)).toNat = n - 1 := by
  rw [UInt8.toNat_ofNat']
  omega

lemma run_and_bit {n : ℕ} (h : 0 < n) (hn : n ≤ 128) : (128 + (n - 1)) &&& 0x80 ≠ 0 := by
  have hbit : (128 + (n - 1)).testBit 7 = true := by
    rw [testBit_eq_decide_div_mod_eq]
    exact decide_eq_true (by omega)
  have hand : (128 + (n - 1)) &&& 0x80 = 0x80 := by
    refine (and_two_pow (128 + (n - 1)) 7).trans ?_
    rw [hbit, Bool.toNat_true, one_mul]
    rfl
  rw [hand]
  decide

lemma run_and_count {n : ℕ} (h : 0 < n) (hn : n ≤ 128) : (128 + (n - 1)) &&& 0x7F = n - 1 := by
  refine (and_two_pow_sub_one_eq_mod _ 7).trans ?_
  omega

lemma literal_and_bit {n : ℕ} (h : 0 < n) (hn : n ≤ 128) : (n - 1) &&& 0x80 = 0 := by
  have hlt : n - 1 < 2 ^ 7 := by omega
  refine (and_two_pow (n - 1) 7).trans ?_
  rw [testBit_lt_two_pow hlt, Bool.toNat_false, zero_mul]

end Token

/-- The text that tokens stand for. -/
def expand (ts : List Token) : List UInt8 := ts.flatMap Token.expand

/-- The bytes that tokens are written as. -/
def encode (ts : List Token) : List UInt8 := ts.flatMap Token.encode

lemma expand_cons (t : Token) (ts : List Token) : expand (t :: ts) = t.expand ++ expand ts :=
  flatMap_cons

lemma encode_cons (t : Token) (ts : List Token) : encode (t :: ts) = t.encode ++ encode ts :=
  flatMap_cons

end RunLength
