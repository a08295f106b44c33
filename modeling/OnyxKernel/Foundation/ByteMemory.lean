import Mathlib

/-!
# Byte-addressed memory

A memory is a total map from addresses to bytes.  Machine words are read and written in
little-endian order: `leValue f w` is the number with the bytes `f 0, …, f (w - 1)` and `leByte v i`
is byte `i` of the number `v`.  On top of these sit the accesses of a program to its memory: `load`
and `store` of a word of `w` bytes, and `fill` for setting a range to one byte.

Every access comes with two kinds of lemma: what it reads or writes at its own range, and that it
leaves every other range alone.  Ranges are the half-open intervals `Set.Ico a b`, and "the memories
agree on a range" is `Set.EqOn`.
-/

namespace ByteMemory

open List Nat Set

/-- A memory: one byte at every address. -/
abbrev Memory := ℕ → UInt8

/-! ### Little-endian numbers -/

/-- The number with the little-endian bytes `f 0, …, f (w - 1)`. -/
def leValue (f : ℕ → UInt8) : ℕ → ℕ
  | 0 => 0
  | w + 1 => leValue f w + (f w).toNat * 256 ^ w

/-- Byte `i` of the little-endian representation of `v`. -/
def leByte (v i : ℕ) : UInt8 := UInt8.ofNat (v / 256 ^ i)

/-- The `w` bytes of the little-endian representation of `v`. -/
def leBytes (w v : ℕ) : List UInt8 := (range w).map (leByte v)

@[simp] lemma length_leBytes (w v : ℕ) : (leBytes w v).length = w := by simp [leBytes]

lemma leValue_lt (f : ℕ → UInt8) (w : ℕ) : leValue f w < 256 ^ w := by
  induction w with
  | zero => simp [leValue]
  | succ w ih =>
    have hb : (f w).toNat ≤ 255 := le_of_lt_succ (f w).toNat_lt
    have hmul : (f w).toNat * 256 ^ w ≤ 255 * 256 ^ w := mul_le_mul_right _ hb
    rw [leValue, pow_succ]
    omega

lemma leValue_congr {f g : ℕ → UInt8} {w : ℕ} (h : ∀ i < w, f i = g i) : leValue f w = leValue g w := by
  induction w with
  | zero => rfl
  | succ w ih =>
    rw [leValue, leValue, ih fun i hi => h i (lt_succ_of_lt hi), h w (lt_succ_self w)]

/-- Decoding the encoded bytes of `v` gives `v` back, reduced to `w` bytes. -/
theorem leValue_leByte (v w : ℕ) : leValue (leByte v) w = v % 256 ^ w := by
  induction w with
  | zero => simp [leValue, mod_one]
  | succ w ih =>
    have hbyte : (leByte v w).toNat = v / 256 ^ w % 256 := by simp [leByte]
    rw [leValue, ih, hbyte, pow_succ, mod_mul, mul_comm (256 ^ w)]

/-- Decoding the encoded bytes of a number that fits into `w` bytes gives it back. -/
theorem leValue_leByte_of_lt {v w : ℕ} (h : v < 256 ^ w) : leValue (leByte v) w = v := by
  rw [leValue_leByte, mod_eq_of_lt h]

lemma leByte_leValue (f : ℕ → UInt8) {w i : ℕ} (hi : i < w) : leByte (leValue f w) i = f i := by
  induction w with
  | zero => omega
  | succ w ih =>
    rw [leValue]
    rcases Nat.lt_succ_iff_lt_or_eq.mp hi with h | rfl
    · -- the top byte only adds a multiple of `256 ^ (i + 1)`
      have hpow : 256 ^ w = 256 ^ i * (256 * 256 ^ (w - i - 1)) := by
        rw [← pow_succ', ← pow_add]
        congr 1
        omega
      have htop : (f w).toNat * 256 ^ w = 256 ^ i * (256 * ((f w).toNat * 256 ^ (w - i - 1))) := by
        rw [hpow]
        ring
      rw [← ih h, leByte, leByte, htop, Nat.add_mul_div_left _ _ (Nat.pow_pos (by decide))]
      simp
    · rw [leByte, Nat.add_mul_div_right _ _ (Nat.pow_pos (by decide)),
        div_eq_of_lt (leValue_lt f i), zero_add, UInt8.ofNat_toNat]

/-! ### Words in memory -/

namespace Memory

/-- Read the `w`-byte little-endian word at address `a`. -/
def load (m : Memory) (a w : ℕ) : ℕ := leValue (fun i => m (a + i)) w

/-- Write `v` as a `w`-byte little-endian word at address `a`. -/
def store (m : Memory) (a w v : ℕ) : Memory :=
  fun x => if a ≤ x ∧ x < a + w then leByte v (x - a) else m x

/-- Write the byte `b` at address `a`. -/
def setByte (m : Memory) (a : ℕ) (b : UInt8) : Memory :=
  fun x => if x = a then b else m x

/-- Set the `n` bytes from address `a` on to `b`. -/
def fill (m : Memory) (a n : ℕ) (b : UInt8) : Memory :=
  fun x => if a ≤ x ∧ x < a + n then b else m x

/-- Write the bytes of a list from address `a` on. -/
def write (m : Memory) (a : ℕ) (bytes : List UInt8) : Memory :=
  fun x => if a ≤ x then (bytes[x - a]?).getD (m x) else m x

variable {m m' : Memory} {a w v n x : ℕ} {b : UInt8} {i : ℕ} {s : Set ℕ} {bytes bytes' : List UInt8}

lemma load_lt (m : Memory) (a w : ℕ) : m.load a w < 256 ^ w := leValue_lt _ w

lemma load_congr (h : EqOn m m' (Set.Ico a (a + w))) : m.load a w = m'.load a w :=
  leValue_congr fun i hi => h ⟨Nat.le_add_right a i, Nat.add_lt_add_left hi a⟩

lemma store_apply_add (hi : i < w) : m.store a w v (a + i) = leByte v i := by
  rw [store, if_pos ⟨Nat.le_add_right a i, Nat.add_lt_add_left hi a⟩, Nat.add_sub_cancel_left]

lemma store_apply_of_notMem (hx : x ∉ Set.Ico a (a + w)) : m.store a w v x = m x :=
  if_neg hx

lemma store_eqOn (h : Disjoint (Set.Ico a (a + w)) s) : EqOn (m.store a w v) m s :=
  fun _ hx => store_apply_of_notMem fun hmem => Set.disjoint_left.mp h hmem hx

lemma load_store_same (hv : v < 256 ^ w) : (m.store a w v).load a w = v := by
  rw [load, ← leValue_leByte_of_lt hv]
  exact leValue_congr fun i hi => by rw [leValue_leByte_of_lt hv, store_apply_add hi]

lemma disjoint_Ico_of_le {a n b k : ℕ} (h : a + n ≤ b ∨ b + k ≤ a) :
    Disjoint (Set.Ico a (a + n)) (Set.Ico b (b + k)) := by
  rw [Set.disjoint_left]
  rintro x ⟨hax, hxa⟩ ⟨hbx, hxb⟩
  omega

lemma load_store_of_disjoint {a' w' : ℕ} (h : a + w ≤ a' ∨ a' + w' ≤ a) :
    (m.store a w v).load a' w' = m.load a' w' :=
  load_congr (store_eqOn (disjoint_Ico_of_le h))

lemma fill_apply_of_mem (hx : x ∈ Set.Ico a (a + n)) : m.fill a n b x = b :=
  if_pos hx

lemma load_eq_zero (h : ∀ i < w, m (a + i) = 0) : m.load a w = 0 := by
  unfold load
  induction w with
  | zero => rfl
  | succ w ih => simp [leValue, ih fun i hi => h i (lt_succ_of_lt hi), h w (lt_succ_self w)]

lemma fill_apply_of_notMem (hx : x ∉ Set.Ico a (a + n)) : m.fill a n b x = m x :=
  if_neg hx

lemma fill_eqOn (h : Disjoint (Set.Ico a (a + n)) s) : EqOn (m.fill a n b) m s :=
  fun _ hx => fill_apply_of_notMem fun hmem => Set.disjoint_left.mp h hmem hx

lemma write_apply_add (hi : i < bytes.length) : m.write a bytes (a + i) = bytes[i] := by
  rw [write, if_pos (Nat.le_add_right a i), Nat.add_sub_cancel_left, getElem?_eq_getElem hi, Option.getD_some]

lemma write_apply_of_notMem (hx : x ∉ Set.Ico a (a + bytes.length)) : m.write a bytes x = m x := by
  unfold write
  split
  case isTrue h =>
    have hlen : bytes.length ≤ x - a := by
      by_contra hlt
      exact hx ⟨h, by omega⟩
    rw [getElem?_eq_none hlen, Option.getD_none]
  case isFalse => rfl

/-- The bytes from `a` on are `bytes`. -/
def Holds (m : Memory) (a : ℕ) (bytes : List UInt8) : Prop :=
  ∀ i (hi : i < bytes.length), m (a + i) = bytes[i]

lemma Holds.left (h : m.Holds a (bytes ++ bytes')) : m.Holds a bytes := by
  intro i hi
  rw [h i (by rw [length_append]; omega), getElem_append_left hi]

lemma Holds.right (h : m.Holds a (bytes ++ bytes')) : m.Holds (a + bytes.length) bytes' := by
  intro i hi
  have hlen : bytes.length + i < (bytes ++ bytes').length := by
    rw [length_append]
    omega
  rw [add_assoc, h _ hlen, getElem_append_right (le_add_right _ _)]
  congr 1
  omega

lemma Holds.load_eq (h : m.Holds a (leBytes w v)) : m.load a w = v % 256 ^ w := by
  rw [← leValue_leByte, load]
  refine leValue_congr fun i hi => ?_
  have hlen : i < (leBytes w v).length := by rwa [length_leBytes]
  rw [h i hlen]
  simp only [leBytes, getElem_map, getElem_range]

/-- A table of records of `w` bytes is read back record by record. -/
theorem Holds.map_range {α : Type*} {enc : α → List UInt8} {dec : ℕ → α} :
    ∀ (xs : List α) (a : ℕ), (∀ x ∈ xs, (enc x).length = w) →
      (∀ x ∈ xs, ∀ a, m.Holds a (enc x) → dec a = x) → m.Holds a (xs.flatMap enc) →
      (range xs.length).map (fun i => dec (a + i * w)) = xs
  | [], _, _, _, _ => rfl
  | x :: xs, a, hlen, hdec, h => by
    rw [flatMap_cons] at h
    have hfirst := hdec x mem_cons_self a h.left
    have hnext := h.right
    rw [hlen x mem_cons_self] at hnext
    have hrest := Holds.map_range xs (a + w) (fun y hy => hlen y (mem_cons_of_mem x hy))
      (fun y hy => hdec y (mem_cons_of_mem x hy)) hnext
    rw [length_cons, range_succ_eq_map, map_cons, map_map, zero_mul, add_zero, hfirst]
    refine congrArg (x :: ·) (Eq.trans (map_congr_left fun i _ => ?_) hrest)
    rw [Function.comp_apply, succ_mul, add_assoc, add_comm w]

@[simp] lemma setByte_apply_self : m.setByte a b a = b := if_pos rfl

lemma setByte_apply_of_ne (hx : x ≠ a) : m.setByte a b x = m x := if_neg hx

end Memory

end ByteMemory
