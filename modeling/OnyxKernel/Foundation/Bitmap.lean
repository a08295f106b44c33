import OnyxKernel.Foundation.ByteMemory

/-!
# Bitmaps

A bitmap is a run of bytes in which bit `i` is bit `i % 8` of byte `i / 8`.  The first part is about
the bits of one byte, the second about the bitmap as a map from bit numbers to `Bool`: testing,
setting and clearing a bit change exactly that bit.  The last part is about abstract bit predicates
`f : ℕ → Bool`: `clearCount f n` counts the clear bits below `n`, and `IsLowestRun` is what a search
for consecutive clear bits has to return.
-/

namespace Bitmap

open ByteMemory Finset Nat

/-! ### Bits of a byte -/

/-- The byte whose only set bit is bit `k`. -/
def bitMask (k : ℕ) : UInt8 := 1 <<< UInt8.ofNat k

/-- Bit `k` of a byte, tested by masking. -/
def getBit (b : UInt8) (k : ℕ) : Bool := b &&& bitMask k != 0

lemma toNat_bitMask {k : ℕ} (hk : k < 8) : (bitMask k).toNat = 2 ^ k := by
  have hpow : 2 ^ k < 2 ^ 8 := Nat.pow_lt_pow_right (by decide) hk
  have hk' : k % 256 % 8 = k := by omega
  rw [bitMask, UInt8.toNat_shiftLeft]
  simp only [UInt8.toNat_ofNat', UInt8.toNat_one, shiftLeft_eq, one_mul]
  rw [hk', mod_eq_of_lt hpow]

lemma getBit_eq_testBit (b : UInt8) {k : ℕ} (hk : k < 8) : getBit b k = b.toNat.testBit k := by
  have hne : (b &&& bitMask k ≠ 0) ↔ (b.toNat.testBit k).toNat * 2 ^ k ≠ 0 := by
    rw [Ne, ← UInt8.toNat_inj, UInt8.toNat_and, toNat_bitMask hk, and_two_pow]
    rfl
  cases h : b.toNat.testBit k with
  | false => simpa [getBit, h] using hne
  | true => simpa [getBit, h] using hne

lemma eq_of_getBit_eq {b b' : UInt8} (h : ∀ k < 8, getBit b k = getBit b' k) : b = b' := by
  refine UInt8.toNat_inj.mp (eq_of_testBit_eq fun k => ?_)
  by_cases hk : k < 8
  · rw [← getBit_eq_testBit b hk, ← getBit_eq_testBit b' hk, h k hk]
  · have hpow : 2 ^ 8 ≤ 2 ^ k := Nat.pow_le_pow_right (by decide) (by omega)
    have hb := b.toNat_lt
    have hb' := b'.toNat_lt
    rw [testBit_lt_two_pow (by omega), testBit_lt_two_pow (by omega)]

lemma getBit_or_bitMask (b : UInt8) {j k : ℕ} (hj : j < 8) (hk : k < 8) :
    getBit (b ||| bitMask j) k = if k = j then true else getBit b k := by
  rw [getBit_eq_testBit _ hk, getBit_eq_testBit _ hk, UInt8.toNat_or, toNat_bitMask hj,
    testBit_or, testBit_two_pow]
  by_cases h : k = j
  · simp [h]
  · simp [h, Ne.symm h]

lemma getBit_and_not_bitMask (b : UInt8) {j k : ℕ} (hj : j < 8) (hk : k < 8) :
    getBit (b &&& ~~~bitMask j) k = if k = j then false else getBit b k := by
  have hnot : (~~~bitMask j).toNat.testBit k = !(2 ^ j).testBit k := by
    rw [UInt8.toNat_not, toNat_bitMask hj]
    have hpow : 2 ^ j < 2 ^ 8 := Nat.pow_lt_pow_right (by decide) hj
    have hsub : UInt8.size - 1 - 2 ^ j = 2 ^ 8 - (2 ^ j + 1) := by
      rw [UInt8.size]
      omega
    rw [hsub, testBit_two_pow_sub_succ hpow]
    simp [hk]
  rw [getBit_eq_testBit _ hk, getBit_eq_testBit _ hk, UInt8.toNat_and, testBit_and, hnot, testBit_two_pow]
  by_cases h : k = j
  · simp [h]
  · simp [h, Ne.symm h]

/-! ### Bitmaps in memory -/

/-- Bit `i` of the bitmap at address `base`. -/
def test (m : Memory) (base i : ℕ) : Bool := getBit (m (base + i / 8)) (i % 8)

/-- Set bit `i` of the bitmap at address `base`. -/
def set (m : Memory) (base i : ℕ) : Memory :=
  m.setByte (base + i / 8) (m (base + i / 8) ||| bitMask (i % 8))

/-- Clear bit `i` of the bitmap at address `base`. -/
def clear (m : Memory) (base i : ℕ) : Memory :=
  m.setByte (base + i / 8) (m (base + i / 8) &&& ~~~bitMask (i % 8))

variable {m m' : Memory} {base i j : ℕ} {x fuel k n : ℕ} {f g : ℕ → Bool}

private lemma eq_of_div_mod_eight (hd : j / 8 = i / 8) (hm : j % 8 = i % 8) : j = i := by
  rw [← div_add_mod j 8, ← div_add_mod i 8, hd, hm]

/-- A byte is written that differs from the old one in bit `i` only. -/
private theorem test_setByte {v : UInt8} {b : Bool} (m : Memory) (base : ℕ) {i : ℕ} (j : ℕ)
    (hv : ∀ k < 8, getBit v k = if k = i % 8 then b else getBit (m (base + i / 8)) k) :
    test (m.setByte (base + i / 8) v) base j = if j = i then b else test m base j := by
  unfold test
  by_cases hd : j / 8 = i / 8
  · rw [hd, Memory.setByte_apply_self, hv _ (mod_lt j (by decide))]
    by_cases h : j = i
    · simp [h]
    · have hm : j % 8 ≠ i % 8 := fun hm => h (eq_of_div_mod_eight hd hm)
      rw [if_neg hm, if_neg h]
  · have h : j ≠ i := fun h => hd (by rw [h])
    rw [Memory.setByte_apply_of_ne (by omega), if_neg h]

lemma test_set (m : Memory) (base i j : ℕ) :
    test (set m base i) base j = if j = i then true else test m base j :=
  test_setByte m base j fun _ hk => getBit_or_bitMask _ (mod_lt i (by decide)) hk

lemma test_clear (m : Memory) (base i j : ℕ) :
    test (clear m base i) base j = if j = i then false else test m base j :=
  test_setByte m base j fun _ hk => getBit_and_not_bitMask _ (mod_lt i (by decide)) hk

lemma test_congr (h : m (base + i / 8) = m' (base + i / 8)) : test m base i = test m' base i := by
  unfold test
  rw [h]

lemma set_apply_of_ne (hx : x ≠ base + i / 8) : set m base i x = m x :=
  Memory.setByte_apply_of_ne hx

/-! ### Searching for a clear bit -/

/-- The lowest clear bit of the `fuel` bytes from byte `i` on.  Full bytes are skipped whole. -/
def findClear (m : Memory) : (fuel i : ℕ) → Option ℕ
  | 0, _ => none
  | fuel + 1, i =>
    if m i = 0xFF then findClear m fuel (i + 1)
    else match (List.range 8).find? fun bit => !getBit (m i) bit with
      | some bit => some (i * 8 + bit)
      | none => findClear m fuel (i + 1)

lemma findClear_eq_some {i : ℕ} (h : findClear m fuel i = some k) :
    test m 0 k = false ∧ k < (i + fuel) * 8 := by
  induction fuel generalizing i with
  | zero => cases h
  | succ fuel ih =>
    have hnext : findClear m fuel (i + 1) = some k → test m 0 k = false ∧ k < (i + (fuel + 1)) * 8 :=
      fun h => ⟨(ih h).1, lt_of_lt_of_eq (ih h).2 (by ring)⟩
    rw [findClear] at h
    split at h
    · exact hnext h
    · split at h
      · rename_i bit hfind
        have hbit : bit < 8 := List.mem_range.mp (List.mem_of_find?_eq_some hfind)
        have hclear := List.find?_some hfind
        obtain rfl : i * 8 + bit = k := Option.some.inj h
        have hdiv : (i * 8 + bit) / 8 = i := by omega
        have hmod : (i * 8 + bit) % 8 = bit := by omega
        refine ⟨?_, by omega⟩
        rw [test, zero_add, hdiv, hmod]
        simpa using hclear
      · exact hnext h

lemma findClear_eq_none {i : ℕ} (h : findClear m fuel i = none) (hlo : i * 8 ≤ k)
    (hhi : k < (i + fuel) * 8) : test m 0 k = true := by
  induction fuel generalizing i with
  | zero => omega
  | succ fuel ih =>
    rw [findClear] at h
    by_cases hk : k / 8 = i
    · -- the bit lies in the byte the search looks at first
      have hmod : k % 8 < 8 := mod_lt k (by decide)
      rw [test, zero_add, hk]
      split at h
      · rename_i hfull
        have hbits : (0xFF : UInt8).toNat = 2 ^ 8 - 1 := by decide
        rw [hfull, getBit_eq_testBit _ hmod, hbits, testBit_two_pow_sub_one]
        exact decide_eq_true hmod
      · split at h
        · cases h
        · rename_i hfind
          have hset := List.find?_eq_none.mp hfind (k % 8) (List.mem_range.mpr hmod)
          simpa using hset
    · have hlo' : (i + 1) * 8 ≤ k := by omega
      have hhi' : k < (i + 1 + fuel) * 8 := lt_of_lt_of_eq hhi (by ring)
      split at h
      · exact ih h hlo' hhi'
      · split at h
        · cases h
        · exact ih h hlo' hhi'

/-! ### Counting clear bits -/

/-- The number of clear bits below `n`. -/
def clearCount (f : ℕ → Bool) (n : ℕ) : ℕ := ((range n).filter fun i => f i = false).card

lemma clearCount_congr (h : ∀ i < n, f i = g i) : clearCount f n = clearCount g n := by
  unfold clearCount
  congr 1
  refine filter_congr fun i hi => ?_
  rw [h i (mem_range.mp hi)]

lemma clearCount_set {i : ℕ} (hi : i < n) (hf : f i = false)
    (hg : ∀ j, g j = if j = i then true else f j) : clearCount g n + 1 = clearCount f n := by
  have hmem : i ∈ (range n).filter fun j => f j = false := by simp [hi, hf]
  have herase : ((range n).filter fun j => g j = false) =
      ((range n).filter fun j => f j = false).erase i := by
    ext j
    by_cases hj : j = i <;> simp [hg, hj]
  unfold clearCount
  rw [herase]
  exact card_erase_add_one hmem

lemma clearCount_clear {i : ℕ} (hi : i < n) (hf : f i = true)
    (hg : ∀ j, g j = if j = i then false else f j) : clearCount g n = clearCount f n + 1 := by
  refine (clearCount_set (f := g) (g := f) hi (by simp [hg]) fun j => ?_).symm
  by_cases hj : j = i
  · simp [hj, hf]
  · simp [hj, hg]

lemma clearCount_of_forall_clear (h : ∀ i < n, f i = false) : clearCount f n = n := by
  unfold clearCount
  rw [filter_true_of_mem fun i hi => h i (mem_range.mp hi), card_range]

lemma clearCount_eq_zero_iff : clearCount f n = 0 ↔ ∀ i < n, f i = true := by
  simp [clearCount, filter_eq_empty_iff]

lemma clearCount_le (f : ℕ → Bool) (n : ℕ) : clearCount f n ≤ n :=
  (card_filter_le _ _).trans (card_range n).le

/-! ### Runs of clear bits -/

/-- The `n` bits from `s` on are clear and lie below `total`. -/
def IsClearRun (f : ℕ → Bool) (total n s : ℕ) : Prop :=
  s + n ≤ total ∧ ∀ k < n, f (s + k) = false

/-- `s` starts a run of `n` clear bits and no smaller number does. -/
def IsLowestRun (f : ℕ → Bool) (total n s : ℕ) : Prop :=
  IsClearRun f total n s ∧ ∀ s' < s, ¬ IsClearRun f total n s'

lemma not_isClearRun_of_set {total s i : ℕ} (hi : f i = true) (hlo : s ≤ i)
    (hhi : i < s + n) : ¬ IsClearRun f total n s := by
  rintro ⟨-, hrun⟩
  have hclear := hrun (i - s) (by omega)
  rw [Nat.add_sub_cancel' hlo, hi] at hclear
  exact Bool.noConfusion hclear

end Bitmap
