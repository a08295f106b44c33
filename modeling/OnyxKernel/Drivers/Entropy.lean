import Mathlib

/-!
# Random numbers

`kernel/src/drivers/entropy.rs`: the generator xoshiro256**, seeded from the hardware source, and the
bounded numbers that `below` takes from it by multiplication and rejection.

The update of the state is linear over exclusive or and loses nothing, so a state that is not zero
never becomes zero.  A draw is rejected just so often that every number below the bound keeps the same
number of draws.
-/

namespace OnyxKernel.Entropy

open Function Finset Nat BitVec

/-! ### The generator -/

/-- `G_STATE` and `G_SEEDED`. -/
structure Generator where
  state : BitVec 64 × BitVec 64 × BitVec 64 × BitVec 64
  seeded : Bool

/-- `seed`, where the source gives the numbers `hw 0, hw 1, …`. -/
def seed (hw : ℕ → BitVec 32) : Generator :=
  let word i := (hw (2 * i)).zeroExtend 64 <<< 32 ||| (hw (2 * i + 1)).zeroExtend 64
  let state := (word 0, word 1, word 2, word 3)
  -- xoshiro cannot start from the state that is all zero
  if state = 0 then
    ⟨(0x9E3779B97F4A7C15, 0xD1B54A5D6C8AE963, 0xA4093822299F31D0, 0x655002122AAAC4F1), true⟩
  else ⟨state, true⟩

def ensureSeeded (hw : ℕ → BitVec 32) (g : Generator) : Generator := if g.seeded then g else seed hw

/-- The update of the state in `next_u64`. -/
def update : BitVec 64 × BitVec 64 × BitVec 64 × BitVec 64 → BitVec 64 × BitVec 64 × BitVec 64 × BitVec 64
  | (s0, s1, s2, s3) =>
    let t := s1 <<< 17
    let s2 := s2 ^^^ s0
    let s3 := s3 ^^^ s1
    (s0 ^^^ s3, s1 ^^^ s2, s2 ^^^ t, s3.rotateLeft 45)

def nextU64 (hw : ℕ → BitVec 32) (g : Generator) : BitVec 64 × Generator :=
  let g := ensureSeeded hw g
  ((g.state.2.1 * 5).rotateLeft 7 * 9, { g with state := update g.state })

/-- The generator after one call of `next_u64` for each element of `hws`. -/
def afterCalls (hws : List (ℕ → BitVec 32)) (g : Generator) : Generator :=
  hws.foldl (fun g hw => (nextU64 hw g).2) g

lemma xor_shiftLeft_injective : Injective fun x : BitVec 64 => x ^^^ x <<< 17 := by
  intro x y h
  refine eq_of_getLsbD_eq fun i => ?_
  -- bit `i` of the sum is bit `i` of `x` up to a bit that is known by induction
  induction i using Nat.strong_induction_on with
  | _ i ih =>
    intro hi
    have hbit := congrArg (·.getLsbD i) h
    simp only [getLsbD_xor, getLsbD_shiftLeft] at hbit
    by_cases hlow : i < 17
    · simpa [hlow, hi] using hbit
    · simpa [hlow, hi, ih (i - 17) (by omega) (by omega)] using hbit

lemma rotateLeft_injective : Injective fun x : BitVec 64 => x.rotateLeft 45 := by
  intro x y h
  refine eq_of_getLsbD_eq fun i hi => ?_
  by_cases hlow : i < 19
  · have hbit := congrArg (·.getLsbD (i + 45)) h
    simpa [getLsbD_rotateLeft, hi, show i + 45 < 64 by omega] using hbit
  · have hbit := congrArg (·.getLsbD (i - 19)) h
    simpa [getLsbD_rotateLeft, show i - 19 < 45 by omega, show 19 + (i - 19) = i by omega] using hbit

theorem update_injective : Injective update := by
  rintro ⟨s0, s1, s2, s3⟩ ⟨t0, t1, t2, t3⟩ h
  obtain ⟨h0, h1, h2, h3⟩ : s0 ^^^ (s3 ^^^ s1) = t0 ^^^ (t3 ^^^ t1) ∧ s1 ^^^ (s2 ^^^ s0) = t1 ^^^ (t2 ^^^ t0) ∧
      s2 ^^^ s0 ^^^ s1 <<< 17 = t2 ^^^ t0 ^^^ t1 <<< 17 ∧
      (s3 ^^^ s1).rotateLeft 45 = (t3 ^^^ t1).rotateLeft 45 := by
    simpa [update] using h
  have h31 : s3 ^^^ s1 = t3 ^^^ t1 := rotateLeft_injective h3
  obtain rfl : s0 = t0 := (xor_left_inj _).mp (h31 ▸ h0)
  -- the second word is what the exclusive or of the second and the third depends on
  obtain rfl : s1 = t1 := by
    have hsum (x b : BitVec 64) : x ^^^ x <<< 17 = (x ^^^ b) ^^^ (b ^^^ x <<< 17) := by
      rw [BitVec.xor_assoc, ← BitVec.xor_assoc b b, BitVec.xor_self, BitVec.zero_xor]
    refine xor_shiftLeft_injective (?_ : s1 ^^^ s1 <<< 17 = t1 ^^^ t1 <<< 17)
    rw [hsum s1 (s2 ^^^ s0), h1, h2, ← hsum]
  obtain rfl : s3 = t3 := (xor_left_inj _).mp h31
  obtain rfl : s2 = t2 := (xor_left_inj _).mp ((xor_right_inj _).mp h1)
  rfl

lemma update_zero : update 0 = 0 := by decide

lemma update_eq_zero_iff (s) : update s = 0 ↔ s = 0 :=
  ⟨fun h => update_injective (h.trans update_zero.symm), fun h => h ▸ update_zero⟩

lemma seed_state_ne_zero (hw : ℕ → BitVec 32) : (seed hw).state ≠ 0 := by
  unfold seed
  dsimp only
  split_ifs with hzero
  · decide
  · exact hzero

lemma afterCalls_ne_zero (hws : List (ℕ → BitVec 32)) {g : Generator} (hseeded : g.seeded)
    (hne : g.state ≠ 0) : (afterCalls hws g).state ≠ 0 := by
  induction hws generalizing g with
  | nil => exact hne
  | cons hw hws ih =>
    have hsame : ensureSeeded hw g = g := if_pos hseeded
    refine ih (g := (nextU64 hw g).2) ?_ ?_
    · rw [nextU64, hsame]
      exact hseeded
    · rw [nextU64, hsame]
      exact mt (update_eq_zero_iff _).mp hne

/-- A seeded generator never reaches the state that is all zero; the update of the state is a bijection
that takes only zero to zero. -/
theorem state_never_zero :
    (∀ hw hws, (afterCalls hws (seed hw)).state ≠ 0) ∧ Bijective update ∧ ∀ s, update s = 0 ↔ s = 0 := by
  refine ⟨fun hw hws => afterCalls_ne_zero hws ?_ (seed_state_ne_zero hw), ?_, update_eq_zero_iff⟩
  · unfold seed
    dsimp only
    split_ifs <;> rfl
  · have : Finite (BitVec 64) := .of_injective toFin fun _ _ => eq_of_toFin_eq
    exact Finite.injective_iff_bijective.mp update_injective

/-! ### Bounded numbers -/

def nextU32 (hw : ℕ → BitVec 32) (g : Generator) : ℕ × Generator :=
  let (v, g) := nextU64 hw g
  ((v &&& 0xFFFFFFFF).toNat % 2 ^ 32, g)

/-- The loop of `below`: draw again while the low half of `m` is below `t`, at most `fuel` times. -/
def belowLoop (hw : ℕ → BitVec 32) (r t : ℕ) : ℕ → ℕ → Generator → Option (ℕ × Generator)
  | 0, m, g => if m % 2 ^ 32 < t then none else some (m / 2 ^ 32, g)
  | fuel + 1, m, g =>
    if m % 2 ^ 32 < t then
      let (x, g) := nextU32 hw g
      belowLoop hw r t fuel (x * r) g
    else some (m / 2 ^ 32, g)

/-- `(!r + 1) % r`. -/
def threshold (r : ℕ) : ℕ := (2 ^ 32 - 1 - r + 1) % r

def below (hw : ℕ → BitVec 32) (fuel bound : ℕ) (g : Generator) : Option (ℕ × Generator) :=
  if bound = 0 then some (0, g)
  else
    let r := bound
    let (x, g) := nextU32 hw g
    let m := x * r
    if m % 2 ^ 32 < r then belowLoop hw r (threshold r) fuel m g
    else some (m / 2 ^ 32, g)

/-- What `below` makes of the draw `x`: a number, or nothing where it draws again. -/
def drawn (r x : ℕ) : Option ℕ :=
  if x * r % 2 ^ 32 < r ∧ x * r % 2 ^ 32 < threshold r then none else some (x * r / 2 ^ 32)

/-- The first number that `n` draws give. -/
def firstDrawn (hw : ℕ → BitVec 32) (r : ℕ) : ℕ → Generator → Option (ℕ × Generator)
  | 0, _ => none
  | n + 1, g =>
    let (x, g) := nextU32 hw g
    match drawn r x with
    | some v => some (v, g)
    | none => firstDrawn hw r n g

variable {hw : ℕ → BitVec 32} {r x v : ℕ} {g g' : Generator}

lemma nextU32_lt (hw : ℕ → BitVec 32) (g : Generator) : (nextU32 hw g).1 < 2 ^ 32 := mod_lt _ (by decide)

lemma threshold_eq (hlt : r < 2 ^ 32) : threshold r = 2 ^ 32 % r := by
  have hsub : 2 ^ 32 - 1 - r + 1 + r = 2 ^ 32 := by omega
  rw [threshold, ← add_mod_right, hsub]

lemma drawn_eq (hr : 1 ≤ r) (x : ℕ) :
    drawn r x = if x * r % 2 ^ 32 < threshold r then none else some (x * r / 2 ^ 32) :=
  if_congr (and_iff_right_of_imp fun h => h.trans (mod_lt _ hr)) rfl rfl

lemma belowLoop_eq (hr : 1 ≤ r) (fuel x : ℕ) (g : Generator) : belowLoop hw r (threshold r) fuel (x * r) g =
      match drawn r x with
      | some v => some (v, g)
      | none => firstDrawn hw r fuel g := by
  rw [drawn_eq hr]
  induction fuel generalizing x g with
  | zero =>
    rw [belowLoop]
    split_ifs <;> rfl
  | succ fuel ih =>
    rw [belowLoop, firstDrawn]
    split_ifs
    · dsimp only
      rw [ih, drawn_eq hr]
    · rfl

lemma below_eq (hr : 1 ≤ r) (fuel : ℕ) (g : Generator) :
    below hw fuel r g = firstDrawn hw r (fuel + 1) g := by
  rw [below, if_neg (ne_of_gt hr), firstDrawn]
  dsimp only
  split_ifs with hlow
  · exact belowLoop_eq hr fuel _ _
  · rw [drawn, if_neg fun h => hlow h.1]

lemma firstDrawn_lt (hr : 1 ≤ r) {n : ℕ} (h : firstDrawn hw r n g = some (v, g')) : v < r := by
  induction n generalizing g with
  | zero => cases h
  | succ n ih =>
    rw [firstDrawn] at h
    dsimp only at h
    rw [drawn_eq hr] at h
    split_ifs at h
    · exact ih h
    · cases h
      refine Nat.div_lt_of_lt_mul ?_
      exact Nat.mul_lt_mul_of_pos_right (nextU32_lt hw g) hr

/-- The multiples of `r` that the rejection leaves to `v` are those in an interval of `N / r * r` numbers. -/
lemma card_accepted {N : ℕ} (hr : 0 < r) (hv : v < r) :
    #{x ∈ range N | N % r ≤ x * r % N ∧ x * r / N = v} = N / r := by
  rcases N.eq_zero_or_pos with rfl | hN
  · simp
  have hend : N * v + N % r + r * (N / r) = N * (v + 1) := by
    rw [Nat.add_assoc, Nat.mod_add_div, Nat.mul_succ]
  have hceil (x : ℕ) : (N * v + N % r) ⌈/⌉ r ≤ x ↔ N * v + N % r ≤ r * x := ceilDiv_le_iff_le_mul hr
  have hstop (x : ℕ) : x < (N * v + N % r) ⌈/⌉ r + N / r ↔ r * x < N * (v + 1) := by
    rcases Nat.lt_or_ge x (N / r) with hlow | hge
    · have hmul : r * x < r * (N / r) := Nat.mul_lt_mul_of_pos_left hlow hr
      omega
    · obtain ⟨y, rfl⟩ := Nat.exists_eq_add_of_le' hge
      rw [← hend, Nat.mul_add, Nat.add_lt_add_iff_right, Nat.add_lt_add_iff_right, ← not_le, hceil, not_le]
  have hset : {x ∈ range N | N % r ≤ x * r % N ∧ x * r / N = v} =
      Ico ((N * v + N % r) ⌈/⌉ r) ((N * v + N % r) ⌈/⌉ r + N / r) := by
    ext x
    rw [mem_filter, mem_range, mem_Ico, hceil, hstop, mul_comm x]
    have hdiv := Nat.div_add_mod (r * x) N
    constructor
    · rintro ⟨-, hmod, rfl⟩
      exact ⟨by omega, Nat.lt_mul_div_succ _ hN⟩
    · rintro ⟨hlo, hhi⟩
      obtain rfl : r * x / N = v := by
        refine Nat.div_eq_of_lt_le ?_ (mul_comm N _ ▸ hhi)
        rw [mul_comm]
        omega
      refine ⟨?_, by omega, rfl⟩
      have hle : N * (r * x / N + 1) ≤ r * N := mul_comm N r ▸ Nat.mul_le_mul_left N hv
      exact Nat.lt_of_mul_lt_mul_left (hhi.trans_le hle)
  rw [hset, Nat.card_Ico, Nat.add_sub_cancel_left]

/-- `below` returns the number of its first accepted draw, which is below the bound, and of all draws the same
number is accepted for every number below the bound. -/
theorem below_unbiased (hr : 1 ≤ r) (hlt : r < 2 ^ 32) :
    (∀ hw fuel g, below hw fuel r g = firstDrawn hw r (fuel + 1) g) ∧
      (∀ hw fuel g v g', below hw fuel r g = some (v, g') → v < r) ∧
      ∀ v < r, #{x ∈ range (2 ^ 32) | drawn r x = some v} = 2 ^ 32 / r := by
  refine ⟨fun _ => below_eq hr, fun hw fuel g v g' h => ?_, fun v hv => ?_⟩
  · rw [below_eq hr] at h
    exact firstDrawn_lt hr h
  · rw [← card_accepted hr hv]
    refine congrArg card (filter_congr fun x _ => ?_)
    rw [drawn_eq hr, threshold_eq hlt]
    simp

theorem below_unbiased_die : #{x ∈ range (2 ^ 32) | drawn 6 x = some 5} = 715827882 :=
  (below_unbiased (by decide) (by decide)).2.2 5 (by decide)

end OnyxKernel.Entropy
