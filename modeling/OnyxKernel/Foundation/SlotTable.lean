import Mathlib

/-!
# Tables of slots

A table of `n` slots, each of which is free or holds a key with a value, is a finite map if no key occurs
in two slots.  The value of a key is found by a scan from slot 0 on.  A new value is written to the slot
of its key or to a free slot, and a key is removed by freeing its slot.
-/

namespace SlotTable

open Option

open Function (update update_self update_of_ne)

variable {κ ν : Type*} {n i j : ℕ} {t u : ℕ → Option (κ × ν)} {k k' : κ} {v w : ν}

/-- No key occurs in two of the first `n` slots. -/
def Distinct (n : ℕ) (t : ℕ → Option (κ × ν)) : Prop :=
  ∀ i < n, ∀ j < n, ∀ k v w, t i = some (k, v) → t j = some (k, w) → i = j

/-- None of the first `n` slots holds the key. -/
def Absent (n : ℕ) (t : ℕ → Option (κ × ν)) (k : κ) : Prop := ∀ i < n, ∀ v, t i ≠ some (k, v)

/-- None of the first `n` slots is free. -/
def Full (n : ℕ) (t : ℕ → Option (κ × ν)) : Prop := ∀ i < n, t i ≠ none

/-- The slot holds the key already, or it is free and no slot holds the key. -/
def Takes (n : ℕ) (t : ℕ → Option (κ × ν)) (i : ℕ) (k : κ) : Prop :=
  (∃ v, t i = some (k, v)) ∨ t i = none ∧ Absent n t k

lemma Takes.ne (h : Distinct n t) (ht : Takes n t i k) (hi : i < n) (hj : j < n) (hne : j ≠ i) (w : ν) :
    t j ≠ some (k, w) := by
  rintro htj
  rcases ht with ⟨v, hv⟩ | ⟨-, habsent⟩
  · exact hne (h j hj i hi k w v htj hv)
  · exact habsent j hj w htj

lemma Distinct.put (h : Distinct n t) (ht : Takes n t i k) (hi : i < n) (v : ν) :
    Distinct n (update t i (some (k, v))) := by
  intro a ha b hb k' x y hx hy
  by_cases hai : a = i <;> by_cases hbi : b = i
  · rw [hai, hbi]
  · subst hai
    rw [update_self] at hx
    rw [update_of_ne hbi] at hy
    cases hx
    exact absurd hy (ht.ne h hi hb hbi y)
  · subst hbi
    rw [update_self] at hy
    rw [update_of_ne hai] at hx
    cases hy
    exact absurd hx (ht.ne h hi ha hai x)
  · rw [update_of_ne hai] at hx
    rw [update_of_ne hbi] at hy
    exact h a ha b hb k' x y hx hy

lemma Distinct.free (h : Distinct n t) (i : ℕ) : Distinct n (update t i none) := by
  have hkeep : ∀ a k v, update t i none a = some (k, v) → t a = some (k, v) := by
    intro a k v ha
    by_cases hai : a = i
    · subst hai
      rw [update_self] at ha
      cases ha
    · rwa [update_of_ne hai] at ha
  intro a ha b hb k x y hx hy
  exact h a ha b hb k x y (hkeep a k x hx) (hkeep b k y hy)

/-! ### The map -/

variable [DecidableEq κ]

/-- The value of a slot, if the slot holds the key. -/
def valueOf (k : κ) : Option (κ × ν) → Option ν
  | some (k', v) => if k' = k then some v else none
  | none => none

/-- The value of the first slot from `i` on that holds the key, among `fuel` slots. -/
def scan (t : ℕ → Option (κ × ν)) (k : κ) : ℕ → ℕ → Option ν
  | 0, _ => none
  | fuel + 1, i => (valueOf k (t i)).or (scan t k fuel (i + 1))

/-- The value of a key in the first `n` slots. -/
def get (n : ℕ) (t : ℕ → Option (κ × ν)) (k : κ) : Option ν := scan t k n 0

@[simp] lemma valueOf_none : valueOf k (none : Option (κ × ν)) = none := rfl

@[simp] lemma valueOf_some : valueOf k (some (k', v)) = if k' = k then some v else none := rfl

@[simp] lemma valueOf_eq_some_iff {e : Option (κ × ν)} : valueOf k e = some v ↔ e = some (k, v) := by
  rcases e with _ | ⟨k', w⟩
  · simp
  · simp

@[simp] lemma scan_zero : scan t k 0 i = none := rfl

lemma scan_succ (fuel : ℕ) : scan t k (fuel + 1) i = (valueOf k (t i)).or (scan t k fuel (i + 1)) := rfl

lemma exists_of_scan {fuel : ℕ} (h : scan t k fuel i = some v) :
    ∃ j, i ≤ j ∧ j < i + fuel ∧ t j = some (k, v) := by
  induction fuel generalizing i with
  | zero => simp at h
  | succ fuel ih =>
    rw [scan_succ, or_eq_some_iff] at h
    rcases h with h | ⟨-, h⟩
    · exact ⟨i, Nat.le_refl i, by omega, valueOf_eq_some_iff.mp h⟩
    · obtain ⟨j, hij, hj, htj⟩ := ih h
      exact ⟨j, by omega, by omega, htj⟩

lemma scan_ne_none {fuel : ℕ} (hij : i ≤ j) (hj : j < i + fuel) (htj : t j = some (k, v)) :
    scan t k fuel i ≠ none := by
  induction fuel generalizing i with
  | zero => omega
  | succ fuel ih =>
    rw [scan_succ, Ne, or_eq_none_iff, not_and_or]
    rcases Nat.eq_or_lt_of_le hij with rfl | hlt
    · exact .inl (by simp [htj])
    · exact .inr (ih hlt (by omega))

lemma get_eq_none_iff : get n t k = none ↔ Absent n t k := by
  constructor
  · intro h i hi v hti
    exact scan_ne_none (Nat.zero_le i) (by omega) hti h
  · intro h
    rw [eq_none_iff_forall_ne_some]
    intro v hv
    obtain ⟨j, -, hj, htj⟩ := exists_of_scan hv
    exact h j (by omega) v htj

lemma get_eq_some_iff (h : Distinct n t) : get n t k = some v ↔ ∃ i < n, t i = some (k, v) := by
  constructor
  · intro hv
    obtain ⟨j, -, hj, htj⟩ := exists_of_scan hv
    exact ⟨j, by omega, htj⟩
  · rintro ⟨i, hi, hti⟩
    cases hget : get n t k with
    | none => exact absurd hti (get_eq_none_iff.mp hget i hi v)
    | some w =>
      obtain ⟨j, -, hj, htj⟩ := exists_of_scan hget
      obtain rfl := h i hi j (by omega) k v w hti htj
      rw [hti] at htj
      cases htj
      rfl

lemma get_put (h : Distinct n t) (ht : Takes n t i k) (hi : i < n) (v : ν) :
    get n (update t i (some (k, v))) = update (get n t) k (some v) := by
  funext k'
  by_cases hk : k' = k
  · subst hk
    rw [update_self, get_eq_some_iff (h.put ht hi v)]
    exact ⟨i, hi, update_self ..⟩
  · rw [update_of_ne hk]
    refine ext fun w => ?_
    rw [get_eq_some_iff (h.put ht hi v), get_eq_some_iff h]
    refine exists_congr fun j => and_congr_right fun hj => ?_
    by_cases hji : j = i
    · subst hji
      rw [update_self]
      constructor
      · rintro heq
        cases heq
        exact absurd rfl hk
      · rintro htj
        rcases ht with ⟨x, hx⟩ | ⟨hfree, -⟩
        · rw [hx] at htj
          cases htj
          exact absurd rfl hk
        · rw [hfree] at htj
          cases htj
    · rw [update_of_ne hji]

lemma get_free (h : Distinct n t) (hi : i < n) (ht : t i = some (k, v)) :
    get n (update t i none) = update (get n t) k none := by
  funext k'
  by_cases hk : k' = k
  · subst hk
    rw [update_self, get_eq_none_iff]
    intro j hj w htj
    by_cases hji : j = i
    · subst hji
      rw [update_self] at htj
      cases htj
    · rw [update_of_ne hji] at htj
      exact hji (h j hj i hi k' w v htj ht)
  · rw [update_of_ne hk]
    refine ext fun w => ?_
    rw [get_eq_some_iff (h.free i), get_eq_some_iff h]
    refine exists_congr fun j => and_congr_right fun hj => ?_
    by_cases hji : j = i
    · subst hji
      rw [update_self, ht]
      constructor
      · rintro ⟨⟩
      · rintro heq
        cases heq
        exact absurd rfl hk
    · rw [update_of_ne hji]

end SlotTable
