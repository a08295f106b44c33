import OnyxKernel.Mm.PageTable

/-!
# Translation inside a page

The indices and the offset of a virtual address as quotients and remainders, and the fact behind
every copy to user memory: inside a page the physical address follows the virtual one.
-/

namespace OnyxKernel.Vmm

open ByteMemory Nat

variable {accept : ℕ → Bool} {m : Memory} {va n pa level shift : ℕ}

lemma sv39Idx_eq (shift va : ℕ) : sv39Idx shift va = va / 2 ^ shift % 512 := by
  rw [sv39Idx, shiftRight_eq_div_pow]
  exact and_two_pow_sub_one_eq_mod _ 9

lemma levelIdx_eq (level va : ℕ) : levelIdx level va = va / 2 ^ levelShift level % 512 := by
  unfold levelIdx levelShift
  split <;> exact sv39Idx_eq _ _

lemma levelIdx_lt (level va : ℕ) : levelIdx level va < 512 := by
  rw [levelIdx_eq]
  exact mod_lt _ (by decide)

lemma pageSize_dvd (level : ℕ) : pageSize ∣ 2 ^ levelShift level := by
  unfold levelShift
  split <;> decide

lemma levelIdx_succ (h : (va + 1) % pageSize ≠ 0) (level : ℕ) :
    levelIdx level (va + 1) = levelIdx level va := by
  have hdvd : ¬ 2 ^ levelShift level ∣ va + 1 := fun hd =>
    h (mod_eq_zero_of_dvd ((pageSize_dvd level).trans hd))
  rw [levelIdx_eq, levelIdx_eq, succ_div_of_not_dvd hdvd]

lemma offset_succ (h : (va + 1) % pageSize ≠ 0) (level : ℕ) :
    (va + 1) &&& (2 ^ levelShift level - 1) = (va &&& (2 ^ levelShift level - 1)) + 1 := by
  have hne : (va + 1) % 2 ^ levelShift level ≠ 0 := fun hz =>
    h (mod_eq_zero_of_dvd ((pageSize_dvd level).trans (dvd_of_mod_eq_zero hz)))
  rw [and_two_pow_sub_one_eq_mod, and_two_pow_sub_one_eq_mod]
  by_cases hlast : va % 2 ^ levelShift level + 1 = 2 ^ levelShift level
  · refine absurd ?_ hne
    rw [add_mod, mod_eq_of_lt (a := 1) (by unfold levelShift; split <;> decide), hlast, mod_self]
  · rw [add_mod, mod_eq_of_lt (a := 1) (by unfold levelShift; split <;> decide), mod_eq_of_lt (by omega)]

lemma translateLoop_succ (h : (va + 1) % pageSize ≠ 0) : ∀ n pa : ℕ, translateLoop accept m va n pa ≠ 0 →
    translateLoop accept m (va + 1) n pa = translateLoop accept m va n pa + 1
  | 0, _, hne => absurd rfl hne
  | level + 1, pa, hne => by
    simp only [translateLoop, levelIdx_succ h] at hne ⊢
    split_ifs at hne ⊢
    case pos => exact absurd rfl hne
    case pos => rw [offset_succ h, add_assoc]
    case neg => exact absurd rfl hne
    case neg => exact translateLoop_succ h level _ hne

/-- Inside a user page the physical address follows the virtual one. -/
theorem translateUser_succ {rootPa : ℕ} (h : (va + 1) % pageSize ≠ 0) (hne : translateUser m rootPa va ≠ 0) :
    translateUser m rootPa (va + 1) = translateUser m rootPa va + 1 :=
  translateLoop_succ h 3 rootPa hne

end OnyxKernel.Vmm
