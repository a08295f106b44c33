import Mathlib

/-!
# Ring buffers

A buffer of `n` cells with two counters that wrap around at a multiple `m` of `n`.  `Holds` says that the
cells between the counters hold a list; a push appends to the list and a pop takes its first element.
Since the counters run on through all of `m > n`, a full buffer and an empty one differ in them.
-/

namespace RingBuffer

open List Nat Function

variable {α : Type*} {n m : ℕ} [NeZero n] {buf : Fin n → α} {head tail : ℕ} {a : α} {l : List α}

/-- The cells from the counter `head` to the counter `tail` hold `l`. -/
structure Holds (m : ℕ) (buf : Fin n → α) (head tail : ℕ) (l : List α) : Prop where
  head_lt : head < m
  length_le : l.length ≤ n
  tail_eq : tail = (head + l.length) % m
  cells : ∀ i (hi : i < l.length), buf (Fin.ofNat n (head + i)) = l[i]

lemma ofNat_mod (hdvd : n ∣ m) (c : ℕ) : Fin.ofNat n (c % m) = Fin.ofNat n c := by
  apply Fin.ext
  exact mod_mod_of_dvd c hdvd

lemma ofNat_add_ne {i j : ℕ} (hij : i < j) (hj : j < n) (c : ℕ) :
    Fin.ofNat n (c + i) ≠ Fin.ofNat n (c + j) := by
  intro heq
  have hmod : c + i ≡ c + j [MOD n] := congrArg Fin.val heq
  have hcancel := Nat.ModEq.add_left_cancel' c hmod
  rw [Nat.ModEq, mod_eq_of_lt (hij.trans hj), mod_eq_of_lt hj] at hcancel
  exact hij.ne hcancel

/-! ### Several cells at once -/

/-- Write a list from the counter `c` on. -/
def write (buf : Fin n → α) (c : ℕ) : List α → Fin n → α
  | [] => buf
  | a :: l => write (update buf (Fin.ofNat n c) a) (c + 1) l

/-- The `k` cells from the counter `c` on. -/
def read (buf : Fin n → α) (c k : ℕ) : List α := (range k).map fun i => buf (Fin.ofNat n (c + i))

lemma read_add (buf : Fin n → α) (c j k : ℕ) : read buf c (j + k) = read buf c j ++ read buf (c + j) k := by
  simp [read, range_add, add_assoc]

lemma read_mod (buf : Fin n → α) (c k : ℕ) : read buf (c % n) k = read buf c k := by
  refine map_congr_left fun i _ => congrArg buf (Fin.ext ?_)
  exact mod_add_mod c n i

lemma read_write {k : ℕ} (buf : Fin n → α) (c : ℕ) (l : List α) (hlen : k + l.length ≤ n) :
    read (write buf (c + k) l) c (k + l.length) = read buf c k ++ l := by
  induction l generalizing buf k with
  | nil => simp [write]
  | cons a l ih =>
    rw [length_cons] at hlen
    have hfirst : read (update buf (Fin.ofNat n (c + k)) a) c (k + 1) = read buf c k ++ [a] := by
      rw [read_add]
      refine congrArg₂ _ (map_congr_left fun i hi => ?_) (by simp [read])
      exact update_of_ne (ofNat_add_ne (mem_range.mp hi) (by omega) c) ..
    have hrest := ih (k := k + 1) (update buf (Fin.ofNat n (c + k)) a) (by omega)
    rw [hfirst, append_assoc, add_right_comm] at hrest
    exact hrest

namespace Holds

lemma nil (hlt : head < m) (buf : Fin n → α) : Holds m buf head head [] where
  head_lt := hlt
  length_le := zero_le n
  tail_eq := (mod_eq_of_lt hlt).symm
  cells _ hi := absurd hi (not_lt_zero _)

lemma distance (h : Holds m buf head tail l) (hnm : n < m) : (tail + (m - head)) % m = l.length := by
  have hlen : l.length < m := h.length_le.trans_lt hnm
  have hsum : head + l.length + (m - head) = l.length + m := by
    have := h.head_lt
    omega
  rw [h.tail_eq, mod_add_mod, hsum, add_mod_right, mod_eq_of_lt hlen]

lemma push (h : Holds m buf head tail l) (hdvd : n ∣ m) (hspace : l.length < n) (a : α) :
    Holds m (update buf (Fin.ofNat n tail) a) head ((tail + 1) % m) (l ++ [a]) where
  head_lt := h.head_lt
  length_le := by
    rwa [length_append, length_singleton]
  tail_eq := by
    rw [h.tail_eq, mod_add_mod, length_append, length_singleton, add_assoc]
  cells i hi := by
    rw [length_append, length_singleton] at hi
    rw [h.tail_eq, ofNat_mod hdvd]
    rcases Nat.lt_succ_iff_lt_or_eq.mp hi with hlt | rfl
    · rw [update_of_ne (ofNat_add_ne hlt hspace head), getElem_append_left hlt]
      exact h.cells i hlt
    · rw [update_self, getElem_concat_length rfl]

/-- The cell of `head` holds the first element, and advancing it drops the element. -/
theorem pop (h : Holds m buf head tail (a :: l)) (hdvd : n ∣ m) :
    buf (Fin.ofNat n head) = a ∧ Holds m buf ((head + 1) % m) tail l := by
  have hlen : (a :: l).length = l.length + 1 := length_cons
  constructor
  · exact h.cells 0 (zero_lt_succ _)
  · refine ⟨mod_lt _ (zero_lt_of_lt h.head_lt), ?_, ?_, fun i hi => ?_⟩
    · have := h.length_le
      omega
    · rw [h.tail_eq, hlen, mod_add_mod, add_assoc, add_comm 1]
    · have hcell : Fin.ofNat n ((head + 1) % m + i) = Fin.ofNat n (head + (i + 1)) := by
        rw [← ofNat_mod hdvd, mod_add_mod, ofNat_mod hdvd, add_assoc, add_comm 1]
      rw [hcell]
      exact h.cells (i + 1) (succ_lt_succ hi)

end Holds

end RingBuffer
