import OnyxKernel.Mm.Pmm

/-!
# Specifications of the page allocator

`Pmm.Valid` is the invariant of the allocator: the bitmap lies in front of the managed pages, these
are page aligned and inside the address space, and `free_pages` is the number of clear bits.  For
each function there is one lemma that says what it does: `alloc_cases`, `allocN_cases` and
`free_cases` list the possible outcomes, and the lemmas behind them say which bits and which memory
the resulting state has.
-/

namespace OnyxKernel.Pmm

open ByteMemory Bitmap Nat Set Memory Option
open List hiding Disjoint

variable {s s' : Mm} {i j n pa : ℕ} {x pages start : ℕ}

/-- The addresses of the bitmap. -/
def bitmapRegion (s : Mm) : Set ℕ :=
  Set.Ico s.pmm.bitmap (s.pmm.bitmap + (s.pmm.totalPages + 7) / 8)

/-- The addresses of page `i`. -/
def pageRegion (s : Mm) (i : ℕ) : Set ℕ := Set.Ico (idxToPa s i) (idxToPa s i + pageSize)

/-- The invariant of the page allocator. -/
structure Valid (s : Mm) : Prop where
  /-- The managed pages are page aligned. -/
  base_aligned : s.pmm.base % pageSize = 0
  /-- The bitmap ends before the first managed page. -/
  bitmap_le : s.pmm.bitmap + (s.pmm.totalPages + 7) / 8 ≤ s.pmm.base
  /-- The managed pages end inside the address space. -/
  end_lt : s.pmm.base + s.pmm.totalPages * pageSize < wordSize
  /-- The counter is the number of clear bits. -/
  free_eq : s.pmm.freePages = clearCount (bmGet s) s.pmm.totalPages

/-! ### The bits -/

lemma bmGet_bmSet (s : Mm) (i j : ℕ) : bmGet (bmSet s i) j = if j = i then true else bmGet s j :=
  test_set _ _ _ _

lemma bmGet_bmClr (s : Mm) (i j : ℕ) : bmGet (bmClr s i) j = if j = i then false else bmGet s j :=
  test_clear _ _ _ _

lemma byte_mem_bitmapRegion (hj : j < s.pmm.totalPages) : s.pmm.bitmap + j / 8 ∈ bitmapRegion s := by
  have hdiv : j / 8 < (s.pmm.totalPages + 7) / 8 := by omega
  exact ⟨Nat.le_add_right _ _, Nat.add_lt_add_left hdiv _⟩

lemma bmGet_congr (hb : s'.pmm.bitmap = s.pmm.bitmap)
    (hm : EqOn s'.mem s.mem (bitmapRegion s)) (hj : j < s.pmm.totalPages) :
    bmGet s' j = bmGet s j := by
  unfold bmGet
  rw [hb]
  exact test_congr (hm (byte_mem_bitmapRegion hj))

lemma bmSet_mem_of_notMem (hi : i < s.pmm.totalPages) (hx : x ∉ bitmapRegion s) :
    (bmSet s i).mem x = s.mem x :=
  set_apply_of_ne fun h => hx (h ▸ byte_mem_bitmapRegion hi)

lemma bmClr_mem_of_notMem (hi : i < s.pmm.totalPages) (hx : x ∉ bitmapRegion s) :
    (bmClr s i).mem x = s.mem x :=
  setByte_apply_of_ne fun h => hx (h ▸ byte_mem_bitmapRegion hi)

lemma Valid.totalPages_lt (h : Valid s) : s.pmm.totalPages < wordSize := by
  have := h.end_lt
  unfold pageSize at this
  omega

lemma Valid.disjoint_page (h : Valid s) (i : ℕ) : Disjoint (pageRegion s i) (bitmapRegion s) := by
  have := h.bitmap_le
  rw [Set.disjoint_left]
  rintro x ⟨hlo, -⟩ ⟨-, hhi⟩
  unfold idxToPa at hlo
  omega

lemma Valid.bmSet (h : Valid s) (hi : i < s.pmm.totalPages) (hclear : bmGet s i = false) :
    Valid (bmSet s i) where
  base_aligned := h.base_aligned
  bitmap_le := h.bitmap_le
  end_lt := h.end_lt
  free_eq := by
    have hcount := clearCount_set hi hclear (bmGet_bmSet s i)
    have hfree := h.free_eq
    change wsub s.pmm.freePages 1 = clearCount (bmGet (Pmm.bmSet s i)) s.pmm.totalPages
    rw [wsub_of_le (by omega)]
    omega

lemma Valid.bmClr (h : Valid s) (hi : i < s.pmm.totalPages) (hset : bmGet s i = true) :
    Valid (bmClr s i) where
  base_aligned := h.base_aligned
  bitmap_le := h.bitmap_le
  end_lt := h.end_lt
  free_eq := by
    have hcount := clearCount_clear hi hset (bmGet_bmClr s i)
    have hle := clearCount_le (bmGet (Pmm.bmClr s i)) s.pmm.totalPages
    have hfree := h.free_eq
    have hlt := h.totalPages_lt
    change wadd s.pmm.freePages 1 = clearCount (bmGet (Pmm.bmClr s i)) s.pmm.totalPages
    rw [wadd_of_lt (by omega)]
    omega

lemma Valid.of_eqOn (h : Valid s) (hp : s'.pmm = s.pmm)
    (hm : EqOn s'.mem s.mem (bitmapRegion s)) : Valid s' where
  base_aligned := hp ▸ h.base_aligned
  bitmap_le := hp ▸ h.bitmap_le
  end_lt := hp ▸ h.end_lt
  free_eq := by
    rw [hp, h.free_eq]
    exact clearCount_congr fun j hj => (bmGet_congr (by rw [hp]) hm hj).symm

/-! ### Allocating one page -/

/-- `s'` is `s` after page `i` has been allocated at `pa` and zeroed. -/
structure AllocatedPage (s s' : Mm) (i pa : ℕ) : Prop where
  /-- The page is a managed one. -/
  lt : i < s.pmm.totalPages
  /-- It was free. -/
  clear : bmGet s i = false
  /-- Every page below it was taken. -/
  lowest : ∀ j < i, bmGet s j = true
  /-- Its address. -/
  pa_eq : pa = idxToPa s i
  /-- The new state. -/
  state_eq : s' = { bmSet s i with mem := (bmSet s i).mem.fill pa pageSize 0 }

/-- The two outcomes of `alloc`: the lowest free page, or `NoMem` when there is none. -/
theorem alloc_cases (s : Mm) : (∃ pa i s', alloc s = .ok pa s' ∧ AllocatedPage s s' i pa) ∨
      (alloc s = .error .noMem s ∧ ∀ i < s.pmm.totalPages, bmGet s i = true) := by
  unfold alloc
  cases hfind : (range s.pmm.totalPages).find? fun i => !bmGet s i with
  | none =>
    refine .inr ⟨rfl, fun i hi => ?_⟩
    have := find?_eq_none.mp hfind i (mem_range.mpr hi)
    simpa using this
  | some i =>
    obtain ⟨hclear, hmem, hlow⟩ := find?_range_eq_some.mp hfind
    refine .inl ⟨_, i, _, rfl, mem_range.mp hmem, by simpa using hclear, ?_, rfl, rfl⟩
    intro j hj
    simpa using hlow j hj

namespace AllocatedPage

variable (h : AllocatedPage s s' i pa) {x : ℕ}
include h

lemma pmm_eq : s'.pmm = { s.pmm with freePages := wsub s.pmm.freePages 1 } := by
  rw [h.state_eq]
  rfl

lemma mem_of_notMem (hb : x ∉ bitmapRegion s) (hp : x ∉ pageRegion s i) : s'.mem x = s.mem x := by
  rw [h.state_eq]
  have hp' : x ∉ Set.Ico pa (pa + pageSize) := by rwa [h.pa_eq]
  exact (fill_apply_of_notMem hp').trans (bmSet_mem_of_notMem h.lt hb)

lemma mem_page (hx : x ∈ pageRegion s i) : s'.mem x = 0 := by
  rw [h.state_eq]
  have hx' : x ∈ Set.Ico pa (pa + pageSize) := by rwa [h.pa_eq]
  exact fill_apply_of_mem hx'

lemma eqOn_bitmap (hv : Valid s) : EqOn s'.mem (bmSet s i).mem (bitmapRegion (bmSet s i)) := by
  rw [h.state_eq, h.pa_eq]
  exact fill_eqOn (hv.disjoint_page i)

lemma bmGet_eq (hv : Valid s) (hj : j < s.pmm.totalPages) :
    bmGet s' j = if j = i then true else bmGet s j := by
  have hb : s'.pmm.bitmap = (bmSet s i).pmm.bitmap := by
    rw [h.pmm_eq]
    rfl
  rw [bmGet_congr hb (h.eqOn_bitmap hv) hj, bmGet_bmSet]

lemma valid (hv : Valid s) : Valid s' := by
  have hp : s'.pmm = (bmSet s i).pmm := h.pmm_eq
  exact (hv.bmSet h.lt h.clear).of_eqOn hp (h.eqOn_bitmap hv)

end AllocatedPage

/-! ### Marking a run of pages -/

/-- `s'` is `s` with the pages `start, …, start + n - 1` marked as allocated. -/
structure MarkedRun (s s' : Mm) (start n : ℕ) : Prop where
  /-- The record of the allocator only changes its counter. -/
  pmm_eq : s'.pmm = { s.pmm with freePages := s'.pmm.freePages }
  /-- The heap record does not change. -/
  heap_eq : s'.heap = s.heap
  /-- The marked bits are set, every other bit is kept. -/
  bmGet_eq : ∀ j, bmGet s' j = (decide (start ≤ j ∧ j < start + n) || bmGet s j)
  /-- Only the bitmap is written. -/
  mem_of_notMem : ∀ x, x ∉ bitmapRegion s → s'.mem x = s.mem x
  /-- The allocator stays valid. -/
  valid : Valid s'

/-- The marking loops of `init` and `alloc_n`: on clear managed pages they mark exactly these. -/
theorem markedRun_foldl (n : ℕ) : ∀ {s : Mm} {start : ℕ}, Valid s →
    Bitmap.IsClearRun (bmGet s) s.pmm.totalPages n start →
      MarkedRun s ((range' start n).foldl bmSet s) start n := by
  induction n with
  | zero =>
    intro s start hv _
    refine ⟨rfl, rfl, fun j => ?_, fun _ _ => rfl, hv⟩
    have hnot : ¬ (start ≤ j ∧ j < start + 0) := by omega
    rw [decide_eq_false hnot]
    rfl
  | succ n ih =>
    intro s start hv hrun
    have hlt : start < s.pmm.totalPages := by
      have := hrun.1
      omega
    have hclear : bmGet s start = false := hrun.2 0 (succ_pos n)
    have hrun' : Bitmap.IsClearRun (bmGet (bmSet s start)) (bmSet s start).pmm.totalPages n
        (start + 1) := by
      refine ⟨?_, fun k hk => ?_⟩
      · have := hrun.1
        change start + 1 + n ≤ s.pmm.totalPages
        omega
      · have hbit := hrun.2 (k + 1) (by omega)
        rw [bmGet_bmSet, if_neg (by omega)]
        rwa [show start + 1 + k = start + (k + 1) by omega]
    have htail := ih (hv.bmSet hlt hclear) hrun'
    rw [range'_succ, foldl_cons]
    refine ⟨htail.pmm_eq, htail.heap_eq, fun j => ?_, fun x hx => ?_, htail.valid⟩
    · rw [htail.bmGet_eq, bmGet_bmSet]
      by_cases hj : j = start
      · subst hj
        simp
      · rw [if_neg hj]
        congr 1
        exact decide_eq_decide.mpr (by omega)
    · exact (htail.mem_of_notMem x hx).trans (bmSet_mem_of_notMem hlt hx)

/-! ### Allocating several pages -/

/-- What the scan of `alloc_n` finds.  It stands at page `i` behind `run < n` clear pages, and no
run of `n` clear pages starts before these. -/
private theorem allocNScan_spec (s : Mm) (n : ℕ) (fuel : ℕ) : ∀ i run start : ℕ, run < n →
    i + fuel = s.pmm.totalPages → run ≤ i → (run ≠ 0 → start = i - run) →
    (∀ k < run, bmGet s (i - run + k) = false) →
    (∀ t < i - run, ¬ Bitmap.IsClearRun (bmGet s) s.pmm.totalPages n t) →
      (∀ r, allocNScan s n fuel i run start = some r → Bitmap.IsLowestRun (bmGet s) s.pmm.totalPages n r) ∧
      (allocNScan s n fuel i run start = none → ∀ t, ¬ Bitmap.IsClearRun (bmGet s) s.pmm.totalPages n t) := by
  induction fuel with
  | zero =>
    intro i run start hrun htotal hle _ _ hnone
    refine ⟨fun r h => (some_ne_none r h.symm).elim, fun _ t ht => ?_⟩
    have hend := ht.1
    exact hnone t (by omega) ht
  | succ fuel ih =>
    intro i run start hrun htotal hle hstart hclear hnone
    unfold allocNScan
    cases hbit : bmGet s i with
    | true =>
      refine ih (i + 1) 0 start (by omega) (by omega) (zero_le _) (fun h => (h rfl).elim)
        (fun k hk => (not_lt_zero k hk).elim) fun t ht => ?_
      by_cases hlow : t < i - run
      · exact hnone t hlow
      · exact not_isClearRun_of_set hbit (by omega) (by omega)
    | false =>
      have hstart' : (if run = 0 then i else start) = i - run := by
        by_cases h0 : run = 0
        · rw [if_pos h0, h0, Nat.sub_zero]
        · rw [if_neg h0, hstart h0]
      have hclear' : ∀ k < run + 1, bmGet s (i - run + k) = false := by
        intro k hk
        by_cases hk' : k < run
        · exact hclear k hk'
        · rwa [show i - run + k = i by omega]
      have hi : i + 1 - (run + 1) = i - run := Nat.add_sub_add_right i 1 run
      simp only [Bool.not_false, if_true, hstart']
      by_cases hdone : run + 1 = n
      · rw [if_pos hdone]
        refine ⟨fun r hr => ?_, fun h => (some_ne_none _ h).elim⟩
        obtain rfl := some.inj hr
        exact ⟨⟨by omega, hdone ▸ hclear'⟩, hnone⟩
      · rw [if_neg hdone]
        exact ih (i + 1) (run + 1) (i - run) (by omega) (by omega) (by omega)
          (fun _ => hi.symm) (hi ▸ hclear') (hi ▸ hnone)

/-- The two outcomes of `alloc_n` for `n > 0`: the lowest run of `n` free pages, or `NoMem` when
there is no such run. -/
theorem allocN_cases (s : Mm) (hn : 0 < n) :
    (∃ start, allocN n s = .ok (idxToPa s start) ((range' start n).foldl bmSet s) ∧
        Bitmap.IsLowestRun (bmGet s) s.pmm.totalPages n start) ∨
      (allocN n s = .error .noMem s ∧ ∀ t, ¬ Bitmap.IsClearRun (bmGet s) s.pmm.totalPages n t) := by
  have hspec := allocNScan_spec s n s.pmm.totalPages 0 0 0 hn (zero_add _) le_rfl
    (fun h => (h rfl).elim) (fun k hk => (not_lt_zero k hk).elim)
    (fun t ht => (not_lt_zero t ht).elim)
  unfold allocN
  rw [if_neg (pos_iff_ne_zero.mp hn)]
  cases hscan : allocNScan s n s.pmm.totalPages 0 0 0 with
  | none => exact .inr ⟨rfl, hspec.2 hscan⟩
  | some start => exact .inl ⟨start, rfl, hspec.1 start hscan⟩

/-! ### Freeing a page -/

lemma paToIdx_idxToPa (s : Mm) (i : ℕ) : paToIdx s (idxToPa s i) = i := by
  unfold paToIdx idxToPa
  rw [wsub_of_le (Nat.le_add_right _ _), Nat.add_sub_cancel_left]
  exact Nat.mul_div_cancel i (by decide)

lemma free_idxToPa (hi : i < s.pmm.totalPages) (hset : bmGet s i = true) :
    free s (idxToPa s i) = bmClr s i := by
  unfold free
  rw [paToIdx_idxToPa, if_pos hi, hset, if_pos rfl]

/-! ### The initial state -/

private lemma two_mul_bitmapPages_le (h : 2 ≤ pages) : 2 * bitmapPages pages ≤ pages := by
  unfold bitmapPages pageSize
  omega

private lemma bmGet_initBitmap (s : Mm) (hj : j < (initBitmap start pages s).pmm.totalPages) :
    bmGet (initBitmap start pages s) j = false := by
  have hbyte : start + j / 8 ∈ Set.Ico start (start + (pages + 7) / 8) := by
    have hj' : j < pages - bitmapPages pages := hj
    constructor <;> omega
  have hzero : (initBitmap start pages s).mem (start + j / 8) = 0 :=
    fill_apply_of_mem hbyte
  change getBit ((initBitmap start pages s).mem (start + j / 8)) (j % 8) = false
  rw [hzero, getBit_eq_testBit _ (mod_lt j (by decide))]
  exact zero_testBit _

private lemma valid_initBitmap (s : Mm) (halign : start % pageSize = 0)
    (hpages : 2 ≤ pages) (hend : start + pages * pageSize < wordSize) :
    Valid (initBitmap start pages s) := by
  have hhalf := two_mul_bitmapPages_le hpages
  refine ⟨?_, ?_, ?_, ?_⟩
  · change (start + bitmapPages pages * pageSize) % pageSize = 0
    rw [add_mul_mod_self_right, halign]
  · change start + (pages - bitmapPages pages + 7) / 8 ≤ start + bitmapPages pages * pageSize
    unfold bitmapPages pageSize
    omega
  · change start + bitmapPages pages * pageSize + (pages - bitmapPages pages) * pageSize < wordSize
    have hsum : bitmapPages pages * pageSize + (pages - bitmapPages pages) * pageSize = pages * pageSize := by
      rw [← Nat.add_mul, Nat.add_sub_cancel' (by omega)]
    omega
  · exact (clearCount_of_forall_clear fun j hj => bmGet_initBitmap s hj).symm

/-- `init` with at least two managed pages establishes the invariant. -/
theorem valid_init {kernelEnd dramBase dramSize : ℕ} (s : Mm)
    (hpages : 2 ≤ managedPages kernelEnd dramBase dramSize) :
    Valid (init kernelEnd dramBase dramSize s) := by
  have hend : managedBase kernelEnd dramBase + managedPages kernelEnd dramBase dramSize * pageSize <
      wordSize := by
    have hword := wadd_lt dramBase dramSize
    unfold managedPages at hpages ⊢
    unfold pageSize at hpages ⊢
    omega
  have halign : managedBase kernelEnd dramBase % pageSize = 0 := mul_mod_left _ _
  have hvalid := valid_initBitmap s halign hpages hend
  simp only [init, range_eq_range']
  refine (markedRun_foldl _ hvalid ⟨?_, fun k hk => ?_⟩).valid
  · have hhalf := two_mul_bitmapPages_le hpages
    change 0 + bitmapPages _ ≤ managedPages _ _ _ - bitmapPages _
    omega
  · refine bmGet_initBitmap s ?_
    have hhalf := two_mul_bitmapPages_le hpages
    change 0 + k < managedPages _ _ _ - bitmapPages _
    omega

end OnyxKernel.Pmm
