import OnyxKernel.Mm.PmmSpec

/-!
# Runs of the page allocator

A run starts in the state of `pmm::init` and takes steps of `alloc`, `alloc_n` and `free`, where
only frames may be freed that have been returned before and have not been freed since.  Next to the
state a run carries the list of the ranges that are handed out.  Between the calls the rest of the
kernel may write the memory outside the bitmap.

`Run.Inv` ties the list to the bitmap.  It is kept by every step (`Run.Inv.step`), hence it holds in
every state of every run, and the correctness of the allocator (`Run.Correct`) follows from it.
-/

namespace OnyxKernel

open ByteMemory Nat Set
open List hiding Disjoint

/-- A range of `pages` frames, the first of them at the address `pa`. -/
structure FrameRange where
  pa : ℕ
  pages : ℕ

namespace FrameRange

/-- The addresses of a range. -/
def addrs (r : FrameRange) : Set ℕ := Ico r.pa (r.pa + r.pages * pageSize)

/-- The address of frame `k` of a range. -/
def frame (r : FrameRange) (k : ℕ) : ℕ := r.pa + k * pageSize

/-- What is left of a range without its frame `k`: the frames before it and the frames behind it. -/
def without (r : FrameRange) (k : ℕ) : List FrameRange :=
  [⟨r.pa, k⟩, ⟨r.frame (k + 1), r.pages - (k + 1)⟩].filter fun r => 0 < r.pages

end FrameRange

namespace Pmm.Run

/-- The steps of a run: a call of the allocator, or a write of the rest of the kernel.  The second
component is the list of the ranges that are handed out. -/
inductive Step : Mm × List FrameRange → Mm × List FrameRange → Prop
  | alloc {s s' : Mm} {out : List FrameRange} {pa : ℕ} (h : alloc s = .ok pa s') :
      Step (s, out) (s', ⟨pa, 1⟩ :: out)
  | allocFail {s s' : Mm} {out : List FrameRange} {e : Errno} (h : Pmm.alloc s = .error e s') :
      Step (s, out) (s', out)
  | allocN {s s' : Mm} {out : List FrameRange} {n pa : ℕ} (h : allocN n s = .ok pa s') :
      Step (s, out) (s', ⟨pa, n⟩ :: out)
  | allocNFail {s s' : Mm} {out : List FrameRange} {n : ℕ} {e : Errno}
      (h : Pmm.allocN n s = .error e s') : Step (s, out) (s', out)
  | free {s : Mm} {before after : List FrameRange} {r : FrameRange} {k : ℕ} (hk : k < r.pages) :
      Step (s, before ++ r :: after) (free s (r.frame k), before ++ r.without k ++ after)
  | write {s : Mm} {out : List FrameRange} {mem : Memory}
      (h : EqOn mem s.mem (bitmapRegion s)) : Step (s, out) ({ s with mem }, out)

/-- The correctness of the allocator in a state with the ranges `out` handed out. -/
structure Correct (s : Mm) (out : List FrameRange) : Prop where
  /-- The counter is the number of clear bits. -/
  freePages_eq : s.pmm.freePages = Bitmap.clearCount (bmGet s) s.pmm.totalPages
  /-- The ranges are pairwise disjoint. -/
  disjoint : out.Pairwise fun r r' => Disjoint r.addrs r'.addrs
  /-- The ranges are page aligned. -/
  aligned : ∀ r ∈ out, r.pa % pageSize = 0
  /-- The ranges lie inside the managed memory. -/
  inside : ∀ r ∈ out, r.addrs ⊆ Ico s.pmm.base (s.pmm.base + s.pmm.totalPages * pageSize)
  /-- `alloc` fails with `NoMem` exactly when no bit is clear. -/
  alloc_noMem_iff : (∃ s', alloc s = .error .noMem s') ↔ ∀ i < s.pmm.totalPages, bmGet s i = true
  /-- When a bit is clear, `alloc` succeeds. -/
  alloc_ok_iff : (∃ pa s', alloc s = .ok pa s') ↔ ∃ i < s.pmm.totalPages, bmGet s i = false
  /-- `alloc_n` succeeds exactly when there is a run of clear bits. -/
  allocN_ok_iff : ∀ n, 0 < n → ((∃ pa s', allocN n s = .ok pa s') ↔
    ∃ start, Bitmap.IsClearRun (bmGet s) s.pmm.totalPages n start)
  /-- It returns the lowest run. -/
  allocN_lowest : ∀ n pa s', 0 < n → allocN n s = .ok pa s' →
    ∃ start, pa = idxToPa s start ∧ Bitmap.IsLowestRun (bmGet s) s.pmm.totalPages n start
  /-- Freeing an outstanding frame makes exactly this frame available again. -/
  free_frame : ∀ r ∈ out, ∀ k < r.pages, ∃ i < s.pmm.totalPages, r.frame k = idxToPa s i ∧
    bmGet s i = true ∧ ∀ j, bmGet (free s (r.frame k)) j = if j = i then false else bmGet s j

/-! ### The invariant -/

/-- The range `r` consists of managed pages that are marked as allocated. -/
def Backed (s : Mm) (r : FrameRange) : Prop :=
  ∃ i, r.pa = idxToPa s i ∧ i + r.pages ≤ s.pmm.totalPages ∧ ∀ k < r.pages, bmGet s (i + k) = true

/-- The invariant of a run. -/
structure Inv (s : Mm) (out : List FrameRange) : Prop where
  /-- The allocator is valid. -/
  valid : Valid s
  /-- The ranges that are handed out are marked. -/
  backed : ∀ r ∈ out, Backed s r
  /-- They are pairwise disjoint. -/
  disjoint : out.Pairwise fun r r' => Disjoint r.addrs r'.addrs

variable {s s' : Mm} {out out' : List FrameRange} {r r' : FrameRange} {i j k n : ℕ}

lemma Backed.mono (h : Backed s r) (hbase : s'.pmm.base = s.pmm.base)
    (htotal : s'.pmm.totalPages = s.pmm.totalPages)
    (hbits : ∀ j, idxToPa s j ∈ r.addrs → bmGet s j = true → bmGet s' j = true) :
    Backed s' r := by
  obtain ⟨i, hpa, hle, hset⟩ := h
  refine ⟨i, ?_, htotal ▸ hle, fun k hk => hbits _ ?_ (hset k hk)⟩
  · rw [hpa, idxToPa, idxToPa, hbase]
  · unfold FrameRange.addrs
    rw [hpa]
    unfold idxToPa pageSize
    constructor <;> omega

lemma Backed.frame_eq (h : Backed s r) (hk : k < r.pages) :
    ∃ i < s.pmm.totalPages, r.frame k = idxToPa s i ∧ bmGet s i = true := by
  obtain ⟨i, hpa, hle, hset⟩ := h
  refine ⟨i + k, by omega, ?_, hset k hk⟩
  unfold FrameRange.frame
  rw [hpa, idxToPa, idxToPa, add_mul, add_assoc]

lemma Backed.disjoint_of_clear (h : Backed s r) {start : ℕ} (hclear : ∀ k < n, bmGet s (start + k) = false) :
    Disjoint (FrameRange.mk (idxToPa s start) n).addrs r.addrs := by
  obtain ⟨i, hpa, -, hset⟩ := h
  rw [Set.disjoint_left]
  rintro x ⟨hlo, hhi⟩ ⟨hlo', hhi'⟩
  rw [hpa] at hlo' hhi'
  simp only [idxToPa, pageSize] at hlo hhi hlo' hhi'
  -- the page of `x` is clear as a page of the run and set as a page of `r`
  have hfree := hclear ((x - s.pmm.base) / 4096 - start) (by omega)
  have htaken := hset ((x - s.pmm.base) / 4096 - i) (by omega)
  rw [Nat.add_sub_cancel' (by omega)] at hfree htaken
  exact Bool.noConfusion (hfree.symm.trans htaken)

lemma Inv.cons (h : Inv s out) {start : ℕ} (hvalid : Valid s')
    (hbase : s'.pmm.base = s.pmm.base) (htotal : s'.pmm.totalPages = s.pmm.totalPages)
    (hrun : Bitmap.IsClearRun (bmGet s) s.pmm.totalPages n start)
    (hbits : ∀ j < s.pmm.totalPages, bmGet s' j = (decide (start ≤ j ∧ j < start + n) || bmGet s j)) :
    Inv s' (⟨idxToPa s start, n⟩ :: out) := by
  refine ⟨hvalid, ?_, pairwise_cons.mpr ⟨?_, h.disjoint⟩⟩
  · intro r hr
    rcases mem_cons.mp hr with rfl | hr
    · refine ⟨start, ?_, htotal ▸ hrun.1, fun k hk => ?_⟩
      · change idxToPa s start = idxToPa s' start
        rw [idxToPa, idxToPa, hbase]
      · have hlt : start + k < s.pmm.totalPages := by
          have := hrun.1
          change k < n at hk
          omega
        rw [hbits _ hlt, decide_eq_true ⟨Nat.le_add_right _ _, Nat.add_lt_add_left hk _⟩]
        rfl
    · obtain ⟨i, hpa, hle, hset⟩ := h.backed r hr
      refine ⟨i, ?_, htotal ▸ hle, fun k hk => ?_⟩
      · rw [hpa, idxToPa, idxToPa, hbase]
      · rw [hbits _ (by omega), hset k hk, Bool.or_true]
  · intro r hr
    exact (h.backed r hr).disjoint_of_clear hrun.2

/-! ### Freeing a frame of a range -/

private lemma addrs_subset_of_mem_without (hk : k < r.pages) (hr' : r' ∈ r.without k) :
    r'.addrs ⊆ r.addrs := by
  have hmem := (mem_filter.mp hr').1
  rintro x ⟨hlo, hhi⟩
  rcases mem_pair.mp hmem with rfl | rfl
  · refine ⟨hlo, hhi.trans_le ?_⟩
    exact Nat.add_le_add_left (Nat.mul_le_mul_right _ hk.le) _
  · refine ⟨(le_add_right _ _).trans hlo, hhi.trans_le ?_⟩
    rw [FrameRange.frame, Nat.add_assoc, ← Nat.add_mul, Nat.add_sub_cancel' hk]

private lemma frame_notMem_of_mem_without (hr' : r' ∈ r.without k) : r.frame k ∉ r'.addrs := by
  have hmem := (mem_filter.mp hr').1
  rintro ⟨hlo, hhi⟩
  rcases mem_pair.mp hmem with rfl | rfl
  · simp only [FrameRange.frame] at hhi
    omega
  · simp only [FrameRange.frame, pageSize] at hlo
    omega

private lemma pairwise_without (r : FrameRange) (k : ℕ) :
    (r.without k).Pairwise fun r r' => Disjoint r.addrs r'.addrs := by
  refine List.Pairwise.filter _ (pairwise_pair.mpr (disjoint_left.mpr ?_))
  rintro x ⟨-, hhi⟩ ⟨hlo, -⟩
  simp only [FrameRange.frame, pageSize] at hlo hhi
  omega

private lemma Backed.of_mem_without (h : Backed s r) (hk : k < r.pages)
    (hr' : r' ∈ r.without k) : Backed s r' := by
  obtain ⟨i, hpa, hle, hset⟩ := h
  rcases mem_pair.mp (mem_filter.mp hr').1 with rfl | rfl
  · exact ⟨i, hpa, by simp only; omega, fun l hl => hset l (hl.trans hk)⟩
  · refine ⟨i + (k + 1), ?_, by simp only; omega, fun l hl => ?_⟩
    · simp only [FrameRange.frame]
      rw [hpa, idxToPa, idxToPa, add_mul i (k + 1), add_assoc]
    · have hl' : l < r.pages - (k + 1) := hl
      have := hset (k + 1 + l) (by omega)
      rwa [← add_assoc] at this

lemma Inv.free {before after : List FrameRange} (h : Inv s (before ++ r :: after))
    (hk : k < r.pages) : Inv (free s (r.frame k)) (before ++ r.without k ++ after) := by
  have hr : r ∈ before ++ r :: after := mem_append_right _ mem_cons_self
  obtain ⟨i, hi, hframe, hset⟩ := (h.backed r hr).frame_eq hk
  have hin : r.frame k ∈ r.addrs := by
    unfold FrameRange.addrs FrameRange.frame pageSize
    constructor <;> omega
  obtain ⟨hbefore, hcons, hcross⟩ := pairwise_append.mp h.disjoint
  obtain ⟨hafterr, hafter⟩ := pairwise_cons.mp hcons
  -- no remaining range contains the freed frame, so all of them keep their bits
  have hkeep : ∀ r', Backed s r' → r.frame k ∉ r'.addrs → Backed (bmClr s i) r' := by
    intro r' hr' hnot
    refine hr'.mono rfl rfl fun j hj hbit => ?_
    rw [bmGet_bmClr, if_neg, hbit]
    rintro rfl
    exact hnot (hframe ▸ hj)
  have hbeforer : ∀ r' ∈ before, Disjoint r'.addrs r.addrs := fun r' hr' =>
    hcross r' hr' r mem_cons_self
  rw [hframe, free_idxToPa hi hset]
  refine ⟨h.valid.bmClr hi hset, fun r' hr' => ?_, ?_⟩
  · rcases mem_append.mp hr' with hr' | hr'
    · rcases mem_append.mp hr' with hr' | hr'
      · exact hkeep r' (h.backed r' (mem_append_left _ hr'))
          fun hx => disjoint_left.mp (hbeforer r' hr') hx hin
      · exact hkeep r' ((h.backed r hr).of_mem_without hk hr') (frame_notMem_of_mem_without hr')
    · exact hkeep r' (h.backed r' (mem_append_right _ (mem_cons_of_mem _ hr')))
        fun hx => disjoint_left.mp (hafterr r' hr') hin hx
  · refine pairwise_append.mpr ⟨pairwise_append.mpr ⟨hbefore, pairwise_without r k, ?_⟩, hafter, ?_⟩
    · intro r1 h1 r2 h2
      exact (hbeforer r1 h1).mono_right (addrs_subset_of_mem_without hk h2)
    · intro r1 h1 r2 h2
      rcases mem_append.mp h1 with h1 | h1
      · exact hcross r1 h1 r2 (mem_cons_of_mem _ h2)
      · exact (hafterr r2 h2).mono_left (addrs_subset_of_mem_without hk h1)

/-! ### Steps and runs -/

lemma Inv.step (h : Inv s out) (hstep : Step (s, out) (s', out')) : Inv s' out' := by
  cases hstep with
  | alloc halloc =>
    rcases alloc_cases s with ⟨pa, i, s1, heq, hpage⟩ | ⟨heq, -⟩
    · rw [heq] at halloc
      cases halloc
      have hrun : Bitmap.IsClearRun (bmGet s) s.pmm.totalPages 1 i := by
        refine ⟨hpage.lt, fun k hk => ?_⟩
        rw [lt_one_iff.mp hk]
        exact hpage.clear
      rw [hpage.pa_eq]
      refine h.cons (hpage.valid h.valid) ?_ ?_ hrun fun j hj => ?_
      · rw [hpage.pmm_eq]
      · rw [hpage.pmm_eq]
      · rw [hpage.bmGet_eq h.valid hj]
        by_cases hji : j = i
        · simp [hji]
        · have hnot : ¬ (i ≤ j ∧ j < i + 1) := by omega
          rw [if_neg hji, decide_eq_false hnot, Bool.false_or]
    · rw [heq] at halloc
      cases halloc
  | allocFail halloc =>
    rcases alloc_cases s with ⟨pa, i, s1, heq, -⟩ | ⟨heq, -⟩
    · rw [heq] at halloc
      cases halloc
    · rw [heq] at halloc
      cases halloc
      exact h
  | @allocN _ _ _ n pa halloc =>
    rcases Nat.eq_zero_or_pos n with rfl | hn
    · cases halloc
    · rcases allocN_cases s hn with ⟨start, heq, hlow⟩ | ⟨heq, -⟩
      · rw [heq] at halloc
        cases halloc
        have hmark := markedRun_foldl n h.valid hlow.1
        refine h.cons hmark.valid ?_ ?_ hlow.1 fun j _ => hmark.bmGet_eq j
        · rw [hmark.pmm_eq]
        · rw [hmark.pmm_eq]
      · rw [heq] at halloc
        cases halloc
  | @allocNFail _ _ _ n e halloc =>
    rcases Nat.eq_zero_or_pos n with rfl | hn
    · cases halloc
      exact h
    · rcases allocN_cases s hn with ⟨start, heq, -⟩ | ⟨heq, -⟩
      · rw [heq] at halloc
        cases halloc
      · rw [heq] at halloc
        cases halloc
        exact h
  | free hk => exact h.free hk
  | @write _ _ mem hmem =>
    refine ⟨h.valid.of_eqOn rfl hmem, fun r hr => ?_, h.disjoint⟩
    obtain ⟨i, hpa, hle, hset⟩ := h.backed r hr
    refine ⟨i, hpa, hle, fun k hk => ?_⟩
    have hsame : bmGet { s with mem } (i + k) = bmGet s (i + k) :=
      bmGet_congr rfl hmem (by omega)
    rw [hsame, hset k hk]

lemma Inv.of_run {c c' : Mm × List FrameRange} (h : Inv c.1 c.2)
    (hrun : Relation.ReflTransGen Step c c') : Inv c'.1 c'.2 := by
  induction hrun with
  | refl => exact h
  | tail _ hstep ih => exact ih.step hstep

lemma Inv.correct (h : Inv s out) : Correct s out where
  freePages_eq := h.valid.free_eq
  disjoint := h.disjoint
  aligned := by
    intro r hr
    obtain ⟨i, hpa, -⟩ := h.backed r hr
    rw [hpa, idxToPa, add_mul_mod_self_right]
    exact h.valid.base_aligned
  inside := by
    intro r hr x hx
    obtain ⟨i, hpa, hle, -⟩ := h.backed r hr
    obtain ⟨hlo, hhi⟩ := hx
    rw [hpa] at hlo hhi
    simp only [idxToPa, pageSize] at hlo hhi
    simp only [pageSize]
    constructor <;> omega
  alloc_noMem_iff := by
    rcases alloc_cases s with ⟨pa, i, s', heq, hpage⟩ | ⟨heq, hfull⟩
    · refine ⟨fun ⟨s1, h1⟩ => ?_, fun hfull => ?_⟩
      · rw [heq] at h1
        cases h1
      · exact Bool.noConfusion (hpage.clear.symm.trans (hfull i hpage.lt))
    · exact ⟨fun _ => hfull, fun _ => ⟨s, heq⟩⟩
  alloc_ok_iff := by
    rcases alloc_cases s with ⟨pa, i, s', heq, hpage⟩ | ⟨heq, hfull⟩
    · exact ⟨fun _ => ⟨i, hpage.lt, hpage.clear⟩, fun _ => ⟨pa, s', heq⟩⟩
    · refine ⟨fun ⟨pa, s', h'⟩ => ?_, fun ⟨i, hi, hclear⟩ => ?_⟩
      · rw [heq] at h'
        cases h'
      · exact Bool.noConfusion (hclear.symm.trans (hfull i hi))
  allocN_ok_iff := by
    intro n hn
    rcases allocN_cases s hn with ⟨start, heq, hlow⟩ | ⟨heq, hnone⟩
    · exact ⟨fun _ => ⟨start, hlow.1⟩, fun _ => ⟨_, _, heq⟩⟩
    · refine ⟨fun ⟨pa, s', h'⟩ => ?_, fun ⟨start, hrun⟩ => (hnone start hrun).elim⟩
      rw [heq] at h'
      cases h'
  allocN_lowest := by
    intro n pa s' hn hok
    rcases allocN_cases s hn with ⟨start, heq, hlow⟩ | ⟨heq, -⟩
    · rw [heq] at hok
      cases hok
      exact ⟨start, rfl, hlow⟩
    · rw [heq] at hok
      cases hok
  free_frame := by
    intro r hr k hk
    obtain ⟨i, hi, hframe, hset⟩ := (h.backed r hr).frame_eq hk
    refine ⟨i, hi, hframe, hset, fun j => ?_⟩
    rw [hframe, free_idxToPa hi hset, bmGet_bmClr]

/-- The allocator is correct in every state that is reached from `pmm::init` with at least two
managed pages. -/
theorem pmm_correct_of_run {kernelEnd dramBase dramSize : ℕ} {s₀ s : Mm} {out : List FrameRange}
    (hpages : 2 ≤ managedPages kernelEnd dramBase dramSize)
    (hrun : Relation.ReflTransGen Step (init kernelEnd dramBase dramSize s₀, []) (s, out)) :
    Correct s out := by
  have hinit : Inv (init kernelEnd dramBase dramSize s₀) [] :=
    ⟨valid_init s₀ hpages, fun r hr => (not_mem_nil hr).elim, List.Pairwise.nil⟩
  exact (hinit.of_run hrun).correct

/-- On a machine with three managed pages, one of them taken by the bitmap and one marked by `init`,
the allocator is correct after a first call of `alloc`. -/
theorem pmm_correct_of_first_alloc :
    ∃ pa s, alloc (init 0x80000000 0x80000000 0x403000 ⟨fun _ => 0, ⟨0, 0, 0, 0, fun _ => 0⟩,
      ⟨0, 0⟩⟩) = .ok pa s ∧ Correct s [⟨pa, 1⟩] := by
  rcases alloc_cases (init 0x80000000 0x80000000 0x403000 ⟨fun _ => 0, ⟨0, 0, 0, 0, fun _ => 0⟩,
    ⟨0, 0⟩⟩) with ⟨pa, i, s, heq, -⟩ | ⟨-, hfull⟩
  · exact ⟨pa, s, heq, pmm_correct_of_run (by decide) (.single (.alloc heq))⟩
  · have hbit := hfull 1 (by decide)
    exact absurd hbit (by decide)

end Pmm.Run

end OnyxKernel
