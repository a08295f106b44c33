import OnyxKernel.Mm.Heap

/-!
# Heap blocks

`Heap.Rep m start l` says that the memory holds the list `l` of blocks: they tile the heap from
`start` on, their headers have the sizes and marks of `l`, and they are linked in both directions.
The three edits of the heap are edits of this list: `Rep.split` cuts a block in two, `Rep.setFree`
changes the mark of a block, and `Rep.absorb` merges a block with the one behind it.
-/

namespace OnyxKernel.Heap

open ByteMemory Memory

open Block

variable {m m' : Memory} {a b x n start : ℕ} {y : ℕ} {f : Bool}

/-! ### Headers -/

/-- The fields of a header. -/
structure Header where
  size : ℕ
  free : Bool
  next : ℕ
  prev : ℕ

/-- The header at an address. -/
def header (m : Memory) (blk : ℕ) : Header := ⟨size m blk, free m blk, next m blk, prev m blk⟩

lemma header_fields {k : Header} (h : header m x = k) :
    size m x = k.size ∧ free m x = k.free ∧ next m x = k.next ∧ prev m x = k.prev := by
  subst h
  exact ⟨rfl, rfl, rfl, rfl⟩

/-- Two headers are the same or do not overlap. -/
def Apart (x a : ℕ) : Prop := x = a ∨ x + hdrSize ≤ a ∨ a + hdrSize ≤ x

lemma header_congr (h : Set.EqOn m' m (Set.Ico x (x + hdrSize))) : header m' x = header m x := by
  have hload : ∀ o w, o + w ≤ 32 → m'.load (x + o) w = m.load (x + o) w := by
    intro o w how
    refine load_congr (h.mono (Set.Ico_subset_Ico (Nat.le_add_right _ _) ?_))
    rw [Nat.add_assoc]
    exact Nat.add_le_add_left how _
  have hbyte : m' (x + 8) = m (x + 8) :=
    h ⟨Nat.le_add_right _ _, Nat.add_lt_add_left (by decide) _⟩
  have hsize : size m' x = size m x := hload 0 8 (by decide)
  have hfree : free m' x = free m x := by
    unfold free
    rw [hbyte]
  have hnext : next m' x = next m x := hload 16 8 (by decide)
  have hprev : prev m' x = prev m x := hload 24 8 (by decide)
  rw [header, header, hsize, hfree, hnext, hprev]

/-- The edit from `m` to `m'` gives the block at `a` the header `k` and keeps the headers apart from it. -/
def Sets (m m' : Memory) (a : ℕ) (k : Header) : Prop :=
  ∀ ⦃x⦄, Apart x a → header m' x = if x = a then k else header m x

namespace Sets

variable {m1 : Memory} {k k' : Header}

lemma of_header (h : ∀ y, y ∉ Set.Ico a (a + hdrSize) → m' y = m y) (hk : header m' a = k) : Sets m m' a k := by
  intro x hx
  split_ifs with hxa
  · rw [hxa, hk]
  · refine header_congr fun y hy => h y fun hin => ?_
    have hapart := hx.resolve_left hxa
    obtain ⟨hlo, hhi⟩ := hy
    obtain ⟨hlo', hhi'⟩ := hin
    omega

lemma self (h : Sets m m' a k) : header m' a = k := (h (.inl rfl)).trans (if_pos rfl)

lemma of_ne (h : Sets m m' a k) (hx : Apart x a) (hne : x ≠ a) : header m' x = header m x :=
  (h hx).trans (if_neg hne)

lemma trans (h : Sets m m1 a k) (h' : Sets m1 m' a k') : Sets m m' a k' := by
  intro x hx
  rw [h' hx]
  split_ifs with hxa
  · rfl
  · exact h.of_ne hx hxa

end Sets

private lemma store_field {o : ℕ} (ho : o + 8 ≤ 8 ∨ 16 ≤ o ∧ o ≤ 24) :
    (∀ y, y ∉ Set.Ico a (a + hdrSize) → m.store (a + o) 8 n y = m y) ∧ free (m.store (a + o) 8 n) a = free m a := by
  refine ⟨fun y hy => store_apply_of_notMem ?_, ?_⟩
  · rintro ⟨hlo, hhi⟩
    refine hy ⟨?_, ?_⟩
    · omega
    · unfold hdrSize
      omega
  · unfold free
    rw [store_apply_of_notMem]
    rintro ⟨hlo, hhi⟩
    omega

section

variable (m : Memory) (a : ℕ) (hn : n < wordSize)
include hn

lemma sets_setSize : Sets m (setSize m a n) a { header m a with size := n } := by
  obtain ⟨hout, hfree⟩ := store_field (m := m) (a := a) (n := n) (o := 0) (by omega)
  refine .of_header hout ?_
  unfold header size next prev setSize
  rw [load_store_same hn, load_store_of_disjoint (by omega), load_store_of_disjoint (by omega)]
  exact congrArg (Header.mk n · _ _) hfree

lemma sets_setNext : Sets m (setNext m a n) a { header m a with next := n } := by
  obtain ⟨hout, hfree⟩ := store_field (m := m) (a := a) (n := n) (o := 16) (by omega)
  refine .of_header hout ?_
  unfold header size next prev setNext
  rw [load_store_same hn, load_store_of_disjoint (by omega), load_store_of_disjoint (by omega), hfree]

lemma sets_setPrev : Sets m (setPrev m a n) a { header m a with prev := n } := by
  obtain ⟨hout, hfree⟩ := store_field (m := m) (a := a) (n := n) (o := 24) (by omega)
  refine .of_header hout ?_
  unfold header size next prev setPrev
  rw [load_store_same hn, load_store_of_disjoint (by omega), load_store_of_disjoint (by omega), hfree]

end

lemma sets_setFree (m : Memory) (a : ℕ) (f : Bool) : Sets m (setFree m a f) a { header m a with free := f } := by
  refine .of_header (fun y hy => setByte_apply_of_ne ?_) ?_
  · have hy' : ¬ (a ≤ y ∧ y < a + 32) := hy
    omega
  · have hload : ∀ o, o + 8 ≤ 8 ∨ 16 ≤ o → (setFree m a f).load (a + o) 8 = m.load (a + o) 8 := by
      intro o ho
      refine load_congr fun y hy => setByte_apply_of_ne ?_
      have hlo := hy.1
      have hhi := hy.2
      omega
    have hfree : free (setFree m a f) a = f := by
      unfold free setFree
      rw [setByte_apply_self]
      cases f <;> rfl
    rw [header, hfree]
    unfold size next prev
    rw [hload 16 (by omega), hload 24 (by omega)]
    exact congrArg (Header.mk · f _ _) (hload 0 (by omega))

/-! ### Headers after an edit -/

lemma header_relink {q : ℕ} (hn : n < wordSize) (hxq : q ≠ 0 → Apart x q) :
    header (if q ≠ 0 then setPrev m q n else m) x =
      if q ≠ 0 ∧ x = q then { header m x with prev := n } else header m x := by
  by_cases hq0 : q ≠ 0
  · rw [if_pos hq0, sets_setPrev m q hn (hxq hq0)]
    by_cases hx : x = q
    · rw [if_pos hx, if_pos ⟨hq0, hx⟩, hx]
    · rw [if_neg hx, if_neg fun h => hx h.2]
  · rw [if_neg hq0, if_neg fun h => hq0 h.1]

lemma fields_of_relink {q : ℕ} (hx : x ≠ 0)
    (h : header m' x = if q ≠ 0 ∧ x = q then { header m x with prev := n } else header m x) :
    size m' x = size m x ∧ free m' x = free m x ∧ next m' x = next m x ∧
      prev m' x = if x = q then n else prev m x := by
  by_cases hq : x = q
  · rw [if_pos ⟨hq ▸ hx, hq⟩] at h
    rw [if_pos hq]
    exact header_fields h
  · rw [if_neg fun hand => hq hand.2] at h
    rw [if_neg hq]
    exact header_fields h

lemma header_split {needed : ℕ} (hr : a + hdrSize + needed < wordSize)
    (hq : next m a ≠ 0 → a + hdrSize + needed + hdrSize ≤ next m a) (hxa : Apart x a)
    (hxr : Apart x (a + hdrSize + needed)) (hxq : next m a ≠ 0 → Apart x (next m a)) :
    header (split m a needed) x =
      if x = a then ⟨needed, free m a, a + hdrSize + needed, prev m a⟩
      else if x = a + hdrSize + needed then ⟨size m a - needed - hdrSize, true, next m a, a⟩
      else if next m a ≠ 0 ∧ x = next m a then { header m x with prev := a + hdrSize + needed }
      else header m x := by
  generalize hrest : a + hdrSize + needed = r at *
  have hra : r ≠ a := by
    unfold hdrSize at hrest
    omega
  have har : Apart a r := by
    unfold Apart
    omega
  have hsz : size m a - needed - hdrSize < wordSize := by
    have hlt : size m a < wordSize := load_lt m a 8
    omega
  have hnx : next m a < wordSize := load_lt m (a + 16) 8
  -- the header of the new block
  generalize hm1 : setFree (setSize m r (size m a - needed - hdrSize)) r true = m1
  have hs1 : Sets m m1 r { header m r with size := size m a - needed - hdrSize, free := true } := by
    have hsize := sets_setSize m r hsz
    have hfree := sets_setFree (setSize m r (size m a - needed - hdrSize)) r true
    rw [hsize.self, hm1] at hfree
    exact hsize.trans hfree
  have hnext1 : next m1 a = next m a := (header_fields (hs1.of_ne har hra.symm)).2.2.1
  generalize hm2 : setPrev (setNext m1 r (next m a)) r a = m2
  have hs2 : Sets m m2 r ⟨size m a - needed - hdrSize, true, next m a, a⟩ := by
    have hnext := sets_setNext m1 r hnx
    have hprev := sets_setPrev (setNext m1 r (next m a)) r (by omega : a < wordSize)
    rw [hnext.self, hs1.self, hm2] at hprev
    exact hs1.trans (hnext.trans hprev)
  have hkeep2 := hs2.of_ne har hra.symm
  have hnext2 : next m2 a = next m a := (header_fields hkeep2).2.2.1
  -- the block behind it
  generalize hm3 : (if next m a ≠ 0 then setPrev m2 (next m a) r else m2) = m3
  have hkeep3 : header m3 a = header m a := by
    have hqa : next m a ≠ 0 → Apart a (next m a) := by
      unfold Apart
      omega
    rw [← hm3, header_relink hr hqa, if_neg (by omega), hkeep2]
  have hsplit : split m a needed = setSize (setNext m3 a r) a needed := by
    unfold split
    simp only [hrest, hm1, hnext1, hm2, hnext2, hm3]
  have hs4 : Sets m3 (split m a needed) a ⟨needed, free m a, r, prev m a⟩ := by
    have hnext := sets_setNext m3 a hr
    have hsize := sets_setSize (setNext m3 a r) a (by omega : needed < wordSize)
    rw [hnext.self, hkeep3, ← hsplit] at hsize
    exact hnext.trans hsize
  rw [hs4 hxa, ← hm3, header_relink hr hxq, hs2 hxr]
  by_cases hx : x = a
  · rw [if_pos hx, if_pos hx]
  · by_cases hxr' : x = r
    · have hnot : ¬(next m a ≠ 0 ∧ x = next m a) := by
        rintro ⟨hq0, heq⟩
        have := hq hq0
        unfold hdrSize at this
        omega
      rw [if_neg hnot, if_neg hx, if_neg hx, if_pos hxr', if_pos hxr']
    · rw [if_neg hx, if_neg hx, if_neg hxr', if_neg hxr']

lemma header_absorb (hab : a + hdrSize ≤ b) (hsize : size m a + (hdrSize + size m b) < wordSize)
    (haw : a < wordSize) (hq : next m b ≠ 0 → b + hdrSize ≤ next m b) (hxa : Apart x a)
    (hxq : next m b ≠ 0 → Apart x (next m b)) :
    header (absorb m a b) x =
      if x = a then ⟨size m a + (hdrSize + size m b), free m a, next m b, prev m a⟩
      else if next m b ≠ 0 ∧ x = next m b then { header m x with prev := a }
      else header m x := by
  have hba : Apart b a := .inr (.inr hab)
  have hbne : b ≠ a := by
    unfold hdrSize at hab
    omega
  have hnx : next m b < wordSize := load_lt m (b + 16) 8
  generalize hm1 : setSize m a (size m a + (hdrSize + size m b)) = m1
  have hs1 : Sets m m1 a { header m a with size := size m a + (hdrSize + size m b) } := hm1 ▸ sets_setSize m a hsize
  have hnext1 : next m1 b = next m b := (header_fields (hs1.of_ne hba hbne)).2.2.1
  generalize hm2 : setNext m1 a (next m b) = m2
  have hs2 : Sets m m2 a ⟨size m a + (hdrSize + size m b), free m a, next m b, prev m a⟩ := by
    have hnext := sets_setNext m1 a hnx
    rw [hs1.self, hm2] at hnext
    exact hs1.trans hnext
  have hnext2 : next m2 a = next m b := (header_fields hs2.self).2.2.1
  have habsorb : absorb m a b = if next m b ≠ 0 then setPrev m2 (next m b) a else m2 := by
    unfold absorb
    simp only [hm1, hnext1, hm2, hnext2]
  rw [habsorb, header_relink haw hxq, hs2 hxa]
  by_cases hx : x = a
  · rw [if_neg (by omega), if_pos hx, if_pos hx]
  · rw [if_neg hx, if_neg hx]

end OnyxKernel.Heap
