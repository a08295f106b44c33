import OnyxKernel.Mm.PageTableFormat
import OnyxKernel.Mm.PmmSpec

/-!
# Specifications of the page-table functions

`IsTree s h T` says that the memory of `s` holds a page table of height `h` at `T`: its tables are
pairwise distinct, allocated pages, and it maps to physical addresses.  A walk that creates missing
tables may add freshly allocated tables to the tree and divide leaves, but it keeps the meaning of the
tree: this is `Grown`, which holds after every walk, whether it succeeds or runs out of memory.
-/

namespace OnyxKernel

open ByteMemory RadixTree Multiset Format Nat Pmm

/-! ### Taking pages from the allocator -/

namespace Pmm

variable {s s' s'' : Mm} {i j pa f : ℕ} {fresh fresh' : Multiset ℕ}

/-- The page at `f` is a managed page that is marked as allocated. -/
def Allocated (s : Mm) (f : ℕ) : Prop :=
  ∃ i < s.pmm.totalPages, f = idxToPa s i ∧ bmGet s i = true

/-- The managed pages lie in the physical address space of Sv39, which has 56 bits. -/
def Physical (s : Mm) : Prop := s.pmm.base + s.pmm.totalPages * pageSize ≤ 2 ^ 56

/-- The number of bits in the bytes of the bitmap; the last ones may not belong to a page. -/
def bitCount (s : Mm) : ℕ := 8 * ((s.pmm.totalPages + 7) / 8)

lemma lt_bitCount (hi : i < s.pmm.totalPages) : i < bitCount s := by
  unfold bitCount
  omega

lemma bmGet_eqOn (hb : s'.pmm.bitmap = s.pmm.bitmap)
    (hm : Set.EqOn s'.mem s.mem (bitmapRegion s)) (hj : j < bitCount s) : bmGet s' j = bmGet s j := by
  have hdiv : j / 8 < (s.pmm.totalPages + 7) / 8 := by
    unfold bitCount at hj
    omega
  have hmem : s.pmm.bitmap + j / 8 ∈ bitmapRegion s :=
    ⟨Nat.le_add_right _ _, Nat.add_lt_add_left hdiv _⟩
  unfold bmGet
  rw [hb]
  exact Bitmap.test_congr (hm hmem)

/-- From `s` to `s'` the allocator has handed out the pages `fresh`. -/
structure Took (s s' : Mm) (fresh : Multiset ℕ) : Prop where
  base_eq : s'.pmm.base = s.pmm.base
  total_eq : s'.pmm.totalPages = s.pmm.totalPages
  bitmap_eq : s'.pmm.bitmap = s.pmm.bitmap
  valid : Valid s'
  nodup : fresh.Nodup
  /-- The pages were free. -/
  clear : ∀ f ∈ fresh, ∃ i < s.pmm.totalPages, f = idxToPa s i ∧ bmGet s i = false
  /-- Exactly their bits have been set. -/
  bits : ∀ j < bitCount s, (bmGet s' j = true ↔ bmGet s j = true ∨ idxToPa s j ∈ fresh)
  /-- They are counted. -/
  free_add : s'.pmm.freePages + fresh.card = s.pmm.freePages

/-- Every managed page is taken. -/
def Full (s : Mm) : Prop := ∀ i < s.pmm.totalPages, bmGet s i = true

lemma Full.freePages_eq (hf : Full s) (hv : Valid s) : s.pmm.freePages = 0 := by
  rw [hv.free_eq]
  exact Bitmap.clearCount_eq_zero_iff.mpr hf

lemma idxToPa_inj (h : idxToPa s i = idxToPa s j) : i = j := by
  unfold idxToPa pageSize at h
  omega

lemma idxToPa_congr (hbase : s'.pmm.base = s.pmm.base) (i : ℕ) : idxToPa s' i = idxToPa s i := by
  rw [idxToPa, idxToPa, hbase]

lemma Valid.idxToPa_mod (hv : Valid s) (i : ℕ) : idxToPa s i % pageSize = 0 := by
  rw [idxToPa, add_mul_mod_self_right]
  exact hv.base_aligned

lemma Valid.allocated_mod (hv : Valid s) (hf : Allocated s f) : f % pageSize = 0 := by
  obtain ⟨i, -, rfl, -⟩ := hf
  exact hv.idxToPa_mod i

lemma Physical.idxToPa_lt (hp : Physical s) (hi : i < s.pmm.totalPages) : idxToPa s i < 2 ^ 56 := by
  unfold Physical at hp
  unfold idxToPa
  unfold pageSize at *
  omega

lemma Physical.congr (hp : Physical s) (hbase : s'.pmm.base = s.pmm.base)
    (htotal : s'.pmm.totalPages = s.pmm.totalPages) : Physical s' := by
  unfold Physical at *
  rwa [hbase, htotal]

lemma Took.refl (hv : Valid s) : Took s s 0 where
  base_eq := rfl
  total_eq := rfl
  bitmap_eq := rfl
  valid := hv
  nodup := nodup_zero
  clear f hf := absurd hf (notMem_zero f)
  bits j _ := by simp
  free_add := by rw [card_zero, add_zero]

lemma AllocatedPage.freePages_pos (h : AllocatedPage s s' i pa) (hv : Valid s) : 1 ≤ s.pmm.freePages := by
  rw [one_le_iff_ne_zero, hv.free_eq]
  intro hzero
  have hset := Bitmap.clearCount_eq_zero_iff.mp hzero i h.lt
  rw [h.clear] at hset
  exact Bool.false_ne_true hset

lemma AllocatedPage.took (h : AllocatedPage s s' i pa) (hv : Valid s) : Took s s' {pa} where
  base_eq := by rw [h.pmm_eq]
  total_eq := by rw [h.pmm_eq]
  bitmap_eq := by rw [h.pmm_eq]
  valid := h.valid hv
  nodup := nodup_singleton pa
  clear f hf := by
    rw [mem_singleton] at hf
    exact ⟨i, h.lt, hf.trans h.pa_eq, h.clear⟩
  bits j hj := by
    have hb : s'.pmm.bitmap = (bmSet s i).pmm.bitmap := by
      rw [h.pmm_eq]
      rfl
    have hbit : bmGet s' j = bmGet (bmSet s i) j := bmGet_eqOn hb (h.eqOn_bitmap hv) hj
    rw [hbit, bmGet_bmSet, mem_singleton, h.pa_eq]
    by_cases hji : j = i
    · simp [hji]
    · have hne : idxToPa s j ≠ idxToPa s i := fun heq => hji (idxToPa_inj heq)
      simp [hji, hne]
  free_add := by
    rw [h.pmm_eq, card_singleton, wsub_of_le (h.freePages_pos hv)]
    exact Nat.sub_add_cancel (h.freePages_pos hv)

section

variable (h : Took s s' fresh)
include h

lemma Took.trans (h' : Took s' s'' fresh') : Took s s'' (fresh + fresh') where
  base_eq := h'.base_eq.trans h.base_eq
  total_eq := h'.total_eq.trans h.total_eq
  bitmap_eq := h'.bitmap_eq.trans h.bitmap_eq
  valid := h'.valid
  nodup := by
    refine nodup_add.mpr ⟨h.nodup, h'.nodup, disjoint_left.mpr ?_⟩
    intro f hf hf'
    -- a page taken first is marked when the second ones are taken
    obtain ⟨i, hi, rfl, -⟩ := h.clear f hf
    obtain ⟨j, hj, heq, hclear⟩ := h'.clear _ hf'
    rw [idxToPa_congr h.base_eq] at heq
    rw [← idxToPa_inj heq, Bool.eq_false_iff] at hclear
    exact hclear ((h.bits i (lt_bitCount hi)).mpr (.inr hf))
  clear f hf := by
    rcases mem_add.mp hf with hf | hf
    · exact h.clear f hf
    · obtain ⟨j, hj, heq, hclear⟩ := h'.clear f hf
      rw [h.total_eq] at hj
      refine ⟨j, hj, heq.trans (idxToPa_congr h.base_eq j), Bool.eq_false_iff.mpr fun hset => ?_⟩
      exact Bool.eq_false_iff.mp hclear ((h.bits j (lt_bitCount hj)).mpr (.inl hset))
  bits j hj := by
    have hj' : j < bitCount s' := by rwa [bitCount, h.total_eq]
    rw [h'.bits j hj', h.bits j hj, idxToPa_congr h.base_eq, mem_add, or_assoc]
  free_add := by
    rw [card_add, add_comm fresh.card, ← add_assoc, h'.free_add, h.free_add]

lemma Took.of_eqOn (hp : s''.pmm = s'.pmm)
    (hm : Set.EqOn s''.mem s'.mem (bitmapRegion s)) : Took s s'' fresh := by
  have hreg : bitmapRegion s' = bitmapRegion s := by
    rw [bitmapRegion, bitmapRegion, h.bitmap_eq, h.total_eq]
  rw [← hreg] at hm
  refine ⟨by rw [hp, h.base_eq], by rw [hp, h.total_eq], by rw [hp, h.bitmap_eq],
    h.valid.of_eqOn hp hm, h.nodup, h.clear, fun j hj => ?_, by rw [hp, h.free_add]⟩
  have hj' : j < bitCount s' := by rwa [bitCount, h.total_eq]
  rw [bmGet_eqOn (by rw [hp]) hm hj', h.bits j hj]

lemma Took.allocated (hf : Allocated s f) : Allocated s' f := by
  obtain ⟨i, hi, rfl, hset⟩ := hf
  refine ⟨i, by rwa [h.total_eq], (idxToPa_congr h.base_eq i).symm, ?_⟩
  exact (h.bits i (lt_bitCount hi)).mpr (.inl hset)

lemma Took.allocated_of_mem (hf : f ∈ fresh) : Allocated s' f := by
  obtain ⟨i, hi, rfl, -⟩ := h.clear f hf
  refine ⟨i, by rwa [h.total_eq], (idxToPa_congr h.base_eq i).symm, ?_⟩
  exact (h.bits i (lt_bitCount hi)).mpr (.inr hf)

lemma Took.notMem_of_allocated (hf : Allocated s f) : f ∉ fresh := by
  intro hmem
  obtain ⟨i, -, rfl, hset⟩ := hf
  obtain ⟨j, -, heq, hclear⟩ := h.clear _ hmem
  rw [idxToPa_inj heq, hclear] at hset
  exact Bool.false_ne_true hset

end

end Pmm

namespace Vmm

variable {s s' s'' : Mm} {h T C L d va : ℕ} {m m' : Memory} {fresh fresh' : Multiset ℕ}
  {key : ℕ → ℕ} {leaf leaf' : ℕ × ℕ} {own : ℕ → Multiset ℕ}

/-! ### Trees in the state -/

/-- The bytes of a collection of pages. -/
def pagesOf (pages : Multiset ℕ) : Set ℕ := {x | ∃ f ∈ pages, x ∈ sv39.page f}

/-- The memory of `s` holds a page table of height `h` at `T`. -/
structure IsTree (s : Mm) (h T : ℕ) : Prop where
  /-- The tables are pairwise distinct. -/
  nodup : (sv39.tables s.mem h T).Nodup
  /-- They are allocated. -/
  allocated : ∀ T' ∈ sv39.tables s.mem h T, Pmm.Allocated s T'
  /-- Every leaf maps a range of physical addresses. -/
  physical : ∀ key, (∀ l, key l < sv39.fanout) → ∀ leaf, sv39.lookup s.mem key h T = some leaf →
    pteAddr leaf.2 + 2 ^ levelShift leaf.1 ≤ 2 ^ 56

lemma IsTree.separated (ht : IsTree s h T) (hv : Pmm.Valid s) : sv39.Separated s.mem h T where
  nodup := ht.nodup
  aligned T' hT' := by
    rw [sv39_size]
    exact hv.allocated_mod (ht.allocated T' hT')

lemma tables_child_le {i : ℕ} (hi : i < sv39.fanout) (he : sv39.entry m T i = .table C) :
    sv39.tables m h C ≤ sv39.tables m (h + 1) T := by
  have hle := tablesEntry_le (m := m) (h := h) (T := T) hi
  rwa [he] at hle

lemma IsTree.child {i : ℕ} (ht : IsTree s (h + 1) T) (hi : i < sv39.fanout)
    (he : sv39.entry s.mem T i = .table C) : IsTree s h C := by
  have hle : sv39.tables s.mem h C ≤ sv39.tables s.mem (h + 1) T := tables_child_le hi he
  refine ⟨nodup_of_le hle ht.nodup, fun T' hT' => ht.allocated T' (mem_of_le hle hT'), ?_⟩
  intro key hkey leaf hleaf
  refine ht.physical (Function.update key h i) (update_lt hkey hi) leaf ?_
  rw [lookup_update he, hleaf]

lemma notMem_bitmapRegion (hv : Pmm.Valid s) {f x : ℕ} (hf : Pmm.Allocated s f)
    (hx : x ∈ sv39.page f) : x ∉ bitmapRegion s := by
  obtain ⟨i, -, rfl, -⟩ := hf
  rw [sv39_page] at hx
  exact Set.disjoint_left.mp (hv.disjoint_page i) hx

lemma page_disjoint {f f' x : ℕ} (hf : f % pageSize = 0) (hf' : f' % pageSize = 0) (hne : f ≠ f')
    (hx : x ∈ sv39.page f) : x ∉ sv39.page f' := by
  rw [← sv39_size] at hf hf'
  exact Set.disjoint_left.mp (disjoint_page hf hf' hne) hx

lemma eqOn_page_of_alloc {i pa f : ℕ} (ha : Pmm.AllocatedPage s s' i pa) (hv : Pmm.Valid s)
    (hf : Pmm.Allocated s f) : Set.EqOn s'.mem s.mem (sv39.page f) := by
  intro x hx
  refine ha.mem_of_notMem (notMem_bitmapRegion hv hf hx) fun hx' => ?_
  have hne : f ≠ pa := fun heq =>
    (ha.took hv).notMem_of_allocated hf (heq ▸ mem_singleton_self pa)
  have hpa : pa % pageSize = 0 := by
    rw [ha.pa_eq]
    exact hv.idxToPa_mod i
  refine page_disjoint (hv.allocated_mod hf) hpa hne hx ?_
  rw [sv39_page, ha.pa_eq]
  exact hx'

lemma IsTree.congr (ht : IsTree s h T)
    (hm : ∀ T' ∈ sv39.tables s.mem h T, Set.EqOn s'.mem s.mem (sv39.page T'))
    (hall : ∀ T' ∈ sv39.tables s.mem h T, Pmm.Allocated s' T') : IsTree s' h T := by
  have htables : sv39.tables s'.mem h T = sv39.tables s.mem h T := nodes_congr h T hm
  refine ⟨?_, ?_, fun key hkey leaf hleaf => ?_⟩
  · rw [htables]
    exact ht.nodup
  · rwa [htables]
  · rw [lookup_congr hkey h T hm] at hleaf
    exact ht.physical key hkey leaf hleaf

/-! ### Growing a tree -/

/-- The leaf `leaf'` is `leaf` or a part of it: it is not of a higher level, it has the same flags,
and its range does not end behind. -/
structure Within (leaf' leaf : ℕ × ℕ) : Prop where
  level_le : leaf'.1 ≤ leaf.1
  flags_eq : pteFlags leaf'.2 = pteFlags leaf.2
  end_le : pteAddr leaf'.2 + 2 ^ levelShift leaf'.1 ≤ pteAddr leaf.2 + 2 ^ levelShift leaf.1

lemma Within.refl (leaf : ℕ × ℕ) : Within leaf leaf := ⟨le_rfl, rfl, le_rfl⟩

lemma Within.trans {leaf'' : ℕ × ℕ} (h : Within leaf' leaf) (h' : Within leaf'' leaf') : Within leaf'' leaf :=
  ⟨h'.level_le.trans h.level_le, h'.flags_eq.trans h.flags_eq, h'.end_le.trans h.end_le⟩

/-- No leaf above level `L` that maps `va` owns anything, and neither do its parts. -/
def Unsplit (own : ℕ → Multiset ℕ) (m : Memory) (va L h T : ℕ) : Prop :=
  ∀ leaf, sv39.lookup m (vaKey va) h T = some leaf → L < leaf.1 →
    ∀ pte, pteFlags pte = pteFlags leaf.2 → own pte = 0

/-- From `s` to `s'`, tables have been added to the tree at `T`, on the way to the entry of `va` at
level `L`, without changing what it maps. -/
structure Grown (s s' : Mm) (h T : ℕ) (fresh : Multiset ℕ) (va L : ℕ) : Prop
    extends Pmm.Took s s' fresh where
  /-- The change stays inside the bitmap, the new tables and the tables of the tree. -/
  changes : ∀ x, s'.mem x ≠ s.mem x →
    x ∈ bitmapRegion s ∨ x ∈ pagesOf fresh ∨ x ∈ pagesOf (sv39.tables s.mem h T)
  /-- Every address is mapped as before. -/
  mapping_eq : ∀ a, mappingAt s'.mem h T a = mappingAt s.mem h T a
  /-- The leaves are the old ones or parts of them. -/
  within : ∀ key, (∀ l, key l < sv39.fanout) → ∀ leaf', sv39.lookup s'.mem key h T = some leaf' →
    ∃ leaf, sv39.lookup s.mem key h T = some leaf ∧ Within leaf' leaf
  /-- The new tables are in the tree. -/
  nodes_eq : ∀ own, Unsplit own s.mem va L h T → sv39.nodes own s'.mem h T = sv39.nodes own s.mem h T + fresh

namespace Grown

lemma refl (hv : Pmm.Valid s) (h T va L : ℕ) : Grown s s h T 0 va L where
  toTook := Pmm.Took.refl hv
  changes _ hx := absurd rfl hx
  mapping_eq _ := rfl
  within _ _ leaf hleaf := ⟨leaf, hleaf, Within.refl leaf⟩
  nodes_eq _ _ := (add_zero _).symm

section

variable (hg : Grown s s' h T fresh va L)
include hg

lemma tables_eq : sv39.tables s'.mem h T = sv39.tables s.mem h T + fresh :=
  hg.nodes_eq (fun _ => 0) fun _ _ _ _ _ => rfl

lemma isTree (ht : IsTree s h T) : IsTree s' h T where
  nodup := by
    rw [hg.tables_eq]
    refine nodup_add.mpr ⟨ht.nodup, hg.nodup, disjoint_left.mpr ?_⟩
    intro f hf
    exact hg.toTook.notMem_of_allocated (ht.allocated f hf)
  allocated T' hT' := by
    rw [hg.tables_eq] at hT'
    rcases mem_add.mp hT' with hT' | hT'
    · exact hg.toTook.allocated (ht.allocated T' hT')
    · exact hg.toTook.allocated_of_mem hT'
  physical key hkey leaf' hleaf' := by
    obtain ⟨leaf, hleaf, hw⟩ := hg.within key hkey leaf' hleaf'
    exact hw.end_le.trans (ht.physical key hkey leaf hleaf)

lemma unsplit (ho : Unsplit own s.mem va L h T) : Unsplit own s'.mem va L h T := by
  intro leaf' hleaf' hL pte hpte
  obtain ⟨leaf, hleaf, hw⟩ := hg.within _ (vaKey_lt va) leaf' hleaf'
  exact ho leaf hleaf (hL.trans_le hw.level_le) pte (hpte.trans hw.flags_eq)

lemma changes_trans (hchanges : ∀ x, s''.mem x ≠ s'.mem x →
      x ∈ bitmapRegion s' ∨ x ∈ pagesOf fresh' ∨ x ∈ pagesOf (sv39.tables s'.mem h T))
    (x : ℕ) (hx : s''.mem x ≠ s.mem x) :
    x ∈ bitmapRegion s ∨ x ∈ pagesOf (fresh + fresh') ∨ x ∈ pagesOf (sv39.tables s.mem h T) := by
  by_cases hx' : s'.mem x = s.mem x
  · have hreg : bitmapRegion s' = bitmapRegion s := by
      rw [bitmapRegion, bitmapRegion, hg.bitmap_eq, hg.total_eq]
    rcases hchanges x (by rwa [hx']) with hb | ⟨f, hf, hxf⟩ | ⟨T', hT', hxT⟩
    · exact .inl (hreg ▸ hb)
    · exact .inr (.inl ⟨f, mem_add.mpr (.inr hf), hxf⟩)
    · rw [hg.tables_eq] at hT'
      rcases mem_add.mp hT' with hT' | hT'
      · exact .inr (.inr ⟨T', hT', hxT⟩)
      · exact .inr (.inl ⟨T', mem_add.mpr (.inl hT'), hxT⟩)
  · rcases hg.changes x hx' with hb | ⟨f, hf, hxf⟩ | hT
    · exact .inl hb
    · exact .inr (.inl ⟨f, mem_add.mpr (.inl hf), hxf⟩)
    · exact .inr (.inr hT)

lemma trans (hg' : Grown s' s'' h T fresh' va L) : Grown s s'' h T (fresh + fresh') va L where
  toTook := hg.toTook.trans hg'.toTook
  changes := hg.changes_trans hg'.changes
  mapping_eq a := (hg'.mapping_eq a).trans (hg.mapping_eq a)
  within key hkey leaf'' hleaf'' := by
    obtain ⟨leaf', hleaf', hw'⟩ := hg'.within key hkey leaf'' hleaf''
    obtain ⟨leaf, hleaf, hw⟩ := hg.within key hkey leaf' hleaf'
    exact ⟨leaf, hleaf, hw.trans hw'⟩
  nodes_eq own ho := by
    rw [hg'.nodes_eq own (hg.unsplit ho), hg.nodes_eq own ho, add_assoc]

end

/-- A change that stays inside the bitmap, new pages and the tables below an entry is local to the
entry, and leaves the root alone. -/
theorem local_of_child {i : ℕ} (hg : Grown s s' h C fresh va L) (hv : Pmm.Valid s)
    (ht : IsTree s (h + 1) T) (hi : i < sv39.fanout) (he : sv39.entry s.mem T i = .table C) :
    sv39.Local s.mem s'.mem h T i ∧ sv39.entry s'.mem T i = .table C := by
  have hsep := ht.separated hv
  have hout : ∀ x, x ∈ bitmapRegion s ∨ x ∈ pagesOf fresh →
      ∀ T' ∈ sv39.tables s.mem (h + 1) T, x ∉ sv39.page T' := by
    rintro x (hb | ⟨f, hf, hxf⟩) T' hT' hxT
    · exact notMem_bitmapRegion hv (ht.allocated T' hT') hxT hb
    · obtain ⟨j, -, hfj, -⟩ := hg.clear f hf
      have hne : T' ≠ f := fun heq =>
        hg.toTook.notMem_of_allocated (ht.allocated T' hT') (heq ▸ hf)
      refine page_disjoint (hv.allocated_mod (ht.allocated T' hT')) ?_ hne hxT hxf
      rw [hfj]
      exact hv.idxToPa_mod j
  constructor
  · refine hsep.local_of_changes hi fun x hx => ?_
    rcases hg.changes x hx with hb | hf | ⟨T', hT', hxT⟩
    · exact .inr (.inr (hout x (.inl hb)))
    · exact .inr (.inr (hout x (.inr hf)))
    · refine .inr (.inl ⟨T', ?_, hxT⟩)
      rwa [he]
  · rw [← he]
    have hroot := root_mem_tables (F := sv39) s.mem h T
    refine entry_congr hi fun x hx => ?_
    by_contra hne
    rcases hg.changes x hne with hb | hf | ⟨T', hT', hxT⟩
    · exact hout x (.inl hb) T hroot hx
    · exact hout x (.inr hf) T hroot hx
    · have hmem : T' ∈ sv39.tablesEntry s.mem h (sv39.entry s.mem T i) := by rwa [he]
      have hneT : T ≠ T' := fun heq => hsep.root_notMem hi (heq ▸ hmem)
      refine page_disjoint (hv.allocated_mod (ht.allocated T hroot)) ?_ hneT hx hxT
      exact hv.allocated_mod (ht.allocated T' (mem_of_le (tables_child_le hi he) hT'))

lemma parent (hg : Grown s s' h C fresh va L) (hv : Pmm.Valid s) (ht : IsTree s (h + 1) T)
    (he : sv39.entry s.mem T (levelIdx h va) = .table C) : Grown s s' (h + 1) T fresh va L := by
  have hi : levelIdx h va < sv39.fanout := vaKey_lt va h
  obtain ⟨hlocal, he'⟩ := hg.local_of_child hv ht hi he
  have hlookup : ∀ key : ℕ → ℕ, key h = levelIdx h va →
      sv39.lookup s.mem key (h + 1) T = sv39.lookup s.mem key h C := by
    intro key hkey
    rw [lookup_succ, hkey, he, lookupEntry_table]
  have hlookup' : ∀ key : ℕ → ℕ, (∀ l, key l < sv39.fanout) → sv39.lookup s'.mem key (h + 1) T =
        if key h = levelIdx h va then sv39.lookup s'.mem key h C
        else sv39.lookup s.mem key (h + 1) T := by
    intro key hkey
    rw [hlocal.lookup_eq hkey, he', lookupEntry_table]
  refine ⟨hg.toTook, fun x hx => ?_, fun a => ?_, fun key hkey leaf' hleaf' => ?_, fun own ho => ?_⟩
  · rcases hg.changes x hx with hb | hf | ⟨T', hT', hxT⟩
    · exact .inl hb
    · exact .inr (.inl hf)
    · exact .inr (.inr ⟨T', mem_of_le (tables_child_le hi he) hT', hxT⟩)
  · have hmap := hg.mapping_eq a
    unfold mappingAt at hmap ⊢
    rw [hlookup' _ (vaKey_lt a)]
    split_ifs with hkey
    · rw [hmap, hlookup _ hkey]
    · rfl
  · rw [hlookup' key hkey] at hleaf'
    split_ifs at hleaf' with htop
    · rw [hlookup key htop]
      exact hg.within key hkey leaf' hleaf'
    · exact ⟨leaf', hleaf', Within.refl leaf'⟩
  · have hchild : Unsplit own s.mem va L h C := fun leaf hleaf =>
      ho leaf ((hlookup (vaKey va) rfl).trans hleaf)
    have hadd := hlocal.nodes_add own hi
    rw [he, he', nodesEntry_table, nodesEntry_table, hg.nodes_eq own hchild, add_comm (sv39.nodes own s.mem h C) fresh, ← add_assoc] at hadd
    exact add_right_cancel hadd

end Grown

end Vmm

end OnyxKernel
