import OnyxKernel.Mm.SlabSpec

/-!
# The invariant of the slab allocator

`SlabRun.Inv` ties the headers of the slab pages, the lists of the classes and the bitmap of the
page allocator to the list of the live objects.  `Inv.slabAlloc_cases` and `Inv.slabFree_live` say
what `slab_alloc` and `slab_free` do to a state that satisfies it.
-/

namespace OnyxKernel

open ByteMemory Slab Pmm List Nat Set Chain

/-- An object of `slab_alloc(size)` at the address `ptr`. -/
structure SlabObj where
  ptr : ℕ
  size : ℕ

namespace SlabObj

/-- The size of the slot of an object. -/
def slotSize (o : SlabObj) : ℕ := (slabClassFor o.size).elim 0 slabSizes

/-- The addresses of the slot of an object. -/
def addrs (o : SlabObj) : Set ℕ := Set.Ico o.ptr (o.ptr + o.slotSize)

/-- The page of an object. -/
def page (o : SlabObj) : ℕ := o.ptr / pageSize * pageSize

end SlabObj

namespace SlabRun

/-! ### The invariant -/

/-- The part of the invariant of a run that also holds between freeing the last object of a page and
giving the page back; `lists` are the pages of the three classes. -/
structure Core (s : Mm) (live : List SlabObj) (lists : Fin 3 → List ℕ) : Prop where
  /-- The page allocator is valid. -/
  valid : Pmm.Valid s
  /-- The list of a class consists of its pages. -/
  chain : ∀ c, Chain.Rep (next s.mem) (s.pmm.slabHeads c) (lists c)
  /-- The pages have consistent headers. -/
  pageOk : ∀ c, ∀ page ∈ lists c, PageOk s.mem page c
  /-- The pages are managed pages marked as allocated. -/
  backed : ∀ c, ∀ page ∈ lists c, ∃ i < s.pmm.totalPages, page = idxToPa s i ∧ bmGet s i = true
  /-- A slot is taken exactly when there is a live object at its address. -/
  slot_iff : ∀ c, ∀ page ∈ lists c, ∀ slot < slabCapacity c,
    ((freeBits s.mem page).getLsbD slot = false ↔ ∃ o ∈ live, o.ptr = slotAddr page c slot)
  /-- Every live object sits in a slot of a page of its class. -/
  home : ∀ o ∈ live, ∃ c page slot, slabClassFor o.size = some c ∧ page ∈ lists c ∧
    slot < slabCapacity c ∧ o.ptr = slotAddr page c slot
  /-- No two objects have the same address. -/
  nodup : live.Pairwise fun o o' => o.ptr ≠ o'.ptr

/-- The invariant of a run. -/
structure Inv (s : Mm) (live : List SlabObj) (lists : Fin 3 → List ℕ) : Prop
    extends Core s live lists where
  /-- Every page has a taken slot. -/
  inUse : ∀ c, ∀ page ∈ lists c, ∃ slot < slabCapacity c, (freeBits s.mem page).getLsbD slot = false

variable {s s' : Mm} {live : List SlabObj} {lists : Fin 3 → List ℕ} {c : Fin 3} {page page' : ℕ}
  {m m' : Memory} {i slot size : ℕ} {c' : Fin 3} {before after : List SlabObj} {o : SlabObj}

/-! ### Pages -/

lemma idxToPa_aligned (hv : Pmm.Valid s) (i : ℕ) : idxToPa s i % pageSize = 0 := by
  rw [idxToPa, add_mul_mod_self_right]
  exact hv.base_aligned

lemma Core.page_aligned (h : Core s live lists) (hpage : page ∈ lists c) : page % pageSize = 0 := by
  obtain ⟨i, -, rfl, -⟩ := h.backed c page hpage
  exact idxToPa_aligned h.valid i

lemma page_disjoint (hpage : page % pageSize = 0) (hpage' : page' % pageSize = 0) (hne : page ≠ page') :
    Disjoint (Set.Ico page (page + pageSize)) (Set.Ico page' (page' + pageSize)) := by
  refine Memory.disjoint_Ico_of_le ?_
  unfold pageSize at *
  omega

lemma header_subset (page : ℕ) : Set.Ico page (page + sizeOfSlabHeader) ⊆ Set.Ico page (page + pageSize) :=
  Ico_subset_Ico_right (Nat.add_le_add_left (by decide) page)

/-- A memory that differs from another one in one page only agrees on the header of every other
page. -/
theorem eqOn_header_of_ne (hpage : page % pageSize = 0) (hpage' : page' % pageSize = 0) (hne : page' ≠ page)
    (hm : ∀ x, x ∉ Set.Ico page (page + pageSize) → m' x = m x) :
    EqOn m' m (Set.Ico page' (page' + sizeOfSlabHeader)) := fun x hx =>
  hm x fun hin => disjoint_left.mp (page_disjoint hpage hpage' hne.symm) hin
    (header_subset page' hx)

lemma eqOn_bitmap_of_page (hv : Pmm.Valid s) (hi : page = idxToPa s i)
    (hm : ∀ x, x ∉ Set.Ico page (page + pageSize) → m' x = m x) :
    EqOn m' m (bitmapRegion s) := by
  subst hi
  exact fun x hx => hm x fun hin => disjoint_left.mp (hv.disjoint_page i) hin hx

section

variable (h : Core s live lists)
include h

lemma Core.length_le (c : Fin 3) : (lists c).length ≤ s.pmm.totalPages := by
  have hsub : lists c ⊆ (range s.pmm.totalPages).map (idxToPa s) := by
    intro page hpage
    obtain ⟨i, hi, rfl, -⟩ := h.backed c page hpage
    exact mem_map.mpr ⟨i, mem_range.mpr hi, rfl⟩
  have hlen := (subperm_of_subset (h.chain c).nodup hsub).length_le
  rwa [length_map, length_range] at hlen

lemma Core.class_unique (hpage : page ∈ lists c) (hpage' : page ∈ lists c') : c = c' :=
  (h.pageOk c page hpage).class_unique (h.pageOk c' page hpage')

lemma Core.page_ne_zero (hpage : page ∈ lists c) : page ≠ 0 :=
  (h.chain c).ne_zero hpage

lemma Core.head_lt (c : Fin 3) : s.pmm.slabHeads c < wordSize := by
  have hchain := h.chain c
  cases hl : lists c with
  | nil =>
    rw [hl] at hchain
    rw [show s.pmm.slabHeads c = 0 from hchain]
    decide
  | cons page l =>
    obtain ⟨i, hi, hpa, -⟩ := h.backed c page (hl ▸ mem_cons_self)
    rw [hl] at hchain
    rw [show s.pmm.slabHeads c = page from hchain.1, hpa]
    have hend := h.valid.end_lt
    have hmul : (i + 1) * pageSize ≤ s.pmm.totalPages * pageSize := mul_le_mul_right _ hi
    rw [succ_mul] at hmul
    unfold idxToPa
    omega

lemma Core.page_eq_of_slotAddr_eq {slot' : ℕ}
    (hpage : page ∈ lists c) (hpage' : page' ∈ lists c') (hslot : slot < slabCapacity c)
    (hslot' : slot' < slabCapacity c') (heq : slotAddr page c slot = slotAddr page' c' slot') :
    page = page' := by
  rw [← page_slotAddr (h.page_aligned hpage) hslot, heq, page_slotAddr (h.page_aligned hpage') hslot']

end

/-! ### Writing one header -/

lemma Core.write_header (h : Core s live lists) (hpage : page ∈ lists c)
    (hok : PageOk m page c) (hm : ∀ x, x ∉ Set.Ico page (page + sizeOfSlabHeader) → m x = s.mem x) :
    Pmm.Valid { s with mem := m } ∧ (∀ j < s.pmm.totalPages, bmGet { s with mem := m } j = bmGet s j) ∧
      ∀ c', ∀ page' ∈ lists c', PageOk m page' c' ∧ (page' ≠ page →
        freeBits m page' = freeBits s.mem page' ∧ next m page' = next s.mem page') := by
  have hm' : ∀ x, x ∉ Set.Ico page (page + pageSize) → m x = s.mem x := fun x hx =>
    hm x fun hin => hx (header_subset page hin)
  obtain ⟨i, -, hi, -⟩ := h.backed c page hpage
  have hbitmap := eqOn_bitmap_of_page h.valid hi hm'
  refine ⟨h.valid.of_eqOn rfl hbitmap, fun j hj => bmGet_congr rfl hbitmap hj, ?_⟩
  intro c' page' hpage'
  by_cases hne : page' = page
  · subst hne
    rw [h.class_unique hpage' hpage]
    exact ⟨hok, fun hne => (hne rfl).elim⟩
  · have hheader := eqOn_header_of_ne (h.page_aligned hpage) (h.page_aligned hpage') hne hm'
    obtain ⟨hok', hbits, hnext⟩ := (h.pageOk c' page' hpage').congr hheader
    exact ⟨hok', fun _ => ⟨hbits, hnext⟩⟩

lemma Core.update_slots (h : Core s live lists) (hpage : page ∈ lists c)
    {live' : List SlabObj} (hok : PageOk m page c) (hnext : next m page = next s.mem page)
    (hm : ∀ x, x ∉ Set.Ico page (page + sizeOfSlabHeader) → m x = s.mem x)
    (hslots : ∀ slot < slabCapacity c, ((freeBits m page).getLsbD slot = false ↔
      ∃ o ∈ live', o.ptr = slotAddr page c slot))
    (hothers : ∀ c', ∀ page' ∈ lists c', page' ≠ page → ∀ slot < slabCapacity c',
      ((∃ o ∈ live', o.ptr = slotAddr page' c' slot) ↔ ∃ o ∈ live, o.ptr = slotAddr page' c' slot))
    (hhome : ∀ o ∈ live', ∃ c page slot, slabClassFor o.size = some c ∧ page ∈ lists c ∧
      slot < slabCapacity c ∧ o.ptr = slotAddr page c slot)
    (hnodup : live'.Pairwise fun o o' => o.ptr ≠ o'.ptr) :
    Core { s with mem := m } live' lists := by
  obtain ⟨hvalid, hbits, hpages⟩ := h.write_header hpage hok hm
  refine ⟨hvalid, fun c' => ?_, fun c' page' hpage' => (hpages c' page' hpage').1, ?_, ?_, hhome, hnodup⟩
  · refine (h.chain c').congr fun page' hpage' => ?_
    by_cases hne : page' = page
    · rwa [hne]
    · exact ((hpages c' page' hpage').2 hne).2
  · intro c' page' hpage'
    obtain ⟨i, hi, hpa, hset⟩ := h.backed c' page' hpage'
    exact ⟨i, hi, hpa, (hbits i hi).trans hset⟩
  · intro c' page' hpage' slot hslot
    by_cases hne : page' = page
    · subst hne
      obtain rfl := h.class_unique hpage' hpage
      exact hslots slot hslot
    · change (freeBits m page').getLsbD slot = false ↔ _
      rw [((hpages c' page' hpage').2 hne).1, hothers c' page' hpage' hne slot hslot]
      exact h.slot_iff c' page' hpage' slot hslot

lemma Core.frame (h : Core s live lists) (hvalid : Pmm.Valid s')
    (hpmm : s'.pmm = { s.pmm with freePages := s'.pmm.freePages })
    (hbits : ∀ c, ∀ page ∈ lists c, ∀ i < s.pmm.totalPages, page = idxToPa s i →
      bmGet s i = true → bmGet s' i = true)
    (hm : ∀ c, ∀ page ∈ lists c, EqOn s'.mem s.mem (Set.Ico page (page + sizeOfSlabHeader))) :
    Core s' live lists ∧ ∀ c, ∀ page ∈ lists c, freeBits s'.mem page = freeBits s.mem page := by
  have hsame := fun c page hpage => (h.pageOk c page hpage).congr (hm c page hpage)
  have hidx : ∀ i, idxToPa s' i = idxToPa s i := by
    intro i
    rw [idxToPa, idxToPa, hpmm]
  refine ⟨⟨hvalid, fun c => ?_, fun c page hpage => (hsame c page hpage).1, ?_, ?_, h.home,
    h.nodup⟩, fun c page hpage => (hsame c page hpage).2.1⟩
  · rw [hpmm]
    exact (h.chain c).congr fun page hpage => (hsame c page hpage).2.2
  · intro c page hpage
    obtain ⟨i, hi, hpa, hset⟩ := h.backed c page hpage
    refine ⟨i, ?_, hpa.trans (hidx i).symm, hbits c page hpage i hi hpa hset⟩
    rwa [hpmm]
  · intro c page hpage slot hslot
    rw [(hsame c page hpage).2.1]
    exact h.slot_iff c page hpage slot hslot

/-! ### Taking a slot -/

lemma Core.take (h : Core s live lists) (hpage : page ∈ lists c)
    (hslot : slot < slabCapacity c) (hfree : (freeBits s.mem page).getLsbD slot = true)
    (hclass : slabClassFor size = some c)
    (hinUse : ∀ c', ∀ page' ∈ lists c', page' ≠ page →
      ∃ slot < slabCapacity c', (freeBits s.mem page').getLsbD slot = false) :
    Inv { s with mem := takeSlot s.mem page slot } (⟨slotAddr page c slot, size⟩ :: live) lists := by
  obtain ⟨hok, hbit, hnext⟩ := (h.pageOk c page hpage).takeSlot hslot hfree
  have hm : ∀ x, x ∉ Set.Ico page (page + sizeOfSlabHeader) →
      takeSlot s.mem page slot x = s.mem x := fun x hx => takeSlot_apply_of_notMem hx
  -- no live object has the address of the free slot
  have hnew : ∀ o ∈ live, o.ptr ≠ slotAddr page c slot := by
    intro o ho heq
    have hused := (h.slot_iff c page hpage slot hslot).mpr ⟨o, ho, heq⟩
    exact Bool.noConfusion (hused.symm.trans hfree)
  refine ⟨h.update_slots hpage hok hnext hm ?_ ?_ ?_ ?_, fun c' page' hpage' => ?_⟩
  · intro slot' hslot'
    rw [hbit]
    by_cases hs : slot' = slot
    · rw [if_pos hs, hs]
      exact ⟨fun _ => ⟨_, mem_cons_self, rfl⟩, fun _ => rfl⟩
    · rw [if_neg hs, h.slot_iff c page hpage slot' hslot']
      refine ⟨fun ⟨o, ho, heq⟩ => ⟨o, mem_cons_of_mem _ ho, heq⟩, fun ⟨o, ho, heq⟩ => ?_⟩
      rcases mem_cons.mp ho with rfl | ho
      · exact (hs (slotAddr_inj heq).symm).elim
      · exact ⟨o, ho, heq⟩
  · intro c' page' hpage' hne slot' hslot'
    refine ⟨fun ⟨o, ho, heq⟩ => ?_, fun ⟨o, ho, heq⟩ => ⟨o, mem_cons_of_mem _ ho, heq⟩⟩
    rcases mem_cons.mp ho with rfl | ho
    · exact (hne (h.page_eq_of_slotAddr_eq hpage' hpage hslot' hslot heq.symm)).elim
    · exact ⟨o, ho, heq⟩
  · intro o ho
    rcases mem_cons.mp ho with rfl | ho
    · exact ⟨c, page, slot, hclass, hpage, hslot, rfl⟩
    · exact h.home o ho
  · exact pairwise_cons.mpr ⟨fun o ho => (hnew o ho).symm, h.nodup⟩
  · by_cases hne : page' = page
    · subst hne
      obtain rfl := h.class_unique hpage' hpage
      exact ⟨slot, hslot, by rw [hbit, if_pos rfl]⟩
    · obtain ⟨slot', hslot', hused⟩ := hinUse c' page' hpage' hne
      have hsame := (((h.write_header hpage hok hm).2.2 c' page' hpage').2 hne).1
      exact ⟨slot', hslot', (congrArg (fun b => b.getLsbD slot') hsame).trans hused⟩

/-! ### New pages -/

/-- The state with a new page of class `c`, all of its slots free. -/
def addPage (s : Mm) (page : ℕ) (c : Fin 3) : Mm :=
  { s with
    mem := newHeader s.mem page c (s.pmm.slabHeads c)
    pmm := { s.pmm with slabHeads := fun i => if i = c then page else s.pmm.slabHeads i } }

/-- An allocated page that no class uses becomes a page of class `c`. -/
theorem Core.addPage (h : Core s live lists) (hi : i < s.pmm.totalPages)
    (hpa : page = idxToPa s i) (hset : bmGet s i = true) (hnew : ∀ c, page ∉ lists c) :
    Core (addPage s page c) live (fun i => if i = c then page :: lists c else lists i) ∧
      (∀ c', ∀ page' ∈ lists c', freeBits (SlabRun.addPage s page c).mem page' = freeBits s.mem page') ∧
      ∀ j < s.pmm.totalPages, bmGet (SlabRun.addPage s page c) j = bmGet s j := by
  obtain ⟨hok, hbit, hnext⟩ := pageOk_newHeader s.mem page c (h.head_lt c)
  have halign : page % pageSize = 0 := hpa ▸ idxToPa_aligned h.valid i
  have hne0 : page ≠ 0 := by
    have hle := h.valid.bitmap_le
    rw [hpa]
    unfold idxToPa
    omega
  have hm : ∀ x, x ∉ Set.Ico page (page + pageSize) →
      newHeader s.mem page c (s.pmm.slabHeads c) x = s.mem x := fun x hx =>
    newHeader_apply_of_notMem fun hin => hx (header_subset page hin)
  have hbitmap := eqOn_bitmap_of_page h.valid hpa hm
  have hsame : ∀ c', ∀ page' ∈ lists c', PageOk (newHeader s.mem page c (s.pmm.slabHeads c)) page' c' ∧
      freeBits (newHeader s.mem page c (s.pmm.slabHeads c)) page' = freeBits s.mem page' ∧
      next (newHeader s.mem page c (s.pmm.slabHeads c)) page' = next s.mem page' := by
    intro c' page' hpage'
    have hne : page' ≠ page := fun heq => hnew c' (heq ▸ hpage')
    exact (h.pageOk c' page' hpage').congr
      (eqOn_header_of_ne halign (h.page_aligned hpage') hne hm)
  have hbits : ∀ j < s.pmm.totalPages, bmGet (SlabRun.addPage s page c) j = bmGet s j := fun j hj =>
    bmGet_congr rfl hbitmap hj
  -- membership in the new lists
  have hmem : ∀ c' page', page' ∈ (if c' = c then page :: lists c else lists c') →
      (c' = c ∧ page' = page) ∨ page' ∈ lists c' := by
    intro c' page' hpage'
    by_cases hc : c' = c
    · subst hc
      rw [if_pos rfl] at hpage'
      rcases mem_cons.mp hpage' with rfl | hpage'
      · exact .inl ⟨rfl, rfl⟩
      · exact .inr hpage'
    · rw [if_neg hc] at hpage'
      exact .inr hpage'
  refine ⟨⟨?_, fun c' => ?_, ?_, ?_, ?_, ?_, h.nodup⟩, fun c' page' hpage' =>
    (hsame c' page' hpage').2.1, hbits⟩
  · have hvalid : Pmm.Valid { s with mem := newHeader s.mem page c (s.pmm.slabHeads c) } :=
      h.valid.of_eqOn rfl hbitmap
    exact ⟨hvalid.base_aligned, hvalid.bitmap_le, hvalid.end_lt, hvalid.free_eq⟩
  · change Chain.Rep (next (newHeader s.mem page c (s.pmm.slabHeads c)))
      (if c' = c then page else s.pmm.slabHeads c') _
    by_cases hc : c' = c
    · subst hc
      rw [if_pos rfl, if_pos rfl]
      exact (h.chain c').cons hne0 hnext fun page' hpage' => (hsame c' page' hpage').2.2
    · rw [if_neg hc, if_neg hc]
      exact (h.chain c').congr fun page' hpage' => (hsame c' page' hpage').2.2
  · intro c' page' hpage'
    rcases hmem c' page' hpage' with ⟨rfl, rfl⟩ | hpage'
    · exact hok
    · exact (hsame c' page' hpage').1
  · intro c' page' hpage'
    rcases hmem c' page' hpage' with ⟨rfl, rfl⟩ | hpage'
    · exact ⟨i, hi, hpa, (hbits i hi).trans hset⟩
    · obtain ⟨j, hj, hpa', hset'⟩ := h.backed c' page' hpage'
      exact ⟨j, hj, hpa', (hbits j hj).trans hset'⟩
  · intro c' page' hpage' slot hslot
    change (freeBits (newHeader s.mem page c (s.pmm.slabHeads c)) page').getLsbD slot = false ↔ _
    rcases hmem c' page' hpage' with ⟨rfl, rfl⟩ | hpage'
    · -- the slots of the new page are free, and no object is in a page that no class uses
      rw [hbit, decide_eq_true hslot]
      refine ⟨fun hb => Bool.noConfusion hb, fun ⟨o, ho, heq⟩ => ?_⟩
      obtain ⟨c1, page1, slot1, -, hpage1, hslot1, heq1⟩ := h.home o ho
      have hpages : page1 = page' := by
        rw [← page_slotAddr (h.page_aligned hpage1) hslot1, ← heq1, heq, page_slotAddr halign hslot]
      exact (hnew c1 (hpages ▸ hpage1)).elim
    · rw [(hsame c' page' hpage').2.1]
      exact h.slot_iff c' page' hpage' slot hslot
  · intro o ho
    obtain ⟨c', page', slot, hclass, hpage', hslot, heq⟩ := h.home o ho
    refine ⟨c', page', slot, hclass, ?_, hslot, heq⟩
    by_cases hc : c' = c
    · subst hc
      rw [if_pos rfl]
      exact mem_cons_of_mem _ hpage'
    · rwa [if_neg hc]

lemma Core.notMem_of_clear (h : Core s live lists) (hclear : bmGet s i = false) : idxToPa s i ∉ lists c := by
  intro hpage
  obtain ⟨j, -, hpa, hset⟩ := h.backed c _ hpage
  have hij : i = j := by
    exact eq_of_mul_eq_mul_right (by decide) (add_left_cancel hpa)
  rw [← hij, hclear] at hset
  exact Bool.noConfusion hset

lemma Core.alloc (h : Core s live lists) (hpage : Pmm.AllocatedPage s s' i page) : Core s' live lists ∧
      ∀ c, ∀ page ∈ lists c, freeBits s'.mem page = freeBits s.mem page := by
  refine h.frame (hpage.valid h.valid) ?_ ?_ ?_
  · rw [hpage.pmm_eq]
  · intro c page' _ j hj _ hset
    rw [hpage.bmGet_eq h.valid hj, hset]
    exact ite_self _
  · intro c page' hpage' x hx
    obtain ⟨j, hj, hpa', hset⟩ := h.backed c page' hpage'
    have hx' : x ∈ pageRegion s j := by
      have := header_subset page' hx
      rwa [hpa'] at this
    refine hpage.mem_of_notMem (fun hb => ?_) fun hp => ?_
    · exact disjoint_left.mp (h.valid.disjoint_page j) hx' hb
    · have hne : idxToPa s j ≠ idxToPa s i := by
        intro heq
        exact h.notMem_of_clear hpage.clear (heq ▸ hpa' ▸ hpage')
      have halign := idxToPa_aligned h.valid
      exact disjoint_left.mp (page_disjoint (halign j) (halign i) hne) hx' hp

/-! ### Allocation -/

lemma slabClassFor_of_le (hle : size ≤ 1024) : ∃ c, slabClassFor size = some c ∧ size ≤ slabSizes c := by
  cases hfind : slabClassFor size with
  | none =>
    have hnone := find?_eq_none.mp hfind 2 (mem_finRange _)
    exact (hnone (decide_eq_true hle)).elim
  | some c =>
    have hsome := find?_some hfind
    exact ⟨c, rfl, of_decide_eq_true hsome⟩

/-- The outcomes of `slab_alloc`: an object, or nothing when no page is left.  No page is given
back. -/
theorem Inv.slabAlloc_cases (h : Inv s live lists) (hclass : slabClassFor size = some c) :
    ∃ r s', slabAlloc size s = some (r, s') ∧
      (∀ j < s.pmm.totalPages, bmGet s j = true → bmGet s' j = true) ∧
      ∃ lists', match r with
        | none => Inv s' live lists'
        | some ptr => Inv s' (⟨ptr, size⟩ :: live) lists' := by
  have hroom : ∀ c : Fin 3, ¬ pageSize - sizeOfSlabHeader < slabSizes c := by decide
  unfold slabAlloc
  rw [hclass]
  simp only [if_neg (hroom c)]
  rw [search_eq (h.chain c) (lt_succ_of_le (h.length_le c))]
  cases hfind : (lists c).findSome? (freeSlot s.mem) with
  | some r =>
    obtain ⟨page, hpage, hslot⟩ := exists_of_findSome?_eq_some hfind
    obtain ⟨hr, hlt, hfree⟩ := (h.pageOk c page hpage).freeSlot_eq_some hslot
    obtain ⟨page', slot⟩ := r
    obtain rfl : page' = page := hr
    have hinv := h.toCore.take hpage hlt hfree hclass fun c' page' hpage' _ =>
      h.inUse c' page' hpage'
    refine ⟨_, _, rfl, fun j hj hset => ?_, lists, hinv⟩
    obtain ⟨hok, -, -⟩ := (h.pageOk c page' hpage).takeSlot hlt hfree
    have hbits := (h.toCore.write_header hpage hok fun x hx => takeSlot_apply_of_notMem hx).2.1
    exact (hbits j hj).trans hset
  | none =>
    rcases alloc_cases s with ⟨page, i, s1, halloc, hpage⟩ | ⟨halloc, -⟩
    · rw [halloc]
      obtain ⟨hcore, hsame⟩ := h.toCore.alloc hpage
      have hnew : ∀ c, page ∉ lists c := fun c => hpage.pa_eq ▸ h.toCore.notMem_of_clear hpage.clear
      have hi : i < s1.pmm.totalPages := by
        rw [hpage.pmm_eq]
        exact hpage.lt
      have hpa : page = idxToPa s1 i := by
        rw [hpage.pa_eq, idxToPa, idxToPa, hpage.pmm_eq]
      have hset : bmGet s1 i = true := by
        rw [hpage.bmGet_eq h.valid hpage.lt, if_pos rfl]
      obtain ⟨hadd, hkeep, hbits⟩ := hcore.addPage (c := c) hi hpa hset hnew
      have hfree : (freeBits (addPage s1 page c).mem page).getLsbD 0 = true := by
        have hbit := (pageOk_newHeader s1.mem page c (hcore.head_lt c)).2.1 0
        rwa [decide_eq_true (slabCapacity_pos c)] at hbit
      have hmem : page ∈ (if c = c then page :: lists c else lists c) := by
        rw [if_pos rfl]
        exact mem_cons_self
      have hinv := hadd.take hmem (slabCapacity_pos c) hfree hclass fun c' page' hpage' hne => by
        have hold : page' ∈ lists c' := by
          by_cases hc : c' = c
          · subst hc
            rw [if_pos rfl] at hpage'
            exact (mem_cons.mp hpage').resolve_left hne
          · rwa [if_neg hc] at hpage'
        rw [hkeep c' page' hold, hsame c' page' hold]
        exact h.inUse c' page' hold
      have hptr : slotAddr page c 0 = page + sizeOfSlabHeader := by
        rw [slotAddr, zero_mul, add_zero]
      rw [hptr] at hinv
      refine ⟨_, _, rfl, fun j hj hset => ?_, _, hinv⟩
      obtain ⟨hok, -, -⟩ := (hadd.pageOk c page hmem).takeSlot (slabCapacity_pos c) hfree
      have hwrite := (hadd.write_header hmem hok fun x hx => takeSlot_apply_of_notMem hx).2.1
      have hj1 : j < s1.pmm.totalPages := by
        rwa [hpage.pmm_eq]
      refine (hwrite j hj1).trans ((hbits j hj1).trans ?_)
      rw [hpage.bmGet_eq h.valid hj, hset, ite_self]
    · rw [halloc]
      exact ⟨none, s, rfl, fun _ _ hset => hset, lists, h⟩

/-! ### Freeing an object -/

lemma Core.release (h : Core s (before ++ o :: after) lists) (hpage : page ∈ lists c)
    (hslot : slot < slabCapacity c) (hptr : o.ptr = slotAddr page c slot) :
    Core { s with mem := releaseSlot s.mem page slot } (before ++ after) lists := by
  have ho : o ∈ before ++ o :: after := mem_append_right _ mem_cons_self
  have hused := (h.slot_iff c page hpage slot hslot).mpr ⟨o, ho, hptr⟩
  obtain ⟨hok, hbit, hnext⟩ := (h.pageOk c page hpage).releaseSlot hslot hused
  have hiff : ∀ o', o' ∈ before ++ after ↔ o' ∈ before ++ o :: after ∧ o'.ptr ≠ o.ptr := fun _ =>
    mem_remove_iff h.nodup
  -- the addresses of the remaining objects
  have hexists : ∀ a, (∃ o' ∈ before ++ after, o'.ptr = a) ↔
      (∃ o' ∈ before ++ o :: after, o'.ptr = a) ∧ a ≠ o.ptr := by
    intro a
    constructor
    · rintro ⟨o', ho', rfl⟩
      exact ⟨⟨o', ((hiff o').mp ho').1, rfl⟩, ((hiff o').mp ho').2⟩
    · rintro ⟨⟨o', ho', rfl⟩, hne⟩
      exact ⟨o', (hiff o').mpr ⟨ho', hne⟩, rfl⟩
  refine h.update_slots hpage hok hnext (fun x hx => releaseSlot_apply_of_notMem hx) ?_ ?_ ?_ ?_
  · intro slot' hslot'
    rw [hbit, hexists]
    by_cases hs : slot' = slot
    · rw [if_pos hs, hs, hptr]
      exact ⟨fun hb => Bool.noConfusion hb, fun hb => (hb.2 rfl).elim⟩
    · rw [if_neg hs, h.slot_iff c page hpage slot' hslot']
      refine ⟨fun hb => ⟨hb, fun heq => hs (slotAddr_inj (heq.trans hptr))⟩, fun hb => hb.1⟩
  · intro c' page' hpage' hne slot' hslot'
    rw [hexists]
    refine ⟨fun hb => hb.1, fun hb => ⟨hb, fun heq => hne ?_⟩⟩
    exact h.page_eq_of_slotAddr_eq hpage' hpage hslot' hslot (heq.trans hptr)
  · intro o' ho'
    exact h.home o' ((hiff o').mp ho').1
  · refine h.nodup.sublist ?_
    exact (List.Sublist.refl before).append (sublist_cons_self o after)

section

variable (h : Core s live lists)
include h

lemma Core.of_unlinked (hpage : page ∈ lists c)
    (hfree : ∀ slot < slabCapacity c, (freeBits s.mem page).getLsbD slot = true)
    {lists' : Fin 3 → List ℕ} (hvalid : Pmm.Valid s') (hbase : s'.pmm.base = s.pmm.base)
    (htotal : s'.pmm.totalPages = s.pmm.totalPages)
    (hbits : ∀ j < s.pmm.totalPages, bmGet s' j = bmGet s j)
    (hsame : ∀ c', ∀ page' ∈ lists c', PageOk s'.mem page' c' ∧ freeBits s'.mem page' = freeBits s.mem page')
    (hmem : ∀ c' page', page' ∈ lists' c' ↔ page' ∈ lists c' ∧ page' ≠ page)
    (hchain : ∀ c', Chain.Rep (next s'.mem) (s'.pmm.slabHeads c') (lists' c')) :
    Core s' live lists' := by
  refine ⟨hvalid, hchain, ?_, ?_, ?_, ?_, h.nodup⟩
  · intro c' page' hpage'
    exact (hsame c' page' ((hmem c' page').mp hpage').1).1
  · intro c' page' hpage'
    obtain ⟨i, hi, hpa, hset⟩ := h.backed c' page' ((hmem c' page').mp hpage').1
    refine ⟨i, htotal ▸ hi, ?_, (hbits i hi).trans hset⟩
    rw [hpa, idxToPa, idxToPa, hbase]
  · intro c' page' hpage' slot hslot
    have hold := ((hmem c' page').mp hpage').1
    rw [(hsame c' page' hold).2]
    exact h.slot_iff c' page' hold slot hslot
  · intro o ho
    obtain ⟨c', page', slot, hclass, hpage', hslot, hptr⟩ := h.home o ho
    refine ⟨c', page', slot, hclass, (hmem c' page').mpr ⟨hpage', ?_⟩, hslot, hptr⟩
    -- the slots of the page are free, so the object is in another page
    rintro rfl
    obtain rfl := h.class_unique hpage' hpage
    have hused := (h.slot_iff c' page' hpage' slot hslot).mpr ⟨o, ho, hptr⟩
    exact Bool.noConfusion (hused.symm.trans (hfree slot hslot))

lemma Core.mem_lists_without {l1 l2 : List ℕ} (hl : lists c = l1 ++ page :: l2) (c' : Fin 3) (page' : ℕ) :
    page' ∈ (if c' = c then l1 ++ l2 else lists c') ↔ page' ∈ lists c' ∧ page' ≠ page := by
  have hpage : page ∈ lists c := hl ▸ mem_append_right _ mem_cons_self
  by_cases hc : c' = c
  · subst hc
    have hnodup := (h.chain c').nodup
    rw [hl] at hnodup
    rw [if_pos rfl, hl]
    exact mem_remove_iff (f := id) hnodup
  · rw [if_neg hc]
    exact ⟨fun hpage' => ⟨hpage', fun heq => hc (h.class_unique (heq ▸ hpage') hpage)⟩,
      fun hpage' => hpage'.1⟩

lemma Core.unlink (hpage : page ∈ lists c)
    (hfree : ∀ slot < slabCapacity c, (freeBits s.mem page).getLsbD slot = true) :
    ∃ s' lists', unlink c page s = some s' ∧ Core s' live lists' ∧
      (∀ c' page', page' ∈ lists' c' ↔ page' ∈ lists c' ∧ page' ≠ page) ∧
      (∀ c', ∀ page' ∈ lists c', freeBits s'.mem page' = freeBits s.mem page') ∧
      s'.pmm.base = s.pmm.base ∧ s'.pmm.totalPages = s.pmm.totalPages ∧
      ∀ j < s.pmm.totalPages, bmGet s' j = bmGet s j := by
  obtain ⟨l1, l2, hl⟩ := append_of_mem hpage
  have hchain := h.chain c
  rw [hl] at hchain
  have hlen : l1.length < s.pmm.totalPages + 1 := by
    have hle := h.length_le c
    rw [hl, length_append, length_cons] at hle
    omega
  have hfind : findPrev (next s.mem) page (s.pmm.totalPages + 1) (s.pmm.slabHeads c) 0 =
      some (some (l1.getLastD 0)) := findPrev_eq hchain hlen
  have hmem := h.mem_lists_without hl
  unfold Slab.unlink
  rw [hfind]
  rcases eq_nil_or_concat l1 with rfl | ⟨l, prev, rfl⟩
  · -- the page is the first one: the head of the list moves on
    have hsame : ∀ c', ∀ page' ∈ lists c',
        PageOk s.mem page' c' ∧ freeBits s.mem page' = freeBits s.mem page' :=
      fun c' page' hpage' => ⟨h.pageOk c' page' hpage', rfl⟩
    refine ⟨_, fun i => if i = c then [] ++ l2 else lists i, rfl,
      h.of_unlinked hpage hfree ?_ rfl rfl (fun _ _ => rfl) hsame hmem fun c' => ?_, hmem,
      fun _ _ _ => rfl, rfl, rfl, fun _ _ => rfl⟩
    · exact ⟨h.valid.base_aligned, h.valid.bitmap_le, h.valid.end_lt, h.valid.free_eq⟩
    · change Chain.Rep (next s.mem) (if c' = c then next s.mem page else s.pmm.slabHeads c') _
      by_cases hc : c' = c
      · subst hc
        rw [if_pos rfl, if_pos rfl]
        exact hchain.of_cons
      · rw [if_neg hc, if_neg hc]
        exact h.chain c'
  · -- the node before the page is made to point behind it
    have hprev : prev ∈ lists c := by
      rw [hl]
      simp
    have hprev0 := h.page_ne_zero hprev
    have hnode : next s.mem page < wordSize := Memory.load_lt s.mem (page + 24) 8
    obtain ⟨hok, hpbits, hpnext⟩ := (h.pageOk c prev hprev).setNext hnode
    obtain ⟨hvalid, hbits, hpages⟩ := h.write_header hprev hok fun x hx => setNext_apply_of_notMem hx
    have hsame : ∀ c', ∀ page' ∈ lists c', PageOk (setNext s.mem prev (next s.mem page)) page' c' ∧
          freeBits (setNext s.mem prev (next s.mem page)) page' = freeBits s.mem page' := by
      intro c' page' hpage'
      refine ⟨(hpages c' page' hpage').1, ?_⟩
      by_cases hne : page' = prev
      · rw [hne, hpbits]
      · exact ((hpages c' page' hpage').2 hne).1
    have hlast : (l ++ [prev]).getLastD 0 = prev := by simp
    simp only [concat_eq_append, hlast, if_neg hprev0]
    refine ⟨_, fun i => if i = c then l ++ [prev] ++ l2 else lists i, rfl,
      h.of_unlinked hpage hfree hvalid rfl rfl hbits hsame ?_ fun c' => ?_, ?_,
      fun c' page' hpage' => (hsame c' page' hpage').2, rfl, rfl, hbits⟩
    · simpa using hmem
    · change Chain.Rep (next (setNext s.mem prev (next s.mem page))) (s.pmm.slabHeads c') _
      by_cases hc : c' = c
      · subst hc
        simp only [concat_eq_append, append_assoc, singleton_append] at hchain hl ⊢
        refine hchain.unlink hpnext fun b hb hne => ?_
        exact ((hpages c' b (hl ▸ hb)).2 hne).2
      · rw [if_neg hc]
        refine (h.chain c').congr fun b hb => ((hpages c' b hb).2 ?_).2
        rintro rfl
        exact hc (h.class_unique hb hprev)
    · simpa using hmem

lemma Core.freePage (hi : i < s.pmm.totalPages)
    (hset : bmGet s i = true) (hnot : ∀ c, idxToPa s i ∉ lists c) :
    Core (free s (idxToPa s i)) live lists ∧ (∀ c, ∀ page ∈ lists c,
        freeBits (free s (idxToPa s i)).mem page = freeBits s.mem page) ∧
      ∀ j, bmGet (free s (idxToPa s i)) j = if j = i then false else bmGet s j := by
  rw [free_idxToPa hi hset]
  have hbits := bmGet_bmClr s i
  obtain ⟨hcore, hsame⟩ := h.frame (h.valid.bmClr hi hset) rfl
    (fun c page hpage j _ hpa hset' => by
      rw [hbits, if_neg, hset']
      rintro rfl
      exact hnot c (hpa ▸ hpage))
    (fun c page hpage x hx => by
      obtain ⟨j, -, hpa, -⟩ := h.backed c page hpage
      have hx' : x ∈ pageRegion s j := by
        have := header_subset page hx
        rwa [hpa] at this
      refine bmClr_mem_of_notMem hi fun hb => ?_
      exact disjoint_left.mp (h.valid.disjoint_page j) hx' hb)
  exact ⟨hcore, hsame, hbits⟩

lemma Core.page_eq (hpage : page ∈ lists c)
    (hslot : slot < slabCapacity c) (hptr : o.ptr = slotAddr page c slot) : o.page = page := by
  rw [SlabObj.page, hptr, page_slotAddr (h.page_aligned hpage) hslot]

lemma Core.eq_of_ptr_eq {o' : SlabObj} (ho : o ∈ live) (ho' : o' ∈ live) (heq : o.ptr = o'.ptr) : o = o' :=
  inj_on_of_nodup_map (pairwise_map.mpr h.nodup) ho ho' heq

end

/-- After giving the slot of an object back, its page is empty exactly when no other object was in
the page. -/
theorem Core.empty_iff_last (h : Core s (before ++ o :: after) lists) (hpage : page ∈ lists c)
    (hslot : slot < slabCapacity c) (hptr : o.ptr = slotAddr page c slot) :
    (∀ slot' < slabCapacity c, (freeBits (releaseSlot s.mem page slot) page).getLsbD slot' = true) ↔
        ∀ o' ∈ before ++ o :: after, o'.page = o.page → o' = o := by
  have ho : o ∈ before ++ o :: after := mem_append_right _ mem_cons_self
  have hopage := h.page_eq hpage hslot hptr
  have hcore := h.release hpage hslot hptr
  constructor
  · intro hall o' ho' heq
    by_contra hne
    have hrest := (mem_remove_iff h.nodup).mpr ⟨ho', fun hp => hne (h.eq_of_ptr_eq ho' ho hp)⟩
    obtain ⟨c', page', slot', -, hpage', hslot', hptr'⟩ := hcore.home o' hrest
    obtain rfl : page' = page := by
      rw [← hcore.page_eq hpage' hslot' hptr', heq, hopage]
    obtain rfl := hcore.class_unique hpage' hpage
    have hfalse := (hcore.slot_iff c' page' hpage' slot' hslot').mpr ⟨o', hrest, hptr'⟩
    exact Bool.noConfusion (hfalse.symm.trans (hall slot' hslot'))
  · intro hall slot' hslot'
    by_contra hfalse
    obtain ⟨o', ho', hptr'⟩ := (hcore.slot_iff c page hpage slot' hslot').mp
      (Bool.eq_false_of_not_eq_true hfalse)
    obtain ⟨hmem, hne⟩ := (mem_remove_iff h.nodup).mp ho'
    have heq := hall o' hmem ((hcore.page_eq hpage hslot' hptr').trans hopage.symm)
    exact hne (congrArg SlabObj.ptr heq)

lemma Core.unlink_free (h : Core s live lists) (hpage : page ∈ lists c)
    (hfree : ∀ slot < slabCapacity c, (freeBits s.mem page).getLsbD slot = true)
    (hinUse : ∀ c', ∀ page' ∈ lists c', page' ≠ page →
      ∃ slot < slabCapacity c', (freeBits s.mem page').getLsbD slot = false) :
    ∃ s1 lists', Slab.unlink c page s = some s1 ∧ Inv (free s1 page) live lists' ∧
      ∀ j < s.pmm.totalPages, (bmGet (free s1 page) j = false ↔
        bmGet s j = false ∨ idxToPa s j = page) := by
  obtain ⟨s1, lists', hunlink, hcore, hmem, hsame, hbase, htotal, hbits⟩ := h.unlink hpage hfree
  obtain ⟨i, hi, hpa, hset⟩ := h.backed c page hpage
  have hpa1 : idxToPa s1 i = page := by
    rw [hpa, idxToPa, idxToPa, hbase]
  have hnot : ∀ c', idxToPa s1 i ∉ lists' c' := fun c' hc' => ((hmem c' _).mp hc').2 hpa1
  obtain ⟨hcore', hsame', hbits'⟩ :=
    hcore.freePage (htotal ▸ hi) ((hbits i hi).trans hset) hnot
  rw [hpa1] at hcore' hsame' hbits'
  refine ⟨s1, lists', hunlink, ⟨hcore', fun c' page' hpage' => ?_⟩, fun j hj => ?_⟩
  · obtain ⟨hold, hne⟩ := (hmem c' page').mp hpage'
    rw [hsame' c' page' hpage', hsame c' page' hold]
    exact hinUse c' page' hold hne
  · rw [hbits', hbits j hj]
    by_cases hji : j = i
    · rw [if_pos hji]
      exact ⟨fun _ => .inr (hji ▸ hpa.symm), fun _ => rfl⟩
    · rw [if_neg hji]
      refine ⟨.inl, fun hor => hor.resolve_right fun hpage' => hji ?_⟩
      exact eq_of_mul_eq_mul_right (by decide) (add_left_cancel (hpage'.trans hpa))

/-- `slab_free` of a live object gives its slot back, and its page exactly when it was the last
object of the page. -/
theorem Inv.slabFree_live (h : Inv s (before ++ o :: after) lists) :
    ∃ s' lists', slabFree o.ptr s = some (true, s') ∧ Inv s' (before ++ after) lists' ∧
      ∀ i < s.pmm.totalPages, (bmGet s' i = false ↔ bmGet s i = false ∨
        (idxToPa s i = o.page ∧ ∀ o' ∈ before ++ o :: after, o'.page = o.page → o' = o)) := by
  have ho : o ∈ before ++ o :: after := mem_append_right _ mem_cons_self
  obtain ⟨c, page, slot, -, hpage, hslot, hptr⟩ := h.home o ho
  have hcore := h.toCore.release hpage hslot hptr
  have hlast := h.toCore.empty_iff_last hpage hslot hptr
  have hok : PageOk (releaseSlot s.mem page slot) page c := hcore.pageOk c page hpage
  obtain ⟨hvalid, hbits, hpages⟩ := h.toCore.write_header hpage hok fun x hx =>
    releaseSlot_apply_of_notMem hx
  have hinUse : ∀ c', ∀ page' ∈ lists c', page' ≠ page → ∃ slot' < slabCapacity c',
      (freeBits (releaseSlot s.mem page slot) page').getLsbD slot' = false := by
    intro c' page' hpage' hne
    rw [((hpages c' page' hpage').2 hne).1]
    exact h.inUse c' page' hpage'
  have hempty : freeCount (releaseSlot s.mem page slot) page = capacity (releaseSlot s.mem page slot) page ↔
        ∀ o' ∈ before ++ o :: after, o'.page = o.page → o' = o := by
    rw [hok.freeCount_eq, hok.capacity_eq, ← hlast]
    exact popCount_eq_slabCapacity_iff hok.bits_lt
  have hopage := h.toCore.page_eq hpage hslot hptr
  rw [hptr, slabFree_slotAddr (h.pageOk c page hpage) (h.toCore.page_aligned hpage)
    (h.toCore.page_ne_zero hpage) hslot, releaseObject]
  by_cases hall : ∀ o' ∈ before ++ o :: after, o'.page = o.page → o' = o
  · obtain ⟨s1, lists', hunlink, hinv, hbits1⟩ := hcore.unlink_free hpage (hlast.mpr hall) hinUse
    simp only [hunlink, if_pos (hempty.mpr hall), Option.map_some]
    refine ⟨_, lists', rfl, hinv, fun j hj => (hbits1 j hj).trans ?_⟩
    rw [hbits j hj, hopage]
    exact or_congr_right ⟨fun hp => ⟨hp, hopage ▸ hall⟩, fun hp => hp.1⟩
  · simp only [if_neg (mt hempty.mp hall)]
    refine ⟨_, lists, rfl, ⟨hcore, fun c' page' hpage' => ?_⟩, fun j hj => ?_⟩
    · by_cases hne : page' = page
      · subst hne
        obtain rfl := hcore.class_unique hpage' hpage
        by_contra hnone
        refine hall (hlast.mp fun slot' hslot' => ?_)
        by_contra hfalse
        exact hnone ⟨slot', hslot', Bool.eq_false_of_not_eq_true hfalse⟩
      · exact hinUse c' page' hpage' hne
    · rw [hbits j hj]
      exact ⟨.inl, fun hor => hor.resolve_right fun hp => hall hp.2⟩

end SlabRun

end OnyxKernel
