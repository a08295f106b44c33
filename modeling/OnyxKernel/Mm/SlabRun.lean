import OnyxKernel.Mm.SlabInv

/-!
# Runs of the slab allocator

A run takes steps of `slab_alloc` and of `slab_free` on live objects, next to steps of the rest of
the kernel, which may write the objects and use the page allocator for pages of its own.  A run
carries the list of the live objects.  Every step keeps the invariant, and the correctness of the
allocator (`SlabRun.Correct`) follows from it.
-/

namespace OnyxKernel.SlabRun

open ByteMemory Slab Nat Set Relation Option Pmm
open List hiding Disjoint

/-- What the rest of the kernel may do while the objects `live` are in use: it keeps the page
allocator valid, and it neither frees a page with a live object nor writes its header. -/
structure Env (s : Mm) (live : List SlabObj) (s' : Mm) : Prop where
  /-- The page allocator stays valid. -/
  valid : Pmm.Valid s → Pmm.Valid s'
  /-- It manages the same pages and has the same lists of slab pages. -/
  pmm_eq : s'.pmm = { s.pmm with freePages := s'.pmm.freePages }
  /-- The pages with live objects stay allocated. -/
  bmGet_of_page : ∀ o ∈ live, ∀ i < s.pmm.totalPages, idxToPa s i = o.page →
    bmGet s i = true → bmGet s' i = true
  /-- Their headers are not written. -/
  eqOn_header : ∀ o ∈ live, EqOn s'.mem s.mem (Set.Ico o.page (o.page + sizeOfSlabHeader))

/-- The steps of a run; the second component is the list of the live objects. -/
inductive Step : Mm × List SlabObj → Mm × List SlabObj → Prop
  | alloc {s s' : Mm} {live : List SlabObj} {size ptr : ℕ} (hpos : 1 ≤ size) (hle : size ≤ 1024)
      (h : slabAlloc size s = some (some ptr, s')) : Step (s, live) (s', ⟨ptr, size⟩ :: live)
  | allocFail {s s' : Mm} {live : List SlabObj} {size : ℕ} (hpos : 1 ≤ size) (hle : size ≤ 1024)
      (h : slabAlloc size s = some (none, s')) : Step (s, live) (s', live)
  | free {s s' : Mm} {before after : List SlabObj} {o : SlabObj} {b : Bool}
      (h : slabFree o.ptr s = some (b, s')) : Step (s, before ++ o :: after) (s', before ++ after)
  | env {s s' : Mm} {live : List SlabObj} (h : Env s live s') : Step (s, live) (s', live)

/-- The correctness of the slab allocator in a state with the objects `live`. -/
structure Correct (s : Mm) (live : List SlabObj) : Prop where
  /-- The slots of the live objects are pairwise disjoint. -/
  disjoint : live.Pairwise fun o o' => Disjoint o.addrs o'.addrs
  /-- They are large enough. -/
  size_le : ∀ o ∈ live, o.size ≤ o.slotSize
  /-- They are aligned. -/
  aligned : ∀ o ∈ live, o.ptr % 16 = 0
  /-- They lie in their page behind the header. -/
  inside : ∀ o ∈ live, o.addrs ⊆ Set.Ico (o.page + sizeOfSlabHeader) (o.page + pageSize)
  /-- The list of a class is an acyclic chain of the pages with live objects of the class, and
  their headers are consistent. -/
  lists : ∃ lists : Fin 3 → List ℕ, ∀ c,
    Chain.Rep (next s.mem) (s.pmm.slabHeads c) (lists c) ∧ (lists c).Nodup ∧
      (∀ page, page ∈ lists c ↔ ∃ o ∈ live, slabClassFor o.size = some c ∧ o.page = page) ∧
      ∀ page ∈ lists c, freeCount s.mem page = popCount (freeBits s.mem page) ∧
        ∀ i, (freeBits s.mem page).getLsbD i = true → i < capacity s.mem page
  /-- Freeing a live object succeeds and gives a page back exactly when the object is the last one
  of this page. -/
  free_page : ∀ o ∈ live, ∃ s', slabFree o.ptr s = some (true, s') ∧
    ∀ i < s.pmm.totalPages, (bmGet s' i = false ↔ bmGet s i = false ∨
      (idxToPa s i = o.page ∧ ∀ o' ∈ live, o'.page = o.page → o' = o))
  /-- Allocation terminates and gives no page back. -/
  alloc_page : ∀ size, 1 ≤ size → size ≤ 1024 → ∃ r s', slabAlloc size s = some (r, s') ∧
    ∀ i < s.pmm.totalPages, bmGet s i = true → bmGet s' i = true

variable {s s' : Mm} {live : List SlabObj} {lists : Fin 3 → List ℕ} {c : Fin 3} {page : ℕ}

/-! ### Steps and runs -/

lemma Inv.exists_live (h : Inv s live lists) (hpage : page ∈ lists c) :
    ∃ o ∈ live, slabClassFor o.size = some c ∧ o.page = page := by
  obtain ⟨slot, hslot, hused⟩ := h.inUse c page hpage
  obtain ⟨o, ho, hptr⟩ := (h.slot_iff c page hpage slot hslot).mp hused
  obtain ⟨c', page', slot', hclass, hpage', hslot', hptr'⟩ := h.home o ho
  obtain rfl := h.toCore.page_eq_of_slotAddr_eq hpage hpage' hslot hslot' (hptr.symm.trans hptr')
  obtain rfl := h.toCore.class_unique hpage hpage'
  exact ⟨o, ho, hclass, h.toCore.page_eq hpage hslot hptr⟩

lemma Inv.env (h : Inv s live lists) (henv : Env s live s') : Inv s' live lists := by
  obtain ⟨hcore, hsame⟩ := h.toCore.frame (henv.valid h.valid) henv.pmm_eq
    (fun c page hpage i hi hpa hset => by
      obtain ⟨o, ho, -, hopage⟩ := h.exists_live hpage
      exact henv.bmGet_of_page o ho i hi (hpa.symm.trans hopage.symm) hset)
    (fun c page hpage => by
      obtain ⟨o, ho, -, rfl⟩ := h.exists_live hpage
      exact henv.eqOn_header o ho)
  refine ⟨hcore, fun c page hpage => ?_⟩
  rw [hsame c page hpage]
  exact h.inUse c page hpage

lemma Inv.step {live' : List SlabObj} (h : Inv s live lists)
    (hstep : Step (s, live) (s', live')) : ∃ lists', Inv s' live' lists' := by
  cases hstep with
  | alloc hpos hle halloc | allocFail hpos hle halloc =>
    obtain ⟨c, hclass, -⟩ := slabClassFor_of_le hle
    obtain ⟨r, s1, heq, -, lists', hinv⟩ := h.slabAlloc_cases hclass
    rw [heq] at halloc
    cases halloc
    exact ⟨lists', hinv⟩
  | free hfree =>
    obtain ⟨s1, lists', heq, hinv, -⟩ := h.slabFree_live
    rw [heq] at hfree
    cases hfree
    exact ⟨lists', hinv⟩
  | env henv => exact ⟨lists, h.env henv⟩

lemma Inv.of_run {x x' : Mm × List SlabObj} (h : ∃ lists, Inv x.1 x.2 lists)
    (hrun : ReflTransGen Step x x') : ∃ lists, Inv x'.1 x'.2 lists := by
  induction hrun with
  | refl => exact h
  | tail _ hstep ih =>
    obtain ⟨lists, hinv⟩ := ih
    exact hinv.step hstep

lemma Inv.disjoint_addrs (h : Inv s live lists) {o o' : SlabObj} (ho : o ∈ live) (ho' : o' ∈ live)
    (hne : o.ptr ≠ o'.ptr) : Disjoint o.addrs o'.addrs := by
  obtain ⟨c, page, slot, hclass, hpage, hslot, hptr⟩ := h.home o ho
  obtain ⟨c', page', slot', hclass', hpage', hslot', hptr'⟩ := h.home o' ho'
  have hend := slot_end_le hslot
  have hend' := slot_end_le hslot'
  have haddrs : o.addrs = Set.Ico o.ptr (o.ptr + slabSizes c) := by
    rw [SlabObj.addrs, SlabObj.slotSize, hclass]
    rfl
  have haddrs' : o'.addrs = Set.Ico o'.ptr (o'.ptr + slabSizes c') := by
    rw [SlabObj.addrs, SlabObj.slotSize, hclass']
    rfl
  rw [haddrs, haddrs', hptr, hptr']
  refine Memory.disjoint_Ico_of_le ?_
  by_cases hpages : page = page'
  · subst hpages
    obtain rfl := h.toCore.class_unique hpage hpage'
    have hslots : slot ≠ slot' := fun heq => hne (by rw [hptr, hptr', heq])
    unfold slotAddr
    rcases lt_or_gt_of_ne hslots with hlt | hlt
    · have hmul : (slot + 1) * slabSizes c ≤ slot' * slabSizes c := mul_le_mul_right _ hlt
      rw [succ_mul] at hmul
      omega
    · have hmul : (slot' + 1) * slabSizes c ≤ slot * slabSizes c := mul_le_mul_right _ hlt
      rw [succ_mul] at hmul
      omega
  · have halign := h.toCore.page_aligned hpage
    have halign' := h.toCore.page_aligned hpage'
    unfold slotAddr
    unfold pageSize at *
    omega

lemma Inv.correct (h : Inv s live lists) (hsizes : ∀ o ∈ live, o.size ≤ 1024) : Correct s live where
  disjoint := h.nodup.imp_of_mem fun ho ho' hne => h.disjoint_addrs ho ho' hne
  size_le := by
    intro o ho
    obtain ⟨c, hclass, hle⟩ := slabClassFor_of_le (hsizes o ho)
    rwa [SlabObj.slotSize, hclass]
  aligned := by
    intro o ho
    obtain ⟨c, page, slot, -, hpage, -, hptr⟩ := h.home o ho
    have halign := h.toCore.page_aligned hpage
    have hsize : ∀ c : Fin 3, slabSizes c % 16 = 0 := by decide
    have hmul : slot * slabSizes c % 16 = 0 := by rw [mul_mod, hsize, mul_zero, zero_mod]
    rw [hptr, slotAddr]
    unfold sizeOfSlabHeader
    unfold pageSize at halign
    omega
  inside := by
    intro o ho
    obtain ⟨c, page, slot, hclass, hpage, hslot, hptr⟩ := h.home o ho
    have hend := slot_end_le hslot
    rw [h.toCore.page_eq hpage hslot hptr, SlabObj.addrs, SlabObj.slotSize, hclass, hptr, slotAddr]
    refine Ico_subset_Ico (le_add_right _ _) ?_
    change _ + slabSizes c ≤ _
    omega
  lists := by
    refine ⟨lists, fun c => ⟨h.chain c, (h.chain c).nodup, fun page => ⟨h.exists_live, ?_⟩, ?_⟩⟩
    · rintro ⟨o, ho, hclass, rfl⟩
      obtain ⟨c', page', slot, hclass', hpage', hslot, hptr⟩ := h.home o ho
      rw [hclass] at hclass'
      cases hclass'
      rwa [h.toCore.page_eq hpage' hslot hptr]
    · intro page hpage
      have hok := h.pageOk c page hpage
      refine ⟨hok.freeCount_eq, fun i hi => ?_⟩
      rw [hok.capacity_eq]
      exact hok.bits_lt i hi
  free_page := by
    intro o ho
    obtain ⟨before, after, rfl⟩ := append_of_mem ho
    obtain ⟨s', -, heq, -, hbits⟩ := h.slabFree_live
    exact ⟨s', heq, hbits⟩
  alloc_page := by
    intro size _ hle
    obtain ⟨c, hclass, -⟩ := slabClassFor_of_le hle
    obtain ⟨r, s', heq, hbits, -⟩ := h.slabAlloc_cases hclass
    exact ⟨r, s', heq, hbits⟩

lemma size_le_of_run {x x' : Mm × List SlabObj} (h : ∀ o ∈ x.2, o.size ≤ 1024)
    (hrun : ReflTransGen Step x x') : ∀ o ∈ x'.2, o.size ≤ 1024 := by
  induction hrun with
  | refl => exact h
  | tail _ hstep ih =>
    cases hstep with
    | alloc _ hle _ => exact forall_mem_cons.mpr ⟨hle, ih⟩
    | allocFail _ _ _ => exact ih
    | free _ =>
      intro o ho
      refine ih o ?_
      rcases mem_append.mp ho with ho | ho
      · exact mem_append_left _ ho
      · exact mem_append_right _ (mem_cons_of_mem _ ho)
    | env _ => exact ih

/-- The slab allocator is correct in every state of every run over a correct page allocator that
starts without slab pages. -/
theorem slab_correct_of_run {s₀ : Mm} (hvalid : Pmm.Valid s₀) (hheads : ∀ c, s₀.pmm.slabHeads c = 0)
    (hrun : ReflTransGen Step (s₀, []) (s, live)) : Correct s live := by
  have hempty : ∀ page : ℕ, page ∉ ([] : List ℕ) := fun _ => not_mem_nil
  have hinit : Inv s₀ [] fun _ => [] := by
    refine ⟨⟨hvalid, fun c => ?_, fun _ page hpage => (hempty page hpage).elim,
      fun _ page hpage => (hempty page hpage).elim, fun _ page hpage => (hempty page hpage).elim,
      fun _ ho => (not_mem_nil ho).elim, List.Pairwise.nil⟩,
      fun _ page hpage => (hempty page hpage).elim⟩
    rw [hheads c]
    exact Chain.rep_nil
  obtain ⟨lists, hinv⟩ := Inv.of_run ⟨_, hinit⟩ hrun
  exact hinv.correct (size_le_of_run (fun _ ho => (not_mem_nil ho).elim) hrun)

/-- On a machine with four managed pages the allocator is correct after a first object of 100
bytes. -/
theorem slab_correct_of_first_object : ∃ ptr s, slabAlloc 100 (init 0x80000000 0x80000000 0x404000
      ⟨fun _ => 0, ⟨0, 0, 0, 0, fun _ => 0⟩, ⟨0, 0⟩⟩) = some (some ptr, s) ∧ Correct s [⟨ptr, 100⟩] := by
  have hsome : ((slabAlloc 100 (init 0x80000000 0x80000000 0x404000
      ⟨fun _ => 0, ⟨0, 0, 0, 0, fun _ => 0⟩, ⟨0, 0⟩⟩)).bind Prod.fst).isSome = true := by decide
  obtain ⟨ptr, hptr⟩ := isSome_iff_exists.mp hsome
  obtain ⟨⟨r, s⟩, hr, rfl⟩ := bind_eq_some_iff.mp hptr
  have hrun := ReflTransGen.single (@Step.alloc _ _ [] _ _ (by decide) (by decide) hr)
  exact ⟨ptr, s, hr, slab_correct_of_run (valid_init _ (by decide)) (by decide) hrun⟩

end OnyxKernel.SlabRun
