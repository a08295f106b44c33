import OnyxKernel.Mm.PmmSpec
import OnyxKernel.Mm.Slab

/-!
# Slab pages

`Slab.PageOk m page c` says that `page` starts with the header of a slab page of class `c` whose
`free_bits` and `free_count` fit together.  Taking and giving back a slot and writing a new header
keep it, change the one bit of the slot, and write no memory outside the header.
-/

namespace OnyxKernel.Slab

open ByteMemory Memory Finset BitVec Nat Set Bitmap Slab

variable {m m' : Memory} {page slot count i : ℕ} {c : Fin 3} {bits : BitVec 64} {x head node : ℕ}
  {s : Mm}

/-- The number of set bits of a word. -/
def popCount (bits : BitVec 64) : ℕ := ((range 64).filter fun i => bits.getLsbD i = true).card

/-- The address of slot `slot` of a page of class `c`. -/
def slotAddr (page : ℕ) (c : Fin 3) (slot : ℕ) : ℕ :=
  page + sizeOfSlabHeader + slot * slabSizes c

/-- The page starts with a consistent header of class `c`. -/
structure PageOk (m : Memory) (page : ℕ) (c : Fin 3) : Prop where
  /-- The header is marked as one. -/
  magic_eq : magic m page = slabMagic
  /-- The class of the page. -/
  sizeIdx_eq : sizeIdx m page = c
  /-- The capacity is the one of the class. -/
  capacity_eq : capacity m page = slabCapacity c
  /-- The set bits are below the capacity. -/
  bits_lt : ∀ i, (freeBits m page).getLsbD i = true → i < slabCapacity c
  /-- The counter is the number of set bits. -/
  freeCount_eq : freeCount m page = popCount (freeBits m page)

/-! ### Bits -/

lemma slotBit_eq_twoPow (hslot : slot < 64) : slotBit slot = twoPow 64 slot := by
  rw [slotBit, mod_eq_of_lt hslot, twoPow]

lemma and_slotBit_ne_zero (hslot : slot < 64) : (bits &&& slotBit slot != 0) = bits.getLsbD slot := by
  rw [slotBit_eq_twoPow hslot, and_twoPow]
  have hpos : twoPow 64 slot ≠ 0#64 := by
    intro h
    have hbit := congrArg (fun b => b.getLsbD slot) h
    simp [hslot] at hbit
  cases h : bits.getLsbD slot with
  | false => rfl
  | true => simpa using hpos

lemma getLsbD_and_not_slotBit (hslot : slot < 64) (i : ℕ) :
    (bits &&& ~~~slotBit slot).getLsbD i = if i = slot then false else bits.getLsbD i := by
  rw [slotBit_eq_twoPow hslot, getLsbD_and, getLsbD_not, getLsbD_twoPow]
  by_cases hi : i = slot
  · simp [hi, hslot]
  · by_cases hlt : i < 64
    · simp [hi, hlt, Ne.symm hi]
    · simp [hi, getLsbD_of_ge bits i (not_lt.mp hlt)]

lemma getLsbD_or_slotBit (hslot : slot < 64) (i : ℕ) :
    (bits ||| slotBit slot).getLsbD i = if i = slot then true else bits.getLsbD i := by
  rw [slotBit_eq_twoPow hslot, getLsbD_or, getLsbD_twoPow]
  by_cases hi : i = slot
  · simp [hi, hslot]
  · simp [hi, Ne.symm hi]

lemma popCount_eq_clearCount (bits : BitVec 64) :
    popCount bits = clearCount (fun i => !bits.getLsbD i) 64 := by
  simp [popCount, clearCount]

lemma slabCapacity_pos (c : Fin 3) : 0 < slabCapacity c := by
  revert c
  decide

lemma slabCapacity_lt (c : Fin 3) : slabCapacity c < 64 := by
  revert c
  decide

lemma popCount_eq_slabCapacity_iff (hlt : ∀ i, bits.getLsbD i = true → i < slabCapacity c) :
    popCount bits = slabCapacity c ↔ ∀ i < slabCapacity c, bits.getLsbD i = true := by
  have hsubset : (range 64).filter (fun i => bits.getLsbD i = true) ⊆
      range (slabCapacity c) := fun i hi =>
    mem_range.mpr (hlt i (mem_filter.mp hi).2)
  constructor
  · intro hcount i hi
    have heq := eq_of_subset_of_card_le hsubset (by rw [card_range]; exact hcount.ge)
    have hmem : i ∈ (range 64).filter (fun i => bits.getLsbD i = true) := by
      rw [heq]
      exact mem_range.mpr hi
    exact (mem_filter.mp hmem).2
  · intro hall
    rw [popCount, Finset.Subset.antisymm hsubset, card_range]
    intro i hi
    have hi' := mem_range.mp hi
    have hi64 : i < 64 := hi'.trans (slabCapacity_lt c)
    exact mem_filter.mpr ⟨mem_range.mpr hi64, hall i hi'⟩

/-! ### Fields -/

lemma PageOk.congr (h : PageOk m page c) (hm : EqOn m' m (Set.Ico page (page + sizeOfSlabHeader))) :
    PageOk m' page c ∧ freeBits m' page = freeBits m page ∧ next m' page = next m page := by
  have hload : ∀ o w, o + w ≤ 32 → m'.load (page + o) w = m.load (page + o) w := by
    intro o w how
    refine load_congr (hm.mono (Ico_subset_Ico (le_add_right _ _) ?_))
    rw [add_assoc]
    exact Nat.add_le_add_left how _
  have hbits : freeBits m' page = freeBits m page := by
    rw [freeBits, freeBits, hload 8 8 (by decide)]
  refine ⟨⟨?_, ?_, ?_, hbits ▸ h.bits_lt, ?_⟩, hbits, hload 24 8 (by decide)⟩
  · exact (hload 0 4 (by decide)).trans h.magic_eq
  · exact (hload 4 4 (by decide)).trans h.sizeIdx_eq
  · exact (hload 16 4 (by decide)).trans h.capacity_eq
  · rw [hbits]
    exact (hload 20 4 (by decide)).trans h.freeCount_eq

lemma freeBits_store (m : Memory) (page : ℕ) (bits : BitVec 64) :
    freeBits (setFreeBits m page bits) page = bits := by
  rw [freeBits, setFreeBits, load_store_same bits.isLt, ofNat_toNat, setWidth_eq]

lemma setCounts_apply_of_notMem (hx : x ∉ Set.Ico page (page + sizeOfSlabHeader)) :
    setFreeCount (setFreeBits m page bits) page count x = m x := by
  have hx' : ¬ (page ≤ x ∧ x < page + 32) := hx
  rw [setFreeCount, store_apply_of_notMem, setFreeBits, store_apply_of_notMem]
  · rintro ⟨hlo, hhi⟩
    omega
  · rintro ⟨hlo, hhi⟩
    omega

lemma PageOk.setCounts (h : PageOk m page c)
    (hbits : ∀ i, bits.getLsbD i = true → i < slabCapacity c) (hcount : count = popCount bits) :
    PageOk (setFreeCount (setFreeBits m page bits) page count) page c ∧
      freeBits (setFreeCount (setFreeBits m page bits) page count) page = bits ∧
      next (setFreeCount (setFreeBits m page bits) page count) page = next m page := by
  have hload : ∀ o w, o + w ≤ 8 ∨ (16 ≤ o ∧ o + w ≤ 20) ∨ 24 ≤ o →
      (setFreeCount (setFreeBits m page bits) page count).load (page + o) w = m.load (page + o) w := by
    intro o w how
    rw [setFreeCount, load_store_of_disjoint (by omega), setFreeBits, load_store_of_disjoint (by omega)]
  have hfree : freeBits (setFreeCount (setFreeBits m page bits) page count) page = bits := by
    rw [freeBits, setFreeCount, load_store_of_disjoint (by omega), ← freeBits, freeBits_store]
  refine ⟨⟨?_, ?_, ?_, ?_, ?_⟩, hfree, hload 24 8 (by omega)⟩
  · exact (hload 0 4 (by omega)).trans h.magic_eq
  · exact (hload 4 4 (by omega)).trans h.sizeIdx_eq
  · exact (hload 16 4 (by omega)).trans h.capacity_eq
  · rwa [hfree]
  · have hsmall : count < 256 ^ 4 := by
      have := popCount_eq_clearCount bits ▸ clearCount_le _ _
      omega
    rw [hfree, freeCount, setFreeCount, load_store_same hsmall, hcount]

private lemma freeCount_setFreeBits (m : Memory) (page : ℕ) (bits : BitVec 64) :
    freeCount (setFreeBits m page bits) page = freeCount m page :=
  load_store_of_disjoint (by omega)

/-! ### Taking a slot and giving it back -/

section

variable (h : PageOk m page c) (hslot : slot < slabCapacity c)
include h hslot

lemma PageOk.setSlot {b : Bool}
    (hbit : ∀ i, bits.getLsbD i = if i = slot then b else (freeBits m page).getLsbD i)
    (hcount : count = popCount bits) :
    PageOk (setFreeCount (setFreeBits m page bits) page count) page c ∧
      (∀ i, (freeBits (setFreeCount (setFreeBits m page bits) page count) page).getLsbD i =
        if i = slot then b else (freeBits m page).getLsbD i) ∧
      next (setFreeCount (setFreeBits m page bits) page count) page = next m page := by
  have hlt : ∀ i, bits.getLsbD i = true → i < slabCapacity c := by
    intro i hi
    rw [hbit] at hi
    by_cases hj : i = slot
    · exact hj ▸ hslot
    · rw [if_neg hj] at hi
      exact h.bits_lt i hi
  obtain ⟨hok, hbits, hnext⟩ := h.setCounts hlt hcount
  exact ⟨hok, fun i => by rw [hbits, hbit], hnext⟩

lemma PageOk.takeSlot (hfree : (freeBits m page).getLsbD slot = true) : PageOk (takeSlot m page slot) page c ∧
      (∀ i, (freeBits (takeSlot m page slot) page).getLsbD i =
        if i = slot then false else (freeBits m page).getLsbD i) ∧
      next (takeSlot m page slot) page = next m page := by
  have hslot64 : slot < 64 := hslot.trans (slabCapacity_lt c)
  have hcount : popCount (freeBits m page &&& ~~~slotBit slot) + 1 = popCount (freeBits m page) := by
    rw [popCount_eq_clearCount, popCount_eq_clearCount]
    refine clearCount_set hslot64 (by simp [hfree]) fun j => ?_
    rw [getLsbD_and_not_slotBit hslot64]
    by_cases hj : j = slot <;> simp [hj]
  unfold Slab.takeSlot
  simp only [freeCount_setFreeBits]
  refine h.setSlot hslot (getLsbD_and_not_slotBit hslot64) ?_
  rw [h.freeCount_eq]
  omega

lemma PageOk.releaseSlot (hused : (freeBits m page).getLsbD slot = false) :
    PageOk (releaseSlot m page slot) page c ∧ (∀ i, (freeBits (releaseSlot m page slot) page).getLsbD i =
        if i = slot then true else (freeBits m page).getLsbD i) ∧
      next (releaseSlot m page slot) page = next m page := by
  have hslot64 : slot < 64 := hslot.trans (slabCapacity_lt c)
  have hcount : popCount (freeBits m page ||| slotBit slot) = popCount (freeBits m page) + 1 := by
    rw [popCount_eq_clearCount, popCount_eq_clearCount]
    refine clearCount_clear hslot64 (by simp [hused]) fun j => ?_
    rw [getLsbD_or_slotBit hslot64]
    by_cases hj : j = slot <;> simp [hj]
  unfold Slab.releaseSlot
  simp only [freeCount_setFreeBits]
  refine h.setSlot hslot (getLsbD_or_slotBit hslot64) ?_
  rw [h.freeCount_eq, hcount]

end

lemma takeSlot_apply_of_notMem (hx : x ∉ Set.Ico page (page + sizeOfSlabHeader)) : takeSlot m page slot x = m x :=
  setCounts_apply_of_notMem hx

lemma releaseSlot_apply_of_notMem (hx : x ∉ Set.Ico page (page + sizeOfSlabHeader)) :
    releaseSlot m page slot x = m x :=
  setCounts_apply_of_notMem hx

/-! ### New pages -/

private lemma getLsbD_allFree (c : Fin 3) (i : ℕ) :
    ((1#64 <<< slabCapacity c) - 1#64).getLsbD i = decide (i < slabCapacity c) := by
  by_cases hi : i < 64
  · have hall : ∀ c : Fin 3, ∀ i : Fin 64,
        ((1#64 <<< slabCapacity c) - 1#64).getLsbD i = decide (i.val < slabCapacity c) := by
      decide
    exact hall c ⟨i, hi⟩
  · have hcap := slabCapacity_lt c
    rw [getLsbD_of_ge _ i (not_lt.mp hi), decide_eq_false (by omega)]

lemma pageOk_newHeader (m : Memory) (page : ℕ) (c : Fin 3) (hhead : head < wordSize) :
    PageOk (newHeader m page c head) page c ∧
      (∀ i, (freeBits (newHeader m page c head) page).getLsbD i = decide (i < slabCapacity c)) ∧
      next (newHeader m page c head) page = head := by
  have hcap := slabCapacity_lt c
  have hbits : freeBits (newHeader m page c head) page = (1#64 <<< slabCapacity c) - 1#64 := by
    unfold newHeader setNext setFreeCount freeBits
    rw [if_neg (by omega), load_store_of_disjoint (by omega),
      load_store_of_disjoint (by omega), load_store_of_disjoint (by omega),
      ← freeBits, freeBits_store]
  have hbit : ∀ i, (freeBits (newHeader m page c head) page).getLsbD i =
      decide (i < slabCapacity c) := fun i => by rw [hbits, getLsbD_allFree]
  have hlt : ∀ i, (freeBits (newHeader m page c head) page).getLsbD i = true → i < slabCapacity c := by
    intro i hi
    rw [hbit] at hi
    exact of_decide_eq_true hi
  refine ⟨⟨?_, ?_, ?_, hlt, ?_⟩, hbit, ?_⟩
  · unfold newHeader setNext setFreeCount setFreeBits magic
    rw [load_store_of_disjoint (by omega), load_store_of_disjoint (by omega),
      load_store_of_disjoint (by omega), load_store_of_disjoint (by omega),
      load_store_of_disjoint (by omega), load_store_same (by decide)]
  · have hc : (c : ℕ) < 256 ^ 4 := c.isLt.trans (by decide)
    unfold newHeader setNext setFreeCount setFreeBits sizeIdx
    rw [load_store_of_disjoint (by omega), load_store_of_disjoint (by omega),
      load_store_of_disjoint (by omega), load_store_of_disjoint (by omega),
      load_store_same hc]
  · unfold newHeader setNext setFreeCount capacity
    rw [load_store_of_disjoint (by omega), load_store_of_disjoint (by omega), load_store_same (by omega)]
  · rw [(popCount_eq_slabCapacity_iff hlt).mpr fun i hi => by rw [hbit, decide_eq_true hi]]
    unfold newHeader setNext setFreeCount freeCount
    rw [load_store_of_disjoint (by omega), load_store_same (by omega)]
  · exact load_store_same hhead

lemma newHeader_apply_of_notMem
    (hx : x ∉ Set.Ico page (page + sizeOfSlabHeader)) : newHeader m page c head x = m x := by
  have hx' : ¬ (page ≤ x ∧ x < page + 32) := hx
  have hout : ∀ o w, o + w ≤ 32 → x ∉ Set.Ico (page + o) (page + o + w) := by
    rintro o w how ⟨hlo, hhi⟩
    omega
  unfold newHeader setNext setFreeCount setFreeBits
  rw [store_apply_of_notMem (hout 24 8 (by decide)), store_apply_of_notMem (hout 20 4 (by decide)),
    store_apply_of_notMem (hout 16 4 (by decide)),
    store_apply_of_notMem (hout 8 8 (by decide)),
    store_apply_of_notMem (hout 4 4 (by decide))]
  exact store_apply_of_notMem (hout 0 4 (by decide))

lemma PageOk.setNext (h : PageOk m page c) (hnode : node < wordSize) : PageOk (setNext m page node) page c ∧
      freeBits (Slab.setNext m page node) page = freeBits m page ∧
      next (Slab.setNext m page node) page = node := by
  have hload : ∀ o w, o + w ≤ 24 →
      (Slab.setNext m page node).load (page + o) w = m.load (page + o) w := fun o w how =>
    load_store_of_disjoint (by omega)
  have hbits : freeBits (Slab.setNext m page node) page = freeBits m page := by
    rw [freeBits, freeBits, hload 8 8 (by decide)]
  refine ⟨⟨?_, ?_, ?_, ?_, ?_⟩, hbits, load_store_same hnode⟩
  · exact (hload 0 4 (by decide)).trans h.magic_eq
  · exact (hload 4 4 (by decide)).trans h.sizeIdx_eq
  · exact (hload 16 4 (by decide)).trans h.capacity_eq
  · rw [hbits]
    exact h.bits_lt
  · rw [hbits]
    exact (hload 20 4 (by decide)).trans h.freeCount_eq

lemma setNext_apply_of_notMem
    (hx : x ∉ Set.Ico page (page + sizeOfSlabHeader)) : setNext m page node x = m x := by
  have hx' : ¬ (page ≤ x ∧ x < page + 32) := hx
  refine store_apply_of_notMem ?_
  rintro ⟨hlo, hhi⟩
  omega

lemma PageOk.freeSlot_eq_some (h : PageOk m page c) {r : ℕ × ℕ} (hr : freeSlot m page = some r) :
    r.1 = page ∧ r.2 < slabCapacity c ∧ (freeBits m page).getLsbD r.2 = true := by
  unfold freeSlot at hr
  split at hr
  · obtain ⟨slot, hfind, rfl⟩ := Option.map_eq_some_iff.mp hr
    obtain ⟨hbit, hmem, -⟩ := List.find?_range_eq_some.mp hfind
    have hslot : slot < slabCapacity c := h.capacity_eq ▸ List.mem_range.mp hmem
    rw [and_slotBit_ne_zero (hslot.trans (slabCapacity_lt c))] at hbit
    exact ⟨rfl, hslot, hbit⟩
  · cases hr

lemma PageOk.class_unique {c' : Fin 3} (h : PageOk m page c) (h' : PageOk m page c') : c = c' :=
  Fin.val_injective (h.sizeIdx_eq.symm.trans h'.sizeIdx_eq)

/-! ### Slots -/

lemma slot_end_le (hslot : slot < slabCapacity c) :
    sizeOfSlabHeader + slot * slabSizes c + slabSizes c ≤ pageSize := by
  have hcap : ∀ c : Fin 3, sizeOfSlabHeader + slabCapacity c * slabSizes c ≤ pageSize := by decide
  have hmul : (slot + 1) * slabSizes c ≤ slabCapacity c * slabSizes c :=
    Nat.mul_le_mul_right _ hslot
  have := hcap c
  rw [Nat.succ_mul] at hmul
  omega

lemma slabSizes_pos (c : Fin 3) : 0 < slabSizes c := by
  revert c
  decide

lemma page_slotAddr (hpage : page % pageSize = 0) (hslot : slot < slabCapacity c) :
    slotAddr page c slot / pageSize * pageSize = page := by
  have hend := slot_end_le hslot
  have hpos := slabSizes_pos c
  unfold slotAddr
  unfold sizeOfSlabHeader pageSize at *
  omega

lemma slotAddr_inj {slot' : ℕ} (h : slotAddr page c slot = slotAddr page c slot') : slot = slot' :=
  eq_of_mul_eq_mul_right (slabSizes_pos c) (add_left_cancel h)

private lemma wsub_slotAddr (page : ℕ) (c : Fin 3) (slot : ℕ) :
    wsub (slotAddr page c slot - page) sizeOfSlabHeader = slot * slabSizes c := by
  have hsub : slotAddr page c slot - page = sizeOfSlabHeader + slot * slabSizes c := by
    unfold slotAddr
    omega
  rw [hsub, wsub_of_le (Nat.le_add_right _ _), Nat.add_sub_cancel_left]

private lemma freeAtOffset_slot (h : PageOk s.mem page c) (hslot : slot < slabCapacity c) :
    freeAtOffset c page (slot * slabSizes c) s = releaseObject c page slot s := by
  have hslot32 : slot < 2 ^ 32 := (hslot.trans (slabCapacity_lt c)).trans (by decide)
  have hdiv : slotOf c (slot * slabSizes c) = slot := by
    rw [slotOf, Nat.mul_div_cancel _ (slabSizes_pos c), Nat.mod_eq_of_lt hslot32]
  have hcap : ¬ capacity s.mem page ≤ slot := by
    rw [h.capacity_eq]
    exact not_le.mpr hslot
  rw [freeAtOffset, if_neg (not_not.mpr (mul_mod_left _ _)), hdiv, if_neg hcap]

/-- The first checks of `slab_free` pass at the address of a slot. -/
private theorem slabFree_eq_freeAtOffset (h : PageOk s.mem page c)
    (hpage : page % pageSize = 0) (hne : page ≠ 0) (hslot : slot < slabCapacity c)
    (hidx : sizeIdx s.mem page < 3) (hc : (⟨sizeIdx s.mem page, hidx⟩ : Fin 3) = c) :
    slabFree (slotAddr page c slot) s =
      freeAtOffset c page (wsub (slotAddr page c slot - page) sizeOfSlabHeader) s := by
  unfold slabFree
  simp only [page_slotAddr hpage hslot]
  rw [if_neg hne, if_neg (not_not.mpr h.magic_eq), dif_pos hidx, hc]

lemma slabFree_slotAddr (h : PageOk s.mem page c) (hpage : page % pageSize = 0)
    (hne : page ≠ 0) (hslot : slot < slabCapacity c) :
    slabFree (slotAddr page c slot) s = releaseObject c page slot s := by
  have hidx : sizeIdx s.mem page < 3 := by
    rw [h.sizeIdx_eq]
    exact c.isLt
  rw [slabFree_eq_freeAtOffset h hpage hne hslot hidx (Fin.ext h.sizeIdx_eq), wsub_slotAddr,
    freeAtOffset_slot h hslot]

end OnyxKernel.Slab
