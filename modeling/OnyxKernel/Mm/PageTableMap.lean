import OnyxKernel.Mm.PageTableWalk

/-!
# Mapping pages

What `map_one` does to a page table: the range of one leaf is mapped to the given physical range, and
every other address below `2 ^ 39` keeps its mapping, also where a larger leaf had to be divided.
Range mapping follows from it by induction on what remains.
-/

namespace OnyxKernel.Vmm

open ByteMemory RadixTree Nat Format KResult Finset Pmm

variable {s s1 s' : Mm} {L rootPa va pa flags p pte : ℕ} {fresh : Multiset ℕ} {P j a : ℕ}

/-! ### A new root -/

lemma nodes_zeroed (own : ℕ → Multiset ℕ) (ha : Pmm.AllocatedPage s s1 j P) (h : ℕ) :
    sv39.nodes own s1.mem (h + 1) P = {P} := by
  have hsum : ∑ i ∈ range sv39.fanout, sv39.nodesEntry own s1.mem h (sv39.entry s1.mem P i) = 0 := by
    refine sum_eq_zero fun i hi => ?_
    rw [sv39_fanout, mem_range] at hi
    rw [entry_zeroed ha hi, nodesEntry_absent]
  rw [nodes_succ, hsum, add_zero]

lemma lookup_zeroed {key : ℕ → ℕ} (hkey : ∀ l, key l < sv39.fanout)
    (ha : Pmm.AllocatedPage s s1 j P) (h : ℕ) : sv39.lookup s1.mem key (h + 1) P = none := by
  have hi := hkey h
  rw [sv39_fanout] at hi
  rw [lookup_succ, entry_zeroed ha hi, lookupEntry_absent]

lemma isTree_zeroed (hv : Pmm.Valid s) (ha : Pmm.AllocatedPage s s1 j P) (h : ℕ) : IsTree s1 (h + 1) P := by
  have htables : sv39.tables s1.mem (h + 1) P = {P} := nodes_zeroed _ ha h
  refine ⟨?_, fun T' hT' => ?_, fun key hkey leaf hleaf => ?_⟩
  · rw [htables]
    exact Multiset.nodup_singleton P
  · rw [htables] at hT'
    exact (ha.took hv).allocated_of_mem hT'
  · rw [lookup_zeroed hkey ha h] at hleaf
    cases hleaf

/-! ### Writing an entry -/

/-- The state after the entry at `p` has been written. -/
def putEntry (s : Mm) (p pte : ℕ) : Mm := { s with mem := s.mem.store p 8 pte }

/-- What `map_one` does: it walks to the entry of `va`, and writes it unless memory has run out. -/
theorem mapOne_cases (hv : Pmm.Valid s) (hphys : Pmm.Physical s) (ht : IsTree s 3 rootPa)
    (hL : L ≤ 2) (va pa flags : ℕ) : ∃ s1 fresh, Grown s s1 3 rootPa fresh va L ∧ fresh.card ≤ 2 - L ∧
      ((∃ p, sv39.slotAddr s1.mem (vaKey va) L (2 - L) rootPa = some p ∧
          mapOne rootPa va pa flags L s = .ok () (putEntry s1 p (makePte flags pa))) ∨
        (mapOne rootPa va pa flags L s = .error .noMem s1 ∧ Pmm.Full s1)) := by
  obtain ⟨s1, fresh, hgrown, hcard, ⟨p, hok, hp⟩ | ⟨herr, hfull⟩⟩ := walk_cases hv hphys hL ht
  · refine ⟨s1, fresh, hgrown, hcard, .inl ⟨p, hp, ?_⟩⟩
    rw [mapOne, bind_of_ok hok]
    rfl
  · refine ⟨s1, fresh, hgrown, hcard, .inr ⟨?_, hfull⟩⟩
    rw [mapOne, bind_of_error herr]

/-- Two addresses of Sv39 take the same way down to level `L` if they agree above its offset. -/
theorem samePath_iff (hL : L ≤ 2) (ha : a < 2 ^ 39) (hva : va < 2 ^ 39) (hal : va % 2 ^ levelShift L = 0) :
    (∀ l, L ≤ l → l ≤ L + (2 - L) → vaKey a l = vaKey va l) ↔ va ≤ a ∧ a < va + 2 ^ levelShift L := by
  have hkey : ∀ l, (vaKey a l = vaKey va l) ↔ a / 2 ^ levelShift l % 512 = va / 2 ^ levelShift l % 512 := by
    intro l
    rw [vaKey, vaKey, levelIdx_eq, levelIdx_eq]
  have h0 : levelShift 0 = 12 := rfl
  have h1 : levelShift 1 = 21 := rfl
  have h2 : levelShift 2 = 30 := rfl
  simp only [hkey]
  interval_cases L
  · rw [h0] at hal ⊢
    constructor
    · intro hall
      have e0 := hall 0 (by omega) (by omega)
      have e1 := hall 1 (by omega) (by omega)
      have e2 := hall 2 (by omega) (by omega)
      rw [h0] at e0
      rw [h1] at e1
      rw [h2] at e2
      omega
    · rintro ⟨hlo, hhi⟩ l - hl
      interval_cases l
      · rw [h0]; omega
      · rw [h1]; omega
      · rw [h2]; omega
  · rw [h1] at hal ⊢
    constructor
    · intro hall
      have e1 := hall 1 (by omega) (by omega)
      have e2 := hall 2 (by omega) (by omega)
      rw [h1] at e1
      rw [h2] at e2
      omega
    · rintro ⟨hlo, hhi⟩ l hl hl'
      interval_cases l
      · rw [h1]; omega
      · rw [h2]; omega
  · rw [h2] at hal ⊢
    constructor
    · intro hall
      have e2 := hall 2 (by omega) (by omega)
      rw [h2] at e2
      omega
    · rintro ⟨hlo, hhi⟩ l hl hl'
      interval_cases l
      rw [h2]; omega

section Entry

variable (hv : Pmm.Valid s1) (ht : IsTree s1 3 rootPa) (hL : L ≤ 2)
  (hp : sv39.slotAddr s1.mem (vaKey va) L (2 - L) rootPa = some p)

include hL hp in
lemma slot_mem : ∃ T' ∈ sv39.tables s1.mem 3 rootPa, ∀ x ∈ Set.Ico p (p + 8), x ∈ sv39.page T' := by
  obtain ⟨T', hT', hp'⟩ := slotAddr_mem (vaKey_lt va) (2 - L) rootPa hp
  have hd : L + (2 - L) + 1 = 3 := by omega
  rw [hd] at hT'
  refine ⟨T', hT', fun x hx => ?_⟩
  refine slot_subset_page (vaKey_lt va L) ?_
  rw [sv39_width] at hp'
  rwa [sv39_slot, ← hp']

include hv ht hL hp in
lemma took_putEntry (pte : ℕ) : Pmm.Took s1 (putEntry s1 p pte) 0 := by
  obtain ⟨T', hT', hsub⟩ := slot_mem hL hp
  refine (Pmm.Took.refl hv).of_eqOn rfl fun x hx => Memory.store_apply_of_notMem fun hmem => ?_
  exact notMem_bitmapRegion hv (ht.allocated T' hT') (hsub x hmem) hx

include hv ht hL hp in
lemma lookup_putEntry {key : ℕ → ℕ} (hkey : ∀ l, key l < sv39.fanout) (hpte : pte < 2 ^ 64) :
    sv39.lookup (putEntry s1 p pte).mem key 3 rootPa =
      if ∀ l, L ≤ l → l ≤ L + (2 - L) → key l = vaKey va l then
        sv39.lookupEntry (putEntry s1 p pte).mem key L (decodePte pte)
      else sv39.lookup s1.mem key 3 rootPa := by
  have hd : L + (2 - L) + 1 = 3 := by omega
  have hsep : sv39.Separated s1.mem (L + (2 - L) + 1) rootPa := by
    rw [hd]
    exact ht.separated hv
  have hlt : pte < 256 ^ sv39.width := by
    rwa [sv39_width]
  have hlookup := lookup_store (vaKey_lt va) hkey hlt (2 - L) rootPa hsep hp
  rwa [hd, sv39_width, sv39_decode] at hlookup

include hv ht hL hp in
lemma nodes_putEntry (own : ℕ → Multiset ℕ) (hpte : pte < 2 ^ 64) :
    sv39.nodes own (putEntry s1 p pte).mem 3 rootPa +
        sv39.nodesEntry own s1.mem L (decodePte (s1.mem.load p 8)) =
      sv39.nodes own s1.mem 3 rootPa + sv39.nodesEntry own (putEntry s1 p pte).mem L (decodePte pte) := by
  have hd : L + (2 - L) + 1 = 3 := by omega
  have hsep : sv39.Separated s1.mem (L + (2 - L) + 1) rootPa := by
    rw [hd]
    exact ht.separated hv
  have hlt : pte < 256 ^ sv39.width := by
    rwa [sv39_width]
  have hnodes := nodes_store own (vaKey_lt va) hlt (2 - L) rootPa hsep hp
  rwa [hd, sv39_width, sv39_decode, sv39_decode] at hnodes

end Entry

/-! ### Mapping a leaf -/

/-- A physical range that a leaf of level `L` may map. -/
structure LeafRange (pa flags L : ℕ) : Prop where
  level_le : L ≤ 2
  aligned : pa % 2 ^ levelShift L = 0
  end_le : pa + 2 ^ levelShift L ≤ 2 ^ 56
  flags_lt : flags < 2 ^ 10
  leaf : flags &&& pteLeaf ≠ 0

namespace LeafRange

lemma of_page (hpa : pa < 2 ^ 56) (hal : pa % pageSize = 0) (hflags : flags < 2 ^ 10)
    (hleaf : flags &&& pteLeaf ≠ 0) : LeafRange pa flags 0 := by
  refine ⟨zero_le 2, hal, ?_, hflags, hleaf⟩
  have h0 : levelShift 0 = 12 := rfl
  unfold pageSize at hal
  rw [h0]
  omega

section

variable (hr : LeafRange pa flags L)
include hr

lemma pa_lt : pa < 2 ^ 56 := by
  have hpos : 0 < 2 ^ levelShift L := Nat.two_pow_pos _
  have hend := hr.end_le
  omega

lemma pa_mod : pa % pageSize = 0 :=
  mod_eq_zero_of_dvd ((pageSize_dvd L).trans (dvd_of_mod_eq_zero hr.aligned))

lemma makePte_lt : makePte flags pa < 2 ^ 64 :=
  Vmm.makePte_lt hr.flags_lt hr.pa_lt

lemma pteAddr_eq : pteAddr (makePte flags pa) = pa :=
  pteAddr_makePte hr.flags_lt hr.pa_lt hr.pa_mod

lemma decodePte_eq : decodePte (makePte flags pa) = .leaf (makePte flags pa) := by
  have hleaf : makePte flags pa &&& pteLeaf ≠ 0 := by
    rw [makePte_and_pteLeaf]
    exact hr.leaf
  rw [decodePte, if_neg (makePte_and_pteV _ _), if_pos hleaf]

lemma leafMapping_eq (hal : va % 2 ^ levelShift L = 0) (hlo : va ≤ a) (hhi : a < va + 2 ^ levelShift L) :
    leafMapping a (L, makePte flags pa) = (pa + (a - va), pteV ||| flags) := by
  have hoff : leafOffset L a = a - va := by
    obtain ⟨k, rfl⟩ := dvd_of_mod_eq_zero hal
    obtain ⟨i, rfl⟩ := Nat.exists_eq_add_of_le hlo
    rw [leafOffset, Nat.mul_add_mod, Nat.mod_eq_of_lt (by omega), Nat.add_sub_cancel_left]
  rw [leafMapping, hr.pteAddr_eq, hoff, pteFlags_makePte hr.flags_lt]

end

end LeafRange

/-- From `s` to `s'` the leaf range at `va` has been mapped to `pa`, with the pages `fresh` as new
tables. -/
structure Mapped (s s' : Mm) (rootPa va pa flags L : ℕ) (fresh : Multiset ℕ) : Prop
    extends Pmm.Took s s' fresh where
  isTree : IsTree s' 3 rootPa
  /-- The change stays inside the bitmap, the new tables and the tables of the tree. -/
  changes : ∀ x, s'.mem x ≠ s.mem x →
    x ∈ bitmapRegion s ∨ x ∈ pagesOf fresh ∨ x ∈ pagesOf (sv39.tables s.mem 3 rootPa)
  mapping_eq : ∀ a < 2 ^ 39, mapping s'.mem rootPa a =
    if va ≤ a ∧ a < va + 2 ^ levelShift L then some (pa + (a - va), pteV ||| flags)
    else mapping s.mem rootPa a

section Leaf

variable (hv : Pmm.Valid s) (ht : IsTree s 3 rootPa) (hr : LeafRange pa flags L)

include hv ht hr in
lemma isTree_putEntry (hp : sv39.slotAddr s.mem (vaKey va) L (2 - L) rootPa = some p) :
    IsTree (putEntry s p (makePte flags pa)) 3 rootPa := by
  have htook := took_putEntry hv ht hr.level_le hp (makePte flags pa)
  have hle : sv39.tables (putEntry s p (makePte flags pa)).mem 3 rootPa ≤ sv39.tables s.mem 3 rootPa := by
    have hnodes := nodes_putEntry hv ht hr.level_le hp (fun _ => 0) hr.makePte_lt
    rw [hr.decodePte_eq, nodesEntry_leaf, add_zero] at hnodes
    exact (Multiset.le_add_right _ _).trans hnodes.le
  refine ⟨Multiset.nodup_of_le hle ht.nodup,
    fun T' hT' => htook.allocated (ht.allocated T' (Multiset.mem_of_le hle hT')), ?_⟩
  intro key hkey leaf hleaf
  rw [lookup_putEntry hv ht hr.level_le hp hkey hr.makePte_lt, hr.decodePte_eq, lookupEntry_leaf] at hleaf
  split_ifs at hleaf
  · cases hleaf
    rw [hr.pteAddr_eq]
    exact hr.end_le
  · exact ht.physical key hkey leaf hleaf

include hv ht hr in
lemma mapped_putEntry (hva : va < 2 ^ 39) (hal : va % 2 ^ levelShift L = 0)
    (hp : sv39.slotAddr s.mem (vaKey va) L (2 - L) rootPa = some p) :
    Mapped s (putEntry s p (makePte flags pa)) rootPa va pa flags L 0 := by
  refine ⟨took_putEntry hv ht hr.level_le hp _, isTree_putEntry hv ht hr hp, fun x hx => ?_, fun a ha => ?_⟩
  · obtain ⟨T', hT', hsub⟩ := slot_mem hr.level_le hp
    refine .inr (.inr ⟨T', hT', hsub x ?_⟩)
    by_contra hnot
    exact hx (Memory.store_apply_of_notMem hnot)
  · unfold mapping mappingAt
    rw [lookup_putEntry hv ht hr.level_le hp (vaKey_lt a) hr.makePte_lt, hr.decodePte_eq,
      lookupEntry_leaf, if_congr (samePath_iff hr.level_le ha hva hal) rfl rfl]
    by_cases hin : va ≤ a ∧ a < va + 2 ^ levelShift L
    · rw [if_pos hin, if_pos hin, Option.map_some, hr.leafMapping_eq hal hin.1 hin.2]
    · rw [if_neg hin, if_neg hin]

lemma Mapped.of_grown (hgrown : Grown s s1 3 rootPa fresh va L)
    (hmap : Mapped s1 s' rootPa va pa flags L 0) : Mapped s s' rootPa va pa flags L fresh where
  toTook := by
    have htook := hgrown.toTook.trans hmap.toTook
    rwa [add_zero] at htook
  isTree := hmap.isTree
  changes := by
    have hchanges := hgrown.changes_trans hmap.changes
    rwa [add_zero] at hchanges
  mapping_eq a ha := by
    have hmapping : mapping s1.mem rootPa a = mapping s.mem rootPa a := hgrown.mapping_eq a
    rw [hmap.mapping_eq a ha, hmapping]

include hv ht hr in
/-- `map_one` maps the range of one leaf, or it runs out of memory and changes no mapping. -/
theorem mapOne_spec (hphys : Pmm.Physical s) (hva : va < 2 ^ 39) (hal : va % 2 ^ levelShift L = 0) :
    (∃ s' fresh, mapOne rootPa va pa flags L s = .ok () s' ∧ Mapped s s' rootPa va pa flags L fresh) ∨
    ∃ s' fresh, mapOne rootPa va pa flags L s = .error .noMem s' ∧
      Grown s s' 3 rootPa fresh va L := by
  obtain ⟨s1, fresh, hgrown, -, ⟨p, hp, hok⟩ | ⟨herr, -⟩⟩ :=
    mapOne_cases hv hphys ht hr.level_le va pa flags
  · exact .inl ⟨_, fresh, hok, Mapped.of_grown hgrown
      (mapped_putEntry hgrown.valid (hgrown.isTree ht) hr hva hal hp)⟩
  · exact .inr ⟨s1, fresh, herr, hgrown⟩

end Leaf

/-- The flags of the leaf that maps `va`, if there is one. -/
def leafFlags (m : Memory) (rootPa va : ℕ) : Option ℕ := (mapping m rootPa va).map Prod.snd

lemma translate_congr {m m' : Memory} (h : mapping m' rootPa a = mapping m rootPa a) :
    translate m' rootPa a = translate m rootPa a ∧
      translateUser m' rootPa a = translateUser m rootPa a ∧
      leafFlags m' rootPa a = leafFlags m rootPa a := by
  rw [translate_eq, translate_eq, translateUser_eq, translateUser_eq, leafFlags, leafFlags, h]
  exact ⟨rfl, rfl, rfl⟩

/-- Mapping a page of 4 KiB.  On success the page is mapped to `pa`, and outside of it both walkers
and the flags of the leaves are unchanged, also where a superpage had to be divided; when memory runs
out, every address is translated as before. -/
theorem mapOne_frame (hv : Pmm.Valid s) (hphys : Pmm.Physical s) (ht : IsTree s 3 rootPa)
    (hva : va < 2 ^ 39) (hval : va % pageSize = 0) (hpa : pa < 2 ^ 56) (hpal : pa % pageSize = 0)
    (hflags : flags < 2 ^ 10) (hleaf : flags &&& (pteR ||| pteX) ≠ 0) :
    (∀ s', mapOne rootPa va pa flags 0 s = .ok () s' →
      (∀ i < pageSize, translate s'.mem rootPa (va + i) = pa + i) ∧
      ∀ a < 2 ^ 39, a ∉ Set.Ico va (va + pageSize) →
        translate s'.mem rootPa a = translate s.mem rootPa a ∧
        translateUser s'.mem rootPa a = translateUser s.mem rootPa a ∧
        leafFlags s'.mem rootPa a = leafFlags s.mem rootPa a) ∧
    ∀ s', mapOne rootPa va pa flags 0 s = .error .noMem s' →
      ∀ a, translate s'.mem rootPa a = translate s.mem rootPa a := by
  have hr : LeafRange pa flags 0 := LeafRange.of_page hpa hpal hflags hleaf
  rcases mapOne_spec hv ht hr hphys hva hval with ⟨s1, fresh, hok, hmap⟩ | ⟨s1, fresh, herr, hgrown⟩
  · refine ⟨fun s' hs' => ?_, fun s' hs' => ?_⟩
    · cases hok.symm.trans hs'
      refine ⟨fun i hi => ?_, fun a ha hout => translate_congr ?_⟩
      · have hlt : va + i < 2 ^ 39 := by
          unfold pageSize at hi hval
          omega
        rw [translate_eq, hmap.mapping_eq _ hlt, if_pos ⟨le_add_right va i, by
          exact Nat.add_lt_add_left hi va⟩, Nat.add_sub_cancel_left]
        rfl
      · rw [hmap.mapping_eq a ha]
        exact if_neg hout
    · cases hok.symm.trans hs'
  · refine ⟨fun s' hs' => ?_, fun s' hs' a => ?_⟩
    · cases herr.symm.trans hs'
    · cases herr.symm.trans hs'
      exact (translate_congr (hgrown.mapping_eq a)).1

/-- A machine with eight managed pages, all of them free. -/
def bareMm : Mm where
  mem _ := 0
  pmm :=
    { base := 0x80400000, totalPages := 8, freePages := 8, bitmap := 0x803ff000
      slabHeads := fun _ => 0 }
  heap := ⟨0, 0⟩

/-- The same machine after `new_root`. -/
def rootMm : Mm :=
  { bmSet bareMm 0 with mem := (bmSet bareMm 0).mem.fill 0x80400000 pageSize 0 }

lemma bareMm_valid : Pmm.Valid bareMm :=
  ⟨by decide, by decide, by decide, by decide⟩

lemma rootMm_allocated : Pmm.AllocatedPage bareMm rootMm 0 0x80400000 :=
  ⟨by decide, by decide, fun j hj => absurd hj (not_lt_zero j), rfl, rfl⟩

lemma rootMm_valid : Pmm.Valid rootMm := rootMm_allocated.valid bareMm_valid

lemma rootMm_physical : Pmm.Physical rootMm := by
  unfold Pmm.Physical
  decide

lemma rootMm_isTree : IsTree rootMm 3 0x80400000 := isTree_zeroed bareMm_valid rootMm_allocated 2

/-- The new root with a leaf of 1 GiB that maps the memory of the kernel to itself. -/
def identityMm : Mm := putEntry rootMm (0x80400000 + 2 * 8) (makePte 0xCE 0x80000000)

lemma identityMm_leaf : LeafRange 0x80000000 0xCE 2 :=
  ⟨by decide, by decide, by decide, by decide, by decide⟩

lemma identityMm_slot :
    sv39.slotAddr rootMm.mem (vaKey 0x80000000) 2 (2 - 2) 0x80400000 = some (0x80400000 + 2 * 8) := by
  rw [Nat.sub_self, slotAddr, sv39_width]
  rfl

lemma identityMm_took : Pmm.Took rootMm identityMm 0 :=
  took_putEntry rootMm_valid rootMm_isTree (by decide) identityMm_slot _

lemma identityMm_isTree : IsTree identityMm 3 0x80400000 :=
  isTree_putEntry rootMm_valid rootMm_isTree identityMm_leaf identityMm_slot

/-- One page of the identity leaf is mapped elsewhere: the leaf is divided, and the rest of it stays. -/
theorem mapOne_frame_identityMm :
    (∀ s', mapOne 0x80400000 0x80001000 0x80407000 (pteV ||| pteR ||| pteU) 0 identityMm = .ok () s' →
      (∀ i < pageSize, translate s'.mem 0x80400000 (0x80001000 + i) = 0x80407000 + i) ∧
      ∀ a < 2 ^ 39, a ∉ Set.Ico 0x80001000 (0x80001000 + pageSize) →
        translate s'.mem 0x80400000 a = translate identityMm.mem 0x80400000 a ∧
        translateUser s'.mem 0x80400000 a = translateUser identityMm.mem 0x80400000 a ∧
        leafFlags s'.mem 0x80400000 a = leafFlags identityMm.mem 0x80400000 a) ∧
    ∀ s', mapOne 0x80400000 0x80001000 0x80407000 (pteV ||| pteR ||| pteU) 0 identityMm =
        .error .noMem s' →
      ∀ a, translate s'.mem 0x80400000 a = translate identityMm.mem 0x80400000 a :=
  mapOne_frame identityMm_took.valid
    (rootMm_physical.congr identityMm_took.base_eq identityMm_took.total_eq) identityMm_isTree
    (by decide) (by decide) (by decide) (by decide) (by decide) (by decide)

/-! ### Mapping a range -/

lemma bestLevel_spec {remaining : ℕ} (hva : va % pageSize = 0) (hpa : pa % pageSize = 0)
    (hrem : remaining % pageSize = 0) (hpos : remaining ≠ 0) :
    bestLevel va pa remaining ≤ 2 ∧ va % 2 ^ levelShift (bestLevel va pa remaining) = 0 ∧
      pa % 2 ^ levelShift (bestLevel va pa remaining) = 0 ∧
      2 ^ levelShift (bestLevel va pa remaining) ≤ remaining := by
  unfold bestLevel
  simp only [and_two_pow_sub_one_eq_mod]
  by_cases h2 : 2 ^ 30 ≤ remaining ∧ va % 2 ^ 30 = 0 ∧ pa % 2 ^ 30 = 0
  · rw [if_pos h2]
    exact ⟨le_rfl, h2.2.1, h2.2.2, h2.1⟩
  · rw [if_neg h2]
    by_cases h1 : 2 ^ 21 ≤ remaining ∧ va % 2 ^ 21 = 0 ∧ pa % 2 ^ 21 = 0
    · rw [if_pos h1]
      exact ⟨by decide, h1.2.1, h1.2.2, h1.1⟩
    · rw [if_neg h1]
      refine ⟨by decide, hva, hpa, ?_⟩
      exact le_of_dvd (pos_of_ne_zero hpos) (dvd_of_mod_eq_zero hrem)

lemma mapLoop_mapping (hflags : flags < 2 ^ 10) (hleaf : flags &&& pteLeaf ≠ 0) (remaining : ℕ) :
    ∀ va pa s s', Pmm.Valid s → Pmm.Physical s → IsTree s 3 rootPa →
      va % pageSize = 0 → pa % pageSize = 0 → remaining % pageSize = 0 →
      va + remaining ≤ 2 ^ 39 → pa + remaining ≤ 2 ^ 56 →
      mapLoop rootPa flags va pa remaining s = .ok () s' →
      ∀ a < 2 ^ 39, mapping s'.mem rootPa a =
        if va ≤ a ∧ a < va + remaining then some (pa + (a - va), pteV ||| (flags ||| pteA ||| pteD))
        else mapping s.mem rootPa a := by
  induction remaining using Nat.strong_induction_on with
  | _ remaining ih =>
  intro va pa s s' hv hphys ht hva hpa hrem hvend hpend hok a ha
  rw [mapLoop] at hok
  by_cases hzero : remaining = 0
  · rw [dif_pos hzero] at hok
    cases hok
    rw [if_neg (by omega)]
  rw [dif_neg hzero] at hok
  obtain ⟨hL, hval, hpal, hle⟩ := bestLevel_spec hva hpa hrem hzero
  set L := bestLevel va pa remaining with hLdef
  have hsize : pageSize ∣ 2 ^ levelShift L := pageSize_dvd L
  have hchunk : min (2 ^ levelShift L) remaining = 2 ^ levelShift L := min_eq_left hle
  have hpos : 0 < 2 ^ levelShift L := Nat.two_pow_pos _
  have hr : LeafRange pa (flags ||| pteA ||| pteD) L := by
    refine ⟨hL, hpal, by omega, ?_, ?_⟩
    · exact or_lt_two_pow (or_lt_two_pow hflags (by decide)) (by decide)
    · have hbits : (flags ||| pteA ||| pteD) &&& pteLeaf = flags &&& pteLeaf := by
        have hA : pteA &&& pteLeaf = 0 := by decide
        have hD : pteD &&& pteLeaf = 0 := by decide
        rw [and_or_distrib_right, and_or_distrib_right, hA, hD, or_zero, or_zero]
      rwa [hbits]
  have hcases := mapOne_spec hv ht hr hphys (by omega) hval
  rw [hchunk] at hok
  obtain ⟨u, s1, hone, hrest⟩ := bind_eq_ok_iff.mp hok
  rcases hcases with ⟨s2, fresh, hone', hmap⟩ | ⟨s2, fresh, herr, -⟩
  swap
  · cases hone.symm.trans herr
  cases hone.symm.trans hone'
  rw [wadd_of_lt (by unfold wordSize; omega), wadd_of_lt (by unfold wordSize; omega)] at hrest
  have hrest' := ih (remaining - 2 ^ levelShift L) (by omega) _ _ s1 s' hmap.valid
    (hphys.congr hmap.base_eq hmap.total_eq) hmap.isTree
    (Nat.mod_eq_zero_of_dvd (Nat.dvd_add (Nat.dvd_of_mod_eq_zero hva) hsize))
    (Nat.mod_eq_zero_of_dvd (Nat.dvd_add (Nat.dvd_of_mod_eq_zero hpa) hsize))
    (mod_eq_zero_of_dvd (dvd_sub (dvd_of_mod_eq_zero hrem) hsize))
    (by omega) (by omega) hrest a ha
  rw [hrest', hmap.mapping_eq a ha]
  -- the chunk of this turn, what remains behind it, and the addresses outside both
  by_cases hin : va + 2 ^ levelShift L ≤ a ∧ a < va + remaining
  · rw [if_pos (by omega), if_pos (by omega)]
    congr 2
    omega
  rw [if_neg (by omega)]
  by_cases hin' : va ≤ a ∧ a < va + 2 ^ levelShift L
  · rw [if_pos hin', if_pos (by omega)]
  · rw [if_neg hin', if_neg (by omega)]

/-- Mapping a range.  Whatever leaves `best_level` chooses, after a successful `map` the range is
mapped to `paddr`, and every address outside of it is translated as before. -/
theorem map_translate {vaddr paddr size : ℕ} (hv : Pmm.Valid s) (hphys : Pmm.Physical s)
    (ht : IsTree s 3 rootPa) (hva : vaddr % pageSize = 0) (hpa : paddr % pageSize = 0)
    (hsize : size % pageSize = 0) (hvend : vaddr + size ≤ 2 ^ 39) (hpend : paddr + size ≤ 2 ^ 56)
    (hflags : flags < 2 ^ 10) (hleaf : flags &&& (pteR ||| pteX) ≠ 0)
    (hok : map rootPa vaddr paddr size flags s = .ok () s') :
    (∀ i < size, translate s'.mem rootPa (vaddr + i) = paddr + i) ∧
      ∀ a < 2 ^ 39, a ∉ Set.Ico vaddr (vaddr + size) →
        translate s'.mem rootPa a = translate s.mem rootPa a := by
  have hmap := mapLoop_mapping hflags hleaf size vaddr paddr s s' hv hphys ht hva hpa hsize hvend
    hpend hok
  refine ⟨fun i hi => ?_, fun a ha hout => (translate_congr ?_).1⟩
  · rw [translate_eq, hmap _ (by omega), if_pos (by omega), Nat.add_sub_cancel_left]
    rfl
  · rw [hmap a ha]
    exact if_neg hout

lemma map_rootMm_isOk : ∃ s', map 0x80400000 0x10000 0x80407000 pageSize (pteV ||| pteR) rootMm =
    .ok () s' := by
  have hone : (match mapOne 0x80400000 0x10000 0x80407000 (pteV ||| pteR ||| pteA ||| pteD) 0 rootMm with
      | .ok _ _ => true
      | .error _ _ => false) = true := by
    decide +kernel
  cases hres : mapOne 0x80400000 0x10000 0x80407000 (pteV ||| pteR ||| pteA ||| pteD) 0 rootMm with
  | ok u s' =>
    refine ⟨s', ?_⟩
    have hlevel : bestLevel 0x10000 0x80407000 pageSize = 0 := by decide
    have hchunk : min (2 ^ levelShift 0) pageSize = pageSize := by decide
    rw [map, mapLoop, dif_neg (by decide)]
    rw [hlevel, hchunk, bind_of_ok hres, Nat.sub_self, mapLoop, dif_pos rfl]
    rfl
  | error e s' =>
    rw [hres] at hone
    exact absurd hone Bool.false_ne_true

/-- One page mapped into the new root. -/
theorem map_translate_rootMm :
    ∃ s', map 0x80400000 0x10000 0x80407000 pageSize (pteV ||| pteR) rootMm = .ok () s' ∧
      (∀ i < pageSize, translate s'.mem 0x80400000 (0x10000 + i) = 0x80407000 + i) ∧
      ∀ a < 2 ^ 39, a ∉ Set.Ico 0x10000 (0x10000 + pageSize) →
        translate s'.mem 0x80400000 a = translate rootMm.mem 0x80400000 a := by
  obtain ⟨s', hok⟩ := map_rootMm_isOk
  exact ⟨s', hok, map_translate rootMm_valid rootMm_physical rootMm_isTree (by decide) (by decide)
    (by decide) (by decide) (by decide) (by decide) (by decide) hok⟩

end OnyxKernel.Vmm
