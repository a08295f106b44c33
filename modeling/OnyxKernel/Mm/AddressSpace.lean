import OnyxKernel.Mm.PageTableMap

/-!
# Address spaces under construction

An address space is built page by page: a page is taken from the allocator, mapped at the lowest level,
and then written through its physical address.  `Space` is what holds in between, for arbitrary flags:
the tables and the pages obtained for data are exactly what has been taken from the allocator.
-/

namespace OnyxKernel.Vmm

open ByteMemory RadixTree Multiset Option Nat Set Memory Format Pmm

variable {s0 s s1 s' : Mm} {rootPa va pa flags p pte f : ℕ} {fresh data : Multiset ℕ} {m : Memory}
  {a : ℕ} {bytes : List UInt8}

/-! ### Entries of the lowest level -/

/-- What the entry `pte` of the lowest level does with the address `a` of its page. -/
def pageEntry (pte a : ℕ) : Option (ℕ × ℕ) :=
  match decodePte pte with
  | .leaf pte => some (leafMapping a (0, pte))
  | _ => none

lemma pteAddr_add_le (pte : ℕ) : pteAddr pte + pageSize ≤ 2 ^ 56 := by
  rw [pteAddr_eq]
  unfold pageSize
  omega

lemma lookupEntry_zero (m : Memory) (key : ℕ → ℕ) (a : ℕ) :
    (sv39.lookupEntry m key 0 (decodePte pte)).map (leafMapping a) = pageEntry pte a := by
  unfold pageEntry
  cases decodePte pte with
  | absent => rw [lookupEntry_absent, map_none]
  | leaf pte => rw [lookupEntry_leaf, map_some]
  | table C =>
    rfl

lemma le_pteAddr_makePte (hflags : flags < 2 ^ 54) (hpa : pa < 2 ^ 56) :
    flags / 2 ^ 10 * pageSize ≤ pteAddr (makePte flags pa) := by
  have hlt : makePte flags pa < 2 ^ 54 := by
    unfold makePte ptePpnShift
    refine or_lt_two_pow (or_lt_two_pow (by decide) hflags) ?_
    omega
  have hle : flags ≤ makePte flags pa := by
    exact right_le_or.trans left_le_or
  rw [pteAddr_eq, mod_eq_of_lt (by omega)]
  exact Nat.mul_le_mul_right _ (Nat.div_le_div_right hle)

lemma tablesEntry_zero (m : Memory) (e : Entry ℕ) : sv39.nodesEntry (fun _ => 0) m 0 e = 0 := by
  cases e with
  | absent => exact nodesEntry_absent _ _ _
  | leaf pte => exact nodesEntry_leaf _ _ _ _
  | table C =>
    rfl

/-- From `s` to `s'` the entry of the page at `va` has become `pte`, with the pages `fresh` as new
tables. -/
structure PageMapped (s s' : Mm) (rootPa va pte : ℕ) (fresh : Multiset ℕ) : Prop
    extends Pmm.Took s s' fresh where
  isTree : IsTree s' 3 rootPa
  tables_eq : sv39.tables s'.mem 3 rootPa = sv39.tables s.mem 3 rootPa + fresh
  /-- The change stays inside the bitmap, the new tables and the tables of the tree. -/
  changes : ∀ x, s'.mem x ≠ s.mem x →
    x ∈ bitmapRegion s ∨ x ∈ pagesOf fresh ∨ x ∈ pagesOf (sv39.tables s.mem 3 rootPa)
  mapping_eq : ∀ a < 2 ^ 39, mapping s'.mem rootPa a =
    if va ≤ a ∧ a < va + pageSize then pageEntry pte a else mapping s.mem rootPa a

lemma pageMapped_putEntry (hv : Pmm.Valid s) (ht : IsTree s 3 rootPa) (hpte : pte < 2 ^ 64)
    (hva : va < 2 ^ 39) (hval : va % pageSize = 0)
    (hp : sv39.slotAddr s.mem (vaKey va) 0 (2 - 0) rootPa = some p) :
    PageMapped s (putEntry s p pte) rootPa va pte 0 := by
  have htook := took_putEntry hv ht (zero_le 2) hp pte
  have htables : sv39.tables (putEntry s p pte).mem 3 rootPa = sv39.tables s.mem 3 rootPa := by
    have hnodes := nodes_putEntry hv ht (zero_le 2) hp (fun _ => 0) hpte
    rwa [tablesEntry_zero, tablesEntry_zero, add_zero, add_zero] at hnodes
  refine ⟨htook, ⟨?_, fun T' hT' => ?_, fun key hkey leaf hleaf => ?_⟩, ?_, fun x hx => ?_, fun a ha => ?_⟩
  · rw [htables]
    exact ht.nodup
  · rw [htables] at hT'
    exact htook.allocated (ht.allocated T' hT')
  · rw [lookup_putEntry hv ht (zero_le 2) hp hkey hpte] at hleaf
    split_ifs at hleaf
    · cases he : decodePte pte with
      | absent =>
        rw [he, lookupEntry_absent] at hleaf
        cases hleaf
      | leaf pte' =>
        rw [he, lookupEntry_leaf] at hleaf
        cases hleaf
        exact pteAddr_add_le pte'
      | table C =>
        rw [he, lookupEntry_table] at hleaf
        cases hleaf
    · exact ht.physical key hkey leaf hleaf
  · rw [htables, add_zero]
  · obtain ⟨T', hT', hsub⟩ := slot_mem (zero_le 2) hp
    refine .inr (.inr ⟨T', hT', hsub x ?_⟩)
    by_contra hnot
    exact hx (store_apply_of_notMem hnot)
  · unfold mapping mappingAt
    rw [lookup_putEntry hv ht (zero_le 2) hp (vaKey_lt a) hpte,
      if_congr (samePath_iff (zero_le 2) ha hva hval) rfl rfl]
    by_cases hin : va ≤ a ∧ a < va + pageSize
    · have hin' : va ≤ a ∧ a < va + 2 ^ levelShift 0 := hin
      rw [if_pos hin, if_pos hin', lookupEntry_zero]
    · have hin' : ¬ (va ≤ a ∧ a < va + 2 ^ levelShift 0) := hin
      rw [if_neg hin, if_neg hin']

lemma PageMapped.of_grown (hgrown : Grown s s1 3 rootPa fresh va 0)
    (hmap : PageMapped s1 s' rootPa va pte 0) : PageMapped s s' rootPa va pte fresh where
  toTook := by
    have htook := hgrown.toTook.trans hmap.toTook
    rwa [add_zero] at htook
  isTree := hmap.isTree
  tables_eq := by rw [hmap.tables_eq, hgrown.tables_eq, add_zero]
  changes := by
    have hchanges := hgrown.changes_trans hmap.changes
    rwa [add_zero] at hchanges
  mapping_eq a ha := by
    have hmapping : mapping s1.mem rootPa a = mapping s.mem rootPa a := hgrown.mapping_eq a
    rw [hmap.mapping_eq a ha, hmapping]

/-- `map_one` at the lowest level, with any flags that fit into an entry. -/
theorem mapOne_page (hv : Pmm.Valid s) (hphys : Pmm.Physical s) (ht : IsTree s 3 rootPa)
    (hva : va < 2 ^ 39) (hval : va % pageSize = 0) (hpte : makePte flags pa < 2 ^ 64) :
    (∃ s' fresh, mapOne rootPa va pa flags 0 s = .ok () s' ∧ fresh.card ≤ 2 ∧
      PageMapped s s' rootPa va (makePte flags pa) fresh) ∨
    ∃ s', mapOne rootPa va pa flags 0 s = .error .noMem s' ∧ s.pmm.freePages ≤ 2 := by
  obtain ⟨s1, fresh, hgrown, hcard, ⟨p, hp, hok⟩ | ⟨herr, hfull⟩⟩ :=
    mapOne_cases hv hphys ht (zero_le 2) va pa flags
  · exact .inl ⟨_, fresh, hok, hcard, PageMapped.of_grown hgrown
      (pageMapped_putEntry hgrown.valid (hgrown.isTree ht) hpte hva hval hp)⟩
  · refine .inr ⟨s1, herr, ?_⟩
    have hfree := hgrown.free_add
    rw [hfull.freePages_eq hgrown.valid, zero_add] at hfree
    rwa [← hfree]

/-! ### Spaces -/

/-- The page table at `rootPa` with the pages `data`, as built since the state `s0`. -/
structure Space (s0 : Mm) (rootPa : ℕ) (s : Mm) (data : Multiset ℕ) : Prop where
  /-- The tables and the pages for data are what has been taken. -/
  took : Pmm.Took s0 s (sv39.tables s.mem 3 rootPa + data)
  isTree : IsTree s 3 rootPa
  physical : Pmm.Physical s

namespace Space

section

variable (h : Space s0 rootPa s data)
include h

lemma valid : Pmm.Valid s := h.took.valid

lemma allocated (hf : f ∈ data) : Pmm.Allocated s f :=
  h.took.allocated_of_mem (mem_add.mpr (.inr hf))

lemma notMem_tables (hf : f ∈ data) : f ∉ sv39.tables s.mem 3 rootPa := by
  intro hmem
  exact (disjoint_left.mp (nodup_add.mp h.took.nodup).2.2) hmem hf

lemma clear (hf : f ∈ data) : ∃ j < s0.pmm.totalPages, f = idxToPa s0 j ∧ bmGet s0 j = false ∧
      bmGet s j = true := by
  have hmem : f ∈ sv39.tables s.mem 3 rootPa + data := mem_add.mpr (.inr hf)
  obtain ⟨j, hj, hfj, hclear⟩ := h.took.clear f hmem
  refine ⟨j, hj, hfj, hclear, (h.took.bits j (lt_bitCount hj)).mpr (.inr ?_)⟩
  rwa [← hfj]

lemma of_changes (hm : ∀ x, m x ≠ s.mem x → ∃ f ∈ data, x ∈ sv39.page f) :
    Space s0 rootPa { s with mem := m } data ∧ ∀ a, mapping m rootPa a = mapping s.mem rootPa a := by
  have hpage : ∀ T' ∈ sv39.tables s.mem 3 rootPa, EqOn m s.mem (sv39.page T') := by
    intro T' hT' x hx
    by_contra hne
    obtain ⟨f, hf, hxf⟩ := hm x hne
    have hneq : T' ≠ f := fun heq => h.notMem_tables hf (heq ▸ hT')
    exact page_disjoint (h.valid.allocated_mod (h.isTree.allocated T' hT'))
      (h.valid.allocated_mod (h.allocated hf)) hneq hx hxf
  have hbitmap : EqOn m s.mem (bitmapRegion s) := by
    intro x hx
    by_contra hne
    obtain ⟨f, hf, hxf⟩ := hm x hne
    exact notMem_bitmapRegion h.valid (h.allocated hf) hxf hx
  have hself : Pmm.Took s { s with mem := m } 0 := (Pmm.Took.refl h.valid).of_eqOn rfl hbitmap
  have htables : sv39.tables m 3 rootPa = sv39.tables s.mem 3 rootPa :=
    nodes_congr 3 rootPa hpage
  refine ⟨⟨?_, h.isTree.congr hpage fun T' hT' => hself.allocated (h.isTree.allocated T' hT'),
    h.physical⟩, fun a => mappingAt_congr hpage a⟩
  have htook := h.took.trans hself
  rw [add_zero] at htook
  rwa [htables]

end

end Space

/-- From `s` to `s'` the page `f` has been taken from the allocator and mapped at `va`. -/
structure NewPage (s0 : Mm) (rootPa : ℕ) (s s' : Mm) (data : Multiset ℕ) (va flags f : ℕ) : Prop where
  space : Space s0 rootPa s' (f ::ₘ data)
  free_le : s.pmm.freePages ≤ s'.pmm.freePages + 3
  mapping_eq : ∀ a < 2 ^ 39, mapping s'.mem rootPa a =
    if va ≤ a ∧ a < va + pageSize then pageEntry (makePte flags f) a else mapping s.mem rootPa a
  /-- The pages for data that were there are not written. -/
  kept : ∀ g ∈ data, EqOn s'.mem s.mem (sv39.page g)
  /-- The new page is zeroed. -/
  zero : ∀ x ∈ sv39.page f, s'.mem x = 0

lemma makePte_lt_of_lt (hflags : flags < 2 ^ 54) (hpa : pa < 2 ^ 56) : makePte flags pa < 2 ^ 64 := by
  unfold makePte ptePpnShift
  refine or_lt_two_pow (or_lt_two_pow (by decide) (hflags.trans (by decide))) ?_
  omega

lemma Space.mapNew_cases (h : Space s0 rootPa s data) (hva : va < 2 ^ 39)
    (hval : va % pageSize = 0) (hflags : flags < 2 ^ 54) :
    (∃ f s1 s', alloc s = .ok f s1 ∧ mapOne rootPa va f flags 0 s1 = .ok () s' ∧
      NewPage s0 rootPa s s' data va flags f) ∨
    s.pmm.freePages ≤ 3 ∧ (alloc s = .error .noMem s ∨
      ∃ f s1 s', alloc s = .ok f s1 ∧ mapOne rootPa va f flags 0 s1 = .error .noMem s') := by
  have hv := h.valid
  rcases alloc_cases s with ⟨f, j, s1, hok, ha⟩ | ⟨herr, hfull⟩
  swap
  · refine .inr ⟨?_, .inl herr⟩
    rw [Pmm.Full.freePages_eq hfull hv]
    exact zero_le 3
  have htook := ha.took hv
  have hm : ∀ T' ∈ sv39.tables s.mem 3 rootPa, EqOn s1.mem s.mem (sv39.page T') :=
    fun T' hT' => eqOn_page_of_alloc ha hv (h.isTree.allocated T' hT')
  have ht1 : IsTree s1 3 rootPa :=
    h.isTree.congr hm fun T' hT' => htook.allocated (h.isTree.allocated T' hT')
  have hphys1 := h.physical.congr htook.base_eq htook.total_eq
  have htables : sv39.tables s1.mem 3 rootPa = sv39.tables s.mem 3 rootPa :=
    nodes_congr 3 rootPa hm
  have hlt : f < 2 ^ 56 := by
    rw [ha.pa_eq]
    exact h.physical.idxToPa_lt ha.lt
  have hfree1 := htook.free_add
  rw [Multiset.card_singleton] at hfree1
  rcases mapOne_page htook.valid hphys1 ht1 hva hval (makePte_lt_of_lt hflags hlt) with
    ⟨s', fresh, hone, hcard, hmap⟩ | ⟨s', hone, hfree⟩
  swap
  · exact .inr ⟨by omega, .inr ⟨f, s1, s', hok, hone⟩⟩
  have hfree2 := hmap.free_add
  -- a page that was allocated before `f` is neither `f`, nor a new table, nor the bitmap
  have hkeep : ∀ g, Pmm.Allocated s1 g → g ∉ sv39.tables s.mem 3 rootPa →
      EqOn s'.mem s1.mem (sv39.page g) := by
    intro g hg hnot x hx
    by_contra hne
    have hgmod := htook.valid.allocated_mod hg
    rcases hmap.changes x hne with hb | ⟨f', hf', hxf⟩ | ⟨T', hT', hxT⟩
    · exact notMem_bitmapRegion htook.valid hg hx hb
    · have hne' : g ≠ f' := fun heq => hmap.toTook.notMem_of_allocated hg (heq ▸ hf')
      obtain ⟨i, -, hfi, -⟩ := hmap.clear f' hf'
      refine page_disjoint hgmod ?_ hne' hx hxf
      rw [hfi]
      exact htook.valid.idxToPa_mod i
    · have hne' : g ≠ T' := fun heq => hnot (htables ▸ heq ▸ hT')
      exact page_disjoint hgmod (htook.valid.allocated_mod (ht1.allocated T' hT')) hne' hx hxT
  have hf : Pmm.Allocated s1 f := htook.allocated_of_mem (mem_singleton_self f)
  refine .inl ⟨f, s1, s', hok, hone, ⟨?_, hmap.isTree,
    hphys1.congr hmap.base_eq hmap.total_eq⟩, ?_, fun a ha' => ?_, fun g hg => ?_, fun x hx => ?_⟩
  · have htrans := (h.took.trans htook).trans hmap.toTook
    have hsum : sv39.tables s.mem 3 rootPa + data + {f} + fresh =
        sv39.tables s'.mem 3 rootPa + (f ::ₘ data) := by
      rw [hmap.tables_eq, htables, ← singleton_add]
      abel
    rwa [hsum] at htrans
  · omega
  · rw [hmap.mapping_eq a ha', mapping, mapping, mappingAt_congr hm a]
  · have hg' := htook.allocated (h.allocated hg)
    exact (hkeep g hg' (h.notMem_tables hg)).trans (eqOn_page_of_alloc ha hv (h.allocated hg))
  · have hnot : f ∉ sv39.tables s.mem 3 rootPa := fun hmem =>
      htook.notMem_of_allocated (h.isTree.allocated f hmem) (mem_singleton_self f)
    rw [hkeep f hf hnot hx]
    refine ha.mem_page ?_
    rwa [pageRegion_eq ha]

/-! ### Addresses above Sv39, and addresses inside a page -/

lemma two_pow_levelShift_dvd (l : ℕ) : 2 ^ levelShift l * 512 ∣ 2 ^ 39 := by
  unfold levelShift
  split <;> decide

lemma levelIdx_mod (l va : ℕ) : levelIdx l (va % 2 ^ 39) = levelIdx l va := by
  obtain ⟨k, hk⟩ := two_pow_levelShift_dvd l
  rw [levelIdx_eq, levelIdx_eq, hk, mul_assoc, mod_mul_right_div_self, mod_mul_right_mod]

lemma leafOffset_mod (l va : ℕ) : leafOffset l (va % 2 ^ 39) = leafOffset l va := by
  exact mod_mod_of_dvd va ((dvd_mul_right _ 512).trans (two_pow_levelShift_dvd l))

lemma mapping_mod (m : Memory) (rootPa va : ℕ) : mapping m rootPa (va % 2 ^ 39) = mapping m rootPa va := by
  have hkey : vaKey (va % 2 ^ 39) = vaKey va := funext fun l => levelIdx_mod l va
  have hleaf : leafMapping (va % 2 ^ 39) = leafMapping va := by
    funext leaf
    rw [leafMapping, leafMapping, leafOffset_mod]
  rw [mapping, mapping, mappingAt, mappingAt, hkey, hleaf]

lemma walkLoop_mod (va L : ℕ) (create : Bool) (n : ℕ) :
    walkLoop (va % 2 ^ 39) L create n = walkLoop va L create n := by
  induction n with
  | zero =>
    funext T
    rw [walkLoop, walkLoop, levelIdx_mod]
  | succ n ih =>
    funext T
    rw [walkLoop, walkLoop, levelIdx_mod, ih]

lemma mapOne_mod (rootPa va pa flags L : ℕ) :
    mapOne rootPa (va % 2 ^ 39) pa flags L = mapOne rootPa va pa flags L := by
  unfold mapOne walk
  rw [walkLoop_mod]

lemma pageFloor_add (a : ℕ) : pageFloor a + a % pageSize = a := div_add_mod' a pageSize

lemma pageFloor_mod (a : ℕ) : pageFloor a % pageSize = 0 := mul_mod_left _ _

lemma pageFloor_le (a : ℕ) : pageFloor a ≤ a := div_mul_le_self a pageSize

lemma levelIdx_pageFloor (l a : ℕ) : levelIdx l (pageFloor a) = levelIdx l a := by
  obtain ⟨k, hk⟩ := pageSize_dvd l
  have hpos : 0 < pageSize := by decide
  rw [levelIdx_eq, levelIdx_eq, hk, pageFloor, ← Nat.div_div_eq_div_mul, ← Nat.div_div_eq_div_mul,
    Nat.mul_div_cancel _ hpos]

lemma leafOffset_pageFloor (l a : ℕ) : leafOffset l a = leafOffset l (pageFloor a) + a % pageSize := by
  unfold leafOffset
  obtain ⟨k, hk⟩ := pageSize_dvd l
  rw [hk, Nat.mod_mul, Nat.mod_mul, pageFloor_mod, pageFloor, Nat.mul_div_cancel _ (by decide),
    zero_add, add_comm]

lemma mapping_pageFloor (m : Memory) (rootPa a : ℕ) : mapping m rootPa a =
      (mapping m rootPa (pageFloor a)).map fun x => (x.1 + a % pageSize, x.2) := by
  have hkey : vaKey (pageFloor a) = vaKey a := funext fun l => levelIdx_pageFloor l a
  rw [mapping, mapping, mappingAt, mappingAt, hkey, Option.map_map]
  refine congrArg (Option.map · _) (funext fun leaf => ?_)
  rw [Function.comp_apply, leafMapping, leafMapping, leafOffset_pageFloor, add_assoc]

/-! ### The user's view -/

/-- The page of `a` is mapped for the user, to the page at `f`. -/
def UserFrame (m : Memory) (rootPa a f : ℕ) : Prop :=
  ∃ fl, mapping m rootPa (pageFloor a) = some (f, fl) ∧ fl &&& pteU ≠ 0

/-- The user's pages are pages for data, a different one for every virtual page. -/
structure Owned (m : Memory) (rootPa : ℕ) (data : Multiset ℕ) : Prop where
  mem : ∀ a f, UserFrame m rootPa a f → f ∈ data
  inj : ∀ a b f, UserFrame m rootPa a f → UserFrame m rootPa b f → pageFloor a % 2 ^ 39 = pageFloor b % 2 ^ 39

/-- The byte that the user sees at `a`. -/
def view (m : Memory) (rootPa a : ℕ) : Option UInt8 :=
  (mapping m rootPa a).bind fun x => if x.2 &&& pteU ≠ 0 then some (m x.1) else none

lemma UserFrame.unique {g : ℕ} (h : UserFrame m rootPa a f) (h' : UserFrame m rootPa a g) : f = g := by
  obtain ⟨fl, hf, -⟩ := h
  obtain ⟨fl', hg, -⟩ := h'
  rw [hf] at hg
  exact (Prod.mk.inj (some.inj hg)).1

lemma UserFrame.translate_eq (h : UserFrame m rootPa a f) :
    translateUser m rootPa (pageFloor a) = f ∧ translate m rootPa (pageFloor a) = f := by
  obtain ⟨fl, hf, hU⟩ := h
  rw [translateUser_eq, Vmm.translate_eq, hf]
  exact ⟨if_pos hU, rfl⟩

/-- Where `translate_user` finds a page, it is mapped for the user. -/
theorem userFrame_of_translateUser (h : translateUser m rootPa (pageFloor a) ≠ 0) :
    UserFrame m rootPa a (translateUser m rootPa (pageFloor a)) := by
  rw [translateUser_eq] at h ⊢
  cases hmap : mapping m rootPa (pageFloor a) with
  | none =>
    rw [hmap] at h
    exact absurd rfl h
  | some x =>
    rw [hmap] at h
    by_cases hU : x.2 &&& pteU ≠ 0
    · exact ⟨x.2, by rw [elim_some, if_pos hU, hmap], hU⟩
    · rw [elim_some, if_neg hU] at h
      exact absurd rfl h

lemma UserFrame.view_eq (h : UserFrame m rootPa a f) : view m rootPa a = some (m (f + a % pageSize)) := by
  obtain ⟨fl, hf, hU⟩ := h
  rw [view, mapping_pageFloor, hf, map_some, bind_some, if_pos hU]

lemma view_eq_none (h : ∀ f, ¬ UserFrame m rootPa a f) : view m rootPa a = none := by
  rw [view, mapping_pageFloor]
  cases hmap : mapping m rootPa (pageFloor a) with
  | none => rw [map_none, bind_none]
  | some x =>
    rw [map_some, bind_some, if_neg fun hU => h x.1 ⟨x.2, hmap, hU⟩]

lemma mapping_of_view {b : UInt8} (h : view m rootPa a = some b) :
    ∃ pa fl, mapping m rootPa a = some (pa, fl) ∧ fl &&& pteU ≠ 0 := by
  obtain ⟨x, hx, hb⟩ := bind_eq_some_iff.mp h
  split_ifs at hb with hU
  exact ⟨x.1, x.2, hx, hU⟩

lemma add_mod_mem_page (g a : ℕ) : g + a % pageSize ∈ sv39.page g := by
  have hoff : a % pageSize < pageSize := mod_lt a (by decide)
  rw [sv39_page]
  exact ⟨Nat.le_add_right _ _, Nat.add_lt_add_left hoff g⟩

/-! ### A new page in the user's view -/

lemma pageEntry_of_leaf (hleaf : flags &&& pteLeaf ≠ 0) (ha : a % pageSize = 0) :
    pageEntry (makePte flags pa) a = some (pteAddr (makePte flags pa), pteFlags (makePte flags pa)) := by
  have hoff : leafOffset 0 a = 0 := ha
  have hleaf' : makePte flags pa &&& pteLeaf ≠ 0 := by rwa [makePte_and_pteLeaf]
  rw [pageEntry, decodePte, if_neg (makePte_and_pteV flags pa), if_pos hleaf']
  change some (leafMapping a (0, makePte flags pa)) = _
  rw [leafMapping, hoff, add_zero]

lemma pageEntry_makePte (hflags : flags &&& pteLeaf ≠ 0 → flags < 2 ^ 10) (hpa : pa < 2 ^ 56)
    (hal : pa % pageSize = 0) (ha : a % pageSize = 0) :
    pageEntry (makePte flags pa) a =
      if flags &&& pteLeaf ≠ 0 then some (pa, pteV ||| flags) else none := by
  by_cases hleaf : flags &&& pteLeaf ≠ 0
  · rw [if_pos hleaf, pageEntry_of_leaf hleaf ha, pteAddr_makePte (hflags hleaf) hpa hal,
      pteFlags_makePte (hflags hleaf)]
  · rw [if_neg hleaf, pageEntry, decodePte, if_neg (makePte_and_pteV flags pa), makePte_and_pteLeaf,
      if_neg hleaf]

lemma pageFloor_mod_two_pow (a : ℕ) : pageFloor a % 2 ^ 39 % pageSize = 0 := by
  rw [mod_mod_of_dvd _ (by decide)]
  exact pageFloor_mod a

lemma NewPage.mapping_pageFloor (hn : NewPage s0 rootPa s s' data va flags f)
    (hval : va % pageSize = 0) (a : ℕ) :
    mapping s'.mem rootPa (pageFloor a) =
      if pageFloor a % 2 ^ 39 = va then pageEntry (makePte flags f) va
      else mapping s.mem rootPa (pageFloor a) := by
  have hal := pageFloor_mod_two_pow a
  rw [← mapping_mod, hn.mapping_eq _ (mod_lt _ (by decide)), mapping_mod]
  by_cases heq : pageFloor a % 2 ^ 39 = va
  · have hin : va ≤ pageFloor a % 2 ^ 39 ∧ pageFloor a % 2 ^ 39 < va + pageSize := by
      rw [heq]
      exact ⟨le_rfl, Nat.lt_add_of_pos_right (by decide)⟩
    rw [if_pos hin, if_pos heq, heq]
  · have hout : ¬ (va ≤ pageFloor a % 2 ^ 39 ∧ pageFloor a % 2 ^ 39 < va + pageSize) := by
      unfold pageSize at *
      omega
    rw [if_neg hout, if_neg heq]

section User

variable (hn : NewPage s0 rootPa s s' data va flags f) (hval : va % pageSize = 0)
  (hflags : flags &&& pteLeaf ≠ 0 → flags < 2 ^ 10) (huser : flags &&& pteU ≠ 0) {a : ℕ}
include hn hval hflags huser

lemma NewPage.userFrame_iff (a g : ℕ) : UserFrame s'.mem rootPa a g ↔
    if pageFloor a % 2 ^ 39 = va then flags &&& pteLeaf ≠ 0 ∧ g = f
    else UserFrame s.mem rootPa a g := by
  unfold UserFrame
  rw [hn.mapping_pageFloor hval a]
  by_cases heq : pageFloor a % 2 ^ 39 = va
  swap
  · rw [if_neg heq, if_neg heq]
  have hf := hn.space.allocated (mem_cons_self f data)
  have hlt : f < 2 ^ 56 := by
    obtain ⟨i, hi, rfl, -⟩ := hf
    exact hn.space.physical.idxToPa_lt hi
  have hbit : (pteV ||| flags) &&& pteU ≠ 0 := by
    have hVU : pteV &&& pteU = 0 := by decide
    rwa [and_or_distrib_right, hVU, zero_or]
  rw [if_pos heq, if_pos heq, pageEntry_makePte hflags hlt (hn.space.valid.allocated_mod hf) hval]
  by_cases hleaf : flags &&& pteLeaf ≠ 0
  · rw [if_pos hleaf]
    constructor
    · rintro ⟨fl, hfl, -⟩
      exact ⟨hleaf, (Prod.mk.inj (some.inj hfl)).1.symm⟩
    · rintro ⟨-, rfl⟩
      exact ⟨_, rfl, hbit⟩
  · rw [if_neg hleaf]
    constructor
    · rintro ⟨fl, hfl, -⟩
      cases hfl
    · rintro ⟨hleaf', -⟩
      exact absurd hleaf' hleaf

lemma NewPage.owned (hown : Owned s.mem rootPa data) : Owned s'.mem rootPa (f ::ₘ data) := by
  have hnew : f ∉ data := (nodup_cons.mp (nodup_add.mp hn.space.took.nodup).2.1).1
  have hiff := hn.userFrame_iff hval hflags huser
  refine ⟨fun a g hg => ?_, fun a b g ha hb => ?_⟩
  · rw [hiff] at hg
    split_ifs at hg
    · exact mem_cons.mpr (.inl hg.2)
    · exact mem_cons_of_mem (hown.mem a g hg)
  · rw [hiff] at ha hb
    split_ifs at ha hb with hpa hpb hpb
    · rw [hpa, hpb]
    · exact absurd (hown.mem b g hb) (ha.2 ▸ hnew)
    · exact absurd (hown.mem a g ha) (hb.2 ▸ hnew)
    · exact hown.inj a b g ha hb

lemma NewPage.view_of_ne (hown : Owned s.mem rootPa data) (hne : pageFloor a % 2 ^ 39 ≠ va) :
    view s'.mem rootPa a = view s.mem rootPa a := by
  have hiff := hn.userFrame_iff hval hflags huser a
  by_cases hex : ∃ g, UserFrame s.mem rootPa a g
  · obtain ⟨g, hg⟩ := hex
    have hg' : UserFrame s'.mem rootPa a g := by
      rwa [hiff g, if_neg hne]
    rw [hg'.view_eq, hg.view_eq, hn.kept g (hown.mem a g hg) (add_mod_mem_page g a)]
  · rw [not_exists] at hex
    rw [view_eq_none hex, view_eq_none fun g hg => hex g ?_]
    rwa [hiff g, if_neg hne] at hg

lemma NewPage.view_eq_zero {g : ℕ} (heq : pageFloor a % 2 ^ 39 = va)
    (hg : UserFrame s'.mem rootPa a g) : view s'.mem rootPa a = some 0 := by
  have hgf := (hn.userFrame_iff hval hflags huser a g).mp hg
  rw [if_pos heq] at hgf
  rw [hg.view_eq, hgf.2, hn.zero _ (add_mod_mem_page f a)]

end User

/-! ### Writing to a page -/

lemma Space.write (h : Space s0 rootPa s data) (hown : Owned s.mem rootPa data)
    (hf : UserFrame s.mem rootPa va f) (hlen : va % pageSize + bytes.length ≤ pageSize) :
    Space s0 rootPa { s with mem := s.mem.write (f + va % pageSize) bytes } data ∧
      (∀ a, mapping (s.mem.write (f + va % pageSize) bytes) rootPa a = mapping s.mem rootPa a) ∧
      ∀ i < bytes.length, f + va % pageSize + i ∈ sv39.page f := by
  have hpage : ∀ i < bytes.length, f + va % pageSize + i ∈ sv39.page f := fun i hi => by
    rw [sv39_page]
    exact ⟨by omega, by omega⟩
  have hchange := h.of_changes (m := s.mem.write (f + va % pageSize) bytes) fun x hx => by
    refine ⟨f, hown.mem va f hf, ?_⟩
    by_contra hnot
    refine hx (write_apply_of_notMem fun hmem => hnot ?_)
    obtain ⟨i, rfl⟩ := Nat.exists_eq_add_of_le hmem.1
    exact hpage i (by have := hmem.2; omega)
  exact ⟨hchange.1, hchange.2, hpage⟩

lemma view_write (h : Space s0 rootPa s data)
    (hown : Owned s.mem rootPa data) (hf : UserFrame s.mem rootPa va f)
    (hlen : va % pageSize + bytes.length ≤ pageSize) (hva : va < 2 ^ 39) (ha : a < 2 ^ 39) :
    view (s.mem.write (f + va % pageSize) bytes) rootPa a =
      if va ≤ a ∧ a < va + bytes.length then bytes[a - va]? else view s.mem rootPa a := by
  obtain ⟨-, hmapping, -⟩ := h.write hown hf hlen
  set m' := s.mem.write (f + va % pageSize) bytes with hm'
  have hframe : ∀ g, UserFrame m' rootPa a g ↔ UserFrame s.mem rootPa a g := fun g => by
    unfold UserFrame
    rw [hmapping]
  by_cases hex : ∃ g, UserFrame s.mem rootPa a g
  swap
  · -- an unmapped address is not in the page that is written
    rw [not_exists] at hex
    have hout : ¬ (va ≤ a ∧ a < va + bytes.length) := by
      rintro ⟨hlo, hhi⟩
      refine hex f ?_
      have hsame : pageFloor a = pageFloor va := by
        unfold pageFloor pageSize at *
        omega
      obtain ⟨fl, hfl⟩ := hf
      exact ⟨fl, by rwa [hsame]⟩
    rw [if_neg hout, view_eq_none hex, view_eq_none fun g hg => hex g ((hframe g).mp hg)]
  obtain ⟨g, hg⟩ := hex
  rw [((hframe g).mpr hg).view_eq, hg.view_eq]
  by_cases hin : va ≤ a ∧ a < va + bytes.length
  · have hsame : pageFloor a = pageFloor va := by
      unfold pageFloor pageSize at *
      omega
    have hgf : g = f := by
      refine UserFrame.unique hg ?_
      obtain ⟨fl, hfl⟩ := hf
      exact ⟨fl, by rwa [hsame]⟩
    have haddr : g + a % pageSize = f + va % pageSize + (a - va) := by
      unfold pageSize at *
      omega
    have hlt : a - va < bytes.length := by omega
    rw [if_pos hin, haddr, hm', write_apply_add hlt, List.getElem?_eq_getElem hlt]
  · rw [if_neg hin]
    have hout : g + a % pageSize ∉ Set.Ico (f + va % pageSize) (f + va % pageSize + bytes.length) := by
      rintro ⟨hlo, hhi⟩
      by_cases hgf : g = f
      · -- the same page: the offset decides
        subst hgf
        have hsame := hown.inj a va g hg hf
        unfold pageFloor pageSize at *
        omega
      · have hgmod := h.valid.allocated_mod (h.allocated (hown.mem a g hg))
        have hfmod := h.valid.allocated_mod (h.allocated (hown.mem va f hf))
        unfold pageSize at *
        omega
    rw [hm', write_apply_of_notMem hout]

end OnyxKernel.Vmm
