import OnyxKernel.Mm.PageTableMap

/-!
# Destroying a page table

`destroy_root` is a sequence of calls of `pmm::free`, which can be read off the page table before the
first of them (`destroyRoot_eq`), because a call only writes the bitmap.  The pages of these calls are
the nodes of the tree: its tables, and the pages that its user leaves point to.
-/

namespace OnyxKernel

open ByteMemory RadixTree Multiset Pmm Format Relation Option

/-! ### Giving pages back -/

namespace Pmm

variable {s s' s'' : Mm} {f x : ℕ} {gone gone' fresh : Multiset ℕ}

/-- From `s` to `s'` the pages `gone` have been given back to the allocator. -/
structure Released (s s' : Mm) (gone : Multiset ℕ) : Prop where
  base_eq : s'.pmm.base = s.pmm.base
  total_eq : s'.pmm.totalPages = s.pmm.totalPages
  bitmap_eq : s'.pmm.bitmap = s.pmm.bitmap
  valid : Valid s'
  /-- Only the bitmap is written. -/
  mem_eq : ∀ x ∉ bitmapRegion s, s'.mem x = s.mem x
  /-- Exactly their bits have been cleared. -/
  bits : ∀ j < bitCount s, (bmGet s' j = true ↔ bmGet s j = true ∧ idxToPa s j ∉ gone)

lemma Released.refl (hv : Valid s) : Released s s 0 where
  base_eq := rfl
  total_eq := rfl
  bitmap_eq := rfl
  valid := hv
  mem_eq _ _ := rfl
  bits j _ := by simp

lemma Released.trans (h : Released s s' gone) (h' : Released s' s'' gone') :
    Released s s'' (gone + gone') where
  base_eq := h'.base_eq.trans h.base_eq
  total_eq := h'.total_eq.trans h.total_eq
  bitmap_eq := h'.bitmap_eq.trans h.bitmap_eq
  valid := h'.valid
  mem_eq x hx := by
    have hreg : bitmapRegion s' = bitmapRegion s := by
      rw [bitmapRegion, bitmapRegion, h.bitmap_eq, h.total_eq]
    rw [h'.mem_eq x (by rwa [hreg]), h.mem_eq x hx]
  bits j hj := by
    have hj' : j < bitCount s' := by rwa [bitCount, h.total_eq]
    rw [h'.bits j hj', h.bits j hj, idxToPa_congr h.base_eq, mem_add, not_or, and_assoc]

lemma Released.allocated (h : Released s s' gone) (hf : Allocated s f) (hnot : f ∉ gone) :
    Allocated s' f := by
  obtain ⟨i, hi, rfl, hset⟩ := hf
  refine ⟨i, by rwa [h.total_eq], (idxToPa_congr h.base_eq i).symm, ?_⟩
  exact (h.bits i (lt_bitCount hi)).mpr ⟨hset, hnot⟩

lemma free_released (hv : Valid s) (hf : Allocated s f) : Released s (free s f) {f} := by
  obtain ⟨i, hi, rfl, hset⟩ := hf
  rw [free_idxToPa hi hset]
  refine ⟨rfl, rfl, rfl, hv.bmClr hi hset, fun x hx => bmClr_mem_of_notMem hi hx, fun j _ => ?_⟩
  rw [bmGet_bmClr, mem_singleton]
  by_cases hji : j = i
  · simp [hji]
  · have hne : idxToPa s j ≠ idxToPa s i := fun heq => hji (idxToPa_inj heq)
    simp [hji, hne]

lemma foldl_free_released : ∀ (fs : List ℕ) (s : Mm), Valid s → fs.Nodup →
    (∀ f ∈ fs, Allocated s f) → Released s (fs.foldl free s) fs
  | [], s, hv, _, _ => Released.refl hv
  | f :: fs, s, hv, hnodup, hall => by
    have hone := free_released hv (hall f List.mem_cons_self)
    have hrest := foldl_free_released fs (free s f) hone.valid hnodup.of_cons fun g hg => by
      refine hone.allocated (hall g (List.mem_cons_of_mem f hg)) fun hgf => ?_
      rw [mem_singleton] at hgf
      exact (List.nodup_cons.mp hnodup).1 (hgf ▸ hg)
    exact hone.trans hrest

lemma mem_eq_of_bits (hb : s'.pmm.bitmap = s.pmm.bitmap)
    (hbits : ∀ j < bitCount s, bmGet s' j = bmGet s j) : Set.EqOn s'.mem s.mem (bitmapRegion s) := by
  rintro x ⟨hlo, hhi⟩
  obtain ⟨q, rfl⟩ := Nat.exists_eq_add_of_le hlo
  refine Bitmap.eq_of_getBit_eq fun k hk => ?_
  have hbit := hbits (8 * q + k) (by unfold bitCount; omega)
  unfold bmGet Bitmap.test at hbit
  rwa [hb, show (8 * q + k) / 8 = q by omega, show (8 * q + k) % 8 = k by omega] at hbit

lemma Took.released (h : Took s s' fresh) (hv : Valid s) (h' : Released s' s'' fresh) :
    Set.EqOn s''.mem s.mem (bitmapRegion s) ∧ s''.pmm.freePages = s.pmm.freePages := by
  have hbits : ∀ j < bitCount s, bmGet s'' j = bmGet s j := by
    intro j hj
    have hj' : j < bitCount s' := by rwa [bitCount, h.total_eq]
    rw [Bool.eq_iff_iff, h'.bits j hj', h.bits j hj, idxToPa_congr h.base_eq]
    constructor
    · rintro ⟨hset | hmem, hnot⟩
      · exact hset
      · exact absurd hmem hnot
    · refine fun hset => ⟨.inl hset, fun hmem => ?_⟩
      obtain ⟨i, -, heq, hclear⟩ := h.clear _ hmem
      rw [← idxToPa_inj heq, hset] at hclear
      cases hclear
  refine ⟨mem_eq_of_bits (h'.bitmap_eq.trans h.bitmap_eq) hbits, ?_⟩
  rw [h'.valid.free_eq, hv.free_eq, h'.total_eq, h.total_eq]
  exact Bitmap.clearCount_congr fun j hj => hbits j (lt_bitCount hj)

lemma free_mem_of_notMem (s : Mm) (f : ℕ) (hx : x ∉ bitmapRegion s) : (free s f).mem x = s.mem x := by
  unfold free
  dsimp only
  split_ifs with hidx hset
  · exact bmClr_mem_of_notMem hidx hx
  · rfl
  · rfl

lemma bitmapRegion_free (s : Mm) (f : ℕ) : bitmapRegion (free s f) = bitmapRegion s := by
  unfold free
  dsimp only
  split_ifs <;> rfl

end Pmm

namespace Vmm

variable {s s₁ s' : Mm} {m : Memory} {T C h f rootPa va pa flags p i : ℕ} {tables fresh : Multiset ℕ}
  {below : ℕ → Mm → Mm} {calls : ℕ → List ℕ} {s₀ : Mm}

/-! ### The calls of `free` -/

/-- What a leaf owns: a user leaf owns its page. -/
def userOwn (pte : ℕ) : Multiset ℕ := if pte &&& pteU ≠ 0 then {pteAddr pte} else 0

/-- The pages that `free_subtree` gives back for entry `i` of a table. -/
def entryCalls (below : ℕ → List ℕ) (m : Memory) (T i : ℕ) : List ℕ :=
  let pte := m.load (T + i * 8) 8
  if pte &&& pteV = 0 then []
  else if pte &&& pteLeaf ≠ 0 then if pte &&& pteU ≠ 0 then [pteAddr pte] else []
  else below (pteAddr pte)

/-- The pages that `free_subtree` gives back, in the order of the calls. -/
def freeCalls (m : Memory) : (level T : ℕ) → List ℕ
  | 0, T => (List.range sv39PtesPerTable).flatMap (entryCalls (fun _ => []) m T)
  | level + 1, T =>
    (List.range sv39PtesPerTable).flatMap (entryCalls (fun C => freeCalls m level C ++ [C]) m T)

/-- The pages that `destroy_root` gives back, in the order of the calls. -/
def destroyCalls (m : Memory) (rootPa : ℕ) : List ℕ := freeCalls m 2 rootPa ++ [rootPa]

/-- The state `s` still has the tables of `m`, and they do not meet the bitmap. -/
def Readable (m : Memory) (s : Mm) (tables : Multiset ℕ) : Prop :=
  ∀ T ∈ tables, ∀ x ∈ sv39.page T, s.mem x = m x ∧ x ∉ bitmapRegion s

lemma Readable.of_le {tables' : Multiset ℕ} (hr : Readable m s tables) (hle : tables' ≤ tables) :
    Readable m s tables' := fun T hT => hr T (mem_of_le hle hT)

lemma Readable.free (hr : Readable m s tables) (f : ℕ) : Readable m (free s f) tables := by
  intro T hT x hx
  obtain ⟨hm, hnot⟩ := hr T hT x hx
  rw [free_mem_of_notMem s f hnot, bitmapRegion_free]
  exact ⟨hm, hnot⟩

lemma Readable.foldl_free (fs : List ℕ) :
    ∀ {s : Mm}, Readable m s tables → Readable m (fs.foldl Pmm.free s) tables := by
  induction fs with
  | nil => exact fun hr => hr
  | cons f fs ih => exact fun hr => ih (hr.free f)

/-- One entry: if the recursive calls are those listed by `calls`, so are the calls for the entry. -/
theorem freeEntry_calls (hb : ∀ C s, Readable m s (sv39.tables m h C) → below C s = (calls C).foldl free s)
    (hi : i < 512) (hr : Readable m s (sv39.tables m (h + 1) T)) :
    freeEntry below T s i = (entryCalls calls m T i).foldl free s := by
  have hroot := hr T (root_mem_tables m h T)
  have hload : s.mem.load (T + i * 8) 8 = m.load (T + i * 8) 8 := by
    refine Memory.load_congr fun x hx => (hroot x ?_).1
    rw [sv39_page]
    exact ⟨by have := hx.1; omega, by have := hx.2; unfold pageSize; omega⟩
  have hentry : sv39.entry m T i = decodePte (m.load (T + i * 8) 8) := sv39_entry m T i
  rw [freeEntry, entryCalls, hload]
  by_cases hV : m.load (T + i * 8) 8 &&& pteV = 0
  · rw [if_pos hV, if_pos hV, List.foldl_nil]
  rw [if_neg hV, if_neg hV]
  by_cases hleaf : m.load (T + i * 8) 8 &&& pteLeaf ≠ 0
  · rw [if_pos hleaf, if_pos hleaf]
    by_cases hU : m.load (T + i * 8) 8 &&& pteU ≠ 0
    · rw [if_pos hU, if_pos hU, List.foldl_cons, List.foldl_nil]
    · rw [if_neg hU, if_neg hU, List.foldl_nil]
  · rw [if_neg hleaf, if_neg hleaf]
    rw [decodePte, if_neg hV, if_neg hleaf] at hentry
    refine hb _ s (hr.of_le (tables_child_le ?_ hentry))
    rwa [sv39_fanout]

lemma foldl_freeEntry (hb : ∀ C s, Readable m s (sv39.tables m h C) → below C s = (calls C).foldl free s)
    (l : List ℕ) (hl : ∀ i ∈ l, i < 512) :
    ∀ {s : Mm}, Readable m s (sv39.tables m (h + 1) T) →
      l.foldl (freeEntry below T) s = (l.flatMap (entryCalls calls m T)).foldl free s := by
  induction l with
  | nil =>
    intro s _
    rw [List.flatMap_nil, List.foldl_nil, List.foldl_nil]
  | cons i l ih =>
    intro s hr
    rw [List.foldl_cons, List.flatMap_cons, List.foldl_append,
      freeEntry_calls hb (hl i List.mem_cons_self) hr]
    exact ih (fun j hj => hl j (List.mem_cons_of_mem i hj)) (hr.foldl_free _)

lemma freeSubtree_eq (level : ℕ) : ∀ (T : ℕ) (s : Mm), Readable m s (sv39.tables m (level + 1) T) →
    freeSubtree level T s = (freeCalls m level T).foldl free s := by
  have hl : ∀ i ∈ List.range sv39PtesPerTable, i < 512 := fun _ hi => List.mem_range.mp hi
  induction level with
  | zero =>
    intro T s hr
    exact foldl_freeEntry (fun _ _ _ => by rw [List.foldl_nil]) _ hl hr
  | succ level ih =>
    intro T s hr
    refine foldl_freeEntry (fun C s hC => ?_) _ hl hr
    rw [List.foldl_append, ih C s hC, List.foldl_cons, List.foldl_nil]

lemma destroyRoot_eq (hv : Pmm.Valid s) (ht : IsTree s 3 rootPa) :
    destroyRoot rootPa s = (destroyCalls s.mem rootPa).foldl free s := by
  have hr : Readable s.mem s (sv39.tables s.mem 3 rootPa) := fun T hT x hx =>
    ⟨rfl, notMem_bitmapRegion hv (ht.allocated T hT) hx⟩
  rw [destroyRoot, destroyCalls, List.foldl_append, freeSubtree_eq 2 rootPa s hr, List.foldl_cons,
    List.foldl_nil]

lemma coe_flatMap_range (g : ℕ → List ℕ) (n : ℕ) :
    (((List.range n).flatMap g : List ℕ) : Multiset ℕ) = ∑ i ∈ Finset.range n, (g i : Multiset ℕ) := by
  induction n with
  | zero => rfl
  | succ n ih =>
    rw [List.range_succ, List.flatMap_append, List.flatMap_singleton, ← coe_add, ih, Finset.sum_range_succ]

lemma coe_entryCalls (hc : ∀ C, (calls C : Multiset ℕ) = sv39.nodes userOwn m h C) (T i : ℕ) :
    (entryCalls calls m T i : Multiset ℕ) = sv39.nodesEntry userOwn m h (sv39.entry m T i) := by
  rw [sv39_entry, entryCalls, decodePte]
  by_cases hV : m.load (T + i * 8) 8 &&& pteV = 0
  · rw [if_pos hV, if_pos hV, nodesEntry_absent, coe_nil]
  rw [if_neg hV, if_neg hV]
  by_cases hleaf : m.load (T + i * 8) 8 &&& pteLeaf ≠ 0
  · rw [if_pos hleaf, if_pos hleaf, nodesEntry_leaf, userOwn]
    by_cases hU : m.load (T + i * 8) 8 &&& pteU ≠ 0
    · rw [if_pos hU, if_pos hU, coe_singleton]
    · rw [if_neg hU, if_neg hU, coe_nil]
  · rw [if_neg hleaf, if_neg hleaf, nodesEntry_table, hc]

/-- The calls of `free_subtree` and the root are the nodes of the tree. -/
theorem coe_freeCalls : ∀ level T : ℕ,
    {T} + (freeCalls m level T : Multiset ℕ) = sv39.nodes userOwn m (level + 1) T
  | 0, T => by
    rw [nodes_succ, freeCalls, coe_flatMap_range, sv39_fanout, sv39PtesPerTable]
    refine congrArg (({T} : Multiset ℕ) + ·) (Finset.sum_congr rfl fun i _ => ?_)
    exact coe_entryCalls (fun _ => rfl) T i
  | level + 1, T => by
    rw [nodes_succ, freeCalls, coe_flatMap_range, sv39_fanout, sv39PtesPerTable]
    refine congrArg (({T} : Multiset ℕ) + ·) (Finset.sum_congr rfl fun i _ => ?_)
    refine coe_entryCalls (fun C => ?_) T i
    rw [← coe_freeCalls level C, ← coe_add, add_comm, coe_singleton]

lemma coe_destroyCalls (m : Memory) (rootPa : ℕ) :
    (destroyCalls m rootPa : Multiset ℕ) = sv39.nodes userOwn m 3 rootPa := by
  rw [← coe_freeCalls 2 rootPa, destroyCalls, ← coe_add, add_comm, coe_singleton]

/-! ### Building an address space -/

/-- An address space under construction: the state, the pages obtained from the allocator that are not
mapped yet, and the virtual pages that have been mapped. -/
structure Building where
  mm : Mm
  frames : Multiset ℕ
  pages : List ℕ

/-- One step of the construction: a page is obtained from the allocator, or an obtained page is mapped
for the user at a new virtual page. -/
inductive BuildStep (rootPa : ℕ) : Building → Building → Prop
  | alloc {b : Building} {f : ℕ} {s' : Mm} (hok : alloc b.mm = .ok f s') :
    BuildStep rootPa b ⟨s', f ::ₘ b.frames, b.pages⟩
  | map {b : Building} {va f flags : ℕ} {s' : Mm} (hval : va % pageSize = 0) (hva : va < 2 ^ 39)
    (hnew : va ∉ b.pages) (hf : f ∈ b.frames) (hflags : flags < 2 ^ 10)
    (huser : flags &&& pteU ≠ 0) (hleaf : flags &&& (pteR ||| pteX) ≠ 0)
    (hok : mapOne rootPa va f flags 0 b.mm = .ok () s') :
    BuildStep rootPa b ⟨s', b.frames.erase f, va :: b.pages⟩

/-- No leaf with `PTE_U` maps a page outside of `pages`. -/
def UserOnly (m : Memory) (rootPa : ℕ) (pages : List ℕ) : Prop :=
  ∀ a < 2 ^ 39, a % pageSize = 0 → a ∉ pages → ∀ x, mapping m rootPa a = some x → x.2 &&& pteU = 0

/-- What holds of an address space under construction, for the state `s₀` in which it was begun: the
nodes of the tree and the pages not mapped yet are what has been taken from the allocator. -/
structure BuildInv (s₀ : Mm) (rootPa : ℕ) (b : Building) : Prop where
  took : Pmm.Took s₀ b.mm (sv39.nodes userOwn b.mm.mem 3 rootPa + b.frames)
  isTree : IsTree b.mm 3 rootPa
  physical : Pmm.Physical b.mm
  userOnly : UserOnly b.mm.mem rootPa b.pages

lemma userOwn_eq_zero {leaf : ℕ × ℕ} {pte : ℕ} (hnot : ∀ x, mapping m rootPa va = some x → x.2 &&& pteU = 0)
    (hleaf : sv39.lookup m (vaKey va) 3 rootPa = some leaf) (hpte : pteFlags pte = pteFlags leaf.2) :
    userOwn pte = 0 := by
  have hmap : mapping m rootPa va = some (leafMapping va leaf) := by
    rw [mapping, mappingAt, hleaf, map_some]
  have hU : pteFlags leaf.2 &&& pteU = 0 := hnot _ hmap
  rw [← hpte, ← and_eq_pteFlags_and (by decide)] at hU
  rw [userOwn, if_neg (not_not.mpr hU)]

/-- The nodes after `map_one` has mapped a page that was not mapped for the user: the new tables and
the page. -/
theorem mapOne_nodes (hv : Pmm.Valid s) (hphys : Pmm.Physical s) (ht : IsTree s 3 rootPa)
    (hr : LeafRange pa flags 0) (hva : va < 2 ^ 39) (hval : va % pageSize = 0)
    (huser : flags &&& pteU ≠ 0) (hnot : ∀ x, mapping s.mem rootPa va = some x → x.2 &&& pteU = 0)
    (hok : mapOne rootPa va pa flags 0 s = .ok () s') :
    ∃ fresh, Mapped s s' rootPa va pa flags 0 fresh ∧
      sv39.nodes userOwn s'.mem 3 rootPa = sv39.nodes userOwn s.mem 3 rootPa + fresh + {pa} := by
  obtain ⟨s₁, fresh, hgrown, -, ⟨p, hp, hok'⟩ | ⟨herr, -⟩⟩ :=
    mapOne_cases hv hphys ht (Nat.zero_le 2) va pa flags
  swap
  · cases hok.symm.trans herr
  cases hok.symm.trans hok'
  have ht1 := hgrown.isTree ht
  refine ⟨fresh, Mapped.of_grown hgrown (mapped_putEntry hgrown.valid ht1 hr hva hval hp), ?_⟩
  have hgrow := hgrown.nodes_eq userOwn fun leaf hleaf _ pte hpte => userOwn_eq_zero hnot hleaf hpte
  -- the entry that is overwritten owned nothing
  have hold : sv39.nodesEntry userOwn s₁.mem 0 (decodePte (s₁.mem.load p 8)) = 0 := by
    have hlookup := lookup_of_slotAddr 2 rootPa hp
    rw [sv39_width, sv39_decode] at hlookup
    cases he : decodePte (s₁.mem.load p 8) with
    | absent => exact nodesEntry_absent _ _ _
    | leaf pte =>
      rw [he, lookupEntry_leaf] at hlookup
      refine userOwn_eq_zero (fun x hx => hnot x ?_) hlookup rfl
      rwa [mapping, ← hgrown.mapping_eq va]
    | table C => exact nodesEntry_table _ _ _ _
  have hnodes := nodes_putEntry hgrown.valid ht1 (Nat.zero_le 2) hp userOwn hr.makePte_lt
  have hnew : userOwn (makePte flags pa) = {pa} := by
    have hbit : makePte flags pa &&& pteU = flags &&& pteU := by
      have hVU : pteV &&& pteU = 0 := by decide
      rw [and_eq_pteFlags_and (by decide), pteFlags_makePte hr.flags_lt, Nat.and_or_distrib_right,
        hVU, Nat.zero_or]
    rw [userOwn, hbit, if_pos huser, hr.pteAddr_eq]
  rwa [hold, add_zero, hr.decodePte_eq, nodesEntry_leaf, hnew, hgrow] at hnodes

namespace BuildInv

variable {s₀ : Mm} {b b' : Building}

lemma alloc (hinv : BuildInv s₀ rootPa b) (hok : alloc b.mm = .ok f s') :
    BuildInv s₀ rootPa ⟨s', f ::ₘ b.frames, b.pages⟩ := by
  have hv := hinv.took.valid
  rcases alloc_cases b.mm with ⟨pa, j, s₁, hok', ha⟩ | ⟨herr, -⟩
  swap
  · cases hok.symm.trans herr
  cases hok.symm.trans hok'
  have hm : ∀ T' ∈ sv39.tables b.mm.mem 3 rootPa, Set.EqOn s'.mem b.mm.mem (sv39.page T') :=
    fun T' hT' => eqOn_page_of_alloc ha hv (hinv.isTree.allocated T' hT')
  have htook := ha.took hv
  refine ⟨?_, hinv.isTree.congr hm fun T' hT' => htook.allocated (hinv.isTree.allocated T' hT'),
    hinv.physical.congr htook.base_eq htook.total_eq, fun a hlt hal hnew x hx => ?_⟩
  · have htrans := hinv.took.trans htook
    rw [add_assoc, add_comm b.frames, singleton_add] at htrans
    rwa [nodes_congr 3 rootPa hm]
  · rw [mapping, mappingAt_congr hm a] at hx
    exact hinv.userOnly a hlt hal hnew x hx

lemma map (hinv : BuildInv s₀ rootPa b) (hval : va % pageSize = 0) (hva : va < 2 ^ 39)
    (hnew : va ∉ b.pages) (hf : f ∈ b.frames) (hflags : flags < 2 ^ 10) (huser : flags &&& pteU ≠ 0)
    (hleaf : flags &&& (pteR ||| pteX) ≠ 0) (hok : mapOne rootPa va f flags 0 b.mm = .ok () s') :
    BuildInv s₀ rootPa ⟨s', b.frames.erase f, va :: b.pages⟩ := by
  have hv := hinv.took.valid
  obtain ⟨j, hj, hfj, -⟩ := hinv.took.clear f (mem_add.mpr (.inr hf))
  have hfj' : f = idxToPa b.mm j := hfj.trans (idxToPa_congr hinv.took.base_eq j).symm
  have hlt : f < 2 ^ 56 := by
    rw [hfj']
    exact hinv.physical.idxToPa_lt (by rwa [hinv.took.total_eq])
  have hal : f % pageSize = 0 := by
    rw [hfj']
    exact hv.idxToPa_mod j
  have hr : LeafRange f flags 0 := LeafRange.of_page hlt hal hflags hleaf
  obtain ⟨fresh, hmap, hnodes⟩ := mapOne_nodes hv hinv.physical hinv.isTree hr hva hval huser
    (hinv.userOnly va hva hval hnew) hok
  refine ⟨?_, hmap.isTree, hinv.physical.congr hmap.base_eq hmap.total_eq, ?_⟩
  · have htrans := hinv.took.trans hmap.toTook
    have hsplit : b.frames = {f} + b.frames.erase f := by
      rw [singleton_add, cons_erase hf]
    have hsum : sv39.nodes userOwn b.mm.mem 3 rootPa + b.frames + fresh =
        sv39.nodes userOwn s'.mem 3 rootPa + b.frames.erase f := by
      rw [hnodes, hsplit]
      simp only [singleton_add, erase_cons_head]
      rw [← singleton_add]
      abel
    rwa [hsum] at htrans
  · intro a ha haal hnot x hx
    rw [hmap.mapping_eq a ha] at hx
    have hout : ¬ (va ≤ a ∧ a < va + 2 ^ levelShift 0) := by
      rintro ⟨hlo, hhi⟩
      have hne : a ≠ va := fun heq => hnot (heq ▸ List.mem_cons_self)
      have h0 : levelShift 0 = 12 := rfl
      rw [h0] at hhi
      unfold pageSize at haal hval
      omega
    rw [if_neg hout] at hx
    exact hinv.userOnly a ha haal (fun hmem => hnot (List.mem_cons_of_mem va hmem)) x hx

lemma step (hinv : BuildInv s₀ rootPa b) (hstep : BuildStep rootPa b b') : BuildInv s₀ rootPa b' := by
  cases hstep with
  | alloc hok => exact hinv.alloc hok
  | map hval hva hnew hf hflags huser hleaf hok =>
    exact hinv.map hval hva hnew hf hflags huser hleaf hok

lemma of_run (hinv : BuildInv s₀ rootPa b) (hrun : ReflTransGen (BuildStep rootPa) b b') :
    BuildInv s₀ rootPa b' := by
  induction hrun with
  | refl => exact hinv
  | tail _ hstep ih => exact ih.step hstep

end BuildInv

/-! ### A new address space -/

lemma identity_leafRange (hi : i < 3) : LeafRange (i <<< 30) identityFlags 2 := by
  have h2 : levelShift 2 = 30 := rfl
  refine ⟨le_rfl, ?_, ?_, by decide, by decide⟩
  · rw [h2, Nat.shiftLeft_eq]
    exact Nat.mul_mod_left _ _
  · rw [h2, Nat.shiftLeft_eq]
    omega

lemma identity_slot (hi : i < 3) :
    sv39.slotAddr m (vaKey (i <<< 30)) 2 (2 - 2) rootPa = some (rootPa + i * 8) := by
  have hkey : vaKey (i <<< 30) 2 = i := by
    have h2 : levelShift 2 = 30 := rfl
    rw [vaKey, levelIdx_eq, h2, Nat.shiftLeft_eq, Nat.mul_div_cancel _ (Nat.two_pow_pos 30)]
    omega
  rw [Nat.sub_self, slotAddr, sv39_width, hkey]

/-- What holds of a new root while the identity leaves are written, `n` of them so far. -/
structure RootInv (s₀ : Mm) (rootPa n : ℕ) (s : Mm) : Prop where
  took : Pmm.Took s₀ s {rootPa}
  isTree : IsTree s 3 rootPa
  nodes_eq : sv39.nodes userOwn s.mem 3 rootPa = {rootPa}
  userOnly : UserOnly s.mem rootPa []
  /-- The leaves map addresses to themselves. -/
  identity : ∀ a < n <<< 30, mapping s.mem rootPa a = some (a, pteV ||| identityFlags)

lemma RootInv.of_alloc {j : ℕ} (hv : Pmm.Valid s) (ha : Pmm.AllocatedPage s s₁ j rootPa) :
    RootInv s rootPa 0 s₁ where
  took := ha.took hv
  isTree := isTree_zeroed hv ha 2
  nodes_eq := nodes_zeroed userOwn ha 2
  userOnly a _ _ _ x hx := by
    rw [mapping, mappingAt, lookup_zeroed (vaKey_lt a) ha 2] at hx
    cases hx
  identity a hlt := by
    exact absurd hlt (Nat.not_lt_zero a)

lemma RootInv.putEntry (hinv : RootInv s₀ rootPa i s) (hi : i < 3) :
    RootInv s₀ rootPa (i + 1) (putEntry s (rootPa + i * 8) (makePte identityFlags (i <<< 30))) := by
  have hr := identity_leafRange hi
  have hva : i <<< 30 < 2 ^ 39 := by
    omega
  have hmap := mapped_putEntry hinv.took.valid hinv.isTree hr hva hr.aligned (identity_slot hi)
  refine ⟨?_, hmap.isTree, ?_, fun a ha hal _ x hx => ?_, fun a ha => ?_⟩
  · have htook := hinv.took.trans hmap.toTook
    rwa [add_zero] at htook
  · have hnodes := nodes_putEntry hinv.took.valid hinv.isTree le_rfl (identity_slot hi) userOwn
      hr.makePte_lt
    have hown : userOwn (makePte identityFlags (i <<< 30)) = 0 := by
      have hU : makePte identityFlags (i <<< 30) &&& pteU = 0 := by
        rw [and_eq_pteFlags_and (by decide), pteFlags_makePte hr.flags_lt]
        decide
      rw [userOwn, if_neg (not_not.mpr hU)]
    rw [hinv.nodes_eq, hr.decodePte_eq, nodesEntry_leaf, hown, add_zero] at hnodes
    -- what is left of the single node is the root
    refine le_antisymm ((le_add_right _ _).trans hnodes.le) ?_
    exact singleton_le.mpr
      (mem_of_le (tables_le_nodes 3 rootPa) (root_mem_tables _ 2 rootPa))
  · rw [hmap.mapping_eq a ha] at hx
    split_ifs at hx
    · have hflags : (pteV ||| identityFlags) &&& pteU = 0 := by decide
      rwa [← some.inj hx]
    · exact hinv.userOnly a ha hal List.not_mem_nil x hx
  · have h2 : levelShift 2 = 30 := rfl
    have hnext : (i + 1) <<< 30 = i <<< 30 + 2 ^ 30 := by
      rw [Nat.shiftLeft_eq, Nat.shiftLeft_eq, Nat.succ_mul]
    rw [hnext] at ha
    have hlt : i <<< 30 + 2 ^ 30 ≤ 2 ^ 39 := by
      omega
    rw [hmap.mapping_eq a (ha.trans_le hlt), h2]
    by_cases hin : i <<< 30 ≤ a
    · rw [if_pos ⟨hin, ha⟩, Nat.add_sub_cancel' hin]
    · rw [if_neg fun h => hin h.1]
      exact hinv.identity a (not_le.mp hin)

lemma RootInv.of_newRoot (hv : Pmm.Valid s₀) (hroot : newRoot s₀ = .ok rootPa s₁) :
    RootInv s₀ rootPa 3 (identityLeaves rootPa s₁) := by
  rcases alloc_cases s₀ with ⟨pa, j, s', hok, ha⟩ | ⟨herr, -⟩
  swap
  · cases hroot.symm.trans herr
  cases hroot.symm.trans hok
  exact (((RootInv.of_alloc hv ha).putEntry (by decide : 0 < 3)).putEntry
    (by decide : 1 < 3)).putEntry (by decide : 2 < 3)

lemma BuildInv.of_newRoot (hv : Pmm.Valid s₀) (hphys : Pmm.Physical s₀)
    (hroot : newRoot s₀ = .ok rootPa s₁) : BuildInv s₀ rootPa ⟨identityLeaves rootPa s₁, 0, []⟩ := by
  have hinv := RootInv.of_newRoot hv hroot
  refine ⟨?_, hinv.isTree, hphys.congr hinv.took.base_eq hinv.took.total_eq, hinv.userOnly⟩
  rw [hinv.nodes_eq, add_zero]
  exact hinv.took

/-- `destroy_root` gives back exactly what an address space was built of.  It calls `free` once for
every page that was taken from the allocator, and for no other page; afterwards the bitmap and the
number of free pages are what they were before `new_root`. -/
theorem destroyRoot_restores {s₀ : Mm} {pages : List ℕ} (hv : Pmm.Valid s₀)
    (hphys : Pmm.Physical s₀) (hroot : newRoot s₀ = .ok rootPa s₁)
    (hrun : ReflTransGen (BuildStep rootPa) ⟨identityLeaves rootPa s₁, 0, []⟩ ⟨s, 0, pages⟩) :
    Set.EqOn (destroyRoot rootPa s).mem s₀.mem (bitmapRegion s₀) ∧
      (destroyRoot rootPa s).pmm.freePages = s₀.pmm.freePages ∧
      destroyRoot rootPa s = (destroyCalls s.mem rootPa).foldl free s ∧
      (destroyCalls s.mem rootPa).Nodup ∧
      ∀ f, f ∈ destroyCalls s.mem rootPa ↔
        ∃ j < s₀.pmm.totalPages, f = idxToPa s₀ j ∧ bmGet s₀ j = false ∧
          bmGet s j = true := by
  have hinv := (BuildInv.of_newRoot hv hphys hroot).of_run hrun
  have htook : Pmm.Took s₀ s (destroyCalls s.mem rootPa) := by
    rw [coe_destroyCalls, ← add_zero (sv39.nodes userOwn s.mem 3 rootPa)]
    exact hinv.took
  have ht : IsTree s 3 rootPa := hinv.isTree
  have hcalls := destroyRoot_eq htook.valid ht
  have hnodup : (destroyCalls s.mem rootPa).Nodup := coe_nodup.mp htook.nodup
  have hreleased := foldl_free_released _ s htook.valid hnodup fun f hf =>
    htook.allocated_of_mem (mem_coe.mpr hf)
  rw [← hcalls] at hreleased
  obtain ⟨hmem, hfree⟩ := htook.released hv hreleased
  refine ⟨hmem, hfree, hcalls, hnodup, fun f => ⟨fun hf => ?_, ?_⟩⟩
  · obtain ⟨j, hj, hfj, hclear⟩ := htook.clear f (mem_coe.mpr hf)
    refine ⟨j, hj, hfj, hclear, (htook.bits j (lt_bitCount hj)).mpr (.inr ?_)⟩
    rw [← hfj]
    exact mem_coe.mpr hf
  · rintro ⟨j, hj, rfl, hclear, hset⟩
    rcases (htook.bits j (lt_bitCount hj)).mp hset with hset' | hmem'
    · rw [hclear] at hset'
      cases hset'
    · exact mem_coe.mp hmem'

/-- A user page obtained from the allocator and mapped at `0x10000`. -/
def mapUserPage (rootPa : ℕ) : KResult Mm Unit := do
  let f ← alloc
  mapOne rootPa 0x10000 f (pteV ||| pteR ||| pteU) 0

/-- On a machine with eight pages, an address space with one user page, for which two identity leaves
are divided, is given back. -/
theorem destroyRoot_restores_bareMm : ∃ s pages,
    ReflTransGen (BuildStep 0x80400000) ⟨identityLeaves 0x80400000 rootMm, 0, []⟩
      ⟨s, 0, pages⟩ ∧ pages = [0x10000] ∧
    Set.EqOn (destroyRoot 0x80400000 s).mem bareMm.mem (bitmapRegion bareMm) ∧
      (destroyRoot 0x80400000 s).pmm.freePages = bareMm.pmm.freePages ∧
      destroyRoot 0x80400000 s = (destroyCalls s.mem 0x80400000).foldl free s ∧
      (destroyCalls s.mem 0x80400000).Nodup ∧
      ∀ f, f ∈ destroyCalls s.mem 0x80400000 ↔
        ∃ j < bareMm.pmm.totalPages, f = idxToPa bareMm j ∧ bmGet bareMm j = false ∧
          bmGet s j = true := by
  have hres : (match mapUserPage 0x80400000 (identityLeaves 0x80400000 rootMm) with
      | .ok _ _ => true
      | .error _ _ => false) = true := by
    decide +kernel
  cases hmap : mapUserPage 0x80400000 (identityLeaves 0x80400000 rootMm) with
  | error e s' =>
    rw [hmap] at hres
    exact absurd hres Bool.false_ne_true
  | ok u s =>
    obtain ⟨f, s2, halloc, hone⟩ := KResult.bind_eq_ok_iff.mp hmap
    have hrun : ReflTransGen (BuildStep 0x80400000)
        ⟨identityLeaves 0x80400000 rootMm, 0, []⟩ ⟨s, 0, [0x10000]⟩ := by
      have h1 : BuildStep 0x80400000 ⟨identityLeaves 0x80400000 rootMm, 0, []⟩ ⟨s2, f ::ₘ 0, []⟩ :=
        BuildStep.alloc halloc
      have h2 : BuildStep 0x80400000 ⟨s2, f ::ₘ 0, []⟩ ⟨s, (f ::ₘ 0).erase f, [0x10000]⟩ :=
        BuildStep.map (by decide) (by decide) List.not_mem_nil (mem_cons_self f 0)
          (by decide) (by decide) (by decide) hone
      rw [erase_cons_head] at h2
      exact (ReflTransGen.single h1).tail h2
    exact ⟨s, [0x10000], hrun, rfl, destroyRoot_restores bareMm_valid rootMm_physical (by rfl) hrun⟩

end Vmm

end OnyxKernel
