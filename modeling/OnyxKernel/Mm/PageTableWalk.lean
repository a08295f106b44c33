import OnyxKernel.Mm.PageTableSpec

/-!
# Walking and mapping

A walk that creates missing tables grows the tree (`walkLoop_cases`): an absent entry gets an empty
table, and a leaf gets a table of 512 leaves that map the same range.  Mapping a page then writes one
entry of the table that the walk ends at; `mapOne_cases` says what it does to the meaning of the page
table and to its tables.
-/

namespace OnyxKernel.Vmm

open ByteMemory RadixTree KResult Format List Nat Memory Pmm

variable {s s' : Mm} {h T C L d va pte g k : ℕ} {m m' : Memory} {fresh : Multiset ℕ} {s1 : Mm}
  {P j i : ℕ}

/-! ### Dividing a leaf -/

/-- Entry `k` of the table of level `g` that divides the leaf `pte`. -/
def subLeaf (pte g k : ℕ) : ℕ := makePte (pteFlags pte) (pteAddr pte + k * 2 ^ levelShift g)

lemma levelShift_succ : ∀ {g : ℕ}, g < 2 → levelShift (g + 1) = levelShift g + 9
  | 0, _ => rfl
  | 1, _ => rfl

lemma two_pow_levelShift_succ (hg : g < 2) : 2 ^ levelShift (g + 1) = 512 * 2 ^ levelShift g := by
  rw [levelShift_succ hg, Nat.pow_add, Nat.mul_comm]

lemma leafOffset_succ (hg : g < 2) (a : ℕ) :
    leafOffset (g + 1) a = levelIdx g a * 2 ^ levelShift g + leafOffset g a := by
  rw [leafOffset, leafOffset, levelIdx_eq, two_pow_levelShift_succ hg, mul_comm 512,
    mod_mul, mul_comm (2 ^ levelShift g), add_comm]

lemma pteFlags_lt (pte : ℕ) : pteFlags pte < 2 ^ 10 := by
  rw [pteFlags_eq]
  exact mod_lt _ (by decide)

lemma pteV_or_pteFlags (hv : pte &&& pteV ≠ 0) : pteV ||| pteFlags pte = pteFlags pte := by
  have hbit : pte &&& pteV = pte % 2 := and_two_pow_sub_one_eq_mod pte 1
  have hodd : pteFlags pte % 2 = 1 := by
    rw [pteFlags_eq]
    omega
  refine eq_of_testBit_eq fun i => ?_
  rw [testBit_or]
  cases i with
  | zero => simp [testBit_zero, hodd]
  | succ i => simp [pteV, testBit_succ]

lemma pteFlags_subLeaf (hpte : pte &&& pteV ≠ 0) (g k : ℕ) : pteFlags (subLeaf pte g k) = pteFlags pte := by
  rw [subLeaf, pteFlags_makePte (pteFlags_lt pte), pteV_or_pteFlags hpte]

lemma subLeaf_end_le (hk : k < 512) (hg : g < 2) (pa : ℕ) :
    pa + k * 2 ^ levelShift g + 2 ^ levelShift g ≤ pa + 2 ^ levelShift (g + 1) := by
  have hle : (k + 1) * 2 ^ levelShift g ≤ 512 * 2 ^ levelShift g := mul_le_mul_right _ hk
  rw [two_pow_levelShift_succ hg]
  rw [add_mul, one_mul] at hle
  omega

lemma subLeaf_addr_lt (hk : k < 512) (hg : g < 2) (hphys : pteAddr pte + 2 ^ levelShift (g + 1) ≤ 2 ^ 56) :
    pteAddr pte + k * 2 ^ levelShift g < 2 ^ 56 := by
  have hle := subLeaf_end_le hk hg (pteAddr pte)
  have hpos : 0 < 2 ^ levelShift g := Nat.two_pow_pos _
  omega

lemma pteAddr_subLeaf (hk : k < 512) (hg : g < 2) (hphys : pteAddr pte + 2 ^ levelShift (g + 1) ≤ 2 ^ 56) :
    pteAddr (subLeaf pte g k) = pteAddr pte + k * 2 ^ levelShift g := by
  refine pteAddr_makePte (pteFlags_lt pte) (subLeaf_addr_lt hk hg hphys) ?_
  rw [add_mod, pteAddr_mod, zero_add, mod_mod]
  exact mod_eq_zero_of_dvd ((pageSize_dvd g).trans (dvd_mul_left _ _))

lemma within_subLeaf (hpte : pte &&& pteV ≠ 0) (hk : k < 512) (hg : g < 2)
    (hphys : pteAddr pte + 2 ^ levelShift (g + 1) ≤ 2 ^ 56) :
    Within (g, subLeaf pte g k) (g + 1, pte) where
  level_le := le_succ g
  flags_eq := pteFlags_subLeaf hpte g k
  end_le := by
    rw [pteAddr_subLeaf hk hg hphys]
    exact subLeaf_end_le hk hg _

lemma leafMapping_subLeaf (hpte : pte &&& pteV ≠ 0) (hg : g < 2)
    (hphys : pteAddr pte + 2 ^ levelShift (g + 1) ≤ 2 ^ 56) (a : ℕ) :
    leafMapping a (g, subLeaf pte g (levelIdx g a)) = leafMapping a (g + 1, pte) := by
  simp only [leafMapping, pteFlags_subLeaf hpte, pteAddr_subLeaf (levelIdx_lt g a) hg hphys,
    leafOffset_succ hg]
  rw [add_assoc]

lemma decodePte_subLeaf (hleaf : pte &&& pteLeaf ≠ 0) (g k : ℕ) :
    decodePte (subLeaf pte g k) = .leaf (subLeaf pte g k) := by
  have hv : subLeaf pte g k &&& pteV ≠ 0 := makePte_and_pteV _ _
  have hl : subLeaf pte g k &&& pteLeaf ≠ 0 := by
    rwa [subLeaf, makePte_and_pteLeaf, ← and_eq_pteFlags_and (by decide)]
  rw [decodePte, if_neg hv, if_pos hl]

lemma load_foldl_store (v : ℕ → ℕ) (table n : ℕ) (m : Memory) (hv : ∀ i < n, v i < 2 ^ 64) :
    (∀ i < n, ((range n).foldl (fun m i => m.store (table + i * 8) 8 (v i)) m).load (table + i * 8) 8 = v i) ∧
    ∀ x ∉ Set.Ico table (table + n * 8),
      (range n).foldl (fun m i => m.store (table + i * 8) 8 (v i)) m x = m x := by
  induction n with
  | zero => exact ⟨fun i hi => absurd hi (not_lt_zero i), fun x _ => rfl⟩
  | succ n ih =>
    obtain ⟨hload, hout⟩ := ih fun i hi => hv i (lt_succ_of_lt hi)
    rw [range_succ, foldl_append, foldl_cons, foldl_nil]
    constructor
    · intro i hi
      rcases Nat.lt_succ_iff_lt_or_eq.mp hi with hlt | rfl
      · rw [load_store_of_disjoint (.inr (by omega)), hload i hlt]
      · exact load_store_same (hv i hi)
    · intro x hx
      rw [store_apply_of_notMem, hout]
      · exact fun hmem => hx ⟨hmem.1, by have := hmem.2; omega⟩
      · exact fun hmem => hx ⟨by have := hmem.1; omega, by have := hmem.2; omega⟩

/-! ### Installing a table -/

/-- The entries `new` of a table of level `g` together mean what the entry `old` of the level above
means. -/
def Divides (old : Entry ℕ) (g : ℕ) (new : ℕ → Entry ℕ) : Prop :=
  (old = .absent ∧ ∀ k < 512, new k = .absent) ∨
    ∃ pte, pte &&& pteV ≠ 0 ∧ old = .leaf pte ∧ ∀ k < 512, new k = .leaf (subLeaf pte g k)

/-- The memory after the table at `P` has been installed in entry `i` of `T`. -/
def install (m : Memory) (T P i : ℕ) : Memory := m.store (T + i * 8) 8 (makePte 0 P)

/-- A page `P` has been allocated, and its contents divide entry `i` of the table `T` of level
`g + 1`. -/
structure Division (s s1 : Mm) (m : Memory) (T P g i : ℕ) : Prop where
  valid : Pmm.Valid s
  physical : Pmm.Physical s
  level_lt : g < 2
  tree : IsTree s (g + 2) T
  index_lt : i < 512
  page : ∃ j, Pmm.AllocatedPage s s1 j P
  outside : ∀ x ∉ sv39.page P, m x = s1.mem x
  divides : Divides (sv39.entry s.mem T i) g (sv39.entry m P)

namespace Division

variable {s1 : Mm} {P i : ℕ} (hd : Division s s1 m T P g i) {T' x : ℕ} {key : ℕ → ℕ}
include hd

lemma index_lt_fanout : i < sv39.fanout := by
  rw [sv39_fanout]
  exact hd.index_lt

lemma took : Pmm.Took s s1 {P} := by
  obtain ⟨j, ha⟩ := hd.page
  exact ha.took hd.valid

lemma page_mod : P % pageSize = 0 := by
  obtain ⟨j, -, rfl, -⟩ := hd.took.clear P (Multiset.mem_singleton_self P)
  exact hd.valid.idxToPa_mod j

lemma page_lt : P < 2 ^ 56 := by
  obtain ⟨j, hj, rfl, -⟩ := hd.took.clear P (Multiset.mem_singleton_self P)
  exact hd.physical.idxToPa_lt hj

lemma ne_of_mem_tables (hT : T' ∈ sv39.tables s.mem (g + 2) T) : T' ≠ P := fun heq =>
  hd.took.notMem_of_allocated (hd.tree.allocated T' hT) (heq ▸ Multiset.mem_singleton_self P)

lemma notMem_page (hT : T' ∈ sv39.tables s.mem (g + 2) T) (hx : x ∈ sv39.page T') : x ∉ sv39.page P :=
  page_disjoint (hd.valid.allocated_mod (hd.tree.allocated T' hT)) hd.page_mod
    (hd.ne_of_mem_tables hT) hx

lemma slot_subset : sv39.slot T i ⊆ sv39.page T := slot_subset_page hd.index_lt_fanout

lemma changes (hx : install m T P i x ≠ s.mem x) :
    x ∈ sv39.slot T i ∨ x ∈ sv39.page P ∨ x ∈ bitmapRegion s := by
  by_contra hnot
  obtain ⟨hslot, hrest⟩ := not_or.mp hnot
  obtain ⟨hpage, hbitmap⟩ := not_or.mp hrest
  obtain ⟨j, ha⟩ := hd.page
  refine hx ?_
  rw [install, store_apply_of_notMem (by rwa [sv39_slot] at hslot), hd.outside x hpage]
  refine ha.mem_of_notMem hbitmap ?_
  rwa [sv39_page, ha.pa_eq] at hpage

lemma localChange : sv39.Local s.mem (install m T P i) (g + 1) T i := by
  refine (hd.tree.separated hd.valid).local_of_changes hd.index_lt_fanout fun x hx => ?_
  rcases hd.changes hx with hslot | hpage | hbitmap
  · exact .inl hslot
  · exact .inr (.inr fun T' hT' hxT => hd.notMem_page hT' hxT hpage)
  · exact .inr (.inr fun T' hT' hxT =>
      notMem_bitmapRegion hd.valid (hd.tree.allocated T' hT') hxT hbitmap)

lemma entry_root : sv39.entry (install m T P i) T i = .table P := by
  have hlt : makePte 0 P < 256 ^ 8 := makePte_lt (by decide) hd.page_lt
  have hvalid : makePte 0 P &&& pteV ≠ 0 := makePte_and_pteV 0 P
  have hleaf : makePte 0 P &&& pteLeaf = 0 := makePte_and_pteLeaf 0 P
  rw [sv39_entry, install, load_store_same hlt, decodePte, if_neg hvalid,
    if_neg (not_not_intro hleaf), pteAddr_makePte (by decide) hd.page_lt hd.page_mod]

lemma entry_page (hk : k < 512) : sv39.entry (install m T P i) P k = sv39.entry m P k := by
  refine entry_congr (by rwa [sv39_fanout]) fun x hx => ?_
  refine store_apply_of_notMem fun hslot => ?_
  rw [← sv39_slot] at hslot
  exact hd.notMem_page (root_mem_tables s.mem (g + 1) T) (hd.slot_subset hslot) hx

lemma lookup_new (hkey : ∀ l, key l < sv39.fanout) : sv39.lookup (install m T P i) key (g + 2) T =
      if key (g + 1) = i then
        sv39.lookupEntry (install m T P i) key g (sv39.entry m P (key g))
      else sv39.lookup s.mem key (g + 2) T := by
  have hk : key g < 512 := by
    rw [← sv39_fanout]
    exact hkey g
  rw [hd.localChange.lookup_eq hkey, hd.entry_root, lookupEntry_table, lookup_succ, hd.entry_page hk]

lemma leaf_physical (hold : sv39.entry s.mem T i = .leaf pte) :
    pteAddr pte + 2 ^ levelShift (g + 1) ≤ 2 ^ 56 := by
  have hi := hd.index_lt_fanout
  refine hd.tree.physical (fun _ => i) (fun _ => hi) (g + 1, pte) ?_
  rw [lookup_succ, hold, lookupEntry_leaf]

lemma lookup_cases (hkey : ∀ l, key l < sv39.fanout) (hi : key (g + 1) = i) :
    (sv39.lookup s.mem key (g + 2) T = none ∧ sv39.lookup (install m T P i) key (g + 2) T = none) ∨
      ∃ pte, pte &&& pteV ≠ 0 ∧ pteAddr pte + 2 ^ levelShift (g + 1) ≤ 2 ^ 56 ∧
        sv39.lookup s.mem key (g + 2) T = some (g + 1, pte) ∧
        sv39.lookup (install m T P i) key (g + 2) T = some (g, subLeaf pte g (key g)) := by
  have hk : key g < 512 := by
    rw [← sv39_fanout]
    exact hkey g
  rw [hd.lookup_new hkey, if_pos hi, lookup_succ, hi]
  rcases hd.divides with ⟨hold, hnew⟩ | ⟨pte, hpte, hold, hnew⟩
  · rw [hold, hnew _ hk]
    exact .inl ⟨rfl, rfl⟩
  · refine .inr ⟨pte, hpte, hd.leaf_physical hold, ?_, ?_⟩
    · rw [hold, lookupEntry_leaf]
    · rw [hnew _ hk, lookupEntry_leaf]

lemma nodes_page {own : ℕ → Multiset ℕ} (ho : ∀ pte, sv39.entry s.mem T i = .leaf pte →
    ∀ pte', pteFlags pte' = pteFlags pte → own pte' = 0) :
    sv39.nodes own (install m T P i) (g + 1) P = {P} := by
  rw [nodes_succ, Finset.sum_eq_zero, add_zero]
  intro k hk
  have hk' : k < 512 := by
    rw [← sv39_fanout]
    exact Finset.mem_range.mp hk
  rw [hd.entry_page hk']
  rcases hd.divides with ⟨-, hnew⟩ | ⟨pte, hpte, hold, hnew⟩
  · rw [hnew k hk', nodesEntry_absent]
  · rw [hnew k hk', nodesEntry_leaf]
    exact ho pte hold _ (pteFlags_subLeaf hpte g k)

lemma grown (hva : levelIdx (g + 1) va = i) (hL : L ≤ g) :
    Grown s { s1 with mem := install m T P i } (g + 2) T {P} va L := by
  have hroot := root_mem_tables (F := sv39) s.mem (g + 1) T
  refine ⟨?_, fun x hx => ?_, fun a => ?_, fun key hkey leaf' hleaf' => ?_, fun own ho => ?_⟩
  · refine hd.took.of_eqOn rfl fun x hx => ?_
    have hP : x ∉ sv39.page P := fun hxP => by
      obtain ⟨j, -, hPj, -⟩ := hd.took.clear P (Multiset.mem_singleton_self P)
      rw [sv39_page, hPj] at hxP
      exact Set.disjoint_left.mp (hd.valid.disjoint_page j) hxP hx
    have hslot : x ∉ sv39.slot T i := fun hxs =>
      notMem_bitmapRegion hd.valid (hd.tree.allocated T hroot) (hd.slot_subset hxs) hx
    rw [sv39_slot] at hslot
    exact (store_apply_of_notMem hslot).trans (hd.outside x hP)
  · rcases hd.changes hx with hslot | hpage | hbitmap
    · exact .inr (.inr ⟨T, hroot, hd.slot_subset hslot⟩)
    · exact .inr (.inl ⟨P, Multiset.mem_singleton_self P, hpage⟩)
    · exact .inl hbitmap
  · unfold mappingAt
    by_cases hi : vaKey a (g + 1) = i
    · rcases hd.lookup_cases (vaKey_lt a) hi with ⟨hold, hnew⟩ | ⟨pte, hpte, hphys, hold, hnew⟩
      · rw [hold, hnew]
      · rw [hold, hnew]
        exact congrArg some (leafMapping_subLeaf hpte hd.level_lt hphys a)
    · rw [hd.lookup_new (vaKey_lt a), if_neg hi]
  · by_cases hi : key (g + 1) = i
    · rcases hd.lookup_cases hkey hi with ⟨-, hnew⟩ | ⟨pte, hpte, hphys, hold, hnew⟩
      · rw [hnew] at hleaf'
        cases hleaf'
      · rw [hnew] at hleaf'
        cases hleaf'
        have hk : key g < 512 := by
          rw [← sv39_fanout]
          exact hkey g
        exact ⟨_, hold, within_subLeaf hpte hk hd.level_lt hphys⟩
    · rw [hd.lookup_new hkey, if_neg hi] at hleaf'
      exact ⟨leaf', hleaf', Within.refl leaf'⟩
  · have hown : ∀ pte, sv39.entry s.mem T i = .leaf pte →
        ∀ pte', pteFlags pte' = pteFlags pte → own pte' = 0 := by
      intro pte hold
      refine ho (g + 1, pte) ?_ (lt_succ_of_le hL)
      rw [lookup_succ, vaKey, hva, hold, lookupEntry_leaf]
    have hadd := hd.localChange.nodes_add own hd.index_lt_fanout
    rw [hd.entry_root, nodesEntry_table, hd.nodes_page hown] at hadd
    rcases hd.divides with ⟨hold, -⟩ | ⟨pte, -, hold, -⟩
    · rwa [hold, nodesEntry_absent, add_zero] at hadd
    · rwa [hold, nodesEntry_leaf, hown pte hold pte rfl, add_zero] at hadd

end Division

/-! ### Walking -/

lemma readPte_apply (p : ℕ) (s : Mm) : readPte p s = .ok (s.mem.load p 8) s := rfl

lemma writePte_apply (p pte : ℕ) (s : Mm) :
    writePte p pte s = .ok () { s with mem := s.mem.store p 8 pte } := rfl

lemma pageRegion_eq (ha : Pmm.AllocatedPage s s1 j P) : pageRegion s j = sv39.page P := by
  rw [sv39_page, ha.pa_eq]
  rfl

lemma entry_zeroed (ha : Pmm.AllocatedPage s s1 j P) (hk : k < 512) : sv39.entry s1.mem P k = .absent := by
  have hzero : s1.mem.load (P + k * 8) 8 = 0 := by
    refine load_eq_zero fun i hi => ha.mem_page ?_
    rw [pageRegion_eq ha, sv39_page]
    exact ⟨by omega, by unfold pageSize; omega⟩
  rw [sv39_entry, hzero]
  rfl

lemma division_absent (hv : Pmm.Valid s) (hphys : Pmm.Physical s) (hg : g < 2)
    (ht : IsTree s (g + 2) T) (hi : i < 512) (ha : Pmm.AllocatedPage s s1 j P)
    (hold : sv39.entry s.mem T i = .absent) : Division s s1 s1.mem T P g i :=
  ⟨hv, hphys, hg, ht, hi, ⟨j, ha⟩, fun _ _ => rfl, .inl ⟨hold, fun _ hk => entry_zeroed ha hk⟩⟩

lemma division_leaf (hv : Pmm.Valid s) (hphys : Pmm.Physical s) (hg : g < 2)
    (ht : IsTree s (g + 2) T) (hi : i < 512) (ha : Pmm.AllocatedPage s s1 j P)
    (hold : sv39.entry s.mem T i = .leaf pte) (hpte : pte &&& pteV ≠ 0)
    (hleaf : pte &&& pteLeaf ≠ 0) :
    Division s s1 (splitEntries s1.mem P pte (levelShift g)) T P g i := by
  have hi' : i < sv39.fanout := by rwa [sv39_fanout]
  have hend : pteAddr pte + 2 ^ levelShift (g + 1) ≤ 2 ^ 56 := by
    refine ht.physical (fun _ => i) (fun _ => hi') (g + 1, pte) ?_
    rw [lookup_succ, hold, lookupEntry_leaf]
  have hlt : ∀ k < 512, subLeaf pte g k < 2 ^ 64 := fun k hk =>
    makePte_lt (pteFlags_lt pte) (subLeaf_addr_lt hk hg hend)
  obtain ⟨hload, hout⟩ := load_foldl_store (subLeaf pte g) P 512 s1.mem hlt
  refine ⟨hv, hphys, hg, ht, hi, ⟨j, ha⟩, fun x hx => ?_, .inr ⟨pte, hpte, hold, fun k hk => ?_⟩⟩
  · refine hout x fun hmem => hx ?_
    rwa [sv39_page]
  · rw [sv39_entry]
    refine (congrArg decodePte (hload k hk)).trans ?_
    exact decodePte_subLeaf hleaf g k

lemma splitLeaf_cases (s : Mm) (hg : g < 2) (p pte : ℕ) :
    (∃ P s1 j, Pmm.AllocatedPage s s1 j P ∧ splitLeaf p pte (g + 1) s = .ok ()
      { s1 with mem := (splitEntries s1.mem P pte (levelShift g)).store p 8 (makePte 0 P) }) ∨
      (splitLeaf p pte (g + 1) s = .error .noMem s ∧ Pmm.Full s) := by
  rcases alloc_cases s with ⟨P, j, s1, hok, ha⟩ | ⟨herr, hfull⟩
  · refine .inl ⟨P, s1, j, ha, ?_⟩
    have h0 : levelShift 0 = 12 := rfl
    have h1 : levelShift 1 = 21 := rfl
    match g, hg with
    | 0, _ =>
      simp only [splitLeaf, bind_of_ok hok, zero_add, modify_bind, h0, writePte_apply]
    | 1, _ =>
      simp only [splitLeaf, bind_of_ok hok, reduceAdd, modify_bind, h1, writePte_apply]
  · refine .inr ⟨?_, hfull⟩
    rw [splitLeaf, bind_of_error herr]

/-- One turn of a walk: it ends at a table below the entry of `va`, after having grown the tree, or
it runs out of memory. -/
theorem walkStep_cases (hv : Pmm.Valid s) (hphys : Pmm.Physical s) (hg : g < 2)
    (ht : IsTree s (g + 2) T) (va : ℕ) (hL : L ≤ g) :
    (∃ C s' fresh, walkStep (T + levelIdx (g + 1) va * 8) (g + 1) true s = .ok C s' ∧
      Grown s s' (g + 2) T fresh va L ∧ fresh.card ≤ 1 ∧
      sv39.entry s'.mem T (levelIdx (g + 1) va) = .table C) ∨
      (walkStep (T + levelIdx (g + 1) va * 8) (g + 1) true s = .error .noMem s ∧ Pmm.Full s) := by
  have hi := levelIdx_lt (g + 1) va
  set i := levelIdx (g + 1) va with hidef
  set p := T + i * 8 with hp
  set pte := s.mem.load p 8 with hpte
  have hentry : sv39.entry s.mem T i = decodePte pte := sv39_entry _ _ _
  rw [walkStep, bind_of_ok (readPte_apply p s), ← hpte]
  by_cases habs : pte &&& pteV = 0
  · rw [if_pos habs, if_pos rfl]
    have hold : sv39.entry s.mem T i = .absent := by rw [hentry, decodePte, if_pos habs]
    rcases alloc_cases s with ⟨P, j, s1, hok, ha⟩ | ⟨herr, hfull⟩
    · have hd := division_absent hv hphys hg ht hi ha hold
      refine .inl ⟨P, { s1 with mem := install s1.mem T P i }, {P}, ?_, hd.grown rfl hL,
        (Multiset.card_singleton P).le, hd.entry_root⟩
      rw [bind_of_ok hok, bind_of_ok (writePte_apply _ _ _)]
      rfl
    · exact .inr ⟨bind_of_error herr, hfull⟩
  rw [if_neg habs]
  by_cases hleaf : pte &&& pteLeaf ≠ 0
  · rw [if_pos hleaf, if_pos rfl]
    have hold : sv39.entry s.mem T i = .leaf pte := by
      rw [hentry, decodePte, if_neg habs, if_pos hleaf]
    rcases splitLeaf_cases s hg p pte with ⟨P, s1, j, ha, hok⟩ | ⟨herr, hfull⟩
    · have hd := division_leaf hv hphys hg ht hi ha hold habs hleaf
      refine .inl ⟨P, _, {P}, ?_, hd.grown rfl hL, (Multiset.card_singleton P).le, hd.entry_root⟩
      have hlt : makePte 0 P < 256 ^ 8 := makePte_lt (by decide) hd.page_lt
      rw [bind_of_ok hok, bind_of_ok (readPte_apply _ _),
        load_store_same hlt, pteAddr_makePte (by decide) hd.page_lt hd.page_mod]
      rfl
    · exact .inr ⟨bind_of_error herr, hfull⟩
  · rw [if_neg hleaf]
    refine .inl ⟨pteAddr pte, s, 0, rfl, Grown.refl hv _ _ _ _, zero_le 1, ?_⟩
    rw [hentry, decodePte, if_neg habs, if_neg hleaf]

/-- A walk leads to the entry of `va` at level `L`, or it runs out of memory; in both cases the tree
has grown only. -/
theorem walkLoop_cases (L va : ℕ) : ∀ (d T : ℕ) (s : Mm), Pmm.Valid s → Pmm.Physical s → L + d ≤ 2 →
    IsTree s (L + d + 1) T → ∃ s' fresh, Grown s s' (L + d + 1) T fresh va L ∧ fresh.card ≤ d ∧
      ((∃ p, walkLoop va L true d T s = .ok p s' ∧ sv39.slotAddr s'.mem (vaKey va) L d T = some p) ∨
        (walkLoop va L true d T s = .error .noMem s' ∧ Pmm.Full s'))
  | 0, T, s, hv, _, _, _ => by
    refine ⟨s, 0, Grown.refl hv _ _ _ _, le_rfl, .inl ⟨T + levelIdx L va * 8, rfl, ?_⟩⟩
    rw [slotAddr, sv39_width]
    rfl
  | d + 1, T, s, hv, hphys, hL, ht => by
    change IsTree s (L + d + 2) T at ht
    change ∃ s' fresh, Grown s s' (L + d + 2) T fresh va L ∧ _
    rcases walkStep_cases hv hphys (by omega) ht va (le_add_right L d) with
      ⟨C, s1, fresh, hstep, hgrown, hcard, he⟩ | ⟨hstep, hfull⟩
    · have hloop : walkLoop va L true (d + 1) T s = walkLoop va L true d C s1 := by
        rw [walkLoop]
        exact bind_of_ok hstep
      have hi : levelIdx (L + d + 1) va < sv39.fanout := vaKey_lt va _
      have hv1 : Pmm.Valid s1 := hgrown.valid
      have hphys1 : Pmm.Physical s1 := hphys.congr hgrown.base_eq hgrown.total_eq
      have ht1 : IsTree s1 (L + d + 2) T := hgrown.isTree ht
      obtain ⟨s2, fresh2, hgrown2, hcard2, hend⟩ :=
        walkLoop_cases L va d C s1 hv1 hphys1 (by omega) (ht1.child hi he)
      refine ⟨s2, fresh + fresh2, hgrown.trans (hgrown2.parent hv1 ht1 he), ?_, ?_⟩
      · rw [Multiset.card_add]
        omega
      rw [hloop]
      refine hend.imp_left ?_
      rintro ⟨p, hok, hp⟩
      refine ⟨p, hok, ?_⟩
      -- the second part of the walk leaves the entry of the root alone
      have he2 : sv39.entry s2.mem T (vaKey va (L + d + 1)) = .table C :=
        (hgrown2.local_of_child hv1 ht1 hi he).2
      rwa [slotAddr, he2]
    · refine ⟨s, 0, Grown.refl hv _ _ _ _, zero_le _, .inr ⟨?_, hfull⟩⟩
      rw [walkLoop]
      exact bind_of_error hstep

lemma walk_cases {rootPa va : ℕ} (hv : Pmm.Valid s) (hphys : Pmm.Physical s) (hL : L ≤ 2)
    (ht : IsTree s 3 rootPa) : ∃ s' fresh, Grown s s' 3 rootPa fresh va L ∧ fresh.card ≤ 2 - L ∧
      ((∃ p, walk rootPa va L true s = .ok p s' ∧ sv39.slotAddr s'.mem (vaKey va) L (2 - L) rootPa = some p) ∨
        (walk rootPa va L true s = .error .noMem s' ∧ Pmm.Full s')) := by
  have hd : L + (2 - L) + 1 = 3 := by omega
  have hcases := walkLoop_cases L va (2 - L) rootPa s hv hphys (by omega) (by rwa [hd])
  rw [hd] at hcases
  rwa [walk, if_pos hL]

end OnyxKernel.Vmm
