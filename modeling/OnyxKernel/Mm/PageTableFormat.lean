import OnyxKernel.Foundation.RadixTree
import OnyxKernel.Mm.Translate

/-!
# Page tables as radix trees

A Sv39 page table is a radix tree of height three with 512 entries of eight bytes to a table; the key
of a virtual address gives its nine-bit index for every level.  `mapping` is what a page table means:
the physical address of a virtual address, with the flags of the leaf that maps it.  Both walkers of
the kernel read it off (`translate_eq`, `translateUser_eq`).
-/

namespace OnyxKernel.Vmm

open ByteMemory RadixTree Nat Option Format

variable {flags pa pte va l h T rootPa : ℕ} {m m' : Memory} {accept : ℕ → Bool}

/-! ### Entries -/

/-- The flags of an entry. -/
def pteFlags (pte : ℕ) : ℕ := pte &&& pteFlagsMask

lemma pteFlags_eq (pte : ℕ) : pteFlags pte = pte % 2 ^ 10 :=
  and_two_pow_sub_one_eq_mod pte 10

lemma and_eq_pteFlags_and {mask : ℕ} (hmask : mask < 2 ^ 10) (pte : ℕ) :
    pte &&& mask = pteFlags pte &&& mask := by
  have h : pteFlagsMask &&& mask = mask := by
    rw [Nat.and_comm]
    exact (and_two_pow_sub_one_eq_mod mask 10).trans (mod_eq_of_lt hmask)
  rw [pteFlags, Nat.and_assoc, h]

lemma ptePpn_eq (pte : ℕ) : ptePpn pte = pte / 2 ^ 10 % 2 ^ 44 := by
  rw [ptePpn, ptePpnMask, ptePpnShift, shiftRight_and_distrib, shiftLeft_shiftRight, shiftRight_eq_div_pow]
  exact and_two_pow_sub_one_eq_mod _ 44

lemma pteAddr_eq (pte : ℕ) : pteAddr pte = pte / 2 ^ 10 % 2 ^ 44 * pageSize := by
  rw [pteAddr, ptePpn_eq, shiftLeft_eq]
  rfl

lemma pteAddr_mod (pte : ℕ) : pteAddr pte % pageSize = 0 := by
  rw [pteAddr_eq]
  exact mul_mod_left _ _

lemma makePte_eq (hflags : flags < 2 ^ 10) (pa : ℕ) :
    makePte flags pa = pa / pageSize * 2 ^ 10 + (pteV ||| flags) := by
  have hlt : pteV ||| flags < 2 ^ 10 := or_lt_two_pow (by decide) hflags
  rw [makePte, Nat.or_comm, Nat.shiftRight_eq_div_pow, ptePpnShift,
    ← shiftLeft_add_eq_or_of_lt hlt, shiftLeft_eq]
  rfl

lemma makePte_lt (hflags : flags < 2 ^ 10) (hpa : pa < 2 ^ 56) : makePte flags pa < 2 ^ 64 := by
  have hlt : pteV ||| flags < 2 ^ 10 := or_lt_two_pow (by decide) hflags
  rw [makePte_eq hflags]
  unfold pageSize
  omega

lemma pteFlags_makePte (hflags : flags < 2 ^ 10) (pa : ℕ) : pteFlags (makePte flags pa) = pteV ||| flags := by
  have hlt : pteV ||| flags < 2 ^ 10 := or_lt_two_pow (by decide) hflags
  rw [pteFlags_eq, makePte_eq hflags, add_comm, add_mul_mod_self_right, mod_eq_of_lt hlt]

lemma pteAddr_makePte (hflags : flags < 2 ^ 10) (hpa : pa < 2 ^ 56) (hal : pa % pageSize = 0) :
    pteAddr (makePte flags pa) = pa := by
  have hlt : pteV ||| flags < 2 ^ 10 := or_lt_two_pow (by decide) hflags
  rw [pteAddr_eq, makePte_eq hflags]
  unfold pageSize at *
  omega

lemma makePte_and {mask : ℕ} (hmask : mask < 2 ^ 10) (flags pa : ℕ) :
    makePte flags pa &&& mask = (pteV ||| flags) &&& mask := by
  have hppn : (pa >>> 12) <<< ptePpnShift &&& mask = 0 := by
    rw [and_eq_pteFlags_and hmask, pteFlags_eq, shiftLeft_eq]
    have hzero : pa >>> 12 * 2 ^ ptePpnShift % 2 ^ 10 = 0 := mul_mod_left _ _
    rw [hzero, zero_and]
  rw [makePte, and_or_distrib_right, hppn, or_zero]

lemma makePte_and_pteV (flags pa : ℕ) : makePte flags pa &&& pteV ≠ 0 := by
  rw [makePte_and (by decide), Nat.and_or_distrib_right, Nat.and_self]
  intro h
  exact absurd (or_eq_zero_iff.mp h).1 (by decide)

lemma makePte_and_pteLeaf (flags pa : ℕ) : makePte flags pa &&& pteLeaf = flags &&& pteLeaf := by
  have h : pteV &&& pteLeaf = 0 := by decide
  rw [makePte_and (by decide), and_or_distrib_right, h, zero_or]

/-! ### The tree -/

/-- What an entry is.  A leaf is kept as the entry itself. -/
def decodePte (pte : ℕ) : Entry ℕ :=
  if pte &&& pteV = 0 then .absent else if pte &&& pteLeaf ≠ 0 then .leaf pte else .table (pteAddr pte)

/-- The format of the tables. -/
def sv39 : Format ℕ where
  fanout := sv39PtesPerTable
  width := 8
  decode := decodePte

/-- The key of a virtual address. -/
def vaKey (va : ℕ) : ℕ → ℕ := fun l => levelIdx l va

lemma sv39_fanout : sv39.fanout = 512 := rfl

lemma sv39_width : sv39.width = 8 := rfl

lemma sv39_size : sv39.size = pageSize := rfl

lemma sv39_decode (pte : ℕ) : sv39.decode pte = decodePte pte := rfl

lemma sv39_page (T : ℕ) : sv39.page T = Set.Ico T (T + pageSize) := rfl

lemma sv39_slot (T i : ℕ) : sv39.slot T i = Set.Ico (T + i * 8) (T + i * 8 + 8) := rfl

lemma sv39_entry (m : Memory) (T i : ℕ) : sv39.entry m T i = decodePte (m.load (T + i * 8) 8) := rfl

lemma vaKey_lt (va l : ℕ) : vaKey va l < sv39.fanout := levelIdx_lt l va

/-- The offset of a virtual address in a leaf of level `l`. -/
def leafOffset (l va : ℕ) : ℕ := va % 2 ^ levelShift l

/-- What the leaf `pte` of level `l` does with `va`: the physical address and the flags. -/
def leafMapping (va : ℕ) (leaf : ℕ × ℕ) : ℕ × ℕ :=
  (pteAddr leaf.2 + leafOffset leaf.1 va, pteFlags leaf.2)

/-- What a tree of height `h` does with `va`. -/
def mappingAt (m : Memory) (h T va : ℕ) : Option (ℕ × ℕ) :=
  (sv39.lookup m (vaKey va) h T).map (leafMapping va)

/-- What the page table at `rootPa` does with `va`: the physical address, and the flags of the leaf
that maps it. -/
def mapping (m : Memory) (rootPa va : ℕ) : Option (ℕ × ℕ) := mappingAt m 3 rootPa va

lemma translateLoop_eq (accept : ℕ → Bool) (m : Memory) (va : ℕ) : ∀ n pa : ℕ,
    translateLoop accept m va n pa = (sv39.lookup m (vaKey va) n pa).elim 0 fun leaf =>
      if accept leaf.2 then pteAddr leaf.2 + leafOffset leaf.1 va else 0
  | 0, _ => rfl
  | l + 1, pa => by
    rw [lookup_succ]
    rw [sv39_entry]
    unfold translateLoop decodePte vaKey
    dsimp only
    split_ifs with hv hleaf hacc
    · rfl
    · simp only [lookupEntry, elim_some, if_pos hacc, and_two_pow_sub_one_eq_mod, leafOffset]
      rfl
    · simp only [lookupEntry, elim_some, if_neg hacc]
    · exact translateLoop_eq accept m va l _

lemma translate_eq (m : Memory) (rootPa va : ℕ) :
    translate m rootPa va = (mapping m rootPa va).elim 0 Prod.fst := by
  rw [translate, translateLoop_eq, mapping, mappingAt]
  cases sv39.lookup m (vaKey va) 3 rootPa <;> rfl

/-- `translate_user` is the physical address of the mapping, for a leaf with `PTE_U`. -/
theorem translateUser_eq (m : Memory) (rootPa va : ℕ) : translateUser m rootPa va =
      (mapping m rootPa va).elim 0 fun x => if x.2 &&& pteU ≠ 0 then x.1 else 0 := by
  rw [translateUser, translateLoop_eq, mapping, mappingAt]
  cases sv39.lookup m (vaKey va) 3 rootPa with
  | none => rfl
  | some leaf =>
    simp only [elim_some, map_some, leafMapping, decide_eq_true_eq,
      and_eq_pteFlags_and (show pteU < 2 ^ 10 by decide) leaf.2]

lemma mappingAt_congr (hm : ∀ T' ∈ sv39.tables m h T, Set.EqOn m' m (sv39.page T')) (va : ℕ) :
    mappingAt m' h T va = mappingAt m h T va := by
  rw [mappingAt, mappingAt, lookup_congr (vaKey_lt va) h T hm]

-- the lemmas above are all that is used of the format
attribute [irreducible] sv39

end OnyxKernel.Vmm
