import OnyxKernel.Foundation.ByteMemory

/-!
# Radix trees in memory

A table is an array of `fanout` words in memory.  A word is absent, a leaf, or the address of a table
of the next level; a tree of height `h + 1` is a table whose entries point to trees of height `h`.
A key is a function that gives an index for every level, and `lookup` follows a key from the root to
the leaf it ends at.

`nodes` collects the tables of a tree, together with what its leaves own, as a multiset: that the
tables are pairwise distinct is that the multiset has no duplicates.  The lemmas say how `lookup` and
`nodes` react to a change of memory.  A change that stays away from the tables changes nothing
(`lookup_congr`, `nodes_congr`); one that is local to an entry of the root is seen through this entry
only (`Local`); and `lookup_store`, `nodes_store` are about writing the entry a key leads to.
-/

namespace RadixTree

open ByteMemory Multiset Nat Function Set Memory

/-- An entry of a table. -/
inductive Entry (α : Type) where
  | absent
  | leaf (a : α)
  | table (addr : ℕ)

/-- How tables are laid out: the number of entries, the width of an entry in bytes and the meaning
of its value. -/
structure Format (α : Type) where
  fanout : ℕ
  width : ℕ
  decode : ℕ → Entry α

namespace Format

variable {α : Type} (F : Format α)

/-- The size of a table in bytes. -/
def size : ℕ := F.fanout * F.width

/-- The addresses of a table. -/
def page (T : ℕ) : Set ℕ := Ico T (T + F.size)

/-- The addresses of entry `i` of a table. -/
def slot (T i : ℕ) : Set ℕ := Ico (T + i * F.width) (T + i * F.width + F.width)

/-- Entry `i` of the table at `T`. -/
def entry (m : Memory) (T i : ℕ) : Entry α := F.decode (m.load (T + i * F.width) F.width)

/-- Follow a key through a tree of height `h`: the level and the contents of the leaf. -/
def lookup (m : Memory) (key : ℕ → ℕ) : (h T : ℕ) → Option (ℕ × α)
  | 0, _ => none
  | h + 1, T =>
    match F.entry m T (key h) with
    | .absent => none
    | .leaf a => some (h, a)
    | .table T' => lookup m key h T'

/-- Follow a key from an entry of a table at level `h`. -/
def lookupEntry (m : Memory) (key : ℕ → ℕ) (h : ℕ) : Entry α → Option (ℕ × α)
  | .absent => none
  | .leaf a => some (h, a)
  | .table T => F.lookup m key h T

/-- The tables of a tree of height `h`, and what its leaves own. -/
def nodes (own : α → Multiset ℕ) (m : Memory) : (h T : ℕ) → Multiset ℕ
  | 0, _ => 0
  | h + 1, T =>
    {T} + ∑ i ∈ Finset.range F.fanout,
      match F.entry m T i with
      | .absent => 0
      | .leaf a => own a
      | .table T' => nodes own m h T'

/-- What an entry of a table at level `h` adds to the nodes. -/
def nodesEntry (own : α → Multiset ℕ) (m : Memory) (h : ℕ) : Entry α → Multiset ℕ
  | .absent => 0
  | .leaf a => own a
  | .table T => F.nodes own m h T

/-- The tables of a tree. -/
def tables (m : Memory) (h T : ℕ) : Multiset ℕ := F.nodes (fun _ => 0) m h T

/-- The tables below an entry. -/
def tablesEntry (m : Memory) (h : ℕ) (e : Entry α) : Multiset ℕ := F.nodesEntry (fun _ => 0) m h e

/-- The address of the entry at level `L` that a key leads to, `d` levels below the root. -/
def slotAddr (m : Memory) (key : ℕ → ℕ) (L : ℕ) : (d T : ℕ) → Option ℕ
  | 0, T => some (T + key L * F.width)
  | d + 1, T =>
    match F.entry m T (key (L + d + 1)) with
    | .table T' => slotAddr m key L d T'
    | _ => none

variable {F} {own : α → Multiset ℕ} {m m' : Memory} {key : ℕ → ℕ} {h T T' T0 i j : ℕ} {e : Entry α}

lemma lookup_succ (m : Memory) (key : ℕ → ℕ) (h T : ℕ) :
    F.lookup m key (h + 1) T = F.lookupEntry m key h (F.entry m T (key h)) := rfl

lemma nodes_succ (own : α → Multiset ℕ) (m : Memory) (h T : ℕ) : F.nodes own m (h + 1) T =
      {T} + ∑ i ∈ Finset.range F.fanout, F.nodesEntry own m h (F.entry m T i) := rfl

lemma tables_succ (m : Memory) (h T : ℕ) : F.tables m (h + 1) T =
      {T} + ∑ i ∈ Finset.range F.fanout, F.tablesEntry m h (F.entry m T i) := rfl

@[simp] lemma lookupEntry_absent (m : Memory) (key : ℕ → ℕ) (h : ℕ) :
    F.lookupEntry m key h .absent = none := rfl

@[simp] lemma lookupEntry_leaf (m : Memory) (key : ℕ → ℕ) (h : ℕ) (a : α) :
    F.lookupEntry m key h (.leaf a) = some (h, a) := rfl

@[simp] lemma lookupEntry_table (m : Memory) (key : ℕ → ℕ) (h T : ℕ) :
    F.lookupEntry m key h (.table T) = F.lookup m key h T := rfl

@[simp] lemma nodesEntry_absent (own : α → Multiset ℕ) (m : Memory) (h : ℕ) :
    F.nodesEntry own m h .absent = 0 := rfl

@[simp] lemma nodesEntry_leaf (own : α → Multiset ℕ) (m : Memory) (h : ℕ) (a : α) :
    F.nodesEntry own m h (.leaf a) = own a := rfl

@[simp] lemma nodesEntry_table (own : α → Multiset ℕ) (m : Memory) (h T : ℕ) :
    F.nodesEntry own m h (.table T) = F.nodes own m h T := rfl

/-- A lookup in a tree of height `h` only uses the key below level `h`. -/
theorem lookup_key_congr {key' : ℕ → ℕ} : ∀ h T : ℕ, (∀ l < h, key' l = key l) →
    F.lookup m key' h T = F.lookup m key h T
  | 0, _, _ => rfl
  | h + 1, T, hkey => by
    rw [lookup_succ, lookup_succ, hkey h (lt_succ_self h)]
    cases F.entry m T (key h) with
    | absent => rfl
    | leaf a => rfl
    | table T' => exact lookup_key_congr h T' fun l hl => hkey l (lt_succ_of_lt hl)

/-- A key for a tree is extended to a key for the tree above it by the index of the entry. -/
theorem lookup_update (he : F.entry m T i = .table T') :
    F.lookup m (update key h i) (h + 1) T = F.lookup m key h T' := by
  rw [lookup_succ, update_self, he]
  exact lookup_key_congr h T' fun l hl => update_of_ne (Nat.ne_of_lt hl) _ _

lemma update_lt (hkey : ∀ l, key l < F.fanout) (hi : i < F.fanout) (l : ℕ) : update key h i l < F.fanout := by
  rw [update_apply]
  split_ifs
  · exact hi
  · exact hkey l

/-! ### Tables and nodes -/

lemma root_mem_tables (m : Memory) (h T : ℕ) : T ∈ F.tables m (h + 1) T := by
  exact mem_add.mpr (.inl (mem_singleton_self T))

lemma tablesEntry_le (hi : i < F.fanout) : F.tablesEntry m h (F.entry m T i) ≤ F.tables m (h + 1) T := by
  refine le_trans ?_ (le_add_left _ _)
  exact Finset.single_le_sum (f := fun i => F.tablesEntry m h (F.entry m T i))
    (fun _ _ => zero_le _) (Finset.mem_range.mpr hi)

lemma tables_le_nodes : ∀ h T : ℕ, F.tables m h T ≤ F.nodes own m h T
  | 0, _ => le_rfl
  | h + 1, T => by
    rw [tables_succ, nodes_succ]
    refine add_le_add le_rfl (Finset.sum_le_sum fun i _ => ?_)
    cases F.entry m T i with
    | absent => exact le_rfl
    | leaf a => exact zero_le _
    | table T' => exact tables_le_nodes h T'

/-! ### Changes away from the tables -/

lemma slot_subset_page (hi : i < F.fanout) : F.slot T i ⊆ F.page T := by
  rintro x ⟨hlo, hhi⟩
  have hle : (i + 1) * F.width ≤ F.fanout * F.width := mul_le_mul_right _ hi
  rw [add_mul, one_mul] at hle
  constructor
  · omega
  · unfold size
    omega

lemma disjoint_slot (hij : i ≠ j) : Disjoint (F.slot T i) (F.slot T j) := by
  refine disjoint_Ico_of_le ?_
  rcases lt_or_gt_of_ne hij with hlt | hlt
  · have hle : (i + 1) * F.width ≤ j * F.width := mul_le_mul_right _ hlt
    rw [add_mul, one_mul] at hle
    omega
  · have hle : (j + 1) * F.width ≤ i * F.width := mul_le_mul_right _ hlt
    rw [add_mul, one_mul] at hle
    omega

lemma entry_congr_slot (hm : EqOn m' m (F.slot T i)) : F.entry m' T i = F.entry m T i :=
  congrArg F.decode (load_congr hm)

lemma entry_congr (hi : i < F.fanout) (hm : EqOn m' m (F.page T)) : F.entry m' T i = F.entry m T i :=
  entry_congr_slot (hm.mono (slot_subset_page hi))

lemma lookup_congr (hkey : ∀ l, key l < F.fanout) : ∀ h T : ℕ,
    (∀ T' ∈ F.tables m h T, EqOn m' m (F.page T')) →
    F.lookup m' key h T = F.lookup m key h T
  | 0, _, _ => rfl
  | h + 1, T, hm => by
    rw [lookup_succ, lookup_succ, entry_congr (hkey h) (hm T (root_mem_tables m h T))]
    cases he : F.entry m T (key h) with
    | absent => rfl
    | leaf a => rfl
    | table T' =>
      refine lookup_congr hkey h T' fun T'' hT'' => hm T'' ?_
      refine mem_of_le (tablesEntry_le (hkey h)) ?_
      rwa [he]

lemma nodes_congr : ∀ h T : ℕ, (∀ T' ∈ F.tables m h T, EqOn m' m (F.page T')) →
    F.nodes own m' h T = F.nodes own m h T
  | 0, _, _ => rfl
  | h + 1, T, hm => by
    rw [nodes_succ, nodes_succ]
    refine congrArg (({T} : Multiset ℕ) + ·) (Finset.sum_congr rfl fun i hi => ?_)
    have hi' := Finset.mem_range.mp hi
    rw [entry_congr hi' (hm T (root_mem_tables m h T))]
    cases he : F.entry m T i with
    | absent => rfl
    | leaf a => rfl
    | table T' =>
      refine nodes_congr h T' fun T'' hT'' => hm T'' ?_
      refine mem_of_le (tablesEntry_le hi') ?_
      rwa [he]

/-! ### Separated trees -/

variable (F) in
/-- The tables of a tree are pairwise distinct, and each starts at a multiple of the table size. -/
structure Separated (m : Memory) (h T : ℕ) : Prop where
  nodup : (F.tables m h T).Nodup
  aligned : ∀ T' ∈ F.tables m h T, T' % F.size = 0

lemma disjoint_page (hT : T % F.size = 0) (hT' : T' % F.size = 0) (hne : T ≠ T') :
    Disjoint (F.page T) (F.page T') := by
  refine disjoint_Ico_of_le ?_
  have hT1 := div_add_mod T F.size
  have hT2 := div_add_mod T' F.size
  rcases lt_or_gt_of_ne (a := T / F.size) (b := T' / F.size) (fun heq => hne (by
    rw [← hT1, ← hT2, hT, hT', heq])) with hlt | hlt
  · have hle := mul_le_mul_left F.size (succ_le_of_lt hlt)
    rw [succ_eq_add_one, mul_add, mul_one] at hle
    omega
  · have hle := mul_le_mul_left F.size (succ_le_of_lt hlt)
    rw [succ_eq_add_one, mul_add, mul_one] at hle
    omega

lemma Separated.eq_of_mem_page {x : ℕ} (hs : F.Separated m h T0) (hT : T ∈ F.tables m h T0)
    (hT' : T' ∈ F.tables m h T0) (hx : x ∈ F.page T) (hx' : x ∈ F.page T') : T = T' := by
  by_contra hne
  exact disjoint_left.mp (disjoint_page (hs.aligned T hT) (hs.aligned T' hT') hne) hx hx'

namespace Separated

section

variable (hs : F.Separated m (h + 1) T) (hi : i < F.fanout)
include hs hi

lemma child (he : F.entry m T i = .table T') : F.Separated m h T' := by
  have hle : F.tables m h T' ≤ F.tables m (h + 1) T := by
    have hle := tablesEntry_le (m := m) (h := h) (T := T) hi
    rwa [he] at hle
  exact ⟨nodup_of_le hle hs.nodup, fun T'' hT'' => hs.aligned T'' (mem_of_le hle hT'')⟩

lemma root_notMem : T ∉ F.tablesEntry m h (F.entry m T i) := by
  have hnodup := hs.nodup
  rw [tables_succ, nodup_add] at hnodup
  intro hmem
  refine disjoint_left.mp hnodup.2.2 (mem_singleton_self T) ?_
  exact mem_sum.mpr ⟨i, Finset.mem_range.mpr hi, hmem⟩

lemma disjoint_entries (hj : j < F.fanout) (hij : j ≠ i) (hT : T' ∈ F.tablesEntry m h (F.entry m T i)) :
    T' ∉ F.tablesEntry m h (F.entry m T j) := by
  have hnodup := hs.nodup
  rw [tables_succ, nodup_add, ← Finset.add_sum_erase _ _ (Finset.mem_range.mpr hi), nodup_add] at hnodup
  intro hmem
  refine disjoint_left.mp hnodup.2.1.2.2 hT ?_
  exact mem_sum.mpr ⟨j, Finset.mem_erase.mpr ⟨hij, Finset.mem_range.mpr hj⟩, hmem⟩

end

end Separated

/-! ### Changes at one entry of the root -/

variable (F) in
/-- From `m` to `m'`, a tree of height `h + 1` changes at entry `i` of its root only. -/
structure Local (m m' : Memory) (h T i : ℕ) : Prop where
  /-- The other entries stay. -/
  entry_eq : ∀ j < F.fanout, j ≠ i → F.entry m' T j = F.entry m T j
  /-- So do the tables below them. -/
  below_eq : ∀ j < F.fanout, j ≠ i → ∀ T' ∈ F.tablesEntry m h (F.entry m T j), EqOn m' m (F.page T')

/-- A change is local to an entry when it stays inside the entry, the tables below it, and the
memory outside the tree. -/
theorem Separated.local_of_changes (hs : F.Separated m (h + 1) T) (hi : i < F.fanout)
    (hch : ∀ x, m' x ≠ m x → x ∈ F.slot T i ∨ (∃ T' ∈ F.tablesEntry m h (F.entry m T i), x ∈ F.page T') ∨
      ∀ T' ∈ F.tables m (h + 1) T, x ∉ F.page T') : F.Local m m' h T i where
  entry_eq j hj hij := by
    refine entry_congr_slot fun x hx => ?_
    by_contra hne
    have hpage : x ∈ F.page T := slot_subset_page hj hx
    rcases hch x hne with hslot | ⟨T', hT', hx'⟩ | hout
    · exact disjoint_left.mp (disjoint_slot hij) hx hslot
    · have heq := hs.eq_of_mem_page (root_mem_tables m h T) (mem_of_le (tablesEntry_le hi) hT') hpage hx'
      exact hs.root_notMem hi (heq ▸ hT')
    · exact hout T (root_mem_tables m h T) hpage
  below_eq j hj hij T' hT' x hx := by
    by_contra hne
    have hmem : T' ∈ F.tables m (h + 1) T := mem_of_le (tablesEntry_le hj) hT'
    rcases hch x hne with hslot | ⟨T'', hT'', hx''⟩ | hout
    · have heq := hs.eq_of_mem_page (root_mem_tables m h T) hmem (slot_subset_page hi hslot) hx
      exact hs.root_notMem hj (heq ▸ hT')
    · have heq := hs.eq_of_mem_page (mem_of_le (tablesEntry_le hi) hT'') hmem hx'' hx
      exact hs.disjoint_entries hi hj hij hT'' (heq ▸ hT')
    · exact hout T' hmem hx

namespace Local

variable (hl : F.Local m m' h T i)
include hl

lemma lookup_eq (hkey : ∀ l, key l < F.fanout) : F.lookup m' key (h + 1) T =
      if key h = i then F.lookupEntry m' key h (F.entry m' T i) else F.lookup m key (h + 1) T := by
  split_ifs with hi
  · rw [lookup_succ, hi]
  · rw [lookup_succ, lookup_succ, hl.entry_eq _ (hkey h) hi]
    cases he : F.entry m T (key h) with
    | absent => rfl
    | leaf a => rfl
    | table T' =>
      refine lookup_congr hkey h T' fun T'' hT'' => hl.below_eq _ (hkey h) hi T'' ?_
      rwa [he]

lemma nodesEntry_eq (hj : j < F.fanout) (hij : j ≠ i) :
    F.nodesEntry own m' h (F.entry m' T j) = F.nodesEntry own m h (F.entry m T j) := by
  rw [hl.entry_eq j hj hij]
  cases he : F.entry m T j with
  | absent => rfl
  | leaf a => rfl
  | table T' =>
    refine nodes_congr h T' fun T'' hT'' => hl.below_eq j hj hij T'' ?_
    rwa [he]

lemma nodes_add (own : α → Multiset ℕ) (hi : i < F.fanout) :
    F.nodes own m' (h + 1) T + F.nodesEntry own m h (F.entry m T i) =
      F.nodes own m (h + 1) T + F.nodesEntry own m' h (F.entry m' T i) := by
  have hmem := Finset.mem_range.mpr hi
  have hrest : ∑ j ∈ (Finset.range F.fanout).erase i, F.nodesEntry own m' h (F.entry m' T j) =
      ∑ j ∈ (Finset.range F.fanout).erase i, F.nodesEntry own m h (F.entry m T j) := by
    refine Finset.sum_congr rfl fun j hj => hl.nodesEntry_eq ?_ (Finset.ne_of_mem_erase hj)
    exact Finset.mem_range.mp (Finset.mem_of_mem_erase hj)
  rw [nodes_succ, nodes_succ, ← Finset.add_sum_erase _ _ hmem, ← Finset.add_sum_erase _ _ hmem, hrest]
  abel

end Local

/-! ### Writing an entry -/

variable {L d p v : ℕ}

lemma slotAddr_succ (hp : F.slotAddr m key L (d + 1) T = some p) :
    ∃ C, F.entry m T (key (L + d + 1)) = .table C ∧ F.slotAddr m key L d C = some p := by
  unfold slotAddr at hp
  cases he : F.entry m T (key (L + d + 1)) with
  | absent => simp [he] at hp
  | leaf a => simp [he] at hp
  | table C => exact ⟨C, rfl, by simpa only [he] using hp⟩

lemma slotAddr_mem (hkey : ∀ l, key l < F.fanout) : ∀ d T : ℕ, F.slotAddr m key L d T = some p →
    ∃ T' ∈ F.tables m (L + d + 1) T, p = T' + key L * F.width
  | 0, T, hp => ⟨T, root_mem_tables m L T, (Option.some.inj hp).symm⟩
  | d + 1, T, hp => by
    obtain ⟨C, he, hp⟩ := slotAddr_succ hp
    obtain ⟨T', hT', hp'⟩ := slotAddr_mem hkey d C hp
    refine ⟨T', mem_of_le (tablesEntry_le (hkey (L + d + 1))) ?_, hp'⟩
    rwa [he]

lemma lookup_of_slotAddr : ∀ d T : ℕ, F.slotAddr m key L d T = some p →
    F.lookup m key (L + d + 1) T = F.lookupEntry m key L (F.decode (m.load p F.width))
  | 0, T, hp => by
    cases hp
    rfl
  | d + 1, T, hp => by
    obtain ⟨C, he, hp⟩ := slotAddr_succ hp
    change F.lookup m key (L + d + 1 + 1) T = _
    rw [lookup_succ, he, lookupEntry_table, lookup_of_slotAddr d C hp]

lemma mem_slot_of_store_ne {x : ℕ} (hp : p = T + i * F.width)
    (hx : m.store p F.width v x ≠ m x) : x ∈ F.slot T i := by
  by_contra hmem
  subst hp
  exact hx (store_apply_of_notMem hmem)

lemma entry_store (hv : v < 256 ^ F.width) (hp : p = T + i * F.width) :
    F.entry (m.store p F.width v) T i = F.decode v := by
  subst hp
  exact congrArg F.decode (load_store_same hv)

/-- Writing the entry that a key leads to is local to every entry on the way, and keeps the tables
on the way. -/
theorem Separated.local_store_child (hs : F.Separated m (L + d + 2) T)
    (hkey : ∀ l, key l < F.fanout) {C : ℕ} (he : F.entry m T (key (L + d + 1)) = .table C)
    (hp : F.slotAddr m key L d C = some p) :
    F.Local m (m.store p F.width v) (L + d + 1) T (key (L + d + 1)) ∧
      F.entry (m.store p F.width v) T (key (L + d + 1)) = .table C := by
  have hi := hkey (L + d + 1)
  obtain ⟨T', hT', hp'⟩ := slotAddr_mem hkey d C hp
  have hT : T' ∈ F.tablesEntry m (L + d + 1) (F.entry m T (key (L + d + 1))) := by rwa [he]
  constructor
  · refine hs.local_of_changes hi fun x hx => .inr (.inl ⟨T', hT, ?_⟩)
    exact slot_subset_page (hkey L) (mem_slot_of_store_ne hp' hx)
  · rw [← he]
    refine entry_congr hi fun x hx => ?_
    by_contra hne
    have hx' := slot_subset_page (hkey L) (mem_slot_of_store_ne hp' hne)
    have heq := hs.eq_of_mem_page (root_mem_tables m _ T) (mem_of_le (tablesEntry_le hi) hT) hx hx'
    exact hs.root_notMem hi (heq ▸ hT)

lemma Separated.local_store_root (hs : F.Separated m (L + 1) T) (hkey : ∀ l, key l < F.fanout) :
    F.Local m (m.store (T + key L * F.width) F.width v) L T (key L) :=
  hs.local_of_changes (hkey L) fun _ hx => .inl (mem_slot_of_store_ne rfl hx)

/-- After the entry that `key` leads to has been written, a key is looked up through the new entry
if it takes the same way, and as before otherwise. -/
theorem lookup_store {key' : ℕ → ℕ} (hkey : ∀ l, key l < F.fanout) (hkey' : ∀ l, key' l < F.fanout)
    (hv : v < 256 ^ F.width) : ∀ d T : ℕ, F.Separated m (L + d + 1) T → F.slotAddr m key L d T = some p →
      F.lookup (m.store p F.width v) key' (L + d + 1) T =
        if ∀ l, L ≤ l → l ≤ L + d → key' l = key l then
          F.lookupEntry (m.store p F.width v) key' L (F.decode v)
        else F.lookup m key' (L + d + 1) T
  | 0, T, hs, hp => by
    cases hp
    have hiff : (∀ l, L ≤ l → l ≤ L + 0 → key' l = key l) ↔ key' L = key L :=
      ⟨fun hall => hall L le_rfl le_rfl, fun heq l hlo hhi => by
        rwa [show l = L from le_antisymm hhi hlo]⟩
    rw [(hs.local_store_root hkey).lookup_eq hkey', entry_store hv rfl, if_congr hiff rfl rfl]
  | d + 1, T, hs, hp => by
    obtain ⟨C, he, hp⟩ := slotAddr_succ hp
    have hi := hkey (L + d + 1)
    obtain ⟨hlocal, he'⟩ := hs.local_store_child (v := v) hkey he hp
    have ih := lookup_store hkey hkey' hv d C (hs.child hi he) hp
    change F.lookup _ key' (L + d + 1 + 1) T = _
    rw [hlocal.lookup_eq hkey', he']
    by_cases htop : key' (L + d + 1) = key (L + d + 1)
    · rw [if_pos htop]
      change F.lookup _ key' (L + d + 1) C = _
      have hiff : (∀ l, L ≤ l → l ≤ L + d → key' l = key l) ↔
          ∀ l, L ≤ l → l ≤ L + (d + 1) → key' l = key l := by
        refine ⟨fun hall l hlo hhi => ?_, fun hall l hlo hhi => hall l hlo (by omega)⟩
        rcases lt_or_ge (L + d) l with hlt | hle
        · rwa [show l = L + d + 1 by omega]
        · exact hall l hlo hle
      have hold : F.lookup m key' (L + d + 1) C = F.lookup m key' (L + (d + 1) + 1) T := by
        change _ = F.lookup m key' (L + d + 1 + 1) T
        rw [lookup_succ m key' (L + d + 1) T, htop, he]
        rfl
      rw [ih, if_congr hiff rfl hold]
    · rw [if_neg htop, if_neg fun hall => htop (hall _ (by omega) (by omega))]
      rfl

/-- After the entry that `key` leads to has been written, the nodes of the old entry have been
exchanged for those of the new one. -/
theorem nodes_store (own : α → Multiset ℕ) (hkey : ∀ l, key l < F.fanout)
    (hv : v < 256 ^ F.width) : ∀ d T : ℕ,
    F.Separated m (L + d + 1) T → F.slotAddr m key L d T = some p →
    F.nodes own (m.store p F.width v) (L + d + 1) T + F.nodesEntry own m L (F.decode (m.load p F.width)) =
      F.nodes own m (L + d + 1) T + F.nodesEntry own (m.store p F.width v) L (F.decode v)
  | 0, T, hs, hp => by
    cases hp
    have hadd := (hs.local_store_root (v := v) hkey).nodes_add own (hkey L)
    rwa [entry_store hv rfl] at hadd
  | d + 1, T, hs, hp => by
    obtain ⟨C, he, hp⟩ := slotAddr_succ hp
    have hi := hkey (L + d + 1)
    obtain ⟨hlocal, he'⟩ := hs.local_store_child (v := v) hkey he hp
    have ih := nodes_store own hkey hv d C (hs.child hi he) hp
    have hadd := hlocal.nodes_add own hi
    rw [he, he'] at hadd
    change F.nodes own _ (L + d + 1 + 1) T + F.nodes own m (L + d + 1) C =
      F.nodes own m (L + d + 1 + 1) T + F.nodes own _ (L + d + 1) C at hadd
    change F.nodes own _ (L + d + 1 + 1) T + _ = F.nodes own m (L + d + 1 + 1) T + _
    -- the child's nodes cancel between the two equations
    refine add_right_cancel (b := F.nodes own m (L + d + 1) C) ?_
    rw [add_right_comm, hadd, add_assoc, ih, add_right_comm (F.nodes own m (L + d + 1 + 1) T)]
    exact (add_assoc _ _ _).symm

end Format

end RadixTree
