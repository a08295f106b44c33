import OnyxKernel.Mm.HeapBlocks
import OnyxKernel.Mm.SlabSpec

/-!
# Runs of the kernel heap

A run starts in the state of `heap::init` and takes steps of `kmalloc`, for sizes that no slab class
serves, and of `kfree` on live results, next to writes of the rest of the kernel into the live
allocations and outside the heap.  A run carries the list of the live allocations.

`HeapRun.Inv` ties the block list of the heap to the live allocations; in particular no two
neighbouring blocks are free.  Every step keeps it, and the correctness of the heap
(`HeapRun.Correct`) follows from it.
-/

namespace OnyxKernel

open ByteMemory Heap Block Set Nat Chain
open List hiding Disjoint

/-- A result of `kmalloc(size)`. -/
structure HeapAlloc where
  ptr : ℕ
  size : ℕ

/-- The addresses of an allocation. -/
def HeapAlloc.addrs (a : HeapAlloc) : Set ℕ := Set.Ico a.ptr (a.ptr + a.size)

/-- The addresses of the header of a block. -/
def Heap.Blk.hdrAddrs (b : Blk) : Set ℕ := Set.Ico b.addr (b.addr + hdrSize)

namespace HeapRun

/-- What the rest of the kernel may do: it keeps the list head of the heap, and of the heap it
writes the live allocations only. -/
structure Env (start : ℕ) (s : Mm) (live : List HeapAlloc) (s' : Mm) : Prop where
  /-- The list head is kept. -/
  freeList_eq : s'.heap.freeList = s.heap.freeList
  /-- The heap outside the live allocations is kept. -/
  mem_eq : ∀ x ∈ Set.Ico start (start + heapSize), (∀ a ∈ live, x ∉ a.addrs) → s'.mem x = s.mem x

/-- The steps of a run of a heap at `start`; the second component is the list of the live
allocations. -/
inductive Step (start : ℕ) : Mm × List HeapAlloc → Mm × List HeapAlloc → Prop
  | kmalloc {s s' : Mm} {live : List HeapAlloc} {size p : ℕ} (hlo : 1024 < size)
      (hhi : size < 2 ^ 62) (h : kmalloc size s = some (.ok p s')) :
      Step start (s, live) (s', ⟨p, size⟩ :: live)
  | kmallocFail {s s' : Mm} {live : List HeapAlloc} {size : ℕ} {e : Errno} (hlo : 1024 < size)
      (hhi : size < 2 ^ 62) (h : Heap.kmalloc size s = some (.error e s')) :
      Step start (s, live) (s', live)
  | kfree {s s' : Mm} {before after : List HeapAlloc} {a : HeapAlloc}
      (hslab : Slab.slabFree a.ptr s = some (false, s)) (h : kfree a.ptr s = some s') :
      Step start (s, before ++ a :: after) (s', before ++ after)
  | env {s s' : Mm} {live : List HeapAlloc} (h : Env start s live s') :
      Step start (s, live) (s', live)

/-- No two neighbouring blocks are free. -/
def NoAdjacentFree (l : List Blk) : Prop := l.IsChain fun b c => ¬ (b.free = true ∧ c.free = true)

/-- The correctness of a heap at `start` with the allocations `live`. -/
structure Correct (start : ℕ) (s : Mm) (live : List HeapAlloc) (blocks : List Blk) : Prop where
  /-- The list starts with the first block. -/
  freeList_eq : s.heap.freeList = start
  /-- The blocks tile the heap exactly. -/
  tiles : Tiles start blocks (start + heapSize)
  /-- The headers hold the sizes and marks of the blocks. -/
  header_eq : ∀ b ∈ blocks, size s.mem b.addr = b.size ∧ free s.mem b.addr = b.free
  /-- `next` and `prev` link the blocks in both directions. -/
  linked : Chain.Linked (next s.mem) (prev s.mem) (blocks.map Blk.addr)
  /-- No two neighbouring blocks are free. -/
  noAdjacentFree : NoAdjacentFree blocks
  /-- The allocations are aligned. -/
  aligned : ∀ a ∈ live, a.ptr % 16 = 0
  /-- They are the bytes of a block that is not free and is large enough. -/
  block : ∀ a ∈ live, ∃ b ∈ blocks, b.free = false ∧ a.ptr = b.addr + hdrSize ∧ a.size ≤ b.size
  /-- They lie inside the heap. -/
  inside : ∀ a ∈ live, a.addrs ⊆ Set.Ico start (start + heapSize)
  /-- They are pairwise disjoint. -/
  disjoint : live.Pairwise fun a a' => Disjoint a.addrs a'.addrs
  /-- They are disjoint from the headers. -/
  disjoint_hdr : ∀ a ∈ live, ∀ b ∈ blocks, Disjoint a.addrs b.hdrAddrs
  /-- Without allocations there is one free block, as after `heap::init`. -/
  initial : live = [] → blocks = [⟨start, heapSize - hdrSize, true⟩]
  /-- `kmalloc` terminates. -/
  kmalloc_total : ∀ size, 1024 < size → size < 2 ^ 62 → ∃ r, kmalloc size s = some r
  /-- `kfree` of an allocation terminates. -/
  kfree_total : ∀ a ∈ live, Slab.slabFree a.ptr s = some (false, s) → ∃ s', kfree a.ptr s = some s'

/-! ### The invariant -/

/-- The invariant of a run, with the blocks of the heap. -/
structure Inv (start : ℕ) (s : Mm) (live : List HeapAlloc) (blocks : List Blk) : Prop where
  /-- The list starts with the first block. -/
  freeList_eq : s.heap.freeList = start
  /-- The memory holds the blocks. -/
  rep : Rep s.mem start blocks
  /-- No two neighbouring blocks are free. -/
  noAdjacentFree : NoAdjacentFree blocks
  /-- Every block that is not free is a live allocation. -/
  owner : ∀ b ∈ blocks, b.free = false → ∃ a ∈ live, a.ptr = b.addr + hdrSize
  /-- Every live allocation is a block that is not free. -/
  home : ∀ a ∈ live, ∃ b ∈ blocks, b.free = false ∧ a.ptr = b.addr + hdrSize ∧ a.size ≤ b.size
  /-- No two allocations have the same address. -/
  nodup : live.Pairwise fun a a' => a.ptr ≠ a'.ptr

variable {start needed : ℕ} {m : Memory} {s s' : Mm} {live : List HeapAlloc} {blocks l1 l2 : List Blk}
  {b : Blk} {size : ℕ} {a : HeapAlloc}

/-! ### Neighbours -/

lemma noAdjacentFree_middle : NoAdjacentFree (l1 ++ b :: l2) ↔ NoAdjacentFree l1 ∧ NoAdjacentFree l2 ∧
      (b.free = true → (∀ p ∈ l1.getLast?, p.free = false) ∧ ∀ c ∈ l2.head?, c.free = false) := by
  unfold NoAdjacentFree
  rw [isChain_append, isChain_cons]
  constructor
  · rintro ⟨h1, ⟨hb, h2⟩, hseam⟩
    refine ⟨h1, h2, fun hfree => ⟨fun p hp => ?_, fun c hc => ?_⟩⟩
    · have := hseam p hp b (by simp)
      simpa [hfree] using this
    · have := hb c hc
      simpa [hfree] using this
  · rintro ⟨h1, h2, hb⟩
    refine ⟨h1, ⟨fun c hc hand => ?_, h2⟩, fun p hp c hc hand => ?_⟩
    · have := (hb hand.1).2 c hc
      exact Bool.noConfusion (this.symm.trans hand.2)
    · obtain rfl : b = c := by simpa using hc
      have := (hb hand.2).1 p hp
      exact Bool.noConfusion (this.symm.trans hand.1)

lemma noAdjacentFree_cons : NoAdjacentFree (b :: l2) ↔
    NoAdjacentFree l2 ∧ (b.free = true → ∀ c ∈ l2.head?, c.free = false) := by
  have hmiddle := @noAdjacentFree_middle [] l2 b
  rw [nil_append] at hmiddle
  rw [hmiddle]
  refine ⟨fun h => ⟨h.2.1, fun hb => (h.2.2 hb).2⟩, fun h => ⟨isChain_nil, h.1, fun hb => ?_⟩⟩
  exact ⟨fun p hp => (Option.not_mem_none p hp).elim, h.2 hb⟩

/-! ### Taking a block -/

lemma Rep.takeBlock (h : Rep m start (l1 ++ b :: l2)) (hno : NoAdjacentFree (l1 ++ b :: l2))
    (hfree : b.free = true) (hroom : needed + hdrSize ≤ b.size) (halign : needed % 16 = 0) :
    ∃ b' blocks, Rep (takeBlock m b.addr needed) start blocks ∧ NoAdjacentFree blocks ∧
      b'.addr = b.addr ∧ b'.free = false ∧ needed ≤ b'.size ∧
      ∀ c, c.free = false → (c ∈ blocks ↔ c = b' ∨ c ∈ l1 ++ l2) := by
  obtain ⟨hno1, hno2, hnb⟩ := noAdjacentFree_middle.mp hno
  unfold Heap.takeBlock
  split
  · rename_i hsplit
    have hrep := (h.split hroom halign).setFree false
    refine ⟨{ b.front needed with free := false }, _, hrep, noAdjacentFree_middle.mpr ⟨hno1, ?_,
      fun hb' => Bool.noConfusion hb'⟩, rfl, rfl, le_rfl, fun c hc => ?_⟩
    · exact noAdjacentFree_cons.mpr ⟨hno2, fun _ => (hnb hfree).2⟩
    · have hne : c ≠ b.rest needed := by
        rintro rfl
        exact Bool.noConfusion hc
      rw [mem_middle, mem_middle]
      exact or_congr_right ⟨fun hor => hor.resolve_left hne, .inr⟩
  · refine ⟨{ b with free := false }, _, h.setFree false, noAdjacentFree_middle.mpr ⟨hno1, hno2,
      fun hb' => Bool.noConfusion hb'⟩, rfl, rfl, ?_, fun c _ => ?_⟩
    · exact (le_add_right _ _).trans hroom
    · exact mem_middle

/-- A request of less than `2 ^ 62` bytes does not wrap when it is rounded up. -/
theorem neededFor_spec (hsize : size < 2 ^ 62) :
    size ≤ neededFor size ∧ neededFor size % 16 = 0 ∧ neededFor size < 2 ^ 63 := by
  have hword : size + 15 < wordSize := by
    unfold wordSize
    omega
  unfold neededFor
  rw [wadd_of_lt hword]
  omega

/-- The outcomes of `kmalloc` behind the slab allocator: a new allocation, or `NoMem`. -/
theorem Inv.kmallocBlock_cases (h : Inv start s live blocks) (hle : size ≤ needed)
    (halign : needed % 16 = 0) (hlt : needed < 2 ^ 63) :
    (∃ p s' blocks', kmallocBlock needed s = some (.ok p s') ∧ Inv start s' (⟨p, size⟩ :: live) blocks') ∨
      kmallocBlock needed s = some (.error .noMem s) := by
  have htotal : wadd needed hdrSize = needed + hdrSize := by
    refine wadd_of_lt ?_
    unfold hdrSize wordSize
    omega
  have hfuel : (blocks.map Blk.addr).length < heapSize / hdrSize + 1 := by
    have hlen := h.rep.tiles.length_le
    rw [length_map]
    unfold heapSize hdrSize at *
    omega
  unfold kmallocBlock
  rw [h.freeList_eq, search_eq h.rep.chain hfuel, htotal]
  cases hfind : (blocks.map Blk.addr).findSome? (fits s.mem (needed + hdrSize)) with
  | none => exact .inr rfl
  | some blk =>
    obtain ⟨x, hx, hfits⟩ := exists_of_findSome?_eq_some hfind
    obtain ⟨b, hb, rfl⟩ := mem_map.mp hx
    obtain ⟨hsize, hmark⟩ := h.rep.header_eq b hb
    unfold fits at hfits
    rw [hsize, hmark] at hfits
    split at hfits
    case isFalse => cases hfits
    case isTrue hand =>
      cases hfits
      obtain ⟨hfree, hroom⟩ : b.free = true ∧ needed + hdrSize ≤ b.size := by simpa using hand
      obtain ⟨l1, l2, rfl⟩ := append_of_mem hb
      obtain ⟨b', blocks', hrep, hno, haddr, hfree', hsize', hmem⟩ :=
        Rep.takeBlock h.rep h.noAdjacentFree hfree hroom halign
      have hb' : b' ∈ blocks' := (hmem b' hfree').mpr (.inl rfl)
      have hold : ∀ c, c ∈ l1 ++ l2 → c ∈ l1 ++ b :: l2 := fun c hc =>
        mem_middle.mpr (.inr hc)
      refine .inl ⟨_, _, blocks', rfl, ⟨h.freeList_eq, hrep, hno, ?_, ?_, ?_⟩⟩
      · intro c hc hcfree
        rcases (hmem c hcfree).mp hc with rfl | hc
        · exact ⟨_, mem_cons_self, by rw [haddr]⟩
        · obtain ⟨a, ha, hptr⟩ := h.owner c (hold c hc) hcfree
          exact ⟨a, mem_cons_of_mem _ ha, hptr⟩
      · intro a ha
        rcases mem_cons.mp ha with rfl | ha
        · exact ⟨b', hb', hfree', by rw [haddr], hle.trans hsize'⟩
        · obtain ⟨c, hc, hcfree, hptr, hcsize⟩ := h.home a ha
          have hcb : c ≠ b := by
            rintro rfl
            exact Bool.noConfusion (hfree.symm.trans hcfree)
          have hc' := (mem_middle.mp hc).resolve_left hcb
          exact ⟨c, (hmem c hcfree).mpr (.inr hc'), hcfree, hptr, hcsize⟩
      · refine pairwise_cons.mpr ⟨fun a ha heq => ?_, h.nodup⟩
        obtain ⟨c, hc, hcfree, hptr, -⟩ := h.home a ha
        have haddr' : c.addr = b.addr := add_right_cancel (hptr.symm.trans heq.symm)
        have hcb := inj_on_of_nodup_map h.rep.tiles.nodup hc hb haddr'
        rw [hcb, hfree] at hcfree
        exact Bool.noConfusion hcfree

/-! ### Freeing a block -/

/-- The first half of `kfree`: the block is free and merged with a free block behind it. -/
theorem Rep.freeForward (h : Rep m start (l1 ++ b :: l2)) (hno : NoAdjacentFree (l1 ++ b :: l2)) :
    ∃ d l3, Rep (if next (setFree m b.addr true) b.addr ≠ 0 ∧
          free (setFree m b.addr true) (next (setFree m b.addr true) b.addr) then
        absorb (setFree m b.addr true) b.addr (next (setFree m b.addr true) b.addr)
      else setFree m b.addr true) start (l1 ++ d :: l3) ∧ d.addr = b.addr ∧ d.free = true ∧
      NoAdjacentFree l3 ∧ (∀ c ∈ l3.head?, c.free = false) ∧
      ∀ c, c.free = false → (c ∈ l3 ↔ c ∈ l2) := by
  obtain ⟨-, hno2, -⟩ := noAdjacentFree_middle.mp hno
  have hrep := h.setFree true
  rcases hrep.next_cases with ⟨rfl, hnext⟩ | ⟨c, l, rfl, hnext, -, hc0⟩
  · rw [if_neg fun hand => hand.1 hnext]
    exact ⟨_, [], hrep, rfl, rfl, isChain_nil, fun c hc => by simp at hc, fun _ _ => Iff.rfl⟩
  · change next (setFree m b.addr true) b.addr = c.addr at hnext
    have hcfree : free (setFree m b.addr true) c.addr = c.free :=
      (hrep.header_eq c (by simp)).2
    obtain ⟨hnol, hcl⟩ := noAdjacentFree_cons.mp hno2
    rw [hnext, hcfree]
    cases hc : c.free with
    | true =>
      rw [if_pos ⟨hc0, rfl⟩]
      refine ⟨_, l, hrep.absorb, rfl, rfl, hnol, hcl hc, fun d hd => ?_⟩
      have hne : d ≠ c := by
        rintro rfl
        exact Bool.noConfusion (hc.symm.trans hd)
      rw [mem_cons]
      exact ⟨.inr, fun hor => hor.resolve_left hne⟩
    | false =>
      rw [if_neg fun hand => Bool.noConfusion hand.2]
      refine ⟨_, c :: l, hrep, rfl, rfl, hno2, fun d hd => ?_, fun _ _ => Iff.rfl⟩
      obtain rfl : c = d := by simpa using hd
      exact hc

lemma Rep.kfreeBlock (h : Rep m start (l1 ++ b :: l2)) (hno : NoAdjacentFree (l1 ++ b :: l2)) :
    ∃ blocks, Rep (kfreeBlock m b.addr) start blocks ∧ NoAdjacentFree blocks ∧
      ∀ c, c.free = false → (c ∈ blocks ↔ c ∈ l1 ++ l2) := by
  obtain ⟨hno1, -, -⟩ := noAdjacentFree_middle.mp hno
  obtain ⟨d, l3, hrep, haddr, hdfree, hno3, hhead, hmem⟩ := Rep.freeForward h hno
  unfold Heap.kfreeBlock
  simp only
  generalize (if next (setFree m b.addr true) b.addr ≠ 0 ∧
      free (setFree m b.addr true) (next (setFree m b.addr true) b.addr) then
    absorb (setFree m b.addr true) b.addr (next (setFree m b.addr true) b.addr)
    else setFree m b.addr true) = m2 at hrep ⊢
  have hprev := hrep.prev_eq
  rw [haddr] at hprev
  rcases eq_nil_or_concat l1 with rfl | ⟨l, p, rfl⟩
  · rw [if_neg fun hand => hand.1 hprev]
    refine ⟨_, hrep, noAdjacentFree_middle.mpr ⟨hno1, hno3, fun _ => ⟨fun p hp => by simp at hp,
      hhead⟩⟩, fun c hc => ?_⟩
    have hne : c ≠ d := by
      rintro rfl
      exact Bool.noConfusion (hdfree.symm.trans hc)
    rw [nil_append, mem_cons, nil_append, ← hmem c hc]
    exact ⟨fun hor => hor.resolve_left hne, .inr⟩
  · rw [concat_eq_append] at hprev hrep hno1 ⊢
    rw [append_assoc, singleton_append] at hrep
    have hprev' : prev m2 b.addr = p.addr := by simpa using hprev
    have hp0 : p.addr ≠ 0 := hrep.addr_ne_zero (by simp)
    have hpfree : free m2 p.addr = p.free := (hrep.header_eq p (by simp)).2
    obtain ⟨hnol, -, hpl⟩ := noAdjacentFree_middle.mp hno1
    rw [hprev', hpfree]
    cases hp : p.free with
    | true =>
      rw [if_pos ⟨hp0, rfl⟩, ← haddr]
      refine ⟨_, hrep.absorb, noAdjacentFree_middle.mpr ⟨hnol, hno3, fun _ => ⟨(hpl hp).1, hhead⟩⟩,
        fun c hc => ?_⟩
      have hne : c ≠ p.join d := by
        rintro rfl
        exact Bool.noConfusion (hp.symm.trans hc)
      have hne' : c ≠ p := by
        rintro rfl
        exact Bool.noConfusion (hp.symm.trans hc)
      simp only [mem_append, mem_cons, hmem c hc, hne, hne', false_or, not_mem_nil, or_false]
    | false =>
      rw [if_neg fun hand => Bool.noConfusion hand.2]
      refine ⟨_, hrep, ?_, fun c hc => ?_⟩
      · rw [← singleton_append, ← append_assoc]
        refine noAdjacentFree_middle.mpr ⟨hno1, hno3, fun _ => ⟨fun q hq => ?_, hhead⟩⟩
        obtain rfl : p = q := by simpa using hq
        exact hp
      · have hne : c ≠ d := by
          rintro rfl
          exact Bool.noConfusion (hdfree.symm.trans hc)
        simp only [mem_append, mem_cons, hmem c hc, hne, false_or, not_mem_nil, or_false, or_assoc]

/-! ### Steps and runs -/

lemma slabAlloc_of_lt (hsize : 1024 < size) (s : Mm) : Slab.slabAlloc size s = some (none, s) := by
  have hclass : Slab.slabClassFor size = none := by
    refine find?_eq_none.mpr fun c _ hc => ?_
    have hle : size ≤ slabSizes c := of_decide_eq_true hc
    have hmax : ∀ c : Fin 3, slabSizes c ≤ 1024 := by decide
    exact absurd (hsize.trans_le (hle.trans (hmax c))) (lt_irrefl 1024)
  unfold Slab.slabAlloc
  rw [hclass]

/-- The outcomes of `kmalloc` for a size that no slab class serves. -/
theorem Inv.kmalloc_cases (h : Inv start s live blocks) (hlo : 1024 < size) (hhi : size < 2 ^ 62) :
    (∃ p s' blocks', kmalloc size s = some (.ok p s') ∧
      Inv start s' (⟨p, size⟩ :: live) blocks') ∨ kmalloc size s = some (.error .noMem s) := by
  obtain ⟨hle, halign, hlt⟩ := neededFor_spec hhi
  have hkmalloc : kmalloc size s = kmallocBlock (neededFor size) s := by
    unfold kmalloc
    rw [if_neg (by omega), slabAlloc_of_lt hlo]
  rw [hkmalloc]
  exact h.kmallocBlock_cases hle halign hlt

lemma Inv.kfree_live {before after : List HeapAlloc} (h : Inv start s (before ++ a :: after) blocks)
    (hslab : Slab.slabFree a.ptr s = some (false, s)) :
    ∃ s' blocks', kfree a.ptr s = some s' ∧ Inv start s' (before ++ after) blocks' := by
  have ha : a ∈ before ++ a :: after := mem_append_right _ mem_cons_self
  obtain ⟨b, hb, hfree, hptr, -⟩ := h.home a ha
  obtain ⟨l1, l2, rfl⟩ := append_of_mem hb
  obtain ⟨blocks', hrep, hno, hmem⟩ := Rep.kfreeBlock h.rep h.noAdjacentFree
  have hp0 : a.ptr ≠ 0 := by
    rw [hptr]
    unfold hdrSize
    omega
  have hblk : wsub a.ptr hdrSize = b.addr := by
    rw [hptr, wsub_of_le (Nat.le_add_left _ _), Nat.add_sub_cancel]
  have hkfree : kfree a.ptr s = some { s with mem := kfreeBlock s.mem b.addr } := by
    unfold kfree
    rw [if_neg hp0, hslab]
    simp only [hblk]
  have hold : ∀ c, c.free = false → c ∈ l1 ++ b :: l2 → c.addr ≠ b.addr → c ∈ blocks' := by
    intro c hc hcmem hne
    have hcb : c ≠ b := fun heq => hne (by rw [heq])
    exact (hmem c hc).mpr ((mem_middle.mp hcmem).resolve_left hcb)
  generalize kfreeBlock s.mem b.addr = m at hkfree hrep
  refine ⟨{ s with mem := m }, blocks', hkfree, h.freeList_eq, hrep, hno, ?_, ?_, ?_⟩
  · intro c hc hcfree
    have hc' := (hmem c hcfree).mp hc
    obtain ⟨a', ha', hptr'⟩ := h.owner c (mem_middle.mpr (.inr hc')) hcfree
    refine ⟨a', (mem_remove_iff h.nodup).mpr ⟨ha', fun heq => ?_⟩, hptr'⟩
    exact h.rep.addr_ne hc' (add_right_cancel (hptr'.symm.trans (heq.trans hptr)))
  · intro a' ha'
    obtain ⟨hlive, hne⟩ := (mem_remove_iff h.nodup).mp ha'
    obtain ⟨c, hc, hcfree, hptr', hsize⟩ := h.home a' hlive
    refine ⟨c, hold c hcfree hc fun heq => hne ?_, hcfree, hptr', hsize⟩
    rw [hptr', heq, hptr]
  · exact h.nodup.sublist ((List.Sublist.refl before).append (sublist_cons_self a after))

lemma Inv.disjoint_hdr (h : Inv start s live blocks) (ha : a ∈ live)
    (hb : b ∈ blocks) : Disjoint a.addrs b.hdrAddrs := by
  obtain ⟨c, hc, -, hptr, hsize⟩ := h.home a ha
  refine Memory.disjoint_Ico_of_le ?_
  rw [hptr]
  rcases h.rep.tiles.eq_or_disjoint hc hb with rfl | hcb | hbc
  · exact .inr le_rfl
  · unfold Blk.end at hcb
    omega
  · unfold Blk.end at hbc
    omega

lemma Inv.env (h : Inv start s live blocks) (henv : Env start s live s') : Inv start s' live blocks := by
  refine ⟨henv.freeList_eq.trans h.freeList_eq, h.rep.congr fun b hb => header_congr ?_,
    h.noAdjacentFree, h.owner, h.home, h.nodup⟩
  intro x hx
  refine henv.mem_eq x ?_ fun a ha hxa => disjoint_left.mp (h.disjoint_hdr ha hb) hxa hx
  obtain ⟨hlo, hhi⟩ := h.rep.bounds hb
  exact ⟨hlo.trans hx.1, hx.2.trans_le ((le_add_right _ _).trans hhi)⟩

lemma Inv.step {live' : List HeapAlloc} (h : Inv start s live blocks)
    (hstep : Step start (s, live) (s', live')) : ∃ blocks', Inv start s' live' blocks' := by
  cases hstep with
  | kmalloc hlo hhi hk =>
    rcases h.kmalloc_cases hlo hhi with ⟨p, s1, blocks', heq, hinv⟩ | heq
    · rw [heq] at hk
      cases hk
      exact ⟨blocks', hinv⟩
    · rw [heq] at hk
      cases hk
  | kmallocFail hlo hhi hk =>
    rcases h.kmalloc_cases hlo hhi with ⟨p, s1, blocks', heq, -⟩ | heq
    · rw [heq] at hk
      cases hk
    · rw [heq] at hk
      cases hk
      exact ⟨blocks, h⟩
  | kfree hslab hk =>
    obtain ⟨s1, blocks', heq, hinv⟩ := h.kfree_live hslab
    rw [heq] at hk
    cases hk
    exact ⟨blocks', hinv⟩
  | env henv => exact ⟨blocks, h.env henv⟩

lemma Inv.of_run {x x' : Mm × List HeapAlloc} (h : ∃ blocks, Inv start x.1 x.2 blocks)
    (hrun : Relation.ReflTransGen (Step start) x x') : ∃ blocks, Inv start x'.1 x'.2 blocks := by
  induction hrun with
  | refl => exact h
  | tail _ hstep ih =>
    obtain ⟨blocks, hinv⟩ := ih
    exact hinv.step hstep

lemma inv_init (hstart : start % 16 = 0) (hpos : 0 < start) (hend : start + heapSize < wordSize)
    (s : Mm) : Inv start (init start s) [] [⟨start, heapSize - hdrSize, true⟩] := by
  have hword : 0 < wordSize := by decide
  have hheader : header (init start s).mem start = ⟨heapSize - hdrSize, true, 0, 0⟩ := by
    unfold init
    rw [(sets_setPrev _ start hword).self, (sets_setNext _ start hword).self, (sets_setFree ..).self,
      (sets_setSize _ start (by decide)).self]
  obtain ⟨hsize, hfree, hnext, hprev⟩ := header_fields hheader
  refine ⟨rfl, ⟨⟨rfl, ?_⟩, ?_, ?_, hstart, hpos, hend, ?_⟩, isChain_singleton _, ?_,
    fun a ha => (not_mem_nil ha).elim, List.Pairwise.nil⟩
  · change start + hdrSize + (heapSize - hdrSize) = start + heapSize
    unfold heapSize hdrSize
    omega
  · intro b hb
    obtain rfl := mem_singleton.mp hb
    exact ⟨hsize, hfree⟩
  · have hne : start ≠ 0 := by omega
    refine isChain_cons_cons.mpr ⟨⟨fun h0 => (h0 rfl).elim, fun _ => hprev⟩,
      isChain_pair.mpr ⟨fun _ => hnext, fun h0 => (h0 rfl).elim⟩⟩
  · intro b hb
    obtain rfl := mem_singleton.mp hb
    change (heapSize - hdrSize) % 16 = 0
    decide
  · intro b hb hbfree
    obtain rfl := mem_singleton.mp hb
    exact Bool.noConfusion hbfree

lemma Inv.blocks_of_nil (h : Inv start s [] blocks) : blocks = [⟨start, heapSize - hdrSize, true⟩] := by
  have hfree : ∀ b ∈ blocks, b.free = true := by
    intro b hb
    by_contra hne
    obtain ⟨a, ha, -⟩ := h.owner b hb (Bool.eq_false_of_not_eq_true hne)
    exact not_mem_nil ha
  have htiles := h.rep.tiles
  match blocks, h.noAdjacentFree with
  | [], _ =>
    have hlen : start = start + heapSize := htiles
    have hpos : 0 < heapSize := by decide
    omega
  | [b], _ =>
    obtain ⟨addr, size, mark⟩ := b
    obtain ⟨haddr, hend⟩ := htiles
    have hmark : mark = true := hfree _ mem_cons_self
    have hend' : addr + hdrSize + size = start + heapSize := hend
    have haddr' : addr = start := haddr
    have hsize : size = heapSize - hdrSize := by omega
    rw [haddr', hmark, hsize]
  | b :: c :: l, hno =>
    have hnot := (isChain_cons_cons.mp hno).1
    exact (hnot ⟨hfree b (by simp), hfree c (by simp)⟩).elim

lemma Inv.correct (h : Inv start s live blocks) : Correct start s live blocks where
  freeList_eq := h.freeList_eq
  tiles := h.rep.tiles
  header_eq := h.rep.header_eq
  linked := h.rep.linked
  noAdjacentFree := h.noAdjacentFree
  aligned := by
    intro a ha
    obtain ⟨b, hb, -, hptr, -⟩ := h.home a ha
    have haddr := h.rep.addr_aligned hb
    rw [hptr]
    unfold hdrSize
    omega
  block := h.home
  inside := by
    intro a ha
    obtain ⟨b, hb, -, hptr, hsize⟩ := h.home a ha
    obtain ⟨hlo, hhi⟩ := h.rep.bounds hb
    unfold Blk.end at hhi
    refine Ico_subset_Ico ?_ ?_
    · rw [hptr]
      omega
    · rw [hptr]
      omega
  disjoint := by
    refine h.nodup.imp_of_mem fun {a a'} ha ha' hne => Memory.disjoint_Ico_of_le ?_
    obtain ⟨b, hb, -, hptr, hsize⟩ := h.home a ha
    obtain ⟨b', hb', -, hptr', hsize'⟩ := h.home a' ha'
    rcases h.rep.tiles.eq_or_disjoint hb hb' with rfl | hbb | hbb
    · exact (hne (hptr.trans hptr'.symm)).elim
    · unfold Blk.end at hbb
      omega
    · unfold Blk.end at hbb
      omega
  disjoint_hdr := fun _ ha _ hb => h.disjoint_hdr ha hb
  initial := by
    rintro rfl
    exact h.blocks_of_nil
  kmalloc_total := by
    intro size hlo hhi
    rcases h.kmalloc_cases hlo hhi with ⟨p, s', -, heq, -⟩ | heq
    · exact ⟨_, heq⟩
    · exact ⟨_, heq⟩
  kfree_total := by
    intro a ha hslab
    obtain ⟨before, after, rfl⟩ := append_of_mem ha
    obtain ⟨s', -, heq, -⟩ := h.kfree_live hslab
    exact ⟨s', heq⟩

/-- The heap is correct in every state of every run from `heap::init`.  The linker script aligns the
end of the kernel image, where the heap starts, to a page. -/
theorem heap_correct_of_run {s₀ : Mm} (hstart : start % 16 = 0) (hpos : 0 < start)
    (hend : start + heapSize < wordSize)
    (hrun : Relation.ReflTransGen (Step start) (init start s₀, []) (s, live)) :
    ∃ blocks, Correct start s live blocks := by
  obtain ⟨blocks, hinv⟩ := Inv.of_run ⟨_, inv_init hstart hpos hend s₀⟩ hrun
  exact ⟨blocks, hinv.correct⟩

/-- The heap of a kernel image that ends at `0x80400000` is correct after a first request. -/
theorem heap_correct_of_first_request :
    ∃ p s, kmalloc 2000 (init 0x80400000 ⟨fun _ => 0, ⟨0, 0, 0, 0, fun _ => 0⟩, ⟨0, 0⟩⟩) =
      some (.ok p s) ∧ ∃ blocks, Correct 0x80400000 s [⟨p, 2000⟩] blocks := by
  have hok : (kmalloc 2000 (init 0x80400000 ⟨fun _ => 0, ⟨0, 0, 0, 0, fun _ => 0⟩, ⟨0, 0⟩⟩)).any
      (fun r => r matches .ok _ _) = true := by decide
  cases hr : kmalloc 2000 (init 0x80400000 ⟨fun _ => 0, ⟨0, 0, 0, 0, fun _ => 0⟩, ⟨0, 0⟩⟩) with
  | none =>
    rw [hr] at hok
    cases hok
  | some r =>
    rw [hr] at hok
    cases r with
    | error e s => cases hok
    | ok p s =>
      have hrun := Relation.ReflTransGen.single
        (@Step.kmalloc 0x80400000 _ _ [] 2000 p (by decide) (by decide) hr)
      exact ⟨p, s, rfl, heap_correct_of_run (by decide) (by decide) (by decide) hrun⟩

end HeapRun

end OnyxKernel
