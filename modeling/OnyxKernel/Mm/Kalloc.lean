import OnyxKernel.Foundation.Triple
import OnyxKernel.Mm.Heap

/-!
# The global allocator

`KernelAlloc` of `kernel/src/mm/kalloc.rs`, which serves the `alloc` crate from `kmalloc` and `kfree`.  For
alignments above 16 it asks for `size + align` bytes and answers with the first aligned address among them.
`dealloc` gives this address to `kfree`, which expects the one that `kmalloc` answered with, and `kfree` does
not take the bytes off `G_HEAP.used` again.  So no allocation that succeeds is undone.
-/

namespace OnyxKernel

open ByteMemory Option Nat Pmm Slab Heap

/-- A `Layout` of the `core` crate with a size that is not zero and an alignment up to a page. -/
structure Layout where
  size : ℕ
  align : ℕ
  size_pos : 0 < size
  align_pow : ∃ k ≤ 12, align = 2 ^ k
  size_le : size + (align - 1) < 2 ^ 63

namespace Kalloc

/-- The bytes that are asked of `kmalloc`. -/
def request (l : Layout) : ℕ := if l.align ≤ 16 then l.size else l.size + l.align

/-- `(addr + align - 1) & !(align - 1)`, for a power of two. -/
def alignUp (addr align : ℕ) : ℕ := wadd addr (align - 1) / align * align

/-- `KernelAlloc::alloc`; the null pointer is 0. -/
def alloc (l : Layout) (s : Mm) : Option (ℕ × Mm) :=
  match kmalloc (request l) s with
  | none => none
  | some (.ok p s') => some (if l.align ≤ 16 then p else alignUp p l.align, s')
  | some (.error _ s') => some (0, s')

def dealloc (ptr : ℕ) (_l : Layout) (s : Mm) : Option Mm := kfree ptr s

/-! ### What an allocation promises -/

/-- The first `fuel` nodes of a list. -/
def nodes (next : ℕ → ℕ) : (fuel node : ℕ) → List ℕ
  | 0, _ => []
  | fuel + 1, node => if node = 0 then [] else node :: nodes next fuel (next node)

/-- The state `t` of the allocators is that of `s`: the records, the bitmap of the pages, the blocks of the
heap and the pages of the slab lists with their slots. -/
structure Restored (s t : Mm) : Prop where
  heap_eq : t.heap = s.heap
  pmm_eq : t.pmm = s.pmm
  bits_eq : ∀ i < s.pmm.totalPages, bmGet t i = bmGet s i
  blocks_eq : ∀ n, (nodes (Block.next t.mem) n t.heap.freeList).map
      (fun b => (b, Block.size t.mem b, Block.free t.mem b)) =
    (nodes (Block.next s.mem) n s.heap.freeList).map fun b => (b, Block.size s.mem b, Block.free s.mem b)
  slabs_eq : ∀ c n, (nodes (next t.mem) n (t.pmm.slabHeads c)).map
      (fun page => (page, freeBits t.mem page)) =
    (nodes (next s.mem) n (s.pmm.slabHeads c)).map fun page => (page, freeBits s.mem page)

/-- A pointer that `alloc` answers with is aligned and lies inside the bytes that `kmalloc` found, and
`dealloc` restores the state of the allocators. -/
def Returned (l : Layout) (s : Mm) : Prop :=
  ∀ p s', alloc l s = some (p, s') → p ≠ 0 →
    p % l.align = 0 ∧
    (∃ base, kmalloc (request l) s = some (.ok base s') ∧ base ≤ p ∧ p + l.size ≤ base + request l) ∧
    ∃ t, dealloc p l s' = some t ∧ Restored s t

/-- In this state there is memory for the request, at an address that is not rounded up to 0. -/
def Serves (s : Mm) (l : Layout) : Prop :=
  ∃ p s', kmalloc (request l) s = some (.ok p s') ∧ (if l.align ≤ 16 then p else alignUp p l.align) ≠ 0

/-! ### The count of the bytes in use -/

variable {s s' : Mm} {size p : ℕ} {l : Layout}

lemma heap_alloc (s : Mm) : (Triple.final (Pmm.alloc s)).heap = s.heap := by
  unfold Pmm.alloc
  split <;> rfl

lemma heap_slabAlloc {r : Option ℕ} (h : slabAlloc size s = some (r, s')) : s'.heap = s.heap := by
  have halloc := heap_alloc s
  unfold slabAlloc at h
  split at h
  · cases h
    rfl
  split at h
  · cases h
    rfl
  split at h
  · cases h
  · cases h
    rfl
  · split at h <;> rename_i hpage <;> rw [hpage] at halloc <;> cases h <;> exact halloc

lemma heap_unlink {c : Fin 3} {page : ℕ} (h : unlink c page s = some s') : s'.heap = s.heap := by
  unfold unlink at h
  split at h
  · cases h
  · cases h
    rfl
  · split at h <;> cases h <;> rfl

lemma heap_free (s : Mm) (pa : ℕ) : (free s pa).heap = s.heap := by
  unfold free
  dsimp only
  split_ifs <;> rfl

lemma heap_slabFree {r : Bool} (h : slabFree p s = some (r, s')) : s'.heap = s.heap := by
  unfold slabFree freeAtOffset releaseObject at h
  dsimp only at h
  split_ifs at h <;> try (cases h; rfl)
  obtain ⟨t, ht, hfree⟩ := map_eq_some_iff.mp h
  cases hfree
  rw [heap_free, heap_unlink ht]

lemma heap_kfree (h : kfree p s = some s') : s'.heap = s.heap := by
  unfold kfree at h
  grind [heap_slabFree]

lemma wadd_ne {a n : ℕ} (hpos : 0 < n) (hlt : n < wordSize) : wadd a n ≠ a := by
  intro heq
  have ha : a < wordSize := heq ▸ wadd_lt a n
  have hmod : (a + n) % wordSize = a := heq
  rcases lt_or_ge (a + n) wordSize with hsum | hsum
  · rw [mod_eq_of_lt hsum] at hmod
    omega
  · rw [mod_eq_sub_mod hsum, mod_eq_of_lt (by omega)] at hmod
    omega

lemma used_kmalloc (hpos : 0 < size) (hlt : size + 15 < wordSize)
    (h : kmalloc size s = some (.ok p s')) : s'.heap.used ≠ s.heap.used := by
  have hneeded : neededFor size = (size + 15) / 16 * 16 := by
    rw [neededFor, wadd_of_lt hlt]
  unfold kmalloc at h
  rw [if_neg hpos.ne'] at h
  cases hslab : slabAlloc size s with
  | none =>
    rw [hslab] at h
    cases h
  | some r =>
    obtain ⟨r, s1⟩ := r
    have hheap := heap_slabAlloc hslab
    rw [hslab] at h
    cases r with
    | some q =>
      cases h
      rw [← hheap]
      exact wadd_ne hpos (by omega)
    | none =>
      simp only [kmallocBlock] at h
      rw [← hheap]
      split at h
      · cases h
      · cases h
      · cases h
        exact wadd_ne (by omega) (by omega)

lemma request_pos (l : Layout) : 0 < request l := by
  have := l.size_pos
  unfold request
  split <;> omega

lemma request_lt (l : Layout) : request l + 15 < wordSize := by
  obtain ⟨k, hk, halign⟩ := l.align_pow
  have := l.size_le
  rw [wordSize]
  unfold request
  split <;> omega

lemma not_restored {t : Mm} (halloc : kmalloc (request l) s = some (.ok p s')) {q : ℕ}
    (hfree : dealloc q l s' = some t) : ¬Restored s t := by
  intro hres
  refine used_kmalloc (request_pos l) (request_lt l) halloc ?_
  rw [← heap_kfree hfree, hres.heap_eq]

/-- A machine with four MiB of free pages and an empty heap. -/
def emptyHeap : Mm where
  mem _ := 0
  pmm :=
    { base := 0x80400000, totalPages := 1024, freePages := 1024, bitmap := 0x803ff000
      slabHeads := fun _ => 0 }
  heap := ⟨0, 0⟩

end Kalloc

end OnyxKernel
