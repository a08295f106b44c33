import OnyxKernel.Mm.HeapSpec

/-!
# The block list of the heap

`Heap.Rep m start l` says that the memory holds the list `l` of blocks: they tile the heap from
`start` on, their headers have the sizes and marks of `l`, and they are linked in both directions.
The edits of the heap are edits of this list: `Rep.split` cuts a block in two, `Rep.setFree` changes
the mark of a block, and `Rep.absorb` merges a block with the one behind it.
-/

namespace OnyxKernel.Heap

open ByteMemory List Chain Nat Heap

open Block

/-- A block of the heap: the address of its header, the number of bytes behind the header, and
whether it is free. -/
structure Blk where
  addr : ℕ
  size : ℕ
  free : Bool

/-- The address behind a block. -/
def Blk.end (b : Blk) : ℕ := b.addr + hdrSize + b.size

/-- The blocks `l` tile the addresses from `start` to `stop`: every block starts where the block in
front of it ends. -/
def Tiles : ℕ → List Blk → ℕ → Prop
  | start, [], stop => start = stop
  | start, b :: l, stop => b.addr = start ∧ Tiles b.end l stop

/-- The memory holds the blocks `l` of a heap at `start`. -/
structure Rep (m : Memory) (start : ℕ) (l : List Blk) : Prop where
  /-- The blocks tile the heap. -/
  tiles : Tiles start l (start + heapSize)
  /-- The headers have the sizes and marks of the blocks. -/
  header_eq : ∀ b ∈ l, size m b.addr = b.size ∧ free m b.addr = b.free
  /-- The blocks are linked in both directions. -/
  linked : Chain.Linked (next m) (prev m) (l.map Blk.addr)
  /-- The heap is aligned and lies inside the address space, behind address 0. -/
  start_aligned : start % 16 = 0
  start_pos : 0 < start
  end_lt : start + heapSize < wordSize
  /-- The sizes are multiples of 16. -/
  aligned : ∀ b ∈ l, b.size % 16 = 0

variable {m m' : Memory} {start stop n : ℕ} {l l1 l2 : List Blk} {b c : Blk}

/-! ### Tilings -/

lemma tiles_append : Tiles start (l1 ++ l2) stop ↔ ∃ mid, Tiles start l1 mid ∧ Tiles mid l2 stop := by
  induction l1 generalizing start with
  | nil => exact ⟨fun h => ⟨start, rfl, h⟩, fun ⟨mid, hmid, h⟩ => hmid ▸ h⟩
  | cons b l ih =>
    constructor
    · rintro ⟨hb, hl⟩
      obtain ⟨mid, hmid, hstop⟩ := ih.mp hl
      exact ⟨mid, ⟨hb, hmid⟩, hstop⟩
    · rintro ⟨mid, ⟨hb, hmid⟩, hstop⟩
      exact ⟨hb, ih.mpr ⟨mid, hmid, hstop⟩⟩

section

variable (h : Tiles start l stop)
include h

lemma Tiles.length_le : start + hdrSize * l.length ≤ stop := by
  induction l generalizing start with
  | nil => exact le_of_eq h
  | cons b l ih =>
    obtain ⟨rfl, hl⟩ := h
    have hrest := ih hl
    rw [length_cons, mul_succ]
    unfold Blk.end at hrest
    omega

lemma Tiles.bounds (hb : b ∈ l) : start ≤ b.addr ∧ b.end ≤ stop := by
  obtain ⟨l1, l2, rfl⟩ := append_of_mem hb
  obtain ⟨mid, hfront, rfl, hback⟩ := tiles_append.mp h
  exact ⟨(le_add_right _ _).trans hfront.length_le, (le_add_right _ _).trans hback.length_le⟩

lemma Tiles.pairwise : l.Pairwise fun b c => b.end ≤ c.addr := by
  induction l generalizing start with
  | nil => exact List.Pairwise.nil
  | cons b l ih => exact pairwise_cons.mpr ⟨fun c hc => (h.2.bounds hc).1, ih h.2⟩

lemma Tiles.eq_or_disjoint (hb : b ∈ l) (hc : c ∈ l) : b = c ∨ b.end ≤ c.addr ∨ c.end ≤ b.addr := by
  obtain ⟨l1, l2, rfl⟩ := append_of_mem hb
  obtain ⟨-, hcons, hcross⟩ := pairwise_append.mp h.pairwise
  rcases mem_append.mp hc with hc | hc
  · exact .inr (.inr (hcross c hc b mem_cons_self))
  · rcases mem_cons.mp hc with rfl | hc
    · exact .inl rfl
    · exact .inr (.inl ((pairwise_cons.mp hcons).1 c hc))

lemma Tiles.apart (hb : b ∈ l) (hc : c ∈ l) : Apart b.addr c.addr := by
  rcases h.eq_or_disjoint hb hc with rfl | hbc | hcb
  · exact .inl rfl
  · exact .inr (.inl ((le_add_right _ _).trans hbc))
  · exact .inr (.inr ((le_add_right _ _).trans hcb))

lemma Tiles.nodup : (l.map Blk.addr).Nodup := by
  refine pairwise_map.mpr (h.pairwise.imp fun hbc => ?_)
  unfold Blk.end hdrSize at hbc
  omega

end

/-! ### Blocks in memory -/

namespace Rep

variable (h : Rep m start l)
include h

lemma bounds (hb : b ∈ l) : start ≤ b.addr ∧ b.end ≤ start + heapSize := h.tiles.bounds hb

lemma addr_ne_zero (hb : b ∈ l) : b.addr ≠ 0 := by
  have hlo := (h.bounds hb).1
  have hpos := h.start_pos
  omega

lemma addr_aligned (hb : b ∈ l) : b.addr % 16 = 0 := by
  obtain ⟨l1, l2, rfl⟩ := append_of_mem hb
  obtain ⟨mid, hfront, rfl, -⟩ := tiles_append.mp h.tiles
  have hsizes : ∀ c ∈ l1, c.size % 16 = 0 := fun c hc => h.aligned c (mem_append_left _ hc)
  have hstart := h.start_aligned
  clear h hb
  induction l1 generalizing start with
  | nil => exact hfront ▸ hstart
  | cons c l ih =>
    refine ih hfront.2 (fun d hd => hsizes d (mem_cons_of_mem _ hd)) ?_
    have hsize := hsizes c mem_cons_self
    have haddr := hfront.1
    unfold Blk.end hdrSize
    omega

lemma chain : Chain.Rep (next m) start (l.map Blk.addr) := by
  have hrep := h.linked.rep fun x hx => by
    obtain ⟨b, hb, rfl⟩ := mem_map.mp hx
    exact h.addr_ne_zero hb
  cases l with
  | nil =>
    have hend : start = start + heapSize := h.tiles
    have hpos : 0 < heapSize := by decide
    omega
  | cons b l => exact h.tiles.1 ▸ hrep

end Rep

/-! ### Edits of the list -/

section

variable (h : Rep m start (l1 ++ b :: l2))
include h

lemma Rep.next_eq : next m b.addr = (l2.map Blk.addr).headD 0 := by
  have hb : b ∈ l1 ++ b :: l2 := mem_append_right _ mem_cons_self
  have hlinked := h.linked
  rw [map_append, map_cons] at hlinked
  exact hlinked.next_eq (h.addr_ne_zero hb)

lemma Rep.prev_eq : prev m b.addr = (l1.map Blk.addr).getLastD 0 := by
  have hb : b ∈ l1 ++ b :: l2 := mem_append_right _ mem_cons_self
  have hlinked := h.linked
  rw [map_append, map_cons] at hlinked
  exact hlinked.prev_eq (h.addr_ne_zero hb)

lemma Rep.next_cases : (l2 = [] ∧ next m b.addr = 0) ∨
      ∃ c l, l2 = c :: l ∧ next m b.addr = c.addr ∧ c.addr = b.end ∧ c.addr ≠ 0 := by
  have hnext := h.next_eq
  cases l2 with
  | nil => exact .inl ⟨rfl, hnext⟩
  | cons c l =>
    obtain ⟨mid, -, -, hc, -⟩ := tiles_append.mp h.tiles
    exact .inr ⟨c, l, rfl, hnext, hc, h.addr_ne_zero (by simp)⟩

lemma Rep.next_of_ne_zero (hne : next m b.addr ≠ 0) :
    next m b.addr = b.end ∧ ∃ c ∈ l2, c.addr = next m b.addr := by
  rcases h.next_cases with ⟨-, hnext⟩ | ⟨c, l, rfl, hnext, hc, -⟩
  · exact (hne hnext).elim
  · exact ⟨hnext.trans hc, c, mem_cons_self, hnext.symm⟩

lemma Rep.addr_ne (hc : c ∈ l1 ++ l2) : c.addr ≠ b.addr := by
  have hnodup := h.tiles.nodup
  rw [map_append, map_cons] at hnodup
  have hnot := (nodup_middle.mp hnodup).notMem
  rw [← map_append] at hnot
  exact fun heq => hnot (heq ▸ mem_map_of_mem hc)

end

lemma Rep.congr (h : Rep m start l) (hm : ∀ b ∈ l, header m' b.addr = header m b.addr) : Rep m' start l where
  tiles := h.tiles
  header_eq b hb := by
    have hb' := hm b hb
    exact ⟨(header_fields hb').1.trans (h.header_eq b hb).1,
      (header_fields hb').2.1.trans (h.header_eq b hb).2⟩
  linked := by
    refine h.linked.congr (fun x hx => ?_) fun x hx => ?_
    · obtain ⟨b, hb, rfl⟩ := mem_map.mp hx
      exact (header_fields (hm b hb)).2.2.1
    · obtain ⟨b, hb, rfl⟩ := mem_map.mp hx
      exact (header_fields (hm b hb)).2.2.2
  start_aligned := h.start_aligned
  start_pos := h.start_pos
  end_lt := h.end_lt
  aligned := h.aligned

lemma Rep.setFree (h : Rep m start (l1 ++ b :: l2)) (f : Bool) :
    Rep (setFree m b.addr f) start (l1 ++ { b with free := f } :: l2) := by
  have hb : b ∈ l1 ++ b :: l2 := mem_append_right _ mem_cons_self
  have hheader : ∀ c ∈ l1 ++ b :: l2, header (Block.setFree m b.addr f) c.addr =
      if c.addr = b.addr then { header m b.addr with free := f } else header m c.addr :=
    fun c hc => sets_setFree m b.addr f (h.tiles.apart hc hb)
  have hlinks : ∀ c ∈ l1 ++ b :: l2, next (Block.setFree m b.addr f) c.addr = next m c.addr ∧
      prev (Block.setFree m b.addr f) c.addr = prev m c.addr := by
    intro c hc
    have hc' := hheader c hc
    split_ifs at hc' with heq
    · rw [heq] at hc' ⊢
      exact (header_fields hc').2.2
    · exact (header_fields hc').2.2
  have hmem : ∀ c, c ∈ l1 ++ { b with free := f } :: l2 →
      c = { b with free := f } ∨ c ∈ l1 ++ l2 := fun c hc => mem_middle.mp hc
  have hold : ∀ c, c ∈ l1 ++ l2 → c ∈ l1 ++ b :: l2 := fun c hc =>
    mem_middle.mpr (.inr hc)
  refine ⟨?_, ?_, ?_, h.start_aligned, h.start_pos, h.end_lt, ?_⟩
  · obtain ⟨mid, hfront, haddr, hback⟩ := tiles_append.mp h.tiles
    exact tiles_append.mpr ⟨mid, hfront, haddr, hback⟩
  · intro c hc
    rcases hmem c hc with rfl | hc
    · have hc' := hheader b hb
      rw [if_pos rfl] at hc'
      exact ⟨(header_fields hc').1.trans (h.header_eq b hb).1, (header_fields hc').2.1⟩
    · have hc' := hheader c (hold c hc)
      rw [if_neg (h.addr_ne hc)] at hc'
      exact ⟨(header_fields hc').1.trans (h.header_eq c (hold c hc)).1,
        (header_fields hc').2.1.trans (h.header_eq c (hold c hc)).2⟩
  · have hmap : (l1 ++ { b with free := f } :: l2).map Blk.addr = (l1 ++ b :: l2).map Blk.addr := by
      rw [map_append, map_append, map_cons, map_cons]
    rw [hmap]
    refine h.linked.congr (fun x hx => ?_) fun x hx => ?_
    · obtain ⟨c, hc, rfl⟩ := mem_map.mp hx
      exact (hlinks c hc).1
    · obtain ⟨c, hc, rfl⟩ := mem_map.mp hx
      exact (hlinks c hc).2
  · intro c hc
    rcases hmem c hc with rfl | hc
    · exact h.aligned b hb
    · exact h.aligned c (hold c hc)

/-- The two blocks that a block is cut into after `n` bytes. -/
def Blk.front (b : Blk) (n : ℕ) : Blk := { b with size := n }

/-- The rest of a block that is cut after `n` bytes. -/
def Blk.rest (b : Blk) (n : ℕ) : Blk := ⟨b.addr + hdrSize + n, b.size - n - hdrSize, true⟩

lemma Tiles.split (h : Tiles start (l1 ++ b :: l2) stop) (hn : n + hdrSize ≤ b.size) :
    Tiles start (l1 ++ b.front n :: b.rest n :: l2) stop := by
  obtain ⟨mid, hfront, haddr, hback⟩ := tiles_append.mp h
  refine tiles_append.mpr ⟨mid, hfront, haddr, rfl, ?_⟩
  have hend : (b.rest n).end = b.end := by
    unfold Blk.rest Blk.end
    simp only
    omega
  rwa [hend]

section

variable (h : Rep m start (l1 ++ b :: l2)) (hn : n + hdrSize ≤ b.size)
include h hn

private lemma Rep.header_split_of_mem (hc : c ∈ l1 ++ b.front n :: b.rest n :: l2) :
    header (split m b.addr n) c.addr =
      if c.addr = b.addr then ⟨n, free m b.addr, (b.rest n).addr, prev m b.addr⟩
      else if c.addr = (b.rest n).addr then
        ⟨size m b.addr - n - hdrSize, true, next m b.addr, b.addr⟩
      else if next m b.addr ≠ 0 ∧ c.addr = next m b.addr then
        { header m c.addr with prev := (b.rest n).addr }
      else header m c.addr := by
  have hb : b ∈ l1 ++ b :: l2 := mem_append_right _ mem_cons_self
  have htiles := h.tiles.split hn
  have hcfront : Apart c.addr (b.front n).addr := htiles.apart hc (by simp)
  have hcrest : Apart c.addr (b.rest n).addr := htiles.apart hc (by simp)
  have hrlt : b.addr + hdrSize + n < wordSize := by
    have hend := (h.bounds hb).2
    have hlt := h.end_lt
    unfold Blk.end at hend
    omega
  refine header_split hrlt (fun hq0 => ?_) hcfront hcrest fun hq0 => ?_
  · rw [(h.next_of_ne_zero hq0).1]
    unfold Blk.end
    omega
  · obtain ⟨d, hd, hnext⟩ := (h.next_of_ne_zero hq0).2
    exact hnext ▸ htiles.apart hc (by simp [hd])

private lemma Rep.split_others (hc : c ∈ l1 ++ l2) : size (split m b.addr n) c.addr = size m c.addr ∧
      free (split m b.addr n) c.addr = free m c.addr ∧
      next (split m b.addr n) c.addr = next m c.addr ∧
      prev (split m b.addr n) c.addr =
        if c.addr = next m b.addr then (b.rest n).addr else prev m c.addr := by
  have hmem : c ∈ l1 ++ b.front n :: b.rest n :: l2 :=
    mem_middle.mpr (.inr (mem_middle.mpr (.inr hc)))
  have hne0 : c.addr ≠ 0 := h.addr_ne_zero (mem_middle.mpr (.inr hc))
  have hner : c.addr ≠ (b.rest n).addr := by
    have hnodup := (h.tiles.split hn).nodup
    rw [← singleton_append, ← append_assoc, map_append, map_cons] at hnodup
    have hnot := (nodup_middle.mp hnodup).notMem
    rw [← map_append] at hnot
    refine fun heq => hnot (heq ▸ mem_map_of_mem ?_)
    rw [append_assoc, singleton_append]
    exact mem_middle.mpr (.inr hc)
  have hheader := h.header_split_of_mem hn hmem
  rw [if_neg (h.addr_ne hc), if_neg hner] at hheader
  exact fields_of_relink hne0 hheader

lemma Rep.split (halign : n % 16 = 0) : Rep (split m b.addr n) start (l1 ++ b.front n :: b.rest n :: l2) := by
  have hb : b ∈ l1 ++ b :: l2 := mem_append_right _ mem_cons_self
  have hra : (b.rest n).addr ≠ b.addr := by
    have hdef : (b.rest n).addr = b.addr + hdrSize + n := rfl
    unfold hdrSize at hdef
    omega
  have hfront : header (Heap.split m b.addr n) b.addr =
      ⟨n, free m b.addr, (b.rest n).addr, prev m b.addr⟩ := by
    have hheader := h.header_split_of_mem hn (c := b.front n) (by simp)
    rwa [show (b.front n).addr = b.addr from rfl, if_pos rfl] at hheader
  have hrest : header (Heap.split m b.addr n) (b.rest n).addr =
      ⟨size m b.addr - n - hdrSize, true, next m b.addr, b.addr⟩ := by
    have hheader := h.header_split_of_mem hn (c := b.rest n) (by simp)
    rwa [if_neg hra, if_pos rfl] at hheader
  have hmem : ∀ c, c ∈ l1 ++ b.front n :: b.rest n :: l2 →
      c = b.front n ∨ c = b.rest n ∨ c ∈ l1 ++ l2 := fun c hc =>
    (mem_middle.mp hc).imp_right mem_middle.mp
  have hold : ∀ c, c ∈ l1 ++ l2 → c ∈ l1 ++ b :: l2 := fun c hc =>
    mem_middle.mpr (.inr hc)
  refine ⟨h.tiles.split hn, ?_, ?_, h.start_aligned, h.start_pos, h.end_lt, ?_⟩
  · intro c hc
    rcases hmem c hc with rfl | rfl | hc
    · exact ⟨(header_fields hfront).1, (header_fields hfront).2.1.trans (h.header_eq b hb).2⟩
    · refine ⟨(header_fields hrest).1.trans ?_, (header_fields hrest).2.1⟩
      change size m b.addr - n - hdrSize = b.size - n - hdrSize
      rw [(h.header_eq b hb).1]
    · obtain ⟨hsize, hfree, -⟩ := h.split_others hn hc
      exact ⟨hsize.trans (h.header_eq c (hold c hc)).1, hfree.trans (h.header_eq c (hold c hc)).2⟩
  · have hlinked := h.linked
    have hnodup := h.tiles.nodup
    have hhead := h.next_eq
    rw [map_append, map_cons] at hlinked hnodup ⊢
    refine hlinked.insert hnodup (fun x hx => ?_) (fun x hx hne => ?_)
      (header_fields hfront).2.2.1 ((header_fields hrest).2.2.1.trans hhead)
      (header_fields hrest).2.2.2 fun hq0 => ?_
    · rw [← map_append] at hx
      obtain ⟨c, hc, rfl⟩ := mem_map.mp hx
      exact (h.split_others hn hc).2.2.1
    · rw [← map_cons, ← map_append] at hx
      obtain ⟨c, hc, rfl⟩ := mem_map.mp hx
      by_cases hcb : c = b
      · subst hcb
        exact (header_fields hfront).2.2.2
      · have hc' : c ∈ l1 ++ l2 := (mem_middle.mp hc).resolve_left hcb
        rw [(h.split_others hn hc').2.2.2, if_neg (hhead ▸ hne)]
    · rcases h.next_cases with ⟨rfl, -⟩ | ⟨c, l, rfl, hnext, -⟩
      · exact (hq0 rfl).elim
      · have hc : c ∈ l1 ++ c :: l := mem_append_right _ mem_cons_self
        have hprev := (h.split_others hn hc).2.2.2
        rwa [if_pos hnext.symm] at hprev
  · intro c hc
    rcases hmem c hc with rfl | rfl | hc
    · exact halign
    · have hsize := h.aligned b hb
      change (b.size - n - hdrSize) % 16 = 0
      unfold hdrSize at *
      omega
    · exact h.aligned c (hold c hc)

end

/-- Two neighbouring blocks as one. -/
def Blk.join (b c : Blk) : Blk := { b with size := b.size + (hdrSize + c.size) }

lemma Tiles.join (h : Tiles start (l1 ++ b :: c :: l2) stop) : Tiles start (l1 ++ b.join c :: l2) stop := by
  obtain ⟨mid, hfront, haddr, hc, hback⟩ := tiles_append.mp h
  refine tiles_append.mpr ⟨mid, hfront, haddr, ?_⟩
  have hend : (b.join c).end = c.end := by
    unfold Blk.join Blk.end at *
    simp only
    omega
  rwa [hend]

section

variable (h : Rep m start (l1 ++ b :: c :: l2))
include h

private lemma Rep.header_absorb_of_mem {d : Blk} (hd : d ∈ l1 ++ b.join c :: l2) :
    header (absorb m b.addr c.addr) d.addr =
      if d.addr = b.addr then ⟨(b.join c).size, free m b.addr, next m c.addr, prev m b.addr⟩
      else if next m c.addr ≠ 0 ∧ d.addr = next m c.addr then
        { header m d.addr with prev := b.addr }
      else header m d.addr := by
  have hb : b ∈ l1 ++ b :: c :: l2 := by simp
  have hc : c ∈ l1 ++ b :: c :: l2 := by simp
  obtain ⟨-, -, -, hcb, -⟩ := tiles_append.mp h.tiles
  have hcend := (h.bounds hc).2
  have hlt := h.end_lt
  have h' : Rep m start ((l1 ++ [b]) ++ c :: l2) := by simpa using h
  have hdb : Apart d.addr (b.join c).addr := h.tiles.join.apart hd (by simp)
  have hjoin : size m b.addr + (hdrSize + size m c.addr) = (b.join c).size := by
    rw [(h.header_eq b hb).1, (h.header_eq c hc).1]
    rfl
  unfold Blk.end at hcb hcend
  rw [← hjoin]
  refine header_absorb (by omega) ?_ (by omega) (fun hq0 => ?_) hdb fun hq0 => ?_
  · rw [(h.header_eq b hb).1, (h.header_eq c hc).1]
    omega
  · rw [(h'.next_of_ne_zero hq0).1]
    unfold Blk.end
    omega
  · obtain ⟨e, he, hnext⟩ := (h'.next_of_ne_zero hq0).2
    exact hnext ▸ h.tiles.join.apart hd (by simp [he])

private lemma Rep.absorb_others {d : Blk} (hd : d ∈ l1 ++ l2) :
    size (absorb m b.addr c.addr) d.addr = size m d.addr ∧
      free (absorb m b.addr c.addr) d.addr = free m d.addr ∧
      next (absorb m b.addr c.addr) d.addr = next m d.addr ∧
      prev (absorb m b.addr c.addr) d.addr =
        if d.addr = next m c.addr then b.addr else prev m d.addr := by
  have hmem : d ∈ l1 ++ b.join c :: l2 := mem_middle.mpr (.inr hd)
  have hmem' : d ∈ l1 ++ c :: l2 := mem_middle.mpr (.inr hd)
  have hne0 : d.addr ≠ 0 := h.addr_ne_zero (mem_middle.mpr (.inr hmem'))
  have hheader := h.header_absorb_of_mem hmem
  rw [if_neg (h.addr_ne hmem')] at hheader
  exact fields_of_relink hne0 hheader

lemma Rep.absorb : Rep (absorb m b.addr c.addr) start (l1 ++ b.join c :: l2) := by
  have hb : b ∈ l1 ++ b :: c :: l2 := by simp
  have hc : c ∈ l1 ++ b :: c :: l2 := by simp
  have h' : Rep m start ((l1 ++ [b]) ++ c :: l2) := by simpa using h
  have hjoin : header (Heap.absorb m b.addr c.addr) b.addr =
      ⟨(b.join c).size, free m b.addr, next m c.addr, prev m b.addr⟩ := by
    have hheader := h.header_absorb_of_mem (d := b.join c) (by simp)
    rwa [show (b.join c).addr = b.addr from rfl, if_pos rfl] at hheader
  have hmem : ∀ d, d ∈ l1 ++ b.join c :: l2 → d = b.join c ∨ d ∈ l1 ++ l2 :=
    fun d hd => mem_middle.mp hd
  have hold : ∀ d, d ∈ l1 ++ l2 → d ∈ l1 ++ b :: c :: l2 := fun d hd =>
    mem_middle.mpr (.inr (mem_middle.mpr (.inr hd)))
  refine ⟨h.tiles.join, ?_, ?_, h.start_aligned, h.start_pos, h.end_lt, ?_⟩
  · intro d hd
    rcases hmem d hd with rfl | hd
    · exact ⟨(header_fields hjoin).1, (header_fields hjoin).2.1.trans (h.header_eq b hb).2⟩
    · obtain ⟨hsize, hfree, -⟩ := h.absorb_others hd
      exact ⟨hsize.trans (h.header_eq d (hold d hd)).1, hfree.trans (h.header_eq d (hold d hd)).2⟩
  · have hlinked := h.linked
    have hnodup := h.tiles.nodup
    have hhead := h'.next_eq
    rw [map_append, map_cons, map_cons] at hlinked hnodup
    rw [map_append, map_cons]
    refine hlinked.remove hnodup (fun x hx => ?_) (fun x hx hne => ?_)
      ((header_fields hjoin).2.2.1.trans hhead) fun hq0 => ?_
    · rw [← map_append] at hx
      obtain ⟨d, hd, rfl⟩ := mem_map.mp hx
      exact (h.absorb_others hd).2.2.1
    · rcases mem_middle.mp hx with rfl | hx
      · exact (header_fields hjoin).2.2.2
      · rw [← map_append] at hx
        obtain ⟨d, hd, rfl⟩ := mem_map.mp hx
        rw [(h.absorb_others hd).2.2.2, if_neg (hhead ▸ hne)]
    · rcases h'.next_cases with ⟨rfl, -⟩ | ⟨d, l, rfl, hnext, -⟩
      · exact (hq0 rfl).elim
      · have hd : d ∈ l1 ++ d :: l := mem_append_right _ mem_cons_self
        have hprev := (h.absorb_others hd).2.2.2
        rwa [if_pos hnext.symm] at hprev
  · intro d hd
    rcases hmem d hd with rfl | hd
    · have hsize := h.aligned b hb
      have hsize' := h.aligned c hc
      change (b.size + (hdrSize + c.size)) % 16 = 0
      unfold hdrSize
      omega
    · exact h.aligned d (hold d hd)

end

end OnyxKernel.Heap
