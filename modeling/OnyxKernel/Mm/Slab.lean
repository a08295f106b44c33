import OnyxKernel.Foundation.Chain
import OnyxKernel.Mm.Pmm

/-!
# The slab allocator

The object pools of `kernel/src/mm/pmm/slab.rs`.  A slab page starts with a header of 32 bytes and
holds objects of one of three sizes behind it; `free_bits` has a bit for every free slot.  The pages
of a class form a list through the `next` field of their headers.

A function that walks such a list answers `none` when the list has more nodes than there are
managed pages (the walk of the source does not end then), and also where the source panics.
-/

namespace OnyxKernel

open ByteMemory

/-- `SLAB_SIZES`, the sizes of the objects of the three classes. -/
def slabSizes : Fin 3 → ℕ
  | 0 => 64
  | 1 => 256
  | 2 => 1024

/-- `SLAB_MAGIC`, the first word of a slab page. -/
def slabMagic : ℕ := 0x534C4142

/-- The size of the header of a slab page. -/
def sizeOfSlabHeader : ℕ := 32

namespace Slab

/-! ### The header of a slab page -/

/-- `hdr.magic`. -/
def magic (m : Memory) (page : ℕ) : ℕ := m.load page 4

/-- `hdr.size_idx`. -/
def sizeIdx (m : Memory) (page : ℕ) : ℕ := m.load (page + 4) 4

/-- `hdr.free_bits`. -/
def freeBits (m : Memory) (page : ℕ) : BitVec 64 := BitVec.ofNat 64 (m.load (page + 8) 8)

/-- `hdr.capacity`. -/
def capacity (m : Memory) (page : ℕ) : ℕ := m.load (page + 16) 4

/-- `hdr.free_count`. -/
def freeCount (m : Memory) (page : ℕ) : ℕ := m.load (page + 20) 4

/-- `hdr.next`. -/
def next (m : Memory) (page : ℕ) : ℕ := m.load (page + 24) 8

/-- Write `hdr.free_bits`. -/
def setFreeBits (m : Memory) (page : ℕ) (bits : BitVec 64) : Memory :=
  m.store (page + 8) 8 bits.toNat

/-- Write `hdr.free_count`. -/
def setFreeCount (m : Memory) (page count : ℕ) : Memory := m.store (page + 20) 4 count

/-- Write `hdr.next`. -/
def setNext (m : Memory) (page node : ℕ) : Memory := m.store (page + 24) 8 node

/-! ### Allocation -/

/-- `slab_class_for`: the first class whose objects are large enough. -/
def slabClassFor (size : ℕ) : Option (Fin 3) :=
  (List.finRange 3).find? fun i => decide (size ≤ slabSizes i)

/-- `1u64 << slot`. -/
def slotBit (slot : ℕ) : BitVec 64 := 1#64 <<< (slot % 64)

/-- The lowest free slot of a page, if it has one. -/
def freeSlot (m : Memory) (page : ℕ) : Option (ℕ × ℕ) :=
  if 0 < freeCount m page then
    ((List.range (capacity m page)).find? fun slot => freeBits m page &&& slotBit slot != 0).map
      fun slot => (page, slot)
  else none

/-- Take a slot of a page. -/
def takeSlot (m : Memory) (page slot : ℕ) : Memory :=
  let m1 := setFreeBits m page (freeBits m page &&& ~~~slotBit slot)
  setFreeCount m1 page (freeCount m1 page - 1)

/-- The number of objects of a class in a page. -/
def slabCapacity (c : Fin 3) : ℕ := (pageSize - sizeOfSlabHeader) / slabSizes c

/-- Write the header of a new page of class `c` in front of the list at `head`, all slots free. -/
def newHeader (m : Memory) (page : ℕ) (c : Fin 3) (head : ℕ) : Memory :=
  let allFree : BitVec 64 :=
    if slabCapacity c = 64 then ~~~0#64 else (1#64 <<< slabCapacity c) - 1#64
  let m1 := m.store page 4 slabMagic
  let m2 := m1.store (page + 4) 4 c
  let m3 := setFreeBits m2 page allFree
  let m4 := m3.store (page + 16) 4 (slabCapacity c)
  let m5 := setFreeCount m4 page (slabCapacity c)
  setNext m5 page head

/-- `slab_alloc`: an object of the class of `size` from the first page of the class with a free
slot, or from a new page. -/
def slabAlloc (size : ℕ) (s : Mm) : Option (Option ℕ × Mm) :=
  match slabClassFor size with
  | none => some (none, s)
  | some c =>
    if pageSize - sizeOfSlabHeader < slabSizes c then some (none, s)
    else
      match Chain.search (next s.mem) (freeSlot s.mem) (s.pmm.totalPages + 1)
        (s.pmm.slabHeads c) with
      | none => none
      | some (some (page, slot)) =>
        some (some (page + sizeOfSlabHeader + slot * slabSizes c), { s with mem := takeSlot s.mem page slot })
      | some none =>
        match Pmm.alloc s with
        | .error _ s' => some (none, s')
        | .ok page s' =>
          let m := newHeader s'.mem page c (s'.pmm.slabHeads c)
          some (some (page + sizeOfSlabHeader), { s' with
              mem := takeSlot m page 0
              pmm := { s'.pmm with
                slabHeads := fun i => if i = c then page else s'.pmm.slabHeads i } })

/-! ### Freeing -/

/-- Give a slot of a page back. -/
def releaseSlot (m : Memory) (page slot : ℕ) : Memory :=
  let m1 := setFreeBits m page (freeBits m page ||| slotBit slot)
  setFreeCount m1 page (freeCount m1 page + 1)

/-- Unlink a page from the list of its class. -/
def unlink (c : Fin 3) (page : ℕ) (s : Mm) : Option Mm :=
  match Chain.findPrev (next s.mem) page (s.pmm.totalPages + 1) (s.pmm.slabHeads c) 0 with
  | none => none
  | some none => some s
  | some (some prev) =>
    if prev = 0 then
      some { s with
        pmm := { s.pmm with
          slabHeads := fun i => if i = c then next s.mem page else s.pmm.slabHeads i } }
    else some { s with mem := setNext s.mem prev (next s.mem page) }

/-- The number of the slot at an offset behind the header, cast to 32 bits. -/
def slotOf (c : Fin 3) (offset : ℕ) : ℕ := offset / slabSizes c % 2 ^ 32

/-- The last part of `slab_free`: give a slot of a page back, and the page with its last object. -/
def releaseObject (c : Fin 3) (page slot : ℕ) (s : Mm) : Option (Bool × Mm) :=
  let s1 := { s with mem := releaseSlot s.mem page slot }
  if freeCount s1.mem page = capacity s1.mem page then
    (unlink c page s1).map fun s2 => (true, Pmm.free s2 page)
  else some (true, s1)

/-- The middle part of `slab_free`: check that there is a slot at this offset. -/
def freeAtOffset (c : Fin 3) (page offset : ℕ) (s : Mm) : Option (Bool × Mm) :=
  if offset % slabSizes c ≠ 0 then some (false, s)
  else if capacity s.mem page ≤ slotOf c offset then some (false, s)
  else releaseObject c page (slotOf c offset) s

/-- `slab_free`: give the object at `ptr` back, and its page with the last object.  The answer is
`false` for an address that is no slot of a slab page. -/
def slabFree (ptr : ℕ) (s : Mm) : Option (Bool × Mm) :=
  let page := ptr / pageSize * pageSize
  if page = 0 then some (false, s)
  else if magic s.mem page ≠ slabMagic then some (false, s)
  else if h : sizeIdx s.mem page < 3 then
    freeAtOffset ⟨sizeIdx s.mem page, h⟩ page (wsub (ptr - page) sizeOfSlabHeader) s
  else none

end Slab

end OnyxKernel
