import OnyxKernel.Mm.Slab

/-!
# The kernel heap

`kmalloc` and `kfree` of `kernel/src/mm/heap.rs`.  The heap is a doubly linked list of blocks that
starts at the end of the kernel image; a block has a header of 32 bytes in front of its bytes.  Small
sizes go to the slab allocator.

As in the slab allocator, `none` stands for a walk along the list that does not end: the heap has
room for `HEAP_SIZE / 32` headers, so a longer list has a cycle.
-/

namespace OnyxKernel

open ByteMemory

def heapSize : ℕ := 4 * 1024 * 1024

def minBlock : ℕ := 16

namespace Block

/-- `Block::hdr_size()`. -/
def hdrSize : ℕ := 32

/-- `blk.size`. -/
def size (m : Memory) (blk : ℕ) : ℕ := m.load blk 8

/-- `blk.free`. -/
def free (m : Memory) (blk : ℕ) : Bool := m (blk + 8) != 0

/-- `blk.next`. -/
def next (m : Memory) (blk : ℕ) : ℕ := m.load (blk + 16) 8

/-- `blk.prev`. -/
def prev (m : Memory) (blk : ℕ) : ℕ := m.load (blk + 24) 8

/-- Write `blk.size`. -/
def setSize (m : Memory) (blk n : ℕ) : Memory := m.store blk 8 n

/-- Write `blk.free`. -/
def setFree (m : Memory) (blk : ℕ) (b : Bool) : Memory := m.setByte (blk + 8) (if b then 1 else 0)

/-- Write `blk.next`. -/
def setNext (m : Memory) (blk node : ℕ) : Memory := m.store (blk + 16) 8 node

/-- Write `blk.prev`. -/
def setPrev (m : Memory) (blk node : ℕ) : Memory := m.store (blk + 24) 8 node

end Block

namespace Heap

open Block

/-- `heap::init`: one free block at the end of the kernel image. -/
def init (kernelEnd : ℕ) (s : Mm) : Mm :=
  let m1 := setSize s.mem kernelEnd (heapSize - hdrSize)
  let m2 := setFree m1 kernelEnd true
  let m3 := setNext m2 kernelEnd 0
  let m4 := setPrev m3 kernelEnd 0
  { s with mem := m4, heap := { used := 0, freeList := kernelEnd } }

/-- The bytes a request takes: its size rounded up to a multiple of 16. -/
def neededFor (size : ℕ) : ℕ := wadd size 15 / 16 * 16

/-- Cut a block after `needed` bytes; the rest becomes a new free block behind it. -/
def split (m : Memory) (blk needed : ℕ) : Memory :=
  let rest := blk + hdrSize + needed
  let m1 := setSize m rest (size m blk - needed - hdrSize)
  let m2 := setFree m1 rest true
  let m3 := setNext m2 rest (next m2 blk)
  let m4 := setPrev m3 rest blk
  let m5 := if next m4 blk ≠ 0 then setPrev m4 (next m4 blk) rest else m4
  let m6 := setNext m5 blk rest
  setSize m6 blk needed

/-- Take `needed` bytes of a free block that is large enough. -/
def takeBlock (m : Memory) (blk needed : ℕ) : Memory :=
  let m1 :=
    if wadd (wadd needed hdrSize) (minBlock + hdrSize) ≤ size m blk then split m blk needed else m
  setFree m1 blk false

/-- The test of the first-fit search. -/
def fits (m : Memory) (total blk : ℕ) : Option ℕ :=
  if free m blk && total ≤ size m blk then some blk else none

/-- The part of `kmalloc` behind the slab allocator: the first free block with room for the bytes
and another header. -/
def kmallocBlock (needed : ℕ) (s : Mm) : Option (EStateM.Result Errno Mm ℕ) :=
  match Chain.search (next s.mem) (fits s.mem (wadd needed hdrSize)) (heapSize / hdrSize + 1)
    s.heap.freeList with
  | none => none
  | some none => some (.error .noMem s)
  | some (some blk) =>
    some (.ok (blk + hdrSize) { s with
        mem := takeBlock s.mem blk needed
        heap := { s.heap with used := wadd s.heap.used needed } })

def kmalloc (size : ℕ) (s : Mm) : Option (EStateM.Result Errno Mm ℕ) :=
  if size = 0 then some (.error .inval s)
  else
    match Slab.slabAlloc size s with
    | none => none
    | some (some p, s') =>
      some (.ok p { s' with heap := { s'.heap with used := wadd s'.heap.used size } })
    | some (none, s') => kmallocBlock (neededFor size) s'

/-- Merge the block `b` into the block `a` in front of it. -/
def absorb (m : Memory) (a b : ℕ) : Memory :=
  let m1 := setSize m a (size m a + (hdrSize + size m b))
  let m2 := setNext m1 a (next m1 b)
  if next m2 a ≠ 0 then setPrev m2 (next m2 a) a else m2

/-- The part of `kfree` behind the slab allocator: mark the block as free and merge it with the
neighbours that are free. -/
def kfreeBlock (m : Memory) (blk : ℕ) : Memory :=
  let m1 := setFree m blk true
  let m2 := if next m1 blk ≠ 0 ∧ free m1 (next m1 blk) then absorb m1 blk (next m1 blk) else m1
  if prev m2 blk ≠ 0 ∧ free m2 (prev m2 blk) then absorb m2 (prev m2 blk) blk else m2

def kfree (p : ℕ) (s : Mm) : Option Mm :=
  if p = 0 then some s
  else
    match Slab.slabFree p s with
    | none => none
    | some (true, s') => some s'
    | some (false, s') => some { s' with mem := kfreeBlock s'.mem (wsub p hdrSize) }

end Heap

end OnyxKernel
