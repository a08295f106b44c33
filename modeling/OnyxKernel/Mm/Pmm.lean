import OnyxKernel.Core.Errno
import OnyxKernel.Foundation.Bitmap

/-!
# The physical memory manager

The page allocator of `kernel/src/mm/pmm`: `G_PMM` with its bitmap, `init`, and the functions
`bm_get`, `bm_set`, `bm_clr`, `alloc`, `alloc_n` and `free` of `bitmap.rs`.  The bitmap lives in
physical memory, in front of the pages it manages, so the state is the memory together with the
`Pmm` record (and the record of the heap, which shares the memory).
-/

namespace OnyxKernel

open ByteMemory List

/-- The size of a page. -/
def pageSize : ℕ := 4096

/-- The memory kept free for the kernel heap behind the kernel image. -/
def kernelHeapReserve : ℕ := 4 * 1024 * 1024

/-- `G_PMM`: the managed pages `[base, base + totalPages * 4096)`, the number of free ones, the
address of the bitmap and the heads of the three slab lists (0 is the null pointer). -/
structure Pmm where
  base : ℕ
  totalPages : ℕ
  freePages : ℕ
  bitmap : ℕ
  slabHeads : Fin 3 → ℕ

/-- `G_HEAP`: the number of bytes in use and the first block of the list. -/
structure Heap where
  used : ℕ
  freeList : ℕ

/-- The memory manager: physical memory, the page allocator and the heap. -/
structure Mm where
  mem : Memory
  pmm : Pmm
  heap : Heap

namespace Pmm

/-- Is the page `bit` marked as allocated? -/
def bmGet (s : Mm) (bit : ℕ) : Bool := Bitmap.test s.mem s.pmm.bitmap bit

/-- Mark the page `bit` as allocated. -/
def bmSet (s : Mm) (bit : ℕ) : Mm :=
  { s with
    mem := Bitmap.set s.mem s.pmm.bitmap bit
    pmm := { s.pmm with freePages := wsub s.pmm.freePages 1 } }

/-- Mark the page `bit` as free. -/
def bmClr (s : Mm) (bit : ℕ) : Mm :=
  { s with
    mem := Bitmap.clear s.mem s.pmm.bitmap bit
    pmm := { s.pmm with freePages := wadd s.pmm.freePages 1 } }

/-- The page number of a physical address. -/
def paToIdx (s : Mm) (pa : ℕ) : ℕ := wsub pa s.pmm.base / pageSize

/-- The physical address of a page number. -/
def idxToPa (s : Mm) (idx : ℕ) : ℕ := s.pmm.base + idx * pageSize

/-- The start of the managed memory: the first page boundary behind the kernel heap (and not before
the memory itself). -/
def managedBase (kernelEnd dramBase : ℕ) : ℕ :=
  wadd (max (wadd kernelEnd kernelHeapReserve) dramBase) (pageSize - 1) / pageSize * pageSize

/-- The number of pages from the start of the managed memory to the end of the memory. -/
def managedPages (kernelEnd dramBase dramSize : ℕ) : ℕ :=
  (wadd dramBase dramSize - managedBase kernelEnd dramBase) / pageSize

/-- The number of pages that the bitmap of `pages` pages takes. -/
def bitmapPages (pages : ℕ) : ℕ := ((pages + 7) / 8 + (pageSize - 1)) / pageSize

/-- The first half of `pmm::init`: a zeroed bitmap at `start`, and the record that manages the pages
behind it. -/
def initBitmap (start pages : ℕ) (s : Mm) : Mm :=
  { s with
    mem := s.mem.fill start ((pages + 7) / 8) 0
    pmm :=
      { base := start + bitmapPages pages * pageSize
        totalPages := pages - bitmapPages pages
        freePages := pages - bitmapPages pages
        bitmap := start
        slabHeads := fun _ => 0 } }

/-- `pmm::init`: install the bitmap and mark the first `bitmap_pages` of the pages behind it as
allocated. -/
def init (kernelEnd dramBase dramSize : ℕ) (s : Mm) : Mm :=
  let pages := managedPages kernelEnd dramBase dramSize
  (range (bitmapPages pages)).foldl bmSet (initBitmap (managedBase kernelEnd dramBase) pages s)

/-- `pmm::alloc`: take the first free page and zero it. -/
def alloc : KResult Mm ℕ := fun s =>
  match (range s.pmm.totalPages).find? fun i => !bmGet s i with
  | some i =>
    let pa := idxToPa s i
    let s1 := bmSet s i
    .ok pa { s1 with mem := s1.mem.fill pa pageSize 0 }
  | none => .error .noMem s

/-- The loop of `alloc_n` from page `i` on, with `fuel` pages left: `run` free pages in a row have
been seen, the first of them at `start`. -/
def allocNScan (s : Mm) (n : ℕ) : (fuel i run start : ℕ) → Option ℕ
  | 0, _, _, _ => none
  | fuel + 1, i, run, start =>
    if !bmGet s i then
      let start := if run = 0 then i else start
      if run + 1 = n then some start else allocNScan s n fuel (i + 1) (run + 1) start
    else allocNScan s n fuel (i + 1) 0 start

/-- `pmm::alloc_n`: take the first `n` consecutive free pages. -/
def allocN (n : ℕ) : KResult Mm ℕ := fun s =>
  if n = 0 then .error .inval s
  else
    match allocNScan s n s.pmm.totalPages 0 0 0 with
    | some start => .ok (idxToPa s start) ((range' start n).foldl bmSet s)
    | none => .error .noMem s

/-- `pmm::free`: give the page at `pa` back; an address outside the managed pages and a free page
are ignored. -/
def free (s : Mm) (pa : ℕ) : Mm :=
  let idx := paToIdx s pa
  if idx < s.pmm.totalPages then
    if bmGet s idx then bmClr s idx else s
  else s

end Pmm

end OnyxKernel
