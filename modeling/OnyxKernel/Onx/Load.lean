import OnyxKernel.Mm.PageTable
import OnyxKernel.Onx.Header

/-!
# Loading an executable

`kernel/src/proc/onx/load.rs` and `segments.rs`.  The loader works on the memory manager; the state
also records, as ghosts, the physical address of every byte that is written while the data of the
segments is copied or decompressed, and the pages obtained for the virtual pages.  A loop over the pages of a segment that reaches the end of the
64-bit address space starts again at address zero and does not end, which is the outcome `hang`.
-/

namespace OnyxKernel.Onx

open ByteMemory List Vmm

/-- The state of the loader. -/
structure Loader where
  mm : Mm
  /-- The physical addresses of the bytes copied so far. -/
  written : List ℕ
  /-- The pages obtained so far, each with the virtual page it was obtained for. -/
  given : List (ℕ × ℕ)

/-- The loader in the beginning. -/
def Loader.start (s : Mm) : Loader := ⟨s, [], []⟩

/-- The ways in which a function of the loader does not return a value. -/
inductive Stop where
  /-- It returns an error. -/
  | err (e : Errno)
  /-- It does not end. -/
  | hang
  deriving DecidableEq, Repr

/-- A function of the loader. -/
abbrev LoadM (α : Type) := EStateM Stop Loader α

/-- Return an error. -/
def fail {α : Type} (e : Errno) : LoadM α := throw (.err e)

/-- A call of a function of the memory manager. -/
def onMm {α : Type} (x : KResult Mm α) : LoadM α := fun l =>
  match x l.mm with
  | .ok a s => .ok a { l with mm := s }
  | .error e s => .error (.err e) { l with mm := s }

/-- Obtain a page for the virtual page `page`. -/
def takePage (page : ℕ) : LoadM ℕ := do
  let pagePa ← onMm Pmm.alloc
  modify fun l => { l with given := l.given ++ [(page, pagePa)] }
  return pagePa

/-- The number of turns after which a loop over pages has seen every page of the address space. -/
def pageTurns : ℕ := wordSize / pageSize + 1

/-- Write bytes at a physical address. -/
def poke (dst : ℕ) (bytes : List UInt8) : LoadM Unit :=
  modify fun l =>
    { l with
      mm := { l.mm with mem := l.mm.mem.write dst bytes }
      written := l.written ++ (range bytes.length).map (dst + ·) }

/-- A range of the bytes of the image. -/
def slice (image : Memory) (off n : ℕ) : List UInt8 := (range n).map fun i => image (off + i)

/-! ### The pages of a segment -/

/-- A page of the segment: nothing is done if it is mapped for the user already. -/
def mapSegmentPage (rootPa segFlags pageBase : ℕ) : LoadM Unit := do
  if translateUser (← get).mm.mem rootPa pageBase = 0 then
    let pagePa ← takePage pageBase
    onMm (mapOne rootPa pageBase pagePa segFlags 0)

/-- The first loop of `map_segment_data`. -/
def mapSegmentPages (rootPa segFlags stop : ℕ) : (fuel va : ℕ) → LoadM Unit
  | 0, _ => throw .hang
  | fuel + 1, va =>
    if va < stop then do
      mapSegmentPage rootPa segFlags (pageFloor va)
      mapSegmentPages rootPa segFlags stop fuel (min (wadd (pageFloor va) pageSize) stop)
    else pure ()

/-! ### Copying -/

/-- The loop of `copy_raw_to_pages`. -/
def copyRawLoop (rootPa : ℕ) (seg : OnxSegment) (image : Memory) (stop : ℕ) :
    (fuel va filePos : ℕ) → LoadM Unit
  | 0, _, _ => throw .hang
  | fuel + 1, va, filePos =>
    if va < stop then do
      let existing := translateUser (← get).mm.mem rootPa (pageFloor va)
      let pageVaEnd := min (wadd (pageFloor va) pageSize) stop
      let copyLen := min (wsub pageVaEnd va) (seg.filesz - filePos)
      if 0 < copyLen then
        poke (existing + va % pageSize) (slice image (wadd seg.offset filePos) copyLen)
      copyRawLoop rootPa seg image stop fuel pageVaEnd (wadd filePos copyLen)
    else pure ()

def copyRawToPages (rootPa : ℕ) (seg : OnxSegment) (image : Memory) : LoadM Unit :=
  copyRawLoop rootPa seg image (wadd seg.vaddr seg.memsz) pageTurns seg.vaddr 0

/-- The inner loops of `decompress_to_pages`: write bytes from `outVa` on, page by page.  The first
argument bounds the number of turns; a turn writes at least one byte. -/
def putBytes (rootPa : ℕ) : (turns outVa : ℕ) → List UInt8 → LoadM Unit
  | 0, _, _ => pure ()
  | _ + 1, _, [] => pure ()
  | turns + 1, outVa, b :: bs => do
    let paddr := translate (← get).mm.mem rootPa (pageFloor outVa)
    let poff := outVa % pageSize
    let chunk := min (b :: bs).length (pageSize - poff)
    poke (paddr + poff) ((b :: bs).take chunk)
    putBytes rootPa turns (wadd outVa chunk) ((b :: bs).drop chunk)

/-- The loop of `decompress_to_pages`.  The first argument bounds the number of turns; a turn consumes
at least one byte of the input. -/
def decompressLoop (rootPa : ℕ) (src : Memory) (compEnd fileEnd : ℕ) :
    (turns inOff outVa : ℕ) → LoadM Unit
  | 0, _, _ => pure ()
  | turns + 1, inOff, outVa =>
    if inOff < compEnd ∧ outVa < fileEnd then
      let tag := (src inOff).toNat
      if tag &&& 0x80 ≠ 0 then
        let count := (tag &&& 0x7F) + 1
        if compEnd ≤ inOff + 1 then fail .inval
        else do
          let left := min count (fileEnd - outVa)
          putBytes rootPa left outVa (replicate left (src (inOff + 1)))
          decompressLoop rootPa src compEnd fileEnd turns (inOff + 2) (wadd outVa left)
      else
        let count := tag + 1
        let left := min count (fileEnd - outVa)
        if compEnd < inOff + 1 + left then fail .inval
        else do
          putBytes rootPa left outVa (slice src (inOff + 1) left)
          decompressLoop rootPa src compEnd fileEnd turns (inOff + 1 + left) (wadd outVa left)
    else pure ()

def decompressToPages (rootPa : ℕ) (seg : OnxSegment) (image : Memory) : LoadM Unit :=
  decompressLoop rootPa (fun i => image (seg.offset + i)) seg.compressedSize
    (wadd seg.vaddr seg.filesz) seg.compressedSize 0 seg.vaddr

/-- Is the data of the segment compressed? -/
def isCompressed (compressed : Bool) (seg : OnxSegment) : Bool := compressed && 0 < seg.compressedSize

def mapSegmentData (rootPa : ℕ) (seg : OnxSegment) (image : Memory) (compressed : Bool) :
    LoadM Unit := do
  let segFlags := seg.flags ||| pteU ||| pteA ||| pteD
  mapSegmentPages rootPa segFlags (wadd seg.vaddr seg.memsz) pageTurns seg.vaddr
  if isCompressed compressed seg then decompressToPages rootPa seg image
  else copyRawToPages rootPa seg image

/-! ### The loader -/

structure OnxLoadResult where
  entry : ℕ
  rootPa : ℕ
  ustack : ℕ
  heapBrk : ℕ
  ring : UInt8
  deriving DecidableEq, Repr

/-- One turn of the loop over the segments: the checks, and the data. -/
def loadSegment (rootPa : ℕ) (image : Memory) (imageSize : ℕ) (compressed : Bool)
    (seg : OnxSegment) : LoadM Unit :=
  if seg.vaddr < userBase ∨ userTop ≤ seg.vaddr then fail .range
  else if seg.memsz < seg.filesz then fail .inval
  else
    let dataEnd :=
      if isCompressed compressed seg then seg.offset + seg.compressedSize
      else wadd seg.offset seg.filesz
    if imageSize < dataEnd then fail .range else mapSegmentData rootPa seg image compressed

/-- The loop over the segments. -/
def loadSegments (rootPa : ℕ) (image : Memory) (imageSize : ℕ) (compressed : Bool) :
    List OnxSegment → LoadM Unit
  | [] => pure ()
  | seg :: segs => do
    loadSegment rootPa image imageSize compressed seg
    loadSegments rootPa image imageSize compressed segs

/-- The flags of the pages of the stack and of the heap. -/
def userFlags : ℕ := pteV ||| pteR ||| pteW ||| pteU ||| pteA ||| pteD

/-- The loops that map the stack and the heap: `n` new pages from `va` on. -/
def mapNewPages (rootPa : ℕ) : (n va : ℕ) → LoadM Unit
  | 0, _ => pure ()
  | n + 1, va => do
    let pagePa ← takePage va
    onMm (mapOne rootPa va pagePa userFlags 0)
    mapNewPages rootPa n (va + pageSize)

def load (image : Memory) (imageSize : ℕ) : LoadM OnxLoadResult :=
  if imageSize < 24 then fail .inval
  else
    match OnxHeader.fromBytes image imageSize with
    | none => fail .inval
    | some hdr => do
      let compressed := decide (hdr.flags &&& onxFlagsCompressed ≠ 0)
      let rootPa ← onMm newRoot
      onMm (modify (identityLeaves rootPa))
      loadSegments rootPa image imageSize compressed hdr.segs
      mapNewPages rootPa userStackPages (userTop - userStackPages * pageSize)
      mapNewPages rootPa userHeapPages userHeapBase
      return {
        entry := hdr.entry
        rootPa := rootPa
        ustack := userTop - 16
        heapBrk := userHeapBase
        ring := if hdr.flags &&& onxFlagsRing1 ≠ 0 then 1 else 2 }

end OnyxKernel.Onx
