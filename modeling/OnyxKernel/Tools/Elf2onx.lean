import OnyxKernel.Onx.Load
import OnyxKernel.Tools.Compress

/-!
# The converter from ELF to OnyxExec

`tools/src/elf2onx/convert.rs`: `run` reads an ELF file and writes an executable in the first or the
second version of the format.  A file is given by its bytes and its length.  Leaving the program with an
error, and a slice outside the file, is the outcome `none`; the lines it prints are left out.
-/

namespace OnyxKernel.Elf2onx

open ByteMemory Onx OnxHeader List

/-! ### The ELF file -/

/-- The checks of the ELF header: magic, 64 bits, little-endian, `ET_EXEC`, RISC-V. -/
def ElfHeaderOk (elf : Memory) (len : ℕ) : Prop :=
  64 ≤ len ∧ (elf 0 = 0x7f ∧ elf 1 = 0x45 ∧ elf 2 = 0x4c ∧ elf 3 = 0x46) ∧ elf 4 = 2 ∧ elf 5 = 1 ∧
    elf.load 16 2 = 2 ∧ elf.load 18 2 = 243

instance (elf : Memory) (len : ℕ) : Decidable (ElfHeaderOk elf len) :=
  inferInstanceAs (Decidable (_ ∧ _))

def eEntry (elf : Memory) : ℕ := elf.load 24 8
def ePhoff (elf : Memory) : ℕ := elf.load 32 8
def ePhentsize (elf : Memory) : ℕ := elf.load 54 2
def ePhnum (elf : Memory) : ℕ := elf.load 56 2

/-- A program header. -/
structure Phdr where
  pType : ℕ
  pFlags : ℕ
  pOffset : ℕ
  pVaddr : ℕ
  pFilesz : ℕ
  pMemsz : ℕ
  pAlign : ℕ
  deriving DecidableEq, Repr

/-- The program header at `off`. -/
def phdrAt (elf : Memory) (off : ℕ) : Phdr where
  pType := elf.load off 4
  pFlags := elf.load (off + 4) 4
  pOffset := elf.load (off + 8) 8
  pVaddr := elf.load (off + 16) 8
  pFilesz := elf.load (off + 32) 8
  pMemsz := elf.load (off + 40) 8
  pAlign := elf.load (off + 48) 8

/-- The offset of program header `i`. -/
def phdrOffset (elf : Memory) (i : ℕ) : ℕ := wadd (ePhoff elf) (i * ePhentsize elf)

/-! ### Segments -/

def vmmR : ℕ := 1 <<< 1
def vmmW : ℕ := 1 <<< 2
def vmmX : ℕ := 1 <<< 3

/-- The flags of a segment. -/
def segmentFlags (pFlags : ℕ) : ℕ :=
  (if pFlags &&& 4 ≠ 0 then vmmR else 0) ||| (if pFlags &&& 2 ≠ 0 then vmmW else 0) |||
    (if pFlags &&& 1 ≠ 0 then vmmX else 0)

/-- A segment with the data that is written for it. -/
structure LoadInfo where
  seg : OnxSegment
  data : List UInt8
  deriving DecidableEq, Repr

/-- The data of a segment, and the size of it if it is compressed. -/
def segmentData (v2 doCompress : Bool) (pFilesz : ℕ) (raw : List UInt8) : Option (List UInt8 × ℕ) :=
  if doCompress && v2 && 0 < pFilesz then
    (rleCompress raw).map fun c =>
      if c.length % 2 ^ 32 < pFilesz % 2 ^ 32 then (c, c.length % 2 ^ 32) else (raw, 0)
  else some (raw, 0)

/-- The segment of a program header. -/
def loadInfo (elf : Memory) (len : ℕ) (v2 doCompress : Bool) (p : Phdr) : Option LoadInfo :=
  let stop := min (wadd p.pOffset p.pFilesz) len
  if stop < p.pOffset then none
  else
    (segmentData v2 doCompress p.pFilesz (slice elf p.pOffset (stop - p.pOffset))).map fun x =>
      { seg :=
          { vaddr := p.pVaddr, filesz := p.pFilesz, memsz := p.pMemsz, offset := 0
            flags := segmentFlags p.pFlags, align := p.pAlign % 2 ^ 32, reserved := 0
            compressedSize := x.2 }
        data := x.1 }

def maxSegs (v2 : Bool) : ℕ := if v2 then 256 else 8

/-- The loop over the program headers. -/
def loadLoop (elf : Memory) (len : ℕ) (v2 doCompress : Bool) :
    List ℕ → List LoadInfo → Option (List LoadInfo)
  | [], loads => some loads
  | i :: is, loads =>
    let off := phdrOffset elf i
    if len < wadd off 56 then some loads
    else if (phdrAt elf off).pType ≠ 1 then loadLoop elf len v2 doCompress is loads
    else if maxSegs v2 ≤ loads.length then some loads
    else (loadInfo elf len v2 doCompress (phdrAt elf off)).bind fun li =>
      loadLoop elf len v2 doCompress is (loads ++ [li])

/-- The data of the segments is written one after the other, from `dataOff` on. -/
def setOffsets : ℕ → List LoadInfo → List LoadInfo
  | _, [] => []
  | dataOff, li :: loads =>
    { li with seg := { li.seg with offset := dataOff } } ::
      setOffsets (min (dataOff + li.data.length % 2 ^ 32) (2 ^ 32 - 1)) loads

/-! ### The executable -/

def toBytesV1 (seg : OnxSegment) : List UInt8 :=
  leBytes 8 seg.vaddr ++ (leBytes 8 seg.filesz ++ (leBytes 8 seg.memsz ++ (leBytes 4 seg.offset ++
    (leBytes 4 seg.flags ++ (leBytes 4 seg.align ++ leBytes 4 seg.reserved)))))

def toBytesV2 (seg : OnxSegment) : List UInt8 :=
  toBytesV1 seg ++ (leBytes 4 seg.compressedSize ++ replicate 4 0)

/-- The first bytes of the header. -/
def headerBytes (version entry nsegs flags : ℕ) : List UInt8 :=
  leBytes 4 onxMagic ++ (leBytes 4 version ++ (leBytes 8 entry ++ (leBytes 4 nsegs ++ leBytes 4 flags)))

/-- The flags of the header. -/
def headerFlags (ring1 anyCompressed : Bool) : ℕ :=
  (if ring1 then onxFlagsRing1 else 0) ||| (if anyCompressed then onxFlagsCompressed else 0)

/-- The size of the header. -/
def headerSize (v2 : Bool) (nsegs : ℕ) : ℕ :=
  if v2 then v2HeaderSize + nsegs * OnxSegment.sizeV2 else v1HeaderSize

/-- The header and the segment table.  The first version has room for eight segments. -/
def tableBytes (entry : ℕ) (ring1 v2 : Bool) (loads : List LoadInfo) : List UInt8 :=
  if v2 then
    headerBytes 2 entry loads.length (headerFlags ring1 (loads.any fun li => 0 < li.seg.compressedSize)) ++
      (replicate 8 0 ++ loads.flatMap fun li => toBytesV2 li.seg)
  else
    headerBytes 1 entry loads.length (headerFlags ring1 false) ++
      ((loads.flatMap fun li => toBytesV1 li.seg) ++
        replicate (v1HeaderSize - 24 - loads.length * OnxSegment.sizeV1) 0)

/-- `run`: the bytes of the executable. -/
def run (elf : Memory) (len : ℕ) (ring1 v2 doCompress : Bool) : Option (List UInt8) :=
  if ElfHeaderOk elf len then
    (loadLoop elf len v2 doCompress (range (ePhnum elf)) []).map fun loads =>
      let loads := setOffsets (headerSize v2 loads.length) loads
      tableBytes (eEntry elf) ring1 v2 loads ++ loads.flatMap fun li => li.data
  else none

end OnyxKernel.Elf2onx
