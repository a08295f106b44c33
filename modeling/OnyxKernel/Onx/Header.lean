import OnyxKernel.Foundation.ByteMemory
import OnyxKernel.Core.Errno

/-!
# The OnyxExec format

The header and the segment table of an executable, as `core/src/formats/header.rs` and `segment.rs`
parse them.  An image is given by the bytes from its first address on, and by its size.
-/

namespace OnyxKernel.Onx

open ByteMemory List

def onxMagic : ℕ := 0x31584E4F
def onxVersion1 : ℕ := 1
def onxVersion2 : ℕ := 2
def onxFlagsRing1 : ℕ := 0x2
def onxFlagsCompressed : ℕ := 0x4
def onxMaxSegs : ℕ := 256

/-- A segment of an executable.  Only the second version stores `compressedSize`. -/
structure OnxSegment where
  vaddr : ℕ
  filesz : ℕ
  memsz : ℕ
  offset : ℕ
  flags : ℕ
  align : ℕ
  reserved : ℕ
  compressedSize : ℕ
  deriving DecidableEq, Repr

namespace OnxSegment

/-- The sizes of a segment in the table. -/
def sizeV1 : ℕ := 40
def sizeV2 : ℕ := 48

/-- The segment at `off`, in the layout of the first version. -/
def fromBytesV1 (buf : Memory) (off : ℕ) : OnxSegment where
  vaddr := buf.load off 8
  filesz := buf.load (off + 8) 8
  memsz := buf.load (off + 16) 8
  offset := buf.load (off + 24) 4
  flags := buf.load (off + 28) 4
  align := buf.load (off + 32) 4
  reserved := buf.load (off + 36) 4
  compressedSize := 0

/-- The segment at `off`, in the layout of the second version. -/
def fromBytesV2 (buf : Memory) (off : ℕ) : OnxSegment :=
  { fromBytesV1 buf off with compressedSize := buf.load (off + 40) 4 }

def toBytesV1 (seg : OnxSegment) : List UInt8 :=
  leBytes 8 seg.vaddr ++ (leBytes 8 seg.filesz ++ (leBytes 8 seg.memsz ++ (leBytes 4 seg.offset ++
    (leBytes 4 seg.flags ++ (leBytes 4 seg.align ++ leBytes 4 seg.reserved)))))

def toBytesV2 (seg : OnxSegment) : List UInt8 :=
  toBytesV1 seg ++ (leBytes 4 seg.compressedSize ++ replicate 4 0)

end OnxSegment

structure OnxHeader where
  magic : ℕ
  version : ℕ
  entry : ℕ
  nsegs : ℕ
  flags : ℕ
  segs : List OnxSegment
  deriving DecidableEq, Repr

namespace OnxHeader

def v1HeaderSize : ℕ := 344
def v2HeaderSize : ℕ := 32

/-- `OnxHeader::from_bytes`: the header and the segments of an image of `len` bytes. -/
def fromBytes (buf : Memory) (len : ℕ) : Option OnxHeader :=
  if len < 24 then none
  else
    let magic := buf.load 0 4
    if magic ≠ onxMagic then none
    else
      let version := buf.load 4 4
      let entry := buf.load 8 8
      let nsegs := buf.load 16 4
      let flags := buf.load 20 4
      if version = 1 then
        if len < v1HeaderSize then none
        else if 8 < nsegs then none
        else some
          { magic, version, entry, nsegs, flags
            segs := (range nsegs).map fun i =>
              OnxSegment.fromBytesV1 buf (24 + i * OnxSegment.sizeV1) }
      else if version = 2 then
        if len < v2HeaderSize then none
        else if onxMaxSegs < nsegs then none
        else if len < v2HeaderSize + nsegs * OnxSegment.sizeV2 then none
        else some
          { magic, version, entry, nsegs, flags
            segs := (range nsegs).map fun i =>
              OnxSegment.fromBytesV2 buf (v2HeaderSize + i * OnxSegment.sizeV2) }
      else none

/-- The fields that both versions start with. -/
def startBytes (hdr : OnxHeader) (version : ℕ) : List UInt8 :=
  leBytes 4 hdr.magic ++ (leBytes 4 version ++ (leBytes 8 hdr.entry ++ (leBytes 4 hdr.nsegs ++
    leBytes 4 hdr.flags)))

/-- `OnxHeader::to_bytes_v1`: there is room for eight segments. -/
def toBytesV1 (hdr : OnxHeader) : List UInt8 :=
  hdr.startBytes 1 ++ ((hdr.segs.take 8).flatMap OnxSegment.toBytesV1 ++
    replicate ((8 - hdr.segs.length) * OnxSegment.sizeV1) 0)

/-- `OnxHeader::to_bytes_v2`: there is room for `nsegs` segments, and one more is a panic. -/
def toBytesV2 (hdr : OnxHeader) : Option (List UInt8) :=
  if hdr.nsegs < hdr.segs.length then none
  else some (hdr.startBytes 2 ++ (replicate 8 0 ++ (hdr.segs.flatMap OnxSegment.toBytesV2 ++
    replicate ((hdr.nsegs - hdr.segs.length) * OnxSegment.sizeV2) 0)))

end OnxHeader

end OnyxKernel.Onx
