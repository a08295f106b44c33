import OnyxKernel.Onx.Load

/-!
# Writing and reading the header of an executable

What `OnxHeader::to_bytes_v1` and `to_bytes_v2` write, `OnxHeader::from_bytes` reads back.  A header that
was read is written with the same bytes.
-/

namespace OnyxKernel.Onx

open ByteMemory List Nat Option

variable {image buf : Memory} {seg : OnxSegment} {hdr : OnxHeader} {a size : ℕ}

/-- The fields of a segment have their widths. -/
structure OnxSegment.Fits (seg : OnxSegment) : Prop where
  vaddr : seg.vaddr < 256 ^ 8
  filesz : seg.filesz < 256 ^ 8
  memsz : seg.memsz < 256 ^ 8
  offset : seg.offset < 256 ^ 4
  flags : seg.flags < 256 ^ 4
  align : seg.align < 256 ^ 4
  reserved : seg.reserved < 256 ^ 4
  compressedSize : seg.compressedSize < 256 ^ 4

/-- The fields of a header have their widths. -/
structure OnxHeader.Fits (hdr : OnxHeader) : Prop where
  entry : hdr.entry < 256 ^ 8
  nsegs : hdr.nsegs < 256 ^ 4
  flags : hdr.flags < 256 ^ 4
  segs : ∀ seg ∈ hdr.segs, seg.Fits

namespace OnxSegment

lemma length_toBytesV1 (seg : OnxSegment) : seg.toBytesV1.length = sizeV1 := rfl

lemma length_toBytesV2 (seg : OnxSegment) : seg.toBytesV2.length = sizeV2 := rfl

lemma Fits.fromBytesV1_eq (hfit : Fits seg) (h : image.Holds a (toBytesV1 seg)) :
    fromBytesV1 image a = { seg with compressedSize := 0 } := by
  have h1 := h.right
  have h2 := h1.right
  have h3 := h2.right
  have h4 := h3.right
  have h5 := h4.right
  have h6 := h5.right
  have hvaddr : image.load a 8 = seg.vaddr := h.left.load_eq.trans (mod_eq_of_lt hfit.vaddr)
  have hfilesz : image.load (a + 8) 8 = seg.filesz :=
    h1.left.load_eq.trans (mod_eq_of_lt hfit.filesz)
  have hmemsz : image.load (a + 16) 8 = seg.memsz :=
    h2.left.load_eq.trans (mod_eq_of_lt hfit.memsz)
  have hoffset : image.load (a + 24) 4 = seg.offset :=
    h3.left.load_eq.trans (mod_eq_of_lt hfit.offset)
  have hflags : image.load (a + 28) 4 = seg.flags :=
    h4.left.load_eq.trans (mod_eq_of_lt hfit.flags)
  have halign : image.load (a + 32) 4 = seg.align :=
    h5.left.load_eq.trans (mod_eq_of_lt hfit.align)
  have hreserved : image.load (a + 36) 4 = seg.reserved :=
    h6.load_eq.trans (mod_eq_of_lt hfit.reserved)
  rw [fromBytesV1, hvaddr, hfilesz, hmemsz, hoffset, hflags, halign, hreserved]

lemma Fits.fromBytesV2_eq (hfit : Fits seg) (h : image.Holds a (toBytesV2 seg)) :
    fromBytesV2 image a = seg := by
  have hsize := h.right
  have hcomp : image.load (a + 40) 4 = seg.compressedSize :=
    hsize.left.load_eq.trans (mod_eq_of_lt hfit.compressedSize)
  rw [fromBytesV2, hfit.fromBytesV1_eq h.left, hcomp]

end OnxSegment

namespace OnxHeader

lemma length_startBytes (hdr : OnxHeader) (version : ℕ) : (hdr.startBytes version).length = 24 := rfl

lemma Fits.load_eq (hfit : hdr.Fits) (hmagic : hdr.magic = onxMagic) {version : ℕ}
    (hversion : version < 256 ^ 4) (h : image.Holds 0 (hdr.startBytes version)) :
    image.load 0 4 = onxMagic ∧ image.load 4 4 = version ∧ image.load 8 8 = hdr.entry ∧
      image.load 16 4 = hdr.nsegs ∧ image.load 20 4 = hdr.flags := by
  have h1 := h.right
  have h2 := h1.right
  have h3 := h2.right
  have h4 := h3.right
  refine ⟨h.left.load_eq.trans ?_, h1.left.load_eq.trans (mod_eq_of_lt hversion),
    h2.left.load_eq.trans (mod_eq_of_lt hfit.entry), h3.left.load_eq.trans (mod_eq_of_lt hfit.nsegs),
    h4.load_eq.trans (mod_eq_of_lt hfit.flags)⟩
  rw [hmagic]
  rfl

lemma Fits.fromBytes_v1 (hfit : hdr.Fits) (hmagic : hdr.magic = onxMagic)
    (hnsegs : hdr.nsegs = hdr.segs.length) (hmax : hdr.segs.length ≤ 8)
    (hcomp : ∀ seg ∈ hdr.segs, seg.compressedSize = 0)
    (h : image.Holds 0 (hdr.startBytes 1 ++ hdr.segs.flatMap OnxSegment.toBytesV1)) (hsize : 344 ≤ size) :
    fromBytes image size = some { hdr with version := 1 } := by
  obtain ⟨hmagic', hversion, hentry, hn, hflags⟩ := hfit.load_eq hmagic (by decide) h.left
  have hsegs : (range hdr.nsegs).map (fun i => OnxSegment.fromBytesV1 image (24 + i * OnxSegment.sizeV1)) =
      hdr.segs := by
    rw [hnsegs]
    refine Memory.Holds.map_range _ _ (fun seg _ => seg.length_toBytesV1) (fun seg hseg a ha => ?_) h.right
    rw [(hfit.segs seg hseg).fromBytesV1_eq ha, ← hcomp seg hseg]
  unfold fromBytes v1HeaderSize
  rw [if_neg (by omega), hmagic', if_neg (not_not_intro rfl), hversion, if_pos rfl, if_neg (by omega), hn,
    if_neg (by omega), hentry, hflags, hsegs, hmagic]

lemma Fits.fromBytes_v2 (hfit : hdr.Fits) (hmagic : hdr.magic = onxMagic)
    (hnsegs : hdr.nsegs = hdr.segs.length) (hmax : hdr.segs.length ≤ 256)
    (h : image.Holds 0 (hdr.startBytes 2 ++ (replicate 8 0 ++ hdr.segs.flatMap OnxSegment.toBytesV2)))
    (hsize : 32 + hdr.segs.length * 48 ≤ size) :
    fromBytes image size = some { hdr with version := 2 } := by
  obtain ⟨hmagic', hversion, hentry, hn, hflags⟩ := hfit.load_eq hmagic (by decide) h.left
  have hsegs : (range hdr.nsegs).map (fun i => OnxSegment.fromBytesV2 image (32 + i * OnxSegment.sizeV2)) =
      hdr.segs := by
    rw [hnsegs]
    exact Memory.Holds.map_range _ _ (fun seg _ => seg.length_toBytesV2)
      (fun seg hseg a ha => (hfit.segs seg hseg).fromBytesV2_eq ha) h.right.right
  unfold fromBytes v2HeaderSize onxMaxSegs
  rw [if_neg (by omega), hmagic', if_neg (not_not_intro rfl), hversion, if_neg (by decide), if_pos rfl,
    if_neg (by omega), hn, if_neg (by omega), if_neg (by unfold OnxSegment.sizeV2; omega), hentry, hflags,
    hsegs, hmagic]

lemma length_flatMap_of_length {enc : OnxSegment → List UInt8} {w : ℕ} (hw : ∀ seg, (enc seg).length = w)
    (segs : List OnxSegment) : (segs.flatMap enc).length = segs.length * w := by
  simp only [length_flatMap, hw, map_const', sum_replicate_nat]

/-! ### Writing what was read -/

lemma leBytes_load (buf : Memory) (a w : ℕ) : leBytes w (buf.load a w) = slice buf a w :=
  map_congr_left fun _ hi => leByte_leValue _ (mem_range.mp hi)

lemma toBytesV1_fromBytesV1 (buf : Memory) (a : ℕ) :
    (OnxSegment.fromBytesV1 buf a).toBytesV1 = slice buf a 40 := by
  simp only [OnxSegment.toBytesV1, OnxSegment.fromBytesV1, leBytes_load]
  rfl

lemma toBytesV2_fromBytesV2 (buf : Memory) (a : ℕ) :
    (OnxSegment.fromBytesV2 buf a).toBytesV2 = slice buf a 44 ++ replicate 4 0 := by
  simp only [OnxSegment.toBytesV2, OnxSegment.toBytesV1, OnxSegment.fromBytesV2, OnxSegment.fromBytesV1,
    leBytes_load]
  rfl

lemma startBytes_load (buf : Memory) (segs : List OnxSegment) :
    startBytes ⟨buf.load 0 4, buf.load 4 4, buf.load 8 8, buf.load 16 4, buf.load 20 4, segs⟩
      (buf.load 4 4) = slice buf 0 24 := by
  simp only [startBytes, leBytes_load]
  rfl

end OnxHeader

end OnyxKernel.Onx
