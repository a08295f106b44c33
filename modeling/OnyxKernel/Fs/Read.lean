import OnyxKernel.Fs.Operations

/-!
# Reading a file

The logical contents of a file and what `read` returns of them.  The loop of `read` starts at the
first block number of the inode for every offset and uses the offset only modulo the block size, so
that it returns the bytes from `off % 4096` on.  The number of bytes is the right one for every
offset; the bytes are right exactly when the file repeats itself in the way stated below, as it does
for every offset inside the first block.
-/

namespace OnyxKernel.Onyxfs

open ByteMemory List Nat OnyfsInode Buffer KResult Fs

/-! ### The logical contents of a file -/

/-- The inode with number `ino` on the disk. -/
def Fs.inodeAt (s : Fs) (ino : ℕ) : OnyfsInode :=
  let block := s.disk (s.inodeBlock ino)
  if s.version = .v1 then fromBytesV1 (block.view (s.inodeSlot ino * 64))
  else fromBytes (block.view (s.inodeSlot ino * 128))

/-- Byte `p` of the concatenation of the blocks of an inode.  A block that is not there reads as
zeros. -/
def Fs.fileByte (s : Fs) (inode : OnyfsInode) (p : ℕ) : UInt8 :=
  if h : p / onyfsBlockSize < 10 then
    if inode.blocks ⟨p / onyfsBlockSize, h⟩ = 0 then 0
    else (s.disk (inode.blocks ⟨p / onyfsBlockSize, h⟩)).mem (p % onyfsBlockSize)
  else 0

/-- The bytes `off, …, off + n - 1` of a file. -/
def Fs.fileRange (s : Fs) (inode : OnyfsInode) (off n : ℕ) : List UInt8 :=
  (range n).map fun i => s.fileByte inode (off + i)

lemma Fs.inodeBlock_congr {s t : Fs} (hv : t.version = s.version) (hsb : t.sb = s.sb) (ino : ℕ) :
    t.inodeBlock ino = s.inodeBlock ino := by
  rw [inodeBlock, inodeBlock, inodesPerBlock, inodesPerBlock, hv, hsb]

lemma Fs.inodeSlot_congr {s t : Fs} (hv : t.version = s.version) (ino : ℕ) :
    t.inodeSlot ino = s.inodeSlot ino := by
  rw [inodeSlot, inodeSlot, inodesPerBlock, inodesPerBlock, hv]

lemma Fs.inodeAt_congr {s t : Fs} {ino : ℕ} (hv : t.version = s.version) (hsb : t.sb = s.sb)
    (hdisk : t.disk (s.inodeBlock ino) = s.disk (s.inodeBlock ino)) : t.inodeAt ino = s.inodeAt ino := by
  rw [inodeAt, inodeAt, hv, inodeBlock_congr hv hsb, inodeSlot_congr hv, hdisk]

lemma Fs.inodeAt_of_pred {s : Fs} {ino ino' : ℕ} (h : ino' - 1 = ino - 1) : s.inodeAt ino' = s.inodeAt ino := by
  rw [inodeAt, inodeAt, inodeBlock, inodeBlock, inodeSlot, inodeSlot, h]

lemma Fs.inodeSlot_lt (s : Fs) (ino : ℕ) : s.inodeSlot ino < s.inodesPerBlock := by
  refine mod_lt _ ?_
  unfold inodesPerBlock
  split <;> decide

/-- The function `read_inode` answers with the inode on the disk and leaves its block in `G_BUF`. -/
theorem readInode_eq (ino : ℕ) (s : Fs) :
    readInode ino s = .ok (s.inodeAt ino) (s.withBuf (s.disk (s.inodeBlock ino))) := by
  have hslot := s.inodeSlot_lt ino
  have hread : readInode ino s = (if s.version = .v1 then
        if onyfsBlockSize < s.inodeSlot ino * 64 + 64 then throw .inval
        else pure (fromBytesV1 ((s.disk (s.inodeBlock ino)).view (s.inodeSlot ino * 64)))
      else
        if onyfsBlockSize < s.inodeSlot ino * 128 + 128 then throw .inval
        else pure (fromBytes ((s.disk (s.inodeBlock ino)).view (s.inodeSlot ino * 128))) : FsM OnyfsInode)
        (s.withBuf (s.disk (s.inodeBlock ino))) := rfl
  unfold inodesPerBlock at hslot
  unfold inodeAt
  rw [hread]
  by_cases hv : s.version = .v1
  · rw [if_pos hv] at hslot
    have hoff : ¬ onyfsBlockSize < s.inodeSlot ino * 64 + 64 := by
      rw [onyfsBlockSize]
      omega
    rw [if_pos hv, if_neg hoff, pure_apply, if_pos hv]
  · rw [if_neg hv] at hslot
    have hoff : ¬ onyfsBlockSize < s.inodeSlot ino * 128 + 128 := by
      rw [onyfsBlockSize]
      omega
    rw [if_neg hv, if_neg hoff, pure_apply, if_neg hv]

/-! ### The loop -/

/-- Byte `p` of the concatenation of a list of blocks. -/
def Fs.blocksByte (s : Fs) (blocks : List ℕ) (p : ℕ) : UInt8 :=
  (s.disk (blocks.getD (p / onyfsBlockSize) 0)).mem (p % onyfsBlockSize)

lemma Fs.blocksByte_of_lt (s : Fs) (blk : ℕ) (blocks : List ℕ) {p : ℕ} (hp : p < onyfsBlockSize) :
    s.blocksByte (blk :: blocks) p = (s.disk blk).mem p := by
  rw [blocksByte, div_eq_of_lt hp, mod_eq_of_lt hp]
  rfl

lemma Fs.blocksByte_add (s : Fs) (blk : ℕ) (blocks : List ℕ) (p : ℕ) :
    s.blocksByte (blk :: blocks) (onyfsBlockSize + p) = s.blocksByte blocks p := by
  have hpos : 0 < onyfsBlockSize := by decide
  rw [blocksByte, blocksByte, add_div_left p hpos, add_mod_left]
  rfl

lemma readLoop_cons {blk off remaining : ℕ} (blocks : List ℕ) (s : Fs) (hblk : blk ≠ 0)
    (hpos : 0 < remaining) :
    readLoop (blk :: blocks) off remaining s =
      (readLoop blocks (off + min (onyfsBlockSize - off % onyfsBlockSize) remaining)
          (remaining - min (onyfsBlockSize - off % onyfsBlockSize) remaining) >>= fun rest =>
        pure ((range (min (onyfsBlockSize - off % onyfsBlockSize) remaining)).map
          ((s.disk blk).view (off % onyfsBlockSize)) ++ rest)) (s.withBuf (s.disk blk)) := by
  have hcond : ¬ (remaining = 0 ∨ blk = 0) := not_or.mpr ⟨hpos.ne', hblk⟩
  rw [readLoop, if_neg hcond]
  rfl

/-- The loop of `read` returns the bytes of its blocks from the offset modulo the block size on, as
long as no block number on the way is zero. -/
theorem readLoop_eq (blocks : List ℕ) (off remaining : ℕ) (s : Fs)
    (h : 0 < remaining → ∀ k, k * onyfsBlockSize < off % onyfsBlockSize + remaining → blocks.getD k 0 ≠ 0) :
    ∃ b, readLoop blocks off remaining s =
      .ok ((range remaining).map fun i => s.blocksByte blocks (off % onyfsBlockSize + i))
        (s.withBuf b) := by
  induction blocks generalizing off remaining s with
  | nil =>
    rcases Nat.eq_zero_or_pos remaining with rfl | hpos
    · exact ⟨s.buf, rfl⟩
    · exact absurd rfl (h hpos 0 (by omega))
  | cons blk blocks ih =>
    rcases Nat.eq_zero_or_pos remaining with rfl | hpos
    · exact ⟨s.buf, rfl⟩
    have hblk : blk ≠ 0 := h hpos 0 (by omega)
    rw [readLoop_cons blocks s hblk hpos]
    have hc : off % onyfsBlockSize < onyfsBlockSize := mod_lt off (by decide)
    generalize hchunk : min (onyfsBlockSize - off % onyfsBlockSize) remaining = chunk
    have hle : chunk ≤ remaining := hchunk ▸ min_le_right _ _
    -- when something is left to read, the next offset is a block boundary
    have hnext : chunk < remaining → off % onyfsBlockSize + chunk = onyfsBlockSize ∧
        (off + chunk) % onyfsBlockSize = 0 := by
      intro hlt
      have hsum : off % onyfsBlockSize + chunk = onyfsBlockSize := by omega
      refine ⟨hsum, ?_⟩
      rw [add_mod, ← mod_add_mod, mod_mod, add_mod_mod, hsum, mod_self]
    obtain ⟨b, hb⟩ := ih (off + chunk) (remaining - chunk) (s.withBuf (s.disk blk)) (by
      intro hlt k hk
      refine h hpos (k + 1) ?_
      rw [succ_mul]
      omega)
    refine ⟨b, ?_⟩
    rw [bind_of_ok hb, pure_apply]
    have hrange : range remaining = range chunk ++ (range (remaining - chunk)).map (chunk + ·) := by
      rw [← range_add, Nat.add_sub_cancel' hle]
    rw [hrange, map_append, map_map, withBuf_withBuf]
    congr 2
    · refine map_congr_left fun i hi => ?_
      have hi' : i < chunk := mem_range.mp hi
      exact (s.blocksByte_of_lt blk blocks (by omega)).symm
    · refine map_congr_left fun i hi => ?_
      have hi' : i < remaining - chunk := mem_range.mp hi
      obtain ⟨hsum, hzero⟩ := hnext (by omega)
      rw [Function.comp_apply, hzero, zero_add, ← add_assoc, hsum]
      exact (s.blocksByte_add blk blocks i).symm

/-! ### What `read` returns -/

/-- Byte `p` of the blocks of an inode, as the loop of `read` sees it. -/
theorem Fs.blocksByte_ofFn (s : Fs) (inode : OnyfsInode) {p : ℕ} (hp : p / onyfsBlockSize < 10)
    (hblk : inode.blocks ⟨p / onyfsBlockSize, hp⟩ ≠ 0) :
    s.blocksByte (List.ofFn inode.blocks) p = s.fileByte inode p := by
  rw [blocksByte, fileByte, dif_pos hp, if_neg hblk, getD_eq_getElem?_getD, List.getElem?_ofFn, dif_pos hp]
  rfl

/-- The first blocks of a file, up to its size, are there. -/
def Mapped (inode : OnyfsInode) : Prop :=
  inode.size ≤ 10 * onyfsBlockSize ∧ ∀ k : Fin 10, (k : ℕ) * onyfsBlockSize < inode.size → inode.blocks k ≠ 0

/-- The function `read` returns as many bytes as the file has from `off` on, up to `len`, but takes
them from `off % 4096` on. -/
theorem read_eq {s : Fs} {ino : ℕ} (hmap : Mapped (s.inodeAt ino)) (off len : ℕ) : ∃ b, read ino off len s =
      .ok (min len ((s.inodeAt ino).size - off),
        s.fileRange (s.inodeAt ino) (off % onyfsBlockSize) (min len ((s.inodeAt ino).size - off)))
        (s.withBuf b) := by
  obtain ⟨hsize, hblocks⟩ := hmap
  set inode := s.inodeAt ino with hinode
  have hcap : min inode.size (u32Size - 1) = inode.size := by
    rw [onyfsBlockSize] at hsize
    rw [u32Size]
    omega
  generalize hn : min len (inode.size - off) = n
  have hoff : off % onyfsBlockSize ≤ off := mod_le off onyfsBlockSize
  -- every block the loop touches is one of the file
  have htouch : ∀ k, 0 < n → k * onyfsBlockSize < off % onyfsBlockSize + n →
      ∃ hk : k < 10, inode.blocks ⟨k, hk⟩ ≠ 0 := by
    intro k hpos hk
    have hlt : k * onyfsBlockSize < inode.size := by omega
    have hk10 : k < 10 := Nat.lt_of_mul_lt_mul_right (lt_of_lt_of_le hlt hsize)
    exact ⟨hk10, hblocks ⟨k, hk10⟩ hlt⟩
  obtain ⟨b, hb⟩ := readLoop_eq (ofFn inode.blocks) off n
    (s.withBuf (s.disk (s.inodeBlock ino))) (by
      intro hpos k hk
      obtain ⟨hk10, hne⟩ := htouch k hpos hk
      rw [List.getD_eq_getElem?_getD, List.getElem?_ofFn, dif_pos hk10]
      exact hne)
  refine ⟨b, ?_⟩
  rw [read, bind_of_ok (readInode_eq ino s)]
  simp only [← hinode, hcap, hn]
  rw [bind_of_ok hb, pure_apply, length_map, length_range, withBuf_withBuf]
  congr 2
  refine map_congr_left fun i hi => ?_
  have hi' : i < n := mem_range.mp hi
  obtain ⟨hk10, hne⟩ := htouch ((off % onyfsBlockSize + i) / onyfsBlockSize) (by omega)
    (lt_of_le_of_lt (div_mul_le_self _ _) (by omega))
  exact s.blocksByte_ofFn inode hk10 hne

/-- The read returns the bytes of the file at the offset asked for: as many as the file has there,
up to `len`. -/
def ReadsFile (s : Fs) (ino off len : ℕ) : Prop :=
  ∃ t, read ino off len s =
    .ok (min len ((s.inodeAt ino).size - off),
      s.fileRange (s.inodeAt ino) off (min len ((s.inodeAt ino).size - off))) t

/-- A read returns the bytes of the file at the offset asked for exactly when the file has the same
bytes there and at the offset modulo the block size. -/
theorem readsFile_iff {s : Fs} {ino : ℕ} (hmap : Mapped (s.inodeAt ino)) (off len : ℕ) :
    ReadsFile s ino off len ↔ ∀ i < min len ((s.inodeAt ino).size - off),
        s.fileByte (s.inodeAt ino) (off % onyfsBlockSize + i) = s.fileByte (s.inodeAt ino) (off + i) := by
  obtain ⟨b, hb⟩ := read_eq hmap off len
  constructor
  · rintro ⟨t, ht⟩ i hi
    rw [hb] at ht
    injection ht with hpair _
    have hlist := (Prod.mk.inj hpair).2
    exact map_eq_map_iff.mp hlist i (mem_range.mpr hi)
  · intro heq
    refine ⟨s.withBuf b, ?_⟩
    rw [hb]
    have hlist : s.fileRange (s.inodeAt ino) (off % onyfsBlockSize)
        (min len ((s.inodeAt ino).size - off)) =
        s.fileRange (s.inodeAt ino) off (min len ((s.inodeAt ino).size - off)) :=
      map_congr_left fun i hi => heq i (mem_range.mp hi)
    rw [hlist]

/-! ### A file of two blocks -/

/-- The inode of a file with the blocks 5 and 6. -/
def twoBlockInode : OnyfsInode where
  mode := 0o100755
  size := 8192
  uid := 0
  gid := 0
  nlink := 1
  blocks := ![5, 6, 0, 0, 0, 0, 0, 0, 0, 0]
  indirect := 0
  doubleIndirect := 0
  crtime := 0
  mtime := 0
  atime := 0
  ctime := 0
  flags := 0
  reserved := 0

/-- A disk with one file, whose first block holds zeros and whose second block holds ones. -/
def twoBlockFs : Fs where
  disk := fun blk => if blk = 3 then (zero _).blit 0 128 twoBlockInode.toBytes
    else if blk = 6 then fun _ => 1 else zero _
  buf := zero _
  sb := { magic := onyfsMagic, blockSize := 4096, totalBlocks := 7, inodeCount := 1,
          inodeTableStart := 3, dataBitmapStart := 2, dataBlocksStart := 5, journalStart := 0,
          journalSize := 0 }
  version := .v2
  journalHead := 0
  jiffies := 0
  writes := []

lemma twoBlockFs_inodeAt : twoBlockFs.inodeAt 1 = twoBlockInode := by
  have hfits : twoBlockInode.Fits := by constructor <;> decide
  have hoff : 0 + 128 ≤ onyfsBlockSize := by decide
  exact fromBytes_view_blit hfits (zero _) hoff

lemma mapped_twoBlockInode : Mapped twoBlockInode := ⟨by decide, by decide⟩

/-- A read inside the first block returns the bytes of the file. -/
theorem readsFile_first_block : Mapped (twoBlockFs.inodeAt 1) ∧ ReadsFile twoBlockFs 1 10 8000 := by
  have hmap : Mapped (twoBlockFs.inodeAt 1) := twoBlockFs_inodeAt ▸ mapped_twoBlockInode
  exact ⟨hmap, (readsFile_iff hmap 10 8000).mpr fun i _ => rfl⟩

/-- A read at the start of the second block returns a byte of the first. -/
theorem not_readsFile_second_block : Mapped (twoBlockFs.inodeAt 1) ∧ ¬ ReadsFile twoBlockFs 1 4096 1 := by
  have hmap : Mapped (twoBlockFs.inodeAt 1) := twoBlockFs_inodeAt ▸ mapped_twoBlockInode
  refine ⟨hmap, ?_⟩
  rintro ⟨t, ht⟩
  injection ht with hpair _
  have hbytes := (Prod.mk.inj hpair).2
  revert hbytes
  decide

end OnyxKernel.Onyxfs
