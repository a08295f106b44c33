import OnyxKernel.Foundation.Buffer

/-!
# The on-disk format of OnyxFS

The superblock, inode and directory entry of `core/src/formats/onyxfs_fmt`, with the byte layouts
their `from_bytes` and `to_bytes` read and write.  A slice of a block is given to these functions as
a memory that starts at the first byte of the slice.  The callers always pass a slice of the full
size, so that the length checks of the source do not fail.
-/

namespace OnyxKernel

open ByteMemory Memory List Function

def onyfsBlockSize : ℕ := 4096

/-- A block of the disk. -/
abbrev Block := Buffer onyfsBlockSize

/-- The number of values of a 32-bit word. -/
def u32Size : ℕ := 2 ^ 32

def onyfsNameMax : ℕ := 32

def onyfsRootIno : ℕ := 1

/-- `ONYFS_DT_DIR`, the mode of a directory. -/
def onyfsDtDir : ℕ := 0o040755

/-- `ONYFS_MAGIC`, the letters `ONY2`. -/
def onyfsMagic : ℕ := 0x32594E4F

/-- `ONYFS_MAGIC_V1`, the letters `ONY1`. -/
def onyfsMagicV1 : ℕ := 0x31594E4F

/-! ### The superblock -/

/-- The superblock. -/
structure OnyfsSuper where
  magic : ℕ
  version : ℕ := 0
  blockSize : ℕ
  totalBlocks : ℕ
  inodeCount : ℕ
  inodeTableStart : ℕ
  dataBitmapStart : ℕ
  dataBlocksStart : ℕ
  rootInode : ℕ := 0
  snapshotAreaStart : ℕ := 0
  snapshotCount : ℕ := 0
  journalStart : ℕ
  journalSize : ℕ
  featureFlags : ℕ := 0
  creationTime : ℕ := 0
  lastMountTime : ℕ := 0
  deriving DecidableEq, Repr

/-- `OnyfsSuper::from_bytes`: a block without one of the two magic numbers has no superblock. -/
def OnyfsSuper.fromBytes (buf : Memory) : Option OnyfsSuper :=
  if buf.load 0 4 ≠ onyfsMagic ∧ buf.load 0 4 ≠ onyfsMagicV1 then none
  else some
    { magic := buf.load 0 4
      version := buf.load 4 4
      blockSize := buf.load 8 4
      totalBlocks := buf.load 12 4
      inodeCount := buf.load 16 4
      inodeTableStart := buf.load 20 4
      dataBitmapStart := buf.load 24 4
      dataBlocksStart := buf.load 28 4
      rootInode := buf.load 32 4
      snapshotAreaStart := buf.load 36 4
      snapshotCount := buf.load 40 4
      journalStart := buf.load 44 4
      journalSize := buf.load 48 4
      featureFlags := buf.load 52 4
      creationTime := buf.load 56 8
      lastMountTime := buf.load 64 8 }

namespace OnyfsSuper

/-- `OnyfsSuper::SIZE`. -/
def byteSize : ℕ := 128

def toBytes (sb : OnyfsSuper) : Memory :=
  let b : Memory := fun _ => 0
  let b := b.store 0 4 sb.magic
  let b := b.store 4 4 sb.version
  let b := b.store 8 4 sb.blockSize
  let b := b.store 12 4 sb.totalBlocks
  let b := b.store 16 4 sb.inodeCount
  let b := b.store 20 4 sb.inodeTableStart
  let b := b.store 24 4 sb.dataBitmapStart
  let b := b.store 28 4 sb.dataBlocksStart
  let b := b.store 32 4 sb.rootInode
  let b := b.store 36 4 sb.snapshotAreaStart
  let b := b.store 40 4 sb.snapshotCount
  let b := b.store 44 4 sb.journalStart
  let b := b.store 48 4 sb.journalSize
  let b := b.store 52 4 sb.featureFlags
  let b := b.store 56 8 sb.creationTime
  b.store 64 8 sb.lastMountTime

end OnyfsSuper

/-! ### Inodes -/

instance neZeroTen : NeZero 10 := ⟨by decide⟩

/-- An inode. -/
@[ext] structure OnyfsInode where
  mode : ℕ
  size : ℕ
  uid : ℕ
  gid : ℕ
  nlink : ℕ
  blocks : Fin 10 → ℕ
  indirect : ℕ
  doubleIndirect : ℕ
  crtime : ℕ
  mtime : ℕ
  atime : ℕ
  ctime : ℕ
  flags : ℕ
  reserved : ℕ

namespace OnyfsInode

/-- `OnyfsInode::from_bytes`.  The layout has no room for `ctime`. -/
def fromBytes (buf : Memory) : OnyfsInode where
  mode := buf.load 0 4
  size := buf.load 8 8
  uid := buf.load 56 4
  gid := buf.load 60 4
  nlink := buf.load 64 4
  blocks := fun i => buf.load (16 + i * 4) 4
  indirect := buf.load 96 4
  doubleIndirect := buf.load 100 4
  crtime := buf.load 104 8
  mtime := buf.load 112 8
  atime := buf.load 120 8
  ctime := 0
  flags := buf.load 68 4
  reserved := buf.load 72 4

/-- The block numbers are stored one after the other. -/
def storeBlocks (blocks : Fin 10 → ℕ) (b : Memory) : Memory :=
  (finRange 10).foldl (fun b (i : Fin 10) => b.store (16 + i * 4) 4 (blocks i)) b

def toBytes (inode : OnyfsInode) : Memory :=
  let b : Memory := fun _ => 0
  let b := b.store 0 4 inode.mode
  let b := b.store 4 4 0
  let b := b.store 8 8 inode.size
  let b := storeBlocks inode.blocks b
  let b := b.store 56 4 inode.uid
  let b := b.store 60 4 inode.gid
  let b := b.store 64 4 inode.nlink
  let b := b.store 68 4 inode.flags
  let b := b.store 72 4 inode.reserved
  let b := b.store 96 4 inode.indirect
  let b := b.store 100 4 inode.doubleIndirect
  let b := b.store 104 8 inode.crtime
  let b := b.store 112 8 inode.mtime
  b.store 120 8 inode.atime

/-- The assignment `inode.blocks[idx] = blk`. -/
def setBlock (inode : OnyfsInode) (idx : Fin 10) (blk : ℕ) : OnyfsInode :=
  { inode with blocks := update inode.blocks idx blk }

lemma setBlock_self (inode : OnyfsInode) (idx : Fin 10) (blk : ℕ) :
    (inode.setBlock idx blk).blocks idx = blk := update_self ..

lemma setBlock_of_ne (inode : OnyfsInode) {idx k : Fin 10} (blk : ℕ) (h : k ≠ idx) :
    (inode.setBlock idx blk).blocks k = inode.blocks k := update_of_ne h ..

/-- The inode of a version 1 file system, which has a 32-bit size and no times. -/
def fromBytesV1 (s : Memory) : OnyfsInode where
  mode := s.load 0 4
  size := s.load 4 4
  uid := 0
  gid := 0
  nlink := 0
  blocks := fun i => s.load (8 + i * 4) 4
  indirect := s.load 48 4
  doubleIndirect := 0
  crtime := 0
  mtime := 0
  atime := 0
  ctime := 0
  flags := 0
  reserved := 0

/-- The fields of an inode have the width of their types. -/
structure Fits (inode : OnyfsInode) : Prop where
  mode : inode.mode < 256 ^ 4
  size : inode.size < 256 ^ 8
  uid : inode.uid < 256 ^ 4
  gid : inode.gid < 256 ^ 4
  nlink : inode.nlink < 256 ^ 4
  blocks : ∀ i, inode.blocks i < 256 ^ 4
  indirect : inode.indirect < 256 ^ 4
  doubleIndirect : inode.doubleIndirect < 256 ^ 4
  crtime : inode.crtime < 256 ^ 8
  mtime : inode.mtime < 256 ^ 8
  atime : inode.atime < 256 ^ 8
  flags : inode.flags < 256 ^ 4
  reserved : inode.reserved < 256 ^ 4

lemma fits_fromBytes (buf : Memory) : (fromBytes buf).Fits where
  mode := buf.load_lt 0 4
  size := buf.load_lt 8 8
  uid := buf.load_lt 56 4
  gid := buf.load_lt 60 4
  nlink := buf.load_lt 64 4
  blocks := fun i => buf.load_lt (16 + i * 4) 4
  indirect := buf.load_lt 96 4
  doubleIndirect := buf.load_lt 100 4
  crtime := buf.load_lt 104 8
  mtime := buf.load_lt 112 8
  atime := buf.load_lt 120 8
  flags := buf.load_lt 68 4
  reserved := buf.load_lt 72 4

lemma load_storeBlocks_of_disjoint (blocks : Fin 10 → ℕ) (b : Memory) {a w : ℕ}
    (h : a + w ≤ 16 ∨ 56 ≤ a) : (storeBlocks blocks b).load a w = b.load a w := by
  unfold storeBlocks
  generalize finRange 10 = l
  induction l generalizing b with
  | nil => rfl
  | cons i l ih =>
    rw [foldl_cons, ih, load_store_of_disjoint (by omega)]

lemma load_storeBlocks {blocks : Fin 10 → ℕ} (h : ∀ i, blocks i < 256 ^ 4) (b : Memory)
    (i : Fin 10) : (storeBlocks blocks b).load (16 + i * 4) 4 = blocks i := by
  -- the stores behind the one of block `i` do not meet it
  have hkeep : ∀ (l : List (Fin 10)) (b : Memory), i ∉ l →
      (l.foldl (fun b (i : Fin 10) => b.store (16 + i * 4) 4 (blocks i)) b).load (16 + i * 4) 4 =
        b.load (16 + i * 4) 4 := by
    intro l
    induction l with
    | nil => intro b _; rfl
    | cons j l ih =>
      intro b hmem
      have hj : (i : ℕ) ≠ j := fun hij => hmem (by simp [Fin.ext hij])
      rw [foldl_cons, ih _ fun hl => hmem (mem_cons_of_mem j hl), load_store_of_disjoint (by omega)]
  obtain ⟨l1, l2, hl⟩ := append_of_mem (mem_finRange i)
  have hnodup : (l1 ++ i :: l2).Nodup := hl ▸ nodup_finRange 10
  have hi : i ∉ l2 := (nodup_cons.mp (nodup_append.mp hnodup).2.1).1
  unfold storeBlocks
  rw [hl, foldl_append, foldl_cons, hkeep l2 _ hi, load_store_same (h i)]

lemma fromBytes_toBytes_blocks {inode : OnyfsInode} (h : ∀ i, inode.blocks i < 256 ^ 4)
    (i : Fin 10) : (fromBytes inode.toBytes).blocks i = inode.blocks i := by
  change inode.toBytes.load (16 + i * 4) 4 = inode.blocks i
  unfold toBytes
  simp (disch := omega) only [load_store_of_disjoint]
  exact load_storeBlocks h _ i

/-- Reading the bytes of an inode gives it back, up to `ctime`, which is not stored. -/
theorem fromBytes_toBytes {inode : OnyfsInode} (h : inode.Fits) :
    fromBytes inode.toBytes = { inode with ctime := 0 } := by
  ext i
  case blocks => exact fromBytes_toBytes_blocks h.blocks i
  all_goals
    simp (disch := omega) only [fromBytes, toBytes, load_store_of_disjoint,
      load_storeBlocks_of_disjoint, load_store_same h.mode, load_store_same h.size,
      load_store_same h.uid, load_store_same h.gid, load_store_same h.nlink,
      load_store_same h.indirect, load_store_same h.doubleIndirect,
      load_store_same h.crtime, load_store_same h.mtime,
      load_store_same h.atime, load_store_same h.flags,
      load_store_same h.reserved]

lemma fromBytes_congr {m m' : Memory} (h : ∀ i < 128, m i = m' i) : fromBytes m = fromBytes m' := by
  have hload : ∀ a w, a + w ≤ 128 → m.load a w = m'.load a w := fun a w haw =>
    load_congr fun i hi => h i (lt_of_lt_of_le hi.2 haw)
  ext i
  case blocks =>
    exact hload _ _ (by omega)
  all_goals first | rfl | exact hload _ _ (by decide)

lemma fromBytes_view_blit_eq (inode : OnyfsInode) (b : Block) {off : ℕ} (hoff : off + 128 ≤ onyfsBlockSize) :
    fromBytes ((b.blit off 128 inode.toBytes).view off) = fromBytes inode.toBytes :=
  fromBytes_congr fun _ hi =>
    Buffer.mem_blit_add (lt_of_lt_of_le (Nat.add_lt_add_left hi off) hoff) hi

lemma fromBytes_view_blit {inode : OnyfsInode} (h : inode.Fits) (b : Block) {off : ℕ}
    (hoff : off + 128 ≤ onyfsBlockSize) :
    fromBytes ((b.blit off 128 inode.toBytes).view off) = { inode with ctime := 0 } := by
  rw [fromBytes_view_blit_eq inode b hoff, fromBytes_toBytes h]

lemma fromBytes_view_blit_of_disjoint (b : Block) {off off' k : ℕ} (src : Memory)
    (h : off + k ≤ off' ∨ off' + 128 ≤ off) :
    fromBytes ((b.blit off k src).view off') = fromBytes (b.view off') := by
  refine fromBytes_congr fun i hi => Buffer.mem_blit_of_notMem ?_
  rintro ⟨hlo, hhi⟩
  omega

end OnyfsInode

/-! ### Directory entries -/

/-- A directory entry. -/
structure OnyfsDirent where
  name : List UInt8
  inode : ℕ
  dtype : UInt8
  nameLen : UInt8
  reserved : UInt8 × UInt8
  deriving DecidableEq, Repr

namespace OnyfsDirent

/-- `OnyfsDirent::SIZE`. -/
def byteSize : ℕ := 40

def fromBytes (buf : Memory) : OnyfsDirent where
  name := (range onyfsNameMax).map buf
  inode := buf.load 32 4
  dtype := buf 36
  nameLen := buf 37
  reserved := (buf 38, buf 39)

def toBytes (d : OnyfsDirent) : Memory :=
  let b : Memory := fun i => if i < onyfsNameMax then d.name.getD i 0 else 0
  let b := b.store 32 4 d.inode
  let b := b.setByte 36 d.dtype
  let b := b.setByte 37 d.nameLen
  let b := b.setByte 38 d.reserved.1
  b.setByte 39 d.reserved.2

/-- The number of bytes of a name before its first NUL, which is all of them if there is none. -/
def nulLen (name : List UInt8) : ℕ := name.findIdx (· == 0)

/-- The entry of a version 1 directory, which has neither a type nor a name length. -/
def fromBytesV1 (s : Memory) : OnyfsDirent :=
  let name := (range onyfsNameMax).map s
  { name := name
    inode := s.load 32 4
    dtype := 0
    nameLen := UInt8.ofNat (nulLen name)
    reserved := (0, 0) }

end OnyfsDirent

end OnyxKernel
