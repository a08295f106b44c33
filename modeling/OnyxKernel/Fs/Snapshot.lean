import OnyxKernel.Fs.Compress
import OnyxKernel.Fs.OwnershipRun

/-!
# Snapshots

`kernel/src/fs/onyxfs/snapshot.rs` and `snapshot_io.rs`, with `persist_superblock` and
`inode_table_block_count` of `mount.rs`.  A snapshot collects the numbers of the blocks of the inode table, of
the data bitmap and of the direct blocks of all inodes in use, at most 31 of them.  Every block is compressed
into a slot of two blocks; a header in front of the slots lists the block numbers and the stored sizes.  The
records of all snapshots stand in the first block of the snapshot area.

The first part translates the functions.  The second says which blocks are collected (`liveBlocks_eq`), and
the third what storing them does to the disk (`storeSlots_spec`).
-/

namespace OnyxKernel.Onyxfs

open ByteMemory KResult List Buffer Nat Function OnyfsSuper Fs

open Elf2onx (rleLoop)

/-! ### The superblock -/

def persistSuperblock : FsM Unit := do
  setBuf ((zero _).blit 0 byteSize (← get).sb.toBytes)
  writeBlock 0 (← get).buf

def Fs.inodeTableBlockCount (s : Fs) : ℕ :=
  if s.sb.inodeCount = 0 then 1
  else (s.sb.inodeCount + s.inodesPerBlock - 1) % u32Size / s.inodesPerBlock

/-! ### Collecting the blocks -/

def snapshotSlots : ℕ := 31

def snapshotSlotBlks : ℕ := 2

def snapshotBlocksEach : ℕ := 64

def onyfsFeatSnapshots : ℕ := 0x2

/-- The size of `comp_buf`. -/
def compBufSize : ℕ := 8192

/-- `push_block!`. -/
def pushBlock (blocks : List ℕ) (b : ℕ) : FsM (List ℕ) :=
  if snapshotSlots ≤ blocks.length then throw .noMem
  else if b ∈ blocks then return blocks
  else return blocks ++ [b]

/-- Push some blocks one after the other. -/
def pushBlocks : List ℕ → List ℕ → FsM (List ℕ)
  | blocks, [] => return blocks
  | blocks, b :: bs => do pushBlocks (← pushBlock blocks b) bs

/-- The blocks of the inode in a slot of a block of the inode table.  The loop over the slots ends at the
first slot that does not fit into the block. -/
def slotBlocks (buf : Block) (slot : ℕ) : List ℕ :=
  if onyfsBlockSize < slot * 128 + 128 then []
  else
    let inode := OnyfsInode.fromBytes (buf.view (slot * 128))
    if inode.mode = 0 then [] else ((finRange 10).map inode.blocks).filter (· ≠ 0)

/-- The block of the inode table with an index. -/
def Fs.tableBlock (s : Fs) (i : ℕ) : ℕ := (s.sb.inodeTableStart + i) % u32Size

/-- Push the blocks of the inodes in some blocks of the inode table. -/
def pushTable : List ℕ → List ℕ → FsM (List ℕ)
  | blocks, [] => return blocks
  | blocks, i :: is => do
    readBuf ((← get).tableBlock i)
    let s ← get
    pushTable (← pushBlocks blocks ((range s.inodesPerBlock).flatMap (slotBlocks s.buf))) is

/-- The blocks that a snapshot stores. -/
def liveBlocks : FsM (List ℕ) := do
  let s ← get
  let inodeTblBlocks := range s.inodeTableBlockCount
  let blocks ← pushBlocks [] (inodeTblBlocks.map s.tableBlock)
  let blocks ← pushBlocks blocks [s.sb.dataBitmapStart]
  pushTable blocks inodeTblBlocks

/-! ### `snapshot_create` -/

/-- `SnapshotMeta`, without its reserved words. -/
structure SnapshotMeta where
  id : ℕ
  timestamp : ℕ
  rootInodeSnapshot : ℕ
  blockCount : ℕ
  name : List UInt8
  parentId : ℕ
  flags : ℕ

namespace SnapshotMeta

/-- `SnapshotMeta::SIZE`. -/
def byteSize : ℕ := 64

def toBytes (m : SnapshotMeta) : Memory :=
  let b : Memory := fun _ => 0
  let b := b.store 0 4 m.id
  let b := b.store 4 8 m.timestamp
  let b := b.store 12 4 m.rootInodeSnapshot
  let b := b.write 16 m.name
  let b := b.store 48 4 m.blockCount
  let b := b.store 52 4 m.parentId
  b.store 56 4 m.flags

end SnapshotMeta

/-- The bytes of a block. -/
def blockBytes (b : Block) : List UInt8 := ofFn b

/-- The block with some bytes. -/
def blockOfBytes (l : List UInt8) : Block := ofMem _ fun i => l.getD i 0

/-- The index of a snapshot, `id - 1` in 32 bits. -/
def snapshotIndex (id : ℕ) : ℕ := (id + (u32Size - 1)) % u32Size

/-- Block `k` of the blocks of a snapshot: its header is block 0, and its slots begin at block 1. -/
def Fs.snapshotBlock (s : Fs) (id k : ℕ) : ℕ :=
  (s.sb.snapshotAreaStart + 1 + snapshotIndex id * snapshotBlocksEach + k) % u32Size

/-- Compress a block and store it in slot `i` of a snapshot; the result is the stored size. -/
def storeSlot (id i blk : ℕ) (compBuf : Buffer compBufSize) : FsM (ℕ × Buffer compBufSize) := do
  let blkBuf ← readBlock blk
  let comp := rleCompress (blockBytes blkBuf) compBufSize
  let compBuf := compBuf.blit 0 comp.2.length fun k => comp.2.getD k 0
  let stored :=
    if comp.1 = 0 ∨ compBufSize < comp.1 then (onyfsBlockSize, compBuf.blit 0 onyfsBlockSize blkBuf.mem)
    else (comp.1, compBuf)
  let s ← get
  writeBlock (s.snapshotBlock id (1 + i * snapshotSlotBlks)) (ofMem _ stored.2.mem)
  writeBlock (s.snapshotBlock id (1 + i * snapshotSlotBlks + 1)) (ofMem _ (stored.2.view onyfsBlockSize))
  return stored

/-- Store blocks in the slots of a snapshot, from slot `i` on; the result are the entries of the header. -/
def storeSlots (id : ℕ) : ℕ → List ℕ → Buffer compBufSize → FsM (List (ℕ × ℕ))
  | _, [], _ => return []
  | i, blk :: blks, compBuf => do
    let stored ← storeSlot id i blk compBuf
    let entries ← storeSlots id (i + 1) blks stored.2
    return (blk, stored.1) :: entries

/-- Write entries of the header, from entry `i` on. -/
def headerEntries : ℕ → List (ℕ × ℕ) → Block → Block
  | _, [], b => b
  | i, e :: es, b => headerEntries (i + 1) es ((b.store (4 + i * 8) 4 e.1).store (4 + i * 8 + 4) 4 e.2)

/-- The header of a snapshot. -/
def snapshotHeader (entries : List (ℕ × ℕ)) : Block :=
  headerEntries 0 entries ((zero _).store 0 4 entries.length)

/-- The name of a snapshot, of 32 bytes. -/
def snapshotName (name : List UInt8) : List UInt8 := name.take 32 ++ replicate (32 - name.length) 0

/-- The number of the next snapshot. -/
def Fs.nextSnapshot (s : Fs) : ℕ := (s.sb.snapshotCount + 1) % u32Size

/-- The record of the next snapshot, of `nBlocks` blocks. -/
def Fs.snapshotRecord (s : Fs) (name : List UInt8) (nBlocks : ℕ) : SnapshotMeta where
  id := s.nextSnapshot
  timestamp := s.jiffies.toNat
  rootInodeSnapshot := s.sb.rootInode
  blockCount := nBlocks
  name := snapshotName name
  parentId := 0
  flags := 0

/-- The assignment `G_SB.snapshot_count = n`. -/
def Fs.withCount (s : Fs) (n : ℕ) : Fs := { s with sb := { s.sb with snapshotCount := n } }

def snapshotCreate (name : List UInt8) : FsM ℕ := do
  let s ← get
  if s.sb.snapshotAreaStart = 0 ∨ s.sb.featureFlags &&& onyfsFeatSnapshots = 0 then throw .noSys
  else
    let newId := s.nextSnapshot
    let blocks ← liveBlocks
    let entries ← storeSlots newId 0 blocks (zero _)
    writeBlock (s.snapshotBlock newId 0) (snapshotHeader entries)
    readBuf s.sb.snapshotAreaStart
    let metaOff := snapshotIndex newId * SnapshotMeta.byteSize
    if onyfsBlockSize < metaOff + SnapshotMeta.byteSize then throw .noMem
    else
      setBuf ((← get).buf.blit metaOff SnapshotMeta.byteSize (s.snapshotRecord name blocks.length).toBytes)
      writeBlock s.sb.snapshotAreaStart (← get).buf
      modify fun s => s.withCount newId
      persistSuperblock
      return newId

/-! ### `snapshot_rollback` -/

/-- The contents of `comp_buf` after both blocks of a slot have been read. -/
def joinBlocks (lo hi : Block) : Memory := fun k =>
  if k < onyfsBlockSize then lo.mem k else hi.mem (k - onyfsBlockSize)

/-- The block that a slot with a stored size stands for.  A size above the size of `comp_buf`, which
`snapshot_create` does not write, stops the kernel; here it is an error as well. -/
def readSlot (lo hi : Block) (compSize : ℕ) : Option Block :=
  if compSize = onyfsBlockSize then some lo
  else if compBufSize < compSize then none
  else
    let dec := rleDecompress ((range compSize).map (joinBlocks lo hi)) onyfsBlockSize
    if dec.1 = onyfsBlockSize then some (blockOfBytes dec.2) else none

/-- Restore slot `i` of a snapshot. -/
def restoreSlot (id : ℕ) (header : Block) (i : ℕ) : FsM Unit := do
  let s ← get
  let lo ← readBlock (s.snapshotBlock id (1 + i * snapshotSlotBlks))
  let hi ← readBlock (s.snapshotBlock id (1 + i * snapshotSlotBlks + 1))
  match readSlot lo hi (header.mem.load (4 + i * 8 + 4) 4) with
  | none => throw .io
  | some out => writeBlock (header.mem.load (4 + i * 8) 4) out

/-- Restore the slots of a snapshot from slot `i` on; the first number counts the slots that are left. -/
def restoreSlots (id : ℕ) (header : Block) : ℕ → ℕ → FsM Unit
  | 0, _ => return ()
  | n + 1, i => do
    restoreSlot id header i
    restoreSlots id header n (i + 1)

def snapshotRollback (snapshotId : ℕ) : FsM Unit := do
  let s ← get
  if s.sb.snapshotAreaStart = 0 then throw .noSys
  else if snapshotId = 0 ∨ s.sb.snapshotCount < snapshotId then throw .noEnt
  else
    let header ← readBlock (s.snapshotBlock snapshotId 0)
    let nBlocks := header.mem.load 0 4
    if snapshotSlots < nBlocks then throw .io
    else restoreSlots snapshotId header nBlocks 0

variable {s t : Fs} {id : ℕ}

/-! ### Which blocks are collected -/

/-- The blocks that `snapshot_create` pushes, in its order: the inode table, the data bitmap, and the direct
blocks of the inodes in use. -/
def Fs.pushedBlocks (s : Fs) : List ℕ :=
  (range s.inodeTableBlockCount).map s.tableBlock ++ [s.sb.dataBitmapStart] ++
    (range s.inodeTableBlockCount).flatMap fun i =>
      (range s.inodesPerBlock).flatMap (slotBlocks (s.disk (s.tableBlock i)))

/-- What pushing blocks gives: nothing when there is a push with all slots in use. -/
def pushAll : List ℕ → List ℕ → Option (List ℕ)
  | blocks, [] => some blocks
  | blocks, b :: bs =>
    if snapshotSlots ≤ blocks.length then none else pushAll (if b ∈ blocks then blocks else blocks ++ [b]) bs

/-- The outcome of a function that collects blocks. -/
def collected (r : Option (List ℕ)) (s : Fs) : EStateM.Result Errno Fs (List ℕ) :=
  match r with
  | none => .error .noMem s
  | some blocks => .ok blocks s

lemma pushBlocks_eq (blocks bs : List ℕ) (s : Fs) : pushBlocks blocks bs s = collected (pushAll blocks bs) s := by
  induction bs generalizing blocks with
  | nil => rfl
  | cons b bs ih =>
    rw [pushBlocks, pushAll, pushBlock]
    split_ifs with hfull hmem
    · rfl
    · exact ih blocks
    · exact ih (blocks ++ [b])

lemma pushAll_append (blocks bs cs : List ℕ) :
    pushAll blocks (bs ++ cs) = (pushAll blocks bs).bind fun blocks => pushAll blocks cs := by
  induction bs generalizing blocks with
  | nil => rfl
  | cons b bs ih =>
    rw [cons_append, pushAll, pushAll]
    split
    · rfl
    · exact ih _

lemma collected_bind {f : FsM (List ℕ)} {g : List ℕ → FsM (List ℕ)} {r : Option (List ℕ)}
    {r' : List ℕ → Option (List ℕ)} {b : Block} (hf : f s = collected r (s.withBuf b))
    (hg : ∀ blocks, ∃ b', g blocks (s.withBuf b) = collected (r' blocks) (s.withBuf b')) :
    ∃ b', (f >>= g) s = collected (r.bind r') (s.withBuf b') := by
  cases r with
  | none => exact ⟨b, bind_of_error hf⟩
  | some blocks =>
    obtain ⟨b', hb'⟩ := hg blocks
    exact ⟨b', (bind_of_ok hf).trans hb'⟩

lemma pushTable_eq (blocks is : List ℕ) (s : Fs) : ∃ b, pushTable blocks is s =
    collected (pushAll blocks (is.flatMap fun i =>
      (range s.inodesPerBlock).flatMap (slotBlocks (s.disk (s.tableBlock i))))) (s.withBuf b) := by
  induction is generalizing blocks s with
  | nil => exact ⟨s.buf, rfl⟩
  | cons i is ih =>
    rw [pushTable, get_bind, readBuf_bind, get_bind, flatMap_cons, pushAll_append]
    obtain ⟨b, hb⟩ := collected_bind (pushBlocks_eq blocks _ (s.withBuf (s.disk (s.tableBlock i)))) (b := (s.disk (s.tableBlock i)))
      fun blocks => ih blocks _
    exact ⟨b, hb⟩

lemma liveBlocks_eq (s : Fs) : ∃ b, liveBlocks s = collected (pushAll [] s.pushedBlocks) (s.withBuf b) := by
  rw [liveBlocks, get_bind, pushedBlocks, append_assoc, pushAll_append]
  refine collected_bind (b := s.buf) (pushBlocks_eq _ _ _) fun blocks => ?_
  rw [pushAll_append]
  exact collected_bind (b := s.buf) (pushBlocks_eq _ _ _) fun blocks => pushTable_eq blocks _ _

lemma pushAll_eq_some {blocks bs l : List ℕ} (hnodup : blocks.Nodup) (hlen : blocks.length ≤ snapshotSlots)
    (h : pushAll blocks bs = some l) :
    l.Nodup ∧ l.length ≤ snapshotSlots ∧ ∀ b, b ∈ l ↔ b ∈ blocks ∨ b ∈ bs := by
  induction bs generalizing blocks with
  | nil =>
    cases h
    exact ⟨hnodup, hlen, fun b => by simp⟩
  | cons c bs ih =>
    rw [pushAll] at h
    split at h
    · cases h
    by_cases hmem : c ∈ blocks
    · rw [if_pos hmem] at h
      obtain ⟨hl, hl', hiff⟩ := ih hnodup hlen h
      refine ⟨hl, hl', fun b => (hiff b).trans ?_⟩
      rw [mem_cons]
      refine ⟨fun hb => hb.imp_right .inr, ?_⟩
      rintro (hb | rfl | hb)
      exacts [.inl hb, .inl hmem, .inr hb]
    · rw [if_neg hmem] at h
      have hnodup' : (blocks ++ [c]).Nodup :=
        (perm_append_singleton _ _).nodup_iff.mpr (nodup_cons.mpr ⟨hmem, hnodup⟩)
      obtain ⟨hl, hl', hiff⟩ := ih hnodup' (by rw [length_append, length_singleton]; omega) h
      refine ⟨hl, hl', fun b => (hiff b).trans ?_⟩
      rw [mem_append, mem_singleton, mem_cons, or_assoc]

lemma pushAll_eq_none_iff {blocks bs : List ℕ} (hnodup : blocks.Nodup) (hne : bs ≠ []) :
    pushAll blocks bs = none ↔ snapshotSlots ≤ (blocks ++ bs.dropLast).toFinset.card := by
  induction bs generalizing blocks with
  | nil => exact absurd rfl hne
  | cons c bs ih =>
    have hcard := toFinset_card_of_nodup hnodup
    rw [pushAll]
    have hmono : blocks.toFinset.card ≤ (blocks ++ (c :: bs).dropLast).toFinset.card :=
      Finset.card_le_card (by rw [toFinset_append]; exact Finset.subset_union_left)
    by_cases hfull : snapshotSlots ≤ blocks.length
    · rw [if_pos hfull]
      exact ⟨fun _ => by omega, fun _ => rfl⟩
    rw [if_neg hfull]
    cases bs with
    | nil =>
      simp only [pushAll, dropLast_singleton, append_nil, hcard, hfull, reduceCtorEq]
    | cons d bs =>
      have hstep : ∀ blocks', blocks'.Nodup → blocks'.toFinset = insert c blocks.toFinset →
          (pushAll blocks' (d :: bs) = none ↔ snapshotSlots ≤ (blocks ++ (c :: d :: bs).dropLast).toFinset.card) := by
        intro blocks' hn heq
        rw [ih hn (cons_ne_nil d bs), dropLast_cons_cons, toFinset_append, toFinset_append, heq,
          toFinset_cons, Finset.insert_union, Finset.union_insert]
      by_cases hmem : c ∈ blocks
      · rw [if_pos hmem]
        exact hstep blocks hnodup (Finset.insert_eq_of_mem (mem_toFinset.mpr hmem)).symm
      · rw [if_neg hmem]
        refine hstep _ ((perm_append_singleton _ _).nodup_iff.mpr (nodup_cons.mpr ⟨hmem, hnodup⟩)) ?_
        rw [toFinset_append, Finset.union_comm]
        rfl

/-! ### What a slot holds -/

/-- The size with which a block is stored. -/
def storedSize (b : Block) : ℕ := (rleLoop (blockBytes b)).length

/-- What `snapshot_rollback` makes of a stored block: a compressed form of the size of a block is taken for a
block that is stored as it is. -/
def restored (b : Block) : Block := if storedSize b = onyfsBlockSize then blockOfBytes (rleLoop (blockBytes b)) else b

lemma length_blockBytes (b : Block) : (blockBytes b).length = onyfsBlockSize := length_ofFn

lemma blockOfBytes_apply (l : List UInt8) (i : Fin onyfsBlockSize) : blockOfBytes l i = l.getD i.val 0 := rfl

lemma blockOfBytes_blockBytes (b : Block) : blockOfBytes (blockBytes b) = b := by
  funext i
  have hi : i.val < (ofFn b).length := by
    rw [length_ofFn]
    exact i.isLt
  rw [blockOfBytes_apply, blockBytes, List.getD_eq_getElem _ _ hi, List.getElem_ofFn]

lemma blockBytes_blockOfBytes {l : List UInt8} (h : l.length = onyfsBlockSize) : blockBytes (blockOfBytes l) = l := by
  refine ext_getElem ((length_blockBytes _).trans h.symm) fun i hi hi' => ?_
  simp only [blockBytes]
  rw [List.getElem_ofFn, blockOfBytes_apply, List.getD_eq_getElem _ _ hi']

lemma storedSize_bounds (b : Block) : 0 < storedSize b ∧ storedSize b ≤ compBufSize := by
  have hlen := length_blockBytes b
  refine ⟨Elf2onx.length_rleLoop_pos (length_pos_iff.mp (hlen ▸ by decide)), ?_⟩
  have hle := (Elf2onx.length_rleLoop_le (blockBytes b)).1
  rw [hlen] at hle
  exact hle.trans (by decide)

lemma restored_eq_iff (b : Block) : restored b = b ↔ storedSize b ≠ onyfsBlockSize := by
  unfold restored
  split_ifs with hsize
  · refine ⟨fun heq => ?_, fun h => absurd hsize h⟩
    have hbytes := congrArg blockBytes heq
    rw [blockBytes_blockOfBytes hsize] at hbytes
    refine absurd hbytes (rleLoop_ne_self (length_pos_iff.mp ?_))
    rw [length_blockBytes]
    decide
  · exact ⟨fun _ => hsize, fun _ => rfl⟩

/-- Slot `i` of a snapshot holds the compressed form of a block. -/
def Fs.SlotHolds (s : Fs) (id i : ℕ) (b : Block) : Prop :=
  (range (storedSize b)).map (joinBlocks (s.disk (s.snapshotBlock id (1 + i * snapshotSlotBlks)))
    (s.disk (s.snapshotBlock id (1 + i * snapshotSlotBlks + 1)))) = rleLoop (blockBytes b)

lemma Fs.SlotHolds.readSlot {i : ℕ} {b : Block} (h : s.SlotHolds id i b) :
    readSlot (s.disk (s.snapshotBlock id (1 + i * snapshotSlotBlks)))
      (s.disk (s.snapshotBlock id (1 + i * snapshotSlotBlks + 1))) (storedSize b) = some (restored b) := by
  have hround := rleDecompress_rleLoop (blockBytes b)
  rw [length_blockBytes] at hround
  unfold Onyxfs.readSlot restored
  by_cases hsize : storedSize b = onyfsBlockSize
  · rw [if_pos hsize, if_pos hsize]
    congr 1
    funext k
    have hk : k.val < (rleLoop (blockBytes b)).length := k.isLt.trans_eq hsize.symm
    have hbyte : (rleLoop (blockBytes b))[k.val] = _ := getElem_of_eq h.symm hk
    rw [getElem_map, getElem_range, joinBlocks, if_pos k.isLt] at hbyte
    rw [blockOfBytes_apply, getD_eq_getElem _ _ hk, hbyte, mem, dif_pos k.isLt]
  · rw [if_neg hsize, if_neg hsize, if_neg (not_lt.mpr (storedSize_bounds b).2), h, hround]
    simp only [if_true, blockOfBytes_blockBytes]

/-! ### Storing blocks -/

lemma Fs.snapshotBlock_congr (h : t.sb.snapshotAreaStart = s.sb.snapshotAreaStart) (id k : ℕ) :
    t.snapshotBlock id k = s.snapshotBlock id k := by
  rw [snapshotBlock, snapshotBlock, h]

lemma Fs.snapshotBlock_inj {k k' : ℕ} (hk : k < snapshotBlocksEach) (hk' : k' < snapshotBlocksEach)
    (h : s.snapshotBlock id k = s.snapshotBlock id k') : k = k' := by
  unfold snapshotBlock at h
  unfold snapshotBlocksEach u32Size at *
  omega

/-- A block of `n` slots of a snapshot, from slot `i` on. -/
def Fs.InSlots (s : Fs) (id i n x : ℕ) : Prop :=
  ∃ k, 1 + i * snapshotSlotBlks ≤ k ∧ k < 1 + (i + n) * snapshotSlotBlks ∧ x = s.snapshotBlock id k

lemma Fs.InSlots.mono {i n i' n' x : ℕ} (h : s.InSlots id i n x) (hi : i' ≤ i) (hn : i + n ≤ i' + n') :
    s.InSlots id i' n' x := by
  obtain ⟨k, hlo, hhi, rfl⟩ := h
  unfold snapshotSlotBlks at *
  exact ⟨k, by unfold snapshotSlotBlks; omega, by unfold snapshotSlotBlks; omega, rfl⟩

lemma storeSlot_eq (id i blk : ℕ) (compBuf : Buffer compBufSize) (s : Fs) :
    ∃ compBuf' : Buffer compBufSize, storeSlot id i blk compBuf s = .ok (storedSize (s.disk blk), compBuf')
      ((s.put (s.snapshotBlock id (1 + i * snapshotSlotBlks)) (ofMem _ compBuf'.mem)).put
        (s.snapshotBlock id (1 + i * snapshotSlotBlks + 1)) (ofMem _ (compBuf'.view onyfsBlockSize))) ∧
      (range (storedSize (s.disk blk))).map (joinBlocks (ofMem _ compBuf'.mem)
        (ofMem _ (compBuf'.view onyfsBlockSize))) = rleLoop (blockBytes (s.disk blk)) := by
  obtain ⟨hpos, hle⟩ := storedSize_bounds (s.disk blk)
  have hcomp : rleCompress (blockBytes (s.disk blk)) compBufSize =
      (storedSize (s.disk blk), rleLoop (blockBytes (s.disk blk))) := by
    rw [rleCompress, rleCompressLoop_eq (by rw [length_nil, zero_add]; exact hle), length_nil,
      zero_add, nil_append]
    rfl
  have hfits : ¬(storedSize (s.disk blk) = 0 ∨ compBufSize < storedSize (s.disk blk)) := by omega
  refine ⟨compBuf.blit 0 (rleLoop (blockBytes (s.disk blk))).length fun k =>
    (rleLoop (blockBytes (s.disk blk))).getD k 0, ?_, ?_⟩
  · rw [storeSlot, readBlock_bind, hcomp]
    simp only [if_neg hfits]
    rfl
  · refine ext_getElem (by rw [length_map, length_range]; rfl) fun k hk hk' => ?_
    have hbuf : k < compBufSize := hk'.trans_le hle
    have hbyte : (compBuf.blit 0 (rleLoop (blockBytes (s.disk blk))).length fun k =>
        (rleLoop (blockBytes (s.disk blk))).getD k 0).mem k = (rleLoop (blockBytes (s.disk blk)))[k] := by
      rw [mem_blit hbuf, if_pos ⟨zero_le _, by omega⟩]
      exact getD_eq_getElem _ _ hk'
    rw [getElem_map, getElem_range, joinBlocks, ← hbyte]
    split_ifs with hlo
    · exact mem_ofMem hlo
    · have hhi : k - onyfsBlockSize < onyfsBlockSize := by
        unfold compBufSize at hbuf
        unfold onyfsBlockSize at *
        omega
      rw [mem_ofMem hhi, view, Nat.add_sub_cancel' (Nat.not_lt.mp hlo)]

/-- What storing blocks does: it writes their slots, and the slots hold them unless a block of the slots is
stored itself. -/
structure StoredSlots (s : Fs) (id i : ℕ) (blks : List ℕ) (entries : List (ℕ × ℕ)) (t : Fs) : Prop where
  sb_eq : t.sb = s.sb
  version_eq : t.version = s.version
  fst_eq : entries.map Prod.fst = blks
  writes_eq : ∃ ws, t.writes = s.writes ++ ws ∧ ∀ w ∈ ws, s.InSlots id i blks.length w.1
  disk_eq : ∀ x, ¬s.InSlots id i blks.length x → t.disk x = s.disk x
  holds : i + blks.length ≤ snapshotSlots → (∀ b ∈ blks, ¬s.InSlots id i blks.length b) →
    entries = blks.map (fun b => (b, storedSize (s.disk b))) ∧
      ∀ j b, blks[j]? = some b → t.SlotHolds id (i + j) (s.disk b)

lemma storeSlots_spec (id i : ℕ) (blks : List ℕ) (compBuf : Buffer compBufSize) (s : Fs) :
    ∃ entries t, storeSlots id i blks compBuf s = .ok entries t ∧ StoredSlots s id i blks entries t := by
  induction blks generalizing i compBuf s with
  | nil =>
    exact ⟨[], s, rfl, rfl, rfl, rfl, ⟨[], (append_nil _).symm, fun w hw => absurd hw not_mem_nil⟩,
      fun _ _ => rfl, fun _ _ => ⟨rfl, fun j b hj => by simp at hj⟩⟩
  | cons blk blks ih =>
    obtain ⟨compBuf', hstore, hbytes⟩ := storeSlot_eq id i blk compBuf s
    obtain ⟨s1, hs1⟩ : ∃ s1, s1 = (s.put (s.snapshotBlock id (1 + i * snapshotSlotBlks)) (ofMem _ compBuf'.mem)).put
        (s.snapshotBlock id (1 + i * snapshotSlotBlks + 1)) (ofMem _ (compBuf'.view onyfsBlockSize)) := ⟨_, rfl⟩
    rw [← hs1] at hstore
    obtain ⟨entries, t, hrest, hst⟩ := ih (i + 1) compBuf' s1
    have hsb : s1.sb = s.sb := by rw [hs1]; rfl
    have hblock : ∀ k, s1.snapshotBlock id k = s.snapshotBlock id k :=
      snapshotBlock_congr (congrArg snapshotAreaStart hsb) id
    have hlater : ∀ x, s1.InSlots id (i + 1) blks.length x → s.InSlots id i (blk :: blks).length x := by
      rintro x ⟨k, hlo, hhi, rfl⟩
      rw [length_cons]
      exact ⟨k, by unfold snapshotSlotBlks at *; omega, by unfold snapshotSlotBlks at *; omega, hblock k⟩
    have hfirst : s.InSlots id i (blk :: blks).length (s.snapshotBlock id (1 + i * snapshotSlotBlks)) :=
      ⟨_, le_rfl, by rw [length_cons]; unfold snapshotSlotBlks; omega, rfl⟩
    have hsecond : s.InSlots id i (blk :: blks).length (s.snapshotBlock id (1 + i * snapshotSlotBlks + 1)) :=
      ⟨_, le_succ _, by rw [length_cons]; unfold snapshotSlotBlks; omega, rfl⟩
    have hdisk : ∀ x, ¬s.InSlots id i (blk :: blks).length x → s1.disk x = s.disk x := by
      intro x hx
      rw [hs1]
      have hx1 : x ≠ s.snapshotBlock id (1 + i * snapshotSlotBlks) := fun h => hx (h ▸ hfirst)
      have hx2 : x ≠ s.snapshotBlock id (1 + i * snapshotSlotBlks + 1) := fun h => hx (h ▸ hsecond)
      exact (update_of_ne hx2 ..).trans (update_of_ne hx1 ..)
    refine ⟨(blk, storedSize (s.disk blk)) :: entries, t, ?_, hst.sb_eq.trans hsb, hst.version_eq.trans (by rw [hs1]; rfl), ?_, ?_, ?_, ?_⟩
    · rw [storeSlots, bind_of_ok hstore, bind_of_ok hrest]
      rfl
    · rw [map_cons, hst.fst_eq]
    · obtain ⟨ws, hws, hall⟩ := hst.writes_eq
      have hws1 : s1.writes = s.writes ++ [(s.snapshotBlock id (1 + i * snapshotSlotBlks), ofMem _ compBuf'.mem),
          (s.snapshotBlock id (1 + i * snapshotSlotBlks + 1), ofMem _ (compBuf'.view onyfsBlockSize))] := by
        rw [hs1]
        exact append_assoc ..
      refine ⟨_, by rw [hws, hws1, append_assoc], fun w hw => ?_⟩
      rcases mem_append.mp hw with hw | hw
      · simp only [mem_cons, not_mem_nil, or_false] at hw
        rcases hw with rfl | rfl
        exacts [hfirst, hsecond]
      · exact hlater _ (hall w hw)
    · intro x hx
      rw [hst.disk_eq x fun h => hx (hlater x h), hdisk x hx]
    · intro hroom hout
      rw [length_cons] at hroom
      have hsame : ∀ b ∈ blks, s1.disk b = s.disk b := fun b hb => hdisk b (hout b (mem_cons_of_mem blk hb))
      obtain ⟨hentries, hholds⟩ := hst.holds (by omega) fun b hb h => hout b (mem_cons_of_mem blk hb) (hlater b h)
      refine ⟨?_, fun j b hj => ?_⟩
      · rw [map_cons, hentries, map_congr_left fun b hb => by rw [hsame b hb]]
      cases j with
      | succ j =>
        have := hholds j b hj
        rw [hsame b (mem_of_getElem? hj)] at this
        rwa [show i + (j + 1) = i + 1 + j by omega]
      | zero =>
        -- the later slots are other blocks
        obtain rfl : blk = b := Option.some.inj hj
        have hkeep : ∀ k, 1 + i * snapshotSlotBlks ≤ k → k < 1 + (i + 1) * snapshotSlotBlks →
            t.disk (s.snapshotBlock id k) = s1.disk (s.snapshotBlock id k) := by
          intro k hlo hhi
          refine hst.disk_eq _ ?_
          rintro ⟨k', hlo', hhi', heq⟩
          rw [hblock] at heq
          unfold snapshotSlotBlks snapshotSlots at *
          have := snapshotBlock_inj (by unfold snapshotBlocksEach; omega) (by unfold snapshotBlocksEach; omega) heq
          omega
        have hne : s.snapshotBlock id (1 + i * snapshotSlotBlks) ≠ s.snapshotBlock id (1 + i * snapshotSlotBlks + 1) := by
          intro heq
          unfold snapshotSlotBlks snapshotSlots at *
          have := snapshotBlock_inj (by unfold snapshotBlocksEach; omega) (by unfold snapshotBlocksEach; omega) heq
          omega
        have hlo := hkeep (1 + i * snapshotSlotBlks) le_rfl (by unfold snapshotSlotBlks; omega)
        have hhi := hkeep (1 + i * snapshotSlotBlks + 1) (le_succ _) (by unfold snapshotSlotBlks; omega)
        have hblock' := snapshotBlock_congr (congrArg snapshotAreaStart (hst.sb_eq.trans hsb)) id
        rw [Fs.SlotHolds, add_zero, hblock', hblock', hlo, hhi, hs1]
        refine Eq.trans ?_ hbytes
        congr 2
        · exact (update_of_ne hne ..).trans (update_self ..)
        · exact update_self ..

/-! ### The outcome of `snapshot_create` -/

/-- The block of a superblock. -/
def superBlock (sb : OnyfsSuper) : Block := (zero _).blit 0 byteSize sb.toBytes

lemma persistSuperblock_eq (s : Fs) :
    persistSuperblock s = .ok () ((s.withBuf (superBlock s.sb)).put 0 (superBlock s.sb)) := rfl

/-- `snapshot_create` has been switched on. -/
def Fs.HasSnapshots (s : Fs) : Prop :=
  ¬(s.sb.snapshotAreaStart = 0 ∨ s.sb.featureFlags &&& onyfsFeatSnapshots = 0)

/-- There is a record for the next snapshot in the first block of the snapshot area. -/
def Fs.HasRecord (s : Fs) : Prop :=
  snapshotIndex s.nextSnapshot * SnapshotMeta.byteSize + SnapshotMeta.byteSize ≤ onyfsBlockSize

/-- The state after a snapshot has been written behind `t`, with `m` for the block of the records. -/
def Fs.finishSnapshot (s t : Fs) (entries : List (ℕ × ℕ)) (m : Block) : Fs :=
  let u := ((t.put (s.snapshotBlock s.nextSnapshot 0) (snapshotHeader entries)).withBuf m).put s.sb.snapshotAreaStart m
  let v := u.withCount s.nextSnapshot
  (v.withBuf (superBlock v.sb)).put 0 (superBlock v.sb)

lemma snapshotCreate_of_none (name : List UInt8) (h : s.HasSnapshots → pushAll [] s.pushedBlocks = none) :
    ∃ e b, snapshotCreate name s = .error e (s.withBuf b) := by
  by_cases hs : s.HasSnapshots
  · obtain ⟨b, hb⟩ := liveBlocks_eq s
    rw [h hs] at hb
    refine ⟨.noMem, b, ?_⟩
    rw [snapshotCreate, get_bind, if_neg hs]
    exact bind_of_error hb
  · refine ⟨.noSys, s.buf, ?_⟩
    rw [snapshotCreate, get_bind, if_pos (not_not.mp hs)]
    rfl

lemma snapshotCreate_of_some (name : List UInt8) (hs : s.HasSnapshots) {blocks : List ℕ}
    (h : pushAll [] s.pushedBlocks = some blocks) :
    ∃ entries t, StoredSlots s s.nextSnapshot 0 blocks entries t ∧
      (¬s.HasRecord → ∃ e b, snapshotCreate name s =
        .error e ((t.put (s.snapshotBlock s.nextSnapshot 0) (snapshotHeader entries)).withBuf b)) ∧
      (s.HasRecord → ∃ m, snapshotCreate name s = .ok s.nextSnapshot (s.finishSnapshot t entries m)) := by
  obtain ⟨b, hb⟩ := liveBlocks_eq s
  rw [h] at hb
  obtain ⟨entries, t, hstore, hst⟩ := storeSlots_spec s.nextSnapshot 0 blocks (zero _) (s.withBuf b)
  have hst' : StoredSlots s s.nextSnapshot 0 blocks entries t :=
    ⟨hst.sb_eq, hst.version_eq, hst.fst_eq, hst.writes_eq, hst.disk_eq, hst.holds⟩
  refine ⟨entries, t, hst', fun hrec => ?_, fun hrec => ?_⟩
  · refine ⟨.noMem, (t.put (s.snapshotBlock s.nextSnapshot 0) (snapshotHeader entries)).disk s.sb.snapshotAreaStart, ?_⟩
    rw [snapshotCreate, get_bind, if_neg hs, bind_of_ok hb]
    refine (bind_of_ok hstore).trans ?_
    rw [writeBlock_bind, readBuf_bind, if_pos (not_le.mp hrec)]
    rfl
  · refine ⟨((t.put (s.snapshotBlock s.nextSnapshot 0) (snapshotHeader entries)).disk s.sb.snapshotAreaStart).blit
      (snapshotIndex s.nextSnapshot * SnapshotMeta.byteSize) SnapshotMeta.byteSize
      (s.snapshotRecord name blocks.length).toBytes, ?_⟩
    rw [snapshotCreate, get_bind, if_neg hs, bind_of_ok hb]
    refine (bind_of_ok hstore).trans ?_
    rw [writeBlock_bind, readBuf_bind, if_neg (not_lt.mpr hrec), get_bind, setBuf_bind, get_bind,
      writeBlock_bind, modify_bind, bind_of_ok (persistSuperblock_eq _), pure_apply]
    rw [finishSnapshot, withBuf_withBuf, withBuf_buf, withBuf_buf]

end OnyxKernel.Onyxfs
