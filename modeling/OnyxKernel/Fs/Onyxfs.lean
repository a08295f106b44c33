import OnyxKernel.Core.Errno
import OnyxKernel.Foundation.Bitmap
import OnyxKernel.Fs.Format

/-!
# The OnyxFS driver

The file system driver of `kernel/src/fs/onyxfs`: blocks and the journal, inodes, the two bitmaps,
directory entries, path lookup, and the operations on top of them.  Block devices are error free:
`read_block` and `write_block` succeed.  The state keeps, next to the contents of the disk and the
driver's globals, the list of the block writes issued so far; a crash cuts this list short.

Numbers of 32 bits are natural numbers here, reduced modulo `u32Size` where a sum could wrap.
-/

namespace OnyxKernel.Onyxfs

open ByteMemory Buffer

/-- The version of a mounted file system, `G_VERSION`. -/
inductive Version where
  | unmounted | v1 | v2
  deriving DecidableEq, Repr

/-- The disk and the globals of the driver. -/
structure Fs where
  /-- The contents of the disk. -/
  disk : ℕ → Block
  /-- `G_BUF`, the block buffer shared by all functions. -/
  buf : Block
  /-- `G_SB`. -/
  sb : OnyfsSuper
  /-- `G_VERSION`. -/
  version : Version
  /-- `G_JOURNAL_HEAD`, the next free journal slot. -/
  journalHead : ℕ
  /-- `timer::G_JIFFIES`. -/
  jiffies : UInt64
  /-- The block writes issued so far, oldest first. -/
  writes : List (ℕ × Block)

/-- A function of the driver. -/
abbrev FsM := KResult Fs

/-! ### Blocks -/

def readBlock (blk : ℕ) : FsM Block := fun s => .ok (s.disk blk) s

/-- The state after an assignment to `G_BUF`. -/
def Fs.withBuf (s : Fs) (b : Block) : Fs := { s with buf := b }

/-- `read_block` into `G_BUF`. -/
def readBuf (blk : ℕ) : FsM Unit := fun s => .ok () (s.withBuf (s.disk blk))

/-- Assign to `G_BUF`. -/
def setBuf (b : Block) : FsM Unit := fun s => .ok () (s.withBuf b)

/-- The state after a block write. -/
def Fs.put (s : Fs) (blk : ℕ) (b : Block) : Fs :=
  { s with disk := Function.update s.disk blk b, writes := s.writes ++ [(blk, b)] }

def writeBlock (blk : ℕ) (b : Block) : FsM Unit := fun s => .ok () (s.put blk b)

@[simp] lemma Fs.withBuf_buf (s : Fs) (b : Block) : (s.withBuf b).buf = b := rfl

@[simp] lemma Fs.withBuf_disk (s : Fs) (b : Block) : (s.withBuf b).disk = s.disk := rfl

@[simp] lemma Fs.withBuf_sb (s : Fs) (b : Block) : (s.withBuf b).sb = s.sb := rfl

@[simp] lemma Fs.withBuf_version (s : Fs) (b : Block) : (s.withBuf b).version = s.version := rfl

@[simp] lemma Fs.withBuf_withBuf (s : Fs) (a b : Block) : (s.withBuf a).withBuf b = s.withBuf b := rfl

section

variable {β : Type} (s : Fs) (k : Unit → FsM β) (blk : ℕ) (b : Block)

@[simp] lemma readBlock_bind (k : Block → FsM β) : (readBlock blk >>= k) s = k (s.disk blk) s := rfl

@[simp] lemma readBuf_bind : (readBuf blk >>= k) s = k () (s.withBuf (s.disk blk)) := rfl

@[simp] lemma setBuf_bind : (setBuf b >>= k) s = k () (s.withBuf b) := rfl

@[simp] lemma writeBlock_bind : (writeBlock blk b >>= k) s = k () (s.put blk b) := rfl

end

def Fs.inodesPerBlock (s : Fs) : ℕ := if s.version = .v1 then 64 else 32

def Fs.direntsPerBlock (s : Fs) : ℕ := if s.version = .v1 then 113 else 102

/-- The size of a directory entry. -/
def Fs.entrySize (s : Fs) : ℕ := if s.version = .v1 then 36 else OnyfsDirent.byteSize

/-! ### The journal -/

/-- `JOURNAL_DATA_SIZE`, the bytes of a block that a journal entry holds. -/
def journalDataSize : ℕ := onyfsBlockSize - 8

/-- A `block_write` entry: its type, the block number, and all but the last bytes of the block. -/
def blockWriteEntry (blockNum : ℕ) (data : Block) : Block :=
  (((zero _).store 0 4 1).store 4 4 blockNum).blit 8 journalDataSize data.mem

/-- A `commit_end` entry. -/
def commitEndEntry : Block := (zero _).store 0 4 2

/-- The file system has no journal. -/
def Fs.noJournal (s : Fs) : Prop := s.sb.journalStart = 0 ∨ s.sb.journalSize = 0

instance (s : Fs) : Decidable s.noJournal := inferInstanceAs (Decidable (_ ∨ _))

/-- The block of a journal slot. -/
def Fs.journalBlock (s : Fs) (slot : ℕ) : ℕ := (s.sb.journalStart + slot) % u32Size

def journalLog (blockNum : ℕ) (data : Block) : FsM Unit := do
  let s ← get
  if s.noJournal then return ()
  else
    let head := s.journalHead
    if s.sb.journalSize ≤ head then throw .noSpace
    else
      writeBlock (s.journalBlock head) (blockWriteEntry blockNum data)
      modify fun s => { s with journalHead := head + 1 }

def journalCommit : FsM Unit := do
  let s ← get
  if s.noJournal then return ()
  else
    let head := s.journalHead
    if head = 0 then return ()
    else
      if head < s.sb.journalSize then
        writeBlock (s.journalBlock head) commitEndEntry
      modify fun s => { s with journalHead := 0 }

/-- The pair of calls `journal_log(blk, G_BUF)` and `write_block(blk, G_BUF)`, with which the driver
writes a block. -/
def logBuf (blk : ℕ) : FsM Unit := do
  journalLog blk (← get).buf
  writeBlock blk (← get).buf

/-- The scan of `journal_recover` from slot `i` on, with `fuel` slots left: the slot of the first
`commit_end` entry.  An entry of an unknown type ends the scan. -/
def Fs.findCommit (s : Fs) : ℕ → ℕ → Option ℕ
  | 0, _ => none
  | fuel + 1, i =>
    let entryType := (s.disk (s.journalBlock i)).mem.load 0 4
    if entryType = 2 then some i
    else if entryType = 0 ∨ entryType = 1 then s.findCommit fuel (i + 1)
    else none

/-- Replay the entry of slot `j`: the bytes it does not hold keep their contents on the disk. -/
def Fs.replaySlot (s : Fs) (j : ℕ) : Fs :=
  let entry := s.disk (s.journalBlock j)
  if entry.mem.load 0 4 = 1 then
    let blockNum := entry.mem.load 4 4
    s.put blockNum ((s.disk blockNum).blit 0 journalDataSize (entry.view 8))
  else s

/-- Write zeros to slot `j`. -/
def Fs.zeroSlot (s : Fs) (j : ℕ) : Fs := s.put (s.journalBlock j) (zero _)

def journalRecover : FsM Unit := do
  let s ← get
  if s.noJournal then return ()
  else match s.findCommit s.sb.journalSize 0 with
    | none => modify fun s => { s with journalHead := 0 }
    | some commitAt =>
      modify fun s => (List.range commitAt).foldl Fs.replaySlot s
      modify fun s => (List.range (commitAt + 1)).foldl Fs.zeroSlot s
      modify fun s => { s with journalHead := 0 }

def mount : FsM Unit := do
  readBuf 0
  match OnyfsSuper.fromBytes (← get).buf.mem with
  | none => throw .inval
  | some sb =>
    if sb.blockSize ≠ onyfsBlockSize then throw .inval
    else if sb.magic = onyfsMagic then
      modify fun s => { s with version := .v2, sb := sb }
      journalRecover
    else if sb.magic = onyfsMagicV1 then
      modify fun s => { s with version := .v1, sb := sb }
      journalRecover
    else throw .inval

/-! ### Inodes -/

/-- The block of the inode table that holds an inode. -/
def Fs.inodeBlock (s : Fs) (ino : ℕ) : ℕ :=
  (s.sb.inodeTableStart + (ino - 1) / s.inodesPerBlock) % u32Size

/-- The slot of an inode in its block. -/
def Fs.inodeSlot (s : Fs) (ino : ℕ) : ℕ := (ino - 1) % s.inodesPerBlock

def readInode (ino : ℕ) : FsM OnyfsInode := do
  readBuf ((← get).inodeBlock ino)
  let s ← get
  if s.version = .v1 then
    let off := s.inodeSlot ino * 64
    if onyfsBlockSize < off + 64 then throw .inval
    else return OnyfsInode.fromBytesV1 (s.buf.view off)
  else
    let off := s.inodeSlot ino * 128
    if onyfsBlockSize < off + 128 then throw .inval
    else return OnyfsInode.fromBytes (s.buf.view off)

def writeInode (ino : ℕ) (inode : OnyfsInode) : FsM Unit := do
  if (← get).version = .v1 then throw .noSys
  else
    let blk := (← get).inodeBlock ino
    readBuf blk
    let s ← get
    setBuf (s.buf.blit (s.inodeSlot ino * 128) 128 inode.toBytes)
    logBuf blk

structure OnyfsStat where
  ino : ℕ
  size : ℕ
  mode : ℕ
  mtime : ℕ
  atime : ℕ
  ctime : ℕ

def stat (ino : ℕ) : FsM OnyfsStat := do
  let inode ← readInode ino
  return { ino := ino, size := inode.size, mode := inode.mode, mtime := inode.mtime,
           atime := inode.atime, ctime := inode.ctime }

/-! ### The bitmaps -/

/-- Find, set and write back the first clear bit of a bitmap block. -/
def allocBit (bmBlk : ℕ) : FsM ℕ := do
  readBuf bmBlk
  let b := (← get).buf
  match Bitmap.findClear b.mem onyfsBlockSize 0 with
  | none => throw .noSpace
  | some bitIndex =>
    setBuf (ofMem _ (Bitmap.set b.mem 0 bitIndex))
    logBuf bmBlk
    return bitIndex

def allocDataBlock : FsM ℕ := do
  let bitIndex ← allocBit (← get).sb.dataBitmapStart
  return ((← get).sb.dataBlocksStart + bitIndex) % u32Size

/-- `alloc_inode`; the inode bitmap is block 1. -/
def allocInode : FsM ℕ := do
  let bitIndex ← allocBit 1
  return bitIndex + 1

end OnyxKernel.Onyxfs
