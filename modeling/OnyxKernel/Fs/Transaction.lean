import OnyxKernel.Fs.Read

/-!
# Logged writes

The driver changes the disk in one way: it appends the new contents of a block to the journal and
then writes the block in place.  This file says what such a logged write does to the state, what the
areas of a version 2 disk are, and what the functions built on logged writes do: writing an inode,
taking a bit of a bitmap, committing.
-/

namespace OnyxKernel

open ByteMemory KResult Bitmap Nat Function OnyfsInode Buffer

/-! ### The areas of a disk -/

namespace OnyfsSuper

/-- `inode_table_block_count` of a version 2 file system. -/
def tableBlocks (sb : OnyfsSuper) : ℕ := if sb.inodeCount = 0 then 1 else (sb.inodeCount + 31) / 32

/-- A block of the inode table. -/
def InTable (sb : OnyfsSuper) (blk : ℕ) : Prop :=
  sb.inodeTableStart ≤ blk ∧ blk < sb.inodeTableStart + sb.tableBlocks

/-- A block of the journal. -/
def InJournal (sb : OnyfsSuper) (blk : ℕ) : Prop :=
  sb.journalStart ≤ blk ∧ blk < sb.journalStart + sb.journalSize

/-- A block of the data area. -/
def InData (sb : OnyfsSuper) (blk : ℕ) : Prop :=
  sb.dataBlocksStart ≤ blk ∧ blk < sb.totalBlocks

/-- The number of an inode of the table. -/
def IsInode (sb : OnyfsSuper) (ino : ℕ) : Prop := 0 < ino ∧ ino ≤ sb.inodeCount

/-- An inode number whose slot lies in a block of the inode table. -/
def HasSlot (sb : OnyfsSuper) (ino : ℕ) : Prop := (ino - 1) / 32 < sb.tableBlocks

/-- The disk has a journal, whose blocks have 32-bit numbers. -/
structure HasJournal (sb : OnyfsSuper) : Prop where
  journalStart_pos : 0 < sb.journalStart
  journalSize_pos : 0 < sb.journalSize
  journal_end : sb.journalStart + sb.journalSize ≤ u32Size

/-- The areas of a disk with a journal of at least 32 slots: they do not overlap and their blocks
have 32-bit numbers. -/
structure Layout (sb : OnyfsSuper) : Prop extends HasJournal sb where
  journalSize_ge : 32 ≤ sb.journalSize
  table_end : sb.inodeTableStart + sb.tableBlocks ≤ u32Size
  data_end : sb.totalBlocks ≤ u32Size
  dataStart_pos : 0 < sb.dataBlocksStart
  table_journal : ∀ blk, sb.InTable blk → ¬ sb.InJournal blk
  data_journal : ∀ blk, sb.InData blk → ¬ sb.InJournal blk
  data_table : ∀ blk, sb.InData blk → ¬ sb.InTable blk
  bitmap_journal : ¬ sb.InJournal sb.dataBitmapStart
  bitmap_table : ¬ sb.InTable sb.dataBitmapStart
  bitmap_data : ¬ sb.InData sb.dataBitmapStart

lemma HasJournal.zero_notMem {sb : OnyfsSuper} (h : sb.HasJournal) : ¬sb.InJournal 0 := fun hin =>
  absurd hin.1 (not_le.mpr h.journalStart_pos)

lemma IsInode.pred_ne {sb : OnyfsSuper} {ino ino' : ℕ} (h : sb.IsInode ino) (h' : sb.IsInode ino')
    (hne : ino' ≠ ino) : ino' - 1 ≠ ino - 1 := by
  have hpos := h.1
  have hpos' := h'.1
  omega

lemma IsInode.hasSlot {sb : OnyfsSuper} {ino : ℕ} (h : sb.IsInode ino) : sb.HasSlot ino := by
  obtain ⟨hpos, hle⟩ := h
  have hcount : sb.inodeCount ≠ 0 := by omega
  rw [HasSlot, tableBlocks, if_neg hcount]
  omega

end OnyfsSuper

namespace Onyxfs

variable {s : Fs} {blk slot ino : ℕ} {b : Block}

/-! ### A logged write -/

/-- The state after `b` has been logged for the block `blk` and written to it, through `G_BUF`. -/
def Fs.logged (s : Fs) (blk : ℕ) (b : Block) : Fs :=
  let t := (s.withBuf b).put (s.journalBlock s.journalHead) (blockWriteEntry blk b)
  { t.put blk b with journalHead := s.journalHead + 1 }

/-- The journal has room for another entry. -/
def Fs.JournalReady (s : Fs) : Prop := ¬ s.noJournal ∧ s.journalHead < s.sb.journalSize

lemma Fs.journalReady (hl : s.sb.HasJournal) (h : s.journalHead < s.sb.journalSize) : s.JournalReady := by
  refine ⟨?_, h⟩
  rintro (hstart | hsize)
  · exact hl.journalStart_pos.ne' hstart
  · exact absurd (hsize ▸ h) (not_lt_zero _)

lemma logBuf_eq (h : s.JournalReady) (b : Block) : logBuf blk (s.withBuf b) = .ok () (s.logged blk b) := by
  have hlog : journalLog blk b (s.withBuf b) =
      .ok () { (s.withBuf b).put (s.journalBlock s.journalHead) (blockWriteEntry blk b) with
        journalHead := s.journalHead + 1 } := by
    have hj : ¬ (s.withBuf b).noJournal := h.1
    have hroom : ¬ (s.withBuf b).sb.journalSize ≤ (s.withBuf b).journalHead := not_le.mpr h.2
    rw [journalLog, get_bind, if_neg hj, if_neg hroom]
    rfl
  rw [logBuf, get_bind, Fs.withBuf_buf, bind_of_ok hlog]
  rfl

lemma logBuf_of_noJournal (h : s.noJournal) (blk : ℕ) : logBuf blk s = .ok () (s.put blk s.buf) := by
  have hlog : journalLog blk s.buf s = .ok () s := by
    rw [journalLog, get_bind, if_pos h]
    rfl
  rw [logBuf, get_bind, bind_of_ok hlog]
  rfl

lemma logBuf_of_full (h : ¬s.noJournal) (hfull : s.sb.journalSize ≤ s.journalHead) (blk : ℕ) :
    logBuf blk s = .error .noSpace s := by
  have hlog : journalLog blk s.buf s = .error .noSpace s := by
    rw [journalLog, get_bind, if_neg h, if_pos hfull]
    rfl
  rw [logBuf, get_bind, bind_of_error hlog]

@[simp] lemma Fs.logged_sb : (s.logged blk b).sb = s.sb := rfl

@[simp] lemma Fs.logged_version : (s.logged blk b).version = s.version := rfl

@[simp] lemma Fs.logged_jiffies : (s.logged blk b).jiffies = s.jiffies := rfl

@[simp] lemma Fs.logged_journalHead : (s.logged blk b).journalHead = s.journalHead + 1 := rfl

@[simp] lemma Fs.withBuf_logged (a : Block) : (s.withBuf a).logged blk b = s.logged blk b := rfl

@[simp] lemma Fs.logged_disk_self : (s.logged blk b).disk blk = b :=
  update_self ..

lemma Fs.logged_disk_of_ne {x : ℕ} (hx : x ≠ blk) (hj : x ≠ s.journalBlock s.journalHead) :
    (s.logged blk b).disk x = s.disk x :=
  (update_of_ne hx ..).trans (update_of_ne hj ..)

lemma Fs.inJournal_journalBlock (hl : s.sb.HasJournal) (hslot : slot < s.sb.journalSize) :
    s.journalBlock slot = s.sb.journalStart + slot ∧ s.sb.InJournal (s.journalBlock slot) := by
  have hend := hl.journal_end
  have heq : s.journalBlock slot = s.sb.journalStart + slot := mod_eq_of_lt (by omega)
  rw [heq]
  exact ⟨rfl, Nat.le_add_right _ _, Nat.add_lt_add_left hslot _⟩

lemma Fs.logged_disk (hl : s.sb.HasJournal) (h : s.journalHead < s.sb.journalSize) {x : ℕ}
    (hx : x ≠ blk) (hj : ¬ s.sb.InJournal x) : (s.logged blk b).disk x = s.disk x :=
  logged_disk_of_ne hx fun heq => hj (heq ▸ (inJournal_journalBlock hl h).2)

/-! ### Committing -/

/-- The state after a commit. -/
def Fs.committed (s : Fs) : Fs :=
  { s.put (s.journalBlock s.journalHead) commitEndEntry with journalHead := 0 }

lemma journalCommit_eq (h : s.JournalReady) (hpos : s.journalHead ≠ 0) :
    journalCommit s = .ok () s.committed := by
  rw [journalCommit, get_bind, if_neg h.1, if_neg hpos, if_pos h.2]
  rfl

lemma journalCommit_outcome (s : Fs) : journalCommit s = .ok () s ∨
    s.JournalReady ∧ journalCommit s = .ok () s.committed ∨ journalCommit s = .ok () { s with journalHead := 0 } := by
  by_cases hno : s.noJournal
  · exact .inl (by rw [journalCommit, get_bind, if_pos hno]; rfl)
  by_cases hzero : s.journalHead = 0
  · exact .inl (by rw [journalCommit, get_bind, if_neg hno, if_pos hzero]; rfl)
  by_cases hroom : s.journalHead < s.sb.journalSize
  · exact .inr (.inl ⟨⟨hno, hroom⟩, journalCommit_eq ⟨hno, hroom⟩ hzero⟩)
  · exact .inr (.inr (by rw [journalCommit, get_bind, if_neg hno, if_neg hzero, if_neg hroom]; rfl))

lemma Fs.committed_disk (hl : s.sb.HasJournal) (h : s.journalHead < s.sb.journalSize) {x : ℕ}
    (hj : ¬ s.sb.InJournal x) : s.committed.disk x = s.disk x := by
  have hx : x ≠ s.journalBlock s.journalHead :=
    fun heq => hj (heq ▸ (inJournal_journalBlock hl h).2)
  exact update_of_ne hx ..

/-! ### Inodes -/

lemma Fs.inTable_of_hasSlot (hend : s.sb.inodeTableStart + s.sb.tableBlocks ≤ u32Size)
    (hv : s.version = .v2) (hslot : s.sb.HasSlot ino) :
    s.inodeBlock ino = s.sb.inodeTableStart + (ino - 1) / 32 ∧ s.sb.InTable (s.inodeBlock ino) := by
  have hipb : s.inodesPerBlock = 32 := by simp [Fs.inodesPerBlock, hv]
  have hidx : (ino - 1) / 32 < s.sb.tableBlocks := hslot
  have heq : s.inodeBlock ino = s.sb.inodeTableStart + (ino - 1) / 32 := by
    rw [Fs.inodeBlock, hipb]
    exact mod_eq_of_lt (by omega)
  rw [heq]
  exact ⟨rfl, Nat.le_add_right _ _, Nat.add_lt_add_left hidx _⟩

lemma Fs.inTable_inodeBlock (hl : s.sb.Layout) (hv : s.version = .v2) (hino : s.sb.IsInode ino) :
    s.inodeBlock ino = s.sb.inodeTableStart + (ino - 1) / 32 ∧ s.sb.InTable (s.inodeBlock ino) :=
  inTable_of_hasSlot hl.table_end hv hino.hasSlot

lemma Fs.inodeSlot_v2 (hv : s.version = .v2) : s.inodeSlot ino = (ino - 1) % 32 := by
  simp [Fs.inodeSlot, Fs.inodesPerBlock, hv]

lemma Fs.inodeAt_v2 (hv : s.version = .v2) : s.inodeAt ino =
    fromBytes ((s.disk (s.inodeBlock ino)).view (s.inodeSlot ino * 128)) := by
  simp [Fs.inodeAt, hv]

/-- The contents of the block of an inode with the inode written to its slot. -/
def Fs.withInode (s : Fs) (ino : ℕ) (inode : OnyfsInode) : Block :=
  (s.disk (s.inodeBlock ino)).blit (s.inodeSlot ino * 128) 128 inode.toBytes

section

variable {t : Fs} {inode : OnyfsInode} (hv : s.version = .v2) (hver : t.version = s.version) (hsb : t.sb = s.sb)
  (hself : t.disk (s.inodeBlock ino) = s.withInode ino inode)
include hv hver hsb hself

lemma Fs.inodeAt_written : t.inodeAt ino = fromBytes inode.toBytes := by
  have hoff : s.inodeSlot ino * 128 + 128 ≤ onyfsBlockSize := by
    rw [inodeSlot_v2 hv, onyfsBlockSize]
    omega
  rw [inodeAt_v2 (hver.trans hv), inodeBlock_congr hver hsb, inodeSlot_congr hver, hself, withInode,
    fromBytes_view_blit_eq inode _ hoff]

lemma Fs.inodeAt_written_of_ne {ino' : ℕ} (hend : s.sb.inodeTableStart + s.sb.tableBlocks ≤ u32Size)
    (hslot : s.sb.HasSlot ino) (hslot' : s.sb.HasSlot ino') (hne : ino' - 1 ≠ ino - 1)
    (hdisk : s.inodeBlock ino' ≠ s.inodeBlock ino → t.disk (s.inodeBlock ino') = s.disk (s.inodeBlock ino')) :
    t.inodeAt ino' = s.inodeAt ino' := by
  by_cases hsame : s.inodeBlock ino' = s.inodeBlock ino
  · -- two inodes of one block have different slots
    rw [inodeAt_v2 (hver.trans hv), inodeAt_v2 hv, inodeBlock_congr hver hsb, inodeSlot_congr hver, hsame, hself]
    refine fromBytes_view_blit_of_disjoint _ _ ?_
    rw [(inTable_of_hasSlot hend hv hslot').1, (inTable_of_hasSlot hend hv hslot).1] at hsame
    rw [inodeSlot_v2 hv, inodeSlot_v2 hv]
    omega
  · exact inodeAt_congr hver hsb (hdisk hsame)

end

lemma writeInode_eq (hv : s.version = .v2) (h : s.JournalReady) (inode : OnyfsInode) :
    writeInode ino inode s = .ok () (s.logged (s.inodeBlock ino) (s.withInode ino inode)) := by
  have hv1 : s.version ≠ .v1 := by simp [hv]
  have hslot : ∀ b, (s.withBuf b).inodeSlot ino = s.inodeSlot ino := fun _ => rfl
  rw [writeInode, get_bind, if_neg hv1, get_bind, readBuf_bind, get_bind,
    setBuf_bind, Fs.withBuf_withBuf, Fs.withBuf_buf, hslot]
  exact logBuf_eq h (s.withInode ino inode)

/-! ### Bitmaps -/

/-- Bit `i` of a bitmap block. -/
def Fs.bit (s : Fs) (bmBlk i : ℕ) : Bool := test (s.disk bmBlk).mem 0 i

/-- The number of bits of a bitmap block. -/
def bitsPerBlock : ℕ := onyfsBlockSize * 8

lemma Fs.lt_of_bit {i : ℕ} (h : s.bit blk i = true) : i < bitsPerBlock := by
  by_contra hle
  have hmem : (s.disk blk).mem (0 + i / 8) = 0 := by
    apply mem_of_le
    rw [bitsPerBlock] at hle
    omega
  rw [Fs.bit, test, hmem, getBit_eq_testBit _ (mod_lt i (by decide))] at h
  simp at h

/-- A bitmap block with one more bit set. -/
def Fs.withBit (s : Fs) (bmBlk i : ℕ) : Block := ofMem _ (set (s.disk bmBlk).mem 0 i)

lemma test_withBit {i : ℕ} (hi : i < bitsPerBlock) (j : ℕ) :
    test (s.withBit blk i).mem 0 j = if j = i then true else s.bit blk j := by
  rw [Fs.bit, ← test_set]
  refine test_congr ?_
  by_cases hj : 0 + j / 8 < onyfsBlockSize
  · exact mem_ofMem hj
  · have hne : 0 + j / 8 ≠ 0 + i / 8 := by
      rw [bitsPerBlock] at hi
      omega
    rw [mem_of_le (not_lt.mp hj), set_apply_of_ne hne, mem_of_le (not_lt.mp hj)]

lemma allocBit_of_clear (h : s.JournalReady) (hfree : 0 < clearCount (s.bit blk) bitsPerBlock) :
    ∃ i < bitsPerBlock, s.bit blk i = false ∧
      allocBit blk s = .ok i (s.logged blk (s.withBit blk i)) := by
  cases hfind : findClear (s.disk blk).mem onyfsBlockSize 0 with
  | none =>
    have hall : clearCount (s.bit blk) bitsPerBlock = 0 :=
      clearCount_eq_zero_iff.mpr fun i hi =>
        findClear_eq_none hfind (by omega) (by rw [zero_add]; exact hi)
    exact absurd hall hfree.ne'
  | some i =>
    obtain ⟨hclear, hlt⟩ := findClear_eq_some hfind
    refine ⟨i, hlt, hclear, ?_⟩
    rw [allocBit, readBuf_bind, get_bind]
    simp only [Fs.withBuf_buf, hfind]
    rw [setBuf_bind, Fs.withBuf_withBuf, bind_of_ok (logBuf_eq h _)]
    rfl

end Onyxfs

end OnyxKernel
