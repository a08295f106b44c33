import OnyxKernel.Fs.Sound

/-!
# Ownership of data blocks

Every block number in the inode table occurs there once and has its bit set in the data bitmap.  All
operations keep this, whether they succeed or fail: a block enters the table only after it was taken from
the bitmap, and the areas of the disk are apart from each other, so that a write to one of them does not
change another.

An operation changes the inodes and the blocks of the files it works on only.  `Frame X s0 s` says this for
a set `X` of inode numbers, and is kept by every function that works on inodes in `X`.
-/

namespace OnyxKernel

open ByteMemory Triple KResult OnyfsInode Function List Nat

namespace OnyfsSuper

/-- A block of the journal, if there is a journal. -/
def InLog (sb : OnyfsSuper) (blk : ℕ) : Prop := sb.journalStart ≠ 0 ∧ sb.InJournal blk

/-- The areas of a version 2 disk: they lie inside the disk, apart from each other and from the data
area. -/
structure Apart (sb : OnyfsSuper) : Prop where
  total_le : sb.totalBlocks ≤ u32Size
  poolStart_pos : 0 < sb.dataBlocksStart
  inodeBitmap_lt : 1 < sb.totalBlocks
  bitmap_lt : sb.dataBitmapStart < sb.totalBlocks
  table_end : sb.inodeTableStart + sb.tableBlocks ≤ sb.totalBlocks
  log_end : ∀ blk, sb.InLog blk → blk < sb.totalBlocks
  inodeBitmap_data : ¬sb.InData 1
  bitmap_data : ¬sb.InData sb.dataBitmapStart
  table_data : ∀ blk, sb.InTable blk → ¬sb.InData blk
  log_data : ∀ blk, sb.InLog blk → ¬sb.InData blk
  inodeBitmap_bitmap : 1 ≠ sb.dataBitmapStart
  inodeBitmap_table : ¬sb.InTable 1
  bitmap_table : ¬sb.InTable sb.dataBitmapStart
  bitmap_log : ¬sb.InLog sb.dataBitmapStart
  table_log : ∀ blk, sb.InTable blk → ¬sb.InLog blk

variable {sb : OnyfsSuper} {blk : ℕ}

lemma Apart.not_inPool (h : blk < sb.totalBlocks) (hdata : ¬sb.InData blk) : ¬sb.InPool blk :=
  fun hpool => hdata ⟨hpool.1, h⟩

section

variable (h : sb.Apart) (hpool : sb.InPool blk)
include h hpool

lemma Apart.pool_bitmap : blk ≠ sb.dataBitmapStart := by
  rintro rfl
  exact not_inPool h.bitmap_lt h.bitmap_data hpool

lemma Apart.pool_table : ¬sb.InTable blk := fun htable =>
  not_inPool (htable.2.trans_le h.table_end) (h.table_data blk htable) hpool

lemma Apart.pool_log : ¬sb.InLog blk := fun hlog =>
  not_inPool (h.log_end blk hlog) (h.log_data blk hlog) hpool

lemma Apart.pool_inodeBitmap : blk ≠ 1 := by
  rintro rfl
  exact not_inPool h.inodeBitmap_lt h.inodeBitmap_data hpool

end

end OnyfsSuper

namespace Onyxfs

variable {s s0 t : Fs} {blk ino : ℕ} {b : Block} {inode : OnyfsInode}

/-! ### One write -/

/-- The block `blk` has been written; of the others, only blocks of the journal may have changed. -/
structure WroteBlock (s : Fs) (blk : ℕ) (b : Block) (t : Fs) : Prop where
  sb_eq : t.sb = s.sb
  version_eq : t.version = s.version
  disk_self : t.disk blk = b
  disk_ne : ∀ x, x ≠ blk → ¬s.sb.InLog x → t.disk x = s.disk x
  writes_eq : ∃ ws, t.writes = s.writes ++ ws ∧ (blk, b) ∈ ws

lemma inLog_journalBlock (h : s.sb.Apart) (hready : s.JournalReady) :
    s.sb.InLog (s.journalBlock s.journalHead) := by
  have hin : s.sb.InLog (s.sb.journalStart + s.journalHead) :=
    ⟨fun hzero => hready.1 (.inl hzero), Nat.le_add_right _ _, Nat.add_lt_add_left hready.2 _⟩
  rwa [Fs.journalBlock, mod_eq_of_lt ((h.log_end _ hin).trans_le h.total_le)]

lemma logBuf_cases (h : s.sb.Apart) (blk : ℕ) :
    (∃ e, logBuf blk s = .error e s) ∨ ∃ t, logBuf blk s = .ok () t ∧ WroteBlock s blk s.buf t := by
  by_cases hno : s.noJournal
  · -- without a journal the block is written directly
    exact .inr ⟨_, logBuf_of_noJournal hno blk, rfl, rfl, update_self ..,
      fun x hx _ => update_of_ne hx .., [(blk, s.buf)], rfl, mem_singleton_self _⟩
  by_cases hroom : s.journalHead < s.sb.journalSize
  · refine .inr ⟨s.logged blk s.buf, logBuf_eq (s := s) ⟨hno, hroom⟩ s.buf, rfl, rfl,
      Fs.logged_disk_self, fun x hx hlog => Fs.logged_disk_of_ne hx ?_,
      [(s.journalBlock s.journalHead, blockWriteEntry blk s.buf), (blk, s.buf)], append_assoc .., by simp⟩
    rintro rfl
    exact hlog (inLog_journalBlock h ⟨hno, hroom⟩)
  · exact .inl ⟨.noSpace, logBuf_of_full hno (not_lt.mp hroom) blk⟩

namespace WroteBlock

section

variable (hw : WroteBlock s blk b t)
include hw

lemma inodeAt_eq (h : s.sb.Apart) (hv : s.version = .v2) (hblk : ¬s.sb.InTable blk)
    (hino : s.sb.IsInode ino) : t.inodeAt ino = s.inodeAt ino := by
  have hin := (Fs.inTable_of_hasSlot (h.table_end.trans h.total_le) hv hino.hasSlot).2
  refine Fs.inodeAt_congr hw.version_eq hw.sb_eq (hw.disk_ne _ ?_ (h.table_log _ hin))
  rintro rfl
  exact hblk hin

lemma bit_eq (h : s.sb.Apart) (hblk : blk ≠ s.sb.dataBitmapStart) (i : ℕ) :
    t.bit t.sb.dataBitmapStart i = s.bit s.sb.dataBitmapStart i := by
  rw [Fs.bit, Fs.bit, hw.sb_eq, hw.disk_ne _ hblk.symm h.bitmap_log]

end

lemma of_withBuf {a : Block} (hw : WroteBlock (s.withBuf a) blk b t) : WroteBlock s blk b t :=
  ⟨hw.sb_eq, hw.version_eq, hw.disk_self, hw.disk_ne, hw.writes_eq⟩

lemma writes_append (hw : WroteBlock s blk b t) (h : ∃ ws, s.writes = s0.writes ++ ws) :
    ∃ ws, t.writes = s0.writes ++ ws := by
  obtain ⟨ws, hws⟩ := h
  obtain ⟨ws', hws', -⟩ := hw.writes_eq
  exact ⟨ws ++ ws', by rw [hws', hws, append_assoc]⟩

lemma bit_set {i : ℕ} (hw : WroteBlock s s.sb.dataBitmapStart (s.withBit s.sb.dataBitmapStart i) t)
    (hi : i < bitsPerBlock) (j : ℕ) :
    t.bit t.sb.dataBitmapStart j = if j = i then true else s.bit s.sb.dataBitmapStart j := by
  rw [Fs.bit, hw.sb_eq, hw.disk_self]
  exact test_withBit hi j

lemma inodeAt_self (hw : WroteBlock s (s.inodeBlock ino) (s.withInode ino inode) t) (hv : s.version = .v2) :
    t.inodeAt ino = fromBytes inode.toBytes :=
  Fs.inodeAt_written hv hw.version_eq hw.sb_eq hw.disk_self

lemma inodeAt_of_ne {ino' : ℕ} (hw : WroteBlock s (s.inodeBlock ino) (s.withInode ino inode) t)
    (h : s.sb.Apart) (hv : s.version = .v2) (hino : s.sb.IsInode ino) (hino' : s.sb.IsInode ino')
    (hne : ino' ≠ ino) : t.inodeAt ino' = s.inodeAt ino' := by
  have htable := h.table_end.trans h.total_le
  refine Fs.inodeAt_written_of_ne hv hw.version_eq hw.sb_eq hw.disk_self htable hino.hasSlot hino'.hasSlot
    (hino.pred_ne hino' hne) fun hsame => ?_
  exact hw.disk_ne _ hsame (h.table_log _ (Fs.inTable_of_hasSlot htable hv hino'.hasSlot).2)

end WroteBlock

/-! ### Owners -/

/-- The block is a data block whose bit is set in the data bitmap. -/
def Fs.Allocated (s : Fs) (blk : ℕ) : Prop :=
  ∃ i, blk = s.sb.dataBlocksStart + i ∧ s.bit s.sb.dataBitmapStart i = true

lemma Fs.Allocated.inPool (h : s.Allocated blk) : s.sb.InPool blk := by
  obtain ⟨i, rfl, hbit⟩ := h
  exact ⟨Nat.le_add_right _ _, Nat.add_lt_add_left (Fs.lt_of_bit hbit) _⟩

lemma Fs.Allocated.of_bits (h : s.Allocated blk) (hsb : t.sb = s.sb)
    (hbits : ∀ i, s.bit s.sb.dataBitmapStart i = true → t.bit t.sb.dataBitmapStart i = true) :
    t.Allocated blk := by
  obtain ⟨i, rfl, hbit⟩ := h
  exact ⟨i, by rw [hsb], hbits i hbit⟩

/-- No block number occurs twice in the inode table, and every block number there has its bit set. -/
structure Owned (s : Fs) : Prop where
  allocated : ∀ ino, s.sb.IsInode ino → ∀ k, (s.inodeAt ino).blocks k ≠ 0 →
    s.Allocated ((s.inodeAt ino).blocks k)
  unshared : ∀ ino ino', s.sb.IsInode ino → s.sb.IsInode ino' → ∀ k k',
    (s.inodeAt ino).blocks k ≠ 0 → (s.inodeAt ino).blocks k = (s.inodeAt ino').blocks k' → ino = ino' ∧ k = k'

/-- The inode may be written as inode `ino`: its blocks are allocated, it has no block twice, and no other
inode has one of them. -/
structure Writable (s : Fs) (ino : ℕ) (inode : OnyfsInode) : Prop where
  fits : ∀ k, inode.blocks k < u32Size
  allocated : ∀ k, inode.blocks k ≠ 0 → s.Allocated (inode.blocks k)
  alone : ∀ k ino' k', s.sb.IsInode ino' → inode.blocks k ≠ 0 →
    (s.inodeAt ino').blocks k' = inode.blocks k → ino' = ino
  distinct : ∀ k k', inode.blocks k ≠ 0 → inode.blocks k = inode.blocks k' → k = k'

lemma Owned.writable (h : Owned s) (hv : s.version = .v2) (hino : s.sb.IsInode ino) :
    Writable s ino (s.inodeAt ino) where
  fits := by
    rw [Fs.inodeAt_v2 hv]
    exact (fits_fromBytes _).blocks
  allocated := h.allocated ino hino
  alone := fun k ino' k' hino' hne heq => ((h.unshared ino ino' hino hino' k k' hne heq.symm).1).symm
  distinct := fun k k' hne heq => (h.unshared ino ino hino hino k k' hne heq).2

lemma writable_of_zero (h : ∀ k, inode.blocks k = 0) : Writable s ino inode where
  fits := fun k => by rw [h k]; decide
  allocated := fun k hne => absurd (h k) hne
  alone := fun k _ _ _ hne => absurd (h k) hne
  distinct := fun k _ hne => absurd (h k) hne

/-- What the functions that work on the inodes in `X` keep: the owners of the blocks, and the inodes and
blocks of the other files as they are in `s0`. -/
structure Frame (X : Set ℕ) (s0 s : Fs) : Prop where
  sb_eq : s.sb = s0.sb
  version : s.version = .v2
  apart : s.sb.Apart
  owned : Owned s
  writes_eq : ∃ ws, s.writes = s0.writes ++ ws
  bits : ∀ i, s0.bit s0.sb.dataBitmapStart i = true → s.bit s.sb.dataBitmapStart i = true
  inodeAt_eq : ∀ j, s.sb.IsInode j → j ∉ X → s.inodeAt j = s0.inodeAt j
  disk_eq : ∀ j, s.sb.IsInode j → j ∉ X → ∀ k, (s0.inodeAt j).blocks k ≠ 0 →
    s.disk ((s0.inodeAt j).blocks k) = s0.disk ((s0.inodeAt j).blocks k)

namespace Frame

variable {X : Set ℕ}

section

variable (hf : Frame X s0 s)
include hf

lemma withBuf (b : Block) : Frame X s0 (s.withBuf b) :=
  ⟨hf.sb_eq, hf.version, hf.apart, ⟨hf.owned.allocated, hf.owned.unshared⟩, hf.writes_eq, hf.bits,
    hf.inodeAt_eq, hf.disk_eq⟩

lemma inPool_of_other {j : ℕ} (hj : s.sb.IsInode j) (hX : j ∉ X) {k : Fin 10}
    (hne : (s0.inodeAt j).blocks k ≠ 0) : s.sb.InPool ((s0.inodeAt j).blocks k) := by
  have heq := hf.inodeAt_eq j hj hX
  rw [← heq] at hne ⊢
  exact (hf.owned.allocated j hj k hne).inPool

lemma of_wrote (hw : WroteBlock s blk b t) (htable : ¬s.sb.InTable blk)
    (hbits : ∀ i, s.bit s.sb.dataBitmapStart i = true → t.bit t.sb.dataBitmapStart i = true)
    (hother : ∀ j, s.sb.IsInode j → j ∉ X → ∀ k, (s0.inodeAt j).blocks k ≠ 0 →
      (s0.inodeAt j).blocks k ≠ blk) : Frame X s0 t := by
  have hinode : ∀ j, s.sb.IsInode j → t.inodeAt j = s.inodeAt j := fun j hj =>
    hw.inodeAt_eq hf.apart hf.version htable hj
  refine ⟨hw.sb_eq.trans hf.sb_eq, hw.version_eq.trans hf.version, hw.sb_eq ▸ hf.apart, ⟨?_, ?_⟩,
    hw.writes_append hf.writes_eq, fun i hbit => hbits i (hf.bits i hbit), ?_, ?_⟩
  · rw [hw.sb_eq]
    intro ino hino k hne
    rw [hinode ino hino] at hne ⊢
    exact (hf.owned.allocated ino hino k hne).of_bits hw.sb_eq hbits
  · rw [hw.sb_eq]
    intro ino ino' hino hino'
    rw [hinode ino hino, hinode ino' hino']
    exact hf.owned.unshared ino ino' hino hino'
  · rw [hw.sb_eq]
    intro j hj hX
    rw [hinode j hj]
    exact hf.inodeAt_eq j hj hX
  · rw [hw.sb_eq]
    intro j hj hX k hne
    have hpool := hf.inPool_of_other hj hX hne
    rw [hw.disk_ne _ (hother j hj hX k hne) (hf.apart.pool_log hpool)]
    exact hf.disk_eq j hj hX k hne

lemma wrote_pool (hw : WroteBlock s blk b t) (hpool : s.sb.InPool blk)
    (hother : ∀ j, s.sb.IsInode j → j ∉ X → ∀ k, (s.inodeAt j).blocks k ≠ blk) : Frame X s0 t := by
  refine hf.of_wrote hw (hf.apart.pool_table hpool) ?_ fun j hj hX k _ => ?_
  · intro i hbit
    rwa [hw.bit_eq hf.apart (hf.apart.pool_bitmap hpool)]
  · rw [← hf.inodeAt_eq j hj hX]
    exact hother j hj hX k

lemma wrote_bit {i : ℕ} (hi : i < bitsPerBlock)
    (hw : WroteBlock s s.sb.dataBitmapStart (s.withBit s.sb.dataBitmapStart i) t) : Frame X s0 t := by
  refine hf.of_wrote hw hf.apart.bitmap_table ?_ fun j hj hX k hne => ?_
  · intro j hbit
    rw [hw.bit_set hi]
    split
    · rfl
    · exact hbit
  · exact hf.apart.pool_bitmap (hf.inPool_of_other hj hX hne)

lemma wrote_inodeBitmap (hw : WroteBlock s 1 b t) : Frame X s0 t := by
  refine hf.of_wrote hw hf.apart.inodeBitmap_table ?_ fun j hj hX k hne => ?_
  · intro i hbit
    rwa [hw.bit_eq hf.apart hf.apart.inodeBitmap_bitmap]
  · exact hf.apart.pool_inodeBitmap (hf.inPool_of_other hj hX hne)

lemma wrote_inode (hino : s.sb.IsInode ino) (hX : ino ∈ X) (hwr : Writable s ino inode)
    (hw : WroteBlock s (s.inodeBlock ino) (s.withInode ino inode) t) : Frame X s0 t := by
  have hin := (Fs.inTable_of_hasSlot (hf.apart.table_end.trans hf.apart.total_le) hf.version hino.hasSlot).2
  have hself : ∀ k, (t.inodeAt ino).blocks k = inode.blocks k := by
    intro k
    rw [hw.inodeAt_self hf.version]
    exact fromBytes_toBytes_blocks hwr.fits k
  have hne : ∀ j, s.sb.IsInode j → j ≠ ino → t.inodeAt j = s.inodeAt j := fun j hj hj' =>
    hw.inodeAt_of_ne hf.apart hf.version hino hj hj'
  have hbitmap : s.inodeBlock ino ≠ s.sb.dataBitmapStart := by
    intro heq
    exact hf.apart.bitmap_table (heq ▸ hin)
  have hbits : ∀ i, s.bit s.sb.dataBitmapStart i = true → t.bit t.sb.dataBitmapStart i = true := by
    intro i hbit
    rwa [hw.bit_eq hf.apart hbitmap]
  have halloc : ∀ x, s.Allocated x → t.Allocated x := fun x hx => hx.of_bits hw.sb_eq hbits
  refine ⟨hw.sb_eq.trans hf.sb_eq, hw.version_eq.trans hf.version, hw.sb_eq ▸ hf.apart, ⟨?_, ?_⟩,
    hw.writes_append hf.writes_eq, fun i hbit => hbits i (hf.bits i hbit), ?_, ?_⟩
  · rw [hw.sb_eq]
    intro j hj k hk
    by_cases hji : j = ino
    · rw [hji, hself] at hk ⊢
      exact halloc _ (hwr.allocated k hk)
    · rw [hne j hj hji] at hk ⊢
      exact halloc _ (hf.owned.allocated j hj k hk)
  · rw [hw.sb_eq]
    intro j j' hj hj' k k' hk heq
    by_cases hji : j = ino
    · rw [hji, hself] at hk heq
      by_cases hji' : j' = ino
      · rw [hji', hself] at heq
        exact ⟨hji.trans hji'.symm, hwr.distinct k k' hk heq⟩
      · rw [hne j' hj' hji'] at heq
        exact absurd (hwr.alone k j' k' hj' hk heq.symm) hji'
    · rw [hne j hj hji] at hk heq
      by_cases hji' : j' = ino
      · rw [hji', hself] at heq
        exact absurd (hwr.alone k' j k hj (heq ▸ hk) heq) hji
      · rw [hne j' hj' hji'] at heq
        exact hf.owned.unshared j j' hj hj' k k' hk heq
  · rw [hw.sb_eq]
    intro j hj hjX
    rw [hne j hj fun h => hjX (h ▸ hX)]
    exact hf.inodeAt_eq j hj hjX
  · rw [hw.sb_eq]
    intro j hj hjX k hk
    have hpool := hf.inPool_of_other hj hjX hk
    have hblk : (s0.inodeAt j).blocks k ≠ s.inodeBlock ino := by
      intro heq
      exact hf.apart.pool_table hpool (heq ▸ hin)
    rw [hw.disk_ne _ hblk (hf.apart.pool_log hpool)]
    exact hf.disk_eq j hj hjX k hk

lemma journalCommit : ∃ t, journalCommit s = .ok () t ∧ Frame X s0 t := by
  rcases journalCommit_outcome s with hrun | ⟨hready, hrun⟩ | hrun
  · exact ⟨s, hrun, hf⟩
  · have hlog := inLog_journalBlock hf.apart hready
    have hw : WroteBlock s (s.journalBlock s.journalHead) commitEndEntry s.committed :=
      ⟨rfl, rfl, update_self .., fun x hx _ => update_of_ne hx ..,
        [(s.journalBlock s.journalHead, commitEndEntry)], rfl, mem_singleton_self _⟩
    refine ⟨_, hrun, hf.of_wrote hw (fun htable => hf.apart.table_log _ htable hlog) ?_
      fun j hj hX k hne heq => ?_⟩
    · intro i hbit
      rwa [hw.bit_eq hf.apart fun heq => hf.apart.bitmap_log (heq ▸ hlog)]
    · exact hf.apart.pool_log (hf.inPool_of_other hj hX hne) (heq ▸ hlog)
  · exact ⟨_, hrun, hf.sb_eq, hf.version, hf.apart, ⟨hf.owned.allocated, hf.owned.unshared⟩, hf.writes_eq, hf.bits,
      hf.inodeAt_eq, hf.disk_eq⟩

end

end Frame

/-! ### Inodes that are not written yet -/

/-- Between the functions that change an inode: it may be written as inode `ino`. -/
structure Pending (X : Set ℕ) (s0 : Fs) (ino : ℕ) (inode : OnyfsInode) (s : Fs) : Prop where
  frame : Frame X s0 s
  isInode : s0.sb.IsInode ino
  mem : ino ∈ X
  writable : Writable s ino inode

namespace Writable

lemma congr {inode' : OnyfsInode} (h : Writable s ino inode) (heq : inode'.blocks = inode.blocks) :
    Writable s ino inode' := by
  obtain ⟨hfits, halloc, halone, hdistinct⟩ := h
  exact ⟨heq ▸ hfits, heq ▸ halloc, heq ▸ halone, heq ▸ hdistinct⟩

lemma of_wrote (h : Writable s ino inode) (hsb : t.sb = s.sb)
    (hinode : ∀ j, s.sb.IsInode j → t.inodeAt j = s.inodeAt j)
    (hbits : ∀ i, s.bit s.sb.dataBitmapStart i = true → t.bit t.sb.dataBitmapStart i = true) :
    Writable t ino inode where
  fits := h.fits
  allocated := fun k hne => (h.allocated k hne).of_bits hsb hbits
  alone := by
    rw [hsb]
    intro k ino' k' hino' hne heq
    rw [hinode ino' hino'] at heq
    exact h.alone k ino' k' hino' hne heq
  distinct := h.distinct

end Writable

namespace Pending

variable {X : Set ℕ}

section

variable (h : Pending X s0 ino inode s)
include h

lemma withBuf (b : Block) : Pending X s0 ino inode (s.withBuf b) :=
  ⟨h.frame.withBuf b, h.isInode, h.mem, h.writable.fits, h.writable.allocated, h.writable.alone,
    h.writable.distinct⟩

lemma wrote_block {k : Fin 10} (hne : inode.blocks k ≠ 0)
    (hw : WroteBlock s (inode.blocks k) b t) : Pending X s0 ino inode t := by
  have hpool := (h.writable.allocated k hne).inPool
  have hbits : ∀ i, s.bit s.sb.dataBitmapStart i = true → t.bit t.sb.dataBitmapStart i = true := by
    intro i hbit
    rwa [hw.bit_eq h.frame.apart (h.frame.apart.pool_bitmap hpool)]
  refine ⟨h.frame.wrote_pool hw hpool fun j hj hjX l heq => ?_, h.isInode, h.mem,
    h.writable.of_wrote hw.sb_eq ?_ hbits⟩
  · exact hjX (h.writable.alone k j l hj hne heq ▸ h.mem)
  · intro j hj
    exact hw.inodeAt_eq h.frame.apart h.frame.version (h.frame.apart.pool_table hpool) hj

lemma wrote_inode
    (hw : WroteBlock s (s.inodeBlock ino) (s.withInode ino inode) t) : Pending X s0 ino inode t := by
  have hino : s.sb.IsInode ino := h.frame.sb_eq ▸ h.isInode
  have hf := h.frame.wrote_inode hino h.mem h.writable hw
  have hin := (Fs.inTable_of_hasSlot (h.frame.apart.table_end.trans h.frame.apart.total_le) h.frame.version
    hino.hasSlot).2
  have hbitmap : s.inodeBlock ino ≠ s.sb.dataBitmapStart := by
    intro heq
    exact h.frame.apart.bitmap_table (heq ▸ hin)
  refine ⟨hf, h.isInode, h.mem, h.writable.fits,
    fun k hne => (h.writable.allocated k hne).of_bits hw.sb_eq ?_, ?_, h.writable.distinct⟩
  · intro i hbit
    rwa [hw.bit_eq h.frame.apart hbitmap]
  · rw [hw.sb_eq]
    intro k ino' k' hino' hne heq
    by_contra hne'
    rw [hw.inodeAt_of_ne h.frame.apart h.frame.version hino hino' hne'] at heq
    exact hne' (h.writable.alone k ino' k' hino' hne heq)

lemma wrote_bit {i : ℕ} (hi : i < bitsPerBlock)
    (hclear : s.bit s.sb.dataBitmapStart i = false) (hlt : s.sb.dataBlocksStart + i < u32Size)
    (hw : WroteBlock s s.sb.dataBitmapStart (s.withBit s.sb.dataBitmapStart i) t) (idx : Fin 10) :
    Pending X s0 ino (inode.setBlock idx (s.sb.dataBlocksStart + i)) t := by
  have hf := h.frame.wrote_bit hi hw
  have hbits : ∀ j, s.bit s.sb.dataBitmapStart j = true → t.bit t.sb.dataBitmapStart j = true := by
    intro j hbit
    rw [hw.bit_set hi]
    split
    · rfl
    · exact hbit
  have hinode : ∀ j, s.sb.IsInode j → t.inodeAt j = s.inodeAt j := fun j hj =>
    hw.inodeAt_eq h.frame.apart h.frame.version h.frame.apart.bitmap_table hj
  -- the new block is none of the allocated ones
  have hnew : ¬s.Allocated (s.sb.dataBlocksStart + i) := by
    rintro ⟨j, heq, hbit⟩
    rw [← add_left_cancel heq, hclear] at hbit
    exact Bool.noConfusion hbit
  have hpos : s.sb.dataBlocksStart + i ≠ 0 := by
    have := h.frame.apart.poolStart_pos
    omega
  have hw' := h.writable.of_wrote hw.sb_eq hinode hbits
  refine ⟨hf, h.isInode, h.mem, fun k => ?_, fun k hne => ?_, ?_, fun k k' hne heq => ?_⟩
  · by_cases hk : k = idx
    · rwa [hk, setBlock_self]
    · rw [setBlock_of_ne _ _ hk]
      exact h.writable.fits k
  · by_cases hk : k = idx
    · rw [hk, setBlock_self]
      refine ⟨i, by rw [hw.sb_eq], ?_⟩
      rw [hw.bit_set hi, if_pos rfl]
    · rw [setBlock_of_ne _ _ hk] at hne ⊢
      exact hw'.allocated k hne
  · intro k ino' k' hino' hne heq
    by_cases hk : k = idx
    · rw [hw.sb_eq] at hino'
      rw [hk, setBlock_self, hinode ino' hino'] at heq
      exact absurd (heq ▸ h.frame.owned.allocated ino' hino' k' (heq ▸ hpos)) hnew
    · rw [setBlock_of_ne _ _ hk] at hne heq
      exact hw'.alone k ino' k' hino' hne heq
  · by_cases hk : k = idx
    · by_cases hk' : k' = idx
      · exact hk.trans hk'.symm
      · rw [hk, setBlock_self, setBlock_of_ne _ _ hk'] at heq
        exact absurd (heq ▸ h.writable.allocated k' (heq ▸ hpos)) hnew
    · rw [setBlock_of_ne _ _ hk] at hne heq
      by_cases hk' : k' = idx
      · rw [hk', setBlock_self] at heq
        exact absurd (heq ▸ h.writable.allocated k hne) hnew
      · rw [setBlock_of_ne _ _ hk'] at heq
        exact h.writable.distinct k k' hne heq

end

end Pending

end Onyxfs

end OnyxKernel
