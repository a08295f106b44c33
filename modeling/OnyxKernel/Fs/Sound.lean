import OnyxKernel.Fs.Account
import OnyxKernel.Fs.Journal

/-!
# What the operations write

A completed operation is a sequence of logged writes followed by a commit.  Its writes go to the
bitmaps, to slots of the inode table and to data blocks, never to the superblock or the journal.
This holds on a sound disk, on which every block number in the inode table is the number of a data
block, and the writes keep the disk sound.
-/

namespace OnyxKernel

open ByteMemory KResult List Nat OnyfsInode Bitmap

namespace OnyfsSuper

/-- A block that a bit of the data bitmap can stand for. -/
def InPool (sb : OnyfsSuper) (blk : ℕ) : Prop :=
  sb.dataBlocksStart ≤ blk ∧ blk < sb.dataBlocksStart + Onyxfs.bitsPerBlock

/-- The areas of a disk with a journal.  The superblock, the bitmaps, the inode table and the data
blocks lie outside the journal, and the inode table lies apart from the others. -/
structure Areas (sb : OnyfsSuper) : Prop extends HasJournal sb where
  table_end : sb.inodeTableStart + sb.tableBlocks ≤ u32Size
  pool_end : sb.dataBlocksStart + Onyxfs.bitsPerBlock ≤ u32Size
  bitmap_lt : sb.dataBitmapStart < u32Size
  tableStart_pos : 0 < sb.inodeTableStart
  poolStart_pos : 0 < sb.dataBlocksStart
  bitmap_pos : 0 < sb.dataBitmapStart
  table_journal : ∀ blk, sb.InTable blk → ¬ sb.InJournal blk
  pool_journal : ∀ blk, sb.InPool blk → ¬ sb.InJournal blk
  bitmap_journal : ¬ sb.InJournal sb.dataBitmapStart
  inodeBitmap_journal : ¬ sb.InJournal 1
  pool_table : ∀ blk, sb.InPool blk → ¬ sb.InTable blk
  bitmap_table : ¬ sb.InTable sb.dataBitmapStart
  inodeBitmap_table : ¬ sb.InTable 1

/-- The block numbers of an inode are numbers of data blocks. -/
def BlocksIn (sb : OnyfsSuper) (inode : OnyfsInode) : Prop :=
  ∀ k, inode.blocks k = 0 ∨ sb.InPool (inode.blocks k)

end OnyfsSuper

namespace Onyxfs

/-- A mounted version 2 disk whose inode table has only numbers of data blocks. -/
structure Sound (s : Fs) : Prop where
  version : s.version = .v2
  areas : s.sb.Areas
  super : OnyfsSuper.fromBytes (s.disk 0).mem = some s.sb
  magic : s.sb.magic = onyfsMagic
  blockSize : s.sb.blockSize = onyfsBlockSize
  head_le : s.journalHead ≤ s.sb.journalSize
  blocksIn : ∀ ino, s.sb.HasSlot ino → s.sb.BlocksIn (s.inodeAt ino)

variable {s t u : Fs} {blk ino : ℕ} {b : Block} {inode : OnyfsInode} {x : Unit} {sb : OnyfsSuper}
  {op : Op}

lemma Sound.withBuf (h : Sound s) (b : Block) : Sound (s.withBuf b) :=
  ⟨h.version, h.areas, h.super, h.magic, h.blockSize, h.head_le, h.blocksIn⟩

/-! ### Sequences of logged writes -/

/-- The state after a list of logged writes. -/
def Fs.loggedAll (s : Fs) (ws : List (ℕ × Block)) : Fs :=
  ws.foldl (fun s w => s.logged w.1 w.2) s

/-- The state `t` is reached from `s` by the logged writes `ws`, up to the contents of `G_BUF`. -/
structure Trace (s : Fs) (ws : List (ℕ × Block)) (t : Fs) : Prop where
  eq : ∃ b, t = (s.loggedAll ws).withBuf b
  outside : ∀ w ∈ ws, ¬ s.sb.InJournal w.1 ∧ w.1 < u32Size ∧ w.1 ≠ 0
  room : s.journalHead + ws.length ≤ s.sb.journalSize

/-- The sound state `t` is reached by logged writes. -/
def Evolves (s t : Fs) : Prop := Sound t ∧ ∃ ws, Trace s ws t

lemma loggedAll_sb (s : Fs) (ws : List (ℕ × Block)) : (s.loggedAll ws).sb = s.sb := by
  induction ws generalizing s with
  | nil => rfl
  | cons w ws ih => exact ih (s.logged w.1 w.2)

lemma loggedAll_journalHead (s : Fs) (ws : List (ℕ × Block)) :
    (s.loggedAll ws).journalHead = s.journalHead + ws.length := by
  induction ws generalizing s with
  | nil => rfl
  | cons w ws ih =>
    rw [length_cons, add_comm ws.length, ← add_assoc]
    exact ih (s.logged w.1 w.2)

lemma loggedAll_withBuf (s : Fs) (b : Block) (ws : List (ℕ × Block)) :
    ∃ b', (s.withBuf b).loggedAll ws = (s.loggedAll ws).withBuf b' := by
  cases ws with
  | nil => exact ⟨b, rfl⟩
  | cons w ws => exact ⟨((s.logged w.1 w.2).loggedAll ws).buf, rfl⟩

namespace Trace

variable {ws ws' : List (ℕ × Block)}

lemma sb_eq (h : Trace s ws t) : t.sb = s.sb := by
  obtain ⟨b, rfl⟩ := h.eq
  exact loggedAll_sb s ws

lemma journalHead_eq (h : Trace s ws t) : t.journalHead = s.journalHead + ws.length := by
  obtain ⟨b, rfl⟩ := h.eq
  exact loggedAll_journalHead s ws

lemma trans (h : Trace s ws t) (h' : Trace t ws' u) : Trace s (ws ++ ws') u := by
  have hsb := h.sb_eq
  have hhead := h.journalHead_eq
  obtain ⟨b, rfl⟩ := h.eq
  obtain ⟨b', rfl⟩ := h'.eq
  obtain ⟨b'', hb⟩ := loggedAll_withBuf (s.loggedAll ws) b ws'
  refine ⟨⟨b', ?_⟩, fun w hw => ?_, ?_⟩
  · rw [hb, Fs.withBuf_withBuf, Fs.loggedAll, Fs.loggedAll, Fs.loggedAll, foldl_append]
  · rcases mem_append.mp hw with hw | hw
    · exact h.outside w hw
    · exact hsb ▸ h'.outside w hw
  · have hroom := h'.room
    rw [hhead, hsb] at hroom
    rw [length_append]
    omega

end Trace

namespace Evolves

lemma withBuf (h : Sound s) (b : Block) : Evolves s (s.withBuf b) :=
  ⟨h.withBuf b, [], ⟨b, rfl⟩, fun _ hw => absurd hw not_mem_nil, h.head_le⟩

lemma trans (h : Evolves s t) (h' : Evolves t u) : Evolves s u := by
  obtain ⟨-, ws, hws⟩ := h
  obtain ⟨hu, ws', hws'⟩ := h'
  exact ⟨hu, ws ++ ws', hws.trans hws'⟩

lemma sound (h : Evolves s t) : Sound t := h.1

lemma sb_eq (h : Evolves s t) : t.sb = s.sb := h.2.choose_spec.sb_eq

section

variable (h : Sound s) (hhead : s.journalHead < s.sb.journalSize)
include h hhead

lemma logged (hj : ¬ s.sb.InJournal blk) (hlt : blk < u32Size) (hne : blk ≠ 0)
    (hblocks : ∀ ino, s.sb.HasSlot ino → s.sb.BlocksIn ((s.logged blk b).inodeAt ino)) :
    Evolves s (s.logged blk b) := by
  have hdisk : (s.logged blk b).disk 0 = s.disk 0 :=
    Fs.logged_disk h.areas.toHasJournal hhead hne.symm h.areas.zero_notMem
  refine ⟨⟨h.version, h.areas, ?_, h.magic, h.blockSize, hhead, hblocks⟩, [(blk, b)],
    ⟨b, rfl⟩, fun w hw => ?_, hhead⟩
  · rw [hdisk]
    exact h.super
  · rw [mem_singleton.mp hw]
    exact ⟨hj, hlt, hne⟩

lemma logged_of_not_inTable
    (hj : ¬ s.sb.InJournal blk) (hlt : blk < u32Size) (hne : blk ≠ 0) (ht : ¬ s.sb.InTable blk)
    (b : Block) : Evolves s (s.logged blk b) := by
  refine logged h hhead hj hlt hne fun ino hslot => ?_
  have hin := (Fs.inTable_of_hasSlot h.areas.table_end h.version hslot).2
  have hdisk : (s.logged blk b).disk (s.inodeBlock ino) = s.disk (s.inodeBlock ino) := by
    refine Fs.logged_disk h.areas.toHasJournal hhead ?_ (h.areas.table_journal _ hin)
    rintro rfl
    exact ht hin
  rw [Fs.inodeAt_congr (s := s) (t := s.logged blk b) rfl rfl hdisk]
  exact h.blocksIn ino hslot

lemma logged_pool (hin : s.sb.InPool blk) (b : Block) : Evolves s (s.logged blk b) :=
  logged_of_not_inTable h hhead (h.areas.pool_journal blk hin)
    (lt_of_lt_of_le hin.2 h.areas.pool_end)
    (ne_of_gt (lt_of_lt_of_le h.areas.poolStart_pos hin.1)) (h.areas.pool_table blk hin) b

lemma logged_inode (hslot : s.sb.HasSlot ino) (hblocks : s.sb.BlocksIn inode) :
    Evolves s (s.logged (s.inodeBlock ino) (s.withInode ino inode)) := by
  have hin := (Fs.inTable_of_hasSlot h.areas.table_end h.version hslot).2
  have hlt : s.inodeBlock ino < u32Size := lt_of_lt_of_le hin.2 h.areas.table_end
  have hne : s.inodeBlock ino ≠ 0 :=
    ne_of_gt (lt_of_lt_of_le h.areas.tableStart_pos hin.1)
  refine logged h hhead (h.areas.table_journal _ hin) hlt hne fun ino' hslot' => ?_
  have hin' := (Fs.inTable_of_hasSlot h.areas.table_end h.version hslot').2
  have hself := Fs.inodeAt_written (t := s.logged (s.inodeBlock ino) (s.withInode ino inode)) h.version rfl rfl
    Fs.logged_disk_self
  by_cases hpred : ino' - 1 = ino - 1
  · -- the slot just written
    have hfit : ∀ k, inode.blocks k < 256 ^ 4 := by
      intro k
      rcases hblocks k with hz | hp
      · rw [hz]
        decide
      · exact lt_of_lt_of_le hp.2 h.areas.pool_end
    rw [Fs.inodeAt_of_pred hpred, hself]
    intro k
    rw [fromBytes_toBytes_blocks hfit k]
    exact hblocks k
  · rw [Fs.inodeAt_written_of_ne (t := s.logged (s.inodeBlock ino) (s.withInode ino inode)) h.version rfl rfl
      Fs.logged_disk_self h.areas.table_end hslot hslot' hpred fun hblk =>
        Fs.logged_disk h.areas.toHasJournal hhead hblk (h.areas.table_journal _ hin')]
    exact h.blocksIn ino' hslot'

end

end Evolves

/-! ### Functions that write -/

lemma logBuf_eq_ok (h : s.sb.HasJournal) (hr : logBuf blk (s.withBuf b) = .ok x t) :
    s.journalHead < s.sb.journalSize ∧ t = s.logged blk b := by
  by_cases hroom : s.journalHead < s.sb.journalSize
  · rw [logBuf_eq (Fs.journalReady h hroom)] at hr
    injection hr with _ ht
    exact ⟨hroom, ht.symm⟩
  · have hno : ¬ (s.withBuf b).noJournal :=
      not_or.mpr ⟨h.journalStart_pos.ne', h.journalSize_pos.ne'⟩
    rw [logBuf_of_full hno (not_lt.mp hroom)] at hr
    cases hr

lemma logBuf_pool (h : Sound s) (hin : s.sb.InPool blk)
    (hr : logBuf blk (s.withBuf b) = .ok x t) : Evolves s t := by
  obtain ⟨hhead, rfl⟩ := logBuf_eq_ok h.areas.toHasJournal hr
  exact Evolves.logged_pool h hhead hin b

lemma writeInode_ok (h : Sound s) (hslot : s.sb.HasSlot ino) (hblocks : s.sb.BlocksIn inode)
    (hr : writeInode ino inode s = .ok x t) : Evolves s t := by
  have hv1 : s.version ≠ .v1 := by simp [h.version]
  rw [writeInode, get_bind, if_neg hv1, get_bind, readBuf_bind, get_bind,
    setBuf_bind, Fs.withBuf_withBuf] at hr
  obtain ⟨hhead, rfl⟩ := logBuf_eq_ok h.areas.toHasJournal hr
  exact Evolves.logged_inode h hhead hslot hblocks

lemma Evolves.writeInode (h : Evolves s t) (hin : s.sb.HasSlot ino ∧ s.sb.BlocksIn inode)
    (hr : writeInode ino inode t = .ok x u) : Evolves s u :=
  h.trans (writeInode_ok h.sound (h.sb_eq.symm ▸ hin.1) (h.sb_eq.symm ▸ hin.2) hr)

lemma allocBit_ok (h : s.sb.HasJournal) {i : ℕ} (hr : allocBit blk s = .ok i t) :
    findClear (s.disk blk).mem onyfsBlockSize 0 = some i ∧
      s.journalHead < s.sb.journalSize ∧ t = s.logged blk (s.withBit blk i) := by
  rw [allocBit, readBuf_bind, get_bind] at hr
  simp only [Fs.withBuf_buf] at hr
  cases hfind : findClear (s.disk blk).mem onyfsBlockSize 0 with
  | none =>
    simp only [hfind] at hr
    cases hr
  | some j =>
    simp only [hfind] at hr
    rw [setBuf_bind, Fs.withBuf_withBuf, bind_eq_ok_iff] at hr
    obtain ⟨_, t', hlog, hpure⟩ := hr
    obtain ⟨hhead, rfl⟩ := logBuf_eq_ok h hlog
    injection hpure with hi ht
    subst hi ht
    exact ⟨rfl, hhead, rfl⟩

lemma allocDataBlock_ok (h : Sound s) (hr : allocDataBlock s = .ok blk t) :
    s.sb.InPool blk ∧ Evolves s t := by
  rw [allocDataBlock, get_bind, bind_eq_ok_iff] at hr
  obtain ⟨i, t', halloc, hpure⟩ := hr
  obtain ⟨hfind, hhead, rfl⟩ := allocBit_ok h.areas.toHasJournal halloc
  have hi := (findClear_eq_some hfind).2
  have hpool := h.areas.pool_end
  injection hpure with hblk ht
  subst ht
  have hlt : i < bitsPerBlock := by rwa [zero_add] at hi
  have hmod : (s.sb.dataBlocksStart + i) % u32Size = s.sb.dataBlocksStart + i :=
    mod_eq_of_lt (by omega)
  rw [Fs.logged_sb, hmod] at hblk
  subst hblk
  exact ⟨⟨Nat.le_add_right _ _, Nat.add_lt_add_left hlt _⟩,
    Evolves.logged_of_not_inTable h hhead h.areas.bitmap_journal h.areas.bitmap_lt
      h.areas.bitmap_pos.ne' h.areas.bitmap_table _⟩

/-- The inode that an allocation would take has its slot in the inode table. -/
def Fs.FreshInode (s : Fs) : Prop :=
  ∀ i, findClear (s.disk 1).mem onyfsBlockSize 0 = some i → s.sb.HasSlot (i + 1)

lemma allocInode_ok (h : Sound s) (hfresh : s.FreshInode) (hr : allocInode s = .ok ino t) :
    s.sb.HasSlot ino ∧ Evolves s t := by
  rw [allocInode, bind_eq_ok_iff] at hr
  obtain ⟨i, t', halloc, hpure⟩ := hr
  obtain ⟨hfind, hhead, rfl⟩ := allocBit_ok h.areas.toHasJournal halloc
  injection hpure with hino ht
  subst hino ht
  exact ⟨hfresh i hfind, Evolves.logged_of_not_inTable h hhead h.areas.inodeBitmap_journal
    (by decide) one_ne_zero h.areas.inodeBitmap_table _⟩

lemma BlocksIn.setBlock (h : sb.BlocksIn inode) {idx : Fin 10}
    (hblk : sb.InPool blk) : sb.BlocksIn (inode.setBlock idx blk) := by
  intro k
  by_cases hk : k = idx
  · rw [hk, setBlock_self]
    exact .inr hblk
  · rw [setBlock_of_ne _ _ hk]
    exact h k

/-! ### Directories -/

/-- Removing a directory entry fails without a write, or it comes down to one logged write of the
block of the directory, in which the inode number of an entry is set to zero. -/
theorem removeDirent_cases (h : Sound s) (hslot : s.sb.HasSlot ino) (name : List UInt8) :
    (∃ e b, removeDirent ino name s = .error e (s.withBuf b)) ∨
      s.sb.InPool ((s.inodeAt ino).blocks 0) ∧ ∃ i < 102,
        removeDirent ino name s = logBuf ((s.inodeAt ino).blocks 0)
          (s.withBuf ((s.disk ((s.inodeAt ino).blocks 0)).store (i * 40 + 32) 4 0)) := by
  have hv : s.version ≠ .v1 := by simp [h.version]
  rw [removeDirent, bind_of_ok (readInode_eq ino s)]
  by_cases hne : (s.inodeAt ino).blocks 0 = 0
  · exact .inl ⟨.noEnt, _, by rw [if_pos hne]; rfl⟩
  rw [if_neg hne, readBuf_bind, get_bind, Fs.withBuf_withBuf, Fs.withBuf_disk]
  cases hfind : (s.withBuf (s.disk ((s.inodeAt ino).blocks 0))).findEntry name with
  | none => exact .inl ⟨.noEnt, _, rfl⟩
  | some i =>
    have hi : i < 102 := by
      have hmem := mem_range.mp (mem_of_find?_eq_some hfind)
      simpa [Fs.direntsPerBlock, hv] using hmem
    have hsize : (s.withBuf (s.disk ((s.inodeAt ino).blocks 0))).entrySize = 40 := by
      simp [Fs.entrySize, hv, OnyfsDirent.byteSize]
    refine .inr ⟨(h.blocksIn ino hslot 0).resolve_left hne, i, hi, ?_⟩
    simp only
    rw [setBuf_bind, Fs.withBuf_withBuf, hsize]
    rfl

/-! ### Completed operations -/

/-- The inode numbers an operation works on have their slots in the inode table. -/
def Op.Ordinary (s : Fs) : Op → Prop
  | .write ino _ _ => s.sb.HasSlot ino
  | .create dirIno _ _ => s.sb.HasSlot dirIno ∧ s.FreshInode
  | .mkdir dirIno _ => s.sb.HasSlot dirIno ∧ s.FreshInode
  | .truncate ino => s.sb.HasSlot ino
  | .unlink path => ∀ b ino t, parentIno (splitPath path.tail).1 (s.withBuf b) = .ok ino t →
      s.sb.HasSlot ino
  | .rename oldPath newPath => ∀ path ∈ [oldPath, newPath], ∀ b ino t,
      parentIno (splitPath path.tail).1 (s.withBuf b) = .ok ino t → s.sb.HasSlot ino

lemma blocksIn_zero {inode : OnyfsInode} (h : ∀ k, inode.blocks k = 0) :
    sb.BlocksIn inode := fun k => .inl (h k)

/-- The account of the writes: they are evolutions, and a completed operation is committed after them. -/
def Sound.account (h : Sound s) : Account s where
  Admits := s.sb.HasSlot
  Base := Evolves s
  Pending ino inode t := Evolves s t ∧ s.sb.HasSlot ino ∧ s.sb.BlocksIn inode
  Holding ino inode k blk t :=
    (Evolves s t ∧ s.sb.HasSlot ino ∧ s.sb.BlocksIn inode) ∧ inode.blocks k = blk ∧ blk ≠ 0
  Done t := ∃ u, Evolves s u ∧ journalCommit u = .ok () t
  Failed _ := True
  start := Evolves.withBuf h s.buf
  failed_of_base _ := trivial
  base_of_pending hp := hp.1
  pending_of_holding hh := hh.1
  holding_of_pending hp hne := ⟨hp, rfl, hne⟩
  base_withBuf _ b hev := hev.trans (.withBuf hev.sound b)
  pending_withBuf _ b hp := ⟨hp.1.trans (.withBuf hp.1.sound b), hp.2⟩
  holding_withBuf _ b hh := ⟨⟨hh.1.1.trans (.withBuf hh.1.1.sound b), hh.1.2⟩, hh.2⟩
  pending_inodeAt hino hev := ⟨hev, hino, hev.sb_eq ▸ hev.sound.blocksIn _ (hev.sb_eq.symm ▸ hino)⟩
  pending_zero hino hev hzero := ⟨hev, hino, blocksIn_zero hzero⟩
  pending_congr hp heq := ⟨hp.1, hp.2.1, fun k => heq ▸ hp.2.2 k⟩
  logBuf := by
    refine .of_run ?_ fun _ _ _ _ _ => trivial
    rintro u _ t ⟨⟨hev, hino, hblocks⟩, rfl, hne⟩ hrun
    have hlog := logBuf_pool hev.sound (hev.sb_eq.symm ▸ (hblocks _).resolve_left hne) hrun
    exact ⟨⟨hev.trans hlog, hino, hblocks⟩, rfl, hne⟩
  writeInode := .of_run (fun _ _ _ hp hrun => ⟨hp.1.writeInode hp.2 hrun, hp.2⟩) fun _ _ _ _ _ => trivial
  writeInode_holding :=
    .of_run (fun _ _ _ hh hrun => ⟨⟨hh.1.1.writeInode hh.1.2 hrun, hh.1.2⟩, hh.2⟩) fun _ _ _ _ _ => trivial
  allocDataBlock := by
    refine .of_run ?_ fun _ _ _ _ _ => trivial
    rintro u blk t ⟨hev, hino, hblocks⟩ hrun idx
    obtain ⟨hin, hev'⟩ := allocDataBlock_ok hev.sound hrun
    rw [hev.sb_eq] at hin
    exact ⟨⟨hev.trans hev', hino, BlocksIn.setBlock hblocks hin⟩, setBlock_self ..,
      ne_of_gt (lt_of_lt_of_le h.areas.poolStart_pos hin.1)⟩
  allocInode hfresh := by
    refine .of_run ?_ fun _ _ _ _ _ => trivial
    rintro _ ino t rfl hrun
    exact allocInode_ok h hfresh hrun
  commit := .of_run (fun u _ _ hev hrun => ⟨u, hev, hrun⟩) fun _ _ _ _ _ => trivial

lemma Op.Ordinary.worksOn (h : op.Ordinary s) : op.WorksOn s s.sb.HasSlot := by
  cases op with
  | rename oldPath newPath => exact ⟨h oldPath (by simp), h newPath (by simp)⟩
  | _ => exact h

lemma Op.run_ok (h : Sound s) (hord : op.Ordinary s) (hr : op.run s = .ok x t) :
    ∃ u, Evolves s u ∧ journalCommit u = .ok () t :=
  (h.account.run hord.worksOn).ok rfl hr

end Onyxfs

end OnyxKernel
