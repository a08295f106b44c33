import OnyxKernel.Fs.Ownership
import OnyxKernel.Fs.Write

/-!
# The operations keep the owners

Every operation keeps `Frame`, as long as the data blocks it takes have 32-bit numbers.  This is a condition
on the writes of the whole operation, so the account is kept up to a list of writes: what holds counts only
if the writes so far are among the first of the list.

The owners of the blocks are then kept by every sequence of operations.
-/

namespace OnyxKernel.Onyxfs

open ByteMemory Triple KResult List OnyfsInode Bitmap EStateM.Result Fs

variable {s s0 t : Fs} {blk ino : ℕ} {b : Block} {inode : OnyfsInode} {α β : Type}

/-! ### The blocks that are taken -/

/-- Bit `i` of the data bitmap is clear, and one of the writes sets it. -/
def Fs.TakesBit (s : Fs) (ws : List (ℕ × Block)) (i : ℕ) : Prop :=
  s.bit s.sb.dataBitmapStart i = false ∧ ∃ w ∈ ws, w.1 = s.sb.dataBitmapStart ∧ test w.2.mem 0 i = true

/-- The data blocks that the writes take have numbers below `n`. -/
def Fs.TakesBelow (s : Fs) (ws : List (ℕ × Block)) (n : ℕ) : Prop :=
  ∀ i, s.TakesBit ws i → s.sb.dataBlocksStart + i < n

/-! ### What every function keeps -/

/-- The predicate does not depend on `G_BUF` and `G_JOURNAL_HEAD`, and is kept by block writes. -/
structure Stable (P : Fs → Prop) : Prop where
  withBuf : ∀ s b, P s → P (withBuf s b)
  put : ∀ s blk b, P s → P (put s blk b)
  withHead : ∀ s n, P s → P { s with journalHead := n }

/-- The function changes the disk by block writes only: it keeps every stable predicate. -/
def OnlyWrites (f : FsM α) : Prop := ∀ P, Stable P → Preserves P f

lemma stable_writes (ws : List (ℕ × Block)) : Stable fun s => ws <+: s.writes :=
  ⟨fun _ _ => id, fun _ _ _ h => h.trans (prefix_append _ _), fun _ _ => id⟩

lemma stable_sb (sb : OnyfsSuper) : Stable fun s => s.sb = sb :=
  ⟨fun _ _ => id, fun _ _ _ => id, fun _ _ => id⟩

lemma OnlyWrites.bind {f : FsM α} {g : α → FsM β} (hf : OnlyWrites f) (hg : ∀ a, OnlyWrites (g a)) :
    OnlyWrites (f >>= g) := fun P hP => (hf P hP).bind fun a => hg a P hP

lemma OnlyWrites.get_bind {g : Fs → FsM β} (hg : ∀ s, OnlyWrites (g s)) : OnlyWrites (get >>= g) :=
  fun P hP => .get_bind fun s _ => hg s P hP

lemma OnlyWrites.ite {c : Prop} [Decidable c] {f g : FsM α} (hf : OnlyWrites f) (hg : OnlyWrites g) :
    OnlyWrites (if c then f else g) := fun P hP => .ite (hf P hP) (hg P hP)

lemma OnlyWrites.pure (a : α) : OnlyWrites (pure a : FsM α) := fun _ _ => .pure a

lemma OnlyWrites.throw (e : Errno) : OnlyWrites (MonadExcept.throw e : FsM α) := fun _ _ => .throw e

lemma onlyWrites_readBuf (blk : ℕ) : OnlyWrites (readBuf blk) := fun _ hP s => hP.withBuf s _

lemma onlyWrites_setBuf (b : Block) : OnlyWrites (setBuf b) := fun _ hP s => hP.withBuf s b

lemma onlyWrites_writeBlock (blk : ℕ) (b : Block) : OnlyWrites (writeBlock blk b) :=
  fun _ hP s => hP.put s blk b

lemma onlyWrites_journalLog (blk : ℕ) (b : Block) : OnlyWrites (journalLog blk b) := by
  refine .get_bind fun s => .ite (.pure ()) (.ite (.throw _) ?_)
  exact .bind (onlyWrites_writeBlock _ _) fun _ P hP => .modify fun s => hP.withHead s _

lemma onlyWrites_logBuf (blk : ℕ) : OnlyWrites (logBuf blk) :=
  .get_bind fun _ => .bind (onlyWrites_journalLog _ _) fun _ => .get_bind fun _ => onlyWrites_writeBlock _ _

lemma onlyWrites_writeInode (ino : ℕ) (inode : OnyfsInode) : OnlyWrites (writeInode ino inode) := by
  refine .get_bind fun s => .ite (.throw _) ?_
  exact .get_bind fun _ => .bind (onlyWrites_readBuf _) fun _ => .get_bind fun _ =>
    .bind (onlyWrites_setBuf _) fun _ => onlyWrites_logBuf _

lemma onlyWrites_allocBit (bmBlk : ℕ) : OnlyWrites (allocBit bmBlk) := by
  refine .bind (onlyWrites_readBuf _) fun _ => .get_bind fun s => ?_
  dsimp only
  split
  · exact .throw _
  · exact .bind (onlyWrites_setBuf _) fun _ => .bind (onlyWrites_logBuf _) fun _ => .pure _

lemma onlyWrites_allocInode : OnlyWrites allocInode := .bind (onlyWrites_allocBit 1) fun _ => .pure _

lemma onlyWrites_allocDataBlock : OnlyWrites allocDataBlock :=
  .get_bind fun _ => .bind (onlyWrites_allocBit _) fun _ => .get_bind fun _ => .pure _

lemma onlyWrites_journalCommit : OnlyWrites journalCommit := by
  refine .get_bind fun s => .ite (.pure ()) (.ite (.pure ()) ?_)
  have hhead : OnlyWrites (modify fun s => { s with journalHead := 0 } : FsM Unit) :=
    fun P hP => .modify fun s => hP.withHead s 0
  split
  · exact .bind (onlyWrites_writeBlock _ _) fun _ => hhead
  · exact hhead

/-- The account of a stable predicate. -/
def Stable.account {P : Fs → Prop} (hP : Stable P) (hs : P s) : Account s where
  Admits _ := True
  Base := P
  Pending _ _ := P
  Holding _ _ _ _ := P
  Done := P
  Failed := P
  start := hs
  failed_of_base := id
  base_of_pending := id
  pending_of_holding := id
  holding_of_pending h _ := h
  base_withBuf := hP.withBuf
  pending_withBuf := hP.withBuf
  holding_withBuf := hP.withBuf
  pending_inodeAt _ := id
  pending_zero _ h _ := h
  pending_congr h _ := h
  logBuf := preserves_iff.mp (onlyWrites_logBuf _ P hP)
  writeInode := preserves_iff.mp (onlyWrites_writeInode _ _ P hP)
  writeInode_holding := preserves_iff.mp (onlyWrites_writeInode _ _ P hP)
  allocDataBlock := (preserves_iff.mp (onlyWrites_allocDataBlock P hP)).mono (fun _ => id) (fun _ _ h _ => h)
    fun _ _ => id
  allocInode _ := (preserves_iff.mp (onlyWrites_allocInode P hP)).mono (fun _ h => h ▸ hs)
    (fun _ _ h => ⟨trivial, h⟩) fun _ _ => id
  commit := preserves_iff.mp (onlyWrites_journalCommit P hP)

lemma Op.worksOn_true (op : Op) (s : Fs) : op.WorksOn s fun _ => True := by
  cases op <;> simp [Op.WorksOn, Fs.Fresh, Fs.ParentIs]

lemma Op.onlyWrites (op : Op) : OnlyWrites op.run := fun _ hP s hs =>
  ((hP.account hs).run (op.worksOn_true s)).final rfl

/-- The function appends to the list of writes. -/
def Appends (f : FsM α) : Prop := ∀ ws, Preserves (fun s : Fs => ws <+: s.writes) f

lemma OnlyWrites.appends {f : FsM α} (hf : OnlyWrites f) : Appends f := fun ws => hf _ (stable_writes ws)

/-! ### What the functions keep -/

/-- The predicate counts if the writes so far are among the first of those after `s0`. -/
def Upto (s0 : Fs) (W : List (ℕ × Block)) (P : Fs → Prop) (s : Fs) : Prop :=
  s.writes <+: s0.writes ++ W → P s

/-- From `P` the function returns with `Q`; it keeps the owners in any case. -/
def Keeps (X : Set ℕ) (s0 : Fs) (W : List (ℕ × Block)) (P : Fs → Prop) (f : FsM α) (Q : α → Fs → Prop) :
    Prop :=
  Triple.Holds (Upto s0 W P) f (fun a => Upto s0 W (Q a)) fun _ => Upto s0 W (Frame X s0)

namespace Keeps

variable {X : Set ℕ} {W : List (ℕ × Block)} {P : Fs → Prop} {f : FsM α} {g : α → FsM β}
  {Q : α → Fs → Prop} {R : β → Fs → Prop}

lemma of_appends (happ : Appends f) (hok : ∀ s a t, P s → f s = .ok a t → Upto s0 W (Q a) t)
    (herr : ∀ s e t, P s → f s = .error e t → Upto s0 W (Frame X s0) t) : Keeps X s0 W P f Q := by
  refine Triple.Holds.of_run (fun s a t hs hf ht => ?_) fun s e t hs hf ht => ?_
  · have hst : s.writes <+: t.writes := by
      have := happ s.writes s prefix_rfl
      rwa [hf] at this
    exact hok s a t (hs (hst.trans ht)) hf ht
  · have hst : s.writes <+: t.writes := by
      have := happ s.writes s prefix_rfl
      rwa [hf] at this
    exact herr s e t (hs (hst.trans ht)) hf ht

lemma and_const {p : Prop} (happ : Appends f) (h : Keeps X s0 W P f Q) :
    Keeps X s0 W (fun s => P s ∧ p) f fun a s => Q a s ∧ p :=
  .of_appends happ (fun _ _ _ hs hrun hw => ⟨h.ok (fun _ => hs.1) hrun hw, hs.2⟩)
    fun _ _ _ hs hrun hw => h.error (fun _ => hs.1) hrun hw

end Keeps

/-- The inode has the block `blk` at index `k`. -/
structure HasBlock (X : Set ℕ) (s0 : Fs) (ino : ℕ) (inode : OnyfsInode) (k : Fin 10) (blk : ℕ) (s : Fs) : Prop
    extends Pending X s0 ino inode s where
  block_eq : inode.blocks k = blk
  ne_zero : blk ≠ 0

lemma HasBlock.withBuf {X : Set ℕ} {k : Fin 10} (h : HasBlock X s0 ino inode k blk s) (b : Block) :
    HasBlock X s0 ino inode k blk (s.withBuf b) :=
  ⟨h.toPending.withBuf b, h.block_eq, h.ne_zero⟩

section

variable {X : Set ℕ} {W : List (ℕ × Block)}

lemma keeps_logBuf (ino : ℕ) (inode : OnyfsInode) (k : Fin 10) :
    Keeps X s0 W (HasBlock X s0 ino inode k blk) (logBuf blk) fun _ => HasBlock X s0 ino inode k blk := by
  refine .of_appends (onlyWrites_logBuf blk).appends ?_ ?_
  · rintro s a t ⟨hp, rfl, hne⟩ hrun hw
    rcases logBuf_cases hp.frame.apart (inode.blocks k) with ⟨e, herr⟩ | ⟨t', hok, hwrote⟩
    · rw [herr] at hrun
      cases hrun
    · rw [hok] at hrun
      injection hrun with _ ht
      exact ⟨hp.wrote_block hne (ht ▸ hwrote), rfl, hne⟩
  · rintro s e t ⟨hp, rfl, hne⟩ hrun hw
    rcases logBuf_cases hp.frame.apart (inode.blocks k) with ⟨e', herr⟩ | ⟨t', hok, -⟩
    · rw [herr] at hrun
      injection hrun with _ ht
      exact ht ▸ hp.frame
    · rw [hok] at hrun
      cases hrun

lemma writeInode_cases (h : s.sb.Apart) (hv : s.version = .v2) (ino : ℕ) (inode : OnyfsInode) :
    (∃ e b, writeInode ino inode s = .error e (s.withBuf b)) ∨
      ∃ t, writeInode ino inode s = .ok () t ∧ WroteBlock s (s.inodeBlock ino) (s.withInode ino inode) t := by
  have hv1 : s.version ≠ .v1 := by simp [hv]
  have hrun : writeInode ino inode s = logBuf (s.inodeBlock ino) (s.withBuf (s.withInode ino inode)) := by
    rw [writeInode, get_bind, if_neg hv1, get_bind, readBuf_bind, get_bind, setBuf_bind, withBuf_withBuf]
    rfl
  rw [hrun]
  rcases logBuf_cases (s := s.withBuf (s.withInode ino inode)) h (s.inodeBlock ino) with
    ⟨e, herr⟩ | ⟨t, hok, hwrote⟩
  · exact .inl ⟨e, _, herr⟩
  · exact .inr ⟨t, hok, hwrote.of_withBuf⟩

lemma keeps_writeInode (ino : ℕ) (inode : OnyfsInode) :
    Keeps X s0 W (Pending X s0 ino inode) (writeInode ino inode) fun _ => Pending X s0 ino inode := by
  refine .of_appends (onlyWrites_writeInode ino inode).appends ?_ ?_
  · intro s a t hp hrun hw
    rcases writeInode_cases hp.frame.apart hp.frame.version ino inode with ⟨e, b, herr⟩ | ⟨t', hok, hwrote⟩
    · rw [herr] at hrun
      cases hrun
    · rw [hok] at hrun
      injection hrun with _ ht
      exact hp.wrote_inode (ht ▸ hwrote)
  · intro s e t hp hrun hw
    rcases writeInode_cases hp.frame.apart hp.frame.version ino inode with ⟨e', b, herr⟩ | ⟨t', hok, -⟩
    · rw [herr] at hrun
      injection hrun with _ ht
      exact ht ▸ hp.frame.withBuf b
    · rw [hok] at hrun
      cases hrun

lemma allocBit_cases (h : s.sb.Apart) (blk : ℕ) : (∃ e b, allocBit blk s = .error e (s.withBuf b)) ∨
      ∃ i t, allocBit blk s = .ok i t ∧ findClear (s.disk blk).mem onyfsBlockSize 0 = some i ∧
        i < bitsPerBlock ∧ s.bit blk i = false ∧ WroteBlock s blk (s.withBit blk i) t := by
  rw [allocBit, readBuf_bind, get_bind, withBuf_buf]
  cases hfind : findClear (s.disk blk).mem onyfsBlockSize 0 with
  | none => exact .inl ⟨.noSpace, _, rfl⟩
  | some i =>
    obtain ⟨hclear, hlt⟩ := findClear_eq_some hfind
    dsimp only
    rw [setBuf_bind, withBuf_withBuf]
    rcases logBuf_cases (s := s.withBuf (s.withBit blk i)) h blk with ⟨e, herr⟩ | ⟨t, hok, hwrote⟩
    · exact .inl ⟨e, s.withBit blk i, bind_of_error herr⟩
    · exact .inr ⟨i, t, bind_of_ok hok, rfl, hlt, hclear, hwrote.of_withBuf⟩

lemma keeps_allocDataBlock (hW : s0.TakesBelow W u32Size) :
    Keeps X s0 W (Pending X s0 ino inode) allocDataBlock fun blk s =>
      ∀ idx, HasBlock X s0 ino (inode.setBlock idx blk) idx blk s := by
  refine .of_appends onlyWrites_allocDataBlock.appends ?_ ?_
  · intro s blk t hp hrun hw
    rw [allocDataBlock, get_bind] at hrun
    rcases allocBit_cases hp.frame.apart s.sb.dataBitmapStart with
      ⟨e, b, herr⟩ | ⟨i, t', hok, -, hi, hclear, hwrote⟩
    · rw [bind_of_error herr] at hrun
      cases hrun
    rw [bind_of_ok hok, get_bind] at hrun
    injection hrun with hblk ht
    subst ht
    -- the write of the bitmap is one of the writes of the operation
    have hlt : s.sb.dataBlocksStart + i < u32Size := by
      rw [hp.frame.sb_eq]
      refine hW i ⟨?_, (s.sb.dataBitmapStart, s.withBit s.sb.dataBitmapStart i), ?_, ?_, ?_⟩
      · by_contra hset
        rw [hp.frame.bits i (Bool.eq_true_of_not_eq_false hset)] at hclear
        exact Bool.noConfusion hclear
      · obtain ⟨ws, hws⟩ := hp.frame.writes_eq
        obtain ⟨ws', hws', hmem⟩ := hwrote.writes_eq
        obtain ⟨rest, hrest⟩ := hw
        rw [hws', hws, append_assoc, append_assoc, append_cancel_left_eq] at hrest
        rw [← hrest]
        exact mem_append_right _ (mem_append_left _ hmem)
      · rw [hp.frame.sb_eq]
      · rw [test_withBit hi, if_pos rfl]
    rw [hwrote.sb_eq, Nat.mod_eq_of_lt hlt] at hblk
    subst hblk
    refine fun idx => ⟨hp.wrote_bit hi hclear hlt hwrote idx, setBlock_self .., ?_⟩
    exact Nat.ne_of_gt (Nat.add_pos_left hp.frame.apart.poolStart_pos i)
  · intro s e t hp hrun hw
    rw [allocDataBlock, get_bind] at hrun
    rcases allocBit_cases hp.frame.apart s.sb.dataBitmapStart with ⟨e', b, herr⟩ | ⟨i, t', hok, -⟩
    · rw [bind_of_error herr] at hrun
      injection hrun with _ ht
      exact ht ▸ hp.frame.withBuf b
    · rw [bind_of_ok hok, get_bind] at hrun
      cases hrun

lemma keeps_journalCommit : Keeps X s0 W (Frame X s0) journalCommit fun _ => Frame X s0 := by
  refine .of_appends onlyWrites_journalCommit.appends ?_ ?_
  · intro s a t hf hrun hw
    obtain ⟨t', hok, hf'⟩ := hf.journalCommit
    rw [hok] at hrun
    injection hrun with _ ht
    exact ht ▸ hf'
  · intro s e t hf hrun hw
    obtain ⟨t', hok, -⟩ := hf.journalCommit
    rw [hok] at hrun
    cases hrun

lemma keeps_allocInode (hf : Frame X s s) (hfresh : s.Fresh fun ino => s.sb.IsInode ino ∧ ino ∈ X) :
    Triple.Holds (· = s) allocInode
      (fun ino t => (s.sb.IsInode ino ∧ ino ∈ X) ∧ Upto s W (Frame X s) t) fun _ => Upto s W (Frame X s) := by
  rintro _ rfl
  rw [allocInode]
  rcases allocBit_cases hf.apart 1 with ⟨e, b, herr⟩ | ⟨i, t', hok, hfind, hi, -, hwrote⟩
  · rw [bind_of_error herr]
    exact fun _ => hf.withBuf b
  · rw [bind_of_ok hok]
    exact ⟨hfresh i hfind, fun _ => hf.wrote_inodeBitmap hwrote⟩

/-- The account of the owners, and of the files that are not worked on. -/
def Frame.account (hf : Frame X s s) (hW : s.TakesBelow W u32Size) : Account s where
  Admits ino := s.sb.IsInode ino ∧ ino ∈ X
  Base := Upto s W (Frame X s)
  Pending ino inode := Upto s W (Pending X s ino inode)
  Holding ino inode k blk := Upto s W (HasBlock X s ino inode k blk)
  Done := Upto s W (Frame X s)
  Failed := Upto s W (Frame X s)
  start _ := hf
  failed_of_base := id
  base_of_pending h hw := (h hw).frame
  pending_of_holding h hw := (h hw).toPending
  holding_of_pending h hne hw := ⟨h hw, rfl, hne⟩
  base_withBuf _ b h hw := (h hw).withBuf b
  pending_withBuf _ b h hw := (h hw).withBuf b
  holding_withBuf _ b h hw := (h hw).withBuf b
  pending_inodeAt hino h hw :=
    ⟨h hw, hino.1, hino.2, (h hw).owned.writable (h hw).version ((h hw).sb_eq ▸ hino.1)⟩
  pending_zero hino h hzero hw := ⟨h hw, hino.1, hino.2, writable_of_zero hzero⟩
  pending_congr h heq hw := ⟨(h hw).frame, (h hw).isInode, (h hw).mem, (h hw).writable.congr heq⟩
  logBuf := keeps_logBuf _ _ _
  writeInode := keeps_writeInode _ _
  writeInode_holding := by
    intro ino inode k blk
    have hconst : Keeps X s W (fun t => Pending X s ino inode t ∧ inode.blocks k = blk ∧ blk ≠ 0)
        (writeInode ino inode) fun _ t => Pending X s ino inode t ∧ inode.blocks k = blk ∧ blk ≠ 0 :=
      (keeps_writeInode ino inode).and_const (onlyWrites_writeInode ino inode).appends
    refine hconst.mono ?_ ?_ fun _ _ => id
    · exact fun _ h hw => ⟨(h hw).toPending, (h hw).block_eq, (h hw).ne_zero⟩
    · exact fun _ _ h hw => ⟨(h hw).1, (h hw).2.1, (h hw).2.2⟩
  allocDataBlock := (keeps_allocDataBlock hW).mono (fun _ => id) (fun _ _ h idx hw => h hw idx) fun _ _ => id
  allocInode := keeps_allocInode hf
  commit := keeps_journalCommit

/-- An operation on inodes of the table keeps the owners, and changes no inode and no block of a file that
it does not work on. -/
theorem Op.frame {op : Op} (hf : Frame X s s) (hW : s.TakesBelow W u32Size)
    (hop : op.WorksOn s fun ino => s.sb.IsInode ino ∧ ino ∈ X) :
    Upto s W (Frame X s) (final (op.run s)) :=
  ((hf.account hW).run hop).final rfl

end

/-- An operation on inodes of the table, which may fail.  With its writes `ws` it takes only data blocks
inside the disk. -/
def OpStep (s t : Fs) : Prop :=
  ∃ (op : Op) (ws : List (ℕ × Block)), op.WorksOn s s.sb.IsInode ∧ t = final (op.run s) ∧
    t.writes = s.writes ++ ws ∧ s.TakesBelow ws s.sb.totalBlocks

/-- A version 2 file system with its areas apart and an owner for every block. -/
structure OwnedFs (s : Fs) : Prop where
  version : s.version = .v2
  apart : s.sb.Apart
  owned : Owned s

lemma OwnedFs.frame (h : OwnedFs s) (X : Set ℕ) : Frame X s s :=
  ⟨rfl, h.version, h.apart, h.owned, ⟨[], (append_nil _).symm⟩, fun _ => id, fun _ _ _ => rfl,
    fun _ _ _ _ _ => rfl⟩

lemma OwnedFs.step (h : OwnedFs s) (hstep : OpStep s t) : OwnedFs t := by
  obtain ⟨op, ws, hop, rfl, hws, htakes⟩ := hstep
  have hW : s.TakesBelow ws u32Size := fun i hi => (htakes i hi).trans_le h.apart.total_le
  have hf := Op.frame (h.frame Set.univ) hW (hop.mono fun ino hino => ⟨hino, Set.mem_univ _⟩)
    (hws ▸ prefix_rfl)
  exact ⟨hf.version, hf.apart, hf.owned⟩

/-! ### A run on the small disk -/

lemma apart_smallSuper : smallSuper.Apart := by
  refine ⟨?_, ?_, ?_, ?_, ?_, ?_, ?_, ?_, ?_, ?_, ?_, ?_, ?_, ?_, ?_⟩ <;>
    simp [smallSuper, OnyfsSuper.InTable, OnyfsSuper.InLog, OnyfsSuper.InJournal, OnyfsSuper.InData,
      OnyfsSuper.tableBlocks, u32Size] <;> omega

lemma ownedFs_smallFs : OwnedFs smallFs where
  version := rfl
  apart := apart_smallSuper
  owned := ⟨fun _ hino k hk => absurd (smallFs_blocks hino.hasSlot k) hk,
    fun _ _ hino _ k _ hk _ => absurd (smallFs_blocks hino.hasSlot k) hk⟩

lemma takesBelow_smallFs (ws : List (ℕ × Block)) : smallFs.TakesBelow ws 40 := by
  rintro i ⟨hclear, w, -, -, hset⟩
  have hbit : ({ smallFs with disk := fun _ => w.2 } : Fs).bit 0 i = true := hset
  exact Nat.add_lt_add_left (smallFs_free (lt_of_bit hbit) hclear) 36

/-! ### The inode that was written -/

/-- `read_inode` gives the inode back that was written, and the other inodes of the table as before. -/
def Persisted (s t : Fs) (ino : ℕ) (inode : OnyfsInode) : Prop :=
  (∃ u, readInode ino t = .ok inode u) ∧ ∀ ino', s.sb.IsInode ino' → ino' ≠ ino →
      ∃ other u v, readInode ino' s = .ok other u ∧ readInode ino' t = .ok other v

end OnyxKernel.Onyxfs
