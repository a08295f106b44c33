import OnyxKernel.Foundation.Triple
import OnyxKernel.Fs.Transaction

/-!
# What the operations keep

An operation logs writes of inodes, of the blocks that belong to them and of the bitmaps, and commits them.
An account says what holds between these writes, and has a rule for each of the functions that make them.
Every operation keeps to the account (`Account.run`), whether it succeeds or fails: the functions in between
are followed once, for all accounts.
-/

namespace OnyxKernel.Onyxfs

open ByteMemory Triple KResult Fs

variable {s s0 t : Fs} {blk ino : ℕ} {inode : OnyfsInode} {α β : Type}

/-! ### Functions that only read -/

/-- The state a function leaves, whether it succeeds or not. -/
def finalState {α : Type} : EStateM.Result Errno Fs α → Fs
  | .ok _ t => t
  | .error _ t => t

/-- The function changes no more than `G_BUF`. -/
def ReadOnly {α : Type} (f : FsM α) : Prop := ∀ s, ∃ b, finalState (f s) = s.withBuf b

namespace ReadOnly

variable {α β : Type}

lemma pure (a : α) : ReadOnly (Pure.pure a : FsM α) := fun s => ⟨s.buf, rfl⟩

lemma throw (e : Errno) : ReadOnly (MonadExcept.throw e : FsM α) := fun s => ⟨s.buf, rfl⟩

lemma get_bind {k : Fs → FsM α} (h : ∀ s, ReadOnly (k s)) : ReadOnly (get >>= k) :=
  fun s => h s s

lemma bind {f : FsM α} {k : α → FsM β} (hf : ReadOnly f) (hk : ∀ a, ReadOnly (k a)) : ReadOnly (f >>= k) := by
  intro s
  obtain ⟨b, hb⟩ := hf s
  cases hr : f s with
  | ok a t =>
    rw [hr] at hb
    obtain ⟨b', hb'⟩ := hk a t
    refine ⟨b', ?_⟩
    rw [bind_of_ok hr, hb']
    exact congrArg (·.withBuf b') hb
  | error e t =>
    rw [hr] at hb
    refine ⟨b, ?_⟩
    rwa [bind_of_error hr]

lemma readInode (ino : ℕ) : ReadOnly (readInode ino) := by
  intro s
  rw [readInode_eq]
  exact ⟨_, rfl⟩

lemma stat (ino : ℕ) : ReadOnly (stat ino) := bind (readInode ino) fun _ => pure _

lemma parseDirent (slot : ℕ) : ReadOnly (parseDirent slot) := by
  refine get_bind fun s => ?_
  simp only
  split
  · exact throw _
  · split
    · exact pure _
    · exact pure _

lemma lookupScan (name : List UInt8) (fuel i : ℕ) : ReadOnly (lookupScan name fuel i) := by
  induction fuel generalizing i with
  | zero => exact throw _
  | succ fuel ih =>
    refine bind (parseDirent i) fun d => ?_
    split
    · exact pure _
    · exact ih (i + 1)

lemma lookupIn (dirIno : ℕ) (name : List UInt8) : ReadOnly (lookupIn dirIno name) := by
  refine bind (readInode dirIno) fun inode => ?_
  simp only
  split
  · exact throw _
  · refine bind (fun s => ⟨_, rfl⟩) fun _ => get_bind fun s => ?_
    exact bind (lookupScan name _ 0) fun found => stat found

lemma lookupLoop (fuel : ℕ) (path : List UInt8) (cur : ℕ) : ReadOnly (lookupLoop fuel path cur) := by
  induction fuel generalizing path cur with
  | zero => exact pure _
  | succ fuel ih =>
    unfold Onyxfs.lookupLoop
    simp only
    split
    · exact pure _
    · refine bind (lookupIn cur _) fun out => ?_
      split
      · exact pure _
      · exact ih _ _

lemma lookup (path : List UInt8) : ReadOnly (lookup path) :=
  bind (lookupLoop _ path _) fun cur => stat cur

lemma parentIno (path : List UInt8) : ReadOnly (parentIno path) := by
  unfold Onyxfs.parentIno
  split
  · exact pure _
  · exact bind (lookup path) fun _ => pure _

end ReadOnly

/-- Where a function that only reads fails, no more than `G_BUF` has changed. -/
theorem ReadOnly.error_eq {α : Type} {f : FsM α} (hf : ReadOnly f) {e : Errno} (hrun : f s = .error e t) :
    ∃ b, t = s.withBuf b := by
  obtain ⟨b, hb⟩ := hf s
  rw [hrun] at hb
  exact ⟨b, hb⟩

lemma ReadOnly.eq_withBuf {α : Type} {f : FsM α} (hf : ReadOnly f) {a : α} (hr : f s = .ok a t) :
    ∃ b, t = s.withBuf b := by
  obtain ⟨b, hb⟩ := hf s
  rw [hr] at hb
  exact ⟨b, hb⟩

/-! ### Operations -/

/-- The operations that change the file system. -/
inductive Op where
  | write (ino : ℕ) (data : List UInt8) (off : ℕ)
  | create (dirIno : ℕ) (name : List UInt8) (mode : ℕ)
  | mkdir (dirIno : ℕ) (name : List UInt8)
  | truncate (ino : ℕ)
  | unlink (path : List UInt8)
  | rename (oldPath newPath : List UInt8)

/-- Run an operation. -/
def Op.run : Op → FsM Unit
  | .write ino data off => do let _ ← Onyxfs.write ino data off
  | .create dirIno name mode => do let _ ← Onyxfs.create dirIno name mode
  | .mkdir dirIno name => do let _ ← Onyxfs.mkdir dirIno name
  | .truncate ino => Onyxfs.truncate ino
  | .unlink path => Onyxfs.unlink path
  | .rename oldPath newPath => Onyxfs.rename oldPath newPath

/-- The inode number that an allocation would take has the property. -/
def Fs.Fresh (s : Fs) (P : ℕ → Prop) : Prop :=
  ∀ i, Bitmap.findClear (s.disk 1).mem onyfsBlockSize 0 = some i → P (i + 1)

/-- The inode of the parent path of `path`, however `G_BUF` looks, has the property. -/
def Fs.ParentIs (s : Fs) (path : List UInt8) (P : ℕ → Prop) : Prop :=
  ∀ b ino t, parentIno (splitPath path.tail).1 (s.withBuf b) = .ok ino t → P ino

/-- The inodes an operation works on, and the one it allocates, have the property. -/
def Op.WorksOn (s : Fs) (P : ℕ → Prop) : Op → Prop
  | .write ino _ _ => P ino
  | .create dirIno _ _ => P dirIno ∧ s.Fresh P
  | .mkdir dirIno _ => P dirIno ∧ s.Fresh P
  | .truncate ino => P ino
  | .unlink path => s.ParentIs path P
  | .rename oldPath newPath => s.ParentIs oldPath P ∧ s.ParentIs newPath P

lemma Op.WorksOn.mono {P Q : ℕ → Prop} {op : Op} (h : op.WorksOn s P) (hPQ : ∀ ino, P ino → Q ino) :
    op.WorksOn s Q := by
  cases op with
  | write ino data off => exact hPQ _ h
  | create dirIno name mode => exact ⟨hPQ _ h.1, fun i hi => hPQ _ (h.2 i hi)⟩
  | mkdir dirIno name => exact ⟨hPQ _ h.1, fun i hi => hPQ _ (h.2 i hi)⟩
  | truncate ino => exact hPQ _ h
  | unlink path => exact fun b ino t hrun => hPQ _ (h b ino t hrun)
  | rename oldPath newPath =>
    exact ⟨fun b ino t hrun => hPQ _ (h.1 b ino t hrun), fun b ino t hrun => hPQ _ (h.2 b ino t hrun)⟩

/-! ### Accounts -/

/-- An account of what an operation keeps from the state `s0` on. -/
structure Account (s0 : Fs) where
  /-- The inodes the operation may work on. -/
  Admits : ℕ → Prop
  /-- Between the writes. -/
  Base : Fs → Prop
  /-- The inode may be written under this number. -/
  Pending : ℕ → OnyfsInode → Fs → Prop
  /-- Moreover the inode has this block at this index, and the block may be written. -/
  Holding : ℕ → OnyfsInode → Fin 10 → ℕ → Fs → Prop
  Done : Fs → Prop
  Failed : Fs → Prop
  start : Base s0
  failed_of_base : ∀ {s}, Base s → Failed s
  base_of_pending : ∀ {ino inode s}, Pending ino inode s → Base s
  pending_of_holding : ∀ {ino inode k blk s}, Holding ino inode k blk s → Pending ino inode s
  holding_of_pending : ∀ {ino inode k s}, Pending ino inode s → inode.blocks k ≠ 0 →
    Holding ino inode k (inode.blocks k) s
  base_withBuf : ∀ s b, Base s → Base (withBuf s b)
  pending_withBuf : ∀ {ino inode} s b, Pending ino inode s → Pending ino inode (withBuf s b)
  holding_withBuf : ∀ {ino inode k blk} s b, Holding ino inode k blk s →
    Holding ino inode k blk (withBuf s b)
  pending_inodeAt : ∀ {ino s}, Admits ino → Base s → Pending ino (s.inodeAt ino) s
  pending_zero : ∀ {ino inode s}, Admits ino → Base s → (∀ k, inode.blocks k = 0) → Pending ino inode s
  pending_congr : ∀ {ino inode inode' s}, Pending ino inode s → inode'.blocks = inode.blocks →
    Pending ino inode' s
  logBuf : ∀ {ino inode k blk}, Holds (Holding ino inode k blk) (logBuf blk)
    (fun _ => Holding ino inode k blk) fun _ => Failed
  writeInode : ∀ {ino inode}, Holds (Pending ino inode) (writeInode ino inode) (fun _ => Pending ino inode)
    fun _ => Failed
  writeInode_holding : ∀ {ino inode k blk}, Holds (Holding ino inode k blk) (Onyxfs.writeInode ino inode)
    (fun _ => Holding ino inode k blk) fun _ => Failed
  allocDataBlock : ∀ {ino inode}, Holds (Pending ino inode) allocDataBlock
    (fun blk s => ∀ idx, Holding ino (inode.setBlock idx blk) idx blk s) fun _ => Failed
  allocInode : s0.Fresh Admits → Holds (· = s0) allocInode (fun ino s => Admits ino ∧ Base s) fun _ => Failed
  commit : Holds Base journalCommit (fun _ => Done) fun _ => Failed

namespace Account

variable {A : Account s0} {P : Fs → Prop}

/-- From `P` the function returns with `Q`, or it fails as the account says. -/
abbrev Runs (A : Account s0) (P : Fs → Prop) (f : FsM α) (Q : α → Fs → Prop) : Prop :=
  Holds P f Q fun _ => A.Failed

lemma readBuf (h : ∀ s b, P s → P (withBuf s b)) (blk : ℕ) : A.Runs P (readBuf blk) fun _ => P :=
  fun s hs => h s _ hs

lemma setBuf (h : ∀ s b, P s → P (withBuf s b)) (b : Block) : A.Runs P (setBuf b) fun _ => P :=
  fun s hs => h s _ hs

lemma readInode (hino : A.Admits ino) : A.Runs A.Base (readInode ino) (A.Pending ino) := by
  intro s hs
  rw [readInode_eq]
  exact A.pending_withBuf _ _ (A.pending_inodeAt hino hs)

lemma allocAndWrite (b : Block) (idx : Fin 10) {k : ℕ → FsM α} {Q : α → Fs → Prop}
    (hk : ∀ blk, A.Runs (A.Holding ino (inode.setBlock idx blk) idx blk) (k blk) Q) :
    A.Runs (A.Pending ino inode) (do
      let blk ← Onyxfs.allocDataBlock
      Onyxfs.setBuf b
      Onyxfs.logBuf blk
      k blk) Q := by
  refine .bind A.allocDataBlock fun blk => .bind ((setBuf A.holding_withBuf b).pre ?_) fun _ =>
    .bind A.logBuf fun _ => hk blk
  exact fun s h => h idx

lemma mapBlock (idx : Fin 10) :
    A.Runs (A.Pending ino inode) (mapBlock inode idx) fun inode' => A.Holding ino inode' idx (inode'.blocks idx) := by
  refine .ite (fun _ => allocAndWrite _ idx fun blk => .pure fun s h => ?_) fun hne => .pure fun s h => ?_
  · rwa [OnyfsInode.setBlock_self]
  · exact A.holding_of_pending h hne

lemma writeLoop (data : List UInt8) (fuel : ℕ) (inode : OnyfsInode) (written curOff remaining : ℕ) :
    A.Runs (A.Pending ino inode) (writeLoop data fuel inode written curOff remaining) fun r =>
      A.Pending ino r.1 := by
  induction fuel generalizing inode written curOff remaining with
  | zero => exact .pure fun _ => id
  | succ fuel ih =>
    refine .ite (fun _ => .pure fun _ => id) fun _ => ?_
    split
    · refine .bind (mapBlock _) fun inode' => .bind (readBuf A.holding_withBuf _) fun _ => .read fun s => ?_
      refine .bind (setBuf A.holding_withBuf _) fun _ => .bind A.logBuf fun _ => ?_
      exact (ih inode' _ _ _).pre fun _ => A.pending_of_holding
    · exact .pure fun _ => id

lemma writeInode_base : A.Runs (A.Pending ino inode) (Onyxfs.writeInode ino inode) fun _ => A.Base :=
  A.writeInode.mono (fun _ => id) (fun _ _ => A.base_of_pending) fun _ _ => id

lemma throw {e : Errno} {Q : α → Fs → Prop} : A.Runs A.Base (MonadExcept.throw e) Q :=
  .throw fun _ => A.failed_of_base

lemma write (hino : A.Admits ino) (data : List UInt8) (off : ℕ) :
    A.Runs A.Base (write ino data off) fun _ => A.Done := by
  refine .read fun _ => .ite (fun _ => throw) fun _ => .bind (readInode hino) fun inode =>
    .bind (writeLoop data _ _ _ _ _) fun r => .read fun s => ?_
  refine .bind (writeInode_base.pre fun _ h => ?_) fun _ =>
    .bind A.commit fun _ => .pure fun _ => id
  exact A.pending_congr h rfl

lemma truncate (hino : A.Admits ino) : A.Runs A.Base (truncate ino) fun _ => A.Done := by
  refine .read fun _ => .ite (fun _ => throw) fun _ => .bind (readInode hino) fun inode =>
    .bind (writeInode_base.pre fun _ h => ?_) fun _ => A.commit
  exact A.pending_zero hino (A.base_of_pending h) fun _ => rfl

/-! ### Directories -/

lemma dirBlock (hino : A.Admits ino) :
    A.Runs A.Base (dirBlock ino) fun blk s => ∃ inode, A.Holding ino inode 0 blk s := by
  refine .bind (readInode hino) fun inode => .ite (fun _ => ?_) fun hne => .pure fun s h => ?_
  · refine allocAndWrite _ 0 fun blk => .bind A.writeInode_holding fun _ => .pure fun s h => ?_
    exact ⟨_, h⟩
  · exact ⟨inode, A.holding_of_pending h hne⟩

lemma putDirent (ino : ℕ) (b : Block) : A.Runs (fun s => ∃ inode, A.Holding ino inode 0 blk s) (do
      Onyxfs.setBuf b
      Onyxfs.logBuf blk) fun _ => A.Base := by
  rintro s ⟨inode, h⟩
  have hlog : A.Runs (A.Holding ino inode 0 blk) (Onyxfs.logBuf blk) fun _ => A.Base :=
    A.logBuf.mono (fun _ => id) (fun _ _ h => A.base_of_pending (A.pending_of_holding h)) fun _ _ => id
  exact Holds.bind (setBuf A.holding_withBuf b) (fun _ => hlog) s h

lemma addDirent (hino : A.Admits ino) (name : List UInt8) (target : ℕ) (dtype : UInt8) :
    A.Runs A.Base (addDirent ino name target dtype) fun _ => A.Base := by
  refine .bind (dirBlock hino) fun blk => .bind (readBuf ?_ _) fun _ => .read fun s => ?_
  · rintro s b ⟨inode, h⟩
    exact ⟨inode, A.holding_withBuf s b h⟩
  cases s.findEntry name with
  | some i => exact putDirent ino _
  | none =>
    cases s.findFree with
    | some i => exact putDirent ino _
    | none =>
      rintro t ⟨inode, h⟩
      exact A.failed_of_base (A.base_of_pending (A.pending_of_holding h))

lemma removeDirent (hino : A.Admits ino) (name : List UInt8) :
    A.Runs A.Base (removeDirent ino name) fun _ => A.Base := by
  refine .bind (readInode hino) fun inode => .ite (fun _ => .throw fun t h => ?_) fun hne =>
    .bind (readBuf A.pending_withBuf _) fun _ => .read fun s => ?_
  · exact A.failed_of_base (A.base_of_pending h)
  cases s.findEntry name with
  | some i =>
    refine (putDirent ino _).pre fun t h => ?_
    exact ⟨inode, A.holding_of_pending h hne⟩
  | none => exact .throw fun t h => A.failed_of_base (A.base_of_pending h)

/-! ### Creating and removing files -/

lemma throw_start {e : Errno} {Q : α → Fs → Prop} : A.Runs (· = s0) (MonadExcept.throw e) Q := by
  rintro _ rfl
  exact A.failed_of_base A.start

lemma addAndCommit (hino : A.Admits ino) (name : List UInt8) (dtype : UInt8) (new : ℕ) : A.Runs A.Base (do
      Onyxfs.addDirent ino name new dtype
      journalCommit
      return new) fun _ => A.Done :=
  .bind (addDirent hino _ _ _) fun _ => .bind A.commit fun _ => .pure fun _ => id

lemma allocInode_bind (hfresh : s0.Fresh A.Admits) {k : ℕ → FsM α} {Q : α → Fs → Prop}
    (hk : ∀ ino, A.Admits ino → A.Runs A.Base (k ino) Q) : A.Runs (· = s0) (Onyxfs.allocInode >>= k) Q :=
  .bind (A.allocInode hfresh) fun ino s h => hk ino h.1 s h.2

lemma create (hino : A.Admits ino) (hfresh : s0.Fresh A.Admits) (name : List UInt8) (mode : ℕ) :
    A.Runs (· = s0) (create ino name mode) fun _ => A.Done := by
  refine .read fun _ => .ite (fun _ => throw_start) fun _ => .ite (fun _ => throw_start) fun _ =>
    allocInode_bind hfresh fun new hnew => .read fun s => ?_
  refine .bind (writeInode_base.pre fun _ h => ?_) fun _ =>
    addAndCommit hino name 8 new
  exact A.pending_zero hnew h fun _ => rfl

lemma mkdir (hino : A.Admits ino) (hfresh : s0.Fresh A.Admits) (name : List UInt8) :
    A.Runs (· = s0) (mkdir ino name) fun _ => A.Done := by
  refine .read fun _ => .ite (fun _ => throw_start) fun _ => .ite (fun _ => throw_start) fun _ =>
    allocInode_bind hfresh fun new hnew => .read fun s => ?_
  -- the new inode starts without blocks and gets the block with `.` and `..`
  have hrest : ∀ blk, A.Runs (A.Holding new ((newInode onyfsDtDir 2 s.jiffies fun _ => 0).setBlock 0 blk) 0 blk)
      (do
        Onyxfs.writeInode new (newInode onyfsDtDir 2 s.jiffies (Function.update (fun _ => 0) 0 blk))
        Onyxfs.addDirent ino name new 4
        journalCommit
        return new) fun _ => A.Done := fun blk =>
    .bind (writeInode_base.pre fun _ => A.pending_of_holding) fun _ =>
      addAndCommit hino name 4 new
  refine (allocAndWrite _ 0 hrest).pre fun _ h => ?_
  exact A.pending_zero hnew h fun _ => rfl

lemma readOnly {f : FsM α} (hf : ReadOnly f) : A.Runs (fun s => ∃ b, s = s0.withBuf b) f fun a t =>
      (∃ b, f (s0.withBuf b) = .ok a t) ∧ ∃ b, t = s0.withBuf b := by
  refine .of_run ?_ ?_
  · rintro _ a t ⟨b, rfl⟩ hrun
    obtain ⟨b', rfl⟩ := hf.eq_withBuf hrun
    exact ⟨⟨b, hrun⟩, b', rfl⟩
  · rintro _ e t ⟨b, rfl⟩ hrun
    obtain ⟨b', rfl⟩ := hf.error_eq hrun
    exact A.failed_of_base (A.base_withBuf s0 b' A.start)

lemma parentIno_bind {path : List UInt8} (hpar : s0.ParentIs path A.Admits) {k : ℕ → FsM α}
    {Q : α → Fs → Prop} (hk : ∀ ino, A.Admits ino → A.Runs (fun s => ∃ b, s = s0.withBuf b) (k ino) Q) :
    A.Runs (fun s => ∃ b, s = s0.withBuf b) (parentIno (splitPath path.tail).1 >>= k) Q := by
  refine .bind (readOnly (ReadOnly.parentIno _)) fun ino s => ?_
  rintro ⟨⟨b, hrun⟩, hs⟩
  exact hk ino (hpar b ino s hrun) s hs

lemma of_base {f : FsM α} {Q : α → Fs → Prop} (h : A.Runs A.Base f Q) :
    A.Runs (fun s => ∃ b, s = s0.withBuf b) f Q := by
  refine h.pre ?_
  rintro _ ⟨b, rfl⟩
  exact A.base_withBuf _ _ A.start

lemma unlink {path : List UInt8} (hpar : s0.ParentIs path A.Admits) :
    A.Runs (fun s => ∃ b, s = s0.withBuf b) (unlink path) fun _ => A.Done := by
  refine .ite (fun _ => of_base throw) fun _ => .ite (fun _ => of_base throw) fun _ =>
    .ite (fun _ => of_base throw) fun _ => parentIno_bind hpar fun parent hparent => of_base ?_
  exact .bind (removeDirent hparent _) fun _ => A.commit

lemma rename {oldPath newPath : List UInt8} (hold : s0.ParentIs oldPath A.Admits)
    (hnew : s0.ParentIs newPath A.Admits) :
    A.Runs (fun s => ∃ b, s = s0.withBuf b) (rename oldPath newPath) fun _ => A.Done := by
  refine .ite (fun _ => of_base throw) fun _ => .bind (readOnly (ReadOnly.lookup _)) fun st s h =>
    Holds.ite (fun _ => of_base throw) (fun _ => parentIno_bind hold fun old hold' =>
      parentIno_bind hnew fun new hnew' => of_base ?_) s h.2
  exact .bind (addDirent hnew' _ _ _) fun _ => .bind (removeDirent hold' _) fun _ => A.commit

lemma run (A : Account s0) {op : Op} (hop : op.WorksOn s0 A.Admits) :
    A.Runs (· = s0) op.run fun _ => A.Done := by
  have hbase : ∀ s, s = s0 → A.Base s := fun s hs => hs ▸ A.start
  have hbuf : ∀ s, s = s0 → ∃ b, s = s0.withBuf b := fun s hs => ⟨s0.buf, hs⟩
  cases op with
  | write ino data off =>
    exact .bind ((write hop data off).pre hbase) fun _ => .pure fun _ => id
  | create dirIno name mode => exact .bind (create hop.1 hop.2 name mode) fun _ => .pure fun _ => id
  | mkdir dirIno name => exact .bind (mkdir hop.1 hop.2 name) fun _ => .pure fun _ => id
  | truncate ino => exact (truncate hop).pre hbase
  | unlink path => exact (unlink hop).pre hbuf
  | rename oldPath newPath => exact (rename hop.1 hop.2).pre hbuf

end Account

end OnyxKernel.Onyxfs
