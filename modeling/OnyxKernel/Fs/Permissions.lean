import OnyxKernel.Fs.OwnershipRun
import OnyxKernel.Fs.Tokens

/-!
# What a token allows

A call through a token should change an OnyxFS file only if the descriptor is one of OnyxFS with
`PERM_WRITE`, and only the file of the descriptor.  `write` checks the permission and the file system.
`truncate` checks neither: it truncates the OnyxFS inode with the number of the descriptor, whatever file
system the descriptor belongs to.

Every call changes the disk by at most one operation of the driver (`VfsCall.Performs`), so that the frame of
the operations gives the frame of the calls.
-/

namespace OnyxKernel

open ByteMemory Triple KResult Vfs Kernel FdHistory

namespace Onyxfs

variable {s t : Fs} {X : Set ℕ} {j : ℕ}

lemma ReadOnly.readLoop (blocks : List ℕ) (off remaining : ℕ) : ReadOnly (readLoop blocks off remaining) := by
  induction blocks generalizing off remaining with
  | nil => exact pure _
  | cons blk blocks ih =>
    unfold Onyxfs.readLoop
    split
    · exact pure _
    · refine bind (fun s => ⟨_, rfl⟩) fun _ => get_bind fun s => ?_
      exact bind (ih _ _) fun _ => pure _

lemma ReadOnly.read (ino off len : ℕ) : ReadOnly (read ino off len) :=
  bind (readInode ino) fun _ => bind (readLoop _ _ _) fun _ => pure _

/-- The inode `j` and the blocks of its file are the same. -/
def SameFile (j : ℕ) (s t : Fs) : Prop :=
  t.inodeAt j = s.inodeAt j ∧
    ∀ k, (s.inodeAt j).blocks k ≠ 0 → t.disk ((s.inodeAt j).blocks k) = s.disk ((s.inodeAt j).blocks k)

lemma SameFile.withBuf (h : SameFile j s t) (a b : Block) : SameFile j (s.withBuf a) (t.withBuf b) := h

lemma sameFile_refl (j : ℕ) (s : Fs) : SameFile j s s := ⟨rfl, fun _ _ => rfl⟩

/-- A version 1 file system, or one of version 2 in which every block has an owner and every data block has
a 32-bit number. -/
def Tidy (s : Fs) : Prop :=
  s.version = .v1 ∨ OwnedFs s ∧ s.sb.dataBlocksStart + bitsPerBlock ≤ u32Size

lemma Tidy.withBuf (h : Tidy s) (b : Block) : Tidy (s.withBuf b) := by
  rcases h with hv | ⟨h, hpool⟩
  · exact .inl hv
  · exact .inr ⟨⟨h.version, h.apart, ⟨h.owned.allocated, h.owned.unshared⟩⟩, hpool⟩

lemma Op.WorksOn.withBuf {P : ℕ → Prop} {op : Op} (h : op.WorksOn s P) (b : Block) :
    op.WorksOn (s.withBuf b) P := by
  cases op <;> exact h

lemma takesBelow_of_pool (hpool : s.sb.dataBlocksStart + bitsPerBlock ≤ u32Size) (ws : List (ℕ × Block)) :
    s.TakesBelow ws u32Size := by
  rintro i ⟨-, w, -, -, hset⟩
  have hbit : ({ s with disk := fun _ => w.2 } : Fs).bit 0 i = true := hset
  exact (Nat.add_lt_add_left (Fs.lt_of_bit hbit) _).trans_le hpool

lemma Op.frame_of_tidy (h : OwnedFs s) (hpool : s.sb.dataBlocksStart + bitsPerBlock ≤ u32Size) {op : Op}
    (hop : op.WorksOn s fun ino => s.sb.IsInode ino ∧ ino ∈ X) : Frame X s (final (op.run s)) := by
  obtain ⟨ws, hws⟩ := op.onlyWrites.appends s.writes s List.prefix_rfl
  have hframe := Op.frame (W := ws) (h.frame X) (takesBelow_of_pool hpool ws) hop
  rw [Upto, hws] at hframe
  exact hframe List.prefix_rfl

lemma Tidy.run (h : Tidy s) {op : Op} (hop : op.WorksOn s s.sb.IsInode) : Tidy (final (op.run s)) := by
  rcases h with hv | ⟨h, hpool⟩
  · exact .inl (op.onlyWrites (·.version = .v1) ⟨fun _ _ => id, fun _ _ _ => id, fun _ _ => id⟩ s hv)
  · have hframe := Op.frame_of_tidy (X := Set.univ) h hpool (hop.mono fun ino hino => ⟨hino, Set.mem_univ _⟩)
    refine .inr ⟨⟨hframe.version, hframe.apart, hframe.owned⟩, ?_⟩
    rwa [hframe.sb_eq]

/-- The operation works on the contents of the inode. -/
def Op.Alters (ino : ℕ) (op : Op) : Prop := (∃ data off, op = .write ino data off) ∨ op = .truncate ino

lemma Op.Alters.sameFile (h : Tidy s) {op : Op} {ino : ℕ} (hop : op.Alters ino) (hino : s.sb.IsInode ino)
    (hj : s.sb.IsInode j) (hne : j ≠ ino) : SameFile j s (final (op.run s)) := by
  rcases h with hv | ⟨h, hpool⟩
  · -- the driver does not write to version 1 disks
    have hsame : final (op.run s) = s := by
      rcases hop with ⟨data, off, rfl⟩ | rfl
      · have hrun : Onyxfs.write ino data off s = .error .noSys s := by
          rw [Onyxfs.write, get_bind, if_pos hv]
          rfl
        rw [Op.run, bind_of_error hrun]
        rfl
      · have hrun : Onyxfs.truncate ino s = .error .noSys s := by
          rw [Onyxfs.truncate, get_bind, if_pos hv]
          rfl
        rw [Op.run, hrun]
        rfl
    rw [hsame]
    exact sameFile_refl j s
  · have hworks : op.WorksOn s fun ino' => s.sb.IsInode ino' ∧ ino' ∈ ({ino} : Set ℕ) := by
      rcases hop with ⟨data, off, rfl⟩ | rfl
      · exact ⟨hino, rfl⟩
      · exact ⟨hino, rfl⟩
    have hframe := Op.frame_of_tidy h hpool hworks
    have hj' : (final (op.run s)).sb.IsInode j := by
      rwa [hframe.sb_eq]
    exact ⟨hframe.inodeAt_eq j hj' hne, hframe.disk_eq j hj' hne⟩

end Onyxfs

/-! ### Calls -/

open Onyxfs (Fs Op SameFile Tidy ReadOnly)

/-- The calls of the virtual file system. -/
inductive VfsCall where
  | fd (c : FdCall)
  | mkdir (path : List UInt8)
  | unlink (path : List UInt8)
  | rename (oldPath newPath : List UInt8)

namespace Vfs

variable {D : Drivers} {h : Hart} {v : Vfs} {s : Fs} {α : Type}

/-- The file system is the same up to `G_BUF`. -/
def OnyxIs (s : Fs) (v : Vfs) : Prop := ∃ b, v.onyx = s.withBuf b

lemma onyxIs_self (v : Vfs) : OnyxIs v.onyx v := ⟨v.onyx.buf, rfl⟩

lemma onyx_onOnyx (x : Onyxfs.FsM α) (v : Vfs) : (final (onOnyx x v)).onyx = final (x v.onyx) := by
  unfold onOnyx
  cases x v.onyx <;> rfl

lemma onyxIs_onOnyx {x : Onyxfs.FsM α} (hx : ReadOnly x) : Preserves (OnyxIs s) (onOnyx x) := by
  rintro v ⟨b, hb⟩
  obtain ⟨b', hb'⟩ := hx v.onyx
  refine ⟨b', ?_⟩
  rw [onyx_onOnyx, show final (x v.onyx) = v.onyx.withBuf b' from by rw [← hb']; cases x v.onyx <;> rfl, hb]
  rfl

lemma onyxIs_onKernel (f : Kernel → Kernel) : Preserves (OnyxIs s) (onKernel f) := .modify fun _ => id

lemma onyxIs_onIpc (f : Ipc → Kernel → Flow (Except Errno α) × Ipc) : Preserves (OnyxIs s) (onIpc f) := by
  intro v hv
  unfold onIpc
  rcases f v.ipc v.kernel with ⟨⟨_ | _, _⟩ | _ | _, ipc⟩
  all_goals exact hv

lemma onyxIs_allocFd (perms : ℕ) : Preserves (OnyxIs s) (allocFd h perms) := by
  apply Preserves.get_bind
  intro w _
  cases w.kernel.freeFd h with
  | none => exact .throw _
  | some idx => exact .bind (onyxIs_onKernel _) fun _ => .pure _

lemma onyxIs_findFile (name : List UInt8) : Preserves (OnyxIs s) (findFile D h name) :=
  preserves_findFile (fun _ _ => id) (onyxIs_onOnyx (ReadOnly.lookup name))

lemma onyxIs_newEntry (path : List UInt8) : Preserves (OnyxIs s) (newEntry path) :=
  preserves_newEntry (fun _ => onyxIs_onOnyx (ReadOnly.parentIno _)) path

lemma onyxIs_read (token len : ℕ) : Preserves (OnyxIs s) (read D h token len) :=
  preserves_read (fun _ _ _ => onyxIs_onOnyx (ReadOnly.read _ _ _)) (fun _ _ => onyxIs_onIpc _)
    (fun _ _ => onyxIs_onKernel _) token len

lemma fdCheckPerm_cases (h : Hart) (token perm : ℕ) (v : Vfs) :
    (∃ e, fdCheckPerm h token perm v = .error e v) ∨
    ∃ i, fdCheckPerm h token perm v = .ok i v ∧ v.kernel.fdCheck h token = .ok i ∧
      (v.kernel.fdGet h i).perms &&& perm ≠ 0 := by
  cases hcheck : v.kernel.fdCheck h token with
  | error e =>
    refine .inl ⟨e, bind_of_error ?_⟩
    rw [fdCheck_eq, hcheck]
  | ok i =>
    have hrun : fdCheckPerm h token perm v =
        if (v.kernel.fdGet h i).perms &&& perm = 0 then .error .perm v else .ok i v := by
      rw [fdCheckPerm, bind_of_ok (a := i) (t := v) (by rw [fdCheck_eq, hcheck]), get_bind]
      split <;> rfl
    rw [hrun]
    split
    · exact .inl ⟨.perm, rfl⟩
    · rename_i hperm
      exact .inr ⟨i, rfl, rfl, hperm⟩

lemma onyxIs_bind {β : Type} {x : Onyxfs.FsM α} {g : α → VfsM β} (hg : ∀ a s, Preserves (OnyxIs s) (g a))
    (v : Vfs) : OnyxIs (final (x v.onyx)) (final ((onOnyx x >>= g) v)) := by
  have hx : (final (onOnyx x v)).onyx = final (x v.onyx) := onyx_onOnyx x v
  cases hrun : onOnyx x v with
  | ok a v' =>
    rw [hrun] at hx
    rw [bind_of_ok hrun, ← hx]
    exact hg a _ v' (onyxIs_self v')
  | error e v' =>
    rw [hrun] at hx
    rw [bind_of_error hrun, ← hx]
    exact onyxIs_self v'

lemma newEntry_ok {path name : List UInt8} {parent : ℕ} {v' : Vfs}
    (hrun : newEntry path v = .ok (parent, name) v') :
    OnyxIs v.onyx v' ∧ name = (Onyxfs.splitPath path.tail).2 ∧
      ∃ t, Onyxfs.parentIno (Onyxfs.splitPath path.tail).1 v.onyx = .ok parent t := by
  have honyx := onyxIs_newEntry path v (onyxIs_self v)
  rw [hrun] at honyx
  refine ⟨honyx, ?_⟩
  unfold newEntry at hrun
  split at hrun
  · cases hrun
  rw [get_bind] at hrun
  split at hrun
  · cases hrun
  dsimp only at hrun
  split at hrun
  · cases hrun
  obtain ⟨ino, w, hino, hpair⟩ := bind_eq_ok_iff.mp hrun
  injection hpair with hpair _
  injection hpair with hparent hname
  refine ⟨hname.symm, ?_⟩
  unfold onOnyx at hino
  split at hino
  · rename_i ino' t hrun'
    injection hino with heq _
    exact ⟨t, by rw [hrun', heq, hparent]⟩
  · cases hino

end Vfs

namespace FdCall

/-- The token of a call that works through one. -/
def token : FdCall → Option ℕ
  | dup token | close token | read token _ | write token _ | lseek token _ _ | stat token
  | ftruncate token _ | getdents64 _ _ token _ _ => some token
  | openFile _ _ | create _ _ | createPipe => none

end FdCall

namespace VfsCall

variable {D : Drivers} {h : Hart} {v : Vfs} {s : Fs} {c : VfsCall}

/-- Run a call. -/
def run (D : Drivers) (h : Hart) : VfsCall → VfsM Unit
  | fd c => do let _ ← c.run D h
  | mkdir path => Vfs.mkdir path
  | unlink path => Vfs.unlink path
  | rename oldPath newPath => Vfs.rename oldPath newPath

/-- The call may perform the operation of the driver. -/
inductive Performs (h : Hart) (v : Vfs) : VfsCall → Op → Prop where
  | write {token : ℕ} {i : Fin vfsMaxFds} (data : List UInt8) (hcheck : v.kernel.fdCheck h token = .ok i)
      (hperm : (v.kernel.fdGet h i).perms &&& permWrite ≠ 0) (hfs : (v.kernel.fdGet h i).fs = .onyx) :
      Performs h v (fd (.write token data)) (.write (v.kernel.fdGet h i).ino data (v.kernel.fdGet h i).pos)
  | truncate {token : ℕ} {i : Fin vfsMaxFds} (hcheck : v.kernel.fdCheck h token = .ok i) :
      Performs h v (fd (.ftruncate token 0)) (.truncate (v.kernel.fdGet h i).ino)
  | create {path : List UInt8} {parent : ℕ} {t : Fs} (mode : ℕ)
      (hparent : Onyxfs.parentIno (Onyxfs.splitPath path.tail).1 v.onyx = .ok parent t) :
      Performs h v (fd (.create path mode)) (.create parent (Onyxfs.splitPath path.tail).2 mode)
  | mkdir {path : List UInt8} {parent : ℕ} {t : Fs}
      (hparent : Onyxfs.parentIno (Onyxfs.splitPath path.tail).1 v.onyx = .ok parent t) :
      Performs h v (mkdir path) (.mkdir parent (Onyxfs.splitPath path.tail).2)
  | unlink (path : List UInt8) : Performs h v (unlink path) (.unlink path)
  | rename (oldPath newPath : List UInt8) : Performs h v (rename oldPath newPath) (.rename oldPath newPath)

/-- The file system after the call: it is the same, or the result of an operation that the call performs. -/
def Effect (h : Hart) (v : Vfs) (c : VfsCall) (v' : Vfs) : Prop :=
  Vfs.OnyxIs v.onyx v' ∨ ∃ op b, Performs h v c op ∧ Vfs.OnyxIs (final (op.run (v.onyx.withBuf b))) v'

lemma final_discard {ε σ α β : Type} (f : EStateM ε σ α) (g : α → β) (s : σ) :
    final ((f >>= fun a => pure (g a)) s) = final (f s) := by
  cases hrun : f s with
  | ok a t => rw [bind_of_ok hrun]; rfl
  | error e t => rw [bind_of_error hrun]; rfl

lemma effect_write (token : ℕ) (data : List UInt8) (v : Vfs) :
    Effect h v (fd (.write token data)) (final (write h token data v)) := by
  rcases fdCheckPerm_cases h token permWrite v with ⟨e, herr⟩ | ⟨i, hok, hcheck, hperm⟩
  · rw [write, bind_of_error herr]
    exact .inl (onyxIs_self v)
  rw [write, bind_of_ok hok]
  show Effect h v _ (final ((writeBytes h (v.kernel.fdGet h i) data >>= _) v))
  obtain ⟨fd, hfd⟩ : ∃ fd, fd = v.kernel.fdGet h i := ⟨_, rfl⟩
  rw [← hfd]
  have htail : ∀ (s : Fs) (written : ℕ), Preserves (Vfs.OnyxIs s) (do
      let newPos := (fd.pos + written) % 2 ^ 32
      onKernel fun k => k.fdUpdatePos h i newPos
      if fd.size < newPos then onKernel fun k => k.fdModify h i fun fd => { fd with size := newPos }
      return written) := by
    intro s written
    refine .bind (onyxIs_onKernel _) fun _ => ?_
    split
    · exact .bind (onyxIs_onKernel _) fun _ => .pure _
    · exact .pure _
  have hquiet : Preserves (Vfs.OnyxIs v.onyx) (writeBytes h fd data) →
      Effect h v (.fd (.write token data)) (final ((writeBytes h fd data >>= _) v)) := fun hbytes =>
    .inl (hbytes.bind (htail v.onyx) v (onyxIs_self v))
  unfold writeBytes at hquiet ⊢
  cases hfs : fd.fs with
  | onyx =>
    refine .inr ⟨_, v.onyx.buf, .write data hcheck hperm (hfd ▸ hfs), ?_⟩
    rw [Op.run, final_discard, ← hfd]
    exact onyxIs_bind (fun a s => htail s a) v
  | proc =>
    rw [hfs] at hquiet
    exact hquiet (.throw _)
  | ipc =>
    rw [hfs] at hquiet
    exact hquiet (.ite (.throw _) (onyxIs_onIpc _))
  | none | fat32 =>
    rw [hfs] at hquiet
    exact hquiet (.throw _)

lemma effect_ftruncate (token length : ℕ) (v : Vfs) :
    Effect h v (fd (.ftruncate token length)) (final (ftruncate h token length v)) := by
  unfold ftruncate
  split
  · rename_i hlength
    subst hlength
    cases hcheck : v.kernel.fdCheck h token with
    | error e =>
      have herr : fdCheck h token v = .error e v := by rw [fdCheck_eq, hcheck]
      rw [truncate, bind_of_error herr]
      exact .inl (onyxIs_self v)
    | ok i =>
      have hok : fdCheck h token v = .ok i v := by rw [fdCheck_eq, hcheck]
      rw [truncate, bind_of_ok hok]
      refine .inr ⟨_, v.onyx.buf, .truncate hcheck, ?_⟩
      have honyx := onyx_onOnyx (Onyxfs.truncate (v.kernel.fdGet h i).ino) v
      exact honyx ▸ onyxIs_self _
  · exact .inl (onyxIs_self v)

lemma effect_create (path : List UInt8) (mode : ℕ) (v : Vfs) :
    Effect h v (fd (.create path mode)) (final (create h path mode v)) := by
  cases hrun : newEntry path v with
  | error e v' =>
    have honyx := onyxIs_newEntry path v (onyxIs_self v)
    rw [hrun] at honyx
    rw [create, bind_of_error hrun]
    exact .inl honyx
  | ok entry v' =>
    obtain ⟨parent, name⟩ := entry
    obtain ⟨⟨b, hb⟩, rfl, t, hparent⟩ := newEntry_ok hrun
    rw [create, bind_of_ok hrun]
    refine .inr ⟨_, b, .create mode hparent, ?_⟩
    rw [Op.run, final_discard, ← hb]
    refine onyxIs_bind (fun ino s => ?_) v'
    refine .bind (onyxIs_allocFd _) fun idx => .bind (onyxIs_onKernel _) fun _ => ?_
    exact .get_bind fun _ _ => .pure _

lemma effect_mkdir (path : List UInt8) (v : Vfs) : Effect h v (mkdir path) (final (Vfs.mkdir path v)) := by
  cases hrun : newEntry path v with
  | error e v' =>
    have honyx := onyxIs_newEntry path v (onyxIs_self v)
    rw [hrun] at honyx
    rw [Vfs.mkdir, bind_of_error hrun]
    exact .inl honyx
  | ok entry v' =>
    obtain ⟨parent, name⟩ := entry
    obtain ⟨⟨b, hb⟩, rfl, t, hparent⟩ := newEntry_ok hrun
    rw [Vfs.mkdir, bind_of_ok hrun]
    refine .inr ⟨_, b, .mkdir hparent, ?_⟩
    rw [Op.run, final_discard, ← hb]
    exact onyxIs_bind (fun _ _ => .pure _) v'

lemma effect_unlink (path : List UInt8) (v : Vfs) : Effect h v (unlink path) (final (Vfs.unlink path v)) := by
  unfold Vfs.unlink
  split
  · exact .inl (onyxIs_self v)
  rw [get_bind]
  split
  · exact .inl (onyxIs_self v)
  · have honyx := onyx_onOnyx (Onyxfs.unlink path) v
    exact .inr ⟨_, v.onyx.buf, .unlink path, honyx ▸ onyxIs_self _⟩

lemma effect_run (D : Drivers) (h : Hart) (c : VfsCall) (v : Vfs) : Effect h v c (final (c.run D h v)) := by
  have hquiet : ∀ {α : Type} {f : VfsM α} (_ : Preserves (Vfs.OnyxIs v.onyx) f),
      Effect h v c (final (f v)) := fun hf => .inl (hf v (onyxIs_self v))
  cases c with
  | mkdir path => exact effect_mkdir path v
  | unlink path => exact effect_unlink path v
  | rename oldPath newPath =>
    have honyx := onyx_onOnyx (Onyxfs.rename oldPath newPath) v
    exact .inr ⟨_, v.onyx.buf, .rename oldPath newPath, honyx ▸ Vfs.onyxIs_self _⟩
  | fd c =>
    rw [run, final_discard]
    cases c with
    | openFile path perms =>
      rw [FdCall.run, final_discard]
      refine hquiet (.ite (.throw _) (.bind (onyxIs_allocFd _) fun _ => ?_))
      refine .bind (onyxIs_findFile _) fun _ => ?_
      exact .bind (onyxIs_onKernel _) fun _ => preserves_tokenOf _
    | create path mode =>
      rw [FdCall.run, final_discard]
      exact effect_create path mode v
    | dup token =>
      rw [FdCall.run, final_discard]
      refine hquiet (.bind (preserves_fdCheck _) fun _ => .bind (preserves_fdGet _) fun _ => ?_)
      refine .bind (onyxIs_allocFd _) fun _ => ?_
      exact .bind (onyxIs_onKernel _) fun _ => preserves_tokenOf _
    | createPipe =>
      refine hquiet (.bind (.bind (onyxIs_allocFd _) fun _ => .bind (onyxIs_allocFd _) fun _ => ?_)
        fun _ => .pure _)
      refine .bind (onyxIs_onKernel _) fun _ => .bind (onyxIs_onKernel _) fun _ => ?_
      exact .bind (preserves_tokenOf _) fun _ => .bind (preserves_tokenOf _) fun _ => .pure _
    | close token =>
      rw [FdCall.run, final_discard]
      exact hquiet (.bind (preserves_fdCheck _) fun _ => onyxIs_onKernel _)
    | read token len =>
      rw [FdCall.run, final_discard]
      exact hquiet (onyxIs_read token len)
    | write token data =>
      rw [FdCall.run, final_discard]
      exact effect_write token data v
    | lseek token off whence =>
      rw [FdCall.run, final_discard]
      exact hquiet (preserves_lseek (fun _ _ => onyxIs_onKernel _) token off whence)
    | stat token =>
      rw [FdCall.run, final_discard]
      exact hquiet (.bind (preserves_fdCheck _) fun _ => .bind (preserves_fdGet _) fun _ => .pure _)
    | ftruncate token length =>
      rw [FdCall.run, final_discard]
      exact effect_ftruncate token length v
    | getdents64 readdir b token buf count => exact .inl ⟨b, rfl⟩

/-! ### Runs -/

/-- The operations that the call performs work on inodes of the table, and it truncates through descriptors of
OnyxFS with `PERM_WRITE` only. -/
structure Proper (h : Hart) (c : VfsCall) (v : Vfs) : Prop where
  inTable : ∀ op, Performs h v c op → op.WorksOn v.onyx v.onyx.sb.IsInode
  truncates : ∀ token i, c = fd (.ftruncate token 0) → v.kernel.fdCheck h token = .ok i →
    (v.kernel.fdGet h i).fs = .onyx ∧ (v.kernel.fdGet h i).perms &&& permWrite ≠ 0

/-- A step: an allowed call on any hart, or anything else that leaves OnyxFS alone. -/
inductive Step (allowed : Hart → VfsCall → Vfs → Prop) (v : Vfs) : Vfs → Prop where
  | call (D : Drivers) (h : Hart) (c : VfsCall) (hallowed : allowed h c v) : Step allowed v (final (c.run D h v))
  | elsewhere (v' : Vfs) (honyx : v'.onyx = v.onyx) : Step allowed v v'

lemma tidy_step {v' : Vfs} (hv : Tidy v.onyx) (hstep : Step Proper v v') : Tidy v'.onyx := by
  cases hstep with
  | call D h c hproper =>
    rcases effect_run D h c v with ⟨b, hb⟩ | ⟨op, b, hop, b', hb'⟩
    · rw [hb]
      exact hv.withBuf b
    · rw [hb']
      exact ((hv.withBuf b).run ((hproper.inTable op hop).withBuf b)).withBuf b'
  | elsewhere v' honyx =>
    rwa [honyx]

lemma tidy_run {v₀ : Vfs} (hv₀ : Tidy v₀.onyx) (hrun : Relation.ReflTransGen (Step Proper) v₀ v) :
    Tidy v.onyx := by
  induction hrun with
  | refl => exact hv₀
  | tail _ hstep ih => exact tidy_step ih hstep

/-- A call through the token changes an OnyxFS file only if the descriptor is one of OnyxFS with `PERM_WRITE`
and the file is the one of the descriptor. -/
def Confined (h : Hart) (token : ℕ) (v v' : Vfs) : Prop :=
  ∀ j, v.onyx.sb.IsInode j → ¬SameFile j v.onyx v'.onyx → ∃ i, v.kernel.fdCheck h token = .ok i ∧
    (v.kernel.fdGet h i).fs = .onyx ∧ (v.kernel.fdGet h i).perms &&& permWrite ≠ 0 ∧ j = (v.kernel.fdGet h i).ino

lemma Proper.alters {c : FdCall} {token : ℕ} {op : Op} (hproper : Proper h (fd c) v) (ht : c.token = some token)
    (hop : Performs h v (fd c) op) : ∃ i, v.kernel.fdCheck h token = .ok i ∧ (v.kernel.fdGet h i).fs = .onyx ∧
      (v.kernel.fdGet h i).perms &&& permWrite ≠ 0 ∧ op.Alters (v.kernel.fdGet h i).ino ∧
      v.onyx.sb.IsInode (v.kernel.fdGet h i).ino := by
  have hworks := hproper.inTable op hop
  cases hop with
  | write data hcheck hperm hfs =>
    cases ht
    exact ⟨_, hcheck, hfs, hperm, .inl ⟨_, _, rfl⟩, hworks⟩
  | truncate hcheck =>
    cases ht
    obtain ⟨hfs, hperm⟩ := hproper.truncates _ _ rfl hcheck
    exact ⟨_, hcheck, hfs, hperm, .inr rfl, hworks⟩
  | create mode hparent => cases ht

/-! ### A file with the inode number of `/proc/version` -/

/-- `/proc` with its file `version`, which has the inode number 2. -/
def versionDrivers : Drivers where
  procLookup path := if path = "version".toUTF8.toList then .ok 2 else .error .noEnt
  procStat _ := .ok 64
  procRead _ _ _ _ := .ok []
  fatLookup _ := .error .noEnt
  fatRead _ _ _ := .error .noEnt

/-- The state after a call of the process on hart 0. -/
def next (v : Vfs) (c : FdCall) : Vfs := final ((fd c).run versionDrivers 0 v)

lemma step_next {allowed : Hart → VfsCall → Vfs → Prop} (c : FdCall) (hallowed : allowed 0 (fd c) v) :
    Step allowed v (next v c) := .call versionDrivers 0 (fd c) hallowed

/-- The process creates `/a`. -/
def created : Vfs := next procVfs (.create [0x2F, 0x61] 0o100644)

lemma tidy_procVfs : Tidy procVfs.onyx := .inr ⟨Onyxfs.ownedFs_smallFs, by decide⟩

lemma proper_create : Proper 0 (fd (.create [0x2F, 0x61] 0o100644)) procVfs where
  inTable := by
    rintro _ ⟨⟩
    rename_i parent t hparent
    injection hparent with hparent _
    subst hparent
    refine ⟨⟨by decide, by decide⟩, fun i hi => ?_⟩
    have hfirst : Bitmap.findClear (Onyxfs.smallFs.disk 1).mem onyfsBlockSize 0 = some 1 := by decide +kernel
    obtain rfl : 1 = i := Option.some.inj (hfirst.symm.trans hi)
    exact ⟨by decide, by decide⟩
  truncates := fun _ _ heq => by cases heq

lemma check_created : created.kernel.fdCheck 0 (fdToken 3 1) = .ok 3 := by decide +kernel

lemma proper_write (data : List UInt8) : Proper 0 (fd (.write (fdToken 3 1) data)) created where
  inTable := by
    rintro _ ⟨⟩
    rename_i i hperm hfs hcheck
    obtain rfl : 3 = i := Except.ok.inj (check_created.symm.trans hcheck)
    show created.onyx.sb.IsInode (created.kernel.fdGet 0 3).ino
    have hino : (created.kernel.fdGet 0 3).ino = 2 := by decide +kernel
    rw [hino]
    exact ⟨by decide, by decide +kernel⟩
  truncates := fun _ _ heq => by cases heq

/-- `/proc/version` is opened for reading while `/a` has one byte. -/
def openedVersion : Vfs :=
  next (next created (.write (fdToken 3 1) [0x78])) (.openFile "/proc/version".toUTF8.toList permRead)

end VfsCall

end OnyxKernel
