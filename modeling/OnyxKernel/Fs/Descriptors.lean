import OnyxKernel.Foundation.Triple
import OnyxKernel.Fs.Vfs
import OnyxKernel.Proc.Kept

/-!
# What the calls do with descriptors

For a running process the functions of the virtual file system work on the table of its record.  Each call
has one of a few effects on the table: nothing but positions and sizes change, a slot is cleared, one or
two free slots are allocated and their tokens returned, or a free slot is allocated and the call fails
(`FdEffect`).  The last one happens in `open` when the file is not found, and in `create_pipe` when there
is one free slot only.
-/

namespace OnyxKernel

open Triple KResult Kernel List Bool Onyxfs Ipc EStateM.Result
open Function (update update_self update_of_ne update_idem update_comm)

/-- A descriptor table. -/
abbrev FdTable := Fin vfsMaxFds → VfsFd

/-- The descriptor after another use of the same file. -/
def VfsFd.SameFile (fd fd' : VfsFd) : Prop := fd' = { fd with pos := fd'.pos, size := fd'.size }

lemma VfsFd.SameFile.fields {fd fd' : VfsFd} (hsame : fd.SameFile fd') :
    fd'.used = fd.used ∧ fd'.epoch = fd.epoch ∧ fd'.ino = fd.ino ∧ fd'.fs = fd.fs ∧ fd'.perms = fd.perms := by
  rw [hsame]
  exact ⟨rfl, rfl, rfl, rfl, rfl⟩

/-- A slot after its allocation. -/
structure VfsFd.TakenFrom (fd old : VfsFd) : Prop where
  used : fd.used = true
  epoch : fd.epoch = nextEpoch old.epoch

/-- The free slots in the table of a process. -/
def FdTable.freeSlots (t : FdTable) : List (Fin vfsMaxFds) :=
  (finRange vfsMaxFds).filter fun i => decide (3 ≤ (i : ℕ)) && !(t i).used

/-- The slot that `alloc_fd` takes in the table of a process. -/
def FdTable.freeSlot (t : FdTable) : Option (Fin vfsMaxFds) := t.freeSlots.head?

/-- The slot with new permissions and the next epoch. -/
def VfsFd.taken (fd : VfsFd) (perms : ℕ) : VfsFd :=
  { fd with used := true, perms := perms, epoch := nextEpoch fd.epoch }

/-- The descriptor of another file in the same slot. -/
def VfsFd.filled (fd : VfsFd) (ino size : ℕ) (fs : VfsFs) (pos : ℕ) : VfsFd :=
  { fd with ino := ino, size := size, fs := fs, pos := pos }

lemma VfsFd.takenFrom_taken (fd : VfsFd) (perms : ℕ) : (fd.taken perms).TakenFrom fd := ⟨rfl, rfl⟩

namespace FdTable

variable {t : FdTable} {i : Fin vfsMaxFds}

lemma nodup_freeSlots (t : FdTable) : t.freeSlots.Nodup := (nodup_finRange _).filter _

lemma used_of_mem_freeSlots (hmem : i ∈ t.freeSlots) : (t i).used = false := by
  have hfound := (mem_filter.mp hmem).2
  simpa using (and_eq_true_iff.mp hfound).2

lemma used_of_freeSlot (hfree : t.freeSlot = some i) : (t i).used = false :=
  used_of_mem_freeSlots (mem_of_head? hfree)

lemma ne_of_freeSlots {j : Fin vfsMaxFds} {rest : List (Fin vfsMaxFds)} (hfree : t.freeSlots = i :: rest)
    (hj : j ∈ rest) : i ≠ j := by
  have hnodup := t.nodup_freeSlots
  rw [hfree] at hnodup
  exact (ne_of_mem_of_not_mem hj (nodup_cons.mp hnodup).1).symm

lemma freeSlots_take {rest : List (Fin vfsMaxFds)} (hfree : t.freeSlots = i :: rest) {fd : VfsFd}
    (hused : fd.used = true) : freeSlots (update t i fd) = rest := by
  have hfilter : freeSlots (update t i fd) = t.freeSlots.filter (· ≠ i) := by
    rw [freeSlots, freeSlots, filter_filter]
    congr 1
    funext j
    by_cases hj : j = i
    · rw [hj, update_self, hused]
      simp
    · rw [update_of_ne hj]
      simp [hj]
  rw [hfilter, hfree, filter_cons_of_neg (by simp), filter_eq_self]
  intro j hj
  exact decide_eq_true (ne_of_freeSlots hfree hj).symm

end FdTable

namespace Kernel

variable {h : Hart} {p : ℕ} {k : Kernel} {i : Fin vfsMaxFds}

/-- The process at `p` runs on the hart. -/
structure InProcess (h : Hart) (p : ℕ) (k : Kernel) : Prop where
  current_eq : k.hartCurrent h = some p
  running : (k.proc p).state = .running
  pid_ne : (k.proc p).pid ≠ 0

/-- The state with another descriptor table of the process. -/
def withFds (p : ℕ) (t : FdTable) (k : Kernel) : Kernel := k.modifyProc p fun r => { r with fds := t }

@[simp] lemma fds_withFds (p : ℕ) (t : FdTable) (k : Kernel) : ((k.withFds p t).proc p).fds = t := by
  rw [withFds, proc_modifyProc_self]

@[simp] lemma withFds_withFds (p : ℕ) (t t' : FdTable) (k : Kernel) :
    (k.withFds p t).withFds p t' = k.withFds p t' := by
  rw [withFds, withFds, withFds, modifyProc, modifyProc, modifyProc]
  dsimp only
  rw [update_self, update_idem]

namespace InProcess

section

variable (hp : k.InProcess h p)
include hp

lemma withFds (t : FdTable) : (k.withFds p t).InProcess h p := by
  refine ⟨hp.current_eq, ?_, ?_⟩
  · rw [Kernel.withFds, proc_modifyProc_self]
    exact hp.running
  · rw [Kernel.withFds, proc_modifyProc_self]
    exact hp.pid_ne

lemma currentPid_ne : k.currentPid h ≠ 0 := by
  rw [currentPid, hp.current_eq]
  dsimp only
  rw [if_pos hp.running]
  exact hp.pid_ne

lemma fdGet_eq (i : Fin vfsMaxFds) : k.fdGet h i = (k.proc p).fds i := by
  rw [fdGet, if_neg hp.currentPid_ne, current, hp.current_eq]
  rfl

lemma fdModify_eq (i : Fin vfsMaxFds) (f : VfsFd → VfsFd) :
    k.fdModify h i f = k.withFds p (update (k.proc p).fds i (f ((k.proc p).fds i))) := by
  rw [fdModify, if_neg hp.currentPid_ne, modifyCurrent, hp.current_eq]
  rfl

lemma fdSet_eq (i : Fin vfsMaxFds) (ino size : ℕ) (fs : VfsFs) (pos : ℕ) : k.fdSet h i ino size fs pos =
      k.withFds p (update (k.proc p).fds i (((k.proc p).fds i).filled ino size fs pos)) :=
  hp.fdModify_eq i fun fd => fd.filled ino size fs pos

lemma current_fds : (k.current h).fds = (k.proc p).fds := by
  rw [current, hp.current_eq]
  rfl

lemma modifyCurrent_fds (f : FdTable → FdTable) :
    (k.modifyCurrent h fun r => { r with fds := f r.fds }) = k.withFds p (f (k.proc p).fds) := by
  rw [modifyCurrent, hp.current_eq]
  rfl

lemma freeFd_eq : k.freeFd h = FdTable.freeSlot (k.proc p).fds := by
  rw [freeFd, FdTable.freeSlot, FdTable.freeSlots, head?_filter, firstFd, if_neg hp.currentPid_ne]
  congr 1
  funext i
  rw [hp.fdGet_eq]

lemma fdCheck_eq_ok_iff {token : ℕ} : k.fdCheck h token = .ok i ↔
      ((k.proc p).fds i).used = true ∧ token / 2 ^ 32 = i ∧ ((k.proc p).fds i).epoch = token % 2 ^ 32 := by
  unfold fdCheck
  by_cases hidx : token / 2 ^ 32 < vfsMaxFds
  · rw [dif_pos hidx]
    dsimp only
    rw [hp.fdGet_eq]
    constructor
    · intro hok
      split at hok
      · cases hok
      · next hcond =>
        rw [not_eq_true, or_eq_false_iff] at hcond
        cases hok
        exact ⟨by simpa using hcond.1, rfl, by simpa using hcond.2⟩
    · rintro ⟨hused, hi, hepoch⟩
      have hi' : (⟨token / 2 ^ 32, hidx⟩ : Fin vfsMaxFds) = i := Fin.ext hi
      rw [hi', hused, hepoch]
      simp
  · rw [dif_neg hidx]
    constructor
    · intro hok
      cases hok
    · rintro ⟨-, hi, -⟩
      exact absurd (hi ▸ i.isLt) hidx

end

end InProcess

end Kernel

namespace Vfs

variable {D : Drivers} {h : Hart} {p : ℕ} {v v' : Vfs} {i : Fin vfsMaxFds} {t : FdTable} {α : Type}

/-- The descriptor table of the process at `p`. -/
def fds (v : Vfs) (p : ℕ) : FdTable := (v.kernel.proc p).fds

/-- The state with another table. -/
def withFds (p : ℕ) (t : FdTable) (v : Vfs) : Vfs := { v with kernel := v.kernel.withFds p t }

@[simp] lemma fds_withFds (p : ℕ) (t : FdTable) (v : Vfs) : (v.withFds p t).fds p = t :=
  Kernel.fds_withFds p t v.kernel

lemma fds_of_kernel (hv' : v'.kernel = v.kernel.withFds p t) : v'.fds p = t := by
  rw [fds, hv', Kernel.fds_withFds]

lemma fds_congr (hv' : v'.kernel = v.kernel) : v'.fds p = v.fds p := by rw [fds, hv', fds]

@[simp] lemma withFds_withFds (p : ℕ) (t t' : FdTable) (v : Vfs) :
    (v.withFds p t).withFds p t' = v.withFds p t' := by
  rw [withFds, withFds, withFds]
  rw [Kernel.withFds_withFds]

/-! ### The parts of the calls -/

section

variable (hp : v.kernel.InProcess h p)
include hp

lemma allocFd_of_none (hfree : FdTable.freeSlot (v.fds p) = none)
    (perms : ℕ) : allocFd h perms v = .error .noMem v := by
  have hfree : v.kernel.freeFd h = _ := hp.freeFd_eq.trans hfree
  rw [allocFd, get_bind, hfree]
  rfl

lemma allocFd_of_some (hfree : FdTable.freeSlot (v.fds p) = some i) (perms : ℕ) : allocFd h perms v =
      .ok i (v.withFds p (update (v.fds p) i ((v.fds p i).taken perms))) := by
  have hfree : v.kernel.freeFd h = _ := hp.freeFd_eq.trans hfree
  rw [allocFd, get_bind, hfree, withFds]
  show ok i { v with kernel := v.kernel.fdTake h i perms } = _
  rw [fdTake, hp.fdModify_eq]
  rfl

lemma fdSet_eq (i : Fin vfsMaxFds) (ino size : ℕ) (fs : VfsFs) (pos : ℕ) :
    onKernel (fun k => k.fdSet h i ino size fs pos) v =
      .ok () (v.withFds p (update (v.fds p) i ((v.fds p i).filled ino size fs pos))) := by
  show ok () { v with kernel := v.kernel.fdSet h i ino size fs pos } = _
  rw [hp.fdSet_eq]
  rfl

lemma tokenOf_eq (i : Fin vfsMaxFds) : tokenOf h i v = .ok (fdToken i (v.fds p i).epoch) v := by
  show ok (fdToken i (v.kernel.fdGet h i).epoch) v = _
  rw [hp.fdGet_eq]
  rfl

end

lemma fdCheck_eq (token : ℕ) (v : Vfs) : fdCheck h token v =
      match v.kernel.fdCheck h token with
      | .ok i => .ok i v
      | .error e => .error e v := by
  rw [fdCheck, get_bind]
  cases v.kernel.fdCheck h token <;> rfl

lemma onOnyx_kernel (x : Onyxfs.FsM α) (v : Vfs) : (final (onOnyx x v)).kernel = v.kernel := by
  unfold onOnyx
  cases x v.onyx <;> rfl

lemma answer_state (x : Except Errno α) (v : Vfs) : final (answer x v) = v := by
  cases x <;> rfl

/-! ### What the functions preserve -/

section Preserves

variable {P : Vfs → Prop}

lemma preserves_answer {α : Type} (x : Except Errno α) : Preserves P (answer x) := by
  intro v hv
  rwa [answer_state]

lemma preserves_fdCheck (token : ℕ) : Preserves P (fdCheck h token) := .get_bind fun _ _ => preserves_answer _

lemma preserves_fdCheckPerm (token perm : ℕ) : Preserves P (fdCheckPerm h token perm) :=
  .bind (preserves_fdCheck token) fun _ => .get_bind fun _ _ => .ite (.throw _) (.pure _)

lemma preserves_fdGet (i : Fin vfsMaxFds) : Preserves P (fdGet h i) := .get_bind fun _ _ => .pure _

lemma preserves_tokenOf (i : Fin vfsMaxFds) : Preserves P (tokenOf h i) :=
  .bind (preserves_fdGet i) fun _ => .pure _

lemma preserves_stat (token : ℕ) : Preserves P (stat h token) :=
  .bind (preserves_fdCheck token) fun idx => .bind (preserves_fdGet idx) fun _ => .pure _

lemma preserves_ipcLookup (hipc : ∀ v ipc, P v → P { v with ipc := ipc }) (name : List UInt8) :
    Preserves P (ipcLookup h name) := by
  refine .ite (.pure _) (.get_bind fun w _ => ?_)
  exact .bind (.modify fun v => hipc v _) fun _ => .bind (preserves_answer _) fun _ => .pure _

lemma preserves_findFile {name : List UInt8} (hipc : ∀ v ipc, P v → P { v with ipc := ipc })
    (honyx : Preserves P (onOnyx (lookup name))) : Preserves P (findFile D h name) := by
  apply Preserves.get_bind
  intro w _
  rcases w.resolveMount name with ⟨fs, subpath⟩
  cases fs with
  | proc => exact .bind (preserves_answer _) fun _ => .bind (preserves_answer _) fun _ => .pure _
  | ipc => exact .bind (preserves_ipcLookup hipc _) fun _ => .bind (preserves_answer _) fun _ => .pure _
  | none | onyx | fat32 =>
    dsimp only
    cases w.rootFs with
    | onyx => exact .bind honyx fun _ => .pure _
    | fat32 => exact .bind (preserves_answer _) fun _ => .pure _
    | none | proc | ipc => exact .throw _

lemma preserves_newEntry (honyx : ∀ parent, Preserves P (onOnyx (parentIno parent)))
    (path : List UInt8) : Preserves P (newEntry path) := by
  refine .ite (.throw _) (.get_bind fun w _ => .ite (.throw _) (.ite (.throw _) ?_))
  exact .bind (honyx _) fun _ => .pure _

lemma preserves_read (honyx : ∀ ino off n, Preserves P (onOnyx (Onyxfs.read ino off n)))
    (hrecv : ∀ id n, Preserves P (onIpc fun ipc k => ipc.recv h k id n none))
    (hpos : ∀ i pos, Preserves P (onKernel fun k => k.fdUpdatePos h i pos)) (token len : ℕ) :
    Preserves P (read D h token len) := by
  refine .bind (preserves_fdCheckPerm _ _) fun idx => .bind (preserves_fdGet _) fun fd => .ite (.pure _) ?_
  have hbytes : Preserves P (readBytes D h fd (min len (fd.size - fd.pos))) := by
    unfold readBytes
    split
    · exact .bind (honyx _ _ _) fun _ => .pure _
    · exact preserves_answer _
    · exact .get_bind fun _ _ => preserves_answer _
    · exact .ite (.throw _) (hrecv _ _)
    · exact .throw _
  exact .bind hbytes fun _ => .bind (hpos _ _) fun _ => .pure _

lemma preserves_lseek (hpos : ∀ i pos, Preserves P (onKernel fun k => k.fdUpdatePos h i pos))
    (token : ℕ) (off : ℤ) (whence : ℕ) : Preserves P (lseek h token off whence) := by
  refine .bind (preserves_fdCheckPerm _ _) fun idx => .bind (preserves_fdGet _) fun fd => ?_
  have hseek : ∀ newPos : ℤ, Preserves P (do
      if newPos < 0 ∨ fd.size < newPos then throw .range
      else
        onKernel fun k => k.fdUpdatePos h idx newPos.toNat
        return newPos.toNat) := fun newPos =>
    .ite (.throw _) (.bind (hpos _ _) fun _ => .pure _)
  split
  · exact hseek _
  · exact hseek _
  · exact hseek _
  · exact .throw _

end Preserves

lemma keepsKernel_onOnyx {k : Kernel} (x : Onyxfs.FsM α) :
    Preserves (fun v => v.kernel = k) (onOnyx x) := fun v hv => (onOnyx_kernel x v).trans hv

/-! ### Finding files does not depend on descriptors -/

section Commutes

variable {t : FdTable} {α : Type}

lemma currentPid_withFds (p : ℕ) (t : FdTable) (k : Kernel) (h : Hart) :
    (k.withFds p t).currentPid h = k.currentPid h := by
  unfold currentPid
  rw [show (k.withFds p t).hartCurrent h = k.hartCurrent h from rfl]
  cases k.hartCurrent h with
  | none => rfl
  | some q =>
    dsimp only
    by_cases hq : q = p
    · rw [hq, Kernel.withFds, Kernel.proc_modifyProc_self]
    · rw [Kernel.withFds, Kernel.proc_modifyProc_of_ne hq]

lemma commutes_onOnyx (x : Onyxfs.FsM α) : Commutes (withFds p t) (onOnyx x) := by
  intro v
  unfold onOnyx
  rw [show (v.withFds p t).onyx = v.onyx from rfl]
  cases x v.onyx <;> rfl

lemma commutes_answer (x : Except Errno α) : Commutes (withFds p t) (answer x) := by
  cases x with
  | ok a => exact .pure a
  | error e => exact .throw e

lemma commutes_ipcLookup (name : List UInt8) : Commutes (withFds p t) (ipcLookup h name) := by
  apply Commutes.ite
  · exact .pure _
  · apply Commutes.get_bind
    · intro v
      rw [show (v.withFds p t).kernel.currentPid h = v.kernel.currentPid h from currentPid_withFds ..]
      rfl
    · intro v
      apply Commutes.bind
      · exact .modify fun _ => rfl
      · intro _
        exact .bind (commutes_answer _) fun _ => .pure _

lemma commutes_findFile (name : List UInt8) : Commutes (withFds p t) (findFile D h name) := by
  apply Commutes.get_bind
  · intro v
    rfl
  intro w
  rcases w.resolveMount name with ⟨fs, subpath⟩
  cases fs with
  | proc => exact .bind (commutes_answer _) fun _ => .bind (commutes_answer _) fun _ => .pure _
  | ipc => exact .bind (commutes_ipcLookup _) fun _ => .bind (commutes_answer _) fun _ => .pure _
  | none | onyx | fat32 =>
    dsimp only
    cases w.rootFs with
    | onyx => exact .bind (commutes_onOnyx _) fun _ => .pure _
    | fat32 => exact .bind (commutes_answer _) fun _ => .pure _
    | none | proc | ipc => exact .throw _

end Commutes

/-! ### The effect of a call on the table -/

/-- The tokens a call issues and the tokens it closes, and the table after it. -/
inductive FdEffect (t : FdTable) : (succeeds : Bool) → (issued closed : List ℕ) → FdTable → Prop where
  | quiet {succeeds : Bool} {t' : FdTable} (hsame : ∀ i, (t i).SameFile (t' i)) :
      FdEffect t succeeds [] [] t'
  | closed {i : Fin vfsMaxFds} (hused : (t i).used = true) :
      FdEffect t true [] [fdToken i (t i).epoch] (update t i { t i with used := false })
  | issued {i : Fin vfsMaxFds} {fd : VfsFd} (hfree : (t i).used = false) (hfd : fd.TakenFrom (t i)) :
      FdEffect t true [fdToken i fd.epoch] [] (update t i fd)
  | issuedTwo {i j : Fin vfsMaxFds} {fd fd' : VfsFd} (hne : i ≠ j) (hfree : (t i).used = false)
      (hfree' : (t j).used = false) (hfd : fd.TakenFrom (t i)) (hfd' : fd'.TakenFrom (t j)) :
      FdEffect t true [fdToken i fd.epoch, fdToken j fd'.epoch] []
        (update (update t i fd) j fd')
  | leaked {i : Fin vfsMaxFds} (perms : ℕ) (hfree : (t i).used = false) :
      FdEffect t false [] [] (update t i ((t i).taken perms))

lemma issued_filled (hfree : t.freeSlot = some i) (perms ino size : ℕ) (fs : VfsFs) (pos : ℕ) :
    FdEffect t true [fdToken i (nextEpoch (t i).epoch)] []
      (update t i (((t i).taken perms).filled ino size fs pos)) := by
  have hfd : (((t i).taken perms).filled ino size fs pos).TakenFrom (t i) := ⟨rfl, rfl⟩
  exact .issued (FdTable.used_of_freeSlot hfree) hfd

/-- A call on the table of the process `p` in the state `v` that ends with the result `r`. -/
def HasEffect {α : Type} (p : ℕ) (v : Vfs) (tokens : α → List ℕ) (closed : List ℕ)
    (r : EStateM.Result Errno Vfs α) : Prop :=
  match r with
  | .ok a v' => FdEffect (v.fds p) true (tokens a) closed (v'.fds p)
  | .error _ v' => FdEffect (v.fds p) false [] [] (v'.fds p)

/-- The path of the call can be opened: its file is found. -/
def Finds (D : Drivers) (h : Hart) (path : List UInt8) (v : Vfs) : Prop :=
  ∃ r v', findFile D h path.tail v = .ok r v'

section

variable (hp : v.kernel.InProcess h p)
include hp

lemma openFile_cases (path : List UInt8) (perms : ℕ) :
    ((path.head? ≠ some slash ∨ FdTable.freeSlot (v.fds p) = none) ∧
      ∃ e, openFile D h path perms v = .error e v) ∨
    ∃ i, path.head? = some slash ∧ FdTable.freeSlot (v.fds p) = some i ∧
      ((∃ e v', ¬Finds D h path v ∧ openFile D h path perms v = .error e v' ∧
          v'.kernel = v.kernel.withFds p (update (v.fds p) i ((v.fds p i).taken perms))) ∨
        ∃ fs ino size v', Finds D h path v ∧
          openFile D h path perms v = .ok (fdToken i (nextEpoch (v.fds p i).epoch)) v' ∧
          v'.kernel = v.kernel.withFds p (update (v.fds p) i
            (((v.fds p i).taken perms).filled ino size fs 0))) := by
  by_cases hpath : path.head? = some slash
  · cases hfree : FdTable.freeSlot (v.fds p) with
    | none =>
      left
      refine ⟨.inr rfl, .noMem, ?_⟩
      rw [openFile, if_neg (not_not.mpr hpath), bind_of_error (allocFd_of_none hp hfree perms)]
    | some i =>
      right
      refine ⟨i, hpath, rfl, ?_⟩
      obtain ⟨w, hw⟩ : ∃ w, w = v.withFds p (update (v.fds p) i ((v.fds p i).taken perms)) :=
        ⟨_, rfl⟩
      have hwp : w.kernel.InProcess h p := hw ▸ hp.withFds _
      have halloc : allocFd h perms v = .ok i w := hw ▸ allocFd_of_some hp hfree perms
      have hkernel : (final (findFile D h path.tail w)).kernel = w.kernel :=
        preserves_findFile (fun _ _ => id) (keepsKernel_onOnyx _) w rfl
      have hcomm : findFile D h path.tail w = mapState _ (findFile D h path.tail v) :=
        hw ▸ commutes_findFile path.tail v
      rw [openFile, if_neg (not_not.mpr hpath), bind_of_ok halloc]
      cases hfind : findFile D h path.tail w with
      | error e v' =>
        left
        rw [hfind] at hkernel hcomm
        refine ⟨e, v', ?_, bind_of_error hfind, hkernel.trans (hw ▸ rfl)⟩
        rintro ⟨r, v'', hok⟩
        rw [hok] at hcomm
        cases hcomm
      | ok r v' =>
        right
        rw [hfind] at hkernel hcomm
        obtain ⟨fs, ino, size⟩ := r
        have hv' : v'.kernel = w.kernel := hkernel
        have hp' : v'.kernel.InProcess h p := by
          rwa [hv']
        have hfds : v'.fds p = update (v.fds p) i ((v.fds p i).taken perms) := by
          rw [fds_congr hv', hw, fds_withFds]
        refine ⟨fs, ino, size, v'.withFds p (update (v.fds p) i
          (((v.fds p i).taken perms).filled ino size fs 0)), ?_, ?_, ?_⟩
        · cases hv : findFile D h path.tail v with
          | ok r v'' => exact ⟨r, v'', hv⟩
          | error e v'' =>
            rw [hv] at hcomm
            cases hcomm
        · rw [bind_of_ok hfind]
          dsimp only
          rw [bind_of_ok (fdSet_eq hp' ..), tokenOf_eq (hp'.withFds _), fds_withFds, hfds,
            update_idem, update_self, update_self]
          rfl
        · rw [withFds, hv', hw, withFds, Kernel.withFds_withFds]
  · left
    refine ⟨.inl hpath, .inval, ?_⟩
    rw [openFile, if_pos hpath]
    rfl

lemma openFile_effect (path : List UInt8) (perms : ℕ) :
    HasEffect p v (fun token => [token]) [] (openFile D h path perms v) := by
  rcases openFile_cases (D := D) hp path perms with
    ⟨-, e, he⟩ | ⟨i, -, hfree, ⟨e, v', -, he, hv'⟩ | ⟨fs, ino, size, v', -, hok, hv'⟩⟩
  · rw [he]
    exact .quiet fun _ => rfl
  · rw [he, HasEffect, fds_of_kernel hv']
    exact .leaked perms (FdTable.used_of_freeSlot hfree)
  · rw [hok, HasEffect, fds_of_kernel hv']
    exact issued_filled hfree perms ino size fs 0

lemma create_cases (path : List UInt8) (mode : ℕ) :
    (∃ e v', create h path mode v = .error e v' ∧ v'.kernel = v.kernel) ∨
    ∃ i newIno v', FdTable.freeSlot (v.fds p) = some i ∧
      create h path mode v = .ok (fdToken i (nextEpoch (v.fds p i).epoch)) v' ∧
      v'.kernel = v.kernel.withFds p (update (v.fds p) i
        (((v.fds p i).taken (permRead ||| permWrite ||| permSeek)).filled newIno 0 .onyx 0)) := by
  unfold create
  have hentry : (final (newEntry path v)).kernel = v.kernel :=
    preserves_newEntry (fun _ => keepsKernel_onOnyx _) path v rfl
  cases hnew : newEntry path v with
  | error e v' =>
    rw [hnew] at hentry
    exact .inl ⟨e, v', bind_of_error hnew, hentry⟩
  | ok r w =>
    rw [hnew] at hentry
    obtain ⟨parentIno, filename⟩ := r
    rw [bind_of_ok hnew]
    dsimp only
    have hcreate := onOnyx_kernel (Onyxfs.create parentIno filename mode) w
    cases hino : onOnyx (Onyxfs.create parentIno filename mode) w with
    | error e v' =>
      rw [hino] at hcreate
      exact .inl ⟨e, v', bind_of_error hino, hcreate.trans hentry⟩
    | ok newIno v1 =>
      rw [hino] at hcreate
      rw [bind_of_ok hino]
      have hkernel : v1.kernel = v.kernel := hcreate.trans hentry
      have hp1 : v1.kernel.InProcess h p := by
        rwa [hkernel]
      have hfds : v1.fds p = v.fds p := by rw [fds, hkernel, fds]
      cases hfree : FdTable.freeSlot (v1.fds p) with
      | none => exact .inl ⟨_, _, bind_of_error (allocFd_of_none hp1 hfree _), hkernel⟩
      | some i =>
        right
        obtain ⟨w, hw⟩ : ∃ w, w = v1.withFds p (update (v1.fds p) i
            ((v1.fds p i).taken (permRead ||| permWrite ||| permSeek))) := ⟨_, rfl⟩
        have halloc : allocFd h (permRead ||| permWrite ||| permSeek) v1 = .ok i w :=
          hw ▸ allocFd_of_some hp1 hfree _
        have hwp : w.kernel.InProcess h p := hw ▸ hp1.withFds _
        obtain ⟨k', hk'⟩ : ∃ k', k' = w.kernel.modifyCurrent h fun r =>
            { r with fds := update r.fds i ((r.fds i).filled newIno 0 .onyx 0) } := ⟨_, rfl⟩
        have hset : k' = v.kernel.withFds p (update (v.fds p) i
            (((v.fds p i).taken (permRead ||| permWrite ||| permSeek)).filled newIno 0 .onyx 0)) := by
          rw [hk', hwp.modifyCurrent_fds fun t => update t i ((t i).filled newIno 0 .onyx 0),
            hw, withFds, hfds]
          rw [hkernel, Kernel.withFds_withFds, Kernel.fds_withFds, update_self, update_idem]
        have hepoch : ((k'.current h).fds i).epoch = nextEpoch (v.fds p i).epoch := by
          rw [hset, (hp.withFds _).current_fds, Kernel.fds_withFds, update_self]
          rfl
        refine ⟨i, newIno, { w with kernel := k' }, hfds ▸ hfree, ?_, hset⟩
        rw [bind_of_ok halloc, ← hepoch, hk']
        rfl

lemma create_effect (path : List UInt8) (mode : ℕ) :
    HasEffect p v (fun token => [token]) [] (create h path mode v) := by
  rcases create_cases hp path mode with ⟨e, v', he, hv'⟩ | ⟨i, newIno, v', hfree, hok, hv'⟩
  · rw [he, HasEffect, fds_congr hv']
    exact .quiet fun _ => rfl
  · rw [hok, HasEffect, fds_of_kernel hv']
    exact issued_filled hfree ..

lemma fdCheck_cases (token : ℕ) : (∃ e, fdCheck h token v = .error e v) ∨
    ∃ i, fdCheck h token v = .ok i v ∧ (v.fds p i).used = true ∧
      token = fdToken i (v.fds p i).epoch := by
  rw [fdCheck_eq]
  cases hcheck : v.kernel.fdCheck h token with
  | error e => exact .inl ⟨e, rfl⟩
  | ok i =>
    obtain ⟨hused, hi, hepoch⟩ := hp.fdCheck_eq_ok_iff.mp hcheck
    refine .inr ⟨i, rfl, hused, ?_⟩
    rw [fdToken, ← hi, show (v.fds p i).epoch = _ from hepoch]
    exact (Nat.div_add_mod' token (2 ^ 32)).symm

lemma dup_cases (token : ℕ) : (∃ e, dup h token v = .error e v) ∨ ∃ i j, FdTable.freeSlot (v.fds p) = some j ∧
      dup h token v = .ok (fdToken j (nextEpoch (v.fds p j).epoch))
        (v.withFds p (update (v.fds p) j (((v.fds p j).taken (v.fds p i).perms).filled
          (v.fds p i).ino (v.fds p i).size (v.fds p i).fs (v.fds p i).pos))) := by
  unfold dup
  rcases fdCheck_cases hp token with ⟨e, he⟩ | ⟨i, hi, -, -⟩
  · exact .inl ⟨e, bind_of_error he⟩
  · rw [bind_of_ok hi]
    obtain ⟨fd, hfd⟩ : ∃ fd, fd = v.fds p i := ⟨_, rfl⟩
    have hget : fdGet h i v = .ok fd v := by
      show ok (v.kernel.fdGet h i) v = _
      rw [hp.fdGet_eq, hfd]
      rfl
    rw [bind_of_ok hget]
    cases hfree : FdTable.freeSlot (v.fds p) with
    | none => exact .inl ⟨_, bind_of_error (allocFd_of_none hp hfree _)⟩
    | some j =>
      right
      refine ⟨i, j, rfl, ?_⟩
      rw [← hfd]
      rw [bind_of_ok (allocFd_of_some hp hfree _), bind_of_ok (fdSet_eq (hp.withFds _) ..),
        tokenOf_eq ((hp.withFds _).withFds _)]
      simp only [fds_withFds, withFds_withFds, update_self, update_idem]
      rfl

lemma dup_effect (token : ℕ) : HasEffect p v (fun token => [token]) [] (dup h token v) := by
  rcases dup_cases hp token with ⟨e, he⟩ | ⟨i, j, hfree, hok⟩
  · rw [he]
    exact .quiet fun _ => rfl
  · rw [hok, HasEffect, fds_withFds]
    exact issued_filled hfree ..

lemma close_cases (token : ℕ) : (∃ e, close h token v = .error e v) ∨
    ∃ i, (v.fds p i).used = true ∧ token = fdToken i (v.fds p i).epoch ∧
      close h token v = .ok () (v.withFds p (update (v.fds p) i { v.fds p i with used := false })) := by
  unfold close
  rcases fdCheck_cases hp token with ⟨e, he⟩ | ⟨i, hi, hused, htoken⟩
  · exact .inl ⟨e, bind_of_error he⟩
  · refine .inr ⟨i, hused, htoken, ?_⟩
    rw [bind_of_ok hi]
    show ok () { v with kernel := v.kernel.fdClear h i } = _
    rw [fdClear, hp.fdModify_eq]
    rfl

lemma close_effect (token : ℕ) : HasEffect p v (fun _ => []) [token] (close h token v) := by
  rcases close_cases hp token with ⟨e, he⟩ | ⟨i, hused, htoken, hok⟩
  · rw [he]
    exact .quiet fun _ => rfl
  · rw [hok, HasEffect, fds_withFds, htoken]
    exact .closed hused

lemma createPipe_cases : (FdTable.freeSlots (v.fds p) = [] ∧ ∃ e, createPipe h v = .error e v) ∨
    (∃ i e, FdTable.freeSlots (v.fds p) = [i] ∧ createPipe h v = .error e
      (v.withFds p (update (v.fds p) i ((v.fds p i).taken permRead)))) ∨
    ∃ i j rest, FdTable.freeSlots (v.fds p) = i :: j :: rest ∧
      createPipe h v = .ok (fdToken i (nextEpoch (v.fds p i).epoch), fdToken j (nextEpoch (v.fds p j).epoch))
        (v.withFds p (update
          (update (v.fds p) i (((v.fds p i).taken permRead).filled (2 ^ 32 - 1) 0 .ipc 0)) j
          (((v.fds p j).taken permWrite).filled (2 ^ 32 - 1) 0 .ipc 0))) := by
  unfold createPipe
  cases hslots : FdTable.freeSlots (v.fds p) with
  | nil =>
    have hfree : FdTable.freeSlot (v.fds p) = none := by rw [FdTable.freeSlot, hslots]; rfl
    exact .inl ⟨rfl, _, bind_of_error (allocFd_of_none hp hfree _)⟩
  | cons i rest =>
    right
    have hfree : FdTable.freeSlot (v.fds p) = some i := by rw [FdTable.freeSlot, hslots]; rfl
    have hp1 := hp.withFds (update (v.fds p) i ((v.fds p i).taken permRead))
    have hslots1 := FdTable.freeSlots_take hslots ((v.fds p i).takenFrom_taken permRead).used
    rw [bind_of_ok (allocFd_of_some hp hfree _)]
    cases rest with
    | nil =>
      left
      refine ⟨i, _, rfl, bind_of_error (allocFd_of_none hp1 ?_ _)⟩
      rw [fds_withFds, FdTable.freeSlot, hslots1]
      rfl
    | cons j rest =>
      right
      have hij := FdTable.ne_of_freeSlots hslots mem_cons_self
      have hfree1 : FdTable.freeSlot ((v.withFds p
          (update (v.fds p) i ((v.fds p i).taken permRead))).fds p) = some j := by
        rw [fds_withFds, FdTable.freeSlot, hslots1]
        rfl
      have hin : ∀ t, (v.withFds p t).kernel.InProcess h p := fun t => hp.withFds t
      refine ⟨i, j, rest, rfl, ?_⟩
      rw [bind_of_ok (allocFd_of_some hp1 hfree1 _), withFds_withFds, fds_withFds,
        bind_of_ok (fdSet_eq (hin _) ..), withFds_withFds, fds_withFds,
        bind_of_ok (fdSet_eq (hin _) ..), withFds_withFds, fds_withFds,
        bind_of_ok (tokenOf_eq (hin _) i), bind_of_ok (tokenOf_eq (hin _) j)]
      simp only [fds_withFds, update_self, update_of_ne hij, update_of_ne hij.symm,
        update_idem, update_comm hij.symm]
      rfl

lemma createPipe_effect : HasEffect p v (fun tokens => [tokens.1, tokens.2]) [] (createPipe h v) := by
  rcases createPipe_cases hp with ⟨-, e, he⟩ | ⟨i, e, hslots, he⟩ | ⟨i, j, rest, hslots, hok⟩
  · rw [he]
    exact .quiet fun _ => rfl
  · rw [he, HasEffect, fds_withFds]
    refine .leaked permRead (FdTable.used_of_freeSlot ?_)
    rw [FdTable.freeSlot, hslots]
    rfl
  · rw [hok, HasEffect, fds_withFds]
    have hij := FdTable.ne_of_freeSlots hslots mem_cons_self
    have hfd : (((v.fds p i).taken permRead).filled (2 ^ 32 - 1) 0 .ipc 0).TakenFrom (v.fds p i) := ⟨rfl, rfl⟩
    have hfd' : (((v.fds p j).taken permWrite).filled (2 ^ 32 - 1) 0 .ipc 0).TakenFrom (v.fds p j) := ⟨rfl, rfl⟩
    refine .issuedTwo hij ?_ ?_ hfd hfd'
    · exact FdTable.used_of_mem_freeSlots (hslots ▸ mem_cons_self)
    · exact FdTable.used_of_mem_freeSlots (hslots ▸ mem_cons_of_mem _ mem_cons_self)

end

/-! ### Uses of a token -/

/-- The process is current on the hart, and its descriptors are for the files in `t`. -/
def SameFiles (h : Hart) (p : ℕ) (t : FdTable) (v : Vfs) : Prop :=
  v.kernel.hartCurrent h = some p ∧ ∀ i, (t i).SameFile (v.fds p i)

lemma sameFiles_self (hp : v.kernel.InProcess h p) : SameFiles h p (v.fds p) v :=
  ⟨hp.current_eq, fun _ => rfl⟩

section Uses

variable {t : FdTable} {α : Type}

lemma SameFiles.of_kernel (hv : SameFiles h p t v) (hcur : v'.kernel.hartCurrent = v.kernel.hartCurrent)
    (hfds : (v'.kernel.proc p).fds = (v.kernel.proc p).fds) : SameFiles h p t v' := by
  refine ⟨hcur ▸ hv.1, fun i => ?_⟩
  rw [show v'.fds p = v.fds p from hfds]
  exact hv.2 i

lemma sameFiles_fdModify {f : VfsFd → VfsFd} (hf : ∀ fd, VfsFd.SameFile fd (f fd)) (i : Fin vfsMaxFds) :
    Preserves (SameFiles h p t) (onKernel fun k => k.fdModify h i f) := by
  refine Preserves.modify fun v hv => ?_
  unfold fdModify
  dsimp only
  split
  · exact hv.of_kernel rfl rfl
  · refine ⟨hv.1, fun j => ?_⟩
    have hcur : (v.kernel.hartCurrent h).getD 0 = p := by rw [hv.1]; rfl
    rw [fds, modifyCurrent, hcur, proc_modifyProc_self]
    by_cases hj : j = i
    · rw [hj]
      dsimp only
      rw [update_self]
      have hold := hv.2 i
      have hnew := hf ((v.kernel.proc p).fds i)
      unfold VfsFd.SameFile at *
      rw [hnew, show (v.kernel.proc p).fds i = _ from hold]
    · dsimp only
      rw [update_of_ne hj]
      exact hv.2 j

lemma sameFiles_fdUpdatePos (i : Fin vfsMaxFds) (pos : ℕ) :
    Preserves (SameFiles h p t) (onKernel fun k => k.fdUpdatePos h i pos) := by
  have hpos : ∀ fd : VfsFd, fd.SameFile { fd with pos := pos } := fun _ => rfl
  exact sameFiles_fdModify hpos i

lemma sameFiles_setSize (i : Fin vfsMaxFds) (size : ℕ) :
    Preserves (SameFiles h p t) (onKernel fun k => k.fdModify h i fun fd => { fd with size := size }) := by
  have hsize : ∀ fd : VfsFd, fd.SameFile { fd with size := size } := fun _ => rfl
  exact sameFiles_fdModify hsize i

lemma sameFiles_onOnyx (x : Onyxfs.FsM α) : Preserves (SameFiles h p t) (onOnyx x) := by
  intro v hv
  have hkernel := onOnyx_kernel x v
  exact hv.of_kernel (congrArg _ hkernel) (by rw [hkernel])

lemma fds_waitWakeAll (head : Option ℕ) (next : ℕ → Option ℕ) (k : Kernel) :
    (waitWakeAll head next k).2.hartCurrent = k.hartCurrent ∧
      ∀ p, ((waitWakeAll head next k).2.proc p).fds = (k.proc p).fds := by
  rw [waitWakeAll]
  generalize waitChain (wordSize + 1) next head = chain
  obtain ⟨ps, next⟩ := chain
  induction ps generalizing k with
  | nil => exact ⟨rfl, fun _ => rfl⟩
  | cons q ps ih =>
    obtain ⟨hcur, hfds⟩ := ih (k.modifyProc q fun r => { r with state := .ready })
    refine ⟨hcur, fun p => (hfds p).trans ?_⟩
    by_cases hpq : p = q
    · rw [hpq, proc_modifyProc_self]
    · rw [proc_modifyProc_of_ne hpq]

lemma transfer_kernel {s : Ipc} {k : Kernel} {id : ℕ} {side other : Side} {idle : Except Errno α}
    {tried : Channel → Except Errno (Option (α × Channel))} :
    (s.transfer h k id none side other idle tried).1.kernel.hartCurrent = k.hartCurrent ∧
      ∀ p, ((s.transfer h k id none side other idle tried).1.kernel.proc p).fds = (k.proc p).fds := by
  generalize hx : s.transfer h k id none side other idle tried = x
  refine transfer_cases hx ?_ ?_ ?_ ?_
  · exact fun _ _ _ => ⟨rfl, fun _ => rfl⟩
  · exact fun _ _ _ htf _ => nomatch htf
  · exact fun _ _ _ _ _ => ⟨rfl, fun _ => rfl⟩
  · exact fun _ _ ch _ _ => fds_waitWakeAll (ch.waitOf other) s.waitNext k

lemma sameFiles_onIpc {f : Ipc → Kernel → Flow (Except Errno α) × Ipc}
    (hf : ∀ s k, (f s k).1.kernel.hartCurrent = k.hartCurrent ∧
      ∀ p, ((f s k).1.kernel.proc p).fds = (k.proc p).fds) :
    Preserves (SameFiles h p t) (onIpc f) := by
  intro v hv
  obtain ⟨hcur, hfds⟩ := hf v.ipc v.kernel
  unfold onIpc
  rcases hflow : f v.ipc v.kernel with ⟨flow, ipc⟩
  rw [hflow] at hcur hfds
  have hv' : SameFiles h p t { v with kernel := flow.kernel, ipc := ipc } := hv.of_kernel hcur (hfds p)
  rcases flow with ⟨_ | _, _⟩ | _ | _
  all_goals exact hv'

lemma sameFiles_read (token len : ℕ) : Preserves (SameFiles h p t) (read D h token len) :=
  preserves_read (fun _ _ _ => sameFiles_onOnyx _)
    (fun _ _ => sameFiles_onIpc fun s k => s.recv_eq h k _ _ none ▸ transfer_kernel) sameFiles_fdUpdatePos token len

lemma sameFiles_write (token : ℕ) (data : List UInt8) : Preserves (SameFiles h p t) (write h token data) := by
  refine Preserves.bind (preserves_fdCheckPerm token permWrite) fun idx => ?_
  refine Preserves.bind (preserves_fdGet idx) fun fd => ?_
  have hbytes : Preserves (SameFiles h p t) (writeBytes h fd data) := by
    unfold writeBytes
    split
    · exact sameFiles_onOnyx _
    · exact .throw _
    · exact .ite (.throw _) (sameFiles_onIpc fun s k => s.send_eq h k _ _ none ▸ transfer_kernel)
    · exact .throw _
  refine Preserves.bind hbytes fun written => ?_
  refine Preserves.bind (sameFiles_fdUpdatePos idx _) fun _ => ?_
  apply Preserves.ite
  · exact .bind (sameFiles_setSize idx _) fun _ => .pure _
  · exact .pure _

lemma sameFiles_lseek (token : ℕ) (off : ℤ) (whence : ℕ) :
    Preserves (SameFiles h p t) (lseek h token off whence) := preserves_lseek sameFiles_fdUpdatePos token off whence

lemma proc_getdentsLoop (readdir : Kernel.Readdir) (fd : VfsFd) (buf pa count fuel cursor written : ℕ)
    (k : Kernel) :
    (getdentsLoop readdir fd buf pa count fuel cursor written k).2.proc = k.proc ∧
      (getdentsLoop readdir fd buf pa count fuel cursor written k).2.hartCurrent = k.hartCurrent := by
  induction fuel generalizing cursor written k with
  | zero => exact ⟨rfl, rfl⟩
  | succ fuel ih =>
    rw [getdentsLoop]
    split
    · exact ⟨rfl, rfl⟩
    · exact ⟨rfl, rfl⟩
    · dsimp only
      split_ifs
      · exact ⟨rfl, rfl⟩
      · exact ih ..

lemma sysGetdents64_cases (readdir : Kernel.Readdir) (token buf count : ℕ) (k : Kernel) :
    ∃ k1, k1.proc = k.proc ∧ k1.hartCurrent = k.hartCurrent ∧
      ((k.sysGetdents64 readdir h token buf count).2 = k1 ∨
        ∃ idx cursor, (k.sysGetdents64 readdir h token buf count).2 = k1.fdUpdatePos h idx cursor) := by
  unfold sysGetdents64
  by_cases hargs : !userPtrOk buf count ∨ count < 19
  · rw [if_pos hargs]
    exact ⟨k, rfl, rfl, .inl rfl⟩
  · rw [if_neg hargs]
    cases hfd : k.fdCheck h token with
    | error e => exact ⟨k, rfl, rfl, .inl rfl⟩
    | ok idx =>
      by_cases hpa : Vmm.translate k.mm.mem (k.current h).rootPa buf = 0
      · simp only [if_pos hpa]
        exact ⟨k, rfl, rfl, .inl rfl⟩
      · simp only [if_neg hpa]
        obtain ⟨hproc, hcur⟩ := proc_getdentsLoop readdir (k.fdGet h idx) buf
          (Vmm.translate k.mm.mem (k.current h).rootPa buf) count (count + 1) (k.fdGet h idx).pos 0 k
        split
        · rename_i k1 hk1
          rw [hk1] at hproc hcur
          exact ⟨k1, hproc, hcur, .inl rfl⟩
        · rename_i cursor written k1 hk1
          rw [hk1] at hproc hcur
          exact ⟨k1, hproc, hcur, .inr ⟨idx, cursor, rfl⟩⟩

lemma sameFiles_getdents64 (readdir : Kernel.Readdir) (b : Block) (token buf count : ℕ) :
    Preserves (SameFiles h p t) (getdents64 h readdir b token buf count) := by
  intro v hv
  obtain ⟨k1, hproc, hcur, hk⟩ := sysGetdents64_cases (h := h) readdir token buf count v.kernel
  have hv1 : SameFiles h p t { v with kernel := k1, onyx := v.onyx.withBuf b } :=
    hv.of_kernel hcur (by rw [hproc])
  show SameFiles h p t { v with
    kernel := (v.kernel.sysGetdents64 readdir h token buf count).2, onyx := v.onyx.withBuf b }
  rcases hk with hk | ⟨idx, cursor, hk⟩
  · rwa [hk]
  · rw [hk]
    exact sameFiles_fdUpdatePos idx cursor _ hv1

lemma sameFiles_ftruncate (token length : ℕ) : Preserves (SameFiles h p t) (ftruncate h token length) := by
  apply Preserves.ite
  · refine Preserves.bind (preserves_fdCheck token) fun idx => ?_
    exact .bind (preserves_fdGet idx) fun fd => sameFiles_onOnyx _
  · exact .pure _

end Uses

end Vfs

end OnyxKernel
