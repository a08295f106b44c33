import OnyxKernel.Fs.Tokens
import OnyxKernel.Syscall.Programs

/-!
# Failing calls and descriptors

The calls that open files: `open`, `create`, `dup`, `create_pipe`, `sys_exec`, `sys_execve` and `spawn`.
When one of them fails, the slots in use should be the same as before.  `create` and `dup` take a slot last.
The others lose a slot if they fail in between: `open` when the file is not found, `create_pipe` when there
is no second slot, and the others also when there is no memory for the image or, in `spawn`, when the file
cannot be read.
-/

namespace OnyxKernel

open Triple Kernel KResult Vfs FdTable FdHistory EStateM.Result
open Function (update update_self update_of_ne)

namespace Vfs

variable {D : Drivers} {h : Hart} {env : ProgramEnv} {p : ℕ} {v v' : Vfs} {i : Fin vfsMaxFds}
  {token n : ℕ} {w : Vfs} {α : Type} {e : Errno} {mm : Mm}

/-- `open` does not take a slot before it fails. -/
def FailsEarly (p : ℕ) (path : List UInt8) (v : Vfs) : Prop :=
  path.head? ≠ some Onyxfs.slash ∨ freeSlot (v.fds p) = none

/-- The file is found, there is memory for its image, and the process runs when the image has been read. -/
def ImageRead (D : Drivers) (h : Hart) (p : ℕ) (path : List UInt8) (v : Vfs) : Prop :=
  ∃ token v1 size img mm, openFile D h path (permRead ||| permSeek) v = .ok token v1 ∧
    stat h token v1 = .ok size v1 ∧ Heap.kmalloc size v1.kernel.mm = some (.ok img mm) ∧
    (final (read D h token size (v1.withMm mm))).kernel.InProcess h p

/-- The file is found and is empty, or there is memory for its image, it can be read, and the process still
runs then. -/
def SpawnRead (D : Drivers) (h : Hart) (p : ℕ) (path : List UInt8) (v : Vfs) : Prop :=
  ∃ token v1 size, openFile D h path (permRead ||| permSeek) v = .ok token v1 ∧
    stat h token v1 = .ok size v1 ∧
    (size = 0 ∨ ∃ img mm bytes v2, Heap.kmalloc size v1.kernel.mm = some (.ok img mm) ∧
      read D h token size (v1.withMm mm) = .ok bytes v2 ∧ v2.kernel.InProcess h p)

/-! ### A file that was opened -/

/-- The token is for the slot `i` of the process. -/
structure OpenAt (h : Hart) (p : ℕ) (token : ℕ) (i : Fin vfsMaxFds) (v : Vfs) : Prop where
  inProcess : v.kernel.InProcess h p
  used : (v.fds p i).used = true
  token_eq : token = fdToken i (v.fds p i).epoch
  epoch_lt : (v.fds p i).epoch < 2 ^ 32

section OpenAt

variable {token : ℕ}

section

variable (ho : OpenAt h p token i v)
include ho

lemma OpenAt.check : fdCheck h token v = .ok i v := by
  have hepoch := ho.epoch_lt
  have hcheck : v.kernel.fdCheck h token = .ok i := by
    refine ho.inProcess.fdCheck_eq_ok_iff.mpr ⟨ho.used, ?_, ?_⟩
    · rw [ho.token_eq, fdToken]
      omega
    · show (v.fds p i).epoch = _
      rw [ho.token_eq, fdToken]
      omega
  rw [fdCheck_eq, hcheck]

lemma OpenAt.stat_eq : stat h token v = .ok (v.fds p i).size v := by
  rw [stat, bind_of_ok ho.check]
  show ok (v.kernel.fdGet h i).size v = _
  rw [ho.inProcess.fdGet_eq]
  rfl

lemma OpenAt.close_eq :
    close h token v = .ok () (v.withFds p (update (v.fds p) i { v.fds p i with used := false })) := by
  rw [close, bind_of_ok ho.check]
  show ok () { v with kernel := v.kernel.fdClear h i } = _
  rw [fdClear, ho.inProcess.fdModify_eq]
  rfl

lemma OpenAt.withMm (mm : Mm) : OpenAt h p token i (v.withMm mm) :=
  ⟨⟨ho.inProcess.current_eq, ho.inProcess.running, ho.inProcess.pid_ne⟩, ho.used, ho.token_eq, ho.epoch_lt⟩

lemma OpenAt.of_sameFiles (hsame : SameFiles h p (v.fds p) v')
    (hp' : v'.kernel.InProcess h p) : OpenAt h p token i v' := by
  obtain ⟨hused, hepoch, -⟩ := (hsame.2 i).fields
  exact ⟨hp', hused.trans ho.used, by rw [hepoch]; exact ho.token_eq, hepoch ▸ ho.epoch_lt⟩

end

/-- A slot that was free in `v` has been taken for the token. -/
structure TakenSlot (h : Hart) (p : ℕ) (v : Vfs) (token : ℕ) (i : Fin vfsMaxFds) (w : Vfs) : Prop
    extends OpenAt h p token i w where
  free : (v.fds p i).used = false
  others : ∀ j, j ≠ i → (w.fds p j).used = (v.fds p j).used

/-- A slot that was free is in use after the call. -/
def LosesSlot {α ε : Type} (p : ℕ) (v : Vfs) (r : EStateM.Result ε Vfs α) : Prop :=
  ∃ i, (v.fds p i).used = false ∧ ((final r).fds p i).used = true

/-- The same slots are in use. -/
def SameSlots (p : ℕ) (v v' : Vfs) : Prop := ∀ i, (v'.fds p i).used = (v.fds p i).used

lemma not_sameSlots_of_losesSlot {α ε : Type} {r : EStateM.Result ε Vfs α} (hlost : LosesSlot p v r) :
    ¬SameSlots p v (final r) := by
  obtain ⟨i, hfree, hused⟩ := hlost
  intro hsame
  have := hsame i
  rw [hfree, hused] at this
  cases this

lemma openFile_slots (hp : v.kernel.InProcess h p) (path : List UInt8) (perms : ℕ) :
    (FailsEarly p path v ∧ ∃ e, openFile D h path perms v = .error e v) ∨
    ¬FailsEarly p path v ∧
      ((∃ e v', openFile D h path perms v = .error e v' ∧ LosesSlot p v (openFile D h path perms v)) ∨
        ∃ token i w, openFile D h path perms v = .ok token w ∧ TakenSlot h p v token i w) := by
  rcases openFile_cases (D := D) hp path perms with
    ⟨hearly, e, he⟩ | ⟨i, hpath, hfree, hrest⟩
  · exact .inl ⟨hearly, e, he⟩
  · have hslot := used_of_freeSlot hfree
    refine .inr ⟨?_, ?_⟩
    · rintro (hrel | hnone)
      · exact hrel hpath
      · rw [hfree] at hnone
        cases hnone
    · rcases hrest with ⟨e, v', -, he, hv'⟩ | ⟨fs, ino, size, w, -, hok, hw⟩
      · refine .inl ⟨e, v', he, i, hslot, ?_⟩
        rw [he, final, fds_of_kernel hv', update_self]
        rfl
      · have hfds := fds_of_kernel hw
        have hi : w.fds p i = ((v.fds p i).taken perms).filled ino size fs 0 := by
          rw [hfds, update_self]
        have hepoch : nextEpoch (v.fds p i).epoch < 2 ^ 32 := by
          unfold nextEpoch
          split <;> omega
        refine .inr ⟨_, i, w, hok, ⟨?_, ?_, ?_, ?_⟩, hslot, ?_⟩
        · rw [hw]
          exact hp.withFds _
        · rw [hi]
          rfl
        · rw [hi]
          rfl
        · rwa [hi]
        · intro j hj
          rw [hfds, update_of_ne hj]

/-- When the process does not run, `close` does not reach its table. -/
theorem fds_close_of_not_inProcess (hcur : v.kernel.hartCurrent h = some p)
    (hp : ¬v.kernel.InProcess h p) (token : ℕ) : (final (close h token v)).fds p = v.fds p := by
  have hpid : v.kernel.currentPid h = 0 := by
    unfold currentPid
    rw [hcur]
    dsimp only
    split
    · next hrun =>
      by_contra hne
      exact hp ⟨hcur, hrun, hne⟩
    · rfl
  have hcheck := fdCheck_eq (h := h) token v
  unfold close
  cases hfd : v.kernel.fdCheck h token with
  | error e =>
    rw [hfd] at hcheck
    rw [bind_of_error hcheck]
    rfl
  | ok j =>
    rw [hfd] at hcheck
    rw [bind_of_ok hcheck]
    show ((v.kernel.fdClear h j).proc p).fds = _
    rw [fdClear, fdModify, if_pos hpid]
    rfl

end OpenAt

/-! ### The image -/

lemma TakenSlot.of_sameFiles {v2 : Vfs} (ho : TakenSlot h p v token i w) (hsame : SameFiles h p (w.fds p) v2)
    (hp2 : v2.kernel.InProcess h p) : TakenSlot h p v token i v2 :=
  ⟨ho.toOpenAt.of_sameFiles hsame hp2, ho.free, fun j hj => ((hsame.2 j).fields.1).trans (ho.others j hj)⟩

lemma TakenSlot.withMm (ho : TakenSlot h p v token i w) (mm : Mm) : TakenSlot h p v token i (w.withMm mm) :=
  ⟨ho.toOpenAt.withMm mm, ho.free, ho.others⟩

lemma TakenSlot.sameSlots_close (ho : TakenSlot h p v token i w) : SameSlots p v (final (close h token w)) := by
  intro j
  rw [ho.close_eq, final, fds_withFds]
  by_cases hj : j = i
  · rw [hj, update_self, ho.free]
  · rw [update_of_ne hj]
    exact ho.others j hj

lemma close_after_read {size : ℕ} {v2 : Vfs} (ho : TakenSlot h p v token i w)
    (hread : final (read D h token size w) = v2) (mm : Mm) :
    (v2.kernel.InProcess h p → SameSlots p v (final (close h token (v2.withMm mm)))) ∧
    (¬v2.kernel.InProcess h p → ((final (close h token (v2.withMm mm))).fds p i).used = true) := by
  have hsame : SameFiles h p (w.fds p) v2 :=
    hread ▸ sameFiles_read token size w (sameFiles_self ho.inProcess)
  constructor
  · exact fun hp2 => ((ho.of_sameFiles hsame hp2).withMm mm).sameSlots_close
  · intro hp2
    have hcur : (v2.withMm mm).kernel.hartCurrent h = some p := hsame.1
    have hnot : ¬(v2.withMm mm).kernel.InProcess h p := fun hp => hp2 ⟨hp.current_eq, hp.running, hp.pid_ne⟩
    rw [fds_close_of_not_inProcess hcur hnot]
    exact ((hsame.2 i).fields.1).trans ho.used

lemma call_of_ok {x : VfsM α} {a : α} (hx : x v = .ok a v') : call x v = .ok a v' := by
  rw [call, hx]

lemma call_of_error {x : VfsM α} (hx : x v = .error e v') : call x v = .error (.err e) v' := by
  rw [call, hx]

lemma callOk_eq (x : VfsM α) (v : Vfs) : ∃ a, callOk x v = .ok a (final (x v)) := by
  unfold callOk
  cases x v with
  | ok a v' => exact ⟨some a, rfl⟩
  | error e v' => exact ⟨none, rfl⟩

lemma kmalloc_of_error
    (hk : Heap.kmalloc n v.kernel.mm = some (.error e mm)) : kmalloc n v = .error (.err e) (v.withMm mm) := by
  rw [kmalloc, hk]

lemma kmalloc_of_ok {img : ℕ} (hk : Heap.kmalloc n v.kernel.mm = some (.ok img mm)) :
    kmalloc n v = .ok img (v.withMm mm) := by
  rw [kmalloc, hk]

lemma putImage_eq (img : ℕ) (bytes : List UInt8) (v : Vfs) : ∃ mm, putImage img bytes v = .ok () (v.withMm mm) :=
  ⟨_, rfl⟩

lemma TakenSlot.losesSlot_kmalloc {f : ℕ → ProgramM α}
    (ho : TakenSlot h p v token i w) (hk : ¬∃ img mm, Heap.kmalloc n w.kernel.mm = some (.ok img mm)) :
    LosesSlot p v ((kmalloc n >>= f) w) := by
  refine ⟨i, ho.free, ?_⟩
  cases hres : Heap.kmalloc n w.kernel.mm with
  | none =>
    rw [bind_of_error (show kmalloc n w = .error .hang w by rw [kmalloc, hres])]
    exact ho.used
  | some res =>
    cases res with
    | ok img mm => exact absurd ⟨img, mm, hres⟩ hk
    | error e mm =>
      rw [bind_of_error (kmalloc_of_error hres)]
      exact ho.used

/-- A call that gets an image fails at once, loses a slot, or has read the image and loses none. -/
def ImageSlots {α : Type} (p : ℕ) (path : List UInt8) (v : Vfs) (isRead : Prop)
    (r : EStateM.Result Onx.Stop Vfs α) : Prop :=
  (FailsEarly p path v ∧ ∃ e, r = .error (.err e) v) ∨
    ¬FailsEarly p path v ∧ (¬isRead ∧ LosesSlot p v r ∨ isRead ∧ SameSlots p v (final r))

lemma imageSlots_of_opened {g : ℕ → ProgramM α} {R : ℕ → Vfs → ℕ → Prop}
    (hp : v.kernel.InProcess h p) (path : List UInt8)
    (hrest : ∀ token i n w, TakenSlot h p v token i w → stat h token w = .ok n w →
      ¬R token w n ∧ LosesSlot p v (g token w) ∨ R token w n ∧ SameSlots p v (final (g token w))) :
    ImageSlots p path v
      (∃ token w, openFile D h path (permRead ||| permSeek) v = .ok token w ∧
        ∃ n, stat h token w = .ok n w ∧ R token w n)
      ((call (openFile D h path (permRead ||| permSeek)) >>= g) v) := by
  rcases openFile_slots (D := D) hp path (permRead ||| permSeek) with
    ⟨hearly, e, he⟩ | ⟨hearly, ⟨e, v', he, hlost⟩ | ⟨token, i, w, hok, ho⟩⟩
  · exact .inl ⟨hearly, e, bind_of_error (call_of_error he)⟩
  · refine .inr ⟨hearly, .inl ⟨?_, ?_⟩⟩
    · rintro ⟨token, w, hok, -⟩
      rw [he] at hok
      cases hok
    · rw [he] at hlost
      rwa [bind_of_error (call_of_error he)]
  · refine .inr ⟨hearly, ?_⟩
    have hread : (∃ token w, openFile D h path (permRead ||| permSeek) v = .ok token w ∧
        ∃ n, stat h token w = .ok n w ∧ R token w n) ↔ R token w (w.fds p i).size := by
      simp [hok, ho.stat_eq]
    rw [hread, bind_of_ok (call_of_ok hok)]
    exact hrest token i _ w ho ho.stat_eq

/-- `exec` gets its image: the slot is lost unless the image is read. -/
theorem openImage_cases (hp : v.kernel.InProcess h p) (env : ProgramEnv) (path : List UInt8) :
    ImageSlots p path v (ImageRead D h p path v) (openImage D h env path v) := by
  simp only [ImageRead, exists_and_left]
  refine imageSlots_of_opened (R := fun token w n => ∃ img mm, Heap.kmalloc n w.kernel.mm =
    some (.ok img mm) ∧ (final (read D h token n (w.withMm mm))).kernel.InProcess h p) hp path ?_
  intro token i n w ho hstat
  have hstatOk : callOk (stat h token) w = .ok (some n) w := by rw [callOk, hstat]
  rw [bind_of_ok hstatOk, Option.getD_some]
  by_cases hk : ∃ img mm, Heap.kmalloc n w.kernel.mm = some (.ok img mm)
  · obtain ⟨img, mm, hk⟩ := hk
    obtain ⟨v2, hv2⟩ : ∃ v2, final (read D h token n (w.withMm mm)) = v2 := ⟨_, rfl⟩
    have hread : (∃ img mm, Heap.kmalloc n w.kernel.mm = some (.ok img mm) ∧
        (final (read D h token n (w.withMm mm))).kernel.InProcess h p) ↔ v2.kernel.InProcess h p := by
      simp [hk, hv2]
    obtain ⟨bytes, hbytes⟩ := callOk_eq (read D h token n) (w.withMm mm)
    rw [hv2] at hbytes
    rw [hread, bind_of_ok (kmalloc_of_ok hk), bind_of_ok hbytes]
    obtain ⟨mm2, hput⟩ := putImage_eq img (bytes.getD env.spill) v2
    obtain ⟨res, hclose⟩ := callOk_eq (close h token) (v2.withMm mm2)
    obtain ⟨hruns, hlost⟩ := close_after_read (ho.withMm mm) hv2 mm2
    rw [bind_of_ok hput, bind_of_ok hclose]
    by_cases hp2 : v2.kernel.InProcess h p
    · exact .inr ⟨hp2, hruns hp2⟩
    · exact .inl ⟨hp2, i, ho.free, hlost hp2⟩
  · exact .inl ⟨fun ⟨img, mm, hk', _⟩ => hk ⟨img, mm, hk'⟩, ho.losesSlot_kmalloc hk⟩

/-- `spawn` gets its image: the slot is lost unless the file is empty or is read. -/
theorem readImage_cases (hp : v.kernel.InProcess h p) (path : List UInt8) :
    ImageSlots p path v (SpawnRead D h p path v) (readImage D h path v) := by
  simp only [SpawnRead, exists_and_left]
  refine imageSlots_of_opened (R := fun token w n => n = 0 ∨ ∃ img mm, Heap.kmalloc n w.kernel.mm =
    some (.ok img mm) ∧ ∃ bytes v2, read D h token n (w.withMm mm) = .ok bytes v2 ∧ v2.kernel.InProcess h p) hp path ?_
  intro token i n w ho hstat
  rw [bind_of_ok (call_of_ok hstat)]
  by_cases hn0 : n = 0
  · -- an empty file is closed again
    have hclosed := ho.sameSlots_close
    rw [ho.close_eq] at hclosed
    rw [if_pos hn0, bind_of_ok (call_of_ok ho.close_eq)]
    exact .inr ⟨.inl hn0, hclosed⟩
  rw [if_neg hn0]
  by_cases hk : ∃ img mm, Heap.kmalloc n w.kernel.mm = some (.ok img mm)
  · obtain ⟨img, mm, hk⟩ := hk
    rw [bind_of_ok (kmalloc_of_ok hk)]
    cases hread : read D h token n (w.withMm mm) with
    | error e v2 =>
      have hsame : SameFiles h p (w.fds p) v2 := by
        have := sameFiles_read (D := D) token n (w.withMm mm) (sameFiles_self (ho.withMm mm).inProcess)
        rw [hread] at this
        exact this
      rw [bind_of_error (call_of_error hread)]
      exact .inl ⟨by simp [hn0, hk, hread], i, ho.free, ((hsame.2 i).fields.1).trans ho.used⟩
    | ok bytes v2 =>
      rw [bind_of_ok (call_of_ok hread)]
      obtain ⟨mm2, hput⟩ := putImage_eq img bytes v2
      rw [bind_of_ok hput]
      obtain ⟨hruns, hlost⟩ := close_after_read (ho.withMm mm) (congrArg final hread) mm2
      have hfinal : ∀ v3, final ((call (close h token) >>= fun _ => pure (img, n)) v3) =
          final (close h token v3) := by
        intro v3
        cases hclose : close h token v3 with
        | ok a v4 => rw [bind_of_ok (call_of_ok hclose)]; rfl
        | error e v4 => rw [bind_of_error (call_of_error hclose)]; rfl
      unfold LosesSlot
      rw [hfinal]
      by_cases hp2 : v2.kernel.InProcess h p
      · exact .inr ⟨.inr ⟨img, mm, hk, bytes, v2, hread, hp2⟩, hruns hp2⟩
      · exact .inl ⟨by simp [hn0, hk, hread, hp2], i, ho.free, hlost hp2⟩
  · refine .inl ⟨?_, ho.losesSlot_kmalloc hk⟩
    rintro (h0 | ⟨img', mm', hk', -⟩)
    · exact hn0 h0
    · exact hk ⟨img', mm', hk'⟩

/-! ### What follows the image -/

section AfterImage

variable {t : FdTable} {argvUser parentPid : ℕ} {ringHint : UInt8}

/-- The descriptors are those in `t` whenever an error is returned. -/
abbrev FailsWithFds {α : Type} (p : ℕ) (t : FdTable) (f : ProgramM α) : Prop :=
  Holds (fun v => v.fds p = t) f (fun _ v => v.fds p = t) fun _ v => v.fds p = t

lemma fds_kfree (img : ℕ) : FailsWithFds p t (kfree img) := by
  refine preserves_iff.mp fun v hv => ?_
  unfold kfree
  split <;> exact hv

lemma fds_load (img size : ℕ) : FailsWithFds p t (load img size) := by
  refine preserves_iff.mp fun v hv => ?_
  unfold load
  split <;> exact hv

lemma fds_loadOrFree (img size : ℕ) : FailsWithFds p t (loadOrFree img size) := by
  intro v hv
  have hload := fds_load (p := p) (t := t) img size v hv
  unfold loadOrFree
  cases hres : load img size v with
  | ok r v' =>
    rw [hres] at hload
    exact hload
  | error stop v' =>
    rw [hres] at hload
    cases stop with
    | hang => exact hload
    | err e =>
      have hfree : FailsWithFds p t (do kfree img; throw (Onx.Stop.err e) : ProgramM Onx.OnxLoadResult) :=
        .bind (fds_kfree img) fun _ => .throw fun _ => id
      exact hfree v' hload

/-- An error of `exec` after the image has been read leaves the descriptors alone. -/
theorem fds_execImage {curRing : UInt8} {argv envp : ℕ} {entryVaddr : Onx.OnxLoadResult → ℕ} {uid : Kernel → ℕ}
    {more : Proc → Proc} (img size : ℕ) :
    Holds (fun v => v.fds p = t) (execImage h env curRing argv envp entryVaddr uid more img size)
      (fun _ _ => True) fun _ v => v.fds p = t := by
  refine Holds.bind (fds_loadOrFree img size) fun r => ?_
  refine Holds.bind (fds_kfree img) fun _ => ?_
  refine Holds.ite (fun _ => .throw fun _ => id) fun _ => ?_
  intro v hv
  exact trivial

lemma proc_spawnLoaded_of_error {w : Supply} {k k' : Kernel} {r : Onx.OnxLoadResult} {e : Errno}
    (herr : k.spawnLoaded w h argvUser ringHint parentPid r = (.error e, k')) : k'.proc = k.proc := by
  unfold spawnLoaded at herr
  dsimp only at herr
  split at herr
  · cases herr
    rfl
  · cases herr

lemma fds_spawnImage (img size : ℕ) :
    Holds (fun v => v.fds p = t) (spawnImage h env argvUser ringHint parentPid img size)
      (fun _ _ => True) fun _ v => v.fds p = t := by
  refine Holds.bind (fds_load img size) fun r => ?_
  refine Holds.bind (fds_kfree img) fun _ => ?_
  intro v hv
  split
  · trivial
  · next k' hk' =>
    dsimp only at hk'
    split at hk'
    · cases hk'
    · next e k1 herr =>
      cases hk'
      show (k1.proc p).fds = t
      rwa [proc_spawnLoaded_of_error herr]

end AfterImage

end Vfs

/-- A call that opens a file. -/
inductive CreatingCall where
  | openFile (path : List UInt8) (perms : ℕ)
  | create (path : List UInt8) (mode : ℕ)
  | dup (token : ℕ)
  | createPipe
  | exec (env : ProgramEnv) (path : Option (List UInt8)) (argv : ℕ)
  | execve (env : ProgramEnv) (path : Option (List UInt8)) (argv envp : ℕ)
  | spawn (env : ProgramEnv) (path : List UInt8) (argvUser : ℕ) (ringHint : UInt8) (parentPid : ℕ)

namespace CreatingCall

variable {D : Drivers} {h : Hart} {p : ℕ} {v v' : Vfs} {e : Errno} {α : Type} {path : List UInt8}

/-- The call, without its result. -/
def run (D : Drivers) (h : Hart) : CreatingCall → ProgramM Unit
  | openFile path perms => discard (Vfs.call (Vfs.openFile D h path perms))
  | create path mode => discard (Vfs.call (Vfs.create h path mode))
  | dup token => discard (Vfs.call (Vfs.dup h token))
  | createPipe => discard (Vfs.call (Vfs.createPipe h))
  | exec env path argv => discard (Vfs.exec D h env path argv)
  | execve env path argv envp => discard (Vfs.execve D h env path argv envp)
  | spawn env path argvUser ringHint parentPid =>
    discard (Vfs.spawn D h env path argvUser ringHint parentPid)

/-- An error of the call cannot come when a slot has been taken and not given back. -/
def Clean (D : Drivers) (h : Hart) (p : ℕ) : CreatingCall → Vfs → Prop
  | openFile path _, v => Vfs.FailsEarly p path v
  | create _ _, _ | dup _, _ => True
  | createPipe, v => (freeSlots (v.fds p)).length ≠ 1
  | exec _ path _, v | execve _ path _ _, v =>
    ∀ path' ∈ path, Vfs.FailsEarly p path' v ∨ Vfs.ImageRead D h p path' v
  | spawn _ path _ _ _, v => Vfs.FailsEarly p path v ∨ Vfs.SpawnRead D h p path v

lemma discard_eq_error {x : ProgramM α} (herr : (discard x) v = .error (.err e) v') :
    x v = .error (.err e) v' := by
  have hmap : EStateM.map (fun _ => ()) x v = .error (.err e) v' := herr
  unfold EStateM.map at hmap
  cases hx : x v with
  | ok a w =>
    rw [hx] at hmap
    cases hmap
  | error stop w =>
    rw [hx] at hmap
    cases hmap
    rfl

lemma call_eq_error {x : VfsM α} (herr : call x v = .error (.err e) v') : x v = .error e v' := by
  unfold call at herr
  cases hx : x v with
  | ok a w =>
    rw [hx] at herr
    cases herr
  | error e' w =>
    rw [hx] at herr
    cases herr
    rfl

lemma sameSlots_of_fds (hfds : v'.fds p = v.fds p) : Vfs.SameSlots p v v' := by
  intro i
  rw [hfds]

lemma openFile_iff {perms : ℕ} (hp : v.kernel.InProcess h p)
    (herr : Vfs.openFile D h path perms v = .error e v') :
    Vfs.SameSlots p v v' ↔ Vfs.FailsEarly p path v := by
  rcases Vfs.openFile_slots (D := D) hp path perms with
    ⟨hearly, e', he⟩ | ⟨hearly, ⟨e', w, he, hlost⟩ | ⟨token, i, w, hok, -⟩⟩
  · rw [herr] at he
    cases he
    exact iff_of_true (sameSlots_of_fds rfl) hearly
  · rw [herr] at hlost
    exact iff_of_false (not_sameSlots_of_losesSlot hlost) hearly
  · rw [herr] at hok
    cases hok

lemma sameSlots_iff_settles (hp : v.kernel.InProcess h p) (c : FdCall) (herr : c.run D h v = .error e v') :
    Vfs.SameSlots p v v' ↔ c.Settles p D h v := by
  have hiff := FdCall.failsCleanly_run_iff (D := D) hp c
  rwa [herr] at hiff

lemma image_iff {β : Type} {x : ProgramM α} {f : α → ProgramM β} {isRead : Prop}
    (hcases : Vfs.ImageSlots p path v isRead (x v))
    (hf : ∀ a t, Holds (fun v => v.fds p = t) (f a) (fun _ _ => True) fun _ v => v.fds p = t)
    (herr : (x >>= f) v = .error (.err e) v') : Vfs.SameSlots p v v' ↔ Vfs.FailsEarly p path v ∨ isRead := by
  have hfds : v'.fds p = (final (x v)).fds p := by
    cases hx : x v with
    | ok a w =>
      rw [bind_of_ok hx] at herr
      exact (hf a (w.fds p)).error rfl herr
    | error stop w =>
      rw [bind_of_error hx] at herr
      cases herr
      rfl
  have hiff : Vfs.SameSlots p v v' ↔ Vfs.SameSlots p v (final (x v)) := by
    unfold Vfs.SameSlots
    rw [hfds]
  rw [hiff]
  rcases hcases with ⟨hearly, e', he⟩ | ⟨hearly, ⟨hread, hlost⟩ | ⟨hread, hsame⟩⟩
  · rw [he]
    exact iff_of_true (sameSlots_of_fds rfl) (.inl hearly)
  · exact iff_of_false (not_sameSlots_of_losesSlot hlost) (not_or.mpr ⟨hearly, hread⟩)
  · exact iff_of_true hsame (.inr hread)

lemma execWith_iff {env : ProgramEnv} {path : Option (List UInt8)} {argv envp : ℕ}
    {entryVaddr : Onx.OnxLoadResult → ℕ} {uid : Kernel → ℕ} {more : Proc → Proc} (hp : v.kernel.InProcess h p)
    (herr : execWith D h env path argv envp entryVaddr uid more v = .error (.err e) v') :
    Vfs.SameSlots p v v' ↔ ∀ path' ∈ path, Vfs.FailsEarly p path' v ∨ Vfs.ImageRead D h p path' v := by
  cases path with
  | none =>
    cases herr
    exact iff_of_true (sameSlots_of_fds rfl) fun _ hmem => (nomatch hmem)
  | some path =>
    rw [show (∀ path' ∈ some path, Vfs.FailsEarly p path' v ∨ Vfs.ImageRead D h p path' v) ↔
      Vfs.FailsEarly p path v ∨ Vfs.ImageRead D h p path v by simp]
    exact image_iff (openImage_cases hp env path) (fun r t => fds_execImage r.1 r.2) herr

lemma sameSlots_iff (hp : v.kernel.InProcess h p) (c : CreatingCall)
    (herr : c.run D h v = .error (.err e) v') : Vfs.SameSlots p v v' ↔ c.Clean D h p v := by
  cases c with
  | openFile path perms => exact openFile_iff hp (call_eq_error (discard_eq_error herr))
  | create path mode =>
    exact sameSlots_iff_settles (D := D) hp (.create path mode) (bind_of_error (call_eq_error (discard_eq_error herr)))
  | dup token =>
    exact sameSlots_iff_settles (D := D) hp (.dup token) (bind_of_error (call_eq_error (discard_eq_error herr)))
  | createPipe =>
    exact sameSlots_iff_settles (D := D) hp .createPipe (bind_of_error (call_eq_error (discard_eq_error herr)))
  | exec env path argv => exact execWith_iff hp (discard_eq_error herr)
  | execve env path argv envp => exact execWith_iff hp (discard_eq_error herr)
  | spawn env path argvUser ringHint parentPid =>
    exact image_iff (readImage_cases hp path) (fun r t => fds_spawnImage r.1 r.2)
      (discard_eq_error herr)

/-- A call of the process that is clean and fails. -/
def CleanFailure (p : ℕ) (v v' : Vfs) : Prop :=
  ∃ D h c e, v.kernel.InProcess h p ∧ Clean D h p c v ∧ c.run D h v = .error (.err e) v'

/-- When a call fails, the same slots are in use exactly if no error can come while a slot is held.  A
sequence of such failures takes no slot. -/
theorem failed_calls_keep_slots (p : ℕ) :
    (∀ D h c v e v', v.kernel.InProcess h p → c.run D h v = .error (.err e) v' →
      (Vfs.SameSlots p v v' ↔ Clean D h p c v)) ∧
    ∀ v v', Relation.ReflTransGen (CleanFailure p) v v' → Vfs.SameSlots p v v' := by
  refine ⟨fun D h c v e v' hp herr => sameSlots_iff hp c herr, fun v v' hrun => ?_⟩
  induction hrun with
  | refl => exact sameSlots_of_fds rfl
  | tail _ hstep ih =>
    obtain ⟨D, h, c, e, hp, hclean, herr⟩ := hstep
    exact fun i => ((sameSlots_iff hp c herr).mpr hclean i).trans (ih i)

/-- A path that is not absolute is refused at once. -/
theorem failed_calls_keep_slots_relative :
    (openFile [0x76] permRead).run procDrivers 0 procVfs =
        .error (.err .inval) procVfs ∧
      Vfs.SameSlots 0x80200000 procVfs procVfs := by
  refine ⟨rfl, ?_⟩
  refine ((failed_calls_keep_slots 0x80200000).1 procDrivers 0 (openFile [0x76] permRead) _ .inval _
    ⟨rfl, rfl, by decide⟩ rfl).mpr ?_
  exact .inl (by decide)

/-- Thirteen times a file that does not exist is opened. -/
def missingThirteenTimes : Vfs :=
  (fun v => final ((openFile (procPath 0x78) permRead).run procDrivers 0 v))^[13]
    procVfs

/-- Opening a file that does not exist takes a slot, and after thirteen such calls no slot is free. -/
theorem missing_file_loses_slot :
    (∃ v', (openFile (procPath 0x78) permRead).run procDrivers 0 procVfs =
        .error (.err .noEnt) v' ∧ (v'.fds 0x80200000 3).used = true ∧
        ¬Vfs.SameSlots 0x80200000 procVfs v') ∧
      freeSlot (missingThirteenTimes.fds 0x80200000) = none := by
  refine ⟨⟨_, rfl, by decide +kernel, ?_⟩, by decide +kernel⟩
  unfold Vfs.SameSlots
  decide +kernel

end CreatingCall

end OnyxKernel
