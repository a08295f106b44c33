import OnyxKernel.Fs.SnapshotRestore
import OnyxKernel.Tools.MkimageMount

/-!
# The snapshot area

`mkimage` leaves `4 * 64` blocks between the inode table and the journal for snapshots.  `snapshot_create` does
not look at the end of the area; it only refuses, behind its writes, a snapshot that has no record in the first
block of the area.  So the first four snapshots stay inside the area and every later one is written over the
journal or the blocks behind it, unless it fails before its first write (`snapshotContained_iff`).
-/

namespace OnyxKernel

open ByteMemory Triple Mkimage List Option Relation Nat

/-- The areas of an image: the journal begins 256 blocks behind the snapshot area. -/
structure OnyfsSuper.HasArea (sb : OnyfsSuper) : Prop where
  area_pos : 0 < sb.snapshotAreaStart
  journalStart : sb.journalStart = sb.snapshotAreaStart + 256
  area_lt : sb.snapshotAreaStart + 65 * 64 < u32Size
  flag : sb.featureFlags &&& Onyxfs.onyfsFeatSnapshots ≠ 0

namespace Onyxfs

variable {s t : Fs} {name : List UInt8}

/-- A call of `snapshot_create` writes the superblock and blocks of the snapshot area only, and it writes nothing if
it fails. -/
def SnapshotContained (s : Fs) (name : List UInt8) : Prop :=
  (∀ e t, snapshotCreate name s = .error e t → t.writes = s.writes) ∧
    ∀ w ∈ (final (snapshotCreate name s)).writes.drop s.writes.length,
      w.1 = 0 ∨ s.sb.snapshotAreaStart ≤ w.1 ∧ w.1 < s.sb.journalStart

/-- The driver at work: operations that only write blocks, snapshots, and mounts that find the superblock.  All of them
may fail. -/
inductive DriverStep : Fs → Fs → Prop
  | op {s : Fs} {f : FsM Unit} (hf : OnlyWrites f) : DriverStep s (final (f s))
  | snapshot {s : Fs} (name : List UInt8) : DriverStep s (final (snapshotCreate name s))
  | remount {s : Fs} (h : OnyfsSuper.fromBytes (s.disk 0).mem = some s.sb) : DriverStep s (final (mount (boot s.disk)))

/-! ### The geometry -/

/-- The superblock of an image, with up to 64 snapshots. -/
def Geometry (sb0 : OnyfsSuper) (s : Fs) : Prop := ∃ n ≤ 64, s.sb = { sb0 with snapshotCount := n }

lemma snapshotCreate_sb (name : List UInt8) (s : Fs) : (final (snapshotCreate name s)).sb = s.sb ∨
    s.HasRecord ∧ (final (snapshotCreate name s)).sb = { s.sb with snapshotCount := s.nextSnapshot } := by
  by_cases hnone : s.HasSnapshots → pushAll [] s.pushedBlocks = none
  · obtain ⟨e, b, herr⟩ := snapshotCreate_of_none name hnone
    rw [herr]
    exact .inl rfl
  · obtain ⟨hs, hsome⟩ := Classical.not_imp.mp hnone
    obtain ⟨blocks, hblocks⟩ := ne_none_iff_exists'.mp hsome
    obtain ⟨entries, u, hst, hfail, hok⟩ := snapshotCreate_of_some name hs hblocks
    by_cases hrec : s.HasRecord
    · obtain ⟨m, hm⟩ := hok hrec
      rw [hm]
      refine .inr ⟨hrec, ?_⟩
      change { u.sb with snapshotCount := s.nextSnapshot } = _
      rw [hst.sb_eq]
    · obtain ⟨e, b, herr⟩ := hfail hrec
      rw [herr]
      exact .inl hst.sb_eq

lemma Fs.HasRecord.nextSnapshot_le (h : s.HasRecord) : s.nextSnapshot ≤ 64 := by
  unfold Fs.HasRecord snapshotIndex SnapshotMeta.byteSize onyfsBlockSize at h
  have hlt : s.nextSnapshot < u32Size := mod_lt _ (by decide)
  unfold u32Size at *
  omega

lemma Geometry.step {sb0 : OnyfsSuper} (hsize : sb0.blockSize = onyfsBlockSize) (h : Geometry sb0 s)
    (hstep : DriverStep s t) : Geometry sb0 t := by
  obtain ⟨n, hn, hsb⟩ := h
  cases hstep with
  | op hf => exact ⟨n, hn, hf _ (stable_sb _) s hsb⟩
  | snapshot name =>
    rcases snapshotCreate_sb name s with heq | ⟨hrec, heq⟩
    · exact ⟨n, hn, heq.trans hsb⟩
    · exact ⟨s.nextSnapshot, hrec.nextSnapshot_le, by rw [heq, hsb]⟩
  | remount hsuper =>
    obtain ⟨u, hu, husb⟩ := exists_mount_of_super hsuper (by rw [hsb]; exact hsize)
    rw [hu]
    exact ⟨n, hn, husb.trans hsb⟩

lemma Geometry.run {sb0 : OnyfsSuper} (hsize : sb0.blockSize = onyfsBlockSize) (h : Geometry sb0 s)
    (hrun : ReflTransGen DriverStep s t) : Geometry sb0 t := by
  induction hrun with
  | refl => exact h
  | tail _ hstep ih => exact ih.step hsize hstep

/-! ### One call -/

lemma hasSnapshots_of_hasArea (h : s.sb.HasArea) : s.HasSnapshots := by
  rintro (h' | h')
  · exact absurd h' h.area_pos.ne'
  · exact h.flag h'

lemma snapshotBlock_of_hasArea (h : s.sb.HasArea) (hn : s.sb.snapshotCount ≤ 64) {k : ℕ}
    (hk : k < snapshotBlocksEach) :
    s.snapshotBlock s.nextSnapshot k = s.sb.snapshotAreaStart + 1 + s.sb.snapshotCount * 64 + k := by
  have hlt := h.area_lt
  unfold Fs.snapshotBlock Fs.nextSnapshot snapshotIndex snapshotBlocksEach u32Size at *
  omega

lemma header_mem_writes (h : s.sb.HasArea) (hsome : pushAll [] s.pushedBlocks ≠ none) :
    ∃ b, (s.snapshotBlock s.nextSnapshot 0, b) ∈ (final (snapshotCreate name s)).writes.drop s.writes.length := by
  obtain ⟨blocks, hblocks⟩ := ne_none_iff_exists'.mp hsome
  obtain ⟨entries, u, hst, hfail, hok⟩ := snapshotCreate_of_some name (hasSnapshots_of_hasArea h) hblocks
  obtain ⟨ws, hws, -⟩ := hst.writes_eq
  refine ⟨snapshotHeader entries, ?_⟩
  by_cases hrec : s.HasRecord
  · obtain ⟨m, hm⟩ := hok hrec
    rw [hm]
    change _ ∈ (((u.writes ++ [_]) ++ [_]) ++ [_]).drop s.writes.length
    rw [hws, append_assoc, append_assoc, append_assoc, drop_left]
    simp
  · obtain ⟨e, b, herr⟩ := hfail hrec
    rw [herr]
    change _ ∈ (u.writes ++ [_]).drop s.writes.length
    rw [hws, append_assoc, drop_left]
    simp

lemma snapshotContained_of_none (h : s.HasSnapshots → pushAll [] s.pushedBlocks = none) : SnapshotContained s name := by
  obtain ⟨e, b, herr⟩ := snapshotCreate_of_none name h
  refine ⟨fun e' t ht => ?_, fun w hw => ?_⟩
  · rw [herr] at ht
    cases ht
    rfl
  · rw [herr] at hw
    change w ∈ s.writes.drop s.writes.length at hw
    rw [drop_length] at hw
    exact absurd hw not_mem_nil

lemma snapshotContained_of_lt (h : s.sb.HasArea) (hlt : s.sb.snapshotCount < 4) : SnapshotContained s name := by
  by_cases hnone : s.HasSnapshots → pushAll [] s.pushedBlocks = none
  · exact snapshotContained_of_none hnone
  obtain ⟨hs, hsome⟩ := Classical.not_imp.mp hnone
  obtain ⟨blocks, hblocks⟩ := ne_none_iff_exists'.mp hsome
  obtain ⟨entries, u, hst, -, hok⟩ := snapshotCreate_of_some name hs hblocks
  have hlen := (pushAll_eq_some nodup_nil (zero_le _) hblocks).2.1
  have hblock : ∀ k < snapshotBlocksEach, s.sb.snapshotAreaStart ≤ s.snapshotBlock s.nextSnapshot k ∧
      s.snapshotBlock s.nextSnapshot k < s.sb.snapshotAreaStart + 256 + (k - 62) := by
    intro k hk
    rw [snapshotBlock_of_hasArea h (by omega) hk]
    omega
  have hrec : s.HasRecord := by
    have hcount : s.nextSnapshot = s.sb.snapshotCount + 1 := mod_eq_of_lt (by unfold u32Size; omega)
    unfold Fs.HasRecord snapshotIndex SnapshotMeta.byteSize onyfsBlockSize u32Size
    omega
  obtain ⟨m, hm⟩ := hok hrec
  obtain ⟨ws, hws, hin⟩ := hst.writes_eq
  refine ⟨fun e t ht => ?_, fun w hw => ?_⟩
  · rw [hm] at ht
    cases ht
  rw [hm] at hw
  change w ∈ (((u.writes ++ [(s.snapshotBlock s.nextSnapshot 0, _)]) ++ [(s.sb.snapshotAreaStart, _)]) ++
    [(0, _)]).drop s.writes.length at hw
  rw [hws, append_assoc, append_assoc, append_assoc, drop_left, mem_append] at hw
  rw [h.journalStart]
  rcases hw with hw | hw
  · obtain ⟨k, -, hk, heq⟩ := hin w hw
    have hk' : k ≤ 62 := by
      unfold snapshotSlotBlks snapshotSlots at *
      omega
    obtain ⟨hlo, hhi⟩ := hblock k (by unfold snapshotBlocksEach; omega)
    rw [← heq] at hlo hhi
    exact .inr ⟨hlo, by omega⟩
  · simp only [cons_append, nil_append, mem_cons, not_mem_nil, or_false] at hw
    rcases hw with rfl | rfl | rfl
    · exact .inr ((hblock 0 (by decide)).imp_right fun h => by simpa using h)
    · exact .inr ⟨le_rfl, Nat.lt_add_of_pos_right (by decide)⟩
    · exact .inl rfl

lemma not_snapshotContained (h : s.sb.HasArea) (hn : s.sb.snapshotCount ≤ 64) (hge : 4 ≤ s.sb.snapshotCount)
    (hsome : pushAll [] s.pushedBlocks ≠ none) : ¬SnapshotContained s name := by
  rintro ⟨-, hall⟩
  obtain ⟨b, hb⟩ := header_mem_writes h hsome
  have hin := hall _ hb
  rw [snapshotBlock_of_hasArea h hn (by decide), h.journalStart] at hin
  omega

lemma contained_iff (h : s.sb.HasArea) (hn : s.sb.snapshotCount ≤ 64) : SnapshotContained s name ↔
    s.sb.snapshotCount < 4 ∨ snapshotSlots ≤ s.pushedBlocks.dropLast.toFinset.card := by
  have hne : s.pushedBlocks ≠ [] := by simp [Fs.pushedBlocks]
  have hnone := pushAll_eq_none_iff (nodup_nil) hne
  rw [nil_append] at hnone
  rw [← hnone]
  constructor
  · intro hall
    by_contra hno
    obtain ⟨hge, hsome⟩ := not_or.mp hno
    exact not_snapshotContained h hn (not_lt.mp hge) hsome hall
  · rintro (hlt | hnone)
    · exact snapshotContained_of_lt h hlt
    · exact snapshotContained_of_none fun _ => hnone

/-! ### Runs on an image -/

lemma hasArea_super (requests : List Mkimage.Request) (now : ℕ) (n : ℕ) :
    ({ (Mkimage.build requests).super now with snapshotCount := n } : OnyfsSuper).HasArea := by
  have ht := Mkimage.nextIno_build_lt requests
  refine ⟨?_, ?_, ?_, show 0xB &&& onyfsFeatSnapshots ≠ 0 by decide⟩ <;> simp only [Mkimage.Tree.super, Mkimage.Tree.layout, Bool.false_eq_true, if_false] <;>
    simp only [Mkimage.maxSnapshots, Mkimage.snapshotBlocksEach, Mkimage.inodeSize, onyfsBlockSize, Bool.false_eq_true,
      if_false, u32Size] at * <;> omega

variable {v1 : Bool} {now : ℕ → ℕ} {requests : List Mkimage.Request} {img : Mkimage.Image} {s₀ : Fs}

/-- In a run on an image, the superblock is that of the image up to the count of snapshots: it has no snapshot area or
one of four snapshots. -/
theorem run_of_mkimage (himg : mkimage v1 now (build requests) = some img)
    (hmount : mount (boot img.disk) = .ok () s₀) (hrun : ReflTransGen DriverStep s₀ s) :
    s.sb.snapshotAreaStart = 0 ∨ s.sb.HasArea ∧ s.sb.snapshotCount ≤ 64 := by
  have ht := nextIno_build_lt requests
  have hmounted : ∀ sb, OnyfsSuper.fromBytes (img.disk 0).mem = some sb → sb.blockSize = onyfsBlockSize →
      sb.snapshotCount ≤ 64 → Geometry sb s := by
    intro sb hsuper hsize hcount
    obtain ⟨u, hu, husb⟩ := exists_mount_of_super hsuper hsize
    rw [hmount] at hu
    injection hu with _ hu
    subst hu
    exact Geometry.run hsize ⟨sb.snapshotCount, hcount, husb⟩ hrun
  cases v1 with
  | false =>
    obtain ⟨n, hn, hsb⟩ := hmounted _ (super_of_mkimage ht himg) rfl (zero_le _)
    rw [hsb]
    exact .inr ⟨hasArea_super requests _ n, hn⟩
  | true =>
    obtain ⟨sb, hsuper, hsize, harea, hcount⟩ := superV1_of_mkimage ht himg
    obtain ⟨n, -, hsb⟩ := hmounted _ hsuper hsize (by omega)
    rw [hsb]
    exact .inl harea

/-! ### Five snapshots of an empty image -/

/-- The file system after `n` more snapshots. -/
def snapshots : ℕ → Fs → Option Fs
  | 0, s => some s
  | n + 1, s => match snapshotCreate [] s with
    | .ok _ t => snapshots n t
    | .error _ _ => none

lemma run_of_snapshots {n : ℕ} {t : Fs} (h : snapshots n s = some t) : ReflTransGen DriverStep s t := by
  induction n generalizing s with
  | zero =>
    cases h
    exact .refl
  | succ n ih =>
    have hstep := DriverStep.snapshot (s := s) []
    rw [snapshots] at h
    cases hrun : snapshotCreate [] s with
    | ok id u =>
      rw [hrun] at h hstep
      exact .head hstep (ih h)
    | error e u =>
      rw [hrun] at h
      cases h

lemma eq_ok_of_run' {x : KResult Fs Unit} {t : Fs} (h : (x >>= fun _ => get).run' s = some t) : x s = .ok () t := by
  unfold EStateM.run' EStateM.run at h
  cases hx : x s with
  | ok _ u =>
    rw [KResult.bind_of_ok hx] at h
    rw [← Option.some.inj h]
  | error e u =>
    rw [KResult.bind_of_error hx] at h
    cases h

lemma exists_emptyImage : ∃ img s₀ s, mkimage false (fun _ => 0) (build []) = some img ∧
    mount (boot img.disk) = .ok () s₀ ∧ s₀.sb.snapshotCount = 0 ∧ snapshots 4 s₀ = some s ∧
    s.sb = { (build []).super 0 with snapshotCount := 4 } ∧ (snapshots 1 s).isSome := by
  have heval : (mkimage false (fun _ => 0) (build [])).any (fun img =>
      ((mount >>= fun _ => get).run' (boot img.disk)).any fun s₀ => (snapshots 4 s₀).any fun s =>
        decide (s₀.sb.snapshotCount = 0 ∧ s.sb = { (build []).super 0 with snapshotCount := 4 } ∧
          (snapshots 1 s).isSome)) = true := by decide +kernel
  obtain ⟨img, himg, heval⟩ := (any_eq_true _ _).mp heval
  obtain ⟨s₀, hrun, heval⟩ := (any_eq_true _ _).mp heval
  obtain ⟨s, hs, heval⟩ := (any_eq_true _ _).mp heval
  obtain ⟨hcount, hsb, hnext⟩ := of_decide_eq_true heval
  exact ⟨img, s₀, s, himg, eq_ok_of_run' hrun, hcount, hs, hsb, hnext⟩

end Onyxfs

end OnyxKernel
