import OnyxKernel.Fs.Crash
import OnyxKernel.Fs.Snapshot

/-!
# Restoring a snapshot

After a successful `snapshot_create`, `snapshot_rollback` of the new snapshot always succeeds as long as the
blocks of the snapshot are not written, and leaves `restored` in place of every block that was captured
(`rollback_eq`).  A compressed form of the size of a block is taken for a block stored as it is, so that the
captured blocks come back if and only if none of them has such a form (`rollback_restores_iff`).
-/

namespace OnyxKernel.Onyxfs

open ByteMemory Triple List Buffer Nat OnyfsInode SnapshotMeta Fs
open Function (update_of_ne update_self update update_apply)

open Elf2onx (rleLoop)

variable {s s₁ s2 t : Fs} {id : ℕ} {name : List UInt8}

/-! ### The captured blocks -/

/-- The blocks that a snapshot is to keep: the inode table, the data bitmap, and the direct blocks of the inodes
with a mode. -/
def Fs.Captured (s : Fs) (b : ℕ) : Prop :=
  (∃ i < s.inodeTableBlockCount, b = s.tableBlock i) ∨ b = s.sb.dataBitmapStart ∨
    ∃ ino, 0 < ino ∧ ino ≤ s.inodeTableBlockCount * 32 ∧ (s.inodeAt ino).mode ≠ 0 ∧ b ≠ 0 ∧
      ∃ k, (s.inodeAt ino).blocks k = b

lemma mem_slotBlocks_iff {buf : Block} {slot b : ℕ} (hslot : slot < 32) : b ∈ slotBlocks buf slot ↔
    (fromBytes (buf.view (slot * 128))).mode ≠ 0 ∧ b ≠ 0 ∧
      ∃ k, (fromBytes (buf.view (slot * 128))).blocks k = b := by
  have hfits : ¬onyfsBlockSize < slot * 128 + 128 := by
    unfold onyfsBlockSize
    omega
  rw [slotBlocks, if_neg hfits]
  by_cases hmode : (fromBytes (buf.view (slot * 128))).mode = 0
  · simp [hmode]
  · rw [if_neg hmode]
    simp [hmode, and_comm]

lemma mem_pushedBlocks_iff (hv : s.version = .v2) (b : ℕ) : b ∈ s.pushedBlocks ↔ s.Captured b := by
  have hipb : s.inodesPerBlock = 32 := by simp [inodesPerBlock, hv]
  have hinodes : (∃ i < s.inodeTableBlockCount, ∃ slot < 32, b ∈ slotBlocks (s.disk (s.tableBlock i)) slot) ↔
      ∃ ino, 0 < ino ∧ ino ≤ s.inodeTableBlockCount * 32 ∧ (s.inodeAt ino).mode ≠ 0 ∧ b ≠ 0 ∧
        ∃ k, (s.inodeAt ino).blocks k = b := by
    constructor
    · rintro ⟨i, hi, slot, hslot, hb⟩
      have hat : s.inodeAt (i * 32 + slot + 1) = fromBytes ((s.disk (s.tableBlock i)).view (slot * 128)) := by
        rw [inodeAt_v2 hv, inodeBlock, inodeSlot, hipb, Nat.add_sub_cancel, tableBlock,
          show (i * 32 + slot) / 32 = i by omega, show (i * 32 + slot) % 32 = slot by omega]
      refine ⟨i * 32 + slot + 1, succ_pos _, by omega, ?_⟩
      rw [hat]
      exact (mem_slotBlocks_iff hslot).mp hb
    · rintro ⟨ino, hpos, hle, hb⟩
      refine ⟨(ino - 1) / 32, by omega, (ino - 1) % 32, mod_lt _ (by decide), ?_⟩
      rw [mem_slotBlocks_iff (mod_lt _ (by decide))]
      rw [inodeAt_v2 hv, inodeBlock, inodeSlot, hipb] at hb
      exact hb
  rw [pushedBlocks, mem_append, mem_append, mem_singleton, or_assoc, Fs.Captured, ← hinodes, hipb]
  simp only [mem_map, mem_range, mem_flatMap, eq_comm (a := b)]

/-! ### The header -/

lemma load_headerEntries_of_le (es : List (ℕ × ℕ)) (i : ℕ) (b : Block) {a w : ℕ} (h : a + w ≤ 4 + i * 8) :
    (headerEntries i es b).mem.load a w = b.mem.load a w := by
  induction es generalizing i b with
  | nil => rfl
  | cons e es ih =>
    rw [headerEntries, ih (i + 1) _ (by omega), load_store_of_disjoint (by omega),
      load_store_of_disjoint (by omega)]

lemma load_headerEntries (es : List (ℕ × ℕ)) (i : ℕ) (b : Block) (hroom : i + es.length ≤ snapshotSlots)
    (hlt : ∀ e ∈ es, e.1 < u32Size ∧ e.2 < u32Size) {j : ℕ} {e : ℕ × ℕ} (hj : es[j]? = some e) :
    (headerEntries i es b).mem.load (4 + (i + j) * 8) 4 = e.1 ∧
      (headerEntries i es b).mem.load (4 + (i + j) * 8 + 4) 4 = e.2 := by
  induction es generalizing i b j with
  | nil => simp at hj
  | cons e' es ih =>
    rw [length_cons] at hroom
    cases j with
    | succ j =>
      rw [headerEntries, show i + (j + 1) = i + 1 + j by omega]
      exact ih (i + 1) _ (by omega) (fun e he => hlt e (mem_cons_of_mem e' he)) hj
    | zero =>
      obtain rfl : e' = e := Option.some.inj hj
      obtain ⟨h1, h2⟩ := hlt e' mem_cons_self
      unfold snapshotSlots at hroom
      rw [headerEntries, add_zero i, load_headerEntries_of_le _ _ _ (by omega), load_headerEntries_of_le _ _ _ (by omega),
        load_store_of_disjoint (by omega), load_store_same (by unfold onyfsBlockSize; omega) h1,
        load_store_same (by unfold onyfsBlockSize; omega) h2]
      exact ⟨rfl, rfl⟩

lemma load_snapshotHeader_count {es : List (ℕ × ℕ)} (h : es.length < u32Size) :
    (snapshotHeader es).mem.load 0 4 = es.length := by
  rw [snapshotHeader, load_headerEntries_of_le _ _ _ (by omega), load_store_same (by decide) h]

/-! ### The loop over the slots -/

lemma restoreSlots_eq (c : ℕ → Block) {header : Block} {blks : List ℕ} (i : ℕ) (s : Fs)
    (hroom : i + blks.length ≤ snapshotSlots)
    (hheader : ∀ j b, blks[j]? = some b → header.mem.load (4 + (i + j) * 8) 4 = b ∧
      header.mem.load (4 + (i + j) * 8 + 4) 4 = storedSize (c b))
    (hholds : ∀ j b, blks[j]? = some b → s.SlotHolds id (i + j) (c b))
    (hout : ∀ b ∈ blks, ¬s.InSlots id i blks.length b) :
    ∃ t, restoreSlots id header blks.length i s = .ok () t ∧ (∀ b ∈ blks, t.disk b = restored (c b)) ∧
      ∀ x, x ∉ blks → t.disk x = s.disk x := by
  induction blks generalizing i s with
  | nil => exact ⟨s, rfl, fun b hb => absurd hb not_mem_nil, fun x _ => rfl⟩
  | cons blk blks ih =>
    rw [length_cons] at hroom hout
    have hread := (hholds 0 blk rfl).readSlot
    obtain ⟨hblk, hsize⟩ := hheader 0 blk rfl
    rw [add_zero i] at hread hblk hsize
    have hlater : ∀ x, s.InSlots id (i + 1) blks.length x → s.InSlots id i (blks.length + 1) x :=
      fun x hx => hx.mono (le_succ i) (by omega)
    -- the restored block is not one of a later slot
    have hkeep : ∀ j b, blks[j]? = some b → (s.put blk (restored (c blk))).SlotHolds id (i + 1 + j) (c b) := by
      intro j b hj
      have hlen : j < blks.length := (List.getElem?_eq_some_iff.mp hj).1
      have hne : ∀ k, 1 + (i + 1 + j) * snapshotSlotBlks ≤ k → k ≤ 1 + (i + 1 + j) * snapshotSlotBlks + 1 →
          s.snapshotBlock id k ≠ blk := by
        rintro k hlo hhi rfl
        refine hout _ mem_cons_self ⟨k, ?_, ?_, rfl⟩ <;> unfold snapshotSlotBlks at * <;> omega
      have hold := hholds (j + 1) b (by rwa [getElem?_cons_succ])
      rw [show i + (j + 1) = i + 1 + j by omega] at hold
      refine Eq.trans ?_ hold
      congr 2
      · exact update_of_ne (hne _ le_rfl (le_succ _)) ..
      · exact update_of_ne (hne _ (le_succ _) le_rfl) ..
    obtain ⟨t, ht, hin, hother⟩ := ih (i + 1) (s.put blk (restored (c blk))) (by omega)
      (fun j b hj => by
        rw [show i + 1 + j = i + (j + 1) by omega]
        exact hheader (j + 1) b (by rwa [getElem?_cons_succ]))
      hkeep fun b hb hx => hout b (mem_cons_of_mem blk hb) (hlater b hx)
    refine ⟨t, ?_, ?_, ?_⟩
    · have hslot : restoreSlot id header i s = .ok () (s.put blk (restored (c blk))) := by
        rw [restoreSlot, KResult.get_bind, readBlock_bind, readBlock_bind, hsize, hread, hblk]
        rfl
      rw [length_cons, restoreSlots, KResult.bind_of_ok hslot, ht]
    · intro b hb
      by_cases hmem : b ∈ blks
      · exact hin b hmem
      · obtain rfl : b = blk := (mem_cons.mp hb).resolve_right hmem
        rw [hother b hmem]
        exact update_self ..
    · intro x hx
      rw [hother x fun h => hx (mem_cons_of_mem blk h)]
      have hne : x ≠ blk := fun h => hx (h ▸ mem_cons_self)
      exact update_of_ne hne ..

/-! ### A snapshot that has been made -/

/-- The snapshot area as far as it is in use. -/
def Fs.snapshotArea (s : Fs) : Set ℕ :=
  Set.Ico s.sb.snapshotAreaStart (s.sb.snapshotAreaStart + 1 + s.sb.snapshotCount * snapshotBlocksEach)

/-- A version 2 file system with room for another snapshot: the snapshot area with the new snapshot has 32-bit
block numbers and is apart from the blocks that are captured. -/
structure Fs.SnapshotRoom (s : Fs) : Prop where
  version : s.version = .v2
  bitmap_lt : s.sb.dataBitmapStart < u32Size
  area_end : s.sb.snapshotAreaStart + 1 + (s.sb.snapshotCount + 1) * snapshotBlocksEach ≤ u32Size
  captured : ∀ b, s.Captured b → b ≠ 0 ∧ b ∉ (s.withCount (s.sb.snapshotCount + 1)).snapshotArea

lemma Fs.SnapshotRoom.nextSnapshot_eq (h : s.SnapshotRoom) : s.nextSnapshot = s.sb.snapshotCount + 1 := by
  have := h.area_end
  unfold snapshotBlocksEach at this
  exact mod_eq_of_lt (by omega)

lemma Fs.SnapshotRoom.snapshotBlock_eq (h : s.SnapshotRoom) {k : ℕ} (hk : k < snapshotBlocksEach) :
    s.snapshotBlock s.nextSnapshot k =
      s.sb.snapshotAreaStart + 1 + s.sb.snapshotCount * snapshotBlocksEach + k := by
  have hend := h.area_end
  have hindex : snapshotIndex (s.sb.snapshotCount + 1) = s.sb.snapshotCount := by
    unfold snapshotIndex u32Size at *
    unfold snapshotBlocksEach at hend
    omega
  rw [snapshotBlock, h.nextSnapshot_eq, hindex]
  unfold snapshotBlocksEach u32Size at *
  exact mod_eq_of_lt (by omega)

lemma Fs.SnapshotRoom.ne_snapshotBlock (h : s.SnapshotRoom) {b k : ℕ} (hb : s.Captured b) (hk : k < snapshotBlocksEach) :
    b ≠ s.snapshotBlock s.nextSnapshot k := by
  rintro rfl
  refine (h.captured _ hb).2 ?_
  rw [h.snapshotBlock_eq hk]
  refine ⟨?_, ?_⟩ <;> simp only [withCount] <;> unfold snapshotBlocksEach at * <;> omega

lemma Fs.SnapshotRoom.captured_lt (h : s.SnapshotRoom) {b : ℕ} (hb : s.Captured b) : b < u32Size := by
  rcases hb with ⟨i, -, rfl⟩ | rfl | ⟨ino, -, -, -, -, k, rfl⟩
  · exact mod_lt _ (by decide)
  · exact h.bitmap_lt
  · rw [inodeAt_v2 h.version]
    exact (fits_fromBytes _).blocks k

lemma snapshotCreate_eq_ok (h : snapshotCreate name s = .ok id s₁) :
    id = s.nextSnapshot ∧ s.sb.snapshotAreaStart ≠ 0 ∧ ∃ blocks entries t m, pushAll [] s.pushedBlocks = some blocks ∧
      StoredSlots s s.nextSnapshot 0 blocks entries t ∧ s₁ = s.finishSnapshot t entries m := by
  by_cases hs : s.HasSnapshots
  swap
  · obtain ⟨e, b, herr⟩ := snapshotCreate_of_none name fun hs' => absurd hs' hs
    rw [herr] at h
    cases h
  cases hpush : pushAll [] s.pushedBlocks with
  | none =>
    obtain ⟨e, b, herr⟩ := snapshotCreate_of_none name fun _ => hpush
    rw [herr] at h
    cases h
  | some blocks =>
    obtain ⟨entries, t, hst, hfail, hok⟩ := snapshotCreate_of_some name hs hpush
    by_cases hrec : s.HasRecord
    · obtain ⟨m, hm⟩ := hok hrec
      rw [hm] at h
      injection h with hid hs1
      exact ⟨hid.symm, fun h0 => hs (.inl h0), blocks, entries, t, m, rfl, hst, hs1.symm⟩
    · obtain ⟨e, b, herr⟩ := hfail hrec
      rw [herr] at h
      cases h

lemma Fs.finishSnapshot_disk (s t : Fs) (entries : List (ℕ × ℕ)) (m : Block) {x : ℕ} (hzero : x ≠ 0)
    (harea : x ≠ s.sb.snapshotAreaStart) : (s.finishSnapshot t entries m).disk x =
      if x = s.snapshotBlock s.nextSnapshot 0 then snapshotHeader entries else t.disk x := by
  have hdisk : (s.finishSnapshot t entries m).disk = update (update (update t.disk
      (s.snapshotBlock s.nextSnapshot 0) (snapshotHeader entries)) s.sb.snapshotAreaStart m) 0
      (superBlock { t.sb with snapshotCount := s.nextSnapshot }) := rfl
  rw [hdisk, update_of_ne hzero, update_of_ne harea, update_apply]

/-- As long as the blocks of the new snapshot are there, a rollback succeeds and leaves `restored` in place of every
captured block. -/
theorem rollback_eq (h : s.SnapshotRoom) (hcreate : snapshotCreate name s = .ok id s₁) (hsb : s2.sb = s₁.sb)
    (hdisk : ∀ x ∈ s₁.snapshotArea, s2.disk x = s₁.disk x) :
    ∃ s3, snapshotRollback id s2 = .ok () s3 ∧ ∀ b, s.Captured b → s3.disk b = restored (s.disk b) := by
  obtain ⟨rfl, hpos, blocks, entries, t, m, hpush, hst, rfl⟩ := snapshotCreate_eq_ok hcreate
  obtain ⟨hnodup, hlen, hmem⟩ := pushAll_eq_some nodup_nil (zero_le _) hpush
  have hcap : ∀ b, b ∈ blocks ↔ s.Captured b := fun b => by
    rw [hmem, ← mem_pushedBlocks_iff h.version]
    simp
  have hsb1 : (s.finishSnapshot t entries m).sb = { s.sb with snapshotCount := s.nextSnapshot } := by
    change { t.sb with snapshotCount := s.nextSnapshot } = _
    rw [hst.sb_eq]
  have harea : s2.sb.snapshotAreaStart = s.sb.snapshotAreaStart := by rw [hsb, hsb1]
  have hblock := snapshotBlock_congr harea s.nextSnapshot
  have hnext := h.nextSnapshot_eq
  -- the blocks of the snapshot are still on the disk
  have hsaved : ∀ k < snapshotBlocksEach, s2.disk (s.snapshotBlock s.nextSnapshot k) =
      if k = 0 then snapshotHeader entries else t.disk (s.snapshotBlock s.nextSnapshot k) := by
    intro k hk
    have heq := h.snapshotBlock_eq hk
    have hmem : s.snapshotBlock s.nextSnapshot k ∈ (s.finishSnapshot t entries m).snapshotArea := by
      rw [heq, snapshotArea, hsb1, hnext]
      refine ⟨?_, ?_⟩ <;> dsimp only <;> unfold snapshotBlocksEach at * <;> omega
    rw [hdisk _ hmem, finishSnapshot_disk _ _ _ _ (by omega) (by omega)]
    by_cases hk0 : k = 0
    · rw [hk0, if_pos rfl, if_pos rfl]
    · rw [if_neg hk0, if_neg fun heq' => hk0 (snapshotBlock_inj hk (by decide) heq')]
  have hslots : ∀ b ∈ blocks, ∀ i n, i + n ≤ snapshotSlots → ¬s.InSlots s.nextSnapshot i n b := by
    rintro b hb i n hle ⟨k, -, hk, heq⟩
    refine h.ne_snapshotBlock ((hcap b).mp hb) ?_ heq
    unfold snapshotSlotBlks snapshotSlots snapshotBlocksEach at *
    omega
  obtain ⟨hentries, hholds⟩ := hst.holds (by rwa [zero_add]) fun b hb => hslots b hb 0 _ (by rwa [zero_add])
  have hentries_lt : ∀ e ∈ entries, e.1 < u32Size ∧ e.2 < u32Size := by
    rw [hentries]
    intro e he
    obtain ⟨b, hb, rfl⟩ := mem_map.mp he
    exact ⟨h.captured_lt ((hcap b).mp hb), (storedSize_bounds _).2.trans_lt (by decide)⟩
  have hcount : entries.length = blocks.length := by rw [hentries, length_map]
  have hheader : ∀ j b, blocks[j]? = some b → (snapshotHeader entries).mem.load (4 + (0 + j) * 8) 4 = b ∧
      (snapshotHeader entries).mem.load (4 + (0 + j) * 8 + 4) 4 = storedSize (s.disk b) := by
    intro j b hj
    refine load_headerEntries entries 0 _ (by omega) hentries_lt (e := (b, storedSize (s.disk b))) ?_
    rw [hentries, getElem?_map, hj]
    rfl
  have hholds2 : ∀ j b, blocks[j]? = some b → s2.SlotHolds s.nextSnapshot (0 + j) (s.disk b) := by
    intro j b hj
    have hlt : j < blocks.length := (List.getElem?_eq_some_iff.mp hj).1
    have hold := hholds j b hj
    have ht := snapshotBlock_congr (congrArg OnyfsSuper.snapshotAreaStart hst.sb_eq) s.nextSnapshot
    have hk : 1 + (0 + j) * snapshotSlotBlks + 1 < snapshotBlocksEach := by
      unfold snapshotSlotBlks snapshotSlots snapshotBlocksEach at *
      omega
    rw [Fs.SlotHolds, ht, ht] at hold
    rwa [Fs.SlotHolds, hblock, hblock, hsaved _ (by omega), hsaved _ hk, if_neg (by omega), if_neg (by omega)]
  have hout : ∀ b ∈ blocks, ¬s2.InSlots s.nextSnapshot 0 blocks.length b := by
    rintro b hb ⟨k, hlo, hhi, heq⟩
    exact hslots b hb 0 blocks.length (by omega) ⟨k, hlo, hhi, heq.trans (hblock k)⟩
  obtain ⟨s3, hrun, hrestored, -⟩ := restoreSlots_eq s.disk 0 s2 (by omega) hheader hholds2 hout
  refine ⟨s3, ?_, fun b hb => hrestored b ((hcap b).mpr hb)⟩
  have hn : (snapshotHeader entries).mem.load 0 4 = blocks.length := by
    rw [load_snapshotHeader_count (by rw [hcount]; exact hlen.trans_lt (by decide)), hcount]
  have hid : ¬(s.nextSnapshot = 0 ∨ s2.sb.snapshotCount < s.nextSnapshot) := by
    rw [hsb, hsb1]
    dsimp only
    omega
  rw [snapshotRollback, KResult.get_bind, if_neg (by rwa [harea]), if_neg hid, readBlock_bind, hblock,
    hsaved 0 (by decide), if_pos rfl, hn, if_neg (not_lt.mpr hlen), hrun]

/-! ### Operations after the snapshot -/

/-- An operation of the driver that does not write the snapshot area.  It may fail. -/
def LaterStep (s t : Fs) : Prop :=
  ∃ f : FsM Unit, OnlyWrites f ∧ t = final (f s) ∧
    ∃ ws, t.writes = s.writes ++ ws ∧ ∀ w ∈ ws, w.1 ∉ s.snapshotArea

lemma OnlyWrites.exists_wrote {f : FsM Unit} (hf : OnlyWrites f) (s : Fs) : ∃ ws, Wrote s ws (final (f s)) := by
  refine hf (fun t => ∃ ws, Wrote s ws t) ⟨fun t b h => h, ?_, fun t n h => h⟩ s ⟨[], (append_nil _).symm, rfl⟩
  rintro t blk b ⟨ws, hws⟩
  exact ⟨ws ++ [(blk, b)], hws.trans ⟨rfl, rfl⟩⟩

lemma LaterStep.keeps (h : LaterStep s t) : t.sb = s.sb ∧ ∀ x ∈ s.snapshotArea, t.disk x = s.disk x := by
  obtain ⟨f, hf, rfl, ws, hws, hout⟩ := h
  refine ⟨hf _ (stable_sb s.sb) s rfl, fun x hx => ?_⟩
  obtain ⟨ws', hws', hdisk⟩ := hf.exists_wrote s
  obtain rfl : ws' = ws := append_cancel_left (hws'.symm.trans hws)
  have hnone : RedoLog.last x ws' = none := RedoLog.last_eq_none_iff.mpr fun w hw heq => hout w hw (heq ▸ hx)
  rw [hdisk, RedoLog.writeAll_apply, hnone]
  rfl

lemma laterSteps_keep (h : Relation.ReflTransGen LaterStep s t) :
    t.sb = s.sb ∧ ∀ x ∈ s.snapshotArea, t.disk x = s.disk x := by
  induction h with
  | refl => exact ⟨rfl, fun x _ => rfl⟩
  | tail _ hstep ih =>
    obtain ⟨hsb, hdisk⟩ := ih
    obtain ⟨hsb', hdisk'⟩ := hstep.keeps
    refine ⟨hsb'.trans hsb, fun x hx => (hdisk' x ?_).trans (hdisk x hx)⟩
    rwa [snapshotArea, hsb]

/-- After any operations that do not write the snapshot area, a rollback succeeds and gives back the captured
blocks of `s`. -/
def Restores (s s₁ : Fs) (id : ℕ) : Prop :=
  ∀ s2, Relation.ReflTransGen LaterStep s₁ s2 →
    ∃ s3, snapshotRollback id s2 = .ok () s3 ∧ ∀ b, s.Captured b → s3.disk b = s.disk b

lemma not_restores_of_size (h : s.SnapshotRoom) (hcreate : snapshotCreate name s = .ok id s₁) {b : ℕ} (hb : s.Captured b)
    (hsize : (rleLoop (blockBytes (s.disk b))).length = onyfsBlockSize) : ¬Restores s s₁ id := by
  intro hall
  obtain ⟨s3, hrun, hback⟩ := hall s₁ .refl
  obtain ⟨s3', hrun', hback'⟩ := rollback_eq h hcreate rfl fun x _ => rfl
  rw [hrun] at hrun'
  injection hrun' with _ hs
  subst hs
  exact (restored_eq_iff (s.disk b)).mp ((hback' b hb).symm.trans (hback b hb)) hsize

/-- A rollback gives back the captured blocks if and only if none of them is compressed to the size of a block. -/
theorem rollback_restores_iff (h : s.SnapshotRoom) (hcreate : snapshotCreate name s = .ok id s₁) :
    Restores s s₁ id ↔ ∀ b, s.Captured b → (rleLoop (blockBytes (s.disk b))).length ≠ onyfsBlockSize := by
  refine ⟨fun hall b hb hsize => not_restores_of_size h hcreate hb hsize hall, fun hsize s2 hlater => ?_⟩
  obtain ⟨hsb, hdisk⟩ := laterSteps_keep hlater
  obtain ⟨s3, hrun, hback⟩ := rollback_eq h hcreate hsb hdisk
  exact ⟨s3, hrun, fun b hb => (hback b hb).trans ((restored_eq_iff (s.disk b)).mpr (hsize b hb))⟩

/-! ### A small disk with a snapshot area -/

/-- An inode table with the root directory, which has no block, and a file with block 40. -/
def snapTable : Block :=
  (((zero _).store 0 4 onyfsDtDir).store 128 4 0o100644).store 144 4 40

/-- A file system with one file of one block and a snapshot area from block 100 on. -/
def snapFs (file : Block) : Fs where
  disk := fun blk => if blk = 40 then file else if blk = 3 then snapTable else zero _
  buf := zero _
  sb :=
    { magic := onyfsMagic, version := 2, blockSize := onyfsBlockSize, totalBlocks := 200, inodeCount := 2,
      inodeTableStart := 3, dataBitmapStart := 2, dataBlocksStart := 36, rootInode := 1, snapshotAreaStart := 100,
      journalStart := 4, journalSize := 32, featureFlags := 0xB }
  version := .v2
  journalHead := 0
  jiffies := 7
  writes := []

lemma pushedBlocks_snapFs (file : Block) : (snapFs file).pushedBlocks = [3, 2, 40] := by
  have hslots : (range 32).flatMap (slotBlocks snapTable) = [40] := by decide +kernel
  have hcount : (snapFs file).inodeTableBlockCount = 1 :=
    (if_neg (show ¬2 = 0 by decide)).trans (show (2 + 32 - 1) % u32Size / 32 = 1 by decide)
  have htable : (snapFs file).tableBlock 0 = 3 := rfl
  have hdisk : (snapFs file).disk 3 = snapTable := rfl
  have hipb : (snapFs file).inodesPerBlock = 32 := rfl
  rw [pushedBlocks, hcount, hipb, range_one, map_singleton, flatMap_singleton, htable, hdisk, hslots]
  rfl

lemma snapshotRoom_snapFs (file : Block) : (snapFs file).SnapshotRoom := by
  refine ⟨rfl, show 2 < u32Size by decide, show 100 + 1 + (0 + 1) * snapshotBlocksEach ≤ u32Size by decide, fun b hb => ?_⟩
  rw [← mem_pushedBlocks_iff rfl, pushedBlocks_snapFs] at hb
  simp only [mem_cons, not_mem_nil, or_false] at hb
  change b ≠ 0 ∧ ¬(100 ≤ b ∧ b < 100 + 1 + (0 + 1) * 64)
  omega

lemma exists_snapshotCreate (name : List UInt8) (hs : s.HasSnapshots) {blocks : List ℕ}
    (h : pushAll [] s.pushedBlocks = some blocks) (hrec : s.HasRecord) :
    ∃ s₁, snapshotCreate name s = .ok s.nextSnapshot s₁ := by
  obtain ⟨entries, t, -, -, hok⟩ := snapshotCreate_of_some name hs h
  obtain ⟨m, hm⟩ := hok hrec
  exact ⟨_, hm⟩

lemma exists_snapshotCreate_snapFs (file : Block) : ∃ s₁, snapshotCreate [] (snapFs file) = .ok 1 s₁ := by
  have hsome : pushAll [] (snapFs file).pushedBlocks = some [3, 2, 40] := by
    rw [pushedBlocks_snapFs]
    decide
  have hon : (snapFs file).HasSnapshots := show ¬(100 = 0 ∨ 0xB &&& onyfsFeatSnapshots = 0) by decide
  exact exists_snapshotCreate [] hon hsome
    (show snapshotIndex ((0 + 1) % u32Size) * byteSize + byteSize ≤ onyfsBlockSize by decide)

theorem rollback_restores_iff_zeroFile : ∃ s₁, snapshotCreate [] (snapFs (zero _)) = .ok 1 s₁ ∧
    (snapFs (zero _)).SnapshotRoom ∧ (Restores (snapFs (zero _)) s₁ 1 ↔ ∀ b, (snapFs (zero _)).Captured b →
        (rleLoop (blockBytes ((snapFs (zero _)).disk b))).length ≠ onyfsBlockSize) := by
  obtain ⟨s₁, hs1⟩ := exists_snapshotCreate_snapFs (zero _)
  exact ⟨s₁, hs1, snapshotRoom_snapFs _, rollback_restores_iff (snapshotRoom_snapFs _) hs1⟩

/-- Bytes that alternate. -/
def altBytes (n : ℕ) : List UInt8 := (range n).map fun i => if i % 2 = 0 then 1 else 0

/-- A run of 34 bytes and 4062 bytes without runs: the 32 literal texts need as many bytes as the run saves. -/
def unluckyBytes : List UInt8 := replicate 34 0 ++ altBytes 4062

lemma length_rleLoop_unluckyBytes : (rleLoop unluckyBytes).length = onyfsBlockSize := by
  rw [rleLoop_eq_rleRounds (show unluckyBytes.length ≤ 4096 by decide +kernel)]
  decide +kernel

/-- A file with these bytes is lost by a snapshot and its rollback. -/
theorem not_restores_unluckyFile : ∃ s₁, snapshotCreate [] (snapFs (blockOfBytes unluckyBytes)) = .ok 1 s₁ ∧
    (snapFs (blockOfBytes unluckyBytes)).SnapshotRoom ∧ ¬Restores (snapFs (blockOfBytes unluckyBytes)) s₁ 1 := by
  obtain ⟨s₁, hs1⟩ := exists_snapshotCreate_snapFs (blockOfBytes unluckyBytes)
  have hcap : (snapFs (blockOfBytes unluckyBytes)).Captured 40 := by
    rw [← mem_pushedBlocks_iff rfl, pushedBlocks_snapFs]
    decide
  have hlen : unluckyBytes.length = onyfsBlockSize := by
    rw [unluckyBytes, altBytes, length_append, length_replicate, length_map, length_range]
    rfl
  refine ⟨s₁, hs1, snapshotRoom_snapFs _, not_restores_of_size (snapshotRoom_snapFs _) hs1 hcap ?_⟩
  change (rleLoop (blockBytes (blockOfBytes unluckyBytes))).length = onyfsBlockSize
  rw [blockBytes_blockOfBytes hlen, length_rleLoop_unluckyBytes]

end OnyxKernel.Onyxfs
