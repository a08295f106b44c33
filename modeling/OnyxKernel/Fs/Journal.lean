import OnyxKernel.Foundation.RedoLog
import OnyxKernel.Foundation.Triple
import OnyxKernel.Fs.Transaction

/-!
# Journal recovery

What `journal_recover` does to the blocks outside the journal.  A journal without a `commit_end`
entry is ignored.  Otherwise the entries in front of the first `commit_end` are replayed, and this
is the replay of a redo log whose records override all but the last eight bytes of a block.
-/

namespace OnyxKernel.Onyxfs

open ByteMemory List Buffer RedoLog Nat KResult Function Fs

variable {s : Fs} {blk slot : ℕ} {b : Block} {i fuel c : ℕ} {log : List (ℕ × Block)}

/-! ### Journal entries -/

/-- The type of the entry in a journal slot. -/
def Fs.entryType (s : Fs) (slot : ℕ) : ℕ := (s.disk (s.journalBlock slot)).mem.load 0 4

/-- The contents of a block after a record has been replayed to it. -/
def mergeBlock (old new : Block) : Block := old.blit 0 journalDataSize new.mem

lemma mem_mergeBlock {old new : Block} (hi : i < onyfsBlockSize) :
    (mergeBlock old new).mem i = if i < journalDataSize then new.mem i else old.mem i := by
  rw [mergeBlock, mem_blit hi]
  simp

lemma mergeBlock_mergeBlock (a b c : Block) : mergeBlock (mergeBlock a b) c = mergeBlock a c := by
  refine ext_mem fun i hi => ?_
  rw [mem_mergeBlock hi, mem_mergeBlock hi, mem_mergeBlock hi]
  split <;> rfl

@[simp] lemma mergeBlock_self (a : Block) : mergeBlock a a = a := by
  refine ext_mem fun i hi => ?_
  rw [mem_mergeBlock hi, ite_self]

lemma entryType_blockWriteEntry (blk : ℕ) (b : Block) : (blockWriteEntry blk b).mem.load 0 4 = 1 := by
  rw [blockWriteEntry, load_blit_of_disjoint (by decide),
    load_store_of_disjoint (by decide), load_store_same (by decide) (by decide)]

lemma blockNum_blockWriteEntry (hblk : blk < 256 ^ 4) (b : Block) :
    (blockWriteEntry blk b).mem.load 4 4 = blk := by
  rw [blockWriteEntry, load_blit_of_disjoint (by decide), load_store_same (by decide) hblk]

lemma entryType_commitEndEntry : commitEndEntry.mem.load 0 4 = 2 :=
  load_store_same (by decide) (by decide)

/-- The contents of a block after an entry has been replayed to it. -/
def mergeEntry (old entry : Block) : Block := old.blit 0 journalDataSize (entry.view 8)

lemma mem_mergeEntry {old entry : Block} (hi : i < onyfsBlockSize) :
    (mergeEntry old entry).mem i = if i < journalDataSize then entry.mem (8 + i) else old.mem i := by
  rw [mergeEntry, mem_blit hi]
  simp [view]

lemma mergeEntry_mergeEntry (a b c : Block) : mergeEntry (mergeEntry a b) c = mergeEntry a c := by
  refine ext_mem fun i hi => ?_
  rw [mem_mergeEntry hi, mem_mergeEntry hi, mem_mergeEntry hi]
  split <;> rfl

lemma mergeEntry_blockWriteEntry (old : Block) (blk : ℕ) (b : Block) :
    mergeEntry old (blockWriteEntry blk b) = mergeBlock old b := by
  refine ext_mem fun i hi => ?_
  rw [mem_mergeBlock hi, mem_mergeEntry hi]
  split
  · rename_i hd
    rw [blockWriteEntry, mem_blit_add (by rw [journalDataSize] at hd; omega) hd]
  · rfl

/-- The block to which slot `j` is replayed, with the entry. -/
def Fs.record (s : Fs) (j : ℕ) : Option (ℕ × Block) :=
  let entry := s.disk (s.journalBlock j)
  if entry.mem.load 0 4 = 1 then some (entry.mem.load 4 4, entry) else none

lemma Fs.replaySlot_eq (s : Fs) (j : ℕ) :
    s.replaySlot j = (s.record j).elim s fun w => s.put w.1 (mergeEntry (s.disk w.1) w.2) := by
  rw [replaySlot, record]
  rw [apply_ite (Option.elim · s _)]
  rfl

/-- What the slots from `i` to `c` are replayed to. -/
def Fs.records (s : Fs) (i c : ℕ) : List (ℕ × Block) := (range' i (c - i)).filterMap s.record

lemma records_zero (s : Fs) (c : ℕ) : s.records 0 c = (range c).filterMap s.record := by
  rw [records, range_eq_range', Nat.sub_zero]

/-- The block holds a slot of the journal. -/
def Fs.OfJournal (s : Fs) (x : ℕ) : Prop := ∃ j < s.sb.journalSize, s.journalBlock j = x

/-- The `block_write` entries of the first `c` slots name blocks outside the journal. -/
def Fs.Outside (s : Fs) (c : ℕ) : Prop := ∀ j < c, ∀ w ∈ s.record j, ¬ s.OfJournal w.1

lemma Fs.Outside.not_ofJournal {x n : ℕ} {entry : Block} (h : s.Outside n) (hc : c ≤ n)
    (hlast : last x (s.records i c) = some entry) : ¬ s.OfJournal x := by
  obtain ⟨j, hj, hrecord⟩ := mem_filterMap.mp (mem_of_last_eq_some hlast)
  have := mem_range'_1.mp hj
  exact h j (by omega) _ hrecord

lemma Fs.not_ofJournal (h : s.sb.HasJournal) (hx : ¬ s.sb.InJournal i) : ¬ s.OfJournal i := by
  rintro ⟨j, hj, rfl⟩
  exact hx (inJournal_journalBlock h hj).2

/-! ### The scan for a commit -/

/-- The scan from slot `i` on stops at the `commit_end` entry of slot `c`. -/
def Fs.CommitAt (s : Fs) (i c : ℕ) : Prop :=
  i ≤ c ∧ (∀ j, i ≤ j → j < c → s.entryType j = 0 ∨ s.entryType j = 1) ∧ s.entryType c = 2

lemma Fs.commitAt_iff (h : s.entryType i ≠ 2) :
    s.CommitAt i c ↔ (s.entryType i = 0 ∨ s.entryType i = 1) ∧ s.CommitAt (i + 1) c := by
  constructor
  · rintro ⟨hle, hbefore, hc⟩
    have hlt : i < c := lt_of_le_of_ne hle fun heq => h (heq ▸ hc)
    exact ⟨hbefore i le_rfl hlt, hlt, fun j hj => hbefore j (by omega), hc⟩
  · rintro ⟨hi, hle, hbefore, hc⟩
    refine ⟨by omega, fun j hj hjc => ?_, hc⟩
    rcases hj.eq_or_lt with rfl | hlt
    · exact hi
    · exact hbefore j hlt hjc

lemma Fs.CommitAt.eq_of_entryType (h : s.CommitAt i c) (hi : s.entryType i = 2) : i = c := by
  by_contra hne
  have := h.2.1 i le_rfl (lt_of_le_of_ne h.1 hne)
  omega

lemma findCommit_eq_some_iff : s.findCommit fuel i = some c ↔ c < i + fuel ∧ s.CommitAt i c := by
  induction fuel generalizing i with
  | zero => exact iff_of_false nofun fun h => absurd h.2.1 (not_le.mpr h.1)
  | succ fuel ih =>
    rw [findCommit]
    split_ifs with htwo hgo
    · refine ⟨fun h => ?_, fun h => congrArg some (h.2.eq_of_entryType htwo)⟩
      cases h
      exact ⟨by omega, le_rfl, fun j hj hji => absurd hj (not_le.mpr hji), htwo⟩
    · rw [ih, commitAt_iff htwo, add_right_comm, add_assoc]
      exact ⟨fun h => ⟨h.1, hgo, h.2⟩, fun h => ⟨h.1, h.2.2⟩⟩
    · rw [commitAt_iff htwo]
      exact iff_of_false nofun fun h => hgo h.2.1

/-! ### Recovery -/

lemma disk_foldl_replaySlot (hc : c ≤ s.sb.journalSize) (hout : s.Outside c) :
    ((range c).foldl replaySlot s).sb = s.sb ∧ ((range c).foldl replaySlot s).disk =
        replay mergeEntry s.disk (s.records 0 c) := by
  rw [records_zero]
  induction c with
  | zero => exact ⟨rfl, rfl⟩
  | succ c ih =>
    obtain ⟨hsb, hdisk⟩ := ih (by omega) fun j hj => hout j (by omega)
    rw [range_succ, foldl_append, foldl_cons, foldl_nil, filterMap_append, replay_append, ← hdisk]
    -- the slot itself has not been touched
    have hentry : ((range c).foldl replaySlot s).disk (s.journalBlock c) = s.disk (s.journalBlock c) := by
      rw [hdisk]
      rw [← records_zero]
      refine replay_of_absorbed mergeEntry_mergeEntry fun v hv => ?_
      exact absurd ⟨c, hc, rfl⟩ (hout.not_ofJournal c.le_succ hv)
    generalize (range c).foldl replaySlot s = t at hsb hentry
    have hslot : t.journalBlock c = s.journalBlock c := by rw [journalBlock, hsb, journalBlock]
    have hrecord : t.record c = s.record c := by rw [record, hslot, hentry, record]
    rw [replaySlot_eq, hrecord, filterMap_cons]
    cases s.record c with
    | none => exact ⟨hsb, rfl⟩
    | some w => exact ⟨hsb, rfl⟩

lemma disk_foldl_zeroSlot (c : ℕ) (s : Fs) : ((range c).foldl zeroSlot s).sb = s.sb ∧
      ∀ x, ((range c).foldl zeroSlot s).disk x =
        if ∃ j < c, s.journalBlock j = x then zero _ else s.disk x := by
  induction c with
  | zero => simp
  | succ c ih =>
    obtain ⟨hsb, hdisk⟩ := ih
    rw [range_succ, foldl_append, foldl_cons, foldl_nil]
    generalize (range c).foldl zeroSlot s = t at hsb hdisk
    have hslot : t.journalBlock c = s.journalBlock c := by rw [journalBlock, hsb, journalBlock]
    refine ⟨hsb, fun x => ?_⟩
    change update t.disk (t.journalBlock c) (zero _) x = _
    rw [hslot, update_apply, hdisk]
    simp only [Nat.lt_succ_iff_lt_or_eq, or_and_right, exists_or, exists_eq_left, @eq_comm _ x]
    by_cases hx : s.journalBlock c = x <;> simp [hx]

/-- Slots are kept in different blocks. -/
theorem Fs.journalBlock_inj (hsize : s.sb.journalSize < u32Size) (hi : i < s.sb.journalSize)
    (hc : c < s.sb.journalSize) (h : s.journalBlock i = s.journalBlock c) : i = c := by
  simp only [journalBlock, u32Size] at h hsize
  omega

/-- The state after `journal_recover`. -/
def Fs.recovered (s : Fs) : Fs := Triple.final (journalRecover s)

lemma journalRecover_eq (s : Fs) : journalRecover s = .ok () s.recovered := by
  unfold recovered
  rw [journalRecover, get_bind]
  split
  · rfl
  · cases s.findCommit s.sb.journalSize 0 <;> rfl

lemma recovered_of_no_commit (hj : ¬ s.noJournal) (h : ∀ c < s.sb.journalSize, ¬ s.CommitAt 0 c) :
    s.recovered = { s with journalHead := 0 } := by
  have hnone : s.findCommit s.sb.journalSize 0 = none := by
    refine Option.eq_none_iff_forall_not_mem.mpr fun c hc => ?_
    obtain ⟨hlt, hcommit⟩ := findCommit_eq_some_iff.mp hc
    exact h c (by omega) hcommit
  rw [recovered, journalRecover, get_bind, if_neg hj, hnone]
  rfl

/-- The first commit of the journal is in slot `c`, behind entries for blocks outside the journal. -/
structure Fs.Committed (s : Fs) (c : ℕ) : Prop where
  journal : ¬ s.noJournal
  size : s.sb.journalSize < u32Size
  lt : c < s.sb.journalSize
  outside : s.Outside c
  commit : s.CommitAt 0 c

lemma Fs.Committed.recovered (h : s.Committed c) : s.recovered.sb = s.sb ∧ s.recovered.journalHead = 0 ∧
      (∀ x, ¬ s.OfJournal x → s.recovered.disk x = replay mergeEntry s.disk (s.records 0 c) x) ∧
      ∀ j < s.sb.journalSize, s.recovered.disk (s.journalBlock j) =
        if j ≤ c then zero _ else s.disk (s.journalBlock j) := by
  have hc := h.lt
  have hsome : s.findCommit s.sb.journalSize 0 = some c := findCommit_eq_some_iff.mpr ⟨by omega, h.commit⟩
  obtain ⟨hsb, hdisk⟩ := disk_foldl_replaySlot hc.le h.outside
  rw [Fs.recovered, journalRecover, get_bind, if_neg h.journal, hsome]
  have hzero := disk_foldl_zeroSlot (c + 1) ((range c).foldl replaySlot s)
  have hslot : ∀ j, ((range c).foldl replaySlot s).journalBlock j = s.journalBlock j := fun j => by
    rw [journalBlock, hsb, journalBlock]
  simp only [hslot, hdisk, hsb] at hzero
  refine ⟨hzero.1, rfl, fun x hx => ?_, fun j hjs => ?_⟩
  · refine (hzero.2 x).trans (if_neg ?_)
    rintro ⟨j, hj, rfl⟩
    exact hx ⟨j, by omega, rfl⟩
  · have hkeep : replay mergeEntry s.disk (s.records 0 c) (s.journalBlock j) = s.disk (s.journalBlock j) := by
      refine replay_of_absorbed mergeEntry_mergeEntry fun v hv => ?_
      exact absurd ⟨j, hjs, rfl⟩ (h.outside.not_ofJournal le_rfl hv)
    refine (hzero.2 _).trans ?_
    rw [hkeep]
    refine if_congr ⟨?_, fun h => ⟨j, by omega, rfl⟩⟩ rfl rfl
    rintro ⟨i, hi, heq⟩
    have := journalBlock_inj h.size (by omega) hjs heq
    omega

lemma Fs.Committed.mem_recovered (h : s.Committed c) {x : ℕ} (hx : ¬ s.OfJournal x) (hi : i < onyfsBlockSize) :
    (s.recovered.disk x).mem i = match last x (s.records 0 c) with
      | none => (s.disk x).mem i
      | some entry => if i < journalDataSize then entry.mem (8 + i) else (s.disk x).mem i := by
  rw [h.recovered.2.2.1 x hx, replay_apply mergeEntry_mergeEntry]
  cases last x (s.records 0 c) with
  | none => rfl
  | some entry => exact mem_mergeEntry hi

lemma journalRecover_of_no_commit (hj : s.sb.HasJournal) (h : ∀ j < s.sb.journalSize, s.entryType j ≠ 2) :
    journalRecover s = .ok () { s with journalHead := 0 } := by
  have hno : ¬ s.noJournal := not_or.mpr ⟨hj.journalStart_pos.ne', hj.journalSize_pos.ne'⟩
  rw [journalRecover_eq, recovered_of_no_commit hno fun c hc hcommit => h c hc hcommit.2.2]

/-- The journal holds the records of `log` from slot 0 on, followed by a commit. -/
structure Holds (s : Fs) (log : List (ℕ × Block)) : Prop where
  length_lt : log.length < s.sb.journalSize
  entry : ∀ j (hj : j < log.length), s.disk (s.journalBlock j) = blockWriteEntry log[j].1 log[j].2
  commit : s.disk (s.journalBlock log.length) = commitEndEntry
  outside : ∀ w ∈ log, ¬ s.sb.InJournal w.1 ∧ w.1 < u32Size

lemma Holds.record (hlog : Holds s log) (hc : c ≤ log.length) :
    (range c).filterMap s.record = (log.take c).map fun w => (w.1, blockWriteEntry w.1 w.2) := by
  induction c with
  | zero => rfl
  | succ c ih =>
    have hnum : log[c].1 < 256 ^ 4 := (hlog.outside _ (getElem_mem hc)).2
    rw [range_succ, filterMap_append, ih (by omega), take_succ_eq_append_getElem hc, map_append,
      filterMap_cons, Fs.record, hlog.entry c hc]
    simp [entryType_blockWriteEntry, blockNum_blockWriteEntry hnum]

lemma journalRecover_of_holds (hj : s.sb.HasJournal) (hlog : Holds s log) : ∃ t, journalRecover s = .ok () t ∧
      ∀ x, ¬ s.sb.InJournal x → t.disk x = replay mergeBlock s.disk log x := by
  have hno : ¬ s.noJournal := not_or.mpr ⟨hj.journalStart_pos.ne', hj.journalSize_pos.ne'⟩
  have hsize : s.sb.journalSize < u32Size := by
    have := hj.journalStart_pos
    have := hj.journal_end
    omega
  have hcommit : s.CommitAt 0 log.length := by
    refine ⟨zero_le _, fun j _ hjc => .inr ?_, ?_⟩
    · rw [entryType, hlog.entry j hjc, entryType_blockWriteEntry]
    · rw [entryType, hlog.commit, entryType_commitEndEntry]
  have hrecord := hlog.record le_rfl
  rw [take_length, ← records_zero] at hrecord
  have hout : s.Outside log.length := by
    intro j hjc w hw
    have hmem : w ∈ s.records 0 log.length := by
      rw [records_zero]
      exact mem_filterMap.mpr ⟨j, mem_range.mpr hjc, hw⟩
    rw [hrecord, mem_map] at hmem
    obtain ⟨v, hv, rfl⟩ := hmem
    exact not_ofJournal hj (hlog.outside v hv).1
  obtain ⟨-, -, hdisk, -⟩ := Fs.Committed.recovered ⟨hno, hsize, hlog.length_lt, hout, hcommit⟩
  refine ⟨_, journalRecover_eq s, fun x hx => ?_⟩
  rw [hdisk x (not_ofJournal hj hx), hrecord, replay, foldl_map, replay]
  simp only [mergeEntry_blockWriteEntry]

/-- Recovery redoes the transaction in front of the first commit and nothing else: of the entries
for a block the last one counts, and its tail of eight bytes is kept.  Later slots are not cleared. -/
theorem journalRecover_redo (s : Fs) (hj : ¬ s.noJournal) (hsize : s.sb.journalSize < u32Size)
    (hout : s.Outside s.sb.journalSize) :
    ∃ t, journalRecover s = .ok () t ∧ t.journalHead = 0 ∧
      ((∀ k < s.sb.journalSize, ¬ s.CommitAt 0 k) → t.disk = s.disk) ∧
      ∀ k < s.sb.journalSize, s.CommitAt 0 k →
        (∀ x, ¬ s.OfJournal x → ∀ i < onyfsBlockSize, (t.disk x).mem i = match last x (s.records 0 k) with
            | none => (s.disk x).mem i
            | some entry => if i < journalDataSize then entry.mem (8 + i) else (s.disk x).mem i) ∧
        ∀ j < s.sb.journalSize, t.disk (s.journalBlock j) =
          if j ≤ k then zero _ else s.disk (s.journalBlock j) := by
  have hno : (∀ k < s.sb.journalSize, ¬ s.CommitAt 0 k) → s.recovered = { s with journalHead := 0 } :=
    recovered_of_no_commit hj
  have hsome : ∀ k < s.sb.journalSize, s.CommitAt 0 k → s.Committed k := fun k hk hcommit =>
    ⟨hj, hsize, hk, fun j hjk => hout j (hjk.trans hk), hcommit⟩
  refine ⟨_, journalRecover_eq s, ?_, fun h => by rw [hno h], fun k hk hcommit => ?_⟩
  · by_cases h : ∀ k < s.sb.journalSize, ¬ s.CommitAt 0 k
    · rw [hno h]
    · push Not at h
      obtain ⟨k, hk, hcommit⟩ := h
      exact (hsome k hk hcommit).recovered.2.1
  · have hk := hsome k hk hcommit
    exact ⟨fun x hx i hi => hk.mem_recovered hx hi, hk.recovered.2.2.2⟩

def staleSuper (size : ℕ) : OnyfsSuper where
  magic := onyfsMagic
  blockSize := onyfsBlockSize
  totalBlocks := 10
  inodeCount := 2
  inodeTableStart := 3
  dataBitmapStart := 2
  dataBlocksStart := 8
  journalStart := 4
  journalSize := size

/-- A disk whose journal of `size` slots starts with a commit, in front of an entry and the commit of
an older transaction. -/
def staleFs (size : ℕ) : Fs where
  disk := fun blk =>
    if blk = 4 ∨ blk = 6 then commitEndEntry
    else if blk = 5 then blockWriteEntry 9 fun _ => 1
    else zero _
  buf := zero _
  sb := staleSuper size
  version := .v2
  journalHead := 0
  jiffies := 0
  writes := []

lemma outside_staleFs : (staleFs 2).Outside 2 ∧ (staleFs 3).Outside 3 := by
  unfold Fs.Outside Fs.OfJournal
  decide +kernel

theorem journalRecover_redo_staleFs :
    ¬ (staleFs 3).noJournal ∧ (staleFs 3).sb.journalSize < u32Size ∧ (staleFs 3).Outside 3 ∧
      ∃ t, journalRecover (staleFs 3) = .ok () t ∧ t.disk 4 = zero _ ∧ t.disk 6 = commitEndEntry := by
  have hcommit : (staleFs 3).CommitAt 0 0 := ⟨le_rfl, fun j _ hj => absurd hj j.not_lt_zero, by decide +kernel⟩
  obtain ⟨t, ht, -, -, h⟩ := journalRecover_redo (staleFs 3) (by decide) (by decide) outside_staleFs.2
  have hslots := (h 0 (by decide) hcommit).2
  exact ⟨by decide, by decide, outside_staleFs.2, t, ht, hslots 0 (by decide), hslots 2 (by decide)⟩

/-! ### Recovering twice -/

namespace Fs.Committed

lemma slot_recovered (h : s.Committed c) (hi : i < s.sb.journalSize) :
    s.recovered.entryType i = (if i ≤ c then 0 else s.entryType i) ∧
      s.recovered.record i = if i ≤ c then none else s.record i := by
  obtain ⟨hsb, -, -, hslots⟩ := h.recovered
  have hslot : s.recovered.journalBlock i = s.journalBlock i := by rw [journalBlock, hsb, journalBlock]
  have hzero : (zero onyfsBlockSize).mem.load 0 4 = 0 := Memory.load_eq_zero fun i _ => mem_zero ..
  rw [entryType, record, hslot, hslots i hi]
  split
  · simp [hzero]
  · exact ⟨rfl, rfl⟩

/-- The scan of a second recovery goes on behind the first commit. -/
theorem commitAt_recovered_iff (h : s.Committed c) (hi : i < s.sb.journalSize) :
    s.recovered.CommitAt 0 i ↔ s.CommitAt (c + 1) i := by
  have htype : ∀ j ≤ i, s.recovered.entryType j = if j ≤ c then 0 else s.entryType j := fun j hji =>
    (h.slot_recovered (hji.trans_lt hi)).1
  constructor
  · rintro ⟨-, hbefore, htwo⟩
    have hci : c < i := by
      by_contra hle
      rw [htype i le_rfl, if_pos (by omega)] at htwo
      cases htwo
    rw [htype i le_rfl, if_neg (by omega)] at htwo
    refine ⟨hci, fun j hj hji => ?_, htwo⟩
    have := hbefore j (zero_le j) hji
    rwa [htype j hji.le, if_neg (by omega)] at this
  · rintro ⟨hci, hbefore, htwo⟩
    refine ⟨zero_le i, fun j _ hji => ?_, ?_⟩
    · rw [htype j hji.le]
      split
      · exact .inl rfl
      · exact hbefore j (by omega) hji
    · rwa [htype i le_rfl, if_neg (by omega)]

lemma records_recovered (h : s.Committed c) (hi : i < s.sb.journalSize) (hci : c < i) :
    s.recovered.records 0 i = s.records (c + 1) i := by
  have hrecord : ∀ j ∈ range i, s.recovered.record j = if j ≤ c then none else s.record j := fun j hj =>
    (h.slot_recovered ((mem_range.mp hj).trans hi)).2
  have hsplit : range i = range (c + 1) ++ range' (c + 1) (i - (c + 1)) := by
    conv_lhs => rw [← add_sub_of_le hci, range_add]
    rw [range'_eq_map_range]
  rw [records_zero, filterMap_congr hrecord, hsplit, filterMap_append, records, filterMap_eq_nil_iff.mpr, nil_append]
  · refine filterMap_congr fun j hj => if_neg ?_
    have := (mem_range'_1.mp hj).1
    omega
  · exact fun j hj => if_pos (Nat.lt_succ_iff.mp (mem_range.mp hj))

/-- A second recovery redoes the transaction behind the first commit. -/
theorem recovered_recovered (h : s.Committed c) (hout : s.Outside s.sb.journalSize) (hi : i < s.sb.journalSize)
    (hstale : s.CommitAt (c + 1) i) {x : ℕ} (hx : ¬ s.OfJournal x) :
    s.recovered.recovered.disk x =
      (last x (s.records (c + 1) i)).elim (s.recovered.disk x) (mergeEntry (s.recovered.disk x)) := by
  obtain ⟨hsb, -⟩ := h.recovered
  have hslot : ∀ x, s.recovered.OfJournal x ↔ s.OfJournal x := fun x => by simp only [OfJournal, journalBlock, hsb]
  have hagain : s.recovered.Committed i := by
    refine ⟨by rw [noJournal, hsb]; exact h.journal, hsb ▸ h.size, hsb ▸ hi, fun j hji w hw => ?_,
      (h.commitAt_recovered_iff hi).mpr hstale⟩
    rw [(h.slot_recovered (hji.trans hi)).2] at hw
    rw [hslot]
    split at hw
    · cases hw
    · exact hout j (hji.trans hi) w hw
  rw [hagain.recovered.2.2.1 x ((hslot x).not.mpr hx), h.records_recovered hi hstale.1,
    replay_apply mergeEntry_mergeEntry]

end Fs.Committed

lemma mergeEntry_eq_self_iff {old entry : Block} :
    mergeEntry old entry = old ↔ ∀ i < journalDataSize, entry.mem (8 + i) = old.mem i := by
  have hlt : ∀ i < journalDataSize, i < onyfsBlockSize := fun i hi => hi.trans (by decide)
  constructor
  · intro h i hi
    have hbyte : (mergeEntry old entry).mem i = _ := mem_mergeEntry (hlt i hi)
    rwa [h, if_pos hi, eq_comm] at hbyte
  · refine fun h => ext_mem fun i hi => ?_
    rw [mem_mergeEntry hi]
    split
    · exact h i ‹_›
    · rfl

/-- Recovery clears the slots up to the first commit only, and a cleared slot does not end the next
scan.  So a second recovery has no effect unless a stale transaction behind the first commit differs
from what the first recovery left. -/
theorem journalRecover_twice_iff (s : Fs) (hsize : s.sb.journalSize < u32Size)
    (hout : s.Outside s.sb.journalSize) :
    (∀ x, ¬ s.OfJournal x → s.recovered.recovered.disk x = s.recovered.disk x) ↔
    (s.noJournal ∨ ∀ k k', s.CommitAt 0 k → s.CommitAt (k + 1) k' → k' < s.sb.journalSize →
      ∀ x, ∀ stale ∈ last x (s.records (k + 1) k'), ∀ i < journalDataSize,
        stale.mem (8 + i) = match last x (s.records 0 k) with
          | none => (s.disk x).mem i
          | some entry => entry.mem (8 + i)) := by
  by_cases hj : s.noJournal
  · have hself : s.recovered = s := by
      rw [recovered, journalRecover, get_bind, if_pos hj]
      rfl
    exact iff_of_true (fun x _ => by rw [hself, hself]) (.inl hj)
  rw [or_iff_right hj]
  have hcommitted : ∀ k < s.sb.journalSize, s.CommitAt 0 k → s.Committed k := fun k hk hcommit =>
    ⟨hj, hsize, hk, fun j hjk => hout j (hjk.trans hk), hcommit⟩
  -- the bytes the first recovery leaves
  have hbyte : ∀ k, s.Committed k → ∀ x, ¬ s.OfJournal x → ∀ i < journalDataSize,
      (s.recovered.disk x).mem i = match last x (s.records 0 k) with
        | none => (s.disk x).mem i
        | some entry => entry.mem (8 + i) := by
    intro k hk x hx i hi
    rw [hk.mem_recovered hx (hi.trans (by decide))]
    simp only [hi, if_true]
  constructor
  · intro h k k' hk hk' hlt x stale hstale i hi
    have hc := hcommitted k (lt_trans hk'.1 hlt) hk
    have hx : ¬ s.OfJournal x := hout.not_ofJournal hlt.le hstale
    have htwice := hc.recovered_recovered hout hlt hk' hx
    rw [h x hx, hstale, Option.elim_some] at htwice
    rw [← hbyte k hc x hx i hi]
    exact mergeEntry_eq_self_iff.mp htwice.symm i hi
  · intro h x hx
    by_cases hfirst : ∃ k < s.sb.journalSize, s.CommitAt 0 k
    · obtain ⟨k, hk, hcommit⟩ := hfirst
      have hc := hcommitted k hk hcommit
      obtain ⟨hsb, -⟩ := hc.recovered
      by_cases hsecond : ∃ k' < s.sb.journalSize, s.CommitAt (k + 1) k'
      · obtain ⟨k', hk', hstale⟩ := hsecond
        rw [hc.recovered_recovered hout hk' hstale hx]
        cases hlast : last x (s.records (k + 1) k') with
        | none => rfl
        | some stale =>
          refine mergeEntry_eq_self_iff.mpr fun i hi => ?_
          rw [hbyte k hc x hx i hi]
          exact h k k' hcommit hstale hk' x stale hlast i hi
      · rw [recovered_of_no_commit (by rwa [noJournal, hsb])]
        intro k' hk' hagain
        rw [hsb] at hk'
        exact hsecond ⟨k', hk', (hc.commitAt_recovered_iff hk').mp hagain⟩
    · have hnone : ∀ k < s.sb.journalSize, ¬ s.CommitAt 0 k := fun k hk hcommit => hfirst ⟨k, hk, hcommit⟩
      rw [recovered_of_no_commit hj hnone, recovered_of_no_commit]
      · exact hj
      · exact hnone

theorem journalRecover_twice_staleFs : (staleFs 2).sb.journalSize < u32Size ∧ (staleFs 2).Outside 2 ∧
      ∀ x, ¬ (staleFs 2).OfJournal x → (staleFs 2).recovered.recovered.disk x = (staleFs 2).recovered.disk x := by
  refine ⟨by decide, outside_staleFs.1, (journalRecover_twice_iff (staleFs 2) (by decide) outside_staleFs.1).mpr ?_⟩
  refine .inr fun k k' _ hk' hlt => absurd hk'.2.2 ?_
  have hone : k' = 1 := by
    have := hk'.1
    have : k' < 2 := hlt
    omega
  rw [hone]
  decide +kernel

theorem not_journalRecover_twice_staleFs : (staleFs 3).sb.journalSize < u32Size ∧ (staleFs 3).Outside 3 ∧
      ¬ ∀ x, ¬ (staleFs 3).OfJournal x → (staleFs 3).recovered.recovered.disk x = (staleFs 3).recovered.disk x := by
  refine ⟨by decide, outside_staleFs.2, fun h => ?_⟩
  have hslot : ¬ (staleFs 3).OfJournal 9 := by
    unfold Fs.OfJournal
    decide
  have hbyte : ((staleFs 3).recovered.recovered.disk 9).mem 0 ≠ ((staleFs 3).recovered.disk 9).mem 0 := by
    decide +kernel
  exact hbyte (congrArg (mem · 0) (h 9 hslot))

end OnyxKernel.Onyxfs
