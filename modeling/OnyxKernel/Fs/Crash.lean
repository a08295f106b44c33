import OnyxKernel.Fs.Sound
import OnyxKernel.Fs.Write

/-!
# Crashes

A crash cuts the sequence of block writes of an operation short; the next mount runs
`journal_recover` on what is on the disk.  An operation is atomic for a crash if the blocks outside
the journal are then all as before the operation or all as after it.

The journal does not make the operations atomic.  Every block is written in place right after it has
been logged, before the commit, and recovery replays whatever precedes the first `commit_end` entry
in the journal, including entries of earlier transactions.  Atomic are the operations that write one
block, and every operation for a crash before its first or behind its last write.
-/

namespace OnyxKernel.Onyxfs

open ByteMemory KResult RedoLog List Nat Buffer Fs
open Function (update update_self update_of_ne)

/-! ### Operations and crashes -/

/-- The state an operation leaves, whether it succeeds or not. -/
def Op.after (op : Op) (s : Fs) : Fs := finalState (op.run s)

/-- The block writes an operation issues. -/
def Op.issued (op : Op) (s : Fs) : List (ℕ × Block) := (op.after s).writes.drop s.writes.length

/-- The disk after a crash that lets the first `p` writes of an operation through. -/
def crashDisk (s : Fs) (op : Op) (p : ℕ) : ℕ → Block :=
  writeAll s.disk ((op.issued s).take p)

/-- The state of the driver at boot. -/
def boot (d : ℕ → Block) : Fs where
  disk := d
  buf := zero _
  sb :=
    { magic := 0, blockSize := 0, totalBlocks := 0, inodeCount := 0, inodeTableStart := 0,
      dataBitmapStart := 0, dataBlocksStart := 0, journalStart := 0, journalSize := 0 }
  version := .unmounted
  journalHead := 0
  jiffies := 0
  writes := []

/-- The state after mounting a disk. -/
def remounted (d : ℕ → Block) : Fs := finalState (mount (boot d))

/-- The disks agree outside the journal. -/
def AgreeOutside (sb : OnyfsSuper) (d d' : ℕ → Block) : Prop := ∀ x, ¬ sb.InJournal x → d x = d' x

/-- After a crash behind `p` writes and the next mount, the blocks outside the journal are all as
before the operation or all as after it. -/
def Atomic (s : Fs) (op : Op) (p : ℕ) : Prop :=
  AgreeOutside s.sb (remounted (crashDisk s op p)).disk s.disk ∨
    AgreeOutside s.sb (remounted (crashDisk s op p)).disk (op.after s).disk

variable {s t : Fs} {op : Op} {ino blk : ℕ} {b : Block} {i j p : ℕ} {x : Unit}
  {log ws : List (ℕ × Block)} {u : Fs} {d : ℕ → Block} {inode : OnyfsInode}

/-! ### The journal after a transaction -/

lemma journalBlock_ne (hj : s.sb.HasJournal) (hi : i < s.sb.journalSize)
    (hjs : j < s.sb.journalSize) (hne : i ≠ j) : s.journalBlock i ≠ s.journalBlock j := by
  rw [(inJournal_journalBlock hj hi).1, (inJournal_journalBlock hj hjs).1]
  omega

lemma disk_loggedAll (hj : s.sb.HasJournal) (ws : List (ℕ × Block))
    (hroom : s.journalHead + ws.length ≤ s.sb.journalSize) {x : ℕ} (hx : ¬ s.sb.InJournal x) :
    (s.loggedAll ws).disk x = writeAll s.disk ws x := by
  induction ws generalizing s with
  | nil => rfl
  | cons w ws ih =>
    rw [length_cons] at hroom
    have hstep : (s.logged w.1 w.2).disk x = update s.disk w.1 w.2 x := by
      by_cases hxw : x = w.1
      · rw [hxw, update_self, logged_disk_self]
      · rw [update_of_ne hxw, logged_disk hj (by omega) hxw hx]
    have hrest := ih (s := s.logged w.1 w.2) hj (by rw [logged_journalHead, logged_sb]; omega) hx
    refine hrest.trans ?_
    rw [writeAll_apply, hstep]
    exact (writeAll_apply (update s.disk w.1 w.2) ws x).symm

lemma disk_loggedAll_slot (hj : s.sb.HasJournal) (ws : List (ℕ × Block))
    (hout : ∀ w ∈ ws, ¬ s.sb.InJournal w.1)
    (hroom : s.journalHead + ws.length ≤ s.sb.journalSize) (hi : i < s.sb.journalSize)
    (hslot : i < s.journalHead ∨ s.journalHead + ws.length ≤ i) :
    (s.loggedAll ws).disk (s.journalBlock i) = s.disk (s.journalBlock i) := by
  induction ws generalizing s with
  | nil => rfl
  | cons w ws ih =>
    rw [length_cons] at hroom hslot
    have hstep : (s.logged w.1 w.2).disk (s.journalBlock i) = s.disk (s.journalBlock i) := by
      refine logged_disk_of_ne ?_ (journalBlock_ne hj hi (by omega) (by omega))
      intro heq
      exact hout w mem_cons_self (heq ▸ (inJournal_journalBlock hj hi).2)
    have hrest := ih (s := s.logged w.1 w.2) hj (fun v hv => hout v (mem_cons_of_mem w hv))
      (by rw [logged_journalHead, logged_sb]; omega) hi
      (by rw [logged_journalHead]; omega)
    exact hrest.trans hstep

lemma disk_loggedAll_entry (hj : s.sb.HasJournal) (ws : List (ℕ × Block))
    (hout : ∀ w ∈ ws, ¬ s.sb.InJournal w.1)
    (hroom : s.journalHead + ws.length ≤ s.sb.journalSize) (hlt : j < ws.length) :
    (s.loggedAll ws).disk (s.journalBlock (s.journalHead + j)) = blockWriteEntry ws[j].1 ws[j].2 := by
  induction ws generalizing s j with
  | nil => exact absurd hlt (not_lt_zero j)
  | cons w ws ih =>
    rw [length_cons] at hroom hlt
    have hout' : ∀ v ∈ ws, ¬ s.sb.InJournal v.1 := fun v hv => hout v (mem_cons_of_mem w hv)
    have hroom' : (s.logged w.1 w.2).journalHead + ws.length ≤ (s.logged w.1 w.2).sb.journalSize := by
      rw [logged_journalHead, logged_sb]
      omega
    cases j with
    | zero =>
      have hhead : s.journalHead < s.sb.journalSize := by omega
      have hkeep := disk_loggedAll_slot (s := s.logged w.1 w.2) hj ws hout' hroom' hhead
        (.inl (lt_succ_self _))
      have hne : s.journalBlock s.journalHead ≠ w.1 := fun heq =>
        hout w mem_cons_self (heq ▸ (inJournal_journalBlock hj hhead).2)
      refine hkeep.trans ?_
      exact (update_of_ne hne ..).trans (update_self ..)
    | succ j =>
      have hrest := ih (s := s.logged w.1 w.2) hj hout' hroom' (lt_of_succ_lt_succ hlt)
      rw [logged_journalHead, add_assoc, add_comm 1 j] at hrest
      exact hrest

/-- The journal between two operations: it has no commit, or it holds the last transaction, whose
records are all on the disk. -/
def JournalInv (s : Fs) : Prop :=
  (∀ j < s.sb.journalSize, s.entryType j ≠ 2) ∨ ∃ log, log ≠ [] ∧ Holds s log ∧
      ∀ x v, last x log = some v → mergeBlock (s.disk x) v = s.disk x

lemma Holds.congr (h : Holds s log) (hsb : t.sb = s.sb)
    (hdisk : ∀ i ≤ log.length, t.disk (s.journalBlock i) = s.disk (s.journalBlock i)) :
    Holds t log := by
  have hslot : ∀ i, t.journalBlock i = s.journalBlock i := fun i => by
    rw [journalBlock, hsb, journalBlock]
  refine ⟨hsb ▸ h.length_lt, fun j hj => ?_, ?_, hsb ▸ h.outside⟩
  · rw [hslot, hdisk j hj.le, h.entry j hj]
  · rw [hslot, hdisk _ le_rfl, h.commit]

lemma JournalInv.withBuf (h : JournalInv s) (b : Block) : JournalInv (s.withBuf b) := by
  rcases h with h | ⟨log, hne, hlog, hlast⟩
  · exact .inl h
  · exact .inr ⟨log, hne, hlog.congr rfl fun _ _ => rfl, hlast⟩

/-- The state between two operations. -/
structure Between (s : Fs) : Prop where
  sound : Sound s
  journalHead : s.journalHead = 0
  journal : JournalInv s

lemma Between.room (h : Between s) : s.journalHead < s.sb.journalSize := by
  rw [h.journalHead]
  exact h.sound.areas.journalSize_pos

lemma Sound.of_agreeOutside (h : Sound s) (hv : t.version = s.version) (hsb : t.sb = s.sb)
    (hhead : t.journalHead ≤ s.sb.journalSize) (hdisk : AgreeOutside s.sb t.disk s.disk) :
    Sound t := by
  have hv2 : t.version = .v2 := hv.trans h.version
  refine ⟨hv2, hsb ▸ h.areas, ?_, hsb ▸ h.magic, hsb ▸ h.blockSize, hsb ▸ hhead, ?_⟩
  · rw [hdisk 0 h.areas.zero_notMem, hsb]
    exact h.super
  · intro ino hslot
    rw [hsb] at hslot
    have hin := (inTable_of_hasSlot h.areas.table_end h.version hslot).2
    rw [inodeAt_congr hv hsb (hdisk _ (h.areas.table_journal _ hin)), hsb]
    exact h.blocksIn ino hslot

lemma journalCommit_full (hj : s.sb.HasJournal) (hfull : s.journalHead = s.sb.journalSize) :
    journalCommit s = .ok () { s with journalHead := 0 } := by
  have hno : ¬ s.noJournal := not_or.mpr ⟨hj.journalStart_pos.ne', hj.journalSize_pos.ne'⟩
  have hpos : ¬ s.journalHead = 0 := by
    rw [hfull]
    exact hj.journalSize_pos.ne'
  rw [journalCommit, get_bind, if_neg hno, if_neg hpos, if_neg (not_lt.mpr hfull.ge)]
  rfl

lemma journalCommit_empty (h : s.journalHead = 0) : journalCommit s = .ok () s := by
  rw [journalCommit, get_bind, if_pos h, ite_self]
  rfl

lemma mergeBlock_of_logged (hj : s.sb.HasJournal)
    (htr : Trace s ws t) {x : ℕ} {v : Block} (hv : last x ws = some v) : t.disk x = v := by
  obtain ⟨b, rfl⟩ := htr.eq
  have hx := (htr.outside _ (mem_of_last_eq_some hv)).1
  rw [withBuf_disk, disk_loggedAll hj ws htr.room hx, writeAll_apply, hv]
  rfl

lemma Trace.entry (htr : Trace s ws t) (hj : s.sb.HasJournal) (hhead : s.journalHead = 0)
    (hlt : j < ws.length) : t.disk (s.journalBlock j) = blockWriteEntry ws[j].1 ws[j].2 := by
  obtain ⟨b, rfl⟩ := htr.eq
  have hentry := disk_loggedAll_entry hj ws (fun w hw => (htr.outside w hw).1) htr.room hlt
  rw [hhead, zero_add] at hentry
  exact hentry

lemma Between.commit (h : Between s) (hev : Evolves s u) (hr : journalCommit u = .ok () t) :
    Between t ∧ t.sb = s.sb ∧ AgreeOutside s.sb t.disk u.disk := by
  obtain ⟨hsound, ws, htr⟩ := hev
  have hsb := htr.sb_eq
  have hhead : u.journalHead = ws.length := by rw [htr.journalHead_eq, h.journalHead, zero_add]
  have hj : s.sb.HasJournal := h.sound.areas.toHasJournal
  have hju : u.sb.HasJournal := hsb ▸ hj
  have hslot : ∀ i, u.journalBlock i = s.journalBlock i := fun i => by
    rw [journalBlock, hsb, journalBlock]
  have hle : ws.length ≤ s.sb.journalSize := by
    have hroom := htr.room
    omega
  rcases Nat.eq_zero_or_pos ws.length with hzero | hpos
  · -- nothing was logged
    obtain rfl : ws = [] := length_eq_zero_iff.mp hzero
    obtain ⟨b, rfl⟩ := htr.eq
    rw [journalCommit_empty hhead] at hr
    injection hr with _ ht
    subst ht
    exact ⟨⟨hsound, hhead, h.journal.withBuf b⟩, rfl, fun _ _ => rfl⟩
  have hentry : ∀ j (hjl : j < ws.length), u.disk (s.journalBlock j) = blockWriteEntry ws[j].1 ws[j].2 :=
    fun j hjl => htr.entry hj h.journalHead hjl
  rcases lt_or_eq_of_le hle with hlt | hfull
  · have hroom : u.journalHead < u.sb.journalSize := by rw [hhead, hsb]; exact hlt
    rw [journalCommit_eq (journalReady hju hroom) (by omega)] at hr
    injection hr with _ ht
    subst ht
    have hagree : AgreeOutside s.sb u.committed.disk u.disk := fun x hx =>
      committed_disk hju hroom (hsb ▸ hx)
    refine ⟨⟨?_, rfl, .inr ⟨ws, ne_nil_of_length_pos hpos, ?_, ?_⟩⟩, hsb, hagree⟩
    · exact hsound.of_agreeOutside rfl rfl (zero_le _) (hsb ▸ hagree)
    · refine ⟨hsb ▸ hlt, fun j hjl => ?_, ?_, fun w hw => ?_⟩
      · have hne : u.journalBlock j ≠ u.journalBlock u.journalHead :=
          journalBlock_ne hju (by rw [hsb]; omega) hroom (by omega)
        have hkeep : u.committed.disk (u.journalBlock j) = u.disk (u.journalBlock j) :=
          update_of_ne hne ..
        rwa [← hentry j hjl, ← hslot]
      · rw [← hhead]
        exact update_self ..
      · have hout := htr.outside w hw
        exact ⟨hsb ▸ hout.1, hout.2.1⟩
    · intro x v hv
      have hx := (htr.outside _ (mem_of_last_eq_some hv)).1
      rw [hagree x hx, mergeBlock_of_logged hj htr hv, mergeBlock_self]
  · rw [journalCommit_full hju (by rw [hhead, hsb, hfull])] at hr
    injection hr with _ ht
    subst ht
    refine ⟨⟨?_, rfl, .inl fun j hjs => ?_⟩, hsb, fun _ _ => rfl⟩
    · exact hsound.of_agreeOutside rfl rfl (zero_le _) fun _ _ => rfl
    · have hjl : j < ws.length := by rw [hfull, ← hsb]; exact hjs
      have htype : u.entryType j = 1 := by
        rw [entryType, hslot, hentry j hjl, entryType_blockWriteEntry]
      change u.entryType j ≠ 2
      rw [htype]
      decide

lemma Between.run (h : Between s) (hord : op.Ordinary s) (hr : op.run s = .ok x t) :
    Between t ∧ t.sb = s.sb := by
  obtain ⟨u, hev, hcommit⟩ := Op.run_ok h.sound hord hr
  obtain ⟨ht, hsb, -⟩ := h.commit hev hcommit
  exact ⟨ht, hsb⟩

/-! ### Mounting a crashed disk -/

/-- The state in which the mount of a disk starts its recovery. -/
def mounting (d : ℕ → Block) (sb : OnyfsSuper) : Fs :=
  { boot d with buf := d 0, version := .v2, sb := sb }

lemma mount_boot (h : Sound s) (hd : d 0 = s.disk 0) : mount (boot d) = journalRecover (mounting d s.sb) := by
  have hsuper : OnyfsSuper.fromBytes (d 0).mem = some s.sb := hd ▸ h.super
  have hboot : (boot d).disk 0 = d 0 := rfl
  rw [mount, readBuf_bind, get_bind, hboot, withBuf_buf]
  simp only [hsuper]
  rw [if_neg (not_not.mpr h.blockSize), if_pos h.magic, modify_bind]
  rfl

lemma remounted_of_no_commit (h : Sound s) (hd : d 0 = s.disk 0)
    (hno : ∀ j < s.sb.journalSize, (d (s.journalBlock j)).mem.load 0 4 ≠ 2) :
    (remounted d).disk = d := by
  have hrec := journalRecover_of_no_commit (s := mounting d s.sb) h.areas.toHasJournal hno
  rw [remounted, mount_boot h hd, hrec]
  rfl

lemma remounted_of_holds (h : Sound s) (hd : d 0 = s.disk 0) (hlog : Holds (mounting d s.sb) log) :
    AgreeOutside s.sb (remounted d).disk (replay mergeBlock d log) := by
  obtain ⟨t, hrec, hdisk⟩ := journalRecover_of_holds (s := mounting d s.sb) h.areas.toHasJournal hlog
  rwa [remounted, mount_boot h hd, hrec]

lemma Between.remounted (h : Between s) : AgreeOutside s.sb (remounted s.disk).disk s.disk := by
  rcases h.journal with hno | ⟨log, -, hlog, hlast⟩
  · rw [remounted_of_no_commit h.sound rfl hno]
    exact fun _ _ => rfl
  · have hlog' : Holds (mounting s.disk s.sb) log := hlog.congr rfl fun _ _ => rfl
    intro x hx
    rw [remounted_of_holds h.sound rfl hlog' x hx]
    exact replay_of_absorbed mergeBlock_mergeBlock (hlast x)

/-! ### One logged write and a crash -/

/-- Replaying the last transaction with its first record replaced by the record of a single new
write leaves that block old or new and the other blocks old. -/
theorem replay_replaced {w : ℕ × Block}
    (hlast : ∀ x v, last x (w :: log) = some v → mergeBlock (s.disk x) v = s.disk x)
    (htail : mergeBlock (s.disk blk) b = b) (hblk : d blk = s.disk blk ∨ d blk = b) :
    (replay mergeBlock d ((blk, b) :: log) blk = s.disk blk ∨ replay mergeBlock d ((blk, b) :: log) blk = b) ∧
    ∀ x, x ≠ blk → d x = s.disk x →
      replay mergeBlock d ((blk, b) :: log) x = s.disk x := by
  have hold : ∀ x v, last x log = some v → mergeBlock (s.disk x) v = s.disk x :=
    fun x v hv => hlast x v (by rw [last, hv, Option.some_or])
  constructor
  · rw [replay_apply mergeBlock_mergeBlock, last, if_pos rfl]
    cases hv : last blk log with
    | none =>
      right
      rcases hblk with hd | hd
      · simpa [hd] using htail
      · simp [hd]
    | some v =>
      left
      have hmerge := hold blk v hv
      rcases hblk with hd | hd
      · simpa [hd] using hmerge
      · -- the last bytes of the new contents are those of the old
        have hb : mergeBlock b v = s.disk blk := by
          rw [← htail, mergeBlock_mergeBlock, hmerge]
        simpa [hd] using hb
  · intro x hx hd
    have hne : ¬ blk = x := fun heq => hx heq.symm
    rw [replay_apply mergeBlock_mergeBlock, last, if_neg hne, Option.or_none, hd]
    cases hv : last x log with
    | none => rfl
    | some v => exact hold x v hv

lemma remounted_single (h : Between s) (hj : ¬ s.sb.InJournal blk) (hlt : blk < u32Size)
    (hne : blk ≠ 0) (htail : mergeBlock (s.disk blk) b = b)
    (hslot : d (s.journalBlock 0) = blockWriteEntry blk b)
    (hrest : ∀ i, 0 < i → i < s.sb.journalSize → d (s.journalBlock i) = s.disk (s.journalBlock i))
    (hblk : d blk = s.disk blk ∨ d blk = b)
    (hout : ∀ x, ¬ s.sb.InJournal x → x ≠ blk → d x = s.disk x) :
    AgreeOutside s.sb (remounted d).disk s.disk ∨
      AgreeOutside s.sb (remounted d).disk (update s.disk blk b) := by
  have hd0 : d 0 = s.disk 0 := hout 0 h.sound.areas.zero_notMem hne.symm
  -- it is enough that the block is old or new and the others are old
  have hcases : ∀ d' : ℕ → Block, d' blk = s.disk blk ∨ d' blk = b →
      (∀ x, ¬ s.sb.InJournal x → x ≠ blk → d' x = s.disk x) →
      AgreeOutside s.sb d' s.disk ∨ AgreeOutside s.sb d' (update s.disk blk b) := by
    intro d' hd' hother
    rcases hd' with hold | hnew
    · left
      intro x hx
      by_cases hxb : x = blk
      · rw [hxb, hold]
      · exact hother x hx hxb
    · right
      intro x hx
      by_cases hxb : x = blk
      · rw [hxb, hnew, update_self]
      · rw [update_of_ne hxb, hother x hx hxb]
  rcases h.journal with hno | ⟨log, hnil, hlog, hlast⟩
  · have hno' : ∀ j < s.sb.journalSize, (d (s.journalBlock j)).mem.load 0 4 ≠ 2 := by
      intro j hjs
      rcases Nat.eq_zero_or_pos j with rfl | hpos
      · rw [hslot, entryType_blockWriteEntry]
        decide
      · rw [hrest j hpos hjs]
        exact hno j hjs
    rw [remounted_of_no_commit h.sound hd0 hno']
    exact hcases d hblk hout
  · obtain ⟨w, rest, rfl⟩ := exists_cons_of_ne_nil hnil
    have hsize := hlog.length_lt
    have hlog' : Holds (mounting d s.sb) ((blk, b) :: rest) := by
      refine ⟨hsize, fun j hjl => ?_, ?_, fun v hv => ?_⟩
      · cases j with
        | zero => exact hslot
        | succ j =>
          have hjs : j + 1 < s.sb.journalSize := hjl.trans hsize
          exact (hrest (j + 1) (succ_pos j) hjs).trans (hlog.entry (j + 1) hjl)
      · exact (hrest _ (succ_pos _) hsize).trans hlog.commit
      · rcases mem_cons.mp hv with rfl | hv
        · exact ⟨hj, hlt⟩
        · exact hlog.outside v (mem_cons_of_mem w hv)
    have hagree := remounted_of_holds h.sound hd0 hlog'
    obtain ⟨hb, hother⟩ := replay_replaced hlast htail hblk
    refine hcases _ ?_ fun x hx hxb => ?_
    · rwa [hagree blk hj]
    · rw [hagree x hx]
      exact hother x hxb (hout x hx hxb)

/-! ### The writes of an operation -/

/-- The state `t` is reached from `s` by the block writes `ws`. -/
def Wrote (s : Fs) (ws : List (ℕ × Block)) (t : Fs) : Prop :=
  t.writes = s.writes ++ ws ∧ t.disk = writeAll s.disk ws

lemma Wrote.trans {ws' : List (ℕ × Block)} (h : Wrote s ws t) (h' : Wrote t ws' u) :
    Wrote s (ws ++ ws') u := by
  refine ⟨by rw [h'.1, h.1, append_assoc], ?_⟩
  rw [h'.2, h.2]
  exact replay_append.symm

lemma wrote_logged (s : Fs) (blk : ℕ) (b : Block) :
    Wrote s [(s.journalBlock s.journalHead, blockWriteEntry blk b), (blk, b)] (s.logged blk b) :=
  ⟨append_assoc .., rfl⟩

lemma exists_wrote_loggedAll (s : Fs) (ws : List (ℕ × Block)) : ∃ ws', Wrote s ws' (s.loggedAll ws) := by
  induction ws generalizing s with
  | nil => exact ⟨[], (append_nil _).symm, rfl⟩
  | cons w ws ih =>
    obtain ⟨ws', hws'⟩ := ih (s.logged w.1 w.2)
    exact ⟨_, (wrote_logged s w.1 w.2).trans hws'⟩

lemma journalCommit_cases (hj : s.sb.HasJournal) (hle : s.journalHead ≤ s.sb.journalSize) :
    ∃ ws t, journalCommit s = .ok () t ∧ Wrote s ws t ∧ ws.length ≤ 1 := by
  rcases Nat.eq_zero_or_pos s.journalHead with hzero | hpos
  · exact ⟨[], s, journalCommit_empty hzero, ⟨(append_nil _).symm, rfl⟩, zero_le _⟩
  rcases lt_or_eq_of_le hle with hlt | hfull
  · exact ⟨_, _, journalCommit_eq (journalReady hj hlt) hpos.ne',
      ⟨(rfl : _ = s.writes ++ [(s.journalBlock s.journalHead, commitEndEntry)]), rfl⟩, le_rfl⟩
  · exact ⟨[], _, journalCommit_full hj hfull, ⟨(append_nil _).symm, rfl⟩, zero_le _⟩

lemma crashDisk_of_wrote (h : Wrote s ws (op.after s)) (p : ℕ) :
    crashDisk s op p = writeAll s.disk (ws.take p) := by
  rw [crashDisk, Op.issued, h.1, drop_left]

lemma crashDisk_of_length_le (h : Wrote s ws (op.after s))
    (hp : ws.length ≤ p) : crashDisk s op p = (op.after s).disk := by
  rw [crashDisk_of_wrote h, take_of_length_le hp, h.2]

lemma exists_wrote_of_run (h : Sound s) (hord : op.Ordinary s)
    (hr : op.run s = .ok x t) : ∃ ws, Wrote s ws t := by
  obtain ⟨u, ⟨hsound, ws, htr⟩, hcommit⟩ := Op.run_ok h hord hr
  obtain ⟨ws2, t', hcommit', hwrote, -⟩ :=
    journalCommit_cases hsound.areas.toHasJournal hsound.head_le
  rw [hcommit] at hcommit'
  injection hcommit' with _ ht
  subst ht
  obtain ⟨b, rfl⟩ := htr.eq
  obtain ⟨ws1, hws1⟩ := exists_wrote_loggedAll s ws
  have hu : Wrote s ws1 ((s.loggedAll ws).withBuf b) := hws1
  exact ⟨_, hu.trans hwrote⟩

lemma Between.atomic_of_completed (h : Between s) (hord : op.Ordinary s)
    (hr : op.run s = .ok x t) (hp : (op.issued s).length ≤ p) : Atomic s op p := by
  obtain ⟨ws, hws⟩ := exists_wrote_of_run h.sound hord hr
  obtain ⟨ht, hsb⟩ := h.run hord hr
  have hafter : op.after s = t := by rw [Op.after, hr]; rfl
  have hwrote : Wrote s ws (op.after s) := hafter ▸ hws
  have hlen : ws.length ≤ p := by rwa [Op.issued, hwrote.1, drop_left] at hp
  right
  rw [crashDisk_of_length_le hwrote hlen, hafter, ← hsb]
  exact ht.remounted

lemma Between.atomic_of_no_write (h : Between s) (hp : (op.issued s).take p = []) : Atomic s op p := by
  left
  rw [crashDisk, hp]
  exact h.remounted

/-! ### Operations that write one block -/

/-- The operation is one logged write and a commit; the write keeps the last bytes of its block,
which the journal does not hold. -/
def OneWrite (s : Fs) (op : Op) : Prop :=
  ∃ blk b, Evolves s (s.logged blk b) ∧ ¬ s.sb.InJournal blk ∧ blk < u32Size ∧ blk ≠ 0 ∧
    mergeBlock (s.disk blk) b = b ∧ op.after s = finalState (journalCommit (s.logged blk b))

lemma Between.atomic_of_oneWrite (h : Between s) (hone : OneWrite s op) (p : ℕ) : Atomic s op p := by
  obtain ⟨blk, b, hev, hj, hlt, hne, htail, hrun⟩ := hone
  have hjournal := h.sound.areas.toHasJournal
  obtain ⟨ws, t, hcommit, hwrote, hws⟩ :=
    journalCommit_cases hev.sound.areas.toHasJournal hev.sound.head_le
  obtain ⟨ht, hsb, hagree⟩ := h.commit hev hcommit
  have hafter : op.after s = t := by rw [hrun, hcommit]; rfl
  have hall := (wrote_logged s blk b).trans hwrote
  rw [← hafter] at hall
  have hhead := h.journalHead
  have h0 : (0 : ℕ) < s.sb.journalSize := hjournal.journalSize_pos
  have hslot0 : s.sb.InJournal (s.journalBlock 0) := (inJournal_journalBlock hjournal h0).2
  have hb0 : blk ≠ s.journalBlock 0 := fun heq => hj (heq ▸ hslot0)
  -- the disk of the completed operation outside the journal
  have hnew : AgreeOutside s.sb (op.after s).disk (update s.disk blk b) := by
    intro x hx
    rw [hafter, hagree x hx]
    have hx0 : x ≠ s.journalBlock s.journalHead := fun heq =>
      hx (heq ▸ (hhead ▸ hslot0))
    by_cases hxb : x = blk
    · rw [hxb, logged_disk_self, update_self]
    · rw [logged_disk_of_ne hxb hx0, update_of_ne hxb]
  have hsingle {d : ℕ → Block} (h1 : _) (h2 : _) (h3 : _) (h4 : _) :=
    (remounted_single (d := d) h hj hlt hne htail h1 h2 h3 h4).imp_right fun hupd x hx =>
      (hupd x hx).trans (hnew x hx).symm
  -- the disk with the journal entry, before the write in place
  have hlogged : ∀ x, x ≠ s.journalBlock 0 →
      update s.disk (s.journalBlock 0) (blockWriteEntry blk b) x = s.disk x :=
    fun x hx => update_of_ne hx ..
  have hother : ∀ i, 0 < i → i < s.sb.journalSize → s.journalBlock i ≠ s.journalBlock 0 :=
    fun i hpos hi => journalBlock_ne hjournal hi h0 hpos.ne'
  have hout : ∀ x, ¬ s.sb.InJournal x → x ≠ s.journalBlock 0 := fun x hx heq => hx (heq ▸ hslot0)
  rw [hhead] at hall
  match p with
  | 0 => exact h.atomic_of_no_write (take_zero ..)
  | 1 =>
    rw [Atomic, crashDisk_of_wrote hall]
    exact hsingle (update_self ..) (fun i hpos hi => hlogged _ (hother i hpos hi))
      (.inl (hlogged blk hb0)) fun x hx _ => hlogged x (hout x hx)
  | 2 =>
    rw [Atomic, crashDisk_of_wrote hall]
    refine hsingle (d := update (update s.disk (s.journalBlock 0) (blockWriteEntry blk b)) blk b) ?_ ?_
      (.inr (update_self ..)) ?_
    · rw [update_of_ne hb0.symm, update_self]
    · intro i hpos hi
      have hib : s.journalBlock i ≠ blk := fun heq =>
        hj (heq ▸ (inJournal_journalBlock hjournal hi).2)
      rw [update_of_ne hib, hlogged _ (hother i hpos hi)]
    · intro x hx hxb
      rw [update_of_ne hxb, hlogged x (hout x hx)]
  | p + 3 =>
    right
    have hlen : ([(s.journalBlock 0, blockWriteEntry blk b), (blk, b)] ++ ws).length ≤ p + 3 := by
      simp only [length_append, length_cons, length_nil]
      omega
    rw [crashDisk_of_length_le hall hlen, hafter, ← hsb]
    exact ht.remounted

/-- The operations that write one block: they change an inode or remove a directory entry. -/
def Op.SingleBlock : Op → Prop
  | .write _ data off => data = [] ∨ 10 * onyfsBlockSize ≤ off
  | .truncate _ => True
  | .unlink _ => True
  | _ => False

lemma mergeBlock_withInode (h : Sound s) (hatime : inode.atime = (s.inodeAt ino).atime) :
    mergeBlock (s.disk (s.inodeBlock ino)) (s.withInode ino inode) = s.withInode ino inode := by
  refine ext_mem fun i hi => ?_
  rw [mem_mergeBlock hi]
  split
  · rfl
  rename_i hlast
  rw [withInode, mem_blit hi]
  split
  · -- the last bytes of the block are the access time of its last slot
    have hslot : s.inodeSlot ino = (ino - 1) % 32 := inodeSlot_v2 h.version
    have hbounds : 120 ≤ i - s.inodeSlot ino * 128 ∧ i - s.inodeSlot ino * 128 < 120 + 8 := by
      rw [journalDataSize, onyfsBlockSize] at hlast
      omega
    have hbyte : inode.toBytes (i - s.inodeSlot ino * 128) =
        leByte inode.atime (i - s.inodeSlot ino * 128 - 120) := if_pos hbounds
    have hload : (s.inodeAt ino).atime =
        ((s.disk (s.inodeBlock ino)).view (s.inodeSlot ino * 128)).load 120 8 := by
      rw [inodeAt_v2 h.version]
      rfl
    have hidx : s.inodeSlot ino * 128 + (120 + (i - s.inodeSlot ino * 128 - 120)) = i := by omega
    rw [hbyte, hatime, hload, Memory.load, leByte_leValue _ (by omega), view, hidx]
  · rfl

lemma oneWrite_of_writeInode (h : Between s) (hslot : s.sb.HasSlot ino) (inode : OnyfsInode)
    (hblocks : s.sb.BlocksIn inode) (hatime : inode.atime = (s.inodeAt ino).atime)
    {x : Block}
    (hrun : op.after s = finalState ((writeInode ino inode >>= fun _ => journalCommit) (s.withBuf x))) :
    OneWrite s op := by
  have hroom := h.room
  have hready : (s.withBuf x).JournalReady := journalReady h.sound.areas.toHasJournal hroom
  have hv : (s.withBuf x).version = .v2 := h.sound.version
  have hwrite : writeInode ino inode (s.withBuf x) =
      .ok () (s.logged (s.inodeBlock ino) (s.withInode ino inode)) := writeInode_eq hv hready inode
  have hin := (inTable_of_hasSlot h.sound.areas.table_end h.sound.version hslot).2
  have hev := Evolves.logged_inode h.sound hroom hslot hblocks
  refine ⟨s.inodeBlock ino, s.withInode ino inode, hev, h.sound.areas.table_journal _ hin,
    lt_of_lt_of_le hin.2 h.sound.areas.table_end,
    ne_of_gt (lt_of_lt_of_le h.sound.areas.tableStart_pos hin.1),
    mergeBlock_withInode h.sound hatime, ?_⟩
  rw [hrun, bind_of_ok hwrite]

lemma finalState_bind_pure {α β : Type} (f : FsM α) (k : α → β) (s : Fs) :
    finalState ((f >>= fun a => pure (k a)) s) = finalState (f s) := by
  cases h : f s with
  | ok a t => rw [bind_of_ok h]; rfl
  | error e t => rw [bind_of_error h]; rfl

lemma writeLoop_of_no_byte {data : List UInt8} {off : ℕ}
    (h : data = [] ∨ 10 * onyfsBlockSize ≤ off) (s : Fs) :
    writeLoop data data.length inode 0 off data.length s = .ok (inode, 0) s := by
  cases data with
  | nil => rfl
  | cons c data =>
    have hoff : 10 * onyfsBlockSize ≤ off := h.resolve_left (cons_ne_nil c data)
    have hidx : ¬ off / onyfsBlockSize < 10 :=
      not_lt.mpr ((le_div_iff_mul_le (by decide)).mpr hoff)
    rw [length_cons, writeLoop, if_neg (succ_ne_zero _), dif_neg hidx]
    rfl

lemma Between.removeDirent (h : Between s) (hslot : s.sb.HasSlot ino) (name : List UInt8)
    {x : Block} (hrun : op.after s = finalState
      ((Onyxfs.removeDirent ino name >>= fun _ => journalCommit) (s.withBuf x))) :
    OneWrite s op ∨ ∃ b, op.after s = s.withBuf b := by
  rcases removeDirent_cases (h.sound.withBuf x) hslot name with ⟨e, b, herr⟩ | ⟨hin, i, hi, heq⟩
  · right
    rw [hrun, bind_of_error herr]
    exact ⟨b, rfl⟩
  · left
    have hroom := h.room
    have hready : s.JournalReady := journalReady h.sound.areas.toHasJournal hroom
    have hdir : (s.withBuf x).inodeAt ino = s.inodeAt ino := rfl
    rw [hdir, withBuf_withBuf, withBuf_disk, logBuf_eq hready] at heq
    rw [hdir, withBuf_sb] at hin
    refine ⟨_, _, Evolves.logged_pool h.sound hroom hin _, h.sound.areas.pool_journal _ hin,
      lt_of_lt_of_le hin.2 h.sound.areas.pool_end,
      ne_of_gt (lt_of_lt_of_le h.sound.areas.poolStart_pos hin.1), ?_,
      by rw [hrun, bind_of_ok heq]⟩
    -- the entries of a directory end before the last bytes of its block
    refine ext_mem fun j hj => ?_
    rw [mem_mergeBlock hj]
    split
    · rfl
    · rename_i hlast
      rw [mem_store_of_notMem]
      rintro ⟨-, hhi⟩
      rw [journalDataSize, onyfsBlockSize] at hlast
      omega

lemma Between.oneWrite (h : Between s) (hord : op.Ordinary s) (hop : op.SingleBlock) :
    OneWrite s op ∨ ∃ b, op.after s = s.withBuf b := by
  have hv1 : s.version ≠ .v1 := by simp [h.sound.version]
  cases op with
  | create dirIno name mode => exact hop.elim
  | mkdir dirIno name => exact hop.elim
  | rename oldPath newPath => exact hop.elim
  | truncate ino =>
    left
    refine oneWrite_of_writeInode h hord { s.inodeAt ino with
      size := 0, blocks := fun _ => 0, indirect := 0, doubleIndirect := 0 }
      (blocksIn_zero fun _ => rfl) rfl (x := s.disk (s.inodeBlock ino)) ?_
    rw [Op.after, Op.run, truncate, get_bind, if_neg hv1, bind_of_ok (readInode_eq ino s)]
  | write ino data off =>
    left
    refine oneWrite_of_writeInode h hord { s.inodeAt ino with
      size := max (s.inodeAt ino).size ((off + 0) % u32Size), mtime := s.jiffies.toNat }
      (h.sound.blocksIn ino hord) rfl (x := s.disk (s.inodeBlock ino)) ?_
    have hrun : write ino data off s = ((writeInode ino { s.inodeAt ino with
        size := max (s.inodeAt ino).size ((off + 0) % u32Size), mtime := s.jiffies.toNat } >>=
        fun _ => journalCommit) >>= fun _ => pure 0) (s.withBuf (s.disk (s.inodeBlock ino))) := by
      rw [write, get_bind, if_neg hv1, bind_of_ok (readInode_eq ino s),
        bind_of_ok (writeLoop_of_no_byte hop _), bind_assoc]
      rfl
    rw [Op.after, Op.run, finalState_bind_pure, hrun, finalState_bind_pure]
  | unlink path =>
    by_cases hhead : path.head? ≠ some slash
    · right
      rw [Op.after, Op.run, unlink, if_pos hhead]
      exact ⟨s.buf, rfl⟩
    by_cases hlen : path.length = 1
    · right
      rw [Op.after, Op.run, unlink, if_neg hhead, if_pos hlen]
      exact ⟨s.buf, rfl⟩
    rcases hsplit : splitPath path.tail with ⟨parentPath, filename⟩
    by_cases hname : filename = []
    · right
      rw [Op.after, Op.run, unlink, if_neg hhead, if_neg hlen, hsplit]
      simp only [if_pos hname]
      exact ⟨s.buf, rfl⟩
    have hrun : unlink path s = (parentIno parentPath >>= fun parent =>
        Onyxfs.removeDirent parent filename >>= fun _ => journalCommit) s := by
      rw [unlink, if_neg hhead, if_neg hlen, hsplit]
      simp only [if_neg hname]
    obtain ⟨b, hb⟩ := ReadOnly.parentIno parentPath s
    cases hparent : parentIno parentPath s with
    | ok parent u =>
      rw [hparent] at hb
      have hslot : s.sb.HasSlot parent := hord s.buf parent u (hsplit ▸ hparent)
      refine h.removeDirent hslot filename (x := b) ?_
      rw [Op.after, Op.run, hrun, bind_of_ok hparent, ← hb]
      rfl
    | error e u =>
      rw [hparent] at hb
      right
      rw [Op.after, Op.run, hrun, bind_of_error hparent]
      exact ⟨b, hb⟩

/-! ### Atomicity -/

/-- A freshly mounted image: a sound disk whose journal has no commit. -/
structure Formatted (s : Fs) : Prop where
  sound : Sound s
  journalHead : s.journalHead = 0
  no_commit : ∀ j < s.sb.journalSize, s.entryType j ≠ 2

/-- A completed operation on inodes of the inode table. -/
def Completed (s t : Fs) : Prop := ∃ op : Op, op.Ordinary s ∧ op.run s = .ok () t

lemma between_of_run {s₀ : Fs} (h₀ : Formatted s₀)
    (hrun : Relation.ReflTransGen Completed s₀ s) : Between s := by
  induction hrun with
  | refl => exact ⟨h₀.sound, h₀.journalHead, .inl h₀.no_commit⟩
  | tail _ hstep ih =>
    obtain ⟨op, hord, hr⟩ := hstep
    exact (ih.run hord hr).1

/-- The crash comes before the first write of the operation, behind the last write of an operation
that succeeds, or during an operation that writes one block. -/
def SafeCrash (s : Fs) (op : Op) (p : ℕ) : Prop :=
  p = 0 ∨ op.Ordinary s ∧ (op.SingleBlock ∨ (∃ t, op.run s = .ok () t) ∧ (op.issued s).length ≤ p)

/-- After every run of completed operations, the next operation is atomic for every such crash. -/
theorem atomic_of_run {s₀ : Fs} (h₀ : Formatted s₀) (hrun : Relation.ReflTransGen Completed s₀ s)
    {p : ℕ} (hsafe : SafeCrash s op p) : Atomic s op p := by
  have h := between_of_run h₀ hrun
  rcases hsafe with rfl | ⟨hord, hop | ⟨⟨t, hr⟩, hp⟩⟩
  · exact h.atomic_of_no_write (take_zero ..)
  · rcases h.oneWrite hord hop with hone | ⟨b, hnone⟩
    · exact h.atomic_of_oneWrite hone p
    · refine h.atomic_of_no_write ?_
      have hissued : op.issued s = [] := by
        rw [Op.issued, hnone]
        exact drop_eq_nil_of_le le_rfl
      rw [hissued, take_nil]
  · exact h.atomic_of_completed hord hr hp

/-! ### Crashes on the small disk -/

lemma areas_smallSuper : smallSuper.Areas := by
  refine ⟨layout_smallSuper.toHasJournal, ?_, ?_, ?_, ?_, ?_, ?_, ?_, ?_, ?_, ?_, ?_, ?_, ?_⟩ <;>
    simp [smallSuper, OnyfsSuper.InTable, OnyfsSuper.InJournal, OnyfsSuper.InPool,
      OnyfsSuper.tableBlocks, u32Size, bitsPerBlock, onyfsBlockSize] <;> omega

lemma formatted_smallFs : Formatted smallFs where
  sound := ⟨rfl, areas_smallSuper, by decide, rfl, rfl, zero_le _,
    fun _ hslot => blocksIn_zero fun k => smallFs_blocks hslot k⟩
  journalHead := rfl
  no_commit := (by decide +kernel : ∀ j < 32, smallFs.entryType j ≠ 2)

/-- Creating a file on the small disk: a crash behind the second write leaves the new inode marked
in the bitmap and the inode table as it was. -/
theorem not_atomic_create : Formatted smallFs ∧ ¬ Atomic smallFs (.create 1 [0x61] 0o100644) 2 := by
  refine ⟨formatted_smallFs, ?_⟩
  rintro (hold | hnew)
  · have hout : ¬ smallFs.sb.InJournal 1 := fun hin => absurd hin.1 (by decide)
    have hbyte := congrFun (hold 1 hout) ⟨0, by decide⟩
    revert hbyte
    decide +kernel
  · have hout : ¬ smallFs.sb.InJournal 3 := fun hin => absurd hin.1 (by decide)
    have hbyte := congrFun (hnew 3 hout) ⟨192, by decide⟩
    revert hbyte
    decide +kernel

/-- Truncating the root directory of the small disk is atomic for a crash behind its first write. -/
theorem atomic_truncate_smallFs : Formatted smallFs ∧ Atomic smallFs (.truncate 1) 1 := by
  have hslot : (Op.truncate 1).Ordinary smallFs := (by decide : (1 - 1) / 32 < 1)
  exact ⟨formatted_smallFs, atomic_of_run formatted_smallFs .refl (.inr ⟨hslot, .inl trivial⟩)⟩

end OnyxKernel.Onyxfs
