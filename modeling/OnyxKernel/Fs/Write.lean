import OnyxKernel.Fs.Transaction

/-!
# Writing a file

On a well-formed file system, `write` splices its data into the file and changes no other file.  The
invariant of its loop describes the file system between two rounds: the blocks of the file belong to
it alone, the file has the bytes written so far, and the blocks of the other files are as they were.
-/

namespace OnyxKernel.Onyxfs

open ByteMemory KResult List OnyfsInode Nat Bitmap Buffer Fs

/-- A data block is marked in the data bitmap. -/
def Fs.Marked (s : Fs) (blk : ℕ) : Prop :=
  s.bit s.sb.dataBitmapStart (blk - s.sb.dataBlocksStart) = true

/-- A mounted version 2 file system between two operations. -/
structure WellFormed (s : Fs) : Prop where
  version : s.version = .v2
  /-- The journal is empty. -/
  journalHead : s.journalHead = 0
  layout : s.sb.Layout
  /-- Every block of a file lies in the data area and is marked in the bitmap. -/
  marked : ∀ ino, s.sb.IsInode ino → ∀ k, (s.inodeAt ino).blocks k ≠ 0 →
    s.sb.InData ((s.inodeAt ino).blocks k) ∧ s.Marked ((s.inodeAt ino).blocks k)
  /-- No block is used twice. -/
  unshared : ∀ ino ino', s.sb.IsInode ino → s.sb.IsInode ino' → ∀ k k',
    (s.inodeAt ino).blocks k ≠ 0 → (s.inodeAt ino).blocks k = (s.inodeAt ino').blocks k' → ino = ino' ∧ k = k'
  /-- A clear bit of the bitmap stands for a block of the data area. -/
  free_inside : ∀ i < bitsPerBlock, s.bit s.sb.dataBitmapStart i = false →
    s.sb.InData (s.sb.dataBlocksStart + i)

/-- The contents of a file. -/
def Fs.contents (s : Fs) (ino : ℕ) : List UInt8 := s.fileRange (s.inodeAt ino) 0 (s.inodeAt ino).size

/-- The indices of a file from `fromIdx` on that lie below the offset `stop` and have no block. -/
def holes (inode : OnyfsInode) (fromIdx stop : ℕ) : Finset (Fin 10) :=
  Finset.univ.filter fun k => fromIdx ≤ (k : ℕ) ∧ (k : ℕ) * onyfsBlockSize < stop ∧ inode.blocks k = 0

/-- The number of free blocks. -/
def Fs.freeBlocks (s : Fs) : ℕ := clearCount (s.bit s.sb.dataBitmapStart) bitsPerBlock

/-! ### The loop invariant -/

/-- The state `t` and the inode of a write in progress: `written` bytes of `data` have been written
to the file at `off`, starting from the state `s` and the inode `inode0`. -/
structure Writing (s : Fs) (inode0 : OnyfsInode) (data : List UInt8) (off : ℕ) (t : Fs)
    (inode : OnyfsInode) (written : ℕ) : Prop where
  sb : t.sb = s.sb
  version : t.version = .v2
  jiffies : t.jiffies = s.jiffies
  size : inode.size = inode0.size
  fits : inode.Fits
  ctime : inode.ctime = 0
  table : ∀ x, s.sb.InTable x → t.disk x = s.disk x
  /-- Marked blocks stay marked. -/
  bits : ∀ i, s.bit s.sb.dataBitmapStart i = true → t.bit s.sb.dataBitmapStart i = true
  /-- The blocks of the file are marked blocks of the data area … -/
  own : ∀ k, inode.blocks k ≠ 0 → s.sb.InData (inode.blocks k) ∧
    t.bit s.sb.dataBitmapStart (inode.blocks k - s.sb.dataBlocksStart) = true
  /-- … and different from each other. -/
  injective : ∀ k l, inode.blocks k ≠ 0 → inode.blocks k = inode.blocks l → k = l
  /-- The other marked blocks are not the file's and keep their contents. -/
  frame : ∀ x, s.sb.InData x → s.Marked x → (∀ k, inode0.blocks k ≠ x) →
    (∀ k, inode.blocks k ≠ x) ∧ t.disk x = s.disk x
  bytes : ∀ p, t.fileByte inode p =
    if off ≤ p ∧ p < off + written then data.getD (p - off) 0 else s.fileByte inode0 p

variable {s t : Fs} {inode0 inode : OnyfsInode} {data : List UInt8} {off written ino : ℕ}

lemma WellFormed.writing (h : WellFormed s) (hino : s.sb.IsInode ino) (data : List UInt8)
    (off : ℕ) (b : Block) :
    Writing s (s.inodeAt ino) data off (s.withBuf b) (s.inodeAt ino) 0 where
  sb := rfl
  version := h.version
  jiffies := rfl
  size := rfl
  fits := inodeAt_v2 h.version ▸ fits_fromBytes _
  ctime := by rw [inodeAt_v2 h.version]; rfl
  table _ _ := rfl
  bits _ hi := hi
  own k hk := h.marked ino hino k hk
  injective k l hk hkl := (h.unshared ino ino hino hino k l hk hkl).2
  frame _ _ _ hx := ⟨hx, rfl⟩
  bytes p := by
    have hempty : ¬ (off ≤ p ∧ p < off + 0) := by omega
    rw [if_neg hempty]
    rfl

namespace Writing

lemma fileByte_congr {t' : Fs} {p : ℕ}
    (hd : ∀ h : p / onyfsBlockSize < 10, inode.blocks ⟨p / onyfsBlockSize, h⟩ ≠ 0 →
      t'.disk (inode.blocks ⟨p / onyfsBlockSize, h⟩) = t.disk (inode.blocks ⟨p / onyfsBlockSize, h⟩)) :
    t'.fileByte inode p = t.fileByte inode p := by
  unfold fileByte
  split
  · rename_i h
    split
    · rfl
    · rename_i hne
      rw [hd h hne]
  · rfl

lemma bit_of_free (hw : Writing s inode0 data off t inode written) {i : ℕ}
    (hfree : t.bit s.sb.dataBitmapStart i = false) : s.bit s.sb.dataBitmapStart i = false := by
  by_contra hset
  rw [hw.bits i (Bool.eq_true_of_not_eq_false hset)] at hfree
  exact Bool.noConfusion hfree

lemma ne_of_free (hw : Writing s inode0 data off t inode written) {i : ℕ}
    (hfree : t.bit s.sb.dataBitmapStart i = false) {k : Fin 10} (hk : inode.blocks k ≠ 0) :
    inode.blocks k ≠ s.sb.dataBlocksStart + i := by
  intro heq
  have hmark := (hw.own k hk).2
  rw [heq, Nat.add_sub_cancel_left, hfree] at hmark
  exact Bool.noConfusion hmark

/-- The state after a block has been taken for bit `i` and zeroed. -/
def taken (t : Fs) (i : ℕ) : Fs :=
  (t.logged t.sb.dataBitmapStart (t.withBit t.sb.dataBitmapStart i)).logged
    (t.sb.dataBlocksStart + i) (zero _)

lemma taken_disk (hl : t.sb.Layout) (hroom : t.journalHead + 1 < t.sb.journalSize) {i x : ℕ}
    (hbm : x ≠ t.sb.dataBitmapStart) (hx : x ≠ t.sb.dataBlocksStart + i)
    (hj : ¬ t.sb.InJournal x) : (taken t i).disk x = t.disk x := by
  have hroom' : t.journalHead < t.sb.journalSize := by omega
  unfold taken
  rw [logged_disk, logged_disk hl.toHasJournal hroom' hbm hj]
  · exact hl.toHasJournal
  · exact hroom
  · exact hx
  · exact hj

lemma taken_bit (hl : t.sb.Layout) (hroom : t.journalHead + 1 < t.sb.journalSize) {i : ℕ}
    (hi : i < bitsPerBlock) (hdata : t.sb.InData (t.sb.dataBlocksStart + i)) (j : ℕ) :
    (taken t i).bit t.sb.dataBitmapStart j =
      if j = i then true else t.bit t.sb.dataBitmapStart j := by
  have hne : t.sb.dataBitmapStart ≠ t.sb.dataBlocksStart + i := fun heq =>
    hl.bitmap_data (heq ▸ hdata)
  have hdisk : (taken t i).disk t.sb.dataBitmapStart = t.withBit t.sb.dataBitmapStart i := by
    unfold taken
    rw [Fs.logged_disk, Fs.logged_disk_self]
    · exact hl.toHasJournal
    · exact hroom
    · exact hne
    · exact hl.bitmap_journal
  rw [Fs.bit, hdisk, test_withBit hi]

lemma take (hw : Writing s inode0 data off t inode written) (hs : WellFormed s)
    (hroom : t.journalHead + 1 < t.sb.journalSize) {i : ℕ} (hi : i < bitsPerBlock)
    (hfree : t.bit s.sb.dataBitmapStart i = false) {idx : Fin 10} (hhole : inode.blocks idx = 0) :
    Writing s inode0 data off (taken t i)
      (inode.setBlock idx (s.sb.dataBlocksStart + i)) written := by
  have hl := hs.layout
  have hlt : t.sb.Layout := hw.sb ▸ hl
  have hdata : s.sb.InData (s.sb.dataBlocksStart + i) := hs.free_inside i hi (hw.bit_of_free hfree)
  have hdatat : t.sb.InData (t.sb.dataBlocksStart + i) := by rw [hw.sb]; exact hdata
  have hdisk : ∀ x, x ≠ s.sb.dataBitmapStart → x ≠ s.sb.dataBlocksStart + i → ¬ s.sb.InJournal x →
      (taken t i).disk x = t.disk x := by
    intro x hbm hx hj
    rw [← hw.sb] at hbm hx hj
    exact taken_disk hlt hroom hbm hx hj
  have hbit : ∀ j, (taken t i).bit s.sb.dataBitmapStart j =
      if j = i then true else t.bit s.sb.dataBitmapStart j := by
    intro j
    rw [← hw.sb]
    exact taken_bit hlt hroom hi hdatat j
  have hbits : ∀ j, t.bit s.sb.dataBitmapStart j = true → (taken t i).bit s.sb.dataBitmapStart j = true := by
    intro j hj
    rw [hbit, hj, ite_self]
  refine ⟨hw.sb, hw.version, hw.jiffies, hw.size, ?fits, hw.ctime, ?table,
    fun j hj => hbits j (hw.bits j hj), ?own, ?injective, ?frame, ?bytes⟩
  case fits =>
    have hend : s.sb.dataBlocksStart + i < 256 ^ 4 := lt_of_lt_of_le hdata.2 hl.data_end
    refine { hw.fits with blocks := fun k => ?_ }
    by_cases hkidx : k = idx
    · rwa [hkidx, setBlock_self]
    · rw [setBlock_of_ne _ _ hkidx]
      exact hw.fits.blocks k
  case table =>
    intro x hx
    have hbm : x ≠ s.sb.dataBitmapStart := fun heq => hl.bitmap_table (heq ▸ hx)
    have hne : x ≠ s.sb.dataBlocksStart + i := fun heq => hl.data_table x (heq ▸ hdata) hx
    rw [hdisk x hbm hne (hl.table_journal x hx), hw.table x hx]
  case own =>
    intro k hk
    by_cases hkidx : k = idx
    · rw [hkidx, setBlock_self, Nat.add_sub_cancel_left, hbit, if_pos rfl]
      exact ⟨hdata, rfl⟩
    · simp only [setBlock_of_ne _ _ hkidx] at hk ⊢
      exact ⟨(hw.own k hk).1, hbits _ (hw.own k hk).2⟩
  case injective =>
    intro k l hk hkl
    by_cases hkidx : k = idx
    · by_cases hlidx : l = idx
      · rw [hkidx, hlidx]
      · simp only [hkidx, setBlock_self, setBlock_of_ne _ _ hlidx] at hk hkl
        exact absurd hkl.symm (hw.ne_of_free hfree (hkl ▸ hk))
    · simp only [setBlock_of_ne _ _ hkidx] at hk hkl
      by_cases hlidx : l = idx
      · simp only [hlidx, setBlock_self] at hkl
        exact absurd hkl (hw.ne_of_free hfree hk)
      · simp only [setBlock_of_ne _ _ hlidx] at hkl
        exact hw.injective k l hk hkl
  case frame =>
    intro x hx hmark hout
    obtain ⟨hnot, hsame⟩ := hw.frame x hx hmark hout
    have hne : x ≠ s.sb.dataBlocksStart + i := by
      intro heq
      rw [Fs.Marked, heq, Nat.add_sub_cancel_left, hw.bit_of_free hfree] at hmark
      exact Bool.noConfusion hmark
    have hbm : x ≠ s.sb.dataBitmapStart := fun heq => hl.bitmap_data (heq ▸ hx)
    refine ⟨fun k => ?_, by rw [hdisk x hbm hne (hl.data_journal x hx), hsame]⟩
    by_cases hkidx : k = idx
    · rw [hkidx, setBlock_self]
      exact hne.symm
    · simp only [setBlock_of_ne _ _ hkidx]
      exact hnot k
  case bytes =>
    intro p
    rw [← hw.bytes p]
    unfold fileByte
    by_cases hp : p / onyfsBlockSize < 10
    · rw [dif_pos hp, dif_pos hp]
      by_cases hpidx : (⟨p / onyfsBlockSize, hp⟩ : Fin 10) = idx
      · -- the new block holds zeros, as the hole did
        have hzero : (taken t i).disk (s.sb.dataBlocksStart + i) = zero _ := by
          rw [← hw.sb]
          exact logged_disk_self
        simp only [hpidx, setBlock_self, hhole, if_true, hzero, mem_zero, ite_self]
      · simp only [setBlock_of_ne _ _ hpidx]
        split
        · rfl
        · rename_i hne
          have hin := (hw.own _ hne).1
          have hbm : inode.blocks ⟨p / onyfsBlockSize, hp⟩ ≠ s.sb.dataBitmapStart :=
            fun heq => hl.bitmap_data (heq ▸ hin)
          rw [hdisk _ hbm (hw.ne_of_free hfree hne) (hl.data_journal _ hin)]
    · rw [dif_neg hp, dif_neg hp]

lemma freeBlocks_taken (hl : t.sb.Layout) (hroom : t.journalHead + 1 < t.sb.journalSize) {i : ℕ}
    (hi : i < bitsPerBlock) (hdata : t.sb.InData (t.sb.dataBlocksStart + i))
    (hfree : t.bit t.sb.dataBitmapStart i = false) :
    (taken t i).freeBlocks + 1 = t.freeBlocks :=
  clearCount_set hi hfree (taken_bit hl hroom hi hdata)

/-- The block of the file at `idx` is there after `mapBlock`, which keeps the invariant. -/
theorem mapBlock_eq (hw : Writing s inode0 data off t inode written) (hs : WellFormed s)
    (hroom : t.journalHead + 1 < t.sb.journalSize) (idx : Fin 10)
    (hfree : inode.blocks idx = 0 → 0 < t.freeBlocks) :
    ∃ t' inode', mapBlock inode idx t = .ok inode' t' ∧
      Writing s inode0 data off t' inode' written ∧ inode'.blocks idx ≠ 0 ∧
      (∀ k, k ≠ idx → inode'.blocks k = inode.blocks k) ∧
      t'.journalHead ≤ t.journalHead + 2 ∧
      t.freeBlocks ≤ t'.freeBlocks + if inode.blocks idx = 0 then 1 else 0 := by
  by_cases hhole : inode.blocks idx = 0
  · have hl : t.sb.Layout := hw.sb ▸ hs.layout
    have hready : t.JournalReady := journalReady hl.toHasJournal (by omega)
    obtain ⟨i, hi, hclear, halloc⟩ := allocBit_of_clear hready (hfree hhole)
    have hclear' : t.bit s.sb.dataBitmapStart i = false := hw.sb ▸ hclear
    have hdata : t.sb.InData (t.sb.dataBlocksStart + i) := by
      rw [hw.sb]
      exact hs.free_inside i hi (hw.bit_of_free hclear')
    have hblk : (t.sb.dataBlocksStart + i) % u32Size = t.sb.dataBlocksStart + i :=
      mod_eq_of_lt (lt_of_lt_of_le hdata.2 hl.data_end)
    have htake := hw.take hs hroom hi hclear' hhole
    rw [← hw.sb] at htake
    have hdb : allocDataBlock t = .ok (t.sb.dataBlocksStart + i)
        (t.logged t.sb.dataBitmapStart (t.withBit t.sb.dataBitmapStart i)) := by
      rw [allocDataBlock, get_bind, bind_of_ok halloc, get_bind, pure_apply, logged_sb, hblk]
    have hready' : (t.logged t.sb.dataBitmapStart
        (t.withBit t.sb.dataBitmapStart i)).JournalReady := journalReady hl.toHasJournal hroom
    refine ⟨taken t i, inode.setBlock idx (t.sb.dataBlocksStart + i), ?_, htake, ?_, ?_, le_rfl, ?_⟩
    · rw [mapBlock, if_pos hhole, bind_of_ok hdb, setBuf_bind, bind_of_ok (logBuf_eq hready' _)]
      rfl
    · rw [setBlock_self]
      exact (Nat.add_pos_left hl.dataStart_pos i).ne'
    · exact fun k hk => setBlock_of_ne _ _ hk
    · rw [if_pos hhole, freeBlocks_taken hl hroom hi hdata hclear]
  · refine ⟨t, inode, ?_, hw, hhole, fun _ _ => rfl, le_add_right _ _, le_add_right _ _⟩
    rw [mapBlock, if_neg hhole]
    rfl

private lemma mod_sub_mod {p q : ℕ} (h : p / onyfsBlockSize = q / onyfsBlockSize) :
    p % onyfsBlockSize + q = q % onyfsBlockSize + p := by
  have hp := div_add_mod p onyfsBlockSize
  have hq := div_add_mod q onyfsBlockSize
  rw [h] at hp
  omega

private lemma div_eq_of_mem {p q n : ℕ} (hn : q % onyfsBlockSize + n ≤ onyfsBlockSize)
    (hlo : q ≤ p) (hhi : p < q + n) : p / onyfsBlockSize = q / onyfsBlockSize := by
  have hq := div_add_mod q onyfsBlockSize
  refine Nat.div_eq_of_lt_le ?_ ?_
  · rw [Nat.mul_comm]
    omega
  · rw [succ_mul, mul_comm]
    omega

/-- Writing a chunk of the data to the block of the file at the current offset keeps the
invariant. -/
theorem chunk (hw : Writing s inode0 data off t inode written) (hs : WellFormed s)
    (hroom : t.journalHead < t.sb.journalSize) {idx : Fin 10} {n : ℕ}
    (hidx : (idx : ℕ) = (off + written) / onyfsBlockSize) (hblk : inode.blocks idx ≠ 0)
    (hn : (off + written) % onyfsBlockSize + n ≤ onyfsBlockSize) :
    Writing s inode0 data off
      (t.logged (inode.blocks idx) ((t.disk (inode.blocks idx)).blit
        ((off + written) % onyfsBlockSize) n fun i => data.getD (written + i) 0))
      inode (written + n) := by
  have hl := hs.layout
  have hlt : t.sb.Layout := hw.sb ▸ hl
  have hin := (hw.own idx hblk).1
  set b := (t.disk (inode.blocks idx)).blit ((off + written) % onyfsBlockSize) n
    fun i => data.getD (written + i) 0 with hb
  have hdisk : ∀ x, x ≠ inode.blocks idx → ¬ s.sb.InJournal x →
      (t.logged (inode.blocks idx) b).disk x = t.disk x := by
    intro x hx hj
    rw [← hw.sb] at hj
    exact logged_disk hlt.toHasJournal hroom hx hj
  have hbm : s.sb.dataBitmapStart ≠ inode.blocks idx := fun heq => hl.bitmap_data (heq ▸ hin)
  have hbit : ∀ j, (t.logged (inode.blocks idx) b).bit s.sb.dataBitmapStart j =
      t.bit s.sb.dataBitmapStart j := by
    intro j
    rw [Fs.bit, hdisk _ hbm hl.bitmap_journal, Fs.bit]
  refine ⟨hw.sb, hw.version, hw.jiffies, hw.size, hw.fits, hw.ctime, ?table, ?bits, ?own,
    hw.injective, ?frame, ?bytes⟩
  case table =>
    intro x hx
    have hne : x ≠ inode.blocks idx := fun heq => hl.data_table x (heq ▸ hin) hx
    rw [hdisk x hne (hl.table_journal x hx), hw.table x hx]
  case bits =>
    intro j hj
    rw [hbit]
    exact hw.bits j hj
  case own =>
    intro k hk
    rw [hbit]
    exact hw.own k hk
  case frame =>
    intro x hx hmark hout
    obtain ⟨hnot, hsame⟩ := hw.frame x hx hmark hout
    exact ⟨hnot, by rw [hdisk x (hnot idx).symm (hl.data_journal x hx), hsame]⟩
  case bytes =>
    intro p
    by_cases hp : p / onyfsBlockSize = (off + written) / onyfsBlockSize
    · -- the byte lies in the block just written
      have hp10 : p / onyfsBlockSize < 10 := by
        rw [hp, ← hidx]
        exact idx.isLt
      have hpidx : (⟨p / onyfsBlockSize, hp10⟩ : Fin 10) = idx := Fin.ext (by rw [hidx, ← hp])
      have hcmp := mod_sub_mod hp
      have hnew : (t.logged (inode.blocks idx) b).fileByte inode p = b.mem (p % onyfsBlockSize) := by
        rw [fileByte, dif_pos hp10, hpidx, if_neg hblk, logged_disk_self]
      have hold : t.fileByte inode p = (t.disk (inode.blocks idx)).mem (p % onyfsBlockSize) := by
        rw [fileByte, dif_pos hp10, hpidx, if_neg hblk]
      rw [hnew, hb, mem_blit (mod_lt p (by decide)), ← hold, hw.bytes p]
      by_cases hrange : off + written ≤ p ∧ p < off + written + n
      · have hin : (off + written) % onyfsBlockSize ≤ p % onyfsBlockSize ∧
            p % onyfsBlockSize < (off + written) % onyfsBlockSize + n := by omega
        have hall : off ≤ p ∧ p < off + (written + n) := by omega
        have hsub : written + (p % onyfsBlockSize - (off + written) % onyfsBlockSize) = p - off := by
          omega
        rw [if_pos hin, if_pos hall, hsub]
      · have hout : ¬ ((off + written) % onyfsBlockSize ≤ p % onyfsBlockSize ∧
            p % onyfsBlockSize < (off + written) % onyfsBlockSize + n) := by omega
        have hsame : (off ≤ p ∧ p < off + (written + n)) ↔ (off ≤ p ∧ p < off + written) := by omega
        rw [if_neg hout]
        simp only [hsame]
    · have hsame : (off ≤ p ∧ p < off + (written + n)) ↔ (off ≤ p ∧ p < off + written) := by
        refine and_congr_right fun hlo => ⟨fun hhi => ?_, by omega⟩
        by_contra hle
        exact hp (div_eq_of_mem hn (not_lt.mp hle) (by omega))
      simp only [hsame]
      rw [← hw.bytes p]
      refine fileByte_congr fun hp10 hne => hdisk _ ?_ (hl.data_journal _ (hw.own _ hne).1)
      intro heq
      have hpidx := hw.injective _ _ hne heq
      exact hp (by rw [← hidx, ← hpidx])

lemma freeBlocks_logged (hl : t.sb.Layout) (hroom : t.journalHead < t.sb.journalSize) {blk : ℕ}
    (hin : t.sb.InData blk) (b : Block) : (t.logged blk b).freeBlocks = t.freeBlocks := by
  have hne : t.sb.dataBitmapStart ≠ blk := fun heq => hl.bitmap_data (heq ▸ hin)
  unfold Fs.freeBlocks Fs.bit
  rw [logged_sb, logged_disk hl.toHasJournal hroom hne hl.bitmap_journal]

lemma mem_holes {idx : Fin 10} {stop : ℕ} (hstop : (idx : ℕ) * onyfsBlockSize < stop)
    (hhole : inode.blocks idx = 0) : idx ∈ holes inode idx stop :=
  Finset.mem_filter.mpr ⟨Finset.mem_univ idx, le_rfl, hstop, hhole⟩

/-- Once the block at `idx` is there, the holes behind it are the remaining ones. -/
theorem card_holes_succ {inode' : OnyfsInode} {idx : Fin 10} {stop : ℕ}
    (hstop : (idx : ℕ) * onyfsBlockSize < stop)
    (hsame : ∀ k, k ≠ idx → inode'.blocks k = inode.blocks k) :
    (holes inode' (idx + 1) stop).card + (if inode.blocks idx = 0 then 1 else 0) ≤
      (holes inode idx stop).card := by
  have hsub : holes inode' (idx + 1) stop ⊆ (holes inode idx stop).erase idx := by
    intro k hk
    obtain ⟨hlo, hhi, hhole⟩ := (Finset.mem_filter.mp hk).2
    have hne : k ≠ idx := fun heq => by rw [heq] at hlo; omega
    rw [hsame k hne] at hhole
    exact Finset.mem_erase.mpr ⟨hne, Finset.mem_filter.mpr ⟨Finset.mem_univ k, by omega, hhi, hhole⟩⟩
  have hcard := Finset.card_le_card hsub
  split
  · rename_i hhole
    have herase := Finset.card_erase_add_one (mem_holes hstop hhole)
    omega
  · exact hcard.trans (Finset.card_erase_le)

/-- The loop of `write` writes all of the data that fits below the largest file size. -/
theorem writeLoop_eq (hs : WellFormed s) (fuel remaining : ℕ)
    (hw : Writing s inode0 data off t inode written) (hfuel : remaining ≤ fuel)
    (hoff : off + written ≤ 10 * onyfsBlockSize)
    (hhead : 0 < remaining → t.journalHead ≤ 3 * ((off + written) / onyfsBlockSize))
    (hhead30 : t.journalHead ≤ 30)
    (hfree : 0 < remaining → (holes inode ((off + written) / onyfsBlockSize)
      (off + written + remaining)).card ≤ t.freeBlocks) :
    ∃ t' inode', writeLoop data fuel inode written (off + written) remaining t =
        .ok (inode', written + min remaining (10 * onyfsBlockSize - (off + written))) t' ∧
      Writing s inode0 data off t' inode'
        (written + min remaining (10 * onyfsBlockSize - (off + written))) ∧
      t'.journalHead ≤ 30 := by
  induction fuel generalizing t inode written remaining with
  | zero =>
    obtain rfl : remaining = 0 := le_zero.mp hfuel
    exact ⟨t, inode, rfl, hw, hhead30⟩
  | succ fuel ih =>
    rcases Nat.eq_zero_or_pos remaining with rfl | hpos
    · rw [zero_min, add_zero]
      exact ⟨t, inode, rfl, hw, hhead30⟩
    rw [writeLoop, if_neg hpos.ne']
    by_cases hidx : (off + written) / onyfsBlockSize < 10
    swap
    · -- the file has no block behind its tenth
      have hge : 10 * onyfsBlockSize ≤ off + written :=
        (le_div_iff_mul_le (by decide)).mp (not_lt.mp hidx)
      have hzero : 10 * onyfsBlockSize - (off + written) = 0 := Nat.sub_eq_zero_of_le hge
      rw [dif_neg hidx, hzero, min_zero, add_zero]
      exact ⟨t, inode, rfl, hw, hhead30⟩
    rw [dif_pos hidx]
    have hlt : t.sb.Layout := hw.sb ▸ hs.layout
    have hsize := hlt.journalSize_ge
    have hdm := div_add_mod (off + written) onyfsBlockSize
    have hmod : (off + written) % onyfsBlockSize < onyfsBlockSize := mod_lt _ (by decide)
    have hfree' := hfree hpos
    have hstop : (off + written) / onyfsBlockSize * onyfsBlockSize < off + written + remaining :=
      lt_of_le_of_lt (div_mul_le_self _ _) (by omega)
    -- the block is allocated if it is not there yet
    have havail : inode.blocks ⟨(off + written) / onyfsBlockSize, hidx⟩ = 0 → 0 < t.freeBlocks :=
      fun hhole => lt_of_lt_of_le (Finset.card_pos.mpr
        ⟨_, @mem_holes inode ⟨(off + written) / onyfsBlockSize, hidx⟩ _ hstop hhole⟩) hfree'
    obtain ⟨t1, inode1, hmap, hw1, hblk, hsame, hhead1, hfree1⟩ :=
      hw.mapBlock_eq hs (by omega) ⟨(off + written) / onyfsBlockSize, hidx⟩ havail
    have hholes : (holes inode1 ((off + written) / onyfsBlockSize + 1) (off + written + remaining)).card +
          (if inode.blocks ⟨(off + written) / onyfsBlockSize, hidx⟩ = 0 then 1 else 0) ≤
        (holes inode ((off + written) / onyfsBlockSize) (off + written + remaining)).card :=
      @card_holes_succ inode inode1 ⟨_, hidx⟩ _ hstop hsame
    have hlt1 : t1.sb.Layout := hw1.sb ▸ hs.layout
    have hroom1 : t1.journalHead < t1.sb.journalSize := by
      have hsize1 := hlt1.journalSize_ge
      omega
    generalize hchunk : min (onyfsBlockSize - (off + written) % onyfsBlockSize) remaining = n
    -- the chunk is written to it
    have hw2 := hw1.chunk hs hroom1 rfl hblk (n := n) (by omega)
    have hdata : t1.sb.InData (inode1.blocks ⟨(off + written) / onyfsBlockSize, hidx⟩) := by
      rw [hw1.sb]
      exact (hw1.own _ hblk).1
    have hfree2 := freeBlocks_logged hlt1 hroom1 hdata
    have hready : t1.JournalReady := journalReady hlt1.toHasJournal hroom1
    rw [bind_of_ok hmap]
    simp only [hchunk]
    rw [readBuf_bind, get_bind, setBuf_bind, withBuf_withBuf, withBuf_buf,
      bind_of_ok (logBuf_eq hready _)]
    have hidx10 : onyfsBlockSize * ((off + written) / onyfsBlockSize) + onyfsBlockSize ≤
        10 * onyfsBlockSize := by
      exact mul_le_mul_left _ hidx
    -- when data is left, the next offset is the start of the next block
    have hnext : n < remaining → (off + (written + n)) / onyfsBlockSize =
        (off + written) / onyfsBlockSize + 1 := by
      intro hlt
      have hsum : off + (written + n) = onyfsBlockSize * ((off + written) / onyfsBlockSize + 1) := by
        rw [mul_succ]
        omega
      rw [hsum, Nat.mul_div_cancel_left _ (by decide)]
    have hrest : written + n + min (remaining - n) (10 * onyfsBlockSize - (off + (written + n))) =
        written + min remaining (10 * onyfsBlockSize - (off + written)) := by omega
    rw [← hrest, add_assoc off]
    refine ih (remaining - n) hw2 (by omega) (by omega) ?_ ?_ ?_
    · intro hlt
      rw [hnext (by omega), logged_journalHead]
      omega
    · rw [logged_journalHead]
      omega
    · intro hlt
      have hstop' : off + (written + n) + (remaining - n) = off + written + remaining := by omega
      rw [hnext (by omega), hstop', hfree2]
      omega

end Writing

/-! ### The whole operation -/

/-- The inode at the end of a write. -/
def finalInode (inode : OnyfsInode) (stop : ℕ) (now : UInt64) : OnyfsInode :=
  { inode with size := max inode.size stop, mtime := now.toNat }

/-- The state at the end of a write: the inode is written and the transaction committed. -/
def finished (t : Fs) (ino : ℕ) (inode : OnyfsInode) : Fs :=
  (t.logged (t.inodeBlock ino) (t.withInode ino inode)).committed

/-- On a well-formed file system with enough free blocks, `write` runs to its end. -/
theorem write_eq (h : WellFormed s) (hino : s.sb.IsInode ino)
    (hsize : (s.inodeAt ino).size ≤ 10 * onyfsBlockSize) (hoff : off ≤ (s.inodeAt ino).size)
    (hfree : (holes (s.inodeAt ino) (off / onyfsBlockSize) (off + data.length)).card ≤
      s.freeBlocks) {n : ℕ} (hn : min data.length (10 * onyfsBlockSize - off) = n) :
    ∃ t inode, Writing s (s.inodeAt ino) data off t inode n ∧ t.journalHead ≤ 30 ∧
      write ino data off s = .ok n (finished t ino (finalInode inode (off + n) s.jiffies)) := by
  have hw := h.writing hino data off (s.disk (s.inodeBlock ino))
  have hhead0 : (s.withBuf (s.disk (s.inodeBlock ino))).journalHead = 0 := h.journalHead
  obtain ⟨t, inode, hloop, hwt, hhead⟩ := hw.writeLoop_eq h data.length data.length le_rfl
    (hoff.trans hsize) (fun _ => hhead0.le.trans (zero_le _)) (hhead0.le.trans (zero_le _))
    (fun _ => hfree)
  rw [add_zero, zero_add, hn] at hloop hwt
  refine ⟨t, inode, hwt, hhead, ?_⟩
  have hl : t.sb.Layout := hwt.sb ▸ h.layout
  have hroom := hl.journalSize_ge
  have hstop : (off + n) % u32Size = off + n := by
    rw [onyfsBlockSize] at hsize hn
    rw [u32Size]
    omega
  have hv1 : s.version ≠ .v1 := by simp [h.version]
  have hready : t.JournalReady := journalReady hl.toHasJournal (by omega)
  have hinode : writeInode ino (finalInode inode (off + n) s.jiffies) t = .ok ()
      (t.logged (t.inodeBlock ino) (t.withInode ino (finalInode inode (off + n) s.jiffies))) :=
    writeInode_eq hwt.version hready _
  have hcommit : journalCommit (t.logged (t.inodeBlock ino)
      (t.withInode ino (finalInode inode (off + n) s.jiffies))) =
      .ok () (finished t ino (finalInode inode (off + n) s.jiffies)) := by
    refine journalCommit_eq (journalReady hl.toHasJournal ?_) (succ_ne_zero _)
    rw [logged_journalHead, logged_sb]
    omega
  rw [write, get_bind, if_neg hv1, bind_of_ok (readInode_eq ino s), bind_of_ok hloop]
  simp only [get_bind, hstop, hwt.jiffies]
  exact (bind_of_ok hinode).trans (bind_of_ok hcommit)

section Finished

variable {n : ℕ}

lemma finished_disk_eq (hl : t.sb.Layout) (hhead : t.journalHead ≤ 30) {x : ℕ} (hj : ¬ t.sb.InJournal x) :
    (finished t ino inode).disk x = (t.logged (t.inodeBlock ino) (t.withInode ino inode)).disk x := by
  have hroom := hl.journalSize_ge
  unfold finished
  rw [committed_disk]
  · exact hl.toHasJournal
  · rw [logged_journalHead, logged_sb]
    omega
  · exact hj

lemma finished_disk (hl : t.sb.Layout) (hhead : t.journalHead ≤ 30) {x : ℕ}
    (hx : x ≠ t.inodeBlock ino) (hj : ¬ t.sb.InJournal x) :
    (finished t ino inode).disk x = t.disk x := by
  have hroom := hl.journalSize_ge
  rw [finished_disk_eq hl hhead hj, logged_disk hl.toHasJournal (by omega) hx hj]

lemma finished_disk_inodeBlock (hl : t.sb.Layout) (hhead : t.journalHead ≤ 30)
    (hj : ¬ t.sb.InJournal (t.inodeBlock ino)) :
    (finished t ino inode).disk (t.inodeBlock ino) = t.withInode ino inode := by
  rw [finished_disk_eq hl hhead hj, logged_disk_self]

lemma inodeAt_finished (hl : t.sb.Layout) (hv : t.version = .v2) (hhead : t.journalHead ≤ 30)
    (hino : t.sb.IsInode ino) (hfits : inode.Fits) (hctime : inode.ctime = 0) :
    (finished t ino inode).inodeAt ino = inode := by
  have hj : ¬ t.sb.InJournal (t.inodeBlock ino) :=
    hl.table_journal _ (inTable_inodeBlock hl hv hino).2
  rw [inodeAt_written (t := finished t ino inode) hv rfl rfl (finished_disk_inodeBlock hl hhead hj),
    fromBytes_toBytes hfits, ← hctime]

lemma inodeAt_finished_of_ne (hl : t.sb.Layout) (hv : t.version = .v2)
    (hhead : t.journalHead ≤ 30) {ino' : ℕ} (hino' : t.sb.IsInode ino') (hino : t.sb.IsInode ino)
    (hne : ino' ≠ ino) : (finished t ino inode).inodeAt ino' = t.inodeAt ino' := by
  have hj : ∀ i, t.sb.IsInode i → ¬ t.sb.InJournal (t.inodeBlock i) := fun i hi =>
    hl.table_journal _ (inTable_inodeBlock hl hv hi).2
  have hself : (finished t ino inode).disk (t.inodeBlock ino) = t.withInode ino inode :=
    finished_disk_inodeBlock hl hhead (hj ino hino)
  exact inodeAt_written_of_ne (t := finished t ino inode) hv rfl rfl hself hl.table_end hino.hasSlot hino'.hasSlot
    (hino.pred_ne hino' hne) fun hblk => finished_disk hl hhead hblk (hj ino' hino')

end Finished

/-- The list `l` with the bytes from `off` on replaced by `new`. -/
def splice (l new : List UInt8) (off : ℕ) : List UInt8 :=
  l.take off ++ new ++ l.drop (off + new.length)

lemma splice_map_range {f g : ℕ → UInt8} {size n : ℕ} (hoff : off ≤ size) (hn : n ≤ data.length)
    (hg : ∀ p, g p = if off ≤ p ∧ p < off + n then data.getD (p - off) 0 else f p) :
    (range (max size (off + n))).map g = splice ((range size).map f) (data.take n) off := by
  have htake : (data.take n).length = n := by rw [length_take, min_eq_left hn]
  have hlen : ((range size).map f).length = size := by rw [length_map, length_range]
  refine ext_getElem ?_ fun p hp hp' => ?_
  · simp only [splice, length_append, length_take, length_drop, length_map, length_range, htake]
    omega
  rw [getElem_map, getElem_range, hg p]
  simp only [splice, append_assoc]
  by_cases hlo : p < off
  · have hleft : p < (((range size).map f).take off).length := by
      rw [length_take, hlen]
      omega
    have hout : ¬ (off ≤ p ∧ p < off + n) := by omega
    rw [if_neg hout, getElem_append_left hleft, getElem_take, getElem_map, getElem_range]
  · have hleft : (((range size).map f).take off).length = off := by
      rw [length_take, hlen, min_eq_left hoff]
    rw [getElem_append_right (by omega)]
    by_cases hhi : p < off + n
    · have hin : off ≤ p ∧ p < off + n := ⟨not_lt.mp hlo, hhi⟩
      have hdata : p - off < data.length := by omega
      rw [if_pos hin, getElem_append_left (by omega), getElem_take, getD_eq_getElem data 0 hdata]
      simp only [hleft]
    · have hout : ¬ (off ≤ p ∧ p < off + n) := by omega
      have hidx : off + (data.take n).length +
          (p - (((range size).map f).take off).length - (data.take n).length) = p := by omega
      rw [if_neg hout, getElem_append_right (by omega), getElem_drop, getElem_map, getElem_range]
      rw [hidx]

/-! ### The effect of a write -/

lemma contents_congr {u : Fs} {ino' : ℕ} (hinode : u.inodeAt ino' = s.inodeAt ino')
    (hdisk : ∀ k, (s.inodeAt ino').blocks k ≠ 0 →
      u.disk ((s.inodeAt ino').blocks k) = s.disk ((s.inodeAt ino').blocks k)) :
    u.contents ino' = s.contents ino' := by
  unfold contents
  rw [hinode]
  exact map_congr_left fun i _ => Writing.fileByte_congr fun h hne => hdisk _ hne

/-! ### A small disk -/

/-- The superblock of a disk of 40 blocks: two bitmap blocks, one block of inodes, a journal of 32
slots and four data blocks. -/
def smallSuper : OnyfsSuper where
  magic := onyfsMagic
  blockSize := onyfsBlockSize
  totalBlocks := 40
  inodeCount := 2
  inodeTableStart := 3
  dataBitmapStart := 2
  dataBlocksStart := 36
  journalStart := 4
  journalSize := 32

/-- The first block of the small disk. -/
def smallSuperBlock : Block :=
  let b := (zero onyfsBlockSize).store 0 4 onyfsMagic
  let b := ((b.store 8 4 onyfsBlockSize).store 12 4 40).store 16 4 2
  let b := ((b.store 20 4 3).store 24 4 2).store 28 4 36
  (b.store 44 4 4).store 48 4 32

/-- The small disk after mounting.  Its root directory, inode 1, has no block yet; inode 2 and all
four data blocks are free. -/
def smallFs : Fs where
  disk := fun blk =>
    if blk = 0 then smallSuperBlock
    else if blk = 1 then fun i => if i.val = 0 then 0xFD else 0xFF
    else if blk = 2 then fun i => if i.val = 0 then 0xF0 else 0xFF
    else zero _
  buf := zero _
  sb := smallSuper
  version := .v2
  journalHead := 0
  jiffies := 7
  writes := []

lemma layout_smallSuper : smallSuper.Layout := by
  have hjournal : smallSuper.HasJournal := ⟨by decide, by decide, by decide⟩
  refine ⟨hjournal, ?_, ?_, ?_, ?_, ?_, ?_, ?_, ?_, ?_, ?_⟩ <;>
    simp [smallSuper, OnyfsSuper.InTable, OnyfsSuper.InJournal, OnyfsSuper.InData,
      OnyfsSuper.tableBlocks, u32Size] <;> omega

lemma smallFs_load {ino : ℕ} (hino : smallSuper.HasSlot ino) (off a w : ℕ) :
    ((smallFs.disk (smallFs.inodeBlock ino)).view off).load a w = 0 := by
  have hblock : smallFs.inodeBlock ino = 3 := by
    have hlt : (ino - 1) / 32 < 1 := hino
    change (3 + (ino - 1) / 32) % 2 ^ 32 = 3
    omega
  rw [hblock]
  exact Memory.load_eq_zero fun i _ => mem_zero _ _

lemma smallFs_blocks {ino : ℕ} (hino : smallSuper.HasSlot ino) (k : Fin 10) :
    (smallFs.inodeAt ino).blocks k = 0 := by
  exact smallFs_load hino _ _ _

lemma smallFs_free {i : ℕ} (hi : i < bitsPerBlock) (h : smallFs.bit 2 i = false) : i < 4 := by
  have hbyte : (smallFs.disk 2).mem (i / 8) = if i / 8 = 0 then 0xF0 else 0xFF := by
    have hlt : i / 8 < onyfsBlockSize := by
      rw [bitsPerBlock] at hi
      omega
    exact dif_pos hlt
  have hfull : ∀ j < 8, getBit 0xFF j = true := by decide
  have hfirst : ∀ j < 8, getBit 0xF0 j = false → j < 4 := by decide
  have hmod : i % 8 < 8 := mod_lt i (by decide)
  rw [Fs.bit, test, zero_add, hbyte] at h
  split at h
  · rename_i hzero
    have := hfirst _ hmod h
    omega
  · rw [hfull _ hmod] at h
    cases h

lemma wellFormed_smallFs : WellFormed smallFs where
  version := rfl
  journalHead := rfl
  layout := layout_smallSuper
  marked _ hino k hk := absurd (smallFs_blocks hino.hasSlot k) hk
  unshared _ _ hino _ k _ hk _ := absurd (smallFs_blocks hino.hasSlot k) hk
  free_inside i hi hfree := by
    have h4 := smallFs_free hi hfree
    exact ⟨Nat.le_add_right _ _, Nat.add_lt_add_left h4 36⟩

end OnyxKernel.Onyxfs
