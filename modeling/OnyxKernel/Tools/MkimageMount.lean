import OnyxKernel.Fs.Crash
import OnyxKernel.Tools.MkimageLayout

/-!
# Mounting an image of `mkimage`

An image of version 2 is the contents of a disk.  The passes behind the superblock write behind it, so that the
mount of the disk finds the layout of the image in its superblock (`super_of_mkimage`, `exists_mount`).
-/

namespace OnyxKernel

open ByteMemory Onyxfs KResult List Nat OnyfsSuper Fs

namespace Mkimage

variable {v1 : Bool} {img img' : Image} {off K : ℕ} {t : Tree} {now : ℕ → ℕ}

/-- The disk with the bytes of an image. -/
def Image.disk (img : Image) : ℕ → Block := fun blk => Buffer.ofMem _ fun i => img.mem (blk * onyfsBlockSize + i)

/-! ### The first bytes -/

lemma table_blocks_writesFrom (ht : t.nextIno < u32Size) (hK : K ≤ 3 * onyfsBlockSize)
    (hslots : ∀ ino ∈ t.inodes, K ≤ slotOffset v1 (t.layout v1).inodeTableStart ino)
    {img1 img2 : Image} (htable : writeTable v1 now t (t.layout v1) img1 = some img2)
    (hblocks : writeBlocks v1 t (t.layout v1) img2 = some img) (hsize : img2.size = (t.layout v1).imgSize) :
    Image.WritesFrom K img1 img := by
  have hlt := lt_of_writeBlocks ht hsize hblocks
  rw [Tree.dataBlocks, ← add_assoc] at hlt
  obtain ⟨p, hdirs, hfiles⟩ := Option.bind_eq_some_iff.mp htable
  obtain ⟨q, hdirs', hfiles'⟩ := Option.bind_eq_some_iff.mp hblocks
  have h1 := writeTableDirs_writesFrom (fun d hd => hslots _ (mem_append_left _ (mem_map_of_mem hd))) hdirs
  have h2 := writeTableFiles_writesFrom (fun f hf => hslots _ (mem_append_right _ (mem_map_of_mem hf))) hfiles
  obtain ⟨hrun, hnext⟩ := writeDirs_run hdirs' (by omega)
  rw [hnext] at hfiles'
  have hrun' := hrun.append (writeFiles_run hfiles' hlt)
  refine (h1.trans h2).trans ⟨hrun'.size_eq, fun x hx => hrun'.run.eq_of_notMem fun j hj hmem => ?_⟩
  have hge := ((ordered_blockJobs t v1).region_subset j hj hmem).1
  have := (le_dataBlocksStart t v1).1
  unfold onyfsBlockSize at *
  omega

/-! ### The superblock -/

/-- The superblock of an image. -/
def Tree.super (t : Tree) (now : ℕ) : OnyfsSuper where
  magic := onyfsMagic
  version := 2
  blockSize := onyfsBlockSize
  totalBlocks := (t.layout false).totalBlocks
  inodeCount := t.nextIno
  inodeTableStart := 3
  dataBitmapStart := 2
  dataBlocksStart := (t.layout false).dataBlocksStart
  rootInode := 1
  snapshotAreaStart := (t.layout false).snapshotStart
  snapshotCount := 0
  journalStart := (t.layout false).journalStart
  journalSize := 32
  featureFlags := 0xB
  creationTime := now % 256 ^ 8
  lastMountTime := 0

lemma slotOffset_ge (v1 : Bool) (ino : ℕ) (t : Tree) :
    onyfsBlockSize ≤ slotOffset v1 (t.layout v1).inodeTableStart ino := by
  have htable : (t.layout v1).inodeTableStart = 3 := rfl
  cases v1 <;> simp only [slotOffset, htable, inodeSize, onyfsBlockSize, Bool.false_eq_true, if_true, if_false] <;> omega

/-- The words of the superblock. -/
def Tree.superWords (t : Tree) : List ℕ :=
  [onyfsMagic, 2, 4096, (t.layout false).totalBlocks, t.nextIno, 3, 2, (t.layout false).dataBlocksStart, 1,
    (t.layout false).snapshotStart, 0, (t.layout false).journalStart, 32, 0xB]

lemma superWords_lt (ht : t.nextIno < u32Size) : ∀ w ∈ t.superWords, w < u32Size := by
  have hstart := dataBlocksStart_lt ht false
  have htotal : (t.layout false).totalBlocks < u32Size := mod_lt _ (by decide)
  have hsnap : (t.layout false).snapshotStart ≤ (t.layout false).dataBlocksStart := by
    simp [Tree.layout]
    omega
  have hjournal : (t.layout false).journalStart ≤ (t.layout false).dataBlocksStart := by
    simp [Tree.layout]
  have hsmall : (onyfsMagic < u32Size) := by decide
  intro w hw
  simp only [Tree.superWords, mem_cons, not_mem_nil, or_false] at hw
  unfold u32Size at *
  omega

lemma exists_first_stage (ht : t.nextIno < u32Size) (h : mkimage v1 now t = some img) :
    ∃ img0, writeSuper v1 now t { size := (t.layout v1).imgSize, mem := fun _ => 0 } = some img0 ∧
      Image.KeepsBelow onyfsBlockSize img0 img := by
  obtain ⟨img0, img1, img2, h0, h1, h2, h3, hsize⟩ := stages_of_mkimage h
  obtain ⟨imgb, hb, hb'⟩ := Option.bind_eq_some_iff.mp h1
  exact ⟨img0, h0, (((setBits_writesFrom le_rfl hb).trans (setBits_writesFrom (by decide) hb')).trans
    (table_blocks_writesFrom ht (by decide) (fun ino _ => slotOffset_ge v1 ino t) h2 h3 hsize)).keepsBelow⟩

lemma disk_of_mkimage (ht : t.nextIno < u32Size) (h : mkimage v1 now t = some img) (bytes : List UInt8)
    (hbytes : ∀ img0 : Image, writeSuper v1 now t img0 = img0.copy 0 bytes) (hlen : bytes.length ≤ onyfsBlockSize) :
    (img.disk 0).mem.Holds 0 bytes ∧
      ∀ a, bytes.length ≤ a → a + 4 ≤ onyfsBlockSize → (img.disk 0).mem.load a 4 = 0 := by
  obtain ⟨img0, h0, hkeep⟩ := exists_first_stage ht h
  rw [hbytes] at h0
  have hrun := (copy_eq_some h0).1.run
  have hdisk : ∀ i < onyfsBlockSize, (img.disk 0).mem i = img0.mem i := fun i hi => by
    rw [Image.disk, Buffer.mem_ofMem hi, zero_mul, zero_add, hkeep i hi]
  refine ⟨fun i hi => ?_, fun a ha ha' => Memory.load_eq_zero fun i hi => ?_⟩
  · rw [hdisk _ (by omega)]
    exact hrun.post (pairwise_singleton _ _) _ mem_cons_self i hi
  · rw [hdisk _ (by omega), hrun.eq_of_notMem fun j hj hmem => ?_]
    obtain rfl := mem_singleton.mp hj
    have := hmem.2
    omega

lemma super_of_mkimage (ht : t.nextIno < u32Size) (h : mkimage false now t = some img) :
    fromBytes (img.disk 0).mem = some (t.super (now 0)) := by
  have hlen : (t.superWords.flatMap (leBytes 4) ++ leBytes 8 (now 0) ++ replicate 64 0).length = 128 := by
    simp [Tree.superWords]
  obtain ⟨hholds, -⟩ := disk_of_mkimage ht h _ (fun _ => rfl) (hlen.trans_le (by decide))
  have hword : ∀ (i w : ℕ), t.superWords[i]? = some w → (img.disk 0).mem.load (0 + i * 4) 4 = w :=
    fun i w hi => load_of_holds hholds.left.left (superWords_lt ht) hi
  have hcreation : (img.disk 0).mem.load 56 8 = now 0 % 256 ^ 8 := by
    have hright := hholds.left.right
    exact hright.load_eq
  have hmount : (img.disk 0).mem.load 64 8 = 0 := by
    have hright := hholds.right
    refine Memory.load_eq_zero fun i hi => ?_
    have hbyte := hright i (by rw [length_replicate]; omega)
    rw [getElem_replicate] at hbyte
    exact hbyte
  have hmagic : (img.disk 0).mem.load 0 4 = onyfsMagic := hword 0 _ rfl
  rw [fromBytes, if_neg (by rw [hmagic]; exact fun hne => hne.1 rfl), hmagic, hcreation, hmount,
    show (img.disk 0).mem.load 4 4 = 2 from hword 1 _ rfl, show (img.disk 0).mem.load 8 4 = 4096 from hword 2 _ rfl,
    show (img.disk 0).mem.load 12 4 = _ from hword 3 _ rfl, show (img.disk 0).mem.load 16 4 = _ from hword 4 _ rfl,
    show (img.disk 0).mem.load 20 4 = _ from hword 5 _ rfl, show (img.disk 0).mem.load 24 4 = _ from hword 6 _ rfl,
    show (img.disk 0).mem.load 28 4 = _ from hword 7 _ rfl, show (img.disk 0).mem.load 32 4 = _ from hword 8 _ rfl,
    show (img.disk 0).mem.load 36 4 = _ from hword 9 _ rfl, show (img.disk 0).mem.load 40 4 = _ from hword 10 _ rfl,
    show (img.disk 0).mem.load 44 4 = _ from hword 11 _ rfl, show (img.disk 0).mem.load 48 4 = _ from hword 12 _ rfl,
    show (img.disk 0).mem.load 52 4 = _ from hword 13 _ rfl]
  rfl

lemma superV1_of_mkimage (ht : t.nextIno < u32Size) (h : mkimage true now t = some img) :
    ∃ sb, fromBytes (img.disk 0).mem = some sb ∧ sb.blockSize = onyfsBlockSize ∧ sb.snapshotAreaStart = 0 ∧
      sb.snapshotCount = 0 := by
  obtain ⟨words, hwords⟩ : ∃ words, words = [onyfsMagicV1, 1, 4096, (t.layout true).totalBlocks, t.nextIno, 3, 2,
    (t.layout true).dataBlocksStart, 1] := ⟨_, rfl⟩
  have hlen : (words.flatMap (leBytes 4)).length = 36 := by simp [hwords]
  obtain ⟨hholds, hzero⟩ := disk_of_mkimage ht h (words.flatMap (leBytes 4)) (fun _ => hwords ▸ rfl)
    (hlen.trans_le (by decide))
  have hlt : ∀ w ∈ words, w < u32Size := by
    have hstart := dataBlocksStart_lt ht true
    have htotal : (t.layout true).totalBlocks < u32Size := mod_lt _ (by decide)
    have hsmall : onyfsMagicV1 < u32Size := by decide
    intro w hw
    simp only [hwords, mem_cons, not_mem_nil, or_false] at hw
    unfold u32Size at *
    omega
  have hword : ∀ (i w : ℕ), words[i]? = some w → (img.disk 0).mem.load (0 + i * 4) 4 = w :=
    fun i w hi => load_of_holds hholds hlt hi
  have hmagic : (img.disk 0).mem.load 0 4 = onyfsMagicV1 := hword 0 _ (by rw [hwords]; rfl)
  refine ⟨_, if_neg (by rw [hmagic]; exact fun hne => hne.2 rfl), ?_, hzero 36 hlen.le (by decide),
    hzero 40 (by omega) (by decide)⟩
  exact hword 2 _ (by rw [hwords]; rfl)

lemma nextIno_build_lt (requests : List Request) : (build requests).nextIno < u32Size := by
  have hrun : ∀ t : Tree, t.nextIno < u32Size → (requests.foldl Request.apply t).nextIno < u32Size := by
    induction requests with
    | nil => exact fun _ h => h
    | cons r rs ih =>
      intro t _
      refine ih _ ?_
      cases r with
      | dir path => exact mod_lt _ (by decide)
      | file path data => exact mod_lt _ (by decide)
  exact hrun _ (by decide)

end Mkimage

namespace Onyxfs

lemma sb_recovered (s : Fs) : s.recovered.sb = s.sb := by
  have hkeep : ∀ f : Fs → ℕ → Fs, (∀ s j, (f s j).sb = s.sb) → ∀ (l : List ℕ) (s : Fs), (l.foldl f s).sb = s.sb := by
    intro f hf l
    induction l with
    | nil => exact fun _ => rfl
    | cons j l ih => exact fun s => (ih _).trans (hf s j)
  have hslot : ∀ (s : Fs) (j : ℕ), (s.replaySlot j).sb = s.sb := fun s j => by
    rw [replaySlot]
    split <;> rfl
  rw [recovered, journalRecover, get_bind]
  split
  · rfl
  · cases s.findCommit s.sb.journalSize 0 with
    | none => rfl
    | some commitAt => exact (hkeep zeroSlot (fun _ _ => rfl) _ _).trans (hkeep replaySlot hslot _ s)

lemma mount_of_super {d : ℕ → Block} {sb : OnyfsSuper} (h : fromBytes (d 0).mem = some sb)
    (hsize : sb.blockSize = onyfsBlockSize) (hmagic : sb.magic = onyfsMagic) :
    mount (boot d) = journalRecover (mounting d sb) := by
  have hboot : (boot d).disk 0 = d 0 := rfl
  rw [mount, readBuf_bind, get_bind, hboot, withBuf_buf]
  simp only [h]
  rw [if_neg (not_not.mpr hsize), if_pos hmagic, modify_bind]
  rfl

lemma exists_mount_of_super {d : ℕ → Block} {sb : OnyfsSuper} (h : fromBytes (d 0).mem = some sb)
    (hsize : sb.blockSize = onyfsBlockSize) :
    ∃ s, mount (boot d) = .ok () s ∧ s.sb = sb := by
  by_cases hmagic : sb.magic = onyfsMagic
  · exact ⟨_, (mount_of_super h hsize hmagic).trans (journalRecover_eq _), sb_recovered _⟩
  · have hmagic' : sb.magic = onyfsMagicV1 := by
      by_contra hne
      unfold fromBytes at h
      split at h
      · cases h
      · rename_i hor
        rw [← Option.some.inj h] at hmagic hne
        exact hor ⟨hmagic, hne⟩
    refine ⟨_, ?_, sb_recovered { mounting d sb with version := .v1 }⟩
    have hboot : (boot d).disk 0 = d 0 := rfl
    rw [mount, readBuf_bind, get_bind, hboot, withBuf_buf]
    simp only [h]
    rw [if_neg (not_not.mpr hsize), if_neg hmagic, if_pos hmagic', modify_bind]
    exact journalRecover_eq _

end Onyxfs

end OnyxKernel
