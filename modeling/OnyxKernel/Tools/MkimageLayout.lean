import OnyxKernel.Tools.MkimagePasses

/-!
# The layout of an image

`write_table` and `write_blocks` count the data blocks on their own, and `write_table` counts at most ten
blocks for a file.  The block numbers in the inodes are those of the blocks in which the data is written exactly
if no file has more than ten blocks.
-/

namespace OnyxKernel.Mkimage

open ByteMemory Onyxfs Nat Option Tree DirNode
open List hiding Disjoint

variable {v1 : Bool} {img img' : Image} {off blk ino n start : ℕ} {t : Tree} {now : ℕ → ℕ}

/-! ### What an image should hold -/

/-- The inode of an image with number `ino`. -/
def Tree.storedInode (t : Tree) (v1 : Bool) (m : Memory) (ino : ℕ) : OnyfsInode :=
  inodeAt v1 m (slotOffset v1 (t.layout v1).inodeTableStart ino)

/-- The blocks of an inode, as `read` follows them. -/
def blockList (inode : OnyfsInode) : List ℕ := (ofFn inode.blocks).takeWhile (· != 0)

/-- The number of bytes of a file that can be read through its block numbers. -/
def reachable (inode : OnyfsInode) : ℕ := min inode.size ((blockList inode).length * onyfsBlockSize)

/-- The inode table and the data blocks of an image agree. -/
structure Tree.Agrees (t : Tree) (v1 : Bool) (img : Image) : Prop where
  dirs : ∀ d ∈ t.dirs, HoldsDir v1 img.mem ((t.storedInode v1 img.mem d.ino).blocks 0) d
  dirs_lt : ∀ d ∈ t.dirs, (t.storedInode v1 img.mem d.ino).blocks 0 < (t.layout v1).totalBlocks
  files : ∀ f ∈ t.files, HoldsFile img.mem (blockList (t.storedInode v1 img.mem f.inode)) f.data
  files_lt : ∀ f ∈ t.files, ∀ blk ∈ blockList (t.storedInode v1 img.mem f.inode), blk < (t.layout v1).totalBlocks
  dirs_size : ∀ d ∈ t.dirs, (t.storedInode v1 img.mem d.ino).size = reachable (t.storedInode v1 img.mem d.ino)
  files_size : ∀ f ∈ t.files, (t.storedInode v1 img.mem f.inode).size = f.data.length ∧
    (t.storedInode v1 img.mem f.inode).size = reachable (t.storedInode v1 img.mem f.inode)

/-! ### Numbered trees -/

/-- The inode numbers of a tree. -/
def Tree.inodes (t : Tree) : List ℕ := t.dirs.map (·.ino) ++ t.files.map (·.inode)

/-- The inode numbers are different and below the next one. -/
structure Tree.Numbered (t : Tree) : Prop where
  nextIno_lt : t.nextIno < u32Size
  range : ∀ ino ∈ t.inodes, 0 < ino ∧ ino < t.nextIno
  nodup : t.inodes.Nodup

lemma map_ino_pushEntry (dirs : List DirNode) (i : ℕ) (name : List UInt8) (ino : ℕ) (isDir : Bool) :
    (pushEntry dirs i name ino isDir).map (·.ino) = dirs.map (·.ino) := by
  induction dirs generalizing i with
  | nil => simp [pushEntry]
  | cons d dirs ih =>
    cases i with
    | zero => simp [pushEntry]
    | succ i =>
      have := ih i
      simp only [pushEntry] at this
      simp [pushEntry, this]

lemma length_pushEntry (dirs : List DirNode) (i : ℕ) (name : List UInt8) (ino : ℕ) (isDir : Bool) :
    (pushEntry dirs i name ino isDir).length = dirs.length := by simp [pushEntry]

/-- As long as there are not too many, the inodes are numbered in the order of their creation. -/
def Tree.Counted (t : Tree) : Prop :=
  t.dirs.length + t.files.length + 1 < u32Size → t.Numbered ∧ t.nextIno = t.dirs.length + t.files.length + 1

lemma Tree.Numbered.insert {t' : Tree} (ht : t.Numbered) (hperm : t'.inodes.Perm (t.nextIno :: t.inodes))
    (hpos : 0 < t.nextIno) (hnext : t'.nextIno = t.nextIno + 1) (hlt : t.nextIno + 1 < u32Size) : t'.Numbered := by
  refine ⟨hnext ▸ hlt, fun ino hino => ?_, hperm.nodup_iff.mpr (nodup_cons.mpr ⟨fun hmem => ?_, ht.nodup⟩)⟩
  · rw [hnext]
    rcases mem_cons.mp (hperm.mem_iff.mp hino) with rfl | hmem
    · exact ⟨hpos, lt_succ_self _⟩
    · exact ⟨(ht.range ino hmem).1, lt_succ_of_lt (ht.range ino hmem).2⟩
  · exact lt_irrefl _ (ht.range _ hmem).2

lemma Tree.Numbered.addDir (ht : t.Numbered) (hpos : 0 < t.nextIno) (hlt : t.nextIno + 1 < u32Size)
    (path : List UInt8) : (addDir t path).Numbered ∧ (addDir t path).nextIno = t.nextIno + 1 := by
  have hnext : (Mkimage.addDir t path).nextIno = t.nextIno + 1 := mod_eq_of_lt hlt
  refine ⟨ht.insert ?_ hpos hnext hlt, hnext⟩
  simp only [inodes, Mkimage.addDir, map_append, map_ino_pushEntry, map_cons, map_nil]
  rw [append_assoc, singleton_append]
  exact perm_middle

lemma Tree.Counted.addDir (ht : t.Counted) (path : List UInt8) : (addDir t path).Counted := by
  intro hlt
  simp only [Mkimage.addDir, length_append, length_pushEntry, length_singleton] at hlt
  obtain ⟨hnum, hnext⟩ := ht (by omega)
  obtain ⟨hnum', hnext'⟩ := hnum.addDir (by omega) (by omega) path
  refine ⟨hnum', ?_⟩
  rw [hnext', hnext]
  simp only [Mkimage.addDir, length_append, length_pushEntry, length_singleton]
  omega

lemma Tree.Counted.ensureLoop {base cur : List UInt8} {comps : List (List UInt8)} (ht : t.Counted) :
    (ensureLoop base comps cur t).Counted := by
  induction comps generalizing cur t with
  | nil => exact ht
  | cons comp comps ih =>
    unfold Mkimage.ensureLoop
    split
    · exact ih ht
    · dsimp only
      split
      · exact ih ht
      · exact ih (ht.addDir _)

/-- The end of `add_file`, when the parent directories are there. -/
def Tree.putFile (t : Tree) (path data : List UInt8) : Tree where
  dirs := pushEntry t.dirs (findParentDir t.dirs path) (basename path) t.nextIno false
  files := t.files ++ [{ inode := t.nextIno, data := data }]
  nextIno := (t.nextIno + 1) % u32Size

lemma addFile_eq (t : Tree) (path data : List UInt8) :
    addFile t path data = (ensureParentDirs t path).putFile path data := rfl

lemma Tree.Numbered.putFile (ht : t.Numbered) (hpos : 0 < t.nextIno) (hlt : t.nextIno + 1 < u32Size)
    (path data : List UInt8) :
    (t.putFile path data).Numbered ∧ (t.putFile path data).nextIno = t.nextIno + 1 := by
  have hnext : (t.putFile path data).nextIno = t.nextIno + 1 := mod_eq_of_lt hlt
  refine ⟨ht.insert ?_ hpos hnext hlt, hnext⟩
  simp only [Tree.inodes, Tree.putFile, map_append, map_ino_pushEntry, map_cons, map_nil]
  rw [← append_assoc]
  exact perm_append_singleton _ _

lemma Tree.Counted.addFile (ht : t.Counted) (path data : List UInt8) : (addFile t path data).Counted := by
  have hcount : (ensureParentDirs t path).Counted := ht.ensureLoop
  rw [addFile_eq]
  intro hlt
  simp only [putFile, length_append, length_pushEntry, length_singleton] at hlt
  obtain ⟨hnum, hnext⟩ := hcount (by omega)
  obtain ⟨hnum', hnext'⟩ := hnum.putFile (by omega) (by omega) path data
  refine ⟨hnum', ?_⟩
  rw [hnext', hnext]
  simp only [putFile, length_append, length_pushEntry, length_singleton]
  omega

/-- The trees that the tool builds are numbered, as long as there are fewer than `2 ^ 32` inodes. -/
theorem counted_build (requests : List Request) : (build requests).Counted := by
  have hstep : ∀ (t : Tree) (r : Request), t.Counted → (r.apply t).Counted := by
    intro t r ht
    cases r with
    | dir path => exact ht.addDir path
    | file path data => exact ht.addFile path data
  have hrun : ∀ t : Tree, t.Counted → (requests.foldl Request.apply t).Counted := by
    induction requests with
    | nil => exact fun t ht => ht
    | cons r rs ih => exact fun t ht => ih _ (hstep t r ht)
  refine hrun _ fun _ => ⟨⟨by decide, ?_, ?_⟩, rfl⟩
  · simp [inodes, empty, root]
  · simp [inodes, empty, root]

/-! ### Agreement -/

/-- The bytes of an inode. -/
def slotRegion (v1 : Bool) (start ino : ℕ) : Set ℕ :=
  Set.Ico (slotOffset v1 start ino) (slotOffset v1 start ino + inodeSize v1)

lemma map_region_dirSlotJobs (ds : List DirNode) (blk : ℕ) :
    (dirSlotJobs v1 start ds blk).map Job.region = (ds.map (·.ino)).map (slotRegion v1 start) := by
  induction ds generalizing blk with
  | nil => rfl
  | cons d ds ih => simp only [dirSlotJobs, map_cons, ih]; rfl

lemma map_region_fileSlotJobs (fs : List Entry) (blk : ℕ) :
    (fileSlotJobs v1 start fs blk).map Job.region = (fs.map (·.inode)).map (slotRegion v1 start) := by
  induction fs generalizing blk with
  | nil => rfl
  | cons f fs ih => simp only [fileSlotJobs, map_cons, ih]; rfl

lemma disjoint_slotRegion {a b : ℕ} (ha : 0 < a) (hb : 0 < b) (hne : a ≠ b) :
    Disjoint (slotRegion v1 start a) (slotRegion v1 start b) := by
  refine Memory.disjoint_Ico_of_le ?_
  cases v1 <;> simp only [slotOffset, inodeSize, if_true, Bool.false_eq_true, if_false] <;> omega

lemma slotRegion_subset (hpos : 0 < ino) (hlt : ino < t.nextIno) :
    slotRegion v1 (t.layout v1).inodeTableStart ino ⊆ Set.Ico 0 ((t.layout v1).dataBlocksStart * onyfsBlockSize) := by
  refine Set.Ico_subset_Ico (zero_le _) ?_
  cases v1 <;> simp [slotOffset, layout, inodeSize, onyfsBlockSize] <;> omega

lemma exists_dirJobs {ds : List DirNode} {d : DirNode} (hd : d ∈ ds) (blk : ℕ) :
    ∃ b, blk ≤ b ∧ b < blk + ds.length ∧ dirJob v1 b d ∈ dirJobs v1 ds blk ∧
      slotJob v1 (slotOffset v1 start d.ino) 0 [b] ∈ dirSlotJobs v1 start ds blk := by
  induction ds generalizing blk with
  | nil => cases hd
  | cons e ds ih =>
    rw [length_cons]
    rcases mem_cons.mp hd with rfl | hd
    · exact ⟨blk, le_rfl, by omega, mem_cons_self, mem_cons_self⟩
    · obtain ⟨b, hlo, hhi, h, h'⟩ := ih hd (blk + 1)
      exact ⟨b, by omega, by omega, mem_cons_of_mem _ h, mem_cons_of_mem _ h'⟩

lemma exists_fileJobs {fs : List Entry} {f : Entry} (hf : f ∈ fs) (blk : ℕ) :
    ∃ b, blk ≤ b ∧ b + blockCount f.data.length ≤ blk + fileBlocks fs ∧ fileJob b f ∈ fileJobs fs blk ∧
      slotJob v1 (slotOffset v1 start f.inode) f.data.length (filePointers (blockCount f.data.length) b) ∈
        fileSlotJobs v1 start fs blk := by
  induction fs generalizing blk with
  | nil => cases hf
  | cons g fs ih =>
    rw [fileBlocks_cons]
    rcases mem_cons.mp hf with rfl | hf
    · exact ⟨blk, le_rfl, by omega, mem_cons_self, mem_cons_self⟩
    · obtain ⟨b, hlo, hhi, h, h'⟩ := ih hf (blk + blockCount g.data.length)
      exact ⟨b, by omega, by omega, mem_cons_of_mem _ h, mem_cons_of_mem _ h'⟩

lemma takeWhile_filePointers (hpos : 0 < blk) (hn : n ≤ 10) (hlt : blk + n < u32Size) :
    (filePointers n blk).takeWhile (· != 0) = range' blk n := by
  have hmap : (range (min n 10)).map (fun i => (blk + i) % u32Size) = range' blk n := by
    rw [min_eq_left hn, range'_eq_map_range]
    refine map_congr_left fun i hi => ?_
    have := mem_range.mp hi
    exact mod_eq_of_lt (by omega)
  rw [filePointers, hmap, takeWhile_append_of_pos]
  · rw [takeWhile_replicate]
    simp
  · intro b hb
    have := (mem_range'_1.mp hb).1
    simp
    omega

/-- The jobs of `write_table`, if no file has more than ten blocks. -/
def Tree.tableJobs (t : Tree) (v1 : Bool) : List Job :=
  let l := t.layout v1
  dirSlotJobs v1 l.inodeTableStart t.dirs l.dataBlocksStart ++
    fileSlotJobs v1 l.inodeTableStart t.files (l.dataBlocksStart + t.dirs.length)

/-- The jobs of `write_blocks`. -/
def Tree.blockJobs (t : Tree) (v1 : Bool) : List Job :=
  dirJobs v1 t.dirs (t.layout v1).dataBlocksStart ++ fileJobs t.files ((t.layout v1).dataBlocksStart + t.dirs.length)

lemma map_region_tableJobs (t : Tree) (v1 : Bool) :
    (t.tableJobs v1).map Job.region = t.inodes.map (slotRegion v1 (t.layout v1).inodeTableStart) := by
  rw [tableJobs, map_append, map_region_dirSlotJobs, map_region_fileSlotJobs, ← map_append]
  rfl

lemma ordered_blockJobs (t : Tree) (v1 : Bool) :
    Job.Ordered (t.blockJobs v1) ((t.layout v1).dataBlocksStart * onyfsBlockSize)
      (((t.layout v1).dataBlocksStart + t.dirs.length + fileBlocks t.files) * onyfsBlockSize) :=
  (ordered_dirJobs ..).append (ordered_fileJobs ..)

lemma Tree.Numbered.pairwise_tableJobs (ht : t.Numbered) (v1 : Bool) : (t.tableJobs v1).Pairwise Job.Apart := by
  have hdisj : (t.inodes.map (slotRegion v1 (t.layout v1).inodeTableStart)).Pairwise Disjoint :=
    pairwise_map.mpr (ht.nodup.imp_of_mem fun ha hb hne =>
      disjoint_slotRegion (ht.range _ ha).1 (ht.range _ hb).1 hne)
  rw [← map_region_tableJobs, pairwise_map] at hdisj
  exact hdisj

lemma Tree.Numbered.region_tableJobs (ht : t.Numbered) {j : Job} (hj : j ∈ t.tableJobs v1) :
    j.region ⊆ Set.Ico 0 ((t.layout v1).dataBlocksStart * onyfsBlockSize) := by
  have hmem : j.region ∈ t.inodes.map (slotRegion v1 (t.layout v1).inodeTableStart) := by
    rw [← map_region_tableJobs]
    exact mem_map_of_mem hj
  obtain ⟨ino, hino, hreg⟩ := mem_map.mp hmem
  rw [← hreg]
  exact slotRegion_subset (ht.range ino hino).1 (ht.range ino hino).2

lemma Tree.Numbered.pairwise_jobs (ht : t.Numbered) (v1 : Bool) :
    (t.tableJobs v1 ++ t.blockJobs v1).Pairwise Job.Apart := by
  have hordered := ordered_blockJobs t v1
  refine pairwise_append.mpr ⟨ht.pairwise_tableJobs v1, hordered.pairwise, fun j hj k hk => ?_⟩
  refine Set.disjoint_left.mpr fun x hx hx' => ?_
  have h1 := (ht.region_tableJobs hj hx).2
  have h2 := (hordered.region_subset k hk hx').1
  omega

lemma totalBlocks_of_mkimage (ht : t.nextIno < u32Size) (h : mkimage v1 now t = some img) :
    (t.layout v1).dataBlocksStart + t.dataBlocks < u32Size ∧
      (t.layout v1).totalBlocks = (t.layout v1).dataBlocksStart + t.dataBlocks := by
  obtain ⟨_, _, _, -, -, -, hblocks, hsize⟩ := stages_of_mkimage h
  have hlt := lt_of_writeBlocks ht hsize hblocks
  exact ⟨hlt, by rw [layout_totalBlocks, mod_eq_of_lt hlt]⟩

lemma Tree.Numbered.post_of_mkimage (ht : t.Numbered) (h : mkimage v1 now t = some img)
    (hsmall : ∀ f ∈ t.files, f.data.length ≤ 10 * onyfsBlockSize) :
    ∀ j ∈ t.tableJobs v1 ++ t.blockJobs v1, j.post img.mem := by
  have hlt := (totalBlocks_of_mkimage ht.nextIno_lt h).1
  rw [dataBlocks] at hlt
  obtain ⟨_, _, _, -, -, htable, hblocks, -⟩ := stages_of_mkimage h
  obtain ⟨⟨imgd, bd⟩, htd, htf⟩ := bind_eq_some_iff.mp htable
  obtain ⟨⟨imge, be⟩, hbd, hbf⟩ := bind_eq_some_iff.mp hblocks
  obtain ⟨hrun1, rfl⟩ := writeTableDirs_run htd (by omega)
  obtain ⟨hrun3, rfl⟩ := writeDirs_run hbd (by omega)
  have hrun2 := writeTableFiles_run htf (by omega) hsmall
  have hrun4 := writeFiles_run hbf (by omega)
  exact ((hrun1.append hrun2).append (hrun3.append hrun4)).run.post (ht.pairwise_jobs v1)

lemma blockList_of_post {m : Memory} {size : ℕ} (h : (slotJob v1 off size (filePointers n blk)).post m) (hpos : 0 < blk)
    (hn : n ≤ 10) (hlt : blk + n < u32Size) : blockList (inodeAt v1 m off) = range' blk n := by
  have hofFn : ofFn (inodeAt v1 m off).blocks = filePointers n blk := by
    refine ext_getElem (by rw [length_ofFn, length_filePointers]) fun i hi hi' => ?_
    rw [List.getElem_ofFn]
    exact h.2 ⟨i, hi⟩ _ (getElem?_eq_getElem hi')
  rw [blockList, hofFn, takeWhile_filePointers hpos hn hlt]

lemma Tree.Numbered.agrees (ht : t.Numbered) (h : mkimage v1 now t = some img)
    (hsmall : ∀ f ∈ t.files, f.data.length ≤ 10 * onyfsBlockSize) : t.Agrees v1 img := by
  obtain ⟨hlt, htotal⟩ := totalBlocks_of_mkimage ht.nextIno_lt h
  have hpost := ht.post_of_mkimage h hsmall
  have hpos : 0 < (t.layout v1).dataBlocksStart := by
    simp [layout]
  rw [dataBlocks] at hlt htotal
  -- what is known about a directory and about a file
  have hdir : ∀ d ∈ t.dirs, ∃ b, b < (t.layout v1).totalBlocks ∧ HoldsDir v1 img.mem b d ∧
      (t.storedInode v1 img.mem d.ino).size = 0 ∧ (t.storedInode v1 img.mem d.ino).blocks 0 = b := by
    intro d hd
    obtain ⟨b, -, hhi, hjob, hslot⟩ := exists_dirJobs hd (t.layout v1).dataBlocksStart
    have h₁ := hpost _ (mem_append_right _ (mem_append_left _ hjob))
    have h₂ := hpost _ (mem_append_left _ (mem_append_left _ hslot))
    exact ⟨b, by omega, h₁, h₂.1, h₂.2 0 b rfl⟩
  have hfile : ∀ f ∈ t.files, ∃ b, b + blockCount f.data.length ≤ (t.layout v1).totalBlocks ∧
      HoldsFile img.mem (range' b (blockCount f.data.length)) f.data ∧
      (t.storedInode v1 img.mem f.inode).size = f.data.length ∧
      blockList (t.storedInode v1 img.mem f.inode) = range' b (blockCount f.data.length) := by
    intro f hf
    obtain ⟨b, hlo, hhi, hjob, hslot⟩ := exists_fileJobs hf ((t.layout v1).dataBlocksStart + t.dirs.length)
    have h₁ := hpost _ (mem_append_right _ (mem_append_right _ hjob))
    have h₂ := hpost _ (mem_append_left _ (mem_append_right _ hslot))
    exact ⟨b, by omega, h₁, h₂.1, blockList_of_post h₂ (by omega) ((blockCount_le_iff 10).mpr (hsmall f hf)) (by omega)⟩
  refine ⟨fun d hd => ?_, fun d hd => ?_, fun f hf => ?_, fun f hf => ?_, fun d hd => ?_, fun f hf => ?_⟩
  · obtain ⟨b, -, hholds, -, hb⟩ := hdir d hd
    rwa [hb]
  · obtain ⟨b, hlt, -, -, hb⟩ := hdir d hd
    rwa [hb]
  · obtain ⟨b, -, hholds, -, hb⟩ := hfile f hf
    rwa [hb]
  · obtain ⟨b, hle, -, -, hb⟩ := hfile f hf
    rw [hb]
    intro blk hblk
    have := mem_range'_1.mp hblk
    omega
  · obtain ⟨b, -, -, hsize, -⟩ := hdir d hd
    rw [reachable, hsize, zero_min]
  · obtain ⟨b, -, -, hsize, hb⟩ := hfile f hf
    refine ⟨hsize, ?_⟩
    rw [reachable, hb, length_range', hsize]
    exact (min_eq_left ((blockCount_le_iff _).mp le_rfl)).symm

lemma le_dataBlocksStart (t : Tree) (v1 : Bool) :
    3 ≤ (t.layout v1).dataBlocksStart ∧ 3 * onyfsBlockSize + t.nextIno ≤ (t.layout v1).dataBlocksStart * onyfsBlockSize := by
  cases v1 <;> simp [layout, inodeSize, onyfsBlockSize] <;> omega

lemma Tree.Agrees.length_le (h : t.Agrees v1 img) {f : Entry} (hf : f ∈ t.files) :
    f.data.length ≤ 10 * onyfsBlockSize := by
  rw [← blockCount_le_iff, ← (h.files f hf).1]
  calc (blockList (t.storedInode v1 img.mem f.inode)).length ≤ (ofFn (t.storedInode v1 img.mem f.inode).blocks).length :=
        (takeWhile_sublist _).length_le
    _ = 10 := length_ofFn

lemma build_single (data : List UInt8) :
    build [.file [slash, 0x61] data] = { dirs := [⟨1, 1, [([0x61], 2, false)]⟩], files := [⟨2, data⟩], nextIno := 3 } := rfl

lemma numbered_single (data : List UInt8) : (build [.file [slash, 0x61] data]).Numbered :=
  (counted_build [.file [slash, 0x61] data] (show 3 < u32Size by decide)).1

end OnyxKernel.Mkimage
