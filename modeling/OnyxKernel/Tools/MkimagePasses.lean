import OnyxKernel.Foundation.Footprint
import OnyxKernel.Tools.Mkimage

/-!
# The passes of the image builder

`write_table` and `write_blocks` write inodes, directory blocks and file data one after the other.  Each of
these writes is a job with a region of its own, so that what a pass writes is still there in the end.  No
32-bit sum wraps in a run that writes an image.
-/

namespace OnyxKernel

open ByteMemory Onyxfs List Option Nat Set Memory

lemma OnyfsInode.fromBytesV1_congr {m m' : Memory} (h : ∀ i < 64, m i = m' i) : fromBytesV1 m = fromBytesV1 m' := by
  have hload : ∀ a w, a + w ≤ 64 → m.load a w = m'.load a w := fun a w haw =>
    load_congr fun i hi => h i (lt_of_lt_of_le hi.2 haw)
  ext i
  case blocks =>
    exact hload _ _ (by omega)
  all_goals first | rfl | exact hload _ _ (by decide)

namespace Mkimage

variable {v1 : Bool} {img img' : Image} {off blk ino : ℕ} {t : Tree} {js : List Job} {lo hi : ℕ}
  {bytes : List UInt8}

/-! ### What an image holds -/

/-- The inode that is stored in an image, as the kernel reads it. -/
def inodeAt (v1 : Bool) (m : Memory) (off : ℕ) : OnyfsInode :=
  if v1 then .fromBytesV1 fun i => m (off + i) else .fromBytes fun i => m (off + i)

/-- A directory entry has been written at `off`. -/
structure HoldsDirent (v1 : Bool) (m : Memory) (off : ℕ) (e : List UInt8 × ℕ × Bool) : Prop where
  name : m.Holds off (e.1.take onyfsNameMax)
  inode : m.Holds (off + 32) (leBytes 4 e.2.1)
  kind : v1 = false → m.Holds (off + 36) [if e.2.2 then 1 else 2]
  nameLen : v1 = false → m.Holds (off + 37) [UInt8.ofNat (e.1.take onyfsNameMax).length]

/-- The entries of a directory with the two dots. -/
def DirNode.dotted (d : DirNode) : List (List UInt8 × ℕ × Bool) :=
  ([0x2E], d.ino, true) :: ([0x2E, 0x2E], d.parentIno, true) :: d.entries

/-- The entries of a directory, as far as they fit, are in block `blk`. -/
def HoldsDir (v1 : Bool) (m : Memory) (blk : ℕ) (d : DirNode) : Prop :=
  ∀ i e, d.dotted[i]? = some e → (i + 1) * direntSize v1 ≤ onyfsBlockSize →
    HoldsDirent v1 m (blk * onyfsBlockSize + i * direntSize v1) e

/-- The chunks of a file are in the blocks of a list, one after the other. -/
def HoldsFile (m : Memory) (blks : List ℕ) (data : List UInt8) : Prop :=
  blks.length = blockCount data.length ∧
    ∀ i blk, blks[i]? = some blk → m.Holds (blk * onyfsBlockSize) (chunk data i)

/-! ### Jobs -/

/-- The image changes by jobs and keeps its size. -/
structure Image.Run (js : List Job) (img img' : Image) : Prop where
  size_eq : img'.size = img.size
  run : Job.Run js img.mem img'.mem

lemma Image.Run.append {ks : List Job} {img'' : Image} (h : Image.Run js img img') (h' : Image.Run ks img' img'') :
    Image.Run (js ++ ks) img img'' :=
  ⟨h'.size_eq.trans h.size_eq, h.run.append h'.run⟩

lemma Image.Run.merge {j : Job} (h : Image.Run js img img') (ho : Job.Ordered js lo hi)
    (hsub : Set.Ico lo hi ⊆ j.region) (hpost : (∀ k ∈ js, k.post img'.mem) → j.post img'.mem) :
    Image.Run [j] img img' :=
  ⟨h.size_eq, h.run.merge_ordered ho hsub hpost⟩

lemma copy_eq_some (h : img.copy off bytes = some img') :
    Image.Run [.copy off bytes] img img' ∧ off + bytes.length ≤ img.size := by
  unfold Image.copy at h
  split at h
  · rename_i hle
    cases h
    exact ⟨⟨rfl, Job.run_copy ..⟩, hle⟩
  · cases h

/-! ### Directory blocks -/

lemma direntSize_ge (v1 : Bool) : 36 ≤ direntSize v1 := by cases v1 <;> decide

lemma direntSize_v2 (h : v1 = false) : direntSize v1 = 40 := by rw [h]; rfl

lemma length_take_nameMax (name : List UInt8) : (name.take onyfsNameMax).length ≤ 32 := length_take_le ..

/-- Write a directory entry. -/
def direntJob (v1 : Bool) (off : ℕ) (e : List UInt8 × ℕ × Bool) : Job where
  region := Set.Ico off (off + direntSize v1)
  post m := HoldsDirent v1 m off e
  post_congr m m' heq hm := by
    have hsize := direntSize_ge v1
    have hname := length_take_nameMax e.1
    refine ⟨hm.name.congr heq ?_, hm.inode.congr heq ?_, fun hv => (hm.kind hv).congr heq ?_,
      fun hv => (hm.nameLen hv).congr heq ?_⟩
    · exact Ico_subset_Ico le_rfl (by omega)
    · exact Ico_subset_Ico (by omega) (by rw [length_leBytes]; omega)
    · have := direntSize_v2 hv
      exact Ico_subset_Ico (by omega) (by simp; omega)
    · have := direntSize_v2 hv
      exact Ico_subset_Ico (by omega) (by simp; omega)

lemma ordered_copy (hlo : lo ≤ off) (hhi : off + bytes.length ≤ hi) : Job.Ordered [.copy off bytes] lo hi :=
  .single (by omega) (Ico_subset_Ico hlo hhi)

lemma writeDirent_run {name : List UInt8} {isDir : Bool} (h : writeDirent v1 img off name ino isDir = some img') :
    Image.Run [direntJob v1 off (name, ino, isDir)] img img' := by
  have hname := length_take_nameMax name
  simp only [writeDirent, bind_eq_some_iff] at h
  obtain ⟨img2, ⟨img1, h1, h2⟩, h⟩ := h
  have hrun := (copy_eq_some h1).1.append (copy_eq_some h2).1
  have hord : Job.Ordered ([.copy off (name.take onyfsNameMax)] ++ [.copy (off + 32) (leBytes 4 ino)]) off (off + 36) :=
    (ordered_copy le_rfl (by omega)).append (ordered_copy le_rfl (by rw [length_leBytes]))
  cases v1 with
  | true =>
    cases h
    refine hrun.merge hord subset_rfl fun hpost => ?_
    simp only [cons_append, nil_append, forall_mem_cons] at hpost
    obtain ⟨hname, hinode, -⟩ := hpost
    exact ⟨hname, hinode, nofun, nofun⟩
  | false =>
    obtain ⟨img3, h3, h4⟩ := bind_eq_some_iff.mp h
    refine ((hrun.append (copy_eq_some h3).1).append (copy_eq_some h4).1).merge
      ((hord.append (ordered_copy le_rfl le_rfl)).append (ordered_copy le_rfl (le_add_right _ 2)))
      subset_rfl fun hpost => ?_
    simp only [cons_append, nil_append, forall_mem_cons] at hpost
    obtain ⟨hname, hinode, hkind, hlen, -⟩ := hpost
    exact ⟨hname, hinode, fun _ => hkind, fun _ => hlen⟩

/-- The entries that fit before `stop`. -/
def entryJobs (v1 : Bool) (stop : ℕ) : List (List UInt8 × ℕ × Bool) → ℕ → List Job
  | [], _ => []
  | e :: es, off => if stop < off + direntSize v1 then [] else direntJob v1 off e :: entryJobs v1 stop es (off + direntSize v1)

variable {es : List (List UInt8 × ℕ × Bool)} {stop : ℕ}

lemma ordered_entryJobs (hle : off ≤ stop) : Job.Ordered (entryJobs v1 stop es off) off stop := by
  induction es generalizing off with
  | nil => exact .nil hle
  | cons e es ih =>
    unfold entryJobs
    split
    · exact .nil hle
    · rename_i hroom
      exact .cons (le_add_right _ _) subset_rfl (ih (not_lt.mp hroom))

lemma mem_entryJobs (off : ℕ) {i : ℕ} {e : List UInt8 × ℕ × Bool} (hi : es[i]? = some e)
    (hroom : off + (i + 1) * direntSize v1 ≤ stop) :
    direntJob v1 (off + i * direntSize v1) e ∈ entryJobs v1 stop es off := by
  induction es generalizing off i with
  | nil => simp at hi
  | cons e' es ih =>
    have hfirst : off + direntSize v1 ≤ stop := by
      have : direntSize v1 ≤ (i + 1) * direntSize v1 := Nat.le_mul_of_pos_left _ (Nat.succ_pos i)
      omega
    rw [entryJobs, if_neg (not_lt.mpr hfirst)]
    cases i with
    | zero =>
      obtain rfl : e' = e := by simpa using hi
      simp
    | succ i =>
      have hmem := ih (off + direntSize v1) (i := i) (by simpa using hi) (by rw [succ_mul] at hroom; omega)
      have hoff : off + (i + 1) * direntSize v1 = off + direntSize v1 + i * direntSize v1 := by
        rw [succ_mul]
        omega
      rw [hoff]
      exact mem_cons_of_mem _ hmem

lemma writeEntries_run {dirOff : ℕ} (h : writeEntries v1 dirOff es off img = some img') :
    Image.Run (entryJobs v1 (dirOff + onyfsBlockSize) es off) img img' := by
  induction es generalizing off img with
  | nil =>
    cases h
    exact ⟨rfl, .nil _⟩
  | cons e es ih =>
    rw [writeEntries] at h
    rw [entryJobs]
    split at h
    · rename_i hfull
      rw [if_pos hfull]
      cases h
      exact ⟨rfl, .nil _⟩
    · rename_i hroom
      rw [if_neg hroom]
      obtain ⟨img1, h1, h⟩ := bind_eq_some_iff.mp h
      exact (writeDirent_run h1).append (ih h)

/-- Write the block of a directory. -/
def dirJob (v1 : Bool) (blk : ℕ) (d : DirNode) : Job where
  region := Set.Ico (blk * onyfsBlockSize) ((blk + 1) * onyfsBlockSize)
  post m := HoldsDir v1 m blk d
  post_congr m m' heq hm i e hi hroom := by
    refine (direntJob v1 _ e).post_congr m m' (heq.mono (Ico_subset_Ico (le_add_right _ _) ?_)) (hm i e hi hroom)
    rw [add_mul] at hroom ⊢
    omega

lemma writeDir_run {d : DirNode} (h : writeDir v1 (blk * onyfsBlockSize) d img = some img') :
    Image.Run [dirJob v1 blk d] img img' := by
  simp only [writeDir, bind_eq_some_iff] at h
  obtain ⟨img2, ⟨img1, h1, h2⟩, h3⟩ := h
  have hrun : Image.Run (entryJobs v1 (blk * onyfsBlockSize + onyfsBlockSize) d.dotted (blk * onyfsBlockSize)) img img' := by
    have hsize : direntSize v1 + direntSize v1 ≤ onyfsBlockSize := by cases v1 <;> decide
    rw [DirNode.dotted, entryJobs, if_neg (by omega), entryJobs, if_neg (by omega)]
    exact (writeDirent_run h1).append ((writeDirent_run h2).append (writeEntries_run h3))
  refine hrun.merge (ordered_entryJobs (le_add_right _ _)) ?_ fun hpost i e hi hroom => ?_
  · show Set.Ico _ _ ⊆ Set.Ico _ ((blk + 1) * onyfsBlockSize)
    rw [succ_mul]
  · exact hpost _ (mem_entryJobs _ hi (Nat.add_le_add_left hroom _))

/-- The blocks of the directories from `blk` on. -/
def dirJobs (v1 : Bool) : List DirNode → ℕ → List Job
  | [], _ => []
  | d :: ds, blk => dirJob v1 blk d :: dirJobs v1 ds (blk + 1)

lemma ordered_dirJobs (ds : List DirNode) (blk : ℕ) :
    Job.Ordered (dirJobs v1 ds blk) (blk * onyfsBlockSize) ((blk + ds.length) * onyfsBlockSize) := by
  induction ds generalizing blk with
  | nil => exact .nil le_rfl
  | cons d ds ih =>
    have hrest := ih (blk + 1)
    rw [add_assoc, add_comm 1, ← length_cons (a := d)] at hrest
    exact .cons (mul_le_mul_right _ (le_succ _)) subset_rfl hrest

lemma writeDirs_run {ds : List DirNode} {p : Image × ℕ} (h : writeDirs v1 ds blk img = some p)
    (hlt : blk + ds.length < u32Size) : Image.Run (dirJobs v1 ds blk) img p.1 ∧ p.2 = blk + ds.length := by
  induction ds generalizing blk img with
  | nil =>
    cases h
    exact ⟨⟨rfl, .nil _⟩, rfl⟩
  | cons d ds ih =>
    obtain ⟨img1, h1, h⟩ := bind_eq_some_iff.mp h
    rw [length_cons] at hlt
    rw [mod_eq_of_lt (by omega)] at h
    obtain ⟨hrun, hnext⟩ := ih h (by omega)
    refine ⟨(writeDir_run h1).append hrun, hnext.trans ?_⟩
    rw [length_cons]
    omega

/-! ### The data of the files -/

lemma length_chunk_le (data : List UInt8) (i : ℕ) : (chunk data i).length ≤ onyfsBlockSize := length_take_le ..

/-- Write `n` chunks, from chunk `i` on, to the blocks from `blk` on. -/
def chunkJobs (data : List UInt8) : ℕ → ℕ → ℕ → List Job
  | 0, _, _ => []
  | n + 1, i, blk => .copy (blk * onyfsBlockSize) (chunk data i) :: chunkJobs data n (i + 1) (blk + 1)

variable {data : List UInt8} {n i : ℕ} {m : Memory} {blocks : List ℕ}

lemma ordered_chunkJobs (data : List UInt8) (n i blk : ℕ) :
    Job.Ordered (chunkJobs data n i blk) (blk * onyfsBlockSize) ((blk + n) * onyfsBlockSize) := by
  induction n generalizing i blk with
  | zero => exact .nil le_rfl
  | succ n ih =>
    have hrest := ih (i + 1) (blk + 1)
    rw [add_assoc, add_comm 1] at hrest
    have hlen := length_chunk_le data i
    refine .cons (mul_le_mul_right _ (le_succ _)) (Ico_subset_Ico le_rfl ?_) hrest
    rw [succ_mul]
    omega

lemma mem_chunkJobs (data : List UInt8) (i blk : ℕ) {k : ℕ} (hk : k < n) :
    Job.copy ((blk + k) * onyfsBlockSize) (chunk data (i + k)) ∈ chunkJobs data n i blk := by
  induction n generalizing i blk k with
  | zero => omega
  | succ n ih =>
    cases k with
    | zero => exact mem_cons_self
    | succ k =>
      have hmem := ih (i + 1) (blk + 1) (lt_of_succ_lt_succ hk)
      rw [add_right_comm blk, add_right_comm i] at hmem
      exact mem_cons_of_mem _ hmem

lemma writeChunks_run {p : Image × ℕ} (h : writeChunks data (range' i n) blk img = some p)
    (hlt : blk + n < u32Size) : Image.Run (chunkJobs data n i blk) img p.1 ∧ p.2 = blk + n := by
  induction n generalizing i blk img with
  | zero =>
    cases h
    exact ⟨⟨rfl, .nil _⟩, rfl⟩
  | succ n ih =>
    rw [range'_succ] at h
    obtain ⟨img1, h1, h⟩ := bind_eq_some_iff.mp h
    rw [mod_eq_of_lt (by omega)] at h
    obtain ⟨hrun, hnext⟩ := ih h (by omega)
    exact ⟨(copy_eq_some h1).1.append hrun, by omega⟩

/-- Write a file to the blocks from `blk` on. -/
def fileJob (blk : ℕ) (f : Entry) : Job where
  region := Set.Ico (blk * onyfsBlockSize) ((blk + blockCount f.data.length) * onyfsBlockSize)
  post m := HoldsFile m (range' blk (blockCount f.data.length)) f.data
  post_congr m m' heq hm := by
    refine ⟨hm.1, fun i b hb => (hm.2 i b hb).congr heq ?_⟩
    obtain ⟨hi, rfl⟩ := List.getElem?_eq_some_iff.mp hb
    rw [length_range'] at hi
    rw [getElem_range', one_mul]
    have hlen := length_chunk_le f.data i
    refine Ico_subset_Ico (mul_le_mul_right _ (le_add_right _ _)) ?_
    calc (blk + i) * onyfsBlockSize + (chunk f.data i).length ≤ (blk + i + 1) * onyfsBlockSize := by
          rw [succ_mul]
          omega
      _ ≤ _ := mul_le_mul_right _ (by omega)

/-- The number of data blocks of some files. -/
def fileBlocks (fs : List Entry) : ℕ := (fs.map fun f => blockCount f.data.length).sum

@[simp] lemma fileBlocks_nil : fileBlocks [] = 0 := rfl

@[simp] lemma fileBlocks_cons (f : Entry) (fs : List Entry) :
    fileBlocks (f :: fs) = blockCount f.data.length + fileBlocks fs := rfl

/-- Write files to the blocks from `blk` on. -/
def fileJobs : List Entry → ℕ → List Job
  | [], _ => []
  | f :: fs, blk => fileJob blk f :: fileJobs fs (blk + blockCount f.data.length)

lemma ordered_fileJobs (fs : List Entry) (blk : ℕ) :
    Job.Ordered (fileJobs fs blk) (blk * onyfsBlockSize) ((blk + fileBlocks fs) * onyfsBlockSize) := by
  induction fs generalizing blk with
  | nil => exact .nil le_rfl
  | cons f fs ih =>
    have hrest := ih (blk + blockCount f.data.length)
    rw [add_assoc, ← fileBlocks_cons] at hrest
    exact .cons (mul_le_mul_right _ (le_add_right _ _)) subset_rfl hrest

lemma writeFiles_run {fs : List Entry} (h : writeFiles fs blk img = some img') (hlt : blk + fileBlocks fs < u32Size) :
    Image.Run (fileJobs fs blk) img img' := by
  induction fs generalizing blk img with
  | nil =>
    cases h
    exact ⟨rfl, .nil _⟩
  | cons f fs ih =>
    obtain ⟨p, h1, h⟩ := bind_eq_some_iff.mp h
    rw [fileBlocks_cons] at hlt
    rw [range_eq_range'] at h1
    obtain ⟨hrun, hnext⟩ := writeChunks_run h1 (by omega)
    rw [hnext] at h
    have hfile : Image.Run [fileJob blk f] img p.1 := by
      refine hrun.merge (ordered_chunkJobs ..) subset_rfl fun hpost => ⟨length_range', fun i b hb => ?_⟩
      obtain ⟨hi, rfl⟩ := List.getElem?_eq_some_iff.mp hb
      rw [length_range'] at hi
      rw [getElem_range', one_mul]
      have hmem := hpost _ (mem_chunkJobs f.data 0 blk hi)
      rw [zero_add] at hmem
      exact hmem
    exact hfile.append (ih h (by omega))

/-! ### The inode table -/

lemma load_shift (m : Memory) (off a w : ℕ) : load (fun i => m (off + i)) a w = m.load (off + a) w := by
  refine leValue_congr fun i _ => ?_
  rw [add_assoc]

lemma inodeAt_congr {m' : Memory} (h : EqOn m' m (Set.Ico off (off + inodeSize v1))) :
    inodeAt v1 m' off = inodeAt v1 m off := by
  have hbyte : ∀ i < inodeSize v1, m' (off + i) = m (off + i) := fun i hi =>
    h ⟨Nat.le_add_right _ _, Nat.add_lt_add_left hi _⟩
  cases v1 with
  | true => exact OnyfsInode.fromBytesV1_congr hbyte
  | false => exact OnyfsInode.fromBytes_congr hbyte

/-- Write an inode with the given size and block numbers. -/
def slotJob (v1 : Bool) (off size : ℕ) (blocks : List ℕ) : Job where
  region := Set.Ico off (off + inodeSize v1)
  post m := (inodeAt v1 m off).size = size ∧
    ∀ (i : Fin 10) (blk : ℕ), blocks[i.val]? = some blk → (inodeAt v1 m off).blocks i = blk
  post_congr m m' heq hm := by
    rwa [inodeAt_congr heq]

lemma load_of_holds {a i : ℕ} (h : m.Holds a (blocks.flatMap (leBytes 4)))
    (hlt : ∀ b ∈ blocks, b < u32Size) (hi : blocks[i]? = some blk) : m.load (a + i * 4) 4 = blk := by
  have hdec : ∀ b ∈ blocks, ∀ a, m.Holds a (leBytes 4 b) → m.load a 4 = b := fun b hb a hb' =>
    hb'.load_eq.trans (mod_eq_of_lt (hlt b hb))
  have hall := Memory.Holds.map_range blocks a (fun _ _ => length_leBytes ..) hdec h
  obtain ⟨hlen, rfl⟩ := List.getElem?_eq_some_iff.mp hi
  conv_rhs => rw [← getElem_of_eq hall (by simpa using hlen)]
  simp

lemma copyBlocks_run {blks : List ℕ} (h : copyBlocks blks off img = some img') :
    Image.Run [.copy off (blks.flatMap (leBytes 4))] img img' := by
  induction blks generalizing off img with
  | nil =>
    cases h
    exact ⟨rfl, .single (fun _ _ => rfl) fun i hi => absurd hi (not_lt_zero i)⟩
  | cons b blks ih =>
    obtain ⟨img1, h1, h⟩ := bind_eq_some_iff.mp h
    refine ((copy_eq_some h1).1.append (ih h)).merge ((ordered_copy le_rfl le_rfl).append
      (ordered_copy (by rw [length_leBytes]) le_rfl)) ?_ fun hpost => ?_
    · refine Ico_subset_Ico le_rfl ?_
      rw [flatMap_cons, length_append, length_leBytes]
      omega
    · simp only [cons_append, nil_append, forall_mem_cons] at hpost
      refine hpost.1.append ?_
      rw [length_leBytes]
      exact hpost.2.1

lemma writeInodeSlot_run {mode size now : ℕ} {isDir : Bool}
    (h : writeInodeSlot v1 img off mode size blocks isDir now = some img') (hsize : size < u32Size)
    (hblocks : ∀ b ∈ blocks, b < u32Size) (hlen : blocks.length ≤ 10) :
    Image.Run [slotJob v1 off size blocks] img img' := by
  have htake : blocks.take 10 = blocks := take_of_length_le hlen
  have hflat : (blocks.flatMap (leBytes 4)).length = blocks.length * 4 := by
    simp
  cases v1 with
  | true =>
    simp only [writeInodeSlot, if_true, writeInodeV1, bind_eq_some_iff, htake] at h
    obtain ⟨img2, ⟨img1, h1, h2⟩, h3⟩ := h
    refine (((copy_eq_some h1).1.append (copy_eq_some h2).1).append (copyBlocks_run h3)).merge
      (((ordered_copy le_rfl (by rw [length_leBytes])).append (ordered_copy le_rfl (by rw [length_leBytes]))).append
        (ordered_copy (le_refl (off + 4 + 4)) (le_refl _))) ?_ fun hpost => ?_
    · refine Ico_subset_Ico le_rfl ?_
      show _ ≤ off + 64
      rw [hflat]
      omega
    · simp only [cons_append, nil_append, forall_mem_cons] at hpost
      obtain ⟨-, hs, hb, -⟩ := hpost
      refine ⟨?_, fun i blk hi => ?_⟩
      · show load (fun i => img'.mem (off + i)) 4 4 = size
        rw [load_shift, Memory.Holds.load_eq hs]
        exact mod_eq_of_lt hsize
      · show load (fun i => img'.mem (off + i)) (8 + i * 4) 4 = blk
        rw [load_shift, ← add_assoc]
        exact load_of_holds hb hblocks hi
  | false =>
    have hrun := (copy_eq_some (show img.copy off (inodeBytesV2 mode size blocks isDir now) = some img' from h)).1
    have hbytes : (inodeBytesV2 mode size blocks isDir now).length = 128 := by
      simp only [inodeBytesV2, htake, length_append, length_leBytes, length_replicate, hflat]
      omega
    refine hrun.merge (ordered_copy le_rfl le_rfl) ?_ fun hpost => ?_
    · rw [hbytes]
      exact subset_rfl
    · have hm : img'.mem.Holds off (inodeBytesV2 mode size blocks isDir now) := hpost _ (mem_singleton_self _)
      rw [inodeBytesV2, htake] at hm
      have hhead := hm.left.left.left.left.left.left
      have hb := hhead.right
      have hs := hhead.left.right
      simp only [length_append, length_leBytes, length_replicate] at hb hs
      refine ⟨?_, fun i blk hi => ?_⟩
      · show load (fun i => img'.mem (off + i)) 8 8 = size
        rw [load_shift, Memory.Holds.load_eq hs, mod_eq_of_lt (hsize.trans (by decide))]
      · show load (fun i => img'.mem (off + i)) (16 + i * 4) 4 = blk
        rw [load_shift, ← add_assoc]
        exact load_of_holds hb hblocks hi

/-- Write the inodes of directories that have the blocks from `blk` on. -/
def dirSlotJobs (v1 : Bool) (start : ℕ) : List DirNode → ℕ → List Job
  | [], _ => []
  | d :: ds, blk => slotJob v1 (slotOffset v1 start d.ino) 0 [blk] :: dirSlotJobs v1 start ds (blk + 1)

/-- Write the inodes of files that have the blocks from `blk` on. -/
def fileSlotJobs (v1 : Bool) (start : ℕ) : List Entry → ℕ → List Job
  | [], _ => []
  | f :: fs, blk => slotJob v1 (slotOffset v1 start f.inode) f.data.length (filePointers (blockCount f.data.length) blk) ::
      fileSlotJobs v1 start fs (blk + blockCount f.data.length)

variable {now : ℕ → ℕ} {start : ℕ} {ds : List DirNode} {p : Image × ℕ} {fs : List Entry}
  {dirOff base : ℕ} {is blocks : List ℕ}

lemma writeTableDirs_run (h : writeTableDirs v1 now start ds blk img = some p)
    (hlt : blk + ds.length < u32Size) :
    Image.Run (dirSlotJobs v1 start ds blk) img p.1 ∧ p.2 = blk + ds.length := by
  induction ds generalizing blk img with
  | nil =>
    cases h
    exact ⟨⟨rfl, .nil _⟩, rfl⟩
  | cons d ds ih =>
    obtain ⟨img1, h1, h⟩ := bind_eq_some_iff.mp h
    rw [length_cons] at hlt
    rw [mod_eq_of_lt (by omega)] at h
    obtain ⟨hrun, hnext⟩ := ih h (by omega)
    have hslot := writeInodeSlot_run h1 (by decide) (by simp; omega) (by simp)
    refine ⟨hslot.append hrun, hnext.trans ?_⟩
    rw [length_cons]
    omega

lemma blockCount_le_iff {len : ℕ} (k : ℕ) : blockCount len ≤ k ↔ len ≤ k * onyfsBlockSize := by
  unfold blockCount onyfsBlockSize
  omega

lemma length_filePointers (n blk : ℕ) : (filePointers n blk).length = 10 := by
  simp [filePointers]

lemma filePointers_lt {b : ℕ} (hb : b ∈ filePointers n blk) : b < u32Size := by
  rcases mem_append.mp hb with hb | hb
  · obtain ⟨i, -, rfl⟩ := mem_map.mp hb
    exact mod_lt _ (by decide)
  · rw [eq_of_mem_replicate hb]
    decide

lemma writeTableFiles_run (h : writeTableFiles v1 now start fs blk img = some img')
    (hlt : blk + fileBlocks fs < u32Size) (hsmall : ∀ f ∈ fs, f.data.length ≤ 10 * onyfsBlockSize) :
    Image.Run (fileSlotJobs v1 start fs blk) img img' := by
  induction fs generalizing blk img with
  | nil =>
    cases h
    exact ⟨rfl, .nil _⟩
  | cons f fs ih =>
    rw [fileBlocks_cons] at hlt
    have hlen := hsmall f mem_cons_self
    have hten := (blockCount_le_iff 10).mpr hlen
    obtain ⟨img1, h1, h⟩ := bind_eq_some_iff.mp h
    rw [mod_eq_of_lt (by omega)] at h1
    rw [mod_eq_of_lt (by omega : blockCount f.data.length < u32Size), min_eq_left hten,
      mod_eq_of_lt (by omega)] at h
    have hsize : f.data.length < u32Size := hlen.trans_lt (by decide)
    have hslot := writeInodeSlot_run h1 hsize (fun _ => filePointers_lt) (length_filePointers ..).le
    exact hslot.append (ih h (by omega) fun g hg => hsmall g (mem_cons_of_mem _ hg))

/-! ### No sum wraps -/

lemma writeDir_lt {d : DirNode} (h : writeDir v1 dirOff d img = some img') : dirOff < img.size := by
  simp only [writeDir, writeDirent, bind_eq_some_iff] at h
  obtain ⟨_, ⟨_, ⟨_, ⟨_, h, -⟩, -⟩, -⟩, -⟩ := h
  exact (copy_eq_some h).2

lemma writeDirs_lt (h : writeDirs v1 ds blk img = some p) (hblk : blk < u32Size) :
    p.1.size = img.size ∧ p.2 = (blk + ds.length) % u32Size ∧
      ∀ k < ds.length, (blk + k) % u32Size * onyfsBlockSize < img.size := by
  induction ds generalizing blk img with
  | nil =>
    cases h
    exact ⟨rfl, (mod_eq_of_lt hblk).symm, fun k hk => absurd hk (not_lt_zero k)⟩
  | cons d ds ih =>
    obtain ⟨img1, h1, h⟩ := bind_eq_some_iff.mp h
    obtain ⟨hsize, hnext, hall⟩ := ih h (mod_lt _ (by decide))
    have hkeep := (writeDir_run h1).size_eq
    refine ⟨hsize.trans hkeep, ?_, fun k hk => ?_⟩
    · rw [hnext, mod_add_mod, length_cons]
      congr 1
      omega
    · cases k with
      | zero =>
        rw [add_zero, mod_eq_of_lt hblk]
        exact writeDir_lt h1
      | succ k =>
        have := hall k (lt_of_succ_lt_succ hk)
        rwa [mod_add_mod, hkeep, add_assoc, add_comm 1] at this

lemma writeChunks_lt (h : writeChunks data is blk img = some p) (hblk : blk < u32Size)
    (hne : ∀ i ∈ is, chunk data i ≠ []) :
    p.1.size = img.size ∧ p.2 = (blk + is.length) % u32Size ∧
      ∀ k < is.length, (blk + k) % u32Size * onyfsBlockSize < img.size := by
  induction is generalizing blk img with
  | nil =>
    cases h
    exact ⟨rfl, (mod_eq_of_lt hblk).symm, fun k hk => absurd hk (not_lt_zero k)⟩
  | cons i is ih =>
    obtain ⟨img1, h1, h⟩ := bind_eq_some_iff.mp h
    obtain ⟨hsize, hnext, hall⟩ := ih h (mod_lt _ (by decide)) fun j hj => hne j (mem_cons_of_mem _ hj)
    obtain ⟨⟨hkeep, -⟩, hle⟩ := copy_eq_some h1
    refine ⟨hsize.trans hkeep, ?_, fun k hk => ?_⟩
    · rw [hnext, mod_add_mod, length_cons]
      congr 1
      omega
    · cases k with
      | zero =>
        have hpos := length_pos_iff.mpr (hne i mem_cons_self)
        rw [add_zero, mod_eq_of_lt hblk]
        omega
      | succ k =>
        have := hall k (lt_of_succ_lt_succ hk)
        rwa [mod_add_mod, hkeep, add_assoc, add_comm 1] at this

lemma chunk_ne_nil (h : i < blockCount data.length) : chunk data i ≠ [] := by
  have hlt : i * onyfsBlockSize < data.length := not_le.mp fun hle => not_le.mpr h ((blockCount_le_iff i).mpr hle)
  rw [← length_pos_iff, chunk, length_take, length_drop, onyfsBlockSize] at *
  omega

lemma writeFiles_lt (h : writeFiles fs blk img = some img') (hblk : blk < u32Size) :
    ∀ k < fileBlocks fs, (blk + k) % u32Size * onyfsBlockSize < img.size := by
  induction fs generalizing blk img with
  | nil => exact fun k hk => absurd hk (not_lt_zero k)
  | cons f fs ih =>
    obtain ⟨p, h1, h⟩ := bind_eq_some_iff.mp h
    obtain ⟨hsize, hnext, hall⟩ := writeChunks_lt h1 hblk fun i hi => chunk_ne_nil (mem_range.mp hi)
    rw [length_range] at hnext hall
    rw [hnext] at h
    intro k hk
    rcases lt_or_ge k (blockCount f.data.length) with hlt | hge
    · exact hall k hlt
    · rw [fileBlocks_cons] at hk
      have := ih h (mod_lt _ (by decide)) (k - blockCount f.data.length) (by omega)
      rw [mod_add_mod, hsize] at this
      convert this using 3
      omega

/-- The number of data blocks. -/
def Tree.dataBlocks (t : Tree) : ℕ := t.dirs.length + fileBlocks t.files

lemma dataBlocksStart_lt (ht : t.nextIno < u32Size) (v1 : Bool) : (t.layout v1).dataBlocksStart < u32Size := by
  cases v1 <;>
    simp [Tree.layout, inodeSize, onyfsBlockSize, u32Size, maxSnapshots, snapshotBlocksEach, journalBlockCount] at * <;> omega

lemma layout_totalBlocks (t : Tree) (v1 : Bool) :
    (t.layout v1).totalBlocks = ((t.layout v1).dataBlocksStart + t.dataBlocks) % u32Size := by
  rw [← add_mod_mod]
  rfl

lemma lt_of_writeBlocks (ht : t.nextIno < u32Size) (hsize : img.size = (t.layout v1).imgSize)
    (h : writeBlocks v1 t (t.layout v1) img = some img') :
    (t.layout v1).dataBlocksStart + t.dataBlocks < u32Size := by
  have hstart := dataBlocksStart_lt ht v1
  obtain ⟨p, h1, h2⟩ := bind_eq_some_iff.mp h
  obtain ⟨hsize', hnext, hdirs⟩ := writeDirs_lt h1 hstart
  rw [hnext] at h2
  have hfiles := writeFiles_lt h2 (mod_lt _ (by decide))
  by_contra hge
  -- the block with the largest number would lie inside the image, which is smaller
  have hlast : (u32Size - 1) * onyfsBlockSize < img.size := by
    rw [Tree.dataBlocks] at hge
    rcases lt_or_ge (u32Size - 1 - (t.layout v1).dataBlocksStart) t.dirs.length with hlt | hle
    · have := hdirs _ hlt
      rwa [Nat.add_sub_cancel' (by omega), Nat.mod_eq_of_lt (by decide)] at this
    · have := hfiles (u32Size - 1 - (t.layout v1).dataBlocksStart - t.dirs.length) (by omega)
      rw [mod_add_mod, hsize'] at this
      convert this using 2
      rw [mod_eq_of_lt] <;> omega
  have htotal : (t.layout v1).totalBlocks < u32Size := by
    rw [layout_totalBlocks]
    exact mod_lt _ (by decide)
  have himg : (t.layout v1).imgSize = ((t.layout v1).totalBlocks * onyfsBlockSize + 511) / 512 * 512 := rfl
  rw [hsize, himg, onyfsBlockSize] at hlast
  omega

/-! ### Where the passes write -/

/-- The first `K` bytes are kept. -/
def Image.KeepsBelow (K : ℕ) (img img' : Image) : Prop := ∀ x < K, img'.mem x = img.mem x

/-- The image keeps its size, and only bytes from `K` on are written. -/
structure Image.WritesFrom (K : ℕ) (img img' : Image) : Prop where
  size_eq : img'.size = img.size
  keepsBelow : Image.KeepsBelow K img img'

variable {K : ℕ}

lemma Image.WritesFrom.refl (img : Image) : Image.WritesFrom K img img := ⟨rfl, fun _ _ => rfl⟩

lemma Image.WritesFrom.trans {img'' : Image} (h : Image.WritesFrom K img img') (h' : Image.WritesFrom K img' img'') :
    Image.WritesFrom K img img'' :=
  ⟨h'.size_eq.trans h.size_eq, fun x hx => (h'.keepsBelow x hx).trans (h.keepsBelow x hx)⟩

lemma Image.Run.writesFrom (h : Image.Run [.copy off bytes] img img') (hoff : K ≤ off) :
    Image.WritesFrom K img img' := by
  refine ⟨h.size_eq, fun x hx => h.run.eq_of_notMem fun j hj hmem => ?_⟩
  obtain rfl := mem_singleton.mp hj
  exact absurd hmem.1 (by omega)

lemma setBits_writesFrom (hbase : K ≤ base) (h : setBits base is img = some img') : Image.WritesFrom K img img' := by
  induction is generalizing img with
  | nil =>
    cases h
    exact .refl _
  | cons i is ih =>
    obtain ⟨img1, h1, h⟩ := bind_eq_some_iff.mp h
    refine .trans ?_ (ih h)
    unfold Image.orByte at h1
    split at h1
    · cases h1
      exact ⟨rfl, fun x hx => setByte_apply_of_ne (by omega)⟩
    · cases h1

lemma writeInodeSlot_writesFrom {mode size n : ℕ} {isDir : Bool} (hoff : K ≤ off)
    (h : writeInodeSlot v1 img off mode size blocks isDir n = some img') : Image.WritesFrom K img img' := by
  cases v1 with
  | true =>
    simp only [writeInodeSlot, if_true, writeInodeV1, bind_eq_some_iff] at h
    obtain ⟨img2, ⟨img1, h1, h2⟩, h3⟩ := h
    exact (((copy_eq_some h1).1.writesFrom hoff).trans ((copy_eq_some h2).1.writesFrom (by omega))).trans
      ((copyBlocks_run h3).writesFrom (by omega))
  | false => exact (copy_eq_some h).1.writesFrom hoff

lemma writeTableDirs_writesFrom (hds : ∀ d ∈ ds, K ≤ slotOffset v1 start d.ino)
    (h : writeTableDirs v1 now start ds blk img = some p) : Image.WritesFrom K img p.1 := by
  induction ds generalizing blk img with
  | nil =>
    cases h
    exact .refl _
  | cons d ds ih =>
    obtain ⟨img1, h1, h⟩ := bind_eq_some_iff.mp h
    rw [forall_mem_cons] at hds
    exact (writeInodeSlot_writesFrom hds.1 h1).trans (ih hds.2 h)

lemma writeTableFiles_writesFrom (hfs : ∀ f ∈ fs, K ≤ slotOffset v1 start f.inode)
    (h : writeTableFiles v1 now start fs blk img = some img') : Image.WritesFrom K img img' := by
  induction fs generalizing blk img with
  | nil =>
    cases h
    exact .refl _
  | cons f fs ih =>
    obtain ⟨img1, h1, h⟩ := bind_eq_some_iff.mp h
    rw [forall_mem_cons] at hfs
    exact (writeInodeSlot_writesFrom hfs.1 h1).trans (ih hfs.2 h)

/-- `superblock::write_v1` or `superblock::write_v2`. -/
def writeSuper (v1 : Bool) (now : ℕ → ℕ) (t : Tree) (img : Image) : Option Image :=
  if v1 then writeSuperV1 img (t.layout v1) t.nextIno else writeSuperV2 img (t.layout v1) t.nextIno (now 0)

lemma stages_of_mkimage (h : mkimage v1 now t = some img) :
    ∃ img0 img1 img2, writeSuper v1 now t { size := (t.layout v1).imgSize, mem := fun _ => 0 } = some img0 ∧
      writeBitmaps img0 t.nextIno (t.layout v1).dataBlocksNeeded = some img1 ∧
      writeTable v1 now t (t.layout v1) img1 = some img2 ∧
      writeBlocks v1 t (t.layout v1) img2 = some img ∧ img2.size = (t.layout v1).imgSize := by
  simp only [mkimage, bind_eq_some_iff] at h
  obtain ⟨img2, ⟨img1, ⟨img0, h0, h1⟩, h2⟩, h3⟩ := h
  refine ⟨img0, img1, img2, h0, h1, h2, h3, ?_⟩
  have hsuper : img0.size = (t.layout v1).imgSize := by
    cases v1
    · exact (copy_eq_some h0).1.size_eq
    · exact (copy_eq_some h0).1.size_eq
  obtain ⟨imgb, hb, hb'⟩ := bind_eq_some_iff.mp h1
  obtain ⟨p, hp, hp'⟩ := bind_eq_some_iff.mp h2
  have hbits := (setBits_writesFrom (zero_le _) hb).trans (setBits_writesFrom (zero_le _) hb')
  have htable := (writeTableDirs_writesFrom (fun _ _ => zero_le _) hp).trans
    (writeTableFiles_writesFrom (fun _ _ => zero_le _) hp')
  exact (hbits.trans htable).size_eq.trans hsuper

end Mkimage

end OnyxKernel
