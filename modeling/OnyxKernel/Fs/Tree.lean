import OnyxKernel.Fs.Paths

/-!
# Directory trees

A file system is a tree of directories if every inode with the mode of a directory has a directory block of
its own, apart from the inode table and from the journal.  Writing the block of one directory and committing
the journal keep this, and change the entries of that directory only.
-/

namespace OnyxKernel.Onyxfs

open ByteMemory Function Fs

variable {s t u : Fs} {name : List UInt8} {dir d ino blk : ℕ} {b : Block} {v : Option ℕ}

/-- A slot of the journal. -/
def Fs.IsSlot (s : Fs) (blk : ℕ) : Prop := ¬s.noJournal ∧ ∃ slot < s.sb.journalSize, blk = s.journalBlock slot

/-- The inode is one of the table and has the mode of a directory. -/
def Fs.IsDir (s : Fs) (ino : ℕ) : Prop :=
  s.sb.IsInode ino ∧ (s.inodeAt ino).mode &&& 0o170000 = onyfsDtDir &&& 0o170000

/-- The directories are well formed and have blocks of their own. -/
structure Fs.Tree (s : Fs) : Prop where
  root : s.IsDir onyfsRootIno
  directory : ∀ d, s.IsDir d → s.Directory d
  unshared : ∀ d d', s.IsDir d → s.IsDir d' → (s.inodeAt d).blocks 0 = (s.inodeAt d').blocks 0 → d = d'
  table : ∀ d ino, s.IsDir d → s.sb.IsInode ino → (s.inodeAt d).blocks 0 ≠ s.inodeBlock ino
  dir_slot : ∀ d, s.IsDir d → ¬s.IsSlot ((s.inodeAt d).blocks 0)
  table_slot : ∀ ino, s.sb.IsInode ino → ¬s.IsSlot (s.inodeBlock ino)

lemma Fs.Directory.valid (hd : s.Directory dir) (h : s.dirMap dir name = some ino) :
    ValidName name ∧ ino < u32Size ∧ ino ≠ 0 := by
  obtain ⟨i, hi, hslot⟩ := (SlotTable.get_eq_some_iff hd.dirOk.distinct).mp h
  obtain ⟨rfl, rfl, hne⟩ := entryAt_eq_some_iff.mp hslot
  have hgood := hd.dirOk.good i hi (by rw [hslot]; exact Option.some_ne_none _)
  refine ⟨⟨hgood.ne_nil, length_entryName_le .., fun hmem => ?_⟩, Memory.load_lt .., hne⟩
  have hall := List.all_eq_true.mp (List.all_takeWhile (p := (· != 0)) (l := nameField _ _)) 0 hmem
  simp at hall

lemma Fs.Directory.withBuf (hd : s.Directory d) (b : Block) : (s.withBuf b).Directory d :=
  ⟨hd.ne_zero, hd.dirOk.congr rfl, hd.apart⟩

lemma Fs.Tree.withBuf (hs : s.Tree) (b : Block) : (s.withBuf b).Tree :=
  ⟨hs.root, fun d hd => (hs.directory d hd).withBuf b, hs.unshared, hs.table, hs.dir_slot, hs.table_slot⟩

/-! ### Writing a directory block -/

/-- The block of a directory has been written; of the others, only journal slots may have changed. -/
structure Fs.Rewrote (s : Fs) (dir : ℕ) (b : Block) (t : Fs) : Prop where
  version_eq : t.version = s.version
  sb_eq : t.sb = s.sb
  disk_self : t.disk ((s.inodeAt dir).blocks 0) = b
  disk_ne : ∀ x, x ≠ (s.inodeAt dir).blocks 0 → ¬s.IsSlot x → t.disk x = s.disk x

namespace Fs.Rewrote

section

variable (hw : s.Rewrote dir b t)
include hw

lemma isSlot_iff (x : ℕ) : t.IsSlot x ↔ s.IsSlot x := by
  rw [Fs.IsSlot, Fs.IsSlot, noJournal, noJournal, hw.sb_eq]
  simp only [journalBlock, hw.sb_eq]

lemma inodeBlock_eq (ino : ℕ) : t.inodeBlock ino = s.inodeBlock ino :=
  inodeBlock_congr hw.version_eq hw.sb_eq ino

section

variable (hs : s.Tree) (hd : s.IsDir dir)
include hs hd

lemma inodeAt_eq (hino : s.sb.IsInode ino) : t.inodeAt ino = s.inodeAt ino :=
  inodeAt_congr hw.version_eq hw.sb_eq (hw.disk_ne _ (hs.table dir ino hd hino).symm (hs.table_slot ino hino))

lemma isDir_iff (ino : ℕ) : t.IsDir ino ↔ s.IsDir ino := by
  rw [Fs.IsDir, Fs.IsDir, hw.sb_eq]
  exact and_congr_right fun hino => by rw [hw.inodeAt_eq hs hd hino]

lemma dirMap_self : t.dirMap dir = s.entries b := by
  rw [dirMap, hw.inodeAt_eq hs hd hd.1, hw.disk_self, entries_congr hw.version_eq]

lemma disk_of_ne (hd' : s.IsDir d) (hne : d ≠ dir) :
    t.disk ((s.inodeAt d).blocks 0) = s.disk ((s.inodeAt d).blocks 0) :=
  hw.disk_ne _ (fun heq => hne (hs.unshared d dir hd' hd heq)) (hs.dir_slot d hd')

lemma dirMap_of_ne (hd' : s.IsDir d) (hne : d ≠ dir) : t.dirMap d = s.dirMap d := by
  rw [dirMap, dirMap, hw.inodeAt_eq hs hd hd'.1, hw.disk_of_ne hs hd hd' hne, entries_congr hw.version_eq]

lemma tree (hok : s.DirOk b) : t.Tree := by
  have hdirs := hw.isDir_iff hs hd
  have hinode {ino : ℕ} (hino : s.sb.IsInode ino) := hw.inodeAt_eq hs hd hino
  refine ⟨(hdirs _).mpr hs.root, fun d hd' => ?_, fun d d' h h' => ?_, fun d ino h hino => ?_, fun d h => ?_,
    fun ino hino => ?_⟩
  · rw [hdirs] at hd'
    have hold := hs.directory d hd'
    refine ⟨?_, ?_, ?_⟩
    · rw [hinode hd'.1]
      exact hold.ne_zero
    · rw [hinode hd'.1]
      by_cases hne : d = dir
      · rw [hne, hw.disk_self]
        exact hok.congr hw.version_eq
      · rw [hw.disk_of_ne hs hd hd' hne]
        exact hold.dirOk.congr hw.version_eq
    · rw [hinode hd'.1, hw.inodeBlock_eq]
      exact hold.apart
  · rw [hdirs] at h h'
    rw [hinode h.1, hinode h'.1]
    exact hs.unshared d d' h h'
  · rw [hdirs] at h
    rw [hw.sb_eq] at hino
    rw [hinode h.1, hw.inodeBlock_eq]
    exact hs.table d ino h hino
  · rw [hdirs] at h
    rw [hinode h.1, hw.isSlot_iff]
    exact hs.dir_slot d h
  · rw [hw.sb_eq] at hino
    rw [hw.inodeBlock_eq, hw.isSlot_iff]
    exact hs.table_slot ino hino

end

end

end Fs.Rewrote

lemma Fs.Rewrote.of_logBuf (h : logBuf ((s.inodeAt dir).blocks 0) (s.withBuf b) = .ok () t) :
    s.Rewrote dir b t := by
  rcases logBuf_replaced (s := s) ((s.inodeAt dir).blocks 0) b with ⟨t', hrun, hrep, hroom⟩ | ⟨hrun, -⟩
  · rw [hrun] at h
    cases h
    refine ⟨hrep.version_eq, hrep.sb_eq, hrep.disk_self, fun x hx hslot => hrep.disk_ne x hx ?_⟩
    rcases Classical.em s.noJournal with hno | hyes
    · exact .inl hno
    · exact .inr fun heq => hslot ⟨hyes, s.journalHead, hroom.resolve_left hyes, heq⟩
  · rw [hrun] at h
    cases h

lemma disk_journalCommit (h : journalCommit s = .ok () t) :
    t.version = s.version ∧ t.sb = s.sb ∧ ∀ x, ¬s.IsSlot x → t.disk x = s.disk x := by
  rcases journalCommit_outcome s with hrun | ⟨⟨hyes, hroom⟩, hrun⟩ | hrun
  · cases hrun.symm.trans h
    exact ⟨rfl, rfl, fun _ _ => rfl⟩
  · cases hrun.symm.trans h
    refine ⟨rfl, rfl, fun x hx => update_of_ne ?_ ..⟩
    rintro rfl
    exact hx ⟨hyes, s.journalHead, hroom, rfl⟩
  · cases hrun.symm.trans h
    exact ⟨rfl, rfl, fun _ _ => rfl⟩

lemma exists_journalCommit (s : Fs) : ∃ t, journalCommit s = .ok () t := by
  rcases journalCommit_outcome s with hrun | ⟨-, hrun⟩ | hrun
  · exact ⟨_, hrun⟩
  · exact ⟨_, hrun⟩
  · exact ⟨_, hrun⟩

/-! ### Updates of one entry -/

/-- The entry `name` of the directory `dir` has got the value `v`; nothing else has changed in the
directories. -/
structure Fs.Updates (s : Fs) (dir : ℕ) (name : List UInt8) (v : Option ℕ) (t : Fs) : Prop where
  tree : t.Tree
  version_eq : t.version = s.version
  sb_eq : t.sb = s.sb
  isDir_iff : ∀ d, t.IsDir d ↔ s.IsDir d
  dirMap_self : t.dirMap dir name = v
  dirMap_ne : ∀ d other, s.IsDir d → (d, other) ≠ (dir, name) → t.dirMap d other = s.dirMap d other

lemma Fs.Rewrote.updates (hw : s.Rewrote dir b t) (hs : s.Tree) (hd : s.IsDir dir) (hok : s.DirOk b)
    (hmap : s.entries b = update (s.dirMap dir) name v) : s.Updates dir name v t := by
  refine ⟨hw.tree hs hd hok, hw.version_eq, hw.sb_eq, hw.isDir_iff hs hd, ?_, fun d other hd' hne => ?_⟩
  · rw [hw.dirMap_self hs hd, hmap, update_self]
  · by_cases hdir : d = dir
    · subst hdir
      have hother : other ≠ name := fun heq => hne (by rw [heq])
      rw [hw.dirMap_self hs hd, hmap, update_of_ne hother]
    · rw [hw.dirMap_of_ne hs hd hd' hdir]

lemma addDirent_updates (hs : s.Tree) (hd : s.IsDir dir) (hname : ValidName name) (hino : ino < u32Size)
    (hne : ino ≠ 0) {dtype : UInt8} (h : addDirent dir name ino dtype s = .ok () t) :
    s.Updates dir name (some ino) t := by
  rcases addDirent_eq (hs.directory dir hd) hname hino hne dtype with ⟨b, hrun, hok, hmap, -⟩ | ⟨b, hrun, -⟩
  · rw [hrun] at h
    exact (Fs.Rewrote.of_logBuf h).updates hs hd hok hmap
  · rw [hrun] at h
    cases h

lemma removeDirent_updates (hs : s.Tree) (hd : s.IsDir dir) (hname : ValidName name)
    (h : removeDirent dir name s = .ok () t) : s.Updates dir name none t := by
  rcases removeDirent_eq (hs.directory dir hd) hname with ⟨b, hrun, hok, hmap, -⟩ | ⟨b, hrun, -⟩
  · rw [hrun] at h
    exact (Fs.Rewrote.of_logBuf h).updates hs hd hok hmap
  · rw [hrun] at h
    cases h

lemma journalCommit_updates (hs : s.Tree) (hd : s.IsDir dir) (name : List UInt8) (h : journalCommit s = .ok () t) :
    s.Updates dir name (s.dirMap dir name) t := by
  obtain ⟨hv, hsb, hdisk⟩ := disk_journalCommit h
  have hw : s.Rewrote dir (s.disk ((s.inodeAt dir).blocks 0)) t :=
    ⟨hv, hsb, hdisk _ (hs.dir_slot dir hd), fun x _ hx => hdisk x hx⟩
  refine hw.updates hs hd (hs.directory dir hd).dirOk ?_
  rw [update_eq_self]
  rfl

/-! ### A small tree -/

/-- The small disk with an empty root directory and a file in inode 2. -/
def dirFs : Fs :=
  { smallFs with
    disk := update smallFs.disk 3
      ((((Buffer.zero _).store 0 4 onyfsDtDir).store 16 4 36).store 128 4 0o100644) }

lemma dirFs_blocks : (dirFs.inodeAt 1).blocks 0 = 36 := by decide +kernel

lemma dirFs_isDir_iff : dirFs.IsDir d ↔ d = 1 := by
  constructor
  · rintro ⟨⟨hpos, hle⟩, hmode⟩
    have hcount : dirFs.sb.inodeCount = 2 := rfl
    have htwo : d ≠ 2 := by
      rintro rfl
      revert hmode
      decide +kernel
    omega
  · rintro rfl
    exact ⟨⟨Nat.one_pos, by decide⟩, by decide +kernel⟩

lemma dirFs_inodeBlock (h : dirFs.sb.IsInode ino) : dirFs.inodeBlock ino = 3 := by
  have hcount : dirFs.sb.inodeCount = 2 := rfl
  obtain ⟨hpos, hle⟩ := h
  obtain rfl | rfl : ino = 1 ∨ ino = 2 := by omega
  · decide +kernel
  · decide +kernel

lemma dirFs_isSlot (h : dirFs.IsSlot blk) : 4 ≤ blk ∧ blk < 36 := by
  obtain ⟨-, slot, hslot, rfl⟩ := h
  have hsize : dirFs.sb.journalSize = 32 := rfl
  have hblock : dirFs.journalBlock slot = (4 + slot) % u32Size := rfl
  rw [hblock, Nat.mod_eq_of_lt (by rw [u32Size]; omega)]
  omega

lemma tree_dirFs : dirFs.Tree where
  root := dirFs_isDir_iff.mpr rfl
  directory d hd := by
    obtain rfl := dirFs_isDir_iff.mp hd
    have hempty (i : ℕ) : dirFs.slots (dirFs.disk 36) i = none := rootFs_slots i
    refine ⟨by rw [dirFs_blocks]; decide, ?_, by rw [dirFs_blocks]; decide +kernel⟩
    rw [dirFs_blocks]
    exact ⟨fun i _ hne => absurd (hempty i) hne, fun i _ j _ k v w hi => by rw [hempty] at hi; cases hi⟩
  unshared d d' hd hd' _ := (dirFs_isDir_iff.mp hd).trans (dirFs_isDir_iff.mp hd').symm
  table d ino hd hino := by
    obtain rfl := dirFs_isDir_iff.mp hd
    rw [dirFs_blocks, dirFs_inodeBlock hino]
    decide
  dir_slot d hd hslot := by
    obtain rfl := dirFs_isDir_iff.mp hd
    rw [dirFs_blocks] at hslot
    have := dirFs_isSlot hslot
    omega
  table_slot ino hino hslot := by
    rw [dirFs_inodeBlock hino] at hslot
    have := dirFs_isSlot hslot
    omega

/-- The small tree with the file under the name `a`. -/
def fileFs : Fs := match addDirent 1 [0x61] 2 8 dirFs with
  | .ok _ t => t
  | .error _ t => t

lemma updates_fileFs : dirFs.Updates 1 [0x61] (some 2) fileFs := by
  have hok : (match addDirent 1 [0x61] 2 8 dirFs with | .ok _ _ => true | .error _ _ => false) = true := by
    decide +kernel
  have hrun : addDirent 1 [0x61] 2 8 dirFs = .ok () fileFs := by
    rw [fileFs]
    cases h : addDirent 1 [0x61] 2 8 dirFs with
    | ok a t => rfl
    | error e t =>
      rw [h] at hok
      cases hok
  exact addDirent_updates tree_dirFs tree_dirFs.root ⟨by decide, by decide, by decide⟩ (by decide) (by decide) hrun

end OnyxKernel.Onyxfs
