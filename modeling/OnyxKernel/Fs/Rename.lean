import OnyxKernel.Fs.Tree

/-!
# Renaming

`rename` adds the entry of the new path and then removes the entry of the old one.  If the parents of both
paths are reached through directories, and without the two entries themselves, this moves the file exactly
if the two entries are different ones and the new name fits into an entry.  Otherwise, `rename("/a", "/a")`
removes the file, and a longer name is cut off and not found again.
-/

namespace OnyxKernel.Onyxfs

open ByteMemory KResult List Fs

variable {s t u : Fs} {path oldPath newPath name : List UInt8} {dir ino : ℕ} {b : Block}

/-! ### Names that do not fit -/

lemma direntMatches_eq_false (s : Fs) (i : ℕ) (hlong : onyfsNameMax < name.length) :
    direntMatches (s.dirent i) name = false := by
  unfold direntMatches
  rw [decide_eq_false_iff_not, s.dirent_name]
  rintro ⟨-, htake⟩
  have hlen := congrArg length htake
  rw [length_take, length_nameField] at hlen
  omega

lemma lookupScan_of_long (hlong : onyfsNameMax < name.length) (fuel i : ℕ) (hi : i + fuel ≤ s.direntsPerBlock) :
    lookupScan name fuel i s = .error .noEnt s := by
  induction fuel generalizing i with
  | zero => rfl
  | succ fuel ih =>
    have hlt : i < s.direntsPerBlock := by omega
    rw [lookupScan, bind_of_ok (parseDirent_eq hlt), direntMatches_eq_false s i hlong, if_neg (by simp)]
    exact ih (i + 1) (by omega)

lemma lookupIno_of_long (s : Fs) (dir : ℕ) (hlong : onyfsNameMax < name.length) :
    lookupIno dir name s = .error .noEnt := by
  rw [lookupIno, lookupIn, bind_of_ok (readInode_eq dir s)]
  by_cases hzero : (s.inodeAt dir).blocks 0 = 0
  · rw [if_pos hzero]
    rfl
  · rw [if_neg hzero, readBuf_bind, get_bind,
      bind_of_error (lookupScan_of_long hlong _ 0 (Nat.zero_add _).le)]

/-! ### Paths and entries -/

/-- The inode number that `lookup` finds. -/
def resolve (path : List UInt8) (s : Fs) : Except Errno ℕ :=
  match lookup path s with
  | .ok st _ => .ok st.ino
  | .error e _ => .error e

lemma resolve_eq (path : List UInt8) (s : Fs) : resolve path s = s.walk onyfsRootIno (components path) := by
  obtain ⟨b, ⟨st, hok, hwalk⟩ | ⟨e, herr, hwalk⟩⟩ := lookup_eq path s
  · rw [resolve, hok, hwalk]
  · rw [resolve, herr, hwalk]

/-- The parent path and the name of an absolute path. -/
def parentPath (path : List UInt8) : List UInt8 := (splitPath path.tail).1

/-- The name of an absolute path. -/
def fileName (path : List UInt8) : List UInt8 := (splitPath path.tail).2

/-- The directory entry that an absolute path names: the inode of its parent and its name. -/
def Fs.entryOf (s : Fs) (path : List UInt8) : Except Errno (ℕ × List UInt8) :=
  match parentIno (parentPath path) s with
  | .ok parent _ => .ok (parent, fileName path)
  | .error e _ => .error e

lemma Fs.entryOf_eq_ok_iff {p : ℕ} : s.entryOf path = .ok (p, name) ↔
    s.walk onyfsRootIno (components (parentPath path)) = .ok p ∧ fileName path = name := by
  obtain ⟨b, hb⟩ := parentIno_eq (parentPath path) s
  rw [entryOf, hb]
  cases s.walk onyfsRootIno (components (parentPath path)) with
  | error e => simp
  | ok ino => simp

lemma resolve_parent (habs : path.head? = some slash) (hname : fileName path ≠ []) (s : Fs) :
    resolve path s = s.walk onyfsRootIno (components (parentPath path)) >>= fun p =>
      lookupIno p (fileName path) s := by
  have hpath : path = slash :: path.tail := (cons_head?_tail habs).symm
  have hcomp : components path = components (parentPath path) ++ [fileName path] := by
    conv_lhs => rw [hpath, components_slash]
    exact components_splitPath _ hname
  rw [resolve_eq, hcomp, walk_append]
  congr 1
  funext p
  rw [walk_cons]
  cases lookupIno p (fileName path) s <;> rfl

/-- `split_parent`: the parent path and the name, where a leading slash is left out. -/
def splitParent (path : List UInt8) : List UInt8 × List UInt8 :=
  splitPath (if path.head? = some slash then path.tail else path)

/-! ### The law -/

/-- What `rename` is for: the new path leads to the file, the old one to nothing, and no other entry
changes.  Renaming a file to itself does nothing. -/
structure RenameLaw (oldPath newPath : List UInt8) (s t : Fs) : Prop where
  new : resolve newPath t = resolve oldPath s
  old : s.entryOf oldPath ≠ s.entryOf newPath → resolve oldPath t = .error .noEnt
  other : ∀ d name, s.IsDir d → s.entryOf oldPath ≠ .ok (d, name) → s.entryOf newPath ≠ .ok (d, name) →
    lookupIno d name t = lookupIno d name s
  same : s.entryOf oldPath = s.entryOf newPath → ∀ x, ¬s.IsSlot x → t.disk x = s.disk x

/-- The parent of a path is a directory and is reached through directories, and not through the entries
that `rename` changes. -/
structure Fs.Clear (s : Fs) (oldPath newPath path : List UInt8) : Prop where
  isDir : ∀ p name, s.entryOf path = .ok (p, name) → s.IsDir p
  route : ∀ e ∈ s.route onyfsRootIno (components (parentPath path)),
    s.IsDir e.1 ∧ s.entryOf oldPath ≠ .ok e ∧ s.entryOf newPath ≠ .ok e

/-- The steps of a successful `rename`. -/
structure Renamed (oldPath newPath : List UInt8) (s : Fs) (po pn ino : ℕ) (t : Fs) : Prop where
  absolute : oldPath.head? = some slash ∧ newPath.head? = some slash
  name_ne : fileName oldPath ≠ [] ∧ fileName newPath ≠ []
  resolve_old : resolve oldPath s = .ok ino
  entry_old : s.entryOf oldPath = .ok (po, fileName oldPath)
  entry_new : s.entryOf newPath = .ok (pn, fileName newPath)
  run : ∃ b dtype u v, addDirent pn (fileName newPath) ino dtype (s.withBuf b) = .ok () u ∧
    removeDirent po (fileName oldPath) u = .ok () v ∧ journalCommit v = .ok () t

lemma parentIno_eq_ok {p : ℕ} (h : parentIno path s = .ok p u) :
    ∃ b, u = s.withBuf b ∧ s.walk onyfsRootIno (components path) = .ok p := by
  obtain ⟨b, hb⟩ := parentIno_eq path s
  rw [h] at hb
  cases hwalk : s.walk onyfsRootIno (components path) with
  | error e =>
    rw [hwalk] at hb
    cases hb
  | ok ino =>
    rw [hwalk] at hb
    cases hb
    exact ⟨b, rfl, rfl⟩

lemma rename_eq_ok (h : rename oldPath newPath s = .ok () t) :
    ∃ po pn ino, Renamed oldPath newPath s po pn ino t := by
  rw [rename] at h
  split at h
  · cases h
  rename_i habs
  rw [not_or, not_not, not_not] at habs
  obtain ⟨st, s1, hlook, h⟩ := bind_eq_ok_iff.mp h
  obtain ⟨b1, ⟨st', hok, hwalk⟩ | ⟨e, herr, -⟩⟩ := lookup_eq oldPath s
  swap
  · rw [herr] at hlook
    cases hlook
  rw [hok] at hlook
  cases hlook
  dsimp only at h
  split at h
  · cases h
  rename_i hnames
  rw [not_or] at hnames
  obtain ⟨po, s2, hpo, h⟩ := bind_eq_ok_iff.mp h
  obtain ⟨b2, rfl, hwo⟩ := parentIno_eq_ok hpo
  obtain ⟨pn, s3, hpn, h⟩ := bind_eq_ok_iff.mp h
  obtain ⟨b3, rfl, hwn⟩ := parentIno_eq_ok hpn
  obtain ⟨⟨⟩, u, hadd, h⟩ := bind_eq_ok_iff.mp h
  obtain ⟨⟨⟩, v, hremove, h⟩ := bind_eq_ok_iff.mp h
  simp only [walk_withBuf] at hwo hwn
  refine ⟨po, pn, st.ino, habs, hnames, ?_, entryOf_eq_ok_iff.mpr ⟨hwo, rfl⟩,
    entryOf_eq_ok_iff.mpr ⟨hwn, rfl⟩, b3, _, u, v, hadd, hremove, h⟩
  rw [resolve_eq, hwalk]

variable {po pn : ℕ}

lemma dirMap_of_resolve (hs : s.Tree) (habs : path.head? = some slash) (hname : fileName path ≠ [])
    (hres : resolve path s = .ok ino) (he : s.entryOf path = .ok (dir, fileName path)) (hd : s.IsDir dir) :
    s.dirMap dir (fileName path) = some ino := by
  rw [resolve_parent habs hname, (entryOf_eq_ok_iff.mp he).1] at hres
  have hlook : lookupIno dir (fileName path) s = .ok ino := hres
  rw [lookupIno_eq (hs.directory dir hd)] at hlook
  cases hmap : s.dirMap dir (fileName path) with
  | none =>
    rw [hmap] at hlook
    cases hlook
  | some i =>
    rw [hmap] at hlook
    cases hlook
    rfl

lemma Renamed.dirMap_old (h : Renamed oldPath newPath s po pn ino t) (hs : s.Tree) (hd : s.IsDir po) :
    s.dirMap po (fileName oldPath) = some ino :=
  dirMap_of_resolve hs h.absolute.1 h.name_ne.1 h.resolve_old h.entry_old hd

/-- The entry `old` is gone, the entry `new` leads to `ino`, and nothing else has changed in the
directories. -/
structure Fs.Moves (s : Fs) (old new : ℕ × List UInt8) (ino : ℕ) (t : Fs) : Prop where
  tree : t.Tree
  version_eq : t.version = s.version
  sb_eq : t.sb = s.sb
  isDir_iff : ∀ d, t.IsDir d ↔ s.IsDir d
  gone : t.dirMap old.1 old.2 = none
  there : new ≠ old → t.dirMap new.1 new.2 = some ino
  rest : ∀ d name, s.IsDir d → (d, name) ≠ old → (d, name) ≠ new → t.dirMap d name = s.dirMap d name

section

variable (h : Renamed oldPath newPath s po pn ino t)
include h

/-- What a successful `rename` with a valid new name does to the directories. -/
theorem Renamed.moves (hs : s.Tree) (ho : s.IsDir po) (hn : s.IsDir pn)
    (hname : ValidName (fileName newPath)) :
    s.Moves (po, fileName oldPath) (pn, fileName newPath) ino t := by
  obtain ⟨b, dtype, u, v, hadd, hremove, hcommit⟩ := h.run
  obtain ⟨hold, hino, hne⟩ := (hs.directory po ho).valid (h.dirMap_old hs ho)
  have h1 := addDirent_updates (hs.withBuf b) hn hname hino hne hadd
  have ho1 : u.IsDir po := (h1.isDir_iff po).mpr ho
  have h2 := removeDirent_updates h1.tree ho1 hold hremove
  have h3 := journalCommit_updates h2.tree ((h2.isDir_iff po).mpr ho1) (fileName oldPath) hcommit
  -- the commit keeps every entry, and the removal all but one
  have hkeep : ∀ d name, s.IsDir d → (d, name) ≠ (po, fileName oldPath) → t.dirMap d name = u.dirMap d name := by
    intro d name hd hne
    have hd1 : u.IsDir d := (h1.isDir_iff d).mpr hd
    rw [h3.dirMap_ne d name ((h2.isDir_iff d).mpr hd1) hne, h2.dirMap_ne d name hd1 hne]
  refine ⟨h3.tree, (h3.version_eq.trans h2.version_eq).trans h1.version_eq,
    (h3.sb_eq.trans h2.sb_eq).trans h1.sb_eq,
    fun d => ((h3.isDir_iff d).trans (h2.isDir_iff d)).trans (h1.isDir_iff d), ?_, fun hne => ?_,
    fun d name hd hne hne' => ?_⟩
  · rw [h3.dirMap_self, h2.dirMap_self]
  · rw [hkeep pn _ hn hne, h1.dirMap_self]
  · rw [hkeep d name hd hne]
    exact h1.dirMap_ne d name hd hne'

/-- With different entries and a valid new name, `rename` moves the file. -/
theorem Renamed.law (hs : s.Tree)
    (hold : s.Clear oldPath newPath oldPath) (hnew : s.Clear oldPath newPath newPath)
    (hname : ValidName (fileName newPath)) (hne : s.entryOf oldPath ≠ s.entryOf newPath) :
    RenameLaw oldPath newPath s t := by
  have ho := hold.isDir _ _ h.entry_old
  have hn := hnew.isDir _ _ h.entry_new
  have hmoves := h.moves hs ho hn hname
  have hdir {d : ℕ} (hd : s.IsDir d) : t.Directory d := hmoves.tree.directory d ((hmoves.isDir_iff d).mpr hd)
  have hother : ∀ d name, s.IsDir d → s.entryOf oldPath ≠ .ok (d, name) → s.entryOf newPath ≠ .ok (d, name) →
      lookupIno d name t = lookupIno d name s := by
    intro d name hd hneo hnen
    rw [h.entry_old] at hneo
    rw [h.entry_new] at hnen
    rw [lookupIno_eq (hs.directory d hd), lookupIno_eq (hdir hd),
      hmoves.rest d name hd (fun heq => hneo (by rw [heq])) (fun heq => hnen (by rw [heq]))]
  -- the way to either parent stays as it is
  have hwalk : ∀ path, s.Clear oldPath newPath path →
      t.walk onyfsRootIno (components (parentPath path)) = s.walk onyfsRootIno (components (parentPath path)) :=
    fun path hclear => walk_congr fun e he =>
      hother e.1 e.2 (hclear.route e he).1 (hclear.route e he).2.1 (hclear.route e he).2.2
  refine ⟨?_, fun _ => ?_, hother, fun heq => absurd heq hne⟩
  · rw [resolve_parent h.absolute.2 h.name_ne.2, hwalk _ hnew, (entryOf_eq_ok_iff.mp h.entry_new).1, h.resolve_old]
    show lookupIno pn (fileName newPath) t = .ok ino
    rw [lookupIno_eq (hdir hn), hmoves.there]
    rw [h.entry_old, h.entry_new] at hne
    exact fun heq => hne (by rw [heq])
  · rw [resolve_parent h.absolute.1 h.name_ne.1, hwalk _ hold, (entryOf_eq_ok_iff.mp h.entry_old).1]
    show lookupIno po (fileName oldPath) t = .error .noEnt
    rw [lookupIno_eq (hdir ho), hmoves.gone]

lemma Renamed.not_law_of_same (hs : s.Tree) (ho : s.IsDir po)
    (heq : s.entryOf oldPath = s.entryOf newPath) : ¬RenameLaw oldPath newPath s t := by
  intro hlaw
  have hpo : po = pn ∧ fileName oldPath = fileName newPath := by
    rw [h.entry_old, h.entry_new] at heq
    simpa using heq
  have hthere := h.dirMap_old hs ho
  have hvalid := ((hs.directory po ho).valid hthere).1
  have hmoves := h.moves hs ho (hpo.1 ▸ ho) (hpo.2 ▸ hvalid)
  -- nothing should have changed, but the entry was there and is not any more
  have hsame : s.Rewrote po (s.disk ((s.inodeAt po).blocks 0)) t :=
    ⟨hmoves.version_eq, hmoves.sb_eq, hlaw.same heq _ (hs.dir_slot po ho), fun x _ hx => hlaw.same heq x hx⟩
  have hgone := hmoves.gone
  rw [hsame.dirMap_self hs ho] at hgone
  exact Option.some_ne_none _ (hthere.symm.trans hgone)

lemma Renamed.not_law_of_long
    (hlong : onyfsNameMax < (fileName newPath).length) : ¬RenameLaw oldPath newPath s t := by
  intro hlaw
  have hres := hlaw.new
  rw [h.resolve_old, resolve_parent h.absolute.2 h.name_ne.2] at hres
  cases hwalk : t.walk onyfsRootIno (components (parentPath newPath)) with
  | error e =>
    rw [hwalk] at hres
    cases hres
  | ok p =>
    rw [hwalk] at hres
    have hlook : lookupIno p (fileName newPath) t = .ok ino := hres
    rw [lookupIno_of_long t p hlong] at hlook
    cases hlook

end

lemma entryOf_root (s : Fs) (c : UInt8) (hc : c ≠ slash) : s.entryOf [slash, c] = .ok (onyfsRootIno, [c]) := by
  have hsplit : splitPath [c] = ([], [c]) := by simp [splitPath, hc]
  refine entryOf_eq_ok_iff.mpr ⟨?_, ?_⟩
  · rw [parentPath, tail_cons, hsplit]
    rfl
  · rw [fileName, tail_cons, hsplit]

lemma clear_root (hs : s.Tree) {c : UInt8} (hc : c ≠ slash) (oldPath newPath : List UInt8) :
    s.Clear oldPath newPath [slash, c] := by
  refine ⟨fun p name hp => ?_, fun e he => ?_⟩
  · rw [entryOf_root s c hc] at hp
    cases hp
    exact hs.root
  · have hsplit : splitPath [c] = ([], [c]) := by simp [splitPath, hc]
    rw [parentPath, tail_cons, hsplit] at he
    cases he

/-- `rename` succeeds between directories if there is room for the new entry and for two journal entries. -/
theorem exists_rename (hs : s.Tree) (habs : oldPath.head? = some slash ∧ newPath.head? = some slash)
    (hne : fileName oldPath ≠ []) (hname : ValidName (fileName newPath))
    (hres : resolve oldPath s = .ok ino) (heo : s.entryOf oldPath = .ok (po, fileName oldPath))
    (hen : s.entryOf newPath = .ok (pn, fileName newPath)) (ho : s.IsDir po) (hn : s.IsDir pn)
    (hj : ¬s.noJournal) (hroom : s.journalHead + 2 ≤ s.sb.journalSize)
    (hslot : ¬SlotTable.Full s.direntsPerBlock (s.slots (s.disk ((s.inodeAt pn).blocks 0)))) :
    ∃ t, rename oldPath newPath s = .ok () t := by
  have hthere := dirMap_of_resolve hs habs.1 hne hres heo ho
  obtain ⟨hold, hino, hzero⟩ := (hs.directory po ho).valid hthere
  obtain ⟨b1, ⟨st, hlook, hwalk⟩ | ⟨e, -, hwalk⟩⟩ := lookup_eq oldPath s
  swap
  · rw [resolve_eq, hwalk] at hres
    cases hres
  obtain rfl : ino = st.ino := by
    rw [resolve_eq, hwalk] at hres
    exact (Except.ok.inj hres).symm
  obtain ⟨b2, hpo⟩ := parentIno_eq (parentPath oldPath) (s.withBuf b1)
  obtain ⟨b3, hpn⟩ := parentIno_eq (parentPath newPath) ((s.withBuf b1).withBuf b2)
  simp only [walk_withBuf, withBuf_withBuf] at hpo hpn
  rw [(entryOf_eq_ok_iff.mp heo).1] at hpo
  rw [(entryOf_eq_ok_iff.mp hen).1] at hpn
  -- the new entry
  obtain ⟨u, hadd, hsb, hhead⟩ : ∃ u, addDirent pn (fileName newPath) st.ino (UInt8.ofNat (st.mode / 2 ^ 12 % 16))
      (s.withBuf b3) = .ok () u ∧ u.sb = s.sb ∧ u.journalHead = s.journalHead + 1 := by
    rcases addDirent_eq ((hs.directory pn hn).withBuf b3) hname hino hzero _ with ⟨b, hrun, -⟩ | ⟨b, -, -, hfull⟩
    · refine ⟨_, hrun.trans (logBuf_eq ⟨hj, ?_⟩ b), rfl, rfl⟩
      omega
    · exact absurd hfull hslot
  have hup := addDirent_updates (hs.withBuf b3) hn hname hino hzero hadd
  have hstill : u.dirMap po (fileName oldPath) ≠ none := by
    by_cases hsame : (po, fileName oldPath) = (pn, fileName newPath)
    · rw [Prod.mk.injEq] at hsame
      rw [hsame.1, hsame.2, hup.dirMap_self]
      exact Option.some_ne_none _
    · rw [hup.dirMap_ne po _ ho hsame]
      exact hthere ▸ Option.some_ne_none _
  -- the old entry
  obtain ⟨v, hremove⟩ : ∃ v, removeDirent po (fileName oldPath) u = .ok () v := by
    rcases removeDirent_eq (hup.tree.directory po ((hup.isDir_iff po).mpr ho)) hold with ⟨b, hrun, -⟩ | ⟨b, -, hnone⟩
    · refine ⟨_, hrun.trans (logBuf_eq ⟨?_, ?_⟩ b)⟩
      · rwa [noJournal, hsb]
      · rw [hsb, hhead]
        omega
    · exact absurd hnone hstill
  obtain ⟨t, hcommit⟩ := exists_journalCommit v
  refine ⟨t, ?_⟩
  rw [rename, if_neg (by simp [habs]), bind_of_ok hlook]
  dsimp only
  have hnames : ¬((splitPath oldPath.tail).2 = [] ∨ (splitPath newPath.tail).2 = []) :=
    not_or.mpr ⟨hne, hname.ne_nil⟩
  rw [if_neg hnames]
  refine (bind_of_ok hpo).trans ((bind_of_ok hpn).trans ((bind_of_ok hadd).trans ?_))
  exact (bind_of_ok hremove).trans hcommit

/-- The file `/a` of the small tree can be renamed inside the root directory. -/
theorem exists_rename_fileFs (c : UInt8) (hc : c ≠ slash) (hnul : c ≠ 0) :
    ∃ t, rename [slash, 0x61] [slash, c] fileFs = .ok () t := by
  have hs := updates_fileFs.tree
  have hname {c : UInt8} (hc : c ≠ slash) : fileName [slash, c] = [c] := by simp [fileName, splitPath, hc]
  have ha : (0x61 : UInt8) ≠ slash := by decide
  have hentry {c : UInt8} (hc : c ≠ slash) : fileFs.entryOf [slash, c] = .ok (onyfsRootIno, fileName [slash, c]) :=
    (entryOf_root fileFs c hc).trans (by rw [hname hc])
  have hres : resolve [slash, 0x61] fileFs = .ok 2 := by
    rw [resolve_parent rfl (by rw [hname ha]; simp), (entryOf_eq_ok_iff.mp (hentry ha)).1, hname ha]
    show lookupIno onyfsRootIno [0x61] fileFs = .ok 2
    rw [lookupIno_eq (hs.directory _ hs.root)]
    have hthere : fileFs.dirMap onyfsRootIno [0x61] = some 2 := updates_fileFs.dirMap_self
    rw [hthere]
  have hvalid : ValidName (fileName [slash, c]) := by
    rw [hname hc]
    exact ⟨by simp, by simp [onyfsNameMax], by simpa using hnul.symm⟩
  refine exists_rename hs ⟨rfl, rfl⟩ (by rw [hname ha]; simp) hvalid hres (hentry ha) (hentry hc) hs.root hs.root
    (by decide +kernel) (by decide +kernel) fun hfull => hfull 1 (by decide +kernel) (by decide +kernel)

end OnyxKernel.Onyxfs
