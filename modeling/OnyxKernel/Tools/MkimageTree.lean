import OnyxKernel.Fs.Paths
import OnyxKernel.Tools.MkimageLayout

/-!
# The tree of the image builder

`add_dir` and `add_file` find directories by the names on a path, and `add_file` creates directories that
are missing.  It decides by the name alone, and only in the first two levels, whether a directory is there, and
skips a component that equals the name of the file.  A request is carried out as meant if these tests give the
right answer for every directory on its path; then the path leads to the new inode, and all earlier
paths lead where they led before.
-/

namespace OnyxKernel.Mkimage

open ByteMemory Onyxfs List Nat Tree DirNode

variable {t t' : Tree} {ino : ℕ} {c name base cur : List UInt8} {cs : List (List UInt8)} {d : DirNode}
  {i j : ℕ} {d' : DirNode}

/-! ### Paths -/

/-- A component of a path. -/
def IsComponent (c : List UInt8) : Prop := c ≠ [] ∧ slash ∉ c

/-- The absolute path with the given components. -/
def joinPath (cs : List (List UInt8)) : List UInt8 := cs.flatMap (slash :: ·)

lemma joinPath_cons (c : List UInt8) (cs : List (List UInt8)) : joinPath (c :: cs) = slash :: (c ++ joinPath cs) := rfl

lemma joinPath_concat (cs : List (List UInt8)) (c : List UInt8) : joinPath (cs ++ [c]) = joinPath cs ++ slash :: c := by
  simp [joinPath]

lemma trimStart_component (hc : IsComponent c) (l : List UInt8) : trimStart (c ++ l) = c ++ l := by
  obtain ⟨hne, hslash⟩ := hc
  cases c with
  | nil => exact absurd rfl hne
  | cons a c =>
    have ha : a ≠ slash := fun heq => hslash (heq ▸ mem_cons_self)
    simp [trimStart, ha]

lemma trimStart_cons (hc : IsComponent c) (l : List UInt8) : trimStart (slash :: (c ++ l)) = c ++ l :=
  trimStart_component hc l

lemma splitPath_append (l : List UInt8) (hc : slash ∉ c) : splitPath (l ++ slash :: c) = (l, c) := by
  have hall : ∀ a ∈ c.reverse, (a != slash) = true := fun a ha =>
    bne_iff_ne.mpr fun heq => hc (heq ▸ mem_reverse.mp ha)
  have hrev : (l ++ slash :: c).reverse = c.reverse ++ slash :: l.reverse := by simp
  simp only [splitPath, hrev, takeWhile_append_of_pos hall, dropWhile_append_of_pos hall]
  simp

lemma splitPath_component (hc : slash ∉ c) : splitPath c = ([], c) := by
  have hall : ∀ a ∈ c.reverse, (a != slash) = true := fun a ha =>
    bne_iff_ne.mpr fun heq => hc (heq ▸ mem_reverse.mp ha)
  simp [splitPath, takeWhile_eq_self_iff.mpr hall, dropWhile_eq_nil_iff.mpr hall]

lemma splitSlash_join (hc : IsComponent c) (hcs : ∀ x ∈ cs, IsComponent x) : splitSlash (c ++ joinPath cs) = c :: cs := by
  induction cs generalizing c with
  | nil =>
    rw [joinPath, flatMap_nil, append_nil]
    exact splitOnP_eq_singleton fun a ha => beq_eq_false_iff_ne.mpr (ne_of_mem_of_not_mem ha hc.2)
  | cons x cs ih =>
    have hsplit := splitOnP_append_cons (p := (· == slash)) c (x ++ joinPath cs) (beq_self_eq_true slash)
    rw [joinPath_cons, splitSlash, hsplit, splitOnP_eq_singleton]
    · exact congrArg (c :: ·) (ih (hcs x mem_cons_self) fun y hy => hcs y (mem_cons_of_mem _ hy))
    · exact fun a ha => beq_eq_false_iff_ne.mpr (ne_of_mem_of_not_mem ha hc.2)

lemma filter_components (hcs : ∀ x ∈ cs, IsComponent x) : cs.filter (· != []) = cs :=
  filter_eq_self.mpr fun x hx => bne_iff_ne.mpr (hcs x hx).1

lemma basename_join (hcs : ∀ x ∈ cs, IsComponent x) (hc : IsComponent c) : basename (joinPath (cs ++ [c])) = c := by
  unfold basename
  cases cs with
  | nil =>
    rw [nil_append, joinPath_cons, trimStart_cons hc, joinPath, flatMap_nil, append_nil,
      splitPath_component hc.2]
  | cons x cs =>
    rw [cons_append, joinPath_cons, trimStart_cons (hcs x mem_cons_self), joinPath_concat, ← append_assoc,
      splitPath_append _ hc.2]

lemma findParentDir_join (dirs : List DirNode) (hcs : ∀ x ∈ cs, IsComponent x) (hc : IsComponent c) :
    findParentDir dirs (joinPath (cs ++ [c])) = cs.foldl (findChild dirs) 0 := by
  unfold findParentDir
  cases cs with
  | nil =>
    have hpath : joinPath ([] ++ [c]) = slash :: (c ++ []) := rfl
    rw [hpath, trimStart_cons hc, append_nil]
    simp [hc.2]
  | cons x cs =>
    have hx := hcs x mem_cons_self
    have hrest : ∀ y ∈ cs, IsComponent y := fun y hy => hcs y (mem_cons_of_mem _ hy)
    rw [cons_append, joinPath_cons, trimStart_cons hx, joinPath_concat, ← append_assoc]
    simp only [mem_append, mem_cons_self, or_true, not_true_eq_false, if_false, splitPath_append _ hc.2,
      splitSlash_join hx hrest]
    rw [filter_components hcs]

/-! ### Walking through the tree -/

/-- The directory with an inode number. -/
def Tree.node (t : Tree) (ino : ℕ) : Option DirNode := t.dirs.find? (·.ino == ino)

/-- The first entry with a name. -/
def DirNode.child (d : DirNode) (c : List UInt8) : Option ℕ := (d.entries.find? (·.1 == c)).map (·.2.1)

/-- Follow components from the directory with inode number `ino` on. -/
def Tree.walkFrom (t : Tree) : ℕ → List (List UInt8) → Option ℕ
  | ino, [] => some ino
  | ino, c :: cs => ((t.node ino).bind (·.child c)).bind fun next => t.walkFrom next cs

/-- Follow components from the root directory on. -/
def Tree.walk (t : Tree) (cs : List (List UInt8)) : Option ℕ := t.walkFrom 1 cs

lemma Tree.walkFrom_append (t : Tree) (ino : ℕ) (cs cs' : List (List UInt8)) :
    t.walkFrom ino (cs ++ cs') = (t.walkFrom ino cs).bind fun i => t.walkFrom i cs' := by
  induction cs generalizing ino with
  | nil => rfl
  | cons c cs ih =>
    rw [cons_append, walkFrom, walkFrom]
    cases (t.node ino).bind (·.child c) with
    | none => rfl
    | some i => exact ih i

/-- Directories and entries fit together. -/
structure Tree.Wf (t : Tree) : Prop where
  numbered : t.Numbered
  root : ∃ entries rest, t.dirs = ⟨1, 1, entries⟩ :: rest
  nextIno_pos : 0 < t.nextIno
  nodup : ∀ d ∈ t.dirs, (d.entries.map (·.1)).Nodup
  entry_lt : ∀ d ∈ t.dirs, ∀ e ∈ d.entries, e.2.1 < t.nextIno
  parent : ∀ d ∈ t.dirs, ∀ e ∈ d.entries, ∀ d' ∈ t.dirs, d'.ino = e.2.1 → d'.parentIno = d.ino

lemma Tree.node_eq_some (h : t.node ino = some d) : d ∈ t.dirs ∧ d.ino = ino :=
  ⟨mem_of_find?_eq_some h, by simpa using find?_some h⟩

lemma DirNode.child_eq_none_iff : d.child c = none ↔ c ∉ d.entries.map (·.1) := by
  rw [child, Option.map_eq_none_iff, find?_eq_none, mem_map]
  exact ⟨fun h ⟨e, he, heq⟩ => h e he (beq_iff_eq.mpr heq), fun h e he heq => h ⟨e, he, beq_iff_eq.mp heq⟩⟩

lemma exists_findIdx? {α : Type*} {p : α → Bool} {l : List α} {a : α} (h : l.find? p = some a) :
    ∃ j, l.findIdx? p = some j ∧ l[j]? = some a := by
  obtain ⟨hp, j, hj, rfl, hbefore⟩ := find?_eq_some_iff_getElem.mp h
  exact ⟨j, findIdx?_eq_some_iff_getElem.mpr ⟨hj, hp, by simpa using hbefore⟩, getElem?_eq_getElem hj⟩

lemma Tree.Wf.getElem_findChild (ht : t.Wf) {next : ℕ} (hd : t.dirs[i]? = some d)
    (hchild : d.child c = some next) (hnext : t.node next = some d') : t.dirs[findChild t.dirs i c]? = some d' := by
  obtain ⟨e, he, rfl⟩ := Option.map_eq_some_iff.mp hchild
  have hmem : d ∈ t.dirs := mem_of_getElem? hd
  obtain ⟨hmem', hino'⟩ := node_eq_some hnext
  have hcur : t.dirs.getD i default = d := by rw [getD_eq_getElem?_getD, hd, Option.getD_some]
  have hany : t.dirs.any (·.parentIno == d.ino) = true :=
    any_eq_true.mpr ⟨d', hmem', beq_iff_eq.mpr (ht.parent d hmem e (mem_of_find?_eq_some he) d' hmem' hino')⟩
  obtain ⟨j, hj, hjd⟩ := exists_findIdx? hnext
  -- the first entry with this name is the one that the walk takes
  have hfind : (d.entries.findSome? fun e => if e.1 = c then t.dirs.findIdx? (·.ino == e.2.1) else none) = some j := by
    obtain ⟨hname, as, bs, hentries, hbefore⟩ := find?_eq_some_iff_append.mp he
    rw [hentries, findSome?_append, findSome?_eq_none_iff.mpr, Option.none_or, findSome?_cons,
      if_pos (beq_iff_eq.mp hname), hj]
    exact fun a ha => if_neg fun heq => by simpa [heq] using hbefore a ha
  simp only [findChild, hcur, hany, if_true, hfind, Option.getD_some, hjd]

lemma Tree.node_of_walkFrom (hwalk : t.walkFrom i cs = some j) (hnode : t.node j = some d') :
    ∃ d, t.node i = some d := by
  cases cs with
  | nil =>
    cases hwalk
    exact ⟨d', hnode⟩
  | cons c cs =>
    obtain ⟨next, hnext, -⟩ := Option.bind_eq_some_iff.mp hwalk
    obtain ⟨d, hd, -⟩ := Option.bind_eq_some_iff.mp hnext
    exact ⟨d, hd⟩

lemma Tree.Wf.foldl_findChild (ht : t.Wf) (hd : t.dirs[i]? = some d)
    (hself : t.node d.ino = some d) (hwalk : t.walkFrom d.ino cs = some j) (hnode : t.node j = some d') :
    t.dirs[cs.foldl (findChild t.dirs) i]? = some d' := by
  induction cs generalizing d i with
  | nil =>
    cases hwalk
    rw [hself] at hnode
    cases hnode
    exact hd
  | cons c cs ih =>
    obtain ⟨next, hnext, hrest⟩ := Option.bind_eq_some_iff.mp hwalk
    rw [hself, Option.bind_some] at hnext
    obtain ⟨d1, hd1⟩ := node_of_walkFrom hrest hnode
    have hino := (node_eq_some hd1).2
    exact ih (ht.getElem_findChild hd hnext hd1) (hino ▸ hd1) (hino ▸ hrest)

lemma Tree.Wf.node_root (ht : t.Wf) : ∃ d, t.dirs[0]? = some d ∧ t.node 1 = some d ∧ d.ino = 1 := by
  obtain ⟨entries, rest, hdirs⟩ := ht.root
  exact ⟨⟨1, 1, entries⟩, by rw [hdirs]; rfl, by rw [node, hdirs]; rfl, rfl⟩

lemma Tree.Wf.getElem_findParentDir (ht : t.Wf) (hcs : ∀ x ∈ cs, IsComponent x) (hc : IsComponent c)
    (hwalk : t.walk cs = some ino) (hnode : t.node ino = some d) :
    t.dirs[findParentDir t.dirs (joinPath (cs ++ [c]))]? = some d := by
  obtain ⟨r, hr, hr1, hino⟩ := ht.node_root
  rw [findParentDir_join t.dirs hcs hc]
  exact ht.foldl_findChild hr (hino ▸ hr1) (hino ▸ hwalk) hnode

/-! ### New entries -/

/-- The directory `d` with a new entry. -/
def DirNode.push (d : DirNode) (name : List UInt8) (ino : ℕ) (isDir : Bool) : DirNode :=
  { d with entries := d.entries ++ [(name, ino, isDir)] }

lemma DirNode.child_push_of_some (h : d.child c = some i) (name : List UInt8) (ino : ℕ) (isDir : Bool) :
    (d.push name ino isDir).child c = some i := by
  obtain ⟨e, he, rfl⟩ := Option.map_eq_some_iff.mp h
  rw [child, push, find?_append, he]
  rfl

lemma DirNode.child_push_self (h : d.child name = none) (ino : ℕ) (isDir : Bool) :
    (d.push name ino isDir).child name = some ino := by
  rw [child, Option.map_eq_none_iff] at h
  rw [child, push, find?_append, h]
  simp

/-- An entry is appended to the directory with inode number `ino`. -/
theorem pushEntry_eq_map {dirs : List DirNode} (hnodup : (dirs.map (·.ino)).Nodup) (hd : dirs[i]? = some d)
    (name : List UInt8) (ino : ℕ) (isDir : Bool) :
    pushEntry dirs i name ino isDir = dirs.map fun x => if x.ino = d.ino then x.push name ino isDir else x := by
  induction dirs generalizing i with
  | nil => simp at hd
  | cons x dirs ih =>
    rw [map_cons, nodup_cons] at hnodup
    cases i with
    | zero =>
      obtain rfl : x = d := by simpa using hd
      have hrest : ∀ y ∈ dirs, (if y.ino = x.ino then y.push name ino isDir else y) = y := fun y hy =>
        if_neg fun heq : y.ino = x.ino => hnodup.1 (heq ▸ mem_map_of_mem hy)
      rw [map_cons, if_pos rfl, map_congr_left hrest, map_id']
      rfl
    | succ i =>
      have hd' : dirs[i]? = some d := by simpa using hd
      have hx : x.ino ≠ d.ino := fun heq =>
        hnodup.1 (heq ▸ mem_map_of_mem (mem_of_getElem? hd'))
      rw [map_cons, if_neg hx, ← ih hnodup.2 hd']
      rfl

/-- The tree `t'` is `t` with a new entry in the directory `d`, which takes the next inode number. -/
structure Tree.Grows (t : Tree) (d : DirNode) (name : List UInt8) (isDir : Bool) (t' : Tree) : Prop where
  dirs_eq : t'.dirs = (t.dirs.map fun x => if x.ino = d.ino then x.push name t.nextIno isDir else x) ++
    if isDir then [⟨t.nextIno, d.ino, []⟩] else []
  numbered : t'.Numbered
  nextIno_eq : t'.nextIno = t.nextIno + 1

namespace Tree.Grows

variable {isDir : Bool} {i : ℕ} {x : DirNode}

lemma ino_ite (y : DirNode) (i : ℕ) : (if y.ino = d.ino then y.push name i isDir else y).ino = y.ino := by
  split <;> rfl

lemma node_of_some (hg : t.Grows d name isDir t') (hx : t.node i = some x) :
    t'.node i = some (if x.ino = d.ino then x.push name t.nextIno isDir else x) := by
  have hfind : t.dirs.find? (·.ino == i) = some x := hx
  rw [node, hg.dirs_eq, find?_append, find?_map]
  simp only [Function.comp_def, ino_ite, hfind]
  rfl

lemma walkFrom_of_some (hg : t.Grows d name isDir t') {j : ℕ} (h : t.walkFrom i cs = some j) :
    t'.walkFrom i cs = some j := by
  induction cs generalizing i with
  | nil => exact h
  | cons c cs ih =>
    obtain ⟨next, hnext, hrest⟩ := Option.bind_eq_some_iff.mp h
    obtain ⟨x, hx, hchild⟩ := Option.bind_eq_some_iff.mp hnext
    rw [walkFrom, hg.node_of_some hx, Option.bind_some]
    have hchild' : (if x.ino = d.ino then x.push name t.nextIno isDir else x).child c = some next := by
      split
      · exact child_push_of_some hchild ..
      · exact hchild
    rw [hchild', Option.bind_some]
    exact ih hrest

lemma walk_new (hg : t.Grows d name isDir t') (hwalk : t.walk cs = some i) (hnode : t.node i = some d)
    (hname : d.child name = none) : t'.walk (cs ++ [name]) = some t.nextIno := by
  rw [walk, walkFrom_append, hg.walkFrom_of_some hwalk, Option.bind_some, walkFrom, hg.node_of_some hnode,
    if_pos rfl, Option.bind_some, child_push_self hname]
  rfl

lemma ino_lt (ht : t.Wf) (hx : x ∈ t.dirs) : x.ino < t.nextIno :=
  (ht.numbered.range x.ino (mem_append_left _ (mem_map_of_mem hx))).2

lemma node_new (hg : t.Grows d name true t') (ht : t.Wf) : t'.node t.nextIno = some ⟨t.nextIno, d.ino, []⟩ := by
  rw [node, hg.dirs_eq, find?_append, find?_eq_none.mpr]
  · simp
  · intro x hx
    obtain ⟨y, hy, rfl⟩ := mem_map.mp hx
    rw [ino_ite, beq_iff_eq]
    exact (ino_lt ht hy).ne

lemma mem_dirs (hg : t.Grows d name isDir t') {y : DirNode} (hy : y ∈ t'.dirs) :
    (∃ x ∈ t.dirs, y.ino = x.ino ∧ y.parentIno = x.parentIno ∧
      (y.entries = x.entries ∨ x.ino = d.ino ∧ y.entries = x.entries ++ [(name, t.nextIno, isDir)])) ∨
    y = ⟨t.nextIno, d.ino, []⟩ := by
  rw [hg.dirs_eq, mem_append, mem_map] at hy
  rcases hy with ⟨x, hx, rfl⟩ | hy
  · refine .inl ⟨x, hx, ?_⟩
    split
    · rename_i heq
      exact ⟨rfl, rfl, .inr ⟨heq, rfl⟩⟩
    · exact ⟨rfl, rfl, .inl rfl⟩
  · split at hy
    · exact .inr (mem_singleton.mp hy)
    · cases hy

lemma mem_entries (hg : t.Grows d name isDir t') {y : DirNode} (hy : y ∈ t'.dirs) {e : List UInt8 × ℕ × Bool}
    (he : e ∈ y.entries) :
    (∃ x ∈ t.dirs, y.ino = x.ino ∧ e ∈ x.entries) ∨ y.ino = d.ino ∧ e = (name, t.nextIno, isDir) := by
  rcases hg.mem_dirs hy with ⟨x, hx, hyx, -, hsame | ⟨heq, hnew⟩⟩ | rfl
  · exact .inl ⟨x, hx, hyx, hsame ▸ he⟩
  · rw [hnew, mem_append, mem_singleton] at he
    exact he.imp (fun he => ⟨x, hx, hyx, he⟩) fun he => ⟨hyx.trans heq, he⟩
  · cases he

lemma wf (hg : t.Grows d name isDir t') (ht : t.Wf) (hd : d ∈ t.dirs) (hname : d.child name = none) : t'.Wf := by
  have huniq : ∀ x ∈ t.dirs, x.ino = d.ino → x = d := fun x hx heq =>
    inj_on_of_nodup_map (List.Nodup.of_append_left ht.numbered.nodup) hx hd heq
  refine ⟨hg.numbered, ?_, by rw [hg.nextIno_eq]; omega, fun y hy => ?_, fun y hy e he => ?_,
    fun y hy e he z hz hzino => ?_⟩
  · obtain ⟨entries, rest, hdirs⟩ := ht.root
    rw [hg.dirs_eq, hdirs, map_cons, cons_append]
    split
    · exact ⟨_, _, rfl⟩
    · exact ⟨_, _, rfl⟩
  · rcases hg.mem_dirs hy with ⟨x, hx, -, -, hsame | ⟨heq, hnew⟩⟩ | rfl
    · rw [hsame]
      exact ht.nodup x hx
    · obtain rfl := huniq x hx heq
      rw [hnew, map_append, map_singleton]
      exact (perm_append_singleton _ _).nodup_iff.mpr (.cons (child_eq_none_iff.mp hname) (ht.nodup x hx))
    · exact .nil
  · rw [hg.nextIno_eq]
    rcases hg.mem_entries hy he with ⟨x, hx, -, he⟩ | ⟨-, rfl⟩
    · exact lt_succ_of_lt (ht.entry_lt x hx e he)
    · exact lt_succ_self _
  · -- an old entry leads to an old directory, the new entry to the new one
    rcases hg.mem_entries hy he with ⟨x, hx, hyx, he⟩ | ⟨hyd, rfl⟩
    · rcases hg.mem_dirs hz with ⟨w, hw, hzw, hparent, -⟩ | rfl
      · rw [hparent, hyx]
        exact ht.parent x hx e he w hw (hzw.symm.trans hzino)
      · exact absurd hzino (ht.entry_lt x hx e he).ne'
    · rcases hg.mem_dirs hz with ⟨w, hw, hzw, -, -⟩ | rfl
      · exact absurd (hzw.symm.trans hzino) (ino_lt ht hw).ne
      · exact hyd.symm

end Tree.Grows

/-! ### The requests -/

/-- `add_dir` adds an entry to the directory that the path names. -/
theorem Tree.Wf.grows_addDir (ht : t.Wf) (hlt : t.nextIno + 1 < u32Size) (hcs : ∀ x ∈ cs, IsComponent x)
    (hc : IsComponent c) (hwalk : t.walk cs = some ino) (hnode : t.node ino = some d) :
    t.Grows d c true (addDir t (joinPath (cs ++ [c]))) := by
  have hparent := ht.getElem_findParentDir hcs hc hwalk hnode
  obtain ⟨hnum, hnext⟩ := ht.numbered.addDir ht.nextIno_pos hlt (joinPath (cs ++ [c]))
  refine ⟨?_, hnum, hnext⟩
  have hget : t.dirs.getD (findParentDir t.dirs (joinPath (cs ++ [c]))) default = d := by
    rw [getD_eq_getElem?_getD, hparent, Option.getD_some]
  rw [addDir, basename_join hcs hc, hget, if_pos rfl]
  rw [pushEntry_eq_map (List.Nodup.of_append_left ht.numbered.nodup) hparent]

lemma Tree.Wf.grows_putFile (ht : t.Wf) (hlt : t.nextIno + 1 < u32Size) (hcs : ∀ x ∈ cs, IsComponent x)
    (hc : IsComponent c) (hwalk : t.walk cs = some ino) (hnode : t.node ino = some d) (data : List UInt8) :
    t.Grows d c false (t.putFile (joinPath (cs ++ [c])) data) := by
  have hparent := ht.getElem_findParentDir hcs hc hwalk hnode
  obtain ⟨hnum, hnext⟩ := ht.numbered.putFile ht.nextIno_pos hlt (joinPath (cs ++ [c])) data
  refine ⟨?_, hnum, hnext⟩
  rw [putFile, basename_join hcs hc, if_neg Bool.false_ne_true, append_nil]
  exact pushEntry_eq_map (List.Nodup.of_append_left ht.numbered.nodup) hparent ..

lemma nameExists_iff (ht : t.Wf) :
    nameExists t.dirs name = true ↔ ∃ d ∈ t.dirs, d.parentIno = 1 ∧ name ∈ d.entries.map (·.1) := by
  obtain ⟨entries, rest, hdirs⟩ := ht.root
  have hroot : (t.dirs.getD 0 default).ino = 1 := by
    rw [hdirs]
    rfl
  rw [nameExists, hroot]
  simp only [any_eq_true, Bool.and_eq_true, beq_iff_eq, mem_map]

/-- A name is only there after `add_dir` if it was there before or is the new one. -/
theorem Tree.Grows.nameExists_imp (hg : t.Grows d c true t') (ht : t.Wf) (ht' : t'.Wf)
    (h : nameExists t'.dirs name = true) : nameExists t.dirs name = true ∨ name = c := by
  obtain ⟨y, hy, hparent, hmem⟩ := (nameExists_iff ht').mp h
  rw [nameExists_iff ht]
  rcases hg.mem_dirs hy with ⟨x, hx, -, hyx, hsame | ⟨-, hnew⟩⟩ | rfl
  · exact .inl ⟨x, hx, hyx ▸ hparent, hsame ▸ hmem⟩
  · rw [hnew, map_append, mem_append, map_singleton, mem_singleton] at hmem
    exact hmem.imp (fun hold => ⟨x, hx, hyx ▸ hparent, hold⟩) id
  · cases hmem

variable {P old new rest : List (List UInt8)}

section

variable (hP : ∀ x ∈ P, IsComponent x)
include hP

lemma forall_concat (hc : IsComponent c) : ∀ x ∈ P ++ [c], IsComponent x := by
  simpa [or_imp, forall_and] using ⟨hP, hc⟩

lemma ensureLoop_cons (hc : IsComponent c) (hne : c ≠ base) : ensureLoop base (c :: rest) (joinPath P) t =
      if nameExists t.dirs c then ensureLoop base rest (joinPath (P ++ [c])) t
      else ensureLoop base rest (joinPath (P ++ [c])) (addDir t (joinPath (P ++ [c]))) := by
  have hskip : ¬(c = [] ∨ c = base) := not_or.mpr ⟨hc.1, hne⟩
  have hname : basename (joinPath P ++ slash :: c) = c := by
    rw [← joinPath_concat, basename_join hP hc]
  rw [ensureLoop, if_neg hskip]
  dsimp only
  rw [hname, joinPath_concat]

/-- Components that are there, by the test of `ensure_parent_dirs`, are passed over. -/
theorem ensureLoop_old (hold : ∀ x ∈ old, IsComponent x) (hthere : ∀ x ∈ old, x ≠ base → nameExists t.dirs x = true) :
    ensureLoop base (old ++ rest) (joinPath P) t = ensureLoop base rest (joinPath (P ++ old.filter (· ≠ base))) t := by
  induction old generalizing P with
  | nil => rw [nil_append, filter_nil, append_nil]
  | cons c old ih =>
    rw [forall_mem_cons] at hold hthere
    rw [cons_append]
    by_cases hc : c = base
    · rw [ensureLoop, if_pos (.inr hc), ih hP hold.2 hthere.2, filter_cons_of_neg (by simpa using hc)]
    · rw [ensureLoop_cons hP hold.1 hc, if_pos (hthere.1 hc), ih (forall_concat hP hold.1) hold.2 hthere.2,
        filter_cons_of_pos (by simpa using hc), append_assoc, singleton_append]

end

/-- Whatever a walk finds in `t`, it finds in `t'`. -/
def Tree.Extends (t t' : Tree) : Prop := ∀ cs i, t.walk cs = some i → t'.walk cs = some i

lemma ensureLoop_new (rest : List (List UInt8)) (ht : t.Wf) (hlt : t.nextIno + new.length < u32Size) (hP : ∀ x ∈ P, IsComponent x)
    (hnew : ∀ x ∈ new, IsComponent x) (hbase : base ∉ new) (hnodup : new.Nodup)
    (hfresh : ∀ x ∈ new, ¬nameExists t.dirs x = true) (hwalk : t.walk P = some ino) (hnode : t.node ino = some d)
    (hfirst : ∀ x ∈ new.head?, d.child x = none) :
    ∃ t', ensureLoop base (new ++ rest) (joinPath P) t = ensureLoop base rest (joinPath (P ++ new)) t' ∧ t'.Wf ∧
      t.Extends t' ∧ t'.nextIno = t.nextIno + new.length ∧
      ∃ ino' d', t'.walk (P ++ new) = some ino' ∧ t'.node ino' = some d' ∧ (d'.entries = [] ∨ new = [] ∧ d' = d) := by
  induction new generalizing t P ino d with
  | nil =>
    rw [nil_append, append_nil]
    exact ⟨t, rfl, ht, fun _ _ h => h, rfl, ino, d, hwalk, hnode, .inr ⟨rfl, rfl⟩⟩
  | cons c new ih =>
    rw [forall_mem_cons] at hnew hfresh
    rw [mem_cons, not_or] at hbase
    rw [nodup_cons] at hnodup
    rw [length_cons] at hlt
    have hname : d.child c = none := hfirst c rfl
    have hg := ht.grows_addDir (by omega) hP hnew.1 hwalk hnode
    have ht' := hg.wf ht (node_eq_some hnode).1 hname
    obtain ⟨u, hrun, hu, hext, hnext, ino', d', hwalk', hnode', hempty⟩ :=
      ih ht' (by rw [hg.nextIno_eq]; omega) (forall_concat hP hnew.1) hnew.2 hbase.2 hnodup.2
        (fun x hx hex => (hg.nameExists_imp ht ht' hex).elim (hfresh.2 x hx) fun heq => hnodup.1 (heq ▸ hx))
        (hg.walk_new hwalk hnode hname) (hg.node_new ht) fun x _ => rfl
    refine ⟨u, ?_, hu, fun Q i hQ => hext Q i (hg.walkFrom_of_some hQ), ?_, ino', d', ?_, hnode', ?_⟩
    · rw [cons_append, ensureLoop_cons hP hnew.1 (Ne.symm hbase.1), if_neg hfresh.1, hrun, append_assoc,
        singleton_append]
    · rw [hnext, hg.nextIno_eq, length_cons]
      omega
    · rwa [append_assoc, singleton_append] at hwalk'
    · exact .inl (hempty.elim id fun h => h.2 ▸ rfl)

/-! ### Correct runs -/

/-- The path of a request. -/
def Request.path : Request → List UInt8
  | .dir path => path
  | .file path _ => path

/-- The inode that a request creates for its path. -/
def Request.created (t : Tree) : Request → ℕ
  | .dir _ => t.nextIno
  | .file path _ => (ensureParentDirs t path).nextIno

/-- The directory `cs` is there, and has no entry `c`. -/
def Tree.Free (t : Tree) (cs : List (List UInt8)) (c : List UInt8) : Prop :=
  ∃ ino d, t.walk cs = some ino ∧ t.node ino = some d ∧ d.child c = none

/-- The test of `ensure_parent_dirs` gives the right answer for the components of a path before its name
`base`: those in `old` are there and those in `new` are not, and no directory is to be created if one of them
has the name of the file. -/
structure Tree.TestsRight (t : Tree) (old new : List (List UInt8)) (base : List UInt8) : Prop where
  old_exists : ∀ x ∈ old, x ≠ base → nameExists t.dirs x = true
  new_fresh : ∀ x ∈ new, ¬nameExists t.dirs x = true
  new_nodup : new.Nodup
  base_notMem : new = [] ∨ base ∉ old ++ new

/-- The request can be carried out as meant in the tree. -/
def Request.Ok (t : Tree) : Request → Prop
  | .dir path => ∃ cs c, path = joinPath (cs ++ [c]) ∧ (∀ x ∈ cs ++ [c], IsComponent x) ∧ t.nextIno + 1 < u32Size ∧
      t.Free cs c
  | .file path _ => ∃ old new base, path = joinPath (old ++ new ++ [base]) ∧
      (∀ x ∈ old ++ new ++ [base], IsComponent x) ∧ t.nextIno + new.length + 1 < u32Size ∧
      t.Free old ((new ++ [base]).headD []) ∧ t.TestsRight old new base

lemma components_joinPath (hcs : ∀ x ∈ cs, IsComponent x) : components (joinPath cs) = cs := by
  induction cs with
  | nil => rfl
  | cons c cs ih =>
    rw [forall_mem_cons] at hcs
    have hfirst := components_of_notMem hcs.1.2 hcs.1.1
    rw [joinPath_cons, components_slash]
    cases cs with
    | nil => rw [joinPath, flatMap_nil, append_nil, hfirst]
    | cons x cs =>
      rw [joinPath_cons, components_append, hfirst, ← components_slash, ← joinPath_cons, ih hcs.2]
      rfl

lemma ensureParentDirs_join (hcs : ∀ x ∈ cs ++ [base], IsComponent x) :
    ensureParentDirs t (joinPath (cs ++ [base])) = ensureLoop base (cs ++ [base]) (joinPath []) t := by
  have hname := basename_join (fun x hx => hcs x (mem_append_left _ hx)) (hcs base (by simp))
  obtain ⟨x, xs, hx⟩ : ∃ x xs, cs ++ [base] = x :: xs := exists_cons_of_ne_nil (by simp)
  rw [hx] at hcs hname ⊢
  rw [forall_mem_cons] at hcs
  rw [joinPath_cons, basename, trimStart_cons hcs.1] at hname
  rw [joinPath_cons, ensureParentDirs, trimStart_cons hcs.1, splitSlash_join hcs.1 hcs.2, basename,
    trimStart_component hcs.1, hname]
  rfl

lemma Tree.TestsRight.ensureParentDirs (h : t.TestsRight old new base) (ht : t.Wf)
    (hcs : ∀ x ∈ old ++ new ++ [base], IsComponent x) (hlt : t.nextIno + new.length < u32Size)
    (hfree : t.Free old ((new ++ [base]).headD [])) :
    ∃ t', Mkimage.ensureParentDirs t (joinPath (old ++ new ++ [base])) = t' ∧ t'.Wf ∧ t.Extends t' ∧
      t'.nextIno = t.nextIno + new.length ∧ t'.Free (old ++ new) base := by
  obtain ⟨ino, d, hwalk, hnode, hchild⟩ := hfree
  have hnil : ∀ x ∈ ([] : List (List UInt8)), IsComponent x := by simp
  rw [ensureParentDirs_join hcs]
  have hold : ∀ x ∈ old, IsComponent x := fun x hx => hcs x (by simp [hx])
  rw [append_assoc, ensureLoop_old hnil hold h.old_exists]
  by_cases hnew : new = []
  · subst hnew
    rw [nil_append, append_nil, ensureLoop, if_pos (.inr rfl)]
    exact ⟨t, rfl, ht, fun _ _ h => h, rfl, ino, d, hwalk, hnode, hchild⟩
  · have hbase := h.base_notMem.resolve_left hnew
    rw [mem_append, not_or] at hbase
    have hfilter : old.filter (· ≠ base) = old :=
      filter_eq_self.mpr fun x hx => decide_eq_true (ne_of_mem_of_not_mem hx hbase.1)
    have hnew' : ∀ x ∈ new, IsComponent x := fun x hx => hcs x (by simp [hx])
    have hfirst : ∀ x ∈ new.head?, d.child x = none := by
      intro x hx
      cases new with
      | nil => cases hx
      | cons y new =>
        obtain rfl : y = x := by simpa using hx
        exact hchild
    obtain ⟨t', hrun, ht', hext, hnext, ino', d', hwalk', hnode', hempty⟩ :=
      ensureLoop_new [base] ht hlt hold hnew' hbase.2 h.new_nodup h.new_fresh hwalk hnode hfirst
    refine ⟨t', ?_, ht', hext, hnext, ino', d', hwalk', hnode', ?_⟩
    · rw [hfilter, nil_append, hrun, ensureLoop, if_pos (.inr rfl), ensureLoop]
    · rw [child, hempty.resolve_right fun h => hnew h.1]
      rfl

lemma Request.Ok.apply {r : Request} (h : r.Ok t) (ht : t.Wf) :
    (r.apply t).Wf ∧ t.Extends (r.apply t) ∧ (r.apply t).walk (components r.path) = some (r.created t) := by
  cases r with
  | dir path =>
    obtain ⟨cs, c, rfl, hcs, hlt, ino, d, hwalk, hnode, hchild⟩ := h
    have hg := ht.grows_addDir hlt (fun x hx => hcs x (mem_append_left _ hx)) (hcs c (by simp)) hwalk hnode
    refine ⟨hg.wf ht (node_eq_some hnode).1 hchild, fun Q i hQ => hg.walkFrom_of_some hQ, ?_⟩
    rw [Request.path, components_joinPath hcs]
    exact hg.walk_new hwalk hnode hchild
  | file path data =>
    obtain ⟨old, new, base, rfl, hcs, hlt, hfree, htests⟩ := h
    obtain ⟨u, hu, hwf, hext, hnext, ino, d, hwalk, hnode, hchild⟩ :=
      htests.ensureParentDirs ht hcs (by omega) hfree
    have hg := hwf.grows_putFile (by omega) (fun x hx => hcs x (mem_append_left _ hx)) (hcs base (by simp)) hwalk hnode
      data
    have happly : Request.apply t (.file (joinPath (old ++ new ++ [base])) data) =
        u.putFile (joinPath (old ++ new ++ [base])) data := by
      rw [Request.apply, addFile_eq, hu]
    have hcreated : Request.created t (.file (joinPath (old ++ new ++ [base])) data) = u.nextIno := by
      rw [Request.created, hu]
    rw [happly, hcreated]
    refine ⟨hg.wf hwf (node_eq_some hnode).1 hchild, fun Q i hQ => hg.walkFrom_of_some (hext Q i hQ), ?_⟩
    rw [Request.path, components_joinPath hcs]
    exact hg.walk_new hwalk hnode hchild

/-- The tree is the one that was requested: every path leads to the inode that was created for it, and no
directory has two entries with the same name. -/
structure Requested (rs : List Request) : Prop where
  walk : ∀ i (hi : i < rs.length), (build rs).walk (components rs[i].path) = some (rs[i].created (build (rs.take i)))
  nodup : ∀ d ∈ (build rs).dirs, (d.entries.map (·.1)).Nodup

lemma build_concat (rs : List Request) (r : Request) : build (rs ++ [r]) = r.apply (build rs) := by
  rw [build, foldl_append]
  rfl

lemma wf_empty : empty.Wf where
  numbered := ⟨by decide, by simp [inodes, empty, root], by simp [inodes, empty, root]⟩
  root := ⟨[], [], rfl⟩
  nextIno_pos := by decide
  nodup d hd := by
    obtain rfl := mem_singleton.mp hd
    exact .nil
  entry_lt d hd e he := by
    obtain rfl := mem_singleton.mp hd
    cases he
  parent d hd e he := by
    obtain rfl := mem_singleton.mp hd
    cases he

/-- If every request can be carried out when its turn comes, the tool builds the requested tree. -/
theorem requested_of_ok (rs : List Request) (h : ∀ i (hi : i < rs.length), rs[i].Ok (build (rs.take i))) :
    Requested rs := by
  have hrun : (build rs).Wf ∧ ∀ i (hi : i < rs.length),
      (build rs).walk (components rs[i].path) = some (rs[i].created (build (rs.take i))) := by
    induction rs using reverseRecOn with
    | nil => exact ⟨wf_empty, fun i hi => absurd hi (not_lt_zero i)⟩
    | append_singleton rs r ih =>
      have hprev : ∀ i (hi : i < rs.length), rs[i].Ok (build (rs.take i)) := by
        intro i hi
        have := h i (by rw [length_append]; omega)
        rwa [getElem_append_left hi, take_append_of_le_length hi.le] at this
      have hlast : r.Ok (build rs) := by
        have := h rs.length (by simp)
        rwa [getElem_concat_length rfl, take_left'] at this
        rfl
      obtain ⟨hwf, hwalks⟩ := ih hprev
      obtain ⟨hwf', hext, hnew⟩ := hlast.apply hwf
      rw [build_concat]
      refine ⟨hwf', fun i hi => ?_⟩
      rcases lt_or_ge i rs.length with hlt | hge
      · rw [getElem_append_left hlt, take_append_of_le_length hlt.le]
        exact hext _ _ (hwalks i hlt)
      · obtain rfl : i = rs.length := by
          rw [length_append, length_singleton] at hi
          omega
        rwa [getElem_concat_length rfl, take_left' rfl]
  exact ⟨hrun.2, hrun.1.nodup⟩

/-- A directory `/b` and a file `/b/s`. -/
theorem requested_of_ok_small : Requested [.dir [slash, 0x62], .file [slash, 0x62, slash, 0x73] [1]] := by
  refine requested_of_ok _ fun i hi => ?_
  have hb : IsComponent [0x62] := ⟨by simp, by decide⟩
  have hs : IsComponent [0x73] := ⟨by simp, by decide⟩
  obtain rfl | rfl : i = 0 ∨ i = 1 := by
    simp at hi
    omega
  · exact ⟨[], [0x62], rfl, by simpa using hb, by decide, 1, .root, rfl, rfl, rfl⟩
  · refine ⟨[[0x62]], [], [0x73], rfl, by simpa using ⟨hb, hs⟩, by decide, ⟨2, ⟨2, 1, []⟩, rfl, rfl, rfl⟩, ?_⟩
    exact ⟨fun x hx _ => by obtain rfl := mem_singleton.mp hx; rfl, by simp, .nil, .inl rfl⟩

/-- A file `/a/a` is put into the root directory. -/
theorem not_requested_sameName : ¬Requested [.file [slash, 0x61, slash, 0x61] []] := by
  intro h
  have hwalk := h.walk 0 (by simp)
  revert hwalk
  decide +kernel

end OnyxKernel.Mkimage
