import OnyxKernel.Foundation.SlotTable
import OnyxKernel.Fs.Sound
import OnyxKernel.Fs.Write

/-!
# Directories as finite maps

A directory block is a table of slots: an entry is in use if its inode number is not zero, and then it
holds a name, padded with NULs, and the number.  `lookup_in` compares names by the length field of the
entry, `add_dirent` and `remove_dirent` compare up to the first NUL.  In a block in which the length fields
are right and no name occurs twice, all three see the same map from names to inode numbers, and adding and
removing an entry updates the map.
-/

namespace OnyxKernel.Onyxfs

open ByteMemory KResult SlotTable List Buffer Nat UInt8 OnyfsDirent Fs
open Function (update update_self update_of_ne)

/-! ### Names -/

/-- A name as the system calls accept it: 1 to 32 bytes without a NUL. -/
structure ValidName (name : List UInt8) : Prop where
  ne_nil : name ≠ []
  length_le : name.length ≤ onyfsNameMax
  nul_notMem : 0 ∉ name

/-- The bytes of the name field of the entry at offset `off`. -/
def nameField (b : Block) (off : ℕ) : List UInt8 := (range onyfsNameMax).map (b.view off)

/-- The name of the entry at offset `off`: the bytes before the first NUL. -/
def entryName (b : Block) (off : ℕ) : List UInt8 := (nameField b off).takeWhile (· != 0)

variable {b b' : Block} {off : ℕ} {name : List UInt8}

@[simp] lemma length_nameField (b : Block) (off : ℕ) : (nameField b off).length = onyfsNameMax := by
  simp [nameField]

lemma getElem_nameField {j : ℕ} (hj : j < (nameField b off).length) : (nameField b off)[j] = b.view off j := by
  simp [nameField]

lemma takeWhile_eq_iff {l : List UInt8} (hnul : 0 ∉ name) :
    l.takeWhile (· != 0) = name ↔ name <+: l ∧ ∀ h : name.length < l.length, l[name.length] = 0 := by
  induction l generalizing name with
  | nil => simp [eq_comm]
  | cons c l ih =>
    cases name with
    | nil => simp [takeWhile_cons]
    | cons a name =>
      rw [mem_cons, not_or] at hnul
      by_cases hc : c = 0
      · subst hc
        simp [Ne.symm hnul.1]
      · rw [takeWhile_cons_of_pos (by simp [hc]), cons.injEq, ih hnul.2, cons_prefix_cons, and_assoc]
        refine and_congr eq_comm (and_congr_right fun _ => ?_)
        simp

lemma length_entryName_le (b : Block) (off : ℕ) : (entryName b off).length ≤ onyfsNameMax := by
  exact ( takeWhile_prefix _).length_le

lemma entryName_eq_iff (hnul : 0 ∉ name) :
    entryName b off = name ↔ (∀ j (hj : j < name.length), j < onyfsNameMax ∧ b.view off j = name[j]) ∧
      (name.length < onyfsNameMax → b.view off name.length = 0) := by
  rw [entryName, takeWhile_eq_iff hnul]
  have hlen := length_nameField b off
  constructor
  · rintro ⟨⟨rest, hrest⟩, hend⟩
    refine ⟨fun j hj => ?_, fun hlt => ?_⟩
    · have hj' : j < (nameField b off).length := by
        rw [← hrest, length_append]
        omega
      refine ⟨hlen ▸ hj', ?_⟩
      rw [← getElem_nameField hj']
      simp only [← hrest, getElem_append_left hj]
    · have hlt' : name.length < (nameField b off).length := by omega
      rw [← getElem_nameField hlt']
      exact hend hlt'
  · rintro ⟨hbytes, hend⟩
    refine ⟨prefix_iff_getElem.mpr ⟨?_, fun j hj => ?_⟩, fun hlt => ?_⟩
    · by_contra hlt
      have := (hbytes (nameField b off).length (by omega)).1
      omega
    · rw [getElem_nameField]
      exact (hbytes j hj).2.symm
    · rw [getElem_nameField]
      exact hend (by omega)

lemma matchLen_eq_iff (existing : Memory) (name : List UInt8) (k : ℕ) :
    matchLen existing name k = k + name.length ↔
      ∀ j (hj : j < name.length), k + j < onyfsNameMax ∧ existing (k + j) = name[j] := by
  induction name generalizing k with
  | nil => simp [matchLen]
  | cons c name ih =>
    rw [matchLen]
    by_cases hc : k < onyfsNameMax ∧ existing k = c
    · rw [if_pos hc, show k + (c :: name).length = k + 1 + name.length by rw [length_cons]; omega, ih (k + 1)]
      constructor
      · rintro h (_ | j) hj
        · exact hc
        · rw [show k + (j + 1) = k + 1 + j by omega]
          exact h j (lt_of_succ_lt_succ hj)
      · intro h j hj
        have hnext := h (j + 1) (succ_lt_succ hj)
        rwa [show k + (j + 1) = k + 1 + j by omega] at hnext
    · rw [if_neg hc]
      constructor
      · intro h
        omega
      · intro h
        exact absurd (h 0 (succ_pos _)) hc

lemma nameMatches_iff (hnul : 0 ∉ name) : nameMatches (b.view off) name = true ↔ entryName b off = name := by
  rw [entryName_eq_iff hnul, nameMatches, decide_eq_true_iff]
  have hlen := matchLen_eq_iff (b.view off) name 0
  simp only [zero_add] at hlen
  rw [hlen]
  constructor
  · rintro ⟨hbytes, hend⟩
    refine ⟨hbytes, fun hlt => ?_⟩
    rw [hlen.mpr hbytes] at hend
    exact hend.resolve_left (by omega)
  · rintro ⟨hbytes, hend⟩
    refine ⟨hbytes, ?_⟩
    rw [hlen.mpr hbytes]
    by_cases hlt : name.length < onyfsNameMax
    · exact .inr (hend hlt)
    · exact .inl (by omega)

lemma nulLen_nameField (b : Block) (off : ℕ) : nulLen (nameField b off) = (entryName b off).length := by
  unfold nulLen entryName
  induction nameField b off with
  | nil => rfl
  | cons c l ih =>
    by_cases hc : c = 0
    · simp [findIdx_cons, hc]
    · have hb : (c == 0) = false := beq_eq_false_iff_ne.mpr hc
      simp [findIdx_cons, hc, hb, ih]

lemma take_nameField (b : Block) (off : ℕ) : (nameField b off).take (entryName b off).length = entryName b off :=
  (prefix_iff_eq_take.mp ( takeWhile_prefix _)).symm

/-- The comparison of `lookup_in`, for an entry whose length field is right. -/
theorem direntMatches_iff {d : OnyfsDirent} (hname : d.name = nameField b off)
    (hlen : d.nameLen.toNat = (entryName b off).length) : direntMatches d name = true ↔ entryName b off = name := by
  have hnl : (if 0 < d.nameLen.toNat ∧ d.nameLen.toNat ≤ onyfsNameMax then d.nameLen.toNat
      else nulLen d.name) = (entryName b off).length := by
    split
    · exact hlen
    · rw [hname, nulLen_nameField]
  rw [direntMatches, decide_eq_true_iff, hnl, hname, take_nameField]
  constructor
  · exact And.right
  · rintro rfl
    exact ⟨rfl, rfl⟩

/-! ### Entries -/

/-- The inode number of the entry at offset `off`. -/
def entryIno (b : Block) (off : ℕ) : ℕ := b.mem.load (off + 32) 4

/-- The entry at offset `off`, if it is in use: its name and its inode number. -/
def entryAt (b : Block) (off : ℕ) : Option (List UInt8 × ℕ) :=
  if entryIno b off = 0 then none else some (entryName b off, entryIno b off)

/-- The slots of a directory block. -/
def Fs.slots (s : Fs) (b : Block) (i : ℕ) : Option (List UInt8 × ℕ) := entryAt b (i * s.entrySize)

/-- An entry in use is well formed: its name is not empty and padded with NULs, and the length field of
version 2 is right. -/
structure GoodEntry (version : Version) (b : Block) (off : ℕ) : Prop where
  ne_nil : entryName b off ≠ []
  padded : ∀ j, (entryName b off).length ≤ j → j < onyfsNameMax → b.view off j = 0
  nameLen : version ≠ .v1 → (b.view off 37).toNat = (entryName b off).length

/-- The entries in use are well formed and have different names. -/
structure Fs.DirOk (s : Fs) (b : Block) : Prop where
  good : ∀ i < s.direntsPerBlock, s.slots b i ≠ none → GoodEntry s.version b (i * s.entrySize)
  distinct : SlotTable.Distinct s.direntsPerBlock (s.slots b)

/-- The directory as a map. -/
def Fs.entries (s : Fs) (b : Block) : List UInt8 → Option ℕ := get s.direntsPerBlock (s.slots b)

lemma entryAt_eq_none_iff : entryAt b off = none ↔ entryIno b off = 0 := by
  unfold entryAt
  split <;> simp_all

lemma entryAt_eq_some_iff {ino : ℕ} :
    entryAt b off = some (name, ino) ↔ entryName b off = name ∧ entryIno b off = ino ∧ ino ≠ 0 := by
  unfold entryAt
  split
  · constructor
    · rintro ⟨⟩
    · rintro ⟨-, rfl, hne⟩
      contradiction
  · rw [Option.some.injEq, Prod.mk.injEq]
    constructor
    · rintro ⟨hname, rfl⟩
      exact ⟨hname, rfl, by assumption⟩
    · rintro ⟨hname, hino, -⟩
      exact ⟨hname, hino⟩

variable {s t : Fs} {i j : ℕ}

lemma Fs.entrySize_cases (s : Fs) : s.entrySize = 36 ∧ s.direntsPerBlock = 113 ∧ s.version = .v1 ∨
    s.entrySize = 40 ∧ s.direntsPerBlock = 102 ∧ s.version ≠ .v1 := by
  by_cases hv : s.version = .v1
  · exact .inl ⟨if_pos hv, if_pos hv, hv⟩
  · exact .inr ⟨if_neg hv, if_neg hv, hv⟩

lemma Fs.entrySize_of_ne (hv : s.version ≠ .v1) : s.entrySize = 40 := if_neg hv

lemma Fs.entry_end (hi : i < s.direntsPerBlock) : i * s.entrySize + s.entrySize ≤ onyfsBlockSize := by
  rcases s.entrySize_cases with ⟨hsize, hcount, -⟩ | ⟨hsize, hcount, -⟩ <;>
    rw [hsize, onyfsBlockSize] <;> omega

lemma Fs.entry_disjoint (s : Fs) (hne : i ≠ j) :
    i * s.entrySize + s.entrySize ≤ j * s.entrySize ∨ j * s.entrySize + s.entrySize ≤ i * s.entrySize := by
  rcases lt_or_gt_of_ne hne with hlt | hlt
  · exact .inl (succ_mul i s.entrySize ▸ mul_le_mul_right _ hlt)
  · exact .inr (succ_mul j s.entrySize ▸ mul_le_mul_right _ hlt)

lemma Fs.layout_congr (hv : t.version = s.version) :
    t.entrySize = s.entrySize ∧ t.direntsPerBlock = s.direntsPerBlock ∧ t.slots = s.slots := by
  have hsize : t.entrySize = s.entrySize := by rw [entrySize, entrySize, hv]
  refine ⟨hsize, by rw [direntsPerBlock, direntsPerBlock, hv], funext fun b => funext fun i => ?_⟩
  rw [slots, slots, hsize]

lemma Fs.DirOk.congr (h : s.DirOk b) (hv : t.version = s.version) : t.DirOk b := by
  obtain ⟨hsize, hcount, hslots⟩ := layout_congr hv
  refine ⟨fun i hi hne => ?_, ?_⟩
  · rw [hv, hsize]
    exact h.good i (hcount ▸ hi) (hslots ▸ hne)
  · rw [hslots, hcount]
    exact h.distinct

lemma Fs.entries_congr (hv : t.version = s.version) (b : Block) : t.entries b = s.entries b := by
  obtain ⟨-, hcount, hslots⟩ := layout_congr hv
  rw [entries, entries, hslots, hcount]

/-! ### The scans -/

/-- What `parse_dirent` returns. -/
def Fs.dirent (s : Fs) (i : ℕ) : OnyfsDirent :=
  if s.version = .v1 then fromBytesV1 (s.buf.view (i * s.entrySize))
  else fromBytes (s.buf.view (i * s.entrySize))

lemma parseDirent_eq (hi : i < s.direntsPerBlock) : parseDirent i s = .ok (s.dirent i) s := by
  rw [parseDirent, get_bind, if_neg (not_lt.mpr (entry_end hi)), dirent]
  split <;> rfl

lemma Fs.dirent_inode (s : Fs) (i : ℕ) : (s.dirent i).inode = entryIno s.buf (i * s.entrySize) := by
  unfold dirent
  split <;> exact load_view ..

lemma Fs.dirent_name (s : Fs) (i : ℕ) : (s.dirent i).name = nameField s.buf (i * s.entrySize) := by
  unfold dirent
  split <;> rfl

lemma Fs.dirent_nameLen (hg : GoodEntry s.version s.buf (i * s.entrySize)) :
    (s.dirent i).nameLen.toNat = (entryName s.buf (i * s.entrySize)).length := by
  unfold dirent
  split
  · have hlen : (fromBytesV1 (s.buf.view (i * s.entrySize))).nameLen =
        ofNat (nulLen (nameField s.buf (i * s.entrySize))) := rfl
    have hle := length_entryName_le s.buf (i * s.entrySize)
    rw [hlen, nulLen_nameField, toNat_ofNat']
    rw [onyfsNameMax] at hle
    omega
  · rename_i hv
    exact hg.nameLen hv

lemma Fs.dirent_matches (h : s.DirOk s.buf) (hi : i < s.direntsPerBlock) :
    ((s.dirent i).inode ≠ 0 ∧ direntMatches (s.dirent i) name) ↔
      valueOf name (s.slots s.buf i) = some (s.dirent i).inode := by
  rw [valueOf_eq_some_iff, slots, entryAt_eq_some_iff, s.dirent_inode]
  have hmatches (hne : entryIno s.buf (i * s.entrySize) ≠ 0) : direntMatches (s.dirent i) name ↔ _ :=
    direntMatches_iff (s.dirent_name i) (dirent_nameLen (h.good i hi fun hnone => hne (entryAt_eq_none_iff.mp hnone)))
  constructor
  · rintro ⟨hne, hmatch⟩
    exact ⟨(hmatches hne).mp hmatch, rfl, hne⟩
  · rintro ⟨hname, -, hne⟩
    exact ⟨hne, (hmatches hne).mpr hname⟩

lemma lookupScan_eq (h : s.DirOk s.buf) (name : List UInt8) (fuel i : ℕ) (hi : i + fuel ≤ s.direntsPerBlock) :
    lookupScan name fuel i s = match scan (s.slots s.buf) name fuel i with
      | some ino => .ok ino s
      | none => .error .noEnt s := by
  induction fuel generalizing i with
  | zero => rfl
  | succ fuel ih =>
    have hlt : i < s.direntsPerBlock := by omega
    rw [lookupScan, bind_of_ok (parseDirent_eq hlt), scan_succ]
    split
    · rename_i hfound
      rw [(dirent_matches h hlt).mp hfound]
      rfl
    · rename_i hother
      have hnone : valueOf name (s.slots s.buf i) = none := by
        rw [Option.eq_none_iff_forall_ne_some]
        intro ino hino
        refine hother ((dirent_matches h hlt).mpr ?_)
        rw [hino, s.dirent_inode]
        exact congrArg some (entryAt_eq_some_iff.mp (valueOf_eq_some_iff.mp hino)).2.1.symm
      rw [hnone, Option.none_or]
      exact ih (i + 1) (by omega)

/-- The first scan of `add_dirent` and the scan of `remove_dirent`. -/
theorem Fs.findEntry_eq_some (hnul : 0 ∉ name) (h : s.findEntry name = some i) :
    i < s.direntsPerBlock ∧ ∃ ino, s.slots s.buf i = some (name, ino) := by
  have hi := mem_range.mp (mem_of_find?_eq_some h)
  have htest := find?_some h
  rw [Bool.and_eq_true, bne_iff_ne, nameMatches_iff hnul] at htest
  exact ⟨hi, _, entryAt_eq_some_iff.mpr ⟨htest.2, rfl, htest.1⟩⟩

lemma Fs.findEntry_eq_none_iff (hnul : 0 ∉ name) :
    s.findEntry name = none ↔ SlotTable.Absent s.direntsPerBlock (s.slots s.buf) name := by
  rw [findEntry, find?_eq_none]
  refine ⟨fun h i hi ino hslot => ?_, fun h i hi htest => ?_⟩
  · obtain ⟨hname, rfl, hne⟩ := entryAt_eq_some_iff.mp hslot
    refine h i (mem_range.mpr hi) ?_
    rw [Bool.and_eq_true, bne_iff_ne, nameMatches_iff hnul]
    exact ⟨hne, hname⟩
  · rw [Bool.and_eq_true, bne_iff_ne, nameMatches_iff hnul] at htest
    exact h i (mem_range.mp hi) _ (entryAt_eq_some_iff.mpr ⟨htest.2, rfl, htest.1⟩)

lemma Fs.findFree_eq_some (h : s.findFree = some i) : i < s.direntsPerBlock ∧ s.slots s.buf i = none := by
  have hi := mem_range.mp (mem_of_find?_eq_some h)
  have htest := find?_some h
  rw [beq_iff_eq] at htest
  exact ⟨hi, entryAt_eq_none_iff.mpr htest⟩

lemma Fs.findFree_eq_none_iff : s.findFree = none ↔ SlotTable.Full s.direntsPerBlock (s.slots s.buf) := by
  rw [findFree, find?_eq_none]
  refine forall_congr' fun i => ?_
  rw [mem_range, beq_iff_eq]
  exact imp_congr_right fun _ => not_congr entryAt_eq_none_iff.symm

/-! ### Writing an entry -/

lemma entryName_congr (h : ∀ j < onyfsNameMax, b'.view off j = b.view off j) : entryName b' off = entryName b off := by
  have hfield : nameField b' off = nameField b off :=
    map_congr_left fun j hj => h j (mem_range.mp hj)
  rw [entryName, entryName, hfield]

lemma entryIno_congr (h : ∀ j < 4, b'.view off (32 + j) = b.view off (32 + j)) : entryIno b' off = entryIno b off := by
  refine leValue_congr fun j hj => ?_
  have hbyte := h j hj
  unfold view at hbyte
  rwa [← add_assoc] at hbyte

/-- The block `b'` differs from `b` in the bytes of entry `i` only. -/
def Fs.SameElsewhere (s : Fs) (i : ℕ) (b b' : Block) : Prop :=
  ∀ x, x ∉ Set.Ico (i * s.entrySize) (i * s.entrySize + s.entrySize) → b'.mem x = b.mem x

lemma Fs.SameElsewhere.view (h : s.SameElsewhere i b b') (hne : j ≠ i) {k : ℕ} (hk : k < s.entrySize) :
    b'.view (j * s.entrySize) k = b.view (j * s.entrySize) k := by
  refine h _ fun hmem => ?_
  have hlo := hmem.1
  have hhi := hmem.2
  rcases s.entry_disjoint hne with hd | hd <;> omega

lemma Fs.entrySize_ge (s : Fs) : 36 ≤ s.entrySize := by
  rcases s.entrySize_cases with ⟨hsize, -⟩ | ⟨hsize, -⟩ <;> omega

lemma Fs.SameElsewhere.slots_eq (h : s.SameElsewhere i b b') (hne : j ≠ i) : s.slots b' j = s.slots b j := by
  have hsize := s.entrySize_ge
  have hname : entryName b' (j * s.entrySize) = entryName b (j * s.entrySize) :=
    entryName_congr fun k hk => h.view hne (by rw [onyfsNameMax] at hk; omega)
  have hino : entryIno b' (j * s.entrySize) = entryIno b (j * s.entrySize) :=
    entryIno_congr fun k hk => h.view hne (by omega)
  rw [slots, slots, entryAt, entryAt, hname, hino]

lemma Fs.SameElsewhere.good (h : s.SameElsewhere i b b') (hne : j ≠ i)
    (hg : GoodEntry s.version b (j * s.entrySize)) : GoodEntry s.version b' (j * s.entrySize) := by
  have hsize := s.entrySize_ge
  have hname : entryName b' (j * s.entrySize) = entryName b (j * s.entrySize) :=
    entryName_congr fun k hk => h.view hne (by rw [onyfsNameMax] at hk; omega)
  refine ⟨hname ▸ hg.ne_nil, fun k hk hlt => ?_, fun hv => ?_⟩
  · rw [h.view hne (by rw [onyfsNameMax] at hlt; omega)]
    exact hg.padded k (hname ▸ hk) hlt
  · rw [h.view hne, hname]
    · exact hg.nameLen hv
    · rw [entrySize_of_ne hv]
      decide

lemma Fs.SameElsewhere.slots_update (h : s.SameElsewhere i b b') :
    s.slots b' = update (s.slots b) i (s.slots b' i) := by
  funext j
  by_cases hji : j = i
  · rw [hji, update_self]
  · rw [update_of_ne hji, h.slots_eq hji]

lemma Fs.SameElsewhere.good_of_self (h : s.SameElsewhere i b b') (hok : s.DirOk b)
    (hself : s.slots b' i ≠ none → GoodEntry s.version b' (i * s.entrySize)) (hj : j < s.direntsPerBlock)
    (hne : s.slots b' j ≠ none) : GoodEntry s.version b' (j * s.entrySize) := by
  by_cases hji : j = i
  · rw [hji] at hne ⊢
    exact hself hne
  · rw [h.slots_eq hji] at hne
    exact h.good hji (hok.good j hj hne)

/-- Entry `i` has been written: it has the name and the number, is well formed, and the other entries are
the same. -/
structure Fs.WroteEntry (s : Fs) (i : ℕ) (name : List UInt8) (ino : ℕ) (b b' : Block) : Prop where
  same : s.SameElsewhere i b b'
  slot : s.slots b' i = some (name, ino)
  good : GoodEntry s.version b' (i * s.entrySize)

variable {ino : ℕ} {k a : ℕ} {c : UInt8}

lemma Fs.WroteEntry.slots_eq (h : s.WroteEntry i name ino b b') :
    s.slots b' = update (s.slots b) i (some (name, ino)) := by
  rw [h.same.slots_update, h.slot]

lemma Fs.WroteEntry.entries_eq (h : s.WroteEntry i name ino b b') (hok : s.DirOk b) (hi : i < s.direntsPerBlock)
    (htakes : SlotTable.Takes s.direntsPerBlock (s.slots b) i name) :
    s.entries b' = update (s.entries b) name (some ino) := by
  rw [entries, h.slots_eq]
  exact get_put hok.distinct htakes hi ino

lemma Fs.WroteEntry.dirOk (h : s.WroteEntry i name ino b b') (hok : s.DirOk b) (hi : i < s.direntsPerBlock)
    (htakes : SlotTable.Takes s.direntsPerBlock (s.slots b) i name) : s.DirOk b' := by
  refine ⟨fun j => h.same.good_of_self hok fun _ => h.good, ?_⟩
  rw [h.slots_eq]
  exact hok.distinct.put htakes hi ino

/-- Entry `i` has been freed. -/
structure Fs.FreedEntry (s : Fs) (i : ℕ) (b b' : Block) : Prop where
  same : s.SameElsewhere i b b'
  slot : s.slots b' i = none

lemma Fs.FreedEntry.slots_eq (h : s.FreedEntry i b b') : s.slots b' = update (s.slots b) i none := by
  rw [h.same.slots_update, h.slot]

lemma Fs.FreedEntry.entries_eq (h : s.FreedEntry i b b') (hok : s.DirOk b) (hi : i < s.direntsPerBlock)
    (hslot : s.slots b i = some (name, ino)) : s.entries b' = update (s.entries b) name none := by
  rw [entries, h.slots_eq]
  exact get_free hok.distinct hi hslot

lemma Fs.FreedEntry.dirOk (h : s.FreedEntry i b b') (hok : s.DirOk b) : s.DirOk b' := by
  refine ⟨fun j => h.same.good_of_self hok fun hne => absurd h.slot hne, ?_⟩
  rw [h.slots_eq]
  exact hok.distinct.free i

/-! ### The writes of the driver -/

lemma view_store_of_notMem {w v : ℕ} (hk : off + k ∉ Set.Ico a (a + w)) :
    (b.store a w v).view off k = b.view off k := mem_store_of_notMem hk

lemma view_setByte_of_ne (hk : off + k ≠ a) : (b.setByte a c).view off k = b.view off k :=
  mem_setByte_of_ne hk

lemma view_setByte_self (hk : off + k < onyfsBlockSize) : (b.setByte (off + k) c).view off k = c :=
  (mem_ofMem hk).trans Memory.setByte_apply_self

lemma entryIno_setByte (hk : 36 ≤ k) : entryIno (b.setByte (off + k) c) off = entryIno b off :=
  entryIno_congr fun j hj => view_setByte_of_ne (by omega)

lemma entryIno_store (hoff : off + 36 ≤ onyfsBlockSize) (hino : ino < u32Size) :
    entryIno (b.store (off + 32) 4 ino) off = ino :=
  load_store_same (by omega) hino

lemma Fs.sameElsewhere_store (s : Fs) (i v : ℕ) (b : Block) :
    s.SameElsewhere i b (b.store (i * s.entrySize + 32) 4 v) := by
  have hsize := s.entrySize_ge
  refine fun x hx => mem_store_of_notMem fun hmem => hx ⟨?_, ?_⟩
  · exact (le_add_right _ _).trans hmem.1
  · have := hmem.2
    omega

lemma Fs.SameElsewhere.setByte (h : s.SameElsewhere i b b') (hk : k < s.entrySize) (c : UInt8) :
    s.SameElsewhere i b (b'.setByte (i * s.entrySize + k) c) := by
  intro x hx
  rw [mem_setByte_of_ne, h x hx]
  rintro rfl
  exact hx ⟨Nat.le_add_right _ _, Nat.add_lt_add_left hk _⟩

lemma Fs.wroteEntry_retarget {old : ℕ} (hok : s.DirOk s.buf) (hi : i < s.direntsPerBlock)
    (hslot : s.slots s.buf i = some (name, old)) (hino : ino < u32Size) (hne : ino ≠ 0) (dtype : UInt8) :
    s.WroteEntry i name ino s.buf (s.retarget i ino dtype) := by
  have hgood := hok.good i hi (by rw [hslot]; simp)
  have hend := entry_end hi
  have hsize := s.entrySize_ge
  obtain ⟨hname, -, -⟩ := entryAt_eq_some_iff.mp hslot
  -- the first 32 bytes and the length field stay
  have hfield : ∀ k, k < onyfsNameMax ∨ k = 37 →
      (s.retarget i ino dtype).view (i * s.entrySize) k = s.buf.view (i * s.entrySize) k := by
    intro k hk
    have hstore : (s.buf.store (i * s.entrySize + 32) 4 ino).view (i * s.entrySize) k =
        s.buf.view (i * s.entrySize) k := by
      refine view_store_of_notMem fun hmem => ?_
      have hlo := hmem.1
      have hhi := hmem.2
      rw [onyfsNameMax] at hk
      omega
    unfold retarget
    split
    · exact hstore
    · rw [view_setByte_of_ne, hstore]
      rw [onyfsNameMax] at hk
      omega
  have hname' : entryName (s.retarget i ino dtype) (i * s.entrySize) = name :=
    (entryName_congr fun k hk => hfield k (.inl hk)).trans hname
  have hino' : entryIno (s.retarget i ino dtype) (i * s.entrySize) = ino := by
    unfold retarget
    split
    · exact entryIno_store (by omega) hino
    · rw [entryIno_setByte le_rfl]
      exact entryIno_store (by omega) hino
  refine ⟨?_, entryAt_eq_some_iff.mpr ⟨hname', hino', hne⟩, ?_, ?_, ?_⟩
  · unfold retarget
    split
    · exact s.sameElsewhere_store i ino s.buf
    · rename_i hv
      refine (s.sameElsewhere_store i ino s.buf).setByte ?_ dtype
      rw [entrySize_of_ne hv]
      decide
  · rw [hname', ← hname]
    exact hgood.ne_nil
  · intro k hk hlt
    rw [hfield k (.inl hlt)]
    exact hgood.padded k (by rwa [hname', ← hname] at hk) hlt
  · intro hv
    rw [hfield 37 (.inr rfl), hname', ← hname]
    exact hgood.nameLen hv

lemma Fs.wroteEntry_fillEntry (hi : i < s.direntsPerBlock) (hname : ValidName name) (hino : ino < u32Size)
    (hne : ino ≠ 0) (dtype : UInt8) : s.WroteEntry i name ino s.buf (s.fillEntry i name ino dtype) := by
  have hend := entry_end hi
  have hsize := s.entrySize_ge
  have hlen : name.length ≤ 32 := hname.length_le
  -- the name field holds the name and NULs
  have hfield : ∀ k < onyfsNameMax, (s.fillEntry i name ino dtype).view (i * s.entrySize) k = name.getD k 0 := by
    intro k hk
    rw [onyfsNameMax] at hk
    have hstore : ((s.buf.blit (i * s.entrySize) onyfsNameMax fun j => name.getD j 0).store
        (i * s.entrySize + 32) 4 ino).view (i * s.entrySize) k = name.getD k 0 := by
      rw [view_store_of_notMem]
      · exact mem_blit_add (by omega) hk
      · intro hmem
        have hlo := hmem.1
        omega
    unfold fillEntry
    split
    · exact hstore
    · rw [view_setByte_of_ne (by omega), view_setByte_of_ne (by omega), hstore]
  have hname' : entryName (s.fillEntry i name ino dtype) (i * s.entrySize) = name := by
    rw [entryName_eq_iff hname.nul_notMem]
    refine ⟨fun j hj => ?_, fun hlt => ?_⟩
    · have hj32 : j < onyfsNameMax := hj.trans_le hname.length_le
      rw [hfield j hj32, getD_eq_getElem _ _ hj]
      exact ⟨hj32, rfl⟩
    · rw [hfield _ hlt]
      exact getD_eq_default _ _ le_rfl
  have hino' : entryIno (s.fillEntry i name ino dtype) (i * s.entrySize) = ino := by
    unfold fillEntry
    split
    · exact entryIno_store (by omega) hino
    · rw [entryIno_setByte (by omega), entryIno_setByte le_rfl]
      exact entryIno_store (by omega) hino
  have hblit : s.SameElsewhere i s.buf (s.buf.blit (i * s.entrySize) onyfsNameMax fun j => name.getD j 0) := by
    refine fun x hx => mem_blit_of_notMem fun hmem => hx ⟨hmem.1, hmem.2.trans_le ?_⟩
    rw [onyfsNameMax]
    omega
  have hstore : s.SameElsewhere i s.buf ((s.buf.blit (i * s.entrySize) onyfsNameMax fun j => name.getD j 0).store
      (i * s.entrySize + 32) 4 ino) :=
    fun x hx => (s.sameElsewhere_store i ino _ x hx).trans (hblit x hx)
  refine ⟨?_, entryAt_eq_some_iff.mpr ⟨hname', hino', hne⟩, ?_, ?_, ?_⟩
  · unfold fillEntry
    split
    · exact hstore
    · rename_i hv
      have h40 := entrySize_of_ne hv
      exact (hstore.setByte (by omega) dtype).setByte (by omega) _
  · rw [hname']
    exact hname.ne_nil
  · intro k hk hlt
    rw [hname'] at hk
    rw [hfield k hlt]
    exact getD_eq_default _ _ hk
  · intro hv
    have h40 := entrySize_of_ne hv
    rw [hname']
    unfold fillEntry
    rw [if_neg hv, view_setByte_self (by omega), min_eq_left hname.length_le, toNat_ofNat']
    omega

lemma Fs.freedEntry_store (hi : i < s.direntsPerBlock) (b : Block) :
    s.FreedEntry i b (b.store (i * s.entrySize + 32) 4 0) := by
  have hend := entry_end hi
  have hsize := s.entrySize_ge
  exact ⟨s.sameElsewhere_store i 0 b, entryAt_eq_none_iff.mpr (entryIno_store (by omega) (by decide))⟩

/-! ### The functions -/

variable {dir blk : ℕ}

/-- The directory has a block, with well-formed entries, which is not the block of its inode. -/
structure Fs.Directory (s : Fs) (dir : ℕ) : Prop where
  ne_zero : (s.inodeAt dir).blocks 0 ≠ 0
  dirOk : s.DirOk (s.disk ((s.inodeAt dir).blocks 0))
  apart : (s.inodeAt dir).blocks 0 ≠ s.inodeBlock dir

/-- The contents of a directory. -/
def Fs.dirMap (s : Fs) (dir : ℕ) : List UInt8 → Option ℕ := s.entries (s.disk ((s.inodeAt dir).blocks 0))

/-- There is no journal, or it has a free slot, which is not the block of the inode. -/
def Fs.FreeSlot (s : Fs) (dir : ℕ) : Prop :=
  s.noJournal ∨ s.journalHead < s.sb.journalSize ∧ s.journalBlock s.journalHead ≠ s.inodeBlock dir

/-- The block has been written, and no other block but the next journal slot has changed. -/
structure Fs.Replaced (s : Fs) (blk : ℕ) (b : Block) (t : Fs) : Prop where
  version_eq : t.version = s.version
  sb_eq : t.sb = s.sb
  disk_self : t.disk blk = b
  disk_ne : ∀ x, x ≠ blk → (s.noJournal ∨ x ≠ s.journalBlock s.journalHead) → t.disk x = s.disk x

lemma logBuf_replaced (blk : ℕ) (b : Block) : (∃ t, logBuf blk (s.withBuf b) = .ok () t ∧ s.Replaced blk b t ∧
      (s.noJournal ∨ s.journalHead < s.sb.journalSize)) ∨
    logBuf blk (s.withBuf b) = .error .noSpace (s.withBuf b) ∧ ¬s.noJournal ∧ s.sb.journalSize ≤ s.journalHead := by
  rcases Classical.em s.noJournal with hno | hyes
  · exact .inl ⟨_, logBuf_of_noJournal (s := s.withBuf b) hno blk,
      ⟨rfl, rfl, update_self .., fun x hx _ => update_of_ne hx ..⟩, .inl hno⟩
  · rcases lt_or_ge s.journalHead s.sb.journalSize with hroom | hfull
    · refine .inl ⟨s.logged blk b, logBuf_eq ⟨hyes, hroom⟩ b, ⟨rfl, rfl, logged_disk_self, fun x hx hslot => ?_⟩,
        .inr hroom⟩
      exact logged_disk_of_ne hx (hslot.resolve_left hyes)
    · exact .inr ⟨logBuf_of_full (s := s.withBuf b) hyes hfull blk, hyes, hfull⟩

lemma logBuf_of_freeSlot (h : s.FreeSlot dir) (blk : ℕ) (b : Block) :
    ∃ t, logBuf blk (s.withBuf b) = .ok () t ∧ s.Replaced blk b t := by
  rcases logBuf_replaced (s := s) blk b with ⟨t, hrun, hrep, -⟩ | ⟨-, hyes, hfull⟩
  · exact ⟨t, hrun, hrep⟩
  · have hroom := (h.resolve_left hyes).1
    omega

lemma Fs.Replaced.inodeAt_eq (h : s.Replaced blk b t) {ino : ℕ}
    (hdisk : t.disk (s.inodeBlock ino) = s.disk (s.inodeBlock ino)) :
    t.inodeBlock ino = s.inodeBlock ino ∧ t.inodeAt ino = s.inodeAt ino := by
  exact ⟨inodeBlock_congr h.version_eq h.sb_eq ino, inodeAt_congr h.version_eq h.sb_eq hdisk⟩

lemma Fs.Directory.replaced (hd : s.Directory dir) (h : s.Replaced ((s.inodeAt dir).blocks 0) b t)
    (hdisk : t.disk (s.inodeBlock dir) = s.disk (s.inodeBlock dir)) (hok : s.DirOk b) :
    t.Directory dir ∧ t.dirMap dir = s.entries b := by
  obtain ⟨hblock, hinode⟩ := h.inodeAt_eq hdisk
  refine ⟨⟨?_, ?_, ?_⟩, ?_⟩
  · rw [hinode]
    exact hd.ne_zero
  · rw [hinode, h.disk_self]
    exact hok.congr h.version_eq
  · rw [hinode, hblock]
    exact hd.apart
  · rw [dirMap, hinode, h.disk_self, entries_congr h.version_eq]

lemma Fs.FreeSlot.disk_inode (h : s.FreeSlot dir) (hrep : s.Replaced blk b t) (hne : blk ≠ s.inodeBlock dir) :
    t.disk (s.inodeBlock dir) = s.disk (s.inodeBlock dir) :=
  hrep.disk_ne _ hne.symm (h.imp id fun hslot => hslot.2.symm)

/-- The inode number that `lookup_in` finds. -/
def lookupIno (dir : ℕ) (name : List UInt8) (s : Fs) : Except Errno ℕ :=
  match lookupIn dir name s with
  | .ok st _ => .ok st.ino
  | .error e _ => .error e

section

variable (hd : s.Directory dir)
include hd

lemma lookupIno_eq (name : List UInt8) : lookupIno dir name s = match s.dirMap dir name with
      | some ino => .ok ino
      | none => .error .noEnt := by
  obtain ⟨b, hb⟩ : ∃ b, b = s.disk ((s.inodeAt dir).blocks 0) := ⟨_, rfl⟩
  have hrun : lookupIn dir name s = (lookupScan name s.direntsPerBlock 0 >>= stat) (s.withBuf b) := by
    rw [lookupIn, bind_of_ok (readInode_eq dir s), if_neg hd.ne_zero, readBuf_bind, get_bind, hb]
    rfl
  have hok : (s.withBuf b).DirOk (s.withBuf b).buf := by
    have h := hd.dirOk.congr (t := s.withBuf b) rfl
    rw [← hb] at h
    exact h
  have hscan := lookupScan_eq hok name s.direntsPerBlock 0 (le_of_eq (zero_add _))
  rw [lookupIno, hrun, dirMap, ← hb, entries, SlotTable.get]
  have hslots : (s.withBuf b).slots (s.withBuf b).buf = s.slots b := rfl
  rw [hslots] at hscan
  cases hget : scan (s.slots b) name s.direntsPerBlock 0 with
  | none =>
    rw [hget] at hscan
    rw [bind_of_error hscan]
  | some ino =>
    rw [hget] at hscan
    rw [bind_of_ok hscan, stat, bind_of_ok (readInode_eq ino _)]
    rfl

lemma lookupIno_eq_noEnt_iff : lookupIno dir name s = .error .noEnt ↔ s.dirMap dir name = none := by
  rw [lookupIno_eq hd]
  cases s.dirMap dir name <;> simp

/-- `add_dirent` writes a block in which the map is updated, or the name is not there and no entry is
free. -/
theorem addDirent_eq (hname : ValidName name) (hino : ino < u32Size) (hne : ino ≠ 0) (dtype : UInt8) :
    (∃ b, addDirent dir name ino dtype s = logBuf ((s.inodeAt dir).blocks 0) (s.withBuf b) ∧ s.DirOk b ∧
      s.entries b = update (s.dirMap dir) name (some ino) ∧ ¬(s.dirMap dir name = none ∧
        SlotTable.Full s.direntsPerBlock (s.slots (s.disk ((s.inodeAt dir).blocks 0))))) ∨
    ∃ b, addDirent dir name ino dtype s = .error .noSpace (s.withBuf b) ∧ s.dirMap dir name = none ∧
      SlotTable.Full s.direntsPerBlock (s.slots (s.disk ((s.inodeAt dir).blocks 0))) := by
  obtain ⟨u, hu⟩ : ∃ u, u = s.withBuf (s.disk ((s.inodeAt dir).blocks 0)) := ⟨_, rfl⟩
  have hbuf : u.buf = s.disk ((s.inodeAt dir).blocks 0) := by rw [hu]; rfl
  have hok : u.DirOk u.buf := by
    rw [hbuf]
    exact hd.dirOk.congr (by rw [hu]; rfl)
  have hslots : ∀ b, u.slots b = s.slots b := fun b => by rw [hu]; rfl
  have hentries : ∀ b, u.entries b = s.entries b := fun b => entries_congr (by rw [hu]; rfl) b
  have hcount : u.direntsPerBlock = s.direntsPerBlock := by rw [hu]; rfl
  have hdir : dirBlock dir s = .ok ((s.inodeAt dir).blocks 0) (s.withBuf (s.disk (s.inodeBlock dir))) := by
    rw [dirBlock, bind_of_ok (readInode_eq dir s), if_neg hd.ne_zero]
    rfl
  rw [addDirent, bind_of_ok hdir, readBuf_bind, get_bind, withBuf_withBuf, withBuf_disk, ← hu]
  -- both writes of the function update the map
  have hwrite : ∀ i b', i < u.direntsPerBlock → u.WroteEntry i name ino u.buf b' →
      SlotTable.Takes u.direntsPerBlock (u.slots u.buf) i name →
      (do setBuf b'; logBuf ((s.inodeAt dir).blocks 0)) u = logBuf ((s.inodeAt dir).blocks 0) (s.withBuf b') ∧
        s.DirOk b' ∧ s.entries b' = update (s.dirMap dir) name (some ino) := by
    intro i b' hi hwrote htakes
    refine ⟨?_, (hwrote.dirOk hok hi htakes).congr (by rw [hu]; rfl), ?_⟩
    · rw [setBuf_bind, hu, withBuf_withBuf]
    · rw [← hentries, hwrote.entries_eq hok hi htakes, hentries, hbuf]
      rfl
  cases hfind : u.findEntry name with
  | some i =>
    obtain ⟨hi, old, hslot⟩ := findEntry_eq_some hname.nul_notMem hfind
    obtain ⟨hrun, hok', hmap⟩ := hwrite i _ hi (wroteEntry_retarget hok hi hslot hino hne dtype) (.inl ⟨old, hslot⟩)
    refine .inl ⟨_, hrun, hok', hmap, fun ⟨hnone, _⟩ => ?_⟩
    rw [hslots, hbuf] at hslot
    exact get_eq_none_iff.mp hnone i (hcount ▸ hi) old hslot
  | none =>
    have habsent := (findEntry_eq_none_iff hname.nul_notMem).mp hfind
    cases hslot : u.findFree with
    | some i =>
      obtain ⟨hi, hnone⟩ := findFree_eq_some hslot
      obtain ⟨hrun, hok', hmap⟩ := hwrite i _ hi (wroteEntry_fillEntry hi hname hino hne dtype)
        (.inr ⟨hnone, habsent⟩)
      refine .inl ⟨_, hrun, hok', hmap, fun ⟨_, hfull⟩ => ?_⟩
      rw [hslots, hbuf] at hnone
      exact hfull i (hcount ▸ hi) hnone
    | none =>
      have hfull := findFree_eq_none_iff.mp hslot
      rw [hslots, hbuf, hcount] at hfull habsent
      exact .inr ⟨_, by rw [hu]; rfl, get_eq_none_iff.mpr habsent, hfull⟩

/-- `remove_dirent` writes a block in which the name is removed, or the name is not there. -/
theorem removeDirent_eq (hname : ValidName name) :
    (∃ b, removeDirent dir name s = logBuf ((s.inodeAt dir).blocks 0) (s.withBuf b) ∧ s.DirOk b ∧
      s.entries b = update (s.dirMap dir) name none ∧ s.dirMap dir name ≠ none) ∨
    ∃ b, removeDirent dir name s = .error .noEnt (s.withBuf b) ∧ s.dirMap dir name = none := by
  obtain ⟨u, hu⟩ : ∃ u, u = s.withBuf (s.disk ((s.inodeAt dir).blocks 0)) := ⟨_, rfl⟩
  have hbuf : u.buf = s.disk ((s.inodeAt dir).blocks 0) := by rw [hu]; rfl
  have hslots : ∀ b, u.slots b = s.slots b := fun b => by rw [hu]; rfl
  have hcount : u.direntsPerBlock = s.direntsPerBlock := by rw [hu]; rfl
  have hsize : u.entrySize = s.entrySize := by rw [hu]; rfl
  rw [removeDirent, bind_of_ok (readInode_eq dir s), if_neg hd.ne_zero, readBuf_bind, get_bind,
    withBuf_withBuf, withBuf_disk, ← hu]
  cases hfind : u.findEntry name with
  | some i =>
    obtain ⟨hi, old, hslot⟩ := findEntry_eq_some hname.nul_notMem hfind
    rw [hslots, hbuf] at hslot
    rw [hcount] at hi
    have hfreed := freedEntry_store hi (s.disk ((s.inodeAt dir).blocks 0))
    refine .inl ⟨_, ?_, hfreed.dirOk hd.dirOk, hfreed.entries_eq hd.dirOk hi hslot, fun hnone => ?_⟩
    · dsimp only
      rw [setBuf_bind, hbuf, hsize, hu, withBuf_withBuf]
    · exact get_eq_none_iff.mp hnone i hi old hslot
  | none =>
    have habsent := (findEntry_eq_none_iff hname.nul_notMem).mp hfind
    rw [hslots, hbuf, hcount] at habsent
    exact .inr ⟨_, by rw [hu]; rfl, get_eq_none_iff.mpr habsent⟩

end

/-! ### Directories are finite maps -/

/-- The functions on directory entries are those of a finite map with a fixed number of slots. -/
structure Fs.IsMap (s : Fs) (dir : ℕ) : Prop where
  add : ∀ name ino dtype t, ValidName name → ino ≠ 0 → ino < u32Size → addDirent dir name ino dtype s = .ok () t →
    lookupIno dir name t = .ok ino ∧ (∀ other, other ≠ name → lookupIno dir other t = lookupIno dir other s) ∧
      t.Directory dir
  remove : ∀ name t, ValidName name → removeDirent dir name s = .ok () t →
    lookupIno dir name t = .error .noEnt ∧
      (∀ other, other ≠ name → lookupIno dir other t = lookupIno dir other s) ∧ t.Directory dir
  add_noSpace : ∀ name ino dtype, ValidName name → ino ≠ 0 → ino < u32Size →
    ((∃ t, addDirent dir name ino dtype s = .error .noSpace t) ↔ lookupIno dir name s = .error .noEnt ∧
      ∀ i < s.direntsPerBlock, s.slots (s.disk ((s.inodeAt dir).blocks 0)) i ≠ none)
  remove_noEnt : ∀ name, ValidName name →
    ((∃ t, removeDirent dir name s = .error .noEnt t) ↔ lookupIno dir name s = .error .noEnt)

lemma Fs.Directory.outcome {r : EStateM.Result Errno Fs Unit} {v : Option ℕ} {e : Errno} {Q : Prop}
    (hd : s.Directory dir) (hfree : s.FreeSlot dir)
    (hr : (∃ b, r = logBuf ((s.inodeAt dir).blocks 0) (s.withBuf b) ∧ s.DirOk b ∧
      s.entries b = update (s.dirMap dir) name v ∧ ¬Q) ∨ ∃ b, r = .error e (s.withBuf b) ∧ Q) :
    (∀ t, r = .ok () t → t.dirMap dir name = v ∧ t.Directory dir ∧
      ∀ other, other ≠ name → lookupIno dir other t = lookupIno dir other s) ∧ ((∃ t, r = .error e t) ↔ Q) := by
  rcases hr with ⟨b, rfl, hok, hmap, hQ⟩ | ⟨b, rfl, hQ⟩
  · obtain ⟨t, hlog, hrep⟩ := logBuf_of_freeSlot hfree ((s.inodeAt dir).blocks 0) b
    obtain ⟨hdir, hcont⟩ := hd.replaced hrep (hfree.disk_inode hrep hd.apart) hok
    rw [hlog]
    refine ⟨?_, nofun, fun h => absurd h hQ⟩
    rintro _ ⟨⟩
    refine ⟨by rw [hcont, hmap, update_self], hdir, fun other hne => ?_⟩
    rw [lookupIno_eq hd, lookupIno_eq hdir, hcont, hmap, update_of_ne hne]
  · exact ⟨nofun, fun _ => hQ, fun _ => ⟨_, rfl⟩⟩

/-- The small disk with a block for its root directory. -/
def rootFs : Fs :=
  { smallFs with disk := update smallFs.disk 3 ((zero _).store 16 4 36) }

lemma rootFs_block : (rootFs.inodeAt 1).blocks 0 = 36 := by decide +kernel

lemma rootFs_slots (i : ℕ) : rootFs.slots (rootFs.disk 36) i = none := by
  have hzero : rootFs.disk 36 = zero _ := rfl
  rw [slots, entryAt_eq_none_iff, hzero]
  exact Memory.load_eq_zero fun _ _ => mem_zero ..

lemma directory_rootFs : rootFs.Directory 1 where
  ne_zero := by rw [rootFs_block]; decide
  dirOk := by
    rw [rootFs_block]
    exact ⟨fun i _ hne => absurd (rootFs_slots i) hne, fun i _ j _ k v w hi => by rw [rootFs_slots] at hi; cases hi⟩
  apart := by
    rw [rootFs_block]
    decide +kernel

end OnyxKernel.Onyxfs
