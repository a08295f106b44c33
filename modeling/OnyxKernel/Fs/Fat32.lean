import Mathlib

/-!
# Names on a FAT32 volume

A directory entry has a name of eight bytes and an extension of three.  `fat32_name_8_3` of
`kernel/src/fs/fat32.rs` and `name_to_83` of `core/src/formats/misc.rs` bring a name into this form.  The kernel
cuts off what is too long, where the other function refuses the name, and has no form for `..`.
-/

namespace OnyxKernel.Fat32

open List Option

/-- The eleven bytes in a directory entry. -/
abbrev Name83 := Fin 11 → UInt8

def dot : UInt8 := 0x2E

def toAsciiUppercase (b : UInt8) : UInt8 := if 0x61 ≤ b ∧ b ≤ 0x7A then b - 32 else b

def toAsciiLowercase (b : UInt8) : UInt8 := if 0x41 ≤ b ∧ b ≤ 0x5A then b + 32 else b

/-- The part of a name before its first dot. -/
def base (name : List UInt8) : List UInt8 := name.takeWhile (· != dot)

/-- The part behind its first dot. -/
def ext (name : List UInt8) : List UInt8 := (name.dropWhile (· != dot)).tail

/-- Two parts of a name in upper case, filled up with spaces. -/
def encode (base ext : List UInt8) : Name83 := fun i =>
  (if i.val < 8 then base[i.val]? else ext[i.val - 8]?).elim 0x20 toAsciiUppercase

/-- `fat32_name_8_3` -/
def fat32Name83 (name : List UInt8) : Name83 :=
  if name = [] ∨ name = [dot] ∨ name = [dot, dot] then fun _ => 0x20 else encode (base name) (ext name)

/-- Neither part of a name is too long. -/
def Fits (name : List UInt8) : Prop := (base name).length ≤ 8 ∧ (ext name).length ≤ 3

instance (name : List UInt8) : Decidable (Fits name) := inferInstanceAs (Decidable (_ ∧ _))

def nameTo83 (name : List UInt8) : Option Name83 :=
  if Fits name then some (encode (base name) (ext name)) else none

def matches83 (dirent11 : Name83) (name : List UInt8) : Bool :=
  match nameTo83 name with
  | none => false
  | some expected => decide (∀ i, toAsciiLowercase (dirent11 i) = toAsciiLowercase (expected i))

/-! ### Looking up a name -/

/-- An entry of a directory. -/
structure DirEntry where
  name : Name83
  attr : UInt8

/-- The entry is neither part of a long name, nor the end of the directory, nor deleted. -/
def DirEntry.Live (e : DirEntry) : Prop := e.attr ≠ 0x0F ∧ e.name 0 ≠ 0 ∧ e.name 0 ≠ 0xE5

/-- The loop of `scan_dir_entries` over the entries of a directory. -/
def scanDirEntries (test : Name83 → Bool) : List DirEntry → Option DirEntry
  | [] => none
  | e :: rest =>
    if e.attr = 0x0F then scanDirEntries test rest
    else if e.name 0 = 0 then none
    else if e.name 0 = 0xE5 then scanDirEntries test rest
    else if test e.name then some e
    else scanDirEntries test rest

/-- `lookup` in a directory with the given entries. -/
def lookup (name : List UInt8) (dir : List DirEntry) : Option DirEntry :=
  scanDirEntries (· = fat32Name83 name) dir

variable {name : List UInt8} {dir : List DirEntry} {test test' : Name83 → Bool}

lemma scanDirEntries_congr (h : ∀ e ∈ dir, e.Live → test e.name = test' e.name) :
    scanDirEntries test dir = scanDirEntries test' dir := by
  induction dir with
  | nil => rfl
  | cons e rest ih =>
    rw [forall_mem_cons] at h
    rw [scanDirEntries, scanDirEntries, ih h.2]
    split_ifs with hlong hend hdel h1 h2 h2
    all_goals try rfl
    · exact absurd ((h.1 ⟨hlong, hend, hdel⟩).symm.trans h1) h2
    · exact absurd ((h.1 ⟨hlong, hend, hdel⟩).trans h2) h1

lemma scanDirEntries_false (dir : List DirEntry) : scanDirEntries (fun _ => false) dir = none := by
  induction dir with
  | nil => rfl
  | cons e rest ih => simp [scanDirEntries, ih]

/-- No byte of a name is a small letter. -/
def UpperCase (n : Name83) : Prop := ∀ i, toAsciiUppercase (n i) = n i

lemma forall_byte {P : UInt8 → Prop} (h : ∀ n : Fin 256, P (UInt8.ofNat n)) (b : UInt8) : P b := by
  have := h ⟨b.toNat, b.toNat_lt⟩
  rwa [UInt8.ofNat_toNat] at this

lemma toAsciiUppercase_lower (b : UInt8) : toAsciiUppercase (toAsciiLowercase b) = toAsciiUppercase b :=
  forall_byte (P := fun b => toAsciiUppercase (toAsciiLowercase b) = toAsciiUppercase b) (by decide +kernel) b

lemma toAsciiUppercase_upper (b : UInt8) : toAsciiUppercase (toAsciiUppercase b) = toAsciiUppercase b :=
  forall_byte (P := fun b => toAsciiUppercase (toAsciiUppercase b) = toAsciiUppercase b) (by decide +kernel) b

lemma upperCase_encode (base ext : List UInt8) : UpperCase (encode base ext) := by
  intro i
  unfold encode
  cases if i.val < 8 then base[i.val]? else ext[i.val - 8]? with
  | none => rfl
  | some b => exact toAsciiUppercase_upper b

lemma eq_of_lower {m n : Name83} (hm : UpperCase m) (hn : UpperCase n)
    (h : ∀ i, toAsciiLowercase (m i) = toAsciiLowercase (n i)) : m = n := by
  funext i
  rw [← hm i, ← hn i, ← toAsciiUppercase_lower (m i), h i, toAsciiUppercase_lower]

lemma fat32Name83_eq (hname : name ≠ [dot, dot]) : fat32Name83 name = encode (base name) (ext name) := by
  unfold fat32Name83
  split_ifs with hspecial
  · rcases hspecial with rfl | rfl | hdots
    · decide
    · decide
    · exact absurd hdots hname
  · rfl

/-- `lookup` finds the entries that `matches_83` accepts, provided they are in upper case, the two functions agree
where both give a form, and a name without a form is not found. -/
structure Agrees (name : List UInt8) : Prop where
  lookup_eq : ∀ dir, (∀ e ∈ dir, UpperCase e.name) → lookup name dir = scanDirEntries (matches83 · name) dir
  encode_eq : ∀ n, nameTo83 name = some n → fat32Name83 name = n
  not_found : nameTo83 name = none → ∀ dir, lookup name dir = none

lemma agrees_of_fits (hname : name ≠ [dot, dot]) (hfits : Fits name) : Agrees name := by
  have hsome : nameTo83 name = some (encode (base name) (ext name)) := if_pos hfits
  refine ⟨fun dir hdir => ?_, fun n hn => ?_, fun hnone => ?_⟩
  · refine scanDirEntries_congr fun e he _ => ?_
    rw [matches83, hsome, fat32Name83_eq hname, decide_eq_decide]
    exact ⟨fun heq i => by rw [heq], eq_of_lower (hdir e he) (upperCase_encode _ _)⟩
  · rw [fat32Name83_eq hname]
    exact some.inj (hsome.symm.trans hn)
  · rw [hsome] at hnone
    cases hnone

lemma first_fat32Name83 (hname : name ≠ [dot, dot]) {b : UInt8} (hb : b = 0 ∨ b = 0xE5) :
    fat32Name83 name 0 = b ↔ name.head? = some b := by
  rw [fat32Name83_eq hname]
  cases name with
  | nil => rcases hb with rfl | rfl <;> decide
  | cons a rest =>
    by_cases ha : a = dot
    · subst ha
      rcases hb with rfl | rfl <;> simp [encode, base, dot]
    · have hfirst : encode (base (a :: rest)) (ext (a :: rest)) 0 = toAsciiUppercase a := by simp [encode, base, ha]
      rw [hfirst, head?_cons, some_inj]
      rcases hb with rfl | rfl
      · exact forall_byte (P := fun a => toAsciiUppercase a = 0 ↔ a = 0) (by decide +kernel) a
      · exact forall_byte (P := fun a => toAsciiUppercase a = 0xE5 ↔ a = 0xE5) (by decide +kernel) a

/-- The two agree on a name exactly if it is not `..` and its parts are not too long, or its first byte is one
that no entry in use begins with. -/
theorem encoders_agree_iff (name : List UInt8) :
    Agrees name ↔ name ≠ [dot, dot] ∧ (Fits name ∨ name.head? = some 0 ∨ name.head? = some 0xE5) := by
  constructor
  · intro h
    have hname : name ≠ [dot, dot] := by
      rintro rfl
      exact absurd (congrFun (h.encode_eq _ rfl) 8) (by decide)
    refine ⟨hname, ?_⟩
    by_contra hlong
    rw [not_or, not_or, ← first_fat32Name83 hname (.inl rfl), ← first_fat32Name83 hname (.inr rfl)] at hlong
    -- the entry with the name that the kernel makes is found
    have hnone := h.not_found (if_neg hlong.1) [⟨fat32Name83 name, 0⟩]
    simp [lookup, scanDirEntries, hlong.2] at hnone
  · rintro ⟨hname, hcase⟩
    by_cases hfits : Fits name
    · exact agrees_of_fits hname hfits
    have hnone : nameTo83 name = none := if_neg hfits
    have hlookup : ∀ dir, lookup name dir = none := by
      intro dir
      refine (scanDirEntries_congr fun e _ hlive => decide_eq_false fun heq => ?_).trans (scanDirEntries_false dir)
      rcases hcase.resolve_left hfits with hhead | hhead
      · exact hlive.2.1 (heq ▸ (first_fat32Name83 hname (.inl rfl)).mpr hhead)
      · exact hlive.2.2 (heq ▸ (first_fat32Name83 hname (.inr rfl)).mpr hhead)
    refine ⟨fun dir _ => ?_, fun n hn => ?_, fun _ => hlookup⟩
    · simp only [hlookup, matches83, hnone, scanDirEntries_false]
    · rw [hnone] at hn
      cases hn

/-- Nine letters `A` have no form, but the kernel finds the file with eight of them. -/
theorem not_agrees_nine : ¬Agrees (replicate 9 0x41) := by
  intro h
  exact absurd (h.not_found rfl [⟨encode (replicate 8 0x41) [], 0⟩]) (by decide +kernel)

end OnyxKernel.Fat32
