import Mathlib

/-!
# The password file

`init/src/auth.rs`: `format_passwd_entry` writes a line of `/etc/passwd` and `parse_passwd` reads it.  `format_dec`
puts the digits at the end of a buffer of zeros, and the line takes what stands before the first zero.  So no number
comes into the file, and every user is read back with the numbers of the root user (`restored_iff`).
-/

namespace OnyxKernel.Passwd

open List

/-- A buffer of `n` bytes with the bytes of a list, as far as they fit. -/
def padTo (n : ℕ) (l : List UInt8) : List UInt8 := l.take n ++ replicate (n - l.length) 0

/-! ### Numbers -/

/-- The loop of `format_dec`: the bytes behind `pos` are `buf`. -/
def formatDecLoop : (pos val : ℕ) → List UInt8 → List UInt8
  | 0, _, buf => buf
  | pos + 1, val, buf =>
    if val = 0 then replicate (pos + 1) 0 ++ buf else formatDecLoop pos (val / 10) (.ofNat (0x30 + val % 10) :: buf)

def formatDec (n : ℕ) : List UInt8 := if n = 0 then replicate 10 0 ++ [0x30, 0] else formatDecLoop 11 n [0]

/-- `parse_dec`, with the value so far. -/
def parseDec : List UInt8 → ℕ → ℕ
  | [], val => val
  | b :: s, val => if 0x30 ≤ b ∧ b ≤ 0x39 then parseDec s ((val * 10 + (b - 0x30).toNat) % 2 ^ 32) else val

/-! ### Lines -/

def formatPasswdEntry (username : List UInt8) (uid gid : ℕ) (home shell : List UInt8) : List UInt8 :=
  padTo 256 (username ++ 0x3A :: ((formatDec uid).takeWhile (· ≠ 0) ++ 0x3A :: ((formatDec gid).takeWhile (· ≠ 0) ++
    0x3A :: (home ++ 0x3A :: shell))))

structure PasswdEntry where
  name : List UInt8
  uid : ℕ
  gid : ℕ
  home : List UInt8
  shell : List UInt8

/-- The loop over the bytes of a line: where the first five fields start, and where the last field does. -/
def scanFields : (line : List UInt8) → (i start : ℕ) → List ℕ → List ℕ × ℕ
  | [], _, start, fields => (fields, start)
  | b :: line, i, start, fields =>
    if b = 0x3A then scanFields line (i + 1) (i + 1) (if fields.length < 5 then fields ++ [start] else fields)
    else scanFields line (i + 1) start fields

/-- `line[i..j]`. -/
def slice (line : List UInt8) (i j : ℕ) : List UInt8 := (line.drop i).take (j - i)

/-- The body of the loop of `parse_passwd`. -/
def parseLine (line : List UInt8) : Option PasswdEntry :=
  if line = [] ∨ line.head? = some 0x23 then none
  else
    match scanFields line 0 0 [] with
    | (f0 :: f1 :: f2 :: f3 :: _, f4) =>
      some ⟨padTo 32 (slice line f0 (f1 - 1)), parseDec (slice line f1 (f2 - 1)) 0, parseDec (slice line f2 (f3 - 1)) 0,
        padTo 64 (slice line f3 (f4 - 1)), padTo 32 (line.drop f4)⟩
    | _ => none

/-- `parse_passwd`, after `count` entries. -/
def parsePasswd (count : ℕ) (data : List UInt8) : List PasswdEntry :=
  if _h : data = [] ∨ 16 ≤ count then []
  else
    let line := data.takeWhile (· ≠ 0x0A)
    match parseLine line with
    | some e => e :: parsePasswd (count + 1) (data.drop (line.length + 1))
    | none => parsePasswd count (data.drop (line.length + 1))
termination_by data.length
decreasing_by
  all_goals
    have := length_pos_iff.mpr (not_or.mp _h).1
    rw [length_drop]
    omega

/-! ### Reading back -/

lemma takeWhile_formatDecLoop {pos val : ℕ} (hval : val < 10 ^ pos) (buf : List UInt8) :
    (formatDecLoop (pos + 1) val buf).takeWhile (· ≠ 0) = [] := by
  induction pos generalizing val buf with
  | zero =>
    obtain rfl : val = 0 := by omega
    rfl
  | succ pos ih =>
    rw [formatDecLoop]
    split_ifs
    · rfl
    · refine ih ?_ _
      omega

lemma takeWhile_formatDec {n : ℕ} (hn : n < 2 ^ 32) : (formatDec n).takeWhile (· ≠ 0) = [] := by
  unfold formatDec
  split_ifs
  · rfl
  · exact takeWhile_formatDecLoop (hn.trans (by decide : 2 ^ 32 < 10 ^ 10)) _

lemma scanFields_append {w : List UInt8} (hw : 0x3A ∉ w) (line : List UInt8) (i start : ℕ) (fields : List ℕ) :
    scanFields (w ++ line) i start fields = scanFields line (i + w.length) start fields := by
  induction w generalizing i with
  | nil => rfl
  | cons b w ih =>
    rw [mem_cons, not_or] at hw
    rw [cons_append, scanFields, if_neg (Ne.symm hw.1), ih hw.2, length_cons, Nat.add_right_comm, Nat.add_assoc]

/-- A field of at most `n` bytes. -/
abbrev Plain (n : ℕ) (l : List UInt8) : Prop := l.length ≤ n ∧ 0x3A ∉ l ∧ 0x0A ∉ l ∧ 0 ∉ l

variable {username home shell : List UInt8} {uid gid : ℕ}

lemma parseLine_eq (hne : username ≠ []) (hhash : username.head? ≠ some 0x23) (huser : 0x3A ∉ username)
    (hhome : 0x3A ∉ home) (hshell : 0x3A ∉ shell) :
    parseLine (username ++ 0x3A :: 0x3A :: 0x3A :: (home ++ 0x3A :: shell)) =
      some ⟨padTo 32 username, 0, 0, padTo 64 home, padTo 32 shell⟩ := by
  obtain ⟨b, w, rfl⟩ := exists_cons_of_ne_nil hne
  have hend (i start : ℕ) (fields : List ℕ) : scanFields shell i start fields = (fields, start) := by
    have happend := scanFields_append hshell [] i start fields
    rwa [append_nil] at happend
  have hscan : scanFields (b :: w ++ 0x3A :: 0x3A :: 0x3A :: (home ++ 0x3A :: shell)) 0 0 [] =
      ([0, w.length + 2, w.length + 3, w.length + 4], w.length + 4 + home.length + 1) := by
    rw [scanFields_append huser]
    simp only [scanFields, if_true]
    rw [scanFields_append hhome, scanFields, if_pos rfl, hend]
    simp [Nat.add_comm, Nat.add_left_comm]
  have hlast : (b :: w ++ 0x3A :: 0x3A :: 0x3A :: (home ++ 0x3A :: shell)).drop (w.length + 4 + home.length + 1) =
      shell := by
    have hsplit : b :: w ++ 0x3A :: 0x3A :: 0x3A :: (home ++ 0x3A :: shell) =
        (b :: w ++ 0x3A :: 0x3A :: 0x3A :: (home ++ [0x3A])) ++ shell := by simp
    rw [hsplit]
    exact drop_left' (by simp; omega)
  rw [parseLine, if_neg (by simpa using hhash), hscan]
  dsimp only
  rw [hlast]
  simp [slice, parseDec]

/-- The line of an entry is read as this entry. -/
def Restored (username : List UInt8) (uid gid : ℕ) (home shell : List UInt8) : Prop :=
  parsePasswd 0 (formatPasswdEntry username uid gid home shell) =
    [⟨padTo 32 username, uid, gid, padTo 64 home, padTo 32 shell⟩]

section

variable (hne : username ≠ []) (hhash : username.head? ≠ some 0x23) (huser : Plain 32 username) (hhome : Plain 64 home)
  (hshell : Plain 32 shell) (huid : uid < 2 ^ 32) (hgid : gid < 2 ^ 32)
include hne hhash huser hhome hshell huid hgid

lemma parsePasswd_eq : parsePasswd 0 (formatPasswdEntry username uid gid home shell) =
    [⟨padTo 32 username, 0, 0, padTo 64 home, padTo 32 shell⟩] := by
  obtain ⟨hlen1, hcolon1, hnewline1, -⟩ := huser
  obtain ⟨hlen2, hcolon2, hnewline2, -⟩ := hhome
  obtain ⟨hlen3, hcolon3, hnewline3, -⟩ := hshell
  obtain ⟨k, hk, hline⟩ : ∃ k, 32 ≤ k ∧ formatPasswdEntry username uid gid home shell =
      username ++ 0x3A :: 0x3A :: 0x3A :: (home ++ 0x3A :: (shell ++ replicate k 0)) := by
    rw [formatPasswdEntry, takeWhile_formatDec huid, takeWhile_formatDec hgid, padTo, take_of_length_le (by simp; omega)]
    simp
    omega
  have hpad : padTo 32 (shell ++ replicate k 0) = padTo 32 shell := by
    rw [padTo, padTo, take_append, take_of_length_le hlen3, take_replicate, length_append, length_replicate,
      Nat.min_eq_left (by omega), Nat.sub_eq_zero_of_le (by omega : 32 ≤ shell.length + k), replicate_zero, append_nil]
  have hcolon : 0x3A ∉ shell ++ replicate k 0 := by simp [hcolon3]
  rw [hline, parsePasswd, dif_neg (by simp)]
  dsimp only
  rw [takeWhile_eq_self_iff.mpr, parseLine_eq hne hhash hcolon1 hcolon2 hcolon, hpad, drop_eq_nil_of_le (Nat.le_succ _)]
  · dsimp only
    rw [parsePasswd, dif_pos (.inl rfl)]
  · intro b hb
    rw [decide_eq_true_eq]
    rintro rfl
    simp [hnewline1, hnewline2, hnewline3] at hb

/-- An entry is read back exactly if its numbers are those of the root user. -/
theorem restored_iff : Restored username uid gid home shell ↔ uid = 0 ∧ gid = 0 := by
  rw [Restored, parsePasswd_eq hne hhash huser hhome hshell huid hgid]
  simp [eq_comm]

end

theorem restored_iff_root : Restored [0x72] 0 0 [0x2F] [0x2F] :=
  (restored_iff (by decide) (by decide) (by decide) (by decide) (by decide) (by decide) (by decide)).mpr ⟨rfl, rfl⟩

theorem not_restored_bob : ¬Restored [0x62, 0x6F, 0x62] 1000 1000 [0x2F] [0x2F, 0x73, 0x68] := by
  rw [Restored, parsePasswd_eq (by decide) (by decide) (by decide) (by decide) (by decide) (by decide) (by decide)]
  simp

end OnyxKernel.Passwd
