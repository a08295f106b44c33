import OnyxKernel.Foundation.Buffer
import OnyxKernel.Proc.Signals

/-!
# System calls that write to user memory

`sys_getentropy`, `sys_getdents64` and `sys_ioctl` of `kernel/src/syscall/fs_sys3/extra.rs` and
`fill_user_stat` of `fs_sys/open_close.rs`, with the range check `user_ptr_ok` of `handler.rs`.  Each
of them translates the address of the first byte and stores from there on.
-/

namespace OnyxKernel

open ByteMemory List Vmm

/-- `user_ptr_ok`: the range `[p, p + len)` lies in the user part of the address space. -/
def userPtrOk (p len : ℕ) : Bool := decide (userBase ≤ p ∧ p + len < wordSize ∧ p + len ≤ userTop)

namespace Kernel

/-! ### `getentropy` -/

/-- One round of the generator. -/
def xorshift (seed : UInt64) : UInt64 :=
  let seed := seed ^^^ (seed <<< 13)
  let seed := seed ^^^ (seed >>> 7)
  seed ^^^ (seed <<< 17)

/-- The next `n` bytes of the generator. -/
def entropyBytes : (n : ℕ) → (seed : UInt64) → List UInt8
  | 0, _ => []
  | n + 1, seed => (xorshift seed).toUInt8 :: entropyBytes n (xorshift seed)

def sysGetentropy (h : Hart) (buf len : ℕ) (k : Kernel) : ℤ × Kernel :=
  if 256 < len ∨ !userPtrOk buf len then (Errno.inval.asI64, k)
  else
    let pa := translate k.mm.mem (k.current h).rootPa buf
    if pa = 0 then (Errno.inval.asI64, k)
    else
      let seed := k.uptimeUs * 0x9E3779B97F4A7C15 + UInt64.ofNat (k.currentPid h)
      (0, k.copyOut buf pa (entropyBytes len seed))

/-! ### `getdents64` -/

/-- `readdir_entry_by_ino`: the entry of a directory at a position, as its inode number and a
buffer with the name.  What the file systems answer is arbitrary. -/
abbrev Readdir := VfsFs → (ino idx : ℕ) → Except Errno (Option (ℕ × Buffer 256))

/-- The name in an entry buffer: the bytes before the first zero (none, if there is no zero). -/
def entryName (entry : Buffer 256) : List UInt8 :=
  let bytes := ofFn entry
  if 0 ∈ bytes then bytes.takeWhile (· ≠ 0) else []

/-- The length of the record of a name, padded to eight bytes. -/
def reclenAligned (nameLen : ℕ) : ℕ := (19 + nameLen + 7) / 8 * 8

/-- The record of an entry: `d_ino`, `d_off`, `d_reclen`, `d_type`, the name and the padding. -/
def direntRecord (dIno : ℕ) (name : List UInt8) : List UInt8 :=
  leBytes 8 dIno ++ leBytes 8 0 ++ leBytes 2 (reclenAligned name.length) ++ [0] ++ name ++
    replicate (reclenAligned name.length - (19 + name.length)) 0

/-- The loop of `sys_getdents64`: `fuel` bounds the number of records.  The result is the new cursor
and the number of bytes written. -/
def getdentsLoop (readdir : Readdir) (fd : VfsFd) (buf pa count : ℕ) :
    (fuel cursor written : ℕ) → Kernel → Except Errno (ℕ × ℕ) × Kernel
  | 0, cursor, written, k => (.ok (cursor, written), k)
  | fuel + 1, cursor, written, k =>
    match readdir fd.fs fd.ino cursor with
    | .error e => (.error e, k)
    | .ok none => (.ok (cursor, written), k)
    | .ok (some (dIno, entry)) =>
      let record := direntRecord dIno (entryName entry)
      if count < written + reclenAligned (entryName entry).length then (.ok (cursor, written), k)
      else
        getdentsLoop readdir fd buf pa count fuel ((cursor + 1) % 2 ^ 32) (written + record.length)
          (k.copyOut (wadd buf written) (pa + written) record)

/-- `sys_getdents64`.  A record takes at least 24 bytes, so the loop stops within `count + 1`
turns. -/
def sysGetdents64 (readdir : Readdir) (h : Hart) (fd buf count : ℕ) (k : Kernel) : ℤ × Kernel :=
  if !userPtrOk buf count ∨ count < 19 then (Errno.inval.asI64, k)
  else
    match k.fdCheck h fd with
    | .error e => (e.asI64, k)
    | .ok idx =>
      let f := k.fdGet h idx
      let pa := translate k.mm.mem (k.current h).rootPa buf
      if pa = 0 then (Errno.inval.asI64, k)
      else
        match getdentsLoop readdir f buf pa count (count + 1) f.pos 0 k with
        | (.error e, k) => (e.asI64, k)
        | (.ok (cursor, written), k) => (written, k.fdUpdatePos h idx cursor)

/-! ### `ioctl` -/

def tcgets : ℕ := 0x5401
def tcsets : ℕ := 0x5402
def tiocgwinsz : ℕ := 0x5413
def fionread : ℕ := 0x541B

/-- A request that fills the record at `arg` with `bytes`; a null pointer is accepted. -/
def ioctlFill (h : Hart) (arg : ℕ) (bytes : List UInt8) (k : Kernel) : ℤ × Kernel :=
  if arg = 0 then (0, k)
  else if !userPtrOk arg bytes.length then (Errno.inval.asI64, k)
  else
    let pa := translate k.mm.mem (k.current h).rootPa arg
    if pa = 0 then (Errno.inval.asI64, k) else (0, k.copyOut arg pa bytes)

/-- `struct winsize` of a terminal with 24 rows and 80 columns. -/
def winsize : List UInt8 := leBytes 2 24 ++ leBytes 2 80 ++ leBytes 2 0 ++ leBytes 2 0

def sysIoctl (h : Hart) (request arg : ℕ) (k : Kernel) : ℤ × Kernel :=
  if request = tcgets then ioctlFill h arg (replicate 60 0) k
  else if request = tcsets then (0, k)
  else if request = tiocgwinsz then ioctlFill h arg winsize k
  else if request = fionread then ioctlFill h arg (leBytes 4 0) k
  else (Errno.noSys.asI64, k)

/-! ### `stat` and `fstat` -/

/-- What `fill_user_stat` is told about a file. -/
structure StatInfo where
  ino : ℕ
  size : ℕ
  mode : ℕ
  mtime : ℕ
  atime : ℕ
  ctime : ℕ

/-- The 144 bytes of `UserStat`.  The four bytes in front of `st_rdev` are padding of the compiler,
whose contents are not specified; they are zero here. -/
def userStat (i : StatInfo) : List UInt8 :=
  let ifmt := if i.mode &&& 0o170000 = 0o040000 then 0o040000 else 0o100000
  leBytes 8 0 ++ leBytes 8 i.ino ++ leBytes 4 (ifmt ||| 0o755) ++ leBytes 4 1 ++ leBytes 4 0 ++
    leBytes 4 0 ++ leBytes 4 0 ++ leBytes 4 0 ++ leBytes 8 0 ++ leBytes 8 i.size ++ leBytes 8 512 ++
    leBytes 8 (wadd i.size 511 / 512) ++ leBytes 8 i.atime ++ leBytes 8 0 ++ leBytes 8 i.mtime ++
    leBytes 8 0 ++ leBytes 8 i.ctime ++ leBytes 8 0 ++ leBytes 24 0

/-- The size of `UserStat`. -/
def userStatSize : ℕ := 144

def fillUserStat (h : Hart) (outVa : ℕ) (i : StatInfo) (k : Kernel) : Kernel :=
  if !userPtrOk outVa userStatSize then k
  else
    let pa := translate k.mm.mem (k.current h).rootPa outVa
    if pa = 0 then k else k.copyOut outVa pa (userStat i)

@[simp] lemma length_userStat (i : StatInfo) : (userStat i).length = userStatSize := by
  simp [userStat, userStatSize]

@[simp] lemma length_entropyBytes (n : ℕ) (seed : UInt64) : (entropyBytes n seed).length = n := by
  induction n generalizing seed with
  | zero => rfl
  | succ n ih => simp [entropyBytes, ih]

@[simp] lemma length_direntRecord (dIno : ℕ) (name : List UInt8) :
    (direntRecord dIno name).length = reclenAligned name.length := by
  simp only [direntRecord, length_append, length_leBytes, length_cons, length_nil,
    length_replicate, reclenAligned]
  omega

end Kernel

end OnyxKernel
