import OnyxKernel.Mm.PageTable

/-!
# The initial stack of a program

`kernel/src/proc/onx/argv.rs`: the argument and environment strings of a new program are collected
from the memory of the caller and laid out below the top of its stack, with the pointers to them and
the auxiliary vector.  `user` is the memory as the kernel reads it through the pointers of the caller.
The words are stored one by one, each at its translated address; the strings and the random bytes are
stored from the translated address of their first byte on.
-/

namespace OnyxKernel.Onx

open ByteMemory

def maxArgv : ℕ := 64
def maxArgvBytes : ℕ := 8192
def maxEnvp : ℕ := 32
def maxEnvpBytes : ℕ := 8192

def argvPtrOk (p : ℕ) : Bool := decide (userBase ≤ p ∧ p < userTop)

/-- The string at `p` up to its zero byte, but no more than `maxLen` bytes of it. -/
def userStr (user : Memory) : (maxLen p : ℕ) → List UInt8
  | 0, _ => []
  | maxLen + 1, p => if user p = 0 then [] else user p :: userStr user maxLen (wadd p 1)

/-- `copy_user_str`: append the string at `p` and a zero byte to what the buffer of `cap` bytes holds,
if there is room. -/
def copyUserStr (user : Memory) (p cap maxLen : ℕ) (buf : List UInt8) : Option (List UInt8) :=
  if cap < buf.length + (userStr user maxLen p).length + 1 then none
  else some (buf ++ userStr user maxLen p ++ [0])

/-- `collect_strings`, from the entry `i` on: the offsets of the strings in the buffer, and the
buffer. -/
def collectStrings (user : Memory) (ptrs cap maxLen : ℕ) :
    (count i : ℕ) → List UInt8 → List ℕ × List UInt8
  | 0, _, buf => ([], buf)
  | count + 1, i, buf =>
    let p := user.load (wadd ptrs (8 * i)) 8
    if p = 0 ∨ !argvPtrOk p then ([], buf)
    else
      match copyUserStr user p cap maxLen buf with
      | none => ([], buf)
      | some buf' =>
        let (offs, last) := collectStrings user ptrs cap maxLen count (i + 1) buf'
        (buf.length :: offs, last)

/-- The strings behind an array of pointers; there are none for a null or bad pointer. -/
def stringsOf (user : Memory) (ptrs cap maxLen maxCount : ℕ) : List ℕ × List UInt8 :=
  if ptrs ≠ 0 ∧ argvPtrOk ptrs then collectStrings user ptrs cap maxLen maxCount 0 [] else ([], [])

/-- The argument strings.  Without arguments there is one empty string. -/
def argvOf (user : Memory) (argvUser : ℕ) : List ℕ × List UInt8 :=
  let strs := stringsOf user argvUser maxArgvBytes 127 maxArgv
  if strs.1 = [] then ([0], [0]) else strs

/-- The environment strings. -/
def envpOf (user : Memory) (envpUser : ℕ) : List ℕ × List UInt8 :=
  stringsOf user envpUser maxEnvpBytes 255 maxEnvp

def auxvSize : ℕ := 9 * 16
def atRandomBytes : ℕ := 16

/-- The bytes for `AT_RANDOM`. -/
def randomBytes (tick : UInt64) : List UInt8 :=
  (List.range atRandomBytes).map fun i => (tick * 0x9E3779B97F4A7C15 + UInt64.ofNat i).toUInt8

/-- The layout of the initial stack. -/
structure InitialStack where
  argc : ℕ
  sp : ℕ
  /-- The words from `sp` on. -/
  words : List ℕ
  argvStrBase : ℕ
  argvStrs : List UInt8
  envpStrBase : ℕ
  envpStrs : List UInt8
  randomVa : ℕ

/-- The layout computed by `copy_argv_envp_to_stack`. -/
def initialStack (user : Memory) (ustackTop argvUser envpUser entryVaddr uid : ℕ) : InitialStack :=
  let (argvOffs, argvStrs) := argvOf user argvUser
  let (envpOffs, envpStrs) := envpOf user envpUser
  let argvPtrSize := (argvOffs.length + 1) * 8
  let envpPtrSize := (envpOffs.length + 1) * 8
  let total := 8 + argvPtrSize + envpPtrSize + auxvSize + argvStrs.length + envpStrs.length + atRandomBytes
  let sp := wsub ustackTop total / 16 * 16
  let argvStrBase := wadd sp (8 + argvPtrSize + envpPtrSize + auxvSize)
  let envpStrBase := wadd argvStrBase argvStrs.length
  let randomVa := wadd envpStrBase envpStrs.length
  { argc := argvOffs.length
    sp := sp
    words :=
      [argvOffs.length] ++ argvOffs.map (wadd argvStrBase) ++ [0] ++
      envpOffs.map (wadd envpStrBase) ++ [0] ++
      -- AT_PAGESZ, AT_CLKTCK, AT_UID, AT_EUID, AT_GID, AT_EGID, AT_ENTRY, AT_RANDOM, AT_NULL
      [6, 4096, 17, 100, 11, uid, 12, uid, 13, uid, 14, uid, 9, entryVaddr, 25, randomVa, 0, 0]
    argvStrBase := argvStrBase
    argvStrs := argvStrs
    envpStrBase := envpStrBase
    envpStrs := envpStrs
    randomVa := randomVa }

/-- Store bytes from the translated address of `va` on, if there is one. -/
def storeAt (rootPa va : ℕ) (bytes : List UInt8) (s : Mm) : Mm :=
  let pa := Vmm.translate s.mem rootPa va
  if pa ≠ 0 then { s with mem := s.mem.write pa bytes } else s

def writeVal (rootPa va val : ℕ) (s : Mm) : Mm := storeAt rootPa va (leBytes 8 val) s

/-- Write words from `va` on. -/
def writeVals (rootPa : ℕ) : (va : ℕ) → List ℕ → Mm → Mm
  | _, [], s => s
  | va, val :: vals, s => writeVals rootPa (wadd va 8) vals (writeVal rootPa va val s)

/-- `copy_argv_envp_to_stack`: the number of arguments and the stack pointer, and the state after the
stack has been written. -/
def copyArgvEnvpToStack (user : Memory) (tick : UInt64)
    (rootPa ustackTop argvUser envpUser entryVaddr uid : ℕ) (s : Mm) : (ℕ × ℕ) × Mm :=
  let st := initialStack user ustackTop argvUser envpUser entryVaddr uid
  let s := writeVals rootPa st.sp st.words s
  let s := storeAt rootPa st.argvStrBase st.argvStrs s
  let s := if st.envpStrs ≠ [] then storeAt rootPa st.envpStrBase st.envpStrs s else s
  ((st.argc, st.sp), storeAt rootPa st.randomVa (randomBytes tick) s)

def copyArgvToStack (user : Memory) (tick : UInt64) (rootPa ustackTop argvUser : ℕ) (s : Mm) :
    (ℕ × ℕ) × Mm :=
  copyArgvEnvpToStack user tick rootPa ustackTop argvUser 0 0 0 s

end OnyxKernel.Onx
