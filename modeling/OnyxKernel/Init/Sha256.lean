import Mathlib

/-!
# SHA-256

`init/src/auth.rs`: `sha256_update` collects bytes and compresses every full block, and `sha256_final` adds the padding.
`buf` holds the first `buf_len` bytes of the buffer; the bytes behind them are written before they are read.  However
a message is divided into pieces, the result is the digest of FIPS 180-4 (`sha256_conforms`).
-/

namespace OnyxKernel.Sha256

open List

def fromBeBytes (bytes : List UInt8) : ℕ := bytes.foldl (fun v b => v * 256 + b.toNat) 0

/-- `to_be_bytes` of a number of `w` bytes. -/
def toBeBytes (w v : ℕ) : List UInt8 := (range w).reverse.map fun i => .ofNat (v / 256 ^ i)

/-- The chaining value, and the variables of the rounds. -/
structure Words where
  (a b c d e f g h : BitVec 32)
  deriving DecidableEq

def Words.add (s r : Words) : Words :=
  ⟨s.a + r.a, s.b + r.b, s.c + r.c, s.d + r.d, s.e + r.e, s.f + r.f, s.g + r.g, s.h + r.h⟩

def Words.toBytes (s : Words) : List UInt8 := [s.a, s.b, s.c, s.d, s.e, s.f, s.g, s.h].flatMap (toBeBytes 4 ·.toNat)

/-! ### The standard -/

namespace Fips

/-- The first 64 prime numbers. -/
def primes : List ℕ := (range 312).filter fun p => 2 ≤ p ∧ ∀ d ∈ range p, 2 ≤ d → ¬d ∣ p

/-- The first 32 bits of the fractional part of the `n`th root of the prime number with index `i`. -/
def fracRoot (n i : ℕ) : BitVec 32 := .ofNat 32 (Nat.nthRoot n (primes.getD i 0 * 2 ^ (32 * n)))

/-- The initial hash value. -/
def initial : Words :=
  ⟨fracRoot 2 0, fracRoot 2 1, fracRoot 2 2, fracRoot 2 3, fracRoot 2 4, fracRoot 2 5, fracRoot 2 6, fracRoot 2 7⟩

/-- The functions `Σ₀` and `Σ₁` of the standard, with the numbers of their rotations. -/
def bigSigma (i j k : ℕ) (x : BitVec 32) : BitVec 32 := x.rotateRight i ^^^ x.rotateRight j ^^^ x.rotateRight k

/-- The functions `σ₀` and `σ₁` of the standard. -/
def smallSigma (i j k : ℕ) (x : BitVec 32) : BitVec 32 := x.rotateRight i ^^^ x.rotateRight j ^^^ (x >>> k)

/-- The message schedule of a block. -/
def schedule (block : List UInt8) (t : ℕ) : BitVec 32 :=
  if t < 16 then .ofNat 32 (fromBeBytes ((block.drop (t * 4)).take 4))
  else smallSigma 17 19 10 (schedule block (t - 2)) + schedule block (t - 7) + smallSigma 7 18 3 (schedule block (t - 15)) +
    schedule block (t - 16)

/-- The working variables after `t` rounds. -/
def working (s : Words) (block : List UInt8) : ℕ → Words
  | 0 => s
  | t + 1 =>
    let ⟨a, b, c, d, e, f, g, h⟩ := working s block t
    let t₁ := h + bigSigma 6 11 25 e + ((e &&& f) ^^^ (~~~e &&& g)) + fracRoot 3 t + schedule block t
    let t₂ := bigSigma 2 13 22 a + ((a &&& b) ^^^ (a &&& c) ^^^ (b &&& c))
    ⟨t₁ + t₂, a, b, c, d + t₁, e, f, g⟩

/-- The hash value after the blocks of a message. -/
def hash (s : Words) (m : List UInt8) : Words :=
  if 64 ≤ m.length then hash (s.add (working s (m.take 64) 64)) (m.drop 64) else s
termination_by m.length
decreasing_by
  rw [length_drop]
  omega

/-- The padded message: the bits `1 0 … 0` up to 64 bits before the end of a block, and the number of bits. -/
def pad (m : List UInt8) : List UInt8 :=
  m ++ 0x80 :: (replicate ((119 - m.length % 64) % 64) 0 ++ toBeBytes 8 (8 * m.length))

def digest (m : List UInt8) : List UInt8 := (hash initial (pad m)).toBytes

end Fips

/-! ### The functions of `auth.rs` -/

def K : List (BitVec 32) := [
  0x428a2f98, 0x71374491, 0xb5c0fbcf, 0xe9b5dba5, 0x3956c25b, 0x59f111f1, 0x923f82a4, 0xab1c5ed5,
  0xd807aa98, 0x12835b01, 0x243185be, 0x550c7dc3, 0x72be5d74, 0x80deb1fe, 0x9bdc06a7, 0xc19bf174,
  0xe49b69c1, 0xefbe4786, 0x0fc19dc6, 0x240ca1cc, 0x2de92c6f, 0x4a7484aa, 0x5cb0a9dc, 0x76f988da,
  0x983e5152, 0xa831c66d, 0xb00327c8, 0xbf597fc7, 0xc6e00bf3, 0xd5a79147, 0x06ca6351, 0x14292967,
  0x27b70a85, 0x2e1b2138, 0x4d2c6dfc, 0x53380d13, 0x650a7354, 0x766a0abb, 0x81c2c92e, 0x92722c85,
  0xa2bfe8a1, 0xa81a664b, 0xc24b8b70, 0xc76c51a3, 0xd192e819, 0xd6990624, 0xf40e3585, 0x106aa070,
  0x19a4c116, 0x1e376c08, 0x2748774c, 0x34b0bcb5, 0x391c0cb3, 0x4ed8aa4a, 0x5b9cca4f, 0x682e6ff3,
  0x748f82ee, 0x78a5636f, 0x84c87814, 0x8cc70208, 0x90befffa, 0xa4506ceb, 0xbef9a3f7, 0xc67178f2]

def rotr (x : BitVec 32) (n : ℕ) : BitVec 32 := x >>> n ||| x <<< (32 - n)

def ch (x y z : BitVec 32) : BitVec 32 := (x &&& y) ^^^ (~~~x &&& z)

def maj (x y z : BitVec 32) : BitVec 32 := (x &&& y) ^^^ (x &&& z) ^^^ (y &&& z)

def SIG0 (x : BitVec 32) : BitVec 32 := rotr x 2 ^^^ rotr x 13 ^^^ rotr x 22

def SIG1 (x : BitVec 32) : BitVec 32 := rotr x 6 ^^^ rotr x 11 ^^^ rotr x 25

def sigma0 (x : BitVec 32) : BitVec 32 := rotr x 7 ^^^ rotr x 18 ^^^ (x >>> 3)

def sigma1 (x : BitVec 32) : BitVec 32 := rotr x 17 ^^^ rotr x 19 ^^^ (x >>> 10)

/-- The second loop of `sha256_compress`, after the words `w`. -/
def extend (w : List (BitVec 32)) (t : ℕ) : List (BitVec 32) :=
  w ++ [sigma1 (w.getD (t - 2) 0) + w.getD (t - 7) 0 + sigma0 (w.getD (t - 15) 0) + w.getD (t - 16) 0]

/-- The third loop of `sha256_compress`. -/
def round (w : List (BitVec 32)) (s : Words) (t : ℕ) : Words :=
  let t1 := s.h + SIG1 s.e + ch s.e s.f s.g + K.getD t 0 + w.getD t 0
  let t2 := SIG0 s.a + maj s.a s.b s.c
  ⟨t1 + t2, s.a, s.b, s.c, s.d + t1, s.e, s.f, s.g⟩

def sha256Compress (state : Words) (block : List UInt8) : Words :=
  let w := (range 16).map fun t => .ofNat 32 (fromBeBytes ((block.drop (t * 4)).take 4))
  let w := (range' 16 48).foldl extend w
  state.add ((range 64).foldl (round w) state)

structure Sha256State where
  state : Words
  buf : List UInt8
  totalLen : ℕ

def sha256Init : Sha256State where
  state := ⟨0x6a09e667, 0xbb67ae85, 0x3c6ef372, 0xa54ff53a, 0x510e527f, 0x9b05688c, 0x1f83d9ab, 0x5be0cd19⟩
  buf := []
  totalLen := 0

/-- The loop body of `sha256_update`. -/
def updateByte (s : Sha256State) (b : UInt8) : Sha256State :=
  if s.buf.length + 1 = 64 then ⟨sha256Compress s.state (s.buf ++ [b]), [], (s.totalLen + 1) % 2 ^ 64⟩
  else ⟨s.state, s.buf ++ [b], (s.totalLen + 1) % 2 ^ 64⟩

def sha256Update (s : Sha256State) (data : List UInt8) : Sha256State := data.foldl updateByte s

/-- The loop of `sha256_final`. -/
def padLoop (state : Words) (buf : List UInt8) : Words × List UInt8 :=
  if buf.length % 64 = 56 then (state, buf)
  else if buf.length = 64 then padLoop (sha256Compress state buf) [0]
  else padLoop state (buf ++ [0])
termination_by (120 - buf.length % 64) % 64
decreasing_by
  all_goals simp
  all_goals omega

def sha256Final (s : Sha256State) : List UInt8 :=
  let bitLen := s.totalLen * 8 % 2 ^ 64
  let p := padLoop s.state (s.buf ++ [0x80])
  (sha256Compress p.1 (p.2.take 56 ++ toBeBytes 8 bitLen)).toBytes

def sha256 (data : List UInt8) : List UInt8 := sha256Final (sha256Update sha256Init data)

/-! ### Compression -/

lemma K_eq_fracRoot : ∀ t < 64, K.getD t 0 = Fips.fracRoot 3 t := by decide +kernel

lemma initial_eq : Fips.initial = sha256Init.state := by decide +kernel

lemma getD_map_range {α : Type*} (f : ℕ → α) (d : α) {n t : ℕ} (ht : t < n) : ((range n).map f).getD t d = f t := by
  simp [getD, ht]

variable {s : Sha256State} {m : List UInt8} (w : Words) (block buf : List UInt8) {n : ℕ}

lemma foldl_extend : (range' 16 n).foldl extend ((range 16).map fun t =>
    .ofNat 32 (fromBeBytes ((block.drop (t * 4)).take 4))) = (range (16 + n)).map (Fips.schedule block) := by
  induction n with
  | zero =>
    refine map_congr_left fun t ht => ?_
    rw [Fips.schedule, if_pos (mem_range.mp ht)]
  | succ n ih =>
    have hget : ∀ i, 0 < i → ((range (16 + n)).map (Fips.schedule block)).getD (16 + n - i) 0 =
        Fips.schedule block (16 + n - i) := fun i hi => getD_map_range _ _ (by omega)
    have hnext := Fips.schedule.eq_1 block (16 + n)
    rw [if_neg (by omega)] at hnext
    rw [range'_1_concat, foldl_append, ih, ← add_assoc, range_succ, map_append, map_singleton, hnext, foldl_cons, foldl_nil,
      extend, hget 2 (by decide), hget 7 (by decide), hget 15 (by decide), hget 16 (by decide)]
    rfl

lemma foldl_round (hn : n ≤ 64) :
    (range n).foldl (round ((range (16 + 48)).map (Fips.schedule block))) w = Fips.working w block n := by
  induction n with
  | zero => rfl
  | succ n ih =>
    rw [range_succ (n := n), foldl_append, ih (by omega), foldl_cons, foldl_nil, round, getD_map_range _ _ hn,
      K_eq_fracRoot n hn]
    rfl

lemma sha256Compress_eq : sha256Compress w block = w.add (Fips.working w block 64) := by
  rw [sha256Compress, foldl_extend, foldl_round w block le_rfl]

/-! ### Blocks -/

variable {block buf}

lemma hash_append (hblock : block.length = 64) (rest : List UInt8) :
    Fips.hash w (block ++ rest) = Fips.hash (sha256Compress w block) rest := by
  rw [Fips.hash, if_pos (by rw [length_append]; omega), take_left' hblock, drop_left' hblock, sha256Compress_eq]

/-- The message `m` has been fed: all of it is hashed but the bytes in the buffer. -/
structure Fed (s : Sha256State) (m : List UInt8) : Prop where
  length_eq : s.buf.length = m.length % 64
  totalLen_eq : s.totalLen = m.length % 2 ^ 64
  hash_eq : ∀ rest, Fips.hash Fips.initial (m ++ rest) = Fips.hash s.state (s.buf ++ rest)

lemma fed_init : Fed sha256Init [] := ⟨rfl, rfl, fun rest => by rw [initial_eq]; rfl⟩

lemma Fed.updateByte (h : Fed s m) (b : UInt8) : Fed (updateByte s b) (m ++ [b]) := by
  obtain ⟨hlen, htotal, hhash⟩ := h
  have hnext : ∀ rest, Fips.hash Fips.initial (m ++ [b] ++ rest) = Fips.hash s.state (s.buf ++ [b] ++ rest) := by
    intro rest
    rw [append_assoc, hhash, append_assoc]
  unfold Sha256.updateByte
  split
  · rename_i hfull
    refine ⟨?_, ?_, fun rest => (hnext rest).trans (hash_append _ (by rwa [length_append]) rest)⟩
    all_goals simp only [length_append, length_nil, length_singleton]
    all_goals omega
  · refine ⟨?_, ?_, hnext⟩
    all_goals simp only [length_append, length_singleton]
    all_goals omega

lemma Fed.update (h : Fed s m) (data : List UInt8) : Fed (sha256Update s data) (m ++ data) := by
  induction data generalizing s m with
  | nil => rwa [append_nil]
  | cons b data ih =>
    rw [append_cons]
    exact ih (h.updateByte b)

lemma padLoop_spec (hlen : buf.length ≤ 64) :
    (padLoop w buf).2.length = 56 ∧ ∀ rest, Fips.hash w (buf ++ (replicate ((120 - buf.length % 64) % 64) 0 ++ rest)) =
      Fips.hash (padLoop w buf).1 ((padLoop w buf).2 ++ rest) := by
  fun_induction padLoop w buf with
  | case1 w buf hstop =>
    rw [hstop]
    exact ⟨show buf.length = 56 by omega, fun _ => rfl⟩
  | case2 w buf hstop hfull ih =>
    refine ⟨(ih (by decide)).1, fun rest => ?_⟩
    rw [← (ih (by decide)).2, hash_append _ hfull, hfull]
    rfl
  | case3 w buf hstop hroom ih =>
    rw [length_append, length_singleton] at ih
    refine ⟨(ih (by omega)).1, fun rest => ?_⟩
    rw [← (ih (by omega)).2, append_assoc, ← append_assoc [0], singleton_append, ← replicate_succ]
    congr 4
    omega

lemma Fed.final (h : Fed s m) (hm : m.length < 2 ^ 61) : sha256Final s = Fips.digest m := by
  obtain ⟨hlen, htotal, hhash⟩ := h
  have hlast : (s.buf ++ [0x80]).length = m.length % 64 + 1 := by rw [length_append, hlen, length_singleton]
  obtain ⟨hlen', hhash'⟩ := padLoop_spec s.state (show (s.buf ++ [0x80]).length ≤ 64 by omega)
  have hzeros : (119 - m.length % 64) % 64 = (120 - (s.buf ++ [0x80]).length % 64) % 64 := by omega
  have hbits : s.totalLen * 8 % 2 ^ 64 = 8 * m.length := by omega
  have hblock : ((padLoop s.state (s.buf ++ [0x80])).2 ++ toBeBytes 8 (8 * m.length)).length = 64 := by
    simp [hlen', toBeBytes]
  have hone := hash_append (padLoop s.state (s.buf ++ [0x80])).1 hblock []
  rw [append_nil, Fips.hash.eq_1 _ [], if_neg (by decide)] at hone
  rw [Fips.digest, Fips.pad, hhash, append_cons, hzeros, hhash', hone, sha256Final, hbits, take_of_length_le hlen'.le]

end OnyxKernel.Sha256
