import OnyxKernel.Onx.Header
import OnyxKernel.Fs.Snapshot

/-!
# The parsers on slices of any length

The parsers of `core/src/formats` check the length of their slice once and then index it.  Here each
of them is given a slice of any length: an index beyond its end is a panic, the outer `none`, and a
slice that is not accepted is the inner one.
-/

namespace OnyxKernel.Parsers

open ByteMemory Onx List OnxSegment OnxHeader Nat

/-- The memory that a slice begins. -/
def sliceMem (buf : List UInt8) : Memory := fun i => buf.getD i 0

variable {α : Type} {buf : List UInt8} {rs : List (ℕ × ℕ)} {k : Option (Option α)}

/-- The slices `&buf[a..b]` are taken, and the parser goes on. -/
def slices (buf : List UInt8) (rs : List (ℕ × ℕ)) (k : Option (Option α)) : Option (Option α) :=
  if ∀ r ∈ rs, r.1 ≤ r.2 ∧ r.2 ≤ buf.length then k else none

lemma slices_eq {n : ℕ} (hn : n ≤ buf.length) (hrs : ∀ r ∈ rs, r.1 ≤ r.2 ∧ r.2 ≤ n) : slices buf rs k = k :=
  if_pos fun r hr => ⟨(hrs r hr).1, (hrs r hr).2.trans hn⟩

lemma slices_eq_none {a b : ℕ} (hb : buf.length < b) : slices buf [(a, b)] k = none :=
  if_neg fun h => absurd (h _ (mem_singleton.mpr rfl)).2 hb.not_ge

/-- A parser that checks the size of a record and then takes the slices of its fields. -/
def record (size : ℕ) (rs : List (ℕ × ℕ)) (value : Memory → α) (buf : List UInt8) : Option (Option α) :=
  if buf.length < size then some none else slices buf rs (some (some (value (sliceMem buf))))

lemma record_ne_none {size : ℕ} (hrs : ∀ r ∈ rs, r.1 ≤ r.2 ∧ r.2 ≤ size) (value : Memory → α) (buf : List UInt8) :
    record size rs value buf ≠ none := by
  unfold record
  split
  · exact Option.some_ne_none _
  · rename_i hlen
    rw [slices_eq (not_lt.mp hlen) hrs]
    exact Option.some_ne_none _

/-! ### The records of OnyxFS -/

def inodeFromBytes : List UInt8 → Option (Option OnyfsInode) :=
  record 128 ((range 10).map (fun i => (16 + i * 4, 16 + (i + 1) * 4)) ++ [(0, 4), (8, 16), (56, 60), (60, 64),
    (64, 68), (96, 100), (100, 104), (104, 112), (112, 120), (120, 128), (68, 72), (72, 76)]) OnyfsInode.fromBytes

def direntFromBytes : List UInt8 → Option (Option OnyfsDirent) :=
  record OnyfsDirent.byteSize [(0, onyfsNameMax), (32, 36), (36, 37), (37, 38), (38, 39), (39, 40)]
    OnyfsDirent.fromBytes

def snapshotMetaFromBytes : List UInt8 → Option (Option Onyxfs.SnapshotMeta) :=
  record Onyxfs.SnapshotMeta.byteSize [(16, 48), (0, 4), (4, 12), (12, 16), (48, 52), (52, 56), (56, 60)] fun buf =>
    { id := buf.load 0 4, timestamp := buf.load 4 8, rootInodeSnapshot := buf.load 12 4
      blockCount := buf.load 48 4, name := (range 32).map fun i => buf (16 + i)
      parentId := buf.load 52 4, flags := buf.load 56 4 }

def superFromBytes (buf : List UInt8) : Option (Option OnyfsSuper) :=
  if buf.length < OnyfsSuper.byteSize then some none
  else slices buf [(0, 4)] <|
    match OnyfsSuper.fromBytes (sliceMem buf) with
    | none => some none
    | some sb =>
      slices buf ((range 13).map (fun i => (4 + i * 4, 8 + i * 4)) ++ [(56, 64), (64, 72)]) (some (some sb))

lemma superFromBytes_ne_none (buf : List UInt8) : superFromBytes buf ≠ none := by
  unfold superFromBytes
  split
  · exact Option.some_ne_none _
  · rename_i hlen
    rw [slices_eq (not_lt.mp hlen) (by decide)]
    split
    · exact Option.some_ne_none _
    · rw [slices_eq (not_lt.mp hlen) (by decide)]
      exact Option.some_ne_none _

/-! ### Executables -/

/-- The slices that both versions of a segment have. -/
def segmentSlices : List (ℕ × ℕ) := [(0, 8), (8, 16), (16, 24), (24, 28), (28, 32), (32, 36), (36, 40)]

def segmentFromBytesV1 : List UInt8 → Option (Option OnxSegment) :=
  record sizeV1 segmentSlices (fromBytesV1 · 0)

def segmentFromBytesV2 : List UInt8 → Option (Option OnxSegment) :=
  record sizeV2 (segmentSlices ++ [(40, 44)]) (fromBytesV2 · 0)

/-- The loop over the table of `n` segments from `start` on: each is sliced out of the image, and parsed. -/
def tableFromBytes (parse : List UInt8 → Option (Option OnxSegment)) (start size n : ℕ) (buf : List UInt8)
    (hdr : OnxHeader) : Option (Option OnxHeader) :=
  slices buf ((range n).map fun i => (start + i * size, start + i * size + size)) <|
    if ∀ i < n, parse ((buf.drop (start + i * size)).take size) ≠ none then some (some hdr) else none

lemma tableFromBytes_ne_none {parse : List UInt8 → Option (Option OnxSegment)} {start size n : ℕ} {hdr : OnxHeader}
    (hparse : ∀ b, parse b ≠ none) (hlen : start + n * size ≤ buf.length) :
    tableFromBytes parse start size n buf hdr ≠ none := by
  rw [tableFromBytes, slices_eq hlen, if_pos fun i _ => hparse _]
  · exact Option.some_ne_none _
  · simp only [mem_map, mem_range]
    rintro _ ⟨i, hi, rfl⟩
    have hend : (i + 1) * size ≤ n * size := mul_le_mul_right size hi
    rw [succ_mul] at hend
    exact ⟨le_add_right _ _, by omega⟩

def headerFromBytes (buf : List UInt8) : Option (Option OnxHeader) :=
  if buf.length < 24 then some none
  else slices buf [(0, 4)] <|
    if (sliceMem buf).load 0 4 ≠ onxMagic then some none
    else slices buf [(4, 8), (8, 16), (16, 20), (20, 24)] <|
      match fromBytes (sliceMem buf) buf.length with
      | none => some none
      | some hdr =>
        if hdr.version = 1 then tableFromBytes segmentFromBytesV1 24 sizeV1 hdr.nsegs buf hdr
        else tableFromBytes segmentFromBytesV2 v2HeaderSize sizeV2 hdr.nsegs buf hdr

lemma headerFromBytes_ne_none (buf : List UInt8) : headerFromBytes buf ≠ none := by
  unfold headerFromBytes
  by_cases hlen : buf.length < 24
  · rw [if_pos hlen]
    exact Option.some_ne_none _
  rw [if_neg hlen, slices_eq (not_lt.mp hlen) (by decide), slices_eq (not_lt.mp hlen) (by decide)]
  split
  · exact Option.some_ne_none _
  cases hhdr : fromBytes (sliceMem buf) buf.length with
  | none => exact Option.some_ne_none _
  | some hdr =>
    -- the two versions check the length that their tables need
    unfold fromBytes v1HeaderSize at hhdr
    dsimp only at hhdr ⊢
    split_ifs at hhdr with hv1 hsize hmax hv2 _ _ htable <;> cases hhdr
    · rw [if_pos hv1]
      have htable : 24 + (sliceMem buf).load 16 4 * 40 ≤ buf.length := by omega
      exact tableFromBytes_ne_none (record_ne_none (by decide) _) htable
    · rw [if_neg hv1]
      exact tableFromBytes_ne_none (record_ne_none (by decide) _) (not_lt.mp htable)

/-! ### The boot sector of FAT32 -/

structure Fat32Bpb where
  bytesPerSector : ℕ
  sectorsPerCluster : ℕ
  reservedSectors : ℕ
  numFats : ℕ
  fatSize : ℕ
  rootCluster : ℕ

/-- `Fat32Bpb::from_bytes`, which asks for 90 bytes and reads the signature at 510. -/
def bpbFromBytes (buf : List UInt8) : Option (Option Fat32Bpb) :=
  let m := sliceMem buf
  if buf.length < 90 then some none
  else slices buf [(510, 511)] <|
    if m 510 ≠ 0x55 then some none
    else slices buf [(511, 512)] <|
      if m 511 ≠ 0xAA then some none
      else slices buf [(11, 13), (13, 14)] <|
        let spc := m 13
        if m.load 11 2 ≠ 512 then some none
        else if spc = 0 ∨ spc &&& (spc - 1) ≠ 0 then some none
        else slices buf [(22, 24), (36, 40), (14, 16), (16, 17), (44, 48)] <| some <| some
          { bytesPerSector := m.load 11 2
            sectorsPerCluster := spc.toNat
            reservedSectors := m.load 14 2
            numFats := (m 16).toNat
            fatSize := if m.load 22 2 = 0 then m.load 36 4 else m.load 22 2
            rootCluster := m.load 44 4 }

lemma bpbFromBytes_ne_none_iff (buf : List UInt8) : bpbFromBytes buf ≠ none ↔
    buf.length < 90 ∨ 512 ≤ buf.length ∨ buf.length = 511 ∧ buf.getD 510 0 ≠ 0x55 := by
  unfold bpbFromBytes
  dsimp only
  by_cases hsmall : buf.length < 90
  · simp [hsmall]
  rw [if_neg hsmall]
  rcases lt_trichotomy buf.length 511 with hlen | hlen | hlen
  · rw [slices_eq_none (by omega)]
    simp
    omega
  · rw [slices_eq hlen.ge (by decide), slices_eq_none (by omega), sliceMem]
    simp [hlen]
  · rw [slices_eq hlen (by decide), slices_eq hlen (by decide), slices_eq hlen (by decide), slices_eq hlen (by decide)]
    refine iff_of_true ?_ (.inr (.inl hlen))
    split_ifs <;> exact Option.some_ne_none _

/-! ### All of them -/

/-- No parser panics on the slice. -/
def Total (buf : List UInt8) : Prop :=
  headerFromBytes buf ≠ none ∧ segmentFromBytesV1 buf ≠ none ∧ segmentFromBytesV2 buf ≠ none ∧
    superFromBytes buf ≠ none ∧ inodeFromBytes buf ≠ none ∧ direntFromBytes buf ≠ none ∧
      snapshotMetaFromBytes buf ≠ none ∧ bpbFromBytes buf ≠ none

/-- The parsers return on every slice but those that are too short for the signature of a boot sector and long enough
for the check that `Fat32Bpb::from_bytes` makes. -/
theorem total_iff (buf : List UInt8) : Total buf ↔
    buf.length < 90 ∨ 512 ≤ buf.length ∨ buf.length = 511 ∧ buf.getD 510 0 ≠ 0x55 := by
  rw [← bpbFromBytes_ne_none_iff]
  refine ⟨fun h => h.2.2.2.2.2.2.2, fun h => ⟨headerFromBytes_ne_none buf, ?_, ?_, superFromBytes_ne_none buf, ?_, ?_, ?_, h⟩⟩
  all_goals exact record_ne_none (by decide) _ buf

/-- A slice of 90 bytes passes the check, and the signature is not in it. -/
theorem not_total_ninety : ¬Total (replicate 90 0) := by
  intro h
  exact absurd h.2.2.2.2.2.2.2 (by decide)

end OnyxKernel.Parsers
