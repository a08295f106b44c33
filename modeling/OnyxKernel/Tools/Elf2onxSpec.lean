import OnyxKernel.Onx.LoadView
import OnyxKernel.Onx.Codec
import OnyxKernel.Tools.Elf2onx

/-!
# Converting and loading a program

A well-formed ELF file is converted to an executable whose header lists its segments, with the data of
each in the file, compressed where that pays.  Loading it gives the program the memory that the program
headers of the ELF file describe: the bytes of the file, and zeros behind them.
-/

namespace OnyxKernel.Elf2onx

open ByteMemory RunLength Onx Vmm List Nat OnxSegment OnxHeader

variable {elf image : Memory} {len a i : ℕ} {v2 doCompress ring1 : Bool} {p : Phdr} {seg : OnxSegment}
  {entry size o : ℕ} {loads : List LoadInfo}

/-! ### Well-formed files -/

/-- A `PT_LOAD` segment of a file of `len` bytes that can be loaded. -/
structure Phdr.LoadOk (p : Phdr) (len : ℕ) : Prop where
  /-- Readable or executable. -/
  access : p.pFlags &&& 4 ≠ 0 ∨ p.pFlags &&& 1 ≠ 0
  inFile : p.pOffset + p.pFilesz ≤ len
  filesz_le : p.pFilesz ≤ p.pMemsz
  memsz_pos : 0 < p.pMemsz
  base_le : userBase ≤ p.pVaddr
  end_le : p.pVaddr + p.pMemsz ≤ userTop
  /-- Disjoint from the windows of the stack and of the heap. -/
  windows : ∀ x, p.pVaddr ≤ x → x < p.pVaddr + p.pMemsz → x ∉ stackWindow ∧ x ∉ heapWindow

/-- Program header `i`. -/
def phdr (elf : Memory) (i : ℕ) : Phdr := phdrAt elf (phdrOffset elf i)

/-- Is it a `PT_LOAD` program header? -/
def isLoad (elf : Memory) (i : ℕ) : Bool := (phdr elf i).pType = 1

/-- The numbers of the `PT_LOAD` program headers. -/
def loadIndices (elf : Memory) : List ℕ := (range (ePhnum elf)).filter (isLoad elf)

/-- A well-formed file. -/
structure WellFormed (elf : Memory) (len : ℕ) : Prop where
  len_lt : len < wordSize
  header : ElfHeaderOk elf len
  /-- The program headers are in the file. -/
  table : ∀ i < ePhnum elf, ePhoff elf + i * ePhentsize elf + 56 ≤ len
  loads : ∀ i ∈ loadIndices elf, (phdr elf i).LoadOk len
  disjoint : ∀ i ∈ loadIndices elf, ∀ j ∈ loadIndices elf, i ≠ j → ∀ x,
    ¬ ((phdr elf i).pVaddr ≤ x ∧ x < (phdr elf i).pVaddr + (phdr elf i).pMemsz ∧
      (phdr elf j).pVaddr ≤ x ∧ x < (phdr elf j).pVaddr + (phdr elf j).pMemsz)

/-- The bytes of a segment in the file. -/
def rawData (elf : Memory) (p : Phdr) : List UInt8 := slice elf p.pOffset p.pFilesz

lemma WellFormed.sum_memsz_le (h : WellFormed elf len) :
    ((loadIndices elf).map fun i => (phdr elf i).pMemsz).sum ≤ userTop - userBase := by
  have hnodup : (loadIndices elf).Nodup := nodup_range.filter _
  rw [← sum_toFinset _ hnodup]
  let range := fun i => Finset.Ico (phdr elf i).pVaddr ((phdr elf i).pVaddr + (phdr elf i).pMemsz)
  have hcard : ∀ i, (phdr elf i).pMemsz = (range i).card := fun i => by
    rw [Nat.card_Ico, Nat.add_sub_cancel_left]
  have hdisj : ∀ i ∈ (loadIndices elf).toFinset, ∀ j ∈ (loadIndices elf).toFinset, i ≠ j →
      Disjoint (range i) (range j) := by
    intro i hi j hj hne
    refine Finset.disjoint_left.mpr fun x hx hx' => ?_
    rw [Finset.mem_Ico] at hx hx'
    exact h.disjoint i (mem_toFinset.mp hi) j (mem_toFinset.mp hj) hne x
      ⟨hx.1, hx.2, hx'.1, hx'.2⟩
  calc ∑ i ∈ (loadIndices elf).toFinset, (phdr elf i).pMemsz
      = ∑ i ∈ (loadIndices elf).toFinset, (range i).card := Finset.sum_congr rfl fun i _ => hcard i
    _ = ((loadIndices elf).toFinset.biUnion range).card := (Finset.card_biUnion hdisj).symm
    _ ≤ (Finset.Ico userBase userTop).card := by
        refine Finset.card_le_card (Finset.biUnion_subset.mpr fun i hi x hx => ?_)
        have hok := h.loads i (mem_toFinset.mp hi)
        have hlo := hok.base_le
        have hhi := hok.end_le
        rw [Finset.mem_Ico] at hx ⊢
        omega
    _ = userTop - userBase := card_Ico _ _

/-! ### The segments of the executable -/

/-- The segment of a program header, with its data. -/
def info (elf : Memory) (v2 doCompress : Bool) (p : Phdr) : LoadInfo :=
  let raw := rawData elf p
  let x : List UInt8 × ℕ :=
    if (doCompress && v2) = true ∧ (rleLoop raw).length < raw.length then
      (rleLoop raw, (rleLoop raw).length)
    else (raw, 0)
  { seg :=
      { vaddr := p.pVaddr, filesz := p.pFilesz, memsz := p.pMemsz, offset := 0
        flags := segmentFlags p.pFlags, align := p.pAlign % 2 ^ 32, reserved := 0
        compressedSize := x.2 }
    data := x.1 }

lemma length_rawData (p : Phdr) : (rawData elf p).length = p.pFilesz := length_slice _ _ _

lemma Phdr.LoadOk.filesz_lt (h : p.LoadOk len) : p.pFilesz < 2 ^ 31 := by
  have hsize := h.filesz_le
  have hend := h.end_le
  unfold userTop at hend
  omega

lemma segmentData_eq (v2 doCompress : Bool) (raw : List UInt8) (hraw : raw.length < 2 ^ 31) :
    segmentData v2 doCompress raw.length raw = some
      (if (doCompress && v2) = true ∧ (rleLoop raw).length < raw.length then
        (rleLoop raw, (rleLoop raw).length) else (raw, 0)) := by
  have hle := (length_rleLoop_le raw).1
  have hmod : (rleLoop raw).length % 2 ^ 32 = (rleLoop raw).length := mod_eq_of_lt (by omega)
  have hmod' : raw.length % 2 ^ 32 = raw.length := mod_eq_of_lt (by omega)
  unfold segmentData
  rw [rleCompress_eq, Option.map_some, hmod, hmod']
  by_cases hgo : (doCompress && v2) = true
  · by_cases hpos : 0 < raw.length
    · rw [hgo, Bool.true_and, if_pos (decide_eq_true hpos)]
      simp only [true_and]
    · rw [hgo, Bool.true_and, if_neg (by simpa using hpos), if_neg (by omega)]
  · have hoff : ¬ (doCompress && v2 && decide (0 < raw.length)) = true := fun h =>
      hgo (Bool.and_eq_true_iff.mp h).1
    rw [if_neg hoff, if_neg fun h => hgo h.1]

lemma Phdr.LoadOk.loadInfo_eq (h : p.LoadOk len) (hlen : len < wordSize) :
    loadInfo elf len v2 doCompress p = some (info elf v2 doCompress p) := by
  have hfile := h.inFile
  have hadd : wadd p.pOffset p.pFilesz = p.pOffset + p.pFilesz := wadd_of_lt (by omega)
  have hraw : slice elf p.pOffset (p.pOffset + p.pFilesz - p.pOffset) = rawData elf p := by
    rw [Nat.add_sub_cancel_left]
    rfl
  have hdata := segmentData_eq v2 doCompress (rawData elf p)
    (by rw [length_rawData]; exact h.filesz_lt)
  rw [length_rawData] at hdata
  unfold loadInfo
  rw [hadd, min_eq_left hfile, if_neg (by omega), hraw, hdata, Option.map_some, info, length_rawData]

/-- The loop over the program headers collects the `PT_LOAD` segments. -/
theorem WellFormed.loadLoop_eq (h : WellFormed elf len) : ∀ (is : List ℕ) (loads : List LoadInfo),
    (∀ i ∈ is, i < ePhnum elf) →
    loads.length + (is.filter (isLoad elf)).length ≤ maxSegs v2 →
    loadLoop elf len v2 doCompress is loads = some (loads ++
      (is.filter (isLoad elf)).map fun i => info elf v2 doCompress (phdr elf i))
  | [], loads, _, _ => by rw [filter_nil, map_nil, append_nil, loadLoop]
  | i :: is, loads, his, hmax => by
    have hi := his i mem_cons_self
    have htable := h.table i hi
    have hlen := h.len_lt
    have hoff : phdrOffset elf i = ePhoff elf + i * ePhentsize elf := wadd_of_lt (by omega)
    have hin : ¬ len < wadd (phdrOffset elf i) 56 := by
      rw [hoff, wadd_of_lt (by omega)]
      omega
    have hrest : ∀ i ∈ is, i < ePhnum elf := fun j hj => his j (mem_cons_of_mem i hj)
    rw [loadLoop, if_neg hin]
    by_cases hload : isLoad elf i = true
    · have htype : (phdrAt elf (phdrOffset elf i)).pType = 1 := of_decide_eq_true hload
      have hok := h.loads i (mem_filter.mpr ⟨mem_range.mpr hi, hload⟩)
      have hinfo : loadInfo elf len v2 doCompress (phdrAt elf (phdrOffset elf i)) =
          some (info elf v2 doCompress (phdr elf i)) := hok.loadInfo_eq hlen
      rw [filter_cons_of_pos hload, length_cons] at hmax
      rw [if_neg (not_not_intro htype), if_neg (by omega), hinfo, Option.bind_some,
        h.loadLoop_eq is _ hrest (by rw [length_append, length_singleton]; omega),
        filter_cons_of_pos hload, map_cons, append_assoc, singleton_append]
    · have htype : (phdrAt elf (phdrOffset elf i)).pType ≠ 1 := fun htype => hload (decide_eq_true htype)
      rw [filter_cons_of_neg hload] at hmax ⊢
      rw [if_pos htype]
      exact h.loadLoop_eq is loads hrest hmax

/-! ### Reading the executable -/

lemma headerFlags_lt (ring1 anyCompressed : Bool) : headerFlags ring1 anyCompressed < 256 ^ 4 := by
  cases ring1 <;> cases anyCompressed <;> decide

/-- Is a segment compressed? -/
def anyCompressed (loads : List LoadInfo) : Bool := loads.any fun li => 0 < li.seg.compressedSize

/-- The header that `run` writes. -/
def onxHeader (entry : ℕ) (ring1 v2 : Bool) (loads : List LoadInfo) : OnxHeader where
  magic := onxMagic
  version := if v2 then 2 else 1
  entry := entry
  nsegs := loads.length
  flags := headerFlags ring1 (v2 && anyCompressed loads)
  segs := loads.map fun li => li.seg

lemma fromBytes_tableBytes (h : image.Holds 0 (tableBytes entry ring1 v2 loads))
    (hsize : headerSize v2 loads.length ≤ size) (hentry : entry < 256 ^ 8)
    (hmax : loads.length ≤ maxSegs v2) (hfit : ∀ li ∈ loads, li.seg.Fits)
    (hcomp : v2 = false → ∀ li ∈ loads, li.seg.compressedSize = 0) :
    fromBytes image size = some (onxHeader entry ring1 v2 loads) := by
  have hlen : (onxHeader entry ring1 v2 loads).segs.length = loads.length := length_map _
  have hle : maxSegs v2 < 256 ^ 4 := by cases v2 <;> decide
  have hfits : (onxHeader entry ring1 v2 loads).Fits :=
    ⟨hentry, hmax.trans_lt hle, headerFlags_lt _ _, forall_mem_map.mpr hfit⟩
  have hflat : ∀ enc : OnxSegment → List UInt8,
      (onxHeader entry ring1 v2 loads).segs.flatMap enc = loads.flatMap fun li => enc li.seg :=
    fun enc => flatMap_map _ _ _
  cases v2 with
  | true =>
    refine hfits.fromBytes_v2 rfl hlen.symm (hlen.trans_le hmax) ?_ (hlen ▸ hsize)
    rwa [hflat]
  | false =>
    refine hfits.fromBytes_v1 rfl hlen.symm (hlen.trans_le hmax) (forall_mem_map.mpr (hcomp rfl)) ?_ hsize
    rw [hflat]
    unfold tableBytes at h
    rw [if_neg Bool.false_ne_true, ← append_assoc] at h
    exact h.left

/-! ### The data of the executable -/

/-- The segments of the program headers `ps` as they are written, with their bytes, where the data starts
at `o`. -/
def placed (elf : Memory) (v2 doCompress : Bool) : ℕ → List Phdr → List (OnxSegment × List UInt8)
  | _, [] => []
  | o, p :: ps =>
    ({ (info elf v2 doCompress p).seg with offset := o }, rawData elf p) ::
      placed elf v2 doCompress (o + (info elf v2 doCompress p).data.length) ps

/-- The size of the data. -/
def dataSize (elf : Memory) (v2 doCompress : Bool) (ps : List Phdr) : ℕ :=
  (ps.map fun p => (info elf v2 doCompress p).data.length).sum

lemma dataSize_cons (p : Phdr) (ps : List Phdr) : dataSize elf v2 doCompress (p :: ps) =
    (info elf v2 doCompress p).data.length + dataSize elf v2 doCompress ps := sum_cons

lemma length_data_le (elf : Memory) (v2 doCompress : Bool) (p : Phdr) :
    (info elf v2 doCompress p).data.length ≤ p.pFilesz := by
  unfold info
  dsimp only
  split_ifs with h
  · exact h.2.le.trans (length_rawData p).le
  · exact (length_rawData p).le

lemma dataSize_le (ps : List Phdr) (h : ∀ p ∈ ps, p.pFilesz ≤ p.pMemsz) :
    dataSize elf v2 doCompress ps ≤ (ps.map fun p => p.pMemsz).sum :=
  sum_le_sum fun p hp => (length_data_le elf v2 doCompress p).trans (h p hp)

lemma WellFormed.size_lt (h : WellFormed elf len) (doCompress : Bool)
    (hmax : (loadIndices elf).length ≤ maxSegs v2) :
    headerSize v2 (loadIndices elf).length +
      dataSize elf v2 doCompress ((loadIndices elf).map (phdr elf)) < 2 ^ 32 := by
  have hdata : dataSize elf v2 doCompress ((loadIndices elf).map (phdr elf)) ≤ userTop - userBase := by
    refine (dataSize_le _ fun p hp => ?_).trans ?_
    · obtain ⟨i, hi, rfl⟩ := mem_map.mp hp
      exact (h.loads i hi).filesz_le
    · rw [map_map]
      exact h.sum_memsz_le
  have hhead : headerSize v2 (loadIndices elf).length ≤ 2 ^ 16 := by
    cases v2 with
    | true =>
      have hmax' : (loadIndices elf).length ≤ 256 := hmax
      have hsize : headerSize true (loadIndices elf).length = 32 + (loadIndices elf).length * 48 := rfl
      omega
    | false => exact (by decide : 344 ≤ 2 ^ 16)
  unfold userTop userBase at hdata
  omega

lemma length_setOffsets (o : ℕ) (loads : List LoadInfo) : (setOffsets o loads).length = loads.length := by
  fun_induction setOffsets o loads with
  | case1 => rfl
  | case2 o li loads ih => rw [length_cons, ih, length_cons]

lemma flatMap_data_setOffsets (o : ℕ) (loads : List LoadInfo) :
    ((setOffsets o loads).flatMap fun li => li.data) = loads.flatMap fun li => li.data := by
  fun_induction setOffsets o loads with
  | case1 => rfl
  | case2 o li loads ih => rw [flatMap_cons, ih, flatMap_cons]

lemma anyCompressed_setOffsets (o : ℕ) (loads : List LoadInfo) :
    anyCompressed (setOffsets o loads) = anyCompressed loads := by
  unfold anyCompressed
  fun_induction setOffsets o loads with
  | case1 => rfl
  | case2 o li loads ih => rw [any_cons, ih, any_cons]

lemma map_seg_setOffsets : ∀ (ps : List Phdr) (o : ℕ), o + dataSize elf v2 doCompress ps < 2 ^ 32 →
    ((setOffsets o (ps.map (info elf v2 doCompress))).map fun li => li.seg) =
      (placed elf v2 doCompress o ps).map Prod.fst
  | [], _, _ => rfl
  | p :: ps, o, hsize => by
    rw [dataSize_cons] at hsize
    have hmod : (info elf v2 doCompress p).data.length % 2 ^ 32 =
        (info elf v2 doCompress p).data.length := mod_eq_of_lt (by omega)
    have hmin : min (o + (info elf v2 doCompress p).data.length) (2 ^ 32 - 1) =
        o + (info elf v2 doCompress p).data.length := min_eq_left (by omega)
    rw [map_cons, setOffsets, hmod, hmin, map_cons, placed, map_cons, map_seg_setOffsets ps _ (by omega)]

lemma mem_placed : ∀ (ps : List Phdr) (o : ℕ) (x : OnxSegment × List UInt8),
    x ∈ placed elf v2 doCompress o ps →
    image.Holds o (ps.flatMap fun p => (info elf v2 doCompress p).data) →
    ∃ p ∈ ps, ∃ o', x = ({ (info elf v2 doCompress p).seg with offset := o' }, rawData elf p) ∧
      image.Holds o' (info elf v2 doCompress p).data ∧
      o' + (info elf v2 doCompress p).data.length ≤ o + dataSize elf v2 doCompress ps
  | [], _, _, hx, _ => absurd hx not_mem_nil
  | p :: ps, o, x, hx, h => by
    rw [flatMap_cons] at h
    rw [dataSize_cons]
    rcases mem_cons.mp hx with rfl | hx
    · exact ⟨p, mem_cons_self, o, rfl, h.left, by omega⟩
    · obtain ⟨q, hq, o', rfl, hholds, hle⟩ := mem_placed ps _ x hx h.right
      exact ⟨q, mem_cons_of_mem p hq, o', rfl, hholds, by omega⟩

lemma placeAll_placed : ∀ (ps : List Phdr) (o a : ℕ) (v : Option UInt8),
    placeAll (placed elf v2 doCompress o ps) a v =
      placeAll (ps.map fun p => ((info elf v2 doCompress p).seg, rawData elf p)) a v
  | [], _, _, _ => rfl
  | p :: ps, o, a, v => by
    rw [placed, map_cons, placeAll, placeAll, foldl_cons, foldl_cons]
    exact placeAll_placed ps _ a _

lemma pageNeeds_placed : ∀ (ps : List Phdr) (o : ℕ), pageNeeds (placed elf v2 doCompress o ps) =
      (ps.map fun p => 3 * pageCount p.pVaddr (p.pVaddr + p.pMemsz)).sum
  | [], _ => rfl
  | p :: ps, o => by
    rw [placed, pageNeeds, map_cons, map_cons, sum_cons, sum_cons,
      ← pageNeeds_placed ps (o + (info elf v2 doCompress p).data.length)]
    rfl

/-! ### Loading the executable -/

lemma segmentFlags_lt (pFlags : ℕ) : segmentFlags pFlags < 2 ^ 4 := by
  refine or_lt_two_pow (or_lt_two_pow ?_ ?_) ?_
  all_goals split_ifs <;> decide

lemma segmentFlags_and_pteLeaf {pFlags : ℕ} (h : pFlags &&& 4 ≠ 0 ∨ pFlags &&& 1 ≠ 0) :
    segmentFlags pFlags &&& pteLeaf ≠ 0 := by
  unfold segmentFlags
  rw [and_or_distrib_right, and_or_distrib_right]
  intro hzero
  obtain ⟨hrw, hx⟩ := or_eq_zero_iff.mp hzero
  obtain ⟨hr, -⟩ := or_eq_zero_iff.mp hrw
  rcases h with h | h
  · rw [if_pos h] at hr
    exact absurd hr (by decide)
  · rw [if_pos h] at hx
    exact absurd hx (by decide)

lemma info_cases (elf : Memory) (v2 doCompress : Bool) (p : Phdr) :
    ((info elf v2 doCompress p).seg.compressedSize = (rleLoop (rawData elf p)).length ∧
      (info elf v2 doCompress p).data = rleLoop (rawData elf p) ∧
      0 < (info elf v2 doCompress p).seg.compressedSize ∧ v2 = true) ∨
    ((info elf v2 doCompress p).seg.compressedSize = 0 ∧
      (info elf v2 doCompress p).data = rawData elf p) := by
  unfold info
  dsimp only
  split_ifs with h
  · have hne : rawData elf p ≠ [] := fun hnil => by
      rw [hnil] at h
      exact not_lt_zero _ h.2
    exact .inl ⟨rfl, rfl, length_rleLoop_pos hne, (Bool.and_eq_true_iff.mp h.1).2⟩
  · exact .inr ⟨rfl, rfl⟩

lemma Phdr.LoadOk.fits (h : p.LoadOk len) (elf : Memory) (v2 doCompress : Bool) (ho : o < 2 ^ 32) :
    OnxSegment.Fits { (info elf v2 doCompress p).seg with offset := o } := by
  have hfile := h.filesz_lt
  have hend : p.pVaddr + p.pMemsz < 2 ^ 31 := lt_of_le_of_lt h.end_le (by decide)
  have hflags := segmentFlags_lt p.pFlags
  have hsize : (info elf v2 doCompress p).seg.compressedSize < 256 ^ 4 := by
    have hle := length_data_le elf v2 doCompress p
    rcases info_cases elf v2 doCompress p with ⟨hsize, hdata, -, -⟩ | ⟨hsize, -⟩
    · rw [hsize, ← hdata]
      omega
    · rw [hsize]
      decide
  have hwide : ∀ {n : ℕ}, n < 2 ^ 31 → n < 256 ^ 8 := fun hn => hn.trans (by decide)
  have hvaddr : p.pVaddr < 2 ^ 31 := by omega
  have hmemsz : p.pMemsz < 2 ^ 31 := by omega
  have hzero : 0 < 256 ^ 4 := by decide
  exact ⟨hwide hvaddr, hwide hfile, hwide hmemsz, ho, hflags.trans (by decide),
    mod_lt _ (by decide), hzero, hsize⟩

lemma Phdr.LoadOk.loadable (h : p.LoadOk len) {compressed : Bool}
    (hholds : image.Holds o (info elf v2 doCompress p).data)
    (hsize : o + (info elf v2 doCompress p).data.length ≤ size) (ho : o < 2 ^ 32)
    (hcomp : 0 < (info elf v2 doCompress p).seg.compressedSize → compressed = true) :
    Loadable image size compressed { (info elf v2 doCompress p).seg with offset := o }
      (rawData elf p) := by
  have hfit := h.fits elf v2 doCompress ho
  have hpos := h.memsz_pos
  have hend := h.end_le
  refine ⟨⟨hfit.vaddr, hfit.filesz, hfit.memsz, hfit.flags, hfit.offset⟩, h.base_le, ?_, hpos,
    hend.trans (by decide), (segmentFlags_lt _).trans (by decide), segmentFlags_and_pteLeaf h.access,
    h.filesz_le, length_rawData p, ?_⟩
  · exact lt_of_lt_of_le (Nat.lt_add_of_pos_right hpos) hend
  rcases info_cases elf v2 doCompress p with ⟨hcsize, hdata, hcpos, -⟩ | ⟨hcsize, hdata⟩
  · have hon : isCompressed compressed { (info elf v2 doCompress p).seg with offset := o } = true := by
      rw [isCompressed, hcomp hcpos, Bool.true_and]
      exact decide_eq_true hcpos
    obtain ⟨ts, hvalid, henc, hexp⟩ := rleLoop_tokens (rawData elf p)
    rw [hdata] at hholds hsize
    rw [if_pos hon]
    refine ⟨?_, ts, hvalid, ?_, ?_, hexp⟩
    · rwa [hcsize]
    · rw [henc, hcsize]
    · rwa [henc]
  · have hoff : ¬ isCompressed compressed { (info elf v2 doCompress p).seg with offset := o } = true := by
      rw [isCompressed, hcsize]
      simp
    rw [hdata] at hholds hsize
    rw [length_rawData] at hsize
    rw [if_neg hoff]
    exact ⟨hsize, hholds⟩

/-- The number of free pages that is enough for the program. -/
def freeNeed (elf : Memory) : ℕ :=
  (((loadIndices elf).map (phdr elf)).map fun p => 3 * pageCount p.pVaddr (p.pVaddr + p.pMemsz)).sum +
    3 * userStackPages + 3 * userHeapPages + 2

lemma WellFormed.placeAll_eq (h : WellFormed elf len) (hi : i ∈ loadIndices elf)
    (hlo : (phdr elf i).pVaddr ≤ a) (hhi : a < (phdr elf i).pVaddr + (phdr elf i).pMemsz) :
    placeAll (((loadIndices elf).map (phdr elf)).map fun p =>
        ((info elf v2 doCompress p).seg, rawData elf p)) a none =
      if a < (phdr elf i).pVaddr + (phdr elf i).pFilesz then
        some (elf ((phdr elf i).pOffset + (a - (phdr elf i).pVaddr))) else some 0 := by
  obtain ⟨pre, post, hsplit⟩ := append_of_mem hi
  have hnodup : (loadIndices elf).Nodup := nodup_range.filter _
  -- the address is not in the data of another segment
  have hother : ∀ js : List ℕ, (∀ j ∈ js, j ∈ loadIndices elf ∧ j ≠ i) →
      ∀ y ∈ (js.map (phdr elf)).map fun p => ((info elf v2 doCompress p).seg, rawData elf p),
        ¬ (y.1.vaddr ≤ a ∧ a < y.1.vaddr + y.2.length) := by
    intro js hjs y hy hin
    obtain ⟨p, hp, rfl⟩ := mem_map.mp hy
    obtain ⟨j, hj, rfl⟩ := mem_map.mp hp
    obtain ⟨hmem, hne⟩ := hjs j hj
    have hfile := (h.loads j hmem).filesz_le
    obtain ⟨hlo', hhi'⟩ := hin
    rw [length_rawData] at hhi'
    have hhi'' : a < (phdr elf j).pVaddr + (phdr elf j).pFilesz := hhi'
    exact h.disjoint j hmem i hi hne a ⟨hlo', by omega, hlo, hhi⟩
  rw [hsplit, nodup_middle, nodup_cons] at hnodup
  have hrest : ∀ j ∈ pre ++ post, j ∈ loadIndices elf ∧ j ≠ i := fun j hj => by
    refine ⟨?_, fun heq => hnodup.1 (heq ▸ hj)⟩
    rw [hsplit]
    exact perm_middle.mem_iff.mpr (mem_cons_of_mem i hj)
  rw [hsplit, map_append, map_append, map_cons, map_cons,
    placeAll_of_mem (hother pre fun j hj => hrest j (mem_append_left _ hj))
      (hother post fun j hj => hrest j (mem_append_right _ hj)) hlo hhi]
  rw [length_rawData]
  by_cases hdata : a < (phdr elf i).pVaddr + (phdr elf i).pFilesz
  · have hdata' : a < (info elf v2 doCompress (phdr elf i)).seg.vaddr + (phdr elf i).pFilesz := hdata
    have hlt : a - (phdr elf i).pVaddr < (rawData elf (phdr elf i)).length := by
      rw [length_rawData]
      omega
    have hget : (rawData elf (phdr elf i))[a - (phdr elf i).pVaddr]? =
        some (elf ((phdr elf i).pOffset + (a - (phdr elf i).pVaddr))) := by
      rw [getElem?_eq_getElem hlt]
      simp only [rawData, slice, getElem_map, getElem_range]
    rwa [if_pos hdata, if_pos hdata']
  · have hdata' : ¬ a < (info elf v2 doCompress (phdr elf i)).seg.vaddr + (phdr elf i).pFilesz := hdata
    rw [if_neg hdata, if_neg hdata']

lemma length_tableBytes (hmax : loads.length ≤ maxSegs v2) :
    (tableBytes entry ring1 v2 loads).length = headerSize v2 loads.length := by
  have hflat : ∀ (enc : OnxSegment → List UInt8) (w : ℕ), (∀ seg, (enc seg).length = w) →
      (loads.flatMap fun li => enc li.seg).length = loads.length * w := fun enc w hw => by
    rw [← flatMap_map, length_flatMap_of_length hw, length_map]
  have hhead : ∀ version nsegs flags, (headerBytes version entry nsegs flags).length = 24 := fun _ _ _ => rfl
  cases v2 with
  | true =>
    simp only [tableBytes, headerSize, if_true, length_append, hhead, length_replicate,
      hflat toBytesV2 _ length_toBytesV2, v2HeaderSize]
    omega
  | false =>
    have hmax' : loads.length ≤ 8 := hmax
    simp only [tableBytes, headerSize, Bool.false_eq_true, if_false, length_append, hhead, length_replicate,
      hflat toBytesV1 _ length_toBytesV1, v1HeaderSize, sizeV1]
    omega

lemma headerFlags_compressed (ring1 c : Bool) :
    decide (headerFlags ring1 c &&& onxFlagsCompressed ≠ 0) = c := by
  cases ring1 <;> cases c <;> decide

lemma Phdr.LoadOk.pageFloor_notMem (h : p.LoadOk len) (hlo : p.pVaddr ≤ a)
    (hhi : a < p.pVaddr + p.pMemsz) : pageFloor a ∉ stackWindow ∧ pageFloor a ∉ heapWindow := by
  obtain ⟨hstack, hheap⟩ := h.windows a hlo hhi
  constructor
  · rintro ⟨hge, hlt⟩
    refine hstack ⟨hge.trans (pageFloor_le a), ?_⟩
    unfold pageFloor pageSize userTop at *
    omega
  · rintro ⟨hge, hlt⟩
    refine hheap ⟨hge.trans (pageFloor_le a), ?_⟩
    unfold pageFloor pageSize userHeapBase userHeapPages at *
    omega

lemma WellFormed.run_eq (h : WellFormed elf len) (ring1 doCompress : Bool)
    (hmax : (loadIndices elf).length ≤ maxSegs v2) :
    ∃ out, run elf len ring1 v2 doCompress = some out ∧ ∀ image : Memory, image.Holds 0 out →
      ∃ hdr o, fromBytes image out.length = some hdr ∧ hdr.entry = eEntry elf ∧
        hdr.segs = (placed elf v2 doCompress o ((loadIndices elf).map (phdr elf))).map Prod.fst ∧
        ∀ x ∈ placed elf v2 doCompress o ((loadIndices elf).map (phdr elf)),
          Loadable image out.length (decide (hdr.flags &&& onxFlagsCompressed ≠ 0)) x.1 x.2 := by
  set ps := (loadIndices elf).map (phdr elf) with hps
  have hok : ∀ p ∈ ps, p.LoadOk len := fun p hp => by
    obtain ⟨i, hi, rfl⟩ := mem_map.mp hp
    exact h.loads i hi
  have hlen : ps.length = (loadIndices elf).length := length_map _
  set o := headerSize v2 ps.length with ho
  have htotal : o + dataSize elf v2 doCompress ps < 2 ^ 32 := by
    rw [ho, hlen]
    exact h.size_lt doCompress hmax
  set loads := setOffsets o (ps.map (info elf v2 doCompress)) with hloads
  have hloads_len : loads.length = ps.length := (length_setOffsets _ _).trans (length_map _)
  have hmax' : loads.length ≤ maxSegs v2 := by rwa [hloads_len, hlen]
  set out := tableBytes (eEntry elf) ring1 v2 loads ++ loads.flatMap fun li => li.data with hout
  have hrun : run elf len ring1 v2 doCompress = some out := by
    have hloop : loadLoop elf len v2 doCompress (range (ePhnum elf)) [] = _ :=
      h.loadLoop_eq _ [] (fun i hi => mem_range.mp hi) ((zero_add _).trans_le hmax)
    have hmap : ((range (ePhnum elf)).filter (isLoad elf)).map
        (fun i => info elf v2 doCompress (phdr elf i)) = ps.map (info elf v2 doCompress) := by
      rw [hps, map_map]
      rfl
    rw [nil_append, hmap] at hloop
    unfold run
    rw [if_pos h.header, hloop, Option.map_some]
    rw [length_map]
  have hsize : out.length = o + dataSize elf v2 doCompress ps := by
    rw [hout, length_append, length_tableBytes hmax', hloads_len, hloads, flatMap_data_setOffsets,
      flatMap_map, length_flatMap]
    rfl
  have hsegs : (loads.map fun li => li.seg) = (placed elf v2 doCompress o ps).map Prod.fst :=
    map_seg_setOffsets ps o htotal
  refine ⟨out, hrun, fun image himage => ?_⟩
  have hbytes := himage.right
  rw [length_tableBytes hmax', hloads_len, zero_add, hloads, flatMap_data_setOffsets, flatMap_map] at hbytes
  have hplaced : ∀ x ∈ placed elf v2 doCompress o ps, ∃ p ∈ ps, ∃ o',
      x = ({ (info elf v2 doCompress p).seg with offset := o' }, rawData elf p) ∧
        image.Holds o' (info elf v2 doCompress p).data ∧
        o' + (info elf v2 doCompress p).data.length ≤ out.length := fun x hx => by
    rw [hsize]
    exact mem_placed ps o x hx hbytes
  have hseg : ∀ li ∈ loads, ∃ p ∈ ps, ∃ o' < 2 ^ 32,
      li.seg = { (info elf v2 doCompress p).seg with offset := o' } := fun li hli => by
    have hmem : li.seg ∈ (placed elf v2 doCompress o ps).map Prod.fst :=
      hsegs ▸ mem_map.mpr ⟨li, hli, rfl⟩
    obtain ⟨x, hx, hxli⟩ := mem_map.mp hmem
    obtain ⟨p, hp, o', rfl, -, hle⟩ := hplaced x hx
    exact ⟨p, hp, o', by omega, hxli.symm⟩
  have hhdr : fromBytes image out.length = some (onxHeader (eEntry elf) ring1 v2 loads) := by
    refine fromBytes_tableBytes himage.left ?_ (Memory.load_lt _ _ _) hmax' (fun li hli => ?_)
      (fun hv1 li hli => ?_)
    · rw [hsize, hloads_len]
      exact le_add_right _ _
    · obtain ⟨p, hp, o', ho', heq⟩ := hseg li hli
      rw [heq]
      exact (hok p hp).fits elf v2 doCompress ho'
    · obtain ⟨p, hp, o', ho', heq⟩ := hseg li hli
      rw [heq]
      rcases info_cases elf v2 doCompress p with ⟨-, -, -, hv2⟩ | ⟨hzero, -⟩
      · exact absurd (hv1.symm.trans hv2) Bool.false_ne_true
      · exact hzero
  refine ⟨_, o, hhdr, rfl, hsegs, fun x hx => ?_⟩
  obtain ⟨p, hp, o', rfl, hholds, hle⟩ := hplaced x hx
  refine (hok p hp).loadable hholds hle (by omega) fun hpos => ?_
  -- a compressed segment sets the flag in the header
  rw [onxHeader, headerFlags_compressed, Bool.and_eq_true]
  rcases info_cases elf v2 doCompress p with ⟨-, -, -, hv2⟩ | ⟨hzero, -⟩
  · refine ⟨hv2, ?_⟩
    rw [hloads, anyCompressed_setOffsets]
    exact any_eq_true.mpr ⟨_, mem_map_of_mem hp, decide_eq_true hpos⟩
  · exact absurd hzero hpos.ne'

/-- Converting a well-formed ELF file and loading the result, in the first version, in the second version
and compressed: the program starts at its entry point and finds the memory it describes. -/
theorem load_run (h : WellFormed elf len) (ring1 doCompress : Bool)
    (hmax : (loadIndices elf).length ≤ maxSegs v2) :
    ∃ out, run elf len ring1 v2 doCompress = some out ∧
      ∀ image, image.Holds 0 out → ∀ s, Pmm.Valid s → Pmm.Physical s →
        freeNeed elf ≤ s.pmm.freePages →
        ∃ r l, load image out.length (.start s) = .ok r l ∧ r.entry = eEntry elf ∧
          ∀ i ∈ loadIndices elf,
            (∀ k < (phdr elf i).pFilesz, view l.mm.mem r.rootPa ((phdr elf i).pVaddr + k) =
              some (elf ((phdr elf i).pOffset + k))) ∧
            ∀ k, (phdr elf i).pFilesz ≤ k → k < (phdr elf i).pMemsz →
              view l.mm.mem r.rootPa ((phdr elf i).pVaddr + k) = some 0 := by
  obtain ⟨out, hrun, hout⟩ := h.run_eq ring1 doCompress hmax
  refine ⟨out, hrun, fun image himage s hv hphys hfree => ?_⟩
  obtain ⟨hdr, o, hhdr, hentry, hsegs, hloadable⟩ := hout image himage
  have hneed : loadNeed (placed elf v2 doCompress o ((loadIndices elf).map (phdr elf))) ≤
      s.pmm.freePages := by
    rwa [loadNeed, pageNeeds_placed]
  obtain ⟨r, l, data, hok, hent, -, hview⟩ := load_loaded hv hphys hhdr hsegs hloadable hneed
  refine ⟨r, l, hok, hent.trans hentry, fun i hi => ?_⟩
  have hi' := h.loads i hi
  have hend := hi'.end_le
  -- what the program sees at an address of the segment
  have hmem : ∀ k < (phdr elf i).pMemsz, view l.mm.mem r.rootPa ((phdr elf i).pVaddr + k) =
      if k < (phdr elf i).pFilesz then some (elf ((phdr elf i).pOffset + k)) else some 0 := by
    intro k hk
    have hlo : (phdr elf i).pVaddr ≤ (phdr elf i).pVaddr + k := Nat.le_add_right _ _
    have hhi := Nat.add_lt_add_left hk (phdr elf i).pVaddr
    obtain ⟨hstack, hheap⟩ := hi'.pageFloor_notMem hlo hhi
    have hlt : (phdr elf i).pVaddr + k < 2 ^ 39 := hhi.trans (lt_of_le_of_lt hend (by decide))
    rw [(hview _ hlt hstack hheap).1, placeAll_placed, h.placeAll_eq hi hlo hhi, Nat.add_sub_cancel_left]
    exact if_congr Nat.add_lt_add_iff_left rfl rfl
  refine ⟨fun k hk => ?_, fun k hk hk' => ?_⟩
  · rw [hmem k (hk.trans_le hi'.filesz_le), if_pos hk]
  · rw [hmem k hk', if_neg (not_lt.mpr hk)]

/-- A file with one segment: three bytes of data and five zeros, at the beginning of the user's part. -/
def tinyElf : Memory := fun i =>
  ([0x7f, 0x45, 0x4c, 0x46, 2, 1] ++ replicate 10 0 ++ leBytes 2 2 ++ leBytes 2 243 ++
    leBytes 4 1 ++ leBytes 8 0x10000 ++ leBytes 8 64 ++ replicate 14 0 ++ leBytes 2 56 ++
    leBytes 2 1 ++ replicate 6 0 ++
    leBytes 4 1 ++ leBytes 4 5 ++ leBytes 8 120 ++ leBytes 8 0x10000 ++ leBytes 8 0 ++ leBytes 8 3 ++
    leBytes 8 8 ++ leBytes 8 4096 ++ [1, 2, 3]).getD i 0

lemma loadIndices_tinyElf : loadIndices tinyElf = [0] := by decide +kernel

lemma phdr_tinyElf : phdr tinyElf 0 = ⟨1, 5, 120, 0x10000, 3, 8, 4096⟩ := by decide +kernel

lemma tinyElf_wellFormed : WellFormed tinyElf 123 where
  len_lt := by decide
  header := by decide +kernel
  table := by decide +kernel
  loads i hi := by
    rw [loadIndices_tinyElf] at hi
    rw [mem_singleton.mp hi, phdr_tinyElf]
    refine ⟨by decide, by decide, by decide, by decide, by decide, by decide, fun x hlo hhi => ?_⟩
    exact ⟨fun h => absurd (h.1.trans_lt hhi) (by decide), fun h => absurd (h.1.trans_lt hhi) (by decide)⟩
  disjoint i hi j hj hne := by
    rw [loadIndices_tinyElf] at hi hj
    exact absurd ((mem_singleton.mp hi).trans (mem_singleton.mp hj).symm) hne

theorem load_run_tinyElf : ∃ out, run tinyElf 123 false true true = some out ∧
    ∀ image, image.Holds 0 out → ∃ r l, load image out.length (.start freshMm) = .ok r l ∧
      r.entry = 0x10000 ∧ view l.mm.mem r.rootPa 0x10001 = some 2 ∧
      view l.mm.mem r.rootPa 0x10005 = some 0 := by
  have hmax : (loadIndices tinyElf).length ≤ maxSegs true := by
    rw [loadIndices_tinyElf]
    decide
  obtain ⟨out, hrun, hload⟩ := load_run tinyElf_wellFormed false true hmax
  refine ⟨out, hrun, fun image himage => ?_⟩
  have hneed : freeNeed tinyElf ≤ freshMm.pmm.freePages := by
    rw [freeNeed, loadIndices_tinyElf, map_cons, phdr_tinyElf]
    decide
  obtain ⟨r, l, hok, hentry, hview⟩ := hload image himage freshMm freshMm_valid freshMm_physical hneed
  obtain ⟨hdata, hzero⟩ := hview 0 (by rw [loadIndices_tinyElf]; exact mem_singleton_self 0)
  rw [phdr_tinyElf] at hdata hzero
  refine ⟨r, l, hok, hentry.trans (by decide +kernel), (hdata 1 (by decide)).trans (by decide +kernel),
    hzero 5 (by decide) (by decide)⟩

end OnyxKernel.Elf2onx
