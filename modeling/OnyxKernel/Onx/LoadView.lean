import OnyxKernel.Foundation.RunLength
import OnyxKernel.Mm.PageTableDestroy
import OnyxKernel.Onx.LoadSpec

/-!
# What a program finds in its memory

A segment that has its data in the image, and is mapped with ordinary flags, is loaded if there are free
pages: afterwards the program sees the data where the segment puts it, zeros in the rest of the pages
that were new, and everything else as before (`place`).  From the segments one after the other follows
what a program sees behind `load`.
-/

namespace OnyxKernel.Onx

open ByteMemory RadixTree RunLength KResult List Nat Memory Token Option

open Vmm

variable {s0 : Mm} {rootPa va flags stop f : ℕ} {l l' l1 : Loader} {data data' : Multiset ℕ}
  {bytes : List UInt8} {image : Memory} {imageSize : ℕ} {compressed : Bool} {seg : OnxSegment}
  {hdr : OnxHeader} {s s1 : Mm} {a vaddr memsz : ℕ}

/-! ### Segments -/

namespace OnxSegment

/-- The fields have the widths of the format. -/
structure Wide (seg : OnxSegment) : Prop where
  vaddr_lt : seg.vaddr < wordSize
  filesz_lt : seg.filesz < wordSize
  memsz_lt : seg.memsz < wordSize
  flags_lt : seg.flags < 2 ^ 32
  offset_lt : seg.offset < 2 ^ 32

/-- The segment has pages: it is not empty, and its end does not wrap. -/
def Maps (seg : OnxSegment) : Prop := 0 < seg.memsz ∧ seg.vaddr + seg.memsz < wordSize

/-- The entries of the segment are leaves. -/
def IsLeaf (seg : OnxSegment) : Prop := seg.flags &&& pteLeaf ≠ 0

lemma wadd_of_maps (hm : seg.Maps) : wadd seg.vaddr seg.memsz = seg.vaddr + seg.memsz :=
  wadd_of_lt hm.2

end OnxSegment

lemma wide_of_fromBytes (hhdr : OnxHeader.fromBytes image imageSize = some hdr) :
    ∀ seg ∈ hdr.segs, seg.Wide := by
  have hwide : ∀ off, (OnxSegment.fromBytesV1 image off).Wide := fun off =>
    ⟨load_lt _ _ _, load_lt _ _ _, load_lt _ _ _, load_lt _ _ _, load_lt _ _ _⟩
  unfold OnxHeader.fromBytes at hhdr
  dsimp only at hhdr
  split_ifs at hhdr
  all_goals
    cases hhdr
    intro seg hseg
    obtain ⟨i, -, rfl⟩ := mem_map.mp hseg
    exact ⟨(hwide _).vaddr_lt, (hwide _).filesz_lt, (hwide _).memsz_lt, (hwide _).flags_lt,
      (hwide _).offset_lt⟩

/-- The flags of the entries of a segment. -/
def segFlags (seg : OnxSegment) : ℕ := seg.flags ||| pteU ||| pteA ||| pteD

lemma segFlags_lt {n : ℕ} (hn : 8 ≤ n) (h : seg.flags < 2 ^ n) : segFlags seg < 2 ^ n := by
  have hlt : 2 ^ 8 ≤ 2 ^ n := Nat.pow_le_pow_right (by decide) hn
  exact or_lt_two_pow (or_lt_two_pow (or_lt_two_pow h (lt_of_lt_of_le (by decide) hlt))
    (lt_of_lt_of_le (by decide) hlt)) (lt_of_lt_of_le (by decide) hlt)

lemma segFlags_and_pteLeaf (seg : OnxSegment) : segFlags seg &&& pteLeaf = seg.flags &&& pteLeaf := by
  have hU : pteU &&& pteLeaf = 0 := by decide
  have hA : pteA &&& pteLeaf = 0 := by decide
  have hD : pteD &&& pteLeaf = 0 := by decide
  unfold segFlags
  rw [and_or_distrib_right, and_or_distrib_right, and_or_distrib_right, hU, hA, hD, or_zero, or_zero, or_zero]

lemma segFlags_and_pteU (seg : OnxSegment) : segFlags seg &&& pteU ≠ 0 := by
  unfold segFlags
  rw [and_or_distrib_right, and_or_distrib_right, and_or_distrib_right]
  intro hzero
  exact absurd (or_eq_zero_iff.mp (or_eq_zero_iff.mp (or_eq_zero_iff.mp hzero).1).1).2
    (by decide)

lemma segFlags_userFlags (hw : seg.Wide) (h : seg.IsLeaf → seg.flags < 2 ^ 10) :
    UserFlags (segFlags seg) where
  fits := (segFlags_lt (by decide : 8 ≤ 32) hw.flags_lt).trans (by decide)
  lt hleaf := by
    rw [segFlags_and_pteLeaf] at hleaf
    exact segFlags_lt (by decide : 8 ≤ 10) (h hleaf)
  user := segFlags_and_pteU seg

lemma pageCount_lt_pageTurns (hstop : stop + pageSize ≤ wordSize) (va : ℕ) :
    pageCount va stop < pageTurns := by
  unfold pageCount pageTurns wordSize pageSize at *
  split_ifs
  · omega
  · omega

/-! ### The frame of `load` -/

lemma load_ok {r : OnxLoadResult} (hok : load image imageSize (.start s) = .ok r l') :
    ∃ hdr s1 l1 l2, OnxHeader.fromBytes image imageSize = some hdr ∧
      newRoot s = .ok r.rootPa s1 ∧
      loadSegments r.rootPa image imageSize (decide (hdr.flags &&& onxFlagsCompressed ≠ 0)) hdr.segs
        (.start (identityLeaves r.rootPa s1)) = .ok () l1 ∧
      mapNewPages r.rootPa userStackPages (userTop - userStackPages * pageSize) l1 = .ok () l2 ∧
      mapNewPages r.rootPa userHeapPages userHeapBase l2 = .ok () l' := by
  unfold load at hok
  split_ifs at hok
  · cases hok
  cases hhdr : OnxHeader.fromBytes image imageSize with
  | none =>
    rw [hhdr] at hok
    cases hok
  | some hdr =>
    rw [hhdr] at hok
    obtain ⟨rootPa, l0, hroot, hok⟩ := bind_eq_ok_iff.mp hok
    cases hnew : newRoot s with
    | error e s1 =>
      have hroot' : onMm newRoot (.start s) = .error (.err e) (.start s1) := onMm_of_error hnew
      cases hroot.symm.trans hroot'
    | ok pa s1 =>
      have hroot' : onMm newRoot (.start s) = .ok pa (.start s1) := onMm_of_ok hnew
      cases hroot.symm.trans hroot'
      obtain ⟨u0, l1, hid, hok⟩ := bind_eq_ok_iff.mp hok
      have hid' : onMm (modify (identityLeaves rootPa)) (.start s1) =
          .ok () (.start (identityLeaves rootPa s1)) := rfl
      cases hid.symm.trans hid'
      obtain ⟨u1, l2, hsegs, hok⟩ := bind_eq_ok_iff.mp hok
      obtain ⟨u2, l3, hstack, hok⟩ := bind_eq_ok_iff.mp hok
      obtain ⟨u3, l4, hheap, hok⟩ := bind_eq_ok_iff.mp hok
      cases hok
      exact ⟨hdr, s1, l2, l3, rfl, rfl, hsegs, hstack, hheap⟩

lemma load_of_steps {l2 : Loader}
    (hhdr : OnxHeader.fromBytes image imageSize = some hdr) (hroot : newRoot s = .ok rootPa s1)
    (hsegs : loadSegments rootPa image imageSize (decide (hdr.flags &&& onxFlagsCompressed ≠ 0))
      hdr.segs (.start (identityLeaves rootPa s1)) = .ok () l1)
    (hstack : mapNewPages rootPa userStackPages (userTop - userStackPages * pageSize) l1 = .ok () l2)
    (hheap : mapNewPages rootPa userHeapPages userHeapBase l2 = .ok () l') :
    load image imageSize (.start s) = .ok ⟨hdr.entry, rootPa, userTop - 16, userHeapBase,
      if hdr.flags &&& onxFlagsRing1 ≠ 0 then 1 else 2⟩ l' := by
  have hsize : ¬ imageSize < 24 := fun hlt => by
    rw [OnxHeader.fromBytes, if_pos hlt] at hhdr
    cases hhdr
  have hnew : onMm newRoot (.start s) = .ok rootPa (.start s1) := onMm_of_ok hroot
  have hid : onMm (modify (identityLeaves rootPa)) (.start s1) =
      .ok () (.start (identityLeaves rootPa s1)) := rfl
  unfold load
  rw [if_neg hsize, hhdr]
  dsimp only
  rw [bind_of_ok hnew, bind_of_ok hid, bind_of_ok hsegs, bind_of_ok hstack, bind_of_ok hheap]
  rfl

lemma not_userFrame_of_newRoot (hv : Pmm.Valid s) (hroot : newRoot s = .ok rootPa s1)
    (a f : ℕ) : ¬ UserFrame (identityLeaves rootPa s1).mem rootPa a f := by
  have hinv := RootInv.of_newRoot hv hroot
  rintro ⟨fl, hmap, hU⟩
  rw [← mapping_mod] at hmap
  exact hU (hinv.userOnly _ (mod_lt _ (by decide)) (pageFloor_mod_two_pow a) not_mem_nil _ hmap)

lemma freePages_of_newRoot (hv : Pmm.Valid s) (hroot : newRoot s = .ok rootPa s1) :
    s.pmm.freePages = (identityLeaves rootPa s1).pmm.freePages + 1 := by
  have hadd := (RootInv.of_newRoot hv hroot).took.free_add
  exact hadd.symm

lemma sound_of_newRoot (hv : Pmm.Valid s) (hphys : Pmm.Physical s) (hroot : newRoot s = .ok rootPa s1) :
    Sound s rootPa (.start (identityLeaves rootPa s1)) 0 := by
  have hinv := RootInv.of_newRoot hv hroot
  have htables : sv39.tables (identityLeaves rootPa s1).mem 3 rootPa = {rootPa} := by
    refine le_antisymm ((Format.tables_le_nodes 3 rootPa).trans hinv.nodes_eq.le) ?_
    exact Multiset.singleton_le.mpr (Format.root_mem_tables _ 2 rootPa)
  have hnone := not_userFrame_of_newRoot hv hroot
  refine ⟨⟨?_, hinv.isTree, hphys.congr hinv.took.base_eq hinv.took.total_eq⟩,
    ⟨fun a f hf => absurd hf (hnone a f), fun a b f hf _ => absurd hf (hnone a f)⟩,
    fun x hx => absurd hx not_mem_nil, fun a f hf => absurd hf (hnone a f)⟩
  have htook := hinv.took
  rwa [← htables, ← add_zero (sv39.tables _ 3 rootPa)] at htook

/-- The windows of the stack and of the heap. -/
def stackWindow : Set ℕ := Set.Ico (userTop - userStackPages * pageSize) userTop
def heapWindow : Set ℕ := Set.Ico userHeapBase (userHeapBase + userHeapPages * pageSize)

/-! ### Data -/

lemma slice_of_holds {m : Memory} (h : m.Holds a bytes) : slice m a bytes.length = bytes := by
  refine ext_getElem (length_slice _ _ _) fun i hi hi' => ?_
  rw [← h i hi']
  simp only [slice, getElem_map, getElem_range]

/-- The loop of `decompress_to_pages` on tokens writes what they stand for. -/
theorem decompressLoop_copied {src : Memory} {compEnd fileEnd : ℕ} (hword : fileEnd < wordSize) :
    ∀ (ts : List Token) (turns inOff va : ℕ) (l : Loader), (∀ t ∈ ts, t.Valid) →
      (encode ts).length ≤ turns → src.Holds inOff (encode ts) → Sound s0 rootPa l data →
      inOff + (encode ts).length = compEnd → va + (expand ts).length = fileEnd →
      Covered l.mm.mem rootPa va fileEnd →
      ∃ l', decompressLoop rootPa src compEnd fileEnd turns inOff va l = .ok () l' ∧
        Copied s0 rootPa data l l' va (expand ts)
  | [], turns, inOff, va, l, _, _, _, h, hcomp, _, _ => by
    refine ⟨l, ?_, Copied.nil h va⟩
    cases turns with
    | zero => rfl
    | succ turns =>
      have hstop : ¬ (inOff < compEnd ∧ va < fileEnd) := by
        rintro ⟨hlt, -⟩
        exact absurd hcomp hlt.ne
      rw [decompressLoop, if_neg hstop]
      rfl
  | t :: ts, 0, inOff, va, l, _, hturns, _, _, _, _, _ => by
    have hpos := t.length_encode_pos
    rw [encode_cons, length_append] at hturns
    omega
  | t :: ts, turns + 1, inOff, va, l, hvalid, hturns, hsrc, h, hcomp, hfile, hcov => by
    obtain ⟨hpos, hmax⟩ := hvalid t mem_cons_self
    rw [encode_cons] at hsrc hturns hcomp
    rw [expand_cons] at hfile
    rw [length_append] at hturns hcomp hfile
    rw [t.length_expand] at hfile
    have hgo : inOff < compEnd ∧ va < fileEnd := ⟨by have := t.length_encode_pos; omega, by omega⟩
    -- both kinds of tokens write their text and go on behind it
    have hstep : ∀ next, next = inOff + t.encode.length →
        ∃ l', (putBytes rootPa t.count va t.expand >>= fun _ =>
          decompressLoop rootPa src compEnd fileEnd turns next (wadd va t.count)) l = .ok () l' ∧
        Copied s0 rootPa data l l' va (expand (t :: ts)) := by
      rintro next rfl
      have hend : va + t.expand.length ≤ fileEnd := by
        rw [t.length_expand]
        omega
      obtain ⟨l1, hput, hcopy⟩ := putBytes_copied t.count va t.expand l t.length_expand.le h
        (lt_of_le_of_lt hend hword) (hcov.mono le_rfl hend)
      have hlt : va + t.count < wordSize := by omega
      have hnext : wadd va t.count = va + t.count := wadd_of_lt hlt
      have hleft : (encode ts).length ≤ turns := by
        have := t.length_encode_pos
        omega
      have hcomp' : inOff + t.encode.length + (encode ts).length = compEnd := by omega
      have hfile' : va + t.count + (expand ts).length = fileEnd := by omega
      obtain ⟨l', hrest, hcopy'⟩ := decompressLoop_copied hword ts turns (inOff + t.encode.length)
        (va + t.count) l1 (fun t' ht' => hvalid t' (mem_cons_of_mem t ht')) hleft hsrc.right
        hcopy.sound hcomp' hfile'
        ((hcov.touched hcopy.toTouched).mono (le_add_right _ _) le_rfl)
      refine ⟨l', ?_, ?_⟩
      · rwa [bind_of_ok hput, hnext]
      · rw [← t.length_expand] at hcopy'
        rw [expand_cons]
        exact hcopy.append hcopy'
    have htag := hsrc.left 0 t.length_encode_pos
    rw [add_zero] at htag
    rw [decompressLoop, if_pos hgo, htag]
    have hleft : min t.count (fileEnd - va) = t.count := min_eq_left (by omega)
    cases t with
    | run n b =>
      have hpos' : 0 < n := hpos
      have hmax' : n ≤ 128 := hmax
      have hbyte : src (inOff + 1) = b := hsrc.left 1 (lt_succ_self 1)
      have hin : ¬ compEnd ≤ inOff + 1 := by
        have hlen : (run n b).encode.length = 2 := rfl
        omega
      have htag' : ((run n b).encode.get ⟨0, (run n b).length_encode_pos⟩).toNat =
          128 + (n - 1) := toNat_run hpos' hmax'
      have hcount : n - 1 + 1 = n := succ_pred_eq_of_pos hpos'
      have hmin : min n (fileEnd - va) = n := hleft
      dsimp only
      rw [get_eq_getElem] at htag'
      rw [htag', if_pos (run_and_bit hpos' hmax'), run_and_count hpos' hmax', hcount, if_neg hin, hbyte, hmin]
      exact hstep _ rfl
    | literal bytes =>
      have hpos' : 0 < bytes.length := hpos
      have hmax' : bytes.length ≤ 128 := hmax
      have hbytes : slice src (inOff + 1) bytes.length = bytes := by
        refine slice_of_holds fun i hi => ?_
        rw [add_assoc, add_comm 1 i]
        exact hsrc.left (i + 1) (succ_lt_succ hi)
      have hin : ¬ compEnd < inOff + 1 + bytes.length := by
        have hlen : (literal bytes).encode.length = bytes.length + 1 := rfl
        omega
      have htag' : ((literal bytes).encode.get
          ⟨0, (literal bytes).length_encode_pos⟩).toNat = bytes.length - 1 :=
        toNat_literal hpos' hmax'
      have hcount : bytes.length - 1 + 1 = bytes.length := succ_pred_eq_of_pos hpos'
      have hmin : min bytes.length (fileEnd - va) = bytes.length := hleft
      dsimp only
      rw [get_eq_getElem] at htag'
      rw [htag', if_neg (not_not_intro (literal_and_bit hpos' hmax')), hcount, hmin, if_neg hin, hbytes]
      refine hstep _ ?_
      have hlen : (literal bytes).encode.length = bytes.length + 1 := rfl
      omega

/-! ### One segment -/

/-- The segment can be loaded, and `bytes` is its data. -/
structure Loadable (image : Memory) (imageSize : ℕ) (compressed : Bool) (seg : OnxSegment)
    (bytes : List UInt8) : Prop where
  wide : seg.Wide
  base_le : userBase ≤ seg.vaddr
  lt_top : seg.vaddr < userTop
  memsz_pos : 0 < seg.memsz
  end_le : seg.vaddr + seg.memsz ≤ 2 ^ 39
  flags_lt : seg.flags < 2 ^ 10
  leaf : seg.IsLeaf
  filesz_le : seg.filesz ≤ seg.memsz
  length_eq : bytes.length = seg.filesz
  /-- The data is in the image. -/
  holds : if isCompressed compressed seg then
      seg.offset + seg.compressedSize ≤ imageSize ∧ ∃ ts : List Token, (∀ t ∈ ts, t.Valid) ∧
        (encode ts).length = seg.compressedSize ∧ image.Holds seg.offset (encode ts) ∧
        expand ts = bytes
    else seg.offset + seg.filesz ≤ imageSize ∧ image.Holds seg.offset bytes

namespace Loadable

section

variable (h : Loadable image imageSize compressed seg bytes)
include h

lemma maps : seg.Maps :=
  ⟨h.memsz_pos, lt_of_le_of_lt h.end_le (by decide)⟩

lemma end_add_le : seg.vaddr + seg.memsz + pageSize ≤ wordSize :=
  (Nat.add_le_add_right h.end_le pageSize).trans (by decide)

lemma filesz_lt : seg.vaddr + seg.filesz < wordSize :=
  lt_of_le_of_lt (Nat.add_le_add_left h.filesz_le _) h.maps.2

lemma offset_add_lt : seg.offset + seg.filesz < wordSize := by
  have hoff := h.wide.offset_lt
  have hend := h.end_le
  have hsize := h.filesz_le
  unfold wordSize
  omega

lemma copied (hs : Sound s0 rootPa l data)
    (hcov : Covered l.mm.mem rootPa seg.vaddr (seg.vaddr + seg.filesz)) :
    ∃ l', (if isCompressed compressed seg then decompressToPages rootPa seg image
        else copyRawToPages rootPa seg image) l = .ok () l' ∧
      Copied s0 rootPa data l l' seg.vaddr bytes := by
  have hlen := h.length_eq
  have hdata := h.holds
  by_cases hcomp : isCompressed compressed seg = true
  · rw [if_pos hcomp] at hdata
    obtain ⟨-, ts, hvalid, hsize, hholds, rfl⟩ := hdata
    have hsrc : Memory.Holds (fun i => image (seg.offset + i)) 0 (encode ts) := fun i hi => by
      rw [zero_add]
      exact hholds i hi
    rw [if_pos hcomp, decompressToPages, wadd_of_lt h.filesz_lt]
    exact decompressLoop_copied h.filesz_lt ts _ 0 seg.vaddr l hvalid hsize.le hsrc hs
      (by rw [zero_add, hsize]) (by rw [hlen]) hcov
  · rw [if_neg hcomp] at hdata
    have hmin : min (seg.vaddr + seg.memsz - seg.vaddr) (seg.filesz - 0) = seg.filesz := by
      have := h.filesz_le
      omega
    rw [if_neg hcomp, copyRawToPages, OnxSegment.wadd_of_maps h.maps]
    obtain ⟨l', bytes', hok, hcopied, -, hslice⟩ := copyRawLoop_copied h.end_add_le h.wide.filesz_lt
      pageTurns seg.vaddr 0 l (pageCount_lt_pageTurns h.end_add_le _) hs (zero_le _)
      (by rwa [hmin])
    have hbytes := hslice h.offset_add_lt
    rw [hmin, add_zero, ← hlen, slice_of_holds hdata.2] at hbytes
    rw [hbytes] at hcopied
    exact ⟨l', hok, hcopied⟩

end

end Loadable

/-- What the user sees at `a` behind a segment with the data `bytes`, given what was seen before. -/
def place (seg : OnxSegment) (bytes : List UInt8) (a : ℕ) (v : Option UInt8) : Option UInt8 :=
  if seg.vaddr ≤ a ∧ a < seg.vaddr + bytes.length then bytes[a - seg.vaddr]?
  else if v = none ∧ pageFloor a < seg.vaddr + seg.memsz ∧ seg.vaddr < pageFloor a + pageSize then some 0
  else v

lemma mem_pagesBetween_iff (hlt : va < stop) (hstop : stop ≤ 2 ^ 39) (ha : a < 2 ^ 39) :
    pageFloor a % 2 ^ 39 ∈ pagesBetween va stop ↔ pageFloor a < stop ∧ va < pageFloor a + pageSize := by
  have hfloor : ∀ b < 2 ^ 39, pageFloor b % 2 ^ 39 = pageFloor b := fun b hb =>
    mod_eq_of_lt (lt_of_le_of_lt (pageFloor_le b) hb)
  constructor
  · rintro ⟨b, hlo, hhi, heq⟩
    rw [hfloor b (hhi.trans_le hstop), hfloor a ha] at heq
    have hadd := pageFloor_add b
    have hmod : b % pageSize < pageSize := mod_lt b (by decide)
    omega
  · rintro ⟨hhi, hlo⟩
    refine ⟨max va (pageFloor a), le_max_left _ _, max_lt hlt hhi, ?_⟩
    have hsame : pageFloor (max va (pageFloor a)) = pageFloor a := by
      unfold pageFloor pageSize at *
      omega
    rw [hsame]

lemma Filled.view_eq_ite {pages : Set ℕ} (h : Filled s0 rootPa flags l l' data data' pages)
    (hleaf : flags &&& pteLeaf ≠ 0) {p : Prop} [Decidable p]
    (hp : pageFloor a % 2 ^ 39 ∈ pages ↔ p) :
    view l'.mm.mem rootPa a =
      if view l.mm.mem rootPa a = none ∧ p then some 0 else view l.mm.mem rootPa a := by
  by_cases hex : ∃ f, UserFrame l.mm.mem rootPa a f
  · obtain ⟨f, hf⟩ := hex
    have hsome : view l.mm.mem rootPa a ≠ none := by
      rw [hf.view_eq]
      exact some_ne_none _
    rw [if_neg fun hc => hsome hc.1]
    exact (h.kept a f hf).2
  · rw [not_exists] at hex
    by_cases hmem : pageFloor a % 2 ^ 39 ∈ pages
    · obtain ⟨f, hf⟩ := h.covered hleaf a hmem
      rw [if_pos ⟨view_eq_none hex, hp.mp hmem⟩]
      exact h.zero a hex f hf
    · rw [if_neg fun hc => hmem (hp.mpr hc.2)]
      exact h.view_eq a hmem

/-- The pages that a segment takes at most. -/
def OnxSegment.pageNeed (seg : OnxSegment) : ℕ := 3 * pageCount seg.vaddr (seg.vaddr + seg.memsz)

/-- From `l` to `l'` the segment has been loaded. -/
structure LoadedSegment (s0 : Mm) (rootPa : ℕ) (l l' : Loader) (data' : Multiset ℕ) (seg : OnxSegment)
    (bytes : List UInt8) : Prop where
  sound : Sound s0 rootPa l' data'
  free_le : l.mm.pmm.freePages ≤ l'.mm.pmm.freePages + seg.pageNeed
  mapping_eq : ∀ a, pageFloor a % 2 ^ 39 ∉ pagesBetween seg.vaddr (seg.vaddr + seg.memsz) →
    mapping l'.mm.mem rootPa (pageFloor a) = mapping l.mm.mem rootPa (pageFloor a)
  view_eq : ∀ a < 2 ^ 39, view l'.mm.mem rootPa a = place seg bytes a (view l.mm.mem rootPa a)

lemma mapSegmentData_loaded (hs : Sound s0 rootPa l data)
    (h : Loadable image imageSize compressed seg bytes) (hfree : seg.pageNeed < l.mm.pmm.freePages) :
    ∃ l' data', mapSegmentData rootPa seg image compressed l = .ok () l' ∧
      LoadedSegment s0 rootPa l l' data' seg bytes := by
  have hlt : seg.vaddr < seg.vaddr + seg.memsz := Nat.lt_add_of_pos_right h.memsz_pos
  have hleaf : segFlags seg &&& pteLeaf ≠ 0 := by
    rw [segFlags_and_pteLeaf]
    exact h.leaf
  rcases mapSegmentPages_cases (segFlags_userFlags h.wide fun _ => h.flags_lt) h.end_add_le pageTurns
    seg.vaddr l data hs with ⟨l1, data', hmap, hfill, hfree'⟩ | ⟨e, l1, -, hwhy⟩
  swap
  · have hturns := pageCount_lt_pageTurns h.end_add_le seg.vaddr
    unfold OnxSegment.pageNeed at hfree
    omega
  have hcov : Covered l1.mm.mem rootPa seg.vaddr (seg.vaddr + seg.filesz) := fun a hlo hhi =>
    hfill.covered hleaf a ⟨a, hlo, lt_of_lt_of_le hhi (Nat.add_le_add_left h.filesz_le _), rfl⟩
  obtain ⟨l', hcopy, hcopied⟩ := h.copied hfill.sound hcov
  have hend : seg.vaddr + bytes.length ≤ 2 ^ 39 := by
    rw [h.length_eq]
    exact (Nat.add_le_add_left h.filesz_le _).trans h.end_le
  refine ⟨l', data', ?_, hcopied.sound, ?_, fun a ha => ?_, fun a ha => ?_⟩
  · unfold mapSegmentData
    rw [OnxSegment.wadd_of_maps h.maps]
    exact (bind_of_ok hmap).trans hcopy
  · rw [hcopied.pmm_eq]
    exact hfree'
  · rw [hcopied.mapping_eq, hfill.mapping_eq a ha]
  · rw [hcopied.view_eq (fun _ => hend) a ha, place,
      hfill.view_eq_ite hleaf (mem_pagesBetween_iff hlt h.end_le ha)]

lemma loadSegment_loaded (hs : Sound s0 rootPa l data)
    (h : Loadable image imageSize compressed seg bytes) (hfree : seg.pageNeed < l.mm.pmm.freePages) :
    ∃ l' data', loadSegment rootPa image imageSize compressed seg l = .ok () l' ∧
      LoadedSegment s0 rootPa l l' data' seg bytes := by
  have hrange : ¬ (seg.vaddr < userBase ∨ userTop ≤ seg.vaddr) := by
    have hlo := h.base_le
    have hhi := h.lt_top
    omega
  have hsize : ¬ seg.memsz < seg.filesz := not_lt.mpr h.filesz_le
  have hend : ¬ imageSize < (if isCompressed compressed seg then seg.offset + seg.compressedSize
      else wadd seg.offset seg.filesz) := by
    have hdata := h.holds
    split_ifs at hdata ⊢
    · exact not_lt.mpr hdata.1
    · rw [wadd_of_lt h.offset_add_lt]
      exact not_lt.mpr hdata.1
  have hrun : loadSegment rootPa image imageSize compressed seg l =
      mapSegmentData rootPa seg image compressed l := by
    unfold loadSegment
    rw [if_neg hrange, if_neg hsize, if_neg hend]
  rw [hrun]
  exact mapSegmentData_loaded hs h hfree

/-! ### All segments -/

/-- The pages that the segments take at most. -/
def pageNeeds (segs : List (OnxSegment × List UInt8)) : ℕ := (segs.map fun x => x.1.pageNeed).sum

/-- What the user sees at `a` behind the segments. -/
def placeAll (segs : List (OnxSegment × List UInt8)) (a : ℕ) (v : Option UInt8) : Option UInt8 :=
  segs.foldl (fun v x => place x.1 x.2 a v) v

/-- The pages of the segments. -/
def pagesOfAll (segs : List (OnxSegment × List UInt8)) : Set ℕ :=
  {q | ∃ x ∈ segs, q ∈ pagesBetween x.1.vaddr (x.1.vaddr + x.1.memsz)}

lemma loadSegments_loaded : ∀ (segs : List (OnxSegment × List UInt8)) (l : Loader)
    (data : Multiset ℕ), Sound s0 rootPa l data →
    (∀ x ∈ segs, Loadable image imageSize compressed x.1 x.2) →
    pageNeeds segs < l.mm.pmm.freePages →
    ∃ l' data', loadSegments rootPa image imageSize compressed (segs.map Prod.fst) l = .ok () l' ∧
      Sound s0 rootPa l' data' ∧ l.mm.pmm.freePages ≤ l'.mm.pmm.freePages + pageNeeds segs ∧
      (∀ a, pageFloor a % 2 ^ 39 ∉ pagesOfAll segs →
        mapping l'.mm.mem rootPa (pageFloor a) = mapping l.mm.mem rootPa (pageFloor a)) ∧
      ∀ a < 2 ^ 39, view l'.mm.mem rootPa a = placeAll segs a (view l.mm.mem rootPa a)
  | [], l, data, hs, _, _ => by
    refine ⟨l, data, rfl, hs, le_add_right _ _, fun _ _ => rfl, fun a _ => ?_⟩
    rw [placeAll, foldl_nil]
  | x :: segs, l, data, hs, hload, hfree => by
    have hneed : pageNeeds (x :: segs) = x.1.pageNeed + pageNeeds segs := by
      rw [pageNeeds, map_cons, sum_cons, pageNeeds]
    rw [hneed] at hfree ⊢
    obtain ⟨l1, data1, hok, hseg⟩ :=
      loadSegment_loaded hs (hload x mem_cons_self) (by omega)
    have hfree1 := hseg.free_le
    obtain ⟨l', data', hok', hs', hfree', hmap', hview'⟩ := loadSegments_loaded segs l1 data1 hseg.sound
      (fun y hy => hload y (mem_cons_of_mem x hy)) (by omega)
    refine ⟨l', data', (bind_of_ok hok).trans hok', hs', by omega, fun a ha => ?_, fun a ha => ?_⟩
    · have hout : pageFloor a % 2 ^ 39 ∉ pagesOfAll segs := fun ⟨y, hy, hmem⟩ =>
        ha ⟨y, mem_cons_of_mem x hy, hmem⟩
      rw [hmap' a hout, hseg.mapping_eq a fun hmem => ha ⟨x, mem_cons_self, hmem⟩]
    · rw [hview' a ha, hseg.view_eq a ha, placeAll, placeAll, foldl_cons]

lemma placeAll_eq_zero : ∀ (segs : List (OnxSegment × List UInt8)) (a : ℕ) (v : Option UInt8),
    (∀ x ∈ segs, ¬ (x.1.vaddr ≤ a ∧ a < x.1.vaddr + x.2.length)) → v = none ∨ v = some 0 →
    placeAll segs a v = none ∨ placeAll segs a v = some 0
  | [], _, _, _, hv => hv
  | x :: segs, a, v, hout, hv => by
    refine placeAll_eq_zero segs a (place x.1 x.2 a v)
      (fun y hy => hout y (mem_cons_of_mem x hy)) ?_
    unfold place
    rw [if_neg (hout x mem_cons_self)]
    split_ifs
    · exact .inr rfl
    · exact hv

lemma placeAll_some : ∀ (segs : List (OnxSegment × List UInt8)) (a : ℕ) (b : UInt8),
    (∀ x ∈ segs, ¬ (x.1.vaddr ≤ a ∧ a < x.1.vaddr + x.2.length)) → placeAll segs a (some b) = some b
  | [], _, _, _ => rfl
  | x :: segs, a, b, hout => by
    have hplace : place x.1 x.2 a (some b) = some b := by
      unfold place
      rw [if_neg (hout x mem_cons_self), if_neg fun h => some_ne_none b h.1]
    rw [placeAll, foldl_cons, hplace]
    exact placeAll_some segs a b fun y hy => hout y (mem_cons_of_mem x hy)

lemma placeAll_of_mem {pre post : List (OnxSegment × List UInt8)} {x : OnxSegment × List UInt8}
    (hpre : ∀ y ∈ pre, ¬ (y.1.vaddr ≤ a ∧ a < y.1.vaddr + y.2.length))
    (hpost : ∀ y ∈ post, ¬ (y.1.vaddr ≤ a ∧ a < y.1.vaddr + y.2.length))
    (hlo : x.1.vaddr ≤ a) (hhi : a < x.1.vaddr + x.1.memsz) :
    placeAll (pre ++ x :: post) a none =
      if a < x.1.vaddr + x.2.length then x.2[a - x.1.vaddr]? else some 0 := by
  have hsplit : placeAll (pre ++ x :: post) a none =
      placeAll post a (place x.1 x.2 a (placeAll pre a none)) := by
    rw [placeAll, foldl_append, foldl_cons]
    rfl
  have hzero := placeAll_eq_zero pre a none hpre (.inl rfl)
  rw [hsplit]
  by_cases hdata : a < x.1.vaddr + x.2.length
  · have hlen : a - x.1.vaddr < x.2.length := by omega
    rw [if_pos hdata, place, if_pos ⟨hlo, hdata⟩, getElem?_eq_getElem hlen]
    exact placeAll_some post a _ hpost
  · have hfloor := pageFloor_add a
    have hmod : a % pageSize < pageSize := mod_lt a (by decide)
    have hplace : place x.1 x.2 a (placeAll pre a none) = some 0 := by
      unfold place
      rw [if_neg fun h => hdata h.2]
      rcases hzero with hnone | hsome
      · rw [if_pos ⟨hnone, by omega, by omega⟩]
      · rw [hsome, if_neg fun h => some_ne_none _ h.1]
    rw [if_neg hdata, hplace]
    exact placeAll_some post a 0 hpost

/-- The number of free pages that is enough for a program with these segments. -/
def loadNeed (segs : List (OnxSegment × List UInt8)) : ℕ :=
  pageNeeds segs + 3 * userStackPages + 3 * userHeapPages + 2

lemma load_loaded {segs : List (OnxSegment × List UInt8)} (hv : Pmm.Valid s) (hphys : Pmm.Physical s)
    (hhdr : OnxHeader.fromBytes image imageSize = some hdr) (hsegs : hdr.segs = segs.map Prod.fst)
    (hload : ∀ x ∈ segs, Loadable image imageSize (decide (hdr.flags &&& onxFlagsCompressed ≠ 0)) x.1 x.2)
    (hfree : loadNeed segs ≤ s.pmm.freePages) :
    ∃ r l' data', load image imageSize (.start s) = .ok r l' ∧ r.entry = hdr.entry ∧
      Sound s r.rootPa l' data' ∧ ∀ a < 2 ^ 39, pageFloor a ∉ stackWindow → pageFloor a ∉ heapWindow →
        view l'.mm.mem r.rootPa a = placeAll segs a none ∧
        (pageFloor a ∉ pagesOfAll segs → pageFloor a < 3 <<< 30 →
          mapping l'.mm.mem r.rootPa (pageFloor a) = some (pageFloor a, pteV ||| identityFlags)) := by
  unfold loadNeed at hfree
  rcases Pmm.alloc_cases s with ⟨rootPa, j, s1, hroot, ha⟩ | ⟨-, hfull⟩
  swap
  · rw [Pmm.Full.freePages_eq hfull hv] at hfree
    omega
  have hs0 := sound_of_newRoot hv hphys hroot
  have hfree0 := freePages_of_newRoot hv hroot
  have hview0 : ∀ a, view (identityLeaves rootPa s1).mem rootPa a = none := fun a =>
    view_eq_none (not_userFrame_of_newRoot hv hroot a)
  obtain ⟨l1, data1, hok1, hs1, hfree1, hmap1, hview1⟩ := loadSegments_loaded segs
    (.start (identityLeaves rootPa s1)) 0 hs0 hload (by
      have : (Loader.start (identityLeaves rootPa s1)).mm.pmm.freePages + 1 = s.pmm.freePages :=
        hfree0.symm
      omega)
  have hfree1' : (identityLeaves rootPa s1).pmm.freePages ≤ l1.mm.pmm.freePages + pageNeeds segs :=
    hfree1
  rcases mapNewPages_cases userStackPages (userTop - userStackPages * pageSize) l1 data1 hs1
    (by decide) (by decide) with ⟨l2, data2, hok2, hext2, hfree2⟩ | ⟨e, l2, -, hwhy⟩
  swap
  · omega
  rcases mapNewPages_cases userHeapPages userHeapBase l2 data2 hext2.sound (by decide) (by decide)
    with ⟨l3, data3, hok3, hext3, hfree3⟩ | ⟨e, l3, -, hwhy⟩
  swap
  · omega
  rw [← hsegs] at hok1
  refine ⟨_, l3, data3, load_of_steps hhdr hroot hok1 hok2 hok3, rfl, hext3.sound,
    fun a ha hstack hheap => ?_⟩
  have hfloor : pageFloor a % 2 ^ 39 = pageFloor a :=
    mod_eq_of_lt (lt_of_le_of_lt (pageFloor_le a) ha)
  rw [← hfloor] at hstack hheap
  constructor
  · rw [hext3.view_eq a hheap, hext2.view_eq a hstack, hview1 a ha]
    exact congrArg (placeAll segs a) (hview0 a)
  · intro hout hlow
    rw [← hfloor] at hout
    rw [hext3.mapping_eq a hheap, hext2.mapping_eq a hstack, hmap1 a hout]
    exact (RootInv.of_newRoot hv hroot).identity _ hlow

/-! ### A machine -/

/-- A machine with four MiB of free memory. -/
def freshMm : Mm where
  mem _ := 0
  pmm :=
    { base := 0x80400000, totalPages := 1024, freePages := 1024, bitmap := 0x803ff000
      slabHeads := fun _ => 0 }
  heap := ⟨0, 0⟩

lemma freshMm_valid : Pmm.Valid freshMm := by
  have hclear : ∀ i < freshMm.pmm.totalPages, Pmm.bmGet freshMm i = false := fun i _ =>
    (Bitmap.getBit_eq_testBit 0 (mod_lt i (by decide))).trans (zero_testBit _)
  refine ⟨by decide, by decide, by decide, ?_⟩
  rw [Bitmap.clearCount_of_forall_clear hclear]
  rfl

lemma freshMm_physical : Pmm.Physical freshMm := by
  unfold Pmm.Physical
  decide

/-- An image of the first version with one segment. -/
def tinyImage (vaddr memsz flags : ℕ) (bytes : List UInt8) : Memory := fun i =>
  if i < OnxHeader.v1HeaderSize then
    (leBytes 4 onxMagic ++ leBytes 4 1 ++ leBytes 8 vaddr ++ leBytes 4 1 ++ leBytes 4 0 ++
      leBytes 8 vaddr ++ leBytes 8 bytes.length ++ leBytes 8 memsz ++ leBytes 4 344 ++
      leBytes 4 flags).getD i 0
  else bytes.getD (i - OnxHeader.v1HeaderSize) 0

/-- Its segment. -/
def tinySegment (vaddr memsz flags : ℕ) (bytes : List UInt8) : OnxSegment :=
  ⟨vaddr, bytes.length, memsz, 344, flags, 0, 0, 0⟩

/-- Its header. -/
def tinyHeader (vaddr memsz flags : ℕ) (bytes : List UInt8) : OnxHeader :=
  ⟨onxMagic, 1, vaddr, 1, 0, [tinySegment vaddr memsz flags bytes]⟩

lemma tiny_loadable (hlo : userBase ≤ vaddr) (hhi : vaddr < userTop)
    (hpos : 0 < memsz) (hend : vaddr + memsz ≤ 2 ^ 39) (hflags : flags < 2 ^ 10)
    (hleaf : flags &&& pteLeaf ≠ 0) (hlen : bytes.length ≤ memsz) :
    Loadable (tinyImage vaddr memsz flags bytes) (344 + bytes.length) false
      (tinySegment vaddr memsz flags bytes) bytes where
  wide := by
    have hmem : memsz < 2 ^ 40 := by omega
    exact ⟨hhi.trans (by decide), lt_of_le_of_lt hlen (hmem.trans (by decide)), hmem.trans (by decide),
      hflags.trans (by decide), by show 344 < 2 ^ 32; decide⟩
  base_le := hlo
  lt_top := hhi
  memsz_pos := hpos
  end_le := hend
  flags_lt := hflags
  leaf := hleaf
  filesz_le := hlen
  length_eq := rfl
  holds := by
    refine ⟨le_rfl, fun i hi => ?_⟩
    have hoff : ¬ (tinySegment vaddr memsz flags bytes).offset + i < OnxHeader.v1HeaderSize :=
      not_lt.mpr (le_add_right 344 i)
    have hsub : (tinySegment vaddr memsz flags bytes).offset + i - OnxHeader.v1HeaderSize = i :=
      Nat.add_sub_cancel_left 344 i
    rw [tinyImage, if_neg hoff, hsub, getD_eq_getElem _ _ hi]

lemma load_tiny (hhdr : OnxHeader.fromBytes (tinyImage vaddr memsz flags bytes) (344 + bytes.length) =
      some (tinyHeader vaddr memsz flags bytes))
    (hload : Loadable (tinyImage vaddr memsz flags bytes) (344 + bytes.length) false
      (tinySegment vaddr memsz flags bytes) bytes)
    (hneed : loadNeed [(tinySegment vaddr memsz flags bytes, bytes)] ≤ 1024) :
    ∃ r l, load (tinyImage vaddr memsz flags bytes) (344 + bytes.length) (.start freshMm) = .ok r l ∧
      ∀ a < 2 ^ 39, pageFloor a ∉ stackWindow → pageFloor a ∉ heapWindow →
        view l.mm.mem r.rootPa a = place (tinySegment vaddr memsz flags bytes) bytes a none ∧
        (pageFloor a ∉ pagesBetween vaddr (vaddr + memsz) → pageFloor a < 3 <<< 30 →
          mapping l.mm.mem r.rootPa (pageFloor a) = some (pageFloor a, pteV ||| identityFlags)) := by
  have hraw : decide ((tinyHeader vaddr memsz flags bytes).flags &&& onxFlagsCompressed ≠ 0) = false :=
    decide_eq_false (not_not_intro (zero_and _))
  have hload' : ∀ x ∈ [(tinySegment vaddr memsz flags bytes, bytes)],
      Loadable (tinyImage vaddr memsz flags bytes) (344 + bytes.length)
        (decide ((tinyHeader vaddr memsz flags bytes).flags &&& onxFlagsCompressed ≠ 0)) x.1 x.2 := by
    intro x hx
    rwa [mem_singleton.mp hx, hraw]
  obtain ⟨r, l, data, hok, -, -, hview⟩ :=
    load_loaded freshMm_valid freshMm_physical hhdr rfl hload' hneed
  refine ⟨r, l, hok, fun a ha hstack hheap => ?_⟩
  obtain ⟨hplace, hmap⟩ := hview a ha hstack hheap
  refine ⟨hplace, fun hout => hmap fun ⟨x, hx, hmem⟩ => hout ?_⟩
  rwa [mem_singleton.mp hx] at hmem

lemma tinyHeader_data : OnxHeader.fromBytes (tinyImage 0x10000 4096 2 [1, 2, 3]) 347 =
    some (tinyHeader 0x10000 4096 2 [1, 2, 3]) := by
  decide +kernel

/-- Three bytes at the beginning of the user's part.  The registers of the serial port are still mapped
to themselves. -/
theorem load_tinyImage : ∃ r l, load (tinyImage 0x10000 4096 2 [1, 2, 3]) 347 (.start freshMm) = .ok r l ∧
      mapping l.mm.mem r.rootPa 0x10000000 = some (0x10000000, pteV ||| identityFlags) := by
  obtain ⟨r, l, hok, hview⟩ := load_tiny tinyHeader_data
    (tiny_loadable (by decide) (by decide) (by decide) (by decide) (by decide) (by decide) (by decide))
    (by decide)
  obtain ⟨-, hmap⟩ := hview 0x10000000 (by decide) (fun hmem => absurd hmem.1 (by decide))
    (fun hmem => absurd hmem.2 (by decide))
  have hout : pageFloor 0x10000000 ∉ pagesBetween 0x10000 (0x10000 + 4096) := by
    rintro ⟨a, -, hhi, heq⟩
    have hle := (mod_le (pageFloor a) (2 ^ 39)).trans (pageFloor_le a)
    rw [heq] at hle
    exact absurd (hle.trans_lt hhi) (by decide)
  exact ⟨r, l, hok, hmap hout (by decide)⟩

end OnyxKernel.Onx
