import OnyxKernel.Onx.LoadView

/-!
# Where the loader writes, and what it maps

The fields of a segment decide whether the loader stays inside the pages it takes from the allocator.
The flags of a segment become the low bits of its entries, so a flags word of more than ten bits changes
the page they point to; a segment without `R` and `X` is not mapped, and one whose end wraps is not
either, but its data may be copied all the same; and nothing keeps the end of a segment below the end of
the user's part.  Where none of this happens, the user's pages are pages taken by the call, a different
one for every virtual page, and the data is copied into them.
-/

namespace OnyxKernel.Onx

open ByteMemory RadixTree KResult List Nat Set Pmm

open Vmm

variable {s0 : Mm} {rootPa va flags stop f : ℕ} {l l' l1 : Loader} {data data' : Multiset ℕ}
  {bytes : List UInt8} {image : Memory} {imageSize : ℕ} {compressed : Bool} {seg : OnxSegment}

/-! ### Segments -/

namespace OnxSegment

/-- The segment has data that is copied.  Raw data is copied page by page, compressed data up to the
end of the data. -/
def Copies (compressed : Bool) (seg : OnxSegment) : Prop :=
  if isCompressed compressed seg then 0 < seg.filesz ∧ seg.vaddr + seg.filesz < wordSize
  else seg.Maps ∧ 0 < seg.filesz

/-- The pages that the segment makes available to the user. -/
def userPages (seg : OnxSegment) : Set ℕ :=
  {q | seg.Maps ∧ seg.IsLeaf ∧ q ∈ pagesBetween seg.vaddr (seg.vaddr + seg.memsz)}

/-- The pages of its data. -/
def dataPages (seg : OnxSegment) : Set ℕ := pagesBetween seg.vaddr (seg.vaddr + seg.filesz)

/-- Behind segments that have made the pages `P` available, the entries of the segment point to the
pages taken for it, and its data goes to pages that are available. -/
structure Owned (compressed : Bool) (P : Set ℕ) (seg : OnxSegment) : Prop where
  flags_lt : ¬ seg.userPages ⊆ P → seg.flags < 2 ^ 10
  covered : seg.Copies compressed → seg.dataPages ⊆ P ∪ seg.userPages

/-- The pages of the segment end below the end of the user's part. -/
def Below (seg : OnxSegment) : Prop := seg.Maps → seg.IsLeaf → seg.vaddr + seg.memsz ≤ userTop

instance : Decidable seg.Maps := inferInstanceAs (Decidable (_ ∧ _))
instance : Decidable seg.IsLeaf := inferInstanceAs (Decidable (_ ≠ _))
instance : Decidable seg.Below := inferInstanceAs (Decidable (_ → _ → _))

lemma Wide.wadd_le (hw : seg.Wide) (hm : ¬ seg.Maps) : wadd seg.vaddr seg.memsz ≤ seg.vaddr := by
  have hmem := hw.memsz_lt
  unfold Maps at hm
  unfold wadd wordSize at *
  omega

end OnxSegment

/-- Every segment is owned, in the order of the header. -/
def OwnedFrom (compressed : Bool) : Set ℕ → List OnxSegment → Prop
  | _, [] => True
  | P, seg :: segs => seg.Owned compressed P ∧ OwnedFrom compressed (P ∪ seg.userPages) segs

/-! ### The pages of a segment -/

lemma mapSegmentPages_of_le (hle : stop ≤ va) :
    mapSegmentPages rootPa flags stop pageTurns va l = .ok () l := by
  rw [pageTurns, mapSegmentPages, if_neg (not_lt.mpr hle)]
  rfl

lemma copyRawLoop_of_le {filePos : ℕ} (hle : stop ≤ va) :
    copyRawLoop rootPa seg image stop pageTurns va filePos l = .ok () l := by
  rw [pageTurns, copyRawLoop, if_neg (not_lt.mpr hle)]
  rfl

lemma mapSegmentPages_of_covered (h : Sound s0 rootPa l data) (hstop : stop + pageSize ≤ wordSize) :
    ∀ (fuel va : ℕ), Covered l.mm.mem rootPa va stop →
      mapSegmentPages rootPa flags stop fuel va l = .ok () l' → l' = l
  | 0, va, _, hok => by cases hok
  | fuel + 1, va, hcov, hok => by
    rw [mapSegmentPages] at hok
    by_cases hlt : va < stop
    swap
    · rw [if_neg hlt] at hok
      cases hok
      rfl
    have hmapped : translateUser l.mm.mem rootPa (pageFloor va) ≠ 0 := by
      rw [Ne, h.translateUser_eq_zero_iff]
      intro hnone
      obtain ⟨f, hf⟩ := hcov va le_rfl hlt
      exact hnone f hf
    have hpage : mapSegmentPage rootPa flags (pageFloor va) l = .ok () l := by
      rw [mapSegmentPage_eq, if_neg hmapped]
    rw [if_pos hlt, bind_of_ok hpage, wadd_pageFloor hlt hstop] at hok
    refine mapSegmentPages_of_covered h hstop fuel _ (hcov.mono ?_ le_rfl) hok
    have hfloor := pageFloor_add va
    have hmod : va % pageSize < pageSize := mod_lt va (by decide)
    exact le_min (by omega) hlt.le

/-- The loader is sound, and the pages `P` are those available to the user. -/
structure Reached (s0 : Mm) (rootPa : ℕ) (l : Loader) (data : Multiset ℕ) (P : Set ℕ) : Prop
    extends Sound s0 rootPa l data where
  mapped_iff : ∀ a, (∃ f, UserFrame l.mm.mem rootPa a f) ↔ pageFloor a % 2 ^ 39 ∈ P

variable {P : Set ℕ}

lemma Reached.covered (h : Reached s0 rootPa l data P) (hsub : pagesBetween va stop ⊆ P) :
    Covered l.mm.mem rootPa va stop := fun a hlo hhi =>
  (h.mapped_iff a).mpr (hsub ⟨a, hlo, hhi, rfl⟩)

/-- The first loop of `map_segment_data`, on a segment that is owned. -/
theorem mapSegmentPages_reached (h : Reached s0 rootPa l data P) (hw : seg.Wide)
    (hown : ¬ seg.userPages ⊆ P → seg.flags < 2 ^ 10)
    (hok : mapSegmentPages rootPa (segFlags seg) (wadd seg.vaddr seg.memsz) pageTurns seg.vaddr l =
      .ok () l') :
    (∃ data', Reached s0 rootPa l' data' (P ∪ seg.userPages)) ∧
      (seg.Maps → seg.vaddr + seg.memsz + pageSize ≤ wordSize) := by
  by_cases hm : seg.Maps
  swap
  · -- no pages
    rw [mapSegmentPages_of_le (hw.wadd_le hm)] at hok
    cases hok
    have hnone : seg.userPages = ∅ := eq_empty_of_forall_notMem fun q hq => hm hq.1
    rw [hnone, union_empty]
    exact ⟨⟨data, h⟩, fun hm' => absurd hm' hm⟩
  rw [OnxSegment.wadd_of_maps hm] at hok
  have hend : seg.vaddr + seg.memsz + pageSize ≤ wordSize := by
    by_contra hover
    exact mapSegmentPages_ne_ok (not_le.mp hover) hm.2.le _ _ _ _ (Nat.lt_add_of_pos_right hm.1) hok
  refine ⟨?_, fun _ => hend⟩
  by_cases hlow : seg.IsLeaf → seg.flags < 2 ^ 10
  swap
  · -- the flags are not used, as every page is available
    have hsub : seg.userPages ⊆ P := by
      by_contra hsub
      exact hlow fun _ => hown hsub
    have hleaf : seg.IsLeaf := by
      by_contra hleaf
      exact hlow fun hleaf' => absurd hleaf' hleaf
    have hcov := h.covered fun q hq => hsub ⟨hm, hleaf, hq⟩
    rw [mapSegmentPages_of_covered h.toSound hend _ _ hcov hok, union_eq_self_of_subset_right hsub]
    exact ⟨data, h⟩
  rcases mapSegmentPages_cases (segFlags_userFlags hw hlow) hend pageTurns seg.vaddr l data h.toSound
    with ⟨l2, data', hok', hfill, -⟩ | ⟨e, l2, herr, -⟩
  swap
  · cases hok.symm.trans herr
  cases hok.symm.trans hok'
  refine ⟨data', hfill.sound, fun a => ⟨?_, ?_⟩⟩
  · rintro ⟨f, hf⟩
    rcases hfill.only a f hf with hf | ⟨hleaf, hmem⟩
    · exact .inl ((h.mapped_iff a).mp ⟨f, hf⟩)
    · rw [segFlags_and_pteLeaf] at hleaf
      exact .inr ⟨hm, hleaf, hmem⟩
  · rintro (hmem | ⟨-, hleaf, hmem⟩)
    · obtain ⟨f, hf⟩ := (h.mapped_iff a).mpr hmem
      exact ⟨f, (hfill.kept a f hf).1⟩
    · refine hfill.covered ?_ a hmem
      rwa [segFlags_and_pteLeaf]

/-! ### The data of a segment -/

lemma copy_touched (h : Sound s0 rootPa l data) (hw : seg.Wide) (hsize : seg.filesz ≤ seg.memsz)
    (hend : seg.Maps → seg.vaddr + seg.memsz + pageSize ≤ wordSize)
    (hcov : seg.Copies compressed → Covered l.mm.mem rootPa seg.vaddr (seg.vaddr + seg.filesz))
    (hok : (if isCompressed compressed seg then decompressToPages rootPa seg image
      else copyRawToPages rootPa seg image) l = .ok () l') : Touched s0 rootPa data l l' := by
  by_cases hcomp : isCompressed compressed seg = true
  · rw [if_pos hcomp, decompressToPages] at hok
    have hcopies : seg.Copies compressed ↔ 0 < seg.filesz ∧ seg.vaddr + seg.filesz < wordSize := by
      unfold OnxSegment.Copies
      rw [if_pos hcomp]
    refine decompressLoop_touched (wadd_lt _ _) _ 0 seg.vaddr l l' h ?_ hok
    intro a hlo hhi
    -- an address below the wrapped end is one where data is copied
    have hc : seg.Copies compressed := by
      have hf := hw.filesz_lt
      rw [hcopies]
      unfold wadd wordSize at *
      omega
    refine hcov hc a hlo ?_
    rwa [wadd_of_lt (hcopies.mp hc).2] at hhi
  · rw [if_neg hcomp, copyRawToPages] at hok
    have hcopies : seg.Copies compressed ↔ seg.Maps ∧ 0 < seg.filesz := by
      unfold OnxSegment.Copies
      rw [if_neg hcomp]
    by_cases hm : seg.Maps
    swap
    · rw [copyRawLoop_of_le (hw.wadd_le hm)] at hok
      cases hok
      exact Touched.refl h
    rw [OnxSegment.wadd_of_maps hm] at hok
    have hcov' : Covered l.mm.mem rootPa seg.vaddr
        (seg.vaddr + min (seg.vaddr + seg.memsz - seg.vaddr) (seg.filesz - 0)) := fun a hlo hhi =>
      hcov (hcopies.mpr ⟨hm, by omega⟩) a hlo (by omega)
    obtain ⟨l1, bytes, hok', hcopied, -, -⟩ := copyRawLoop_copied (hend hm) hw.filesz_lt pageTurns
      seg.vaddr 0 l (pageCount_lt_pageTurns (hend hm) _) h (zero_le _) hcov'
    cases hok.symm.trans hok'
    exact hcopied.toTouched

lemma Reached.touched (h : Reached s0 rootPa l data P) (ht : Touched s0 rootPa data l l') :
    Reached s0 rootPa l' data P := by
  refine ⟨ht.sound, fun a => ?_⟩
  rw [← h.mapped_iff a]
  exact exists_congr fun f => ht.userFrame_iff a f

lemma mapSegmentData_reached (h : Reached s0 rootPa l data P) (hw : seg.Wide)
    (hsize : seg.filesz ≤ seg.memsz) (hown : seg.Owned compressed P)
    (hok : mapSegmentData rootPa seg image compressed l = .ok () l') :
    ∃ data', Reached s0 rootPa l' data' (P ∪ seg.userPages) := by
  obtain ⟨u, l1, hmap, hcopy⟩ := bind_eq_ok_iff.mp hok
  obtain ⟨⟨data', hreach⟩, hend⟩ := mapSegmentPages_reached h hw hown.flags_lt hmap
  have htouch := copy_touched hreach.toSound hw hsize hend
    (fun hc => hreach.covered (hown.covered hc)) hcopy
  exact ⟨data', hreach.touched htouch⟩

lemma loadSegment_ok (hok : loadSegment rootPa image imageSize compressed seg l = .ok () l') :
    userBase ≤ seg.vaddr ∧ seg.vaddr < userTop ∧ seg.filesz ≤ seg.memsz ∧
      mapSegmentData rootPa seg image compressed l = .ok () l' := by
  unfold loadSegment at hok
  dsimp only at hok
  split_ifs at hok with h1 h2 h3
  all_goals first
    | cases hok
    | exact ⟨by omega, by omega, by omega, hok⟩

/-- The segments of an image, as long as each is owned.  The pages available afterwards are those from
before and those of the segments, and the segments start in the user's part. -/
theorem loadSegments_reached : ∀ (segs : List OnxSegment) (l : Loader) (data : Multiset ℕ) (P : Set ℕ),
    Reached s0 rootPa l data P → (∀ seg ∈ segs, seg.Wide) → OwnedFrom compressed P segs →
    loadSegments rootPa image imageSize compressed segs l = .ok () l' →
    (∀ seg ∈ segs, userBase ≤ seg.vaddr ∧ seg.vaddr < userTop) ∧
      ∃ data', Reached s0 rootPa l' data' (P ∪ {q | ∃ seg ∈ segs, q ∈ seg.userPages})
  | [], l, data, P, h, _, _, hok => by
    cases hok
    refine ⟨fun seg hseg => absurd hseg not_mem_nil, data, h.toSound, fun a => ?_⟩
    rw [h.mapped_iff a]
    exact ⟨.inl, fun hmem => hmem.resolve_right fun ⟨_, hseg, _⟩ => not_mem_nil hseg⟩
  | seg :: segs, l, data, P, h, hwide, hown, hok => by
    rw [loadSegments] at hok
    obtain ⟨u, l1, hseg, hrest⟩ := bind_eq_ok_iff.mp hok
    obtain ⟨hlo, hhi, hsize, hdata⟩ := loadSegment_ok hseg
    obtain ⟨data1, h1⟩ := mapSegmentData_reached h (hwide seg mem_cons_self) hsize hown.1 hdata
    obtain ⟨hstart, data', h'⟩ := loadSegments_reached segs l1 data1 _ h1
      (fun seg' hseg' => hwide seg' (mem_cons_of_mem seg hseg')) hown.2 hrest
    refine ⟨fun seg' hseg' => ?_, data', h'.toSound, fun a => ?_⟩
    · rcases mem_cons.mp hseg' with rfl | hseg'
      · exact ⟨hlo, hhi⟩
      · exact hstart seg' hseg'
    · rw [h'.mapped_iff a, union_assoc]
      refine or_congr Iff.rfl ⟨?_, ?_⟩
      · rintro (hq | ⟨seg', hseg', hq⟩)
        · exact ⟨seg, mem_cons_self, hq⟩
        · exact ⟨seg', mem_cons_of_mem seg hseg', hq⟩
      · rintro ⟨seg', hseg', hq⟩
        rcases mem_cons.mp hseg' with rfl | hseg'
        · exact .inl hq
        · exact .inr ⟨seg', hseg', hq⟩

/-! ### The loader -/

lemma reached_of_newRoot {s s1 : Mm} (hv : Pmm.Valid s) (hphys : Pmm.Physical s)
    (hroot : newRoot s = .ok rootPa s1) :
    Reached s rootPa (.start (identityLeaves rootPa s1)) 0 ∅ := by
  refine ⟨sound_of_newRoot hv hphys hroot, fun a => ⟨fun ⟨f, hf⟩ => ?_, fun hmem => hmem.elim⟩⟩
  exact absurd hf (not_userFrame_of_newRoot hv hroot a f)

lemma load_reached {r : OnxLoadResult} {s : Mm} (hv : Pmm.Valid s) (hphys : Pmm.Physical s)
    (hown : ∀ hdr, OnxHeader.fromBytes image imageSize = some hdr →
      OwnedFrom (decide (hdr.flags &&& onxFlagsCompressed ≠ 0)) ∅ hdr.segs)
    (hok : load image imageSize (.start s) = .ok r l') :
    ∃ hdr data', OnxHeader.fromBytes image imageSize = some hdr ∧ Sound s r.rootPa l' data' ∧
      (∀ seg ∈ hdr.segs, userBase ≤ seg.vaddr ∧ seg.vaddr < userTop) ∧
      ∀ a f, UserFrame l'.mm.mem r.rootPa a f → pageFloor a % 2 ^ 39 ∈
        {q | ∃ seg ∈ hdr.segs, q ∈ seg.userPages} ∪ stackWindow ∪ heapWindow := by
  obtain ⟨hdr, s1, l1, l2, hhdr, hroot, hsegs, hstack, hheap⟩ := load_ok hok
  obtain ⟨hstart, data1, h1⟩ := loadSegments_reached hdr.segs _ _ _
    (reached_of_newRoot hv hphys hroot) (wide_of_fromBytes hhdr) (hown hdr hhdr) hsegs
  rcases mapNewPages_cases userStackPages (userTop - userStackPages * pageSize) l1 data1 h1.toSound
    (by decide) (by decide) with ⟨l2', data2, hstack', hext2, -⟩ | ⟨e, l2', herr, -⟩
  swap
  · cases hstack.symm.trans herr
  cases hstack.symm.trans hstack'
  rcases mapNewPages_cases userHeapPages userHeapBase l2 data2 hext2.sound (by decide) (by decide)
    with ⟨l3', data3, hheap', hext3, -⟩ | ⟨e, l3', herr, -⟩
  swap
  · cases hheap.symm.trans herr
  cases hheap.symm.trans hheap'
  refine ⟨hdr, data3, hhdr, hext3.sound, hstart, fun a f hf => ?_⟩
  by_cases hmem : pageFloor a % 2 ^ 39 ∈ stackWindow ∪ heapWindow
  · rw [union_assoc]
    exact .inr hmem
  rw [mem_union, not_or] at hmem
  rw [hext3.frame_iff a hmem.2, hext2.frame_iff a hmem.1] at hf
  have hpages := (h1.mapped_iff a).mp ⟨f, hf⟩
  rw [empty_union] at hpages
  exact .inl (.inl hpages)

/-! ### Confinement -/

/-- The page at `f` was free in `s` and is allocated in `s'`. -/
def Taken (s s' : Mm) (f : ℕ) : Prop :=
  ∃ j < s.pmm.totalPages, f = idxToPa s j ∧ bmGet s j = false ∧ bmGet s' j = true

/-- The user's pages lie in the user's part, and all data was copied into pages taken since `s`. -/
structure Confined (s : Mm) (rootPa : ℕ) (l : Loader) : Prop where
  range : ∀ a < 2 ^ 39, ∀ pa fl, mapping l.mm.mem rootPa a = some (pa, fl) → fl &&& pteU ≠ 0 →
    userBase ≤ a ∧ a < userTop
  written : ∀ x ∈ l.written, ∃ f, Taken s l.mm f ∧ x ∈ sv39.page f

/-- Every page of the user is a page taken since `s` for this page, and no other. -/
structure FramesOwned (s : Mm) (rootPa : ℕ) (l : Loader) : Prop where
  taken : ∀ a f, UserFrame l.mm.mem rootPa a f →
    Taken s l.mm f ∧ ∃ p, (p, f) ∈ l.given ∧ p % 2 ^ 39 = pageFloor a % 2 ^ 39
  inj : ∀ a b f, UserFrame l.mm.mem rootPa a f → UserFrame l.mm.mem rootPa b f →
    pageFloor a % 2 ^ 39 = pageFloor b % 2 ^ 39

/-- The segments of the image are owned. -/
def ImageOwned (image : Memory) (imageSize : ℕ) : Prop :=
  ∀ hdr, OnxHeader.fromBytes image imageSize = some hdr →
    OwnedFrom (decide (hdr.flags &&& onxFlagsCompressed ≠ 0)) ∅ hdr.segs

/-- The segments of the image end below the end of the user's part. -/
def ImageBelow (image : Memory) (imageSize : ℕ) : Prop :=
  ∀ hdr, OnxHeader.fromBytes image imageSize = some hdr → ∀ seg ∈ hdr.segs, seg.Below

lemma OnxSegment.userPages_subset (hlo : userBase ≤ seg.vaddr) (hbelow : seg.Below) :
    seg.userPages ⊆ Set.Ico userBase userTop := by
  rintro q ⟨hm, hleaf, a, ha, ha', rfl⟩
  have hle := hbelow hm hleaf
  unfold pageFloor pageSize userBase userTop at *
  constructor
  · omega
  · omega

lemma range_of_pageFloor {a : ℕ} (ha : a < 2 ^ 39)
    (h : pageFloor a % 2 ^ 39 ∈ Set.Ico userBase userTop) : userBase ≤ a ∧ a < userTop := by
  obtain ⟨hlo, hhi⟩ := h
  unfold pageFloor pageSize userBase userTop at *
  omega

/-- `load` stays inside the user's part and inside the pages it takes, if the segments of the image are
owned and end below the end of the user's part. -/
theorem load_confined {r : OnxLoadResult} {s : Mm} (hv : Pmm.Valid s) (hphys : Pmm.Physical s)
    (hown : ImageOwned image imageSize) (hbelow : ImageBelow image imageSize)
    (hok : load image imageSize (.start s) = .ok r l') : Confined s r.rootPa l' := by
  obtain ⟨hdr, data', hhdr, hsound, hstart, hpages⟩ := load_reached hv hphys hown hok
  refine ⟨fun a ha pa fl hmap hU => range_of_pageFloor ha ?_, fun x hx => ?_⟩
  · have hframe : ∃ f, UserFrame l'.mm.mem r.rootPa a f := by
      rw [mapping_pageFloor] at hmap
      obtain ⟨y, hy, hyx⟩ := Option.map_eq_some_iff.mp hmap
      have hfl : y.2 = fl := (Prod.mk.inj hyx).2
      exact ⟨y.1, y.2, hy, hfl ▸ hU⟩
    obtain ⟨f, hf⟩ := hframe
    rcases hpages a f hf with (⟨seg, hseg, hq⟩ | ⟨hlo, hhi⟩) | ⟨hlo, hhi⟩
    · exact OnxSegment.userPages_subset (hstart seg hseg).1 (hbelow hdr hhdr seg hseg) hq
    · exact ⟨le_trans (by decide) hlo, hhi⟩
    · exact ⟨le_trans (by decide) hlo, lt_of_lt_of_le hhi (by decide)⟩
  · obtain ⟨f, hf, hxf⟩ := hsound.written x hx
    exact ⟨f, hsound.space.clear hf, hxf⟩

lemma tinyImage_owned : ImageOwned (tinyImage 0x10000 4096 2 [1, 2, 3]) 347 := by
  intro hdr hhdr
  cases tinyHeader_data.symm.trans hhdr
  refine ⟨⟨fun _ => by decide, fun _ q hq => .inr ?_⟩, trivial⟩
  obtain ⟨a, hlo, hhi, rfl⟩ := hq
  exact ⟨⟨by decide, by decide⟩, by decide, a, hlo, hhi.trans (by decide), rfl⟩

theorem load_confined_tinyImage : ∃ r l,
    load (tinyImage 0x10000 4096 2 [1, 2, 3]) 347 (.start freshMm) = .ok r l ∧
      Confined freshMm r.rootPa l := by
  have hbelow : ImageBelow (tinyImage 0x10000 4096 2 [1, 2, 3]) 347 := by
    intro hdr hhdr seg hseg
    cases tinyHeader_data.symm.trans hhdr
    cases mem_singleton.mp hseg
    decide
  obtain ⟨r, l, hok, -⟩ := load_tinyImage
  exact ⟨r, l, hok, load_confined freshMm_valid freshMm_physical tinyImage_owned hbelow hok⟩

lemma tinyHeader_tall : OnxHeader.fromBytes (tinyImage 0x3FFFF000 0x2000 2 []) 344 =
    some (tinyHeader 0x3FFFF000 0x2000 2 []) := by
  decide +kernel

/-- A segment whose second page lies behind the user's part is accepted. -/
theorem load_not_confined : ∃ r l, load (tinyImage 0x3FFFF000 0x2000 2 []) 344 (.start freshMm) = .ok r l ∧
      ¬ Confined freshMm r.rootPa l := by
  obtain ⟨r, l, hok, hview⟩ := load_tiny tinyHeader_tall
    (tiny_loadable (by decide) (by decide) (by decide) (by decide) (by decide) (by decide) (by decide))
    (by decide)
  refine ⟨r, l, hok, fun hconf => ?_⟩
  obtain ⟨hzero, -⟩ := hview userTop (by decide) (fun hmem => absurd hmem.2 (by decide))
    (fun hmem => absurd hmem.2 (by decide))
  have hplace : place (tinySegment 0x3FFFF000 0x2000 2 []) [] userTop none = some 0 := by decide
  obtain ⟨pa, fl, hmap, hU⟩ := mapping_of_view (hzero.trans hplace)
  exact lt_irrefl _ (hconf.range userTop (by decide) pa fl hmap hU).2

/-- `load` maps only pages it takes, each for one page, if the segments of the image are owned. -/
theorem load_framesOwned {r : OnxLoadResult} {s : Mm} (hv : Pmm.Valid s) (hphys : Pmm.Physical s)
    (hown : ImageOwned image imageSize) (hok : load image imageSize (.start s) = .ok r l') :
    FramesOwned s r.rootPa l' := by
  obtain ⟨hdr, data', hhdr, hsound, -, -⟩ := load_reached hv hphys hown hok
  exact ⟨fun a f hf => ⟨hsound.space.clear (hsound.owned.mem a f hf), hsound.given a f hf⟩, hsound.owned.inj⟩

theorem load_framesOwned_tinyImage : ∃ r l,
    load (tinyImage 0x10000 4096 2 [1, 2, 3]) 347 (.start freshMm) = .ok r l ∧
      FramesOwned freshMm r.rootPa l := by
  obtain ⟨r, l, hok, -⟩ := load_tinyImage
  exact ⟨r, l, hok, load_framesOwned freshMm_valid freshMm_physical tinyImage_owned hok⟩

/-! ### Flags that change the page -/

lemma mapNewPages_of_space : ∀ (n va : ℕ) (l : Loader) (data : Multiset ℕ),
    Space s0 rootPa l.mm data → va % pageSize = 0 → va + n * pageSize ≤ 2 ^ 39 →
    3 * n < l.mm.pmm.freePages →
    ∃ l' data', mapNewPages rootPa n va l = .ok () l' ∧ Space s0 rootPa l'.mm data' ∧
      l.mm.pmm.freePages ≤ l'.mm.pmm.freePages + 3 * n ∧
      ∀ a < 2 ^ 39, a ∉ Set.Ico va (va + n * pageSize) →
        mapping l'.mm.mem rootPa a = mapping l.mm.mem rootPa a
  | 0, va, l, data, h, _, _, _ => ⟨l, data, rfl, h, le_add_right _ _, fun _ _ _ => rfl⟩
  | n + 1, va, l, data, h, hval, hle, hfree => by
    have hmul : (n + 1) * pageSize = n * pageSize + pageSize := succ_mul n pageSize
    have hlt : va < 2 ^ 39 := by
      unfold pageSize at *
      omega
    rw [mapNewPages_succ]
    rcases mapFresh_cases_of_space h hval userFlags_userFlags.fits with
      ⟨s', f, hok, hn⟩ | ⟨e, l1, -, hwhy⟩
    swap
    · omega
    rw [bind_of_ok hok]
    rw [mod_eq_of_lt hlt] at hn
    have hfree1 := hn.free_le
    obtain ⟨l', data', hok', h', hfree', hmap⟩ := mapNewPages_of_space n (va + pageSize)
      { l with mm := s', given := l.given ++ [(va, f)] } (f ::ₘ data) hn.space
      (by rw [add_mod_right, hval]) (by omega) (by dsimp only; omega)
    refine ⟨l', data', hok', h', by dsimp only at hfree'; omega, fun a ha hnot => ?_⟩
    have hout : ¬ (va ≤ a ∧ a < va + pageSize) := fun hin => hnot ⟨hin.1, by omega⟩
    rw [hmap a ha fun hmem => hnot ⟨by have := hmem.1; omega, by have := hmem.2; omega⟩]
    rw [hn.mapping_eq a ha, if_neg hout]

lemma copyRawLoop_of_filesz (hsize : seg.filesz = 0) (hstop : stop + pageSize ≤ wordSize) :
    ∀ (fuel va : ℕ), pageCount va stop < fuel →
      copyRawLoop rootPa seg image stop fuel va 0 l = .ok () l
  | 0, va, hfuel => absurd hfuel (not_lt_zero _)
  | fuel + 1, va, hfuel => by
    rw [copyRawLoop]
    by_cases hlt : va < stop
    swap
    · rw [if_neg hlt]
      rfl
    rw [pageCount_eq hlt] at hfuel
    have hzero : ∀ n, min n (seg.filesz - 0) = 0 := fun n => by
      rw [hsize, Nat.zero_sub]
      exact min_zero n
    have hwadd : wadd 0 0 = 0 := by decide
    rw [if_pos hlt, get_bind]
    dsimp only
    rw [hzero, if_neg (lt_irrefl 0), hwadd, wadd_pageFloor hlt hstop]
    exact copyRawLoop_of_filesz hsize hstop fuel _ (by omega)

lemma tinyHeader_wild : OnxHeader.fromBytes (tinyImage 0x10000 4096 0xFFFFFC02 []) 344 =
    some (tinyHeader 0x10000 4096 0xFFFFFC02 []) := by
  decide +kernel

lemma loadSegments_wild (image : Memory) (h : Sound s0 rootPa l data)
    (hnone : ∀ f, ¬ UserFrame l.mm.mem rootPa 0x10000 f) (hfree : 3 < l.mm.pmm.freePages) :
    ∃ l' f, loadSegments rootPa image 344 false [tinySegment 0x10000 4096 0xFFFFFC02 []] l = .ok () l' ∧
      NewPage s0 rootPa l.mm l'.mm data 0x10000 0xFFFFFCD2 f := by
  have hzero : translateUser l.mm.mem rootPa (pageFloor 0x10000) = 0 :=
    (h.translateUser_eq_zero_iff 0x10000).mpr hnone
  have hval : 0x10000 % pageSize = 0 := by decide
  have hfits : 0xFFFFFCD2 < 2 ^ 54 := by decide
  rcases mapFresh_cases_of_space h.space hval hfits with ⟨s', f, hok, hn⟩ | ⟨e, l1, -, hwhy⟩
  swap
  · omega
  set l' : Loader := { l with mm := s', given := l.given ++ [(0x10000, f)] } with hl'
  refine ⟨l', f, ?_, hn⟩
  -- the only page of the segment is mapped
  have hpages : mapSegmentPages rootPa 0xFFFFFCD2 0x11000 pageTurns 0x10000 l = .ok () l' := by
    obtain ⟨k, hk⟩ : ∃ k, pageTurns = k + 2 := ⟨wordSize / pageSize - 1, by decide⟩
    have hpage : mapSegmentPage rootPa 0xFFFFFCD2 (pageFloor 0x10000) l = .ok () l' := by
      rwa [mapSegmentPage_eq, if_pos hzero]
    have hnext : min (wadd (pageFloor 0x10000) pageSize) 0x11000 = 0x11000 := by decide
    have hgo : 0x10000 < 0x11000 := by decide
    rw [hk, mapSegmentPages, if_pos hgo, bind_of_ok hpage, hnext, mapSegmentPages, if_neg (lt_irrefl _)]
    rfl
  have hcopy : copyRawToPages rootPa (tinySegment 0x10000 4096 0xFFFFFC02 []) image l' = .ok () l' :=
    copyRawLoop_of_filesz rfl (by decide) _ _ (pageCount_lt_pageTurns (by decide) _)
  have hraw : ¬ isCompressed false (tinySegment 0x10000 4096 0xFFFFFC02 []) = true := by decide
  have hdata : mapSegmentData rootPa (tinySegment 0x10000 4096 0xFFFFFC02 []) image false l = .ok () l' := by
    unfold mapSegmentData
    rw [if_neg hraw]
    exact (bind_of_ok hpages).trans hcopy
  have hsegment : loadSegment rootPa image 344 false (tinySegment 0x10000 4096 0xFFFFFC02 []) l =
      .ok () l' := by
    unfold loadSegment
    rwa [if_neg (by decide), if_neg (by decide), if_neg (by decide)]
  rw [loadSegments, bind_of_ok hsegment]
  rfl

/-- A flags word of more than ten bits makes a page of the user point to memory that was not taken. -/
theorem load_not_framesOwned : ∃ r l,
    load (tinyImage 0x10000 4096 0xFFFFFC02 []) 344 (.start freshMm) = .ok r l ∧
      ¬ FramesOwned freshMm r.rootPa l := by
  rcases alloc_cases freshMm with ⟨rootPa, j, s1, hroot, -⟩ | ⟨-, hfull⟩
  swap
  · exact absurd (Pmm.Full.freePages_eq hfull freshMm_valid) (by decide)
  have hfree0 : (identityLeaves rootPa s1).pmm.freePages + 1 = 1024 :=
    (freePages_of_newRoot freshMm_valid hroot).symm
  obtain ⟨l1, f, hsegs, hn⟩ := loadSegments_wild (tinyImage 0x10000 4096 0xFFFFFC02 [])
    (sound_of_newRoot freshMm_valid freshMm_physical hroot)
    (not_userFrame_of_newRoot freshMm_valid hroot 0x10000)
    (show 3 < (identityLeaves rootPa s1).pmm.freePages by omega)
  have hfree1 : (identityLeaves rootPa s1).pmm.freePages ≤ l1.mm.pmm.freePages + 3 := hn.free_le
  obtain ⟨l2, data2, hstack, hspace2, hfree2, hmap2⟩ := mapNewPages_of_space userStackPages
    (userTop - userStackPages * pageSize) l1 _ hn.space (by decide) (by decide)
    (show 192 < l1.mm.pmm.freePages by omega)
  have hfree2' : l1.mm.pmm.freePages ≤ l2.mm.pmm.freePages + 192 := hfree2
  obtain ⟨l3, data3, hheap, hspace3, -, hmap3⟩ := mapNewPages_of_space userHeapPages userHeapBase l2 _
    hspace2 (by decide) (by decide) (show 48 < l2.mm.pmm.freePages by omega)
  refine ⟨_, l3, load_of_steps tinyHeader_wild hroot hsegs hstack hheap, fun hown => ?_⟩
  -- the entry is a leaf of the user, and its address has the bits of the flags
  have hpte : mapping l3.mm.mem rootPa (pageFloor 0x10000) =
      some (pteAddr (makePte 0xFFFFFCD2 f), pteFlags (makePte 0xFFFFFCD2 f)) := by
    have hfloor : pageFloor 0x10000 = 0x10000 := by decide
    have hva : 0x10000 < 2 ^ 39 := by decide
    have hin : 0x10000 ≤ 0x10000 ∧ 0x10000 < 0x10000 + pageSize := by decide
    rw [hfloor, hmap3 _ hva (fun hmem => absurd hmem.1 (by decide)),
      hmap2 _ hva (fun hmem => absurd hmem.1 (by decide)), hn.mapping_eq _ hva, if_pos hin]
    exact pageEntry_of_leaf (by decide) (by decide)
  have hU : pteFlags (makePte 0xFFFFFCD2 f) &&& pteU ≠ 0 := by
    rw [← and_eq_pteFlags_and (by decide), makePte_and (by decide)]
    decide
  obtain ⟨⟨j, hj, hframe, -⟩, -⟩ := hown.taken 0x10000 _ ⟨_, hpte, hU⟩
  have hlt : f < 2 ^ 56 := by
    obtain ⟨i, hi, rfl, -⟩ := hn.space.allocated (Multiset.mem_cons_self f _)
    exact hn.space.physical.idxToPa_lt hi
  have hle := le_pteAddr_makePte (by decide : 0xFFFFFCD2 < 2 ^ 54) hlt
  have hidx : idxToPa freshMm j < 0x81000000 := by
    have hj' : j < 1024 := hj
    have hbase : idxToPa freshMm j = 0x80400000 + j * 4096 := rfl
    omega
  have : 0xFFFFFCD2 / 2 ^ 10 * pageSize = 0x3FFFFF000 := by decide
  omega

end OnyxKernel.Onx
