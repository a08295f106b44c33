import OnyxKernel.Mm.AddressSpace
import OnyxKernel.Onx.Load

/-!
# What the loops of the loader do

The loops of the loader, one after the other: the pages of a segment are mapped where they are missing
(`Extended`), and bytes are written to pages that are mapped (`Copied`).  Both keep `Sound`: the page
table and the pages for data are what was taken from the allocator, the user's pages are pages for data,
and every byte that was copied lies in one of them.
-/

namespace OnyxKernel.Onx

open ByteMemory RadixTree KResult List Nat Set

open Vmm

variable {s0 : Mm} {rootPa va flags stop f : ℕ} {l l' l1 : Loader} {data data' : Multiset ℕ}
  {bytes : List UInt8} {image : Memory} {α : Type} {s : Mm} {e : Errno} {pages pages' : Set ℕ}
  {data'' : Multiset ℕ} {l'' : Loader} {va' : ℕ}

/-! ### Calls of the memory manager -/

lemma onMm_of_ok {x : KResult Mm α} {a : α} (h : x l.mm = .ok a s) : onMm x l = .ok a { l with mm := s } := by
  simp only [onMm, h]

lemma onMm_of_error {x : KResult Mm α} (h : x l.mm = .error e s) :
    onMm x l = .error (.err e) { l with mm := s } := by
  simp only [onMm, h]

lemma takePage_of_ok (h : Pmm.alloc l.mm = .ok f s) :
    takePage va l = .ok f { l with mm := s, given := l.given ++ [(va, f)] } := by
  rw [takePage, bind_of_ok (onMm_of_ok h)]
  rfl

/-! ### The invariant -/

/-- What holds between the steps of the loader. -/
structure Sound (s0 : Mm) (rootPa : ℕ) (l : Loader) (data : Multiset ℕ) : Prop where
  space : Space s0 rootPa l.mm data
  owned : Owned l.mm.mem rootPa data
  /-- Every byte was copied into a page for data. -/
  written : ∀ x ∈ l.written, ∃ f ∈ data, x ∈ sv39.page f
  /-- Every page of the user was obtained for it. -/
  given : ∀ a f, UserFrame l.mm.mem rootPa a f → ∃ p, (p, f) ∈ l.given ∧ p % 2 ^ 39 = pageFloor a % 2 ^ 39

lemma Sound.ne_zero (h : Sound s0 rootPa l data) (hf : f ∈ data) : f ≠ 0 := by
  obtain ⟨i, hi, rfl, -⟩ := h.space.allocated hf
  have hle := h.space.valid.bitmap_le
  unfold Pmm.idxToPa
  omega

/-- `translate_user` finds nothing exactly where nothing is mapped for the user. -/
theorem Sound.translateUser_eq_zero_iff (h : Sound s0 rootPa l data) (a : ℕ) :
    translateUser l.mm.mem rootPa (pageFloor a) = 0 ↔ ∀ f, ¬ UserFrame l.mm.mem rootPa a f := by
  constructor
  · intro hzero f hf
    exact h.ne_zero (h.owned.mem a f hf) (hf.translate_eq.1.symm.trans hzero)
  · intro hnone
    by_contra hne
    exact hnone _ (userFrame_of_translateUser hne)

/-- The pages of `pages` have been mapped from `l` to `l'`; every other page is as before. -/
structure Extended (s0 : Mm) (rootPa : ℕ) (l l' : Loader) (data data' : Multiset ℕ)
    (pages : Set ℕ) : Prop where
  sound : Sound s0 rootPa l' data'
  le : data ≤ data'
  mapping_eq : ∀ a, pageFloor a % 2 ^ 39 ∉ pages →
    mapping l'.mm.mem rootPa (pageFloor a) = mapping l.mm.mem rootPa (pageFloor a)
  view_eq : ∀ a, pageFloor a % 2 ^ 39 ∉ pages → view l'.mm.mem rootPa a = view l.mm.mem rootPa a

lemma Extended.frame_iff (h : Extended s0 rootPa l l' data data' pages) (a : ℕ)
    (ha : pageFloor a % 2 ^ 39 ∉ pages) (f : ℕ) :
    UserFrame l'.mm.mem rootPa a f ↔ UserFrame l.mm.mem rootPa a f := by
  unfold UserFrame
  rw [h.mapping_eq a ha]

lemma Extended.refl (h : Sound s0 rootPa l data) (pages : Set ℕ) : Extended s0 rootPa l l data data pages :=
  ⟨h, le_rfl, fun _ _ => rfl, fun _ _ => rfl⟩

lemma Extended.trans (h : Extended s0 rootPa l l' data data' pages)
    (h' : Extended s0 rootPa l' l'' data' data'' pages') :
    Extended s0 rootPa l l'' data data'' (pages ∪ pages') where
  sound := h'.sound
  le := h.le.trans h'.le
  mapping_eq a ha := by
    rw [mem_union, not_or] at ha
    rw [h'.mapping_eq a ha.2, h.mapping_eq a ha.1]
  view_eq a ha := by
    rw [mem_union, not_or] at ha
    rw [h'.view_eq a ha.2, h.view_eq a ha.1]

lemma Extended.mono (h : Extended s0 rootPa l l' data data' pages)
    (hsub : pages ⊆ pages') : Extended s0 rootPa l l' data data' pages' where
  sound := h.sound
  le := h.le
  mapping_eq a ha := h.mapping_eq a fun hmem => ha (hsub hmem)
  view_eq a ha := h.view_eq a fun hmem => ha (hsub hmem)

/-! ### A new page -/

/-- The flags of a page for the user. -/
structure UserFlags (flags : ℕ) : Prop where
  fits : flags < 2 ^ 54
  /-- The flags of a leaf stay below its page number. -/
  lt : flags &&& pteLeaf ≠ 0 → flags < 2 ^ 10
  user : flags &&& pteU ≠ 0

/-- A page is obtained for `va` and mapped there. -/
def mapFresh (rootPa va flags : ℕ) : LoadM Unit := do
  let pagePa ← takePage va
  onMm (mapOne rootPa va pagePa flags 0)

lemma mapFresh_cases_of_space (h : Space s0 rootPa l.mm data) (hval : va % pageSize = 0)
    (hfits : flags < 2 ^ 54) :
    (∃ s' f, mapFresh rootPa va flags l = .ok () { l with mm := s', given := l.given ++ [(va, f)] } ∧
      NewPage s0 rootPa l.mm s' data (va % 2 ^ 39) flags f) ∨
    ∃ e l', mapFresh rootPa va flags l = .error e l' ∧ l.mm.pmm.freePages ≤ 3 := by
  have hval' : va % 2 ^ 39 % pageSize = 0 := by
    rwa [mod_mod_of_dvd _ (by decide)]
  rcases h.mapNew_cases (mod_lt va (by decide)) hval' hfits with
    ⟨f, s1, s', halloc, hone, hn⟩ | ⟨hfree, herr | ⟨f, s1, s', halloc, hone⟩⟩
  · rw [mapOne_mod] at hone
    refine .inl ⟨s', f, ?_, hn⟩
    rw [mapFresh, bind_of_ok (takePage_of_ok halloc)]
    exact onMm_of_ok hone
  · exact .inr ⟨_, _, bind_of_error (bind_of_error (onMm_of_error herr)), hfree⟩
  · rw [mapOne_mod] at hone
    refine .inr ⟨.err .noMem, { l with mm := s', given := l.given ++ [(va, f)] }, ?_, hfree⟩
    rw [mapFresh, bind_of_ok (takePage_of_ok halloc)]
    exact onMm_of_error hone

/-- A new page is mapped at `va` for the user, or memory runs out. -/
theorem mapFresh_cases (h : Sound s0 rootPa l data) (hval : va % pageSize = 0) (hflags : UserFlags flags) :
    (∃ l' f, mapFresh rootPa va flags l = .ok () l' ∧
      NewPage s0 rootPa l.mm l'.mm data (va % 2 ^ 39) flags f ∧
      Extended s0 rootPa l l' data (f ::ₘ data) {va % 2 ^ 39}) ∨
    ∃ e l', mapFresh rootPa va flags l = .error e l' ∧ l.mm.pmm.freePages ≤ 3 := by
  have hval' : va % 2 ^ 39 % pageSize = 0 := by
    rwa [mod_mod_of_dvd _ (by decide)]
  rcases mapFresh_cases_of_space h.space hval hflags.fits with ⟨s', f, hok, hn⟩ | herr
  swap
  · exact .inr herr
  have hown := hn.owned hval' hflags.lt hflags.user h.owned
  have hiff := hn.userFrame_iff hval' hflags.lt hflags.user
  refine .inl ⟨_, f, hok, hn, ⟨⟨hn.space, hown, fun x hx => ?_, fun a g hg => ?_⟩,
    Multiset.le_cons_self data f, fun a ha => ?_, fun a ha => ?_⟩⟩
  · obtain ⟨g, hg, hxg⟩ := h.written x hx
    exact ⟨g, Multiset.mem_cons_of_mem hg, hxg⟩
  · rw [hiff a g] at hg
    split_ifs at hg with heq
    · refine ⟨va, ?_, heq.symm⟩
      rw [hg.2]
      exact mem_append_right _ (mem_singleton_self _)
    · obtain ⟨p, hp, hpa⟩ := h.given a g hg
      exact ⟨p, mem_append_left _ hp, hpa⟩
  · rw [mem_singleton_iff] at ha
    rw [hn.mapping_pageFloor hval', if_neg ha]
  · rw [mem_singleton_iff] at ha
    exact hn.view_of_ne hval' hflags.lt hflags.user h.owned ha

/-! ### The pages of a segment -/

/-- The pages of `pages` have been mapped where they were missing. -/
structure Filled (s0 : Mm) (rootPa flags : ℕ) (l l' : Loader) (data data' : Multiset ℕ)
    (pages : Set ℕ) : Prop extends Extended s0 rootPa l l' data data' pages where
  /-- A page that was mapped is kept, with its contents. -/
  kept : ∀ a f, UserFrame l.mm.mem rootPa a f →
    UserFrame l'.mm.mem rootPa a f ∧ view l'.mm.mem rootPa a = view l.mm.mem rootPa a
  /-- No other page is mapped, and none at all if the flags are not those of a leaf. -/
  only : ∀ a f, UserFrame l'.mm.mem rootPa a f →
    UserFrame l.mm.mem rootPa a f ∨ (flags &&& pteLeaf ≠ 0 ∧ pageFloor a % 2 ^ 39 ∈ pages)
  /-- The pages are mapped afterwards, if the flags are those of a leaf. -/
  covered : flags &&& pteLeaf ≠ 0 → ∀ a, pageFloor a % 2 ^ 39 ∈ pages → ∃ f, UserFrame l'.mm.mem rootPa a f
  /-- A new page is zeroed. -/
  zero : ∀ a, (∀ f, ¬ UserFrame l.mm.mem rootPa a f) → ∀ f, UserFrame l'.mm.mem rootPa a f →
    view l'.mm.mem rootPa a = some 0

lemma Filled.trans (h : Filled s0 rootPa flags l l' data data' pages)
    (h' : Filled s0 rootPa flags l' l'' data' data'' pages') :
    Filled s0 rootPa flags l l'' data data'' (pages ∪ pages') where
  toExtended := h.toExtended.trans h'.toExtended
  kept a f hf := by
    obtain ⟨hf', hview⟩ := h.kept a f hf
    obtain ⟨hf'', hview'⟩ := h'.kept a f hf'
    exact ⟨hf'', hview'.trans hview⟩
  only a f hf := by
    rcases h'.only a f hf with hf' | ⟨hleaf, hmem⟩
    · refine (h.only a f hf').imp_right fun ⟨hleaf, hmem⟩ => ⟨hleaf, .inl hmem⟩
    · exact .inr ⟨hleaf, .inr hmem⟩
  covered hleaf a ha := by
    rcases ha with ha | ha
    · obtain ⟨f, hf⟩ := h.covered hleaf a ha
      exact ⟨f, (h'.kept a f hf).1⟩
    · exact h'.covered hleaf a ha
  zero a hnone f hf := by
    by_cases hex : ∃ g, UserFrame l'.mm.mem rootPa a g
    · obtain ⟨g, hg⟩ := hex
      rw [(h'.kept a g hg).2]
      exact h.zero a hnone g hg
    · rw [not_exists] at hex
      exact h'.zero a hex f hf

lemma mapSegmentPage_eq (rootPa flags p : ℕ) (l : Loader) : mapSegmentPage rootPa flags p l =
      if translateUser l.mm.mem rootPa p = 0 then mapFresh rootPa p flags l else .ok () l := by
  unfold mapSegmentPage
  rw [get_bind]
  split_ifs
  · rfl
  · rfl

lemma mapSegmentPage_cases (h : Sound s0 rootPa l data) (hflags : UserFlags flags) (va : ℕ) :
    (∃ l' data', mapSegmentPage rootPa flags (pageFloor va) l = .ok () l' ∧
      Filled s0 rootPa flags l l' data data' {pageFloor va % 2 ^ 39} ∧
      l.mm.pmm.freePages ≤ l'.mm.pmm.freePages + 3) ∨
    ∃ e l', mapSegmentPage rootPa flags (pageFloor va) l = .error e l' ∧
      l.mm.pmm.freePages ≤ 3 := by
  rw [mapSegmentPage_eq]
  have hval := pageFloor_mod va
  have hval' := pageFloor_mod_two_pow va
  -- the pages that agree up to bit 39 are mapped alike
  have halias : ∀ {m : Memory} {a f : ℕ}, pageFloor a % 2 ^ 39 = pageFloor va % 2 ^ 39 →
      (UserFrame m rootPa a f ↔ UserFrame m rootPa va f) := by
    intro m a f heq
    unfold UserFrame
    rw [← mapping_mod m rootPa (pageFloor a), heq, mapping_mod]
  by_cases hzero : translateUser l.mm.mem rootPa (pageFloor va) = 0
  · rw [if_pos hzero]
    have hnone := (h.translateUser_eq_zero_iff va).mp hzero
    rcases mapFresh_cases h hval hflags with ⟨l', f, hok, hn, hext⟩ | ⟨e, l', herr, hfree⟩
    swap
    · exact .inr ⟨e, l', herr, hfree⟩
    have hiff := hn.userFrame_iff hval' hflags.lt hflags.user
    refine .inl ⟨l', f ::ₘ data, hok, ⟨hext, fun a g hg => ?_, fun a g hg => ?_,
      fun hleaf a ha => ?_, fun a hnot g hg => ?_⟩, hn.free_le⟩
    · have hne : pageFloor a % 2 ^ 39 ∉ ({pageFloor va % 2 ^ 39} : Set ℕ) := fun heq =>
        hnone g ((halias heq).mp hg)
      exact ⟨(hext.frame_iff a hne g).mpr hg, hext.view_eq a hne⟩
    · rw [hiff a g] at hg
      split_ifs at hg with heq
      · exact .inr ⟨hg.1, heq⟩
      · exact .inl hg
    · rw [mem_singleton_iff] at ha
      refine ⟨f, (hiff a f).mpr ?_⟩
      rw [if_pos ha]
      exact ⟨hleaf, rfl⟩
    · by_cases heq : pageFloor a % 2 ^ 39 = pageFloor va % 2 ^ 39
      · exact hn.view_eq_zero hval' hflags.lt hflags.user heq hg
      · rw [hiff a g, if_neg heq] at hg
        exact absurd hg (hnot g)
  · rw [if_neg hzero]
    refine .inl ⟨l, data, rfl, ⟨Extended.refl h _, fun a g hg => ⟨hg, rfl⟩,
      fun a g hg => .inl hg, fun _ a ha => ?_, fun a hnot g hg => absurd hg (hnot g)⟩,
      le_add_right _ 3⟩
    exact ⟨_, (halias ha).mpr (userFrame_of_translateUser hzero)⟩

/-- The pages that the addresses from `va` to `stop` lie in, up to bit 39. -/
def pagesBetween (va stop : ℕ) : Set ℕ := {q | ∃ a, va ≤ a ∧ a < stop ∧ pageFloor a % 2 ^ 39 = q}

/-- The number of these pages. -/
def pageCount (va stop : ℕ) : ℕ :=
  if va < stop then (stop - pageFloor va + (pageSize - 1)) / pageSize else 0

lemma pagesBetween_eq (hlt : va < stop) : pagesBetween va stop =
    {pageFloor va % 2 ^ 39} ∪ pagesBetween (min (pageFloor va + pageSize) stop) stop := by
  ext q
  constructor
  · rintro ⟨a, hlo, hhi, rfl⟩
    by_cases hnext : a < pageFloor va + pageSize
    · have hsame : pageFloor a = pageFloor va := by
        unfold pageFloor pageSize at *
        omega
      left
      rw [mem_singleton_iff, hsame]
    · exact .inr ⟨a, by omega, hhi, rfl⟩
  · rintro (hq | ⟨a, hlo, hhi, rfl⟩)
    · rw [mem_singleton_iff] at hq
      exact ⟨va, le_rfl, hlt, hq.symm⟩
    · refine ⟨a, ?_, hhi, rfl⟩
      have hfloor := pageFloor_add va
      have hmod : va % pageSize < pageSize := mod_lt va (by decide)
      omega

lemma pageCount_eq (hlt : va < stop) :
    pageCount va stop = pageCount (min (pageFloor va + pageSize) stop) stop + 1 := by
  unfold pageCount
  rw [if_pos hlt]
  have hfloor := pageFloor_add va
  by_cases hlast : pageFloor va + pageSize < stop
  · rw [min_eq_left hlast.le, if_pos hlast]
    unfold pageFloor pageSize at *
    omega
  · rw [min_eq_right (not_lt.mp hlast), if_neg (lt_irrefl stop)]
    unfold pageSize at *
    omega

lemma wadd_pageFloor (hlt : va < stop) (hstop : stop + pageSize ≤ wordSize) :
    wadd (pageFloor va) pageSize = pageFloor va + pageSize := by
  refine wadd_of_lt ?_
  have hle := pageFloor_le va
  omega

lemma mapSegmentPages_cases (hflags : UserFlags flags) (hstop : stop + pageSize ≤ wordSize) :
    ∀ (fuel va : ℕ) (l : Loader) (data : Multiset ℕ), Sound s0 rootPa l data →
      (∃ l' data', mapSegmentPages rootPa flags stop fuel va l = .ok () l' ∧
        Filled s0 rootPa flags l l' data data' (pagesBetween va stop) ∧
        l.mm.pmm.freePages ≤ l'.mm.pmm.freePages + 3 * pageCount va stop) ∨
      ∃ e l', mapSegmentPages rootPa flags stop fuel va l = .error e l' ∧
        (fuel ≤ pageCount va stop ∨ l.mm.pmm.freePages ≤ 3 * pageCount va stop)
  | 0, va, l, data, h => .inr ⟨.hang, l, rfl, .inl (zero_le _)⟩
  | fuel + 1, va, l, data, h => by
    rw [mapSegmentPages]
    by_cases hlt : va < stop
    swap
    · rw [if_neg hlt]
      have hempty : pagesBetween va stop = ∅ := by
        ext q
        constructor
        · rintro ⟨a, hlo, hhi, -⟩
          omega
        · exact fun hq => hq.elim
      refine .inl ⟨l, data, rfl, ⟨Extended.refl h _, fun a f hf => ⟨hf, rfl⟩,
        fun a f hf => .inl hf, fun _ a ha => ?_, fun a hnone f hf => absurd hf (hnone f)⟩,
        le_add_right _ _⟩
      rw [hempty] at ha
      exact ha.elim
    rw [if_pos hlt, pagesBetween_eq hlt, pageCount_eq hlt, wadd_pageFloor hlt hstop]
    rcases mapSegmentPage_cases h hflags va with ⟨l1, data1, hok, hfill, hfree⟩ | ⟨e, l1, herr, hfree⟩
    swap
    · refine .inr ⟨e, l1, bind_of_error herr, .inr ?_⟩
      omega
    rw [bind_of_ok hok]
    rcases mapSegmentPages_cases hflags hstop fuel _ l1 data1 hfill.sound with
      ⟨l', data', hok', hfill', hfree'⟩ | ⟨e, l', herr, hwhy⟩
    · refine .inl ⟨l', data', hok', hfill.trans hfill', ?_⟩
      omega
    · refine .inr ⟨e, l', herr, ?_⟩
      rcases hwhy with hfuel | hfree'
      · exact .inl (by omega)
      · exact .inr (by omega)

lemma mapSegmentPages_ne_ok (hstop : wordSize < stop + pageSize) (hword : stop ≤ wordSize) :
    ∀ (fuel va : ℕ) (l l' : Loader), va < stop →
      mapSegmentPages rootPa flags stop fuel va l ≠ .ok () l'
  | 0, va, l, l', _, hok => by cases hok
  | fuel + 1, va, l, l', hlt, hok => by
    rw [mapSegmentPages, if_pos hlt] at hok
    obtain ⟨u, l1, -, hrest⟩ := bind_eq_ok_iff.mp hok
    refine mapSegmentPages_ne_ok hstop hword fuel _ l1 l' ?_ hrest
    refine lt_of_le_of_lt (min_le_left _ _) ?_
    -- either the next page is not the last one, or the address wraps to zero
    have hfloor := pageFloor_mod va
    have hle := pageFloor_le va
    unfold wadd wordSize at *
    unfold pageSize at *
    omega

/-! ### Copying bytes -/

/-- Bytes have been written to pages of the user: no page has been taken, and the page table is as
before. -/
structure Touched (s0 : Mm) (rootPa : ℕ) (data : Multiset ℕ) (l l' : Loader) : Prop where
  sound : Sound s0 rootPa l' data
  pmm_eq : l'.mm.pmm = l.mm.pmm
  mapping_eq : ∀ a, mapping l'.mm.mem rootPa a = mapping l.mm.mem rootPa a

lemma Touched.refl (h : Sound s0 rootPa l data) : Touched s0 rootPa data l l :=
  ⟨h, rfl, fun _ => rfl⟩

lemma Touched.trans (h : Touched s0 rootPa data l l')
    (h' : Touched s0 rootPa data l' l'') : Touched s0 rootPa data l l'' :=
  ⟨h'.sound, h'.pmm_eq.trans h.pmm_eq, fun a => (h'.mapping_eq a).trans (h.mapping_eq a)⟩

lemma Touched.userFrame_iff (h : Touched s0 rootPa data l l') (a f : ℕ) :
    UserFrame l'.mm.mem rootPa a f ↔ UserFrame l.mm.mem rootPa a f := by
  unfold UserFrame
  rw [h.mapping_eq]

/-- The bytes `bytes` have been written from the virtual address `va` on. -/
structure Copied (s0 : Mm) (rootPa : ℕ) (data : Multiset ℕ) (l l' : Loader) (va : ℕ)
    (bytes : List UInt8) : Prop extends Touched s0 rootPa data l l' where
  view_eq : (bytes ≠ [] → va + bytes.length ≤ 2 ^ 39) → ∀ a < 2 ^ 39, view l'.mm.mem rootPa a =
    if va ≤ a ∧ a < va + bytes.length then bytes[a - va]? else view l.mm.mem rootPa a

lemma not_between_nil (va a : ℕ) : ¬ (va ≤ a ∧ a < va + ([] : List UInt8).length) := by
  rw [length_nil]
  omega

lemma Copied.nil (h : Sound s0 rootPa l data) (va : ℕ) : Copied s0 rootPa data l l va [] where
  toTouched := Touched.refl h
  view_eq _ a _ := by rw [if_neg (not_between_nil va a)]

lemma Copied.append {bytes' : List UInt8} (h : Copied s0 rootPa data l l' va bytes)
    (h' : Copied s0 rootPa data l' l'' (va + bytes.length) bytes') :
    Copied s0 rootPa data l l'' va (bytes ++ bytes') where
  toTouched := h.toTouched.trans h'.toTouched
  view_eq hle a ha := by
    rw [length_append] at hle
    have hle1 : bytes ≠ [] → va + bytes.length ≤ 2 ^ 39 := fun hne => by
      have := hle (append_ne_nil_of_left_ne_nil hne bytes')
      omega
    have hle2 : bytes' ≠ [] → va + bytes.length + bytes'.length ≤ 2 ^ 39 := fun hne => by
      have := hle (append_ne_nil_of_right_ne_nil bytes hne)
      omega
    rw [h'.view_eq hle2 a ha, h.view_eq hle1 a ha, length_append]
    by_cases hsecond : va + bytes.length ≤ a ∧ a < va + bytes.length + bytes'.length
    · rw [if_pos hsecond, if_pos (by omega), getElem?_append_right (by omega)]
      congr 1
      omega
    rw [if_neg hsecond]
    by_cases hfirst : va ≤ a ∧ a < va + bytes.length
    · rw [if_pos hfirst, if_pos (by omega), getElem?_append_left (by omega)]
    · rw [if_neg hfirst, if_neg (by omega)]

/-- Every page of the addresses from `va` to `stop` is mapped for the user. -/
def Covered (m : Memory) (rootPa va stop : ℕ) : Prop :=
  ∀ a, va ≤ a → a < stop → ∃ f, UserFrame m rootPa a f

lemma Covered.mono {m : Memory} {stop' : ℕ} (h : Covered m rootPa va stop) (hlo : va ≤ va')
    (hhi : stop' ≤ stop) : Covered m rootPa va' stop' :=
  fun a ha ha' => h a (hlo.trans ha) (ha'.trans_le hhi)

lemma Covered.touched (h : Covered l.mm.mem rootPa va stop) (ht : Touched s0 rootPa data l l') :
    Covered l'.mm.mem rootPa va stop := fun a ha ha' => by
  obtain ⟨f, hf⟩ := h a ha ha'
  exact ⟨f, (ht.userFrame_iff a f).mpr hf⟩

lemma poke_copied (h : Sound s0 rootPa l data) (hf : UserFrame l.mm.mem rootPa va f)
    (bytes : List UInt8) (hlen : va % pageSize + bytes.length ≤ pageSize) :
    ∃ l', poke (f + va % pageSize) bytes l = .ok () l' ∧ Copied s0 rootPa data l l' va bytes := by
  obtain ⟨hspace, hmapping, hpage⟩ := h.space.write h.owned hf hlen
  have hframe : ∀ {a g : ℕ}, UserFrame (l.mm.mem.write (f + va % pageSize) bytes) rootPa a g →
      UserFrame l.mm.mem rootPa a g := fun ⟨fl, hfl, hU⟩ => ⟨fl, (hmapping _).symm.trans hfl, hU⟩
  refine ⟨_, rfl, ⟨⟨hspace, ⟨fun a g hg => h.owned.mem a g (hframe hg),
    fun a b g ha hb => h.owned.inj a b g (hframe ha) (hframe hb)⟩, fun x hx => ?_,
    fun a g hg => h.given a g (hframe hg)⟩, rfl, hmapping⟩, fun hle a ha => ?_⟩
  · rcases mem_append.mp hx with hx | hx
    · exact h.written x hx
    · obtain ⟨i, hi, rfl⟩ := mem_map.mp hx
      exact ⟨f, h.owned.mem va f hf, hpage i (mem_range.mp hi)⟩
  · by_cases hnil : bytes = []
    · subst hnil
      rw [if_neg (not_between_nil va a)]
      exact congrArg (view · rootPa a) (funext fun x =>
        Memory.write_apply_of_notMem fun hmem => absurd hmem.2 (by simpa using hmem.1))
    · have hpos := length_pos_of_ne_nil hnil
      have hva := hle hnil
      exact view_write h.space h.owned hf hlen (by omega) ha

lemma putBytes_copied : ∀ (turns va : ℕ) (bytes : List UInt8) (l : Loader),
    bytes.length ≤ turns → Sound s0 rootPa l data → va + bytes.length < wordSize →
    Covered l.mm.mem rootPa va (va + bytes.length) →
    ∃ l', putBytes rootPa turns va bytes l = .ok () l' ∧ Copied s0 rootPa data l l' va bytes
  | 0, va, bytes, l, hlen, h, _, _ => by
    have hnil : bytes = [] := eq_nil_of_length_eq_zero (le_zero.mp hlen)
    subst hnil
    exact ⟨l, rfl, Copied.nil h va⟩
  | _ + 1, va, [], l, _, h, _, _ => ⟨l, rfl, Copied.nil h va⟩
  | turns + 1, va, b :: bs, l, hlen, h, hword, hcov => by
    have hmod : va % pageSize < pageSize := mod_lt va (by decide)
    obtain ⟨f, hf⟩ := hcov va le_rfl (Nat.lt_add_of_pos_right (Nat.succ_pos bs.length))
    rw [putBytes, get_bind, hf.translate_eq.2]
    set chunk := min (b :: bs).length (pageSize - va % pageSize) with hchunk
    have hpos : 0 < chunk := lt_min (succ_pos _) (by omega)
    have hle : chunk ≤ (b :: bs).length := min_le_left _ _
    have htake : ((b :: bs).take chunk).length = chunk := length_take_of_le hle
    obtain ⟨l1, hok, hcopy⟩ := poke_copied h hf ((b :: bs).take chunk) (by
      rw [htake]
      have := min_le_right (b :: bs).length (pageSize - va % pageSize)
      omega)
    have hnext : wadd va chunk = va + chunk := wadd_of_lt (by omega)
    have hdrop : ((b :: bs).drop chunk).length = (b :: bs).length - chunk := length_drop
    rw [bind_of_ok hok, hnext]
    obtain ⟨l', hok', hcopy'⟩ := putBytes_copied turns (va + chunk) ((b :: bs).drop chunk) l1
      (by rw [hdrop]; omega) hcopy.sound (by rw [hdrop]; omega)
      ((hcov.touched hcopy.toTouched).mono (le_add_right _ _) (by rw [hdrop]; omega))
    refine ⟨l', hok', ?_⟩
    rw [← htake] at hcopy'
    have happend := hcopy.append hcopy'
    rwa [htake, take_append_drop] at happend

lemma length_slice (image : Memory) (off n : ℕ) : (slice image off n).length = n := by
  rw [slice, length_map, length_range]

lemma slice_append (image : Memory) (off n k : ℕ) :
    slice image off n ++ slice image (off + n) k = slice image off (n + k) := by
  unfold slice
  rw [range_add, map_append, map_map]
  refine congrArg (_ ++ ·) (map_congr_left fun i _ => ?_)
  rw [Function.comp_apply, add_assoc]

lemma slice_zero (image : Memory) (off : ℕ) : slice image off 0 = [] := rfl

lemma Copied.of_nil (h : Copied s0 rootPa data l l' va []) : Copied s0 rootPa data l l' va' [] where
  toTouched := h.toTouched
  view_eq _ a ha := by
    rw [h.view_eq (fun hne => absurd rfl hne) a ha, if_neg (not_between_nil va a),
      if_neg (not_between_nil va' a)]

lemma ite_bind {c : Prop} [Decidable c] (x : LoadM Unit) (k : Unit → LoadM Unit) :
    (if c then x >>= k else k ()) = (if c then x else pure ()) >>= k := by
  split_ifs
  · rfl
  · rfl

/-- The loop of `copy_raw_to_pages`: it copies what is left of the data. -/
theorem copyRawLoop_copied {seg : OnxSegment} (hstop : stop + pageSize ≤ wordSize)
    (hsize : seg.filesz < wordSize) : ∀ (fuel va filePos : ℕ) (l : Loader),
    pageCount va stop < fuel → Sound s0 rootPa l data → filePos ≤ seg.filesz →
    Covered l.mm.mem rootPa va (va + min (stop - va) (seg.filesz - filePos)) →
    ∃ l' bytes, copyRawLoop rootPa seg image stop fuel va filePos l = .ok () l' ∧
      Copied s0 rootPa data l l' va bytes ∧
      bytes.length = min (stop - va) (seg.filesz - filePos) ∧
      (seg.offset + seg.filesz < wordSize →
        bytes = slice image (seg.offset + filePos) (min (stop - va) (seg.filesz - filePos)))
  | 0, _, _, _, hfuel, _, _, _ => absurd hfuel (not_lt_zero _)
  | fuel + 1, va, filePos, l, hfuel, h, hpos, hcov => by
    rw [copyRawLoop]
    by_cases hlt : va < stop
    swap
    · rw [if_neg hlt]
      have hzero : min (stop - va) (seg.filesz - filePos) = 0 := by omega
      rw [hzero, slice_zero]
      exact ⟨l, [], rfl, Copied.nil h va, rfl, fun _ => rfl⟩
    rw [if_pos hlt, get_bind]
    rw [pageCount_eq hlt] at hfuel
    have hfloor := pageFloor_add va
    have hmod : va % pageSize < pageSize := mod_lt va (by decide)
    set stop' := min (pageFloor va + pageSize) stop with hstop'
    have hlt' : va < stop' := lt_min (by omega) hlt
    have hle' : stop' ≤ stop := min_le_right _ _
    have hpage : stop' ≤ pageFloor va + pageSize := min_le_left _ _
    set len := min (stop' - va) (seg.filesz - filePos) with hlen
    have hcopy : ∃ l1, (if 0 < len then
          poke (translateUser l.mm.mem rootPa (pageFloor va) + va % pageSize)
            (slice image (wadd seg.offset filePos) len)
        else pure ()) l = .ok () l1 ∧
        Copied s0 rootPa data l l1 va (slice image (wadd seg.offset filePos) len) := by
      by_cases hzero : 0 < len
      · obtain ⟨f, hf⟩ := hcov va le_rfl (by omega)
        rw [if_pos hzero, hf.translate_eq.1]
        refine poke_copied h hf _ ?_
        rw [length_slice]
        omega
      · have hzero' : len = 0 := by omega
        rw [if_neg hzero, hzero', slice_zero]
        exact ⟨l, rfl, Copied.nil h va⟩
    obtain ⟨l1, hok, hcopied⟩ := hcopy
    have hle : filePos + len ≤ seg.filesz := by omega
    have hfile : wadd filePos len = filePos + len := wadd_of_lt (lt_of_le_of_lt hle hsize)
    have hcov' : Covered l1.mm.mem rootPa stop'
        (stop' + min (stop - stop') (seg.filesz - (filePos + len))) := fun a hlo hhi =>
      hcov.touched hcopied.toTouched a (by omega) (by omega)
    obtain ⟨l', bytes, hok', hcopied', hbytes, hslice⟩ :=
      copyRawLoop_copied hstop hsize fuel stop' (filePos + len) l1 (by omega) hcopied.sound hle hcov'
    have hsum : min (stop - va) (seg.filesz - filePos) =
        len + min (stop - stop') (seg.filesz - (filePos + len)) := by omega
    rw [wadd_pageFloor hlt hstop, ← hstop', wsub_of_le hlt'.le, ← hlen, hfile]
    refine ⟨l', slice image (wadd seg.offset filePos) len ++ bytes, ?_, hcopied.append ?_, ?_,
      fun hword => ?_⟩
    · rw [ite_bind, bind_of_ok hok]
      exact hok'
    · -- either the page is filled, or nothing is left
      rw [length_slice]
      by_cases hfull : va + len = stop'
      · rwa [hfull]
      · have hnil : bytes = [] := eq_nil_of_length_eq_zero (by omega)
        rw [hnil] at hcopied' ⊢
        exact hcopied'.of_nil
    · rw [length_append, length_slice, hbytes, hsum]
    · have hoff : wadd seg.offset filePos = seg.offset + filePos := wadd_of_lt (by omega)
      rw [hslice hword, hoff, hsum, ← slice_append, add_assoc]

/-- The loop of `decompress_to_pages`, whatever the compressed data is. -/
theorem decompressLoop_touched {src : Memory} {compEnd fileEnd : ℕ} (hword : fileEnd < wordSize) :
    ∀ (turns inOff va : ℕ) (l l' : Loader), Sound s0 rootPa l data →
      Covered l.mm.mem rootPa va fileEnd →
      decompressLoop rootPa src compEnd fileEnd turns inOff va l = .ok () l' →
      Touched s0 rootPa data l l'
  | 0, inOff, va, l, l', h, _, hok => by
    cases hok
    exact Touched.refl h
  | turns + 1, inOff, va, l, l', h, hcov, hok => by
    rw [decompressLoop] at hok
    by_cases hgo : inOff < compEnd ∧ va < fileEnd
    swap
    · rw [if_neg hgo] at hok
      cases hok
      exact Touched.refl h
    rw [if_pos hgo] at hok
    -- both branches write some bytes and go on behind them
    have hstep : ∀ (bytes : List UInt8) (n next : ℕ), bytes.length = n → va + n ≤ fileEnd →
        (putBytes rootPa n va bytes >>= fun _ =>
          decompressLoop rootPa src compEnd fileEnd turns next (wadd va n)) l = .ok () l' →
        Touched s0 rootPa data l l' := by
      intro bytes n next hlen hle hrun
      obtain ⟨l1, hput, hcopy⟩ := putBytes_copied n va bytes l hlen.le h (by omega)
        (hcov.mono le_rfl (by omega))
      rw [bind_of_ok hput, wadd_of_lt (by omega)] at hrun
      refine hcopy.toTouched.trans (decompressLoop_touched hword turns next (va + n) l1 l' hcopy.sound
        ((hcov.touched hcopy.toTouched).mono (le_add_right _ _) le_rfl) hrun)
    dsimp only at hok
    split_ifs at hok
    · cases hok
    · exact hstep _ _ _ length_replicate (by omega) hok
    · cases hok
    · exact hstep _ _ _ (length_slice _ _ _) (by omega) hok

/-! ### The stack and the heap -/

lemma mapNewPages_succ (rootPa n va : ℕ) (l : Loader) : mapNewPages rootPa (n + 1) va l =
      (mapFresh rootPa va userFlags >>= fun _ => mapNewPages rootPa n (va + pageSize)) l := by
  rw [mapNewPages, mapFresh, bind_assoc]

lemma userFlags_userFlags : UserFlags userFlags := ⟨by decide, fun _ => by decide, by decide⟩

lemma mapNewPages_cases : ∀ (n va : ℕ) (l : Loader) (data : Multiset ℕ), Sound s0 rootPa l data →
    va % pageSize = 0 → va + n * pageSize ≤ 2 ^ 39 →
    (∃ l' data', mapNewPages rootPa n va l = .ok () l' ∧
      Extended s0 rootPa l l' data data' (Set.Ico va (va + n * pageSize)) ∧
      l.mm.pmm.freePages ≤ l'.mm.pmm.freePages + 3 * n) ∨
    ∃ e l', mapNewPages rootPa n va l = .error e l' ∧ l.mm.pmm.freePages ≤ 3 * n
  | 0, va, l, data, h, _, _ => .inl ⟨l, data, rfl, Extended.refl h _, le_add_right _ _⟩
  | n + 1, va, l, data, h, hval, hle => by
    have hmul : (n + 1) * pageSize = n * pageSize + pageSize := succ_mul n pageSize
    have hlt : va < 2 ^ 39 := by
      unfold pageSize at *
      omega
    rw [mapNewPages_succ]
    rcases mapFresh_cases h hval userFlags_userFlags with ⟨l1, f, hok, hn, hext⟩ | ⟨e, l1, herr, hfree⟩
    swap
    · exact .inr ⟨e, l1, bind_of_error herr, by omega⟩
    rw [bind_of_ok hok]
    rw [mod_eq_of_lt hlt] at hext
    have hfree := hn.free_le
    rcases mapNewPages_cases n (va + pageSize) l1 (f ::ₘ data) hext.sound
      (by rw [add_mod_right, hval]) (by omega) with
      ⟨l', data', hok', hext', hfree'⟩ | ⟨e, l', herr, hfree'⟩
    · refine .inl ⟨l', data', hok', (hext.trans hext').mono ?_, by omega⟩
      rintro q (hq | ⟨hlo, hhi⟩)
      · rw [mem_singleton_iff] at hq
        exact ⟨by omega, by unfold pageSize at *; omega⟩
      · exact ⟨by omega, by omega⟩
    · exact .inr ⟨e, l', herr, by omega⟩

end OnyxKernel.Onx
