import OnyxKernel.Mm.Kalloc
import OnyxKernel.Mm.PageTable

/-!
# Memory calls

`sys_mmap` of `kernel/src/syscall/fs_sys3/mem.rs` with `vmm::map_anon` and `vmm::unmap`.  A call sees three
fields of the record of the current process and the memory manager.

The region of `mmap` is meant to be `[0x2000_0000, USER_HEAP_BASE)`, but `USER_HEAP_BASE` lies below its
start.  So a request is served only if its end wraps around.
-/

namespace OnyxKernel

open ByteMemory KResult Vmm

def userHeapSize : ℕ := 64 * 1024 * 1024
def userStackTop : ℕ := userTop - pageSize

/-- The lowest address of the stack. -/
def userStackBottom : ℕ := userStackTop - userStackPages * pageSize

/-- The lower end of the region of `mmap`. -/
def mmapBase : ℕ := 0x20000000

namespace Vmm

/-- The loop of `map_anon` with `n` pages left. -/
def mapAnonLoop (rootPa flags : ℕ) : (n va : ℕ) → KResult Mm Unit
  | 0, _ => pure ()
  | n + 1, va => do
    let pagePa ← Pmm.alloc
    mapOne rootPa va pagePa (flags ||| pteA ||| pteD) 0
    mapAnonLoop rootPa flags n (wadd va pageSize)

/-- `map_anon`, for a size in whole pages. -/
def mapAnon (rootPa vaddr size flags : ℕ) : KResult Mm Unit :=
  mapAnonLoop rootPa flags (size / pageSize) vaddr

/-- The loop of `unmap` with `n` pages left. -/
def unmapLoop (rootPa : ℕ) : (n va : ℕ) → KResult Mm Unit
  | 0, _ => pure ()
  | n + 1, va => do
    let p ← walk rootPa va 0 false
    let pte ← readPte p
    if pte &&& pteV ≠ 0 ∧ pte &&& pteU ≠ 0 then modify fun s => Pmm.free s (pteAddr pte)
    writePte p 0
    unmapLoop rootPa n (wadd va pageSize)

/-- `unmap`, for a size in whole pages. -/
def unmap (rootPa vaddr size : ℕ) : KResult Mm Unit := unmapLoop rootPa (size / pageSize) vaddr

end Vmm

/-- What a memory call sees: `root_pa`, `heap_brk` and `mmap_brk` of the process, and the memory manager. -/
structure UserSpace where
  rootPa : ℕ
  heapBrk : ℕ
  mmapBrk : ℕ
  mm : Mm

namespace UserSpace

def pageAlignUp (n : ℕ) : ℕ := wadd n 0xFFF / pageSize * pageSize

/-- Change the page table of the process. -/
def onTables {α : Type} (f : KResult Mm α) : KResult UserSpace α := fun s =>
  match f s.mm with
  | .ok a mm => .ok a { s with mm := mm }
  | .error e mm => .error e { s with mm := mm }

/-- The flags that `mmap` gives to pages with the protection `prot`. -/
def protFlags (prot : ℕ) : ℕ :=
  let flags := pteU ||| pteA ||| pteD
  let flags := if prot &&& 1 ≠ 0 then flags ||| pteR else flags
  let flags := if (prot >>> 1) &&& 1 ≠ 0 then flags ||| pteW else flags
  let flags := if (prot >>> 2) &&& 1 ≠ 0 then flags ||| pteX else flags
  if flags &&& pteR = 0 ∧ flags &&& pteX = 0 then flags ||| pteR else flags

/-- Take the next `size` bytes at `mmap_brk`. -/
def bump (size : ℕ) : KResult UserSpace ℕ := fun s =>
  .ok s.mmapBrk { s with mmapBrk := wadd s.mmapBrk size }

/-- The address at which `mmap` maps.  An error of `unmap` is ignored. -/
def mmapPlace (addr size flags : ℕ) : KResult UserSpace ℕ := fun s =>
  if addr = 0 then bump size s
  else if addr % pageSize ≠ 0 then .error .inval s
  else if flags &&& 0x10 ≠ 0 then
    .ok addr { s with mm := Triple.final (unmap s.rootPa addr size s.mm) }
  else if translateUser s.mm.mem s.rootPa addr ≠ 0 then bump size s
  else .ok addr s

/-- The size of a region for `length` bytes, in whole pages. -/
def regionSize (length : ℕ) : ℕ := pageAlignUp (max length 4096)

/-- `sys_mmap`. -/
def mmap (addr length prot flags : ℕ) : KResult UserSpace ℕ :=
  if length = 0 then throw .inval
  else do
    let vaddr ← mmapPlace addr (regionSize length) flags
    if vaddr < mmapBase ∨ userHeapBase < wadd vaddr (regionSize length) then throw .noMem
    else do
      onTables (mapAnon (← get).rootPa vaddr (regionSize length) (protFlags prot))
      return vaddr

/-! ### What `mmap` promises -/

/-- The region is aligned and below the end of user space, it does not meet the heap, the stack and the pages
that were mapped (unless `MAP_FIXED` is set), and it consists of zeroed pages. -/
structure SafeRegion (s s' : UserSpace) (v size flags : ℕ) : Prop where
  aligned : v % pageSize = 0
  le_top : v + size ≤ userTop
  heap : v + size ≤ userHeapBase ∨ userHeapBase + userHeapSize ≤ v
  stack : v + size ≤ userStackBottom ∨ userStackTop ≤ v
  unused : flags &&& 0x10 = 0 → ∀ a ∈ Set.Ico v (v + size), translateUser s.mm.mem s.rootPa a = 0
  zeroed : ∀ a ∈ Set.Ico v (v + size), translateUser s'.mm.mem s.rootPa a ≠ 0 ∧
    s'.mm.mem (translateUser s'.mm.mem s.rootPa a) = 0

/-- There are enough frames for the pages of a region at `v`. -/
def HasFrames (s : UserSpace) (v length prot : ℕ) : Prop :=
  ∃ mm, mapAnon s.rootPa v (regionSize length) (protFlags prot) s.mm = .ok () mm

/-- A request without an address that can be satisfied: the region at `mmap_brk` fits below the stack. -/
def Satisfiable (s : UserSpace) (addr length prot : ℕ) : Prop :=
  addr = 0 ∧ 0 < length ∧ s.mmapBrk + (length + 4095) / 4096 * 4096 ≤ userStackBottom ∧
    s.HasFrames s.mmapBrk length prot

/-- Regions are safe, and requests that can be satisfied are. -/
def Served (s : UserSpace) (addr length prot flags : ℕ) : Prop :=
  (∀ v s', mmap addr length prot flags s = .ok v s' → SafeRegion s s' v (regionSize length) flags) ∧
    (s.Satisfiable addr length prot → ∃ v s', mmap addr length prot flags s = .ok v s')

/-- The region ends behind the last address, and the sum for its end wraps around to an address below the
heap. -/
def Wraps (s : UserSpace) (addr length prot flags : ℕ) : Prop :=
  length ≠ 0 ∧ ∃ v s1, mmapPlace addr (regionSize length) flags s = .ok v s1 ∧ mmapBase ≤ v ∧
    wordSize ≤ v + regionSize length ∧ wadd v (regionSize length) ≤ userHeapBase ∧ s1.HasFrames v length prot

variable {s s' : UserSpace} {addr length prot flags v : ℕ}

lemma wordSize_le_of_wadd_le {size : ℕ} (hbase : mmapBase ≤ v) (hend : wadd v size ≤ userHeapBase) :
    wordSize ≤ v + size := by
  by_contra hlt
  rw [wadd_of_lt (not_le.mp hlt)] at hend
  unfold mmapBase at hbase
  unfold userHeapBase at hend
  omega

lemma mmap_of_place (hlen : length ≠ 0) (hplace : mmapPlace addr (regionSize length) flags s = .ok v s') :
    mmap addr length prot flags s =
      if v < mmapBase ∨ userHeapBase < wadd v (regionSize length) then .error .noMem s'
      else (do
        onTables (mapAnon s'.rootPa v (regionSize length) (protFlags prot))
        return v) s' := by
  rw [mmap, if_neg hlen, bind_of_ok hplace]
  split_ifs <;> rfl

lemma wraps_of_mmap (hok : mmap addr length prot flags s = .ok v s') :
    s.Wraps addr length prot flags ∧ wordSize ≤ v + regionSize length := by
  have hlen : length ≠ 0 := by
    rintro rfl
    cases hok
  cases hplace : mmapPlace addr (regionSize length) flags s with
  | error e s1 =>
    rw [mmap, if_neg hlen, bind_of_error hplace] at hok
    cases hok
  | ok w s1 =>
    rw [mmap_of_place hlen hplace] at hok
    split_ifs at hok with htest
    obtain ⟨hbase, hend⟩ := not_or.mp htest
    obtain ⟨x, t, htables, hret⟩ := bind_eq_ok_iff.mp hok
    cases hret
    have hwrap := wordSize_le_of_wadd_le (not_lt.mp hbase) (not_lt.mp hend)
    refine ⟨⟨hlen, v, s1, hplace, not_lt.mp hbase, hwrap, not_lt.mp hend, ?_⟩, hwrap⟩
    unfold onTables at htables
    split at htables
    · exact ⟨_, ‹_›⟩
    · cases htables

lemma mmap_of_wraps (hwraps : s.Wraps addr length prot flags) :
    ∃ v s', mmap addr length prot flags s = .ok v s' := by
  obtain ⟨hlen, v, s1, hplace, hbase, -, hend, mm, hmap⟩ := hwraps
  refine ⟨v, { s1 with mm := mm }, ?_⟩
  rw [mmap_of_place hlen hplace, if_neg (not_or.mpr ⟨not_lt.mpr hbase, not_lt.mpr hend⟩)]
  refine bind_of_ok (a := ()) ?_
  rw [onTables, hmap]

lemma not_ok_of_satisfiable (hsat : s.Satisfiable addr length prot) :
    mmap addr length prot flags s ≠ .ok v s' := by
  obtain ⟨rfl, hpos, hfits, -⟩ := hsat
  intro hok
  obtain ⟨-, w, s1, hplace, -, hwrap, -⟩ := (wraps_of_mmap hok).1
  cases hplace
  have hsize : regionSize length ≤ (length + 4095) / 4096 * 4096 := by
    refine Nat.mul_le_mul_right _ ((Nat.div_le_div_right (Nat.mod_le _ _)).trans ?_)
    unfold pageSize
    omega
  have : userStackBottom < wordSize := by decide
  omega

/-- A request is served as it should be exactly if it can neither be satisfied nor wrap around. -/
theorem served_iff (s : UserSpace) (addr length prot flags : ℕ) : s.Served addr length prot flags ↔
      ¬s.Satisfiable addr length prot ∧ ¬s.Wraps addr length prot flags := by
  constructor
  · rintro ⟨hsafe, hserves⟩
    refine ⟨fun hsat => ?_, fun hwraps => ?_⟩
    · obtain ⟨v, s', hok⟩ := hserves hsat
      exact not_ok_of_satisfiable hsat hok
    · obtain ⟨v, s', hok⟩ := mmap_of_wraps hwraps
      have htop := (hsafe v s' hok).le_top
      have hwrap := (wraps_of_mmap hok).2
      have : userTop < wordSize := by decide
      omega
  · rintro ⟨hsat, hwraps⟩
    exact ⟨fun v s' hok => absurd (wraps_of_mmap hok).1 hwraps, fun h => absurd h hsat⟩

/-- A process with an empty page table and four MiB of free pages. -/
def fresh : UserSpace := ⟨0x80300000, userHeapBase, mmapBase, Kalloc.emptyHeap⟩

/-- One page is refused. -/
theorem not_served_onePage : ¬fresh.Served 0 4096 3 2 := by
  intro hserved
  have hframes : fresh.HasFrames mmapBase 4096 3 := by
    unfold HasFrames
    cases hmap : mapAnon fresh.rootPa mmapBase (regionSize 4096) (protFlags 3) fresh.mm with
    | ok x mm => exact ⟨mm, rfl⟩
    | error e mm =>
      have hok : (mapAnon fresh.rootPa mmapBase (regionSize 4096) (protFlags 3) fresh.mm
        matches .ok ..) = true := by decide +kernel
      rw [hmap] at hok
      cases hok
  obtain ⟨v, s', hok⟩ := hserved.2 ⟨rfl, by decide, by decide, hframes⟩
  cases hok

end UserSpace

end OnyxKernel
