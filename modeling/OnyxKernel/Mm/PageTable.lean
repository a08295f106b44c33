import OnyxKernel.Mm.Pmm

/-!
# Sv39 page tables

The page tables of `kernel/src/mm/vmm`: the entry format of `arch/regs.rs`, the walkers `translate`
and `translate_user`, `walk` with `split_leaf`, `map_one`, and `destroy_root` with `free_subtree`.
A table is a page of 512 words in physical memory, so every function here works on the same memory
as the page allocator.
-/

namespace OnyxKernel

open ByteMemory List Pmm

/-! ### Entries and addresses -/

def pteV : ℕ := 1
def pteR : ℕ := 2
def pteW : ℕ := 4
def pteX : ℕ := 8
def pteU : ℕ := 16
def pteA : ℕ := 64
def pteD : ℕ := 128

/-- An entry with one of these bits is a leaf. -/
def pteLeaf : ℕ := pteR ||| pteX

def ptePpnShift : ℕ := 10
def ptePpnMask : ℕ := (2 ^ 44 - 1) <<< ptePpnShift
def pteFlagsMask : ℕ := 0x3FF
def sv39PtesPerTable : ℕ := 512

/-! The user part of the address space. -/

def userBase : ℕ := 0x10000
def userTop : ℕ := 0x40000000
def userHeapBase : ℕ := 0x01000000
def userStackPages : ℕ := 64
def userHeapPages : ℕ := 16

/-- `va & !0xFFF`: the start of the page of `va`. -/
def pageFloor (va : ℕ) : ℕ := va / pageSize * pageSize

namespace Vmm

/-- The physical page number in an entry. -/
def ptePpn (pte : ℕ) : ℕ := (pte &&& ptePpnMask) >>> ptePpnShift

/-- The physical address an entry points to. -/
def pteAddr (pte : ℕ) : ℕ := ptePpn pte <<< 12

/-- A valid entry that points to `pa`; with no `R` or `X` among the flags it points to a table. -/
def makePte (flags pa : ℕ) : ℕ := pteV ||| flags ||| ((pa >>> 12) <<< ptePpnShift)

/-- The nine bits of `va` from `shift` on. -/
def sv39Idx (shift va : ℕ) : ℕ := (va >>> shift) &&& 0x1FF

def sv39L2Idx (va : ℕ) : ℕ := sv39Idx 30 va
def sv39L1Idx (va : ℕ) : ℕ := sv39Idx 21 va
def sv39L0Idx (va : ℕ) : ℕ := sv39Idx 12 va

/-- The index of `va` into a table of the given level. -/
def levelIdx (level va : ℕ) : ℕ :=
  match level with
  | 2 => sv39L2Idx va
  | 1 => sv39L1Idx va
  | _ => sv39L0Idx va

/-- The number of address bits that a leaf of the given level leaves to the offset. -/
def levelShift (level : ℕ) : ℕ :=
  match level with
  | 2 => 30
  | 1 => 21
  | _ => 12

/-! ### Translation -/

/-- The loop of the two walkers, with `n` levels left: the address that the table at `pa` gives to
`va` through a leaf that `accept` lets pass, or 0. -/
def translateLoop (accept : ℕ → Bool) (m : Memory) (va : ℕ) : (n pa : ℕ) → ℕ
  | 0, _ => 0
  | level + 1, pa =>
    let pte := m.load (pa + levelIdx level va * 8) 8
    if pte &&& pteV = 0 then 0
    else if pte &&& pteLeaf ≠ 0 then
      if accept pte then (ptePpn pte <<< 12) + (va &&& (2 ^ levelShift level - 1)) else 0
    else translateLoop accept m va level (pteAddr pte)

/-- `translate`: the physical address of `va`, through any leaf. -/
def translate (m : Memory) (rootPa va : ℕ) : ℕ := translateLoop (fun _ => true) m va 3 rootPa

/-- `translate_user`: the physical address of `va`, through a leaf with `PTE_U`. -/
def translateUser (m : Memory) (rootPa va : ℕ) : ℕ :=
  translateLoop (fun pte => pte &&& pteU ≠ 0) m va 3 rootPa

/-! ### Building tables -/

/-- `new_root`: an empty root table. -/
def newRoot : KResult Mm ℕ := alloc

/-- Read the entry at `p`. -/
def readPte (p : ℕ) : KResult Mm ℕ := do return (← get).mem.load p 8

/-- Write the entry at `p`. -/
def writePte (p pte : ℕ) : KResult Mm Unit := modify fun s => { s with mem := s.mem.store p 8 pte }

/-- The 512 entries that divide the leaf `pte` into leaves of `2 ^ shift` bytes, in the table at
`table`. -/
def splitEntries (m : Memory) (table pte shift : ℕ) : Memory :=
  (range sv39PtesPerTable).foldl
    (fun m i =>
      m.store (table + i * 8) 8
        (makePte (pte &&& pteFlagsMask) ((ptePpn pte <<< 12) + i * 2 ^ shift)))
    m

/-- `split_leaf`: replace the leaf `pte` at `p` by a new table that divides it. -/
def splitLeaf (p pte level : ℕ) : KResult Mm Unit := do
  let newPa ← alloc
  match level with
  | 2 => modify fun s => { s with mem := splitEntries s.mem newPa pte 21 }
  | 1 => modify fun s => { s with mem := splitEntries s.mem newPa pte 12 }
  | _ => throw .inval
  writePte p (makePte 0 newPa)

/-- One turn of the loop of `walk`: the table below the entry at `p`, which is created (or divided
out of a leaf) where it is missing. -/
def walkStep (p level : ℕ) (create : Bool) : KResult Mm ℕ := do
  let pte ← readPte p
  if pte &&& pteV = 0 then
    if create then
      let newPa ← alloc
      writePte p (makePte 0 newPa)
      return newPa
    else throw .noEnt
  else if pte &&& pteLeaf ≠ 0 then
    if create then
      splitLeaf p pte level
      return pteAddr (← readPte p)
    else throw .inval
  else return pteAddr pte

/-- The loop of `walk`, from `n` levels above the leaf level on. -/
def walkLoop (va leafLevel : ℕ) (create : Bool) : (n table : ℕ) → KResult Mm ℕ
  | 0, table => pure (table + levelIdx leafLevel va * 8)
  | n + 1, table => do
    let level := leafLevel + n + 1
    let next ← walkStep (table + levelIdx level va * 8) level create
    walkLoop va leafLevel create n next

/-- `walk`: the address of the entry of `va` in its table of level `leaf_level`. -/
def walk (rootPa va leafLevel : ℕ) (create : Bool) : KResult Mm ℕ :=
  if leafLevel ≤ 2 then walkLoop va leafLevel create (2 - leafLevel) rootPa else throw .inval

/-- `map_one`: let the entry of `va` at the given level point to `paddr`. -/
def mapOne (rootPa va paddr flags level : ℕ) : KResult Mm Unit := do
  let p ← walk rootPa va level true
  writePte p (makePte flags paddr)

/-- `best_level`: the highest level whose leaves the two addresses and the length allow. -/
def bestLevel (va pa remaining : ℕ) : ℕ :=
  if 2 ^ 30 ≤ remaining ∧ va &&& (2 ^ 30 - 1) = 0 ∧ pa &&& (2 ^ 30 - 1) = 0 then 2
  else if 2 ^ 21 ≤ remaining ∧ va &&& (2 ^ 21 - 1) = 0 ∧ pa &&& (2 ^ 21 - 1) = 0 then 1
  else 0

/-- The loop of `map`: one leaf after the other until nothing remains. -/
def mapLoop (rootPa flags va pa remaining : ℕ) : KResult Mm Unit :=
  if _h : remaining = 0 then pure ()
  else do
    let level := bestLevel va pa remaining
    let chunk := min (2 ^ levelShift level) remaining
    mapOne rootPa va pa (flags ||| pteA ||| pteD) level
    mapLoop rootPa flags (wadd va chunk) (wadd pa chunk) (remaining - chunk)
  termination_by remaining
  decreasing_by
    have hpos : 0 < 2 ^ levelShift (bestLevel va pa remaining) := Nat.two_pow_pos _
    omega

/-- `map`: map `size` bytes from `vaddr` on to the physical memory from `paddr` on. -/
def map (rootPa vaddr paddr size flags : ℕ) : KResult Mm Unit :=
  mapLoop rootPa flags vaddr paddr size

/-- The flags of the identity leaves. -/
def identityFlags : ℕ := pteV ||| pteR ||| pteW ||| pteX ||| pteA ||| pteD

/-- The loop with which `load` (and `vmm::init`) fill a new root: three leaves of 1 GiB that map the
lowest physical addresses to themselves. -/
def identityLeaves (rootPa : ℕ) (s : Mm) : Mm :=
  { s with
    mem := (range 3).foldl
      (fun m i => m.store (rootPa + i * 8) 8 (makePte identityFlags (i <<< 30))) s.mem }

/-! ### Destroying tables -/

/-- What `free_subtree` does with entry `i` of `table`; `below` frees a table of the next level. -/
def freeEntry (below : ℕ → Mm → Mm) (table : ℕ) (s : Mm) (i : ℕ) : Mm :=
  let pte := s.mem.load (table + i * 8) 8
  if pte &&& pteV = 0 then s
  else if pte &&& pteLeaf ≠ 0 then
    if pte &&& pteU ≠ 0 then free s (pteAddr pte) else s
  else below (pteAddr pte) s

/-- `free_subtree`: free every user page and every table below the table of the given level. -/
def freeSubtree : (level table : ℕ) → Mm → Mm
  | 0, table, s => (range sv39PtesPerTable).foldl (freeEntry (fun _ s => s) table) s
  | level + 1, table, s =>
    (range sv39PtesPerTable).foldl
      (freeEntry (fun child s => free (freeSubtree level child s) child) table) s

/-- `destroy_root`: free the whole address space. -/
def destroyRoot (rootPa : ℕ) (s : Mm) : Mm := free (freeSubtree 2 rootPa s) rootPa

end Vmm

end OnyxKernel
