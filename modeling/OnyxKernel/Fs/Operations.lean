import OnyxKernel.Fs.Onyxfs

/-!
# The operations of OnyxFS

Directory entries and path lookup, and the operations the virtual file system calls: `read`,
`write`, `create`, `mkdir`, `truncate`, `unlink` and `rename`.  Each of them but `read` is one
journal transaction.

The loops over the entries of a directory block stop before the block ends, so the guard
`off + entry_size > ONYFS_BLOCK_SIZE` of the source does not fire in them.
-/

namespace OnyxKernel.Onyxfs

open ByteMemory List UInt8 OnyfsDirent

/-! ### Path lookup -/

def parseDirent (slot : ℕ) : FsM OnyfsDirent := do
  let s ← get
  let off := slot * s.entrySize
  if onyfsBlockSize < off + s.entrySize then throw .inval
  else if s.version = .v1 then return fromBytesV1 (s.buf.view off)
  else return fromBytes (s.buf.view off)

/-- The name test of `lookup_in`: the length field counts if it is plausible. -/
def direntMatches (d : OnyfsDirent) (name : List UInt8) : Bool :=
  let nl := if 0 < d.nameLen.toNat ∧ d.nameLen.toNat ≤ onyfsNameMax then d.nameLen.toNat
    else nulLen d.name
  decide (nl = name.length ∧ d.name.take nl = name)

/-- The loop of `lookup_in` from entry `i` on, with `fuel` entries left. -/
def lookupScan (name : List UInt8) : ℕ → ℕ → FsM ℕ
  | 0, _ => throw .noEnt
  | fuel + 1, i => do
    let d ← parseDirent i
    if d.inode ≠ 0 ∧ direntMatches d name then return d.inode
    else lookupScan name fuel (i + 1)

def lookupIn (dirIno : ℕ) (name : List UInt8) : FsM OnyfsStat := do
  let inode ← readInode dirIno
  let dirBlk := inode.blocks 0
  if dirBlk = 0 then throw .noEnt
  else
    readBuf dirBlk
    let foundIno ← lookupScan name (← get).direntsPerBlock 0
    stat foundIno

/-- The byte `/`. -/
def slash : UInt8 := 0x2F

/-- The loop of `lookup`.  Every round takes at least one byte off the path, so that the length of
the path is enough fuel. -/
def lookupLoop : ℕ → List UInt8 → ℕ → FsM ℕ
  | 0, _, curIno => return curIno
  | fuel + 1, path, curIno =>
    let remaining := path.dropWhile (· == slash)
    let component := remaining.takeWhile (· != slash)
    if component = [] then return curIno
    else do
      let out ← lookupIn curIno component
      match remaining.dropWhile (· != slash) with
      | [] => return out.ino
      | _ :: rest => lookupLoop fuel rest out.ino

def lookup (path : List UInt8) : FsM OnyfsStat := do
  let curIno ← lookupLoop (path.length + 1) path onyfsRootIno
  stat curIno

/-! ### Directory entries -/

/-- The number of leading bytes of `name` that the entry's name has too. -/
def matchLen (existing : Memory) : List UInt8 → ℕ → ℕ
  | [], k => k
  | c :: name, k => if k < onyfsNameMax ∧ existing k = c then matchLen existing name (k + 1) else k

/-- The name test of `add_dirent` and `remove_dirent`. -/
def nameMatches (existing : Memory) (name : List UInt8) : Bool :=
  let k := matchLen existing name 0
  decide (k = name.length ∧ (onyfsNameMax ≤ k ∨ existing k = 0))

/-- The inode number in entry `i` of the directory block in `G_BUF`. -/
def Fs.entryInode (s : Fs) (i : ℕ) : ℕ := s.buf.mem.load (i * s.entrySize + 32) 4

/-- The first entry in use with the given name. -/
def Fs.findEntry (s : Fs) (name : List UInt8) : Option ℕ :=
  (range s.direntsPerBlock).find? fun i =>
    s.entryInode i != 0 && nameMatches (s.buf.view (i * s.entrySize)) name

/-- The first unused entry. -/
def Fs.findFree (s : Fs) : Option ℕ :=
  (range s.direntsPerBlock).find? fun i => s.entryInode i == 0

/-- Point an existing entry to another inode. -/
def Fs.retarget (s : Fs) (i targetIno : ℕ) (dtype : UInt8) : Block :=
  let off := i * s.entrySize
  let b := s.buf.store (off + 32) 4 targetIno
  if s.version = .v1 then b else b.setByte (off + 36) dtype

/-- Fill an unused entry. -/
def Fs.fillEntry (s : Fs) (i : ℕ) (name : List UInt8) (targetIno : ℕ) (dtype : UInt8) : Block :=
  let off := i * s.entrySize
  let b := s.buf.blit off onyfsNameMax fun j => name.getD j 0
  let b := b.store (off + 32) 4 targetIno
  if s.version = .v1 then b
  else (b.setByte (off + 36) dtype).setByte (off + 37) (ofNat (min name.length onyfsNameMax))

/-- The directory block of `add_dirent`, allocated and zeroed if the directory has none yet. -/
def dirBlock (dirIno : ℕ) : FsM ℕ := do
  let dirInode ← readInode dirIno
  if dirInode.blocks 0 = 0 then
    let dirBlk ← allocDataBlock
    setBuf (Buffer.zero _)
    logBuf dirBlk
    writeInode dirIno (dirInode.setBlock 0 dirBlk)
    return dirBlk
  else return dirInode.blocks 0

def addDirent (dirIno : ℕ) (name : List UInt8) (targetIno : ℕ) (dtype : UInt8) : FsM Unit := do
  let dirBlk ← dirBlock dirIno
  readBuf dirBlk
  let s ← get
  match s.findEntry name with
  | some i =>
    setBuf (s.retarget i targetIno dtype)
    logBuf dirBlk
  | none =>
    match s.findFree with
    | some i =>
      setBuf (s.fillEntry i name targetIno dtype)
      logBuf dirBlk
    | none => throw .noSpace

def removeDirent (dirIno : ℕ) (name : List UInt8) : FsM Unit := do
  let dirInode ← readInode dirIno
  let dirBlk := dirInode.blocks 0
  if dirBlk = 0 then throw .noEnt
  else
    readBuf dirBlk
    let s ← get
    match s.findEntry name with
    | some i =>
      setBuf (s.buf.store (i * s.entrySize + 32) 4 0)
      logBuf dirBlk
    | none => throw .noEnt

/-! ### Reading -/

/-- The loop of `read` over the block numbers of the inode.  It answers with the bytes copied. -/
def readLoop : List ℕ → (off remaining : ℕ) → FsM (List UInt8)
  | [], _, _ => return []
  | blk :: blocks, off, remaining => do
    if remaining = 0 ∨ blk = 0 then return []
    else
      readBuf blk
      let chunkOff := off % onyfsBlockSize
      let chunk := min (onyfsBlockSize - chunkOff) remaining
      let bytes := (range chunk).map ((← get).buf.view chunkOff)
      let rest ← readLoop blocks (off + chunk) (remaining - chunk)
      return bytes ++ rest

/-- `read`: the number of bytes read and the bytes. -/
def read (ino off len : ℕ) : FsM (ℕ × List UInt8) := do
  let inode ← readInode ino
  let fileSize := min inode.size (u32Size - 1)
  let bytes ← readLoop (ofFn inode.blocks) off (min len (fileSize - off))
  return (bytes.length, bytes)

/-! ### Writing -/

/-- The block of `write` at index `idx`, allocated and zeroed if the file has none there. -/
def mapBlock (inode : OnyfsInode) (idx : Fin 10) : FsM OnyfsInode := do
  if inode.blocks idx = 0 then
    let blk ← allocDataBlock
    setBuf (Buffer.zero _)
    logBuf blk
    return inode.setBlock idx blk
  else return inode

/-- The loop of `write`: the inode with the blocks allocated, and the number of bytes written.
Every round writes at least one byte, so that the length of the data is enough fuel. -/
def writeLoop (data : List UInt8) : ℕ → OnyfsInode → (written curOff remaining : ℕ) →
    FsM (OnyfsInode × ℕ)
  | 0, inode, written, _, _ => return (inode, written)
  | fuel + 1, inode, written, curOff, remaining => do
    if remaining = 0 then return (inode, written)
    else if h : curOff / onyfsBlockSize < 10 then
      let inode ← mapBlock inode ⟨curOff / onyfsBlockSize, h⟩
      let blk := inode.blocks ⟨curOff / onyfsBlockSize, h⟩
      let chunkOff := curOff % onyfsBlockSize
      let chunk := min (onyfsBlockSize - chunkOff) remaining
      readBuf blk
      setBuf ((← get).buf.blit chunkOff chunk fun i => data.getD (written + i) 0)
      logBuf blk
      writeLoop data fuel inode (written + chunk) (curOff + chunk) (remaining - chunk)
    else return (inode, written)

def write (ino : ℕ) (data : List UInt8) (off : ℕ) : FsM ℕ := do
  if (← get).version = .v1 then throw .noSys
  else
    let inode ← readInode ino
    let (inode, written) ← writeLoop data data.length inode 0 off data.length
    let newSize := max inode.size ((off + written) % u32Size)
    writeInode ino { inode with size := newSize, mtime := (← get).jiffies.toNat }
    journalCommit
    return written

/-! ### Creating and removing files -/

/-- The inode of a new file or directory. -/
def newInode (mode nlink : ℕ) (now : UInt64) (blocks : Fin 10 → ℕ) : OnyfsInode where
  mode := mode
  size := 0
  uid := 0
  gid := 0
  nlink := nlink
  blocks := blocks
  indirect := 0
  doubleIndirect := 0
  crtime := now.toNat
  mtime := now.toNat
  atime := now.toNat
  ctime := now.toNat
  flags := 0
  reserved := 0

def create (dirIno : ℕ) (name : List UInt8) (mode : ℕ) : FsM ℕ := do
  if (← get).version = .v1 then throw .noSys
  else if name = [] ∨ onyfsNameMax < name.length then throw .inval
  else
    let newIno ← allocInode
    writeInode newIno (newInode mode 1 (← get).jiffies fun _ => 0)
    addDirent dirIno name newIno 8
    journalCommit
    return newIno

/-- The first block of a new directory, with its entries `.` and `..`. -/
def dotBlock (newIno dirIno : ℕ) : Block :=
  let dot : OnyfsDirent :=
    { name := [0x2E], inode := newIno, dtype := 4, nameLen := 1, reserved := (0, 0) }
  let dotdot : OnyfsDirent :=
    { name := [0x2E, 0x2E], inode := dirIno, dtype := 4, nameLen := 2, reserved := (0, 0) }
  ((Buffer.zero _).blit 0 byteSize dot.toBytes).blit byteSize
    byteSize dotdot.toBytes

def mkdir (dirIno : ℕ) (name : List UInt8) : FsM ℕ := do
  if (← get).version = .v1 then throw .noSys
  else if name = [] ∨ onyfsNameMax < name.length then throw .inval
  else
    let newIno ← allocInode
    let now := (← get).jiffies
    let dirBlk ← allocDataBlock
    setBuf (dotBlock newIno dirIno)
    logBuf dirBlk
    writeInode newIno (newInode onyfsDtDir 2 now (Function.update (fun _ => 0) 0 dirBlk))
    addDirent dirIno name newIno 4
    journalCommit
    return newIno

def truncate (ino : ℕ) : FsM Unit := do
  if (← get).version = .v1 then throw .noSys
  else
    let inode ← readInode ino
    writeInode ino
      { inode with size := 0, blocks := fun _ => 0, indirect := 0, doubleIndirect := 0 }
    journalCommit

/-- The parent path and the file name of a path without its leading slash. -/
def splitPath (trimmed : List UInt8) : List UInt8 × List UInt8 :=
  let rev := trimmed.reverse
  ((rev.dropWhile (· != slash)).tail.reverse, (rev.takeWhile (· != slash)).reverse)

/-- The inode of a parent path. -/
def parentIno (parentPath : List UInt8) : FsM ℕ := do
  if parentPath = [] then return onyfsRootIno
  else
    let st ← lookup parentPath
    return st.ino

def unlink (path : List UInt8) : FsM Unit := do
  if path.head? ≠ some slash then throw .inval
  else if path.length = 1 then throw .perm
  else
    let (parentPath, filename) := splitPath path.tail
    if filename = [] then throw .inval
    else
      let parent ← parentIno parentPath
      removeDirent parent filename
      journalCommit

def rename (oldPath newPath : List UInt8) : FsM Unit := do
  if oldPath.head? ≠ some slash ∨ newPath.head? ≠ some slash then throw .inval
  else
    let st ← lookup oldPath
    let dtype := ofNat (st.mode / 2 ^ 12 % 16)
    let (oldParentPath, oldFilename) := splitPath oldPath.tail
    let (newParentPath, newFilename) := splitPath newPath.tail
    if oldFilename = [] ∨ newFilename = [] then throw .inval
    else
      let oldParent ← parentIno oldParentPath
      let newParent ← parentIno newParentPath
      addDirent newParent newFilename st.ino dtype
      removeDirent oldParent oldFilename
      journalCommit

end OnyxKernel.Onyxfs
