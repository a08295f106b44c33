import OnyxKernel.Fs.Operations

/-!
# The image builder

`tools/src/mkimage`: the tool collects directories and files in memory (`tree.rs`) and writes them as an
OnyxFS image of version 1 or 2 (`superblock.rs`, `inode.rs`, `dirent.rs`, `main.rs`).

Paths and names are lists of bytes; cutting a string at slashes is cutting its bytes.  Reading the manifest and
the host files and printing are left out: the requests come as a list, each with the bytes of its file.  The
tool is built without overflow checks, so 32-bit sums wrap; a slice outside the image ends the tool and is the
outcome `none`.
-/

namespace OnyxKernel.Mkimage

open ByteMemory Onyxfs List UInt8

/-! ### The tree -/

/-- A file: its inode number and its bytes. -/
structure Entry where
  inode : ℕ
  data : List UInt8
  deriving DecidableEq, Repr

/-- A directory: its entries are names with an inode number and whether it is a directory. -/
structure DirNode where
  ino : ℕ
  parentIno : ℕ
  entries : List (List UInt8 × ℕ × Bool)
  deriving DecidableEq, Repr

def DirNode.root : DirNode := { ino := 1, parentIno := 1, entries := [] }

instance : Inhabited DirNode := ⟨.root⟩

/-- The directories, the files and the next inode number. -/
structure Tree where
  dirs : List DirNode
  files : List Entry
  nextIno : ℕ
  deriving DecidableEq, Repr

/-- What the tool starts with. -/
def Tree.empty : Tree := { dirs := [.root], files := [], nextIno := 2 }

/-- `trim_start_matches('/')`. -/
def trimStart (path : List UInt8) : List UInt8 := path.dropWhile (· == slash)

/-- `basename`: what follows the last slash. -/
def basename (path : List UInt8) : List UInt8 := (splitPath (trimStart path)).2

/-- One round of the loop of `find_parent_dir`.  The search runs once for each child directory of the current
directory and finds the same each time, so it runs if there is a child; a component that is not found
is skipped. -/
def findChild (dirs : List DirNode) (curIdx : ℕ) (comp : List UInt8) : ℕ :=
  let cur := dirs.getD curIdx default
  if dirs.any (·.parentIno == cur.ino) then
    (cur.entries.findSome? fun e => if e.1 = comp then dirs.findIdx? (·.ino == e.2.1) else none).getD curIdx
  else curIdx

/-- The parts of a path between slashes, with the empty ones. -/
def splitSlash (path : List UInt8) : List (List UInt8) := path.splitOnP (· == slash)

/-- `find_parent_dir`: an index into the directories. -/
def findParentDir (dirs : List DirNode) (path : List UInt8) : ℕ :=
  let path := trimStart path
  if slash ∉ path then 0
  else ((splitSlash (splitPath path).1).filter (· != [])).foldl (findChild dirs) 0

/-- Append an entry to directory `i`. -/
def pushEntry (dirs : List DirNode) (i : ℕ) (name : List UInt8) (ino : ℕ) (isDir : Bool) : List DirNode :=
  dirs.modify i fun d => { d with entries := d.entries ++ [(name, ino, isDir)] }

def addDir (t : Tree) (path : List UInt8) : Tree :=
  let parent := findParentDir t.dirs path
  { t with
    dirs := pushEntry t.dirs parent (basename path) t.nextIno true ++
      [{ ino := t.nextIno, parentIno := (t.dirs.getD parent default).ino, entries := [] }]
    nextIno := (t.nextIno + 1) % u32Size }

/-- The test of `ensure_parent_dirs`: the name is an entry of the root directory or of a directory in it. -/
def nameExists (dirs : List DirNode) (name : List UInt8) : Bool :=
  dirs.any fun d => d.parentIno == (dirs.getD 0 default).ino && d.entries.any fun e => e.1 == name

/-- The loop of `ensure_parent_dirs`: `cur` is the path so far. -/
def ensureLoop (base : List UInt8) : List (List UInt8) → List UInt8 → Tree → Tree
  | [], _, t => t
  | comp :: comps, cur, t =>
    if comp = [] ∨ comp = base then ensureLoop base comps cur t
    else
      let cur := cur ++ slash :: comp
      if nameExists t.dirs (basename cur) then ensureLoop base comps cur t
      else ensureLoop base comps cur (addDir t cur)

def ensureParentDirs (t : Tree) (path : List UInt8) : Tree :=
  let path := trimStart path
  ensureLoop (basename path) (splitSlash path) [] t

/-- `add_file`, with the bytes of the host file. -/
def addFile (t : Tree) (fsPath data : List UInt8) : Tree :=
  let t := ensureParentDirs t fsPath
  let parent := findParentDir t.dirs fsPath
  { dirs := pushEntry t.dirs parent (basename fsPath) t.nextIno false
    files := t.files ++ [{ inode := t.nextIno, data := data }]
    nextIno := (t.nextIno + 1) % u32Size }

/-- A line of the manifest or an option; adding a host directory is a list of such requests. -/
inductive Request
  | dir (path : List UInt8)
  | file (path data : List UInt8)
  deriving DecidableEq, Repr

/-- Carry out a request. -/
def Request.apply (t : Tree) : Request → Tree
  | .dir path => addDir t path
  | .file path data => addFile t path data

/-- The tree of a list of requests. -/
def build (requests : List Request) : Tree := requests.foldl Request.apply .empty

/-! ### The layout -/

/-- The size of an inode. -/
def inodeSize (v1 : Bool) : ℕ := if v1 then 64 else 128

/-- The size of a directory entry. -/
def direntSize (v1 : Bool) : ℕ := if v1 then 36 else 40

/-- The number of blocks of some data. -/
def blockCount (len : ℕ) : ℕ := (len + (onyfsBlockSize - 1)) / onyfsBlockSize

def snapshotBlocksEach : ℕ := 64
def maxSnapshots : ℕ := 4
def journalBlockCount : ℕ := 32

/-- The numbers that `main` computes. -/
structure Layout where
  inodeTableBlocks : ℕ
  dataBlocksNeeded : ℕ
  totalBlocks : ℕ
  imgSize : ℕ
  inodeTableStart : ℕ
  snapshotStart : ℕ
  journalStart : ℕ
  journalBlocks : ℕ
  dataBlocksStart : ℕ
  deriving DecidableEq, Repr

/-- The layout of an image. -/
def Tree.layout (t : Tree) (v1 : Bool) : Layout :=
  let inodesPerBlock := onyfsBlockSize / inodeSize v1
  let inodeTableBlocks := (t.nextIno + (inodesPerBlock - 1)) / inodesPerBlock
  let needed := (t.dirs.length + (t.files.map fun f => blockCount f.data.length).sum) % u32Size
  let snapshotBlocks := if v1 then 0 else maxSnapshots * snapshotBlocksEach
  let journalBlocks := if v1 then 0 else journalBlockCount
  let metadataBlocks := 3 + inodeTableBlocks + snapshotBlocks + journalBlocks
  let totalBlocks := (metadataBlocks + needed) % u32Size
  { inodeTableBlocks := inodeTableBlocks
    dataBlocksNeeded := needed
    totalBlocks := totalBlocks
    imgSize := (totalBlocks * onyfsBlockSize + 511) / 512 * 512
    inodeTableStart := 3
    snapshotStart := if v1 then 0 else 3 + inodeTableBlocks
    journalStart := if v1 then 0 else 3 + inodeTableBlocks + snapshotBlocks
    journalBlocks := journalBlocks
    dataBlocksStart := metadataBlocks }

/-! ### The image -/

/-- An image: its size and its bytes. -/
structure Image where
  size : ℕ
  mem : Memory

/-- `img[off..off + n].copy_from_slice(bytes)`. -/
def Image.copy (img : Image) (off : ℕ) (bytes : List UInt8) : Option Image :=
  if off + bytes.length ≤ img.size then some { img with mem := img.mem.write off bytes } else none

/-- `img[off] |= v`. -/
def Image.orByte (img : Image) (off : ℕ) (v : UInt8) : Option Image :=
  if off < img.size then some { img with mem := img.mem.setByte off (img.mem off ||| v) } else none

/-! ### The superblock -/

/-- `superblock::write_v1`. -/
def writeSuperV1 (img : Image) (l : Layout) (inodeCount : ℕ) : Option Image :=
  img.copy 0 ([onyfsMagicV1, 1, 4096, l.totalBlocks, inodeCount, l.inodeTableStart, 2, l.dataBlocksStart, 1].flatMap
    (leBytes 4))

/-- `superblock::write_v2`; `now` is the time. -/
def writeSuperV2 (img : Image) (l : Layout) (inodeCount now : ℕ) : Option Image :=
  img.copy 0 ([onyfsMagic, 2, 4096, l.totalBlocks, inodeCount, l.inodeTableStart, 2, l.dataBlocksStart, 1,
    l.snapshotStart, 0, l.journalStart, l.journalBlocks, 0x1 ||| 0x2 ||| 0x8].flatMap (leBytes 4) ++
      leBytes 8 now ++ replicate 64 0)

/-! ### Bitmaps and inodes -/

/-- One loop of `write_bitmaps`: set the first `count` bits of the bitmap at byte `base`. -/
def setBits (base : ℕ) : List ℕ → Image → Option Image
  | [], img => some img
  | i :: is, img => (img.orByte (base + i / 8) (1 <<< ofNat (i % 8))).bind (setBits base is)

def writeBitmaps (img : Image) (inodeCount dataBlockCount : ℕ) : Option Image :=
  (setBits onyfsBlockSize (range inodeCount) img).bind
    (setBits (2 * onyfsBlockSize) (range dataBlockCount))

/-- Write block numbers from byte `off` on. -/
def copyBlocks : List ℕ → ℕ → Image → Option Image
  | [], _, img => some img
  | blk :: blks, off, img => (img.copy off (leBytes 4 blk)).bind (copyBlocks blks (off + 4))

/-- `inode::write_v1`. -/
def writeInodeV1 (img : Image) (off mode size : ℕ) (blocks : List ℕ) : Option Image :=
  ((img.copy off (leBytes 4 mode)).bind fun img => img.copy (off + 4) (leBytes 4 size)).bind
    (copyBlocks (blocks.take 10) (off + 8))

/-- The bytes of an inode of version 2. -/
def inodeBytesV2 (mode size : ℕ) (blocks : List ℕ) (isDir : Bool) (now : ℕ) : List UInt8 :=
  leBytes 4 mode ++ replicate 4 0 ++ leBytes 8 size ++ (blocks.take 10).flatMap (leBytes 4) ++
    replicate (40 - 4 * (blocks.take 10).length + 8) 0 ++ leBytes 4 (if isDir then 2 else 1) ++
    replicate 36 0 ++ leBytes 8 now ++ leBytes 8 now ++ leBytes 8 now

/-- `inode::write_v2`. -/
def writeInodeV2 (img : Image) (off mode size : ℕ) (blocks : List ℕ) (isDir : Bool) (now : ℕ) : Option Image :=
  img.copy off (inodeBytesV2 mode size blocks isDir now)

/-- The inode of a directory or a file in the version of the image; `now` is the time when it is written. -/
def writeInodeSlot (v1 : Bool) (img : Image) (off mode size : ℕ) (blocks : List ℕ) (isDir : Bool) (now : ℕ) :
    Option Image :=
  if v1 then writeInodeV1 img off mode size blocks else writeInodeV2 img off mode size blocks isDir now

/-- The mode of the files. -/
def onyfsDtReg : ℕ := 0o100755

/-- The byte of the inode table where an inode is written. -/
def slotOffset (v1 : Bool) (tableStart ino : ℕ) : ℕ := tableStart * onyfsBlockSize + ino * inodeSize v1 - inodeSize v1

/-- The first loop of `write_table`. -/
def writeTableDirs (v1 : Bool) (now : ℕ → ℕ) (tableStart : ℕ) : List DirNode → ℕ → Image → Option (Image × ℕ)
  | [], dataBlk, img => some (img, dataBlk)
  | d :: ds, dataBlk, img =>
    (writeInodeSlot v1 img (slotOffset v1 tableStart d.ino) onyfsDtDir 0 [dataBlk] true (now d.ino)).bind
      (writeTableDirs v1 now tableStart ds ((dataBlk + 1) % u32Size))

/-- The block pointers of a file: at most ten. -/
def filePointers (nblks dataBlk : ℕ) : List ℕ :=
  (range (min nblks 10)).map (fun i => (dataBlk + i) % u32Size) ++ replicate (10 - min nblks 10) 0

/-- The second loop of `write_table`. -/
def writeTableFiles (v1 : Bool) (now : ℕ → ℕ) (tableStart : ℕ) : List Entry → ℕ → Image → Option Image
  | [], _, img => some img
  | f :: fs, dataBlk, img =>
    let nblks := blockCount f.data.length % u32Size
    (writeInodeSlot v1 img (slotOffset v1 tableStart f.inode) onyfsDtReg f.data.length (filePointers nblks dataBlk)
      false (now f.inode)).bind
      (writeTableFiles v1 now tableStart fs ((dataBlk + min nblks 10) % u32Size))

def writeTable (v1 : Bool) (now : ℕ → ℕ) (t : Tree) (l : Layout) (img : Image) : Option Image :=
  (writeTableDirs v1 now l.inodeTableStart t.dirs l.dataBlocksStart img).bind fun p =>
    writeTableFiles v1 now l.inodeTableStart t.files p.2 p.1

/-! ### Directory blocks and data -/

/-- `dirent::write_v1` and `dirent::write_v2`. -/
def writeDirent (v1 : Bool) (img : Image) (off : ℕ) (name : List UInt8) (inode : ℕ) (isDir : Bool) : Option Image :=
  let bytes := name.take onyfsNameMax
  ((img.copy off bytes).bind fun img => img.copy (off + 32) (leBytes 4 inode)).bind fun img =>
    if v1 then some img
    else (img.copy (off + 36) [if isDir then 1 else 2]).bind fun img =>
      img.copy (off + 37) [ofNat bytes.length]

/-- The loop over the entries of a directory, which stops when the block is full. -/
def writeEntries (v1 : Bool) (dirOff : ℕ) : List (List UInt8 × ℕ × Bool) → ℕ → Image → Option Image
  | [], _, img => some img
  | e :: es, entryOff, img =>
    if dirOff + onyfsBlockSize < entryOff + direntSize v1 then some img
    else (writeDirent v1 img entryOff e.1 e.2.1 e.2.2).bind (writeEntries v1 dirOff es (entryOff + direntSize v1))

/-- The block of a directory. -/
def writeDir (v1 : Bool) (dirOff : ℕ) (d : DirNode) (img : Image) : Option Image :=
  ((writeDirent v1 img dirOff [0x2E] d.ino true).bind fun img =>
    writeDirent v1 img (dirOff + direntSize v1) [0x2E, 0x2E] d.parentIno true).bind
    (writeEntries v1 dirOff d.entries (dirOff + direntSize v1 + direntSize v1))

/-- The first loop of `write_blocks`. -/
def writeDirs (v1 : Bool) : List DirNode → ℕ → Image → Option (Image × ℕ)
  | [], dataBlk, img => some (img, dataBlk)
  | d :: ds, dataBlk, img =>
    (writeDir v1 (dataBlk * onyfsBlockSize) d img).bind (writeDirs v1 ds ((dataBlk + 1) % u32Size))

/-- Chunk `i` of some data. -/
def chunk (data : List UInt8) (i : ℕ) : List UInt8 := (data.drop (i * onyfsBlockSize)).take onyfsBlockSize

/-- The blocks of a file. -/
def writeChunks (data : List UInt8) : List ℕ → ℕ → Image → Option (Image × ℕ)
  | [], dataBlk, img => some (img, dataBlk)
  | i :: is, dataBlk, img =>
    (img.copy (dataBlk * onyfsBlockSize) (chunk data i)).bind (writeChunks data is ((dataBlk + 1) % u32Size))

/-- The second loop of `write_blocks`. -/
def writeFiles : List Entry → ℕ → Image → Option Image
  | [], _, img => some img
  | f :: fs, dataBlk, img =>
    (writeChunks f.data (range (blockCount f.data.length)) dataBlk img).bind fun p => writeFiles fs p.2 p.1

def writeBlocks (v1 : Bool) (t : Tree) (l : Layout) (img : Image) : Option Image :=
  (writeDirs v1 t.dirs l.dataBlocksStart img).bind fun p => writeFiles t.files p.2 p.1

/-! ### The tool -/

/-- The image of a tree; `now ino` is the time when an inode is written and `now 0` that of the superblock. -/
def mkimage (v1 : Bool) (now : ℕ → ℕ) (t : Tree) : Option Image :=
  let l := t.layout v1
  let totalInodes := t.nextIno
  let img : Image := { size := l.imgSize, mem := fun _ => 0 }
  (((if v1 then writeSuperV1 img l totalInodes else writeSuperV2 img l totalInodes (now 0)).bind fun img =>
    writeBitmaps img totalInodes l.dataBlocksNeeded).bind (writeTable v1 now t l)).bind (writeBlocks v1 t l)

end OnyxKernel.Mkimage
