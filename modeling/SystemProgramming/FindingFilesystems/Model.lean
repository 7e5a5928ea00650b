import SystemProgramming.Lib.Records
import SystemProgramming.Lib.Runs

/-!
# minixfs

The disk is an array of inodes, an array of data blocks in flat memory and the usage
map of the blocks.  The functions of `minixfs.c` are partial: `none` stands for an
access outside the data blocks or outside an array.  The helpers of `minixfs_utils` are
parameters.
-/

namespace SystemProgramming.FindingFilesystems

/-- The constants of the disk format. -/
structure Geometry where
  blockSize : ℕ
  NUM_DIRECT_BLOCKS : ℕ
  NUM_INDIRECT_BLOCKS : ℕ
  DATA_NUMBER : ℕ
  FILE_NAME_ENTRY : ℕ
  /-- How a `data_block_number` is stored in an indirect block. -/
  numbers : Layout (BitVec 32) 4
  blockSize_pos : 0 < blockSize
  direct_pos : 0 < NUM_DIRECT_BLOCKS
  indirect_le : 4 * NUM_INDIRECT_BLOCKS ≤ blockSize
  entry_pos : 0 < FILE_NAME_ENTRY
  entry_le : FILE_NAME_ENTRY ≤ blockSize
  data_lt : DATA_NUMBER < 2 ^ 31
  size_lt : (NUM_DIRECT_BLOCKS + NUM_INDIRECT_BLOCKS) * blockSize < 2 ^ 31

/-- A block number that is not assigned is `-1`. -/
structure Inode (G : Geometry) where
  uid : ℕ
  gid : ℕ
  mode : ℕ
  atim : ℕ
  mtim : ℕ
  ctim : ℕ
  size : ℕ
  direct : Fin G.NUM_DIRECT_BLOCKS → ℤ
  indirect : ℤ

structure FileSystem (G : Geometry) where
  inodeRoot : ℕ → Inode G
  dataRoot : Bytes
  dataUsed : ℤ → Bool

variable {G : Geometry}

namespace Geometry

variable (G)

def maxFilesize : ℤ :=
  (((G.NUM_DIRECT_BLOCKS + G.NUM_INDIRECT_BLOCKS) * G.blockSize : ℕ) : ℤ).bmod (2 ^ 32)

/-- The number of blocks that hold `size` bytes. -/
def blockCount (size : ℕ) : ℕ :=
  size / G.blockSize + if 0 < size % G.blockSize then 1 else 0

/-- The bytes from an address of the data blocks on.  Nothing is read for no bytes. -/
def fetch (data : Bytes) (addr : ℤ) (n : ℕ) : Option (List UInt8) :=
  if n = 0 then some []
  else if 0 ≤ addr ∧ addr + n ≤ G.DATA_NUMBER * G.blockSize then
    some ((List.range n).map fun k ↦ data (addr.toNat + k))
  else none

/-- The data blocks after `bytes` has been copied to an address. -/
def put (data : Bytes) (addr : ℤ) (bytes : List UInt8) : Option Bytes :=
  if bytes = [] then some data
  else if 0 ≤ addr ∧ addr + bytes.length ≤ G.DATA_NUMBER * G.blockSize then
    some (memcpy data addr.toNat bytes)
  else none

/-- Entry `k` of the indirect block `z`. -/
def number (data : Bytes) (z : ℤ) (k : ℕ) : ℤ :=
  (G.numbers.load data ((z * G.blockSize).toNat + 4 * k)).toInt

def loadNumber (data : Bytes) (z : ℤ) (k : ℕ) : Option ℤ :=
  if 0 ≤ z ∧ z * G.blockSize + 4 * k + 4 ≤ G.DATA_NUMBER * G.blockSize then
    some (G.number data z k)
  else none

def storeNumber (data : Bytes) (z : ℤ) (k : ℕ) (n : ℤ) : Option Bytes :=
  if 0 ≤ z ∧ z * G.blockSize + 4 * k + 4 ≤ G.DATA_NUMBER * G.blockSize then
    some (G.numbers.store data ((z * G.blockSize).toNat + 4 * k) (BitVec.ofInt 32 n))
  else none

end Geometry

namespace Inode

/-- `direct[j]`, which lies in the inode for the indices of the array only. -/
def directAt (node : Inode G) (j : ℕ) : Option ℤ :=
  if h : j < G.NUM_DIRECT_BLOCKS then some (node.direct ⟨j, h⟩) else none

def setDirect (node : Inode G) (j : ℕ) (z : ℤ) : Option (Inode G) :=
  if h : j < G.NUM_DIRECT_BLOCKS then
    some { node with direct := Function.update node.direct ⟨j, h⟩ z }
  else none

end Inode

namespace FileSystem

variable (fs : FileSystem G)

def setInode (i : ℕ) (node : Inode G) : FileSystem G :=
  { fs with inodeRoot := Function.update fs.inodeRoot i node }

def mark (z : ℤ) : FileSystem G :=
  { fs with dataUsed := Function.update fs.dataUsed z true }

variable {fs} {i k : ℕ} {node : Inode G} {z y : ℤ}

@[simp] theorem setInode_dataRoot : (fs.setInode i node).dataRoot = fs.dataRoot := rfl

@[simp] theorem setInode_dataUsed : (fs.setInode i node).dataUsed = fs.dataUsed := rfl

@[simp] theorem setInode_inodeRoot_self : (fs.setInode i node).inodeRoot i = node :=
  Function.update_self ..

theorem setInode_inodeRoot_of_ne (h : k ≠ i) :
    (fs.setInode i node).inodeRoot k = fs.inodeRoot k :=
  Function.update_of_ne h ..

@[simp] theorem mark_inodeRoot : (fs.mark z).inodeRoot = fs.inodeRoot := rfl

@[simp] theorem mark_dataRoot : (fs.mark z).dataRoot = fs.dataRoot := rfl

@[simp] theorem mark_dataUsed :
    (fs.mark z).dataUsed y = true ↔ y = z ∨ fs.dataUsed y = true := by
  by_cases hy : y = z <;> simp [mark, hy]

end FileSystem

/-- The helpers of `minixfs_utils` and of the operating system.  A missing inode, a
missing inode number and a failed allocation are `none`. -/
structure Utils (G : Geometry) where
  getInode : FileSystem G → String → Option ℕ
  firstUnusedInode : FileSystem G → Option ℕ
  /-- The parent of a path and the name of the path in it. -/
  parentDirectory : FileSystem G → String → Option ℕ × String
  validFilename : String → Bool
  makeStringFromDirent : String → ℕ → Fin G.FILE_NAME_ENTRY → UInt8
  initInode : Inode G → Inode G → Inode G
  firstUnusedData : FileSystem G → ℤ
  getDataUsed : FileSystem G → ℤ → Bool
  setDataUsed : FileSystem G → ℤ → FileSystem G
  minBlockcount : FileSystem G → String → ℕ → Option (FileSystem G)
  isVirtualPath : String → Option String
  geteuid : ℕ
  getegid : ℕ

inductive Errno
  | ENOENT
  | ENOSPC
  deriving DecidableEq

/-- What a read or a write returns, and the offset and `errno` after it. -/
structure Reply where
  ret : ℤ
  off : ℤ
  errno : Option Errno
  deriving DecidableEq

inductive PermissionSet
  | user
  | group
  | others
  deriving DecidableEq

def S_IWUSR : ℕ := 0o200

def S_IWGRP : ℕ := 0o020

def S_IWOTH : ℕ := 0o002

def writePermission : PermissionSet → Inode G → Bool
  | .user, node => node.mode &&& S_IWUSR ≠ 0
  | .group, node => node.mode &&& S_IWGRP ≠ 0
  | .others, node => node.mode &&& S_IWOTH ≠ 0

/-- The part of a write that has been done: the data blocks, the offset, the number of
written bytes, the rest of the buffer and the index of the last block. -/
structure Progress where
  data : Bytes
  off : ℤ
  writtenByte : ℕ
  buf : List UInt8
  blockCount : ℕ

/-- The next `n` bytes of a buffer. -/
def upTo (buf : List UInt8) (n : ℕ) : Option (List UInt8) :=
  if n ≤ buf.length then some (buf.take n) else none

namespace Utils

variable (U : Utils G)

def permissionSet (node : Inode G) : PermissionSet :=
  if U.geteuid = 0 ∨ U.geteuid = node.uid then .user
  else if U.geteuid ≠ node.uid ∧ U.getegid = node.gid then .group
  else .others

/-- The checks made before a directory entry is written.  They give the new inode, the
parent directory and the file name. -/
def creation (fs : FileSystem G) (path : String) : Option (ℕ × ℕ × String) := do
  guard (U.getInode fs path).isNone
  let newInode ← U.firstUnusedInode fs
  let parent ← (U.parentDirectory fs path).1
  let filename := (U.parentDirectory fs path).2
  guard (U.validFilename filename)
  guard (writePermission (U.permissionSet (fs.inodeRoot parent)) (fs.inodeRoot parent))
  pure (newInode, parent, filename)

/-- The entry is copied behind the last entry of the directory `parent`.  The flag tells
whether a block was found for it. -/
def addEntry (fs : FileSystem G) (parent : ℕ) (entry : List UInt8) :
    Option (FileSystem G × Bool) :=
  let node := fs.inodeRoot parent
  let blockNum := node.size / G.blockSize
  let blockRemain := node.size % G.blockSize
  if node.size ≤ G.NUM_DIRECT_BLOCKS * G.blockSize then
    if blockRemain = 0 then
      let newBlock := U.firstUnusedData fs
      if newBlock = -1 then some (fs, false)
      else do
        let data ← G.put fs.dataRoot (newBlock * G.blockSize) entry
        let node ← node.setDirect blockNum newBlock
        pure (U.setDataUsed ({ fs with dataRoot := data }.setInode parent node) newBlock, true)
    else do
      let z ← node.directAt blockNum
      let data ← G.put fs.dataRoot (z * G.blockSize + blockRemain) entry
      pure ({ fs with dataRoot := data }, true)
  else if node.size ≤ (G.NUM_DIRECT_BLOCKS + G.NUM_INDIRECT_BLOCKS) * G.blockSize then
    if node.indirect = -1 then
      let indirectArray := U.firstUnusedData fs
      if indirectArray = -1 then some (fs, false)
      else
        let fs := U.setDataUsed (fs.setInode parent { node with indirect := indirectArray })
          indirectArray
        let newBlock := U.firstUnusedData fs
        if newBlock = -1 then some (fs, false)
        else do
          let data ← G.storeNumber fs.dataRoot indirectArray 0 newBlock
          let fs := U.setDataUsed { fs with dataRoot := data } newBlock
          let data ← G.put fs.dataRoot (newBlock * G.blockSize) entry
          pure ({ fs with dataRoot := data }, true)
    else
      let blockIndex := blockNum - G.NUM_DIRECT_BLOCKS
      if blockRemain ≠ 0 then do
        let newBlock ← G.loadNumber fs.dataRoot node.indirect blockIndex
        let data ← G.put fs.dataRoot (newBlock * G.blockSize + blockRemain) entry
        pure ({ fs with dataRoot := data }, true)
      else
        let newBlock := U.firstUnusedData fs
        if newBlock = -1 then some (fs, false)
        else do
          let data ← G.storeNumber fs.dataRoot node.indirect blockIndex newBlock
          let fs := U.setDataUsed { fs with dataRoot := data } newBlock
          let data ← G.put fs.dataRoot (newBlock * G.blockSize) entry
          pure ({ fs with dataRoot := data }, true)
  else some (fs, false)

/-- The size of the directory grows by one entry, and the new inode is initialised. -/
def finishEntry (fs : FileSystem G) (parent newInode : ℕ) : FileSystem G :=
  let node := fs.inodeRoot parent
  let fs := fs.setInode parent { node with size := node.size + G.FILE_NAME_ENTRY }
  fs.setInode newInode (U.initInode (fs.inodeRoot parent) (fs.inodeRoot newInode))

/-- The inode is `none` where the function returns `NULL`. -/
def minixfsCreateInodeForPath (fs : FileSystem G) (path : String) :
    Option (FileSystem G × Option ℕ) :=
  match U.creation fs path with
  | none => some (fs, none)
  | some (newInode, parent, filename) => do
    let entry := List.ofFn (U.makeStringFromDirent filename newInode)
    let (fs, added) ← U.addEntry fs parent entry
    if added then pure (U.finishEntry fs parent newInode, some newInode)
    else pure (fs, none)

end Utils

/-- The loop over the further direct blocks.  The first argument is the number of direct
blocks behind `block_count`. -/
def writeLoop (node : Inode G) (count : ℕ) : ℕ → Progress → Option Progress
  | 0, p => some p
  | k + 1, p =>
    if p.writtenByte ≠ count then do
      let z ← node.directAt (p.blockCount + 1)
      let writeSize := if G.blockSize < count - p.writtenByte then G.blockSize
        else count - p.writtenByte
      let bytes ← upTo p.buf writeSize
      let data ← G.put p.data (z * G.blockSize) bytes
      writeLoop node count k
        { data, off := p.off, writtenByte := p.writtenByte + writeSize,
          buf := p.buf.drop writeSize, blockCount := p.blockCount + 1 }
    else some p

/-- The copy of the buffer to the block `z`, the same for a direct and an indirect
block. -/
def writeBlocks (node : Inode G) (count blockRemain : ℕ) (z : ℤ) (p : Progress) :
    Option Progress :=
  if (blockRemain + count) % 2 ^ 64 ≤ G.blockSize then do
    let bytes ← upTo p.buf count
    let data ← G.put p.data (z * G.blockSize + blockRemain) bytes
    pure { p with data, writtenByte := p.writtenByte + count }
  else do
    let writeSize := G.blockSize - blockRemain
    let bytes ← upTo p.buf writeSize
    let data ← G.put p.data (z * G.blockSize + blockRemain) bytes
    writeLoop node count (G.NUM_DIRECT_BLOCKS - p.blockCount)
      { p with data, off := p.off + writeSize, writtenByte := p.writtenByte + writeSize
               buf := p.buf.drop writeSize }

/-- The inode `i` after its data has been written: the offset becomes its size. -/
def FileSystem.finishWrite (fs : FileSystem G) (i : ℕ) (data : Bytes) (off : ℤ)
    (mtim atim : ℕ) : FileSystem G :=
  { fs with dataRoot := data }.setInode i
    { fs.inodeRoot i with size := (off % 2 ^ 64).toNat, mtim, atim }

namespace Utils

variable (U : Utils G)

/-- The write to an inode that has been found or created. -/
def writeInode (fs : FileSystem G) (path : String) (i : ℕ) (buf : List UInt8) (off : ℤ)
    (mtim atim : ℕ) : Option (FileSystem G × Reply) :=
  let count := buf.length
  let blockRemain := (fs.inodeRoot i).size % G.blockSize
  let blockCount := G.blockCount (fs.inodeRoot i).size
  match U.minBlockcount fs path blockCount with
  | none => some (fs, ⟨-1, off, none⟩)
  | some fs => do
    let node := fs.inodeRoot i
    let p : Progress := ⟨fs.dataRoot, off, 0, buf, blockCount⟩
    let p ← (if blockCount < G.NUM_DIRECT_BLOCKS then do
        let z ← node.directAt blockCount
        writeBlocks node count blockRemain z p
      else pure p)
    if blockCount < G.NUM_DIRECT_BLOCKS ∧ p.writtenByte = count then
      let off := (p.off + count).bmod (2 ^ 64)
      pure (fs.finishWrite i p.data off mtim atim, ⟨count, off, none⟩)
    else do
      let z := node.indirect + (p.blockCount - G.NUM_DIRECT_BLOCKS)
      let p ← writeBlocks node count blockRemain z p
      pure (fs.finishWrite i p.data p.off mtim atim, ⟨count, p.off, none⟩)

def minixfsWrite (fs : FileSystem G) (path : String) (buf : List UInt8) (off : ℤ)
    (mtim atim : ℕ) : Option (FileSystem G × Reply) :=
  if G.maxFilesize < (off + buf.length).bmod (2 ^ 32) then some (fs, ⟨-1, off, some .ENOSPC⟩)
  else
    match U.getInode fs path with
    | some i => U.writeInode fs path i buf off mtim atim
    | none => do
      let (fs, created) ← U.minixfsCreateInodeForPath fs path
      match created with
      | none => pure (fs, ⟨-1, off, some .ENOSPC⟩)
      | some i => U.writeInode fs path i buf off mtim atim

/-- The text of the virtual file `info`. -/
def info (fs : FileSystem G) : List UInt8 :=
  let usedBlocks := ((List.range G.DATA_NUMBER).filter fun z ↦ U.getDataUsed fs z).length
  (s!"Free blocks: {G.DATA_NUMBER - usedBlocks}\nUsed blocks: {usedBlocks}\n").toUTF8.toList

/-- The buffer is what has been copied to it. -/
def minixfsVirtualRead (fs : FileSystem G) (path : String) (count : ℕ) (off : ℤ) :
    Option (FileSystem G × List UInt8 × Reply) :=
  if path = "info" then
    let info := U.info fs
    let rest := ((info.length - off) % 2 ^ 64).toNat
    let readByte := if count < rest then count else rest
    -- the copy ends inside the text
    if readByte = 0 ∨ (0 ≤ off ∧ off + readByte ≤ info.length) then
      some (fs, (info.drop off.toNat).take readByte,
        ⟨-1, (off + readByte).bmod (2 ^ 64), some .ENOENT⟩)
    else none
  else some (fs, [], ⟨-1, off, some .ENOENT⟩)

end Utils

/-- The loop of `minixfs_read`, which has copied `bytes` so far.  The fuel is the number
of bytes to read, since every round reads at least one. -/
def readLoop (fs : FileSystem G) (node : Inode G) (count : ℕ) :
    ℕ → ℕ → ℕ → List UInt8 → Option (List UInt8)
  | 0, _, _, bytes => some bytes
  | fuel + 1, blockCount, blockRemain, bytes =>
    if bytes.length ≠ count then do
      let z ← (if blockCount ≤ G.NUM_DIRECT_BLOCKS then node.directAt blockCount
        else if blockCount ≤ G.NUM_DIRECT_BLOCKS + G.NUM_INDIRECT_BLOCKS then
          some (node.indirect + (blockCount - G.NUM_DIRECT_BLOCKS))
        else none)
      let readSize := if count - bytes.length < G.blockSize - blockRemain then count - bytes.length
        else G.blockSize - blockRemain
      let part ← G.fetch fs.dataRoot (z * G.blockSize + blockRemain) readSize
      readLoop fs node count fuel (blockCount + 1) 0 (bytes ++ part)
    else some bytes

/-- The path is `none` for a null pointer. -/
def Utils.minixfsRead (U : Utils G) (fs : FileSystem G) (path : Option String) (count : ℕ)
    (off : ℤ) (atim : ℕ) : Option (FileSystem G × List UInt8 × Reply) :=
  match path.bind U.isVirtualPath with
  | some virtualPath => U.minixfsVirtualRead fs virtualPath count off
  | none =>
    match path.bind (U.getInode fs) with
    | none => some (fs, [], ⟨-1, off, some .ENOENT⟩)
    | some i =>
      let node := fs.inodeRoot i
      if (node.size : ℤ).bmod (2 ^ 64) ≤ off then some (fs, [], ⟨0, off, none⟩)
      else
        let start := (off % 2 ^ 64).toNat
        let blockCount := start / G.blockSize
        if G.NUM_DIRECT_BLOCKS + G.NUM_INDIRECT_BLOCKS < blockCount then
          some (fs, [], ⟨0, off, none⟩)
        else do
          let count := if node.size ≤ (start + count) % 2 ^ 64 then
              ((node.size - off) % 2 ^ 64).toNat
            else count
          let bytes ← readLoop fs node count count blockCount (start % G.blockSize) []
          pure (fs.setInode i { node with atim }, bytes, ⟨count, off + count, none⟩)

/-- A call of one of the two functions that write to the disk. -/
inductive Call
  | create (path : String)
  | write (path : String) (buf : List UInt8) (off : ℤ) (mtim atim : ℕ)

def Call.path : Call → String
  | .create path => path
  | .write path _ _ _ _ => path

def Utils.step (U : Utils G) (fs : FileSystem G) : Call → Option (FileSystem G)
  | .create path => (U.minixfsCreateInodeForPath fs path).map Prod.fst
  | .write path buf off mtim atim => (U.minixfsWrite fs path buf off mtim atim).map Prod.fst

end SystemProgramming.FindingFilesystems
