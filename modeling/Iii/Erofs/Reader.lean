import Iii.Erofs.Tree
import Iii.Lib.Trap

/-! Reading an EROFS image (`erofs/reader.rs`).

An index or a slice out of range, or arithmetic that does not fit its word, is a trap, and a loop
without a bound of its own runs out after so many rounds. Offsets are in `u64`, and `usize` has 64
bits. A read gives as many bytes as the system likes, or one of its errors. -/
namespace Iii.Erofs
open Lib

inductive ErrorKind where
  | invalidData
  | invalidInput
  | notFound
  | unexpectedEof
  | unsupported
  /-- An error of the system. -/
  | os (code : Nat)
deriving DecidableEq

structure IoError where
  kind : ErrorKind
  text : String
deriving DecidableEq

abbrev Io (α : Type) := Trap IoError α

def fail {α : Type} (kind : ErrorKind) (text : String) : Io α := Trap.fail ⟨kind, text⟩

/-- An open file: its bytes, and how many of so many bytes at an offset a `read_at` gives. Its
length is an `off_t`. -/
structure File where
  bytes : List UInt8
  readAt : Nat → Nat → Except IoError Nat
  length_lt : bytes.length < 2 ^ 63
  readAt_le : ∀ {offset len n}, readAt offset len = .ok n → n ≤ len ∧ (n = 0 ∨ offset + n ≤ bytes.length)

/-- The bits of a `usize`. -/
def usizeBits : Nat := 64

def superOffset : Nat := 1024
def superMagic : Nat := 0xE0F5E1E2
def blksiz : Nat := 4096
def nullAddr : UInt32 := 0xFFFFFFFF
def inodeExtendedSize : Nat := 64
def xattrIbodyHeaderSize : Nat := 12
def direntSize : Nat := 12
def superblockSize : Nat := 128
def inodeFlatPlain : UInt8 := 0
def inodeFlatInline : UInt8 := 2
def xattrIndexUser : UInt8 := 1
def xattrIndexTrusted : UInt8 := 4
def xattrIndexSecurity : UInt8 := 6
def sIfmt : UInt16 := 0o170000
def sIfreg : UInt16 := 0o100000
def sIfdir : UInt16 := 0o040000
def sIflnk : UInt16 := 0o120000
def sIfchr : UInt16 := 0o020000
def sIfblk : UInt16 := 0o060000
def sIfifo : UInt16 := 0o010000
def sIfsock : UInt16 := 0o140000

structure ErofsReader where
  file : File
  metaBlkaddr : UInt32
  rootNid : UInt32

inductive ErofsEntryKind where
  | regularFile
  | directory
  | symlink
  | charDevice
  | blockDevice
  | fifo
  | socket
deriving DecidableEq

/-- `PathBuf`: any bytes. -/
abbrev PathBuf := List UInt8

structure ErofsTreeEntry where
  path : PathBuf
  nid : UInt32
  kind : ErofsEntryKind
  metadata : InodeMetadata
  xattrs : List Xattr
  size : UInt64
  rdev : Option (UInt32 × UInt32)

structure InodeInfo where
  nid : UInt32
  mode : UInt16
  size : UInt64
  nlink : UInt32
  uid : UInt32
  gid : UInt32
  mtime : UInt64
  mtimeNsec : UInt32
  dataLayout : UInt8
  startblkLo : UInt32
  rdev : UInt32
  xattrIbodySize : UInt32

def InodeInfo.metadata (inode : InodeInfo) : InodeMetadata :=
  ⟨inode.uid, inode.gid, inode.mode, inode.mtime, inode.mtimeNsec⟩

/-! ### Bytes -/

/-- The number that so many bytes from an index on are, the lowest first. -/
def leBytes (buf : List UInt8) (i : Nat) : Nat → Io Nat
  | 0 => pure 0
  | n + 1 => do
    let byte ← Trap.index buf i
    let rest ← leBytes buf (i + 1) n
    pure (byte.toNat + 256 * rest)

def readExactLoop (file : File) : Nat → Nat → Nat → Io (List UInt8)
  | _, _, 0 => pure []
  | 0, _, _ + 1 => Trap.ranOut
  | fuel + 1, currentOffset, len + 1 =>
    match file.readAt currentOffset (len + 1) with
    | .error e => Trap.fail e
    | .ok 0 => fail .unexpectedEof "unexpected EOF"
    | .ok (n + 1) => do
      let next ← Trap.add 64 currentOffset (n + 1)
      let left ← Trap.sub (len + 1) (n + 1)
      let rest ← readExactLoop file fuel next left
      pure ((file.bytes.drop currentOffset).take (n + 1) ++ rest)

/-- `read_exact_at`: every round reads a byte. -/
def readExactAt (file : File) (offset len : Nat) : Io (List UInt8) := readExactLoop file len offset len

/-! ### Directory blocks -/

def dirBlockDirentCount (block : List UInt8) : Io Nat :=
  if block.length < direntSize then fail .invalidData "directory block smaller than one dirent"
  else do
    let firstNameoff ← leBytes block 8 2
    if firstNameoff < direntSize ∨ firstNameoff % direntSize ≠ 0 ∨ firstNameoff > block.length then
      fail .invalidData "invalid first dirent name offset"
    else pure (firstNameoff / direntSize)

/-- Zero bytes at the end of a name are not part of it. -/
def trimName (block : List UInt8) (nameoff : Nat) : Nat → Io Nat
  | 0 => pure 0
  | nameEnd + 1 =>
    if nameoff < nameEnd + 1 then do
      let byte ← Trap.index block nameEnd
      if byte = 0 then trimName block nameoff nameEnd else pure (nameEnd + 1)
    else pure (nameEnd + 1)

/-- Where a name ends: where the next one starts, or with the block. -/
def nameEnd (block : List UInt8) (direntOff next direntCount : Nat) : Io Nat :=
  if next < direntCount then do
    let nextOff ← Trap.add usizeBits direntOff direntSize
    leBytes block (nextOff + 8) 2
  else pure block.length

def direntName (block : List UInt8) (idx direntCount : Nat) : Io (List UInt8) :=
  if 2 ^ usizeBits ≤ idx * direntSize then fail .invalidData "dirent offset overflow"
  else if direntCount ≤ idx then fail .invalidData "dirent index out of bounds"
  else do
    let direntOff := idx * direntSize
    let direntEnd ← Trap.add usizeBits direntOff direntSize
    if direntEnd > block.length then fail .invalidData "dirent index out of bounds"
    else
      let nameoff ← leBytes block (direntOff + 8) 2
      let next ← Trap.add usizeBits idx 1
      let nameEnd ← nameEnd block direntOff next direntCount
      if nameoff > nameEnd ∨ nameEnd > block.length then fail .invalidData "dirent name range out of bounds"
      else
        let trimmed ← trimName block nameoff nameEnd
        Trap.slice block nameoff trimmed

def direntNid (block : List UInt8) (idx : Nat) : Io UInt32 :=
  if 2 ^ usizeBits ≤ idx * direntSize then fail .invalidData "dirent offset overflow"
  else do
    let direntOff := idx * direntSize
    let direntEnd ← Trap.add usizeBits direntOff direntSize
    if direntEnd > block.length then fail .invalidData "dirent NID out of bounds"
    else
      let nid ← leBytes block direntOff 8
      if 2 ^ 32 ≤ nid then fail .invalidData "dirent NID overflow" else pure (UInt32.ofNat nid)

/-- The binary search over the names of a block. -/
def lookupBlockLoop (block : List UInt8) (direntCount : Nat) (target : List UInt8) :
    Nat → Nat → Nat → Io (Option UInt32)
  | 0, left, right => if left < right then Trap.ranOut else pure none
  | fuel + 1, left, right =>
    if left < right then do
      let sum ← Trap.add usizeBits left right
      let mid := sum / 2
      let name ← direntName block mid direntCount
      if target < name then lookupBlockLoop block direntCount target fuel left mid
      else if name < target then do
        let left ← Trap.add usizeBits mid 1
        lookupBlockLoop block direntCount target fuel left right
      else do
        let nid ← direntNid block mid
        pure (some nid)
    else pure none

def lookupInDirBlock (block : List UInt8) (direntCount : Nat) (target : List UInt8) : Io (Option UInt32) :=
  lookupBlockLoop block direntCount target direntCount 0 direntCount

/-! ### Inodes -/

def inodeKind (inode : InodeInfo) : Io ErofsEntryKind :=
  let type := inode.mode &&& sIfmt
  if type = sIfreg then pure .regularFile
  else if type = sIfdir then pure .directory
  else if type = sIflnk then pure .symlink
  else if type = sIfchr then pure .charDevice
  else if type = sIfblk then pure .blockDevice
  else if type = sIfifo then pure .fifo
  else if type = sIfsock then pure .socket
  else fail .invalidData ("unsupported inode mode type: 0o" ++ String.ofList (Nat.toDigits 8 type.toNat))

def decodeDev (encoded : UInt32) : UInt32 × UInt32 :=
  ((encoded >>> 8) &&& (0x00000fff : UInt32), (encoded &&& (0x000000ff : UInt32)) ||| ((encoded >>> 12) &&& (0xffffff00 : UInt32)))

/-- `erofs_xattr_align`: `(size + 3) & !3`. -/
def xattrAlign (size : Nat) : Io Nat := do
  let sum ← Trap.add usizeBits size 3
  pure (sum / 4 * 4)

/-- The 12-byte header is the first unit. -/
def xattrIbodySize (iXattrIcount : Nat) : Io Nat :=
  if iXattrIcount = 0 then pure 0
  else do
    let units ← Trap.sub iXattrIcount 1
    let entries ← Trap.mul 32 units 4
    Trap.add 32 12 entries

/-- The full blocks of inline data. -/
def blockSegments (inode : InodeInfo) (fullBlocks : Nat) : Io (List (Nat × Nat)) :=
  if fullBlocks > 0 ∧ inode.startblkLo ≠ nullAddr then do
    let dataOffset ← Trap.mul 64 inode.startblkLo.toNat blksiz
    let blocksSize ← Trap.mul 64 fullBlocks blksiz
    pure [(dataOffset, blocksSize)]
  else pure []

def xattrName (nameIndex : Nat) (suffix : List UInt8) : Io (List UInt8) :=
  if nameIndex = xattrIndexUser.toNat then pure (ascii "user." ++ suffix)
  else if nameIndex = xattrIndexTrusted.toNat then pure (ascii "trusted." ++ suffix)
  else if nameIndex = xattrIndexSecurity.toNat then pure (ascii "security." ++ suffix)
  else fail .invalidData ("unsupported xattr name index: " ++ toString nameIndex)

def divCeil (n d : Nat) : Nat := if 0 < n % d then n / d + 1 else n / d

namespace ErofsReader

/-- `ErofsReader::new`. -/
def new (file : File) : Io ErofsReader := do
  let sb ← readExactAt file superOffset superblockSize
  let magic ← leBytes sb 0 4
  if magic ≠ superMagic then
    fail .invalidData ("bad EROFS magic: 0x" ++ String.ofList (Nat.toDigits 16 magic))
  else
    let rootNid ← leBytes sb 0x0E 2
    let metaBlkaddr ← leBytes sb 0x28 4
    pure { file := file, metaBlkaddr := UInt32.ofNat metaBlkaddr, rootNid := UInt32.ofNat rootNid }

def inodeOffset (r : ErofsReader) (nid : UInt32) : Io Nat := do
  let base ← Trap.mul 64 r.metaBlkaddr.toNat blksiz
  let slot ← Trap.mul 64 nid.toNat 32
  Trap.add 64 base slot

def readInode (r : ErofsReader) (nid : UInt32) : Io InodeInfo := do
  let offset ← r.inodeOffset nid
  let buf ← readExactAt r.file offset inodeExtendedSize
  let iFormat ← leBytes buf 0 2
  let iXattrIcount ← leBytes buf 2 2
  let mode ← leBytes buf 4 2
  let size ← leBytes buf 8 8
  let iU ← leBytes buf 16 4
  let nlink ← leBytes buf 44 4
  let uid ← leBytes buf 24 4
  let gid ← leBytes buf 28 4
  let mtime ← leBytes buf 32 8
  let mtimeNsec ← leBytes buf 40 4
  let xattrIbodySize ← xattrIbodySize iXattrIcount
  pure
    { nid := nid
      mode := UInt16.ofNat mode
      size := UInt64.ofNat size
      nlink := UInt32.ofNat nlink
      uid := UInt32.ofNat uid
      gid := UInt32.ofNat gid
      mtime := UInt64.ofNat mtime
      mtimeNsec := UInt32.ofNat mtimeNsec
      dataLayout := UInt8.ofNat (iFormat / 2 % 8)
      startblkLo := UInt32.ofNat iU
      rdev := UInt32.ofNat iU
      xattrIbodySize := UInt32.ofNat xattrIbodySize }

def checkedInodeDataLen (r : ErofsReader) (inode : InodeInfo) : Io Nat :=
  if inode.size.toNat > r.file.bytes.length then fail .invalidData "inode data size exceeds EROFS image size"
  else if 2 ^ usizeBits ≤ inode.size.toNat then fail .invalidData "inode data size does not fit in memory"
  else pure inode.size.toNat

/-- Where what follows the inode and its xattrs is. -/
def inlineOffset (r : ErofsReader) (inode : InodeInfo) : Io Nat := do
  let offset ← r.inodeOffset inode.nid
  let afterInode ← Trap.add 64 offset inodeExtendedSize
  Trap.add 64 afterInode inode.xattrIbodySize.toNat

def unsupportedLayout {α : Type} (inode : InodeInfo) : Io α :=
  fail .unsupported ("unsupported data layout: " ++ toString inode.dataLayout.toNat)

/-- What is left of inline data, after the inode. -/
def tailSegments (r : ErofsReader) (inode : InodeInfo) (tailSize : Nat) : Io (List (Nat × Nat)) :=
  if tailSize > 0 then do
    let inlineOffset ← r.inlineOffset inode
    pure [(inlineOffset, tailSize)]
  else pure []

/-- The ranges of the file that an inode's data is in. -/
def inodeDataSegments (r : ErofsReader) (inode : InodeInfo) : Io (List (Nat × Nat)) :=
  let size := inode.size.toNat
  if size = 0 then pure []
  else if inode.dataLayout = inodeFlatPlain then
    if inode.startblkLo = nullAddr then pure []
    else do
      let dataOffset ← Trap.mul 64 inode.startblkLo.toNat blksiz
      pure [(dataOffset, size)]
  else if inode.dataLayout = inodeFlatInline then do
    let blocks ← blockSegments inode (size / blksiz)
    let tail ← r.tailSegments inode (size % blksiz)
    pure (blocks ++ tail)
  else unsupportedLayout inode

def readBlocks (r : ErofsReader) (inode : InodeInfo) (fullBlocks : Nat) : Io (List UInt8) :=
  if fullBlocks > 0 ∧ inode.startblkLo ≠ nullAddr then do
    let dataOffset ← Trap.mul 64 inode.startblkLo.toNat blksiz
    let blocksSize ← Trap.mul usizeBits fullBlocks blksiz
    let blockData ← Trap.allocate usizeBits blocksSize (0 : UInt8)
    readExactAt r.file dataOffset blockData.length
  else pure []

def readTail (r : ErofsReader) (inode : InodeInfo) (tailSize : Nat) : Io (List UInt8) :=
  if tailSize > 0 then do
    let inlineOffset ← r.inlineOffset inode
    let tail ← Trap.allocate usizeBits tailSize (0 : UInt8)
    readExactAt r.file inlineOffset tail.length
  else pure []

def readInodeData (r : ErofsReader) (inode : InodeInfo) : Io (List UInt8) := do
  let size ← r.checkedInodeDataLen inode
  if size = 0 then pure []
  else if inode.dataLayout = inodeFlatPlain then
    if inode.startblkLo = nullAddr then pure []
    else do
      let dataOffset ← Trap.mul 64 inode.startblkLo.toNat blksiz
      let data ← Trap.allocate usizeBits size (0 : UInt8)
      readExactAt r.file dataOffset data.length
  else if inode.dataLayout = inodeFlatInline then do
    let blocks ← r.readBlocks inode (size / blksiz)
    let tail ← r.readTail inode (size % blksiz)
    pure (blocks ++ tail)
  else unsupportedLayout inode

/-- What a segment fills of the buffer for `start` to `stop`, if anything. -/
def copySegment (r : ErofsReader) (start stop fileOffset logicalStart logicalEnd : Nat) (data : List UInt8)
    (copied : Nat) : Io (List UInt8 × Nat) :=
  let overlapStart := max start logicalStart
  let overlapEnd := min stop logicalEnd
  if overlapStart < overlapEnd then do
    let dstStart ← Trap.sub overlapStart start
    let readLen ← Trap.sub overlapEnd overlapStart
    let skipped ← Trap.sub overlapStart logicalStart
    if 2 ^ 64 ≤ fileOffset + skipped then fail .invalidData "inode file offset overflow"
    else
      let dstEnd ← Trap.add usizeBits dstStart readLen
      let part ← Trap.slice data dstStart dstEnd
      let bytes ← readExactAt r.file (fileOffset + skipped) part.length
      let data ← Trap.write data dstStart bytes
      let copied ← Trap.add usizeBits copied readLen
      pure (data, copied)
  else pure (data, copied)

/-- The segments one after the other, from `logicalStart` on: the buffer, and how many bytes of it are
filled. -/
def copySegments (r : ErofsReader) (start stop : Nat) :
    List (Nat × Nat) → Nat → List UInt8 → Nat → Io (List UInt8 × Nat)
  | [], _, data, copied => pure (data, copied)
  | (fileOffset, segmentLen) :: rest, logicalStart, data, copied =>
    if 2 ^ 64 ≤ logicalStart + segmentLen then fail .invalidData "inode segment range overflow"
    else do
      let logicalEnd := logicalStart + segmentLen
      let (data, copied) ← r.copySegment start stop fileOffset logicalStart logicalEnd data copied
      if logicalEnd ≥ stop then pure (data, copied) else copySegments r start stop rest logicalEnd data copied

def readInodeDataRange (r : ErofsReader) (inode : InodeInfo) (start len : UInt64) : Io (List UInt8) := do
  let size ← r.checkedInodeDataLen inode
  if 2 ^ 64 ≤ start.toNat + len.toNat then fail .invalidData "inode range overflow"
  else
    let stop := start.toNat + len.toNat
    if stop > size then fail .invalidData "inode data range exceeds inode size"
    else
      let segments ← r.inodeDataSegments inode
      let data ← Trap.allocate usizeBits len.toNat (0 : UInt8)
      let (data, copied) ← r.copySegments start.toNat stop segments 0 data 0
      if copied ≠ len.toNat then fail .unexpectedEof "inode data range is not fully backed" else pure data

def readInodeDataBlock (r : ErofsReader) (inode : InodeInfo) (blockIndex : Nat) : Io (List UInt8) := do
  let size ← r.checkedInodeDataLen inode
  if 2 ^ usizeBits ≤ blockIndex * blksiz then fail .invalidData "directory block overflow"
  else
    let start := blockIndex * blksiz
    if start ≥ size then pure []
    else
      let remaining ← Trap.sub size start
      let len := min remaining blksiz
      r.readInodeDataRange inode (UInt64.ofNat start) (UInt64.ofNat len)

/-- The entries of the xattr area, from an offset on. -/
def xattrLoop (r : ErofsReader) : Nat → Nat → Nat → Io (List (List UInt8 × List UInt8))
  | _, _, 0 => pure []
  | 0, _, _ + 1 => Trap.ranOut
  | fuel + 1, offset, left + 1 =>
    let remaining := left + 1
    if remaining < 4 then fail .invalidData "truncated xattr entry header"
    else do
      let entry ← readExactAt r.file offset 4
      let nameLen ← leBytes entry 0 1
      let nameIndex ← leBytes entry 1 1
      let valueLen ← leBytes entry 2 2
      let headed ← Trap.add usizeBits 4 nameLen
      let entrySize ← Trap.add usizeBits headed valueLen
      let alignedSize ← xattrAlign entrySize
      if alignedSize > remaining then fail .invalidData "xattr entry exceeds ibody size"
      else
        let suffix ← Trap.allocate usizeBits nameLen (0 : UInt8)
        let suffixOffset ← Trap.add 64 offset 4
        let suffix ← readExactAt r.file suffixOffset suffix.length
        let value ← Trap.allocate usizeBits valueLen (0 : UInt8)
        let valueOffset ← Trap.add 64 suffixOffset nameLen
        let value ← readExactAt r.file valueOffset value.length
        let name ← xattrName nameIndex suffix
        let next ← Trap.add 64 offset alignedSize
        let remaining ← Trap.sub remaining alignedSize
        let rest ← r.xattrLoop fuel next remaining
        pure ((name, value) :: rest)

def readInodeXattrs (r : ErofsReader) (inode : InodeInfo) : Io (List (List UInt8 × List UInt8)) :=
  if inode.xattrIbodySize = 0 then pure []
  else
    let total := inode.xattrIbodySize.toNat
    if total < xattrIbodyHeaderSize then fail .invalidData "xattr ibody smaller than header"
    else do
      let offset ← r.inodeOffset inode.nid
      let afterInode ← Trap.add 64 offset inodeExtendedSize
      let offset ← Trap.add 64 afterInode xattrIbodyHeaderSize
      let remaining ← Trap.sub total xattrIbodyHeaderSize
      r.xattrLoop remaining offset remaining

/-! ### Paths -/

def notFound {α : Type} (name : String) : Io α := fail .notFound ("entry '" ++ name ++ "' not found in directory")

/-- The binary search over the blocks of a directory. -/
def lookupDirLoop (r : ErofsReader) (dirInode : InodeInfo) (name : String) : Nat → Nat → Nat → Io UInt32
  | 0, left, right => if left < right then Trap.ranOut else notFound name
  | fuel + 1, left, right =>
    if left < right then do
      let target := name.toUTF8.toList
      let sum ← Trap.add usizeBits left right
      let mid := sum / 2
      let block ← r.readInodeDataBlock dirInode mid
      let direntCount ← dirBlockDirentCount block
      let firstName ← direntName block 0 direntCount
      let last ← Trap.sub direntCount 1
      let lastName ← direntName block last direntCount
      if target < firstName then r.lookupDirLoop dirInode name fuel left mid
      else if lastName < target then do
        let left ← Trap.add usizeBits mid 1
        r.lookupDirLoop dirInode name fuel left right
      else do
        let found ← lookupInDirBlock block direntCount target
        match found with
        | some nid => pure nid
        | none => notFound name
    else notFound name

def lookupInDir (r : ErofsReader) (dirInode : InodeInfo) (name : String) : Io UInt32 := do
  let size ← r.checkedInodeDataLen dirInode
  let blockCount := divCeil size blksiz
  r.lookupDirLoop dirInode name blockCount 0 blockCount

def lookupComponents (r : ErofsReader) (currentNid : UInt32) : List String → Io InodeInfo
  | [] => fail .notFound "path not found"
  | component :: rest => do
    let inode ← r.readInode currentNid
    if inode.mode &&& sIfmt ≠ sIfdir then
      fail .notFound ("not a directory at component '" ++ component ++ "'")
    else
      let targetNid ← r.lookupInDir inode component
      if rest.isEmpty then r.readInode targetNid else r.lookupComponents targetNid rest

/-- The parts of a path between its slashes. -/
def components (path : String) : List String :=
  ((path.toList.dropWhile (· = '/')).splitOn '/').map String.ofList |>.filter (· ≠ "")

def lookupPath (r : ErofsReader) (path : String) : Io InodeInfo :=
  if components path = [] then
    if path = "/" then r.readInode r.rootNid else fail .invalidInput "empty path"
  else r.lookupComponents r.rootNid (components path)

/-- The data of the inode at a path, which must be of a type. -/
def readTyped (r : ErofsReader) (type : UInt16) (mistaken path : String) : Io (List UInt8) := do
  let targetInode ← r.lookupPath path
  if targetInode.mode &&& sIfmt ≠ type then fail .invalidInput mistaken else r.readInodeData targetInode

def readFile (r : ErofsReader) (path : String) : Io (List UInt8) :=
  r.readTyped sIfreg "target is not a regular file" path

def readLink (r : ErofsReader) (path : String) : Io (List UInt8) := r.readTyped sIflnk "target is not a symlink" path

/-! ### The walk -/

section
variable {σ : Type}

/-- The entries of a block, from an index on. -/
def visitDirents (block : List UInt8) (direntCount : Nat) (visit : σ → List UInt8 → UInt32 → Io σ) (s : σ) :
    List Nat → Io σ
  | [] => pure s
  | idx :: rest => do
    let name ← direntName block idx direntCount
    if name.isEmpty then visitDirents block direntCount visit s rest
    else
      let nid ← direntNid block idx
      let s ← visit s name nid
      visitDirents block direntCount visit s rest

def visitBlocks (r : ErofsReader) (dirInode : InodeInfo) (visit : σ → List UInt8 → UInt32 → Io σ) (s : σ) :
    List Nat → Io σ
  | [] => pure s
  | blockIndex :: rest => do
    let block ← r.readInodeDataBlock dirInode blockIndex
    if block.isEmpty then r.visitBlocks dirInode visit s rest
    else
      let direntCount ← dirBlockDirentCount block
      let s ← visitDirents block direntCount visit s (List.range direntCount)
      r.visitBlocks dirInode visit s rest

def visitDirEntries (r : ErofsReader) (dirInode : InodeInfo) (visit : σ → List UInt8 → UInt32 → Io σ) (s : σ) : Io σ :=
  if dirInode.mode &&& sIfmt ≠ sIfdir then fail .invalidInput "target is not a directory"
  else do
    let size ← r.checkedInodeDataLen dirInode
    r.visitBlocks dirInode visit s (List.range (divCeil size blksiz))

end

def treeEntry (r : ErofsReader) (path : PathBuf) (inode : InodeInfo) : Io ErofsTreeEntry := do
  let kind ← inodeKind inode
  let xattrs ← r.readInodeXattrs inode
  pure
    { path := path
      nid := inode.nid
      kind := kind
      metadata := inode.metadata
      xattrs := xattrs.map fun (name, value) => ⟨name, value⟩
      size := inode.size
      rdev := if kind = .charDevice ∨ kind = .blockDevice then some (decodeDev inode.rdev) else none }

/-- `Path::join`: a name that starts with a slash stands for itself. -/
def join (dirPath : PathBuf) (name : List UInt8) : PathBuf :=
  if name.head? = some 47 then name
  else if dirPath = [] ∨ dirPath.getLast? = some 47 then dirPath ++ name
  else dirPath ++ 47 :: name

/-- `walk_dir_entries`: what `visit` keeps, and the directories that were visited. A directory is
entered at most so many levels deep. -/
def walkDirEntries {σ : Type} (r : ErofsReader) (visit : σ → ErofsTreeEntry → Io σ) :
    Nat → InodeInfo → PathBuf → σ × List UInt32 → Io (σ × List UInt32)
  | 0, _, _, _ => Trap.ranOut
  | depth + 1, dirInode, dirPath, (s, visited) =>
    if visited.contains dirInode.nid then fail .invalidData "cycle detected while walking EROFS directory tree"
    else
      r.visitDirEntries dirInode (fun (s, visited) name nid =>
        if name = ascii "." ∨ name = ascii ".." then pure (s, visited)
        else do
          let path := join dirPath name
          let inode ← r.readInode nid
          let entry ← r.treeEntry path inode
          let s ← visit s entry
          if entry.kind = .directory then r.walkDirEntries visit depth inode path (s, visited) else pure (s, visited))
        (s, dirInode.nid :: visited)

/-- `walk_dir` visits an entry by keeping it. -/
def walkDir (r : ErofsReader) (depth : Nat) (dirInode : InodeInfo) (dirPath : PathBuf)
    (entries : List ErofsTreeEntry) (visited : List UInt32) : Io (List ErofsTreeEntry × List UInt32) :=
  r.walkDirEntries (fun entries entry => pure (entries ++ [entry])) depth dirInode dirPath (entries, visited)

def walk (r : ErofsReader) (depth : Nat) : Io (List ErofsTreeEntry) := do
  let root ← r.readInode r.rootNid
  let (entries, _) ← r.walkDir depth root [] [] []
  pure entries

end ErofsReader

end Iii.Erofs
