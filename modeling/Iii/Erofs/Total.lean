import Iii.Erofs.Reader
import Mathlib.Data.List.Perm.Subperm

/-! The reader has a result on every image: nothing in it traps, and every loop ends in its rounds. -/
namespace Iii.Erofs
open Lib Trap

variable {α : Type} {file : File} {r : ErofsReader} {inode : InodeInfo}

theorem ends_fail (kind : ErrorKind) (text : String) (Q : α → Prop) : Ends (Erofs.fail kind text) Q := trivial

/-! ### Bytes -/

theorem ends_leBytes {buf : List UInt8} {i n : Nat} (h : i + n ≤ buf.length) :
    Ends (leBytes buf i n) (· < 256 ^ n) := by
  induction n generalizing i with
  | zero => exact Nat.one_pos
  | succ n ih =>
    refine (ends_index (by omega)).bind fun byte _ => ?_
    refine (ih (by omega)).bind fun rest hrest => ?_
    have hbyte := byte.toNat_lt
    show byte.toNat + 256 * rest < 256 ^ (n + 1)
    rw [Nat.pow_succ]
    omega

/-- The bytes of the file are there when a read gives them. -/
theorem ends_readExactLoop (file : File) {fuel offset len : Nat} (hfuel : len ≤ fuel) :
    Ends (readExactLoop file fuel offset len) (·.length = len) := by
  induction fuel generalizing offset len with
  | zero =>
    obtain rfl : len = 0 := by omega
    exact rfl
  | succ fuel ih =>
    cases len with
    | zero => exact rfl
    | succ len =>
      rw [readExactLoop]
      split
      · exact Ends.fail _
      · exact ends_fail _ _ _
      · rename_i n hread
        obtain ⟨hle, hzero | hbytes⟩ := file.readAt_le hread
        · omega
        · have hlength := file.length_lt
          refine (ends_add (by omega)).bind fun next hnext => ?_
          refine (ends_sub hle).bind fun left hleft => ?_
          refine (ih (by omega)).bind fun rest hrest => ?_
          show (_ ++ rest).length = len + 1
          rw [List.length_append, List.length_take, List.length_drop, hrest]
          omega

theorem ends_readExactAt (file : File) (offset len : Nat) : Ends (readExactAt file offset len) (·.length = len) :=
  ends_readExactLoop file (Nat.le_refl _)

theorem divCeil_le (n d : Nat) : divCeil n d ≤ n / d + 1 := by
  unfold divCeil
  split <;> omega

/-! ### Directory blocks -/

/-- The dirents that a block has lie in it. -/
theorem ends_dirBlockDirentCount (block : List UInt8) :
    Ends (dirBlockDirentCount block) fun count => 1 ≤ count ∧ count * direntSize ≤ block.length ∧ count < 2 ^ 16 := by
  refine Ends.ite (fun _ => ends_fail _ _ _) fun hsize => ?_
  simp only [direntSize] at hsize ⊢
  refine (ends_leBytes (by omega)).bind fun firstNameoff hlt => ?_
  refine Ends.ite (fun _ => ends_fail _ _ _) fun hvalid => ?_
  simp only [not_or, Nat.not_lt, not_not] at hvalid
  show 1 ≤ firstNameoff / 12 ∧ firstNameoff / 12 * 12 ≤ block.length ∧ firstNameoff / 12 < 2 ^ 16
  omega

variable {block : List UInt8} {direntCount : Nat}

theorem ends_trimName {nameoff nameEnd : Nat} (hle : nameoff ≤ nameEnd) (hend : nameEnd ≤ block.length) :
    Ends (trimName block nameoff nameEnd) fun trimmed => nameoff ≤ trimmed ∧ trimmed ≤ block.length := by
  induction nameEnd with
  | zero => exact ⟨hle, hend⟩
  | succ nameEnd ih =>
    refine Ends.ite (fun hlt => ?_) fun _ => ⟨hle, hend⟩
    refine (ends_index (by omega)).bind fun byte _ => ?_
    exact Ends.ite (fun _ => ih (by omega) (by omega)) fun _ => ⟨hle, hend⟩

theorem ends_nameEnd (idx : Nat) (hcount : direntCount * direntSize ≤ block.length)
    (hshort : direntCount < 2 ^ 16) :
    Ends (nameEnd block (idx * direntSize) (idx + 1) direntCount) fun _ => True := by
  simp only [direntSize] at hcount
  refine Ends.ite (fun hmore => ?_) fun _ => trivial
  simp only [direntSize, usizeBits]
  refine (ends_add (by omega)).bind fun nextOff hnextOff => ?_
  exact (ends_leBytes (by omega)).mono fun _ _ => trivial

theorem ends_direntName {idx : Nat} (hcount : direntCount * direntSize ≤ block.length)
    (hshort : direntCount < 2 ^ 16) : Ends (direntName block idx direntCount) fun _ => True := by
  have hend := ends_nameEnd idx hcount hshort
  simp only [direntSize] at hcount hend
  refine Ends.ite (fun _ => ends_fail _ _ _) fun _ => ?_
  refine Ends.ite (fun _ => ends_fail _ _ _) fun hidx => ?_
  simp only [direntSize, usizeBits]
  refine (ends_add (by omega)).bind fun direntEnd hdirentEnd => ?_
  refine Ends.ite (fun _ => ends_fail _ _ _) fun hinside => ?_
  refine (ends_leBytes (by omega)).bind fun nameoff _ => ?_
  refine (ends_add (by omega)).bind fun next hnext => ?_
  subst hnext
  refine hend.bind fun nameEnd _ => ?_
  refine Ends.ite (fun _ => ends_fail _ _ _) fun hrange => ?_
  simp only [not_or, Nat.not_lt] at hrange
  refine (ends_trimName hrange.1 hrange.2).bind fun trimmed htrimmed => ?_
  exact (ends_slice htrimmed.1 htrimmed.2).mono fun _ _ => trivial

theorem ends_direntNid {idx : Nat} (hidx : idx < 2 ^ 16) :
    Ends (direntNid block idx) fun _ => True := by
  refine Ends.ite (fun _ => ends_fail _ _ _) fun _ => ?_
  simp only [direntSize, usizeBits]
  refine (ends_add (by omega)).bind fun direntEnd hdirentEnd => ?_
  refine Ends.ite (fun _ => ends_fail _ _ _) fun hinside => ?_
  refine (ends_leBytes (by omega)).bind fun nid _ => ?_
  exact Ends.ite (fun _ => ends_fail _ _ _) fun _ => trivial

/-- The part of the block that is left is smaller after every round. -/
theorem ends_lookupBlockLoop {target : List UInt8} {fuel left right : Nat}
    (hcount : direntCount * direntSize ≤ block.length) (hshort : direntCount < 2 ^ 16)
    (hright : right ≤ direntCount) (hfuel : right - left ≤ fuel) :
    Ends (lookupBlockLoop block direntCount target fuel left right) fun _ => True := by
  induction fuel generalizing left right with
  | zero =>
    rw [lookupBlockLoop, if_neg (by omega)]
    trivial
  | succ fuel ih =>
    refine Ends.ite (fun hlt => ?_) fun _ => trivial
    simp only [usizeBits]
    refine (ends_add (by omega)).bind fun sum hsum => ?_
    refine (ends_direntName hcount hshort).bind fun name _ => ?_
    refine Ends.ite (fun _ => ih (by omega) (by omega)) fun _ => ?_
    refine Ends.ite (fun _ => ?_) fun _ => ?_
    · refine (ends_add (by omega)).bind fun left' hleft => ?_
      exact ih hright (by omega)
    · exact (ends_direntNid (by omega)).bind fun nid _ => trivial

theorem ends_lookupInDirBlock (target : List UInt8) (hcount : direntCount * direntSize ≤ block.length)
    (hshort : direntCount < 2 ^ 16) :
    Ends (lookupInDirBlock block direntCount target) fun _ => True :=
  ends_lookupBlockLoop hcount hshort (Nat.le_refl _) (Nat.sub_le _ _)

/-! ### Inodes -/

theorem ends_inodeKind (inode : InodeInfo) : Ends (inodeKind inode) fun _ => True := by
  unfold inodeKind
  extract_lets type
  repeat' first | exact trivial | exact ends_fail _ _ _ | apply Ends.ite <;> intro _

theorem ends_xattrAlign {size : Nat} (h : size < 2 ^ 32) :
    Ends (xattrAlign size) fun aligned => size ≤ aligned ∧ aligned < 2 ^ 33 := by
  refine (ends_add (by simp only [usizeBits]; omega)).bind fun sum hsum => ?_
  show size ≤ sum / 4 * 4 ∧ sum / 4 * 4 < 2 ^ 33
  omega

theorem ends_xattrIbodySize {iXattrIcount : Nat} (h : iXattrIcount < 2 ^ 16) :
    Ends (xattrIbodySize iXattrIcount) fun _ => True := by
  refine Ends.ite (fun _ => trivial) fun hpos => ?_
  refine (ends_sub (by omega)).bind fun units hunits => ?_
  refine (ends_mul (by omega)).bind fun entries hentries => ?_
  exact (ends_add (by omega)).mono fun _ _ => trivial

/-- A block's offset fits. -/
theorem startblk_lt (inode : InodeInfo) : inode.startblkLo.toNat * blksiz < 2 ^ 64 := by
  have hstart := inode.startblkLo.toNat_lt
  simp only [blksiz]
  omega

theorem ends_blockSegments {fullBlocks : Nat} (h : fullBlocks * blksiz < 2 ^ 63) (inode : InodeInfo) :
    Ends (blockSegments inode fullBlocks) fun _ => True := by
  refine Ends.ite (fun _ => ?_) fun _ => trivial
  refine (ends_mul (startblk_lt inode)).bind fun dataOffset _ => ?_
  refine (ends_mul (Nat.lt_trans h (by decide))).bind fun blocksSize _ => ?_
  exact trivial

namespace ErofsReader

theorem ends_new (file : File) : Ends (ErofsReader.new file) fun _ => True := by
  refine (ends_readExactAt file _ _).bind fun sb hsb => ?_
  simp only [superblockSize] at hsb
  refine (ends_leBytes (by omega)).bind fun magic _ => ?_
  refine Ends.ite (fun _ => ends_fail _ _ _) fun _ => ?_
  refine (ends_leBytes (by omega)).bind fun rootNid _ => ?_
  exact (ends_leBytes (by omega)).bind fun metaBlkaddr _ => trivial

/-- Inodes start well below the end of what an offset can be. -/
theorem ends_inodeOffset (r : ErofsReader) (nid : UInt32) : Ends (r.inodeOffset nid) (· < 2 ^ 45) := by
  have hmeta := r.metaBlkaddr.toNat_lt
  have hnid := nid.toNat_lt
  simp only [inodeOffset, blksiz]
  refine (ends_mul (by omega)).bind fun base hbase => ?_
  refine (ends_mul (by omega)).bind fun slot hslot => ?_
  exact (ends_add (by omega)).mono fun offset hoffset => by omega

theorem ends_inlineOffset (r : ErofsReader) (inode : InodeInfo) : Ends (r.inlineOffset inode) fun _ => True := by
  have hsize := inode.xattrIbodySize.toNat_lt
  refine (ends_inodeOffset r inode.nid).bind fun offset hoffset => ?_
  simp only [inodeExtendedSize]
  refine (ends_add (by omega)).bind fun afterInode hafter => ?_
  exact (ends_add (by omega)).mono fun _ _ => trivial

theorem ends_readInode (r : ErofsReader) (nid : UInt32) : Ends (r.readInode nid) fun _ => True := by
  refine (ends_inodeOffset r nid).bind fun offset _ => ?_
  refine (ends_readExactAt r.file _ _).bind fun buf hbuf => ?_
  simp only [inodeExtendedSize] at hbuf
  refine (ends_leBytes (by omega)).bind fun iFormat _ => ?_
  refine (ends_leBytes (by omega)).bind fun iXattrIcount hicount => ?_
  refine (ends_leBytes (by omega)).bind fun mode _ => ?_
  refine (ends_leBytes (by omega)).bind fun size _ => ?_
  refine (ends_leBytes (by omega)).bind fun iU _ => ?_
  refine (ends_leBytes (by omega)).bind fun nlink _ => ?_
  refine (ends_leBytes (by omega)).bind fun uid _ => ?_
  refine (ends_leBytes (by omega)).bind fun gid _ => ?_
  refine (ends_leBytes (by omega)).bind fun mtime _ => ?_
  refine (ends_leBytes (by omega)).bind fun mtimeNsec _ => ?_
  exact (ends_xattrIbodySize hicount).bind fun xattrIbodySize _ => trivial

/-- An inode's data is no longer than the image. -/
theorem ends_checkedInodeDataLen (r : ErofsReader) (inode : InodeInfo) :
    Ends (r.checkedInodeDataLen inode) fun size => size = inode.size.toNat ∧ size < 2 ^ 63 := by
  have hlength := r.file.length_lt
  refine Ends.ite (fun _ => ends_fail _ _ _) fun hsize => ?_
  refine Ends.ite (fun _ => ends_fail _ _ _) fun _ => ?_
  exact ⟨rfl, by omega⟩

theorem ends_inodeDataSegments (r : ErofsReader) {inode : InodeInfo} (hsize : inode.size.toNat < 2 ^ 63) :
    Ends (r.inodeDataSegments inode) fun _ => True := by
  unfold inodeDataSegments
  extract_lets size
  refine Ends.ite (fun _ => trivial) fun _ => ?_
  refine Ends.ite (fun _ => ?_) fun _ => ?_
  · refine Ends.ite (fun _ => trivial) fun _ => ?_
    refine (ends_mul (startblk_lt inode)).bind fun dataOffset _ => ?_
    exact trivial
  · refine Ends.ite (fun _ => ?_) fun _ => ends_fail _ _ _
    refine (ends_blockSegments (by simp only [blksiz]; omega) inode).bind fun blocks _ => ?_
    have htail : Ends (r.tailSegments inode (size % blksiz)) fun _ => True :=
      Ends.ite (fun _ => (ends_inlineOffset r inode).bind fun inlineOffset _ => trivial) fun _ => trivial
    exact htail.bind fun tail _ => trivial

theorem ends_readBlocks (r : ErofsReader) {fullBlocks : Nat} (h : fullBlocks * blksiz < 2 ^ 63) (inode : InodeInfo) :
    Ends (r.readBlocks inode fullBlocks) fun _ => True := by
  refine Ends.ite (fun _ => ?_) fun _ => trivial
  refine (ends_mul (startblk_lt inode)).bind fun dataOffset _ => ?_
  refine (ends_mul (Nat.lt_trans h (by decide))).bind fun blocksSize hblocks => ?_
  refine (ends_allocate (hblocks ▸ h)).bind fun blockData _ => ?_
  exact (ends_readExactAt r.file _ _).mono fun _ _ => trivial

theorem ends_readTail (r : ErofsReader) {tailSize : Nat} (h : tailSize < 2 ^ 63) (inode : InodeInfo) :
    Ends (r.readTail inode tailSize) fun _ => True := by
  refine Ends.ite (fun _ => ?_) fun _ => trivial
  refine (ends_inlineOffset r inode).bind fun inlineOffset _ => ?_
  refine (ends_allocate (by simp only [usizeBits]; omega)).bind fun tail _ => ?_
  exact (ends_readExactAt r.file _ _).mono fun _ _ => trivial

theorem ends_readInodeData (r : ErofsReader) (inode : InodeInfo) : Ends (r.readInodeData inode) fun _ => True := by
  refine (ends_checkedInodeDataLen r inode).bind fun size ⟨_, hsize⟩ => ?_
  refine Ends.ite (fun _ => trivial) fun _ => ?_
  refine Ends.ite (fun _ => ?_) fun _ => ?_
  · refine Ends.ite (fun _ => trivial) fun _ => ?_
    refine (ends_mul (startblk_lt inode)).bind fun dataOffset _ => ?_
    refine (ends_allocate (by simp only [usizeBits]; omega)).bind fun data _ => ?_
    exact (ends_readExactAt r.file _ _).mono fun _ _ => trivial
  · refine Ends.ite (fun _ => ?_) fun _ => ends_fail _ _ _
    refine (ends_readBlocks r (by simp only [blksiz]; omega) inode).bind fun blocks _ => ?_
    refine (ends_readTail r (by simp only [blksiz]; omega) inode).bind fun tail _ => trivial

/-- A segment fills its part of the buffer, after what the segments before it filled. -/
theorem ends_copySegment (r : ErofsReader) {start stop fileOffset logicalStart logicalEnd copied len : Nat}
    {data : List UInt8} (hstop : stop = start + len) (hlen : len < 2 ^ 63) (hdata : data.length = len)
    (hcopied : copied ≤ logicalStart - start) (hle : logicalStart ≤ logicalEnd) (hbefore : copied ≤ len) :
    Ends (r.copySegment start stop fileOffset logicalStart logicalEnd data copied) fun p =>
      p.1.length = len ∧ p.2 ≤ logicalEnd - start ∧ p.2 ≤ len := by
  unfold copySegment
  extract_lets overlapStart overlapEnd
  refine Ends.ite (fun hoverlap => ?_) fun _ => ⟨hdata, by simp only; omega, hbefore⟩
  have hstart : start ≤ overlapStart := Nat.le_max_left ..
  have hlogical : logicalStart ≤ overlapStart := Nat.le_max_right ..
  have hend : overlapEnd ≤ stop := Nat.min_le_left ..
  have hlogicalEnd : overlapEnd ≤ logicalEnd := Nat.min_le_right ..
  simp only [usizeBits]
  refine (ends_sub hstart).bind fun dstStart hdst => ?_
  refine (ends_sub (by omega)).bind fun readLen hread => ?_
  refine (ends_sub hlogical).bind fun skipped _ => ?_
  refine Ends.ite (fun _ => ends_fail _ _ _) fun _ => ?_
  refine (ends_add (by omega)).bind fun dstEnd hdstEnd => ?_
  refine (ends_slice (by omega) (by omega)).bind fun part hpart => ?_
  refine (ends_readExactAt r.file _ _).bind fun bytes hbytes => ?_
  refine (ends_write (by omega)).bind fun data' hdata' => ?_
  refine (ends_add (by omega)).bind fun copied' hcopied' => ?_
  show data'.length = len ∧ copied' ≤ logicalEnd - start ∧ copied' ≤ len
  omega

theorem ends_copySegments (r : ErofsReader) {start stop copied len : Nat} (segments : List (Nat × Nat))
    {logicalStart : Nat} {data : List UInt8} (hstop : stop = start + len) (hlen : len < 2 ^ 63)
    (hdata : data.length = len) (hcopied : copied ≤ logicalStart - start) (hbefore : copied ≤ len) :
    Ends (r.copySegments start stop segments logicalStart data copied) fun p => p.1.length = len := by
  induction segments generalizing logicalStart data copied with
  | nil => exact hdata
  | cons segment rest ih =>
    obtain ⟨fileOffset, segmentLen⟩ := segment
    refine Ends.ite (fun _ => ends_fail _ _ _) fun _ => ?_
    refine (ends_copySegment r hstop hlen hdata hcopied (Nat.le_add_right _ _) hbefore).bind fun p hp => ?_
    exact Ends.ite (fun _ => hp.1) fun _ => ih hp.1 hp.2.1 hp.2.2

theorem ends_readInodeDataRange (r : ErofsReader) (inode : InodeInfo) (start len : UInt64) :
    Ends (r.readInodeDataRange inode start len) (·.length = len.toNat) := by
  refine (ends_checkedInodeDataLen r inode).bind fun size ⟨hinode, hsize⟩ => ?_
  refine Ends.ite (fun _ => ends_fail _ _ _) fun _ => ?_
  refine Ends.ite (fun _ => ends_fail _ _ _) fun hinside => ?_
  refine (ends_inodeDataSegments r (hinode ▸ hsize)).bind fun segments _ => ?_
  refine (ends_allocate (by simp only [usizeBits]; omega)).bind fun data hdata => ?_
  refine (ends_copySegments r segments rfl (by omega) hdata (Nat.zero_le _) (Nat.zero_le _)).bind fun p hp => ?_
  exact Ends.ite (fun _ => ends_fail _ _ _) fun _ => hp

theorem ends_readInodeDataBlock (r : ErofsReader) (inode : InodeInfo) (blockIndex : Nat) :
    Ends (r.readInodeDataBlock inode blockIndex) fun _ => True := by
  refine (ends_checkedInodeDataLen r inode).bind fun size _ => ?_
  refine Ends.ite (fun _ => ends_fail _ _ _) fun _ => ?_
  refine Ends.ite (fun _ => trivial) fun hstart => ?_
  refine (ends_sub (by omega)).bind fun remaining _ => ?_
  exact (ends_readInodeDataRange r inode _ _).mono fun _ _ => trivial

/-- Every entry takes at least its header from what remains. -/
theorem ends_xattrLoop (r : ErofsReader) {fuel offset remaining : Nat} (hfuel : remaining ≤ fuel)
    (hoffset : offset + remaining < 2 ^ 50) : Ends (r.xattrLoop fuel offset remaining) fun _ => True := by
  induction fuel generalizing offset remaining with
  | zero =>
    obtain rfl : remaining = 0 := by omega
    trivial
  | succ fuel ih =>
    cases remaining with
    | zero => trivial
    | succ left =>
      rw [xattrLoop]
      refine Ends.ite (fun _ => ends_fail _ _ _) fun _ => ?_
      refine (ends_readExactAt r.file _ _).bind fun entry hentry => ?_
      refine (ends_leBytes (by omega)).bind fun nameLen hname => ?_
      refine (ends_leBytes (by omega)).bind fun nameIndex _ => ?_
      refine (ends_leBytes (by omega)).bind fun valueLen hvalue => ?_
      simp only [usizeBits]
      refine (ends_add (by omega)).bind fun headed hheaded => ?_
      refine (ends_add (by omega)).bind fun entrySize hentrySize => ?_
      refine (ends_xattrAlign (by omega)).bind fun alignedSize haligned => ?_
      refine Ends.ite (fun _ => ends_fail _ _ _) fun hinside => ?_
      refine (ends_allocate (by omega)).bind fun _ _ => ?_
      refine (ends_add (by omega)).bind fun suffixOffset hsuffix => ?_
      refine (ends_readExactAt r.file _ _).bind fun suffix _ => ?_
      refine (ends_allocate (by omega)).bind fun _ _ => ?_
      refine (ends_add (by omega)).bind fun valueOffset _ => ?_
      refine (ends_readExactAt r.file _ _).bind fun value _ => ?_
      have hnamed : Ends (xattrName nameIndex suffix) fun _ => True := by
        unfold xattrName
        repeat' first | exact trivial | exact ends_fail _ _ _ | apply Ends.ite <;> intro _
      refine hnamed.bind fun name _ => ?_
      refine (ends_add (by omega)).bind fun next hnext => ?_
      refine (ends_sub (by omega)).bind fun remaining' hremaining => ?_
      refine (ih (by omega) (by omega)).bind fun rest _ => trivial

theorem ends_readInodeXattrs (r : ErofsReader) (inode : InodeInfo) : Ends (r.readInodeXattrs inode) fun _ => True := by
  have hsize := inode.xattrIbodySize.toNat_lt
  refine Ends.ite (fun _ => trivial) fun _ => ?_
  extract_lets total
  refine Ends.ite (fun _ => ends_fail _ _ _) fun htotal => ?_
  refine (ends_inodeOffset r inode.nid).bind fun offset hoffset => ?_
  simp only [inodeExtendedSize, xattrIbodyHeaderSize] at htotal ⊢
  refine (ends_add (by omega)).bind fun afterInode hafter => ?_
  refine (ends_add (by omega)).bind fun first hfirst => ?_
  refine (ends_sub (by omega)).bind fun remaining hremaining => ?_
  exact ends_xattrLoop r (Nat.le_refl _) (by omega)

/-! ### Paths -/

/-- The part of the directory that is left is smaller after every round. -/
theorem ends_lookupDirLoop (r : ErofsReader) (dirInode : InodeInfo) (name : String) {fuel left right : Nat}
    (hright : right < 2 ^ 62) (hfuel : right - left ≤ fuel) :
    Ends (r.lookupDirLoop dirInode name fuel left right) fun _ => True := by
  induction fuel generalizing left right with
  | zero =>
    rw [lookupDirLoop, if_neg (by omega)]
    exact ends_fail _ _ _
  | succ fuel ih =>
    refine Ends.ite (fun hlt => ?_) fun _ => ends_fail _ _ _
    extract_lets target
    simp only [usizeBits]
    refine (ends_add (by omega)).bind fun sum hsum => ?_
    refine (ends_readInodeDataBlock r dirInode _).bind fun block _ => ?_
    refine (ends_dirBlockDirentCount block).bind fun direntCount ⟨hpos, hcount, hshort⟩ => ?_
    refine (ends_direntName hcount hshort).bind fun firstName _ => ?_
    refine (ends_sub hpos).bind fun last _ => ?_
    refine (ends_direntName hcount hshort).bind fun lastName _ => ?_
    refine Ends.ite (fun _ => ih (by omega) (by omega)) fun _ => ?_
    refine Ends.ite (fun _ => ?_) fun _ => ?_
    · refine (ends_add (by omega)).bind fun left' hleft => ?_
      exact ih hright (by omega)
    · refine (ends_lookupInDirBlock target hcount hshort).bind fun found _ => ?_
      cases found with
      | some nid => exact trivial
      | none => exact ends_fail _ _ _

theorem ends_lookupInDir (r : ErofsReader) (dirInode : InodeInfo) (name : String) :
    Ends (r.lookupInDir dirInode name) fun _ => True := by
  refine (ends_checkedInodeDataLen r dirInode).bind fun size ⟨_, hsize⟩ => ?_
  have hblocks := divCeil_le size blksiz
  simp only [blksiz] at hblocks
  exact ends_lookupDirLoop r dirInode name (by simp only [blksiz]; omega) (Nat.sub_le _ _)

theorem ends_lookupComponents (r : ErofsReader) (currentNid : UInt32) (components : List String) :
    Ends (r.lookupComponents currentNid components) fun _ => True := by
  induction components generalizing currentNid with
  | nil => exact ends_fail _ _ _
  | cons component rest ih =>
    refine (ends_readInode r currentNid).bind fun inode _ => ?_
    refine Ends.ite (fun _ => ends_fail _ _ _) fun _ => ?_
    refine (ends_lookupInDir r inode component).bind fun targetNid _ => ?_
    exact Ends.ite (fun _ => ends_readInode r targetNid) fun _ => ih targetNid

theorem ends_lookupPath (r : ErofsReader) (path : String) : Ends (r.lookupPath path) fun _ => True := by
  refine Ends.ite (fun _ => ?_) fun _ => ends_lookupComponents r _ _
  exact Ends.ite (fun _ => ends_readInode r _) fun _ => ends_fail _ _ _

theorem ends_readTyped (r : ErofsReader) (type : UInt16) (mistaken path : String) :
    Ends (r.readTyped type mistaken path) fun _ => True := by
  refine (ends_lookupPath r path).bind fun targetInode _ => ?_
  exact Ends.ite (fun _ => ends_fail _ _ _) fun _ => ends_readInodeData r targetInode

/-! ### The walk -/

section
variable {σ : Type} {visit visit' : σ → List UInt8 → UInt32 → Io σ} {I : σ → Prop}

theorem ends_visitDirents (hvisit : ∀ s name nid, I s → Ends (visit s name nid) I) {block : List UInt8}
    {direntCount : Nat}
    (hcount : direntCount * direntSize ≤ block.length) (hshort : direntCount < 2 ^ 16) {indices : List Nat}
    (hindices : ∀ idx ∈ indices, idx < 2 ^ 16) {s : σ} (hs : I s) :
    Ends (visitDirents block direntCount visit s indices) I := by
  induction indices generalizing s with
  | nil => exact hs
  | cons idx rest ih =>
    obtain ⟨hidx, hrest⟩ := List.forall_mem_cons.mp hindices
    refine (ends_direntName hcount hshort).bind fun name _ => ?_
    refine Ends.ite (fun _ => ih hrest hs) fun _ => ?_
    refine (ends_direntNid hidx).bind fun nid _ => ?_
    exact (hvisit s name nid hs).bind fun s' hs' => ih hrest hs'

theorem ends_visitBlocks (hvisit : ∀ s name nid, I s → Ends (visit s name nid) I) (r : ErofsReader)
    (dirInode : InodeInfo)
    (blocks : List Nat) {s : σ} (hs : I s) : Ends (r.visitBlocks dirInode visit s blocks) I := by
  induction blocks generalizing s with
  | nil => exact hs
  | cons blockIndex rest ih =>
    refine (ends_readInodeDataBlock r dirInode blockIndex).bind fun block _ => ?_
    refine Ends.ite (fun _ => ih hs) fun _ => ?_
    refine (ends_dirBlockDirentCount block).bind fun direntCount ⟨_, hcount, hshort⟩ => ?_
    have hindices : ∀ idx ∈ List.range direntCount, idx < 2 ^ 16 := fun idx hidx =>
      Nat.lt_trans (List.mem_range.mp hidx) hshort
    exact (ends_visitDirents hvisit hcount hshort hindices hs).bind fun s' hs' => ih hs'

theorem ends_visitDirEntries (hvisit : ∀ s name nid, I s → Ends (visit s name nid) I) (r : ErofsReader)
    (dirInode : InodeInfo) {s : σ} (hs : I s) : Ends (r.visitDirEntries dirInode visit s) I := by
  refine Ends.ite (fun _ => ends_fail _ _ _) fun _ => ?_
  refine (ends_checkedInodeDataLen r dirInode).bind fun size _ => ?_
  exact ends_visitBlocks hvisit r dirInode _ hs

theorem below_visitDirents (hvisit : ∀ s name nid, Below (visit s name nid) (visit' s name nid)) (block : List UInt8)
    (direntCount : Nat) (indices : List Nat) (s : σ) :
    Below (visitDirents block direntCount visit s indices) (visitDirents block direntCount visit' s indices) := by
  induction indices generalizing s with
  | nil => exact Below.refl _
  | cons idx rest ih =>
    refine (Below.refl _).bind fun name => ?_
    refine Below.ite (ih s) ((Below.refl _).bind fun nid => ?_)
    exact (hvisit s name nid).bind ih

theorem below_visitBlocks (hvisit : ∀ s name nid, Below (visit s name nid) (visit' s name nid)) (r : ErofsReader)
    (dirInode : InodeInfo) (blocks : List Nat) (s : σ) :
    Below (r.visitBlocks dirInode visit s blocks) (r.visitBlocks dirInode visit' s blocks) := by
  induction blocks generalizing s with
  | nil => exact Below.refl _
  | cons blockIndex rest ih =>
    refine (Below.refl _).bind fun block => ?_
    refine Below.ite (ih s) ((Below.refl _).bind fun direntCount => ?_)
    exact (below_visitDirents hvisit block direntCount _ s).bind ih

theorem below_visitDirEntries (hvisit : ∀ s name nid, Below (visit s name nid) (visit' s name nid)) (r : ErofsReader)
    (dirInode : InodeInfo) (s : σ) : Below (r.visitDirEntries dirInode visit s) (r.visitDirEntries dirInode visit' s) :=
  Below.ite (Below.refl _) ((Below.refl _).bind fun _ => below_visitBlocks hvisit r dirInode _ s)

end

theorem ends_treeEntry (r : ErofsReader) (path : PathBuf) (inode : InodeInfo) :
    Ends (r.treeEntry path inode) fun _ => True := by
  refine (ends_inodeKind inode).bind fun kind _ => ?_
  exact (ends_readInodeXattrs r inode).bind fun xattrs _ => trivial

/-- No more directories are visited than there are numbers for them. -/
theorem length_le_of_nodup {visited : List UInt32} (h : visited.Nodup) : visited.length ≤ 2 ^ 32 := by
  have hnodup : (visited.map UInt32.toNat).Nodup := h.map fun _ _ => UInt32.toNat_inj.mp
  have hrange : visited.map UInt32.toNat ⊆ List.range (2 ^ 32) := by
    intro n hn
    obtain ⟨nid, _, rfl⟩ := List.mem_map.mp hn
    exact List.mem_range.mpr nid.toNat_lt
  have hlength := (List.subperm_of_subset hnodup hrange).length_le
  rwa [List.length_map, List.length_range] at hlength

section
variable {σ : Type} {visit : σ → ErofsTreeEntry → Io σ}

/-- Every directory that is entered is a new one, and there are only so many. -/
theorem ends_walkDirEntries (hvisit : ∀ s entry, Ends (visit s entry) fun _ => True) (r : ErofsReader) {depth : Nat}
    (dirInode : InodeInfo) (dirPath : PathBuf) {s : σ} {visited : List UInt32} (hnodup : visited.Nodup)
    (hdepth : 2 ^ 32 < depth + visited.length) :
    Ends (r.walkDirEntries visit depth dirInode dirPath (s, visited)) fun p =>
      p.2.Nodup ∧ visited.length ≤ p.2.length := by
  induction depth generalizing dirInode dirPath s visited with
  | zero =>
    have hlength := length_le_of_nodup hnodup
    omega
  | succ depth ih =>
    refine Ends.ite (fun _ => ends_fail _ _ _) fun hnew => ?_
    have hnew : dirInode.nid ∉ visited := by simpa using hnew
    refine (ends_visitDirEntries (I := fun p => p.2.Nodup ∧ visited.length + 1 ≤ p.2.length) ?_ r dirInode
      ⟨List.nodup_cons.mpr ⟨hnew, hnodup⟩, Nat.le_refl _⟩).mono fun p hp => ⟨hp.1, by omega⟩
    intro ⟨s, visited'⟩ name nid h
    obtain ⟨hnodup', hmore⟩ : visited'.Nodup ∧ visited.length + 1 ≤ visited'.length := h
    refine Ends.ite (fun _ => ⟨hnodup', hmore⟩) fun _ => ?_
    refine (ends_readInode r nid).bind fun inode _ => ?_
    refine (ends_treeEntry r _ inode).bind fun entry _ => ?_
    refine (hvisit s entry).bind fun s' _ => ?_
    refine Ends.ite (fun _ => ?_) fun _ => ⟨hnodup', hmore⟩
    exact (ih inode (join dirPath name) hnodup' (by omega)).mono fun p hp => ⟨hp.1, Nat.le_trans hmore hp.2⟩

/-- What a walk finds does not depend on how deep it may go. -/
theorem below_walkDirEntries (r : ErofsReader) (depth : Nat) (dirInode : InodeInfo) (dirPath : PathBuf)
    (p : σ × List UInt32) :
    Below (r.walkDirEntries visit depth dirInode dirPath p)
      (r.walkDirEntries visit (depth + 1) dirInode dirPath p) := by
  induction depth generalizing dirInode dirPath p with
  | zero => exact .inl rfl
  | succ depth ih =>
    obtain ⟨s, visited⟩ := p
    refine Below.ite (Below.refl _) (below_visitDirEntries ?_ r dirInode _)
    intro ⟨s, visited⟩ name nid
    refine Below.ite (Below.refl _) ?_
    refine (Below.refl _).bind fun inode => ?_
    refine (Below.refl _).bind fun entry => ?_
    refine (Below.refl _).bind fun s' => ?_
    exact Below.ite (ih inode _ _) (Below.refl _)

end

theorem ends_walk (r : ErofsReader) {depth : Nat} (hdepth : 2 ^ 32 < depth) : Ends (r.walk depth) fun _ => True := by
  refine (ends_readInode r r.rootNid).bind fun root _ => ?_
  have hwalk : Ends (r.walkDir depth root [] [] []) fun p => p.2.Nodup ∧ 0 ≤ p.2.length := by
    refine ends_walkDirEntries (fun entries entry => ?_) r root [] List.nodup_nil hdepth
    exact trivial
  exact hwalk.bind fun p _ => trivial

theorem below_walk (r : ErofsReader) {depth depth' : Nat} (hle : depth ≤ depth') :
    Below (r.walk depth) (r.walk depth') := by
  induction hle with
  | refl => exact Below.refl _
  | step _ ih =>
    refine ih.trans ?_
    refine (Below.refl _).bind fun root => ?_
    exact (below_walkDirEntries r _ root [] _).bind fun p => Below.refl _

end ErofsReader

/-- A value or an error. -/
def Returns (x : Io α) : Prop := Ends x fun _ => True

/-- **The reader is total**: on any file, from any reader and inode, everything ends with a value or an
error. A walk does so at some depth, and is the same at every greater one. -/
theorem reader_total (file : File) :
    Returns (ErofsReader.new file) ∧
      ∀ r : ErofsReader,
        (∀ path, Returns (r.lookupPath path) ∧ Returns (r.readFile path) ∧ Returns (r.readLink path)) ∧
          (∃ found, Returns found ∧ ∃ depth, ∀ depth' ≥ depth, r.walk depth' = found) ∧
          (∀ nid, Returns (r.readInode nid)) ∧
          ∀ inode,
            Returns (r.readInodeData inode) ∧ Returns (r.readInodeXattrs inode) ∧
              ∀ start len, Returns (r.readInodeDataRange inode start len) := by
  refine ⟨ErofsReader.ends_new file, ?_⟩
  intro r
  refine ⟨?_, ?_, ErofsReader.ends_readInode r, ?_⟩
  · intro path
    exact ⟨ErofsReader.ends_lookupPath r path, ErofsReader.ends_readTyped r _ _ path,
      ErofsReader.ends_readTyped r _ _ path⟩
  · have hends : Returns (r.walk (2 ^ 32 + 1)) := ErofsReader.ends_walk r (Nat.lt_succ_self _)
    refine ⟨r.walk (2 ^ 32 + 1), hends, 2 ^ 32 + 1, ?_⟩
    intro depth' hdepth
    exact ((ErofsReader.below_walk r hdepth).eq hends).symm
  · intro inode
    refine ⟨ErofsReader.ends_readInodeData r inode, ErofsReader.ends_readInodeXattrs r inode, ?_⟩
    intro start len
    exact (ErofsReader.ends_readInodeDataRange r inode start len).mono fun _ _ => trivial

end Iii.Erofs
