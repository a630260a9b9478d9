/-
NextUfs.Core.Layout — where the structures of a filesystem lie: the address
computations of `src/core/layout.c` (`nextufs__cg_block_offset`,
`nextufs__inode_offset`; `nextufs__cgstart` is in `Core.Image`), and the
regions they and the superblock name.

Addresses are offsets in the slice; the C functions add `slice_base`.
-/
import NextUfs.Core.Image
import NextUfs.Lib.Region

namespace NextUfs.Core

open NextUfs.Lib

/-- `nextufs__cg_block_offset`. -/
def cgBlockOffset (sb : Superblock) (cg : Nat) : Nat := (cgstart sb cg + sb.cgOff) * sb.fragSize

/-- `nextufs__inode_offset`; `none` is its -1. -/
def inodeOffset (sb : Superblock) (inode_no : Nat) : Option Nat :=
  if sb.inodesPerGroup = 0 ∨ sb.fragsPerGroup = 0 ∨ sb.inodesPerBlock = 0 then none else
  let cg := inode_no / sb.inodesPerGroup
  let inum_in_group := inode_no % sb.inodesPerGroup
  let cgimin := cgstart sb cg + sb.inoOff
  let frag_addr := cgimin + (inum_in_group / sb.inodesPerBlock) <<< sb.fragShift
  let inode_slot := inum_in_group % sb.inodesPerBlock
  some (frag_addr * sb.fragSize + inode_slot * UFS_INODE_SIZE)

/-! ## Regions -/

/-- The slice. -/
def Image.slice (img : Image) : Region := ⟨0, img.sliceSize⟩

namespace Superblock

/-- The first fragment behind group `cg`; the last group ends with the filesystem. -/
def groupEnd (sb : Superblock) (cg : Nat) : Nat := min (sb.fragsPerGroup * (cg + 1)) sb.fragCount

/-- Group `cg`. -/
def group (sb : Superblock) (cg : Nat) : Region :=
  ⟨sb.fragsPerGroup * cg * sb.fragSize,
    (sb.groupEnd cg - sb.fragsPerGroup * cg) * sb.fragSize⟩

/-- The primary superblock. -/
def primary (sb : Superblock) : Region := ⟨UFS_SBLOCK_OFFSET, sb.superSize⟩

/-- The superblock copy of group `cg`. -/
def superCopy (sb : Superblock) (cg : Nat) : Region :=
  ⟨(cgstart sb cg + sb.sbOff) * sb.fragSize, sb.superSize⟩

/-- The block of group `cg`. -/
def cgBlock (sb : Superblock) (cg : Nat) : Region := ⟨cgBlockOffset sb cg, sb.cgSize⟩

/-- The inode table of group `cg`. -/
def inodeTable (sb : Superblock) (cg : Nat) : Region :=
  ⟨(cgstart sb cg + sb.inoOff) * sb.fragSize, sb.inodesPerGroup * UFS_INODE_SIZE⟩

/-- The data area of group `cg`, behind its inode table. -/
def dataArea (sb : Superblock) (cg : Nat) : Region :=
  ⟨(cgstart sb cg + sb.dataOff) * sb.fragSize,
    (sb.groupEnd cg - (cgstart sb cg + sb.dataOff)) * sb.fragSize⟩

/-- The summary table. -/
def summary (sb : Superblock) : Region := ⟨sb.cylSummaryAddr * sb.fragSize, sb.csumSize⟩

/-- The record of an inode at its offset. -/
def inodeRecord (off : Nat) : Region := ⟨off, UFS_INODE_SIZE⟩

end Superblock

end NextUfs.Core
