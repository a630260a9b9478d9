/-
NextUfs.Core.Image — the cached superblock, the open image, and the geometry
check every writer makes before it computes an address.

`Superblock` carries the fields `decode_superblock` fills and a modelled
function reads; all are unsigned 32-bit words on disk and naturals here, with
the wrap of a 32-bit operation written out where the C operation can wrap.
`imageValidate` is `nextufs_image_validate`, disjunct for disjunct and in its
order. `Geometry` lists what the rest of the development uses of it, and
`Image.geometry` derives those facts once.

`slice_base` and `slice_size` are naturals, so the two sign tests of the C
function have no counterpart.
-/
import Mathlib.Tactic.Ring
import Mathlib.Tactic.IntervalCases

namespace NextUfs.Core

/-- The error numbers the modelled functions return (negated) in C. -/
inductive Errno where
  | EPERM | ENOENT | EIO | ENOMEM | EACCES | EEXIST | ENOTDIR | EISDIR | EINVAL | EFBIG | ENOSPC
  | EROFS | EMLINK | ENAMETOOLONG | ENOTEMPTY | ELOOP | EOVERFLOW | ENOTSUP | ESTALE | EUCLEAN
  | ECANCELED
  deriving DecidableEq, Repr

/-- A C `int` result used as a status: `none` is 0, `some e` is `-e`. -/
abbrev Status := Option Errno

/-! ## Constants -/

def UFS_FS_MAGIC : Nat := 0x00011954
def UFS_SBLOCK_OFFSET : Nat := 0x2000
def UFS_INODE_SIZE : Nat := 128
def CG_MAGIC : Nat := 0x00090255
def CG_FREE_OFF : Nat := 984
def DIRBLKSIZ : Nat := 1024
def NRPOS : Nat := 8
def INT32_MAX : Nat := 2147483647

/-- `~x` on an unsigned 32-bit word. -/
def not32 (x : Nat) : Nat := 4294967295 - x % 4294967296

/-- `x - 1U` on an unsigned 32-bit word. -/
def pred32 (x : Nat) : Nat := (x + 4294967295) % 4294967296

/-! ## The superblock and the open image -/

structure Superblock where
  sbOff : Nat
  cgOff : Nat
  inoOff : Nat
  dataOff : Nat
  cgDelta : Nat
  cgCycMask : Nat
  fragCount : Nat
  dataFragCount : Nat
  cgCount : Nat
  blockSize : Nat
  fragSize : Nat
  fragsPerBlock : Nat
  minfree : Nat
  blockMask : Nat
  fragMask : Nat
  blockShift : Nat
  fragShiftCalc : Nat
  fragShift : Nat
  fsbtodb : Nat
  superSize : Nat
  csumMask : Nat
  csumShift : Nat
  nindir : Nat
  sectorsPerFrag : Nat
  inodesPerBlock : Nat
  cylSummaryAddr : Nat
  csumSize : Nat
  cgSize : Nat
  sectorsPerTrack : Nat
  sectorsPerCyl : Nat
  ncyl : Nat
  cpg : Nat
  inodesPerGroup : Nat
  fragsPerGroup : Nat
  state : Nat
  fsMagic : Nat
  deriving DecidableEq, Repr

/-- The parts of `struct nextufs_image` that stay fixed while it is open. -/
structure Image where
  sb : Superblock
  imageSize : Nat
  sliceBase : Nat
  sliceSize : Nat
  writable : Bool
  unprivileged : Bool
  deriving DecidableEq, Repr

/-- `nextufs__cgstart`. -/
def cgstart (sb : Superblock) (cg : Nat) : Nat :=
  sb.fragsPerGroup * cg + sb.cgDelta * (cg &&& not32 sb.cgCycMask)

/-! The `||` chain of `nextufs_image_validate` is cut in three, in its order: the
chain up to the 2 GiB limits, the rest of it, and the second `if`. -/

/-- The first half of the chain: masks, shifts, cylinders and totals. -/
def ShapeRejected (s : Superblock) : Prop :=
  s.fsMagic ≠ UFS_FS_MAGIC ∨
  s.blockShift ≥ 32 ∨ s.fragShiftCalc ≥ 32 ∨ s.csumShift ≥ 32 ∨
  2 ^ s.blockShift ≠ s.blockSize ∨
  2 ^ s.fragShiftCalc ≠ s.fragSize ∨
  s.blockMask ≠ not32 (pred32 s.blockSize) ∨
  s.fragMask ≠ not32 (pred32 s.fragSize) ∨
  2 ^ s.csumShift ≠ s.blockSize / 16 ∨
  s.csumMask ≠ not32 (pred32 (s.blockSize / 16)) ∨
  (s.sectorsPerFrag ≠ s.fragSize / 1024 ∧ s.sectorsPerFrag ≠ s.fragSize / 2048) ∨
  s.cpg * s.sectorsPerCyl ≠ s.fragsPerGroup * s.sectorsPerFrag ∨
  s.ncyl = 0 ∨ s.ncyl > s.cgCount * s.cpg ∨
  s.ncyl ≤ pred32 s.cgCount * s.cpg ∨
  s.dataFragCount > s.fragCount ∨
  (s.inodesPerBlock = 0 ∨ s.inodesPerGroup % s.inodesPerBlock ≠ 0) ∨
  s.ncyl * s.sectorsPerCyl > INT32_MAX ∨
  s.cgDelta * not32 s.cgCycMask + s.dataOff > s.fragsPerGroup ∨
  s.cgCount * s.inodesPerGroup > INT32_MAX ∨
  s.fragCount * (s.fragSize / 1024) > INT32_MAX

/-- The second half: block and fragment sizes, group layout, table sizes. -/
def LayoutRejected (s : Superblock) : Prop :=
  s.blockSize < 4096 ∨ s.blockSize > 8192 ∨
  s.blockSize &&& (s.blockSize - 1) ≠ 0 ∨ s.fragSize < 1024 ∨
  s.fragSize > s.blockSize ∨
  s.fragSize &&& (s.fragSize - 1) ≠ 0 ∨
  s.fragsPerBlock ≠ s.blockSize / s.fragSize ∨
  s.fragsPerBlock > 8 ∨ s.fragShift > 3 ∨
  2 ^ s.fragShift ≠ s.fragsPerBlock ∨
  s.inodesPerBlock ≠ s.blockSize / UFS_INODE_SIZE ∨
  s.nindir ≠ s.blockSize / 4 ∨ s.inodesPerGroup = 0 ∨
  s.inodesPerGroup > 2048 ∨ s.fragsPerGroup = 0 ∨
  s.fragCount = 0 ∨ s.cgCount = 0 ∨
  s.cgCount ≠ (s.fragCount + s.fragsPerGroup - 1) / s.fragsPerGroup ∨
  s.cgSize < CG_FREE_OFF ∨ s.cgSize > s.blockSize ∨
  CG_FREE_OFF + (s.fragsPerGroup + 7) / 8 > s.cgSize ∨
  s.superSize < 0x560 ∨ s.superSize > 8192 ∨ s.cpg = 0 ∨
  s.cpg > 32 ∨ s.sectorsPerCyl = 0 ∨ s.sectorsPerTrack = 0 ∨
  s.sectorsPerFrag = 0 ∨ s.sectorsPerFrag > 16 ∨
  s.fsbtodb > 4 ∨ 2 ^ s.fsbtodb ≠ s.sectorsPerFrag ∨
  s.csumSize < s.cgCount * 16 ∨
  s.csumSize > 32 * s.blockSize ∨ s.sbOff > s.cgOff ∨
  s.cgOff ≥ s.inoOff ∨ s.inoOff ≥ s.dataOff ∨
  s.inoOff + (s.inodesPerGroup * UFS_INODE_SIZE + s.fragSize - 1) / s.fragSize > s.dataOff

/-- The second `if`: what must fit in the slice. -/
def ExtentRejected (s : Superblock) (sliceSize : Nat) : Prop :=
  s.fragCount * s.fragSize > sliceSize ∨
  cgstart s (pred32 s.cgCount) + s.dataOff > s.fragCount ∨
  s.cylSummaryAddr * s.fragSize + s.csumSize > s.fragCount * s.fragSize

instance (s : Superblock) : Decidable (ShapeRejected s) := by
  unfold ShapeRejected
  infer_instance

instance (s : Superblock) : Decidable (LayoutRejected s) := by
  unfold LayoutRejected
  infer_instance

instance (s : Superblock) (sliceSize : Nat) : Decidable (ExtentRejected s sliceSize) := by
  unfold ExtentRejected
  infer_instance

/-- `nextufs_image_validate`. -/
def imageValidate (img : Image) : Bool :=
  decide (¬ ShapeRejected img.sb ∧ ¬ LayoutRejected img.sb ∧ ¬ ExtentRejected img.sb img.sliceSize)

/-! ## What a validated geometry provides -/

/-- The geometry facts the address computations and the allocator rest on. -/
structure Geometry (s : Superblock) : Prop where
  fragSize_ge : 1024 ≤ s.fragSize
  fragSize_le : s.fragSize ≤ 8192
  blockSize_ge : 4096 ≤ s.blockSize
  blockSize_le : s.blockSize ≤ 8192
  fpb_cases : s.fragsPerBlock = 1 ∨ s.fragsPerBlock = 2 ∨ s.fragsPerBlock = 4 ∨ s.fragsPerBlock = 8
  block_eq : s.fragsPerBlock * s.fragSize = s.blockSize
  block_mod : s.blockSize % 4096 = 0
  fpg_pos : 0 < s.fragsPerGroup
  fpg_le : s.fragsPerGroup ≤ 57664
  cg_count : s.cgCount = (s.fragCount + s.fragsPerGroup - 1) / s.fragsPerGroup
  cg_pos : 0 < s.cgCount
  fragCount_pos : 0 < s.fragCount
  fragCount_le : s.fragCount ≤ INT32_MAX
  bitmap_fits : CG_FREE_OFF + (s.fragsPerGroup + 7) / 8 ≤ s.cgSize
  spf_pos : 0 < s.sectorsPerFrag
  spf_le : s.sectorsPerFrag ≤ 16
  sectors_le : s.fragCount * s.sectorsPerFrag ≤ INT32_MAX
  spc_pos : 0 < s.sectorsPerCyl
  spt_pos : 0 < s.sectorsPerTrack
  cpg_le : s.cpg ≤ 32
  cyl_eq : s.cpg * s.sectorsPerCyl = s.fragsPerGroup * s.sectorsPerFrag
  ipg_pos : 0 < s.inodesPerGroup
  ipg_le : s.inodesPerGroup ≤ 2048
  inodes_le : s.cgCount * s.inodesPerGroup ≤ INT32_MAX

theorem Geometry.fpb_pos {s : Superblock} (hg : Geometry s) : 0 < s.fragsPerBlock := by
  rcases hg.fpb_cases with h | h | h | h <;> omega

/-- Two powers of two, one a multiple of the other by at most eight. -/
private theorem frags_mul_eq {bs fs b f : Nat} (hb : 2 ^ b = bs) (hf : 2 ^ f = fs)
    (hle : fs ≤ bs) : bs / fs * fs = bs := by
  subst hb hf
  have h : f ≤ b := (Nat.pow_le_pow_iff_right (by omega)).mp hle
  exact Nat.div_mul_cancel (Nat.pow_dvd_pow 2 h)

theorem Image.geometry {img : Image} (h : imageValidate img = true) : Geometry img.sb := by
  obtain ⟨hs, hl, -⟩ := of_decide_eq_true h
  simp only [ShapeRejected, LayoutRejected, not_or, ne_eq, not_not, Nat.not_lt, ge_iff_le,
    gt_iff_lt, Nat.not_le] at hs hl
  obtain ⟨-, -, -, -, hbs, hfs, -, -, -, -, hspf', hcyl, -, -, -, -, -, -, -, hin, hfc⟩ := hs
  obtain ⟨hb1, hb2, -, hf1, hf2, -, hfpb, hfpb8, hsh, hsh2, -, -, hipg, hipg2, hfpg, hfc0, hcg0,
    hcg, hcgs1, hcgs2, hbm, -, -, -, hcpg, hspc, hspt, hspf, hspf2, -⟩ := hl
  have hmul : img.sb.fragsPerBlock * img.sb.fragSize = img.sb.blockSize := by
    rw [hfpb]
    exact frags_mul_eq hbs hfs hf2
  have hcases : img.sb.fragsPerBlock = 1 ∨ img.sb.fragsPerBlock = 2 ∨
      img.sb.fragsPerBlock = 4 ∨ img.sb.fragsPerBlock = 8 := by
    generalize img.sb.fragShift = k at hsh hsh2
    interval_cases k <;> omega
  have hbmod : img.sb.blockSize % 4096 = 0 := by
    have hk : img.sb.blockShift < 14 := by
      by_contra hk
      have := Nat.pow_le_pow_right (n := 2) (by omega) (Nat.le_of_not_lt hk)
      omega
    have hk' : 12 ≤ img.sb.blockShift := by
      by_contra hk'
      have := Nat.pow_le_pow_right (n := 2) (by omega) (show img.sb.blockShift ≤ 11 by omega)
      omega
    generalize img.sb.blockShift = k at hbs hk hk'
    interval_cases k <;> omega
  have hfc' : img.sb.fragCount ≤ INT32_MAX := by
    have : 1 ≤ img.sb.fragSize / 1024 := by omega
    exact le_trans (Nat.le_mul_of_pos_right _ this) hfc
  have hsectors : img.sb.fragCount * img.sb.sectorsPerFrag ≤ INT32_MAX := by
    refine le_trans (Nat.mul_le_mul_left _ ?_) hfc
    by_contra hc
    exact absurd (hspf' (by omega)) (by omega)
  exact
    { fragSize_ge := by omega, fragSize_le := by omega, blockSize_ge := by omega,
      blockSize_le := by omega, fpb_cases := hcases, block_eq := hmul, block_mod := hbmod,
      fpg_pos := by omega, fpg_le := by unfold CG_FREE_OFF at *; omega, cg_count := hcg,
      cg_pos := by omega, fragCount_pos := by omega, fragCount_le := hfc', bitmap_fits := hbm,
      spf_pos := by omega, spf_le := by omega,
      sectors_le := hsectors, spc_pos := by omega, spt_pos := by omega,
      cpg_le := by omega, cyl_eq := hcyl, ipg_pos := by omega, ipg_le := by omega,
      inodes_le := hin }

end NextUfs.Core
