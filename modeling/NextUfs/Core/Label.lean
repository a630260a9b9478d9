/-
NextUfs.Core.Label — disk labels: the parts of `src/core/label.c` that find,
check and patch the slice of a filesystem, and the choice of a slice in
`nextufs_open_with_mode` of `src/core/image.c`.

A label area is the list of its copies in their order, each decoded: a copy
is a place in the first 128 KiB where the version word and the block number
fit. What the checksum of a copy says is a flag; the patch computes a new one
for version 3. A file has one superblock, at `base`: without a label that is
used, the scan for its magic number finds it.
-/
import NextUfs.Core.Image

namespace NextUfs.Core

def NEXTUFS_LABEL_SCAN_LIMIT : Nat := 131072
def NEXTUFS_LABEL_DECODE_SIZE : Nat := 0x1c5a
def NEXTUFS_LABEL_PART_COUNT : Nat := 8
def DEFAULT_SCAN_LIMIT : Nat := 33554432
def UFS_SUPER_MAGIC_OFFSET : Nat := 0x55c
def PART_UNUSED : Nat := 0xffffff

/-- `sizeof(sbuf)`: how much is read of a superblock. -/
def SUPER_READ : Nat := 2048

/-- `4.3BSD`. -/
def bsdType : List UInt8 := [0x34, 0x2e, 0x33, 0x42, 0x53, 0x44]

structure LabelPartition where
  base : Nat
  size : Nat
  blockSize : Nat
  fragSize : Nat
  /-- The eight bytes of the field. -/
  type : List UInt8
  deriving DecidableEq, Repr

inductive LabelVersion where
  | v1 | v2 | v3
  deriving DecidableEq, Repr

structure LabelCopy where
  labelOff : Nat
  version : LabelVersion
  secsize : Nat
  front : Nat
  rootpartition : Nat
  part : List LabelPartition
  /-- There is no checksum, or it is one this code can check and is right. -/
  checksumOk : Bool
  deriving DecidableEq, Repr

/-- The type as a C string. -/
def LabelPartition.name (p : LabelPartition) : List UInt8 := p.type.takeWhile (· ≠ 0)

/-- `label_partition_present`. -/
def labelPartitionPresent (p : LabelPartition) : Bool :=
  decide (¬ (p.base = PART_UNUSED ∨ p.size = 0 ∨ p.size = PART_UNUSED ∨ p.blockSize = 0 ∨
    p.blockSize = 0xffff ∨ p.fragSize = 0 ∨ p.fragSize = 0xffff ∨
    p.type.all (· == 0) = true))

/-- `part->present` of `nextufs_label_decode`; the all-zero and the all-ones entry fail its other
tests. -/
def LabelPartition.present (p : LabelPartition) : Bool :=
  decide (p.base ≠ PART_UNUSED ∧ p.size ≠ 0 ∧ p.size ≠ PART_UNUSED ∧ p.blockSize ≠ 0 ∧
    p.blockSize ≠ 0xffff ∧ p.fragSize ≠ 0 ∧ p.fragSize ≠ 0xffff ∧ p.fragSize ≤ p.blockSize ∧
    p.name ≠ [])

/-- The partition the letter `rootpartition` names. -/
def LabelCopy.root (c : LabelCopy) : Option LabelPartition :=
  if 97 ≤ c.rootpartition ∧ c.rootpartition < 97 + NEXTUFS_LABEL_PART_COUNT then
    c.part[c.rootpartition - 97]?
  else none

/-- `nextufs_label_decode` accepts the copy. -/
def labelDecode (c : LabelCopy) : Bool :=
  decide (c.secsize ≠ 0 ∧ c.secsize % 512 = 0) && c.checksumOk

/-- Where a partition starts and how long it is, in bytes. -/
def LabelCopy.slice (c : LabelCopy) (p : LabelPartition) : Nat × Nat :=
  ((c.front + p.base) * c.secsize, p.size * c.secsize)

/-- `nextufs_label_pick_slice`. -/
def labelPickSlice (c : LabelCopy) : Option (Nat × Nat) :=
  match c.root.filter LabelPartition.present with
  | some p => some (c.slice p)
  | none => (c.part.find? fun p => p.present && decide (p.name = bsdType)).map c.slice

/-- `validate_one_label_copy`: one partition, which is the root. -/
def validateOneLabelCopy (slice_base : Nat) (c : LabelCopy) : Except Errno Unit :=
  match c.root with
  | none => .error Errno.EINVAL
  | some root =>
    if ¬ labelPartitionPresent root then .error Errno.EINVAL
    else if (c.part.filter labelPartitionPresent).length ≠ 1 then .error Errno.ENOTSUP
    else if root.name ≠ bsdType then .error Errno.ENOTSUP
    else if (c.slice root).1 ≠ slice_base then .error Errno.EINVAL
    else .ok ()

/-- The loop of `nextufs_label_validate_single_slice_fd`. -/
def validateLabelCopies (slice_base : Nat) : List LabelCopy → Except Errno Unit
  | [] => .ok ()
  | c :: rest =>
    match validateOneLabelCopy slice_base c with
    | .error e => .error e
    | .ok _ => validateLabelCopies slice_base rest

/-- `nextufs_label_validate_single_slice_fd`. -/
def labelValidateSingleSlice (labels : List LabelCopy) (slice_base : Nat) : Except Errno Unit :=
  match validateLabelCopies slice_base labels with
  | .error e => .error e
  | .ok _ => if labels = [] then .error Errno.EINVAL else .ok ()

/-- The copy with a new size for its root partition. -/
def LabelCopy.resized (c : LabelCopy) (size_blocks : Nat) : LabelCopy :=
  { c with
    part := c.part.modify (c.rootpartition - 97) fun p => { p with size := size_blocks }
    checksumOk := if c.version = .v3 then true else c.checksumOk }

/-- `patch_one_label_partition_size`; the flag is `patched`. -/
def patchOneLabelPartitionSize (slice_base slice_bytes : Nat) (c : LabelCopy) :
    Except Errno (LabelCopy × Bool) :=
  match c.root with
  | none => .ok (c, false)
  | some root =>
    if c.secsize = 0 ∨ slice_bytes % c.secsize ≠ 0 then .ok (c, false) else
    let size_blocks := slice_bytes / c.secsize % 4294967296
    if size_blocks > PART_UNUSED then .error Errno.EFBIG
    else if (c.slice root).1 ≠ slice_base then .ok (c, false)
    else .ok (c.resized size_blocks, true)

/-- The loop of `nextufs_label_patch_slice_size_fd`, with the number of copies patched. -/
def patchLabelCopies (slice_base slice_bytes : Nat) :
    List LabelCopy → Except Errno (List LabelCopy × Nat)
  | [] => .ok ([], 0)
  | c :: rest =>
    match patchOneLabelPartitionSize slice_base slice_bytes c with
    | .error e => .error e
    | .ok (c', patched) =>
      match patchLabelCopies slice_base slice_bytes rest with
      | .error e => .error e
      | .ok (rest', n) => .ok (c' :: rest', n + if patched then 1 else 0)

/-- `nextufs_label_patch_slice_size_fd`. -/
def labelPatchSliceSize (labels : List LabelCopy) (slice_base slice_bytes : Nat) :
    Except Errno (List LabelCopy) :=
  match patchLabelCopies slice_base slice_bytes labels with
  | .error e => .error e
  | .ok (labels', n) => if n = 0 then .error Errno.EINVAL else .ok labels'

/-! ## Opening -/

/-- A raw image file. -/
structure SourceFile where
  size : Nat
  labels : List LabelCopy
  /-- Where the slice with the superblock starts. -/
  base : Nat
  /-- The primary superblock. -/
  sb : Superblock

/-- The slice of a copy that `nextufs_open_with_mode` uses. -/
def usableSlice (f : SourceFile) (c : LabelCopy) : Option (Nat × Nat) :=
  if c.labelOff + NEXTUFS_LABEL_DECODE_SIZE ≤ min NEXTUFS_LABEL_SCAN_LIMIT f.size ∧
      labelDecode c = true then
    match labelPickSlice c with
    | none => none
    | some (slice_base, slice_size) =>
      if slice_base < f.size ∧ 0 < slice_size ∧ slice_size ≤ f.size - slice_base ∧
          slice_base + UFS_SBLOCK_OFFSET + UFS_SUPER_MAGIC_OFFSET + 4 ≤
            min DEFAULT_SCAN_LIMIT f.size ∧
          slice_base = f.base ∧ slice_base + UFS_SBLOCK_OFFSET + SUPER_READ ≤ f.size then some (slice_base, slice_size)
      else none
  else none

/-- What `nextufs_open_with_mode` makes of a file: the image, and `used_disk_label`. -/
def sourceImage (f : SourceFile) (writable : Bool) : Image × Bool :=
  match f.labels.findSome? (usableSlice f) with
  | some (slice_base, slice_size) =>
    (⟨f.sb, f.size, slice_base, slice_size, writable, false⟩, true)
  | none => (⟨f.sb, f.size, f.base, f.size - f.base, writable, false⟩, false)

/-- `nextufs_open_with_mode`, for writing. -/
def openSourceWritable (f : SourceFile) : Except Errno (Image × Bool) :=
  if f.base + UFS_SBLOCK_OFFSET + SUPER_READ ≤ f.size ∧
      imageValidate (sourceImage f true).1 = true then .ok (sourceImage f true)
  else .error Errno.EINVAL

end NextUfs.Core
