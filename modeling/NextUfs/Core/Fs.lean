/-
NextUfs.Core.Fs — the filesystem the core and mutation code works on.

The metadata is held decoded: the superblock's live totals, the summary
table, the cylinder groups with their free map as a function of the fragment
number, the inode table. `bytes` is the content of the slice as the data path
sees it, indexed by slice offset: file data, directories and indirect blocks.
Metadata lies in fragments the free map never offers, so the two are apart.

Words keep their width: a field of 32 bits is a `UInt32`, and its arithmetic
wraps as in C. Times are left out; no modelled function reads one. Reading and
writing the backend succeeds within the image; the failures of that layer are
those of `Core.Transaction`.
-/
import NextUfs.Core.Image
import NextUfs.Lib.ByteStore
import NextUfs.Lib.StateResult
import Mathlib.Logic.Function.Basic

namespace NextUfs.Core

open NextUfs.Lib NextUfs.Lib.ByteStore NextUfs.Lib.StateResult

/-- `struct csum`, in a group, in the summary table and in the superblock. -/
structure Csum where
  ndir : UInt32 := 0
  nbfree : UInt32 := 0
  nifree : UInt32 := 0
  nffree : UInt32 := 0
  deriving DecidableEq, Repr

/-- A cylinder group. -/
structure Cg where
  magic : Nat
  ndblk : Nat
  cs : Csum
  rotor : Nat
  frsum : Nat → UInt32
  btot : Nat → UInt32
  /-- `cg_b`, by cylinder and rotational position. -/
  bpos : Nat → Nat → UInt16
  /-- The free map: bit `i` is set when fragment `i` of the group is free. -/
  free : Nat → Bool

/-- `struct nextufs_inode`, without the times. -/
structure Inode where
  mode : UInt16
  nlink : UInt16
  uid : UInt16
  gid : UInt16
  size : Nat
  db : Nat → Nat
  ib : Nat → Nat
  flags : UInt32
  blocks : UInt32
  gen : UInt32

/-- The filesystem. -/
structure Fs where
  img : Image
  totals : Csum
  csum : Nat → Csum
  cg : Nat → Cg
  inode : Nat → Inode
  bytes : ByteStore

/-- A call on the filesystem: a result, or an error with the state it leaves. -/
abbrev FsM := EStateM Errno Fs

/-- The free bit of a fragment of the filesystem. -/
def Fs.isFree (fs : Fs) (frag : Nat) : Bool :=
  (fs.cg (frag / fs.img.sb.fragsPerGroup)).free (frag % fs.img.sb.fragsPerGroup)

/-- The offset of a fragment in the slice. -/
def Fs.fragOffset (fs : Fs) (frag : Nat) : Nat := frag * fs.img.sb.fragSize

/-- The range test of `nextufs__read_exact` and `nextufs__write_exact`, for a slice offset. -/
def Fs.inImage (fs : Fs) (size off : Nat) : Prop :=
  fs.img.sliceBase + off + size ≤ fs.img.imageSize

instance (fs : Fs) (size off : Nat) : Decidable (fs.inImage size off) := by
  unfold Fs.inImage
  infer_instance

/-- `nextufs__read_exact` at an offset of the slice, as a function of the position read. -/
def readSlice (size off : Nat) : FsM ByteStore := do
  let fs ← get
  check (fs.inImage size off) .EINVAL
  return fun i => fs.bytes (off + i)

/-- `nextufs__write_exact` at an offset of the slice, of the first `size` bytes of a buffer. -/
def writeSlice (buf : ByteStore) (size off : Nat) : FsM PUnit := do
  let fs ← get
  check (fs.img.writable) .EROFS
  check (fs.inImage size off) .EINVAL
  modify fun fs => { fs with bytes := patch fs.bytes off size buf }

/-! ## Nodes -/

/-- `struct nextufs_node`. -/
structure Node where
  inodeNo : Nat
  inode : Inode

/-- `nextufs_node_is_reg`. -/
def Inode.isReg (ino : Inode) : Prop := ino.mode &&& 0o170000 = 0o100000

instance (ino : Inode) : Decidable ino.isReg := by
  unfold Inode.isReg
  infer_instance

/-- `nextufs__write_inode_raw`. -/
def writeInodeRaw (inode_no : Nat) (ino : Inode) : FsM PUnit := do
  let fs ← get
  check (fs.img.writable) .EROFS
  modify fun fs => { fs with inode := Function.update fs.inode inode_no ino }

end NextUfs.Core
