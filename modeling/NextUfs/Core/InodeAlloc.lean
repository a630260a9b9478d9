/-
NextUfs.Core.InodeAlloc — taking and giving back inodes:
`nextufs__allocate_inode_in_group` and `nextufs__free_inode_in_group` of
`src/core/alloc.c`.

A volume is the filesystem of `Core.Fs` with the part of the cylinder groups
that only the inode allocator reads, the inode maps and their rotors. A group
is written back as a whole, so a failing write leaves the group and its map as
they were.
-/
import NextUfs.Core.Alloc

namespace NextUfs.Core

open NextUfs.Lib NextUfs.Lib.StateResult

/-- The inode map of a cylinder group. -/
structure InodeMap where
  /-- `cg_irotor`. -/
  irotor : Nat
  /-- `cg_iused`. -/
  iused : Nat → Bool

/-- A filesystem with the inode maps of its groups. -/
structure Volume where
  fs : Fs
  imap : Nat → InodeMap

/-- A call on the volume. -/
abbrev VolM := EStateM Errno Volume

/-- A call on the filesystem that leaves the inode maps alone. -/
def onFs {α : Type} (x : FsM α) : VolM α := fun v =>
  match x v.fs with
  | .ok a fs => .ok a { v with fs := fs }
  | .error e fs => .error e { v with fs := fs }

/-- The bit of an inode of the volume. -/
def Volume.inodeUsed (v : Volume) (inode_no : Nat) : Bool :=
  (v.imap (inode_no / v.fs.img.sb.inodesPerGroup)).iused (inode_no % v.fs.img.sb.inodesPerGroup)

/-- `(mode & NEXTUFS_IFMT) == NEXTUFS_IFDIR`. -/
def isDirMode (mode : UInt16) : Bool := mode &&& 0o170000 == 0o040000

/-- The search of `allocate_inode_in_group`: from the rotor around, past the first two inodes. -/
def InodeMap.findFree (m : InodeMap) (cg ipg : Nat) : Option Nat :=
  let start := if m.irotor ≥ ipg then 0 else m.irotor
  ((List.range ipg).map fun i => (start + i) % ipg).find? fun idx =>
    (decide (cg ≠ 0) || decide (2 ≤ idx)) && !m.iused idx

/-- How both calls end: the group is written back with its inode map, and the counters of the other
levels move by `d`. The group is one there is, with its block and its summary entry in the image. -/
def moveInode (c : Nat) (cg : Cg) (m : InodeMap) (d : Csum) : VolM PUnit := do
  let v ← get
  check (v.fs.img.writable) .EROFS
  modify fun v => { v with
    fs := { v.fs with
      cg := Function.update v.fs.cg c cg, totals := v.fs.totals.add d
      csum := Function.update v.fs.csum c ((v.fs.csum c).add d) }
    imap := Function.update v.imap c m }

/-- `allocate_inode_in_group`. -/
def allocateInodeInGroup (cg : Nat) (mode : UInt16) : VolM Nat := do
  let v ← get
  let group := v.fs.cg cg
  let m := v.imap cg
  check (group.magic = CG_MAGIC) .EINVAL
  check (group.cs.nifree ≠ 0) .ENOSPC
  match m.findFree cg v.fs.img.sb.inodesPerGroup with
  | none => throw .ENOSPC
  | some ipref => do
    let d : Csum := { ndir := if isDirMode mode then 1 else 0, nifree := -1 }
    moveInode cg { group with cs := group.cs.add d }
      { irotor := ipref, iused := Function.update m.iused ipref true } d
    return cg * v.fs.img.sb.inodesPerGroup + ipref

/-- The loop of `nextufs__allocate_inode_in_group`: `k` groups to go, the next at distance `i`. -/
def allocateInodeLoop (cg : Nat) (mode : UInt16) : Nat → Nat → VolM Nat
  | 0, _ => throw .ENOSPC
  | k + 1, i => fun v =>
    match allocateInodeInGroup ((cg + i) % 4294967296 % v.fs.img.sb.cgCount) mode v with
    | .error .ENOSPC v => allocateInodeLoop cg mode k (i + 1) v
    | r => r

/-- `nextufs__allocate_inode_in_group`: any group, `cg` first. -/
def allocateInode (cg : Nat) (mode : UInt16) : VolM Nat := do
  let v ← get
  allocateInodeLoop cg mode v.fs.img.sb.cgCount 0

/-- `nextufs__free_inode_in_group`. -/
def freeInodeInGroup (inode_no : Nat) (mode : UInt16) : VolM PUnit := do
  let v ← get
  let cg := inode_no / v.fs.img.sb.inodesPerGroup
  let local_ino := inode_no % v.fs.img.sb.inodesPerGroup
  let group := v.fs.cg cg
  let m := v.imap cg
  check (group.magic = CG_MAGIC) .EINVAL
  check (m.iused local_ino = true) .EINVAL
  let d : Csum := { ndir := if isDirMode mode then -1 else 0, nifree := 1 }
  moveInode cg { group with cs := group.cs.add d }
    { m with iused := Function.update m.iused local_ino false } d

end NextUfs.Core
