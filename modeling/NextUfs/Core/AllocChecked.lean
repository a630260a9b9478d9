/-
NextUfs.Core.AllocChecked — the allocator's calls with what they share with the
caller's data: the buffer `nextufs__reallocate_fragment_run` copies through, and
the superblock, which lies in the slice.

`Core.Alloc` keeps the totals of the superblock apart from the bytes of the
slice. Here they are the words the code reads and writes: `onDisk` runs a call
on the totals the slice has, and puts them back when it ends. So a run that is
written over the superblock changes the totals, as it does in the code.
-/
import NextUfs.Core.Alloc
import NextUfs.Lib.Checked

namespace NextUfs.Core

open NextUfs.Lib NextUfs.Lib.ByteStore NextUfs.Lib.StateResult NextUfs.Lib.Checked

def SB_NDIR_OFF : Nat := 0x0c0
def SB_NBFREE_OFF : Nat := 0x0c4
def SB_NIFREE_OFF : Nat := 0x0c8
def SB_NFFREE_OFF : Nat := 0x0cc

/-! ## The totals in the slice -/

/-- The totals of the superblock. -/
def totalsAt (b : ByteStore) : Csum where
  ndir := .ofNat (be32 b (UFS_SBLOCK_OFFSET + SB_NDIR_OFF))
  nbfree := .ofNat (be32 b (UFS_SBLOCK_OFFSET + SB_NBFREE_OFF))
  nifree := .ofNat (be32 b (UFS_SBLOCK_OFFSET + SB_NIFREE_OFF))
  nffree := .ofNat (be32 b (UFS_SBLOCK_OFFSET + SB_NFFREE_OFF))

/-- The slice with other totals in its superblock. -/
def setTotals (b : ByteStore) (t : Csum) : ByteStore :=
  let b := setBe32 b (UFS_SBLOCK_OFFSET + SB_NDIR_OFF) t.ndir.toNat
  let b := setBe32 b (UFS_SBLOCK_OFFSET + SB_NBFREE_OFF) t.nbfree.toNat
  let b := setBe32 b (UFS_SBLOCK_OFFSET + SB_NIFREE_OFF) t.nifree.toNat
  setBe32 b (UFS_SBLOCK_OFFSET + SB_NFFREE_OFF) t.nffree.toNat

/-- The filesystem with its totals in the slice. -/
def Fs.stored (fs : Fs) : Fs := { fs with bytes := setTotals fs.bytes fs.totals }

/-- A call that writes nothing else in the slice, on the totals that are there. -/
def onDisk {α : Type} (x : FsM α) : FsM α := fun fs =>
  match x { fs with totals := totalsAt fs.bytes } with
  | .ok a fs => .ok a fs.stored
  | .error e fs => .error e fs.stored

/-! ## The calls -/

/-- `nextufs__reallocate_fragment_run` with its buffer: the old run is read into one as long as the
new run. -/
def Checked.reallocateFragmentRun (old_frag old_frags new_frags preferred_cg : Nat) :
    CheckedM Errno Fs Nat := do
  let fs ← run get
  let sb := fs.img.sb
  let tmp : Buffer := ⟨new_frags * sb.fragSize, fun _ => 0⟩
  let old ← run (readSlice (old_frags * sb.fragSize) (fs.fragOffset old_frag))
  let tmp ← guarded (tmp.store 0 (old_frags * sb.fragSize) old)
  let new_frag ← run (onDisk (allocateFragsAnycg preferred_cg new_frags))
  run (writeSlice tmp.bytes (new_frags * sb.fragSize) (fs.fragOffset new_frag))
  run (onDisk (freeFragmentRun old_frag old_frags))
  return new_frag

/-- A call of the allocator. -/
inductive AllocCall where
  | allocate (preferred_cg n : Nat)
  | extend (frag_base old_frags new_frags : Nat)
  | free (frag_base frags : Nat)
  | reallocate (old_frag old_frags new_frags preferred_cg : Nat)

/-- Making the call; the result is the run's first fragment. -/
def AllocCall.run : AllocCall → FsM Nat
  | allocate pref n => allocateFragsAnycg pref n
  | extend frag old new => do
    extendFragmentRun frag old new
    return frag
  | free frag n => do
    freeFragmentRun frag n
    return frag
  | reallocate old oldFrags newFrags pref => reallocateFragmentRun old oldFrags newFrags pref

/-- Making the call with the totals in the slice and the buffer checked. -/
def AllocCall.checked : AllocCall → CheckedM Errno Fs Nat
  | reallocate old oldFrags newFrags pref =>
    Checked.reallocateFragmentRun old oldFrags newFrags pref
  | call => Checked.run (onDisk call.run)

/-! ## Metadata -/

/-- The part of the superblock that holds the totals. -/
def totalsBlock : Region := ⟨UFS_SBLOCK_OFFSET, 2048⟩

/-- The fragment has a byte of the superblock, the summary table, the block of a group or an inode
table. -/
def Superblock.Metadata (sb : Superblock) (f : Nat) : Prop :=
  let frag : Region := ⟨f * sb.fragSize, sb.fragSize⟩
  ¬ frag.Apart totalsBlock ∨ ¬ frag.Apart sb.summary ∨
    ∃ c < sb.cgCount, ¬ frag.Apart (sb.cgBlock c) ∨ ¬ frag.Apart (sb.inodeTable c)

/-- All metadata of the filesystem is marked in use. -/
def Fs.MetaUsed (fs : Fs) : Prop := ∀ f, fs.img.sb.Metadata f → fs.isFree f = false

end NextUfs.Core
