/-
NextUfs.Core.GroupBlock — a group's block as the bytes `src/core/alloc.c`
edits.

`Core.Alloc` works on decoded groups, where an index cannot go astray. Here
the same functions run on the buffer, and every index they form into one of
its arrays (`struct cg` of `fsck/include/ufs/fs.h`) is logged with the bytes
it touches. What the functions do outside the buffer, reading and writing it
and the summary counts, is in `Core.Alloc`.
-/
import NextUfs.Core.Layout
import NextUfs.Core.Alloc

namespace NextUfs.Core

open NextUfs.Lib NextUfs.Lib.ByteStore NextUfs.Lib.StateResult

def CG_NDBLK_OFF : Nat := 20
def CG_CS_NDIR_OFF : Nat := 24
def CG_CS_NBFREE_OFF : Nat := 28
def CG_CS_NIFREE_OFF : Nat := 32
def CG_CS_NFFREE_OFF : Nat := 36
def CG_ROTOR_OFF : Nat := 40
def CG_IROTOR_OFF : Nat := 48
def CG_FRSUM_OFF : Nat := 52
def CG_BTOT_OFF : Nat := 84
def CG_BPOS_OFF : Nat := 212
def CG_IUSED_OFF : Nat := 724
def CG_MAGIC_OFF : Nat := 980
def MAXFRAG : Nat := 8
def MAXCPG : Nat := 32
def MAXIPG : Nat := 2048

/-- The arrays of a group's block. -/
inductive CgArray where
  | iused | free | frsum | btot | b
  deriving DecidableEq, Repr

/-- Where an array lies in the block. -/
def CgArray.region (sb : Superblock) : CgArray → Region
  | .iused => ⟨CG_IUSED_OFF, MAXIPG / 8⟩
  | .free => ⟨CG_FREE_OFF, (sb.fragsPerGroup + 7) / 8⟩
  | .frsum => ⟨CG_FRSUM_OFF, MAXFRAG * 4⟩
  | .btot => ⟨CG_BTOT_OFF, MAXCPG * 4⟩
  | .b => ⟨CG_BPOS_OFF, MAXCPG * NRPOS * 2⟩

/-- An index formed into an array: the bytes it touches. -/
structure Touch where
  array : CgArray
  bytes : Region
  deriving DecidableEq, Repr

/-- The buffer, and the touches so far. -/
structure CgBuf where
  bytes : ByteStore
  log : List Touch

abbrev CgM := EStateM Errno CgBuf

/-- The bytes at `off` are touched as part of `array`. -/
def touch (array : CgArray) (off size : Nat) : CgM PUnit :=
  modify fun s => { s with log := ⟨array, ⟨off, size⟩⟩ :: s.log }

/-- A word of the block's header. -/
def readWord (off : Nat) : CgM Nat := do
  let s ← get
  return be32 s.bytes off

/-- A word of the block's header is written. -/
def writeWord (off value : Nat) : CgM PUnit :=
  modify fun s => { s with bytes := setBe32 s.bytes off value }

/-- Add to a word of an array. -/
def addWord (array : CgArray) (off delta : Nat) : CgM PUnit := do
  touch array off 4
  let v ← readWord off
  writeWord off (v + delta)

/-- Add to a half word of an array. -/
def addHalf (array : CgArray) (off delta : Nat) : CgM PUnit := do
  touch array off 2
  modify fun s => { s with bytes := setBe16 s.bytes off (be16 s.bytes off + delta) }

/-- Bit `i` of the map at `off`. -/
def readBit (array : CgArray) (off i : Nat) : CgM Bool := do
  touch array (off + i / 8) 1
  let s ← get
  return (s.bytes (off + i / 8)).toNat.testBit (i % 8)

/-- Set bit `i` of the map at `off`. -/
def setBit (array : CgArray) (off i : Nat) : CgM PUnit := do
  touch array (off + i / 8) 1
  modify fun s => { s with
    bytes := Function.update s.bytes (off + i / 8)
      (s.bytes (off + i / 8) ||| UInt8.ofNat (2 ^ (i % 8))) }

/-- Clear bit `i` of the map at `off`. -/
def clearBit (array : CgArray) (off i : Nat) : CgM PUnit := do
  touch array (off + i / 8) 1
  modify fun s => { s with
    bytes := Function.update s.bytes (off + i / 8)
      (s.bytes (off + i / 8) &&& ~~~ UInt8.ofNat (2 ^ (i % 8))) }

/-! ## The free map -/

/-- `nextufs__block_is_free` and `nextufs__set_run_bits`, which are the same loop. -/
def runIsFree (frag_base : Nat) : Nat → CgM Bool
  | 0 => return true
  | n + 1 => do
    let b ← readBit .free CG_FREE_OFF frag_base
    if b then runIsFree (frag_base + 1) n else return false

/-- `nextufs__clear_block_bits`. -/
def clearRun (frag_base : Nat) : Nat → CgM PUnit
  | 0 => return ⟨⟩
  | n + 1 => do
    clearBit .free CG_FREE_OFF frag_base
    clearRun (frag_base + 1) n

/-- The inner loop of `nextufs__count_free_runs_in_block`, over `n` fragments at most. -/
def freeRunLength (frag_base : Nat) : Nat → CgM Nat
  | 0 => return 0
  | n + 1 => do
    let b ← readBit .free CG_FREE_OFF frag_base
    if b then do
      let run ← freeRunLength (frag_base + 1) n
      return run + 1
    else return 0

/-- The outer loop of `nextufs__count_free_runs_in_block`, from position `i`. -/
def countRunsLoop (base fpb : Nat) : Nat → Nat → (Nat → Nat) → CgM (Nat → Nat)
  | 0, _, counts => return counts
  | fuel + 1, i, counts =>
    if i < fpb then do
      let run ← freeRunLength (base + i) (fpb - i)
      countRunsLoop base fpb fuel (i + if 0 < run then run else 1)
        (if 0 < run ∧ run < fpb then Function.update counts run (counts run + 1) else counts)
    else return counts

/-- `nextufs__count_free_runs_in_block`. -/
def countRuns (base fpb : Nat) : CgM (Nat → Nat) := countRunsLoop base fpb fpb 0 fun _ => 0

/-- `nextufs__apply_cg_frsum_delta`, for the first `n` run lengths. The words wrap. -/
def applyFrsumDelta (before after : Nat → Nat) : Nat → CgM PUnit
  | 0 => return ⟨⟩
  | n + 1 => do
    applyFrsumDelta before after n
    touch .frsum (CG_FRSUM_OFF + (n + 1) * 4) 4
    if after (n + 1) ≠ before (n + 1) then
      addWord .frsum (CG_FRSUM_OFF + (n + 1) * 4) (after (n + 1) + (4294967296 - before (n + 1)))
    else return ⟨⟩

/-- The counts of a block's cylinder and rotational position change by `delta`, modulo their
widths. -/
def addBlockCounts (sb : Superblock) (frag delta : Nat) : CgM PUnit := do
  let cylno := blockCyl sb frag
  let rotpos := blockRot sb frag
  if cylno < 32 ∧ rotpos < NRPOS then do
    addWord .btot (CG_BTOT_OFF + cylno * 4) delta
    addHalf .b (CG_BPOS_OFF + (cylno * NRPOS + rotpos) * 2) delta
  else return ⟨⟩

/-! ## Fragments -/

/-- Take `n` fragments from `start` out of the partial block at `base`. -/
def takeRun (fpb base start n : Nat) : CgM PUnit := do
  let before ← countRuns base fpb
  clearRun start n
  let after ← countRuns base fpb
  applyFrsumDelta before after (fpb - 1)
  let nffree ← readWord CG_CS_NFFREE_OFF
  writeWord CG_CS_NFFREE_OFF (nffree + (4294967296 - n))

/-- The innermost loop of the first search: `n` free fragments from `start` on, before `stop`. -/
def findRun (n stop : Nat) : Nat → Nat → CgM (Option Nat)
  | 0, _ => return none
  | fuel + 1, start =>
    if start + n ≤ stop then do
      let b ← runIsFree start n
      if b then return some start else findRun n stop fuel (start + 1)
    else return none

/-- The block at `local_frag` is whole and free. -/
def isFreeBlock (fpb stop local_frag : Nat) : CgM Bool :=
  if stop - local_frag = fpb then runIsFree local_frag fpb else return false

/-- One turn of the first search: a run in the block at `local_frag`, unless it is free. -/
def findInBlock (fpb n limit local_frag : Nat) : CgM (Option Nat) := do
  let stop := min (local_frag + fpb) limit
  let whole ← isFreeBlock fpb stop local_frag
  if whole then return none else findRun n stop (fpb + 1) local_frag

/-- The first search, from block `i` on. -/
def findPartial (fpb n limit : Nat) : Nat → Nat → CgM (Option (Nat × Nat))
  | 0, _ => return none
  | fuel + 1, i =>
    if i * fpb < limit then do
      let found ← findInBlock fpb n limit (i * fpb)
      match found with
      | some start => return some (i * fpb, start)
      | none => findPartial fpb n limit fuel (i + 1)
    else return none

/-- The second search, for a free block, from block `i` on. -/
def findWhole (fpb limit : Nat) : Nat → Nat → CgM (Option Nat)
  | 0, _ => return none
  | fuel + 1, i =>
    if i * fpb + fpb ≤ limit then do
      let b ← runIsFree (i * fpb) fpb
      if b then return some (i * fpb) else findWhole fpb limit fuel (i + 1)
    else return none

/-- The fragments left of a split block are a run. -/
def addLeftRun (free_frags : Nat) : CgM PUnit :=
  if 0 < free_frags then addWord .frsum (CG_FRSUM_OFF + free_frags * 4) 1 else return ⟨⟩

/-- Take the first `n` fragments of the free block at `frag`. -/
def splitWhole (sb : Superblock) (frag n : Nat) : CgM PUnit := do
  clearRun frag n
  writeWord CG_ROTOR_OFF frag
  let nbfree ← readWord CG_CS_NBFREE_OFF
  writeWord CG_CS_NBFREE_OFF (nbfree + 4294967295)
  let free_frags := sb.fragsPerBlock - n
  let nffree ← readWord CG_CS_NFFREE_OFF
  writeWord CG_CS_NFFREE_OFF (nffree + free_frags)
  addLeftRun free_frags
  addBlockCounts sb frag 4294967295

/-- The first search, if the group has so many loose fragments. -/
def searchPartial (sb : Superblock) (limit n : Nat) : CgM (Option (Nat × Nat)) := do
  let nffree ← readWord CG_CS_NFFREE_OFF
  if n < sb.fragsPerBlock ∧ n ≤ nffree then findPartial sb.fragsPerBlock n limit (limit + 1) 0
  else return none

/-- `nextufs__allocate_frags_in_group`: the fragment of the group. -/
def allocateFragsInBlock (sb : Superblock) (cg n : Nat) : CgM Nat := do
  check (n ≠ 0 ∧ n ≤ sb.fragsPerBlock) .EINVAL
  let magic ← readWord CG_MAGIC_OFF
  check (magic = CG_MAGIC) .EINVAL
  let limit ← readWord CG_NDBLK_OFF
  check (limit ≤ sb.fragsPerGroup ∧ cg * sb.fragsPerGroup + limit ≤ sb.fragCount ∧
    CG_FREE_OFF + (limit + 7) / 8 ≤ sb.cgSize) .EINVAL
  let found ← searchPartial sb limit n
  match found with
  | some (local_frag, start) => do
    takeRun sb.fragsPerBlock local_frag start n
    return start
  | none => do
    let nbfree ← readWord CG_CS_NBFREE_OFF
    check (nbfree ≠ 0) .ENOSPC
    let found ← findWhole sb.fragsPerBlock limit (limit + 1) 0
    match found with
    | some local_frag => do
      splitWhole sb local_frag n
      return local_frag
    | none => throw .ENOSPC

/-- `nextufs__extend_fragment_run`, once the reserve allows it. -/
def extendRunInBlock (sb : Superblock) (frag_base old_frags new_frags : Nat) : CgM PUnit := do
  check (old_frags < new_frags ∧ new_frags ≤ sb.fragsPerBlock) .EINVAL
  let local_frag := frag_base % sb.fragsPerGroup
  check (local_frag % sb.fragsPerBlock + new_frags ≤ sb.fragsPerBlock) .ENOSPC
  let magic ← readWord CG_MAGIC_OFF
  check (magic = CG_MAGIC) .EINVAL
  let added_frags := new_frags - old_frags
  let b ← runIsFree (local_frag + old_frags) added_frags
  check (b = true) .ENOSPC
  takeRun sb.fragsPerBlock (local_frag - local_frag % sb.fragsPerBlock) (local_frag + old_frags)
    added_frags

/-- The loop of `nextufs__free_fragment_run`: every bit must be clear, and is set. -/
def giveRun (frag_base : Nat) : Nat → CgM PUnit
  | 0 => return ⟨⟩
  | n + 1 => do
    let b ← readBit .free CG_FREE_OFF frag_base
    check (b = false) .EINVAL
    setBit .free CG_FREE_OFF frag_base
    giveRun (frag_base + 1) n

/-- `nextufs__free_fragment_run`. -/
def freeRunInBlock (sb : Superblock) (frag_base frags : Nat) : CgM PUnit := do
  check (frags ≠ 0 ∧ frags ≤ sb.fragsPerBlock) .EINVAL
  let local_frag := frag_base % sb.fragsPerGroup
  let base := local_frag - local_frag % sb.fragsPerBlock
  let magic ← readWord CG_MAGIC_OFF
  check (magic = CG_MAGIC) .EINVAL
  let before ← countRuns base sb.fragsPerBlock
  giveRun local_frag frags
  let after ← countRuns base sb.fragsPerBlock
  applyFrsumDelta before after (sb.fragsPerBlock - 1)
  let whole ← runIsFree base sb.fragsPerBlock
  let nffree ← readWord CG_CS_NFFREE_OFF
  if whole then do
    writeWord CG_CS_NFFREE_OFF (nffree + frags + (4294967296 - sb.fragsPerBlock))
    let nbfree ← readWord CG_CS_NBFREE_OFF
    writeWord CG_CS_NBFREE_OFF (nbfree + 1)
    addBlockCounts sb base 1
  else writeWord CG_CS_NFFREE_OFF (nffree + frags)

/-! ## Inodes -/

/-- Inode `idx` of group `cg` may be taken: it is not one of the first two, and its bit is clear. -/
def inodeIsFree (cg idx : Nat) : CgM Bool := do
  let used ← readBit .iused CG_IUSED_OFF idx
  return (decide (cg ≠ 0 ∨ 2 ≤ idx) && !used)

/-- The search of `allocate_inode_in_group`, from turn `i` on. -/
def findInode (sb : Superblock) (cg start : Nat) : Nat → Nat → CgM (Option Nat)
  | 0, _ => return none
  | fuel + 1, i => do
    let idx := (start + i) % sb.inodesPerGroup
    let b ← inodeIsFree cg idx
    if b then return some idx else findInode sb cg start fuel (i + 1)

/-- `allocate_inode_in_group`: the inode of the group. -/
def allocateInodeInBlock (sb : Superblock) (cg : Nat) (directory : Bool) : CgM Nat := do
  let magic ← readWord CG_MAGIC_OFF
  check (magic = CG_MAGIC) .EINVAL
  let nifree ← readWord CG_CS_NIFREE_OFF
  check (nifree ≠ 0) .ENOSPC
  let irotor ← readWord CG_IROTOR_OFF
  let start := if irotor ≥ sb.inodesPerGroup then 0 else irotor
  let found ← findInode sb cg start sb.inodesPerGroup 0
  match found with
  | none => throw .ENOSPC
  | some ipref => do
    setBit .iused CG_IUSED_OFF ipref
    writeWord CG_IROTOR_OFF ipref
    writeWord CG_CS_NIFREE_OFF (nifree + 4294967295)
    let ndir ← readWord CG_CS_NDIR_OFF
    writeWord CG_CS_NDIR_OFF (if directory then ndir + 1 else ndir)
    return ipref

/-- `nextufs__free_inode_in_group`. -/
def freeInodeInBlock (sb : Superblock) (inode_no : Nat) (directory : Bool) : CgM PUnit := do
  let local_ino := inode_no % sb.inodesPerGroup
  let magic ← readWord CG_MAGIC_OFF
  check (magic = CG_MAGIC) .EINVAL
  let used ← readBit .iused CG_IUSED_OFF local_ino
  check (used = true) .EINVAL
  clearBit .iused CG_IUSED_OFF local_ino
  let nifree ← readWord CG_CS_NIFREE_OFF
  writeWord CG_CS_NIFREE_OFF (nifree + 1)
  let ndir ← readWord CG_CS_NDIR_OFF
  writeWord CG_CS_NDIR_OFF (if directory then ndir + 4294967295 else ndir)

end NextUfs.Core
