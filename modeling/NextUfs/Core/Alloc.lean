/-
NextUfs.Core.Alloc — fragment allocation: `nextufs__allocate_frags_anycg`,
`nextufs__extend_fragment_run`, `nextufs__free_fragment_run` and
`nextufs__reallocate_fragment_run` of `src/core/alloc.c`, with
`nextufs__update_summary_counts` of `src/core/layout.c`.

Each C function reads a group's block into a buffer, edits it and writes it
back whole; here it takes the `Cg` and stores the edited one, with the tests
the backend makes of the block's place in the image. The two nested
searches of `nextufs__allocate_frags_in_group` are `partialRun` and
`wholeBlock`, each the first hit of its loop.
-/
import NextUfs.Core.Fs
import NextUfs.Core.Layout
import NextUfs.Lib.Runs

namespace NextUfs.Core

open NextUfs.Lib NextUfs.Lib.ByteStore NextUfs.Lib.StateResult NextUfs.Lib.Runs

/-! ## The free map -/

/-- `nextufs__block_is_free`. -/
def blockIsFree (free : Nat → Bool) (base n : Nat) : Bool := allSet free base n

/-- `nextufs__set_run_bits`. -/
def setRunBits (free : Nat → Bool) (base n : Nat) : Bool := allSet free base n

/-- `nextufs__clear_block_bits`. -/
def clearBlockBits (free : Nat → Bool) (base n : Nat) : Nat → Bool := fun i =>
  if base ≤ i ∧ i < base + n then false else free i

/-- The bits the loop of `nextufs__free_fragment_run` sets. -/
def setBlockBits (free : Nat → Bool) (base n : Nat) : Nat → Bool := fun i =>
  if base ≤ i ∧ i < base + n then true else free i

/-- The outer loop of `nextufs__count_free_runs_in_block` from position `i`. Each turn moves `i`
on, so `fpb` turns are enough. -/
def countFreeRunsLoop (free : Nat → Bool) (base fpb : Nat) :
    Nat → Nat → (Nat → UInt32) → Nat → UInt32
  | 0, _, counts => counts
  | fuel + 1, i, counts =>
    if fpb ≤ i then counts else
    let run := runLength free (base + i) (fpb - i)
    let counts :=
      if 0 < run ∧ run < fpb then Function.update counts run (counts run + 1) else counts
    countFreeRunsLoop free base fpb fuel (i + if 0 < run then run else 1) counts

/-- `nextufs__count_free_runs_in_block`. -/
def countFreeRunsInBlock (free : Nat → Bool) (base fpb : Nat) : Nat → UInt32 :=
  countFreeRunsLoop free base fpb fpb 0 fun _ => 0

/-- `nextufs__apply_cg_frsum_delta`. -/
def applyCgFrsumDelta (frsum before after : Nat → UInt32) (fpb : Nat) : Nat → UInt32 := fun i =>
  if 1 ≤ i ∧ i < fpb then frsum i + (after i - before i) else frsum i

/-! ## Counters -/

/-- The sum of two counter records, word by word. -/
def Csum.add (a d : Csum) : Csum where
  ndir := a.ndir + d.ndir
  nbfree := a.nbfree + d.nbfree
  nifree := a.nifree + d.nifree
  nffree := a.nffree + d.nffree

/-- The offset of a group's entry in the summary table. -/
def summaryOffset (sb : Superblock) (cg : Nat) : Nat :=
  sb.cylSummaryAddr * sb.fragSize + cg * 16

/-- `nextufs__update_summary_counts`; a negative delta is its two's complement. An image that is
open has its superblock; the entry of a group there is not may lie past the image. -/
def updateSummaryCounts (cg : Nat) (d : Csum) : FsM PUnit := do
  modify fun fs => { fs with totals := fs.totals.add d }
  let fs ← get
  check (fs.inImage 16 (summaryOffset fs.img.sb cg)) .EINVAL
  modify fun fs => { fs with csum := Function.update fs.csum cg ((fs.csum cg).add d) }

/-- Reading a group's block. -/
def readCg (c : Nat) : FsM Cg := do
  let fs ← get
  check (fs.inImage fs.img.sb.cgSize (cgBlockOffset fs.img.sb c)) .EINVAL
  return fs.cg c

/-- Writing it back. -/
def writeCg (c : Nat) (cg : Cg) : FsM PUnit := do
  let fs ← get
  check (fs.img.writable) .EROFS
  check (fs.inImage fs.img.sb.cgSize (cgBlockOffset fs.img.sb c)) .EINVAL
  modify fun fs => { fs with cg := Function.update fs.cg c cg }

/-- The cylinder of a block, from its first fragment in the group. -/
def blockCyl (sb : Superblock) (frag : Nat) : Nat := frag * sb.sectorsPerFrag / sb.sectorsPerCyl

/-- The rotational position of a block, from its first fragment in the group. -/
def blockRot (sb : Superblock) (frag : Nat) : Nat :=
  frag * sb.sectorsPerFrag % sb.sectorsPerCyl % sb.sectorsPerTrack * NRPOS / sb.sectorsPerTrack

/-- Adding to the counts of a block's cylinder and rotational position. -/
def Cg.addBlock (cg : Cg) (sb : Superblock) (frag : Nat) (d : UInt32) (e : UInt16) : Cg :=
  let cyl := blockCyl sb frag
  let rot := blockRot sb frag
  if cyl < 32 ∧ rot < NRPOS then
    { cg with
      btot := Function.update cg.btot cyl (cg.btot cyl + d)
      bpos := Function.update cg.bpos cyl
        (Function.update (cg.bpos cyl) rot (cg.bpos cyl rot + e)) }
  else cg

/-- The edit `nextufs__allocate_frags_in_group` and `nextufs__extend_fragment_run` share: take `n`
fragments from `start` out of the partial block at `base`. -/
def Cg.takeFrags (cg : Cg) (fpb base start n : Nat) : Cg :=
  let free := clearBlockBits cg.free start n
  { cg with
    free := free
    frsum := applyCgFrsumDelta cg.frsum (countFreeRunsInBlock cg.free base fpb)
      (countFreeRunsInBlock free base fpb) fpb
    cs := { cg.cs with nffree := cg.cs.nffree - UInt32.ofNat n } }

/-! ## Allocating -/

/-- `reserve_available`. -/
def reserveAvailable (needed : Nat) : FsM PUnit := do
  let fs ← get
  let sb := fs.img.sb
  if fs.img.unprivileged then
    check (sb.minfree ≤ 99) .EINVAL
    let available := fs.totals.nbfree.toNat * sb.fragsPerBlock + fs.totals.nffree.toNat
    let reserve := sb.dataFragCount * sb.minfree / 100
    check (¬ (available < reserve ∨ needed > available - reserve)) .ENOSPC

/-- The search for `n` free fragments in a partial block: the block and the run. -/
def Cg.partialRun (cg : Cg) (fpb n : Nat) : Option (Nat × Nat) :=
  if n < fpb ∧ n ≤ cg.cs.nffree.toNat then
    (List.range ((cg.ndblk + fpb - 1) / fpb)).findSome? fun b =>
      let local_frag := b * fpb
      let end_ := min (local_frag + fpb) cg.ndblk
      if end_ - local_frag = fpb ∧ blockIsFree cg.free local_frag fpb then none
      else
        ((List.range' local_frag (end_ + 1 - (local_frag + n))).find? fun start =>
          setRunBits cg.free start n).map (local_frag, ·)
  else none

/-- The search for a free block. -/
def Cg.wholeBlock (cg : Cg) (fpb : Nat) : Option Nat :=
  ((List.range (cg.ndblk / fpb)).map (· * fpb)).find? fun local_frag =>
    blockIsFree cg.free local_frag fpb

/-- The edit that takes the first `n` fragments of the free block at `frag`. -/
def Cg.splitBlock (cg : Cg) (sb : Superblock) (frag n : Nat) : Cg :=
  let rest := sb.fragsPerBlock - n
  let cg := { cg with
    free := clearBlockBits cg.free frag n
    rotor := frag
    cs := { cg.cs with
      nbfree := cg.cs.nbfree - 1, nffree := cg.cs.nffree + UInt32.ofNat rest }
    frsum := if 0 < rest then Function.update cg.frsum rest (cg.frsum rest + 1) else cg.frsum }
  cg.addBlock sb frag (-1) (-1)

/-- `nextufs__allocate_frags_in_group`. -/
def allocateFragsInGroup (c n : Nat) : FsM Nat := do
  let fs ← get
  let sb := fs.img.sb
  check (n ≠ 0 ∧ n ≤ sb.fragsPerBlock) .EINVAL
  let cg ← readCg c
  check (cg.magic = CG_MAGIC) .EINVAL
  check (cg.ndblk ≤ sb.fragsPerGroup ∧ c * sb.fragsPerGroup + cg.ndblk ≤ sb.fragCount ∧
    CG_FREE_OFF + (cg.ndblk + 7) / 8 ≤ sb.cgSize) .EINVAL
  match cg.partialRun sb.fragsPerBlock n with
  | some (local_frag, start) => do
    writeCg c (cg.takeFrags sb.fragsPerBlock local_frag start n)
    updateSummaryCounts c { nffree := -UInt32.ofNat n }
    return c * sb.fragsPerGroup + start
  | none => do
    check (cg.cs.nbfree ≠ 0) .ENOSPC
    match cg.wholeBlock sb.fragsPerBlock with
    | some local_frag => do
      writeCg c (cg.splitBlock sb local_frag n)
      updateSummaryCounts c { nbfree := -1, nffree := UInt32.ofNat (sb.fragsPerBlock - n) }
      return c * sb.fragsPerGroup + local_frag
    | none => throw .ENOSPC

/-- The loop of `nextufs__allocate_frags_anycg`: `k` groups to go, the next at distance `i`. -/
def anycgLoop (preferred_cg n : Nat) : Nat → Nat → FsM Nat
  | 0, _ => throw .ENOSPC
  | k + 1, i => fun fs =>
    match allocateFragsInGroup ((preferred_cg + i) % 4294967296 % fs.img.sb.cgCount) n fs with
    | .error .ENOSPC fs => anycgLoop preferred_cg n k (i + 1) fs
    | r => r

/-- `nextufs__allocate_frags_anycg`. -/
def allocateFragsAnycg (preferred_cg n : Nat) : FsM Nat := do
  reserveAvailable n
  let fs ← get
  anycgLoop preferred_cg n fs.img.sb.cgCount 0

/-! ## Extending, freeing, moving -/

/-- `nextufs__extend_fragment_run`. -/
def extendFragmentRun (frag_base old_frags new_frags : Nat) : FsM PUnit := do
  let fs ← get
  let sb := fs.img.sb
  check (old_frags < new_frags ∧ new_frags ≤ sb.fragsPerBlock) .EINVAL
  reserveAvailable (new_frags - old_frags)
  let c := frag_base / sb.fragsPerGroup
  let local_frag := frag_base % sb.fragsPerGroup
  check (local_frag % sb.fragsPerBlock + new_frags ≤ sb.fragsPerBlock) .ENOSPC
  let cg ← readCg c
  check (cg.magic = CG_MAGIC) .EINVAL
  let added := new_frags - old_frags
  check (setRunBits cg.free (local_frag + old_frags) added) .ENOSPC
  writeCg c (cg.takeFrags sb.fragsPerBlock (local_frag - local_frag % sb.fragsPerBlock)
    (local_frag + old_frags) added)
  updateSummaryCounts c { nffree := -UInt32.ofNat added }

/-- The edit of `nextufs__free_fragment_run`. -/
def Cg.giveFrags (cg : Cg) (sb : Superblock) (base frag n : Nat) : Cg :=
  let free := setBlockBits cg.free frag n
  let frsum := applyCgFrsumDelta cg.frsum (countFreeRunsInBlock cg.free base sb.fragsPerBlock)
    (countFreeRunsInBlock free base sb.fragsPerBlock) sb.fragsPerBlock
  if blockIsFree free base sb.fragsPerBlock then
    { cg with
      free := free, frsum := frsum
      cs := { cg.cs with
        nffree := cg.cs.nffree + UInt32.ofNat n - UInt32.ofNat sb.fragsPerBlock
        nbfree := cg.cs.nbfree + 1 } }.addBlock sb base 1 1
  else
    { cg with
      free := free, frsum := frsum
      cs := { cg.cs with nffree := cg.cs.nffree + UInt32.ofNat n } }

/-- What that edit adds to the counts of the group. -/
def Cg.giveDelta (cg : Cg) (sb : Superblock) (base frag n : Nat) : Csum :=
  if blockIsFree (setBlockBits cg.free frag n) base sb.fragsPerBlock then
    { nbfree := 1, nffree := UInt32.ofNat n - UInt32.ofNat sb.fragsPerBlock }
  else { nffree := UInt32.ofNat n }

/-- `nextufs__free_fragment_run`. -/
def freeFragmentRun (frag_base frags : Nat) : FsM PUnit := do
  let fs ← get
  let sb := fs.img.sb
  check (frags ≠ 0 ∧ frags ≤ sb.fragsPerBlock) .EINVAL
  let c := frag_base / sb.fragsPerGroup
  let local_frag := frag_base % sb.fragsPerGroup
  let base := local_frag - local_frag % sb.fragsPerBlock
  let cg ← readCg c
  check (cg.magic = CG_MAGIC) .EINVAL
  check (∀ i < frags, cg.free (local_frag + i) = false) .EINVAL
  writeCg c (cg.giveFrags sb base local_frag frags)
  updateSummaryCounts c (cg.giveDelta sb base local_frag frags)

/-- `nextufs__reallocate_fragment_run`. The new run gets the old bytes and zeros behind them. -/
def reallocateFragmentRun (old_frag old_frags new_frags preferred_cg : Nat) : FsM Nat := do
  let fs ← get
  let sb := fs.img.sb
  let tmp ← readSlice (old_frags * sb.fragSize) (fs.fragOffset old_frag)
  let new_frag ← allocateFragsAnycg preferred_cg new_frags
  writeSlice (fun i => if i < old_frags * sb.fragSize then tmp i else 0)
    (new_frags * sb.fragSize) (fs.fragOffset new_frag)
  freeFragmentRun old_frag old_frags
  return new_frag

end NextUfs.Core
