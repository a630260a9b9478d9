/-
NextUfs.Commands.Resize — `nextufs resize grow` of `src/commands/resize.c`: the
arithmetic of the new geometry, the length of the file, the label, and every
write with its place.

What the groups and the inodes hold is not modelled here. Where the code goes
by it (the runs it evacuates, the bits it expects to be clear or set, the
counts it adds up), and where a call of the host can fail, `Host` has the
answer, and every answer is possible. The totals of free blocks, inodes and
fragments are left out: no check reads them. A grow that fails is rolled back;
only what a grow that succeeds leaves behind is followed to the end.
-/
import NextUfs.Core.Label
import NextUfs.Core.Layout
import NextUfs.Lib.StateResult

namespace NextUfs.Commands

open NextUfs.Core NextUfs.Lib NextUfs.Lib.StateResult

def NEXTUFS_COMPAT_MAX_BYTES : Nat := 4294836224
def UINT32_MAX : Nat := 4294967295
def CSUM_SIZE : Nat := 16

/-- What the code finds in groups and inodes, and what the host makes of its calls. -/
structure Host where
  /-- The outcome of a call, by the number of calls before it. -/
  io : Nat → Except Errno Unit
  /-- How many runs `evacuate_summary_extension_range` moves. -/
  evacuate : Nat → Except Errno Nat
  /-- What `add_free_frag_range` or the bits of the summary extension object to. -/
  bits : Nat → Except Errno Unit
  /-- The primary superblock after another write at an offset went over a part of it. -/
  clobber : Nat → Superblock → Superblock

structure GrowState where
  file : SourceFile
  /-- So many bytes from the front of the file were never cut off. -/
  kept : Nat
  calls : Nat

abbrev GrowM := EStateM Errno GrowState

/-- The outcome of `nextufs_parse_size_bytes` and of the checks before the file is touched. -/
structure GrowPlan where
  sliceBytes : Nat
  frags : Nat
  ncg : Nat
  ncyl : Nat
  cssize : Nat
  deriving DecidableEq, Repr

/-! ## The new geometry -/

/-- `cg_frag_count`. -/
def cgFragCount (sb : Superblock) (cg fs_frags : Nat) : Nat :=
  min (fs_frags - cg * sb.fragsPerGroup) sb.fragsPerGroup

/-- `cgdmin(img, cg) - cg_base`. -/
def cgDupper (sb : Superblock) (cg : Nat) : Nat :=
  cgstart sb cg + sb.dataOff - sb.fragsPerGroup * cg

/-- `cgsblock(img, cg) - cg_base`. -/
def cgDlower (sb : Superblock) (cg : Nat) : Nat :=
  cgstart sb cg + sb.sbOff - sb.fragsPerGroup * cg

/-- The new sizes for a slice of `slice_bytes`. -/
def growPlan (sb : Superblock) (slice_bytes : Nat) : GrowPlan :=
  let frags := slice_bytes / sb.fragSize
  let ncg := (frags + sb.fragsPerGroup - 1) / sb.fragsPerGroup
  { sliceBytes := slice_bytes
    frags := frags
    ncg := ncg
    ncyl := (frags * sb.cpg + sb.fragsPerGroup - 1) / sb.fragsPerGroup
    cssize := (ncg * CSUM_SIZE + sb.fragSize - 1) / sb.fragSize * sb.fragSize }

/-- The groups a grow adds. -/
def newGroups (sb : Superblock) (plan : GrowPlan) : List Nat :=
  List.range' sb.cgCount (plan.ncg - sb.cgCount)

/-- The limits of the new sizes that `resize_grow` checks. -/
def PlanOk (sb : Superblock) (plan : GrowPlan) : Prop :=
  plan.sliceBytes % sb.fragSize = 0 ∧ plan.frags ≤ UINT32_MAX ∧
  sb.cgCount ≤ plan.ncg ∧ plan.ncg ≤ UINT32_MAX ∧
  plan.ncyl ≠ 0 ∧ plan.ncyl ≤ UINT32_MAX ∧ plan.cssize ≤ UINT32_MAX ∧
  ∀ cg ∈ newGroups sb plan, cgDupper sb cg ≤ cgFragCount sb cg plan.frags

instance (sb : Superblock) (plan : GrowPlan) : Decidable (PlanOk sb plan) := by
  unfold PlanOk
  infer_instance

/-- `target_slice_bytes`; a labeled image counts from the front of the file. -/
def targetSliceBytes (img : Image) (labeled : Bool) (target_backing : Nat) : Nat :=
  if labeled then target_backing - img.sliceBase else target_backing

/-- How many fragments `bytes` take. -/
def fragsOf (sb : Superblock) (bytes : Nat) : Nat := (bytes + sb.fragSize - 1) / sb.fragSize

/-- `new_dsize` as it is built up, on 32 bits. -/
def newDsize (sb : Superblock) (plan : GrowPlan) : Nat :=
  let last := sb.cgCount - 1
  let tail := cgFragCount sb last plan.frags - (sb.fragCount - sb.fragsPerGroup * last)
  let extension := if sb.csumSize < plan.cssize then
    fragsOf sb plan.cssize - fragsOf sb sb.csumSize else 0
  let added := ((newGroups sb plan).map fun cg =>
    cgDlower sb cg + (cgFragCount sb cg plan.frags - cgDupper sb cg)).sum
  (sb.dataFragCount + tail + (4294967296 - extension) + added) % 4294967296

/-- The superblock `patch_and_write_superblocks` writes, made of the one on disk. -/
def patchedSuperblock (sb old_sb : Superblock) (plan : GrowPlan) : Superblock :=
  { old_sb with
    fragCount := plan.frags
    dataFragCount := newDsize sb plan
    cgCount := plan.ncg
    csumSize := plan.cssize
    ncyl := plan.ncyl }

/-! ## The steps -/

section
variable (host : Host)

/-- A call of the host. -/
def hostCall : GrowM Unit := do
  let s ← get
  modify fun s => { s with calls := s.calls + 1 }
  ofExcept (host.io s.calls)

/-- The bits a step needs are as it needs them. -/
def bitsAsExpected : GrowM Unit := do
  let s ← get
  modify fun s => { s with calls := s.calls + 1 }
  ofExcept (host.bits s.calls)

/-- `nextufs__read_exact`. -/
def readExact (img : Image) (r : Region) : GrowM Unit := do
  check (r.start ≤ img.imageSize ∧ r.size ≤ img.imageSize - r.start) Errno.EINVAL
  hostCall host

/-- `nextufs__write_exact`, which makes `change` of the primary superblock. -/
def writeExact (img : Image) (r : Region) (change : Superblock → Superblock) : GrowM Unit := do
  check (img.writable = true) Errno.EROFS
  check (r.start ≤ img.imageSize ∧ r.size ≤ img.imageSize - r.start) Errno.EINVAL
  hostCall host
  modify fun s => { s with file :=
    { s.file with size := max s.file.size r.stop, sb := change s.file.sb } }

/-- A place of the slice as a place of the file. -/
def inFile (img : Image) (r : Region) : Region := ⟨img.sliceBase + r.start, r.size⟩

/-- `nextufs_image_pread`. -/
def imagePread (img : Image) (r : Region) : GrowM Unit := do
  check (r.start ≤ img.sliceSize ∧ r.size ≤ img.sliceSize - r.start) Errno.EINVAL
  readExact host img (inFile img r)

/-- `nextufs_image_pwrite`, of something that is not the primary superblock. -/
def imagePwrite (img : Image) (r : Region) : GrowM Unit := do
  check (r.start ≤ img.sliceSize ∧ r.size ≤ img.sliceSize - r.start) Errno.EINVAL
  writeExact host img (inFile img r) fun sb =>
    if r.Apart img.sb.primary then sb else host.clobber r.start sb

/-- `nextufs_image_pwrite` of the primary superblock, or of a copy that lies over it exactly. -/
def pwritePrimary (img : Image) (sb : Superblock) : GrowM Unit := do
  check (UFS_SBLOCK_OFFSET ≤ img.sliceSize ∧
    img.sb.superSize ≤ img.sliceSize - UFS_SBLOCK_OFFSET) Errno.EINVAL
  writeExact host img (inFile img img.sb.primary) fun _ => sb

/-- Where `write_csum_entry` writes. -/
def csumEntry (sb : Superblock) (cg : Nat) : Region :=
  ⟨sb.cylSummaryAddr * sb.fragSize + cg * CSUM_SIZE, CSUM_SIZE⟩

/-- The pieces of `write_zeroes`. Every piece takes something off, so `size` turns are enough. -/
def writeZeroesLoop (img : Image) : Nat → Nat → Nat → GrowM Unit
  | 0, _, _ => pure ()
  | fuel + 1, offset, size =>
    if size = 0 then pure () else do
      imagePwrite host img ⟨offset, min size 8192⟩
      writeZeroesLoop img fuel (offset + min size 8192) (size - min size 8192)

/-- `write_zeroes`. -/
def writeZeroes (img : Image) (r : Region) : GrowM Unit :=
  writeZeroesLoop host img r.size r.start r.size

/-- `expand_old_last_cg`. -/
def expandOldLastCg (img : Image) (plan : GrowPlan) : GrowM Unit := do
  let cg := img.sb.cgCount - 1
  let cbase := img.sb.fragsPerGroup * cg
  check (cbase < img.sb.fragCount ∧ img.sb.fragCount ≤ cbase + img.sb.fragsPerGroup ∧
    img.sb.fragCount ≤ plan.frags) Errno.EINVAL
  imagePread host img (img.sb.cgBlock cg)
  bitsAsExpected host
  imagePwrite host img (img.sb.cgBlock cg)
  imagePwrite host img (csumEntry img.sb cg)

/-- What `write_zeroes` clears of the summary. -/
def summaryExtension (sb : Superblock) (plan : GrowPlan) : Region :=
  ⟨sb.cylSummaryAddr * sb.fragSize + sb.csumSize, plan.cssize - sb.csumSize⟩

/-- `reserve_summary_extension`, and the zeroes behind it. -/
def reserveSummaryExtension (img : Image) (plan : GrowPlan) : GrowM Unit :=
  if img.sb.csumSize < plan.cssize then do
    check (img.sb.cylSummaryAddr + fragsOf img.sb plan.cssize ≤ img.sb.fragsPerGroup)
      Errno.ENOTSUP
    imagePread host img (img.sb.cgBlock 0)
    bitsAsExpected host
    imagePwrite host img (img.sb.cgBlock 0)
    imagePwrite host img (csumEntry img.sb 0)
    writeZeroes host img (summaryExtension img.sb plan)
  else pure ()

/-- `build_new_cg`, and the writes behind it. -/
def addGroup (img : Image) (plan : GrowPlan) (cg : Nat) : GrowM Unit := do
  check (cgFragCount img.sb cg plan.frags ≤ img.sb.fragsPerGroup ∧
    cgDupper img.sb cg ≤ cgFragCount img.sb cg plan.frags) Errno.ENOSPC
  bitsAsExpected host
  writeZeroes host img (img.sb.inodeTable cg)
  imagePwrite host img (img.sb.cgBlock cg)
  imagePwrite host img (csumEntry img.sb cg)

/-- The loop over the new groups. -/
def addGroups (img : Image) (plan : GrowPlan) : List Nat → GrowM Unit
  | [] => pure ()
  | cg :: rest => do
    addGroup host img plan cg
    addGroups img plan rest

/-- One copy of the superblock; it may be the primary itself. -/
def writeSuperCopy (img : Image) (sb : Superblock) (cg : Nat) : GrowM Unit :=
  if (img.sb.superCopy cg).start = UFS_SBLOCK_OFFSET then pwritePrimary host img sb
  else imagePwrite host img (img.sb.superCopy cg)

/-- The loop over the copies of the superblock. -/
def writeSuperCopies (img : Image) (sb : Superblock) : List Nat → GrowM Unit
  | [] => pure ()
  | cg :: rest => do
    writeSuperCopy host img sb cg
    writeSuperCopies img sb rest

/-- `patch_and_write_superblocks`. -/
def patchAndWriteSuperblocks (img : Image) (old_sb : Superblock) (plan : GrowPlan) : GrowM Unit := do
  pwritePrimary host img (patchedSuperblock img.sb old_sb plan)
  writeSuperCopies host img (patchedSuperblock img.sb old_sb plan) (List.range plan.ncg)

/-- A one-byte write of the state. -/
def writeState (img : Image) (state : Nat) : GrowM Unit :=
  writeExact host img ⟨img.sliceBase + UFS_SBLOCK_OFFSET + 0xd1, 1⟩ fun sb =>
    { sb with state := state }

/-- `nextufs__write_begin` and `nextufs__transaction_begin`. -/
def writeBegin (img : Image) : GrowM Unit := do
  writeState host img (if img.sb.state = 1 then 2 else 3)
  hostCall host

/-- `nextufs__write_finish`; an image that was not clean stays as it is. -/
def writeFinish (img : Image) : GrowM Unit :=
  if img.sb.state = 1 then do
    hostCall host
    writeState host img 1
    hostCall host
  else pure ()

/-- `ftruncate`. -/
def truncateFile (size : Nat) : GrowM Unit := do
  hostCall host
  modify fun s => { s with file := { s.file with size := size }, kept := min s.kept size }

/-- The label after `patch_label_partition_size`, which comes behind a record for the log. -/
def patchLabel (img : Image) (labeled : Bool) (plan : GrowPlan) : GrowM Unit :=
  if labeled then do
    readExact host img ⟨0, img.sliceBase⟩
    let s ← get
    let labels ← ofExcept (labelPatchSliceSize s.file.labels img.sliceBase plan.sliceBytes)
    modify fun s => { s with file := { s.file with labels := labels } }
    hostCall host
  else pure ()

/-- `resize_grow`, from the summary that is known to be clear to the end. -/
def growAttempt (img : Image) (labeled : Bool) (plan : GrowPlan) (target_backing : Nat) :
    GrowM Unit := do
  check (plan.cssize ≤ img.sb.csumSize ∨
    img.sb.cylSummaryAddr + plan.cssize / img.sb.fragSize ≤ img.sb.fragsPerGroup) Errno.ENOSPC
  imagePread host img img.sb.primary
  let s ← get
  let old_sb := s.file.sb
  truncateFile host target_backing
  let img := { img with imageSize := target_backing, sliceSize := plan.sliceBytes }
  patchLabel host img labeled plan
  expandOldLastCg host img plan
  reserveSummaryExtension host img plan
  addGroups host img plan (newGroups img.sb plan)
  patchAndWriteSuperblocks host img old_sb plan
  hostCall host
  writeFinish host img

/-- How many runs are moved out of the way of the longer summary. -/
def evacuateSummaryExtensionRange (img : Image) (plan : GrowPlan) : GrowM Nat :=
  if img.sb.csumSize < plan.cssize then do
    check (img.sb.cylSummaryAddr + fragsOf img.sb plan.cssize ≤ img.sb.fragsPerGroup)
      Errno.ENOTSUP
    let s ← get
    modify fun s => { s with calls := s.calls + 1 }
    ofExcept (host.evacuate s.calls)
  else pure 0

/-- Everything of `resize_grow` before it writes. -/
def growStart (target_backing : Nat) (force : Bool) : GrowM (Image × Bool × GrowPlan) := do
  check (target_backing % 1024 = 0) Errno.EINVAL
  check (force = true ∨ target_backing ≤ NEXTUFS_COMPAT_MAX_BYTES) Errno.EINVAL
  let s ← get
  hostCall host
  let (img, labeled) ← ofExcept (openSourceWritable s.file)
  check (labeled = true → img.sliceBase < target_backing) Errno.EINVAL
  let slice_bytes := targetSliceBytes img labeled target_backing
  check (img.sliceSize < slice_bytes) Errno.EINVAL
  check (labeled = true → labelValidateSingleSlice s.file.labels img.sliceBase = .ok ())
    Errno.EINVAL
  check (PlanOk img.sb (growPlan img.sb slice_bytes)) Errno.EINVAL
  pure (img, labeled, growPlan img.sb slice_bytes)

/-- `resize_grow`. It starts again when runs were moved; `fuel` bounds how often. -/
def resizeGrow (target_backing : Nat) (force : Bool) : Nat → GrowM Unit
  | 0 => throw Errno.EUCLEAN
  | fuel + 1 => do
    let (img, labeled, plan) ← growStart host target_backing force
    writeBegin host img
    let moves ← evacuateSummaryExtensionRange host img plan
    if moves ≠ 0 then do
      hostCall host
      writeFinish host img
      resizeGrow target_backing force fuel
    else growAttempt host img labeled plan target_backing

end

end NextUfs.Commands
