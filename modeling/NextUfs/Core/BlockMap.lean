/-
NextUfs.Core.BlockMap — from a file's logical blocks to fragments: the
indirect blocks of `src/core/alloc.c` and the read path of
`src/core/image.c`.

An inode's twelve direct pointers are `db`, its three indirect roots `ib`. An
indirect block of level `n` holds `block_size / 4` big-endian pointers to
blocks of level `n - 1`, level 0 being file data; a zero pointer is a hole.
`span` is a power here; the C code multiplies it up in a loop. The two
resolvers, one for the mutation code and one for the reader, are kept apart as
in the source.
-/
import NextUfs.Core.Alloc

namespace NextUfs.Core

open NextUfs.Lib NextUfs.Lib.ByteStore NextUfs.Lib.StateResult

/-- `nextufs__entries_per_block`. -/
def Superblock.entriesPerBlock (sb : Superblock) : Nat := sb.blockSize / 4

/-- `nextufs__read_indirect_entry`. -/
def readIndirectEntry (block_frag entry_index : Nat) : FsM Nat := do
  let fs ← get
  let sb := fs.img.sb
  check (entry_index < sb.entriesPerBlock ∧ block_frag ≠ 0 ∧
    block_frag + sb.fragsPerBlock ≤ sb.fragCount) .EINVAL
  let raw ← readSlice 4 (fs.fragOffset block_frag + entry_index * 4)
  return be32 raw 0

/-- `nextufs__write_indirect_entry`. -/
def writeIndirectEntry (block_frag entry_index entry_value : Nat) : FsM PUnit := do
  let fs ← get
  let sb := fs.img.sb
  check (entry_index < sb.entriesPerBlock ∧ block_frag ≠ 0 ∧
    block_frag + sb.fragsPerBlock ≤ sb.fragCount) .EINVAL
  writeSlice (beBytes 4 entry_value) 4 (fs.fragOffset block_frag + entry_index * 4)

/-- `nextufs__allocate_full_block_anycg`. -/
def allocateFullBlockAnycg (preferred_cg : Nat) : FsM Nat := do
  let fs ← get
  allocateFragsAnycg preferred_cg fs.img.sb.fragsPerBlock

/-- `nextufs__allocate_zeroed_full_block`. -/
def allocateZeroedFullBlock (preferred_cg : Nat) : FsM Nat := do
  let fs ← get
  let frag ← allocateFullBlockAnycg preferred_cg
  writeSlice (fun _ => 0) fs.img.sb.blockSize (fs.fragOffset frag)
  return frag

/-- `nextufs__set_indirect_data_block`; the result is what it adds to `*metadata_frags_out`. -/
def setIndirectDataBlock (preferred_cg : Nat) : Nat → Nat → Nat → Nat → FsM Nat
  | 0, _, _, _ => throw .EINVAL
  | level + 1, block_frag, logical_index, data_frag =>
    if level = 0 then do
      writeIndirectEntry block_frag logical_index data_frag
      return 0
    else do
      let fs ← get
      let span := fs.img.sb.entriesPerBlock ^ level
      let entry_index := logical_index / span
      let next ← readIndirectEntry block_frag entry_index
      if next = 0 then do
        let new ← allocateZeroedFullBlock preferred_cg
        writeIndirectEntry block_frag entry_index new
        let m ← setIndirectDataBlock preferred_cg level new (logical_index % span) data_frag
        return fs.img.sb.fragsPerBlock + m
      else
        setIndirectDataBlock preferred_cg level next (logical_index % span) data_frag

/-- The slot of a logical block past the direct ones, and its index in that tree. -/
def Superblock.indirectSlot (sb : Superblock) (logical_block : Nat) : Option (Nat × Nat) :=
  let epb := sb.entriesPerBlock
  let local_index := logical_block - 12
  if local_index < epb then some (0, local_index) else
  if local_index - epb < epb ^ 2 then some (1, local_index - epb) else
  if local_index - epb - epb ^ 2 < epb ^ 3 then some (2, local_index - epb - epb ^ 2) else none

/-- The first logical block of an indirect slot. -/
def Superblock.slotBase (sb : Superblock) : Nat → Nat
  | 0 => 12
  | s + 1 => sb.slotBase s + sb.entriesPerBlock ^ (s + 1)

/-- `nextufs__set_inode_data_block`: the inode with the pointer set, and the fragments added in
indirect blocks. -/
def setInodeDataBlock (ino : Inode) (logical_block data_frag preferred_cg : Nat) :
    FsM (Inode × Nat) := do
  let fs ← get
  if logical_block < 12 then
    return ({ ino with db := Function.update ino.db logical_block data_frag }, 0)
  else
    match fs.img.sb.indirectSlot logical_block with
    | none => throw .EFBIG
    | some (slot, index) =>
      if ino.ib slot = 0 then do
        let root ← allocateZeroedFullBlock preferred_cg
        let m ← setIndirectDataBlock preferred_cg (slot + 1) root index data_frag
        return ({ ino with ib := Function.update ino.ib slot root }, fs.img.sb.fragsPerBlock + m)
      else do
        let m ← setIndirectDataBlock preferred_cg (slot + 1) (ino.ib slot) index data_frag
        return (ino, m)

/-- `nextufs__resolve_indirect_data_block`. -/
def resolveIndirectDataBlock : Nat → Nat → Nat → FsM Nat
  | 0, _, _ => throw .EINVAL
  | level + 1, block_frag, logical_index =>
    if block_frag = 0 then return 0 else
    if level = 0 then readIndirectEntry block_frag logical_index
    else do
      let fs ← get
      let span := fs.img.sb.entriesPerBlock ^ level
      let next ← readIndirectEntry block_frag (logical_index / span)
      resolveIndirectDataBlock level next (logical_index % span)

/-- `nextufs__resolve_inode_data_block`. -/
def resolveInodeDataBlock (ino : Inode) (logical_block : Nat) : FsM Nat := do
  let fs ← get
  if logical_block < 12 then
    return ino.db logical_block
  else
    match fs.img.sb.indirectSlot logical_block with
    | none => throw .EFBIG
    | some (slot, index) => resolveIndirectDataBlock (slot + 1) (ino.ib slot) index

/-! ## Reading -/

/-- The reader's view of `readIndirectEntry`: any failure is `EIO`. -/
def readEntryChecked (block_frag entry_index : Nat) : FsM Nat := fun fs =>
  match readIndirectEntry block_frag entry_index fs with
  | .ok v fs => .ok v fs
  | .error _ fs => .error Errno.EIO fs

/-- `resolve_indirect_block_frag`. -/
def resolveIndirectBlockFrag : Nat → Nat → Nat → FsM Nat
  | 0, _, _ => throw .EINVAL
  | level + 1, block_frag, logical_index =>
    if block_frag = 0 then return 0 else do
    let fs ← get
    let span := fs.img.sb.entriesPerBlock ^ level
    let next ← readEntryChecked block_frag (logical_index / span)
    if level = 0 then return next else
    if next = 0 then return 0 else
    resolveIndirectBlockFrag level next (logical_index % span)

/-- `resolve_file_block_frag`. -/
def resolveFileBlockFrag (ino : Inode) (logical_block_index : Nat) : FsM Nat := do
  let fs ← get
  if logical_block_index < 12 then
    return ino.db logical_block_index
  else
    match fs.img.sb.indirectSlot logical_block_index with
    | none => throw .EINVAL
    | some (slot, index) => resolveIndirectBlockFrag (slot + 1) (ino.ib slot) index

/-- The loop of `nextufs_inode_read_data`: `n` bytes to go, the next at `off` of block `logical`.
Every turn takes a byte at least, so `n` turns are enough. -/
def readChunks (ino : Inode) : Nat → Nat → Nat → Nat → FsM (List UInt8)
  | 0, _, _, _ => return []
  | fuel + 1, logical, off, n =>
    if n = 0 then return [] else do
    let fs ← get
    let sb := fs.img.sb
    let chunk := min (sb.blockSize - off) n
    let frag ← resolveFileBlockFrag ino logical
    if frag = 0 then do
      let rest ← readChunks ino fuel (logical + 1) 0 (n - chunk)
      return List.replicate chunk 0 ++ rest
    else do
      check (frag * sb.fragSize + off + chunk ≤ sb.fragCount * sb.fragSize) Errno.EIO
      let buf ← readSlice chunk (fs.fragOffset frag + off)
      let rest ← readChunks ino fuel (logical + 1) 0 (n - chunk)
      return slice buf 0 chunk ++ rest

/-- `nextufs_inode_read_data`: the bytes put into the buffer. -/
def inodeReadData (ino : Inode) (start buf_size : Nat) : FsM (List UInt8) := do
  let fs ← get
  check (imageValidate fs.img = true) .EINVAL
  if start ≥ ino.size then return [] else
  let n := min (ino.size - start) buf_size
  readChunks ino n (start / fs.img.sb.blockSize) (start % fs.img.sb.blockSize) n

end NextUfs.Core
