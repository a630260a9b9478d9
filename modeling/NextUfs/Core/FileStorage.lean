/-
NextUfs.Core.FileStorage — the storage of a whole file: the end of
`src/core/alloc.c`, with `nextufs__store_inline_symlink` of
`src/mutate/dir_mutate.c`.

`allocateDataForInode` fills an inode from a buffer and gives back what it took
when it fails; its callers go on with the inode it leaves, so the inode and the
status are both results. `freeFileStorage` gives back a file's data and then its
indirect blocks.
-/
import NextUfs.Core.Path

namespace NextUfs.Core

open NextUfs.Lib NextUfs.Lib.ByteStore NextUfs.Lib.StateResult

/-! ## Giving storage back -/

/-- `visit` what a pointer leads to, if it is not null. -/
def unlessNull (visit : Nat → FsM PUnit) (frag : Nat) : FsM PUnit :=
  if frag = 0 then return ⟨⟩ else visit frag

/-- The loop over the entries of an indirect block, `n` to go from entry `i`. -/
def freeEntries (visit : Nat → FsM PUnit) (block_frag : Nat) : Nat → Nat → FsM PUnit
  | 0, _ => return ⟨⟩
  | n + 1, i => do
    let child ← readIndirectEntry block_frag i
    unlessNull visit child
    freeEntries visit block_frag n (i + 1)

/-- `nextufs__free_indirect_metadata_tree` at level `below + 1`. -/
def freeIndirectMetadataTree : (below block_frag : Nat) → FsM PUnit
  | 0, block_frag =>
    if block_frag = 0 then return ⟨⟩ else do
    let fs ← get
    freeFragmentRun block_frag fs.img.sb.fragsPerBlock
  | below + 1, block_frag =>
    if block_frag = 0 then return ⟨⟩ else do
    let fs ← get
    freeEntries (freeIndirectMetadataTree below) block_frag fs.img.sb.entriesPerBlock 0
    freeFragmentRun block_frag fs.img.sb.fragsPerBlock

/-- The fragments of a block of which the file has `chunk` bytes. -/
def chunkFrags (sb : Superblock) (logical_block chunk : Nat) : Nat :=
  if logical_block ≥ 12 then sb.fragsPerBlock else (chunk + sb.fragSize - 1) / sb.fragSize

/-- The loop of `nextufs__free_file_storage` over the data. Every turn takes a byte at least. -/
def freeChunks (ino : Inode) : Nat → Nat → Nat → FsM PUnit
  | 0, _, _ => return ⟨⟩
  | fuel + 1, remaining, logical_block =>
    if remaining = 0 then return ⟨⟩ else do
    let fs ← get
    let chunk := min remaining fs.img.sb.blockSize
    let frag ← resolveInodeDataBlock ino logical_block
    unlessNull (fun frag => freeFragmentRun frag (chunkFrags fs.img.sb logical_block chunk)) frag
    freeChunks ino fuel (remaining - chunk) (logical_block + 1)

/-- The loop over the indirect slots, the first `n`. -/
def freeSlots (ino : Inode) : Nat → FsM PUnit
  | 0 => return ⟨⟩
  | n + 1 => do
    freeSlots ino n
    freeIndirectMetadataTree n (ino.ib n)

/-- The inode without its storage. -/
def Inode.emptied (ino : Inode) : Inode :=
  { ino with db := fun _ => 0, ib := fun _ => 0, size := 0, blocks := 0 }

/-- `nextufs__free_file_storage`. -/
def freeFileStorage (ino : Inode) : FsM Inode :=
  if ino.isLnk ∧ ino.flags &&& NEXTUFS_IC_FASTLINK ≠ 0 then
    return { ino.emptied with flags := ino.flags &&& ~~~NEXTUFS_IC_FASTLINK }
  else do
    freeChunks ino ino.size ino.size 0
    freeSlots ino 3
    return ino.emptied

/-! ## Taking storage -/

/-- `nextufs__set_inode_data_block`, with the inode as the call leaves it when it fails: a new root
is in its slot by then. -/
def setInodeDataBlockOut (ino : Inode) (logical_block data_frag preferred_cg : Nat) :
    FsM (Inode × Except Errno Nat) := do
  let fs ← get
  if logical_block < 12 then
    return ({ ino with db := Function.update ino.db logical_block data_frag }, .ok 0)
  else
    match fs.img.sb.indirectSlot logical_block with
    | none => return (ino, .error .EFBIG)
    | some (slot, index) =>
      if ino.ib slot = 0 then do
        match ← attempt (allocateZeroedFullBlock preferred_cg) with
        | .error e => return (ino, .error e)
        | .ok root => do
          let r ← attempt (setIndirectDataBlock preferred_cg (slot + 1) root index data_frag)
          return ({ ino with ib := Function.update ino.ib slot root },
            r.map (fs.img.sb.fragsPerBlock + ·))
      else do
        let r ← attempt (setIndirectDataBlock preferred_cg (slot + 1) (ino.ib slot) index data_frag)
        return (ino, r)

/-- What a turn of `nextufs__allocate_data_for_inode` leaves: the status, the inode, and
`total_alloc_frags`. -/
structure PlacedChunk where
  status : Status
  ino : Inode
  total : Nat

/-- A run of its own for a chunk of the data, entered in the inode. -/
def placeChunk (preferred_cg : Nat) (chunk : List UInt8) (logical_block : Nat) (ino : Inode)
    (total : Nat) : FsM PlacedChunk := do
  let fs ← get
  let sb := fs.img.sb
  let frags := chunkFrags sb logical_block chunk.length
  match ← attempt (allocateFragsAnycg preferred_cg frags) with
  | .error e => return ⟨some e, ino, total⟩
  | .ok frag => do
    let (ino, set) ← setInodeDataBlockOut ino logical_block frag preferred_cg
    match set with
    | .error e => do
      let _ ← attempt (freeFragmentRun frag frags)
      return ⟨some e, ino, total⟩
    | .ok metadata => do
      let total := total + metadata + frags
      let ino := { ino with
        size := logical_block * sb.blockSize + chunk.length
        blocks := UInt32.ofNat total * UInt32.ofNat sb.sectorsPerFrag }
      match ← attempt (writeSlice (ofList chunk) (frags * sb.fragSize) (fs.fragOffset frag)) with
      | .error e => return ⟨some e, ino, total⟩
      | .ok _ => return ⟨none, ino, total⟩

/-- The loop of `nextufs__allocate_data_for_inode`. Every turn takes a byte at least. -/
def placeChunks (preferred_cg : Nat) : Nat → List UInt8 → Nat → Inode → Nat → FsM PlacedChunk
  | 0, _, _, ino, total => return ⟨none, ino, total⟩
  | fuel + 1, data, logical_block, ino, total =>
    if data = [] then return ⟨none, ino, total⟩ else do
    let fs ← get
    let bs := fs.img.sb.blockSize
    let r ← placeChunk preferred_cg (data.take bs) logical_block ino total
    match r.status with
    | some _ => return r
    | none => placeChunks preferred_cg fuel (data.drop bs) (logical_block + 1) r.ino r.total

/-- `nextufs__allocate_data_for_inode`: the status, and the inode it leaves. -/
def allocateDataForInode (preferred_cg : Nat) (data : List UInt8) (ino : Inode) :
    FsM (Status × Inode) := do
  let fs ← get
  if data.length > INT32_MAX then return (some .EFBIG, ino) else do
  let r ← placeChunks preferred_cg data.length data 0 ino 0
  match r.status with
  | none => return (none, { r.ino with
      size := data.length, blocks := UInt32.ofNat r.total * UInt32.ofNat fs.img.sb.sectorsPerFrag })
  | some e => do
    match ← attempt (freeFileStorage r.ino) with
    | .ok ino => return (some e, ino)
    | .error _ => return (some e, r.ino)

/-! ## Inline symbolic links -/

/-- `nextufs__store_inline_symlink`: the target in the sixty bytes of the block pointers. -/
def storeInlineSymlink (ino : Inode) (target : List UInt8) : Inode :=
  { ino with
    db := fun i => if i < 12 then be32 (ofList target) (i * 4) else ino.db i
    ib := fun i => if i < 3 then be32 (ofList target) (48 + i * 4) else ino.ib i }

end NextUfs.Core
