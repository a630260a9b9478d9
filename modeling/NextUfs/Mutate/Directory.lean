/-
NextUfs.Mutate.Directory — inserting and removing directory records, and the
test for an empty directory: `src/mutate/dir_mutate.c`.

The loop over the records of a loaded chunk is a pure function of the chunk: it
fails, finds nothing to do, or returns the chunk as it is to be written back.
-/
import NextUfs.Core.Path
import NextUfs.Mutate.File

namespace NextUfs.Mutate

open NextUfs.Core NextUfs.Lib NextUfs.Lib.ByteStore NextUfs.Lib.StateResult

/-- `nextufs__write_dirent_raw` at `off` of a buffer. -/
def writeDirentRaw (buf : ByteStore) (off ino reclen : Nat) (name : List UInt8) :
    Except Errno ByteStore :=
  if name.length > 255 then .error .ENAMETOOLONG
  else if reclen > DIRBLKSIZ ∨ reclen % 4 ≠ 0 ∨ reclen < direntSize name.length ∨
      (0x2f : UInt8) ∈ name then .error .EINVAL
  else
    let buf := patch buf off reclen fun _ => 0
    let buf := setBe16 (setBe16 (setBe32 buf off ino) (off + 4) reclen) (off + 6) name.length
    .ok (patch buf (off + 8) name.length (ofList name))

/-- `nextufs__update_node_times`, without the times. -/
def updateNodeTimes (node : Node) : FsM Node := do
  writeInodeRaw node.inodeNo node.inode
  nodeGetByInode node.inodeNo

/-- `nextufs__grow_directory_by_dirblk`: the directory, and the slice offset of the new block. -/
def growDirectoryByDirblk (dirnode : Node) : FsM (Node × Nat) := do
  let fs ← get
  let sb := fs.img.sb
  let old_size := dirnode.inode.size
  check (old_size % DIRBLKSIZ = 0) .EINVAL
  let dirnode ← fileResize dirnode (old_size + DIRBLKSIZ)
  let frag ← resolveInodeDataBlock dirnode.inode (old_size / sb.blockSize)
  check (frag ≠ 0) Errno.EIO
  return (dirnode, fs.fragOffset frag + old_size % sb.blockSize)

/-! ## Inserting -/

/-- A record written by `nextufs__insert_dirent`, the chunk to write back. -/
def placeDirent (buf : ByteStore) (off ino reclen : Nat) (name : List UInt8) :
    Except Errno (Option ByteStore) :=
  match writeDirentRaw buf off ino reclen name with
  | .error _ => .error .EINVAL
  | .ok buf => .ok (some buf)

/-- The records of a chunk, from `off` on, until one has room. -/
def insertInChunk (name : List UInt8) (new_inode need : Nat) (block : ByteStore)
    (chunk_size : Nat) : Nat → Nat → Except Errno (Option ByteStore)
  | 0, _ => .ok none
  | fuel + 1, off =>
    if off ≥ chunk_size then .ok none else
    match readDirent block chunk_size off with
    | none => .error Errno.EIO
    | some ent =>
      let used := if ent.ino = 0 then 0 else direntSize ent.namlen
      let slack := ent.reclen - used
      if ent.ino = 0 ∧ ent.reclen ≥ need then placeDirent block off new_inode ent.reclen name
      else if ent.ino ≠ 0 ∧ slack ≥ need then
        placeDirent (setBe16 block (off + 4) used) (off + used) new_inode slack name
      else insertInChunk name new_inode need block chunk_size fuel (off + ent.reclen)

/-- The block of a directory's chunk; a hole is an error. -/
def chunkFrag (dirnode : Node) (block_index : Nat) (e : Errno) : FsM Nat := do
  let frag ← failAs e (resolveInodeDataBlock dirnode.inode block_index)
  check (frag ≠ 0) e
  return frag

/-- A changed chunk is written back and the directory's times are updated. -/
def writeChunk (dirnode : Node) (block : ByteStore) (chunk_size frag : Nat) : FsM Node := do
  let fs ← get
  failAs Errno.EIO (writeSlice block chunk_size (fs.fragOffset frag))
  updateNodeTimes dirnode

/-- The loop of `nextufs__insert_dirent` over the chunks: the directory, if the record found room
in one of them. -/
def insertInChunks (dirnode : Node) (name : List UInt8) (new_inode need : Nat) :
    Nat → Nat → Nat → FsM (Option Node)
  | 0, _, _ => return none
  | fuel + 1, remaining, block_index =>
    if remaining = 0 then return none else do
    let fs ← get
    let bs := fs.img.sb.blockSize
    let chunk_size := min remaining bs
    let block ← readChunk dirnode.inode (block_index * bs) chunk_size
    match insertInChunk name new_inode need block chunk_size chunk_size 0 with
    | .error e => throw e
    | .ok none =>
      insertInChunks dirnode name new_inode need fuel (remaining - chunk_size) (block_index + 1)
    | .ok (some block) => do
      let frag ← chunkFrag dirnode block_index Errno.EIO
      let dirnode ← writeChunk dirnode block chunk_size frag
      return some dirnode

/-- The end of `nextufs__insert_dirent`: the record goes into a new block of its own. -/
def insertInNewBlock (dirnode : Node) (name : List UInt8) (new_inode need : Nat) : FsM Node := do
  check (need ≤ DIRBLKSIZ) .ENOSPC
  let (dirnode, new_block_off) ← failAs .ENOSPC (growDirectoryByDirblk dirnode)
  match writeDirentRaw (fun _ => 0) 0 new_inode DIRBLKSIZ name with
  | .error _ => throw .EINVAL
  | .ok new_dirblk => do
    failAs Errno.EIO (writeSlice new_dirblk DIRBLKSIZ new_block_off)
    return dirnode

/-- `nextufs__insert_dirent`. -/
def insertDirent (dirnode : Node) (name : List UInt8) (new_inode : Nat) : FsM Node := do
  let need := direntSize name.length
  let size := dirnode.inode.size
  match ← insertInChunks dirnode name new_inode need size size 0 with
  | some dirnode => return dirnode
  | none => insertInNewBlock dirnode name new_inode need

/-! ## Removing -/

/-- `.` and `..`. -/
def dot : List UInt8 := [0x2e]
def dotdot : List UInt8 := [0x2e, 0x2e]

/-- What becomes of the record found at `off`, the last used record before it at `prev_off`. -/
def dropDirent (view block : ByteStore) (base size off : Nat) (prev_off : Option Nat)
    (ent : Dirent) : Except Errno (Option (ByteStore × Nat)) :=
  match prev_off with
  | some prev =>
    match readDirent view size prev with
    | none => .error .EINVAL
    | some prev_ent =>
      .ok (some (setBe16 block (base + prev + 4) (prev_ent.reclen + ent.reclen), ent.ino))
  | none => .ok (some (setBe32 block (base + off) 0, ent.ino))

/-- The records of the directory block at `base` of a chunk, from `off` on. -/
def removeInDirblk (name : List UInt8) (block : ByteStore) (base size : Nat) :
    Nat → Nat → Option Nat → Except Errno (Option (ByteStore × Nat))
  | 0, _, _ => .ok none
  | fuel + 1, off, prev_off =>
    let view : ByteStore := fun i => block (base + i)
    if off ≥ size then .ok none else
    match readDirent view size off with
    | none => .error Errno.EIO
    | some ent =>
      if ent.ino ≠ 0 ∧ ent.namlen = name.length ∧ ent.name = name then
        if name = dot ∨ name = dotdot then .error .EINVAL
        else dropDirent view block base size off prev_off ent
      else removeInDirblk name block base size fuel (off + ent.reclen)
        (if ent.ino ≠ 0 then some off else prev_off)

/-- The directory blocks of a chunk, from `base` on. -/
def removeInChunk (name : List UInt8) (block : ByteStore) (chunk_size : Nat) :
    Nat → Nat → Except Errno (Option (ByteStore × Nat))
  | 0, _ => .ok none
  | fuel + 1, base =>
    if base ≥ chunk_size then .ok none else
    let size := min (chunk_size - base) DIRBLKSIZ
    match removeInDirblk name block base size size 0 none with
    | .ok none => removeInChunk name block chunk_size fuel (base + DIRBLKSIZ)
    | found => found

/-- The loop of `nextufs__remove_dirent` over the chunks. -/
def removeInChunks (dirnode : Node) (name : List UInt8) : Nat → Nat → Nat → FsM (Node × Nat)
  | 0, _, _ => throw .ENOENT
  | fuel + 1, remaining, block_index =>
    if remaining = 0 then throw .ENOENT else do
    let fs ← get
    let bs := fs.img.sb.blockSize
    let chunk_size := min remaining bs
    let block ← readChunk dirnode.inode (block_index * bs) chunk_size
    let frag ← chunkFrag dirnode block_index .EINVAL
    match removeInChunk name block chunk_size chunk_size 0 with
    | .error e => throw e
    | .ok none => removeInChunks dirnode name fuel (remaining - chunk_size) (block_index + 1)
    | .ok (some (block, removed)) => do
      let dirnode ← writeChunk dirnode block chunk_size frag
      return (dirnode, removed)

/-- `nextufs__remove_dirent`: the directory, and the inode number removed. -/
def removeDirent (dirnode : Node) (name : List UInt8) : FsM (Node × Nat) :=
  removeInChunks dirnode name dirnode.inode.size dirnode.inode.size 0

/-! ## Emptiness -/

/-- The records of a chunk in `nextufs__directory_is_empty`, from `off` on: whether `.` and `..` have
been seen; none when there is another name or one of these leads elsewhere. -/
def emptyRecords (self parent : Nat) (block : ByteStore) (chunk_size : Nat) :
    Nat → Nat → Bool × Bool → Except Errno (Option (Bool × Bool))
  | 0, _, seen => .ok (some seen)
  | fuel + 1, off, seen =>
    if off ≥ chunk_size then .ok (some seen) else
    match readDirent block chunk_size off with
    | none => .error Errno.EIO
    | some ent =>
      if ent.ino = 0 then emptyRecords self parent block chunk_size fuel (off + ent.reclen) seen
      else if ent.name = dot then
        if ent.ino ≠ self then .ok none
        else emptyRecords self parent block chunk_size fuel (off + ent.reclen) (true, seen.2)
      else if ent.name = dotdot then
        if ent.ino ≠ parent then .ok none
        else emptyRecords self parent block chunk_size fuel (off + ent.reclen) (seen.1, true)
      else .ok none

/-- The loop of `nextufs__directory_is_empty` over the chunks. -/
def emptyChunks (dirnode : Node) (parent_ino : Nat) :
    Nat → Nat → Nat → Bool × Bool → FsM Bool
  | 0, _, _, seen => return seen.1 && seen.2
  | fuel + 1, remaining, block_index, seen =>
    if remaining = 0 then return seen.1 && seen.2 else do
    let fs ← get
    let bs := fs.img.sb.blockSize
    let chunk_size := min remaining bs
    let block ← readChunk dirnode.inode (block_index * bs) chunk_size
    match emptyRecords dirnode.inodeNo parent_ino block chunk_size chunk_size 0 seen with
    | .error e => throw e
    | .ok none => return false
    | .ok (some seen) =>
      emptyChunks dirnode parent_ino fuel (remaining - chunk_size) (block_index + 1) seen

/-- `nextufs__directory_is_empty`. It has no error to return: what it cannot read is not empty. -/
def directoryIsEmpty (dirnode : Node) (parent_ino : Nat) : FsM Bool :=
  if ¬ dirnode.inode.isDir then return false else fun fs =>
  match emptyChunks dirnode parent_ino dirnode.inode.size dirnode.inode.size 0 (false, false) fs with
  | .ok empty fs => .ok empty fs
  | .error _ fs => .ok false fs

end NextUfs.Mutate
