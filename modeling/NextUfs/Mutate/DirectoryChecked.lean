/-
NextUfs.Mutate.DirectoryChecked — the directory loops over bounded buffers.

The functions of `Core.Directory` and `Mutate.Directory` again, with every
access to a buffer, every subtraction and the end of every loop checked: a
chunk is a buffer of the bytes that were loaded, and `flag` marks the places
where a record is refused. What differs from there is only this.
-/
import NextUfs.Mutate.Directory
import NextUfs.Lib.Checked

namespace NextUfs.Mutate.Checked

open NextUfs.Core NextUfs.Lib NextUfs.Lib.ByteStore NextUfs.Lib.StateResult NextUfs.Lib.Checked

/-- A checked call on the filesystem. -/
abbrev DirM := CheckedM Errno Fs

/-! ## Records -/

/-- The test of a record in use by `nextufs__read_dirent`, the name being at `p`. -/
def nameRejected (buf : Buffer) (p reclen namlen : Nat) : Except Fault Bool :=
  if namlen = 0 ∨ namlen > 255 ∨ direntSize namlen > reclen then return true else do
  let name ← buf.load p namlen
  if (0 : UInt8) ∈ name ∨ (0x2f : UInt8) ∈ name then return true else do
  let last ← buf.load (p + namlen) 1
  return last != [0]

/-- `nextufs__read_dirent` on the `size` bytes at `base`. -/
def readDirent (buf : Buffer) (base size off : Nat) : Except Fault (Option Dirent) :=
  if off > size ∨ size - off < 8 then return none else do
  let ino ← buf.load32 (base + off)
  let reclen ← buf.load16 (base + off + 4)
  let namlen ← buf.load16 (base + off + 6)
  if reclen < 8 ∨ reclen % 4 ≠ 0 ∨ reclen > size - off ∨ reclen > DIRBLKSIZ - off % DIRBLKSIZ then
    return none
  else if ino = 0 then return some ⟨0, reclen, namlen, []⟩
  else do
    let rejected ← nameRejected buf (base + off + 8) reclen namlen
    if rejected then return none else do
    let name ← buf.load (base + off + 8) namlen
    return some ⟨ino, reclen, namlen, name⟩

/-- A record, or the failure a caller makes of a bad one. -/
def readRecord (e : Errno) (buf : Buffer) (base size off : Nat) : DirM Dirent := do
  match ← guarded (readDirent buf base size off) with
  | some ent => return ent
  | none => flag e

/-- `nextufs__write_dirent_raw` at `p`. -/
def writeDirentRaw (buf : Buffer) (p ino reclen : Nat) (name : List UInt8) :
    Except Fault (Except Errno Buffer) :=
  if name.length > 255 then return .error .ENAMETOOLONG
  else if reclen > DIRBLKSIZ ∨ reclen % 4 ≠ 0 ∨ reclen < direntSize name.length ∨
      (0x2f : UInt8) ∈ name then return .error .EINVAL
  else do
    let buf ← buf.store p reclen fun _ => 0
    let buf ← buf.store32 p ino
    let buf ← buf.store16 (p + 4) reclen
    let buf ← buf.store16 (p + 6) name.length
    let buf ← buf.store (p + 8) name.length (ofList name)
    return .ok buf

/-- A chunk: a buffer of what was loaded. -/
def readChunk (dirino : Inode) (start size : Nat) : DirM Buffer := do
  let raw ← run (failAs Errno.EIO (inodeReadData dirino start size))
  return ⟨raw.length, ofList raw⟩

/-! ## Iterating -/

section
variable {α : Type} (cb : Nat → List UInt8 → α → α × Bool)

/-- The records of a chunk. -/
def iterateRecords (buf : Buffer) (size : Nat) : Nat → Nat → α → DirM (α × Bool)
  | 0, off, a => if off ≥ size then return (a, false) else throw (.fault .endless)
  | fuel + 1, off, a =>
    if off ≥ size then return (a, false) else do
    let ent ← readRecord Errno.EIO buf 0 size off
    if ent.ino ≠ 0 ∧ ent.namlen ≠ 0 then
      if (cb ent.ino ent.name a).2 then return ((cb ent.ino ent.name a).1, true)
      else iterateRecords buf size fuel (off + ent.reclen) (cb ent.ino ent.name a).1
    else iterateRecords buf size fuel (off + ent.reclen) a

/-- The chunks. -/
def iterateChunks (dirino : Inode) : Nat → Nat → Nat → α → DirM (α × Bool)
  | 0, remaining, _, a => if remaining = 0 then return (a, false) else throw (.fault .endless)
  | fuel + 1, remaining, block_index, a =>
    if remaining = 0 then return (a, false) else do
    let fs ← run get
    let bs := fs.img.sb.blockSize
    let chunk_size := min remaining bs
    let buf ← readChunk dirino (block_index * bs) chunk_size
    let (a, stop) ← iterateRecords cb buf chunk_size chunk_size 0 a
    if stop then return (a, true)
    else iterateChunks dirino fuel (remaining - chunk_size) (block_index + 1) a

/-- `nextufs_directory_iterate`. -/
def directoryIterate (dirino : Inode) (a : α) : DirM (α × Bool) :=
  iterateChunks cb dirino dirino.size dirino.size 0 a

end

/-! ## Inserting -/

/-- A record written by `nextufs__insert_dirent`, the chunk to write back. -/
def placeDirent (buf : Buffer) (p ino reclen : Nat) (name : List UInt8) : DirM (Option Buffer) := do
  match ← guarded (writeDirentRaw buf p ino reclen name) with
  | .error _ => throw (.fail .EINVAL)
  | .ok buf => return some buf

/-- The records of a chunk, until one has room. -/
def insertInChunk (name : List UInt8) (new_inode need : Nat) (block : Buffer) (chunk_size : Nat) :
    Nat → Nat → DirM (Option Buffer)
  | 0, off => if off ≥ chunk_size then return none else throw (.fault .endless)
  | fuel + 1, off =>
    if off ≥ chunk_size then return none else do
    let ent ← readRecord Errno.EIO block 0 chunk_size off
    let used := if ent.ino = 0 then 0 else direntSize ent.namlen
    if ent.ino = 0 ∧ ent.reclen ≥ need then placeDirent block off new_inode ent.reclen name
    else do
      let slack ← guarded (sub ent.reclen used)
      if ent.ino ≠ 0 ∧ slack ≥ need then do
        let block ← guarded (block.store16 (off + 4) used)
        placeDirent block (off + used) new_inode slack name
      else insertInChunk name new_inode need block chunk_size fuel (off + ent.reclen)

/-- A changed chunk is written back. -/
def writeChunk (dirnode : Node) (block : Buffer) (chunk_size frag : Nat) : DirM Node := do
  guarded (block.access 0 chunk_size)
  run (Mutate.writeChunk dirnode block.bytes chunk_size frag)

/-- The loop of `nextufs__insert_dirent` over the chunks. -/
def insertInChunks (dirnode : Node) (name : List UInt8) (new_inode need : Nat) :
    Nat → Nat → Nat → DirM (Option Node)
  | 0, remaining, _ => if remaining = 0 then return none else throw (.fault .endless)
  | fuel + 1, remaining, block_index =>
    if remaining = 0 then return none else do
    let fs ← run get
    let bs := fs.img.sb.blockSize
    let chunk_size := min remaining bs
    let block ← readChunk dirnode.inode (block_index * bs) chunk_size
    match ← insertInChunk name new_inode need block chunk_size chunk_size 0 with
    | none =>
      insertInChunks dirnode name new_inode need fuel (remaining - chunk_size) (block_index + 1)
    | some block => do
      let frag ← run (chunkFrag dirnode block_index Errno.EIO)
      let dirnode ← writeChunk dirnode block chunk_size frag
      return some dirnode

/-- The end of `nextufs__insert_dirent`. -/
def insertInNewBlock (dirnode : Node) (name : List UInt8) (new_inode need : Nat) : DirM Node := do
  run (check (need ≤ DIRBLKSIZ) .ENOSPC)
  let (dirnode, new_block_off) ← run (failAs .ENOSPC (growDirectoryByDirblk dirnode))
  match ← guarded (writeDirentRaw ⟨DIRBLKSIZ, fun _ => 0⟩ 0 new_inode DIRBLKSIZ name) with
  | .error _ => throw (.fail .EINVAL)
  | .ok new_dirblk => do
    guarded (new_dirblk.access 0 DIRBLKSIZ)
    run (failAs Errno.EIO (writeSlice new_dirblk.bytes DIRBLKSIZ new_block_off))
    return dirnode

/-- `nextufs__insert_dirent`. -/
def insertDirent (dirnode : Node) (name : List UInt8) (new_inode : Nat) : DirM Node := do
  let need := direntSize name.length
  let size := dirnode.inode.size
  match ← insertInChunks dirnode name new_inode need size size 0 with
  | some dirnode => return dirnode
  | none => insertInNewBlock dirnode name new_inode need

/-! ## Removing -/

/-- What becomes of the record found at `off`. -/
def dropDirent (block : Buffer) (base size off : Nat) (prev_off : Option Nat) (ent : Dirent) :
    DirM (Buffer × Nat) :=
  match prev_off with
  | some prev => do
    let prev_ent ← readRecord .EINVAL block base size prev
    let block ← guarded (block.store16 (base + prev + 4) (prev_ent.reclen + ent.reclen))
    return (block, ent.ino)
  | none => do
    let block ← guarded (block.store32 (base + off) 0)
    return (block, ent.ino)

/-- The records of the directory block at `base` of a chunk. -/
def removeInDirblk (name : List UInt8) (block : Buffer) (base size : Nat) :
    Nat → Nat → Option Nat → DirM (Option (Buffer × Nat))
  | 0, off, _ => if off ≥ size then return none else throw (.fault .endless)
  | fuel + 1, off, prev_off =>
    if off ≥ size then return none else do
    let ent ← readRecord Errno.EIO block base size off
    if ent.ino ≠ 0 ∧ ent.namlen = name.length ∧ ent.name = name then
      if name = dot ∨ name = dotdot then throw (.fail .EINVAL)
      else do
        let r ← dropDirent block base size off prev_off ent
        return some r
    else do
      let prev_off := if ent.ino ≠ 0 then some off else prev_off
      removeInDirblk name block base size fuel (off + ent.reclen) prev_off

/-- The directory blocks of a chunk. -/
def removeInChunk (name : List UInt8) (block : Buffer) (chunk_size : Nat) :
    Nat → Nat → DirM (Option (Buffer × Nat))
  | 0, base => if base ≥ chunk_size then return none else throw (.fault .endless)
  | fuel + 1, base =>
    if base ≥ chunk_size then return none else do
    let size := min (chunk_size - base) DIRBLKSIZ
    match ← removeInDirblk name block base size size 0 none with
    | none => removeInChunk name block chunk_size fuel (base + DIRBLKSIZ)
    | some r => return some r

/-- The loop of `nextufs__remove_dirent` over the chunks. -/
def removeInChunks (dirnode : Node) (name : List UInt8) : Nat → Nat → Nat → DirM (Node × Nat)
  | 0, remaining, _ => if remaining = 0 then throw (.fail .ENOENT) else throw (.fault .endless)
  | fuel + 1, remaining, block_index =>
    if remaining = 0 then throw (.fail .ENOENT) else do
    let fs ← run get
    let bs := fs.img.sb.blockSize
    let chunk_size := min remaining bs
    let block ← readChunk dirnode.inode (block_index * bs) chunk_size
    let frag ← run (chunkFrag dirnode block_index .EINVAL)
    match ← removeInChunk name block chunk_size chunk_size 0 with
    | none => removeInChunks dirnode name fuel (remaining - chunk_size) (block_index + 1)
    | some (block, removed) => do
      let dirnode ← writeChunk dirnode block chunk_size frag
      return (dirnode, removed)

/-- `nextufs__remove_dirent`. -/
def removeDirent (dirnode : Node) (name : List UInt8) : DirM (Node × Nat) :=
  removeInChunks dirnode name dirnode.inode.size dirnode.inode.size 0

/-! ## Emptiness -/

/-- The records of a chunk in `nextufs__directory_is_empty`. -/
def emptyRecords (self parent : Nat) (block : Buffer) (chunk_size : Nat) :
    Nat → Nat → Bool × Bool → DirM (Option (Bool × Bool))
  | 0, off, seen => if off ≥ chunk_size then return some seen else throw (.fault .endless)
  | fuel + 1, off, seen =>
    if off ≥ chunk_size then return some seen else do
    let ent ← readRecord Errno.EIO block 0 chunk_size off
    if ent.ino = 0 then emptyRecords self parent block chunk_size fuel (off + ent.reclen) seen
    else if ent.name = dot then
      if ent.ino ≠ self then return none
      else emptyRecords self parent block chunk_size fuel (off + ent.reclen) (true, seen.2)
    else if ent.name = dotdot then
      if ent.ino ≠ parent then return none
      else emptyRecords self parent block chunk_size fuel (off + ent.reclen) (seen.1, true)
    else return none

/-- The loop of `nextufs__directory_is_empty` over the chunks. -/
def emptyChunks (dirnode : Node) (parent_ino : Nat) :
    Nat → Nat → Nat → Bool × Bool → DirM Bool
  | 0, remaining, _, seen =>
    if remaining = 0 then return seen.1 && seen.2 else throw (.fault .endless)
  | fuel + 1, remaining, block_index, seen =>
    if remaining = 0 then return seen.1 && seen.2 else do
    let fs ← run get
    let bs := fs.img.sb.blockSize
    let chunk_size := min remaining bs
    let block ← readChunk dirnode.inode (block_index * bs) chunk_size
    match ← emptyRecords dirnode.inodeNo parent_ino block chunk_size chunk_size 0 seen with
    | none => return false
    | some seen =>
      emptyChunks dirnode parent_ino fuel (remaining - chunk_size) (block_index + 1) seen

/-- `nextufs__directory_is_empty`. A fault is not caught. -/
def directoryIsEmpty (dirnode : Node) (parent_ino : Nat) : DirM Bool :=
  if ¬ dirnode.inode.isDir then return false else fun w =>
  match emptyChunks dirnode parent_ino dirnode.inode.size dirnode.inode.size 0 (false, false) w with
  | .error (.fail _) w => .ok false w
  | r => r

end NextUfs.Mutate.Checked
