/-
NextUfs.Core.Directory — directory records and the directory reader:
`nextufs__read_dirent` of `src/core/layout.c`, `src/core/directory.c`, and the
inode reads they go with.

A buffer and its size are two arguments, as in C. `readDirent` returns the view
with the name's bytes in it instead of a pointer; an unused record may retain
stale name fields, nobody reads its name, and the view has none.
-/
import NextUfs.Core.BlockMap

namespace NextUfs.Core

open NextUfs.Lib NextUfs.Lib.ByteStore NextUfs.Lib.StateResult

/-! ## Records -/

/-- `struct nextufs_dirent_view`. -/
structure Dirent where
  ino : Nat
  reclen : Nat
  namlen : Nat
  name : List UInt8
  deriving DecidableEq, Repr

/-- `nextufs__dirent_size`. -/
def direntSize (name_len : Nat) : Nat := 8 + (name_len + 4) / 4 * 4

/-- The test of a record in use by `nextufs__read_dirent`. -/
def NameRejected (buf : ByteStore) (off reclen namlen : Nat) : Prop :=
  namlen = 0 ∨ namlen > 255 ∨ direntSize namlen > reclen ∨
    (0 : UInt8) ∈ slice buf (off + 8) namlen ∨ (0x2f : UInt8) ∈ slice buf (off + 8) namlen ∨
    buf (off + 8 + namlen) ≠ 0

instance (buf : ByteStore) (off reclen namlen : Nat) :
    Decidable (NameRejected buf off reclen namlen) := by
  unfold NameRejected
  infer_instance

/-- `nextufs__read_dirent`. -/
def readDirent (buf : ByteStore) (size off : Nat) : Option Dirent :=
  if off > size ∨ size - off < 8 then none else
  let ino := be32 buf off
  let reclen := be16 buf (off + 4)
  let namlen := be16 buf (off + 6)
  if reclen < 8 ∨ reclen % 4 ≠ 0 ∨ reclen > size - off ∨ reclen > DIRBLKSIZ - off % DIRBLKSIZ then
    none
  else if ino = 0 then some ⟨0, reclen, namlen, []⟩
  else if NameRejected buf off reclen namlen then none
  else some ⟨ino, reclen, namlen, slice buf (off + 8) namlen⟩

/-! ## Reading a directory -/

section
variable {α : Type} (cb : Nat → List UInt8 → α → α × Bool)

/-- The records of a chunk from `off` on. The callback is handed the inode number and the name,
and says whether to stop. Every turn advances, so `size` turns are enough. -/
def iterateRecords (buf : ByteStore) (size : Nat) : Nat → Nat → α → Option (α × Bool)
  | 0, _, a => some (a, false)
  | fuel + 1, off, a =>
    if off ≥ size then some (a, false) else
    match readDirent buf size off with
    | none => none
    | some ent =>
      if ent.ino ≠ 0 ∧ ent.namlen ≠ 0 then
        if (cb ent.ino ent.name a).2 then some ((cb ent.ino ent.name a).1, true)
        else iterateRecords buf size fuel (off + ent.reclen) (cb ent.ino ent.name a).1
      else iterateRecords buf size fuel (off + ent.reclen) a

/-- A chunk of a directory, as the directory code reads it. -/
def readChunk (dirino : Inode) (start size : Nat) : FsM ByteStore := do
  let raw ← failAs Errno.EIO (inodeReadData dirino start size)
  return ofList raw

/-- The loop over the chunks, `remaining` bytes to go. -/
def iterateChunks (dirino : Inode) : Nat → Nat → Nat → α → FsM (α × Bool)
  | 0, _, _, a => return (a, false)
  | fuel + 1, remaining, block_index, a =>
    if remaining = 0 then return (a, false) else do
    let fs ← get
    let bs := fs.img.sb.blockSize
    let chunk_size := min remaining bs
    let buf ← readChunk dirino (block_index * bs) chunk_size
    match iterateRecords cb buf chunk_size chunk_size 0 a with
    | none => throw Errno.EIO
    | some (a, true) => return (a, true)
    | some (a, false) => iterateChunks dirino fuel (remaining - chunk_size) (block_index + 1) a

/-- `nextufs_directory_iterate`. -/
def directoryIterate (dirino : Inode) (a : α) : FsM (α × Bool) :=
  iterateChunks cb dirino dirino.size dirino.size 0 a

end

/-- All the entries of a directory, in order: the iteration with a callback that notes them. -/
def directoryEntries (dirino : Inode) : FsM (List (List UInt8 × Nat)) := do
  let (entries, _) ← directoryIterate (fun ino name a => (a ++ [(name, ino)], false)) dirino []
  return entries

/-! ## Inodes -/

/-- `nextufs_inode_read`. -/
def inodeRead (inode_no : Nat) : FsM Inode := do
  let fs ← get
  check (imageValidate fs.img = true ∧ inode_no < fs.img.sb.cgCount * fs.img.sb.inodesPerGroup)
    .EINVAL
  check ((fs.inode inode_no).size ≤ INT32_MAX) .EFBIG
  return fs.inode inode_no

/-- `nextufs_node_get_by_inode`. -/
def nodeGetByInode (inode_no : Nat) : FsM Node := do
  let inode ← inodeRead inode_no
  return ⟨inode_no, inode⟩

end NextUfs.Core
