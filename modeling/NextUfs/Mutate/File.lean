/-
NextUfs.Mutate.File — resizing and writing a file: `src/mutate/file_mutate.c`.

A function that updates the caller's `struct nextufs_node` in place returns
the node here. Sizes and offsets are naturals; the 64-bit wrap the C code tests
for is tested for here as well, and the block count of an inode keeps its 32
bits.
-/
import NextUfs.Core.BlockMap

namespace NextUfs.Mutate

open NextUfs.Core NextUfs.Lib NextUfs.Lib.ByteStore NextUfs.Lib.StateResult

/-- `file_frags`. -/
def fileFrags (sb : Superblock) (size block : Nat) : Nat :=
  let base := block * sb.blockSize
  if base ≥ size then 0 else
  let bytes := size - base
  if block ≥ 12 ∨ bytes ≥ sb.blockSize then sb.fragsPerBlock
  else (bytes + sb.fragSize - 1) / sb.fragSize

/-- `size_valid`. -/
def sizeValid (size : Nat) : FsM PUnit := check (size ≤ INT32_MAX) .EFBIG

/-- A run made longer in place, or a new run where there was none or no room. -/
def extendOrAllocate (old before after cg : Nat) : FsM Nat := fun fs =>
  if old = 0 then allocateFragsAnycg cg after fs else
  match extendFragmentRun old before after fs with
  | .ok _ fs => .ok old fs
  | .error .ENOSPC fs => allocateFragsAnycg cg after fs
  | .error e fs => .error e fs

/-- The step of `grow_block` that sets `allocated`. -/
def findRoom (old before after cg : Nat) : FsM Nat :=
  if after > before then extendOrAllocate old before after cg else pure old

/-- The step of `grow_block` that frees a run it moved. -/
def freeMoved (old before allocated : Nat) : FsM PUnit :=
  if old ≠ 0 ∧ allocated ≠ old then freeFragmentRun old before else pure ⟨⟩

/-- `grow_block`. -/
def growBlock (node : Node) (logical old_size new_size : Nat) : FsM Node := do
  let fs ← get
  let sb := fs.img.sb
  let after := fileFrags sb new_size logical
  let cg := node.inodeNo / sb.inodesPerGroup
  let old ← resolveInodeDataBlock node.inode logical
  let before := if old = 0 then 0 else fileFrags sb old_size logical
  let keep := if old = 0 then 0 else min (old_size - logical * sb.blockSize) (before * sb.fragSize)
  let raw ← readSlice keep (fs.fragOffset old)
  let allocated ← findRoom old before after cg
  writeSlice (fun i => if i < keep then raw i else 0) (after * sb.fragSize)
    (fs.fragOffset allocated)
  let (inode, metadata) ← setInodeDataBlock node.inode logical allocated cg
  freeMoved old before allocated
  let added := UInt32.ofNat after - UInt32.ofNat before + UInt32.ofNat metadata
  let blocks := inode.blocks + added * UInt32.ofNat sb.sectorsPerFrag
  return { node with inode := { inode with blocks := blocks } }

/-! ## Pruning -/

/-- The loop over an indirect block's entries in `prune_tree`, `n` to go from entry `i`: the
buffer, the fragments released and whether an entry is left. `visit` is what becomes of an entry. -/
def pruneEntries (visit : Nat → Nat → FsM (Nat × Nat)) :
    Nat → Nat → ByteStore → FsM (ByteStore × Nat × Bool)
  | 0, _, buf => return (buf, 0, false)
  | n + 1, i, buf =>
    let child := be32 buf (i * 4)
    if child = 0 then pruneEntries visit n (i + 1) buf
    else do
      let (child, released) ← visit i child
      let (buf, rest, any) ← pruneEntries visit n (i + 1) (setBe32 buf (i * 4) child)
      return (buf, released + rest, any || child ≠ 0)

/-- The body of `prune_tree`: the root that is left, and the fragments released. -/
def pruneBlock (visit : Nat → Nat → FsM (Nat × Nat)) (root : Nat) : FsM (Nat × Nat) :=
  if root = 0 then return (0, 0) else do
  let fs ← get
  let sb := fs.img.sb
  let raw ← readSlice sb.blockSize (fs.fragOffset root)
  let (buf, released, any) ← pruneEntries visit sb.entriesPerBlock 0 raw
  if any then do
    writeSlice buf sb.blockSize (fs.fragOffset root)
    return (root, released)
  else do
    freeFragmentRun root sb.fragsPerBlock
    return (0, released + sb.fragsPerBlock)

/-- `prune_tree` at level `below + 1`. -/
def pruneTree (keep : Nat) : (below root base : Nat) → FsM (Nat × Nat)
  | 0, root, base => pruneBlock (fun i child => do
      let fs ← get
      if base + i ≥ keep then do
        freeFragmentRun child fs.img.sb.fragsPerBlock
        return (0, fs.img.sb.fragsPerBlock)
      else return (child, 0)) root
  | below + 1, root, base => pruneBlock (fun i child => do
      let fs ← get
      pruneTree keep below child (base + i * fs.img.sb.entriesPerBlock ^ (below + 1))) root

/-! ## Resizing -/

/-- `finish_inode`. -/
def finishInode (node : Node) : FsM Node := do
  let fs ← get
  let inode := if fs.img.unprivileged ∧ node.inode.isReg then
    { node.inode with mode := node.inode.mode &&& ~~~(0o4000 ||| 0o2000) } else node.inode
  writeInodeRaw node.inodeNo inode
  return { node with inode := inode }

/-- The old tail becomes a full block when it is no longer the last. -/
def growTail (node : Node) (last size : Nat) : FsM Node := do
  let fs ← get
  let bs := fs.img.sb.blockSize
  let old_size := node.inode.size
  if old_size % bs ≠ 0 ∧ old_size / bs ≠ last then do
    let frag ← resolveInodeDataBlock node.inode (old_size / bs)
    if frag ≠ 0 then growBlock node (old_size / bs) old_size size else return node
  else return node

/-- The growing half of `nextufs__file_resize`. -/
def growFile (node : Node) (size : Nat) : FsM Node := do
  let fs ← get
  let old_size := node.inode.size
  let last := (size - 1) / fs.img.sb.blockSize
  let node ← growTail node last size
  growBlock node last old_size size

/-- The direct blocks `0 .. n - 1` of a shrinking file; also the fragments released. -/
def shrinkDirect (old_size size : Nat) : Nat → Inode → FsM (Inode × Nat)
  | 0, ino => return (ino, 0)
  | i + 1, ino => do
    let (ino, released) ← shrinkDirect old_size size i ino
    let fs ← get
    let before := fileFrags fs.img.sb old_size i
    let after := fileFrags fs.img.sb size i
    if ino.db i ≠ 0 ∧ before > after then do
      freeFragmentRun (ino.db i + after) (before - after)
      let ino := if after = 0 then { ino with db := Function.update ino.db i 0 } else ino
      return (ino, released + (before - after))
    else return (ino, released)

/-- The trees of slots `0 .. n - 1` of a shrinking file; also the fragments released. -/
def shrinkSlots (keep : Nat) : Nat → Inode → FsM (Inode × Nat)
  | 0, ino => return (ino, 0)
  | s + 1, ino => do
    let (ino, released) ← shrinkSlots keep s ino
    let fs ← get
    let (root, r) ← pruneTree keep s (ino.ib s) (fs.img.sb.slotBase s)
    return ({ ino with ib := Function.update ino.ib s root }, released + r)

/-- The bytes of the new last block behind its end are zeroed. -/
def zeroTail (ino : Inode) (size : Nat) : FsM PUnit := do
  let fs ← get
  let sb := fs.img.sb
  if size % sb.blockSize ≠ 0 then do
    let logical := size / sb.blockSize
    let within := size % sb.blockSize
    let frag ← resolveInodeDataBlock ino logical
    if frag ≠ 0 then
      writeSlice (fun _ => 0) (fileFrags sb size logical * sb.fragSize - within)
        (fs.fragOffset frag + within)
    else return ⟨⟩
  else return ⟨⟩

/-- The shrinking half of `nextufs__file_resize`. -/
def shrinkFile (node : Node) (size : Nat) : FsM Node := do
  let fs ← get
  let sb := fs.img.sb
  let keep := (size + sb.blockSize - 1) / sb.blockSize
  let (inode, direct) ← shrinkDirect node.inode.size size 12 node.inode
  let (inode, indirect) ← shrinkSlots keep 3 inode
  let released := direct + indirect
  check (released * sb.sectorsPerFrag ≤ inode.blocks.toNat) .EINVAL
  let blocks := inode.blocks - UInt32.ofNat released * UInt32.ofNat sb.sectorsPerFrag
  let inode := { inode with blocks := blocks }
  zeroTail inode size
  return { node with inode := inode }

/-- What `nextufs__file_resize` does before it finishes the inode. -/
def changeSize (node : Node) (size : Nat) : FsM Node :=
  if size > node.inode.size then growFile node size else shrinkFile node size

/-- `nextufs__file_resize`. -/
def fileResize (node : Node) (size : Nat) : FsM Node := do
  sizeValid size
  if size = node.inode.size then return node else do
    let node ← changeSize node size
    finishInode { node with inode := { node.inode with size := size } }

/-! ## Writing -/

/-- The block a write goes to, filled in if it was a hole. -/
def blockForWrite (node : Node) (logical : Nat) : FsM (Node × Nat) := do
  let fs ← get
  let frag ← resolveInodeDataBlock node.inode logical
  if frag = 0 then do
    let node ← growBlock node logical (logical * fs.img.sb.blockSize) node.inode.size
    let frag ← resolveInodeDataBlock node.inode logical
    return (node, frag)
  else return (node, frag)

/-- The loop of `nextufs__file_write`. Every turn writes a byte at least, so as many turns as
there are bytes are enough. -/
def writeChunks : Nat → Node → List UInt8 → Nat → FsM Node
  | 0, node, _, _ => return node
  | fuel + 1, node, data, offset =>
    if data = [] then return node else do
    let fs ← get
    let bs := fs.img.sb.blockSize
    let within := offset % bs
    let bytes := min (bs - within) data.length
    let (node, frag) ← blockForWrite node (offset / bs)
    writeSlice (ofList data) bytes (fs.fragOffset frag + within)
    writeChunks fuel node (data.drop bytes) (offset + bytes)

/-- The file is made long enough for a write. -/
def growForWrite (node : Node) (endpos : Nat) : FsM Node :=
  if endpos > node.inode.size then fileResize node endpos else return node

/-- `nextufs__file_write`. -/
def fileWrite (node : Node) (data : List UInt8) (offset : Nat) : FsM Node :=
  if data = [] then return node else do
  check (offset ≤ 18446744073709551615 - data.length) .EFBIG
  sizeValid (offset + data.length)
  let node ← growForWrite node (offset + data.length)
  let node ← writeChunks data.length node data offset
  finishInode node

end NextUfs.Mutate
