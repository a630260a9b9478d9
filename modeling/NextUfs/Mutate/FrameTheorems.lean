/-
NextUfs.Mutate.FrameTheorems — what the calls of the data path leave alone.

A call that only reads leaves the filesystem as it was. A call that writes is
put together from five primitives, so whatever these leave alone (`Inert`) is
left alone by every one of them; each proof below follows the text of its
function. The words of a group that count inodes are an example
(`inert_inodeWords`).
-/
import NextUfs.Mutate.Operations
import NextUfs.Core.AllocRunTheorems

namespace NextUfs.Mutate

open NextUfs.Core NextUfs.Lib NextUfs.Lib.ByteStore NextUfs.Lib.StateResult

/-! ## Reading -/

section Reading
variable {γ : Type} {f : Fs → γ}

theorem steady_readSlice (size off : Nat) : Steady f (readSlice size off) :=
  steady_bind steady_get fun _ => steady_bind (steady_check _ _) fun _ => steady_pure _

theorem steady_readIndirectEntry (block_frag entry_index : Nat) :
    Steady f (readIndirectEntry block_frag entry_index) :=
  steady_bind steady_get fun _ => steady_bind (steady_check _ _) fun _ =>
    steady_bind (steady_readSlice _ _) fun _ => steady_pure _

theorem steady_resolveIndirectDataBlock : ∀ level block_frag logical_index : Nat,
    Steady f (resolveIndirectDataBlock level block_frag logical_index)
  | 0, _, _ => steady_throw _
  | level + 1, _, _ =>
    steady_ite (steady_pure _) <| steady_ite (steady_readIndirectEntry _ _) <|
      steady_bind steady_get fun _ => steady_bind (steady_readIndirectEntry _ _) fun _ =>
        steady_resolveIndirectDataBlock level _ _

theorem steady_resolveInodeDataBlock (ino : Inode) (logical_block : Nat) :
    Steady f (resolveInodeDataBlock ino logical_block) := by
  refine steady_bind steady_get fun fs => steady_ite (steady_pure _) ?_
  cases fs.img.sb.indirectSlot logical_block with
  | none => exact steady_throw _
  | some p => exact steady_resolveIndirectDataBlock _ _ _

theorem steady_readEntryChecked (block_frag entry_index : Nat) :
    Steady f (readEntryChecked block_frag entry_index) := by
  intro fs
  unfold readEntryChecked
  cases h : readIndirectEntry block_frag entry_index fs with
  | ok v fs' => exact (steady_readIndirectEntry _ _).ok h
  | error e fs' => exact (steady_readIndirectEntry _ _).error h

theorem steady_resolveIndirectBlockFrag : ∀ level block_frag logical_index : Nat,
    Steady f (resolveIndirectBlockFrag level block_frag logical_index)
  | 0, _, _ => steady_throw _
  | level + 1, _, _ =>
    steady_ite (steady_pure _) <| steady_bind steady_get fun _ =>
      steady_bind (steady_readEntryChecked _ _) fun _ => steady_ite (steady_pure _) <|
        steady_ite (steady_pure _) (steady_resolveIndirectBlockFrag level _ _)

theorem steady_resolveFileBlockFrag (ino : Inode) (logical_block_index : Nat) :
    Steady f (resolveFileBlockFrag ino logical_block_index) := by
  refine steady_bind steady_get fun fs => steady_ite (steady_pure _) ?_
  cases fs.img.sb.indirectSlot logical_block_index with
  | none => exact steady_throw _
  | some p => exact steady_resolveIndirectBlockFrag _ _ _

theorem steady_readChunks (ino : Inode) : ∀ fuel logical off n : Nat,
    Steady f (readChunks ino fuel logical off n)
  | 0, _, _, _ => steady_pure _
  | fuel + 1, _, _, _ =>
    steady_ite (steady_pure _) <| steady_bind steady_get fun _ =>
      steady_bind (steady_resolveFileBlockFrag _ _) fun _ => steady_ite
        (steady_bind (steady_readChunks ino fuel _ _ _) fun _ => steady_pure _)
        (steady_bind (steady_check _ _) fun _ => steady_bind (steady_readSlice _ _) fun _ =>
          steady_bind (steady_readChunks ino fuel _ _ _) fun _ => steady_pure _)

theorem steady_inodeReadData (ino : Inode) (start buf_size : Nat) :
    Steady f (inodeReadData ino start buf_size) :=
  steady_bind steady_get fun _ => steady_bind (steady_check _ _) fun _ =>
    steady_ite (steady_pure _) (steady_readChunks _ _ _ _ _)

theorem steady_readChunk (dirino : Inode) (start size : Nat) :
    Steady f (readChunk dirino start size) :=
  steady_bind (steady_failAs (steady_inodeReadData _ _ _)) fun _ => steady_pure _

theorem steady_inodeRead (inode_no : Nat) : Steady f (inodeRead inode_no) :=
  steady_bind steady_get fun _ => steady_bind (steady_check _ _) fun _ =>
    steady_bind (steady_check _ _) fun _ => steady_pure _

theorem steady_nodeGetByInode (inode_no : Nat) : Steady f (nodeGetByInode inode_no) :=
  steady_bind (steady_inodeRead _) fun _ => steady_pure _

theorem steady_ofStatus (st : Status) : Steady f (ofStatus st) := by
  cases st with
  | none => exact steady_pure _
  | some e => exact steady_throw _

theorem steady_iterateChunks {α : Type} (cb : Nat → List UInt8 → α → α × Bool) (dirino : Inode) :
    ∀ (fuel remaining block_index : Nat) (a : α),
      Steady f (iterateChunks cb dirino fuel remaining block_index a)
  | 0, _, _, _ => steady_pure _
  | fuel + 1, remaining, block_index, a => by
    refine steady_ite (steady_pure _) <| steady_bind steady_get fun fs =>
      steady_bind (steady_readChunk _ _ _) fun buf => ?_
    split
    · exact steady_throw _
    · exact steady_pure _
    · exact steady_iterateChunks cb dirino fuel _ _ _

theorem steady_findNameInDirectory (dirino : Inode) (name : List UInt8) :
    Steady f (findNameInDirectory dirino name) :=
  steady_bind (steady_iterateChunks _ _ _ _ _ _) fun _ => steady_pure _

theorem steady_inodeReadlink (ino : Inode) (out_size : Nat) :
    Steady f (inodeReadlink ino out_size) :=
  steady_bind (steady_check _ _) fun _ => steady_ite (steady_pure _)
    (steady_failAs (steady_inodeReadData _ _ _))

theorem steady_lookupSegments (ctx : Option WriteCtx) (follow : Bool) :
    ∀ (fuel : Nat) (pre : List UInt8) (node : Node) (cursor : Option (List UInt8)),
      Steady f (lookupSegments ctx follow fuel pre node cursor)
  | 0, _, _, _ => steady_pure _
  | _ + 1, _, _, none => steady_pure _
  | fuel + 1, pre, node, some s => by
    refine steady_ite (steady_lookupSegments ctx follow fuel _ _ _) <|
      steady_bind (steady_check _ _) fun _ => steady_bind (steady_ofStatus _) fun _ =>
      steady_bind (steady_failAs (steady_findNameInDirectory _ _)) fun _ =>
      steady_bind (steady_check _ _) fun _ =>
      steady_bind (steady_failAs (steady_inodeRead _)) fun _ =>
      steady_bind (steady_check _ _) fun _ => steady_ite
        (steady_bind (steady_failAs (steady_inodeReadlink _ _)) fun _ =>
          steady_bind (steady_check _ _) fun _ => steady_pure _) ?_
    cases appendPathComponent pre (strsep s).1 with
    | none => exact steady_throw _
    | some pre => exact steady_lookupSegments ctx follow fuel _ _ _

theorem steady_lookupPathRecursive (ctx : Option WriteCtx) (follow : Bool) :
    ∀ (left : Nat) (path : List UInt8), Steady f (lookupPathRecursive ctx follow left path)
  | 0, _ => steady_throw _
  | left + 1, path => by
    refine steady_bind (steady_failAs (steady_nodeGetByInode _)) fun root =>
      steady_ite (steady_pure _) <| steady_bind (steady_lookupSegments _ _ _ _ _ _) fun r => ?_
    cases r with
    | inl node => exact steady_pure _
    | inr new_path => exact steady_lookupPathRecursive ctx follow left new_path

theorem steady_nodeLookupAs (ctx : WriteCtx) (path : List UInt8) (follow : Bool) :
    Steady f (nodeLookupAs ctx path follow) :=
  steady_lookupPathRecursive _ _ _ _

theorem steady_mutableParent (ctx : WriteCtx) (must_be_dir : Bool) (parent_path : List UInt8) :
    Steady f (mutableParent ctx must_be_dir parent_path) :=
  steady_bind (steady_nodeLookupAs _ _ _) fun _ => steady_bind (steady_check _ _) fun _ =>
    steady_bind (steady_ofStatus _) fun _ => steady_pure _

theorem steady_requireAbsent (ctx : WriteCtx) (path : List UInt8) :
    Steady f (requireAbsent ctx path) := by
  refine steady_bind (steady_attempt (steady_nodeLookupAs _ _ _)) fun r => ?_
  split
  · exact steady_throw _
  · exact steady_pure _
  · exact steady_throw _

theorem steady_blockRecord (dirblk : ByteStore) (off : Nat) : Steady f (blockRecord dirblk off) := by
  unfold blockRecord
  split
  · exact steady_throw _
  · exact steady_pure _

theorem steady_readDirectoryParentInode (dirnode : Node) :
    Steady f (readDirectoryParentInode dirnode) :=
  steady_bind (steady_check _ _) fun _ => steady_bind (steady_readChunk _ _ _) fun _ =>
    steady_bind (steady_blockRecord _ _) fun _ => steady_bind (steady_check _ _) fun _ =>
    steady_bind (steady_blockRecord _ _) fun _ => steady_bind (steady_check _ _) fun _ =>
    steady_pure _

theorem steady_ancestorLoop (ancestor_inode : Nat) : ∀ (n : Nat) (cur : Node),
    Steady f (ancestorLoop ancestor_inode n cur)
  | 0, _ => steady_pure _
  | n + 1, cur => by
    refine steady_ite (steady_pure _) <| steady_ite (steady_pure _) <|
      steady_bind (steady_attempt (steady_readDirectoryParentInode _)) fun r => ?_
    cases r with
    | error e => exact steady_pure _
    | ok parent_inode =>
      refine steady_ite (steady_pure _) <|
        steady_bind (steady_attempt (steady_nodeGetByInode _)) fun r => ?_
      cases r with
      | error e => exact steady_pure _
      | ok cur => exact steady_ancestorLoop ancestor_inode n cur

theorem steady_directoryHasAncestor (dirnode : Node) (ancestor_inode : Nat) :
    Steady f (directoryHasAncestor dirnode ancestor_inode) :=
  steady_ancestorLoop _ _ _

theorem steady_emptyChunks (dirnode : Node) (parent_ino : Nat) :
    ∀ (fuel remaining block_index : Nat) (seen : Bool × Bool),
      Steady f (emptyChunks dirnode parent_ino fuel remaining block_index seen)
  | 0, _, _, _ => steady_pure _
  | fuel + 1, remaining, block_index, seen => by
    refine steady_ite (steady_pure _) <| steady_bind steady_get fun fs =>
      steady_bind (steady_readChunk _ _ _) fun buf => ?_
    split
    · exact steady_throw _
    · exact steady_pure _
    · exact steady_emptyChunks dirnode parent_ino fuel _ _ _

theorem steady_directoryIsEmpty (dirnode : Node) (parent_ino : Nat) :
    Steady f (directoryIsEmpty dirnode parent_ino) := by
  refine steady_ite (steady_pure _) fun fs => ?_
  split
  case h_1 empty fs' h => exact (steady_emptyChunks _ _ _ _ _ _).ok h
  case h_2 e fs' h => exact (steady_emptyChunks _ _ _ _ _ _).error h

end Reading

/-! ## Writing -/

/-- Something the primitives of the data path leave alone. -/
structure Inert {γ : Type} (f : Fs → γ) : Prop where
  bytes : ∀ (fs : Fs) (b : ByteStore), f { fs with bytes := b } = f fs
  inode : ∀ (fs : Fs) (t : Nat → Inode), f { fs with inode := t } = f fs
  allocate : ∀ c n, Steady f (allocateFragsInGroup c n)
  extend : ∀ p old new, Steady f (extendFragmentRun p old new)
  free : ∀ p n, Steady f (freeFragmentRun p n)

section Writing
variable {γ : Type} {f : Fs → γ} (hf : Inert f)
include hf

theorem steady_writeSlice (buf : ByteStore) (size off : Nat) :
    Steady f (writeSlice buf size off) :=
  steady_bind steady_get fun _ => steady_bind (steady_check _ _) fun _ =>
    steady_bind (steady_check _ _) fun _ => steady_modify fun _ => hf.bytes _ _

theorem steady_writeInodeRaw (inode_no : Nat) (ino : Inode) :
    Steady f (writeInodeRaw inode_no ino) :=
  steady_bind steady_get fun _ => steady_bind (steady_check _ _) fun _ =>
    steady_modify fun _ => hf.inode _ _

theorem steady_anycgLoop (preferred_cg n : Nat) : ∀ k i : Nat,
    Steady f (anycgLoop preferred_cg n k i)
  | 0, _ => steady_throw _
  | k + 1, i => by
    intro fs
    rw [anycgLoop]
    dsimp only
    split
    case h_1 fs' h =>
      exact (steady_anycgLoop preferred_cg n k (i + 1) fs').trans ((hf.allocate _ _).error h)
    case h_2 => exact hf.allocate _ _ fs

theorem steady_allocateFragsAnycg (preferred_cg n : Nat) :
    Steady f (allocateFragsAnycg preferred_cg n) := by
  refine steady_bind ?_ fun _ => steady_bind steady_get fun _ => steady_anycgLoop hf _ _ _ _
  exact steady_bind steady_get fun _ => steady_ite
    (steady_bind (steady_check _ _) fun _ => steady_check _ _) (steady_pure _)

theorem steady_allocateZeroedFullBlock (preferred_cg : Nat) :
    Steady f (allocateZeroedFullBlock preferred_cg) :=
  steady_bind steady_get fun _ => steady_bind
    (steady_bind steady_get fun _ => steady_allocateFragsAnycg hf _ _) fun _ =>
    steady_bind (steady_writeSlice hf _ _ _) fun _ => steady_pure _

theorem steady_writeIndirectEntry (block_frag entry_index entry_value : Nat) :
    Steady f (writeIndirectEntry block_frag entry_index entry_value) :=
  steady_bind steady_get fun _ => steady_bind (steady_check _ _) fun _ => steady_writeSlice hf _ _ _

theorem steady_setIndirectDataBlock (preferred_cg : Nat) : ∀ l p i d : Nat,
    Steady f (setIndirectDataBlock preferred_cg l p i d)
  | 0, _, _, _ => steady_throw _
  | l + 1, _, _, _ => steady_ite
      (steady_bind (steady_writeIndirectEntry hf _ _ _) fun _ => steady_pure _) <|
      steady_bind steady_get fun _ => steady_bind (steady_readIndirectEntry _ _) fun _ => steady_ite
        (steady_bind (steady_allocateZeroedFullBlock hf _) fun _ =>
          steady_bind (steady_writeIndirectEntry hf _ _ _) fun _ =>
          steady_bind (steady_setIndirectDataBlock preferred_cg l _ _ _) fun _ => steady_pure _)
        (steady_setIndirectDataBlock preferred_cg l _ _ _)

theorem steady_setInodeDataBlock (ino : Inode) (logical_block data_frag preferred_cg : Nat) :
    Steady f (setInodeDataBlock ino logical_block data_frag preferred_cg) := by
  refine steady_bind steady_get fun fs => steady_ite (steady_pure _) ?_
  cases fs.img.sb.indirectSlot logical_block with
  | none => exact steady_throw _
  | some p =>
    exact steady_ite
      (steady_bind (steady_allocateZeroedFullBlock hf _) fun _ =>
        steady_bind (steady_setIndirectDataBlock hf _ _ _ _ _) fun _ => steady_pure _)
      (steady_bind (steady_setIndirectDataBlock hf _ _ _ _ _) fun _ => steady_pure _)

theorem steady_extendOrAllocate (old before after cg : Nat) :
    Steady f (extendOrAllocate old before after cg) := by
  intro fs
  unfold extendOrAllocate
  split
  · exact steady_allocateFragsAnycg hf _ _ fs
  · split
    case h_1 h => exact (hf.extend _ _ _).ok h
    case h_2 fs' h => exact (steady_allocateFragsAnycg hf _ _ fs').trans ((hf.extend _ _ _).error h)
    case h_3 h => exact (hf.extend _ _ _).error h

theorem steady_growBlock (node : Node) (logical old_size new_size : Nat) :
    Steady f (growBlock node logical old_size new_size) :=
  steady_bind steady_get fun _ => steady_bind (steady_resolveInodeDataBlock _ _) fun _ =>
    steady_bind (steady_readSlice _ _) fun _ =>
    steady_bind (steady_ite (steady_extendOrAllocate hf _ _ _ _) (steady_pure _)) fun _ =>
    steady_bind (steady_writeSlice hf _ _ _) fun _ =>
    steady_bind (steady_setInodeDataBlock hf _ _ _ _) fun _ =>
    steady_bind (steady_ite (hf.free _ _) (steady_pure _)) fun _ => steady_pure _

omit hf in
theorem steady_pruneEntries {visit : Nat → Nat → FsM (Nat × Nat)}
    (hv : ∀ i child, Steady f (visit i child)) : ∀ (n i : Nat) (buf : ByteStore),
      Steady f (pruneEntries visit n i buf)
  | 0, _, _ => steady_pure _
  | n + 1, _, _ => steady_ite (steady_pruneEntries hv n _ _) <|
      steady_bind (hv _ _) fun _ => steady_bind (steady_pruneEntries hv n _ _) fun _ => steady_pure _

theorem steady_pruneBlock {visit : Nat → Nat → FsM (Nat × Nat)}
    (hv : ∀ i child, Steady f (visit i child)) (root : Nat) : Steady f (pruneBlock visit root) :=
  steady_ite (steady_pure _) <| steady_bind steady_get fun _ =>
    steady_bind (steady_readSlice _ _) fun _ => steady_bind (steady_pruneEntries hv _ _ _) fun _ =>
    steady_ite (steady_bind (steady_writeSlice hf _ _ _) fun _ => steady_pure _)
      (steady_bind (hf.free _ _) fun _ => steady_pure _)

theorem steady_pruneTree (keep : Nat) : ∀ below root base : Nat,
    Steady f (pruneTree keep below root base)
  | 0, _, _ => steady_pruneBlock hf (fun _ _ => steady_bind steady_get fun _ =>
      steady_ite (steady_bind (hf.free _ _) fun _ => steady_pure _) (steady_pure _)) _
  | below + 1, _, _ => steady_pruneBlock hf (fun _ _ => steady_bind steady_get fun _ =>
      steady_pruneTree keep below _ _) _

theorem steady_finishInode (node : Node) : Steady f (finishInode node) :=
  steady_bind steady_get fun _ => steady_bind (steady_writeInodeRaw hf _ _) fun _ => steady_pure _

theorem steady_growFile (node : Node) (size : Nat) : Steady f (growFile node size) :=
  steady_bind steady_get fun _ => steady_bind
    (steady_bind steady_get fun _ => steady_ite
      (steady_bind (steady_resolveInodeDataBlock _ _) fun _ =>
        steady_ite (steady_growBlock hf _ _ _ _) (steady_pure _)) (steady_pure _)) fun _ =>
    steady_growBlock hf _ _ _ _

theorem steady_shrinkDirect (old_size size : Nat) : ∀ (n : Nat) (ino : Inode),
    Steady f (shrinkDirect old_size size n ino)
  | 0, _ => steady_pure _
  | n + 1, _ => steady_bind (steady_shrinkDirect old_size size n _) fun _ =>
      steady_bind steady_get fun _ => steady_ite
        (steady_bind (hf.free _ _) fun _ => steady_pure _) (steady_pure _)

theorem steady_shrinkSlots (keep : Nat) : ∀ (n : Nat) (ino : Inode),
    Steady f (shrinkSlots keep n ino)
  | 0, _ => steady_pure _
  | n + 1, _ => steady_bind (steady_shrinkSlots keep n _) fun _ => steady_bind steady_get fun _ =>
      steady_bind (steady_pruneTree hf _ _ _ _) fun _ => steady_pure _

theorem steady_zeroTail (ino : Inode) (size : Nat) : Steady f (zeroTail ino size) :=
  steady_bind steady_get fun _ => steady_ite
    (steady_bind (steady_resolveInodeDataBlock _ _) fun _ =>
      steady_ite (steady_writeSlice hf _ _ _) (steady_pure _)) (steady_pure _)

theorem steady_shrinkFile (node : Node) (size : Nat) : Steady f (shrinkFile node size) :=
  steady_bind steady_get fun _ => steady_bind (steady_shrinkDirect hf _ _ _ _) fun _ =>
    steady_bind (steady_shrinkSlots hf _ _ _) fun _ => steady_bind (steady_check _ _) fun _ =>
    steady_bind (steady_zeroTail hf _ _) fun _ => steady_pure _

theorem steady_fileResize (node : Node) (size : Nat) : Steady f (fileResize node size) :=
  steady_bind (steady_check _ _) fun _ => steady_ite (steady_pure _) <|
    steady_bind (steady_ite (steady_growFile hf _ _) (steady_shrinkFile hf _ _)) fun _ =>
    steady_finishInode hf _

theorem steady_blockForWrite (node : Node) (logical : Nat) :
    Steady f (blockForWrite node logical) :=
  steady_bind steady_get fun _ => steady_bind (steady_resolveInodeDataBlock _ _) fun _ => steady_ite
    (steady_bind (steady_growBlock hf _ _ _ _) fun _ =>
      steady_bind (steady_resolveInodeDataBlock _ _) fun _ => steady_pure _) (steady_pure _)

theorem steady_writeChunks : ∀ (fuel : Nat) (node : Node) (data : List UInt8) (offset : Nat),
    Steady f (writeChunks fuel node data offset)
  | 0, _, _, _ => steady_pure _
  | fuel + 1, _, _, _ => steady_ite (steady_pure _) <| steady_bind steady_get fun _ =>
      steady_bind (steady_blockForWrite hf _ _) fun _ =>
      steady_bind (steady_writeSlice hf _ _ _) fun _ => steady_writeChunks fuel _ _ _

theorem steady_fileWrite (node : Node) (data : List UInt8) (offset : Nat) :
    Steady f (fileWrite node data offset) :=
  steady_ite (steady_pure _) <| steady_bind (steady_check _ _) fun _ =>
    steady_bind (steady_check _ _) fun _ =>
    steady_bind (steady_ite (steady_fileResize hf _ _) (steady_pure _)) fun _ =>
    steady_bind (steady_writeChunks hf _ _ _ _) fun _ => steady_finishInode hf _

/-! ### Directories -/

theorem steady_updateNodeTimes (node : Node) : Steady f (updateNodeTimes node) :=
  steady_bind (steady_writeInodeRaw hf _ _) fun _ => steady_nodeGetByInode _

omit hf in
theorem steady_chunkFrag (dirnode : Node) (block_index : Nat) (e : Errno) :
    Steady f (chunkFrag dirnode block_index e) :=
  steady_bind (steady_failAs (steady_resolveInodeDataBlock _ _)) fun _ =>
    steady_bind (steady_check _ _) fun _ => steady_pure _

theorem steady_writeChunk (dirnode : Node) (block : ByteStore) (chunk_size frag : Nat) :
    Steady f (writeChunk dirnode block chunk_size frag) :=
  steady_bind steady_get fun _ => steady_bind (steady_failAs (steady_writeSlice hf _ _ _)) fun _ =>
    steady_updateNodeTimes hf _

theorem steady_insertInChunks (dirnode : Node) (name : List UInt8) (new_inode need : Nat) :
    ∀ fuel remaining block_index : Nat,
      Steady f (insertInChunks dirnode name new_inode need fuel remaining block_index)
  | 0, _, _ => steady_pure _
  | fuel + 1, remaining, block_index => by
    refine steady_ite (steady_pure _) <| steady_bind steady_get fun fs =>
      steady_bind (steady_readChunk _ _ _) fun buf => ?_
    split
    · exact steady_throw _
    · exact steady_insertInChunks dirnode name new_inode need fuel _ _
    · exact steady_bind (steady_chunkFrag _ _ _) fun _ =>
        steady_bind (steady_writeChunk hf _ _ _ _) fun _ => steady_pure _

theorem steady_insertInNewBlock (dirnode : Node) (name : List UInt8) (new_inode need : Nat) :
    Steady f (insertInNewBlock dirnode name new_inode need) := by
  refine steady_bind (steady_check _ _) fun _ => steady_bind (steady_failAs ?_) fun _ => ?_
  · exact steady_bind steady_get fun _ => steady_bind (steady_check _ _) fun _ =>
      steady_bind (steady_fileResize hf _ _) fun _ =>
      steady_bind (steady_resolveInodeDataBlock _ _) fun _ =>
      steady_bind (steady_check _ _) fun _ => steady_pure _
  · dsimp only
    split
    · exact steady_throw _
    · exact steady_bind (steady_failAs (steady_writeSlice hf _ _ _)) fun _ => steady_pure _

theorem steady_insertDirent (dirnode : Node) (name : List UInt8) (new_inode : Nat) :
    Steady f (insertDirent dirnode name new_inode) := by
  refine steady_bind (steady_insertInChunks hf _ _ _ _ _ _ _) fun found => ?_
  cases found with
  | some dirnode => exact steady_pure _
  | none => exact steady_insertInNewBlock hf _ _ _ _

theorem steady_removeInChunks (dirnode : Node) (name : List UInt8) :
    ∀ fuel remaining block_index : Nat,
      Steady f (removeInChunks dirnode name fuel remaining block_index)
  | 0, _, _ => steady_throw _
  | fuel + 1, remaining, block_index => by
    refine steady_ite (steady_throw _) <| steady_bind steady_get fun fs =>
      steady_bind (steady_readChunk _ _ _) fun buf => steady_bind (steady_chunkFrag _ _ _) fun _ => ?_
    split
    · exact steady_throw _
    · exact steady_removeInChunks dirnode name fuel _ _
    · exact steady_bind (steady_writeChunk hf _ _ _ _) fun _ => steady_pure _

theorem steady_removeDirent (dirnode : Node) (name : List UInt8) :
    Steady f (removeDirent dirnode name) :=
  steady_removeInChunks hf _ _ _ _ _

theorem steady_writeNewDirectoryBlock (frag_addr self_ino parent_ino : Nat) :
    Steady f (writeNewDirectoryBlock frag_addr self_ino parent_ino) := by
  refine steady_bind steady_get fun _ => ?_
  split
  · exact steady_throw _
  · split
    · exact steady_throw _
    · exact steady_writeSlice hf _ _ _

theorem steady_updateDirectoryParentInode (dirnode : Node) (parent_inode : Nat) :
    Steady f (updateDirectoryParentInode dirnode parent_inode) :=
  steady_bind steady_get fun _ => steady_bind (steady_check _ _) fun _ =>
    steady_bind (steady_readChunk _ _ _) fun _ => steady_bind (steady_blockRecord _ _) fun _ =>
    steady_bind (steady_blockRecord _ _) fun _ => steady_bind (steady_check _ _) fun _ =>
    steady_bind (steady_writeSlice hf _ _ _) fun _ => steady_updateNodeTimes hf _

/-! ### The storage of a whole file -/

omit hf in
theorem steady_freeEntries {visit : Nat → FsM PUnit} (hv : ∀ p, Steady f (visit p))
    (block_frag : Nat) : ∀ n i : Nat, Steady f (freeEntries visit block_frag n i)
  | 0, _ => steady_pure _
  | n + 1, _ => steady_bind (steady_readIndirectEntry _ _) fun _ =>
      steady_bind (steady_ite (steady_pure _) (hv _)) fun _ => steady_freeEntries hv block_frag n _

theorem steady_freeIndirectMetadataTree : ∀ below block_frag : Nat,
    Steady f (freeIndirectMetadataTree below block_frag)
  | 0, _ => steady_ite (steady_pure _) <| steady_bind steady_get fun _ => hf.free _ _
  | below + 1, _ => steady_ite (steady_pure _) <| steady_bind steady_get fun _ =>
      steady_bind (steady_freeEntries (steady_freeIndirectMetadataTree below) _ _ _) fun _ =>
      hf.free _ _

theorem steady_freeChunks (ino : Inode) : ∀ fuel remaining logical_block : Nat,
    Steady f (freeChunks ino fuel remaining logical_block)
  | 0, _, _ => steady_pure _
  | fuel + 1, _, _ => steady_ite (steady_pure _) <| steady_bind steady_get fun _ =>
      steady_bind (steady_resolveInodeDataBlock _ _) fun _ =>
      steady_bind (steady_ite (steady_pure _) (hf.free _ _)) fun _ =>
      steady_freeChunks ino fuel _ _

theorem steady_freeSlots (ino : Inode) : ∀ n : Nat, Steady f (freeSlots ino n)
  | 0 => steady_pure _
  | n + 1 => steady_bind (steady_freeSlots ino n) fun _ => steady_freeIndirectMetadataTree hf _ _

theorem steady_freeFileStorage (ino : Inode) : Steady f (freeFileStorage ino) :=
  steady_ite (steady_pure _) <| steady_bind (steady_freeChunks hf _ _ _ _) fun _ =>
    steady_bind (steady_freeSlots hf _ _) fun _ => steady_pure _

theorem steady_setInodeDataBlockOut (ino : Inode) (logical_block data_frag preferred_cg : Nat) :
    Steady f (setInodeDataBlockOut ino logical_block data_frag preferred_cg) := by
  refine steady_bind steady_get fun fs => steady_ite (steady_pure _) ?_
  cases fs.img.sb.indirectSlot logical_block with
  | none => exact steady_pure _
  | some p =>
    refine steady_ite ?_ (steady_bind (steady_attempt
      (steady_setIndirectDataBlock hf _ _ _ _ _)) fun _ => steady_pure _)
    refine steady_bind (steady_attempt (steady_allocateZeroedFullBlock hf _)) fun r => ?_
    cases r with
    | error e => exact steady_pure _
    | ok root =>
      exact steady_bind (steady_attempt (steady_setIndirectDataBlock hf _ _ _ _ _)) fun _ =>
        steady_pure _

theorem steady_placeChunk (preferred_cg : Nat) (chunk : List UInt8) (logical_block : Nat)
    (ino : Inode) (total : Nat) :
    Steady f (placeChunk preferred_cg chunk logical_block ino total) := by
  refine steady_bind steady_get fun fs =>
    steady_bind (steady_attempt (steady_allocateFragsAnycg hf _ _)) fun r => ?_
  cases r with
  | error e => exact steady_pure _
  | ok frag =>
    refine steady_bind (steady_setInodeDataBlockOut hf _ _ _ _) fun r => ?_
    obtain ⟨ino, set⟩ := r
    cases set with
    | error e => exact steady_bind (steady_attempt (hf.free _ _)) fun _ => steady_pure _
    | ok metadata =>
      refine steady_bind (steady_attempt (steady_writeSlice hf _ _ _)) fun r => ?_
      cases r with
      | error e => exact steady_pure _
      | ok u => exact steady_pure _

theorem steady_placeChunks (preferred_cg : Nat) : ∀ (fuel : Nat) (data : List UInt8)
    (logical_block : Nat) (ino : Inode) (total : Nat),
      Steady f (placeChunks preferred_cg fuel data logical_block ino total)
  | 0, _, _, _, _ => steady_pure _
  | fuel + 1, data, logical_block, ino, total => by
    refine steady_ite (steady_pure _) <| steady_bind steady_get fun fs =>
      steady_bind (steady_placeChunk hf _ _ _ _ _) fun r => ?_
    split
    · exact steady_pure _
    · exact steady_placeChunks preferred_cg fuel _ _ _ _

theorem steady_allocateDataForInode (preferred_cg : Nat) (data : List UInt8) (ino : Inode) :
    Steady f (allocateDataForInode preferred_cg data ino) := by
  refine steady_bind steady_get fun fs => steady_ite (steady_pure _) <|
    steady_bind (steady_placeChunks hf _ _ _ _ _ _) fun r => ?_
  dsimp only
  split
  · exact steady_pure _
  · refine steady_bind (steady_attempt (steady_freeFileStorage hf _)) fun r => ?_
    cases r with
    | error e => exact steady_pure _
    | ok ino => exact steady_pure _

end Writing

/-! ## The words that count inodes -/

/-- The words of a group that the fragment allocator has no business with. -/
def Fs.inodeWords (fs : Fs) (c : Nat) : Nat × UInt32 × UInt32 :=
  ((fs.cg c).magic, (fs.cg c).cs.nifree, (fs.cg c).cs.ndir)

/-- A group is replaced by one with the same words, if its writes succeed. -/
theorem inodeWords_storeGroup {fs : Fs} {c : Nat} {cg : Cg} (d : Csum)
    (hm : cg.magic = (fs.cg c).magic) (hi : cg.cs.nifree = (fs.cg c).cs.nifree)
    (hd : cg.cs.ndir = (fs.cg c).cs.ndir) :
    Fs.inodeWords (final (storeGroup c cg d fs)) = Fs.inodeWords fs := by
  have hcounts : Steady Fs.inodeWords (updateSummaryCounts c d) :=
    steady_bind (steady_modify fun _ => rfl) fun _ => steady_bind steady_get fun _ =>
      steady_bind (steady_check _ _) fun _ => steady_modify fun _ => rfl
  refine final_bind (P := fun s => Fs.inodeWords s = Fs.inodeWords fs) ?_ fun _ t _ ht => ?_
  · cases h : writeCg c cg fs with
    | ok u t =>
      obtain ⟨-, -, rfl⟩ := writeCg_ok.mp h
      funext a
      by_cases ha : a = c
      · subst ha
        simp [final, Fs.inodeWords, hm, hi, hd]
      · simp [final, Fs.inodeWords, ha]
    | error e t =>
      obtain ⟨-, rfl⟩ := writeCg_error.mp h
      rfl
  · exact (hcounts t).trans ht

theorem addBlock_words (cg : Cg) (sb : Superblock) (frag : Nat) (d : UInt32) (e : UInt16) :
    (cg.addBlock sb frag d e).magic = cg.magic ∧ (cg.addBlock sb frag d e).cs = cg.cs := by
  unfold Cg.addBlock
  dsimp only
  split <;> exact ⟨rfl, rfl⟩

theorem splitBlock_words (cg : Cg) (sb : Superblock) (frag n : Nat) :
    (cg.splitBlock sb frag n).magic = cg.magic ∧
      (cg.splitBlock sb frag n).cs.nifree = cg.cs.nifree ∧
      (cg.splitBlock sb frag n).cs.ndir = cg.cs.ndir := by
  unfold Cg.splitBlock
  dsimp only
  rw [(addBlock_words ..).1, (addBlock_words ..).2]
  exact ⟨rfl, rfl, rfl⟩

theorem giveFrags_words (cg : Cg) (sb : Superblock) (base frag n : Nat) :
    (cg.giveFrags sb base frag n).magic = cg.magic ∧
      (cg.giveFrags sb base frag n).cs.nifree = cg.cs.nifree ∧
      (cg.giveFrags sb base frag n).cs.ndir = cg.cs.ndir := by
  unfold Cg.giveFrags
  dsimp only
  split
  · rw [(addBlock_words ..).1, (addBlock_words ..).2]
    exact ⟨rfl, rfl, rfl⟩
  · exact ⟨rfl, rfl, rfl⟩

/-- What allocates or frees fragments leaves the words alone. -/
theorem inert_inodeWords : Inert Fs.inodeWords where
  bytes _ _ := rfl
  inode _ _ := rfl
  allocate c n fs := by
    rcases allocateFragsInGroup_cases fs c n with ⟨e, h⟩ | ⟨start, cg, d, hfound, h⟩ <;> rw [h]
    · rfl
    refine final_bind (P := fun s => Fs.inodeWords s = Fs.inodeWords fs) ?_ fun _ _ _ ht => ht
    obtain ⟨_, -, rfl, -⟩ | ⟨-, -, rfl, -⟩ := hfound.found
    · exact inodeWords_storeGroup _ rfl rfl rfl
    · obtain ⟨hm, hi, hd⟩ := splitBlock_words (fs.cg c) fs.img.sb start n
      exact inodeWords_storeGroup _ hm hi hd
  extend p old new fs := by
    rcases extendFragmentRun_cases fs p old new with ⟨e, h⟩ | ⟨-, h⟩ <;> rw [h]
    · rfl
    · exact inodeWords_storeGroup _ rfl rfl rfl
  free p n fs := by
    rcases freeFragmentRun_cases fs p n with ⟨-, e, h⟩ | ⟨-, h⟩ <;> rw [h]
    · rfl
    · obtain ⟨hm, hi, hd⟩ := giveFrags_words (fs.cg (p / fs.img.sb.fragsPerGroup)) fs.img.sb _ _ n
      exact inodeWords_storeGroup _ hm hi hd

end NextUfs.Mutate
