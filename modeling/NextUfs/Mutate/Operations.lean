/-
NextUfs.Mutate.Operations — the path mutations of `src/mutate/mutate.c`, with
the directory blocks they need from `src/mutate/dir_mutate.c`.

An operation checks its arguments, works on the open image and ends in
`finish_mutation`. Its body runs on the volume; a body that fails leaves no
trace, since the transaction it runs in is undone (`mutateOneShot_refines` and
`runSession_refines` in `Mutate.RunTheorems`). What a body does to clean up
after a failure is kept, though nothing of it is seen.
Times are not modelled, so `utimes` only checks and writes the inode back.
-/
import NextUfs.Core.FileStorage
import NextUfs.Core.InodeAlloc
import NextUfs.Mutate.Directory

namespace NextUfs.Mutate

open NextUfs.Core NextUfs.Lib NextUfs.Lib.ByteStore NextUfs.Lib.StateResult

def NEXTUFS_IFMT : UInt16 := 0o170000
def NEXTUFS_IFIFO : UInt16 := 0o010000
def NEXTUFS_IFCHR : UInt16 := 0o020000
def NEXTUFS_IFDIR : UInt16 := 0o040000
def NEXTUFS_IFBLK : UInt16 := 0o060000
def NEXTUFS_IFREG : UInt16 := 0o100000
def NEXTUFS_IFLNK : UInt16 := 0o120000
def NEXTUFS_IFSOCK : UInt16 := 0o140000
def INT16_MAX : Nat := 32767
def SIZE_MAX : Nat := 18446744073709551615

/-- `(uid_t)-1` and `(gid_t)-1`: leave the owner alone. -/
def NO_ID : Nat := 4294967295

/-! ## Checks -/

/-- A status as a step of checking the arguments. -/
def argStatus : Status → Except Errno Unit
  | none => .ok ()
  | some e => .error e

/-- `nextufs__require_ctx_ids_fit`. -/
def requireCtxIdsFit (ctx : WriteCtx) : Status :=
  if ctx.user ∧ (ctx.uid > INT16_MAX ∨ ctx.gid > INT16_MAX) then some .EOVERFLOW else none

/-- `nextufs__require_owner_ids_fit`. -/
def requireOwnerIdsFit (uid gid : Nat) : Status :=
  if uid ≠ NO_ID ∧ uid > INT16_MAX then some .EOVERFLOW
  else if gid ≠ NO_ID ∧ gid > INT16_MAX then some .EOVERFLOW
  else none

/-- `nextufs__ctx_in_group`. -/
def ctxInGroup (ctx : WriteCtx) (gid : Nat) : Bool := decide (ctx.gid = gid ∨ gid ∈ ctx.groups)

/-- `nextufs__require_user_access`. -/
def requireUserAccess (ctx : WriteCtx) (node : Node) (mask : UInt16) : Status :=
  if ctx.user then nodeCheckAccess node.inode ctx.uid ctx.gid ctx.groups mask true else none

/-- `nextufs__require_parent_mutation`. -/
def requireParentMutation (ctx : WriteCtx) (parent : Node) : Status :=
  requireUserAccess ctx parent (W_OK ||| X_OK)

/-- `nextufs__check_sticky_parent`. -/
def checkStickyParent (ctx : WriteCtx) (parent target : Node) : Status :=
  if ¬ ctx.user then none
  else if parent.inode.mode &&& 0o1000 = 0 then none
  else if ctx.uid = 0 then none
  else if ctx.uid = parent.inode.uid.toNat ∨ ctx.uid = target.inode.uid.toNat then none
  else some .EPERM

/-- `nextufs__require_chmod_allowed`, and the check `nextufs_path_utimes` makes in its place. -/
def requireChmodAllowed (ctx : WriteCtx) (node : Node) : Status :=
  if ¬ ctx.user then none
  else if ctx.uid = 0 ∨ ctx.uid = node.inode.uid.toNat then none
  else some .EPERM

/-- `nextufs__require_chown_allowed`. -/
def requireChownAllowed (ctx : WriteCtx) (node : Node) (uid gid : Nat) : Status :=
  if ¬ ctx.user then none
  else if ctx.uid = 0 then none
  else if ctx.uid ≠ node.inode.uid.toNat then some .EPERM
  else if uid ≠ node.inode.uid.toNat then some .EPERM
  else if ctxInGroup ctx gid then none
  else some .EPERM

/-- The mode an ordinary caller gets for an inode of the group `gid`: the sticky bit is for
directories, the set-group bit for members. -/
def cleanMode (ctx : WriteCtx) (gid mode : UInt16) : UInt16 :=
  if ¬ ctx.user ∨ ctx.uid = 0 then mode else
  let mode := if mode &&& NEXTUFS_IFMT ≠ NEXTUFS_IFDIR then mode &&& ~~~0o1000 else mode
  if mode &&& 0o2000 ≠ 0 ∧ ctxInGroup ctx gid.toNat = false then mode &&& ~~~0o2000 else mode

/-- `nextufs__sanitize_new_inode_mode`. -/
def sanitizeNewInodeMode (ctx : WriteCtx) (ino : Inode) : Inode :=
  { ino with mode := cleanMode ctx ino.gid ino.mode }

/-- `nextufs__sanitize_chmod_mode`. -/
def sanitizeChmodMode (ctx : WriteCtx) (node : Node) (mode : UInt16) : UInt16 :=
  cleanMode ctx node.inode.gid ((node.inode.mode &&& NEXTUFS_IFMT) ||| (mode &&& 0o7777))

/-- `nextufs__name_is_dot_or_dotdot`. -/
def nameIsDotOrDotdot (name : List UInt8) : Prop := name = dot ∨ name = dotdot

instance (name : List UInt8) : Decidable (nameIsDotOrDotdot name) := by
  unfold nameIsDotOrDotdot
  infer_instance

/-- `nextufs__disallow_dot_names`. -/
def disallowDotNames (name : List UInt8) : Status :=
  if nameIsDotOrDotdot name then some .EINVAL else none

/-- `nextufs__disallow_target_dot_names`. -/
def disallowTargetDotNames (name : List UInt8) : Status :=
  if nameIsDotOrDotdot name then some .ENOTEMPTY else none

/-! ## Inodes -/

/-- A zeroed inode of a generation. -/
def blankInode (gen : UInt32) : Inode where
  mode := 0
  nlink := 0
  uid := 0
  gid := 0
  size := 0
  db := fun _ => 0
  ib := fun _ => 0
  flags := 0
  blocks := 0
  gen := gen

/-- `nextufs__set_new_inode_owner`. -/
def setNewInodeOwner (ctx : WriteCtx) (parent : Node) (ino : Inode) : Inode :=
  { ino with uid := if ctx.user then UInt16.ofNat ctx.uid else 0, gid := parent.inode.gid }

/-- The inode the creating calls start from. -/
def newInode (ctx : WriteCtx) (parent : Node) (mode nlink : UInt16) (gen : UInt32) : Inode :=
  sanitizeNewInodeMode ctx
    (setNewInodeOwner ctx parent { blankInode gen with mode := mode, nlink := nlink })

/-- The inode is cleared under its next generation, and given back with its old type. -/
def clearInode (inode_no : Nat) (ino : Inode) : VolM PUnit := do
  onFs (writeInodeRaw inode_no (blankInode (ino.gen + 1)))
  freeInodeInGroup inode_no ino.mode

/-- The types whose inodes hold no blocks. -/
def holdsNoBlocks (mode : UInt16) : Bool :=
  decide (mode &&& NEXTUFS_IFMT ∈ [NEXTUFS_IFIFO, NEXTUFS_IFCHR, NEXTUFS_IFBLK, NEXTUFS_IFSOCK])

/-- `nextufs__remove_linked_inode`. -/
def removeLinkedInode (target : Node) : VolM PUnit := do
  check (target.inode.nlink ≠ 0) .EINVAL
  let ino := { target.inode with nlink := target.inode.nlink - 1 }
  if ino.nlink = 0 then do
    let ino ← if holdsNoBlocks ino.mode then pure ino else onFs (freeFileStorage ino)
    clearInode target.inodeNo ino
  else onFs (writeInodeRaw target.inodeNo ino)

/-- `nextufs__remove_dir_inode`. -/
def removeDirInode (parent target : Node) : VolM Node := do
  let ino ← onFs (freeFileStorage target.inode)
  clearInode target.inodeNo ino
  let parent := { parent with inode := { parent.inode with nlink := parent.inode.nlink - 1 } }
  onFs (writeInodeRaw parent.inodeNo parent.inode)
  return parent

/-- `nextufs__discard_new_inode`. -/
def discardNewInode (inode_no : Nat) (ino : Inode) : VolM PUnit := do
  let ino ← onFs (freeFileStorage ino)
  clearInode inode_no ino

/-- A step of a creating call; the new inode is discarded when it fails. -/
def orDiscard {α : Type} (inode_no : Nat) (ino : Inode) (x : VolM α) : VolM α := do
  match ← attempt x with
  | .ok a => return a
  | .error e => do
    let _ ← attempt (discardNewInode inode_no ino)
    throw e

/-! ## Directory blocks -/

/-- `nextufs__write_new_directory_block`. -/
def writeNewDirectoryBlock (frag_addr self_ino parent_ino : Nat) : FsM PUnit := do
  let fs ← get
  match writeDirentRaw (fun _ => 0) 0 self_ino (direntSize 1) dot with
  | .error _ => throw .EINVAL
  | .ok dirblk =>
    match writeDirentRaw dirblk (direntSize 1) parent_ino (DIRBLKSIZ - direntSize 1) dotdot with
    | .error _ => throw .EINVAL
    | .ok dirblk => writeSlice dirblk DIRBLKSIZ (fs.fragOffset frag_addr)

/-- A record of a block, as the two functions below read it; a failure is `EINVAL`. -/
def blockRecord (dirblk : ByteStore) (off : Nat) : FsM Dirent :=
  match readDirent dirblk DIRBLKSIZ off with
  | none => throw .EINVAL
  | some ent => return ent

/-- The record at `off` is called `..`; an unused record may be. -/
def calledDotdot (dirblk : ByteStore) (off : Nat) (ent : Dirent) : Prop :=
  ent.namlen = 2 ∧ slice dirblk (off + 8) 2 = dotdot

instance (dirblk : ByteStore) (off : Nat) (ent : Dirent) :
    Decidable (calledDotdot dirblk off ent) := by
  unfold calledDotdot
  infer_instance

/-- `nextufs__read_directory_parent_inode`. -/
def readDirectoryParentInode (dirnode : Node) : FsM Nat := do
  check (dirnode.inode.isDir ∧ DIRBLKSIZ ≤ dirnode.inode.size) .ENOTDIR
  let dirblk ← readChunk dirnode.inode 0 DIRBLKSIZ
  let first ← blockRecord dirblk 0
  check (first.ino = dirnode.inodeNo ∧ first.namlen = 1 ∧ slice dirblk 8 1 = dot) .EINVAL
  let second ← blockRecord dirblk first.reclen
  check (calledDotdot dirblk first.reclen second) .EINVAL
  return second.ino

/-- `nextufs__update_directory_parent_inode`. -/
def updateDirectoryParentInode (dirnode : Node) (parent_inode : Nat) : FsM Node := do
  let fs ← get
  check (dirnode.inode.isDir ∧ DIRBLKSIZ ≤ dirnode.inode.size ∧ dirnode.inode.db 0 ≠ 0) .ENOTDIR
  let dirblk ← readChunk dirnode.inode 0 DIRBLKSIZ
  let first ← blockRecord dirblk 0
  let second ← blockRecord dirblk first.reclen
  check (calledDotdot dirblk first.reclen second) .EINVAL
  writeSlice (setBe32 dirblk first.reclen parent_inode) DIRBLKSIZ
    (fs.fragOffset (dirnode.inode.db 0))
  updateNodeTimes dirnode

/-- The loop of `nextufs__directory_has_ancestor`, `n` directories to go. What cannot be followed
counts as the ancestor. -/
def ancestorLoop (ancestor_inode : Nat) : Nat → Node → FsM Bool
  | 0, _ => return true
  | n + 1, cur =>
    if cur.inodeNo = ancestor_inode then return true
    else if cur.inodeNo = NEXTUFS_ROOT_INODE then return false
    else do
      match ← attempt (readDirectoryParentInode cur) with
      | .error _ => return true
      | .ok parent_inode =>
        if parent_inode = cur.inodeNo then return true else do
        match ← attempt (nodeGetByInode parent_inode) with
        | .error _ => return true
        | .ok cur => ancestorLoop ancestor_inode n cur

/-- `nextufs__directory_has_ancestor`. -/
def directoryHasAncestor (dirnode : Node) (ancestor_inode : Nat) : FsM Bool :=
  ancestorLoop ancestor_inode 1024 dirnode

/-! ## What the bodies begin with -/

/-- The directory whose entries change, looked up and checked. -/
def mutableParent (ctx : WriteCtx) (must_be_dir : Bool) (parent_path : List UInt8) : FsM Node := do
  let parent ← nodeLookupAs ctx parent_path true
  check (must_be_dir = true → parent.inode.isDir) .ENOTDIR
  ofStatus (requireParentMutation ctx parent)
  return parent

/-- Nothing has the path. -/
def requireAbsent (ctx : WriteCtx) (path : List UInt8) : FsM PUnit := do
  match ← attempt (nodeLookupAs ctx path false) with
  | .ok _ => throw .EEXIST
  | .error .ENOENT => return ⟨⟩
  | .error e => throw e

/-- An inode taken for a new file of the directory, zeroed but for its generation. -/
def takeInode (parent : Node) (mode : UInt16) : VolM (Nat × UInt32) := do
  let v ← get
  let new_inode_no ← allocateInode (parent.inodeNo / v.fs.img.sb.inodesPerGroup) mode
  let ino ← onFs (inodeRead new_inode_no)
  return (new_inode_no, ino.gen)

/-- How the creating calls end: the inode is written and the entry made. -/
def enterNewInode (parent : Node) (name : List UInt8) (inode_no : Nat) (ino : Inode) :
    VolM Node :=
  orDiscard inode_no ino do
    onFs (writeInodeRaw inode_no ino)
    onFs (insertDirent parent name inode_no)

/-- The entry goes out of its directory, and led to the inode that was looked up. -/
def removeEntry (parent : Node) (name : List UInt8) (inode_no : Nat) : VolM Node := do
  let (parent, removed_inode) ← onFs (removeDirent parent name)
  check (removed_inode = inode_no) .EINVAL
  return parent

/-! ## The bodies -/

/-- The body of `nextufs_path_create_file`. -/
def createFileBody (ctx : WriteCtx) (parent_path name path data : List UInt8) : VolM PUnit := do
  let parent ← onFs (mutableParent ctx true parent_path)
  onFs (requireAbsent ctx path)
  let v ← get
  let (new_inode_no, gen) ← takeInode parent (NEXTUFS_IFREG ||| 0o644)
  let ino := { newInode ctx parent (NEXTUFS_IFREG ||| 0o644) 1 gen with size := data.length }
  let (rc, ino) ← onFs (allocateDataForInode (parent.inodeNo / v.fs.img.sb.inodesPerGroup) data ino)
  orDiscard new_inode_no ino (onFs (ofStatus rc))
  let _ ← enterNewInode parent name new_inode_no ino

/-- The body of `nextufs_path_unlink`. -/
def unlinkBody (ctx : WriteCtx) (parent_path name path : List UInt8) : VolM PUnit := do
  let parent ← onFs (mutableParent ctx true parent_path)
  let target ← onFs (nodeLookupAs ctx path false)
  check (¬ target.inode.isDir) .EISDIR
  onFs (ofStatus (checkStickyParent ctx parent target))
  onFs (ofStatus (requireUserAccess ctx target W_OK))
  let _ ← removeEntry parent name target.inodeNo
  removeLinkedInode target

/-- The new directory's block, for `nextufs_path_mkdir`; what was taken goes back when it fails. -/
def newDirectoryBlock (parent : Node) (mode : UInt16) (inode_no : Nat) : VolM Nat := do
  let v ← get
  let frag ← onFs (allocateFragsAnycg (parent.inodeNo / v.fs.img.sb.inodesPerGroup) 1)
  match ← attempt (onFs (writeNewDirectoryBlock frag inode_no parent.inodeNo)) with
  | .ok _ => return frag
  | .error e => do
    let _ ← attempt (onFs (freeFragmentRun frag 1))
    let _ ← attempt (freeInodeInGroup inode_no mode)
    throw e

/-- The body of `nextufs_path_mkdir`. -/
def mkdirBody (ctx : WriteCtx) (parent_path name path : List UInt8) (mode : UInt16) :
    VolM PUnit := do
  let mode := NEXTUFS_IFDIR ||| (mode &&& 0o777)
  let parent ← onFs (mutableParent ctx true parent_path)
  onFs (requireAbsent ctx path)
  let v ← get
  let new_inode_no ← allocateInode (parent.inodeNo / v.fs.img.sb.inodesPerGroup) mode
  let alloc_frag ← newDirectoryBlock parent mode new_inode_no
  let old ← onFs (inodeRead new_inode_no)
  let ino := { newInode ctx parent mode 2 old.gen with
    size := DIRBLKSIZ
    db := Function.update (fun _ => 0) 0 alloc_frag
    blocks := UInt32.ofNat v.fs.img.sb.sectorsPerFrag }
  let parent ← enterNewInode parent name new_inode_no ino
  check (parent.inode.nlink.toNat < INT16_MAX) .EMLINK
  onFs (writeInodeRaw parent.inodeNo { parent.inode with nlink := parent.inode.nlink + 1 })

/-- The body of `nextufs__rewrite_file_contents`. -/
def rewriteFileBody (ctx : WriteCtx) (path data : List UInt8) (append : Bool) : FsM PUnit := do
  let target ← nodeLookupAs ctx path false
  check target.inode.isReg .EISDIR
  ofStatus (requireUserAccess ctx target W_OK)
  let target ← if append then pure target else fileResize target data.length
  let _ ← fileWrite target data (if append then target.inode.size else 0)

/-- The body of `nextufs_path_rmdir`. -/
def rmdirBody (ctx : WriteCtx) (parent_path name path : List UInt8) : VolM PUnit := do
  let parent ← onFs (mutableParent ctx false parent_path)
  let target ← onFs (nodeLookupAs ctx path false)
  check target.inode.isDir .ENOTDIR
  onFs (ofStatus (checkStickyParent ctx parent target))
  let empty ← onFs (directoryIsEmpty target parent.inodeNo)
  check (target.inode.nlink = 2 ∧ empty = true) .ENOTEMPTY
  let parent ← removeEntry parent name target.inodeNo
  let _ ← removeDirInode parent target

/-- The body of `nextufs_path_link`. -/
def linkBody (ctx : WriteCtx) (source_path parent_path name target_path : List UInt8) :
    VolM PUnit := do
  let parent ← onFs (mutableParent ctx false parent_path)
  let source ← onFs (nodeLookupAs ctx source_path false)
  check (¬ source.inode.isDir) .EPERM
  onFs (requireAbsent ctx target_path)
  check (source.inode.nlink.toNat < INT16_MAX) .EMLINK
  onFs (writeInodeRaw source.inodeNo { source.inode with nlink := source.inode.nlink + 1 })
  let _ ← onFs (insertDirent parent name source.inodeNo)

/-- The target goes into the new link: up to sixty bytes into the inode, a longer one into blocks. -/
def storeTarget (preferred_cg : Nat) (target : List UInt8) (ino : Inode) : FsM (Status × Inode) :=
  if target.length ≤ 60 then
    return (none, storeInlineSymlink { ino with flags := NEXTUFS_IC_FASTLINK } target)
  else allocateDataForInode preferred_cg target ino

/-- The body of `nextufs_path_symlink`. -/
def symlinkBody (ctx : WriteCtx) (target parent_path name link_path : List UInt8) :
    VolM PUnit := do
  let parent ← onFs (mutableParent ctx false parent_path)
  onFs (requireAbsent ctx link_path)
  let v ← get
  let (new_inode_no, gen) ← takeInode parent (NEXTUFS_IFLNK ||| 0o777)
  let ino := { newInode ctx parent (NEXTUFS_IFLNK ||| 0o777) 1 gen with size := target.length }
  let (rc, ino) ← onFs (storeTarget (parent.inodeNo / v.fs.img.sb.inodesPerGroup) target ino)
  orDiscard new_inode_no ino (onFs (ofStatus rc))
  let _ ← enterNewInode parent name new_inode_no ino

/-- The bodies of `nextufs_path_truncate` and `nextufs_path_pwrite`, up to the change itself. -/
def changeFileBody (ctx : WriteCtx) (path : List UInt8) (change : Node → FsM Node) : FsM PUnit := do
  let target ← nodeLookupAs ctx path false
  check target.inode.isReg .EINVAL
  ofStatus (requireUserAccess ctx target W_OK)
  let _ ← change target

/-- The body of `nextufs_path_mknod`. -/
def mknodBody (ctx : WriteCtx) (parent_path name path : List UInt8) (mode : UInt16) (rdev : Nat) :
    VolM PUnit := do
  let ifmt := mode &&& NEXTUFS_IFMT
  let parent ← onFs (mutableParent ctx true parent_path)
  onFs (requireAbsent ctx path)
  let (new_inode_no, gen) ← takeInode parent mode
  let ino := newInode ctx parent mode 1 gen
  let ino := if ifmt = NEXTUFS_IFCHR ∨ ifmt = NEXTUFS_IFBLK then
    { ino with db := Function.update ino.db 0 rdev } else ino
  let _ ← enterNewInode parent name new_inode_no ino

/-- What `nextufs_path_rename` does with a file that has the target's name: the new parent, or
nothing to do when both names lead to one inode. -/
def replaceTarget (ctx : WriteCtx) (source new_parent : Node) (new_name target_path : List UInt8) :
    VolM (Option Node) := do
  match ← attempt (onFs (nodeLookupAs ctx target_path false)) with
  | .error .ENOENT => return some new_parent
  | .error e => throw e
  | .ok existing =>
    if existing.inodeNo = source.inodeNo then return none else do
    check (source.inode.isDir ↔ existing.inode.isDir)
      (if source.inode.isDir then .ENOTDIR else .EISDIR)
    onFs (ofStatus (checkStickyParent ctx new_parent existing))
    let empty ← onFs (directoryIsEmpty existing new_parent.inodeNo)
    check (source.inode.isDir → existing.inode.nlink ≤ 2 ∧ empty = true) .ENOTEMPTY
    let new_parent ← removeEntry new_parent new_name existing.inodeNo
    if source.inode.isDir then do
      let new_parent ← removeDirInode new_parent existing
      return some new_parent
    else do
      removeLinkedInode existing
      return some new_parent

/-- A directory changes its parent: its `..`, and the parents' link counts. -/
def moveDirectory (source old_parent new_parent : Node) : FsM Node := do
  let source ← updateDirectoryParentInode source new_parent.inodeNo
  writeInodeRaw old_parent.inodeNo
    { old_parent.inode with nlink := old_parent.inode.nlink - 1 }
  check (new_parent.inode.nlink.toNat < INT16_MAX) .EMLINK
  writeInodeRaw new_parent.inodeNo
    { new_parent.inode with nlink := new_parent.inode.nlink + 1 }
  return source

/-- The second half of `nextufs_path_rename`: the new entry, the old one, and the parents. -/
def moveEntry (source old_parent new_parent : Node) (old_name new_name : List UInt8) :
    VolM PUnit := do
  let changing_parent := old_parent.inodeNo ≠ new_parent.inodeNo
  let new_parent ← onFs (insertDirent new_parent new_name source.inodeNo)
  let old_parent ← removeEntry (if changing_parent then old_parent else new_parent) old_name
    source.inodeNo
  let source ← if source.inode.isDir ∧ changing_parent then
      onFs (moveDirectory source old_parent new_parent) else pure source
  onFs (writeInodeRaw source.inodeNo source.inode)

/-- The body of `nextufs_path_rename`. -/
def renameBody (ctx : WriteCtx) (source_path old_parent_path old_name target_path new_parent_path
    new_name : List UInt8) : VolM PUnit := do
  let source ← onFs (nodeLookupAs ctx source_path false)
  let old_parent ← onFs (mutableParent ctx false old_parent_path)
  let new_parent ← onFs (mutableParent ctx true new_parent_path)
  let changing_parent := old_parent.inodeNo ≠ new_parent.inodeNo
  onFs (ofStatus (checkStickyParent ctx old_parent source))
  onFs (ofStatus (if source.inode.isDir ∧ changing_parent then
    requireUserAccess ctx source W_OK else none))
  let ancestor ← onFs (directoryHasAncestor new_parent source.inodeNo)
  check (¬ (source.inode.isDir ∧ ancestor = true)) .EINVAL
  match ← replaceTarget ctx source new_parent new_name target_path with
  | none => return ⟨⟩
  | some new_parent => moveEntry source old_parent new_parent old_name new_name

/-- The body of `nextufs_path_chmod`. -/
def chmodBody (ctx : WriteCtx) (path : List UInt8) (mode : UInt16) : FsM PUnit := do
  let node ← nodeLookupAs ctx path false
  ofStatus (requireChmodAllowed ctx node)
  writeInodeRaw node.inodeNo { node.inode with mode := sanitizeChmodMode ctx node mode }

/-- The body of `nextufs_path_chown`. -/
def chownBody (ctx : WriteCtx) (path : List UInt8) (uid gid : Nat) : FsM PUnit := do
  let node ← nodeLookupAs ctx path false
  let new_uid := if uid = NO_ID then node.inode.uid.toNat else uid
  let new_gid := if gid = NO_ID then node.inode.gid.toNat else gid
  ofStatus (requireChownAllowed ctx node new_uid new_gid)
  writeInodeRaw node.inodeNo { node.inode with
    uid := UInt16.ofNat new_uid
    gid := UInt16.ofNat new_gid
    mode := if ctx.user ∧ ctx.uid ≠ 0 then node.inode.mode &&& ~~~(0o4000 ||| 0o2000)
      else node.inode.mode }

/-- The body of `nextufs_path_utimes`. -/
def utimesBody (ctx : WriteCtx) (path : List UInt8) : FsM PUnit := do
  let node ← nodeLookupAs ctx path false
  ofStatus (requireChmodAllowed ctx node)
  writeInodeRaw node.inodeNo node.inode

/-- The body of `nextufs__opened_file_update`. -/
def openedFileBody (ino : Nat) (gen : UInt32) (data : List UInt8) (offset : Nat) (truncate : Bool) :
    FsM PUnit := do
  let node ← nodeGetByInode ino
  check (node.inode.gen = gen ∧ node.inode.isReg) .ESTALE
  let _ ← if truncate then fileResize node offset else fileWrite node data offset

/-! ## The operations -/

/-- The image as `nextufs__open_image_rw` hands it to a caller. -/
def Volume.openRw (v : Volume) (ctx : WriteCtx) : Volume :=
  { v with fs := { v.fs with
      img := { v.fs.img with unprivileged := ctx.user && decide (ctx.uid ≠ 0) } } }

/-- An operation from its checked arguments to the end of `finish_mutation`. -/
def mutation {α : Type} (ctx : WriteCtx) (args : Except Errno α) (body : α → VolM PUnit) (v : Volume) :
    Status × Volume :=
  match args with
  | .error e => (some e, v)
  | .ok a =>
    match body a (Volume.openRw v ctx) with
    | .ok _ v' => (none, { v' with fs := { v'.fs with img := v.fs.img } })
    | .error e _ => (some e, v)

/-- A path taken apart for a call that changes the entry it names. -/
def entryArgs (ctx : WriteCtx) (path : List UInt8) (refuse : List UInt8 → Status) :
    Except Errno (List UInt8 × List UInt8) := do
  argStatus (requireCtxIdsFit ctx)
  let (parent_path, name) ← pathSplit path 4096 256
  argStatus (refuse name)
  return (parent_path, name)

/-- `nextufs_path_create_file`. -/
def pathCreateFile (ctx : WriteCtx) (path data : List UInt8) : Volume → Status × Volume :=
  mutation ctx (entryArgs ctx path disallowDotNames) fun a => createFileBody ctx a.1 a.2 path data

/-- `nextufs_path_unlink`. -/
def pathUnlink (ctx : WriteCtx) (path : List UInt8) : Volume → Status × Volume :=
  mutation ctx (entryArgs ctx path disallowDotNames) fun a => unlinkBody ctx a.1 a.2 path

/-- `nextufs_path_mkdir`. -/
def pathMkdir (ctx : WriteCtx) (path : List UInt8) (mode : UInt16) : Volume → Status × Volume :=
  mutation ctx (entryArgs ctx path disallowDotNames) fun a => mkdirBody ctx a.1 a.2 path mode

/-- `nextufs_path_overwrite_file`. -/
def pathOverwriteFile (ctx : WriteCtx) (path data : List UInt8) : Volume → Status × Volume :=
  mutation ctx (argStatus (requireCtxIdsFit ctx)) fun _ => onFs (rewriteFileBody ctx path data false)

/-- `nextufs_path_append_file`. -/
def pathAppendFile (ctx : WriteCtx) (path data : List UInt8) : Volume → Status × Volume :=
  mutation ctx (argStatus (requireCtxIdsFit ctx)) fun _ => onFs (rewriteFileBody ctx path data true)

/-- `nextufs_path_rmdir`; it takes `.` and `..` for names like any other. -/
def pathRmdir (ctx : WriteCtx) (path : List UInt8) : Volume → Status × Volume :=
  mutation ctx (entryArgs ctx path fun _ => none) fun a => rmdirBody ctx a.1 a.2 path

/-- `nextufs_path_link`. -/
def pathLink (ctx : WriteCtx) (source_path target_path : List UInt8) : Volume → Status × Volume :=
  mutation ctx (entryArgs ctx target_path disallowDotNames) fun a =>
    linkBody ctx source_path a.1 a.2 target_path

/-- `nextufs_path_symlink`. -/
def pathSymlink (ctx : WriteCtx) (target link_path : List UInt8) : Volume → Status × Volume :=
  mutation ctx (entryArgs ctx link_path disallowDotNames) fun a =>
    symlinkBody ctx target a.1 a.2 link_path

/-- `nextufs_path_truncate`. -/
def pathTruncate (ctx : WriteCtx) (path : List UInt8) (size : Nat) : Volume → Status × Volume :=
  mutation ctx (do
      argStatus (if size > SIZE_MAX then some .EFBIG else none)
      argStatus (requireCtxIdsFit ctx)) fun _ =>
    onFs (changeFileBody ctx path fun target => fileResize target size)

/-- `nextufs_path_pwrite`. -/
def pathPwrite (ctx : WriteCtx) (path data : List UInt8) (offset : Nat) :
    Volume → Status × Volume :=
  mutation ctx (do
      argStatus (if offset > SIZE_MAX ∨ data.length > SIZE_MAX - offset then some .EFBIG else none)
      argStatus (requireCtxIdsFit ctx)) fun _ =>
    onFs (changeFileBody ctx path fun target => fileWrite target data offset)

/-- `nextufs_path_mknod`. -/
def pathMknod (ctx : WriteCtx) (path : List UInt8) (mode : UInt16) (rdev : Nat) :
    Volume → Status × Volume :=
  let ifmt := mode &&& NEXTUFS_IFMT
  mutation ctx (do
      argStatus (if ctx.user ∧ ctx.uid ≠ 0 ∧ ifmt ∉ [NEXTUFS_IFREG, NEXTUFS_IFIFO] then some .EPERM
        else none)
      argStatus (if ifmt ∉ [NEXTUFS_IFREG, NEXTUFS_IFIFO, NEXTUFS_IFCHR, NEXTUFS_IFBLK,
        NEXTUFS_IFSOCK] then some .EINVAL else none)
      entryArgs ctx path disallowDotNames) fun a =>
    mknodBody ctx a.1 a.2 path mode rdev

/-- `nextufs_path_rename`. -/
def pathRename (ctx : WriteCtx) (source_path target_path : List UInt8) :
    Volume → Status × Volume :=
  mutation ctx (do
      let old ← entryArgs ctx source_path disallowDotNames
      let new ← entryArgs ctx target_path disallowTargetDotNames
      return (old, new)) fun a =>
    renameBody ctx source_path a.1.1 a.1.2 target_path a.2.1 a.2.2

/-- `nextufs_path_chmod`. -/
def pathChmod (ctx : WriteCtx) (path : List UInt8) (mode : UInt16) : Volume → Status × Volume :=
  mutation ctx (argStatus (requireCtxIdsFit ctx)) fun _ => onFs (chmodBody ctx path mode)

/-- `nextufs_path_chown`. -/
def pathChown (ctx : WriteCtx) (path : List UInt8) (uid gid : Nat) : Volume → Status × Volume :=
  mutation ctx (do
      argStatus (requireCtxIdsFit ctx)
      argStatus (requireOwnerIdsFit uid gid)) fun _ => onFs (chownBody ctx path uid gid)

/-- `nextufs_path_utimes`. -/
def pathUtimes (ctx : WriteCtx) (path : List UInt8) : Volume → Status × Volume :=
  mutation ctx (argStatus (requireCtxIdsFit ctx)) fun _ => onFs (utimesBody ctx path)

/-- `nextufs__opened_file_update`. -/
def openedFileUpdate (ctx : WriteCtx) (ino : Nat) (gen : UInt32) (data : List UInt8)
    (offset : Nat) (truncate : Bool) : Volume → Status × Volume :=
  mutation ctx (.ok () : Except Errno Unit) fun _ =>
    onFs (openedFileBody ino gen data offset truncate)

end NextUfs.Mutate
