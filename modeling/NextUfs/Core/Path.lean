/-
NextUfs.Core.Path — names and paths: `src/core/path.c`, the access check of
`src/core/node.c`, the reader of a symbolic link in `src/core/image.c` and
`nextufs__path_split` of `src/core/layout.c`.

A path is the list of its bytes, without the NUL. The loop over the segments
of a path either arrives or, at a symbolic link, ends with the path the lookup
starts over with; `lookupPathRecursive` counts the lookups that are left, one
more than the links that may still be expanded.
-/
import NextUfs.Core.Directory

namespace NextUfs.Core

open NextUfs.Lib NextUfs.Lib.ByteStore NextUfs.Lib.StateResult

def NEXTUFS_ROOT_INODE : Nat := 2
def NEXTUFS_MAX_LOOKUP_DEPTH : Nat := 16
def NEXTUFS_MAX_PATH_LEN : Nat := 4096
def NEXTUFS_IC_FASTLINK : UInt32 := 1

/-- The byte `/`. -/
def SLASH : UInt8 := 0x2f

/-- A status as a step of a call. -/
def ofStatus : Status → FsM PUnit
  | none => return ⟨⟩
  | some e => throw e

/-! ## Access -/

/-- `nextufs_node_is_dir`. -/
def Inode.isDir (ino : Inode) : Prop := ino.mode &&& 0o170000 = 0o040000

/-- `nextufs_node_is_lnk`. -/
def Inode.isLnk (ino : Inode) : Prop := ino.mode &&& 0o170000 = 0o120000

instance (ino : Inode) : Decidable ino.isDir := by
  unfold Inode.isDir
  infer_instance

instance (ino : Inode) : Decidable ino.isLnk := by
  unfold Inode.isLnk
  infer_instance

/-- `struct nextufs_write_ctx`, without its session; `user` is the policy `NEXTUFS_WRITE_USER`. -/
structure WriteCtx where
  user : Bool
  uid : Nat
  gid : Nat
  groups : List Nat
  deriving Repr

def R_OK : UInt16 := 4
def W_OK : UInt16 := 2
def X_OK : UInt16 := 1

/-- The permission bits of `nextufs__node_check_access` that apply to a caller. -/
def permsFor (ino : Inode) (uid gid : Nat) (groups : List Nat) : UInt16 :=
  if uid = ino.uid.toNat then (ino.mode >>> 6) &&& 7
  else if gid = ino.gid.toNat ∨ ino.gid.toNat ∈ groups then (ino.mode >>> 3) &&& 7
  else ino.mode &&& 7

/-- `nextufs__node_check_access`. -/
def nodeCheckAccess (ino : Inode) (uid gid : Nat) (groups : List Nat) (mask : UInt16)
    (allow_write : Bool) : Status :=
  if allow_write = false ∧ mask &&& W_OK ≠ 0 then some .EROFS
  else if mask = 0 then none
  else if uid = 0 then
    if mask &&& X_OK ≠ 0 ∧ ino.mode &&& 0o111 = 0 then some .EACCES else none
  else
    let bits := mask &&& (R_OK ||| W_OK ||| X_OK)
    if permsFor ino uid gid groups &&& bits ≠ bits then some .EACCES else none

/-- The search permission the lookup asks for in a directory. -/
def searchAccess (ctx : Option WriteCtx) (ino : Inode) : Status :=
  match ctx with
  | none => none
  | some ctx => if ctx.user then nodeCheckAccess ino ctx.uid ctx.gid ctx.groups X_OK true else none

/-! ## Reading a symbolic link -/

/-- The sixty bytes of an inode's block pointers. -/
def inlineRaw (ino : Inode) : List UInt8 :=
  (List.range 12).flatMap (fun i => slice (beBytes 4 (ino.db i)) 0 4) ++
    (List.range 3).flatMap fun i => slice (beBytes 4 (ino.ib i)) 0 4

/-- `decode_inline_symlink`: the bytes it puts before the NUL. -/
def decodeInlineSymlink (ino : Inode) (out_size : Nat) : List UInt8 :=
  if ¬ ino.isLnk ∨ ino.flags &&& NEXTUFS_IC_FASTLINK = 0 ∨ ino.size = 0 ∨ ino.size > 60 ∨
      out_size = 0 then []
  else (inlineRaw ino).take (if ino.size ≥ out_size then out_size - 1 else ino.size)

/-- `nextufs_inode_readlink`: the bytes it puts before the NUL. -/
def inodeReadlink (ino : Inode) (out_size : Nat) : FsM (List UInt8) := do
  check (ino.isLnk ∧ out_size ≠ 0) .EINVAL
  let got := decodeInlineSymlink ino out_size
  if got ≠ [] then return got
  else failAs Errno.EIO (inodeReadData ino 0 (out_size - 1))

/-! ## Looking a path up -/

/-- The string a buffer holds. -/
def cString (bytes : List UInt8) : List UInt8 := bytes.takeWhile (· ≠ 0)

/-- `strsep` at the slashes: the segment, and the rest behind the slash if there is one. -/
def strsep : List UInt8 → List UInt8 × Option (List UInt8)
  | [] => ([], none)
  | c :: s => if c = SLASH then ([], some s) else (c :: (strsep s).1, (strsep s).2)

/-- `append_path_component`. -/
def appendPathComponent (path component : List UInt8) : Option (List UInt8) :=
  let tmp := if path = [SLASH] ∨ path = [] then SLASH :: component else path ++ SLASH :: component
  if tmp.length ≥ NEXTUFS_MAX_PATH_LEN then none else some tmp

/-- `nextufs__find_name_in_directory`: the inode number, 0 when there is no such name. -/
def findNameInDirectory (dirino : Inode) (target_name : List UInt8) : FsM Nat := do
  let (target_inode, _) ← directoryIterate
    (fun ino name target => if name = target_name then (ino, true) else (target, false)) dirino 0
  return target_inode

/-- The path a lookup goes on with at a link in the directory `pre`. -/
def splicePath (pre link_target remainder : List UInt8) : List UInt8 :=
  (if link_target.head? = some SLASH then link_target else pre ++ SLASH :: link_target) ++
    if remainder = [] then [] else SLASH :: remainder

/-- The loop of `lookup_path_recursive`: at `node`, whose path is `pre`, with `cursor` to go. It
arrives at a node, or ends at a link with the path to start over with. A turn takes a byte of the
cursor at least, or its end. -/
def lookupSegments (ctx : Option WriteCtx) (follow : Bool) :
    Nat → List UInt8 → Node → Option (List UInt8) → FsM (Node ⊕ List UInt8)
  | 0, _, node, _ => return .inl node
  | _ + 1, _, node, none => return .inl node
  | fuel + 1, pre, node, some s => do
    let segment := (strsep s).1
    let cursor := (strsep s).2
    if segment = [] then lookupSegments ctx follow fuel pre node cursor else do
    check node.inode.isDir .ENOTDIR
    ofStatus (searchAccess ctx node.inode)
    let next_inode_no ← failAs Errno.EIO (findNameInDirectory node.inode segment)
    check (next_inode_no ≠ 0) .ENOENT
    let inode ← failAs Errno.EIO (inodeRead next_inode_no)
    let remainder := cursor.getD []
    check (remainder.length < NEXTUFS_MAX_PATH_LEN) .ENAMETOOLONG
    if inode.isLnk ∧ (remainder = [] → follow = true) then do
      let link_target ← failAs Errno.EIO (inodeReadlink inode NEXTUFS_MAX_PATH_LEN)
      let new_path := splicePath pre (cString link_target) remainder
      check (new_path.length < NEXTUFS_MAX_PATH_LEN) .ENAMETOOLONG
      return .inr new_path
    else
      match appendPathComponent pre segment with
      | none => throw .ENAMETOOLONG
      | some pre => lookupSegments ctx follow fuel pre ⟨next_inode_no, inode⟩ cursor

/-- `lookup_path_recursive`, with so many lookups left. -/
def lookupPathRecursive (ctx : Option WriteCtx) (follow : Bool) : Nat → List UInt8 → FsM Node
  | 0, _ => throw .ELOOP
  | left + 1, path => do
    let root ← failAs Errno.EIO (nodeGetByInode NEXTUFS_ROOT_INODE)
    let path := path.dropWhile (· = SLASH)
    if path = [] then return root else do
    match ← lookupSegments ctx follow (path.length + 2) [SLASH] root (some path) with
    | .inl node => return node
    | .inr new_path => lookupPathRecursive ctx follow left new_path

/-- `nextufs_path_lookup`. -/
def pathLookup (path : List UInt8) : FsM Node :=
  lookupPathRecursive none true (NEXTUFS_MAX_LOOKUP_DEPTH + 1) path

/-- `nextufs_path_lookup_nofollow`. -/
def pathLookupNofollow (path : List UInt8) : FsM Node :=
  lookupPathRecursive none false (NEXTUFS_MAX_LOOKUP_DEPTH + 1) path

/-- `nextufs_node_lookup_as`. -/
def nodeLookupAs (ctx : WriteCtx) (path : List UInt8) (follow : Bool) : FsM Node :=
  lookupPathRecursive (some ctx) follow (NEXTUFS_MAX_LOOKUP_DEPTH + 1) path

/-! ## Splitting a path -/

/-- `nextufs__path_split`, into buffers of these sizes. -/
def pathSplit (path : List UInt8) (parent_size name_size : Nat) :
    Except Errno (List UInt8 × List UInt8) :=
  if path.head? ≠ some SLASH then .error .EINVAL else
  let name := (path.reverse.takeWhile (· ≠ SLASH)).reverse
  let parent := path.take (path.length - name.length - 1)
  if name = [] then .error .EINVAL
  else if name.length ≥ name_size then .error .ENAMETOOLONG
  else if parent = [] then
    if parent_size < 2 then .error .ENAMETOOLONG else .ok ([SLASH], name)
  else if parent.length + 1 > parent_size then .error .ENAMETOOLONG
  else .ok (parent, name)

end NextUfs.Core
