/-
NextUfs.Fsck.InodeScan — the blocks of an inode as fsck walks them: `ckinode`,
`iblock` and `outrange` of `src/fsck/inode_scan.c`, with `dofix`, `pwarn`,
`pfatal` and `reply` of `src/fsck/operator.c` for an address check.

`Checker` is what the passes share, as far as the first pass uses it. A block
number is the 32-bit word of the pointer, negative from 2^31 on. A block is
read at `dbtob` of its address, so from 4 GiB on it is another block that is
read. No read fails; `debug` is not set.
-/
import NextUfs.Fsck.Pass5
import NextUfs.Lib.StateResult

namespace NextUfs.Fsck

open NextUfs.Core NextUfs.Lib NextUfs.Lib.ByteStore NextUfs.Lib.StateResult

/-! ## What the passes share -/

/-- Maps and lists of a check, and the fields of `idesc` that change. -/
structure Checker where
  /-- The bytes of the slice. -/
  disk : ByteStore
  blockmap : Nat → Bool
  statemap : Nat → Nat
  /-- `lncntp`. -/
  lncnt : Nat → UInt16
  /-- `zlnhead`. -/
  zln : List Nat
  /-- `duplist` up to `muldup`. -/
  dups : List Nat
  /-- `duplist` behind `muldup`. -/
  more : List Nat
  nFiles : Nat
  nBlks : Nat
  lastino : Nat
  badblk : Nat
  dupblk : Nat
  idFix : FixState
  idEntryno : Nat
  /-- What was printed, with the inode it is about. -/
  log : List (Nat × String)
  /-- The questions asked. -/
  asked : Nat

/-- A step of a check; it may give up with a message. -/
abbrev CheckM := EStateM String Checker

/-- The operator: the `preen` flag, and the answer to each question in turn. -/
structure Operator where
  preen : Bool
  reply : Nat → Bool

/-- `pwarn`, about an inode. -/
def pwarn (ino : Nat) (msg : String) : CheckM PUnit :=
  modify fun s => { s with log := s.log ++ [(ino, msg)] }

/-- `pfatal`, about an inode. -/
def pfatal (op : Operator) (ino : Nat) (msg : String) : CheckM PUnit := do
  pwarn ino msg
  if op.preen then throw "UNEXPECTED INCONSISTENCY; RUN fsck MANUALLY." else pure ⟨⟩

/-- `reply`. -/
def reply (op : Operator) (ino : Nat) (question : String) : CheckM Bool := do
  if op.preen then pfatal op ino "INTERNAL ERROR: GOT TO reply()" else pure ⟨⟩
  pwarn ino question
  let s ← get
  modify fun s => { s with asked := s.asked + 1 }
  return op.reply s.asked

/-- `dofix`, in an address check of an inode. -/
def dofixAddr (op : Operator) (ino : Nat) (msg : String) : CheckM Bool := do
  let s ← get
  match s.idFix with
  | .dontknow =>
    pwarn ino msg
    let fix ← if op.preen then pure true else reply op ino "SALVAGE"
    modify fun s => { s with idFix := if fix then .fix else .nofix }
    return fix
  | .fix => return true
  | .nofix => return false

/-! ## Geometry -/

/-- `cgsblock`. -/
def cgsblock (sb : Superblock) (c : Nat) : Nat := cgstart sb c + sb.sbOff

/-- `cgimin`. -/
def cgimin (sb : Superblock) (c : Nat) : Nat := cgstart sb c + sb.inoOff

/-- `cgdmin`. -/
def cgdmin (sb : Superblock) (c : Nat) : Nat := cgstart sb c + sb.dataOff

/-- `blkoff`. -/
def blkoff (sb : Superblock) (loc : Nat) : Nat := loc &&& not32 sb.blockMask

/-- `fragroundup`. -/
def fragroundup (sb : Superblock) (size : Nat) : Nat := (size + sb.fragSize - 1) &&& sb.fragMask

/-- `numfrags`. -/
def numfrags (sb : Superblock) (loc : Nat) : Nat := loc >>> sb.fragShiftCalc

/-- `outrange`. -/
def outrange (sb : Superblock) (blk cnt : Nat) : Bool :=
  if blk ≥ 2147483648 ∨ cnt = 0 ∨ blk + cnt > sb.fragCount then true
  else
    let c := blk / sb.fragsPerGroup
    if blk < cgdmin sb c then decide (blk + cnt > cgsblock sb c)
    else decide (blk + cnt > sb.fragsPerGroup * (c + 1))

/-! ## Inodes -/

def IFMT : UInt16 := 0o170000
def IFDIR : UInt16 := 0o040000
def IFCHR : UInt16 := 0o020000
def IFBLK : UInt16 := 0o060000
def IFREG : UInt16 := 0o100000
def IFLNK : UInt16 := 0o120000
def IFSOCK : UInt16 := 0o140000
def IFIFO : UInt16 := 0o010000

def NDADDR : Nat := 12
def NIADDR : Nat := 3

/-- `SPECIAL`. -/
def SPECIAL (dp : Inode) : Prop := dp.mode &&& IFMT = IFBLK ∨ dp.mode &&& IFMT = IFCHR

instance (dp : Inode) : Decidable (SPECIAL dp) := by
  unfold SPECIAL
  infer_instance

/-- `di_size`: the low word of the size, signed. -/
def diSize (dp : Inode) : Int := (UInt32.ofNat dp.size).toInt32.toInt

/-! ## The walk -/

def KEEPON : Nat := 4
def SKIP : Nat := 2
def STOP : Nat := 1

/-- `DATA` and `ADDR`. -/
inductive IdType where
  | data
  | addr
  deriving DecidableEq, Repr

/-- The fields of `struct inodesc` a walk does not change. In an address check `func` is
`id_func`, otherwise `dirscan`; it gets `id_blkno` and `id_numfrags`. -/
structure Inodesc where
  number : Nat
  type : IdType
  /-- `id_func` is `pass1check`. -/
  isPass1check : Bool
  func : Nat → Nat → CheckM Nat

/-- `visit` for `i, i + 1, …`, `n` times, until one returns `STOP`. -/
def scan (visit : Nat → CheckM Nat) : Nat → Nat → CheckM Nat
  | 0, _ => return KEEPON
  | n + 1, i => do
    let ret ← visit i
    if ret &&& STOP ≠ 0 then return ret else scan visit n (i + 1)

/-- The buffer of an indirect block, from where `getblk` reads it. -/
def getIndir (sb : Superblock) (disk : ByteStore) (blk : Nat) : ByteStore :=
  fun i => disk (dbtob (fsbtodb sb blk) + i)

section
variable (op : Operator) (sb : Superblock) (id : Inodesc)

/-- Pointers past the end of the file, `n` to go from entry `i`: the buffer, and whether it is
dirty. -/
def clearPast : Nat → Nat → ByteStore → CheckM (ByteStore × Bool)
  | 0, _, ib => return (ib, false)
  | n + 1, i, ib =>
    if be32 ib (i * 4) = 0 then clearPast n (i + 1) ib
    else do
      let fix ← dofixAddr op id.number ("PARTIALLY TRUNCATED INODE I=" ++ toString id.number)
      let (ib, dirty) ← clearPast n (i + 1) (if fix then setBe32 ib (i * 4) 0 else ib)
      return (ib, dirty || fix)

/-- `nif`: the entries of an indirect block that lie in the file, each of `sizepb` bytes. -/
def entriesInside (isize : Int) (sizepb : Nat) : Nat :=
  min (if isize ≤ 0 then 0 else ((isize - 1) / sizepb + 1).toNat) sb.nindir

/-- The check of those pointers in `pass1`, and `flush`: the buffer it leaves. -/
def checkPast (blk nif : Nat) (ib : ByteStore) : CheckM ByteStore :=
  if id.isPass1check ∧ nif < sb.nindir then do
    let (ib, dirty) ← clearPast op id (sb.nindir - nif) nif ib
    if dirty then
      modify fun s => { s with disk := patch s.disk (dbtob (fsbtodb sb blk)) sb.blockSize ib }
    else pure ⟨⟩
    return ib
  else return ib

/-- The body of `iblock`; `visit` is what becomes of an entry that is not null. -/
def indirectBlock (sizepb : Nat) (visit : Nat → Nat → CheckM Nat) (blk : Nat) (isize : Int) :
    CheckM Nat := do
  let n ← match id.type with
    | .addr => id.func blk sb.fragsPerBlock
    | .data => pure KEEPON
  if n &&& KEEPON = 0 then return n else
  if outrange sb blk sb.fragsPerBlock then return SKIP else do
  let s ← get
  let nif := entriesInside sb isize sizepb
  let ib ← checkPast op sb id blk nif (getIndir sb s.disk blk)
  scan (fun i => if be32 ib (i * 4) = 0 then return KEEPON else visit i (be32 ib (i * 4))) nif 0

/-- `iblock`, at level `below + 1`. -/
def iblock : (below blk : Nat) → (isize : Int) → CheckM Nat
  | 0, blk, isize =>
    indirectBlock op sb id sb.blockSize (fun _ p => id.func p sb.fragsPerBlock) blk isize
  | below + 1, blk, isize =>
    let sizepb := sb.blockSize * sb.nindir ^ (below + 1)
    indirectBlock op sb id sizepb (fun i p => iblock below p (isize - i * sizepb)) blk isize

/-- `id_numfrags` of direct block `k`: `ndb` has been counted down `k + 1` times. -/
def directFrags (dp : Inode) (k : Nat) : Nat :=
  let ndb := (diSize dp + (sb.blockSize - 1)).tdiv sb.blockSize
  let offset := blkoff sb (dp.size % 4294967296)
  if ndb - (k + 1) = 0 ∧ offset ≠ 0 then numfrags sb (fragroundup sb offset) else sb.fragsPerBlock

/-- `remaining` at indirect slot `s`; `span` is the size of the slot before. -/
def slotSize (dp : Inode) : Nat → Int
  | 0 => diSize dp - sb.blockSize * NDADDR
  | s + 1 => slotSize dp s - sb.blockSize * sb.nindir ^ (s + 1)

/-- `ckinode`. -/
def ckinode (dp : Inode) : CheckM Nat := do
  modify fun s => { s with idFix := .dontknow, idEntryno := 0 }
  if SPECIAL dp then return KEEPON else do
  let ret ← scan (fun k => if dp.db k = 0 then return KEEPON
    else id.func (dp.db k) (directFrags sb dp k)) NDADDR 0
  if ret &&& STOP ≠ 0 then return ret else
  scan (fun s => if dp.ib s = 0 then return KEEPON
    else iblock op sb id s (dp.ib s) (slotSize sb dp s)) NIADDR 0

end

end NextUfs.Fsck
