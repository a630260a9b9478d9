/-
NextUfs.Fsck.Pass1 — the first pass: `src/fsck/pass1.c`, with `ginode` of
`src/fsck/inode_scan.c`, `blkerr` and `ftypeok` of `src/fsck/inode_ops.c`.

An inode is read from the 128 bytes of its record, in the order `swap_dinode`
gives them, and a change of it goes to those bytes at once: the pass holds the
block of inodes while it works on one of them. `PAGING_INODES` is not defined,
`FASTLINK` is.
-/
import NextUfs.Fsck.InodeScan

namespace NextUfs.Fsck

open NextUfs.Core NextUfs.Lib NextUfs.Lib.ByteStore NextUfs.Lib.StateResult

/-! ## Inodes -/

/-- The record of an inode, without the times. -/
def decodeInode (buf : ByteStore) (p : Nat) : Inode where
  mode := .ofNat (be16 buf p)
  nlink := .ofNat (be16 buf (p + 2))
  uid := .ofNat (be16 buf (p + 4))
  gid := .ofNat (be16 buf (p + 6))
  size := be64 buf (p + 8)
  db := fun i => if i < NDADDR then be32 buf (p + 40 + i * 4) else 0
  ib := fun i => if i < NIADDR then be32 buf (p + 88 + i * 4) else 0
  flags := .ofNat (be32 buf (p + 100))
  blocks := .ofNat (be32 buf (p + 104))
  gen := .ofNat (be32 buf (p + 108))

/-- `itod`. -/
def itod (sb : Superblock) (x : Nat) : Nat :=
  cgimin sb (x / sb.inodesPerGroup) + (x % sb.inodesPerGroup / sb.inodesPerBlock) <<< sb.fragShift

/-- Where the device puts the record of an inode. -/
def inodeDevice (sb : Superblock) (x : Nat) : Nat :=
  dbtob (fsbtodb sb (itod sb x)) + x % sb.inodesPerBlock * UFS_INODE_SIZE

/-- `ginode`. -/
def ginode (sb : Superblock) (inumber : Nat) : CheckM Inode := do
  if inumber < ROOTINO ∨ inumber > sb.cgCount * sb.inodesPerGroup then
    throw ("bad inode number " ++ toString inumber ++ " to ginode")
  else do
  let s ← get
  return decodeInode s.disk (inodeDevice sb inumber)

/-- A change of the record, and `inodirty()`. -/
def putInode (sb : Superblock) (inumber : Nat) (change : Nat → ByteStore → ByteStore) :
    CheckM PUnit :=
  modify fun s => { s with disk := change (inodeDevice sb inumber) s.disk }

/-- `zapino`. -/
def zapino (p : Nat) (disk : ByteStore) : ByteStore := patch disk p UFS_INODE_SIZE fun _ => 0

def setState (inumber state : Nat) : CheckM PUnit :=
  modify fun s => { s with statemap := Function.update s.statemap inumber state }

/-- `ALLOC`. -/
def ALLOC (dp : Inode) : Prop := dp.mode &&& IFMT ≠ 0

/-- `DIRCT`. -/
def DIRCT (dp : Inode) : Prop := dp.mode &&& IFMT = IFDIR

def IC_FASTLINK : UInt32 := 1

/-- The test of `IC_FASTLINK`. -/
def fastLink (dp : Inode) : Prop := dp.flags &&& IC_FASTLINK ≠ 0

/-- `ftypeok`. -/
def ftypeok (dp : Inode) : Prop :=
  dp.mode &&& IFMT ∈ [IFDIR, IFREG, IFBLK, IFCHR, IFLNK, IFSOCK, IFIFO]

/-- An inode not in use, and nothing left of one. -/
def blank (dp : Inode) : Prop :=
  (∀ i < NDADDR, dp.db i = 0) ∧ (∀ i < NIADDR, dp.ib i = 0) ∧ dp.mode = 0 ∧ diSize dp = 0

instance (dp : Inode) : Decidable (ALLOC dp) := by
  unfold ALLOC
  infer_instance

instance (dp : Inode) : Decidable (DIRCT dp) := by
  unfold DIRCT
  infer_instance

instance (dp : Inode) : Decidable (fastLink dp) := by
  unfold fastLink
  infer_instance

instance (dp : Inode) : Decidable (ftypeok dp) := by
  unfold ftypeok
  infer_instance

instance (dp : Inode) : Decidable (blank dp) := by
  unfold blank
  infer_instance

/-! ## Claiming fragments -/

def MAXDUP : Nat := 10
def MAXBAD : Nat := 10

/-- `blkerr`. -/
def blkerr (op : Operator) (ino : Nat) (what : String) (blk : Nat) : CheckM PUnit := do
  pfatal op ino (toString (UInt32.ofNat blk).toInt32.toInt ++ " " ++ what ++ " I=" ++ toString ino)
  let s ← get
  let state := s.statemap ino
  if state = FSTATE then setState ino FCLEAR
  else if state = DSTATE then setState ino DCLEAR
  else if state = FCLEAR ∨ state = DCLEAR then pure ⟨⟩
  else throw ("BAD STATE " ++ toString state ++ " TO BLKERR")

/-- What is done about an inode with too many bad or duplicate blocks. -/
def excessive (op : Operator) (ino : Nat) (what : String) : CheckM Nat := do
  pwarn ino ("EXCESSIVE " ++ what ++ " BLKS I=" ++ toString ino)
  if op.preen then return STOP else do
  let go ← reply op ino "CONTINUE"
  if go then return STOP else throw ""

/-- A fragment is entered in the list of duplicates: at the end of the first part, or behind it
when the first part holds it. -/
def Checker.addDup (s : Checker) (blkno : Nat) : Checker :=
  if blkno ∈ s.dups then { s with more := blkno :: s.more } else { s with dups := s.dups ++ [blkno] }

/-- The loop of `pass1check`, `nfrags` to go from `blkno`. -/
def claimFrags (op : Operator) (sb : Superblock) (ino : Nat) (anyout : Bool) :
    (nfrags blkno res : Nat) → CheckM Nat
  | 0, _, res => return res
  | nfrags + 1, blkno, res => do
    let s ← get
    if anyout ∧ outrange sb blkno 1 then do
      modify fun s => { s with idEntryno := s.idEntryno + 1 }
      claimFrags op sb ino anyout nfrags (blkno + 1) SKIP
    else if s.blockmap blkno = false then do
      modify fun s => { s with
        nBlks := s.nBlks + 1, blockmap := Function.update s.blockmap blkno true
        idEntryno := s.idEntryno + 1 }
      claimFrags op sb ino anyout nfrags (blkno + 1) res
    else do
      blkerr op ino "DUP" blkno
      modify fun s => { s with dupblk := s.dupblk + 1 }
      let s ← get
      if s.dupblk ≥ MAXDUP then excessive op ino "DUP" else do
      modify fun s => { s.addDup blkno with idEntryno := s.idEntryno + 1 }
      claimFrags op sb ino anyout nfrags (blkno + 1) res

/-- `pass1check`. -/
def pass1check (op : Operator) (sb : Superblock) (ino blkno numfrags : Nat) : CheckM Nat := do
  let anyout := outrange sb blkno numfrags
  if anyout then do
    blkerr op ino "BAD" blkno
    modify fun s => { s with badblk := s.badblk + 1 }
    let s ← get
    if s.badblk ≥ MAXBAD then excessive op ino "BAD"
    else claimFrags op sb ino anyout numfrags blkno KEEPON
  else claimFrags op sb ino anyout numfrags blkno KEEPON

/-! ## The pass -/

/-- `n` bits set from `i`. -/
def setBits (map : Nat → Bool) (i : Nat) : Nat → (Nat → Bool)
  | 0 => map
  | n + 1 => Function.update (setBits map i n) (i + n) true

/-- The reserved fragments of the first `n` groups. -/
def reserve (sb : Superblock) (map : Nat → Bool) : Nat → (Nat → Bool)
  | 0 => map
  | c + 1 =>
    let map := reserve sb map c
    let i := if c = 0 then sb.fragsPerGroup * c else cgsblock sb c
    let cgd := if c = 0 then cgdmin sb c + (sb.csumSize + sb.fragSize - 1) / sb.fragSize
      else cgdmin sb c
    setBits map i (cgd - i)

/-- The loop that counts the slots `ndb` blocks reach into. A turn divides by `nindir`, so `ndb`
turns are enough. -/
def slotsInUse (nindir : Nat) : (fuel : Nat) → (ndb : Nat) → Nat
  | 0, _ => 0
  | fuel + 1, ndb => if ndb = 0 then 0 else slotsInUse nindir fuel (ndb / nindir) + 1

section
variable (op : Operator) (sb : Superblock) (inumber : Nat)

/-- The question of `PARTIALLY ALLOCATED INODE`, and the state of a free inode. -/
def freeInode (dp : Inode) : CheckM PUnit := do
  if ¬ blank dp then
    pfatal op inumber ("PARTIALLY ALLOCATED INODE I=" ++ toString inumber)
    let clear ← reply op inumber "CLEAR"
    if clear then putInode sb inumber zapino else pure ⟨⟩
  else pure ⟨⟩
  setState inumber USTATE

/-- `unknown:`. -/
def unknownInode : CheckM PUnit := do
  pfatal op inumber ("UNKNOWN FILE TYPE I=" ++ toString inumber)
  setState inumber FCLEAR
  let clear ← reply op inumber "CLEAR"
  if clear then do
    setState inumber USTATE
    putInode sb inumber zapino
  else pure ⟨⟩

/-- A fast link that is no link. -/
def badFastLink (dp : Inode) : CheckM PUnit := do
  pwarn inumber "INCONSISTENT FAST SYMLINK (MODE != IFLNK)"
  pfatal op inumber ("INODE I=" ++ toString inumber ++ " FLAGS=0x" ++
    String.ofList (Nat.toDigits 16 dp.flags.toNat) ++ " MODE=0" ++
    String.ofList (Nat.toDigits 8 dp.mode.toNat))
  let clear ← reply op inumber "CLEAR"
  if clear then do
    putInode sb inumber zapino
    setState inumber USTATE
  else setState inumber FCLEAR

/-- The comparison of `di_blocks` with the blocks found. -/
def checkBlockCount (dp : Inode) : CheckM PUnit := do
  let s ← get
  let found := s.idEntryno * sb.sectorsPerFrag
  if dp.blocks ≠ UInt32.ofNat found then do
    pwarn inumber ("INCORRECT BLOCK COUNT I=" ++ toString inumber ++ " (" ++
      toString dp.blocks.toInt32.toInt ++ " should be " ++ toString found ++ ")")
    let correct ← if op.preen then pure true else reply op inumber "CORRECT"
    if correct then putInode sb inumber fun p disk => setBe32 disk (p + 104) found else pure ⟨⟩
  else pure ⟨⟩

/-- What `pass1` passes to `ckinode`. -/
def pass1Desc : Inodesc where
  number := inumber
  type := .addr
  isPass1check := true
  func := pass1check op sb inumber

/-- `CheckType:` and what follows. -/
def checkType (dp : Inode) : CheckM PUnit := do
  if ¬ ftypeok dp then unknownInode op sb inumber else do
  modify fun s => { s with
    nFiles := s.nFiles + 1, lncnt := Function.update s.lncnt inumber dp.nlink
    zln := if dp.nlink.toInt16 ≤ 0 then inumber :: s.zln else s.zln
    statemap := Function.update s.statemap inumber (if DIRCT dp then DSTATE else FSTATE)
    badblk := 0, dupblk := 0 }
  if fastLink dp then return ⟨⟩ else do
  let _ ← ckinode op sb (pass1Desc op sb inumber) dp
  checkBlockCount op sb inumber dp

/-- `ndb`: the blocks the size reaches into, and one for a device's number. -/
def blocksNamed (dp : Inode) : Nat :=
  ((diSize dp + (sb.blockSize - 1)).tdiv sb.blockSize).toNat + if SPECIAL dp then 1 else 0

/-- No pointer past the end: the two loops before `CheckType`. -/
def pointersInside (dp : Inode) : Prop :=
  (∀ j < NDADDR, blocksNamed sb dp ≤ j → dp.db j = 0) ∧
    ∀ j < NIADDR, slotsInUse sb.nindir (blocksNamed sb dp - NDADDR) (blocksNamed sb dp - NDADDR) ≤ j →
      dp.ib j = 0

instance (dp : Inode) : Decidable (pointersInside sb dp) := by
  unfold pointersInside
  infer_instance

/-- `HOLD BAD BLOCK`, and the inode after it. -/
def holdBadBlock (dp : Inode) : CheckM Inode := do
  if op.preen = false ∧ dp.mode &&& IFMT = IFMT then do
    let hold ← reply op inumber "HOLD BAD BLOCK"
    if hold then do
      putInode sb inumber fun p disk =>
        setBe16 (setBe32 disk (p + 12) sb.fragSize) p (IFREG ||| 0o600).toNat
      ginode sb inumber
    else return dp
  else return dp

/-- The body of the loop over the inodes. -/
def pass1Inode : CheckM PUnit := do
  if inumber < ROOTINO then return ⟨⟩ else do
  let dp ← ginode sb inumber
  if ¬ ALLOC dp then freeInode op sb inumber dp else do
  modify fun s => { s with lastino := inumber }
  if diSize dp < 0 ∨ dp.size ≥ 4294967296 then unknownInode op sb inumber else do
  let dp ← holdBadBlock op sb inumber dp
  if fastLink dp then
    if dp.mode &&& IFMT ≠ IFLNK then badFastLink op sb inumber dp else checkType op sb inumber dp
  else if pointersInside sb dp then checkType op sb inumber dp
  else unknownInode op sb inumber

end

/-- The first `n` turns of that loop. -/
def pass1Inodes (op : Operator) (sb : Superblock) : Nat → CheckM PUnit
  | 0 => return ⟨⟩
  | n + 1 => do
    pass1Inodes op sb n
    pass1Inode op sb n

/-- `pass1`, up to inode `n`. -/
def pass1Until (op : Operator) (sb : Superblock) (n : Nat) : CheckM PUnit := do
  modify fun s => { s with blockmap := reserve sb s.blockmap sb.cgCount, nFiles := 0, nBlks := 0 }
  pass1Inodes op sb n

/-- `pass1`. -/
def pass1 (op : Operator) (sb : Superblock) : CheckM PUnit :=
  pass1Until op sb (sb.cgCount * sb.inodesPerGroup)

end NextUfs.Fsck
