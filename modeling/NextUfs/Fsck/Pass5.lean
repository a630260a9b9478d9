/-
NextUfs.Fsck.Pass5 — rebuilding the cylinder groups: `src/fsck/pass5.c`.

The group is rebuilt as a `CgBlock` and compared with the one in the buffer, the
maps first. The summary table and the superblock are the copies in memory, the
table seen through its two levels. `time(&now)` and the operator's reply are
parameters; `log` is what was printed. `preen` is not set, and no read fails.
-/
import NextUfs.Fsck.CgBlock
import NextUfs.Fsck.FragSupport

namespace NextUfs.Fsck

open NextUfs.Core NextUfs.Lib

/-! ## States of inodes -/

def USTATE : Nat := 1
def FSTATE : Nat := 2
def DSTATE : Nat := 3
def DFOUND : Nat := 4
def DCLEAR : Nat := 5
def FCLEAR : Nat := 6

def ROOTINO : Nat := 2

/-! ## Comparing and copying -/

/-- `bcmp(newcg->cg_iused, cgrp.cg_iused, mapsize) == 0`. -/
def sameMaps (sb : Superblock) (newcg cgrp : CgBlock) : Prop :=
  (∀ i < MAXIPG, newcg.iused i = cgrp.iused i) ∧ newcg.magic = cgrp.magic ∧
    ∀ i < mapBits sb, newcg.free i = cgrp.free i

instance (sb : Superblock) (newcg cgrp : CgBlock) : Decidable (sameMaps sb newcg cgrp) := by
  unfold sameMaps
  infer_instance

/-- `bcopy(newcg->cg_iused, cgrp.cg_iused, mapsize)`. -/
def copyMaps (sb : Superblock) (newcg cgrp : CgBlock) : CgBlock :=
  { cgrp with
    iused := fun i => if i < MAXIPG then newcg.iused i else cgrp.iused i
    magic := newcg.magic
    free := fun i => if i < mapBits sb then newcg.free i else cgrp.free i }

/-- The words and halfwords of the arrays in front of the maps are equal. -/
def sameArrays (newcg cgrp : CgBlock) : Prop :=
  (∀ i < 8, newcg.frsum i = cgrp.frsum i) ∧ (∀ i < 32, newcg.btot i = cgrp.btot i) ∧
    ∀ i < 32, ∀ j < NRPOS, newcg.b i j = cgrp.b i j

/-- `bcmp((char *)newcg, (char *)&cgrp, sumsize) == 0`: everything in front of the maps. -/
def sameHeader (newcg cgrp : CgBlock) : Prop :=
  newcg.link = cgrp.link ∧ newcg.rlink = cgrp.rlink ∧ newcg.time = cgrp.time ∧
    newcg.cgx = cgrp.cgx ∧ newcg.ncyl = cgrp.ncyl ∧ newcg.niblk = cgrp.niblk ∧
    newcg.ndblk = cgrp.ndblk ∧ newcg.cs = cgrp.cs ∧ newcg.rotor = cgrp.rotor ∧
    newcg.frotor = cgrp.frotor ∧ newcg.irotor = cgrp.irotor ∧ sameArrays newcg cgrp

instance (newcg cgrp : CgBlock) : Decidable (sameHeader newcg cgrp) := by
  unfold sameHeader sameArrays
  infer_instance

/-- `bcopy((char *)newcg, (char *)&cgrp, sumsize)`. -/
def copyHeader (newcg cgrp : CgBlock) : CgBlock :=
  { newcg with
    frsum := fun i => if i < 8 then newcg.frsum i else cgrp.frsum i
    btot := fun i => if i < 32 then newcg.btot i else cgrp.btot i
    b := fun i j => if i < 32 ∧ j < NRPOS then newcg.b i j else cgrp.b i j
    iused := cgrp.iused, magic := cgrp.magic, free := cgrp.free }

/-! ## Rebuilding a group -/

/-- `cbtocylno`. -/
def cbtocylno (sb : Superblock) (bno : Nat) : Nat := bno * sb.sectorsPerFrag / sb.sectorsPerCyl

/-- `cbtorpos`; `fs_nsect` is an `int32_t`, so the index is negative where that is. -/
def cbtorpos (sb : Superblock) (bno : Nat) : Int :=
  let fs_nsect := (Int32.ofNat sb.sectorsPerTrack).toInt
  (((bno * sb.sectorsPerFrag % sb.sectorsPerCyl : Nat) : Int).tmod fs_nsect * NRPOS).tdiv fs_nsect

/-- `blkmap`. -/
def blkmap (fs_frag : Nat) (map : Nat → Bool) (loc : Nat) : Nat :=
  (mapByte map (loc / 8) >>> (loc % 8)) &&& (0xff >>> (8 - fs_frag))

/-- What the fields in front of the maps are set to before counting. -/
def freshCg (sb : Superblock) (now : Int) (c : Nat) (cgrp : CgBlock) : CgBlock :=
  let dbase := c * sb.fragsPerGroup
  let dmax := min (dbase + sb.fragsPerGroup) sb.fragCount
  let ndblk := Int32.ofNat (dmax - dbase)
  let niblk := Int16.ofNat sb.inodesPerGroup
  { time := if now > cgrp.time.toInt then cgrp.time else Int32.ofInt now
    cgx := Int32.ofNat c
    ncyl := Int16.ofNat (if c = sb.cgCount - 1 then sb.ncyl % sb.cpg else sb.cpg)
    niblk := niblk
    ndblk := ndblk
    cs := { nifree := UInt32.ofNat sb.inodesPerGroup }
    rotor := if cgrp.rotor < ndblk then cgrp.rotor else 0
    frotor := if cgrp.frotor < ndblk then cgrp.frotor else 0
    irotor := if cgrp.irotor.toInt < niblk.toInt then cgrp.irotor else 0
    magic := UInt32.ofNat CG_MAGIC }

/-- An inode in use, a directory or not. -/
def CgBlock.useInode (cg : CgBlock) (i : Nat) (dir : Bool) : CgBlock :=
  { cg with
    cs := { cg.cs with
      ndir := if dir then cg.cs.ndir + 1 else cg.cs.ndir, nifree := cg.cs.nifree - 1 }
    iused := Function.update cg.iused i true }

/-- The body of the loop over the group's inodes. -/
def inodeStep (sb : Superblock) (statemap : Nat → Nat) (c i : Nat) (cg : CgBlock) :
    Except String CgBlock :=
  let j := sb.inodesPerGroup * c + i
  let state := statemap j
  if state = USTATE then .ok cg
  else if state = DSTATE ∨ state = DCLEAR ∨ state = DFOUND then .ok (cg.useInode i true)
  else if state = FSTATE ∨ state = FCLEAR then .ok (cg.useInode i false)
  else if j < ROOTINO then .ok cg
  else .error ("BAD STATE " ++ toString state ++ " FOR INODE I=" ++ toString j)

/-- The first `n` turns of that loop. -/
def inodeLoop (sb : Superblock) (statemap : Nat → Nat) (c : Nat) (cg : CgBlock) :
    Nat → Except String CgBlock
  | 0 => .ok cg
  | n + 1 => do
    let cg ← inodeLoop sb statemap c cg n
    inodeStep sb statemap c n cg

/-- The inodes below the root, in the first group. -/
def reservedInodes (cg : CgBlock) : Nat → CgBlock
  | 0 => cg
  | i + 1 =>
    let cg := reservedInodes cg i
    { cg with
      iused := Function.update cg.iused i true, cs := { cg.cs with nifree := cg.cs.nifree - 1 } }

/-- The loop over `n` fragments from `d`, bits from `i`: the map, and how many are free. -/
def freeFrags (blockmap : Nat → Bool) (d i : Nat) (free : Nat → Bool) : Nat → (Nat → Bool) × Nat
  | 0 => (free, 0)
  | j + 1 =>
    let (free, frags) := freeFrags blockmap d i free j
    if blockmap (d + j) then (free, frags) else (Function.update free (i + j) true, frags + 1)

/-- The body of the loop over the whole blocks, for block `k`. -/
def blockStep (sb : Superblock) (blockmap : Nat → Bool) (dbase k : Nat) (cg : CgBlock) : CgBlock :=
  let i := k * sb.fragsPerBlock
  let (free, frags) := freeFrags blockmap (dbase + i) i cg.free sb.fragsPerBlock
  let cg := { cg with free := free }
  if frags = sb.fragsPerBlock then
    let j := cbtocylno sb i
    { cg with
      cs := { cg.cs with nbfree := cg.cs.nbfree + 1 }
      btot := Function.update cg.btot j (cg.btot j + 1)
      b := match cbtorpos sb i with
        | .ofNat rpos => Function.update cg.b j (Function.update (cg.b j) rpos (cg.b j rpos + 1))
        -- an index in front of the row: what lies there is not followed
        | .negSucc _ => cg.b }
  else if 0 < frags then
    { cg with
      cs := { cg.cs with nffree := cg.cs.nffree + UInt32.ofNat frags }
      frsum := fragacct sb.fragsPerBlock (blkmap sb.fragsPerBlock free i) cg.frsum 1 }
  else cg

/-- The first `n` turns of that loop. -/
def blockLoop (sb : Superblock) (blockmap : Nat → Bool) (dbase : Nat) (cg : CgBlock) :
    Nat → CgBlock
  | 0 => cg
  | k + 1 => blockStep sb blockmap dbase k (blockLoop sb blockmap dbase cg k)

/-- The fragments behind the last whole block. -/
def tailFrags (sb : Superblock) (blockmap : Nat → Bool) (dbase ndblk : Nat) (cg : CgBlock) :
    CgBlock :=
  let i := ndblk / sb.fragsPerBlock * sb.fragsPerBlock
  let (free, frags) := freeFrags blockmap (dbase + i) i cg.free (ndblk - i)
  let cg := { cg with
    free := free, cs := { cg.cs with nffree := cg.cs.nffree + UInt32.ofNat frags } }
  if ndblk - i ≠ 0 then
    { cg with frsum := fragacct sb.fragsPerBlock (blkmap sb.fragsPerBlock free i) cg.frsum 1 }
  else cg

/-- `newcg`, when all of group `c` is counted. -/
def countedCg (sb : Superblock) (blockmap : Nat → Bool) (statemap : Nat → Nat) (now : Int) (c : Nat)
    (cgrp : CgBlock) : Except String CgBlock := do
  let dbase := c * sb.fragsPerGroup
  let dmax := min (dbase + sb.fragsPerGroup) sb.fragCount
  let ndblk := dmax - dbase
  let cg ← inodeLoop sb statemap c (freshCg sb now c cgrp) sb.inodesPerGroup
  let cg := if c = 0 then reservedInodes cg ROOTINO else cg
  let cg := blockLoop sb blockmap dbase cg (ndblk / sb.fragsPerBlock)
  return tailFrags sb blockmap dbase ndblk cg

/-! ## The pass -/

/-- `enum fixstate`. -/
inductive FixState where
  | dontknow
  | nofix
  | fix
  deriving DecidableEq, Repr

/-- What the pass reads and writes. -/
structure Pass5 where
  /-- The bytes of the slice. -/
  disk : ByteStore
  csum : Nat → Csum
  cstotal : Csum
  ronly : UInt8
  fmod : UInt8
  idFix : FixState
  log : List String

/-- `cgrp`, the block `getblk` brings in for group `c`. -/
def Pass5.cgrp (sb : Superblock) (c : Nat) (s : Pass5) : CgBlock := loadCg sb s.disk (cgDevice sb c)

/-- `cgrp` is changed and `cgdirty()` called. -/
def Pass5.putCg (sb : Superblock) (c : Nat) (cg : CgBlock) (s : Pass5) : Pass5 :=
  { s with disk := storeCg sb (cgDevice sb c) cg s.disk }

/-- `dofix`, for an address check: whether to fix, asked once. -/
def dofix (yes : Bool) (msg : String) (s : Pass5) : Bool × Pass5 :=
  match s.idFix with
  | .dontknow =>
    (yes, { s with idFix := if yes then .fix else .nofix, log := s.log ++ [msg] })
  | .fix => (true, s)
  | .nofix => (false, s)

/-- A repair, if the operator wants it. -/
def repair (yes : Bool) (msg : String) (wrong : Prop) [Decidable wrong] (fixed : Pass5 → Pass5)
    (s : Pass5) : Pass5 :=
  if wrong then
    match dofix yes msg s with
    | (true, s) => fixed s
    | (false, s) => s
  else s

/-- The body of the loop over the groups; also what it adds to `cstotal`. -/
def groupStep (sb : Superblock) (blockmap : Nat → Bool) (statemap : Nat → Nat) (now : Int)
    (yes : Bool) (c : Nat) (s : Pass5) : Except String (Pass5 × Csum) := do
  let cgrp := s.cgrp sb c
  let s := if cgrp.magic ≠ UInt32.ofNat CG_MAGIC then
    { s with log := s.log ++ ["CG " ++ toString c ++ ": BAD MAGIC NUMBER\n"] } else s
  let newcg ← countedCg sb blockmap statemap now c cgrp
  let s := repair yes "BLK(S) MISSING IN BIT MAPS" (¬ sameMaps sb newcg cgrp)
    (fun s => s.putCg sb c (copyMaps sb newcg (s.cgrp sb c))) s
  let s := repair yes "SUMMARY INFORMATION BAD" (¬ sameHeader newcg (s.cgrp sb c))
    (fun s => s.putCg sb c (copyHeader newcg (s.cgrp sb c))) s
  let s := repair yes "FREE BLK COUNT(S) WRONG IN SUPERBLK" (newcg.cs ≠ s.csum c)
    (fun s => { s with csum := Function.update s.csum c newcg.cs }) s
  return (s, newcg.cs)

/-- The first `n` turns of that loop, and `cstotal`. -/
def groupLoop (sb : Superblock) (blockmap : Nat → Bool) (statemap : Nat → Nat) (now : Int)
    (yes : Bool) (s : Pass5) : Nat → Except String (Pass5 × Csum)
  | 0 => .ok (s, {})
  | c + 1 => do
    let (s, cstotal) ← groupLoop sb blockmap statemap now yes s c
    let (s, cs) ← groupStep sb blockmap statemap now yes c s
    return (s, cstotal.add cs)

/-- `pass5`. -/
def pass5 (sb : Superblock) (blockmap : Nat → Bool) (statemap : Nat → Nat) (now : Int) (yes : Bool)
    (s : Pass5) : Except String Pass5 := do
  let (s, cstotal) ← groupLoop sb blockmap statemap now yes { s with idFix := .dontknow } sb.cgCount
  return repair yes "FREE BLK COUNT(S) WRONG IN SUPERBLK" (cstotal ≠ s.cstotal)
    (fun s => { s with cstotal := cstotal, ronly := 0, fmod := 0 }) s

end NextUfs.Fsck
