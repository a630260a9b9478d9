/-
NextUfs.Fsck.CgBlock — a group's block as fsck holds it, and its bytes:
`struct cg` of `src/fsck/include/ufs/fs.h`, `swap_cgblock` of
`src/fsck/byteorder.c`, `getblk` and `flush` of `src/fsck/buffer.c` for the one
buffer `cgblk`.

`decodeCg` and `CgBlock.byte` are the two directions of the swap. The buffer
holds one block and is written back before another is read, so here a change of
the buffer is stored at once. Blocks are addressed by `dbtob`, as every transfer
of fsck, and from 4 GiB on that is not where they lie.
-/
import NextUfs.Fsck.DeviceTheorems
import NextUfs.Core.GroupBlock
import NextUfs.Core.LayoutTheorems

namespace NextUfs.Fsck

open NextUfs.Core NextUfs.Lib NextUfs.Lib.ByteStore

/-! ## In memory -/

/-- `struct cg`, in memory. -/
structure CgBlock where
  link : UInt32 := 0
  rlink : UInt32 := 0
  time : Int32 := 0
  cgx : Int32 := 0
  ncyl : Int16 := 0
  niblk : Int16 := 0
  ndblk : Int32 := 0
  cs : Csum := {}
  rotor : Int32 := 0
  frotor : Int32 := 0
  irotor : Int32 := 0
  frsum : Nat → UInt32 := fun _ => 0
  btot : Nat → UInt32 := fun _ => 0
  b : Nat → Nat → UInt16 := fun _ _ => 0
  iused : Nat → Bool := fun _ => false
  magic : UInt32 := 0
  free : Nat → Bool := fun _ => false

/-- The bits of the free map the pass clears and compares: those of `howmany(fs_fpg, NBBY)` bytes. -/
def mapBits (sb : Superblock) : Nat := (sb.fragsPerGroup + 7) / 8 * 8

/-- Byte `q` of a map. -/
def mapByte (map : Nat → Bool) (q : Nat) : Nat := Nat.ofBits fun i : Fin 8 => map (q * 8 + i)

/-- Bit `i` of the map at `off`. -/
def mapBit (buf : ByteStore) (off i : Nat) : Bool := (buf (off + i / 8)).toNat.testBit (i % 8)

/-! ## On the disk -/

/-- The block a buffer of the disk's bytes holds. -/
def decodeCg (buf : ByteStore) : CgBlock where
  link := .ofNat (be32 buf 0)
  rlink := .ofNat (be32 buf 4)
  time := (UInt32.ofNat (be32 buf 8)).toInt32
  cgx := (UInt32.ofNat (be32 buf 12)).toInt32
  ncyl := (UInt16.ofNat (be16 buf 16)).toInt16
  niblk := (UInt16.ofNat (be16 buf 18)).toInt16
  ndblk := (UInt32.ofNat (be32 buf CG_NDBLK_OFF)).toInt32
  cs :=
    { ndir := .ofNat (be32 buf CG_CS_NDIR_OFF), nbfree := .ofNat (be32 buf CG_CS_NBFREE_OFF)
      nifree := .ofNat (be32 buf CG_CS_NIFREE_OFF), nffree := .ofNat (be32 buf CG_CS_NFFREE_OFF) }
  rotor := (UInt32.ofNat (be32 buf CG_ROTOR_OFF)).toInt32
  frotor := (UInt32.ofNat (be32 buf 44)).toInt32
  irotor := (UInt32.ofNat (be32 buf CG_IROTOR_OFF)).toInt32
  frsum := fun i => .ofNat (be32 buf (CG_FRSUM_OFF + i * 4))
  btot := fun i => .ofNat (be32 buf (CG_BTOT_OFF + i * 4))
  b := fun i j => .ofNat (be16 buf (CG_BPOS_OFF + (i * NRPOS + j) * 2))
  iused := mapBit buf CG_IUSED_OFF
  magic := .ofNat (be32 buf CG_MAGIC_OFF)
  free := mapBit buf CG_FREE_OFF

/-- The words in front of the arrays. -/
def CgBlock.words (cg : CgBlock) : List Nat :=
  [cg.link.toNat, cg.rlink.toNat, cg.time.toUInt32.toNat, cg.cgx.toUInt32.toNat,
    cg.ncyl.toUInt16.toNat * 65536 + cg.niblk.toUInt16.toNat, cg.ndblk.toUInt32.toNat,
    cg.cs.ndir.toNat, cg.cs.nbfree.toNat, cg.cs.nifree.toNat, cg.cs.nffree.toNat,
    cg.rotor.toUInt32.toNat, cg.frotor.toUInt32.toNat, cg.irotor.toUInt32.toNat]

/-- Byte `p` of the block, in the disk's order. -/
def CgBlock.byte (cg : CgBlock) (p : Nat) : UInt8 :=
  if p < CG_FRSUM_OFF then beBytes 4 (cg.words.getD (p / 4) 0) (p % 4)
  else if p < CG_BTOT_OFF then beBytes 4 (cg.frsum ((p - CG_FRSUM_OFF) / 4)).toNat (p % 4)
  else if p < CG_BPOS_OFF then beBytes 4 (cg.btot ((p - CG_BTOT_OFF) / 4)).toNat (p % 4)
  else if p < CG_IUSED_OFF then
    beBytes 2 (cg.b ((p - CG_BPOS_OFF) / 2 / NRPOS) ((p - CG_BPOS_OFF) / 2 % NRPOS)).toNat (p % 2)
  else if p < CG_MAGIC_OFF then UInt8.ofNat (mapByte cg.iused (p - CG_IUSED_OFF))
  else if p < CG_FREE_OFF then beBytes 4 cg.magic.toNat (p % 4)
  else UInt8.ofNat (mapByte cg.free (p - CG_FREE_OFF))

/-- The buffer with the block in it; what lies behind the free map stays. -/
def encodeCg (sb : Superblock) (cg : CgBlock) (buf : ByteStore) : ByteStore := fun p =>
  if p < CG_FREE_OFF + (sb.fragsPerGroup + 7) / 8 then cg.byte p else buf p

/-! ### The two directions -/

theorem be32_of_bytes {d : ByteStore} {p v : Nat} (h : ∀ i < 4, d (p + i) = beBytes 4 v i) :
    be32 d p = v % 4294967296 := by
  rw [← be32_beBytes v]
  exact be32_congr fun i hi => by rw [h i hi, Nat.zero_add]

theorem be16_of_bytes {d : ByteStore} {p v : Nat} (h : ∀ i < 2, d (p + i) = beBytes 2 v i) :
    be16 d p = v % 65536 := by
  rw [← be16_beBytes v]
  exact be16_congr fun i hi => by rw [h i hi, Nat.zero_add]

theorem be32_halves (d : ByteStore) (p : Nat) :
    be16 d p = be32 d p / 65536 ∧ be16 d (p + 2) = be32 d p % 65536 := by
  have := be16_lt d (p + 2)
  unfold be32
  omega

/-- A map's bit is read back from its byte. -/
theorem mapBit_of_byte {buf : ByteStore} {map : Nat → Bool} {off i : Nat}
    (h : buf (off + i / 8) = UInt8.ofNat (mapByte map (i / 8))) : mapBit buf off i = map i := by
  have hlt : mapByte map (i / 8) < 2 ^ 8 := Nat.ofBits_lt_two_pow _
  rw [mapBit, h, UInt8.toNat_ofNat_of_lt' (by unfold UInt8.size; omega), mapByte,
    Nat.testBit_ofBits_lt _ _ (Nat.mod_lt i (by decide)), Nat.div_add_mod']

section

variable (sb : Superblock) (cg : CgBlock) (buf : ByteStore)

theorem encodeCg_byte {p : Nat} (h : p < CG_FREE_OFF) : encodeCg sb cg buf p = cg.byte p :=
  if_pos (by omega)

/-- A word in front of the arrays is read back. -/
theorem encodeCg_word {k : Nat} (hk : k < 13) :
    be32 (encodeCg sb cg buf) (4 * k) = cg.words.getD k 0 % 4294967296 :=
  be32_of_bytes fun i hi => by
    rw [encodeCg_byte sb cg buf (by unfold CG_FREE_OFF; omega), CgBlock.byte,
      if_pos (by unfold CG_FRSUM_OFF; omega), show (4 * k + i) / 4 = k by omega,
      show (4 * k + i) % 4 = i by omega]

theorem encodeCg_frsum {k : Nat} (hk : k < 8) :
    be32 (encodeCg sb cg buf) (CG_FRSUM_OFF + k * 4) = (cg.frsum k).toNat := by
  rw [be32_of_bytes (v := (cg.frsum k).toNat) fun i hi => ?_]
  · exact Nat.mod_eq_of_lt (cg.frsum k).toNat_lt
  · unfold CG_FRSUM_OFF
    rw [encodeCg_byte sb cg buf (by unfold CG_FREE_OFF; omega), CgBlock.byte,
      if_neg (by unfold CG_FRSUM_OFF; omega), if_pos (by unfold CG_BTOT_OFF; omega), CG_FRSUM_OFF,
      show (52 + k * 4 + i - 52) / 4 = k by omega, show (52 + k * 4 + i) % 4 = i by omega]

theorem encodeCg_btot {k : Nat} (hk : k < 32) :
    be32 (encodeCg sb cg buf) (CG_BTOT_OFF + k * 4) = (cg.btot k).toNat := by
  rw [be32_of_bytes (v := (cg.btot k).toNat) fun i hi => ?_]
  · exact Nat.mod_eq_of_lt (cg.btot k).toNat_lt
  · unfold CG_BTOT_OFF
    rw [encodeCg_byte sb cg buf (by unfold CG_FREE_OFF; omega), CgBlock.byte,
      if_neg (by unfold CG_FRSUM_OFF; omega), if_neg (by unfold CG_BTOT_OFF; omega),
      if_pos (by unfold CG_BPOS_OFF; omega), CG_BTOT_OFF,
      show (84 + k * 4 + i - 84) / 4 = k by omega, show (84 + k * 4 + i) % 4 = i by omega]

theorem encodeCg_b {k j : Nat} (hk : k < 32) (hj : j < NRPOS) :
    be16 (encodeCg sb cg buf) (CG_BPOS_OFF + (k * NRPOS + j) * 2) = (cg.b k j).toNat := by
  unfold NRPOS at *
  rw [be16_of_bytes (v := (cg.b k j).toNat) fun i hi => ?_]
  · exact Nat.mod_eq_of_lt (cg.b k j).toNat_lt
  · unfold CG_BPOS_OFF
    rw [encodeCg_byte sb cg buf (by unfold CG_FREE_OFF; omega), CgBlock.byte,
      if_neg (by unfold CG_FRSUM_OFF; omega), if_neg (by unfold CG_BTOT_OFF; omega),
      if_neg (by unfold CG_BPOS_OFF; omega), if_pos (by unfold CG_IUSED_OFF; omega), CG_BPOS_OFF,
      NRPOS, show (212 + (k * 8 + j) * 2 + i - 212) / 2 / 8 = k by omega,
      show (212 + (k * 8 + j) * 2 + i - 212) / 2 % 8 = j by omega,
      show (212 + (k * 8 + j) * 2 + i) % 2 = i by omega]

theorem encodeCg_iused {i : Nat} (hi : i < MAXIPG) :
    mapBit (encodeCg sb cg buf) CG_IUSED_OFF i = cg.iused i := by
  unfold MAXIPG at hi
  refine mapBit_of_byte ?_
  unfold CG_IUSED_OFF
  rw [encodeCg_byte sb cg buf (by unfold CG_FREE_OFF; omega), CgBlock.byte,
    if_neg (by unfold CG_FRSUM_OFF; omega), if_neg (by unfold CG_BTOT_OFF; omega),
    if_neg (by unfold CG_BPOS_OFF; omega), if_neg (by unfold CG_IUSED_OFF; omega),
    if_pos (by unfold CG_MAGIC_OFF; omega), CG_IUSED_OFF, Nat.add_sub_cancel_left]

theorem encodeCg_magic : be32 (encodeCg sb cg buf) CG_MAGIC_OFF = cg.magic.toNat := by
  rw [be32_of_bytes (v := cg.magic.toNat) fun i hi => ?_]
  · exact Nat.mod_eq_of_lt cg.magic.toNat_lt
  · unfold CG_MAGIC_OFF
    rw [encodeCg_byte sb cg buf (by unfold CG_FREE_OFF; omega), CgBlock.byte,
      if_neg (by unfold CG_FRSUM_OFF; omega), if_neg (by unfold CG_BTOT_OFF; omega),
      if_neg (by unfold CG_BPOS_OFF; omega), if_neg (by unfold CG_IUSED_OFF; omega),
      if_neg (by unfold CG_MAGIC_OFF; omega), if_pos (by unfold CG_FREE_OFF; omega),
      show (980 + i) % 4 = i by omega]

theorem encodeCg_free {i : Nat} (hi : i < mapBits sb) :
    mapBit (encodeCg sb cg buf) CG_FREE_OFF i = cg.free i := by
  refine mapBit_of_byte ?_
  have hbyte : i / 8 < (sb.fragsPerGroup + 7) / 8 := by
    unfold mapBits at hi
    omega
  unfold encodeCg
  rw [if_pos (by omega), CgBlock.byte, CG_FREE_OFF, if_neg (by unfold CG_FRSUM_OFF; omega),
    if_neg (by unfold CG_BTOT_OFF; omega), if_neg (by unfold CG_BPOS_OFF; omega),
    if_neg (by unfold CG_IUSED_OFF; omega), if_neg (by unfold CG_MAGIC_OFF; omega),
    if_neg (by omega), Nat.add_sub_cancel_left]

end

/-! ## Through the buffer -/

/-- `cgtod`. -/
def cgtod (sb : Superblock) (c : Nat) : Nat := cgstart sb c + sb.cgOff

/-- `fsbtodb`. -/
def fsbtodb (sb : Superblock) (b : Nat) : Nat := b * sb.fragSize / DEV_BSIZE

/-- Where the device puts the block of group `c`. -/
def cgDevice (sb : Superblock) (c : Nat) : Nat := dbtob (fsbtodb sb (cgtod sb c))

/-- The block in the `cgSize` bytes from `off`. -/
def loadCg (sb : Superblock) (disk : ByteStore) (off : Nat) : CgBlock :=
  decodeCg fun i => if i < sb.cgSize then disk (off + i) else 0

/-- The bytes with that block written back. -/
def storeCg (sb : Superblock) (off : Nat) (cg : CgBlock) (disk : ByteStore) : ByteStore :=
  patch disk off sb.cgSize (encodeCg sb cg fun i => disk (off + i))

/-- What is loaded depends on the block's bytes alone. -/
theorem loadCg_congr {sb : Superblock} {d e : ByteStore} {off : Nat}
    (h : ∀ i < sb.cgSize, d (off + i) = e (off + i)) : loadCg sb d off = loadCg sb e off := by
  unfold loadCg
  congr 1
  funext i
  split
  · exact h i ‹_›
  · rfl

/-- A block elsewhere stays when one is stored. -/
theorem loadCg_storeCg_of_apart {sb : Superblock} {off x : Nat} (cg : CgBlock) (disk : ByteStore)
    (h : Region.Apart ⟨x, sb.cgSize⟩ ⟨off, sb.cgSize⟩) :
    loadCg sb (storeCg sb off cg disk) x = loadCg sb disk x :=
  loadCg_congr fun i hi => patch_of_not_mem (by
    simp only [Region.Apart, Region.stop] at h
    omega)

/-! ## Addresses -/

/-- Fragments are whole device blocks. -/
theorem dvd_fragSize {img : Image} (hv : imageValidate img = true) : DEV_BSIZE ∣ img.sb.fragSize := by
  have hg := img.geometry hv
  obtain ⟨hs, -, -⟩ := of_decide_eq_true hv
  simp only [ShapeRejected, not_or, ne_eq, not_not] at hs
  obtain ⟨-, -, -, -, -, hpow, -⟩ := hs
  have hshift : 10 ≤ img.sb.fragShiftCalc := by
    by_contra hlt
    have hle := Nat.pow_le_pow_right (n := 2) (by omega) (show img.sb.fragShiftCalc ≤ 9 by omega)
    have hge := hg.fragSize_ge
    omega
  rw [← hpow]
  exact Nat.pow_dvd_pow 2 hshift

/-- The address the device uses is the block's, modulo `2^32`. -/
theorem cgDevice_eq {img : Image} (hv : imageValidate img = true) (c : Nat) :
    cgDevice img.sb c = cgBlockOffset img.sb c % 4294967296 := by
  rw [cgDevice, dbtob_eq, fsbtodb, Nat.div_mul_cancel (Nat.dvd_mul_left_of_dvd (dvd_fragSize hv) _)]
  rfl

/-- The blocks of the groups lie one behind the other. -/
theorem cgBlock_before {img : Image} (hv : imageValidate img = true) {c d : Nat} (hcd : c < d)
    (hd : d < img.sb.cgCount) :
    cgBlockOffset img.sb c + img.sb.cgSize ≤ cgBlockOffset img.sb d := by
  have hg := img.geometry hv
  have hl := img.layout hv
  have hc := (placed hg hl (Nat.lt_trans hcd hd)).block.1.2
  have hstart := (placed hg hl hd).block.1.1
  have hgroups : (img.sb.group c).stop ≤ (img.sb.group d).start := by
    rw [group_stop hg (Nat.lt_trans hcd hd)]
    exact Nat.mul_le_mul_right _ (Nat.le_trans (Nat.min_le_left _ _) (Nat.mul_le_mul_left _ hcd))
  exact hc.trans (hgroups.trans hstart)

/-- A block at 4 GiB or beyond is not where any of the transfers goes, if it is the last. -/
theorem last_untouched {img : Image} (hv : imageValidate img = true)
    (hhigh : 4294967296 ≤ cgBlockOffset img.sb (img.sb.cgCount - 1)) {c : Nat}
    (hc : c < img.sb.cgCount) :
    Region.Apart ⟨cgBlockOffset img.sb (img.sb.cgCount - 1), img.sb.cgSize⟩
      ⟨cgDevice img.sb c, img.sb.cgSize⟩ := by
  have hsize : img.sb.cgSize ≤ 8192 := (img.layout hv).cgSize_le.trans (img.geometry hv).blockSize_le
  rw [cgDevice_eq hv]
  refine .inr ?_
  show cgBlockOffset img.sb c % 4294967296 + img.sb.cgSize ≤
    cgBlockOffset img.sb (img.sb.cgCount - 1)
  by_cases hlast : c = img.sb.cgCount - 1
  · subst hlast
    omega
  · have hbefore := cgBlock_before hv (c := c) (d := img.sb.cgCount - 1) (by omega) (by omega)
    omega

end NextUfs.Fsck
