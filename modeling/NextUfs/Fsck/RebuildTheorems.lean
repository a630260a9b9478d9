/-
NextUfs.Fsck.RebuildTheorems — a rebuilt group is exact.

`freeMap` and `allocated` say what a group's two maps should be, from the block
map and the inode states alone. `blockLoop_eq` and `tailFrags_eq` give the loops
over the blocks as one closed form, `CgBlock.counted`, in the sums
`Core.Cg.Consistent` is made of; `inodeLoop_eq` does it for the inodes. A group
that agrees with the outcome is what the allocator expects
(`Agrees.core_consistent`), and it is rebuilt to the same (`rebuiltCg_again`).
-/
import NextUfs.Fsck.Pass5
import NextUfs.Core.InodeAllocTheorems

namespace NextUfs.Fsck

open NextUfs.Core NextUfs.Lib.Runs

/-! ## What the maps should be -/

/-- The fragments of group `c`. -/
def groupFrags (sb : Superblock) (c : Nat) : Nat :=
  min (c * sb.fragsPerGroup + sb.fragsPerGroup) sb.fragCount - c * sb.fragsPerGroup

/-- The free map of group `c`: the complement of the block map. -/
def freeMap (sb : Superblock) (blockmap : Nat → Bool) (c i : Nat) : Bool :=
  decide (i < groupFrags sb c) && !blockmap (c * sb.fragsPerGroup + i)

/-- A state of a directory. -/
def dirState (state : Nat) : Bool := state == DSTATE || state == DCLEAR || state == DFOUND

/-- A state of an inode in use. -/
def usedState (state : Nat) : Bool := dirState state || state == FSTATE || state == FCLEAR

/-- An inode is in use: one below the root, or one whose state says so. -/
def allocated (statemap : Nat → Nat) (ino : Nat) : Bool :=
  decide (ino < ROOTINO) || usedState (statemap ino)

/-- The states the earlier passes leave: those below the root are never set, the others always. -/
def StatesSet (sb : Superblock) (statemap : Nat → Nat) : Prop :=
  (∀ ino < ROOTINO, statemap ino = 0) ∧
    ∀ ino, ROOTINO ≤ ino → ino < sb.cgCount * sb.inodesPerGroup →
      USTATE ≤ statemap ino ∧ statemap ino ≤ FCLEAR

/-! ## The bits of a block -/

theorem mapByte_testBit (map : Nat → Bool) (q : Nat) {j : Nat} (hj : j < 8) :
    (mapByte map q).testBit j = map (q * 8 + j) :=
  Nat.testBit_ofBits_lt _ _ hj

/-- A block whose size divides eight lies within a byte of the map. -/
theorem blkmap_testBit {fpb : Nat} (hfpb : fpb = 1 ∨ fpb = 2 ∨ fpb = 4 ∨ fpb = 8)
    (map : Nat → Bool) (b j : Nat) :
    (blkmap fpb map (b * fpb)).testBit j = (decide (j < fpb) && map (b * fpb + j)) := by
  have hmask : 0xff >>> (8 - fpb) = 2 ^ fpb - 1 := by
    rcases hfpb with rfl | rfl | rfl | rfl <;> rfl
  rw [blkmap, hmask, Nat.testBit_and, Nat.testBit_shiftRight, Nat.testBit_two_pow_sub_one]
  by_cases hj : j < fpb
  · have hbyte : b * fpb % 8 + j < 8 := by
      rcases hfpb with rfl | rfl | rfl | rfl <;> omega
    rw [mapByte_testBit map _ hbyte, ← Nat.add_assoc, Nat.div_add_mod']
    simp [hj]
  · simp [hj]

theorem blkmap_lt {fpb : Nat} (hfpb : fpb = 1 ∨ fpb = 2 ∨ fpb = 4 ∨ fpb = 8)
    {map : Nat → Bool} {b : Nat} (hpart : allSet map (b * fpb) fpb = false) :
    blkmap fpb map (b * fpb) < 2 ^ fpb - 1 := by
  have hlt : blkmap fpb map (b * fpb) < 2 ^ fpb :=
    Nat.lt_pow_two_of_testBit _ fun i hi => by
      rw [blkmap_testBit hfpb]
      simp [Nat.not_lt.mpr hi]
  have hne : blkmap fpb map (b * fpb) ≠ 2 ^ fpb - 1 := by
    intro h
    rw [Bool.eq_false_iff] at hpart
    refine hpart (allSet_iff.mpr fun i hi => ?_)
    have hbit := blkmap_testBit hfpb map b i
    rw [h, Nat.testBit_two_pow_sub_one] at hbit
    simpa [hi] using hbit.symm
  omega

/-- `fragacct` on a block that is not free as a whole counts the block's runs. -/
theorem fragacct_blkmap {fpb : Nat} (hfpb : fpb = 1 ∨ fpb = 2 ∨ fpb = 4 ∨ fpb = 8)
    {map : Nat → Bool} {b : Nat} (hpart : allSet map (b * fpb) fpb = false) (l : Nat → UInt32)
    (k : Nat) : fragacct fpb (blkmap fpb map (b * fpb)) l 1 k =
      if 0 < k ∧ k < fpb then l k + UInt32.ofNat (runs map (b * fpb) fpb k) else l k := by
  rw [fragacct_eq hfpb (blkmap_lt hfpb hpart)]
  congr 3
  refine runs_shift fun i hi => ?_
  rw [Nat.zero_add, blkmap_testBit hfpb]
  simp [hi]

/-! ## The loops over the fragments -/

/-- The loop over the fragments of a block sets the bits of the free ones, and counts them. -/
theorem freeFrags_eq {blockmap t free : Nat → Bool} {d i : Nat} : ∀ {n : Nat},
    (∀ j < n, t (i + j) = !blockmap (d + j)) → (∀ j < n, free (i + j) = false) →
      freeFrags blockmap d i free n =
        (fun x => if i ≤ x ∧ x < i + n then t x else free x, ones t i n) := by
  intro n
  induction n with
  | zero =>
    intro _ _
    refine Prod.ext (funext fun x => ?_) rfl
    exact (if_neg (by omega)).symm
  | succ n ih =>
    intro ht hfree
    rw [freeFrags, ih (fun j hj => ht j (by omega)) (fun j hj => hfree j (by omega))]
    have hbit := ht n (by omega)
    have hlast : ∀ x, (i ≤ x ∧ x < i + (n + 1)) ↔ x = i + n ∨ (i ≤ x ∧ x < i + n) := by omega
    dsimp only
    rw [ones_succ]
    by_cases hused : blockmap (d + n) = true
    · rw [if_pos hused]
      rw [hused, Bool.not_true] at hbit
      refine Prod.ext (funext fun x => ?_) ?_
      · simp only [hlast]
        by_cases hx : x = i + n
        · subst hx
          simp [hbit, hfree n (by omega)]
        · simp [hx]
      · simp [hbit]
    · rw [if_neg hused]
      rw [Bool.not_eq_true] at hused
      rw [hused, Bool.not_false] at hbit
      refine Prod.ext (funext fun x => ?_) ?_
      · simp only [hlast]
        by_cases hx : x = i + n
        · subst hx
          simp [hbit]
        · simp [hx]
      · simp [hbit]

/-- The group with its first `k` blocks counted; `t` is the free map it is counted by. -/
def CgBlock.counted (cg : CgBlock) (sb : Superblock) (t : Nat → Bool) (k : Nat) : CgBlock :=
  let sum (stat : Nat → (Nat → Bool) → Nat) : Nat := ∑ b ∈ Finset.range k, stat b t
  { cg with
    free := fun i => decide (i < k * sb.fragsPerBlock) && t i
    cs := { cg.cs with
      nbfree := UInt32.ofNat (sum (blockFull sb.fragsPerBlock))
      nffree := UInt32.ofNat (sum (blockFrags sb.fragsPerBlock)) }
    frsum := fun l => if 0 < l ∧ l < sb.fragsPerBlock then
      UInt32.ofNat (sum (blockRuns sb.fragsPerBlock l)) else 0
    btot := fun cyl => UInt32.ofNat (sum (blockFullAt sb.fragsPerBlock (inCyl sb cyl)))
    b := fun cyl rot => UInt16.ofNat (sum (blockFullAt sb.fragsPerBlock (atRot sb cyl rot))) }

/-- The bits behind block `k`'s fragments are clear, so the map then reaches to block `k + 1`. -/
theorem counted_free {fpb k n : Nat} {t : Nat → Bool} (hn : n ≤ fpb)
    (hclear : ∀ j < fpb, n ≤ j → t (k * fpb + j) = false) :
    (fun x => if k * fpb ≤ x ∧ x < k * fpb + n then t x else decide (x < k * fpb) && t x) =
      fun x => decide (x < (k + 1) * fpb) && t x := by
  funext x
  rw [Nat.succ_mul]
  by_cases hlow : x < k * fpb
  · have hbelow : x < k * fpb + fpb := by omega
    rw [if_neg (by omega)]
    simp [hlow, hbelow]
  by_cases hin : x < k * fpb + n
  · have hbelow : x < k * fpb + fpb := by omega
    rw [if_pos ⟨by omega, hin⟩]
    simp [hbelow]
  rw [if_neg (by omega)]
  by_cases hlast : x < k * fpb + fpb
  · have hbit := hclear (x - k * fpb) (by omega) (by omega)
    rw [Nat.add_sub_cancel' (by omega)] at hbit
    simp [hlow, hbit]
  · simp [hlow, hlast]

/-- The loop over the fragments of the next block, whole or cut off by the end of the group. -/
theorem freeFrags_counted {sb : Superblock} {blockmap t : Nat → Bool} {cg : CgBlock}
    {dbase k n : Nat} (hn : n ≤ sb.fragsPerBlock)
    (ht : ∀ j < n, t (k * sb.fragsPerBlock + j) = !blockmap (dbase + k * sb.fragsPerBlock + j))
    (hclear : ∀ j < sb.fragsPerBlock, n ≤ j → t (k * sb.fragsPerBlock + j) = false) :
    freeFrags blockmap (dbase + k * sb.fragsPerBlock) (k * sb.fragsPerBlock)
        (cg.counted sb t k).free n =
      ((cg.counted sb t (k + 1)).free, ones t (k * sb.fragsPerBlock) sb.fragsPerBlock) := by
  have hstart : ∀ j < n, (cg.counted sb t k).free (k * sb.fragsPerBlock + j) = false :=
    fun j _ => by
      have : ¬ k * sb.fragsPerBlock + j < k * sb.fragsPerBlock := by omega
      simp [CgBlock.counted]
  rw [freeFrags_eq ht hstart]
  refine Prod.ext (counted_free hn hclear) ?_
  obtain ⟨m, hm⟩ := Nat.exists_eq_add_of_le hn
  have hrest : ones t (k * sb.fragsPerBlock + n) m = 0 := ones_of_none fun i hi => by
    rw [Nat.add_assoc]
    exact hclear _ (by omega) (by omega)
  have hsum := ones_add t (k * sb.fragsPerBlock) n m
  rw [hrest, Nat.add_zero, ← hm] at hsum
  exact hsum.symm

/-- Where the sectors of a track fit an `int32_t`, the rotational position is the allocator's. -/
theorem cbtorpos_eq {sb : Superblock} (hspt : sb.sectorsPerTrack < 2147483648) (bno : Nat) :
    cbtorpos sb bno = .ofNat (blockRot sb bno) := by
  unfold cbtorpos
  dsimp only
  rw [Int32.toInt_ofNat_of_lt hspt]
  rfl

/-- What a whole free block adds. -/
theorem counted_full {sb : Superblock} {t : Nat → Bool} {cg : CgBlock} {k : Nat}
    (hfull : allSet t (k * sb.fragsPerBlock) sb.fragsPerBlock = true) :
    cg.counted sb t (k + 1) =
      let cg' := { cg.counted sb t k with free := (cg.counted sb t (k + 1)).free }
      let j := cbtocylno sb (k * sb.fragsPerBlock)
      let rpos := blockRot sb (k * sb.fragsPerBlock)
      { cg' with
        cs := { cg'.cs with nbfree := cg'.cs.nbfree + 1 }
        btot := Function.update cg'.btot j (cg'.btot j + 1)
        b := Function.update cg'.b j (Function.update (cg'.b j) rpos (cg'.b j rpos + 1)) } := by
  have hblock : blockFull sb.fragsPerBlock k t = 1 := if_pos hfull
  have hfrags : blockFrags sb.fragsPerBlock k t = 0 := if_pos hfull
  have hruns : ∀ l, blockRuns sb.fragsPerBlock l k t = 0 := fun l => if_pos hfull
  simp only [CgBlock.counted, CgBlock.mk.injEq, Csum.mk.injEq, Finset.sum_range_succ, hblock,
    hfrags, hruns, Nat.add_zero, UInt32.ofNat_add, true_and, and_true]
  refine ⟨rfl, funext fun cyl => ?_, funext fun cyl => funext fun rot => ?_⟩
  · by_cases hcyl : cyl = cbtocylno sb (k * sb.fragsPerBlock)
    · subst hcyl
      rw [Function.update_self]
      simp [blockFullAt, inCyl, hblock, cbtocylno, blockCyl]
    · rw [Function.update_of_ne hcyl]
      have hout : inCyl sb cyl k = false := by
        simpa [inCyl, blockCyl, cbtocylno] using fun h => hcyl h.symm
      simp [blockFullAt, hout]
  · by_cases hcyl : cyl = cbtocylno sb (k * sb.fragsPerBlock)
    · subst hcyl
      rw [Function.update_self]
      by_cases hrot : rot = blockRot sb (k * sb.fragsPerBlock)
      · subst hrot
        rw [Function.update_self, UInt16.ofNat_add]
        simp [blockFullAt, atRot, inCyl, hblock, cbtocylno, blockCyl]
      · rw [Function.update_of_ne hrot]
        have hout : atRot sb (cbtocylno sb (k * sb.fragsPerBlock)) rot k = false := by
          simpa [atRot, inCyl, blockCyl, cbtocylno] using fun h => hrot h.symm
        simp [blockFullAt, hout]
    · rw [Function.update_of_ne hcyl]
      have hout : atRot sb cyl rot k = false := by
        simpa [atRot, inCyl, blockCyl, cbtocylno] using fun h => absurd h.symm hcyl
      simp [blockFullAt, hout]

/-- What a block that is not free as a whole adds. -/
theorem counted_part {sb : Superblock} {t : Nat → Bool} {cg : CgBlock} {k : Nat}
    (hpart : allSet t (k * sb.fragsPerBlock) sb.fragsPerBlock = false) :
    cg.counted sb t (k + 1) =
      { cg.counted sb t k with
        free := (cg.counted sb t (k + 1)).free
        cs := { (cg.counted sb t k).cs with
          nffree := (cg.counted sb t k).cs.nffree +
            UInt32.ofNat (ones t (k * sb.fragsPerBlock) sb.fragsPerBlock) }
        frsum := fun l => if 0 < l ∧ l < sb.fragsPerBlock then
          (cg.counted sb t k).frsum l +
            UInt32.ofNat (runs t (k * sb.fragsPerBlock) sb.fragsPerBlock l)
          else (cg.counted sb t k).frsum l } := by
  have hnot : ¬ allSet t (k * sb.fragsPerBlock) sb.fragsPerBlock = true := by
    rw [hpart]
    decide
  have hblock : blockFull sb.fragsPerBlock k t = 0 := if_neg hnot
  have hfrags : blockFrags sb.fragsPerBlock k t =
      ones t (k * sb.fragsPerBlock) sb.fragsPerBlock := if_neg hnot
  have hruns : ∀ l, blockRuns sb.fragsPerBlock l k t =
      runs t (k * sb.fragsPerBlock) sb.fragsPerBlock l := fun l => if_neg hnot
  have hat : ∀ here, blockFullAt sb.fragsPerBlock here k t = 0 := fun here => by
    simp [blockFullAt, hblock]
  simp only [CgBlock.counted, CgBlock.mk.injEq, Finset.sum_range_succ, hblock, hfrags, hruns, hat,
    Nat.add_zero, UInt32.ofNat_add, true_and, and_true]
  funext l
  split
  · rfl
  · rfl

/-- A block with no free fragment adds nothing. -/
theorem counted_none {sb : Superblock} (hfpb : 0 < sb.fragsPerBlock) {t : Nat → Bool}
    {cg : CgBlock} {k : Nat} (hnone : ones t (k * sb.fragsPerBlock) sb.fragsPerBlock = 0) :
    cg.counted sb t (k + 1) =
      { cg.counted sb t k with free := (cg.counted sb t (k + 1)).free } := by
  have hclear := ones_eq_zero_iff.mp hnone
  have hpart : allSet t (k * sb.fragsPerBlock) sb.fragsPerBlock = false :=
    not_allSet le_rfl (by omega) (hclear 0 hfpb)
  conv_lhs => rw [counted_part hpart, hnone]
  simp only [CgBlock.mk.injEq, true_and, and_true]
  refine ⟨by rw [show UInt32.ofNat 0 = 0 from rfl, UInt32.add_zero], funext fun l => ?_⟩
  by_cases hl : 0 < l ∧ l < sb.fragsPerBlock
  · rw [if_pos hl, runs_of_none hclear hl.1]
    exact UInt32.add_zero _
  · rw [if_neg hl]

/-- The runs `fragacct` counts in the map as far as it is built. -/
theorem fragacct_counted {sb : Superblock} (hg : Geometry sb) {t : Nat → Bool} {cg : CgBlock}
    {k : Nat} (hpart : allSet t (k * sb.fragsPerBlock) sb.fragsPerBlock = false)
    (frsum : Nat → UInt32) :
    fragacct sb.fragsPerBlock
        (blkmap sb.fragsPerBlock (cg.counted sb t (k + 1)).free (k * sb.fragsPerBlock)) frsum 1 =
      fun l => if 0 < l ∧ l < sb.fragsPerBlock then
        frsum l + UInt32.ofNat (runs t (k * sb.fragsPerBlock) sb.fragsPerBlock l)
        else frsum l := by
  have hsame : ∀ j < sb.fragsPerBlock,
      (cg.counted sb t (k + 1)).free (k * sb.fragsPerBlock + j) =
        t (k * sb.fragsPerBlock + j) := fun j hj => by
    have : k * sb.fragsPerBlock + j < (k + 1) * sb.fragsPerBlock := by
      rw [Nat.succ_mul]
      omega
    simp [CgBlock.counted, this]
  funext l
  rw [fragacct_blkmap hg.fpb_cases (by rwa [allSet_congr hsame]), runs_congr hsame]

theorem freeMap_of_lt {sb : Superblock} {blockmap : Nat → Bool} {c i : Nat}
    (hi : i < groupFrags sb c) :
    freeMap sb blockmap c i = !blockmap (c * sb.fragsPerGroup + i) := by
  simp [freeMap, hi]

theorem freeMap_of_le {sb : Superblock} {blockmap : Nat → Bool} {c i : Nat}
    (hi : groupFrags sb c ≤ i) : freeMap sb blockmap c i = false := by
  simp [freeMap, Nat.not_lt.mpr hi]

/-- One turn of the loop over the blocks. -/
theorem blockStep_eq {sb : Superblock} (hg : Geometry sb)
    (hspt : sb.sectorsPerTrack < 2147483648) {blockmap : Nat → Bool} {c k : Nat}
    (hk : (k + 1) * sb.fragsPerBlock ≤ groupFrags sb c) (cg : CgBlock) :
    blockStep sb blockmap (c * sb.fragsPerGroup) k (cg.counted sb (freeMap sb blockmap c) k) =
      cg.counted sb (freeMap sb blockmap c) (k + 1) := by
  have hbits : ∀ j < sb.fragsPerBlock, freeMap sb blockmap c (k * sb.fragsPerBlock + j) =
      !blockmap (c * sb.fragsPerGroup + k * sb.fragsPerBlock + j) := fun j hj => by
    rw [freeMap_of_lt (by rw [Nat.succ_mul] at hk; omega), Nat.add_assoc]
  have hfrags := @freeFrags_counted sb blockmap (freeMap sb blockmap c) cg
    (c * sb.fragsPerGroup) k _ le_rfl hbits fun j h₁ h₂ => by omega
  rw [blockStep, hfrags]
  dsimp only
  by_cases hfull : allSet (freeMap sb blockmap c) (k * sb.fragsPerBlock) sb.fragsPerBlock = true
  · rw [if_pos (ones_eq_iff.mpr hfull), cbtorpos_eq hspt]
    exact (counted_full hfull).symm
  rw [if_neg fun h => hfull (ones_eq_iff.mp h)]
  rw [Bool.not_eq_true] at hfull
  by_cases hnone : ones (freeMap sb blockmap c) (k * sb.fragsPerBlock) sb.fragsPerBlock = 0
  · rw [if_neg (by omega)]
    exact (counted_none hg.fpb_pos hnone).symm
  · rw [if_pos (by omega), fragacct_counted hg hfull]
    exact (counted_part hfull).symm

/-- The loop over the whole blocks, by induction on the turns. -/
theorem blockLoop_eq {sb : Superblock} (hg : Geometry sb)
    (hspt : sb.sectorsPerTrack < 2147483648) {blockmap : Nat → Bool} {c : Nat} {cg : CgBlock}
    (hstart : cg.counted sb (freeMap sb blockmap c) 0 = cg) : ∀ {k : Nat},
    k * sb.fragsPerBlock ≤ groupFrags sb c →
      blockLoop sb blockmap (c * sb.fragsPerGroup) cg k =
        cg.counted sb (freeMap sb blockmap c) k := by
  intro k
  induction k with
  | zero => exact fun _ => hstart.symm
  | succ k ih =>
    intro hk
    have hlt : k * sb.fragsPerBlock ≤ groupFrags sb c := by
      rw [Nat.succ_mul] at hk
      omega
    rw [blockLoop, ih hlt, blockStep_eq hg hspt hk]

/-- Rounding up, by what is left over. -/
theorem div_add_pred (n : Nat) {f : Nat} (hf : 0 < f) :
    (n + f - 1) / f = if n % f = 0 then n / f else n / f + 1 := by
  have hdiv := Nat.div_add_mod' n f
  have hmod := Nat.mod_lt n hf
  generalize n / f = k at *
  split
  · exact Nat.div_eq_of_lt_le (by omega) (by rw [Nat.succ_mul]; omega)
  · exact Nat.div_eq_of_lt_le (by rw [Nat.succ_mul]; omega) (by rw [Nat.succ_mul, Nat.succ_mul]; omega)

/-- The fragments behind the last whole block complete the count. -/
theorem tailFrags_eq {sb : Superblock} (hg : Geometry sb) {blockmap : Nat → Bool} {c : Nat}
    (cg : CgBlock) :
    tailFrags sb blockmap (c * sb.fragsPerGroup) (groupFrags sb c)
        (cg.counted sb (freeMap sb blockmap c) (groupFrags sb c / sb.fragsPerBlock)) =
      cg.counted sb (freeMap sb blockmap c)
        ((groupFrags sb c + sb.fragsPerBlock - 1) / sb.fragsPerBlock) := by
  have hfpb := hg.fpb_pos
  have hdiv := Nat.div_add_mod' (groupFrags sb c) sb.fragsPerBlock
  have hmod := Nat.mod_lt (groupFrags sb c) hfpb
  have htail : groupFrags sb c - groupFrags sb c / sb.fragsPerBlock * sb.fragsPerBlock =
      groupFrags sb c % sb.fragsPerBlock := by omega
  rw [div_add_pred _ hfpb, tailFrags, htail]
  generalize groupFrags sb c / sb.fragsPerBlock = k at *
  by_cases hwhole : groupFrags sb c % sb.fragsPerBlock = 0
  · rw [if_pos hwhole, hwhole]
    simp only [freeFrags, ne_eq, not_true_eq_false, if_false]
    rw [show UInt32.ofNat 0 = 0 from rfl, UInt32.add_zero]
  have hclear : ∀ j < sb.fragsPerBlock, groupFrags sb c % sb.fragsPerBlock ≤ j →
      freeMap sb blockmap c (k * sb.fragsPerBlock + j) = false := fun j _ hj =>
    freeMap_of_le (by omega)
  have hbits : ∀ j < groupFrags sb c % sb.fragsPerBlock,
      freeMap sb blockmap c (k * sb.fragsPerBlock + j) =
        !blockmap (c * sb.fragsPerGroup + k * sb.fragsPerBlock + j) := fun j hj => by
    rw [freeMap_of_lt (by omega), Nat.add_assoc]
  have hfrags := @freeFrags_counted sb blockmap (freeMap sb blockmap c) cg
    (c * sb.fragsPerGroup) k _ hmod.le hbits hclear
  have hpart : allSet (freeMap sb blockmap c) (k * sb.fragsPerBlock) sb.fragsPerBlock = false :=
    not_allSet (Nat.le_add_right _ _) (by omega) (hclear _ hmod le_rfl)
  rw [if_neg hwhole, hfrags]
  dsimp only
  rw [if_pos hwhole, fragacct_counted hg hpart]
  exact (counted_part hpart).symm

/-! ## The loop over the inodes -/

/-- One turn: what the state of the inode adds. -/
theorem inodeStep_eq {sb : Superblock} {statemap : Nat → Nat} {c i : Nat}
    (hstate : sb.inodesPerGroup * c + i < ROOTINO ∧ statemap (sb.inodesPerGroup * c + i) = 0 ∨
      USTATE ≤ statemap (sb.inodesPerGroup * c + i) ∧
        statemap (sb.inodesPerGroup * c + i) ≤ FCLEAR) (cg : CgBlock) :
    inodeStep sb statemap c i cg = .ok { cg with
      iused := if usedState (statemap (sb.inodesPerGroup * c + i)) then
        Function.update cg.iused i true else cg.iused
      cs := { cg.cs with
        ndir := cg.cs.ndir +
          UInt32.ofNat (if dirState (statemap (sb.inodesPerGroup * c + i)) then 1 else 0)
        nifree := cg.cs.nifree -
          UInt32.ofNat (if usedState (statemap (sb.inodesPerGroup * c + i)) then 1 else 0) } } := by
  unfold inodeStep
  dsimp only
  generalize statemap (sb.inodesPerGroup * c + i) = state at hstate
  obtain hlow | ⟨hmin, hmax⟩ := hstate
  · obtain ⟨hino, rfl⟩ := hlow
    simp [hino, USTATE, DSTATE, DCLEAR, DFOUND, FSTATE, FCLEAR, usedState, dirState]
  · unfold USTATE at hmin
    unfold FCLEAR at hmax
    interval_cases state <;>
      simp [CgBlock.useInode, USTATE, DSTATE, DCLEAR, DFOUND, FSTATE, FCLEAR, usedState, dirState]

/-- The states of a group's inodes are those of the table. -/
theorem StatesSet.group {sb : Superblock} {statemap : Nat → Nat} (hs : StatesSet sb statemap)
    {c i : Nat} (hc : c < sb.cgCount) (hi : i < sb.inodesPerGroup) :
    sb.inodesPerGroup * c + i < ROOTINO ∧ statemap (sb.inodesPerGroup * c + i) = 0 ∨
      USTATE ≤ statemap (sb.inodesPerGroup * c + i) ∧
        statemap (sb.inodesPerGroup * c + i) ≤ FCLEAR := by
  by_cases hlow : sb.inodesPerGroup * c + i < ROOTINO
  · exact .inl ⟨hlow, hs.1 _ hlow⟩
  · refine .inr (hs.2 _ (Nat.not_lt.mp hlow) ?_)
    have hle := Nat.mul_le_mul_left sb.inodesPerGroup (Nat.succ_le_of_lt hc)
    rw [Nat.mul_succ, Nat.mul_comm sb.inodesPerGroup sb.cgCount] at hle
    omega

/-- The loop over the inodes, by induction on the turns. -/
theorem inodeLoop_eq {sb : Superblock} {statemap : Nat → Nat} (hs : StatesSet sb statemap)
    {c : Nat} (hc : c < sb.cgCount) (cg : CgBlock) : ∀ {n : Nat}, n ≤ sb.inodesPerGroup →
    inodeLoop sb statemap c cg n = .ok { cg with
      iused := fun i => cg.iused i ||
        (decide (i < n) && usedState (statemap (sb.inodesPerGroup * c + i)))
      cs := { cg.cs with
        ndir := cg.cs.ndir +
          UInt32.ofNat (ones (fun ino => dirState (statemap ino)) (sb.inodesPerGroup * c) n)
        nifree := cg.cs.nifree -
          UInt32.ofNat (ones (fun ino => usedState (statemap ino)) (sb.inodesPerGroup * c) n) } } := by
  intro n
  induction n with
  | zero =>
    intro _
    simp [inodeLoop, ones]
  | succ n ih =>
    intro hn
    rw [inodeLoop, ih (by omega)]
    refine (inodeStep_eq (hs.group hc (by omega)) _).trans ?_
    refine congrArg Except.ok ?_
    simp only [CgBlock.mk.injEq, Csum.mk.injEq, ones_succ, true_and, and_true]
    refine ⟨⟨?_, ?_⟩, funext fun i => ?_⟩
    · rw [UInt32.ofNat_add, UInt32.add_assoc]
    · rw [UInt32.ofNat_add]
      grind
    · by_cases hused : usedState (statemap (sb.inodesPerGroup * c + n)) = true
      · rw [if_pos hused]
        by_cases hi : i = n
        · subst hi
          simp [hused]
        · rw [Function.update_of_ne hi]
          have : i < n + 1 ↔ i < n := by omega
          simp [this]
      · rw [if_neg hused]
        rw [Bool.not_eq_true] at hused
        by_cases hi : i = n
        · subst hi
          simp [hused]
        · have : i < n + 1 ↔ i < n := by omega
          simp [this]

/-! ## A rebuilt group -/

/-- `countedCg` in closed form: what is kept of the group on disk, and the counts. -/
def rebuiltCg (sb : Superblock) (blockmap : Nat → Bool) (statemap : Nat → Nat) (now : Int) (c : Nat)
    (cgrp : CgBlock) : CgBlock :=
  CgBlock.counted
    { freshCg sb now c cgrp with
      iused := fun i => decide (i < sb.inodesPerGroup) &&
        allocated statemap (sb.inodesPerGroup * c + i)
      cs := {
        ndir := UInt32.ofNat
          (ones (fun ino => dirState (statemap ino)) (sb.inodesPerGroup * c) sb.inodesPerGroup)
        nifree := UInt32.ofNat
          (ones (fun ino => !allocated statemap ino) (sb.inodesPerGroup * c) sb.inodesPerGroup) } }
    sb (freeMap sb blockmap c) ((groupFrags sb c + sb.fragsPerBlock - 1) / sb.fragsPerBlock)

/-- Before the first block nothing is counted. -/
theorem counted_zero (sb : Superblock) (t : Nat → Bool) {cg : CgBlock}
    (hfree : cg.free = fun _ => false) (hnbfree : cg.cs.nbfree = 0) (hnffree : cg.cs.nffree = 0)
    (hfrsum : cg.frsum = fun _ => 0) (hbtot : cg.btot = fun _ => 0)
    (hb : cg.b = fun _ _ => 0) : cg.counted sb t 0 = cg := by
  obtain ⟨_, _, _, _, _, _, _, ⟨_, _, _, _⟩, _, _, _, _, _, _, _, _, _⟩ := cg
  subst hfree hnbfree hnffree hfrsum hbtot hb
  simp [CgBlock.counted]

/-- No state below the root counts as in use. -/
theorem StatesSet.ones_reserved {sb : Superblock} {statemap : Nat → Nat}
    (hs : StatesSet sb statemap) :
    ones (fun ino => usedState (statemap ino)) 0 ROOTINO = 0 :=
  ones_of_none fun i hi => by
    rw [Nat.zero_add, hs.1 i hi]
    rfl

/-- The inodes in use, with those below the root. -/
theorem StatesSet.ones_allocated {sb : Superblock} {statemap : Nat → Nat}
    (hs : StatesSet sb statemap) (hipg : ROOTINO ≤ sb.inodesPerGroup) (c : Nat) :
    ones (allocated statemap) (sb.inodesPerGroup * c) sb.inodesPerGroup =
      ones (fun ino => usedState (statemap ino)) (sb.inodesPerGroup * c) sb.inodesPerGroup +
        if c = 0 then ROOTINO else 0 := by
  have habove : ∀ p n, ROOTINO ≤ p →
      ones (allocated statemap) p n = ones (fun ino => usedState (statemap ino)) p n :=
    fun p n hp => ones_congr fun i _ => by
      have : ¬ p + i < ROOTINO := by omega
      simp [allocated, this]
  by_cases hc : c = 0
  · subst hc
    obtain ⟨m, hm⟩ := Nat.exists_eq_add_of_le hipg
    have hlow : ones (allocated statemap) 0 ROOTINO = ROOTINO :=
      ones_of_all fun i hi => by simp [allocated, hi]
    rw [if_pos rfl, Nat.mul_zero, hm, ones_add, ones_add, hlow, hs.ones_reserved,
      habove _ _ (by omega)]
    omega
  · rw [if_neg hc, Nat.add_zero, habove _ _ (hipg.trans (Nat.le_mul_of_pos_right _ (by omega)))]

/-- The inodes of a group, those below the root among them. -/
theorem groupInodes_eq {sb : Superblock} (hipg : ROOTINO ≤ sb.inodesPerGroup)
    {statemap : Nat → Nat} (hs : StatesSet sb statemap) {c : Nat} {cg : CgBlock}
    (hiused : cg.iused = fun _ => false) (hcs : cg.cs = { nifree := .ofNat sb.inodesPerGroup })
    (hc : c < sb.cgCount) :
    (do
      let cg ← inodeLoop sb statemap c cg sb.inodesPerGroup
      return if c = 0 then reservedInodes cg ROOTINO else cg) = .ok { cg with
        iused := fun i => decide (i < sb.inodesPerGroup) &&
          allocated statemap (sb.inodesPerGroup * c + i)
        cs := {
          ndir := UInt32.ofNat
            (ones (fun ino => dirState (statemap ino)) (sb.inodesPerGroup * c) sb.inodesPerGroup)
          nifree := UInt32.ofNat (ones (fun ino => !allocated statemap ino)
            (sb.inodesPerGroup * c) sb.inodesPerGroup) } } := by
  have halloc := hs.ones_allocated hipg c
  have hnot := ones_add_not (allocated statemap) (sb.inodesPerGroup * c) sb.inodesPerGroup
  rw [inodeLoop_eq hs hc _ le_rfl]
  refine congrArg Except.ok ?_
  generalize ones (fun ino => usedState (statemap ino)) (sb.inodesPerGroup * c)
    sb.inodesPerGroup = used at *
  generalize ones (fun ino => !allocated statemap ino) (sb.inodesPerGroup * c)
    sb.inodesPerGroup = left at *
  generalize hdir : ones (fun ino => dirState (statemap ino)) (sb.inodesPerGroup * c)
    sb.inodesPerGroup = dirs
  have hsum : UInt32.ofNat sb.inodesPerGroup =
      UInt32.ofNat used + UInt32.ofNat (if c = 0 then ROOTINO else 0) + UInt32.ofNat left := by
    rw [← UInt32.ofNat_add, ← UInt32.ofNat_add, ← halloc, hnot]
  by_cases hfirst : c = 0
  · subst hfirst
    rw [if_pos rfl]
    simp only [reservedInodes, ROOTINO, CgBlock.mk.injEq, Csum.mk.injEq, hiused, hcs, true_and,
      and_true]
    rw [if_pos rfl] at hsum
    have htwo : UInt32.ofNat ROOTINO = 1 + 1 := rfl
    rw [htwo] at hsum
    refine ⟨⟨UInt32.zero_add _, by grind⟩, funext fun i => ?_⟩
    rcases i with _ | _ | i
    · have : 0 < sb.inodesPerGroup := by unfold ROOTINO at hipg; omega
      simp [allocated, ROOTINO, this]
    · have : 1 < sb.inodesPerGroup := by unfold ROOTINO at hipg; omega
      simp [allocated, ROOTINO, this]
    · rw [Function.update_of_ne (by omega), Function.update_of_ne (by omega)]
      simp [allocated, ROOTINO]
  · rw [if_neg hfirst]
    simp only [CgBlock.mk.injEq, Csum.mk.injEq, hiused, hcs, true_and, and_true]
    rw [if_neg hfirst, show UInt32.ofNat 0 = 0 from rfl, UInt32.add_zero] at hsum
    refine ⟨⟨UInt32.zero_add _, by grind⟩, funext fun i => ?_⟩
    have habove : ¬ sb.inodesPerGroup * c + i < ROOTINO := by
      have := Nat.le_mul_of_pos_right sb.inodesPerGroup (Nat.pos_of_ne_zero hfirst)
      omega
    simp [allocated, habove]

theorem countedCg_eq {sb : Superblock} (hg : Geometry sb)
    (hspt : sb.sectorsPerTrack < 2147483648) (hipg : ROOTINO ≤ sb.inodesPerGroup)
    (blockmap : Nat → Bool) {statemap : Nat → Nat} (hs : StatesSet sb statemap) (now : Int)
    {c : Nat} (hc : c < sb.cgCount) (cgrp : CgBlock) :
    countedCg sb blockmap statemap now c cgrp =
      .ok (rebuiltCg sb blockmap statemap now c cgrp) := by
  have hinodes := @groupInodes_eq sb hipg statemap hs c (freshCg sb now c cgrp) rfl rfl hc
  unfold countedCg
  cases hloop : inodeLoop sb statemap c (freshCg sb now c cgrp) sb.inodesPerGroup with
  | error e =>
    rw [hloop] at hinodes
    cases hinodes
  | ok cg =>
    rw [hloop] at hinodes
    have hcg := Except.ok.inj hinodes
    refine congrArg Except.ok ?_
    rw [hcg]
    exact (congrArg _ (blockLoop_eq hg hspt (counted_zero sb _ rfl rfl rfl rfl rfl rfl)
      (Nat.div_mul_le_self _ _))).trans (tailFrags_eq hg _)

/-! ## The group as the allocator reads it -/

/-- The fields and the free map of a group, as `nextufs__allocate_frags_in_group` reads them. -/
def CgBlock.core (cg : CgBlock) (sb : Superblock) : Cg where
  magic := cg.magic.toNat
  ndblk := cg.ndblk.toUInt32.toNat
  cs := cg.cs
  rotor := cg.rotor.toUInt32.toNat
  frsum := cg.frsum
  btot := cg.btot
  bpos := cg.b
  free := fun i => decide (i < sb.fragsPerGroup) && cg.free i

/-- A group on disk is the one rebuilt, as far as the pass compares. -/
structure Agrees (sb : Superblock) (newcg cg : CgBlock) : Prop where
  maps : sameMaps sb newcg cg
  header : sameHeader newcg cg

theorem groupFrags_le (sb : Superblock) (c : Nat) : groupFrags sb c ≤ sb.fragsPerGroup := by
  unfold groupFrags
  omega

theorem lt_mapBits {sb : Superblock} {i : Nat} (h : i < sb.fragsPerGroup) : i < mapBits sb := by
  unfold mapBits
  omega

section

variable {sb : Superblock} {blockmap : Nat → Bool} {statemap : Nat → Nat} {now : Int} {c : Nat}
  {cgrp cg : CgBlock}

theorem Agrees.cs_eq (h : Agrees sb (rebuiltCg sb blockmap statemap now c cgrp) cg) :
    cg.cs = (rebuiltCg sb blockmap statemap now c cgrp).cs := h.header.2.2.2.2.2.2.2.1.symm

theorem Agrees.magic_eq (h : Agrees sb (rebuiltCg sb blockmap statemap now c cgrp) cg) :
    cg.magic = UInt32.ofNat CG_MAGIC := h.maps.2.1.symm

/-- The free map on disk is the complement of the block map. -/
theorem Agrees.free_eq (h : Agrees sb (rebuiltCg sb blockmap statemap now c cgrp) cg)
    (hfpb : 0 < sb.fragsPerBlock) {i : Nat} (hi : i < sb.fragsPerGroup) :
    cg.free i = freeMap sb blockmap c i := by
  rw [← h.maps.2.2 i (lt_mapBits hi)]
  by_cases hin : i < groupFrags sb c
  · have hup : i < (groupFrags sb c + sb.fragsPerBlock - 1) / sb.fragsPerBlock *
        sb.fragsPerBlock := by
      have hlt := Nat.lt_div_mul_add (a := groupFrags sb c + sb.fragsPerBlock - 1) hfpb
      omega
    simp [rebuiltCg, CgBlock.counted, hup]
  · simp [rebuiltCg, CgBlock.counted, freeMap_of_le (Nat.not_lt.mp hin)]

/-- The inode map on disk says which inodes are in use. -/
theorem Agrees.iused_eq (h : Agrees sb (rebuiltCg sb blockmap statemap now c cgrp) cg)
    (hipg : sb.inodesPerGroup ≤ MAXIPG) {i : Nat} (hi : i < sb.inodesPerGroup) :
    cg.iused i = allocated statemap (sb.inodesPerGroup * c + i) := by
  rw [← h.maps.1 i (by omega)]
  simp [rebuiltCg, CgBlock.counted, hi]

theorem Agrees.core_ndblk (h : Agrees sb (rebuiltCg sb blockmap statemap now c cgrp) cg)
    (hg : Geometry sb) : (cg.core sb).ndblk = groupFrags sb c := by
  have hle := groupFrags_le sb c
  have hfpg := hg.fpg_le
  have hndblk : cg.ndblk = Int32.ofNat (groupFrags sb c) := h.header.2.2.2.2.2.2.1.symm
  show cg.ndblk.toUInt32.toNat = _
  rw [hndblk, Int32.toUInt32_ofNat']
  exact UInt32.toNat_ofNat_of_lt' (by unfold UInt32.size; omega)

theorem Agrees.core_free (h : Agrees sb (rebuiltCg sb blockmap statemap now c cgrp) cg)
    (hg : Geometry sb) : (cg.core sb).free = freeMap sb blockmap c := by
  funext i
  by_cases hi : i < sb.fragsPerGroup
  · simp [CgBlock.core, hi, h.free_eq hg.fpb_pos hi]
  · have hle := groupFrags_le sb c
    rw [freeMap_of_le (by omega)]
    simp [CgBlock.core, hi]

/-- The sums the allocator reads are those the pass stored. -/
theorem Agrees.core_total (h : Agrees sb (rebuiltCg sb blockmap statemap now c cgrp) cg)
    (hg : Geometry sb) (stat : Nat → (Nat → Bool) → Nat) :
    (cg.core sb).total sb.fragsPerBlock stat =
      ∑ b ∈ Finset.range ((groupFrags sb c + sb.fragsPerBlock - 1) / sb.fragsPerBlock),
        stat b (freeMap sb blockmap c) := by
  rw [Cg.total, Cg.blocks, h.core_ndblk hg, h.core_free hg]

theorem Agrees.core_total_le (h : Agrees sb (rebuiltCg sb blockmap statemap now c cgrp) cg)
    (hg : Geometry sb) {stat : Nat → (Nat → Bool) → Nat} {m : Nat}
    (hm : ∀ b, stat b (cg.core sb).free ≤ m) :
    (cg.core sb).total sb.fragsPerBlock stat ≤ 57664 * m := by
  refine ((cg.core sb).total_le hm).trans (Nat.mul_le_mul_right m ?_)
  refine ((cg.core sb).blocks_le hg.fpb_pos).trans ?_
  rw [h.core_ndblk hg]
  exact (groupFrags_le sb c).trans hg.fpg_le

/-- A repaired group is what the allocator expects: every counter is exact. -/
theorem Agrees.core_consistent (h : Agrees sb (rebuiltCg sb blockmap statemap now c cgrp) cg)
    (hg : Geometry sb) : (cg.core sb).Consistent sb := by
  have hfpb8 : sb.fragsPerBlock ≤ 8 := by
    rcases hg.fpb_cases with h | h | h | h <;> omega
  have word : ∀ {stat : Nat → (Nat → Bool) → Nat} {m : Nat}, m ≤ 8 →
      (∀ b, stat b (cg.core sb).free ≤ m) → ∀ {x : UInt32}, x = UInt32.ofNat
        (∑ b ∈ Finset.range ((groupFrags sb c + sb.fragsPerBlock - 1) / sb.fragsPerBlock),
          stat b (freeMap sb blockmap c)) →
      x.toNat = (cg.core sb).total sb.fragsPerBlock stat := by
    intro stat m hm8 hm x hx
    have hle := h.core_total_le hg hm
    rw [hx, ← h.core_total hg]
    exact UInt32.toNat_ofNat_of_lt' (by unfold UInt32.size; omega)
  have hcs := h.cs_eq
  obtain ⟨hfrsum, hbtot, hb⟩ := h.header.2.2.2.2.2.2.2.2.2.2.2
  exact
    { ndblk_le := by
        rw [h.core_ndblk hg]
        exact groupFrags_le sb c
      free_lt := fun i hi => by
        rw [h.core_ndblk hg]
        by_contra hout
        rw [h.core_free hg, freeMap_of_le (Nat.not_lt.mp hout)] at hi
        cases hi
      nbfree := word (by omega) (blockFull_le sb.fragsPerBlock · _) (by
        show cg.cs.nbfree = _
        rw [hcs]
        rfl)
      nffree := word hfpb8 (fun b => (blockFrags_le _ _ _).trans (ones_le _ _ _)) (by
        show cg.cs.nffree = _
        rw [hcs]
        rfl)
      frsum := fun k h0 hk => word hfpb8 (blockRuns_le sb.fragsPerBlock k · _) (by
        show cg.frsum k = _
        rw [← hfrsum k (by omega)]
        exact if_pos ⟨h0, hk⟩)
      btot := fun cyl hcyl => word (by omega) (blockFullAt_le sb.fragsPerBlock _ · _)
        (hbtot cyl hcyl).symm
      bpos := fun cyl hcyl rot hrot => by
        have hle := h.core_total_le hg (m := 1)
          (blockFullAt_le sb.fragsPerBlock (atRot sb cyl rot) · (cg.core sb).free)
        show (cg.b cyl rot).toNat = _
        rw [← hb cyl hcyl rot hrot]
        have hlt : (cg.core sb).total sb.fragsPerBlock
            (blockFullAt sb.fragsPerBlock (atRot sb cyl rot)) < UInt16.size := by
          unfold UInt16.size
          omega
        rw [h.core_total hg] at hlt ⊢
        exact UInt16.toNat_ofNat_of_lt' hlt }

end

/-! ## Rebuilding again -/

/-- The time kept for a group, on a clock that does not run back, is kept again. -/
theorem keptTime_again {t : Int32} {now now' : Int} (hmin : -2147483648 ≤ now) (hle : now ≤ now') :
    let kept := if now > t.toInt then t else Int32.ofInt now
    (if now' > kept.toInt then kept else Int32.ofInt now') = kept := by
  have hmax := t.toInt_lt
  dsimp only
  by_cases hlater : now > t.toInt
  · rw [if_pos hlater, if_pos (by omega)]
  · have hnow : (Int32.ofInt now).toInt = now :=
      Int32.toInt_ofInt_of_le (by omega) (by omega)
    rw [if_neg hlater, hnow]
    by_cases hsame : now' > now
    · rw [if_pos hsame]
    · rw [if_neg hsame, show now' = now by omega]

/-- A rotor that was kept or reset is kept. -/
theorem keptRotor_again {α : Type} {p : α → Prop} [DecidablePred p] {x z : α} :
    let kept := if p x then x else z
    (if p kept then kept else z) = kept := by
  dsimp only
  by_cases hx : p x
  · rw [if_pos hx, if_pos hx]
  · rw [if_neg hx]
    split <;> rfl

/-- What is kept of a repaired group is what was kept of the one before. -/
theorem freshCg_again {sb : Superblock} {blockmap : Nat → Bool} {statemap : Nat → Nat}
    {now now' : Int} {c : Nat} {cgrp cg : CgBlock}
    (h : Agrees sb (rebuiltCg sb blockmap statemap now c cgrp) cg) (hmin : -2147483648 ≤ now)
    (hle : now ≤ now') : freshCg sb now' c cg = freshCg sb now c cgrp := by
  obtain ⟨-, -, htime, -, -, -, -, -, hrotor, hfrotor, hirotor, -⟩ := h.header
  unfold freshCg
  simp only [CgBlock.mk.injEq, true_and, and_true]
  refine ⟨?_, ?_, ?_, ?_⟩
  · rw [← htime]
    exact keptTime_again hmin hle
  · rw [← hrotor]
    exact keptRotor_again (p := fun x => x < _)
  · rw [← hfrotor]
    exact keptRotor_again (p := fun x => x < _)
  · rw [← hirotor]
    exact keptRotor_again (p := fun x : Int32 => x.toInt < _)

theorem rebuiltCg_again {sb : Superblock} {blockmap : Nat → Bool} {statemap : Nat → Nat}
    {now now' : Int} {c : Nat} {cgrp cg : CgBlock}
    (h : Agrees sb (rebuiltCg sb blockmap statemap now c cgrp) cg) (hmin : -2147483648 ≤ now)
    (hle : now ≤ now') :
    rebuiltCg sb blockmap statemap now' c cg = rebuiltCg sb blockmap statemap now c cgrp := by
  rw [rebuiltCg, rebuiltCg, freshCg_again h hmin hle]

end NextUfs.Fsck
