/-
NextUfs.Core.AllocTheorems — the allocator keeps its counters.

Every counter of a group is a sum over the group's blocks of a number read off
that block's bits: is it free, how many loose fragments, how many runs of
length `k`, is it a free block of this cylinder. An operation changes the
bits of one block, so one lemma (`Cg.Consistent.change`) reduces each of them
to what happens to that block; the summary table and the superblock follow by
`Fs.Consistent.updateGroup`.
-/
import NextUfs.Core.Alloc

namespace NextUfs.Core

open NextUfs.Lib NextUfs.Lib.ByteStore NextUfs.Lib.StateResult NextUfs.Lib.Runs

/-! ## Counters as sums over blocks -/

/-- How many blocks, the last one perhaps short, cover the group's fragments. -/
def Cg.blocks (cg : Cg) (fpb : Nat) : Nat := (cg.ndblk + fpb - 1) / fpb

/-- Block `b` is free as a whole: 1, else 0. -/
def blockFull (fpb b : Nat) (free : Nat → Bool) : Nat := if allSet free (b * fpb) fpb then 1 else 0

/-- The free fragments of block `b`, unless it is free as a whole. -/
def blockFrags (fpb b : Nat) (free : Nat → Bool) : Nat :=
  if allSet free (b * fpb) fpb then 0 else ones free (b * fpb) fpb

/-- The maximal free runs of length `k` in block `b`, unless it is free as a whole. -/
def blockRuns (fpb k b : Nat) (free : Nat → Bool) : Nat :=
  if allSet free (b * fpb) fpb then 0 else runs free (b * fpb) fpb k

/-- Block `b` is free as a whole and lies where `here` says: 1, else 0. -/
def blockFullAt (fpb : Nat) (here : Nat → Bool) (b : Nat) (free : Nat → Bool) : Nat :=
  if here b then blockFull fpb b free else 0

/-- Sums one of these over the group. -/
def Cg.total (cg : Cg) (fpb : Nat) (stat : Nat → (Nat → Bool) → Nat) : Nat :=
  ∑ b ∈ Finset.range (cg.blocks fpb), stat b cg.free

/-- Block `b` lies in cylinder `cyl`. -/
def inCyl (sb : Superblock) (cyl b : Nat) : Bool := blockCyl sb (b * sb.fragsPerBlock) == cyl

/-- Block `b` lies in cylinder `cyl` at rotational position `rot`. -/
def atRot (sb : Superblock) (cyl rot b : Nat) : Bool :=
  inCyl sb cyl b && blockRot sb (b * sb.fragsPerBlock) == rot

/-- The group's counters are what its free map says. -/
structure Cg.Consistent (sb : Superblock) (cg : Cg) : Prop where
  ndblk_le : cg.ndblk ≤ sb.fragsPerGroup
  free_lt : ∀ i, cg.free i = true → i < cg.ndblk
  nbfree : cg.cs.nbfree.toNat = cg.total sb.fragsPerBlock (blockFull sb.fragsPerBlock)
  nffree : cg.cs.nffree.toNat = cg.total sb.fragsPerBlock (blockFrags sb.fragsPerBlock)
  frsum : ∀ k, 0 < k → k < sb.fragsPerBlock →
    (cg.frsum k).toNat = cg.total sb.fragsPerBlock (blockRuns sb.fragsPerBlock k)
  btot : ∀ cyl < 32, (cg.btot cyl).toNat =
    cg.total sb.fragsPerBlock (blockFullAt sb.fragsPerBlock (inCyl sb cyl))
  bpos : ∀ cyl < 32, ∀ rot < NRPOS, (cg.bpos cyl rot).toNat =
    cg.total sb.fragsPerBlock (blockFullAt sb.fragsPerBlock (atRot sb cyl rot))

/-- A statistic of a block depends on the block's bits alone. -/
def BlockLocal (fpb : Nat) (stat : Nat → (Nat → Bool) → Nat) : Prop :=
  ∀ b v w, (∀ i < fpb, v (b * fpb + i) = w (b * fpb + i)) → stat b v = stat b w

theorem blockFull_local (fpb : Nat) : BlockLocal fpb (blockFull fpb) := fun b v w h => by
  simp only [blockFull, allSet_congr h]

theorem blockFrags_local (fpb : Nat) : BlockLocal fpb (blockFrags fpb) := fun b v w h => by
  simp only [blockFrags, allSet_congr h, ones_congr h]

theorem blockRuns_local (fpb k : Nat) : BlockLocal fpb (blockRuns fpb k) := fun b v w h => by
  simp only [blockRuns, allSet_congr h, runs_congr h]

theorem blockFullAt_local (fpb : Nat) (here : Nat → Bool) :
    BlockLocal fpb (blockFullAt fpb here) := fun b v w h => by
  simp only [blockFullAt, blockFull_local fpb b v w h]

theorem blockFull_le (fpb b : Nat) (free : Nat → Bool) : blockFull fpb b free ≤ 1 := by
  unfold blockFull
  split <;> omega

theorem blockFrags_le (fpb b : Nat) (free : Nat → Bool) :
    blockFrags fpb b free ≤ ones free (b * fpb) fpb := by
  unfold blockFrags
  split <;> omega

theorem blockRuns_le (fpb k b : Nat) (free : Nat → Bool) : blockRuns fpb k b free ≤ fpb := by
  have := runs_le free (b * fpb) fpb k
  unfold blockRuns
  split <;> omega

theorem blockFullAt_le (fpb : Nat) (here : Nat → Bool) (b : Nat) (free : Nat → Bool) :
    blockFullAt fpb here b free ≤ 1 := by
  have := blockFull_le fpb b free
  unfold blockFullAt
  split <;> omega

/-! ## Bounds -/

theorem Cg.total_le (cg : Cg) {fpb c : Nat} {stat : Nat → (Nat → Bool) → Nat}
    (h : ∀ b, stat b cg.free ≤ c) : cg.total fpb stat ≤ cg.blocks fpb * c :=
  sum_le_mul fun b _ => h b

theorem Cg.blocks_le (cg : Cg) {fpb : Nat} (h : 0 < fpb) : cg.blocks fpb ≤ cg.ndblk := by
  unfold Cg.blocks
  rcases Nat.eq_zero_or_pos cg.ndblk with h0 | h0
  · rw [h0, Nat.zero_add, Nat.div_eq_of_lt (by omega)]
  · obtain ⟨m, hm⟩ : ∃ m, cg.ndblk = m + 1 := ⟨cg.ndblk - 1, by omega⟩
    have hle := Nat.le_mul_of_pos_left m h
    refine Nat.div_le_of_le_mul ?_
    rw [hm, Nat.mul_succ]
    omega

/-- A fragment below `cg_ndblk` lies in one of the blocks. -/
theorem Cg.div_lt_blocks (cg : Cg) {fpb i : Nat} (h : 0 < fpb) (hi : i < cg.ndblk) :
    i / fpb < cg.blocks fpb := by
  unfold Cg.blocks
  rw [Nat.div_lt_iff_lt_mul h]
  have := Nat.lt_div_mul_add (a := cg.ndblk + fpb - 1) h
  omega

theorem sum_ones (free : Nat → Bool) (fpb : Nat) : ∀ m,
    ∑ b ∈ Finset.range m, ones free (b * fpb) fpb = ones free 0 (m * fpb)
  | 0 => by simp [ones]
  | m + 1 => by
      rw [Finset.sum_range_succ, sum_ones free fpb m, Nat.succ_mul, ones_add, Nat.zero_add]

/-- The loose fragments are no more than the fragments. -/
theorem Cg.total_frags_le {cg : Cg} {n : Nat} (fpb : Nat) (h : ∀ i, cg.free i = true → i < n) :
    cg.total fpb (blockFrags fpb) ≤ n := by
  have hsum : cg.total fpb (blockFrags fpb) ≤ ones cg.free 0 (cg.blocks fpb * fpb) := by
    rw [← sum_ones]
    exact Finset.sum_le_sum fun b _ => blockFrags_le fpb b cg.free
  refine hsum.trans ?_
  generalize cg.blocks fpb * fpb = m
  rcases Nat.le_total m n with hm | hm
  · exact (ones_le _ _ _).trans hm
  · rw [ones_of_lt h hm]
    exact ones_le _ _ _

/-! ## One block changes -/

/-- A 32-bit counter that follows its sum. -/
theorem counter_step {x x' : UInt32} {s s' o n : Nat} (hx : x.toNat = s) (hs : s' + o = s + n)
    (h : x' + UInt32.ofNat o = x + UInt32.ofNat n) (hlt : s' < 4294967296) : x'.toNat = s' := by
  have := congrArg UInt32.toNat h
  simp only [UInt32.toNat_add, UInt32.toNat_ofNat', hx] at this
  have := x'.toNat_lt
  omega

/-- A 16-bit counter that follows its sum. -/
theorem counter_step16 {x x' : UInt16} {s s' o n : Nat} (hx : x.toNat = s) (hs : s' + o = s + n)
    (h : x' + UInt16.ofNat o = x + UInt16.ofNat n) (hlt : s' < 65536) : x'.toNat = s' := by
  have := congrArg UInt16.toNat h
  simp only [UInt16.toNat_add, UInt16.toNat_ofNat', hx] at this
  have := x'.toNat_lt
  omega

/-- When the map changes in block `b` only, so does a sum. -/
theorem Cg.total_change {cg cg' : Cg} {fpb b : Nat} (hfpb : 0 < fpb)
    (hnd : cg'.ndblk = cg.ndblk) (hb : b < cg.blocks fpb)
    (hfree : ∀ i, i / fpb ≠ b → cg'.free i = cg.free i)
    {stat : Nat → (Nat → Bool) → Nat} (hstat : BlockLocal fpb stat) :
    cg'.total fpb stat + stat b cg.free = cg.total fpb stat + stat b cg'.free := by
  have hblocks : cg'.blocks fpb = cg.blocks fpb := by simp [Cg.blocks, hnd]
  unfold Cg.total
  rw [hblocks]
  refine sum_change hb fun a _ hne => hstat a _ _ fun i hi => hfree _ ?_
  rwa [Nat.mul_comm, Nat.mul_add_div hfpb, Nat.div_eq_of_lt hi, Nat.add_zero]

/-- The step lemma for a group: change the bits of one block, and each counter by what that
does to the block. -/
theorem Cg.Consistent.change {sb : Superblock} (hg : Geometry sb) {cg cg' : Cg} {b : Nat}
    (hc : cg.Consistent sb) (hb : b < cg.blocks sb.fragsPerBlock) (hnd : cg'.ndblk = cg.ndblk)
    (hfree : ∀ i, i / sb.fragsPerBlock ≠ b → cg'.free i = cg.free i)
    (hlt : ∀ i, cg'.free i = true → i < cg.ndblk)
    (hnbfree : cg'.cs.nbfree + .ofNat (blockFull sb.fragsPerBlock b cg.free) =
      cg.cs.nbfree + .ofNat (blockFull sb.fragsPerBlock b cg'.free))
    (hnffree : cg'.cs.nffree + .ofNat (blockFrags sb.fragsPerBlock b cg.free) =
      cg.cs.nffree + .ofNat (blockFrags sb.fragsPerBlock b cg'.free))
    (hfrsum : ∀ k, 0 < k → k < sb.fragsPerBlock →
      cg'.frsum k + .ofNat (blockRuns sb.fragsPerBlock k b cg.free) =
        cg.frsum k + .ofNat (blockRuns sb.fragsPerBlock k b cg'.free))
    (hbtot : ∀ cyl < 32,
      cg'.btot cyl + .ofNat (blockFullAt sb.fragsPerBlock (inCyl sb cyl) b cg.free) =
        cg.btot cyl + .ofNat (blockFullAt sb.fragsPerBlock (inCyl sb cyl) b cg'.free))
    (hbpos : ∀ cyl < 32, ∀ rot < NRPOS,
      cg'.bpos cyl rot + .ofNat (blockFullAt sb.fragsPerBlock (atRot sb cyl rot) b cg.free) =
        cg.bpos cyl rot + .ofNat (blockFullAt sb.fragsPerBlock (atRot sb cyl rot) b cg'.free)) :
    cg'.Consistent sb := by
  have hfpb : 0 < sb.fragsPerBlock ∧ sb.fragsPerBlock ≤ 8 := by
    rcases hg.fpb_cases with h | h | h | h <;> omega
  have hblocks : cg'.blocks sb.fragsPerBlock ≤ 57664 := by
    have h₁ := cg'.blocks_le hfpb.1
    have h₂ := hc.ndblk_le
    have h₃ := hg.fpg_le
    omega
  have hbound : ∀ {stat : Nat → (Nat → Bool) → Nat} {c : Nat}, (∀ b, stat b cg'.free ≤ c) →
      c ≤ 8 → cg'.total sb.fragsPerBlock stat ≤ 461312 := fun h hc8 =>
    (cg'.total_le h).trans (Nat.mul_le_mul hblocks hc8)
  have hstep : ∀ {stat : Nat → (Nat → Bool) → Nat}, BlockLocal sb.fragsPerBlock stat →
      cg'.total sb.fragsPerBlock stat + stat b cg.free =
        cg.total sb.fragsPerBlock stat + stat b cg'.free := Cg.total_change hfpb.1 hnd hb hfree
  have hfrags := @hbound (blockFrags sb.fragsPerBlock) 8 (fun b =>
    (blockFrags_le _ _ _).trans ((ones_le _ _ _).trans hfpb.2)) le_rfl
  exact
    { ndblk_le := hnd ▸ hc.ndblk_le
      free_lt := hnd.symm ▸ hlt
      nbfree := counter_step hc.nbfree (hstep (blockFull_local _)) hnbfree
        (by have := hbound (blockFull_le sb.fragsPerBlock · cg'.free) (by omega); omega)
      nffree := counter_step hc.nffree (hstep (blockFrags_local _)) hnffree (by omega)
      frsum := fun k h0 hk => counter_step (hc.frsum k h0 hk) (hstep (blockRuns_local _ _))
        (hfrsum k h0 hk)
        (by have := hbound (blockRuns_le sb.fragsPerBlock k · cg'.free) hfpb.2; omega)
      btot := fun cyl hcyl => counter_step (hc.btot cyl hcyl) (hstep (blockFullAt_local _ _))
        (hbtot cyl hcyl)
        (by have := hbound (blockFullAt_le sb.fragsPerBlock (inCyl sb cyl) · cg'.free) (by omega)
            omega)
      bpos := fun cyl hcyl rot hrot => counter_step16 (hc.bpos cyl hcyl rot hrot)
        (hstep (blockFullAt_local _ _)) (hbpos cyl hcyl rot hrot)
        (by have := @Cg.total_le cg' sb.fragsPerBlock 1 _
              (blockFullAt_le sb.fragsPerBlock (atRot sb cyl rot) · cg'.free)
            omega) }

/-! ## The edits of a group -/

theorem countFreeRunsLoop_eq {free : Nat → Bool} {base fpb k : Nat} (hk : 0 < k) (hkf : k < fpb) :
    ∀ {m i : Nat} {c : Nat → UInt32}, ScanPoint free base fpb i → i ≤ fpb →
      fpb ≤ i + m →
      countFreeRunsLoop free base fpb m i c k +
          UInt32.ofNat (Nat.count (IsRun free base fpb k) i) =
        c k + UInt32.ofNat (runs free base fpb k)
  | 0, i, counts, _, hi, hf => by
      obtain rfl : i = fpb := by omega
      rfl
  | fuel + 1, i, counts, hs, hi, hf => by
      rw [countFreeRunsLoop]
      split
      · obtain rfl : i = fpb := by omega
        rfl
      have hlen := runLength_le free (base + i) (fpb - i)
      dsimp only
      by_cases hr : 0 < runLength free (base + i) (fpb - i)
      · obtain ⟨hcount, hpoint⟩ := count_isRun_add hs k hr
        generalize runLength free (base + i) (fpb - i) = r at *
        have ih := countFreeRunsLoop_eq hk hkf (m := fuel) (c := if 0 < r ∧ r < fpb then
          Function.update counts r (counts r + 1) else counts) hpoint (by omega) (by omega)
        rw [if_pos hr]
        rw [hcount] at ih
        by_cases hkr : k = r
        · subst hkr
          rw [if_pos rfl, UInt32.ofNat_add] at ih
          simp only [hr, hkf, and_self, if_true, Function.update_self] at ih ⊢
          have h1 : UInt32.ofNat 1 = 1 := rfl
          grind
        · have hsame : (if 0 < r ∧ r < fpb then Function.update counts r (counts r + 1)
              else counts) k = counts k := by
            split
            · exact Function.update_of_ne hkr _ _
            · rfl
          rwa [if_neg hkr, Nat.add_zero, hsame] at ih
      · obtain ⟨hcount, hpoint⟩ := count_isRun_succ (k := k) hk (by omega) (Nat.eq_zero_of_not_pos hr)
        have ih := countFreeRunsLoop_eq hk hkf (m := fuel) (c := counts) hpoint (by omega)
          (by omega)
        rw [hcount] at ih
        simpa only [hr, false_and, if_false] using ih

/-- `nextufs__count_free_runs_in_block` counts the maximal runs. -/
theorem countFreeRunsInBlock_eq (free : Nat → Bool) (base : Nat) {fpb k : Nat} (hk : 0 < k)
    (hkf : k < fpb) :
    countFreeRunsInBlock free base fpb k = UInt32.ofNat (runs free base fpb k) := by
  have h := countFreeRunsLoop_eq hk hkf (m := fpb) (c := fun _ => 0)
    (show ScanPoint free base fpb 0 from .inl rfl) (Nat.zero_le _) (by omega)
  simpa [countFreeRunsInBlock] using h

/-- The run-sum update follows the runs of the block. -/
theorem applyCgFrsumDelta_eq (frsum : Nat → UInt32) (v w : Nat → Bool) {base fpb k : Nat}
    (hk : 0 < k) (hkf : k < fpb) :
    applyCgFrsumDelta frsum (countFreeRunsInBlock v base fpb) (countFreeRunsInBlock w base fpb)
        fpb k + UInt32.ofNat (runs v base fpb k) =
      frsum k + UInt32.ofNat (runs w base fpb k) := by
  rw [applyCgFrsumDelta, if_pos ⟨hk, hkf⟩, countFreeRunsInBlock_eq _ _ hk hkf,
    countFreeRunsInBlock_eq _ _ hk hkf]
  grind

/-- A run of `n` fragments from `start` lies in block `b`. -/
def InBlock (fpb b start n : Nat) : Prop := b * fpb ≤ start ∧ start + n ≤ b * fpb + fpb

theorem InBlock.div_eq {fpb b start n i : Nat} (h : InBlock fpb b start n) (h₁ : start ≤ i)
    (h₂ : i < start + n) : i / fpb = b :=
  Nat.div_eq_of_lt_le (h.1.trans h₁) (by rw [Nat.succ_mul]; exact h₂.trans_le h.2)

/-- Outside the block of the run, clearing and setting change nothing. -/
theorem clearBlockBits_of_block {free : Nat → Bool} {fpb b start n i : Nat}
    (h : InBlock fpb b start n) (hi : i / fpb ≠ b) : clearBlockBits free start n i = free i :=
  if_neg fun hr => hi (h.div_eq hr.1 hr.2)

theorem setBlockBits_of_block {free : Nat → Bool} {fpb b start n i : Nat}
    (h : InBlock fpb b start n) (hi : i / fpb ≠ b) : setBlockBits free start n i = free i :=
  if_neg fun hr => hi (h.div_eq hr.1 hr.2)

theorem not_allSet {w : Nat → Bool} {p n i : Nat} (hi : p ≤ i) (hin : i < p + n)
    (h : w i = false) : allSet w p n = false := by
  rw [Bool.eq_false_iff]
  intro hall
  have := allSet_iff.mp hall (i - p) (by omega)
  rw [Nat.add_sub_cancel' hi, h] at this
  exact absurd this (by decide)

/-- The loose fragments of a partial block out of which a run is taken. -/
theorem ones_clearBlockBits {w : Nat → Bool} {fpb b start n : Nat} (h : InBlock fpb b start n)
    (hset : ∀ i, start ≤ i → i < start + n → w i = true) :
    ones w (b * fpb) fpb = ones (clearBlockBits w start n) (b * fpb) fpb + n := by
  obtain ⟨s, rfl⟩ := Nat.exists_eq_add_of_le h.1
  have hend := h.2
  refine ones_of_cleared (s := s) (by omega) (fun i hi => hset _ (by omega) (by omega))
    (fun i hi => if_pos ⟨by omega, by omega⟩) fun i hi hout => if_neg (by omega)

/-- Taking a run out of a partial block keeps the group's counters. -/
theorem Cg.Consistent.takeFrags {sb : Superblock} (hg : Geometry sb) {cg : Cg}
    (hc : cg.Consistent sb) {b start n : Nat} (hn : 0 < n)
    (hin : InBlock sb.fragsPerBlock b start n)
    (hset : ∀ i, start ≤ i → i < start + n → cg.free i = true)
    (hpart : allSet cg.free (b * sb.fragsPerBlock) sb.fragsPerBlock = false) :
    (cg.takeFrags sb.fragsPerBlock (b * sb.fragsPerBlock) start n).Consistent sb := by
  have hfpb : 0 < sb.fragsPerBlock := by rcases hg.fpb_cases with h | h | h | h <;> omega
  have hb : b < cg.blocks sb.fragsPerBlock := by
    rw [← hin.div_eq le_rfl (by omega)]
    exact cg.div_lt_blocks hfpb (hc.free_lt start (hset start le_rfl (by omega)))
  have hafter : allSet (clearBlockBits cg.free start n) (b * sb.fragsPerBlock)
      sb.fragsPerBlock = false :=
    not_allSet hin.1 (by have := hin.2; omega) (if_pos ⟨le_rfl, by omega⟩)
  have hones := ones_clearBlockBits hin hset
  have hfull : ∀ here, blockFullAt sb.fragsPerBlock here b cg.free =
      blockFullAt sb.fragsPerBlock here b (clearBlockBits cg.free start n) := fun here => by
    simp [blockFullAt, blockFull, hpart, hafter]
  refine hc.change hg hb rfl (fun i hi => clearBlockBits_of_block hin hi) ?_ ?_ ?_ ?_ ?_ ?_
  · intro i hi
    refine hc.free_lt i ?_
    simp only [Cg.takeFrags, clearBlockBits] at hi
    split at hi
    · exact absurd hi (by decide)
    · exact hi
  · simp [Cg.takeFrags, blockFull, hpart, hafter]
  · simp only [Cg.takeFrags, blockFrags, hpart, hafter, hones, UInt32.ofNat_add,
      Bool.false_eq_true, if_false]
    grind
  · intro k hk hkf
    simp only [Cg.takeFrags, blockRuns, hpart, hafter, Bool.false_eq_true, if_false]
    exact applyCgFrsumDelta_eq cg.frsum _ _ hk hkf
  · exact fun cyl _ => by rw [hfull]; rfl
  · exact fun cyl _ rot _ => by rw [hfull]; rfl

/-- Cylinder and rotational position are in range for every fragment of a group. -/
theorem blockCyl_lt {sb : Superblock} (hg : Geometry sb) {frag : Nat}
    (h : frag < sb.fragsPerGroup) : blockCyl sb frag < 32 := by
  rw [blockCyl, Nat.div_lt_iff_lt_mul hg.spc_pos]
  have h₁ : frag * sb.sectorsPerFrag < sb.fragsPerGroup * sb.sectorsPerFrag :=
    Nat.mul_lt_mul_of_pos_right h hg.spf_pos
  have h₂ : sb.cpg * sb.sectorsPerCyl ≤ 32 * sb.sectorsPerCyl :=
    Nat.mul_le_mul_right _ hg.cpg_le
  have h₃ := hg.cyl_eq
  omega

theorem blockRot_lt {sb : Superblock} (hg : Geometry sb) (frag : Nat) :
    blockRot sb frag < NRPOS := by
  rw [blockRot, Nat.div_lt_iff_lt_mul hg.spt_pos, Nat.mul_comm NRPOS]
  exact Nat.mul_lt_mul_of_pos_right (Nat.mod_lt _ hg.spt_pos) (by decide)

/-- `addBlock` changes the two block counts and nothing else. -/
theorem Cg.addBlock_eq {sb : Superblock} (hg : Geometry sb) (cg : Cg) {frag : Nat}
    (h : frag < sb.fragsPerGroup) (d : UInt32) (e : UInt16) :
    cg.addBlock sb frag d e =
      { cg with
        btot := Function.update cg.btot (blockCyl sb frag) (cg.btot (blockCyl sb frag) + d)
        bpos := Function.update cg.bpos (blockCyl sb frag)
          (Function.update (cg.bpos (blockCyl sb frag)) (blockRot sb frag)
            (cg.bpos (blockCyl sb frag) (blockRot sb frag) + e)) } :=
  if_pos ⟨blockCyl_lt hg h, blockRot_lt hg frag⟩

theorem update_btot (sb : Superblock) (btot : Nat → UInt32) (b cyl : Nat) (d : UInt32) :
    Function.update btot (blockCyl sb (b * sb.fragsPerBlock))
        (btot (blockCyl sb (b * sb.fragsPerBlock)) + d) cyl =
      btot cyl + if inCyl sb cyl b then d else 0 := by
  unfold inCyl
  by_cases h : cyl = blockCyl sb (b * sb.fragsPerBlock)
  · subst h
    simp
  · simp [h, Ne.symm h]

theorem update_bpos (sb : Superblock) (bpos : Nat → Nat → UInt16) (b cyl rot : Nat) (e : UInt16) :
    Function.update bpos (blockCyl sb (b * sb.fragsPerBlock))
        (Function.update (bpos (blockCyl sb (b * sb.fragsPerBlock)))
          (blockRot sb (b * sb.fragsPerBlock))
          (bpos (blockCyl sb (b * sb.fragsPerBlock)) (blockRot sb (b * sb.fragsPerBlock)) + e))
        cyl rot =
      bpos cyl rot + if atRot sb cyl rot b then e else 0 := by
  unfold atRot inCyl
  by_cases h : cyl = blockCyl sb (b * sb.fragsPerBlock)
  · subst h
    by_cases h' : rot = blockRot sb (b * sb.fragsPerBlock)
    · subst h'
      simp
    · simp [h', Ne.symm h']
  · simp [h, Ne.symm h]

/-- Taking the head of a free block keeps the group's counters. -/
theorem Cg.Consistent.splitBlock {sb : Superblock} (hg : Geometry sb) {cg : Cg}
    (hc : cg.Consistent sb) {b n : Nat} (hn : 0 < n) (hle : n ≤ sb.fragsPerBlock)
    (hfull : allSet cg.free (b * sb.fragsPerBlock) sb.fragsPerBlock = true) :
    (cg.splitBlock sb (b * sb.fragsPerBlock) n).Consistent sb := by
  have hset := allSet_iff.mp hfull
  have hin : InBlock sb.fragsPerBlock b (b * sb.fragsPerBlock) n := ⟨le_rfl, by omega⟩
  have hfpb : 0 < sb.fragsPerBlock := by omega
  have hfirst : b * sb.fragsPerBlock < cg.ndblk := hc.free_lt _ (hset 0 hfpb)
  have hb : b < cg.blocks sb.fragsPerBlock := by
    rw [← hin.div_eq le_rfl (by omega)]
    exact cg.div_lt_blocks hfpb hfirst
  have hafter : allSet (clearBlockBits cg.free (b * sb.fragsPerBlock) n) (b * sb.fragsPerBlock)
      sb.fragsPerBlock = false :=
    not_allSet le_rfl (by omega) (if_pos ⟨le_rfl, by omega⟩)
  have hones : ones (clearBlockBits cg.free (b * sb.fragsPerBlock) n) (b * sb.fragsPerBlock)
      sb.fragsPerBlock = sb.fragsPerBlock - n := by
    have h₁ := ones_clearBlockBits (w := cg.free) hin fun i h₁ h₂ => by
      have := hset (i - b * sb.fragsPerBlock) (by omega)
      rwa [Nat.add_sub_cancel' h₁] at this
    rw [ones_of_all hset] at h₁
    omega
  have hruns : ∀ k, 0 < k → runs (clearBlockBits cg.free (b * sb.fragsPerBlock) n)
      (b * sb.fragsPerBlock) sb.fragsPerBlock k = if k = sb.fragsPerBlock - n then 1 else 0 :=
    fun k hk => runs_of_suffix hn hle hk (fun i hi => if_pos ⟨by omega, by omega⟩) fun i hi h => by
      rw [clearBlockBits, if_neg (by omega)]
      exact hset i hi
  rw [Cg.splitBlock, Cg.addBlock_eq hg _ (by have := hc.ndblk_le; omega)]
  refine hc.change hg hb rfl (fun i hi => clearBlockBits_of_block hin hi) ?_ ?_ ?_ ?_ ?_ ?_
  · intro i hi
    refine hc.free_lt i ?_
    simp only [clearBlockBits] at hi
    split at hi
    · exact absurd hi (by decide)
    · exact hi
  · simp only [blockFull, hfull, hafter, if_true, Bool.false_eq_true, if_false]
    have h1 : UInt32.ofNat 1 = 1 := rfl
    have h0 : UInt32.ofNat 0 = 0 := rfl
    grind
  · simp only [blockFrags, hfull, hafter, hones, if_true, Bool.false_eq_true, if_false]
    have h0 : UInt32.ofNat 0 = 0 := rfl
    grind
  · intro k hk hkf
    simp only [blockRuns, hfull, hafter, hruns k hk, if_true, Bool.false_eq_true, if_false]
    have h1 : UInt32.ofNat 1 = 1 := rfl
    have h0 : UInt32.ofNat 0 = 0 := rfl
    by_cases hkr : k = sb.fragsPerBlock - n
    · rw [if_pos (by omega), if_pos hkr, hkr, Function.update_self]
      grind
    · rw [if_neg hkr]
      split
      · rw [Function.update_of_ne hkr]
      · rfl
  · intro cyl _
    simp only [blockFullAt, blockFull, hfull, hafter, if_true, Bool.false_eq_true, if_false]
    rw [update_btot]
    have h1 : UInt32.ofNat 1 = 1 := rfl
    have h0 : UInt32.ofNat 0 = 0 := rfl
    cases inCyl sb cyl b <;> simp only [if_true, Bool.false_eq_true, if_false] <;> grind
  · intro cyl _ rot _
    simp only [blockFullAt, blockFull, hfull, hafter, if_true, Bool.false_eq_true, if_false]
    rw [update_bpos]
    have h1 : UInt16.ofNat 1 = 1 := rfl
    have h0 : UInt16.ofNat 0 = 0 := rfl
    cases atRot sb cyl rot b <;> simp only [if_true, Bool.false_eq_true, if_false] <;> grind

/-- The loose fragments of a block into which a run is put back. -/
theorem ones_setBlockBits {free : Nat → Bool} {fpb b start n : Nat} (h : InBlock fpb b start n)
    (hclear : ∀ i, start ≤ i → i < start + n → free i = false) :
    ones (setBlockBits free start n) (b * fpb) fpb = ones free (b * fpb) fpb + n := by
  obtain ⟨s, rfl⟩ := Nat.exists_eq_add_of_le h.1
  have hend := h.2
  refine ones_of_cleared (s := s) (by omega) (fun i hi => if_pos ⟨by omega, by omega⟩)
    (fun i hi => hclear _ (by omega) (by omega)) fun i hi hout => (if_neg (by omega)).symm

/-- Putting a run back keeps the group's counters. -/
theorem Cg.Consistent.giveFrags {sb : Superblock} (hg : Geometry sb) {cg : Cg}
    (hc : cg.Consistent sb) {b start n : Nat} (hn : 0 < n)
    (hin : InBlock sb.fragsPerBlock b start n) (hend : start + n ≤ cg.ndblk)
    (hclear : ∀ i, start ≤ i → i < start + n → cg.free i = false) :
    (cg.giveFrags sb (b * sb.fragsPerBlock) start n).Consistent sb := by
  have hfpb : 0 < sb.fragsPerBlock := by rcases hg.fpb_cases with h | h | h | h <;> omega
  have hb : b < cg.blocks sb.fragsPerBlock := by
    rw [← hin.div_eq le_rfl (by omega)]
    exact cg.div_lt_blocks hfpb (by omega)
  have hbefore : allSet cg.free (b * sb.fragsPerBlock) sb.fragsPerBlock = false :=
    not_allSet hin.1 (by have := hin.2; omega) (hclear start le_rfl (by omega))
  have hones := ones_setBlockBits hin hclear
  have hlt : ∀ i, setBlockBits cg.free start n i = true → i < cg.ndblk := by
    intro i hi
    simp only [setBlockBits] at hi
    split at hi
    · omega
    · exact hc.free_lt i hi
  have h1 : UInt32.ofNat 1 = 1 := rfl
  have h0 : UInt32.ofNat 0 = 0 := rfl
  by_cases hfull : allSet (setBlockBits cg.free start n) (b * sb.fragsPerBlock)
      sb.fragsPerBlock = true
  · -- the block becomes free as a whole
    have hall := allSet_iff.mp hfull
    rw [ones_of_all hall] at hones
    have hfirst : b * sb.fragsPerBlock < sb.fragsPerGroup := by
      have := hlt _ (hall 0 hfpb)
      have := hc.ndblk_le
      omega
    rw [Cg.giveFrags, if_pos (by simpa [blockIsFree] using hfull), Cg.addBlock_eq hg _ hfirst]
    refine hc.change hg hb rfl (fun i hi => setBlockBits_of_block hin hi) hlt ?_ ?_ ?_ ?_ ?_
    · simp only [blockFull, hfull, hbefore, if_true, Bool.false_eq_true, if_false]
      grind
    · simp only [blockFrags, hfull, hbefore, if_true, Bool.false_eq_true, if_false]
      rw [hones, UInt32.ofNat_add]
      grind
    · intro k hk hkf
      simp only [blockRuns, hfull, hbefore, if_true, Bool.false_eq_true, if_false]
      rw [applyCgFrsumDelta_eq cg.frsum _ _ hk hkf, runs_of_all hall hkf]
    · intro cyl _
      simp only [blockFullAt, blockFull, hfull, hbefore, if_true, Bool.false_eq_true, if_false]
      rw [update_btot]
      cases inCyl sb cyl b <;> simp only [if_true, Bool.false_eq_true, if_false] <;> grind
    · intro cyl _ rot _
      simp only [blockFullAt, blockFull, hfull, hbefore, if_true, Bool.false_eq_true, if_false]
      rw [update_bpos]
      have h1 : UInt16.ofNat 1 = 1 := rfl
      have h0 : UInt16.ofNat 0 = 0 := rfl
      cases atRot sb cyl rot b <;> simp only [if_true, Bool.false_eq_true, if_false] <;> grind
  · rw [Bool.not_eq_true] at hfull
    have hkeep : ∀ here, blockFullAt sb.fragsPerBlock here b cg.free =
        blockFullAt sb.fragsPerBlock here b (setBlockBits cg.free start n) := fun here => by
      simp [blockFullAt, blockFull, hfull, hbefore]
    rw [Cg.giveFrags, if_neg (by simpa [blockIsFree] using hfull)]
    refine hc.change hg hb rfl (fun i hi => setBlockBits_of_block hin hi) hlt ?_ ?_ ?_ ?_ ?_
    · simp [blockFull, hfull, hbefore]
    · simp only [blockFrags, hfull, hbefore, Bool.false_eq_true, if_false]
      rw [hones, UInt32.ofNat_add]
      grind
    · intro k hk hkf
      simp only [blockRuns, hfull, hbefore, Bool.false_eq_true, if_false]
      exact applyCgFrsumDelta_eq cg.frsum _ _ hk hkf
    · exact fun cyl _ => by rw [hkeep]
    · exact fun cyl _ rot _ => by rw [hkeep]

end NextUfs.Core
