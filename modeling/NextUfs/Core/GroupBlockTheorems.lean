/-
NextUfs.Core.GroupBlockTheorems — the indices of the allocator stay inside
the arrays they are formed for.

`Safe x Q` says that `x` touches its own arrays only, from any buffer, and
that its results have `Q`; each function of `Core.GroupBlock` has one lemma.
The free map is whole bytes, and a block never crosses one of them, so that
a block which begins inside the group ends inside the map even where the
group ends in the middle of it.
-/
import NextUfs.Core.GroupBlock
import NextUfs.Core.LayoutTheorems
import NextUfs.Core.AllocRunTheorems

namespace NextUfs.Core

open NextUfs.Lib NextUfs.Lib.ByteStore NextUfs.Lib.StateResult

/-- A touch lies in the array it is for. -/
def Touch.Inside (sb : Superblock) (t : Touch) : Prop := t.bytes.Within (t.array.region sb)

instance (sb : Superblock) (t : Touch) : Decidable (t.Inside sb) := by
  unfold Touch.Inside
  infer_instance

/-- Every touch so far was inside. -/
def CgBuf.Inside (sb : Superblock) (s : CgBuf) : Prop := ∀ t ∈ s.log, t.Inside sb

/-- `x` touches the inside of arrays only, and its results have `Q`. -/
abbrev Safe {α : Type} (sb : Superblock) (Q : α → Prop) (x : CgM α) : Prop :=
  Keeps (CgBuf.Inside sb) Q x

/-- No result is excluded. -/
abbrev Anything {α : Type} : α → Prop := fun _ => True

section Safety

variable {sb : Superblock}

/-! ## Words and bits -/

theorem safe_touch {array : CgArray} {off size : Nat}
    (h : Region.Within ⟨off, size⟩ (array.region sb)) : Safe sb Anything (touch array off size) :=
  keeps_modify fun _ hs t ht => by
    rcases List.mem_cons.mp ht with rfl | ht
    · exact h
    · exact hs t ht

theorem safe_readWord (off : Nat) : Safe sb Anything (readWord off) :=
  keeps_bind keeps_get fun _ _ => keeps_pure trivial

theorem safe_writeWord (off value : Nat) : Safe sb Anything (writeWord off value) :=
  keeps_modify fun _ hs => hs

theorem safe_addWord {array : CgArray} {off delta : Nat}
    (h : Region.Within ⟨off, 4⟩ (array.region sb)) : Safe sb Anything (addWord array off delta) :=
  keeps_bind (safe_touch h) fun _ _ => keeps_bind (safe_readWord _) fun _ _ => safe_writeWord _ _

theorem safe_addHalf {array : CgArray} {off delta : Nat}
    (h : Region.Within ⟨off, 2⟩ (array.region sb)) : Safe sb Anything (addHalf array off delta) :=
  keeps_bind (safe_touch h) fun _ _ => keeps_modify fun _ hs => hs

theorem safe_readBit {array : CgArray} {off i : Nat}
    (h : Region.Within ⟨off + i / 8, 1⟩ (array.region sb)) :
    Safe sb Anything (readBit array off i) :=
  keeps_bind (safe_touch h) fun _ _ => keeps_bind keeps_get fun _ _ => keeps_pure trivial

theorem safe_setBit {array : CgArray} {off i : Nat}
    (h : Region.Within ⟨off + i / 8, 1⟩ (array.region sb)) :
    Safe sb Anything (setBit array off i) :=
  keeps_bind (safe_touch h) fun _ _ => keeps_modify fun _ hs => hs

theorem safe_clearBit {array : CgArray} {off i : Nat}
    (h : Region.Within ⟨off + i / 8, 1⟩ (array.region sb)) :
    Safe sb Anything (clearBit array off i) :=
  keeps_bind (safe_touch h) fun _ _ => keeps_modify fun _ hs => hs

/-! ## The free map -/

/-- How many bits the free map has. -/
def mapBits (sb : Superblock) : Nat := (sb.fragsPerGroup + 7) / 8 * 8

theorem fpg_le_mapBits : sb.fragsPerGroup ≤ mapBits sb := by
  unfold mapBits
  omega

theorem free_inside {i : Nat} (h : i < mapBits sb) :
    Region.Within ⟨CG_FREE_OFF + i / 8, 1⟩ (CgArray.free.region sb) := by
  unfold mapBits at h
  simp only [Region.Within, Region.stop, CgArray.region]
  omega

/-- A block that begins in the group ends in the map. -/
theorem block_le_mapBits (hg : Geometry sb) {base : Nat} (hbase : base % sb.fragsPerBlock = 0)
    (h : base < sb.fragsPerGroup) : base + sb.fragsPerBlock ≤ mapBits sb := by
  unfold mapBits
  rcases hg.fpb_cases with hf | hf | hf | hf <;> rw [hf] at hbase ⊢ <;> omega

theorem safe_runIsFree : ∀ (n base : Nat), base + n ≤ mapBits sb →
    Safe sb Anything (runIsFree base n)
  | 0, _, _ => keeps_pure trivial
  | n + 1, base, h => keeps_bind (safe_readBit (free_inside (by omega))) fun b _ => by
      cases b
      · exact keeps_pure trivial
      · exact safe_runIsFree n (base + 1) (by omega)

theorem safe_clearRun : ∀ (n base : Nat), base + n ≤ mapBits sb →
    Safe sb Anything (clearRun base n)
  | 0, _, _ => keeps_pure trivial
  | n + 1, base, h => keeps_bind (safe_clearBit (free_inside (by omega))) fun _ _ =>
      safe_clearRun n (base + 1) (by omega)

theorem safe_giveRun : ∀ (n base : Nat), base + n ≤ mapBits sb →
    Safe sb Anything (giveRun base n)
  | 0, _, _ => keeps_pure trivial
  | n + 1, base, h => keeps_bind (safe_readBit (free_inside (by omega))) fun _ _ =>
      keeps_bind keeps_check fun _ _ =>
      keeps_bind (safe_setBit (free_inside (by omega))) fun _ _ =>
      safe_giveRun n (base + 1) (by omega)

theorem safe_freeRunLength : ∀ (n base : Nat), base + n ≤ mapBits sb →
    Safe sb Anything (freeRunLength base n)
  | 0, _, _ => keeps_pure trivial
  | n + 1, base, h => keeps_bind (safe_readBit (free_inside (by omega))) fun b _ => by
      cases b
      · exact keeps_pure trivial
      · exact keeps_bind (safe_freeRunLength n (base + 1) (by omega)) fun _ _ => keeps_pure trivial

theorem safe_countRunsLoop {base fpb : Nat} (h : base + fpb ≤ mapBits sb) :
    ∀ (fuel i : Nat) (counts : Nat → Nat), Safe sb Anything (countRunsLoop base fpb fuel i counts)
  | 0, _, _ => keeps_pure trivial
  | fuel + 1, i, counts => by
    unfold countRunsLoop
    split
    · exact keeps_bind (safe_freeRunLength _ _ (by omega)) fun _ _ => safe_countRunsLoop h _ _ _
    · exact keeps_pure trivial

theorem safe_countRuns {base fpb : Nat} (h : base + fpb ≤ mapBits sb) :
    Safe sb Anything (countRuns base fpb) := safe_countRunsLoop h _ _ _

/-! ## The counters -/

theorem frsum_inside {k : Nat} (h : k < MAXFRAG) :
    Region.Within ⟨CG_FRSUM_OFF + k * 4, 4⟩ (CgArray.frsum.region sb) := by
  unfold MAXFRAG at h
  simp only [Region.Within, Region.stop, CgArray.region, CG_FRSUM_OFF, MAXFRAG]
  omega

theorem safe_applyFrsumDelta (before after : Nat → Nat) : ∀ n : Nat, n < MAXFRAG →
    Safe sb Anything (applyFrsumDelta before after n)
  | 0, _ => keeps_pure trivial
  | n + 1, h => keeps_bind (safe_applyFrsumDelta before after n (by omega)) fun _ _ =>
      keeps_bind (safe_touch (frsum_inside h)) fun _ _ => by
        split
        · exact safe_addWord (frsum_inside h)
        · exact keeps_pure trivial

theorem safe_addBlockCounts (frag delta : Nat) : Safe sb Anything (addBlockCounts sb frag delta) := by
  unfold addBlockCounts
  dsimp only
  split
  · rename_i h
    obtain ⟨hcyl, hrot⟩ := h
    unfold NRPOS at hrot
    refine keeps_bind (safe_addWord ?_) fun _ _ => safe_addHalf ?_
    all_goals
      simp only [Region.Within, Region.stop, CgArray.region, CG_BTOT_OFF, CG_BPOS_OFF, MAXCPG,
        NRPOS]
      omega
  · exact keeps_pure trivial

theorem fpb_pred_lt (hg : Geometry sb) : sb.fragsPerBlock - 1 < MAXFRAG := by
  unfold MAXFRAG
  rcases hg.fpb_cases with h | h | h | h <;> omega

theorem safe_takeRun (hg : Geometry sb) {base start n : Nat}
    (hbase : base + sb.fragsPerBlock ≤ mapBits sb) (hstart : start + n ≤ mapBits sb) :
    Safe sb Anything (takeRun sb.fragsPerBlock base start n) :=
  keeps_bind (safe_countRuns hbase) fun _ _ =>
  keeps_bind (safe_clearRun _ _ hstart) fun _ _ =>
  keeps_bind (safe_countRuns hbase) fun _ _ =>
  keeps_bind (safe_applyFrsumDelta _ _ _ (fpb_pred_lt hg)) fun _ _ =>
  keeps_bind (safe_readWord _) fun _ _ => safe_writeWord _ _

/-! ## Fragments -/

theorem safe_findRun {n stop : Nat} (h : stop ≤ mapBits sb) : ∀ (fuel start : Nat),
    Safe sb (fun found => ∀ r, found = some r → r + n ≤ stop) (findRun n stop fuel start)
  | 0, _ => keeps_pure fun _ hr => nomatch hr
  | fuel + 1, start => by
    unfold findRun
    split
    · rename_i hle
      refine keeps_bind (safe_runIsFree n start (by omega)) fun b _ => ?_
      cases b
      · exact safe_findRun h fuel (start + 1)
      · refine keeps_pure fun r hr => ?_
        cases hr
        exact hle
    · exact keeps_pure fun _ hr => nomatch hr

theorem safe_findInBlock {fpb local_frag : Nat} (n limit : Nat)
    (hblock : local_frag + fpb ≤ mapBits sb) :
    Safe sb (fun found => ∀ r, found = some r → r + n ≤ limit)
      (findInBlock fpb n limit local_frag) := by
  have hwhole : Safe sb Anything (isFreeBlock fpb (min (local_frag + fpb) limit) local_frag) := by
    unfold isFreeBlock
    split
    · exact safe_runIsFree _ _ hblock
    · exact keeps_pure trivial
  refine keeps_bind hwhole fun b _ => ?_
  cases b
  · refine (safe_findRun (n := n) (by omega) _ _).mono fun found h r hr => ?_
    have := h r hr
    omega
  · exact keeps_pure fun _ hr => nomatch hr

/-- What the first search finds lies in a block that begins in the group. -/
theorem safe_findPartial (hg : Geometry sb) {n limit : Nat} (hl : limit ≤ sb.fragsPerGroup) :
    ∀ (fuel i : Nat), Safe sb
      (fun found => ∀ b r, found = some (b, r) →
        b + sb.fragsPerBlock ≤ mapBits sb ∧ r + n ≤ limit)
      (findPartial sb.fragsPerBlock n limit fuel i)
  | 0, _ => keeps_pure fun _ _ hr => nomatch hr
  | fuel + 1, i => by
    unfold findPartial
    split
    · rename_i hlt
      have hblock := block_le_mapBits hg (Nat.mul_mod_left i sb.fragsPerBlock)
        (Nat.lt_of_lt_of_le hlt hl)
      refine keeps_bind (safe_findInBlock n limit hblock) fun found hfound => ?_
      cases found with
      | none => exact safe_findPartial hg hl fuel (i + 1)
      | some start =>
        refine keeps_pure fun b r hr => ?_
        cases hr
        exact ⟨hblock, hfound start rfl⟩
    · exact keeps_pure fun _ _ hr => nomatch hr

theorem safe_findWhole {fpb limit : Nat} (h : limit ≤ mapBits sb) : ∀ (fuel i : Nat),
    Safe sb (fun found => ∀ b, found = some b → b + fpb ≤ limit) (findWhole fpb limit fuel i)
  | 0, _ => keeps_pure fun _ hr => nomatch hr
  | fuel + 1, i => by
    unfold findWhole
    split
    · rename_i hle
      refine keeps_bind (safe_runIsFree _ _ (by omega)) fun b _ => ?_
      cases b
      · exact safe_findWhole h fuel (i + 1)
      · refine keeps_pure fun r hr => ?_
        cases hr
        exact hle
    · exact keeps_pure fun _ hr => nomatch hr

theorem safe_splitWhole (hg : Geometry sb) {frag n : Nat} (hn : n ≠ 0)
    (h : frag + n ≤ mapBits sb) : Safe sb Anything (splitWhole sb frag n) := by
  refine keeps_bind (safe_clearRun _ _ h) fun _ _ =>
    keeps_bind (safe_writeWord _ _) fun _ _ =>
    keeps_bind (safe_readWord _) fun _ _ =>
    keeps_bind (safe_writeWord _ _) fun _ _ =>
    keeps_bind (safe_readWord _) fun _ _ =>
    keeps_bind (safe_writeWord _ _) fun _ _ => keeps_bind (Q := Anything) ?_ fun _ _ =>
    safe_addBlockCounts _ _
  unfold addLeftRun
  split
  · have := fpb_pred_lt hg
    exact safe_addWord (frsum_inside (by omega))
  · exact keeps_pure trivial

theorem safe_allocateFragsInBlock (hg : Geometry sb) (cg n : Nat) :
    Safe sb Anything (allocateFragsInBlock sb cg n) := by
  refine keeps_bind keeps_check fun _ hn =>
    keeps_bind (safe_readWord _) fun _ _ =>
    keeps_bind keeps_check fun _ _ =>
    keeps_bind (safe_readWord _) fun limit _ =>
    keeps_bind keeps_check fun _ hlimit => ?_
  have hmap : sb.fragsPerGroup ≤ mapBits sb := fpg_le_mapBits
  have hsearch : Safe sb (fun found => ∀ b r, found = some (b, r) →
      b + sb.fragsPerBlock ≤ mapBits sb ∧ r + n ≤ limit) (searchPartial sb limit n) := by
    refine keeps_bind (safe_readWord _) fun _ _ => ?_
    split
    · exact safe_findPartial hg hlimit.1 _ _
    · exact keeps_pure fun _ _ hr => nomatch hr
  refine keeps_bind hsearch fun found hfound => ?_
  cases found with
  | some x =>
    obtain ⟨hblock, hrun⟩ := hfound x.1 x.2 rfl
    exact keeps_bind (safe_takeRun hg hblock (by omega)) fun _ _ => keeps_pure trivial
  | none =>
    refine keeps_bind (safe_readWord _) fun _ _ =>
      keeps_bind keeps_check fun _ _ =>
      keeps_bind (safe_findWhole (by omega) _ _) fun found hfound => ?_
    cases found with
    | some b =>
      have := hfound b rfl
      exact keeps_bind (safe_splitWhole hg hn.1 (by omega)) fun _ _ => keeps_pure trivial
    | none => exact keeps_throw

/-- The block around a fragment of the group ends in the map. -/
theorem around_le_mapBits (hg : Geometry sb) (frag_base : Nat) :
    frag_base % sb.fragsPerGroup - frag_base % sb.fragsPerGroup % sb.fragsPerBlock +
      sb.fragsPerBlock ≤ mapBits sb := by
  have hmod := Nat.mod_lt frag_base hg.fpg_pos
  refine block_le_mapBits hg ?_ (by omega)
  generalize frag_base % sb.fragsPerGroup = x
  have hdiv := Nat.div_add_mod x sb.fragsPerBlock
  have : x - x % sb.fragsPerBlock = sb.fragsPerBlock * (x / sb.fragsPerBlock) := by omega
  rw [this, Nat.mul_mod_right]

theorem safe_extendRunInBlock (hg : Geometry sb) (frag_base old_frags new_frags : Nat) :
    Safe sb Anything (extendRunInBlock sb frag_base old_frags new_frags) := by
  have haround := around_le_mapBits hg frag_base
  refine keeps_bind keeps_check fun _ hnew =>
    keeps_bind keeps_check fun _ hfit =>
    keeps_bind (safe_readWord _) fun _ _ =>
    keeps_bind keeps_check fun _ _ =>
    keeps_bind (safe_runIsFree _ _ (by omega)) fun _ _ =>
    keeps_bind keeps_check fun _ _ => safe_takeRun hg haround (by omega)

theorem safe_freeRunInBlock (hg : Geometry sb) {frag_base frags : Nat}
    (hin : frag_base % sb.fragsPerGroup + frags ≤ mapBits sb) :
    Safe sb Anything (freeRunInBlock sb frag_base frags) := by
  have haround := around_le_mapBits hg frag_base
  refine keeps_bind keeps_check fun _ _ =>
    keeps_bind (safe_readWord _) fun _ _ =>
    keeps_bind keeps_check fun _ _ =>
    keeps_bind (safe_countRuns haround) fun _ _ =>
    keeps_bind (safe_giveRun _ _ hin) fun _ _ =>
    keeps_bind (safe_countRuns haround) fun _ _ =>
    keeps_bind (safe_applyFrsumDelta _ _ _ (fpb_pred_lt hg)) fun _ _ =>
    keeps_bind (safe_runIsFree _ _ haround) fun whole _ =>
    keeps_bind (safe_readWord _) fun _ _ => ?_
  cases whole
  · exact safe_writeWord _ _
  · exact keeps_bind (safe_writeWord _ _) fun _ _ =>
      keeps_bind (safe_readWord _) fun _ _ =>
      keeps_bind (safe_writeWord _ _) fun _ _ => safe_addBlockCounts _ _

/-! ## Inodes -/

theorem iused_inside (hg : Geometry sb) (idx : Nat) :
    Region.Within ⟨CG_IUSED_OFF + idx % sb.inodesPerGroup / 8, 1⟩ (CgArray.iused.region sb) := by
  have h₁ := Nat.mod_lt idx hg.ipg_pos
  have h₂ := hg.ipg_le
  simp only [Region.Within, Region.stop, CgArray.region, MAXIPG]
  omega

theorem safe_findInode (hg : Geometry sb) (cg start : Nat) : ∀ (fuel i : Nat),
    Safe sb (fun found => ∀ idx, found = some idx → idx % sb.inodesPerGroup = idx)
      (findInode sb cg start fuel i)
  | 0, _ => keeps_pure fun _ hr => nomatch hr
  | fuel + 1, i => by
    have hfree : Safe sb Anything (inodeIsFree cg ((start + i) % sb.inodesPerGroup)) :=
      keeps_bind (safe_readBit (iused_inside hg _)) fun _ _ => keeps_pure trivial
    refine keeps_bind hfree fun b _ => ?_
    cases b
    · exact safe_findInode hg cg start fuel (i + 1)
    · refine keeps_pure fun idx hr => ?_
      cases hr
      exact Nat.mod_mod _ _

theorem safe_allocateInodeInBlock (hg : Geometry sb) (cg : Nat) (directory : Bool) :
    Safe sb Anything (allocateInodeInBlock sb cg directory) := by
  refine keeps_bind (safe_readWord _) fun _ _ =>
    keeps_bind keeps_check fun _ _ =>
    keeps_bind (safe_readWord _) fun _ _ =>
    keeps_bind keeps_check fun _ _ =>
    keeps_bind (safe_readWord _) fun _ _ =>
    keeps_bind (safe_findInode hg _ _ _ _) fun found hfound => ?_
  cases found with
  | none => exact keeps_throw
  | some idx =>
    have hidx := iused_inside hg idx
    rw [hfound idx rfl] at hidx
    exact keeps_bind (safe_setBit hidx) fun _ _ =>
      keeps_bind (safe_writeWord _ _) fun _ _ =>
      keeps_bind (safe_writeWord _ _) fun _ _ =>
      keeps_bind (safe_readWord _) fun _ _ =>
      keeps_bind (safe_writeWord _ _) fun _ _ => keeps_pure trivial

theorem safe_freeInodeInBlock (hg : Geometry sb) (inode_no : Nat) (directory : Bool) :
    Safe sb Anything (freeInodeInBlock sb inode_no directory) :=
  keeps_bind (safe_readWord _) fun _ _ =>
  keeps_bind keeps_check fun _ _ =>
  keeps_bind (safe_readBit (iused_inside hg _)) fun _ _ =>
  keeps_bind keeps_check fun _ _ =>
  keeps_bind (safe_clearBit (iused_inside hg _)) fun _ _ =>
  keeps_bind (safe_readWord _) fun _ _ =>
  keeps_bind (safe_writeWord _ _) fun _ _ =>
  keeps_bind (safe_readWord _) fun _ _ => safe_writeWord _ _

end Safety

/-! ## The calls -/

/-- A call of the allocator on a group's block. -/
inductive GroupCall where
  | allocateFrags (cg n : Nat)
  | extendRun (frag_base old_frags new_frags : Nat)
  | freeRun (frag_base frags : Nat)
  | allocateInode (cg : Nat) (directory : Bool)
  | freeInode (inode_no : Nat) (directory : Bool)

/-- The call, its result left out. -/
def GroupCall.run (sb : Superblock) : GroupCall → CgM PUnit
  | .allocateFrags cg n => do
    let _ ← allocateFragsInBlock sb cg n
    return ⟨⟩
  | .extendRun frag_base old_frags new_frags => extendRunInBlock sb frag_base old_frags new_frags
  | .freeRun frag_base frags => freeRunInBlock sb frag_base frags
  | .allocateInode cg directory => do
    let _ ← allocateInodeInBlock sb cg directory
    return ⟨⟩
  | .freeInode inode_no directory => freeInodeInBlock sb inode_no directory

/-- A run to be freed lies in one block, as every run the allocator gave out does. -/
def GroupCall.InBlock (sb : Superblock) : GroupCall → Prop
  | .freeRun frag_base frags =>
    frag_base % sb.fragsPerGroup % sb.fragsPerBlock + frags ≤ sb.fragsPerBlock
  | _ => True

/-- The touches of a call on a buffer. -/
def GroupCall.touches (sb : Superblock) (call : GroupCall) (bytes : ByteStore) : List Touch :=
  (final (call.run sb ⟨bytes, []⟩)).log

/-- Every call touches the inside of its arrays only, whatever the block holds. -/
theorem GroupCall.inside {sb : Superblock} (hg : Geometry sb) (call : GroupCall)
    (hin : call.InBlock sb) (bytes : ByteStore) : ∀ t ∈ call.touches sb bytes, t.Inside sb := by
  have hsafe : Safe sb Anything (call.run sb) := by
    cases call with
    | allocateFrags cg n =>
      exact keeps_bind (safe_allocateFragsInBlock hg cg n) fun _ _ => keeps_pure trivial
    | extendRun frag_base old_frags new_frags =>
      exact safe_extendRunInBlock hg frag_base old_frags new_frags
    | freeRun frag_base frags =>
      have hblock : frag_base % sb.fragsPerGroup % sb.fragsPerBlock + frags ≤ sb.fragsPerBlock := hin
      have haround := around_le_mapBits hg frag_base
      exact safe_freeRunInBlock hg (by omega)
    | allocateInode cg directory =>
      exact keeps_bind (safe_allocateInodeInBlock hg cg directory) fun _ _ => keeps_pure trivial
    | freeInode inode_no directory => exact safe_freeInodeInBlock hg inode_no directory
  have hends := hsafe ⟨bytes, []⟩ fun t ht => nomatch ht
  unfold GroupCall.touches
  cases hr : call.run sb ⟨bytes, []⟩ with
  | ok a s =>
    rw [hr] at hends
    exact hends.1
  | error e s =>
    rw [hr] at hends
    exact hends

/-- What the validator guarantees about the places of the structures: every group lies in the
slice, apart from the others, with its block, inode table and data area in it, and its superblock
copy where there is room; the summary lies in group 0's data area where it begins behind the
metadata; every inode has a record of its own in its group's table; and the allocator's indices
stay inside their arrays. -/
theorem image_layout {img : Image} (h : imageValidate img = true) :
    (∀ cg < img.sb.cgCount, (img.sb.group cg).Within img.slice ∧ Placed img.sb cg) ∧
    (∀ c < img.sb.cgCount, ∀ d < img.sb.cgCount, c ≠ d →
      (img.sb.group c).Apart (img.sb.group d)) ∧
    (img.sb.dataOff ≤ img.sb.cylSummaryAddr →
      img.sb.summary.stop ≤ (img.sb.group 0).stop → img.sb.summary.Within (img.sb.dataArea 0)) ∧
    (∀ i < img.sb.cgCount * img.sb.inodesPerGroup, ∃ off, inodeOffset img.sb i = some off ∧
      (Superblock.inodeRecord off).Within (img.sb.inodeTable (i / img.sb.inodesPerGroup))) ∧
    (∀ i < img.sb.cgCount * img.sb.inodesPerGroup,
      ∀ j < img.sb.cgCount * img.sb.inodesPerGroup, i ≠ j → ∀ oi oj,
        inodeOffset img.sb i = some oi → inodeOffset img.sb j = some oj →
          (Superblock.inodeRecord oi).Apart (Superblock.inodeRecord oj)) ∧
    ∀ call : GroupCall, call.InBlock img.sb → ∀ bytes, ∀ t ∈ call.touches img.sb bytes,
      t.Inside img.sb := by
  have hg := img.geometry h
  have hl := img.layout h
  refine ⟨fun cg hcg => ⟨group_within hg hl img rfl hcg, placed hg hl hcg⟩,
    fun c hc d hd hne => group_apart hg hc hd hne, summary_within hg hl, fun i hi => ?_,
    fun i hi j hj hne oi oj hoi hoj => inodes_apart hg hl hi hj hne hoi hoj,
    fun call hin bytes => call.inside hg hin bytes⟩
  exact ⟨_, inodeOffset_eq hg hl i, inode_within hg hl (inodeOffset_eq hg hl i)⟩

theorem image_layout_oneGroup : (oneGroup.sb.group 0).Within oneGroup.slice ∧
    Placed oneGroup.sb 0 :=
  (image_layout (by decide +kernel : imageValidate oneGroup = true)).1 0 (by decide)

/-- A superblock that leaves no room for the copies and the blocks. -/
def crowded : Image :=
  { oneGroup with sb := { oneGroup.sb with sbOff := 9, cgOff := 9, inoOff := 10, cgSize := 8192 } }

/-- The summary lies in a data area; a validated superblock may put the superblock copy, the
group's block, the inode table and the primary superblock on one another; and a run to be freed
that leaves its block may leave the free map. -/
theorem image_layout_overlaps :
    (imageValidate oneGroup = true ∧ ¬ oneGroup.sb.summary.Apart (oneGroup.sb.dataArea 0)) ∧
    (imageValidate crowded = true ∧ ¬ (crowded.sb.superCopy 0).Apart (crowded.sb.cgBlock 0) ∧
      ¬ (crowded.sb.cgBlock 0).Apart (crowded.sb.inodeTable 0) ∧
      ¬ crowded.sb.primary.Apart (crowded.sb.superCopy 0)) ∧
    ∃ t ∈ (GroupCall.freeRun 63 8).touches oneGroup.sb (setBe32 (fun _ => 0) CG_MAGIC_OFF CG_MAGIC),
      ¬ t.Inside oneGroup.sb := by
  refine ⟨by decide +kernel, by decide +kernel, ?_⟩
  decide +kernel

end NextUfs.Core
