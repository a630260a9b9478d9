/-
NextUfs.Core.LayoutTheorems — what `nextufs_image_validate` guarantees about
the places of the structures.

`Layout` collects the facts of the validator's chain that speak of offsets;
`Geometry` has those about sizes. A group is the range of its fragments, so
whatever lies in two different groups is apart (`group_apart`), and what is
left to show for each structure is its place inside its group.
-/
import NextUfs.Core.Layout

namespace NextUfs.Core

open NextUfs.Lib

/-- The facts about offsets that hold of a validated image. -/
structure Layout (s : Superblock) (sliceSize : Nat) : Prop where
  fragShift : 2 ^ s.fragShift = s.fragsPerBlock
  inodesPerBlock : s.inodesPerBlock * UFS_INODE_SIZE = s.blockSize
  inodesPerGroup : s.inodesPerGroup % s.inodesPerBlock = 0
  cgSize_le : s.cgSize ≤ s.blockSize
  sbOff_le : s.sbOff ≤ s.cgOff
  cgOff_lt : s.cgOff < s.inoOff
  table_le : s.inoOff + (s.inodesPerGroup * UFS_INODE_SIZE + s.fragSize - 1) / s.fragSize ≤ s.dataOff
  /-- The rotating offset leaves room for the metadata. -/
  delta_le : s.cgDelta * not32 s.cgCycMask + s.dataOff ≤ s.fragsPerGroup
  last_le : cgstart s (s.cgCount - 1) + s.dataOff ≤ s.fragCount
  fits : s.fragCount * s.fragSize ≤ sliceSize
  summary_le : s.cylSummaryAddr * s.fragSize + s.csumSize ≤ s.fragCount * s.fragSize
  /-- The summary table has an entry for every group. -/
  csumSize_ge : s.cgCount * 16 ≤ s.csumSize

theorem Image.layout {img : Image} (h : imageValidate img = true) :
    Layout img.sb img.sliceSize := by
  have hg := img.geometry h
  obtain ⟨hs, hl, he⟩ := of_decide_eq_true h
  simp only [ShapeRejected, LayoutRejected, ExtentRejected, not_or, ne_eq, not_not, Nat.not_lt,
    ge_iff_le, gt_iff_lt, Nat.not_le] at hs hl he
  obtain ⟨-, -, -, -, -, -, -, -, -, -, -, -, -, -, -, -, hipb, -, hdelta, -, -⟩ := hs
  obtain ⟨-, -, -, -, -, -, -, -, -, hshift, hipb', -, -, -, -, -, -, -, -, hcgs, -, -, -, -, -,
    -, -, -, -, -, -, hcsum, -, hsb, hcg, -, htable⟩ := hl
  have hbm := hg.block_mod
  have hlast : pred32 img.sb.cgCount = img.sb.cgCount - 1 := by
    have h₁ := hg.cg_pos
    have h₂ : img.sb.cgCount ≤ INT32_MAX :=
      Nat.le_trans (Nat.le_mul_of_pos_right _ hg.ipg_pos) hg.inodes_le
    unfold INT32_MAX at h₂
    unfold pred32
    omega
  exact
    { fragShift := hshift
      inodesPerBlock := by
        rw [hipb']
        exact Nat.div_mul_cancel (Nat.dvd_of_mod_eq_zero (by unfold UFS_INODE_SIZE; omega))
      inodesPerGroup := hipb.2
      cgSize_le := hcgs
      sbOff_le := hsb
      cgOff_lt := hcg
      table_le := htable
      delta_le := hdelta
      last_le := hlast ▸ he.2.1
      fits := he.1
      summary_le := he.2.2
      csumSize_ge := hcsum }

section Place

variable {s : Superblock} {sliceSize : Nat} (hg : Geometry s) (hl : Layout s sliceSize)
include hg

/-! ## Groups -/

/-- Every group but the last ends before the filesystem does. -/
theorem groupEnd_of_lt {cg : Nat} (h : cg + 1 < s.cgCount) :
    s.fragsPerGroup * (cg + 1) ≤ s.fragCount := by
  have hdiv : s.fragsPerGroup * s.cgCount ≤ s.fragCount + s.fragsPerGroup - 1 := by
    rw [hg.cg_count]
    exact Nat.mul_div_le _ _
  have hle : s.fragsPerGroup * (cg + 1 + 1) ≤ s.fragsPerGroup * s.cgCount :=
    Nat.mul_le_mul_left _ h
  have hpos := hg.fpg_pos
  rw [Nat.mul_add _ (cg + 1), Nat.mul_one] at hle
  omega

/-- A group begins before the filesystem ends. -/
theorem group_start_lt {cg : Nat} (h : cg < s.cgCount) : s.fragsPerGroup * cg < s.fragCount := by
  have hdiv : s.fragsPerGroup * s.cgCount ≤ s.fragCount + s.fragsPerGroup - 1 := by
    rw [hg.cg_count]
    exact Nat.mul_div_le _ _
  have hle : s.fragsPerGroup * (cg + 1) ≤ s.fragsPerGroup * s.cgCount := Nat.mul_le_mul_left _ h
  rw [Nat.mul_add, Nat.mul_one] at hle
  have hpos := hg.fpg_pos
  omega

theorem le_groupEnd {cg : Nat} (h : cg < s.cgCount) : s.fragsPerGroup * cg ≤ s.groupEnd cg := by
  have h₁ := group_start_lt hg h
  have h₂ : s.fragsPerGroup * cg ≤ s.fragsPerGroup * (cg + 1) := Nat.mul_le_mul_left _ (by omega)
  unfold Superblock.groupEnd
  omega

theorem group_stop {cg : Nat} (h : cg < s.cgCount) :
    (s.group cg).stop = s.groupEnd cg * s.fragSize := by
  unfold Superblock.group Region.stop
  rw [← Nat.add_mul]
  congr 1
  have := le_groupEnd hg h
  omega

/-- Different groups are apart. -/
theorem group_apart {c d : Nat} (hc : c < s.cgCount) (hd : d < s.cgCount) (hne : c ≠ d) :
    (s.group c).Apart (s.group d) := by
  have key : ∀ {a b : Nat}, a < s.cgCount → a < b → (s.group a).stop ≤ (s.group b).start := by
    intro a b ha hab
    rw [group_stop hg ha]
    refine Nat.mul_le_mul_right _ (Nat.le_trans (Nat.min_le_left _ _) ?_)
    exact Nat.mul_le_mul_left _ hab
  rcases Nat.lt_or_gt_of_ne hne with h | h
  · exact .inl (key hc h)
  · exact .inr (key hd h)

include hl

theorem group_within (img : Image) (hs : img.sliceSize = sliceSize) {cg : Nat}
    (h : cg < s.cgCount) : (s.group cg).Within img.slice := by
  refine ⟨Nat.zero_le _, ?_⟩
  rw [group_stop hg h]
  have : s.groupEnd cg * s.fragSize ≤ s.fragCount * s.fragSize :=
    Nat.mul_le_mul_right _ (Nat.min_le_right _ _)
  have hfits := hl.fits
  simp only [Image.slice, Region.stop, hs]
  omega

/-- The rotated metadata stays in the group. -/
theorem cgstart_le {cg : Nat} (h : cg < s.cgCount) :
    cgstart s cg + s.dataOff ≤ s.groupEnd cg := by
  have hrot : s.cgDelta * (cg &&& not32 s.cgCycMask) ≤ s.cgDelta * not32 s.cgCycMask :=
    Nat.mul_le_mul_left _ Nat.and_le_right
  have hdelta := hl.delta_le
  have hgroup : cgstart s cg + s.dataOff ≤ s.fragsPerGroup * (cg + 1) := by
    unfold cgstart
    rw [Nat.mul_add, Nat.mul_one]
    omega
  refine Nat.le_min.mpr ⟨hgroup, ?_⟩
  by_cases hlast : cg + 1 < s.cgCount
  · exact Nat.le_trans hgroup (groupEnd_of_lt hg hlast)
  · have : cg = s.cgCount - 1 := by omega
    rw [this]
    exact hl.last_le

omit hg hl in
theorem le_cgstart (cg : Nat) : s.fragsPerGroup * cg ≤ cgstart s cg := Nat.le_add_right _ _

/-! ## Places inside a group -/

/-- A region that begins at a fragment behind the group's first and ends before its data area lies
in the group, apart from the data area. -/
theorem meta_place {cg : Nat} (h : cg < s.cgCount) (off n : Nat)
    (hfit : off * s.fragSize + n ≤ s.dataOff * s.fragSize) :
    Region.Within ⟨(cgstart s cg + off) * s.fragSize, n⟩ (s.group cg) ∧
      Region.Apart ⟨(cgstart s cg + off) * s.fragSize, n⟩ (s.dataArea cg) := by
  have hstart : s.fragsPerGroup * cg * s.fragSize ≤ cgstart s cg * s.fragSize :=
    Nat.mul_le_mul_right _ (le_cgstart cg)
  have hend : (cgstart s cg + s.dataOff) * s.fragSize ≤ s.groupEnd cg * s.fragSize :=
    Nat.mul_le_mul_right _ (cgstart_le hg hl h)
  rw [Nat.add_mul] at hend
  refine ⟨⟨?_, ?_⟩, .inl ?_⟩
  · simp only [Superblock.group, Nat.add_mul]
    omega
  · rw [group_stop hg h]
    simp only [Region.stop, Nat.add_mul]
    omega
  · simp only [Superblock.dataArea, Region.stop, Nat.add_mul]
    omega

theorem dataArea_within {cg : Nat} (h : cg < s.cgCount) :
    (s.dataArea cg).Within (s.group cg) := by
  have hend := cgstart_le hg hl h
  refine ⟨Nat.mul_le_mul_right _ (Nat.le_trans (le_cgstart cg) (Nat.le_add_right _ _)), ?_⟩
  rw [group_stop hg h]
  simp only [Superblock.dataArea, Region.stop, ← Nat.add_mul]
  exact Nat.mul_le_mul_right _ (by omega)

omit hg in
/-- The inode table ends before the data area. -/
theorem table_fits (hpos : 0 < s.fragSize) :
    s.inoOff * s.fragSize + s.inodesPerGroup * UFS_INODE_SIZE ≤ s.dataOff * s.fragSize := by
  have hle := Nat.mul_le_mul_right s.fragSize hl.table_le
  have hceil := Nat.div_add_mod (s.inodesPerGroup * UFS_INODE_SIZE + s.fragSize - 1) s.fragSize
  have hmod := Nat.mod_lt (s.inodesPerGroup * UFS_INODE_SIZE + s.fragSize - 1) hpos
  rw [Nat.add_mul, Nat.mul_comm (_ / _)] at hle
  omega

/-- The group's block ends before the data area: an inode table is a block long at least. -/
theorem cgBlock_fits : s.cgOff * s.fragSize + s.cgSize ≤ s.dataOff * s.fragSize := by
  have htable := table_fits hl (by have := hg.fragSize_ge; omega)
  have hipb : 0 < s.inodesPerBlock := by
    have h₁ := hl.inodesPerBlock
    have h₂ := hg.blockSize_ge
    by_contra h0
    have : s.inodesPerBlock = 0 := by omega
    rw [this] at h₁
    omega
  have hge : s.inodesPerBlock ≤ s.inodesPerGroup :=
    Nat.le_of_dvd hg.ipg_pos (Nat.dvd_of_mod_eq_zero hl.inodesPerGroup)
  have hblock : s.blockSize ≤ s.inodesPerGroup * UFS_INODE_SIZE := by
    rw [← hl.inodesPerBlock]
    exact Nat.mul_le_mul_right _ hge
  have hoff : s.cgOff * s.fragSize ≤ s.inoOff * s.fragSize :=
    Nat.mul_le_mul_right _ (Nat.le_of_lt hl.cgOff_lt)
  have hcg := hl.cgSize_le
  omega

/-- Every structure has its place in its group, and the summary its place in group 0's data area,
as far as the superblock leaves room for them. -/
structure Placed (s : Superblock) (cg : Nat) : Prop where
  block : (s.cgBlock cg).Within (s.group cg) ∧ (s.cgBlock cg).Apart (s.dataArea cg)
  table : (s.inodeTable cg).Within (s.group cg) ∧ (s.inodeTable cg).Apart (s.dataArea cg)
  data : (s.dataArea cg).Within (s.group cg)
  /-- The block ends before the inode table when `cg_size` fits before it. -/
  block_table : s.cgOff * s.fragSize + s.cgSize ≤ s.inoOff * s.fragSize →
    (s.cgBlock cg).Apart (s.inodeTable cg)
  /-- The superblock copy ends before the block when `super_size` fits before it. -/
  superCopy : s.sbOff * s.fragSize + s.superSize ≤ s.cgOff * s.fragSize →
    (s.superCopy cg).Within (s.group cg) ∧ (s.superCopy cg).Apart (s.cgBlock cg) ∧
      (s.superCopy cg).Apart (s.inodeTable cg) ∧ (s.superCopy cg).Apart (s.dataArea cg)
  /-- The primary superblock ends before group 0's copy when that lies behind it. -/
  primary : UFS_SBLOCK_OFFSET + s.superSize ≤ s.sbOff * s.fragSize →
    s.primary.Apart (s.superCopy cg) ∧ s.primary.Apart (s.cgBlock cg) ∧
      s.primary.Apart (s.inodeTable cg) ∧ s.primary.Apart (s.dataArea cg)

theorem placed {cg : Nat} (h : cg < s.cgCount) : Placed s cg := by
  have htable := table_fits hl (by have := hg.fragSize_ge; omega)
  have hcgino : s.cgOff * s.fragSize ≤ s.inoOff * s.fragSize :=
    Nat.mul_le_mul_right _ (Nat.le_of_lt hl.cgOff_lt)
  have hsbcg : s.sbOff * s.fragSize ≤ s.cgOff * s.fragSize := Nat.mul_le_mul_right _ hl.sbOff_le
  refine
    { block := meta_place hg hl h _ _ (cgBlock_fits hg hl)
      table := meta_place hg hl h _ _ htable
      data := dataArea_within hg hl h
      block_table := fun hfit => .inl ?_
      superCopy := fun hfit => ?_
      primary := fun hfit => ?_ }
  · simp only [Superblock.cgBlock, cgBlockOffset, Superblock.inodeTable, Region.stop, Nat.add_mul]
    omega
  · have hplace := meta_place hg hl h s.sbOff s.superSize (by omega)
    refine ⟨hplace.1, .inl ?_, .inl ?_, hplace.2⟩
    all_goals
      simp only [Superblock.superCopy, Superblock.cgBlock, cgBlockOffset, Superblock.inodeTable,
        Region.stop, Nat.add_mul]
      omega
  · refine ⟨.inl ?_, .inl ?_, .inl ?_, .inl ?_⟩
    all_goals
      simp only [Superblock.primary, Superblock.superCopy, Superblock.cgBlock, cgBlockOffset,
        Superblock.inodeTable, Superblock.dataArea, Region.stop, Nat.add_mul]
      omega

/-- A summary table behind group 0's metadata lies in its data area. -/
theorem summary_within (hstart : s.dataOff ≤ s.cylSummaryAddr)
    (hend : s.summary.stop ≤ (s.group 0).stop) : s.summary.Within (s.dataArea 0) := by
  have h0 := hg.cg_pos
  have hplace := cgstart_le hg hl h0
  have hcg : cgstart s 0 = 0 := by simp [cgstart]
  have hmul : s.dataOff * s.fragSize ≤ s.cylSummaryAddr * s.fragSize :=
    Nat.mul_le_mul_right _ hstart
  rw [group_stop hg h0] at hend
  rw [hcg, Nat.zero_add] at hplace
  refine ⟨?_, ?_⟩
  · simp only [Superblock.dataArea, Superblock.summary, hcg, Nat.zero_add]
    exact hmul
  · refine Nat.le_trans hend ?_
    simp only [Superblock.dataArea, Region.stop, hcg, Nat.zero_add, ← Nat.add_mul]
    exact Nat.mul_le_mul_right _ (by omega)

/-! ## Inodes -/

/-- An inode's record is a slot of its group's table. -/
theorem inodeOffset_eq (inode_no : Nat) : inodeOffset s inode_no =
    some ((s.inodeTable (inode_no / s.inodesPerGroup)).start +
      inode_no % s.inodesPerGroup * UFS_INODE_SIZE) := by
  have hipb : s.inodesPerBlock ≠ 0 := by
    intro h0
    have h₁ := hl.inodesPerBlock
    have h₂ := hg.blockSize_ge
    rw [h0] at h₁
    omega
  unfold inodeOffset
  rw [if_neg (by
    rintro (h | h | h)
    · exact absurd h (Nat.ne_of_gt hg.ipg_pos)
    · exact absurd h (Nat.ne_of_gt hg.fpg_pos)
    · exact hipb h)]
  dsimp only
  generalize inode_no % s.inodesPerGroup = k
  have hblock : k / s.inodesPerBlock * s.fragsPerBlock * s.fragSize =
      k / s.inodesPerBlock * s.inodesPerBlock * UFS_INODE_SIZE := by
    rw [Nat.mul_assoc, hg.block_eq, Nat.mul_assoc, hl.inodesPerBlock]
  have hk : k / s.inodesPerBlock * s.inodesPerBlock + k % s.inodesPerBlock = k := by
    rw [Nat.mul_comm]
    exact Nat.div_add_mod _ _
  rw [Nat.shiftLeft_eq, hl.fragShift]
  simp only [Superblock.inodeTable, Nat.add_mul] at hblock ⊢
  rw [hblock, Nat.add_assoc, ← Nat.add_mul _ _ UFS_INODE_SIZE, hk]

/-- An inode's record lies in its group's table. -/
theorem inode_within {i off : Nat} (ho : inodeOffset s i = some off) :
    (Superblock.inodeRecord off).Within (s.inodeTable (i / s.inodesPerGroup)) := by
  rw [inodeOffset_eq hg hl] at ho
  obtain rfl := Option.some.inj ho
  have hmod := Nat.mod_lt i hg.ipg_pos
  have hmul := Nat.mul_le_mul_right UFS_INODE_SIZE (Nat.succ_le_of_lt hmod)
  rw [Nat.succ_mul] at hmul
  refine ⟨Nat.le_add_right _ _, ?_⟩
  simp only [Superblock.inodeRecord, Superblock.inodeTable, Region.stop]
  omega

/-- Records of different inodes are apart. -/
theorem inodes_apart {i j oi oj : Nat} (hi : i < s.cgCount * s.inodesPerGroup)
    (hj : j < s.cgCount * s.inodesPerGroup) (hne : i ≠ j) (hoi : inodeOffset s i = some oi)
    (hoj : inodeOffset s j = some oj) :
    (Superblock.inodeRecord oi).Apart (Superblock.inodeRecord oj) := by
  have hin := inode_within hg hl hoi
  have hjn := inode_within hg hl hoj
  have hgi : i / s.inodesPerGroup < s.cgCount := (Nat.div_lt_iff_lt_mul hg.ipg_pos).mpr hi
  have hgj : j / s.inodesPerGroup < s.cgCount := (Nat.div_lt_iff_lt_mul hg.ipg_pos).mpr hj
  by_cases hgroup : i / s.inodesPerGroup = j / s.inodesPerGroup
  · -- Two slots of one table.
    rw [inodeOffset_eq hg hl] at hoi hoj
    obtain rfl := Option.some.inj hoi
    obtain rfl := Option.some.inj hoj
    rw [hgroup]
    have hslot : i % s.inodesPerGroup ≠ j % s.inodesPerGroup := fun hmod => hne (by
      rw [← Nat.div_add_mod i s.inodesPerGroup, ← Nat.div_add_mod j s.inodesPerGroup, hgroup, hmod])
    rcases Nat.lt_or_gt_of_ne hslot with hlt | hlt
    · left
      have := Nat.mul_le_mul_right UFS_INODE_SIZE (Nat.succ_le_of_lt hlt)
      simp only [Superblock.inodeRecord, Region.stop]
      rw [Nat.succ_mul] at this
      omega
    · right
      have := Nat.mul_le_mul_right UFS_INODE_SIZE (Nat.succ_le_of_lt hlt)
      simp only [Superblock.inodeRecord, Region.stop]
      rw [Nat.succ_mul] at this
      omega
  · exact (group_apart hg hgi hgj hgroup).mono (hin.trans (placed hg hl hgi).table.1)
      (hjn.trans (placed hg hl hgj).table.1)

end Place

end NextUfs.Core
