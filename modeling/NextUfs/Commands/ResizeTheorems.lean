/-
NextUfs.Commands.ResizeTheorems — when a grow that reports success leaves an
image that can be opened for writing again.

Sections:

  §1 geometry    — the new sizes against the validator's chain.
  §2 steps       — what a step that succeeds does to the file: it keeps its
                   length, and only the superblock may change.
  §3 attempts    — a whole grow, which leaves a file of the length asked for.
  §4 reopening   — the slice that the label, or its absence, describes.
  §5 the grown image.
-/
import NextUfs.Commands.Resize
import NextUfs.Core.LabelTheorems
import NextUfs.Core.LayoutTheorems
import NextUfs.Core.AllocRunTheorems
import Mathlib.Algebra.Order.BigOperators.Group.List

namespace NextUfs.Commands

open NextUfs.Core NextUfs.Lib NextUfs.Lib.StateResult

/-! ## §1 Geometry -/

/-- A quotient rounded up. -/
theorem ceilDiv_bounds {n d : Nat} (hd : 0 < d) :
    n ≤ (n + d - 1) / d * d ∧ (n + d - 1) / d * d ≤ n + d - 1 := by
  have h₁ := Nat.div_add_mod (n + d - 1) d
  have h₂ := Nat.mod_lt (n + d - 1) hd
  rw [Nat.mul_comm] at h₁
  omega

/-- The fragments of the groups from `a` on. -/
theorem sum_cgFragCount (sb : Superblock) (frags : Nat) : ∀ (n a : Nat),
    sb.fragsPerGroup * a ≤ frags →
    sb.fragsPerGroup * a + ((List.range' a n).map fun cg => cgFragCount sb cg frags).sum =
      min frags (sb.fragsPerGroup * (a + n)) := by
  intro n
  induction n with
  | zero =>
    intro a ha
    simp [ha]
  | succ n ih =>
    intro a ha
    rw [List.range'_succ, List.map_cons, List.sum_cons]
    have hcg : cgFragCount sb a frags = min (frags - sb.fragsPerGroup * a) sb.fragsPerGroup := by
      unfold cgFragCount
      rw [Nat.mul_comm]
    have hstep : sb.fragsPerGroup * (a + 1) = sb.fragsPerGroup * a + sb.fragsPerGroup :=
      Nat.mul_succ _ _
    have hend : sb.fragsPerGroup * (a + (n + 1)) = sb.fragsPerGroup * (a + 1 + n) := by
      rw [Nat.add_comm n 1, Nat.add_assoc]
    by_cases hle : sb.fragsPerGroup * (a + 1) ≤ frags
    · have := ih (a + 1) hle
      rw [hend, ← this]
      omega
    · -- the filesystem ends in group `a`: the groups behind it have no fragments
      have hzero : ((List.range' (a + 1) n).map fun cg => cgFragCount sb cg frags).sum = 0 := by
        refine List.sum_eq_zero_iff_forall_eq_nat.mpr fun x hx => ?_
        obtain ⟨cg, hcg, rfl⟩ := List.mem_map.mp hx
        have hge : sb.fragsPerGroup * (a + 1) ≤ sb.fragsPerGroup * cg :=
          Nat.mul_le_mul_left _ (List.mem_range'_1.mp hcg).1
        unfold cgFragCount
        rw [Nat.mul_comm cg]
        omega
      have hge : sb.fragsPerGroup * (a + 1) ≤ sb.fragsPerGroup * (a + 1 + n) :=
        Nat.mul_le_mul_left _ (by omega)
      rw [hzero, hend]
      omega

/-- How many fragments a longer summary takes from the data. -/
def extensionFrags (sb : Superblock) (plan : GrowPlan) : Nat :=
  if sb.csumSize < plan.cssize then fragsOf sb plan.cssize - fragsOf sb sb.csumSize else 0

/-- How many data fragments a grow adds before it takes any. -/
def gainedFrags (sb : Superblock) (plan : GrowPlan) : Nat :=
  cgFragCount sb (sb.cgCount - 1) plan.frags -
      (sb.fragCount - sb.fragsPerGroup * (sb.cgCount - 1)) +
    ((newGroups sb plan).map fun cg =>
      cgDlower sb cg + (cgFragCount sb cg plan.frags - cgDupper sb cg)).sum

/-- The limits of the validator that the new sizes may break. -/
structure GrowLimits (sb : Superblock) (plan : GrowPlan) : Prop where
  kib : plan.frags * (sb.fragSize / 1024) ≤ INT32_MAX
  cylinders : plan.ncyl * sb.sectorsPerCyl ≤ INT32_MAX
  inodes : plan.ncg * sb.inodesPerGroup ≤ INT32_MAX
  summary : plan.cssize ≤ 32 * sb.blockSize
  dataFrags : extensionFrags sb plan ≤ sb.dataFragCount + gainedFrags sb plan

/-- A grow from an image that was opened for writing, as far as its sizes go. -/
structure GrowFrom (img : Image) (plan : GrowPlan) : Prop where
  valid : imageValidate img = true
  plan_eq : plan = growPlan img.sb plan.sliceBytes
  ok : PlanOk img.sb plan
  grows : img.sb.fragCount ≤ plan.frags
  summary : plan.cssize ≤ img.sb.csumSize ∨
    img.sb.cylSummaryAddr + plan.cssize / img.sb.fragSize ≤ img.sb.fragsPerGroup

section Sizes

variable {img : Image} {plan : GrowPlan} (h : GrowFrom img plan)
include h

theorem GrowFrom.ncg_eq :
    plan.ncg = (plan.frags + img.sb.fragsPerGroup - 1) / img.sb.fragsPerGroup := by
  rw [h.plan_eq]
  rfl

theorem GrowFrom.frags_mul : plan.frags * img.sb.fragSize = plan.sliceBytes := by
  have hdvd := Nat.div_mul_cancel (Nat.dvd_of_mod_eq_zero h.ok.1)
  rw [h.plan_eq]
  exact hdvd

/-- The last group is not empty, and ends where the filesystem does or behind. -/
theorem GrowFrom.last_group :
    img.sb.fragsPerGroup * (plan.ncg - 1) < plan.frags ∧
      plan.frags ≤ img.sb.fragsPerGroup * plan.ncg ∧ 0 < plan.ncg := by
  have hg := img.geometry h.valid
  have hpos := hg.fpg_pos
  have hfc := hg.fragCount_pos
  have hgrows := h.grows
  obtain ⟨hlo, hhi⟩ := ceilDiv_bounds (n := plan.frags) hpos
  rw [← h.ncg_eq, Nat.mul_comm] at hlo hhi
  have hncg : 0 < plan.ncg := by
    rcases Nat.eq_zero_or_pos plan.ncg with h₀ | h₀
    · rw [h₀, Nat.mul_zero] at hlo
      omega
    · exact h₀
  have hstep : img.sb.fragsPerGroup * plan.ncg =
      img.sb.fragsPerGroup * (plan.ncg - 1) + img.sb.fragsPerGroup := by
    rw [← Nat.mul_succ]
    congr 1
    omega
  omega

/-- The new cylinder count fits the new group count. -/
theorem GrowFrom.ncyl_bounds (hcpg : 0 < img.sb.cpg) :
    plan.ncyl ≤ plan.ncg * img.sb.cpg ∧ (plan.ncg - 1) * img.sb.cpg < plan.ncyl := by
  have hg := img.geometry h.valid
  have hpos := hg.fpg_pos
  obtain ⟨hlo, hhi, hncg⟩ := h.last_group
  have hncyl : plan.ncyl =
      (plan.frags * img.sb.cpg + img.sb.fragsPerGroup - 1) / img.sb.fragsPerGroup := by
    rw [h.plan_eq]
    rfl
  obtain ⟨hc₁, hc₂⟩ := ceilDiv_bounds (n := plan.frags * img.sb.cpg) hpos
  rw [← hncyl] at hc₁ hc₂
  constructor
  · have hle : plan.frags * img.sb.cpg ≤ img.sb.fragsPerGroup * plan.ncg * img.sb.cpg :=
      Nat.mul_le_mul_right _ hhi
    have heq : img.sb.fragsPerGroup * plan.ncg * img.sb.cpg =
        plan.ncg * img.sb.cpg * img.sb.fragsPerGroup := by ring
    by_contra hlt
    have hmul : (plan.ncg * img.sb.cpg + 1) * img.sb.fragsPerGroup ≤
        plan.ncyl * img.sb.fragsPerGroup := Nat.mul_le_mul_right _ (by omega)
    rw [Nat.add_mul, Nat.one_mul] at hmul
    omega
  · have hlt : img.sb.fragsPerGroup * (plan.ncg - 1) * img.sb.cpg < plan.frags * img.sb.cpg :=
      Nat.mul_lt_mul_of_pos_right hlo hcpg
    have heq : img.sb.fragsPerGroup * (plan.ncg - 1) * img.sb.cpg =
        (plan.ncg - 1) * img.sb.cpg * img.sb.fragsPerGroup := by ring
    by_contra hle
    have hmul : plan.ncyl * img.sb.fragsPerGroup ≤
        (plan.ncg - 1) * img.sb.cpg * img.sb.fragsPerGroup := Nat.mul_le_mul_right _ (by omega)
    omega

/-- The new summary has a place for every group. -/
theorem GrowFrom.cssize_bounds :
    plan.ncg * 16 ≤ plan.cssize ∧ plan.cssize ≤ plan.ncg * 16 + img.sb.fragSize - 1 ∧
      plan.cssize % img.sb.fragSize = 0 := by
  have hg := img.geometry h.valid
  have hfs : 0 < img.sb.fragSize := Nat.lt_of_lt_of_le (by decide) hg.fragSize_ge
  have hcs : plan.cssize = (plan.ncg * 16 + img.sb.fragSize - 1) / img.sb.fragSize *
      img.sb.fragSize := by
    rw [h.plan_eq]
    rfl
  obtain ⟨h₁, h₂⟩ := ceilDiv_bounds (n := plan.ncg * 16) hfs
  rw [← hcs] at h₁ h₂
  exact ⟨h₁, h₂, by rw [hcs]; exact Nat.mul_mod_left _ _⟩

/-- What the old data and the gain come to is no more than there are fragments. -/
theorem GrowFrom.gained_le (hd : img.sb.dataFragCount ≤ img.sb.fragCount) :
    img.sb.dataFragCount + gainedFrags img.sb plan ≤ plan.frags := by
  have hg := img.geometry h.valid
  have hl := img.layout h.valid
  have hcg := hg.cg_pos
  have hgrows := h.grows
  have hncg := h.ok.2.2.1
  -- the old last group
  have hlast : img.sb.fragsPerGroup * (img.sb.cgCount - 1) < img.sb.fragCount ∧
      img.sb.fragCount ≤ img.sb.fragsPerGroup * img.sb.cgCount := by
    obtain ⟨hlo, hhi⟩ := ceilDiv_bounds (n := img.sb.fragCount) hg.fpg_pos
    rw [← hg.cg_count, Nat.mul_comm] at hlo hhi
    have hfc := hg.fragCount_pos
    have hstep : img.sb.fragsPerGroup * img.sb.cgCount =
        img.sb.fragsPerGroup * (img.sb.cgCount - 1) + img.sb.fragsPerGroup := by
      rw [← Nat.mul_succ]
      congr 1
      omega
    have hpos := hg.fpg_pos
    omega
  have hstep : img.sb.fragsPerGroup * img.sb.cgCount =
      img.sb.fragsPerGroup * (img.sb.cgCount - 1) + img.sb.fragsPerGroup := by
    rw [← Nat.mul_succ]
    congr 1
    omega
  have htail : cgFragCount img.sb (img.sb.cgCount - 1) plan.frags =
      min (plan.frags - img.sb.fragsPerGroup * (img.sb.cgCount - 1)) img.sb.fragsPerGroup := by
    unfold cgFragCount
    rw [Nat.mul_comm]
  -- the new groups
  have hnew : ((newGroups img.sb plan).map fun cg =>
      cgDlower img.sb cg + (cgFragCount img.sb cg plan.frags - cgDupper img.sb cg)).sum ≤
      ((newGroups img.sb plan).map fun cg => cgFragCount img.sb cg plan.frags).sum := by
    refine List.sum_le_sum fun cg hcg => ?_
    have hfit := h.ok.2.2.2.2.2.2.2 cg hcg
    have hlow : cgDlower img.sb cg ≤ cgDupper img.sb cg := by
      have h₁ := hl.sbOff_le
      have h₂ := hl.cgOff_lt
      have h₃ : img.sb.inoOff ≤ img.sb.dataOff :=
        Nat.le_trans (Nat.le_add_right _ _) hl.table_le
      unfold cgDlower cgDupper
      omega
    omega
  unfold gainedFrags
  by_cases hle : img.sb.fragsPerGroup * img.sb.cgCount ≤ plan.frags
  · have hsum := sum_cgFragCount img.sb plan.frags (plan.ncg - img.sb.cgCount) img.sb.cgCount hle
    unfold newGroups at hnew ⊢
    omega
  · have hnone : newGroups img.sb plan = [] := by
      have := h.last_group.1
      have hge : plan.ncg ≤ img.sb.cgCount := by
        by_contra hlt
        have hmul : img.sb.fragsPerGroup * img.sb.cgCount ≤
            img.sb.fragsPerGroup * (plan.ncg - 1) := Nat.mul_le_mul_left _ (by omega)
        omega
      unfold newGroups
      rw [Nat.sub_eq_zero_of_le hge]
      rfl
    rw [hnone, List.map_nil, List.sum_nil]
    omega

/-- The new count of data fragments fits exactly when it does not go below zero. -/
theorem GrowFrom.newDsize_le (hd : img.sb.dataFragCount ≤ img.sb.fragCount)
    (hmax : plan.frags ≤ INT32_MAX) :
    newDsize img.sb plan ≤ plan.frags ↔
      extensionFrags img.sb plan ≤ img.sb.dataFragCount + gainedFrags img.sb plan := by
  have hg := img.geometry h.valid
  have hgain := h.gained_le hd
  have hext : extensionFrags img.sb plan ≤ 8388608 := by
    have hfs := hg.fragSize_ge
    have hcs := h.ok.2.2.2.2.2.2.1
    have hdiv : fragsOf img.sb plan.cssize ≤ (plan.cssize + 8192) / 1024 := by
      have hfs' := hg.fragSize_le
      unfold fragsOf
      exact Nat.le_trans (Nat.div_le_div_left hfs (by decide)) (Nat.div_le_div_right (by omega))
    unfold UINT32_MAX at hcs
    unfold extensionFrags
    split <;> omega
  have hval : newDsize img.sb plan =
      (img.sb.dataFragCount + gainedFrags img.sb plan + (4294967296 - extensionFrags img.sb plan)) %
        4294967296 := by
    unfold newDsize gainedFrags extensionFrags
    dsimp only
    congr 1
    omega
  unfold INT32_MAX at hmax
  rw [hval]
  omega

theorem GrowFrom.pred_ncg : pred32 plan.ncg = plan.ncg - 1 := by
  have h₁ := h.last_group.2.2
  have h₂ := h.ok.2.2.2.1
  unfold UINT32_MAX at h₂
  unfold pred32
  omega

/-- The first half of the chain. -/
theorem GrowFrom.shape_iff (state : Nat) :
    ¬ ShapeRejected (patchedSuperblock img.sb { img.sb with state := state } plan) ↔
      newDsize img.sb plan ≤ plan.frags ∧ plan.ncyl * img.sb.sectorsPerCyl ≤ INT32_MAX ∧
        plan.ncg * img.sb.inodesPerGroup ≤ INT32_MAX ∧
        plan.frags * (img.sb.fragSize / 1024) ≤ INT32_MAX := by
  obtain ⟨hs, hlay, -⟩ := of_decide_eq_true h.valid
  simp only [ShapeRejected, LayoutRejected, not_or, ne_eq, not_not, Nat.not_lt, ge_iff_le,
    gt_iff_lt, Nat.not_le] at hs hlay
  obtain ⟨h₁, h₂, h₃, h₄, h₅, h₆, h₇, h₈, h₉, h₁₀, h₁₁, h₁₂, -, -, -, -, h₁₇, -, h₁₉, -, -⟩ := hs
  have hcpg : 0 < img.sb.cpg := by
    obtain ⟨-, -, -, -, -, -, -, -, -, -, -, -, -, -, -, -, -, -, -, -, -, -, -, hcpg, -⟩ := hlay
    omega
  obtain ⟨hcyl₁, hcyl₂⟩ := h.ncyl_bounds hcpg
  simp only [ShapeRejected, patchedSuperblock, not_or, ne_eq, not_not, Nat.not_lt, ge_iff_le,
    gt_iff_lt, Nat.not_le, h.pred_ncg]
  constructor
  · rintro ⟨-, -, -, -, -, -, -, -, -, -, -, -, -, -, -, hd, -, hc, -, hi, hk⟩
    exact ⟨hd, hc, hi, hk⟩
  · rintro ⟨hd, hc, hi, hk⟩
    exact ⟨h₁, h₂, h₃, h₄, h₅, h₆, h₇, h₈, h₉, h₁₀, h₁₁, h₁₂, h.ok.2.2.2.2.1, hcyl₁, hcyl₂, hd, h₁₇,
      hc, h₁₉, hi, hk⟩

/-- The second half. -/
theorem GrowFrom.layout_iff (state : Nat) :
    ¬ LayoutRejected (patchedSuperblock img.sb { img.sb with state := state } plan) ↔
      plan.cssize ≤ 32 * img.sb.blockSize := by
  obtain ⟨-, hlay, -⟩ := of_decide_eq_true h.valid
  have hcs := h.cssize_bounds.1
  have hncg := h.last_group.2.2
  have hfc := (img.geometry h.valid).fragCount_pos
  have hgrows := h.grows
  simp only [LayoutRejected, not_or, ne_eq, not_not, Nat.not_lt, ge_iff_le, gt_iff_lt,
    Nat.not_le] at hlay
  obtain ⟨h₁, h₂, h₃, h₄, h₅, h₆, h₇, h₈, h₉, h₁₀, h₁₁, h₁₂, h₁₃, h₁₄, h₁₅, -, -, -, h₁₉, h₂₀, h₂₁,
    h₂₂, h₂₃, h₂₄, h₂₅, h₂₆, h₂₇, h₂₈, h₂₉, h₃₀, h₃₁, -, -, h₃₄, h₃₅, h₃₆, h₃₇⟩ := hlay
  simp only [LayoutRejected, patchedSuperblock, not_or, ne_eq, not_not, Nat.not_lt, ge_iff_le,
    gt_iff_lt, Nat.not_le]
  constructor
  · rintro ⟨-, -, -, -, -, -, -, -, -, -, -, -, -, -, -, -, -, -, -, -, -, -, -, -, -, -, -, -, -, -,
      -, -, hmax, -⟩
    exact hmax
  · intro hmax
    exact ⟨h₁, h₂, h₃, h₄, h₅, h₆, h₇, h₈, h₉, h₁₀, h₁₁, h₁₂, h₁₃, h₁₄, h₁₅, by omega, by omega,
      h.ncg_eq, h₁₉, h₂₀, h₂₁, h₂₂, h₂₃, h₂₄, h₂₅, h₂₆, h₂₇, h₂₈, h₂₉, h₃₀, h₃₁, hcs, hmax, h₃₄,
      h₃₅, h₃₆, h₃₇⟩

/-- The last group has room for its metadata. -/
theorem GrowFrom.last_le : cgstart img.sb (plan.ncg - 1) + img.sb.dataOff ≤ plan.frags := by
  have hl := img.layout h.valid
  obtain ⟨hlo, -, hncg⟩ := h.last_group
  have hgrows := h.grows
  by_cases heq : plan.ncg = img.sb.cgCount
  · rw [heq]
    exact Nat.le_trans hl.last_le hgrows
  · have hle := h.ok.2.2.1
    have hmem : plan.ncg - 1 ∈ newGroups img.sb plan :=
      List.mem_range'_1.mpr ⟨by omega, by omega⟩
    have hfit := h.ok.2.2.2.2.2.2.2 _ hmem
    unfold cgDupper cgFragCount at hfit
    rw [Nat.mul_comm (plan.ncg - 1)] at hfit
    omega

/-- The enlarged summary lies inside the filesystem. -/
theorem GrowFrom.summary_le :
    img.sb.cylSummaryAddr * img.sb.fragSize + plan.cssize ≤ plan.sliceBytes := by
  have hg := img.geometry h.valid
  have hl := img.layout h.valid
  have hgrows := h.grows
  have hmul := h.frags_mul
  have hold : img.sb.fragCount * img.sb.fragSize ≤ plan.frags * img.sb.fragSize :=
    Nat.mul_le_mul_right _ hgrows
  have hsum := hl.summary_le
  obtain ⟨-, hcs₂, hcs₃⟩ := h.cssize_bounds
  by_cases hle : plan.cssize ≤ img.sb.csumSize
  · omega
  · have hfit := h.summary.resolve_left hle
    have hdiv : plan.cssize / img.sb.fragSize * img.sb.fragSize = plan.cssize :=
      Nat.div_mul_cancel (Nat.dvd_of_mod_eq_zero hcs₃)
    by_cases heq : plan.ncg = img.sb.cgCount
    · -- the same groups: the old size was not rounded up to fragments
      have hmin : img.sb.cgCount * 16 ≤ img.sb.csumSize := by
        obtain ⟨-, hlay, -⟩ := of_decide_eq_true h.valid
        simp only [LayoutRejected, not_or, Nat.not_lt] at hlay
        obtain ⟨-, -, -, -, -, -, -, -, -, -, -, -, -, -, -, -, -, -, -, -, -, -, -, -, -, -, -, -,
          -, -, -, hcs, -⟩ := hlay
        exact hcs
      rw [heq] at hcs₂
      -- both sides are whole fragments, and less than one apart
      have hlt : img.sb.cylSummaryAddr + plan.cssize / img.sb.fragSize <
          img.sb.fragCount + 1 := by
        by_contra hge
        have hmul' : (img.sb.fragCount + 1) * img.sb.fragSize ≤
            (img.sb.cylSummaryAddr + plan.cssize / img.sb.fragSize) * img.sb.fragSize :=
          Nat.mul_le_mul_right _ (by omega)
        rw [Nat.add_mul, Nat.add_mul, hdiv, Nat.one_mul] at hmul'
        have hfs := hg.fragSize_ge
        omega
      have hmul' : (img.sb.cylSummaryAddr + plan.cssize / img.sb.fragSize) * img.sb.fragSize ≤
          img.sb.fragCount * img.sb.fragSize := Nat.mul_le_mul_right _ (by omega)
      rw [Nat.add_mul, hdiv] at hmul'
      omega
    · -- there is a second group
      have hncg := h.ok.2.2.1
      have hcg := hg.cg_pos
      have hlo := h.last_group.1
      have hone : img.sb.fragsPerGroup * 1 ≤ img.sb.fragsPerGroup * (plan.ncg - 1) :=
        Nat.mul_le_mul_left _ (by omega)
      have hmul' : (img.sb.cylSummaryAddr + plan.cssize / img.sb.fragSize) * img.sb.fragSize ≤
          plan.frags * img.sb.fragSize := Nat.mul_le_mul_right _ (by omega)
      rw [Nat.add_mul, hdiv] at hmul'
      omega

/-- The validator on the new superblock: the limits, and a slice that is long enough. -/
theorem GrowFrom.validate_iff (state : Nat) (new : Image)
    (hnew : new.sb = patchedSuperblock img.sb { img.sb with state := state } plan) :
    imageValidate new = true ↔ GrowLimits img.sb plan ∧ plan.sliceBytes ≤ new.sliceSize := by
  have hd : img.sb.dataFragCount ≤ img.sb.fragCount := by
    obtain ⟨hs, -, -⟩ := of_decide_eq_true h.valid
    simp only [ShapeRejected, not_or, gt_iff_lt, Nat.not_lt] at hs
    obtain ⟨-, -, -, -, -, -, -, -, -, -, -, -, -, -, -, hd, -⟩ := hs
    exact hd
  have hextent : ¬ ExtentRejected new.sb new.sliceSize ↔ plan.sliceBytes ≤ new.sliceSize := by
    have h₁ := h.last_le
    have h₂ := h.summary_le
    have h₃ := h.frags_mul
    rw [hnew]
    simp only [ExtentRejected, patchedSuperblock, not_or, gt_iff_lt, Nat.not_lt, h.pred_ncg]
    constructor
    · rintro ⟨hfit, -, -⟩
      rwa [h₃] at hfit
    · intro hfit
      exact ⟨by rw [h₃]; exact hfit, h₁, by rw [h₃]; exact h₂⟩
  have hfrags : plan.frags * (img.sb.fragSize / 1024) ≤ INT32_MAX → plan.frags ≤ INT32_MAX :=
    fun hk => Nat.le_trans (Nat.le_mul_of_pos_right _
      (Nat.div_pos (img.geometry h.valid).fragSize_ge (by decide))) hk
  unfold imageValidate
  rw [decide_eq_true_iff, hextent, hnew, h.shape_iff state, h.layout_iff state]
  constructor
  · rintro ⟨⟨hdsize, hc, hi, hk⟩, hmax, hfit⟩
    exact ⟨⟨hk, hc, hi, hmax, (h.newDsize_le hd (hfrags hk)).mp hdsize⟩, hfit⟩
  · rintro ⟨⟨hk, hc, hi, hmax, hdsize⟩, hfit⟩
    exact ⟨⟨(h.newDsize_le hd (hfrags hk)).mpr hdsize, hc, hi, hk⟩, hmax, hfit⟩

end Sizes

/-! ## §2 Steps -/

/-- From `w` to `w'` the superblock may have been written, and the file kept its length: every write
stays within the size of the image. -/
structure Wrote (img : Image) (w w' : GrowState) : Prop where
  size : img.imageSize ≤ w.file.size → w'.file.size = w.file.size
  labels : w'.file.labels = w.file.labels
  base : w'.file.base = w.file.base
  kept : w'.kept = w.kept

theorem Wrote.trans {img : Image} {w w' w'' : GrowState} (h : Wrote img w w')
    (h' : Wrote img w' w'') : Wrote img w w'' where
  size := fun hle => by
    have hsize := h.size hle
    rw [h'.size (by rw [hsize]; exact hle), hsize]
  labels := h'.labels.trans h.labels
  base := h'.base.trans h.base
  kept := h'.kept.trans h.kept

section Steps

variable {host : Host} {img : Image} {plan : GrowPlan} {w w' : GrowState} {u : Unit}

/-- A call changes nothing but the number of calls. -/
theorem hostCall_ok (h : hostCall host w = .ok u w') :
    w'.file = w.file ∧ w'.kept = w.kept := by
  simp only [hostCall, bind_ok, get_ok, modify_ok, ofExcept_ok] at h
  obtain ⟨_, _, ⟨rfl, rfl⟩, _, _, rfl, -, rfl⟩ := h
  exact ⟨rfl, rfl⟩

theorem bitsAsExpected_ok (h : bitsAsExpected host w = .ok u w') :
    w'.file = w.file ∧ w'.kept = w.kept := by
  simp only [bitsAsExpected, bind_ok, get_ok, modify_ok, ofExcept_ok] at h
  obtain ⟨_, _, ⟨rfl, rfl⟩, _, _, rfl, -, rfl⟩ := h
  exact ⟨rfl, rfl⟩

theorem wrote_nothing (hfile : w'.file = w.file) (hkept : w'.kept = w.kept) : Wrote img w w' :=
  ⟨fun _ => by rw [hfile], by rw [hfile], by rw [hfile], hkept⟩

theorem readExact_ok {r : Region} (h : readExact host img r w = .ok u w') :
    w'.file = w.file ∧ w'.kept = w.kept := by
  simp only [readExact, bind_ok, check_ok] at h
  obtain ⟨_, _, ⟨-, rfl⟩, h⟩ := h
  exact hostCall_ok h

theorem writeExact_ok {r : Region} {change : Superblock → Superblock}
    (h : writeExact host img r change w = .ok u w') :
    Wrote img w w' ∧ w'.file.sb = change w.file.sb := by
  simp only [writeExact, bind_ok, check_ok, modify_ok] at h
  obtain ⟨_, _, ⟨-, rfl⟩, _, _, ⟨hin, rfl⟩, _, s, hcall, rfl⟩ := h
  obtain ⟨hfile, hkept⟩ := hostCall_ok hcall
  rw [hfile]
  refine ⟨⟨fun hle => ?_, rfl, rfl, hkept⟩, rfl⟩
  refine Nat.max_eq_left ?_
  unfold Region.stop
  omega

theorem imagePread_ok {r : Region} (h : imagePread host img r w = .ok u w') :
    w'.file = w.file ∧ w'.kept = w.kept := by
  simp only [imagePread, bind_ok, check_ok] at h
  obtain ⟨_, _, ⟨-, rfl⟩, h⟩ := h
  exact readExact_ok h

theorem imagePwrite_ok {r : Region} (h : imagePwrite host img r w = .ok u w') :
    Wrote img w w' ∧ (r.Apart img.sb.primary → w'.file.sb = w.file.sb) := by
  simp only [imagePwrite, bind_ok, check_ok] at h
  obtain ⟨_, _, ⟨-, rfl⟩, h⟩ := h
  obtain ⟨hw, hsb⟩ := writeExact_ok h
  exact ⟨hw, fun hapart => hsb.trans (if_pos hapart)⟩

theorem pwritePrimary_ok {sb : Superblock} (h : pwritePrimary host img sb w = .ok u w') :
    Wrote img w w' ∧ w'.file.sb = sb := by
  simp only [pwritePrimary, bind_ok, check_ok] at h
  obtain ⟨_, _, ⟨-, rfl⟩, h⟩ := h
  exact writeExact_ok h

theorem writeZeroesLoop_ok : ∀ (fuel offset size : Nat) {w w' : GrowState} {u : Unit},
    writeZeroesLoop host img fuel offset size w = .ok u w' → Wrote img w w' := by
  intro fuel
  induction fuel with
  | zero =>
    intro _ _ w w' u h
    obtain ⟨-, rfl⟩ := pure_ok.mp h
    exact wrote_nothing rfl rfl
  | succ fuel ih =>
    intro offset size w w' u h
    unfold writeZeroesLoop at h
    split at h
    · obtain ⟨-, rfl⟩ := pure_ok.mp h
      exact wrote_nothing rfl rfl
    · simp only [bind_ok] at h
      obtain ⟨_, t, hwrite, h⟩ := h
      exact (imagePwrite_ok hwrite).1.trans (ih _ _ h)

theorem expandOldLastCg_ok (h : expandOldLastCg host img plan w = .ok u w') :
    img.sb.fragCount ≤ plan.frags ∧ Wrote img w w' := by
  simp only [expandOldLastCg, bind_ok, check_ok] at h
  obtain ⟨_, _, ⟨⟨-, -, hgrows⟩, rfl⟩, _, w₁, hread, _, w₂, hbits, _, w₃, hblock, hentry⟩ := h
  obtain ⟨hf₁, hk₁⟩ := imagePread_ok hread
  obtain ⟨hf₂, hk₂⟩ := bitsAsExpected_ok hbits
  have h₀ : Wrote img w w₂ := wrote_nothing (hf₂.trans hf₁) (hk₂.trans hk₁)
  exact ⟨hgrows, (h₀.trans (imagePwrite_ok hblock).1).trans (imagePwrite_ok hentry).1⟩

theorem reserveSummaryExtension_ok (h : reserveSummaryExtension host img plan w = .ok u w') :
    Wrote img w w' := by
  unfold reserveSummaryExtension at h
  split at h
  · simp only [bind_ok, check_ok] at h
    obtain ⟨_, _, ⟨-, rfl⟩, _, w₁, hread, _, w₂, hbits, _, w₃, hblock, _, w₄, hentry, hzero⟩ := h
    obtain ⟨hf₁, hk₁⟩ := imagePread_ok hread
    obtain ⟨hf₂, hk₂⟩ := bitsAsExpected_ok hbits
    have h₀ : Wrote img w w₂ := wrote_nothing (hf₂.trans hf₁) (hk₂.trans hk₁)
    exact ((h₀.trans (imagePwrite_ok hblock).1).trans (imagePwrite_ok hentry).1).trans
      (writeZeroesLoop_ok _ _ _ hzero)
  · obtain ⟨-, rfl⟩ := pure_ok.mp h
    exact wrote_nothing rfl rfl

theorem addGroup_ok {cg : Nat} (h : addGroup host img plan cg w = .ok u w') : Wrote img w w' := by
  simp only [addGroup, bind_ok, check_ok] at h
  obtain ⟨_, _, ⟨-, rfl⟩, _, w₁, hbits, _, w₂, hzero, _, w₃, hblock, hentry⟩ := h
  obtain ⟨hf, hk⟩ := bitsAsExpected_ok hbits
  have h₀ : Wrote img w w₁ := wrote_nothing hf hk
  exact ((h₀.trans (writeZeroesLoop_ok _ _ _ hzero)).trans (imagePwrite_ok hblock).1).trans
    (imagePwrite_ok hentry).1

theorem addGroups_ok : ∀ (cgs : List Nat) {w w' : GrowState} {u : Unit},
    addGroups host img plan cgs w = .ok u w' → Wrote img w w' := by
  intro cgs
  induction cgs with
  | nil =>
    intro w w' u h
    obtain ⟨-, rfl⟩ := pure_ok.mp h
    exact wrote_nothing rfl rfl
  | cons cg rest ih =>
    intro w w' u h
    simp only [addGroups, bind_ok] at h
    obtain ⟨_, w₁, hone, h⟩ := h
    exact (addGroup_ok hone).trans (ih h)

/-- Every copy of the superblock lies apart from the primary one, or over it. -/
def CopiesApart (sb : Superblock) (ncg : Nat) : Prop :=
  ∀ cg < ncg, (sb.superCopy cg).start = UFS_SBLOCK_OFFSET ∨ (sb.superCopy cg).Apart sb.primary

theorem writeSuperCopy_ok {sb : Superblock} {cg : Nat}
    (h : writeSuperCopy host img sb cg w = .ok u w') :
    Wrote img w w' ∧
    ((img.sb.superCopy cg).start = UFS_SBLOCK_OFFSET ∨
      (img.sb.superCopy cg).Apart img.sb.primary → w.file.sb = sb → w'.file.sb = sb) := by
  unfold writeSuperCopy at h
  split at h
  next =>
    obtain ⟨hw, hsb⟩ := pwritePrimary_ok h
    exact ⟨hw, fun _ _ => hsb⟩
  next hne =>
    obtain ⟨hw, hsb⟩ := imagePwrite_ok h
    exact ⟨hw, fun hcase hold => (hsb (hcase.resolve_left hne)).trans hold⟩

theorem writeSuperCopies_ok {sb : Superblock} : ∀ (cgs : List Nat) {w w' : GrowState} {u : Unit},
    writeSuperCopies host img sb cgs w = .ok u w' →
      Wrote img w w' ∧
      ((∀ cg ∈ cgs, (img.sb.superCopy cg).start = UFS_SBLOCK_OFFSET ∨
        (img.sb.superCopy cg).Apart img.sb.primary) → w.file.sb = sb → w'.file.sb = sb) := by
  intro cgs
  induction cgs with
  | nil =>
    intro w w' u h
    obtain ⟨-, rfl⟩ := pure_ok.mp h
    exact ⟨wrote_nothing rfl rfl, fun _ hold => hold⟩
  | cons cg rest ih =>
    intro w w' u h
    simp only [writeSuperCopies, bind_ok] at h
    obtain ⟨_, w₁, hone, h⟩ := h
    obtain ⟨hw₁, hsb₁⟩ := writeSuperCopy_ok hone
    obtain ⟨hw₂, hsb₂⟩ := ih h
    refine ⟨hw₁.trans hw₂, fun hcase hold => ?_⟩
    exact hsb₂ (fun c hc => hcase c (List.mem_cons_of_mem _ hc))
      (hsb₁ (hcase cg List.mem_cons_self) hold)

theorem patchAndWriteSuperblocks_ok {old_sb : Superblock}
    (h : patchAndWriteSuperblocks host img old_sb plan w = .ok u w') :
    Wrote img w w' ∧
    (CopiesApart img.sb plan.ncg → w'.file.sb = patchedSuperblock img.sb old_sb plan) := by
  simp only [patchAndWriteSuperblocks, bind_ok] at h
  obtain ⟨_, w₁, hone, h⟩ := h
  obtain ⟨hw₁, hsb₁⟩ := pwritePrimary_ok hone
  obtain ⟨hw₂, hsb₂⟩ := writeSuperCopies_ok _ h
  exact ⟨hw₁.trans hw₂,
    fun hcase => hsb₂ (fun cg hcg => hcase cg (List.mem_range.mp hcg)) hsb₁⟩

end Steps

/-! ## §3 Attempts -/

/-- The labels a grow leaves. -/
def LabelsPatched (img : Image) (labeled : Bool) (plan : GrowPlan) (old new : List LabelCopy) :
    Prop :=
  if labeled then labelPatchSliceSize old img.sliceBase plan.sliceBytes = .ok new else new = old

section Attempt

variable {host : Host} {img : Image} {plan : GrowPlan} {w w' : GrowState} {u : Unit}

theorem truncateFile_ok {size : Nat} (h : truncateFile host size w = .ok u w') :
    w'.file = { w.file with size := size } ∧ w'.kept = min w.kept size := by
  simp only [truncateFile, bind_ok, modify_ok] at h
  obtain ⟨_, s, hcall, rfl⟩ := h
  obtain ⟨hfile, hkept⟩ := hostCall_ok hcall
  simp [hfile, hkept]

theorem patchLabel_ok {labeled : Bool} (h : patchLabel host img labeled plan w = .ok u w') :
    ∃ labels, LabelsPatched img labeled plan w.file.labels labels ∧
      w'.file = { w.file with labels := labels } ∧ w'.kept = w.kept := by
  unfold patchLabel at h
  unfold LabelsPatched
  split at h
  next hl =>
    simp only [bind_ok, get_ok, modify_ok, ofExcept_ok] at h
    obtain ⟨_, s, hcall, _, _, ⟨rfl, rfl⟩, labels, _, ⟨hpatch, rfl⟩, _, _, rfl, hcall'⟩ := h
    obtain ⟨hfile, hkept⟩ := readExact_ok hcall
    obtain ⟨hfile', hkept'⟩ := hostCall_ok hcall'
    rw [hfile] at hpatch
    refine ⟨labels, by rw [if_pos hl]; exact hpatch, ?_, ?_⟩
    · rw [hfile', hfile]
    · rw [hkept', hkept]
  next hl =>
    obtain ⟨-, rfl⟩ := pure_ok.mp h
    exact ⟨w.file.labels, by rw [if_neg hl], rfl, rfl⟩

/-- A write of the state changes the state only, in a file as long as the image. -/
theorem writeState_ok {state : Nat} (hsize : img.imageSize ≤ w.file.size)
    (h : writeState host img state w = .ok u w') :
    w'.file = { w.file with sb := { w.file.sb with state := state } } ∧ w'.kept = w.kept := by
  simp only [writeState, writeExact, bind_ok, check_ok, modify_ok] at h
  obtain ⟨_, _, ⟨-, rfl⟩, _, _, ⟨hin, rfl⟩, _, s, hcall, rfl⟩ := h
  obtain ⟨hfile, hkept⟩ := hostCall_ok hcall
  rw [hfile]
  have hstop : Region.stop ⟨img.sliceBase + UFS_SBLOCK_OFFSET + 0xd1, 1⟩ ≤ w.file.size := by
    unfold Region.stop
    dsimp only at hin ⊢
    omega
  rw [Nat.max_eq_left hstop]
  exact ⟨rfl, hkept⟩

theorem writeFinish_ok (hsize : img.imageSize ≤ w.file.size)
    (h : writeFinish host img w = .ok u w') :
    ∃ state, w'.file = { w.file with sb := { w.file.sb with state := state } } ∧
      w'.kept = w.kept := by
  unfold writeFinish at h
  split at h
  · simp only [bind_ok] at h
    obtain ⟨_, w₁, h₁, _, w₂, h₂, h₃⟩ := h
    obtain ⟨hf₁, hk₁⟩ := hostCall_ok h₁
    obtain ⟨hf₂, hk₂⟩ := writeState_ok (by rw [hf₁]; exact hsize) h₂
    obtain ⟨hf₃, hk₃⟩ := hostCall_ok h₃
    exact ⟨1, by rw [hf₃, hf₂, hf₁], by rw [hk₃, hk₂, hk₁]⟩
  · obtain ⟨-, rfl⟩ := pure_ok.mp h
    exact ⟨w.file.sb.state, rfl, rfl⟩

theorem writeBegin_ok (hsize : img.imageSize ≤ w.file.size)
    (h : writeBegin host img w = .ok u w') :
    ∃ state, w'.file = { w.file with sb := { w.file.sb with state := state } } ∧
      w'.kept = w.kept := by
  simp only [writeBegin, bind_ok] at h
  obtain ⟨_, w₁, h₁, h₂⟩ := h
  obtain ⟨hf₁, hk₁⟩ := writeState_ok hsize h₁
  obtain ⟨hf₂, hk₂⟩ := hostCall_ok h₂
  exact ⟨_, by rw [hf₂, hf₁], by rw [hk₂, hk₁]⟩

/-- What a whole attempt leaves behind. -/
structure Attempted (img : Image) (labeled : Bool) (plan : GrowPlan) (target_backing : Nat)
    (w w' : GrowState) : Prop where
  grows : img.sb.fragCount ≤ plan.frags
  summary : plan.cssize ≤ img.sb.csumSize ∨
    img.sb.cylSummaryAddr + plan.cssize / img.sb.fragSize ≤ img.sb.fragsPerGroup
  size : w'.file.size = target_backing
  labels : LabelsPatched img labeled plan w.file.labels w'.file.labels
  base : w'.file.base = w.file.base
  kept : w'.kept = min w.kept target_backing
  sb : CopiesApart img.sb plan.ncg → ∃ state, w'.file.sb =
    patchedSuperblock img.sb { w.file.sb with state := state } plan

theorem growAttempt_ok {labeled : Bool} {target_backing : Nat}
    (h : growAttempt host img labeled plan target_backing w = .ok u w') :
    Attempted img labeled plan target_backing w w' := by
  simp only [growAttempt, bind_ok, check_ok, get_ok] at h
  obtain ⟨_, _, ⟨hsummary, rfl⟩, _, w₁, hread, _, _, ⟨rfl, rfl⟩, _, w₂, htrunc, _, w₃, hlabel, _, w₄,
    hexpand, _, w₅, hreserve, _, w₆, hgroups, _, w₇, hsupers, _, w₈, hsync, hfinish⟩ := h
  obtain ⟨hf₁, hk₁⟩ := imagePread_ok hread
  obtain ⟨hf₂, hk₂⟩ := truncateFile_ok htrunc
  obtain ⟨labels, hpatched, hf₃, hk₃⟩ := patchLabel_ok hlabel
  obtain ⟨hgrows, hw₄⟩ := expandOldLastCg_ok hexpand
  obtain ⟨hw₇, hsb₇⟩ := patchAndWriteSuperblocks_ok hsupers
  have hall := ((hw₄.trans (reserveSummaryExtension_ok hreserve)).trans
    (addGroups_ok _ hgroups)).trans hw₇
  obtain ⟨hf₈, hk₈⟩ := hostCall_ok hsync
  -- from `ftruncate` on the image is as long as the file
  have hsize₃ : w₃.file.size = target_backing := by rw [hf₃, hf₂]
  have hsize : w₈.file.size = target_backing := by rw [hf₈, hall.size hsize₃.ge, hsize₃]
  obtain ⟨state, hf₉, hk₉⟩ := writeFinish_ok hsize.ge hfinish
  refine ⟨hgrows, hsummary, ?_, ?_, ?_, ?_, fun hcopies => ⟨state, ?_⟩⟩
  · rw [hf₉, ← hsize]
  · rw [hf₉, hf₈, hall.labels, hf₃]
    rw [hf₂, hf₁] at hpatched
    exact hpatched
  · rw [hf₉, hf₈, hall.base, hf₃, hf₂, hf₁]
  · rw [hk₉, hk₈, hall.kept, hk₃, hk₂, hk₁]
  · rw [hf₉, hf₈, hsb₇ hcopies, hf₁]
    rfl

end Attempt

/-- The sizes a grow of `f` aims at. -/
def planFor (f : SourceFile) (target_backing : Nat) : GrowPlan :=
  growPlan f.sb (targetSliceBytes (sourceImage f true).1 (sourceImage f true).2 target_backing)

/-- What `resize_grow` has checked of a file before it writes. -/
structure Started (f : SourceFile) (target_backing : Nat) : Prop where
  room : f.base + UFS_SBLOCK_OFFSET + SUPER_READ ≤ f.size
  valid : imageValidate (sourceImage f true).1 = true
  behind : (sourceImage f true).2 = true → f.base < target_backing
  longer : (sourceImage f true).1.sliceSize < (planFor f target_backing).sliceBytes
  single : (sourceImage f true).2 = true → labelValidateSingleSlice f.labels f.base = .ok ()
  ok : PlanOk f.sb (planFor f target_backing)

/-- A file that differs from `f` in the state of its filesystem at most. -/
def Resumed (f : SourceFile) (w : GrowState) : Prop :=
  ∃ state, w.file = { f with sb := { f.sb with state := state } } ∧ w.kept = f.size

theorem sourceImage_base (f : SourceFile) (writable : Bool) :
    (sourceImage f writable).1.sliceBase = f.base := by
  unfold sourceImage
  split
  next slice_base slice_size heq =>
    obtain ⟨c, -, hc⟩ := List.exists_of_findSome?_eq_some heq
    unfold usableSlice at hc
    split at hc
    · split at hc
      · cases hc
      · split at hc
        next hfit =>
          cases hc
          exact hfit.2.2.2.2.1
        · cases hc
    · cases hc
  next => rfl

theorem sourceImage_imageSize (f : SourceFile) (writable : Bool) :
    (sourceImage f writable).1.imageSize = f.size := by
  unfold sourceImage
  split <;> rfl

theorem sourceImage_sliceSize (f : SourceFile) (writable : Bool) :
    (sourceImage f writable).1.sliceSize =
      (f.labels.findSome? (usableSlice f)).elim (f.size - f.base) Prod.snd := by
  unfold sourceImage
  cases f.labels.findSome? (usableSlice f) <;> rfl

theorem sourceImage_sb (f : SourceFile) (writable : Bool) :
    (sourceImage f writable).1.sb = f.sb := by
  unfold sourceImage
  split <;> rfl

/-- Which slice a file has does not depend on its superblock. -/
theorem sourceImage_congr (f : SourceFile) (sb : Superblock) :
    sourceImage { f with sb := sb } true =
      ({ (sourceImage f true).1 with sb := sb }, (sourceImage f true).2) := by
  have h : usableSlice { f with sb := sb } = usableSlice f := rfl
  unfold sourceImage
  rw [h]
  dsimp only
  cases f.labels.findSome? (usableSlice f) <;> rfl

section Run

variable {host : Host} {f : SourceFile} {target_backing : Nat} {force : Bool} {w w' : GrowState}
  {u : Unit}

theorem growStart_ok {img : Image} {labeled : Bool} {plan : GrowPlan} (hr : Resumed f w)
    (h : growStart host target_backing force w = .ok (img, labeled, plan) w') :
    Started f target_backing ∧ plan = planFor f target_backing ∧
      labeled = (sourceImage f true).2 ∧
      (∃ state, img = { (sourceImage f true).1 with sb := { f.sb with state := state } }) ∧
      w'.file = w.file ∧ w'.kept = w.kept := by
  obtain ⟨state, hfile, hkept⟩ := hr
  simp only [growStart, bind_ok, check_ok, get_ok, ofExcept_ok, pure_ok] at h
  obtain ⟨_, _, ⟨-, rfl⟩, _, _, ⟨-, rfl⟩, _, _, ⟨rfl, rfl⟩, _, w₁, hcall, ⟨img', labeled'⟩, _,
    ⟨hopen, rfl⟩, _, _, ⟨hbehind, rfl⟩, _, _, ⟨hlonger, rfl⟩, _, _, ⟨hsingle, rfl⟩, _, _,
    ⟨hok, rfl⟩, hres, rfl⟩ := h
  obtain ⟨hf, hk⟩ := hostCall_ok hcall
  rw [Prod.mk.injEq, Prod.mk.injEq] at hres
  obtain ⟨rfl, rfl, rfl⟩ := hres
  unfold openSourceWritable at hopen
  rw [hfile] at hopen
  split at hopen
  next hvalid =>
    rw [sourceImage_congr, Except.ok.injEq, Prod.mk.injEq] at hopen
    obtain ⟨rfl, rfl⟩ := hopen
    have hbase := sourceImage_base f true
    rw [hfile] at hsingle
    dsimp only at hbehind hsingle hlonger
    rw [hbase] at hbehind hsingle
    have hsb : sourceImage f true = ({ (sourceImage f true).1 with sb := f.sb },
        (sourceImage f true).2) := by
      rw [← sourceImage_congr f f.sb]
    refine ⟨⟨hvalid.1, ?_, hbehind, hlonger, hsingle, hok⟩, rfl, rfl, ⟨state, rfl⟩, hf, hk⟩
    rw [sourceImage_congr] at hvalid
    rw [hsb]
    exact hvalid.2
  · cases hopen

/-- A grow that succeeds ends with an attempt at its full sizes. -/
theorem resizeGrow_ok : ∀ (fuel : Nat) {w : GrowState}, Resumed f w →
    resizeGrow host target_backing force fuel w = .ok u w' →
    Started f target_backing ∧ ∃ w₁, Resumed f w₁ ∧
      Attempted (sourceImage f true).1 (sourceImage f true).2 (planFor f target_backing)
        target_backing w₁ w' := by
  intro fuel
  induction fuel with
  | zero => exact fun _ h => by cases h
  | succ fuel ih =>
    intro w hr h
    unfold resizeGrow at h
    simp only [bind_ok] at h
    obtain ⟨⟨img, labeled, plan⟩, w₁, hstart, _, w₂, hbegin, moves, w₃, hmoves, h⟩ := h
    obtain ⟨hstarted, rfl, rfl, ⟨state, rfl⟩, hf₁, hk₁⟩ := growStart_ok hr hstart
    obtain ⟨state₀, hf₀, hk₀⟩ := hr
    -- the image is as long as the file was
    have hsize : ∀ x : GrowState, x.file.size = f.size →
        (sourceImage f true).1.imageSize ≤ x.file.size := fun x hx => by
      rw [sourceImage_imageSize, hx]
    obtain ⟨state₂, hf₂, hk₂⟩ := writeBegin_ok (by exact hsize _ (by rw [hf₁, hf₀])) hbegin
    have hresumed : Resumed f w₃ := by
      have hsame : w₃.file = w₂.file ∧ w₃.kept = w₂.kept := by
        unfold evacuateSummaryExtensionRange at hmoves
        split at hmoves
        · simp only [bind_ok, check_ok, get_ok, modify_ok, ofExcept_ok] at hmoves
          obtain ⟨_, _, ⟨-, rfl⟩, _, _, ⟨rfl, rfl⟩, _, _, rfl, -, rfl⟩ := hmoves
          exact ⟨rfl, rfl⟩
        · obtain ⟨-, rfl⟩ := pure_ok.mp hmoves
          exact ⟨rfl, rfl⟩
      exact ⟨state₂, by rw [hsame.1, hf₂, hf₁, hf₀], by rw [hsame.2, hk₂, hk₁, hk₀]⟩
    split at h
    · -- runs were moved: everything starts again
      simp only [bind_ok] at h
      obtain ⟨_, w₄, hsync, _, w₅, hfinish, h⟩ := h
      obtain ⟨state₃, hf₃, hk₃⟩ := hresumed
      obtain ⟨hf₄, hk₄⟩ := hostCall_ok hsync
      obtain ⟨state₅, hf₅, hk₅⟩ := writeFinish_ok
        (by exact hsize _ (by rw [hf₄, hf₃])) hfinish
      exact ih ⟨state₅, by rw [hf₅, hf₄, hf₃], by rw [hk₅, hk₄, hk₃]⟩ h
    · have hattempt := growAttempt_ok h
      have hsb := sourceImage_sb f true
      refine ⟨hstarted, w₃, hresumed, ?_⟩
      exact
        { grows := by rw [hsb]; exact hattempt.grows
          summary := by rw [hsb]; exact hattempt.summary
          size := hattempt.size
          labels := hattempt.labels
          base := hattempt.base
          kept := hattempt.kept
          sb := by rw [hsb]; exact hattempt.sb }

end Run

/-! ## §4 Reopening -/

/-- A copy of the label after `patch_one_label_partition_size`. -/
def patchedCopy (slice_base slice_bytes : Nat) (c : LabelCopy) : LabelCopy :=
  match patchOneLabelPartitionSize slice_base slice_bytes c with
  | .ok (c', _) => c'
  | .error _ => c

theorem patchLabelCopies_ok (slice_base slice_bytes : Nat) : ∀ {cs cs' : List LabelCopy} {n : Nat},
    patchLabelCopies slice_base slice_bytes cs = .ok (cs', n) →
      cs' = cs.map (patchedCopy slice_base slice_bytes) ∧
      ∀ c ∈ cs, ∃ r, patchOneLabelPartitionSize slice_base slice_bytes c = .ok r := by
  intro cs
  induction cs with
  | nil =>
    intro cs' n h
    cases h
    exact ⟨rfl, by simp⟩
  | cons c rest ih =>
    intro cs' n h
    unfold patchLabelCopies at h
    split at h
    · cases h
    next c' patched hone =>
      split at h
      · cases h
      next rest' k hrest =>
        cases h
        obtain ⟨rfl, hall⟩ := ih hrest
        refine ⟨?_, fun d hd => ?_⟩
        · rw [List.map_cons]
          congr 1
          unfold patchedCopy
          rw [hone]
        · rcases List.mem_cons.mp hd with rfl | hd
          · exact ⟨_, hone⟩
          · exact hall d hd

/-- What makes a slice usable. -/
theorem usableSlice_some {f : SourceFile} {c : LabelCopy} {slice : Nat × Nat}
    (h : usableSlice f c = some slice) :
    labelDecode c = true ∧ labelPickSlice c = some slice ∧ slice.2 ≤ f.size - slice.1 ∧
      slice.1 < f.size ∧ slice.1 = f.base := by
  unfold usableSlice at h
  split at h
  next hd =>
    split at h
    · cases h
    next b n hpick =>
      split at h
      next hfit =>
        cases h
        exact ⟨hd.2, hpick, hfit.2.2.1, hfit.1, hfit.2.2.2.2.1⟩
      · cases h
  · cases h

/-- After the patch a copy that is used describes the whole new slice exactly when its sectors fill
it. -/
theorem usableSlice_patched {c : LabelCopy} {f : SourceFile} {slice_bytes : Nat}
    {slice : Nat × Nat} (hone : validateOneLabelCopy f.base c = .ok ())
    (hpatched : ∃ r, patchOneLabelPartitionSize f.base slice_bytes c = .ok r)
    (hmax : slice_bytes < 512 * 4294967296) (hsize : f.size = f.base + slice_bytes)
    (h : usableSlice f (patchedCopy f.base slice_bytes c) = some slice) :
    slice_bytes ≤ slice.2 ↔ slice_bytes % c.secsize = 0 := by
  obtain ⟨root, hroot, hlisted, hcount, hbase⟩ := validateOneLabelCopy_ok hone
  obtain ⟨hdecode, hpick, hfit, -, hb⟩ := usableSlice_some h
  have hle : slice.2 ≤ slice_bytes := by omega
  have hat := LabelCopy.root_some hroot
  unfold patchedCopy at hdecode hpick
  unfold patchOneLabelPartitionSize at hdecode hpick
  rw [hroot] at hdecode hpick
  dsimp only at hdecode hpick
  by_cases hdvd : c.secsize = 0 ∨ slice_bytes % c.secsize ≠ 0
  · -- the copy is as it was
    rw [if_pos hdvd] at hdecode hpick
    have hsame : c.part = c.part.modify (c.rootpartition - 97) fun p => { p with size := root.size } := by
      refine List.ext_getElem? fun j => ?_
      by_cases hj : c.rootpartition - 97 = j
      · rw [← hj, List.getElem?_modify_eq, hat]
        rfl
      · rw [List.getElem?_modify_ne _ _ hj]
    have hval := labelPickSlice_root hroot hlisted hcount rfl rfl hsame hpick
    have hsec : c.secsize ≠ 0 := by
      unfold labelDecode at hdecode
      rw [Bool.and_eq_true, decide_eq_true_eq] at hdecode
      exact hdecode.1.1
    refine ⟨fun hge => absurd ?_ (hdvd.resolve_left hsec), fun hmod => absurd hmod
      (hdvd.resolve_left hsec)⟩
    rw [show slice_bytes = root.size * c.secsize by omega]
    exact Nat.mul_mod_left _ _
  · rw [not_or, not_not] at hdvd
    rw [if_neg (by omega)] at hdecode hpick
    refine iff_of_true ?_ hdvd.2
    have hpos : 0 < c.secsize := Nat.pos_of_ne_zero hdvd.1
    -- a size that does not fit would have stopped the grow
    have hsmall : ¬ slice_bytes / c.secsize % 4294967296 > PART_UNUSED := by
      intro hbig
      obtain ⟨r, hr⟩ := hpatched
      unfold patchOneLabelPartitionSize at hr
      rw [hroot] at hr
      dsimp only at hr
      rw [if_neg (by omega), if_pos hbig] at hr
      cases hr
    rw [if_neg hsmall, if_neg (not_not.mpr hbase)] at hdecode hpick
    dsimp only at hdecode hpick
    have hval := labelPickSlice_root hroot hlisted hcount (by rfl) (by rfl) (by rfl) hpick
    have hsec : 512 ≤ c.secsize := by
      unfold labelDecode at hdecode
      rw [Bool.and_eq_true, decide_eq_true_eq] at hdecode
      have := hdecode.1.2
      change c.secsize % 512 = 0 at this
      omega
    have hdiv : slice_bytes / c.secsize < 4294967296 := by
      refine Nat.lt_of_le_of_lt (Nat.div_le_div_left hsec (by decide)) ?_
      omega
    rw [hval, Nat.mod_eq_of_lt hdiv, Nat.div_mul_cancel (Nat.dvd_of_mod_eq_zero hdvd.2)]

/-! ## §5 The grown image -/

/-- A copy of the label as the grow leaves it. -/
def copyAfter (f : SourceFile) (target_backing : Nat) (c : LabelCopy) : LabelCopy :=
  if (sourceImage f true).2 then patchedCopy f.base (planFor f target_backing).sliceBytes c else c

/-- The copy of the label that opening uses in a file that ends with the new slice. -/
def usedCopy (f : SourceFile) (target_backing : Nat) : Option LabelCopy :=
  f.labels.find? fun c =>
    (usableSlice { f with size := f.base + (planFor f target_backing).sliceBytes }
      (copyAfter f target_backing c)).isSome

/-- When a grow leaves an image that can be used. -/
structure GrowSafe (f : SourceFile) (target_backing : Nat) : Prop where
  limits : GrowLimits f.sb (planFor f target_backing)
  /-- The start of the slice was counted, or it starts with the file. -/
  place : (sourceImage f true).2 = true ∨ f.base = 0
  /-- The label that will be used says how long the slice is. -/
  label : ∀ c, usedCopy f target_backing = some c →
    if (sourceImage f true).2 then (planFor f target_backing).sliceBytes % c.secsize = 0
    else ∀ slice, labelPickSlice c = some slice → (planFor f target_backing).sliceBytes ≤ slice.2

/-- The image can be opened for writing, ends within the file, and kept the old data. -/
structure GrownWell (f : SourceFile) (w' : GrowState) : Prop where
  valid : imageValidate (sourceImage w'.file true).1 = true
  inside : (sourceImage w'.file true).1.sliceBase + w'.file.sb.fragCount * w'.file.sb.fragSize ≤
    w'.file.size
  uncut : f.base + f.sb.fragCount * f.sb.fragSize ≤ w'.kept

theorem findSome?_eq_find? {α β : Type} (g : α → Option β) : ∀ l : List α,
    l.findSome? g = (l.find? fun a => (g a).isSome).bind g
  | [] => rfl
  | a :: l => by
    rw [List.findSome?_cons, List.find?_cons]
    cases h : g a with
    | none => simpa [h] using findSome?_eq_find? g l
    | some b => simp [h]

theorem imagePlan {f : SourceFile} {target_backing : Nat} {w w' : GrowState}
    (h : Started f target_backing)
    (ha : Attempted (sourceImage f true).1 (sourceImage f true).2 (planFor f target_backing)
      target_backing w w') : GrowFrom (sourceImage f true).1 (planFor f target_backing) where
  valid := h.valid
  plan_eq := by
    rw [sourceImage_sb]
    rfl
  ok := by
    rw [sourceImage_sb]
    exact h.ok
  grows := ha.grows
  summary := ha.summary

section Final

variable {f : SourceFile} {target_backing : Nat} {w w' : GrowState}

/-- The labels that are left are the old ones, each as the grow leaves it. -/
theorem labels_after {new : List LabelCopy}
    (h : LabelsPatched (sourceImage f true).1 (sourceImage f true).2 (planFor f target_backing)
      f.labels new) :
    new = f.labels.map (copyAfter f target_backing) ∧
      ((sourceImage f true).2 = true → ∀ c ∈ f.labels, ∃ r, patchOneLabelPartitionSize f.base
        (planFor f target_backing).sliceBytes c = .ok r) := by
  unfold LabelsPatched at h
  rw [sourceImage_base] at h
  unfold copyAfter
  by_cases hl : (sourceImage f true).2 = true
  · simp only [hl, if_true] at h ⊢
    unfold labelPatchSliceSize at h
    split at h
    · cases h
    next labels n hpatch =>
      split at h
      · cases h
      · cases h
        obtain ⟨rfl, hall⟩ := patchLabelCopies_ok _ _ hpatch
        exact ⟨rfl, fun _ => hall⟩
  · simp only [hl] at h ⊢
    simpa using h

/-- The slice of the grown file is the new one exactly when the label used says so. -/
theorem slice_after (h : Started f target_backing) (hmax : (planFor f target_backing).sliceBytes <
      512 * 4294967296)
    (hlabels : LabelsPatched (sourceImage f true).1 (sourceImage f true).2
      (planFor f target_backing) f.labels w'.file.labels)
    (hbase : w'.file.base = f.base)
    (hsize : w'.file.size = f.base + (planFor f target_backing).sliceBytes) :
    (planFor f target_backing).sliceBytes ≤ (sourceImage w'.file true).1.sliceSize ↔
      ∀ c, usedCopy f target_backing = some c →
        if (sourceImage f true).2 then (planFor f target_backing).sliceBytes % c.secsize = 0
        else ∀ slice, labelPickSlice c = some slice →
          (planFor f target_backing).sliceBytes ≤ slice.2 := by
  obtain ⟨hnew, hpatched⟩ := labels_after hlabels
  have husable : usableSlice w'.file =
      usableSlice { f with size := f.base + (planFor f target_backing).sliceBytes } := by
    funext c
    unfold usableSlice
    rw [hsize, hbase]
  rw [sourceImage_sliceSize, hnew, husable, List.findSome?_map, findSome?_eq_find?]
  change _ ≤ ((usedCopy f target_backing).bind _).elim _ _ ↔ _
  cases hused : usedCopy f target_backing with
  | none => simp [hsize, hbase]
  | some c =>
    have hmem : c ∈ f.labels := List.mem_of_find?_eq_some hused
    have hsome := List.find?_some hused
    obtain ⟨slice, hslice⟩ := Option.isSome_iff_exists.mp hsome
    rw [Option.bind_some, Function.comp_apply, hslice, Option.elim_some]
    simp only [Option.some.injEq, forall_eq']
    by_cases hl : (sourceImage f true).2 = true
    · rw [if_pos hl]
      unfold copyAfter at hslice
      rw [if_pos hl] at hslice
      have hsingle := h.single hl
      unfold labelValidateSingleSlice at hsingle
      split at hsingle
      · cases hsingle
      next hall =>
        exact usableSlice_patched
          (f := { f with size := f.base + (planFor f target_backing).sliceBytes })
          (validateLabelCopies_ok hall c hmem) (hpatched hl c hmem) hmax rfl hslice
    · rw [if_neg hl]
      unfold copyAfter at hslice
      rw [if_neg hl] at hslice
      have hpick := (usableSlice_some hslice).2.1
      simp [hpick]

/-- The slice of a file lies in it, if there is one. -/
theorem sourceImage_fits (g : SourceFile) :
    g.base + (sourceImage g true).1.sliceSize ≤ g.size ∨
      (sourceImage g true).1.sliceSize = 0 := by
  rw [sourceImage_sliceSize]
  cases hs : g.labels.findSome? (usableSlice g) with
  | none =>
    simp only [Option.elim_none]
    omega
  | some slice =>
    obtain ⟨c, -, hc⟩ := List.exists_of_findSome?_eq_some hs
    obtain ⟨-, -, hfit, hlt, hb⟩ := usableSlice_some hc
    simp only [Option.elim_some]
    omega

/-- How the length asked for and the new slice go together. -/
theorem Started.target (h : Started f target_backing) :
    if (sourceImage f true).2 then f.base + (planFor f target_backing).sliceBytes = target_backing
    else (planFor f target_backing).sliceBytes = target_backing := by
  have hbehind := h.behind
  have hbase := sourceImage_base f true
  have hbytes : (planFor f target_backing).sliceBytes =
      if (sourceImage f true).2 then target_backing - f.base else target_backing := by
    unfold planFor growPlan targetSliceBytes
    rw [hbase]
  split
  next hl =>
    rw [if_pos hl] at hbytes
    have := hbehind hl
    omega
  next hl => rwa [if_neg hl] at hbytes

/-- The limits keep the slice below 2 TiB. -/
theorem GrowFrom.sliceBytes_lt {img : Image} {plan : GrowPlan} (h : GrowFrom img plan)
    (hlimits : GrowLimits img.sb plan) : plan.sliceBytes < 512 * 4294967296 := by
  have hg := img.geometry h.valid
  have hpow : 2 ^ img.sb.fragShiftCalc = img.sb.fragSize := by
    obtain ⟨hs, -, -⟩ := of_decide_eq_true h.valid
    simp only [ShapeRejected, not_or, ne_eq, not_not] at hs
    exact hs.2.2.2.2.2.1
  have hshift : 10 ≤ img.sb.fragShiftCalc := by
    by_contra hlt
    have hle : 2 ^ img.sb.fragShiftCalc ≤ 2 ^ 9 := Nat.pow_le_pow_right (by decide) (by omega)
    have := hg.fragSize_ge
    omega
  have hdvd : img.sb.fragSize / 1024 * 1024 = img.sb.fragSize :=
    Nat.div_mul_cancel (hpow ▸ Nat.pow_dvd_pow 2 hshift)
  have hkib := hlimits.kib
  rw [← h.frags_mul, ← hdvd, ← Nat.mul_assoc]
  unfold INT32_MAX at hkib
  omega

/-- The length asked for reaches the end of the new slice exactly when it accounts for its start. -/
theorem Started.target_iff (h : Started f target_backing) :
    target_backing ≤ f.base + (planFor f target_backing).sliceBytes ∧
    (target_backing = f.base + (planFor f target_backing).sliceBytes ↔
      (sourceImage f true).2 = true ∨ f.base = 0) := by
  have htarget := h.target
  split at htarget
  next hl => simp [hl, htarget]
  next hl =>
    simp only [hl, Bool.false_eq_true, false_or]
    omega

/-- A grow that reports success leaves a filesystem that can be opened for writing again, ends
within its file and lost none of its old data, exactly when the new sizes keep the validator's
limits, the length of the file accounts for where the slice starts, and the label that will be used
describes the new slice. -/
theorem resizeGrow_opens {host : Host} {force : Bool} {fuel : Nat} {u : Unit}
    (hcopies : CopiesApart f.sb (planFor f target_backing).ncg)
    (h : resizeGrow host target_backing force fuel ⟨f, f.size, 0⟩ = .ok u w') :
    GrownWell f w' ↔ GrowSafe f target_backing := by
  obtain ⟨hstart, w₁, ⟨state₁, hfile, hkept⟩, ha⟩ := resizeGrow_ok fuel ⟨f.sb.state, rfl, rfl⟩ h
  have hfrom := imagePlan hstart ha
  have hsb := sourceImage_sb f true
  have hbase := sourceImage_base f true
  have hlonger := hstart.longer
  obtain ⟨hle, hfull⟩ := hstart.target_iff
  have hlength := ha.size
  -- the old filesystem was inside the file
  have holdSlice : f.sb.fragCount * f.sb.fragSize ≤ (sourceImage f true).1.sliceSize := by
    have := (Image.layout hstart.valid).fits
    rwa [hsb] at this
  have hold : f.base + f.sb.fragCount * f.sb.fragSize ≤ f.size := by
    have := hstart.room
    have := sourceImage_fits f
    omega
  obtain ⟨state, hnew⟩ := ha.sb (by rw [hsb]; exact hcopies)
  rw [hfile] at hnew
  have hbase' : w'.file.base = f.base := by rw [ha.base, hfile]
  have hlabels := ha.labels
  rw [hfile] at hlabels
  have hkept' : w'.kept = min f.size target_backing := by rw [ha.kept, hkept]
  have hvalid := hfrom.validate_iff state (sourceImage w'.file true).1 (by
    rw [sourceImage_sb, hnew, hsb])
  have hmul : w'.file.sb.fragCount * w'.file.sb.fragSize = (planFor f target_backing).sliceBytes := by
    have := hfrom.frags_mul
    rw [hsb] at this
    rw [hnew]
    exact this
  constructor
  · rintro ⟨hv, hin, huncut⟩
    obtain ⟨hlimits, hslice⟩ := hvalid.mp hv
    have hsize : w'.file.size = f.base + (planFor f target_backing).sliceBytes := by
      have := sourceImage_fits w'.file
      omega
    rw [hsb] at hlimits
    exact ⟨hlimits, hfull.mp (hlength.symm.trans hsize),
      (slice_after hstart (hfrom.sliceBytes_lt (by rw [hsb]; exact hlimits)) hlabels hbase'
        hsize).mp hslice⟩
  · rintro ⟨hlimits, hplace, hlabel⟩
    have hsize := hlength.trans (hfull.mpr hplace)
    have hslice := (slice_after hstart (hfrom.sliceBytes_lt (by rw [hsb]; exact hlimits)) hlabels
      hbase' hsize).mpr hlabel
    refine ⟨hvalid.mpr ⟨by rw [hsb]; exact hlimits, hslice⟩, ?_, ?_⟩
    · rw [sourceImage_base, hbase', hmul]
      omega
    · rw [hkept']
      omega

end Final

/-- A file without a label that holds a filesystem of 64 KiB, with its slice at `base`. -/
def plainFile (sb : Superblock) (base : Nat) : SourceFile :=
  { size := base + 65536, labels := [], base := base, sb := sb }

/-- The one-group filesystem when its group has room for 256 fragments. -/
def roomyGroup : Superblock := { oneGroup.sb with cpg := 4, fragsPerGroup := 256 }

/-- A host on which everything works and nothing has to be moved. -/
def quietHost : Host :=
  { io := fun _ => .ok (), evacuate := fun _ => .ok 0, bits := fun _ => .ok (),
    clobber := fun _ sb => sb }

/-- A slice that starts inside an unlabeled file is grown past the end of the file. -/
theorem grow_past_end : ∃ w', resizeGrow quietHost 204800 false 1
      ⟨plainFile roomyGroup 65536, 131072, 0⟩ = .ok () w' ∧
    imageValidate (sourceImage w'.file true).1 = false ∧
    w'.file.size < w'.file.base + w'.file.sb.fragCount * w'.file.sb.fragSize := by
  obtain ⟨⟨⟩, w', h⟩ := exists_of_finishes (r := resizeGrow quietHost 204800 false 1
    ⟨plainFile roomyGroup 65536, 131072, 0⟩) (by decide +kernel)
  have hfinal : final (resizeGrow quietHost 204800 false 1
      ⟨plainFile roomyGroup 65536, 131072, 0⟩) = w' := by
    rw [h]
    rfl
  refine ⟨w', h, ?_, ?_⟩
  all_goals
    rw [← hfinal]
    decide +kernel

theorem resizeGrow_opens_plain : ∃ w', resizeGrow quietHost 131072 false 1
      ⟨plainFile oneGroup.sb 0, 65536, 0⟩ = .ok () w' ∧
    GrownWell (plainFile oneGroup.sb 0) w' := by
  obtain ⟨⟨⟩, w', h⟩ := exists_of_finishes (r := resizeGrow quietHost 131072 false 1
    ⟨plainFile oneGroup.sb 0, 65536, 0⟩) (by decide +kernel)
  refine ⟨w', h, (resizeGrow_opens (f := plainFile oneGroup.sb 0) ?_ h).mpr ⟨?_, .inr rfl, ?_⟩⟩
  · unfold CopiesApart
    decide +kernel
  · exact ⟨by decide +kernel, by decide +kernel, by decide +kernel, by decide +kernel,
      by decide +kernel⟩
  · intro c hc
    cases hc

end NextUfs.Commands
