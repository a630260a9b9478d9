/-
NextUfs.Mutate.PruneTheorems — pruning the trees of a shrinking file.

`pruneTree` refines `BlockTree.prune`: the tree it leaves on disk is the pruned
tree, the fragments it gives back and counts are those the tree no longer owns,
and it writes nothing but the tree's indirect blocks. The loop over the
entries of a block is taken apart for any treatment of an entry (`VisitOk`), so
that the leaf level and the levels above it share one proof.
-/
import NextUfs.Mutate.GrowTheorems

namespace NextUfs.Mutate

open NextUfs.Core NextUfs.Lib NextUfs.Lib.ByteStore NextUfs.Lib.StateResult NextUfs.Lib.Extents

/-- The tree at `p`, whose index 0 is block `base`, was pruned to the one at `p'`, with `r`
fragments released. -/
structure Pruned (keep : Nat) (fs : Fs) (l p base p' r : Nat) (fs' : Fs) : Prop where
  keeps : fs.Keeps fs'
  sound : fs'.Sound
  tree : fs.img.sb.tree fs'.bytes l p' =
    (fs.img.sb.tree fs.bytes l p).prune fs.img.sb.entriesPerBlock keep l base
  used : fs'.used + fs.img.sb.own (fs.img.sb.tree fs.bytes l p) =
    fs.used + fs.img.sb.own (fs.img.sb.tree fs'.bytes l p')
  count : r + (fs.img.sb.own (fs.img.sb.tree fs'.bytes l p')).card =
    (fs.img.sb.own (fs.img.sb.tree fs.bytes l p)).card
  frame : ∀ s : Multiset Nat, (∀ f ∈ s, f ∉ fs.img.sb.inner (fs.img.sb.tree fs.bytes l p)) →
    SameOn fs.img.sb.fragSize s fs.bytes fs'.bytes

/-- What is asked of the treatment of an entry: it prunes the tree below it. -/
def VisitOk (sb : Superblock) (keep l base : Nat) (visit : Nat → Nat → FsM (Nat × Nat)) : Prop :=
  ∀ {e c c' r keep₀ : Nat} {fs fs' : Fs}, fs.img.sb = sb → c ≠ 0 → fs.Sound →
    sb.own (sb.tree fs.bytes l c) ≤ fs.used →
    fs.Good keep₀ (sb.tree fs.bytes l c) l (base + e * sb.entriesPerBlock ^ l) →
    visit e c fs = .ok (c', r) fs' →
    Pruned keep fs l c (base + e * sb.entriesPerBlock ^ l) c' r fs'

/-! ## The entries of a block -/

/-- The tree below entry `e` of a buffer. -/
def kidTree (sb : Superblock) (b buf : ByteStore) (l e : Nat) : BlockTree :=
  sb.tree b l (be32 buf (e * 4))

/-- The entries from `i` on were pruned, the buffer with them. -/
structure EntriesPruned (keep : Nat) (fs : Fs) (l base i n : Nat) (buf buf' : ByteStore) (r : Nat)
    (any : Bool) (fs' : Fs) : Prop where
  keeps : fs.Keeps fs'
  sound : fs'.Sound
  before : ∀ p < i * 4, buf' p = buf p
  trees : ∀ e, i ≤ e → e < n → kidTree fs.img.sb fs'.bytes buf' l e =
    (kidTree fs.img.sb fs.bytes buf l e).prune fs.img.sb.entriesPerBlock keep l
      (base + e * fs.img.sb.entriesPerBlock ^ l)
  used : fs'.used + ∑ e ∈ Finset.Ico i n, fs.img.sb.own (kidTree fs.img.sb fs.bytes buf l e) =
    fs.used + ∑ e ∈ Finset.Ico i n, fs.img.sb.own (kidTree fs.img.sb fs'.bytes buf' l e)
  count : r + (∑ e ∈ Finset.Ico i n,
      fs.img.sb.own (kidTree fs.img.sb fs'.bytes buf' l e)).card =
    (∑ e ∈ Finset.Ico i n, fs.img.sb.own (kidTree fs.img.sb fs.bytes buf l e)).card
  any_iff : any = true ↔ ∃ e, i ≤ e ∧ e < n ∧ be32 buf' (e * 4) ≠ 0
  frame : ∀ s : Multiset Nat, (∀ f ∈ s, ∀ e, i ≤ e → e < n →
      f ∉ fs.img.sb.inner (kidTree fs.img.sb fs.bytes buf l e)) →
    SameOn fs.img.sb.fragSize s fs.bytes fs'.bytes

/-- The sum over the entries from `i` on begins with entry `i`. -/
theorem sum_Ico_head {i n : Nat} (hi : i < n) (m : Nat → Multiset Nat) :
    ∑ e ∈ Finset.Ico i n, m e = m i + ∑ e ∈ Finset.Ico (i + 1) n, m e :=
  Finset.sum_eq_sum_Ico_succ_bot hi m

section
variable {keep keep₀ l base n : Nat} {sb : Superblock} {visit : Nat → Nat → FsM (Nat × Nat)}

/-- Entry `i` is a hole, and the others were pruned. -/
theorem EntriesPruned.skip {fs fs' : Fs} {i r : Nat} {buf buf' : ByteStore} {any : Bool}
    (hi : i < n) (h0 : be32 buf (i * 4) = 0)
    (h : EntriesPruned keep fs l base (i + 1) n buf buf' r any fs') :
    EntriesPruned keep fs l base i n buf buf' r any fs' := by
  have h0' : be32 buf' (i * 4) = 0 := by
    rw [← h0]
    exact be32_congr fun j hj => h.before _ (by omega)
  have hkid : kidTree fs.img.sb fs.bytes buf l i = .hole := by
    rw [kidTree, h0]
    exact BlockTree.load_null l
  have hkid' : kidTree fs.img.sb fs'.bytes buf' l i = .hole := by
    rw [kidTree, h0']
    exact BlockTree.load_null l
  refine ⟨h.keeps, h.sound, fun p hp => h.before p (by omega), fun e h₁ h₂ => ?_, ?_, ?_, ?_,
    fun s hs => h.frame s fun f hf e h₁ h₂ => hs f hf e (by omega) h₂⟩
  · rcases Nat.eq_or_lt_of_le h₁ with rfl | h₁
    · rw [hkid, hkid', BlockTree.prune]
    · exact h.trees e h₁ h₂
  · rw [sum_Ico_head hi, sum_Ico_head hi, hkid, hkid']
    simpa [Superblock.own, BlockTree.own] using h.used
  · rw [sum_Ico_head hi, sum_Ico_head hi, hkid, hkid']
    simpa [Superblock.own, BlockTree.own] using h.count
  · rw [h.any_iff]
    constructor
    · rintro ⟨e, h₁, h₂⟩
      exact ⟨e, by omega, h₂⟩
    · rintro ⟨e, h₁, h₂, h₃⟩
      rcases Nat.eq_or_lt_of_le h₁ with rfl | h₁
      · exact absurd h0' h₃
      · exact ⟨e, h₁, h₂, h₃⟩

/-- Two entries' trees are apart. -/
theorem kids_apart {fs : Fs} {i e : Nat} {buf : ByteStore}
    (hle : ∑ e ∈ Finset.Ico i n, fs.img.sb.own (kidTree fs.img.sb fs.bytes buf l e) ≤ fs.used)
    (hi : i < e) (he : e < n) {f : Nat}
    (hf : f ∈ fs.img.sb.inner (kidTree fs.img.sb fs.bytes buf l e)) :
    f ∉ fs.img.sb.inner (kidTree fs.img.sb fs.bytes buf l i) := by
  rw [sum_Ico_head (by omega)] at hle
  have hmem : fs.img.sb.own (kidTree fs.img.sb fs.bytes buf l e) ≤
      ∑ e ∈ Finset.Ico (i + 1) n, fs.img.sb.own (kidTree fs.img.sb fs.bytes buf l e) :=
    Finset.single_le_sum (f := fun e => fs.img.sb.own (kidTree fs.img.sb fs.bytes buf l e))
      (fun _ _ => Multiset.zero_le _) (Finset.mem_Ico.mpr ⟨hi, he⟩)
  have hpair := (add_le_add le_rfl hmem).trans hle
  rw [add_comm] at hpair
  have hfe := Multiset.mem_of_le (BlockTree.inner_le_own _) hf
  exact fun hfi =>
    apart_of_le fs.used_nodup hpair hfe (Multiset.mem_of_le (BlockTree.inner_le_own _) hfi)

section
variable {fs fs₁ : Fs} {i c' r : Nat} {buf : ByteStore}

theorem be32_later {e : Nat} (he : i < e) :
    be32 (setBe32 buf (i * 4) c') (e * 4) = be32 buf (e * 4) :=
  be32_patch_of_disjoint (by omega)

/-- Pruning entry `i` leaves the later ones. -/
theorem Pruned.later_kid (hs : fs.Sound)
    (hle : ∑ e ∈ Finset.Ico i n, fs.img.sb.own (kidTree fs.img.sb fs.bytes buf l e) ≤ fs.used)
    (hp : Pruned keep fs l (be32 buf (i * 4)) (base + i * fs.img.sb.entriesPerBlock ^ l) c' r fs₁)
    {e : Nat} (hi : i < e) (he : e < n) :
    kidTree fs.img.sb fs₁.bytes (setBe32 buf (i * 4) c') l e =
      kidTree fs.img.sb fs.bytes buf l e := by
  rw [kidTree, be32_later hi]
  exact BlockTree.load_congr hs.geometry.entries_le
    (hp.frame _ fun f hf => kids_apart hle hi he hf)

/-- What is left of the room for the later entries. -/
theorem Pruned.later_le (hs : fs.Sound) (hi : i < n)
    (hle : ∑ e ∈ Finset.Ico i n, fs.img.sb.own (kidTree fs.img.sb fs.bytes buf l e) ≤ fs.used)
    (hp : Pruned keep fs l (be32 buf (i * 4)) (base + i * fs.img.sb.entriesPerBlock ^ l) c' r fs₁) :
    ∑ e ∈ Finset.Ico (i + 1) n,
      fs.img.sb.own (kidTree fs.img.sb fs₁.bytes (setBe32 buf (i * 4) c') l e) ≤ fs₁.used := by
  have hkids : ∀ e ∈ Finset.Ico (i + 1) n,
      fs.img.sb.own (kidTree fs.img.sb fs₁.bytes (setBe32 buf (i * 4) c') l e) =
        fs.img.sb.own (kidTree fs.img.sb fs.bytes buf l e) := by
    intro e he
    rw [Finset.mem_Ico] at he
    rw [hp.later_kid hs hle he.1 he.2]
  rw [Finset.sum_congr rfl hkids]
  rw [sum_Ico_head hi] at hle
  obtain ⟨z, hz⟩ := Multiset.le_iff_exists_add.mp hle
  have hused : fs₁.used + fs.img.sb.own (kidTree fs.img.sb fs.bytes buf l i) = fs.used + _ := hp.used
  rw [hz] at hused
  refine Multiset.le_iff_exists_add.mpr
    ⟨z + fs.img.sb.own (fs.img.sb.tree fs₁.bytes l c'), add_right_cancel (hused.trans ?_)⟩
  abel

/-- Entry `i` was pruned, and then the later ones. -/
theorem EntriesPruned.cons {fs' : Fs} {r' : Nat} {buf' : ByteStore} {any : Bool} (hs : fs.Sound)
    (hi : i < n)
    (hle : ∑ e ∈ Finset.Ico i n, fs.img.sb.own (kidTree fs.img.sb fs.bytes buf l e) ≤ fs.used)
    (hp : Pruned keep fs l (be32 buf (i * 4)) (base + i * fs.img.sb.entriesPerBlock ^ l) c' r fs₁)
    (h : EntriesPruned keep fs₁ l base (i + 1) n (setBe32 buf (i * 4) c') buf' r' any fs') :
    EntriesPruned keep fs l base i n buf buf' (r + r') (any || c' ≠ 0) fs' := by
  have himg := hp.keeps.img
  obtain ⟨hk, hsound, hbefore, htrees, hused, hcount, hany, hframe⟩ := h
  rw [himg] at htrees hused hcount hframe
  have hc' : c' < 4294967296 := by
    have hptr : c' = (fs.img.sb.tree fs₁.bytes l c').ptr := (BlockTree.ptr_load l c').symm
    rw [hp.tree] at hptr
    rcases @BlockTree.ptr_prune fs.img.sb.entriesPerBlock keep
      (fs.img.sb.tree fs.bytes l (be32 buf (i * 4))) l
      (base + i * fs.img.sb.entriesPerBlock ^ l) with h0 | h0
    · omega
    · rw [hptr, h0, Superblock.tree, BlockTree.ptr_load]
      exact be32_lt _ _
  have hhead : be32 buf' (i * 4) = c' := by
    rw [be32_congr (e := setBe32 buf (i * 4) c') (q := i * 4) fun j hj => hbefore _ (by omega),
      be32_setBe32_self, Nat.mod_eq_of_lt hc']
  have hlater : ∀ e, i < e → e < n → kidTree fs.img.sb fs₁.bytes (setBe32 buf (i * 4) c') l e =
      kidTree fs.img.sb fs.bytes buf l e := fun e h₁ h₂ => hp.later_kid hs hle h₁ h₂
  -- the later entries leave what entry `i` became
  have hkid' : kidTree fs.img.sb fs'.bytes buf' l i = fs.img.sb.tree fs₁.bytes l c' := by
    rw [kidTree, hhead]
    refine BlockTree.load_congr hs.geometry.entries_le (hframe _ fun f hf e h₁ h₂ => ?_)
    rw [hlater e h₁ h₂]
    have hf' : f ∈ fs.img.sb.inner (fs.img.sb.tree fs₁.bytes l c') := hf
    rw [hp.tree] at hf'
    have hmem : f ∈ fs.img.sb.inner (kidTree fs.img.sb fs.bytes buf l i) :=
      Multiset.mem_of_le (BlockTree.inner_prune_le _ _ _) hf'
    exact fun hfe => kids_apart hle h₁ h₂ hfe hmem
  have hsum : ∑ e ∈ Finset.Ico (i + 1) n,
      fs.img.sb.own (kidTree fs.img.sb fs₁.bytes (setBe32 buf (i * 4) c') l e) =
        ∑ e ∈ Finset.Ico (i + 1) n, fs.img.sb.own (kidTree fs.img.sb fs.bytes buf l e) := by
    refine Finset.sum_congr rfl fun e he => ?_
    rw [Finset.mem_Ico] at he
    rw [hlater e he.1 he.2]
  rw [hsum] at hused hcount
  have husedi : fs₁.used + fs.img.sb.own (kidTree fs.img.sb fs.bytes buf l i) =
      fs.used + fs.img.sb.own (fs.img.sb.tree fs₁.bytes l c') := hp.used
  have hcounti : r + (fs.img.sb.own (fs.img.sb.tree fs₁.bytes l c')).card =
      (fs.img.sb.own (kidTree fs.img.sb fs.bytes buf l i)).card := hp.count
  refine ⟨hp.keeps.trans hk, hsound, fun p hp' => ?_, fun e h₁ h₂ => ?_, ?_, ?_, ?_, fun s hs' => ?_⟩
  · rw [hbefore p (by omega)]
    exact patch_of_not_mem (by omega)
  · rcases Nat.eq_or_lt_of_le h₁ with rfl | h₁
    · rw [hkid', hp.tree, kidTree]
    · rw [htrees e h₁ h₂, hlater e h₁ h₂]
  · rw [sum_Ico_head hi, sum_Ico_head hi, hkid', add_left_comm, hused, ← add_assoc,
      add_comm (fs.img.sb.own _) fs₁.used, husedi, add_assoc]
  · rw [sum_Ico_head hi, sum_Ico_head hi, hkid', Multiset.card_add, Multiset.card_add]
    omega
  · rw [Bool.or_eq_true, hany, decide_eq_true_eq]
    constructor
    · rintro (⟨e, h₁, h₂⟩ | hne)
      · exact ⟨e, by omega, h₂⟩
      · exact ⟨i, le_rfl, hi, by rwa [hhead]⟩
    · rintro ⟨e, h₁, h₂, h₃⟩
      rcases Nat.eq_or_lt_of_le h₁ with rfl | h₁
      · exact .inr (by rwa [hhead] at h₃)
      · exact .inl ⟨e, h₁, h₂, h₃⟩
  · refine (hp.frame s fun f hf => hs' f hf i le_rfl hi).trans (hframe s fun f hf e h₁ h₂ => ?_)
    rw [hlater e h₁ h₂]
    exact hs' f hf e (by omega) h₂

end

/-- The loop of `prune_tree`. -/
theorem pruneEntries_ok (hvisit : VisitOk sb keep l base visit) : ∀ {m i r : Nat} {fs fs' : Fs}
    {buf buf' : ByteStore} {any : Bool}, fs.img.sb = sb → i + m = n → fs.Sound →
    ∑ e ∈ Finset.Ico i n, sb.own (kidTree sb fs.bytes buf l e) ≤ fs.used →
    (∀ e, i ≤ e → e < n →
      fs.Good keep₀ (kidTree sb fs.bytes buf l e) l (base + e * sb.entriesPerBlock ^ l)) →
    pruneEntries visit m i buf fs = .ok (buf', r, any) fs' →
    EntriesPruned keep fs l base i n buf buf' r any fs' := by
  intro m
  induction m with
  | zero =>
    rintro i r fs fs' buf buf' any rfl hn hs - - h
    rw [Nat.add_zero] at hn
    subst hn
    rw [pruneEntries, pure_ok] at h
    obtain ⟨h, rfl⟩ := h
    simp only [Prod.mk.injEq] at h
    obtain ⟨rfl, rfl, rfl⟩ := h
    refine ⟨Fs.Keeps.refl fs, hs, fun _ _ => rfl, fun e h₁ h₂ => absurd h₂ (by omega), by simp,
      by simp, ?_, fun s _ => SameOn.refl _ _ _⟩
    constructor
    · exact fun h => absurd h (by simp)
    · rintro ⟨e, h₁, h₂, -⟩
      omega
  | succ m ih =>
    rintro i r fs fs' buf buf' any rfl hn hs hle hgood h
    have hi : i < n := by omega
    rw [pruneEntries] at h
    dsimp only at h
    split at h
    case isTrue h0 =>
      refine EntriesPruned.skip hi h0 (ih rfl (by omega) hs ?_ (fun e h₁ h₂ =>
        hgood e (by omega) h₂) h)
      rw [sum_Ico_head hi] at hle
      exact (Multiset.le_add_left _ _).trans hle
    case isFalse h0 =>
      simp only [bind_ok, pure_ok, Prod.exists, Prod.mk.injEq] at h
      obtain ⟨c', r₁, fs₁, hv, buf₁, r₂, any₁, fs₂, hrest, ⟨rfl, rfl, rfl⟩, rfl⟩ := h
      have hown : fs.img.sb.own (fs.img.sb.tree fs.bytes l (be32 buf (i * 4))) ≤ fs.used := by
        rw [sum_Ico_head hi] at hle
        exact (Multiset.le_add_right _ _).trans hle
      have hp := hvisit rfl h0 hs hown (hgood i le_rfl hi) hv
      have himg := hp.keeps.img
      refine EntriesPruned.cons hs hi hle hp (ih (by rw [himg]) (by omega) hp.sound
        (hp.later_le hs hi hle) (fun e h₁ h₂ => ?_) hrest)
      rw [hp.later_kid hs hle h₁ h₂]
      exact hp.keeps.good (hgood e (by omega) h₂)

/-! ## A block and what is below it -/

/-- The trees below a block, through a buffer that holds it. -/
theorem kidTree_raw {sb : Superblock} {b : ByteStore} {root e : Nat} :
    kidTree sb b (fun i => b (root * sb.fragSize + i)) l e =
      sb.tree b l (be32 b (root * sb.fragSize + e * 4)) := by
  rw [kidTree, be32_congr (e := b) (q := root * sb.fragSize + e * 4) fun j _ => by
    rw [Nat.add_assoc]]

/-- An indirect block read into a buffer. -/
structure BlockRead (fs : Fs) (l root : Nat) (raw : ByteStore) : Prop where
  ok : fs.BlockOk root
  tree : fs.img.sb.tree fs.bytes (l + 1) root = .node root fun e =>
    if e < fs.img.sb.entriesPerBlock then kidTree fs.img.sb fs.bytes raw l e else .hole
  own : fs.img.sb.own (fs.img.sb.tree fs.bytes (l + 1) root) =
    extent root fs.img.sb.fragsPerBlock + ∑ e ∈ Finset.Ico 0 fs.img.sb.entriesPerBlock,
      fs.img.sb.own (kidTree fs.img.sb fs.bytes raw l e)
  root_le : extent root fs.img.sb.fragsPerBlock ≤
    fs.img.sb.inner (fs.img.sb.tree fs.bytes (l + 1) root)
  inner_le : ∀ e < fs.img.sb.entriesPerBlock, extent root fs.img.sb.fragsPerBlock +
    fs.img.sb.inner (kidTree fs.img.sb fs.bytes raw l e) ≤
      fs.img.sb.inner (fs.img.sb.tree fs.bytes (l + 1) root)

theorem blockRead {fs : Fs} {root : Nat} (hroot : root ≠ 0)
    (hgood : fs.Good keep₀ (fs.img.sb.tree fs.bytes (l + 1) root) (l + 1) base) :
    BlockRead fs l root fun i => fs.bytes (root * fs.img.sb.fragSize + i) := by
  have htree : fs.img.sb.tree fs.bytes (l + 1) root = .node root fun e =>
      if e < fs.img.sb.entriesPerBlock then
        kidTree fs.img.sb fs.bytes (fun i => fs.bytes (root * fs.img.sb.fragSize + i)) l e
      else .hole := by
    rw [tree_succ hroot]
    simp only [kidTree_raw]
  refine ⟨hgood.root_ok hroot, htree, ?_, ?_, fun e he => ?_⟩
  · rw [htree, Superblock.own, BlockTree.own, ← Finset.range_eq_Ico]
    refine congrArg _ (Finset.sum_congr rfl fun e he => ?_)
    rw [if_pos (Finset.mem_range.mp he)]
    rfl
  · rw [htree]
    exact Multiset.le_add_right _ _
  · rw [kidTree_raw]
    exact kid_le hroot he

section
variable {fs fs₁ fs' : Fs} {root r : Nat} {raw buf : ByteStore} {any : Bool} {u : PUnit}

/-- The entry left is the pruned tree's pointer. -/
theorem EntriesPruned.ptr (h : EntriesPruned keep fs l base 0 n raw buf r any fs₁) {e : Nat}
    (he : e < n) : (BlockTree.prune fs.img.sb.entriesPerBlock keep
      (kidTree fs.img.sb fs.bytes raw l e) l (base + e * fs.img.sb.entriesPerBlock ^ l)).ptr =
        be32 buf (e * 4) := by
  rw [← h.trees e (Nat.zero_le e) he, kidTree, Superblock.tree, BlockTree.ptr_load]

/-- The pruned tree of a block whose loop ran, as a condition on the buffer. -/
theorem EntriesPruned.prune_eq (hb : BlockRead fs l root raw)
    (h : EntriesPruned keep fs l base 0 fs.img.sb.entriesPerBlock raw buf r any fs₁) :
    BlockTree.prune fs.img.sb.entriesPerBlock keep (fs.img.sb.tree fs.bytes (l + 1) root) (l + 1)
        base =
      if any then .node root fun e => if e < fs.img.sb.entriesPerBlock then
        kidTree fs.img.sb fs₁.bytes buf l e else .hole
      else .hole := by
  rw [hb.tree, BlockTree.prune_node]
  have hkids : (fun e => BlockTree.prune fs.img.sb.entriesPerBlock keep
      (if e < fs.img.sb.entriesPerBlock then kidTree fs.img.sb fs.bytes raw l e else .hole) l
        (base + e * fs.img.sb.entriesPerBlock ^ l)) = fun e => if e < fs.img.sb.entriesPerBlock then
          kidTree fs.img.sb fs₁.bytes buf l e else .hole := by
    funext e
    split
    · rw [h.trees e (Nat.zero_le e) ‹_›]
    · rw [BlockTree.prune]
  have hcond : (∃ e < fs.img.sb.entriesPerBlock, (BlockTree.prune fs.img.sb.entriesPerBlock keep
      (if e < fs.img.sb.entriesPerBlock then kidTree fs.img.sb fs.bytes raw l e else .hole) l
        (base + e * fs.img.sb.entriesPerBlock ^ l)).ptr ≠ 0) ↔ any = true := by
    rw [h.any_iff]
    constructor
    · rintro ⟨e, he, hne⟩
      rw [if_pos he, h.ptr he] at hne
      exact ⟨e, Nat.zero_le e, he, hne⟩
    · rintro ⟨e, -, he, hne⟩
      refine ⟨e, he, ?_⟩
      rwa [if_pos he, h.ptr he]
  rw [hkids]
  simp only [hcond]

/-- The block when an entry is left: the buffer is written back. -/
theorem pruneBlock_kept (hs : fs.Sound) (hb : BlockRead fs l root raw)
    (hle : fs.img.sb.own (fs.img.sb.tree fs.bytes (l + 1) root) ≤ fs.used)
    (hl : EntriesPruned keep fs l base 0 fs.img.sb.entriesPerBlock raw buf r true fs₁)
    (h : writeSlice buf fs.img.sb.blockSize (root * fs.img.sb.fragSize) fs₁ = .ok u fs') :
    Pruned keep fs (l + 1) root base root r fs' := by
  have hw := writeSlice_wrote h
  have hpatch := hw.bytes
  have hsize := hs.geometry.entries_le
  have hblock := hs.geometry.block_eq
  have hroot := hb.ok.1
  have hsame : ∀ s : Multiset Nat, (∀ f ∈ s, f ∉ extent root fs.img.sb.fragsPerBlock) →
      SameOn fs.img.sb.fragSize s fs₁.bytes fs'.bytes := by
    intro s hout
    rw [hpatch]
    refine sameOn_patch (p := root) (n := fs.img.sb.fragsPerBlock) le_rfl
      (by rw [Nat.add_mul, hblock]) fun f hf => ?_
    have := hout f hf
    rw [mem_extent] at this
    omega
  have hkid : ∀ e < fs.img.sb.entriesPerBlock,
      fs.img.sb.tree fs'.bytes l (be32 fs'.bytes (root * fs.img.sb.fragSize + e * 4)) =
        kidTree fs.img.sb fs₁.bytes buf l e := by
    intro e he
    have hentry : be32 fs'.bytes (root * fs.img.sb.fragSize + e * 4) = be32 buf (e * 4) := by
      rw [hpatch, be32_patch_of_mem (Nat.le_add_right ..) (by omega), Nat.add_sub_cancel_left]
    rw [hentry]
    refine BlockTree.load_congr hsize (hsame _ fun f hf hfr => ?_)
    have hf' : f ∈ fs.img.sb.inner (kidTree fs.img.sb fs₁.bytes buf l e) := hf
    rw [hl.trees e (Nat.zero_le e) he] at hf'
    exact apart_of_le fs.used_nodup
      (((hb.inner_le e he).trans (BlockTree.inner_le_own _)).trans hle) hfr
      (Multiset.mem_of_le (BlockTree.inner_prune_le _ _ _) hf')
  have htree : fs.img.sb.tree fs'.bytes (l + 1) root = .node root fun e =>
      if e < fs.img.sb.entriesPerBlock then kidTree fs.img.sb fs₁.bytes buf l e else .hole := by
    rw [tree_succ hroot]
    congr 1
    funext e
    split
    · exact hkid e ‹_›
    · rfl
  have hown : fs.img.sb.own (fs.img.sb.tree fs'.bytes (l + 1) root) =
      extent root fs.img.sb.fragsPerBlock + ∑ e ∈ Finset.Ico 0 fs.img.sb.entriesPerBlock,
        fs.img.sb.own (kidTree fs.img.sb fs₁.bytes buf l e) := by
    rw [htree, Superblock.own, BlockTree.own, ← Finset.range_eq_Ico]
    refine congrArg _ (Finset.sum_congr rfl fun e he => ?_)
    rw [if_pos (Finset.mem_range.mp he)]
    rfl
  refine ⟨hl.keeps.trans hw.keeps, hw.sound hl.sound, ?_, ?_, ?_, fun s hs' => ?_⟩
  · rw [htree, hl.prune_eq hb, if_pos rfl]
  · rw [hown, hb.own, hw.used, add_left_comm, hl.used, add_left_comm]
  · have := hl.count
    rw [hown, hb.own, Multiset.card_add, Multiset.card_add]
    omega
  · refine (hl.frame s fun f hf e _ he hfe => ?_).trans (hsame s fun f hf hfr => ?_)
    · exact hs' f hf (Multiset.mem_of_le ((Multiset.le_add_left _ _).trans (hb.inner_le e he)) hfe)
    · exact hs' f hf (Multiset.mem_of_le hb.root_le hfr)

/-- The block when no entry is left: it is given back. -/
theorem pruneBlock_freed (hb : BlockRead fs l root raw)
    (hle : fs.img.sb.own (fs.img.sb.tree fs.bytes (l + 1) root) ≤ fs.used)
    (hl : EntriesPruned keep fs l base 0 fs.img.sb.entriesPerBlock raw buf r false fs₁)
    (h : freeFragmentRun root fs.img.sb.fragsPerBlock fs₁ = .ok u fs') :
    Pruned keep fs (l + 1) root base 0 (r + fs.img.sb.fragsPerBlock) fs' := by
  have hroot := hb.ok.1
  have hg := freeFragmentRun_ok hl.sound.geometry hl.sound.consistent
    (hl.keeps.runOk hb.ok.2) h
  have hhole : fs.img.sb.tree fs'.bytes (l + 1) 0 = .hole := BlockTree.load_null _
  have hkids : ∑ e ∈ Finset.Ico 0 fs.img.sb.entriesPerBlock,
      fs.img.sb.own (kidTree fs.img.sb fs₁.bytes buf l e) = 0 := by
    refine Finset.sum_eq_zero fun e he => ?_
    have he' := Finset.mem_Ico.mp he
    have h0 : be32 buf (e * 4) = 0 := by
      by_contra hne
      exact absurd (hl.any_iff.mpr ⟨e, he'.1, he'.2, hne⟩) (by simp)
    rw [kidTree, h0, Superblock.tree, BlockTree.load_null]
    rfl
  have hused := hl.used
  have hcount := hl.count
  rw [hkids] at hused hcount
  rw [hb.own] at hle
  have hrootle : extent root fs.img.sb.fragsPerBlock ≤ fs₁.used := by
    obtain ⟨z, hz⟩ := Multiset.le_iff_exists_add.mp hle
    rw [hz] at hused
    refine Multiset.le_iff_exists_add.mpr ⟨z, add_right_cancel (hused.trans ?_)⟩
    abel
  have hfreed := hg.used_eq hroot hrootle
  refine ⟨hl.keeps.trans hg.keeps, hg.sound hl.sound hroot, ?_, ?_, ?_, fun s hs' => ?_⟩
  · rw [hhole, hl.prune_eq hb]
    rfl
  · rw [hhole, hb.own, ← add_assoc, hfreed, hused]
    rfl
  · rw [hhole, hb.own, Multiset.card_add, card_extent hroot, ← hcount]
    change r + fs.img.sb.fragsPerBlock + Multiset.card 0 = _
    simp only [Multiset.card_zero]
    omega
  · rw [hg.same.bytes]
    exact hl.frame s fun f hf e _ he hfe =>
      hs' f hf (Multiset.mem_of_le ((Multiset.le_add_left _ _).trans (hb.inner_le e he)) hfe)

end

/-- The body of `prune_tree`, for any sound treatment of the entries. -/
theorem pruneBlock_ok {fs fs' : Fs} {root root' r : Nat}
    (hvisit : VisitOk fs.img.sb keep l base visit) (hs : fs.Sound)
    (hle : fs.img.sb.own (fs.img.sb.tree fs.bytes (l + 1) root) ≤ fs.used)
    (hgood : fs.Good keep₀ (fs.img.sb.tree fs.bytes (l + 1) root) (l + 1) base)
    (h : pruneBlock visit root fs = .ok (root', r) fs') :
    Pruned keep fs (l + 1) root base root' r fs' := by
  unfold pruneBlock at h
  split at h
  case isTrue h0 =>
    obtain ⟨hpair, rfl⟩ := pure_ok.mp h
    obtain ⟨rfl, rfl⟩ := Prod.mk.inj hpair
    have hhole : fs.img.sb.tree fs.bytes (l + 1) 0 = .hole := BlockTree.load_null _
    subst h0
    refine ⟨Fs.Keeps.refl fs, hs, ?_, rfl, by rw [Nat.zero_add], fun s _ => SameOn.refl _ _ _⟩
    rw [hhole, BlockTree.prune]
  case isFalse hroot =>
    simp only [bind_ok, get_ok, Prod.exists] at h
    obtain ⟨_, _, ⟨rfl, rfl⟩, raw, _, hread, buf, rel, any, fs₁, hloop, h⟩ := h
    obtain ⟨-, rfl, rfl⟩ := readSlice_ok hread
    unfold Fs.fragOffset at hloop h
    have hb := blockRead hroot hgood
    have hsumle := hle
    rw [hb.own] at hsumle
    have hl := pruneEntries_ok hvisit rfl (Nat.zero_add _) hs
      ((Multiset.le_add_left _ _).trans hsumle) (fun e _ he => by
        rw [kidTree_raw]
        exact kid_good hroot hgood he) hloop
    cases any with
    | true =>
      simp only [if_true, bind_ok, pure_ok, Prod.mk.injEq] at h
      obtain ⟨_, _, hwrite, ⟨rfl, rfl⟩, rfl⟩ := h
      exact pruneBlock_kept hs hb hle hl hwrite
    | false =>
      simp only [Bool.false_eq_true, if_false, bind_ok, pure_ok, Prod.mk.injEq] at h
      obtain ⟨_, _, hfree, ⟨rfl, rfl⟩, rfl⟩ := h
      exact pruneBlock_freed hb hle hl hfree

/-- A data block at the leaf level is freed or kept. -/
theorem visitLeaf_ok (sb : Superblock) : VisitOk sb keep 0 base fun i child => do
    let fs ← get
    if base + i ≥ keep then do
      freeFragmentRun child fs.img.sb.fragsPerBlock
      return (0, fs.img.sb.fragsPerBlock)
    else return (child, 0) := by
  rintro e c c' r keep₀ fs fs' rfl hc hs hle hgood h
  have hdata : fs.img.sb.tree fs.bytes 0 c = .data c := if_neg hc
  have hown : fs.img.sb.own (.data c) = extent c fs.img.sb.fragsPerBlock := rfl
  simp only [bind_ok, get_ok] at h
  obtain ⟨_, _, ⟨rfl, rfl⟩, h⟩ := h
  rw [hdata] at hgood hle
  rw [Nat.pow_zero, Nat.mul_one]
  split at h
  case isTrue hge =>
    simp only [bind_ok, pure_ok, Prod.mk.injEq] at h
    obtain ⟨_, w, hfree, ⟨rfl, rfl⟩, rfl⟩ := h
    have hg := freeFragmentRun_ok hs.geometry hs.consistent hgood.2.1.2 hfree
    have hhole : fs.img.sb.tree w.bytes 0 0 = .hole := BlockTree.load_null _
    refine ⟨hg.keeps, hg.sound hs hc, ?_, ?_, ?_, fun s _ => ?_⟩
    · rw [hdata, BlockTree.prune, if_pos hge, hhole]
    · rw [hdata, hown, hhole, hg.used_eq hc hle]
      exact (add_zero _).symm
    · rw [hdata, hown, hhole, card_extent hc]
      rfl
    · rw [hg.same.bytes]
      exact SameOn.refl _ _ _
  case isFalse hlt =>
    simp only [pure_ok, Prod.mk.injEq] at h
    obtain ⟨⟨rfl, rfl⟩, rfl⟩ := h
    refine ⟨Fs.Keeps.refl fs, hs, ?_, rfl, by rw [Nat.zero_add], fun s _ => SameOn.refl _ _ _⟩
    rw [hdata, BlockTree.prune, if_neg hlt]

/-- `prune_tree` prunes the tree. -/
theorem pruneTree_ok : ∀ {below root base root' r keep₀ : Nat} {fs fs' : Fs}, fs.Sound →
    fs.img.sb.own (fs.img.sb.tree fs.bytes (below + 1) root) ≤ fs.used →
    fs.Good keep₀ (fs.img.sb.tree fs.bytes (below + 1) root) (below + 1) base →
    pruneTree keep below root base fs = .ok (root', r) fs' →
    Pruned keep fs (below + 1) root base root' r fs' := by
  intro below
  induction below with
  | zero =>
    intro root base root' r keep₀ fs fs' hs hle hgood h
    exact pruneBlock_ok (visitLeaf_ok fs.img.sb) hs hle hgood h
  | succ below ih =>
    intro root base root' r keep₀ fs fs' hs hle hgood h
    refine pruneBlock_ok ?_ hs hle hgood h
    rintro e c c' r keep₀ fs₁ fs₂ hsb hc hs₁ hle₁ hgood₁ hv
    simp only [bind_ok, get_ok] at hv
    obtain ⟨_, _, ⟨rfl, rfl⟩, hv⟩ := hv
    rw [← hsb] at hle₁ hgood₁ ⊢
    exact ih hs₁ hle₁ hgood₁ hv

end

end NextUfs.Mutate
