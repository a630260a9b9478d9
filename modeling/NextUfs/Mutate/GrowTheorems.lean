/-
NextUfs.Mutate.GrowTheorems — growing one block of a file.

`Grown` is the specification of `growBlock`: the block is there afterwards with
the length asked for, its old bytes below a mark are kept and the rest is
zero, every other block and every other owner's fragment keeps its bytes, and
the tree is well formed again. Extending in place, moving the run and filling a
hole are one case from `extendOrAllocate_ok` on.
-/
import NextUfs.Core.FileMapTheorems
import NextUfs.Mutate.File

namespace NextUfs.Mutate

open NextUfs.Core NextUfs.Lib NextUfs.Lib.ByteStore NextUfs.Lib.StateResult NextUfs.Lib.Extents

/-! ## Block lengths -/

section
variable {sb : Superblock}

theorem fileFrags_none {size k : Nat} (h : size ≤ k * sb.blockSize) : fileFrags sb size k = 0 := by
  simp only [fileFrags, ge_iff_le, h, if_true]

theorem fileFrags_full {size k : Nat} (h : k * sb.blockSize < size)
    (hf : 12 ≤ k ∨ k * sb.blockSize + sb.blockSize ≤ size) :
    fileFrags sb size k = sb.fragsPerBlock := by
  simp only [fileFrags]
  rw [if_neg (by omega), if_pos (by omega)]

theorem fileFrags_tail {size k : Nat} (h : k * sb.blockSize < size) (hk : k < 12)
    (hf : size < k * sb.blockSize + sb.blockSize) :
    fileFrags sb size k = (size - k * sb.blockSize + sb.fragSize - 1) / sb.fragSize := by
  simp only [fileFrags]
  rw [if_neg (by omega), if_neg (by omega)]

/-- The run of a block holds the file's bytes in it. -/
theorem fileFrags_covers (hg : Geometry sb) {size k x : Nat} (hx : x < sb.blockSize)
    (h : k * sb.blockSize + x < size) : x < fileFrags sb size k * sb.fragSize := by
  have hfs := hg.fragSize_ge
  by_cases hf : 12 ≤ k ∨ k * sb.blockSize + sb.blockSize ≤ size
  · rw [fileFrags_full (by omega) hf, hg.block_eq]
    exact hx
  · rw [fileFrags_tail (by omega) (by omega) (by omega)]
    have hdiv := Nat.div_add_mod' (size - k * sb.blockSize + sb.fragSize - 1) sb.fragSize
    have hmod := Nat.mod_lt (size - k * sb.blockSize + sb.fragSize - 1)
      (show 0 < sb.fragSize by omega)
    omega

theorem fileFrags_le (hg : Geometry sb) (size k : Nat) :
    fileFrags sb size k ≤ sb.fragsPerBlock := by
  have hfs := hg.fragSize_ge
  by_cases h : size ≤ k * sb.blockSize
  · rw [fileFrags_none h]
    exact Nat.zero_le _
  by_cases hf : 12 ≤ k ∨ k * sb.blockSize + sb.blockSize ≤ size
  · rw [fileFrags_full (by omega) hf]
  · rw [fileFrags_tail (by omega) (by omega) (by omega)]
    refine Nat.lt_succ_iff.mp (Nat.div_lt_of_lt_mul ?_)
    have hblock := hg.block_eq
    rw [Nat.mul_succ, Nat.mul_comm sb.fragSize, hblock]
    omega

theorem fileFrags_pos (hg : Geometry sb) {size k : Nat} (h : k * sb.blockSize < size) :
    0 < fileFrags sb size k := by
  have := fileFrags_covers hg (x := 0) (by have := hg.blockSize_ge; omega) h
  exact Nat.pos_of_mul_pos_right this

theorem fileFrags_mono (hg : Geometry sb) {size size' : Nat} (hle : size ≤ size') (k : Nat) :
    fileFrags sb size k ≤ fileFrags sb size' k := by
  by_cases h : size ≤ k * sb.blockSize
  · rw [fileFrags_none h]
    exact Nat.zero_le _
  by_cases hf : 12 ≤ k ∨ k * sb.blockSize + sb.blockSize ≤ size'
  · rw [fileFrags_full (show k * sb.blockSize < size' by omega) hf]
    exact fileFrags_le hg size k
  · rw [fileFrags_tail (by omega) (by omega) (by omega),
      fileFrags_tail (show k * sb.blockSize < size' by omega) (by omega) (by omega)]
    exact Nat.div_le_div_right (by omega)

end

/-! ## Finding room -/

/-- The run of `after` fragments at `a` in place of the one of `before` at `old`: the same run
made longer, or a new one. -/
structure NewRun (fs : Fs) (old before a after : Nat) (fs' : Fs) : Prop where
  keeps : fs.Keeps fs'
  sound : fs'.Sound
  bytes : fs'.bytes = fs.bytes
  ne_zero : a ≠ 0
  run : fs.RunOk a after
  used : ∃ x, fs'.used = fs.used + x ∧
    (a = old ∧ extent a after = extent old before + x ∨ a ≠ old ∧ extent a after = x)

theorem newRun_of_took {fs fs' : Fs} (hs : fs.Sound) {old before a after : Nat}
    (hold : old ≠ 0 → 0 < before ∧ extent old before ≤ fs.used) (h : Took fs a after fs') :
    NewRun fs old before a after fs' := by
  have ha := h.ne_zero hs
  refine ⟨h.keeps, h.sound hs, h.same.bytes, ha, h.run, _, h.used_eq hs, .inr ⟨?_, rfl⟩⟩
  rintro rfl
  obtain ⟨hb, hle⟩ := hold ha
  have hpos := h.run.pos
  rcases h.not_mem (Multiset.mem_of_le hle (head_mem_extent ha hb)) with hlt | hlt <;> omega

theorem extendOrAllocate_ok {fs fs' : Fs} (hs : fs.Sound) {old before after cg a : Nat}
    (hold : old ≠ 0 → fs.RunOk old before ∧ extent old before ≤ fs.used)
    (h : extendOrAllocate old before after cg fs = .ok a fs') :
    NewRun fs old before a after fs' := by
  have hold' : old ≠ 0 → 0 < before ∧ extent old before ≤ fs.used :=
    fun h => ⟨(hold h).1.pos, (hold h).2⟩
  have halloc : ∀ {fs'}, allocateFragsAnycg cg after fs = .ok a fs' →
      NewRun fs old before a after fs' :=
    fun h => newRun_of_took hs hold' (allocateFragsAnycg_ok hs.geometry hs.consistent h)
  unfold extendOrAllocate at h
  split at h
  case isTrue => exact halloc h
  case isFalse hne =>
    obtain ⟨hrun, hle⟩ := hold hne
    have hused : fs.Used old before := fun f h₁ h₂ =>
      (Fs.mem_used.mp (Multiset.mem_of_le hle (mem_extent.mpr ⟨hne, h₁, h₂⟩))).2
    split at h
    case h_1 fs₁ hext =>
      obtain ⟨rfl, rfl⟩ : old = a ∧ fs₁ = fs' := by simpa using h
      obtain ⟨ht, hrun'⟩ := extendFragmentRun_ok hs.geometry hs.consistent hrun hused hext
      have hlt : before < after := by have := ht.run.pos; omega
      refine ⟨ht.keeps, ht.sound hs, ht.same.bytes, hne, hrun', _, ht.used_eq hs, .inl ⟨rfl, ?_⟩⟩
      rw [← extent_add hne, Nat.add_sub_cancel' hlt.le]
    case h_2 fs₁ herr =>
      rw [extendFragmentRun_error herr (.inl rfl)] at h
      exact halloc h
    case h_3 => exact absurd h (by simp)

/-! ## Growing a block -/

/-- The steps of `growBlock`: block `k`, of `before` fragments at `old`, then has `after` of them
at `a`, the first `kept` bytes being the old ones. -/
structure GrowSteps (keep : Nat) (fs : Fs) (ino : Inode) (k old before a after kept m : Nat)
    (fs' : Fs) (ino' : Inode) : Prop where
  keeps : fs.Keeps fs'
  sound : fs'.Sound
  fields : ino' = { ino with db := ino'.db, ib := ino'.ib }
  ne_zero : a ≠ 0
  run : fs.RunOk a after
  used : ∃ M, M.card = m ∧
    fs'.used + extent old before = fs.used + extent a after + M ∧
    fs.img.sb.fileInner fs'.bytes ino' = fs.img.sb.fileInner fs.bytes ino + M
  good : fs.SlotsGood keep fs'.bytes ino'
  index : k < fs.img.sb.slotBase 3
  map : ∀ j, fs.img.sb.fileBlock fs'.bytes ino' j =
    Function.update (fs.img.sb.fileBlock fs.bytes ino) k a j
  frame : ∀ s, s + (extent old before + fs.img.sb.fileInner fs.bytes ino) ≤ fs.used →
    SameOn fs.img.sb.fragSize s fs.bytes fs'.bytes
  data : ∀ x < after * fs.img.sb.fragSize, fs'.bytes (a * fs.img.sb.fragSize + x) =
    if x < kept then fs.bytes (old * fs.img.sb.fragSize + x) else 0

section
variable {fs : Fs} {ino : Inode} {keep : Nat}

/-- The new run, filled. -/
structure Filled (fs : Fs) (old before a after : Nat) (buf : ByteStore) (fs' : Fs) : Prop where
  keeps : fs.Keeps fs'
  sound : fs'.Sound
  ne_zero : a ≠ 0
  run : fs.RunOk a after
  used : a = old ∧ fs'.used + extent old before = fs.used + extent a after ∨
    a ≠ old ∧ fs'.used = fs.used + extent a after
  apart : ∀ s, s + extent old before ≤ fs.used → s + extent a after ≤ fs'.used
  frame : ∀ s, s + extent old before ≤ fs.used → SameOn fs.img.sb.fragSize s fs.bytes fs'.bytes
  data : ∀ x < after * fs.img.sb.fragSize, fs'.bytes (a * fs.img.sb.fragSize + x) = buf x

theorem NewRun.fill {fs₁ fs₂ : Fs} {old before a after : Nat} {buf : ByteStore} {u : PUnit}
    (h : NewRun fs old before a after fs₁)
    (hw : writeSlice buf (after * fs.img.sb.fragSize) (fs.fragOffset a) fs₁ = .ok u fs₂) :
    Filled fs old before a after buf fs₂ := by
  obtain ⟨hk, hs, hbytes, ha, hrun, x, hx, hcase⟩ := h
  have hwrote := writeSlice_wrote hw
  have hpatch := hwrote.bytes
  rw [hbytes] at hpatch
  unfold Fs.fragOffset at hpatch
  have hapart : ∀ s, s + extent old before ≤ fs.used → s + extent a after ≤ fs₁.used := by
    intro s hle
    rw [hx]
    rcases hcase with ⟨-, hF⟩ | ⟨-, hF⟩
    · rw [hF, ← add_assoc]
      exact add_le_add hle le_rfl
    · rw [hF]
      exact add_le_add ((Multiset.le_add_right _ _).trans hle) le_rfl
  refine ⟨hk.trans hwrote.keeps, hwrote.sound hs, ha, hrun, ?_, ?_, ?_, ?_⟩
  · rw [hwrote.used, hx]
    rcases hcase with ⟨ho, hF⟩ | ⟨ho, hF⟩
    · refine .inl ⟨ho, ?_⟩
      rw [hF]
      abel
    · exact .inr ⟨ho, by rw [hF]⟩
  · intro s hle
    rw [hwrote.used]
    exact hapart s hle
  · intro s hle
    rw [hpatch]
    refine sameOn_patch (p := a) (n := after) le_rfl (by rw [Nat.add_mul]) fun f hf => ?_
    have hout := apart_of_le fs₁.used_nodup (hapart s hle) hf
    rw [mem_extent] at hout
    omega
  · intro y hy
    rw [hpatch, patch_of_mem (Nat.le_add_right ..) (Nat.add_lt_add_left hy _)]
    congr 1
    omega

/-- The fragments in use after the old run is given back, if it was left. -/
theorem freeMoved_ok {fs' fs'' : Fs} {old before a : Nat} {F M : Multiset Nat} {u : PUnit}
    (hs : fs'.Sound) (hrun : old ≠ 0 → fs'.RunOk old before)
    (hle : a ≠ old → extent old before ≤ fs'.used)
    (hused : a = old ∧ fs'.used + extent old before = fs.used + F + M ∨
      a ≠ old ∧ fs'.used = fs.used + F + M)
    (h : freeMoved old before a fs' = .ok u fs'') :
    fs'.Keeps fs'' ∧ fs''.Sound ∧ fs''.bytes = fs'.bytes ∧
      fs''.used + extent old before = fs.used + F + M := by
  unfold freeMoved at h
  split at h
  case isTrue hc =>
    have hg := freeFragmentRun_ok hs.geometry hs.consistent (hrun hc.1) h
    refine ⟨hg.keeps, hg.sound hs hc.1, hg.same.bytes, ?_⟩
    rw [hg.used_eq hc.1 (hle hc.2)]
    exact (hused.resolve_left fun h => hc.2 h.1).2
  case isFalse hc =>
    obtain ⟨-, rfl⟩ := pure_ok.mp h
    refine ⟨Fs.Keeps.refl _, hs, rfl, ?_⟩
    rcases hused with ⟨-, hu⟩ | ⟨hne, hu⟩
    · exact hu
    · have hold : old = 0 := by
        by_contra h0
        exact hc ⟨h0, hne⟩
      rw [hold, extent_null, add_zero]
      exact hu

/-- A run stays where it is, or room is found for a longer one. -/
theorem findRoom_ok {fs₁ : Fs} (hs : fs.Sound) {old before after cg a : Nat}
    (hold : old ≠ 0 → fs.RunOk old before ∧ extent old before ≤ fs.used)
    (hnone : old = 0 → before = 0) (hle : before ≤ after) (hpos : 0 < after)
    (h : findRoom old before after cg fs = .ok a fs₁) : NewRun fs old before a after fs₁ := by
  unfold findRoom at h
  split at h
  case isTrue => exact extendOrAllocate_ok hs hold h
  case isFalse hge =>
    obtain ⟨rfl, rfl⟩ := pure_ok.mp h
    have heq : before = after := by omega
    have hne : old ≠ 0 := fun h0 => by
      have := hnone h0
      omega
    subst heq
    exact ⟨Fs.Keeps.refl fs, hs, rfl, hne, (hold hne).1, 0, (add_zero _).symm,
      .inl ⟨rfl, (add_zero _).symm⟩⟩

/-- The fragments block `k` has before it grows. -/
def held (fs : Fs) (ino : Inode) (len : Nat → Nat) (k : Nat) : Nat :=
  if fs.img.sb.fileBlock fs.bytes ino k = 0 then 0 else fs.img.sb.lenAt len k

/-- The bytes of block `k` that are kept when the file was `oldSize` bytes long. -/
def kept (fs : Fs) (ino : Inode) (len : Nat → Nat) (k oldSize : Nat) : Nat :=
  if fs.img.sb.fileBlock fs.bytes ino k = 0 then 0
  else min (oldSize - k * fs.img.sb.blockSize) (held fs ino len k * fs.img.sb.fragSize)

theorem extent_held {len : Nat → Nat} {k : Nat} :
    extent (fs.img.sb.fileBlock fs.bytes ino k) (held fs ino len k) =
      extent (fs.img.sb.fileBlock fs.bytes ino k) (fs.img.sb.lenAt len k) := by
  unfold held
  split
  · rw [‹fs.img.sb.fileBlock fs.bytes ino k = 0›, extent_null, extent_null]
  · rfl

/-- The fragments a block has before it grows, as the code counts them. -/
theorem held_eq {len : Nat → Nat} {k oldSize : Nat}
    (hbefore : fs.img.sb.fileBlock fs.bytes ino k ≠ 0 →
      fileFrags fs.img.sb oldSize k = fs.img.sb.lenAt len k) :
    (if fs.img.sb.fileBlock fs.bytes ino k = 0 then 0 else fileFrags fs.img.sb oldSize k) =
      held fs ino len k := by
  unfold held
  split
  · rfl
  · exact hbefore ‹_›

theorem held_run {len : Nat → Nat} {others : Multiset Nat} {k : Nat}
    (hok : FileTree fs ino len keep others) (hne : fs.img.sb.fileBlock fs.bytes ino k ≠ 0) :
    fs.RunOk (fs.img.sb.fileBlock fs.bytes ino k) (held fs ino len k) := by
  have hrun := (hok.run_at hne).1
  rwa [← show held fs ino len k = fs.img.sb.lenAt len k from if_neg hne] at hrun

/-- The map points to the filled run, and the old run is still in use. -/
structure MappedRun (keep : Nat) (fs : Fs) (ino : Inode) (k old before a after : Nat)
    (buf : ByteStore) (m : Nat) (fs' : Fs) (ino' : Inode) : Prop where
  keeps : fs.Keeps fs'
  sound : fs'.Sound
  fields : ino' = { ino with db := ino'.db, ib := ino'.ib }
  used : ∃ M, M.card = m ∧
    (a = old ∧ fs'.used + extent old before = fs.used + extent a after + M ∨
      a ≠ old ∧ fs'.used = fs.used + extent a after + M) ∧
    fs.img.sb.fileInner fs'.bytes ino' = fs.img.sb.fileInner fs.bytes ino + M
  good : fs.SlotsGood keep fs'.bytes ino'
  index : k < fs.img.sb.slotBase 3
  map : ∀ j, fs.img.sb.fileBlock fs'.bytes ino' j =
    Function.update (fs.img.sb.fileBlock fs.bytes ino) k a j
  frame : ∀ s, s + (extent old before + fs.img.sb.fileInner fs.bytes ino) ≤ fs.used →
    SameOn fs.img.sb.fragSize s fs.bytes fs'.bytes
  data : ∀ x < after * fs.img.sb.fragSize, fs'.bytes (a * fs.img.sb.fragSize + x) = buf x

/-- Setting the block in the map, after its run was filled. -/
theorem Filled.mapped {old before a after k pref m : Nat} {buf : ByteStore} {fs₂ fs' : Fs}
    {ino' : Inode} (hfill : Filled fs old before a after buf fs₂) (hg : Geometry fs.img.sb)
    (hinner : fs.img.sb.fileInner fs.bytes ino + extent old before ≤ fs.used)
    (hgood : fs.SlotsGood keep fs.bytes ino) (hk : k < keep)
    (hfull : 12 ≤ k → after = fs.img.sb.fragsPerBlock)
    (hset : setInodeDataBlock ino k a pref fs₂ = .ok (ino', m) fs') :
    MappedRun keep fs ino k old before a after buf m fs' ino' := by
  have himg := hfill.keeps.img
  -- the map is the same as before the run was written
  have hsame : SameOn fs.img.sb.fragSize (fs.img.sb.fileInner fs.bytes ino) fs.bytes fs₂.bytes :=
    hfill.frame _ hinner
  have hinner₂ := fileInner_congr hg hsame
  have hin₂ : fs₂.img.sb.fileInner fs₂.bytes ino ≤ fs₂.used := by
    rw [himg, hinner₂]
    exact (Multiset.le_add_right _ _).trans (hfill.apart _ hinner)
  have hblock : 12 ≤ k → fs₂.BlockOk a := fun h12 => by
    have hrun := hfill.keeps.runOk hfill.run
    rw [hfull h12] at hrun
    exact ⟨hfill.ne_zero, by rwa [himg]⟩
  obtain ⟨hindex, hstep⟩ := setInodeDataBlock_ok hfill.sound hin₂
    (hfill.keeps.slotsGood (hgood.congr hg hsame)) hblock hk hset
  obtain ⟨M, hM, hused, hinner₃⟩ := hstep.used
  have hmap := hstep.map
  have hframe := hstep.frame
  rw [himg] at hindex hinner₃ hmap hframe
  rw [hinner₂] at hinner₃ hframe
  refine ⟨hfill.keeps.trans hstep.keeps, hstep.sound, hstep.fields, ⟨M, hM, ?_, hinner₃⟩,
    hfill.keeps.symm.slotsGood hstep.good, hindex, fun j => ?_, fun s hle => ?_, fun x hx => ?_⟩
  · rw [hused]
    rcases hfill.used with ⟨ha, hu⟩ | ⟨ha, hu⟩
    · exact .inl ⟨ha, by rw [← hu]; abel⟩
    · exact .inr ⟨ha, by rw [hu]⟩
  · by_cases hj : j < fs.img.sb.slotBase 3
    · rw [hmap j hj]
      by_cases hjk : j = k
      · rw [hjk, Function.update_self, Function.update_self]
      · rw [Function.update_of_ne hjk, Function.update_of_ne hjk, fileBlock_congr hg hsame]
    · rw [Function.update_of_ne (by omega), Superblock.fileBlock_of_ge (by omega),
        Superblock.fileBlock_of_ge (by omega)]
  · have hold : s + extent old before ≤ fs.used :=
      (add_le_add le_rfl (Multiset.le_add_right _ _)).trans hle
    refine (hfill.frame s hold).trans (hframe s ?_)
    refine (Multiset.le_add_right _ _).trans (hfill.apart _ ?_)
    rwa [add_assoc, add_comm (fs.img.sb.fileInner fs.bytes ino)]
  · have hrun : extent a after + fs.img.sb.fileInner fs.bytes ino ≤ fs₂.used := by
      rw [add_comm]
      exact hfill.apart _ hinner
    rw [(hframe _ hrun).at_extent hfill.ne_zero le_rfl hx]
    exact hfill.data x hx

/-- Giving the old run back is the last of the steps. -/
theorem MappedRun.steps {old before a after k kept m : Nat} {fs₃ fs' : Fs} {ino' : Inode} {u : PUnit}
    {raw : ByteStore} (h : MappedRun keep fs ino k old before a after
      (fun i => if i < kept then raw i else 0) m fs₃ ino')
    (hraw : ∀ x, raw x = fs.bytes (old * fs.img.sb.fragSize + x))
    (ha : a ≠ 0 ∧ fs.RunOk a after) (hrun : old ≠ 0 → fs.RunOk old before)
    (hle : extent old before ≤ fs.used) (hfree : freeMoved old before a fs₃ = .ok u fs') :
    GrowSteps keep fs ino k old before a after kept m fs' ino' := by
  obtain ⟨M, hM, hused, hinner⟩ := h.used
  have hin : a ≠ old → extent old before ≤ fs₃.used := fun hne => by
    rw [(hused.resolve_left fun h => hne h.1).2]
    exact hle.trans ((Multiset.le_add_right _ _).trans (Multiset.le_add_right _ _))
  obtain ⟨hkeeps, hsound, hbytes, hused'⟩ :=
    freeMoved_ok h.sound (fun hne => h.keeps.runOk (hrun hne)) hin hused hfree
  refine ⟨h.keeps.trans hkeeps, hsound, h.fields, ha.1, ha.2, ⟨M, hM, hused', ?_⟩, ?_, h.index, ?_,
    ?_, ?_⟩
  · rw [hbytes, hinner]
  · rw [hbytes]
    exact h.good
  · rw [hbytes]
    exact h.map
  · rw [hbytes]
    exact h.frame
  · intro x hx
    rw [hbytes, h.data x hx, hraw]

/-- Growing a block: room is found, the run is filled and entered in the map, and the old run is
given back. -/
theorem growBlock_steps {len : Nat → Nat} {others : Multiset Nat} {inodeNo k oldSize newSize : Nat}
    {fs' : Fs} {node' : Node} (hok : FileTree fs ino len keep others) (hk : k < keep)
    (hbefore : fs.img.sb.fileBlock fs.bytes ino k ≠ 0 →
      fileFrags fs.img.sb oldSize k = fs.img.sb.lenAt len k)
    (hmono : oldSize ≤ newSize) (hafter : k * fs.img.sb.blockSize < newSize)
    (h : growBlock ⟨inodeNo, ino⟩ k oldSize newSize fs = .ok node' fs') :
    ∃ a m ino', GrowSteps keep fs ino k (fs.img.sb.fileBlock fs.bytes ino k) (held fs ino len k) a
        (fileFrags fs.img.sb newSize k) (kept fs ino len k oldSize) m fs' ino' ∧
      node' = ⟨inodeNo, { ino' with blocks := ino.blocks +
        (UInt32.ofNat (fileFrags fs.img.sb newSize k) - UInt32.ofNat (held fs ino len k) +
          UInt32.ofNat m) * UInt32.ofNat fs.img.sb.sectorsPerFrag }⟩ := by
  have hg := hok.sound.geometry
  simp only [growBlock, bind_ok, get_ok, pure_ok] at h
  obtain ⟨_, _, ⟨rfl, rfl⟩, old, _, hres, raw, _, hread, a, fs₁, hroom, _, fs₂, hwrite, ⟨ino', m⟩,
    fs₃, hset, _, fs₄, hfree, rfl, rfl⟩ := h
  obtain ⟨rfl, rfl⟩ := resolveInodeDataBlock_ok hres
  obtain ⟨-, rfl, rfl⟩ := readSlice_ok hread
  have hheld := held_eq hbefore
  have hkept : (if fs.img.sb.fileBlock fs.bytes ino k = 0 then 0 else
      min (oldSize - k * fs.img.sb.blockSize) (held fs ino len k * fs.img.sb.fragSize)) =
        kept fs ino len k oldSize := rfl
  rw [hheld, hkept] at hwrite
  rw [hheld] at hroom hfree
  -- the old run, the indirect blocks and the other owners are apart
  have hapart : extent (fs.img.sb.fileBlock fs.bytes ino k) (held fs ino len k) +
      (fs.img.sb.fileInner fs.bytes ino + others) ≤ fs.used := by
    rw [extent_held]
    exact hok.block_le k
  have hle := (Multiset.le_add_right _ _).trans hapart
  have hinner : fs.img.sb.fileInner fs.bytes ino +
      extent (fs.img.sb.fileBlock fs.bytes ino k) (held fs ino len k) ≤ fs.used := by
    rw [add_comm]
    exact (add_le_add le_rfl (Multiset.le_add_right _ _)).trans hapart
  have hshorter : held fs ino len k ≤ fileFrags fs.img.sb newSize k := by
    rw [← hheld]
    split
    · exact Nat.zero_le _
    · exact fileFrags_mono hg hmono k
  have hfill := (findRoom_ok hok.sound (fun hne => ⟨held_run hok hne, hle⟩) (fun h0 => if_pos h0)
    hshorter (fileFrags_pos hg hafter) hroom).fill hwrite
  have hmapped := hfill.mapped hg hinner hok.slots hk
    (fun h12 => fileFrags_full hafter (.inl h12)) hset
  refine ⟨a, m, ino', hmapped.steps (fun _ => rfl) ⟨hfill.ne_zero, hfill.run⟩ (held_run hok) hle hfree,
    ?_⟩
  rw [hheld, hmapped.fields]

/-! ## The file after one block grew -/

/-- A file after block `k` grew to `after` fragments, its first `kept` bytes being the old ones. -/
structure Grown (keep : Nat) (others : Multiset Nat) (fs : Fs) (ino : Inode) (len : Nat → Nat)
    (k after kept : Nat) (fs' : Fs) (ino' : Inode) : Prop where
  ok : FileOk fs' ino' (Function.update len k after) keep others
  keeps : fs.Keeps fs'
  fields : ino' = { ino with db := ino'.db, ib := ino'.ib, blocks := ino'.blocks }
  block_self : fs.img.sb.fileBlock fs'.bytes ino' k ≠ 0
  block_other : ∀ j, j ≠ k →
    fs.img.sb.fileBlock fs'.bytes ino' j = fs.img.sb.fileBlock fs.bytes ino j
  byte_self : ∀ q, q / fs.img.sb.blockSize = k →
    q % fs.img.sb.blockSize < after * fs.img.sb.fragSize →
    fs.img.sb.fileByte fs'.bytes ino' q =
      if q % fs.img.sb.blockSize < kept then fs.img.sb.fileByte fs.bytes ino q else 0
  byte_other : ∀ q, q / fs.img.sb.blockSize ≠ k →
    (fs.img.sb.fileBlock fs.bytes ino (q / fs.img.sb.blockSize) ≠ 0 →
      q % fs.img.sb.blockSize <
        fs.img.sb.lenAt len (q / fs.img.sb.blockSize) * fs.img.sb.fragSize) →
    fs.img.sb.fileByte fs'.bytes ino' q = fs.img.sb.fileByte fs.bytes ino q
  frame : SameOn fs.img.sb.fragSize others fs.bytes fs'.bytes

/-- A 32-bit block count follows the count of fragments. -/
theorem blocks_step {x : UInt32} {c c' a b m spf : Nat} (hx : x.toNat = c * spf)
    (hc : c' + b = c + a + m) (hlt : c' * spf < 4294967296) :
    (x + (UInt32.ofNat a - UInt32.ofNat b + UInt32.ofNat m) * UInt32.ofNat spf).toNat =
      c' * spf := by
  have hx' : x = UInt32.ofNat c * UInt32.ofNat spf := by
    rw [← UInt32.ofNat_mul, ← hx, UInt32.ofNat_toNat]
  have hc' : UInt32.ofNat c' + UInt32.ofNat b =
      UInt32.ofNat c + UInt32.ofNat a + UInt32.ofNat m := by
    rw [← UInt32.ofNat_add, ← UInt32.ofNat_add, ← UInt32.ofNat_add, hc]
  have hsum : x + (UInt32.ofNat a - UInt32.ofNat b + UInt32.ofNat m) * UInt32.ofNat spf =
      UInt32.ofNat c' * UInt32.ofNat spf := by
    have : UInt32.ofNat c' = UInt32.ofNat c + UInt32.ofNat a + UInt32.ofNat m - UInt32.ofNat b := by
      rw [← hc']
      grind
    rw [hx', this]
    grind
  rw [hsum, ← UInt32.ofNat_mul]
  simpa using Nat.mod_eq_of_lt hlt

/-- What a file owns fits the block count. -/
theorem own_sectors_lt {len : Nat → Nat} {others : Multiset Nat} (h : FileTree fs ino len keep others) :
    (fs.img.sb.fileOwn fs.bytes ino len).card * fs.img.sb.sectorsPerFrag < 4294967296 := by
  have hle : (fs.img.sb.fileOwn fs.bytes ino len).card ≤ fs.img.sb.fragCount := by
    refine (Multiset.card_le_card h.own_le).trans ?_
    refine le_trans (Finset.card_filter_le _ _) ?_
    rw [Finset.card_range]
  have hsec := h.geometry.sectors_le
  have := Nat.mul_le_mul_right fs.img.sb.sectorsPerFrag hle
  unfold INT32_MAX at hsec
  omega

/-- What the file owns, before and after. -/
theorem GrowSteps.own_eq {len : Nat → Nat} {k before a after kept m : Nat} {fs' : Fs}
    {ino' : Inode} (hgood : fs.SlotsGood keep fs.bytes ino)
    (hbefore : extent (fs.img.sb.fileBlock fs.bytes ino k) before =
      extent (fs.img.sb.fileBlock fs.bytes ino k) (fs.img.sb.lenAt len k))
    (hafter : 12 ≤ k → after = fs.img.sb.fragsPerBlock)
    (h : GrowSteps keep fs ino k (fs.img.sb.fileBlock fs.bytes ino k) before a after kept m fs' ino') :
    ∃ M, M.card = m ∧
      fs'.used + extent (fs.img.sb.fileBlock fs.bytes ino k) before =
        fs.used + extent a after + M ∧
      fs.img.sb.fileOwn fs'.bytes ino' (Function.update len k after) +
          extent (fs.img.sb.fileBlock fs.bytes ino k) before =
        fs.img.sb.fileOwn fs.bytes ino len + extent a after + M := by
  obtain ⟨M, hM, hused, hinner⟩ := h.used
  refine ⟨M, hM, hused, ?_⟩
  have hself : fs.img.sb.lenAt (Function.update len k after) k = after := by
    unfold Superblock.lenAt
    split
    · exact Function.update_self ..
    · exact (hafter (by omega)).symm
  have hother : ∀ j, j ≠ k →
      fs.img.sb.lenAt (Function.update len k after) j = fs.img.sb.lenAt len j := by
    intro j hj
    unfold Superblock.lenAt
    rw [Function.update_of_ne hj]
  have hsum := sum_update h.index
    (f := fun j => extent (fs.img.sb.fileBlock fs.bytes ino j) (fs.img.sb.lenAt len j))
    (g := fun j => extent (fs.img.sb.fileBlock fs'.bytes ino' j)
      (fs.img.sb.lenAt (Function.update len k after) j))
    fun j _ hj => by rw [h.map, Function.update_of_ne hj, hother j hj]
  simp only [h.map k, Function.update_self, hself] at hsum
  rw [Fs.fileOwn_eq len hgood, Fs.fileOwn_eq _ h.good, hinner, hbefore, add_assoc, hsum]
  abel

/-- `grow_block` on a well-formed file. -/
theorem growBlock_ok {len : Nat → Nat} {others : Multiset Nat} {inodeNo k oldSize newSize : Nat}
    {fs' : Fs} {node' : Node} (hok : FileOk fs ino len keep others) (hk : k < keep)
    (hbefore : fs.img.sb.fileBlock fs.bytes ino k ≠ 0 →
      fileFrags fs.img.sb oldSize k = fs.img.sb.lenAt len k)
    (hmono : oldSize ≤ newSize) (hafter : k * fs.img.sb.blockSize < newSize)
    (h : growBlock ⟨inodeNo, ino⟩ k oldSize newSize fs = .ok node' fs') :
    node'.inodeNo = inodeNo ∧ Grown keep others fs ino len k (fileFrags fs.img.sb newSize k)
      (kept fs ino len k oldSize) fs' node'.inode := by
  obtain ⟨a, m, ino', hsteps, rfl⟩ := growBlock_steps hok.toFileTree hk hbefore hmono hafter h
  refine ⟨rfl, ?_⟩
  have hfull : 12 ≤ k → fileFrags fs.img.sb newSize k = fs.img.sb.fragsPerBlock :=
    fun h12 => fileFrags_full hafter (.inl h12)
  obtain ⟨M, hM, hused, hown⟩ := hsteps.own_eq hok.slots extent_held hfull
  set E := extent (fs.img.sb.fileBlock fs.bytes ino k) (held fs ino len k) with hE
  have howned : fs.img.sb.fileOwn fs'.bytes ino'
      (Function.update len k (fileFrags fs.img.sb newSize k)) + others = fs'.used := by
    refine add_right_cancel (b := E) ?_
    rw [hused, ← hok.owned, add_right_comm, hown]
    abel
  have htree : FileTree fs' ino' (Function.update len k (fileFrags fs.img.sb newSize k)) keep
      others := by
    refine ⟨hsteps.sound, ?_, hsteps.keeps.slotsGood hsteps.good, by rwa [hsteps.keeps.img]⟩
    intro j hj hne
    rw [← @Superblock.fileBlock_direct fs.img.sb fs'.bytes _ _ hj, hsteps.map] at hne ⊢
    by_cases hjk : j = k
    · subst hjk
      rw [Function.update_self, Function.update_self]
      exact ⟨hsteps.keeps.runOk hsteps.run, hk⟩
    · rw [Function.update_of_ne hjk, Superblock.fileBlock_direct hj] at hne ⊢
      rw [Function.update_of_ne hjk]
      exact ⟨hsteps.keeps.runOk (hok.direct j hj hne).1, (hok.direct j hj hne).2⟩
  have hcard : (fs.img.sb.fileOwn fs'.bytes ino'
      (Function.update len k (fileFrags fs.img.sb newSize k))).card + held fs ino len k =
        (fs.img.sb.fileOwn fs.bytes ino len).card + fileFrags fs.img.sb newSize k + m := by
    have hcardE : E.card = held fs ino len k := by
      by_cases h0 : fs.img.sb.fileBlock fs.bytes ino k = 0
      · rw [hE, h0, extent_null, held, if_pos h0, Multiset.card_zero]
      · rw [hE, card_extent h0]
    have := congrArg Multiset.card hown
    rwa [Multiset.card_add, Multiset.card_add, Multiset.card_add, hM, hcardE,
      card_extent hsteps.ne_zero] at this
  have hlt := own_sectors_lt htree
  rw [hsteps.keeps.img] at hlt
  refine ⟨⟨⟨htree.sound, htree.direct, htree.slots, htree.owned⟩, ?_⟩, hsteps.keeps, ?_, ?_, ?_,
    ?_, ?_, ?_⟩
  · rw [hsteps.keeps.img]
    exact blocks_step hok.blocks hcard hlt
  · rw [hsteps.fields]
  · change fs.img.sb.fileBlock fs'.bytes ino' k ≠ 0
    rw [hsteps.map, Function.update_self]
    exact hsteps.ne_zero
  · intro j hj
    change fs.img.sb.fileBlock fs'.bytes ino' j = _
    rw [hsteps.map, Function.update_of_ne hj]
  · intro q hq hlt
    change fs.img.sb.fileByte fs'.bytes ino' q = _
    rw [Superblock.fileByte, Superblock.fileByte, hq, hsteps.map, Function.update_self,
      if_neg hsteps.ne_zero, hsteps.data _ hlt]
    by_cases h0 : fs.img.sb.fileBlock fs.bytes ino k = 0
    · rw [if_neg (by rw [kept, if_pos h0]; omega), if_pos h0, ite_self]
    · rw [if_neg h0]
  · intro q hq hin
    change fs.img.sb.fileByte fs'.bytes ino' q = _
    rw [Superblock.fileByte, Superblock.fileByte, hsteps.map, Function.update_of_ne hq]
    by_cases h0 : fs.img.sb.fileBlock fs.bytes ino (q / fs.img.sb.blockSize) = 0
    · rw [if_pos h0, if_pos h0]
    · rw [if_neg h0, if_neg h0]
      have hle := hok.blocks_le hq
      rw [← extent_held (k := k)] at hle
      exact (hsteps.frame _ hle).at_extent h0 le_rfl (hin h0)
  · refine hsteps.frame others ?_
    have hle := hok.block_le k
    rw [← extent_held, ← add_assoc, add_comm] at hle
    exact hle

end

end NextUfs.Mutate
