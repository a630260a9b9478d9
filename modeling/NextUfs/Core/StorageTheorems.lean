/-
NextUfs.Core.StorageTheorems — the storage in use, as one multiset.

`Fs.used` collects the fragments whose free bit is clear. The allocator's
specifications become equations on it (`Took.used_eq`, `Gave.used_eq`), and a
caller proves what it owns by adding them up. `Fs.Sound` is what a call needs
of the filesystem and gives back; `Fs.Keeps` is what no call of the data path
changes.
-/
import NextUfs.Core.AllocRunTheorems
import NextUfs.Core.BlockMap
import NextUfs.Lib.BlockTree

namespace NextUfs.Core

open NextUfs.Lib NextUfs.Lib.ByteStore NextUfs.Lib.StateResult NextUfs.Lib.Extents
  NextUfs.Lib.Runs

/-! ## What is in use -/

/-- The fragments marked used. -/
def Fs.used (fs : Fs) : Multiset Nat :=
  ((Finset.range fs.img.sb.fragCount).filter fun f => fs.isFree f = false).val

theorem Fs.mem_used {fs : Fs} {f : Nat} :
    f ∈ fs.used ↔ f < fs.img.sb.fragCount ∧ fs.isFree f = false := by
  simp [Fs.used]

theorem Fs.used_nodup (fs : Fs) : fs.used.Nodup := Finset.nodup _

/-- A filesystem the data path can work on: valid geometry, consistent counters, groups that end
within the filesystem, a slice within the image, and fragment 0 taken. -/
structure Fs.Sound (fs : Fs) : Prop where
  valid : imageValidate fs.img = true
  consistent : fs.Consistent
  fits : ∀ c < fs.img.sb.cgCount, c * fs.img.sb.fragsPerGroup + (fs.cg c).ndblk ≤
    fs.img.sb.fragCount
  inSlice : fs.img.sliceBase + fs.img.sliceSize ≤ fs.img.imageSize
  zero : fs.isFree 0 = false

theorem Fs.Sound.geometry {fs : Fs} (hs : fs.Sound) : Geometry fs.img.sb := Image.geometry hs.valid

/-- What the data path leaves alone. -/
structure Fs.Keeps (fs fs' : Fs) : Prop where
  img : fs'.img = fs.img
  inode : fs'.inode = fs.inode
  ndblk : ∀ c, (fs'.cg c).ndblk = (fs.cg c).ndblk

theorem Fs.Keeps.refl (fs : Fs) : fs.Keeps fs := ⟨rfl, rfl, fun _ => rfl⟩

theorem Fs.Keeps.trans {fs fs₁ fs₂ : Fs} (h₁ : fs.Keeps fs₁) (h₂ : fs₁.Keeps fs₂) :
    fs.Keeps fs₂ :=
  ⟨h₂.img.trans h₁.img, h₂.inode.trans h₁.inode, fun c => (h₂.ndblk c).trans (h₁.ndblk c)⟩

theorem Fs.Keeps.symm {fs fs' : Fs} (h : fs.Keeps fs') : fs'.Keeps fs :=
  ⟨h.img.symm, h.inode.symm, fun c => (h.ndblk c).symm⟩

theorem Fs.SameFiles.keeps {fs fs' : Fs} (h : fs.SameFiles fs') : fs.Keeps fs' :=
  ⟨h.img, h.inode, h.ndblk⟩

theorem Fs.Keeps.runOk {fs fs' : Fs} (h : fs.Keeps fs') {p n : Nat} (hr : fs.RunOk p n) :
    fs'.RunOk p n :=
  hr.of_ndblk h.img h.ndblk

/-- Soundness carries over to a filesystem with the same frame. -/
theorem Fs.Sound.of_keeps {fs fs' : Fs} (hs : fs.Sound) (hk : fs.Keeps fs')
    (hc : fs'.Consistent) (hz : fs'.isFree 0 = false) : fs'.Sound :=
  ⟨by rw [hk.img]; exact hs.valid, hc,
    fun c hcc => by rw [hk.ndblk, hk.img]; exact hs.fits c (by rwa [hk.img] at hcc),
    by rw [hk.img]; exact hs.inSlice, hz⟩

/-- A run ends within the filesystem. -/
theorem Fs.Sound.run_le {fs : Fs} (hs : fs.Sound) {p n : Nat} (hr : fs.RunOk p n) :
    p + n ≤ fs.img.sb.fragCount := by
  have h₁ := hs.fits _ hr.group
  have h₂ := hr.inGroup
  have h₃ := Nat.div_add_mod' p fs.img.sb.fragsPerGroup
  omega

theorem Fs.Sound.opened {fs : Fs} (hs : fs.Sound) : fs.Opened := ⟨hs.valid, hs.inSlice⟩

theorem Fs.Sound.inImage_of_le {fs : Fs} (hs : fs.Sound) {off size : Nat}
    (h : off + size ≤ fs.img.sb.fragCount * fs.img.sb.fragSize) : fs.inImage size off :=
  hs.opened.inImage_of_le h

/-- A range within a run lies in the image. -/
theorem Fs.Opened.inImage {fs : Fs} (hs : fs.Opened) {p n off size : Nat}
    (hp : p + n ≤ fs.img.sb.fragCount) (hoff : off + size ≤ n * fs.img.sb.fragSize) :
    fs.inImage size (fs.fragOffset p + off) := by
  refine hs.inImage_of_le ?_
  have h₁ := Nat.mul_le_mul_right fs.img.sb.fragSize hp
  rw [Nat.add_mul] at h₁
  unfold Fs.fragOffset
  omega

theorem Fs.Sound.inImage {fs : Fs} (hs : fs.Sound) {p n off size : Nat}
    (hp : p + n ≤ fs.img.sb.fragCount) (hoff : off + size ≤ n * fs.img.sb.fragSize) :
    fs.inImage size (fs.fragOffset p + off) :=
  hs.opened.inImage hp hoff

/-- The parts of a run are runs. -/
theorem Fs.Sound.run_tail {fs : Fs} (hs : fs.Sound) {p a b : Nat} (h : fs.RunOk p (a + b))
    (hb : 0 < b) : fs.RunOk (p + a) b := by
  have hfpb := hs.geometry.fpb_pos
  have hnd := (hs.consistent.group _ h.group).ndblk_le
  have hin := h.inGroup
  have hblock := h.inBlock
  have hsplit := Nat.div_add_mod' p fs.img.sb.fragsPerGroup
  have hdiv : (p + a) / fs.img.sb.fragsPerGroup = p / fs.img.sb.fragsPerGroup := by
    rw [← hsplit, Nat.add_assoc, add_mul_div (by omega), hsplit]
  have hmod : (p + a) % fs.img.sb.fragsPerGroup = p % fs.img.sb.fragsPerGroup + a := by
    rw [← hsplit, Nat.add_assoc, add_mul_mod (by omega), hsplit]
  refine ⟨hb, by rw [hdiv]; exact h.group, by rw [hdiv, hmod]; omega, ?_⟩
  rw [hmod]
  have hsplit' := Nat.div_add_mod' (p % fs.img.sb.fragsPerGroup) fs.img.sb.fragsPerBlock
  rw [← hsplit', Nat.add_assoc, add_mul_mod (by omega)]
  omega

theorem Fs.RunOk.head {fs : Fs} {p a b : Nat} (h : fs.RunOk p (a + b)) (ha : 0 < a) :
    fs.RunOk p a := by
  have hin := h.inGroup
  have hblock := h.inBlock
  exact ⟨ha, h.group, by omega, by omega⟩

theorem Fs.keeps_withBytes (fs : Fs) (b : ByteStore) : fs.Keeps { fs with bytes := b } :=
  ⟨rfl, rfl, fun _ => rfl⟩

theorem Fs.Sound.withBytes {fs : Fs} (hs : fs.Sound) (b : ByteStore) :
    Fs.Sound { fs with bytes := b } :=
  hs.of_keeps (fs.keeps_withBytes b) (hs.consistent.withBytes b) hs.zero

/-- Bytes were written, and nothing else changed. -/
structure Wrote (fs : Fs) (buf : ByteStore) (size off : Nat) (fs' : Fs) : Prop where
  keeps : fs.Keeps fs'
  bytes : fs'.bytes = patch fs.bytes off size buf
  used : fs'.used = fs.used
  sound : fs.Sound → fs'.Sound

theorem writeSlice_wrote {fs fs' : Fs} {buf : ByteStore} {size off : Nat} {u : PUnit}
    (h : writeSlice buf size off fs = .ok u fs') : Wrote fs buf size off fs' := by
  rw [writeSlice_ok h]
  exact ⟨fs.keeps_withBytes _, rfl, rfl, fun hs => hs.withBytes _⟩

/-- A write inside a run leaves the fragments outside it. -/
theorem Wrote.sameOn {fs fs' : Fs} {buf : ByteStore} {size p n x : Nat} {s : Multiset Nat}
    (h : Wrote fs buf size (p * fs.img.sb.fragSize + x) fs')
    (hx : x + size ≤ n * fs.img.sb.fragSize) (hs : ∀ f ∈ s, f < p ∨ p + n ≤ f) :
    SameOn fs.img.sb.fragSize s fs.bytes fs'.bytes := by
  rw [h.bytes]
  exact sameOn_patch (Nat.le_add_right ..) (by rw [Nat.add_mul]; omega) hs

/-! ## Taking and giving -/

theorem Took.keeps {fs fs' : Fs} {p n : Nat} (h : Took fs p n fs') : fs.Keeps fs' := h.same.keeps

/-- The first fragment taken is not the null pointer. -/
theorem Took.ne_zero {fs fs' : Fs} (hs : fs.Sound) {p n : Nat} (h : Took fs p n fs') : p ≠ 0 := by
  rintro rfl
  have := h.wasFree 0 le_rfl (by have := h.run.pos; omega)
  rw [hs.zero] at this
  exact absurd this (by decide)

theorem Took.sound {fs fs' : Fs} (hs : fs.Sound) {p n : Nat} (h : Took fs p n fs') :
    fs'.Sound := by
  refine hs.of_keeps h.keeps h.consistent ?_
  rw [h.bits]
  split
  · rfl
  · exact hs.zero

theorem Took.not_mem {fs fs' : Fs} {p n f : Nat} (h : Took fs p n fs') (hf : f ∈ fs.used) :
    f < p ∨ p + n ≤ f := by
  by_contra hc
  have := h.wasFree f (by omega) (by omega)
  rw [(Fs.mem_used.mp hf).2] at this
  exact absurd this (by decide)

/-- A run that was free and now is not joins the storage in use. -/
theorem used_of_taken {fs fs' : Fs} {p n : Nat} (hp : p ≠ 0) (hle : p + n ≤ fs.img.sb.fragCount)
    (himg : fs'.img = fs.img) (hfree : ∀ f, p ≤ f → f < p + n → fs.isFree f = true)
    (hbits : ∀ f, fs'.isFree f = if p ≤ f ∧ f < p + n then false else fs.isFree f) :
    fs'.used = fs.used + extent p n := by
  have hnodup : (fs.used + extent p n).Nodup := by
    refine Multiset.nodup_add.mpr ⟨fs.used_nodup, extent_nodup p n, ?_⟩
    rw [Multiset.disjoint_left]
    intro f hf hr
    obtain ⟨-, h₁, h₂⟩ := mem_extent.mp hr
    have hset := hfree f h₁ h₂
    rw [(Fs.mem_used.mp hf).2] at hset
    exact absurd hset (by decide)
  refine (Multiset.Nodup.ext fs'.used_nodup hnodup).mpr fun f => ?_
  rw [Multiset.mem_add, Fs.mem_used, Fs.mem_used, mem_extent, hbits, himg]
  by_cases hr : p ≤ f ∧ f < p + n
  · rw [if_pos hr]
    exact ⟨fun _ => .inr ⟨hp, hr⟩, fun _ => ⟨by omega, rfl⟩⟩
  · rw [if_neg hr]
    simp only [hr, and_false, or_false]

theorem Took.used_eq {fs fs' : Fs} (hs : fs.Sound) {p n : Nat} (h : Took fs p n fs') :
    fs'.used = fs.used + extent p n :=
  used_of_taken (h.ne_zero hs) (hs.run_le h.run) h.same.img h.wasFree h.bits

/-- A whole block was taken from the free fragments; nothing is assumed of the counters. -/
structure TookBlock (fs : Fs) (p : Nat) (fs' : Fs) : Prop where
  le : p + fs.img.sb.fragsPerBlock ≤ fs.img.sb.fragCount
  wasFree : ∀ f, p ≤ f → f < p + fs.img.sb.fragsPerBlock → fs.isFree f = true
  bits : ∀ f, fs'.isFree f =
    if p ≤ f ∧ f < p + fs.img.sb.fragsPerBlock then false else fs.isFree f
  same : fs.SameFiles fs'

/-- The group's own size is checked before the search, so a block found lies in the
filesystem. -/
theorem allocateBlockInGroup_ok {fs fs' : Fs} (hg : Geometry fs.img.sb) {c p : Nat}
    (h : allocateFragsInGroup c fs.img.sb.fragsPerBlock fs = .ok p fs') : TookBlock fs p fs' := by
  have hfpb := hg.fpb_pos
  have hnone : (fs.cg c).partialRun fs.img.sb.fragsPerBlock fs.img.sb.fragsPerBlock = none :=
    if_neg fun hlt => absurd hlt.1 (Nat.lt_irrefl _)
  obtain ⟨start, _, _, ⟨-, ⟨hnd, hle⟩, ⟨_, hp, -⟩ | ⟨-, hw, rfl, rfl⟩⟩, rfl, rfl⟩ :=
    allocateFragsInGroup_eq h
  · exact absurd (hnone.symm.trans hp) (by simp)
  · obtain ⟨b, rfl, hfull⟩ := Cg.wholeBlock_some hw
    have hend := Cg.wholeBlock_le hw
    generalize b * fs.img.sb.fragsPerBlock = start at hfull hend ⊢
    have hlt : start < fs.img.sb.fragsPerGroup := by omega
    have hdiv : (c * fs.img.sb.fragsPerGroup + start) / fs.img.sb.fragsPerGroup = c :=
      add_mul_div hlt
    have hmod : (c * fs.img.sb.fragsPerGroup + start) % fs.img.sb.fragsPerGroup = start :=
      add_mul_mod hlt
    have hin : (c * fs.img.sb.fragsPerGroup + start) % fs.img.sb.fragsPerGroup +
        fs.img.sb.fragsPerBlock ≤ fs.img.sb.fragsPerGroup := by omega
    refine ⟨by omega, fun f h₁ h₂ => ?_, ?_, ?_⟩
    · rw [Fs.isFree_run hin h₁ h₂, hdiv, hmod]
      exact allSet_iff.mp hfull _ (by omega)
    · have hedit : ∀ i, ((fs.cg c).splitBlock fs.img.sb start fs.img.sb.fragsPerBlock).free i =
          if start ≤ i ∧ i < start + fs.img.sb.fragsPerBlock then false else (fs.cg c).free i :=
        fun i => by rw [Cg.splitBlock, Cg.addBlock_eq hg _ hlt]; rfl
      have hbits := fun d => Fs.isFree_of_run (d := d) hin (by rwa [hdiv, hmod])
      rw [hdiv] at hbits
      exact hbits _
    · exact Fs.sameFiles_withGroup
        (by rw [Cg.splitBlock, Cg.addBlock_eq hg _ hlt]) _

theorem allocateFullBlockAnycg_ok {fs fs' : Fs} (hg : Geometry fs.img.sb) {pref p : Nat}
    (h : allocateFullBlockAnycg pref fs = .ok p fs') : TookBlock fs p fs' := by
  simp only [allocateFullBlockAnycg, allocateFragsAnycg, bind_ok, get_ok] at h
  obtain ⟨_, _, ⟨rfl, rfl⟩, _, _, hres, _, _, ⟨rfl, rfl⟩, h⟩ := h
  rw [reserveAvailable_ok hres] at h
  obtain ⟨c, -, h⟩ := anycgLoop_group hg h
  exact allocateBlockInGroup_ok hg h

theorem TookBlock.not_mem {fs fs' : Fs} {p f : Nat} (h : TookBlock fs p fs') (hf : f ∈ fs.used) :
    f < p ∨ p + fs.img.sb.fragsPerBlock ≤ f := by
  by_contra hc
  have := h.wasFree f (by omega) (by omega)
  rw [(Fs.mem_used.mp hf).2] at this
  exact absurd this (by decide)

theorem Gave.keeps {fs fs' : Fs} {p n : Nat} (h : Gave fs p n fs') : fs.Keeps fs' := h.same.keeps

theorem Gave.sound {fs fs' : Fs} (hs : fs.Sound) {p n : Nat} (hp : p ≠ 0)
    (h : Gave fs p n fs') : fs'.Sound := by
  refine hs.of_keeps h.keeps h.consistent ?_
  rw [h.bits, if_neg (by omega)]
  exact hs.zero

theorem Gave.used_eq {fs fs' : Fs} {p n : Nat} (hp : p ≠ 0) (h : Gave fs p n fs')
    (hr : extent p n ≤ fs.used) : fs'.used + extent p n = fs.used := by
  have hnodup : (fs'.used + extent p n).Nodup := by
    refine Multiset.nodup_add.mpr ⟨fs'.used_nodup, extent_nodup p n, ?_⟩
    rw [Multiset.disjoint_left]
    intro f hf hr
    have hbit := (Fs.mem_used.mp hf).2
    rw [h.bits, if_pos (mem_extent.mp hr).2] at hbit
    exact absurd hbit (by decide)
  refine (Multiset.Nodup.ext hnodup fs.used_nodup).mpr fun f => ?_
  rw [Multiset.mem_add]
  by_cases hin : f ∈ extent p n
  · exact ⟨fun _ => Multiset.mem_of_le hr hin, fun _ => .inr hin⟩
  · have hout : ¬ (p ≤ f ∧ f < p + n) := fun hc => hin (mem_extent.mpr ⟨hp, hc⟩)
    simp only [hin, or_false, Fs.mem_used, h.bits, h.same.img, if_neg hout]

end NextUfs.Core
