/-
NextUfs.Core.AllocRunTheorems — what the allocator's calls do to the
filesystem.

`Took` and `Gave` are the specifications the callers of the allocator use:
which fragments change hands, that the bits change there and nowhere else,
that nothing but the maps and counters is touched, and that the filesystem is
consistent again. Each call is split once into its tests and its writes
(`allocateFragsInGroup_cases` and its like); a call that fails in an open image
changes nothing.
-/
import NextUfs.Core.AllocTheorems
import NextUfs.Core.LayoutTheorems

namespace NextUfs.Core

open NextUfs.Lib NextUfs.Lib.ByteStore NextUfs.Lib.StateResult NextUfs.Lib.Runs

/-! ## Consistency at all levels -/

/-- One word of the summary table, summed over the groups. -/
def Fs.sumWord (fs : Fs) (word : Csum → UInt32) : Nat :=
  ∑ c ∈ Finset.range fs.img.sb.cgCount, (word (fs.csum c)).toNat

/-- Groups, summary table and superblock totals agree. -/
structure Fs.Consistent (fs : Fs) : Prop where
  group : ∀ c < fs.img.sb.cgCount, (fs.cg c).Consistent fs.img.sb
  summary : ∀ c < fs.img.sb.cgCount, fs.csum c = (fs.cg c).cs
  ndir : fs.totals.ndir.toNat = fs.sumWord Csum.ndir
  nbfree : fs.totals.nbfree.toNat = fs.sumWord Csum.nbfree
  nifree : fs.totals.nifree.toNat = fs.sumWord Csum.nifree
  nffree : fs.totals.nffree.toNat = fs.sumWord Csum.nffree

/-- The filesystem with group `c` replaced and its counters moved by `d` at the other levels. -/
def Fs.withGroup (fs : Fs) (c : Nat) (cg : Cg) (d : Csum) : Fs :=
  { fs with
    cg := Function.update fs.cg c cg
    totals := fs.totals.add d
    csum := Function.update fs.csum c ((fs.csum c).add d) }

/-- Counters and data are apart. -/
theorem Fs.Consistent.withBytes {fs : Fs} (hc : fs.Consistent) (bytes : ByteStore) :
    Fs.Consistent { fs with bytes := bytes } :=
  ⟨hc.group, hc.summary, hc.ndir, hc.nbfree, hc.nifree, hc.nffree⟩

/-- A word of the totals follows its sum, if the sum fits. -/
theorem total_step {fs : Fs} {c : Nat} (hcc : c < fs.img.sb.cgCount) (cg : Cg) (d : Csum)
    {word : Csum → UInt32} (hword : ∀ a, word (a.add d) = word a + word d)
    (hsum : (word fs.totals).toNat = fs.sumWord word)
    (hlt : (fs.withGroup c cg d).sumWord word < 4294967296) :
    (word (fs.withGroup c cg d).totals).toNat = (fs.withGroup c cg d).sumWord word := by
  have hchange : (fs.withGroup c cg d).sumWord word + (word (fs.csum c)).toNat =
      fs.sumWord word + (word ((fs.csum c).add d)).toNat := by
    have h := sum_change (f := fun i => (word (fs.csum i)).toNat)
      (g := fun i => (word ((fs.withGroup c cg d).csum i)).toNat) hcc
      (fun i _ hne => by simp [Fs.withGroup, Function.update_of_ne hne])
    simpa [Fs.sumWord, Fs.withGroup] using h
  refine counter_step hsum hchange ?_ hlt
  simp only [Fs.withGroup, hword, UInt32.ofNat_toNat]
  grind

/-- The whole blocks and the loose fragments of a group are at most its fragments. -/
theorem Cg.Consistent.words_le {sb : Superblock} (hg : Geometry sb) {cg : Cg}
    (hc : cg.Consistent sb) :
    cg.cs.nbfree.toNat ≤ sb.fragsPerGroup ∧ cg.cs.nffree.toNat ≤ sb.fragsPerGroup := by
  have hfpb : 0 < sb.fragsPerBlock := by rcases hg.fpb_cases with h | h | h | h <;> omega
  have hle := hc.ndblk_le
  have h₁ : cg.total sb.fragsPerBlock (blockFull sb.fragsPerBlock) ≤ _ :=
    cg.total_le (blockFull_le sb.fragsPerBlock · cg.free)
  have h₂ := cg.blocks_le hfpb
  have h₃ := Cg.total_frags_le sb.fragsPerBlock hc.free_lt
  rw [hc.nbfree, hc.nffree]
  omega

/-- All groups together hold fewer than `2^32` fragments. -/
theorem Geometry.groups_lt {sb : Superblock} (hg : Geometry sb) :
    sb.cgCount * sb.fragsPerGroup < 4294967296 := by
  have h₁ := Nat.div_mul_le_self (sb.fragCount + sb.fragsPerGroup - 1) sb.fragsPerGroup
  rw [← hg.cg_count] at h₁
  have h₂ := hg.fragCount_le
  have h₃ := hg.fpg_le
  unfold INT32_MAX at h₂
  omega

/-- The step lemma: a group changed consistently, with the change carried to the other levels. -/
theorem Fs.Consistent.updateGroup {fs : Fs} (hg : Geometry fs.img.sb) (hc : fs.Consistent)
    {c : Nat} (hcc : c < fs.img.sb.cgCount) {cg : Cg} (hcg : cg.Consistent fs.img.sb) {d : Csum}
    (hcs : cg.cs = (fs.cg c).cs.add d) (hdir : d.ndir = 0) (hino : d.nifree = 0) :
    (fs.withGroup c cg d).Consistent := by
  have hgroup : ∀ a < fs.img.sb.cgCount, ((fs.withGroup c cg d).cg a).Consistent fs.img.sb := by
    intro a ha
    by_cases hac : a = c
    · subst hac
      simpa [Fs.withGroup] using hcg
    · simpa [Fs.withGroup, hac] using hc.group a ha
  have hsummary : ∀ a < fs.img.sb.cgCount,
      (fs.withGroup c cg d).csum a = ((fs.withGroup c cg d).cg a).cs := by
    intro a ha
    by_cases hac : a = c
    · subst hac
      simp [Fs.withGroup, hcs, hc.summary a ha]
    · simpa [Fs.withGroup, hac] using hc.summary a ha
  have hlt : ∀ word : Csum → UInt32,
      (∀ a < fs.img.sb.cgCount,
        (word ((fs.withGroup c cg d).cg a).cs).toNat ≤ fs.img.sb.fragsPerGroup) →
      (fs.withGroup c cg d).sumWord word < 4294967296 := by
    intro word hle
    refine lt_of_le_of_lt (sum_le_mul fun a ha => ?_) hg.groups_lt
    rw [hsummary a ha]
    exact hle a ha
  have hsame : ∀ word : Csum → UInt32, (∀ a, word (a.add d) = word a) →
      (word fs.totals).toNat = fs.sumWord word →
      (word (fs.withGroup c cg d).totals).toNat = (fs.withGroup c cg d).sumWord word := by
    intro word hword hsum
    have hw : ∀ a, word ((fs.withGroup c cg d).csum a) = word (fs.csum a) := by
      intro a
      by_cases hac : a = c
      · subst hac
        simp [Fs.withGroup, hword]
      · simp [Fs.withGroup, hac]
    have heq : (fs.withGroup c cg d).sumWord word = fs.sumWord word := by
      simp only [Fs.sumWord, hw]
      rfl
    rw [heq, ← hsum]
    simp [Fs.withGroup, hword]
  exact
    { group := hgroup
      summary := hsummary
      ndir := hsame Csum.ndir (fun a => by simp [Csum.add, hdir]) hc.ndir
      nbfree := total_step hcc cg d (fun _ => rfl) hc.nbfree
        (hlt _ fun a ha => ((hgroup a ha).words_le hg).1)
      nifree := hsame Csum.nifree (fun a => by simp [Csum.add, hino]) hc.nifree
      nffree := total_step hcc cg d (fun _ => rfl) hc.nffree
        (hlt _ fun a ha => ((hgroup a ha).words_le hg).2) }

/-! ## Runs of fragments -/

/-- `n` fragments from `frag`, in one block of one group. -/
structure Fs.RunOk (fs : Fs) (frag n : Nat) : Prop where
  pos : 0 < n
  group : frag / fs.img.sb.fragsPerGroup < fs.img.sb.cgCount
  inGroup : frag % fs.img.sb.fragsPerGroup + n ≤
    (fs.cg (frag / fs.img.sb.fragsPerGroup)).ndblk
  inBlock : frag % fs.img.sb.fragsPerGroup % fs.img.sb.fragsPerBlock + n ≤
    fs.img.sb.fragsPerBlock

/-- All of the run is in use. -/
def Fs.Used (fs : Fs) (frag n : Nat) : Prop :=
  ∀ f, frag ≤ f → f < frag + n → fs.isFree f = false

/-- Everything but maps and counters is the same, and the groups are as large. -/
structure Fs.SameFiles (fs fs' : Fs) : Prop where
  img : fs'.img = fs.img
  bytes : fs'.bytes = fs.bytes
  inode : fs'.inode = fs.inode
  ndblk : ∀ c, (fs'.cg c).ndblk = (fs.cg c).ndblk

/-- The call took the run from the free fragments. -/
structure Took (fs : Fs) (frag n : Nat) (fs' : Fs) : Prop where
  run : fs.RunOk frag n
  wasFree : ∀ f, frag ≤ f → f < frag + n → fs.isFree f = true
  bits : ∀ f, fs'.isFree f = if frag ≤ f ∧ f < frag + n then false else fs.isFree f
  consistent : fs'.Consistent
  same : fs.SameFiles fs'

/-- The call gave the run back to the free fragments. -/
structure Gave (fs : Fs) (frag n : Nat) (fs' : Fs) : Prop where
  bits : ∀ f, fs'.isFree f = if frag ≤ f ∧ f < frag + n then true else fs.isFree f
  consistent : fs'.Consistent
  same : fs.SameFiles fs'

/-- Where a position of a run lies. -/
theorem frag_in_group {fpg frag n f : Nat} (h : frag % fpg + n ≤ fpg) :
    frag ≤ f ∧ f < frag + n ↔
      f / fpg = frag / fpg ∧ frag % fpg ≤ f % fpg ∧ f % fpg < frag % fpg + n := by
  have h₁ := Nat.div_add_mod frag fpg
  have h₂ := Nat.div_add_mod f fpg
  constructor
  · rintro ⟨hle, hlt⟩
    have hdiv : f / fpg = frag / fpg :=
      Nat.div_eq_of_lt_le (by rw [Nat.mul_comm]; omega) (by rw [Nat.succ_mul, Nat.mul_comm]; omega)
    rw [hdiv] at h₂
    omega
  · rintro ⟨hdiv, hle, hlt⟩
    rw [hdiv] at h₂
    omega

theorem Fs.isFree_withGroup (fs : Fs) (c : Nat) (cg : Cg) (d : Csum) (f : Nat) :
    (fs.withGroup c cg d).isFree f =
      if f / fs.img.sb.fragsPerGroup = c then cg.free (f % fs.img.sb.fragsPerGroup)
      else fs.isFree f := by
  by_cases h : f / fs.img.sb.fragsPerGroup = c
  · subst h
    simp [Fs.isFree, Fs.withGroup]
  · simp [Fs.isFree, Fs.withGroup, h]

/-- The free bits after a run of one group was overwritten with `v`. -/
theorem Fs.isFree_of_run {fs : Fs} {frag n : Nat} {cg : Cg} {d : Csum} {v : Bool}
    (hin : frag % fs.img.sb.fragsPerGroup + n ≤ fs.img.sb.fragsPerGroup)
    (hfree : ∀ i, cg.free i =
      if frag % fs.img.sb.fragsPerGroup ≤ i ∧ i < frag % fs.img.sb.fragsPerGroup + n then v
      else (fs.cg (frag / fs.img.sb.fragsPerGroup)).free i) (f : Nat) :
    (fs.withGroup (frag / fs.img.sb.fragsPerGroup) cg d).isFree f =
      if frag ≤ f ∧ f < frag + n then v else fs.isFree f := by
  simp only [Fs.isFree_withGroup, frag_in_group hin]
  by_cases hg : f / fs.img.sb.fragsPerGroup = frag / fs.img.sb.fragsPerGroup
  · rw [if_pos hg, hfree]
    simp only [hg, true_and]
    split
    · rfl
    · rw [Fs.isFree, hg]
  · rw [if_neg hg, if_neg (fun h => hg h.1)]

theorem Fs.SameFiles.refl (fs : Fs) : fs.SameFiles fs := ⟨rfl, rfl, rfl, fun _ => rfl⟩

theorem Fs.sameFiles_withGroup {fs : Fs} {c : Nat} {cg : Cg} (hnd : cg.ndblk = (fs.cg c).ndblk)
    (d : Csum) : fs.SameFiles (fs.withGroup c cg d) := by
  refine ⟨rfl, rfl, rfl, fun a => ?_⟩
  by_cases h : a = c
  · subst h
    simpa [Fs.withGroup] using hnd
  · simp [Fs.withGroup, h]

theorem Fs.RunOk.of_ndblk {fs fs' : Fs} {frag n : Nat} (h : fs.RunOk frag n)
    (himg : fs'.img = fs.img) (hnd : ∀ c, (fs'.cg c).ndblk = (fs.cg c).ndblk) :
    fs'.RunOk frag n := by
  obtain ⟨h₁, h₂, h₃, h₄⟩ := h
  exact ⟨h₁, by rwa [himg], by rwa [himg, hnd], by rwa [himg]⟩

/-- A run's fragments, by their position in the group. -/
theorem Fs.isFree_run {fs : Fs} {frag n f : Nat}
    (hin : frag % fs.img.sb.fragsPerGroup + n ≤ fs.img.sb.fragsPerGroup) (h₁ : frag ≤ f)
    (h₂ : f < frag + n) :
    fs.isFree f = (fs.cg (frag / fs.img.sb.fragsPerGroup)).free
      (frag % fs.img.sb.fragsPerGroup + (f - frag)) := by
  obtain ⟨hdiv, -, -⟩ := (frag_in_group hin).mp ⟨h₁, h₂⟩
  have h₃ := Nat.div_add_mod frag fs.img.sb.fragsPerGroup
  have h₄ := Nat.div_add_mod f fs.img.sb.fragsPerGroup
  rw [hdiv] at h₄
  rw [Fs.isFree, hdiv]
  congr 1
  omega

/-- The run in its block. -/
theorem inBlock_of_mod {fpb i n : Nat} (h : i % fpb + n ≤ fpb) : InBlock fpb (i / fpb) i n := by
  have h₁ := Nat.div_add_mod i fpb
  rw [Nat.mul_comm] at h₁
  constructor <;> omega

theorem sub_mod_eq (i fpb : Nat) : i - i % fpb = i / fpb * fpb := by
  have h₁ := Nat.div_add_mod i fpb
  rw [Nat.mul_comm] at h₁
  omega

theorem InBlock.mod_add_le {fpb b i n : Nat} (h : InBlock fpb b i n) (hn : 0 < n) :
    i % fpb + n ≤ fpb := by
  have hb := h.div_eq le_rfl (by omega)
  have h₁ := Nat.div_add_mod i fpb
  rw [hb, Nat.mul_comm] at h₁
  have := h.2
  omega

/-- Storing an edited group that takes a run out of the free map. -/
theorem took_withGroup {fs : Fs} (hg : Geometry fs.img.sb) (hc : fs.Consistent) (frag : Nat)
    {n b : Nat} (hcc : frag / fs.img.sb.fragsPerGroup < fs.img.sb.cgCount) (hn : 0 < n)
    (hin : InBlock fs.img.sb.fragsPerBlock b (frag % fs.img.sb.fragsPerGroup) n)
    (hset : ∀ i, frag % fs.img.sb.fragsPerGroup ≤ i → i < frag % fs.img.sb.fragsPerGroup + n →
      (fs.cg (frag / fs.img.sb.fragsPerGroup)).free i = true) (cg : Cg)
    (hcg : cg.Consistent fs.img.sb)
    (hfree : cg.free = clearBlockBits (fs.cg (frag / fs.img.sb.fragsPerGroup)).free
      (frag % fs.img.sb.fragsPerGroup) n)
    (hnd : cg.ndblk = (fs.cg (frag / fs.img.sb.fragsPerGroup)).ndblk) {d : Csum}
    (hcs : cg.cs = (fs.cg (frag / fs.img.sb.fragsPerGroup)).cs.add d) (hdir : d.ndir = 0)
    (hino : d.nifree = 0) :
    Took fs frag n (fs.withGroup (frag / fs.img.sb.fragsPerGroup) cg d) := by
  have hend : frag % fs.img.sb.fragsPerGroup + n ≤
      (fs.cg (frag / fs.img.sb.fragsPerGroup)).ndblk := by
    have := (hc.group _ hcc).free_lt (frag % fs.img.sb.fragsPerGroup + (n - 1))
      (hset _ (by omega) (by omega))
    omega
  have hin' : frag % fs.img.sb.fragsPerGroup + n ≤ fs.img.sb.fragsPerGroup :=
    hend.trans (hc.group _ hcc).ndblk_le
  exact
    { run := ⟨hn, hcc, hend, hin.mod_add_le hn⟩
      wasFree := fun f h₁ h₂ => by
        rw [Fs.isFree_run hin' h₁ h₂]
        exact hset _ (by omega) (by omega)
      bits := Fs.isFree_of_run hin' fun i => by rw [hfree]; rfl
      consistent := hc.updateGroup hg hcc hcg hcs hdir hino
      same := Fs.sameFiles_withGroup hnd d }

/-! ## The searches -/

theorem Cg.partialRun_some {cg : Cg} {fpb n base start : Nat} (hfpb : 0 < fpb)
    (hlt : ∀ i, cg.free i = true → i < cg.ndblk) (h : cg.partialRun fpb n = some (base, start)) :
    ∃ b, base = b * fpb ∧ InBlock fpb b start n ∧
      (∀ i, start ≤ i → i < start + n → cg.free i = true) ∧
      allSet cg.free (b * fpb) fpb = false := by
  unfold Cg.partialRun at h
  split at h
  case isFalse => exact absurd h (by simp)
  obtain ⟨b, -, hb⟩ := List.exists_of_findSome?_eq_some h
  dsimp only at hb
  split at hb
  case isTrue => exact absurd hb (by simp)
  rename_i hwhole
  rw [Option.map_eq_some_iff] at hb
  obtain ⟨s, hfind, hpair⟩ := hb
  obtain ⟨rfl, rfl⟩ := Prod.mk.inj hpair
  have hmem := List.mem_of_find?_eq_some hfind
  have hset := List.find?_some hfind
  rw [List.mem_range'_1] at hmem
  rw [setRunBits, allSet_iff] at hset
  refine ⟨b, rfl, ⟨hmem.1, by omega⟩, fun i h₁ h₂ => ?_, ?_⟩
  · have := hset (i - s) (by omega)
    rwa [Nat.add_sub_cancel' h₁] at this
  · -- a short last block is not free as a whole, since no bit past the end is set
    rw [Bool.eq_false_iff]
    intro hall
    refine hwhole ⟨?_, hall⟩
    have := hlt _ (allSet_iff.mp hall (fpb - 1) (by omega))
    omega

theorem Cg.wholeBlock_some {cg : Cg} {fpb frag : Nat} (h : cg.wholeBlock fpb = some frag) :
    ∃ b, frag = b * fpb ∧ allSet cg.free (b * fpb) fpb = true := by
  have hmem := List.mem_of_find?_eq_some h
  have hset := List.find?_some h
  obtain ⟨b, -, rfl⟩ := List.mem_map.mp hmem
  exact ⟨b, rfl, hset⟩

/-- The block found lies in the group. -/
theorem Cg.wholeBlock_le {cg : Cg} {fpb frag : Nat} (h : cg.wholeBlock fpb = some frag) :
    frag + fpb ≤ cg.ndblk := by
  have hmem := List.mem_of_find?_eq_some h
  obtain ⟨b, hb, rfl⟩ := List.mem_map.mp hmem
  have h₁ := Nat.mul_le_mul_right fpb (Nat.succ_le_of_lt (List.mem_range.mp hb))
  have h₂ := Nat.div_mul_le_self cg.ndblk fpb
  rw [Nat.succ_mul] at h₁
  omega

/-! ## Reading and writing a group -/

/-- What an open image promises of the geometry and the slice; nothing of the counters. -/
structure Fs.Opened (fs : Fs) : Prop where
  valid : imageValidate fs.img = true
  inSlice : fs.img.sliceBase + fs.img.sliceSize ≤ fs.img.imageSize

theorem Fs.Opened.geometry {fs : Fs} (hs : fs.Opened) : Geometry fs.img.sb :=
  Image.geometry hs.valid

theorem Fs.Opened.of_img {fs fs' : Fs} (hs : fs.Opened) (himg : fs'.img = fs.img) : fs'.Opened :=
  ⟨by rw [himg]; exact hs.valid, by rw [himg]; exact hs.inSlice⟩

/-- A range within the filesystem lies in the image. -/
theorem Fs.Opened.inImage_of_le {fs : Fs} (hs : fs.Opened) {off size : Nat}
    (h : off + size ≤ fs.img.sb.fragCount * fs.img.sb.fragSize) : fs.inImage size off := by
  obtain ⟨-, -, hext⟩ := of_decide_eq_true hs.valid
  simp only [ExtentRejected, not_or, Nat.not_lt, gt_iff_lt] at hext
  have h₂ := hs.inSlice
  unfold Fs.inImage
  omega

/-- So does its entry in the summary table. -/
theorem Fs.Opened.summary_inImage {fs : Fs} (hs : fs.Opened) {c : Nat}
    (hcc : c < fs.img.sb.cgCount) : fs.inImage 16 (summaryOffset fs.img.sb c) := by
  refine hs.inImage_of_le (le_trans ?_ (Image.layout hs.valid).summary_le)
  have h := (Image.layout hs.valid).csumSize_ge
  unfold summaryOffset
  omega

section
variable {fs fs' : Fs} {c : Nat} {cg : Cg} {d : Csum} {u : PUnit} {e : Errno}

theorem readCg_ok : readCg c fs = .ok cg fs' ↔
    fs.inImage fs.img.sb.cgSize (cgBlockOffset fs.img.sb c) ∧ fs.cg c = cg ∧ fs = fs' := by
  simp only [readCg, bind_ok, get_ok, check_ok, pure_ok]
  constructor
  · rintro ⟨_, _, ⟨rfl, rfl⟩, _, _, ⟨hin, rfl⟩, rfl, rfl⟩
    exact ⟨hin, rfl, rfl⟩
  · rintro ⟨hin, rfl, rfl⟩
    exact ⟨_, _, ⟨rfl, rfl⟩, ⟨⟩, _, ⟨hin, rfl⟩, rfl, rfl⟩

theorem readCg_error : readCg c fs = .error e fs' ↔
    ¬ fs.inImage fs.img.sb.cgSize (cgBlockOffset fs.img.sb c) ∧ Errno.EINVAL = e ∧ fs = fs' := by
  simp only [readCg, bind_error, get_error, get_ok, check_error, pure_error, false_or, and_false,
    exists_false, or_false]
  constructor
  · rintro ⟨_, _, ⟨rfl, rfl⟩, h⟩
    exact h
  · exact fun h => ⟨_, _, ⟨rfl, rfl⟩, h⟩

theorem readCg_bind {α : Type} {f : Cg → FsM α} : (readCg c >>= f) fs =
    if fs.inImage fs.img.sb.cgSize (cgBlockOffset fs.img.sb c) then f (fs.cg c) fs
    else .error .EINVAL fs := by
  split
  · exact bind_of_ok (readCg_ok.mpr ⟨‹_›, rfl, rfl⟩)
  · exact bind_of_error (readCg_error.mpr ⟨‹_›, rfl, rfl⟩)

theorem writeCg_ok : writeCg c cg fs = .ok u fs' ↔ fs.img.writable = true ∧
    fs.inImage fs.img.sb.cgSize (cgBlockOffset fs.img.sb c) ∧
      { fs with cg := Function.update fs.cg c cg } = fs' := by
  simp only [writeCg, bind_ok, get_ok, check_ok, modify_ok]
  constructor
  · rintro ⟨_, _, ⟨rfl, rfl⟩, _, _, ⟨hw, rfl⟩, _, _, ⟨hin, rfl⟩, rfl⟩
    exact ⟨hw, hin, rfl⟩
  · rintro ⟨hw, hin, rfl⟩
    exact ⟨_, _, ⟨rfl, rfl⟩, ⟨⟩, _, ⟨hw, rfl⟩, ⟨⟩, _, ⟨hin, rfl⟩, rfl⟩

/-- A group is not written to an image that cannot be, nor where it could not be read. -/
theorem writeCg_error : writeCg c cg fs = .error e fs' ↔
    (¬ fs.img.writable = true ∧ Errno.EROFS = e ∨ fs.img.writable = true ∧
      ¬ fs.inImage fs.img.sb.cgSize (cgBlockOffset fs.img.sb c) ∧ Errno.EINVAL = e) ∧
    fs = fs' := by
  simp only [writeCg, bind_error, get_error, get_ok, check_error, check_ok, modify_error, false_or,
    and_false, exists_false, or_false]
  constructor
  · rintro ⟨_, _, ⟨rfl, rfl⟩, ⟨hw, he, rfl⟩ | ⟨_, _, ⟨hw, rfl⟩, hin, he, rfl⟩⟩
    · exact ⟨.inl ⟨hw, he⟩, rfl⟩
    · exact ⟨.inr ⟨hw, hin, he⟩, rfl⟩
  · rintro ⟨⟨hw, he⟩ | ⟨hw, hin, he⟩, rfl⟩
    · exact ⟨_, _, ⟨rfl, rfl⟩, .inl ⟨hw, he, rfl⟩⟩
    · exact ⟨_, _, ⟨rfl, rfl⟩, .inr ⟨⟨⟩, _, ⟨hw, rfl⟩, hin, he, rfl⟩⟩

theorem updateSummaryCounts_ok : updateSummaryCounts c d fs = .ok u fs' ↔
    fs.inImage 16 (summaryOffset fs.img.sb c) ∧
      { fs with totals := fs.totals.add d, csum := Function.update fs.csum c ((fs.csum c).add d) } =
        fs' := by
  simp only [updateSummaryCounts, bind_ok, get_ok, check_ok, modify_ok]
  constructor
  · rintro ⟨_, _, rfl, _, _, ⟨rfl, rfl⟩, _, _, ⟨hin, rfl⟩, rfl⟩
    exact ⟨hin, rfl⟩
  · rintro ⟨hin, rfl⟩
    exact ⟨⟨⟩, _, rfl, _, _, ⟨rfl, rfl⟩, ⟨⟩, _, ⟨hin, rfl⟩, rfl⟩

/-- A summary entry past the image is found missing when the totals are written already. -/
theorem updateSummaryCounts_error : updateSummaryCounts c d fs = .error e fs' ↔
    ¬ fs.inImage 16 (summaryOffset fs.img.sb c) ∧ Errno.EINVAL = e ∧
      { fs with totals := fs.totals.add d } = fs' := by
  simp only [updateSummaryCounts, bind_error, get_error, get_ok, check_error, check_ok, modify_ok,
    modify_error, false_or, and_false, exists_false, or_false]
  constructor
  · rintro ⟨_, _, rfl, _, _, ⟨rfl, rfl⟩, hin, he, rfl⟩
    exact ⟨hin, he, rfl⟩
  · rintro ⟨hin, he, rfl⟩
    exact ⟨⟨⟩, _, rfl, _, _, ⟨rfl, rfl⟩, hin, he, rfl⟩

/-- The two writes that end every call. -/
abbrev storeGroup (c : Nat) (cg : Cg) (d : Csum) : FsM PUnit := do
  writeCg c cg
  updateSummaryCounts c d

theorem storeGroup_ok (h : storeGroup c cg d fs = .ok u fs') : fs' = fs.withGroup c cg d := by
  simp only [bind_ok, writeCg_ok, updateSummaryCounts_ok] at h
  obtain ⟨_, _, ⟨-, -, rfl⟩, -, rfl⟩ := h
  rfl

/-- In a group there is, the writes fail with nothing changed; what else they fail with is no lack
of space. -/
theorem storeGroup_error (h : storeGroup c cg d fs = .error e fs') :
    e ≠ .ENOSPC ∧ (fs.Opened → c < fs.img.sb.cgCount → fs' = fs) := by
  simp only [bind_error, writeCg_error, writeCg_ok, updateSummaryCounts_error] at h
  obtain ⟨⟨-, rfl⟩ | ⟨-, -, rfl⟩, rfl⟩ | ⟨_, _, ⟨-, -, rfl⟩, hin, rfl, rfl⟩ := h
  · exact ⟨by decide, fun _ _ => rfl⟩
  · exact ⟨by decide, fun _ _ => rfl⟩
  · exact ⟨by decide, fun hs hcc => absurd (hs.summary_inImage hcc) hin⟩

end

/-! ## The four operations -/

theorem add_mul_div {fpg c i : Nat} (h : i < fpg) : (c * fpg + i) / fpg = c := by
  rw [Nat.mul_comm, Nat.mul_add_div (by omega), Nat.div_eq_of_lt h, Nat.add_zero]

theorem add_mul_mod {fpg c i : Nat} (h : i < fpg) : (c * fpg + i) % fpg = i := by
  rw [Nat.add_comm, Nat.add_mul_mod_self_right, Nat.mod_eq_of_lt h]

/-- What the search of `nextufs__allocate_frags_in_group` comes to: a run from `start`, the edited group
and the change of its counts. -/
structure Searched (fs : Fs) (c n start : Nat) (cg : Cg) (d : Csum) : Prop where
  length : n ≠ 0 ∧ n ≤ fs.img.sb.fragsPerBlock
  limit : (fs.cg c).ndblk ≤ fs.img.sb.fragsPerGroup ∧
    c * fs.img.sb.fragsPerGroup + (fs.cg c).ndblk ≤ fs.img.sb.fragCount
  found :
    (∃ base, (fs.cg c).partialRun fs.img.sb.fragsPerBlock n = some (base, start) ∧
      cg = (fs.cg c).takeFrags fs.img.sb.fragsPerBlock base start n ∧
      d = { nffree := -UInt32.ofNat n }) ∨
    ((fs.cg c).partialRun fs.img.sb.fragsPerBlock n = none ∧
      (fs.cg c).wholeBlock fs.img.sb.fragsPerBlock = some start ∧
      cg = (fs.cg c).splitBlock fs.img.sb start n ∧
      d = { nbfree := -1, nffree := UInt32.ofNat (fs.img.sb.fragsPerBlock - n) })

/-- The call fails with nothing changed, or goes on to its writes with what it found. -/
theorem allocateFragsInGroup_cases (fs : Fs) (c n : Nat) :
    (∃ e, allocateFragsInGroup c n fs = .error e fs) ∨
    ∃ start cg d, Searched fs c n start cg d ∧ allocateFragsInGroup c n fs =
      (do storeGroup c cg d; return c * fs.img.sb.fragsPerGroup + start : FsM Nat) fs := by
  unfold allocateFragsInGroup
  simp only [get_bind, check_bind, readCg_bind]
  split
  case isFalse => exact .inl ⟨_, rfl⟩
  case isTrue hn =>
  split
  case isFalse => exact .inl ⟨_, rfl⟩
  split
  case isFalse => exact .inl ⟨_, rfl⟩
  split
  case isFalse => exact .inl ⟨_, rfl⟩
  case isTrue hlimit =>
  cases hp : (fs.cg c).partialRun fs.img.sb.fragsPerBlock n with
  | some r =>
    exact .inr ⟨r.2, _, _, ⟨hn, ⟨hlimit.1, hlimit.2.1⟩, .inl ⟨r.1, hp, rfl, rfl⟩⟩, bind_bind.symm⟩
  | none =>
    simp only [check_bind]
    split
    case isFalse => exact .inl ⟨_, rfl⟩
    cases hw : (fs.cg c).wholeBlock fs.img.sb.fragsPerBlock with
    | none => exact .inl ⟨_, rfl⟩
    | some start =>
      exact .inr ⟨start, _, _, ⟨hn, ⟨hlimit.1, hlimit.2.1⟩, .inr ⟨hp, hw, rfl, rfl⟩⟩,
        bind_bind.symm⟩

/-- What a call that succeeds leaves. -/
theorem allocateFragsInGroup_eq {fs fs' : Fs} {c n p : Nat}
    (h : allocateFragsInGroup c n fs = .ok p fs') : ∃ start cg d, Searched fs c n start cg d ∧
      p = c * fs.img.sb.fragsPerGroup + start ∧ fs' = fs.withGroup c cg d := by
  rcases allocateFragsInGroup_cases fs c n with ⟨e, he⟩ | ⟨start, cg, d, hfound, heq⟩
  · rw [he] at h
    cases h
  · rw [heq] at h
    obtain ⟨_, _, hstore, hpure⟩ := bind_ok.mp h
    obtain ⟨rfl, rfl⟩ := pure_ok.mp hpure
    exact ⟨start, cg, d, hfound, rfl, storeGroup_ok hstore⟩

theorem allocateFragsInGroup_ok {fs fs' : Fs} (hg : Geometry fs.img.sb) (hc : fs.Consistent)
    {c n frag : Nat} (hcc : c < fs.img.sb.cgCount)
    (h : allocateFragsInGroup c n fs = .ok frag fs') : Took fs frag n fs' := by
  have hfpb : 0 < fs.img.sb.fragsPerBlock := by rcases hg.fpb_cases with h | h | h | h <;> omega
  have hcg := hc.group c hcc
  obtain ⟨start, cg, d, ⟨⟨hn0, hnle⟩, -, hfound⟩, rfl, rfl⟩ := allocateFragsInGroup_eq h
  have hn : 0 < n := Nat.pos_of_ne_zero hn0
  -- where the run lies in the group, for either search
  have hpos : ∀ {start b}, InBlock fs.img.sb.fragsPerBlock b start n →
      (∀ i, start ≤ i → i < start + n → (fs.cg c).free i = true) →
      (c * fs.img.sb.fragsPerGroup + start) / fs.img.sb.fragsPerGroup = c ∧
        (c * fs.img.sb.fragsPerGroup + start) % fs.img.sb.fragsPerGroup = start := by
    intro start b _ hset
    have h₁ := hcg.free_lt start (hset start le_rfl (by omega))
    have h₂ : start < fs.img.sb.fragsPerGroup := lt_of_lt_of_le h₁ hcg.ndblk_le
    exact ⟨add_mul_div h₂, add_mul_mod h₂⟩
  rcases hfound with ⟨base, hp, rfl, rfl⟩ | ⟨-, hw, rfl, rfl⟩
  · obtain ⟨b, rfl, hin, hset, hpart⟩ := Cg.partialRun_some hfpb hcg.free_lt hp
    obtain ⟨hdiv, hmod⟩ := hpos hin hset
    have htook := took_withGroup hg hc (c * fs.img.sb.fragsPerGroup + start) (n := n) (b := b)
      (by rwa [hdiv]) hn (by rwa [hmod]) (by rwa [hdiv, hmod])
      ((fs.cg c).takeFrags fs.img.sb.fragsPerBlock (b * fs.img.sb.fragsPerBlock) start n)
      (hcg.takeFrags hg hn hin hset hpart) (by rw [hdiv, hmod]; rfl) (by rw [hdiv]; rfl)
      (d := { nffree := -UInt32.ofNat n })
      (by rw [hdiv]; simp [Cg.takeFrags, Csum.add, UInt32.sub_eq_add_neg]) rfl rfl
    rwa [hdiv] at htook
  · obtain ⟨b, rfl, hfull⟩ := Cg.wholeBlock_some hw
    have hin : InBlock fs.img.sb.fragsPerBlock b (b * fs.img.sb.fragsPerBlock) n :=
      ⟨le_rfl, by omega⟩
    have hset : ∀ i, b * fs.img.sb.fragsPerBlock ≤ i → i < b * fs.img.sb.fragsPerBlock + n →
        (fs.cg c).free i = true := by
      intro i h₁ h₂
      have := allSet_iff.mp hfull (i - b * fs.img.sb.fragsPerBlock) (by omega)
      rwa [Nat.add_sub_cancel' h₁] at this
    obtain ⟨hdiv, hmod⟩ := hpos hin hset
    have hlt : b * fs.img.sb.fragsPerBlock < fs.img.sb.fragsPerGroup :=
      lt_of_lt_of_le (hcg.free_lt _ (hset _ le_rfl (by omega))) hcg.ndblk_le
    have htook := took_withGroup hg hc (c * fs.img.sb.fragsPerGroup +
        b * fs.img.sb.fragsPerBlock) (n := n) (b := b) (by rwa [hdiv]) hn (by rwa [hmod])
      (by rwa [hdiv, hmod])
      ((fs.cg c).splitBlock fs.img.sb (b * fs.img.sb.fragsPerBlock) n)
      (hcg.splitBlock hg hn hnle hfull)
      (by rw [hdiv, hmod, Cg.splitBlock, Cg.addBlock_eq hg _ hlt])
      (by rw [hdiv, Cg.splitBlock, Cg.addBlock_eq hg _ hlt])
      (d := { nbfree := -1, nffree := UInt32.ofNat (fs.img.sb.fragsPerBlock - n) })
      (by rw [hdiv, Cg.splitBlock, Cg.addBlock_eq hg _ hlt]
          simp [Csum.add, UInt32.sub_eq_add_neg]) rfl rfl
    rwa [hdiv] at htook

/-- A failed search leaves the filesystem as it was. -/
theorem allocateFragsInGroup_error {fs fs' : Fs} {c n : Nat} {e : Errno}
    (h : allocateFragsInGroup c n fs = .error e fs')
    (hwhy : e = .ENOSPC ∨ fs.Opened ∧ c < fs.img.sb.cgCount) : fs' = fs := by
  rcases allocateFragsInGroup_cases fs c n with ⟨e', he⟩ | ⟨start, cg, d, -, heq⟩
  · rw [he] at h
    cases h
    rfl
  · rw [heq] at h
    rcases bind_error.mp h with hstore | ⟨_, _, _, hpure⟩
    · obtain ⟨hne, hsame⟩ := storeGroup_error hstore
      rcases hwhy with rfl | ⟨hs, hcc⟩
      · exact absurd rfl hne
      · exact hsame hs hcc
    · exact (pure_error.mp hpure).elim

/-- A run found was found in one of the groups, the filesystem still as it was. -/
theorem anycgLoop_group {fs fs' : Fs} (hg : Geometry fs.img.sb) {pref n frag : Nat} :
    ∀ {k i}, anycgLoop pref n k i fs = .ok frag fs' →
      ∃ c < fs.img.sb.cgCount, allocateFragsInGroup c n fs = .ok frag fs'
  | 0, i, h => by simp [anycgLoop, throw_ok] at h
  | k + 1, i, h => by
      have hcc := Nat.mod_lt ((pref + i) % 4294967296) hg.cg_pos
      rw [anycgLoop] at h
      dsimp only at h
      split at h
      · rename_i fs₁ herr
        rw [allocateFragsInGroup_error herr (.inl rfl)] at h
        exact anycgLoop_group hg h
      · exact ⟨_, hcc, h⟩

theorem anycgLoop_ok {fs fs' : Fs} (hg : Geometry fs.img.sb) (hc : fs.Consistent)
    {pref n frag k i : Nat} (h : anycgLoop pref n k i fs = .ok frag fs') : Took fs frag n fs' := by
  obtain ⟨c, hcc, h⟩ := anycgLoop_group hg h
  exact allocateFragsInGroup_ok hg hc hcc h

theorem reserveAvailable_ok {fs fs' : Fs} {needed : Nat} {u : PUnit}
    (h : reserveAvailable needed fs = .ok u fs') : fs' = fs := by
  simp only [reserveAvailable, bind_ok, get_ok] at h
  obtain ⟨_, _, ⟨rfl, rfl⟩, h⟩ := h
  split at h
  · simp only [bind_ok, check_ok] at h
    obtain ⟨_, _, ⟨-, rfl⟩, -, rfl⟩ := h
    rfl
  · simp only [pure_ok] at h
    exact h.2.symm

theorem reserveAvailable_error {fs fs' : Fs} {needed : Nat} {e : Errno}
    (h : reserveAvailable needed fs = .error e fs') : fs' = fs := by
  simp only [reserveAvailable, bind_error, get_error, get_ok, false_or] at h
  obtain ⟨_, _, ⟨rfl, rfl⟩, h⟩ := h
  split at h
  · simp only [bind_error, check_error, check_ok] at h
    rcases h with ⟨-, -, rfl⟩ | ⟨_, _, ⟨-, rfl⟩, -, -, rfl⟩ <;> rfl
  · simp only [pure_error] at h

/-- `nextufs__allocate_frags_anycg` hands out a run that was free. -/
theorem allocateFragsAnycg_ok {fs fs' : Fs} (hg : Geometry fs.img.sb) (hc : fs.Consistent)
    {pref n frag : Nat} (h : allocateFragsAnycg pref n fs = .ok frag fs') :
    Took fs frag n fs' := by
  simp only [allocateFragsAnycg, bind_ok, get_ok] at h
  obtain ⟨_, _, hres, _, _, ⟨rfl, rfl⟩, h⟩ := h
  rw [reserveAvailable_ok hres] at h
  exact anycgLoop_ok hg hc h

/-- An allocation that fails in an open image changes nothing, nor does one for lack of space
anywhere. -/
theorem anycgLoop_error {fs fs' : Fs} {pref n : Nat} {e : Errno} (hwhy : e = .ENOSPC ∨ fs.Opened) :
    ∀ {k i : Nat}, anycgLoop pref n k i fs = .error e fs' → fs' = fs := by
  intro k
  induction k with
  | zero =>
    intro i h
    exact (throw_error.mp h).2.symm
  | succ k ih =>
    intro i h
    rw [anycgLoop] at h
    dsimp only at h
    split at h
    case h_1 fs₁ hgroup =>
      rw [allocateFragsInGroup_error hgroup (.inl rfl)] at h
      exact ih h
    case h_2 =>
      refine allocateFragsInGroup_error h (hwhy.imp_right fun hs => ⟨hs, ?_⟩)
      exact Nat.mod_lt _ hs.geometry.cg_pos

theorem allocateFragsAnycg_error {fs fs' : Fs} {pref n : Nat} {e : Errno} (hwhy : e = .ENOSPC ∨ fs.Opened)
    (h : allocateFragsAnycg pref n fs = .error e fs') : fs' = fs := by
  rcases bind_error.mp h with h | ⟨_, fs₁, hres, h⟩
  · exact reserveAvailable_error h
  · rw [reserveAvailable_ok hres] at h
    rcases bind_error.mp h with h | ⟨_, _, hget, h⟩
    · exact (get_error.mp h).elim
    · obtain ⟨-, rfl⟩ := get_ok.mp hget
      exact anycgLoop_error hwhy h

/-- What `nextufs__extend_fragment_run` has found when it writes. -/
structure Fs.ExtendTests (fs : Fs) (frag old new : Nat) : Prop where
  length : old < new ∧ new ≤ fs.img.sb.fragsPerBlock
  block : frag % fs.img.sb.fragsPerGroup % fs.img.sb.fragsPerBlock + new ≤ fs.img.sb.fragsPerBlock
  set : setRunBits (fs.cg (frag / fs.img.sb.fragsPerGroup)).free
    (frag % fs.img.sb.fragsPerGroup + old) (new - old) = true

/-- The group it writes. -/
def Fs.extendedGroup (fs : Fs) (frag old new : Nat) : Cg :=
  (fs.cg (frag / fs.img.sb.fragsPerGroup)).takeFrags fs.img.sb.fragsPerBlock
    (frag % fs.img.sb.fragsPerGroup - frag % fs.img.sb.fragsPerGroup % fs.img.sb.fragsPerBlock)
    (frag % fs.img.sb.fragsPerGroup + old) (new - old)

/-- The call fails with nothing changed, or goes on to its writes. -/
theorem extendFragmentRun_cases (fs : Fs) (frag old new : Nat) :
    (∃ e, extendFragmentRun frag old new fs = .error e fs) ∨
    fs.ExtendTests frag old new ∧ extendFragmentRun frag old new fs =
      storeGroup (frag / fs.img.sb.fragsPerGroup) (fs.extendedGroup frag old new)
        { nffree := -UInt32.ofNat (new - old) } fs := by
  unfold extendFragmentRun
  simp only [get_bind, check_bind]
  split
  case isFalse => exact .inl ⟨_, rfl⟩
  case isTrue hlen =>
  cases hres : reserveAvailable (new - old) fs with
  | error e fs' =>
    obtain rfl := reserveAvailable_error hres
    exact .inl ⟨e, bind_of_error hres⟩
  | ok u fs' =>
  obtain rfl := reserveAvailable_ok hres
  rw [bind_of_ok hres]
  simp only [check_bind, readCg_bind]
  split
  case isFalse => exact .inl ⟨_, rfl⟩
  case isTrue hblock =>
  split
  case isFalse => exact .inl ⟨_, rfl⟩
  split
  case isFalse => exact .inl ⟨_, rfl⟩
  split
  case isFalse => exact .inl ⟨_, rfl⟩
  case isTrue hset => exact .inr ⟨⟨hlen, hblock, hset⟩, rfl⟩

/-- What a call that succeeds leaves. -/
theorem extendFragmentRun_eq {fs fs' : Fs} {frag old new : Nat} {u : PUnit}
    (h : extendFragmentRun frag old new fs = .ok u fs') :
    fs.ExtendTests frag old new ∧ fs' = fs.withGroup (frag / fs.img.sb.fragsPerGroup)
      (fs.extendedGroup frag old new) { nffree := -UInt32.ofNat (new - old) } := by
  rcases extendFragmentRun_cases fs frag old new with ⟨e, he⟩ | ⟨htests, heq⟩
  · rw [he] at h
    cases h
  · rw [heq] at h
    exact ⟨htests, storeGroup_ok h⟩

/-- `nextufs__extend_fragment_run` takes the fragments behind a run. -/
theorem extendFragmentRun_ok {fs fs' : Fs} (hg : Geometry fs.img.sb) (hc : fs.Consistent)
    {frag old new : Nat} {u : PUnit} (hrun : fs.RunOk frag old) (hused : fs.Used frag old)
    (h : extendFragmentRun frag old new fs = .ok u fs') :
    Took fs (frag + old) (new - old) fs' ∧ fs.RunOk frag new := by
  obtain ⟨⟨⟨hlt, hle⟩, hblock, hset⟩, rfl⟩ := extendFragmentRun_eq h
  unfold Fs.extendedGroup
  obtain ⟨hpos, hcc, hend, -⟩ := hrun
  have hcg := hc.group _ hcc
  set c := frag / fs.img.sb.fragsPerGroup with hcdef
  set l := frag % fs.img.sb.fragsPerGroup with hldef
  have hset' : ∀ i, l + old ≤ i → i < l + old + (new - old) → (fs.cg c).free i = true := by
    intro i h₁ h₂
    have := allSet_iff.mp hset (i - (l + old)) (by omega)
    rwa [Nat.add_sub_cancel' h₁] at this
  have hnew : l + new ≤ (fs.cg c).ndblk := by
    have := hcg.free_lt (l + new - 1) (hset' _ (by omega) (by omega))
    omega
  have hnd := hcg.ndblk_le
  have hfrag : frag = c * fs.img.sb.fragsPerGroup + l := by
    rw [Nat.mul_comm, hcdef, hldef, Nat.div_add_mod]
  have hdiv : (frag + old) / fs.img.sb.fragsPerGroup = c := by
    rw [hfrag, Nat.add_assoc]
    exact add_mul_div (by omega)
  have hmod : (frag + old) % fs.img.sb.fragsPerGroup = l + old := by
    rw [hfrag, Nat.add_assoc]
    exact add_mul_mod (by omega)
  have hin : InBlock fs.img.sb.fragsPerBlock (l / fs.img.sb.fragsPerBlock) l new :=
    inBlock_of_mod hblock
  have hin' : InBlock fs.img.sb.fragsPerBlock (l / fs.img.sb.fragsPerBlock) (l + old)
      (new - old) := ⟨by have := hin.1; omega, by have := hin.2; omega⟩
  have hpart : allSet (fs.cg c).free (l / fs.img.sb.fragsPerBlock * fs.img.sb.fragsPerBlock)
      fs.img.sb.fragsPerBlock = false := by
    refine not_allSet hin.1 (by have := hin.2; omega) ?_
    have := hused frag le_rfl (by omega)
    rwa [Fs.isFree, ← hcdef, ← hldef] at this
  rw [sub_mod_eq]
  have htook := took_withGroup hg hc (frag + old) (n := new - old)
    (b := l / fs.img.sb.fragsPerBlock) (by rwa [hdiv]) (by omega) (by rwa [hmod])
    (by rwa [hdiv, hmod]) _ (hcg.takeFrags hg (by omega) hin' hset' hpart) (by rw [hdiv, hmod]; rfl)
    (by rw [hdiv]; rfl) (d := { nffree := -UInt32.ofNat (new - old) })
    (by rw [hdiv]; simp [Cg.takeFrags, Csum.add, UInt32.sub_eq_add_neg]) rfl rfl
  rw [hdiv] at htook
  exact ⟨htook, by omega, hcc, hnew, hblock⟩

/-- A failed extension leaves the filesystem as it was. -/
theorem extendFragmentRun_error {fs fs' : Fs} {frag old new : Nat} {e : Errno}
    (h : extendFragmentRun frag old new fs = .error e fs')
    (hwhy : e = .ENOSPC ∨ fs.Opened ∧ frag / fs.img.sb.fragsPerGroup < fs.img.sb.cgCount) :
    fs' = fs := by
  rcases extendFragmentRun_cases fs frag old new with ⟨e', he⟩ | ⟨-, heq⟩
  · rw [he] at h
    cases h
    rfl
  · rw [heq] at h
    obtain ⟨hne, hsame⟩ := storeGroup_error h
    rcases hwhy with rfl | ⟨hs, hcc⟩
    · exact absurd rfl hne
    · exact hsame hs hcc

/-- The tests `nextufs__free_fragment_run` makes before it writes. -/
structure Fs.FreeTests (fs : Fs) (frag n : Nat) : Prop where
  length : n ≠ 0 ∧ n ≤ fs.img.sb.fragsPerBlock
  inImage : fs.inImage fs.img.sb.cgSize (cgBlockOffset fs.img.sb (frag / fs.img.sb.fragsPerGroup))
  magic : (fs.cg (frag / fs.img.sb.fragsPerGroup)).magic = CG_MAGIC
  clear : ∀ i < n, (fs.cg (frag / fs.img.sb.fragsPerGroup)).free
    (frag % fs.img.sb.fragsPerGroup + i) = false

/-- The group `nextufs__free_fragment_run` writes. -/
def Fs.freedGroup (fs : Fs) (frag n : Nat) : Cg :=
  (fs.cg (frag / fs.img.sb.fragsPerGroup)).giveFrags fs.img.sb
    (frag % fs.img.sb.fragsPerGroup - frag % fs.img.sb.fragsPerGroup % fs.img.sb.fragsPerBlock)
    (frag % fs.img.sb.fragsPerGroup) n

/-- What it adds to the counts. -/
def Fs.freedDelta (fs : Fs) (frag n : Nat) : Csum :=
  (fs.cg (frag / fs.img.sb.fragsPerGroup)).giveDelta fs.img.sb
    (frag % fs.img.sb.fragsPerGroup - frag % fs.img.sb.fragsPerGroup % fs.img.sb.fragsPerBlock)
    (frag % fs.img.sb.fragsPerGroup) n

/-- The call fails with nothing changed where a test fails, and goes on to its writes otherwise. -/
theorem freeFragmentRun_cases (fs : Fs) (frag n : Nat) :
    (¬ fs.FreeTests frag n ∧ ∃ e, freeFragmentRun frag n fs = .error e fs) ∨
    (fs.FreeTests frag n ∧ freeFragmentRun frag n fs =
      storeGroup (frag / fs.img.sb.fragsPerGroup) (fs.freedGroup frag n)
        (fs.freedDelta frag n) fs) := by
  unfold freeFragmentRun
  simp only [get_bind, check_bind, readCg_bind]
  split
  case isFalse hn => exact .inl ⟨fun h => hn h.length, _, rfl⟩
  case isTrue hn =>
  split
  case isFalse hin => exact .inl ⟨fun h => hin h.inImage, _, rfl⟩
  case isTrue hin =>
  split
  case isFalse hm => exact .inl ⟨fun h => hm h.magic, _, rfl⟩
  case isTrue hm =>
  split
  case isFalse hclear => exact .inl ⟨fun h => hclear h.clear, _, rfl⟩
  case isTrue hclear => exact .inr ⟨⟨hn, hin, hm, hclear⟩, rfl⟩

/-- A failed call leaves the filesystem as it was, when the group is there. -/
theorem freeFragmentRun_error {fs fs' : Fs} {frag n : Nat} {e : Errno} (hs : fs.Opened)
    (hcc : frag / fs.img.sb.fragsPerGroup < fs.img.sb.cgCount)
    (h : freeFragmentRun frag n fs = .error e fs') : fs' = fs := by
  rcases freeFragmentRun_cases fs frag n with ⟨-, e', he⟩ | ⟨-, heq⟩
  · rw [he] at h
    cases h
    rfl
  · rw [heq] at h
    exact (storeGroup_error h).2 hs hcc

/-- What a call that succeeds leaves. -/
theorem freeFragmentRun_eq {fs fs' : Fs} {frag n : Nat} {u : PUnit}
    (h : freeFragmentRun frag n fs = .ok u fs') :
    fs.FreeTests frag n ∧ fs' = fs.withGroup (frag / fs.img.sb.fragsPerGroup)
      (fs.freedGroup frag n) (fs.freedDelta frag n) := by
  rcases freeFragmentRun_cases fs frag n with ⟨-, e, he⟩ | ⟨htests, heq⟩
  · rw [he] at h
    cases h
  · rw [heq] at h
    exact ⟨htests, storeGroup_ok h⟩

/-- `nextufs__free_fragment_run` gives a run back. -/
theorem freeFragmentRun_ok {fs fs' : Fs} (hg : Geometry fs.img.sb) (hc : fs.Consistent)
    {frag n : Nat} {u : PUnit} (hrun : fs.RunOk frag n)
    (h : freeFragmentRun frag n fs = .ok u fs') : Gave fs frag n fs' := by
  obtain ⟨⟨-, -, -, hclear⟩, rfl⟩ := freeFragmentRun_eq h
  unfold Fs.freedGroup Fs.freedDelta
  obtain ⟨hpos, hcc, hend, hblock⟩ := hrun
  have hcg := hc.group _ hcc
  have hnd := hcg.ndblk_le
  set c := frag / fs.img.sb.fragsPerGroup with hcdef
  set l := frag % fs.img.sb.fragsPerGroup with hldef
  have hin : InBlock fs.img.sb.fragsPerBlock (l / fs.img.sb.fragsPerBlock) l n :=
    inBlock_of_mod hblock
  have hclear' : ∀ i, l ≤ i → i < l + n → (fs.cg c).free i = false := by
    intro i h₁ h₂
    have := hclear (i - l) (by omega)
    rwa [Nat.add_sub_cancel' h₁] at this
  have hlast : l / fs.img.sb.fragsPerBlock * fs.img.sb.fragsPerBlock < fs.img.sb.fragsPerGroup :=
    by have := hin.1; omega
  rw [sub_mod_eq]
  have hcg' := hcg.giveFrags hg hpos hin hend hclear'
  have hfree : ((fs.cg c).giveFrags fs.img.sb
      (l / fs.img.sb.fragsPerBlock * fs.img.sb.fragsPerBlock) l n).free =
        setBlockBits (fs.cg c).free l n := by
    rw [Cg.giveFrags]
    split
    · rw [Cg.addBlock_eq hg _ hlast]
    · rfl
  have hndblk : ((fs.cg c).giveFrags fs.img.sb
      (l / fs.img.sb.fragsPerBlock * fs.img.sb.fragsPerBlock) l n).ndblk = (fs.cg c).ndblk := by
    rw [Cg.giveFrags]
    split
    · rw [Cg.addBlock_eq hg _ hlast]
    · rfl
  refine ⟨Fs.isFree_of_run (by omega) (fun i => by rw [← hcdef, ← hldef, hfree]; rfl),
    hc.updateGroup hg hcc hcg' ?_ ?_ ?_, Fs.sameFiles_withGroup hndblk _⟩
  all_goals rw [Cg.giveDelta]
  · rw [Cg.giveFrags]
    split
    · rw [Cg.addBlock_eq hg _ hlast]
      simp only [Csum.add, UInt32.add_zero, Csum.mk.injEq, true_and]
      grind
    · simp [Csum.add]
  · split <;> rfl
  · split <;> rfl

theorem readSlice_ok {fs fs' : Fs} {size off : Nat} {buf : ByteStore}
    (h : readSlice size off fs = .ok buf fs') :
    fs.inImage size off ∧ (buf = fun i => fs.bytes (off + i)) ∧ fs = fs' := by
  simp only [readSlice, bind_ok, get_ok, check_ok, pure_ok] at h
  obtain ⟨_, _, ⟨rfl, rfl⟩, _, _, ⟨hin, rfl⟩, rfl, rfl⟩ := h
  exact ⟨hin, rfl, rfl⟩

theorem writeSlice_ok {fs fs' : Fs} {buf : ByteStore} {size off : Nat} {u : PUnit}
    (h : writeSlice buf size off fs = .ok u fs') :
    fs' = { fs with bytes := patch fs.bytes off size buf } := by
  simp only [writeSlice, bind_ok, get_ok, check_ok, modify_ok] at h
  obtain ⟨_, _, ⟨rfl, rfl⟩, _, _, ⟨-, rfl⟩, _, _, ⟨-, rfl⟩, rfl⟩ := h
  rfl

/-! ## From the fragments in use -/

/-- The group `c` of an image with the given fragments in use, its counters at what the map says. -/
def cgUsing (sb : Superblock) (used : Nat → Bool) (c : Nat) : Cg :=
  let bare : Cg :=
    { magic := CG_MAGIC, ndblk := min sb.fragsPerGroup (sb.fragCount - c * sb.fragsPerGroup)
      cs := {}, rotor := 0, frsum := fun _ => 0, btot := fun _ => 0, bpos := fun _ _ => 0
      free := fun i => decide (i < min sb.fragsPerGroup (sb.fragCount - c * sb.fragsPerGroup)) &&
        !used (c * sb.fragsPerGroup + i) }
  let total := bare.total sb.fragsPerBlock
  { bare with
    cs :=
      { nbfree := .ofNat (total (blockFull sb.fragsPerBlock))
        nffree := .ofNat (total (blockFrags sb.fragsPerBlock)) }
    frsum := fun k => .ofNat (total (blockRuns sb.fragsPerBlock k))
    btot := fun cyl => .ofNat (total (blockFullAt sb.fragsPerBlock (inCyl sb cyl)))
    bpos := fun cyl rot => .ofNat (total (blockFullAt sb.fragsPerBlock (atRot sb cyl rot))) }

/-- The filesystem with the given fragments in use. -/
def fsUsing (img : Image) (used : Nat → Bool) (inode : Nat → Inode) (bytes : ByteStore) : Fs :=
  let sum word := ∑ c ∈ Finset.range img.sb.cgCount, UInt32.toNat (word (cgUsing img.sb used c).cs)
  { img := img, inode := inode, bytes := bytes
    totals := { nbfree := .ofNat (sum Csum.nbfree), nffree := .ofNat (sum Csum.nffree) }
    csum := fun c => (cgUsing img.sb used c).cs
    cg := cgUsing img.sb used }

theorem cgUsing_consistent {sb : Superblock} (hg : Geometry sb) (used : Nat → Bool) (c : Nat) :
    (cgUsing sb used c).Consistent sb := by
  have hnd : (cgUsing sb used c).ndblk ≤ sb.fragsPerGroup := Nat.min_le_left _ _
  have hfree : ∀ i, (cgUsing sb used c).free i = true → i < (cgUsing sb used c).ndblk :=
    fun i hi => of_decide_eq_true (Bool.and_eq_true_iff.mp hi).1
  have hfpg := hg.fpg_le
  have hfpb := hg.fpb_pos
  have hblocks := (cgUsing sb used c).blocks_le hfpb
  have hfpb8 : sb.fragsPerBlock ≤ 8 := by rcases hg.fpb_cases with h | h | h | h <;> omega
  have hbound : ∀ {stat : Nat → (Nat → Bool) → Nat} {k : Nat},
      (∀ b, stat b (cgUsing sb used c).free ≤ k) → k ≤ 8 →
      (cgUsing sb used c).total sb.fragsPerBlock stat ≤ 57664 * k := fun h hk =>
    ((cgUsing sb used c).total_le h).trans (Nat.mul_le_mul_right _ (by omega))
  have hfrags := Cg.total_frags_le sb.fragsPerBlock hfree
  have hword : ∀ {n : Nat}, n ≤ 57664 * 8 → (UInt32.ofNat n).toNat = n := fun h =>
    UInt32.toNat_ofNat_of_lt' (by unfold UInt32.size; omega)
  refine ⟨hnd, hfree, hword ?_, hword ?_, fun k _ _ => hword ?_, fun cyl _ => hword ?_,
    fun cyl _ rot _ => UInt16.toNat_ofNat_of_lt' ?_⟩
  · exact (hbound (blockFull_le sb.fragsPerBlock · _) (by omega)).trans (by omega)
  · exact hfrags.trans (by omega)
  · exact (hbound (blockRuns_le sb.fragsPerBlock k · _) hfpb8).trans (by omega)
  · exact (hbound (blockFullAt_le sb.fragsPerBlock (inCyl sb cyl) · _) (by omega)).trans (by omega)
  · exact (hbound (blockFullAt_le sb.fragsPerBlock (atRot sb cyl rot) · _) (by omega)).trans_lt
      (by decide)

theorem fsUsing_consistent {img : Image} (hg : Geometry img.sb) (used : Nat → Bool)
    (inode : Nat → Inode) (bytes : ByteStore) : (fsUsing img used inode bytes).Consistent := by
  have hgroup := cgUsing_consistent hg used
  have hlt := hg.groups_lt
  have hword : ∀ {word : Csum → UInt32}, (∀ c, (word (cgUsing img.sb used c).cs).toNat ≤
      img.sb.fragsPerGroup) → (UInt32.ofNat (∑ c ∈ Finset.range img.sb.cgCount,
        (word (cgUsing img.sb used c).cs).toNat)).toNat =
        ∑ c ∈ Finset.range img.sb.cgCount, (word (cgUsing img.sb used c).cs).toNat := fun h =>
    UInt32.toNat_ofNat_of_lt' (lt_of_le_of_lt (sum_le_mul fun c _ => h c) hlt)
  refine ⟨fun c _ => hgroup c, fun c _ => rfl, ?_, hword fun c => ((hgroup c).words_le hg).1, ?_,
    hword fun c => ((hgroup c).words_le hg).2⟩
  · exact (Finset.sum_eq_zero fun c _ => rfl).symm
  · exact (Finset.sum_eq_zero fun c _ => rfl).symm

/-- A fragment is free there just when it is not in use. -/
theorem fsUsing_isFree {img : Image} (hg : Geometry img.sb) (used : Nat → Bool)
    (inode : Nat → Inode) (bytes : ByteStore) {f : Nat} (hf : f < img.sb.fragCount) :
    (fsUsing img used inode bytes).isFree f = !used f := by
  have hmod := Nat.mod_lt f hg.fpg_pos
  have hdiv := Nat.div_add_mod' f img.sb.fragsPerGroup
  show (decide (f % img.sb.fragsPerGroup < min img.sb.fragsPerGroup
    (img.sb.fragCount - f / img.sb.fragsPerGroup * img.sb.fragsPerGroup)) &&
    !used (f / img.sb.fragsPerGroup * img.sb.fragsPerGroup + f % img.sb.fragsPerGroup)) = _
  rw [hdiv, decide_eq_true (lt_min hmod (by omega)), Bool.true_and]

/-! ## The smallest filesystem -/

/-- One group of 64 fragments of 1 KiB, eight to a block. -/
def oneGroup : Image where
  sb :=
    { sbOff := 8, cgOff := 16, inoOff := 24, dataOff := 32, cgDelta := 0,
      cgCycMask := 4294967295, fragCount := 64, dataFragCount := 32, cgCount := 1,
      blockSize := 8192, fragSize := 1024, fragsPerBlock := 8, minfree := 0,
      blockMask := 4294959104, fragMask := 4294966272, blockShift := 13, fragShiftCalc := 10,
      fragShift := 3, fsbtodb := 0, superSize := 2048, csumMask := 4294966784, csumShift := 9,
      nindir := 2048, sectorsPerFrag := 1, inodesPerBlock := 64, cylSummaryAddr := 32,
      csumSize := 1024, cgSize := 1024, sectorsPerTrack := 8, sectorsPerCyl := 64, ncyl := 1,
      cpg := 1, inodesPerGroup := 64, fragsPerGroup := 64, state := 1, fsMagic := UFS_FS_MAGIC }
  imageSize := 65536
  sliceBase := 0
  sliceSize := 65536
  writable := true
  unprivileged := false

theorem oneGroup_valid : imageValidate oneGroup = true := by decide +kernel

/-- The filesystem on it whose fragments from 45 on are free: three loose ones and two blocks. -/
def oneGroupFs : Fs where
  img := oneGroup
  totals := { nbfree := 2, nffree := 3 }
  csum := fun _ => { nbfree := 2, nffree := 3 }
  cg := fun _ =>
    { magic := CG_MAGIC, ndblk := 64, cs := { nbfree := 2, nffree := 3 }, rotor := 0
      frsum := fun k => if k = 3 then 1 else 0
      btot := fun cyl => if cyl = 0 then 2 else 0
      bpos := fun cyl rot => if cyl = 0 ∧ rot = 0 then 2 else 0
      free := fun i => decide (45 ≤ i) && decide (i < 64) }
  inode := fun _ =>
    { mode := 0, nlink := 0, uid := 0, gid := 0, size := 0, db := fun _ => 0, ib := fun _ => 0,
      flags := 0, blocks := 0, gen := 0 }
  bytes := fun _ => 0

theorem oneGroupFs_consistent : oneGroupFs.Consistent := by
  have hgroup : (oneGroupFs.cg 0).Consistent oneGroup.sb :=
    { ndblk_le := by decide
      free_lt := fun i hi => by
        simp only [oneGroupFs, Bool.and_eq_true, decide_eq_true_eq] at hi ⊢
        exact hi.2
      nbfree := by decide +kernel
      nffree := by decide +kernel
      frsum := by
        have h : ∀ k < 8, 0 < k → ((oneGroupFs.cg 0).frsum k).toNat =
            (oneGroupFs.cg 0).total 8 (blockRuns 8 k) := by decide +kernel
        exact fun k hk hk8 => h k hk8 hk
      btot := by decide +kernel
      bpos := by decide +kernel }
  refine ⟨fun c _ => hgroup, fun c _ => rfl, ?_, ?_, ?_, ?_⟩ <;> decide +kernel

end NextUfs.Core
