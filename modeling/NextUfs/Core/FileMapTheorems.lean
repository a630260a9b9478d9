/-
NextUfs.Core.FileMapTheorems — a file's block map as one function.

An inode's twelve direct pointers and three trees are seen as a map from
logical blocks to fragments (`fileBlock`) together with the fragments in
indirect blocks (`fileInner`); `fileOwn_eq` says that these two make up what
the file owns. `setInodeDataBlock_ok` changes the map in one place. The reader
follows the same map, and `inodeReadData_ok` gives the bytes it returns.
-/
import NextUfs.Core.BlockMapTheorems
import Mathlib.Data.List.GetD

namespace NextUfs.Core

open NextUfs.Lib NextUfs.Lib.ByteStore NextUfs.Lib.StateResult NextUfs.Lib.Extents

/-! ## Slots -/

theorem Superblock.slotBase_one (sb : Superblock) : sb.slotBase 1 = 12 + sb.entriesPerBlock := by
  simp [Superblock.slotBase]

theorem Superblock.slotBase_two (sb : Superblock) :
    sb.slotBase 2 = 12 + sb.entriesPerBlock + sb.entriesPerBlock ^ 2 := by
  simp [Superblock.slotBase]

theorem Superblock.slotBase_three (sb : Superblock) : sb.slotBase 3 =
    12 + sb.entriesPerBlock + sb.entriesPerBlock ^ 2 + sb.entriesPerBlock ^ 3 := by
  simp [Superblock.slotBase]

/-- The slots lie one behind the other. -/
theorem Superblock.slotBase_le (sb : Superblock) {s t : Nat} (h : s < t) :
    sb.slotBase s + sb.entriesPerBlock ^ (s + 1) ≤ sb.slotBase t := by
  induction t with
  | zero => exact absurd h (Nat.not_lt_zero s)
  | succ t ih =>
    rcases Nat.lt_succ_iff_lt_or_eq.mp h with h | rfl
    · exact (ih h).trans (Nat.le_add_right ..)
    · exact le_rfl

theorem Superblock.slotBase_ge (sb : Superblock) (s : Nat) : 12 ≤ sb.slotBase s := by
  induction s with
  | zero => exact le_rfl
  | succ s ih => exact ih.trans (Nat.le_add_right ..)

theorem Superblock.indirectSlot_some {sb : Superblock} {k s i : Nat} (hk : 12 ≤ k)
    (h : sb.indirectSlot k = some (s, i)) :
    s < 3 ∧ i < sb.entriesPerBlock ^ (s + 1) ∧ k = sb.slotBase s + i := by
  unfold Superblock.indirectSlot at h
  dsimp only at h
  split at h
  · obtain ⟨rfl, rfl⟩ := Prod.mk.inj (Option.some.inj h)
    refine ⟨by omega, by simpa using ‹_›, ?_⟩
    simp only [Superblock.slotBase]
    omega
  split at h
  · obtain ⟨rfl, rfl⟩ := Prod.mk.inj (Option.some.inj h)
    refine ⟨by omega, ‹_›, ?_⟩
    rw [sb.slotBase_one]
    omega
  split at h
  · obtain ⟨rfl, rfl⟩ := Prod.mk.inj (Option.some.inj h)
    refine ⟨by omega, ‹_›, ?_⟩
    rw [sb.slotBase_two]
    omega
  · exact absurd h (by simp)

theorem Superblock.indirectSlot_base {sb : Superblock} {s i : Nat} (hs : s < 3)
    (hi : i < sb.entriesPerBlock ^ (s + 1)) : sb.indirectSlot (sb.slotBase s + i) = some (s, i) := by
  unfold Superblock.indirectSlot
  dsimp only
  interval_cases s
  · rw [Nat.pow_one] at hi
    have hsub : sb.slotBase 0 + i - 12 = i := Nat.add_sub_cancel_left ..
    rw [hsub, if_pos hi]
  · rw [sb.slotBase_one, show 12 + sb.entriesPerBlock + i - 12 = sb.entriesPerBlock + i by omega,
      if_neg (by omega), Nat.add_sub_cancel_left, if_pos hi]
  · rw [sb.slotBase_two, show 12 + sb.entriesPerBlock + sb.entriesPerBlock ^ 2 + i - 12 =
      sb.entriesPerBlock + (sb.entriesPerBlock ^ 2 + i) by omega, if_neg (by omega),
      Nat.add_sub_cancel_left, if_neg (by omega), Nat.add_sub_cancel_left, if_pos hi]

/-- Every block past the direct ones lies in a slot, up to the end of the last. -/
theorem Superblock.exists_slot {sb : Superblock} {k : Nat} (hk : 12 ≤ k)
    (hlt : k < sb.slotBase 3) :
    ∃ s i, s < 3 ∧ i < sb.entriesPerBlock ^ (s + 1) ∧ k = sb.slotBase s + i := by
  have hs₂ : sb.slotBase 3 = sb.slotBase 2 + sb.entriesPerBlock ^ (2 + 1) := rfl
  have hs₁ : sb.slotBase 2 = sb.slotBase 1 + sb.entriesPerBlock ^ (1 + 1) := rfl
  by_cases h₂ : sb.slotBase 2 ≤ k
  · exact ⟨2, k - sb.slotBase 2, by omega, by omega, by omega⟩
  by_cases h₁ : sb.slotBase 1 ≤ k
  · exact ⟨1, k - sb.slotBase 1, by omega, by omega, by omega⟩
  · refine ⟨0, k - 12, by omega, ?_, (Nat.add_sub_cancel' hk).symm⟩
    rw [sb.slotBase_one] at h₁
    simp
    omega

/-- A block is in one slot only. -/
theorem Superblock.slot_unique {sb : Superblock} {s t i j : Nat}
    (hi : i < sb.entriesPerBlock ^ (s + 1)) (hj : j < sb.entriesPerBlock ^ (t + 1))
    (h : sb.slotBase s + i = sb.slotBase t + j) : s = t ∧ i = j := by
  rcases Nat.lt_trichotomy s t with hst | rfl | hst
  · have := sb.slotBase_le hst
    omega
  · exact ⟨rfl, by omega⟩
  · have := sb.slotBase_le hst
    omega

/-! ## The map -/

/-- The tree of an indirect slot. -/
def Superblock.slotTree (sb : Superblock) (b : ByteStore) (ino : Inode) (s : Nat) : BlockTree :=
  sb.tree b (s + 1) (ino.ib s)

/-- The first fragment of a logical block; 0 for a hole. -/
def Superblock.fileBlock (sb : Superblock) (b : ByteStore) (ino : Inode) (k : Nat) : Nat :=
  if k < 12 then ino.db k
  else ((sb.indirectSlot k).map fun p => sb.look (sb.slotTree b ino p.1) (p.1 + 1) p.2).getD 0

/-- The fragments in the file's indirect blocks. -/
def Superblock.fileInner (sb : Superblock) (b : ByteStore) (ino : Inode) : Multiset Nat :=
  ∑ s ∈ Finset.range 3, sb.inner (sb.slotTree b ino s)

/-- The fragments of the file, its direct block `k` having `len k` of them. -/
def Superblock.fileOwn (sb : Superblock) (b : ByteStore) (ino : Inode) (len : Nat → Nat) :
    Multiset Nat :=
  ∑ k ∈ Finset.range 12, extent (ino.db k) (len k) +
    ∑ s ∈ Finset.range 3, sb.own (sb.slotTree b ino s)

/-- The fragments of a block that is there. -/
def Superblock.lenAt (sb : Superblock) (len : Nat → Nat) (k : Nat) : Nat :=
  if k < 12 then len k else sb.fragsPerBlock

/-- The three trees are well formed, with nothing at or beyond block `keep`. -/
def Fs.SlotsGood (fs : Fs) (keep : Nat) (b : ByteStore) (ino : Inode) : Prop :=
  ∀ s < 3, fs.Good keep (fs.img.sb.slotTree b ino s) (s + 1) (fs.img.sb.slotBase s)

theorem Superblock.fileBlock_direct {sb : Superblock} {b : ByteStore} {ino : Inode} {k : Nat}
    (hk : k < 12) : sb.fileBlock b ino k = ino.db k := if_pos hk

theorem Superblock.fileBlock_slot {sb : Superblock} {b : ByteStore} {ino : Inode} {s i : Nat}
    (hs : s < 3) (hi : i < sb.entriesPerBlock ^ (s + 1)) :
    sb.fileBlock b ino (sb.slotBase s + i) = sb.look (sb.slotTree b ino s) (s + 1) i := by
  have hge := sb.slotBase_ge s
  rw [Superblock.fileBlock, if_neg (by omega), Superblock.indirectSlot_base hs hi]
  rfl

/-- There is nothing past the last slot. -/
theorem Superblock.fileBlock_of_ge {sb : Superblock} {b : ByteStore} {ino : Inode} {k : Nat}
    (hk : sb.slotBase 3 ≤ k) : sb.fileBlock b ino k = 0 := by
  have hge := sb.slotBase_ge 3
  rw [Superblock.fileBlock, if_neg (by omega)]
  cases hslot : sb.indirectSlot k with
  | none => rfl
  | some p =>
    obtain ⟨s, i⟩ := p
    obtain ⟨hs, hi, rfl⟩ := Superblock.indirectSlot_some (by omega) hslot
    have := sb.slotBase_le hs
    omega

/-- A file owns its indirect blocks and the blocks its map names. -/
theorem Fs.fileOwn_eq {fs : Fs} {keep : Nat} {b : ByteStore} {ino : Inode} (len : Nat → Nat)
    (hgood : fs.SlotsGood keep b ino) :
    fs.img.sb.fileOwn b ino len = fs.img.sb.fileInner b ino +
      ∑ k ∈ Finset.range (fs.img.sb.slotBase 3),
        extent (fs.img.sb.fileBlock b ino k) (fs.img.sb.lenAt len k) := by
  set f : Nat → Multiset Nat := fun k =>
    extent (fs.img.sb.fileBlock b ino k) (fs.img.sb.lenAt len k) with hf
  have hslot : ∀ s < 3, ∑ i ∈ Finset.range (fs.img.sb.entriesPerBlock ^ (s + 1)),
      f (fs.img.sb.slotBase s + i) = ∑ i ∈ Finset.range (fs.img.sb.entriesPerBlock ^ (s + 1)),
        extent (fs.img.sb.look (fs.img.sb.slotTree b ino s) (s + 1) i) fs.img.sb.fragsPerBlock := by
    intro s hs
    refine Finset.sum_congr rfl fun i hi => ?_
    have hge := fs.img.sb.slotBase_ge s
    simp only [hf, Superblock.lenAt]
    rw [Superblock.fileBlock_slot hs (Finset.mem_range.mp hi), if_neg (by omega)]
  have hsplit : ∀ t ≤ 3, ∑ k ∈ Finset.range (fs.img.sb.slotBase t), f k =
      ∑ k ∈ Finset.range 12, f k + ∑ s ∈ Finset.range t,
        ∑ i ∈ Finset.range (fs.img.sb.entriesPerBlock ^ (s + 1)),
          extent (fs.img.sb.look (fs.img.sb.slotTree b ino s) (s + 1) i)
            fs.img.sb.fragsPerBlock := by
    intro t
    induction t with
    | zero => intro _; simp [Superblock.slotBase]
    | succ t ih =>
      intro ht
      rw [Superblock.slotBase, Finset.sum_range_add, ih (by omega), hslot t (by omega),
        Finset.sum_range_succ _ t, add_assoc]
  have hdirect : ∑ k ∈ Finset.range 12, f k =
      ∑ k ∈ Finset.range 12, extent (ino.db k) (len k) := by
    refine Finset.sum_congr rfl fun k hk => ?_
    have hk' := Finset.mem_range.mp hk
    simp only [hf, Superblock.lenAt]
    rw [if_pos hk', Superblock.fileBlock_direct hk']
  have hown : ∀ s ∈ Finset.range 3, fs.img.sb.own (fs.img.sb.slotTree b ino s) =
      fs.img.sb.inner (fs.img.sb.slotTree b ino s) +
        ∑ i ∈ Finset.range (fs.img.sb.entriesPerBlock ^ (s + 1)),
          extent (fs.img.sb.look (fs.img.sb.slotTree b ino s) (s + 1) i)
            fs.img.sb.fragsPerBlock :=
    fun s hs => BlockTree.own_eq (hgood s (Finset.mem_range.mp hs))
  rw [hsplit 3 le_rfl, hdirect, Superblock.fileOwn, Finset.sum_congr rfl hown,
    Finset.sum_add_distrib, Superblock.fileInner]
  abel

/-- A block of the map is in place and lies below `keep`. -/
theorem Fs.SlotsGood.at_block {fs : Fs} {keep k : Nat} {b : ByteStore} {ino : Inode}
    (hgood : fs.SlotsGood keep b ino) (hk : 12 ≤ k) (hne : fs.img.sb.fileBlock b ino k ≠ 0) :
    fs.BlockOk (fs.img.sb.fileBlock b ino k) ∧ k < keep ∧ k < fs.img.sb.slotBase 3 := by
  cases hslot : fs.img.sb.indirectSlot k with
  | none =>
    rw [Superblock.fileBlock, if_neg (by omega), hslot] at hne
    exact absurd rfl hne
  | some p =>
    obtain ⟨s, i⟩ := p
    obtain ⟨hs, hi, rfl⟩ := Superblock.indirectSlot_some hk hslot
    rw [Superblock.fileBlock_slot hs hi] at hne ⊢
    obtain ⟨hok, hlt⟩ := (hgood s hs).at_look hi hne
    have hle := fs.img.sb.slotBase_le hs
    exact ⟨hok, hlt, by omega⟩

/-- The file's trees depend on its indirect blocks alone. -/
theorem slotTree_congr {sb : Superblock} (hg : Geometry sb) {b b' : ByteStore} {ino : Inode}
    (h : SameOn sb.fragSize (sb.fileInner b ino) b b') {s : Nat} (hs : s < 3) :
    sb.slotTree b' ino s = sb.slotTree b ino s :=
  BlockTree.load_congr hg.entries_le
    (h.mono (le_sum (fun s => sb.inner (sb.slotTree b ino s)) hs))

/-- So do its map and its indirect blocks. -/
theorem fileBlock_congr {sb : Superblock} (hg : Geometry sb) {b b' : ByteStore} {ino : Inode}
    (h : SameOn sb.fragSize (sb.fileInner b ino) b b') (k : Nat) :
    sb.fileBlock b' ino k = sb.fileBlock b ino k := by
  by_cases hk : k < 12
  · rw [Superblock.fileBlock_direct hk, Superblock.fileBlock_direct hk]
  · rw [Superblock.fileBlock, Superblock.fileBlock, if_neg hk, if_neg hk]
    cases hslot : sb.indirectSlot k with
    | none => rfl
    | some p =>
      obtain ⟨s, i⟩ := p
      have hs := (Superblock.indirectSlot_some (by omega) hslot).1
      simp only [Option.map_some, slotTree_congr hg h hs]

theorem fileInner_congr {sb : Superblock} (hg : Geometry sb) {b b' : ByteStore} {ino : Inode}
    (h : SameOn sb.fragSize (sb.fileInner b ino) b b') :
    sb.fileInner b' ino = sb.fileInner b ino :=
  Finset.sum_congr rfl fun s hs => by rw [slotTree_congr hg h (Finset.mem_range.mp hs)]

theorem fileOwn_congr {sb : Superblock} (hg : Geometry sb) {b b' : ByteStore} {ino : Inode}
    (h : SameOn sb.fragSize (sb.fileInner b ino) b b') (len : Nat → Nat) :
    sb.fileOwn b' ino len = sb.fileOwn b ino len := by
  have hslots : ∀ s ∈ Finset.range 3,
      sb.own (sb.slotTree b' ino s) = sb.own (sb.slotTree b ino s) :=
    fun s hs => by rw [slotTree_congr hg h (Finset.mem_range.mp hs)]
  rw [Superblock.fileOwn, Finset.sum_congr rfl hslots]
  rfl

theorem Fs.SlotsGood.congr {fs : Fs} {keep : Nat} {b b' : ByteStore} {ino : Inode}
    (hg : Geometry fs.img.sb) (hgood : fs.SlotsGood keep b ino)
    (h : SameOn fs.img.sb.fragSize (fs.img.sb.fileInner b ino) b b') :
    fs.SlotsGood keep b' ino := by
  intro s hs
  rw [slotTree_congr hg h hs]
  exact hgood s hs

/-! ## Well-formed files -/

/-- A file whose block tree is well formed: direct block `k` has `len k` fragments, the others
are whole, every block starts before `keep`, and what the file owns together with `others` is
what is in use. -/
structure FileTree (fs : Fs) (ino : Inode) (len : Nat → Nat) (keep : Nat)
    (others : Multiset Nat) : Prop where
  sound : fs.Sound
  direct : ∀ k < 12, ino.db k ≠ 0 → fs.RunOk (ino.db k) (len k) ∧ k < keep
  slots : fs.SlotsGood keep fs.bytes ino
  owned : fs.img.sb.fileOwn fs.bytes ino len + others = fs.used

/-- And its block count is that of the fragments it owns. -/
structure FileOk (fs : Fs) (ino : Inode) (len : Nat → Nat) (keep : Nat)
    (others : Multiset Nat) : Prop extends FileTree fs ino len keep others where
  blocks : ino.blocks.toNat =
    (fs.img.sb.fileOwn fs.bytes ino len).card * fs.img.sb.sectorsPerFrag

section
variable {fs : Fs} {ino : Inode} {len : Nat → Nat} {keep : Nat} {others : Multiset Nat}

theorem FileTree.geometry (h : FileTree fs ino len keep others) : Geometry fs.img.sb :=
  h.sound.geometry

theorem FileTree.own_le (h : FileTree fs ino len keep others) :
    fs.img.sb.fileOwn fs.bytes ino len ≤ fs.used := by
  rw [← h.owned]
  exact Multiset.le_add_right _ _

theorem FileTree.inner_le (h : FileTree fs ino len keep others) :
    fs.img.sb.fileInner fs.bytes ino ≤ fs.used := by
  refine le_trans ?_ h.own_le
  rw [Fs.fileOwn_eq len h.slots]
  exact Multiset.le_add_right _ _

/-- A block of the file is a run in place, and its index is in range. -/
theorem FileTree.run_at (h : FileTree fs ino len keep others) {k : Nat}
    (hne : fs.img.sb.fileBlock fs.bytes ino k ≠ 0) :
    fs.RunOk (fs.img.sb.fileBlock fs.bytes ino k) (fs.img.sb.lenAt len k) ∧ k < keep ∧
      k < fs.img.sb.slotBase 3 := by
  by_cases hk : k < 12
  · rw [Superblock.fileBlock_direct hk] at hne ⊢
    obtain ⟨hrun, hlt⟩ := h.direct k hk hne
    have hge := fs.img.sb.slotBase_ge 3
    rw [Superblock.lenAt, if_pos hk]
    exact ⟨hrun, hlt, by omega⟩
  · obtain ⟨hok, hlt, hlt'⟩ := h.slots.at_block (by omega) hne
    rw [Superblock.lenAt, if_neg hk]
    exact ⟨hok.2, hlt, hlt'⟩

/-- A block's run, the indirect blocks and the other owners are apart. -/
theorem FileTree.block_le (h : FileTree fs ino len keep others) (k : Nat) :
    extent (fs.img.sb.fileBlock fs.bytes ino k) (fs.img.sb.lenAt len k) +
      (fs.img.sb.fileInner fs.bytes ino + others) ≤ fs.used := by
  rw [← h.owned, Fs.fileOwn_eq len h.slots, ← add_assoc]
  refine add_le_add ?_ le_rfl
  by_cases hne : fs.img.sb.fileBlock fs.bytes ino k = 0
  · rw [hne, extent_null, zero_add]
    exact Multiset.le_add_right _ _
  · rw [add_comm]
    exact add_le_add le_rfl (le_sum (fun k => extent (fs.img.sb.fileBlock fs.bytes ino k)
      (fs.img.sb.lenAt len k)) (h.run_at hne).2.2)

/-- Two blocks' runs and the indirect blocks are apart. -/
theorem FileTree.blocks_le (h : FileTree fs ino len keep others) {j k : Nat} (hjk : j ≠ k) :
    extent (fs.img.sb.fileBlock fs.bytes ino j) (fs.img.sb.lenAt len j) +
      (extent (fs.img.sb.fileBlock fs.bytes ino k) (fs.img.sb.lenAt len k) +
        fs.img.sb.fileInner fs.bytes ino) ≤ fs.used := by
  by_cases hj : fs.img.sb.fileBlock fs.bytes ino j = 0
  · rw [hj, extent_null, zero_add]
    refine le_trans ?_ (h.block_le k)
    exact add_le_add le_rfl (Multiset.le_add_right _ _)
  by_cases hk : fs.img.sb.fileBlock fs.bytes ino k = 0
  · rw [hk, extent_null, zero_add]
    exact le_trans (add_le_add le_rfl (Multiset.le_add_right _ _)) (h.block_le j)
  refine le_trans ?_ h.own_le
  rw [Fs.fileOwn_eq len h.slots, ← add_assoc, add_comm]
  exact add_le_add le_rfl (add_le_sum (fun k => extent (fs.img.sb.fileBlock fs.bytes ino k)
    (fs.img.sb.lenAt len k)) (h.run_at hj).2.2 (h.run_at hk).2.2 hjk)

end

/-! ## Changing the map -/

/-- What a step in a file's map does: the map is then `f`, and `m` fragments of new indirect
blocks are all the storage it took. -/
structure MapStep (keep : Nat) (fs : Fs) (ino : Inode) (f : Nat → Nat) (m : Nat) (fs' : Fs)
    (ino' : Inode) : Prop where
  keeps : fs.Keeps fs'
  sound : fs'.Sound
  fields : ino' = { ino with db := ino'.db, ib := ino'.ib }
  used : ∃ M, M.card = m ∧ fs'.used = fs.used + M ∧
    fs.img.sb.fileInner fs'.bytes ino' = fs.img.sb.fileInner fs.bytes ino + M
  good : fs.SlotsGood keep fs'.bytes ino'
  map : ∀ k < fs.img.sb.slotBase 3, fs.img.sb.fileBlock fs'.bytes ino' k = f k
  frame : ∀ s, s + fs.img.sb.fileInner fs.bytes ino ≤ fs.used →
    SameOn fs.img.sb.fragSize s fs.bytes fs'.bytes

section
variable {keep : Nat} {fs : Fs} {ino : Inode}

theorem Fs.Keeps.slotsGood {fs' : Fs} (hk : fs.Keeps fs') {b : ByteStore}
    (h : fs.SlotsGood keep b ino) : fs'.SlotsGood keep b ino := by
  intro s hs
  rw [hk.img]
  exact hk.good (h s hs)

theorem MapStep.of_map {fs' : Fs} {ino' : Inode} {f g : Nat → Nat} {m : Nat}
    (h : MapStep keep fs ino f m fs' ino') (hfg : ∀ k < fs.img.sb.slotBase 3, f k = g k) :
    MapStep keep fs ino g m fs' ino' :=
  ⟨h.keeps, h.sound, h.fields, h.used, h.good, fun k hk => (h.map k hk).trans (hfg k hk), h.frame⟩

theorem MapStep.trans {fs₁ fs₂ : Fs} {ino₁ ino₂ : Inode} {f g : Nat → Nat} {m₁ m₂ : Nat}
    (h₁ : MapStep keep fs ino f m₁ fs₁ ino₁) (h₂ : MapStep keep fs₁ ino₁ g m₂ fs₂ ino₂) :
    MapStep keep fs ino g (m₁ + m₂) fs₂ ino₂ := by
  obtain ⟨hk₁, -, hi₁, ⟨M₁, hm₁, hused₁, hin₁⟩, -, -, hf₁⟩ := h₁
  obtain ⟨hk₂, hs₂, hi₂, ⟨M₂, hm₂, hused₂, hin₂⟩, hg₂, hl₂, hf₂⟩ := h₂
  rw [hk₁.img] at hin₂ hl₂ hf₂
  refine ⟨hk₁.trans hk₂, hs₂, ?_, ⟨M₁ + M₂, ?_, ?_, ?_⟩, hk₁.symm.slotsGood hg₂, hl₂,
    fun s hs => ?_⟩
  · rw [hi₂, hi₁]
  · rw [Multiset.card_add, hm₁, hm₂]
  · rw [hused₂, hused₁, add_assoc]
  · rw [hin₂, hin₁, add_assoc]
  · refine (hf₁ s hs).trans (hf₂ s ?_)
    rw [hin₁, hused₁, ← add_assoc]
    exact add_le_add hs le_rfl

/-- Another slot's indirect blocks are apart from this one's. -/
theorem slots_le {sb : Superblock} {b : ByteStore} {s t : Nat} (hs : s < 3) (ht : t < 3)
    (hne : t ≠ s) : sb.inner (sb.slotTree b ino t) + sb.inner (sb.slotTree b ino s) ≤
      sb.fileInner b ino :=
  add_le_sum (fun s => sb.inner (sb.slotTree b ino s)) ht hs hne

theorem slot_le {sb : Superblock} {b : ByteStore} {s : Nat} (hs : s < 3) :
    sb.inner (sb.slotTree b ino s) ≤ sb.fileInner b ino :=
  le_sum (fun s => sb.inner (sb.slotTree b ino s)) hs

/-- The map after one slot's tree changed. -/
theorem map_of_slot {sb : Superblock} {b b' : ByteStore} {ino' : Inode} {s : Nat} {f : Nat → Nat}
    (hs : s < 3) (hdb : ino'.db = ino.db)
    (hother : ∀ t < 3, t ≠ s → sb.slotTree b' ino' t = sb.slotTree b ino t)
    (hlook : ∀ i < sb.entriesPerBlock ^ (s + 1),
      sb.look (sb.slotTree b' ino' s) (s + 1) i = f (sb.slotBase s + i))
    (hf : ∀ k, (∀ i < sb.entriesPerBlock ^ (s + 1), k ≠ sb.slotBase s + i) →
      f k = sb.fileBlock b ino k) {k : Nat} (hk : k < sb.slotBase 3) :
    sb.fileBlock b' ino' k = f k := by
  have hge := sb.slotBase_ge s
  by_cases hd : k < 12
  · rw [hf k fun i _ => by omega, Superblock.fileBlock_direct hd, Superblock.fileBlock_direct hd,
      hdb]
  obtain ⟨t, i, ht, hi, rfl⟩ := sb.exists_slot (by omega) hk
  rw [Superblock.fileBlock_slot ht hi]
  by_cases hts : t = s
  · subst hts
    exact hlook i hi
  · rw [hf _ fun j hj h => hts (Superblock.slot_unique hi hj h).1, hother t ht hts,
      Superblock.fileBlock_slot ht hi]

/-- A step in one slot's tree is a step in the file's map. -/
theorem TreeStep.mapStep {s m : Nat} {f : Nat → Nat} {fs' : Fs} (hs : fs.Sound) (hs3 : s < 3)
    (hin : fs.img.sb.fileInner fs.bytes ino ≤ fs.used)
    (hgood : fs.SlotsGood keep fs.bytes ino)
    (hf : ∀ k, (∀ i < fs.img.sb.entriesPerBlock ^ (s + 1), k ≠ fs.img.sb.slotBase s + i) →
      f k = fs.img.sb.fileBlock fs.bytes ino k)
    (h : TreeStep keep fs (s + 1) (ino.ib s) (fs.img.sb.slotBase s)
      (fun i => f (fs.img.sb.slotBase s + i)) m fs') :
    MapStep keep fs ino f m fs' ino := by
  obtain ⟨M, hm, hused, hinner⟩ := h.used
  have hother : ∀ t < 3, t ≠ s →
      fs.img.sb.slotTree fs'.bytes ino t = fs.img.sb.slotTree fs.bytes ino t := by
    intro t ht hne
    exact BlockTree.load_congr hs.geometry.entries_le
      (h.frame _ ((slots_le hs3 ht hne).trans hin))
  have hsum := sum_update (f := fun s => fs.img.sb.inner (fs.img.sb.slotTree fs.bytes ino s))
    (g := fun s => fs.img.sb.inner (fs.img.sb.slotTree fs'.bytes ino s)) hs3
    fun t ht hne => congrArg _ (hother t ht hne)
  refine ⟨h.keeps, h.sound, rfl, ⟨M, hm, hused, ?_⟩, ?_, ?_, ?_⟩
  · have hinner' : fs.img.sb.inner (fs.img.sb.slotTree fs'.bytes ino s) =
        fs.img.sb.inner (fs.img.sb.slotTree fs.bytes ino s) + M := hinner
    rw [hinner'] at hsum
    refine add_right_cancel (hsum.trans ?_)
    rw [Superblock.fileInner]
    abel
  · intro t ht
    by_cases hts : t = s
    · subst hts
      exact h.good
    · rw [hother t ht hts]
      exact hgood t ht
  · exact fun k hk => map_of_slot hs3 rfl hother h.look hf hk
  · exact fun u hu => h.frame u ((add_le_add le_rfl (slot_le hs3)).trans hu)

/-- A slot without a tree gets an empty root. -/
theorem addRoot {s pref root : Nat} {fs₁ : Fs} (hs : fs.Sound) (hs3 : s < 3)
    (hin : fs.img.sb.fileInner fs.bytes ino ≤ fs.used) (hgood : fs.SlotsGood keep fs.bytes ino)
    (hkeep : fs.img.sb.slotBase s < keep) (hnull : ino.ib s = 0)
    (h : allocateZeroedFullBlock pref fs = .ok root fs₁) :
    root ≠ 0 ∧ MapStep keep fs ino (fs.img.sb.fileBlock fs.bytes ino) fs.img.sb.fragsPerBlock fs₁
      { ino with ib := Function.update ino.ib s root } := by
  obtain ⟨hk, hs₁, hroot, hused, hsame, htree⟩ := allocateZeroedFullBlock_ok hs h
  set ino' : Inode := { ino with ib := Function.update ino.ib s root } with hino'
  have hother : ∀ t < 3, t ≠ s →
      fs.img.sb.slotTree fs₁.bytes ino' t = fs.img.sb.slotTree fs.bytes ino t := by
    intro t ht hne
    have hib : ino'.ib t = ino.ib t := Function.update_of_ne hne ..
    rw [Superblock.slotTree, hib]
    exact BlockTree.load_congr hs.geometry.entries_le (hsame.mono ((slot_le ht).trans hin))
  have hold : fs.img.sb.slotTree fs.bytes ino s = .hole := by
    rw [Superblock.slotTree, hnull]
    exact BlockTree.load_null _
  have hnew : fs.img.sb.slotTree fs₁.bytes ino' s = .node root fun _ => .hole := by
    have hib : ino'.ib s = root := Function.update_self ..
    rw [Superblock.slotTree, hib]
    exact htree s
  have hsum := sum_update (f := fun s => fs.img.sb.inner (fs.img.sb.slotTree fs.bytes ino s))
    (g := fun s => fs.img.sb.inner (fs.img.sb.slotTree fs₁.bytes ino' s)) hs3
    fun t ht hne => congrArg _ (hother t ht hne)
  refine ⟨hroot.1, hk, hs₁, rfl, ⟨_, card_extent hroot.1, hused, ?_⟩, ?_, ?_, ?_⟩
  · simp only [hnew, hold] at hsum
    simpa [Superblock.inner, BlockTree.inner, Superblock.fileInner] using hsum
  · intro t ht
    by_cases hts : t = s
    · subst hts
      rw [hnew]
      exact ⟨by omega, hroot, hkeep, fun _ _ => trivial⟩
    · rw [hother t ht hts]
      exact hgood t ht
  · refine fun k hk' => map_of_slot (f := fs.img.sb.fileBlock fs.bytes ino) hs3
      (show ino'.db = ino.db from rfl) hother
      (fun i hi => ?_) (fun _ _ => rfl) hk'
    rw [Superblock.fileBlock_slot hs3 hi, hnew, hold]
    rfl
  · exact fun u hu => hsame.mono ((Multiset.le_add_right _ _).trans hu)

/-- Setting a block of a slot that has a tree. -/
theorem setSlot {s i d pref m : Nat} {fs' : Fs} (hs : fs.Sound) (hs3 : s < 3)
    (hin : fs.img.sb.fileInner fs.bytes ino ≤ fs.used) (hgood : fs.SlotsGood keep fs.bytes ino)
    (hi : i < fs.img.sb.entriesPerBlock ^ (s + 1)) (hd : fs.BlockOk d)
    (hkeep : fs.img.sb.slotBase s + i < keep) (hne : ino.ib s ≠ 0)
    (h : setIndirectDataBlock pref (s + 1) (ino.ib s) i d fs = .ok m fs') :
    MapStep keep fs ino (Function.update (fs.img.sb.fileBlock fs.bytes ino)
      (fs.img.sb.slotBase s + i) d) m fs' ino := by
  have hset : SetEntry keep fs (s + 1) (ino.ib s) (fs.img.sb.slotBase s) i d m fs' :=
    setIndirectDataBlock_ok hne hs ((slot_le hs3).trans hin) (hgood s hs3) hd hi hkeep h
  refine TreeStep.mapStep hs hs3 hin hgood (fun k hk => Function.update_of_ne (hk i hi) ..)
    (hset.of_look fun j hj => ?_)
  by_cases hji : j = i
  · subst hji
    rw [if_pos rfl, Function.update_self]
  · rw [if_neg hji, Function.update_of_ne (by omega), Superblock.fileBlock_slot hs3 hj]
    rfl

/-- `nextufs__set_inode_data_block` changes the map in one place. -/
theorem setInodeDataBlock_ok {k d pref m : Nat} {ino' : Inode} {fs' : Fs} (hs : fs.Sound)
    (hin : fs.img.sb.fileInner fs.bytes ino ≤ fs.used) (hgood : fs.SlotsGood keep fs.bytes ino)
    (hd : 12 ≤ k → fs.BlockOk d) (hkeep : k < keep)
    (h : setInodeDataBlock ino k d pref fs = .ok (ino', m) fs') :
    k < fs.img.sb.slotBase 3 ∧
      MapStep keep fs ino (Function.update (fs.img.sb.fileBlock fs.bytes ino) k d) m fs' ino' := by
  simp only [setInodeDataBlock, bind_ok, get_ok] at h
  obtain ⟨_, _, ⟨rfl, rfl⟩, h⟩ := h
  split at h
  case isTrue hk =>
    simp only [pure_ok, Prod.mk.injEq] at h
    obtain ⟨⟨rfl, rfl⟩, rfl⟩ := h
    have hge := fs.img.sb.slotBase_ge 3
    refine ⟨by omega, Fs.Keeps.refl fs, hs, rfl, ⟨0, rfl, (add_zero _).symm, (add_zero _).symm⟩,
      hgood, fun j hj => ?_, fun s _ => SameOn.refl _ _ _⟩
    by_cases hjk : j = k
    · subst hjk
      rw [Superblock.fileBlock_direct hk, Function.update_self]
      exact Function.update_self ..
    · rw [Function.update_of_ne hjk]
      by_cases hj12 : j < 12
      · rw [Superblock.fileBlock_direct hj12, Superblock.fileBlock_direct hj12]
        exact Function.update_of_ne hjk ..
      · rw [Superblock.fileBlock, Superblock.fileBlock, if_neg hj12, if_neg hj12]
        rfl
  case isFalse hk =>
    cases hslot : fs.img.sb.indirectSlot k with
    | none => simp [hslot, throw_ok] at h
    | some p =>
      obtain ⟨s, i⟩ := p
      obtain ⟨hs3, hi, rfl⟩ := Superblock.indirectSlot_some (by omega) hslot
      have hlt := fs.img.sb.slotBase_le hs3
      refine ⟨by omega, ?_⟩
      simp only [hslot] at h
      split at h
      case isTrue hnull =>
        simp only [bind_ok, pure_ok, Prod.mk.injEq] at h
        obtain ⟨root, fs₁, halloc, m', fs₂, hset, ⟨rfl, rfl⟩, rfl⟩ := h
        obtain ⟨hroot, hstep⟩ := addRoot hs hs3 hin hgood (by omega) hnull halloc
        have himg := hstep.keeps.img
        obtain ⟨M, -, hused, hinner⟩ := hstep.used
        set ino₁ : Inode := { ino with ib := Function.update ino.ib s root }
        have hib : ino₁.ib s = root := Function.update_self ..
        have hin₁ : fs₁.img.sb.fileInner fs₁.bytes ino₁ ≤ fs₁.used := by
          rw [himg, hinner, hused]
          exact add_le_add hin le_rfl
        rw [← hib] at hroot hset
        have hset' := setSlot hstep.sound hs3 hin₁ (hstep.keeps.slotsGood hstep.good)
          (by rwa [himg]) (hstep.keeps.blockOk (hd (by omega))) (by rwa [himg]) hroot hset
        refine (hstep.trans hset').of_map fun j hj => ?_
        rw [himg]
        by_cases hji : j = fs.img.sb.slotBase s + i
        · rw [hji, Function.update_self, Function.update_self]
        · rw [Function.update_of_ne hji, Function.update_of_ne hji, hstep.map j hj]
      case isFalse hnull =>
        simp only [bind_ok, pure_ok, Prod.mk.injEq] at h
        obtain ⟨m', fs₂, hset, ⟨rfl, rfl⟩, rfl⟩ := h
        exact setSlot hs hs3 hin hgood hi (hd (by omega)) hkeep hnull hset

end

/-! ## Following the map -/

/-- `nextufs__resolve_indirect_data_block` follows the tree. -/
theorem resolveIndirectDataBlock_ok : ∀ {l p i v : Nat} {fs fs' : Fs},
    resolveIndirectDataBlock l p i fs = .ok v fs' →
      v = fs.img.sb.look (fs.img.sb.tree fs.bytes l p) l i ∧ fs = fs'
  | 0, _, _, _, _, _, h => by simp [resolveIndirectDataBlock, throw_ok] at h
  | l + 1, p, i, v, fs, fs', h => by
      rw [resolveIndirectDataBlock] at h
      split at h
      case isTrue hp =>
        obtain ⟨rfl, rfl⟩ := pure_ok.mp h
        rw [hp, Superblock.tree, BlockTree.load_null]
        exact ⟨rfl, rfl⟩
      case isFalse hp =>
        rw [tree_succ hp, Superblock.look, BlockTree.look_node]
        split at h
        case isTrue hl =>
          subst hl
          obtain ⟨hi, rfl, rfl⟩ := readIndirectEntry_ok h
          rw [Nat.pow_zero, Nat.div_one, if_pos hi]
          exact ⟨(BlockTree.look_zero _ _).symm, rfl⟩
        case isFalse hl =>
          simp only [bind_ok, get_ok] at h
          obtain ⟨_, _, ⟨rfl, rfl⟩, next, _, hread, h⟩ := h
          obtain ⟨hi, rfl, rfl⟩ := readIndirectEntry_ok hread
          rw [if_pos hi]
          exact resolveIndirectDataBlock_ok h

/-- `nextufs__resolve_inode_data_block` follows the map. -/
theorem resolveInodeDataBlock_ok {ino : Inode} {k v : Nat} {fs fs' : Fs}
    (h : resolveInodeDataBlock ino k fs = .ok v fs') :
    v = fs.img.sb.fileBlock fs.bytes ino k ∧ fs = fs' := by
  simp only [resolveInodeDataBlock, bind_ok, get_ok] at h
  obtain ⟨_, _, ⟨rfl, rfl⟩, h⟩ := h
  split at h
  case isTrue hk =>
    obtain ⟨rfl, rfl⟩ := pure_ok.mp h
    exact ⟨(Superblock.fileBlock_direct hk).symm, rfl⟩
  case isFalse hk =>
    rw [Superblock.fileBlock, if_neg hk]
    cases hslot : fs.img.sb.indirectSlot k with
    | none => simp [hslot, throw_ok] at h
    | some p =>
      simp only [hslot] at h
      exact resolveIndirectDataBlock_ok h

/-- An entry of a block in range can be read. -/
theorem readIndirectEntry_eq {fs : Fs} (hs : fs.Opened) {p e : Nat} (hp : p ≠ 0)
    (hle : p + fs.img.sb.fragsPerBlock ≤ fs.img.sb.fragCount)
    (he : e < fs.img.sb.entriesPerBlock) :
    readIndirectEntry p e fs = .ok (be32 fs.bytes (p * fs.img.sb.fragSize + e * 4)) fs := by
  have hent := hs.geometry.entries_le
  simp only [readIndirectEntry, readSlice, bind_ok, get_ok, check_ok, pure_ok]
  refine ⟨_, _, ⟨rfl, rfl⟩, ⟨⟩, _, ⟨⟨he, hp, hle⟩, rfl⟩, _, _,
    ⟨_, _, ⟨rfl, rfl⟩, ⟨⟩, _, ⟨hs.inImage hle (by omega), rfl⟩, rfl, rfl⟩, ?_, rfl⟩
  exact be32_congr fun i _ => by rw [Nat.zero_add]; rfl

theorem readEntryChecked_eq {fs : Fs} (hs : fs.Sound) {p e : Nat} (hp : fs.BlockOk p)
    (he : e < fs.img.sb.entriesPerBlock) :
    readEntryChecked p e fs = .ok (be32 fs.bytes (p * fs.img.sb.fragSize + e * 4)) fs := by
  rw [readEntryChecked, readIndirectEntry_eq hs.opened hp.1 (hs.block_le hp) he]

theorem Fs.Good.root_ok {keep l p base : Nat} {fs : Fs} (hp : p ≠ 0)
    (hg : fs.Good keep (fs.img.sb.tree fs.bytes (l + 1) p) (l + 1) base) : fs.BlockOk p := by
  rw [tree_succ hp] at hg
  exact hg.2.1

/-- `resolve_indirect_block_frag` succeeds on a well-formed tree. -/
theorem resolveIndirectBlockFrag_eq {keep : Nat} {fs : Fs} (hs : fs.Sound) :
    ∀ {l p base i : Nat}, fs.Good keep (fs.img.sb.tree fs.bytes (l + 1) p) (l + 1) base →
      i < fs.img.sb.entriesPerBlock ^ (l + 1) →
      resolveIndirectBlockFrag (l + 1) p i fs =
        .ok (fs.img.sb.look (fs.img.sb.tree fs.bytes (l + 1) p) (l + 1) i) fs := by
  intro l
  induction l with
  | zero =>
    intro p base i hg hi
    rw [resolveIndirectBlockFrag]
    split
    case isTrue hp => rw [hp, Superblock.tree, BlockTree.load_null]; rfl
    case isFalse hp =>
      obtain ⟨he, -⟩ := BlockTree.kid_lt hi
      have hok := Fs.Good.root_ok hp hg
      refine bind_ok.mpr ⟨fs, fs, rfl, bind_ok.mpr ⟨_, fs, readEntryChecked_eq hs hok he, ?_⟩⟩
      rw [if_pos rfl, tree_succ hp, Superblock.look, BlockTree.look_node, if_pos he,
        Superblock.tree, BlockTree.look_zero]
      rfl
  | succ l ih =>
    intro p base i hg hi
    rw [resolveIndirectBlockFrag]
    split
    case isTrue hp => rw [hp, Superblock.tree, BlockTree.load_null]; rfl
    case isFalse hp =>
      obtain ⟨he, hr⟩ := BlockTree.kid_lt hi
      have hok := Fs.Good.root_ok hp hg
      refine bind_ok.mpr ⟨fs, fs, rfl, bind_ok.mpr ⟨_, fs, readEntryChecked_eq hs hok he, ?_⟩⟩
      rw [if_neg (Nat.succ_ne_zero l), tree_succ hp, Superblock.look, BlockTree.look_node,
        if_pos he]
      split
      case isTrue hnull => rw [hnull, Superblock.tree, BlockTree.load_null]; rfl
      case isFalse hnull => exact ih (kid_good hp hg he) hr

/-- `resolve_file_block_frag` succeeds on a well-formed file. -/
theorem resolveFileBlockFrag_eq {keep k : Nat} {fs : Fs} {ino : Inode} (hs : fs.Sound)
    (hgood : fs.SlotsGood keep fs.bytes ino) (hk : k < fs.img.sb.slotBase 3) :
    resolveFileBlockFrag ino k fs = .ok (fs.img.sb.fileBlock fs.bytes ino k) fs := by
  refine bind_ok.mpr ⟨fs, fs, rfl, ?_⟩
  split
  case isTrue hd => rw [Superblock.fileBlock_direct hd]; rfl
  case isFalse hd =>
    obtain ⟨s, i, hs3, hi, rfl⟩ := fs.img.sb.exists_slot (by omega) hk
    simp only [Superblock.indirectSlot_base hs3 hi, Superblock.fileBlock_slot hs3 hi]
    exact resolveIndirectBlockFrag_eq hs (hgood s hs3) hi

/-- The byte of the file at a position below its size. -/
def Superblock.fileByte (sb : Superblock) (b : ByteStore) (ino : Inode) (q : Nat) : UInt8 :=
  if sb.fileBlock b ino (q / sb.blockSize) = 0 then 0
  else b (sb.fileBlock b ino (q / sb.blockSize) * sb.fragSize + q % sb.blockSize)

/-- `n` bytes of the file from `start`. -/
def Superblock.fileBytes (sb : Superblock) (b : ByteStore) (ino : Inode) (start n : Nat) :
    List UInt8 :=
  (List.range n).map fun j => sb.fileByte b ino (start + j)

theorem Superblock.fileBytes_add (sb : Superblock) (b : ByteStore) (ino : Inode)
    (start m n : Nat) : sb.fileBytes b ino start (m + n) =
      sb.fileBytes b ino start m ++ sb.fileBytes b ino (start + m) n := by
  simp [Superblock.fileBytes, List.range_add, Nat.add_assoc]

/-- The content of a file. -/
def Superblock.content (sb : Superblock) (b : ByteStore) (ino : Inode) : List UInt8 :=
  sb.fileBytes b ino 0 ino.size

@[simp] theorem Superblock.length_content (sb : Superblock) (b : ByteStore) (ino : Inode) :
    (sb.content b ino).length = ino.size := by
  simp [Superblock.content, Superblock.fileBytes]

/-- The content at a position, zero past its end. -/
theorem Superblock.getD_content (sb : Superblock) (b : ByteStore) (ino : Inode) (q : Nat) :
    (sb.content b ino).getD q 0 = if q < ino.size then sb.fileByte b ino q else 0 := by
  unfold Superblock.content Superblock.fileBytes
  split
  case isTrue hlt => rw [List.getD_eq_getElem _ _ (by simpa using hlt)]; simp
  case isFalse hge => exact List.getD_eq_default _ _ (by simpa using hge)

/-- The bytes of one block, a hole. -/
theorem Superblock.fileBytes_hole (sb : Superblock) {b : ByteStore} {ino : Inode}
    {k q off n : Nat}
    (hk : ∀ j < n, (q + j) / sb.blockSize = k ∧ (q + j) % sb.blockSize = off + j)
    (h : sb.fileBlock b ino k = 0) : sb.fileBytes b ino q n = List.replicate n 0 := by
  refine List.ext_getElem (by simp [Superblock.fileBytes]) fun j h₁ _ => ?_
  have hj : j < n := by simpa [Superblock.fileBytes] using h₁
  simp [Superblock.fileBytes, Superblock.fileByte, (hk j hj).1, h]

/-- The bytes of one block that is there. -/
theorem Superblock.fileBytes_block (sb : Superblock) {b : ByteStore} {ino : Inode}
    {k q off n : Nat}
    (hk : ∀ j < n, (q + j) / sb.blockSize = k ∧ (q + j) % sb.blockSize = off + j)
    (h : sb.fileBlock b ino k ≠ 0) : sb.fileBytes b ino q n =
      slice (fun i => b (sb.fileBlock b ino k * sb.fragSize + off + i)) 0 n := by
  refine List.ext_getElem (by simp [Superblock.fileBytes]) fun j h₁ _ => ?_
  have hj : j < n := by simpa [Superblock.fileBytes] using h₁
  simp [Superblock.fileBytes, Superblock.fileByte, slice, (hk j hj).1, (hk j hj).2, h,
    Nat.add_assoc]

/-- Every byte the range of positions holds lies within the filesystem. -/
def Fs.InReach (fs : Fs) (ino : Inode) (endpos : Nat) : Prop :=
  ∀ k x, fs.img.sb.fileBlock fs.bytes ino k ≠ 0 → x < fs.img.sb.blockSize →
    k * fs.img.sb.blockSize + x < endpos →
      fs.img.sb.fileBlock fs.bytes ino k * fs.img.sb.fragSize + x <
        fs.img.sb.fragCount * fs.img.sb.fragSize

/-- The loop of the reader. -/
theorem readChunks_eq {keep endpos : Nat} {fs : Fs} {ino : Inode} (hs : fs.Sound)
    (hgood : fs.SlotsGood keep fs.bytes ino)
    (hend : endpos ≤ fs.img.sb.slotBase 3 * fs.img.sb.blockSize)
    (hreach : fs.InReach ino endpos) : ∀ {fuel k off n : Nat}, n ≤ fuel →
      off < fs.img.sb.blockSize → k * fs.img.sb.blockSize + off + n ≤ endpos →
      readChunks ino fuel k off n fs =
        .ok (fs.img.sb.fileBytes fs.bytes ino (k * fs.img.sb.blockSize + off) n) fs := by
  intro fuel
  induction fuel with
  | zero =>
    intro k off n hn _ _
    obtain rfl : n = 0 := by omega
    rfl
  | succ fuel ih =>
    intro k off n hn hoff hle
    rw [readChunks]
    split
    case isTrue hn0 => rw [hn0]; rfl
    case isFalse hn0 =>
    set bs := fs.img.sb.blockSize with hbs
    set chunk := min (bs - off) n with hchunk
    have hpos : 0 < chunk := by omega
    have hk : k < fs.img.sb.slotBase 3 := by
      by_contra hc
      have := Nat.mul_le_mul_right bs (Nat.le_of_not_lt hc)
      omega
    have hdiv : ∀ j < chunk, (k * bs + off + j) / bs = k ∧ (k * bs + off + j) % bs = off + j := by
      intro j hj
      rw [Nat.add_assoc]
      have hlt : off + j < bs := by omega
      exact ⟨add_mul_div hlt, add_mul_mod hlt⟩
    have hrest : readChunks ino fuel (k + 1) 0 (n - chunk) fs =
        .ok (fs.img.sb.fileBytes fs.bytes ino (k * bs + off + chunk) (n - chunk)) fs := by
      by_cases hlast : n - chunk = 0
      · rw [hlast, readChunks.eq_def]
        cases fuel <;> simp [Superblock.fileBytes] <;> rfl
      · have hnext : (k + 1) * bs = k * bs + off + chunk := by
          rw [Nat.succ_mul]
          omega
        have := @ih (k + 1) 0 (n - chunk) (by omega) (by omega) (by omega)
        rw [this, Nat.add_zero, hnext]
    have hsplit := fs.img.sb.fileBytes_add fs.bytes ino (k * bs + off) chunk (n - chunk)
    rw [show chunk + (n - chunk) = n by omega] at hsplit
    refine bind_ok.mpr ⟨fs, fs, rfl, bind_ok.mpr ⟨_, fs, resolveFileBlockFrag_eq hs hgood hk, ?_⟩⟩
    split
    case isTrue hhole =>
      refine bind_ok.mpr ⟨_, fs, hrest, ?_⟩
      rw [hsplit, fs.img.sb.fileBytes_hole hdiv hhole]
      rfl
    case isFalse hblock =>
      have hin : fs.img.sb.fileBlock fs.bytes ino k * fs.img.sb.fragSize + off + chunk ≤
          fs.img.sb.fragCount * fs.img.sb.fragSize := by
        have := hreach k (off + chunk - 1) hblock (by omega)
          (show k * bs + (off + chunk - 1) < endpos by omega)
        omega
      have hread : readSlice chunk (fs.fragOffset (fs.img.sb.fileBlock fs.bytes ino k) + off) fs =
          .ok (fun i => fs.bytes
            (fs.fragOffset (fs.img.sb.fileBlock fs.bytes ino k) + off + i)) fs := by
        simp only [readSlice, bind_ok, get_ok, check_ok, pure_ok]
        exact ⟨_, _, ⟨rfl, rfl⟩, ⟨⟩, _, ⟨hs.inImage_of_le hin, rfl⟩, rfl, rfl⟩
      refine bind_ok.mpr ⟨⟨⟩, fs, check_ok.mpr ⟨hin, rfl⟩, bind_ok.mpr ⟨_, fs, hread,
        bind_ok.mpr ⟨_, fs, hrest, ?_⟩⟩⟩
      rw [hsplit, fs.img.sb.fileBytes_block hdiv hblock]
      rfl

/-- `nextufs_inode_read_data` returns the file's bytes. -/
theorem inodeReadData_eq {keep : Nat} {fs : Fs} {ino : Inode} (hs : fs.Sound)
    (hgood : fs.SlotsGood keep fs.bytes ino)
    (hend : ino.size ≤ fs.img.sb.slotBase 3 * fs.img.sb.blockSize)
    (hreach : fs.InReach ino ino.size) (start bufSize : Nat) :
    inodeReadData ino start bufSize fs =
      .ok (fs.img.sb.fileBytes fs.bytes ino start (min (ino.size - start) bufSize)) fs := by
  have hbs := hs.geometry.blockSize_ge
  refine bind_ok.mpr ⟨fs, fs, rfl, bind_ok.mpr ⟨⟨⟩, fs, check_ok.mpr ⟨hs.valid, rfl⟩, ?_⟩⟩
  split
  case isTrue hge =>
    rw [Nat.sub_eq_zero_of_le hge, Nat.zero_min]
    rfl
  case isFalse hlt =>
    have hpos := Nat.div_add_mod' start fs.img.sb.blockSize
    have hread := readChunks_eq hs hgood hend hreach
      (le_refl (min (ino.size - start) bufSize))
      (Nat.mod_lt start (show 0 < fs.img.sb.blockSize by omega))
      (show start / fs.img.sb.blockSize * fs.img.sb.blockSize + start % fs.img.sb.blockSize +
        min (ino.size - start) bufSize ≤ ino.size by rw [hpos]; omega)
    rwa [hpos] at hread

end NextUfs.Core
