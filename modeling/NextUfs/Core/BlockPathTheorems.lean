/-
NextUfs.Core.BlockPathTheorems — `nextufs__set_inode_data_block` as the two
lookups see it.

Nothing is asked of the counters, of the data pointers or of the pointer
stored, only that the image is open and that no fragment of the file's
indirect blocks is out of range, free or in two of them. `TreeChange` is what
a call does to one tree, `MapChange` to the file; `block_map_lookups` turns
the latter into results of the lookup, and says that the reader's own lookup
agrees with it on every filesystem, damaged or not.
-/
import NextUfs.Core.FileMapTheorems

namespace NextUfs.Core

open NextUfs.Lib NextUfs.Lib.ByteStore NextUfs.Lib.StateResult NextUfs.Lib.Extents

/-! ## One tree -/

/-- The indirect blocks on the way to an index. -/
def Superblock.spine (sb : Superblock) (t : BlockTree) (l i : Nat) : List Nat :=
  t.spine sb.entriesPerBlock l i

/-- What a change in the tree at `p` does: the indices map as `f` says, `m` fragments of new
indirect blocks are all the storage it took, and they are on the way to what was a hole. -/
structure TreeChange (fs : Fs) (l p : Nat) (f : Nat → Nat) (m : Nat) (fs' : Fs) : Prop where
  keeps : fs.Keeps fs'
  used : ∃ M, M.card = m ∧ fs'.used = fs.used + M ∧
    fs.img.sb.inner (fs.img.sb.tree fs'.bytes l p) =
      fs.img.sb.inner (fs.img.sb.tree fs.bytes l p) + M
  look : ∀ k < fs.img.sb.entriesPerBlock ^ l,
    fs.img.sb.look (fs.img.sb.tree fs'.bytes l p) l k = f k
  spine : ∀ k < fs.img.sb.entriesPerBlock ^ l,
    fs.img.sb.spine (fs.img.sb.tree fs'.bytes l p) l k =
      fs.img.sb.spine (fs.img.sb.tree fs.bytes l p) l k ∨
    fs.img.sb.look (fs.img.sb.tree fs.bytes l p) l k = 0
  frame : ∀ s, s + fs.img.sb.inner (fs.img.sb.tree fs.bytes l p) ≤ fs.used →
    SameOn fs.img.sb.fragSize s fs.bytes fs'.bytes

/-- Index `i` maps to `d`, the others as before. -/
def PutEntry (fs : Fs) (l p i d m : Nat) (fs' : Fs) : Prop :=
  TreeChange fs l p
    (fun k => if k = i then d else fs.img.sb.look (fs.img.sb.tree fs.bytes l p) l k) m fs'

section
variable {fs : Fs}

theorem TreeChange.of_look {fs' : Fs} {l p m : Nat} {f g : Nat → Nat}
    (h : TreeChange fs l p f m fs') (hfg : ∀ k < fs.img.sb.entriesPerBlock ^ l, f k = g k) :
    TreeChange fs l p g m fs' :=
  ⟨h.keeps, h.used, fun k hk => (h.look k hk).trans (hfg k hk), h.spine, h.frame⟩

/-- A change that leaves the map as it is, and another. -/
theorem TreeChange.trans {fs₁ fs₂ : Fs} {l p m₁ m₂ : Nat} {g : Nat → Nat}
    (h₁ : TreeChange fs l p (fs.img.sb.look (fs.img.sb.tree fs.bytes l p) l) m₁ fs₁)
    (h₂ : TreeChange fs₁ l p g m₂ fs₂) : TreeChange fs l p g (m₁ + m₂) fs₂ := by
  obtain ⟨hk₁, ⟨M₁, hm₁, hused₁, hin₁⟩, hl₁, hp₁, hf₁⟩ := h₁
  obtain ⟨hk₂, ⟨M₂, hm₂, hused₂, hin₂⟩, hl₂, hp₂, hf₂⟩ := h₂
  rw [hk₁.img] at hin₂ hl₂ hp₂ hf₂
  refine ⟨hk₁.trans hk₂, ⟨M₁ + M₂, ?_, ?_, ?_⟩, hl₂, fun k hk => ?_, fun s hs => ?_⟩
  · rw [Multiset.card_add, hm₁, hm₂]
  · rw [hused₂, hused₁, add_assoc]
  · rw [hin₂, hin₁, add_assoc]
  · rcases hp₂ k hk with h | h
    · rw [h]
      exact hp₁ k hk
    · exact .inr ((hl₁ k hk).symm.trans h)
  · refine (hf₁ s hs).trans (hf₂ s ?_)
    rw [hin₁, hused₁, ← add_assoc]
    exact add_le_add hs le_rfl

theorem EmptyAdded.change {l p e new : Nat} {fs' : Fs} (h : EmptyAdded fs l p e new fs')
    (hp : p ≠ 0) (hnew : new ≠ 0) (he : e < fs.img.sb.entriesPerBlock) :
    TreeChange fs (l + 1) p (fs.img.sb.look (fs.img.sb.tree fs.bytes (l + 1) p) (l + 1))
      fs.img.sb.fragsPerBlock fs' := by
  refine ⟨h.keeps, ⟨_, card_extent hnew, h.used, h.inner hp he⟩, fun k _ => h.look hp k,
    fun k _ => ?_, fun s hs => h.frame s (le_trans (add_le_add le_rfl
      ((Multiset.le_add_right _ _).trans (kid_le hp he))) hs)⟩
  unfold Superblock.spine Superblock.look
  rw [h.tree, BlockTree.spine_setKid, tree_succ hp]
  split
  case isFalse => exact .inl rfl
  case isTrue hke =>
    refine .inr ?_
    have hk := BlockTree.look_node (n := fs.img.sb.entriesPerBlock) p
      (fs.img.sb.kids fs.bytes l p) l k
    rw [hke, h.hole] at hk
    exact hk

/-- Setting an index below an entry that is there. -/
theorem PutEntry.descend {l p i d m : Nat} {fs' : Fs} (hp : p ≠ 0) (hs : fs.Opened)
    (hin : fs.img.sb.inner (fs.img.sb.tree fs.bytes (l + 1) p) ≤ fs.used)
    (he : i / fs.img.sb.entriesPerBlock ^ l < fs.img.sb.entriesPerBlock)
    (h : PutEntry fs l
      (be32 fs.bytes (p * fs.img.sb.fragSize + i / fs.img.sb.entriesPerBlock ^ l * 4))
      (i % fs.img.sb.entriesPerBlock ^ l) d m fs') : PutEntry fs (l + 1) p i d m fs' := by
  have htree := tree_below hs.geometry hp hin he h.frame
  obtain ⟨M, hM, hused, hinner⟩ := h.used
  refine ⟨h.keeps, ⟨M, hM, hused, inner_below hp he htree (by rw [kids_of_lt he]; exact hinner)⟩,
    fun k hk => ?_, fun k hk => ?_, fun s hs' => h.frame s (le_trans (add_le_add le_rfl
      ((Multiset.le_add_left _ _).trans (kid_le hp he))) hs')⟩
  · refine look_below hp htree hk ?_
    rw [kids_of_lt he]
    exact h.look
  · obtain ⟨-, hkr⟩ := BlockTree.kid_lt hk
    have hway := h.spine _ hkr
    unfold Superblock.spine Superblock.look at hway ⊢
    rw [htree, BlockTree.spine_setKid, tree_succ hp]
    split
    case isFalse => exact .inl rfl
    case isTrue hke =>
      rw [BlockTree.spine_node, BlockTree.look_node, hke, if_pos he]
      exact hway.imp (congrArg (p :: ·)) id

/-- Setting a data pointer in a leaf block. -/
theorem putLeaf {fs' : Fs} {p i d : Nat} {u : PUnit} (hp : p ≠ 0) (hs : fs.Opened)
    (hd : d < 4294967296) (h : writeIndirectEntry p i d fs = .ok u fs') :
    PutEntry fs 1 p i d 0 fs' := by
  obtain ⟨hi, hw⟩ := writeIndirectEntry_ok h
  have htree := tree_leaf hp hs hd h
  have hroot : extent p fs.img.sb.fragsPerBlock ≤
      fs.img.sb.inner (fs.img.sb.tree fs.bytes 1 p) :=
    (Multiset.le_add_right _ _).trans (kid_le hp hi)
  refine ⟨hw.keeps, ⟨0, rfl, by rw [hw.used, add_zero], by
    rw [inner_leaf hp hi htree, add_zero]⟩, fun k _ => look_leaf hp htree k, fun k hk => .inl ?_,
    fun s hs' => writeIndirectEntry_frame hs hp h s ((add_le_add le_rfl hroot).trans hs')⟩
  have hkid : ∀ j, BlockTree.spine fs.img.sb.entriesPerBlock (fs.img.sb.kids fs.bytes 0 p
      (k / fs.img.sb.entriesPerBlock ^ 0)) 0 j = [] := fun j => by
    rw [kids_of_lt (BlockTree.kid_lt hk).1]
    exact BlockTree.spine_zero _ _
  unfold Superblock.spine
  rw [htree, BlockTree.spine_setKid, tree_succ hp]
  change _ = p :: BlockTree.spine _ (fs.img.sb.kids fs.bytes 0 p _) 0 _
  rw [hkid]
  split
  · exact congrArg (p :: ·) (BlockTree.spine_zero _ _)
  · change p :: BlockTree.spine _ (fs.img.sb.kids fs.bytes 0 p _) 0 _ = _
    rw [hkid]

/-- A call that succeeds was given an indirect block: both sides of the recursion check it. -/
theorem setIndirectDataBlock_root {pref l p i d m : Nat} {fs' : Fs}
    (h : setIndirectDataBlock pref l p i d fs = .ok m fs') : p ≠ 0 := by
  rcases l with _ | _ | l
  · simp [setIndirectDataBlock, throw_ok] at h
  · simp only [setIndirectDataBlock, writeIndirectEntry, if_true, bind_ok, get_ok, check_ok] at h
    obtain ⟨_, _, ⟨_, _, ⟨rfl, rfl⟩, _, _, ⟨⟨-, hp, -⟩, -⟩, -⟩, -⟩ := h
    exact hp
  · rw [setIndirectDataBlock, if_neg (by omega)] at h
    simp only [bind_ok, get_ok, readIndirectEntry, check_ok] at h
    obtain ⟨_, _, ⟨rfl, rfl⟩, _, _, ⟨_, _, ⟨rfl, rfl⟩, _, _, ⟨⟨-, hp, -⟩, -⟩, -⟩, -⟩ := h
    exact hp

/-- `nextufs__set_indirect_data_block` on a tree whose indirect blocks are in use. -/
theorem setIndirectDataBlock_put {pref d : Nat} (hd : d < 4294967296) :
    ∀ {l p i m : Nat} {fs fs' : Fs}, fs.Opened →
      fs.img.sb.inner (fs.img.sb.tree fs.bytes l p) ≤ fs.used →
      i < fs.img.sb.entriesPerBlock ^ l →
      setIndirectDataBlock pref l p i d fs = .ok m fs' → PutEntry fs l p i d m fs'
  | 0, _, _, _, _, _, _, _, _, h => by simp [setIndirectDataBlock, throw_ok] at h
  | 1, p, i, m, fs, fs', hs, hin, hi, h => by
      have hp := setIndirectDataBlock_root h
      simp only [setIndirectDataBlock, if_true, bind_ok, pure_ok] at h
      obtain ⟨_, _, hwrite, rfl, rfl⟩ := h
      exact putLeaf hp hs hd hwrite
  | l + 2, p, i, m, fs, fs', hs, hin, hi, h => by
      have hp := setIndirectDataBlock_root h
      obtain ⟨he, hr⟩ := BlockTree.kid_lt hi
      rw [setIndirectDataBlock, if_neg (by omega)] at h
      simp only [bind_ok, get_ok] at h
      obtain ⟨_, _, ⟨rfl, rfl⟩, next, _, hread, h⟩ := h
      obtain ⟨-, hnext, rfl⟩ := readIndirectEntry_ok hread
      split at h
      case isTrue hnull =>
        simp only [bind_ok, pure_ok] at h
        obtain ⟨new, fs₁, halloc, _, fs₂, hwrite, m', fs₃, hset, rfl, rfl⟩ := h
        have hnew := setIndirectDataBlock_root hset
        have hadd := emptyAdded hp hs hin he (hnext.symm.trans hnull) hnew halloc hwrite
        have hstep := hadd.change hp hnew he
        have himg := hadd.keeps.img
        have hs₂ := hs.of_img himg
        have hin₂ : fs₂.img.sb.inner (fs₂.img.sb.tree fs₂.bytes (l + 2) p) ≤ fs₂.used := by
          rw [himg, hadd.inner hp he, hadd.used]
          exact add_le_add hin le_rfl
        have hput : PutEntry fs₂ (l + 2) p i d m' fs₃ := by
          have hval := hadd.entry
          rw [← himg] at he hr hval hset
          rw [← hval] at hset
          exact PutEntry.descend hp hs₂ hin₂ he (setIndirectDataBlock_put hd hs₂
            (((Multiset.le_add_left _ _).trans (kid_le hp he)).trans hin₂) hr hset)
        refine (hstep.trans hput).of_look fun k hk => ?_
        rw [himg, hadd.look hp]
      case isFalse hnull =>
        subst hnext
        exact PutEntry.descend hp hs hin he (setIndirectDataBlock_put hd hs
          (((Multiset.le_add_left _ _).trans (kid_le hp he)).trans hin) hr h)

end

/-! ## The file -/

/-- The indirect blocks on the way to a logical block of the file. -/
def Superblock.fileSpine (sb : Superblock) (b : ByteStore) (ino : Inode) (k : Nat) : List Nat :=
  if k < 12 then []
  else ((sb.indirectSlot k).map fun p => sb.spine (sb.slotTree b ino p.1) (p.1 + 1) p.2).getD []

theorem Superblock.fileSpine_slot {sb : Superblock} {b : ByteStore} {ino : Inode} {s i : Nat}
    (hs : s < 3) (hi : i < sb.entriesPerBlock ^ (s + 1)) :
    sb.fileSpine b ino (sb.slotBase s + i) = sb.spine (sb.slotTree b ino s) (s + 1) i := by
  have hge := sb.slotBase_ge s
  rw [Superblock.fileSpine, if_neg (by omega), Superblock.indirectSlot_base hs hi]
  rfl

/-- A block past the direct ones lies in a slot, or past the last and has no indirect blocks. -/
theorem Superblock.fileSpine_cases (sb : Superblock) (k : Nat) :
    (∀ b ino, sb.fileSpine b ino k = []) ∨
      ∃ s i, s < 3 ∧ i < sb.entriesPerBlock ^ (s + 1) ∧ k = sb.slotBase s + i := by
  by_cases hk : k < 12
  · exact .inl fun _ _ => if_pos hk
  cases hslot : sb.indirectSlot k with
  | none =>
    refine .inl fun b ino => ?_
    rw [Superblock.fileSpine, if_neg hk, hslot]
    rfl
  | some p =>
    obtain ⟨s, i⟩ := p
    exact .inr ⟨s, i, Superblock.indirectSlot_some (by omega) hslot⟩

/-- What a change in the file's map does: the map is then `f`, `m` fragments of new indirect
blocks are all the storage it took, and they are on the way to what was a hole. -/
structure MapChange (fs : Fs) (ino : Inode) (f : Nat → Nat) (m : Nat) (fs' : Fs)
    (ino' : Inode) : Prop where
  keeps : fs.Keeps fs'
  used : ∃ M, M.card = m ∧ fs'.used = fs.used + M ∧
    fs.img.sb.fileInner fs'.bytes ino' = fs.img.sb.fileInner fs.bytes ino + M
  map : ∀ k < fs.img.sb.slotBase 3, fs.img.sb.fileBlock fs'.bytes ino' k = f k
  spine : ∀ k, fs.img.sb.fileSpine fs'.bytes ino' k = fs.img.sb.fileSpine fs.bytes ino k ∨
    fs.img.sb.fileBlock fs.bytes ino k = 0

section
variable {fs : Fs} {ino : Inode}

/-- A change that leaves the map as it is, and another. -/
theorem MapChange.trans {fs₁ fs₂ : Fs} {ino₁ ino₂ : Inode} {g : Nat → Nat} {m₁ m₂ : Nat}
    (h₁ : MapChange fs ino (fs.img.sb.fileBlock fs.bytes ino) m₁ fs₁ ino₁)
    (h₂ : MapChange fs₁ ino₁ g m₂ fs₂ ino₂) : MapChange fs ino g (m₁ + m₂) fs₂ ino₂ := by
  obtain ⟨hk₁, ⟨M₁, hm₁, hused₁, hin₁⟩, hl₁, hp₁⟩ := h₁
  obtain ⟨hk₂, ⟨M₂, hm₂, hused₂, hin₂⟩, hl₂, hp₂⟩ := h₂
  rw [hk₁.img] at hin₂ hl₂ hp₂
  refine ⟨hk₁.trans hk₂, ⟨M₁ + M₂, ?_, ?_, ?_⟩, hl₂, fun k => ?_⟩
  · rw [Multiset.card_add, hm₁, hm₂]
  · rw [hused₂, hused₁, add_assoc]
  · rw [hin₂, hin₁, add_assoc]
  · rcases hp₂ k with h | h
    · rw [h]
      exact hp₁ k
    · by_cases hk : k < fs.img.sb.slotBase 3
      · exact .inr ((hl₁ k hk).symm.trans h)
      · exact .inr (Superblock.fileBlock_of_ge (by omega))

theorem MapChange.of_map {fs' : Fs} {ino' : Inode} {f g : Nat → Nat} {m : Nat}
    (h : MapChange fs ino f m fs' ino') (hfg : ∀ k < fs.img.sb.slotBase 3, f k = g k) :
    MapChange fs ino g m fs' ino' :=
  ⟨h.keeps, h.used, fun k hk => (h.map k hk).trans (hfg k hk), h.spine⟩

/-- The ways after one slot's tree changed. -/
theorem spine_of_slot {sb : Superblock} {b b' : ByteStore} {ino' : Inode} {s : Nat}
    (hother : ∀ t < 3, t ≠ s → sb.slotTree b' ino' t = sb.slotTree b ino t)
    (hway : ∀ i < sb.entriesPerBlock ^ (s + 1),
      sb.spine (sb.slotTree b' ino' s) (s + 1) i = sb.spine (sb.slotTree b ino s) (s + 1) i ∨
        sb.look (sb.slotTree b ino s) (s + 1) i = 0) (k : Nat) :
    sb.fileSpine b' ino' k = sb.fileSpine b ino k ∨ sb.fileBlock b ino k = 0 := by
  rcases sb.fileSpine_cases k with h | ⟨t, i, ht, hi, rfl⟩
  · exact .inl ((h _ _).trans (h _ _).symm)
  rw [Superblock.fileSpine_slot ht hi, Superblock.fileSpine_slot ht hi,
    Superblock.fileBlock_slot ht hi]
  by_cases hts : t = s
  · subst hts
    exact hway i hi
  · rw [hother t ht hts]
    exact .inl rfl

/-- A change in one slot's tree is a change in the file's map. -/
theorem TreeChange.mapChange {s m : Nat} {f : Nat → Nat} {fs' : Fs} (hs : fs.Opened)
    (hs3 : s < 3) (hin : fs.img.sb.fileInner fs.bytes ino ≤ fs.used)
    (hf : ∀ k, (∀ i < fs.img.sb.entriesPerBlock ^ (s + 1), k ≠ fs.img.sb.slotBase s + i) →
      f k = fs.img.sb.fileBlock fs.bytes ino k)
    (h : TreeChange fs (s + 1) (ino.ib s) (fun i => f (fs.img.sb.slotBase s + i)) m fs') :
    MapChange fs ino f m fs' ino := by
  obtain ⟨M, hm, hused, hinner⟩ := h.used
  have hother : ∀ t < 3, t ≠ s →
      fs.img.sb.slotTree fs'.bytes ino t = fs.img.sb.slotTree fs.bytes ino t := by
    intro t ht hne
    exact BlockTree.load_congr hs.geometry.entries_le
      (h.frame _ ((slots_le hs3 ht hne).trans hin))
  have hsum := sum_update (f := fun s => fs.img.sb.inner (fs.img.sb.slotTree fs.bytes ino s))
    (g := fun s => fs.img.sb.inner (fs.img.sb.slotTree fs'.bytes ino s)) hs3
    fun t ht hne => congrArg _ (hother t ht hne)
  refine ⟨h.keeps, ⟨M, hm, hused, ?_⟩, fun k hk => map_of_slot hs3 rfl hother h.look hf hk,
    spine_of_slot hother h.spine⟩
  have hinner' : fs.img.sb.inner (fs.img.sb.slotTree fs'.bytes ino s) =
      fs.img.sb.inner (fs.img.sb.slotTree fs.bytes ino s) + M := hinner
  rw [hinner'] at hsum
  refine add_right_cancel (hsum.trans ?_)
  rw [Superblock.fileInner]
  abel

/-- A slot without a tree gets an empty root. -/
theorem rootAdded {s pref root : Nat} {fs₁ : Fs} (hs : fs.Opened) (hs3 : s < 3)
    (hin : fs.img.sb.fileInner fs.bytes ino ≤ fs.used) (hnull : ino.ib s = 0) (hroot : root ≠ 0)
    (h : allocateZeroedFullBlock pref fs = .ok root fs₁) :
    MapChange fs ino (fs.img.sb.fileBlock fs.bytes ino) fs.img.sb.fragsPerBlock fs₁
      { ino with ib := Function.update ino.ib s root } := by
  obtain ⟨hk, -, hused, hsame, htree⟩ := allocateZeroedFullBlock_blank hs h hroot
  set ino' : Inode := { ino with ib := Function.update ino.ib s root }
  have hother : ∀ t < 3, t ≠ s →
      fs.img.sb.slotTree fs₁.bytes ino' t = fs.img.sb.slotTree fs.bytes ino t := by
    intro t ht hne
    have hib : ino'.ib t = ino.ib t := Function.update_of_ne hne ..
    rw [Superblock.slotTree, hib]
    exact BlockTree.load_congr hs.geometry.entries_le (hsame.mono ((slot_le ht).trans hin))
  have hold : fs.img.sb.slotTree fs.bytes ino s = .hole := by
    rw [Superblock.slotTree, hnull]
    exact BlockTree.load_null _
  have hnew : fs.img.sb.slotTree fs₁.bytes ino' s = .node root fun _ => .hole := by
    have hib : ino'.ib s = root := Function.update_self ..
    rw [Superblock.slotTree, hib]
    exact htree s
  have hsum := sum_update (f := fun s => fs.img.sb.inner (fs.img.sb.slotTree fs.bytes ino s))
    (g := fun s => fs.img.sb.inner (fs.img.sb.slotTree fs₁.bytes ino' s)) hs3
    fun t ht hne => congrArg _ (hother t ht hne)
  have hlook : ∀ i, fs.img.sb.look (fs.img.sb.slotTree fs.bytes ino s) (s + 1) i = 0 :=
    fun i => by rw [hold]; rfl
  refine ⟨hk, ⟨_, card_extent hroot, hused, ?_⟩, fun k hk' =>
    map_of_slot (f := fs.img.sb.fileBlock fs.bytes ino) hs3 (show ino'.db = ino.db from rfl) hother
      (fun i hi => ?_) (fun _ _ => rfl) hk', spine_of_slot hother fun i _ => .inr (hlook i)⟩
  · simp only [hnew, hold] at hsum
    simpa [Superblock.inner, BlockTree.inner, Superblock.fileInner] using hsum
  · rw [Superblock.fileBlock_slot hs3 hi, hnew, hold]
    rfl

/-- Setting a block of a slot that has a tree. -/
theorem putSlot {s i d pref m : Nat} {fs' : Fs} (hs : fs.Opened) (hs3 : s < 3)
    (hin : fs.img.sb.fileInner fs.bytes ino ≤ fs.used)
    (hi : i < fs.img.sb.entriesPerBlock ^ (s + 1)) (hd : d < 4294967296)
    (h : setIndirectDataBlock pref (s + 1) (ino.ib s) i d fs = .ok m fs') :
    MapChange fs ino (Function.update (fs.img.sb.fileBlock fs.bytes ino)
      (fs.img.sb.slotBase s + i) d) m fs' ino := by
  have hput : PutEntry fs (s + 1) (ino.ib s) i d m fs' :=
    setIndirectDataBlock_put hd hs ((slot_le hs3).trans hin) hi h
  refine TreeChange.mapChange hs hs3 hin (fun k hk => Function.update_of_ne (hk i hi) ..)
    (hput.of_look fun j hj => ?_)
  by_cases hji : j = i
  · subst hji
    rw [if_pos rfl, Function.update_self]
  · rw [if_neg hji, Function.update_of_ne (by omega), Superblock.fileBlock_slot hs3 hj]
    rfl

/-- `nextufs__set_inode_data_block` changes the map in one place. -/
theorem setInodeDataBlock_change {k d pref m : Nat} {ino' : Inode} {fs' : Fs} (hs : fs.Opened)
    (hin : fs.img.sb.fileInner fs.bytes ino ≤ fs.used) (hd : d < 4294967296)
    (h : setInodeDataBlock ino k d pref fs = .ok (ino', m) fs') :
    k < fs.img.sb.slotBase 3 ∧
      MapChange fs ino (Function.update (fs.img.sb.fileBlock fs.bytes ino) k d) m fs' ino' := by
  simp only [setInodeDataBlock, bind_ok, get_ok] at h
  obtain ⟨_, _, ⟨rfl, rfl⟩, h⟩ := h
  split at h
  case isTrue hk =>
    simp only [pure_ok, Prod.mk.injEq] at h
    obtain ⟨⟨rfl, rfl⟩, rfl⟩ := h
    have hge := fs.img.sb.slotBase_ge 3
    refine ⟨by omega, Fs.Keeps.refl fs, ⟨0, rfl, (add_zero _).symm, (add_zero _).symm⟩,
      fun j hj => ?_, fun j => .inl rfl⟩
    by_cases hjk : j = k
    · subst hjk
      rw [Superblock.fileBlock_direct hk, Function.update_self]
      exact Function.update_self ..
    · rw [Function.update_of_ne hjk]
      by_cases hj12 : j < 12
      · rw [Superblock.fileBlock_direct hj12, Superblock.fileBlock_direct hj12]
        exact Function.update_of_ne hjk ..
      · rw [Superblock.fileBlock, Superblock.fileBlock, if_neg hj12, if_neg hj12]
        rfl
  case isFalse hk =>
    cases hslot : fs.img.sb.indirectSlot k with
    | none => simp [hslot, throw_ok] at h
    | some p =>
      obtain ⟨s, i⟩ := p
      obtain ⟨hs3, hi, rfl⟩ := Superblock.indirectSlot_some (by omega) hslot
      have hlt := fs.img.sb.slotBase_le hs3
      refine ⟨by omega, ?_⟩
      simp only [hslot] at h
      split at h
      case isTrue hnull =>
        simp only [bind_ok, pure_ok, Prod.mk.injEq] at h
        obtain ⟨root, fs₁, halloc, m', fs₂, hset, ⟨rfl, rfl⟩, rfl⟩ := h
        have hroot := setIndirectDataBlock_root hset
        have hstep := rootAdded hs hs3 hin hnull hroot halloc
        have himg := hstep.keeps.img
        obtain ⟨M, -, hused, hinner⟩ := hstep.used
        set ino₁ : Inode := { ino with ib := Function.update ino.ib s root }
        have hib : ino₁.ib s = root := Function.update_self ..
        have hin₁ : fs₁.img.sb.fileInner fs₁.bytes ino₁ ≤ fs₁.used := by
          rw [himg, hinner, hused]
          exact add_le_add hin le_rfl
        rw [← hib] at hset
        have hput := putSlot (hs.of_img himg) hs3 hin₁ (by rwa [himg]) hd hset
        refine (hstep.trans hput).of_map fun j hj => ?_
        rw [himg]
        by_cases hji : j = fs.img.sb.slotBase s + i
        · rw [hji, Function.update_self, Function.update_self]
        · rw [Function.update_of_ne hji, Function.update_of_ne hji, hstep.map j hj]
      case isFalse hnull =>
        simp only [bind_ok, pure_ok, Prod.mk.injEq] at h
        obtain ⟨m', fs₂, hset, ⟨rfl, rfl⟩, rfl⟩ := h
        exact putSlot hs hs3 hin hi hd hset

end

/-! ## The two lookups -/

section
variable {fs : Fs} {ino : Inode}

/-- A block all in use lies in the filesystem. -/
theorem block_le_of_used {p n : Nat} (hp : p ≠ 0) (hn : 0 < n) (h : extent p n ≤ fs.used) :
    p + n ≤ fs.img.sb.fragCount := by
  have hlast := Fs.mem_used.mp (Multiset.mem_of_le h (mem_extent.mpr
    ⟨hp, show p ≤ p + (n - 1) by omega, by omega⟩))
  omega

/-- On a tree whose indirect blocks are in use the lookup finds what the tree maps. -/
theorem resolveIndirectDataBlock_eq (hs : fs.Opened) : ∀ {l p i : Nat},
    fs.img.sb.inner (fs.img.sb.tree fs.bytes (l + 1) p) ≤ fs.used →
      i < fs.img.sb.entriesPerBlock ^ (l + 1) →
      resolveIndirectDataBlock (l + 1) p i fs =
        .ok (fs.img.sb.look (fs.img.sb.tree fs.bytes (l + 1) p) (l + 1) i) fs
  | l, p, i, hin, hi => by
      obtain ⟨he, hr⟩ := BlockTree.kid_lt hi
      rw [resolveIndirectDataBlock]
      by_cases hp : p = 0
      · rw [if_pos hp, hp, Superblock.tree, BlockTree.load_null]
        rfl
      have hkid := (kid_le (b := fs.bytes) (l := l) hp he).trans hin
      have hle := block_le_of_used hp hs.geometry.fpb_pos ((Multiset.le_add_right _ _).trans hkid)
      rw [if_neg hp, tree_succ hp, Superblock.look, BlockTree.look_node, if_pos he]
      cases l with
      | zero =>
        rw [Nat.pow_zero, Nat.div_one] at he ⊢
        rw [if_pos rfl, readIndirectEntry_eq hs hp hle he]
        exact congrArg (EStateM.Result.ok · fs) (BlockTree.look_zero _ _).symm
      | succ l =>
        rw [if_neg (by omega)]
        refine bind_ok.mpr ⟨_, _, rfl, bind_ok.mpr ⟨_, _, readIndirectEntry_eq hs hp hle he, ?_⟩⟩
        exact resolveIndirectDataBlock_eq hs ((Multiset.le_add_left _ _).trans hkid) hr

/-- `nextufs__resolve_inode_data_block` on a file whose indirect blocks are in use. -/
theorem resolveInodeDataBlock_eq (hs : fs.Opened)
    (hin : fs.img.sb.fileInner fs.bytes ino ≤ fs.used) {k : Nat}
    (hk : k < fs.img.sb.slotBase 3) :
    resolveInodeDataBlock ino k fs = .ok (fs.img.sb.fileBlock fs.bytes ino k) fs := by
  by_cases hd : k < 12
  · rw [Superblock.fileBlock_direct hd]
    exact bind_ok.mpr ⟨_, _, rfl, by rw [if_pos hd]; rfl⟩
  obtain ⟨s, i, hs3, hi, rfl⟩ := fs.img.sb.exists_slot (by omega) hk
  rw [Superblock.fileBlock_slot hs3 hi]
  refine bind_ok.mpr ⟨_, _, rfl, ?_⟩
  simp only [if_neg hd, Superblock.indirectSlot_base hs3 hi]
  exact resolveIndirectDataBlock_eq hs ((slot_le hs3).trans hin) hi

/-- Past the last slot there is no answer. -/
theorem resolveInodeDataBlock_of_ge {k : Nat} (hk : fs.img.sb.slotBase 3 ≤ k) :
    value (resolveInodeDataBlock ino k fs) = none := by
  have hge := fs.img.sb.slotBase_ge 3
  have herr : resolveInodeDataBlock ino k fs = .error .EFBIG fs := by
    refine bind_error.mpr (.inr ⟨_, _, rfl, ?_⟩)
    cases hslot : fs.img.sb.indirectSlot k with
    | none =>
      rw [if_neg (by omega)]
      rfl
    | some p =>
      obtain ⟨s, i⟩ := p
      obtain ⟨hs, hi, rfl⟩ := Superblock.indirectSlot_some (by omega) hslot
      have := fs.img.sb.slotBase_le hs
      omega
  rw [herr]
  rfl

/-- Below one root both lookups answer alike, whatever the blocks hold. -/
theorem resolveIndirect_alike : ∀ l p i : Nat,
    value (resolveIndirectDataBlock l p i fs) = value (resolveIndirectBlockFrag l p i fs)
  | 0, _, _ => rfl
  | l + 1, p, i => by
      rw [resolveIndirectDataBlock, resolveIndirectBlockFrag]
      by_cases hp : p = 0
      · rw [if_pos hp, if_pos hp]
      rw [if_neg hp, if_neg hp]
      rw [value_get_bind]
      dsimp only
      cases hread : readIndirectEntry p (i / fs.img.sb.entriesPerBlock ^ l) fs with
      | error e fs' =>
        have hchecked : readEntryChecked p (i / fs.img.sb.entriesPerBlock ^ l) fs =
            .error Errno.EIO fs' := by rw [readEntryChecked, hread]
        rw [value_bind_of_error hchecked]
        split
        case isTrue hl =>
          subst hl
          rw [Nat.pow_zero, Nat.div_one] at hread
          rw [hread]
          rfl
        case isFalse =>
          rw [value_get_bind, value_bind_of_error hread]
      | ok next fs' =>
        obtain rfl := (readIndirectEntry_ok hread).2.2
        have hchecked : readEntryChecked p (i / fs.img.sb.entriesPerBlock ^ l) fs =
            .ok next fs := by rw [readEntryChecked, hread]
        rw [value_bind_of_ok hchecked]
        split
        case isTrue hl =>
          subst hl
          rw [Nat.pow_zero, Nat.div_one] at hread
          rw [hread]
          rfl
        case isFalse hl =>
          rw [value_get_bind, value_bind_of_ok hread]
          split
          case isTrue hnext =>
            -- the writer's lookup goes down once more, and finds the null pointer there
            obtain ⟨l, rfl⟩ := Nat.exists_eq_succ_of_ne_zero hl
            rw [hnext, resolveIndirectDataBlock, if_pos rfl]
          case isFalse => exact resolveIndirect_alike l next _

/-- `nextufs__resolve_inode_data_block` and `resolve_file_block_frag` answer alike on every
filesystem, for every inode and block. -/
theorem resolve_alike (fs : Fs) (ino : Inode) (k : Nat) :
    value (resolveInodeDataBlock ino k fs) = value (resolveFileBlockFrag ino k fs) := by
  rw [resolveInodeDataBlock, resolveFileBlockFrag, value_get_bind, value_get_bind]
  by_cases hk : k < 12
  · rw [if_pos hk, if_pos hk]
  rw [if_neg hk, if_neg hk]
  cases fs.img.sb.indirectSlot k with
  | none => rfl
  | some p => exact resolveIndirect_alike (p.1 + 1) (ino.ib p.1) p.2

/-- After the pointer of block `k` was set to `d`, the lookup gives `d` for it and what it gave
before for every other block; `m` is the number of fragments in the indirect blocks added, and
every block but `k` with one of them on its way is a hole. On every filesystem the reader's lookup
gives what the writer's gives. -/
theorem block_map_lookups :
    (∀ (fs : Fs) (ino : Inode) (k : Nat),
      value (resolveInodeDataBlock ino k fs) = value (resolveFileBlockFrag ino k fs)) ∧
    ∀ (fs fs' : Fs) (ino ino' : Inode) (k d pref m : Nat), fs.Opened → d < 4294967296 →
      fs.img.sb.fileInner fs.bytes ino ≤ fs.used →
      setInodeDataBlock ino k d pref fs = .ok (ino', m) fs' →
      resolveInodeDataBlock ino' k fs' = .ok d fs' ∧
      (∀ j, j ≠ k → value (resolveInodeDataBlock ino' j fs') =
        value (resolveInodeDataBlock ino j fs)) ∧
      ∃ M, M.card = m ∧ fs'.used = fs.used + M ∧
        fs.img.sb.fileInner fs'.bytes ino' = fs.img.sb.fileInner fs.bytes ino + M ∧
        ∀ j, j ≠ k → ∀ p ∈ fs.img.sb.fileSpine fs'.bytes ino' j, p ∈ M →
          resolveInodeDataBlock ino' j fs' = .ok 0 fs' := by
  refine ⟨resolve_alike, fun fs fs' ino ino' k d pref m hs hd hin h => ?_⟩
  obtain ⟨hk, hchange⟩ := setInodeDataBlock_change hs hin hd h
  obtain ⟨M, hm, hused, hinner⟩ := hchange.used
  have himg := hchange.keeps.img
  have hs' := hs.of_img himg
  have hin' : fs'.img.sb.fileInner fs'.bytes ino' ≤ fs'.used := by
    rw [himg, hinner, hused]
    exact add_le_add hin le_rfl
  have hafter : ∀ j < fs.img.sb.slotBase 3, resolveInodeDataBlock ino' j fs' =
      .ok (Function.update (fs.img.sb.fileBlock fs.bytes ino) k d j) fs' := by
    intro j hj
    rw [resolveInodeDataBlock_eq hs' hin' (by rwa [himg]), himg, hchange.map j hj]
  refine ⟨?_, fun j hj => ?_, M, hm, hused, hinner, fun j hj p hp hpM => ?_⟩
  · rw [hafter k hk, Function.update_self]
  · by_cases hlt : j < fs.img.sb.slotBase 3
    · rw [hafter j hlt, resolveInodeDataBlock_eq hs hin hlt, Function.update_of_ne hj]
      rfl
    · rw [resolveInodeDataBlock_of_ge (by rw [himg]; omega),
        resolveInodeDataBlock_of_ge (by omega)]
  · -- an indirect block that is new was not on the way before
    have hhole : fs.img.sb.fileBlock fs.bytes ino j = 0 := by
      refine (hchange.spine j).resolve_left fun hway => ?_
      rw [hway] at hp
      have hmem : p ∈ fs.img.sb.fileInner fs.bytes ino := by
        rcases fs.img.sb.fileSpine_cases j with hnil | ⟨s, i, hs3, hi, rfl⟩
        · rw [hnil] at hp
          exact absurd hp List.not_mem_nil
        · rw [Superblock.fileSpine_slot hs3 hi] at hp
          exact Multiset.mem_of_le (slot_le hs3)
            (BlockTree.mem_inner_of_spine hs.geometry.fpb_pos hi hp)
      have hnodup := fs'.used_nodup
      rw [hused] at hnodup
      exact apart hnodup (Multiset.mem_of_le hin hmem) hpM
    have hlt : j < fs.img.sb.slotBase 3 := by
      rcases fs.img.sb.fileSpine_cases j with hnil | ⟨s, i, hs3, hi, rfl⟩
      · rw [hnil] at hp
        exact absurd hp List.not_mem_nil
      · have := fs.img.sb.slotBase_le hs3
        omega
    rw [hafter j hlt, Function.update_of_ne hj, hhole]

/-- The first block past the direct ones, in a file without indirect blocks. -/
theorem block_map_lookups_first : ∃ ino' m fs',
    setInodeDataBlock (oneGroupFs.inode 2) 12 7 0 oneGroupFs = .ok (ino', m) fs' ∧
      resolveInodeDataBlock ino' 12 fs' = .ok 7 fs' := by
  have hrun : finishes (setInodeDataBlock (oneGroupFs.inode 2) 12 7 0 oneGroupFs) = true := by
    decide +kernel
  obtain ⟨⟨ino', m⟩, fs', h⟩ := exists_of_finishes hrun
  have hempty : oneGroupFs.img.sb.fileInner oneGroupFs.bytes (oneGroupFs.inode 2) ≤
      oneGroupFs.used := by
    have hhole : ∀ s, oneGroupFs.img.sb.slotTree oneGroupFs.bytes (oneGroupFs.inode 2) s = .hole :=
      fun s => BlockTree.load_null _
    simp [Superblock.fileInner, hhole, Superblock.inner, BlockTree.inner]
  exact ⟨ino', m, fs', h, (block_map_lookups.2 oneGroupFs fs' (oneGroupFs.inode 2) ino' 12 7 0 m
    ⟨by decide +kernel, by decide⟩ (by decide) hempty h).1⟩

/-- A file whose double-indirect block is marked free. -/
def freeRootInode : Inode := { oneGroupFs.inode 2 with ib := Function.update (fun _ => 0) 1 48 }

theorem freeRootInode_inner :
    oneGroupFs.img.sb.fileInner oneGroupFs.bytes freeRootInode = extent 48 8 := by
  have hzero : ∀ p, be32 oneGroupFs.bytes p = 0 := fun p => by simp [be32, be16, oneGroupFs]
  have hroot : oneGroupFs.img.sb.inner
      (oneGroupFs.img.sb.slotTree oneGroupFs.bytes freeRootInode 1) = extent 48 8 := by
    refine (BlockTree.inner_load (show freeRootInode.ib 1 ≠ 0 by decide)).trans ?_
    simp only [hzero, BlockTree.load_null, BlockTree.inner, Finset.sum_const_zero, add_zero]
    rfl
  have hhole : ∀ s, s ≠ 1 → oneGroupFs.img.sb.inner
      (oneGroupFs.img.sb.slotTree oneGroupFs.bytes freeRootInode s) = 0 := by
    intro s hs
    have hib : freeRootInode.ib s = 0 := by simp [freeRootInode, hs]
    rw [Superblock.slotTree, hib, Superblock.tree, BlockTree.load_null]
    rfl
  rw [Superblock.fileInner, Finset.sum_eq_single_of_mem 1 (by decide) fun s _ hs => hhole s hs]
  exact hroot

/-- In range and not shared are not enough: the allocator hands out the root itself, and the data
pointer set in it is then taken for an indirect block. -/
theorem setInodeDataBlock_free_root :
    (oneGroupFs.img.sb.fileInner oneGroupFs.bytes freeRootInode).Nodup ∧
      (∀ f ∈ oneGroupFs.img.sb.fileInner oneGroupFs.bytes freeRootInode,
        f < oneGroupFs.img.sb.fragCount) ∧
      finishes (setInodeDataBlock freeRootInode 2060 7 0 oneGroupFs) = true ∧
      value ((setInodeDataBlock freeRootInode 2060 7 0 >>= fun p =>
        resolveInodeDataBlock p.1 2060) oneGroupFs) = some 0 := by
  rw [freeRootInode_inner]
  refine ⟨extent_nodup 48 8, fun f hf => ?_, by decide +kernel, by decide +kernel⟩
  have hin := (mem_extent.mp hf).2
  exact show f < 64 by omega

end

end NextUfs.Core
