/-
NextUfs.Core.BlockMapTheorems — the indirect blocks of a file.

`SetEntry` says what `setIndirectDataBlock` does to the tree it works in: one
index maps to the new data block, the indirect blocks it added are all the
storage it took, and nothing in use outside the tree's indirect blocks was
written. The proof follows the levels; at each one the entry's subtree is
there already (`SetEntry.descend`) or is an empty block first
(`addEmptyBlock`). Reading is one equation a level.
-/
import NextUfs.Core.StorageTheorems

namespace NextUfs.Core

open NextUfs.Lib NextUfs.Lib.ByteStore NextUfs.Lib.StateResult NextUfs.Lib.Extents

/-! ## Trees of a filesystem -/

/-- The tree below a pointer of a level. -/
def Superblock.tree (sb : Superblock) (b : ByteStore) (l p : Nat) : BlockTree :=
  BlockTree.load sb.entriesPerBlock sb.fragSize b l p

/-- The fragments of a tree. -/
def Superblock.own (sb : Superblock) (t : BlockTree) : Multiset Nat :=
  t.own sb.entriesPerBlock sb.fragsPerBlock

/-- The fragments of its indirect blocks. -/
def Superblock.inner (sb : Superblock) (t : BlockTree) : Multiset Nat :=
  t.inner sb.entriesPerBlock sb.fragsPerBlock

/-- The data block at an index. -/
def Superblock.look (sb : Superblock) (t : BlockTree) (l i : Nat) : Nat :=
  t.look sb.entriesPerBlock l i

/-- A whole block of the filesystem. -/
def Fs.BlockOk (fs : Fs) (p : Nat) : Prop := p ≠ 0 ∧ fs.RunOk p fs.img.sb.fragsPerBlock

/-- A tree whose blocks are blocks of the filesystem and start before `keep`. -/
def Fs.Good (fs : Fs) (keep : Nat) (t : BlockTree) (l base : Nat) : Prop :=
  t.Good fs.img.sb.entriesPerBlock fs.BlockOk keep l base

/-- An indirect block holds its entries. -/
theorem Geometry.entries_le {sb : Superblock} (hg : Geometry sb) :
    sb.entriesPerBlock * 4 ≤ sb.fragsPerBlock * sb.fragSize := by
  have h₁ := Nat.div_mul_le_self sb.blockSize 4
  rw [hg.block_eq]
  exact h₁

theorem Fs.Keeps.blockOk {fs fs' : Fs} (hk : fs.Keeps fs') {p : Nat} (h : fs.BlockOk p) :
    fs'.BlockOk p := by
  refine ⟨h.1, ?_⟩
  rw [hk.img]
  exact hk.runOk h.2

theorem Fs.Keeps.good {fs fs' : Fs} (hk : fs.Keeps fs') {keep l base : Nat} {t : BlockTree}
    (h : fs.Good keep t l base) : fs'.Good keep t l base := by
  unfold Fs.Good
  rw [hk.img]
  exact h.mono (fun _ => hk.blockOk) le_rfl

theorem Fs.Sound.block_le {fs : Fs} (hs : fs.Sound) {p : Nat} (h : fs.BlockOk p) :
    p + fs.img.sb.fragsPerBlock ≤ fs.img.sb.fragCount :=
  hs.run_le h.2

/-- A fragment number fits a pointer. -/
theorem Fs.Opened.pointer_lt {fs : Fs} (hs : fs.Opened) {p n : Nat}
    (h : p + n ≤ fs.img.sb.fragCount) : p < 4294967296 := by
  have h₂ := hs.geometry.fragCount_le
  unfold INT32_MAX at h₂
  omega

theorem Fs.Sound.pointer_lt {fs : Fs} (hs : fs.Sound) {p n : Nat} (h : fs.RunOk p n) :
    p < 4294967296 :=
  hs.opened.pointer_lt (hs.run_le h)

/-! ## One entry -/

theorem readIndirectEntry_ok {fs fs' : Fs} {p e v : Nat}
    (h : readIndirectEntry p e fs = .ok v fs') :
    e < fs.img.sb.entriesPerBlock ∧ v = be32 fs.bytes (p * fs.img.sb.fragSize + e * 4) ∧
      fs = fs' := by
  simp only [readIndirectEntry, bind_ok, get_ok, check_ok, pure_ok] at h
  obtain ⟨_, _, ⟨rfl, rfl⟩, _, _, ⟨⟨he, -⟩, rfl⟩, buf, _, hread, rfl, rfl⟩ := h
  obtain ⟨-, rfl, rfl⟩ := readSlice_ok hread
  exact ⟨he, be32_congr fun i _ => by rw [Nat.zero_add]; rfl, rfl⟩

theorem writeIndirectEntry_ok {fs fs' : Fs} {p e v : Nat} {u : PUnit}
    (h : writeIndirectEntry p e v fs = .ok u fs') :
    e < fs.img.sb.entriesPerBlock ∧
      Wrote fs (beBytes 4 v) 4 (p * fs.img.sb.fragSize + e * 4) fs' := by
  simp only [writeIndirectEntry, bind_ok, get_ok, check_ok] at h
  obtain ⟨_, _, ⟨rfl, rfl⟩, _, _, ⟨⟨he, -⟩, rfl⟩, hwrite⟩ := h
  exact ⟨he, writeSlice_wrote hwrite⟩

/-- A new block of zeros: an indirect block that maps nothing. Fragment 0 is no block. -/
theorem allocateZeroedFullBlock_blank {fs fs' : Fs} (hs : fs.Opened) {pref new : Nat}
    (h : allocateZeroedFullBlock pref fs = .ok new fs') (hnew : new ≠ 0) :
    fs.Keeps fs' ∧ new + fs.img.sb.fragsPerBlock ≤ fs.img.sb.fragCount ∧
      fs'.used = fs.used + extent new fs.img.sb.fragsPerBlock ∧
      SameOn fs.img.sb.fragSize fs.used fs.bytes fs'.bytes ∧
      ∀ l, fs.img.sb.tree fs'.bytes (l + 1) new = .node new fun _ => .hole := by
  simp only [allocateZeroedFullBlock, bind_ok, get_ok, pure_ok] at h
  obtain ⟨_, _, ⟨rfl, rfl⟩, a, fs₁, halloc, _, _, hwrite, rfl, rfl⟩ := h
  have ht := allocateFullBlockAnycg_ok hs.geometry halloc
  have hblock := hs.geometry.block_eq
  have hw := writeSlice_wrote hwrite
  unfold Fs.fragOffset at hw
  refine ⟨ht.same.keeps.trans hw.keeps, ht.le,
    hw.used.trans (used_of_taken hnew ht.le ht.same.img ht.wasFree ht.bits), ?_, fun l => ?_⟩
  · rw [hw.bytes, ht.same.bytes]
    refine sameOn_patch (p := a) (n := fs.img.sb.fragsPerBlock) le_rfl ?_
      fun f hf => ht.not_mem hf
    rw [Nat.add_mul, hblock]
  · refine BlockTree.load_zero hnew fun e he => ?_
    have h₁ := hs.geometry.entries_le
    rw [hw.bytes, be32_patch_of_mem (Nat.le_add_right ..) (by omega)]
    simp [be32, be16]

theorem allocateZeroedFullBlock_ok {fs fs' : Fs} (hs : fs.Sound) {pref new : Nat}
    (h : allocateZeroedFullBlock pref fs = .ok new fs') :
    fs.Keeps fs' ∧ fs'.Sound ∧ fs.BlockOk new ∧
      fs'.used = fs.used + extent new fs.img.sb.fragsPerBlock ∧
      SameOn fs.img.sb.fragSize fs.used fs.bytes fs'.bytes ∧
      ∀ l, fs.img.sb.tree fs'.bytes (l + 1) new = .node new fun _ => .hole := by
  have hblank := allocateZeroedFullBlock_blank hs.opened h
  simp only [allocateZeroedFullBlock, allocateFullBlockAnycg, bind_ok, get_ok, pure_ok] at h
  obtain ⟨_, _, ⟨rfl, rfl⟩, a, fs₁, ⟨_, _, ⟨rfl, rfl⟩, halloc⟩, _, _, hwrite, rfl, rfl⟩ := h
  have ht := allocateFragsAnycg_ok hs.geometry hs.consistent halloc
  have hnew := ht.ne_zero hs
  obtain ⟨hkeeps, -, hused, hsame, htree⟩ := hblank hnew
  exact ⟨hkeeps, (writeSlice_wrote hwrite).sound (ht.sound hs), ⟨hnew, ht.run⟩, hused, hsame, htree⟩

/-! ## Setting a data pointer -/

/-- What a step in the tree at `p` does: it then maps the indices as `f` says, and `m` fragments
of new indirect blocks are all the storage it took. -/
structure TreeStep (keep : Nat) (fs : Fs) (l p base : Nat) (f : Nat → Nat) (m : Nat)
    (fs' : Fs) : Prop where
  keeps : fs.Keeps fs'
  sound : fs'.Sound
  used : ∃ M, M.card = m ∧ fs'.used = fs.used + M ∧
    fs.img.sb.inner (fs.img.sb.tree fs'.bytes l p) =
      fs.img.sb.inner (fs.img.sb.tree fs.bytes l p) + M
  good : fs.Good keep (fs.img.sb.tree fs'.bytes l p) l base
  look : ∀ k < fs.img.sb.entriesPerBlock ^ l,
    fs.img.sb.look (fs.img.sb.tree fs'.bytes l p) l k = f k
  frame : ∀ s, s + fs.img.sb.inner (fs.img.sb.tree fs.bytes l p) ≤ fs.used →
    SameOn fs.img.sb.fragSize s fs.bytes fs'.bytes

/-- Setting index `i` to `d`. -/
def SetEntry (keep : Nat) (fs : Fs) (l p base i d m : Nat) (fs' : Fs) : Prop :=
  TreeStep keep fs l p base
    (fun k => if k = i then d else fs.img.sb.look (fs.img.sb.tree fs.bytes l p) l k) m fs'

section
variable {keep : Nat} {fs : Fs}

/-- The root of a tree and the entries below it. -/
theorem tree_succ {sb : Superblock} {b : ByteStore} {l p : Nat} (hp : p ≠ 0) :
    sb.tree b (l + 1) p = .node p fun e => if e < sb.entriesPerBlock then
      sb.tree b l (be32 b (p * sb.fragSize + e * 4)) else .hole :=
  BlockTree.load_node hp

/-- The root block and two entries' indirect blocks are apart. -/
theorem kids_le {sb : Superblock} {b : ByteStore} {l p e k : Nat} (hp : p ≠ 0)
    (he : e < sb.entriesPerBlock) (hk : k < sb.entriesPerBlock) (hke : k ≠ e) :
    extent p sb.fragsPerBlock + (sb.inner (sb.tree b l (be32 b (p * sb.fragSize + k * 4))) +
      sb.inner (sb.tree b l (be32 b (p * sb.fragSize + e * 4)))) ≤
        sb.inner (sb.tree b (l + 1) p) := by
  have h := add_le_sum (fun e => BlockTree.inner sb.entriesPerBlock sb.fragsPerBlock
    (if e < sb.entriesPerBlock then sb.tree b l (be32 b (p * sb.fragSize + e * 4)) else .hole))
    hk he hke
  simp only [if_pos he, if_pos hk] at h
  rw [Superblock.inner, Superblock.inner, Superblock.inner, tree_succ hp, BlockTree.inner]
  exact add_le_add le_rfl h

theorem kid_le {sb : Superblock} {b : ByteStore} {l p e : Nat} (hp : p ≠ 0)
    (he : e < sb.entriesPerBlock) :
    extent p sb.fragsPerBlock + sb.inner (sb.tree b l (be32 b (p * sb.fragSize + e * 4))) ≤
      sb.inner (sb.tree b (l + 1) p) := by
  have h := le_sum (fun e => BlockTree.inner sb.entriesPerBlock sb.fragsPerBlock
    (if e < sb.entriesPerBlock then sb.tree b l (be32 b (p * sb.fragSize + e * 4)) else .hole)) he
  simp only [if_pos he] at h
  rw [Superblock.inner, Superblock.inner, tree_succ hp, BlockTree.inner]
  exact add_le_add le_rfl h

theorem kid_good {l p base e : Nat} (hp : p ≠ 0)
    (hgood : fs.Good keep (fs.img.sb.tree fs.bytes (l + 1) p) (l + 1) base)
    (he : e < fs.img.sb.entriesPerBlock) :
    fs.Good keep (fs.img.sb.tree fs.bytes l (be32 fs.bytes (p * fs.img.sb.fragSize + e * 4))) l
      (base + e * fs.img.sb.entriesPerBlock ^ l) := by
  rw [tree_succ hp] at hgood
  have hkid := hgood.2.2.2 e he
  simp only [if_pos he] at hkid
  exact hkid

/-- An index is its entry and the rest. -/
theorem index_iff {n k i : Nat} : k = i ↔ k / n = i / n ∧ k % n = i % n := by
  constructor
  · rintro rfl
    exact ⟨rfl, rfl⟩
  · rintro ⟨h₁, h₂⟩
    rw [← Nat.div_add_mod k n, ← Nat.div_add_mod i n, h₁, h₂]

/-- The entries below the root at `p`. -/
def Superblock.kids (sb : Superblock) (b : ByteStore) (l p : Nat) : Nat → BlockTree := fun e =>
  if e < sb.entriesPerBlock then sb.tree b l (be32 b (p * sb.fragSize + e * 4)) else .hole

theorem kids_of_lt {sb : Superblock} {b : ByteStore} {l p e : Nat} (he : e < sb.entriesPerBlock) :
    sb.kids b l p e = sb.tree b l (be32 b (p * sb.fragSize + e * 4)) := if_pos he

/-- A change below one entry, the rest of the tree untouched. -/
theorem tree_below {fs' : Fs} {l p e : Nat} (hg : Geometry fs.img.sb) (hp : p ≠ 0)
    (hin : fs.img.sb.inner (fs.img.sb.tree fs.bytes (l + 1) p) ≤ fs.used)
    (he : e < fs.img.sb.entriesPerBlock)
    (hframe : ∀ s, s + fs.img.sb.inner (fs.img.sb.tree fs.bytes l
      (be32 fs.bytes (p * fs.img.sb.fragSize + e * 4))) ≤ fs.used →
        SameOn fs.img.sb.fragSize s fs.bytes fs'.bytes) :
    fs.img.sb.tree fs'.bytes (l + 1) p = BlockTree.setKid p (fs.img.sb.kids fs.bytes l p) e
      (fs.img.sb.tree fs'.bytes l (be32 fs.bytes (p * fs.img.sb.fragSize + e * 4))) := by
  have hle := hg.entries_le
  -- the root block is not written
  have hroot := hframe _ ((kid_le hp he).trans hin)
  have hentry : ∀ k < fs.img.sb.entriesPerBlock, be32 fs'.bytes (p * fs.img.sb.fragSize + k * 4) =
      be32 fs.bytes (p * fs.img.sb.fragSize + k * 4) :=
    fun k hk => hroot.be32_extent hp le_rfl (by omega)
  refine BlockTree.load_setKid hle hp he (hentry e he) (fun k hk _ => hentry k hk)
    fun k hk hke => hframe _ ?_
  exact (Multiset.le_add_left _ _).trans ((kids_le hp he hk hke).trans hin)

/-- What a subtree gained, the tree gained. -/
theorem inner_below {b b' : ByteStore} {sb : Superblock} {l p e : Nat} {t : BlockTree}
    {M : Multiset Nat} (hp : p ≠ 0) (he : e < sb.entriesPerBlock)
    (htree : sb.tree b' (l + 1) p = BlockTree.setKid p (sb.kids b l p) e t)
    (hinner : sb.inner t = sb.inner (sb.kids b l p e) + M) :
    sb.inner (sb.tree b' (l + 1) p) = sb.inner (sb.tree b (l + 1) p) + M := by
  have hkey := BlockTree.inner_setKid (w := sb.fragsPerBlock) (p := p) he (sb.kids b l p) t
  rw [← htree] at hkey
  unfold Superblock.inner at hinner ⊢
  rw [hinner] at hkey
  refine add_right_cancel (hkey.trans ?_)
  rw [tree_succ hp]
  change _ = BlockTree.inner _ _ (.node p (sb.kids b l p)) + M + _
  abel

/-- What one index of a subtree maps to, the tree maps it to. -/
theorem look_below {b b' : ByteStore} {sb : Superblock} {l p i d k : Nat} {t : BlockTree}
    (hp : p ≠ 0)
    (htree : sb.tree b' (l + 1) p =
      BlockTree.setKid p (sb.kids b l p) (i / sb.entriesPerBlock ^ l) t)
    (hk : k < sb.entriesPerBlock ^ (l + 1))
    (hlook : ∀ j < sb.entriesPerBlock ^ l, sb.look t l j =
      if j = i % sb.entriesPerBlock ^ l then d
      else sb.look (sb.kids b l p (i / sb.entriesPerBlock ^ l)) l j) :
    sb.look (sb.tree b' (l + 1) p) (l + 1) k =
      if k = i then d else sb.look (sb.tree b (l + 1) p) (l + 1) k := by
  obtain ⟨hke, hkr⟩ := BlockTree.kid_lt hk
  unfold Superblock.look at hlook ⊢
  rw [htree, BlockTree.look_setKid, tree_succ hp]
  by_cases hcase : k / sb.entriesPerBlock ^ l = i / sb.entriesPerBlock ^ l
  · rw [if_pos hcase, hlook _ hkr, BlockTree.look_node, ← hcase]
    simp only [index_iff (n := sb.entriesPerBlock ^ l) (k := k) (i := i), hcase, true_and]
    rfl
  · rw [if_neg hcase, if_neg]
    · rfl
    · rintro rfl
      exact hcase rfl

/-- Setting an index below an entry that is there. -/
theorem SetEntry.descend {l p base i d m : Nat} {fs' : Fs} (hp : p ≠ 0)
    (hs : fs.Sound) (hin : fs.img.sb.inner (fs.img.sb.tree fs.bytes (l + 1) p) ≤ fs.used)
    (hgood : fs.Good keep (fs.img.sb.tree fs.bytes (l + 1) p) (l + 1) base)
    (he : i / fs.img.sb.entriesPerBlock ^ l < fs.img.sb.entriesPerBlock)
    (h : SetEntry keep fs l
      (be32 fs.bytes (p * fs.img.sb.fragSize + i / fs.img.sb.entriesPerBlock ^ l * 4))
      (base + i / fs.img.sb.entriesPerBlock ^ l * fs.img.sb.entriesPerBlock ^ l)
      (i % fs.img.sb.entriesPerBlock ^ l) d m fs') :
    SetEntry keep fs (l + 1) p base i d m fs' := by
  have htree := tree_below hs.geometry hp hin he h.frame
  obtain ⟨M, hM, hused, hinner⟩ := h.used
  refine ⟨h.keeps, h.sound,
    ⟨M, hM, hused, inner_below hp he htree (by rw [kids_of_lt he]; exact hinner)⟩, ?_, ?_, ?_⟩
  · rw [tree_succ hp] at hgood
    rw [htree]
    exact BlockTree.Good.setKid hgood h.good
  · intro k hk
    refine look_below hp htree hk ?_
    rw [kids_of_lt he]
    exact h.look
  · exact fun s hs' => h.frame s (le_trans (add_le_add le_rfl
      ((Multiset.le_add_left _ _).trans (kid_le hp he))) hs')

theorem TreeStep.of_look {fs' : Fs} {l p base m : Nat} {f g : Nat → Nat}
    (h : TreeStep keep fs l p base f m fs') (hfg : ∀ k < fs.img.sb.entriesPerBlock ^ l, f k = g k) :
    TreeStep keep fs l p base g m fs' :=
  ⟨h.keeps, h.sound, h.used, h.good, fun k hk => (h.look k hk).trans (hfg k hk), h.frame⟩

/-- Two steps in a tree, one after the other. -/
theorem TreeStep.trans {fs₁ fs₂ : Fs} {l p base m₁ m₂ : Nat} {f g : Nat → Nat}
    (h₁ : TreeStep keep fs l p base f m₁ fs₁) (h₂ : TreeStep keep fs₁ l p base g m₂ fs₂) :
    TreeStep keep fs l p base g (m₁ + m₂) fs₂ := by
  obtain ⟨hk₁, -, ⟨M₁, hm₁, hused₁, hin₁⟩, -, -, hf₁⟩ := h₁
  obtain ⟨hk₂, hs₂, ⟨M₂, hm₂, hused₂, hin₂⟩, hg₂, hl₂, hf₂⟩ := h₂
  rw [hk₁.img] at hin₂ hg₂ hl₂ hf₂
  refine ⟨hk₁.trans hk₂, hs₂, ⟨M₁ + M₂, ?_, ?_, ?_⟩, ?_, hl₂, fun s hs => ?_⟩
  · rw [Multiset.card_add, hm₁, hm₂]
  · rw [hused₂, hused₁, add_assoc]
  · rw [hin₂, hin₁, add_assoc]
  · exact hk₁.symm.good hg₂
  · refine (hf₁ s hs).trans (hf₂ s ?_)
    rw [hin₁, hused₁, ← add_assoc]
    exact add_le_add hs le_rfl

/-- An entry that is empty gets an empty indirect block. -/
structure EmptyAdded (fs : Fs) (l p e new : Nat) (fs' : Fs) : Prop where
  keeps : fs.Keeps fs'
  le : new + fs.img.sb.fragsPerBlock ≤ fs.img.sb.fragCount
  used : fs'.used = fs.used + extent new fs.img.sb.fragsPerBlock
  entry : be32 fs'.bytes (p * fs.img.sb.fragSize + e * 4) = new
  hole : fs.img.sb.kids fs.bytes l p e = .hole
  tree : fs.img.sb.tree fs'.bytes (l + 1) p =
    BlockTree.setKid p (fs.img.sb.kids fs.bytes l p) e (.node new fun _ => .hole)
  frame : ∀ s, s + extent p fs.img.sb.fragsPerBlock ≤ fs.used →
    SameOn fs.img.sb.fragSize s fs.bytes fs'.bytes

theorem emptyAdded {fs₁ fs₂ : Fs} {l p e pref new : Nat} {u : PUnit} (hp : p ≠ 0)
    (hs : fs.Opened)
    (hin : fs.img.sb.inner (fs.img.sb.tree fs.bytes (l + 2) p) ≤ fs.used)
    (he : e < fs.img.sb.entriesPerBlock)
    (hnull : be32 fs.bytes (p * fs.img.sb.fragSize + e * 4) = 0) (hnew : new ≠ 0)
    (halloc : allocateZeroedFullBlock pref fs = .ok new fs₁)
    (hwrite : writeIndirectEntry p e new fs₁ = .ok u fs₂) : EmptyAdded fs (l + 1) p e new fs₂ := by
  obtain ⟨hk₁, hnewle, hused₁, hsame₁, htree₁⟩ := allocateZeroedFullBlock_blank hs halloc hnew
  obtain ⟨-, hw⟩ := writeIndirectEntry_ok hwrite
  have hpatch := hw.bytes
  rw [hk₁.img] at hpatch
  have hle := hs.geometry.entries_le
  have hfresh : ∀ f ∈ extent new fs.img.sb.fragsPerBlock, f ∉ fs.used := by
    intro f hf hu
    have hnodup := fs₁.used_nodup
    rw [hused₁] at hnodup
    exact apart hnodup hu hf
  have hroot : extent p fs.img.sb.fragsPerBlock ≤ fs.used :=
    (Multiset.le_add_right _ _).trans ((kid_le (b := fs.bytes) (l := l + 1) hp he).trans hin)
  -- the write stays in the root block
  have hsame₂ : ∀ s : Multiset Nat, (∀ f ∈ s, f < p ∨ p + fs.img.sb.fragsPerBlock ≤ f) →
      SameOn fs.img.sb.fragSize s fs₁.bytes fs₂.bytes := by
    intro s hout
    have h := hw.sameOn (n := fs.img.sb.fragsPerBlock) (s := s)
    rw [hk₁.img] at h
    exact h (by omega) hout
  have hframe : ∀ s, s + extent p fs.img.sb.fragsPerBlock ≤ fs.used →
      SameOn fs.img.sb.fragSize s fs.bytes fs₂.bytes := by
    intro s hle'
    refine (hsame₁.mono ((Multiset.le_add_right _ _).trans hle')).trans (hsame₂ s fun f hf => ?_)
    have hout := apart_of_le fs.used_nodup hle' hf
    rw [mem_extent] at hout
    omega
  have hval : be32 fs₂.bytes (p * fs.img.sb.fragSize + e * 4) = new := by
    rw [hpatch, be32_patch_of_mem le_rfl (by omega), Nat.sub_self, be32_beBytes,
      Nat.mod_eq_of_lt (hs.pointer_lt hnewle)]
  have hother : ∀ k < fs.img.sb.entriesPerBlock, k ≠ e →
      be32 fs₂.bytes (p * fs.img.sb.fragSize + k * 4) =
        be32 fs.bytes (p * fs.img.sb.fragSize + k * 4) := by
    intro k hk hke
    rw [hpatch, be32_patch_of_disjoint (by omega)]
    exact hsame₁.be32_extent hp hroot (by omega)
  have hempty : fs.img.sb.tree fs₂.bytes (l + 1) new = .node new fun _ => .hole := by
    rw [← htree₁ l]
    refine BlockTree.load_congr hle (hsame₂ _ fun f hf => ?_)
    have hf' : f ∈ fs.img.sb.inner (fs.img.sb.tree fs₁.bytes (l + 1) new) := hf
    rw [htree₁ l] at hf'
    simp only [Superblock.inner, BlockTree.inner, Finset.sum_const_zero, add_zero] at hf'
    by_contra hc
    exact hfresh f hf' (Multiset.mem_of_le hroot (mem_extent.mpr ⟨hp, by omega⟩))
  refine ⟨hk₁.trans hw.keeps, hnewle, hw.used.trans hused₁, hval, ?_, ?_, hframe⟩
  · rw [kids_of_lt he, hnull]
    exact BlockTree.load_null _
  · rw [← hempty]
    refine BlockTree.load_setKid hle hp he hval hother fun k hk hke => hframe _ ?_
    rw [add_comm]
    exact (kid_le hp hk).trans hin

/-- An empty indirect block maps nothing, as its entry did. -/
theorem EmptyAdded.look {l p e new : Nat} {fs' : Fs} (h : EmptyAdded fs l p e new fs')
    (hp : p ≠ 0) (k : Nat) :
    fs.img.sb.look (fs.img.sb.tree fs'.bytes (l + 1) p) (l + 1) k =
      fs.img.sb.look (fs.img.sb.tree fs.bytes (l + 1) p) (l + 1) k := by
  rw [h.tree, Superblock.look, BlockTree.look_setKid, Superblock.look, tree_succ hp]
  split
  case isFalse => rfl
  case isTrue hke =>
    have hk := BlockTree.look_node (n := fs.img.sb.entriesPerBlock) p
      (fs.img.sb.kids fs.bytes l p) l k
    rw [hke, h.hole] at hk
    exact hk.symm

theorem EmptyAdded.inner {l p e new : Nat} {fs' : Fs} (h : EmptyAdded fs l p e new fs')
    (hp : p ≠ 0) (he : e < fs.img.sb.entriesPerBlock) :
    fs.img.sb.inner (fs.img.sb.tree fs'.bytes (l + 1) p) =
      fs.img.sb.inner (fs.img.sb.tree fs.bytes (l + 1) p) + extent new fs.img.sb.fragsPerBlock := by
  refine inner_below hp he h.tree ?_
  rw [h.hole]
  simp [Superblock.inner, BlockTree.inner]

theorem addEmptyBlock {fs₁ fs₂ : Fs} {l p base e pref new : Nat} {u : PUnit} (hp : p ≠ 0)
    (hs : fs.Sound)
    (hin : fs.img.sb.inner (fs.img.sb.tree fs.bytes (l + 2) p) ≤ fs.used)
    (hgood : fs.Good keep (fs.img.sb.tree fs.bytes (l + 2) p) (l + 2) base)
    (hkeep : base + e * fs.img.sb.entriesPerBlock ^ (l + 1) < keep)
    (hnull : be32 fs.bytes (p * fs.img.sb.fragSize + e * 4) = 0)
    (halloc : allocateZeroedFullBlock pref fs = .ok new fs₁)
    (hwrite : writeIndirectEntry p e new fs₁ = .ok u fs₂) :
    (new ≠ 0 ∧ be32 fs₂.bytes (p * fs.img.sb.fragSize + e * 4) = new) ∧
      TreeStep keep fs (l + 2) p base
        (fs.img.sb.look (fs.img.sb.tree fs.bytes (l + 2) p) (l + 2)) fs.img.sb.fragsPerBlock fs₂ := by
  obtain ⟨hk₁, hs₁, hnew, -, -, -⟩ := allocateZeroedFullBlock_ok hs halloc
  obtain ⟨he, hw⟩ := writeIndirectEntry_ok hwrite
  rw [hk₁.img] at he
  have h := emptyAdded hp hs.opened hin he hnull hnew.1 halloc hwrite
  refine ⟨⟨hnew.1, h.entry⟩, h.keeps, hw.sound hs₁,
    ⟨_, card_extent hnew.1, h.used, h.inner hp he⟩, ?_, fun k _ => h.look hp k, ?_⟩
  · rw [tree_succ hp] at hgood
    rw [h.tree]
    exact BlockTree.Good.setKid hgood ⟨by omega, hnew, hkeep, fun _ _ => trivial⟩
  · exact fun s hs' => h.frame s (le_trans (add_le_add le_rfl
      ((Multiset.le_add_right _ _).trans (kid_le hp he))) hs')

/-- A pointer set in a leaf block. -/
theorem tree_leaf {fs' : Fs} {p i d : Nat} {u : PUnit} (hp : p ≠ 0) (hs : fs.Opened)
    (hd : d < 4294967296) (h : writeIndirectEntry p i d fs = .ok u fs') :
    fs.img.sb.tree fs'.bytes 1 p =
      BlockTree.setKid p (fs.img.sb.kids fs.bytes 0 p) i (fs.img.sb.tree fs'.bytes 0 d) := by
  obtain ⟨hi, hw⟩ := writeIndirectEntry_ok h
  have hle := hs.geometry.entries_le
  have hval : be32 fs'.bytes (p * fs.img.sb.fragSize + i * 4) = d := by
    rw [hw.bytes, be32_patch_of_mem le_rfl (by omega), Nat.sub_self, be32_beBytes,
      Nat.mod_eq_of_lt hd]
  refine BlockTree.load_setKid hle hp hi hval (fun k hk hke => ?_) fun k hk hke => ?_
  · rw [hw.bytes, be32_patch_of_disjoint (by omega)]
  · rw [BlockTree.inner_load_zero]
    exact SameOn.empty _ _ _

/-- A leaf's data is no indirect block. -/
theorem inner_leaf {b b' : ByteStore} {sb : Superblock} {p i d : Nat} (hp : p ≠ 0)
    (hi : i < sb.entriesPerBlock)
    (htree : sb.tree b' 1 p = BlockTree.setKid p (sb.kids b 0 p) i (sb.tree b' 0 d)) :
    sb.inner (sb.tree b' 1 p) = sb.inner (sb.tree b 1 p) := by
  have h := inner_below (M := 0) hp hi htree (by
    rw [kids_of_lt hi, add_zero]
    exact (BlockTree.inner_load_zero _).trans (BlockTree.inner_load_zero _).symm)
  rwa [add_zero] at h

theorem look_leaf {b b' : ByteStore} {sb : Superblock} {p i d : Nat} (hp : p ≠ 0)
    (htree : sb.tree b' 1 p = BlockTree.setKid p (sb.kids b 0 p) i (sb.tree b' 0 d)) (k : Nat) :
    sb.look (sb.tree b' 1 p) 1 k = if k = i then d else sb.look (sb.tree b 1 p) 1 k := by
  rw [htree, Superblock.look, BlockTree.look_setKid, Superblock.look, tree_succ hp,
    Nat.pow_zero, Nat.div_one]
  split
  · exact BlockTree.look_zero _ _
  · rfl

/-- A write to an indirect block leaves what is apart from it. -/
theorem writeIndirectEntry_frame {fs' : Fs} {p i d : Nat} {u : PUnit} (hs : fs.Opened) (hp : p ≠ 0)
    (h : writeIndirectEntry p i d fs = .ok u fs') (s : Multiset Nat)
    (hle : s + extent p fs.img.sb.fragsPerBlock ≤ fs.used) :
    SameOn fs.img.sb.fragSize s fs.bytes fs'.bytes := by
  obtain ⟨hi, hw⟩ := writeIndirectEntry_ok h
  have hent := hs.geometry.entries_le
  refine hw.sameOn (n := fs.img.sb.fragsPerBlock) (by omega) fun f hf => ?_
  have hout := apart_of_le fs.used_nodup hle hf
  rw [mem_extent] at hout
  omega

/-- Setting a data pointer in a leaf block. -/
theorem setLeaf {fs' : Fs} {p base i d : Nat} {u : PUnit} (hp : p ≠ 0) (hs : fs.Sound)
    (hgood : fs.Good keep (fs.img.sb.tree fs.bytes 1 p) 1 base) (hd : fs.BlockOk d)
    (hkeep : base + i < keep) (h : writeIndirectEntry p i d fs = .ok u fs') :
    SetEntry keep fs 1 p base i d 0 fs' := by
  obtain ⟨hi, hw⟩ := writeIndirectEntry_ok h
  have htree := tree_leaf hp hs.opened (hs.pointer_lt hd.2) h
  have hroot : extent p fs.img.sb.fragsPerBlock ≤
      fs.img.sb.inner (fs.img.sb.tree fs.bytes 1 p) :=
    (Multiset.le_add_right _ _).trans (kid_le hp hi)
  rw [tree_succ hp] at hgood
  refine ⟨hw.keeps, hw.sound hs, ⟨0, rfl, by rw [hw.used, add_zero], ?_⟩, ?_,
    fun k _ => look_leaf hp htree k, ?_⟩
  · rw [inner_leaf hp hi htree, add_zero]
  · have hdata : fs.img.sb.tree fs'.bytes 0 d = .data d := if_neg hd.1
    rw [htree, hdata]
    exact BlockTree.Good.setKid hgood ⟨rfl, hd, by simpa using hkeep⟩
  · exact fun s hs' => writeIndirectEntry_frame hs.opened hp h s ((add_le_add le_rfl hroot).trans hs')

/-- `nextufs__set_indirect_data_block`. -/
theorem setIndirectDataBlock_ok {pref d : Nat} : ∀ {l p base i m : Nat} {fs fs' : Fs}, p ≠ 0 →
    fs.Sound → fs.img.sb.inner (fs.img.sb.tree fs.bytes l p) ≤ fs.used →
    fs.Good keep (fs.img.sb.tree fs.bytes l p) l base → fs.BlockOk d →
    i < fs.img.sb.entriesPerBlock ^ l → base + i < keep →
    setIndirectDataBlock pref l p i d fs = .ok m fs' → SetEntry keep fs l p base i d m fs'
  | 0, _, _, _, _, _, _, _, _, _, _, _, _, _, h => by simp [setIndirectDataBlock, throw_ok] at h
  | 1, p, base, i, m, fs, fs', hp, hs, hin, hgood, hd, hi, hkeep, h => by
      simp only [setIndirectDataBlock, if_true, bind_ok, pure_ok] at h
      obtain ⟨_, _, hwrite, rfl, rfl⟩ := h
      exact setLeaf hp hs hgood hd hkeep hwrite
  | l + 2, p, base, i, m, fs, fs', hp, hs, hin, hgood, hd, hi, hkeep, h => by
      obtain ⟨he, hr⟩ := BlockTree.kid_lt hi
      have hidx := Nat.div_add_mod' i (fs.img.sb.entriesPerBlock ^ (l + 1))
      rw [setIndirectDataBlock, if_neg (by omega)] at h
      simp only [bind_ok, get_ok] at h
      obtain ⟨_, _, ⟨rfl, rfl⟩, next, _, hread, h⟩ := h
      obtain ⟨-, hnext, rfl⟩ := readIndirectEntry_ok hread
      split at h
      case isTrue hnull =>
        simp only [bind_ok, pure_ok] at h
        obtain ⟨new, fs₁, halloc, _, fs₂, hwrite, m', fs₃, hset, rfl, rfl⟩ := h
        have hkid : base + i / fs.img.sb.entriesPerBlock ^ (l + 1) *
            fs.img.sb.entriesPerBlock ^ (l + 1) < keep := by
          have := Nat.div_mul_le_self i (fs.img.sb.entriesPerBlock ^ (l + 1))
          omega
        obtain ⟨⟨hnew, hval⟩, hstep⟩ := addEmptyBlock hp hs hin hgood hkid
          (hnext.symm.trans hnull) halloc hwrite
        have himg := hstep.keeps.img
        obtain ⟨M, -, hused, hinner⟩ := hstep.used
        have hin₂ : fs₂.img.sb.inner (fs₂.img.sb.tree fs₂.bytes (l + 2) p) ≤ fs₂.used := by
          rw [himg, hinner, hused]
          exact add_le_add hin le_rfl
        have hgood₂ : fs₂.Good keep (fs₂.img.sb.tree fs₂.bytes (l + 2) p) (l + 2) base := by
          rw [himg]
          exact hstep.keeps.good hstep.good
        have hset' : SetEntry keep fs₂ (l + 2) p base i d m' fs₃ := by
          rw [← himg] at he hr hval hidx hset
          rw [← hval] at hset
          exact SetEntry.descend hp hstep.sound hin₂ hgood₂ he
            (setIndirectDataBlock_ok (by rwa [hval]) hstep.sound
              (((Multiset.le_add_left _ _).trans (kid_le hp he)).trans hin₂)
              (kid_good hp hgood₂ he) (hstep.keeps.blockOk hd) hr (by omega) hset)
        refine (hstep.trans hset').of_look fun k hk => ?_
        rw [himg, hstep.look k hk]
      case isFalse hnull =>
        subst hnext
        exact SetEntry.descend hp hs hin hgood he (setIndirectDataBlock_ok hnull hs
          (((Multiset.le_add_left _ _).trans (kid_le hp he)).trans hin) (kid_good hp hgood he) hd hr
          (by omega) h)

end

end NextUfs.Core
