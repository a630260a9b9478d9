/-
NextUfs.Core.ReserveTheorems — the reserve below which an unprivileged caller
gets no space.

`reserve_available` compares what is asked for with counters the same
transaction is changing. They are right as long as the filesystem is
consistent: `available_eq` makes them the number of free fragments, so an
allocation takes off exactly the fragments it hands out, and what was left
above the reserve before it is still there after it. `Fs.Reserved` is the
invariant, and each route to the allocator keeps it.
-/
import NextUfs.Core.AllocCheckedTheorems
import NextUfs.Core.BlockMapTheorems
import Mathlib.Algebra.BigOperators.Ring.Finset

namespace NextUfs.Core

open NextUfs.Lib NextUfs.Lib.ByteStore NextUfs.Lib.StateResult NextUfs.Lib.Runs
open NextUfs.Lib.Extents

/-! ## Free space -/

/-- The free space `reserve_available` reads off the totals. -/
def Fs.available (fs : Fs) : Nat :=
  fs.totals.nbfree.toNat * fs.img.sb.fragsPerBlock + fs.totals.nffree.toNat

/-- What is kept back. -/
def Fs.reserve (fs : Fs) : Nat := fs.img.sb.dataFragCount * fs.img.sb.minfree / 100

/-- The fragments the free maps offer. -/
def Fs.freeCount (fs : Fs) : Nat :=
  ones fs.isFree 0 (fs.img.sb.cgCount * fs.img.sb.fragsPerGroup)

/-- A block's share of the two counters is its free fragments. -/
theorem blockFull_add_blockFrags (fpb b : Nat) (free : Nat → Bool) :
    blockFull fpb b free * fpb + blockFrags fpb b free = ones free (b * fpb) fpb := by
  unfold blockFull blockFrags
  by_cases h : allSet free (b * fpb) fpb = true
  · rw [if_pos h, if_pos h, ones_of_all (allSet_iff.mp h), Nat.one_mul, Nat.add_zero]
  · rw [if_neg h, if_neg h, Nat.zero_mul, Nat.zero_add]

/-- A group's counters, taken together. -/
theorem Cg.Consistent.free_eq {sb : Superblock} (hg : Geometry sb) {cg : Cg}
    (hc : cg.Consistent sb) :
    cg.cs.nbfree.toNat * sb.fragsPerBlock + cg.cs.nffree.toNat =
      ones cg.free 0 sb.fragsPerGroup := by
  have hfpb := hg.fpb_pos
  have hcover : cg.ndblk ≤ cg.blocks sb.fragsPerBlock * sb.fragsPerBlock := by
    have h₁ := Nat.div_add_mod' (cg.ndblk + sb.fragsPerBlock - 1) sb.fragsPerBlock
    have h₂ := Nat.mod_lt (cg.ndblk + sb.fragsPerBlock - 1) hfpb
    unfold Cg.blocks
    omega
  have hblocks : cg.cs.nbfree.toNat * sb.fragsPerBlock + cg.cs.nffree.toNat =
      ∑ b ∈ Finset.range (cg.blocks sb.fragsPerBlock),
        ones cg.free (b * sb.fragsPerBlock) sb.fragsPerBlock := by
    rw [hc.nbfree, hc.nffree, Cg.total, Cg.total, Finset.sum_mul, ← Finset.sum_add_distrib]
    exact Finset.sum_congr rfl fun b _ => blockFull_add_blockFrags ..
  rw [hblocks, sum_ones, ones_of_lt hc.free_lt hcover, ones_of_lt hc.free_lt hc.ndblk_le]

/-- The totals count the free fragments of the whole filesystem. -/
theorem Fs.Consistent.available_eq {fs : Fs} (hg : Geometry fs.img.sb) (hc : fs.Consistent) :
    fs.available = fs.freeCount := by
  have hgroup : ∀ c < fs.img.sb.cgCount,
      (fs.csum c).nbfree.toNat * fs.img.sb.fragsPerBlock + (fs.csum c).nffree.toNat =
        ones fs.isFree (c * fs.img.sb.fragsPerGroup) fs.img.sb.fragsPerGroup := by
    intro c hcc
    rw [hc.summary c hcc, (hc.group c hcc).free_eq hg]
    refine count_congr fun i hi => ?_
    rw [Fs.isFree, add_mul_div hi, add_mul_mod hi, Nat.zero_add]
  rw [Fs.available, hc.nbfree, hc.nffree, Fs.sumWord, Fs.sumWord, Finset.sum_mul,
    ← Finset.sum_add_distrib, Fs.freeCount, ← sum_ones]
  exact Finset.sum_congr rfl fun c hc => hgroup c (Finset.mem_range.mp hc)

/-- A run lies among the fragments the maps cover. -/
theorem Fs.RunOk.le_groups {fs : Fs} {p n : Nat} (hc : fs.Consistent) (h : fs.RunOk p n) :
    p + n ≤ fs.img.sb.cgCount * fs.img.sb.fragsPerGroup := by
  have h₁ := h.inGroup
  have h₂ := (hc.group _ h.group).ndblk_le
  have h₃ := Nat.div_add_mod' p fs.img.sb.fragsPerGroup
  have h₄ := Nat.mul_le_mul_right fs.img.sb.fragsPerGroup (Nat.succ_le_of_lt h.group)
  rw [Nat.succ_mul] at h₄
  omega

/-- An allocation takes off what it hands out. -/
theorem Took.freeCount_eq {fs fs' : Fs} {p n : Nat} (hc : fs.Consistent) (h : Took fs p n fs') :
    fs.freeCount = fs'.freeCount + n := by
  unfold Fs.freeCount
  rw [h.same.img]
  refine ones_of_cleared (s := p) (h.run.le_groups hc) (fun i hi => ?_) (fun i hi => ?_)
    fun i _ hi => ?_
  · exact h.wasFree _ (by omega) (by omega)
  · rw [h.bits, if_pos (by omega)]
  · rw [h.bits, if_neg (by omega)]

theorem Gave.freeCount_le {fs fs' : Fs} {p n : Nat} (h : Gave fs p n fs') :
    fs.freeCount ≤ fs'.freeCount := by
  unfold Fs.freeCount
  rw [h.same.img]
  refine ones_mono fun f hf => ?_
  rw [h.bits]
  split
  · rfl
  · exact hf

/-! ## The invariant -/

/-- A consistent filesystem in an unprivileged caller's hands, the reserve still there. -/
structure Fs.Reserved (fs : Fs) : Prop where
  opened : fs.Opened
  unprivileged : fs.img.unprivileged = true
  consistent : fs.Consistent
  enough : fs.reserve ≤ fs.available

section
variable {fs fs' : Fs} {n : Nat}

theorem Fs.Reserved.geometry (h : fs.Reserved) : Geometry fs.img.sb := h.opened.geometry

/-- What has as many free fragments as the reserve keeps it. -/
theorem Fs.Reserved.of_free (h : fs.Reserved) (himg : fs'.img = fs.img) (hc : fs'.Consistent)
    (hfree : fs.reserve ≤ fs'.freeCount) : fs'.Reserved := by
  have hg : Geometry fs'.img.sb := by
    rw [himg]
    exact h.geometry
  refine ⟨h.opened.of_img himg, by rw [himg]; exact h.unprivileged, hc, ?_⟩
  rw [hc.available_eq hg, Fs.reserve, himg]
  exact hfree

theorem Fs.Reserved.withBytes (h : fs.Reserved) (b : ByteStore) :
    Fs.Reserved { fs with bytes := b } :=
  ⟨h.opened.of_img rfl, h.unprivileged, h.consistent.withBytes b, h.enough⟩

/-- Free fragments and fragments in use make up the filesystem. -/
theorem Fs.Sound.freeCount_add_used (hs : fs.Sound) :
    fs.freeCount + fs.used.card = fs.img.sb.fragCount := by
  have hg := hs.geometry
  have hcover : fs.img.sb.fragCount ≤ fs.img.sb.cgCount * fs.img.sb.fragsPerGroup := by
    have h₁ := Nat.div_add_mod' (fs.img.sb.fragCount + fs.img.sb.fragsPerGroup - 1)
      fs.img.sb.fragsPerGroup
    have h₂ := Nat.mod_lt (fs.img.sb.fragCount + fs.img.sb.fragsPerGroup - 1) hg.fpg_pos
    rw [← hg.cg_count] at h₁
    omega
  have hwindow : (Finset.range (fs.img.sb.cgCount * fs.img.sb.fragsPerGroup)).filter
      (fun f => fs.isFree f = true) =
      (Finset.range fs.img.sb.fragCount).filter fun f => fs.isFree f = true := by
    ext f
    simp only [Finset.mem_filter, Finset.mem_range]
    refine and_congr_left fun hfree => ⟨fun hlt => ?_, fun hlt => by omega⟩
    have hcc : f / fs.img.sb.fragsPerGroup < fs.img.sb.cgCount :=
      Nat.div_lt_of_lt_mul (by rwa [Nat.mul_comm])
    have h₁ := hs.fits _ hcc
    have h₂ := (hs.consistent.group _ hcc).free_lt _ hfree
    have h₃ := Nat.div_add_mod' f fs.img.sb.fragsPerGroup
    omega
  have hcount : fs.freeCount =
      ((Finset.range fs.img.sb.fragCount).filter fun f => fs.isFree f = true).card := by
    rw [← hwindow, Fs.freeCount, ones, Nat.count_eq_card_filter_range]
    simp only [Nat.zero_add]
  have hsplit := Finset.card_filter_add_card_filter_not (s := Finset.range fs.img.sb.fragCount)
    fun f => fs.isFree f = true
  simp only [Bool.not_eq_true, Finset.card_range] at hsplit
  rw [hcount]
  exact hsplit

/-- Space went or came back, and the reserve is there. -/
structure Fs.Spared (fs fs' : Fs) : Prop where
  img : fs'.img = fs.img
  ndblk : ∀ c, (fs'.cg c).ndblk = (fs.cg c).ndblk
  reserved : fs'.Reserved

theorem Fs.Reserved.spared (h : fs.Reserved) : fs.Spared fs := ⟨rfl, fun _ => rfl, h⟩

theorem Fs.Spared.trans {fs₁ fs₂ : Fs} (h₁ : fs.Spared fs₁) (h₂ : fs₁.Spared fs₂) :
    fs.Spared fs₂ :=
  ⟨h₂.img.trans h₁.img, fun c => (h₂.ndblk c).trans (h₁.ndblk c), h₂.reserved⟩

theorem Fs.Spared.runOk {p : Nat} (h : fs.Spared fs') (hr : fs.RunOk p n) : fs'.RunOk p n :=
  hr.of_ndblk h.img h.ndblk

/-- Counters and inodes are apart. -/
theorem Fs.Reserved.withInode (h : fs.Reserved) (t : Nat → Inode) :
    fs.Spared { fs with inode := t } :=
  ⟨rfl, fun _ => rfl, h.opened.of_img rfl, h.unprivileged,
    ⟨h.consistent.group, h.consistent.summary, h.consistent.ndir, h.consistent.nbfree,
      h.consistent.nifree, h.consistent.nffree⟩, h.enough⟩

/-- No more fragments in use than before. -/
theorem Fs.Reserved.of_used (h : fs.Reserved) (hs : fs.Sound) (hs' : fs'.Sound)
    (hk : fs.Keeps fs') (hle : fs'.used.card ≤ fs.used.card) : fs.Spared fs' := by
  refine ⟨hk.img, hk.ndblk, h.of_free hk.img hs'.consistent ?_⟩
  have h₁ := hs.freeCount_add_used
  have h₂ := hs'.freeCount_add_used
  have h₃ := h.enough
  rw [h.consistent.available_eq h.geometry] at h₃
  rw [hk.img] at h₂
  omega

/-- The check passes when the request fits in what is above the reserve. -/
theorem reserveAvailable_enough {u : PUnit} (hun : fs.img.unprivileged = true)
    (h : reserveAvailable n fs = .ok u fs') : fs.reserve + n ≤ fs.available := by
  simp only [reserveAvailable, bind_ok, get_ok] at h
  obtain ⟨_, _, ⟨rfl, rfl⟩, h⟩ := h
  rw [if_pos hun] at h
  simp only [bind_ok, check_ok] at h
  obtain ⟨_, _, ⟨-, rfl⟩, hfits, -⟩ := h
  unfold Fs.reserve Fs.available
  omega

/-- An allocation that passed the check leaves the reserve. -/
theorem Took.spared {p : Nat} (h : fs.Reserved) (hn : fs.reserve + n ≤ fs.available)
    (ht : Took fs p n fs') : fs.Spared fs' := by
  refine ⟨ht.same.img, ht.same.ndblk, h.of_free ht.same.img ht.consistent ?_⟩
  have hcount := ht.freeCount_eq h.consistent
  rw [h.consistent.available_eq h.geometry] at hn
  omega

theorem Gave.spared {p : Nat} (h : fs.Reserved) (hgave : Gave fs p n fs') : fs.Spared fs' := by
  refine ⟨hgave.same.img, hgave.same.ndblk, h.of_free hgave.same.img hgave.consistent ?_⟩
  refine le_trans ?_ hgave.freeCount_le
  rw [← h.consistent.available_eq h.geometry]
  exact h.enough

/-! ## The allocator's calls

Each is about the state a call leaves, whether it succeeded or failed. -/

theorem spared_bind {α β : Type} {x : FsM α} {f : α → FsM β} (hx : fs.Spared (final (x fs)))
    (hf : ∀ a fs₁, x fs = .ok a fs₁ → fs₁.Reserved → fs₁.Spared (final (f a fs₁))) :
    fs.Spared (final ((x >>= f) fs)) :=
  final_bind hx fun a fs₁ hok h₁ => h₁.trans (hf a fs₁ hok h₁.reserved)

theorem check_spared {p : Prop} [Decidable p] {e : Errno} (h : fs.Reserved) :
    fs.Spared (final ((check p e : FsM PUnit) fs)) := by
  unfold check
  split
  · exact h.spared
  · exact h.spared

theorem failAs_spared {α : Type} {x : FsM α} {e : Errno} (h : fs.Spared (final (x fs))) :
    fs.Spared (final (failAs e x fs)) := by
  unfold failAs
  cases hx : x fs with
  | ok a fs₁ =>
    rw [hx] at h
    exact h
  | error e' fs₁ =>
    rw [hx] at h
    exact h

theorem readSlice_spared {size off : Nat} (h : fs.Reserved) :
    fs.Spared (final (readSlice size off fs)) :=
  spared_bind h.spared fun _ _ _ h₁ => spared_bind (check_spared h₁) fun _ _ _ h₂ => h₂.spared

theorem writeSlice_spared {buf : ByteStore} {size off : Nat} (h : fs.Reserved) :
    fs.Spared (final (writeSlice buf size off fs)) := by
  refine spared_bind h.spared fun _ _ _ h₁ => ?_
  refine spared_bind (check_spared h₁) fun _ _ _ h₂ => ?_
  exact spared_bind (check_spared h₂) fun _ _ _ h₃ => ⟨rfl, fun _ => rfl, h₃.withBytes _⟩

theorem allocateFragsAnycg_spared {pref : Nat} (h : fs.Reserved) :
    fs.Spared (final (allocateFragsAnycg pref n fs)) := by
  cases ha : allocateFragsAnycg pref n fs with
  | ok p fs₁ =>
    have htook := allocateFragsAnycg_ok h.geometry h.consistent ha
    simp only [allocateFragsAnycg, bind_ok] at ha
    obtain ⟨_, _, hres, -⟩ := ha
    exact htook.spared h (reserveAvailable_enough h.unprivileged hres)
  | error e fs₁ =>
    rw [allocateFragsAnycg_error (.inr h.opened) ha]
    exact h.spared

/-- An extension is charged for what it adds. -/
theorem extendFragmentRun_spared {p old new : Nat} (h : fs.Reserved) (hrun : fs.RunOk p old)
    (hused : fs.Used p old) : fs.Spared (final (extendFragmentRun p old new fs)) := by
  cases he : extendFragmentRun p old new fs with
  | ok u fs₁ =>
    obtain ⟨htook, -⟩ := extendFragmentRun_ok h.geometry h.consistent hrun hused he
    simp only [extendFragmentRun, bind_ok, get_ok, check_ok] at he
    obtain ⟨_, _, ⟨rfl, rfl⟩, _, _, ⟨-, rfl⟩, _, _, hres, -⟩ := he
    exact htook.spared h (reserveAvailable_enough h.unprivileged hres)
  | error e fs₁ =>
    rw [extendFragmentRun_error he (.inr ⟨h.opened, hrun.group⟩)]
    exact h.spared

theorem freeFragmentRun_spared {p : Nat} (h : fs.Reserved) (hrun : fs.RunOk p n) :
    fs.Spared (final (freeFragmentRun p n fs)) := by
  cases hf : freeFragmentRun p n fs with
  | ok u fs₁ => exact (freeFragmentRun_ok h.geometry h.consistent hrun hf).spared h
  | error e fs₁ =>
    rw [freeFragmentRun_error h.opened hrun.group hf]
    exact h.spared

/-- A move is charged for the whole new run, before the old one is given back. -/
theorem reallocateFragmentRun_spared {old oldFrags newFrags pref : Nat} (h : fs.Reserved)
    (hrun : fs.RunOk old oldFrags) :
    fs.Spared (final (reallocateFragmentRun old oldFrags newFrags pref fs)) := by
  unfold reallocateFragmentRun
  rw [get_bind]
  refine spared_bind (readSlice_spared h) fun tmp _ hread h => ?_
  obtain ⟨-, -, rfl⟩ := readSlice_ok hread
  refine final_bind (allocateFragsAnycg_spared h) fun a fs₁ _ h₁ => h₁.trans ?_
  refine final_bind (writeSlice_spared h₁.reserved) fun _ fs₂ _ h₂ => h₂.trans ?_
  refine spared_bind (freeFragmentRun_spared h₂.reserved ((h₁.trans h₂).runOk hrun)) ?_
  exact fun _ _ _ h₃ => h₃.spared

theorem AllocCall.spared {call : AllocCall} (h : fs.Reserved) (hv : call.Valid fs) :
    fs.Spared (final (call.run fs)) := by
  cases call with
  | allocate pref n => exact allocateFragsAnycg_spared h
  | extend p old new =>
    exact spared_bind (extendFragmentRun_spared h hv.1 hv.2) fun _ _ _ h₁ => h₁.spared
  | free p n => exact spared_bind (freeFragmentRun_spared h hv.1) fun _ _ _ h₁ => h₁.spared
  | reallocate old n new pref => exact reallocateFragmentRun_spared h hv.1

/-! ## Indirect blocks -/

theorem allocateZeroedFullBlock_spared {pref : Nat} (h : fs.Reserved) :
    fs.Spared (final (allocateZeroedFullBlock pref fs)) := by
  unfold allocateZeroedFullBlock allocateFullBlockAnycg
  rw [get_bind]
  refine spared_bind (allocateFragsAnycg_spared h) fun p fs₁ _ h₁ => ?_
  exact spared_bind (writeSlice_spared h₁) fun _ _ _ h₂ => h₂.spared

theorem readIndirectEntry_spared {p i : Nat} (h : fs.Reserved) :
    fs.Spared (final (readIndirectEntry p i fs)) := by
  unfold readIndirectEntry
  rw [get_bind]
  refine spared_bind (check_spared h) fun _ _ _ h₁ => ?_
  exact spared_bind (readSlice_spared h₁) fun _ _ _ h₂ => h₂.spared

theorem writeIndirectEntry_spared {p i v : Nat} (h : fs.Reserved) :
    fs.Spared (final (writeIndirectEntry p i v fs)) := by
  unfold writeIndirectEntry
  rw [get_bind]
  exact spared_bind (check_spared h) fun _ _ _ h₁ => writeSlice_spared h₁

/-- By induction on the level: an indirect block that is missing is one allocation more. -/
theorem setIndirectDataBlock_spared {pref data : Nat} :
    ∀ {level p i : Nat} {fs : Fs}, fs.Reserved →
      fs.Spared (final (setIndirectDataBlock pref level p i data fs)) := by
  intro level
  induction level with
  | zero => exact fun h => h.spared
  | succ level ih =>
    intro p i fs h
    rw [setIndirectDataBlock]
    split
    case isTrue => exact spared_bind (writeIndirectEntry_spared h) fun _ _ _ h₁ => h₁.spared
    case isFalse =>
      rw [get_bind]
      refine spared_bind (readIndirectEntry_spared h) fun next fs₁ _ h₁ => ?_
      split
      case isTrue =>
        refine spared_bind (allocateZeroedFullBlock_spared h₁) fun new fs₂ _ h₂ => ?_
        refine spared_bind (writeIndirectEntry_spared h₂) fun _ fs₃ _ h₃ => ?_
        exact spared_bind (ih h₃) fun _ _ _ h₄ => h₄.spared
      case isFalse => exact ih h₁

theorem setInodeDataBlock_spared {ino : Inode} {k data pref : Nat} (h : fs.Reserved) :
    fs.Spared (final (setInodeDataBlock ino k data pref fs)) := by
  unfold setInodeDataBlock
  rw [get_bind]
  split
  case isTrue => exact h.spared
  case isFalse =>
    cases fs.img.sb.indirectSlot k with
    | none => exact h.spared
    | some p =>
      obtain ⟨slot, index⟩ := p
      dsimp only
      split
      case isTrue =>
        refine spared_bind (allocateZeroedFullBlock_spared h) fun root fs₁ _ h₁ => ?_
        exact spared_bind (setIndirectDataBlock_spared h₁) fun _ _ _ h₂ => h₂.spared
      case isFalse => exact spared_bind (setIndirectDataBlock_spared h) fun _ _ _ h₁ => h₁.spared

/-! ## Refusals -/

/-- The fragments a call is charged for against the reserve, if it takes any. -/
def AllocCall.charge : AllocCall → Option Nat
  | allocate _ n => some n
  | extend _ old new => some (new - old)
  | free _ _ => none
  | reallocate _ _ newFrags _ => some newFrags

theorem allocateFragsAnycg_refused {pref : Nat} {e : Errno}
    (h : reserveAvailable n fs = .error e fs') : allocateFragsAnycg pref n fs = .error e fs := by
  rw [reserveAvailable_error h] at h
  exact bind_error.mpr (.inl h)

/-- A call the reserve check refuses fails and leaves the filesystem alone. The other error is
that of arguments the call rejects before it asks. -/
theorem AllocCall.refused {call : AllocCall} (hn : call.charge = some n)
    (h : reserveAvailable n fs = .error .ENOSPC fs') :
    call.run fs = .error .ENOSPC fs ∨ call.run fs = .error .EINVAL fs := by
  rw [reserveAvailable_error h] at h
  cases call with
  | free p k => cases hn
  | allocate pref k =>
    obtain rfl := Option.some.inj hn
    exact .inl (allocateFragsAnycg_refused h)
  | extend p old new =>
    obtain rfl := Option.some.inj hn
    by_cases hsize : old < new ∧ new ≤ fs.img.sb.fragsPerBlock
    · refine .inl (bind_error.mpr (.inl ?_))
      refine bind_error.mpr (.inr ⟨fs, fs, rfl, ?_⟩)
      refine bind_error.mpr (.inr ⟨⟨⟩, fs, check_ok.mpr ⟨hsize, rfl⟩, ?_⟩)
      exact bind_error.mpr (.inl h)
    · refine .inr (bind_error.mpr (.inl ?_))
      refine bind_error.mpr (.inr ⟨fs, fs, rfl, ?_⟩)
      exact bind_error.mpr (.inl (check_error.mpr ⟨hsize, rfl, rfl⟩))
  | reallocate old oldFrags new pref =>
    obtain rfl := Option.some.inj hn
    by_cases hin : fs.inImage (oldFrags * fs.img.sb.fragSize) (fs.fragOffset old)
    · have hread : readSlice (oldFrags * fs.img.sb.fragSize) (fs.fragOffset old) fs =
          .ok (fun i => fs.bytes (fs.fragOffset old + i)) fs :=
        bind_ok.mpr ⟨fs, fs, rfl, bind_ok.mpr ⟨⟨⟩, fs, check_ok.mpr ⟨hin, rfl⟩, rfl⟩⟩
      refine .inl (bind_error.mpr (.inr ⟨fs, fs, rfl, ?_⟩))
      refine bind_error.mpr (.inr ⟨_, fs, hread, ?_⟩)
      exact bind_error.mpr (.inl (allocateFragsAnycg_refused h))
    · refine .inr (bind_error.mpr (.inr ⟨fs, fs, rfl, ?_⟩))
      refine bind_error.mpr (.inl (bind_error.mpr (.inr ⟨fs, fs, rfl, ?_⟩)))
      exact bind_error.mpr (.inl (check_error.mpr ⟨hin, rfl, rfl⟩))

end

end NextUfs.Core
