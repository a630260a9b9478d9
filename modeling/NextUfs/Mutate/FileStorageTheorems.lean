/-
NextUfs.Mutate.FileStorageTheorems — taking and giving back the storage of a
whole file.

`Freed` is a step that gives fragments back and changes nothing else. Along the
data and then along the indirect blocks the steps add up to all the file owns
(`freeFileStorage_ok`).
-/
import NextUfs.Core.FileStorage
import NextUfs.Core.PathTheorems
import NextUfs.Mutate.FileTheorems

namespace NextUfs.Mutate

open NextUfs.Core NextUfs.Lib NextUfs.Lib.ByteStore NextUfs.Lib.StateResult NextUfs.Lib.Extents

/-! ## Giving fragments back -/

/-- The fragments `m` were in use and are not any more. -/
structure Freed (fs : Fs) (m : Multiset Nat) (fs' : Fs) : Prop where
  keeps : fs.Keeps fs'
  sound : fs'.Sound
  bytes : fs'.bytes = fs.bytes
  used : fs'.used + m = fs.used

theorem Freed.refl {fs : Fs} (hs : fs.Sound) : Freed fs 0 fs :=
  ⟨Fs.Keeps.refl fs, hs, rfl, add_zero _⟩

theorem Freed.trans {fs fs₁ fs₂ : Fs} {m n : Multiset Nat} (h₁ : Freed fs m fs₁)
    (h₂ : Freed fs₁ n fs₂) : Freed fs (m + n) fs₂ :=
  ⟨h₁.keeps.trans h₂.keeps, h₂.sound, h₂.bytes.trans h₁.bytes, by
    rw [← h₁.used, ← h₂.used]
    abel⟩

theorem freeFragmentRun_freed {fs fs' : Fs} {p n : Nat} {u : PUnit} (hs : fs.Sound) (hp : p ≠ 0)
    (hrun : fs.RunOk p n) (hle : extent p n ≤ fs.used)
    (h : freeFragmentRun p n fs = .ok u fs') : Freed fs (extent p n) fs' := by
  have hg := freeFragmentRun_ok hs.geometry hs.consistent hrun h
  exact ⟨hg.keeps, hg.sound hs hp, hg.same.bytes, hg.used_eq hp hle⟩

/-- What is left of the fragments to free is in use still. -/
theorem Freed.le {fs fs' : Fs} {m n : Multiset Nat} (h : Freed fs m fs') (hle : m + n ≤ fs.used) :
    n ≤ fs'.used := by
  rw [← h.used, add_comm] at hle
  exact le_of_add_le_add_right hle

section
variable {fs fs' : Fs} {keep : Nat}

/-- The loop over the entries of an indirect block, its bytes being those of `b` all the time. -/
theorem freeEntries_ok {visit : Nat → FsM PUnit} {own : Nat → Multiset Nat} {p : Nat}
    {b : ByteStore} {ok : Fs → Nat → Prop}
    (hvisit : ∀ {fs fs' : Fs} {q : Nat} {u : PUnit}, fs.Sound → fs.bytes = b → ok fs q → q ≠ 0 →
      own q ≤ fs.used → visit q fs = .ok u fs' → Freed fs (own q) fs')
    (hok : ∀ {fs fs' : Fs} {q : Nat}, fs.Keeps fs' → ok fs q → ok fs' q) (hnull : own 0 = 0) :
    ∀ {n i : Nat} {fs fs' : Fs} {u : PUnit}, fs.Sound → fs.bytes = b →
      (∀ e, i ≤ e → e < i + n → ok fs (be32 b (p * fs.img.sb.fragSize + e * 4))) →
      ∑ e ∈ Finset.range n, own (be32 b (p * fs.img.sb.fragSize + (i + e) * 4)) ≤ fs.used →
      freeEntries visit p n i fs = .ok u fs' →
      Freed fs (∑ e ∈ Finset.range n, own (be32 b (p * fs.img.sb.fragSize + (i + e) * 4))) fs' := by
  intro n
  induction n with
  | zero =>
    intro i fs fs' u hs _ _ _ h
    obtain ⟨-, rfl⟩ := pure_ok.mp h
    exact Freed.refl hs
  | succ n ih =>
    intro i fs fs' u hs hb hall hle h
    rw [freeEntries] at h
    obtain ⟨child, _, hread, h⟩ := bind_ok.mp h
    obtain ⟨-, rfl, rfl⟩ := readIndirectEntry_ok hread
    rw [hb] at h
    obtain ⟨_, fs₁, hhead, hrest⟩ := bind_ok.mp h
    rw [Finset.sum_range_succ', Nat.add_zero, add_comm] at hle
    -- the head entry, null or not
    have hfreed : Freed fs (own (be32 b (p * fs.img.sb.fragSize + i * 4))) fs₁ := by
      unfold unlessNull at hhead
      split at hhead
      case isTrue hnone =>
        obtain ⟨-, rfl⟩ := pure_ok.mp hhead
        rw [hnone, hnull]
        exact Freed.refl hs
      case isFalse hne =>
        exact hvisit hs hb (hall i le_rfl (by omega)) hne
          ((Multiset.le_add_right _ _).trans hle) hhead
    have himg := hfreed.keeps.img
    have hshift : ∑ e ∈ Finset.range n, own (be32 b (p * fs.img.sb.fragSize + (i + (e + 1)) * 4)) =
        ∑ e ∈ Finset.range n, own (be32 b (p * fs.img.sb.fragSize + (i + 1 + e) * 4)) :=
      Finset.sum_congr rfl fun e _ => by rw [Nat.add_assoc i, Nat.add_comm 1]
    rw [hshift] at hle
    have hlast := ih hfreed.sound (hfreed.bytes.trans hb)
      (fun e h₁ h₂ => by
        rw [himg]
        exact hok hfreed.keeps (hall e (by omega) (by omega)))
      (by rw [himg]; exact hfreed.le hle) hrest
    rw [himg] at hlast
    rw [Finset.sum_range_succ', Nat.add_zero, add_comm, hshift]
    exact hfreed.trans hlast

/-- `nextufs__free_indirect_metadata_tree` gives back the indirect blocks of a tree. -/
theorem freeIndirectMetadataTree_ok : ∀ {below p base : Nat} {fs fs' : Fs} {u : PUnit}, fs.Sound →
    fs.Good keep (fs.img.sb.tree fs.bytes (below + 1) p) (below + 1) base →
    fs.img.sb.inner (fs.img.sb.tree fs.bytes (below + 1) p) ≤ fs.used →
    freeIndirectMetadataTree below p fs = .ok u fs' →
    Freed fs (fs.img.sb.inner (fs.img.sb.tree fs.bytes (below + 1) p)) fs' := by
  intro below
  induction below with
  | zero =>
    intro p base fs fs' u hs hgood hle h
    rw [freeIndirectMetadataTree] at h
    split at h
    case isTrue hp =>
      obtain ⟨-, rfl⟩ := pure_ok.mp h
      rw [hp, Superblock.tree, BlockTree.load_null]
      exact Freed.refl hs
    case isFalse hp =>
      simp only [bind_ok, get_ok] at h
      obtain ⟨_, _, ⟨rfl, rfl⟩, hfree⟩ := h
      have hok := ((BlockTree.good_load hp).mp hgood).1
      rw [Superblock.tree, Superblock.inner, BlockTree.inner_load hp] at hle ⊢
      simp only [BlockTree.inner_load_zero, Finset.sum_const_zero, add_zero] at hle ⊢
      exact freeFragmentRun_freed hs hp hok.2 hle hfree
  | succ below ih =>
    intro p base fs fs' u hs hgood hle h
    rw [freeIndirectMetadataTree] at h
    split at h
    case isTrue hp =>
      obtain ⟨-, rfl⟩ := pure_ok.mp h
      rw [hp, Superblock.tree, BlockTree.load_null]
      exact Freed.refl hs
    case isFalse hp =>
      simp only [bind_ok, get_ok] at h
      obtain ⟨_, _, ⟨rfl, rfl⟩, _, fs₁, hentries, hfree⟩ := h
      obtain ⟨hok, -, hkids⟩ := (BlockTree.good_load hp).mp hgood
      rw [Superblock.tree, Superblock.inner, BlockTree.inner_load hp] at hle ⊢
      have hentry : ∑ e ∈ Finset.range fs.img.sb.entriesPerBlock,
          fs.img.sb.inner (fs.img.sb.tree fs.bytes (below + 1)
            (be32 fs.bytes (p * fs.img.sb.fragSize + (0 + e) * 4))) =
          ∑ e ∈ Finset.range fs.img.sb.entriesPerBlock,
            (BlockTree.load fs.img.sb.entriesPerBlock fs.img.sb.fragSize fs.bytes (below + 1)
              (be32 fs.bytes (p * fs.img.sb.fragSize + e * 4))).inner fs.img.sb.entriesPerBlock
              fs.img.sb.fragsPerBlock :=
        Finset.sum_congr rfl fun e _ => by
          rw [Nat.zero_add]
          rfl
      have hloop : Freed fs (∑ e ∈ Finset.range fs.img.sb.entriesPerBlock,
          fs.img.sb.inner (fs.img.sb.tree fs.bytes (below + 1)
            (be32 fs.bytes (p * fs.img.sb.fragSize + (0 + e) * 4)))) fs₁ := by
        refine @freeEntries_ok _ (fun q => fs.img.sb.inner (fs.img.sb.tree fs.bytes (below + 1) q))
          p fs.bytes (fun fs' q => fs'.img = fs.img ∧
            ∃ base, fs'.Good keep (fs.img.sb.tree fs.bytes (below + 1) q) (below + 1) base)
          ?_ ?_ ?_ _ 0 fs fs₁ _ hs rfl ?_ ?_ hentries
        · rintro fs₀ fs₂ q u hs₀ hb ⟨himg, base, hgood₀⟩ - hle₀ hvisit
          have hfreed := @ih q base fs₀ fs₂ u hs₀ (by rw [himg, hb]; exact hgood₀)
            (by rw [himg, hb]; exact hle₀) hvisit
          rwa [himg, hb] at hfreed
        · rintro fs₀ fs₂ q hk ⟨himg, base, hgood₀⟩
          exact ⟨hk.img.trans himg, base, hk.good hgood₀⟩
        · rw [Superblock.tree, BlockTree.load_null]
          rfl
        · exact fun e _ he => ⟨rfl, _, hkids e (by omega)⟩
        · rw [hentry]
          exact (Multiset.le_add_left _ _).trans hle
      rw [add_comm, ← hentry] at hle ⊢
      have himg := hloop.keeps.img
      rw [← himg] at hfree
      have hroot := freeFragmentRun_freed hloop.sound hp (hloop.keeps.blockOk hok).2
        (by rw [himg]; exact hloop.le hle) hfree
      rw [himg] at hroot
      exact hloop.trans hroot

/-- A turn frees the run of its block. -/
theorem chunkFrags_eq {sb : Superblock} {size k : Nat} (h : k * sb.blockSize < size)
    (hg : Geometry sb) : chunkFrags sb k (min (size - k * sb.blockSize) sb.blockSize) =
      fileFrags sb size k := by
  unfold chunkFrags
  by_cases hk : 12 ≤ k
  · rw [if_pos hk, fileFrags_full h (.inl hk)]
  · rw [if_neg hk]
    by_cases hfull : k * sb.blockSize + sb.blockSize ≤ size
    · rw [fileFrags_full h (.inr hfull), Nat.min_eq_right (by omega), ← hg.block_eq]
      have hfs := hg.fragSize_ge
      rw [Nat.add_sub_assoc (by omega), Nat.add_comm, Nat.add_mul_div_right _ _ (by omega),
        Nat.div_eq_of_lt (by omega), Nat.zero_add]
    · rw [fileFrags_tail h (by omega) (by omega), Nat.min_eq_left (by omega)]

section
variable {ino : Inode} {len : Nat → Nat} {others : Multiset Nat}

/-- The run of a block of the file. -/
def blockRun (fs : Fs) (ino : Inode) (k : Nat) : Multiset Nat :=
  extent (fs.img.sb.fileBlock fs.bytes ino k)
    (fs.img.sb.lenAt (fileFrags fs.img.sb ino.size) k)

/-- The loop over the data, from block `k` on. -/
theorem freeChunks_ok {fs₀ : Fs}
    (hrun : ∀ k, fs₀.img.sb.fileBlock fs₀.bytes ino k ≠ 0 →
      fs₀.RunOk (fs₀.img.sb.fileBlock fs₀.bytes ino k)
        (fs₀.img.sb.lenAt (fileFrags fs₀.img.sb ino.size) k)) :
    ∀ {fuel k : Nat} {fs fs' : Fs} {u : PUnit}, fs₀.Keeps fs → fs.bytes = fs₀.bytes → fs.Sound →
      ino.size - k * fs.img.sb.blockSize ≤ fuel →
      ∑ j ∈ Finset.Ico k (blocksOf fs.img.sb ino.size), blockRun fs₀ ino j ≤ fs.used →
      freeChunks ino fuel (ino.size - k * fs.img.sb.blockSize) k fs = .ok u fs' →
      Freed fs (∑ j ∈ Finset.Ico k (blocksOf fs.img.sb ino.size), blockRun fs₀ ino j) fs' := by
  intro fuel
  induction fuel with
  | zero =>
    intro k fs fs' u _ _ hs hfuel _ h
    obtain ⟨-, rfl⟩ := pure_ok.mp h
    have hnone : ¬ k < blocksOf fs.img.sb ino.size := by
      rw [lt_blocksOf hs.geometry]
      omega
    rw [Finset.Ico_eq_empty hnone]
    exact Freed.refl hs
  | succ fuel ih =>
    intro k fs fs' u hk hb hs hfuel hle h
    rw [freeChunks] at h
    split at h
    case isTrue hzero =>
      obtain ⟨-, rfl⟩ := pure_ok.mp h
      have hnone : ¬ k < blocksOf fs.img.sb ino.size := by
        rw [lt_blocksOf hs.geometry]
        omega
      rw [Finset.Ico_eq_empty hnone]
      exact Freed.refl hs
    case isFalse hpos =>
      have hlt : k * fs.img.sb.blockSize < ino.size := by omega
      have hlt' := (lt_blocksOf hs.geometry).mpr hlt
      simp only [bind_ok, get_ok] at h
      obtain ⟨_, _, ⟨rfl, rfl⟩, frag, _, hres, _, fs₁, hhead, hrest⟩ := h
      obtain ⟨rfl, rfl⟩ := resolveInodeDataBlock_ok hres
      rw [Finset.sum_eq_sum_Ico_succ_bot hlt'] at hle ⊢
      have hframe : fs.img.sb.fileBlock fs.bytes ino k = fs₀.img.sb.fileBlock fs₀.bytes ino k := by
        rw [hk.img, hb]
      have hfreed : Freed fs (blockRun fs₀ ino k) fs₁ := by
        unfold unlessNull at hhead
        split at hhead
        case isTrue hnone =>
          obtain ⟨-, rfl⟩ := pure_ok.mp hhead
          rw [blockRun, ← hframe, hnone, extent_null]
          exact Freed.refl hs
        case isFalse hne =>
          rw [chunkFrags_eq hlt hs.geometry, hframe] at hhead
          have hlen : fs₀.img.sb.lenAt (fileFrags fs₀.img.sb ino.size) k =
              fileFrags fs.img.sb ino.size k := by
            rw [hk.img] at hlt ⊢
            exact lenAt_fileFrags hlt
          have hrun' := hk.runOk (hrun k (hframe ▸ hne))
          unfold blockRun at hle ⊢
          rw [hlen] at hrun' hle ⊢
          exact freeFragmentRun_freed hs (hframe ▸ hne) hrun'
            ((Multiset.le_add_right _ _).trans hle) hhead
      have himg := hfreed.keeps.img
      have hindex : ino.size - k * fs.img.sb.blockSize -
          min (ino.size - k * fs.img.sb.blockSize) fs.img.sb.blockSize =
          ino.size - (k + 1) * fs₁.img.sb.blockSize := by
        rw [himg, Nat.succ_mul]
        omega
      rw [hindex] at hrest
      have hbs := hs.geometry.blockSize_ge
      have hlast := ih (hk.trans hfreed.keeps) (hfreed.bytes.trans hb) hfreed.sound
        (by rw [himg, Nat.succ_mul]; omega) (by rw [himg]; exact hfreed.le hle) hrest
      rw [himg] at hlast
      exact hfreed.trans hlast

/-- The loop over the indirect slots. -/
theorem freeSlots_ok {fs₀ : Fs} (hgood : fs₀.SlotsGood keep fs₀.bytes ino) :
    ∀ {n : Nat} {fs fs' : Fs} {u : PUnit}, n ≤ 3 → fs₀.Keeps fs → fs.bytes = fs₀.bytes → fs.Sound →
      ∑ s ∈ Finset.range n, fs₀.img.sb.inner (fs₀.img.sb.slotTree fs₀.bytes ino s) ≤ fs.used →
      freeSlots ino n fs = .ok u fs' →
      Freed fs (∑ s ∈ Finset.range n,
        fs₀.img.sb.inner (fs₀.img.sb.slotTree fs₀.bytes ino s)) fs' := by
  intro n
  induction n with
  | zero =>
    intro fs fs' u _ _ _ hs _ h
    obtain ⟨-, rfl⟩ := pure_ok.mp h
    exact Freed.refl hs
  | succ n ih =>
    intro fs fs' u hn hk hb hs hle h
    rw [freeSlots] at h
    obtain ⟨_, fs₁, hfirst, hlast⟩ := bind_ok.mp h
    rw [Finset.sum_range_succ] at hle ⊢
    have hfreed := ih (by omega) hk hb hs ((Multiset.le_add_right _ _).trans hle) hfirst
    have hk₁ := hk.trans hfreed.keeps
    have hb₁ := hfreed.bytes.trans hb
    have htree : fs₁.img.sb.tree fs₁.bytes (n + 1) (ino.ib n) =
        fs₀.img.sb.slotTree fs₀.bytes ino n := by
      rw [hk₁.img, hb₁]
      rfl
    have hgood₁ : fs₁.Good keep (fs₁.img.sb.tree fs₁.bytes (n + 1) (ino.ib n)) (n + 1)
        (fs₀.img.sb.slotBase n) := by
      rw [htree]
      exact hk₁.good (hgood n (by omega))
    have hslot := freeIndirectMetadataTree_ok hfreed.sound hgood₁
      (by rw [htree, hk₁.img]; exact hfreed.le hle) hlast
    rw [htree, hk₁.img] at hslot
    exact hfreed.trans hslot

/-- What a file owns: its indirect blocks, and the runs of the blocks it has. -/
theorem own_blocks (h : FileTree fs ino (fileFrags fs.img.sb ino.size)
    (blocksOf fs.img.sb ino.size) others) :
    Fs.fileFragments fs ino = ∑ k ∈ Finset.Ico 0 (blocksOf fs.img.sb ino.size), blockRun fs ino k +
      fs.img.sb.fileInner fs.bytes ino := by
  have hnull : ∀ k, ¬ k < blocksOf fs.img.sb ino.size ∨ ¬ k < fs.img.sb.slotBase 3 →
      blockRun fs ino k = 0 := by
    intro k hk
    by_cases h0 : fs.img.sb.fileBlock fs.bytes ino k = 0
    · rw [blockRun, h0, extent_null]
    · obtain ⟨-, h₁, h₂⟩ := h.run_at h0
      omega
  have hsum : ∑ k ∈ Finset.range (fs.img.sb.slotBase 3), blockRun fs ino k =
      ∑ k ∈ Finset.Ico 0 (blocksOf fs.img.sb ino.size), blockRun fs ino k := by
    rw [← Finset.range_eq_Ico]
    rcases Nat.le_total (fs.img.sb.slotBase 3) (blocksOf fs.img.sb ino.size) with hle | hle
    · exact Finset.sum_subset (Finset.range_mono hle) fun k _ hk =>
        hnull k (.inr fun hlt => hk (Finset.mem_range.mpr hlt))
    · exact (Finset.sum_subset (Finset.range_mono hle) fun k _ hk =>
        hnull k (.inl fun hlt => hk (Finset.mem_range.mpr hlt))).symm
  rw [Fs.fileFragments, Fs.fileOwn_eq _ h.slots, add_comm, ← hsum]
  rfl

/-- `nextufs__free_file_storage` gives back what the file owns. -/
theorem freeFileStorage_ok {ino' : Inode} (h : FileTree fs ino (fileFrags fs.img.sb ino.size)
    (blocksOf fs.img.sb ino.size) others)
    (hlink : ¬ (ino.isLnk ∧ ino.flags &&& NEXTUFS_IC_FASTLINK ≠ 0))
    (hfree : freeFileStorage ino fs = .ok ino' fs') :
    ino' = ino.emptied ∧ Freed fs (Fs.fileFragments fs ino) fs' := by
  rw [freeFileStorage, if_neg hlink] at hfree
  simp only [bind_ok, pure_ok] at hfree
  obtain ⟨_, fs₁, hchunks, _, fs₂, hslots, rfl, rfl⟩ := hfree
  refine ⟨rfl, ?_⟩
  have hle := h.own_le
  rw [← Fs.fileFragments, own_blocks h] at hle
  have hdata := @freeChunks_ok ino fs (fun k hne => (h.run_at hne).1) ino.size 0 fs fs₁ _
    (Fs.Keeps.refl fs) rfl h.sound (Nat.sub_le _ _) ((Multiset.le_add_right _ _).trans hle)
    (by rw [Nat.zero_mul, Nat.sub_zero]; exact hchunks)
  have hinner := freeSlots_ok h.slots le_rfl hdata.keeps hdata.bytes hdata.sound
    (hdata.le hle) hslots
  rw [own_blocks h]
  exact hdata.trans hinner
end

end

/-! ## Taking storage -/

/-- A call that succeeds is `setInodeDataBlock`. -/
theorem setInodeDataBlockOut_ok {ino ino' : Inode} {k d pref m : Nat} {fs fs' : Fs}
    (h : setInodeDataBlockOut ino k d pref fs = .ok (ino', .ok m) fs') :
    setInodeDataBlock ino k d pref fs = .ok (ino', m) fs' := by
  simp only [setInodeDataBlockOut, bind_ok, get_ok] at h
  obtain ⟨_, _, ⟨rfl, rfl⟩, h⟩ := h
  refine bind_ok.mpr ⟨fs, fs, rfl, ?_⟩
  split at h
  case isTrue hk =>
    obtain ⟨hr, rfl⟩ := pure_ok.mp h
    obtain ⟨rfl, hm⟩ := Prod.mk.inj hr
    rw [if_pos hk, Except.ok.inj hm]
    rfl
  case isFalse hk =>
    rw [if_neg hk]
    cases hslot : fs.img.sb.indirectSlot k with
    | none => simp [hslot, pure_ok] at h
    | some p =>
      obtain ⟨slot, index⟩ := p
      simp only [hslot] at h ⊢
      split at h
      case isTrue hnull =>
        rw [if_pos hnull]
        obtain ⟨r, fs₁, halloc, h⟩ := bind_ok.mp h
        cases r with
        | error e => simp [pure_ok] at h
        | ok root =>
          obtain ⟨r, fs₂, hset, h⟩ := bind_ok.mp h
          cases r with
          | error e => simp [pure_ok, Except.map] at h
          | ok m' =>
            obtain ⟨hr, rfl⟩ := pure_ok.mp h
            obtain ⟨rfl, hm⟩ := Prod.mk.inj hr
            exact bind_ok.mpr ⟨_, _, attempt_ok.mp halloc, bind_ok.mpr ⟨_, _, attempt_ok.mp hset,
              pure_ok.mpr ⟨by rw [← Except.ok.inj hm], rfl⟩⟩⟩
      case isFalse hnull =>
        rw [if_neg hnull]
        obtain ⟨r, fs₂, hset, h⟩ := bind_ok.mp h
        obtain ⟨hr, rfl⟩ := pure_ok.mp h
        obtain ⟨rfl, rfl⟩ := Prod.mk.inj hr
        exact bind_ok.mpr ⟨_, _, attempt_ok.mp hset, rfl⟩

section
variable {fs fs₁ fs₂ : Fs} {ino ino' : Inode} {len : Nat → Nat} {k : Nat} {others : Multiset Nat}

/-- A file with a run entered as its block `k`, past all others. -/
structure Entered (fs : Fs) (ino : Inode) (len : Nat → Nat) (k : Nat) (others : Multiset Nat)
    (frag m : Nat) (fs' : Fs) (ino' : Inode) : Prop where
  keeps : fs.Keeps fs'
  tree : FileTree fs' ino' len (k + 1) others
  fields : ino' = { ino with db := ino'.db, ib := ino'.ib }
  ne_zero : frag ≠ 0
  block : fs.img.sb.fileBlock fs'.bytes ino' k = frag
  total : (fs.img.sb.fileOwn fs'.bytes ino' len).card =
    (fs.img.sb.fileOwn fs.bytes ino len).card + m + fs.img.sb.lenAt len k
  byte : ∀ q, q / fs.img.sb.blockSize ≠ k → InRun fs ino len q →
    fs.img.sb.fileByte fs'.bytes ino' q = fs.img.sb.fileByte fs.bytes ino q
  frame : SameOn fs.img.sb.fragSize others fs.bytes fs'.bytes

theorem enterRun_ok {frag m : Nat} (hok : FileTree fs ino len k others)
    (ht : Took fs frag (fs.img.sb.lenAt len k) fs₁)
    (hstep : MapStep (k + 1) fs₁ ino (Function.update (fs.img.sb.fileBlock fs.bytes ino) k frag) m
      fs₂ ino')
    (hk : k < fs.img.sb.slotBase 3) : Entered fs ino len k others frag m fs₂ ino' := by
  have himg : fs₁.img = fs.img := ht.same.img
  have hbytes : fs₁.bytes = fs.bytes := ht.same.bytes
  have hne := ht.ne_zero hok.sound
  have hused₁ := ht.used_eq hok.sound
  obtain ⟨M, hM, hused, hinner⟩ := hstep.used
  have hmap := hstep.map
  have hgood := hstep.good
  have hframe := hstep.frame
  rw [himg, hbytes] at hinner hframe
  rw [himg] at hmap
  have hslots : fs.SlotsGood (k + 1) fs₂.bytes ino' := ht.keeps.symm.slotsGood hgood
  have hnull : fs.img.sb.fileBlock fs.bytes ino k = 0 := by
    by_contra h
    exact absurd (hok.run_at h).2.1 (Nat.lt_irrefl k)
  -- what the file owns
  have hsum := sum_update hk
    (f := fun j => extent (fs.img.sb.fileBlock fs.bytes ino j) (fs.img.sb.lenAt len j))
    (g := fun j => extent (fs.img.sb.fileBlock fs₂.bytes ino' j) (fs.img.sb.lenAt len j))
    fun j hj hjk => by rw [hmap j hj, Function.update_of_ne hjk]
  simp only [hmap k hk, Function.update_self, hnull, extent_null, add_zero] at hsum
  have hown : fs.img.sb.fileOwn fs₂.bytes ino' len =
      fs.img.sb.fileOwn fs.bytes ino len + M + extent frag (fs.img.sb.lenAt len k) := by
    rw [Fs.fileOwn_eq len hok.slots, Fs.fileOwn_eq len hslots, hinner, hsum]
    abel
  have hkeeps := ht.keeps.trans hstep.keeps
  refine ⟨hkeeps, ⟨hstep.sound, ?_, hstep.keeps.slotsGood hgood, ?_⟩, hstep.fields, hne, ?_, ?_, ?_,
    ?_⟩
  · intro j hj hdb
    have hlt : j < fs.img.sb.slotBase 3 := hj.trans_le (fs.img.sb.slotBase_ge 3)
    rw [← @Superblock.fileBlock_direct fs.img.sb fs₂.bytes ino' j hj, hmap j hlt] at hdb ⊢
    by_cases hjk : j = k
    · subst hjk
      rw [Function.update_self]
      have hrun := hkeeps.runOk ht.run
      rw [Superblock.lenAt, if_pos hj] at hrun
      exact ⟨hrun, Nat.lt_succ_self j⟩
    · rw [Function.update_of_ne hjk, Superblock.fileBlock_direct hj] at hdb ⊢
      obtain ⟨hrun, hlt⟩ := hok.direct j hj hdb
      exact ⟨hkeeps.runOk hrun, hlt.trans (Nat.lt_succ_self k)⟩
  · rw [hkeeps.img, hown, hused, hused₁, ← hok.owned]
    abel
  · rw [hmap k hk, Function.update_self]
  · rw [hown, Multiset.card_add, Multiset.card_add, hM, card_extent hne]
  · intro q hq hin
    have hblock : fs.img.sb.fileBlock fs₂.bytes ino' (q / fs.img.sb.blockSize) =
        fs.img.sb.fileBlock fs.bytes ino (q / fs.img.sb.blockSize) := by
      by_cases hlt : q / fs.img.sb.blockSize < fs.img.sb.slotBase 3
      · rw [hmap _ hlt, Function.update_of_ne hq]
      · rw [Superblock.fileBlock_of_ge (Nat.le_of_not_lt hlt),
          Superblock.fileBlock_of_ge (Nat.le_of_not_lt hlt)]
    rw [Superblock.fileByte, Superblock.fileByte, hblock]
    by_cases h0 : fs.img.sb.fileBlock fs.bytes ino (q / fs.img.sb.blockSize) = 0
    · rw [if_pos h0, if_pos h0]
    · rw [if_neg h0, if_neg h0]
      refine (hframe _ ?_).at_extent h0 le_rfl (hin h0)
      rw [hused₁]
      exact ((add_le_add le_rfl (Multiset.le_add_right _ _)).trans
        (hok.block_le (q / fs.img.sb.blockSize))).trans (Multiset.le_add_right _ _)
  · refine hframe others ?_
    rw [hused₁, add_comm]
    exact ((Multiset.le_add_left _ _).trans (hok.block_le k)).trans (Multiset.le_add_right _ _)

/-- A run of its own, entered by `nextufs__set_inode_data_block`. -/
theorem enterBlock_ok {frag m pref : Nat} (hok : FileTree fs ino len k others)
    (ht : Took fs frag (fs.img.sb.lenAt len k) fs₁)
    (h : setInodeDataBlock ino k frag pref fs₁ = .ok (ino', m) fs₂) :
    Entered fs ino len k others frag m fs₂ ino' := by
  have himg : fs₁.img = fs.img := ht.same.img
  have hbytes : fs₁.bytes = fs.bytes := ht.same.bytes
  have hin : fs₁.img.sb.fileInner fs₁.bytes ino ≤ fs₁.used := by
    rw [himg, hbytes, ht.used_eq hok.sound]
    exact hok.inner_le.trans (Multiset.le_add_right _ _)
  have hgood : fs₁.SlotsGood (k + 1) fs₁.bytes ino := by
    rw [hbytes]
    exact ht.keeps.slotsGood fun s hs => (hok.slots s hs).mono (fun _ h => h) (Nat.le_succ k)
  have hblock : 12 ≤ k → fs₁.BlockOk frag := by
    intro h12
    have hrun := ht.keeps.runOk ht.run
    rw [Superblock.lenAt, if_neg (by omega), ← himg] at hrun
    exact ⟨ht.ne_zero hok.sound, hrun⟩
  obtain ⟨hlt, hstep⟩ := setInodeDataBlock_ok (ht.sound hok.sound) hin hgood hblock
    (Nat.lt_succ_self k) h
  rw [himg, hbytes] at hstep
  rw [himg] at hlt
  exact enterRun_ok hok ht hstep hlt

/-- The size and the block count play no part in the tree. -/
theorem FileTree.withCount {keep size : Nat} {blocks : UInt32} (h : FileTree fs ino len keep others) :
    FileTree fs { ino with size := size, blocks := blocks } len keep others :=
  ⟨h.sound, h.direct, h.slots, h.owned⟩

/-- A file with its first `k` blocks placed, its data being `data`. -/
structure Placing (fs : Fs) (ino : Inode) (others : Multiset Nat) (data : List UInt8) (k : Nat)
    (fs' : Fs) (ino' : Inode) (total : Nat) : Prop where
  keeps : fs.Keeps fs'
  tree : FileTree fs' ino' (fileFrags fs.img.sb data.length) k others
  fields : ino' = { ino with db := ino'.db, ib := ino'.ib, size := ino'.size, blocks := ino'.blocks }
  total : total = (fs.img.sb.fileOwn fs'.bytes ino' (fileFrags fs.img.sb data.length)).card
  byte : ∀ q < data.length, q / fs.img.sb.blockSize < k →
    fs.img.sb.fileByte fs'.bytes ino' q = ofList data q
  frame : SameOn fs.img.sb.fragSize others fs.bytes fs'.bytes

theorem ofList_chunk (data : List UInt8) (off : Nat) {n i : Nat} (hi : i < n) :
    ofList ((data.drop off).take n) i = ofList data (off + i) := by
  simp [ofList, List.getD_eq_getElem?_getD, hi]

/-- The bytes of the block, written into its run. -/
theorem Placing.filled {data : List UInt8} {total frag m : Nat} {fs₀ : Fs} {ino₂ : Inode}
    {blocks : UInt32} {u : PUnit} (hp : Placing fs ino others data k fs₀ ino' total)
    (hk : k * fs.img.sb.blockSize < data.length)
    (hent : Entered fs₀ ino' (fileFrags fs.img.sb data.length) k others frag m fs₁ ino₂)
    (h : writeSlice (ofList ((data.drop (k * fs.img.sb.blockSize)).take fs.img.sb.blockSize))
      (fs.img.sb.lenAt (fileFrags fs.img.sb data.length) k * fs.img.sb.fragSize)
      (fs₀.fragOffset frag) fs₁ = .ok u fs₂) :
    Placing fs ino others data (k + 1) fs₂
      { ino₂ with
        size := k * fs.img.sb.blockSize +
          ((data.drop (k * fs.img.sb.blockSize)).take fs.img.sb.blockSize).length
        blocks := blocks }
      (total + m + fs.img.sb.lenAt (fileFrags fs.img.sb data.length) k) := by
  have himg₀ : fs₀.img = fs.img := hp.keeps.img
  have himg₁ : fs₁.img = fs₀.img := hent.keeps.img
  have hg := hp.tree.geometry
  rw [himg₀] at hg
  set size := k * fs.img.sb.blockSize +
    ((data.drop (k * fs.img.sb.blockSize)).take fs.img.sb.blockSize).length
  set ino₃ : Inode := { ino₂ with size := size, blocks := blocks }
  have htree : FileTree fs₁ ino₃ (fileFrags fs.img.sb data.length) (k + 1) others :=
    FileTree.withCount hent.tree
  have hblock : fs₁.img.sb.fileBlock fs₁.bytes ino₃ k = frag := by
    rw [himg₁]
    exact hent.block
  have htotal := hent.total
  have hother := hent.byte
  have hframe := hent.frame
  rw [himg₀] at htotal hother hframe
  have hoff : fs₁.fragOffset frag + 0 = fs₀.fragOffset frag := by
    rw [Nat.add_zero, Fs.fragOffset, Fs.fragOffset, himg₁]
  have hne : frag ≠ 0 := hent.ne_zero
  have hw := blockWritten htree (k := k) (x := 0) (by rw [hblock]; exact hne)
    (by rw [himg₁, himg₀, Nat.zero_add]) (by rw [hblock, hoff]; exact h)
  have hbyte := hw.byte
  have hinner := hw.inner
  have hframe' := hw.frame
  rw [himg₁, himg₀] at hbyte hinner hframe'
  refine ⟨(hp.keeps.trans hent.keeps).trans hw.keeps, hw.tree htree, ?_, ?_, ?_,
    (hp.frame.trans hframe).trans hframe'⟩
  · change ({ ino₂ with size := size, blocks := blocks } : Inode) = _
    rw [hent.fields, hp.fields]
  · rw [hp.total, ← htotal, fileOwn_congr hg hinner]
    rfl
  · intro q hq hlt
    have hpos := Nat.div_add_mod' q fs.img.sb.blockSize
    have hmod := Nat.mod_lt q (show 0 < fs.img.sb.blockSize by have := hg.blockSize_ge; omega)
    have hin : InRun fs₁ ino₃ (fileFrags fs.img.sb data.length) q := by
      have := @inRun_of_lt fs₁ ino₃ htree.geometry data.length q hq
      rwa [himg₁, himg₀] at this
    rw [hbyte q hin]
    by_cases hqk : q / fs.img.sb.blockSize = k
    · have hcov : q % fs.img.sb.blockSize <
          fileFrags fs.img.sb data.length k * fs.img.sb.fragSize :=
        fileFrags_covers hg hmod (by rw [← hqk, hpos]; exact hq)
      rw [lenAt_fileFrags hk, if_pos ⟨hqk, Nat.zero_le _, by rw [Nat.zero_add]; exact hcov⟩,
        Nat.sub_zero, ofList_chunk _ _ hmod, ← hqk, hpos]
    · rw [if_neg fun hc => hqk hc.1]
      have hin₀ : InRun fs₀ ino' (fileFrags fs.img.sb data.length) q := by
        have := @inRun_of_lt fs₀ ino' hp.tree.geometry data.length q hq
        rwa [himg₀] at this
      exact (hother q hqk hin₀).trans (hp.byte q hq
        (Nat.lt_of_le_of_ne (Nat.lt_succ_iff.mp hlt) hqk))

/-- A turn places one block more. -/
theorem placeChunk_ok {data : List UInt8} {total pref : Nat} {r : PlacedChunk}
    (hp : Placing fs ino others data k fs₁ ino' total) (hk : k * fs.img.sb.blockSize < data.length)
    (h : placeChunk pref ((data.drop (k * fs.img.sb.blockSize)).take fs.img.sb.blockSize) k ino'
      total fs₁ = .ok r fs₂)
    (hr : r.status = none) : Placing fs ino others data (k + 1) fs₂ r.ino r.total := by
  have hg := hp.tree.geometry
  have himg := hp.keeps.img
  rw [himg] at hg
  set chunk := (data.drop (k * fs.img.sb.blockSize)).take fs.img.sb.blockSize with hchunk
  have hlen : chunk.length =
      min (data.length - k * fs.img.sb.blockSize) fs.img.sb.blockSize := by
    rw [hchunk, List.length_take, List.length_drop, Nat.min_comm]
  have hfrags : chunkFrags fs.img.sb k chunk.length =
      fs.img.sb.lenAt (fileFrags fs.img.sb data.length) k := by
    rw [hlen, chunkFrags_eq hk hg, lenAt_fileFrags hk]
  simp only [placeChunk, bind_ok, get_ok] at h
  obtain ⟨_, _, ⟨rfl, rfl⟩, r₁, fs₃, halloc, h⟩ := h
  rw [himg, hfrags] at halloc h
  cases r₁ with
  | error e =>
    obtain ⟨rfl, -⟩ := pure_ok.mp h
    exact absurd hr (by simp)
  | ok frag =>
    have ht := allocateFragsAnycg_ok hp.tree.geometry hp.tree.sound.consistent (attempt_ok.mp halloc)
    obtain ⟨⟨ino₄, r₄⟩, fs₄, hset, h⟩ := bind_ok.mp h
    cases r₄ with
    | error e =>
      obtain ⟨_, _, -, h⟩ := bind_ok.mp h
      obtain ⟨rfl, -⟩ := pure_ok.mp h
      exact absurd hr (by simp)
    | ok m =>
      obtain ⟨r₅, fs₅, hwrite, h⟩ := bind_ok.mp h
      cases r₅ with
      | error e =>
        obtain ⟨rfl, -⟩ := pure_ok.mp h
        exact absurd hr (by simp)
      | ok _ =>
        obtain ⟨rfl, rfl⟩ := pure_ok.mp h
        have hent := enterBlock_ok hp.tree (by rw [himg]; exact ht) (setInodeDataBlockOut_ok hset)
        exact hp.filled hk hent (attempt_ok.mp hwrite)

/-- No block is left to place. -/
theorem Placing.finished {data : List UInt8} {total : Nat}
    (hp : Placing fs ino others data k fs₁ ino' total) (hk : k ≤ blocksOf fs.img.sb data.length)
    (hle : data.length ≤ k * fs.img.sb.blockSize) :
    Placing fs ino others data (blocksOf fs.img.sb data.length) fs₁ ino' total := by
  have hg := hp.tree.geometry
  rw [hp.keeps.img] at hg
  have hnot : ¬ k < blocksOf fs.img.sb data.length := by
    rw [lt_blocksOf hg]
    omega
  rwa [← Nat.le_antisymm hk (Nat.le_of_not_lt hnot)]

/-- The loop places the blocks that are left; the induction is on the turns. -/
theorem placeChunks_ok {data : List UInt8} {pref : Nat} : ∀ {fuel k total : Nat} {fs₁ fs₂ : Fs}
    {ino' : Inode} {r : PlacedChunk}, Placing fs ino others data k fs₁ ino' total →
    k ≤ blocksOf fs.img.sb data.length → data.length - k * fs.img.sb.blockSize ≤ fuel →
    placeChunks pref fuel (data.drop (k * fs.img.sb.blockSize)) k ino' total fs₁ = .ok r fs₂ →
    r.status = none →
    Placing fs ino others data (blocksOf fs.img.sb data.length) fs₂ r.ino r.total := by
  intro fuel
  induction fuel with
  | zero =>
    intro k total fs₁ fs₂ ino' r hp hk hfuel h _
    obtain ⟨rfl, rfl⟩ := pure_ok.mp h
    exact hp.finished hk (by omega)
  | succ fuel ih =>
    intro k total fs₁ fs₂ ino' r hp hk hfuel h hr
    rw [placeChunks] at h
    split at h
    case isTrue hnil =>
      obtain ⟨rfl, rfl⟩ := pure_ok.mp h
      exact hp.finished hk (List.drop_eq_nil_iff.mp hnil)
    case isFalse hne =>
      have hlt : k * fs.img.sb.blockSize < data.length := by
        rwa [List.drop_eq_nil_iff, Nat.not_le] at hne
      have hg := hp.tree.geometry
      rw [hp.keeps.img] at hg
      simp only [bind_ok, get_ok] at h
      obtain ⟨_, _, ⟨rfl, rfl⟩, r₁, fs₃, hturn, h⟩ := h
      rw [hp.keeps.img] at hturn h
      cases hstatus : r₁.status with
      | some e =>
        simp only [hstatus] at h
        obtain ⟨rfl, -⟩ := pure_ok.mp h
        rw [hr] at hstatus
        exact absurd hstatus (by simp)
      | none =>
        simp only [hstatus] at h
        have hnext := placeChunk_ok hp hlt hturn hstatus
        rw [List.drop_drop, ← Nat.succ_mul] at h
        have hbs := hg.blockSize_ge
        exact ih hnext ((lt_blocksOf hg).mpr hlt) (by rw [Nat.succ_mul]; omega) h hr

/-- A file without pointers owns nothing. -/
theorem fileTree_empty {keep : Nat} (hs : fs.Sound) (hdb : ∀ k < 12, ino.db k = 0)
    (hib : ∀ s < 3, ino.ib s = 0) :
    fs.img.sb.fileOwn fs.bytes ino len = 0 ∧ FileTree fs ino len keep fs.used := by
  have hhole : ∀ s < 3, fs.img.sb.slotTree fs.bytes ino s = .hole := by
    intro s hs3
    rw [Superblock.slotTree, hib s hs3]
    exact BlockTree.load_null _
  have hown : fs.img.sb.fileOwn fs.bytes ino len = 0 := by
    rw [Superblock.fileOwn, Finset.sum_eq_zero fun k hk => by
      rw [hdb k (Finset.mem_range.mp hk), extent_null], zero_add]
    exact Finset.sum_eq_zero fun s hs3 => by
      rw [hhole s (Finset.mem_range.mp hs3)]
      rfl
  refine ⟨hown, hs, fun k hk hne => absurd (hdb k hk) hne, fun s hs3 => ?_, by rw [hown, zero_add]⟩
  rw [hhole s hs3]
  trivial

/-- A file was made of `data`: it owns what was taken, and nothing else has changed. -/
structure Stored (fs : Fs) (ino : Inode) (data : List UInt8) (fs' : Fs) (ino' : Inode) : Prop where
  keeps : fs.Keeps fs'
  wf : FileWf fs' ino' fs.used
  fields : ino' = { ino with db := ino'.db, ib := ino'.ib, size := data.length, blocks := ino'.blocks }
  content : fs.img.sb.content fs'.bytes ino' = data
  frame : SameOn fs.img.sb.fragSize fs.used fs.bytes fs'.bytes

theorem Placing.stored {data : List UInt8} {total : Nat} {ino₁ : Inode}
    (hp : Placing fs ino fs.used data (blocksOf fs.img.sb data.length) fs₁ ino₁ total)
    (hle : data.length ≤ INT32_MAX)
    (hino : { ino₁ with
      size := data.length
      blocks := UInt32.ofNat total * UInt32.ofNat fs.img.sb.sectorsPerFrag } = ino') :
    Stored fs ino data fs₁ ino' := by
  subst hino
  have himg := hp.keeps.img
  have hg := hp.tree.geometry
  rw [himg] at hg
  have hfit := own_sectors_lt hp.tree
  rw [himg, ← hp.total] at hfit
  refine ⟨hp.keeps, ⟨⟨?_, ?_⟩, hle⟩, ?_, ?_, hp.frame⟩
  · rw [himg]
    exact FileTree.withCount hp.tree
  · rw [himg]
    change (UInt32.ofNat total * UInt32.ofNat fs.img.sb.sectorsPerFrag).toNat =
      (fs.img.sb.fileOwn fs₁.bytes ino₁ (fileFrags fs.img.sb data.length)).card * _
    rw [← UInt32.ofNat_mul, ← hp.total]
    simpa using Nat.mod_eq_of_lt hfit
  · rw [hp.fields]
  · refine List.ext_getElem (Superblock.length_content ..) fun q h₁ h₂ => ?_
    have hbyte := hp.byte q h₂ ((lt_blocksOf hg).mpr (by
      have := Nat.div_mul_le_self q fs.img.sb.blockSize
      omega))
    have hget : ofList data q = data[q] := by simp [ofList, h₂]
    rw [← hget, ← hbyte]
    simp [Superblock.content, Superblock.fileBytes, Superblock.fileByte, Superblock.fileBlock,
      Superblock.slotTree]

/-- `nextufs__allocate_data_for_inode` makes a file of the data. -/
theorem allocateDataForInode_ok {data : List UInt8} {pref : Nat} {fs' : Fs} (hs : fs.Sound)
    (hdb : ∀ k < 12, ino.db k = 0) (hib : ∀ s < 3, ino.ib s = 0)
    (h : allocateDataForInode pref data ino fs = .ok (none, ino') fs') :
    Stored fs ino data fs' ino' := by
  simp only [allocateDataForInode, bind_ok, get_ok] at h
  obtain ⟨_, _, ⟨rfl, rfl⟩, h⟩ := h
  split at h
  case isTrue =>
    obtain ⟨hr, -⟩ := pure_ok.mp h
    exact absurd (congrArg Prod.fst hr) (by simp)
  case isFalse hle =>
    obtain ⟨r, fs₁, hloop, h⟩ := bind_ok.mp h
    cases hstatus : r.status with
    | some e =>
      simp only [hstatus] at h
      obtain ⟨r', _, -, h⟩ := bind_ok.mp h
      cases r' <;> simp [pure_ok] at h
    | none =>
      simp only [hstatus] at h
      obtain ⟨hino, rfl⟩ := pure_ok.mp h
      obtain ⟨-, hino⟩ := Prod.mk.inj hino
      obtain ⟨hown, htree⟩ := @fileTree_empty fs ino (fileFrags fs.img.sb data.length) 0 hs hdb hib
      have hstart : Placing fs ino fs.used data 0 fs ino 0 :=
        ⟨Fs.Keeps.refl fs, htree, rfl, by rw [hown, Multiset.card_zero],
          fun _ _ hlt => absurd hlt (Nat.not_lt_zero _), SameOn.refl _ _ _⟩
      have hp := placeChunks_ok hstart (Nat.zero_le _) (Nat.sub_le _ _)
        (by rw [Nat.zero_mul, List.drop_zero]; exact hloop) hstatus
      exact hp.stored (Nat.le_of_not_lt hle) hino

end

/-! ## Inline symbolic links -/

/-- Words one behind another. -/
theorem flatMap_words {w : Nat → Nat} {d : ByteStore} {off : Nat} : ∀ {n : Nat},
    (∀ i < n, w i = be32 d (off + i * 4)) →
    (List.range n).flatMap (fun i => slice (beBytes 4 (w i)) 0 4) = slice d off (n * 4)
  | 0, _ => rfl
  | n + 1, h => by
    have hword : slice (beBytes 4 (w n)) 0 4 = slice d (off + n * 4) 4 := by
      rw [h n (Nat.lt_succ_self n)]
      refine slice_congr fun i hi => ?_
      rw [Nat.zero_add]
      exact beBytes_be32 _ _ hi
    rw [List.range_succ, List.flatMap_append, flatMap_words fun i hi => h i (Nat.lt_succ_of_lt hi),
      List.flatMap_singleton, hword, Nat.succ_mul, slice_append]

/-- `nextufs__store_inline_symlink` puts the target where the link is read. -/
theorem inlineRaw_storeInlineSymlink (ino : Inode) (target : List UInt8) :
    inlineRaw (storeInlineSymlink ino target) = slice (ofList target) 0 60 := by
  have hdb : ∀ i < 12, (storeInlineSymlink ino target).db i = be32 (ofList target) (0 + i * 4) :=
    fun i hi => by rw [storeInlineSymlink, Nat.zero_add]; exact if_pos hi
  have hib : ∀ i < 3, (storeInlineSymlink ino target).ib i = be32 (ofList target) (48 + i * 4) :=
    fun i hi => if_pos hi
  rw [inlineRaw, flatMap_words hdb, flatMap_words hib]
  exact (slice_append (ofList target) 0 48 12).symm

theorem take_slice_ofList {l : List UInt8} {n : Nat} (h : l.length ≤ n) :
    (slice (ofList l) 0 n).take l.length = l := by
  refine List.ext_getElem (by simpa using h) fun i h₁ h₂ => ?_
  simp [slice, ofList, h₂]

/-- An inline link says its target. -/
theorem linkTarget_storeInlineSymlink {fs : Fs} {ino : Inode} {target : List UInt8}
    (hlen : target.length ≤ 60) (hsize : ino.size = target.length)
    (hflags : ino.flags &&& NEXTUFS_IC_FASTLINK ≠ 0) :
    fs.linkTarget (storeInlineSymlink ino target) = target := by
  unfold Fs.linkTarget
  by_cases hfast : (storeInlineSymlink ino target).isFast
  · rw [if_pos hfast, inlineRaw_storeInlineSymlink]
    change (slice (ofList target) 0 60).take ino.size = target
    rw [hsize, take_slice_ofList hlen]
  · -- a target of no bytes is read from the blocks
    have hzero : ino.size = 0 := by
      by_contra hne
      exact hfast ⟨hflags, hne, by rw [← hsize] at hlen; exact hlen⟩
    rw [if_neg hfast, List.eq_nil_of_length_eq_zero (hsize.symm.trans hzero)]
    refine List.eq_nil_of_length_eq_zero ?_
    rw [Superblock.length_content]
    exact hzero

end NextUfs.Mutate
