/-
NextUfs.Mutate.ResizeTheorems — a file's size, up and down.

`Resized` says what `changeSize` does to a well-formed file: it is well formed
for the new size, the bytes below both sizes are the old ones, those between
them are zero, and no other owner's fragment was written. Shrinking drops the
tails of the direct runs one by one and prunes the three trees; each step keeps
the file's tree well formed and counts what it gives back.
-/
import NextUfs.Mutate.PruneTheorems

namespace NextUfs.Mutate

open NextUfs.Core NextUfs.Lib NextUfs.Lib.ByteStore NextUfs.Lib.StateResult NextUfs.Lib.Extents

/-! ## Files of a size -/

/-- The number of blocks a file of a size reaches into. -/
def blocksOf (sb : Superblock) (size : Nat) : Nat := (size + sb.blockSize - 1) / sb.blockSize

theorem lt_blocksOf {sb : Superblock} (hg : Geometry sb) {size k : Nat} :
    k < blocksOf sb size ↔ k * sb.blockSize < size := by
  have hbs := hg.blockSize_ge
  rw [blocksOf, Nat.lt_div_iff_mul_lt (by omega)]
  rw [show size + sb.blockSize - 1 - (sb.blockSize - 1) = size by omega, Nat.mul_comm]

theorem lenAt_fileFrags {sb : Superblock} {size k : Nat} (h : k * sb.blockSize < size) :
    sb.lenAt (fileFrags sb size) k = fileFrags sb size k := by
  unfold Superblock.lenAt
  split
  · rfl
  · exact (fileFrags_full h (.inl (by omega))).symm

/-- A well-formed file: the tree of a file of the inode's size. -/
def FileWf (fs : Fs) (ino : Inode) (others : Multiset Nat) : Prop :=
  FileOk fs ino (fileFrags fs.img.sb ino.size) (blocksOf fs.img.sb ino.size) others ∧
    ino.size ≤ INT32_MAX

section
variable {fs : Fs} {ino : Inode} {len : Nat → Nat} {keep : Nat} {others : Multiset Nat}

/-- The position lies in the run of its block, if it is there. -/
def InRun (fs : Fs) (ino : Inode) (len : Nat → Nat) (q : Nat) : Prop :=
  fs.img.sb.fileBlock fs.bytes ino (q / fs.img.sb.blockSize) ≠ 0 →
    q % fs.img.sb.blockSize < fs.img.sb.lenAt len (q / fs.img.sb.blockSize) * fs.img.sb.fragSize

theorem inRun_of_lt (hg : Geometry fs.img.sb) {size q : Nat} (h : q < size) :
    InRun fs ino (fileFrags fs.img.sb size) q := by
  intro _
  have hbs := hg.blockSize_ge
  have hpos := Nat.div_add_mod' q fs.img.sb.blockSize
  rw [lenAt_fileFrags (by omega)]
  exact fileFrags_covers hg (Nat.mod_lt _ (by omega)) (by omega)

/-- Lengths matter only where a direct block is. -/
theorem fileOwn_congr_len {len' : Nat → Nat} (hlen : ∀ k < 12, ino.db k ≠ 0 → len k = len' k) :
    fs.img.sb.fileOwn fs.bytes ino len' = fs.img.sb.fileOwn fs.bytes ino len := by
  unfold Superblock.fileOwn
  congr 1
  refine Finset.sum_congr rfl fun k hk => ?_
  by_cases h0 : ino.db k = 0
  · rw [h0, extent_null, extent_null]
  · rw [hlen k (Finset.mem_range.mp hk) h0]

theorem FileTree.congr_len {len' : Nat → Nat} {keep' : Nat} (h : FileTree fs ino len keep others)
    (hlen : ∀ k < 12, ino.db k ≠ 0 → len k = len' k) (hkeep : keep ≤ keep') :
    FileTree fs ino len' keep' others := by
  refine ⟨h.sound, fun k hk hne => ?_, fun s hs => (h.slots s hs).mono (fun _ h => h) hkeep, ?_⟩
  · rw [← hlen k hk hne]
    exact ⟨(h.direct k hk hne).1, (h.direct k hk hne).2.trans_le hkeep⟩
  · rw [fileOwn_congr_len hlen]
    exact h.owned

theorem FileOk.congr_len {len' : Nat → Nat} {keep' : Nat} (h : FileOk fs ino len keep others)
    (hlen : ∀ k < 12, ino.db k ≠ 0 → len k = len' k) (hkeep : keep ≤ keep') :
    FileOk fs ino len' keep' others :=
  { FileTree.congr_len h.toFileTree hlen hkeep with
    blocks := by
      rw [fileOwn_congr_len hlen]
      exact h.blocks }

/-! ## Writing inside a block -/

/-- Bytes `[x, x + n)` of block `k` were written. -/
structure BlockWritten (fs : Fs) (ino : Inode) (len : Nat → Nat) (others : Multiset Nat)
    (k x n : Nat) (buf : ByteStore) (fs' : Fs) : Prop where
  keeps : fs.Keeps fs'
  used : fs'.used = fs.used
  sound : fs'.Sound
  inner : SameOn fs.img.sb.fragSize (fs.img.sb.fileInner fs.bytes ino) fs.bytes fs'.bytes
  frame : SameOn fs.img.sb.fragSize others fs.bytes fs'.bytes
  byte : ∀ q, InRun fs ino len q → fs.img.sb.fileByte fs'.bytes ino q =
    if q / fs.img.sb.blockSize = k ∧ x ≤ q % fs.img.sb.blockSize ∧
      q % fs.img.sb.blockSize < x + n then buf (q % fs.img.sb.blockSize - x)
    else fs.img.sb.fileByte fs.bytes ino q

theorem blockWritten {k x n : Nat} {buf : ByteStore} {fs' : Fs} {u : PUnit}
    (hok : FileTree fs ino len keep others)
    (hk : fs.img.sb.fileBlock fs.bytes ino k ≠ 0)
    (hx : x + n ≤ fs.img.sb.lenAt len k * fs.img.sb.fragSize)
    (h : writeSlice buf n (fs.fragOffset (fs.img.sb.fileBlock fs.bytes ino k) + x) fs =
      .ok u fs') : BlockWritten fs ino len others k x n buf fs' := by
  have hw := writeSlice_wrote h
  have hpatch := hw.bytes
  unfold Fs.fragOffset at hw hpatch
  set p := fs.img.sb.fileBlock fs.bytes ino k with hp
  have hsame : ∀ s, s + extent p (fs.img.sb.lenAt len k) ≤ fs.used →
      SameOn fs.img.sb.fragSize s fs.bytes fs'.bytes := by
    intro s hs
    refine hw.sameOn hx fun f hf => ?_
    have hout := apart_of_le fs.used_nodup hs hf
    rw [mem_extent] at hout
    omega
  have hle := hok.block_le k
  have hinner : SameOn fs.img.sb.fragSize (fs.img.sb.fileInner fs.bytes ino) fs.bytes fs'.bytes := by
    refine hsame _ ?_
    rw [add_comm]
    exact (add_le_add le_rfl (Multiset.le_add_right _ _)).trans hle
  refine ⟨hw.keeps, hw.used, hw.sound hok.sound, hinner, hsame _ ?_, fun q hq => ?_⟩
  · rw [add_comm]
    exact (add_le_add le_rfl (Multiset.le_add_left _ _)).trans hle
  · have hblock := fileBlock_congr hok.geometry hinner (q / fs.img.sb.blockSize)
    rw [Superblock.fileByte, Superblock.fileByte, hblock]
    by_cases h0 : fs.img.sb.fileBlock fs.bytes ino (q / fs.img.sb.blockSize) = 0
    · rw [if_pos h0, if_pos h0, if_neg]
      rintro ⟨hqk, -⟩
      rw [hqk] at h0
      exact hk h0
    · rw [if_neg h0, if_neg h0]
      by_cases hqk : q / fs.img.sb.blockSize = k
      · rw [hqk, ← hp, hpatch]
        by_cases hin : x ≤ q % fs.img.sb.blockSize ∧ q % fs.img.sb.blockSize < x + n
        · rw [if_pos ⟨rfl, hin⟩, patch_of_mem (by omega) (by omega)]
          congr 1
          omega
        · rw [if_neg (fun h => hin h.2), patch_of_not_mem (by omega)]
      · rw [if_neg (fun h => hqk h.1)]
        refine (hsame _ ?_).at_extent h0 le_rfl (hq h0)
        exact (add_le_add le_rfl (Multiset.le_add_right _ _)).trans (hok.blocks_le hqk)

theorem BlockWritten.tree {k x n : Nat} {buf : ByteStore} {fs' : Fs}
    (hok : FileTree fs ino len keep others) (h : BlockWritten fs ino len others k x n buf fs') :
    FileTree fs' ino len keep others := by
  have hg := hok.geometry
  refine ⟨h.sound, fun k hk hne => ?_, h.keeps.slotsGood (hok.slots.congr hg h.inner), ?_⟩
  · exact ⟨h.keeps.runOk (hok.direct k hk hne).1, (hok.direct k hk hne).2⟩
  · rw [h.keeps.img, fileOwn_congr hg h.inner, h.used]
    exact hok.owned

theorem BlockWritten.ok {k x n : Nat} {buf : ByteStore} {fs' : Fs}
    (hok : FileOk fs ino len keep others) (h : BlockWritten fs ino len others k x n buf fs') :
    FileOk fs' ino len keep others :=
  { h.tree hok.toFileTree with
    blocks := by
      rw [h.keeps.img, fileOwn_congr hok.geometry h.inner]
      exact hok.blocks }

/-! ## Growing -/

/-- What a change of size does. -/
structure Resized (fs : Fs) (ino : Inode) (others : Multiset Nat) (size : Nat) (fs' : Fs)
    (ino' : Inode) : Prop where
  ok : FileOk fs' ino' (fileFrags fs.img.sb size) (blocksOf fs.img.sb size) others
  keeps : fs.Keeps fs'
  fields : ino' = { ino with db := ino'.db, ib := ino'.ib, blocks := ino'.blocks }
  byte : ∀ q < size, fs.img.sb.fileByte fs'.bytes ino' q =
    if q < ino.size then fs.img.sb.fileByte fs.bytes ino q else 0
  frame : SameOn fs.img.sb.fragSize others fs.bytes fs'.bytes

/-- A block that is there starts below the size. -/
theorem block_lt {size k : Nat} (h : FileTree fs ino len (blocksOf fs.img.sb size) others)
    (hne : fs.img.sb.fileBlock fs.bytes ino k ≠ 0) : k * fs.img.sb.blockSize < size :=
  (lt_blocksOf h.geometry).mp (h.run_at hne).2.1

/-- A block below the tail is full. -/
theorem full_below_tail {bs size k : Nat} (hpos : 0 < bs) (h : k * bs < size)
    (hk : k ≠ size / bs) : k * bs + bs ≤ size := by
  have hle : k ≤ size / bs := (Nat.le_div_iff_mul_le hpos).mpr h.le
  have hlt : (k + 1) * bs ≤ size := (Nat.le_div_iff_mul_le hpos).mp (by omega)
  rwa [Nat.succ_mul] at hlt

theorem blocksOf_mono {sb : Superblock} {size size' : Nat} (h : size ≤ size') :
    blocksOf sb size ≤ blocksOf sb size' :=
  Nat.div_le_div_right (by omega)

/-- The file once its old tail is a full block, or need not be one. -/
structure TailGrown (fs : Fs) (ino : Inode) (others : Multiset Nat) (last size : Nat)
    (len : Nat → Nat) (fs' : Fs) (ino' : Inode) : Prop where
  ok : FileOk fs' ino' len (blocksOf fs.img.sb size) others
  keeps : fs.Keeps fs'
  fields : ino' = { ino with db := ino'.db, ib := ino'.ib, blocks := ino'.blocks }
  frame : SameOn fs.img.sb.fragSize others fs.bytes fs'.bytes
  len_other : ∀ k, k ≠ last → fs.img.sb.fileBlock fs'.bytes ino' k ≠ 0 →
    fs.img.sb.lenAt len k = fileFrags fs.img.sb size k
  len_last : fs.img.sb.fileBlock fs'.bytes ino' last ≠ 0 →
    fileFrags fs.img.sb ino.size last = fs.img.sb.lenAt len last
  byte : ∀ q < size, (q / fs.img.sb.blockSize = last → q < ino.size) →
    fs.img.sb.fileByte fs'.bytes ino' q =
      if q < ino.size then fs.img.sb.fileByte fs.bytes ino q else 0

/-- A hole reads as zero. -/
theorem fileByte_hole {sb : Superblock} {b : ByteStore} {q : Nat}
    (h : sb.fileBlock b ino (q / sb.blockSize) = 0) : sb.fileByte b ino q = 0 := if_pos h

/-- The case where the tail stays as it is. -/
theorem tailGrown_refl {last size : Nat} (hwf : FileWf fs ino others) (hlt : ino.size < size)
    (hcase : ino.size % fs.img.sb.blockSize = 0 ∨ ino.size / fs.img.sb.blockSize = last ∨
      fs.img.sb.fileBlock fs.bytes ino (ino.size / fs.img.sb.blockSize) = 0) :
    TailGrown fs ino others last size (fileFrags fs.img.sb ino.size) fs ino := by
  have hok := hwf.1
  have hg := hok.geometry
  have hbs := hg.blockSize_ge
  -- a block that is there and is not the last is full
  have hfull : ∀ k, k ≠ last → fs.img.sb.fileBlock fs.bytes ino k ≠ 0 →
      k * fs.img.sb.blockSize + fs.img.sb.blockSize ≤ ino.size := by
    intro k hk hne
    have hklt := block_lt hok.toFileTree hne
    by_cases htail : k = ino.size / fs.img.sb.blockSize
    · subst htail
      have hpos := Nat.div_add_mod' ino.size fs.img.sb.blockSize
      rcases hcase with h0 | h0 | h0
      · omega
      · exact absurd h0 hk
      · exact absurd h0 hne
    · exact full_below_tail (by omega) hklt htail
  refine ⟨FileOk.congr_len hok (fun _ _ _ => rfl) (blocksOf_mono hlt.le), Fs.Keeps.refl fs, rfl,
    SameOn.refl _ _ _, fun k hk hne => ?_, fun hne => ?_, fun q hq hql => ?_⟩
  · have hf := hfull k hk hne
    rw [lenAt_fileFrags (block_lt hok.toFileTree hne), fileFrags_full (by omega) (.inr hf),
      fileFrags_full (by omega) (.inr (by omega))]
  · exact (lenAt_fileFrags (block_lt hok.toFileTree hne)).symm
  · split
    · rfl
    case isFalse hge =>
      refine fileByte_hole ?_
      by_contra hne
      have hf := hfull _ (fun h => hge (hql h)) hne
      have hpos := Nat.div_add_mod' q fs.img.sb.blockSize
      have := Nat.mod_lt q (show 0 < fs.img.sb.blockSize by omega)
      omega

/-- The case where the tail is grown to a full block. -/
theorem tailGrown_of_grown {last size : Nat} {fs' : Fs} {ino' : Inode}
    (hwf : FileWf fs ino others) (hlt : ino.size < size)
    (hlast : last = (size - 1) / fs.img.sb.blockSize)
    (htail : ino.size / fs.img.sb.blockSize ≠ last)
    (hblock : fs.img.sb.fileBlock fs.bytes ino (ino.size / fs.img.sb.blockSize) ≠ 0)
    (h : Grown (blocksOf fs.img.sb size) others fs ino (fileFrags fs.img.sb ino.size)
      (ino.size / fs.img.sb.blockSize)
      (fileFrags fs.img.sb size (ino.size / fs.img.sb.blockSize))
      (kept fs ino (fileFrags fs.img.sb ino.size) (ino.size / fs.img.sb.blockSize) ino.size)
      fs' ino') :
    TailGrown fs ino others last size (Function.update (fileFrags fs.img.sb ino.size)
      (ino.size / fs.img.sb.blockSize)
      (fileFrags fs.img.sb size (ino.size / fs.img.sb.blockSize))) fs' ino' := by
  have hok := hwf.1
  have hg := hok.geometry
  have hbs := hg.blockSize_ge
  set tail := ino.size / fs.img.sb.blockSize with htaildef
  have htailpos := Nat.div_add_mod' ino.size fs.img.sb.blockSize
  rw [← htaildef] at htailpos
  -- the tail lies before the last block, so it is full in the end
  have hle : tail ≤ last := by
    rw [hlast]
    exact Nat.div_le_div_right (by omega)
  have hmul : (tail + 1) * fs.img.sb.blockSize ≤ last * fs.img.sb.blockSize :=
    Nat.mul_le_mul_right _ (by omega)
  rw [Nat.succ_mul] at hmul
  have hlastle := Nat.div_mul_le_self (size - 1) fs.img.sb.blockSize
  rw [← hlast] at hlastle
  have hbefore : tail * fs.img.sb.blockSize + fs.img.sb.blockSize ≤ size := by omega
  have hmod := Nat.mod_lt ino.size (show 0 < fs.img.sb.blockSize by omega)
  have hother : ∀ k, k ≠ tail → fs.img.sb.fileBlock fs.bytes ino k ≠ 0 →
      k * fs.img.sb.blockSize + fs.img.sb.blockSize ≤ ino.size := fun k hk hne =>
    full_below_tail (by omega) (block_lt hok.toFileTree hne) hk
  refine ⟨h.ok, h.keeps, h.fields, h.frame, fun k hk hne => ?_, fun hne => ?_, fun q hq hql => ?_⟩
  · by_cases hkt : k = tail
    · subst hkt
      unfold Superblock.lenAt
      split
      · exact Function.update_self ..
      · exact (fileFrags_full (by omega) (.inr hbefore)).symm
    · rw [h.block_other k hkt] at hne
      have hf := hother k hkt hne
      have hlen : fs.img.sb.lenAt (Function.update (fileFrags fs.img.sb ino.size) tail
          (fileFrags fs.img.sb size tail)) k = fs.img.sb.lenAt (fileFrags fs.img.sb ino.size) k := by
        unfold Superblock.lenAt
        rw [Function.update_of_ne hkt]
      rw [hlen, lenAt_fileFrags (by omega), fileFrags_full (by omega) (.inr hf),
        fileFrags_full (by omega) (.inr (by omega))]
  · rw [h.block_other last (Ne.symm htail)] at hne
    have hf := hother last (Ne.symm htail) hne
    omega
  · have hq' := Nat.div_add_mod' q fs.img.sb.blockSize
    have hqm := Nat.mod_lt q (show 0 < fs.img.sb.blockSize by omega)
    by_cases hqt : q / fs.img.sb.blockSize = tail
    · rw [hqt] at hq'
      rw [h.byte_self q hqt (fileFrags_covers hg hqm (by omega))]
      have hkept : kept fs ino (fileFrags fs.img.sb ino.size) tail ino.size =
          min (ino.size - tail * fs.img.sb.blockSize)
            (fileFrags fs.img.sb ino.size tail * fs.img.sb.fragSize) := by
        rw [kept, if_neg hblock, held, if_neg hblock,
          lenAt_fileFrags (block_lt hok.toFileTree hblock)]
      by_cases hqs : q < ino.size
      · have hcov := fileFrags_covers hg hqm (show tail * _ + _ < ino.size by omega)
        rw [if_pos hqs, if_pos (by rw [hkept]; omega)]
      · rw [if_neg hqs, if_neg (by rw [hkept]; omega)]
    · have hin : fs.img.sb.fileBlock fs.bytes ino (q / fs.img.sb.blockSize) ≠ 0 → q < ino.size := by
        intro hne
        have hf := hother _ hqt hne
        omega
      rw [h.byte_other q hqt fun hne => inRun_of_lt hg (hin hne) hne]
      split
      · rfl
      case isFalse hge =>
        refine fileByte_hole ?_
        by_contra hne
        exact hge (hin hne)

theorem growTail_ok {inodeNo last size : Nat} {fs' : Fs} {node' : Node}
    (hwf : FileWf fs ino others) (hlt : ino.size < size)
    (hlast : last = (size - 1) / fs.img.sb.blockSize)
    (h : growTail ⟨inodeNo, ino⟩ last size fs = .ok node' fs') :
    node'.inodeNo = inodeNo ∧ ∃ len, TailGrown fs ino others last size len fs' node'.inode := by
  have hg := hwf.1.geometry
  have hbs := hg.blockSize_ge
  simp only [growTail, bind_ok, get_ok] at h
  obtain ⟨_, _, ⟨rfl, rfl⟩, h⟩ := h
  split at h
  case isTrue hc =>
    simp only [bind_ok] at h
    obtain ⟨frag, _, hres, h⟩ := h
    obtain ⟨rfl, rfl⟩ := resolveInodeDataBlock_ok hres
    split at h
    case isTrue hne =>
      have hpos := Nat.div_add_mod' ino.size fs.img.sb.blockSize
      have hok := FileOk.congr_len hwf.1 (fun _ _ _ => rfl) (blocksOf_mono hlt.le)
      have hbelow : ino.size / fs.img.sb.blockSize * fs.img.sb.blockSize < ino.size := by omega
      obtain ⟨hno, hgrown⟩ := growBlock_ok hok ((lt_blocksOf hg).mpr (by omega))
        (fun _ => (lenAt_fileFrags hbelow).symm) hlt.le (by omega) h
      exact ⟨hno, _, tailGrown_of_grown hwf hlt hlast hc.2 hne hgrown⟩
    case isFalse hz =>
      obtain ⟨rfl, rfl⟩ := pure_ok.mp h
      exact ⟨rfl, _, tailGrown_refl hwf hlt (.inr (.inr (not_not.mp hz)))⟩
  case isFalse hc =>
    obtain ⟨rfl, rfl⟩ := pure_ok.mp h
    refine ⟨rfl, _, tailGrown_refl hwf hlt ?_⟩
    by_cases h0 : ino.size % fs.img.sb.blockSize = 0
    · exact .inl h0
    · exact .inr (.inl (not_not.mp fun hne => hc ⟨h0, hne⟩))

/-- The growing half of `nextufs__file_resize`. -/
theorem growFile_ok {inodeNo size : Nat} {fs' : Fs} {node' : Node} (hwf : FileWf fs ino others)
    (hlt : ino.size < size) (h : growFile ⟨inodeNo, ino⟩ size fs = .ok node' fs') :
    node'.inodeNo = inodeNo ∧ Resized fs ino others size fs' node'.inode := by
  have hg := hwf.1.geometry
  have hbs := hg.blockSize_ge
  simp only [growFile, bind_ok, get_ok] at h
  obtain ⟨_, _, ⟨rfl, rfl⟩, ⟨no₁, ino₁⟩, fs₁, htail, hgrow⟩ := h
  obtain ⟨rfl, len, ht⟩ := growTail_ok hwf hlt rfl htail
  have himg := ht.keeps.img
  have hlastpos := Nat.div_add_mod' (size - 1) fs.img.sb.blockSize
  have hlastmod := Nat.mod_lt (size - 1) (show 0 < fs.img.sb.blockSize by omega)
  set last := (size - 1) / fs.img.sb.blockSize with hlast
  obtain ⟨hno, hgrown⟩ := growBlock_ok ht.ok ((lt_blocksOf hg).mpr (by omega))
    (by rw [himg]; exact ht.len_last) hlt.le (by rw [himg]; omega) hgrow
  have hself := hgrown.byte_self
  have hother := hgrown.byte_other
  have hblock := hgrown.block_other
  have hok₁ := hgrown.ok
  rw [himg] at hself hother hblock hok₁
  refine ⟨hno, ?_, ht.keeps.trans hgrown.keeps, ?_, fun q hq => ?_, ?_⟩
  · refine FileOk.congr_len hok₁ (fun k hk hne => ?_) le_rfl
    by_cases hkl : k = last
    · rw [hkl, Function.update_self]
    · rw [← @Superblock.fileBlock_direct fs.img.sb fs'.bytes _ _ hk, hblock k hkl] at hne
      have hlen := ht.len_other k hkl hne
      rwa [Function.update_of_ne hkl, ← show fs.img.sb.lenAt len k = len k from if_pos hk]
  · rw [hgrown.fields, ht.fields]
  · have hq' := Nat.div_add_mod' q fs.img.sb.blockSize
    have hqm := Nat.mod_lt q (show 0 < fs.img.sb.blockSize by omega)
    by_cases hql : q / fs.img.sb.blockSize = last
    · rw [hself q hql (fileFrags_covers hg hqm (by rw [← hql]; omega))]
      by_cases hqs : q < ino.size
      · have hbyte := ht.byte q hq (fun _ => hqs)
        rw [if_pos hqs] at hbyte ⊢
        rw [← hbyte]
        split
        · rfl
        case isFalse hk =>
          refine (fileByte_hole ?_).symm
          by_contra hne
          rw [hql] at hne hq'
          refine hk ?_
          rw [kept, himg, if_neg hne, held, himg, if_neg hne, ← ht.len_last hne]
          have := fileFrags_covers hg hqm (show last * _ + _ < ino.size by omega)
          omega
      · rw [if_neg hqs, if_neg]
        rw [hql] at hq'
        unfold kept
        rw [himg]
        split <;> omega
    · rw [hother q hql fun hne => ?_, ht.byte q hq (fun h => absurd h hql)]
      rw [ht.len_other _ hql hne]
      exact fileFrags_covers hg hqm (by omega)
  · have hframe := hgrown.frame
    rw [himg] at hframe
    exact ht.frame.trans hframe

/-! ## Dropping the tails of direct runs -/

/-- The inode when a direct run has `n` fragments left. -/
def dropDirect (ino : Inode) (k n : Nat) : Inode :=
  if n = 0 then { ino with db := Function.update ino.db k 0 } else ino

theorem dropDirect_ib (ino : Inode) (k n : Nat) : (dropDirect ino k n).ib = ino.ib := by
  unfold dropDirect
  split <;> rfl

theorem dropDirect_db (ino : Inode) (k n j : Nat) :
    (dropDirect ino k n).db j = if j = k ∧ n = 0 then 0 else ino.db j := by
  unfold dropDirect
  by_cases hn : n = 0
  · rw [if_pos hn]
    by_cases hj : j = k
    · rw [if_pos ⟨hj, hn⟩, hj]
      exact Function.update_self ..
    · rw [if_neg fun h => hj h.1]
      exact Function.update_of_ne hj ..
  · rw [if_neg hn, if_neg fun h => hn h.2]

theorem dropDirect_fields (ino : Inode) (k n : Nat) :
    dropDirect ino k n = { ino with db := (dropDirect ino k n).db } := by
  unfold dropDirect
  split <;> rfl

theorem dropRun_ok {k n : Nat} {fs' : Fs} {u : PUnit} (hok : FileTree fs ino len keep others)
    (hk : k < 12) (hne : ino.db k ≠ 0) (hn : n < len k)
    (h : freeFragmentRun (ino.db k + n) (len k - n) fs = .ok u fs') :
    fs.Keeps fs' ∧ fs'.bytes = fs.bytes ∧
      FileTree fs' (dropDirect ino k n) (Function.update len k n) keep others ∧
      len k - n + (fs.img.sb.fileOwn fs.bytes (dropDirect ino k n) (Function.update len k n)).card =
        (fs.img.sb.fileOwn fs.bytes ino len).card := by
  have hs := hok.sound
  have hrun := (hok.direct k hk hne).1
  have hsplit : n + (len k - n) = len k := by omega
  have htail : fs.RunOk (ino.db k + n) (len k - n) :=
    hs.run_tail (by rwa [hsplit]) (by omega)
  have hgave := freeFragmentRun_ok hs.geometry hs.consistent htail h
  have htailne : ino.db k + n ≠ 0 := by omega
  have hext : extent (ino.db k) (len k) =
      extent (ino.db k) n + extent (ino.db k + n) (len k - n) := by
    rw [← extent_add hne, hsplit]
  have htrees : ∀ s, fs.img.sb.slotTree fs.bytes (dropDirect ino k n) s =
      fs.img.sb.slotTree fs.bytes ino s := by
    intro s
    rw [Superblock.slotTree, Superblock.slotTree, dropDirect_ib]
  have hself : extent ((dropDirect ino k n).db k) (Function.update len k n k) =
      extent (ino.db k) n := by
    rw [Function.update_self, dropDirect_db]
    split
    case isTrue h => rw [h.2, extent_empty, extent_empty]
    case isFalse => rfl
  have hsum := sum_update hk (f := fun j => extent (ino.db j) (len j))
    (g := fun j => extent ((dropDirect ino k n).db j) (Function.update len k n j))
    fun j _ hj => by rw [dropDirect_db, if_neg fun h => hj h.1, Function.update_of_ne hj]
  have hown : fs.img.sb.fileOwn fs.bytes (dropDirect ino k n) (Function.update len k n) +
      extent (ino.db k + n) (len k - n) = fs.img.sb.fileOwn fs.bytes ino len := by
    simp only [hself] at hsum
    rw [hext, ← add_assoc, add_right_comm] at hsum
    have hsum' := add_right_cancel hsum
    rw [Superblock.fileOwn, Superblock.fileOwn, add_right_comm, hsum']
    simp only [htrees]
  have hle : extent (ino.db k + n) (len k - n) ≤ fs.used := by
    refine le_trans ?_ hok.own_le
    rw [← hown]
    exact Multiset.le_add_left _ _
  refine ⟨hgave.keeps, hgave.same.bytes, ⟨hgave.sound hs htailne, ?_, ?_, ?_⟩, ?_⟩
  · intro j hj hnej
    rw [dropDirect_db] at hnej ⊢
    split at hnej
    case isTrue => exact absurd rfl hnej
    case isFalse hc =>
      rw [if_neg hc]
      by_cases hjk : j = k
      · subst hjk
        rw [Function.update_self]
        have hpos : 0 < n := Nat.pos_of_ne_zero fun h0 => hc ⟨rfl, h0⟩
        rw [← hsplit] at hrun
        exact ⟨hgave.keeps.runOk (hrun.head hpos), (hok.direct j hj hnej).2⟩
      · rw [Function.update_of_ne hjk]
        exact ⟨hgave.keeps.runOk (hok.direct j hj hnej).1, (hok.direct j hj hnej).2⟩
  · intro s hs3
    rw [hgave.same.bytes, hgave.keeps.img, htrees]
    exact hgave.keeps.good (hok.slots s hs3)
  · rw [hgave.same.bytes, hgave.keeps.img]
    refine add_right_cancel (b := extent (ino.db k + n) (len k - n)) ?_
    rw [hgave.used_eq htailne hle, add_right_comm, hown, hok.owned]
  · rw [← hown, Multiset.card_add, card_extent htailne]
    omega

/-- The lengths of the direct runs when the first `n` were cut down to `size`. -/
def cutLen (sb : Superblock) (oldSize size n k : Nat) : Nat :=
  if k < n then fileFrags sb size k else fileFrags sb oldSize k

/-- The first `n` direct runs of a file were cut down, `r` fragments released. -/
structure DirectCut (fs : Fs) (ino : Inode) (keep : Nat) (others : Multiset Nat)
    (oldSize size n r : Nat) (fs' : Fs) (ino' : Inode) : Prop where
  keeps : fs.Keeps fs'
  bytes : fs'.bytes = fs.bytes
  tree : FileTree fs' ino' (cutLen fs.img.sb oldSize size n) keep others
  count : r + (fs.img.sb.fileOwn fs.bytes ino' (cutLen fs.img.sb oldSize size n)).card =
    (fs.img.sb.fileOwn fs.bytes ino (fileFrags fs.img.sb oldSize)).card
  fields : ino' = { ino with db := ino'.db }
  db : ∀ j, ino'.db j = if j < n ∧ size ≤ j * fs.img.sb.blockSize then 0 else ino.db j

theorem fileFrags_eq_zero {sb : Superblock} (hg : Geometry sb) {size k : Nat} :
    fileFrags sb size k = 0 ↔ size ≤ k * sb.blockSize := by
  constructor
  · intro h
    by_contra hc
    have := fileFrags_pos hg (show k * sb.blockSize < size by omega)
    omega
  · exact fileFrags_none

theorem cutLen_self (sb : Superblock) (oldSize size n : Nat) :
    cutLen sb oldSize size n n = fileFrags sb oldSize n := if_neg (Nat.lt_irrefl n)

theorem update_cutLen (sb : Superblock) (oldSize size n : Nat) :
    Function.update (cutLen sb oldSize size n) n (fileFrags sb size n) =
      cutLen sb oldSize size (n + 1) := by
  funext k
  unfold cutLen
  by_cases hkn : k = n
  · rw [hkn, Function.update_self, if_pos (Nat.lt_succ_self n)]
  · rw [Function.update_of_ne hkn]
    exact if_congr (by omega) rfl rfl

/-- No run is cut yet. -/
theorem directCut_zero {oldSize size : Nat}
    (hok : FileTree fs ino (fileFrags fs.img.sb oldSize) keep others) :
    DirectCut fs ino keep others oldSize size 0 0 fs ino := by
  have hcut : cutLen fs.img.sb oldSize size 0 = fileFrags fs.img.sb oldSize := by
    funext k
    exact if_neg (Nat.not_lt_zero k)
  refine ⟨Fs.Keeps.refl fs, rfl, by rwa [hcut], by rw [hcut, Nat.zero_add], rfl, fun j => ?_⟩
  rw [if_neg fun h => Nat.not_lt_zero j h.1]

/-- The next run is cut down. -/
theorem DirectCut.drop {oldSize size n r : Nat} {fs₁ fs' : Fs} {ino₁ : Inode} {u : PUnit}
    (h : DirectCut fs ino keep others oldSize size n r fs₁ ino₁) (hg : Geometry fs.img.sb)
    (hn : n < 12) (hne : ino₁.db n ≠ 0)
    (hlt : fileFrags fs.img.sb size n < fileFrags fs.img.sb oldSize n)
    (hfree : freeFragmentRun (ino₁.db n + fileFrags fs.img.sb size n)
      (fileFrags fs.img.sb oldSize n - fileFrags fs.img.sb size n) fs₁ = .ok u fs') :
    DirectCut fs ino keep others oldSize size (n + 1)
      (r + (fileFrags fs.img.sb oldSize n - fileFrags fs.img.sb size n)) fs'
      (dropDirect ino₁ n (fileFrags fs.img.sb size n)) := by
  have hself := cutLen_self fs.img.sb oldSize size n
  rw [← hself] at hfree
  obtain ⟨hkeeps, hbytes, htree, hcount⟩ :=
    dropRun_ok h.tree hn hne (by rw [hself]; exact hlt) hfree
  rw [update_cutLen] at htree hcount
  rw [h.bytes, h.keeps.img, hself] at hcount
  refine ⟨h.keeps.trans hkeeps, hbytes.trans h.bytes, htree, ?_, ?_, fun j => ?_⟩
  · have := h.count
    omega
  · refine (dropDirect_fields ino₁ n (fileFrags fs.img.sb size n)).trans ?_
    generalize (dropDirect ino₁ n (fileFrags fs.img.sb size n)).db = db
    rw [h.fields]
  · have hdb := dropDirect_db ino₁ n (fileFrags fs.img.sb size n) j
    simp only [fileFrags_eq_zero hg] at hdb
    refine hdb.trans ?_
    rw [h.db]
    by_cases hjn : j = n
    · subst hjn
      simp only [Nat.lt_irrefl, Nat.lt_succ_self, false_and, true_and, if_false]
    · rw [if_neg fun h => hjn h.1]
      exact if_congr (by omega) rfl rfl

/-- The next run stays: the block is a hole, or keeps all its fragments. -/
theorem DirectCut.skip {oldSize size n r : Nat} {fs' : Fs} {ino' : Inode}
    (h : DirectCut fs ino keep others oldSize size n r fs' ino') (hg : Geometry fs.img.sb)
    (hn : n < 12) (hlt : size < oldSize) (hkeep : keep = blocksOf fs.img.sb oldSize)
    (hstay : ¬ (ino'.db n ≠ 0 ∧ fileFrags fs.img.sb oldSize n > fileFrags fs.img.sb size n)) :
    DirectCut fs ino keep others oldSize size (n + 1) r fs' ino' := by
  have hlen : ∀ k < 12, ino'.db k ≠ 0 →
      cutLen fs.img.sb oldSize size n k = cutLen fs.img.sb oldSize size (n + 1) k := by
    intro k _ hne
    rw [← update_cutLen]
    by_cases hkn : k = n
    · subst hkn
      rw [Function.update_self, cutLen_self]
      have := fileFrags_mono hg hlt.le k
      have hle : ¬ fileFrags fs.img.sb oldSize k > fileFrags fs.img.sb size k :=
        fun h => hstay ⟨hne, h⟩
      omega
    · rw [Function.update_of_ne hkn]
  refine ⟨h.keeps, h.bytes, FileTree.congr_len h.tree hlen le_rfl, ?_, h.fields, fun j => ?_⟩
  · rw [fileOwn_congr_len hlen]
    exact h.count
  · rw [h.db]
    by_cases hjn : j = n
    · subst hjn
      rw [if_neg (fun h => Nat.lt_irrefl j h.1)]
      split
      case isTrue hz =>
        -- a block behind the new end that stays is a hole
        by_contra hne
        have hdb : ino'.db j ≠ 0 := by
          rw [h.db, if_neg (fun h => Nat.lt_irrefl j h.1)]
          exact hne
        have hin := (h.tree.direct j hn hdb).2
        rw [hkeep, lt_blocksOf hg] at hin
        refine hstay ⟨hdb, ?_⟩
        rw [fileFrags_none hz.2]
        exact fileFrags_pos hg hin
      case isFalse => rfl
    · exact if_congr (by omega) rfl rfl

/-- The loop over the direct blocks. -/
theorem shrinkDirect_ok {oldSize size : Nat} (hlt : size < oldSize)
    (hkeep : keep = blocksOf fs.img.sb oldSize)
    (hok : FileTree fs ino (fileFrags fs.img.sb oldSize) keep others) :
    ∀ {n r : Nat} {fs' : Fs} {ino' : Inode}, n ≤ 12 →
      shrinkDirect oldSize size n ino fs = .ok (ino', r) fs' →
      DirectCut fs ino keep others oldSize size n r fs' ino' := by
  have hg := hok.geometry
  intro n
  induction n with
  | zero =>
    intro r fs' ino' _ h
    rw [shrinkDirect, pure_ok] at h
    obtain ⟨hpair, rfl⟩ := h
    obtain ⟨rfl, rfl⟩ := Prod.mk.inj hpair
    exact directCut_zero hok
  | succ n ih =>
    intro r fs' ino' hn h
    simp only [shrinkDirect, bind_ok, get_ok, Prod.exists] at h
    obtain ⟨ino₁, r₁, fs₁, hloop, _, _, ⟨rfl, rfl⟩, h⟩ := h
    have hcut := ih (by omega) hloop
    rw [hcut.keeps.img] at h
    split at h
    case isTrue hc =>
      simp only [bind_ok, pure_ok, Prod.mk.injEq] at h
      obtain ⟨_, fs₂, hfree, ⟨rfl, rfl⟩, rfl⟩ := h
      exact hcut.drop hg (by omega) hc.1 hc.2 hfree
    case isFalse hc =>
      simp only [pure_ok, Prod.mk.injEq] at h
      obtain ⟨⟨rfl, rfl⟩, rfl⟩ := h
      exact hcut.skip hg (by omega) hlt hkeep hc

/-! ## Pruning the slots -/

/-- The inode with the root of a slot replaced. -/
def setRoot (ino : Inode) (s root : Nat) : Inode :=
  { ino with ib := Function.update ino.ib s root }

theorem slot_own_le {s : Nat} (hs3 : s < 3) (hok : FileTree fs ino len keep others) :
    fs.img.sb.own (fs.img.sb.slotTree fs.bytes ino s) ≤ fs.used :=
  ((le_sum (fun s => fs.img.sb.own (fs.img.sb.slotTree fs.bytes ino s)) hs3).trans
    (Multiset.le_add_left _ _)).trans hok.own_le

/-- A file after one slot's tree was pruned. -/
theorem pruneSlot {keep' s root r : Nat} {fs' : Fs} (hok : FileTree fs ino len keep others)
    (hs3 : s < 3) (hle : keep' ≤ keep)
    (h : Pruned keep' fs (s + 1) (ino.ib s) (fs.img.sb.slotBase s) root r fs') :
    FileTree fs' (setRoot ino s root) len keep others ∧
      r + (fs.img.sb.fileOwn fs'.bytes (setRoot ino s root) len).card =
        (fs.img.sb.fileOwn fs.bytes ino len).card ∧
      ∀ t < 3, fs.img.sb.slotTree fs'.bytes (setRoot ino s root) t =
        if t = s then (fs.img.sb.slotTree fs.bytes ino s).prune fs.img.sb.entriesPerBlock keep'
          (s + 1) (fs.img.sb.slotBase s)
        else fs.img.sb.slotTree fs.bytes ino t := by
  have hg := hok.geometry
  have hself : fs.img.sb.slotTree fs'.bytes (setRoot ino s root) s =
      fs.img.sb.tree fs'.bytes (s + 1) root := by
    rw [Superblock.slotTree, setRoot]
    exact congrArg _ (Function.update_self ..)
  have hother : ∀ t < 3, t ≠ s →
      fs.img.sb.slotTree fs'.bytes (setRoot ino s root) t = fs.img.sb.slotTree fs.bytes ino t := by
    intro t ht hts
    have hib : (setRoot ino s root).ib t = ino.ib t := Function.update_of_ne hts ..
    rw [Superblock.slotTree, hib]
    refine BlockTree.load_congr hg.entries_le (h.frame _ fun f hf => ?_)
    exact apart_of_le fs.used_nodup ((slots_le hs3 ht hts).trans hok.inner_le) hf
  have hprune : fs.img.sb.slotTree fs'.bytes (setRoot ino s root) s =
      (fs.img.sb.slotTree fs.bytes ino s).prune fs.img.sb.entriesPerBlock keep' (s + 1)
        (fs.img.sb.slotBase s) := hself.trans h.tree
  have htrees : ∀ t < 3, fs.img.sb.slotTree fs'.bytes (setRoot ino s root) t =
      if t = s then (fs.img.sb.slotTree fs.bytes ino s).prune fs.img.sb.entriesPerBlock keep'
        (s + 1) (fs.img.sb.slotBase s)
      else fs.img.sb.slotTree fs.bytes ino t := by
    intro t ht
    by_cases hts : t = s
    · rw [if_pos hts, hts, hprune]
    · rw [if_neg hts, hother t ht hts]
  have hsum := sum_update hs3
    (f := fun s => fs.img.sb.own (fs.img.sb.slotTree fs.bytes ino s))
    (g := fun t => fs.img.sb.own (fs.img.sb.slotTree fs'.bytes (setRoot ino s root) t))
    fun t ht hts => congrArg _ (hother t ht hts)
  have hdirect : ∑ k ∈ Finset.range 12, extent ((setRoot ino s root).db k) (len k) =
      ∑ k ∈ Finset.range 12, extent (ino.db k) (len k) := rfl
  have hown : fs.img.sb.fileOwn fs'.bytes (setRoot ino s root) len +
      fs.img.sb.own (fs.img.sb.slotTree fs.bytes ino s) = fs.img.sb.fileOwn fs.bytes ino len +
        fs.img.sb.own (fs.img.sb.tree fs'.bytes (s + 1) root) := by
    rw [hself] at hsum
    rw [Superblock.fileOwn, Superblock.fileOwn, hdirect, add_assoc, hsum, add_assoc]
  have hused : fs'.used + fs.img.sb.own (fs.img.sb.slotTree fs.bytes ino s) =
      fs.used + fs.img.sb.own (fs.img.sb.tree fs'.bytes (s + 1) root) := h.used
  have hcount : r + (fs.img.sb.own (fs.img.sb.tree fs'.bytes (s + 1) root)).card =
      (fs.img.sb.own (fs.img.sb.slotTree fs.bytes ino s)).card := h.count
  refine ⟨⟨h.sound, fun k hk hne => ?_, fun t ht => ?_, ?_⟩, ?_, htrees⟩
  · exact ⟨h.keeps.runOk (hok.direct k hk hne).1, (hok.direct k hk hne).2⟩
  · rw [h.keeps.img, htrees t ht]
    split
    case isTrue hts =>
      subst hts
      have hpruned : fs.Good keep' ((fs.img.sb.slotTree fs.bytes ino t).prune
          fs.img.sb.entriesPerBlock keep' (t + 1) (fs.img.sb.slotBase t)) (t + 1)
          (fs.img.sb.slotBase t) := BlockTree.Good.prune (hok.slots t ht)
      exact h.keeps.good (hpruned.mono (fun _ h => h) hle)
    case isFalse => exact h.keeps.good (hok.slots t ht)
  · rw [h.keeps.img]
    refine add_right_cancel (b := fs.img.sb.own (fs.img.sb.slotTree fs.bytes ino s)) ?_
    rw [hused, add_right_comm, hown, ← hok.owned]
    abel
  · have := congrArg Multiset.card hown
    rw [Multiset.card_add, Multiset.card_add] at this
    omega

/-- The first `n` slots of a file were pruned, `r` fragments released. -/
structure SlotsCut (fs : Fs) (ino : Inode) (len : Nat → Nat) (keep : Nat) (others : Multiset Nat)
    (keep' n r : Nat) (fs' : Fs) (ino' : Inode) : Prop where
  keeps : fs.Keeps fs'
  tree : FileTree fs' ino' len keep others
  count : r + (fs.img.sb.fileOwn fs'.bytes ino' len).card =
    (fs.img.sb.fileOwn fs.bytes ino len).card
  fields : ino' = { ino with ib := ino'.ib }
  trees : ∀ t < 3, fs.img.sb.slotTree fs'.bytes ino' t =
    if t < n then (fs.img.sb.slotTree fs.bytes ino t).prune fs.img.sb.entriesPerBlock keep' (t + 1)
      (fs.img.sb.slotBase t)
    else fs.img.sb.slotTree fs.bytes ino t
  frame : ∀ s : Multiset Nat, (∀ f ∈ s, f ∉ fs.img.sb.fileInner fs.bytes ino) →
    SameOn fs.img.sb.fragSize s fs.bytes fs'.bytes

theorem shrinkSlots_ok {keep' : Nat} (hok : FileTree fs ino len keep others) (hle : keep' ≤ keep) :
    ∀ {n r : Nat} {fs' : Fs} {ino' : Inode}, n ≤ 3 →
      shrinkSlots keep' n ino fs = .ok (ino', r) fs' →
      SlotsCut fs ino len keep others keep' n r fs' ino' := by
  intro n
  induction n with
  | zero =>
    intro r fs' ino' _ h
    rw [shrinkSlots, pure_ok] at h
    obtain ⟨hpair, rfl⟩ := h
    obtain ⟨rfl, rfl⟩ := Prod.mk.inj hpair
    refine ⟨Fs.Keeps.refl fs, hok, Nat.zero_add _, rfl, fun t _ => ?_, fun s _ => SameOn.refl _ _ _⟩
    rw [if_neg (Nat.not_lt_zero t)]
  | succ n ih =>
    intro r fs' ino' hn h
    simp only [shrinkSlots, bind_ok, get_ok, pure_ok, Prod.exists, Prod.mk.injEq] at h
    obtain ⟨ino₁, r₁, fs₁, hloop, _, _, ⟨rfl, rfl⟩, root, r₂, fs₂, hprune, ⟨rfl, rfl⟩, rfl⟩ := h
    have hcut := ih (by omega) hloop
    have himg := hcut.keeps.img
    have hn3 : n < 3 := by omega
    have hsame : fs.img.sb.slotTree fs₁.bytes ino₁ n = fs.img.sb.slotTree fs.bytes ino n := by
      rw [hcut.trees n hn3, if_neg (Nat.lt_irrefl n)]
    have hp := pruneTree_ok hcut.tree.sound (slot_own_le hn3 hcut.tree) (hcut.tree.slots n hn3)
      hprune
    obtain ⟨htree, hcount, htrees⟩ := pruneSlot hcut.tree hn3 hle hp
    rw [himg] at hcount htrees
    refine ⟨hcut.keeps.trans hp.keeps, htree, ?_, ?_, fun t ht => ?_, fun s hs => ?_⟩
    · have := hcut.count
      change r₁ + r₂ + (fs.img.sb.fileOwn fs₂.bytes (setRoot ino₁ n root) len).card = _
      omega
    · generalize Function.update ino₁.ib n root = ib
      rw [hcut.fields]
    · refine (htrees t ht).trans ?_
      by_cases htn : t = n
      · rw [if_pos htn, if_pos (by omega), htn, hsame]
      · rw [if_neg htn, hcut.trees t ht]
        exact if_congr (by omega) rfl rfl
    · refine (hcut.frame s hs).trans ?_
      have hframe := hp.frame s
      rw [himg] at hframe
      refine hframe fun f hf hfi => hs f hf ?_
      have hfi' : f ∈ fs.img.sb.inner (fs.img.sb.slotTree fs₁.bytes ino₁ n) := hfi
      rw [hsame] at hfi'
      exact Multiset.mem_of_le (slot_le hn3) hfi'

/-! ## Shrinking -/

/-- The file after its blocks were dropped and before its tail is zeroed. -/
structure Cut (fs : Fs) (ino : Inode) (others : Multiset Nat) (size : Nat) (fs' : Fs)
    (ino' : Inode) : Prop where
  ok : FileOk fs' ino' (fileFrags fs.img.sb size) (blocksOf fs.img.sb size) others
  keeps : fs.Keeps fs'
  fields : ino' = { ino with db := ino'.db, ib := ino'.ib, blocks := ino'.blocks }
  byte : ∀ q < size, fs.img.sb.fileByte fs'.bytes ino' q = fs.img.sb.fileByte fs.bytes ino q
  frame : SameOn fs.img.sb.fragSize others fs.bytes fs'.bytes

/-- A 32-bit block count that goes down. -/
theorem blocks_sub {x : UInt32} {c c' r spf : Nat} (hx : x.toNat = c * spf) (hc : r + c' = c) :
    (x - UInt32.ofNat r * UInt32.ofNat spf).toNat = c' * spf := by
  have hx' : x = UInt32.ofNat (r * spf + c' * spf) := by
    rw [← Nat.add_mul, hc, ← hx, UInt32.ofNat_toNat]
  have hlt := x.toNat_lt
  rw [hx, ← hc, Nat.add_mul] at hlt
  have hsub : x - UInt32.ofNat r * UInt32.ofNat spf = UInt32.ofNat (c' * spf) := by
    rw [hx', ← UInt32.ofNat_mul, UInt32.ofNat_add]
    grind
  rw [hsub]
  simpa using Nat.mod_eq_of_lt (show c' * spf < 4294967296 by omega)

/-- The block map after the cut: what was below the new end. -/
theorem cut_block {keep₀ size k : Nat} {b b' : ByteStore} {ino' : Inode}
    (hg : Geometry fs.img.sb) (hgood : fs.SlotsGood keep₀ b ino)
    (hdb : ∀ j < 12, ino'.db j = if size ≤ j * fs.img.sb.blockSize then 0 else ino.db j)
    (htrees : ∀ t < 3, fs.img.sb.slotTree b' ino' t =
      (fs.img.sb.slotTree b ino t).prune fs.img.sb.entriesPerBlock (blocksOf fs.img.sb size) (t + 1)
        (fs.img.sb.slotBase t)) :
    fs.img.sb.fileBlock b' ino' k =
      if k * fs.img.sb.blockSize < size then fs.img.sb.fileBlock b ino k else 0 := by
  by_cases hk : k < 12
  · rw [Superblock.fileBlock_direct hk, Superblock.fileBlock_direct hk, hdb k hk]
    by_cases hs : k * fs.img.sb.blockSize < size
    · rw [if_neg (by omega), if_pos hs]
    · rw [if_pos (by omega), if_neg hs]
  by_cases hk3 : k < fs.img.sb.slotBase 3
  · obtain ⟨s, i, hs3, hi, rfl⟩ := fs.img.sb.exists_slot (by omega) hk3
    rw [Superblock.fileBlock_slot hs3 hi, Superblock.fileBlock_slot hs3 hi, htrees s hs3,
      Superblock.look]
    refine (BlockTree.look_prune (fun p hp => hp.1) (hgood s hs3) hi).trans ?_
    exact if_congr (lt_blocksOf hg) rfl rfl
  · rw [Superblock.fileBlock_of_ge (by omega), Superblock.fileBlock_of_ge (by omega), ite_self]

theorem cutFile_ok {size : Nat} {fs₁ fs₂ : Fs} {ino₁ ino₂ : Inode} {r₁ r₂ : Nat}
    (hwf : FileWf fs ino others) (hlt : size < ino.size)
    (hdirect : shrinkDirect ino.size size 12 ino fs = .ok (ino₁, r₁) fs₁)
    (hslots : shrinkSlots (blocksOf fs.img.sb size) 3 ino₁ fs₁ = .ok (ino₂, r₂) fs₂) :
    Cut fs ino others size fs₂ { ino₂ with
      blocks := ino₂.blocks - UInt32.ofNat (r₁ + r₂) * UInt32.ofNat fs.img.sb.sectorsPerFrag } := by
  have hok := hwf.1
  have hg := hok.geometry
  have hd := shrinkDirect_ok hlt rfl hok.toFileTree le_rfl hdirect
  have himg₁ := hd.keeps.img
  have hlen : ∀ k < 12, ino₁.db k ≠ 0 →
      cutLen fs.img.sb ino.size size 12 k = fileFrags fs.img.sb size k := fun k hk _ => if_pos hk
  have htree₁ := FileTree.congr_len hd.tree hlen le_rfl
  have hc := shrinkSlots_ok htree₁ (blocksOf_mono hlt.le) le_rfl hslots
  have htree₂ := hc.tree
  have hcount₂ := hc.count
  have htrees₂ := hc.trees
  have hframe₂ := hc.frame
  rw [himg₁, hd.bytes] at hcount₂ htrees₂ hframe₂
  have hib₁ : ino₁.ib = ino.ib := by rw [hd.fields]
  have hdb₂ : ino₂.db = ino₁.db := by rw [hc.fields]
  have hinner₁ : fs.img.sb.fileInner fs.bytes ino₁ = fs.img.sb.fileInner fs.bytes ino := by
    simp only [Superblock.fileInner, Superblock.slotTree, hib₁]
  have htrees : ∀ t < 3, fs.img.sb.slotTree fs₂.bytes ino₂ t =
      (fs.img.sb.slotTree fs.bytes ino t).prune fs.img.sb.entriesPerBlock (blocksOf fs.img.sb size)
        (t + 1) (fs.img.sb.slotBase t) := by
    intro t ht
    rw [htrees₂ t ht, if_pos ht]
    simp only [Superblock.slotTree, hib₁]
  have hdb : ∀ j < 12, ino₂.db j = if size ≤ j * fs.img.sb.blockSize then 0 else ino.db j := by
    intro j hj
    rw [hdb₂, hd.db]
    exact if_congr (by simp [hj]) rfl rfl
  have hframe : ∀ s, s + fs.img.sb.fileInner fs.bytes ino ≤ fs.used →
      SameOn fs.img.sb.fragSize s fs.bytes fs₂.bytes := by
    intro s hs
    refine hframe₂ s fun f hf => ?_
    rw [hinner₁]
    exact apart_of_le fs.used_nodup hs hf
  have hkeeps := hd.keeps.trans hc.keeps
  have htree : FileTree fs₂ ino₂ (fileFrags fs.img.sb size) (blocksOf fs.img.sb size) others := by
    refine ⟨htree₂.sound, fun k hk hne => ?_, fun t ht => ?_, htree₂.owned⟩
    · refine ⟨(htree₂.direct k hk hne).1, ?_⟩
      rw [lt_blocksOf hg]
      by_contra hge
      rw [hdb k hk, if_pos (by omega)] at hne
      exact hne rfl
    · rw [hkeeps.img, htrees t ht]
      exact hkeeps.good (BlockTree.Good.prune (hok.slots t ht))
  have hcount : r₁ + r₂ + (fs.img.sb.fileOwn fs₂.bytes ino₂ (fileFrags fs.img.sb size)).card =
      (fs.img.sb.fileOwn fs.bytes ino (fileFrags fs.img.sb ino.size)).card := by
    have := hd.count
    rw [← fileOwn_congr_len hlen] at this
    omega
  refine ⟨{ htree with blocks := ?_ }, hkeeps, ?_, fun q hq => ?_, hframe _ ?_⟩
  · rw [hkeeps.img]
    refine blocks_sub ?_ hcount
    rw [← hok.blocks, hc.fields, hd.fields]
  · rw [hc.fields, hd.fields]
  · have hq' := Nat.div_add_mod' q fs.img.sb.blockSize
    have hblock : fs.img.sb.fileBlock fs₂.bytes ino₂ (q / fs.img.sb.blockSize) =
        fs.img.sb.fileBlock fs.bytes ino (q / fs.img.sb.blockSize) := by
      rw [cut_block hg hok.slots hdb htrees, if_pos (by omega)]
    change fs.img.sb.fileByte fs₂.bytes ino₂ q = _
    rw [Superblock.fileByte, Superblock.fileByte, hblock]
    by_cases h0 : fs.img.sb.fileBlock fs.bytes ino (q / fs.img.sb.blockSize) = 0
    · rw [if_pos h0, if_pos h0]
    · rw [if_neg h0, if_neg h0]
      have hin : InRun fs ino (fileFrags fs.img.sb ino.size) q := inRun_of_lt hg (by omega)
      refine (hframe _ ?_).at_extent h0 le_rfl (hin h0)
      exact (add_le_add le_rfl (Multiset.le_add_right _ _)).trans (hok.block_le _)
  · refine le_trans ?_ (hok.block_le 0)
    rw [add_comm]
    exact Multiset.le_add_left _ _

theorem zeroTail_ok {size : Nat} {fs' : Fs} {u : PUnit}
    (hok : FileOk fs ino (fileFrags fs.img.sb size) (blocksOf fs.img.sb size) others)
    (h : zeroTail ino size fs = .ok u fs') :
    FileOk fs' ino (fileFrags fs.img.sb size) (blocksOf fs.img.sb size) others ∧ fs.Keeps fs' ∧
      (∀ q < size, fs.img.sb.fileByte fs'.bytes ino q = fs.img.sb.fileByte fs.bytes ino q) ∧
      SameOn fs.img.sb.fragSize others fs.bytes fs'.bytes := by
  have hg := hok.geometry
  have hbs := hg.blockSize_ge
  simp only [zeroTail, bind_ok, get_ok] at h
  obtain ⟨_, _, ⟨rfl, rfl⟩, h⟩ := h
  split at h
  case isFalse =>
    obtain ⟨-, rfl⟩ := pure_ok.mp h
    exact ⟨hok, Fs.Keeps.refl fs, fun _ _ => rfl, SameOn.refl _ _ _⟩
  case isTrue hpart =>
    simp only [bind_ok] at h
    obtain ⟨frag, _, hres, h⟩ := h
    obtain ⟨rfl, rfl⟩ := resolveInodeDataBlock_ok hres
    split at h
    case isFalse =>
      obtain ⟨-, rfl⟩ := pure_ok.mp h
      exact ⟨hok, Fs.Keeps.refl fs, fun _ _ => rfl, SameOn.refl _ _ _⟩
    case isTrue hne =>
      have hpos := Nat.div_add_mod' size fs.img.sb.blockSize
      have hmod := Nat.mod_lt size (show 0 < fs.img.sb.blockSize by omega)
      have hcov := fileFrags_covers hg (show size % fs.img.sb.blockSize - 1 < _ by omega)
        (show size / fs.img.sb.blockSize * fs.img.sb.blockSize +
          (size % fs.img.sb.blockSize - 1) < size by omega)
      have hw := blockWritten hok.toFileTree hne
        (by rw [lenAt_fileFrags (by omega)]; omega) h
      refine ⟨hw.ok hok, hw.keeps, fun q hq => ?_, hw.frame⟩
      rw [hw.byte q (inRun_of_lt hg hq), if_neg]
      rintro ⟨hqk, hx, -⟩
      have hq' := Nat.div_add_mod' q fs.img.sb.blockSize
      rw [hqk] at hq'
      omega

/-- The shrinking half of `nextufs__file_resize`. -/
theorem shrinkFile_ok {inodeNo size : Nat} {fs' : Fs} {node' : Node} (hwf : FileWf fs ino others)
    (hlt : size < ino.size) (h : shrinkFile ⟨inodeNo, ino⟩ size fs = .ok node' fs') :
    node'.inodeNo = inodeNo ∧ Resized fs ino others size fs' node'.inode := by
  simp only [shrinkFile, bind_ok, get_ok, check_ok, pure_ok, Prod.exists] at h
  obtain ⟨_, _, ⟨rfl, rfl⟩, ino₁, r₁, fs₁, hdirect, ino₂, r₂, fs₂, hslots, _, _, ⟨-, rfl⟩, _, fs₃,
    hzero, rfl, rfl⟩ := h
  have hcut := cutFile_ok hwf hlt hdirect hslots
  have himg := hcut.keeps.img
  have hok := hcut.ok
  rw [← himg] at hok
  obtain ⟨hok₃, hkeeps, hbyte, hframe⟩ := zeroTail_ok hok hzero
  rw [himg] at hok₃ hbyte hframe
  refine ⟨rfl, hok₃, hcut.keeps.trans hkeeps, hcut.fields, fun q hq => ?_, hcut.frame.trans hframe⟩
  rw [if_pos (by omega), hbyte q hq, hcut.byte q hq]

theorem changeSize_ok {inodeNo size : Nat} {fs' : Fs} {node' : Node} (hwf : FileWf fs ino others)
    (hne : size ≠ ino.size) (h : changeSize ⟨inodeNo, ino⟩ size fs = .ok node' fs') :
    node'.inodeNo = inodeNo ∧ Resized fs ino others size fs' node'.inode := by
  unfold changeSize at h
  split at h
  case isTrue hgt => exact growFile_ok hwf hgt h
  case isFalse hle =>
    simp only [gt_iff_lt, Nat.not_lt] at hle
    exact shrinkFile_ok hwf (by omega) h

end

end NextUfs.Mutate
