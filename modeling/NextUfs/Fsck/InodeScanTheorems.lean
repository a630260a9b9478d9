/-
NextUfs.Fsck.InodeScanTheorems — the walk over an inode's blocks visits what
the file owns.

`Visited` follows a callback along a list of runs; `ckinode_visits` says that
the walk is such a visit along `fileRuns`, the direct runs with the length
`file_frags` gives and every block of the three trees. The proof goes down the
levels (`iblock_visits`), one indirect block at a time (`indirectBlock_visits`).
Two arithmetics have to agree on the way: `directFrags_eq` for the length of a
direct run, `lt_entriesInside` for the entries of an indirect block that lie in
the file.

An indirect block is read at a 32-bit address, so all of this is about files
whose indirect blocks begin below 4 GiB (`InReach`).
-/
import NextUfs.Fsck.InodeScan
import NextUfs.Mutate.FileTheorems

namespace NextUfs.Fsck

open NextUfs.Core NextUfs.Lib NextUfs.Lib.ByteStore NextUfs.Lib.StateResult NextUfs.Lib.Extents
  NextUfs.Mutate

/-! ## Shifts and masks -/

theorem and_upper {x k n : Nat} (hx : x < 2 ^ n) (hk : k ≤ n) :
    x &&& (2 ^ n - 2 ^ k) = x / 2 ^ k * 2 ^ k := by
  have hpos := Nat.two_pow_pos k
  have hle := Nat.pow_le_pow_right (n := 2) (by omega) hk
  refine Nat.eq_of_testBit_eq fun i => ?_
  have hup : 2 ^ n - 2 ^ k = 2 ^ n - (2 ^ k - 1 + 1) := by omega
  rw [Nat.testBit_and, hup, Nat.testBit_two_pow_sub_succ (by omega), Nat.testBit_two_pow_sub_one,
    Nat.testBit_mul_two_pow, Nat.testBit_div_two_pow]
  by_cases hi : i < k
  · simp [hi]
  · rw [Nat.sub_add_cancel (by omega)]
    by_cases hn : i < n
    · simp [hi, hn, Nat.le_of_not_lt hi]
    · have hz : x.testBit i = false :=
        Nat.testBit_lt_two_pow (hx.trans_le (Nat.pow_le_pow_right (by omega) (Nat.le_of_not_lt hn)))
      simp [hz]

theorem not32_pred32 {k : Nat} (hk : k < 32) : not32 (pred32 (2 ^ k)) = 2 ^ 32 - 2 ^ k := by
  have hpos := Nat.two_pow_pos k
  have hlt := Nat.pow_lt_pow_right (show 1 < 2 by omega) hk
  unfold not32 pred32
  omega

/-- The shifts and masks of a validated superblock are divisions and remainders. -/
structure Masks (sb : Superblock) : Prop where
  blkoff : ∀ loc, loc < 4294967296 → blkoff sb loc = loc % sb.blockSize
  fragroundup : ∀ size, size + sb.fragSize ≤ 4294967296 →
    fragroundup sb size = (size + sb.fragSize - 1) / sb.fragSize * sb.fragSize
  numfrags : ∀ loc, numfrags sb loc = loc / sb.fragSize

theorem masks {img : Image} (hv : imageValidate img = true) : Masks img.sb := by
  have hfs := (img.geometry hv).fragSize_ge
  obtain ⟨hs, -, -⟩ := of_decide_eq_true hv
  simp only [ShapeRejected, not_or, ne_eq, not_not, Nat.not_le, ge_iff_le] at hs
  obtain ⟨-, hbshift, hfshift, -, hbs, hpow, hbmask, hfmask, -⟩ := hs
  refine ⟨fun loc hloc => ?_, fun size hsize => ?_, fun loc => ?_⟩
  · have hb : not32 img.sb.blockMask = 2 ^ img.sb.blockShift - 1 := by
      have hpos := Nat.two_pow_pos img.sb.blockShift
      have hlt := Nat.pow_lt_pow_right (show 1 < 2 by omega) hbshift
      rw [hbmask, ← hbs, not32_pred32 hbshift, not32]
      omega
    rw [blkoff, hb, Nat.and_two_pow_sub_one_eq_mod, hbs]
  · rw [fragroundup, hfmask, ← hpow, not32_pred32 hfshift]
    rw [← hpow] at hsize hfs
    exact and_upper (by omega) (by omega)
  · rw [numfrags, Nat.shiftRight_eq_div_pow, hpow]

theorem nindir_eq {img : Image} (hv : imageValidate img = true) :
    img.sb.nindir = img.sb.entriesPerBlock := by
  obtain ⟨-, hl, -⟩ := of_decide_eq_true hv
  simp only [LayoutRejected, not_or, ne_eq, not_not] at hl
  exact hl.2.2.2.2.2.2.2.2.2.2.2.1

/-! ## Visits -/

/-- The callback continues at each of the runs in turn, and `P` holds after each. -/
def Visited (P : Checker → Prop) (func : Nat → Nat → CheckM Nat) :
    List (Nat × Nat) → Checker → Checker → Prop
  | [], s, s' => s = s'
  | r :: rs, s, s' => ∃ t, func r.1 r.2 s = .ok KEEPON t ∧ P t ∧ Visited P func rs t s'

section
variable {P : Checker → Prop} {func : Nat → Nat → CheckM Nat}

theorem visited_append {as bs : List (Nat × Nat)} : ∀ {s s' : Checker},
    Visited P func (as ++ bs) s s' ↔ ∃ t, Visited P func as s t ∧ Visited P func bs t s' := by
  induction as with
  | nil =>
    intro s s'
    exact ⟨fun h => ⟨s, rfl, h⟩, fun ⟨t, hst, h⟩ => hst ▸ h⟩
  | cons a as ih =>
    intro s s'
    constructor
    · rintro ⟨t, hfunc, hP, h⟩
      obtain ⟨u, has, hbs⟩ := ih.mp h
      exact ⟨u, ⟨t, hfunc, hP, has⟩, hbs⟩
    · rintro ⟨u, ⟨t, hfunc, hP, has⟩, hbs⟩
      exact ⟨t, hfunc, hP, ih.mpr ⟨u, has, hbs⟩⟩

theorem Visited.holds : ∀ {rs : List (Nat × Nat)} {s s' : Checker}, Visited P func rs s s' →
    P s → P s'
  | [], _, _, h, hP => h ▸ hP
  | _ :: _, _, _, ⟨_, _, hP, h⟩, _ => h.holds hP

theorem flatMap_range_take {f : Nat → List (Nat × Nat)} {m n : Nat} (hle : m ≤ n)
    (h : ∀ e, m ≤ e → e < n → f e = []) :
    (List.range n).flatMap f = (List.range' 0 m).flatMap f := by
  obtain ⟨d, rfl⟩ := Nat.exists_eq_add_of_le hle
  have hnil : (List.range d).flatMap (fun e => f (m + e)) = [] :=
    List.flatMap_eq_nil_iff.mpr fun e he =>
      h _ (Nat.le_add_right _ _) (Nat.add_lt_add_left (List.mem_range.mp he) _)
  rw [List.range_add, List.flatMap_append, ← List.range_eq_range', List.flatMap_map, hnil,
    List.append_nil]

/-- A loop that visits the runs `rs i` in turn `i` visits all of them. -/
theorem scan_visits {visit : Nat → CheckM Nat} {rs : Nat → List (Nat × Nat)} : ∀ {n i : Nat},
    (∀ k, i ≤ k → k < i + n → ∀ s s', P s → Visited P func (rs k) s s' →
      visit k s = .ok KEEPON s') →
    ∀ {s s' : Checker}, P s → Visited P func ((List.range' i n).flatMap rs) s s' →
      scan visit n i s = .ok KEEPON s'
  | 0, _, _, _, _, _, h => by
      obtain rfl : _ = _ := h
      rfl
  | n + 1, i, hvisit, s, s', hP, h => by
      rw [List.range'_succ, List.flatMap_cons, visited_append] at h
      obtain ⟨t, hfirst, hrest⟩ := h
      have ht := hvisit i le_rfl (by omega) s t hP hfirst
      rw [scan, bind_ok]
      refine ⟨KEEPON, t, ht, ?_⟩
      rw [if_neg (by decide)]
      exact scan_visits (fun k hk hlt => hvisit k (by omega) (by omega)) (hfirst.holds hP) hrest

/-- Pointers past the end that are null are no matter. -/
theorem clearPast_clean (op : Operator) (id : Inodesc) (ib : ByteStore) (s : Checker) :
    ∀ {n i : Nat}, (∀ k, i ≤ k → k < i + n → be32 ib (k * 4) = 0) →
      clearPast op id n i ib s = .ok (ib, false) s
  | 0, _, _ => rfl
  | n + 1, i, h => by
      rw [clearPast, if_pos (h i le_rfl (by omega))]
      exact clearPast_clean op id ib s fun k hk hlt => h k (by omega) (by omega)

theorem checkPast_clean (op : Operator) {sb : Superblock} (id : Inodesc) (blk : Nat)
    {nif : Nat} {ib : ByteStore} (s : Checker)
    (h : ∀ k, nif ≤ k → k < sb.nindir → be32 ib (k * 4) = 0) :
    checkPast op sb id blk nif ib s = .ok ib s := by
  unfold checkPast
  split
  · rw [bind_ok]
    exact ⟨_, s, clearPast_clean op id ib s fun k hk hlt => h k hk (by omega), rfl⟩
  · rfl
end

/-! ## Indirect blocks -/

/-- An indirect block the walk reads where it is: it begins below 4 GiB and is in range. -/
def InReach (sb : Superblock) (p : Nat) : Prop :=
  p * sb.fragSize < 4294967296 ∧ outrange sb p sb.fragsPerBlock = false

/-- The entries of a file's indirect block lie inside what the walk takes of it. -/
theorem lt_entriesInside {sb : Superblock} {isize : Int} {sizepb e : Nat} (hpos : 0 < sizepb)
    (he : e < sb.nindir) (hin : (e * sizepb : Nat) < isize) : e < entriesInside sb isize sizepb := by
  rw [entriesInside, lt_min_iff]
  refine ⟨?_, he⟩
  rw [if_neg (by omega)]
  have hdiv : (e : Int) ≤ (isize - 1) / sizepb := by
    rw [Int.le_ediv_iff_mul_le (by omega)]
    push_cast at hin
    omega
  omega

section
variable {op : Operator} {sb : Superblock} {id : Inodesc} {b : ByteStore} {m : Multiset Nat}
  {ok : Nat → Prop} {size : Nat}

/-- The check's disk holds the blocks of `m`. -/
def Holds (sb : Superblock) (m : Multiset Nat) (b : ByteStore) (s : Checker) : Prop :=
  SameOn sb.fragSize m b s.disk

/-- An entry of the buffer is the entry of the block. -/
theorem getIndir_entry (hg : Geometry sb) (hdvd : DEV_BSIZE ∣ sb.fragSize) {s : Checker}
    (hs : Holds sb m b s) {p e : Nat} (hp : p ≠ 0) (hlow : p * sb.fragSize < 4294967296)
    (hm : extent p sb.fragsPerBlock ≤ m) (he : e < sb.entriesPerBlock) :
    be32 (getIndir sb s.disk p) (e * 4) = be32 b (p * sb.fragSize + e * 4) := by
  have hentries := hg.entries_le
  have haddr : dbtob (fsbtodb sb p) = p * sb.fragSize := by
    rw [dbtob_eq, fsbtodb, Nat.div_mul_cancel (Nat.dvd_mul_left_of_dvd hdvd p), Nat.mod_eq_of_lt hlow]
  rw [← hs.be32_extent hp hm (x := e * 4) (by omega)]
  exact be32_congr fun i _ => by rw [getIndir, haddr, Nat.add_assoc]

/-- One indirect block: the callback is called for it, and each entry is visited. -/
theorem indirectBlock_visits (hg : Geometry sb) (hdvd : DEV_BSIZE ∣ sb.fragSize)
    (hnindir : sb.nindir = sb.entriesPerBlock) (haddr : id.type = .addr) {l p base : Nat}
    {visit : Nat → Nat → CheckM Nat} (hp : p ≠ 0)
    (hgood : (sb.tree b (l + 1) p).Good sb.entriesPerBlock ok (blocksOf sb size) (l + 1) base)
    (hreach : InReach sb p) (hm : extent p sb.fragsPerBlock ≤ m)
    (hvisit : ∀ e < sb.entriesPerBlock, be32 b (p * sb.fragSize + e * 4) ≠ 0 → ∀ s s',
      Holds sb m b s → Visited (Holds sb m b) id.func
        ((sb.tree b l (be32 b (p * sb.fragSize + e * 4))).runs sb.entriesPerBlock sb.fragsPerBlock)
        s s' → visit e (be32 b (p * sb.fragSize + e * 4)) s = .ok KEEPON s')
    {s s' : Checker} (h : Visited (Holds sb m b) id.func
      ((sb.tree b (l + 1) p).runs sb.entriesPerBlock sb.fragsPerBlock) s s') :
    indirectBlock op sb id (sb.blockSize * sb.nindir ^ l) visit p (size - base * sb.blockSize : Int)
      s = .ok KEEPON s' := by
  have hbs := hg.blockSize_ge
  unfold Superblock.tree at hgood h hvisit
  rw [BlockTree.runs_load hp] at h
  obtain ⟨-, -, hkids⟩ := (BlockTree.good_load hp).mp hgood
  obtain ⟨t, hfunc, ht, hrest⟩ := h
  set nif := entriesInside sb (size - base * sb.blockSize : Int)
    (sb.blockSize * sb.nindir ^ l) with hnif
  have hentry := fun e (he : e < sb.entriesPerBlock) => getIndir_entry hg hdvd ht hp hreach.1 hm he
  have hle : nif ≤ sb.entriesPerBlock := hnindir ▸ Nat.min_le_right ..
  -- what is not null lies inside the file
  have hinside : ∀ e < sb.entriesPerBlock, be32 b (p * sb.fragSize + e * 4) ≠ 0 → e < nif := by
    intro e he hne
    have hlt := (lt_blocksOf hg).mp ((hkids e he).root_lt (by rwa [BlockTree.ptr_load]))
    refine lt_entriesInside (Nat.mul_pos (by omega) (Nat.pow_pos (by omega))) (by omega) ?_
    have hsplit : (base + e * sb.entriesPerBlock ^ l) * sb.blockSize =
        base * sb.blockSize + e * (sb.blockSize * sb.entriesPerBlock ^ l) := by ring
    rw [hsplit] at hlt
    rw [hnindir]
    have hcast : ((base * sb.blockSize : Nat) : Int) = base * sb.blockSize := Nat.cast_mul _ _
    omega
  rw [indirectBlock, haddr, bind_ok]
  refine ⟨KEEPON, t, hfunc, ?_⟩
  beta_reduce
  rw [if_neg (by decide), if_neg (by simp [hreach.2]), bind_ok]
  refine ⟨t, t, rfl, ?_⟩
  rw [bind_ok]
  refine ⟨getIndir sb t.disk p, t, checkPast_clean op id p t fun k hk hlt => ?_, ?_⟩
  · rw [hnindir] at hlt
    rw [hentry k hlt]
    by_contra hne
    exact absurd (hinside k hlt hne) (by omega)
  · -- the entries the loop leaves out are holes
    have hruns : ∀ e, nif ≤ e → e < sb.entriesPerBlock → (BlockTree.load sb.entriesPerBlock
        sb.fragSize b l (be32 b (p * sb.fragSize + e * 4))).runs sb.entriesPerBlock
        sb.fragsPerBlock = [] := by
      intro e hle he
      have hnull : be32 b (p * sb.fragSize + e * 4) = 0 := by
        by_contra hne
        exact absurd (hinside e he hne) (by omega)
      rw [hnull, BlockTree.load_null]
      rfl
    rw [flatMap_range_take hle hruns] at hrest
    refine scan_visits (fun e _ hlt u u' hu hrun => ?_) ht hrest
    · have he : e < sb.entriesPerBlock := by omega
      rw [hentry e he]
      split
      case isTrue hnull =>
        rw [hnull, BlockTree.load_null] at hrun
        obtain rfl : u = u' := hrun
        rfl
      case isFalse hne => exact hvisit e he hne u u' hu hrun
/-- `iblock` visits the blocks of its tree; the induction is on the level. -/
theorem iblock_visits (hg : Geometry sb) (hdvd : DEV_BSIZE ∣ sb.fragSize)
    (hnindir : sb.nindir = sb.entriesPerBlock) (haddr : id.type = .addr) : ∀ {below p base : Nat},
    p ≠ 0 → (sb.tree b (below + 1) p).Good sb.entriesPerBlock ok (blocksOf sb size) (below + 1) base →
    (sb.tree b (below + 1) p).Nodes sb.entriesPerBlock (InReach sb) →
    sb.inner (sb.tree b (below + 1) p) ≤ m → ∀ {s s' : Checker},
    Visited (Holds sb m b) id.func
      ((sb.tree b (below + 1) p).runs sb.entriesPerBlock sb.fragsPerBlock) s s' →
    iblock op sb id below p (size - base * sb.blockSize : Int) s = .ok KEEPON s' := by
  intro below
  induction below with
  | zero =>
    intro p base hp hgood hnodes hm s s' h
    have hroot := (BlockTree.nodes_load hp).mp hnodes
    rw [Superblock.inner, Superblock.tree, BlockTree.inner_load hp] at hm
    have hunit : sb.blockSize = sb.blockSize * sb.nindir ^ 0 := by rw [Nat.pow_zero, Nat.mul_one]
    have hbody : iblock op sb id 0 p = indirectBlock op sb id (sb.blockSize * sb.nindir ^ 0)
        (fun _ q => id.func q sb.fragsPerBlock) p := by
      rw [← hunit]
      rfl
    rw [hbody]
    refine indirectBlock_visits hg hdvd hnindir haddr hp hgood hroot.1
      ((Multiset.le_add_right _ _).trans hm) (fun e _ hne u u' _ hrun => ?_) h
    -- an entry of the last level is one run
    rw [Superblock.tree, BlockTree.load, if_neg hne] at hrun
    obtain ⟨t, hfunc, -, rfl⟩ := hrun
    exact hfunc
  | succ below ih =>
    intro p base hp hgood hnodes hm s s' h
    have hroot := (BlockTree.nodes_load hp).mp hnodes
    obtain ⟨-, -, hkids⟩ := (BlockTree.good_load hp).mp hgood
    rw [Superblock.inner, Superblock.tree, BlockTree.inner_load hp] at hm
    rw [iblock]
    refine indirectBlock_visits hg hdvd hnindir haddr hp hgood hroot.1
      ((Multiset.le_add_right _ _).trans hm) (fun e he hne u u' _ hrun => ?_) h
    have hsize : (size - base * sb.blockSize : Int) - e * (sb.blockSize * sb.nindir ^ (below + 1)) =
        size - (base + e * sb.entriesPerBlock ^ (below + 1) : Nat) * sb.blockSize := by
      rw [hnindir]
      push_cast
      ring
    have hkid := (le_sum (fun e => (BlockTree.load sb.entriesPerBlock sb.fragSize b (below + 1)
      (be32 b (p * sb.fragSize + e * 4))).inner sb.entriesPerBlock sb.fragsPerBlock) he).trans
        ((Multiset.le_add_left _ _).trans hm)
    have hstep := ih hne (hkids e he) (hroot.2 e he) hkid hrun
    rw [← hsize] at hstep
    exact_mod_cast hstep
end

/-! ## The file -/

/-- The runs a file owns, in the order of a walk: its direct runs, and the blocks of its trees. -/
def fileRuns (sb : Superblock) (b : ByteStore) (ino : Inode) : List (Nat × Nat) :=
  (List.range NDADDR).flatMap (fun k =>
    if ino.db k = 0 then [] else [(ino.db k, fileFrags sb ino.size k)]) ++
  (List.range NIADDR).flatMap fun s =>
    (sb.slotTree b ino s).runs sb.entriesPerBlock sb.fragsPerBlock

theorem diSize_eq {ino : Inode} (h : ino.size ≤ INT32_MAX) : diSize ino = ino.size := by
  unfold INT32_MAX at h
  have hword : (UInt32.ofNat ino.size).toInt32.toBitVec = BitVec.ofNat 32 ino.size := rfl
  rw [diSize, Int32.toInt, hword, BitVec.toInt_eq_toNat_of_lt (by rw [BitVec.toNat_ofNat]; omega),
    BitVec.toNat_ofNat]
  omega

/-- `howmany(di_size, fs_bsize)` is the number of blocks the file reaches into. -/
theorem howmany_eq {sb : Superblock} (hg : Geometry sb) {ino : Inode} (h : ino.size ≤ INT32_MAX) :
    (diSize ino + (sb.blockSize - 1)).tdiv sb.blockSize = blocksOf sb ino.size := by
  have hbs := hg.blockSize_ge
  have hsum : ((ino.size + sb.blockSize - 1 : Nat) : Int) = ino.size + (sb.blockSize - 1) := by
    omega
  rw [diSize_eq h, ← hsum, blocksOf]
  rfl

/-- The countdown gives every direct run the length `file_frags` does. -/
theorem directFrags_eq {sb : Superblock} (hg : Geometry sb) (hm : Masks sb) {ino : Inode} {k : Nat}
    (hsize : ino.size ≤ INT32_MAX) (hk : k < 12) (hin : k * sb.blockSize < ino.size) :
    directFrags sb ino k = fileFrags sb ino.size k := by
  have hbs := hg.blockSize_ge
  have hbs' := hg.blockSize_le
  have hfs := hg.fragSize_ge
  have hfs' := hg.fragSize_le
  have hword : ino.size % 4294967296 = ino.size :=
    Nat.mod_eq_of_lt (by unfold INT32_MAX at hsize; omega)
  have hoffset := hm.blkoff ino.size (by omega)
  have hdiv := Nat.div_add_mod' ino.size sb.blockSize
  have hmod := Nat.mod_lt ino.size (show 0 < sb.blockSize by omega)
  rw [directFrags, howmany_eq hg hsize, hword, hoffset]
  have hblocks : ((blocksOf sb ino.size : Int) - (k + 1) = 0) ↔ ino.size ≤ (k + 1) * sb.blockSize := by
    have h₁ : k < blocksOf sb ino.size ↔ k * sb.blockSize < ino.size := lt_blocksOf hg
    have h₂ : k + 1 < blocksOf sb ino.size ↔ (k + 1) * sb.blockSize < ino.size := lt_blocksOf hg
    omega
  split
  case isTrue h =>
    rw [hblocks] at h
    -- the last block of the file, not full
    have hk' : ino.size / sb.blockSize = k := by
      rw [Nat.add_mul, Nat.one_mul] at h
      rcases Nat.lt_trichotomy (ino.size / sb.blockSize) k with hlt | heq | hgt
      · have := Nat.mul_le_mul_right sb.blockSize (Nat.succ_le_of_lt hlt)
        rw [Nat.succ_mul] at this
        omega
      · exact heq
      · have := Nat.mul_le_mul_right sb.blockSize (Nat.succ_le_of_lt hgt)
        rw [Nat.succ_mul] at this
        omega
    rw [hk'] at hdiv
    rw [hm.fragroundup _ (by omega), hm.numfrags, Nat.mul_div_cancel _ (by omega),
      fileFrags_tail hin hk (by omega)]
    congr 1
    omega
  case isFalse h =>
    rw [hblocks] at h
    refine (fileFrags_full hin (.inr ?_)).symm
    rw [Nat.add_mul, Nat.one_mul] at h
    by_contra hlt
    refine h ⟨by omega, fun h0 => ?_⟩
    rw [h0, Nat.add_zero] at hdiv
    have hge : k + 1 ≤ ino.size / sb.blockSize := by
      by_contra hc
      have := Nat.mul_le_mul_right sb.blockSize (show ino.size / sb.blockSize ≤ k by omega)
      omega
    have := Nat.mul_le_mul_right sb.blockSize hge
    rw [Nat.succ_mul] at this
    omega

theorem slotSize_eq {sb : Superblock} (hnindir : sb.nindir = sb.entriesPerBlock) {ino : Inode}
    (hsize : ino.size ≤ INT32_MAX) : ∀ s, slotSize sb ino s = ino.size - sb.slotBase s * sb.blockSize
  | 0 => by
      rw [slotSize, diSize_eq hsize, Superblock.slotBase, NDADDR]
      push_cast
      ring
  | s + 1 => by
      rw [slotSize, slotSize_eq hnindir hsize s, Superblock.slotBase, hnindir]
      push_cast
      ring

/-- `ckinode` has begun. -/
def Checker.start (s : Checker) : Checker := { s with idFix := .dontknow, idEntryno := 0 }

/-- The walk of a file: the callback is called once for each run of the file. -/
theorem ckinode_visits {op : Operator} {img : Image} (hv : imageValidate img = true) {id : Inodesc}
    (haddr : id.type = .addr) {b : ByteStore} {m : Multiset Nat} {ok : Nat → Prop} {ino : Inode}
    (hspecial : ¬ SPECIAL ino) (hsize : ino.size ≤ INT32_MAX)
    (hdirect : ∀ k < 12, ino.db k ≠ 0 → k < blocksOf img.sb ino.size)
    (hslots : ∀ s < 3, (img.sb.slotTree b ino s).Good img.sb.entriesPerBlock ok
      (blocksOf img.sb ino.size) (s + 1) (img.sb.slotBase s))
    (hnodes : ∀ s < 3, (img.sb.slotTree b ino s).Nodes img.sb.entriesPerBlock (InReach img.sb))
    (hm : img.sb.fileInner b ino ≤ m) {s s' : Checker} (hs : Holds img.sb m b s)
    (h : Visited (Holds img.sb m b) id.func (fileRuns img.sb b ino) s.start s') :
    ckinode op img.sb id ino s = .ok KEEPON s' := by
  have hg := img.geometry hv
  have hnindir := nindir_eq hv
  rw [fileRuns, visited_append] at h
  obtain ⟨t, hfirst, hrest⟩ := h
  rw [List.range_eq_range'] at hfirst hrest
  have hstart : Holds img.sb m b s.start := hs
  rw [ckinode, bind_ok]
  refine ⟨⟨⟩, s.start, rfl, ?_⟩
  rw [if_neg hspecial, bind_ok]
  refine ⟨KEEPON, t, scan_visits (fun k _ hk u u' _ hrun => ?_) hstart hfirst, ?_⟩
  · split
    case isTrue h0 =>
      rw [if_pos h0] at hrun
      obtain rfl : u = u' := hrun
      rfl
    case isFalse hne =>
      have hk' : k < 12 := by unfold NDADDR at hk; omega
      rw [if_neg hne] at hrun
      obtain ⟨u₁, hfunc, -, rfl⟩ := hrun
      rwa [directFrags_eq hg (masks hv) hsize hk' ((lt_blocksOf hg).mp (hdirect k hk' hne))]
  · rw [if_neg (by decide)]
    refine scan_visits (fun k _ hk u u' _ hrun => ?_) (hfirst.holds hstart) hrest
    have hk' : k < 3 := by unfold NIADDR at hk; omega
    split
    case isTrue h0 =>
      rw [Superblock.slotTree, h0, Superblock.tree, BlockTree.load_null] at hrun
      obtain rfl : u = u' := hrun
      rfl
    case isFalse hne =>
      rw [slotSize_eq hnindir hsize]
      exact iblock_visits hg (dvd_fragSize hv) hnindir haddr hne (hslots k hk') (hnodes k hk')
        ((le_sum (fun s => img.sb.inner (img.sb.slotTree b ino s)) hk').trans hm) hrun

/-! ## The runs -/

/-- A callback that always continues. -/
def continuing (f : Nat → Nat → Checker → Checker) : Nat → Nat → CheckM Nat :=
  fun blk n s => .ok KEEPON (f blk n s)

theorem visited_continuing {P : Checker → Prop} {f : Nat → Nat → Checker → Checker}
    (hf : ∀ blk n s, P s → P (f blk n s)) : ∀ (rs : List (Nat × Nat)) {s : Checker}, P s →
    Visited P (continuing f) rs s (rs.foldl (fun s r => f r.1 r.2 s) s)
  | [], _, _ => rfl
  | r :: rs, s, hs =>
    ⟨f r.1 r.2 s, rfl, hf r.1 r.2 s hs, visited_continuing hf rs (hf r.1 r.2 s hs)⟩

/-- The runs are what the file owns. -/
theorem sum_fileRuns (sb : Superblock) (b : ByteStore) (ino : Inode) :
    ((fileRuns sb b ino).map fun r => extent r.1 r.2).sum =
      sb.fileOwn b ino (fileFrags sb ino.size) := by
  rw [fileRuns, List.map_append, List.sum_append, List.map_flatMap, List.map_flatMap,
    sum_flatMap_range, sum_flatMap_range, Superblock.fileOwn]
  congr 1
  · refine Finset.sum_congr rfl fun k _ => ?_
    split
    case isTrue h0 => rw [h0, extent_null]; rfl
    case isFalse => simp
  · exact Finset.sum_congr rfl fun s _ => BlockTree.sum_runs _

/-- Every run is in place. -/
theorem at_fileRuns {fs : Fs} {ino : Inode} {others : Multiset Nat} (hwf : FileWf fs ino others) :
    ∀ r ∈ fileRuns fs.img.sb fs.bytes ino, r.1 ≠ 0 ∧ fs.RunOk r.1 r.2 := by
  intro r hr
  rcases List.mem_append.mp hr with hr | hr
  · obtain ⟨k, hk, hr⟩ := List.mem_flatMap.mp hr
    by_cases h0 : ino.db k = 0
    · rw [if_pos h0] at hr
      exact absurd hr List.not_mem_nil
    · rw [if_neg h0] at hr
      obtain rfl := List.mem_singleton.mp hr
      exact ⟨h0, (hwf.1.direct k (List.mem_range.mp hk) h0).1⟩
  · obtain ⟨s, hs, hr⟩ := List.mem_flatMap.mp hr
    obtain ⟨hok, hlen⟩ := (hwf.1.slots s (List.mem_range.mp hs)).at_runs r hr
    rw [hlen]
    exact hok

end NextUfs.Fsck
