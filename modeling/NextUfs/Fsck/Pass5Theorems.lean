/-
NextUfs.Fsck.Pass5Theorems — pass 5 repairs a filesystem, and converges.

Told yes at every question, the pass stores in each group's block what it
rebuilt (`groupStep_yes`), and leaves what lies elsewhere. So every group is
exact afterwards, and a second pass has nothing to do (`pass5_clean`), as long as
each group's block is where the device looks for it. From 4 GiB on it is not:
the last block is then never written (`pass5_misses`).
-/
import NextUfs.Fsck.RebuildTheorems

namespace NextUfs.Fsck

open NextUfs.Core NextUfs.Lib NextUfs.Lib.ByteStore NextUfs.Lib.Runs

/-! ## Repairs -/

theorem repair_right {yes : Bool} {msg : String} {wrong : Prop} [Decidable wrong]
    {fixed : Pass5 → Pass5} {s : Pass5} (h : ¬ wrong) : repair yes msg wrong fixed s = s :=
  if_neg h

/-- Answered yes, what is wrong is fixed; what the pass was told is all that changes besides. -/
theorem repair_yes (msg : String) (wrong : Prop) [Decidable wrong] (fixed : Pass5 → Pass5)
    {s : Pass5} (hid : s.idFix ≠ .nofix) :
    ∃ idFix log, idFix ≠ .nofix ∧
      repair true msg wrong fixed s =
        if wrong then fixed { s with idFix := idFix, log := log }
        else { s with idFix := idFix, log := log } := by
  obtain ⟨cg, csum, cstotal, ronly, fmod, idFix, log⟩ := s
  by_cases hw : wrong
  · simp only [repair, if_pos hw]
    cases idFix with
    | dontknow => exact ⟨.fix, log ++ [msg], by decide, rfl⟩
    | nofix => exact absurd rfl hid
    | fix => exact ⟨.fix, log, by decide, rfl⟩
  · simp only [repair, if_neg hw]
    exact ⟨idFix, log, hid, rfl⟩

theorem copyMaps_same (sb : Superblock) (newcg cgrp : CgBlock) :
    sameMaps sb newcg (copyMaps sb newcg cgrp) :=
  ⟨fun _ hi => (if_pos hi).symm, rfl, fun _ hi => (if_pos hi).symm⟩

/-- The maps are behind what `copyHeader` writes. -/
theorem copyHeader_agrees {sb : Superblock} {newcg cgrp : CgBlock} (h : sameMaps sb newcg cgrp) :
    Agrees sb newcg (copyHeader newcg cgrp) := by
  refine ⟨h, rfl, rfl, rfl, rfl, rfl, rfl, rfl, rfl, rfl, rfl, rfl, ?_, ?_, ?_⟩
  · exact fun _ hi => (if_pos hi).symm
  · exact fun _ hi => (if_pos hi).symm
  · exact fun _ hi _ hj => (if_pos ⟨hi, hj⟩).symm

/-! ## Storing a block -/

theorem sameMaps_trans {sb : Superblock} {a b c : CgBlock} (h : sameMaps sb a b)
    (h' : sameMaps sb b c) : sameMaps sb a c :=
  ⟨fun i hi => (h.1 i hi).trans (h'.1 i hi), h.2.1.trans h'.2.1,
    fun i hi => (h.2.2 i hi).trans (h'.2.2 i hi)⟩

theorem sameHeader_trans {a b c : CgBlock} (h : sameHeader a b) (h' : sameHeader b c) :
    sameHeader a c := by
  obtain ⟨h₁, h₂, h₃, h₄, h₅, h₆, h₇, h₈, h₉, h₁₀, h₁₁, h₁₂, h₁₃, h₁₄⟩ := h
  obtain ⟨k₁, k₂, k₃, k₄, k₅, k₆, k₇, k₈, k₉, k₁₀, k₁₁, k₁₂, k₁₃, k₁₄⟩ := h'
  exact ⟨h₁.trans k₁, h₂.trans k₂, h₃.trans k₃, h₄.trans k₄, h₅.trans k₅, h₆.trans k₆,
    h₇.trans k₇, h₈.trans k₈, h₉.trans k₉, h₁₀.trans k₁₀, h₁₁.trans k₁₁,
    fun i hi => (h₁₂ i hi).trans (k₁₂ i hi), fun i hi => (h₁₃ i hi).trans (k₁₃ i hi),
    fun i hi j hj => (h₁₄ i hi j hj).trans (k₁₄ i hi j hj)⟩

theorem Agrees.trans {sb : Superblock} {a b c : CgBlock} (h : Agrees sb a b)
    (h' : Agrees sb b c) : Agrees sb a c :=
  ⟨sameMaps_trans h.maps h'.maps, sameHeader_trans h.header h'.header⟩

/-- What is compared of a block goes through the disk's bytes and back. -/
theorem decodeCg_encodeCg (sb : Superblock) (cg : CgBlock) (buf : ByteStore) :
    Agrees sb cg (decodeCg (encodeCg sb cg buf)) := by
  have word : ∀ {k v : Nat}, k < 13 → cg.words.getD k 0 = v → v < 4294967296 →
      be32 (encodeCg sb cg buf) (4 * k) = v := fun hk hv hlt => by
    rw [encodeCg_word sb cg buf hk, hv, Nat.mod_eq_of_lt hlt]
  have word32 : ∀ {k : Nat} {x : UInt32}, k < 13 → cg.words.getD k 0 = x.toNat →
      x = UInt32.ofNat (be32 (encodeCg sb cg buf) (4 * k)) := fun {k x} hk hv => by
    rw [word hk hv x.toNat_lt, UInt32.ofNat_toNat]
  have signed : ∀ {k : Nat} {x : Int32}, k < 13 → cg.words.getD k 0 = x.toUInt32.toNat →
      x = (UInt32.ofNat (be32 (encodeCg sb cg buf) (4 * k))).toInt32 := fun {k x} hk hv => by
    rw [word hk hv x.toUInt32.toNat_lt, UInt32.ofNat_toNat, Int32.toInt32_toUInt32]
  have halves := be32_halves (encodeCg sb cg buf) 16
  have hpair : be32 (encodeCg sb cg buf) 16 =
      cg.ncyl.toUInt16.toNat * 65536 + cg.niblk.toUInt16.toNat := by
    have h₁ := cg.ncyl.toUInt16.toNat_lt
    have h₂ := cg.niblk.toUInt16.toNat_lt
    exact word (k := 4) (by decide) rfl (by omega)
  have hncyl : be16 (encodeCg sb cg buf) 16 = cg.ncyl.toUInt16.toNat := by
    have := cg.niblk.toUInt16.toNat_lt
    omega
  have hniblk : be16 (encodeCg sb cg buf) 18 = cg.niblk.toUInt16.toNat := by
    have hlt := cg.niblk.toUInt16.toNat_lt
    have hlow : be16 (encodeCg sb cg buf) 18 = be32 (encodeCg sb cg buf) 16 % 65536 := halves.2
    omega
  refine ⟨⟨fun i hi => (encodeCg_iused sb cg buf hi).symm, ?_,
    fun i hi => (encodeCg_free sb cg buf hi).symm⟩, word32 (k := 0) (by decide) rfl,
    word32 (k := 1) (by decide) rfl, signed (k := 2) (by decide) rfl,
    signed (k := 3) (by decide) rfl, ?_, ?_, signed (k := 5) (by decide) rfl, ?_,
    signed (k := 10) (by decide) rfl, signed (k := 11) (by decide) rfl,
    signed (k := 12) (by decide) rfl, fun i hi => ?_, fun i hi => ?_, fun i hi j hj => ?_⟩
  · show cg.magic = UInt32.ofNat (be32 (encodeCg sb cg buf) CG_MAGIC_OFF)
    rw [encodeCg_magic, UInt32.ofNat_toNat]
  · show cg.ncyl = (UInt16.ofNat (be16 (encodeCg sb cg buf) 16)).toInt16
    rw [hncyl, UInt16.ofNat_toNat, Int16.toInt16_toUInt16]
  · show cg.niblk = (UInt16.ofNat (be16 (encodeCg sb cg buf) 18)).toInt16
    rw [hniblk, UInt16.ofNat_toNat, Int16.toInt16_toUInt16]
  · have h₆ := word32 (k := 6) (x := cg.cs.ndir) (by decide) rfl
    have h₇ := word32 (k := 7) (x := cg.cs.nbfree) (by decide) rfl
    have h₈ := word32 (k := 8) (x := cg.cs.nifree) (by decide) rfl
    have h₉ := word32 (k := 9) (x := cg.cs.nffree) (by decide) rfl
    exact Csum.mk.injEq .. ▸ ⟨h₆, h₇, h₈, h₉⟩
  · show cg.frsum i = UInt32.ofNat (be32 (encodeCg sb cg buf) (CG_FRSUM_OFF + i * 4))
    rw [encodeCg_frsum sb cg buf hi, UInt32.ofNat_toNat]
  · show cg.btot i = UInt32.ofNat (be32 (encodeCg sb cg buf) (CG_BTOT_OFF + i * 4))
    rw [encodeCg_btot sb cg buf hi, UInt32.ofNat_toNat]
  · show cg.b i j = UInt16.ofNat (be16 (encodeCg sb cg buf) (CG_BPOS_OFF + (i * NRPOS + j) * 2))
    rw [encodeCg_b sb cg buf hi hj, UInt16.ofNat_toNat]

/-- And so does what is stored and loaded. -/
theorem loadCg_storeCg {sb : Superblock} (hg : Geometry sb) (off : Nat) (cg : CgBlock)
    (disk : ByteStore) : Agrees sb cg (loadCg sb (storeCg sb off cg disk) off) := by
  have hfits := hg.bitmap_fits
  have hcut : (fun i => if i < sb.cgSize then storeCg sb off cg disk (off + i) else 0) =
      encodeCg sb cg fun i => if i < sb.cgSize then disk (off + i) else 0 := by
    funext i
    by_cases hi : i < sb.cgSize
    · rw [if_pos hi, storeCg, patch_of_mem (by omega) (by omega), Nat.add_sub_cancel_left, encodeCg,
        encodeCg, if_pos hi]
    · rw [if_neg hi, encodeCg, if_neg (by omega), if_neg hi]
  rw [loadCg, hcut]
  exact decodeCg_encodeCg sb cg _

/-! ## One group -/

/-- Blocks apart from group `c`'s place on the device are the same. -/
def Elsewhere (sb : Superblock) (c : Nat) (disk disk' : ByteStore) : Prop :=
  ∀ x, Region.Apart ⟨x, sb.cgSize⟩ ⟨cgDevice sb c, sb.cgSize⟩ →
    loadCg sb disk' x = loadCg sb disk x

theorem Elsewhere.refl (sb : Superblock) (c : Nat) (disk : ByteStore) :
    Elsewhere sb c disk disk := fun _ _ => rfl

theorem Elsewhere.trans {sb : Superblock} {c : Nat} {d₁ d₂ d₃ : ByteStore}
    (h : Elsewhere sb c d₁ d₂) (h' : Elsewhere sb c d₂ d₃) : Elsewhere sb c d₁ d₃ :=
  fun x hx => (h' x hx).trans (h x hx)

theorem elsewhere_storeCg (sb : Superblock) (c : Nat) (cg : CgBlock) (disk : ByteStore) :
    Elsewhere sb c disk (storeCg sb (cgDevice sb c) cg disk) :=
  fun _ hx => loadCg_storeCg_of_apart cg disk hx

/-- The maps of group `c`, told yes. -/
theorem repairMaps_yes {sb : Superblock} (hg : Geometry sb) (newcg : CgBlock) (c : Nat) {s : Pass5}
    (hid : s.idFix ≠ .nofix) :
    ∃ disk idFix log, sameMaps sb newcg (loadCg sb disk (cgDevice sb c)) ∧
      Elsewhere sb c s.disk disk ∧ idFix ≠ .nofix ∧
      repair true "BLK(S) MISSING IN BIT MAPS" (¬ sameMaps sb newcg (s.cgrp sb c))
          (fun s => s.putCg sb c (copyMaps sb newcg (s.cgrp sb c))) s =
        { s with disk := disk, idFix := idFix, log := log } := by
  obtain ⟨idFix, log, hid', h⟩ := repair_yes "BLK(S) MISSING IN BIT MAPS"
    (¬ sameMaps sb newcg (s.cgrp sb c))
    (fun s => s.putCg sb c (copyMaps sb newcg (s.cgrp sb c))) hid
  rw [h]
  by_cases hsame : sameMaps sb newcg (s.cgrp sb c)
  · exact ⟨s.disk, idFix, log, hsame, .refl _ _ _, hid', if_neg (not_not.mpr hsame)⟩
  · exact ⟨_, idFix, log, sameMaps_trans (copyMaps_same sb newcg _) (loadCg_storeCg hg _ _ _).maps,
      elsewhere_storeCg _ _ _ _, hid', if_pos hsame⟩

/-- The header of group `c`, told yes. -/
theorem repairHeader_yes {sb : Superblock} (hg : Geometry sb) {newcg : CgBlock} {c : Nat}
    {s : Pass5} (hid : s.idFix ≠ .nofix) (hmaps : sameMaps sb newcg (s.cgrp sb c)) :
    ∃ disk idFix log, Agrees sb newcg (loadCg sb disk (cgDevice sb c)) ∧
      Elsewhere sb c s.disk disk ∧ idFix ≠ .nofix ∧
      repair true "SUMMARY INFORMATION BAD" (¬ sameHeader newcg (s.cgrp sb c))
          (fun s => s.putCg sb c (copyHeader newcg (s.cgrp sb c))) s =
        { s with disk := disk, idFix := idFix, log := log } := by
  obtain ⟨idFix, log, hid', h⟩ := repair_yes "SUMMARY INFORMATION BAD"
    (¬ sameHeader newcg (s.cgrp sb c))
    (fun s => s.putCg sb c (copyHeader newcg (s.cgrp sb c))) hid
  rw [h]
  by_cases hsame : sameHeader newcg (s.cgrp sb c)
  · exact ⟨s.disk, idFix, log, ⟨hmaps, hsame⟩, .refl _ _ _, hid', if_neg (not_not.mpr hsame)⟩
  · exact ⟨_, idFix, log, (copyHeader_agrees hmaps).trans (loadCg_storeCg hg _ _ _),
      elsewhere_storeCg _ _ _ _, hid', if_pos hsame⟩

/-- The summary of group `c`, told yes. -/
theorem repairSummary_yes (newcg : CgBlock) (c : Nat) {s : Pass5} (hid : s.idFix ≠ .nofix) :
    ∃ idFix log, idFix ≠ .nofix ∧
      repair true "FREE BLK COUNT(S) WRONG IN SUPERBLK" (newcg.cs ≠ s.csum c)
          (fun s => { s with csum := Function.update s.csum c newcg.cs }) s =
        { s with csum := Function.update s.csum c newcg.cs, idFix := idFix, log := log } := by
  obtain ⟨idFix, log, hid', h⟩ := repair_yes "FREE BLK COUNT(S) WRONG IN SUPERBLK"
    (newcg.cs ≠ s.csum c) (fun s => { s with csum := Function.update s.csum c newcg.cs }) hid
  refine ⟨idFix, log, hid', ?_⟩
  rw [h]
  by_cases hsame : newcg.cs = s.csum c
  · rw [if_neg (not_not.mpr hsame), hsame, Function.update_eq_self]
  · rw [if_pos hsame]

/-- Group `c` after the pass, told yes: rebuilt, with its counts in the summary table. -/
theorem groupStep_yes {sb : Superblock} (hg : Geometry sb) {blockmap : Nat → Bool}
    {statemap : Nat → Nat} {now : Int} {c : Nat} {s : Pass5} {newcg : CgBlock}
    (hid : s.idFix ≠ .nofix)
    (hnew : countedCg sb blockmap statemap now c (s.cgrp sb c) = .ok newcg) :
    ∃ disk idFix log, Agrees sb newcg (loadCg sb disk (cgDevice sb c)) ∧
      Elsewhere sb c s.disk disk ∧ idFix ≠ .nofix ∧
      groupStep sb blockmap statemap now true c s = .ok ({ s with
        disk := disk, csum := Function.update s.csum c newcg.cs
        idFix := idFix, log := log }, newcg.cs) := by
  have hmagic : ∃ log, (if (s.cgrp sb c).magic ≠ UInt32.ofNat CG_MAGIC then
      { s with log := s.log ++ ["CG " ++ toString c ++ ": BAD MAGIC NUMBER\n"] } else s) =
        { s with log := log } := by
    split
    · exact ⟨_, rfl⟩
    · exact ⟨s.log, rfl⟩
  obtain ⟨log₀, hmagic⟩ := hmagic
  obtain ⟨disk₁, id₁, log₁, hmaps, helse₁, hid₁, h₁⟩ :=
    repairMaps_yes hg newcg c (s := { s with log := log₀ }) hid
  obtain ⟨disk₂, id₂, log₂, hagrees, helse₂, hid₂, h₂⟩ := repairHeader_yes hg
    (s := { s with disk := disk₁, idFix := id₁, log := log₁ }) hid₁ hmaps
  obtain ⟨id₃, log₃, hid₃, h₃⟩ := repairSummary_yes newcg c
    (s := { s with disk := disk₂, idFix := id₂, log := log₂ }) hid₂
  refine ⟨disk₂, id₃, log₃, hagrees, helse₁.trans helse₂, hid₃, ?_⟩
  unfold groupStep
  dsimp only
  rw [hnew, hmagic]
  simp only [bind, Except.bind, pure, Except.pure]
  rw [show repair true "BLK(S) MISSING IN BIT MAPS" (¬ sameMaps sb newcg (s.cgrp sb c)) _ _ = _
    from h₁]
  rw [h₂]
  exact congrArg (fun s => Except.ok (s, newcg.cs)) h₃

/-- A group that agrees with its rebuilt self is left alone, and nothing is said of it. -/
theorem groupStep_clean {sb : Superblock} {blockmap : Nat → Bool} {statemap : Nat → Nat}
    {now : Int} {yes : Bool} {c : Nat} {s : Pass5}
    (hnew : countedCg sb blockmap statemap now c (s.cgrp sb c) =
      .ok (rebuiltCg sb blockmap statemap now c (s.cgrp sb c)))
    (hagrees : Agrees sb (rebuiltCg sb blockmap statemap now c (s.cgrp sb c)) (s.cgrp sb c))
    (hcsum : s.csum c = (s.cgrp sb c).cs) :
    groupStep sb blockmap statemap now yes c s = .ok (s, s.csum c) := by
  have hcs := hagrees.cs_eq.symm.trans hcsum.symm
  unfold groupStep
  dsimp only
  rw [hnew, if_neg (not_not.mpr hagrees.magic_eq)]
  simp only [bind, Except.bind, pure, Except.pure]
  rw [repair_right (not_not.mpr hagrees.maps), repair_right (not_not.mpr hagrees.header),
    repair_right (not_not.mpr hcs), hcs]

/-! ## All groups -/

/-- The sum of the first `n` records. -/
def csumTotal (cs : Nat → Csum) : Nat → Csum
  | 0 => {}
  | n + 1 => (csumTotal cs n).add (cs n)

theorem csumTotal_congr {cs cs' : Nat → Csum} {n : Nat} (h : ∀ c < n, cs c = cs' c) :
    csumTotal cs n = csumTotal cs' n := by
  induction n with
  | zero => rfl
  | succ n ih =>
    rw [csumTotal, csumTotal, ih fun c hc => h c (by omega), h n (by omega)]

/-- The device keeps the blocks of the groups apart. -/
def DevicesApart (sb : Superblock) : Prop :=
  ∀ c d, c < d → d < sb.cgCount →
    Region.Apart ⟨cgDevice sb c, sb.cgSize⟩ ⟨cgDevice sb d, sb.cgSize⟩

/-- The loop over the groups, told yes, by induction on the turns. -/
theorem groupLoop_yes {sb : Superblock} (hg : Geometry sb)
    (hspt : sb.sectorsPerTrack < 2147483648) (hipg : ROOTINO ≤ sb.inodesPerGroup)
    (blockmap : Nat → Bool) {statemap : Nat → Nat} (hs : StatesSet sb statemap) (now : Int)
    {s : Pass5} (hid : s.idFix ≠ .nofix) : ∀ {n : Nat}, n ≤ sb.cgCount →
    ∃ s', groupLoop sb blockmap statemap now true s n = .ok (s', csumTotal s'.csum n) ∧
      s'.idFix ≠ .nofix ∧
      (∀ x, (∀ c < n, Region.Apart ⟨x, sb.cgSize⟩ ⟨cgDevice sb c, sb.cgSize⟩) →
        loadCg sb s'.disk x = loadCg sb s.disk x) ∧
      (DevicesApart sb → ∀ c < n,
        Agrees sb (rebuiltCg sb blockmap statemap now c (s.cgrp sb c)) (s'.cgrp sb c) ∧
          s'.csum c = (s'.cgrp sb c).cs) := by
  intro n
  induction n with
  | zero => exact fun _ => ⟨s, rfl, hid, fun _ _ => rfl, fun _ c hc => absurd hc (Nat.not_lt_zero c)⟩
  | succ n ih =>
    intro hn
    obtain ⟨s', hloop, hid', hrest, hdone⟩ := ih (by omega)
    have hnew := countedCg_eq hg hspt hipg blockmap hs now (Nat.lt_of_succ_le hn) (s'.cgrp sb n)
    obtain ⟨disk, idFix, log, hagrees, helse, hid'', hstep⟩ := groupStep_yes hg hid' hnew
    have hsum : ∀ c < n, Function.update s'.csum n
        (rebuiltCg sb blockmap statemap now n (s'.cgrp sb n)).cs c = s'.csum c := fun c hc =>
      Function.update_of_ne (by omega) _ _
    refine ⟨{ s' with
      disk := disk
      csum := Function.update s'.csum n (rebuiltCg sb blockmap statemap now n (s'.cgrp sb n)).cs
      idFix := idFix, log := log }, ?_, hid'', fun x hx => ?_, fun hapart c hc => ?_⟩
    · rw [groupLoop, hloop]
      simp only [bind, Except.bind, pure, Except.pure]
      rw [hstep]
      simp only [csumTotal, csumTotal_congr hsum, Function.update_self]
    · exact (helse x (hx n (by omega))).trans (hrest x fun c hc => hx c (by omega))
    · by_cases hcn : c = n
      · subst hcn
        -- the group's own block was not touched before its turn
        have hsame : s'.cgrp sb c = s.cgrp sb c := hrest _ fun d hd => (hapart d c hd hn).symm
        rw [hsame] at hagrees
        refine ⟨hagrees, ?_⟩
        rw [hsame]
        exact (Function.update_self ..).trans hagrees.cs_eq.symm
      · have hlt : c < n := by omega
        obtain ⟨hagrees', hcs⟩ := hdone hapart c hlt
        have hkept : loadCg sb disk (cgDevice sb c) = s'.cgrp sb c :=
          helse _ (hapart c n hlt hn)
        show Agrees sb _ (loadCg sb disk (cgDevice sb c)) ∧ _ = (loadCg sb disk (cgDevice sb c)).cs
        rw [hkept]
        exact ⟨hagrees', (hsum c hlt).trans hcs⟩

/-- Groups, summary table and totals are what the pass would make of them; the block of group `c`
is at `addr c`. -/
structure Clean (sb : Superblock) (blockmap : Nat → Bool) (statemap : Nat → Nat) (now : Int)
    (addr : Nat → Nat) (s : Pass5) : Prop where
  group : ∀ c < sb.cgCount, Agrees sb
    (rebuiltCg sb blockmap statemap now c (loadCg sb s.disk (addr c))) (loadCg sb s.disk (addr c))
  summary : ∀ c < sb.cgCount, s.csum c = (loadCg sb s.disk (addr c)).cs
  total : s.cstotal = csumTotal s.csum sb.cgCount

theorem groupLoop_clean {sb : Superblock} (hg : Geometry sb)
    (hspt : sb.sectorsPerTrack < 2147483648) (hipg : ROOTINO ≤ sb.inodesPerGroup)
    {blockmap : Nat → Bool} {statemap : Nat → Nat} (hs : StatesSet sb statemap) {now : Int}
    {yes : Bool} {s : Pass5} (hclean : Clean sb blockmap statemap now (cgDevice sb) s) : ∀ {n : Nat},
    n ≤ sb.cgCount →
      groupLoop sb blockmap statemap now yes s n = .ok (s, csumTotal s.csum n) := by
  intro n
  induction n with
  | zero => exact fun _ => rfl
  | succ n ih =>
    intro hn
    have hstep : groupStep sb blockmap statemap now yes n s = .ok (s, s.csum n) :=
      groupStep_clean (countedCg_eq hg hspt hipg blockmap hs now (Nat.lt_of_succ_le hn) (s.cgrp sb n))
        (hclean.group n hn) (hclean.summary n hn)
    rw [groupLoop, ih (by omega)]
    simp only [bind, Except.bind, pure, Except.pure]
    rw [hstep]
    rfl

/-- A second pass over what is clean reports nothing and changes nothing. -/
theorem pass5_clean {sb : Superblock} (hg : Geometry sb)
    (hspt : sb.sectorsPerTrack < 2147483648) (hipg : ROOTINO ≤ sb.inodesPerGroup)
    {blockmap : Nat → Bool} {statemap : Nat → Nat} (hs : StatesSet sb statemap) {now : Int}
    {yes : Bool} {s : Pass5} (hclean : Clean sb blockmap statemap now (cgDevice sb) s) :
    pass5 sb blockmap statemap now yes s = .ok { s with idFix := .dontknow } := by
  have hloop : groupLoop sb blockmap statemap now yes { s with idFix := .dontknow } sb.cgCount =
      .ok ({ s with idFix := .dontknow }, csumTotal s.csum sb.cgCount) :=
    groupLoop_clean (s := { s with idFix := .dontknow }) hg hspt hipg hs
      ⟨hclean.group, hclean.summary, hclean.total⟩ le_rfl
  unfold pass5
  rw [hloop]
  simp only [bind, Except.bind, pure, Except.pure]
  rw [repair_right (not_not.mpr hclean.total.symm)]

/-- The totals, told yes. -/
theorem repairTotal_yes (total : Csum) {s : Pass5} (hid : s.idFix ≠ .nofix) :
    ∃ s', repair true "FREE BLK COUNT(S) WRONG IN SUPERBLK" (total ≠ s.cstotal)
        (fun s => { s with cstotal := total, ronly := 0, fmod := 0 }) s = s' ∧
      s'.disk = s.disk ∧ s'.csum = s.csum ∧ s'.cstotal = total := by
  obtain ⟨idFix, log, -, h⟩ := repair_yes "FREE BLK COUNT(S) WRONG IN SUPERBLK"
    (total ≠ s.cstotal) (fun s => { s with cstotal := total, ronly := 0, fmod := 0 }) hid
  by_cases hsame : total = s.cstotal
  · rw [if_neg (not_not.mpr hsame)] at h
    exact ⟨_, h, rfl, rfl, hsame.symm⟩
  · rw [if_pos hsame] at h
    exact ⟨_, h, rfl, rfl, rfl⟩

/-- The pass, told yes, leaves what is clean at any later time, if the device keeps the blocks
apart; it leaves alone every block apart from those it takes for the groups'. -/
theorem pass5_yes {sb : Superblock} (hg : Geometry sb)
    (hspt : sb.sectorsPerTrack < 2147483648) (hipg : ROOTINO ≤ sb.inodesPerGroup)
    (blockmap : Nat → Bool) {statemap : Nat → Nat} (hs : StatesSet sb statemap) {now : Int}
    (hmin : -2147483648 ≤ now) (s : Pass5) :
    ∃ s', pass5 sb blockmap statemap now true s = .ok s' ∧
      (∀ x, (∀ c < sb.cgCount, Region.Apart ⟨x, sb.cgSize⟩ ⟨cgDevice sb c, sb.cgSize⟩) →
        loadCg sb s'.disk x = loadCg sb s.disk x) ∧
      (DevicesApart sb → ∀ now', now ≤ now' → Clean sb blockmap statemap now' (cgDevice sb) s') := by
  obtain ⟨s₁, hloop, hid, hrest, hdone⟩ := groupLoop_yes hg hspt hipg blockmap hs now
    (s := { s with idFix := .dontknow }) FixState.noConfusion le_rfl
  obtain ⟨s₂, hrepair, hdisk, hcsum, htotal⟩ := repairTotal_yes (csumTotal s₁.csum sb.cgCount) hid
  refine ⟨s₂, ?_, fun x hx => ?_, fun hapart now' hle =>
    ⟨fun c hc => ?_, fun c hc => ?_, by rw [htotal, hcsum]⟩⟩
  · unfold pass5
    rw [hloop]
    simp only [bind, Except.bind, pure, Except.pure]
    rw [hrepair]
  · rw [hdisk]
    exact hrest x hx
  · have hagrees := (hdone hapart c hc).1
    rw [hdisk]
    exact (rebuiltCg_again hagrees hmin hle).symm ▸ hagrees
  · rw [hdisk, hcsum]
    exact (hdone hapart c hc).2

/-! ## The repaired filesystem -/

/-- The block of group `c`, where it lies. -/
def Pass5.group (s : Pass5) (sb : Superblock) (c : Nat) : CgBlock :=
  loadCg sb s.disk (cgBlockOffset sb c)

/-- The filesystem and the inode maps of its groups, as the core code reads them after the pass. -/
def Pass5.volume (s : Pass5) (fs : Fs) : Volume where
  fs := { fs with
    totals := s.cstotal, csum := s.csum, cg := fun c => (s.group fs.img.sb c).core fs.img.sb }
  imap := fun c =>
    { irotor := (s.group fs.img.sb c).irotor.toUInt32.toNat
      iused := (s.group fs.img.sb c).iused }

/-- A word of the totals is the sum of the groups' words, as long as that fits. -/
theorem csumTotal_word {word : Csum → UInt32} (hzero : word {} = 0)
    (hadd : ∀ a d, word (a.add d) = word a + word d) (cs : Nat → Csum) : ∀ {n : Nat},
    ∑ c ∈ Finset.range n, (word (cs c)).toNat < 4294967296 →
      (word (csumTotal cs n)).toNat = ∑ c ∈ Finset.range n, (word (cs c)).toNat := by
  intro n
  induction n with
  | zero =>
    intro _
    simp [csumTotal, hzero]
  | succ n ih =>
    intro hlt
    rw [Finset.sum_range_succ] at hlt ⊢
    rw [csumTotal, hadd, UInt32.toNat_add, ih (by omega)]
    exact Nat.mod_eq_of_lt hlt

theorem two_le_inodesPerGroup {img : Image} (hv : imageValidate img = true) :
    ROOTINO ≤ img.sb.inodesPerGroup := by
  have hg := img.geometry hv
  obtain ⟨hs, hl, -⟩ := of_decide_eq_true hv
  simp only [ShapeRejected, LayoutRejected, not_or, ne_eq, not_not] at hs hl
  obtain ⟨-, -, -, -, -, -, -, -, -, -, -, -, -, -, -, -, hipb, -⟩ := hs
  obtain ⟨-, -, -, -, -, -, -, -, -, -, hipb', -⟩ := hl
  have hdvd := Nat.dvd_of_mod_eq_zero hipb.2
  have hle := Nat.le_of_dvd hg.ipg_pos hdvd
  have hbs := hg.blockSize_ge
  unfold UFS_INODE_SIZE at hipb'
  unfold ROOTINO
  omega

section

variable {fs : Fs} {blockmap : Nat → Bool} {statemap : Nat → Nat} {now : Int} {s : Pass5}

/-- The words for inodes and directories, as counted. -/
theorem Clean.inode_words (hclean : Clean fs.img.sb blockmap statemap now (cgBlockOffset fs.img.sb) s)
    (hg : Geometry fs.img.sb) {c : Nat} (hc : c < fs.img.sb.cgCount) :
    (s.group fs.img.sb c).cs.nifree.toNat = ones (fun ino => !allocated statemap ino)
        (fs.img.sb.inodesPerGroup * c) fs.img.sb.inodesPerGroup ∧
      (s.group fs.img.sb c).cs.ndir.toNat = ones (fun ino => dirState (statemap ino))
        (fs.img.sb.inodesPerGroup * c) fs.img.sb.inodesPerGroup := by
  have hipg := hg.ipg_le
  have word : ∀ w : Nat → Bool, (UInt32.ofNat (ones w (fs.img.sb.inodesPerGroup * c)
      fs.img.sb.inodesPerGroup)).toNat =
        ones w (fs.img.sb.inodesPerGroup * c) fs.img.sb.inodesPerGroup := fun w => by
    have hle := ones_le w (fs.img.sb.inodesPerGroup * c) fs.img.sb.inodesPerGroup
    exact UInt32.toNat_ofNat_of_lt' (by unfold UInt32.size; omega)
  have hcs : (s.group fs.img.sb c).cs = _ := (hclean.group c hc).cs_eq
  rw [hcs]
  exact ⟨word _, word _⟩

/-- The totals are sums of words no group of which exceeds a group's inodes or fragments. -/
theorem Clean.total_word
    (hclean : Clean fs.img.sb blockmap statemap now (cgBlockOffset fs.img.sb) s)
    {word : Csum → UInt32} (hzero : word {} = 0) (hadd : ∀ a d, word (a.add d) = word a + word d) {m : Nat}
    (hword : ∀ c < fs.img.sb.cgCount, (word (s.group fs.img.sb c).cs).toNat ≤ m)
    (hm : fs.img.sb.cgCount * m < 4294967296) :
    (word s.cstotal).toNat = (s.volume fs).fs.sumWord word := by
  have hle : ∑ c ∈ Finset.range fs.img.sb.cgCount, (word (s.csum c)).toNat ≤
      fs.img.sb.cgCount * m := sum_le_mul fun c hc => by
    rw [hclean.summary c hc]
    exact hword c hc
  rw [hclean.total]
  exact csumTotal_word hzero hadd s.csum (Nat.lt_of_le_of_lt hle hm)

/-- What is clean is consistent as the allocator understands it. -/
theorem Clean.consistent (hclean : Clean fs.img.sb blockmap statemap now (cgBlockOffset fs.img.sb) s)
    (hg : Geometry fs.img.sb) : (s.volume fs).fs.Consistent := by
  have hgroup : ∀ c < fs.img.sb.cgCount, ((s.group fs.img.sb c).core fs.img.sb).Consistent fs.img.sb :=
    fun c hc => (hclean.group c hc).core_consistent hg
  have hinodes : fs.img.sb.cgCount * fs.img.sb.inodesPerGroup < 4294967296 := by
    have := hg.inodes_le
    unfold INT32_MAX at this
    omega
  exact
    { group := hgroup
      summary := hclean.summary
      ndir := hclean.total_word rfl (fun _ _ => rfl)
        (fun c hc => by rw [(hclean.inode_words hg hc).2]; exact ones_le _ _ _) hinodes
      nbfree := hclean.total_word rfl (fun _ _ => rfl)
        (fun c hc => ((hgroup c hc).words_le hg).1) hg.groups_lt
      nifree := hclean.total_word rfl (fun _ _ => rfl)
        (fun c hc => by rw [(hclean.inode_words hg hc).1]; exact ones_le _ _ _) hinodes
      nffree := hclean.total_word rfl (fun _ _ => rfl)
        (fun c hc => ((hgroup c hc).words_le hg).2) hg.groups_lt }

/-- And as the inode allocator does; the directories are those of the state map. -/
theorem Clean.inodesAgree (hclean : Clean fs.img.sb blockmap statemap now (cgBlockOffset fs.img.sb) s)
    (hg : Geometry fs.img.sb) :
    (s.volume fs).InodesAgree fun ino => dirState (statemap ino) := by
  have hcons := hclean.consistent hg
  have hiused : ∀ c < fs.img.sb.cgCount, ∀ i < fs.img.sb.inodesPerGroup,
      (s.group fs.img.sb c).iused i = allocated statemap (fs.img.sb.inodesPerGroup * c + i) :=
    fun c hc i hi => (hclean.group c hc).iused_eq hg.ipg_le hi
  exact
    { magic := fun c hc => congrArg UInt32.toNat (hclean.group c hc).magic_eq
      nifree := fun c hc => by
        refine (hclean.inode_words hg hc).1.trans (count_congr fun i hi => ?_)
        show _ ↔ (s.group fs.img.sb c).iused i = false
        rw [hiused c hc i hi]
        simp
      ndir := fun c hc => by
        refine (hclean.inode_words hg hc).2.trans (count_congr fun i hi => ?_)
        show _ ↔ (s.group fs.img.sb c).iused i = true ∧
          dirState (statemap (c * fs.img.sb.inodesPerGroup + i)) = true
        rw [hiused c hc i hi, Nat.mul_comm c]
        simp only [allocated, usedState]
        cases dirState (statemap (fs.img.sb.inodesPerGroup * c + i)) <;> simp
      summary := fun c hc => ⟨congrArg Csum.nifree (hclean.summary c hc),
        congrArg Csum.ndir (hclean.summary c hc)⟩
      total_nifree := hcons.nifree
      total_ndir := hcons.ndir }

end

/-- The state after a pass is right: the bit maps on the disk are the complement of the block map
and the inodes in use, and every counter is exact, in the groups, the summary table and the totals. -/
structure Pass5.Exact (fs : Fs) (blockmap : Nat → Bool) (statemap : Nat → Nat) (s : Pass5) :
    Prop where
  free : ∀ c < fs.img.sb.cgCount, ∀ i < fs.img.sb.fragsPerGroup,
    (s.group fs.img.sb c).free i =
      (decide (c * fs.img.sb.fragsPerGroup + i < fs.img.sb.fragCount) &&
        !blockmap (c * fs.img.sb.fragsPerGroup + i))
  iused : ∀ c < fs.img.sb.cgCount, ∀ i < fs.img.sb.inodesPerGroup,
    (s.group fs.img.sb c).iused i = allocated statemap (fs.img.sb.inodesPerGroup * c + i)
  consistent : (s.volume fs).fs.Consistent
  inodesAgree : (s.volume fs).InodesAgree fun ino => dirState (statemap ino)

theorem Clean.exact {fs : Fs} {blockmap : Nat → Bool} {statemap : Nat → Nat} {now : Int}
    {s : Pass5} (hclean : Clean fs.img.sb blockmap statemap now (cgBlockOffset fs.img.sb) s)
    (hg : Geometry fs.img.sb) : s.Exact fs blockmap statemap where
  free c hc i hi := by
    have hfree : (s.group fs.img.sb c).free i = _ :=
      (hclean.group c hc).free_eq hg.fpb_pos hi
    rw [hfree, freeMap, groupFrags]
    congr 2
    exact propext (by omega)
  iused c hc _ hi := (hclean.group c hc).iused_eq hg.ipg_le hi
  consistent := hclean.consistent hg
  inodesAgree := hclean.inodesAgree hg

/-! ## Below 4 GiB, and beyond -/

/-- Pass 5 repairs the filesystem: whatever the groups' blocks, the summary table and the totals
hold, with every question answered yes everything is exact afterwards, and a second pass reports
nothing and changes nothing. -/
def Pass5Repairs (fs : Fs) : Prop :=
  ∀ blockmap statemap, StatesSet fs.img.sb statemap →
    ∀ now now' : Int, -2147483648 ≤ now → now ≤ now' → ∀ s : Pass5,
      ∃ s', pass5 fs.img.sb blockmap statemap now true s = .ok s' ∧
        s'.Exact fs blockmap statemap ∧
        pass5 fs.img.sb blockmap statemap now' true { s' with log := [] } =
          .ok { s' with idFix := .dontknow, log := [] }

theorem devicesApart {img : Image} (hv : imageValidate img = true)
    (hlow : ∀ c < img.sb.cgCount, cgDevice img.sb c = cgBlockOffset img.sb c) :
    DevicesApart img.sb := by
  intro c d hcd hd
  rw [hlow c (Nat.lt_trans hcd hd), hlow d hd]
  exact .inl (cgBlock_before hv hcd hd)

/-- A block at 4 GiB or beyond is never written: what was wrong in the last one stays. -/
theorem pass5_misses {fs : Fs} (hv : imageValidate fs.img = true)
    (hspt : fs.img.sb.sectorsPerTrack < 2147483648)
    (hhigh : 4294967296 ≤ cgBlockOffset fs.img.sb (fs.img.sb.cgCount - 1)) :
    ¬ Pass5Repairs fs := by
  intro h
  have hg := fs.img.geometry hv
  have hlast : fs.img.sb.cgCount - 1 < fs.img.sb.cgCount := Nat.sub_lt hg.cg_pos (by decide)
  let statemap : Nat → Nat := fun ino => if ino < ROOTINO then 0 else USTATE
  have hs : StatesSet fs.img.sb statemap := by
    refine ⟨fun ino hino => if_pos hino, fun ino hino _ => ?_⟩
    have hstate : statemap ino = USTATE := if_neg (Nat.not_lt.mpr hino)
    rw [hstate]
    decide
  -- all bytes zero, so no group has a magic number
  let s : Pass5 :=
    { disk := fun _ => 0, csum := fun _ => {}, cstotal := {}, ronly := 0, fmod := 0
      idFix := .dontknow, log := [] }
  obtain ⟨s', hpass, hexact, -⟩ := h (fun _ => true) statemap hs 0 0 (by decide) le_rfl s
  obtain ⟨s₂, hpass₂, hrest, -⟩ := pass5_yes hg hspt (two_le_inodesPerGroup hv) (fun _ => true) hs
    (by decide : (-2147483648 : Int) ≤ 0) s
  obtain rfl : s' = s₂ := Except.ok.inj (hpass.symm.trans hpass₂)
  have hsame : s'.group fs.img.sb (fs.img.sb.cgCount - 1) =
      loadCg fs.img.sb s.disk (cgBlockOffset fs.img.sb (fs.img.sb.cgCount - 1)) :=
    hrest _ fun c hc => last_untouched hv hhigh hc
  have hmagic : (s'.group fs.img.sb (fs.img.sb.cgCount - 1)).magic.toNat = CG_MAGIC :=
    hexact.inodesAgree.magic _ hlast
  rw [hsame, show loadCg fs.img.sb s.disk _ = decodeCg fun _ => 0 from
    congrArg decodeCg (funext fun i => ite_self 0)] at hmagic
  exact absurd hmagic (by decide)

/-- **Rebuilding the groups.** Where the sectors of a track fit an `int32_t`, pass 5 repairs a
filesystem, and for good, if and only if the block of every cylinder group begins below 4 GiB:
beyond, the device takes another place for it. -/
theorem pass5_repairs_iff {fs : Fs} (hv : imageValidate fs.img = true)
    (hspt : fs.img.sb.sectorsPerTrack < 2147483648) :
    Pass5Repairs fs ↔ ∀ c < fs.img.sb.cgCount, cgBlockOffset fs.img.sb c < 4294967296 := by
  have hg := fs.img.geometry hv
  have hipg := two_le_inodesPerGroup hv
  constructor
  · intro h c hc
    by_contra hhigh
    refine pass5_misses hv hspt ?_ h
    by_cases hlast : c = fs.img.sb.cgCount - 1
    · rw [← hlast]
      omega
    · have := cgBlock_before hv (c := c) (d := fs.img.sb.cgCount - 1) (by omega) (by omega)
      omega
  · intro hlow blockmap statemap hs now now' hmin hle s
    have hplace : ∀ c < fs.img.sb.cgCount, cgDevice fs.img.sb c = cgBlockOffset fs.img.sb c :=
      fun c hc => by rw [cgDevice_eq hv, Nat.mod_eq_of_lt (hlow c hc)]
    obtain ⟨s', hpass, -, hclean⟩ := pass5_yes hg hspt hipg blockmap hs hmin s
    have hlater := hclean (devicesApart hv hplace) now' hle
    have hthere : Clean fs.img.sb blockmap statemap now' (cgBlockOffset fs.img.sb) s' := by
      refine ⟨fun c hc => ?_, fun c hc => ?_, hlater.total⟩
      · rw [← hplace c hc]
        exact hlater.group c hc
      · rw [← hplace c hc]
        exact hlater.summary c hc
    exact ⟨s', hpass, hthere.exact hg, pass5_clean hg hspt hipg hs (s := { s' with log := [] })
      ⟨hlater.group, hlater.summary, hlater.total⟩⟩

/-- A filesystem of one small group. -/
theorem pass5_repairs_oneGroup : Pass5Repairs oneGroupFs :=
  (pass5_repairs_iff (by decide +kernel) (by decide)).mpr (by decide +kernel)

/-- The 5 GiB filesystem of the device's own example, as far as the pass is concerned. -/
def fiveGiBFs : Fs := { oneGroupFs with img := fiveGiB }

/-- The blocks of its last 32 groups lie at 4 GiB or beyond. -/
theorem pass5_misses_fiveGiB : imageValidate fiveGiBFs.img = true ∧ ¬ Pass5Repairs fiveGiBFs :=
  ⟨by decide +kernel, pass5_misses (by decide +kernel) (by decide) (by decide +kernel)⟩

end NextUfs.Fsck
