/-
NextUfs.Core.LabelBytesTheorems — the label writer, the patcher and the
decoder against each other.

§1 What a label says depends on its first 0x2c0 bytes and the old checksum
word alone (`SameLabel`).
§2 The writer: what the decoder finds in `labelBuffer`.
§3 One label patched: the decoder finds the record of before with another
size (`diskLabel_patched`), so that the model on records is refined.
§4 The patcher over a file: every change is in a size or checksum field of a
label it patched (`PatchTrace`). Labels may overlap; what one label reaches of
the next says nothing about a slice, but for its first bytes (`LabelsApart`).
§5 Which sizes come back (`SizesKept`): neither the writer nor the
patcher keeps sizes from the reserved value on, nor zero.
-/
import NextUfs.Core.LabelBytes
import NextUfs.Core.LabelTheorems
import Mathlib.Tactic.IntervalCases
import Mathlib.Data.List.Basic

namespace NextUfs.Core

open NextUfs.Lib NextUfs.Lib.ByteStore

/-! ## §1 Words and windows -/

section
variable {b b' : ByteStore} {p q v n : Nat}

theorem be24_congr (h : ∀ i < 3, b (p + i) = b' (p + i)) : be24 b p = be24 b' p := by
  have h₀ := h 0 (by omega)
  rw [Nat.add_zero] at h₀
  have hrest : be16 b (p + 1) = be16 b' (p + 1) := be16_congr fun i hi => by
    have := h (1 + i) (by omega)
    rwa [← Nat.add_assoc] at this
  unfold be24
  rw [h₀, hrest]

theorem be24_setBe24_self (b : ByteStore) (p v : Nat) : be24 (setBe24 b p v) p = v % 16777216 := by
  unfold be24 be16 setBe24
  rw [patch_of_mem (by omega) (by omega), patch_of_mem (by omega) (by omega),
    patch_of_mem (by omega) (by omega)]
  rw [Nat.sub_self, Nat.add_sub_cancel_left, show p + 1 + 1 - p = 2 by omega]
  simp [beBytes, UInt8.toNat_ofNat']
  omega

theorem be24_patch_of_disjoint {f : ByteStore} {off : Nat} (h : p + 3 ≤ off ∨ off + n ≤ p) :
    be24 (patch b off n f) p = be24 b p :=
  be24_congr fun i hi => patch_of_not_mem (by omega)

theorem be24_setBe16_of_disjoint (h : q + 3 ≤ p ∨ p + 2 ≤ q) :
    be24 (setBe16 b p v) q = be24 b q := be24_patch_of_disjoint h

theorem be24_setBe24_of_disjoint (h : q + 3 ≤ p ∨ p + 3 ≤ q) :
    be24 (setBe24 b p v) q = be24 b q := be24_patch_of_disjoint h

theorem be24_setBe32_of_disjoint (h : q + 3 ≤ p ∨ p + 4 ≤ q) :
    be24 (setBe32 b p v) q = be24 b q := be24_patch_of_disjoint h

theorem be16_setBe16_of_disjoint (h : q + 2 ≤ p ∨ p + 2 ≤ q) :
    be16 (setBe16 b p v) q = be16 b q := be16_patch_of_disjoint h

theorem be16_setBe24_of_disjoint (h : q + 2 ≤ p ∨ p + 3 ≤ q) :
    be16 (setBe24 b p v) q = be16 b q := be16_patch_of_disjoint h

theorem be16_setBe32_of_disjoint (h : q + 2 ≤ p ∨ p + 4 ≤ q) :
    be16 (setBe32 b p v) q = be16 b q := be16_patch_of_disjoint h

theorem be32_setBe16_of_disjoint (h : q + 4 ≤ p ∨ p + 2 ≤ q) :
    be32 (setBe16 b p v) q = be32 b q := be32_patch_of_disjoint h

theorem be32_setBe24_of_disjoint (h : q + 4 ≤ p ∨ p + 3 ≤ q) :
    be32 (setBe24 b p v) q = be32 b q := be32_patch_of_disjoint h

theorem setBe16_of_not_mem (h : q < p ∨ p + 2 ≤ q) : setBe16 b p v q = b q := patch_of_not_mem h

theorem setBe24_of_not_mem (h : q < p ∨ p + 3 ≤ q) : setBe24 b p v q = b q := patch_of_not_mem h

theorem setBe32_of_not_mem (h : q < p ∨ p + 4 ≤ q) : setBe32 b p v q = b q := patch_of_not_mem h

theorem putString_of_not_mem {s : List UInt8} (h : q < p ∨ p + n ≤ q) :
    putString b p n s q = b q := by
  refine patch_of_not_mem ?_
  split <;> omega

/-- A string that fits is copied whole, without its NUL. -/
theorem putString_of_short {s : List UInt8} (h : s.length < n) :
    putString b p n s = patch b p s.length (ofList s) := by
  rw [putString, if_neg (by omega)]

theorem be16_putString_of_disjoint {s : List UInt8} (h : q + 2 ≤ p ∨ p + n ≤ q) :
    be16 (putString b p n s) q = be16 b q :=
  be16_congr fun i hi => putString_of_not_mem (by omega)

theorem be24_putString_of_disjoint {s : List UInt8} (h : q + 3 ≤ p ∨ p + n ≤ q) :
    be24 (putString b p n s) q = be24 b q :=
  be24_congr fun i hi => putString_of_not_mem (by omega)

theorem be32_putString_of_disjoint {s : List UInt8} (h : q + 4 ≤ p ∨ p + n ≤ q) :
    be32 (putString b p n s) q = be32 b q :=
  be32_congr fun i hi => putString_of_not_mem (by omega)

end

/-- A patch behind the start of a window is one of the window. -/
theorem window_patch (file : ByteStore) (off p n : Nat) (f : ByteStore) :
    window (patch file (off + p) n f) off = patch (window file off) p n f := by
  funext q
  unfold window patch
  simp only [Nat.add_le_add_iff_left, Nat.add_lt_add_iff_left, Nat.add_assoc, Nat.add_sub_add_left]

/-- The checksum depends on the bytes it sums. -/
theorem checksumBe16_congr {b b' : ByteStore} {size : Nat} (h : ∀ i < size, b i = b' i) :
    checksumBe16 b size = checksumBe16 b' size := by
  unfold checksumBe16
  refine List.foldl_ext _ _ _ fun sum i hi => ?_
  have hi' := List.mem_range.mp hi
  have hword : be16 b (2 * i) = be16 b' (2 * i) := be16_congr fun j hj => h _ (by omega)
  rw [hword]

theorem checksumBe16_lt (b : ByteStore) (size : Nat) : checksumBe16 b size < 65536 := by
  unfold checksumBe16
  -- the carry is added back at once
  have hstep : ∀ (l : List Nat) (sum : Nat), sum < 65536 → l.foldl (fun sum i =>
      let sum := sum + be16 b (2 * i)
      if sum > 65535 then sum - 65535 else sum) sum < 65536 := by
    intro l
    induction l with
    | nil => exact fun sum h => h
    | cons i l ih =>
      intro sum h
      have hword := be16_lt b (2 * i)
      refine ih _ ?_
      dsimp only
      split <;> omega
  exact hstep _ 0 (by decide)

theorem summed_congr {b b' : ByteStore} {n : Nat}
    (h : ∀ i < n, ¬ (4 ≤ i ∧ i < 8) → ¬ (0x22e ≤ i ∧ i < 0x230) → b i = b' i) :
    ∀ i < n, summed b i = summed b' i := by
  intro i hi
  unfold summed patch DL_V3_CKSUM_OFF
  split
  · rfl
  split
  · rfl
  · exact h i hi (by omega) (by omega)

/-- Two windows a label decoder cannot tell apart. -/
structure SameLabel (w w' : ByteStore) : Prop where
  fields : ∀ i < 0x2c0, w i = w' i
  cksum : ∀ i, 0x1c58 ≤ i → i < 0x1c5a → w i = w' i

section
variable {w w' : ByteStore}

theorem SameLabel.refl : SameLabel w w := ⟨fun _ _ => rfl, fun _ _ _ => rfl⟩

theorem SameLabel.trans {w₁ : ByteStore} (h : SameLabel w w₁) (h₁ : SameLabel w₁ w') :
    SameLabel w w' :=
  ⟨fun i hi => (h.fields i hi).trans (h₁.fields i hi),
    fun i hi hi' => (h.cksum i hi hi').trans (h₁.cksum i hi hi')⟩

theorem partOff_le {i : Nat} (hi : i < 8) : partOff i + 0x40 ≤ 0x2c0 := by
  unfold partOff
  omega

theorem labelVersion_congr (h : ∀ i < 4, w i = w' i) : labelVersion w = labelVersion w' := by
  have hword : be32 w 0 = be32 w' 0 := be32_congr fun i hi => by
    simpa using h i (by omega)
  unfold labelVersion
  rw [hword]

/-- The fields of an entry end before the checksum word, which lies in entry 5. -/
theorem labelPartitionAt_congr {i : Nat} (h : ∀ j < 0x2b, w (partOff i + j) = w' (partOff i + j)) :
    labelPartitionAt w i = labelPartitionAt w' i := by
  have h' : ∀ q k, k + q < 0x2b → w (partOff i + k + q) = w' (partOff i + k + q) := fun q k hk => by
    rw [Nat.add_assoc]
    exact h _ hk
  rw [labelPartitionAt, labelPartitionAt, LabelPartition.mk.injEq]
  refine ⟨?_, ?_, ?_, ?_, ?_⟩
  · exact be24_congr fun j hj => h j (by omega)
  · exact be24_congr fun j hj => h' j 3 (by omega)
  · exact be16_congr fun j hj => h' j 6 (by omega)
  · exact be16_congr fun j hj => h' j 8 (by omega)
  · unfold slice
    refine List.map_congr_left fun j hj => h' j 0x23 ?_
    have := List.mem_range.mp hj
    omega

theorem SameLabel.version (h : SameLabel w w') : labelVersion w = labelVersion w' :=
  labelVersion_congr fun i hi => h.fields i (by omega)

theorem SameLabel.be16 (h : SameLabel w w') {p : Nat} (hp : p + 2 ≤ 0x2c0) :
    be16 w p = be16 w' p := be16_congr fun i hi => h.fields _ (by omega)

/-- What the decoder makes of a window. -/
theorem diskLabel_congr (h : ∀ i < 0x2c0, w i = w' i) (off : Nat) {version : LabelVersion}
    (hsum : labelChecksum w version = labelChecksum w' version) :
    diskLabel w off version = diskLabel w' off version := by
  have hparts : (List.range NEXTUFS_LABEL_PART_COUNT).map (labelPartitionAt w) =
      (List.range NEXTUFS_LABEL_PART_COUNT).map (labelPartitionAt w') :=
    List.map_congr_left fun i hi => labelPartitionAt_congr fun j hj => h _ (by
      have := partOff_le (List.mem_range.mp hi)
      omega)
  have hroot : w ROOTPART_OFF = w' ROOTPART_OFF := h _ (by decide)
  have hname : copyCstrField w 0xc 24 = copyCstrField w' 0xc 24 := by
    unfold copyCstrField slice
    rw [List.map_congr_left fun i hi => h (0xc + i) (by
      have := List.mem_range.mp hi
      omega)]
  have hword : ∀ p, p + 2 ≤ 0x2c0 → be16 w p = be16 w' p :=
    fun p hp => be16_congr fun i hi => h _ (by omega)
  have hblkno : be32 w 4 = be32 w' 4 := be32_congr fun i hi => h _ (by omega)
  have hbytes : ∀ i < LABEL_CKSUM_SIZE, summed w i = summed w' i :=
    summed_congr fun j hj _ _ => h j (by unfold LABEL_CKSUM_SIZE at hj; omega)
  unfold NextUfs.Core.diskLabel
  rw [hsum, hparts, hroot, hname, hword SECSIZE_OFF (by decide), hword FRONT_OFF (by decide),
    hblkno, checksumBe16_congr hbytes]

theorem SameLabel.diskLabel (h : SameLabel w w') (off : Nat) (version : LabelVersion) :
    diskLabel w off version = diskLabel w' off version := by
  refine diskLabel_congr h.fields off ?_
  unfold labelChecksum
  rw [h.be16 (by decide), be16_congr (p := DL_CKSUM_OFF) (q := DL_CKSUM_OFF) fun i hi =>
    h.cksum _ (by unfold DL_CKSUM_OFF; omega) (by unfold DL_CKSUM_OFF; omega)]

theorem SameLabel.decode (h : SameLabel w w') (size off : Nat) :
    nextufsLabelDecode w size off = nextufsLabelDecode w' size off := by
  unfold nextufsLabelDecode
  rw [h.version]
  simp only [h.diskLabel]

end

/-! ## §2 The writer -/

section
variable (off total slices ncyl : Nat) (label : List UInt8)

theorem labelBuffer_version : labelVersion (labelBuffer off total slices ncyl label) = some .v3 := by
  have h : be32 (labelBuffer off total slices ncyl label) 0 = DL_V3 := by
    simp (disch := decide) only [labelBuffer, labelTable, labelHead, summed,
      be32_putString_of_disjoint, be32_setBe16_of_disjoint, be32_setBe24_of_disjoint,
      be32_setBe32_of_disjoint, be32_patch_of_disjoint, be32_setBe32_self]
    rfl
  unfold labelVersion
  rw [h]
  decide

theorem labelBuffer_blkno (hoff : off / DEV_SECTOR_SIZE < 4294967296) :
    be32 (labelBuffer off total slices ncyl label) 4 = off / DEV_SECTOR_SIZE := by
  rw [labelBuffer, be32_setBe32_self, Nat.mod_eq_of_lt hoff]

theorem labelBuffer_secsize :
    be16 (labelBuffer off total slices ncyl label) SECSIZE_OFF = NEXTUFS_LABEL_SECTOR_SIZE := by
  simp (disch := decide) only [labelBuffer, labelTable, labelHead, summed,
    be16_putString_of_disjoint, be16_setBe16_of_disjoint, be16_setBe24_of_disjoint,
    be16_setBe32_of_disjoint, be16_patch_of_disjoint, be16_setBe16_self]
  rfl

theorem labelBuffer_front : be16 (labelBuffer off total slices ncyl label) FRONT_OFF = 160 := by
  simp (disch := decide) only [labelBuffer, labelTable, labelHead, summed,
    be16_putString_of_disjoint, be16_setBe16_of_disjoint, be16_setBe24_of_disjoint,
    be16_setBe32_of_disjoint, be16_patch_of_disjoint, be16_setBe16_self]
  rfl

theorem labelBuffer_root : labelBuffer off total slices ncyl label ROOTPART_OFF = 0x61 := by
  simp (disch := decide) only [labelBuffer, labelTable, labelHead, summed,
    putString_of_not_mem, setBe16_of_not_mem, setBe24_of_not_mem, setBe32_of_not_mem,
    patch_of_not_mem, patch_of_mem]

end

/-- The one partition that is written. -/
def writtenPart (slices : Nat) : LabelPartition where
  base := 0
  size := slices
  blockSize := 8192
  fragSize := 1024
  type := bsdType ++ [0, 0]

section
variable (off total slices ncyl : Nat) (label : List UInt8)

theorem labelBuffer_part_zero (hs : slices < 16777216) :
    labelPartitionAt (labelBuffer off total slices ncyl label) 0 = writtenPart slices := by
  rw [labelPartitionAt, writtenPart, LabelPartition.mk.injEq]
  refine ⟨?_, ?_, ?_, ?_, ?_⟩
  · simp (disch := decide) only [labelBuffer, labelTable, summed, be24_putString_of_disjoint,
      be24_setBe16_of_disjoint, be24_setBe24_of_disjoint, be24_setBe32_of_disjoint,
      be24_patch_of_disjoint, be24_setBe24_self]
  · simp (disch := decide) only [labelBuffer, labelTable, summed, be24_putString_of_disjoint,
      be24_setBe16_of_disjoint, be24_setBe32_of_disjoint, be24_patch_of_disjoint,
      be24_setBe24_self]
    exact Nat.mod_eq_of_lt hs
  · simp (disch := decide) only [labelBuffer, labelTable, summed, be16_putString_of_disjoint,
      be16_setBe16_of_disjoint, be16_setBe32_of_disjoint, be16_patch_of_disjoint,
      be16_setBe16_self]
  · simp (disch := decide) only [labelBuffer, labelTable, summed, be16_putString_of_disjoint,
      be16_setBe16_of_disjoint, be16_setBe32_of_disjoint, be16_patch_of_disjoint,
      be16_setBe16_self]
  · have hbyte : ∀ k < 8, labelBuffer off total slices ncyl label (partOff 0 + 0x23 + k) =
        (bsdType ++ [0, 0]).getD k 0 := by
      intro k hk
      interval_cases k <;>
      · simp (disch := decide) only [labelBuffer, labelTable, summed, putString_of_short,
          setBe16_of_not_mem, setBe24_of_not_mem, setBe32_of_not_mem, patch_of_not_mem,
          patch_of_mem]
        try rfl
    unfold slice
    rw [List.map_congr_left fun k hk => hbyte k (List.mem_range.mp hk)]
    rfl

/-- The other entries are unused. -/
theorem labelBuffer_part_unused {i : Nat} (h₁ : 1 ≤ i) (h₂ : i < 8) :
    (labelPartitionAt (labelBuffer off total slices ncyl label) i).base = PART_UNUSED := by
  change be24 (labelBuffer off total slices ncyl label) (partOff i) = _
  have hones : ∀ k < 3, labelBuffer off total slices ncyl label (partOff i + k) = 0xff := by
    intro k hk
    interval_cases i <;> interval_cases k <;>
      simp (disch := decide) only [labelBuffer, labelTable, summed, putString_of_short,
        setBe16_of_not_mem, setBe24_of_not_mem, setBe32_of_not_mem, patch_of_not_mem, patch_of_mem]
  have h₀ := hones 0 (by omega)
  have h₁ := hones 1 (by omega)
  have h₂ := hones 2 (by omega)
  rw [be24, be16, h₁, show partOff i + 1 + 1 = partOff i + 2 by omega, h₂]
  rw [Nat.add_zero] at h₀
  rw [h₀]
  rfl

/-- The checksum stored is the one the decoder computes. -/
theorem labelBuffer_checksum :
    checksumBe16 (summed (labelBuffer off total slices ncyl label)) LABEL_CKSUM_SIZE =
      be16 (labelBuffer off total slices ncyl label) DL_V3_CKSUM_OFF := by
  have hbytes : ∀ i < LABEL_CKSUM_SIZE, summed (labelBuffer off total slices ncyl label) i =
      summed (labelTable (labelHead off total ncyl label) slices) i := by
    refine summed_congr fun i _ h₄ hck => ?_
    unfold labelBuffer
    rw [setBe32_of_not_mem (by omega), setBe16_of_not_mem (by unfold DL_V3_CKSUM_OFF; omega)]
    unfold summed
    rw [patch_of_not_mem (by unfold DL_V3_CKSUM_OFF; omega), patch_of_not_mem (by omega)]
  rw [checksumBe16_congr hbytes, labelBuffer, be16_setBe32_of_disjoint (by decide),
    be16_setBe16_self, Nat.mod_eq_of_lt (checksumBe16_lt _ _)]

end

/-- A partition of the reserved base is not there. -/
theorem not_present_of_base {p : LabelPartition} (h : p.base = PART_UNUSED) : p.present = false := by
  simp [LabelPartition.present, h]

/-- It is there unless its size says otherwise. -/
theorem present_written (slices : Nat) :
    (writtenPart slices).present = decide (slices ≠ 0 ∧ slices ≠ PART_UNUSED) := by
  have hname : (writtenPart slices).name = bsdType := rfl
  unfold LabelPartition.present
  rw [hname, decide_eq_decide]
  simp [writtenPart, bsdType, PART_UNUSED]

/-- What the decoder and the choice of a slice make of a label as it was written. -/
theorem decode_written {w : ByteStore} {size off total slices ncyl : Nat} {label : List UInt8}
    (hw : ∀ i < LABEL_WRITE_SIZE, w i = labelBuffer off total slices ncyl label i)
    (hsize : NEXTUFS_LABEL_DECODE_SIZE ≤ size) (hoff : off % DEV_SECTOR_SIZE = 0)
    (hlt : off / DEV_SECTOR_SIZE < 4294967296) (hs : slices < 16777216) :
    ∃ dl, nextufsLabelDecode w size off = some dl ∧ nextufsLabelPickSlice dl =
      if 0 < slices ∧ slices < PART_UNUSED then
        some (NEXTUFS_LABEL_FRONT_PORCH_BYTES, slices * NEXTUFS_LABEL_SECTOR_SIZE)
      else none := by
  have hfields : ∀ i < 0x2c0, w i = labelBuffer off total slices ncyl label i :=
    fun i hi => hw i (by unfold LABEL_WRITE_SIZE; omega)
  have hversion : labelVersion w = some .v3 :=
    (labelVersion_congr fun i hi => hfields i (by omega)).trans (labelBuffer_version ..)
  have hsum : labelChecksum w .v3 = labelChecksum (labelBuffer off total slices ncyl label) .v3 :=
    be16_congr fun i hi => hfields _ (by unfold DL_V3_CKSUM_OFF; omega)
  have hdl := diskLabel_congr hfields off hsum
  set dl := diskLabel (labelBuffer off total slices ncyl label) off .v3 with hdldef
  have hck : dl.copy.checksumOk = true := by
    simp only [hdldef, diskLabel, labelChecksum, if_true, labelBuffer_checksum, decide_true,
      Bool.and_self, Bool.or_true]
  have hsec : dl.copy.secsize = 1024 := labelBuffer_secsize ..
  have hfront : dl.copy.front = 160 := labelBuffer_front ..
  have hblkno : dl.labelBlkno = off / DEV_SECTOR_SIZE := labelBuffer_blkno _ _ _ _ _ hlt
  have hroot : dl.copy.rootpartition = 97 := congrArg UInt8.toNat (labelBuffer_root off total slices ncyl label)
  have hpart : dl.copy.part = (List.range 8).map
      (labelPartitionAt (labelBuffer off total slices ncyl label)) := rfl
  have hfirst := labelBuffer_part_zero off total slices ncyl label hs
  refine ⟨dl, ?_, ?_⟩
  · have hdecode : labelDecode dl.copy = true := by
      unfold labelDecode
      rw [hsec, hck]
      decide
    unfold nextufsLabelDecode
    rw [if_neg (by omega), hversion]
    dsimp only
    rw [hdl, hblkno, if_pos ⟨hdecode, by unfold DEV_SECTOR_SIZE at hoff ⊢; omega⟩]
  · have hletter : dl.copy.root =
        some (labelPartitionAt (labelBuffer off total slices ncyl label) 0) := by
      unfold LabelCopy.root
      rw [hroot, if_pos (by decide), hpart]
      rfl
    rw [nextufsLabelPickSlice, labelPickSlice, hletter, hfirst]
    have hpresent := present_written slices
    split_ifs with hin
    · rw [Option.filter_some, if_pos (hpresent.trans (decide_eq_true (by omega)))]
      simp only [LabelCopy.slice, hsec, hfront]
      rfl
    · rw [decide_eq_false (by unfold PART_UNUSED at hin ⊢; omega)] at hpresent
      rw [Option.filter_some, if_neg (by rw [hpresent]; decide)]
      dsimp only
      rw [Option.map_eq_none_iff, List.find?_eq_none]
      intro p hp
      rw [hpart, List.mem_map] at hp
      obtain ⟨i, hi, rfl⟩ := hp
      have hi' := List.mem_range.mp hi
      rcases Nat.eq_zero_or_pos i with rfl | hpos
      · rw [hfirst, hpresent, Bool.false_and]
        decide
      · rw [not_present_of_base (labelBuffer_part_unused off total slices ncyl label hpos hi'),
          Bool.false_and]
        decide

/-- A size came back from a label: the decoder accepts it and picks this slice. -/
def Picks (w : ByteStore) (size off : Nat) (slice : Nat × Nat) : Prop :=
  ∃ dl, nextufsLabelDecode w size off = some dl ∧ nextufsLabelPickSlice dl = some slice

/-- The four copies give back the slice that was written. -/
def WrittenBack (file : ByteStore) (slice_bytes : Nat) : Prop :=
  ∀ i < LABEL_COPY_COUNT, ∀ size, NEXTUFS_LABEL_DECODE_SIZE ≤ size →
    Picks (window file (i * LABEL_COPY_STRIDE)) size (i * LABEL_COPY_STRIDE)
      (NEXTUFS_LABEL_FRONT_PORCH_BYTES, slice_bytes)

/-- `nextufs_label_write_path` writes the four copies. -/
theorem nextufsLabelWritePath_ok {image_bytes slice_bytes : Nat} {label : List UInt8}
    {file file' : ByteStore}
    (h : nextufsLabelWritePath image_bytes slice_bytes label file = .ok file') :
    slice_bytes / NEXTUFS_LABEL_SECTOR_SIZE % 4294967296 < 16777216 ∧
      ∃ total ncyl, ∀ i < LABEL_COPY_COUNT, ∀ j < LABEL_WRITE_SIZE,
        window file' (i * LABEL_COPY_STRIDE) j = labelBuffer (i * LABEL_COPY_STRIDE) total
          (slice_bytes / NEXTUFS_LABEL_SECTOR_SIZE % 4294967296) ncyl label j := by
  simp only [nextufsLabelWritePath] at h
  split at h
  · cases h
  next hle =>
    split at h
    · cases h
    · cases h
      refine ⟨by omega, image_bytes / NEXTUFS_LABEL_SECTOR_SIZE % 4294967296,
        image_bytes / NEXTUFS_LABEL_SECTOR_SIZE % 4294967296 / (4 * 32), fun i hi j hj => ?_⟩
      have hi' : i = 0 ∨ i = 1 ∨ i = 2 ∨ i = 3 := by
        unfold LABEL_COPY_COUNT at hi
        omega
      unfold LABEL_WRITE_SIZE at hj
      simp only [LABEL_COPY_COUNT, List.range_succ, List.range_zero, List.nil_append,
        List.cons_append, List.foldl_cons, List.foldl_nil, writeLabelCopy, window, patch,
        LABEL_COPY_STRIDE, LABEL_WRITE_SIZE]
      obtain rfl | rfl | rfl | rfl := hi'
      · rw [if_neg (by omega), if_neg (by omega), if_neg (by omega), if_pos (by omega)]
        simp
      · rw [if_neg (by omega), if_neg (by omega), if_pos (by omega)]
        simp
      · rw [if_neg (by omega), if_pos (by omega)]
        simp
      · rw [if_pos (by omega)]
        simp

/-- The writer's sizes come back unless they are zero, reserved, or too large for 24 bits. -/
theorem writtenBack_iff {image_bytes slice_bytes : Nat} {label : List UInt8}
    {file file' : ByteStore} (hmul : slice_bytes % NEXTUFS_LABEL_SECTOR_SIZE = 0)
    (h : nextufsLabelWritePath image_bytes slice_bytes label file = .ok file') :
    WrittenBack file' slice_bytes ↔ 0 < slice_bytes / NEXTUFS_LABEL_SECTOR_SIZE ∧
      slice_bytes / NEXTUFS_LABEL_SECTOR_SIZE < PART_UNUSED := by
  obtain ⟨hlt, total, ncyl, hbytes⟩ := nextufsLabelWritePath_ok h
  have hback : ∀ i < LABEL_COPY_COUNT, ∀ size, NEXTUFS_LABEL_DECODE_SIZE ≤ size → _ :=
    fun i hi size hsize => decode_written (hbytes i hi) hsize
      (by unfold LABEL_COPY_STRIDE DEV_SECTOR_SIZE; omega)
      (by unfold LABEL_COPY_STRIDE DEV_SECTOR_SIZE LABEL_COPY_COUNT at *; omega) hlt
  have hsize : slice_bytes / NEXTUFS_LABEL_SECTOR_SIZE * NEXTUFS_LABEL_SECTOR_SIZE =
      slice_bytes := Nat.div_mul_cancel (Nat.dvd_of_mod_eq_zero hmul)
  constructor
  · intro hall
    obtain ⟨dl, hdl, hpick⟩ := hall 0 (by decide) _ le_rfl
    obtain ⟨dl', hdl', hpick'⟩ := hback 0 (by decide) _ le_rfl
    obtain rfl := Option.some.inj (hdl.symm.trans hdl')
    rw [hpick] at hpick'
    split at hpick'
    next hin =>
      have heq := (Prod.mk.inj (Option.some.inj hpick')).2
      unfold NEXTUFS_LABEL_SECTOR_SIZE at *
      omega
    · cases hpick'
  · rintro ⟨hpos, hless⟩ i hi size hle
    obtain ⟨dl, hdl, hpick⟩ := hback i hi size hle
    have hmod : slice_bytes / NEXTUFS_LABEL_SECTOR_SIZE % 4294967296 =
        slice_bytes / NEXTUFS_LABEL_SECTOR_SIZE := Nat.mod_eq_of_lt (by
      unfold PART_UNUSED at hless
      omega)
    rw [hmod, if_pos ⟨hpos, hless⟩, hsize] at hpick
    exact ⟨dl, hdl, hpick⟩

/-! ## §3 One label patched -/

/-- The places of the two fields the patcher changes in a label. -/
def labelFields (version : LabelVersion) (i q : Nat) : Prop :=
  (partOff i + 3 ≤ q ∧ q < partOff i + 6) ∨ (version = .v3 ∧ 0x22e ≤ q ∧ q < 0x230)

section
variable {w : ByteStore} {version : LabelVersion} {i s : Nat}

theorem patchedLabel_of_not_field {q : Nat} (h : ¬ labelFields version i q) :
    patchedLabel w version i s q = w q := by
  have hsize : ¬ (partOff i + 3 ≤ q ∧ q < partOff i + 6) := fun hc => h (.inl hc)
  unfold patchedLabel
  split
  next hv =>
    have hcksum : ¬ (0x22e ≤ q ∧ q < 0x230) := fun hc => h (.inr ⟨hv, hc⟩)
    rw [setBe16_of_not_mem (by unfold DL_V3_CKSUM_OFF; omega), setBe24_of_not_mem (by omega)]
  next => rw [setBe24_of_not_mem (by omega)]

/-- Beside the checksum only the size is written. -/
theorem patchedLabel_of_not_cksum {q : Nat} (h : q < 0x22e ∨ 0x230 ≤ q) :
    patchedLabel w version i s q = setBe24 w (partOff i + 3) s q := by
  unfold patchedLabel
  split
  · exact setBe16_of_not_mem (by unfold DL_V3_CKSUM_OFF; omega)
  · rfl

/-- The fields before the partitions stay. -/
theorem patchedLabel_head {q : Nat} (hq : q < 0xc0) : patchedLabel w version i s q = w q :=
  patchedLabel_of_not_field (by unfold labelFields partOff; omega)

theorem patchedLabel_be16 {q : Nat} (hq : q + 2 ≤ 0xc0) :
    be16 (patchedLabel w version i s) q = be16 w q :=
  be16_congr fun j hj => patchedLabel_head (by omega)

/-- The partition gets its size, the others keep theirs. -/
theorem patchedLabel_part (hi : i < 8) (hs : s < 16777216) {j : Nat} (hj : j < 8) :
    labelPartitionAt (patchedLabel w version i s) j =
      if j = i then { labelPartitionAt w j with size := s } else labelPartitionAt w j := by
  have hcksum : ∀ k < 0x2b, ¬ (0x22e ≤ partOff j + k ∧ partOff j + k < 0x230) := by
    intro k hk
    unfold partOff
    omega
  split
  next hji =>
    subst hji
    have hout : ∀ q k, k + q < 0x2b → (k + q < 3 ∨ 6 ≤ k + q) →
        patchedLabel w version j s (partOff j + k + q) = w (partOff j + k + q) :=
      fun q k hk hkq => by
        have := hcksum (k + q) hk
        exact patchedLabel_of_not_field (by unfold labelFields; omega)
    have hsize : be24 (patchedLabel w version j s) (partOff j + 3) = s := by
      have hlt : partOff j + 6 ≤ 0x22e ∨ 0x230 ≤ partOff j + 3 := by unfold partOff; omega
      unfold patchedLabel
      dsimp only
      split
      · rw [be24_setBe16_of_disjoint (by unfold DL_V3_CKSUM_OFF; omega), be24_setBe24_self,
          Nat.mod_eq_of_lt hs]
      · rw [be24_setBe24_self, Nat.mod_eq_of_lt hs]
    rw [labelPartitionAt, labelPartitionAt, LabelPartition.mk.injEq]
    refine ⟨be24_congr fun k hk => hout k 0 (by omega) (by omega), hsize,
      be16_congr fun k hk => hout k 6 (by omega) (by omega),
      be16_congr fun k hk => hout k 8 (by omega) (by omega), ?_⟩
    unfold slice
    refine List.map_congr_left fun k hk => hout k 0x23 ?_ (by omega)
    have := List.mem_range.mp hk
    omega
  next hji =>
    refine labelPartitionAt_congr fun k hk => patchedLabel_of_not_field ?_
    have := hcksum k hk
    unfold labelFields
    rintro (h | h)
    · unfold partOff at h
      omega
    · omega

theorem patchedLabel_version : labelVersion (patchedLabel w version i s) = labelVersion w :=
  labelVersion_congr fun j hj => patchedLabel_head (by omega)

/-- The checksum stored is the one of the label with the new size. -/
theorem patchedLabel_checksum :
    checksumBe16 (summed (patchedLabel w .v3 i s)) LABEL_CKSUM_SIZE =
      be16 (patchedLabel w .v3 i s) DL_V3_CKSUM_OFF := by
  have hbytes : ∀ j < LABEL_CKSUM_SIZE, summed (patchedLabel w .v3 i s) j =
      summed (setBe24 w (partOff i + 3) s) j := by
    refine summed_congr fun j _ _ hck => ?_
    unfold patchedLabel
    rw [if_pos rfl, setBe16_of_not_mem (by unfold DL_V3_CKSUM_OFF; omega)]
  rw [checksumBe16_congr hbytes]
  unfold patchedLabel
  rw [if_pos rfl, be16_setBe16_self, Nat.mod_eq_of_lt (checksumBe16_lt _ _)]

/-- The patcher on bytes does to the record what the patcher on records does. -/
theorem diskLabel_patched (hi : i < 8) (hs : s < 16777216) (off : Nat) (version : LabelVersion)
    (hroot : (w ROOTPART_OFF).toNat - 97 = i) :
    (diskLabel (patchedLabel w version i s) off version).copy =
      (diskLabel w off version).copy.resized s := by
  have hparts : (List.range NEXTUFS_LABEL_PART_COUNT).map
      (labelPartitionAt (patchedLabel w version i s)) =
      ((List.range NEXTUFS_LABEL_PART_COUNT).map (labelPartitionAt w)).modify i
        fun p => { p with size := s } := by
    refine List.ext_getElem? fun j => ?_
    rw [List.getElem?_modify, List.getElem?_map, List.getElem?_map, Option.map_eq_map]
    by_cases hj : j < NEXTUFS_LABEL_PART_COUNT
    · rw [List.getElem?_range hj, Option.map_some, Option.map_some, Option.map_some,
        patchedLabel_part hi hs hj]
      by_cases hji : i = j
      · rw [if_pos hji, if_pos hji.symm]
      · rw [if_neg hji, if_neg (Ne.symm hji)]
    · rw [List.getElem?_eq_none (by rw [List.length_range]; omega)]
      rfl
  have hletter : patchedLabel w version i s ROOTPART_OFF = w ROOTPART_OFF :=
    patchedLabel_head (by decide)
  have hok : (diskLabel (patchedLabel w version i s) off version).copy.checksumOk =
      if version = .v3 then true else (diskLabel w off version).copy.checksumOk := by
    split
    next hv =>
      subst hv
      simp only [diskLabel, labelChecksum, if_true, patchedLabel_checksum, decide_true,
        Bool.and_self, Bool.or_true]
    next hv =>
      have hword : be16 (patchedLabel w version i s) DL_CKSUM_OFF = be16 w DL_CKSUM_OFF := by
        refine be16_congr fun j hj => patchedLabel_of_not_field ?_
        unfold labelFields partOff DL_CKSUM_OFF
        omega
      simp only [diskLabel, labelChecksum, if_neg hv, hword, decide_eq_false hv, Bool.false_and]
  rw [LabelCopy.resized, LabelCopy.mk.injEq]
  refine ⟨rfl, rfl, patchedLabel_be16 (by decide), patchedLabel_be16 (by decide),
    congrArg UInt8.toNat hletter, ?_, hok⟩
  change _ = List.modify _ ((w ROOTPART_OFF).toNat - 97) _
  rw [hroot]
  exact hparts

end

/-- The sector size in a label, and which of its partitions is the root. -/
def labelSecsize (w : ByteStore) : Nat := be16 w SECSIZE_OFF

def labelRoot (w : ByteStore) : Nat := (w ROOTPART_OFF).toNat - 97

/-- A label of this version starts at `off`: the version word and the block number fit. -/
def LabelAt (file : ByteStore) (off : Nat) (version : LabelVersion) : Prop :=
  labelVersion (window file off) = some version ∧
    be32 (window file off) 4 * DEV_SECTOR_SIZE = off

/-- A label that `patch_one_label_partition_size` changes. -/
structure Patchable (slice_base slice_bytes : Nat) (file : ByteStore) (off : Nat)
    (version : LabelVersion) : Prop where
  label : LabelAt file off version
  letter : 97 ≤ (window file off ROOTPART_OFF).toNat
  letter_lt : (window file off ROOTPART_OFF).toNat < 105
  secsize : labelSecsize (window file off) ≠ 0
  whole : slice_bytes % labelSecsize (window file off) = 0
  base : (be16 (window file off) FRONT_OFF +
    be24 (window file off) (partOff (labelRoot (window file off)))) *
      labelSecsize (window file off) = slice_base

theorem Patchable.root_lt {slice_base slice_bytes off : Nat} {file : ByteStore}
    {version : LabelVersion} (h : Patchable slice_base slice_bytes file off version) :
    labelRoot (window file off) < 8 := by
  have h₁ := h.letter
  have h₂ := h.letter_lt
  unfold labelRoot
  omega

/-- What a place looks like after the patcher was there. -/
structure PlacePatched (slice_bytes : Nat) (file : ByteStore) (off : Nat) (version : LabelVersion)
    (file' : ByteStore) : Prop where
  fits : slice_bytes / labelSecsize (window file off) % 4294967296 ≤ 0xffffff
  bytes : window file' off = patchedLabel (window file off) version (labelRoot (window file off))
    (slice_bytes / labelSecsize (window file off) % 4294967296)
  below : ∀ p < off, file' p = file p

/-- `patch_one_label_partition_size` patches the label if it is one it changes, and leaves the
file as it is otherwise. -/
theorem patchOneLabel_ok {size slice_base slice_bytes off : Nat} {file file' : ByteStore}
    {did : Bool} (h : patchOneLabel size slice_base slice_bytes off file = .ok (file', did)) :
    (∃ version, Patchable slice_base slice_bytes file off version ∧
      PlacePatched slice_bytes file off version file') ∨
    ((∀ version, ¬ Patchable slice_base slice_bytes file off version) ∧ file' = file) := by
  unfold patchOneLabel at h
  split at h
  · cases h
  dsimp only at h
  split at h
  next hnone =>
    cases h
    exact .inr ⟨fun v hv => absurd (hnone.symm.trans hv.label.1) (by simp), rfl⟩
  next version hversion =>
    split at h
    next hblk =>
      cases h
      exact .inr ⟨fun v hv => hblk hv.label.2, rfl⟩
    next hblk =>
      split at h
      next hskip =>
        cases h
        refine .inr ⟨fun v hv => ?_, rfl⟩
        have h₁ := hv.letter
        have h₂ := hv.letter_lt
        have h₃ := hv.secsize
        have h₄ := hv.whole
        unfold labelSecsize at h₃ h₄
        unfold NEXTUFS_LABEL_PART_COUNT at hskip
        omega
      next hskip =>
        split at h
        · cases h
        next hfits =>
          split at h
          next hbase =>
            cases h
            exact .inr ⟨fun v hv => hbase hv.base, rfl⟩
          next hbase =>
            cases h
            unfold NEXTUFS_LABEL_PART_COUNT at hskip
            have hp : Patchable slice_base slice_bytes file off version :=
              { label := ⟨hversion, not_not.mp hblk⟩
                letter := by omega
                letter_lt := by omega
                secsize := fun h0 => hskip (.inr (.inr (.inl h0)))
                whole := by
                  by_contra hne
                  exact hskip (.inr (.inr (.inr hne)))
                base := not_not.mp hbase }
            refine .inl ⟨version, hp, by unfold labelSecsize; omega, ?_,
              fun p hp => patch_of_not_mem (by omega)⟩
            funext q
            change patch file off _ _ (off + q) = _
            by_cases hq : q < LABEL_VALIDATE_SIZE
            · rw [patch_of_mem (by omega) (by omega), Nat.add_sub_cancel_left]
              rfl
            · rw [patch_of_not_mem (by omega), patchedLabel_of_not_field]
              · rfl
              · have := hp.root_lt
                unfold labelFields partOff
                unfold LABEL_VALIDATE_SIZE at hq
                omega

/-! ## §4 The patcher over a file -/

/-- The place of the sector `k`. -/
def sectorOff (k : Nat) : Nat := k * DEV_SECTOR_SIZE

/-- The file with the new size in the label at the sector `k`. -/
def resizedAt (slice_bytes : Nat) (file : ByteStore) (k : Nat) : ByteStore :=
  setBe24 file (sectorOff k + (partOff (labelRoot (window file (sectorOff k))) + 3))
    (slice_bytes / labelSecsize (window file (sectorOff k)) % 4294967296)

/-- No new size makes the sector behind its label one that is patched, or keeps it from being one.
Only the size of the partition `f` reaches that far, over the end of the version word there. -/
def LabelsApart (slice_base slice_bytes : Nat) (file : ByteStore) : Prop :=
  ∀ k, k + 1 < labelPlaces →
    ∀ version, Patchable slice_base slice_bytes file (sectorOff k) version →
      ∀ v, Patchable slice_base slice_bytes (resizedAt slice_bytes file k) (sectorOff (k + 1)) v ↔
        Patchable slice_base slice_bytes file (sectorOff (k + 1)) v

/-- The bytes of a label that the patch of the label before it can reach. Behind its first eight
they say nothing about a slice. -/
def Reached (r : Nat) : Prop :=
  (3 ≤ r ∧ r < 6) ∨ (0x2e ≤ r ∧ r < 0x30) ∨ (0x43 ≤ r ∧ r < 0x46) ∨ (0x83 ≤ r ∧ r < 0x86)

/-- The fields of a label meet the next label where it can be reached, and no other label at
all. -/
theorem field_hits {version : LabelVersion} {i q j k r : Nat} (hi : i < 8)
    (hf : labelFields version i q) (heq : sectorOff j + q = sectorOff k + r)
    (hr : r < 0x2c0 ∨ (0x1c58 ≤ r ∧ r < 0x1c5a)) : j = k ∨ (j + 1 = k ∧ r < 0x2c0 ∧ Reached r) := by
  unfold sectorOff DEV_SECTOR_SIZE at heq
  have hq : ∃ e, (q = 195 + i * 64 + e ∧ e < 3) ∨ (q = 558 + e ∧ e < 2) := by
    rcases hf with ⟨h₁, h₂⟩ | ⟨-, h₁, h₂⟩
    · unfold partOff at h₁ h₂
      exact ⟨q - (195 + i * 64), .inl ⟨by omega, by omega⟩⟩
    · exact ⟨q - 558, .inr ⟨by omega, by omega⟩⟩
  unfold Reached
  obtain ⟨e, ⟨rfl, he⟩ | ⟨rfl, he⟩⟩ := hq
  · omega
  · omega

/-- Two windows that agree but where the label before them can reach. -/
structure SameFields (w w' : ByteStore) : Prop where
  fields : ∀ i < 0x2c0, ¬ Reached i → w i = w' i
  cksum : ∀ i, 0x1c58 ≤ i → i < 0x1c5a → w i = w' i

section
variable {w w' : ByteStore} {version : LabelVersion}

/-- A byte that differs can be reached, or lies in no field. -/
theorem SameFields.of_reached (h : ∀ r, w r ≠ w' r →
    (r < 0x2c0 ∨ (0x1c58 ≤ r ∧ r < 0x1c5a)) → r < 0x2c0 ∧ Reached r) : SameFields w w' := by
  constructor
  · intro i hi hout
    by_contra hne
    exact hout (h i hne (.inl hi)).2
  · intro i h₁ h₂
    by_contra hne
    have hlow := (h i hne (.inr ⟨h₁, h₂⟩)).1
    omega

theorem SameFields.symm (h : SameFields w w') : SameFields w' w :=
  ⟨fun i hi hout => (h.fields i hi hout).symm, fun i h₁ h₂ => (h.cksum i h₁ h₂).symm⟩

theorem SameFields.trans {w₁ : ByteStore} (h : SameFields w w₁) (h₁ : SameFields w₁ w') :
    SameFields w w' :=
  ⟨fun i hi hout => (h.fields i hi hout).trans (h₁.fields i hi hout),
    fun i hi hi' => (h.cksum i hi hi').trans (h₁.cksum i hi hi')⟩

theorem SameFields.word (h : SameFields w w') {p : Nat} (hp : p + 2 ≤ 0x2c0)
    (hout : ∀ i < 2, ¬ Reached (p + i)) : be16 w p = be16 w' p :=
  be16_congr fun i hi => h.fields _ (by omega) (hout i hi)

theorem SameFields.secsize (h : SameFields w w') : labelSecsize w = labelSecsize w' :=
  h.word (by decide) (by unfold SECSIZE_OFF Reached; omega)

theorem SameFields.front (h : SameFields w w') : be16 w FRONT_OFF = be16 w' FRONT_OFF :=
  h.word (by decide) (by unfold FRONT_OFF Reached; omega)

theorem SameFields.letter (h : SameFields w w') : w ROOTPART_OFF = w' ROOTPART_OFF :=
  h.fields _ (by decide) (by unfold ROOTPART_OFF Reached; omega)

theorem SameFields.root (h : SameFields w w') : labelRoot w = labelRoot w' :=
  congrArg (fun b : UInt8 => b.toNat - 97) h.letter

theorem SameFields.part (h : SameFields w w') {i : Nat} (hi : i < 8) :
    labelPartitionAt w i = labelPartitionAt w' i :=
  labelPartitionAt_congr fun j hj => h.fields _ (by unfold partOff; omega)
    (by unfold partOff Reached; omega)

/-- They are read as records of the same slices. -/
theorem SameFields.copy (h : SameFields w w') (off : Nat) (v v' : LabelVersion) :
    (diskLabel w' off v').copy = { (diskLabel w off v).copy with
      version := v', checksumOk := (diskLabel w' off v').copy.checksumOk } := by
  have hparts : (List.range NEXTUFS_LABEL_PART_COUNT).map (labelPartitionAt w') =
      (List.range NEXTUFS_LABEL_PART_COUNT).map (labelPartitionAt w) :=
    List.map_congr_left fun i hi => (h.part (List.mem_range.mp hi)).symm
  have hsec : be16 w' SECSIZE_OFF = be16 w SECSIZE_OFF :=
    h.secsize.symm
  simp only [diskLabel, hparts, hsec, h.front, h.letter]

/-- With a new size and checksum they are the same record. -/
theorem SameFields.resized (h : SameFields w w') (off s : Nat) :
    (diskLabel w' off version).copy.resized s = (diskLabel w off version).copy.resized s := by
  rw [h.copy off version version]
  by_cases hv : version = .v3
  · simp [LabelCopy.resized, diskLabel, hv]
  · have hword : be16 w' DL_CKSUM_OFF =
        be16 w DL_CKSUM_OFF :=
      be16_congr fun i hi => (h.cksum _ (by unfold DL_CKSUM_OFF; omega)
        (by unfold DL_CKSUM_OFF; omega)).symm
    have hok : (diskLabel w' off version).copy.checksumOk =
        (diskLabel w off version).copy.checksumOk := by
      simp only [diskLabel, labelChecksum, if_neg hv, hword, decide_eq_false hv, Bool.false_and]
    rw [hok]
    rfl

/-- Which slice is picked does not depend on version and checksum. -/
theorem SameFields.pick (h : SameFields w w') (off : Nat) (v v' : LabelVersion) :
    labelPickSlice (diskLabel w' off v').copy = labelPickSlice (diskLabel w off v).copy := by
  rw [h.copy off v v']
  rfl

end

section
variable {slice_base slice_bytes : Nat} {file file' : ByteStore}

theorem Patchable.congr {off : Nat} {version : LabelVersion}
    (h : Patchable slice_base slice_bytes file off version)
    (hsame : SameFields (window file off) (window file' off))
    (hhead : ∀ r < 8, window file off r = window file' off r) :
    Patchable slice_base slice_bytes file' off version := by
  have hbase : be24 (window file off) (partOff (labelRoot (window file off))) =
      be24 (window file' off) (partOff (labelRoot (window file' off))) := by
    rw [← hsame.root]
    exact congrArg LabelPartition.base (hsame.part h.root_lt)
  have hword : be32 (window file off) 4 = be32 (window file' off) 4 :=
    be32_congr fun i hi => hhead _ (by omega)
  exact
    { label := ⟨(labelVersion_congr fun i hi => hhead i (by omega)).symm.trans h.label.1,
        hword ▸ h.label.2⟩
      letter := h.letter.trans_eq (congrArg UInt8.toNat hsame.letter)
      letter_lt := (congrArg UInt8.toNat hsame.letter).symm.trans_lt h.letter_lt
      secsize := by rw [← hsame.secsize]; exact h.secsize
      whole := by rw [← hsame.secsize]; exact h.whole
      base := by rw [← hbase, ← hsame.front, ← hsame.secsize]; exact h.base }

/-- A new size lies in the fields of its label. -/
theorem resizedAt_fields {k : Nat} (version : LabelVersion) {p : Nat}
    (hne : resizedAt slice_bytes file k p ≠ file p) : ∃ q, p = sectorOff k + q ∧
      labelFields version (labelRoot (window file (sectorOff k))) q := by
  by_contra hnot
  refine hne (setBe24_of_not_mem ?_)
  by_contra hin
  exact hnot ⟨p - sectorOff k, by omega, .inl ⟨by omega, by omega⟩⟩

/-- The sector behind a new size has its fields from before. -/
theorem resizedAt_next {k : Nat} (hroot : labelRoot (window file (sectorOff k)) < 8) :
    SameFields (window (resizedAt slice_bytes file k) (sectorOff (k + 1)))
      (window file (sectorOff (k + 1))) := by
  refine SameFields.of_reached fun r hne hr => ?_
  obtain ⟨q, hq, hf⟩ := resizedAt_fields .v1 hne
  rcases field_hits hroot hf hq.symm hr with heq | ⟨-, hreached⟩
  · omega
  · exact hreached

/-- The size of another partition than `f` does not reach the next version word. -/
theorem resizedAt_head {k : Nat} (hroot : labelRoot (window file (sectorOff k)) ≠ 5) :
    ∀ r < 8, window (resizedAt slice_bytes file k) (sectorOff (k + 1)) r =
      window file (sectorOff (k + 1)) r := by
  intro r hr
  refine setBe24_of_not_mem ?_
  generalize labelRoot (window file (sectorOff k)) = i at hroot ⊢
  unfold sectorOff DEV_SECTOR_SIZE partOff
  omega

theorem resizedAt_patchable {k : Nat} (hlt : labelRoot (window file (sectorOff k)) < 8)
    (hroot : labelRoot (window file (sectorOff k)) ≠ 5) (v : LabelVersion) :
    Patchable slice_base slice_bytes (resizedAt slice_bytes file k) (sectorOff (k + 1)) v ↔
      Patchable slice_base slice_bytes file (sectorOff (k + 1)) v :=
  ⟨fun h => h.congr (resizedAt_next hlt) (resizedAt_head hroot),
    fun h => h.congr (resizedAt_next hlt).symm fun r hr => (resizedAt_head hroot r hr).symm⟩

/-- What the patcher has made of a place. In the file it found there, `file₁`, the label may have
been reached by the one before it. -/
structure LabelPatched (slice_bytes : Nat) (file : ByteStore) (off : Nat) (version : LabelVersion)
    (file₁ file' : ByteStore) : Prop where
  label : LabelAt file₁ off version
  same : SameFields (window file off) (window file₁ off)
  fits : slice_bytes / labelSecsize (window file off) % 4294967296 ≤ 0xffffff
  patched : SameLabel (window file' off) (patchedLabel (window file₁ off) version
    (labelRoot (window file off)) (slice_bytes / labelSecsize (window file off) % 4294967296))

/-- What the patcher has done after the first `k` sectors. -/
structure PatchTrace (slice_base slice_bytes : Nat) (file : ByteStore) (k : Nat)
    (file' : ByteStore) : Prop where
  changed : ∀ p, file' p ≠ file p → ∃ j < k, ∃ version,
    Patchable slice_base slice_bytes file (sectorOff j) version ∧
      ∃ q, p = sectorOff j + q ∧ labelFields version (labelRoot (window file (sectorOff j))) q
  patched : ∀ j < k, ∀ version, Patchable slice_base slice_bytes file (sectorOff j) version →
    ∃ file₁, LabelPatched slice_bytes file (sectorOff j) version file₁ file'

theorem PatchTrace.nil : PatchTrace slice_base slice_bytes file 0 file :=
  ⟨fun _ h => absurd rfl h, fun _ h => absurd h (Nat.not_lt_zero _)⟩

/-- A sector that has not been patched, or not yet, has its fields from before. -/
theorem PatchTrace.kept {k j : Nat} (h : PatchTrace slice_base slice_bytes file k file')
    (hnot : k ≤ j ∨ ∀ v, ¬ Patchable slice_base slice_bytes file (sectorOff j) v) :
    SameFields (window file (sectorOff j)) (window file' (sectorOff j)) := by
  refine SameFields.of_reached fun r hne hr => ?_
  obtain ⟨i, hik, v, hp, q, hq, hf⟩ := h.changed _ (Ne.symm hne)
  rcases field_hits hp.root_lt hf hq.symm hr with rfl | ⟨-, hreached⟩
  · rcases hnot with hle | hnone
    · omega
    · exact absurd hp (hnone v)
  · exact hreached

/-- The first bytes of the next sector, unless the last one was patched, are as they were. -/
theorem PatchTrace.head_kept {k : Nat} (h : PatchTrace slice_base slice_bytes file k file')
    (hnot : ∀ j, j + 1 = k → ∀ v, ¬ Patchable slice_base slice_bytes file (sectorOff j) v) :
    ∀ r < 8, window file (sectorOff k) r = window file' (sectorOff k) r := by
  intro r hr
  by_contra hne
  obtain ⟨j, hj, v, hp, q, hq, hf⟩ := h.changed _ (Ne.symm hne)
  rcases field_hits hp.root_lt hf hq.symm (.inl (by omega)) with rfl | ⟨heq, -⟩
  · omega
  · exact hnot j heq v hp

/-- Behind a label that was patched they are those of the new size. -/
theorem PatchTrace.head_resized {k : Nat} {version : LabelVersion}
    (h : PatchTrace slice_base slice_bytes file (k + 1) file')
    (hp : Patchable slice_base slice_bytes file (sectorOff k) version) :
    ∀ r < 8, window (resizedAt slice_bytes file k) (sectorOff (k + 1)) r =
      window file' (sectorOff (k + 1)) r := by
  intro r hr
  obtain ⟨file₁, hlabel⟩ := h.patched k (Nat.lt_succ_self k) version hp
  have hnext : ∀ b : ByteStore, window b (sectorOff (k + 1)) r = window b (sectorOff k) (512 + r) :=
    fun b => congrArg b (by unfold sectorOff DEV_SECTOR_SIZE; omega)
  have hfound : window file (sectorOff k) (512 + r) = window file₁ (sectorOff k) (512 + r) :=
    hlabel.same.fields _ (by omega) (by unfold Reached; omega)
  rw [hnext, hnext, hlabel.patched.fields _ (by omega), patchedLabel_of_not_cksum (by omega)]
  have hsize : setBe24 (window file₁ (sectorOff k))
        (partOff (labelRoot (window file (sectorOff k))) + 3)
        (slice_bytes / labelSecsize (window file (sectorOff k)) % 4294967296) (512 + r) =
      setBe24 (window file (sectorOff k)) (partOff (labelRoot (window file (sectorOff k))) + 3)
        (slice_bytes / labelSecsize (window file (sectorOff k)) % 4294967296) (512 + r) := by
    unfold setBe24 patch
    rw [hfound]
  rw [hsize]
  exact congrFun (window_patch file (sectorOff k) _ 3 _) (512 + r)

/-- The patcher decides at every sector as it would on the file it was given. -/
theorem PatchTrace.patchable_iff {k : Nat} (hapart : LabelsApart slice_base slice_bytes file)
    (hk : k < labelPlaces) (h : PatchTrace slice_base slice_bytes file k file')
    (version : LabelVersion) :
    Patchable slice_base slice_bytes file' (sectorOff k) version ↔
      Patchable slice_base slice_bytes file (sectorOff k) version := by
  have hsame := h.kept (.inl (le_refl k))
  by_cases hlast : ∃ j v, j + 1 = k ∧ Patchable slice_base slice_bytes file (sectorOff j) v
  · obtain ⟨j, v, rfl, hp⟩ := hlast
    have hhead := h.head_resized hp
    have hnext := @resizedAt_next slice_bytes file j hp.root_lt
    rw [← hapart j hk v hp version]
    exact ⟨fun hq => hq.congr (hnext.trans hsame).symm fun r hr => (hhead r hr).symm,
      fun hq => hq.congr (hnext.trans hsame) hhead⟩
  · have hhead := h.head_kept fun j hj v hp => hlast ⟨j, v, hj, hp⟩
    exact ⟨fun hq => hq.congr hsame.symm fun r hr => (hhead r hr).symm,
      fun hq => hq.congr hsame hhead⟩

/-- The step lemma: one more sector. -/
theorem PatchTrace.step {size k : Nat} {file₁ : ByteStore} {did : Bool}
    (hapart : LabelsApart slice_base slice_bytes file) (hk : k < labelPlaces)
    (h : PatchTrace slice_base slice_bytes file k file₁)
    (hone : patchOneLabel size slice_base slice_bytes (sectorOff k) file₁ = .ok (file', did)) :
    PatchTrace slice_base slice_bytes file (k + 1) file' := by
  rcases patchOneLabel_ok hone with ⟨v, hp, hplace⟩ | ⟨hnone, rfl⟩
  case inr =>
    refine ⟨fun p hne => ?_, fun j hj v hp => ?_⟩
    · obtain ⟨j, hj, hrest⟩ := h.changed p hne
      exact ⟨j, by omega, hrest⟩
    · rcases Nat.lt_succ_iff_lt_or_eq.mp hj with hj | rfl
      · exact h.patched j hj v hp
      · exact absurd ((h.patchable_iff hapart hk v).mpr hp) (hnone v)
  have hpf := (h.patchable_iff hapart hk v).mp hp
  have hsame := h.kept (.inl (le_refl k))
  -- what this sector changed is in the fields of its label
  have hfield : ∀ p, file' p ≠ file₁ p → ∃ q, p = sectorOff k + q ∧
      labelFields v (labelRoot (window file (sectorOff k))) q := by
    intro p hne
    have hge : sectorOff k ≤ p := by
      by_contra hlt
      exact hne (hplace.below p (by omega))
    refine ⟨p - sectorOff k, by omega, ?_⟩
    by_contra hnot
    refine hne ?_
    have hbyte := congrFun hplace.bytes (p - sectorOff k)
    rw [← hsame.root, patchedLabel_of_not_field hnot] at hbyte
    unfold window at hbyte
    rwa [Nat.add_sub_cancel' hge] at hbyte
  refine ⟨fun p hne => ?_, fun j hj v' hp' => ?_⟩
  · by_cases heq : file' p = file₁ p
    · obtain ⟨j, hj, hrest⟩ := h.changed p (heq ▸ hne)
      exact ⟨j, by omega, hrest⟩
    · exact ⟨k, by omega, v, hpf, hfield p heq⟩
  · rcases Nat.lt_succ_iff_lt_or_eq.mp hj with hj | rfl
    · obtain ⟨file₂, hlabel⟩ := h.patched j hj v' hp'
      have hbefore : ∀ r, r < 0x2c0 ∨ (0x1c58 ≤ r ∧ r < 0x1c5a) →
          window file' (sectorOff j) r = window file₁ (sectorOff j) r := by
        intro r hr
        by_contra hne
        obtain ⟨q, hq, hf⟩ := hfield _ hne
        rcases field_hits hpf.root_lt hf hq.symm hr with h₁ | ⟨h₁, -⟩ <;> omega
      exact ⟨file₂, { hlabel with
        patched := SameLabel.trans ⟨fun i hi => hbefore i (.inl hi),
          fun i h₁ h₂ => hbefore i (.inr ⟨h₁, h₂⟩)⟩ hlabel.patched }⟩
    · obtain rfl := Option.some.inj (hpf.label.1.symm.trans hp'.label.1)
      have hfits := hplace.fits
      have hbytes := hplace.bytes
      rw [← hsame.secsize] at hfits hbytes
      rw [← hsame.root] at hbytes
      exact ⟨file₁,
        { label := hp.label
          same := hsame
          fits := hfits
          patched := hbytes ▸ SameLabel.refl }⟩


/-- The run lemma: the loop over the sectors. -/
theorem PatchTrace.loop {size : Nat} (hapart : LabelsApart slice_base slice_bytes file) :
    ∀ {n k count : Nat} {file₁ : ByteStore}, k + n ≤ labelPlaces →
      PatchTrace slice_base slice_bytes file k file₁ →
      patchLabelsLoop size slice_base slice_bytes n (sectorOff k) file₁ = .ok (file', count) →
      PatchTrace slice_base slice_bytes file (k + n) file'
  | 0, k, count, file₁, _, h, hloop => by
      cases hloop
      exact h
  | n + 1, k, count, file₁, hn, h, hloop => by
      unfold patchLabelsLoop at hloop
      split at hloop
      · cases hloop
      next file₂ did hone =>
        have hnext : sectorOff k + DEV_SECTOR_SIZE = sectorOff (k + 1) :=
          (Nat.succ_mul k DEV_SECTOR_SIZE).symm
        rw [hnext] at hloop
        split at hloop
        · cases hloop
        next file₃ m hrest =>
          cases hloop
          have hrun := PatchTrace.loop hapart (by omega) (h.step hapart (by omega) hone) hrest
          rwa [Nat.add_right_comm] at hrun

theorem nextufsLabelPatchSliceSize_ok {size : Nat} (hapart : LabelsApart slice_base slice_bytes file)
    (h : nextufsLabelPatchSliceSize size slice_base slice_bytes file = .ok file') :
    PatchTrace slice_base slice_bytes file labelPlaces file' := by
  unfold nextufsLabelPatchSliceSize at h
  split at h
  · cases h
  next file₁ patched hloop =>
    split at h
    · cases h
    · cases h
      have hstart : sectorOff 0 = 0 := Nat.zero_mul _
      have hrun := PatchTrace.loop (k := 0) hapart (by omega) PatchTrace.nil (hstart.symm ▸ hloop)
      rwa [Nat.zero_add] at hrun

end

/-! ## §5 The sizes that come back -/

/-- The root partition of a decoded window. -/
theorem diskLabel_root {w : ByteStore} (off : Nat) (version : LabelVersion)
    (h₁ : 97 ≤ (w ROOTPART_OFF).toNat) (h₂ : (w ROOTPART_OFF).toNat < 105) :
    (diskLabel w off version).copy.root = some (labelPartitionAt w (labelRoot w)) := by
  change (if 97 ≤ (w ROOTPART_OFF).toNat ∧
    (w ROOTPART_OFF).toNat < 97 + NEXTUFS_LABEL_PART_COUNT then
      ((List.range NEXTUFS_LABEL_PART_COUNT).map (labelPartitionAt w))[labelRoot w]? else none) = _
  have hlt : labelRoot w < NEXTUFS_LABEL_PART_COUNT := by
    unfold labelRoot NEXTUFS_LABEL_PART_COUNT
    omega
  rw [if_pos ⟨h₁, by unfold NEXTUFS_LABEL_PART_COUNT; omega⟩, List.getElem?_map,
    List.getElem?_range hlt]
  rfl

/-- With a root partition that is there, its slice is picked. -/
theorem labelPickSlice_of_root {c : LabelCopy} {root : LabelPartition} (h : c.root = some root)
    (hp : root.present = true) : labelPickSlice c = some (c.slice root) := by
  rw [labelPickSlice, h, Option.filter_some, if_pos hp]

theorem LabelCopy.resized_root {c : LabelCopy} {root : LabelPartition} (h : c.root = some root)
    (s : Nat) : (c.resized s).root = some { root with size := s } := by
  have hat := LabelCopy.root_some h
  unfold LabelCopy.root at h ⊢
  split at h
  next hrange =>
    change (if 97 ≤ c.rootpartition ∧ c.rootpartition < 97 + NEXTUFS_LABEL_PART_COUNT then
      (c.part.modify (c.rootpartition - 97) _)[c.rootpartition - 97]? else none) = _
    rw [if_pos hrange, List.getElem?_modify_eq, hat]
    rfl
  · cases h

theorem labelDecode_resized {c : LabelCopy} (h : labelDecode c = true) (s : Nat) :
    labelDecode (c.resized s) = true := by
  unfold labelDecode LabelCopy.resized at *
  rw [Bool.and_eq_true] at h ⊢
  refine ⟨h.1, ?_⟩
  dsimp only
  split
  · rfl
  · exact h.2

/-- A partition is there with one size as with another. -/
theorem present_size {p : LabelPartition} {s t : Nat} (hs : s ≠ 0) (hs' : s ≠ PART_UNUSED)
    (h : ({ p with size := t } : LabelPartition).present = true) :
    ({ p with size := s } : LabelPartition).present = true := by
  unfold LabelPartition.present at h ⊢
  obtain ⟨h₁, -, -, h₂⟩ := of_decide_eq_true h
  exact decide_eq_true ⟨h₁, hs, hs', h₂⟩

/-- The label at a sector picks a slice of this base. -/
def PicksBase (file : ByteStore) (slice_base k : Nat) : Prop :=
  ∃ n, Picks (window file (sectorOff k)) NEXTUFS_LABEL_DECODE_SIZE (sectorOff k) (slice_base, n)

/-- Every label that picked the slice picks it with its new size, and nothing changed but the
size and checksum fields of those labels. -/
structure SizesKept (slice_base slice_bytes : Nat) (file file' : ByteStore) : Prop where
  picked : ∀ k < labelPlaces, PicksBase file slice_base k →
    ∀ size, NEXTUFS_LABEL_DECODE_SIZE ≤ size →
      Picks (window file' (sectorOff k)) size (sectorOff k) (slice_base, slice_bytes)
  others : ∀ p, file' p ≠ file p → ∃ k < labelPlaces, PicksBase file slice_base k ∧
    ∃ version q, LabelAt file (sectorOff k) version ∧ p = sectorOff k + q ∧
      labelFields version (labelRoot (window file (sectorOff k))) q

/-- The new size is a number of sectors a label can hold, and not one that means it is unused. -/
def SizeFits (slice_bytes secsize : Nat) : Prop :=
  slice_bytes % secsize = 0 ∧ 0 < slice_bytes / secsize ∧ slice_bytes / secsize < PART_UNUSED

/-- A label that picks the slice does so through its root partition, and can hold the new size. -/
structure RootPicks (slice_base slice_bytes : Nat) (w : ByteStore) : Prop where
  letter : 97 ≤ (w ROOTPART_OFF).toNat
  letter_lt : (w ROOTPART_OFF).toNat < 105
  present : ({ labelPartitionAt w (labelRoot w) with size := 1 } : LabelPartition).present = true
  base : (be16 w FRONT_OFF + be24 w (partOff (labelRoot w))) * labelSecsize w = slice_base
  fits : SizeFits slice_bytes (labelSecsize w)

/-- The condition on a whole file: the labels that pick the slice are as they have to be, and the
patcher finds no others. -/
def PatchFits (slice_base slice_bytes : Nat) (file : ByteStore) : Prop :=
  LabelsApart slice_base slice_bytes file ∧ ∀ k < labelPlaces,
    (PicksBase file slice_base k → RootPicks slice_base slice_bytes (window file (sectorOff k))) ∧
    (∀ version, Patchable slice_base slice_bytes file (sectorOff k) version →
      PicksBase file slice_base k)

theorem decode_some {w : ByteStore} {size off : Nat} {dl : DiskLabel}
    (h : nextufsLabelDecode w size off = some dl) :
    NEXTUFS_LABEL_DECODE_SIZE ≤ size ∧ ∃ version, labelVersion w = some version ∧
      dl = diskLabel w off version ∧ labelDecode dl.copy = true ∧
      be32 w 4 * DEV_SECTOR_SIZE = off := by
  unfold nextufsLabelDecode at h
  split at h
  · cases h
  next hsize =>
    split at h
    · cases h
    next version hversion =>
      dsimp only at h
      split at h
      next hok =>
        cases h
        exact ⟨by omega, version, hversion, rfl, hok.1, hok.2⟩
      · cases h

theorem decode_of {w : ByteStore} {size off : Nat} {version : LabelVersion}
    (hsize : NEXTUFS_LABEL_DECODE_SIZE ≤ size) (hversion : labelVersion w = some version)
    (hok : labelDecode (diskLabel w off version).copy = true)
    (hoff : be32 w 4 * DEV_SECTOR_SIZE = off) :
    nextufsLabelDecode w size off = some (diskLabel w off version) := by
  unfold nextufsLabelDecode
  rw [if_neg (by omega), hversion]
  dsimp only
  exact if_pos ⟨hok, hoff⟩

section
variable {slice_base slice_bytes : Nat} {file file' : ByteStore}

/-- A label that picks the slice through its root is one the patcher changes. -/
theorem RootPicks.patchable {off : Nat} {version : LabelVersion}
    (h : RootPicks slice_base slice_bytes (window file off)) (hat : LabelAt file off version)
    (hsec : labelSecsize (window file off) ≠ 0) :
    Patchable slice_base slice_bytes file off version :=
  { label := hat, letter := h.letter, letter_lt := h.letter_lt, secsize := hsec
    whole := h.fits.1, base := h.base }

/-- The condition is enough: every label picks the slice with its new size. -/
theorem sizesKept_of_fits {size : Nat} (hfits : PatchFits slice_base slice_bytes file)
    (h : nextufsLabelPatchSliceSize size slice_base slice_bytes file = .ok file') :
    SizesKept slice_base slice_bytes file file' := by
  obtain ⟨hapart, hlabels⟩ := hfits
  have htrace := nextufsLabelPatchSliceSize_ok hapart h
  refine ⟨fun k hk hpicks size hsize => ?_, fun p hne => ?_⟩
  · have hroot := (hlabels k hk).1 hpicks
    obtain ⟨n, dl, hdl, hpick⟩ := hpicks
    obtain ⟨-, version, hversion, rfl, hok, hblk⟩ := decode_some hdl
    have hsec : labelSecsize (window file (sectorOff k)) ≠ 0 := by
      unfold labelDecode at hok
      rw [Bool.and_eq_true] at hok
      exact (of_decide_eq_true hok.1).1
    have hp := hroot.patchable ⟨hversion, hblk⟩ hsec
    obtain ⟨file₁, ⟨hversion₁, hblk₁⟩, hsame, -, hlabel⟩ := htrace.patched k hk version hp
    obtain ⟨hwhole, hpos, hlt⟩ := hroot.fits
    have hmod : slice_bytes / labelSecsize (window file (sectorOff k)) % 4294967296 =
        slice_bytes / labelSecsize (window file (sectorOff k)) := Nat.mod_eq_of_lt (by
      unfold PART_UNUSED at hlt
      omega)
    rw [hmod] at hlabel
    generalize hs : slice_bytes / labelSecsize (window file (sectorOff k)) = s at *
    have hcopy := (diskLabel_patched hp.root_lt (show s < 16777216 by
      unfold PART_UNUSED at hlt
      omega) (sectorOff k) version hsame.root.symm).trans (hsame.resized (sectorOff k) s)
    have hblk' : be32 (patchedLabel (window file₁ (sectorOff k)) version
        (labelRoot (window file (sectorOff k))) s) 4 * DEV_SECTOR_SIZE = sectorOff k := by
      have hword : be32 (patchedLabel (window file₁ (sectorOff k)) version
          (labelRoot (window file (sectorOff k))) s) 4 = be32 (window file₁ (sectorOff k)) 4 :=
        be32_congr fun i hi => patchedLabel_head (show 4 + i < 0xc0 by omega)
      exact (congrArg (· * DEV_SECTOR_SIZE) hword).trans hblk₁
    refine ⟨_, (hlabel.decode size (sectorOff k)).trans (decode_of hsize
      (patchedLabel_version.trans hversion₁) (by rw [hcopy]; exact labelDecode_resized hok s)
      hblk'), ?_⟩
    have hsome := diskLabel_root (sectorOff k) version hroot.letter hroot.letter_lt
    rw [nextufsLabelPickSlice, hcopy, labelPickSlice_of_root (LabelCopy.resized_root hsome s)
      (present_size (by omega) (by omega) hroot.present)]
    have hbytes : s * labelSecsize (window file (sectorOff k)) = slice_bytes := by
      rw [← hs]
      exact Nat.div_mul_cancel (Nat.dvd_of_mod_eq_zero hwhole)
    exact congrArg some (Prod.ext hroot.base hbytes)
  · obtain ⟨k, hk, version, hp, q, hq, hf⟩ := htrace.changed p hne
    exact ⟨k, hk, (hlabels k hk).2 version hp, version, q, hp.label, hq, hf⟩

/-- A copy whose other entries are no partitions picks its root or nothing. -/
theorem labelPickSlice_unique {c : LabelCopy} {root : LabelPartition} {slice : Nat × Nat}
    (hroot : c.root = some root)
    (hother : ∀ j p, c.part[j]? = some p → p.present = true → j = c.rootpartition - 97)
    (h : labelPickSlice c = some slice) : root.present = true ∧ slice = c.slice root := by
  have hpresent : root.present = true := by
    by_contra hnot
    rw [labelPickSlice, hroot, Option.filter_some, if_neg hnot] at h
    dsimp only at h
    obtain ⟨p, hp, -⟩ := Option.map_eq_some_iff.mp h
    have hthere := List.find?_some hp
    rw [Bool.and_eq_true] at hthere
    obtain ⟨j, hj⟩ := List.getElem?_of_mem (List.mem_of_find?_eq_some hp)
    rw [hother j p hj hthere.1, LabelCopy.root_some hroot] at hj
    exact hnot (Option.some.inj hj ▸ hthere.1)
  rw [labelPickSlice_of_root hroot hpresent] at h
  exact ⟨hpresent, (Option.some.inj h).symm⟩

/-- A copy accepted by the check for a single slice has no other partition. -/
theorem others_absent {c : LabelCopy} (h : validateOneLabelCopy slice_base c = .ok ()) :
    ∃ root, c.root = some root ∧ (c.slice root).1 = slice_base ∧
      ∀ j p, c.part[j]? = some p → p.present = true → j = c.rootpartition - 97 := by
  obtain ⟨root, hroot, hlisted, hone, hbase⟩ := validateOneLabelCopy_ok h
  refine ⟨root, hroot, hbase, fun j p hj hp => ?_⟩
  exact filter_unique hone hj (labelPartitionPresent_of_present hp) (LabelCopy.root_some hroot)
    hlisted

/-- Every label of the file picks this slice and passes the check for a single slice, as the
grow has it checked before it patches. -/
def OneSlice (slice_base slice_bytes : Nat) (file : ByteStore) : Prop :=
  LabelsApart slice_base slice_bytes file ∧ ∀ k < labelPlaces, ∀ version, LabelAt file (sectorOff k) version →
    PicksBase file slice_base k ∧ validateOneLabelCopy slice_base
      (diskLabel (window file (sectorOff k)) (sectorOff k) version).copy = .ok ()

/-- What the check says of the bytes. -/
theorem OneSlice.root {k : Nat} {version : LabelVersion} (h : OneSlice slice_base slice_bytes file)
    (hk : k < labelPlaces) (hat : LabelAt file (sectorOff k) version) :
    97 ≤ (window file (sectorOff k) ROOTPART_OFF).toNat ∧
      (window file (sectorOff k) ROOTPART_OFF).toNat < 105 ∧
      (be16 (window file (sectorOff k)) FRONT_OFF + be24 (window file (sectorOff k))
        (partOff (labelRoot (window file (sectorOff k))))) *
          labelSecsize (window file (sectorOff k)) = slice_base ∧
      labelSecsize (window file (sectorOff k)) ≠ 0 ∧
      (labelPartitionAt (window file (sectorOff k))
        (labelRoot (window file (sectorOff k)))).present = true ∧
      ∀ j p, (diskLabel (window file (sectorOff k)) (sectorOff k) version).copy.part[j]? = some p →
        p.present = true → j = labelRoot (window file (sectorOff k)) := by
  obtain ⟨⟨n, dl, hdl, hpick⟩, hcheck⟩ := h.2 k hk version hat
  obtain ⟨-, v, hv, rfl, hok, -⟩ := decode_some hdl
  obtain rfl := Option.some.inj (hv.symm.trans hat.1)
  obtain ⟨root, hroot, hbase, hother⟩ := others_absent hcheck
  have hrange : 97 ≤ (window file (sectorOff k) ROOTPART_OFF).toNat ∧
      (window file (sectorOff k) ROOTPART_OFF).toNat < 105 := by
    unfold LabelCopy.root at hroot
    split at hroot
    next hr => exact hr
    · cases hroot
  have hsome := diskLabel_root (sectorOff k) v hrange.1 hrange.2
  obtain rfl := Option.some.inj (hroot.symm.trans hsome)
  have hsec : labelSecsize (window file (sectorOff k)) ≠ 0 := by
    unfold labelDecode at hok
    rw [Bool.and_eq_true] at hok
    exact (of_decide_eq_true hok.1).1
  exact ⟨hrange.1, hrange.2, hbase, hsec, (labelPickSlice_unique hroot hother hpick).1, hother⟩

/-- On such a file the sizes that come back are those a label can hold. -/
theorem sizesKept_iff {size : Nat} (hone : OneSlice slice_base slice_bytes file)
    (h : nextufsLabelPatchSliceSize size slice_base slice_bytes file = .ok file') :
    SizesKept slice_base slice_bytes file file' ↔
      ∀ k < labelPlaces, ∀ version, LabelAt file (sectorOff k) version →
        SizeFits slice_bytes (labelSecsize (window file (sectorOff k))) := by
  constructor
  · intro hkept k hk version hat
    obtain ⟨hletter, hletter', hbase, hsec, hpresent, hother⟩ := hone.root hk hat
    have htrace := nextufsLabelPatchSliceSize_ok hone.1 h
    obtain ⟨dl, hdl, hpick⟩ := hkept.picked k hk (hone.2 k hk version hat).1 _ le_rfl
    have hsome := diskLabel_root (sectorOff k) version hletter hletter'
    by_cases hwhole : slice_bytes % labelSecsize (window file (sectorOff k)) = 0
    · have hp : Patchable slice_base slice_bytes file (sectorOff k) version :=
        ⟨hat, hletter, hletter', hsec, hwhole, hbase⟩
      obtain ⟨file₁, ⟨hversion₁, -⟩, hsame, hfits, hlabel⟩ := htrace.patched k hk version hp
      generalize hs : slice_bytes / labelSecsize (window file (sectorOff k)) % 4294967296 = s at *
      have hcopy := (diskLabel_patched hp.root_lt (show s < 16777216 by omega) (sectorOff k)
        version hsame.root.symm).trans (hsame.resized (sectorOff k) s)
      rw [hlabel.decode] at hdl
      obtain ⟨-, v, hv, rfl, -, -⟩ := decode_some hdl
      obtain rfl := Option.some.inj (hv.symm.trans (patchedLabel_version.trans hversion₁))
      rw [nextufsLabelPickSlice, hcopy] at hpick
      have hother' : ∀ j p, ((diskLabel (window file (sectorOff k)) (sectorOff k) v).copy.resized
          s).part[j]? = some p → p.present = true →
            j = labelRoot (window file (sectorOff k)) := by
        intro j p hj hp
        by_contra hne
        refine hne (hother j p ?_ hp)
        change (List.modify _ (labelRoot (window file (sectorOff k))) _)[j]? = _ at hj
        rwa [List.getElem?_modify_ne _ _ (Ne.symm hne)] at hj
      obtain ⟨hthere, hslice⟩ := labelPickSlice_unique (LabelCopy.resized_root hsome s) hother' hpick
      have hbytes : slice_bytes = s * labelSecsize (window file (sectorOff k)) :=
        congrArg Prod.snd hslice
      have hdiv : slice_bytes / labelSecsize (window file (sectorOff k)) = s := by
        rw [hbytes]
        exact Nat.mul_div_cancel _ (Nat.pos_of_ne_zero hsec)
      unfold LabelPartition.present at hthere
      obtain ⟨-, hzero, hunused, -⟩ := of_decide_eq_true hthere
      have hzero' : s ≠ 0 := hzero
      have hunused' : s ≠ PART_UNUSED := hunused
      unfold SizeFits
      rw [hdiv]
      refine ⟨hwhole, by omega, ?_⟩
      unfold PART_UNUSED at hunused' ⊢
      omega
    · -- a label that was skipped still has a whole number of sectors
      exfalso
      have hsame := htrace.kept (.inr fun v hp => hwhole hp.whole)
      obtain ⟨-, v, -, rfl, -, -⟩ := decode_some hdl
      rw [nextufsLabelPickSlice, hsame.pick (sectorOff k) version v] at hpick
      have hslice := (labelPickSlice_unique hsome hother hpick).2
      refine hwhole ?_
      rw [show slice_bytes = _ * labelSecsize (window file (sectorOff k)) from
        congrArg Prod.snd hslice]
      exact Nat.mul_mod_left _ _
  · intro hsizes
    refine sizesKept_of_fits ⟨hone.1, fun k hk => ⟨fun hpicks => ?_, fun version hp =>
      (hone.2 k hk version hp.label).1⟩⟩ h
    obtain ⟨n, dl, hdl, -⟩ := hpicks
    obtain ⟨-, version, hversion, -, -, hblk⟩ := decode_some hdl
    obtain ⟨hletter, hletter', hbase, -, hpresent, -⟩ := hone.root hk ⟨hversion, hblk⟩
    exact ⟨hletter, hletter', present_size (by decide) (by decide) hpresent, hbase,
      hsizes k hk version ⟨hversion, hblk⟩⟩

end

/-- The writer's four copies give back the slice size exactly when it is neither zero nor from the
reserved value on. The patcher keeps every label that picks the slice, and all other bytes, when
the labels pick it through their root partitions and can hold the new size; in a file with one
slice, exactly when they can hold it. -/
theorem label_sizes_kept (slice_bytes : Nat) (file file' : ByteStore) :
    (∀ (image_bytes : Nat) (label : List UInt8),
      slice_bytes % NEXTUFS_LABEL_SECTOR_SIZE = 0 →
      nextufsLabelWritePath image_bytes slice_bytes label file = .ok file' →
      (WrittenBack file' slice_bytes ↔ SizeFits slice_bytes NEXTUFS_LABEL_SECTOR_SIZE)) ∧
    (∀ size slice_base : Nat,
      nextufsLabelPatchSliceSize size slice_base slice_bytes file = .ok file' →
      PatchFits slice_base slice_bytes file → SizesKept slice_base slice_bytes file file') ∧
    (∀ size slice_base : Nat,
      nextufsLabelPatchSliceSize size slice_base slice_bytes file = .ok file' →
      OneSlice slice_base slice_bytes file →
      (SizesKept slice_base slice_bytes file file' ↔
        ∀ k < labelPlaces, ∀ version, LabelAt file (sectorOff k) version →
          SizeFits slice_bytes (labelSecsize (window file (sectorOff k))))) := by
  refine ⟨fun image_bytes label hmul h => ?_,
    fun size slice_base h hfits => sizesKept_of_fits hfits h,
    fun size slice_base h hone => sizesKept_iff hone h⟩
  rw [writtenBack_iff hmul h]
  exact ⟨fun hin => ⟨hmul, hin⟩, fun hin => hin.2⟩

/-! ## A file of 8 MiB -/

/-- The file a run left. -/
def fileOf : Except Errno ByteStore → ByteStore
  | .ok file => file
  | .error _ => fun _ => 0

theorem eq_fileOf : ∀ {r : Except Errno ByteStore}, r.isOk = true → r = .ok (fileOf r)
  | .ok _, _ => rfl
  | .error _, h => by cases h

/-- An empty file of 8 MiB labelled for a slice of 7 MiB. -/
def labelledFile : ByteStore := fileOf (nextufsLabelWritePath 8388608 7340032 [] fun _ => 0)

theorem labelledFile_eq :
    nextufsLabelWritePath 8388608 7340032 [] (fun _ => 0) = .ok labelledFile :=
  eq_fileOf (by decide +kernel)

theorem labelledFile_picks {i : Nat} (hi : i < 4) :
    PicksBase labelledFile NEXTUFS_LABEL_FRONT_PORCH_BYTES (i * 15) := by
  have hoff : sectorOff (i * 15) = i * LABEL_COPY_STRIDE := by
    unfold sectorOff DEV_SECTOR_SIZE LABEL_COPY_STRIDE
    omega
  unfold PicksBase
  rw [hoff]
  exact ⟨7340032, (writtenBack_iff (by decide) labelledFile_eq).mpr (by decide) i hi _ le_rfl⟩

/-- It has the four labels and no other. -/
theorem labelledFile_at {k : Nat} {version : LabelVersion}
    (h : LabelAt labelledFile (sectorOff k) version) : ∃ i < 4, k = i * 15 := by
  have hnone : k < 48 := by
    by_contra hge
    have hzero : ∀ p, 24576 ≤ p → labelledFile p = 0 := by
      intro p hp
      have heq : labelledFile = (List.range 4).foldl (fun file i =>
          writeLabelCopy (i * LABEL_COPY_STRIDE) 8192 7168 64 [] file) fun _ => 0 := rfl
      rw [heq]
      simp only [List.range_succ, List.range_zero, List.nil_append, List.cons_append,
        List.foldl_cons, List.foldl_nil, writeLabelCopy, LABEL_COPY_STRIDE, LABEL_WRITE_SIZE]
      rw [patch_of_not_mem (by omega), patch_of_not_mem (by omega), patch_of_not_mem (by omega),
        patch_of_not_mem (by omega)]
    have hword : labelVersion (window labelledFile (sectorOff k)) = labelVersion fun _ => 0 :=
      labelVersion_congr fun i _ => hzero _ (by unfold sectorOff DEV_SECTOR_SIZE; omega)
    have hnil : labelVersion (fun _ => 0) = none := by decide
    rw [h.1, hnil] at hword
    cases hword
  have hall : ∀ k < 48, (labelVersion (window labelledFile (sectorOff k))).isSome = true →
      k % 15 = 0 := by decide +kernel
  have hmul := hall k hnone (by rw [h.1]; rfl)
  exact ⟨k / 15, by omega, by omega⟩

theorem labelledFile_oneSlice (slice_bytes : Nat) :
    OneSlice NEXTUFS_LABEL_FRONT_PORCH_BYTES slice_bytes labelledFile := by
  refine ⟨fun k _ version h => ?_, fun k _ version h => ?_⟩
  · obtain ⟨i, hi, rfl⟩ := labelledFile_at h.label
    have hroot : ∀ i < 4, labelRoot (window labelledFile (sectorOff (i * 15))) ≠ 5 := by
      decide +kernel
    exact resizedAt_patchable h.root_lt (hroot i hi)
  · obtain ⟨i, hi, rfl⟩ := labelledFile_at h
    have hversion : ∀ i < 4, labelVersion (window labelledFile (sectorOff (i * 15))) = some .v3 := by
      decide +kernel
    have hcheck : ∀ i < 4, (validateOneLabelCopy NEXTUFS_LABEL_FRONT_PORCH_BYTES (diskLabel
        (window labelledFile (sectorOff (i * 15))) (sectorOff (i * 15)) .v3).copy).isOk = true := by
      decide +kernel
    obtain rfl := Option.some.inj (h.1.symm.trans (hversion i hi))
    have hok := hcheck i hi
    refine ⟨labelledFile_picks hi, ?_⟩
    revert hok
    generalize validateOneLabelCopy _ _ = r
    intro hok
    cases r with
    | ok u => rfl
    | error e => cases hok

theorem labelledFile_first : LabelAt labelledFile (sectorOff 0) .v3 := by
  unfold LabelAt
  decide +kernel

theorem labelledFile_secsize : labelSecsize (window labelledFile (sectorOff 0)) = 1024 := by
  decide +kernel

/-- A patch from 7 to 6 MiB is read back from all four labels. -/
theorem label_sizes_kept_first :
    WrittenBack labelledFile 7340032 ∧
    ∃ file', nextufsLabelPatchSliceSize 262144 NEXTUFS_LABEL_FRONT_PORCH_BYTES 6291456
        labelledFile = .ok file' ∧
      SizesKept NEXTUFS_LABEL_FRONT_PORCH_BYTES 6291456 labelledFile file' := by
  refine ⟨((label_sizes_kept 7340032 _ _).1 8388608 [] (by decide) labelledFile_eq).mpr
    (by unfold SizeFits; decide), ?_⟩
  have hok := eq_fileOf (r := nextufsLabelPatchSliceSize 262144 NEXTUFS_LABEL_FRONT_PORCH_BYTES
    6291456 labelledFile) (by decide +kernel)
  refine ⟨_, hok, ((label_sizes_kept _ _ _).2.2 _ _ hok (labelledFile_oneSlice _)).mpr ?_⟩
  intro k _ version h
  obtain ⟨i, hi, rfl⟩ := labelledFile_at h
  have hsecsize : ∀ i < 4, labelSecsize (window labelledFile (sectorOff (i * 15))) = 1024 := by
    decide +kernel
  rw [hsecsize i hi]
  unfold SizeFits
  decide

/-- With the reserved value for a size, `0xffffff` sectors, writer and patcher succeed and no label
gives the slice back. -/
theorem label_size_reserved :
    (∃ file, nextufsLabelWritePath 8388608 (0xffffff * 1024) [] (fun _ => 0) = .ok file ∧
      ¬ WrittenBack file (0xffffff * 1024)) ∧
    ∃ file', nextufsLabelPatchSliceSize 262144 NEXTUFS_LABEL_FRONT_PORCH_BYTES (0xffffff * 1024)
        labelledFile = .ok file' ∧
      PicksBase labelledFile NEXTUFS_LABEL_FRONT_PORCH_BYTES 0 ∧
      ¬ SizesKept NEXTUFS_LABEL_FRONT_PORCH_BYTES (0xffffff * 1024) labelledFile file' := by
  constructor
  · have hok := eq_fileOf (r := nextufsLabelWritePath 8388608 (0xffffff * 1024) [] fun _ => 0)
      (by decide +kernel)
    exact ⟨_, hok, fun h => absurd ((writtenBack_iff (by decide) hok).mp h) (by decide)⟩
  · have hok := eq_fileOf (r := nextufsLabelPatchSliceSize 262144 NEXTUFS_LABEL_FRONT_PORCH_BYTES
      (0xffffff * 1024) labelledFile) (by decide +kernel)
    have hfirst : PicksBase labelledFile NEXTUFS_LABEL_FRONT_PORCH_BYTES 0 :=
      labelledFile_picks (i := 0) (by decide)
    refine ⟨_, hok, hfirst, fun h => ?_⟩
    have hfits := (sizesKept_iff (labelledFile_oneSlice _) hok).mp h 0 (by decide) .v3
      labelledFile_first
    rw [labelledFile_secsize] at hfits
    unfold SizeFits at hfits
    exact absurd hfits (by decide)

end NextUfs.Core
