/-
NextUfs.Fsck.DeviceTheorems — which bytes `bread` and `bwrite` access.

Both make one transfer of the whole range and, if it fails and the operator
continues, one transfer a sector (`transferLog`), so their accesses are
settled together by `covers_transferLog_iff`. The transfers start at
`dbtob blk`, which is `blk * 1024` only below 4 GiB: from there on a block
aliases the one 4 GiB lower.
-/
import NextUfs.Fsck.Device
import NextUfs.Mutate.LifecycleTheorems

namespace NextUfs.Fsck

open NextUfs.Core NextUfs.Lib NextUfs.Lib.ByteStore NextUfs.Mutate

/-! ## Accesses -/

/-- The slice offset lies in one of the transfers. -/
def Touched (as : List Access) (p : Nat) : Prop := ∃ a ∈ as, a.offset ≤ p ∧ p < a.offset + a.size

/-- The transfers touch exactly `size` bytes from `lo`. -/
def Covers (as : List Access) (lo size : Nat) : Prop :=
  ∀ p, Touched as p ↔ lo ≤ p ∧ p < lo + size

@[simp] theorem touched_nil (p : Nat) : ¬ Touched [] p := by simp [Touched]

@[simp] theorem touched_cons (a : Access) (as : List Access) (p : Nat) :
    Touched (a :: as) p ↔ (a.offset ≤ p ∧ p < a.offset + a.size) ∨ Touched as p := by
  simp [Touched]

/-- The sector transfers that pass the range tests: `n` sectors from number `k`. -/
def sectorLog (f : FileCntl) (offset : Nat) : Nat → Nat → List Access
  | 0, _ => []
  | n + 1, k =>
    (if sliceRangeOk f DEV_BSIZE (offset + k * DEV_BSIZE)
      then [⟨offset + k * DEV_BSIZE, DEV_BSIZE⟩] else []) ++ sectorLog f offset n (k + 1)

/-- The transfers of one `bread` or `bwrite`. -/
def transferLog (f : FileCntl) (offset size : Nat) (retry : Bool) : List Access :=
  ⟨offset, size⟩ :: if retry then sectorLog f offset (sectorCount size) 0 else []

theorem touched_sectorLog (f : FileCntl) (offset p : Nat) : ∀ n k,
    Touched (sectorLog f offset n k) p ↔
      ∃ j, k ≤ j ∧ j < k + n ∧ sliceRangeOk f DEV_BSIZE (offset + j * DEV_BSIZE) = true ∧
        offset + j * DEV_BSIZE ≤ p ∧ p < offset + j * DEV_BSIZE + DEV_BSIZE
  | 0, k => by
      simp only [sectorLog, touched_nil, false_iff]
      rintro ⟨j, h₁, h₂, -⟩
      omega
  | n + 1, k => by
      have ih := touched_sectorLog f offset p n (k + 1)
      have hsplit : Touched (sectorLog f offset (n + 1) k) p ↔
          (sliceRangeOk f DEV_BSIZE (offset + k * DEV_BSIZE) = true ∧
            offset + k * DEV_BSIZE ≤ p ∧ p < offset + k * DEV_BSIZE + DEV_BSIZE) ∨
          Touched (sectorLog f offset n (k + 1)) p := by
        rw [sectorLog]
        split <;> simp [*]
      rw [hsplit, ih]
      constructor
      · rintro (h | ⟨j, h₁, h₂, h⟩)
        · exact ⟨k, by omega, by omega, h⟩
        · exact ⟨j, by omega, by omega, h⟩
      · rintro ⟨j, h₁, h₂, h⟩
        rcases Nat.eq_or_lt_of_le h₁ with rfl | h₁
        · exact .inl h
        · exact .inr ⟨j, by omega, by omega, h⟩

theorem breadSectors_accesses (f : FileCntl) (offset : Nat) (fails : Nat → Bool) : ∀ n k,
    (breadSectors f offset fails n k).accesses = sectorLog f offset n k
  | 0, _ => rfl
  | n + 1, k => by
      rw [breadSectors, sectorLog, ← breadSectors_accesses f offset fails n (k + 1)]
      unfold imagePread
      by_cases hr : sliceRangeOk f DEV_BSIZE (offset + k * DEV_BSIZE) = true <;>
        cases fails (k + 1) <;> simp [hr]

/-- The range tests depend on the extents alone. -/
theorem sliceRangeOk_congr {f g : FileCntl} (hs : g.sliceSize = f.sliceSize)
    (hb : g.image.sliceBase = f.image.sliceBase)
    (hi : g.image.handle.imageSize = f.image.handle.imageSize) :
    sliceRangeOk g = sliceRangeOk f := by
  funext size offset
  simp [sliceRangeOk, rangeOk, hs, hb, hi]

theorem sectorLog_congr {f g : FileCntl} (h : sliceRangeOk g = sliceRangeOk f) (offset : Nat) :
    ∀ n k, sectorLog g offset n k = sectorLog f offset n k
  | 0, _ => rfl
  | n + 1, k => by rw [sectorLog, sectorLog, h, sectorLog_congr h offset n (k + 1)]

/-- A write leaves the extents of the file alone. -/
theorem imagePwrite_extent (f : FileCntl) (data : List UInt8) (offset : Nat)
    (fault : Option (Nat × Errno)) :
    let g := (imagePwrite f data offset fault).2.1
    g.sliceSize = f.sliceSize ∧ g.image.sliceBase = f.image.sliceBase ∧
      g.image.handle.imageSize = f.image.handle.imageSize := by
  unfold imagePwrite
  split
  · refine ⟨rfl, rfl, ?_⟩
    let c : WriteCall := ⟨data, f.image.sliceBase + offset, { write := fault }⟩
    rcases writeExact_snd f.image.handle c with h | ⟨n, -, h⟩ <;> dsimp only <;> rw [h]
    exact (transactionRecord_extent ..).2
  · exact ⟨rfl, rfl, rfl⟩

theorem sliceRangeOk_imagePwrite (f : FileCntl) (data : List UInt8) (offset : Nat)
    (fault : Option (Nat × Errno)) :
    sliceRangeOk (imagePwrite f data offset fault).2.1 = sliceRangeOk f := by
  obtain ⟨hs, hb, hi⟩ := imagePwrite_extent f data offset fault
  exact sliceRangeOk_congr hs hb hi

theorem imagePwrite_accesses (f : FileCntl) (data : List UInt8) (offset : Nat)
    (fault : Option (Nat × Errno)) :
    (imagePwrite f data offset fault).2.2 =
      if sliceRangeOk f data.length offset then [⟨offset, data.length⟩] else [] := by
  unfold imagePwrite
  split <;> rfl

theorem bwriteSectors_accesses (data : ByteStore) (offset : Nat)
    (faults : Nat → Option (Nat × Errno)) : ∀ (f : FileCntl) n k,
    (bwriteSectors data offset faults f n k).2 = sectorLog f offset n k
  | _, 0, _ => rfl
  | f, n + 1, k => by
      rw [bwriteSectors, sectorLog]
      dsimp only
      rw [bwriteSectors_accesses data offset faults _ n (k + 1), imagePwrite_accesses,
        length_slice, sectorLog_congr (sliceRangeOk_imagePwrite ..)]

/-! ## Addresses -/

theorem dbtob_eq (blk : Nat) : dbtob blk = blk * DEV_BSIZE % 4294967296 := by
  rw [dbtob, DEV_BSHIFT, DEV_BSIZE, Nat.shiftLeft_eq]
  omega

theorem dbtob_le (blk : Nat) : dbtob blk ≤ blk * DEV_BSIZE := by
  rw [dbtob_eq]
  exact Nat.mod_le _ _

/-- The address is right below 4 GiB only. -/
theorem dbtob_eq_iff (blk : Nat) : dbtob blk = blk * DEV_BSIZE ↔ blk * DEV_BSIZE < 4294967296 := by
  rw [dbtob_eq]
  constructor
  · intro h
    rw [← h]
    exact Nat.mod_lt _ (by decide)
  · exact fun h => Nat.mod_eq_of_lt h

/-- The file is open on a filesystem fsck accepts. -/
structure FileCntl.Opens (f : FileCntl) (img : Image) : Prop where
  valid : imageValidate img = true
  sliceSize_eq : f.sliceSize = img.sliceSize
  /-- The image was opened with its slice inside it. -/
  fits : f.image.sliceBase + f.sliceSize ≤ f.image.handle.imageSize
  noTransaction : f.image.handle.transaction = none

theorem FileCntl.Opens.rangeOk_iff {f : FileCntl} {img : Image} (ho : f.Opens img)
    (size offset : Nat) : sliceRangeOk f size offset = true ↔ offset + size ≤ f.sliceSize := by
  have hfits := ho.fits
  simp only [sliceRangeOk, rangeOk, Bool.and_eq_true, decide_eq_true_eq]
  omega

/-- The transfers cover the right range exactly when it is empty, or it starts at the right
address and no retry reaches past its end. -/
theorem covers_transferLog_iff {f : FileCntl} {img : Image} (ho : f.Opens img)
    {offset lo size : Nat} (hle : offset ≤ lo) (retry : Bool) :
    Covers (transferLog f offset size retry) lo size ↔
      size = 0 ∨ (offset = lo ∧ (retry = false ∨ size % DEV_BSIZE = 0 ∨
        f.sliceSize < lo + sectorCount size * DEV_BSIZE)) := by
  have hsec : ∀ p, Touched (if retry then sectorLog f offset (sectorCount size) 0 else []) p ↔
      retry = true ∧ ∃ j < sectorCount size, offset + j * 1024 + 1024 ≤ f.sliceSize ∧
        offset + j * 1024 ≤ p ∧ p < offset + j * 1024 + 1024 := by
    intro p
    cases retry with
    | false => simp
    | true =>
      simp only [if_true, touched_sectorLog, ho.rangeOk_iff, DEV_BSIZE, true_and]
      constructor
      · rintro ⟨j, -, h₂, h⟩
        exact ⟨j, by omega, h⟩
      · rintro ⟨j, h₂, h⟩
        exact ⟨j, by omega, by omega, h⟩
  have hcount : sectorCount size * 1024 < size + 1024 ∧ size ≤ sectorCount size * 1024 := by
    simp only [sectorCount, DEV_BSIZE]
    omega
  simp only [Covers, transferLog, touched_cons, hsec, DEV_BSIZE]
  generalize sectorCount size = n at hcount
  constructor
  · intro h
    by_cases h0 : size = 0
    · exact .inl h0
    have hlo : offset = lo := by
      have := ((h offset).mp (.inl ⟨le_rfl, by omega⟩)).1
      omega
    refine .inr ⟨hlo, ?_⟩
    by_contra hno
    simp only [not_or, Bool.not_eq_false, Nat.not_lt] at hno
    obtain ⟨hretry, hmod, hlast⟩ := hno
    -- the last sector reaches past the end of the range
    have := (h (offset + size)).mp (.inr ⟨hretry, n - 1, by omega, by omega, by omega, by omega⟩)
    omega
  · rintro (rfl | ⟨rfl, h⟩) p
    · have hn : n = 0 := by omega
      subst hn
      constructor
      · rintro (h | ⟨-, j, hj, -⟩) <;> omega
      · intro h
        omega
    · constructor
      · rintro (hp | ⟨hretry, j, hj, hs, hp⟩)
        · exact hp
        · rcases h with h | h | h
          · rw [hretry] at h
            exact absurd h (by decide)
          · omega
          · omega
      · exact .inl

/-! ## `bread` and `bwrite` -/

theorem bread_accesses {f : FileCntl} {img : Image} (ho : f.Opens img) {blk size : Nat}
    (hin : blk * DEV_BSIZE + size ≤ f.sliceSize) (continues : Bool) (fails : Nat → Bool) :
    (bread f blk size continues fails).accesses =
      transferLog f (dbtob blk) size (fails 0 && continues) := by
  have hle := dbtob_le blk
  have hr : sliceRangeOk f size (dbtob blk) = true := (ho.rangeOk_iff _ _).mpr (by omega)
  unfold bread imagePread transferLog
  cases h0 : fails 0 <;> cases continues <;> simp [hr, breadSectors_accesses]

/-- With no transaction open, a write that passes the tests fails only if the backend does. -/
theorem imagePwrite_ok {f : FileCntl} (htx : f.image.handle.transaction = none)
    (hw : f.image.handle.writable = true) {data : List UInt8} {offset : Nat}
    (hr : sliceRangeOk f data.length offset = true) (fault : Option (Nat × Errno)) :
    (imagePwrite f data offset fault).1 = fault.isNone := by
  have hrange := hr
  simp only [sliceRangeOk, Bool.and_eq_true] at hrange
  rcases fault with _ | ⟨n, e⟩ <;>
    simp [imagePwrite, hr, writeExact, hw, hrange.2, transactionRecord, htx]

theorem bwriteMarked_accesses {f : FileCntl} {img : Image} (ho : f.Opens img)
    (hw : f.image.handle.writable = true) {blk size : Nat}
    (hin : blk * DEV_BSIZE + size ≤ f.sliceSize) (data : ByteStore) (continues : Bool)
    (faults : Nat → Option (Nat × Errno)) :
    (bwriteMarked f data blk size continues faults).accesses =
      transferLog f (dbtob blk) size ((faults 0).isSome && continues) := by
  have hle := dbtob_le blk
  have hr : sliceRangeOk f (slice data 0 size).length (dbtob blk) = true := by
    rw [length_slice]
    exact (ho.rangeOk_iff _ _).mpr (by omega)
  have hok := imagePwrite_ok ho.noTransaction hw hr (faults 0)
  have hacc := imagePwrite_accesses f (slice data 0 size) (dbtob blk) (faults 0)
  rw [if_pos hr, length_slice] at hacc
  unfold bwriteMarked transferLog
  cases h0 : faults 0 <;> cases continues <;> rw [h0] at hok hacc <;>
    simp [hok, hacc, bwriteSectors_accesses, sectorLog_congr (sliceRangeOk_imagePwrite ..)]

/-- `bwrite` gets as far as the block: the image is writable, and marked dirty already or now. -/
def FileCntl.Proceeds (f : FileCntl) (mark : BeginFaults) : Prop :=
  f.image.handle.writable = true ∧
    (f.image.fsWriteActive = true ∨ (writeBegin f.image mark).1 = none)

theorem bwrite_accesses {f : FileCntl} {img : Image} (ho : f.Opens img) {blk size : Nat}
    (hin : blk * DEV_BSIZE + size ≤ f.sliceSize) (data : ByteStore) {mark : BeginFaults}
    (hgo : f.Proceeds mark) (continues : Bool) (faults : Nat → Option (Nat × Errno)) :
    (bwrite f data blk size mark continues faults).accesses =
      transferLog f (dbtob blk) size ((faults 0).isSome && continues) := by
  obtain ⟨hw, hgo⟩ := hgo
  unfold bwrite
  rw [if_neg (by simp [hw])]
  split
  · exact bwriteMarked_accesses ho hw hin data continues faults
  · rename_i hact
    have hok : (writeBegin f.image mark).1 = none := hgo.resolve_left hact
    rcases writeBegin_cases ho.noTransaction mark with ⟨-, -, -, h⟩ | ⟨-, e, w, h, -⟩
    · rw [h]
      have ho' : FileCntl.Opens { f with image := f.image.opened } img :=
        ⟨ho.valid, ho.sliceSize_eq, ho.fits, ho.noTransaction⟩
      rw [show transferLog f = transferLog { f with image := f.image.opened } from ?_]
      · exact bwriteMarked_accesses ho' hw hin data continues faults
      · funext offset size retry
        simp only [transferLog]
        rw [sectorLog_congr (f := f) (g := { f with image := f.image.opened })]
        exact sliceRangeOk_congr rfl rfl rfl
    · rw [h] at hok
      exact absurd hok (by simp)

/-- When `bread` or `bwrite` accesses the right bytes; `firstFails` is the answer to the transfer
of the whole range. -/
def AddressesRight (f : FileCntl) (blk size : Nat) (firstFails continues : Bool) : Prop :=
  size = 0 ∨ (blk * DEV_BSIZE < 4294967296 ∧
    (firstFails = false ∨ continues = false ∨ size % DEV_BSIZE = 0 ∨
      f.sliceSize < blk * DEV_BSIZE + sectorCount size * DEV_BSIZE))

/-- What lies in the filesystem lies in the slice. -/
theorem FileCntl.Opens.in_slice {f : FileCntl} {img : Image} (ho : f.Opens img) {blk size : Nat}
    (hin : blk * DEV_BSIZE + size ≤ img.sb.fragCount * img.sb.fragSize) :
    blk * DEV_BSIZE + size ≤ f.sliceSize := by
  have hext : ¬ ExtentRejected img.sb img.sliceSize := (of_decide_eq_true ho.valid).2.2
  simp only [ExtentRejected, not_or, Nat.not_lt] at hext
  rw [ho.sliceSize_eq]
  omega

theorem covers_transfers_iff {f : FileCntl} {img : Image} (ho : f.Opens img) (blk size : Nat)
    (firstFails continues : Bool) :
    Covers (transferLog f (dbtob blk) size (firstFails && continues)) (blk * DEV_BSIZE) size ↔
      AddressesRight f blk size firstFails continues := by
  rw [covers_transferLog_iff ho (dbtob_le blk), dbtob_eq_iff, AddressesRight,
    Bool.and_eq_false_iff, or_assoc]

/-- **Block addresses.** On an accepted filesystem, `bread` and `bwrite` access exactly the bytes
of the block they are given if and only if the range is empty, or it starts below 4 GiB and no
sector retry of a broken range reads or writes past its end. -/
theorem device_accesses (f : FileCntl) (img : Image) (ho : f.Opens img) (blk size : Nat)
    (hin : blk * DEV_BSIZE + size ≤ img.sb.fragCount * img.sb.fragSize) (continues : Bool) :
    (∀ fails, Covers (bread f blk size continues fails).accesses (blk * DEV_BSIZE) size ↔
      AddressesRight f blk size (fails 0) continues) ∧
    (∀ data mark faults, f.Proceeds mark →
      (Covers (bwrite f data blk size mark continues faults).accesses (blk * DEV_BSIZE) size ↔
        AddressesRight f blk size (faults 0).isSome continues)) := by
  refine ⟨fun fails => ?_, fun data mark faults hgo => ?_⟩
  · rw [bread_accesses ho (ho.in_slice hin) continues fails]
    exact covers_transfers_iff ho blk size (fails 0) continues
  · rw [bwrite_accesses ho (ho.in_slice hin) data hgo continues faults]
    exact covers_transfers_iff ho blk size (faults 0).isSome continues

/-- 160 groups of 32768 fragments of 1 KiB: 5 GiB, which `nextufs_image_validate` admits. -/
def fiveGiB : Image where
  sb :=
    { sbOff := 16, cgOff := 24, inoOff := 32, dataOff := 288, cgDelta := 0,
      cgCycMask := 4294967295, fragCount := 5242880, dataFragCount := 5000000, cgCount := 160,
      blockSize := 8192, fragSize := 1024, fragsPerBlock := 8, minfree := 10,
      blockMask := 4294959104, fragMask := 4294966272, blockShift := 13, fragShiftCalc := 10,
      fragShift := 3, fsbtodb := 0, superSize := 2048, csumMask := 4294966784, csumShift := 9,
      nindir := 2048, sectorsPerFrag := 1, inodesPerBlock := 64, cylSummaryAddr := 288,
      csumSize := 3072, cgSize := 8192, sectorsPerTrack := 32, sectorsPerCyl := 2048,
      ncyl := 2560, cpg := 16, inodesPerGroup := 2048, fragsPerGroup := 32768, state := 1,
      fsMagic := UFS_FS_MAGIC }
  imageSize := 5368709120
  sliceBase := 0
  sliceSize := 5368709120
  writable := true
  unprivileged := false

/-- That filesystem open in fsck and already marked dirty, all bytes zero. -/
def fiveGiBFile : FileCntl where
  image :=
    { handle :=
        { bytes := fun _ => 0, imageSize := 5368709120, imageSize_lt := by decide,
          writable := true, transaction := none }
      sliceBase := 0, sbState := FS_STATE_DIRTY, restoreClean := true, fsWriteActive := true }
  sliceSize := 5368709120
  mod := false

theorem fiveGiBFile_opens : fiveGiBFile.Opens fiveGiB :=
  ⟨by decide +kernel, rfl, by decide, rfl⟩

/-- A repair of the last KiB below 4 GiB, with a retry, goes where it should. -/
theorem device_accesses_below_4GiB :
    Covers (bwrite fiveGiBFile (fun _ => 7) 4194303 1024 {} true
      (fun k => if k = 0 then some (3, Errno.EIO) else none)).accesses (4194303 * DEV_BSIZE) 1024 :=
  ((device_accesses fiveGiBFile fiveGiB fiveGiBFile_opens 4194303 1024 (by decide) true).2
    (fun _ => 7) {} (fun k => if k = 0 then some (3, Errno.EIO) else none) ⟨rfl, .inl rfl⟩).mpr
    (.inr ⟨by decide, .inr (.inr (.inl rfl))⟩)

/-- At 4 GiB the block is in range, and both functions access block 0 instead: a repair there
overwrites it. -/
theorem block_aliases_at_4GiB :
    imageValidate fiveGiB = true ∧ 4194304 < fiveGiB.sb.fragCount * (fiveGiB.sb.fragSize / 1024) ∧
    (bread fiveGiBFile 4194304 1024 true fun _ => false).accesses = [⟨0, 1024⟩] ∧
    (bwrite fiveGiBFile (fun _ => 7) 4194304 1024 {} true fun _ => none).accesses = [⟨0, 1024⟩] ∧
    (bwrite fiveGiBFile (fun _ => 7) 4194304 1024 {} true fun _ => none).file.image.handle.bytes 0 =
      7 := by
  decide +kernel

end NextUfs.Fsck
