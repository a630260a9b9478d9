/-
NextUfs.Core.VdiTheorems — the VDI backend is an array of bytes: what reads
return, what writes keep, and what the file on the host looks like between
physical writes.

The invariant is one equation: opening the file as it stands gives the
handle (`World.Good.opened`). It holds the header checks, the agreement of
the block map and the count in memory with those on disk, and that the next
opening succeeds. `guest` says what the image shows at an offset, and
`shown` what its parent adds under the blocks it does not hold.
-/
import NextUfs.Core.Vdi

namespace NextUfs.Core

open NextUfs.Lib NextUfs.Lib.ByteStore NextUfs.Lib.HostFile NextUfs.Lib.StateResult

/-! ## The block map -/

/-- The entries among the first `n` that name blocks are below `allocated` and all different. -/
structure MapOk (blockMap : Nat → Nat) (allocated n : Nat) : Prop where
  lt : ∀ i < n, OwnEntry (blockMap i) → blockMap i < allocated
  inj : ∀ i < n, ∀ j < n, OwnEntry (blockMap i) → blockMap i = blockMap j → i = j

theorem MapOk.congr {m m' : Nat → Nat} {a n : Nat} (h : MapOk m a n) (hm : ∀ i < n, m' i = m i) :
    MapOk m' a n where
  lt := fun i hi ho => by
    rw [hm i hi] at ho ⊢
    exact h.lt i hi ho
  inj := fun i hi j hj ho he => by
    rw [hm i hi] at ho he
    rw [hm j hj] at he
    exact h.inj i hi j hj ho he

/-- What the loop over the map has seen. -/
theorem checkMap_some {m : Nat → Nat} {a : Nat} : ∀ {n : Nat} {used : Nat → Bool},
    checkMap m a n = some used →
      MapOk m a n ∧ ∀ e, used e = true ↔ ∃ i < n, OwnEntry (m i) ∧ m i = e
  | 0, used, h => by
    cases h
    exact ⟨⟨fun i hi => absurd hi (Nat.not_lt_zero i), fun i hi => absurd hi (Nat.not_lt_zero i)⟩,
      fun e => by simp⟩
  | n + 1, used, h => by
    unfold checkMap at h
    split at h
    · cases h
    rename_i used₀ h₀
    obtain ⟨hm, hu⟩ := checkMap_some h₀
    have hlt : ∀ i, i < n + 1 → i < n ∨ i = n := fun i hi => by omega
    dsimp only at h
    split at h
    · rename_i hn
      cases h
      refine ⟨⟨fun i hi ho => ?_, fun i hi j hj ho he => ?_⟩, fun e => ?_⟩
      · obtain h | rfl := hlt i hi
        · exact hm.lt i h ho
        · exact absurd ho hn
      · obtain h | rfl := hlt i hi
        · obtain h' | rfl := hlt j hj
          · exact hm.inj i h j h' ho he
          · exact absurd (he ▸ ho) hn
        · exact absurd ho hn
      · rw [hu]
        constructor
        · rintro ⟨i, hi, h⟩
          exact ⟨i, by omega, h⟩
        · rintro ⟨i, hi, ho, h⟩
          obtain h' | rfl := hlt i hi
          · exact ⟨i, h', ho, h⟩
          · exact absurd ho hn
    split at h
    · cases h
    rename_i hown hfree
    cases h
    simp only [not_or, Bool.not_eq_true] at hfree
    have hnew : ∀ i < n, OwnEntry (m i) → m i ≠ m n := fun i hi ho he => by
      have := (hu (m n)).mpr ⟨i, hi, ho, he⟩
      rw [hfree.2] at this
      cases this
    refine ⟨⟨fun i hi ho => ?_, fun i hi j hj ho he => ?_⟩, fun e => ?_⟩
    · obtain h | rfl := hlt i hi
      · exact hm.lt i h ho
      · omega
    · obtain h | rfl := hlt i hi
      · obtain h' | rfl := hlt j hj
        · exact hm.inj i h j h' ho he
        · exact absurd he (hnew i h ho)
      · obtain h' | rfl := hlt j hj
        · exact absurd he.symm (hnew j h' (he ▸ ho))
        · rfl
    · by_cases he : e = m n
      · subst he
        simp only [Function.update_self, true_iff]
        exact ⟨n, by omega, not_not.mp hown, rfl⟩
      · rw [Function.update_of_ne he, hu]
        constructor
        · rintro ⟨i, hi, h⟩
          exact ⟨i, by omega, h⟩
        · rintro ⟨i, hi, ho, h⟩
          obtain h' | rfl := hlt i hi
          · exact ⟨i, h', ho, h⟩
          · exact absurd h.symm he

/-- The loop accepts exactly the maps that are in range and not aliased. -/
theorem checkMap_isNone {m : Nat → Nat} {a : Nat} : ∀ {n : Nat}, MapOk m a n →
    (checkMap m a n).isNone = false
  | 0, _ => rfl
  | n + 1, h => by
    have ih := checkMap_isNone (m := m) (a := a) (n := n)
      ⟨fun i hi => h.lt i (by omega), fun i hi j hj => h.inj i (by omega) j (by omega)⟩
    unfold checkMap
    split
    · rename_i hn
      rw [hn] at ih
      cases ih
    rename_i used hu
    dsimp only
    split
    · rfl
    rename_i hown
    rw [if_neg]
    · rfl
    · rintro (hle | hused)
      · have := h.lt n (by omega) (not_not.mp hown)
        omega
      · obtain ⟨i, hi, ho, he⟩ := ((checkMap_some hu).2 _).mp hused
        have := h.inj i (by omega) n (by omega) ho he
        omega

/-! ## Opening -/

/-- Opening succeeds exactly on a file with the tested header and map, and gives what it says. -/
theorem vdiOpen_ok {file : FileId} {f : HostFile} {v : Vdi} :
    vdiOpen file f = .ok v ↔ VersionOk f ∧ decodeVdi file f = v ∧
      ShapeOk v (le32At f.bytes VDI_HEADER_SIZE_OFF) f.size ∧
      MapOk v.blockMap v.blocksAllocated v.blockCount := by
  unfold vdiOpen
  constructor
  · intro h
    split at h
    · cases h
    rename_i hv
    dsimp only at h
    split at h
    · cases h
    rename_i hs
    split at h
    · cases h
    split at h
    · cases h
    rename_i hm
    cases h
    obtain ⟨used, hu⟩ := Option.ne_none_iff_exists'.mp (mt Option.isNone_iff_eq_none.mpr hm)
    exact ⟨not_not.mp hv, rfl, not_not.mp hs, (checkMap_some hu).1⟩
  · rintro ⟨hv, rfl, hs, hm⟩
    have h₁ := hs.dataOffset
    have h₂ := hs.st_size
    rw [if_neg (not_not.mpr hv)]
    dsimp only
    rw [if_neg (not_not.mpr hs), if_neg (by omega), checkMap_isNone hm]
    rfl

/-- The header words other than the count are those of `f`, and the file is not shorter. -/
structure HeaderKept (f f' : HostFile) : Prop where
  size : f.size ≤ f'.size
  bytes : ∀ p < VDI_UUID_PARENT_OFF + 16,
    p < VDI_BLOCKS_ALLOC_OFF ∨ VDI_BLOCKS_ALLOC_OFF + 4 ≤ p → f'.bytes p = f.bytes p

theorem HeaderKept.refl (f : HostFile) : HeaderKept f f := ⟨Nat.le_refl _, fun _ _ _ => rfl⟩

theorem HeaderKept.trans {a b c : HostFile} (h : HeaderKept a b) (h' : HeaderKept b c) :
    HeaderKept a c :=
  ⟨Nat.le_trans h.size h'.size, fun p hp hc => (h'.bytes p hp hc).trans (h.bytes p hp hc)⟩

theorem HeaderKept.le32 {f f' : HostFile} (h : HeaderKept f f') {p : Nat}
    (hp : p + 4 ≤ VDI_BLOCKS_ALLOC_OFF ∨
      VDI_BLOCKS_ALLOC_OFF + 4 ≤ p ∧ p + 4 ≤ VDI_UUID_PARENT_OFF + 16) :
    le32At f'.bytes p = le32At f.bytes p := by
  simp only [VDI_UUID_PARENT_OFF, VDI_BLOCKS_ALLOC_OFF] at hp
  exact le32At_congr fun i hi => h.bytes _ (by unfold VDI_UUID_PARENT_OFF; omega)
    (by unfold VDI_BLOCKS_ALLOC_OFF; omega)

theorem HeaderKept.slice {f f' : HostFile} (h : HeaderKept f f') {p n : Nat}
    (hp : VDI_BLOCKS_ALLOC_OFF + 4 ≤ p) (hn : p + n ≤ VDI_UUID_PARENT_OFF + 16) :
    ByteStore.slice f'.bytes p n = ByteStore.slice f.bytes p n :=
  List.map_congr_left fun i hi => h.bytes _ (by rw [List.mem_range] at hi; omega) (.inr (by omega))

theorem HeaderKept.versionOk {f f' : HostFile} (h : HeaderKept f f') (hv : VersionOk f) :
    VersionOk f' := by
  unfold VersionOk at hv ⊢
  rw [h.le32 (.inl (by decide)), h.le32 (.inl (by decide))]
  exact hv

/-- What a file with a kept header decodes to. -/
theorem HeaderKept.decodeVdi {f f' : HostFile} (h : HeaderKept f f') (file : FileId) :
    decodeVdi file f' = { decodeVdi file f with
      blocksAllocated := le32At f'.bytes VDI_BLOCKS_ALLOC_OFF
      blockMap := fun i => if i < (decodeVdi file f).blockCount then
        le32At f'.bytes ((decodeVdi file f).mapPos i) else 0 } := by
  unfold NextUfs.Core.decodeVdi Vdi.mapPos
  have hd : le64At f'.bytes VDI_DISK_SIZE_OFF = le64At f.bytes VDI_DISK_SIZE_OFF :=
    le64At_congr fun i hi => h.bytes _ (by unfold VDI_DISK_SIZE_OFF VDI_UUID_PARENT_OFF; omega)
      (.inl (by unfold VDI_DISK_SIZE_OFF VDI_BLOCKS_ALLOC_OFF; omega))
  rw [hd, h.slice (by decide) (by decide), h.le32 (p := VDI_TYPE_OFF) (.inl (by decide)),
    h.le32 (p := VDI_BLOCKS_OFFSET_OFF) (.inl (by decide)),
    h.le32 (p := VDI_DATA_OFFSET_OFF) (.inl (by decide)),
    h.le32 (p := VDI_SECTOR_SIZE_OFF) (.inl (by decide)),
    h.le32 (p := VDI_BLOCK_SIZE_OFF) (.inl (by decide)),
    h.le32 (p := VDI_BLOCK_EXTRA_OFF) (.inl (by decide)),
    h.le32 (p := VDI_BLOCK_COUNT_OFF) (.inl (by decide))]

/-! ## An opened file -/

/-- The handle `v` is what opening `f` gives. -/
abbrev Opened (v : Vdi) (f : HostFile) : Prop := vdiOpen v.file f = .ok v

namespace Opened

variable {v : Vdi} {f : HostFile}

theorem shape (h : Opened v f) : ShapeOk v (le32At f.bytes VDI_HEADER_SIZE_OFF) f.size :=
  (vdiOpen_ok.mp h).2.2.1

theorem map (h : Opened v f) : MapOk v.blockMap v.blocksAllocated v.blockCount :=
  (vdiOpen_ok.mp h).2.2.2

theorem count (h : Opened v f) : le32At f.bytes VDI_BLOCKS_ALLOC_OFF = v.blocksAllocated := by
  have := (vdiOpen_ok.mp h).2.1
  rw [← this]
  rfl

theorem entry (h : Opened v f) {i : Nat} (hi : i < v.blockCount) :
    le32At f.bytes (v.mapPos i) = v.blockMap i := by
  have h' := (vdiOpen_ok.mp h).2.1
  rw [← h'] at hi ⊢
  exact (if_pos hi).symm

theorem not_failed (h : Opened v f) : v.failed = false := by
  have := (vdiOpen_ok.mp h).2.1
  rw [← this]
  rfl

/-- The map lies behind the header, the blocks behind the map. -/
theorem header_le_map (h : Opened v f) : VDI_UUID_PARENT_OFF + 16 ≤ v.mapOffset := by
  have h₁ := (vdiOpen_ok.mp h).1.1
  have h₂ := h.shape.mapOffset
  unfold VDI_SIG_OFF at h₁
  omega

theorem mapPos_le (h : Opened v f) {i : Nat} (hi : i < v.blockCount) :
    v.mapPos i + 4 ≤ v.dataOffset := by
  have := h.shape.dataOffset
  unfold Vdi.mapPos
  omega

theorem own_lt (h : Opened v f) {i : Nat} (hi : i < v.blockCount) (ho : OwnEntry (v.blockMap i)) :
    v.blockMap i < v.blocksAllocated :=
  h.map.lt i hi ho

/-- An offset inside the disk lies in a block of the map. -/
theorem block_lt (h : Opened v f) {p : Nat} (hp : p < v.diskSize) :
    p / v.blockSize < v.blockCount := by
  have hb := Nat.pos_of_ne_zero h.shape.blockSize
  rw [h.shape.blockCount_eq, Nat.div_lt_iff_lt_mul hb]
  have := Nat.div_add_mod (v.diskSize + v.blockSize - 1) v.blockSize
  have hm := Nat.mod_lt (v.diskSize + v.blockSize - 1) hb
  rw [Nat.mul_comm]
  omega

end Opened

/-! ## Where blocks lie -/

theorem Vdi.le_dataPos (v : Vdi) (e k : Nat) : v.dataOffset ≤ v.dataPos e k := by
  unfold Vdi.dataPos
  omega

/-- A block below `n` ends before the `n`-th begins. -/
theorem Vdi.dataPos_lt (v : Vdi) {e n k : Nat} (he : e < n) (hk : k < v.blockSize) :
    v.dataPos e k < v.dataOffset + n * v.stride := by
  have h : (e + 1) * v.stride ≤ n * v.stride := Nat.mul_le_mul_right _ he
  rw [Nat.add_mul, Nat.one_mul] at h
  unfold Vdi.dataPos
  unfold Vdi.stride at h ⊢
  omega

/-- Different blocks do not meet. -/
theorem Vdi.dataPos_disjoint (v : Vdi) {e e' k : Nat} (k' : Nat) (he : e ≠ e') (hk : k < v.blockSize)
    (hk' : k' < v.blockSize) : v.dataPos e k ≠ v.dataPos e' k' := by
  intro h
  rcases Nat.lt_or_gt_of_ne he with hlt | hlt
  · have := v.dataPos_lt hlt hk
    unfold Vdi.dataPos at h this
    omega
  · have := v.dataPos_lt hlt hk'
    unfold Vdi.dataPos at h this
    omega

/-- Steps inside a block. -/
theorem block_add {bs p i : Nat} (h : i < bs - p % bs) :
    (p + i) / bs = p / bs ∧ (p + i) % bs = p % bs + i := by
  have hp := Nat.div_add_mod p bs
  have hs : p + i = bs * (p / bs) + (p % bs + i) := by omega
  have hlt : p % bs + i < bs := by omega
  constructor
  · rw [hs, Nat.mul_add_div (by omega), Nat.div_eq_of_lt hlt, Nat.add_zero]
  · rw [hs, Nat.mul_add_mod, Nat.mod_eq_of_lt hlt]

/-! ## What an image shows -/

/-- The bytes of a VDI over `under`, which shows through the blocks it does not hold. -/
def guest (v : Vdi) (f : HostFile) (under : ByteStore) : ByteStore := fun p =>
  let entry := v.blockMap (p / v.blockSize)
  if entry = VDI_MAP_UNALLOCATED then under p else
  if entry = VDI_MAP_ZERO then 0 else f.bytes (v.dataPos entry (p % v.blockSize))

theorem guest_own {v : Vdi} {f : HostFile} {under : ByteStore} {p : Nat}
    (h : OwnEntry (v.blockMap (p / v.blockSize))) :
    guest v f under p =
      f.bytes (v.dataPos (v.blockMap (p / v.blockSize)) (p % v.blockSize)) := by
  unfold guest
  rw [if_neg h.1, if_neg h.2]

/-- What an image shows depends on its own blocks only. -/
theorem guest_congr {v : Vdi} {f : HostFile} (f' : HostFile) {under : ByteStore} {p : Nat}
    (h : OwnEntry (v.blockMap (p / v.blockSize)) →
      f'.bytes (v.dataPos (v.blockMap (p / v.blockSize)) (p % v.blockSize)) =
        f.bytes (v.dataPos (v.blockMap (p / v.blockSize)) (p % v.blockSize))) :
    guest v f' under p = guest v f under p := by
  by_cases ho : OwnEntry (v.blockMap (p / v.blockSize))
  · rw [guest_own ho, guest_own ho]
    exact h ho
  · unfold OwnEntry at ho
    unfold guest
    dsimp only
    split
    · rfl
    · rename_i h₁
      rw [if_pos (not_not.mp fun h₂ => ho ⟨h₁, h₂⟩), if_pos (not_not.mp fun h₂ => ho ⟨h₁, h₂⟩)]

/-- The first `n` bytes of `c`, and zeros behind them. -/
def padded (n : Nat) (c : ByteStore) : ByteStore := fun p => if p < n then c p else 0

/-- What an open source shows. -/
def Source.content (h : Host) : Source → ByteStore
  | .raw file _ => (h file).bytes
  | .qcow2 flat => flat.content
  | .vdi v => guest v (h v.file) fun _ => 0
  | .diff v parent => guest v (h v.file) (padded parent.imageSize (parent.content h))

/-- Every VDI of the chain is what opening its file gives; a raw file has not shrunk. -/
def Source.Sound (h : Host) : Source → Prop
  | .raw file n => n ≤ (h file).size
  | .qcow2 _ => True
  | .vdi v => Opened v (h v.file)
  | .diff v parent => Opened v (h v.file) ∧ parent.Sound h

/-- The files of the chain. -/
def Source.files : Source → List FileId
  | .raw file _ => [file]
  | .qcow2 _ => []
  | .vdi v => [v.file]
  | .diff v parent => v.file :: parent.files

/-- A read returns the bytes of `c`. -/
def ReadsFrom (r : Except Errno ByteStore) (c : ByteStore) (size offset : Nat) : Prop :=
  ∃ out, r = .ok out ∧ ∀ i < size, out i = c (offset + i)

/-- A parent, if there is one, shows `under`: it reads so inside its size, and past it `under` is
zero. -/
def Shows : Option Backing → ByteStore → Prop
  | none, under => ∀ p, under p = 0
  | some b, under =>
    (∀ size offset, offset + size ≤ b.imageSize →
      ReadsFrom (b.readExact size offset) under size offset) ∧
    ∀ p, b.imageSize ≤ p → under p = 0

theorem readInherited_ok {b : Option Backing} {under : ByteStore} (hb : Shows b under)
    (size offset : Nat) : ReadsFrom (readInherited b size offset) under size offset := by
  cases b with
  | none => exact ⟨_, rfl, fun i _ => (hb (offset + i)).symm⟩
  | some b =>
    obtain ⟨hread, hpast⟩ := hb
    unfold readInherited
    dsimp only
    split
    · exact ⟨_, rfl, fun i _ => (hpast (offset + i) (by omega)).symm⟩
    obtain ⟨out, ho, hbytes⟩ := hread (min size (b.imageSize - offset)) offset (by omega)
    rw [ho]
    refine ⟨_, rfl, fun i hi => ?_⟩
    by_cases hin : i < min size (b.imageSize - offset)
    · rw [patch_of_mem (by omega) (by omega)]
      exact hbytes i hin
    · rw [patch_of_not_mem (by omega), hpast _ (by omega)]

/-! ## Reading -/

section Read

variable {h : Host} {v : Vdi} {b : Option Backing} {under : ByteStore}

theorem readVdiBlock_ok (hv : Opened v (h v.file)) (hb : Shows b under) (chunk p : Nat)
    (hc : chunk ≤ v.blockSize - p % v.blockSize) (hp : p < v.diskSize) :
    ReadsFrom (readVdiBlock h v b chunk p) (guest v (h v.file) under) chunk p := by
  have hblk := hv.block_lt hp
  have hsame : ∀ i < chunk, v.blockMap ((p + i) / v.blockSize) = v.blockMap (p / v.blockSize) :=
    fun i hi => by rw [(block_add (by omega)).1]
  unfold readVdiBlock
  dsimp only
  rw [if_neg (by omega)]
  split
  · rename_i hu
    obtain ⟨out, ho, hbytes⟩ := readInherited_ok hb chunk p
    refine ⟨out, ho, fun i hi => ?_⟩
    rw [hbytes i hi]
    unfold guest
    dsimp only
    rw [hsame i hi, if_pos hu]
  split
  · rename_i hu hz
    refine ⟨_, rfl, fun i hi => ?_⟩
    unfold guest
    dsimp only
    rw [hsame i hi, if_neg hu, if_pos hz]
  rename_i hu hz
  have hmod := Nat.mod_lt p (Nat.pos_of_ne_zero hv.shape.blockSize)
  have hend : v.dataPos (v.blockMap (p / v.blockSize)) (p % v.blockSize) + chunk ≤
      (h v.file).size := by
    have h₁ := v.dataPos_lt (hv.own_lt hblk ⟨hu, hz⟩) (k := v.blockSize - 1) (by omega)
    have h₂ := hv.shape.st_size
    unfold Vdi.dataPos at h₁ ⊢
    unfold Vdi.stride at h₁ ⊢
    omega
  unfold readExactFd
  rw [if_pos hend]
  refine ⟨_, rfl, fun i hi => ?_⟩
  rw [guest_own (by rw [hsame i hi]; exact ⟨hu, hz⟩), hsame i hi, (block_add (by omega)).2]
  congr 1
  unfold Vdi.dataPos
  omega

/-- The loop: what is read so far is right, and each turn reads on. -/
theorem readVdiBlocks_ok (hv : Opened v (h v.file)) (hb : Shows b under) {size offset : Nat}
    (hend : offset + size ≤ v.diskSize) : ∀ (fuel done : Nat) (out : ByteStore),
    size - done ≤ fuel → done ≤ size →
    (∀ i < done, out i = guest v (h v.file) under (offset + i)) →
    ReadsFrom (readVdiBlocks h v b size offset fuel done out) (guest v (h v.file) under) size offset
  | 0, done, out, hf, hd, ho => ⟨out, rfl, fun i hi => ho i (by omega)⟩
  | fuel + 1, done, out, hf, hd, ho => by
    unfold readVdiBlocks
    split
    · rename_i hlt
      have hmod := Nat.mod_lt (offset + done) (Nat.pos_of_ne_zero hv.shape.blockSize)
      dsimp only
      obtain ⟨bytes, hr, hbytes⟩ := readVdiBlock_ok hv hb
        (min (v.blockSize - (offset + done) % v.blockSize) (size - done)) (offset + done)
        (Nat.min_le_left _ _) (by omega)
      rw [hr]
      refine readVdiBlocks_ok hv hb hend fuel _ _ (by omega) (by omega) fun i hi => ?_
      by_cases hdone : i < done
      · rw [patch_of_not_mem (.inl hdone)]
        exact ho i hdone
      · rw [patch_of_mem (by omega) hi, hbytes _ (by omega)]
        congr 1
        omega
    · exact ⟨out, rfl, fun i hi => ho i (by omega)⟩

/-- A read inside the disk returns what the image shows there. -/
theorem vdiBackendRead_ok (hv : Opened v (h v.file)) (hb : Shows b under) {size offset : Nat}
    (hend : offset + size ≤ v.diskSize) :
    ReadsFrom (vdiBackendRead h v b size offset) (guest v (h v.file) under) size offset := by
  unfold vdiBackendRead
  rw [if_neg (by omega)]
  exact readVdiBlocks_ok hv hb hend size 0 _ (by omega) (by omega)
    fun i hi => absurd hi (Nat.not_lt_zero i)

end Read

/-- The range test passes inside the image. -/
theorem rangeChecked_ok {n size offset : Nat} {read : Nat → Nat → Except Errno ByteStore}
    (h : offset + size ≤ n) : rangeChecked n read size offset = read size offset := by
  unfold rangeChecked
  rw [if_neg (by omega)]

/-- A sound source shows its content. -/
theorem Source.shows {h : Host} : ∀ {s : Source}, s.Sound h →
    Shows (some (s.backing h)) (padded s.imageSize (s.content h)) := by
  have hpast : ∀ (n : Nat) (c : ByteStore) (p : Nat), n ≤ p → padded n c p = 0 :=
    fun n c p hp => if_neg (by omega)
  have hin : ∀ {n : Nat} {c : ByteStore} {r : Except Errno ByteStore} {size offset : Nat},
      offset + size ≤ n → ReadsFrom r c size offset → ReadsFrom r (padded n c) size offset := by
    rintro n c r size offset hle ⟨out, ho, hbytes⟩
    refine ⟨out, ho, fun i hi => ?_⟩
    rw [hbytes i hi, padded, if_pos (by omega)]
  intro s
  induction s with
  | raw file n =>
    intro hs
    refine ⟨fun size offset hle => ?_, hpast _ _⟩
    change offset + size ≤ n at hle
    change n ≤ (h file).size at hs
    change ReadsFrom (rangeChecked n _ size offset) _ size offset
    rw [rangeChecked_ok hle]
    refine hin hle ?_
    unfold readExactFd
    rw [if_pos (by omega)]
    exact ⟨_, rfl, fun i _ => rfl⟩
  | qcow2 flat =>
    intro _
    refine ⟨fun size offset hle => ?_, hpast _ _⟩
    change offset + size ≤ flat.imageSize at hle
    change ReadsFrom (rangeChecked flat.imageSize
      (fun _ off => .ok fun i => flat.content (off + i)) size offset) _ size offset
    rw [rangeChecked_ok hle]
    exact hin hle ⟨_, rfl, fun i _ => rfl⟩
  | vdi v =>
    intro hs
    refine ⟨fun size offset hle => ?_, hpast _ _⟩
    change offset + size ≤ v.diskSize at hle
    change ReadsFrom (rangeChecked v.diskSize _ size offset) _ size offset
    rw [rangeChecked_ok hle]
    have hnone : Shows none fun _ => 0 := fun _ => rfl
    exact hin hle (vdiBackendRead_ok hs hnone hle)
  | diff v parent ih =>
    intro hs
    refine ⟨fun size offset hle => ?_, hpast _ _⟩
    change offset + size ≤ v.diskSize at hle
    change ReadsFrom (rangeChecked v.diskSize _ size offset) _ size offset
    rw [rangeChecked_ok hle]
    exact hin hle (vdiBackendRead_ok hs.1 (ih hs.2) hle)

/-- A source depends on its own files only. -/
theorem Source.content_congr {h h' : Host} : ∀ {s : Source}, (∀ f ∈ s.files, h' f = h f) →
    s.content h' = s.content h ∧ (s.Sound h → s.Sound h') := by
  intro s
  induction s with
  | raw file n =>
    intro hf
    have := hf file (List.mem_singleton_self _)
    simp only [Source.content, Source.Sound, this, true_and]
    exact id
  | qcow2 flat => exact fun _ => ⟨rfl, id⟩
  | vdi v =>
    intro hf
    have := hf v.file (List.mem_singleton_self _)
    simp only [Source.content, Source.Sound, this, true_and]
    exact id
  | diff v parent ih =>
    intro hf
    have hv := hf v.file List.mem_cons_self
    have hp := ih fun f hm => hf f (List.mem_cons_of_mem _ hm)
    simp only [Source.content, Source.Sound, hv, hp.1, true_and]
    exact fun hs => ⟨hs.1, hp.2 hs.2⟩

/-! ## The handle -/

/-- What a parent adds under its child. -/
def shown (h : Host) : Option Source → ByteStore
  | none => fun _ => 0
  | some s => padded s.imageSize (s.content h)

/-- What the handle shows. -/
def World.guest (w : World) : ByteStore :=
  NextUfs.Core.guest w.vdi w.disk (shown w.host w.parent)

/-- The handle is what opening its file gives, over a sound parent in other files. -/
structure World.Good (w : World) : Prop where
  opened : Opened w.vdi w.disk
  parent : ∀ s, w.parent = some s → s.Sound w.host ∧ w.vdi.file ∉ s.files

/-- The parent shows what the handle takes from it. -/
theorem World.Good.shows {w : World} (hw : w.Good) : Shows w.backing (shown w.host w.parent) := by
  unfold World.backing
  cases hp : w.parent with
  | none => exact fun _ => rfl
  | some s => exact Source.shows (hw.parent s hp).1

/-- What a call may change of the world. -/
structure Frame (w w' : World) : Prop where
  fixed : ∃ a m b, w'.vdi = { w.vdi with blocksAllocated := a, blockMap := m, failed := b }
  parent : w'.parent = w.parent
  faults : w'.faults = w.faults
  clock : w.clock ≤ w'.clock
  others : ∀ f, f ≠ w.vdi.file → w'.host f = w.host f
  header : HeaderKept w.disk w'.disk

theorem Frame.refl (w : World) : Frame w w :=
  ⟨⟨_, _, _, rfl⟩, rfl, rfl, Nat.le_refl _, fun _ _ => rfl, .refl _⟩

theorem Frame.file {w w' : World} (h : Frame w w') : w'.vdi.file = w.vdi.file := by
  obtain ⟨a, m, b, hv⟩ := h.fixed
  rw [hv]

theorem Frame.diskSize {w w' : World} (h : Frame w w') : w'.vdi.diskSize = w.vdi.diskSize := by
  obtain ⟨a, m, b, hv⟩ := h.fixed
  rw [hv]

theorem Frame.trans {a b c : World} (h : Frame a b) (h' : Frame b c) : Frame a c where
  fixed := by
    obtain ⟨_, _, _, hb⟩ := h.fixed
    obtain ⟨x, y, z, hc⟩ := h'.fixed
    exact ⟨x, y, z, by rw [hc, hb]⟩
  parent := h'.parent.trans h.parent
  faults := h'.faults.trans h.faults
  clock := Nat.le_trans h.clock h'.clock
  others := fun f hf => (h'.others f (h.file ▸ hf)).trans (h.others f hf)
  header := h.header.trans h'.header

/-- The parents are untouched, and show what they showed. -/
theorem Frame.parent_kept {w w' : World} (h : Frame w w')
    (hp : ∀ s, w.parent = some s → s.Sound w.host ∧ w.vdi.file ∉ s.files) :
    (∀ s, w'.parent = some s → s.Sound w'.host ∧ w'.vdi.file ∉ s.files) ∧
      shown w'.host w'.parent = shown w.host w.parent := by
  have hs : ∀ s, w.parent = some s →
      s.content w'.host = s.content w.host ∧ (s.Sound w.host → s.Sound w'.host) :=
    fun s hs => Source.content_congr fun f hf => h.others f fun he => (hp s hs).2 (he ▸ hf)
  rw [h.parent, h.file]
  refine ⟨fun s he => ⟨(hs s he).2 (hp s he).1, (hp s he).2⟩, ?_⟩
  cases he : w.parent with
  | none => rfl
  | some s => simp only [shown, (hs s he).1]

/-! ## Physical writes -/

/-- The map on disk has no entry at or above the count on disk, and no duplicate. -/
def DiskSound (v : Vdi) (f : HostFile) : Prop :=
  MapOk (fun i => le32At f.bytes (v.mapPos i)) (le32At f.bytes VDI_BLOCKS_ALLOC_OFF) v.blockCount

theorem Opened.diskSound {v : Vdi} {f : HostFile} (h : Opened v f) : DiskSound v f := by
  unfold DiskSound
  rw [h.count]
  exact h.map.congr fun i hi => h.entry hi

/-- Every write of a trail stored all its bytes. -/
def AllWhole (t : List Physical) : Prop := ∀ e ∈ t, e.whole = true

/-- As long as the writes are whole, they leave a sound map on disk. -/
def TrailSound (v : Vdi) : List Physical → Prop
  | [] => True
  | e :: rest => (AllWhole (e :: rest) → DiskSound v e.file) ∧ TrailSound v rest

theorem AllWhole.tail {e : Physical} {t : List Physical} (h : AllWhole (e :: t)) : AllWhole t :=
  fun x hx => h x (List.mem_cons_of_mem _ hx)

section Store

variable (w : World) (offset stored size : Nat) (data : ByteStore)

@[simp] theorem store_vdi : (w.store offset stored size data).vdi = w.vdi := rfl

@[simp] theorem store_disk :
    (w.store offset stored size data).disk = w.disk.write offset stored data := by
  simp [World.disk, World.store]

theorem store_trail : (w.store offset stored size data).trail =
    ⟨w.disk.write offset stored data, decide (stored = size)⟩ :: w.trail := rfl

end Store

/-- A write that stays out of the header, the count apart. -/
theorem Frame.store {w : World} {offset stored size : Nat} {data : ByteStore}
    (hs : stored ≤ size) (ho : VDI_UUID_PARENT_OFF + 16 ≤ offset ∨
      offset = VDI_BLOCKS_ALLOC_OFF ∧ size = 4) : Frame w (w.store offset stored size data) where
  fixed := ⟨_, _, _, rfl⟩
  parent := rfl
  faults := rfl
  clock := Nat.le_succ _
  others := fun f hf => Function.update_of_ne hf _ _
  header := by
    rw [store_disk]
    exact ⟨size_le_write _ _ _ _, fun p hp hc => patch_of_not_mem (by omega)⟩

/-- No physical write failed from `w` to `w'`. -/
def Unfaulted (w w' : World) : Prop := ∀ k, w.clock ≤ k → k < w'.clock → w.faults k = none

theorem Unfaulted.refl (w : World) : Unfaulted w w := fun _ h₁ h₂ => absurd h₂ (Nat.not_lt.mpr h₁)

theorem Unfaulted.trans {a b c : World} (h : Unfaulted a b) (hab : Frame a b)
    (h' : Unfaulted b c) : Unfaulted a c := by
  intro k h₁ h₂
  by_cases hk : k < b.clock
  · exact h k h₁ hk
  · rw [← hab.faults]
    exact h' k (Nat.not_lt.mp hk) h₂

/-- The first physical write of the call that failed did so with this error. -/
def Blamed (w w' : World) (e : Errno) : Prop :=
  ∃ k n, w.clock ≤ k ∧ k < w'.clock ∧ w.faults k = some (n, e) ∧
    ∀ j, w.clock ≤ j → j < k → w.faults j = none

theorem Blamed.later {a b c : World} {e : Errno} (h : Blamed a b e) (hbc : Frame b c) :
    Blamed a c e := by
  obtain ⟨k, n, h₁, h₂, h₃, hfirst⟩ := h
  exact ⟨k, n, h₁, Nat.lt_of_lt_of_le h₂ hbc.clock, h₃, hfirst⟩

theorem Blamed.earlier {a b c : World} {e : Errno} (hab : Frame a b) (hu : Unfaulted a b)
    (h : Blamed b c e) : Blamed a c e := by
  obtain ⟨k, n, h₁, h₂, h₃, hfirst⟩ := h
  refine ⟨k, n, Nat.le_trans hab.clock h₁, h₂, hab.faults ▸ h₃, fun j hj hjk => ?_⟩
  by_cases hb : j < b.clock
  · exact hu j hj hb
  · rw [← hab.faults]
    exact hfirst j (Nat.not_lt.mp hb) hjk

/-- The two ways a physical write ends. -/
theorem writeExactFd_ends (data : ByteStore) (size offset : Nat) (w : World) :
    Ends (fun _ w' => w' = w.store offset size size data ∧ Unfaulted w w')
      (fun e w' => ∃ n ≤ size, w' = w.store offset n size data ∧ Blamed w w' e)
      (writeExactFd data size offset w) := by
  unfold writeExactFd
  cases hf : w.faults w.clock with
  | none =>
    refine ⟨rfl, fun k h₁ h₂ => ?_⟩
    have hk : k = w.clock := Nat.le_antisymm (Nat.lt_succ_iff.mp h₂) h₁
    rw [hk, hf]
  | some x =>
    obtain ⟨n, e⟩ := x
    exact ⟨min n size, Nat.min_le_right _ _, rfl, w.clock, n, Nat.le_refl _, Nat.lt_succ_self _, hf,
      fun j h₁ h₂ => absurd h₂ (Nat.not_lt.mpr h₁)⟩

theorem ends_statusOf {x : VdiM PUnit} {w : World} {Q : Status → World → Prop}
    {E : Errno → World → Prop}
    (h : Ends (fun _ w' => Q none w') (fun e w' => Q (some e) w') (x w)) :
    Ends Q E (statusOf x w) := by
  unfold statusOf
  cases hx : x w with
  | ok a w' =>
    rw [hx] at h
    exact h
  | error e w' =>
    rw [hx] at h
    exact h

/-! ## The count and one map entry -/

/-- `f'` is `f` but for the count and entry `i` of the map. -/
structure Words (v : Vdi) (i : Nat) (f f' : HostFile) : Prop where
  size : f.size ≤ f'.size
  bytes : ∀ p, p < VDI_BLOCKS_ALLOC_OFF ∨ VDI_BLOCKS_ALLOC_OFF + 4 ≤ p →
    p < v.mapPos i ∨ v.mapPos i + 4 ≤ p → f'.bytes p = f.bytes p

/-- The count on disk. -/
def countOn (f : HostFile) : Nat := le32At f.bytes VDI_BLOCKS_ALLOC_OFF

/-- Entry `i` of the map on disk. -/
def entryOn (v : Vdi) (f : HostFile) (i : Nat) : Nat := le32At f.bytes (v.mapPos i)

/-- The values of the count and of the entry while a block is published: what they were, or the
new count with the old or the new entry. -/
def Publishing (allocated old count entry : Nat) : Prop :=
  entry = old ∧ (count = allocated ∨ count = allocated + 1) ∨
    entry = allocated ∧ count = allocated + 1

theorem Publishing.mapOk {m : Nat → Nat} {a n i c e : Nat} (h : MapOk m a n)
    (hp : Publishing a (m i) c e) : MapOk (Function.update m i e) c n := by
  have hca : a ≤ c := by
    rcases hp with ⟨_, hc | hc⟩ | ⟨_, hc⟩ <;> omega
  rcases hp with ⟨rfl, _⟩ | ⟨rfl, rfl⟩
  · rw [Function.update_eq_self]
    exact ⟨fun j hj ho => Nat.lt_of_lt_of_le (h.lt j hj ho) hca, h.inj⟩
  · refine ⟨fun j hj ho => ?_, fun j hj k hk ho he => ?_⟩
    · by_cases hji : j = i
      · rw [hji, Function.update_self]
        omega
      · rw [Function.update_of_ne hji] at ho ⊢
        exact Nat.lt_of_lt_of_le (h.lt j hj ho) hca
    · by_cases hji : j = i
      · by_cases hki : k = i
        · rw [hji, hki]
        · rw [hji, Function.update_self, Function.update_of_ne hki] at he
          rw [hji, Function.update_self, he] at ho
          have := h.lt k hk ho
          omega
      · rw [Function.update_of_ne hji] at ho he
        by_cases hki : k = i
        · rw [hki, Function.update_self] at he
          have := h.lt j hj ho
          omega
        · rw [Function.update_of_ne hki] at he
          exact h.inj j hj k hk ho he

namespace Words

variable {v : Vdi} {i : Nat} {f f' : HostFile}

theorem refl (v : Vdi) (i : Nat) (f : HostFile) : Words v i f f := ⟨Nat.le_refl _, fun _ _ _ => rfl⟩

theorem header (h : Words v i f f') (hv : Opened v f) : HeaderKept f f' where
  size := h.size
  bytes := fun p hp hc => h.bytes p hc (.inl (by
    have := hv.header_le_map
    unfold Vdi.mapPos
    omega))

/-- The count and the map lie apart. -/
theorem count_lt_map (hv : Opened v f) (j : Nat) : VDI_BLOCKS_ALLOC_OFF + 4 ≤ v.mapPos j := by
  have h := hv.header_le_map
  unfold VDI_UUID_PARENT_OFF at h
  unfold Vdi.mapPos VDI_BLOCKS_ALLOC_OFF
  omega

/-- The blocks are not touched. -/
theorem data (h : Words v i f f') (hv : Opened v f) (hi : i < v.blockCount) {p : Nat}
    (hp : v.dataOffset ≤ p) : f'.bytes p = f.bytes p := by
  have h₁ := hv.mapPos_le hi
  have h₂ := count_lt_map hv i
  exact h.bytes p (.inr (by omega)) (.inr (by omega))

theorem entry_of_ne (h : Words v i f f') (hv : Opened v f) {j : Nat} (hj : j ≠ i) :
    entryOn v f' j = entryOn v f j := by
  have h₁ := count_lt_map hv j
  refine le32At_congr fun k hk => h.bytes _ (.inr (by omega)) ?_
  unfold Vdi.mapPos
  omega

/-- What the file decodes to. -/
theorem decodeVdi (h : Words v i f f') (hv : Opened v f) (hi : i < v.blockCount) :
    decodeVdi v.file f' = { v with
      blocksAllocated := countOn f'
      blockMap := Function.update v.blockMap i (entryOn v f' i) } := by
  have hdec := (vdiOpen_ok.mp hv).2.1
  have hmap : (fun j => if j < v.blockCount then le32At f'.bytes (v.mapPos j) else 0) =
      Function.update v.blockMap i (entryOn v f' i) := by
    funext j
    by_cases hji : j = i
    · subst hji
      rw [Function.update_self, if_pos hi]
      rfl
    · rw [Function.update_of_ne hji]
      split
      · rename_i hj
        exact (h.entry_of_ne hv hji).trans (hv.entry hj)
      · rename_i hj
        rw [← hdec] at hj ⊢
        exact (if_neg hj).symm
  rw [(h.header hv).decodeVdi, hdec, hmap]
  rfl

/-- The map on disk is sound while the block is published. -/
theorem diskSound (h : Words v i f f') (hv : Opened v f)
    (hp : Publishing v.blocksAllocated (v.blockMap i) (countOn f') (entryOn v f' i)) :
    DiskSound v f' := by
  refine (hp.mapOk hv.map).congr fun j hj => ?_
  by_cases hji : j = i
  · rw [hji, Function.update_self]
    rfl
  · rw [Function.update_of_ne hji]
    exact (h.entry_of_ne hv hji).trans (hv.entry hj)

/-- Opening the file gives the handle with the count and the entry found there. -/
theorem opened (h : Words v i f f') (hv : Opened v f) (hi : i < v.blockCount)
    (hp : Publishing v.blocksAllocated (v.blockMap i) (countOn f') (entryOn v f' i))
    (hlt : v.blocksAllocated < v.blockCount)
    (hsize : v.dataOffset + (v.blocksAllocated + 1) * v.stride ≤ f.size) :
    Opened { v with
      blocksAllocated := countOn f'
      blockMap := Function.update v.blockMap i (entryOn v f' i) } f' := by
  have hs := hv.shape
  have hh := h.header hv
  have hc : countOn f' ≤ v.blocksAllocated + 1 := by
    rcases hp with ⟨_, hc | hc⟩ | ⟨_, hc⟩ <;> omega
  have hbytes : countOn f' * v.stride ≤ (v.blocksAllocated + 1) * v.stride :=
    Nat.mul_le_mul_right _ hc
  refine vdiOpen_ok.mpr ⟨hh.versionOk (vdiOpen_ok.mp hv).1, h.decodeVdi hv hi, ?_,
    hp.mapOk hv.map⟩
  rw [hh.le32 (.inl (by decide))]
  have hsz := h.size
  exact { hs with
    blocksAllocated_le := Nat.le_trans hc hlt
    st_size := by
      change v.dataOffset + countOn f' * v.stride ≤ f'.size
      omega }

/-- A write at the count, whole or torn. -/
theorem write_count (h : Words v i f f') (hv : Opened v f) {n : Nat} (hn : n ≤ 4)
    (d : ByteStore) : Words v i f (f'.write VDI_BLOCKS_ALLOC_OFF n d) ∧
      entryOn v (f'.write VDI_BLOCKS_ALLOC_OFF n d) i = entryOn v f' i := by
  have hm := count_lt_map hv i
  refine ⟨⟨Nat.le_trans h.size (size_le_write _ _ _ _), fun p hc hp => ?_⟩, ?_⟩
  · rw [← h.bytes p hc hp]
    exact patch_of_not_mem (by omega)
  · exact le32At_congr fun k hk => patch_of_not_mem (by omega)

/-- A write at the map entry, whole or torn. -/
theorem write_entry (h : Words v i f f') (hv : Opened v f) {n : Nat} (hn : n ≤ 4)
    (d : ByteStore) : Words v i f (f'.write (v.mapPos i) n d) ∧
      countOn (f'.write (v.mapPos i) n d) = countOn f' := by
  have hm := count_lt_map hv i
  refine ⟨⟨Nat.le_trans h.size (size_le_write _ _ _ _), fun p hc hp => ?_⟩, ?_⟩
  · rw [← h.bytes p hc hp]
    exact patch_of_not_mem (by omega)
  · exact le32At_congr fun k hk => patch_of_not_mem (by omega)

end Words

theorem countOn_write (f : HostFile) {x : Nat} (hx : x < 4294967296) :
    countOn (f.write VDI_BLOCKS_ALLOC_OFF 4 (leBytes x)) = x :=
  (le32At_patch_self _ _ _).trans (Nat.mod_eq_of_lt hx)

theorem entryOn_write (v : Vdi) (f : HostFile) (i : Nat) {x : Nat} (hx : x < 4294967296) :
    entryOn v (f.write (v.mapPos i) 4 (leBytes x)) i = x :=
  (le32At_patch_self _ _ _).trans (Nat.mod_eq_of_lt hx)

/-! ## Publishing a block -/

/-- The handle with block `i` in the first free place. -/
def Vdi.publish (v : Vdi) (i : Nat) : Vdi :=
  { v with
    blockMap := Function.update v.blockMap i v.blocksAllocated
    blocksAllocated := v.blocksAllocated + 1 }

/-- The world with another handle on the same file. -/
def World.setVdi (w : World) (v : Vdi) : World := { w with vdi := v }

theorem setVdi_disk {w : World} {v : Vdi} (h : v.file = w.vdi.file) :
    (w.setVdi v).disk = w.disk := by
  unfold World.disk World.setVdi
  rw [h]

/-- In the middle of publishing block `i`, begun in `w₀`. -/
structure Mid (w₀ : World) (i : Nat) (w : World) : Prop where
  frame : Frame w₀ w
  vdi : w.vdi = w₀.vdi
  words : Words w₀.vdi i w₀.disk w.disk
  /-- Whole writes leave one of the three states of a publication. -/
  values : AllWhole w.trail → Publishing w₀.vdi.blocksAllocated (w₀.vdi.blockMap i)
    (countOn w.disk) (entryOn w₀.vdi w.disk i)
  trail : TrailSound w₀.vdi w₀.trail → TrailSound w₀.vdi w.trail

namespace Mid

variable {w₀ w : World} {i : Nat}

theorem refl (hv : Opened w₀.vdi w₀.disk) (hi : i < w₀.vdi.blockCount) : Mid w₀ i w₀ where
  frame := .refl w₀
  vdi := rfl
  words := .refl _ _ _
  values := fun _ => .inl ⟨hv.entry hi, .inl hv.count⟩
  trail := id

/-- A whole trail has a whole last write. -/
theorem whole_store {offset n : Nat} {d : ByteStore}
    (h : AllWhole (w.store offset n 4 d).trail) : n = 4 ∧ AllWhole w.trail := by
  rw [store_trail] at h
  exact ⟨of_decide_eq_true (h _ List.mem_cons_self), h.tail⟩

/-- One physical write at either word. -/
theorem store (h : Mid w₀ i w) (hv : Opened w₀.vdi w₀.disk) {offset n : Nat} {d : ByteStore}
    (hn : n ≤ 4) (ho : VDI_UUID_PARENT_OFF + 16 ≤ offset ∨ offset = VDI_BLOCKS_ALLOC_OFF ∧ 4 = 4)
    (hw : Words w₀.vdi i w₀.disk (w.disk.write offset n d))
    (hval : n = 4 → AllWhole w.trail →
      Publishing w₀.vdi.blocksAllocated (w₀.vdi.blockMap i)
        (countOn (w.disk.write offset n d)) (entryOn w₀.vdi (w.disk.write offset n d) i)) :
    Mid w₀ i (w.store offset n 4 d) where
  frame := h.frame.trans (Frame.store hn ho)
  vdi := h.vdi
  words := by
    rw [store_disk]
    exact hw
  values := fun ha => by
    rw [store_disk]
    exact hval (whole_store ha).1 (whole_store ha).2
  trail := fun ht => by
    rw [store_trail]
    refine ⟨fun ha => hw.diskSound hv ?_, h.trail ht⟩
    exact hval (of_decide_eq_true (ha _ List.mem_cons_self)) ha.tail

/-- The count is written, whole or torn. -/
theorem store_count (h : Mid w₀ i w) (hv : Opened w₀.vdi w₀.disk) {n x : Nat} (hn : n ≤ 4)
    (hx : x < 4294967296)
    (hval : AllWhole w.trail → Publishing w₀.vdi.blocksAllocated (w₀.vdi.blockMap i) x
      (entryOn w₀.vdi w.disk i)) :
    Mid w₀ i (w.store VDI_BLOCKS_ALLOC_OFF n 4 (leBytes x)) := by
  have hw := h.words.write_count hv hn (leBytes x)
  refine h.store hv hn (.inr ⟨rfl, rfl⟩) hw.1 fun hfull ha => ?_
  subst hfull
  rw [hw.2, countOn_write _ hx]
  exact hval ha

/-- The map entry is written, whole or torn. -/
theorem store_entry (h : Mid w₀ i w) (hv : Opened w₀.vdi w₀.disk) {n x : Nat} (hn : n ≤ 4)
    (hx : x < 4294967296)
    (hval : AllWhole w.trail → Publishing w₀.vdi.blocksAllocated (w₀.vdi.blockMap i)
      (countOn w.disk) x) :
    Mid w₀ i (w.store (w₀.vdi.mapPos i) n 4 (leBytes x)) := by
  have hw := h.words.write_entry hv hn (leBytes x)
  have ho := hv.header_le_map
  refine h.store hv hn (.inl (by unfold Vdi.mapPos; omega)) hw.1 fun hfull ha => ?_
  subst hfull
  rw [hw.2, entryOn_write _ _ _ hx]
  exact hval ha

end Mid

section Publish

variable {w₀ : World} {i : Nat} (hv : Opened w₀.vdi w₀.disk) (hi : i < w₀.vdi.blockCount)
include hv hi

/-- The old entry is a 32-bit word. -/
theorem Opened.entry_lt : w₀.vdi.blockMap i < 4294967296 := by
  rw [← hv.entry hi]
  exact le32At_lt _ _

/-- The count, and then the entry. -/
theorem publishWords_ends (hlt : w₀.vdi.blocksAllocated < w₀.vdi.blockCount) :
    Ends
      (fun _ w => Mid w₀ i w ∧ Unfaulted w₀ w ∧ countOn w.disk = w₀.vdi.blocksAllocated + 1 ∧
        entryOn w₀.vdi w.disk i = w₀.vdi.blocksAllocated)
      (fun e w => Mid w₀ i w ∧ Blamed w₀ w e)
      (publishWords (w₀.vdi.mapPos i) w₀.vdi.blocksAllocated w₀) := by
  have hcount := hv.shape.blockCount_le
  have hnew : w₀.vdi.blocksAllocated + 1 < 4294967296 := by omega
  have hfirst : ∀ {n : Nat}, n ≤ 4 → Mid w₀ i (w₀.store VDI_BLOCKS_ALLOC_OFF n 4
      (leBytes (w₀.vdi.blocksAllocated + 1))) := fun hn =>
    (Mid.refl hv hi).store_count hv hn hnew fun _ => .inl ⟨hv.entry hi, .inr rfl⟩
  unfold publishWords
  refine ends_bind ((writeExactFd_ends _ _ _ _).mono ?_ ?_)
  · rintro _ w₁ ⟨rfl, hu₁⟩
    have h₁ := hfirst (Nat.le_refl 4)
    have hc₁ : countOn (w₀.store VDI_BLOCKS_ALLOC_OFF 4 4
        (leBytes (w₀.vdi.blocksAllocated + 1))).disk = w₀.vdi.blocksAllocated + 1 := by
      rw [store_disk]
      exact countOn_write _ hnew
    refine (writeExactFd_ends _ _ _ _).mono ?_ ?_
    · rintro _ w₂ ⟨rfl, hu₂⟩
      refine ⟨h₁.store_entry hv (Nat.le_refl _) (by omega) fun _ => .inr ⟨rfl, hc₁⟩,
        hu₁.trans h₁.frame hu₂, ?_, ?_⟩
      · rw [store_disk, (h₁.words.write_entry hv (Nat.le_refl _) _).2]
        exact hc₁
      · rw [store_disk]
        exact entryOn_write _ _ _ (by omega)
    · rintro e w₂ ⟨n, hn, rfl, hb⟩
      exact ⟨h₁.store_entry hv hn (by omega) fun _ => .inr ⟨rfl, hc₁⟩,
        hb.earlier h₁.frame hu₁⟩
  · rintro e w₁ ⟨n, hn, rfl, hb⟩
    exact ⟨hfirst hn, hb⟩

/-- Both words are written back, whatever became of them; a failure to do so latches the handle. -/
theorem restoreWords_ends {w : World} (hm : Mid w₀ i w) {rc : Errno} (hb : Blamed w₀ w rc) :
    Ends (fun _ _ => False)
      (fun e w' => (∃ w, Mid w₀ i w ∧ e = .EUCLEAN ∧
          w' = w.setVdi { w₀.vdi with failed := true }) ∨
        Mid w₀ i w' ∧ countOn w'.disk = w₀.vdi.blocksAllocated ∧
          entryOn w₀.vdi w'.disk i = w₀.vdi.blockMap i ∧ Blamed w₀ w' e)
      (restoreWords (w₀.vdi.mapPos i) (w₀.vdi.blockMap i) rc w) := by
  have hold := hv.entry_lt hi
  have hcount := hv.shape.blockCount_le
  have hallocated := hv.shape.blocksAllocated_le
  have hback : ∀ {n : Nat}, n ≤ 4 → Mid w₀ i (w.store (w₀.vdi.mapPos i) n 4
      (leBytes (w₀.vdi.blockMap i))) := fun hn =>
    hm.store_entry hv hn hold fun ha => .inl ⟨rfl, by
      rcases hm.values ha with ⟨_, hc⟩ | ⟨_, hc⟩
      · exact hc
      · exact .inr hc⟩
  have hcountBack : ∀ {n k : Nat}, n ≤ 4 → k ≤ 4 →
      Mid w₀ i ((w.store (w₀.vdi.mapPos i) n 4 (leBytes (w₀.vdi.blockMap i))).store
        VDI_BLOCKS_ALLOC_OFF k 4 (leBytes w₀.vdi.blocksAllocated)) := fun {n k} hn hk =>
    (hback hn).store_count hv hk (by omega) fun ha => .inl ⟨by
      have hfull := (Mid.whole_store ha).1
      subst hfull
      rw [store_disk]
      exact entryOn_write _ _ _ hold, .inl rfl⟩
  have hlatch : ∀ {w' : World}, Mid w₀ i w' →
      ∃ w₁, Mid w₀ i w₁ ∧ Errno.EUCLEAN = .EUCLEAN ∧
        w'.setVdi { w'.vdi with failed := true } =
          w₁.setVdi { w₀.vdi with failed := true } := fun {w'} hm' =>
    ⟨w', hm', rfl, by rw [hm'.vdi]⟩
  unfold restoreWords
  refine ends_bind (ends_statusOf ((writeExactFd_ends _ _ _ _).mono ?_ ?_))
  · rintro _ w₁ ⟨rfl, -⟩
    refine ends_bind (ends_get ?_)
    rw [store_vdi, hm.vdi]
    refine ends_bind (ends_statusOf ((writeExactFd_ends _ _ _ _).mono ?_ ?_))
    · rintro _ w₂ ⟨rfl, -⟩
      rw [if_neg (by simp)]
      refine ends_throw (.inr ⟨hcountBack (Nat.le_refl _) (Nat.le_refl _), ?_, ?_, ?_⟩)
      · rw [store_disk]
        exact countOn_write _ (by omega)
      · rw [store_disk, ((hback (Nat.le_refl _)).words.write_count hv (Nat.le_refl _) _).2,
          store_disk]
        exact entryOn_write _ _ _ hold
      · exact hb.later ((Frame.store (Nat.le_refl _) (.inl (by
          have := hv.header_le_map
          unfold Vdi.mapPos
          omega))).trans (Frame.store (Nat.le_refl _) (.inr ⟨rfl, rfl⟩)))
    · rintro e' w₂ ⟨n, hn, rfl, _⟩
      rw [if_pos (by simp)]
      exact ends_bind (ends_modify (ends_throw (.inl (hlatch (hcountBack (Nat.le_refl _) hn)))))
  · rintro e' w₁ ⟨n, hn, rfl, _⟩
    refine ends_bind (ends_get ?_)
    rw [store_vdi, hm.vdi]
    refine ends_bind (ends_statusOf ((writeExactFd_ends _ _ _ _).mono ?_ ?_))
    · rintro _ w₂ ⟨rfl, -⟩
      rw [if_pos (by simp)]
      exact ends_bind (ends_modify (ends_throw (.inl (hlatch (hcountBack hn (Nat.le_refl _))))))
    · rintro e'' w₂ ⟨k, hk, rfl, _⟩
      rw [if_pos (by simp)]
      exact ends_bind (ends_modify (ends_throw (.inl (hlatch (hcountBack hn hk)))))

/-- Publishing block `i` succeeds with both words written, or fails with both restored, or fails
to restore them and says so. -/
theorem publishBlock_ends (hlt : w₀.vdi.blocksAllocated < w₀.vdi.blockCount) :
    Ends
      (fun _ w' => ∃ w, Mid w₀ i w ∧ Unfaulted w₀ w ∧
        countOn w.disk = w₀.vdi.blocksAllocated + 1 ∧
        entryOn w₀.vdi w.disk i = w₀.vdi.blocksAllocated ∧
        w' = w.setVdi (w₀.vdi.publish i))
      (fun e w' => (∃ w, Mid w₀ i w ∧ e = .EUCLEAN ∧
          w' = w.setVdi { w₀.vdi with failed := true }) ∨
        Mid w₀ i w' ∧ countOn w'.disk = w₀.vdi.blocksAllocated ∧
          entryOn w₀.vdi w'.disk i = w₀.vdi.blockMap i ∧ Blamed w₀ w' e)
      (publishBlock i (w₀.vdi.blockMap i) w₀.vdi.blocksAllocated w₀) := by
  unfold publishBlock
  refine ends_bind (ends_get ?_)
  refine ends_bind (ends_statusOf ((publishWords_ends hv hi hlt).mono ?_ ?_))
  · rintro _ w ⟨hm, hu, hc, he⟩
    refine ends_modify ⟨w, hm, hu, hc, he, ?_⟩
    rw [hm.vdi]
    rfl
  · rintro e w ⟨hm, hb⟩
    exact (restoreWords_ends hv hi hm hb).mono (fun _ _ h => h.elim) fun _ _ h => h

end Publish

/-! ## Steps of a write -/

/-- What a part of a write keeps: unless the handle is latched, it is good again and shows what it
showed outside `R`. -/
structure Step (R : Nat → Prop) (w w' : World) : Prop where
  frame : Frame w w'
  trail : TrailSound w.vdi w.trail → TrailSound w.vdi w'.trail
  kept : w'.vdi.failed = false →
    w'.Good ∧ ∀ p < w.vdi.diskSize, ¬ R p → w'.guest p = w.guest p

/-- The error of a call that left `w'`: a latched handle says `EUCLEAN`, and nothing else does but
the first physical write that failed, if it did so with this error. -/
def ErrorOf (w w' : World) (e : Errno) : Prop :=
  (w'.vdi.failed = true → e = .EUCLEAN) ∧
    (e = .EUCLEAN → w'.vdi.failed = true ∨ Blamed w w' e)

/-- The trail does not care which count and map the handle has. -/
theorem Frame.trailSound {w w' : World} (h : Frame w w') : ∀ t : List Physical,
    TrailSound w'.vdi t ↔ TrailSound w.vdi t
  | [] => Iff.rfl
  | e :: rest => by
    obtain ⟨a, m, b, hv⟩ := h.fixed
    have hd : DiskSound w'.vdi e.file ↔ DiskSound w.vdi e.file := by
      rw [hv]
      exact Iff.rfl
    exact and_congr (imp_congr_right fun _ => hd) (h.trailSound rest)

theorem Step.refl {w : World} (R : Nat → Prop) (hw : w.Good) : Step R w w :=
  ⟨.refl w, id, fun _ => ⟨hw, fun _ _ _ => rfl⟩⟩

theorem Step.trans {R : Nat → Prop} {a b c : World} (h : Step R a b) (hb : b.vdi.failed = false)
    (h' : Step R b c) : Step R a c where
  frame := h.frame.trans h'.frame
  trail := fun ht => (h.frame.trailSound _).mp (h'.trail ((h.frame.trailSound _).mpr (h.trail ht)))
  kept := fun hc => by
    obtain ⟨hg, hs⟩ := h'.kept hc
    refine ⟨hg, fun p hp hr => ?_⟩
    rw [hs p (h.frame.diskSize ▸ hp) hr]
    exact (h.kept hb).2 p hp hr

theorem Step.mono {R R' : Nat → Prop} {w w' : World} (h : Step R w w') (hR : ∀ p, R p → R' p) :
    Step R' w w' :=
  ⟨h.frame, h.trail, fun hf => ⟨(h.kept hf).1, fun p hp hr => (h.kept hf).2 p hp (mt (hR p) hr)⟩⟩

theorem ErrorOf.of_frame {a b c : World} {e : Errno} (hab : Frame a b) (hu : Unfaulted a b)
    (h : ErrorOf b c e) : ErrorOf a c e :=
  ⟨h.1, fun he => (h.2 he).imp_right fun hb => hb.earlier hab hu⟩

theorem ErrorOf.of_blamed {w w' : World} {e : Errno} (hf : w'.vdi.failed = false)
    (hb : Blamed w w' e) : ErrorOf w w' e := by
  refine ⟨fun h => ?_, fun _ => .inr hb⟩
  rw [hf] at h
  cases h

/-- Nothing before the blocks has changed, so the file opens to the same handle. -/
theorem Opened.of_below {v : Vdi} {f f' : HostFile} (h : Opened v f)
    (ha : AgreeBelow v.dataOffset f f') : Opened v f' := by
  obtain ⟨hv, hdec, hs, hm⟩ := vdiOpen_ok.mp h
  have h₁ := h.header_le_map
  have h₂ := hs.dataOffset
  have hh : HeaderKept f f' := ⟨ha.size, fun p hp _ => ha.bytes p (by omega)⟩
  have hc : le32At f'.bytes VDI_BLOCKS_ALLOC_OFF = v.blocksAllocated :=
    (ha.le32 (by unfold VDI_UUID_PARENT_OFF at h₁; unfold VDI_BLOCKS_ALLOC_OFF; omega)).trans h.count
  have hmap : (fun j => if j < v.blockCount then le32At f'.bytes (v.mapPos j) else 0) =
      v.blockMap := by
    funext j
    split
    · rename_i hj
      exact (ha.le32 (h.mapPos_le hj)).trans (h.entry hj)
    · rename_i hj
      rw [← hdec] at hj ⊢
      exact (if_neg hj).symm
  refine vdiOpen_ok.mpr ⟨hh.versionOk hv, ?_, ?_, hm⟩
  · rw [hh.decodeVdi, hdec, hc, hmap]
  · rw [hh.le32 (.inl (by decide))]
    exact { hs with st_size := Nat.le_trans hs.st_size ha.size }

/-- A physical write behind the map, whole or torn: `R` is what it covers of the blocks in use. -/
theorem Step.store {R : Nat → Prop} {w : World} (hw : w.Good) {offset n size : Nat}
    {d : ByteStore} (hn : n ≤ size) (ho : w.vdi.dataOffset ≤ offset)
    (hR : ∀ p < w.vdi.diskSize, OwnEntry (w.vdi.blockMap (p / w.vdi.blockSize)) →
      offset ≤ w.vdi.dataPos (w.vdi.blockMap (p / w.vdi.blockSize)) (p % w.vdi.blockSize) →
      w.vdi.dataPos (w.vdi.blockMap (p / w.vdi.blockSize)) (p % w.vdi.blockSize) < offset + size →
      R p) :
    Step R w (w.store offset n size d) := by
  have hv := hw.opened
  have h₁ := hv.header_le_map
  have h₂ := hv.shape.dataOffset
  have hagree := agreeOff_write w.disk offset d hn
  have hopen : Opened w.vdi (w.disk.write offset n d) := hv.of_below (hagree.below ho)
  have hframe : Frame w (w.store offset n size d) := Frame.store hn (.inl (by omega))
  have hparent := hframe.parent_kept hw.parent
  refine ⟨hframe, fun ht => ⟨fun _ => hopen.diskSound, ht⟩, fun _ => ⟨⟨?_, hparent.1⟩, ?_⟩⟩
  · rw [store_disk]
    exact hopen
  · intro p hp hr
    unfold World.guest
    rw [hparent.2, store_disk]
    change NextUfs.Core.guest w.vdi _ _ p = NextUfs.Core.guest w.vdi _ _ p
    refine guest_congr _ fun hown => hagree.bytes _ ?_
    by_contra hin
    exact hr (hR p hp hown (by omega) (by omega))

/-- The first content of a block is what the image shows there. -/
theorem inheritBlock_ends {w : World} (hw : w.Good) {i : Nat}
    (hold : ¬ OwnEntry (w.vdi.blockMap i)) :
    Ends (fun block w' => w = w' ∧
        ∀ k < w.vdi.blockSize, block k = w.guest (i * w.vdi.blockSize + k))
      (fun _ _ => False)
      (inheritBlock (w.vdi.blockMap i) (i * w.vdi.blockSize) w) := by
  have hidx : ∀ k < w.vdi.blockSize, (i * w.vdi.blockSize + k) / w.vdi.blockSize = i :=
    fun k hk => by
      rw [Nat.mul_comm, Nat.mul_add_div (by omega), Nat.div_eq_of_lt hk, Nat.add_zero]
  -- What is to be shown, by the two kinds of entry.
  have hzero : w.vdi.blockMap i ≠ VDI_MAP_UNALLOCATED →
      ∀ k < w.vdi.blockSize, (0 : UInt8) = w.guest (i * w.vdi.blockSize + k) := by
    intro hu k hk
    unfold World.guest guest
    dsimp only
    rw [hidx k hk, if_neg hu, if_pos (by unfold OwnEntry at hold; by_contra hz; exact hold ⟨hu, hz⟩)]
  have hunder : w.vdi.blockMap i = VDI_MAP_UNALLOCATED → ∀ k < w.vdi.blockSize,
      w.guest (i * w.vdi.blockSize + k) =
        shown w.host w.parent (i * w.vdi.blockSize + k) := by
    intro hu k hk
    unfold World.guest guest
    dsimp only
    rw [hidx k hk, if_pos hu]
  have hshows := hw.shows
  unfold inheritBlock
  refine ends_bind (ends_get ?_)
  cases hb : w.backing with
  | none =>
    rw [hb] at hshows
    refine ends_pure ⟨rfl, fun k hk => ?_⟩
    by_cases hu : w.vdi.blockMap i = VDI_MAP_UNALLOCATED
    · rw [hunder hu k hk, hshows]
    · exact hzero hu k hk
  | some b =>
    rw [hb] at hshows
    obtain ⟨hread, hpast⟩ := hshows
    dsimp only
    split
    · rename_i hu
      by_cases hlt : i * w.vdi.blockSize < b.imageSize
      · rw [if_pos hlt]
        split
        · exact ends_pure ⟨rfl, fun k hk => by omega⟩
        obtain ⟨out, ho, hbytes⟩ := hread (min (b.imageSize - i * w.vdi.blockSize) w.vdi.blockSize)
          (i * w.vdi.blockSize) (by omega)
        rw [ho]
        refine ends_bind (ends_pure (ends_pure ⟨rfl, fun k hk => ?_⟩))
        rw [hunder hu k hk]
        by_cases hin : k < min (b.imageSize - i * w.vdi.blockSize) w.vdi.blockSize
        · rw [patch_of_mem (by omega) (by omega)]
          exact hbytes k hin
        · rw [patch_of_not_mem (by omega), hpast _ (by omega)]
      · rw [if_neg hlt, if_pos (Nat.zero_min _)]
        refine ends_pure ⟨rfl, fun k hk => ?_⟩
        rw [hunder hu k hk, hpast _ (by omega)]
    · rename_i hu
      exact ends_pure ⟨rfl, hzero hu⟩

/-! ## Materialising a block -/

/-- The first content of block `i` stands in the first free place of the file. -/
structure Staged (w : World) (i : Nat) : Prop where
  good : w.Good
  index : i < w.vdi.blockCount
  empty : ¬ OwnEntry (w.vdi.blockMap i)
  room : w.vdi.blocksAllocated < w.vdi.blockCount
  size : w.vdi.dataOffset + (w.vdi.blocksAllocated + 1) * w.vdi.stride ≤ w.disk.size
  bytes : ∀ k < w.vdi.blockSize, i * w.vdi.blockSize + k < w.vdi.diskSize →
    w.disk.bytes (w.vdi.dataPos w.vdi.blocksAllocated k) = w.guest (i * w.vdi.blockSize + k)

/-- Both words are back: the handle is as it was. -/
theorem Mid.restored {w₀ w : World} {i : Nat} (h : Mid w₀ i w) (hs : Staged w₀ i)
    (hc : countOn w.disk = w₀.vdi.blocksAllocated)
    (he : entryOn w₀.vdi w.disk i = w₀.vdi.blockMap i) : Step (fun _ => False) w₀ w := by
  have hv := hs.good.opened
  have hparent := h.frame.parent_kept hs.good.parent
  have hopen := h.words.opened hv hs.index (.inl ⟨he, .inl hc⟩) hs.room hs.size
  rw [hc, he, Function.update_eq_self] at hopen
  refine ⟨h.frame, h.trail, fun _ => ⟨⟨?_, hparent.1⟩, fun p hp _ => ?_⟩⟩
  · rw [h.vdi]
    exact hopen
  · unfold World.guest
    rw [hparent.2, h.vdi]
    exact guest_congr _ fun _ => h.words.data hv hs.index (Vdi.le_dataPos _ _ _)

/-- Both words are published: the block is in the map, and the image shows what it showed. -/
theorem Mid.published {w₀ w : World} {i : Nat} (h : Mid w₀ i w) (hs : Staged w₀ i)
    (hc : countOn w.disk = w₀.vdi.blocksAllocated + 1)
    (he : entryOn w₀.vdi w.disk i = w₀.vdi.blocksAllocated) :
    Step (fun _ => False) w₀ (w.setVdi (w₀.vdi.publish i)) := by
  have hv := hs.good.opened
  have hopen := h.words.opened hv hs.index (.inr ⟨he, hc⟩) hs.room hs.size
  rw [hc, he] at hopen
  have hdisk : (w.setVdi (w₀.vdi.publish i)).disk = w.disk := setVdi_disk (by rw [h.vdi]; rfl)
  have hframe : Frame w₀ (w.setVdi (w₀.vdi.publish i)) :=
    ⟨⟨_, _, _, rfl⟩, h.frame.parent, h.frame.faults, h.frame.clock, h.frame.others,
      by rw [hdisk]; exact h.frame.header⟩
  have hparent := hframe.parent_kept hs.good.parent
  refine ⟨hframe, h.trail, fun _ => ⟨⟨?_, hparent.1⟩, fun p hp _ => ?_⟩⟩
  · rw [hdisk]
    exact hopen
  have hdata : ∀ e k, w.disk.bytes (w₀.vdi.dataPos e k) = w₀.disk.bytes (w₀.vdi.dataPos e k) :=
    fun e k => h.words.data hv hs.index (Vdi.le_dataPos _ _ _)
  have hown : OwnEntry w₀.vdi.blocksAllocated := by
    have h₁ := hs.room
    have h₂ := hv.shape.blockCount_le
    unfold OwnEntry VDI_MAP_UNALLOCATED VDI_MAP_ZERO
    omega
  change NextUfs.Core.guest (w₀.vdi.publish i) (w.setVdi (w₀.vdi.publish i)).disk
    (shown (w.setVdi (w₀.vdi.publish i)).host (w.setVdi (w₀.vdi.publish i)).parent) p = _
  rw [hparent.2, hdisk]
  by_cases hpi : p / w₀.vdi.blockSize = i
  · have hmod := Nat.mod_lt p (Nat.pos_of_ne_zero hv.shape.blockSize)
    have hp' : i * w₀.vdi.blockSize + p % w₀.vdi.blockSize = p := by
      rw [← hpi, Nat.mul_comm]
      exact Nat.div_add_mod _ _
    have hnew : (w₀.vdi.publish i).blockMap (p / w₀.vdi.blockSize) = w₀.vdi.blocksAllocated := by
      rw [hpi]
      exact Function.update_self _ _ _
    rw [guest_own (by
      change OwnEntry ((w₀.vdi.publish i).blockMap (p / w₀.vdi.blockSize))
      rw [hnew]
      exact hown)]
    change w.disk.bytes (w₀.vdi.dataPos ((w₀.vdi.publish i).blockMap (p / w₀.vdi.blockSize))
      (p % w₀.vdi.blockSize)) = _
    rw [hnew, hdata, hs.bytes _ hmod (by rw [hp']; exact hp), hp']
  · have hsame : (w₀.vdi.publish i).blockMap (p / w₀.vdi.blockSize) =
        w₀.vdi.blockMap (p / w₀.vdi.blockSize) := Function.update_of_ne hpi _ _
    unfold World.guest
    rw [← guest_congr w.disk fun _ => hdata _ _]
    unfold NextUfs.Core.guest
    change (let entry := (w₀.vdi.publish i).blockMap (p / w₀.vdi.blockSize)
      if entry = VDI_MAP_UNALLOCATED then _ else
      if entry = VDI_MAP_ZERO then 0 else
        w.disk.bytes (w₀.vdi.dataPos entry (p % w₀.vdi.blockSize))) = _
    rw [hsame]

/-- Nothing in use lies at or behind the first free place. -/
theorem Step.store_free {w : World} (hw : w.Good) {offset n size : Nat} {d : ByteStore}
    (hn : n ≤ size) (ho : w.vdi.dataOffset + w.vdi.blocksAllocated * w.vdi.stride ≤ offset) :
    Step (fun _ => False) w (w.store offset n size d) := by
  have hv := hw.opened
  refine Step.store hw hn (by omega) fun p hp hown hle _ => ?_
  have := w.vdi.dataPos_lt (hv.own_lt (hv.block_lt hp) hown)
    (Nat.mod_lt p (Nat.pos_of_ne_zero hv.shape.blockSize))
  omega

/-- The extra area is written behind all that is in use. -/
theorem writeExtra_ends {w : World} (hw : w.Good) {size offset : Nat}
    (ho : w.vdi.dataOffset + w.vdi.blocksAllocated * w.vdi.stride ≤ offset) :
    Ends (fun _ w' => Step (fun _ => False) w w' ∧ w'.vdi = w.vdi ∧ Unfaulted w w')
      (fun e w' => Step (fun _ => False) w w' ∧ ErrorOf w w' e)
      (writeExtra size offset w) := by
  unfold writeExtra
  split
  · refine (writeExactFd_ends _ _ _ _).mono ?_ ?_
    · rintro _ w₁ ⟨rfl, hu⟩
      exact ⟨Step.store_free hw (Nat.le_refl _) ho, rfl, hu⟩
    · rintro e w₁ ⟨n, hn, rfl, hbl⟩
      exact ⟨Step.store_free hw hn ho, .of_blamed hw.opened.not_failed hbl⟩
  · exact ends_pure ⟨.refl _ hw, rfl, .refl w⟩

/-- The first content of block `i` is written in the first free place. -/
theorem Staged.of_store {w w₁ : World} (hw : w.Good) {i : Nat} (hi : i < w.vdi.blockCount)
    (hold : ¬ OwnEntry (w.vdi.blockMap i)) (hroom : w.vdi.blocksAllocated < w.vdi.blockCount)
    (h₁ : Step (fun _ => False) w w₁) (hvdi : w₁.vdi = w.vdi) {block : ByteStore}
    (hblock : ∀ k < w.vdi.blockSize, block k = w.guest (i * w.vdi.blockSize + k)) :
    Staged (w₁.store (w.vdi.dataOffset + w.vdi.blocksAllocated * w.vdi.stride + w.vdi.blockExtra)
      w.vdi.blockSize w.vdi.blockSize block) i := by
  have hb := Nat.pos_of_ne_zero hw.opened.shape.blockSize
  have hf₁ : w₁.vdi.failed = false := by rw [hvdi, hw.opened.not_failed]
  have hbehind : w₁.vdi.dataOffset + w₁.vdi.blocksAllocated * w₁.vdi.stride ≤
      w.vdi.dataOffset + w.vdi.blocksAllocated * w.vdi.stride + w.vdi.blockExtra := by
    rw [hvdi]
    omega
  have h₂ := h₁.trans hf₁
    (Step.store_free (h₁.kept hf₁).1 (d := block) (Nat.le_refl w.vdi.blockSize) hbehind)
  obtain ⟨hgood, hguest⟩ := h₂.kept hf₁
  refine ⟨hgood, ?_, ?_, ?_, ?_, fun k hk hdisk => ?_⟩
  all_goals rw [store_vdi, hvdi] at *
  · exact hi
  · exact hold
  · exact hroom
  · rw [store_disk]
    have := end_le_write w₁.disk
      (w.vdi.dataOffset + w.vdi.blocksAllocated * w.vdi.stride + w.vdi.blockExtra) block hb
    unfold Vdi.stride at this ⊢
    rw [Nat.add_mul, Nat.one_mul]
    omega
  · rw [hguest _ hdisk id, ← hblock k hk, store_disk]
    unfold Vdi.dataPos
    rw [write_bytes, patch_of_mem (by omega) (by omega)]
    congr 1
    omega

/-- A staged block is published, or the call failed and the image shows what it showed. -/
theorem Staged.publish_ends {w : World} {i : Nat} (hs : Staged w i) :
    Ends (fun _ w' => Step (fun _ => False) w w' ∧ w'.vdi.failed = false ∧ Unfaulted w w' ∧
        OwnEntry (w'.vdi.blockMap i))
      (fun e w' => Step (fun _ => False) w w' ∧ ErrorOf w w' e)
      (publishBlock i (w.vdi.blockMap i) w.vdi.blocksAllocated w) := by
  have hv := hs.good.opened
  refine (publishBlock_ends hv hs.index hs.room).mono ?_ ?_
  · rintro _ _ ⟨w', hm, hu, hc, he, rfl⟩
    refine ⟨hm.published hs hc he, hv.not_failed, hu, ?_⟩
    change OwnEntry ((w.vdi.publish i).blockMap i)
    have hnew : (w.vdi.publish i).blockMap i = w.vdi.blocksAllocated := Function.update_self _ _ _
    rw [hnew]
    have h₁ := hs.room
    have h₂ := hv.shape.blockCount_le
    unfold OwnEntry VDI_MAP_UNALLOCATED VDI_MAP_ZERO
    omega
  · rintro e _ (⟨w', hm, rfl, rfl⟩ | ⟨hm, hc, he, hbl⟩)
    · have hdisk : (w'.setVdi { w.vdi with failed := true }).disk = w'.disk :=
        setVdi_disk (by rw [hm.vdi])
      have hframe : Frame w (w'.setVdi { w.vdi with failed := true }) :=
        ⟨⟨_, _, _, rfl⟩, hm.frame.parent, hm.frame.faults, hm.frame.clock, hm.frame.others,
          by rw [hdisk]; exact hm.frame.header⟩
      exact ⟨⟨hframe, hm.trail, fun hf => nomatch hf⟩, fun _ => rfl, fun _ => .inl rfl⟩
    · exact ⟨hm.restored hs hc he, .of_blamed (by rw [hm.vdi, hv.not_failed]) hbl⟩

/-- A block is in the map afterwards, or the call failed and the image shows what it showed. -/
theorem materializeBlock_ends {w : World} (hw : w.Good) {i : Nat} (hi : i < w.vdi.blockCount) :
    Ends (fun _ w' => Step (fun _ => False) w w' ∧ w'.vdi.failed = false ∧ Unfaulted w w' ∧
        OwnEntry (w'.vdi.blockMap i))
      (fun e w' => Step (fun _ => False) w w' ∧ ErrorOf w w' e)
      (materializeBlock i w) := by
  have hv := hw.opened
  unfold materializeBlock
  refine ends_bind (ends_get ?_)
  dsimp only
  split
  · rename_i hown
    exact ends_pure ⟨.refl _ hw, hv.not_failed, .refl w, hown⟩
  rename_i hold
  refine ends_bind (ends_check (fun hroom => ?_) fun _ => ⟨.refl _ hw, ?_, ?_⟩)
  rotate_left
  · rw [hv.not_failed]
    exact fun h => nomatch h
  · exact fun h => nomatch h
  refine ends_bind ((inheritBlock_ends hw hold).mono ?_ fun _ _ h => h.elim)
  rintro block _ ⟨rfl, hblock⟩
  refine ends_bind ((writeExtra_ends hw (Nat.le_refl _)).mono ?_ fun _ _ h => h)
  rintro _ w₁ ⟨h₁, hvdi₁, hu₁⟩
  have hf₁ : w₁.vdi.failed = false := by rw [hvdi₁, hv.not_failed]
  have hstore : ∀ {n : Nat}, n ≤ w.vdi.blockSize → Step (fun _ => False) w₁ (w₁.store
      (w.vdi.dataOffset + w.vdi.blocksAllocated * w.vdi.stride + w.vdi.blockExtra) n
      w.vdi.blockSize block) := fun hn =>
    Step.store_free (h₁.kept hf₁).1 hn (by rw [hvdi₁]; omega)
  refine ends_bind ((writeExactFd_ends _ _ _ _).mono ?_ ?_)
  rotate_left
  · rintro e w₂ ⟨n, hn, rfl, hbl⟩
    exact ⟨h₁.trans hf₁ (hstore hn), .of_blamed hf₁ (hbl.earlier h₁.frame hu₁)⟩
  rintro _ w₂ ⟨hw₂, hu₂⟩
  have hstaged : Staged w₂ i := hw₂ ▸ Staged.of_store hw hi hold hroom h₁ hvdi₁ hblock
  have h₂ : Step (fun _ => False) w w₂ := h₁.trans hf₁ (hw₂ ▸ hstore (Nat.le_refl _))
  have hu := hu₁.trans h₁.frame hu₂
  have hvdi₂ : w₂.vdi = w.vdi := by rw [hw₂, store_vdi, hvdi₁]
  have hf₂ : w₂.vdi.failed = false := by rw [hvdi₂, hv.not_failed]
  have hpublish := hstaged.publish_ends
  rw [hvdi₂] at hpublish
  refine hpublish.mono ?_ ?_
  · rintro _ w₃ ⟨h₃, hf₃, hu₃, hown⟩
    exact ⟨h₂.trans hf₂ h₃, hf₃, hu.trans h₂.frame hu₃, hown⟩
  · rintro e w₃ ⟨h₃, he⟩
    exact ⟨h₂.trans hf₂ h₃, he.of_frame h₂.frame hu⟩

/-! ## Writing -/

/-- The offsets a write covers. -/
def Covers (offset size : Nat) (p : Nat) : Prop := offset ≤ p ∧ p < offset + size

/-- A write inside one block of the file, whole or torn, covers that range of the image. -/
theorem store_chunk {w : World} (hw : w.Good) {p chunk n : Nat} {d : ByteStore}
    (hc : chunk ≤ w.vdi.blockSize - p % w.vdi.blockSize) (hp : p < w.vdi.diskSize) (hn : n ≤ chunk) :
    Step (Covers p chunk) w (w.store
      (w.vdi.dataPos (w.vdi.blockMap (p / w.vdi.blockSize)) (p % w.vdi.blockSize)) n chunk d) := by
  have hv := hw.opened
  have hb := Nat.pos_of_ne_zero hv.shape.blockSize
  refine Step.store hw hn (Vdi.le_dataPos _ _ _) fun q hq hqo hle hlt => ?_
  have hmod := Nat.mod_lt q hb
  -- The entries are equal, or the blocks would be disjoint.
  have hentry : w.vdi.blockMap (q / w.vdi.blockSize) = w.vdi.blockMap (p / w.vdi.blockSize) := by
    by_contra hne
    refine w.vdi.dataPos_disjoint (p % w.vdi.blockSize +
      (w.vdi.dataPos (w.vdi.blockMap (q / w.vdi.blockSize)) (q % w.vdi.blockSize) -
        w.vdi.dataPos (w.vdi.blockMap (p / w.vdi.blockSize)) (p % w.vdi.blockSize)))
      hne hmod (by omega) ?_
    generalize hx : w.vdi.dataPos (w.vdi.blockMap (q / w.vdi.blockSize)) (q % w.vdi.blockSize) = x at *
    unfold Vdi.dataPos at hle ⊢
    omega
  have hidx := hv.map.inj _ (hv.block_lt hq) _ (hv.block_lt hp) hqo hentry
  rw [hentry] at hle hlt
  have hpd := Nat.div_add_mod p w.vdi.blockSize
  have hqd := Nat.div_add_mod q w.vdi.blockSize
  rw [hidx] at hqd
  unfold Vdi.dataPos at hle hlt
  constructor <;> omega

/-- What the image shows in a chunk after it is written. -/
theorem store_chunk_guest {w : World} {p chunk : Nat} {d : ByteStore}
    (hown : OwnEntry (w.vdi.blockMap (p / w.vdi.blockSize)))
    (hc : chunk ≤ w.vdi.blockSize - p % w.vdi.blockSize) {i : Nat} (hi : i < chunk) :
    (w.store (w.vdi.dataPos (w.vdi.blockMap (p / w.vdi.blockSize)) (p % w.vdi.blockSize))
      chunk chunk d).guest (p + i) = d i := by
  have hadd := @block_add w.vdi.blockSize p i (by omega)
  unfold World.guest
  rw [store_vdi, store_disk, guest_own (by rw [hadd.1]; exact hown), hadd.1, hadd.2, write_bytes]
  unfold Vdi.dataPos
  rw [patch_of_mem (by omega) (by omega)]
  congr 1
  omega

/-- The loop: what is written shows, and nothing else changes. -/
theorem writeVdiBlocks_ends : ∀ (fuel : Nat) (data : List UInt8) (offset : Nat) {w : World},
    w.Good → data.length ≤ fuel → offset + data.length ≤ w.vdi.diskSize →
    Ends (fun _ w' => Step (Covers offset data.length) w w' ∧ w'.vdi.failed = false ∧
        ∀ i < data.length, w'.guest (offset + i) = ofList data i)
      (fun e w' => Step (Covers offset data.length) w w' ∧ ErrorOf w w' e)
      (writeVdiBlocks fuel data offset w)
  | 0, data, offset, w, hw, hf, hend => by
    have hlen : data.length = 0 := by omega
    exact ends_pure ⟨.refl _ hw, hw.opened.not_failed, fun i hi => by omega⟩
  | fuel + 1, data, offset, w, hw, hf, hend => by
    have hv := hw.opened
    have hb := Nat.pos_of_ne_zero hv.shape.blockSize
    unfold writeVdiBlocks
    split
    · rename_i hnil
      subst hnil
      exact ends_pure ⟨.refl _ hw, hv.not_failed, fun i hi => absurd hi (Nat.not_lt_zero i)⟩
    rename_i hne
    have hlen := List.length_pos_iff.mpr hne
    refine ends_bind (ends_get ?_)
    dsimp only
    refine ends_bind (ends_check (fun hblk => ?_) fun hn => absurd (hv.block_lt (by omega)) hn)
    refine ends_bind ((materializeBlock_ends hw hblk).mono ?_ ?_)
    rotate_left
    · rintro e w' ⟨hs, he⟩
      exact ⟨hs.mono fun _ h => h.elim, he⟩
    rintro _ w₁ ⟨h₁, hf₁, hu₁, hown₁⟩
    obtain ⟨hw₁, _⟩ := h₁.kept hf₁
    obtain ⟨_, _, _, hfix⟩ := h₁.frame.fixed
    have hbs₁ : w₁.vdi.blockSize = w.vdi.blockSize := by rw [hfix]
    have hds₁ := h₁.frame.diskSize
    refine ends_bind (ends_get ?_)
    refine ends_bind (ends_check (fun _ => ?_) fun hn => absurd hown₁ hn)
    rw [← hbs₁] at hown₁ ⊢
    have hmod := Nat.mod_lt offset (hbs₁ ▸ hb)
    generalize hchunk : min (w₁.vdi.blockSize - offset % w₁.vdi.blockSize) data.length = chunk
    have hstore : ∀ {n : Nat}, n ≤ chunk → Step (Covers offset chunk) w₁ (w₁.store
        (w₁.vdi.dataPos (w₁.vdi.blockMap (offset / w₁.vdi.blockSize)) (offset % w₁.vdi.blockSize))
        n chunk (ofList data)) := fun hn =>
      store_chunk hw₁ (by omega) (by omega) hn
    have hcover : ∀ p, Covers offset chunk p → Covers offset data.length p := fun p hp =>
      ⟨hp.1, by have := hp.2; omega⟩
    have h₁' : Step (Covers offset data.length) w w₁ := h₁.mono fun _ h => h.elim
    refine ends_bind ((writeExactFd_ends _ _ _ _).mono ?_ ?_)
    rotate_left
    · rintro e w₂ ⟨n, hn, rfl, hbl⟩
      exact ⟨h₁'.trans hf₁ ((hstore hn).mono hcover),
        .of_blamed hf₁ (hbl.earlier h₁.frame hu₁)⟩
    rintro _ w₂ ⟨hw₂, hu₂⟩
    have h₂ : Step (Covers offset chunk) w₁ w₂ := hw₂ ▸ hstore (Nat.le_refl _)
    have hf₂ : w₂.vdi.failed = false := by rw [hw₂, store_vdi, hf₁]
    have hgood₂ := (h₂.kept hf₂).1
    have h₁₂ := h₁'.trans hf₁ (h₂.mono hcover)
    have hrest : ∀ p, Covers (offset + chunk) (data.drop chunk).length p →
        Covers offset data.length p := fun p hp => by
      have := hp.1
      have := hp.2
      rw [List.length_drop] at this
      constructor <;> omega
    refine (writeVdiBlocks_ends fuel (data.drop chunk) (offset + chunk) hgood₂
      (by rw [List.length_drop]; omega)
      (by rw [List.length_drop, h₂.frame.diskSize]; omega)).mono ?_ ?_
    · rintro _ w₃ ⟨h₃, hf₃, hdata⟩
      refine ⟨h₁₂.trans hf₂ (h₃.mono hrest), hf₃, fun i hi => ?_⟩
      by_cases hin : i < chunk
      · -- The later turns leave this chunk alone.
        rw [(h₃.kept hf₃).2 (offset + i) (by rw [h₂.frame.diskSize]; omega)
          fun hcov => by have := hcov.1; omega, hw₂]
        exact store_chunk_guest hown₁ (by omega) hin
      · have := hdata (i - chunk) (by rw [List.length_drop]; omega)
        rw [show offset + chunk + (i - chunk) = offset + i by omega] at this
        rw [this]
        simp only [ofList, List.getD_eq_getElem?_getD, List.getElem?_drop]
        rw [show chunk + (i - chunk) = i by omega]
    · rintro e w₃ ⟨h₃, he⟩
      exact ⟨h₁₂.trans hf₂ (h₃.mono hrest),
        he.of_frame h₁₂.frame (hu₁.trans h₁.frame hu₂)⟩

/-- Every call on a good handle. -/
theorem vdiBackendWrite_ends {w : World} (hw : w.Good) (data : List UInt8) (offset : Nat) :
    Ends (fun _ w' => Step (Covers offset data.length) w w' ∧ w'.vdi.failed = false ∧
        offset + data.length ≤ w.vdi.diskSize ∧
        ∀ i < data.length, w'.guest (offset + i) = ofList data i)
      (fun e w' => Step (Covers offset data.length) w w' ∧ ErrorOf w w' e)
      (vdiBackendWrite data offset w) := by
  have hnot := hw.opened.not_failed
  have hrefused : ∀ e : Errno, e ≠ .EUCLEAN → ErrorOf w w e := fun e he =>
    ⟨fun h => by simp [hnot] at h, fun h => absurd h he⟩
  unfold vdiBackendWrite
  refine ends_bind (ends_get ?_)
  refine ends_bind (ends_check (fun _ => ?_) fun hn => absurd hnot hn)
  refine ends_bind (ends_check (fun hrange => ?_) fun _ => ⟨.refl _ hw, hrefused _ (by decide)⟩)
  refine (writeVdiBlocks_ends _ data offset hw (Nat.le_refl _) (by omega)).mono ?_ fun _ _ h => h
  rintro _ w' ⟨hs, hf, hdata⟩
  exact ⟨hs, hf, by omega, hdata⟩

/-- A latched handle refuses every write. -/
theorem vdiBackendWrite_latched {w : World} (h : w.vdi.failed = true) (data : List UInt8)
    (offset : Nat) : vdiBackendWrite data offset w = .error .EUCLEAN w := by
  have hcheck : (check (w.vdi.failed = false) .EUCLEAN : VdiM PUnit) w = .error .EUCLEAN w := by
    unfold check
    rw [h]
    rfl
  exact bind_error.mpr (.inr ⟨w, w, rfl, bind_error.mpr (.inl hcheck)⟩)

end NextUfs.Core
