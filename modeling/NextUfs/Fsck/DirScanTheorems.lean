/-
NextUfs.Fsck.DirScanTheorems — what reading, scanning and flushing a directory
block leaves of its well-formed 1024-byte blocks.

Sections:

  §1 headers     — a record's three words in either byte order; swapping a
                   header exchanges the two readings.
  §2 chains      — well-formed records, the entries of a chain of records,
                   and the walk of `swap_dirblock`.
  §3 read pass   — a walk that gets to a well-formed block swaps exactly its
                   headers.
  §4 one turn    — what `fsck_readdir` and the callback do to the buffer.
  §5 the scan    — the run: everything scanned is tiled by records, and a
                   block that was swapped keeps its entries.
  §6 write pass  — a tiled buffer is swapped back record by record.
  §7 the block on disk.
-/
import NextUfs.Fsck.DirScan

namespace NextUfs.Fsck

open NextUfs.Core NextUfs.Lib NextUfs.Lib.ByteStore

/-! ## §1 Headers -/

/-- The three words at the front of a record. -/
structure Header where
  ino : Nat
  reclen : Nat
  namlen : Nat
  deriving DecidableEq, Repr

/-- A header as it is on disk. -/
def diskHeader (b : ByteStore) (p : Nat) : Header := ⟨be32 b p, be16 b (p + 4), be16 b (p + 6)⟩

/-- A header as the host reads it. -/
def hostHeader (b : ByteStore) (p : Nat) : Header := ⟨dIno b p, dReclen b p, dNamlen b p⟩

theorem diskHeader_congr {b c : ByteStore} {p : Nat} (h : ∀ i, p ≤ i → i < p + 8 → b i = c i) :
    diskHeader b p = diskHeader c p := by
  unfold diskHeader
  rw [be32_congr (p := p) (q := p) fun i hi => h (p + i) (by omega) (by omega),
    be16_congr (p := p + 4) (q := p + 4) fun i hi => h (p + 4 + i) (by omega) (by omega),
    be16_congr (p := p + 6) (q := p + 6) fun i hi => h (p + 6 + i) (by omega) (by omega)]

theorem hostHeader_congr {b c : ByteStore} {p q : Nat} (h : ∀ i < 8, b (p + i) = c (q + i)) :
    hostHeader b p = hostHeader c q := by
  have h₀ := h 0 (by omega)
  have h₄ := h 4 (by omega)
  have h₅ := h 5 (by omega)
  have h₆ := h 6 (by omega)
  have h₇ := h 7 (by omega)
  unfold hostHeader dIno dReclen dNamlen le16At
  rw [le32At_congr (p := p) (q := q) fun i hi => h i (by omega)]
  simp only [Nat.add_assoc] at h₄ h₅ h₆ h₇ ⊢
  rw [h₄, h₅, h₆, h₇]

theorem hostHeader_local (b c : ByteStore) (p : Nat) (h : ∀ i, p ≤ i → i < p + 8 → b i = c i) :
    hostHeader b p = hostHeader c p :=
  hostHeader_congr fun i hi => h (p + i) (Nat.le_add_right p i) (by omega)

/-- A header at the front of the bytes from `p` on. -/
theorem hostHeader_shift (b : ByteStore) (p : Nat) :
    hostHeader (fun i => b (p + i)) 0 = hostHeader b p :=
  hostHeader_congr fun i _ => by rw [Nat.zero_add]

/-- Swapping a header leaves the bytes around it. -/
theorem swapDirect_off (b : ByteStore) {p i : Nat} (h : i < p ∨ p + 8 ≤ i) :
    swapDirect b p i = b i := by
  unfold swapDirect reverseBytes
  rw [patch_of_not_mem (by omega), patch_of_not_mem (by omega), patch_of_not_mem (by omega)]

/-- A byte of the swapped header. -/
theorem swapDirect_at (b : ByteStore) (p : Nat) {i : Nat} (h : i < 8) :
    swapDirect b p (p + i) =
      b (p + (if i < 4 then 3 - i else if i < 6 then 9 - i else 13 - i)) := by
  unfold swapDirect reverseBytes patch
  obtain rfl | rfl | rfl | rfl | rfl | rfl | rfl | rfl :
    i = 0 ∨ i = 1 ∨ i = 2 ∨ i = 3 ∨ i = 4 ∨ i = 5 ∨ i = 6 ∨ i = 7 := by omega
  all_goals simp [Nat.add_assoc]

theorem hostHeader_swapDirect (b : ByteStore) (p : Nat) :
    hostHeader (swapDirect b p) p = diskHeader b p := by
  have h := fun i (hi : i < 8) => swapDirect_at b p hi
  have h₀ := h 0 (by omega)
  rw [Nat.add_zero] at h₀
  simp only [hostHeader, diskHeader, dIno, dReclen, dNamlen, le32At, le16At, be32, be16,
    Nat.add_assoc, h₀, h 1 (by omega), h 2 (by omega), h 3 (by omega), h 4 (by omega),
    h 5 (by omega), h 6 (by omega), h 7 (by omega), Header.mk.injEq]
  simp
  omega

theorem diskHeader_swapDirect (b : ByteStore) (p : Nat) :
    diskHeader (swapDirect b p) p = hostHeader b p := by
  have h := fun i (hi : i < 8) => swapDirect_at b p hi
  have h₀ := h 0 (by omega)
  rw [Nat.add_zero] at h₀
  simp only [hostHeader, diskHeader, dIno, dReclen, dNamlen, le32At, le16At, be32, be16,
    Nat.add_assoc, h₀, h 1 (by omega), h 2 (by omega), h 3 (by omega), h 4 (by omega),
    h 5 (by omega), h 6 (by omega), h 7 (by omega), Header.mk.injEq]
  simp
  omega

/-! ## §2 Chains of records -/

/-- A record of a well-formed block on disk. -/
structure GoodRecord (imax : Nat) (d : ByteStore) (p : Nat) : Prop where
  ino : (diskHeader d p).ino < imax
  aligned : (diskHeader d p).reclen % 4 = 0
  fits : DIRSIZ (diskHeader d p).namlen ≤ (diskHeader d p).reclen
  namlen : (diskHeader d p).namlen ≤ MAXNAMLEN
  name : (diskHeader d p).ino ≠ 0 → NameOk d p (diskHeader d p).namlen

/-- `[p, q)` is tiled by well-formed records. -/
inductive WellFormed (imax : Nat) (d : ByteStore) : Nat → Nat → Prop
  | done {q : Nat} : WellFormed imax d q q
  | record {p q : Nat} : GoodRecord imax d p → p + (diskHeader d p).reclen ≤ q →
      WellFormed imax d (p + (diskHeader d p).reclen) q → WellFormed imax d p q

/-- The chain of records from `p`, within `q`, has an entry. -/
inductive HasEntry (header : ByteStore → Nat → Header) (b : ByteStore) (ino : Nat)
    (name : List UInt8) : Nat → Nat → Prop
  | here {p q : Nat} : (header b p).ino = ino → ino ≠ 0 →
      slice b (p + 8) (header b p).namlen = name →
      DIRSIZ (header b p).namlen ≤ (header b p).reclen → p + (header b p).reclen ≤ q →
      HasEntry header b ino name p q
  | there {p q : Nat} : 8 ≤ (header b p).reclen → p + (header b p).reclen ≤ q →
      HasEntry header b ino name (p + (header b p).reclen) q → HasEntry header b ino name p q

/-- `[p, q)` is tiled by records in the host's order, each with room for its header. -/
inductive Tiles (b : ByteStore) : Nat → Nat → Prop
  | done {q : Nat} : Tiles b q q
  | record {p q : Nat} : 8 ≤ dReclen b p → p + dReclen b p ≤ q →
      Tiles b (p + dReclen b p) q → Tiles b p q

/-- The read pass, at `off`, gets to `s`, and no header before reaches into what starts there. -/
inductive Reaches (size s : Nat) : Nat → ByteStore → Prop
  | here {b : ByteStore} : Reaches size s s b
  | step {off : Nat} {b : ByteStore} : off + 8 ≤ s → (diskHeader b off).reclen ≠ 0 →
      off + (diskHeader b off).reclen ≤ size →
      Reaches size s (off + (diskHeader b off).reclen) (swapDirect b off) → Reaches size s off b

theorem DIRSIZ_ge (n : Nat) : 8 + n + 1 ≤ DIRSIZ n := by
  unfold DIRSIZ
  omega

theorem GoodRecord.reclen_ge {imax : Nat} {d : ByteStore} {p : Nat} (h : GoodRecord imax d p) :
    12 ≤ (diskHeader d p).reclen := by
  have h₁ := DIRSIZ_ge (diskHeader d p).namlen
  have h₂ := h.fits
  have h₃ := h.aligned
  omega

theorem WellFormed.le {imax : Nat} {d : ByteStore} {p q : Nat} (h : WellFormed imax d p q) :
    p ≤ q := by
  induction h with
  | done => exact Nat.le_refl _
  | record _ _ _ ih => omega

theorem WellFormed.first {imax : Nat} {d : ByteStore} {p q : Nat} (h : WellFormed imax d p q)
    (hlt : p < q) : GoodRecord imax d p ∧ p + (diskHeader d p).reclen ≤ q := by
  cases h with
  | done => omega
  | record hgood hle _ => exact ⟨hgood, hle⟩

theorem Tiles.le {b : ByteStore} {p q : Nat} (h : Tiles b p q) : p ≤ q := by
  induction h with
  | done => exact Nat.le_refl _
  | record _ _ _ ih => omega

theorem HasEntry.lt {header : ByteStore → Nat → Header} {b : ByteStore} {ino : Nat}
    {name : List UInt8} {p q : Nat} (h : HasEntry header b ino name p q) : p < q := by
  induction h with
  | @here p q _ _ _ hfit hq =>
    have := DIRSIZ_ge (header b p).namlen
    omega
  | there _ _ _ ih => omega

theorem Tiles.append {b : ByteStore} {p q r : Nat} (h : Tiles b p q) (h' : Tiles b q r) :
    Tiles b p r := by
  induction h with
  | done => exact h'
  | record h₈ hq _ ih => exact .record h₈ (by have := h'.le; omega) (ih h')

/-- Tiling, like the other chains, depends on the bytes of its range only. -/
theorem Tiles.congr {b c : ByteStore} {p q : Nat} (h : Tiles b p q)
    (hbc : ∀ i, p ≤ i → i < q → c i = b i) : Tiles c p q := by
  induction h with
  | done => exact .done
  | @record p q h₈ hq _ ih =>
    have hr : dReclen c p = dReclen b p :=
      congrArg Header.reclen (hostHeader_congr fun i hi => hbc (p + i) (by omega) (by omega))
    rw [← hr] at h₈ hq ih
    refine .record h₈ hq (ih fun i h₁ h₂ => hbc i (by omega) h₂)

theorem HasEntry.mono {header : ByteStore → Nat → Header} {b : ByteStore} {ino : Nat}
    {name : List UInt8} {p q r : Nat} (h : HasEntry header b ino name p q) (hqr : q ≤ r) :
    HasEntry header b ino name p r := by
  induction h with
  | here hi h₀ hn hfit hq => exact .here hi h₀ hn hfit (Nat.le_trans hq hqr)
  | there h₈ hq _ ih => exact .there h₈ (Nat.le_trans hq hqr) (ih hqr)

/-- A chain may be entered further back. -/
theorem Tiles.hasEntry {b : ByteStore} {ino : Nat} {name : List UInt8} {p q r : Nat}
    (h : Tiles b p q) (he : HasEntry hostHeader b ino name q r) :
    HasEntry hostHeader b ino name p r := by
  induction h with
  | done => exact he
  | record h₈ hq htiles ih =>
    have h₁ := htiles.le
    have h₂ := he.lt
    refine .there h₈ ?_ (ih he)
    change _ + dReclen b _ ≤ r
    omega

theorem slice_congr {b c : ByteStore} {p n : Nat} (h : ∀ i < n, b (p + i) = c (p + i)) :
    slice b p n = slice c p n := by
  unfold slice
  exact List.map_congr_left fun i hi => h i (List.mem_range.mp hi)

/-- An entry depends on the bytes of the chain only, in either order. -/
theorem HasEntry.congr {header : ByteStore → Nat → Header}
    (hlocal : ∀ (b c : ByteStore) (p : Nat), (∀ i, p ≤ i → i < p + 8 → b i = c i) →
      header b p = header c p)
    {b c : ByteStore} {ino : Nat} {name : List UInt8} {p q : Nat}
    (h : HasEntry header b ino name p q) (hbc : ∀ i, p ≤ i → i < q → c i = b i) :
    HasEntry header c ino name p q := by
  induction h with
  | @here p q hi h₀ hn hfit hq =>
    have h₉ := DIRSIZ_ge (header b p).namlen
    have hr : header c p = header b p := hlocal c b p fun i h₁ h₂ => hbc i h₁ (by omega)
    have hs : slice c (p + 8) (header b p).namlen = slice b (p + 8) (header b p).namlen :=
      slice_congr fun i hi => hbc (p + 8 + i) (by omega) (by omega)
    rw [← hr] at hi hfit hq hs hn
    exact .here hi h₀ (hs.trans hn) hfit hq
  | @there p q h₈ hq _ ih =>
    have hr : header c p = header b p := hlocal c b p fun i h₁ h₂ => hbc i h₁ (by omega)
    rw [← hr] at h₈ hq ih
    exact .there h₈ hq (ih fun i h₁ h₂ => hbc i (by omega) h₂)

theorem HasEntry.congr_host {b c : ByteStore} {ino : Nat} {name : List UInt8} {p q : Nat}
    (h : HasEntry hostHeader b ino name p q) (hbc : ∀ i, p ≤ i → i < q → c i = b i) :
    HasEntry hostHeader c ino name p q :=
  HasEntry.congr hostHeader_local h hbc

theorem HasEntry.congr_disk {b c : ByteStore} {ino : Nat} {name : List UInt8} {p q : Nat}
    (h : HasEntry diskHeader b ino name p q) (hbc : ∀ i, p ≤ i → i < q → c i = b i) :
    HasEntry diskHeader c ino name p q :=
  HasEntry.congr (fun _ _ _ => diskHeader_congr) h hbc

/-- A turn of the walk that does not end it. -/
theorem swapDirblockLoop_next {size fuel off : Nat} {w : Bool} {b : ByteStore} (reclen : Nat)
    (hfuel : size ≤ fuel + off) (hoff : off + 8 ≤ size)
    (hr : reclen = if w then (hostHeader b off).reclen else (diskHeader b off).reclen)
    (h₀ : reclen ≠ 0) (hle : off + reclen ≤ size) :
    ∃ fuel', size ≤ fuel' + (off + reclen) ∧
      swapDirblockLoop size w fuel off b =
        swapDirblockLoop size w fuel' (off + reclen) (swapDirect b off) := by
  obtain ⟨fuel, rfl⟩ : ∃ k, fuel = k + 1 := ⟨fuel - 1, by omega⟩
  have hlen : (if w then dReclen b off else dReclen (swapDirect b off) off) = reclen := by
    rw [hr, ← hostHeader_swapDirect b off]
    rfl
  refine ⟨fuel, by omega, ?_⟩
  rw [swapDirblockLoop]
  simp only [hlen]
  rw [if_pos hoff, if_neg (by omega)]

/-- The walk leaves what is behind it. -/
theorem swapDirblockLoop_below (size : Nat) (w : Bool) (fuel : Nat) :
    ∀ (off : Nat) (b : ByteStore) {i : Nat}, i < off → swapDirblockLoop size w fuel off b i = b i := by
  induction fuel with
  | zero => exact fun _ _ _ _ => rfl
  | succ fuel ih =>
    intro off b i hi
    rw [swapDirblockLoop]
    dsimp only
    generalize (if w then dReclen b off else dReclen (swapDirect b off) off) = reclen
    split
    · split
      · exact swapDirect_off b (.inl hi)
      · rw [ih _ _ (by omega), swapDirect_off b (.inl hi)]
    · rfl

/-- A turn of the walk, the last one or not, swaps its header and leaves the bytes up to the next
record. -/
theorem swapDirblockLoop_record {size fuel off reclen : Nat} {w : Bool} {b : ByteStore}
    (hfuel : size ≤ fuel + off) (hoff : off + 8 ≤ size)
    (hr : reclen = if w then (hostHeader b off).reclen else (diskHeader b off).reclen)
    {i : Nat} (hi : i < off + reclen) :
    swapDirblockLoop size w fuel off b i = swapDirect b off i := by
  obtain ⟨fuel, rfl⟩ : ∃ k, fuel = k + 1 := ⟨fuel - 1, by omega⟩
  have hlen : (if w then dReclen b off else dReclen (swapDirect b off) off) = reclen := by
    rw [hr, ← hostHeader_swapDirect b off]
    rfl
  rw [swapDirblockLoop]
  simp only [hlen]
  rw [if_pos hoff]
  split
  · rfl
  · exact swapDirblockLoop_below size w fuel _ _ hi

/-! ## §3 The read pass -/

/-- `[p, q)` is tiled by well-formed records of `d`, and `b` holds them with their headers in the
host's order. -/
inductive Swapped (imax : Nat) (d b : ByteStore) : Nat → Nat → Prop
  | done {q : Nat} : Swapped imax d b q q
  | record {p q : Nat} : GoodRecord imax d p → p + (diskHeader d p).reclen ≤ q →
      hostHeader b p = diskHeader d p →
      (∀ i, p + 8 ≤ i → i < p + (diskHeader d p).reclen → b i = d i) →
      Swapped imax d b (p + (diskHeader d p).reclen) q → Swapped imax d b p q

/-- The walk gets to `s` with everything from there on as it was. -/
theorem readPass_reaches {size s off : Nat} {b : ByteStore} (h : Reaches size s off b)
    (hs : s ≤ size) :
    ∀ fuel : Nat, size ≤ fuel + off → ∃ fuel' b', size ≤ fuel' + s ∧ (∀ i, s ≤ i → b' i = b i) ∧
      swapDirblockLoop size false fuel off b = swapDirblockLoop size false fuel' s b' := by
  induction h with
  | @here b => exact fun fuel hfuel => ⟨fuel, b, hfuel, fun _ _ => rfl, rfl⟩
  | @step off b h₈ h₀ hle _ ih =>
    intro fuel hfuel
    obtain ⟨k, hk, heq⟩ := swapDirblockLoop_next (w := false) _ hfuel (by omega) rfl h₀ hle
    obtain ⟨fuel', b', hfuel', hb', heq'⟩ := ih k hk
    refine ⟨fuel', b', hfuel', fun i hi => ?_, heq.trans heq'⟩
    rw [hb' i hi, swapDirect_off b (.inr (by omega))]

/-- From the start of a well-formed block on, the walk swaps each of its headers. -/
theorem readPass_wellFormed {imax size : Nat} {d : ByteStore} {p q : Nat}
    (h : WellFormed imax d p q) (hq : q ≤ size) :
    ∀ {fuel : Nat} {b : ByteStore}, size ≤ fuel + p → (∀ i, p ≤ i → i < q → b i = d i) →
      Swapped imax d (swapDirblockLoop size false fuel p b) p q := by
  induction h with
  | done => exact fun _ _ => .done
  | @record p q hgood hle hrest ih =>
    intro fuel b hfuel hb
    have h₁₂ := hgood.reclen_ge
    have hhead : diskHeader b p = diskHeader d p :=
      diskHeader_congr fun i h₁ h₂ => hb i h₁ (by omega)
    obtain ⟨k, hk, heq⟩ := swapDirblockLoop_next (w := false) (diskHeader d p).reclen
      hfuel (by omega) (congrArg Header.reclen hhead.symm) (by omega) (by omega)
    have hrec : ∀ i < p + (diskHeader d p).reclen,
        swapDirblockLoop size false fuel p b i = swapDirect b p i := fun i hi =>
      swapDirblockLoop_record (w := false) hfuel (by omega) (congrArg Header.reclen hhead.symm) hi
    refine .record hgood hle ?_ (fun i h₁ h₂ => ?_) ?_
    · rw [hostHeader_congr (c := swapDirect b p) (q := p) fun i hi => hrec (p + i) (by omega),
        hostHeader_swapDirect, hhead]
    · rw [hrec i h₂, swapDirect_off b (.inr h₁), hb i (by omega) (by omega)]
    · rw [heq]
      refine ih hq hk fun i h₁ h₂ => ?_
      rw [swapDirect_off b (.inr (by omega)), hb i (by omega) h₂]

/-- A block the read pass gets to is in the host's order in the buffer. -/
theorem getblk_swapped {imax size s e : Nat} {disk : ByteStore} (h : Reaches size s 0 disk)
    (hwf : WellFormed imax disk s e) (he : e ≤ size) :
    Swapped imax disk (getblk disk size) s e := by
  have hs := hwf.le
  obtain ⟨fuel, b, hfuel, hb, heq⟩ := readPass_reaches h (by omega) size (by omega)
  unfold getblk swapDirblock
  rw [heq]
  exact readPass_wellFormed hwf he hfuel fun i hi _ => hb i hi

/-! ## §4 One turn -/

/-- The end of the 1024-byte block that `p` is in. -/
def blockEnd (p : Nat) : Nat := p - p % DIRBLKSIZ + DIRBLKSIZ

/-- A record that will be looked at again was checked when the one before it was. -/
def Checked (imax : Nat) (s : Scan) : Prop :=
  s.id_loc % DIRBLKSIZ = 0 ∨ dircheck imax s.buf s.id_loc s.id_filesize = true

theorem dircheck_reclen {imax p : Nat} {b : ByteStore} {n : Int} (h : dircheck imax b p n = true) :
    8 ≤ dReclen b p ∧ p + dReclen b p ≤ blockEnd p := by
  unfold dircheck at h
  simp only [decide_eq_true_eq] at h
  obtain ⟨_, _, hleft, _, hsize, _⟩ := h
  have := DIRSIZ_ge (dNamlen b p)
  unfold blockEnd
  omega

/-- A record of a well-formed block passes the check once its header is in the host's order. -/
theorem dircheck_good {imax p : Nat} {d b : ByteStore} {n : Int} (h : GoodRecord imax d p)
    (hhead : hostHeader b p = diskHeader d p)
    (hname : ∀ i, p + 8 ≤ i → i < p + (diskHeader d p).reclen → b i = d i)
    (hend : p + (diskHeader d p).reclen ≤ blockEnd p) (hn : (blockEnd p : Int) - p ≤ n) :
    dircheck imax b p n = true := by
  have hr : dReclen b p = (diskHeader d p).reclen := congrArg Header.reclen hhead
  have hi : dIno b p = (diskHeader d p).ino := congrArg Header.ino hhead
  have hl : dNamlen b p = (diskHeader d p).namlen := congrArg Header.namlen hhead
  have h₁₂ := h.reclen_ge
  have hfits := h.fits
  have hsize := DIRSIZ_ge (diskHeader d p).namlen
  have hp : p % DIRBLKSIZ ≤ p := Nat.mod_le _ _
  unfold blockEnd at hend hn
  unfold dircheck
  simp only [hr, hi, hl, decide_eq_true_eq]
  refine ⟨h.ino, by omega, by omega, h.aligned, h.fits, by omega, h.namlen, ?_⟩
  by_cases h₀ : (diskHeader d p).ino = 0
  · exact .inl h₀
  · obtain ⟨hchars, hnul⟩ := h.name h₀
    refine .inr ⟨fun i hi => ?_, ?_⟩
    · rw [hname (p + 8 + i) (by omega) (by omega)]
      exact hchars i hi
    · rw [hname _ (by omega) (by omega)]
      exact hnul

theorem dReclen_setLe16 (b : ByteStore) (p v : Nat) :
    dReclen (setLe16 b (p + 4) v) p = v % 65536 := by
  unfold dReclen le16At setLe16
  rw [patch_of_mem (by omega) (by omega), patch_of_mem (by omega) (by omega)]
  simp [leBytes, UInt8.toNat_ofNat']
  omega

theorem hostHeader_clearBlock (b : ByteStore) (p : Nat) :
    hostHeader (clearBlock b p) p = ⟨0, DIRBLKSIZ, 0⟩ := by
  unfold hostHeader clearBlock dIno dReclen dNamlen le32At le16At setLe16 setLe32 patch
  simp [leBytes, DIRBLKSIZ, Nat.add_assoc]

theorem clearBlock_off (b : ByteStore) {p i : Nat} (h : i < p ∨ p + 9 ≤ i) :
    clearBlock b p i = b i := by
  unfold clearBlock setLe16 setLe32
  rw [patch_of_not_mem (by omega), patch_of_not_mem (by omega), patch_of_not_mem (by omega),
    patch_of_not_mem (by omega)]

/-- What a call of `fsck_readdir` that finds a record does. -/
structure Turn (imax : Nat) (s s' : Scan) : Prop where
  reclen : s.id_loc + dReclen s'.buf s.id_loc = s'.id_loc
  room : s.id_loc + 8 ≤ s'.id_loc
  within : s'.id_loc ≤ blockEnd s.id_loc
  filesize : s'.id_filesize + s'.id_loc = s.id_filesize + s.id_loc
  frame : ∀ i, i < s.id_loc ∨ s'.id_loc ≤ i → s'.buf i = s.buf i
  checked : Checked imax s'
  clean : s'.dirty = false → s'.buf = s.buf ∧ s.dirty = false

theorem absorbRest_turn {imax blksiz : Nat} {s : Scan} (hblk : blksiz % DIRBLKSIZ = 0)
    (hwhole : (s.id_filesize + s.id_loc) % DIRBLKSIZ = 0) (hpos : 0 < s.id_filesize)
    (hlt : s.id_loc < blksiz) (h₈ : 8 ≤ dReclen s.buf s.id_loc)
    (hend : s.id_loc + dReclen s.buf s.id_loc ≤ blockEnd s.id_loc) :
    Turn imax s (absorbRest imax blksiz s.id_loc { s with
      id_loc := s.id_loc + dReclen s.buf s.id_loc,
      id_filesize := s.id_filesize - dReclen s.buf s.id_loc }) := by
  unfold absorbRest
  dsimp only
  unfold blockEnd DIRBLKSIZ at *
  split
  next h₀ =>
    exact ⟨rfl, by dsimp only; omega, hend, by dsimp only; omega, fun _ _ => rfl, .inl h₀,
      fun h => ⟨rfl, h⟩⟩
  next h₀ =>
    split
    next hbad =>
      have hr : dReclen (setLe16 s.buf (s.id_loc + 4) (dReclen s.buf s.id_loc +
          (1024 - (s.id_loc + dReclen s.buf s.id_loc) % 1024))) s.id_loc =
          dReclen s.buf s.id_loc + (1024 - (s.id_loc + dReclen s.buf s.id_loc) % 1024) := by
        rw [dReclen_setLe16]
        omega
      refine ⟨?_, by dsimp only; omega, by dsimp only [blockEnd, DIRBLKSIZ]; omega,
        by dsimp only; omega, fun i hi => ?_, .inl (by dsimp only [DIRBLKSIZ]; omega), fun h => by cases h⟩
      · dsimp only
        rw [hr]
        omega
      · dsimp only at hi ⊢
        exact patch_of_not_mem (by omega)
    next hok =>
      refine ⟨rfl, by dsimp only; omega, hend, by dsimp only; omega, fun _ _ => rfl, .inr ?_,
        fun h => ⟨rfl, h⟩⟩
      by_contra hbad
      exact hok ⟨by omega, by omega, by simpa using hbad⟩

/-- In range, `fsck_readdir` finds a record. -/
theorem fsckReaddir_turn {imax blksiz : Nat} {s : Scan} (hblk : blksiz % DIRBLKSIZ = 0)
    (hwhole : (s.id_filesize + s.id_loc) % DIRBLKSIZ = 0) (hpos : 0 < s.id_filesize)
    (hlt : s.id_loc < blksiz) (hchecked : Checked imax s) :
    ∃ s', fsckReaddir imax blksiz s = (some s.id_loc, s') ∧ Turn imax s s' := by
  unfold fsckReaddir
  dsimp only
  split
  next hbad =>
    obtain ⟨h₀, -, -, hfail⟩ := hbad
    have hr : dReclen (clearBlock s.buf s.id_loc) s.id_loc = DIRBLKSIZ :=
      congrArg Header.reclen (hostHeader_clearBlock s.buf s.id_loc)
    refine ⟨_, rfl, ?_, ?_, ?_, ?_, fun i hi => ?_, .inl ?_, fun h => by cases h⟩
    · dsimp only
      rw [hr]
    · dsimp only [DIRBLKSIZ]
      omega
    · dsimp only [blockEnd]
      omega
    · dsimp only
      omega
    · dsimp only [DIRBLKSIZ] at hi ⊢
      exact clearBlock_off s.buf (by omega)
    · dsimp only [DIRBLKSIZ] at h₀ ⊢
      omega
  next hok =>
    have hcheck : dircheck imax s.buf s.id_loc s.id_filesize = true := by
      rcases hchecked with h₀ | h
      · by_contra hbad
        exact hok ⟨h₀, hpos, hlt, by simpa using hbad⟩
      · exact h
    obtain ⟨h₈, hend⟩ := dircheck_reclen hcheck
    rw [if_neg (by omega)]
    exact ⟨_, rfl, absorbRest_turn hblk hwhole hpos hlt h₈ hend⟩

/-- A record that is right, with a right one behind it in its block, is left as it is. -/
theorem fsckReaddir_sound {imax blksiz : Nat} {s : Scan} (hpos : 0 < s.id_filesize)
    (hlt : s.id_loc < blksiz) (hcheck : dircheck imax s.buf s.id_loc s.id_filesize = true)
    (hnext : Checked imax { s with
      id_loc := s.id_loc + dReclen s.buf s.id_loc,
      id_filesize := s.id_filesize - dReclen s.buf s.id_loc }) :
    fsckReaddir imax blksiz s = (some s.id_loc, { s with
      id_loc := s.id_loc + dReclen s.buf s.id_loc,
      id_filesize := s.id_filesize - dReclen s.buf s.id_loc }) := by
  unfold fsckReaddir
  dsimp only
  rw [if_neg (by simp [hcheck]), if_neg (by omega)]
  unfold absorbRest
  dsimp only
  rcases hnext with h₀ | hok
  · rw [if_pos h₀]
  · rw [if_neg (c := _ ∧ _ ∧ _) (by
      rintro ⟨-, -, hbad⟩
      rw [hok] at hbad
      cases hbad), ite_self]

theorem dircheck_congr {imax p : Nat} {b c : ByteStore} {n : Int} (h : ∀ i, p ≤ i → b i = c i) :
    dircheck imax b p n = dircheck imax c p n := by
  have hhead : hostHeader b p = hostHeader c p := hostHeader_congr fun i _ => h (p + i) (by omega)
  have hr : dReclen b p = dReclen c p := congrArg Header.reclen hhead
  have hi : dIno b p = dIno c p := congrArg Header.ino hhead
  have hl : dNamlen b p = dNamlen c p := congrArg Header.namlen hhead
  have hname : NameOk b p (dNamlen c p) ↔ NameOk c p (dNamlen c p) := by
    unfold NameOk
    rw [h (p + 8 + dNamlen c p) (by omega)]
    refine and_congr_left' (forall₂_congr fun i _ => ?_)
    rw [h (p + 8 + i) (by omega)]
  unfold dircheck
  simp only [hr, hi, hl, hname]

/-! ## §5 The scan -/

section
variable {σ : Type} {imax blksiz : Nat} {id_func : DirFunc σ}

/-- What `dirscan` does with what the callback hands back. -/
def handled (s : Scan) (p : Nat) (h : Handled σ) : Scan :=
  if h.altered then { s with buf := patch s.buf p (dReclen s.buf p) h.bytes, dirty := true } else s

/-- What `dirscan` asks of a callback: it lets the scan go on, and what it makes of a record is
again records with room for their headers. -/
structure KeepsRecords (id_func : DirFunc σ) : Prop where
  goes_on : ∀ a b n, (id_func a b n).stop = false
  tiles : ∀ a b n, (id_func a b n).altered = true → Tiles (id_func a b n).bytes 0 n

/-- The callback has no objection to an entry. -/
def LeavesEntry (id_func : DirFunc σ) (ino : Nat) (name : List UInt8) : Prop :=
  ∀ a b n, dIno b 0 = ino → slice b 8 (dNamlen b 0) = name → (id_func a b n).altered = false

/-- The callback has no use for unused records. -/
def LeavesUnused (id_func : DirFunc σ) : Prop :=
  ∀ a b n, dIno b 0 = 0 → (id_func a b n).altered = false

theorem dirscanLoop_done {fuel : Nat} {s : Scan} {a : σ}
    (h : s.id_filesize ≤ 0 ∨ blksiz ≤ s.id_loc) :
    dirscanLoop imax blksiz id_func fuel s a = (s, a, false) := by
  cases fuel with
  | zero => rfl
  | succ fuel =>
    have hread : fsckReaddir imax blksiz s = (none, s) := by
      unfold fsckReaddir
      dsimp only
      rw [if_neg (by omega), if_pos h]
    rw [dirscanLoop, hread]

theorem dirscanLoop_turn {fuel p : Nat} {s s' : Scan} {a : σ}
    (hstop : ∀ a b n, (id_func a b n).stop = false)
    (h : fsckReaddir imax blksiz s = (some p, s')) :
    dirscanLoop imax blksiz id_func (fuel + 1) s a =
      dirscanLoop imax blksiz id_func fuel
        (handled s' p (id_func a (fun i => s'.buf (p + i)) (dReclen s'.buf p)))
        (id_func a (fun i => s'.buf (p + i)) (dReclen s'.buf p)).state := by
  rw [dirscanLoop, h]
  dsimp only
  rw [hstop, if_neg Bool.false_ne_true]
  rfl

/-- What every turn keeps holds when the scan is done. -/
theorem dirscanLoop_run (imax blksiz : Nat) (P : Scan → Prop)
    (hstop : ∀ a b n, (id_func a b n).stop = false)
    (hstep : ∀ s (a : σ), P s → 0 < s.id_filesize → s.id_loc < blksiz →
      ∃ s', fsckReaddir imax blksiz s = (some s.id_loc, s') ∧ s.id_loc < s'.id_loc ∧
        P (handled s' s.id_loc
          (id_func a (fun i => s'.buf (s.id_loc + i)) (dReclen s'.buf s.id_loc)))) :
    ∀ (fuel : Nat) (s : Scan) (a : σ), P s → blksiz < fuel + s.id_loc →
      P (dirscanLoop imax blksiz id_func fuel s a).1 ∧
      ((dirscanLoop imax blksiz id_func fuel s a).1.id_filesize ≤ 0 ∨
        blksiz ≤ (dirscanLoop imax blksiz id_func fuel s a).1.id_loc) := by
  intro fuel
  induction fuel with
  | zero =>
    intro s a hs hfuel
    exact ⟨hs, .inr (by simp only [dirscanLoop]; omega)⟩
  | succ fuel ih =>
    intro s a hs hfuel
    by_cases hdone : s.id_filesize ≤ 0 ∨ blksiz ≤ s.id_loc
    · rw [dirscanLoop_done hdone]
      exact ⟨hs, hdone⟩
    · obtain ⟨s', hread, hlt, hP⟩ := hstep s a hs (by omega) (by omega)
      rw [dirscanLoop_turn hstop hread]
      refine ih _ _ hP ?_
      have hloc : (handled s' s.id_loc (id_func a (fun i => s'.buf (s.id_loc + i))
          (dReclen s'.buf s.id_loc))).id_loc = s'.id_loc := by
        unfold handled
        split <;> rfl
      omega

/-- A turn with its callback. -/
structure Advance (imax : Nat) (s t : Scan) : Prop where
  room : s.id_loc + 8 ≤ t.id_loc
  within : t.id_loc ≤ blockEnd s.id_loc
  filesize : t.id_filesize + t.id_loc = s.id_filesize + s.id_loc
  tiles : Tiles t.buf s.id_loc t.id_loc
  frame : ∀ i, i < s.id_loc ∨ t.id_loc ≤ i → t.buf i = s.buf i
  checked : Checked imax t
  clean : t.dirty = false → t.buf = s.buf ∧ s.dirty = false

/-- Records put into a buffer are records there. -/
theorem Tiles.patch {f : ByteStore} {x n : Nat} (h : Tiles f x n) (b : ByteStore) (p : Nat) :
    Tiles (ByteStore.patch b p n f) (p + x) (p + n) := by
  induction h with
  | done => exact .done
  | @record x n h₈ hn _ ih =>
    have hr : dReclen (ByteStore.patch b p n f) (p + x) = dReclen f x :=
      congrArg Header.reclen (hostHeader_congr fun i hi => by
        rw [patch_of_mem (by omega) (by omega), Nat.add_assoc, Nat.add_sub_cancel_left])
    refine .record (by omega) (by omega) ?_
    rw [hr, Nat.add_assoc]
    exact ih

theorem Turn.advance {s s' : Scan} (h : Turn imax s s') {r : Handled σ}
    (hr : r.altered = true → Tiles r.bytes 0 (dReclen s'.buf s.id_loc)) :
    Advance imax s (handled s' s.id_loc r) := by
  have hlen := h.reclen
  have hroom := h.room
  unfold handled
  split
  next halt =>
    have hoff : ∀ i, i < s.id_loc ∨ s'.id_loc ≤ i →
        patch s'.buf s.id_loc (dReclen s'.buf s.id_loc) r.bytes i = s'.buf i := fun i hi =>
      patch_of_not_mem (by omega)
    refine ⟨hroom, h.within, h.filesize, ?_, fun i hi => ?_, ?_, fun hd => by cases hd⟩
    · have := (hr halt).patch s'.buf s.id_loc
      rwa [Nat.add_zero, hlen] at this
    · exact (hoff i hi).trans (h.frame i hi)
    · refine h.checked.imp id fun hc => ?_
      rw [← hc]
      exact dircheck_congr fun i hi => hoff i (.inr hi)
  next =>
    refine ⟨hroom, h.within, h.filesize, ?_, h.frame, h.checked, h.clean⟩
    refine .record (by omega) (by omega) ?_
    rw [hlen]
    exact .done

/-- A scan under way in a buffer that held `b₀`. -/
structure Scanned (imax : Nat) (b₀ : ByteStore) (filesize : Int) (s : Scan) : Prop where
  filesize : s.id_filesize + s.id_loc = filesize
  checked : Checked imax s
  tiles : Tiles s.buf 0 s.id_loc
  rest : ∀ i, s.id_loc ≤ i → s.buf i = b₀ i
  clean : s.dirty = false → s.buf = b₀

theorem Scanned.next {b₀ : ByteStore} {n : Int} {s t : Scan} (h : Scanned imax b₀ n s)
    (ha : Advance imax s t) : Scanned imax b₀ n t where
  filesize := ha.filesize.trans h.filesize
  checked := ha.checked
  tiles := (h.tiles.congr fun i _ hi => ha.frame i (.inl hi)).append ha.tiles
  rest := fun i hi => by
    have := ha.room
    rw [ha.frame i (.inr hi), h.rest i (by omega)]
  clean := fun hd => by
    obtain ⟨hbuf, hs⟩ := ha.clean hd
    rw [hbuf, h.clean hs]

theorem Swapped.congr {d b c : ByteStore} {p q : Nat} (h : Swapped imax d b p q)
    (hbc : ∀ i, p ≤ i → i < q → c i = b i) : Swapped imax d c p q := by
  induction h with
  | done => exact .done
  | @record p q hgood hle hhead hname _ ih =>
    have h₁₂ := hgood.reclen_ge
    refine .record hgood hle ?_ (fun i h₁ h₂ => ?_) (ih fun i h₁ h₂ => hbc i (by omega) h₂)
    · rw [hostHeader_congr (c := b) (q := p) fun i hi => hbc (p + i) (by omega) (by omega), hhead]
    · rw [hbc i (by omega) (by omega), hname i h₁ h₂]

/-- The first record of a swapped block, read in range, is left as it is, and so is the rest. -/
theorem fsckReaddir_swapped {d : ByteStore} {s : Scan} {e : Nat}
    (h : Swapped imax d s.buf s.id_loc e) (hlt : s.id_loc < e) (he : e = blockEnd s.id_loc)
    (hn : (e : Int) ≤ s.id_filesize + s.id_loc) (hblk : e ≤ blksiz) :
    hostHeader s.buf s.id_loc = diskHeader d s.id_loc ∧
    s.id_loc + dReclen s.buf s.id_loc ≤ e ∧
    slice s.buf (s.id_loc + 8) (diskHeader d s.id_loc).namlen =
      slice d (s.id_loc + 8) (diskHeader d s.id_loc).namlen ∧
    DIRSIZ (diskHeader d s.id_loc).namlen ≤ (diskHeader d s.id_loc).reclen ∧
    Swapped imax d s.buf (s.id_loc + dReclen s.buf s.id_loc) e ∧
    fsckReaddir imax blksiz s = (some s.id_loc, { s with
      id_loc := s.id_loc + dReclen s.buf s.id_loc,
      id_filesize := s.id_filesize - dReclen s.buf s.id_loc }) := by
  cases h with
  | done => omega
  | record hgood hle hhead hname hrest =>
    have hr : dReclen s.buf s.id_loc = (diskHeader d s.id_loc).reclen := congrArg Header.reclen hhead
    have h₁₂ := hgood.reclen_ge
    have hsize := DIRSIZ_ge (diskHeader d s.id_loc).namlen
    have hfits := hgood.fits
    have hcheck : dircheck imax s.buf s.id_loc s.id_filesize = true :=
      dircheck_good hgood hhead hname (by omega) (by omega)
    rw [← hr] at hle hrest
    refine ⟨hhead, hle, slice_congr fun i hi => hname _ (by omega) (by omega), hfits, hrest,
      fsckReaddir_sound (by omega) (by omega) hcheck ?_⟩
    rw [← hr] at h₁₂
    generalize hp : s.id_loc + dReclen s.buf s.id_loc = p at hrest hle
    unfold blockEnd DIRBLKSIZ at *
    cases hrest with
    | done => exact .inl (by dsimp only [DIRBLKSIZ]; omega)
    | record hgood' hle' hhead' hname' _ =>
      have h₁₂' := hgood'.reclen_ge
      refine .inr (dircheck_good hgood' hhead' hname' ?_ ?_)
      all_goals
        unfold blockEnd DIRBLKSIZ
        dsimp only
        omega

/-- An entry of a block that is in the host's order, while a scan passes through the block. -/
inductive EntryKept (imax : Nat) (d : ByteStore) (s₀ e ino : Nat) (name : List UInt8) (s : Scan) :
    Prop
  | ahead : s.id_loc < s₀ → EntryKept imax d s₀ e ino name s
  | inside : s₀ ≤ s.id_loc → s.id_loc ≤ e → Tiles s.buf 0 s₀ → Tiles s.buf s₀ s.id_loc →
      Swapped imax d s.buf s.id_loc e → HasEntry hostHeader s.buf ino name s₀ s.id_loc ∨
        HasEntry diskHeader d ino name s.id_loc e → EntryKept imax d s₀ e ino name s
  | behind : e ≤ s.id_loc → Tiles s.buf 0 s₀ → HasEntry hostHeader s.buf ino name s₀ e →
      EntryKept imax d s₀ e ino name s

/-- Behind the block, and at its end, the entry is in the buffer. -/
theorem EntryKept.found {d : ByteStore} {s₀ e ino : Nat} {name : List UInt8} {s : Scan}
    (h : EntryKept imax d s₀ e ino name s) (hs : s₀ ≤ e) (he : e ≤ s.id_loc) :
    Tiles s.buf 0 s₀ ∧ HasEntry hostHeader s.buf ino name s₀ e := by
  cases h with
  | ahead h => omega
  | inside _ hle hfront _ _ hentry =>
    have heq : s.id_loc = e := by omega
    rw [heq] at hentry
    exact ⟨hfront, hentry.resolve_right fun h => absurd h.lt (Nat.lt_irrefl e)⟩
  | behind _ hfront h => exact ⟨hfront, h⟩

/-- A turn in range, with its callback. -/
theorem scan_turn {b₀ : ByteStore} {n : Int} {s : Scan} (hf : KeepsRecords id_func)
    (hblk : blksiz % DIRBLKSIZ = 0) (hn : n % DIRBLKSIZ = 0) (h : Scanned imax b₀ n s)
    (hpos : 0 < s.id_filesize) (hlt : s.id_loc < blksiz) (a : σ) :
    ∃ s', fsckReaddir imax blksiz s = (some s.id_loc, s') ∧ s.id_loc < s'.id_loc ∧
      Advance imax s (handled s' s.id_loc
        (id_func a (fun i => s'.buf (s.id_loc + i)) (dReclen s'.buf s.id_loc))) := by
  obtain ⟨s', hread, hturn⟩ :=
    fsckReaddir_turn hblk (by rw [h.filesize]; exact hn) hpos hlt h.checked
  have := hturn.room
  exact ⟨s', hread, by omega, hturn.advance fun halt => hf.tiles _ _ _ halt⟩

/-- Where a turn leads from before a block: not past its start. -/
theorem Advance.le_start {s t : Scan} (h : Advance imax s t) {s₀ : Nat} (hs₀ : s₀ % DIRBLKSIZ = 0)
    (hlt : s.id_loc < s₀) : t.id_loc ≤ s₀ := by
  have := h.within
  unfold blockEnd DIRBLKSIZ at *
  omega

/-- What is behind a scan stays. -/
theorem Advance.entry {s t : Scan} (h : Advance imax s t) {ino p q : Nat} {name : List UInt8}
    (hq : q ≤ s.id_loc) (he : HasEntry hostHeader s.buf ino name p q) :
    HasEntry hostHeader t.buf ino name p q :=
  he.congr_host fun i _ hi => h.frame i (.inl (by omega))

/-- A turn inside a block that is in the host's order. -/
theorem entryKept_inside {b₀ : ByteStore} {n : Int} {d : ByteStore} {s₀ e ino : Nat}
    {name : List UInt8} {s : Scan}
    (hleave : LeavesEntry id_func ino name) (hs₀ : s₀ % DIRBLKSIZ = 0) (he : e = s₀ + DIRBLKSIZ)
    (heb : e ≤ blksiz) (hen : (e : Int) ≤ n) (h : Scanned imax b₀ n s) (h₁ : s₀ ≤ s.id_loc)
    (h₂ : s.id_loc < e) (hfront : Tiles s.buf 0 s₀) (htiles : Tiles s.buf s₀ s.id_loc)
    (hsw : Swapped imax d s.buf s.id_loc e)
    (hentry : HasEntry hostHeader s.buf ino name s₀ s.id_loc ∨
      HasEntry diskHeader d ino name s.id_loc e) {s' : Scan} {a : σ}
    (hread : fsckReaddir imax blksiz s = (some s.id_loc, s'))
    (hadv : Advance imax s (handled s' s.id_loc
      (id_func a (fun i => s'.buf (s.id_loc + i)) (dReclen s'.buf s.id_loc)))) :
    EntryKept imax d s₀ e ino name (handled s' s.id_loc
      (id_func a (fun i => s'.buf (s.id_loc + i)) (dReclen s'.buf s.id_loc))) := by
  obtain ⟨hhead, hle, hname, hfits, hrest, hsame⟩ := fsckReaddir_swapped hsw h₂
    (by unfold blockEnd DIRBLKSIZ at *; omega) (by rw [h.filesize]; exact hen) heb
  rw [hread, Prod.mk.injEq] at hsame
  obtain rfl := hsame.2
  dsimp only at hadv ⊢
  have hr : dReclen s.buf s.id_loc = (diskHeader d s.id_loc).reclen := congrArg Header.reclen hhead
  -- whatever the callback did, the position is the end of the record
  generalize hres : id_func a (fun i => s.buf (s.id_loc + i)) (dReclen s.buf s.id_loc) = r at hadv ⊢
  have hloc : (handled { s with
      id_loc := s.id_loc + dReclen s.buf s.id_loc,
      id_filesize := s.id_filesize - dReclen s.buf s.id_loc } s.id_loc r).id_loc =
      s.id_loc + dReclen s.buf s.id_loc := by
    unfold handled
    split <;> rfl
  have hbuf : r.altered = false → (handled { s with
      id_loc := s.id_loc + dReclen s.buf s.id_loc,
      id_filesize := s.id_filesize - dReclen s.buf s.id_loc } s.id_loc r).buf = s.buf := by
    intro halt
    simp [handled, halt]
  generalize handled { s with
      id_loc := s.id_loc + dReclen s.buf s.id_loc,
      id_filesize := s.id_filesize - dReclen s.buf s.id_loc } s.id_loc r = t at *
  refine .inside (by omega) (by omega) (hfront.congr fun i _ hi => hadv.frame i (.inl (by omega)))
    ((htiles.congr fun i _ hi => hadv.frame i (.inl hi)).append hadv.tiles) ?_ ?_
  · rw [hloc]
    exact hrest.congr fun i hi _ => hadv.frame i (.inr (by omega))
  · rcases hentry with hentry | hentry
    · exact .inl ((hadv.entry (Nat.le_refl _) hentry).mono (by omega))
    · cases hentry with
      | here hi h₀ hn' _ _ =>
        -- the callback leaves this record alone
        refine .inl ?_
        have halt : r.altered = false := by
          rw [← hres]
          refine hleave _ _ _ ?_ ?_
          · rw [← hi, ← hhead]
            exact congrArg Header.ino (hostHeader_shift s.buf s.id_loc)
          · have hl : dNamlen (fun i => s.buf (s.id_loc + i)) 0 = (diskHeader d s.id_loc).namlen := by
              rw [← hhead]
              exact congrArg Header.namlen (hostHeader_shift s.buf s.id_loc)
            rw [hl, ← hn', ← hname]
            unfold slice
            simp only [Nat.add_assoc]
        rw [hbuf halt, hloc]
        refine htiles.hasEntry (.here ?_ h₀ ?_ ?_ (by rw [hhead, hr]))
        · rw [hhead, hi]
        · rw [hhead, hname, hn']
        · rw [hhead]
          exact hfits
      | there _ _ hentry =>
        rw [hloc, hr]
        exact .inr hentry

/-- A turn keeps the entry, wherever the scan is. -/
theorem entryKept_turn {b₀ : ByteStore} {n : Int} {d : ByteStore} {s₀ e ino : Nat}
    {name : List UInt8} {s : Scan}
    (hleave : LeavesEntry id_func ino name) (hs₀ : s₀ % DIRBLKSIZ = 0) (he : e = s₀ + DIRBLKSIZ)
    (heb : e ≤ blksiz) (hen : (e : Int) ≤ n) (hsw : Swapped imax d b₀ s₀ e)
    (hentry : HasEntry diskHeader d ino name s₀ e) (h : Scanned imax b₀ n s)
    (hk : EntryKept imax d s₀ e ino name s) {s' : Scan} {a : σ}
    (hread : fsckReaddir imax blksiz s = (some s.id_loc, s'))
    (hadv : Advance imax s (handled s' s.id_loc
      (id_func a (fun i => s'.buf (s.id_loc + i)) (dReclen s'.buf s.id_loc)))) :
    EntryKept imax d s₀ e ino name (handled s' s.id_loc
      (id_func a (fun i => s'.buf (s.id_loc + i)) (dReclen s'.buf s.id_loc))) := by
  have hroom := hadv.room
  by_cases hend : e ≤ s.id_loc
  · obtain ⟨hfront, hfound⟩ := hk.found (by omega) hend
    exact .behind (by omega) (hfront.congr fun i _ hi => hadv.frame i (.inl (by omega)))
      (hadv.entry hend hfound)
  · cases hk with
    | ahead hlt =>
      have hstart := hadv.le_start hs₀ hlt
      rcases Nat.lt_or_eq_of_le hstart with hlt' | heq
      · exact .ahead hlt'
      · refine .inside (by omega) (by omega) (heq ▸ (h.next hadv).tiles) ?_ ?_ ?_
        · rw [heq]
          exact .done
        · rw [heq]
          exact hsw.congr fun i hi _ => (h.next hadv).rest i (by omega)
        · rw [heq]
          exact .inr hentry
    | inside h₁ _ hfront htiles hsw hentry =>
      exact entryKept_inside hleave hs₀ he heb hen h h₁ (by omega) hfront htiles hsw hentry hread
        hadv
    | behind hle _ _ => omega

/-- A scan that starts. -/
theorem scanned_start (b₀ : ByteStore) (n : Int) :
    Scanned imax b₀ n { buf := b₀, dirty := false, id_loc := 0, id_filesize := n, corrupted := 0 } :=
  ⟨by simp, .inl rfl, .done, fun _ _ => rfl, fun _ => rfl⟩

/-- After the scan of a buffer, the entries of a block that was in the host's order are there. -/
theorem dirscan_keeps {b₀ : ByteStore} {n : Int} {d : ByteStore} {s₀ ino : Nat}
    {name : List UInt8} (hf : KeepsRecords id_func) (hleave : LeavesEntry id_func ino name)
    (hblk : blksiz % DIRBLKSIZ = 0) (hn : n % DIRBLKSIZ = 0) (hs₀ : s₀ % DIRBLKSIZ = 0)
    (heb : s₀ + DIRBLKSIZ ≤ blksiz) (hen : ((s₀ + DIRBLKSIZ : Nat) : Int) ≤ n)
    (hsw : Swapped imax d b₀ s₀ (s₀ + DIRBLKSIZ))
    (hentry : HasEntry diskHeader d ino name s₀ (s₀ + DIRBLKSIZ)) (a : σ) {s : Scan}
    (hs : s = (dirscan imax blksiz id_func ⟨b₀, false, 0, n, 0⟩ a).1) :
    (s.dirty = false → s.buf = b₀) ∧ Tiles s.buf 0 s₀ ∧
      HasEntry hostHeader s.buf ino name s₀ (s₀ + DIRBLKSIZ) := by
  have hstart : EntryKept imax d s₀ (s₀ + DIRBLKSIZ) ino name ⟨b₀, false, 0, n, 0⟩ := by
    rcases Nat.eq_zero_or_pos s₀ with rfl | hpos
    · exact .inside (Nat.le_refl _) (Nat.zero_le _) .done .done hsw (.inr hentry)
    · exact .ahead hpos
  obtain ⟨⟨hscan, hkept⟩, hdone⟩ := dirscanLoop_run imax blksiz
    (fun s => Scanned imax b₀ n s ∧ EntryKept imax d s₀ (s₀ + DIRBLKSIZ) ino name s)
    hf.goes_on (fun s a ⟨h, hk⟩ hpos hlt => by
      obtain ⟨s', hread, hmove, hadv⟩ := scan_turn hf hblk hn h hpos hlt a
      exact ⟨s', hread, hmove, h.next hadv,
        entryKept_turn hleave hs₀ rfl heb hen hsw hentry h hk hread hadv⟩)
    (blksiz + 1) ⟨b₀, false, 0, n, 0⟩ a ⟨scanned_start b₀ n, hstart⟩ (by simp)
  have hfs := hscan.filesize
  rw [dirscan] at hs
  rw [← hs] at hscan hkept hdone hfs
  exact ⟨hscan.clean, hkept.found (by omega) (by omega)⟩

/-! ### A block that was not swapped -/

/-- No record length is good in both orders. -/
theorem reclen_one_order {x y : Nat} (h₁ : 12 ≤ x * 256 + y) (h₂ : x * 256 + y ≤ 1024)
    (h₃ : (x * 256 + y) % 4 = 0) (h₄ : 9 ≤ x + 256 * y) (h₅ : x + 256 * y ≤ 1024)
    (h₆ : (x + 256 * y) % 4 = 0) : False := by
  obtain rfl | rfl | rfl | rfl | rfl : y = 0 ∨ y = 1 ∨ y = 2 ∨ y = 3 ∨ y = 4 := by omega
  all_goals omega

/-- A good record read in the wrong order never passes the check. -/
theorem dircheck_unswapped {p : Nat} {d b : ByteStore} {n : Int} (h : GoodRecord imax d p)
    (hend : p + (diskHeader d p).reclen ≤ blockEnd p) (hb : ∀ i, p ≤ i → i < p + 8 → b i = d i) :
    dircheck imax b p n = false := by
  by_contra hpass
  rw [Bool.not_eq_false] at hpass
  have hroom := (dircheck_reclen hpass).2
  have h₉ : 9 ≤ DIRSIZ (dNamlen b p) := by
    have := DIRSIZ_ge (dNamlen b p)
    omega
  have hspan : blockEnd p ≤ p + 1024 := by
    unfold blockEnd DIRBLKSIZ
    omega
  have hbig' : (diskHeader d p).reclen ≤ 1024 := by omega
  have hlittle' : dReclen b p ≤ 1024 := by omega
  unfold dircheck at hpass
  simp only [decide_eq_true_eq] at hpass
  obtain ⟨-, -, -, h4, hsize, -⟩ := hpass
  have h₁₂ := h.reclen_ge
  have halign := h.aligned
  have hlittle : dReclen b p = (d (p + 4)).toNat + 256 * (d (p + 5)).toNat := by
    unfold dReclen le16At
    rw [hb (p + 4) (by omega) (by omega), hb (p + 5) (by omega) (by omega)]
  have hbig : (diskHeader d p).reclen = (d (p + 4)).toNat * 256 + (d (p + 5)).toNat := rfl
  rw [hlittle] at h4 hlittle' hsize
  rw [hbig] at h₁₂ halign hbig'
  exact reclen_one_order h₁₂ hbig' halign (Nat.le_trans h₉ hsize) hlittle' h4

/-- What becomes of a block that was not swapped, while a scan passes through. -/
def Cleared (s₀ : Nat) (s : Scan) : Prop :=
  s.id_loc ≤ s₀ ∨ s₀ + DIRBLKSIZ ≤ s.id_loc ∧ Tiles s.buf 0 s₀ ∧ s.dirty = true ∧
    hostHeader s.buf s₀ = ⟨0, DIRBLKSIZ, 0⟩

theorem cleared_turn {b₀ : ByteStore} {n : Int} {s₀ : Nat} {s : Scan}
    (hunused : LeavesUnused id_func) (hs₀ : s₀ % DIRBLKSIZ = 0) (hblk : s₀ + DIRBLKSIZ ≤ blksiz)
    (hn : ((s₀ + DIRBLKSIZ : Nat) : Int) ≤ n) (hbad : ∀ m, dircheck imax b₀ s₀ m = false)
    (h : Scanned imax b₀ n s) (hk : Cleared s₀ s) {s' : Scan} {a : σ}
    (hread : fsckReaddir imax blksiz s = (some s.id_loc, s'))
    (hadv : Advance imax s (handled s' s.id_loc
      (id_func a (fun i => s'.buf (s.id_loc + i)) (dReclen s'.buf s.id_loc)))) :
    Cleared s₀ (handled s' s.id_loc
      (id_func a (fun i => s'.buf (s.id_loc + i)) (dReclen s'.buf s.id_loc))) := by
  rcases hk with hle | ⟨hle, hfront, hdirty, hhead⟩
  · rcases Nat.lt_or_eq_of_le hle with hlt | heq
    · exact .inl (hadv.le_start hs₀ hlt)
    · -- the scan is at the block, whose first record fails the check
      have hfs := h.filesize
      have hpos : 0 < DIRBLKSIZ := by decide
      have hfail : dircheck imax s.buf s.id_loc s.id_filesize = false := by
        rw [dircheck_congr fun i hi => h.rest i hi, heq]
        exact hbad _
      unfold fsckReaddir at hread
      dsimp only at hread
      rw [if_pos ⟨by rw [heq]; exact hs₀, by omega, by omega, hfail⟩, Prod.mk.injEq] at hread
      obtain rfl := hread.2
      have hclear := hostHeader_clearBlock s.buf s.id_loc
      have halt : ∀ a n, (id_func a (fun i => clearBlock s.buf s.id_loc (s.id_loc + i)) n).altered =
          false := fun a n => by
        refine hunused _ _ _ ?_
        have := congrArg Header.ino (hostHeader_shift (clearBlock s.buf s.id_loc) s.id_loc)
        rw [hclear] at this
        exact this
      right
      unfold handled
      rw [halt, if_neg Bool.false_ne_true]
      rw [heq] at hclear ⊢
      refine ⟨Nat.le_refl _, ?_, rfl, hclear⟩
      rw [← heq]
      exact h.tiles.congr fun i _ hi => clearBlock_off s.buf (.inl hi)
  · have hroom := hadv.room
    refine .inr ⟨by omega, hfront.congr fun i _ hi => hadv.frame i (.inl (by omega)), ?_, ?_⟩
    · by_contra hd
      rw [(hadv.clean (by simpa using hd)).2] at hdirty
      cases hdirty
    · rw [← hhead]
      unfold DIRBLKSIZ at hle
      exact hostHeader_congr fun i hi => hadv.frame _ (.inl (by omega))

/-- After the scan of a buffer, a block whose first record failed the check is one unused record. -/
theorem dirscan_clears {b₀ : ByteStore} {n : Int} {s₀ : Nat} (hf : KeepsRecords id_func)
    (hunused : LeavesUnused id_func) (hblk : blksiz % DIRBLKSIZ = 0) (hn : n % DIRBLKSIZ = 0)
    (hs₀ : s₀ % DIRBLKSIZ = 0) (heb : s₀ + DIRBLKSIZ ≤ blksiz)
    (hen : ((s₀ + DIRBLKSIZ : Nat) : Int) ≤ n) (hbad : ∀ m, dircheck imax b₀ s₀ m = false) (a : σ)
    {s : Scan} (hs : s = (dirscan imax blksiz id_func ⟨b₀, false, 0, n, 0⟩ a).1) :
    Tiles s.buf 0 s₀ ∧ s.dirty = true ∧ hostHeader s.buf s₀ = ⟨0, DIRBLKSIZ, 0⟩ := by
  obtain ⟨⟨hscan, hkept⟩, hdone⟩ := dirscanLoop_run imax blksiz
    (fun s => Scanned imax b₀ n s ∧ Cleared s₀ s) hf.goes_on (fun s a ⟨h, hk⟩ hpos hlt => by
      obtain ⟨s', hread, hmove, hadv⟩ := scan_turn hf hblk hn h hpos hlt a
      exact ⟨s', hread, hmove, h.next hadv,
        cleared_turn hunused hs₀ heb hen hbad h hk hread hadv⟩)
    (blksiz + 1) ⟨b₀, false, 0, n, 0⟩ a ⟨scanned_start b₀ n, .inl (Nat.zero_le _)⟩ (by simp)
  have hfs := hscan.filesize
  rw [dirscan] at hs
  rw [← hs] at hscan hkept hdone hfs
  unfold DIRBLKSIZ at *
  rcases hkept with hle | ⟨_, h⟩
  · omega
  · exact h

end

/-! ## §6 The write pass -/

/-- The walk of the write pass gets to the end of a chain, with everything from there on as it
was. -/
theorem writePass_tiles {size p q : Nat} {b : ByteStore} (h : Tiles b p q) (hq : q ≤ size) :
    ∀ (fuel : Nat) (b' : ByteStore), size ≤ fuel + p → (∀ i, p ≤ i → i < q → b' i = b i) →
      ∃ fuel' b'', size ≤ fuel' + q ∧ (∀ i, q ≤ i → b'' i = b' i) ∧
        swapDirblockLoop size true fuel p b' = swapDirblockLoop size true fuel' q b'' := by
  induction h with
  | done => exact fun fuel b' hfuel _ => ⟨fuel, b', hfuel, fun _ _ => rfl, rfl⟩
  | @record p q h₈ hle hrest ih =>
    intro fuel b' hfuel hb
    have hend := hrest.le
    have hr : dReclen b p = (hostHeader b' p).reclen :=
      congrArg Header.reclen (hostHeader_congr fun i hi => (hb _ (by omega) (by omega)).symm)
    obtain ⟨k, hk, heq⟩ := swapDirblockLoop_next (w := true) _ hfuel (by omega) hr (by omega)
      (by omega)
    have hrest' : ∀ i, p + dReclen b p ≤ i → i < q → swapDirect b' p i = b i := fun i h₁ h₂ => by
      rw [swapDirect_off b' (.inr (by omega)), hb i (by omega) h₂]
    obtain ⟨fuel', b'', hfuel', hb'', heq'⟩ := ih hq k _ hk hrest'
    refine ⟨fuel', b'', hfuel', fun i hi => ?_, heq.trans heq'⟩
    rw [hb'' i hi, swapDirect_off b' (.inr (by omega))]

/-- A record at which the write pass is has its header in the order of the disk afterwards. -/
theorem writePass_record {size fuel p : Nat} {b : ByteStore} (hfuel : size ≤ fuel + p)
    (hp : p + 8 ≤ size) (h₈ : 8 ≤ (hostHeader b p).reclen) :
    diskHeader (swapDirblockLoop size true fuel p b) p = hostHeader b p ∧
    ∀ i, p + 8 ≤ i → i < p + (hostHeader b p).reclen →
      swapDirblockLoop size true fuel p b i = b i := by
  have hrec : ∀ i < p + (hostHeader b p).reclen,
      swapDirblockLoop size true fuel p b i = swapDirect b p i := fun i hi =>
    swapDirblockLoop_record (w := true) hfuel hp rfl hi
  refine ⟨?_, fun i h₁ h₂ => ?_⟩
  · rw [diskHeader_congr fun i _ h₂ => hrec i (by omega), diskHeader_swapDirect]
  · rw [hrec i h₂, swapDirect_off b (.inr h₁)]

/-- The entries of a chain in the buffer are on disk after the write pass. -/
theorem writePass_entry {size ino p q : Nat} {name : List UInt8} {b : ByteStore}
    (h : HasEntry hostHeader b ino name p q) (hq : q ≤ size) :
    ∀ {fuel : Nat} {b' : ByteStore}, size ≤ fuel + p → (∀ i, p ≤ i → i < q → b' i = b i) →
      HasEntry diskHeader (swapDirblockLoop size true fuel p b') ino name p q := by
  induction h with
  | @here p q hi h₀ hn hfit hle =>
    intro fuel b' hfuel hb
    have hsize := DIRSIZ_ge (hostHeader b p).namlen
    have hhead : hostHeader b' p = hostHeader b p :=
      hostHeader_congr fun i hi => hb _ (by omega) (by omega)
    obtain ⟨hdisk, hbytes⟩ := writePass_record (b := b') hfuel (by omega) (by rw [hhead]; omega)
    rw [hhead] at hdisk hbytes
    refine .here (by rw [hdisk, hi]) h₀ ?_ (by rw [hdisk]; exact hfit) (by rw [hdisk]; exact hle)
    rw [hdisk, ← hn]
    refine slice_congr fun i hi => ?_
    rw [hbytes _ (by omega) (by omega), hb _ (by omega) (by omega)]
  | @there p q h₈ hle hrest ih =>
    intro fuel b' hfuel hb
    have hend := hrest.lt
    have hhead : hostHeader b' p = hostHeader b p :=
      hostHeader_congr fun i hi => hb _ (by omega) (by omega)
    obtain ⟨hdisk, -⟩ := writePass_record (b := b') hfuel (by omega) (by rw [hhead]; exact h₈)
    rw [hhead] at hdisk
    obtain ⟨k, hk, heq⟩ := swapDirblockLoop_next (w := true) (hostHeader b p).reclen
      hfuel (by omega) (congrArg Header.reclen hhead.symm) (by omega) (by omega)
    refine .there (by rw [hdisk]; exact h₈) (by rw [hdisk]; exact hle) ?_
    rw [hdisk, heq]
    refine ih hq hk fun i h₁ h₂ => ?_
    rw [swapDirect_off b' (.inr (by omega)), hb i (by omega) h₂]

/-! ## §7 The block on disk -/

/-- The read pass, at `off`, touches nothing of the header at `s`. -/
inductive Misses (size s : Nat) : Nat → ByteStore → Prop
  | short {off : Nat} {b : ByteStore} : size < off + 8 → Misses size s off b
  | last {off : Nat} {b : ByteStore} : off + 8 ≤ s ∨ s + 8 ≤ off →
      (diskHeader b off).reclen = 0 ∨ size < off + (diskHeader b off).reclen → Misses size s off b
  | step {off : Nat} {b : ByteStore} : off + 8 ≤ s ∨ s + 8 ≤ off →
      Misses size s (off + (diskHeader b off).reclen) (swapDirect b off) → Misses size s off b

theorem readPass_misses {size s off : Nat} {b : ByteStore} (h : Misses size s off b) :
    ∀ (fuel : Nat) {i : Nat}, s ≤ i → i < s + 8 → swapDirblockLoop size false fuel off b i = b i := by
  induction h with
  | short hlt =>
    intro fuel i _ _
    cases fuel with
    | zero => rfl
    | succ fuel => rw [swapDirblockLoop, if_neg (by omega)]
  | @last off b hoff hend =>
    intro fuel i h₁ h₂
    cases fuel with
    | zero => rfl
    | succ fuel =>
      have hr : dReclen (swapDirect b off) off = (diskHeader b off).reclen :=
        congrArg Header.reclen (hostHeader_swapDirect b off)
      rw [swapDirblockLoop]
      simp only [Bool.false_eq_true, if_false, hr]
      rw [if_pos (c := _ ∨ _) (by omega), ite_apply]
      split
      · exact swapDirect_off b (by omega)
      · rfl
  | @step off b hoff _ ih =>
    intro fuel i h₁ h₂
    cases fuel with
    | zero => rfl
    | succ fuel =>
      have hr : dReclen (swapDirect b off) off = (diskHeader b off).reclen :=
        congrArg Header.reclen (hostHeader_swapDirect b off)
      rw [swapDirblockLoop]
      simp only [Bool.false_eq_true, if_false, hr]
      split
      · split
        · exact swapDirect_off b (by omega)
        · rw [ih fuel h₁ h₂]
          exact swapDirect_off b (by omega)
      · rfl

/-- What a flush leaves of a buffer that was scanned up to a chain with an entry. -/
theorem flush_entry {disk b : ByteStore} {size s e ino : Nat} {name : List UInt8}
    (hfront : Tiles b 0 s) (h : HasEntry hostHeader b ino name s e) (he : e ≤ size) :
    HasEntry diskHeader (flush disk b size true) ino name s e := by
  have hs : s ≤ size := by
    have := h.lt
    omega
  obtain ⟨fuel, b', hfuel, hb', heq⟩ :=
    writePass_tiles hfront hs size b (Nat.le_refl size) fun _ _ _ => rfl
  have hentry := writePass_entry h he hfuel fun i hi _ => hb' i hi
  rw [← heq] at hentry
  refine hentry.congr_disk fun i _ hi => ?_
  unfold flush
  rw [if_pos rfl, patch_of_mem (Nat.zero_le i) (by omega), Nat.sub_zero]
  rfl

/-- What a flush leaves of a buffer that was scanned up to a record. -/
theorem flush_header (disk : ByteStore) {b : ByteStore} {size s : Nat} (hfront : Tiles b 0 s)
    (hs : s + 8 ≤ size) (h₈ : 8 ≤ (hostHeader b s).reclen) :
    diskHeader (flush disk b size true) s = hostHeader b s := by
  obtain ⟨fuel, b', hfuel, hb', heq⟩ :=
    writePass_tiles hfront (by omega) size b (Nat.le_refl size) fun _ _ _ => rfl
  have hhead : hostHeader b' s = hostHeader b s := hostHeader_congr fun i _ => hb' _ (by omega)
  have hrec := (writePass_record hfuel hs (by rw [hhead]; exact h₈)).1
  rw [← heq, hhead] at hrec
  rw [← hrec]
  refine diskHeader_congr fun i _ hi => ?_
  unfold flush
  rw [if_pos rfl, patch_of_mem (Nat.zero_le i) (by omega), Nat.sub_zero]
  rfl

/-- A block whose first header the read pass misses fails its check. -/
theorem getblk_misses {imax size s : Nat} {disk : ByteStore} (hs : s % DIRBLKSIZ = 0)
    (hwf : WellFormed imax disk s (s + DIRBLKSIZ)) (hmiss : Misses size s 0 disk) (m : Int) :
    dircheck imax (getblk disk size) s m = false := by
  obtain ⟨hgood, hle⟩ := hwf.first (Nat.lt_add_of_pos_right (by decide))
  refine dircheck_unswapped hgood ?_ fun i h₁ h₂ => readPass_misses hmiss size h₁ h₂
  unfold blockEnd
  omega

/-- A well-formed 1024-byte block of a directory block on disk keeps an entry through reading,
scanning and flushing if the walk of the read pass gets to the block. If the walk misses the
block's first header, the block has no entry afterwards. -/
theorem scanBlock_entries {σ : Type} {id_func : DirFunc σ} {imax blksiz s : Nat} {filesize : Int}
    {disk : ByteStore} (hf : KeepsRecords id_func) (hblk : blksiz % DIRBLKSIZ = 0)
    (hn : filesize % DIRBLKSIZ = 0) (hs : s % DIRBLKSIZ = 0) (hsb : s + DIRBLKSIZ ≤ blksiz)
    (hsn : ((s + DIRBLKSIZ : Nat) : Int) ≤ filesize)
    (hwf : WellFormed imax disk s (s + DIRBLKSIZ)) (a : σ) :
    (Reaches blksiz s 0 disk → ∀ ino name, LeavesEntry id_func ino name →
      HasEntry diskHeader disk ino name s (s + DIRBLKSIZ) →
      HasEntry diskHeader (scanBlock imax blksiz id_func filesize a disk) ino name s
        (s + DIRBLKSIZ)) ∧
    (Misses blksiz s 0 disk → LeavesUnused id_func → ∀ ino name,
      ¬ HasEntry diskHeader (scanBlock imax blksiz id_func filesize a disk) ino name s
        (s + DIRBLKSIZ)) := by
  unfold scanBlock
  dsimp only
  constructor
  · intro hreach ino name hleave hentry
    have hsw := getblk_swapped hreach hwf hsb
    obtain ⟨hclean, hfront, hfound⟩ :=
      dirscan_keeps hf hleave hblk hn hs hsb hsn hsw hentry a rfl
    cases hdirty : (dirscan imax blksiz id_func ⟨getblk disk blksiz, false, 0, filesize, 0⟩ a).1.dirty
    with
    | false => exact hentry
    | true => exact flush_entry hfront hfound hsb
  · intro hmiss hunused ino name hentry
    obtain ⟨hfront, hdirty, hhead⟩ := dirscan_clears hf hunused hblk hn hs hsb hsn
      (getblk_misses hs hwf hmiss) a rfl
    rw [hdirty] at hentry
    have hlen : 8 ≤ DIRBLKSIZ := by decide
    have hs₈ : s + 8 ≤ blksiz := by omega
    have hdisk := flush_header disk hfront hs₈ (by rw [hhead]; exact hlen)
    rw [hhead] at hdisk
    cases hentry with
    | here hi h₀ _ _ _ =>
      rw [hdisk] at hi
      exact h₀ hi.symm
    | there _ _ hrest =>
      have := hrest.lt
      rw [hdisk] at this
      exact Nat.lt_irrefl _ this

/-- Two 1024-byte blocks; the second is the record of `a`, inode 5. -/
def twoBlocks (first : ByteStore) : ByteStore :=
  patch first 1024 1024 (ofList [0, 0, 0, 5, 4, 0, 0, 1, 0x61])

/-- A callback with nothing to say. -/
def noChange : DirFunc Unit := fun _ b _ => ⟨(), b, false, false⟩

theorem twoBlocks_wellFormed {first : ByteStore}
    (h : diskHeader (twoBlocks first) 1024 = ⟨5, 1024, 1⟩)
    (hname : NameOk (twoBlocks first) 1024 1) : WellFormed 100 (twoBlocks first) 1024 2048 := by
  have hrest : WellFormed 100 (twoBlocks first) (1024 + (diskHeader (twoBlocks first) 1024).reclen)
      2048 := by
    rw [h]
    exact .done
  refine .record ⟨?_, ?_, ?_, ?_, fun _ => ?_⟩ (by rw [h]; exact Nat.le_refl 2048) hrest
  all_goals rw [h]
  · decide
  · decide
  · decide
  · decide
  · exact hname

/-- A block of zeros in front takes the entry of its undamaged neighbour away. -/
theorem scanBlock_loses_neighbour :
    WellFormed 100 (twoBlocks fun _ => 0) 1024 2048 ∧
    HasEntry diskHeader (twoBlocks fun _ => 0) 5 [0x61] 1024 2048 ∧
    ¬ HasEntry diskHeader (scanBlock 100 2048 noChange 2048 () (twoBlocks fun _ => 0)) 5 [0x61]
      1024 2048 := by
  have hdisk : diskHeader (twoBlocks fun _ => 0) 1024 = ⟨5, 1024, 1⟩ := by decide +kernel
  have hafter : diskHeader (scanBlock 100 2048 noChange 2048 () (twoBlocks fun _ => 0)) 1024 =
      ⟨0, 1024, 0⟩ := by decide +kernel
  refine ⟨twoBlocks_wellFormed hdisk (by decide +kernel), .here ?_ (by decide) ?_ ?_ ?_, ?_⟩
  · rw [hdisk]
  · rw [hdisk]
    decide +kernel
  · rw [hdisk]
    decide
  · rw [hdisk]
    exact Nat.le_refl 2048
  · intro h
    cases h with
    | here hi _ _ _ _ =>
      rw [hafter] at hi
      cases hi
    | there _ _ hrest =>
      have := hrest.lt
      rw [hafter] at this
      exact Nat.lt_irrefl _ this

/-- A record of an impossible inode in front, as long as its block, does no harm. -/
theorem scanBlock_entries_corrupt :
    HasEntry diskHeader (scanBlock 100 2048 noChange 2048 ()
      (twoBlocks (ofList [0xff, 0xff, 0xff, 0xff, 4, 0, 0, 0]))) 5 [0x61] 1024 2048 := by
  have hdisk : diskHeader (twoBlocks (ofList [0xff, 0xff, 0xff, 0xff, 4, 0, 0, 0])) 1024 =
      ⟨5, 1024, 1⟩ := by decide +kernel
  have hfirst : (diskHeader (twoBlocks (ofList [0xff, 0xff, 0xff, 0xff, 4, 0, 0, 0])) 0).reclen =
      1024 := by decide +kernel
  refine (scanBlock_entries ⟨fun _ _ _ => rfl, fun _ _ _ h => by cases h⟩ rfl rfl (s := 1024) rfl
    (by decide) (by decide) (twoBlocks_wellFormed hdisk (by decide +kernel)) ()).1 ?_ 5 [0x61]
    (fun _ _ _ _ _ => rfl) (.here ?_ (by decide) ?_ ?_ ?_)
  · refine .step (by decide) (by rw [hfirst]; decide) (by rw [hfirst]; decide) ?_
    rw [hfirst]
    exact .here
  · rw [hdisk]
  · rw [hdisk]
    decide +kernel
  · rw [hdisk]
    decide
  · rw [hdisk]
    exact Nat.le_refl 2048

end NextUfs.Fsck
