/-
NextUfs.Fsck.SwapTheorems — the read pass and the write pass of
`swap_dirblock` one after the other.

The two walks go over the same records as long as no header reaches into the
next one. A record is at least its header, 8 bytes, in a sound directory, but
the walk only stops at a length of 0: behind a record of length 1 to 7 it swaps
words of a header it has swapped before. `HeadersApart` is that this does not
happen. The lengths alone decide no more than that: where it happens, some
block with the same lengths is not given back.

Sections:

  §1 one header  — swapping it twice.
  §2 both passes — a turn of the two walks together.
  §3 overlaps    — a block that is not given back.
  §4 the block of directories in the buffer.
-/
import NextUfs.Fsck.DirScanTheorems

namespace NextUfs.Fsck

open NextUfs.Core NextUfs.Lib NextUfs.Lib.ByteStore

/-- From `off` on, no record on disk is shorter than its header with another header behind it. The
walk is that of `swap_dirblock`, by the lengths as they are on disk. -/
def headersApartLoop (d : ByteStore) (size : Nat) : Nat → Nat → Bool
  | 0, _ => true
  | fuel + 1, off =>
    if off + 8 ≤ size then
      if be16 d (off + 4) = 0 ∨ off + be16 d (off + 4) > size then true
      else if be16 d (off + 4) < 8 ∧ off + be16 d (off + 4) + 8 ≤ size then false
      else headersApartLoop d size fuel (off + be16 d (off + 4))
    else true

/-- No header on disk reaches into the next one. -/
def HeadersApart (d : ByteStore) (size : Nat) : Prop := headersApartLoop d size size 0 = true

instance (d : ByteStore) (size : Nat) : Decidable (HeadersApart d size) := by
  unfold HeadersApart
  infer_instance

/-- The lengths of the records on disk from `off` on, up to the first whose header reaches into the
next one. -/
def diskLengthsLoop (d : ByteStore) (size : Nat) : Nat → Nat → List Nat
  | 0, _ => []
  | fuel + 1, off =>
    if off + 8 ≤ size then
      if be16 d (off + 4) = 0 ∨ off + be16 d (off + 4) > size then [be16 d (off + 4)]
      else if be16 d (off + 4) < 8 ∧ off + be16 d (off + 4) + 8 ≤ size then [be16 d (off + 4)]
      else be16 d (off + 4) :: diskLengthsLoop d size fuel (off + be16 d (off + 4))
    else []

/-- The record lengths `swap_dirblock` finds on disk. -/
def diskLengths (d : ByteStore) (size : Nat) : List Nat := diskLengthsLoop d size size 0

/-! ## §1 One header -/

theorem swapDirect_swapDirect (b : ByteStore) (p : Nat) : swapDirect (swapDirect b p) p = b := by
  funext q
  by_cases hq : p ≤ q ∧ q < p + 8
  · obtain ⟨i, rfl⟩ := Nat.exists_eq_add_of_le hq.1
    have hi : i < 8 := by omega
    rw [swapDirect_at _ p hi, swapDirect_at b p (by split <;> [skip; split] <;> omega)]
    congr 2
    split <;> split <;> grind
  · rw [swapDirect_off _ (by omega), swapDirect_off _ (by omega)]

theorem swapDirect_congr {b c : ByteStore} {p q : Nat} (h : ∀ i, q ≤ i → b i = c i) (hq : q ≤ p) :
    ∀ i, q ≤ i → swapDirect b p i = swapDirect c p i := by
  intro i hi
  by_cases hp : p ≤ i ∧ i < p + 8
  · obtain ⟨k, rfl⟩ := Nat.exists_eq_add_of_le hp.1
    rw [swapDirect_at b p (by omega), swapDirect_at c p (by omega)]
    exact h _ (by omega)
  · rw [swapDirect_off b (by omega), swapDirect_off c (by omega), h i hi]

theorem dReclen_swapDirect (b : ByteStore) (p : Nat) :
    dReclen (swapDirect b p) p = be16 b (p + 4) :=
  congrArg Header.reclen (hostHeader_swapDirect b p)

theorem dReclen_congr {b c : ByteStore} {p q : Nat} (h : ∀ i < 8, b (p + i) = c (q + i)) :
    dReclen b p = dReclen c q :=
  congrArg Header.reclen (hostHeader_congr h)

/-! ## §2 Both passes -/

/-- The walk from `off` on depends on what is there only. -/
theorem swapDirblockLoop_congr (size : Nat) (w : Bool) (fuel : Nat) :
    ∀ (off : Nat) {b c : ByteStore} {q : Nat}, q ≤ off → (∀ i, q ≤ i → b i = c i) →
      ∀ i, q ≤ i → swapDirblockLoop size w fuel off b i = swapDirblockLoop size w fuel off c i := by
  induction fuel with
  | zero => exact fun _ _ _ _ _ h => h
  | succ fuel ih =>
    intro off b c q hq h
    have hswap := swapDirect_congr h hq
    have hlen : (if w then dReclen b off else dReclen (swapDirect b off) off) =
        if w then dReclen c off else dReclen (swapDirect c off) off := by
      cases w
      · exact dReclen_congr fun i _ => hswap (off + i) (by omega)
      · exact dReclen_congr fun i _ => h (off + i) (by omega)
    rw [swapDirblockLoop, swapDirblockLoop]
    dsimp only
    rw [hlen]
    generalize (if w then dReclen c off else dReclen (swapDirect c off) off) = reclen
    by_cases h₈ : off + 8 ≤ size
    · rw [if_pos h₈, if_pos h₈]
      by_cases hstop : reclen = 0 ∨ off + reclen > size
      · rw [if_pos hstop, if_pos hstop]
        exact hswap
      · rw [if_neg hstop, if_neg hstop]
        exact ih _ (by omega) hswap
    · rw [if_neg h₈, if_neg h₈]
      exact h

/-- Both passes from `off` on give back what is there. -/
def Restored (size fuel off : Nat) (b : ByteStore) : Prop :=
  ∀ i, off ≤ i →
    swapDirblockLoop size true fuel off (swapDirblockLoop size false fuel off b) i = b i

theorem swapDirblockLoop_end {size off : Nat} (w : Bool) (b : ByteStore) (fuel : Nat)
    (h : size < off + 8) : swapDirblockLoop size w fuel off b = b := by
  cases fuel with
  | zero => rfl
  | succ fuel => rw [swapDirblockLoop, if_neg (by omega)]

/-- The last record of a walk. -/
theorem swapDirblockLoop_last {size fuel off : Nat} {w : Bool} {b : ByteStore} (reclen : Nat)
    (h₈ : off + 8 ≤ size)
    (hr : (if w then dReclen b off else dReclen (swapDirect b off) off) = reclen)
    (hlast : reclen = 0 ∨ size < off + reclen + 8) :
    swapDirblockLoop size w (fuel + 1) off b = swapDirect b off := by
  rw [swapDirblockLoop]
  dsimp only
  rw [hr, if_pos h₈]
  by_cases hstop : reclen = 0 ∨ off + reclen > size
  · rw [if_pos hstop]
  · rw [if_neg hstop, swapDirblockLoop_end w _ fuel (by omega)]

/-- A block shorter than a header, and the last record. -/
theorem restored_last {size fuel off : Nat} {b : ByteStore}
    (h : size < off + 8 ∨ be16 b (off + 4) = 0 ∨ size < off + be16 b (off + 4) + 8) :
    Restored size fuel off b := by
  by_cases h₈ : off + 8 ≤ size
  · cases fuel with
    | zero => exact fun _ _ => rfl
    | succ fuel =>
      intro i _
      rw [swapDirblockLoop_last (w := false) (be16 b (off + 4)) h₈ (dReclen_swapDirect b off)
          (by omega),
        swapDirblockLoop_last (w := true) (be16 b (off + 4)) h₈ (dReclen_swapDirect b off)
          (by omega), swapDirect_swapDirect]
  · intro i _
    rw [swapDirblockLoop_end false b fuel (by omega), swapDirblockLoop_end true b fuel (by omega)]

/-- A record that holds its header is given back, and both walks go on behind it. -/
theorem restored_record {size fuel off : Nat} {b : ByteStore} (h₈ : off + 8 ≤ size)
    (hlen : 8 ≤ be16 b (off + 4)) (hle : off + be16 b (off + 4) ≤ size) :
    Restored size (fuel + 1) off b ↔ Restored size fuel (off + be16 b (off + 4)) b := by
  have hread : swapDirblockLoop size false (fuel + 1) off b =
      swapDirblockLoop size false fuel (off + be16 b (off + 4)) (swapDirect b off) := by
    rw [swapDirblockLoop]
    simp only [Bool.false_eq_true, if_false, dReclen_swapDirect]
    rw [if_pos h₈, if_neg (by omega)]
  obtain ⟨r, hr⟩ : ∃ r, be16 b (off + 4) = r := ⟨_, rfl⟩
  rw [hr] at hread hlen hle ⊢
  -- behind the first header both walks see what they see without it
  have hrest : ∀ i, off + r ≤ i →
      swapDirblockLoop size false fuel (off + r) (swapDirect b off) i =
        swapDirblockLoop size false fuel (off + r) b i :=
    swapDirblockLoop_congr size false fuel _ (Nat.le_refl _) fun i hi =>
      swapDirect_off b (.inr (by omega))
  have hfront : ∀ i < off + r,
      swapDirblockLoop size false fuel (off + r) (swapDirect b off) i = swapDirect b off i :=
    fun i hi => swapDirblockLoop_below size false fuel _ _ hi
  have hlen' : dReclen (swapDirblockLoop size false fuel (off + r) (swapDirect b off)) off = r := by
    rw [dReclen_congr (c := swapDirect b off) (q := off) fun i _ => hfront _ (by omega),
      dReclen_swapDirect, hr]
  have hwrite : swapDirblockLoop size true (fuel + 1) off
        (swapDirblockLoop size false fuel (off + r) (swapDirect b off)) =
      swapDirblockLoop size true fuel (off + r)
        (swapDirect (swapDirblockLoop size false fuel (off + r) (swapDirect b off)) off) := by
    rw [swapDirblockLoop]
    simp only [if_true, hlen']
    rw [if_pos h₈, if_neg (by omega)]
  have hboth : ∀ i, off + r ≤ i →
      swapDirblockLoop size true (fuel + 1) off (swapDirblockLoop size false (fuel + 1) off b) i =
        swapDirblockLoop size true fuel (off + r)
          (swapDirblockLoop size false fuel (off + r) b) i := by
    rw [hread, hwrite]
    refine swapDirblockLoop_congr size true fuel _ (Nat.le_refl _) fun i hi => ?_
    rw [swapDirect_off _ (.inr (by omega)), hrest i hi]
  constructor
  · intro h i hi
    rw [← hboth i hi]
    exact h i (by omega)
  · intro h i hi
    by_cases hir : off + r ≤ i
    · rw [hboth i hir]
      exact h i hir
    · rw [hread, hwrite, swapDirblockLoop_below size true fuel _ _ (by omega),
        swapDirect_congr (q := off) (c := swapDirblockLoop size false fuel (off + r)
          (swapDirect b off)) (fun _ _ => rfl) (Nat.le_refl _) i hi]
      by_cases hi₈ : i < off + 8
      · obtain ⟨k, rfl⟩ := Nat.exists_eq_add_of_le hi
        have hk : k < 8 := by omega
        rw [swapDirect_at _ off hk, hfront _ (by split <;> [skip; split] <;> omega),
          ← swapDirect_at (swapDirect b off) off hk, swapDirect_swapDirect]
      · rw [swapDirect_off _ (.inr (by omega)), hfront i (by omega),
          swapDirect_off b (.inr (by omega))]

/-- Where no header reaches into the next one, both passes give everything back. -/
theorem restored_of_apart {size : Nat} {d : ByteStore} : ∀ {fuel off : Nat},
    headersApartLoop d size fuel off = true → Restored size fuel off d
  | 0, _, _ => fun _ _ => rfl
  | fuel + 1, off, h => by
    rw [headersApartLoop] at h
    by_cases hlast : size < off + 8 ∨ be16 d (off + 4) = 0 ∨ size < off + be16 d (off + 4) + 8
    · exact restored_last hlast
    · rw [if_pos (by omega), if_neg (by omega)] at h
      by_cases hlen : be16 d (off + 4) < 8
      · rw [if_pos (by omega)] at h
        cases h
      · rw [if_neg (by omega)] at h
        exact (restored_record (by omega) (by omega) (by omega)).mpr (restored_of_apart h)

/-! ## §3 Overlaps -/

/-- The first record whose header reaches into the next one: blocks that agree with `d` up to it and
in its length have the same record lengths, and are given back if they are from there on. -/
theorem exists_overlap {size : Nat} {d : ByteStore} : ∀ {fuel off : Nat}, size ≤ fuel + off →
    headersApartLoop d size fuel off = false →
    ∃ o, off ≤ o ∧ 0 < be16 d (o + 4) ∧ be16 d (o + 4) < 8 ∧ o + be16 d (o + 4) + 8 ≤ size ∧
      ∀ d' : ByteStore, (∀ i < o, d' i = d i) → be16 d' (o + 4) = be16 d (o + 4) →
        diskLengthsLoop d' size fuel off = diskLengthsLoop d size fuel off ∧
        ∃ fuel', size ≤ fuel' + o ∧ (Restored size fuel off d' ↔ Restored size fuel' o d')
  | 0, _, _, h => by cases h
  | fuel + 1, off, hfuel, h => by
    rw [headersApartLoop] at h
    by_cases hlast : size < off + 8 ∨ be16 d (off + 4) = 0 ∨ off + be16 d (off + 4) > size
    · exfalso
      split at h
      · rw [if_pos (by omega)] at h
        cases h
      · cases h
    · have h₈ : off + 8 ≤ size := by omega
      have hgo : ¬ (be16 d (off + 4) = 0 ∨ off + be16 d (off + 4) > size) := by omega
      rw [if_pos h₈, if_neg hgo] at h
      by_cases hover : be16 d (off + 4) < 8 ∧ off + be16 d (off + 4) + 8 ≤ size
      · refine ⟨off, Nat.le_refl _, by omega, hover.1, hover.2, fun d' _ hd' =>
          ⟨?_, fuel + 1, hfuel, Iff.rfl⟩⟩
        simp only [diskLengthsLoop, hd', if_pos h₈, if_neg hgo, if_pos hover]
      · rw [if_neg hover] at h
        by_cases hlen : be16 d (off + 4) < 8
        · exfalso
          cases fuel with
          | zero => cases h
          | succ fuel =>
            rw [headersApartLoop, if_neg (by omega)] at h
            cases h
        · obtain ⟨o, hle, h₁, h₂, h₃, ho⟩ := exists_overlap (by omega) h
          refine ⟨o, by omega, h₁, h₂, h₃, fun d' hbelow hd' => ?_⟩
          have hsame : be16 d' (off + 4) = be16 d (off + 4) :=
            be16_congr fun i _ => hbelow _ (by omega)
          obtain ⟨heq, fuel', hfuel', hiff⟩ := ho d' hbelow hd'
          refine ⟨?_, fuel', hfuel', ?_⟩
          · simp only [diskLengthsLoop, hsame, if_pos h₈, if_neg hgo, if_neg hover, heq]
          · rw [restored_record h₈ (by omega) (by omega), hsame]
            exact hiff

/-- A walk that starts at `o`, as one that starts at 0. -/
theorem swapDirblockLoop_shift {size o : Nat} (ho : o ≤ size) (w : Bool) : ∀ (fuel p : Nat)
    (b : ByteStore) (i : Nat), swapDirblockLoop size w fuel (o + p) b (o + i) =
      swapDirblockLoop (size - o) w fuel p (fun q => b (o + q)) i
  | 0, _, _, _ => rfl
  | fuel + 1, p, b, i => by
    have hswap : (fun q => swapDirect b (o + p) (o + q)) = swapDirect (fun q => b (o + q)) p := by
      funext q
      by_cases hq : p ≤ q ∧ q < p + 8
      · obtain ⟨k, rfl⟩ := Nat.exists_eq_add_of_le hq.1
        rw [← Nat.add_assoc, swapDirect_at b _ (by omega), swapDirect_at _ p (by omega),
          Nat.add_assoc]
      · rw [swapDirect_off _ (by omega), swapDirect_off _ (by omega)]
    have hlen : (if w then dReclen b (o + p) else dReclen (swapDirect b (o + p)) (o + p)) =
        if w then dReclen (fun q => b (o + q)) p
        else dReclen (swapDirect (fun q => b (o + q)) p) p := by
      cases w
      · rw [← hswap]
        exact dReclen_congr fun k _ => by rw [Nat.add_assoc]
      · exact dReclen_congr fun k _ => by rw [Nat.add_assoc]
    rw [swapDirblockLoop, swapDirblockLoop]
    dsimp only
    rw [hlen]
    generalize (if w then dReclen (fun q => b (o + q)) p
      else dReclen (swapDirect (fun q => b (o + q)) p) p) = reclen
    by_cases h₈ : p + 8 ≤ size - o
    · rw [if_pos h₈, if_pos (by omega)]
      by_cases hstop : reclen = 0 ∨ p + reclen > size - o
      · rw [if_pos hstop, if_pos (by omega), ← hswap]
      · rw [if_neg hstop, if_neg (by omega), ← hswap, Nat.add_assoc,
          swapDirblockLoop_shift ho w fuel]
    · rw [if_neg h₈, if_neg (by omega)]

theorem Restored.shift {size fuel o : Nat} {b : ByteStore} (ho : o ≤ size)
    (h : Restored size fuel o b) : Restored (size - o) fuel 0 fun q => b (o + q) := by
  intro i _
  have hread : (fun q => swapDirblockLoop size false fuel o b (o + q)) =
      swapDirblockLoop (size - o) false fuel 0 fun q => b (o + q) := by
    funext q
    exact swapDirblockLoop_shift ho false fuel 0 b q
  have hwrite := swapDirblockLoop_shift ho true fuel 0 (swapDirblockLoop size false fuel o b) i
  rw [Nat.add_zero, hread] at hwrite
  rw [← hwrite]
  exact h (o + i) (Nat.le_add_right o i)

/-- A record of a length from 1 to 7, with one byte behind its length set where the length alone
would be given back. -/
def shortRecord (reclen : Nat) : ByteStore := fun i =>
  if i = 5 then UInt8.ofNat reclen
  else if (reclen = 5 ∧ i = 8) ∨ (6 ≤ reclen ∧ i = 6) then 1 else 0

/-- What the read pass makes of a short record in front. -/
def shortSwapped (reclen : Nat) : ByteStore := swapDirect (swapDirect (shortRecord reclen) 0) reclen

theorem readPass_short {size fuel r : Nat} (h₀ : 0 < r) (h₈ : r < 8) (hsize : r + 8 ≤ size) :
    swapDirblockLoop size false (fuel + 2) 0 (shortRecord r) = shortSwapped r := by
  have hlen : dReclen (swapDirect (shortRecord r) 0) 0 = r ∧ dReclen (shortSwapped r) r = 0 := by
    unfold shortSwapped
    interval_cases r <;> decide
  rw [swapDirblockLoop]
  simp only [Bool.false_eq_true, if_false]
  rw [hlen.1, if_pos (by omega), if_neg (by omega), Nat.zero_add]
  exact swapDirblockLoop_last (w := false) 0 (by omega) hlen.2 (.inl rfl)

theorem not_restored_short {size fuel r : Nat} (hfuel : size ≤ fuel + 2) (h₀ : 0 < r) (h₈ : r < 8)
    (hsize : r + 8 ≤ size) : ¬ Restored size (fuel + 2) 0 (shortRecord r) := by
  intro h
  have hboth : ∀ i, swapDirblockLoop size true (fuel + 2) 0 (shortSwapped r) i = shortRecord r i :=
    fun i => by rw [← readPass_short h₀ h₈ hsize]; exact h i (Nat.zero_le i)
  -- the length is gone (1, 2, 4), or the byte next to it has come into the length (3, 5), or the
  -- two headers have exchanged bytes
  have hcases : r = 1 ∨ r = 2 ∨ r = 4 ∨ r = 3 ∨ r = 5 ∨ r = 6 ∨ r = 7 := by omega
  obtain rfl | rfl | rfl | rfl | rfl | rfl | rfl := hcases
  iterate 3
    have h₅ := hboth 5
    rw [swapDirblockLoop_last (w := true) 0 (by omega) (by decide) (.inl rfl)] at h₅
    exact absurd h₅ (by decide)
  iterate 2
    have h₄ := hboth 4
    rw [swapDirblockLoop_record (w := true) (by omega)
      (by omega) rfl (by decide)] at h₄
    exact absurd h₄ (by decide)
  · have h₇ := hboth 7
    have hlen : dReclen (shortSwapped 6) 0 = 6 := by decide
    rw [swapDirblockLoop] at h₇
    simp only [if_true, hlen] at h₇
    rw [if_pos (by omega), if_neg (by omega), Nat.zero_add,
      swapDirblockLoop_last (w := true) 0 (by omega) (by decide) (.inl rfl)] at h₇
    exact absurd h₇ (by decide)
  · have h₇ := hboth 7
    have hlen : dReclen (shortSwapped 7) 0 = 7 := by decide
    rw [swapDirblockLoop] at h₇
    simp only [if_true, hlen] at h₇
    rw [if_pos (by omega), if_neg (by omega), Nat.zero_add,
      swapDirblockLoop_last (w := true) 0 (by omega) (by decide) (.inl rfl)] at h₇
    exact absurd h₇ (by decide)

/-! ## §4 The block of directories -/

/-- Both passes give every byte back. -/
def Unswapped (size : Nat) (d : ByteStore) : Prop :=
  swapDirblock (swapDirblock d size false) size true = d

theorem unswapped_iff {size : Nat} {d : ByteStore} : Unswapped size d ↔ Restored size size 0 d :=
  ⟨fun h i _ => congrFun h i, fun h => funext fun i => h i (Nat.zero_le i)⟩

/-- A block of directories, whatever its bytes: where no header reaches into the next one, the read
pass and the write pass give every byte back, and the block that `getblk` has read is flushed as it
was, marked dirty or not; and where one does, there is a block with the same record lengths that is
not given back. -/
theorem swapDirblock_unswapped (size : Nat) (d : ByteStore) :
    (HeadersApart d size →
      Unswapped size d ∧ ∀ dirty, flush d (getblk d size) size dirty = d) ∧
    (¬ HeadersApart d size →
      ∃ d', diskLengths d' size = diskLengths d size ∧ ¬ Unswapped size d') := by
  constructor
  · intro h
    have hback : Unswapped size d := unswapped_iff.mpr (restored_of_apart h)
    refine ⟨hback, fun dirty => ?_⟩
    cases dirty with
    | false => rfl
    | true =>
      have hwrite : swapDirblock (getblk d size) size true = d := hback
      show patch d 0 size (swapDirblock (getblk d size) size true) = d
      rw [hwrite]
      have hself := patch_self d 0 size
      simp only [Nat.zero_add] at hself
      exact hself
  · intro h
    have hbad : headersApartLoop d size size 0 = false := Bool.eq_false_iff.mpr h
    obtain ⟨o, -, h₀, h₈, hsize, ho⟩ := exists_overlap (Nat.le_refl size) hbad
    obtain ⟨r, hr⟩ : ∃ r, be16 d (o + 4) = r := ⟨_, rfl⟩
    rw [hr] at h₀ h₈ hsize ho
    obtain ⟨d', hd'⟩ : ∃ d' : ByteStore, d' = fun i => if i < o then d i else shortRecord r (i - o) :=
      ⟨_, rfl⟩
    have hbelow : ∀ i < o, d' i = d i := fun i hi => by rw [hd']; exact if_pos hi
    have hshift : (fun q => d' (o + q)) = shortRecord r := by
      funext q
      rw [hd']
      simp
    have hlen : be16 d' (o + 4) = r := by
      have hbe : be16 d' (o + 4) = be16 (shortRecord r) 4 :=
        be16_congr fun i _ => by rw [← hshift, Nat.add_assoc]
      rw [hbe]
      interval_cases r <;> decide
    obtain ⟨hsame, fuel', hfuel', hiff⟩ := ho d' hbelow hlen
    obtain ⟨fuel, rfl⟩ : ∃ k, fuel' = k + 2 := ⟨fuel' - 2, by omega⟩
    refine ⟨d', hsame, fun hun => ?_⟩
    have hrest := (hiff.mp (unswapped_iff.mp hun)).shift (by omega)
    rw [hshift] at hrest
    exact not_restored_short (by omega) h₀ h₈ (by omega) hrest

/-- A record of length 4 with another header behind it. -/
theorem swapDirblock_overlap : ¬ Unswapped 16 (ofList [0, 0, 0, 0, 0, 4]) := by
  intro h
  exact absurd (congrFun h 5) (by decide)

theorem swapDirblock_unswapped_one :
    Unswapped 16 (ofList [0, 0, 0, 2, 0, 16, 0, 1]) :=
  ((swapDirblock_unswapped 16 (ofList [0, 0, 0, 2, 0, 16, 0, 1])).1 (by decide)).1

end NextUfs.Fsck
