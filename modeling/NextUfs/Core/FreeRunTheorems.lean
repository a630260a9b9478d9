/-
NextUfs.Core.FreeRunTheorems — `nextufs__free_fragment_run` on a run that
nobody vouches for, as an inode on disk may name it.

The counters are kept for the block of the first fragment alone, and the only
tests are on the length, on the place of the group's block in the image, on
the magic number and on the bits. So the call does what it should on a run in
one block of a group, and where it refuses; a run that goes on into the next
block, past the end of its group, or in a group there is not leaves counters
that disagree with the bitmaps.

Sections:

  §1 the straddling run   — what the counters then say.
  §2 the indices          — the bits of the map the call uses.
  §3 the exact condition.
-/
import NextUfs.Core.GroupBlockTheorems

namespace NextUfs.Core

open NextUfs.Lib NextUfs.Lib.ByteStore NextUfs.Lib.StateResult NextUfs.Lib.Runs

/-! ## §1 The straddling run -/

section Straddle

variable {sb : Superblock} {cg : Cg} {l n : Nat}

/-- Sums over the blocks, when the map changes in two of them. -/
theorem Cg.total_change₂ {cg cg' : Cg} {fpb b : Nat} (hfpb : 0 < fpb)
    (hnd : cg'.ndblk = cg.ndblk) (hb : b + 1 < cg.blocks fpb)
    (hfree : ∀ i, i / fpb ≠ b → i / fpb ≠ b + 1 → cg'.free i = cg.free i)
    {stat : Nat → (Nat → Bool) → Nat} (hstat : BlockLocal fpb stat) :
    cg'.total fpb stat + (stat b cg.free + stat (b + 1) cg.free) =
      cg.total fpb stat + (stat b cg'.free + stat (b + 1) cg'.free) := by
  have hblocks : cg'.blocks fpb = cg.blocks fpb := by simp [Cg.blocks, hnd]
  unfold Cg.total
  rw [hblocks]
  have h₁ := sum_change (n := cg.blocks fpb) (b := b) (f := fun i => stat i cg.free)
    (g := fun i => if i = b then stat i cg'.free else stat i cg.free) (by omega)
    fun i _ hne => if_neg hne
  have h₂ := sum_change (n := cg.blocks fpb) (b := b + 1)
    (f := fun i => if i = b then stat i cg'.free else stat i cg.free)
    (g := fun i => stat i cg'.free) hb fun i _ hne => by
      split
      · rfl
      · refine hstat i _ _ fun j hj => hfree _ ?_ ?_
        all_goals
          rw [Nat.mul_comm, Nat.mul_add_div hfpb, Nat.div_eq_of_lt hj, Nat.add_zero]
          assumption
  simp only [if_true, Nat.succ_ne_self, if_false] at h₁ h₂
  omega

theorem Cg.giveFrags_free (hg : Geometry sb) {base : Nat} (h : base < sb.fragsPerGroup) :
    (cg.giveFrags sb base l n).free = setBlockBits cg.free l n ∧
      (cg.giveFrags sb base l n).ndblk = cg.ndblk := by
  rw [Cg.giveFrags]
  split
  · rw [Cg.addBlock_eq hg _ h]
    exact ⟨rfl, rfl⟩
  · exact ⟨rfl, rfl⟩

/-- The counters after the call, whatever the run. -/
theorem Cg.giveFrags_counters (hg : Geometry sb) {base : Nat} (h : base < sb.fragsPerGroup) :
    (cg.giveFrags sb base l n).frsum = applyCgFrsumDelta cg.frsum
        (countFreeRunsInBlock cg.free base sb.fragsPerBlock)
        (countFreeRunsInBlock (setBlockBits cg.free l n) base sb.fragsPerBlock) sb.fragsPerBlock ∧
      (cg.giveFrags sb base l n).cs.nbfree = cg.cs.nbfree +
        if blockIsFree (setBlockBits cg.free l n) base sb.fragsPerBlock then 1 else 0 := by
  rw [Cg.giveFrags]
  split
  · rw [Cg.addBlock_eq hg _ h]
    exact ⟨rfl, rfl⟩
  · exact ⟨rfl, by simp⟩

/-- A word that should have grown by one more. -/
theorem word_short {x : UInt32} {t r r' : Nat} (hx : x.toNat = t) {x' : UInt32}
    (h : x' + UInt32.ofNat r = x + UInt32.ofNat r') {t' : Nat} (hx' : x'.toNat = t')
    (ht : t' + r = t + r' + 1) : False := by
  have h₁ := congrArg UInt32.toNat h
  simp only [UInt32.toNat_add, UInt32.toNat_ofNat', hx, hx'] at h₁
  have h₂ := x'.toNat_lt
  omega

theorem blockRuns_eq {fpb k b : Nat} {free : Nat → Bool} (hk : k < fpb) :
    blockRuns fpb k b free = runs free (b * fpb) fpb k := by
  unfold blockRuns
  split
  · exact (runs_of_all (allSet_iff.mp ‹_›) hk).symm
  · rfl

/-- A run that goes on into the next block of its group leaves wrong counters: that block's runs are
not counted again, nor is the block if it has become free. -/
theorem Cg.Consistent.not_straddle (hg : Geometry sb) (hc : cg.Consistent sb)
    (hn : n ≤ sb.fragsPerBlock) (hend : l + n ≤ cg.ndblk)
    (hover : sb.fragsPerBlock < l % sb.fragsPerBlock + n)
    (hclear : ∀ i, l ≤ i → i < l + n → cg.free i = false) :
    ¬ (cg.giveFrags sb (l - l % sb.fragsPerBlock) l n).Consistent sb := by
  intro hc'
  have hfpb := hg.fpb_pos
  obtain ⟨b, hb⟩ : ∃ b, l / sb.fragsPerBlock = b := ⟨_, rfl⟩
  have hl : b * sb.fragsPerBlock ≤ l ∧ l < b * sb.fragsPerBlock + sb.fragsPerBlock := by
    have h₁ := Nat.div_add_mod' l sb.fragsPerBlock
    have h₂ := Nat.mod_lt l hfpb
    rw [hb] at h₁
    omega
  have hnext : (b + 1) * sb.fragsPerBlock = b * sb.fragsPerBlock + sb.fragsPerBlock :=
    Nat.succ_mul b _
  have hmod : l % sb.fragsPerBlock = l - b * sb.fragsPerBlock := by
    have h₁ := Nat.div_add_mod' l sb.fragsPerBlock
    rw [hb] at h₁
    omega
  rw [sub_mod_eq, hb] at hc'
  have hbase : b * sb.fragsPerBlock < sb.fragsPerGroup := by
    have := hc.ndblk_le
    omega
  obtain ⟨hfree, hnd⟩ := @Cg.giveFrags_free sb cg l n hg _ hbase
  obtain ⟨hfrsum, hnbfree⟩ := @Cg.giveFrags_counters sb cg l n hg _ hbase
  obtain ⟨cg', hcg'⟩ : ∃ cg', cg.giveFrags sb (b * sb.fragsPerBlock) l n = cg' := ⟨_, rfl⟩
  rw [hcg'] at hc' hfree hnd hfrsum hnbfree
  have hblock : b + 1 < cg.blocks sb.fragsPerBlock := by
    have := cg.div_lt_blocks hfpb (i := (b + 1) * sb.fragsPerBlock) (by omega)
    rwa [Nat.mul_div_cancel _ hfpb] at this
  have hother : ∀ i, i / sb.fragsPerBlock ≠ b → i / sb.fragsPerBlock ≠ b + 1 →
      cg'.free i = cg.free i := fun i h₁ h₂ => by
    rw [hfree]
    refine if_neg fun hi => ?_
    have h₃ : b ≤ i / sb.fragsPerBlock := (Nat.le_div_iff_mul_le hfpb).mpr (by omega)
    have h₄ : i / sb.fragsPerBlock < b + 1 + 1 :=
      (Nat.div_lt_iff_lt_mul hfpb).mpr (by rw [Nat.succ_mul]; omega)
    omega
  have hchange : ∀ {stat : Nat → (Nat → Bool) → Nat}, BlockLocal sb.fragsPerBlock stat →
      cg'.total sb.fragsPerBlock stat + (stat b cg.free + stat (b + 1) cg.free) =
        cg.total sb.fragsPerBlock stat + (stat b cg'.free + stat (b + 1) cg'.free) :=
    Cg.total_change₂ hfpb hnd hblock hother
  -- neither block was free as a whole
  have hbefore : allSet cg.free (b * sb.fragsPerBlock) sb.fragsPerBlock = false ∧
      allSet cg.free ((b + 1) * sb.fragsPerBlock) sb.fragsPerBlock = false :=
    ⟨not_allSet hl.1 hl.2 (hclear l le_rfl (by omega)),
      not_allSet (i := (b + 1) * sb.fragsPerBlock) le_rfl (by omega)
        (hclear _ (by omega) (by omega))⟩
  -- the next block has not become free: it is not counted
  have hnot : allSet cg'.free ((b + 1) * sb.fragsPerBlock) sb.fragsPerBlock = false := by
    by_contra hall
    rw [Bool.not_eq_false] at hall
    have hword : cg'.cs.nbfree + UInt32.ofNat 0 =
        cg.cs.nbfree + UInt32.ofNat (blockFull sb.fragsPerBlock b cg'.free) := by
      rw [hnbfree, hfree]
      unfold blockFull blockIsFree
      split
      · exact UInt32.add_zero _
      · simp
    have hsum := hchange (blockFull_local _)
    have hone : blockFull sb.fragsPerBlock (b + 1) cg'.free = 1 := by simp [blockFull, hall]
    have hzero : blockFull sb.fragsPerBlock b cg.free = 0 ∧
        blockFull sb.fragsPerBlock (b + 1) cg.free = 0 := by simp [blockFull, hbefore]
    exact word_short hc.nbfree hword hc'.nbfree (by omega)
  -- its first run is one more of its length
  obtain ⟨m, hm⟩ : ∃ m, l + n = (b + 1) * sb.fragsPerBlock + m :=
    ⟨l + n - (b + 1) * sb.fragsPerBlock, by omega⟩
  obtain ⟨k, hk₀, hk, hruns⟩ := runs_of_prefix (v := cg'.free) (w := cg.free)
    (p := (b + 1) * sb.fragsPerBlock) (n := sb.fragsPerBlock) (m := m) (by omega)
    (fun i hi => hclear _ (by omega) (by omega))
    (fun i hi => by rw [hfree]; exact if_pos ⟨by omega, by omega⟩)
    (fun i _ hi => by rw [hfree]; exact if_neg (by omega)) (by omega)
    (fun hall => by rw [allSet_iff.mpr hall] at hnot; cases hnot)
  have hsum := hchange (blockRuns_local _ k)
  simp only [blockRuns_eq hk] at hsum
  rw [hruns] at hsum
  have hword := @applyCgFrsumDelta_eq cg.frsum cg.free cg'.free (b * sb.fragsPerBlock) _ _ hk₀ hk
  rw [hfree, ← hfrsum] at hword
  rw [hfree] at hsum
  exact word_short (hc.frsum k hk₀ hk) hword (hc'.frsum k hk₀ hk) (by omega)

end Straddle

/-! ## §2 The indices -/

/-- Bit `i` of the free map of a group's block. -/
def mapBit (b : ByteStore) (i : Nat) : Bool := (b (CG_FREE_OFF + i / 8)).toNat.testBit (i % 8)

/-- The group's block holds the group: its magic number and its free map. -/
structure GroupBytes (b : ByteStore) (cg : Cg) : Prop where
  magic : be32 b CG_MAGIC_OFF = cg.magic
  free : ∀ i, mapBit b i = cg.free i

/-- `x` comes to a result and leaves the buffer. -/
def Reads {α : Type} (x : CgM α) : Prop :=
  ∀ s, ∃ a s', x s = .ok a s' ∧ s'.bytes = s.bytes

section Reads

variable {α β : Type}

theorem reads_pure (a : α) : Reads (pure a : CgM α) := fun s => ⟨a, s, rfl, rfl⟩

theorem reads_bind {x : CgM α} {f : α → CgM β} (hx : Reads x) (hf : ∀ a, Reads (f a)) :
    Reads (x >>= f) := fun s => by
  obtain ⟨a, s₁, h₁, hb₁⟩ := hx s
  obtain ⟨b, s₂, h₂, hb₂⟩ := hf a s₁
  exact ⟨b, s₂, bind_ok.mpr ⟨a, s₁, h₁, h₂⟩, hb₂.trans hb₁⟩

theorem reads_readBit (array : CgArray) (off i : Nat) : Reads (readBit array off i) :=
  fun _ => ⟨_, _, rfl, rfl⟩

theorem reads_freeRunLength : ∀ (n base : Nat), Reads (freeRunLength base n)
  | 0, _ => reads_pure _
  | n + 1, base => reads_bind (reads_readBit _ _ _) fun b => by
      cases b
      · exact reads_pure _
      · exact reads_bind (reads_freeRunLength n (base + 1)) fun _ => reads_pure _

theorem reads_countRunsLoop (base fpb : Nat) : ∀ (fuel i : Nat) (counts : Nat → Nat),
    Reads (countRunsLoop base fpb fuel i counts)
  | 0, _, _ => reads_pure _
  | fuel + 1, i, counts => by
    unfold countRunsLoop
    split
    · exact reads_bind (reads_freeRunLength _ _) fun _ => reads_countRunsLoop base fpb fuel _ _
    · exact reads_pure _

end Reads

/-- Setting a bit leaves the others. -/
theorem mapBit_set (b : ByteStore) (i j : Nat) :
    mapBit (Function.update b (CG_FREE_OFF + i / 8)
      (b (CG_FREE_OFF + i / 8) ||| UInt8.ofNat (2 ^ (i % 8)))) j =
        (mapBit b j || decide (i = j)) := by
  unfold mapBit
  by_cases hbyte : j / 8 = i / 8
  · rw [hbyte, Function.update_self, UInt8.toNat_or, Nat.testBit_or]
    congr 1
    have hlt : 2 ^ (i % 8) < 2 ^ 8 :=
      Nat.pow_lt_pow_right (by decide) (Nat.mod_lt i (by decide))
    have hpow : (UInt8.ofNat (2 ^ (i % 8))).toNat = 2 ^ (i % 8) := UInt8.toNat_ofNat_of_lt' hlt
    rw [hpow, Nat.testBit_two_pow]
    by_cases hij : i = j
    · simp [hij]
    · rw [decide_eq_false fun h => hij (by omega), decide_eq_false hij]
  · rw [Function.update_of_ne (by omega), decide_eq_false (by rintro rfl; exact hbyte rfl),
      Bool.or_false]

section Indices

variable {sb : Superblock}

/-- The touch of bit `i` of the free map. -/
def freeTouch (i : Nat) : Touch := ⟨.free, ⟨CG_FREE_OFF + i / 8, 1⟩⟩

/-- The loop stops at the first bit that is set, having touched the bits up to it. -/
theorem giveRun_stops : ∀ {n base t : Nat} {s : CgBuf}, t < n →
    (∀ j < t, mapBit s.bytes (base + j) = false) → mapBit s.bytes (base + t) = true →
    ∃ s', giveRun base n s = .error .EINVAL s' ∧ freeTouch (base + t) ∈ s'.log ∧
      ∀ u ∈ s'.log, u ∈ s.log ∨ ∃ j ≤ t, u = freeTouch (base + j)
  | 0, _, _, _, ht, _, _ => absurd ht (Nat.not_lt_zero _)
  | n + 1, base, t, s, ht, hclear, hset => by
    cases t with
    | zero =>
      refine ⟨{ s with log := freeTouch base :: s.log }, ?_, ?_, fun u hu => ?_⟩
      · refine bind_error.mpr (.inr ⟨mapBit s.bytes base, _, rfl, bind_error.mpr (.inl ?_)⟩)
        exact check_error.mpr ⟨by rw [Nat.add_zero] at hset; simp [hset], rfl, rfl⟩
      · rw [Nat.add_zero]
        exact List.mem_cons_self
      · rcases List.mem_cons.mp hu with rfl | hu
        · exact .inr ⟨0, Nat.le_refl 0, by rw [Nat.add_zero]⟩
        · exact .inl hu
    | succ t =>
      have h₀ := hclear 0 (Nat.succ_pos t)
      rw [Nat.add_zero] at h₀
      obtain ⟨s₁, hs₁⟩ : ∃ s₁ : CgBuf, s₁ =
          { bytes := Function.update s.bytes (CG_FREE_OFF + base / 8)
              (s.bytes (CG_FREE_OFF + base / 8) ||| UInt8.ofNat (2 ^ (base % 8)))
            log := freeTouch base :: freeTouch base :: s.log } := ⟨_, rfl⟩
      have hbits : ∀ j, mapBit s₁.bytes (base + 1 + j) = mapBit s.bytes (base + (j + 1)) :=
        fun j => by
          rw [hs₁, mapBit_set, decide_eq_false (by omega), Bool.or_false, Nat.add_right_comm,
            Nat.add_assoc]
      obtain ⟨s', herr, hmem, hlog⟩ := @giveRun_stops n (base + 1) t s₁
        (by omega) (fun j hj => by rw [hbits]; exact hclear (j + 1) (by omega))
        (by rw [hbits]; exact hset)
      refine ⟨s', ?_, ?_, fun u hu => ?_⟩
      · refine bind_error.mpr (.inr ⟨mapBit s.bytes base, _, rfl, bind_error.mpr (.inr
          ⟨⟨⟩, _, check_ok.mpr ⟨h₀, rfl⟩, bind_error.mpr (.inr ⟨⟨⟩, s₁, ?_, herr⟩)⟩)⟩)
        rw [hs₁]
        rfl
      · rwa [Nat.add_right_comm, Nat.add_assoc] at hmem
      · rcases hlog u hu with h | ⟨j, hj, rfl⟩
        · rw [hs₁] at h
          rcases List.mem_cons.mp h with rfl | h
          · exact .inr ⟨0, Nat.zero_le _, by rw [Nat.add_zero]⟩
          · rcases List.mem_cons.mp h with rfl | h
            · exact .inr ⟨0, Nat.zero_le _, by rw [Nat.add_zero]⟩
            · exact .inl h
        · exact .inr ⟨j + 1, by omega, by rw [Nat.add_right_comm, Nat.add_assoc]⟩

/-- A loop that meets no bit that is set touches them all. -/
theorem giveRun_runs : ∀ {n base : Nat} {s : CgBuf},
    (∀ j < n, mapBit s.bytes (base + j) = false) →
    ∃ s', giveRun base n s = .ok ⟨⟩ s' ∧ (∀ j < n, freeTouch (base + j) ∈ s'.log) ∧
      ∀ u ∈ s.log, u ∈ s'.log
  | 0, _, s, _ => ⟨s, rfl, fun j hj => absurd hj (Nat.not_lt_zero j), fun _ h => h⟩
  | n + 1, base, s, hclear => by
    have h₀ := hclear 0 (Nat.succ_pos n)
    rw [Nat.add_zero] at h₀
    obtain ⟨s₁, hs₁⟩ : ∃ s₁ : CgBuf, s₁ =
        { bytes := Function.update s.bytes (CG_FREE_OFF + base / 8)
            (s.bytes (CG_FREE_OFF + base / 8) ||| UInt8.ofNat (2 ^ (base % 8)))
          log := freeTouch base :: freeTouch base :: s.log } := ⟨_, rfl⟩
    have hbits : ∀ j, mapBit s₁.bytes (base + 1 + j) = mapBit s.bytes (base + (j + 1)) :=
      fun j => by
        rw [hs₁, mapBit_set, decide_eq_false (by omega), Bool.or_false, Nat.add_right_comm,
          Nat.add_assoc]
    obtain ⟨s', hok, hmem, hlog⟩ := @giveRun_runs n (base + 1) s₁ fun j hj => by
      rw [hbits]
      exact hclear (j + 1) (by omega)
    refine ⟨s', ?_, fun j hj => ?_, fun u hu => hlog u ?_⟩
    · refine bind_ok.mpr ⟨mapBit s.bytes base, _, rfl, bind_ok.mpr
        ⟨⟨⟩, _, check_ok.mpr ⟨h₀, rfl⟩, bind_ok.mpr ⟨⟨⟩, s₁, ?_, hok⟩⟩⟩
      rw [hs₁]
      rfl
    · cases j with
      | zero =>
        refine hlog _ ?_
        rw [hs₁, Nat.add_zero]
        exact List.mem_cons_self
      | succ j =>
        have := hmem j (by omega)
        rwa [Nat.add_right_comm, Nat.add_assoc] at this
    · rw [hs₁]
      exact List.mem_cons_of_mem _ (List.mem_cons_of_mem _ hu)

/-- The log only grows. -/
abbrev Logged {α : Type} (t : Touch) (x : CgM α) : Prop := Keeps (t ∈ CgBuf.log ·) Anything x

section Logged

variable {t : Touch}

theorem logged_touch (array : CgArray) (off size : Nat) : Logged t (touch array off size) :=
  keeps_modify fun _ => List.mem_cons_of_mem _

theorem logged_readWord (off : Nat) : Logged t (readWord off) :=
  keeps_bind keeps_get fun _ _ => keeps_pure trivial

theorem logged_writeWord (off value : Nat) : Logged t (writeWord off value) :=
  keeps_modify fun _ h => h

theorem logged_addWord (array : CgArray) (off delta : Nat) : Logged t (addWord array off delta) :=
  keeps_bind (logged_touch _ _ _) fun _ _ =>
  keeps_bind (logged_readWord _) fun _ _ => logged_writeWord _ _

theorem logged_readBit (array : CgArray) (off i : Nat) : Logged t (readBit array off i) :=
  keeps_bind (logged_touch _ _ _) fun _ _ => keeps_bind keeps_get fun _ _ => keeps_pure trivial

theorem logged_runIsFree : ∀ (n base : Nat), Logged t (runIsFree base n)
  | 0, _ => keeps_pure trivial
  | n + 1, base => keeps_bind (logged_readBit _ _ _) fun b _ => by
      cases b
      · exact keeps_pure trivial
      · exact logged_runIsFree n (base + 1)

theorem logged_freeRunLength : ∀ (n base : Nat), Logged t (freeRunLength base n)
  | 0, _ => keeps_pure trivial
  | n + 1, base => keeps_bind (logged_readBit _ _ _) fun b _ => by
      cases b
      · exact keeps_pure trivial
      · exact keeps_bind (logged_freeRunLength n (base + 1)) fun _ _ => keeps_pure trivial

theorem logged_countRunsLoop (base fpb : Nat) : ∀ (fuel i : Nat) (counts : Nat → Nat),
    Logged t (countRunsLoop base fpb fuel i counts)
  | 0, _, _ => keeps_pure trivial
  | fuel + 1, i, counts => by
    unfold countRunsLoop
    split
    · exact keeps_bind (logged_freeRunLength _ _) fun _ _ => logged_countRunsLoop _ _ _ _ _
    · exact keeps_pure trivial

theorem logged_applyFrsumDelta (before after : Nat → Nat) : ∀ n : Nat,
    Logged t (applyFrsumDelta before after n)
  | 0 => keeps_pure trivial
  | n + 1 => keeps_bind (logged_applyFrsumDelta before after n) fun _ _ =>
      keeps_bind (logged_touch _ _ _) fun _ _ => by
        split
        · exact logged_addWord _ _ _
        · exact keeps_pure trivial

theorem logged_addBlockCounts (frag delta : Nat) : Logged t (addBlockCounts sb frag delta) := by
  unfold addBlockCounts
  dsimp only
  split
  · exact keeps_bind (logged_addWord _ _ _) fun _ _ =>
      keeps_bind (logged_touch _ _ _) fun _ _ => keeps_modify fun _ h => h
  · exact keeps_pure trivial

end Logged

theorem freeTouch_inside {i : Nat} : (freeTouch i).Inside sb ↔ i < mapBits sb := by
  unfold mapBits
  simp only [freeTouch, Touch.Inside, Region.Within, Region.stop, CgArray.region]
  omega

/-- A run with a bit that is set: the call stops there. -/
theorem freeRun_stops {frag n t : Nat} {bytes : ByteStore} (hg : Geometry sb)
    (hn : n ≠ 0 ∧ n ≤ sb.fragsPerBlock) (hmagic : be32 bytes CG_MAGIC_OFF = CG_MAGIC) (ht : t < n)
    (hclear : ∀ j < t, mapBit bytes (frag % sb.fragsPerGroup + j) = false)
    (hset : mapBit bytes (frag % sb.fragsPerGroup + t) = true) :
    freeTouch (frag % sb.fragsPerGroup + t) ∈ (GroupCall.freeRun frag n).touches sb bytes ∧
      (frag % sb.fragsPerGroup + t < mapBits sb →
        ∀ u ∈ (GroupCall.freeRun frag n).touches sb bytes, u.Inside sb) := by
  obtain ⟨before, s₁, hcount, hsame⟩ := reads_countRunsLoop
    (frag % sb.fragsPerGroup - frag % sb.fragsPerGroup % sb.fragsPerBlock) sb.fragsPerBlock
    sb.fragsPerBlock 0 (fun _ => 0) ⟨bytes, []⟩
  have hinside : s₁.Inside sb := by
    have h := safe_countRuns (around_le_mapBits hg frag) ⟨bytes, []⟩ fun t ht => nomatch ht
    unfold countRuns at h
    rw [hcount] at h
    exact h.1
  obtain ⟨s', herr, hmem, hlog⟩ := @giveRun_stops _ (frag % sb.fragsPerGroup) _ s₁ ht
    (by rw [hsame]; exact hclear) (by rw [hsame]; exact hset)
  have hrun : (GroupCall.freeRun frag n).run sb ⟨bytes, []⟩ = .error .EINVAL s' :=
    bind_error.mpr (.inr ⟨⟨⟩, _, check_ok.mpr ⟨hn, rfl⟩, bind_error.mpr (.inr
      ⟨be32 bytes CG_MAGIC_OFF, _, rfl, bind_error.mpr (.inr ⟨⟨⟩, _, check_ok.mpr ⟨hmagic, rfl⟩,
        bind_error.mpr (.inr ⟨before, s₁, hcount, bind_error.mpr (.inl herr)⟩)⟩)⟩)⟩)
  have htouches : (GroupCall.freeRun frag n).touches sb bytes = s'.log := by
    unfold GroupCall.touches
    rw [hrun]
    rfl
  rw [htouches]
  refine ⟨hmem, fun hlt u hu => ?_⟩
  rcases hlog u hu with h | ⟨j, hj, rfl⟩
  · exact hinside u h
  · exact freeTouch_inside.mpr (by omega)

/-- A run with no bit that is set: the call touches all its bits, and nothing but the map if they are
in it. -/
theorem freeRun_runs {frag n : Nat} {bytes : ByteStore} (hg : Geometry sb)
    (hn : n ≠ 0 ∧ n ≤ sb.fragsPerBlock) (hmagic : be32 bytes CG_MAGIC_OFF = CG_MAGIC)
    (hclear : ∀ j < n, mapBit bytes (frag % sb.fragsPerGroup + j) = false) :
    (∀ j < n, freeTouch (frag % sb.fragsPerGroup + j) ∈
      (GroupCall.freeRun frag n).touches sb bytes) ∧
    (frag % sb.fragsPerGroup + n ≤ mapBits sb →
      ∀ u ∈ (GroupCall.freeRun frag n).touches sb bytes, u.Inside sb) := by
  constructor
  · intro j hj
    obtain ⟨before, s₁, hcount, hsame⟩ := reads_countRunsLoop
      (frag % sb.fragsPerGroup - frag % sb.fragsPerGroup % sb.fragsPerBlock) sb.fragsPerBlock
      sb.fragsPerBlock 0 (fun _ => 0) ⟨bytes, []⟩
    obtain ⟨s₂, hgive, hmem, -⟩ := @giveRun_runs n (frag % sb.fragsPerGroup) s₁
      (by rw [hsame]; exact hclear)
    -- what follows the loop only adds to the log
    have hrest : Logged (freeTouch (frag % sb.fragsPerGroup + j)) (do
        let after ← countRuns
          (frag % sb.fragsPerGroup - frag % sb.fragsPerGroup % sb.fragsPerBlock) sb.fragsPerBlock
        applyFrsumDelta before after (sb.fragsPerBlock - 1)
        let whole ← runIsFree
          (frag % sb.fragsPerGroup - frag % sb.fragsPerGroup % sb.fragsPerBlock) sb.fragsPerBlock
        let nffree ← readWord CG_CS_NFFREE_OFF
        if whole then do
          writeWord CG_CS_NFFREE_OFF (nffree + n + (4294967296 - sb.fragsPerBlock))
          let nbfree ← readWord CG_CS_NBFREE_OFF
          writeWord CG_CS_NBFREE_OFF (nbfree + 1)
          addBlockCounts sb
            (frag % sb.fragsPerGroup - frag % sb.fragsPerGroup % sb.fragsPerBlock) 1
        else writeWord CG_CS_NFFREE_OFF (nffree + n)) := by
      refine keeps_bind (logged_countRunsLoop _ _ _ _ _) fun _ _ =>
        keeps_bind (logged_applyFrsumDelta _ _ _) fun _ _ =>
        keeps_bind (logged_runIsFree _ _) fun whole _ =>
        keeps_bind (logged_readWord _) fun _ _ => ?_
      cases whole
      · exact logged_writeWord _ _
      · exact keeps_bind (logged_writeWord _ _) fun _ _ =>
          keeps_bind (logged_readWord _) fun _ _ =>
          keeps_bind (logged_writeWord _ _) fun _ _ => logged_addBlockCounts _ _
    have hlog := hrest s₂ (hmem j hj)
    have hrun : (GroupCall.freeRun frag n).run sb ⟨bytes, []⟩ = _ :=
      calc freeRunInBlock sb frag n ⟨bytes, []⟩
        _ = _ := bind_of_ok (a := ⟨⟩) (check_ok.mpr ⟨hn, rfl⟩)
        _ = _ := bind_of_ok (a := be32 bytes CG_MAGIC_OFF) rfl
        _ = _ := bind_of_ok (a := ⟨⟩) (check_ok.mpr ⟨hmagic, rfl⟩)
        _ = _ := bind_of_ok hcount
        _ = _ := bind_of_ok hgive
    unfold GroupCall.touches
    rw [hrun]
    exact hlog.final_of fun _ h => h.1
  · intro hend u hu
    have hsafe := safe_freeRunInBlock hg hend ⟨bytes, []⟩ fun t ht => nomatch ht
    exact hsafe.final_of (fun _ h => h.1) u hu

end Indices

/-! ## §3 The exact condition -/

section Exact

variable {fs fs' : Fs} {frag n : Nat}

/-- What the call touches of the free map: nothing if the group's block cannot be read. -/
def Fs.freeTouches (fs : Fs) (bytes : ByteStore) (frag n : Nat) : List Touch :=
  if fs.inImage fs.img.sb.cgSize (cgBlockOffset fs.img.sb (frag / fs.img.sb.fragsPerGroup)) then
    (GroupCall.freeRun frag n).touches fs.img.sb bytes
  else []

/-- What is asked of the call: it fails with everything as it was, or makes exactly the run free with
all counters right; and it stays inside the free map. `bytes` is the group's block. -/
def FreeFine (fs : Fs) (bytes : ByteStore) (frag n : Nat) : Prop :=
  ((∃ e, freeFragmentRun frag n fs = .error e fs) ∨
    ∃ u fs', freeFragmentRun frag n fs = .ok u fs' ∧ Gave fs frag n fs') ∧
  ∀ t ∈ fs.freeTouches bytes frag n, t.Inside fs.img.sb

/-- A test on the length, the place of the group's block or its magic number fails. -/
def Fs.FreeRefused (fs : Fs) (frag n : Nat) : Prop :=
  n = 0 ∨ fs.img.sb.fragsPerBlock < n ∨
  ¬ fs.inImage fs.img.sb.cgSize (cgBlockOffset fs.img.sb (frag / fs.img.sb.fragsPerGroup)) ∨
  (fs.cg (frag / fs.img.sb.fragsPerGroup)).magic ≠ CG_MAGIC

/-- The call refuses the run, or may not write and stays in the map, or the run lies in one block of
a group. -/
def FreeSafe (fs : Fs) (frag n : Nat) : Prop :=
  fs.FreeRefused frag n ∨
  (∃ i < n, frag % fs.img.sb.fragsPerGroup + i < mapBits fs.img.sb ∧
    (fs.cg (frag / fs.img.sb.fragsPerGroup)).free (frag % fs.img.sb.fragsPerGroup + i) = true) ∨
  (fs.img.writable = false ∧ frag % fs.img.sb.fragsPerGroup + n ≤ mapBits fs.img.sb) ∨
  fs.RunOk frag n

/-- The counts move. -/
theorem Fs.freedDelta_ne (fs : Fs) (frag n : Nat) :
    (fs.freedDelta frag n).nbfree ≠ 0 ∨ (fs.freedDelta frag n).nffree = UInt32.ofNat n := by
  have hone : (1 : UInt32) ≠ 0 := by decide
  unfold Fs.freedDelta Cg.giveDelta
  split
  · exact .inl hone
  · exact .inr rfl

/-- A few fragments are not none, as words. -/
theorem ofNat_ne_zero (hg : Geometry fs.img.sb) (hn : n ≠ 0 ∧ n ≤ fs.img.sb.fragsPerBlock) :
    UInt32.ofNat n ≠ 0 := by
  intro h
  have h₁ := congrArg UInt32.toNat h
  have h₂ : n ≤ 8 := by rcases hg.fpb_cases with h | h | h | h <;> omega
  rw [UInt32.toNat_ofNat'] at h₁
  have h₃ : (0 : UInt32).toNat = 0 := rfl
  omega

/-- A call that succeeds on a run outside one block of a group leaves disagreeing counters. -/
theorem freeFragmentRun_spoils {u : PUnit} (hg : Geometry fs.img.sb) (hc : fs.Consistent)
    (hrun : ¬ fs.RunOk frag n) (h : freeFragmentRun frag n fs = .ok u fs') : ¬ fs'.Consistent := by
  intro hc'
  obtain ⟨⟨⟨hn₀, hn⟩, -, -, hclear⟩, rfl⟩ := freeFragmentRun_eq h
  have hd := fs.freedDelta_ne frag n
  unfold Fs.freedGroup at hc'
  generalize fs.freedDelta frag n = d at hc' hd
  obtain ⟨c, hcdef⟩ : ∃ c, frag / fs.img.sb.fragsPerGroup = c := ⟨_, rfl⟩
  obtain ⟨l, hl⟩ : ∃ l, frag % fs.img.sb.fragsPerGroup = l := ⟨_, rfl⟩
  rw [hcdef, hl] at hc' hclear
  have hlt : l < fs.img.sb.fragsPerGroup := hl ▸ Nat.mod_lt _ hg.fpg_pos
  by_cases hcc : c < fs.img.sb.cgCount
  · have hcg' := hc'.group c hcc
    simp only [Fs.withGroup, Function.update_self] at hcg'
    obtain ⟨hfree, hnd⟩ := @Cg.giveFrags_free fs.img.sb (fs.cg c) l n hg
      (l - l % fs.img.sb.fragsPerBlock) (by omega)
    by_cases hend : l + n ≤ (fs.cg c).ndblk
    · refine (hc.group c hcc).not_straddle hg hn hend ?_
        (fun i h₁ h₂ => by
          have := hclear (i - l) (by omega)
          rwa [Nat.add_sub_cancel' h₁] at this) hcg'
      by_contra hle
      exact hrun ⟨Nat.pos_of_ne_zero hn₀, by rwa [hcdef], by rwa [hcdef, hl], by
        rw [hl]
        omega⟩
    · -- the last bit lies past the end of the group
      have := hcg'.free_lt (l + n - 1) (by
        rw [hfree]
        exact if_pos ⟨by omega, by omega⟩)
      rw [hnd] at this
      omega
  · -- the totals move and no group does
    have hsame : ∀ word : Csum → UInt32,
        (fs.withGroup c ((fs.cg c).giveFrags fs.img.sb (l - l % fs.img.sb.fragsPerBlock) l n)
          d).sumWord word = fs.sumWord word := fun word => by
      refine Finset.sum_congr rfl fun a ha => ?_
      have ha' := Finset.mem_range.mp ha
      have hne : a ≠ c := by
        rintro rfl
        exact hcc ha'
      simp [Fs.withGroup, hne]
    have hword : ∀ x y : UInt32, (x + y).toNat = x.toNat → y = 0 := fun x y hxy => by
      have := UInt32.toNat_inj.mp hxy
      grind
    have hzero : d.nbfree = 0 ∧ d.nffree = 0 :=
      ⟨hword _ _ (by rw [hc.nbfree, ← hsame]; exact hc'.nbfree),
        hword _ _ (by rw [hc.nffree, ← hsame]; exact hc'.nffree)⟩
    rcases hd with h | h
    · exact h hzero.1
    · exact ofNat_ne_zero hg ⟨hn₀, hn⟩ (h.symm.trans hzero.2)

/-- A call that gets as far as its writes fails with everything as it was only if it may not
write. -/
theorem freeFragmentRun_failed {e : Errno} (hg : Geometry fs.img.sb) (htests : fs.FreeTests frag n)
    (h : freeFragmentRun frag n fs = .error e fs) : fs.img.writable = false := by
  rcases freeFragmentRun_cases fs frag n with ⟨hno, -⟩ | ⟨-, heq⟩
  · exact absurd htests hno
  rw [heq] at h
  simp only [bind_error, writeCg_error, writeCg_ok, updateSummaryCounts_error] at h
  rcases h with ⟨⟨hw, -⟩ | ⟨-, hin, -⟩, -⟩ | ⟨_, _, ⟨-, -, rfl⟩, -, -, hfs⟩
  · simpa using hw
  · exact absurd htests.inImage hin
  · -- the totals have moved
    have htotals := congrArg Fs.totals hfs
    have hword : ∀ x y : UInt32, x + y = x → y = 0 := fun x y hxy => by grind
    rcases fs.freedDelta_ne frag n with hd | hd
    · exact absurd (hword _ _ (congrArg Csum.nbfree htotals)) hd
    · exact absurd (hd.symm.trans (hword _ _ (congrArg Csum.nffree htotals)))
        (ofNat_ne_zero hg htests.length)

theorem freeTests_of_not_refused (h : ¬ fs.FreeRefused frag n)
    (hclear : ∀ i < n, (fs.cg (frag / fs.img.sb.fragsPerGroup)).free
      (frag % fs.img.sb.fragsPerGroup + i) = false) : fs.FreeTests frag n := by
  simp only [Fs.FreeRefused, not_or, Nat.not_lt, not_not] at h
  exact ⟨⟨h.1, h.2.1⟩, h.2.2.1, h.2.2.2, hclear⟩

/-- A failing test. -/
theorem freeFragmentRun_refuses (h : ¬ fs.FreeTests frag n) :
    ∃ e, freeFragmentRun frag n fs = .error e fs := by
  rcases freeFragmentRun_cases fs frag n with ⟨-, he⟩ | ⟨htests, -⟩
  · exact he
  · exact absurd htests h

/-- A call that refuses before it looks at the map. -/
theorem freeFine_of_refused {bytes : ByteStore}
    (hbytes : GroupBytes bytes (fs.cg (frag / fs.img.sb.fragsPerGroup)))
    (h : fs.FreeRefused frag n) : FreeFine fs bytes frag n := by
  have hno : ¬ fs.FreeTests frag n := fun ht => by
    rcases h with h | h | h | h
    · exact ht.length.1 h
    · exact absurd ht.length.2 (Nat.not_le.mpr h)
    · exact h ht.inImage
    · exact h ht.magic
  refine ⟨.inl (freeFragmentRun_refuses hno), ?_⟩
  have htouches : fs.freeTouches bytes frag n = [] := by
    unfold Fs.freeTouches
    split
    case isFalse => rfl
    case isTrue hin =>
      unfold GroupCall.touches
      by_cases hn : n ≠ 0 ∧ n ≤ fs.img.sb.fragsPerBlock
      · have hm : ¬ be32 bytes CG_MAGIC_OFF = CG_MAGIC := by
          rw [hbytes.magic]
          rcases h with h | h | h | h
          · exact absurd h hn.1
          · omega
          · exact absurd hin h
          · exact h
        have herr : (GroupCall.freeRun frag n).run fs.img.sb ⟨bytes, []⟩ =
            .error .EINVAL ⟨bytes, []⟩ :=
          bind_error.mpr (.inr ⟨⟨⟩, _, check_ok.mpr ⟨hn, rfl⟩, bind_error.mpr (.inr
            ⟨be32 bytes CG_MAGIC_OFF, _, rfl, bind_error.mpr (.inl
              (check_error.mpr ⟨hm, rfl, rfl⟩))⟩)⟩)
        rw [herr]
        rfl
      · have herr : (GroupCall.freeRun frag n).run fs.img.sb ⟨bytes, []⟩ =
            .error .EINVAL ⟨bytes, []⟩ :=
          bind_error.mpr (.inl (check_error.mpr ⟨hn, rfl, rfl⟩))
        rw [herr]
        rfl
  rw [htouches]
  exact fun t ht => nomatch ht

/-- The first bit of the run that is set. -/
theorem exists_first_free {free : Nat → Bool} {l : Nat} (h : ∃ i < n, free (l + i) = true) :
    ∃ t < n, free (l + t) = true ∧ ∀ j < t, free (l + j) = false := by
  obtain ⟨i, hi, hset⟩ := h
  have hex : ∃ t, free (l + t) = true := ⟨i, hset⟩
  refine ⟨Nat.find hex, Nat.lt_of_le_of_lt (Nat.find_min' hex hset) hi, Nat.find_spec hex,
    fun j hj => ?_⟩
  simpa using Nat.find_min hex hj

/-- A run with a set bit in the map: the call stops at the first. -/
theorem freeFine_of_set {bytes : ByteStore} (hg : Geometry fs.img.sb)
    (hbytes : GroupBytes bytes (fs.cg (frag / fs.img.sb.fragsPerGroup)))
    (hrefused : ¬ fs.FreeRefused frag n) {i : Nat} (hi : i < n)
    (hin : frag % fs.img.sb.fragsPerGroup + i < mapBits fs.img.sb)
    (hset : (fs.cg (frag / fs.img.sb.fragsPerGroup)).free
      (frag % fs.img.sb.fragsPerGroup + i) = true) : FreeFine fs bytes frag n := by
  obtain ⟨t, ht, htset, hfirst⟩ := exists_first_free ⟨i, hi, hset⟩
  have hti : t ≤ i := by
    by_contra hlt
    exact absurd ((hfirst i (by omega)).symm.trans hset) (by decide)
  refine ⟨.inl (freeFragmentRun_refuses fun htests => ?_), ?_⟩
  · exact absurd ((htests.clear i hi).symm.trans hset) (by decide)
  · simp only [Fs.FreeRefused, not_or, Nat.not_lt, not_not] at hrefused
    obtain ⟨hn₀, hn, himg, hm⟩ := hrefused
    rw [Fs.freeTouches, if_pos himg]
    exact (freeRun_stops hg ⟨hn₀, hn⟩ (hbytes.magic.trans hm) ht
      (fun j hj => by rw [hbytes.free]; exact hfirst j hj)
      (by rw [hbytes.free]; exact htset)).2 (by omega)

/-- A run with no set bit: the call touches the map alone when the run ends in it. -/
theorem freeTouches_inside {bytes : ByteStore} (hg : Geometry fs.img.sb)
    (hbytes : GroupBytes bytes (fs.cg (frag / fs.img.sb.fragsPerGroup)))
    (htests : fs.FreeTests frag n) :
    (∀ t ∈ fs.freeTouches bytes frag n, t.Inside fs.img.sb) ↔
      frag % fs.img.sb.fragsPerGroup + n ≤ mapBits fs.img.sb := by
  obtain ⟨hall, hinside⟩ := freeRun_runs hg htests.length (hbytes.magic.trans htests.magic)
    fun j hj => by rw [hbytes.free]; exact htests.clear j hj
  rw [Fs.freeTouches, if_pos htests.inImage]
  refine ⟨fun h => ?_, hinside⟩
  have hlast := freeTouch_inside.mp (h _ (hall (n - 1) (by have := htests.length.1; omega)))
  have := htests.length.1
  omega

/-- **Freeing a run.** On a consistent filesystem in an open image, for any run whatever and the block
of the group it begins in, the call does what it should if and only if it refuses the run, may not
write and stays in the map, or the run lies in one block of a group. -/
theorem freeFragmentRun_fine_iff {bytes : ByteStore} (hs : fs.Opened) (hc : fs.Consistent)
    (hbytes : GroupBytes bytes (fs.cg (frag / fs.img.sb.fragsPerGroup))) :
    FreeFine fs bytes frag n ↔ FreeSafe fs frag n := by
  have hg := hs.geometry
  constructor
  · rintro ⟨hresult, hinside⟩
    by_contra hsafe
    simp only [FreeSafe, not_or, not_exists, not_and] at hsafe
    obtain ⟨hrefused, hnone, hwrite, hrun⟩ := hsafe
    by_cases hset : ∃ i < n, (fs.cg (frag / fs.img.sb.fragsPerGroup)).free
        (frag % fs.img.sb.fragsPerGroup + i) = true
    · -- the loop reads on behind the map
      obtain ⟨t, ht, htset, hfirst⟩ := exists_first_free hset
      simp only [Fs.FreeRefused, not_or, Nat.not_lt, not_not] at hrefused
      obtain ⟨hn₀, hn, himg, hm⟩ := hrefused
      rw [Fs.freeTouches, if_pos himg] at hinside
      have htouch := (freeRun_stops hg ⟨hn₀, hn⟩ (hbytes.magic.trans hm) ht
        (fun j hj => by rw [hbytes.free]; exact hfirst j hj) (by rw [hbytes.free]; exact htset)).1
      exact hnone t ht (freeTouch_inside.mp (hinside _ htouch)) htset
    · have htests := freeTests_of_not_refused hrefused fun i hi => by
        by_contra hone
        exact hset ⟨i, hi, by simpa using hone⟩
      rcases hresult with ⟨e, herr⟩ | ⟨u, fs', hok, hgave⟩
      · exact hwrite (freeFragmentRun_failed hg htests herr)
          ((freeTouches_inside hg hbytes htests).mp hinside)
      · exact freeFragmentRun_spoils hg hc hrun hok hgave.consistent
  · intro hsafe
    by_cases hrefused : fs.FreeRefused frag n
    · exact freeFine_of_refused hbytes hrefused
    rcases hsafe with h | ⟨i, hi, hin, hset⟩ | ⟨hw, hend⟩ | hrun
    · exact absurd h hrefused
    · exact freeFine_of_set hg hbytes hrefused hi hin hset
    · by_cases hset : ∃ i < n, (fs.cg (frag / fs.img.sb.fragsPerGroup)).free
          (frag % fs.img.sb.fragsPerGroup + i) = true
      · obtain ⟨i, hi, hset⟩ := hset
        exact freeFine_of_set hg hbytes hrefused hi (by omega) hset
      have htests := freeTests_of_not_refused hrefused fun i hi => by
        by_contra hone
        exact hset ⟨i, hi, by simpa using hone⟩
      refine ⟨.inl ⟨.EROFS, ?_⟩, (freeTouches_inside hg hbytes htests).mpr hend⟩
      rcases freeFragmentRun_cases fs frag n with ⟨hno, -⟩ | ⟨-, heq⟩
      · exact absurd htests hno
      rw [heq]
      exact bind_error.mpr (.inl (writeCg_error.mpr ⟨.inl ⟨by simp [hw], rfl⟩, rfl⟩))
    · refine ⟨?_, fun t ht => ?_⟩
      · cases hres : freeFragmentRun frag n fs with
        | ok u fs' => exact .inr ⟨u, fs', rfl, freeFragmentRun_ok hg hc hrun hres⟩
        | error e fs' =>
          obtain rfl := freeFragmentRun_error hs hrun.group hres
          exact .inl ⟨e, rfl⟩
      · unfold Fs.freeTouches at ht
        split at ht
        · exact (GroupCall.freeRun frag n).inside hg hrun.inBlock bytes t ht
        · cases ht

end Exact

/-- The group's block of `oneGroupFs`. -/
def oneGroupBytes : ByteStore := fun p =>
  if p = 981 then 9 else if p = 982 then 2 else if p = 983 then 0x55
  else if p = 989 then 0xe0 else if p = 990 ∨ p = 991 then 0xff else 0

theorem oneGroupBytes_holds : GroupBytes oneGroupBytes (oneGroupFs.cg 0) := by
  refine ⟨by decide +kernel, fun i => ?_⟩
  have hsmall : ∀ i < 64, mapBit oneGroupBytes i = (oneGroupFs.cg 0).free i := by decide +kernel
  by_cases hi : i < 64
  · exact hsmall i hi
  · have hbyte : oneGroupBytes (CG_FREE_OFF + i / 8) = 0 := by
      unfold oneGroupBytes CG_FREE_OFF
      rw [if_neg (by omega), if_neg (by omega), if_neg (by omega), if_neg (by omega),
        if_neg (by omega)]
    unfold mapBit
    rw [hbyte]
    simp [oneGroupFs, hi]

/-- Fragments 36 to 43 are in use, four of them in either block. -/
theorem freeFragmentRun_straddles : oneGroupFs.Opened ∧ oneGroupFs.Consistent ∧
    GroupBytes oneGroupBytes (oneGroupFs.cg 0) ∧ ¬ FreeFine oneGroupFs oneGroupBytes 36 8 := by
  refine ⟨⟨by decide +kernel, by decide⟩, oneGroupFs_consistent, oneGroupBytes_holds, ?_⟩
  rintro ⟨hresult, -⟩
  have hrun : finishes (freeFragmentRun 36 8 oneGroupFs) = true := by decide +kernel
  obtain ⟨u, fs', hok⟩ := exists_of_finishes hrun
  rcases hresult with ⟨e, herr⟩ | ⟨u', fs₁, hok', hgave⟩
  · rw [hok] at herr
    cases herr
  · refine freeFragmentRun_spoils (Image.geometry (by decide +kernel)) oneGroupFs_consistent
      (fun h => ?_) hok' hgave.consistent
    exact absurd h.inBlock (by decide)

/-- Fragment 44, in use in front of the free ones. -/
theorem freeFragmentRun_fine_one : FreeFine oneGroupFs oneGroupBytes 44 1 :=
  (freeFragmentRun_fine_iff ⟨by decide +kernel, by decide⟩ oneGroupFs_consistent
    oneGroupBytes_holds).mpr (.inr (.inr (.inr ⟨by decide, by decide, by decide, by decide⟩)))

end NextUfs.Core
