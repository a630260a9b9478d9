/-
NextUfs.Core.AllocCheckedTheorems — the allocator over whole runs of calls.

The calls are those of `Core.AllocChecked`, on a slice that holds the totals.
`Fs.Recorded` is the invariant: the counters agree at all levels, the slice has
the totals, and the metadata is in use. As long as it holds no call writes over
the superblock, so reading the totals from the slice or from where `Core.Alloc`
keeps them is the same (`onDisk_ok`). `AllocCall.Good` is the step, `AllocRun` a
sequence of calls of which any may fail, and a fragment is never handed out
while it is held (`NeverTwice`).
-/
import NextUfs.Core.AllocChecked
import NextUfs.Core.AllocRunTheorems

namespace NextUfs.Core

open NextUfs.Lib NextUfs.Lib.ByteStore NextUfs.Lib.StateResult NextUfs.Lib.Checked

/-! ## The totals in the slice -/

/-- Where the totals are. -/
def totalsStart : Nat := UFS_SBLOCK_OFFSET + SB_NDIR_OFF

theorem totalsAt_setTotals (b : ByteStore) (t : Csum) : totalsAt (setTotals b t) = t := by
  have hword : ∀ v : UInt32, UInt32.ofNat (v.toNat % 4294967296) = v := fun v => by
    rw [Nat.mod_eq_of_lt v.toNat_lt, UInt32.ofNat_toNat]
  unfold totalsAt setTotals
  simp (disch := decide) only [be32_setBe32_of_disjoint, be32_setBe32_self, hword]

theorem setTotals_of_not_mem {b : ByteStore} {t : Csum} {p : Nat}
    (h : p < totalsStart ∨ totalsStart + 16 ≤ p) : setTotals b t p = b p := by
  simp only [totalsStart, UFS_SBLOCK_OFFSET, SB_NDIR_OFF] at h
  simp only [setTotals, setBe32, UFS_SBLOCK_OFFSET, SB_NDIR_OFF, SB_NBFREE_OFF, SB_NIFREE_OFF,
    SB_NFFREE_OFF]
  rw [patch_of_not_mem (by omega), patch_of_not_mem (by omega), patch_of_not_mem (by omega),
    patch_of_not_mem (by omega)]

theorem totalsAt_congr {b b' : ByteStore} (h : ∀ i < 16, b (totalsStart + i) = b' (totalsStart + i)) :
    totalsAt b = totalsAt b' := by
  have hword : ∀ k ≤ 12, be32 b (totalsStart + k) = be32 b' (totalsStart + k) := fun k hk =>
    be32_congr fun i hi => by
      rw [Nat.add_assoc]
      exact h _ (by omega)
  have h₀ := hword 0 (by omega)
  have h₁ := hword 4 (by omega)
  have h₂ := hword 8 (by omega)
  have h₃ := hword 12 (by omega)
  simp only [totalsStart, UFS_SBLOCK_OFFSET, SB_NDIR_OFF, Nat.reduceAdd] at h₀ h₁ h₂ h₃
  simp only [totalsAt, UFS_SBLOCK_OFFSET, SB_NDIR_OFF, SB_NBFREE_OFF, SB_NIFREE_OFF, SB_NFFREE_OFF,
    Nat.reduceAdd, h₀, h₁, h₂, h₃]

/-- The slice has the totals. -/
def Fs.Stored (fs : Fs) : Prop := totalsAt fs.bytes = fs.totals

theorem Fs.stored_stored (fs : Fs) : fs.stored.Stored := totalsAt_setTotals ..

theorem onDisk_eq {α : Type} {x : FsM α} {fs : Fs} (h : fs.Stored) :
    onDisk x fs = match x fs with
      | .ok a fs => .ok a fs.stored
      | .error e fs => .error e fs.stored := by
  have hfs : { fs with totals := totalsAt fs.bytes } = fs := by rw [show totalsAt _ = _ from h]
  cases hx : x fs <;> simp only [onDisk, hfs, hx]

theorem onDisk_ok {α : Type} {x : FsM α} {fs fs' : Fs} {a : α} (h : fs.Stored) :
    onDisk x fs = .ok a fs' ↔ ∃ fs₁, x fs = .ok a fs₁ ∧ fs₁.stored = fs' := by
  rw [onDisk_eq h]
  cases x fs <;> simp

theorem onDisk_error {α : Type} {x : FsM α} {fs fs' : Fs} {e : Errno} (h : fs.Stored) :
    onDisk x fs = .error e fs' ↔ ∃ fs₁, x fs = .error e fs₁ ∧ fs₁.stored = fs' := by
  rw [onDisk_eq h]
  cases x fs <;> simp

/-! ## What callers promise -/

/-- No fragment of the run holds metadata. -/
def Fs.NoMeta (fs : Fs) (frag n : Nat) : Prop :=
  ∀ f, frag ≤ f → f < frag + n → ¬ fs.img.sb.Metadata f

/-- What callers promise: a run they name is allocated and lies in one block; one they give back
holds no metadata, and is not moved to a shorter one. -/
def AllocCall.Valid (fs : Fs) : AllocCall → Prop
  | allocate _ _ => True
  | extend frag n _ => fs.RunOk frag n ∧ fs.Used frag n
  | free frag n => fs.RunOk frag n ∧ fs.Used frag n ∧ fs.NoMeta frag n
  | reallocate old n m _ => fs.RunOk old n ∧ fs.Used old n ∧ fs.NoMeta old n ∧ n ≤ m

/-- The fragments of a run. -/
def fragSet (frag n : Nat) : Set Nat := { f | frag ≤ f ∧ f < frag + n }

theorem mem_fragSet {frag n f : Nat} : f ∈ fragSet frag n ↔ frag ≤ f ∧ f < frag + n := Iff.rfl

/-- The fragments a call with result `r` hands out. -/
def AllocCall.given : AllocCall → Nat → Set Nat
  | allocate _ n, r => fragSet r n
  | extend frag old new, _ => fragSet (frag + old) (new - old)
  | free _ _, _ => ∅
  | reallocate _ _ newFrags _, r => fragSet r newFrags

/-- The fragments a call takes back. -/
def AllocCall.released : AllocCall → Set Nat
  | free frag n => fragSet frag n
  | reallocate old oldFrags _ _ => fragSet old oldFrags
  | _ => ∅

theorem AllocCall.Valid.released {fs : Fs} {call : AllocCall} (h : call.Valid fs) :
    ∀ f ∈ call.released, ¬ fs.img.sb.Metadata f := by
  intro f hf
  cases call with
  | allocate pref n => exact hf.elim
  | extend frag n m => exact hf.elim
  | free frag n => exact h.2.2 f hf.1 hf.2
  | reallocate old n m pref => exact h.2.2.1 f hf.1 hf.2

/-- The run a call with result `r` leaves the caller with lies in one block. -/
def AllocCall.OneBlock (fs : Fs) : AllocCall → Nat → Prop
  | allocate _ n, r => fs.RunOk r n
  | extend frag _ n, _ => fs.RunOk frag n
  | free _ _, _ => True
  | reallocate _ _ n _, r => fs.RunOk r n

/-! ## One call -/

/-- The counters agree at all levels, the slice has the totals, and the metadata is in use. -/
structure Fs.Recorded (fs : Fs) : Prop where
  opened : fs.Opened
  consistent : fs.Consistent
  stored : fs.Stored
  metaUsed : fs.MetaUsed

/-- What a successful call does. -/
structure AllocCall.Good (fs : Fs) (call : AllocCall) (r : Nat) (fs' : Fs) : Prop where
  consistent : fs'.Consistent
  stored : fs'.Stored
  oneBlock : call.OneBlock fs r
  wasFree : ∀ f ∈ call.given r, fs.isFree f = true
  bits : ∀ f, fs'.isFree f = true ↔ f ∈ call.released ∨ (fs.isFree f = true ∧ f ∉ call.given r)
  img : fs'.img = fs.img
  bytes : ∀ p, p < totalsStart ∨ totalsStart + 16 ≤ p → p / fs.img.sb.fragSize ∉ call.given r →
    fs'.bytes p = fs.bytes p

/-- What a call that fails may have done. -/
structure Fs.Weathered (fs fs' : Fs) : Prop where
  consistent : fs'.Consistent
  stored : fs'.Stored
  bits : ∀ f, fs'.isFree f = true → fs.isFree f = true
  img : fs'.img = fs.img

section
variable {fs fs' : Fs} {frag n : Nat}

theorem Fs.Recorded.geometry (h : fs.Recorded) : Geometry fs.img.sb := h.opened.geometry

theorem AllocCall.Good.recorded {call : AllocCall} {r : Nat} (h : fs.Recorded)
    (hv : call.Valid fs) (hgood : call.Good fs r fs') : fs'.Recorded := by
  refine ⟨h.opened.of_img hgood.img, hgood.consistent, hgood.stored, fun f hf => ?_⟩
  rw [hgood.img] at hf
  rw [Bool.eq_false_iff]
  intro hfree
  rcases (hgood.bits f).mp hfree with hr | ⟨hwas, -⟩
  · exact hv.released f hr hf
  · exact absurd ((h.metaUsed f hf).symm.trans hwas) (by decide)

theorem Fs.Weathered.recorded (h : fs.Recorded) (hw : fs.Weathered fs') : fs'.Recorded := by
  refine ⟨h.opened.of_img hw.img, hw.consistent, hw.stored, fun f hf => ?_⟩
  rw [hw.img] at hf
  rw [Bool.eq_false_iff]
  intro hfree
  exact absurd ((h.metaUsed f hf).symm.trans (hw.bits f hfree)) (by decide)

/-- The bytes of a run that was free are not those of the totals. -/
theorem Took.totals_apart (h : fs.Recorded) (ht : Took fs frag n fs') {i : Nat} (hi : i < 16) :
    totalsStart + i < fs.fragOffset frag ∨
      fs.fragOffset frag + n * fs.img.sb.fragSize ≤ totalsStart + i := by
  have hfs := h.geometry.fragSize_ge
  by_contra hin
  rw [not_or, Nat.not_lt, Nat.not_le, Fs.fragOffset, ← Nat.add_mul] at hin
  have hdiv := Nat.div_add_mod' (totalsStart + i) fs.img.sb.fragSize
  have hmod := Nat.mod_lt (totalsStart + i) (show 0 < fs.img.sb.fragSize by omega)
  have hmeta : fs.img.sb.Metadata ((totalsStart + i) / fs.img.sb.fragSize) := by
    refine .inl fun hapart => ?_
    simp only [Region.Apart, Region.stop, totalsBlock, totalsStart, UFS_SBLOCK_OFFSET,
      SB_NDIR_OFF] at hapart hdiv hmod
    omega
  have hfree := ht.wasFree _ ((Nat.le_div_iff_mul_le (by omega)).mpr hin.1)
    ((Nat.div_lt_iff_lt_mul (by omega)).mpr hin.2)
  exact absurd ((h.metaUsed _ hmeta).symm.trans hfree) (by decide)

theorem bytes_stored {p : Nat} (h : p < totalsStart ∨ totalsStart + 16 ≤ p) :
    fs.stored.bytes p = fs.bytes p := setTotals_of_not_mem h

theorem Took.good {call : AllocCall} {r : Nat} (ht : Took fs frag n fs')
    (hgiven : call.given r = fragSet frag n) (hreleased : call.released = ∅)
    (hone : call.OneBlock fs r) : call.Good fs r fs'.stored where
  consistent := ht.consistent.withBytes _
  stored := fs'.stored_stored
  oneBlock := hone
  wasFree f hf := by
    rw [hgiven] at hf
    exact ht.wasFree f hf.1 hf.2
  bits f := by
    rw [hgiven, hreleased]
    show fs'.isFree f = true ↔ _
    rw [ht.bits]
    simp only [mem_fragSet, Set.mem_empty_iff_false, false_or]
    split <;> simp [*]
  img := ht.same.img
  bytes p hp _ := (bytes_stored hp).trans (by rw [ht.same.bytes])

theorem Gave.good (hgave : Gave fs frag n fs') : (AllocCall.free frag n).Good fs frag fs'.stored where
  consistent := hgave.consistent.withBytes _
  stored := fs'.stored_stored
  oneBlock := trivial
  wasFree _ hf := hf.elim
  bits f := by
    show fs'.isFree f = true ↔ _
    rw [hgave.bits]
    simp only [AllocCall.given, AllocCall.released, mem_fragSet, Set.mem_empty_iff_false,
      not_false_eq_true, and_true]
    split <;> simp [*]
  img := hgave.same.img
  bytes p hp _ := (bytes_stored hp).trans (by rw [hgave.same.bytes])

/-- A run taken by a call that then failed. -/
theorem Took.weathered (ht : Took fs frag n fs') : fs.Weathered fs'.stored where
  consistent := ht.consistent.withBytes _
  stored := fs'.stored_stored
  bits f hf := by
    have hbit := ht.bits f
    split at hbit
    · exact absurd (hbit.symm.trans hf) (by decide)
    · exact hbit.symm.trans hf
  img := ht.same.img

/-- The filesystem when the new run is taken and written. -/
structure Copied (fs : Fs) (new n : Nat) (fs' : Fs) : Prop where
  took : ∃ fs₁, Took fs new n fs₁
  consistent : fs'.Consistent
  stored : fs'.Stored
  img : fs'.img = fs.img
  ndblk : ∀ c, (fs'.cg c).ndblk = (fs.cg c).ndblk
  bits : ∀ f, fs'.isFree f = if new ≤ f ∧ f < new + n then false else fs.isFree f
  bytes : ∀ p, p < totalsStart ∨ totalsStart + 16 ≤ p → p / fs.img.sb.fragSize ∉ fragSet new n →
    fs'.bytes p = fs.bytes p

theorem copied_of_write {fs₁ fs₂ : Fs} {buf : ByteStore} {new : Nat} {u : PUnit} (h : fs.Recorded)
    (ht : Took fs new n fs₁)
    (hw : writeSlice buf (n * fs.img.sb.fragSize) (fs.fragOffset new) fs₁.stored = .ok u fs₂) :
    Copied fs new n fs₂ := by
  have hfs := h.geometry.fragSize_ge
  rw [writeSlice_ok hw]
  refine ⟨⟨fs₁, ht⟩, ht.consistent.withBytes _, ?_, ht.same.img, ht.same.ndblk, ht.bits, ?_⟩
  · refine (totalsAt_congr fun i hi => patch_of_not_mem ?_).trans fs₁.stored_stored
    exact ht.totals_apart h hi
  · intro p hp hout
    have hmiss : p < fs.fragOffset new ∨ fs.fragOffset new + n * fs.img.sb.fragSize ≤ p := by
      by_contra hin
      rw [not_or, Nat.not_lt, Nat.not_le, Fs.fragOffset, ← Nat.add_mul] at hin
      exact hout ⟨(Nat.le_div_iff_mul_le (by omega)).mpr hin.1,
        (Nat.div_lt_iff_lt_mul (by omega)).mpr hin.2⟩
    exact (patch_of_not_mem hmiss).trans ((bytes_stored hp).trans (by rw [ht.same.bytes]))

theorem Copied.weathered {new : Nat} (h : Copied fs new n fs') : fs.Weathered fs'.stored where
  consistent := h.consistent.withBytes _
  stored := fs'.stored_stored
  bits f hf := by
    have hbit := h.bits f
    split at hbit
    · exact absurd (hbit.symm.trans hf) (by decide)
    · exact hbit.symm.trans hf
  img := h.img

theorem Copied.good {new old oldFrags pref : Nat} {fs₂ : Fs} (h : Copied fs new n fs₂)
    (hgave : Gave fs₂ old oldFrags fs') :
    (AllocCall.reallocate old oldFrags n pref).Good fs new fs'.stored where
  consistent := hgave.consistent.withBytes _
  stored := fs'.stored_stored
  oneBlock := h.took.elim fun _ ht => ht.run
  wasFree f hf := h.took.elim fun _ ht => ht.wasFree f hf.1 hf.2
  bits f := by
    show fs'.isFree f = true ↔ _
    rw [hgave.bits, h.bits]
    simp only [AllocCall.given, AllocCall.released, mem_fragSet]
    split
    · simp [*]
    · split <;> simp [*]
  img := hgave.same.img.trans h.img
  bytes p hp hout := (bytes_stored hp).trans (by rw [hgave.same.bytes, h.bytes p hp hout])

/-- A call that does nothing but put the totals back. -/
theorem Fs.Recorded.weathered (h : fs.Recorded) : fs.Weathered fs.stored :=
  ⟨h.consistent.withBytes _, fs.stored_stored, fun _ hf => hf, rfl⟩

theorem writeSlice_error {buf : ByteStore} {size off : Nat} {e : Errno}
    (h : writeSlice buf size off fs = .error e fs') : fs = fs' := by
  simp only [writeSlice, bind_error, get_error, get_ok, check_error, check_ok, modify_error,
    false_or, and_false, exists_false, or_false] at h
  obtain ⟨_, _, ⟨rfl, rfl⟩, ⟨-, -, rfl⟩ | ⟨_, _, ⟨-, rfl⟩, -, -, rfl⟩⟩ := h <;> rfl

theorem readSlice_error {size off : Nat} {e : Errno} (h : readSlice size off fs = .error e fs') :
    fs = fs' := by
  simp only [readSlice, bind_error, get_error, get_ok, check_error, check_ok, pure_error,
    false_or, and_false, exists_false, or_false] at h
  obtain ⟨_, _, ⟨rfl, rfl⟩, -, -, rfl⟩ := h
  rfl

/-- The step lemma of a call that succeeds. -/
theorem AllocCall.checked_ok {call : AllocCall} {r : Nat} {w : Watched Fs} (h : fs.Recorded)
    (hv : call.Valid fs) (hok : call.checked ⟨fs, false⟩ = .ok r w) :
    ∃ fs', w = ⟨fs', false⟩ ∧ call.Good fs r fs' := by
  have hg := h.geometry
  cases call with
  | allocate pref n =>
    obtain ⟨_, hdisk, rfl⟩ := run_ok.mp hok
    obtain ⟨fs₁, hx, rfl⟩ := (onDisk_ok h.stored).mp hdisk
    have ht := allocateFragsAnycg_ok hg h.consistent hx
    exact ⟨_, rfl, ht.good rfl rfl ht.run⟩
  | extend frag old new =>
    obtain ⟨_, hdisk, rfl⟩ := run_ok.mp hok
    obtain ⟨fs₁, hx, rfl⟩ := (onDisk_ok h.stored).mp hdisk
    simp only [AllocCall.run, bind_ok, pure_ok] at hx
    obtain ⟨_, _, hext, rfl, rfl⟩ := hx
    obtain ⟨ht, hrun⟩ := extendFragmentRun_ok hg h.consistent hv.1 hv.2 hext
    exact ⟨_, rfl, ht.good rfl rfl hrun⟩
  | free frag n =>
    obtain ⟨_, hdisk, rfl⟩ := run_ok.mp hok
    obtain ⟨fs₁, hx, rfl⟩ := (onDisk_ok h.stored).mp hdisk
    simp only [AllocCall.run, bind_ok, pure_ok] at hx
    obtain ⟨_, _, hfree, rfl, rfl⟩ := hx
    exact ⟨_, rfl, (freeFragmentRun_ok hg h.consistent hv.1 hfree).good⟩
  | reallocate old n m pref =>
    simp only [AllocCall.checked, Checked.reallocateFragmentRun, bind_ok, run_ok, guarded_ok, get_ok,
      pure_ok] at hok
    obtain ⟨_, _, ⟨_, ⟨rfl, rfl⟩, rfl⟩, raw, _, ⟨_, hread, rfl⟩, tmp, _, ⟨-, rfl⟩, new, _,
      ⟨_, hdisk, rfl⟩, _, _, ⟨fs₂, hwrite, rfl⟩, _, _, ⟨_, hdisk', rfl⟩, rfl, rfl⟩ := hok
    obtain ⟨-, -, rfl⟩ := readSlice_ok hread
    obtain ⟨fs₁, halloc, rfl⟩ := (onDisk_ok h.stored).mp hdisk
    have hc := copied_of_write h (allocateFragsAnycg_ok hg h.consistent halloc) hwrite
    obtain ⟨fs₃, hfree, rfl⟩ := (onDisk_ok hc.stored).mp hdisk'
    have hgave := freeFragmentRun_ok (by rw [hc.img]; exact hg) hc.consistent
      (hv.1.of_ndblk hc.img hc.ndblk) hfree
    exact ⟨_, rfl, hc.good hgave⟩

/-- And of one that fails: it fails with an error of its own, never with a fault. -/
theorem AllocCall.checked_error {call : AllocCall} {e : Stop Errno} {w : Watched Fs}
    (h : fs.Recorded) (hv : call.Valid fs) (herr : call.checked ⟨fs, false⟩ = .error e w) :
    ∃ e' fs', e = .fail e' ∧ w = ⟨fs', false⟩ ∧ fs.Weathered fs' := by
  have hsame : fs.Weathered fs := ⟨h.consistent, h.stored, fun _ hf => hf, rfl⟩
  cases call with
  | allocate pref n =>
    obtain ⟨e', _, hdisk, rfl, rfl⟩ := run_error.mp herr
    obtain ⟨fs₁, hx, rfl⟩ := (onDisk_error h.stored).mp hdisk
    rw [allocateFragsAnycg_error (.inr h.opened) hx]
    exact ⟨e', _, rfl, rfl, h.weathered⟩
  | extend frag old new =>
    obtain ⟨e', _, hdisk, rfl, rfl⟩ := run_error.mp herr
    obtain ⟨fs₁, hx, rfl⟩ := (onDisk_error h.stored).mp hdisk
    simp only [AllocCall.run, bind_error, pure_error, and_false, exists_false, or_false] at hx
    rw [extendFragmentRun_error hx (.inr ⟨h.opened, hv.1.group⟩)]
    exact ⟨e', _, rfl, rfl, h.weathered⟩
  | free frag n =>
    obtain ⟨e', _, hdisk, rfl, rfl⟩ := run_error.mp herr
    obtain ⟨fs₁, hx, rfl⟩ := (onDisk_error h.stored).mp hdisk
    simp only [AllocCall.run, bind_error, pure_error, and_false, exists_false, or_false] at hx
    rw [freeFragmentRun_error h.opened hv.1.group hx]
    exact ⟨e', _, rfl, rfl, h.weathered⟩
  | reallocate old n m pref =>
    have hfits : 0 + n * fs.img.sb.fragSize ≤ m * fs.img.sb.fragSize := by
      rw [Nat.zero_add]
      exact Nat.mul_le_mul_right _ hv.2.2.2
    simp only [AllocCall.checked, Checked.reallocateFragmentRun] at herr
    rcases bind_error.mp herr with hget | ⟨_, _, hget, herr⟩
    · obtain ⟨_, _, hget', -⟩ := run_error.mp hget
      exact (get_error.mp hget').elim
    obtain ⟨_, hget', rfl⟩ := run_ok.mp hget
    obtain ⟨rfl, rfl⟩ := get_ok.mp hget'
    rcases bind_error.mp herr with hread | ⟨raw, _, hread, herr⟩
    · obtain ⟨e', _, hread', rfl, rfl⟩ := run_error.mp hread
      obtain rfl := readSlice_error hread'
      exact ⟨e', _, rfl, rfl, hsame⟩
    obtain ⟨_, hread', rfl⟩ := run_ok.mp hread
    obtain ⟨-, -, rfl⟩ := readSlice_ok hread'
    -- the buffer is long enough
    rw [guarded_bind (Buffer.store_of_le hfits)] at herr
    rcases bind_error.mp herr with halloc | ⟨new, _, halloc, herr⟩
    · obtain ⟨e', _, hdisk, rfl, rfl⟩ := run_error.mp halloc
      obtain ⟨fs₁, hx, rfl⟩ := (onDisk_error h.stored).mp hdisk
      rw [allocateFragsAnycg_error (.inr h.opened) hx]
      exact ⟨e', _, rfl, rfl, h.weathered⟩
    obtain ⟨_, hdisk, rfl⟩ := run_ok.mp halloc
    obtain ⟨fs₁, hx, rfl⟩ := (onDisk_ok h.stored).mp hdisk
    have ht := allocateFragsAnycg_ok h.geometry h.consistent hx
    rcases bind_error.mp herr with hwrite | ⟨_, _, hwrite, herr⟩
    · obtain ⟨e', _, hwrite', rfl, rfl⟩ := run_error.mp hwrite
      obtain rfl := writeSlice_error hwrite'
      exact ⟨e', _, rfl, rfl, ht.weathered⟩
    obtain ⟨fs₂, hwrite', rfl⟩ := run_ok.mp hwrite
    have hc := copied_of_write h ht hwrite'
    rcases bind_error.mp herr with hfree | ⟨_, _, -, hpure⟩
    · obtain ⟨e', _, hdisk', rfl, rfl⟩ := run_error.mp hfree
      obtain ⟨fs₃, hy, rfl⟩ := (onDisk_error hc.stored).mp hdisk'
      have hrun := hv.1.of_ndblk hc.img hc.ndblk
      rw [freeFragmentRun_error (h.opened.of_img hc.img) hrun.group hy]
      exact ⟨e', _, rfl, rfl, hc.weathered⟩
    · exact (pure_error.mp hpure).elim

end

/-! ## Runs of calls -/

/-- A run of calls: those that succeeded, with their results. Others may have failed in between. -/
inductive AllocRun : Fs → List (AllocCall × Nat) → Fs → Prop
  | nil (fs : Fs) : AllocRun fs [] fs
  | cons {fs fs₁ fs₂ : Fs} {call : AllocCall} {r : Nat} {rest : List (AllocCall × Nat)} :
      call.Valid fs → call.checked ⟨fs, false⟩ = .ok r ⟨fs₁, false⟩ → AllocRun fs₁ rest fs₂ →
      AllocRun fs ((call, r) :: rest) fs₂
  | failed {fs fs₁ fs₂ : Fs} {call : AllocCall} {e : Errno} {rest : List (AllocCall × Nat)} :
      call.Valid fs → call.checked ⟨fs, false⟩ = .error (.fail e) ⟨fs₁, false⟩ →
      AllocRun fs₁ rest fs₂ → AllocRun fs rest fs₂

/-- The run lemma. -/
theorem AllocRun.recorded {fs fs' : Fs} {trace : List (AllocCall × Nat)}
    (hr : AllocRun fs trace fs') (h : fs.Recorded) : fs'.Recorded := by
  induction hr with
  | nil fs => exact h
  | cons hv hok _ ih =>
    obtain ⟨_, hw, hgood⟩ := AllocCall.checked_ok h hv hok
    cases hw
    exact ih (hgood.recorded h hv)
  | failed hv herr _ ih =>
    obtain ⟨_, _, -, hw, hweathered⟩ := AllocCall.checked_error h hv herr
    cases hw
    exact ih (hweathered.recorded h)

end NextUfs.Core
