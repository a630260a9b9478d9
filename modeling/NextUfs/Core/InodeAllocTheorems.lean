/-
NextUfs.Core.InodeAllocTheorems — the inode allocator over whole runs.

`Volume.InodesAgree` is that maps, groups, summary table and totals count the
same inodes and directories; which inodes are directories is the history's
business, so it is an argument. A call that succeeds flips one bit and moves
the counters with it; one that fails changes nothing.
-/
import NextUfs.Core.InodeAlloc
import NextUfs.Core.AllocRunTheorems
import NextUfs.Core.LayoutTheorems

namespace NextUfs.Core

open NextUfs.Lib NextUfs.Lib.StateResult NextUfs.Lib.Runs

/-- The inodes of a group that are not in use. -/
def InodeMap.free (m : InodeMap) (ipg : Nat) : Nat := Nat.count (fun i => m.iused i = false) ipg

/-- The inodes of a group in use as directories. -/
def InodeMap.dirs (m : InodeMap) (dir : Nat → Bool) (c ipg : Nat) : Nat :=
  Nat.count (fun i => m.iused i = true ∧ dir (c * ipg + i) = true) ipg

/-- Inode maps, groups, summary table and superblock totals agree; `dir` tells the directories. -/
structure Volume.InodesAgree (v : Volume) (dir : Nat → Bool) : Prop where
  magic : ∀ c < v.fs.img.sb.cgCount, (v.fs.cg c).magic = CG_MAGIC
  nifree : ∀ c < v.fs.img.sb.cgCount,
    (v.fs.cg c).cs.nifree.toNat = (v.imap c).free v.fs.img.sb.inodesPerGroup
  ndir : ∀ c < v.fs.img.sb.cgCount,
    (v.fs.cg c).cs.ndir.toNat = (v.imap c).dirs dir c v.fs.img.sb.inodesPerGroup
  summary : ∀ c < v.fs.img.sb.cgCount,
    (v.fs.csum c).nifree = (v.fs.cg c).cs.nifree ∧ (v.fs.csum c).ndir = (v.fs.cg c).cs.ndir
  total_nifree : v.fs.totals.nifree.toNat = v.fs.sumWord Csum.nifree
  total_ndir : v.fs.totals.ndir.toNat = v.fs.sumWord Csum.ndir

/-! ## What a call does -/

/-- A count that gains one member. -/
theorem count_insert {P Q : Nat → Prop} [DecidablePred P] [DecidablePred Q] {n b : Nat} (hb : b < n)
    (hP : ¬ P b) (hQ : Q b) (h : ∀ i < n, i ≠ b → (Q i ↔ P i)) :
    Nat.count Q n = Nat.count P n + 1 := by
  induction n with
  | zero => omega
  | succ n ih =>
    rw [Nat.count_succ, Nat.count_succ]
    by_cases hbn : b = n
    · subst hbn
      rw [count_congr fun i hi => h i (by omega) (by omega), if_pos hQ, if_neg hP]
    · rw [ih (by omega) fun i hi => h i (by omega)]
      simp only [h n (by omega) fun h => hbn h.symm]
      omega

/-- What taking or giving back an inode leaves: group `c` and its map replaced, and the other
counters moved by `d`. -/
def Volume.withGroup (v : Volume) (c : Nat) (cg : Cg) (m : InodeMap) (d : Csum) : Volume :=
  { fs := v.fs.withGroup c cg d, imap := Function.update v.imap c m }

theorem onFs_ok {α : Type} {x : FsM α} {v v' : Volume} {a : α} :
    onFs x v = .ok a v' ↔ ∃ fs', x v.fs = .ok a fs' ∧ v' = { v with fs := fs' } := by
  unfold onFs
  cases x v.fs with
  | ok b fs =>
    constructor
    · intro h
      cases h
      exact ⟨fs, rfl, rfl⟩
    · rintro ⟨fs', h, rfl⟩
      cases h
      rfl
  | error e fs => simp

theorem onFs_error {α : Type} {x : FsM α} {v v' : Volume} {e : Errno} :
    onFs x v = .error e v' ↔ ∃ fs', x v.fs = .error e fs' ∧ v' = { v with fs := fs' } := by
  unfold onFs
  cases x v.fs with
  | ok b fs => simp
  | error e' fs =>
    constructor
    · intro h
      cases h
      exact ⟨fs, rfl, rfl⟩
    · rintro ⟨fs', h, rfl⟩
      cases h
      rfl

theorem moveInode_ok {c : Nat} {cg : Cg} {m : InodeMap} {d : Csum} {v v' : Volume} {u : PUnit}
    (h : moveInode c cg m d v = .ok u v') : v' = v.withGroup c cg m d := by
  simp only [moveInode, bind_ok, get_ok, check_ok, modify_ok] at h
  obtain ⟨_, _, ⟨rfl, rfl⟩, _, _, ⟨_, rfl⟩, rfl⟩ := h
  rfl

theorem moveInode_error {c : Nat} {cg : Cg} {m : InodeMap} {d : Csum} {v v' : Volume} {e : Errno}
    (h : moveInode c cg m d v = .error e v') :
    ¬ v.fs.img.writable = true ∧ e = .EROFS ∧ v = v' := by
  simp only [moveInode, bind_error, get_error, check_error, get_ok, modify_error, and_false,
    exists_false, or_false, false_or] at h
  obtain ⟨_, _, ⟨rfl, rfl⟩, hw, rfl, rfl⟩ := h
  exact ⟨hw, rfl, rfl⟩

/-! ## The search -/

theorem findFree_some {m : InodeMap} {cg ipg i : Nat} (h : m.findFree cg ipg = some i) :
    i < ipg ∧ m.iused i = false ∧ (cg ≠ 0 ∨ 2 ≤ i) := by
  unfold InodeMap.findFree at h
  have hp := List.find?_some h
  obtain ⟨k, hk, rfl⟩ := List.mem_map.mp (List.mem_of_find?_eq_some h)
  have hpos : 0 < ipg := by
    have := List.mem_range.mp hk
    omega
  simp only [Bool.and_eq_true, Bool.or_eq_true, decide_eq_true_eq, Bool.not_eq_true'] at hp
  exact ⟨Nat.mod_lt _ hpos, hp.2, hp.1⟩

/-- The search goes all the way around. -/
theorem findFree_none {m : InodeMap} {cg ipg i : Nat} (h : m.findFree cg ipg = none) (hi : i < ipg)
    (hr : cg ≠ 0 ∨ 2 ≤ i) : m.iused i = true := by
  unfold InodeMap.findFree at h
  rw [List.find?_eq_none] at h
  obtain ⟨start, hstart⟩ : ∃ s, (if m.irotor ≥ ipg then 0 else m.irotor) = s := ⟨_, rfl⟩
  have hlt : start < ipg := by
    rw [← hstart]
    split <;> omega
  simp only [hstart] at h
  have hmem : i ∈ (List.range ipg).map fun k => (start + k) % ipg := by
    refine List.mem_map.mpr ⟨if start ≤ i then i - start else i + ipg - start, ?_, ?_⟩
    · rw [List.mem_range]
      split <;> omega
    · split
      · rw [Nat.add_sub_cancel' ‹_›, Nat.mod_eq_of_lt hi]
      · rw [show start + (i + ipg - start) = i + ipg by omega, Nat.add_mod_right,
          Nat.mod_eq_of_lt hi]
  have := h i hmem
  simp only [Bool.and_eq_true, Bool.or_eq_true, decide_eq_true_eq, Bool.not_eq_true', not_and,
    Bool.not_eq_false] at this
  exact this hr

/-! ## The step -/

/-- The bit of `i` in group `c` is flipped, the rest of the map stays. -/
structure Flips (m m' : InodeMap) (i ipg : Nat) (used : Bool) : Prop where
  lt : i < ipg
  before : m.iused i = !used
  after : m'.iused i = used
  same : ∀ j, j ≠ i → m'.iused j = m.iused j

section
variable {v : Volume} {dir dir' : Nat → Bool} {c i : Nat} {m' : InodeMap} {used isdir : Bool}
  {d : Csum}

/-- A counter word of the groups, when its count changes in group `c` only. -/
theorem word_step {word : Csum → UInt32} (cnt cnt' : Nat → Nat) {n gain loss bound : Nat}
    (hadd : ∀ x, word (x.add d) = word x + word d)
    (hcnt : ∀ a < n, (word (v.fs.cg a).cs).toNat = cnt a)
    (hsame : ∀ a, a ≠ c → cnt' a = cnt a) (hc : c < n) (hchange : cnt' c + loss = cnt c + gain)
    (hd : word d + UInt32.ofNat loss = UInt32.ofNat gain) (hle : ∀ a, cnt' a ≤ bound)
    (hbound : bound < 4294967296) : ∀ a < n, (word ((v.withGroup c { v.fs.cg c with
      cs := (v.fs.cg c).cs.add d } m' d).fs.cg a).cs).toNat = cnt' a := by
  intro a ha
  by_cases hac : a = c
  · subst hac
    have hstep : word ((v.fs.cg a).cs.add d) + UInt32.ofNat loss =
        word (v.fs.cg a).cs + UInt32.ofNat gain := by rw [hadd, UInt32.add_assoc, hd]
    have := counter_step (hcnt a hc) hchange hstep (lt_of_le_of_lt (hle a) hbound)
    simpa [Volume.withGroup, Fs.withGroup] using this
  · simpa [Volume.withGroup, Fs.withGroup, hac, hsame a hac] using hcnt a ha

/-- How the count of free inodes of a map moves with one bit. -/
theorem Flips.free {m : InodeMap} {ipg : Nat} (h : Flips m m' i ipg used) :
    m'.free ipg + (if used then 1 else 0) = m.free ipg + (if used then 0 else 1) := by
  unfold InodeMap.free
  cases used with
  | true =>
    have := count_insert (P := fun j => m'.iused j = false) (Q := fun j => m.iused j = false) h.lt
      (by simp [h.after]) (by simp [h.before]) fun j _ hj => by rw [h.same j hj]
    simp only [if_true]
    omega
  | false =>
    have := count_insert (P := fun j => m.iused j = false) (Q := fun j => m'.iused j = false) h.lt
      (by simp [h.before]) (by simp [h.after]) fun j _ hj => by rw [h.same j hj]
    simp only [Bool.false_eq_true, if_false]
    omega

/-- How the count of directories moves: the inode is a directory while it is in use. -/
theorem Flips.dirs {m : InodeMap} {ipg : Nat} (h : Flips m m' i ipg used)
    (hat : (if used then dir' else dir) (c * ipg + i) = isdir)
    (hrest : ∀ j, j ≠ c * ipg + i → dir' j = dir j) :
    m'.dirs dir' c ipg + (if isdir && !used then 1 else 0) =
      m.dirs dir c ipg + (if isdir && used then 1 else 0) := by
  unfold InodeMap.dirs
  have hother : ∀ j, j ≠ i → (m'.iused j = true ∧ dir' (c * ipg + j) = true ↔
      m.iused j = true ∧ dir (c * ipg + j) = true) := fun j hj => by
    rw [h.same j hj, hrest _ (by omega)]
  cases isdir with
  | false =>
    have hsame := count_congr (n := ipg)
      (P := fun j => m'.iused j = true ∧ dir' (c * ipg + j) = true)
      (Q := fun j => m.iused j = true ∧ dir (c * ipg + j) = true) fun j _ => by
        by_cases hj : j = i
        · subst hj
          cases used <;> simp_all [h.before, h.after]
        · exact hother j hj
    simpa using hsame
  | true =>
    cases used with
    | true =>
      have := count_insert (P := fun j => m.iused j = true ∧ dir (c * ipg + j) = true)
        (Q := fun j => m'.iused j = true ∧ dir' (c * ipg + j) = true) h.lt
        (by simp [h.before]) (by simpa [h.after] using hat) fun j _ hj => hother j hj
      simpa using this
    | false =>
      have := count_insert (P := fun j => m'.iused j = true ∧ dir' (c * ipg + j) = true)
        (Q := fun j => m.iused j = true ∧ dir (c * ipg + j) = true) h.lt
        (by simp [h.after]) (by simpa [h.before] using hat) fun j _ hj => (hother j hj).symm
      simpa using this.symm

/-- The counters move with the bit. -/
structure Moves (d : Csum) (used isdir : Bool) : Prop where
  nifree : d.nifree + UInt32.ofNat (if used then 1 else 0) = UInt32.ofNat (if used then 0 else 1)
  ndir : d.ndir + UInt32.ofNat (if isdir && !used then 1 else 0) =
    UInt32.ofNat (if isdir && used then 1 else 0)

/-- The step lemma: one bit flipped, and the counters moved with it. -/
theorem Volume.InodesAgree.move (hg : Geometry v.fs.img.sb) (h : v.InodesAgree dir)
    (hc : c < v.fs.img.sb.cgCount) (hflip : Flips (v.imap c) m' i v.fs.img.sb.inodesPerGroup used)
    (hd : Moves d used isdir)
    (hat : (if used then dir' else dir) (c * v.fs.img.sb.inodesPerGroup + i) = isdir)
    (hrest : ∀ j, j ≠ c * v.fs.img.sb.inodesPerGroup + i → dir' j = dir j) :
    (v.withGroup c { v.fs.cg c with cs := (v.fs.cg c).cs.add d } m' d).InodesAgree dir' := by
  obtain ⟨v', hv'⟩ : ∃ v', v.withGroup c { v.fs.cg c with cs := (v.fs.cg c).cs.add d } m' d = v' :=
    ⟨_, rfl⟩
  have himg : v'.fs.img = v.fs.img := by rw [← hv']; rfl
  have hsb : v'.fs.img.sb = v.fs.img.sb := congrArg Image.sb himg
  have hmap : ∀ a, a ≠ c → v'.imap a = v.imap a := fun a ha => by
    rw [← hv']
    simp [Volume.withGroup, ha]
  have hmapc : v'.imap c = m' := by
    rw [← hv']
    simp [Volume.withGroup]
  have hipg : v.fs.img.sb.inodesPerGroup < 4294967296 := by
    have := hg.ipg_le
    omega
  have hdirs : ∀ a, a ≠ c → (v'.imap a).dirs dir' a v.fs.img.sb.inodesPerGroup =
      (v.imap a).dirs dir a v.fs.img.sb.inodesPerGroup := fun a ha => by
    rw [hmap a ha]
    refine count_congr fun j hj => ?_
    rw [hrest]
    intro heq
    refine ha ?_
    rw [← add_mul_div (c := a) hj, heq,
      add_mul_div hflip.lt]
  have hfree : ∀ a < v.fs.img.sb.cgCount, (v'.fs.cg a).cs.nifree.toNat =
      (v'.imap a).free v.fs.img.sb.inodesPerGroup := by
    rw [← hv']
    refine word_step (fun a => (v.imap a).free v.fs.img.sb.inodesPerGroup)
      (fun a => ((v.withGroup c { v.fs.cg c with
        cs := (v.fs.cg c).cs.add d } m' d).imap a).free v.fs.img.sb.inodesPerGroup)
      (fun _ => rfl) h.nifree (fun a ha => ?_) hc ?_ hd.nifree (fun _ => Nat.count_le _) hipg
    · dsimp only
      rw [hv', hmap a ha]
    · dsimp only
      rw [hv', hmapc]
      exact hflip.free
  have hdir : ∀ a < v.fs.img.sb.cgCount, (v'.fs.cg a).cs.ndir.toNat =
      (v'.imap a).dirs dir' a v.fs.img.sb.inodesPerGroup := by
    rw [← hv']
    refine word_step (fun a => (v.imap a).dirs dir a v.fs.img.sb.inodesPerGroup)
      (fun a => ((v.withGroup c { v.fs.cg c with
        cs := (v.fs.cg c).cs.add d } m' d).imap a).dirs dir' a v.fs.img.sb.inodesPerGroup)
      (fun _ => rfl) h.ndir (fun a ha => ?_) hc ?_ hd.ndir (fun _ => Nat.count_le _) hipg
    · dsimp only
      rw [hv', hdirs a ha]
    · dsimp only
      rw [hv', hmapc]
      exact hflip.dirs hat hrest
  have hsummary : ∀ a < v.fs.img.sb.cgCount, (v'.fs.csum a).nifree = (v'.fs.cg a).cs.nifree ∧
      (v'.fs.csum a).ndir = (v'.fs.cg a).cs.ndir := fun a ha => by
    obtain ⟨h₁, h₂⟩ := h.summary a ha
    by_cases hac : a = c
    · subst hac
      rw [← hv']
      simp [Volume.withGroup, Fs.withGroup, Csum.add, h₁, h₂]
    · rw [← hv']
      simpa [Volume.withGroup, Fs.withGroup, hac] using ⟨h₁, h₂⟩
  -- every group has at most `ipg` of either, and all groups together fit a word
  have hlt : ∀ word : Csum → UInt32,
      (∀ a < v.fs.img.sb.cgCount, (word (v'.fs.csum a)).toNat ≤ v.fs.img.sb.inodesPerGroup) →
      v'.fs.sumWord word < 4294967296 := fun word hle => by
    have hsum : v'.fs.sumWord word ≤ v.fs.img.sb.cgCount * v.fs.img.sb.inodesPerGroup := by
      unfold Fs.sumWord
      rw [hsb]
      exact sum_le_mul hle
    have := hg.inodes_le
    unfold INT32_MAX at this
    omega
  subst hv'
  exact
    { magic := fun a ha => by
        by_cases hac : a = c
        · subst hac
          simpa [Volume.withGroup, Fs.withGroup] using h.magic a ha
        · simpa [Volume.withGroup, Fs.withGroup, hac] using h.magic a ha
      nifree := hfree
      ndir := hdir
      summary := hsummary
      total_nifree := total_step hc _ d (fun _ => rfl) h.total_nifree (hlt _ fun a ha => by
        rw [(hsummary a ha).1, hfree a ha]
        exact Nat.count_le _)
      total_ndir := total_step hc _ d (fun _ => rfl) h.total_ndir (hlt _ fun a ha => by
        rw [(hsummary a ha).2, hdir a ha]
        exact Nat.count_le _) }

end

/-! ## The calls -/

/-- What a call that flips the bit of one inode leaves. -/
structure Flipped (v : Volume) (inode_no : Nat) (used isdir : Bool) (v' : Volume) : Prop where
  intro ::
  step : ∃ c i m' d, inode_no = c * v.fs.img.sb.inodesPerGroup + i ∧ Moves d used isdir ∧
    Flips (v.imap c) m' i v.fs.img.sb.inodesPerGroup used ∧
    v' = v.withGroup c { v.fs.cg c with cs := (v.fs.cg c).cs.add d } m' d

section
variable {v v' : Volume} {dir : Nat → Bool} {mode : UInt16} {no : Nat}

theorem Flipped.img {used isdir : Bool} (h : Flipped v no used isdir v') : v'.fs.img = v.fs.img := by
  obtain ⟨⟨c, i, m', d, -, -, -, rfl⟩⟩ := h
  rfl

/-- One bit of the volume is flipped. -/
theorem Flipped.bits {used isdir : Bool} (h : Flipped v no used isdir v') :
    v.inodeUsed no = !used ∧ ∀ j, v'.inodeUsed j = if j = no then used else v.inodeUsed j := by
  obtain ⟨⟨c, i, m', d, rfl, -, hflip, rfl⟩⟩ := h
  have hipg : 0 < v.fs.img.sb.inodesPerGroup := Nat.lt_of_le_of_lt (Nat.zero_le i) hflip.lt
  refine ⟨?_, fun j => ?_⟩
  · unfold Volume.inodeUsed
    rw [add_mul_div hflip.lt, add_mul_mod hflip.lt]
    exact hflip.before
  · unfold Volume.inodeUsed
    show ((Function.update v.imap c m') (j / v.fs.img.sb.inodesPerGroup)).iused
      (j % v.fs.img.sb.inodesPerGroup) = _
    have hj := Nat.div_add_mod' j v.fs.img.sb.inodesPerGroup
    by_cases hc : j / v.fs.img.sb.inodesPerGroup = c
    · rw [hc, Function.update_self]
      rw [hc] at hj
      by_cases hi : j % v.fs.img.sb.inodesPerGroup = i
      · rw [hi, hflip.after, if_pos (by rw [← hj, hi])]
      · rw [hflip.same _ hi, if_neg (by omega)]
    · rw [Function.update_of_ne hc, if_neg fun hno => hc (by rw [hno, add_mul_div hflip.lt])]

theorem Flipped.agree {used : Bool} (hg : Geometry v.fs.img.sb) (h : v.InodesAgree dir)
    {isdir : Bool} (hno : no < v.fs.img.sb.cgCount * v.fs.img.sb.inodesPerGroup)
    (hf : Flipped v no used isdir v') (hdir : used = false → dir no = isdir) :
    v'.InodesAgree (if used then Function.update dir no isdir else dir) := by
  obtain ⟨⟨c, i, m', d, rfl, hd, hflip, rfl⟩⟩ := hf
  have hc : c < v.fs.img.sb.cgCount := by
    by_contra hc
    have := Nat.mul_le_mul_right v.fs.img.sb.inodesPerGroup (Nat.le_of_not_lt hc)
    omega
  refine h.move hg hc hflip hd ?_ fun j hj => ?_
  · cases used with
    | true => simp
    | false => simpa using hdir rfl
  · cases used with
    | true => simp [hj]
    | false => rfl

theorem allocateInodeInGroup_ok {c : Nat} (h : allocateInodeInGroup c mode v = .ok no v') :
    Flipped v no true (isDirMode mode) v' ∧ (c ≠ 0 ∨ 2 ≤ no) ∧
      no / v.fs.img.sb.inodesPerGroup = c := by
  simp only [allocateInodeInGroup, bind_ok, get_ok, check_ok] at h
  obtain ⟨_, _, ⟨rfl, rfl⟩, _, _, ⟨_, rfl⟩, _, _, ⟨_, rfl⟩, h⟩ := h
  cases hfind : (v.imap c).findFree c v.fs.img.sb.inodesPerGroup with
  | none =>
    rw [hfind] at h
    exact (throw_ok.mp h).elim
  | some i =>
    rw [hfind] at h
    simp only [bind_ok, pure_ok] at h
    obtain ⟨_, _, hmove, rfl, rfl⟩ := h
    obtain ⟨hlt, hfree, hres⟩ := findFree_some hfind
    refine ⟨⟨⟨c, i, _, _, rfl, ?_, ⟨hlt, hfree, ?_, fun j hj => ?_⟩, moveInode_ok hmove⟩⟩, ?_,
      add_mul_div hlt⟩
    · cases isDirMode mode <;> exact ⟨by decide, by decide⟩
    · simp
    · simp [hj]
    · rcases hres with h | h
      · exact .inl h
      · exact .inr (Nat.le_trans h (Nat.le_add_left i _))

theorem allocateInodeInGroup_error {c : Nat} {e : Errno}
    (h : allocateInodeInGroup c mode v = .error e v') :
    v = v' ∧ (e = .EROFS ∧ ¬ v.fs.img.writable = true ∨
      e = .EINVAL ∧ ¬ (v.fs.cg c).magic = CG_MAGIC ∨
      e = .ENOSPC ∧ ((v.fs.cg c).cs.nifree = 0 ∨
        (v.imap c).findFree c v.fs.img.sb.inodesPerGroup = none)) := by
  simp only [allocateInodeInGroup, bind_error, get_error, get_ok, check_error, check_ok] at h
  obtain h | ⟨_, _, ⟨rfl, rfl⟩, ⟨hm, rfl, rfl⟩ | ⟨_, _, ⟨_, rfl⟩, ⟨hn, rfl, rfl⟩ |
    ⟨_, _, ⟨_, rfl⟩, h⟩⟩⟩ := h
  · exact h.elim
  · exact ⟨rfl, .inr (.inl ⟨rfl, hm⟩)⟩
  · exact ⟨rfl, .inr (.inr ⟨rfl, .inl (not_not.mp hn)⟩)⟩
  · cases hfind : (v.imap c).findFree c v.fs.img.sb.inodesPerGroup with
    | none =>
      rw [hfind] at h
      obtain ⟨rfl, rfl⟩ := throw_error.mp h
      exact ⟨rfl, .inr (.inr ⟨rfl, .inr rfl⟩)⟩
    | some i =>
      rw [hfind] at h
      simp only [bind_error, pure_error] at h
      obtain h | ⟨_, _, _, h⟩ := h
      · obtain ⟨hw, rfl, rfl⟩ := moveInode_error h
        exact ⟨rfl, .inl ⟨rfl, hw⟩⟩
      · exact h.elim

/-- The loop takes an inode of a group it comes to. -/
theorem allocateInodeLoop_ok {cg : Nat} (hg : Geometry v.fs.img.sb) : ∀ {k j : Nat},
    allocateInodeLoop cg mode k j v = .ok no v' →
      Flipped v no true (isDirMode mode) v' ∧
      no < v.fs.img.sb.cgCount * v.fs.img.sb.inodesPerGroup ∧
      (no / v.fs.img.sb.inodesPerGroup ≠ 0 ∨ 2 ≤ no)
  | 0, _, h => (throw_ok.mp h).elim
  | k + 1, j, h => by
    simp only [allocateInodeLoop] at h
    cases hone : allocateInodeInGroup ((cg + j) % 4294967296 % v.fs.img.sb.cgCount) mode v with
    | ok no' v₁ =>
      rw [hone] at h
      cases h
      obtain ⟨hflip, hres, hgroup⟩ := allocateInodeInGroup_ok hone
      refine ⟨hflip, ?_, hgroup ▸ hres⟩
      rw [← Nat.div_lt_iff_lt_mul hg.ipg_pos, hgroup]
      exact Nat.mod_lt _ hg.cg_pos
    | error e v₁ =>
      rw [hone] at h
      obtain ⟨rfl, hwhy⟩ := allocateInodeInGroup_error hone
      have hnext : allocateInodeLoop cg mode k (j + 1) v = .ok no v' := by
        rcases hwhy with ⟨rfl, _⟩ | ⟨rfl, _⟩ | ⟨rfl, _⟩
        · cases h
        · cases h
        · exact h
      exact allocateInodeLoop_ok hg hnext

/-- A group none of whose inodes may be taken. -/
def Volume.Full (v : Volume) (c : Nat) : Prop :=
  ∀ i < v.fs.img.sb.inodesPerGroup, (c ≠ 0 ∨ 2 ≤ i) → (v.imap c).iused i = true

theorem full_of_nospc {c : Nat} (h : v.InodesAgree dir) (hc : c < v.fs.img.sb.cgCount)
    (hwhy : (v.fs.cg c).cs.nifree = 0 ∨
      (v.imap c).findFree c v.fs.img.sb.inodesPerGroup = none) : v.Full c := by
  intro i hi hres
  rcases hwhy with hzero | hnone
  · have hcount := h.nifree c hc
    rw [hzero] at hcount
    by_contra hused
    have hone := count_insert (n := v.fs.img.sb.inodesPerGroup) (b := i) (P := fun j => j ≠ i ∧
      (v.imap c).iused j = false) (Q := fun j => (v.imap c).iused j = false) hi (by simp)
      (by simpa using hused) fun j _ hj => by simp [hj]
    have : (v.imap c).free v.fs.img.sb.inodesPerGroup = 0 := hcount.symm
    unfold InodeMap.free at this
    omega
  · exact findFree_none hnone hi hres

/-- The loop fails with the volume as it was, and runs out of space only when every group it comes
to is full. -/
theorem allocateInodeLoop_error {cg : Nat} {e : Errno} (hg : Geometry v.fs.img.sb)
    (ha : v.InodesAgree dir) : ∀ {k j : Nat}, allocateInodeLoop cg mode k j v = .error e v' →
      v = v' ∧ (e = .EROFS ∧ ¬ v.fs.img.writable = true ∨
        e = .ENOSPC ∧ ∀ t < k, v.Full ((cg + (j + t)) % 4294967296 % v.fs.img.sb.cgCount))
  | 0, _, h => by
    obtain ⟨rfl, rfl⟩ := throw_error.mp h
    exact ⟨rfl, .inr ⟨rfl, fun t ht => absurd ht (Nat.not_lt_zero t)⟩⟩
  | k + 1, j, h => by
    have hc : (cg + j) % 4294967296 % v.fs.img.sb.cgCount < v.fs.img.sb.cgCount :=
      Nat.mod_lt _ hg.cg_pos
    simp only [allocateInodeLoop] at h
    cases hone : allocateInodeInGroup ((cg + j) % 4294967296 % v.fs.img.sb.cgCount) mode v with
    | ok no' v₁ =>
      rw [hone] at h
      cases h
    | error e₁ v₁ =>
      rw [hone] at h
      obtain ⟨rfl, hwhy⟩ := allocateInodeInGroup_error hone
      rcases hwhy with ⟨rfl, hw⟩ | ⟨rfl, hm⟩ | ⟨rfl, hfull⟩
      · cases h
        exact ⟨rfl, .inl ⟨rfl, hw⟩⟩
      · exact absurd (ha.magic _ hc) hm
      · obtain ⟨hv, hrest⟩ := allocateInodeLoop_error hg ha h
        refine ⟨hv, hrest.imp id fun ⟨he, hall⟩ => ⟨he, fun t ht => ?_⟩⟩
        cases t with
        | zero => exact full_of_nospc ha hc hfull
        | succ t =>
          have := hall t (by omega)
          rwa [Nat.add_assoc j 1 t, Nat.add_comm 1 t] at this

theorem freeInodeInGroup_ok {u : PUnit} (hg : Geometry v.fs.img.sb)
    (h : freeInodeInGroup no mode v = .ok u v') : Flipped v no false (isDirMode mode) v' := by
  simp only [freeInodeInGroup, bind_ok, get_ok, check_ok] at h
  obtain ⟨_, _, ⟨rfl, rfl⟩, _, _, ⟨_, rfl⟩, _, _, ⟨hused, rfl⟩, hmove⟩ := h
  refine ⟨⟨no / v.fs.img.sb.inodesPerGroup, no % v.fs.img.sb.inodesPerGroup, _, _,
    (Nat.div_add_mod' no _).symm, ?_, ⟨Nat.mod_lt _ hg.ipg_pos, hused, ?_, fun j hj => ?_⟩,
    moveInode_ok hmove⟩⟩
  · cases isDirMode mode <;> exact ⟨by decide, by decide⟩
  · simp
  · simp [hj]

theorem freeInodeInGroup_error {e : Errno} (h : freeInodeInGroup no mode v = .error e v') :
    v = v' := by
  simp only [freeInodeInGroup, bind_error, get_error, get_ok, check_error, check_ok] at h
  obtain h | ⟨_, _, ⟨rfl, rfl⟩, ⟨_, _, rfl⟩ | ⟨_, _, ⟨_, rfl⟩, ⟨_, _, rfl⟩ |
    ⟨_, _, ⟨_, rfl⟩, h⟩⟩⟩ := h
  · exact h.elim
  · rfl
  · rfl
  · exact (moveInode_error h).2.2

end

/-! ## Runs of calls -/

/-- A call of the inode allocator. -/
inductive InodeCall where
  | allocate (cg : Nat) (mode : UInt16)
  | free (inode_no : Nat) (mode : UInt16)

/-- Making the call; the result is the inode's number. -/
def InodeCall.run : InodeCall → VolM Nat
  | allocate cg mode => allocateInode cg mode
  | free inode_no mode => do
    freeInodeInGroup inode_no mode
    return inode_no

/-- What callers promise: an inode they free is one of the volume, and if it is in use, it has the
type it was allocated with. -/
def InodeCall.Valid (v : Volume) (dir : Nat → Bool) : InodeCall → Prop
  | allocate _ _ => True
  | free inode_no mode => inode_no < v.fs.img.sb.cgCount * v.fs.img.sb.inodesPerGroup ∧
      (v.inodeUsed inode_no = true → dir inode_no = isDirMode mode)

/-- Which inodes are directories after a call with result `r`. -/
def InodeCall.types (dir : Nat → Bool) : InodeCall → Nat → Nat → Bool
  | allocate _ mode, r => Function.update dir r (isDirMode mode)
  | free _ _, _ => dir

/-- A run of calls, with the results of those that succeed. -/
inductive InodeRun : Volume → (Nat → Bool) → List (InodeCall × Option Nat) → Volume →
    (Nat → Bool) → Prop
  | nil (v : Volume) (dir : Nat → Bool) : InodeRun v dir [] v dir
  | ok {v v₁ v₂ : Volume} {dir dir₂ : Nat → Bool} {call : InodeCall} {r : Nat}
      {rest : List (InodeCall × Option Nat)} : call.Valid v dir → call.run v = .ok r v₁ →
      InodeRun v₁ (call.types dir r) rest v₂ dir₂ → InodeRun v dir ((call, some r) :: rest) v₂ dir₂
  | failed {v v₁ v₂ : Volume} {dir dir₂ : Nat → Bool} {call : InodeCall} {e : Errno}
      {rest : List (InodeCall × Option Nat)} : call.Valid v dir → call.run v = .error e v₁ →
      InodeRun v₁ dir rest v₂ dir₂ → InodeRun v dir ((call, none) :: rest) v₂ dir₂

/-- No inode is handed out again before it is freed. -/
def InodesOnce : Set Nat → List (InodeCall × Option Nat) → Prop
  | _, [] => True
  | held, (.allocate _ _, some r) :: rest => r ∉ held ∧ InodesOnce (insert r held) rest
  | held, (.free _ _, some r) :: rest => InodesOnce (held \ {r}) rest
  | held, (_, none) :: rest => InodesOnce held rest

section
variable {v v' : Volume} {dir : Nat → Bool}

/-- What a successful call does. -/
structure InodeCall.Good (v : Volume) (dir : Nat → Bool) (call : InodeCall) (r : Nat)
    (v' : Volume) : Prop where
  agree : v'.InodesAgree (call.types dir r)
  img : v'.fs.img = v.fs.img
  allocated : ∀ cg mode, call = .allocate cg mode → v.inodeUsed r = false ∧
    ∀ j, v'.inodeUsed j = if j = r then true else v.inodeUsed j
  freed : ∀ no mode, call = .free no mode → r = no ∧
    ∀ j, v'.inodeUsed j = if j = no then false else v.inodeUsed j

/-- The step lemma for a call that succeeds. -/
theorem InodeCall.good {call : InodeCall} {r : Nat} (hg : Geometry v.fs.img.sb)
    (ha : v.InodesAgree dir) (hvalid : call.Valid v dir) (h : call.run v = .ok r v') :
    call.Good v dir r v' := by
  cases call with
  | allocate cg mode =>
    simp only [InodeCall.run, allocateInode, bind_ok, get_ok] at h
    obtain ⟨_, _, ⟨rfl, rfl⟩, h⟩ := h
    obtain ⟨hflip, hlt, -⟩ := allocateInodeLoop_ok hg h
    exact
      { agree := hflip.agree hg ha hlt fun h => absurd h (by decide)
        img := hflip.img
        allocated := fun _ _ _ => hflip.bits
        freed := fun _ _ h => by cases h }
  | free no mode =>
    simp only [InodeCall.run, bind_ok, pure_ok] at h
    obtain ⟨_, _, h, rfl, rfl⟩ := h
    have hflip := freeInodeInGroup_ok hg h
    exact
      { agree := hflip.agree hg ha hvalid.1 fun _ => hvalid.2 hflip.bits.1
        img := hflip.img
        allocated := fun _ _ h => by cases h
        freed := fun _ _ h => by
          cases h
          exact ⟨rfl, hflip.bits.2⟩ }

/-- The step lemma for a call that fails. -/
theorem InodeCall.run_error {call : InodeCall} {e : Errno} (hg : Geometry v.fs.img.sb)
    (ha : v.InodesAgree dir) (h : call.run v = .error e v') : v = v' := by
  cases call with
  | allocate cg mode =>
    simp only [InodeCall.run, allocateInode, bind_error, get_error, get_ok] at h
    obtain h | ⟨_, _, ⟨rfl, rfl⟩, h⟩ := h
    · exact h.elim
    · exact (allocateInodeLoop_error hg ha h).1
  | free no mode =>
    simp only [InodeCall.run, bind_error, pure_error] at h
    obtain h | ⟨_, _, _, h⟩ := h
    · exact freeInodeInGroup_error h
    · exact h.elim

/-- The run lemma. -/
theorem InodeRun.agree {dir' : Nat → Bool} {trace : List (InodeCall × Option Nat)}
    (hr : InodeRun v dir trace v' dir') : Geometry v.fs.img.sb → v.InodesAgree dir →
      v'.InodesAgree dir' ∧ v'.fs.img = v.fs.img := by
  induction hr with
  | nil v dir => exact fun _ ha => ⟨ha, rfl⟩
  | ok hvalid hok _ ih =>
    intro hg ha
    have hgood := InodeCall.good hg ha hvalid hok
    obtain ⟨h₁, h₂⟩ := ih (by rwa [hgood.img]) hgood.agree
    exact ⟨h₁, h₂.trans hgood.img⟩
  | failed _ herr _ ih =>
    intro hg ha
    have hsame := InodeCall.run_error hg ha herr
    subst hsame
    exact ih hg ha

theorem InodeRun.once {dir' : Nat → Bool} {trace : List (InodeCall × Option Nat)}
    (hr : InodeRun v dir trace v' dir') : Geometry v.fs.img.sb → v.InodesAgree dir →
      ∀ held : Set Nat, (∀ no ∈ held, v.inodeUsed no = true) → InodesOnce held trace := by
  induction hr with
  | nil v dir => exact fun _ _ _ _ => trivial
  | @ok v v₁ v₂ dir dir₂ call r rest hvalid hok _ ih =>
    intro hg ha held hheld
    have hgood := InodeCall.good hg ha hvalid hok
    have hnext := ih (by rwa [hgood.img]) hgood.agree
    cases call with
    | allocate cg mode =>
      obtain ⟨hfree, hbits⟩ := hgood.allocated cg mode rfl
      refine ⟨fun hr => absurd ((hheld r hr).symm.trans hfree) (by decide), hnext _ ?_⟩
      rintro no (rfl | hno)
      · rw [hbits, if_pos rfl]
      · rw [hbits]
        split
        · rfl
        · exact hheld no hno
    | free no mode =>
      obtain ⟨rfl, hbits⟩ := hgood.freed no mode rfl
      refine hnext _ ?_
      rintro j ⟨hj, hne⟩
      have hne' : j ≠ r := hne
      rw [hbits, if_neg hne']
      exact hheld j hj
  | @failed v v₁ v₂ dir dir₂ call e rest hvalid herr _ ih =>
    intro hg ha held hheld
    have hsame := InodeCall.run_error hg ha herr
    subst hsame
    have hnext := ih hg ha held hheld
    cases call <;> exact hnext

/-- The turn of the loop that comes to group `c`. -/
theorem exists_turn {cg c n : Nat} (hcg : cg < n) (hc : c < n) (hn : n ≤ 2147483647) :
    ∃ t < n, (cg + (0 + t)) % 4294967296 % n = c := by
  by_cases hle : cg ≤ c
  · refine ⟨c - cg, by omega, ?_⟩
    rw [show cg + (0 + (c - cg)) = c by omega, Nat.mod_eq_of_lt (a := c) (by omega),
      Nat.mod_eq_of_lt hc]
  · refine ⟨c + n - cg, by omega, ?_⟩
    rw [show cg + (0 + (c + n - cg)) = c + n by omega, Nat.mod_eq_of_lt (a := c + n) (by omega),
      Nat.add_mod_right, Nat.mod_eq_of_lt hc]

/-- A free inode keeps the allocator from failing, whatever group it starts at. -/
theorem allocateInode_succeeds {cg no : Nat} {mode : UInt16} (hg : Geometry v.fs.img.sb)
    (ha : v.InodesAgree dir) (hw : v.fs.img.writable = true) (hcg : cg < v.fs.img.sb.cgCount)
    (hno : no < v.fs.img.sb.cgCount * v.fs.img.sb.inodesPerGroup) (h₂ : 2 ≤ no)
    (hfree : v.inodeUsed no = false) : ∃ r v', allocateInode cg mode v = .ok r v' := by
  cases h : allocateInode cg mode v with
  | ok r v' => exact ⟨r, v', rfl⟩
  | error e v' =>
    exfalso
    simp only [allocateInode, bind_error, get_error, get_ok] at h
    obtain h | ⟨_, _, ⟨rfl, rfl⟩, h⟩ := h
    · exact h
    obtain ⟨-, ⟨-, h⟩ | ⟨-, hfull⟩⟩ := allocateInodeLoop_error hg ha h
    · exact h hw
    -- the loop comes to every group
    have hc : no / v.fs.img.sb.inodesPerGroup < v.fs.img.sb.cgCount :=
      (Nat.div_lt_iff_lt_mul hg.ipg_pos).mpr hno
    have hcount : v.fs.img.sb.cgCount ≤ INT32_MAX :=
      Nat.le_trans (Nat.le_mul_of_pos_right _ hg.ipg_pos) hg.inodes_le
    unfold INT32_MAX at hcount
    obtain ⟨c, hcdef⟩ : ∃ c, no / v.fs.img.sb.inodesPerGroup = c := ⟨_, rfl⟩
    rw [hcdef] at hc
    obtain ⟨t, ht, hgroup⟩ := exists_turn hcg hc hcount
    have hturn := hfull t ht
    rw [hgroup] at hturn
    have hused := hturn (no % v.fs.img.sb.inodesPerGroup) (Nat.mod_lt _ hg.ipg_pos) ?_
    · unfold Volume.inodeUsed at hfree
      rw [hcdef, hused] at hfree
      cases hfree
    · by_cases h₀ : c = 0
      · right
        have := Nat.div_add_mod no v.fs.img.sb.inodesPerGroup
        rw [hcdef, h₀] at this
        omega
      · exact .inl h₀

/-- **The inode allocator.** From maps and counters that agree, over every run of calls that frees
inodes with the type they have: the agreement is kept, no inode is handed out while it is in use,
one handed out was free and is not one of the first two, a free inode anywhere is found from any
group, and an inode that is not in use is not freed. -/
theorem inode_allocator_runs {v₁ : Volume} {dir₁ : Nat → Bool}
    {trace : List (InodeCall × Option Nat)} (hv : imageValidate v.fs.img = true)
    (ha : v.InodesAgree dir) (hr : InodeRun v dir trace v₁ dir₁) :
    v₁.InodesAgree dir₁ ∧
    (∀ held, (∀ no ∈ held, v.inodeUsed no = true) → InodesOnce held trace) ∧
    (∀ cg mode no v₂, allocateInode cg mode v₁ = .ok no v₂ →
      v₁.inodeUsed no = false ∧ 2 ≤ no ∧ no < v.fs.img.sb.cgCount * v.fs.img.sb.inodesPerGroup ∧
      ∀ j, v₂.inodeUsed j = if j = no then true else v₁.inodeUsed j) ∧
    (∀ cg mode no, v.fs.img.writable = true → cg < v.fs.img.sb.cgCount →
      no < v.fs.img.sb.cgCount * v.fs.img.sb.inodesPerGroup → 2 ≤ no → v₁.inodeUsed no = false →
      ∃ r v₂, allocateInode cg mode v₁ = .ok r v₂) ∧
    (∀ no mode, v₁.inodeUsed no = false → ∃ e, freeInodeInGroup no mode v₁ = .error e v₁) := by
  have hg := Image.geometry hv
  obtain ⟨ha₁, himg⟩ := hr.agree hg ha
  have hg₁ : Geometry v₁.fs.img.sb := by rwa [himg]
  refine ⟨ha₁, fun held hheld => hr.once hg ha held hheld, ?_, ?_, ?_⟩
  · intro cg mode no v₂ hok
    have hgood := InodeCall.good hg₁ ha₁
      (show (InodeCall.allocate cg mode).Valid v₁ dir₁ from trivial) hok
    simp only [allocateInode, bind_ok, get_ok] at hok
    obtain ⟨_, _, ⟨rfl, rfl⟩, hok⟩ := hok
    obtain ⟨-, hlt, hres⟩ := allocateInodeLoop_ok hg₁ hok
    refine ⟨(hgood.allocated cg mode rfl).1, ?_, by rwa [himg] at hlt,
      (hgood.allocated cg mode rfl).2⟩
    -- a group has more than two inodes
    rcases hres with hres | hres
    · have hl := Image.layout hv
      have hpos := hg.ipg_pos
      have hblock := hl.inodesPerBlock
      have hmod := hl.inodesPerGroup
      have hge := hg.blockSize_ge
      unfold UFS_INODE_SIZE at hblock
      have hipb : v.fs.img.sb.inodesPerBlock ≤ v.fs.img.sb.inodesPerGroup :=
        Nat.le_of_dvd hpos (Nat.dvd_of_mod_eq_zero hmod)
      rw [himg] at hres
      by_contra hlt₂
      exact hres (Nat.div_eq_of_lt (by omega))
    · exact hres
  · intro cg mode no hw hcg hno h₂ hfree
    exact allocateInode_succeeds hg₁ ha₁ (by rwa [himg]) (by rwa [himg]) (by rwa [himg]) h₂ hfree
  · intro no mode hfree
    cases h : freeInodeInGroup no mode v₁ with
    | ok u v₂ =>
      rw [(freeInodeInGroup_ok hg₁ h).bits.1] at hfree
      cases hfree
    | error e v₂ =>
      have hsame := freeInodeInGroup_error h
      subst hsame
      exact ⟨e, rfl⟩

end

/-- The volume of `oneGroupFs` with 62 free inodes: the first two are in use. -/
def oneGroupVolume : Volume where
  fs := { oneGroupFs with
    totals := { nifree := 62 }
    csum := fun _ => { nifree := 62 }
    cg := fun c => { oneGroupFs.cg c with cs := { nifree := 62 } } }
  imap := fun _ => { irotor := 0, iused := fun i => decide (i < 2) }

theorem oneGroupVolume_agree : oneGroupVolume.InodesAgree fun _ => false := by
  have hc : ∀ c, c < oneGroupVolume.fs.img.sb.cgCount → c = 0 := fun c h => Nat.lt_one_iff.mp h
  refine ⟨fun c _ => rfl, fun c h => ?_, fun c h => ?_, fun c _ => ⟨rfl, rfl⟩, ?_, ?_⟩
  · rw [hc c h]
    decide +kernel
  · rw [hc c h]
    decide +kernel
  · decide +kernel
  · decide +kernel

/-- The first directory gets inode 2. -/
theorem inode_allocator_runs_first : ∃ v₁,
    allocateInode 0 0o040755 oneGroupVolume = .ok 2 v₁ ∧
      v₁.InodesAgree (Function.update (fun _ => false) 2 true) := by
  have hrun : value (allocateInode 0 0o040755 oneGroupVolume) = some 2 := by decide +kernel
  obtain ⟨v₁, h⟩ := exists_of_value hrun
  exact ⟨v₁, h, (inode_allocator_runs (by decide +kernel) oneGroupVolume_agree
    (.ok (show (InodeCall.allocate 0 0o040755).Valid _ _ from trivial) h (.nil _ _))).1⟩

end NextUfs.Core
