/-
NextUfs.Mutate.RunTheorems — any number of path mutations, by any callers.

`Call` is a call of the interface and `Call.run` makes it. A call that fails
leaves the volume as it was; one that succeeds makes an inode, or clears one,
or neither (`call_stepped`). A run keeps the accounts of the volume
(`runCalls_inOrder`): whatever its calls do, no fragment belongs to two files,
none is lost, every file stays well formed and the inode maps agree with the
counters. The induction is on the calls.

In an image a call that fails has written something, and its transaction is
rolled back. `mutateOneShot_refines` and `runSession_refines` say that the
volume read from the image is then the one `Call.run` and `runCalls` give.
-/
import NextUfs.Mutate.OperationTheorems
import NextUfs.Mutate.LifecycleTheorems
import Mathlib.Data.Set.Card

namespace NextUfs.Mutate

open NextUfs.Core NextUfs.Lib NextUfs.Lib.ByteStore NextUfs.Lib.StateResult NextUfs.Lib.Extents

/-! ## Calls -/

/-- A call of the interface; `update` is that of an opened file. -/
inductive Call where
  | createFile (path data : List UInt8)
  | unlink (path : List UInt8)
  | mkdir (path : List UInt8) (mode : UInt16)
  | overwriteFile (path data : List UInt8)
  | appendFile (path data : List UInt8)
  | rmdir (path : List UInt8)
  | link (source_path target_path : List UInt8)
  | symlink (target link_path : List UInt8)
  | truncate (path : List UInt8) (size : Nat)
  | pwrite (path data : List UInt8) (offset : Nat)
  | mknod (path : List UInt8) (mode : UInt16) (rdev : Nat)
  | rename (source_path target_path : List UInt8)
  | chmod (path : List UInt8) (mode : UInt16)
  | chown (path : List UInt8) (uid gid : Nat)
  | utimes (path : List UInt8)
  | update (ino : Nat) (gen : UInt32) (data : List UInt8) (offset : Nat) (trunc : Bool)

/-- The call, made by `ctx`. -/
def Call.run (ctx : WriteCtx) : Call → Volume → Status × Volume
  | .createFile path data => pathCreateFile ctx path data
  | .unlink path => pathUnlink ctx path
  | .mkdir path mode => pathMkdir ctx path mode
  | .overwriteFile path data => pathOverwriteFile ctx path data
  | .appendFile path data => pathAppendFile ctx path data
  | .rmdir path => pathRmdir ctx path
  | .link source_path target_path => pathLink ctx source_path target_path
  | .symlink target link_path => pathSymlink ctx target link_path
  | .truncate path size => pathTruncate ctx path size
  | .pwrite path data offset => pathPwrite ctx path data offset
  | .mknod path mode rdev => pathMknod ctx path mode rdev
  | .rename source_path target_path => pathRename ctx source_path target_path
  | .chmod path mode => pathChmod ctx path mode
  | .chown path uid gid => pathChown ctx path uid gid
  | .utimes path => pathUtimes ctx path
  | .update ino gen data offset trunc => openedFileUpdate ctx ino gen data offset trunc

/-- The volume after the calls, one after another. -/
def runCalls (calls : List (WriteCtx × Call)) (v : Volume) : Volume :=
  calls.foldl (fun v c => (c.2.run c.1 v).2) v

/-! ## Who has the image open -/

/-- The filesystem with another caller's image. -/
def Fs.forCaller (fs : Fs) (unprivileged : Bool) : Fs :=
  { fs with img := { fs.img with unprivileged := unprivileged } }

section
variable {base : Multiset Nat} {dir dir' : Nat → Bool} {v v' : Volume} {fs : Fs} {ino : Inode}
  {others : Multiset Nat} {S : Set Nat} {ev : Event}

theorem Fs.RunOk.forCaller {p n : Nat} (h : fs.RunOk p n) (b : Bool) :
    (Fs.forCaller fs b).RunOk p n :=
  ⟨h.pos, h.group, h.inGroup, h.inBlock⟩

theorem Fs.Sound.forCaller (h : fs.Sound) (b : Bool) : (Fs.forCaller fs b).Sound := by
  have hc := h.consistent
  exact ⟨h.valid, ⟨hc.group, hc.summary, hc.ndir, hc.nbfree, hc.nifree, hc.nffree⟩, h.fits, h.inSlice,
    h.zero⟩

theorem FileWf.forCaller (h : FileWf fs ino others) (b : Bool) :
    FileWf (Fs.forCaller fs b) ino others := by
  obtain ⟨⟨⟨hs, hd, hg, ho⟩, hb⟩, hle⟩ := h
  exact ⟨⟨⟨Fs.Sound.forCaller hs b, fun k hk hne => ⟨Fs.RunOk.forCaller (hd k hk hne).1 b,
    (hd k hk hne).2⟩, fun s hs => (hg s hs).mono (fun _ hp => ⟨hp.1, Fs.RunOk.forCaller hp.2 b⟩) le_rfl,
    ho⟩, hb⟩, hle⟩

/-- Nothing of the accounts depends on the caller. -/
theorem Ledger.forCaller (h : Ledger base dir v) (b : Bool) :
    Ledger base dir { v with fs := Fs.forCaller v.fs b } := by
  obtain ⟨⟨hs, hu, hf, hi⟩, ha, hb⟩ := h
  exact ⟨⟨Fs.Sound.forCaller hs b, hu, fun i hi hbl => FileWf.forCaller (hf i hi hbl) b, hi⟩,
    ⟨ha.magic, ha.nifree, ha.ndir, ha.summary, ha.total_nifree, ha.total_ndir⟩, hb⟩

/-- The volume a caller works on, put back when the call is done. -/
theorem Turn.closed {b : Bool}
    (h : Turn base dir dir' ev S { v with fs := Fs.forCaller v.fs b } v') :
    Turn base dir dir' ev S v { v' with fs := { v'.fs with img := v.fs.img } } := by
  have himg := h.beside.img
  have hv : ({ v' with fs := { v'.fs with img := v.fs.img } } : Volume) =
      { v' with fs := Fs.forCaller v'.fs v.fs.img.unprivileged } := by
    rw [Fs.forCaller, himg]
    rfl
  have hledger := h.ledger.forCaller v.fs.img.unprivileged
  rw [← hv] at hledger
  have hused : ∀ j, Volume.inodeUsed { v' with fs := { v'.fs with img := v.fs.img } } j =
      v'.inodeUsed j := by
    intro j
    rw [hv]
    rfl
  have hcount : Fs.inodeCount { v'.fs with img := v.fs.img } = v'.fs.inodeCount := by
    rw [Fs.inodeCount, Fs.inodeCount, himg]
    rfl
  refine ⟨⟨hledger, ⟨fun j hj => (hused j).trans (h.kept.change.used j hj), h.kept.change.kind,
    rfl, h.beside.inode, h.beside.content, fun j hj =>
      (congrArg (fun w : Volume => share w.fs j) hv).trans (h.beside.owned j hj)⟩⟩,
    fun ht i hi hbit => ?_, fun i hi => ?_, fun i hi => ?_⟩
  · rw [hused] at hbit
    rw [hcount] at hi
    exact h.typed ht i hi hbit
  · obtain ⟨hlt, hb, ha, hg⟩ := h.born i hi
    exact ⟨hlt, hb, (hused i).trans ha, hg⟩
  · obtain ⟨hlt, hb, ha, hg⟩ := h.died i hi
    exact ⟨hlt, hb, (hused i).trans ha, hg⟩

end

/-! ## A call -/

/-- What a call that succeeds does: one inode at most is born or dies, and four at most are changed. -/
def CallTurn (base : Multiset Nat) (dir : Nat → Bool) (v v' : Volume) : Prop :=
  ∃ (dir' : Nat → Bool) (ev : Event) (S : Set Nat), S.encard ≤ 4 ∧ Turn base dir dir' ev S v v'

section
variable {base : Multiset Nat} {dir dir' : Nat → Bool} {v v' : Volume} {S : Set Nat} {ev : Event}
  {ctx : WriteCtx} {a b c d : Nat}

theorem Turn.call_four (h : Turn base dir dir' ev {a, b, c, d} v v') : CallTurn base dir v v' :=
  ⟨dir', ev, _, by
    refine (Set.encard_insert_le _ _).trans ?_
    refine (add_le_add_left (Set.encard_insert_le _ _) 1).trans ?_
    refine (add_le_add_left (add_le_add_left (Set.encard_insert_le _ _) 1) 1).trans ?_
    rw [Set.encard_singleton]
    norm_num, h⟩

theorem Turn.call_three (h : Turn base dir dir' ev {a, b, c} v v') : CallTurn base dir v v' :=
  Turn.call_four (a := a) (h.mono (Set.subset_insert _ _))

theorem Turn.call_two (h : Turn base dir dir' ev {a, b} v v') : CallTurn base dir v v' :=
  Turn.call_three (a := a) (h.mono (Set.subset_insert _ _))

theorem Kept.call (h : Kept base dir ∅ {a} v v') : CallTurn base dir v v' :=
  Turn.call_two (a := a) (h.turn.mono (Set.subset_insert _ _))

theorem mutation_ok {α : Type} {args : Except Errno α} {body : α → VolM PUnit}
    (h : mutation ctx args body v = (none, v')) : ∃ a v₁, args = .ok a ∧
      body a { v with fs := Fs.forCaller v.fs (ctx.user && decide (ctx.uid ≠ 0)) } = .ok ⟨⟩ v₁ ∧
      v' = { v₁ with fs := { v₁.fs with img := v.fs.img } } := by
  unfold mutation at h
  cases args with
  | error e => simp at h
  | ok a =>
    dsimp only at h
    cases hbody : body a (Volume.openRw v ctx) with
    | error e v₁ => simp [hbody] at h
    | ok u v₁ =>
      rw [hbody] at h
      exact ⟨a, v₁, rfl, hbody, (Prod.mk.inj h).2.symm⟩

/-- A call that fails changes nothing. -/
theorem mutation_error {α : Type} {args : Except Errno α} {body : α → VolM PUnit} {e : Errno}
    (h : mutation ctx args body v = (some e, v')) : v' = v := by
  unfold mutation at h
  cases args with
  | error e => exact (Prod.mk.inj h).2.symm
  | ok a =>
    dsimp only at h
    cases hbody : body a (Volume.openRw v ctx) with
    | error e v₁ =>
      rw [hbody] at h
      exact (Prod.mk.inj h).2.symm
    | ok u v₁ => simp [hbody] at h

theorem except_bind_ok {α β : Type} {x : Except Errno α} {f : α → Except Errno β} {b : β} :
    (x >>= f) = .ok b ↔ ∃ a, x = .ok a ∧ f a = .ok b := by
  cases x with
  | error e => simp [bind, Except.bind]
  | ok a => simp [bind, Except.bind]

theorem argStatus_ok {st : Status} {u : Unit} (h : argStatus st = .ok u) : st = none := by
  cases st with
  | none => rfl
  | some e => cases h

theorem entryArgs_ok {path : List UInt8} {refuse : List UInt8 → Status}
    {a : List UInt8 × List UInt8} (h : entryArgs ctx path refuse = .ok a) :
    pathSplit path 4096 256 = .ok (a.1, a.2) ∧ refuse a.2 = none := by
  simp only [entryArgs, except_bind_ok] at h
  obtain ⟨_, -, ⟨p, n⟩, hsplit, _, hrefuse, h⟩ := h
  cases h
  exact ⟨hsplit, argStatus_ok hrefuse⟩

/-- A body, run for a caller. -/
theorem mutation_call {α : Type} {args : Except Errno α} {body : α → VolM PUnit}
    (h : Ledger base dir v) (ht : Typed dir v) (hok : mutation ctx args body v = (none, v'))
    (hbody : ∀ {a : α} {v v' : Volume} {u : PUnit}, args = .ok a → Ledger base dir v → Typed dir v →
      body a v = .ok u v' → CallTurn base dir v v') : CallTurn base dir v v' := by
  obtain ⟨a, v₁, hargs, hrun, rfl⟩ := mutation_ok hok
  obtain ⟨dir', ev, S, hcard, hturn⟩ := hbody hargs (h.forCaller _) (by exact ht) hrun
  exact ⟨dir', ev, S, hcard, hturn.closed⟩

/-- A call that succeeds. -/
theorem call_turn (c : Call) (h : Ledger base dir v) (ht : Typed dir v)
    (hok : c.run ctx v = (none, v')) : CallTurn base dir v v' := by
  cases c with
  | createFile path data =>
    refine mutation_call h ht hok fun {a _ _ _} hargs h _ hrun => ?_
    obtain ⟨parent, _, no, _, _, -, hmade, -⟩ := createFileBody_made h hrun
    exact hmade.turn.call_two
  | unlink path =>
    refine mutation_call h ht hok fun {a _ _ _} hargs h ht hrun => ?_
    obtain ⟨parent, target, -, -, -, -, hturn⟩ := unlinkBody_turn h ht (entryArgs_ok hargs).1 hrun
    exact hturn.call_two
  | mkdir path mode =>
    refine mutation_call h ht hok fun {a _ _ _} hargs h _ hrun => ?_
    obtain ⟨parent, no, hturn, -⟩ := mkdirBody_made h hrun
    exact hturn.call_two
  | overwriteFile path data =>
    refine mutation_call h ht hok fun {a _ _ _} hargs h _ hrun => ?_
    obtain ⟨node, hchanged⟩ := rewriteFileBody_kept h hrun
    exact hchanged.kept.call
  | appendFile path data =>
    refine mutation_call h ht hok fun {a _ _ _} hargs h _ hrun => ?_
    obtain ⟨node, hchanged⟩ := rewriteFileBody_kept h hrun
    exact hchanged.kept.call
  | rmdir path =>
    refine mutation_call h ht hok fun {a _ _ _} hargs h ht hrun => ?_
    obtain ⟨parent, target, -, -, hturn⟩ := rmdirBody_turn h ht (entryArgs_ok hargs).1 hrun
    exact hturn.call_two
  | link source_path target_path =>
    refine mutation_call h ht hok fun {a _ _ _} hargs h _ hrun => ?_
    obtain ⟨parent, source, -, -, hkept, -⟩ := linkBody_kept h (entryArgs_ok hargs).1 hrun
    exact hkept.turn.call_two
  | symlink target link_path =>
    refine mutation_call h ht hok fun {a _ _ _} hargs h _ hrun => ?_
    obtain ⟨parent, _, no, _, _, -, -, hmade, -⟩ := symlinkBody_made h (entryArgs_ok hargs).1 hrun
    exact hmade.turn.call_two
  | truncate path size =>
    refine mutation_call h ht hok fun {a _ _ _} hargs h _ hrun => ?_
    obtain ⟨node, hchanged⟩ := changeFileBody_kept
      (fun hheld hreg hrun => fileResize_kept h hheld hreg hrun) hrun
    exact hchanged.kept.call
  | pwrite path data offset =>
    refine mutation_call h ht hok fun {a _ _ _} hargs h _ hrun => ?_
    obtain ⟨node, hchanged⟩ := changeFileBody_kept
      (fun hheld hreg hrun => fileWrite_kept h hheld hreg hrun) hrun
    exact hchanged.kept.call
  | mknod path mode rdev =>
    refine mutation_call h ht hok fun {a _ _ _} hargs h _ hrun => ?_
    obtain ⟨parent, _, no, _, _, hmade, -⟩ := mknodBody_made h hrun
    exact hmade.turn.call_two
  | rename source_path target_path =>
    refine mutation_call h ht hok fun {a _ _ _} hargs h ht hrun => ?_
    simp only [except_bind_ok] at hargs
    obtain ⟨old, hold, new, hnew, hpair⟩ := hargs
    cases hpair
    obtain ⟨hfrom, hdot⟩ := entryArgs_ok hold
    have hname : ¬ nameIsDotOrDotdot old.2 := by
      intro hname
      rw [disallowDotNames, if_pos hname] at hdot
      cases hdot
    obtain ⟨source, old_parent, new_parent, ev, -, hturn | ⟨existing, -, hturn⟩⟩ :=
      renameBody_turn h ht hfrom hname (entryArgs_ok hnew).1 hrun
    · exact hturn.call_three
    · exact hturn.call_four
  | chmod path mode =>
    refine mutation_call h ht hok fun {a _ _ _} hargs h _ hrun => ?_
    obtain ⟨node, htouched⟩ := chmodBody_touched h hrun
    exact htouched.kept.call
  | chown path uid gid =>
    refine mutation_call h ht hok fun {a _ _ _} hargs h _ hrun => ?_
    obtain ⟨node, htouched⟩ := chownBody_touched h hrun
    exact htouched.kept.call
  | utimes path =>
    refine mutation_call h ht hok fun {a _ _ _} hargs h _ hrun => ?_
    obtain ⟨node, htouched⟩ := utimesBody_touched h hrun
    exact htouched.kept.call
  | update ino gen data offset trunc =>
    rw [Call.run, openedFileUpdate] at hok
    refine mutation_call h ht hok fun {a _ _ _} hargs h _ hrun => ?_
    obtain ⟨node, hchanged, -⟩ := openedFileBody_kept h hrun
    exact hchanged.kept.call

end

/-! ## Volumes in order -/

/-- A volume in order: its fragments and inodes are accounted for, the directories of the counters
being those of the inode table. -/
def InOrder (base : Multiset Nat) (v : Volume) : Prop :=
  Ledger base (fun i => isDirMode (v.fs.inode i).mode) v

/-- What a call does to a volume in order: one inode at most is born or dies, and four at most are
changed. -/
structure Stepped (base : Multiset Nat) (ev : Event) (S : Set Nat) (v v' : Volume) : Prop where
  inOrder : InOrder base v'
  few : S.encard ≤ 4
  change : Change ev.about S v v'
  born : ∀ i, ev = .born i → i < v.fs.inodeCount ∧ v.inodeUsed i = false ∧
    v'.inodeUsed i = true ∧ (v'.fs.inode i).gen = (v.fs.inode i).gen
  died : ∀ i, ev = .died i → i < v.fs.inodeCount ∧ v.inodeUsed i = true ∧
    v'.inodeUsed i = false ∧ (v'.fs.inode i).gen = (v.fs.inode i).gen + 1

/-- How many calls of a run give the inode `i` back. -/
def deaths (i : Nat) : List (WriteCtx × Call) → Volume → Nat
  | [], _ => 0
  | c :: calls, v =>
    let v' := (c.2.run c.1 v).2
    (if v.inodeUsed i = true ∧ v'.inodeUsed i = false then 1 else 0) + deaths i calls v'

section
variable {base : Multiset Nat} {dir : Nat → Bool} {v v' : Volume} {ctx : WriteCtx} {ev : Event}
  {S : Set Nat} {i : Nat}

theorem Ledger.inOrder (h : Ledger base dir v) (ht : Typed dir v) : InOrder base v :=
  ⟨h.accounts, InodesAgree.congr h.agree fun i hi hused => (ht i hi hused).symm, h.blank⟩

theorem call_failed (c : Call) {e : Errno} (h : c.run ctx v = (some e, v')) : v' = v := by
  cases c with
  | update ino gen data offset trunc =>
    rw [Call.run, openedFileUpdate] at h
    exact mutation_error h
  | _ => exact mutation_error h

/-- Every call, whether it succeeds or not. -/
theorem call_stepped (c : Call) (h : InOrder base v) :
    ∃ ev S, Stepped base ev S v (c.run ctx v).2 := by
  rcases hrun : c.run ctx v with ⟨st, v'⟩
  cases st with
  | some e =>
    obtain rfl := call_failed c hrun
    exact ⟨.still, ∅, h, by simp, Change.refl _ _ _, fun _ h => (nomatch h), fun _ h => (nomatch h)⟩
  | none =>
    obtain ⟨dir', ev, S, hfew, hturn⟩ := call_turn c h (fun i _ _ => rfl) hrun
    exact ⟨ev, S, hturn.ledger.inOrder (hturn.typed fun i _ _ => rfl), hfew, hturn.kept.change,
      hturn.born, hturn.died⟩

end

/-! ### A small volume -/

/-- A directory block: `.`, `..` and `f` for inode 3. -/
def rootBlock : ByteStore := fun i =>
  ([(3, 2), (5, 12), (7, 1), (8, 0x2e), (15, 2), (17, 12), (19, 2), (20, 0x2e), (21, 0x2e), (27, 3),
    (28, 3), (29, 0xe8), (31, 1), (32, 0x66)] : List (Nat × UInt8)).lookup i |>.getD 0

def rootInode : Inode :=
  { mode := 0o040755, nlink := 2, uid := 0, gid := 0, size := 1024
    db := fun k => if k = 0 then 44 else 0, ib := fun _ => 0, flags := 0, blocks := 1, gen := 0 }

def emptyInode : Inode :=
  { mode := 0o100644, nlink := 1, uid := 0, gid := 0, size := 0, db := fun _ => 0, ib := fun _ => 0
    flags := 0, blocks := 0, gen := 7 }

/-- The small filesystem with a root directory, whose block is fragment 44, and an empty file. -/
def rootVolume : Volume where
  fs := { oneGroupFs with
    totals := { ndir := 1, nbfree := 2, nifree := 60, nffree := 3 }
    csum := fun _ => { ndir := 1, nbfree := 2, nifree := 60, nffree := 3 }
    cg := fun c => { oneGroupFs.cg c with cs := { ndir := 1, nbfree := 2, nifree := 60, nffree := 3 } }
    inode := fun i => if i = 2 then rootInode else if i = 3 then emptyInode else oneGroupFs.inode i
    bytes := fun p => if 45056 ≤ p ∧ p < 46080 then rootBlock (p - 45056) else 0 }
  imap := fun _ => { irotor := 0, iused := fun i => decide (i < 4) }

/-- Its metadata: all fragments in use but that of the root directory. -/
def rootBase : Multiset Nat := rootVolume.fs.used.erase 44

theorem rootVolume_sound : rootVolume.fs.Sound := by
  have hg := oneGroupFs_consistent.group 0 (by decide)
  refine ⟨oneGroup_valid, ⟨fun c _ => ⟨hg.ndblk_le, hg.free_lt, hg.nbfree, hg.nffree, hg.frsum, hg.btot,
    hg.bpos⟩, fun c _ => rfl, ?_, ?_, ?_, ?_⟩, by decide, by decide, by decide⟩ <;> decide +kernel

theorem rootVolume_agree :
    rootVolume.InodesAgree fun i => isDirMode (rootVolume.fs.inode i).mode := by
  have hc : ∀ c, c < rootVolume.fs.img.sb.cgCount → c = 0 := fun c h => Nat.lt_one_iff.mp h
  refine ⟨fun c _ => rfl, fun c h => ?_, fun c h => ?_, fun c _ => ⟨rfl, rfl⟩, ?_, ?_⟩
  · rw [hc c h]
    decide +kernel
  · rw [hc c h]
    decide +kernel
  · decide +kernel
  · decide +kernel

/-- The root directory's fragment. -/
theorem rootInode_own {len : Nat → Nat} (hlen : len 0 = 1) :
    rootVolume.fs.img.sb.fileOwn rootVolume.fs.bytes rootInode len = {44} := by
  have hslots : ∀ s, rootVolume.fs.img.sb.slotTree rootVolume.fs.bytes rootInode s = .hole :=
    fun _ => BlockTree.load_null ..
  rw [Superblock.fileOwn, Finset.sum_eq_single 0]
  · simp only [hslots, hlen]
    rw [show ∑ _ ∈ Finset.range 3, rootVolume.fs.img.sb.own BlockTree.hole = 0 from
      Finset.sum_const_zero, add_zero]
    rfl
  · intro k _ hk
    rw [show rootInode.db k = 0 from if_neg hk, extent_null]
  · intro h0
    exact absurd (Finset.mem_range.mpr (by decide)) h0

theorem rootInode_file : FileWf rootVolume.fs rootInode rootBase := by
  have hlen : fileFrags rootVolume.fs.img.sb rootInode.size 0 = 1 := by decide
  have hown := rootInode_own hlen
  refine ⟨⟨⟨rootVolume_sound, fun k hk hne => ?_, fun s _ => ?_, ?_⟩, ?_⟩, by decide⟩
  · obtain rfl : k = 0 := by
      by_contra hk0
      exact hne (if_neg hk0)
    rw [hlen]
    exact ⟨⟨by decide, by decide, by decide, by decide⟩, by decide⟩
  · rw [show rootVolume.fs.img.sb.slotTree rootVolume.fs.bytes rootInode s = .hole from
      BlockTree.load_null ..]
    trivial
  · rw [hown]
    exact Multiset.cons_erase (Fs.mem_used.mpr (by decide))
  · rw [hown]
    rfl

/-- The inodes but that of the root directory own nothing. -/
theorem rootVolume_idle {i : Nat} (hi : i ≠ 2) : Pointerless (rootVolume.fs.inode i) ∧
    (rootVolume.fs.inode i).blocks = 0 ∧ (i ≠ 3 → (rootVolume.fs.inode i).mode = 0) := by
  have hinode : rootVolume.fs.inode i = if i = 3 then emptyInode else oneGroupFs.inode i := if_neg hi
  rw [hinode]
  split
  case isTrue h3 => exact ⟨⟨rfl, fun _ _ => rfl, fun _ _ => rfl⟩, rfl, fun h => absurd h3 h⟩
  case isFalse => exact ⟨⟨rfl, fun _ _ => rfl, fun _ _ => rfl⟩, rfl, fun _ => rfl⟩

theorem rootVolume_share {i : Nat} (hi : i ≠ 2) : share rootVolume.fs i = 0 := by
  unfold share
  split
  case isTrue =>
    obtain ⟨hp, -⟩ := rootVolume_idle hi
    exact (@fileTree_empty rootVolume.fs _ _ 0 rootVolume_sound hp.db hp.ib).1
  case isFalse => rfl

theorem rootVolume_rest : rest rootVolume.fs 2 = 0 :=
  Finset.sum_eq_zero fun _ hj => rootVolume_share (Finset.ne_of_mem_erase hj)

theorem rootVolume_inOrder : InOrder rootBase rootVolume := by
  have hdir : HasBlocks (rootVolume.fs.inode 2) := by decide
  have hshare : share rootVolume.fs 2 = {44} := by
    rw [share_of_hasBlocks (by decide) hdir]
    exact rootInode_own (by decide)
  have hused : rootVolume.fs.used = rootBase + shares rootVolume.fs := by
    rw [shares_eq _ 2, hshare, rootVolume_rest, add_zero, add_comm]
    exact (Multiset.cons_erase (Fs.mem_used.mpr (by decide))).symm
  refine ⟨⟨rootVolume_sound, hused, fun i hi hb => ?_, fun i hi hb => ?_⟩, rootVolume_agree,
    fun i hi hbit => ?_⟩
  · by_cases h2 : i = 2
    · rw [h2, rootVolume_rest, add_zero]
      exact rootInode_file
    · obtain ⟨hp, hblocks, -⟩ := rootVolume_idle h2
      have hrest : rootBase + rest rootVolume.fs i = rootVolume.fs.used := by
        rw [hused, shares_eq _ i, rootVolume_share h2, zero_add]
      rw [hrest]
      exact (newborn_of_idle rootVolume_sound (fun _ => ⟨hp, hblocks⟩) fun hn => absurd hb hn).file hb
  · by_cases h2 : i = 2
    · rw [h2] at hb
      exact absurd hdir hb
    · obtain ⟨hp, -⟩ := rootVolume_idle h2
      exact ⟨.inr (.inr hp), by rw [hp.size]; exact Nat.zero_le _⟩
  · have hlt : ¬ i < 4 := by
      have hmod : i % 64 = i := Nat.mod_eq_of_lt hi
      change decide (i % 64 < 4) = false at hbit
      rwa [hmod, decide_eq_false_iff_not] at hbit
    rw [(rootVolume_idle (by omega)).2.2 (by omega)]
    exact UInt16.zero_and

/-- The superuser. -/
def rootCtx : WriteCtx := ⟨true, 0, 0, []⟩

/-! ## Runs -/

section
variable {base : Multiset Nat} {dir : Nat → Bool} {v v' : Volume} {ctx : WriteCtx} {ev : Event}
  {S : Set Nat} {i : Nat}

/-- Whatever the calls are, and whoever makes them, the volume stays in order. -/
theorem runCalls_inOrder (calls : List (WriteCtx × Call)) (h : InOrder base v) :
    InOrder base (runCalls calls v) := by
  induction calls generalizing v with
  | nil => exact h
  | cons c calls ih =>
    obtain ⟨ev, S, hstep⟩ := call_stepped c.2 h
    exact ih hstep.inOrder

theorem runCalls_img (calls : List (WriteCtx × Call)) (h : InOrder base v) :
    (runCalls calls v).fs.img = v.fs.img := by
  induction calls generalizing v with
  | nil => rfl
  | cons c calls ih =>
    obtain ⟨ev, S, hstep⟩ := call_stepped c.2 h
    exact (ih hstep.inOrder).trans hstep.change.beside.img

/-! ### Generations -/

/-- An inode the event is not about. -/
theorem Stepped.other (h : Stepped base ev S v v') (hi : i ∉ ev.about) :
    v'.inodeUsed i = v.inodeUsed i ∧ SameKind (v.fs.inode i) (v'.fs.inode i) :=
  ⟨h.change.used i hi, h.change.kind i hi⟩

/-- An inode in use before and after a step keeps its kind. -/
theorem Stepped.kind_of_used (h : Stepped base ev S v v') (hused : v.inodeUsed i = true)
    (hused' : v'.inodeUsed i = true) : SameKind (v.fs.inode i) (v'.fs.inode i) := by
  refine (h.other fun hi => ?_).2
  cases ev with
  | still => exact hi
  | born j =>
    obtain rfl := Set.mem_singleton_iff.mp hi
    rw [(h.born i rfl).2.1] at hused
    cases hused
  | died j =>
    obtain rfl := Set.mem_singleton_iff.mp hi
    rw [(h.died i rfl).2.2.1] at hused'
    cases hused'

/-- A call moves the generation of an inode on when it gives the inode back, and then only. -/
theorem Stepped.gen (h : Stepped base ev S v v') (i : Nat) : (v'.fs.inode i).gen =
    (v.fs.inode i).gen +
      UInt32.ofNat (if v.inodeUsed i = true ∧ v'.inodeUsed i = false then 1 else 0) := by
  by_cases hi : i ∈ ev.about
  · cases ev with
    | still => exact absurd hi (Set.notMem_empty i)
    | born j =>
      obtain rfl := Set.mem_singleton_iff.mp hi
      obtain ⟨-, hbefore, -, hgen⟩ := h.born i rfl
      rw [if_neg (by rw [hbefore]; simp), hgen]
      exact (UInt32.add_zero _).symm
    | died j =>
      obtain rfl := Set.mem_singleton_iff.mp hi
      obtain ⟨-, hbefore, hafter, hgen⟩ := h.died i rfl
      rw [if_pos ⟨hbefore, hafter⟩, hgen]
      rfl
  · obtain ⟨hused, hkind⟩ := h.other hi
    rw [if_neg (by rw [hused]; simp), hkind.gen]
    exact (UInt32.add_zero _).symm

/-- The generation of an inode counts how often it was given back. -/
theorem runCalls_gen (calls : List (WriteCtx × Call)) (h : InOrder base v) (i : Nat) :
    ((runCalls calls v).fs.inode i).gen =
      (v.fs.inode i).gen + UInt32.ofNat (deaths i calls v) := by
  induction calls generalizing v with
  | nil => exact (UInt32.add_zero _).symm
  | cons c calls ih =>
    obtain ⟨ev, S, hstep⟩ := call_stepped c.2 h
    rw [runCalls, List.foldl_cons, ← runCalls, ih hstep.inOrder, hstep.gen i, deaths, UInt32.add_assoc,
      ← UInt32.ofNat_add]

/-- An inode that is never given back stays in use, and stays what it is. -/
theorem runCalls_alive (calls : List (WriteCtx × Call)) (h : InOrder base v)
    (hused : v.inodeUsed i = true) (hnone : deaths i calls v = 0) :
    (runCalls calls v).inodeUsed i = true ∧
      SameKind (v.fs.inode i) ((runCalls calls v).fs.inode i) := by
  induction calls generalizing v with
  | nil => exact ⟨hused, SameKind.refl _⟩
  | cons c calls ih =>
    obtain ⟨ev, S, hstep⟩ := call_stepped c.2 h
    rw [deaths] at hnone
    have hrest : deaths i calls (c.2.run c.1 v).2 = 0 := by omega
    have hlive : (c.2.run c.1 v).2.inodeUsed i = true := by
      by_contra hdead
      rw [if_pos ⟨hused, Bool.eq_false_iff.mpr hdead⟩] at hnone
      omega
    obtain ⟨hused', hkind⟩ := ih hstep.inOrder hlive hrest
    exact ⟨hused', (hstep.kind_of_used hused hlive).trans hkind⟩

end

/-! ### Handles -/

section
variable {base : Multiset Nat} {v v' : Volume} {fs : Fs} {ctx : WriteCtx} {i : Nat}

/-- Every inode of the table is read. -/
theorem Accounts.inodeRead_eq (ha : Accounts base fs) (hi : i < fs.inodeCount) :
    inodeRead i fs = .ok (fs.inode i) fs := by
  have hsize : (fs.inode i).size ≤ INT32_MAX := by
    by_cases hb : HasBlocks (fs.inode i)
    · exact (ha.file i hi hb).2
    · exact (ha.idle i hi hb).2
  exact bind_ok.mpr ⟨fs, fs, rfl, bind_ok.mpr ⟨⟨⟩, fs, check_ok.mpr ⟨⟨ha.sound.valid, hi⟩, rfl⟩,
    bind_ok.mpr ⟨⟨⟩, fs, check_ok.mpr ⟨hsize, rfl⟩, rfl⟩⟩⟩

/-- A regular file's inode is in use. -/
theorem InOrder.used_of_isReg (h : InOrder base v) (hi : i < v.fs.inodeCount)
    (hreg : (v.fs.inode i).isReg) : v.inodeUsed i = true := by
  by_contra hun
  exact not_hasBlocks_of_type (h.blank i hi (Bool.eq_false_iff.mpr hun)) (.inl hreg)

/-- `nextufs__opened_file_update` changes the file it is about and no other, if any. -/
theorem openedFileUpdate_change {gen : UInt32} {data : List UInt8} {offset : Nat}
    {trunc : Bool} {st : Status} (h : InOrder base v)
    (hrun : openedFileUpdate ctx i gen data offset trunc v = (st, v')) : Change ∅ {i} v v' := by
  rw [openedFileUpdate] at hrun
  cases st with
  | some e =>
    obtain rfl := mutation_error hrun
    exact Change.refl _ _ _
  | none =>
    obtain ⟨_, v₁, -, hbody, rfl⟩ := mutation_ok hrun
    obtain ⟨node, hchanged, rfl, -⟩ := openedFileBody_kept (h.forCaller _) hbody
    exact (Turn.closed hchanged.kept.turn).kept.change

/-- `nextufs__opened_file_update` on a handle that is out of date. -/
theorem openedFileUpdate_stale {gen : UInt32} {data : List UInt8} {offset : Nat} {trunc : Bool}
    (h : InOrder base v) (hi : i < v.fs.inodeCount) (hgen : (v.fs.inode i).gen ≠ gen) :
    openedFileUpdate ctx i gen data offset trunc v = (some .ESTALE, v) := by
  have hread : nodeGetByInode i (Volume.openRw v ctx).fs =
      .ok ⟨i, v.fs.inode i⟩ (Volume.openRw v ctx).fs :=
    bind_ok.mpr ⟨_, _, Accounts.inodeRead_eq (h.forCaller _).accounts hi, rfl⟩
  have hbody : openedFileBody i gen data offset trunc (Volume.openRw v ctx).fs =
      .error .ESTALE (Volume.openRw v ctx).fs := by
    refine bind_error.mpr (.inr ⟨_, _, hread, bind_error.mpr (.inl ?_)⟩)
    exact check_error.mpr ⟨fun hc => hgen hc.1, rfl, rfl⟩
  rw [openedFileUpdate, mutation]
  dsimp only
  rw [onFs, hbody]

/-- A handle taken while a regular file was at its inode: when the inode has been given back since,
its calls are refused, and until then they change that file only. -/
theorem openedFileUpdate_after (calls : List (WriteCtx × Call)) {data : List UInt8} {offset : Nat}
    {trunc : Bool} (h : InOrder base v) (hi : i < v.fs.inodeCount) (hreg : (v.fs.inode i).isReg) :
    (0 < deaths i calls v → deaths i calls v < 2 ^ 32 →
      openedFileUpdate ctx i (v.fs.inode i).gen data offset trunc (runCalls calls v) =
        (some .ESTALE, runCalls calls v)) ∧
    (deaths i calls v = 0 → (runCalls calls v).inodeUsed i = true ∧
      ((runCalls calls v).fs.inode i).isReg ∧ ∀ v',
        openedFileUpdate ctx i (v.fs.inode i).gen data offset trunc (runCalls calls v) = (none, v') →
          Change ∅ {i} (runCalls calls v) v') := by
  have hafter := runCalls_inOrder calls h
  have hcount : i < (runCalls calls v).fs.inodeCount := by
    rw [Fs.inodeCount, runCalls_img calls h]
    exact hi
  refine ⟨fun hpos hlt => openedFileUpdate_stale hafter hcount ?_, fun hnone => ?_⟩
  · rw [runCalls_gen calls h i]
    intro heq
    have hzero : UInt32.ofNat (deaths i calls v) = 0 := by
      simpa using heq
    have := congrArg UInt32.toNat hzero
    rw [UInt32.toNat_ofNat', Nat.mod_eq_of_lt hlt] at this
    exact absurd this (Nat.pos_iff_ne_zero.mp hpos)
  · obtain ⟨hlive, hkind⟩ := runCalls_alive calls h (h.used_of_isReg hi hreg) hnone
    exact ⟨hlive, hkind.isReg.mpr hreg, fun v' hok => openedFileUpdate_change hafter hok⟩

end

/-- The file is unlinked, and its inode is given to another. -/
theorem openedFileUpdate_after_unlink :
    deaths 3 [(rootCtx, .unlink [0x2f, 0x66]), (rootCtx, .createFile [0x2f, 0x67] [1])] rootVolume = 1 ∧
      openedFileUpdate rootCtx 3 7 [9] 0 false (runCalls [(rootCtx, .unlink [0x2f, 0x66]),
        (rootCtx, .createFile [0x2f, 0x67] [1])] rootVolume) = (some .ESTALE,
        runCalls [(rootCtx, .unlink [0x2f, 0x66]), (rootCtx, .createFile [0x2f, 0x67] [1])]
          rootVolume) := by
  have hone : deaths 3 [(rootCtx, .unlink [0x2f, 0x66]), (rootCtx, .createFile [0x2f, 0x67] [1])]
      rootVolume = 1 := by decide +kernel
  refine ⟨hone, (openedFileUpdate_after _ rootVolume_inOrder (show 3 < rootVolume.fs.inodeCount by decide)
    (by decide)).1 ?_ ?_⟩ <;> rw [hone] <;> decide

/-! ## In an image -/

/-- How the volume is read from an image. The state byte is no part of it. -/
structure VolumeView (off : Nat) where
  read : ByteStore → Volume
  read_congr : ∀ {a b : ByteStore}, SameRest off a b → read a = read b

/-- A body that ends as a call does, and whose writes make of the image what the call makes of the
volume. Of a call that fails only the end is asked. -/
structure Realizes {off : Nat} (view : VolumeView off) (h : Handle) (body : Body)
    (r : Status × Volume) : Prop where
  rc : body.rc = r.1
  post : r.1 = none → view.read (body.post h) = r.2

/-- The calls of a session with their bodies: every one is let in, and none ends in `EUCLEAN`. -/
def SessionRuns {off : Nat} (view : VolumeView off) :
    Session → List (WriteCtx × Call) → List (Body × MutationFaults × Status) → Prop
  | _, [], [] => True
  | s, c :: calls, m :: ms =>
    let r := mutateInSession s m.1 m.2.1 m.2.2
    m.1.WellBehaved s.image.handle off s.image.diskState ∧
      Realizes view s.image.handle m.1 (c.2.run c.1 (view.read s.image.handle.bytes)) ∧
      r.1.opened = true ∧ r.1.recovery ≠ some .EUCLEAN ∧ SessionRuns view r.2 calls ms
  | _, _, _ => False

section
variable {off : Nat} {view : VolumeView off} {ctx : WriteCtx} {c : Call} {body : Body}
  {f : MutationFaults}

/-- A call that fails leaves the volume as it was since its writes are rolled back. -/
theorem Realizes.left {h : Handle} {pre : ByteStore}
    (hr : Realizes view h body (c.run ctx (view.read pre))) :
    view.read (body.left h pre) = (c.run ctx (view.read pre)).2 := by
  unfold Body.left
  rcases hrun : c.run ctx (view.read pre) with ⟨st, v'⟩
  rw [hrun] at hr
  cases st with
  | none =>
    rw [if_pos hr.rc]
    exact hr.post rfl
  | some e =>
    rw [if_neg (by rw [hr.rc]; simp)]
    exact (call_failed c hrun).symm

/-- A one-shot mutation leaves the volume of its call in the image, whatever the call had written
when it failed, if it ends as the call does. -/
theorem mutateOneShot_refines {img : Writer} {view : VolumeView img.stateOff}
    (htx : img.handle.transaction = none)
    (hb : body.WellBehaved img.opened.handle img.stateOff (dirtyState img.sbState))
    (hr : Realizes view img.opened.handle body (c.run ctx (view.read img.handle.bytes)))
    (hopen : (mutateOneShot img body f).opened = true)
    (hend : (mutateOneShot img body f).recovery = (c.run ctx (view.read img.handle.bytes)).1)
    (hne : (mutateOneShot img body f).recovery ≠ some .EUCLEAN) :
    view.read (mutateOneShot img body f).img.handle.bytes =
      (c.run ctx (view.read img.handle.bytes)).2 :=
  (view.read_congr (mutateOneShot_rest htx hb hopen (hend.trans hr.rc.symm) hne)).trans hr.left

/-- A session leaves the volume of its calls in the image. The induction is on the calls. -/
theorem runSession_refines {calls : List (WriteCtx × Call)} :
    ∀ {s : Session} {ms : List (Body × MutationFaults × Status)}, s.Dirty off →
      SessionRuns view s calls ms → view.read (runSession s ms).image.handle.bytes =
        runCalls calls (view.read s.image.handle.bytes) := by
  induction calls with
  | nil =>
    intro s ms _ hruns
    cases ms with
    | nil => rfl
    | cons m ms => exact hruns.elim
  | cons c calls ih =>
    intro s ms hs hruns
    cases ms with
    | nil => exact hruns.elim
    | cons m ms =>
      obtain ⟨hb, hr, hopen, hne, hrest⟩ := hruns
      have hone : view.read (mutateInSession s m.1 m.2.1 m.2.2).2.image.handle.bytes =
          (c.2.run c.1 (view.read s.image.handle.bytes)).2 := by
        rw [← mutateInSession_img, mutateInSession_rest hs hb hopen hne]
        exact hr.left
      have hlater := ih (mutateInSession_honest hs hb m.2.1 m.2.2).2 hrest
      rw [runCalls, List.foldl_cons, ← hone]
      exact hlater

end

end NextUfs.Mutate
