/-
NextUfs.Mutate.HandleTheorems — the files a mount has open.

A mount keeps the inode number and the generation of every file it has open
(`struct open_file` in `src/commands/mount.c`) and gives both to
`nextufs__opened_file_update`. `Mount` has them beside the volume, and counts
how often each inode was given back; the count is history, nothing reads it.
`Mount.Sound` is what a run keeps: the generation has moved on by as much as
the count has since the file was opened. `runMount_handles` is what follows for
every handle in every state of a run.
-/
import NextUfs.Mutate.RunTheorems

namespace NextUfs.Mutate

open NextUfs.Core NextUfs.Lib NextUfs.Lib.ByteStore NextUfs.Lib.StateResult

/-! ## Runs with open files -/

/-- `struct open_file`, without its flags; `frees` is how often the inode had been given back when
the file was opened. -/
structure OpenFile where
  ino : Nat
  gen : UInt32
  frees : Nat
  deriving DecidableEq

/-- A volume and the files that are open in it. -/
structure Mount where
  volume : Volume
  frees : Nat → Nat
  files : List OpenFile

/-- A volume in which nothing is open yet. -/
def Mount.start (v : Volume) : Mount := ⟨v, fun _ => 0, []⟩

/-- What happens to a mount; `update` uses the open file at a place in the list. -/
inductive MountEvent where
  | call (ctx : WriteCtx) (c : Call)
  | opens (ino : Nat)
  | update (ctx : WriteCtx) (k : Nat) (data : List UInt8) (offset : Nat) (trunc : Bool)

/-- The mount after a call. -/
def Mount.after (m : Mount) (ctx : WriteCtx) (c : Call) : Mount :=
  let v := (c.run ctx m.volume).2
  { m with
    volume := v
    frees := fun i =>
      m.frees i + if m.volume.inodeUsed i = true ∧ v.inodeUsed i = false then 1 else 0 }

/-- The event; a file is opened where a regular file is. -/
def Mount.step (m : Mount) : MountEvent → Mount
  | .call ctx c => m.after ctx c
  | .opens i =>
    if i < m.volume.fs.inodeCount ∧ (m.volume.fs.inode i).isReg then
      { m with files := m.files ++ [⟨i, (m.volume.fs.inode i).gen, m.frees i⟩] }
    else m
  | .update ctx k data offset trunc =>
    match m.files[k]? with
    | none => m
    | some f => m.after ctx (.update f.ino f.gen data offset trunc)

/-- The mount after the events, one after another. -/
def runMount (events : List MountEvent) (m : Mount) : Mount := events.foldl Mount.step m

/-! ## What a run keeps -/

/-- What is known of an open file. -/
structure OpenFile.Sound (f : OpenFile) (m : Mount) : Prop where
  lt : f.ino < m.volume.fs.inodeCount
  le : f.frees ≤ m.frees f.ino
  gen : (m.volume.fs.inode f.ino).gen = f.gen + UInt32.ofNat (m.frees f.ino - f.frees)
  alive : m.frees f.ino = f.frees → m.volume.inodeUsed f.ino = true ∧
    (m.volume.fs.inode f.ino).isReg

structure Mount.Sound (base : Multiset Nat) (m : Mount) : Prop where
  inOrder : InOrder base m.volume
  file : ∀ f ∈ m.files, f.Sound m

section
variable {base : Multiset Nat} {m : Mount} {v : Volume} {f : OpenFile}

/-- A call, whoever makes it, leaves the open files sound. -/
theorem Mount.Sound.after (h : m.Sound base) (ctx : WriteCtx) (c : Call) :
    (m.after ctx c).Sound base := by
  obtain ⟨ev, S, hstep⟩ := call_stepped c h.inOrder
  refine ⟨hstep.inOrder, fun f hf => ?_⟩
  have hsound := h.file f hf
  have hle := hsound.le
  have hgen := hstep.gen f.ino
  have hcount : (c.run ctx m.volume).2.fs.inodeCount = m.volume.fs.inodeCount := by
    rw [Fs.inodeCount, Fs.inodeCount, hstep.change.beside.img]
  rw [hsound.gen, UInt32.add_assoc, ← UInt32.ofNat_add] at hgen
  constructor
  · exact hcount ▸ hsound.lt
  · exact hle.trans (Nat.le_add_right _ _)
  · refine hgen.trans ?_
    congr 2
    exact (Nat.sub_add_comm hle).symm
  · intro heq
    change m.frees f.ino + (if _ then 1 else 0) = f.frees at heq
    obtain ⟨hused, hreg⟩ := hsound.alive (by omega)
    have hused' : (c.run ctx m.volume).2.inodeUsed f.ino = true := by
      by_contra hdead
      rw [if_pos ⟨hused, Bool.eq_false_iff.mpr hdead⟩] at heq
      omega
    exact ⟨hused', (hstep.kind_of_used hused hused').isReg.mpr hreg⟩

/-- The step lemma. -/
theorem Mount.Sound.step (h : m.Sound base) (e : MountEvent) : (m.step e).Sound base := by
  cases e with
  | call ctx c => exact h.after ctx c
  | opens i =>
    rw [Mount.step]
    split
    case isFalse => exact h
    case isTrue hopen =>
      refine ⟨h.inOrder, fun f hf => ?_⟩
      rcases List.mem_append.mp hf with hf | hf
      · obtain ⟨hlt, hle, hgen, halive⟩ := h.file f hf
        exact ⟨hlt, hle, hgen, halive⟩
      · obtain rfl := List.mem_singleton.mp hf
        refine ⟨hopen.1, le_rfl, ?_, fun _ => ⟨h.inOrder.used_of_isReg hopen.1 hopen.2, hopen.2⟩⟩
        change _ = _ + UInt32.ofNat (m.frees i - m.frees i)
        rw [Nat.sub_self]
        exact (UInt32.add_zero _).symm
  | update ctx k data offset trunc =>
    rw [Mount.step]
    split
    case h_1 => exact h
    case h_2 f _ => exact h.after ctx _

/-- The run lemma; the induction is on the events. -/
theorem runMount_sound (events : List MountEvent) (h : m.Sound base) :
    (runMount events m).Sound base := by
  induction events generalizing m with
  | nil => exact h
  | cons e events ih => exact ih (h.step e)

/-! ## Handles -/

/-- What a handle is good for. When its inode has been given back since it was taken, an update is
refused and changes nothing, whatever is at the inode now; otherwise its regular file is there still,
and an update changes that file only. -/
def Mount.Serves (m : Mount) (f : OpenFile) : Prop :=
  ∀ (ctx : WriteCtx) (data : List UInt8) (offset : Nat) (trunc : Bool),
    (f.frees < m.frees f.ino →
      openedFileUpdate ctx f.ino f.gen data offset trunc m.volume = (some .ESTALE, m.volume)) ∧
    (f.frees = m.frees f.ino →
      m.volume.inodeUsed f.ino = true ∧ (m.volume.fs.inode f.ino).isReg ∧
      ∀ st v', openedFileUpdate ctx f.ino f.gen data offset trunc m.volume = (st, v') →
        Change ∅ {f.ino} m.volume v')

theorem OpenFile.Sound.serves (h : f.Sound m) (hm : InOrder base m.volume)
    (hfew : m.frees f.ino < 2 ^ 32) : m.Serves f := by
  refine fun ctx data offset trunc => ⟨fun hgone => ?_, fun heq => ?_⟩
  · refine openedFileUpdate_stale hm h.lt fun hsame => ?_
    have hgen := h.gen
    have hzero : UInt32.ofNat (m.frees f.ino - f.frees) = 0 := by
      simpa [hsame] using hgen
    have hnat := congrArg UInt32.toNat hzero
    rw [UInt32.toNat_ofNat', Nat.mod_eq_of_lt (by omega), UInt32.toNat_zero] at hnat
    omega
  · obtain ⟨hused, hreg⟩ := h.alive heq.symm
    exact ⟨hused, hreg, fun st v' hrun => openedFileUpdate_change hm hrun⟩

/-- In every state of a run in which no inode was given back 2^32 times, every file that was opened
is served. -/
theorem runMount_handles (h : InOrder base v) (events : List MountEvent)
    (hfew : ∀ i, (runMount events (Mount.start v)).frees i < 2 ^ 32) :
    ∀ f ∈ (runMount events (Mount.start v)).files, (runMount events (Mount.start v)).Serves f := by
  intro f hf
  have hsound : (runMount events (Mount.start v)).Sound base :=
    runMount_sound events ⟨h, fun f hf => absurd hf List.not_mem_nil⟩
  exact (hsound.file f hf).serves hsound.inOrder (hfew f.ino)

end

/-- No inode is given back more often than there are events. -/
theorem runMount_frees_le (events : List MountEvent) {m : Mount} (i : Nat) :
    (runMount events m).frees i ≤ m.frees i + events.length := by
  induction events generalizing m with
  | nil => exact le_rfl
  | cons e events ih =>
    have hafter : ∀ ctx c, (m.after ctx c).frees i ≤ m.frees i + 1 := by
      intro ctx c
      rw [Mount.after]
      dsimp only
      split <;> omega
    have hstep : (m.step e).frees i ≤ m.frees i + 1 := by
      cases e with
      | call ctx c => exact hafter ctx c
      | opens j =>
        rw [Mount.step]
        split <;> exact Nat.le_succ _
      | update ctx k data offset trunc =>
        rw [Mount.step]
        split
        · exact Nat.le_succ _
        · exact hafter ctx _
    have hrest := ih (m := m.step e)
    rw [List.length_cons]
    change (runMount events (m.step e)).frees i ≤ _
    omega

/-- A file is opened and unlinked, its inode is given to another, and that is opened too. -/
def reuseEvents : List MountEvent :=
  [.opens 3, .call rootCtx (.unlink [0x2f, 0x66]), .call rootCtx (.createFile [0x2f, 0x67] [1]),
    .opens 3]

def reusedMount : Mount := runMount reuseEvents (Mount.start rootVolume)

/-- The first handle is refused, the second is not. -/
theorem runMount_handles_reused : reusedMount.files = [⟨3, 7, 0⟩, ⟨3, 8, 1⟩] ∧
    openedFileUpdate rootCtx 3 7 [9] 0 false reusedMount.volume = (some .ESTALE, reusedMount.volume) ∧
    (openedFileUpdate rootCtx 3 8 [9] 0 false reusedMount.volume).1 = none ∧
    ∀ st v', openedFileUpdate rootCtx 3 8 [9] 0 false reusedMount.volume = (st, v') →
      Change ∅ {3} reusedMount.volume v' := by
  have hfiles : reusedMount.files = [⟨3, 7, 0⟩, ⟨3, 8, 1⟩] := by decide +kernel
  have hfrees : reusedMount.frees 3 = 1 := by decide +kernel
  have hall : ∀ f ∈ reusedMount.files, reusedMount.Serves f :=
    runMount_handles rootVolume_inOrder reuseEvents fun i =>
      (runMount_frees_le reuseEvents i).trans_lt (show 0 + 4 < 2 ^ 32 by decide)
  have hfirst := hall ⟨3, 7, 0⟩ (by rw [hfiles]; simp) rootCtx [9] 0 false
  have hsecond := hall ⟨3, 8, 1⟩ (by rw [hfiles]; simp) rootCtx [9] 0 false
  dsimp only at hfirst hsecond
  rw [hfrees] at hfirst hsecond
  exact ⟨hfiles, hfirst.1 Nat.one_pos, by decide +kernel, (hsecond.2 rfl).2.2⟩

end NextUfs.Mutate
