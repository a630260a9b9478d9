/-
NextUfs.Mutate.TurnTheorems — one inode is made or cleared.

A call that succeeds makes at most one inode, or clears at most one
(`Event`); what else it does are changes to the files of inodes it looked up.
`Turn` says so and that the accounts of the volume are kept. An inode dies in
`clearInode` and is born in `allocateInode`, and the lemmas here follow it from
the one call to the other; `Mutate.OperationTheorems` puts each call's body
together from them.
-/
import NextUfs.Mutate.LedgerTheorems

namespace NextUfs.Mutate

open NextUfs.Core NextUfs.Lib NextUfs.Lib.ByteStore NextUfs.Lib.StateResult NextUfs.Lib.Extents

/-! ## Turns -/

/-- What becomes of inodes in a call. -/
inductive Event where
  | still
  | born (inode_no : Nat)
  | died (inode_no : Nat)
  deriving DecidableEq, Repr

/-- The inode an event is about. -/
def Event.about : Event → Set Nat
  | .still => ∅
  | .born i => {i}
  | .died i => {i}

/-- `dir` tells which inodes in use are directories. -/
def Typed (dir : Nat → Bool) (v : Volume) : Prop :=
  ∀ i < v.fs.inodeCount, v.inodeUsed i = true → dir i = isDirMode (v.fs.inode i).mode

/-- A step of a call: the accounts are kept, the event is the only one, and inodes outside `S` stay
as they are. The generation of an inode moves on when it dies, and then only. -/
structure Turn (base : Multiset Nat) (dir dir' : Nat → Bool) (ev : Event) (S : Set Nat)
    (v v' : Volume) : Prop where
  kept : Kept base dir' ev.about S v v'
  typed : Typed dir v → Typed dir' v'
  born : ∀ i, ev = .born i → i < v.fs.inodeCount ∧ v.inodeUsed i = false ∧
    v'.inodeUsed i = true ∧ (v'.fs.inode i).gen = (v.fs.inode i).gen
  died : ∀ i, ev = .died i → i < v.fs.inodeCount ∧ v.inodeUsed i = true ∧
    v'.inodeUsed i = false ∧ (v'.fs.inode i).gen = (v.fs.inode i).gen + 1

section
variable {base : Multiset Nat} {dir dir' : Nat → Bool} {v v₁ v' : Volume} {S S' : Set Nat}
  {ev : Event}

theorem Kept.typed {K : Set Nat} (h : Kept base dir K S v v') (ht : Typed dir v)
    (hK : ∀ i ∈ K, v'.inodeUsed i = true → dir i = isDirMode (v'.fs.inode i).mode) :
    Typed dir v' := by
  intro i hi hused
  rw [h.change.beside.inodeCount] at hi
  by_cases hmem : i ∈ K
  · exact hK i hmem hused
  · rw [h.change.used i hmem] at hused
    rw [ht i hi hused, (h.change.kind i hmem).isDirMode]

/-- A step without an event. -/
theorem Kept.turn (h : Kept base dir ∅ S v v') : Turn base dir dir .still S v v' :=
  ⟨h, fun ht => h.typed ht fun _ h => absurd h (Set.notMem_empty _), fun _ h => (nomatch h),
    fun _ h => (nomatch h)⟩

theorem Turn.ledger (h : Turn base dir dir' ev S v v') : Ledger base dir' v' := h.kept.ledger

theorem Turn.beside (h : Turn base dir dir' ev S v v') : Beside S v.fs v'.fs := h.kept.change.beside

/-- After a step without an event. -/
theorem Turn.after (h₁ : Kept base dir ∅ S v v₁) (h₂ : Turn base dir dir' ev S' v₁ v') :
    Turn base dir dir' ev (S ∪ S') v v' := by
  have hcount := h₁.change.beside.inodeCount
  have hno : ∀ i : Nat, i ∉ (∅ : Set Nat) := Set.notMem_empty
  refine ⟨(h₁.trans h₂.kept).mono (by rw [Set.empty_union]) subset_rfl, fun ht => h₂.typed
    (h₁.turn.typed ht), fun i hi => ?_, fun i hi => ?_⟩
  · obtain ⟨hlt, hb, ha, hg⟩ := h₂.born i hi
    exact ⟨by rwa [← hcount], (h₁.change.used i (hno i)).symm.trans hb, ha,
      hg.trans (h₁.change.kind i (hno i)).gen⟩
  · obtain ⟨hlt, hb, ha, hg⟩ := h₂.died i hi
    exact ⟨by rwa [← hcount], (h₁.change.used i (hno i)).symm.trans hb, ha, by
      rw [hg, (h₁.change.kind i (hno i)).gen]⟩

/-- Before a step without an event. -/
theorem Turn.before (h₁ : Turn base dir dir' ev S v v₁) (h₂ : Kept base dir' ∅ S' v₁ v') :
    Turn base dir dir' ev (S ∪ S') v v' := by
  have hno : ∀ i : Nat, i ∉ (∅ : Set Nat) := Set.notMem_empty
  refine ⟨(h₁.kept.trans h₂).mono (by rw [Set.union_empty]) subset_rfl, fun ht => h₂.turn.typed
    (h₁.typed ht), fun i hi => ?_, fun i hi => ?_⟩
  · obtain ⟨hlt, hb, ha, hg⟩ := h₁.born i hi
    exact ⟨hlt, hb, (h₂.change.used i (hno i)).trans ha, (h₂.change.kind i (hno i)).gen.trans hg⟩
  · obtain ⟨hlt, hb, ha, hg⟩ := h₁.died i hi
    exact ⟨hlt, hb, (h₂.change.used i (hno i)).trans ha, (h₂.change.kind i (hno i)).gen.trans hg⟩

theorem Turn.mono (h : Turn base dir dir' ev S v v') (hS : S ⊆ S') :
    Turn base dir dir' ev S' v v' :=
  ⟨h.kept.mono subset_rfl hS, h.typed, h.born, h.died⟩

end

/-! ## An inode dies -/

theorem not_hasBlocks_of_type {ino : Inode} (h : ino.mode &&& NEXTUFS_IFMT = 0) : ¬ HasBlocks ino := by
  unfold NEXTUFS_IFMT at h
  rintro (hr | hd | hl)
  · rw [Inode.isReg, h] at hr
    exact absurd hr (by decide)
  · rw [Inode.isDir, h] at hd
    exact absurd hd (by decide)
  · rw [Inode.isLnk, h] at hl
    exact absurd hl.1 (by decide)

theorem blankInode_type (gen : UInt32) : (blankInode gen).mode &&& NEXTUFS_IFMT = 0 :=
  UInt16.zero_and

section
variable {base : Multiset Nat} {dir : Nat → Bool} {v v' : Volume} {no : Nat} {ino : Inode}

/-- An inode whose storage was given back is cleared and given back. -/
theorem clearInode_turn {fs₁ : Fs} {u : PUnit} (h : Ledger base dir v) (ht : Typed dir v)
    (hlt : no < v.fs.inodeCount) (hfreed : Freed v.fs (share v.fs no) fs₁)
    (hw : Fs.inodeWords fs₁ = Fs.inodeWords v.fs)
    (hmode : isDirMode ino.mode = isDirMode (v.fs.inode no).mode)
    (hgen : ino.gen = (v.fs.inode no).gen)
    (hok : clearInode no ino { v with fs := fs₁ } = .ok u v') :
    Turn base dir dir (.died no) {no} v v' := by
  simp only [clearInode, bind_ok] at hok
  obtain ⟨_, v₂, honFs, hbit⟩ := hok
  obtain ⟨fs₂, hwrite, rfl⟩ := onFs_ok.mp honFs
  obtain rfl := writeInodeRaw_ok hwrite
  have hp : Pointerless (blankInode (ino.gen + 1)) := ⟨rfl, fun _ _ => rfl, fun _ _ => rfl⟩
  have hchanges := changes_clear h.accounts hfreed hp (not_hasBlocks_of_type (blankInode_type _))
  obtain ⟨hacc, hbeside⟩ := h.accounts.change hchanges
  have himg := hfreed.keeps.img
  have hself : (Function.update fs₁.inode no (blankInode (ino.gen + 1))) no =
      blankInode (ino.gen + 1) := Function.update_self ..
  have hother : ∀ j, j ≠ no → (Function.update fs₁.inode no (blankInode (ino.gen + 1))) j =
      v.fs.inode j := hchanges.table
  have hledger : Ledger base dir { v with fs := { fs₁ with
      inode := Function.update fs₁.inode no (blankInode (ino.gen + 1)) } } := by
    refine ⟨hacc, InodesAgree.of_words h.agree hacc.sound himg hw, fun j hj hbit => ?_⟩
    dsimp only
    by_cases hjn : j = no
    · rw [hjn, hself]
      exact blankInode_type _
    · rw [hother j hjn]
      exact h.blank j (by rwa [← hchanges.inodeCount])
        ((inodeUsed_onFs himg j).symm.trans hbit)
  -- the bit is set, so the inode is in use and `dir` tells its type
  have hused : v.inodeUsed no = true :=
    (inodeUsed_onFs himg no).symm.trans (freeInodeInGroup_ok hacc.sound.geometry hbit).bits.1
  have hmoved := freeInodeInGroup_ledger hledger (hchanges.inodeCount.symm ▸ hlt)
    (by dsimp only; rw [hself]; exact blankInode_type _) ((ht no hlt hused).trans hmode.symm) hbit
  have hchange : Change {no} {no} v { v with fs := { fs₁ with
      inode := Function.update fs₁.inode no (blankInode (ino.gen + 1)) } } := by
    refine ⟨fun j _ => inodeUsed_onFs himg j, fun j hj => ?_, hbeside⟩
    dsimp only
    rw [hother j hj]
    exact SameKind.refl _
  have hkept : Kept base dir {no} {no} v v' :=
    ⟨hmoved.kept.ledger, (hchange.trans hmoved.kept.change).mono (by rw [Set.union_self])
      (by rw [Set.union_empty])⟩
  refine ⟨hkept, fun ht => hkept.typed ht fun i hi hbit' => ?_, fun i hi => (nomatch hi),
    fun i hi => ?_⟩
  · rw [Set.mem_singleton_iff.mp hi, hmoved.after] at hbit'
    cases hbit'
  · cases hi
    refine ⟨hlt, hused, hmoved.after, ?_⟩
    rw [hmoved.table]
    dsimp only
    rw [hself, ← hgen]
    rfl

end

/-! ## An inode is born -/

/-- A new inode before it is written: what it owns was taken since the inode was, and nothing else
was. -/
structure Newborn (fs : Fs) (ino : Inode) (fs' : Fs) : Prop where
  sound : fs'.Sound
  keeps : fs.Keeps fs'
  words : Fs.inodeWords fs' = Fs.inodeWords fs
  frame : SameOn fs.img.sb.fragSize fs.used fs.bytes fs'.bytes
  file : HasBlocks ino → FileWf fs' ino fs.used
  idle : ¬ HasBlocks ino → Idle ino ∧ fs'.used = fs.used

section
variable {base base' : Multiset Nat} {dir : Nat → Bool} {v v₁ v' : Volume} {no : Nat} {ino : Inode}
  {fs fs' : Fs} {mode : UInt16}

/-- The new inode owns what was taken. -/
theorem Newborn.used (h : Newborn fs ino fs') : ∃ m, fs'.used = m + fs.used := by
  by_cases hb : HasBlocks ino
  · exact ⟨_, (h.file hb).1.owned.symm⟩
  · exact ⟨0, by rw [zero_add, (h.idle hb).2]⟩

/-- What no file of the table owns does not count for the others. -/
theorem Changes.rest_eq_of_outside (h : Changes fs fs.inodeCount base' fs') (ha : Accounts base fs)
    (i : Nat) : rest fs' i = rest fs i := by
  unfold rest
  rw [h.inodeCount]
  exact Finset.sum_congr rfl fun j hj => h.share_eq ha
    (Nat.ne_of_lt (Finset.mem_range.mp (Finset.mem_of_mem_erase hj)))

/-- The inode that was taken is written. -/
theorem born_turn {u : PUnit} (hledger : Ledger base dir v)
    (hb : BitMoved base (Function.update dir no (isDirMode mode)) v no true v₁)
    (hn : Newborn v₁.fs ino fs') (hmode : isDirMode ino.mode = isDirMode mode)
    (hgen : ino.gen = (v₁.fs.inode no).gen)
    (hok : onFs (writeInodeRaw no ino) { v₁ with fs := fs' } = .ok u v') :
    Turn base dir (Function.update dir no (isDirMode mode)) (.born no) {no} v v' := by
  obtain ⟨fs₂, hwrite, rfl⟩ := onFs_ok.mp hok
  obtain rfl := writeInodeRaw_ok hwrite
  have h₁ := hb.kept.ledger
  have hcount : v₁.fs.inodeCount = v.fs.inodeCount := hb.kept.change.beside.inodeCount
  have hblank : ¬ HasBlocks (v₁.fs.inode no) := by
    rw [hb.table]
    exact not_hasBlocks_of_type (hledger.blank no hb.lt hb.before)
  -- the storage is taken, then the inode owns it
  obtain ⟨m, hused⟩ := hn.used
  have htake := changes_take h₁.accounts hn.sound hn.keeps hn.frame hused
  obtain ⟨hacc, hbeside⟩ := h₁.accounts.take hn.sound hn.keeps hn.frame hused
  have hrest : v₁.fs.used = base + rest fs' no := by
    rw [htake.rest_eq_of_outside h₁.accounts, h₁.accounts.used_of_idle hblank]
  have hlt : no < fs'.inodeCount := by
    rw [hbeside.inodeCount, hcount]
    exact hb.lt
  have hwritten := changes_write hn.sound (fun hbl => hrest ▸ hn.file hbl)
    (fun hbl => ⟨(hn.idle hbl).1, (hn.idle hbl).2.trans hrest⟩) hlt
  obtain ⟨hacc', hbeside'⟩ := hacc.change hwritten
  have hself : Function.update fs'.inode no ino no = ino := Function.update_self ..
  have hother : ∀ j, j ≠ no → Function.update fs'.inode no ino j = v₁.fs.inode j := fun j hj => by
    rw [Function.update_of_ne hj, hn.keeps.inode]
  have hbits : ∀ j, Volume.inodeUsed { v₁ with fs := { fs' with
      inode := Function.update fs'.inode no ino } } j = v₁.inodeUsed j :=
    fun j => inodeUsed_onFs hn.keeps.img j
  have hagree : Volume.InodesAgree { v₁ with fs := { fs' with
      inode := Function.update fs'.inode no ino } } (Function.update dir no (isDirMode mode)) :=
    InodesAgree.of_words h₁.agree hacc'.sound hn.keeps.img hn.words
  refine ⟨⟨⟨hacc', hagree, fun j hj hbit => ?_⟩, ?_⟩, fun ht j hj hbit => ?_, fun j hj => ?_,
    fun j hj => (nomatch hj)⟩
  · have hjn : j ≠ no := by
      rintro rfl
      rw [hbits, hb.after] at hbit
      cases hbit
    dsimp only
    rw [hother j hjn]
    exact h₁.blank j (by rwa [hwritten.inodeCount, hbeside.inodeCount] at hj)
      ((hbits j).symm.trans hbit)
  · have hchange : Change {no} {no} v₁ { v₁ with fs := { fs' with
        inode := Function.update fs'.inode no ino } } := by
      refine ⟨fun j _ => hbits j, fun j hj => ?_, (hbeside.trans hbeside').mono
        (by rw [Set.empty_union])⟩
      dsimp only
      rw [hother j hj]
      exact SameKind.refl _
    exact (hb.kept.change.trans hchange).mono (Set.union_self _).le (Set.empty_union _).le
  · dsimp only at hj ⊢
    rw [hbits] at hbit
    by_cases hjn : j = no
    · rw [hjn, hself, Function.update_self, hmode]
    · rw [Function.update_of_ne hjn, hother j hjn, hb.table]
      rw [hb.kept.change.used j hjn] at hbit
      exact ht j (by rwa [hwritten.inodeCount, hbeside.inodeCount, hcount] at hj) hbit
  · cases hj
    refine ⟨hb.lt, hb.before, (hbits no).trans hb.after, ?_⟩
    dsimp only
    rw [hself, hgen, hb.table]

end

/-! ## Removing an inode -/

section
variable {base : Multiset Nat} {dir : Nat → Bool} {v v' : Volume} {parent parent' target : Node}

/-- Devices, pipes and sockets have no blocks. -/
theorem not_hasBlocks_of_holdsNoBlocks {ino : Inode} (h : holdsNoBlocks ino.mode = true) :
    ¬ HasBlocks ino := by
  rw [holdsNoBlocks, decide_eq_true_iff] at h
  unfold HasBlocks Inode.isReg Inode.isDir Inode.isLnk
  unfold NEXTUFS_IFMT at h
  generalize ino.mode &&& 0o170000 = type at h ⊢
  rintro (rfl | rfl | ⟨rfl, -⟩) <;> exact absurd h (by decide)

/-- `nextufs__remove_linked_inode`: the inode dies with its last link. -/
theorem removeLinkedInode_turn {u : PUnit} (h : Ledger base dir v) (ht : Typed dir v)
    (hheld : Held v.fs target) (hok : removeLinkedInode target v = .ok u v') :
    Turn base dir dir (if target.inode.nlink - 1 = 0 then .died target.inodeNo else .still)
      {target.inodeNo} v v' := by
  have hk : SameKind (v.fs.inode target.inodeNo)
      { target.inode with nlink := target.inode.nlink - 1 } := by
    rw [hheld.inode]
    exact ⟨rfl, rfl, rfl⟩
  have hs : SameStorage (v.fs.inode target.inodeNo)
      { target.inode with nlink := target.inode.nlink - 1 } := by
    rw [hheld.inode]
    exact ⟨rfl, rfl, rfl, rfl⟩
  simp only [removeLinkedInode, bind_ok, check_ok] at hok
  obtain ⟨_, _, ⟨-, rfl⟩, hok⟩ := hok
  split at hok
  case isTrue hzero =>
    rw [if_pos hzero]
    split at hok
    case isTrue hno =>
      obtain ⟨ino, v₁, hfree, hclear⟩ := bind_ok.mp hok
      obtain ⟨rfl, rfl⟩ := pure_ok.mp hfree
      have hshare : share v.fs target.inodeNo = 0 :=
        if_neg fun hb => not_hasBlocks_of_holdsNoBlocks hno (hk.hasBlocks.mpr hb.2)
      exact clearInode_turn h ht hheld.lt (hshare ▸ Freed.refl h.accounts.sound) rfl hk.isDirMode
        hk.gen hclear
    case isFalse hno =>
      obtain ⟨ino, v₁, hfree, hclear⟩ := bind_ok.mp hok
      obtain ⟨fs₁, hstorage, rfl⟩ := onFs_ok.mp hfree
      obtain ⟨hfreed, hgen, hmode⟩ := freeFileStorage_share h.accounts hheld.lt hk hs
        (Bool.eq_false_iff.mpr hno) hstorage
      exact clearInode_turn h ht hheld.lt hfreed
        ((steady_freeFileStorage inert_inodeWords _).ok hstorage) (hmode ▸ hk.isDirMode)
        (hgen.trans hk.gen) hclear
  case isFalse hzero =>
    rw [if_neg hzero]
    exact (writeInode_kept h hheld.lt hk hs hok).1.turn

/-- `nextufs__remove_dir_inode`, for a directory other than its parent. -/
theorem removeDirInode_turn (h : Ledger base dir v) (ht : Typed dir v)
    (hparent : Held v.fs parent) (hheld : Held v.fs target) (hdir : target.inode.isDir)
    (hne : parent.inodeNo ≠ target.inodeNo) (hok : removeDirInode parent target v = .ok parent' v') :
    Turn base dir dir (.died target.inodeNo) {target.inodeNo, parent.inodeNo} v v' ∧
      Held v'.fs parent' ∧ parent'.inodeNo = parent.inodeNo ∧
      SameKind parent.inode parent'.inode := by
  simp only [removeDirInode, bind_ok, pure_ok] at hok
  obtain ⟨ino, v₁, hfree, _, v₂, hclear, _, v₃, hwrite, rfl, rfl⟩ := hok
  obtain ⟨fs₁, hstorage, rfl⟩ := onFs_ok.mp hfree
  have hno : holdsNoBlocks target.inode.mode = false := by
    refine Bool.eq_false_iff.mpr fun hno => not_hasBlocks_of_holdsNoBlocks hno (.inr (.inl hdir))
  obtain ⟨hfreed, hgen, hmode⟩ := freeFileStorage_share h.accounts hheld.lt
    (hheld.inode ▸ SameKind.refl _) (hheld.inode ▸ ⟨rfl, rfl, rfl, rfl⟩) hno hstorage
  have hdied := clearInode_turn h ht hheld.lt hfreed
    ((steady_freeFileStorage inert_inodeWords _).ok hstorage) (by rw [hmode, hheld.inode])
    (by rw [hgen, hheld.inode]) hclear
  have hheld' := hparent.of_beside hdied.beside fun hmem => hne (Set.mem_singleton_iff.mp hmem)
  obtain ⟨hkept, htable⟩ := writeInode_kept hdied.ledger hheld'.lt
    (hheld'.inode ▸ ⟨rfl, rfl, rfl⟩) (hheld'.inode ▸ ⟨rfl, rfl, rfl, rfl⟩) hwrite
  refine ⟨(hdied.before hkept).mono (by rw [Set.singleton_union]), ⟨?_, ?_⟩, rfl, rfl, rfl, rfl⟩
  · rw [htable]
    exact Function.update_self ..
  · rw [hkept.change.beside.inodeCount]
    exact hheld'.lt

end

end NextUfs.Mutate
