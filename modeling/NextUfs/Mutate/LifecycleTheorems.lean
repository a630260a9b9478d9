/-
NextUfs.Mutate.LifecycleTheorems — when the state byte says clean, what does
it promise?

A mutation is honest (`Honest`) when a clean byte on disk means the rest of
the image is what it was before or everything the mutation writes, and when a
recovery that reports `EUCLEAN` leaves the byte not clean. Inside a session
the byte is never clean, so every mutation is honest there
(`mutateInSession_honest`).

A one-shot mutation writes the clean byte before it knows that it is durable,
and withdraws it with a write whose result is ignored. `MarkStranded` is the
pattern of failures in which that write fails too and the recovery after it
does not complete. `FailureKept` is the pattern in which a mutation goes on
after one of its own writes has failed, as growing a file does when the
backend answers `ENOSPC` for a group it was about to give up on.
`mutateOneShot_honest_iff` says that the mutation is honest exactly when
neither occurs.
-/
import NextUfs.Core.TransactionTheorems
import NextUfs.Mutate.Lifecycle
import Mathlib.Logic.Function.Basic

namespace NextUfs.Mutate

open NextUfs.Core NextUfs.Lib NextUfs.Lib.ByteStore

/-- Equal everywhere but at `off`. -/
def SameRest (off : Nat) (a b : ByteStore) : Prop := ∀ p, p ≠ off → a p = b p

theorem SameRest.trans {off : Nat} {a b c : ByteStore} (h₁ : SameRest off a b)
    (h₂ : SameRest off b c) : SameRest off a c := fun p hp => (h₁ p hp).trans (h₂ p hp)

theorem sameRest_update (off : Nat) (d : ByteStore) (x : UInt8) :
    SameRest off (Function.update d off x) d := fun p hp => by simp [hp]

/-! ## Writing the state byte -/

/-- The image with the state byte replaced. -/
def Writer.setState (img : Writer) (x : UInt8) : Writer :=
  { img with handle := { img.handle with bytes := Function.update img.handle.bytes img.stateOff x } }

/-- The state byte can be written at all. -/
def Writer.Markable (img : Writer) : Prop :=
  img.handle.writable = true ∧ img.stateOff < img.handle.imageSize

@[simp] theorem Writer.stateOff_setState (img : Writer) (x : UInt8) :
    (img.setState x).stateOff = img.stateOff := rfl

@[simp] theorem Writer.diskState_setState (img : Writer) (x : UInt8) :
    (img.setState x).diskState = x := by simp [Writer.diskState, Writer.setState, Writer.stateOff]

theorem patch_one (d : ByteStore) (off : Nat) (v : UInt8) :
    patch d off 1 (ofList [v]) = Function.update d off v := by
  funext p
  by_cases h : p = off
  · subst h
    rw [patch_of_mem le_rfl (by omega)]
    simp [ofList]
  · rw [patch_of_not_mem (by omega)]
    simp [h]

/-- The only effect of `writeState` without a transaction is on the state byte. -/
theorem writeState_eq {img : Writer} (htx : img.handle.transaction = none) (hm : img.Markable)
    (v : UInt8) (fault : Option (Nat × Errno)) :
    writeState img v fault =
      match fault with
      | none => (none, img.setState v)
      | some (n, e) => (some e, if n = 0 then img else img.setState v) := by
  obtain ⟨⟨d, size, hlt, w, tx⟩, base, st, rc, act⟩ := img
  obtain ⟨hw, hoff⟩ := hm
  dsimp only at htx hw
  subst htx hw
  have hrange : rangeOk ⟨d, size, hlt, true, none⟩ 1
      (Writer.stateOff ⟨⟨d, size, hlt, true, none⟩, base, st, rc, act⟩) = true := by
    simp only [rangeOk, Bool.and_eq_true, decide_eq_true_eq]
    dsimp only at hoff
    omega
  rcases fault with _ | ⟨n, e⟩
  · simp [writeState, writeExact, transactionRecord, hrange, patch_one, Writer.setState]
  · rcases n with _ | n
    · simp [writeState, writeExact, transactionRecord, hrange]
    · simp [writeState, writeExact, transactionRecord, hrange, patch_one, Writer.setState]

theorem writeState_of_not_markable {img : Writer} (hm : ¬ img.Markable) (v : UInt8)
    (fault : Option (Nat × Errno)) : ∃ e, writeState img v fault = (some e, img) := by
  unfold writeState writeExact
  by_cases hw : img.handle.writable = true
  · have hrange : rangeOk img.handle 1 img.stateOff = false := by
      simp only [Writer.Markable, hw, true_and] at hm
      simp only [rangeOk, Bool.and_eq_false_iff, decide_eq_false_iff_not]
      omega
    exact ⟨.EINVAL, by simp [hw, hrange]⟩
  · exact ⟨.EROFS, by simp [hw]⟩

theorem publishState_eq {img : Writer} (htx : img.handle.transaction = none) (hm : img.Markable)
    (v : UInt8) (mark : Option (Nat × Errno)) (sync : Status) :
    publishState img v mark sync =
      match mark with
      | none => (sync, img.setState v)
      | some (n, e) => (some e, if n = 0 then img else img.setState v) := by
  have hwr : (img.setState v).handle.writable = true := hm.1
  rw [publishState, writeState_eq htx hm]
  rcases mark with _ | ⟨n, e⟩
  · simp [imageFsync, hwr]
  · rfl

/-- `img'` is `img` up to the state byte and the flags. -/
structure OnlyState (img img' : Writer) : Prop where
  rest : SameRest img.stateOff img'.handle.bytes img.handle.bytes
  off : img'.stateOff = img.stateOff
  tx : img'.handle.transaction = img.handle.transaction

theorem OnlyState.refl (img : Writer) : OnlyState img img := ⟨fun _ _ => rfl, rfl, rfl⟩

theorem OnlyState.trans {a b c : Writer} (h₁ : OnlyState a b) (h₂ : OnlyState b c) :
    OnlyState a c :=
  ⟨(h₁.off ▸ h₂.rest).trans h₁.rest, h₂.off.trans h₁.off, h₂.tx.trans h₁.tx⟩

theorem onlyState_setState (img : Writer) (x : UInt8) : OnlyState img (img.setState x) :=
  ⟨sameRest_update _ _ _, rfl, rfl⟩

/-- Whatever happens to it, a state write touches only the state byte. -/
theorem onlyState_writeState {img : Writer} (htx : img.handle.transaction = none) (v : UInt8)
    (fault : Option (Nat × Errno)) : OnlyState img (writeState img v fault).2 := by
  by_cases hm : img.Markable
  · rw [writeState_eq htx hm]
    rcases fault with _ | ⟨n, e⟩
    · exact onlyState_setState img v
    · dsimp only
      split
      · exact OnlyState.refl img
      · exact onlyState_setState img v
  · obtain ⟨e, he⟩ := writeState_of_not_markable hm v fault
    rw [he]
    exact OnlyState.refl img

theorem onlyState_publishState {img : Writer} (htx : img.handle.transaction = none) (v : UInt8)
    (mark : Option (Nat × Errno)) (sync : Status) :
    OnlyState img (publishState img v mark sync).2 := by
  have h := onlyState_writeState htx v mark
  unfold publishState
  split <;> simpa [*] using h

/-! ## Begin and finish -/

theorem dirtyState_ne_clean (s : UInt8) : dirtyState s ≠ FS_STATE_CLEAN := by
  unfold dirtyState
  split <;> decide

/-- The image after a successful `nextufs__write_begin`. -/
def Writer.opened (img : Writer) : Writer :=
  { img.setState (dirtyState img.sbState) with
    sbState := dirtyState img.sbState, restoreClean := img.sbState == FS_STATE_CLEAN,
    fsWriteActive := true }

/-- `nextufs__write_begin` marks the image dirty, or fails with only the state byte touched. -/
theorem writeBegin_cases {img : Writer} (htx : img.handle.transaction = none) (f : BeginFaults) :
    (img.Markable ∧ f.mark = none ∧ f.sync = none ∧ writeBegin img f = (none, img.opened)) ∨
    (¬ (img.Markable ∧ f.mark = none ∧ f.sync = none) ∧
      ∃ e w, writeBegin img f = (some e, w) ∧ OnlyState img w) := by
  let img₀ : Writer := { img with restoreClean := img.sbState == FS_STATE_CLEAN }
  have h₀ : OnlyState img img₀ := ⟨fun _ _ => rfl, rfl, rfl⟩
  have hpub := @onlyState_publishState img₀ htx (dirtyState img.sbState) f.mark f.sync
  have hfail : ∀ e w, publishState img₀ (dirtyState img.sbState) f.mark f.sync = (some e, w) →
      ∃ e w, writeBegin img f = (some e, w) ∧ OnlyState img w := by
    intro e w hw
    rw [hw] at hpub
    refine ⟨e, (writeState w img.sbState f.restore).2, ?_, ?_⟩
    · simp only [writeBegin]
      rw [show publishState _ _ f.mark f.sync = _ from hw]
    · exact (h₀.trans hpub).trans (onlyState_writeState (hpub.tx.trans htx) _ _)
  by_cases hm : img.Markable
  case neg =>
    obtain ⟨e, he⟩ := @writeState_of_not_markable img₀ hm (dirtyState img.sbState) f.mark
    exact .inr ⟨fun h => hm h.1, hfail e img₀ (by rw [publishState, he])⟩
  have heq := @publishState_eq img₀ htx hm (dirtyState img.sbState) f.mark f.sync
  rcases hmark : f.mark with _ | ⟨n, e⟩
  · rcases hsync : f.sync with _ | e
    · refine .inl ⟨hm, rfl, rfl, ?_⟩
      rw [hmark, hsync] at heq
      simp only [writeBegin, hmark, hsync]
      rw [show publishState _ _ none none = _ from heq]
      rfl
    · exact .inr ⟨by simp, hfail e _ (by rw [heq, hmark, hsync])⟩
  · exact .inr ⟨by simp, hfail e _ (by rw [heq, hmark])⟩

/-- `nextufs__write_finish` touches nothing but the state byte. -/
theorem onlyState_writeFinish {img : Writer} (htx : img.handle.transaction = none) (safe : Bool)
    (f : FinishFaults) : OnlyState img (writeFinish img safe f).2 := by
  have h₁ := onlyState_publishState htx FS_STATE_CLEAN f.mark f.markSync
  unfold writeFinish
  split
  · exact OnlyState.refl img
  split
  · exact OnlyState.refl img
  split
  · rename_i hw
    rw [hw] at h₁
    exact ⟨h₁.rest, h₁.off, h₁.tx⟩
  · rename_i hw
    rw [hw] at h₁
    exact h₁.trans (onlyState_writeState (h₁.tx.trans htx) _ _)

/-- The error of a commit that published the clean byte and did not make it durable. -/
def strandError (f : FinishFaults) : Status :=
  match f.mark with
  | some (n, e) => if n = 0 then none else some e
  | none => f.markSync

/-- The state byte once a failed commit has tried to withdraw the clean mark. -/
def withdrawn (f : FinishFaults) : UInt8 :=
  match strandError f, f.withdraw with
  | some _, some (0, _) => FS_STATE_CLEAN
  | _, _ => FS_STATE_DIRTY

theorem Writer.setState_self {img : Writer} {x : UInt8} (h : img.diskState = x) :
    img.setState x = img := by
  have : Function.update img.handle.bytes img.stateOff x = img.handle.bytes := by
    rw [← h]
    exact Function.update_eq_self _ _
  simp [Writer.setState, this]

@[simp] theorem Writer.setState_setState (img : Writer) (x y : UInt8) :
    (img.setState x).setState y = img.setState y := by
  simp [Writer.setState, Writer.stateOff]

/-- The image after the write that withdraws a clean mark. -/
def Writer.afterWithdraw (img : Writer) : Option (Nat × Errno) → Writer
  | some (0, _) => img
  | _ => img.setState FS_STATE_DIRTY

/-- The commit of a one-shot mutation on a dirty, initially clean image: it ends clean, or
fails with the byte `withdrawn` tells. -/
theorem writeFinish_commit {img : Writer} (htx : img.handle.transaction = none)
    (hm : img.Markable) (hr : img.restoreClean = true) (hd : img.diskState = FS_STATE_DIRTY)
    (f : FinishFaults) (hs : f.sync = none) :
    (f.mark = none ∧ f.markSync = none ∧
      writeFinish img true f = (none, { img.setState FS_STATE_CLEAN with
        sbState := FS_STATE_CLEAN, restoreClean := false })) ∨
    (∃ e, writeFinish img true f = (some e, img.setState (withdrawn f)) ∧
      (f.mark ≠ none ∨ f.markSync ≠ none) ∧
      (withdrawn f = FS_STATE_CLEAN → strandError f = some e)) := by
  have hself := Writer.setState_self hd
  have hback : ∀ w, OnlyState img w → w.Markable →
      (writeState w FS_STATE_DIRTY f.withdraw).2 = w.afterWithdraw f.withdraw := by
    intro w hw hmw
    rw [writeState_eq (hw.tx.trans htx) hmw]
    rcases f.withdraw with _ | ⟨_ | n, e⟩ <;> rfl
  have hclean := hback (img.setState FS_STATE_CLEAN) (onlyState_setState _ _) hm
  have hdirty := hback img (OnlyState.refl _) hm
  have hpub := publishState_eq htx hm FS_STATE_CLEAN f.mark f.markSync
  have hok : ∀ w, publishState img FS_STATE_CLEAN f.mark f.markSync = (none, w) →
      writeFinish img true f =
        (none, { w with sbState := FS_STATE_CLEAN, restoreClean := false }) := by
    intro w hw
    simp [writeFinish, hr, imageFsync, hs, hw]
  have herr : ∀ e w, publishState img FS_STATE_CLEAN f.mark f.markSync = (some e, w) →
      writeFinish img true f = (some e, (writeState w FS_STATE_DIRTY f.withdraw).2) := by
    intro e w hw
    simp [writeFinish, hr, imageFsync, hs, hw]
  rcases hmark : f.mark with _ | ⟨n, e⟩
  · rcases hms : f.markSync with _ | e
    · rw [hmark, hms] at hpub hok
      exact .inl ⟨rfl, rfl, hok _ hpub⟩
    · rw [hmark, hms] at hpub herr
      refine .inr ⟨e, ?_, by simp, fun _ => by simp [strandError, hmark, hms]⟩
      rw [herr _ _ hpub, hclean]
      rcases hw : f.withdraw with _ | ⟨_ | m, e'⟩ <;>
        simp [withdrawn, strandError, hmark, hms, hw, Writer.afterWithdraw]
  · rw [hmark] at hpub herr
    rcases n with _ | n
    · have hwd : withdrawn f = FS_STATE_DIRTY := by simp [withdrawn, strandError, hmark]
      refine .inr ⟨e, ?_, by simp, fun h => absurd (hwd.symm.trans h) (by decide)⟩
      rw [herr _ _ hpub, if_pos rfl, hdirty, hwd, hself]
      rcases f.withdraw with _ | ⟨_ | m, e'⟩ <;> simp [Writer.afterWithdraw, hself]
    · refine .inr ⟨e, ?_, by simp, fun _ => by simp [strandError, hmark]⟩
      rw [herr _ _ hpub, if_neg (by omega), hclean]
      rcases hw : f.withdraw with _ | ⟨_ | m, e'⟩ <;>
        simp [withdrawn, strandError, hmark, hw, Writer.afterWithdraw]

/-! ## Recovery -/

/-- Rolling back a recorded transaction after the state byte was set to `x`: the rest is
restored unless `EUCLEAN` is reported, and the byte stays `x` unless an undo write reaches it. -/
theorem transactionEnd_after_mark {d : ByteStore} {recs : List UndoRec} {h : Handle}
    (hr : Recorded d recs h) {off : Nat} {s : UInt8} (hk : HoldsAt off s recs) (x : UInt8)
    (e : Errno) (faults : Nat → Option UndoFault) (fsyncFails : Bool) :
    let t := transactionEnd { h with bytes := Function.update h.bytes off x } (some e) faults
      fsyncFails
    t.2.transaction = none ∧
    (t.1 ≠ some .EUCLEAN → SameRest off t.2.bytes d) ∧
    t.2.bytes off = (if undoReaches faults off (recs.map UndoRec.extent) 0 then s else x) ∧
    (t.1 = some .EUCLEAN ↔
      e = .EUCLEAN ∨ fsyncFails = true ∨ ∃ j < recs.length, (faults j).isSome) := by
  have hr' : Recorded (undoAll recs (Function.update h.bytes off x)) recs
      { h with bytes := Function.update h.bytes off x } := ⟨hr.1, hr.2.1, rfl⟩
  intro t
  have ht : t = _ := hr'.transactionEnd_eq e faults fsyncFails
  refine ⟨by rw [ht], fun hne p hp => ?_, ?_, ?_⟩
  · rw [hr'.transactionEnd_bytes e faults fsyncFails hne, undoAll_update _ _ _ _ p hp, hr.2.2]
  · rw [ht]
    dsimp only
    rw [undoRecs_byte faults recs 0 _ hk]
    simp
  · have hfail := undoRecs_failed_iff faults recs 0 (Function.update h.bytes off x)
    simp only [Nat.zero_add] at hfail
    rw [ht, ← hfail]
    dsimp only
    by_cases hu : (undoRecs faults recs 0 (Function.update h.bytes off x)).1 = true ∨
        fsyncFails = true
    · rw [if_pos hu]
      tauto
    · rw [if_neg hu]
      simp only [Option.some.injEq]
      tauto

/-! ## Honest mutations -/

/-- The handle when the mutation's own writes are done. -/
def Body.run (b : Body) (h : Handle) : Handle := runWrites (transactionBegin h) b.calls

/-- The content the mutation had produced when it ended. -/
def Body.post (b : Body) (h : Handle) : ByteStore := (b.run h).bytes

/-- The records in the undo log when the mutation's own writes are done. -/
def Body.records (b : Body) (h : Handle) : List UndoRec := recsAfterAll (transactionBegin h) b.calls []

/-- The mutation reports 0 and every one of its writes succeeded. -/
def Body.Completes (b : Body) (h : Handle) : Prop :=
  b.rc = none ∧ AllSucceed (transactionBegin h) b.calls

/-- What is asked of a mutation's own writes: no append to the undo log completes behind the
remains of a broken one, and the state byte is only ever rewritten with the value `s` it has on
disk. -/
structure Body.WellBehaved (b : Body) (h : Handle) (off : Nat) (s : UInt8) : Prop where
  aligned : AppendsAligned (transactionBegin h) b.calls
  keeps : ∀ c ∈ b.calls, c.Keeps off s

/-- A clean byte means all or nothing, and a failed recovery leaves no clean byte. `post` is the
complete content after the mutation if `done`. -/
structure Honest (off : Nat) (pre post : ByteStore) (done : Prop) (o : Outcome) : Prop where
  clean : o.img.handle.bytes off = FS_STATE_CLEAN →
    SameRest off o.img.handle.bytes pre ∨ (done ∧ SameRest off o.img.handle.bytes post)
  unclean : o.recovery = some .EUCLEAN → o.img.handle.bytes off ≠ FS_STATE_CLEAN

/-- The mutation starts on an initially clean image and reports 0, and the first sync of its
commit succeeds: what both failures below have in common. -/
structure Commits (img : Writer) (body : Body) (f : MutationFaults) : Prop where
  begun : img.Markable ∧ f.begin.mark = none ∧ f.begin.sync = none
  clean : img.sbState = FS_STATE_CLEAN
  tmpfile : f.tmpfile = none
  rc : body.rc = none
  sync : f.commit.sync = none

/-- The failures that strand a clean mark: the clean byte is published but its write or sync
fails, the write that withdraws it changes nothing, and the rollback reports `EUCLEAN` without
having rewritten the byte. -/
structure MarkStranded (img : Writer) (body : Body) (f : MutationFaults) : Prop where
  commits : Commits img body f
  kept : withdrawn f.commit = FS_STATE_CLEAN
  euclean : strandError f.commit = some .EUCLEAN ∨ f.undoSync = true ∨
    ∃ j < (body.records img.opened.handle).length, (f.undo j).isSome
  unreached : undoReaches f.undo img.stateOff
    ((body.records img.opened.handle).map UndoRec.extent) 0 = false

/-- A failed write that the mutation passed over: it reports 0 and its commit succeeds, with the
image changed but not by all of its writes. -/
structure FailureKept (img : Writer) (body : Body) (f : MutationFaults) : Prop where
  commits : Commits img body f
  mark : f.commit.mark = none
  markSync : f.commit.markSync = none
  failed : ¬ AllSucceed (transactionBegin img.opened.handle) body.calls
  changed : ¬ SameRest img.stateOff (body.post img.opened.handle) img.handle.bytes

/-- The image and the records when the mutation's own writes are done. -/
theorem body_recorded {w : Writer} {body : Body}
    (hb : body.WellBehaved w.handle w.stateOff w.diskState) :
    Recorded w.handle.bytes (body.records w.handle) (body.run w.handle) ∧
      HoldsAt w.stateOff w.diskState (body.records w.handle) ∧
      body.post w.handle w.stateOff = w.diskState := by
  have hkeep := run_keeps (h := transactionBegin w.handle) hb.keeps
    (show w.handle.bytes w.stateOff = w.diskState from rfl)
    (show HoldsAt _ _ [] from fun _ h => absurd h (by simp))
  exact ⟨(Recorded.begin w.handle).runWrites hb.aligned, hkeep.2, hkeep.1⟩

/-- Recovery and the final mark after a failure: honest exactly when recovery did not stop with
the byte clean. -/
theorem finish_honest_iff {w : Writer} {pre post : ByteStore} {done : Prop} {rc' recovery : Status}
    (htx : w.handle.transaction = none) (f : FinishFaults)
    (hrest : recovery ≠ some .EUCLEAN → SameRest w.stateOff w.handle.bytes pre) :
    Honest w.stateOff pre post done
        { opened := true, recovery := recovery, rc := rc',
          img := (writeFinish w (recovery != some .EUCLEAN) f).2 } ↔
      ¬ (recovery = some .EUCLEAN ∧ w.diskState = FS_STATE_CLEAN) := by
  by_cases hr : recovery = some .EUCLEAN
  · have hw : (writeFinish w (recovery != some .EUCLEAN) f).2 = w := by simp [writeFinish, hr]
    rw [hw]
    constructor
    · exact fun h hn => h.unclean hr hn.2
    · exact fun h => ⟨fun hc => absurd ⟨hr, hc⟩ h, fun _ hc => h ⟨hr, hc⟩⟩
  · have ho := onlyState_writeFinish htx (recovery != some .EUCLEAN) f
    constructor
    · exact fun _ hn => hr hn.1
    · exact fun _ => ⟨fun _ => .inl (ho.rest.trans (hrest hr)), fun h => absurd h hr⟩

/-- Without a clean mark to restore, `nextufs__write_finish` does nothing. -/
theorem writeFinish_of_not_restore {img : Writer} (h : img.restoreClean = false) (safe : Bool)
    (f : FinishFaults) : writeFinish img safe f = (none, img) := by
  simp [writeFinish, h]

/-- The rest of `finish_mutation` after the commit: the end of the transaction with status `rc`,
and the last attempt to mark the image clean. -/
def ended (w : Writer) (rc : Status) (f : MutationFaults) : Outcome :=
  let t := transactionEnd w.handle rc f.undo f.undoSync
  let p := writeFinish { w with handle := t.2 } (t.1 != some .EUCLEAN) f.finish
  ⟨true, t.1, if p.1 = none then t.1 else p.1, p.2⟩

/-- Without a mark to restore and without an error, the end of a transaction only closes it. -/
theorem ended_of_not_restore {w : Writer} (hw : w.restoreClean = false) {tx : UndoLog}
    (htx : w.handle.transaction = some tx) (f : MutationFaults) :
    ended w none f = ⟨true, none, none, { w with handle := { w.handle with transaction := none } }⟩ := by
  have hfin := @writeFinish_of_not_restore
    { w with handle := { w.handle with transaction := none } } hw
    ((none : Status) != some .EUCLEAN) f.finish
  simp only [ended, transactionEnd, htx]
  rw [hfin]
  rfl

/-! ## The phases of a one-shot mutation -/

/-- A one-shot mutation that reached its own writes and made them. -/
structure Ran (img : Writer) (body : Body) (f : MutationFaults) : Prop where
  tx : img.handle.transaction = none
  begun : img.Markable ∧ f.begin.mark = none ∧ f.begin.sync = none
  opened : writeBegin img f.begin = (none, img.opened)
  tmpfile : f.tmpfile = none
  wellBehaved : body.WellBehaved img.opened.handle img.stateOff (dirtyState img.sbState)

/-- The image of the commit: the transaction is set aside. -/
def Body.committing (body : Body) (img : Writer) : Writer :=
  { img.opened with handle := { body.run img.opened.handle with transaction := none } }

theorem onlyState_opened (img : Writer) : OnlyState img img.opened :=
  ⟨sameRest_update _ _ _, rfl, rfl⟩

@[simp] theorem Writer.diskState_opened (img : Writer) :
    img.opened.diskState = dirtyState img.sbState :=
  Writer.diskState_setState img (dirtyState img.sbState)

variable {img : Writer} {body : Body} {f : MutationFaults}

theorem Ran.recorded (h : Ran img body f) :
    Recorded img.opened.handle.bytes (body.records img.opened.handle)
        (body.run img.opened.handle) ∧
      HoldsAt img.stateOff (dirtyState img.sbState) (body.records img.opened.handle) ∧
      body.post img.opened.handle img.stateOff = dirtyState img.sbState := by
  have hb := @body_recorded img.opened body (by rw [img.diskState_opened]; exact h.wellBehaved)
  rwa [img.diskState_opened] at hb

theorem Ran.open_transaction (h : Ran img body f) :
    ∃ tx, (body.run img.opened.handle).transaction = some tx := by
  obtain ⟨⟨⟨rest, htx⟩, -⟩, -⟩ := h.recorded
  exact ⟨_, htx⟩

theorem Ran.markable (h : Ran img body f) : (body.committing img).Markable := by
  have hsize := runWrites_extent (transactionBegin img.opened.handle) body.calls
  refine ⟨hsize.1.trans h.begun.1.1, ?_⟩
  rw [show (body.committing img).handle.imageSize = img.handle.imageSize from hsize.2]
  exact h.begun.1.2

theorem Ran.diskState (h : Ran img body f) :
    (body.committing img).diskState = dirtyState img.sbState := h.recorded.2.2

/-- Rolling back from the state byte `x`, then the final mark: dishonest exactly when `EUCLEAN` is
reported and the byte is left clean. -/
theorem Ran.ended_honest_iff (h : Ran img body f) (done : Prop) {w : Writer} (e : Errno)
    (x : UInt8) (hoff : w.stateOff = img.stateOff)
    (hw : w.handle = { body.run img.opened.handle with
      bytes := Function.update (body.post img.opened.handle) img.stateOff x }) :
    Honest img.stateOff img.handle.bytes (body.post img.opened.handle) done (ended w (some e) f) ↔
      ¬ ((e = .EUCLEAN ∨ f.undoSync = true ∨
          ∃ j < (body.records img.opened.handle).length, (f.undo j).isSome) ∧
        (if undoReaches f.undo img.stateOff
            ((body.records img.opened.handle).map UndoRec.extent) 0
          then dirtyState img.sbState else x) = FS_STATE_CLEAN) := by
  obtain ⟨hrec, hk, -⟩ := h.recorded
  obtain ⟨ht, hrest, hx, hcode⟩ := transactionEnd_after_mark hrec hk x e f.undo f.undoSync
  rw [Body.post] at hw ⊢
  rw [ended, hw, ← hcode, ← hx]
  generalize transactionEnd { body.run img.opened.handle with
    bytes := Function.update (body.run img.opened.handle).bytes img.stateOff x } (some e) f.undo
    f.undoSync = t at ht hrest ⊢
  rw [← hoff] at hrest ⊢
  exact finish_honest_iff (w := { w with handle := t.2 }) ht f.finish
    fun hne => (hrest hne).trans (hoff ▸ (onlyState_opened img).rest)

/-- A rollback from the dirty byte never ends clean. -/
theorem Ran.ended_honest (h : Ran img body f) (done : Prop) {w : Writer} (e : Errno)
    (hoff : w.stateOff = img.stateOff) (hw : w.handle = body.run img.opened.handle) :
    Honest img.stateOff img.handle.bytes (body.post img.opened.handle) done
      (ended w (some e) f) := by
  have hself : Function.update (body.post img.opened.handle) img.stateOff (dirtyState img.sbState) =
      body.post img.opened.handle := by
    rw [← h.recorded.2.2]
    exact Function.update_eq_self _ _
  refine (h.ended_honest_iff done e (dirtyState img.sbState) hoff (by rw [hw, hself]; rfl)).mpr ?_
  rw [ite_self]
  exact fun hc => dirtyState_ne_clean img.sbState hc.2

/-- A one-shot mutation whose body failed. -/
theorem Ran.mutateOneShot_failed (h : Ran img body f) {e : Errno} (hrc : body.rc = some e) :
    mutateOneShot img body f =
      ended { img.opened with handle := body.run img.opened.handle } (some e) f := by
  simp only [mutateOneShot, h.opened, h.tmpfile, commitOrRecover, hrc]
  rfl

/-- The body failed: it is rolled back. -/
theorem Ran.honest_of_body_failed (h : Ran img body f) (done : Prop) {e : Errno}
    (hrc : body.rc = some e) :
    Honest img.stateOff img.handle.bytes (body.post img.opened.handle) done
      (mutateOneShot img body f) := by
  rw [h.mutateOneShot_failed hrc]
  exact h.ended_honest done e rfl rfl

/-- A one-shot mutation whose body reported 0, from the result `c` of its commit. -/
theorem Ran.mutateOneShot_eq (h : Ran img body f) (hrc : body.rc = none) {rc : Status} {w : Writer}
    (hc : writeFinish (body.committing img) true f.commit = (rc, w)) :
    mutateOneShot img body f =
      ended { w with handle := { w.handle with
        transaction := (body.run img.opened.handle).transaction } } rc f := by
  have hc' : writeFinish { img.opened with handle := { runWrites
      (transactionBegin img.opened.handle) body.calls with transaction := none } } true f.commit =
      (rc, w) := hc
  simp only [mutateOneShot, h.opened, h.tmpfile, commitOrRecover, hrc, beq_self_eq_true,
    Bool.not_false, Bool.and_self, if_true, hc']
  rfl

/-- On an image that was not clean to begin with the byte is not marked clean either. -/
theorem Ran.honest_of_not_clean (h : Ran img body f) (done : Prop) (hrc : body.rc = none)
    (hclean : img.sbState ≠ FS_STATE_CLEAN) :
    Honest img.stateOff img.handle.bytes (body.post img.opened.handle) done
      (mutateOneShot img body f) := by
  have hrestore : (body.committing img).restoreClean = false := by
    simpa [Body.committing, Writer.opened] using hclean
  obtain ⟨tx, htx⟩ := h.open_transaction
  rw [h.mutateOneShot_eq hrc (writeFinish_of_not_restore hrestore _ _),
    ended_of_not_restore (by exact hrestore) (by exact htx)]
  exact ⟨fun hc => absurd (h.recorded.2.2.symm.trans hc) (dirtyState_ne_clean _),
    fun hn => absurd hn (by simp)⟩

theorem Body.restoreClean_committing (body : Body) {img : Writer}
    (hclean : img.sbState = FS_STATE_CLEAN) : (body.committing img).restoreClean = true := by
  simpa [Body.committing, Writer.opened] using hclean

/-- The first sync of the commit fails: the clean byte is never written. -/
theorem Ran.honest_of_sync_failed (h : Ran img body f) (done : Prop) (hrc : body.rc = none)
    (hclean : img.sbState = FS_STATE_CLEAN) {e : Errno} (hsync : f.commit.sync = some e) :
    Honest img.stateOff img.handle.bytes (body.post img.opened.handle) done
      (mutateOneShot img body f) := by
  have hwr : (body.committing img).handle.writable = true := h.markable.1
  have hfin : writeFinish (body.committing img) true f.commit =
      (some e, body.committing img) := by
    simp [writeFinish, body.restoreClean_committing hclean, imageFsync, hwr, hsync]
  rw [h.mutateOneShot_eq hrc hfin]
  exact h.ended_honest done e rfl rfl

/-- Once the commit has succeeded, the mutation is honest exactly when its writes did. -/
theorem Ran.honest_of_committed_iff (h : Ran img body f) (hc : Commits img body f)
    (hmark : f.commit.mark = none) (hmarkSync : f.commit.markSync = none)
    (hfin : writeFinish (body.committing img) true f.commit =
      (none, { (body.committing img).setState FS_STATE_CLEAN with
        sbState := FS_STATE_CLEAN, restoreClean := false })) :
    Honest img.stateOff img.handle.bytes (body.post img.opened.handle)
        (body.Completes img.opened.handle) (mutateOneShot img body f) ↔
      ¬ FailureKept img body f := by
  obtain ⟨tx, htx⟩ := h.open_transaction
  have ho : ∃ w : Writer, mutateOneShot img body f = ⟨true, none, none, w⟩ ∧
      w.handle.bytes =
        Function.update (body.post img.opened.handle) img.stateOff FS_STATE_CLEAN := by
    rw [h.mutateOneShot_eq hc.rc hfin, ended_of_not_restore rfl (by exact htx)]
    exact ⟨_, rfl, rfl⟩
  obtain ⟨w, ho, hw⟩ := ho
  have hpost : SameRest img.stateOff w.handle.bytes (body.post img.opened.handle) := by
    rw [hw]
    exact sameRest_update _ _ _
  have hbyte : w.handle.bytes img.stateOff = FS_STATE_CLEAN := by rw [hw, Function.update_self]
  rw [ho]
  constructor
  · intro ho hk
    rcases ho.clean hbyte with hpre | hdone
    · exact hk.changed fun p hp => (hpost p hp).symm.trans (hpre p hp)
    · exact hk.failed hdone.1.2
  · intro hk
    refine ⟨fun _ => ?_, fun hn => absurd hn (by simp)⟩
    by_cases hall : AllSucceed (transactionBegin img.opened.handle) body.calls
    · exact .inr ⟨⟨hc.rc, hall⟩, hpost⟩
    · have hsame : SameRest img.stateOff (body.post img.opened.handle) img.handle.bytes := by
        by_contra hch
        exact hk ⟨hc, hmark, hmarkSync, hall, hch⟩
      exact .inl (hpost.trans hsame)

/-- Once the mark of the commit has failed, the mutation is honest exactly when the mark is not
stranded. -/
theorem Ran.honest_of_mark_failed_iff (h : Ran img body f) (done : Prop) (hc : Commits img body f)
    {e : Errno} (hfin : writeFinish (body.committing img) true f.commit =
      (some e, (body.committing img).setState (withdrawn f.commit)))
    (hstrand : withdrawn f.commit = FS_STATE_CLEAN → strandError f.commit = some e) :
    Honest img.stateOff img.handle.bytes (body.post img.opened.handle) done
        (mutateOneShot img body f) ↔ ¬ MarkStranded img body f := by
  rw [h.mutateOneShot_eq hc.rc hfin]
  refine (h.ended_honest_iff done e (withdrawn f.commit) ?_ ?_).trans (not_congr ?_)
  · rfl
  · rfl
  constructor
  · rintro ⟨hcode, hbyte⟩
    by_cases hreach : undoReaches f.undo img.stateOff
        ((body.records img.opened.handle).map UndoRec.extent) 0 = true
    · rw [if_pos hreach] at hbyte
      exact absurd hbyte (dirtyState_ne_clean _)
    · rw [if_neg hreach] at hbyte
      refine ⟨hc, hbyte, ?_, by simpa using hreach⟩
      rwa [hstrand hbyte, Option.some.injEq]
  · intro hm
    have hcode := hm.euclean
    rw [hstrand hm.kept, Option.some.injEq] at hcode
    exact ⟨hcode, by rw [hm.unreached]; exact hm.kept⟩

/-- A mutation that never makes its own writes changes the state byte at most. -/
theorem honest_of_unopened {pre post : ByteStore} {off : Nat} {done : Prop} {rc : Status}
    {w : Writer} (hw : SameRest off w.handle.bytes pre) :
    Honest off pre post done { opened := false, recovery := none, rc := rc, img := w } :=
  ⟨fun _ => .inl hw, fun h => absurd h (by simp)⟩

/-- **The clean mark.** A one-shot mutation is honest exactly when its clean mark is not
stranded and no failed write was passed over. -/
theorem mutateOneShot_honest_iff (img : Writer) (body : Body) (f : MutationFaults)
    (htx : img.handle.transaction = none)
    (hb : body.WellBehaved img.opened.handle img.stateOff (dirtyState img.sbState)) :
    Honest img.stateOff img.handle.bytes (body.post img.opened.handle)
        (body.Completes img.opened.handle) (mutateOneShot img body f) ↔
      ¬ MarkStranded img body f ∧ ¬ FailureKept img body f := by
  -- outside `Commits` neither failure can occur
  have houter : ¬ Commits img body f → Honest img.stateOff img.handle.bytes
      (body.post img.opened.handle) (body.Completes img.opened.handle) (mutateOneShot img body f) →
      (Honest img.stateOff img.handle.bytes (body.post img.opened.handle)
        (body.Completes img.opened.handle) (mutateOneShot img body f) ↔
        ¬ MarkStranded img body f ∧ ¬ FailureKept img body f) := fun hc ho =>
    iff_of_true ho ⟨fun h => hc h.commits, fun h => hc h.commits⟩
  rcases writeBegin_cases htx f.begin with ⟨hm, hmark, hsync, hbegin⟩ | ⟨hno, e, w, hbegin, hw⟩
  case inr =>
    refine houter (fun h => hno h.begun) ?_
    simp only [mutateOneShot, hbegin]
    exact honest_of_unopened hw.rest
  rcases htmp : f.tmpfile with _ | e
  case some =>
    refine houter (fun h => Option.some_ne_none e (htmp.symm.trans h.tmpfile)) ?_
    simp only [mutateOneShot, hbegin, htmp]
    exact honest_of_unopened
      ((onlyState_opened img).trans (@onlyState_writeFinish img.opened htx true _)).rest
  have hran : Ran img body f := ⟨htx, ⟨hm, hmark, hsync⟩, hbegin, htmp, hb⟩
  rcases hrc : body.rc with _ | e
  case some =>
    exact houter (fun h => Option.some_ne_none e (hrc.symm.trans h.rc)) (hran.honest_of_body_failed _ hrc)
  by_cases hclean : img.sbState = FS_STATE_CLEAN
  case neg =>
    exact houter (fun h => hclean h.clean) (hran.honest_of_not_clean _ hrc hclean)
  rcases hcs : f.commit.sync with _ | e
  case some =>
    exact houter (fun h => Option.some_ne_none e (hcs.symm.trans h.sync)) (hran.honest_of_sync_failed _ hrc hclean hcs)
  have hc : Commits img body f := ⟨⟨hm, hmark, hsync⟩, hclean, htmp, hrc, hcs⟩
  rcases @writeFinish_commit (body.committing img) rfl hran.markable
    (body.restoreClean_committing hclean)
    (hran.diskState.trans (by simp [dirtyState, hclean])) f.commit hcs with
    ⟨hmk, hms, hfin⟩ | ⟨e, hfin, hne, hstrand⟩
  · have hdirty : withdrawn f.commit = FS_STATE_DIRTY := by
      simp [withdrawn, strandError, hmk, hms]
    have hno : ¬ MarkStranded img body f := fun h =>
      absurd (hdirty.symm.trans h.kept) (by decide)
    rw [hran.honest_of_committed_iff hc hmk hms hfin]
    exact (and_iff_right hno).symm
  · rw [hran.honest_of_mark_failed_iff _ hc hfin hstrand]
    have hno : ¬ FailureKept img body f := fun h =>
      hne.elim (fun h' => h' h.mark) (fun h' => h' h.markSync)
    exact (and_iff_left hno).symm

/-! ## What a mutation leaves -/

/-- The content a mutation leaves when its end goes as its body did. -/
def Body.left (b : Body) (h : Handle) (pre : ByteStore) : ByteStore :=
  if b.rc = none then b.post h else pre

/-- After the transaction the state byte alone may still change. -/
theorem ended_rest {w : Writer} {rc : Status} {tx : UndoLog}
    (htx : w.handle.transaction = some tx) :
    SameRest w.stateOff (ended w rc f).img.handle.bytes
      (transactionEnd w.handle rc f.undo f.undoSync).2.bytes := by
  have hclosed : (transactionEnd w.handle rc f.undo f.undoSync).2.transaction = none := by
    unfold transactionEnd
    rw [htx]
    cases rc <;> rfl
  have honly := @onlyState_writeFinish { w with
    handle := (transactionEnd w.handle rc f.undo f.undoSync).2 }
  exact (honly hclosed _ f.finish).rest

/-- A body that failed was rolled back, unless `EUCLEAN` is reported. -/
theorem Ran.rest_of_body_failed (h : Ran img body f) {e : Errno} (hrc : body.rc = some e)
    (hne : (mutateOneShot img body f).recovery ≠ some .EUCLEAN) :
    SameRest img.stateOff (mutateOneShot img body f).img.handle.bytes img.handle.bytes := by
  rw [h.mutateOneShot_failed hrc] at hne ⊢
  obtain ⟨tx, htx⟩ := h.open_transaction
  have hend := @ended_rest f { img.opened with handle := body.run img.opened.handle } (some e) tx htx
  have hback := h.recorded.1.transactionEnd_bytes e f.undo f.undoSync hne
  refine SameRest.trans hend ?_
  rw [show (transactionEnd (body.run img.opened.handle) (some e) f.undo f.undoSync).2.bytes = _
    from hback]
  exact (onlyState_opened img).rest

/-- A body that reported 0 and was not rolled back left its own content. -/
theorem Ran.rest_of_committed (h : Ran img body f) (hrc : body.rc = none)
    (hend : (mutateOneShot img body f).recovery = none) :
    SameRest img.stateOff (mutateOneShot img body f).img.handle.bytes
      (body.post img.opened.handle) := by
  obtain ⟨rc, w, hcommit⟩ : ∃ rc w, writeFinish (body.committing img) true f.commit = (rc, w) :=
    ⟨_, _, rfl⟩
  have honly := @onlyState_writeFinish (body.committing img) rfl true f.commit
  rw [hcommit] at honly
  rw [h.mutateOneShot_eq hrc hcommit] at hend ⊢
  obtain ⟨tx, htx⟩ := h.open_transaction
  have hlast := @ended_rest f { w with handle := { w.handle with
    transaction := (body.run img.opened.handle).transaction } } rc tx htx
  -- the commit succeeded, so that the transaction is only closed
  cases rc with
  | some e => simp [ended, transactionEnd, htx] at hend
  | none =>
    have hbytes : (transactionEnd { w.handle with
        transaction := (body.run img.opened.handle).transaction } none f.undo f.undoSync).2.bytes =
        w.handle.bytes := by simp [transactionEnd, htx]
    have hoff : w.stateOff = img.stateOff := honly.off
    rw [hbytes] at hlast
    refine SameRest.trans ?_ honly.rest
    rw [← hoff]
    exact hlast

/-- A one-shot mutation that got to its end leaves, besides the state byte, what its body made of
the image, or the image as it was. -/
theorem mutateOneShot_rest (htx : img.handle.transaction = none)
    (hb : body.WellBehaved img.opened.handle img.stateOff (dirtyState img.sbState))
    (hopen : (mutateOneShot img body f).opened = true)
    (hend : (mutateOneShot img body f).recovery = body.rc)
    (hne : (mutateOneShot img body f).recovery ≠ some .EUCLEAN) :
    SameRest img.stateOff (mutateOneShot img body f).img.handle.bytes
      (body.left img.opened.handle img.handle.bytes) := by
  rcases writeBegin_cases htx f.begin with ⟨hm, hmark, hsync, hbegin⟩ | ⟨-, e, w, hbegin, -⟩
  case inr => simp [mutateOneShot, hbegin] at hopen
  rcases htmp : f.tmpfile with _ | e
  case some => simp [mutateOneShot, hbegin, htmp] at hopen
  have hran : Ran img body f := ⟨htx, ⟨hm, hmark, hsync⟩, hbegin, htmp, hb⟩
  unfold Body.left
  rcases hrc : body.rc with _ | e
  · exact hran.rest_of_committed hrc (hend.trans hrc)
  · exact hran.rest_of_body_failed hrc hne

/-! ## Sessions -/

/-- What a session keeps between mutations: no transaction is open and the byte is not clean. -/
structure Session.Dirty (s : Session) (off : Nat) : Prop where
  tx : s.image.handle.transaction = none
  stateOff_eq : s.image.stateOff = off
  unclean : s.image.handle.bytes off ≠ FS_STATE_CLEAN

/-- A successful open leaves the byte dirty. -/
theorem writeSessionOpen_dirty {img : Writer} (htx : img.handle.transaction = none) {f : BeginFaults}
    (hok : (writeSessionOpen img f).1 = none) :
    (writeSessionOpen img f).2.Dirty img.stateOff := by
  rcases writeBegin_cases htx f with ⟨-, -, -, hbegin⟩ | ⟨-, e, w, hbegin, -⟩
  · simp only [writeSessionOpen, hbegin]
    exact ⟨htx, rfl, fun hc => dirtyState_ne_clean img.sbState
      ((Writer.diskState_setState img _).symm.trans hc)⟩
  · simp [writeSessionOpen, hbegin] at hok

/-- The step lemma: a mutation in a session is honest, and the session stays dirty. -/
theorem mutateInSession_honest {s : Session} {off : Nat} (hs : s.Dirty off) {body : Body}
    (hb : body.WellBehaved s.image.handle off s.image.diskState) (f : MutationFaults)
    (refresh : Status) :
    Honest off s.image.handle.bytes (body.post s.image.handle) (body.Completes s.image.handle)
        (mutateInSession s body f refresh).1 ∧
      (mutateInSession s body f refresh).2.Dirty off := by
  obtain ⟨htx, rfl, hun⟩ := hs
  -- an outcome whose byte is not clean is honest
  have hhonest : ∀ o : Outcome, o.img.handle.bytes s.image.stateOff ≠ FS_STATE_CLEAN →
      Honest s.image.stateOff s.image.handle.bytes (body.post s.image.handle)
        (body.Completes s.image.handle) o :=
    fun _ h => ⟨fun hc => absurd hc h, fun _ => h⟩
  unfold mutateInSession
  split
  · exact ⟨hhonest _ hun, htx, rfl, hun⟩
  split
  · exact ⟨hhonest _ hun, htx, rfl, hun⟩
  obtain ⟨hrec, hholds, hbyte⟩ := body_recorded hb
  change Recorded _ _ (runWrites _ _) at hrec
  change (runWrites _ _).bytes _ = _ at hbyte
  generalize runWrites (transactionBegin s.image.handle) body.calls = h₂ at hrec hbyte
  have hend : (transactionEnd h₂ body.rc f.undo f.undoSync).2.transaction = none ∧
      (transactionEnd h₂ body.rc f.undo f.undoSync).2.bytes s.image.stateOff =
        s.image.diskState := by
    rcases hrc : body.rc with _ | e
    · obtain ⟨⟨rest, htx₂⟩, -⟩ := hrec
      simpa [transactionEnd, htx₂] using hbyte
    · rw [hrec.transactionEnd_eq]
      refine ⟨rfl, ?_⟩
      dsimp only
      rw [undoRecs_byte f.undo _ 0 _ hholds, hbyte, ite_self]
  have hun' : (transactionEnd h₂ body.rc f.undo f.undoSync).2.bytes s.image.stateOff ≠
      FS_STATE_CLEAN := fun hc => hun (hend.2.symm.trans hc)
  exact ⟨hhonest _ hun', hend.1, rfl, hun'⟩

/-- The session goes on with the image its mutation returned. -/
theorem mutateInSession_img (s : Session) (body : Body) (f : MutationFaults) (refresh : Status) :
    (mutateInSession s body f refresh).1.img = (mutateInSession s body f refresh).2.image := by
  unfold mutateInSession
  split
  · rfl
  split <;> rfl

/-- A mutation in a session that got to its end leaves what its body made of the image, or the
image as it was. -/
theorem mutateInSession_rest {s : Session} {off : Nat} (hs : s.Dirty off) {body : Body}
    (hb : body.WellBehaved s.image.handle off s.image.diskState) {f : MutationFaults}
    {refresh : Status} (hopen : (mutateInSession s body f refresh).1.opened = true)
    (hne : (mutateInSession s body f refresh).1.recovery ≠ some .EUCLEAN) :
    (mutateInSession s body f refresh).1.img.handle.bytes =
      body.left s.image.handle s.image.handle.bytes := by
  obtain ⟨-, rfl, -⟩ := hs
  obtain ⟨hrec, -, -⟩ := body_recorded hb
  by_cases hfailed : s.failed = true
  case pos => simp [mutateInSession, hfailed] at hopen
  rcases htmp : f.tmpfile with _ | e
  case some => simp [mutateInSession, hfailed, htmp] at hopen
  have hrecovery : (mutateInSession s body f refresh).1.recovery =
      (transactionEnd (body.run s.image.handle) body.rc f.undo f.undoSync).1 := by
    simp only [mutateInSession, hfailed, htmp, commitOrRecover]
    rfl
  have hbytes : (mutateInSession s body f refresh).1.img.handle.bytes =
      (transactionEnd (body.run s.image.handle) body.rc f.undo f.undoSync).2.bytes := by
    simp only [mutateInSession, hfailed, htmp, commitOrRecover]
    rfl
  rw [hrecovery] at hne
  rw [hbytes]
  unfold Body.left
  rcases hrc : body.rc with _ | e
  · obtain ⟨⟨rest, htx⟩, -⟩ := hrec
    simp [transactionEnd, htx, Body.post]
  · rw [hrc] at hne
    exact hrec.transactionEnd_bytes e f.undo f.undoSync hne

/-- Every mutation of the sequence is well behaved where the session has got to. -/
def SessionWellBehaved (off : Nat) : Session → List (Body × MutationFaults × Status) → Prop
  | _, [] => True
  | s, m :: ms =>
    m.1.WellBehaved s.image.handle off s.image.diskState ∧
      SessionWellBehaved off (mutateInSession s m.1 m.2.1 m.2.2).2 ms

/-- The run lemma: a session stays dirty. -/
theorem runSession_dirty {off : Nat} : ∀ {s : Session} {ms : List (Body × MutationFaults × Status)},
    s.Dirty off → SessionWellBehaved off s ms → (runSession s ms).Dirty off
  | _, [], hs, _ => hs
  | _, m :: _, hs, hb =>
      runSession_dirty (s := (mutateInSession _ m.1 m.2.1 m.2.2).2)
        (mutateInSession_honest hs hb.1 m.2.1 m.2.2).2 hb.2

theorem SessionWellBehaved.last {off : Nat} {body : Body} {f : MutationFaults} {refresh : Status} :
    ∀ {s : Session} {ms : List (Body × MutationFaults × Status)},
      SessionWellBehaved off s (ms ++ [(body, f, refresh)]) →
      SessionWellBehaved off s ms ∧
        body.WellBehaved (runSession s ms).image.handle off (runSession s ms).image.diskState
  | _, [], hb => ⟨trivial, hb.1⟩
  | s, m :: _, hb =>
      have ih := SessionWellBehaved.last (s := (mutateInSession s m.1 m.2.1 m.2.2).2) hb.2
      ⟨⟨hb.1, ih.1⟩, ih.2⟩

/-- **Honest mutations.** A one-shot mutation is honest exactly when its clean mark is not
stranded and no failed write was passed over; a mutation in a session, after any others, is
always honest. -/
theorem mutation_honest (img : Writer) (htx : img.handle.transaction = none) :
    (∀ body f, body.WellBehaved img.opened.handle img.stateOff (dirtyState img.sbState) →
      (Honest img.stateOff img.handle.bytes (body.post img.opened.handle)
          (body.Completes img.opened.handle) (mutateOneShot img body f) ↔
        ¬ MarkStranded img body f ∧ ¬ FailureKept img body f)) ∧
    (∀ bf ms body f refresh s, (writeSessionOpen img bf).1 = none →
      SessionWellBehaved img.stateOff (writeSessionOpen img bf).2 (ms ++ [(body, f, refresh)]) →
      s = runSession (writeSessionOpen img bf).2 ms →
      Honest img.stateOff s.image.handle.bytes (body.post s.image.handle)
        (body.Completes s.image.handle) (mutateInSession s body f refresh).1) := by
  refine ⟨fun body f hb => mutateOneShot_honest_iff img body f htx hb, ?_⟩
  rintro bf ms body f refresh s hok hb rfl
  have hlast := hb.last
  have hdirty := runSession_dirty (writeSessionOpen_dirty htx hok) hlast.1
  exact (mutateInSession_honest hdirty hlast.2 f refresh).1

/-- A clean 16 KiB image of zero bytes. -/
def cleanImage : Writer where
  handle :=
    { bytes := Function.update (fun _ => 0) (UFS_SBLOCK_OFFSET + SB_STATE_OFF) FS_STATE_CLEAN
      imageSize := 16384
      imageSize_lt := by decide
      writable := true
      transaction := none }
  sliceBase := 0
  sbState := FS_STATE_CLEAN
  restoreClean := false
  fsWriteActive := false

/-- A mutation that writes two bytes. -/
def twoWrites : Body where
  calls := [{ data := [1], offset := 12000 }, { data := [1], offset := 12001 }]
  rc := none

/-- The sync after the clean mark fails. The write that withdraws the mark changes `n` bytes and
fails, and the second undo write fails. -/
def strandFaults (n : Nat) : MutationFaults where
  commit := { markSync := some Errno.EIO, withdraw := some (n, Errno.EIO) }
  undo := fun j => if j = 1 then some (.write 0) else none

/-- The second write fails with nothing changed, and the mutation reports 0 all the same. -/
def passedOver : Body where
  calls := [{ data := [1], offset := 12000 },
    { data := [1], offset := 12001, fault := { write := some (0, .ENOSPC) } }]
  rc := none

theorem mutation_honest_withdrawn :
    Honest cleanImage.stateOff cleanImage.handle.bytes
      (twoWrites.post cleanImage.opened.handle) (twoWrites.Completes cleanImage.opened.handle)
      (mutateOneShot cleanImage twoWrites (strandFaults 1)) := by
  have hb : twoWrites.WellBehaved cleanImage.opened.handle cleanImage.stateOff
      (dirtyState cleanImage.sbState) := by
    refine ⟨by decide +kernel, ?_⟩
    simp [twoWrites, WriteCall.Keeps, cleanImage, Writer.stateOff, UFS_SBLOCK_OFFSET,
      SB_STATE_OFF]
  refine ((mutation_honest cleanImage rfl).1 twoWrites (strandFaults 1) hb).mpr
    ⟨fun h => absurd h.kept (by decide), fun h => absurd h.markSync (by decide)⟩

/-- The mutation left the byte clean, and of the two bytes it wrote the first has changed and the
second is not as it should be. -/
def HalfWritten (o : Outcome) : Prop :=
  o.img.diskState = FS_STATE_CLEAN ∧ o.img.handle.bytes 12000 ≠ cleanImage.handle.bytes 12000 ∧
    o.img.handle.bytes 12001 ≠ (twoWrites.post cleanImage.opened.handle) 12001

instance (o : Outcome) : Decidable (HalfWritten o) := inferInstanceAs (Decidable (_ ∧ _))

/-- With the mark stranded the call ends so with `EUCLEAN`; with a failed write passed over it
ends so and reports 0. -/
theorem stranded_clean_mark :
    HalfWritten (mutateOneShot cleanImage twoWrites (strandFaults 0)) ∧
      (mutateOneShot cleanImage twoWrites (strandFaults 0)).recovery = some .EUCLEAN ∧
      (mutateOneShot cleanImage twoWrites (strandFaults 0)).rc = some .EUCLEAN ∧
      HalfWritten (mutateOneShot cleanImage passedOver {}) ∧
      (mutateOneShot cleanImage passedOver {}).rc = none := by
  decide +kernel

end NextUfs.Mutate
