/-
NextUfs.Core.TransactionTheorems — what the undo log restores.

The log is read backwards from `tx->end`, so everything rests on one shape:
the bytes below `tx->end` are exactly the records appended so far, newest
last (`encodeLog`), and undoing those records from the newest takes the image
back to where it was (`Recorded`). `Recorded.writeExact` is the step lemma;
`undoLoop_eq_undoRecs` replaces the loop over the log's bytes by a recursion
over its records (`undoRecs`).

The shape needs every record to start where the last one ended. An append
that stops part-way leaves its bytes in the file past `tx->end`, and the next
append that completes sets `tx->end` after both, so the record boundaries are
lost: `AppendsAligned` says that no append completes in that state, and
`partial_append_loses_undo` is a run where one does.
-/
import NextUfs.Core.Transaction
import Mathlib.Logic.Function.Basic

namespace NextUfs.Core

open NextUfs.Lib NextUfs.Lib.ByteStore

/-! ## The log as a list of records -/

/-- One undo record: where, and the bytes that were there. -/
structure UndoRec where
  offset : Nat
  old : List UInt8

/-- The range a record restores. -/
def UndoRec.extent (r : UndoRec) : Nat × Nat := (r.offset, r.old.length)

/-- The bytes `nextufs__transaction_record` appends for one record. -/
def UndoRec.encode (r : UndoRec) : List UInt8 := r.old ++ encodeRecord r.offset r.old.length

/-- The log holding `recs`, newest first in the list and last in the file. -/
def encodeLog : List UndoRec → List UInt8
  | [] => []
  | r :: rs => encodeLog rs ++ r.encode

/-- The image after undoing `recs` from the newest. -/
def undoAll : List UndoRec → ByteStore → ByteStore
  | [], d => d
  | r :: rs, d => undoAll rs (patch d r.offset r.old.length (ofList r.old))

/-- `undoAll` against an environment that may stop it: the flag is `failed`. -/
def undoRecs (faults : Nat → Option UndoFault) : List UndoRec → Nat → ByteStore → Bool × ByteStore
  | [], _, d => (false, d)
  | r :: rs, i, d =>
    match faults i with
    | none => undoRecs faults rs (i + 1) (patch d r.offset r.old.length (ofList r.old))
    | some (.write n) => (true, patch d r.offset (min n r.old.length) (ofList r.old))
    | some _ => (true, d)

/-- Offsets and sizes that survive the trip through a 64-bit word and an allocation. -/
def UndoRec.Fits (r : UndoRec) : Prop :=
  r.offset < 9223372036854775808 ∧ mallocRefuses r.old.length = false

@[simp] theorem length_encodeRecord (offset size : Nat) :
    (encodeRecord offset size).length = recordSize := by
  simp [encodeRecord, recordSize]

@[simp] theorem UndoRec.length_encode (r : UndoRec) :
    r.encode.length = r.old.length + recordSize := by
  simp [UndoRec.encode]

/-- The offset word of a record, with anything after it. -/
theorem readLe64_encodeRecord (offset size : Nat) (rest : List UInt8)
    (h : offset < 9223372036854775808) :
    readLe64 (encodeRecord offset size ++ rest) = offset := by
  rw [encodeRecord, List.append_assoc, readLe64_le64_append]
  omega

/-- The size word of a record, with anything after it. -/
theorem readLe64_drop_encodeRecord (offset size : Nat) (rest : List UInt8)
    (h : size < 9223372036854775808) :
    readLe64 ((encodeRecord offset size ++ rest).drop 8) = size := by
  have hdrop : (encodeRecord offset size ++ rest).drop 8 = le64 size ++ rest := by
    rw [encodeRecord, List.append_assoc]
    exact List.drop_left' (length_le64 offset)
  rw [hdrop, readLe64_le64_append]
  omega

/-! ## The undo loop -/

/-- Each turn shortens `endOff`, so more fuel than `endOff` changes nothing. -/
theorem undoLoop_fuel (log : List UInt8) (faults : Nat → Option UndoFault) :
    ∀ (n m i endOff : Nat) (d : ByteStore), endOff ≤ n → endOff ≤ m →
      undoLoop log faults n i endOff d = undoLoop log faults m i endOff d
  | 0, m, i, endOff, d, hn, _ => by
      obtain rfl : endOff = 0 := by omega
      cases m <;> simp [undoLoop]
  | n + 1, 0, i, endOff, d, _, hm => by
      obtain rfl : endOff = 0 := by omega
      simp [undoLoop]
  | n + 1, m + 1, i, endOff, d, hn, hm => by
      have ih := undoLoop_fuel log faults n m (i + 1)
      rw [undoLoop, undoLoop]
      dsimp only
      generalize readLe64 (log.drop (endOff - recordSize + 8)) = size
      have hrec : recordSize = 16 := rfl
      split
      · rfl
      split
      · rfl
      split
      · rfl
      split
      · rfl
      split
      · rfl
      split
      · rfl
      · exact ih _ _ (by omega) (by omega)

/-- One turn of the loop on a log whose last record is `r`. -/
theorem undoLoop_cons (faults : Nat → Option UndoFault) (base rest : List UInt8) (r : UndoRec)
    (hr : r.Fits) {fuel : Nat} (hfuel : (base ++ r.encode).length ≤ fuel + 1) (i : Nat)
    (d : ByteStore) :
    undoLoop (base ++ r.encode ++ rest) faults (fuel + 1) i (base ++ r.encode).length d =
      match faults i with
      | none => undoLoop (base ++ (r.encode ++ rest)) faults base.length (i + 1) base.length
          (patch d r.offset r.old.length (ofList r.old))
      | some (.write n) => (true, patch d r.offset (min n r.old.length) (ofList r.old))
      | some _ => (true, d) := by
  have hsz : r.old.length < 9223372036854775808 := by
    have := hr.2
    simp only [mallocRefuses, decide_eq_false_iff_not] at this
    omega
  have hlen : (base ++ r.encode).length = base.length + r.old.length + recordSize := by
    simp only [List.length_append, UndoRec.length_encode]; omega
  have hrec : (base ++ r.encode ++ rest).drop (base.length + r.old.length) =
      encodeRecord r.offset r.old.length ++ rest := by
    rw [UndoRec.encode, ← List.append_assoc, List.append_assoc (base ++ r.old)]
    exact List.drop_left' (by simp)
  have hbuf : ((base ++ r.encode ++ rest).drop base.length).take r.old.length = r.old := by
    rw [List.append_assoc, List.drop_left' rfl, UndoRec.encode, List.append_assoc]
    exact List.take_left' rfl
  have hoff : readLe64 ((base ++ r.encode ++ rest).drop
      (base.length + r.old.length + recordSize - recordSize)) = r.offset := by
    rw [Nat.add_sub_cancel, hrec]
    exact readLe64_encodeRecord _ _ _ hr.1
  have hsize : readLe64 ((base ++ r.encode ++ rest).drop
      (base.length + r.old.length + recordSize - recordSize + 8)) = r.old.length := by
    rw [Nat.add_sub_cancel, ← List.drop_drop, hrec]
    exact readLe64_drop_encodeRecord _ _ _ hsz
  have hstart : base.length + r.old.length + recordSize - (recordSize + r.old.length) =
      base.length := by omega
  have htotal : (base ++ r.encode ++ rest).length =
      base.length + r.old.length + recordSize + rest.length := by
    rw [List.length_append, hlen]
  have hpos : ¬ (toOff r.offset < 0 ∧ r.old.length ≠ 0) := by
    have := hr.1
    simp only [toOff, if_pos this]
    omega
  have hzero : ¬ base.length + r.old.length + recordSize = 0 := by
    unfold recordSize
    omega
  have hshort : ¬ (base.length + r.old.length + recordSize < recordSize ∨
      (base ++ r.encode ++ rest).length < base.length + r.old.length + recordSize) := by
    omega
  have hend : ¬ base.length + r.old.length + recordSize < recordSize + r.old.length := by omega
  rw [hlen, undoLoop, if_neg hzero, if_neg hshort]
  simp only [hoff, hsize, hstart, hbuf, if_neg hpos, hr.2, hend, Bool.false_eq_true, or_false]
  rcases faults i with _ | (_ | _ | n)
  · have hroom : base.length ≤ fuel := by
      rw [hlen] at hfuel
      unfold recordSize at hfuel
      omega
    simpa using undoLoop_fuel _ faults fuel base.length (i + 1) base.length _ hroom le_rfl
  · simp
  · simp
  · simp

/-- The loop over a well-shaped log undoes its records from the newest. -/
theorem undoLoop_eq_undoRecs (faults : Nat → Option UndoFault) :
    ∀ (recs : List UndoRec) (rest : List UInt8) (fuel i : Nat) (d : ByteStore),
      (∀ r ∈ recs, r.Fits) → (encodeLog recs).length ≤ fuel →
      undoLoop (encodeLog recs ++ rest) faults fuel i (encodeLog recs).length d =
        undoRecs faults recs i d
  | [], rest, fuel, i, d, _, _ => by
      cases fuel <;> simp [undoLoop, encodeLog, undoRecs]
  | r :: rs, rest, fuel, i, d, hfit, hfuel => by
      have hlen : (encodeLog (r :: rs)).length =
          (encodeLog rs).length + r.old.length + recordSize := by
        simp only [encodeLog, List.length_append, UndoRec.length_encode]; omega
      obtain ⟨fuel, rfl⟩ : ∃ f, fuel = f + 1 := ⟨fuel - 1, by unfold recordSize at hlen; omega⟩
      have ih := fun d => undoLoop_eq_undoRecs faults rs (r.encode ++ rest) (encodeLog rs).length
        (i + 1) d (fun q hq => hfit q (by simp [hq])) le_rfl
      simp only [encodeLog] at hfuel ⊢
      rw [undoLoop_cons faults (encodeLog rs) rest r (hfit r (by simp)) hfuel i d, undoRecs]
      rcases faults i with _ | (_ | _ | n)
      · exact ih _
      · rfl
      · rfl
      · rfl

theorem undoRecs_of_ok (faults : Nat → Option UndoFault) :
    ∀ (recs : List UndoRec) (i : Nat) (d : ByteStore),
      (undoRecs faults recs i d).1 = false → (undoRecs faults recs i d).2 = undoAll recs d
  | [], _, _, _ => rfl
  | r :: rs, i, d, h => by
      rw [undoRecs] at h ⊢
      rcases hf : faults i with _ | (_ | _ | n)
      · simp only [hf] at h ⊢
        exact undoRecs_of_ok faults rs (i + 1) _ h
      all_goals simp [hf] at h

/-- The undo pass fails exactly when the environment stops one of its records. -/
theorem undoRecs_failed_iff (faults : Nat → Option UndoFault) :
    ∀ (recs : List UndoRec) (i : Nat) (d : ByteStore),
      (undoRecs faults recs i d).1 = true ↔ ∃ j < recs.length, (faults (i + j)).isSome
  | [], i, d => by simp [undoRecs]
  | r :: rs, i, d => by
      have ih := fun d => undoRecs_failed_iff faults rs (i + 1) d
      rw [undoRecs]
      constructor
      · intro h
        rcases hf : faults i with _ | u
        · rw [hf] at h
          obtain ⟨j, hj, hs⟩ := (ih _).mp h
          exact ⟨j + 1, by simp; omega, by rwa [Nat.add_right_comm, Nat.add_assoc] at hs⟩
        · exact ⟨0, by simp, by simp [hf]⟩
      · rintro ⟨j, hj, hs⟩
        rcases hf : faults i with _ | (_ | _ | n)
        · refine (ih _).mpr ?_
          rcases j with _ | j
          · simp [hf] at hs
          · exact ⟨j, by simpa using hj, by rwa [Nat.add_right_comm, Nat.add_assoc]⟩
        all_goals rfl

/-- The undo pass, stopped where the environment stops it, writes the byte at `p`: `extents`
are the ranges of the records from the newest. -/
def undoReaches (faults : Nat → Option UndoFault) (p : Nat) : List (Nat × Nat) → Nat → Bool
  | [], _ => false
  | (o, n) :: xs, i =>
    match faults i with
    | none => (o ≤ p && p < o + n) || undoReaches faults p xs (i + 1)
    | some (.write k) => o ≤ p && p < o + min k n
    | some _ => false

/-- Every record that covers `p` holds the byte `v` there. -/
def HoldsAt (p : Nat) (v : UInt8) (recs : List UndoRec) : Prop :=
  ∀ r ∈ recs, r.offset ≤ p → p < r.offset + r.old.length → ofList r.old (p - r.offset) = v

/-- A byte all records agree on, after the undo pass. -/
theorem undoRecs_byte (faults : Nat → Option UndoFault) {p : Nat} {v : UInt8} :
    ∀ (recs : List UndoRec) (i : Nat) (d : ByteStore), HoldsAt p v recs →
      (undoRecs faults recs i d).2 p =
        if undoReaches faults p (recs.map UndoRec.extent) i then v else d p
  | [], i, d, _ => by simp [undoRecs, undoReaches]
  | r :: rs, i, d, h => by
      have hr := h r (by simp)
      have hpatch : ∀ n, n ≤ r.old.length → patch d r.offset n (ofList r.old) p =
          if r.offset ≤ p ∧ p < r.offset + n then v else d p := by
        intro n hn
        by_cases hp : r.offset ≤ p ∧ p < r.offset + n
        · rw [if_pos hp, patch_of_mem hp.1 hp.2, hr hp.1 (by omega)]
        · rw [if_neg hp, patch_of_not_mem (by omega)]
      rw [undoRecs, List.map_cons, UndoRec.extent, undoReaches]
      rcases faults i with _ | (_ | _ | n)
      · dsimp only
        rw [undoRecs_byte faults rs (i + 1) _ fun q hq => h q (by simp [hq]), hpatch _ le_rfl]
        simp only [Bool.or_eq_true, Bool.and_eq_true, decide_eq_true_eq]
        split <;> simp_all
      · simp
      · simp
      · simp only [hpatch _ (Nat.min_le_right n _), Bool.and_eq_true, decide_eq_true_eq]

/-- Undoing after a change of one byte gives the same everywhere else. -/
theorem undoAll_update (recs : List UndoRec) (d : ByteStore) (p : Nat) (x : UInt8) :
    ∀ q, q ≠ p → undoAll recs (Function.update d p x) q = undoAll recs d q := by
  suffices h : ∀ d e : ByteStore, (∀ q, q ≠ p → d q = e q) →
      ∀ q, q ≠ p → undoAll recs d q = undoAll recs e q from
    h _ _ fun q hq => by simp [hq]
  induction recs with
  | nil => exact fun d e h => h
  | cons r rs ih =>
    intro d e h
    refine ih _ _ fun q hq => ?_
    by_cases hc : r.offset ≤ q ∧ q < r.offset + r.old.length
    · rw [patch_of_mem hc.1 hc.2, patch_of_mem hc.1 hc.2]
    · rw [patch_of_not_mem (by omega), patch_of_not_mem (by omega), h q hq]

/-! ## One write -/

/-- The open transaction of `h` holds `recs`, and undoing them takes its bytes back to `d`. -/
def Recorded (d : ByteStore) (recs : List UndoRec) (h : Handle) : Prop :=
  (∃ rest, h.transaction =
    some { log := encodeLog recs ++ rest, endOff := (encodeLog recs).length }) ∧
  (∀ r ∈ recs, r.Fits) ∧ undoAll recs h.bytes = d

theorem Recorded.begin (h : Handle) : Recorded h.bytes [] (transactionBegin h) :=
  ⟨⟨[], by simp [transactionBegin, encodeLog]⟩, by simp, rfl⟩

/-- The call reaches the log and its append runs to the end. -/
def appendCompletes (h : Handle) (c : WriteCall) : Bool :=
  h.writable && rangeOk h c.data.length c.offset && (c.data.length != 0) &&
    !mallocRefuses c.data.length && c.fault.read.isNone && c.fault.append.isNone

/-- No bytes of a broken append lie past `tx->end`. -/
def Handle.logAligned (h : Handle) : Bool :=
  h.transaction.all fun tx => tx.log.length == tx.endOff

@[simp] theorem transactionRecord_bytes (h : Handle) (size offset : Nat) (fault : WriteFault) :
    (transactionRecord h size offset fault).2.bytes = h.bytes := by
  unfold transactionRecord
  repeat' split
  all_goals rfl

@[simp] theorem transactionRecord_extent (h : Handle) (size offset : Nat) (fault : WriteFault) :
    (transactionRecord h size offset fault).2.writable = h.writable ∧
      (transactionRecord h size offset fault).2.imageSize = h.imageSize := by
  unfold transactionRecord
  repeat' split
  all_goals exact ⟨rfl, rfl⟩

/-- What a write can do: nothing, or record and change a prefix of its range. -/
theorem writeExact_snd (h : Handle) (c : WriteCall) :
    (writeExact h c).2 = h ∨
      ∃ n ≤ c.data.length, (writeExact h c).2 =
        { (transactionRecord h c.data.length c.offset c.fault).2 with
          bytes := patch h.bytes c.offset n (ofList c.data) } := by
  have hbytes := transactionRecord_bytes h c.data.length c.offset c.fault
  unfold writeExact
  split
  · exact .inl rfl
  split
  · exact .inl rfl
  generalize transactionRecord h c.data.length c.offset c.fault = r at hbytes ⊢
  obtain ⟨rc, h'⟩ := r
  dsimp only at hbytes
  rw [← hbytes]
  refine .inr ?_
  rcases rc with _ | e
  · rcases c.fault.write with _ | ⟨n, e⟩
    · exact ⟨_, le_rfl, rfl⟩
    · exact ⟨_, Nat.min_le_right n _, rfl⟩
  · exact ⟨0, Nat.zero_le _, by simp⟩

/-- The records after one write: one more when its append completes. -/
def recsAfter (h : Handle) (c : WriteCall) (recs : List UndoRec) : List UndoRec :=
  if appendCompletes h c then ⟨c.offset, slice h.bytes c.offset c.data.length⟩ :: recs else recs

/-- The step lemma: a write keeps the way back, unless its append completes behind the
remains of a broken one. -/
theorem Recorded.writeExact {d : ByteStore} {recs : List UndoRec} {h : Handle} {c : WriteCall}
    (hr : Recorded d recs h) (hal : appendCompletes h c = true → h.logAligned = true) :
    Recorded d (recsAfter h c recs) (writeExact h c).2 := by
  by_cases hcomp : appendCompletes h c = true
  case neg =>
    -- nothing is recorded, and at most bytes past `tx->end` are added
    obtain ⟨⟨rest, htx⟩, hfit, hundo⟩ := hr
    rw [recsAfter, if_neg hcomp]
    unfold Core.writeExact transactionRecord
    by_cases hw : h.writable = true
    case neg => simpa [hw] using ⟨⟨rest, htx⟩, hfit, hundo⟩
    by_cases hrange : rangeOk h c.data.length c.offset = true
    case neg => simpa [hw, hrange] using ⟨⟨rest, htx⟩, hfit, hundo⟩
    simp only [hw, hrange, htx, Bool.not_true, Bool.false_eq_true, if_false]
    by_cases hsize : c.data.length = 0
    · simp only [if_pos hsize]
      split <;> simpa [hsize] using ⟨⟨rest, htx⟩, hfit, hundo⟩
    by_cases hmalloc : mallocRefuses c.data.length = true
    · simpa [hsize, hmalloc] using ⟨⟨rest, htx⟩, hfit, hundo⟩
    cases hread : c.fault.read with
    | some e => simpa [hsize, hmalloc] using ⟨⟨rest, htx⟩, hfit, hundo⟩
    | none =>
      cases happ : c.fault.append with
      | some n =>
        simp only [if_neg hsize, if_neg hmalloc]
        exact ⟨⟨_, by rw [List.append_assoc]⟩, hfit, hundo⟩
      | none => exact absurd (by simp [appendCompletes, *]) hcomp
  case pos =>
    have hal := hal hcomp
    obtain ⟨⟨rest, htx⟩, hfit, hundo⟩ := hr
    rw [recsAfter, if_pos hcomp]
    simp only [appendCompletes, Bool.and_eq_true, bne_iff_ne, ne_eq, Bool.not_eq_true',
      Option.isNone_iff_eq_none] at hcomp
    obtain ⟨⟨⟨⟨⟨hw, hrange⟩, hsize⟩, hmalloc⟩, hread⟩, happ⟩ := hcomp
    have hrest : rest = [] := by
      simp only [Handle.logAligned, htx, Option.all_some, List.length_append, beq_iff_eq] at hal
      exact List.length_eq_zero_iff.mp (by omega)
    subst hrest
    have hbound : c.offset ≤ h.imageSize ∧ c.data.length ≤ h.imageSize - c.offset := by
      simpa [rangeOk] using hrange
    have himage := h.imageSize_lt
    let r : UndoRec := ⟨c.offset, slice h.bytes c.offset c.data.length⟩
    have hfit' : ∀ q ∈ r :: recs, q.Fits := by
      intro q hq
      rcases List.mem_cons.mp hq with rfl | hq
      · refine ⟨?_, by simpa [r] using hmalloc⟩
        simp only [r]
        omega
      · exact hfit q hq
    have hlog : encodeLog recs ++ (slice h.bytes c.offset c.data.length ++
        encodeRecord c.offset c.data.length) = encodeLog (r :: recs) := by
      simp [encodeLog, UndoRec.encode, r]
    have hback : ∀ m, m ≤ c.data.length →
        undoAll (r :: recs) (patch h.bytes c.offset m (ofList c.data)) = d := by
      intro m hm
      simp only [undoAll, r, length_slice]
      rw [patch_ofList_slice _ _ hm, hundo]
    unfold Core.writeExact transactionRecord
    simp only [hw, hrange, htx, hread, happ, if_neg hsize, hmalloc, Bool.not_true,
      Bool.false_eq_true, if_false, List.append_nil, hlog]
    cases hwrite : c.fault.write with
    | none => exact ⟨⟨[], by simp [r]⟩, hfit', hback _ le_rfl⟩
    | some w => exact ⟨⟨[], by simp [r]⟩, hfit', hback _ (Nat.min_le_right _ _)⟩

/-! ## Runs of writes -/

/-- In a run of writes from `h`, no append completes behind the remains of a broken one. -/
def AppendsAligned : Handle → List WriteCall → Prop
  | _, [] => True
  | h, c :: cs =>
    (appendCompletes h c = true → h.logAligned = true) ∧ AppendsAligned (writeExact h c).2 cs

instance AppendsAligned.decidable : ∀ h calls, Decidable (AppendsAligned h calls)
  | _, [] => isTrue trivial
  | h, c :: cs =>
    have := AppendsAligned.decidable (writeExact h c).2 cs
    inferInstanceAs (Decidable (_ ∧ _))

/-- The records after a run of writes. -/
def recsAfterAll : Handle → List WriteCall → List UndoRec → List UndoRec
  | _, [], recs => recs
  | h, c :: cs, recs => recsAfterAll (writeExact h c).2 cs (recsAfter h c recs)

theorem runWrites_extent : ∀ (h : Handle) (calls : List WriteCall),
    (runWrites h calls).writable = h.writable ∧ (runWrites h calls).imageSize = h.imageSize
  | _, [] => ⟨rfl, rfl⟩
  | h, c :: cs => by
      have ih := runWrites_extent (writeExact h c).2 cs
      have hc : (writeExact h c).2.writable = h.writable ∧
          (writeExact h c).2.imageSize = h.imageSize := by
        rcases writeExact_snd h c with h' | ⟨n, -, h'⟩ <;> rw [h']
        · exact ⟨rfl, rfl⟩
        · exact transactionRecord_extent ..
      exact ⟨ih.1.trans hc.1, ih.2.trans hc.2⟩

/-- The run lemma. -/
theorem Recorded.runWrites {d : ByteStore} : ∀ {recs : List UndoRec} {h : Handle}
    {calls : List WriteCall}, Recorded d recs h → AppendsAligned h calls →
      Recorded d (recsAfterAll h calls recs) (runWrites h calls)
  | _, _, [], hr, _ => hr
  | _, _, c :: _, hr, hal =>
      Recorded.runWrites (h := (Core.writeExact _ c).2) (hr.writeExact hal.1) hal.2

/-- Every call of the run returns 0. -/
def AllSucceed : Handle → List WriteCall → Prop
  | _, [] => True
  | h, c :: cs => (writeExact h c).1 = none ∧ AllSucceed (writeExact h c).2 cs

/-- The call leaves the byte `v` at `p` alone or writes it again. -/
def WriteCall.Keeps (c : WriteCall) (p : Nat) (v : UInt8) : Prop :=
  c.offset ≤ p → p < c.offset + c.data.length → ofList c.data (p - c.offset) = v

theorem writeExact_keeps {h : Handle} {c : WriteCall} {p : Nat} {v : UInt8} (hc : c.Keeps p v)
    (hv : h.bytes p = v) : (writeExact h c).2.bytes p = v := by
  rcases writeExact_snd h c with h' | ⟨n, hn, h'⟩ <;> rw [h']
  · exact hv
  · by_cases hp : c.offset ≤ p ∧ p < c.offset + n
    · exact (patch_of_mem hp.1 hp.2).trans (hc hp.1 (by omega))
    · exact (patch_of_not_mem (by omega)).trans hv

/-- A run that keeps a byte keeps it in the image and in every record. -/
theorem run_keeps {p : Nat} {v : UInt8} : ∀ {recs : List UndoRec} {h : Handle}
    {calls : List WriteCall}, (∀ c ∈ calls, c.Keeps p v) → h.bytes p = v → HoldsAt p v recs →
      (runWrites h calls).bytes p = v ∧ HoldsAt p v (recsAfterAll h calls recs)
  | _, _, [], _, hv, hr => ⟨hv, hr⟩
  | recs, h, c :: cs, hc, hv, hr => by
      refine run_keeps (h := (writeExact h c).2) (fun c' h' => hc c' (by simp [h']))
        (writeExact_keeps (hc c (by simp)) hv) ?_
      unfold recsAfter
      split
      · intro r hmem h₁ h₂
        rcases List.mem_cons.mp hmem with rfl | hmem
        · rw [length_slice] at h₂
          rw [ofList_slice (by omega), Nat.add_sub_cancel' h₁, hv]
        · exact hr r hmem h₁ h₂
      · exact hr

/-- Ending a recorded transaction with an error runs its records back. -/
theorem Recorded.transactionEnd_eq {d : ByteStore} {recs : List UndoRec} {h : Handle}
    (hr : Recorded d recs h) (e : Errno) (faults : Nat → Option UndoFault) (fsyncFails : Bool) :
    transactionEnd h (some e) faults fsyncFails =
      (some (if (undoRecs faults recs 0 h.bytes).1 ∨ fsyncFails then .EUCLEAN else e),
        { h with transaction := none, bytes := (undoRecs faults recs 0 h.bytes).2 }) := by
  obtain ⟨⟨rest, htx⟩, hfit, -⟩ := hr
  simp only [Core.transactionEnd, htx]
  rw [undoLoop_eq_undoRecs faults recs rest _ 0 h.bytes hfit le_rfl]

/-- Ending a recorded transaction with an error restores the bytes or reports `EUCLEAN`. -/
theorem Recorded.transactionEnd_bytes {d : ByteStore} {recs : List UndoRec} {h : Handle}
    (hr : Recorded d recs h) (e : Errno) (faults : Nat → Option UndoFault) (fsyncFails : Bool)
    (hrc : (transactionEnd h (some e) faults fsyncFails).1 ≠ some .EUCLEAN) :
    (transactionEnd h (some e) faults fsyncFails).2.bytes = d := by
  rw [hr.transactionEnd_eq] at hrc ⊢
  have hok : (undoRecs faults recs 0 h.bytes).1 = false := by
    by_contra hfail
    simp [Bool.not_eq_false _ |>.mp hfail] at hrc
  rw [undoRecs_of_ok faults recs 0 h.bytes hok]
  exact hr.2.2

/-- **Rollback.** When no append completed behind the remains of a broken one, a failed
transaction that does not report `EUCLEAN` has restored every byte. -/
theorem transactionEnd_restores (h : Handle) (calls : List WriteCall)
    (hal : AppendsAligned (transactionBegin h) calls) (e : Errno)
    (faults : Nat → Option UndoFault) (fsyncFails : Bool)
    (hrc : (transactionEnd (runWrites (transactionBegin h) calls) (some e) faults fsyncFails).1 ≠
      some .EUCLEAN) :
    (transactionEnd (runWrites (transactionBegin h) calls) (some e) faults fsyncFails).2.bytes =
      h.bytes :=
  ((Recorded.begin h).runWrites hal).transactionEnd_bytes e faults fsyncFails hrc

/-- A 4 KiB image whose bytes 64 to 79 spell the undo record of 32 bytes at offset 100. -/
def forgedRecordImage : Handle where
  bytes := patch (fun _ => 0) 64 16 (ofList (encodeRecord 100 32))
  imageSize := 4096
  imageSize_lt := by decide
  writable := true
  transaction := none

/-- Three writes; the append of the second stops after the 16 old bytes. -/
def brokenAppendCalls : List WriteCall :=
  [{ data := List.replicate 16 1, offset := 0 },
   { data := List.replicate 16 1, offset := 64, fault := { append := some 16 } },
   { data := [1], offset := 200 }]

/-- The same writes with the last append broken as well, and a torn backend write. -/
def tornWriteCalls : List WriteCall :=
  [{ data := List.replicate 16 1, offset := 0 },
   { data := List.replicate 16 1, offset := 8, fault := { write := some (5, Errno.EIO) } },
   { data := List.replicate 16 1, offset := 64, fault := { append := some 16 } },
   { data := [1], offset := 200, fault := { append := some 3 } }]

theorem transactionEnd_restores_torn :
    (transactionEnd (runWrites (transactionBegin forgedRecordImage) tornWriteCalls)
      (some .ENOSPC) (fun _ => none) false).2.bytes = forgedRecordImage.bytes :=
  transactionEnd_restores forgedRecordImage tornWriteCalls (by decide +kernel) .ENOSPC
    (fun _ => none) false (by decide +kernel)

/-- The rollback reads the 16 stray bytes as a record, reports the caller's own error, and
leaves the first write in place. -/
theorem partial_append_loses_undo :
    (transactionEnd (runWrites (transactionBegin forgedRecordImage) brokenAppendCalls)
        (some .ENOSPC) (fun _ => none) false).1 = some .ENOSPC ∧
      (transactionEnd (runWrites (transactionBegin forgedRecordImage) brokenAppendCalls)
        (some .ENOSPC) (fun _ => none) false).2.bytes 0 ≠ forgedRecordImage.bytes 0 := by
  decide +kernel

end NextUfs.Core
