/-
NextUfs.Core.Transaction — the operation-local undo log of
`src/core/transaction.c`, and the writes that go through it
(`nextufs__write_exact` in `src/core/layout.c`).

`Handle` is the part of `struct nextufs_image` these functions touch, with
the backend's bytes in place of its context pointer. The log is the content
of the temporary file; while records are appended the file position is the
end of that content, so `tx->log` and its position are one list. `endOff` is
`tx->end`, the end of the last record whose append completed.

Every call takes the failures the environment answers with: a read of the
old bytes that fails, an append that stops after some bytes, a backend write
that changes a prefix of its range and fails, and on the way back a failed
allocation, log read, undo write or sync. A record is two native 64-bit
words, `off_t offset` and `size_t size`, little-endian.
-/
import NextUfs.Core.Image
import NextUfs.Lib.ByteStore

namespace NextUfs.Core

open NextUfs.Lib NextUfs.Lib.ByteStore

/-- `struct nextufs_transaction`: the log file's content and `tx->end`. -/
structure UndoLog where
  log : List UInt8
  endOff : Nat
  deriving DecidableEq, Repr

/-- An open image on the write path: its bytes, its extent, its open transaction. -/
structure Handle where
  bytes : ByteStore
  imageSize : Nat
  /-- `image_size` is an `off_t`. -/
  imageSize_lt : imageSize < 9223372036854775808
  writable : Bool
  transaction : Option UndoLog

/-- What the environment does to one `nextufs__write_exact`. -/
structure WriteFault where
  /-- `malloc` or the read of the old bytes fails. -/
  read : Option Errno := none
  /-- The append stops after this many bytes (`fwrite` short, or `ftello` failing after all). -/
  append : Option Nat := none
  /-- The backend write changes this many bytes and fails. -/
  write : Option (Nat × Errno) := none
  deriving DecidableEq, Repr

/-- One call of `nextufs__write_exact` with its outcome. -/
structure WriteCall where
  data : List UInt8
  offset : Nat
  fault : WriteFault := {}
  deriving DecidableEq, Repr

/-- `sizeof(struct undo_record)`. -/
def recordSize : Nat := 16

/-- `malloc` refuses a request that its own header carries past `PTRDIFF_MAX`. -/
def mallocRefuses (size : Nat) : Bool := 9223372036854775808 ≤ recordSize + size

/-- The bytes of `struct undo_record`. -/
def encodeRecord (offset size : Nat) : List UInt8 := le64 offset ++ le64 size

/-! ## Recording and writing -/

/-- `nextufs__transaction_begin`, once `tmpfile` succeeded. -/
def transactionBegin (h : Handle) : Handle :=
  { h with transaction := some { log := [], endOff := 0 } }

/-- `nextufs__transaction_record`. -/
def transactionRecord (h : Handle) (size offset : Nat) (fault : WriteFault) : Status × Handle :=
  match h.transaction with
  | none => (none, h)
  | some tx =>
    if size = 0 then (none, h) else
    if mallocRefuses size then (some .ENOMEM, h) else
    match fault.read with
    | some e => (some e, h)
    | none =>
      let appended := slice h.bytes offset size ++ encodeRecord offset size
      match fault.append with
      | some n =>
        (some Errno.EIO, { h with transaction := some { tx with log := tx.log ++ appended.take n } })
      | none =>
        let log := tx.log ++ appended
        (none, { h with transaction := some { log := log, endOff := log.length } })

/-- The range test shared by `nextufs__read_exact` and `nextufs__write_exact`. -/
def rangeOk (h : Handle) (size offset : Nat) : Bool :=
  offset ≤ h.imageSize && size ≤ h.imageSize - offset

/-- `nextufs__write_exact`. -/
def writeExact (h : Handle) (c : WriteCall) : Status × Handle :=
  if !h.writable then (some .EROFS, h) else
  if !rangeOk h c.data.length c.offset then (some .EINVAL, h) else
  match transactionRecord h c.data.length c.offset c.fault with
  | (some e, h') => (some e, h')
  | (none, h') =>
    match c.fault.write with
    | some (n, e) =>
      (some e, { h' with bytes := patch h'.bytes c.offset (min n c.data.length) (ofList c.data) })
    | none => (none, { h' with bytes := patch h'.bytes c.offset c.data.length (ofList c.data) })

/-- The handle after a sequence of writes, each result ignored. -/
def runWrites (h : Handle) (calls : List WriteCall) : Handle :=
  calls.foldl (fun h c => (writeExact h c).2) h

/-! ## Rolling back -/

/-- What can go wrong while one record is undone. -/
inductive UndoFault where
  | noMem
  | logRead
  /-- The backend write changes this many bytes and fails. -/
  | write (n : Nat)
  deriving DecidableEq, Repr

/-- `(off_t)` of an unsigned 64-bit word. -/
def toOff (v : Nat) : Int := if v < 9223372036854775808 then v else (v : Int) - 18446744073709551616

/-- The undo loop of `nextufs__transaction_end`; the flag is `failed`. `i` numbers the records
undone so far, for the faults. A write of no bytes makes no `pwrite`, so a negative offset fails
only where there are bytes. Each turn takes at least `recordSize` bytes off `endOff`, so `endOff`
turns are always enough (`undoLoop_fuel`). -/
def undoLoop (log : List UInt8) (faults : Nat → Option UndoFault) :
    Nat → Nat → Nat → ByteStore → Bool × ByteStore
  | 0, _, endOff, d => (decide (0 < endOff), d)
  | fuel + 1, i, endOff, d =>
    if endOff = 0 then (false, d) else
    if endOff < recordSize ∨ log.length < endOff then (true, d) else
    let offset := readLe64 (log.drop (endOff - recordSize))
    let size := readLe64 (log.drop (endOff - recordSize + 8))
    if faults i = some .noMem ∨ mallocRefuses size then (true, d) else
    if faults i = some .logRead ∨ endOff < recordSize + size then (true, d) else
    let start := endOff - (recordSize + size)
    let buf := (log.drop start).take size
    if toOff offset < 0 ∧ size ≠ 0 then (true, d) else
    match faults i with
    | some (.write n) => (true, patch d offset (min n size) (ofList buf))
    | _ => undoLoop log faults fuel (i + 1) start (patch d offset size (ofList buf))

/-- `nextufs__transaction_end`. The undo writes go to the backend directly. -/
def transactionEnd (h : Handle) (status : Status) (faults : Nat → Option UndoFault)
    (fsyncFails : Bool) : Status × Handle :=
  match h.transaction with
  | none => (status, h)
  | some tx =>
    match status with
    | none => (none, { h with transaction := none })
    | some e =>
      let r := undoLoop tx.log faults tx.endOff 0 tx.endOff h.bytes
      (some (if r.1 ∨ fsyncFails then .EUCLEAN else e),
        { h with transaction := none, bytes := r.2 })

end NextUfs.Core
