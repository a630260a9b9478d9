/-
NextUfs.Mutate.Lifecycle — marking the filesystem dirty and clean around a
mutation: `nextufs__write_begin` and `nextufs__write_finish` of
`src/core/image.c`, and `nextufs_write_session_open`,
`nextufs__open_image_rw` and `finish_mutation` of `src/mutate/mutate.c`.

`Writer` is the open image with the two flags and the cached state byte these
functions use. The mutation between open and finish is a `Body`: the calls of
`nextufs__write_exact` it made, each with its outcome, and the status it
ended with. Failing backend writes may change any prefix of their range;
every result the C code casts to `(void)` is ignored here as well.
-/
import NextUfs.Core.Transaction

namespace NextUfs.Mutate

open NextUfs.Core NextUfs.Lib.ByteStore

/-- The offset of the state byte in the superblock. -/
def SB_STATE_OFF : Nat := 0xd1

def FS_STATE_CLEAN : UInt8 := 1
def FS_STATE_DIRTY : UInt8 := 2
def FS_STATE_CORRUPTED : UInt8 := 3

/-- The parts of `struct nextufs_image` the write lifecycle uses. -/
structure Writer where
  handle : Handle
  sliceBase : Nat
  sbState : UInt8
  restoreClean : Bool
  fsWriteActive : Bool

/-- Where the state byte lies in the image. -/
def Writer.stateOff (img : Writer) : Nat := img.sliceBase + UFS_SBLOCK_OFFSET + SB_STATE_OFF

/-- The state byte on disk. -/
def Writer.diskState (img : Writer) : UInt8 := img.handle.bytes img.stateOff

/-- `nextufs__image_fsync`; the fault is the backend's answer. -/
def imageFsync (h : Handle) (fault : Status) : Status := if h.writable then fault else none

/-- `nextufs__write_exact` of one byte at the state offset. -/
def writeState (img : Writer) (v : UInt8) (fault : Option (Nat × Errno)) : Status × Writer :=
  let r := writeExact img.handle
    { data := [v], offset := img.stateOff, fault := { write := fault } }
  (r.1, { img with handle := r.2 })

/-- The pair both functions below use: write the state byte and, if that succeeded, sync. -/
def publishState (img : Writer) (v : UInt8) (mark : Option (Nat × Errno)) (sync : Status) :
    Status × Writer :=
  match writeState img v mark with
  | (none, w) => (imageFsync w.handle sync, w)
  | (some e, w) => (some e, w)

/-! ## Begin and finish -/

/-- The state `nextufs__write_begin` publishes. -/
def dirtyState (original : UInt8) : UInt8 :=
  if original = FS_STATE_CLEAN then FS_STATE_DIRTY else FS_STATE_CORRUPTED

/-- The environment's answers to `nextufs__write_begin`. -/
structure BeginFaults where
  mark : Option (Nat × Errno) := none
  sync : Status := none
  restore : Option (Nat × Errno) := none

/-- `nextufs__write_begin`. -/
def writeBegin (img : Writer) (f : BeginFaults) : Status × Writer :=
  match publishState { img with restoreClean := img.sbState == FS_STATE_CLEAN }
      (dirtyState img.sbState) f.mark f.sync with
  | (none, w) => (none, { w with sbState := dirtyState img.sbState, fsWriteActive := true })
  | (some e, w) => (some e, (writeState w img.sbState f.restore).2)

/-- The environment's answers to `nextufs__write_finish`. -/
structure FinishFaults where
  sync : Status := none
  mark : Option (Nat × Errno) := none
  markSync : Status := none
  withdraw : Option (Nat × Errno) := none

/-- `nextufs__write_finish`. -/
def writeFinish (img : Writer) (safe : Bool) (f : FinishFaults) : Status × Writer :=
  if !safe || !img.restoreClean then (none, img) else
  match imageFsync img.handle f.sync with
  | some e => (some e, img)
  | none =>
    match publishState img FS_STATE_CLEAN f.mark f.markSync with
    | (none, w) => (none, { w with sbState := FS_STATE_CLEAN, restoreClean := false })
    | (some e, w) => (some e, (writeState w FS_STATE_DIRTY f.withdraw).2)

/-! ## One mutation -/

/-- What a mutation does between `nextufs__open_image_rw` and `finish_mutation`. -/
structure Body where
  calls : List WriteCall
  rc : Status

/-- The environment's answers to one mutation. -/
structure MutationFaults where
  begin : BeginFaults := {}
  /-- `nextufs__transaction_begin` finds no temporary file. -/
  tmpfile : Status := none
  abandon : FinishFaults := {}
  commit : FinishFaults := {}
  undo : Nat → Option UndoFault := fun _ => none
  undoSync : Bool := false
  finish : FinishFaults := {}

/-- The first half of `finish_mutation`: the commit of a one-shot mutation with the transaction
set aside, then `nextufs__transaction_end`. -/
def commitOrRecover (session : Bool) (img : Writer) (rc : Status) (f : MutationFaults) :
    Status × Writer :=
  let tx := img.handle.transaction
  let r :=
    if !session && rc == none then
      let c := writeFinish { img with handle := { img.handle with transaction := none } } true
        f.commit
      (c.1, { c.2 with handle := { c.2.handle with transaction := tx } })
    else (rc, img)
  let t := transactionEnd r.2.handle r.1 f.undo f.undoSync
  (t.1, { r.2 with handle := t.2 })

/-- What a mutation leaves: whether it got past `nextufs__open_image_rw`, what
`nextufs__transaction_end` reported, the result of the call and the image. -/
structure Outcome where
  opened : Bool
  recovery : Status
  rc : Status
  img : Writer

/-- A one-shot mutation from `nextufs__open_image_rw` to the return of `finish_mutation`. -/
def mutateOneShot (img : Writer) (body : Body) (f : MutationFaults) : Outcome :=
  match writeBegin img f.begin with
  | (some e, img) => { opened := false, recovery := none, rc := some e, img := img }
  | (none, img) =>
    match f.tmpfile with
    | some e =>
      { opened := false, recovery := none, rc := some e,
        img := (writeFinish img true f.abandon).2 }
    | none =>
      let img := { img with handle := runWrites (transactionBegin img.handle) body.calls }
      let t := commitOrRecover false img body.rc f
      let w := writeFinish t.2 (t.1 != some .EUCLEAN) f.finish
      { opened := true, recovery := t.1, rc := if w.1 = none then t.1 else w.1, img := w.2 }

/-! ## Sessions -/

/-- `struct nextufs_write_session`. -/
structure Session where
  image : Writer
  failed : Bool

/-- `nextufs_write_session_open` on an image opened for writing. -/
def writeSessionOpen (img : Writer) (f : BeginFaults) : Status × Session :=
  let r := writeBegin img f
  (r.1, { image := r.2, failed := false })

/-- A mutation inside a session. `refresh` is the result of `nextufs__image_refresh`. -/
def mutateInSession (s : Session) (body : Body) (f : MutationFaults) (refresh : Status) :
    Outcome × Session :=
  if s.failed then
    ({ opened := false, recovery := none, rc := some Errno.EIO, img := s.image }, s)
  else
    match f.tmpfile with
    | some e => ({ opened := false, recovery := none, rc := some e, img := s.image }, s)
    | none =>
      let img := { s.image with handle := runWrites (transactionBegin s.image.handle) body.calls }
      let t := commitOrRecover true img body.rc f
      let image := { t.2 with sbState := t.2.diskState }
      ({ opened := true, recovery := t.1, rc := if t.1 = none then refresh else t.1, img := image },
        { image := image, failed := t.1 == some .EUCLEAN || refresh.isSome })

/-- A session through a sequence of mutations. -/
def runSession (s : Session) (ms : List (Body × MutationFaults × Status)) : Session :=
  ms.foldl (fun s m => (mutateInSession s m.1 m.2.1 m.2.2).2) s

end NextUfs.Mutate
