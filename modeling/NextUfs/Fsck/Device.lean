/-
NextUfs.Fsck.Device — block input and output of fsck: `bread` and `bwrite` of
`src/fsck/device.c`, over `nextufs_image_pread` and `nextufs_image_pwrite` of
`src/core/layout.c`, for a filesystem opened through the image backend.

Every transfer that reaches the backend is logged as a range of the slice, so
that "which bytes does it access" is a question about the log. The
environment is an oracle for the transfers, in order, and the operator's
answer to CONTINUE. A failed backend write may change any prefix of its
range. The transfers of the dirty mark are those of `Mutate.Lifecycle` and
are not logged here.
-/
import NextUfs.Mutate.Lifecycle

namespace NextUfs.Fsck

open NextUfs.Core NextUfs.Lib NextUfs.Lib.ByteStore NextUfs.Mutate

def DEV_BSIZE : Nat := 1024

def DEV_BSHIFT : Nat := 10

/-- `dbtob(db)`: `(unsigned)(db) << DEV_BSHIFT`, a 32-bit shift. -/
def dbtob (db : Nat) : Nat := ((db % 4294967296) <<< DEV_BSHIFT) % 4294967296

/-- The fields of `struct filecntl` in use, with `use_image` set. -/
structure FileCntl where
  image : Writer
  sliceSize : Nat
  mod : Bool

/-- A transfer that reached the backend: offset in the slice, and size. -/
structure Access where
  offset : Nat
  size : Nat
  deriving DecidableEq, Repr

/-- The tests of `nextufs_image_pread` and `nextufs_image_pwrite`. -/
def sliceRangeOk (f : FileCntl) (size offset : Nat) : Bool :=
  (offset ≤ f.sliceSize && size ≤ f.sliceSize - offset) &&
    rangeOk f.image.handle size (f.image.sliceBase + offset)

/-- `nextufs_image_pread`: the bytes read, unless it fails, and the transfers made. -/
def imagePread (f : FileCntl) (size offset : Nat) (fails : Bool) :
    Option (List UInt8) × List Access :=
  if sliceRangeOk f size offset then
    (if fails then none else some (slice f.image.handle.bytes (f.image.sliceBase + offset) size),
      [⟨offset, size⟩])
  else (none, [])

/-- `nextufs_image_pwrite`: whether it succeeds, and the transfers made. No transaction is open
in fsck. -/
def imagePwrite (f : FileCntl) (data : List UInt8) (offset : Nat) (fault : Option (Nat × Errno)) :
    Bool × FileCntl × List Access :=
  if sliceRangeOk f data.length offset then
    let r := writeExact f.image.handle
      { data := data, offset := f.image.sliceBase + offset, fault := { write := fault } }
    (r.1 == none, { f with image := { f.image with handle := r.2 } }, [⟨offset, data.length⟩])
  else (false, f, [])

/-- How often `for (i = 0; i < size; i += DEV_BSIZE)` runs. -/
def sectorCount (size : Nat) : Nat := (size + (DEV_BSIZE - 1)) / DEV_BSIZE

/-! ## Reading -/

/-- What `bread` leaves: the error count, unless the program ended, the buffer, the transfers. -/
structure ReadResult where
  errs : Option Nat
  buf : List UInt8
  accesses : List Access
  deriving DecidableEq, Repr

/-- The loop of `bread` over the sectors: `n` of them to go, the next being number `k`. -/
def breadSectors (f : FileCntl) (offset : Nat) (fails : Nat → Bool) : Nat → Nat → ReadResult
  | 0, _ => ⟨some 0, [], []⟩
  | n + 1, k =>
    let r := imagePread f DEV_BSIZE (offset + k * DEV_BSIZE) (fails (k + 1))
    let rest := breadSectors f offset fails n (k + 1)
    match r.1 with
    | some data => ⟨rest.errs, data ++ rest.buf, r.2 ++ rest.accesses⟩
    | none => ⟨rest.errs.map (· + 1), List.replicate DEV_BSIZE 0 ++ rest.buf,
        r.2 ++ rest.accesses⟩

/-- `bread`. `rwerr` returns only if the operator continues. -/
def bread (f : FileCntl) (blk size : Nat) (continues : Bool) (fails : Nat → Bool) : ReadResult :=
  let offset := dbtob blk
  let r := imagePread f size offset (fails 0)
  match r.1 with
  | some data => ⟨some 0, data, r.2⟩
  | none =>
    if !continues then ⟨none, [], r.2⟩ else
    let s := breadSectors f offset fails (sectorCount size) 0
    ⟨s.errs, s.buf, r.2 ++ s.accesses⟩

/-! ## Writing -/

/-- What `bwrite` leaves: the file, whether `exitstat` was set to 8, the transfers. -/
structure WriteResult where
  file : FileCntl
  failed : Bool
  accesses : List Access

/-- The loop of `bwrite` over the sectors: `n` of them to go, the next being number `k`. `data` is
the buffer from `buf` on, as far as the caller's memory goes. -/
def bwriteSectors (data : ByteStore) (offset : Nat) (faults : Nat → Option (Nat × Errno)) :
    FileCntl → Nat → Nat → FileCntl × List Access
  | f, 0, _ => (f, [])
  | f, n + 1, k =>
    let r := imagePwrite f (slice data (k * DEV_BSIZE) DEV_BSIZE) (offset + k * DEV_BSIZE)
      (faults (k + 1))
    let rest := bwriteSectors data offset faults r.2.1 n (k + 1)
    (rest.1, r.2.2 ++ rest.2)

/-- `bwrite` once the filesystem is marked dirty. -/
def bwriteMarked (f : FileCntl) (data : ByteStore) (blk size : Nat) (continues : Bool)
    (faults : Nat → Option (Nat × Errno)) : WriteResult :=
  let offset := dbtob blk
  let r := imagePwrite f (slice data 0 size) offset (faults 0)
  if r.1 then ⟨{ r.2.1 with mod := true }, false, r.2.2⟩ else
  if !continues then ⟨r.2.1, true, r.2.2⟩ else
  let s := bwriteSectors data offset faults r.2.1 (sectorCount size) 0
  ⟨s.1, true, r.2.2 ++ s.2⟩

/-- `bwrite`. -/
def bwrite (f : FileCntl) (data : ByteStore) (blk size : Nat) (mark : BeginFaults)
    (continues : Bool) (faults : Nat → Option (Nat × Errno)) : WriteResult :=
  if !f.image.handle.writable then ⟨f, false, []⟩ else
  if f.image.fsWriteActive then bwriteMarked f data blk size continues faults else
  match writeBegin f.image mark with
  | (some _, w) => ⟨{ f with image := w }, true, []⟩
  | (none, w) => bwriteMarked { f with image := w } data blk size continues faults

end NextUfs.Fsck
