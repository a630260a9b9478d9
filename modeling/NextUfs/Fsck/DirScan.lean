/-
NextUfs.Fsck.DirScan — directory blocks in fsck: `swap_dirblock` of
`src/fsck/byteorder.c`, `getblk` and `flush` of `src/fsck/buffer.c` for the
buffer of directories, and `dirscan`, `fsck_readdir` and `dircheck` of
`src/fsck/dir_scan.c`.

The disk is big-endian and the host little-endian (`needswap`): a buffer is
bytes, its records are read as the host reads them, and swapping a record
reverses the bytes of its three words in place. Every question is answered
yes. The callback is a parameter: it gets the bytes of a record, and may hand
others back.
-/
import NextUfs.Core.Image
import NextUfs.Lib.HostFile

namespace NextUfs.Fsck

open NextUfs.Core NextUfs.Lib NextUfs.Lib.ByteStore

def MAXNAMLEN : Nat := 255

/-! ## Records in the host's order -/

/-- The 16-bit little-endian word at `p`. -/
def le16At (d : ByteStore) (p : Nat) : Nat := (d p).toNat + 256 * (d (p + 1)).toNat

/-- Store the 16-bit little-endian word `v` at `p`. -/
def setLe16 (d : ByteStore) (p v : Nat) : ByteStore := patch d p 2 (leBytes v)

/-- Store the 32-bit little-endian word `v` at `p`. -/
def setLe32 (d : ByteStore) (p v : Nat) : ByteStore := patch d p 4 (leBytes v)

/-- `d_ino`. -/
def dIno (b : ByteStore) (p : Nat) : Nat := le32At b p

/-- `d_reclen`. -/
def dReclen (b : ByteStore) (p : Nat) : Nat := le16At b (p + 4)

/-- `d_namlen`. -/
def dNamlen (b : ByteStore) (p : Nat) : Nat := le16At b (p + 6)

/-- `DIRSIZ`, of a name's length. -/
def DIRSIZ (namlen : Nat) : Nat := 8 + (namlen + 1 + 3) / 4 * 4

/-! ## Byte order -/

/-- The `n` bytes from `p` reversed. -/
def reverseBytes (b : ByteStore) (p n : Nat) : ByteStore := patch b p n fun i => b (p + (n - 1 - i))

/-- The words of one record swapped. -/
def swapDirect (b : ByteStore) (p : Nat) : ByteStore :=
  reverseBytes (reverseBytes (reverseBytes b p 4) (p + 4) 2) (p + 6) 2

/-- The loop of `swap_dirblock`. The record length is taken where it is in the host's order. Every
turn moves on, so `size` turns are enough. -/
def swapDirblockLoop (size : Nat) (dir_write_pass : Bool) : Nat → Nat → ByteStore → ByteStore
  | 0, _, b => b
  | fuel + 1, off, b =>
    if off + 8 ≤ size then
      let reclen := if dir_write_pass then dReclen b off else dReclen (swapDirect b off) off
      if reclen = 0 ∨ off + reclen > size then swapDirect b off
      else swapDirblockLoop size dir_write_pass fuel (off + reclen) (swapDirect b off)
    else b

/-- `swap_dirblock`. -/
def swapDirblock (b : ByteStore) (size : Nat) (dir_write_pass : Bool) : ByteStore :=
  swapDirblockLoop size dir_write_pass size 0 b

/-! ## Checking and reading records -/

/-- The name of a record in use is made of allowed bytes, and ends where it should. -/
def NameOk (b : ByteStore) (p namlen : Nat) : Prop :=
  (∀ i < namlen, b (p + 8 + i) ≠ 0 ∧ b (p + 8 + i) ≠ 0x2f) ∧ b (p + 8 + namlen) = 0

instance (b : ByteStore) (p namlen : Nat) : Decidable (NameOk b p namlen) := by
  unfold NameOk
  infer_instance

/-- `dircheck`, of the record at `id_loc`. -/
def dircheck (imax : Nat) (b : ByteStore) (id_loc : Nat) (id_filesize : Int) : Bool :=
  let size := DIRSIZ (dNamlen b id_loc)
  let spaceleft := DIRBLKSIZ - id_loc % DIRBLKSIZ
  decide (dIno b id_loc < imax ∧ dReclen b id_loc ≠ 0 ∧ dReclen b id_loc ≤ spaceleft ∧
    dReclen b id_loc % 4 = 0 ∧ size ≤ dReclen b id_loc ∧ (size : Int) ≤ id_filesize ∧
    dNamlen b id_loc ≤ MAXNAMLEN ∧
    (dIno b id_loc = 0 ∨ NameOk b id_loc (dNamlen b id_loc)))

/-- The buffer of directories with the position of a scan in it. -/
structure Scan where
  /-- `fileblk.b_un.b_buf`. -/
  buf : ByteStore
  /-- `fileblk.b_dirty`. -/
  dirty : Bool
  id_loc : Nat
  id_filesize : Int
  /-- How often `DIRECTORY CORRUPTED` was found. -/
  corrupted : Nat

/-- A corrupt block becomes one unused record. -/
def clearBlock (b : ByteStore) (p : Nat) : ByteStore :=
  patch (setLe16 (setLe32 (setLe16 b (p + 4) DIRBLKSIZ) p 0) (p + 6) 0) (p + 8) 1 fun _ => 0

/-- The rest of the block after a corrupt record goes to the record before it. -/
def absorbRest (imax blksiz p : Nat) (s : Scan) : Scan :=
  if s.id_loc % DIRBLKSIZ = 0 then s else
  if s.id_loc < blksiz ∧ 0 < s.id_filesize ∧ dircheck imax s.buf s.id_loc s.id_filesize = false then
    let size := DIRBLKSIZ - s.id_loc % DIRBLKSIZ
    { buf := setLe16 s.buf (p + 4) (dReclen s.buf p + size), dirty := true,
      id_loc := s.id_loc + size, id_filesize := s.id_filesize - size,
      corrupted := s.corrupted + 1 }
  else s

/-- `fsck_readdir`: the offset of the next record. -/
def fsckReaddir (imax blksiz : Nat) (s : Scan) : Option Nat × Scan :=
  let p := s.id_loc
  if p % DIRBLKSIZ = 0 ∧ 0 < s.id_filesize ∧ p < blksiz ∧
      dircheck imax s.buf p s.id_filesize = false then
    (some p, { buf := clearBlock s.buf p, dirty := true, id_loc := p + DIRBLKSIZ,
               id_filesize := s.id_filesize - DIRBLKSIZ, corrupted := s.corrupted + 1 })
  else if s.id_filesize ≤ 0 ∨ p ≥ blksiz then (none, s)
  else
    (some p, absorbRest imax blksiz p { s with
      id_loc := p + dReclen s.buf p, id_filesize := s.id_filesize - dReclen s.buf p })

/-- What a callback makes of a record: its own state, the bytes, and the flags it returns. -/
structure Handled (σ : Type) where
  state : σ
  bytes : ByteStore
  altered : Bool
  stop : Bool

/-- A callback, given the record's bytes and length. -/
abbrev DirFunc (σ : Type) := σ → ByteStore → Nat → Handled σ

section
variable {σ : Type} (imax blksiz : Nat) (id_func : DirFunc σ)

/-- The loop of `dirscan`; the flag is `STOP`. Every turn moves on, so one more turn than there are
bytes is enough. -/
def dirscanLoop : Nat → Scan → σ → Scan × σ × Bool
  | 0, s, a => (s, a, false)
  | fuel + 1, s, a =>
    match fsckReaddir imax blksiz s with
    | (none, s) => (s, a, false)
    | (some p, s) =>
      let dsize := dReclen s.buf p
      let h := id_func a (fun i => s.buf (p + i)) dsize
      let s := if h.altered then { s with buf := patch s.buf p dsize h.bytes, dirty := true } else s
      if h.stop then (s, h.state, true) else dirscanLoop fuel s h.state

/-- `dirscan`, of a block in range that is in the buffer. `id_filesize` is whole blocks. -/
def dirscan (s : Scan) (a : σ) : Scan × σ × Bool :=
  dirscanLoop imax blksiz id_func (blksiz + 1) { s with id_loc := 0 } a

end

/-! ## The block on disk -/

/-- `getblk`, of a block that is read without error. -/
def getblk (disk : ByteStore) (size : Nat) : ByteStore := swapDirblock disk size false

/-- `flush`: what is on disk afterwards. -/
def flush (disk buf : ByteStore) (size : Nat) (dirty : Bool) : ByteStore :=
  if dirty then patch disk 0 size (swapDirblock buf size true) else disk

/-- A directory block read, scanned and flushed: the bytes on disk afterwards. `id_filesize` is
how much of the directory is left. -/
def scanBlock {σ : Type} (imax blksiz : Nat) (id_func : DirFunc σ) (id_filesize : Int) (a : σ)
    (disk : ByteStore) : ByteStore :=
  let s := (dirscan imax blksiz id_func
    ⟨getblk disk blksiz, false, 0, id_filesize, 0⟩ a).1
  flush disk s.buf blksiz s.dirty

end NextUfs.Fsck
