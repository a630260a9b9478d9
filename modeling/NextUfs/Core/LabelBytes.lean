/-
NextUfs.Core.LabelBytes — disk labels as bytes: the writer, the decoder and
the patcher of `src/core/label.c`.

A label is read through a window, the bytes of the file from the place of the
label on; its fields lie at fixed places of the window. `NextUfs.Core.Label`
works on what the decoder makes of them. The patcher reads 1632 bytes at every
sector of the first 128 KiB, changes two fields and writes them all back.
Opening the file and the host's own read and write errors are left out; a read
past the end of the file fails.
-/
import NextUfs.Core.Label
import NextUfs.Lib.ByteStore

namespace NextUfs.Core

open NextUfs.Lib NextUfs.Lib.ByteStore

def DEV_SECTOR_SIZE : Nat := 512
def LABEL_COPY_COUNT : Nat := 4
def LABEL_COPY_STRIDE : Nat := 7680
def LABEL_VALIDATE_SIZE : Nat := 0x660
def LABEL_WRITE_SIZE : Nat := 0x300
def LABEL_CKSUM_SIZE : Nat := 0x230
def NEXTUFS_LABEL_SECTOR_SIZE : Nat := 1024
def NEXTUFS_LABEL_FRONT_PORCH_BYTES : Nat := 160 * 1024
def DL_V1 : Nat := 0x4e655854
def DL_V2 : Nat := 0x646c5632
def DL_V3 : Nat := 0x646c5633
def DL_V3_CKSUM_OFF : Nat := 0x22e
def DL_CKSUM_OFF : Nat := 0x1c58

/-- `DL_DISKTAB_OFF + DT_SECSIZE_OFF`, and so on. -/
def SECSIZE_OFF : Nat := 0x2c + 0x32
def FRONT_OFF : Nat := 0x2c + 0x44
def ROOTPART_OFF : Nat := 0x2c + 0x90

/-- `DL_DISKTAB_OFF + DT_PARTITIONS_OFF + i * DT_PARTITION_SIZE`. -/
def partOff (i : Nat) : Nat := 0x2c + 0x94 + i * 0x40

/-! ## Words -/

/-- `read_be24`. -/
def be24 (b : ByteStore) (p : Nat) : Nat := (b p).toNat * 65536 + be16 b (p + 1)

/-- `write_be24`. -/
def setBe24 (b : ByteStore) (p v : Nat) : ByteStore := patch b p 3 (beBytes 3 v)

/-- `checksum_be16`. -/
def checksumBe16 (buf : ByteStore) (size : Nat) : Nat :=
  (List.range (size / 2)).foldl (fun sum i =>
    let sum := sum + be16 buf (2 * i)
    if sum > 65535 then sum - 65535 else sum) 0

/-- `put_string`. -/
def putString (dst : ByteStore) (p len : Nat) (s : List UInt8) : ByteStore :=
  patch dst p (if s.length ≥ len then len - 1 else s.length) (ofList s)

/-- `copy_cstr_field`: the bytes before the first NUL. -/
def copyCstrField (src : ByteStore) (p src_size : Nat) : List UInt8 :=
  (slice src p src_size).takeWhile (· ≠ 0)

/-- The first `LABEL_CKSUM_SIZE` bytes as they are summed: without block number and checksum. -/
def summed (label : ByteStore) : ByteStore :=
  patch (patch label 4 4 fun _ => 0) DL_V3_CKSUM_OFF 2 fun _ => 0

/-- The bytes of a file from a place on. -/
def window (file : ByteStore) (off : Nat) : ByteStore := fun i => file (off + i)

/-! ## Decoding -/

/-- `nextufs_label_is_version`, with the version. -/
def labelVersion (label : ByteStore) : Option LabelVersion :=
  if be32 label 0 = DL_V1 then some .v1
  else if be32 label 0 = DL_V2 then some .v2
  else if be32 label 0 = DL_V3 then some .v3
  else none

/-- A partition entry. -/
def labelPartitionAt (label : ByteStore) (i : Nat) : LabelPartition where
  base := be24 label (partOff i)
  size := be24 label (partOff i + 3)
  blockSize := be16 label (partOff i + 6)
  fragSize := be16 label (partOff i + 8)
  type := slice label (partOff i + 0x23) 8

/-- `struct nextufs_disk_label`; what choosing a slice reads is `copy`. -/
structure DiskLabel where
  copy : LabelCopy
  labelBlkno : Nat
  name : List UInt8
  checksum : Nat
  checksumPresent : Bool
  checksumValid : Bool
  deriving DecidableEq, Repr

/-- The checksum word of a label. -/
def labelChecksum (label : ByteStore) (version : LabelVersion) : Nat :=
  if version = .v3 then be16 label DL_V3_CKSUM_OFF else be16 label DL_CKSUM_OFF

/-- The record `nextufs_label_decode` fills in. -/
def diskLabel (buf : ByteStore) (off : Nat) (version : LabelVersion) : DiskLabel :=
  let checksum := labelChecksum buf version
  let present := decide (checksum ≠ 0)
  let valid := decide (version = .v3) &&
    decide (checksumBe16 (summed buf) LABEL_CKSUM_SIZE = checksum)
  { copy :=
      { labelOff := off, version := version
        secsize := be16 buf SECSIZE_OFF
        front := be16 buf FRONT_OFF
        rootpartition := (buf ROOTPART_OFF).toNat
        part := (List.range NEXTUFS_LABEL_PART_COUNT).map (labelPartitionAt buf)
        checksumOk := !present || valid }
    labelBlkno := be32 buf 4
    name := copyCstrField buf 0xc 24
    checksum := checksum
    checksumPresent := present
    checksumValid := valid }

/-- `nextufs_label_decode`. -/
def nextufsLabelDecode (buf : ByteStore) (size off : Nat) : Option DiskLabel :=
  if size < NEXTUFS_LABEL_DECODE_SIZE then none else
  match labelVersion buf with
  | none => none
  | some version =>
    let dl := diskLabel buf off version
    if labelDecode dl.copy = true ∧ dl.labelBlkno * DEV_SECTOR_SIZE = off then some dl else none

/-- `nextufs_label_pick_slice`. -/
def nextufsLabelPickSlice (dl : DiskLabel) : Option (Nat × Nat) := labelPickSlice dl.copy

/-! ## Writing -/

/-- The header and the disk description of `write_label_copy`. -/
def labelHead (off total_blocks ncyl : Nat) (label : List UInt8) : ByteStore :=
  let buf := setBe32 (fun _ => 0) 0 DL_V3
  let buf := setBe32 buf 4 (off / DEV_SECTOR_SIZE)
  let buf := setBe32 buf 8 total_blocks
  let buf := putString buf 0xc 24 label
  let buf := putString buf 0x2c 24 [0x6e, 0x65, 0x78, 0x74, 0x75, 0x66, 0x73]
  let buf := putString buf (0x2c + 0x18) 24
    [0x66, 0x69, 0x78, 0x65, 0x64, 0x5f, 0x72, 0x77, 0x5f, 0x73, 0x63, 0x73, 0x69]
  let buf := setBe16 buf SECSIZE_OFF NEXTUFS_LABEL_SECTOR_SIZE
  let buf := setBe16 buf (0x2c + 0x36) 4
  let buf := setBe16 buf (0x2c + 0x3a) 32
  let buf := setBe16 buf (0x2c + 0x3e) ncyl
  let buf := setBe16 buf (0x2c + 0x42) 3600
  let buf := setBe16 buf FRONT_OFF (NEXTUFS_LABEL_FRONT_PORCH_BYTES / NEXTUFS_LABEL_SECTOR_SIZE)
  let buf := setBe16 buf (0x2c + 0x46) 0
  let buf := setBe32 buf (0x2c + 0x56) 32
  let buf := setBe32 buf (0x2c + 0x5a) 96
  let buf := putString buf (0x2c + 0x58) 24 [0x73, 0x64, 0x6d, 0x61, 0x63, 0x68]
  let buf := putString buf (0x2c + 0x70) 32 [0x6c, 0x6f, 0x63, 0x61, 0x6c, 0x68, 0x6f, 0x73, 0x74]
  let buf := patch buf ROOTPART_OFF 1 fun _ => 0x61
  patch buf (0x2c + 0x91) 1 fun _ => 0x62

/-- The partition table of `write_label_copy`: one partition, the other entries all ones. -/
def labelTable (buf : ByteStore) (slice_blocks : Nat) : ByteStore :=
  let buf := patch buf (partOff 0) (NEXTUFS_LABEL_PART_COUNT * 0x40) fun _ => 0xff
  let buf := patch buf (partOff 0) 0x40 fun _ => 0
  let buf := setBe24 buf (partOff 0) 0
  let buf := setBe24 buf (partOff 0 + 3) slice_blocks
  let buf := setBe16 buf (partOff 0 + 6) 8192
  let buf := setBe16 buf (partOff 0 + 8) 1024
  let buf := patch buf (partOff 0 + 0xa) 1 fun _ => 0x74
  let buf := setBe16 buf (partOff 0 + 0xc) 16
  let buf := setBe16 buf (partOff 0 + 0xe) 4096
  let buf := patch buf (partOff 0 + 0x10) 1 fun _ => 10
  let buf := patch buf (partOff 0 + 0x11) 1 fun _ => 1
  let buf := patch buf (partOff 0 + 0x22) 1 fun _ => 1
  putString buf (partOff 0 + 0x23) 8 bsdType

/-- The buffer of `write_label_copy`. -/
def labelBuffer (off total_blocks slice_blocks ncyl : Nat) (label : List UInt8) : ByteStore :=
  let buf := summed (labelTable (labelHead off total_blocks ncyl label) slice_blocks)
  let buf := setBe16 buf DL_V3_CKSUM_OFF (checksumBe16 buf LABEL_CKSUM_SIZE)
  setBe32 buf 4 (off / DEV_SECTOR_SIZE)

/-- `write_label_copy`. -/
def writeLabelCopy (off total_blocks slice_blocks ncyl : Nat) (label : List UInt8)
    (file : ByteStore) : ByteStore :=
  patch file off LABEL_WRITE_SIZE (labelBuffer off total_blocks slice_blocks ncyl label)

/-- `nextufs_label_write_path`; the label has no NUL. -/
def nextufsLabelWritePath (image_bytes slice_bytes : Nat) (label : List UInt8)
    (file : ByteStore) : Except Errno ByteStore :=
  let total_blocks := image_bytes / NEXTUFS_LABEL_SECTOR_SIZE % 4294967296
  let slice_blocks := slice_bytes / NEXTUFS_LABEL_SECTOR_SIZE % 4294967296
  let ncyl := total_blocks / (4 * 32)
  if total_blocks > 0xffffff ∨ slice_blocks > 0xffffff then .error Errno.EFBIG
  else if ncyl > 0xffff then .error Errno.EFBIG
  else .ok ((List.range LABEL_COPY_COUNT).foldl (fun file i =>
    writeLabelCopy (i * LABEL_COPY_STRIDE) total_blocks slice_blocks ncyl label file) file)

/-! ## Patching -/

/-- The window with a new size for partition `i`, and for version 3 a new checksum. -/
def patchedLabel (label : ByteStore) (version : LabelVersion) (i size_blocks : Nat) : ByteStore :=
  let label := setBe24 label (partOff i + 3) size_blocks
  if version = .v3 then
    setBe16 label DL_V3_CKSUM_OFF (checksumBe16 (summed label) LABEL_CKSUM_SIZE)
  else label

/-- `patch_one_label_partition_size` on a file of `size` bytes; the flag is `*patched_out`. -/
def patchOneLabel (size slice_base slice_bytes label_off : Nat) (file : ByteStore) :
    Except Errno (ByteStore × Bool) :=
  if size < label_off + LABEL_VALIDATE_SIZE then .error Errno.EIO else
  let label := window file label_off
  match labelVersion label with
  | none => .ok (file, false)
  | some version =>
    if be32 label 4 * DEV_SECTOR_SIZE ≠ label_off then .ok (file, false) else
    let secsize := be16 label SECSIZE_OFF
    let front := be16 label FRONT_OFF
    let rootpartition := (label ROOTPART_OFF).toNat
    if rootpartition < 97 ∨ 97 + NEXTUFS_LABEL_PART_COUNT ≤ rootpartition ∨ secsize = 0 ∨
        slice_bytes % secsize ≠ 0 then .ok (file, false) else
    let size_blocks := slice_bytes / secsize % 4294967296
    if size_blocks > 0xffffff then .error Errno.EFBIG
    else if (front + be24 label (partOff (rootpartition - 97))) * secsize ≠ slice_base then
      .ok (file, false)
    else .ok (patch file label_off LABEL_VALIDATE_SIZE
      (patchedLabel label version (rootpartition - 97) size_blocks), true)

/-- The loop of `nextufs_label_patch_slice_size_fd`: `n` places to go, the next at `off`. -/
def patchLabelsLoop (size slice_base slice_bytes : Nat) :
    Nat → Nat → ByteStore → Except Errno (ByteStore × Nat)
  | 0, _, file => .ok (file, 0)
  | n + 1, off, file =>
    match patchOneLabel size slice_base slice_bytes off file with
    | .error e => .error e
    | .ok (file, did_patch) =>
      match patchLabelsLoop size slice_base slice_bytes n (off + DEV_SECTOR_SIZE) file with
      | .error e => .error e
      | .ok (file, patched) => .ok (file, patched + if did_patch then 1 else 0)

/-- The sectors at which a label may start. -/
def labelPlaces : Nat := (NEXTUFS_LABEL_SCAN_LIMIT - LABEL_VALIDATE_SIZE) / DEV_SECTOR_SIZE + 1

/-- `nextufs_label_patch_slice_size_fd`. -/
def nextufsLabelPatchSliceSize (size slice_base slice_bytes : Nat) (file : ByteStore) :
    Except Errno ByteStore :=
  match patchLabelsLoop size slice_base slice_bytes labelPlaces 0 file with
  | .error e => .error e
  | .ok (file, patched) => if patched = 0 then .error Errno.EINVAL else .ok file

end NextUfs.Core
