/-
NextUfs.Lib.HostFile — a file of the host as an exact byte array, and the
little-endian words laid out in it.

A file has a size and bytes; past its size every byte is zero, so that a
write behind the end leaves a hole that reads as zeros. `write` is one
`pwrite`, of as many bytes as were stored. Two comparisons carry the frame
arguments: `AgreeOff`, for files that differ in a range at most, and
`AgreeBelow`, for files with the same first bytes; neither lets a file shrink.

Nothing here mentions a disk image.
-/
import NextUfs.Lib.ByteStore

namespace NextUfs.Lib

namespace ByteStore

/-! ## Little-endian words -/

/-- The 32-bit little-endian word at `p`. -/
def le32At (d : ByteStore) (p : Nat) : Nat :=
  (d p).toNat + 256 * ((d (p + 1)).toNat + 256 * ((d (p + 2)).toNat + 256 * (d (p + 3)).toNat))

/-- The 64-bit little-endian word at `p`. -/
def le64At (d : ByteStore) (p : Nat) : Nat := le32At d p + 4294967296 * le32At d (p + 4)

/-- The little-endian bytes of `v`, as a store. -/
def leBytes (v : Nat) : ByteStore := fun i => UInt8.ofNat (v / 256 ^ i)

theorem le32At_lt (d : ByteStore) (p : Nat) : le32At d p < 4294967296 := by
  have h₀ := (d p).toNat_lt
  have h₁ := (d (p + 1)).toNat_lt
  have h₂ := (d (p + 2)).toNat_lt
  have h₃ := (d (p + 3)).toNat_lt
  unfold le32At
  omega

/-- A word depends only on its own bytes. -/
theorem le32At_congr {d e : ByteStore} {p q : Nat} (h : ∀ i < 4, d (p + i) = e (q + i)) :
    le32At d p = le32At e q := by
  have h₀ := h 0 (by omega)
  have h₁ := h 1 (by omega)
  have h₂ := h 2 (by omega)
  have h₃ := h 3 (by omega)
  simp only [Nat.add_zero] at h₀
  simp [le32At, h₀, h₁, h₂, h₃]

theorem le64At_congr {d e : ByteStore} {p q : Nat} (h : ∀ i < 8, d (p + i) = e (q + i)) :
    le64At d p = le64At e q := by
  unfold le64At
  rw [le32At_congr (p := p) (q := q) fun i hi => h i (by omega),
    le32At_congr (p := p + 4) (q := q + 4) fun i hi => by
      have := h (4 + i) (by omega)
      rwa [← Nat.add_assoc, ← Nat.add_assoc] at this]

theorem le32At_leBytes (v : Nat) : le32At (leBytes v) 0 = v % 4294967296 := by
  simp [le32At, leBytes, UInt8.toNat_ofNat']
  omega

theorem le32At_patch_self (d : ByteStore) (p v : Nat) :
    le32At (patch d p 4 (leBytes v)) p = v % 4294967296 := by
  rw [← le32At_leBytes v]
  refine le32At_congr fun i hi => ?_
  rw [patch_of_mem (by omega) (by omega)]
  congr 1
  omega

end ByteStore

open ByteStore

/-- A file of the host: its size, and bytes that are zero past it. -/
structure HostFile where
  size : Nat
  bytes : ByteStore
  zero_past : ∀ p, size ≤ p → bytes p = 0

namespace HostFile

/-- A file with the bytes of a list. -/
def ofBytes (bs : List UInt8) : HostFile where
  size := bs.length
  bytes := ofList bs
  zero_past := fun p hp => by simp [ofList, hp]

/-- The first `n` bytes of `f` are stored at `off`. -/
def write (d : HostFile) (off n : Nat) (f : ByteStore) : HostFile where
  size := if n = 0 then d.size else max d.size (off + n)
  bytes := patch d.bytes off n f
  zero_past := fun p hp => by
    by_cases hn : n = 0
    · subst hn
      rw [if_pos rfl] at hp
      rw [patch_zero]
      exact d.zero_past p hp
    · rw [if_neg hn] at hp
      rw [patch_of_not_mem (by omega)]
      exact d.zero_past p (by omega)

@[simp] theorem write_bytes (d : HostFile) (off n : Nat) (f : ByteStore) :
    (d.write off n f).bytes = patch d.bytes off n f := rfl

theorem size_le_write (d : HostFile) (off n : Nat) (f : ByteStore) :
    d.size ≤ (d.write off n f).size := by
  unfold write
  dsimp only
  split
  · exact Nat.le_refl _
  · exact Nat.le_max_left _ _

theorem end_le_write (d : HostFile) (off : Nat) {n : Nat} (f : ByteStore) (hn : 0 < n) :
    off + n ≤ (d.write off n f).size := by
  have h : ¬ n = 0 := by omega
  simp [write, h]

/-! ## Files that agree -/

/-- `e` differs from `d` in `[off, off + n)` at most, and is not shorter. -/
structure AgreeOff (off n : Nat) (d e : HostFile) : Prop where
  size : d.size ≤ e.size
  bytes : ∀ p, p < off ∨ off + n ≤ p → e.bytes p = d.bytes p

/-- `e` has the first `n` bytes of `d`, and is not shorter. -/
structure AgreeBelow (n : Nat) (d e : HostFile) : Prop where
  size : d.size ≤ e.size
  bytes : ∀ p < n, e.bytes p = d.bytes p

/-- A write, whole or torn, changes its own range only. -/
theorem agreeOff_write (d : HostFile) (off : Nat) {m n : Nat} (f : ByteStore) (hm : m ≤ n) :
    AgreeOff off n d (d.write off m f) where
  size := size_le_write d off m f
  bytes := fun p hp => patch_of_not_mem (by omega)

theorem AgreeBelow.refl (n : Nat) (d : HostFile) : AgreeBelow n d d :=
  ⟨Nat.le_refl _, fun _ _ => rfl⟩

theorem AgreeBelow.trans {n : Nat} {a b c : HostFile} (h : AgreeBelow n a b)
    (h' : AgreeBelow n b c) : AgreeBelow n a c :=
  ⟨Nat.le_trans h.size h'.size, fun p hp => (h'.bytes p hp).trans (h.bytes p hp)⟩

theorem AgreeOff.below {off n m : Nat} {d e : HostFile} (h : AgreeOff off n d e) (hm : m ≤ off) :
    AgreeBelow m d e :=
  ⟨h.size, fun p hp => h.bytes p (.inl (by omega))⟩

theorem AgreeBelow.le32 {n p : Nat} {d e : HostFile} (h : AgreeBelow n d e) (hp : p + 4 ≤ n) :
    le32At e.bytes p = le32At d.bytes p :=
  le32At_congr fun i hi => h.bytes (p + i) (by omega)

end HostFile

end NextUfs.Lib
