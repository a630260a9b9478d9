/-
NextUfs.Lib.ByteStore — byte stores as total functions, and the big- and
little-endian words laid out in them.

A store is a function from addresses to bytes; its extent is carried by
whoever owns it, as in the C code, where a buffer and its size are two
arguments. `patch d off n f` replaces the `n` bytes from `off` by the first
`n` bytes of `f`, and everything proved about a write goes through its two
equations `patch_of_mem` and `patch_of_not_mem`.

Nothing here mentions a file system.
-/
import Mathlib.Data.Nat.Notation
import Mathlib.Tactic.Ring

namespace NextUfs.Lib

/-- A store of bytes indexed by address. -/
abbrev ByteStore := Nat → UInt8

namespace ByteStore

/-! ## Patches -/

/-- Replace the bytes `[off, off + n)` of `d` by the first `n` bytes of `f`. -/
def patch (d : ByteStore) (off n : Nat) (f : ByteStore) : ByteStore :=
  fun p => if off ≤ p ∧ p < off + n then f (p - off) else d p

theorem patch_of_mem {d f : ByteStore} {off n p : Nat} (h₁ : off ≤ p) (h₂ : p < off + n) :
    patch d off n f p = f (p - off) := by
  simp [patch, h₁, h₂]

theorem patch_of_not_mem {d f : ByteStore} {off n p : Nat} (h : p < off ∨ off + n ≤ p) :
    patch d off n f p = d p := by
  have : ¬ (off ≤ p ∧ p < off + n) := by omega
  simp [patch, this]

@[simp] theorem patch_zero (d f : ByteStore) (off : Nat) : patch d off 0 f = d := by
  funext p
  exact patch_of_not_mem (by omega)

/-- Writing back what is there changes nothing. -/
theorem patch_self (d : ByteStore) (off n : Nat) : patch d off n (fun i => d (off + i)) = d := by
  funext p
  by_cases h : off ≤ p ∧ p < off + n
  · rw [patch_of_mem h.1 h.2]
    congr 1
    omega
  · exact patch_of_not_mem (by omega)

/-- A second write to the same range hides a first write to part of it. -/
theorem patch_patch_same (d f g : ByteStore) {off n m : Nat} (h : m ≤ n) :
    patch (patch d off m f) off n g = patch d off n g := by
  funext p
  by_cases hp : off ≤ p ∧ p < off + n
  · rw [patch_of_mem hp.1 hp.2, patch_of_mem hp.1 hp.2]
  · rw [patch_of_not_mem (by omega), patch_of_not_mem (by omega), patch_of_not_mem (by omega)]

/-- A patch depends only on the bytes written. -/
theorem patch_congr {d f g : ByteStore} {off n : Nat} (h : ∀ i < n, f i = g i) :
    patch d off n f = patch d off n g := by
  funext p
  by_cases hp : off ≤ p ∧ p < off + n
  · rw [patch_of_mem hp.1 hp.2, patch_of_mem hp.1 hp.2, h _ (by omega)]
  · rw [patch_of_not_mem (by omega), patch_of_not_mem (by omega)]

/-! ## Lists of bytes -/

/-- The `n` bytes from `off`, as a list. -/
def slice (d : ByteStore) (off n : Nat) : List UInt8 :=
  (List.range n).map fun i => d (off + i)

/-- A list as a store, zero past its end. -/
def ofList (bs : List UInt8) : ByteStore := fun i => bs.getD i 0

@[simp] theorem length_slice (d : ByteStore) (off n : Nat) : (slice d off n).length = n := by
  simp [slice]

theorem ofList_slice {d : ByteStore} {off n i : Nat} (h : i < n) :
    ofList (slice d off n) i = d (off + i) := by
  simp [ofList, slice, h]

/-- Writing a slice back over any change of its range restores the store. -/
theorem patch_ofList_slice (d f : ByteStore) {off n m : Nat} (h : m ≤ n) :
    patch (patch d off m f) off n (ofList (slice d off n)) = d := by
  rw [patch_patch_same _ _ _ h, patch_congr (g := fun i => d (off + i)) fun i hi => ofList_slice hi,
    patch_self]

/-! ## Big-endian words -/

/-- The 16-bit big-endian word at `p`. -/
def be16 (d : ByteStore) (p : Nat) : Nat := (d p).toNat * 256 + (d (p + 1)).toNat

/-- The 32-bit big-endian word at `p`. -/
def be32 (d : ByteStore) (p : Nat) : Nat := be16 d p * 65536 + be16 d (p + 2)

/-- The 64-bit big-endian word at `p`. -/
def be64 (d : ByteStore) (p : Nat) : Nat := be32 d p * 4294967296 + be32 d (p + 4)

/-- The `n` big-endian bytes of `v`, as a store. -/
def beBytes (n v : Nat) : ByteStore := fun i => UInt8.ofNat (v / 256 ^ (n - 1 - i))

/-- Store the 16-bit big-endian word `v` at `p`. -/
def setBe16 (d : ByteStore) (p v : Nat) : ByteStore := patch d p 2 (beBytes 2 v)

/-- Store the 32-bit big-endian word `v` at `p`. -/
def setBe32 (d : ByteStore) (p v : Nat) : ByteStore := patch d p 4 (beBytes 4 v)

theorem be16_lt (d : ByteStore) (p : Nat) : be16 d p < 65536 := by
  have h₁ := (d p).toNat_lt
  have h₂ := (d (p + 1)).toNat_lt
  unfold be16
  omega

theorem be32_lt (d : ByteStore) (p : Nat) : be32 d p < 4294967296 := by
  have h₁ := be16_lt d p
  have h₂ := be16_lt d (p + 2)
  unfold be32
  omega

/-- A word depends only on its own bytes. -/
theorem be16_congr {d e : ByteStore} {p q : Nat} (h : ∀ i < 2, d (p + i) = e (q + i)) :
    be16 d p = be16 e q := by
  have h₀ := h 0 (by omega)
  have h₁ := h 1 (by omega)
  simp only [Nat.add_zero] at h₀
  simp [be16, h₀, h₁]

theorem be32_congr {d e : ByteStore} {p q : Nat} (h : ∀ i < 4, d (p + i) = e (q + i)) :
    be32 d p = be32 e q := by
  unfold be32
  rw [be16_congr (p := p) (q := q) fun i hi => h i (by omega),
    be16_congr (p := p + 2) (q := q + 2) fun i hi => by
      have := h (2 + i) (by omega)
      rwa [← Nat.add_assoc, ← Nat.add_assoc] at this]

theorem be64_congr {d e : ByteStore} {p q : Nat} (h : ∀ i < 8, d (p + i) = e (q + i)) :
    be64 d p = be64 e q := by
  unfold be64
  rw [be32_congr (p := p) (q := q) fun i hi => h i (by omega),
    be32_congr (p := p + 4) (q := q + 4) fun i hi => by
      have := h (4 + i) (by omega)
      rwa [← Nat.add_assoc, ← Nat.add_assoc] at this]

theorem be16_beBytes (v : Nat) : be16 (beBytes 2 v) 0 = v % 65536 := by
  simp [be16, beBytes, UInt8.toNat_ofNat']
  omega

theorem be32_beBytes (v : Nat) : be32 (beBytes 4 v) 0 = v % 4294967296 := by
  simp [be32, be16, beBytes, UInt8.toNat_ofNat']
  omega

/-- The bytes of a word that was read. -/
theorem beBytes_be32 (d : ByteStore) (p : Nat) {i : Nat} (hi : i < 4) :
    beBytes 4 (be32 d p) i = d (p + i) := by
  have hb : ∀ q, (d q).toNat < 256 := fun q => UInt8.toNat_lt _
  have h₀ := hb p
  have h₁ := hb (p + 1)
  have h₂ := hb (p + 2)
  have h₃ := hb (p + 3)
  apply UInt8.toNat_inj.mp
  obtain rfl | rfl | rfl | rfl : i = 0 ∨ i = 1 ∨ i = 2 ∨ i = 3 := by omega
  all_goals
    simp only [beBytes, be32, be16, UInt8.toNat_ofNat', Nat.add_assoc, Nat.add_zero, Nat.reduceAdd,
      Nat.reduceSub, Nat.reducePow]
    omega

theorem slice_append (d : ByteStore) (off m n : Nat) :
    slice d off (m + n) = slice d off m ++ slice d (off + m) n := by
  simp [slice, List.range_add, Nat.add_assoc]

theorem be16_setBe16_self (d : ByteStore) (p v : Nat) : be16 (setBe16 d p v) p = v % 65536 := by
  rw [← be16_beBytes v]
  refine be16_congr fun i hi => ?_
  rw [setBe16, patch_of_mem (by omega) (by omega)]
  congr 1
  omega

theorem be32_setBe32_self (d : ByteStore) (p v : Nat) :
    be32 (setBe32 d p v) p = v % 4294967296 := by
  rw [← be32_beBytes v]
  refine be32_congr fun i hi => ?_
  rw [setBe32, patch_of_mem (by omega) (by omega)]
  congr 1
  omega

/-- A patch that misses a word leaves it. -/
theorem be16_patch_of_disjoint {d f : ByteStore} {off n p : Nat}
    (h : p + 2 ≤ off ∨ off + n ≤ p) : be16 (patch d off n f) p = be16 d p :=
  be16_congr fun i hi => patch_of_not_mem (by omega)

theorem be32_patch_of_disjoint {d f : ByteStore} {off n p : Nat}
    (h : p + 4 ≤ off ∨ off + n ≤ p) : be32 (patch d off n f) p = be32 d p :=
  be32_congr fun i hi => patch_of_not_mem (by omega)

theorem be32_setBe32_of_disjoint {d : ByteStore} {p q v : Nat} (h : q + 4 ≤ p ∨ p + 4 ≤ q) :
    be32 (setBe32 d p v) q = be32 d q := be32_patch_of_disjoint h

/-- A patch that covers a word replaces it by the word written. -/
theorem be32_patch_of_mem {d f : ByteStore} {off n p : Nat} (h₁ : off ≤ p) (h₂ : p + 4 ≤ off + n) :
    be32 (patch d off n f) p = be32 f (p - off) :=
  be32_congr fun i hi => by
    rw [patch_of_mem (by omega) (by omega)]
    congr 1
    omega

/-! ## Little-endian words as lists -/

/-- The eight little-endian bytes of a 64-bit word. -/
def le64 (v : Nat) : List UInt8 := (List.range 8).map fun i => UInt8.ofNat (v / 256 ^ i)

/-- The 64-bit word in the first eight bytes of a list. -/
def readLe64 (bs : List UInt8) : Nat :=
  (bs.take 8).foldr (fun b acc => b.toNat + 256 * acc) 0

@[simp] theorem length_le64 (v : Nat) : (le64 v).length = 8 := by simp [le64]

theorem readLe64_le64_append (v : Nat) (rest : List UInt8) :
    readLe64 (le64 v ++ rest) = v % 18446744073709551616 := by
  simp [readLe64, le64, List.range_succ, UInt8.toNat_ofNat']
  omega

end ByteStore

end NextUfs.Lib
