/-
NextUfs.Lib.Extents — extents of storage units as multisets, and stores that
agree on them.

Ownership of storage is a sum of multisets: what a file owns plus what the rest
owns is what is in use. "Owned twice" is then a multiplicity of two, so one
equation with a set on its right side says both that nothing is lost and that
nothing is shared. A pointer of zero owns nothing.

Nothing here mentions a file system.
-/
import NextUfs.Lib.ByteStore
import Mathlib.Order.Interval.Multiset
import Mathlib.Order.Interval.Finset.Nat
import Mathlib.Algebra.BigOperators.Intervals
import Mathlib.Algebra.Order.BigOperators.Group.Finset
import Mathlib.Algebra.Order.Group.Multiset
import Mathlib.Tactic.Abel

namespace NextUfs.Lib.Extents

open NextUfs.Lib.ByteStore

/-! ## Extents -/

/-- The `n` units from `p`; none when `p` is the null pointer. -/
def extent (p n : Nat) : Multiset Nat := if p = 0 then 0 else Multiset.Ico p (p + n)

theorem mem_extent {p n f : Nat} : f ∈ extent p n ↔ p ≠ 0 ∧ p ≤ f ∧ f < p + n := by
  unfold extent
  split
  · simp [*]
  · simp [Multiset.mem_Ico, *]

@[simp] theorem extent_null (n : Nat) : extent 0 n = 0 := by simp [extent]

@[simp] theorem extent_empty (p : Nat) : extent p 0 = 0 := by simp [extent]

theorem extent_nodup (p n : Nat) : (extent p n).Nodup := by
  unfold extent
  split
  · exact Multiset.nodup_zero
  · exact Multiset.nodup_Ico

theorem card_extent {p n : Nat} (hp : p ≠ 0) : (extent p n).card = n := by
  rw [extent, if_neg hp]
  change (Finset.Ico p (p + n)).card = n
  simp

/-- An extent is its first part and the rest. -/
theorem extent_add {p a b : Nat} (hp : p ≠ 0) : extent p (a + b) = extent p a + extent (p + a) b := by
  have hp' : p + a ≠ 0 := fun h => hp (Nat.eq_zero_of_add_eq_zero_right h)
  rw [extent, extent, extent, if_neg hp, if_neg hp, if_neg hp', Nat.add_assoc,
    Multiset.Ico_add_Ico_eq_Ico (Nat.le_add_right p a) (by omega)]

theorem head_mem_extent {p n : Nat} (hp : p ≠ 0) (hn : 0 < n) : p ∈ extent p n :=
  mem_extent.mpr ⟨hp, le_rfl, Nat.lt_add_of_pos_right hn⟩

/-! ## Apartness -/

/-- Two summands of a multiset without repetition share no unit. -/
theorem apart {s t : Multiset Nat} (h : (s + t).Nodup) {f : Nat} (hs : f ∈ s) : f ∉ t :=
  Multiset.disjoint_left.mp (Multiset.disjoint_of_nodup_add h) hs

/-- Two summands of a part of a multiset without repetition share no unit. -/
theorem apart_of_le {s t u : Multiset Nat} (hu : u.Nodup) (h : s + t ≤ u) {f : Nat}
    (hs : f ∈ s) : f ∉ t :=
  apart (Multiset.nodup_of_le h hu) hs

/-- One summand of a sum over an interval. -/
theorem le_sum {n : Nat} (m : Nat → Multiset Nat) {i : Nat} (hi : i < n) :
    m i ≤ ∑ k ∈ Finset.range n, m k :=
  Finset.single_le_sum (fun _ _ => Multiset.zero_le _) (Finset.mem_range.mpr hi)

/-- Two summands of a sum over an interval. -/
theorem add_le_sum {n : Nat} (m : Nat → Multiset Nat) {i j : Nat} (hi : i < n) (hj : j < n)
    (hij : i ≠ j) : m i + m j ≤ ∑ k ∈ Finset.range n, m k := by
  rw [← Finset.sum_pair hij]
  refine Finset.sum_le_sum_of_subset ?_
  intro k hk
  rcases Finset.mem_insert.mp hk with rfl | hk
  · exact Finset.mem_range.mpr hi
  · rw [Finset.mem_singleton.mp hk]
    exact Finset.mem_range.mpr hj

/-- Changing one summand changes the sum by as much. -/
theorem sum_update {n i : Nat} (hi : i < n) {f g : Nat → Multiset Nat}
    (h : ∀ k < n, k ≠ i → g k = f k) :
    ∑ k ∈ Finset.range n, g k + f i = ∑ k ∈ Finset.range n, f k + g i := by
  have hmem := Finset.mem_range.mpr hi
  rw [← Finset.add_sum_erase _ f hmem, ← Finset.add_sum_erase _ g hmem,
    Finset.sum_congr rfl fun k hk => h k (Finset.mem_range.mp (Finset.mem_of_mem_erase hk))
      (Finset.ne_of_mem_erase hk)]
  abel

/-- A sum over `a * b` terms, in `a` pieces of `b`. -/
theorem sum_mul {M : Type*} [AddCommMonoid M] (f : Nat → M) (b : Nat) : ∀ a : Nat,
    ∑ i ∈ Finset.range (a * b), f i =
      ∑ j ∈ Finset.range a, ∑ i ∈ Finset.range b, f (j * b + i)
  | 0 => by simp
  | a + 1 => by rw [Nat.succ_mul, Finset.sum_range_add, sum_mul f b a, Finset.sum_range_succ]

/-- The sum of lists laid end to end. -/
theorem sum_flatMap_range {M : Type*} [AddCommMonoid M] (f : Nat → List M) (n : Nat) :
    ((List.range n).flatMap f).sum = ∑ i ∈ Finset.range n, (f i).sum := by
  induction n with
  | zero => rfl
  | succ n ih =>
    rw [List.range_succ, List.flatMap_append, List.sum_append, ih, Finset.sum_range_succ]
    simp

theorem card_sum_runs : ∀ {rs : List (Nat × Nat)}, (∀ r ∈ rs, r.1 ≠ 0) →
    (rs.map fun r => extent r.1 r.2).sum.card = (rs.map Prod.snd).sum
  | [], _ => rfl
  | r :: rs, hrs => by
      rw [List.map_cons, List.map_cons, List.sum_cons, List.sum_cons, Multiset.card_add,
        card_extent (hrs r List.mem_cons_self),
        card_sum_runs fun r hr => hrs r (List.mem_cons_of_mem _ hr)]

/-- Runs that share no unit are different runs. -/
theorem nodup_of_sum : ∀ {rs : List (Nat × Nat)}, (∀ r ∈ rs, r.1 ≠ 0 ∧ 0 < r.2) →
    (rs.map fun r => extent r.1 r.2).sum.Nodup → rs.Nodup
  | [], _, _ => List.nodup_nil
  | r :: rs, hrs, h => by
      rw [List.map_cons, List.sum_cons] at h
      obtain ⟨hp, hn⟩ := hrs r List.mem_cons_self
      refine List.nodup_cons.mpr ⟨fun hmem => ?_, nodup_of_sum
        (fun r hr => hrs r (List.mem_cons_of_mem _ hr)) (Multiset.nodup_of_le (Multiset.le_add_left _ _) h)⟩
      have hle : extent r.1 r.2 ≤ (rs.map fun r => extent r.1 r.2).sum :=
        List.single_le_sum (fun _ _ => Multiset.zero_le _) _
          (List.mem_map_of_mem (f := fun r : Nat × Nat => extent r.1 r.2) hmem)
      exact apart h (head_mem_extent hp hn) (Multiset.mem_of_le hle (head_mem_extent hp hn))

/-! ## Stores that agree -/

/-- The stores agree on the units of `m`, each of `u` bytes. -/
def SameOn (u : Nat) (m : Multiset Nat) (b b' : ByteStore) : Prop :=
  ∀ f ∈ m, ∀ i < u, b' (f * u + i) = b (f * u + i)

section
variable {u : Nat} {m m₁ m₂ : Multiset Nat} {b b' b₁ b₂ : ByteStore}

theorem SameOn.refl (u : Nat) (m : Multiset Nat) (b : ByteStore) : SameOn u m b b :=
  fun _ _ _ _ => rfl

theorem SameOn.empty (u : Nat) (b b' : ByteStore) : SameOn u 0 b b' :=
  fun _ hf => absurd hf (Multiset.notMem_zero _)

theorem SameOn.trans (h₁ : SameOn u m b b₁) (h₂ : SameOn u m b₁ b₂) : SameOn u m b b₂ :=
  fun f hf i hi => (h₂ f hf i hi).trans (h₁ f hf i hi)

theorem SameOn.mono (h : SameOn u m₂ b b') (hle : m₁ ≤ m₂) : SameOn u m₁ b b' :=
  fun f hf => h f (Multiset.mem_of_le hle hf)

/-- A patch inside an extent leaves the units outside it. -/
theorem sameOn_patch {p n off size : Nat} {g : ByteStore} (h₁ : p * u ≤ off)
    (h₂ : off + size ≤ (p + n) * u) (hm : ∀ f ∈ m, f < p ∨ p + n ≤ f) :
    SameOn u m b (patch b off size g) := by
  intro f hf i hi
  refine patch_of_not_mem ?_
  rcases hm f hf with h | h
  · have := Nat.mul_le_mul_right u (Nat.succ_le_of_lt h)
    rw [Nat.succ_mul] at this
    omega
  · have := Nat.mul_le_mul_right u h
    omega

/-- Agreement at a byte of an extent. -/
theorem SameOn.at_extent {p n x : Nat} (h : SameOn u m b b') (hp : p ≠ 0) (hr : extent p n ≤ m)
    (hx : x < n * u) : b' (p * u + x) = b (p * u + x) := by
  have hu : 0 < u := Nat.pos_of_ne_zero fun h0 => by simp [h0] at hx
  have hdiv : x / u < n := Nat.div_lt_of_lt_mul (by rwa [Nat.mul_comm])
  have hmem : p + x / u ∈ m :=
    Multiset.mem_of_le hr (mem_extent.mpr ⟨hp, Nat.le_add_right .., Nat.add_lt_add_left hdiv p⟩)
  have hat := h _ hmem (x % u) (Nat.mod_lt x hu)
  have hx' : (p + x / u) * u + x % u = p * u + x := by
    rw [Nat.add_mul, Nat.add_assoc, Nat.mul_comm (x / u), Nat.div_add_mod]
  rwa [hx'] at hat

/-- Agreement on a word of an extent. -/
theorem SameOn.be32_extent {p n x : Nat} (h : SameOn u m b b') (hp : p ≠ 0) (hr : extent p n ≤ m)
    (hx : x + 4 ≤ n * u) : be32 b' (p * u + x) = be32 b (p * u + x) :=
  be32_congr fun i hi => by
    rw [Nat.add_assoc]
    exact h.at_extent hp hr (by omega)

end

end NextUfs.Lib.Extents
