/-
NextUfs.Lib.Region — ranges of addresses: one inside another, two apart.

Nothing here mentions a file system.
-/
import Mathlib.Data.Nat.Notation

namespace NextUfs.Lib

/-- The addresses `[start, start + size)`. -/
structure Region where
  start : Nat
  size : Nat
  deriving DecidableEq, Repr

namespace Region

/-- The first address behind a region. -/
def stop (r : Region) : Nat := r.start + r.size

/-- `r` lies in `s`. -/
def Within (r s : Region) : Prop := s.start ≤ r.start ∧ r.stop ≤ s.stop

/-- No address lies in both, or one of them is empty and outside the other. -/
def Apart (r s : Region) : Prop := r.stop ≤ s.start ∨ s.stop ≤ r.start

instance (r s : Region) : Decidable (r.Within s) := by unfold Within; infer_instance

instance (r s : Region) : Decidable (r.Apart s) := by unfold Apart; infer_instance

theorem Within.trans {r s t : Region} (h : r.Within s) (h' : s.Within t) : r.Within t :=
  ⟨Nat.le_trans h'.1 h.1, Nat.le_trans h.2 h'.2⟩

theorem Apart.symm {r s : Region} (h : r.Apart s) : s.Apart r := Or.symm h

/-- Parts of regions that are apart are apart. -/
theorem Apart.mono {r r' s s' : Region} (h : r.Apart s) (hr : r'.Within r) (hs : s'.Within s) :
    r'.Apart s' := by
  have h₁ := hr.1
  have h₂ := hr.2
  have h₃ := hs.1
  have h₄ := hs.2
  rcases h with h | h
  · left
    omega
  · right
    omega

end Region

end NextUfs.Lib
