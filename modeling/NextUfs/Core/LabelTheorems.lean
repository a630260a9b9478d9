/-
NextUfs.Core.LabelTheorems — the choice of a slice from a label copy.

A copy that the check for a single slice accepts has one partition, its root,
and nothing but the size of that partition decides what is picked.
-/
import NextUfs.Core.Label
import Mathlib.Data.List.Basic

namespace NextUfs.Core

/-- Two entries that a filter with one result lets through are the same. -/
theorem filter_unique {α : Type} {p : α → Bool} : ∀ {l : List α} {i j : Nat} {a b : α},
    (l.filter p).length ≤ 1 → l[i]? = some a → p a = true → l[j]? = some b → p b = true → i = j := by
  intro l
  induction l with
  | nil => simp
  | cons x l ih =>
    intro i j a b hlen hi ha hj hb
    have hfirst : p x = true → ∀ {k : Nat} {c : α}, l[k]? = some c → p c = true → False := by
      intro hx k c hk hc
      have hmem : c ∈ l.filter p := List.mem_filter.mpr ⟨List.mem_of_getElem? hk, hc⟩
      rw [List.filter_cons_of_pos hx, List.length_cons] at hlen
      have := List.length_pos_of_mem hmem
      omega
    cases i with
    | zero =>
      cases j with
      | zero => rfl
      | succ j =>
        obtain rfl : x = a := by simpa using hi
        exact (hfirst ha hj hb).elim
    | succ i =>
      cases j with
      | zero =>
        obtain rfl : x = b := by simpa using hj
        exact (hfirst hb hi ha).elim
      | succ j =>
        have hle : (l.filter p).length ≤ ((x :: l).filter p).length := by
          rw [List.filter_cons]
          split <;> simp
        exact congrArg Nat.succ (ih (Nat.le_trans hle hlen) hi ha hj hb)

/-- What opening takes for a partition, the grow counts as one. -/
theorem labelPartitionPresent_of_present {p : LabelPartition} (h : p.present = true) :
    labelPartitionPresent p = true := by
  unfold LabelPartition.present at h
  obtain ⟨h₁, h₂, h₃, h₄, h₅, h₆, h₇, -, hname⟩ := of_decide_eq_true h
  unfold labelPartitionPresent
  refine decide_eq_true ?_
  rintro (h | h | h | h | h | h | h | h)
  · exact h₁ h
  · exact h₂ h
  · exact h₃ h
  · exact h₄ h
  · exact h₅ h
  · exact h₆ h
  · exact h₇ h
  · refine hname ?_
    unfold LabelPartition.name
    cases htype : p.type with
    | nil => rfl
    | cons x rest =>
      rw [htype] at h
      rw [List.takeWhile_cons_of_neg]
      rw [List.all_cons, Bool.and_eq_true, beq_iff_eq] at h
      simp [h.1]

/-- What the check for a single slice says of a copy. -/
theorem validateOneLabelCopy_ok {slice_base : Nat} {c : LabelCopy}
    (h : validateOneLabelCopy slice_base c = .ok ()) :
    ∃ root, c.root = some root ∧ labelPartitionPresent root = true ∧
      (c.part.filter labelPartitionPresent).length ≤ 1 ∧ (c.slice root).1 = slice_base := by
  unfold validateOneLabelCopy at h
  split at h
  · cases h
  next root hroot =>
    split at h
    · cases h
    next hpresent =>
      split at h
      · cases h
      next hone =>
        split at h
        · cases h
        · split at h
          · cases h
          next hbase =>
            exact ⟨root, hroot, by simpa using hpresent, by omega, not_not.mp hbase⟩

theorem validateLabelCopies_ok {slice_base : Nat} : ∀ {cs : List LabelCopy},
    validateLabelCopies slice_base cs = .ok () → ∀ c ∈ cs, validateOneLabelCopy slice_base c = .ok ()
  | [], _ => by simp
  | c :: rest, h => by
    unfold validateLabelCopies at h
    split at h
    · cases h
    next hone =>
      intro c' hc'
      rcases List.mem_cons.mp hc' with rfl | hc'
      · exact hone
      · exact validateLabelCopies_ok h c' hc'

theorem LabelCopy.root_some {c : LabelCopy} {root : LabelPartition} (h : c.root = some root) :
    c.part[c.rootpartition - 97]? = some root := by
  unfold LabelCopy.root at h
  split at h
  · exact h
  · cases h

/-- A copy with one partition, its size set to `n`, describes a slice of `n` sectors if any. -/
theorem labelPickSlice_root {c c' : LabelCopy} {root : LabelPartition} {n : Nat} {slice : Nat × Nat}
    (hroot : c.root = some root) (hlisted : labelPartitionPresent root = true)
    (hone : (c.part.filter labelPartitionPresent).length ≤ 1)
    (hletter : c'.rootpartition = c.rootpartition) (hsec : c'.secsize = c.secsize)
    (hpart : c'.part = c.part.modify (c.rootpartition - 97) fun p => { p with size := n })
    (h : labelPickSlice c' = some slice) : slice.2 = n * c.secsize := by
  have hat := LabelCopy.root_some hroot
  have hroot' : c'.root = some { root with size := n } := by
    unfold LabelCopy.root at hroot ⊢
    rw [hletter]
    split at hroot
    next hrange =>
      rw [if_pos hrange, hpart, List.getElem?_modify_eq, hat]
      rfl
    · cases hroot
  unfold labelPickSlice at h
  rw [hroot'] at h
  split at h
  next p hp =>
    cases h
    obtain ⟨hp, -⟩ := Option.filter_eq_some_iff.mp hp
    cases hp
    unfold LabelCopy.slice
    rw [hsec]
  next hp =>
    -- no other entry of the copy is a partition
    exfalso
    rw [Option.map_eq_some_iff] at h
    obtain ⟨q, hq, -⟩ := h
    have hpresent := List.find?_some hq
    rw [Bool.and_eq_true] at hpresent
    obtain ⟨j, hj⟩ := List.getElem?_of_mem (List.mem_of_find?_eq_some hq)
    rw [hpart] at hj
    by_cases hj' : c.rootpartition - 97 = j
    · rw [hj', List.getElem?_modify_eq, ← hj', hat] at hj
      obtain rfl : { root with size := n } = q := by simpa using hj
      rw [Option.filter_some, if_pos hpresent.1] at hp
      cases hp
    · rw [List.getElem?_modify_ne _ _ hj'] at hj
      exact hj' (filter_unique hone hat hlisted hj (labelPartitionPresent_of_present hpresent.1))

end NextUfs.Core
