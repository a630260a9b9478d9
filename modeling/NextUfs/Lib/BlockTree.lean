/-
NextUfs.Lib.BlockTree — trees of indirect blocks, as a data type and as they
lie in a byte store.

A block is `w` units of `u` bytes; an indirect block holds `n` big-endian
pointers. `load` reads the tree below a pointer of a given level, and
everything else is said about the tree: what it owns (`own`), which of that is
indirect blocks (`inner`), where it maps an index (`look`), that it is well
formed (`Good`), what is left of it when the indices from `keep` on go
(`prune`). A store enters only through `load_congr`: the tree depends on its
inner blocks alone.

Nothing here mentions a file system.
-/
import NextUfs.Lib.Extents

namespace NextUfs.Lib

open ByteStore Extents

/-- A hole, a data block, or an indirect block with its entries. -/
inductive BlockTree where
  | hole
  | data (p : Nat)
  | node (p : Nat) (kids : Nat → BlockTree)

namespace BlockTree

/-- The pointer to the tree. -/
def ptr : BlockTree → Nat
  | hole => 0
  | data p => p
  | node p _ => p

/-- The tree below the pointer `p` of a level; level 0 is data. -/
def load (n u : Nat) (b : ByteStore) : Nat → Nat → BlockTree
  | 0, p => if p = 0 then hole else data p
  | l + 1, p =>
    if p = 0 then hole
    else node p fun e => if e < n then load n u b l (be32 b (p * u + e * 4)) else hole

/-- The units of the tree. -/
def own (n w : Nat) : BlockTree → Multiset Nat
  | hole => 0
  | data p => extent p w
  | node p kids => extent p w + ∑ e ∈ Finset.range n, own n w (kids e)

/-- The units of its indirect blocks. -/
def inner (n w : Nat) : BlockTree → Multiset Nat
  | hole => 0
  | data _ => 0
  | node p kids => extent p w + ∑ e ∈ Finset.range n, inner n w (kids e)

/-- The data block at an index of a tree of level `l`; 0 for a hole. -/
def look (n : Nat) : BlockTree → Nat → Nat → Nat
  | hole, _, _ => 0
  | data p, _, _ => p
  | node _ kids, l, i => look n (kids (i / n ^ (l - 1))) (l - 1) (i % n ^ (l - 1))

/-- The indirect blocks on the way to an index of a tree of level `l`. -/
def spine (n : Nat) : BlockTree → Nat → Nat → List Nat
  | hole, _, _ => []
  | data _, _, _ => []
  | node p kids, l, i => p :: spine n (kids (i / n ^ (l - 1))) (l - 1) (i % n ^ (l - 1))

/-- The blocks of the tree in the order of a walk from the root, each with its length. -/
def runs (n w : Nat) : BlockTree → List (Nat × Nat)
  | hole => []
  | data p => [(p, w)]
  | node p kids => (p, w) :: (List.range n).flatMap fun e => runs n w (kids e)

/-- Every indirect block has `P`. -/
def Nodes (n : Nat) (P : Nat → Prop) : BlockTree → Prop
  | hole => True
  | data _ => True
  | node p kids => P p ∧ ∀ e < n, Nodes n P (kids e)

/-- A tree of level `l` whose index 0 is the file's index `base`: every block is well placed
(`ok`), and none lies wholly at or beyond `keep`. -/
def Good (n : Nat) (ok : Nat → Prop) (keep : Nat) : BlockTree → Nat → Nat → Prop
  | hole, _, _ => True
  | data p, l, base => l = 0 ∧ ok p ∧ base < keep
  | node p kids, l, base => 0 < l ∧ ok p ∧ base < keep ∧
      ∀ e < n, Good n ok keep (kids e) (l - 1) (base + e * n ^ (l - 1))

/-- The tree without the indices from `keep` on, and without blocks left empty. -/
def prune (n keep : Nat) : BlockTree → Nat → Nat → BlockTree
  | hole, _, _ => hole
  | data p, _, base => if keep ≤ base then hole else data p
  | node p kids, l, base =>
    if ∃ e < n, (prune n keep (kids e) (l - 1) (base + e * n ^ (l - 1))).ptr ≠ 0 then
      node p fun e => prune n keep (kids e) (l - 1) (base + e * n ^ (l - 1))
    else hole

/-! ## The tree in a store -/

section
variable {n u w : Nat} {b b' : ByteStore}

@[simp] theorem load_null (l : Nat) : load n u b l 0 = hole := by cases l <;> simp [load]

theorem load_node {l p : Nat} (hp : p ≠ 0) :
    load n u b (l + 1) p =
      node p fun e => if e < n then load n u b l (be32 b (p * u + e * 4)) else hole := by
  rw [load, if_neg hp]

/-- The walk of a tree: its root, and the entries in turn. -/
theorem runs_load {l p : Nat} (hp : p ≠ 0) : (load n u b (l + 1) p).runs n w =
    (p, w) :: (List.range n).flatMap fun e => (load n u b l (be32 b (p * u + e * 4))).runs n w := by
  rw [load_node hp, runs]
  congr 1
  exact List.flatMap_congr fun e he => by rw [if_pos (List.mem_range.mp he)]

theorem inner_load {l p : Nat} (hp : p ≠ 0) : (load n u b (l + 1) p).inner n w =
    extent p w + ∑ e ∈ Finset.range n, (load n u b l (be32 b (p * u + e * 4))).inner n w := by
  rw [load_node hp, inner]
  congr 1
  exact Finset.sum_congr rfl fun e he => by rw [if_pos (Finset.mem_range.mp he)]

theorem nodes_load {P : Nat → Prop} {l p : Nat} (hp : p ≠ 0) :
    (load n u b (l + 1) p).Nodes n P ↔
      P p ∧ ∀ e < n, (load n u b l (be32 b (p * u + e * 4))).Nodes n P := by
  rw [load_node hp, Nodes]
  refine and_congr_right fun _ => forall₂_congr fun e he => ?_
  rw [if_pos he]

theorem good_load {ok : Nat → Prop} {keep l p base : Nat} (hp : p ≠ 0) :
    (load n u b (l + 1) p).Good n ok keep (l + 1) base ↔ ok p ∧ base < keep ∧
      ∀ e < n, (load n u b l (be32 b (p * u + e * 4))).Good n ok keep l (base + e * n ^ l) := by
  rw [load_node hp, Good]
  simp only [Nat.succ_pos, true_and, Nat.add_sub_cancel]
  refine and_congr_right fun _ => and_congr_right fun _ => forall₂_congr fun e he => ?_
  rw [if_pos he]

@[simp] theorem ptr_load (l p : Nat) : (load n u b l p).ptr = p := by
  cases l <;> unfold load <;> split <;> simp [ptr, *]

@[simp] theorem inner_load_zero (p : Nat) : inner n w (load n u b 0 p) = 0 := by
  unfold load
  split <;> rfl

@[simp] theorem look_zero (p i : Nat) : look n (load n u b 0 p) 0 i = p := by
  unfold load
  split
  · exact ‹p = 0›.symm
  · rfl

/-- The tree depends on its indirect blocks alone. -/
theorem load_congr (hn : n * 4 ≤ w * u) :
    ∀ {l p : Nat}, SameOn u (inner n w (load n u b l p)) b b' → load n u b' l p = load n u b l p
  | 0, p, _ => by simp [load]
  | l + 1, p, h => by
      by_cases hp : p = 0
      · simp [hp]
      rw [load_node hp] at h
      rw [load_node hp, load_node hp]
      congr 1
      funext e
      split
      case isFalse => rfl
      case isTrue he =>
        have hle := le_sum (fun e => inner n w (if e < n then load n u b l
          (be32 b (p * u + e * 4)) else hole)) he
        simp only [if_pos he] at hle
        have hentry : be32 b' (p * u + e * 4) = be32 b (p * u + e * 4) :=
          h.be32_extent (n := w) hp (Multiset.le_add_right _ _) (by omega)
        rw [hentry]
        exact load_congr hn (h.mono (hle.trans (Multiset.le_add_left _ _)))

/-- A block of zeros maps nothing. -/
theorem load_zero {l p : Nat} (hp : p ≠ 0) (hz : ∀ e < n, be32 b (p * u + e * 4) = 0) :
    load n u b (l + 1) p = node p fun _ => hole := by
  rw [load_node hp]
  congr 1
  funext e
  split
  · rw [hz e ‹e < n›, load_null]
  · rfl

end

/-! ## Indirect blocks and data -/

section
variable {n w keep : Nat} {ok : Nat → Prop}

theorem look_node (p : Nat) (kids : Nat → BlockTree) (l i : Nat) :
    look n (node p kids) (l + 1) i = look n (kids (i / n ^ l)) l (i % n ^ l) := rfl

theorem kid_lt {l i : Nat} (hi : i < n ^ (l + 1)) : i / n ^ l < n ∧ i % n ^ l < n ^ l := by
  rw [Nat.pow_succ] at hi
  have hpos : 0 < n ^ l := Nat.pos_of_ne_zero fun h => by simp [h] at hi
  exact ⟨Nat.div_lt_of_lt_mul hi, Nat.mod_lt _ hpos⟩

theorem spine_node (p : Nat) (kids : Nat → BlockTree) (l i : Nat) :
    spine n (node p kids) (l + 1) i = p :: spine n (kids (i / n ^ l)) l (i % n ^ l) := rfl

@[simp] theorem spine_zero {u : Nat} {b : ByteStore} (p i : Nat) :
    spine n (load n u b 0 p) 0 i = [] := by
  unfold load
  split <;> rfl

/-- The indirect blocks on the way are indirect blocks of the tree. -/
theorem mem_inner_of_spine {u : Nat} {b : ByteStore} (hw : 0 < w) : ∀ {l p i q : Nat},
    i < n ^ l → q ∈ spine n (load n u b l p) l i → q ∈ inner n w (load n u b l p)
  | 0, p, i, q, _, hq => by simp at hq
  | l + 1, p, i, q, hi, hq => by
      by_cases hp : p = 0
      · rw [hp, load_null] at hq
        exact absurd hq List.not_mem_nil
      obtain ⟨he, hr⟩ := kid_lt hi
      rw [load_node hp, spine_node, List.mem_cons, if_pos he] at hq
      rw [load_node hp, inner, Multiset.mem_add]
      rcases hq with rfl | hq
      · exact .inl (head_mem_extent hp hw)
      · have hle := le_sum (fun e => inner n w (if e < n then load n u b l
          (be32 b (p * u + e * 4)) else hole)) he
        simp only [if_pos he] at hle
        exact .inr (Multiset.mem_of_le hle (mem_inner_of_spine hw hr hq))

/-- The walk meets what the tree owns. -/
theorem sum_runs : ∀ t : BlockTree, ((runs n w t).map fun r => extent r.1 r.2).sum = own n w t
  | hole => rfl
  | data p => by simp [runs, own]
  | node p kids => by
      rw [runs, own, List.map_cons, List.sum_cons, List.map_flatMap, sum_flatMap_range]
      exact congrArg _ (Finset.sum_congr rfl fun e _ => sum_runs (kids e))

/-- Every block of the walk is `w` long, and in place if the tree is. -/
theorem Good.at_runs : ∀ {t : BlockTree} {l base : Nat}, Good n ok keep t l base →
    ∀ r ∈ runs n w t, ok r.1 ∧ r.2 = w
  | hole, _, _, _ => fun _ hr => absurd hr List.not_mem_nil
  | data p, _, _, hg => fun r hr => by
      obtain rfl := List.mem_singleton.mp hr
      exact ⟨hg.2.1, rfl⟩
  | node p kids, _, _, ⟨_, hok, _, hkids⟩ => fun r hr => by
      rcases List.mem_cons.mp hr with rfl | hr
      · exact ⟨hok, rfl⟩
      · obtain ⟨e, he, hr⟩ := List.mem_flatMap.mp hr
        exact (hkids e (List.mem_range.mp he)).at_runs r hr

theorem inner_le_own : ∀ t : BlockTree, inner n w t ≤ own n w t
  | hole => le_rfl
  | data _ => Multiset.zero_le _
  | node p kids => by
      rw [inner, own]
      exact add_le_add le_rfl (Finset.sum_le_sum fun e _ => inner_le_own (kids e))

/-- A tree owns its indirect blocks and the data blocks of its indices. -/
theorem own_eq : ∀ {t : BlockTree} {l base : Nat}, Good n ok keep t l base →
    own n w t = inner n w t + ∑ i ∈ Finset.range (n ^ l), extent (look n t l i) w
  | hole, l, base, _ => by simp [own, inner, look]
  | data p, l, base, h => by
      obtain ⟨rfl, -, -⟩ := h
      rw [own, inner, pow_zero, Finset.sum_range_one, look, zero_add]
  | node p kids, 0, base, h => absurd h.1 (Nat.lt_irrefl 0)
  | node p kids, l + 1, base, h => by
      obtain ⟨-, -, -, hkids⟩ := h
      have hsum : ∑ i ∈ Finset.range (n ^ (l + 1)), extent (look n (node p kids) (l + 1) i) w =
          ∑ e ∈ Finset.range n, ∑ i ∈ Finset.range (n ^ l), extent (look n (kids e) l i) w := by
        rw [Nat.pow_succ', sum_mul]
        refine Finset.sum_congr rfl fun e _ => Finset.sum_congr rfl fun i hi => ?_
        have hi' := Finset.mem_range.mp hi
        rw [look_node, Nat.mul_comm, Nat.mul_add_div (by omega), Nat.div_eq_of_lt hi',
          Nat.add_zero, Nat.mul_add_mod, Nat.mod_eq_of_lt hi']
      rw [own, inner, hsum, Finset.sum_congr rfl fun e he =>
        own_eq (hkids e (Finset.mem_range.mp he)), Finset.sum_add_distrib]
      abel

theorem Nodes.mono {P Q : Nat → Prop} : ∀ {t : BlockTree}, Nodes n P t → (∀ p, P p → Q p) →
    Nodes n Q t
  | hole, _, _ => trivial
  | data _, _, _ => trivial
  | node p _, ⟨hp, hkids⟩, h => ⟨h p hp, fun e he => (hkids e he).mono h⟩

theorem Nodes.and {P Q : Nat → Prop} : ∀ {t : BlockTree}, Nodes n P t → Nodes n Q t →
    Nodes n (fun p => P p ∧ Q p) t
  | hole, _, _ => trivial
  | data _, _, _ => trivial
  | node _ _, ⟨hp, hkids⟩, ⟨hq, hkids'⟩ => ⟨⟨hp, hq⟩, fun e he => (hkids e he).and (hkids' e he)⟩

/-- The indirect blocks of a well-formed tree are in place. -/
theorem Good.nodes : ∀ {t : BlockTree} {l base : Nat}, Good n ok keep t l base → Nodes n ok t
  | hole, _, _, _ => trivial
  | data _, _, _, _ => trivial
  | node _ _, _, _, ⟨_, hok, _, hkids⟩ => ⟨hok, fun e he => (hkids e he).nodes⟩

/-- An indirect block is part of any multiset that holds the tree's. -/
theorem nodes_of_inner {m : Multiset Nat} : ∀ {t : BlockTree}, inner n w t ≤ m →
    Nodes n (fun p => extent p w ≤ m) t
  | hole, _ => trivial
  | data _, _ => trivial
  | node _ kids, h => ⟨(Multiset.le_add_right _ _).trans h, fun _ he => nodes_of_inner
      (((le_sum (fun e => inner n w (kids e)) he).trans (Multiset.le_add_left _ _)).trans h)⟩

/-- A tree that is there begins below `keep`. -/
theorem Good.root_lt {t : BlockTree} {l base : Nat} (hg : Good n ok keep t l base)
    (h : t.ptr ≠ 0) : base < keep := by
  cases t with
  | hole => exact absurd rfl h
  | data p => exact hg.2.2
  | node p kids => exact hg.2.2.1

/-- A data block of the tree is well placed, and its index is below `keep`. -/
theorem Good.at_look : ∀ {t : BlockTree} {l base i : Nat}, Good n ok keep t l base → i < n ^ l →
    look n t l i ≠ 0 → ok (look n t l i) ∧ base + i < keep
  | hole, _, _, _, _, _, h => absurd rfl h
  | data p, l, base, i, hg, hi, _ => by
      obtain ⟨rfl, hok, hlt⟩ := hg
      have hi0 : i = 0 := by simpa using hi
      exact ⟨hok, by omega⟩
  | node p kids, 0, base, i, hg, _, _ => absurd hg.1 (Nat.lt_irrefl 0)
  | node p kids, l + 1, base, i, hg, hi, h => by
      obtain ⟨-, -, -, hkids⟩ := hg
      obtain ⟨he, hr⟩ := kid_lt hi
      obtain ⟨hok, hlt⟩ := (hkids _ he).at_look hr h
      refine ⟨hok, ?_⟩
      have := Nat.div_add_mod' i (n ^ l)
      simp only [Nat.add_sub_cancel] at hlt
      omega

/-- A larger `keep`, or a weaker placement. -/
theorem Good.mono {ok' : Nat → Prop} {keep' : Nat} (hok : ∀ p, ok p → ok' p) (hk : keep ≤ keep') :
    ∀ {t : BlockTree} {l base : Nat}, Good n ok keep t l base → Good n ok' keep' t l base
  | hole, _, _, _ => trivial
  | data _, _, _, ⟨h₁, h₂, h₃⟩ => ⟨h₁, hok _ h₂, h₃.trans_le hk⟩
  | node _ _, _, _, ⟨h₁, h₂, h₃, h₄⟩ =>
      ⟨h₁, hok _ h₂, h₃.trans_le hk, fun e he => (h₄ e he).mono hok hk⟩

/-! ## Replacing one entry -/

/-- The tree with entry `e` of its root replaced. -/
def setKid (p : Nat) (kids : Nat → BlockTree) (e : Nat) (t : BlockTree) : BlockTree :=
  node p (Function.update kids e t)

theorem inner_setKid {p e : Nat} (he : e < n) (kids : Nat → BlockTree) (t : BlockTree) :
    inner n w (setKid p kids e t) + inner n w (kids e) =
      inner n w (node p kids) + inner n w t := by
  have h := sum_update (f := fun e => inner n w (kids e))
    (g := fun k => inner n w (Function.update kids e t k)) he
    (fun k _ hk => by simp only [Function.update_of_ne hk])
  simp only [Function.update_self] at h
  rw [setKid, inner, inner, add_assoc, h, add_assoc]

theorem look_setKid (p : Nat) (kids : Nat → BlockTree) (e : Nat) (t : BlockTree) (l i : Nat) :
    look n (setKid p kids e t) (l + 1) i =
      if i / n ^ l = e then look n t l (i % n ^ l) else look n (node p kids) (l + 1) i := by
  rw [setKid, look_node, look_node]
  split
  · rw [‹i / n ^ l = e›, Function.update_self]
  · rw [Function.update_of_ne ‹_›]

theorem spine_setKid (p : Nat) (kids : Nat → BlockTree) (e : Nat) (t : BlockTree) (l i : Nat) :
    spine n (setKid p kids e t) (l + 1) i =
      if i / n ^ l = e then p :: spine n t l (i % n ^ l) else spine n (node p kids) (l + 1) i := by
  rw [setKid, spine_node, spine_node]
  split
  · rw [‹i / n ^ l = e›, Function.update_self]
  · rw [Function.update_of_ne ‹_›]

theorem Good.setKid {p : Nat} {kids : Nat → BlockTree} {l base e : Nat} {t : BlockTree}
    (hg : Good n ok keep (node p kids) (l + 1) base)
    (ht : Good n ok keep t l (base + e * n ^ l)) :
    Good n ok keep (setKid p kids e t) (l + 1) base := by
  obtain ⟨h₁, h₂, h₃, h₄⟩ := hg
  refine ⟨h₁, h₂, h₃, fun k hk => ?_⟩
  by_cases hke : k = e
  · subst hke
    rw [Function.update_self]
    exact ht
  · rw [Function.update_of_ne hke]
    exact h₄ k hk

/-- The tree after the store changed in one entry of its root and below that entry. -/
theorem load_setKid {u : Nat} {b b' : ByteStore} (hn : n * 4 ≤ w * u) {l p e v : Nat} (hp : p ≠ 0)
    (he : e < n) (hv : be32 b' (p * u + e * 4) = v)
    (hrest : ∀ k < n, k ≠ e → be32 b' (p * u + k * 4) = be32 b (p * u + k * 4))
    (hkids : ∀ k < n, k ≠ e →
      SameOn u (inner n w (load n u b l (be32 b (p * u + k * 4)))) b b') :
    load n u b' (l + 1) p = setKid p
      (fun e => if e < n then load n u b l (be32 b (p * u + e * 4)) else hole) e
      (load n u b' l v) := by
  rw [load_node hp, setKid]
  congr 1
  funext k
  by_cases hke : k = e
  · subst hke
    rw [Function.update_self, if_pos he, hv]
  · rw [Function.update_of_ne hke]
    split
    · rw [hrest k ‹k < n› hke, load_congr hn (hkids k ‹k < n› hke)]
    · rfl

/-! ## Pruning -/

theorem Good.prune {keep₀ : Nat} : ∀ {t : BlockTree} {l base : Nat}, Good n ok keep₀ t l base →
    Good n ok keep (prune n keep t l base) l base
  | hole, _, _, _ => trivial
  | data p, l, base, ⟨h₁, h₂, _⟩ => by
      rw [BlockTree.prune]
      split
      · trivial
      · exact ⟨h₁, h₂, by omega⟩
  | node p kids, l, base, ⟨h₁, h₂, _, h₄⟩ => by
      have hkids := fun e (he : e < n) => (h₄ e he).prune
      rw [BlockTree.prune]
      split
      case isFalse => trivial
      case isTrue h =>
        refine ⟨h₁, h₂, ?_, hkids⟩
        obtain ⟨e, he, hne⟩ := h
        have hlt := (hkids e he).root_lt hne
        omega

theorem look_of_ptr_eq_zero {ok : Nat → Prop} {t : BlockTree} {l base i : Nat}
    (hok : ∀ p, ok p → p ≠ 0) (hg : Good n ok keep t l base) (h : t.ptr = 0) :
    look n t l i = 0 := by
  cases t with
  | hole => rfl
  | data p => exact absurd h (hok p hg.2.1)
  | node p kids => exact absurd h (hok p hg.2.1)

theorem look_prune {keep₀ : Nat} (hok : ∀ p, ok p → p ≠ 0) : ∀ {t : BlockTree} {l base i : Nat},
    Good n ok keep₀ t l base → i < n ^ l →
      look n (BlockTree.prune n keep t l base) l i = if base + i < keep then look n t l i else 0
  | hole, _, _, _, _, _ => by simp [BlockTree.prune, look]
  | data p, l, base, i, hg, hi => by
      obtain ⟨rfl, -, -⟩ := hg
      have hi0 : i = 0 := by simpa using hi
      subst hi0
      rw [BlockTree.prune]
      split <;> simp [look] <;> omega
  | node p kids, 0, base, i, hg, _ => absurd hg.1 (Nat.lt_irrefl 0)
  | node p kids, l + 1, base, i, hg, hi => by
      obtain ⟨-, -, -, hkids⟩ := hg
      obtain ⟨he, hr⟩ := kid_lt hi
      have ih := look_prune hok (hkids _ he) hr
      have hidx : base + i / n ^ l * n ^ l + i % n ^ l = base + i := by
        rw [Nat.add_assoc, Nat.div_add_mod']
      simp only [Nat.add_sub_cancel] at ih
      rw [hidx] at ih
      rw [BlockTree.prune, look_node, ← ih]
      split
      · rfl
      case isFalse h =>
        -- no entry is left, so the entry of this index is not
        have hptr : (BlockTree.prune n keep (kids (i / n ^ l)) l
            (base + i / n ^ l * n ^ l)).ptr = 0 := by
          by_contra hne
          exact h ⟨_, he, hne⟩
        exact (look_of_ptr_eq_zero hok (hkids _ he).prune hptr).symm

theorem prune_node (p : Nat) (kids : Nat → BlockTree) (l base : Nat) :
    BlockTree.prune n keep (node p kids) (l + 1) base =
      if ∃ e < n, (BlockTree.prune n keep (kids e) l (base + e * n ^ l)).ptr ≠ 0 then
        node p fun e => BlockTree.prune n keep (kids e) l (base + e * n ^ l)
      else hole := rfl

/-- Pruning adds no indirect block. -/
theorem inner_prune_le {w : Nat} : ∀ (t : BlockTree) (l base : Nat),
    inner n w (BlockTree.prune n keep t l base) ≤ inner n w t
  | hole, _, _ => le_rfl
  | data p, l, base => by
      rw [BlockTree.prune]
      split <;> exact le_rfl
  | node p kids, l, base => by
      rw [BlockTree.prune]
      split
      · exact add_le_add le_rfl (Finset.sum_le_sum fun e _ => inner_prune_le (kids e) _ _)
      · exact Multiset.zero_le _

/-- The root stays or goes. -/
theorem ptr_prune (t : BlockTree) (l base : Nat) :
    (BlockTree.prune n keep t l base).ptr = 0 ∨ (BlockTree.prune n keep t l base).ptr = t.ptr := by
  cases t with
  | hole => exact .inl rfl
  | data p =>
    rw [BlockTree.prune]
    split
    · exact .inl rfl
    · exact .inr rfl
  | node p kids =>
    rw [BlockTree.prune]
    split
    · exact .inr rfl
    · exact .inl rfl

end

end BlockTree

end NextUfs.Lib
