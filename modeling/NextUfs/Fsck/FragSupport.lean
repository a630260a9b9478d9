/-
NextUfs.Fsck.FragSupport — counting fragment runs by table:
`src/fsck/frag_support.c`.

A block's free bits, at most eight, index a table that says which run lengths
occur; a mask slid over the bits then counts the runs of each. The two tables
and the mask patterns are the source's. They agree with the allocator's own loop
over a block: one evaluation over every pattern, for each of the block sizes 2,
4 and 8. So `fragacct_eq`: it counts maximal runs.
-/
import NextUfs.Core.AllocTheorems

namespace NextUfs.Fsck

open NextUfs.Core NextUfs.Lib.Runs

/-- The bits compared, by run length. -/
def around : List Nat := [0x3, 0x7, 0xf, 0x1f, 0x3f, 0x7f, 0xff, 0x1ff, 0x3ff]

/-- The set ones among them. -/
def inside : List Nat := [0x0, 0x2, 0x6, 0xe, 0x1e, 0x3e, 0x7e, 0xfe, 0x1fe]

def fragtbl124 : List Nat := [
  0x00, 0x16, 0x16, 0x2a, 0x16, 0x16, 0x26, 0x4e, 0x16, 0x16, 0x16, 0x3e, 0x2a, 0x3e, 0x4e, 0x8a,
  0x16, 0x16, 0x16, 0x3e, 0x16, 0x16, 0x36, 0x5e, 0x16, 0x16, 0x16, 0x3e, 0x3e, 0x3e, 0x5e, 0x9e,
  0x16, 0x16, 0x16, 0x3e, 0x16, 0x16, 0x36, 0x5e, 0x16, 0x16, 0x16, 0x3e, 0x3e, 0x3e, 0x5e, 0x9e,
  0x2a, 0x3e, 0x3e, 0x2a, 0x3e, 0x3e, 0x2e, 0x6e, 0x3e, 0x3e, 0x3e, 0x3e, 0x2a, 0x3e, 0x6e, 0xaa,
  0x16, 0x16, 0x16, 0x3e, 0x16, 0x16, 0x36, 0x5e, 0x16, 0x16, 0x16, 0x3e, 0x3e, 0x3e, 0x5e, 0x9e,
  0x16, 0x16, 0x16, 0x3e, 0x16, 0x16, 0x36, 0x5e, 0x16, 0x16, 0x16, 0x3e, 0x3e, 0x3e, 0x5e, 0x9e,
  0x26, 0x36, 0x36, 0x2e, 0x36, 0x36, 0x26, 0x6e, 0x36, 0x36, 0x36, 0x3e, 0x2e, 0x3e, 0x6e, 0xae,
  0x4e, 0x5e, 0x5e, 0x6e, 0x5e, 0x5e, 0x6e, 0x4e, 0x5e, 0x5e, 0x5e, 0x7e, 0x6e, 0x7e, 0x4e, 0xce,
  0x16, 0x16, 0x16, 0x3e, 0x16, 0x16, 0x36, 0x5e, 0x16, 0x16, 0x16, 0x3e, 0x3e, 0x3e, 0x5e, 0x9e,
  0x16, 0x16, 0x16, 0x3e, 0x16, 0x16, 0x36, 0x5e, 0x16, 0x16, 0x16, 0x3e, 0x3e, 0x3e, 0x5e, 0x9e,
  0x16, 0x16, 0x16, 0x3e, 0x16, 0x16, 0x36, 0x5e, 0x16, 0x16, 0x16, 0x3e, 0x3e, 0x3e, 0x5e, 0x9e,
  0x3e, 0x3e, 0x3e, 0x3e, 0x3e, 0x3e, 0x3e, 0x7e, 0x3e, 0x3e, 0x3e, 0x3e, 0x3e, 0x3e, 0x7e, 0xbe,
  0x2a, 0x3e, 0x3e, 0x2a, 0x3e, 0x3e, 0x2e, 0x6e, 0x3e, 0x3e, 0x3e, 0x3e, 0x2a, 0x3e, 0x6e, 0xaa,
  0x3e, 0x3e, 0x3e, 0x3e, 0x3e, 0x3e, 0x3e, 0x7e, 0x3e, 0x3e, 0x3e, 0x3e, 0x3e, 0x3e, 0x7e, 0xbe,
  0x4e, 0x5e, 0x5e, 0x6e, 0x5e, 0x5e, 0x6e, 0x4e, 0x5e, 0x5e, 0x5e, 0x7e, 0x6e, 0x7e, 0x4e, 0xce,
  0x8a, 0x9e, 0x9e, 0xaa, 0x9e, 0x9e, 0xae, 0xce, 0x9e, 0x9e, 0x9e, 0xbe, 0xaa, 0xbe, 0xce, 0x8a]

def fragtbl8 : List Nat := [
  0x00, 0x01, 0x01, 0x02, 0x01, 0x01, 0x02, 0x04, 0x01, 0x01, 0x01, 0x03, 0x02, 0x03, 0x04, 0x08,
  0x01, 0x01, 0x01, 0x03, 0x01, 0x01, 0x03, 0x05, 0x02, 0x03, 0x03, 0x02, 0x04, 0x05, 0x08, 0x10,
  0x01, 0x01, 0x01, 0x03, 0x01, 0x01, 0x03, 0x05, 0x01, 0x01, 0x01, 0x03, 0x03, 0x03, 0x05, 0x09,
  0x02, 0x03, 0x03, 0x02, 0x03, 0x03, 0x02, 0x06, 0x04, 0x05, 0x05, 0x06, 0x08, 0x09, 0x10, 0x20,
  0x01, 0x01, 0x01, 0x03, 0x01, 0x01, 0x03, 0x05, 0x01, 0x01, 0x01, 0x03, 0x03, 0x03, 0x05, 0x09,
  0x01, 0x01, 0x01, 0x03, 0x01, 0x01, 0x03, 0x05, 0x03, 0x03, 0x03, 0x03, 0x05, 0x05, 0x09, 0x11,
  0x02, 0x03, 0x03, 0x02, 0x03, 0x03, 0x02, 0x06, 0x03, 0x03, 0x03, 0x03, 0x02, 0x03, 0x06, 0x0a,
  0x04, 0x05, 0x05, 0x06, 0x05, 0x05, 0x06, 0x04, 0x08, 0x09, 0x09, 0x0a, 0x10, 0x11, 0x20, 0x40,
  0x01, 0x01, 0x01, 0x03, 0x01, 0x01, 0x03, 0x05, 0x01, 0x01, 0x01, 0x03, 0x03, 0x03, 0x05, 0x09,
  0x01, 0x01, 0x01, 0x03, 0x01, 0x01, 0x03, 0x05, 0x03, 0x03, 0x03, 0x03, 0x05, 0x05, 0x09, 0x11,
  0x01, 0x01, 0x01, 0x03, 0x01, 0x01, 0x03, 0x05, 0x01, 0x01, 0x01, 0x03, 0x03, 0x03, 0x05, 0x09,
  0x03, 0x03, 0x03, 0x03, 0x03, 0x03, 0x03, 0x07, 0x05, 0x05, 0x05, 0x07, 0x09, 0x09, 0x11, 0x21,
  0x02, 0x03, 0x03, 0x02, 0x03, 0x03, 0x02, 0x06, 0x03, 0x03, 0x03, 0x03, 0x02, 0x03, 0x06, 0x0a,
  0x03, 0x03, 0x03, 0x03, 0x03, 0x03, 0x03, 0x07, 0x02, 0x03, 0x03, 0x02, 0x06, 0x07, 0x0a, 0x12,
  0x04, 0x05, 0x05, 0x06, 0x05, 0x05, 0x06, 0x04, 0x05, 0x05, 0x05, 0x07, 0x06, 0x07, 0x04, 0x0c,
  0x08, 0x09, 0x09, 0x0a, 0x09, 0x09, 0x0a, 0x0c, 0x10, 0x11, 0x11, 0x12, 0x20, 0x21, 0x40, 0x80]

/-- `fragtbl[fs_frag][fragmap]`. -/
def fragtbl (fs_frag fragmap : Nat) : Nat :=
  (if fs_frag = 8 then fragtbl8 else fragtbl124).getD fragmap 0

/-- The sliding loop of `fragacct`: what becomes of `fraglist[siz]`. Every turn moves `pos` on. -/
def fragacctLoop (fs_frag fragmap siz : Nat) (cnt : UInt32) :
    Nat → Nat → Nat → Nat → UInt32 → UInt32
  | 0, _, _, _, total => total
  | fuel + 1, pos, field, subfield, total =>
    if pos > fs_frag then total
    else if fragmap &&& field = subfield then
      fragacctLoop fs_frag fragmap siz cnt fuel (pos + siz + 1) (field <<< siz <<< 1)
        (subfield <<< siz <<< 1) (total + cnt)
    else fragacctLoop fs_frag fragmap siz cnt fuel (pos + 1) (field <<< 1) (subfield <<< 1) total

/-- What `fragacct` makes of `fraglist[siz]`. -/
def fragacctAt (fs_frag fragmap : Nat) (cnt : UInt32) (siz : Nat) (total : UInt32) : UInt32 :=
  if (fragtbl fs_frag fragmap <<< 1) &&& (1 <<< (siz + fs_frag % 8)) = 0 then total
  else fragacctLoop fs_frag (fragmap <<< 1) siz cnt (fs_frag + 1) siz (around.getD siz 0)
    (inside.getD siz 0) total

/-- `fragacct`. -/
def fragacct (fs_frag fragmap : Nat) (fraglist : Nat → UInt32) (cnt : UInt32) : Nat → UInt32 :=
  (List.range' 1 (fs_frag - 1)).foldl (fun fraglist siz =>
    Function.update fraglist siz (fragacctAt fs_frag fragmap cnt siz (fraglist siz))) fraglist

/-! ## Against a direct count -/

/-- The loop adds what it would count from nothing. -/
theorem fragacctLoop_add {fs_frag fragmap siz : Nat} {cnt : UInt32} :
    ∀ {fuel pos field subfield : Nat} (total : UInt32),
      fragacctLoop fs_frag fragmap siz cnt fuel pos field subfield total =
        total + fragacctLoop fs_frag fragmap siz cnt fuel pos field subfield 0 := by
  intro fuel
  induction fuel with
  | zero =>
    intro pos field subfield total
    exact (UInt32.add_zero total).symm
  | succ fuel ih =>
    intro pos field subfield total
    rw [fragacctLoop, fragacctLoop]
    split
    · exact (UInt32.add_zero total).symm
    split
    · rw [ih (total + cnt), ih (0 + cnt), UInt32.zero_add, UInt32.add_assoc]
    · exact ih total

theorem fragacctAt_add {fs_frag fragmap siz : Nat} {cnt : UInt32} (total : UInt32) :
    fragacctAt fs_frag fragmap cnt siz total = total + fragacctAt fs_frag fragmap cnt siz 0 := by
  unfold fragacctAt
  split
  · exact (UInt32.add_zero total).symm
  · exact fragacctLoop_add total

/-- Updates at different places do not see one another. -/
theorem foldl_update {β : Type} {F : Nat → β → β} : ∀ {l : List Nat} {f : Nat → β}, l.Nodup →
    ∀ k, l.foldl (fun f i => Function.update f i (F i (f i))) f k =
      if k ∈ l then F k (f k) else f k := by
  intro l
  induction l with
  | nil => intro f _ k; simp
  | cons i l ih =>
    intro f hl k
    obtain ⟨hi, hl⟩ := List.nodup_cons.mp hl
    rw [List.foldl_cons, ih hl]
    by_cases hk : k = i
    · subst hk
      rw [if_neg hi, if_pos (List.mem_cons_self ..), Function.update_self]
    · rw [Function.update_of_ne hk]
      simp [hk]

/-- The tables and the masks, at every pattern of a block that is not free as a whole. -/
theorem fragacctAt_two : ∀ m < 2 ^ 2 - 1, ∀ k < 2, 0 < k →
    fragacctAt 2 m 1 k 0 = countFreeRunsInBlock m.testBit 0 2 k := by
  decide +kernel

theorem fragacctAt_four : ∀ m < 2 ^ 4 - 1, ∀ k < 4, 0 < k →
    fragacctAt 4 m 1 k 0 = countFreeRunsInBlock m.testBit 0 4 k := by
  decide +kernel

theorem fragacctAt_eight : ∀ m < 2 ^ 8 - 1, ∀ k < 8, 0 < k →
    fragacctAt 8 m 1 k 0 = countFreeRunsInBlock m.testBit 0 8 k := by
  decide +kernel

/-- `fragacct` adds the number of maximal runs of each length below the block's. -/
theorem fragacct_eq {fs_frag m : Nat}
    (hfrag : fs_frag = 1 ∨ fs_frag = 2 ∨ fs_frag = 4 ∨ fs_frag = 8) (hm : m < 2 ^ fs_frag - 1)
    (l : Nat → UInt32) (k : Nat) : fragacct fs_frag m l 1 k =
      if 0 < k ∧ k < fs_frag then l k + UInt32.ofNat (runs m.testBit 0 fs_frag k) else l k := by
  rw [fragacct, foldl_update (F := fragacctAt fs_frag m 1) (List.nodup_range' ..)]
  have hmem : k ∈ List.range' 1 (fs_frag - 1) ↔ 0 < k ∧ k < fs_frag := by
    rw [List.mem_range'_1]
    omega
  refine if_ctx_congr hmem (fun hk => ?_) fun _ => rfl
  obtain ⟨h0, hlt⟩ := hk
  rw [fragacctAt_add, ← countFreeRunsInBlock_eq m.testBit 0 h0 hlt]
  congr 1
  rcases hfrag with rfl | rfl | rfl | rfl
  · omega
  · exact fragacctAt_two m hm k hlt h0
  · exact fragacctAt_four m hm k hlt h0
  · exact fragacctAt_eight m hm k hlt h0

end NextUfs.Fsck
