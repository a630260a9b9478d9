/-
NextUfs.Fsck.Pass1Theorems — the first pass over a consistent filesystem.

`Accounted` is a filesystem whose fragments in use are its metadata and what
its files own. Along its inodes the pass finds exactly that: a turn is `Quiet`,
it claims what the inode owns and says nothing (`pass1Inode_quiet`), and so are
all turns before it (`pass1Inodes_quiet`). `ckinode_agrees` is the main result;
it asks that the blocks fsck reads begin below 4 GiB, because an address of
fsck has 32 bits. `walk_loses_block` is a file beyond, of which fsck sees one of
two blocks.
-/
import NextUfs.Fsck.InodeScanTheorems
import NextUfs.Fsck.Pass1

namespace NextUfs.Fsck

open NextUfs.Core NextUfs.Lib NextUfs.Lib.ByteStore NextUfs.Lib.StateResult NextUfs.Lib.Extents
  NextUfs.Mutate

/-! ## Reserved fragments -/

/-- The fragments of a filesystem's metadata: in each group from the superblock copy to the end of
the inode table, in group 0 from the start; and the summary table. -/
def IsMeta (sb : Superblock) (f : Nat) : Prop :=
  (∃ c < sb.cgCount, (if c = 0 then 0 else cgsblock sb c) ≤ f ∧ f < cgdmin sb c) ∨
    (sb.cylSummaryAddr ≤ f ∧ f < sb.cylSummaryAddr + (sb.csumSize + sb.fragSize - 1) / sb.fragSize)

instance (sb : Superblock) (f : Nat) : Decidable (IsMeta sb f) := by
  unfold IsMeta
  infer_instance

theorem setBits_eq (map : Nat → Bool) (i f : Nat) : ∀ n,
    setBits map i n f = (map f || decide (i ≤ f ∧ f < i + n))
  | 0 => by
      rw [setBits, decide_eq_false (by omega), Bool.or_false]
  | n + 1 => by
      by_cases hf : f = i + n
      · rw [setBits, hf, Function.update_self, decide_eq_true (by omega), Bool.or_true]
      · rw [setBits, Function.update_of_ne hf, setBits_eq map i f n]
        congr 1
        exact decide_eq_decide.mpr (by omega)

theorem reserve_iff (sb : Superblock) (map : Nat → Bool) (f : Nat) : ∀ n,
    reserve sb map n f = true ↔ map f = true ∨ ∃ c < n,
      (if c = 0 then 0 else cgsblock sb c) ≤ f ∧ f < if c = 0 then
        cgdmin sb c + (sb.csumSize + sb.fragSize - 1) / sb.fragSize else cgdmin sb c
  | 0 => by simp [reserve]
  | n + 1 => by
      have hih := reserve_iff sb map f n
      have hstart : (if n = 0 then sb.fragsPerGroup * n else cgsblock sb n) =
          if n = 0 then 0 else cgsblock sb n := by
        split
        case isTrue h => rw [h, Nat.mul_zero]
        case isFalse => rfl
      rw [reserve, setBits_eq, Bool.or_eq_true, hih, decide_eq_true_eq, hstart]
      constructor
      · rintro ((h | ⟨c, hc, h⟩) | h)
        · exact .inl h
        · exact .inr ⟨c, by omega, h⟩
        · exact .inr ⟨n, by omega, by omega⟩
      · rintro (h | ⟨c, hc, h⟩)
        · exact .inl (.inl h)
        · rcases Nat.lt_succ_iff_lt_or_eq.mp hc with hlt | rfl
          · exact .inl (.inr ⟨c, hlt, h⟩)
          · exact .inr (by omega)

/-- The pass reserves the metadata, the summary table lying where the formatter puts it. -/
theorem reserve_eq {sb : Superblock} (hpos : 0 < sb.cgCount)
    (hsummary : sb.cylSummaryAddr = cgdmin sb 0) (f : Nat) :
    reserve sb (fun _ => false) sb.cgCount f = true ↔ IsMeta sb f := by
  rw [reserve_iff, IsMeta, hsummary]
  simp only [Bool.false_eq_true, false_or]
  constructor
  · rintro ⟨c, hc, hlo, hhi⟩
    by_cases h0 : c = 0
    · subst h0
      simp only [if_true] at hlo hhi
      by_cases hd : f < cgdmin sb 0
      · exact .inl ⟨0, hc, by simp, hd⟩
      · exact .inr ⟨by omega, hhi⟩
    · rw [if_neg h0] at hhi
      exact .inl ⟨c, hc, hlo, hhi⟩
  · rintro (⟨c, hc, hlo, hhi⟩ | ⟨hlo, hhi⟩)
    · refine ⟨c, hc, hlo, ?_⟩
      split
      · exact Nat.lt_add_right _ hhi
      · exact hhi
    · exact ⟨0, hpos, by simp, by simpa using hhi⟩

/-- A run in place that holds no metadata is in range. -/
theorem outrange_eq_false {fs : Fs} (hs : fs.Sound) {p n : Nat} (hrun : fs.RunOk p n)
    (hmeta : ∀ f, p ≤ f → f < p + n → ¬ IsMeta fs.img.sb f) : outrange fs.img.sb p n = false := by
  have hg := hs.geometry
  have hl := fs.img.layout hs.valid
  have hle := hs.run_le hrun
  have hcount := hg.fragCount_le
  have hpos := hrun.pos
  unfold INT32_MAX at hcount
  set c := p / fs.img.sb.fragsPerGroup with hc
  unfold outrange
  rw [if_neg (by omega)]
  dsimp only
  rw [← hc]
  split
  case isTrue hlow =>
    rw [decide_eq_false_iff_not]
    intro hhigh
    -- the run would begin in the metadata or run into it
    have hsb : cgsblock fs.img.sb c < cgdmin fs.img.sb c := by
      have := hl.sbOff_le
      have := hl.cgOff_lt
      have := (Nat.le_add_right _ _).trans hl.table_le
      unfold cgsblock cgdmin
      omega
    by_cases hstart : (if c = 0 then 0 else cgsblock fs.img.sb c) ≤ p
    · exact hmeta p le_rfl (by omega) (.inl ⟨c, hrun.group, hstart, hlow⟩)
    · have hne : c ≠ 0 := fun h => hstart (by rw [if_pos h]; exact Nat.zero_le p)
      rw [if_neg hne] at hstart
      exact hmeta _ (by omega) hhigh (.inl ⟨c, hrun.group, by rw [if_neg hne], hsb⟩)
  case isFalse =>
    rw [decide_eq_false_iff_not]
    have hnd := (hs.consistent.group c hrun.group).ndblk_le
    have hin := hrun.inGroup
    have hdiv := Nat.div_add_mod p fs.img.sb.fragsPerGroup
    rw [← hc] at hin hdiv
    rw [Nat.mul_succ]
    omega

/-! ## Claiming -/

/-- The fragments of `m` are claimed. -/
structure Claimed (s : Checker) (m : Multiset Nat) (s' : Checker) : Prop where
  disk : s'.disk = s.disk
  log : s'.log = s.log
  blockmap : ∀ f, s'.blockmap f = true ↔ s.blockmap f = true ∨ f ∈ m
  entryno : s'.idEntryno = s.idEntryno + m.card

theorem claimFrags_free (op : Operator) (sb : Superblock) (ino res : Nat) : ∀ {n p : Nat}
    {s : Checker}, p ≠ 0 → (∀ f ∈ extent p n, s.blockmap f = false) →
    ∃ s', claimFrags op sb ino false n p res s = .ok res s' ∧ Claimed s (extent p n) s'
  | 0, p, s, _, _ => ⟨s, rfl, rfl, rfl, fun f => by simp, by simp⟩
  | n + 1, p, s, hp, hfree => by
      set t : Checker := { s with
        nBlks := s.nBlks + 1, blockmap := Function.update s.blockmap p true
        idEntryno := s.idEntryno + 1 } with ht
      have hsplit : extent p (n + 1) = extent p 1 + extent (p + 1) n := by
        rw [Nat.add_comm n 1, extent_add hp]
      have hhead : s.blockmap p = false := hfree p (head_mem_extent hp (by omega))
      obtain ⟨s', hrest, hc⟩ := claimFrags_free op sb ino res (n := n) (p := p + 1) (s := t)
        (by omega) fun f hf => by
          have hne : f ≠ p := by
            have := mem_extent.mp hf
            omega
          rw [ht]
          show Function.update s.blockmap p true f = false
          rw [Function.update_of_ne hne]
          exact hfree f (hsplit ▸ Multiset.mem_add.mpr (.inr hf))
      refine ⟨s', ?_, hc.disk, hc.log, fun f => ?_, ?_⟩
      · rw [claimFrags, bind_ok]
        refine ⟨s, s, rfl, ?_⟩
        rw [if_neg (by simp), if_pos hhead, bind_ok]
        exact ⟨⟨⟩, t, rfl, hrest⟩
      · rw [hc.blockmap, hsplit, Multiset.mem_add]
        show Function.update s.blockmap p true f = true ∨ _ ↔ _
        by_cases hf : f = p
        · subst hf
          simp [mem_extent, hp]
        · rw [Function.update_of_ne hf]
          have hone : f ∉ extent p 1 := fun h => by
            have := mem_extent.mp h
            omega
          simp [hone]
      · rw [hc.entryno, hsplit, Multiset.card_add, card_extent hp]
        show s.idEntryno + 1 + _ = _
        omega

/-- `pass1check` along runs in range that nobody has claimed. -/
theorem visited_pass1check (op : Operator) {sb : Superblock} (ino : Nat) {P : Checker → Prop}
    (hP : ∀ s s' : Checker, s'.disk = s.disk → P s → P s') : ∀ {rs : List (Nat × Nat)} {s : Checker},
    P s → (∀ r ∈ rs, r.1 ≠ 0 ∧ outrange sb r.1 r.2 = false) →
    (rs.map fun r => extent r.1 r.2).sum.Nodup →
    (∀ f ∈ (rs.map fun r => extent r.1 r.2).sum, s.blockmap f = false) →
    ∃ s', Visited P (pass1check op sb ino) rs s s' ∧
      Claimed s (rs.map fun r => extent r.1 r.2).sum s'
  | [], s, _, _, _, _ => ⟨s, rfl, rfl, rfl, fun f => by simp, by simp⟩
  | r :: rs, s, hs, hrs, hnodup, hfree => by
      rw [List.map_cons, List.sum_cons] at hnodup hfree
      obtain ⟨hp, hin⟩ := hrs r List.mem_cons_self
      obtain ⟨t, hclaim, ht⟩ := claimFrags_free op sb ino KEEPON (n := r.2) hp fun f hf =>
        hfree f (Multiset.mem_add.mpr (.inl hf))
      have hPt := hP s t ht.disk hs
      obtain ⟨s', hrest, hc⟩ := visited_pass1check op ino hP (s := t) hPt
        (fun r hr => hrs r (List.mem_cons_of_mem _ hr))
        (Multiset.nodup_of_le (Multiset.le_add_left _ _) hnodup) fun f hf => by
          have hnot : ¬ t.blockmap f = true := by
            rw [ht.blockmap]
            rintro (h | h)
            · rw [hfree f (Multiset.mem_add.mpr (.inr hf))] at h
              cases h
            · exact apart hnodup h hf
          exact Bool.eq_false_iff.mpr hnot
      refine ⟨s', ⟨t, ?_, hPt, hrest⟩, hc.disk.trans ht.disk, hc.log.trans ht.log, fun f => ?_, ?_⟩
      · unfold pass1check
        rw [hin]
        exact hclaim
      · rw [hc.blockmap, ht.blockmap, List.map_cons, List.sum_cons, Multiset.mem_add, or_assoc]
      · rw [hc.entryno, ht.entryno, List.map_cons, List.sum_cons, Multiset.card_add, Nat.add_assoc]

/-! ## Filesystems accounted for -/

/-- The inode owns fragments through its pointers. -/
def OwnsBlocks (ino : Inode) : Prop := ALLOC ino ∧ ¬ SPECIAL ino ∧ ¬ fastLink ino

instance (ino : Inode) : Decidable (OwnsBlocks ino) := by
  unfold OwnsBlocks
  infer_instance

/-- The fragments inode `i` owns. -/
def claims (fs : Fs) (i : Nat) : Multiset Nat :=
  if OwnsBlocks (fs.inode i) then Fs.fileFragments fs (fs.inode i) else 0

/-- An inode as the mutation code leaves it, its pointers to blocks apart. -/
structure Kept (ino : Inode) : Prop where
  free : ¬ ALLOC ino → blank ino
  type : ALLOC ino → ftypeok ino
  size : ino.size ≤ INT32_MAX
  link : ALLOC ino → fastLink ino → ino.mode &&& IFMT = IFLNK
  /-- A device has its number in the first pointer, and no blocks. -/
  device : SPECIAL ino → (∀ j < NDADDR, 1 ≤ j → ino.db j = 0) ∧ (∀ j < NIADDR, ino.ib j = 0) ∧
    ino.size = 0 ∧ ino.blocks = 0

/-- A consistent filesystem: what is in use is the metadata and what the files own, and nothing is
owned twice. -/
structure Accounted (fs : Fs) : Prop where
  sound : fs.Sound
  summary : fs.img.sb.cylSummaryAddr = cgdmin fs.img.sb 0
  kept : ∀ i < fs.img.sb.cgCount * fs.img.sb.inodesPerGroup, Kept (fs.inode i)
  file : ∀ i < fs.img.sb.cgCount * fs.img.sb.inodesPerGroup, OwnsBlocks (fs.inode i) →
    ∃ others, FileWf fs (fs.inode i) others
  apart : ∀ i < fs.img.sb.cgCount * fs.img.sb.inodesPerGroup,
    ∀ j < fs.img.sb.cgCount * fs.img.sb.inodesPerGroup, i ≠ j →
      ∀ f ∈ claims fs i, f ∉ claims fs j
  spared : ∀ i < fs.img.sb.cgCount * fs.img.sb.inodesPerGroup,
    ∀ f ∈ claims fs i, ¬ IsMeta fs.img.sb f
  used : ∀ f < fs.img.sb.fragCount, fs.isFree f = false ↔ IsMeta fs.img.sb f ∨
    ∃ i < fs.img.sb.cgCount * fs.img.sb.inodesPerGroup, f ∈ claims fs i

/-- The disk holds the filesystem: its inodes, and the blocks of its files. -/
structure OnDisk (fs : Fs) (disk : ByteStore) : Prop where
  inodes : ∀ i < fs.img.sb.cgCount * fs.img.sb.inodesPerGroup, ∀ off,
    inodeOffset fs.img.sb i = some off → decodeInode disk off = fs.inode i
  blocks : ∀ i < fs.img.sb.cgCount * fs.img.sb.inodesPerGroup,
    SameOn fs.img.sb.fragSize (claims fs i) fs.bytes disk

/-- The file's indirect blocks begin below 4 GiB. -/
def IndirectLow (fs : Fs) (ino : Inode) : Prop :=
  ∀ s < NIADDR, (fs.img.sb.slotTree fs.bytes ino s).Nodes fs.img.sb.entriesPerBlock
    fun p => p * fs.img.sb.fragSize < 4294967296

/-- So does the block of the inode table that holds inode `i`. -/
def InodeLow (fs : Fs) (i : Nat) : Prop :=
  itod fs.img.sb i * fs.img.sb.fragSize < 4294967296

/-! ## One file -/

section
variable {fs : Fs} {disk : ByteStore} {ino : Inode} {others : Multiset Nat}

/-- The indirect blocks of a well-formed file that holds no metadata are read where they are. -/
theorem nodes_inReach (hwf : FileWf fs ino others)
    (hspared : ∀ f ∈ Fs.fileFragments fs ino, ¬ IsMeta fs.img.sb f) (hlow : IndirectLow fs ino)
    {s : Nat} (hs : s < 3) : (fs.img.sb.slotTree fs.bytes ino s).Nodes fs.img.sb.entriesPerBlock
      (InReach fs.img.sb) := by
  have hinner : fs.img.sb.inner (fs.img.sb.slotTree fs.bytes ino s) ≤ Fs.fileFragments fs ino := by
    refine (le_sum (fun s => fs.img.sb.inner (fs.img.sb.slotTree fs.bytes ino s)) hs).trans ?_
    rw [Fs.fileFragments, Fs.fileOwn_eq _ hwf.1.slots]
    exact Multiset.le_add_right _ _
  refine ((BlockTree.nodes_of_inner hinner).and ((hwf.1.slots s hs).nodes.and (hlow s hs))).mono ?_
  rintro p ⟨hext, hok, hlt⟩
  exact ⟨hlt, outrange_eq_false hwf.1.sound hok.2 fun f hlo hhi =>
    hspared f (Multiset.mem_of_le hext (mem_extent.mpr ⟨hok.1, hlo, hhi⟩))⟩

theorem sum_runs_eq (fs : Fs) (ino : Inode) :
    ((fileRuns fs.img.sb fs.bytes ino).map fun r => extent r.1 r.2).sum =
      Fs.fileFragments fs ino := sum_fileRuns ..

theorem fragments_nodup (hwf : FileWf fs ino others) : (Fs.fileFragments fs ino).Nodup :=
  Multiset.nodup_of_le (FileTree.own_le hwf.1.toFileTree) fs.used_nodup

/-- The walk of the pass over a file that nobody has claimed yet. -/
theorem walk_claims (op : Operator) (i : Nat) (hwf : FileWf fs ino others)
    (hspecial : ¬ SPECIAL ino) (hspared : ∀ f ∈ Fs.fileFragments fs ino, ¬ IsMeta fs.img.sb f)
    (hlow : IndirectLow fs ino) {s : Checker}
    (hdisk : SameOn fs.img.sb.fragSize (Fs.fileFragments fs ino) fs.bytes s.disk)
    (hfree : ∀ f ∈ Fs.fileFragments fs ino, s.blockmap f = false) :
    ∃ s', ckinode op fs.img.sb (pass1Desc op fs.img.sb i) ino s = .ok KEEPON s' ∧
      Claimed s.start (Fs.fileFragments fs ino) s' := by
  have hsum := sum_runs_eq fs ino
  have hinner : fs.img.sb.fileInner fs.bytes ino ≤ Fs.fileFragments fs ino := by
    rw [Fs.fileFragments, Fs.fileOwn_eq _ hwf.1.slots]
    exact Multiset.le_add_right _ _
  have hruns : ∀ r ∈ fileRuns fs.img.sb fs.bytes ino,
      r.1 ≠ 0 ∧ outrange fs.img.sb r.1 r.2 = false := by
    intro r hr
    obtain ⟨hne, hrun⟩ := at_fileRuns hwf r hr
    refine ⟨hne, outrange_eq_false hwf.1.sound hrun fun f hlo hhi => hspared f ?_⟩
    rw [← hsum]
    exact Multiset.mem_of_le (List.single_le_sum (fun _ _ => Multiset.zero_le _) _
      (List.mem_map_of_mem (f := fun r : Nat × Nat => extent r.1 r.2) hr))
      (mem_extent.mpr ⟨hne, hlo, hhi⟩)
  have hstart : Holds fs.img.sb (Fs.fileFragments fs ino) fs.bytes s.start := hdisk
  obtain ⟨s', hvisit, hclaimed⟩ := visited_pass1check op i
    (fun s s' heq h => by unfold Holds; rw [heq]; exact h) hstart hruns
    (by rw [hsum]; exact fragments_nodup hwf) (by rw [hsum]; exact hfree)
  rw [hsum] at hclaimed
  exact ⟨s', ckinode_visits hwf.1.sound.valid rfl hspecial hwf.2
    (fun k hk hne => (hwf.1.direct k hk hne).2) hwf.1.slots
    (fun s hs => nodes_inReach hwf hspared hlow hs) hinner hdisk hvisit, hclaimed⟩
end

/-! ## The tests before the walk -/

/-- Every power of `nindir` up to the number of blocks is a turn of the loop. -/
theorem lt_slotsInUse {n : Nat} (hn : 2 ≤ n) : ∀ {s fuel x : Nat}, x ≤ fuel → n ^ s ≤ x →
    s < slotsInUse n fuel x
  | s, 0, x, hx, hs => by
      have := Nat.pow_pos (n := s) (show 0 < n by omega)
      omega
  | 0, fuel + 1, x, hx, hs => by
      rw [Nat.pow_zero] at hs
      rw [slotsInUse, if_neg (by omega)]
      omega
  | s + 1, fuel + 1, x, hx, hs => by
      have hpos := Nat.pow_pos (n := s + 1) (show 0 < n by omega)
      rw [slotsInUse, if_neg (by omega)]
      have hhalf : x / n ≤ fuel := by
        have h₁ : x / n ≤ x / 2 := Nat.div_le_div_left hn (by omega)
        omega
      have hpow : n ^ s ≤ x / n := by
        rw [Nat.le_div_iff_mul_le (by omega)]
        rwa [← Nat.pow_succ]
      have := lt_slotsInUse hn hhalf hpow
      omega

section
variable {fs : Fs} {disk : ByteStore} {ino : Inode} {others : Multiset Nat}

theorem blocksNamed_eq {sb : Superblock} (hg : Geometry sb) (hspecial : ¬ SPECIAL ino)
    (hsize : ino.size ≤ INT32_MAX) : blocksNamed sb ino = blocksOf sb ino.size := by
  rw [blocksNamed, howmany_eq hg hsize, if_neg hspecial, Int.toNat_natCast, Nat.add_zero]

/-- A well-formed file has no pointer past its end. -/
theorem pointersInside_of_wf (hwf : FileWf fs ino others) (hspecial : ¬ SPECIAL ino) :
    pointersInside fs.img.sb ino := by
  have hg := hwf.1.geometry
  have hbs := hg.blockSize_ge
  have hnindir : fs.img.sb.nindir = fs.img.sb.entriesPerBlock := nindir_eq hwf.1.sound.valid
  rw [pointersInside, blocksNamed_eq hg hspecial hwf.2]
  constructor
  · intro j hj hle
    by_contra hne
    exact absurd (hwf.1.direct j hj hne).2 (by omega)
  · intro j hj hle
    by_contra hne
    have hlt : fs.img.sb.slotBase j < blocksOf fs.img.sb ino.size :=
      (hwf.1.slots j hj).root_lt (by rwa [Superblock.slotTree, Superblock.tree, BlockTree.ptr_load])
    have hpow : fs.img.sb.nindir ^ j ≤ blocksOf fs.img.sb ino.size - NDADDR := by
      rw [hnindir]
      unfold NDADDR
      have hj' : j < 3 := hj
      interval_cases j
      · rw [Superblock.slotBase] at hlt
        rw [Nat.pow_zero]
        omega
      · rw [Superblock.slotBase_one] at hlt
        rw [Nat.pow_one]
        omega
      · rw [Superblock.slotBase_two] at hlt
        omega
    have htwo : 2 ≤ fs.img.sb.nindir := by
      rw [hnindir, Superblock.entriesPerBlock]
      omega
    exact absurd (lt_slotsInUse htwo le_rfl hpow) (by omega)

/-- The block count of a file is that of the fragments found. -/
theorem checkBlockCount_right (op : Operator) (i : Nat) {sb : Superblock} {s : Checker}
    (h : ino.blocks.toNat = s.idEntryno * sb.sectorsPerFrag) :
    checkBlockCount op sb i ino s = .ok ⟨⟩ s := by
  rw [checkBlockCount, bind_ok]
  refine ⟨s, s, rfl, ?_⟩
  dsimp only
  rw [← h, if_neg (by simp), pure_ok]
  exact ⟨rfl, rfl⟩

/-! ## One inode -/

/-- What a turn of the pass does about an inode with nothing wrong: it claims `m`, and says
nothing. -/
structure Quiet (s : Checker) (m : Multiset Nat) (s' : Checker) : Prop where
  disk : s'.disk = s.disk
  log : s'.log = s.log
  blockmap : ∀ f, s'.blockmap f = true ↔ s.blockmap f = true ∨ f ∈ m

theorem checkType_owner (op : Operator) (i : Nat) (hwf : FileWf fs ino others)
    (hown : OwnsBlocks ino) (htype : ftypeok ino)
    (hspared : ∀ f ∈ Fs.fileFragments fs ino, ¬ IsMeta fs.img.sb f) (hlow : IndirectLow fs ino)
    {s : Checker} (hdisk : SameOn fs.img.sb.fragSize (Fs.fileFragments fs ino) fs.bytes s.disk)
    (hfree : ∀ f ∈ Fs.fileFragments fs ino, s.blockmap f = false) :
    ∃ s', checkType op fs.img.sb i ino s = .ok ⟨⟩ s' ∧ Quiet s (Fs.fileFragments fs ino) s' := by
  set t : Checker := { s with
    nFiles := s.nFiles + 1, lncnt := Function.update s.lncnt i ino.nlink
    zln := if ino.nlink.toInt16 ≤ 0 then i :: s.zln else s.zln
    statemap := Function.update s.statemap i (if DIRCT ino then DSTATE else FSTATE)
    badblk := 0, dupblk := 0 } with ht
  obtain ⟨s', hwalk, hc⟩ := walk_claims op i hwf hown.2.1 hspared hlow (s := t) hdisk hfree
  refine ⟨s', ?_, hc.disk, hc.log, hc.blockmap⟩
  rw [checkType, if_neg (by simpa using htype), bind_ok]
  refine ⟨⟨⟩, t, rfl, ?_⟩
  rw [if_neg hown.2.2, bind_ok]
  refine ⟨KEEPON, s', hwalk, checkBlockCount_right op i ?_⟩
  rw [hc.entryno, hwf.1.blocks]
  show _ = (0 + _) * _
  rw [Nat.zero_add]
  rfl

theorem checkType_device (op : Operator) (sb : Superblock) (i : Nat) (hkept : Kept ino)
    (hspecial : SPECIAL ino) (hlink : ¬ fastLink ino) (htype : ftypeok ino) (s : Checker) :
    ∃ s', checkType op sb i ino s = .ok ⟨⟩ s' ∧ Quiet s 0 s' := by
  set t : Checker := { s with
    nFiles := s.nFiles + 1, lncnt := Function.update s.lncnt i ino.nlink
    zln := if ino.nlink.toInt16 ≤ 0 then i :: s.zln else s.zln
    statemap := Function.update s.statemap i (if DIRCT ino then DSTATE else FSTATE)
    badblk := 0, dupblk := 0 } with ht
  refine ⟨t.start, ?_, rfl, rfl, fun f => by simp [ht, Checker.start]⟩
  rw [checkType, if_neg (by simpa using htype), bind_ok]
  refine ⟨⟨⟩, t, rfl, ?_⟩
  rw [if_neg hlink, bind_ok]
  refine ⟨KEEPON, t.start, ?_, checkBlockCount_right op i ?_⟩
  · rw [ckinode, bind_ok]
    refine ⟨⟨⟩, t.start, rfl, ?_⟩
    rw [if_pos hspecial]
    rfl
  · rw [(hkept.device hspecial).2.2.2]
    show 0 = 0 * _
    rw [Nat.zero_mul]

theorem checkType_link (op : Operator) (sb : Superblock) (i : Nat) (hlink : fastLink ino)
    (htype : ftypeok ino) (s : Checker) :
    ∃ s', checkType op sb i ino s = .ok ⟨⟩ s' ∧ Quiet s 0 s' := by
  refine ⟨{ s with
    nFiles := s.nFiles + 1, lncnt := Function.update s.lncnt i ino.nlink
    zln := if ino.nlink.toInt16 ≤ 0 then i :: s.zln else s.zln
    statemap := Function.update s.statemap i (if DIRCT ino then DSTATE else FSTATE)
    badblk := 0, dupblk := 0 }, ?_, rfl, rfl, fun f => by simp⟩
  rw [checkType, if_neg (by simpa using htype), bind_ok]
  refine ⟨⟨⟩, _, rfl, ?_⟩
  rw [if_pos hlink]
  rfl
end

/-! ## The pass -/

/-- An inode is read from its record, if the block that holds it begins below 4 GiB. -/
theorem inodeOffset_device {fs : Fs} (hv : imageValidate fs.img = true) {i : Nat}
    (hlow : InodeLow fs i) : inodeOffset fs.img.sb i = some (inodeDevice fs.img.sb i) := by
  have hg := fs.img.geometry hv
  have hl := fs.img.layout hv
  have haddr : dbtob (fsbtodb fs.img.sb (itod fs.img.sb i)) =
      itod fs.img.sb i * fs.img.sb.fragSize := by
    rw [dbtob_eq, fsbtodb, Nat.div_mul_cancel (Nat.dvd_mul_left_of_dvd (dvd_fragSize hv) _),
      Nat.mod_eq_of_lt hlow]
  have hslot : i % fs.img.sb.inodesPerGroup % fs.img.sb.inodesPerBlock =
      i % fs.img.sb.inodesPerBlock :=
    Nat.mod_mod_of_dvd i (Nat.dvd_of_mod_eq_zero hl.inodesPerGroup)
  have hipb : fs.img.sb.inodesPerBlock ≠ 0 := by
    intro h0
    have h₁ := hl.inodesPerBlock
    have h₂ := hg.blockSize_ge
    rw [h0] at h₁
    omega
  unfold inodeOffset
  rw [if_neg (by
    rintro (h | h | h)
    · exact absurd h (Nat.ne_of_gt hg.ipg_pos)
    · exact absurd h (Nat.ne_of_gt hg.fpg_pos)
    · exact hipb h), inodeDevice, haddr, ← hslot]
  rfl

section
variable {fs : Fs} {disk : ByteStore} {ino : Inode} {others : Multiset Nat}

theorem claims_of_owns {i : Nat} (h : OwnsBlocks (fs.inode i)) :
    claims fs i = Fs.fileFragments fs (fs.inode i) := if_pos h

theorem claims_of_not {i : Nat} (h : ¬ OwnsBlocks (fs.inode i)) : claims fs i = 0 := if_neg h

/-- One turn of the pass over an inode of a consistent filesystem. -/
theorem pass1Inode_quiet (op : Operator) (ha : Accounted fs) (hd : OnDisk fs disk) {i : Nat}
    (hi : i < fs.img.sb.cgCount * fs.img.sb.inodesPerGroup) (hroot : ROOTINO ≤ i)
    (hlow : InodeLow fs i) (hind : OwnsBlocks (fs.inode i) → IndirectLow fs (fs.inode i))
    {s : Checker} (hdisk : s.disk = disk) (hfree : ∀ f ∈ claims fs i, s.blockmap f = false) :
    ∃ s', pass1Inode op fs.img.sb i s = .ok ⟨⟩ s' ∧ Quiet s (claims fs i) s' := by
  have hkept := ha.kept i hi
  have hread : ginode fs.img.sb i s = .ok (fs.inode i) s := by
    rw [ginode, if_neg (by omega), bind_ok]
    refine ⟨s, s, rfl, ?_⟩
    rw [hdisk, hd.inodes i hi _ (inodeOffset_device ha.sound.valid hlow)]
    rfl
  have hsize := diSize_eq hkept.size
  have hsize' := hkept.size
  unfold INT32_MAX at hsize'
  by_cases halloc : ALLOC (fs.inode i)
  case neg =>
    rw [claims_of_not fun h => halloc h.1]
    refine ⟨{ s with statemap := Function.update s.statemap i USTATE }, ?_, rfl, rfl,
      fun f => by simp⟩
    rw [pass1Inode, if_neg (by omega), bind_ok]
    refine ⟨fs.inode i, s, hread, ?_⟩
    rw [if_pos halloc, freeInode, if_neg (by simpa using hkept.free halloc)]
    rfl
  have htype := hkept.type halloc
  -- what comes before the tests of the pointers
  have hstart : ∀ t u, (if fastLink (fs.inode i) then
      (if (fs.inode i).mode &&& IFMT ≠ IFLNK then badFastLink op fs.img.sb i (fs.inode i)
        else checkType op fs.img.sb i (fs.inode i))
      else if pointersInside fs.img.sb (fs.inode i) then checkType op fs.img.sb i (fs.inode i)
      else unknownInode op fs.img.sb i) t = .ok ⟨⟩ u →
      t = { s with lastino := i } → pass1Inode op fs.img.sb i s = .ok ⟨⟩ u := by
    rintro t u h rfl
    rw [pass1Inode, if_neg (by omega), bind_ok]
    refine ⟨fs.inode i, s, hread, ?_⟩
    rw [if_neg (by simpa using halloc), bind_ok]
    refine ⟨⟨⟩, { s with lastino := i }, rfl, ?_⟩
    rw [if_neg (by omega), bind_ok]
    refine ⟨fs.inode i, { s with lastino := i }, ?_, h⟩
    rw [holdBadBlock, if_neg]
    · rfl
    · rintro ⟨-, hmt⟩
      rw [ftypeok, hmt] at htype
      exact absurd htype (by decide)
  by_cases hfast : fastLink (fs.inode i)
  · obtain ⟨s', hstep, hq⟩ := checkType_link op fs.img.sb i hfast htype
      { s with lastino := i }
    rw [claims_of_not fun h => h.2.2 hfast]
    refine ⟨s', hstart _ s' ?_ rfl, hq.disk, hq.log, hq.blockmap⟩
    rw [if_pos hfast, if_neg (by simpa using hkept.link halloc hfast)]
    exact hstep
  by_cases hspecial : SPECIAL (fs.inode i)
  · obtain ⟨s', hstep, hq⟩ := checkType_device op fs.img.sb i hkept hspecial hfast htype
      { s with lastino := i }
    rw [claims_of_not fun h => h.2.1 hspecial]
    refine ⟨s', hstart _ s' ?_ rfl, hq.disk, hq.log, hq.blockmap⟩
    obtain ⟨hdb, hib, -⟩ := hkept.device hspecial
    have hinside : pointersInside fs.img.sb (fs.inode i) := by
      refine ⟨fun j hj hle => hdb j hj ?_, fun j hj _ => hib j hj⟩
      rw [blocksNamed, if_pos hspecial] at hle
      omega
    rw [if_neg hfast, if_pos hinside]
    exact hstep
  · have hown : OwnsBlocks (fs.inode i) := ⟨halloc, hspecial, hfast⟩
    have hcl := claims_of_owns hown
    obtain ⟨others, hwf⟩ := ha.file i hi hown
    have hblocks := hd.blocks i hi
    have hspared := ha.spared i hi
    rw [hcl] at hfree hblocks hspared ⊢
    obtain ⟨s', hstep, hq⟩ := checkType_owner op i hwf hown htype hspared (hind hown)
      (s := { s with lastino := i }) (by rw [hdisk]; exact hblocks) hfree
    refine ⟨s', hstart _ s' ?_ rfl, hq.disk, hq.log, hq.blockmap⟩
    rw [if_neg hfast, if_pos (pointersInside_of_wf hwf hspecial)]
    exact hstep

/-- The inodes before `n` and what they own are read where they are. -/
def LowUpTo (fs : Fs) (n : Nat) : Prop :=
  ∀ i < n, ROOTINO ≤ i → InodeLow fs i ∧ (OwnsBlocks (fs.inode i) → IndirectLow fs (fs.inode i))

/-- The first `n` turns: nothing is said, and what the inodes own is claimed. -/
theorem pass1Inodes_quiet (op : Operator) (ha : Accounted fs) (hd : OnDisk fs disk) {s : Checker}
    (hdisk : s.disk = disk) (hmap : ∀ f, s.blockmap f = true ↔ IsMeta fs.img.sb f) : ∀ {n : Nat},
    n ≤ fs.img.sb.cgCount * fs.img.sb.inodesPerGroup → LowUpTo fs n →
    ∃ s', pass1Inodes op fs.img.sb n s = .ok ⟨⟩ s' ∧ s'.disk = s.disk ∧ s'.log = s.log ∧
      ∀ f, s'.blockmap f = true ↔ IsMeta fs.img.sb f ∨
        ∃ i < n, ROOTINO ≤ i ∧ f ∈ claims fs i
  | 0, _, _ => ⟨s, rfl, rfl, rfl, fun f => by simp [hmap]⟩
  | n + 1, hn, hlow => by
      obtain ⟨t, hrun, htdisk, htlog, htmap⟩ := pass1Inodes_quiet op ha hd hdisk hmap
        (n := n) (by omega) fun i hi => hlow i (by omega)
      by_cases hroot : ROOTINO ≤ n
      case neg =>
        refine ⟨t, ?_, htdisk, htlog, fun f => ?_⟩
        · rw [pass1Inodes, bind_ok]
          refine ⟨⟨⟩, t, hrun, ?_⟩
          rw [pass1Inode, if_pos (by omega)]
          rfl
        · rw [htmap]
          refine or_congr_right ⟨fun ⟨i, hi, h⟩ => ⟨i, by omega, h⟩, fun ⟨i, hi, hr, h⟩ => ?_⟩
          exact ⟨i, by omega, hr, h⟩
      case pos =>
        have hfree : ∀ f ∈ claims fs n, t.blockmap f = false := by
          intro f hf
          rw [← Bool.not_eq_true, htmap]
          rintro (h | ⟨i, hi, -, h⟩)
          · exact ha.spared n (by omega) f hf h
          · exact ha.apart n (by omega) i (by omega) (by omega) f hf h
        obtain ⟨s', hstep, hq⟩ := pass1Inode_quiet op ha hd (by omega) hroot
          (hlow n (by omega) hroot).1 (hlow n (by omega) hroot).2 (htdisk.trans hdisk) hfree
        refine ⟨s', ?_, hq.disk.trans htdisk, hq.log.trans htlog, fun f => ?_⟩
        · rw [pass1Inodes, bind_ok]
          exact ⟨⟨⟩, t, hrun, hstep⟩
        · rw [hq.blockmap, htmap, or_assoc]
          refine or_congr_right ⟨?_, ?_⟩
          · rintro (⟨i, hi, h⟩ | h)
            · exact ⟨i, by omega, h⟩
            · exact ⟨n, by omega, hroot, h⟩
          · rintro ⟨i, hi, hr, h⟩
            rcases Nat.lt_succ_iff_lt_or_eq.mp hi with hlt | rfl
            · exact .inl ⟨i, hlt, hr, h⟩
            · exact .inr h

/-- The pass up to inode `n`, from a map as `calloc` leaves it. -/
theorem pass1Until_quiet (op : Operator) (ha : Accounted fs) (hd : OnDisk fs disk) {s : Checker}
    (hdisk : s.disk = disk) (hmap : s.blockmap = fun _ => false) {n : Nat}
    (hn : n ≤ fs.img.sb.cgCount * fs.img.sb.inodesPerGroup) (hlow : LowUpTo fs n) :
    ∃ s', pass1Until op fs.img.sb n s = .ok ⟨⟩ s' ∧ s'.disk = s.disk ∧ s'.log = s.log ∧
      ∀ f, s'.blockmap f = true ↔ IsMeta fs.img.sb f ∨
        ∃ i < n, ROOTINO ≤ i ∧ f ∈ claims fs i := by
  have hreserved : ∀ f, reserve fs.img.sb s.blockmap fs.img.sb.cgCount f = true ↔
      IsMeta fs.img.sb f := by
    rw [hmap]
    exact reserve_eq ha.sound.geometry.cg_pos ha.summary
  obtain ⟨s', hrun, hs'⟩ := pass1Inodes_quiet op ha hd (s := { s with
    blockmap := reserve fs.img.sb s.blockmap fs.img.sb.cgCount, nFiles := 0, nBlks := 0 }) hdisk
    hreserved hn hlow
  exact ⟨s', bind_ok.mpr ⟨⟨⟩, _, rfl, hrun⟩, hs'⟩

/-- The whole pass over a consistent filesystem whose inodes are all read where they are: it prints
nothing, and afterwards the map has the metadata and what the inodes own. -/
theorem pass1_quiet (op : Operator) (ha : Accounted fs) (hd : OnDisk fs disk) {s : Checker}
    (hdisk : s.disk = disk) (hmap : s.blockmap = fun _ => false)
    (hlow : LowUpTo fs (fs.img.sb.cgCount * fs.img.sb.inodesPerGroup)) :
    ∃ s', pass1 op fs.img.sb s = .ok ⟨⟩ s' ∧ s'.disk = s.disk ∧ s'.log = s.log ∧
      ∀ f, s'.blockmap f = true ↔ IsMeta fs.img.sb f ∨
        ∃ i < fs.img.sb.cgCount * fs.img.sb.inodesPerGroup, ROOTINO ≤ i ∧ f ∈ claims fs i :=
  pass1Until_quiet op ha hd hdisk hmap le_rfl hlow

/-! ## The two codes agree -/

/-- A walk with a callback that always continues calls it exactly for the runs the file owns, each
once: `fileRuns`. The callback may do what it likes but write the file's indirect blocks. -/
structure Walked (fs : Fs) (disk : ByteStore) (ino : Inode) : Prop where
  visits : ∀ (op : Operator) (id : Inodesc) (f : Nat → Nat → Checker → Checker) (s : Checker),
    id.type = .addr → s.disk = disk →
    (∀ blk n s, SameOn fs.img.sb.fragSize (fs.img.sb.fileInner fs.bytes ino) s.disk
      (f blk n s).disk) →
    ckinode op fs.img.sb { id with func := continuing f } ino s = .ok KEEPON
      ((fileRuns fs.img.sb fs.bytes ino).foldl (fun s r => f r.1 r.2 s) s.start)
  once : (fileRuns fs.img.sb fs.bytes ino).Nodup
  owned : ((fileRuns fs.img.sb fs.bytes ino).map fun r => extent r.1 r.2).sum =
    Fs.fileFragments fs ino
  count : ino.blocks.toNat =
    ((fileRuns fs.img.sb fs.bytes ino).map Prod.snd).sum * fs.img.sb.sectorsPerFrag

/-- In a run of the pass over the disk, from maps as `calloc` leaves them, the turn of inode `i`
comes to its end and prints nothing. -/
def Pass1Silent (fs : Fs) (disk : ByteStore) (i : Nat) : Prop :=
  ∀ (op : Operator) (s : Checker), s.disk = disk → s.blockmap = (fun _ => false) →
    ∃ s₁ s₂, pass1Until op fs.img.sb i s = .ok ⟨⟩ s₁ ∧
      pass1Inode op fs.img.sb i s₁ = .ok ⟨⟩ s₂ ∧ s₂.log = s₁.log

theorem walked (hwf : FileWf fs ino others) (hspecial : ¬ SPECIAL ino)
    (hspared : ∀ f ∈ Fs.fileFragments fs ino, ¬ IsMeta fs.img.sb f) (hlow : IndirectLow fs ino)
    (hdisk : SameOn fs.img.sb.fragSize (Fs.fileFragments fs ino) fs.bytes disk) :
    Walked fs disk ino := by
  have hsum := sum_runs_eq fs ino
  have hruns := at_fileRuns hwf
  have hinner : fs.img.sb.fileInner fs.bytes ino ≤ Fs.fileFragments fs ino := by
    rw [Fs.fileFragments, Fs.fileOwn_eq _ hwf.1.slots]
    exact Multiset.le_add_right _ _
  refine ⟨fun op id f s haddr hs hf => ?_, ?_, hsum, ?_⟩
  · have hbegin : Holds fs.img.sb (fs.img.sb.fileInner fs.bytes ino) fs.bytes s := by
      unfold Holds
      rw [hs]
      exact hdisk.mono hinner
    have hstart : Holds fs.img.sb (fs.img.sb.fileInner fs.bytes ino) fs.bytes s.start := hbegin
    refine ckinode_visits hwf.1.sound.valid ?_ hspecial hwf.2
      (fun k hk hne => (hwf.1.direct k hk hne).2) hwf.1.slots
      (fun s hs => nodes_inReach hwf hspared hlow hs) le_rfl hbegin ?_
    · exact haddr
    · exact visited_continuing (fun blk n s h => h.trans (hf blk n s)) _ hstart
  · refine nodup_of_sum (fun r hr => ⟨(hruns r hr).1, (hruns r hr).2.pos⟩) ?_
    rw [hsum]
    exact fragments_nodup hwf
  · rw [← card_sum_runs fun r hr => (hruns r hr).1, hsum]
    exact hwf.1.blocks

/-- `ckinode` and the mutation code agree on every file of a consistent filesystem whose indirect
blocks begin below 4 GiB; and the first pass has nothing to say about it, if the inodes up to it
and their indirect blocks begin there too. -/
theorem ckinode_agrees (ha : Accounted fs) (hd : OnDisk fs disk) {i : Nat}
    (hi : i < fs.img.sb.cgCount * fs.img.sb.inodesPerGroup) (hroot : ROOTINO ≤ i)
    (hown : OwnsBlocks (fs.inode i)) :
    (IndirectLow fs (fs.inode i) → Walked fs disk (fs.inode i)) ∧
      (LowUpTo fs (i + 1) → Pass1Silent fs disk i) := by
  obtain ⟨others, hwf⟩ := ha.file i hi hown
  have hspared := ha.spared i hi
  have hblocks := hd.blocks i hi
  rw [claims_of_owns hown] at hspared hblocks
  refine ⟨fun hlow => walked hwf hown.2.1 hspared hlow hblocks, fun hlow op s hdisk hmap => ?_⟩
  obtain ⟨s₁, hrun, hdisk₁, -, hmap₁⟩ :=
    pass1Until_quiet op ha hd hdisk hmap hi.le fun j hj => hlow j (by omega)
  obtain ⟨s₂, hturn, hq⟩ := pass1Inode_quiet op ha hd hi hroot (hlow i (by omega) hroot).1
    (hlow i (by omega) hroot).2 (s := s₁) (hdisk₁.trans hdisk) fun f hf => by
      rw [← Bool.not_eq_true, hmap₁]
      rintro (h | ⟨j, hj, -, h⟩)
      · exact ha.spared i hi f hf h
      · exact ha.apart i hi j (by omega) (by omega) f hf h
  exact ⟨s₁, s₂, hrun, hturn, hq.log⟩
end

/-! ## Two small files -/

theorem decodeInode_congr {d e : ByteStore} {p q : Nat} (h : ∀ x < 112, d (p + x) = e (q + x)) :
    decodeInode d p = decodeInode e q := by
  have h16 : ∀ x, x + 2 ≤ 112 → be16 d (p + x) = be16 e (q + x) := fun x hx =>
    be16_congr fun i hi => by simpa only [Nat.add_assoc] using h (x + i) (by omega)
  have h32 : ∀ x, x + 4 ≤ 112 → be32 d (p + x) = be32 e (q + x) := fun x hx =>
    be32_congr fun i hi => by simpa only [Nat.add_assoc] using h (x + i) (by omega)
  have h64 : be64 d (p + 8) = be64 e (q + 8) :=
    be64_congr fun i hi => by simpa only [Nat.add_assoc] using h (8 + i) (by omega)
  have hmode : be16 d p = be16 e q := h16 0 (by omega)
  have hdb : (fun i => if i < NDADDR then be32 d (p + 40 + i * 4) else 0) =
      fun i => if i < NDADDR then be32 e (q + 40 + i * 4) else 0 := by
    funext i
    split
    case isTrue hi =>
      unfold NDADDR at hi
      simpa only [Nat.add_assoc] using h32 (40 + i * 4) (by omega)
    case isFalse => rfl
  have hib : (fun i => if i < NIADDR then be32 d (p + 88 + i * 4) else 0) =
      fun i => if i < NIADDR then be32 e (q + 88 + i * 4) else 0 := by
    funext i
    split
    case isTrue hi =>
      unfold NIADDR at hi
      simpa only [Nat.add_assoc] using h32 (88 + i * 4) (by omega)
    case isFalse => rfl
  unfold decodeInode
  rw [hmode, h16 2 (by omega), h16 4 (by omega), h16 6 (by omega), h64, h32 100 (by omega),
    h32 104 (by omega), h32 108 (by omega), hdb, hib]

/-- A file of direct runs. -/
theorem directFile_wf {fs : Fs} (hs : fs.Sound) {ino : Inode} (hib : ∀ s, ino.ib s = 0)
    (hdirect : ∀ k < 12, ino.db k ≠ 0 → fs.RunOk (ino.db k) (fileFrags fs.img.sb ino.size k) ∧
      k < blocksOf fs.img.sb ino.size)
    (hle : ∑ k ∈ Finset.range 12, extent (ino.db k) (fileFrags fs.img.sb ino.size k) ≤ fs.used)
    (hblocks : ino.blocks.toNat =
      (∑ k ∈ Finset.range 12, extent (ino.db k) (fileFrags fs.img.sb ino.size k)).card *
        fs.img.sb.sectorsPerFrag) (hsize : ino.size ≤ INT32_MAX) :
    (∃ others, FileWf fs ino others) ∧ Fs.fileFragments fs ino =
      ∑ k ∈ Finset.range 12, extent (ino.db k) (fileFrags fs.img.sb ino.size k) := by
  have hslots : ∀ s, fs.img.sb.slotTree fs.bytes ino s = .hole := fun s => by
    rw [Superblock.slotTree, hib s]
    exact BlockTree.load_null _
  have hown : fs.img.sb.fileOwn fs.bytes ino (fileFrags fs.img.sb ino.size) =
      ∑ k ∈ Finset.range 12, extent (ino.db k) (fileFrags fs.img.sb ino.size k) := by
    simp only [Superblock.fileOwn, hslots]
    exact add_zero _
  obtain ⟨others, hothers⟩ := Multiset.le_iff_exists_add.mp hle
  refine ⟨⟨others, ⟨⟨hs, hdirect, fun s _ => ?_, ?_⟩, ?_⟩, hsize⟩, hown⟩
  · rw [hslots]
    trivial
  · rw [hown, hothers]
  · rw [hown, hblocks]

/-- The records of two files of one run each: 7 fragments from 33, and 5 from 40. -/
def twoFilesDisk : ByteStore :=
  let file (p size blk n : Nat) (d : ByteStore) : ByteStore :=
    setBe32 (setBe32 (setBe32 (setBe16 (setBe16 d p 0o100644) (p + 2) 1) (p + 12) size)
      (p + 40) blk) (p + 104) n
  file (24576 + 3 * 128) 7168 33 7 (file (24576 + 4 * 128) 5000 40 5 fun _ => 0)

/-- The small filesystem with these files. -/
def twoFilesFs : Fs :=
  { oneGroupFs with
    inode := fun i => decodeInode twoFilesDisk ((inodeOffset oneGroup.sb i).getD 0) }

/-- What the disk says about them. -/
theorem twoFilesFs_inodes : ∀ r ∈ [(3, 33, 7), (4, 40, 5)],
    (twoFilesFs.inode r.1).db 0 = r.2.1 ∧ (∀ k < 12, k ≠ 0 → (twoFilesFs.inode r.1).db k = 0) ∧
      (∀ s < 3, (twoFilesFs.inode r.1).ib s = 0) ∧
      (twoFilesFs.inode r.1).size ≤ 8192 ∧
      fileFrags oneGroup.sb (twoFilesFs.inode r.1).size 0 = r.2.2 ∧
      (twoFilesFs.inode r.1).blocks.toNat = r.2.2 ∧
      OwnsBlocks (twoFilesFs.inode r.1) ∧ ftypeok (twoFilesFs.inode r.1) := by
  decide +kernel

theorem twoFilesFs_sound : twoFilesFs.Sound :=
  have h := oneGroupFs_consistent
  ⟨oneGroup_valid, ⟨h.group, h.summary, h.ndir, h.nbfree, h.nifree, h.nffree⟩, by decide,
    by decide, by decide⟩

theorem twoFilesFs_isFree {f : Nat} (hf : f < 64) : twoFilesFs.isFree f = false ↔ f < 45 := by
  show (decide (45 ≤ f % 64) && decide (f % 64 < 64)) = false ↔ f < 45
  rw [Nat.mod_eq_of_lt hf, decide_eq_true hf, Bool.and_true, decide_eq_false_iff_not, Nat.not_le]

theorem twoFilesFs_run {i p n : Nat} (hi : (i = 3 ∧ p = 33 ∧ n = 7) ∨ (i = 4 ∧ p = 40 ∧ n = 5)) :
    (∃ others, FileWf twoFilesFs (twoFilesFs.inode i) others) ∧
      Fs.fileFragments twoFilesFs (twoFilesFs.inode i) = extent p n := by
  have hmem : (i, p, n) ∈ [(3, 33, 7), (4, 40, 5)] := by
    rcases hi with ⟨rfl, rfl, rfl⟩ | ⟨rfl, rfl, rfl⟩ <;> decide
  obtain ⟨hdb, hdb', hib, hsize, hlen, hblocks, -, -⟩ := twoFilesFs_inodes _ hmem
  dsimp only at hdb hdb' hib hsize hlen hblocks
  have hp : p ≠ 0 ∧ 0 < n ∧ p + n ≤ 45 ∧ p % 8 + n ≤ 8 := by omega
  obtain ⟨hp, hn, hlt, hblock⟩ := hp
  have hsum : ∑ k ∈ Finset.range 12, extent ((twoFilesFs.inode i).db k)
      (fileFrags twoFilesFs.img.sb (twoFilesFs.inode i).size k) = extent p n := by
    rw [Finset.sum_eq_single_of_mem 0 (by decide) fun k hk hne => by
      rw [hdb' k (Finset.mem_range.mp hk) hne, extent_null], hdb]
    exact congrArg (extent p) hlen
  have hpositive : 0 < (twoFilesFs.inode i).size := by
    refine Nat.pos_of_ne_zero fun h0 => ?_
    rw [h0] at hlen
    have hnone : n = 0 := hlen.symm
    omega
  rw [← hsum]
  refine directFile_wf twoFilesFs_sound ?_ ?_ ?_ ?_ ?_
  · intro s
    by_cases hs : s < 3
    · exact hib s hs
    · exact if_neg hs
  · intro k hk hne
    obtain rfl : k = 0 := by
      by_contra h
      exact hne (hdb' k hk h)
    refine ⟨?_, (lt_blocksOf twoFilesFs_sound.geometry).mpr ?_⟩
    · rw [hdb]
      refine ⟨?_, ?_, ?_, ?_⟩
      · exact hlen.symm ▸ hn
      · show p / 64 < 1
        omega
      · show p % 64 + fileFrags oneGroup.sb (twoFilesFs.inode i).size 0 ≤ 64
        omega
      · show p % 64 % 8 + fileFrags oneGroup.sb (twoFilesFs.inode i).size 0 ≤ 8
        omega
    · rwa [Nat.zero_mul]
  · rw [hsum, Multiset.le_iff_subset (extent_nodup _ _)]
    intro f hf
    have hin := mem_extent.mp hf
    have hsmall : f < 64 := by omega
    exact Fs.mem_used.mpr ⟨hsmall, (twoFilesFs_isFree hsmall).mpr (by omega)⟩
  · rw [hsum, card_extent hp, hblocks]
    exact (Nat.mul_one n).symm
  · unfold INT32_MAX
    omega

theorem twoFilesDisk_zero {x : Nat} (h : x < 24960 ∨ 25216 ≤ x) : twoFilesDisk x = 0 := by
  simp only [twoFilesDisk, setBe32, setBe16, patch]
  iterate 10 rw [if_neg (by omega)]

theorem twoFilesFs_blank {i : Nat} (hi : i < 64) (h₃ : i ≠ 3) (h₄ : i ≠ 4) :
    twoFilesFs.inode i = decodeInode (fun _ => 0) 0 := by
  have hoff : inodeOffset oneGroup.sb i = some (24576 + i * 128) := by
    simp only [inodeOffset, cgstart, oneGroup, UFS_INODE_SIZE, Nat.zero_mul, Nat.shiftLeft_eq]
    rw [if_neg (by omega)]
    refine congrArg some ?_
    omega
  show decodeInode twoFilesDisk ((inodeOffset oneGroup.sb i).getD 0) = _
  rw [hoff]
  refine decodeInode_congr fun x hx => twoFilesDisk_zero ?_
  show 24576 + i * 128 + x < 24960 ∨ 25216 ≤ 24576 + i * 128 + x
  omega

theorem blank_zero : blank (decodeInode (fun _ => 0) 0) ∧ ¬ ALLOC (decodeInode (fun _ => 0) 0) ∧
    (decodeInode (fun _ => 0) 0).size ≤ INT32_MAX ∧ ¬ SPECIAL (decodeInode (fun _ => 0) 0) := by
  decide +kernel

theorem kept_zero : Kept (decodeInode (fun _ => 0) 0) := by
  obtain ⟨hblank, halloc, hsize, hspecial⟩ := blank_zero
  exact ⟨fun _ => hblank, fun h => absurd h halloc, hsize, fun h => absurd h halloc,
    fun h => absurd h hspecial⟩

theorem twoFilesFs_owns {i : Nat} (hi : i < 64) :
    OwnsBlocks (twoFilesFs.inode i) ↔ i = 3 ∨ i = 4 := by
  constructor
  · intro h
    by_contra hne
    rw [twoFilesFs_blank hi (fun h₃ => hne (.inl h₃)) fun h₄ => hne (.inr h₄)] at h
    exact blank_zero.2.1 h.1
  · rintro (rfl | rfl)
    · exact (twoFilesFs_inodes (3, 33, 7) (by decide)).2.2.2.2.2.2.1
    · exact (twoFilesFs_inodes (4, 40, 5) (by decide)).2.2.2.2.2.2.1

theorem twoFilesFs_claims (i : Nat) (hi : i < 64) : claims twoFilesFs i =
    if i = 3 then extent 33 7 else if i = 4 then extent 40 5 else 0 := by
  unfold claims
  split
  case isTrue h =>
    rcases (twoFilesFs_owns hi).mp h with rfl | rfl
    · exact (twoFilesFs_run (.inl ⟨rfl, rfl, rfl⟩)).2
    · exact (twoFilesFs_run (.inr ⟨rfl, rfl, rfl⟩)).2
  case isFalse h =>
    rw [twoFilesFs_owns hi] at h
    rw [if_neg fun h3 => h (.inl h3), if_neg fun h4 => h (.inr h4)]

theorem twoFilesFs_meta (f : Nat) : IsMeta twoFilesFs.img.sb f ↔ f < 33 := by
  have hdata : cgdmin twoFilesFs.img.sb 0 = 32 := by decide
  constructor
  · rintro (⟨c, hc, -, hhi⟩ | ⟨-, hhi⟩)
    · obtain rfl : c = 0 := Nat.lt_one_iff.mp hc
      omega
    · exact hhi
  · intro h
    by_cases hlt : f < 32
    · exact .inl ⟨0, by decide, Nat.zero_le f, by omega⟩
    · exact .inr ⟨Nat.le_of_not_lt hlt, h⟩

theorem twoFilesFs_mem {i f : Nat} (hi : i < 64) : f ∈ claims twoFilesFs i ↔
    (i = 3 ∧ 33 ≤ f ∧ f < 40) ∨ (i = 4 ∧ 40 ≤ f ∧ f < 45) := by
  rw [twoFilesFs_claims i hi]
  split
  case isTrue h => simp [mem_extent, h]
  case isFalse h =>
    split
    case isTrue h' => simp [mem_extent, h']
    case isFalse h' => simp [h, h']

theorem twoFilesFs_kept (i : Nat) (hi : i < 64) : Kept (twoFilesFs.inode i) := by
  by_cases h : i = 3 ∨ i = 4
  · have hmem : ∃ p n, (i, p, n) ∈ [(3, 33, 7), (4, 40, 5)] := by
      rcases h with rfl | rfl
      · exact ⟨33, 7, by decide⟩
      · exact ⟨40, 5, by decide⟩
    obtain ⟨p, n, hmem⟩ := hmem
    obtain ⟨-, -, -, hsize, -, -, ⟨halloc, hspecial, hlink⟩, htype⟩ := twoFilesFs_inodes _ hmem
    exact ⟨fun h => absurd halloc h, fun _ => htype, hsize.trans (by decide),
      fun _ h => absurd h hlink, fun h => absurd h hspecial⟩
  · rw [twoFilesFs_blank hi (fun h₃ => h (.inl h₃)) fun h₄ => h (.inr h₄)]
    exact kept_zero

theorem twoFilesFs_accounted : Accounted twoFilesFs := by
  refine ⟨twoFilesFs_sound, rfl, twoFilesFs_kept, fun i hi hown => ?_,
    fun i hi j hj hne f hf => ?_, fun i hi f hf => ?_, fun f hf => ?_⟩
  · rcases (twoFilesFs_owns hi).mp hown with rfl | rfl
    · exact (twoFilesFs_run (.inl ⟨rfl, rfl, rfl⟩)).1
    · exact (twoFilesFs_run (.inr ⟨rfl, rfl, rfl⟩)).1
  · rw [twoFilesFs_mem hi] at hf
    rw [twoFilesFs_mem hj]
    omega
  · rw [twoFilesFs_mem hi] at hf
    rw [twoFilesFs_meta]
    omega
  · rw [twoFilesFs_isFree hf, twoFilesFs_meta]
    constructor
    · intro h
      by_cases h₁ : f < 33
      · exact .inl h₁
      · by_cases h₂ : f < 40
        · exact .inr ⟨3, by decide, (twoFilesFs_mem (by decide)).mpr (.inl (by omega))⟩
        · exact .inr ⟨4, by decide, (twoFilesFs_mem (by decide)).mpr (.inr (by omega))⟩
    · rintro (h | ⟨i, hi, h⟩)
      · omega
      · rw [twoFilesFs_mem hi] at h
        omega

theorem twoFilesFs_onDisk : OnDisk twoFilesFs twoFilesDisk := by
  refine ⟨fun i _ off hoff => ?_, fun i hi f hf x _ => ?_⟩
  · have hoff' : inodeOffset oneGroup.sb i = some off := hoff
    show _ = decodeInode twoFilesDisk ((inodeOffset oneGroup.sb i).getD 0)
    rw [hoff']
    rfl
  · -- the records end before the first fragment of a file
    rw [twoFilesFs_mem hi] at hf
    exact twoFilesDisk_zero (by
      show f * 1024 + x < 24960 ∨ 25216 ≤ f * 1024 + x
      omega)

/-- Both files are walked as they lie, and the pass is silent about the second one. -/
theorem ckinode_agrees_twoFiles :
    Walked twoFilesFs twoFilesDisk (twoFilesFs.inode 4) ∧ Pass1Silent twoFilesFs twoFilesDisk 4 := by
  have hlow : ∀ i < 64, OwnsBlocks (twoFilesFs.inode i) →
      IndirectLow twoFilesFs (twoFilesFs.inode i) := by
    intro i hi hown s hs
    have hib : (twoFilesFs.inode i).ib s = 0 := by
      rcases (twoFilesFs_owns hi).mp hown with rfl | rfl
      · exact (twoFilesFs_inodes (3, 33, 7) (by decide)).2.2.1 s hs
      · exact (twoFilesFs_inodes (4, 40, 5) (by decide)).2.2.1 s hs
    rw [Superblock.slotTree, hib, Superblock.tree, BlockTree.load_null]
    trivial
  have hfour : OwnsBlocks (twoFilesFs.inode 4) := (twoFilesFs_owns (by decide)).mpr (.inr rfl)
  have h := ckinode_agrees twoFilesFs_accounted twoFilesFs_onDisk (by decide) (by decide) hfour
  refine ⟨h.1 (hlow 4 (by decide) hfour), h.2 fun i hi _ => ⟨?_, hlow i (by omega)⟩⟩
  have htable : itod oneGroup.sb i = 64 * (i / 64) + 24 + (i % 64 / 64) * 8 := by
    simp only [itod, cgimin, cgstart, oneGroup, Nat.zero_mul, Nat.shiftLeft_eq, Nat.add_zero]
  show itod oneGroup.sb i * 1024 < 4294967296
  rw [htable]
  omega

/-! ## A file past 4 GiB -/

/-- A disk of 5 GiB with one file of 12 blocks and a byte. The 12 blocks are holes; the indirect
block is the first of group 128, at 4 GiB, and the last block the first behind its tables. -/
def farDisk : ByteStore :=
  let p := 32768 + 3 * 128
  setBe32 (setBe32 (setBe32 (setBe16 (setBe16 (setBe32 (fun _ => 0) 4294967296 4194592) p 0o100644)
    (p + 2) 1) (p + 12) 98305) (p + 88) 4194304) (p + 104) 16

/-- Its filesystem. -/
def farFs : Fs :=
  fsUsing fiveGiB (fun f => decide (IsMeta fiveGiB.sb f) ||
      decide (4194304 ≤ f ∧ f < 4194312 ∨ 4194592 ≤ f ∧ f < 4194600))
    (fun i => decodeInode farDisk ((inodeOffset fiveGiB.sb i).getD 0)) farDisk

theorem farDisk_zero {x : Nat} (h₁ : x < 33152 ∨ 33280 ≤ x)
    (h₂ : x < 4294967296 ∨ 4294967300 ≤ x) : farDisk x = 0 := by
  simp only [farDisk, setBe32, setBe16, patch]
  iterate 6 rw [if_neg (by omega)]

theorem farFs_blank {i : Nat} (hne : i ≠ 3) :
    farFs.inode i = decodeInode (fun _ => 0) 0 := by
  have hoff : inodeOffset fiveGiB.sb i =
      some (i / 2048 * 33554432 + 32768 + i % 2048 * 128) := by
    simp only [inodeOffset, cgstart, fiveGiB, UFS_INODE_SIZE, Nat.zero_mul, Nat.shiftLeft_eq]
    rw [if_neg (by omega)]
    refine congrArg some ?_
    omega
  show decodeInode farDisk ((inodeOffset fiveGiB.sb i).getD 0) = _
  rw [hoff]
  refine decodeInode_congr fun x hx => farDisk_zero ?_ ?_
  · show i / 2048 * 33554432 + 32768 + i % 2048 * 128 + x < 33152 ∨
      33280 ≤ i / 2048 * 33554432 + 32768 + i % 2048 * 128 + x
    omega
  · show i / 2048 * 33554432 + 32768 + i % 2048 * 128 + x < 4294967296 ∨
      4294967300 ≤ i / 2048 * 33554432 + 32768 + i % 2048 * 128 + x
    omega

theorem fiveGiB_valid : imageValidate fiveGiB = true := fiveGiBFile_opens.1

theorem farFs_isFree {f : Nat} (hf : f < 5242880) : farFs.isFree f = false ↔
    IsMeta fiveGiB.sb f ∨ 4194304 ≤ f ∧ f < 4194312 ∨ 4194592 ≤ f ∧ f < 4194600 := by
  have h := fsUsing_isFree (Image.geometry fiveGiB_valid) (fun f => decide (IsMeta fiveGiB.sb f) ||
    decide (4194304 ≤ f ∧ f < 4194312 ∨ 4194592 ≤ f ∧ f < 4194600))
    (fun i => decodeInode farDisk ((inodeOffset fiveGiB.sb i).getD 0)) farDisk hf
  show (fsUsing fiveGiB _ _ _).isFree f = false ↔ _
  rw [h, Bool.not_eq_false', Bool.or_eq_true, decide_eq_true_eq, decide_eq_true_eq]

theorem farFs_sound : farFs.Sound where
  valid := fiveGiB_valid
  consistent := fsUsing_consistent (Image.geometry fiveGiB_valid) _ _ _
  fits c hc := by
    show c * 32768 + min 32768 (5242880 - c * 32768) ≤ 5242880
    have hc' : c < 160 := hc
    omega
  inSlice := by decide
  zero := (farFs_isFree (by omega)).mpr (.inl (.inl ⟨0, by decide, by simp, by decide⟩))

theorem farFs_inode : (farFs.inode 3).ib 0 = 4194304 ∧ (∀ s < 3, s ≠ 0 → (farFs.inode 3).ib s = 0) ∧
    (∀ k < 12, (farFs.inode 3).db k = 0) ∧ (farFs.inode 3).size = 98305 ∧
    (farFs.inode 3).blocks.toNat = 16 ∧ OwnsBlocks (farFs.inode 3) ∧ ftypeok (farFs.inode 3) ∧
    be32 farDisk (4194304 * 1024 + 0 * 4) = 4194592 := by
  decide +kernel

/-- Of the indirect block only the first entry is set. -/
theorem farFs_tree : farFs.img.sb.slotTree farFs.bytes (farFs.inode 3) 0 =
    .node 4194304 fun e => if e = 0 then .data 4194592 else .hole := by
  rw [Superblock.slotTree, farFs_inode.1, Superblock.tree, BlockTree.load_node (by decide)]
  congr 1
  funext e
  by_cases he : e = 0
  · subst he
    have hentry : be32 farFs.bytes (4194304 * farFs.img.sb.fragSize + 0 * 4) = 4194592 :=
      farFs_inode.2.2.2.2.2.2.2
    rw [if_pos (by decide), hentry]
    rfl
  · have hzero : ∀ x < 4, farDisk (4194304 * 1024 + e * 4 + x) = 0 := fun x _ =>
      farDisk_zero (by omega) (by omega)
    have hentry : be32 farFs.bytes (4194304 * farFs.img.sb.fragSize + e * 4) = 0 :=
      be32_congr (e := fun _ => 0) (q := 0) hzero
    rw [hentry, if_neg he, BlockTree.load_null]
    exact ite_self _

theorem farFs_slots (s : Nat) (hs : s ≠ 0) :
    farFs.img.sb.slotTree farFs.bytes (farFs.inode 3) s = .hole := by
  have hib : (farFs.inode 3).ib s = 0 := by
    by_cases hlt : s < 3
    · exact farFs_inode.2.1 s hlt hs
    · exact if_neg hlt
  rw [Superblock.slotTree, hib]
  exact BlockTree.load_null _

theorem farFs_own : Fs.fileFragments farFs (farFs.inode 3) =
    extent 4194304 8 + extent 4194592 8 := by
  have hdirect : ∑ k ∈ Finset.range 12, extent ((farFs.inode 3).db k)
      (fileFrags farFs.img.sb (farFs.inode 3).size k) = 0 :=
    Finset.sum_eq_zero fun k hk => by
      rw [farFs_inode.2.2.1 k (Finset.mem_range.mp hk), extent_null]
  have hkids : ∑ e ∈ Finset.range 2048,
      BlockTree.own 2048 8 (if e = 0 then .data 4194592 else .hole) = extent 4194592 8 := by
    rw [Finset.sum_eq_single 0 (fun e _ he => by rw [if_neg he]; rfl) (by simp)]
    rfl
  unfold Fs.fileFragments Superblock.fileOwn
  rw [hdirect, zero_add, Finset.sum_range_succ', farFs_tree, Finset.sum_eq_zero fun s _ => by
    rw [farFs_slots _ (Nat.succ_ne_zero s)]
    rfl]
  rw [zero_add]
  exact congrArg (extent 4194304 8 + ·) hkids

theorem farFs_blocks : (extent 4194304 8 + extent 4194592 8).Nodup ∧
    ∀ f, f ∈ extent 4194304 8 + extent 4194592 8 ↔
      4194304 ≤ f ∧ f < 4194312 ∨ 4194592 ≤ f ∧ f < 4194600 := by
  refine ⟨Multiset.nodup_add.mpr ⟨extent_nodup _ _, extent_nodup _ _, ?_⟩, fun f => ?_⟩
  · refine Multiset.disjoint_left.mpr fun h₁ h₂ => ?_
    have hlo := mem_extent.mp h₁
    have hhi := mem_extent.mp h₂
    omega
  · simp [mem_extent]

theorem farFs_blockOk {p : Nat} (hp : p = 4194304 ∨ p = 4194592) : farFs.BlockOk p := by
  have hroom : p % 32768 + 8 ≤ min 32768 (5242880 - p / 32768 * 32768) := by omega
  rcases hp with rfl | rfl
  · exact ⟨by decide, by decide, by decide, hroom, by decide⟩
  · exact ⟨by decide, by decide, by decide, hroom, by decide⟩

theorem farFs_wf : ∃ others, FileWf farFs (farFs.inode 3) others := by
  obtain ⟨-, -, -, hsize, hblocks, -⟩ := farFs_inode
  have hown := farFs_own
  unfold Fs.fileFragments at hown
  have hle : extent 4194304 8 + extent 4194592 8 ≤ farFs.used := by
    rw [Multiset.le_iff_subset farFs_blocks.1]
    intro f hf
    rw [farFs_blocks.2] at hf
    have hlt : f < 5242880 := by
      rcases hf with hf | hf
      · exact hf.2.trans (by decide)
      · exact hf.2.trans (by decide)
    have hbit := (farFs_isFree hlt).mpr (Or.inr hf)
    refine Fs.mem_used.mpr ⟨?_, hbit⟩
    exact hlt
  obtain ⟨others, hothers⟩ := Multiset.le_iff_exists_add.mp hle
  refine ⟨others, ⟨⟨farFs_sound, fun k hk hne => ?_, fun s hs => ?_, ?_⟩, ?_⟩, ?_⟩
  · exact absurd (farFs_inode.2.2.1 k hk) hne
  · by_cases h0 : s = 0
    · subst h0
      have hlast : 12 < blocksOf farFs.img.sb (farFs.inode 3).size := by
        rw [hsize]
        decide
      rw [farFs_tree]
      refine ⟨Nat.one_pos, farFs_blockOk (.inl rfl), hlast, fun e _ => ?_⟩
      by_cases he : e = 0
      · subst he
        exact ⟨rfl, farFs_blockOk (.inr rfl), hlast⟩
      · dsimp only
        rw [if_neg he]
        trivial
    · rw [farFs_slots s h0]
      trivial
  · rw [hown, hothers]
  · rw [hown, Multiset.card_add, card_extent (by decide), card_extent (by decide), hblocks]
    rfl
  · rw [hsize]
    decide

theorem farFs_claims (i : Nat) : claims farFs i =
    if i = 3 then extent 4194304 8 + extent 4194592 8 else 0 := by
  by_cases h : i = 3
  · subst h
    rw [claims_of_owns farFs_inode.2.2.2.2.2.1, if_pos rfl, farFs_own]
  · rw [claims_of_not, if_neg h]
    rw [farFs_blank h]
    exact fun hown => blank_zero.2.1 hown.1

theorem farFs_spared {f : Nat} (hf : 4194304 ≤ f ∧ f < 4194312 ∨ 4194592 ≤ f ∧ f < 4194600) :
    ¬ IsMeta fiveGiB.sb f := by
  rintro (⟨c, hc, hlo, hhi⟩ | ⟨hlo, hhi⟩)
  · have hdata : cgdmin fiveGiB.sb c = 32768 * c + 288 := by
      simp only [cgdmin, cgstart, fiveGiB, Nat.zero_mul, Nat.add_zero]
    have hstart : cgsblock fiveGiB.sb c = 32768 * c + 16 := by
      simp only [cgsblock, cgstart, fiveGiB, Nat.zero_mul, Nat.add_zero]
    rw [hdata] at hhi
    rw [hstart] at hlo
    split at hlo <;> omega
  · have hhi' : f < 291 := hhi
    omega

theorem farFs_accounted : Accounted farFs := by
  have hmem : ∀ i f, f ∈ claims farFs i ↔
      i = 3 ∧ (4194304 ≤ f ∧ f < 4194312 ∨ 4194592 ≤ f ∧ f < 4194600) := by
    intro i f
    rw [farFs_claims]
    split
    case isTrue h => rw [farFs_blocks.2, and_iff_right h]
    case isFalse h => simp [h]
  refine ⟨farFs_sound, by decide, fun i _ => ?_, fun i _ hown => ?_, fun i _ j _ hne f hf => ?_,
    fun i _ f hf => ?_, fun f hf => ?_⟩
  · by_cases h : i = 3
    · subst h
      obtain ⟨-, -, -, hsize, -, ⟨halloc, hspecial, hlink⟩, htype, -⟩ := farFs_inode
      refine ⟨fun h => absurd halloc h, fun _ => htype, ?_, fun _ h => absurd h hlink,
        fun h => absurd h hspecial⟩
      rw [hsize]
      decide
    · rw [farFs_blank h]
      exact kept_zero
  · by_cases h : i = 3
    · subst h
      exact farFs_wf
    · rw [farFs_blank h] at hown
      exact absurd hown.1 blank_zero.2.1
  · rw [hmem] at hf ⊢
    omega
  · rw [hmem] at hf
    exact farFs_spared hf.2
  · have hlt : f < 5242880 := hf
    have hused := farFs_isFree hlt
    refine hused.trans (or_congr_right ⟨?_, ?_⟩)
    · intro h
      refine ⟨3, ?_, ?_⟩
      · show 3 < 160 * 2048
        omega
      · rw [hmem]
        exact ⟨rfl, h⟩
    · rintro ⟨i, -, h⟩
      exact ((hmem i f).mp h).2

theorem farFs_onDisk : OnDisk farFs farDisk := by
  refine ⟨fun i _ off hoff => ?_, fun i _ f _ x _ => rfl⟩
  have hoff' : inodeOffset fiveGiB.sb i = some off := hoff
  show _ = decodeInode farDisk ((inodeOffset fiveGiB.sb i).getD 0)
  rw [hoff']
  rfl

/-- What a walk that counts fragments counts. -/
def walkCount (r : EStateM.Result String Checker Nat) : Nat :=
  match r with
  | .ok _ s => s.nBlks
  | .error _ s => s.nBlks

theorem walkCount_ok (n : Nat) (s : Checker) : walkCount (.ok n s) = s.nBlks := rfl

theorem foldl_count (rs : List (Nat × Nat)) : ∀ s : Checker,
    (rs.foldl (fun s r => { s with nBlks := s.nBlks + r.2 }) s).nBlks =
      s.nBlks + (rs.map Prod.snd).sum := by
  induction rs with
  | nil => exact fun s => rfl
  | cons r rs ih =>
    intro s
    rw [List.foldl_cons, ih, List.map_cons, List.sum_cons, Nat.add_assoc]

def farOperator : Operator := ⟨false, fun _ => false⟩

def farDesc : Inodesc := ⟨3, .addr, false, fun _ _ => pure KEEPON⟩

def farChecker : Checker :=
  { disk := farDisk, blockmap := fun _ => false, statemap := fun _ => 0, lncnt := fun _ => 0
    zln := [], dups := [], more := [], nFiles := 0, nBlks := 0, lastino := 0, badblk := 0
    dupblk := 0, idFix := .dontknow, idEntryno := 0, log := [], asked := 0 }

theorem farFs_seen : walkCount (ckinode farOperator farFs.img.sb { farDesc with
    func := continuing fun _ n s => { s with nBlks := s.nBlks + n } } (farFs.inode 3)
    farChecker) = 8 := by
  decide +kernel

/-- fsck does not see the last block of the file, and takes its count of blocks to be wrong. -/
theorem walk_loses_block : Accounted farFs ∧ OnDisk farFs farDisk ∧ OwnsBlocks (farFs.inode 3) ∧
    ¬ Walked farFs farDisk (farFs.inode 3) := by
  refine ⟨farFs_accounted, farFs_onDisk, farFs_inode.2.2.2.2.2.1, fun h => ?_⟩
  have hvisits := h.visits farOperator farDesc (fun _ n s => { s with nBlks := s.nBlks + n })
    farChecker rfl rfl fun _ _ _ _ _ _ _ => rfl
  have hseen := farFs_seen
  have hblocks := h.count
  rw [farFs_inode.2.2.2.2.1, show farFs.img.sb.sectorsPerFrag = 1 from rfl] at hblocks
  have hnone : farChecker.start.nBlks = 0 := rfl
  rw [hvisits, walkCount_ok, foldl_count, hnone] at hseen
  omega

end NextUfs.Fsck
