/-
NextUfs.Mutate.LedgerTheorems — whose the storage in use is.

`Accounts base fs` is that the fragments in use are `base` and what the files
of the inode table own, nothing of it twice, and that every one of those files
is well formed. `base` is the metadata: no call takes any of it or gives any
back. `Ledger` adds the inode maps. A change to one file that leaves the
storage of the others alone keeps the accounts (`Accounts.change`); every other
step of this module is a case of that.
-/
import NextUfs.Mutate.EntryTheorems
import NextUfs.Mutate.FileStorageTheorems
import NextUfs.Mutate.DirectoryTheorems
import NextUfs.Core.InodeAllocTheorems

namespace NextUfs.Mutate

open NextUfs.Core NextUfs.Lib NextUfs.Lib.ByteStore NextUfs.Lib.StateResult NextUfs.Lib.Extents
  NextUfs.Lib.Runs

/-! ## What an inode holds -/

/-- The data of the inode lies in blocks. -/
def HasBlocks (ino : Inode) : Prop :=
  ino.isReg ∨ ino.isDir ∨ ino.isLnk ∧ ino.flags &&& NEXTUFS_IC_FASTLINK = 0

instance (ino : Inode) : Decidable (HasBlocks ino) := by
  unfold HasBlocks
  infer_instance

/-- The inode has no pointers. -/
structure Pointerless (ino : Inode) : Prop where
  size : ino.size = 0
  db : ∀ k < 12, ino.db k = 0
  ib : ∀ s < 3, ino.ib s = 0

/-- An inode without blocks is a device, a pipe or a socket, has its target in its pointers, or has
no pointers; its size is one that is read. -/
def Idle (ino : Inode) : Prop :=
  (holdsNoBlocks ino.mode = true ∨ ino.isLnk ∨ Pointerless ino) ∧ ino.size ≤ INT32_MAX

/-- What no change to a file's data touches: type, flags and generation. -/
structure SameKind (ino ino' : Inode) : Prop where
  type : ino'.mode &&& NEXTUFS_IFMT = ino.mode &&& NEXTUFS_IFMT
  flags : ino'.flags = ino.flags
  gen : ino'.gen = ino.gen

/-- The two inodes describe the same data. -/
structure SameStorage (ino ino' : Inode) : Prop where
  size : ino'.size = ino.size
  db : ino'.db = ino.db
  ib : ino'.ib = ino.ib
  blocks : ino'.blocks = ino.blocks

section
variable {ino ino' ino'' : Inode}

theorem SameKind.refl (ino : Inode) : SameKind ino ino := ⟨rfl, rfl, rfl⟩

theorem SameKind.trans (h₁ : SameKind ino ino') (h₂ : SameKind ino' ino'') : SameKind ino ino'' :=
  ⟨h₂.type.trans h₁.type, h₂.flags.trans h₁.flags, h₂.gen.trans h₁.gen⟩

theorem SameKind.isReg (h : SameKind ino ino') : ino'.isReg ↔ ino.isReg := by
  have ht := h.type
  unfold NEXTUFS_IFMT at ht
  rw [Inode.isReg, Inode.isReg, ht]

theorem SameKind.isDir (h : SameKind ino ino') : ino'.isDir ↔ ino.isDir := by
  have ht := h.type
  unfold NEXTUFS_IFMT at ht
  rw [Inode.isDir, Inode.isDir, ht]

theorem SameKind.isLnk (h : SameKind ino ino') : ino'.isLnk ↔ ino.isLnk := by
  have ht := h.type
  unfold NEXTUFS_IFMT at ht
  rw [Inode.isLnk, Inode.isLnk, ht]

theorem SameKind.hasBlocks (h : SameKind ino ino') : HasBlocks ino' ↔ HasBlocks ino := by
  rw [HasBlocks, HasBlocks, h.isReg, h.isDir, h.isLnk, h.flags]

theorem SameKind.isDirMode (h : SameKind ino ino') : isDirMode ino'.mode = isDirMode ino.mode := by
  have ht := h.type
  unfold NEXTUFS_IFMT at ht
  rw [Core.isDirMode, Core.isDirMode, ht]

theorem SameKind.idle (hk : SameKind ino ino') (hs : SameStorage ino ino') (h : Idle ino) :
    Idle ino' := by
  obtain ⟨h, hsize⟩ := h
  refine ⟨?_, by rw [hs.size]; exact hsize⟩
  rcases h with h | h | h
  · left
    rw [holdsNoBlocks, hk.type]
    exact h
  · exact .inr (.inl (hk.isLnk.mpr h))
  · refine .inr (.inr ⟨hs.size.trans h.size, fun k hk => ?_, fun s hs3 => ?_⟩)
    · rw [hs.db]
      exact h.db k hk
    · rw [hs.ib]
      exact h.ib s hs3

end

section
variable {fs : Fs} {ino ino' : Inode} {others : Multiset Nat}

theorem FileWf.relabel (h : FileWf fs ino others) (hs : SameStorage ino ino') :
    FileWf fs ino' others := by
  obtain ⟨mode, nlink, uid, gid, size, db, ib, flags, blocks, gen⟩ := ino'
  obtain ⟨rfl, rfl, rfl, rfl⟩ := hs
  exact ⟨⟨⟨h.1.sound, h.1.direct, h.1.slots, h.1.owned⟩, h.1.blocks⟩, h.2⟩

theorem SameStorage.fragments (hs : SameStorage ino ino') :
    Fs.fileFragments fs ino' = Fs.fileFragments fs ino := by
  obtain ⟨mode, nlink, uid, gid, size, db, ib, flags, blocks, gen⟩ := ino'
  obtain ⟨rfl, rfl, rfl, rfl⟩ := hs
  rfl

/-- A file nobody wrote to owns what it did. -/
theorem FileWf.fragments_eq {fs' : Fs} (hwf : FileWf fs ino others) (himg : fs'.img = fs.img)
    (hsame : SameOn fs.img.sb.fragSize (Fs.fileFragments fs ino) fs.bytes fs'.bytes) :
    Fs.fileFragments fs' ino = Fs.fileFragments fs ino := by
  have hok := hwf.1
  rw [Fs.fileFragments, Fs.fileFragments, himg]
  refine fileOwn_congr hok.geometry (hsame.mono ?_) _
  rw [Fs.fileFragments, Fs.fileOwn_eq _ hok.slots]
  exact Multiset.le_add_right _ _

end

/-! ## Accounts -/

/-- What an inode of the table owns. -/
def share (fs : Fs) (i : Nat) : Multiset Nat :=
  if i < fs.inodeCount ∧ HasBlocks (fs.inode i) then Fs.fileFragments fs (fs.inode i) else 0

/-- What the inodes of the table but `i` own. -/
def rest (fs : Fs) (i : Nat) : Multiset Nat :=
  ∑ j ∈ (Finset.range fs.inodeCount).erase i, share fs j

/-- What the inodes of the table own. -/
def shares (fs : Fs) : Multiset Nat := ∑ j ∈ Finset.range fs.inodeCount, share fs j

/-- The fragments in use are `base` and what the files own; the files are well formed. -/
structure Accounts (base : Multiset Nat) (fs : Fs) : Prop where
  sound : fs.Sound
  used : fs.used = base + shares fs
  file : ∀ i < fs.inodeCount, HasBlocks (fs.inode i) → FileWf fs (fs.inode i) (base + rest fs i)
  idle : ∀ i < fs.inodeCount, ¬ HasBlocks (fs.inode i) → Idle (fs.inode i)

section
variable {fs fs' : Fs} {base base' : Multiset Nat} {i j : Nat}

theorem shares_eq (fs : Fs) (i : Nat) : shares fs = share fs i + rest fs i := by
  by_cases hi : i < fs.inodeCount
  · exact (Finset.add_sum_erase _ _ (Finset.mem_range.mpr hi)).symm
  · rw [share, if_neg fun h => hi h.1, zero_add, rest, Finset.erase_eq_of_notMem
      (by rwa [Finset.mem_range])]
    rfl

theorem share_le_rest (hj : j ≠ i) : share fs j ≤ rest fs i := by
  by_cases hlt : j < fs.inodeCount
  · exact Finset.single_le_sum (fun _ _ => Multiset.zero_le _)
      (Finset.mem_erase.mpr ⟨hj, Finset.mem_range.mpr hlt⟩)
  · rw [share, if_neg fun h => hlt h.1]
    exact Multiset.zero_le _

theorem share_of_hasBlocks (hi : i < fs.inodeCount) (hb : HasBlocks (fs.inode i)) :
    share fs i = Fs.fileFragments fs (fs.inode i) :=
  if_pos ⟨hi, hb⟩

/-- The inodes of the table but those in `S` are as they were, and so is what their files hold and
own. -/
structure Beside (S : Set Nat) (fs fs' : Fs) : Prop where
  img : fs'.img = fs.img
  inode : ∀ j ∉ S, fs'.inode j = fs.inode j
  content : ∀ j < fs.inodeCount, j ∉ S → HasBlocks (fs.inode j) →
    fs.img.sb.content fs'.bytes (fs.inode j) = fs.img.sb.content fs.bytes (fs.inode j)
  owned : ∀ j ∉ S, share fs' j = share fs j

/-- A change to what inode `i` holds. -/
structure Changes (fs : Fs) (i : Nat) (base' : Multiset Nat) (fs' : Fs) : Prop where
  sound : fs'.Sound
  img : fs'.img = fs.img
  ndblk : ∀ c, (fs'.cg c).ndblk = (fs.cg c).ndblk
  table : ∀ j, j ≠ i → fs'.inode j = fs.inode j
  frame : SameOn fs.img.sb.fragSize (rest fs i) fs.bytes fs'.bytes
  used : fs'.used = base' + share fs' i + rest fs i
  file : i < fs.inodeCount → HasBlocks (fs'.inode i) →
    FileWf fs' (fs'.inode i) (base' + rest fs i)
  idle : i < fs.inodeCount → ¬ HasBlocks (fs'.inode i) → Idle (fs'.inode i)

theorem Changes.inodeCount (h : Changes fs i base' fs') : fs'.inodeCount = fs.inodeCount := by
  rw [Fs.inodeCount, Fs.inodeCount, h.img]

/-- The other files own what they did. -/
theorem Changes.share_eq (h : Changes fs i base' fs') (ha : Accounts base fs) (hj : j ≠ i) :
    share fs' j = share fs j := by
  unfold share
  rw [h.inodeCount, h.table j hj]
  by_cases hfile : j < fs.inodeCount ∧ HasBlocks (fs.inode j)
  · rw [if_pos hfile, if_pos hfile]
    refine FileWf.fragments_eq (ha.file j hfile.1 hfile.2) h.img (h.frame.mono ?_)
    rw [← share_of_hasBlocks hfile.1 hfile.2]
    exact share_le_rest hj
  · rw [if_neg hfile, if_neg hfile]

theorem Changes.rest_eq (h : Changes fs i base' fs') (ha : Accounts base fs) :
    rest fs' i = rest fs i := by
  unfold rest
  rw [h.inodeCount]
  exact Finset.sum_congr rfl fun j hj => h.share_eq ha (Finset.ne_of_mem_erase hj)

/-- What is in use besides another file. -/
theorem Changes.used_eq (h : Changes fs i base' fs') (ha : Accounts base fs) (hj : j ≠ i) :
    fs'.used = share fs j + (base' + rest fs' j) := by
  have hsum := shares_eq fs' j
  rw [shares_eq fs' i, h.rest_eq ha, h.share_eq ha hj] at hsum
  rw [h.used, add_assoc, hsum]
  abel

/-- A change to one file keeps the accounts, and leaves the others alone. -/
theorem Accounts.change (ha : Accounts base fs) (h : Changes fs i base' fs') :
    Accounts base' fs' ∧ Beside {i} fs fs' := by
  have hfile : ∀ j < fs.inodeCount, j ≠ i → HasBlocks (fs.inode j) →
      FileWf fs' (fs.inode j) (base' + rest fs' j) ∧
        fs.img.sb.content fs'.bytes (fs.inode j) = fs.img.sb.content fs.bytes (fs.inode j) := by
    intro j hj hji hb
    have hshare := share_of_hasBlocks hj hb
    refine FileWf.of_sameOn (ha.file j hj hb) h.sound h.img h.ndblk (h.frame.mono ?_) ?_
    · rw [← Fs.fileFragments, ← hshare]
      exact share_le_rest hji
    · rw [← Fs.fileFragments, ← hshare]
      exact (h.used_eq ha hji).symm
  refine ⟨⟨h.sound, ?_, fun j hj hb => ?_, fun j hj hb => ?_⟩,
    ⟨h.img, fun j hj => h.table j hj, fun j hj hji hb => (hfile j hj hji hb).2,
      fun j hj => h.share_eq ha hj⟩⟩
  · rw [h.used, shares_eq fs' i, h.rest_eq ha, add_assoc]
  · rw [h.inodeCount] at hj
    by_cases hji : j = i
    · subst hji
      rw [h.rest_eq ha]
      exact h.file hj hb
    · rw [h.table j hji] at hb ⊢
      exact (hfile j hj hji hb).1
  · rw [h.inodeCount] at hj
    by_cases hji : j = i
    · subst hji
      exact h.idle hj hb
    · rw [h.table j hji] at hb ⊢
      exact ha.idle j hj hb

end

/-! ## Changing a file -/

/-- A file was changed, whatever its bytes are now. -/
structure Edits (fs : Fs) (node : Node) (others : Multiset Nat) (fs' : Fs) (node' : Node) :
    Prop where
  step : ∃ endpos f, FileStep fs node others endpos f fs' node'
  kind : SameKind node.inode node'.inode

section
variable {fs fs' : Fs} {node node' : Node} {others : Multiset Nat}

theorem Edits.refl (hwf : FileWf fs node.inode others) : Edits fs node others fs node :=
  ⟨⟨_, _, FileStep.refl hwf⟩, SameKind.refl _⟩

theorem Edits.trans {fs₁ : Fs} {node₁ : Node} (h₁ : Edits fs node others fs₁ node₁)
    (h₂ : Edits fs₁ node₁ others fs' node') : Edits fs node others fs' node' := by
  obtain ⟨⟨_, _, hs₁⟩, hk₁⟩ := h₁
  obtain ⟨⟨_, _, hs₂⟩, hk₂⟩ := h₂
  exact ⟨⟨_, _, hs₁.trans hs₂⟩, hk₁.trans hk₂⟩

theorem Edits.wf (h : Edits fs node others fs' node') : FileWf fs' node'.inode others := by
  obtain ⟨⟨_, _, hs⟩, -⟩ := h
  exact hs.wf

/-- The set-user and set-group bits are not part of the type. -/
theorem type_of_mask (mode : UInt16) : (mode &&& ~~~(0o4000 ||| 0o2000)) &&& NEXTUFS_IFMT =
    mode &&& NEXTUFS_IFMT := by
  rw [UInt16.and_assoc]
  rfl

theorem finishInode_kind {fs₁ : Fs} (h : finishInode node fs = .ok node' fs₁) :
    SameKind node.inode node'.inode := by
  simp only [finishInode, bind_ok, get_ok, pure_ok] at h
  obtain ⟨_, _, ⟨rfl, rfl⟩, _, _, -, rfl, -⟩ := h
  dsimp only
  split
  · exact ⟨type_of_mask _, rfl, rfl⟩
  · exact SameKind.refl _

theorem fileResize_edits {size : Nat} (hwf : FileWf fs node.inode others)
    (h : fileResize node size fs = .ok node' fs') : Edits fs node others fs' node' := by
  refine ⟨⟨_, _, fileResize_ok hwf h⟩, ?_⟩
  simp only [fileResize, sizeValid, bind_ok, check_ok] at h
  obtain ⟨_, _, ⟨-, rfl⟩, h⟩ := h
  split at h
  case isTrue =>
    obtain ⟨rfl, -⟩ := pure_ok.mp h
    exact SameKind.refl _
  case isFalse hne =>
    simp only [bind_ok] at h
    obtain ⟨node₁, fs₁, hchange, hfinish⟩ := h
    have hfields := (changeSize_ok hwf hne hchange).2.fields
    have hkind : SameKind node.inode { node₁.inode with size := size } := by
      rw [hfields]
      exact ⟨rfl, rfl, rfl⟩
    exact hkind.trans (finishInode_kind hfinish)

theorem fileWrite_edits {data : List UInt8} {offset : Nat} (hwf : FileWf fs node.inode others)
    (h : fileWrite node data offset fs = .ok node' fs') : Edits fs node others fs' node' := by
  by_cases hnil : data = []
  · rw [fileWrite, if_pos hnil] at h
    obtain ⟨rfl, rfl⟩ := pure_ok.mp h
    exact Edits.refl hwf
  refine ⟨⟨_, _, fileWrite_ok hwf h hnil⟩, ?_⟩
  rw [fileWrite, if_neg hnil] at h
  simp only [sizeValid, bind_ok, check_ok] at h
  obtain ⟨_, _, ⟨-, rfl⟩, _, _, ⟨-, rfl⟩, node₁, fs₁, hgrow, node₂, fs₂, hchunks, hfinish⟩ := h
  have hedits : Edits fs node others fs₁ node₁ ∧ offset + data.length ≤ node₁.inode.size := by
    unfold growForWrite at hgrow
    split at hgrow
    case isTrue => exact ⟨fileResize_edits hwf hgrow, (fileResize_ok hwf hgrow).size.ge⟩
    case isFalse hge =>
      obtain ⟨rfl, rfl⟩ := pure_ok.mp hgrow
      exact ⟨Edits.refl hwf, Nat.le_of_not_gt hge⟩
  obtain ⟨hedits, hend⟩ := hedits
  have hfields := (writeChunks_ok le_rfl hend hedits.wf hchunks).2.fields
  have hkind : SameKind node₁.inode node₂.inode := by
    rw [hfields]
    exact ⟨rfl, rfl, rfl⟩
  exact (hedits.kind.trans hkind).trans (finishInode_kind hfinish)

/-! ### Directories, whatever they hold -/

/-- A chunk of a file lies in a block of it. -/
theorem chunk_within {bs remaining k size : Nat} (hbs : 0 < bs) (h : remaining ≠ 0)
    (hpos : k * bs + remaining = size) :
    0 < min remaining bs ∧ min remaining bs ≤ bs ∧ k * bs + min remaining bs ≤ size ∧
      (remaining - min remaining bs ≠ 0 →
        (k + 1) * bs + (remaining - min remaining bs) = size) := by
  rw [Nat.succ_mul]
  omega

theorem writeChunk_edits {k n : Nat} {block : ByteStore} (hwf : FileWf fs node.inode others)
    (hne : fs.img.sb.fileBlock fs.bytes node.inode k ≠ 0) (hn : 0 < n)
    (hle : n ≤ fs.img.sb.blockSize) (hend : k * fs.img.sb.blockSize + n ≤ node.inode.size)
    (h : writeChunk node block n (fs.img.sb.fileBlock fs.bytes node.inode k) fs = .ok node' fs') :
    Edits fs node others fs' node' := by
  refine ⟨⟨_, _, writeChunk_ok hwf hne hn hle hend h⟩, ?_⟩
  simp only [writeChunk, bind_ok, get_ok, failAs_ok] at h
  obtain ⟨_, _, -, _, _, -, hupdate⟩ := h
  rw [(updateNodeTimes_ok hupdate).1]
  exact SameKind.refl _

theorem insertInChunks_edits {name : List UInt8} {new_inode need : Nat}
    (hwf : FileWf fs node.inode others) : ∀ {fuel remaining k : Nat} {found : Option Node},
      (remaining ≠ 0 → k * fs.img.sb.blockSize + remaining = node.inode.size) →
      insertInChunks node name new_inode need fuel remaining k fs = .ok found fs' →
      (found = none → fs' = fs) ∧ ∀ node', found = some node' → Edits fs node others fs' node' := by
  intro fuel
  induction fuel with
  | zero =>
    intro remaining k found _ h
    obtain ⟨rfl, rfl⟩ := pure_ok.mp h
    exact ⟨fun _ => rfl, fun _ h => by cases h⟩
  | succ fuel ih =>
    intro remaining k found hrem h
    rw [insertInChunks] at h
    split at h
    case isTrue =>
      obtain ⟨rfl, rfl⟩ := pure_ok.mp h
      exact ⟨fun _ => rfl, fun _ h => by cases h⟩
    case isFalse h0 =>
      have hbs := hwf.1.geometry.blockSize_ge
      obtain ⟨hn, hle, hend, hnext⟩ := chunk_within (by omega) h0 (hrem h0)
      simp only [bind_ok, get_ok] at h
      obtain ⟨_, _, ⟨rfl, rfl⟩, block, fs₁, hread, h⟩ := h
      obtain rfl := (steady_readChunk _ _ _).state hread
      cases hscan : insertInChunk name new_inode need block (min remaining fs.img.sb.blockSize)
          (min remaining fs.img.sb.blockSize) 0 with
      | error e =>
        rw [hscan] at h
        exact (throw_ok.mp h).elim
      | ok block' =>
        rw [hscan] at h
        cases block' with
        | none => exact ih hnext h
        | some block' =>
          simp only [bind_ok, pure_ok] at h
          obtain ⟨frag, _, hfrag, node₁, fs₁, hwrite, rfl, rfl⟩ := h
          obtain ⟨rfl, hne, rfl⟩ := chunkFrag_ok hfrag
          refine ⟨(by cases ·), fun node' h => ?_⟩
          cases h
          exact writeChunk_edits hwf hne hn hle hend hwrite

theorem insertInNewBlock_edits {name : List UInt8} {new_inode need : Nat}
    (hwf : FileWf fs node.inode others)
    (h : insertInNewBlock node name new_inode need fs = .ok node' fs') :
    Edits fs node others fs' node' := by
  simp only [insertInNewBlock, growDirectoryByDirblk, bind_ok, check_ok, failAs_ok, get_ok,
    Prod.exists, pure_ok, Prod.mk.injEq] at h
  obtain ⟨_, _, ⟨-, rfl⟩, node₁, off, fs₁, ⟨_, _, ⟨rfl, rfl⟩, _, _, ⟨hwhole, rfl⟩, node₂, fs₂,
    hresize, frag, _, hres, _, _, ⟨hne, rfl⟩, ⟨rfl, rfl⟩, rfl⟩, h⟩ := h
  obtain ⟨rfl, rfl⟩ := resolveInodeDataBlock_ok hres
  have hstep := fileResize_ok hwf hresize
  have hedits := fileResize_edits hwf hresize
  have hg := hwf.1.geometry
  have hbs := hg.blockSize_ge
  have hbmod := hg.block_mod
  have himg := hstep.img
  have hsize : node₂.inode.size = node.inode.size + DIRBLKSIZ := hstep.size
  cases hraw : writeDirentRaw (fun _ => 0) 0 new_inode DIRBLKSIZ name with
  | error e =>
    rw [hraw] at h
    exact (throw_ok.mp h).elim
  | ok blk =>
    rw [hraw] at h
    simp only [bind_ok, failAs_ok, pure_ok] at h
    obtain ⟨u, fs₃, hwrite, rfl, rfl⟩ := h
    have hoff : fs.fragOffset = fs₂.fragOffset := by
      funext f
      rw [Fs.fragOffset, Fs.fragOffset, himg]
    have hpos := Nat.div_add_mod' node.inode.size fs.img.sb.blockSize
    have hfit : node.inode.size % fs.img.sb.blockSize + DIRBLKSIZ ≤ fs.img.sb.blockSize := by
      have hmod := Nat.mod_lt node.inode.size (show 0 < fs.img.sb.blockSize by omega)
      have hdvd : node.inode.size % fs.img.sb.blockSize % DIRBLKSIZ = 0 := by
        rw [Nat.mod_mod_of_dvd _ (Nat.dvd_of_mod_eq_zero (by unfold DIRBLKSIZ; omega))]
        exact hwhole
      unfold DIRBLKSIZ at *
      omega
    rw [hoff, ← himg] at hwrite
    rw [← himg] at hne hpos hfit
    have hedit := chunk_ok hedits.wf hne (show 0 < DIRBLKSIZ by decide) hfit
      (by rw [hsize]; omega) hwrite
    exact hedits.trans ⟨⟨_, _, hedit.fileStep_same⟩, SameKind.refl _⟩

/-- `nextufs__insert_dirent`. -/
theorem insertDirent_edits {name : List UInt8} {new_inode : Nat}
    (hwf : FileWf fs node.inode others)
    (h : insertDirent node name new_inode fs = .ok node' fs') : Edits fs node others fs' node' := by
  simp only [insertDirent, bind_ok] at h
  obtain ⟨found, fs₁, hchunks, h⟩ := h
  obtain ⟨hnone, hsome⟩ := insertInChunks_edits hwf (fun _ => by rw [Nat.zero_mul, Nat.zero_add])
    hchunks
  cases found with
  | some node₁ =>
    obtain ⟨rfl, rfl⟩ := pure_ok.mp h
    exact hsome _ rfl
  | none =>
    obtain rfl := hnone rfl
    exact insertInNewBlock_edits hwf h

theorem removeInChunks_edits {name : List UInt8} {removed : Nat}
    (hwf : FileWf fs node.inode others) : ∀ {fuel remaining k : Nat},
      (remaining ≠ 0 → k * fs.img.sb.blockSize + remaining = node.inode.size) →
      removeInChunks node name fuel remaining k fs = .ok (node', removed) fs' →
      Edits fs node others fs' node' := by
  intro fuel
  induction fuel with
  | zero =>
    intro remaining k _ h
    exact (throw_ok.mp h).elim
  | succ fuel ih =>
    intro remaining k hrem h
    rw [removeInChunks] at h
    split at h
    case isTrue => exact (throw_ok.mp h).elim
    case isFalse h0 =>
      have hbs := hwf.1.geometry.blockSize_ge
      obtain ⟨hn, hle, hend, hnext⟩ := chunk_within (by omega) h0 (hrem h0)
      simp only [bind_ok, get_ok] at h
      obtain ⟨_, _, ⟨rfl, rfl⟩, block, fs₁, hread, frag, _, hfrag, h⟩ := h
      obtain rfl := (steady_readChunk _ _ _).state hread
      obtain ⟨rfl, hne, rfl⟩ := chunkFrag_ok hfrag
      cases hscan : removeInChunk name block (min remaining fs.img.sb.blockSize)
          (min remaining fs.img.sb.blockSize) 0 with
      | error e =>
        rw [hscan] at h
        exact (throw_ok.mp h).elim
      | ok found =>
        rw [hscan] at h
        cases found with
        | none => exact ih hnext h
        | some found =>
          obtain ⟨block', removed'⟩ := found
          simp only [bind_ok, pure_ok, Prod.mk.injEq] at h
          obtain ⟨node₁, fs₁, hwrite, ⟨rfl, -⟩, rfl⟩ := h
          exact writeChunk_edits hwf hne hn hle hend hwrite

/-- `nextufs__remove_dirent`. -/
theorem removeDirent_edits {name : List UInt8} {removed : Nat}
    (hwf : FileWf fs node.inode others)
    (h : removeDirent node name fs = .ok (node', removed) fs') : Edits fs node others fs' node' :=
  removeInChunks_edits hwf (fun _ => by rw [Nat.zero_mul, Nat.zero_add]) h

/-- `nextufs__update_directory_parent_inode`. -/
theorem updateDirectoryParentInode_edits {parent : Nat} (hwf : FileWf fs node.inode others)
    (h : updateDirectoryParentInode node parent fs = .ok node' fs') :
    Edits fs node others fs' node' := by
  simp only [updateDirectoryParentInode, bind_ok, get_ok, check_ok] at h
  obtain ⟨_, _, ⟨rfl, rfl⟩, _, _, ⟨⟨-, hsize, hdb⟩, rfl⟩, dirblk, _, hread, first, _, hfirst, second, _,
    hsecond, _, _, ⟨-, rfl⟩, u, fs₁, hwrite, hupdate⟩ := h
  obtain rfl := (steady_readChunk _ _ _).state hread
  obtain rfl := (steady_blockRecord _ _).state hfirst
  obtain rfl := (steady_blockRecord _ _).state hsecond
  have hg := hwf.1.geometry
  have hbs := hg.blockSize_ge
  have hblock : fs.img.sb.fileBlock fs.bytes node.inode 0 = node.inode.db 0 :=
    Superblock.fileBlock_direct (by decide)
  have hedit := chunk_ok (k := 0) (x := 0) (n := DIRBLKSIZ) hwf (by rwa [hblock]) (by decide)
    (by unfold DIRBLKSIZ; omega) (by rw [Nat.zero_mul]; omega)
    (by rw [hblock, Nat.add_zero]; exact hwrite)
  refine ⟨⟨_, _, Edited.fileStep hedit hupdate⟩, ?_⟩
  rw [(updateNodeTimes_ok hupdate).1]
  exact SameKind.refl _

end

/-! ## Kinds of change -/

section
variable {base base' : Multiset Nat} {fs fs' : Fs} {i : Nat} {node node' : Node} {ino : Inode}

theorem Fs.Sound.withInode (hs : fs.Sound) (t : Nat → Inode) : Fs.Sound { fs with inode := t } :=
  ⟨hs.valid, ⟨hs.consistent.group, hs.consistent.summary, hs.consistent.ndir, hs.consistent.nbfree,
    hs.consistent.nifree, hs.consistent.nffree⟩, hs.fits, hs.inSlice, hs.zero⟩

/-- The file of a node. -/
theorem Accounts.wf (ha : Accounts base fs) (hheld : Held fs node) (hb : HasBlocks node.inode) :
    FileWf fs node.inode (base + rest fs node.inodeNo) := by
  rw [← hheld.inode] at hb ⊢
  exact ha.file _ hheld.lt hb

/-- An inode without blocks owns nothing. -/
theorem Accounts.used_of_idle (ha : Accounts base fs) (hb : ¬ HasBlocks (fs.inode i)) :
    fs.used = base + rest fs i := by
  rw [ha.used, shares_eq fs i, share, if_neg fun h => hb h.2, zero_add]

/-- A file was changed. -/
theorem Edits.changes (hheld : Held fs node) (hb : HasBlocks node.inode)
    (h : Edits fs node (base + rest fs node.inodeNo) fs' node') :
    Changes fs node.inodeNo base fs' ∧ Held fs' node' := by
  obtain ⟨⟨_, _, hs⟩, hkind⟩ := h
  have htable : fs'.inode node.inodeNo = node'.inode := hs.held hheld.inode
  have hb' : HasBlocks (fs'.inode node.inodeNo) := by
    rw [htable]
    exact hkind.hasBlocks.mpr hb
  have hcount : fs'.inodeCount = fs.inodeCount := by rw [Fs.inodeCount, Fs.inodeCount, hs.img]
  have hlt : node.inodeNo < fs'.inodeCount := by rw [hcount]; exact hheld.lt
  refine ⟨⟨hs.wf.1.sound, hs.img, hs.ndblk, hs.table, hs.frame.mono (Multiset.le_add_left _ _), ?_,
    fun _ _ => by rw [htable]; exact hs.wf, fun _ hn => absurd hb' hn⟩, ?_, ?_⟩
  · rw [share_of_hasBlocks hlt hb', htable, ← hs.wf.1.owned]
    change Fs.fileFragments fs' node'.inode + _ = _
    abel
  · rw [hs.inodeNo]
    exact htable
  · rw [hs.inodeNo]
    exact hlt

/-- An inode was written. -/
theorem changes_write (hs : fs.Sound)
    (hfile : HasBlocks ino → FileWf fs ino (base' + rest fs i))
    (hidle : ¬ HasBlocks ino → Idle ino ∧ fs.used = base' + rest fs i) (hi : i < fs.inodeCount) :
    Changes fs i base' { fs with inode := Function.update fs.inode i ino } := by
  obtain ⟨fs', hfs'⟩ : ∃ g : Fs, { fs with inode := Function.update fs.inode i ino } = g := ⟨_, rfl⟩
  have hself : fs'.inode i = ino := by
    rw [← hfs']
    exact Function.update_self ..
  have hfrag : Fs.fileFragments fs' ino = Fs.fileFragments fs ino := by rw [← hfs']; rfl
  have hused : fs'.used = fs.used := by rw [← hfs']; rfl
  have hwf : HasBlocks ino → FileWf fs' ino (base' + rest fs i) := fun hb => by
    rw [← hfs']
    exact FileWf.withInode (hfile hb)
  rw [hfs']
  refine ⟨by rw [← hfs']; exact Fs.Sound.withInode hs _, by rw [← hfs'], fun c => by rw [← hfs'],
    fun j hj => by rw [← hfs']; exact Function.update_of_ne hj .., by rw [← hfs']; exact SameOn.refl _ _ _,
    ?_, fun _ hb => ?_, fun _ hb => ?_⟩
  · have hlt : i < fs'.inodeCount := by
      rw [← hfs']
      exact hi
    rw [hused]
    by_cases hb : HasBlocks ino
    · rw [share_of_hasBlocks hlt (by rwa [hself]), hself, hfrag, ← (hfile hb).1.owned]
      change Fs.fileFragments fs ino + _ = _
      abel
    · rw [share, if_neg (by rw [hself]; exact fun h => hb h.2), (hidle hb).2, add_zero]
  · rw [hself] at hb ⊢
    exact hwf hb
  · rw [hself] at hb ⊢
    exact (hidle hb).1

/-- An inode was written that describes the same data. -/
theorem changes_touch (ha : Accounts base fs) (hi : i < fs.inodeCount)
    (hk : SameKind (fs.inode i) ino) (hs : SameStorage (fs.inode i) ino) :
    Changes fs i base { fs with inode := Function.update fs.inode i ino } :=
  changes_write ha.sound (fun hb => FileWf.relabel (ha.file i hi (hk.hasBlocks.mp hb)) hs)
    (fun hb => ⟨hk.idle hs (ha.idle i hi fun h => hb (hk.hasBlocks.mpr h)),
      ha.used_of_idle fun h => hb (hk.hasBlocks.mpr h)⟩) hi

/-- A file's storage was given back and its inode cleared. -/
theorem changes_clear {fs₁ : Fs} (ha : Accounts base fs) (hfreed : Freed fs (share fs i) fs₁)
    (hp : Pointerless ino) (hb : ¬ HasBlocks ino) :
    Changes fs i base { fs₁ with inode := Function.update fs₁.inode i ino } := by
  have hk := hfreed.keeps
  refine ⟨Fs.Sound.withInode hfreed.sound _, hk.img, hk.ndblk, fun j hj => ?_, ?_, ?_, fun _ h => ?_,
    fun _ _ => ?_⟩
  · rw [← hk.inode]
    exact Function.update_of_ne hj ..
  · change SameOn _ _ _ fs₁.bytes
    rw [hfreed.bytes]
    exact SameOn.refl _ _ _
  · rw [share, if_neg (by dsimp only; rw [Function.update_self]; exact fun h => hb h.2), add_zero]
    change fs₁.used = _
    have hused := hfreed.used
    rw [ha.used, shares_eq fs i, add_left_comm, add_comm (share fs i)] at hused
    exact add_right_cancel hused
  · dsimp only at h
    rw [Function.update_self] at h
    exact absurd h hb
  · dsimp only
    rw [Function.update_self]
    exact ⟨.inr (.inr hp), by rw [hp.size]; exact Nat.zero_le _⟩

theorem rest_outside (fs : Fs) : rest fs fs.inodeCount = shares fs := by
  have h := shares_eq fs fs.inodeCount
  rw [share, if_neg fun h => Nat.lt_irrefl _ h.1, zero_add] at h
  exact h.symm

/-- Storage was taken that no inode of the table owns yet. -/
theorem changes_take {m : Multiset Nat} (ha : Accounts base fs) (hs : fs'.Sound)
    (hk : fs.Keeps fs') (hframe : SameOn fs.img.sb.fragSize fs.used fs.bytes fs'.bytes)
    (hused : fs'.used = m + fs.used) : Changes fs fs.inodeCount (base + m) fs' := by
  refine ⟨hs, hk.img, hk.ndblk, fun j _ => by rw [hk.inode], hframe.mono ?_, ?_,
    fun h => absurd h (Nat.lt_irrefl _), fun h => absurd h (Nat.lt_irrefl _)⟩
  · rw [rest_outside, ha.used]
    exact Multiset.le_add_left _ _
  · have hcount : fs'.inodeCount = fs.inodeCount := by rw [Fs.inodeCount, Fs.inodeCount, hk.img]
    rw [share, hcount, if_neg fun h => Nat.lt_irrefl _ h.1, rest_outside, hused, ha.used]
    abel

end

/-! ## Giving a file's storage back -/

section
variable {base : Multiset Nat} {fs fs' : Fs} {i : Nat} {ino ino' : Inode}

/-- `nextufs__free_file_storage` gives back what the inode owns, whatever its type is. -/
theorem freeFileStorage_share (ha : Accounts base fs) (hi : i < fs.inodeCount)
    (hk : SameKind (fs.inode i) ino) (hs : SameStorage (fs.inode i) ino)
    (hno : holdsNoBlocks ino.mode = false) (h : freeFileStorage ino fs = .ok ino' fs') :
    Freed fs (share fs i) fs' ∧ ino'.gen = ino.gen ∧ ino'.mode = ino.mode := by
  by_cases hfast : ino.isLnk ∧ ino.flags &&& NEXTUFS_IC_FASTLINK ≠ 0
  · -- the target is in the inode
    rw [freeFileStorage, if_pos hfast] at h
    obtain ⟨rfl, rfl⟩ := pure_ok.mp h
    have hb : ¬ HasBlocks (fs.inode i) := by
      rw [← hk.hasBlocks]
      rintro (h | h | h)
      · rw [Inode.isReg, hfast.1] at h
        exact absurd h (by decide)
      · rw [Inode.isDir, hfast.1] at h
        exact absurd h (by decide)
      · exact hfast.2 h.2
    rw [share, if_neg fun h => hb h.2]
    exact ⟨Freed.refl ha.sound, rfl, rfl⟩
  · by_cases hb : HasBlocks (fs.inode i)
    · have hwf := FileWf.relabel (ha.file i hi hb) hs
      obtain ⟨rfl, hfreed⟩ := freeFileStorage_ok hwf.1.toFileTree hfast h
      rw [hs.fragments] at hfreed
      rw [share_of_hasBlocks hi hb]
      exact ⟨hfreed, rfl, rfl⟩
    · -- there is nothing to give back
      have hidle := hk.idle hs (ha.idle i hi hb)
      have hp : Pointerless ino := by
        rcases hidle.1 with hdev | hlnk | hp
        · rw [hno] at hdev
          cases hdev
        · exact absurd (hk.hasBlocks.mp (.inr (.inr ⟨hlnk, not_not.mp fun hf => hfast ⟨hlnk, hf⟩⟩))) hb
        · exact hp
      obtain ⟨hown, htree⟩ := @fileTree_empty fs ino (fileFrags fs.img.sb ino.size)
        (blocksOf fs.img.sb ino.size) ha.sound hp.db hp.ib
      obtain ⟨rfl, hfreed⟩ := freeFileStorage_ok htree hfast h
      rw [share, if_neg fun h => hb h.2]
      rw [Fs.fileFragments, hown] at hfreed
      exact ⟨hfreed, rfl, rfl⟩

end

/-! ## Volumes -/

/-- A volume whose fragments are accounted for and whose inode maps agree with the counters; `dir`
tells the directories. An inode that is not in use has no type. -/
structure Ledger (base : Multiset Nat) (dir : Nat → Bool) (v : Volume) : Prop where
  accounts : Accounts base v.fs
  agree : v.InodesAgree dir
  blank : ∀ i < v.fs.inodeCount, v.inodeUsed i = false →
    (v.fs.inode i).mode &&& NEXTUFS_IFMT = 0

/-- From one volume to another: outside `K`, inodes stay in use, or not, and keep their kind;
outside `S` they are the same, and so is what their files hold. -/
structure Change (K S : Set Nat) (v v' : Volume) : Prop where
  used : ∀ j ∉ K, v'.inodeUsed j = v.inodeUsed j
  kind : ∀ j ∉ K, SameKind (v.fs.inode j) (v'.fs.inode j)
  beside : Beside S v.fs v'.fs

/-- A change that keeps the accounts. -/
structure Kept (base : Multiset Nat) (dir : Nat → Bool) (K S : Set Nat) (v v' : Volume) : Prop where
  ledger : Ledger base dir v'
  change : Change K S v v'

section
variable {base base' : Multiset Nat} {dir dir' : Nat → Bool} {v v₁ v' : Volume} {K K' S S' : Set Nat}
  {fs' : Fs} {i : Nat}

theorem Beside.refl (S : Set Nat) (fs : Fs) : Beside S fs fs :=
  ⟨rfl, fun _ _ => rfl, fun _ _ _ _ => rfl, fun _ _ => rfl⟩

theorem Beside.inodeCount {fs : Fs} (h : Beside S fs fs') : fs'.inodeCount = fs.inodeCount := by
  rw [Fs.inodeCount, Fs.inodeCount, h.img]

theorem Beside.trans {fs fs₁ : Fs} (h₁ : Beside S fs fs₁) (h₂ : Beside S' fs₁ fs') :
    Beside (S ∪ S') fs fs' := by
  refine ⟨h₂.img.trans h₁.img, fun j hj => ?_, fun j hlt hj hb => ?_, fun j hj =>
    (h₂.owned j fun h => hj (.inr h)).trans (h₁.owned j fun h => hj (.inl h))⟩
  · rw [h₂.inode j fun h => hj (.inr h), h₁.inode j fun h => hj (.inl h)]
  · have hsame := h₁.inode j fun h => hj (.inl h)
    have hc := h₂.content j (by rwa [h₁.inodeCount]) (fun h => hj (.inr h)) (by rwa [hsame])
    rw [hsame, h₁.img] at hc
    exact hc.trans (h₁.content j hlt (fun h => hj (.inl h)) hb)

theorem Beside.mono {fs : Fs} (h : Beside S fs fs') (hS : S ⊆ S') : Beside S' fs fs' :=
  ⟨h.img, fun j hj => h.inode j fun hs => hj (hS hs),
    fun j hlt hj => h.content j hlt fun hs => hj (hS hs), fun j hj => h.owned j fun hs => hj (hS hs)⟩

theorem Change.refl (K S : Set Nat) (v : Volume) : Change K S v v :=
  ⟨fun _ _ => rfl, fun _ _ => SameKind.refl _, Beside.refl S v.fs⟩

theorem Change.trans (h₁ : Change K S v v₁) (h₂ : Change K' S' v₁ v') :
    Change (K ∪ K') (S ∪ S') v v' :=
  ⟨fun j hj => (h₂.used j fun h => hj (.inr h)).trans (h₁.used j fun h => hj (.inl h)),
    fun j hj => (h₁.kind j fun h => hj (.inl h)).trans (h₂.kind j fun h => hj (.inr h)),
    h₁.beside.trans h₂.beside⟩

theorem Change.mono (h : Change K S v v') (hK : K ⊆ K') (hS : S ⊆ S') : Change K' S' v v' :=
  ⟨fun j hj => h.used j fun hk => hj (hK hk), fun j hj => h.kind j fun hk => hj (hK hk),
    h.beside.mono hS⟩

theorem Kept.refl (h : Ledger base dir v) : Kept base dir K S v v := ⟨h, Change.refl K S v⟩

theorem Kept.trans (h₁ : Kept base dir K S v v₁) (h₂ : Kept base' dir' K' S' v₁ v') :
    Kept base' dir' (K ∪ K') (S ∪ S') v v' :=
  ⟨h₂.ledger, h₁.change.trans h₂.change⟩

theorem Kept.mono (h : Kept base dir K S v v') (hK : K ⊆ K') (hS : S ⊆ S') :
    Kept base dir K' S' v v' :=
  ⟨h.ledger, h.change.mono hK hS⟩

/-- Another directory map that agrees where it matters. -/
theorem InodesAgree.congr (h : v.InodesAgree dir)
    (hdir : ∀ i < v.fs.inodeCount, v.inodeUsed i = true → dir' i = dir i) : v.InodesAgree dir' :=
  { h with
    ndir := fun c hc => by
      rw [h.ndir c hc]
      refine count_congr fun j hj => ?_
      have hlt : c * v.fs.img.sb.inodesPerGroup + j < v.fs.inodeCount := by
        have := Nat.mul_le_mul_right v.fs.img.sb.inodesPerGroup (Nat.succ_le_of_lt hc)
        rw [Nat.succ_mul] at this
        unfold Fs.inodeCount
        omega
      have hbit : v.inodeUsed (c * v.fs.img.sb.inodesPerGroup + j) = (v.imap c).iused j := by
        rw [Volume.inodeUsed, add_mul_div hj, add_mul_mod hj]
      refine and_congr_right fun hused => ?_
      rw [hdir _ hlt (hbit.trans hused)] }

/-- The maps and the counters do not depend on the data path. -/
theorem InodesAgree.of_words (h : v.InodesAgree dir) (hs : fs'.Sound) (himg : fs'.img = v.fs.img)
    (hw : Fs.inodeWords fs' = Fs.inodeWords v.fs) :
    Volume.InodesAgree { v with fs := fs' } dir := by
  have hc := hs.consistent
  have hwords : ∀ c, (fs'.cg c).magic = (v.fs.cg c).magic ∧
      (fs'.cg c).cs.nifree = (v.fs.cg c).cs.nifree ∧ (fs'.cg c).cs.ndir = (v.fs.cg c).cs.ndir := by
    intro c
    have := congrFun hw c
    simpa [Fs.inodeWords] using this
  refine ⟨fun c hcc => ?_, fun c hcc => ?_, fun c hcc => ?_, fun c hcc => ?_, hc.nifree, hc.ndir⟩
  · rw [himg] at hcc
    rw [(hwords c).1, h.magic c hcc]
  · rw [himg] at hcc ⊢
    rw [(hwords c).2.1, h.nifree c hcc]
  · rw [himg] at hcc ⊢
    rw [(hwords c).2.2, h.ndir c hcc]
  · rw [hc.summary c hcc]
    exact ⟨rfl, rfl⟩

theorem inodeUsed_onFs (himg : fs'.img = v.fs.img) (j : Nat) :
    Volume.inodeUsed { v with fs := fs' } j = v.inodeUsed j := by
  rw [Volume.inodeUsed, Volume.inodeUsed]
  dsimp only
  rw [himg]

/-- A change to what one inode holds, its kind staying as it is. -/
theorem Ledger.change (h : Ledger base dir v) (hc : Changes v.fs i base' fs')
    (hw : Fs.inodeWords fs' = Fs.inodeWords v.fs)
    (hkind : SameKind (v.fs.inode i) (fs'.inode i)) :
    Kept base' dir ∅ {i} v { v with fs := fs' } := by
  obtain ⟨hacc, hbeside⟩ := h.accounts.change hc
  have hkinds : ∀ j, SameKind (v.fs.inode j) (fs'.inode j) := by
    intro j
    by_cases hj : j = i
    · subst hj
      exact hkind
    · rw [hc.table j hj]
      exact SameKind.refl _
  refine ⟨⟨hacc, InodesAgree.of_words h.agree hc.sound hc.img hw, fun j hj hbit => ?_⟩,
    ⟨fun j _ => inodeUsed_onFs hc.img j, fun j _ => hkinds j, hbeside⟩⟩
  rw [(hkinds j).type]
  exact h.blank j (by rwa [← hc.inodeCount]) ((inodeUsed_onFs hc.img j).symm.trans hbit)

end

/-! ## Taking and giving back an inode -/

/-- The inode allocator replaces a group by one with other inode counts. -/
def InodeMoved (v v' : Volume) : Prop :=
  ∃ c m d, d.nbfree = 0 ∧ d.nffree = 0 ∧
    v' = v.withGroup c { v.fs.cg c with cs := (v.fs.cg c).cs.add d } m d

section
variable {base : Multiset Nat} {dir : Nat → Bool} {v v' : Volume} {mode : UInt16} {no : Nat}

theorem allocateInodeInGroup_moved {c : Nat} (h : allocateInodeInGroup c mode v = .ok no v') :
    InodeMoved v v' := by
  simp only [allocateInodeInGroup, bind_ok, get_ok, check_ok] at h
  obtain ⟨_, _, ⟨rfl, rfl⟩, _, _, ⟨-, rfl⟩, _, _, ⟨-, rfl⟩, h⟩ := h
  cases hfind : (v.imap c).findFree c v.fs.img.sb.inodesPerGroup with
  | none => simp [hfind, throw_ok] at h
  | some ipref =>
    simp only [hfind, bind_ok, pure_ok] at h
    obtain ⟨_, _, hmove, -, rfl⟩ := h
    exact ⟨c, _, _, rfl, rfl, moveInode_ok hmove⟩

theorem allocateInodeLoop_moved {cg : Nat} : ∀ {k j : Nat},
    allocateInodeLoop cg mode k j v = .ok no v' → InodeMoved v v'
  | 0, _, h => (throw_ok.mp h).elim
  | k + 1, j, h => by
    simp only [allocateInodeLoop] at h
    cases hone : allocateInodeInGroup ((cg + j) % 4294967296 % v.fs.img.sb.cgCount) mode v with
    | ok no' v₁ =>
      rw [hone] at h
      cases h
      exact allocateInodeInGroup_moved hone
    | error e v₁ =>
      obtain ⟨rfl, -⟩ := allocateInodeInGroup_error hone
      rw [hone] at h
      cases e with
      | ENOSPC => exact allocateInodeLoop_moved h
      | _ => cases h

theorem freeInodeInGroup_moved {u : PUnit} (h : freeInodeInGroup no mode v = .ok u v') :
    InodeMoved v v' := by
  simp only [freeInodeInGroup, bind_ok, get_ok, check_ok] at h
  obtain ⟨_, _, ⟨rfl, rfl⟩, _, _, ⟨-, rfl⟩, _, _, ⟨-, rfl⟩, hmove⟩ := h
  exact ⟨_, _, _, rfl, rfl, moveInode_ok hmove⟩

/-- The fragment words of a group. -/
theorem add_fragment_words (a : Csum) {d : Csum} (hb : d.nbfree = 0) (hf : d.nffree = 0) :
    (a.add d).nbfree = a.nbfree ∧ (a.add d).nffree = a.nffree := by
  simp [Csum.add, hb, hf]

/-- The group of the bit, and the others. -/
theorem InodeMoved.groups (h : InodeMoved v v') : ∃ c d, d.nbfree = 0 ∧ d.nffree = 0 ∧
    (∀ a, v'.fs.cg a =
      if a = c then { v.fs.cg a with cs := (v.fs.cg a).cs.add d } else v.fs.cg a) ∧
    (∀ a, v'.fs.csum a = if a = c then (v.fs.csum a).add d else v.fs.csum a) ∧
    v'.fs.totals = v.fs.totals.add d := by
  obtain ⟨c, m, d, hb, hf, rfl⟩ := h
  refine ⟨c, d, hb, hf, fun a => ?_, fun a => ?_, rfl⟩
  · by_cases hac : a = c
    · subst hac
      simp [Volume.withGroup, Fs.withGroup]
    · simp [Volume.withGroup, Fs.withGroup, hac]
  · by_cases hac : a = c
    · subst hac
      simp [Volume.withGroup, Fs.withGroup]
    · simp [Volume.withGroup, Fs.withGroup, hac]

/-- The fragments and the data are as they were. -/
theorem InodeMoved.frame (h : InodeMoved v v') : v.fs.Keeps v'.fs ∧ v'.fs.bytes = v.fs.bytes ∧
    v'.fs.used = v.fs.used := by
  obtain ⟨c, d, -, -, hcg, -, -⟩ := h.groups
  have hgroup : ∀ a, (v'.fs.cg a).ndblk = (v.fs.cg a).ndblk ∧
      (v'.fs.cg a).free = (v.fs.cg a).free := by
    intro a
    rw [hcg a]
    split <;> exact ⟨rfl, rfl⟩
  obtain ⟨_, _, _, -, -, rfl⟩ := h
  refine ⟨⟨rfl, rfl, fun a => (hgroup a).1⟩, rfl, ?_⟩
  refine congrArg Finset.val (Finset.filter_congr fun f _ => ?_)
  have hfree := congrFun (hgroup (f / v.fs.img.sb.fragsPerGroup)).2 (f % v.fs.img.sb.fragsPerGroup)
  exact (congrArg (· = false) hfree).to_iff

theorem InodeMoved.sound (h : InodeMoved v v') (hs : v.fs.Sound) (ha : v'.InodesAgree dir) :
    v'.fs.Sound := by
  obtain ⟨hk, -, hused⟩ := h.frame
  obtain ⟨c, d, hb, hf, hcg, hcsum, htotals⟩ := h.groups
  have hc := hs.consistent
  have hwords : ∀ a, (v'.fs.csum a).nbfree = (v.fs.csum a).nbfree ∧
      (v'.fs.csum a).nffree = (v.fs.csum a).nffree := by
    intro a
    rw [hcsum a]
    split
    case isTrue => exact add_fragment_words _ hb hf
    case isFalse => exact ⟨rfl, rfl⟩
  have hsum : v'.fs.sumWord Csum.nbfree = v.fs.sumWord Csum.nbfree ∧
      v'.fs.sumWord Csum.nffree = v.fs.sumWord Csum.nffree := by
    unfold Fs.sumWord
    rw [hk.img]
    exact ⟨Finset.sum_congr rfl fun a _ => by rw [(hwords a).1],
      Finset.sum_congr rfl fun a _ => by rw [(hwords a).2]⟩
  obtain ⟨hnb, hnf⟩ := add_fragment_words v.fs.totals hb hf
  refine hs.of_keeps hk ⟨fun a ha => ?_, fun a ha => ?_, ha.total_ndir, ?_, ha.total_nifree, ?_⟩ ?_
  · rw [hk.img] at ha ⊢
    have hold := hc.group a ha
    rw [hcg a]
    split
    case isTrue =>
      obtain ⟨h₁, h₂⟩ := add_fragment_words (v.fs.cg a).cs hb hf
      exact ⟨hold.ndblk_le, hold.free_lt, (congrArg UInt32.toNat h₁).trans hold.nbfree,
        (congrArg UInt32.toNat h₂).trans hold.nffree, hold.frsum, hold.btot, hold.bpos⟩
    case isFalse => exact hold
  · rw [hk.img] at ha
    rw [hcsum a, hcg a]
    split
    case isTrue => rw [hc.summary a ha]
    case isFalse => exact hc.summary a ha
  · rw [htotals, hnb, hsum.1, hc.nbfree]
  · rw [htotals, hnf, hsum.2, hc.nffree]
  · have hzero := hs.zero
    have hmem : (0 : Nat) ∈ v'.fs.used := by
      rw [hused]
      refine Fs.mem_used.mpr ⟨?_, hzero⟩
      by_contra hpos
      have hnone : v.fs.img.sb.fragCount = 0 := by omega
      have hvalid := hs.geometry.fragCount_pos
      omega
    exact (Fs.mem_used.mp hmem).2

end

section
variable {base : Multiset Nat} {dir : Nat → Bool} {v v' : Volume} {mode : UInt16} {no : Nat}

/-- Storage that no inode of the table owns yet leaves the files alone. -/
theorem Accounts.take {fs fs' : Fs} {m : Multiset Nat} (ha : Accounts base fs) (hs : fs'.Sound)
    (hk : fs.Keeps fs') (hframe : SameOn fs.img.sb.fragSize fs.used fs.bytes fs'.bytes)
    (hused : fs'.used = m + fs.used) : Accounts (base + m) fs' ∧ Beside ∅ fs fs' := by
  have htake := changes_take ha hs hk hframe hused
  obtain ⟨hacc, hbeside⟩ := ha.change htake
  refine ⟨hacc, hk.img, fun j _ => by rw [hk.inode], fun j hj _ hb => ?_, fun j _ => ?_⟩
  · exact hbeside.content j hj (fun h => absurd (Set.mem_singleton_iff.mp h) (by omega)) hb
  · by_cases hj : j = fs.inodeCount
    · rw [share, share, if_neg, if_neg] <;> rintro ⟨hlt, -⟩
      · omega
      · rw [htake.inodeCount] at hlt
        omega
    · exact htake.share_eq ha hj

/-- What the inode allocator does to the accounts. -/
theorem InodeMoved.accounts (h : InodeMoved v v') (ha : Accounts base v.fs)
    (hagree : v'.InodesAgree dir) : Accounts base v'.fs ∧ Beside ∅ v.fs v'.fs := by
  obtain ⟨hk, hbytes, hused⟩ := h.frame
  have hframe : SameOn v.fs.img.sb.fragSize v.fs.used v.fs.bytes v'.fs.bytes := by
    rw [hbytes]
    exact SameOn.refl _ _ _
  have hrest := ha.take (m := 0) (h.sound ha.sound hagree) hk hframe (by rw [hused, zero_add])
  rwa [add_zero] at hrest

/-- What a call leaves that took inode `no` or gave it back. -/
structure BitMoved (base : Multiset Nat) (dir : Nat → Bool) (v : Volume) (no : Nat) (used : Bool)
    (v' : Volume) : Prop where
  kept : Kept base dir {no} ∅ v v'
  lt : no < v.fs.inodeCount
  before : v.inodeUsed no = !used
  after : v'.inodeUsed no = used
  table : v'.fs.inode = v.fs.inode

theorem bitMoved_of_flipped {used isdir : Bool} {dir' : Nat → Bool} (h : Ledger base dir v)
    (hf : Flipped v no used isdir v') (hm : InodeMoved v v') (hlt : no < v.fs.inodeCount)
    (hagree : v'.InodesAgree dir') (htype : used = false → (v.fs.inode no).mode &&& NEXTUFS_IFMT = 0) :
    BitMoved base dir' v no used v' := by
  obtain ⟨hacc, hbeside⟩ := hm.accounts h.accounts hagree
  obtain ⟨hbefore, hbits⟩ := hf.bits
  have htable : v'.fs.inode = v.fs.inode := hm.frame.1.inode
  have hafter : v'.inodeUsed no = used := by rw [hbits, if_pos rfl]
  refine ⟨⟨⟨hacc, hagree, fun i hi hbit => ?_⟩, fun j hj => ?_, fun j _ => ?_, hbeside⟩, hlt, hbefore,
    hafter, htable⟩
  · rw [hbeside.inodeCount] at hi
    rw [htable]
    by_cases hno : i = no
    · subst hno
      exact htype (hafter.symm.trans hbit)
    · rw [hbits, if_neg hno] at hbit
      exact h.blank i hi hbit
  · rw [hbits, if_neg fun h => hj (Set.mem_singleton_iff.mpr h)]
  · rw [htable]
    exact SameKind.refl _

/-- `nextufs__allocate_inode_in_group`. -/
theorem allocateInode_ledger {cg : Nat} (h : Ledger base dir v)
    (hok : allocateInode cg mode v = .ok no v') :
    BitMoved base (Function.update dir no (isDirMode mode)) v no true v' := by
  simp only [allocateInode, bind_ok, get_ok] at hok
  obtain ⟨_, _, ⟨rfl, rfl⟩, hloop⟩ := hok
  have hg := h.accounts.sound.geometry
  obtain ⟨hflip, hlt, -⟩ := allocateInodeLoop_ok hg hloop
  exact bitMoved_of_flipped h hflip (allocateInodeLoop_moved hloop) hlt
    (hflip.agree hg h.agree hlt fun h => absurd h (by decide)) fun h => absurd h (by decide)

/-- `nextufs__free_inode_in_group`, for an inode that was cleared. -/
theorem freeInodeInGroup_ledger {u : PUnit} (h : Ledger base dir v) (hlt : no < v.fs.inodeCount)
    (htype : (v.fs.inode no).mode &&& NEXTUFS_IFMT = 0) (hdir : dir no = isDirMode mode)
    (hok : freeInodeInGroup no mode v = .ok u v') : BitMoved base dir v no false v' := by
  have hg := h.accounts.sound.geometry
  have hflip := freeInodeInGroup_ok hg hok
  exact bitMoved_of_flipped h hflip (freeInodeInGroup_moved hok) hlt
    (hflip.agree hg h.agree hlt fun _ => hdir) fun _ => htype

end

/-! ## Steps of a call -/

section
variable {base : Multiset Nat} {dir : Nat → Bool} {v v' : Volume} {node node' : Node}

/-- A call that changes the file of a node. -/
structure NodeKept (base : Multiset Nat) (dir : Nat → Bool) (v : Volume) (node : Node) (v' : Volume)
    (node' : Node) : Prop where
  kept : Kept base dir ∅ {node.inodeNo} v v'
  no : node'.inodeNo = node.inodeNo
  held : Held v'.fs node'
  kind : SameKind node.inode node'.inode

theorem Edits.kept {fs' : Fs} (h : Ledger base dir v) (hheld : Held v.fs node)
    (hb : HasBlocks node.inode)
    (he : Edits v.fs node (base + rest v.fs node.inodeNo) fs' node')
    (hw : Fs.inodeWords fs' = Fs.inodeWords v.fs) :
    NodeKept base dir v node { v with fs := fs' } node' := by
  obtain ⟨hchanges, hheld'⟩ := he.changes hheld hb
  obtain ⟨⟨_, _, hs⟩, hkind⟩ := he
  have hk : SameKind (v.fs.inode node.inodeNo) (fs'.inode node.inodeNo) := by
    rw [hheld.inode, hs.held hheld.inode]
    exact hkind
  exact ⟨h.change hchanges hw hk, hs.inodeNo, hheld', hkind⟩

theorem insertDirent_kept {name : List UInt8} {no : Nat} (h : Ledger base dir v)
    (hheld : Held v.fs node) (hb : HasBlocks node.inode)
    (hok : onFs (insertDirent node name no) v = .ok node' v') :
    NodeKept base dir v node v' node' := by
  obtain ⟨fs', hinsert, rfl⟩ := onFs_ok.mp hok
  exact Edits.kept h hheld hb (insertDirent_edits (h.accounts.wf hheld hb) hinsert)
    ((steady_insertDirent inert_inodeWords _ _ _).ok hinsert)

theorem removeEntry_kept {name : List UInt8} {no : Nat} (h : Ledger base dir v)
    (hheld : Held v.fs node) (hb : HasBlocks node.inode)
    (hok : removeEntry node name no v = .ok node' v') : NodeKept base dir v node v' node' := by
  simp only [removeEntry, bind_ok, check_ok, pure_ok, Prod.exists] at hok
  obtain ⟨node₁, removed, v₁, honFs, _, _, ⟨-, rfl⟩, rfl, rfl⟩ := hok
  obtain ⟨fs', hremove, rfl⟩ := onFs_ok.mp honFs
  exact Edits.kept h hheld hb (removeDirent_edits (h.accounts.wf hheld hb) hremove)
    ((steady_removeDirent inert_inodeWords _ _).ok hremove)

theorem writeInodeRaw_ok {fs fs' : Fs} {no : Nat} {ino : Inode} {u : PUnit}
    (h : writeInodeRaw no ino fs = .ok u fs') :
    fs' = { fs with inode := Function.update fs.inode no ino } := by
  simp only [writeInodeRaw, bind_ok, get_ok, check_ok, modify_ok] at h
  obtain ⟨_, _, ⟨rfl, rfl⟩, _, _, ⟨-, rfl⟩, rfl⟩ := h
  rfl

/-- An inode is written that describes the same data. -/
theorem writeInode_kept {no : Nat} {ino : Inode} {u : PUnit} (h : Ledger base dir v)
    (hlt : no < v.fs.inodeCount) (hk : SameKind (v.fs.inode no) ino)
    (hs : SameStorage (v.fs.inode no) ino)
    (hok : onFs (writeInodeRaw no ino) v = .ok u v') :
    Kept base dir ∅ {no} v v' ∧ v'.fs.inode = Function.update v.fs.inode no ino := by
  obtain ⟨fs', hwrite, rfl⟩ := onFs_ok.mp hok
  obtain rfl := writeInodeRaw_ok hwrite
  refine ⟨h.change (changes_touch h.accounts hlt hk hs) rfl ?_, rfl⟩
  dsimp only
  rw [Function.update_self]
  exact hk

/-- What is held of another inode stays so. -/
theorem Held.of_beside {S : Set Nat} {fs fs' : Fs} (h : Held fs node) (hb : Beside S fs fs')
    (hno : node.inodeNo ∉ S) : Held fs' node :=
  ⟨(hb.inode _ hno).trans h.inode, by rw [hb.inodeCount]; exact h.lt⟩

end

end NextUfs.Mutate
