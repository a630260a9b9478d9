/-
NextUfs.Mutate.ReserveRunTheorems — the reserve over whole runs.

A file operation may extend a run, move it, and add indirect blocks one by one,
each charged by its own check. `growBlock_spared` follows these in their order:
every allocation leaves the reserve, and what is given back at the end was
still counted as taken while the others were made. Shrinking only gives back.
`SpaceRun` is any sequence of calls; `reserve_kept` is about all of them.
-/
import NextUfs.Core.ReserveTheorems
import NextUfs.Mutate.DirectoryTheorems
import NextUfs.Mutate.FrameTheorems

namespace NextUfs.Mutate

open NextUfs.Core NextUfs.Lib NextUfs.Lib.ByteStore NextUfs.Lib.StateResult NextUfs.Lib.Extents

section
variable {fs fs' : Fs} {ino : Inode} {len : Nat → Nat} {keep : Nat} {others : Multiset Nat}

/-! ## Growing a block -/

/-- What only looks leaves the reserve as it was. -/
theorem steady_spared {α : Type} {x : FsM α} (h : fs.Reserved) (hx : Steady id x) :
    fs.Spared (final (x fs)) := by
  have hfinal : final (x fs) = fs := hx fs
  rw [hfinal]
  exact h.spared

theorem extendOrAllocate_spared {old before after cg : Nat} (h : fs.Reserved)
    (hold : old ≠ 0 → fs.RunOk old before ∧ extent old before ≤ fs.used) :
    fs.Spared (final (extendOrAllocate old before after cg fs)) := by
  unfold extendOrAllocate
  split
  case isTrue => exact allocateFragsAnycg_spared h
  case isFalse hne =>
    obtain ⟨hrun, hle⟩ := hold hne
    have hused : fs.Used old before := fun f h₁ h₂ =>
      (Fs.mem_used.mp (Multiset.mem_of_le hle (mem_extent.mpr ⟨hne, h₁, h₂⟩))).2
    have hext : fs.Spared (final (extendFragmentRun old before after fs)) :=
      extendFragmentRun_spared h hrun hused
    split
    case h_1 fs₁ hok =>
      rw [hok] at hext
      exact hext
    case h_2 fs₁ herr =>
      rw [extendFragmentRun_error herr (.inl rfl)]
      exact allocateFragsAnycg_spared h
    case h_3 e fs₁ _ herr =>
      rw [herr] at hext
      exact hext

theorem findRoom_spared {old before after cg : Nat} (h : fs.Reserved)
    (hold : old ≠ 0 → fs.RunOk old before ∧ extent old before ≤ fs.used) :
    fs.Spared (final (findRoom old before after cg fs)) := by
  unfold findRoom
  split
  case isTrue => exact extendOrAllocate_spared h hold
  case isFalse => exact h.spared

theorem freeMoved_spared {old before a : Nat} (h : fs.Reserved)
    (hrun : old ≠ 0 → fs.RunOk old before) :
    fs.Spared (final (freeMoved old before a fs)) := by
  unfold freeMoved
  split
  case isTrue hc => exact freeFragmentRun_spared h (hrun hc.1)
  case isFalse => exact h.spared

/-- The data run, the indirect blocks, then the old run: the reserve is there after each. -/
theorem growBlock_spared {inodeNo k oldSize newSize : Nat} (h : fs.Reserved)
    (hok : FileTree fs ino len keep others)
    (hbefore : fs.img.sb.fileBlock fs.bytes ino k ≠ 0 →
      fileFrags fs.img.sb oldSize k = fs.img.sb.lenAt len k) :
    fs.Spared (final (growBlock ⟨inodeNo, ino⟩ k oldSize newSize fs)) := by
  unfold growBlock
  rw [get_bind]
  refine spared_bind (steady_spared h (steady_resolveInodeDataBlock _ _)) fun old _ hres h => ?_
  obtain ⟨rfl, rfl⟩ := resolveInodeDataBlock_ok hres
  refine spared_bind (readSlice_spared h) fun raw _ hread h => ?_
  obtain ⟨-, -, rfl⟩ := readSlice_ok hread
  have hold : fs.img.sb.fileBlock fs.bytes ino k ≠ 0 →
      fs.RunOk (fs.img.sb.fileBlock fs.bytes ino k)
        (if fs.img.sb.fileBlock fs.bytes ino k = 0 then 0 else fileFrags fs.img.sb oldSize k) ∧
      extent (fs.img.sb.fileBlock fs.bytes ino k)
        (if fs.img.sb.fileBlock fs.bytes ino k = 0 then 0 else fileFrags fs.img.sb oldSize k) ≤
          fs.used := by
    intro hne
    rw [if_neg hne, hbefore hne]
    exact ⟨(hok.run_at hne).1, (Multiset.le_add_right _ _).trans (hok.block_le k)⟩
  refine final_bind (findRoom_spared h hold) fun a fs₁ _ h₁ => h₁.trans ?_
  refine final_bind (writeSlice_spared h₁.reserved) fun _ fs₂ _ h₂ => h₂.trans ?_
  refine final_bind (setInodeDataBlock_spared h₂.reserved) fun p fs₃ _ h₃ => h₃.trans ?_
  have hrun := fun hne => ((h₁.trans h₂).trans h₃).runOk (hold hne).1
  exact spared_bind (freeMoved_spared h₃.reserved hrun) fun _ _ _ h₄ => h₄.spared

theorem growTail_spared {inodeNo last size : Nat} (h : fs.Reserved)
    (hwf : FileWf fs ino others) (hlt : ino.size < size) :
    fs.Spared (final (growTail ⟨inodeNo, ino⟩ last size fs)) := by
  have hbs := hwf.1.geometry.blockSize_ge
  unfold growTail
  rw [get_bind]
  split
  case isTrue hc =>
    refine spared_bind (steady_spared h (steady_resolveInodeDataBlock _ _)) fun frag _ hres h => ?_
    obtain ⟨rfl, rfl⟩ := resolveInodeDataBlock_ok hres
    split
    case isTrue =>
      have hpos : ino.size / fs.img.sb.blockSize * fs.img.sb.blockSize +
          ino.size % fs.img.sb.blockSize = ino.size := Nat.div_add_mod' ..
      have hok := FileOk.congr_len hwf.1 (fun _ _ _ => rfl) (blocksOf_mono hlt.le)
      exact growBlock_spared h hok.toFileTree fun _ => 
        (lenAt_fileFrags (show ino.size / fs.img.sb.blockSize * fs.img.sb.blockSize < ino.size by
          have := hc.1
          dsimp only at this
          omega)).symm
    case isFalse => exact h.spared
  case isFalse => exact h.spared

theorem growFile_spared {inodeNo size : Nat} (h : fs.Reserved) (hwf : FileWf fs ino others)
    (hlt : ino.size < size) : fs.Spared (final (growFile ⟨inodeNo, ino⟩ size fs)) := by
  unfold growFile
  rw [get_bind]
  refine spared_bind (growTail_spared h hwf hlt) fun ⟨no₁, ino₁⟩ fs₁ htail h₁ => ?_
  obtain ⟨-, len, ht⟩ := growTail_ok hwf hlt rfl htail
  have hlast := ht.len_last
  rw [← ht.keeps.img] at hlast ⊢
  exact growBlock_spared h₁ ht.ok.toFileTree hlast

/-- A file whose tree got no larger has left no more fragments in use. -/
theorem card_used_le {fs₁ : Fs} {ino₁ : Inode} {len₁ : Nat → Nat} {keep₁ r : Nat}
    (hok : FileTree fs ino len keep others) (hok₁ : FileTree fs₁ ino₁ len₁ keep₁ others)
    (hcount : r + (fs₁.img.sb.fileOwn fs₁.bytes ino₁ len₁).card =
      (fs.img.sb.fileOwn fs.bytes ino len).card) : fs₁.used.card ≤ fs.used.card := by
  rw [← hok.owned, ← hok₁.owned, Multiset.card_add, Multiset.card_add]
  omega

theorem zeroTail_spared {size : Nat} (h : fs.Reserved) :
    fs.Spared (final (zeroTail ino size fs)) := by
  unfold zeroTail
  rw [get_bind]
  split
  case isTrue =>
    refine spared_bind (steady_spared h (steady_resolveInodeDataBlock _ _)) fun frag fs₁ _ h₁ => ?_
    split
    case isTrue => exact writeSlice_spared h₁
    case isFalse => exact h₁.spared
  case isFalse => exact h.spared

/-- Shrinking only gives back. -/
theorem shrinkFile_spared {inodeNo size : Nat} {node' : Node} (h : fs.Reserved)
    (hwf : FileWf fs ino others) (hlt : size < ino.size)
    (hx : shrinkFile ⟨inodeNo, ino⟩ size fs = .ok node' fs') : fs.Spared fs' := by
  have htree := hwf.1.toFileTree
  simp only [shrinkFile, bind_ok, get_ok, check_ok, pure_ok, Prod.exists] at hx
  obtain ⟨_, _, ⟨rfl, rfl⟩, ino₁, r₁, fs₁, hdirect, ino₂, r₂, fs₂, hslots, _, _, ⟨-, rfl⟩, _, fs₃,
    hzero, -, rfl⟩ := hx
  have hd := shrinkDirect_ok hlt rfl htree le_rfl hdirect
  have hc := shrinkSlots_ok hd.tree (blocksOf_mono hlt.le) le_rfl hslots
  have hle₁ : fs₁.used.card ≤ fs.used.card :=
    card_used_le htree hd.tree (by rw [hd.keeps.img, hd.bytes]; exact hd.count)
  have hle₂ : fs₂.used.card ≤ fs₁.used.card :=
    card_used_le hd.tree hc.tree (by rw [hc.keeps.img]; exact hc.count)
  have h₂ := h.of_used htree.sound hc.tree.sound (hd.keeps.trans hc.keeps) (hle₂.trans hle₁)
  rw [← final_of_ok hzero]
  exact h₂.trans (zeroTail_spared h₂.reserved)

theorem writeInodeRaw_spared {no : Nat} (h : fs.Reserved) :
    fs.Spared (final (writeInodeRaw no ino fs)) := by
  unfold writeInodeRaw
  rw [get_bind]
  exact spared_bind (check_spared h) fun _ _ _ h₁ => h₁.withInode _

theorem finishInode_spared {node : Node} (h : fs.Reserved) :
    fs.Spared (final (finishInode node fs)) := by
  unfold finishInode
  rw [get_bind]
  exact spared_bind (writeInodeRaw_spared h) fun _ _ _ h₁ => h₁.spared

/-- A file resized, or one that could not be made longer. -/
theorem fileResize_spared {inodeNo size : Nat} (h : fs.Reserved) (hwf : FileWf fs ino others)
    (hends : ino.size ≤ size ∨ finishes (fileResize ⟨inodeNo, ino⟩ size fs) = true) :
    fs.Spared (final (fileResize ⟨inodeNo, ino⟩ size fs)) := by
  by_cases hgt : ino.size < size
  · unfold fileResize
    refine spared_bind (check_spared h) fun _ _ hcheck _ => ?_
    obtain ⟨-, rfl⟩ := check_ok.mp hcheck
    rw [if_neg (show ¬ size = ino.size by omega), changeSize, if_pos hgt]
    exact spared_bind (growFile_spared h hwf hgt) fun _ _ _ h₁ => finishInode_spared h₁
  by_cases heq : size = ino.size
  · unfold fileResize
    refine spared_bind (check_spared h) fun _ _ _ h₁ => ?_
    rw [if_pos heq]
    exact h₁.spared
  · obtain ⟨node', fs', hx⟩ := exists_of_finishes (hends.resolve_left (by omega))
    rw [hx]
    simp only [fileResize, sizeValid, bind_ok, check_ok] at hx
    obtain ⟨_, _, ⟨-, rfl⟩, hx⟩ := hx
    rw [if_neg heq] at hx
    obtain ⟨node₁, fs₁, hchange, hfinish⟩ := bind_ok.mp hx
    rw [changeSize, if_neg hgt] at hchange
    have h₁ := shrinkFile_spared h hwf (by omega) hchange
    exact h₁.trans (final_of_ok hfinish ▸ finishInode_spared h₁.reserved)

/-- A hole that is written to is filled by one growth from nothing. -/
theorem blockForWrite_spared {inodeNo k : Nat} (h : fs.Reserved) (hwf : FileWf fs ino others) :
    fs.Spared (final (blockForWrite ⟨inodeNo, ino⟩ k fs)) := by
  unfold blockForWrite
  rw [get_bind]
  refine spared_bind (steady_spared h (steady_resolveInodeDataBlock _ _)) fun frag₀ _ hres h => ?_
  obtain ⟨rfl, rfl⟩ := resolveInodeDataBlock_ok hres
  split
  case isTrue hhole =>
    refine spared_bind (growBlock_spared h hwf.1.toFileTree fun hne => absurd hhole hne)
      fun node₁ fs₁ _ h₁ => ?_
    exact spared_bind (steady_spared h₁ (steady_resolveInodeDataBlock _ _)) fun _ _ _ h₂ => h₂.spared
  case isFalse => exact h.spared

theorem writeChunks_spared {inodeNo : Nat} : ∀ {fuel offset : Nat} {data : List UInt8}
    {fs : Fs} {ino : Inode}, fs.Reserved → FileWf fs ino others →
    offset + data.length ≤ ino.size →
    fs.Spared (final (writeChunks fuel ⟨inodeNo, ino⟩ data offset fs)) := by
  intro fuel
  induction fuel with
  | zero => exact fun h _ _ => h.spared
  | succ fuel ih =>
    intro offset data fs ino h hwf hend
    rw [writeChunks]
    split
    case isTrue => exact h.spared
    case isFalse hne =>
      have hlen : 0 < data.length := List.length_pos_iff.mpr hne
      rw [get_bind]
      refine spared_bind (blockForWrite_spared h hwf) fun turn fs₁ hblock h₁ => ?_
      obtain ⟨⟨no₁, ino₁⟩, frag⟩ := turn
      refine spared_bind (writeSlice_spared h₁) fun _ fs₂ hwrite h₂ => ?_
      obtain ⟨rfl, hturn⟩ := writeTurn_ok hwf hlen hend hblock hwrite
      have hsize : ino₁.size = ino.size := hturn.size
      refine ih h₂ hturn.wf ?_
      rw [hsize, List.length_drop]
      omega

theorem growForWrite_spared {inodeNo size : Nat} (h : fs.Reserved) (hwf : FileWf fs ino others) :
    fs.Spared (final (growForWrite ⟨inodeNo, ino⟩ size fs)) := by
  unfold growForWrite
  split
  case isTrue hgt => exact fileResize_spared h hwf (.inl (le_of_lt hgt))
  case isFalse => exact h.spared

theorem fileWrite_spared {inodeNo offset : Nat} {data : List UInt8} (h : fs.Reserved)
    (hwf : FileWf fs ino others) :
    fs.Spared (final (fileWrite ⟨inodeNo, ino⟩ data offset fs)) := by
  unfold fileWrite
  split
  case isTrue => exact h.spared
  case isFalse =>
    refine spared_bind (check_spared h) fun _ _ hcheck h => ?_
    obtain ⟨-, rfl⟩ := check_ok.mp hcheck
    refine spared_bind (check_spared h) fun _ _ hcheck h => ?_
    obtain ⟨-, rfl⟩ := check_ok.mp hcheck
    refine spared_bind (growForWrite_spared h hwf) fun grown fs₁ hgrow h₁ => ?_
    obtain ⟨no₁, ino₁⟩ := grown
    have hstep : FileWf fs₁ ino₁ others ∧ offset + data.length ≤ ino₁.size := by
      unfold growForWrite at hgrow
      split at hgrow
      case isTrue =>
        have hstep := fileResize_ok hwf hgrow
        exact ⟨hstep.wf, hstep.size.ge⟩
      case isFalse hle =>
        obtain ⟨hnode, rfl⟩ := pure_ok.mp hgrow
        cases hnode
        exact ⟨hwf, Nat.not_lt.mp hle⟩
    exact spared_bind (writeChunks_spared h₁ hstep.1 hstep.2) fun _ _ _ h₂ => finishInode_spared h₂

/-- The call makes the file longer, if it changes its size. -/
def FileCall.Grows (node : Node) : FileCall → Prop
  | resize size => node.inode.size ≤ size
  | write _ _ => True

theorem FileCall.spared {call : FileCall} {node : Node} (h : fs.Reserved)
    (hwf : FileWf fs node.inode others)
    (hends : call.Grows node ∨ finishes (call.run node fs) = true) :
    fs.Spared (final (call.run node fs)) := by
  cases call with
  | resize size => exact fileResize_spared h hwf hends
  | write data offset => exact fileWrite_spared h hwf

/-! ## Directories -/

theorem updateNodeTimes_spared {node : Node} (h : fs.Reserved) :
    fs.Spared (final (updateNodeTimes node fs)) := by
  unfold updateNodeTimes
  exact spared_bind (writeInodeRaw_spared h) fun _ _ _ h₁ =>
    steady_spared h₁ (steady_nodeGetByInode _)

/-- The records of a directory are looked at and written where they lie. -/
theorem insertInChunks_spared {node : Node} {name : List UInt8} {new_inode need : Nat} :
    ∀ {fuel remaining k : Nat} {fs : Fs}, fs.Reserved →
      fs.Spared (final (insertInChunks node name new_inode need fuel remaining k fs)) := by
  intro fuel
  induction fuel with
  | zero => exact fun h => h.spared
  | succ fuel ih =>
    intro remaining k fs h
    rw [insertInChunks]
    split
    case isTrue => exact h.spared
    case isFalse =>
      rw [get_bind]
      refine spared_bind (steady_spared h (steady_readChunk _ _ _)) fun block fs₁ _ h₁ => ?_
      generalize insertInChunk name new_inode need block (min remaining fs.img.sb.blockSize)
        (min remaining fs.img.sb.blockSize) 0 = scan
      rcases scan with e | _ | block'
      · exact h₁.spared
      · exact ih h₁
      · refine spared_bind (steady_spared h₁ (steady_chunkFrag _ _ _)) fun frag fs₂ _ h₂ => ?_
        unfold writeChunk
        refine spared_bind ?_ fun _ _ _ h₃ => h₃.spared
        rw [get_bind]
        exact spared_bind (failAs_spared (writeSlice_spared h₂)) fun _ _ _ h₃ =>
          updateNodeTimes_spared h₃

/-- Where no record has room, nothing was written. -/
theorem insertInChunks_none {node : Node} {name : List UInt8} {new_inode need : Nat} :
    ∀ {fuel remaining k : Nat} {fs fs' : Fs},
      insertInChunks node name new_inode need fuel remaining k fs = .ok none fs' → fs = fs' := by
  intro fuel
  induction fuel with
  | zero => exact fun hx => (pure_ok.mp hx).2
  | succ fuel ih =>
    intro remaining k fs fs' hx
    rw [insertInChunks] at hx
    split at hx
    case isTrue => exact (pure_ok.mp hx).2
    case isFalse =>
      rw [get_bind] at hx
      obtain ⟨block, fs₁, hread, hx⟩ := bind_ok.mp hx
      obtain rfl := (steady_readChunk (f := id) _ _ _).state hread
      generalize insertInChunk name new_inode need block (min remaining fs.img.sb.blockSize)
        (min remaining fs.img.sb.blockSize) 0 = scan at hx
      rcases scan with e | _ | block'
      · exact (throw_ok.mp hx).elim
      · exact ih hx
      · simp only [bind_ok, pure_ok] at hx
        obtain ⟨_, _, -, _, _, -, hsome, -⟩ := hx
        cases hsome

theorem growDirectoryByDirblk_spared {node : Node} (h : fs.Reserved)
    (hwf : FileWf fs node.inode others) :
    fs.Spared (final (growDirectoryByDirblk node fs)) := by
  unfold growDirectoryByDirblk
  rw [get_bind]
  refine spared_bind (check_spared h) fun _ _ hcheck h => ?_
  obtain ⟨-, rfl⟩ := check_ok.mp hcheck
  refine spared_bind (fileResize_spared h hwf (.inl (Nat.le_add_right _ _))) fun node₁ fs₁ _ h₁ => ?_
  refine spared_bind (steady_spared h₁ (steady_resolveInodeDataBlock _ _)) fun frag fs₂ _ h₂ => ?_
  exact spared_bind (check_spared h₂) fun _ _ _ h₃ => h₃.spared

theorem insertInNewBlock_spared {node : Node} {name : List UInt8} {new_inode need : Nat}
    (h : fs.Reserved) (hwf : FileWf fs node.inode others) :
    fs.Spared (final (insertInNewBlock node name new_inode need fs)) := by
  unfold insertInNewBlock
  refine spared_bind (check_spared h) fun _ _ hcheck h => ?_
  obtain ⟨-, rfl⟩ := check_ok.mp hcheck
  refine spared_bind (failAs_spared (growDirectoryByDirblk_spared h hwf))
    fun ⟨node₁, off⟩ fs₁ _ h₁ => ?_
  cases writeDirentRaw (fun _ => 0) 0 new_inode DIRBLKSIZ name with
  | error e => exact h₁.spared
  | ok new_dirblk =>
    exact spared_bind (failAs_spared (writeSlice_spared h₁)) fun _ _ _ h₂ => h₂.spared

theorem insertDirent_spared {node : Node} {name : List UInt8} {new_inode : Nat}
    (h : fs.Reserved) (hwf : FileWf fs node.inode others) :
    fs.Spared (final (insertDirent node name new_inode fs)) := by
  unfold insertDirent
  refine spared_bind (insertInChunks_spared h) fun found fs₁ hchunks h₁ => ?_
  cases found with
  | some node₁ => exact h₁.spared
  | none =>
    obtain rfl := insertInChunks_none hchunks
    exact insertInNewBlock_spared h hwf

end

/-! ## Runs -/

/-- A step: a call on the allocator, a block pointer set with its indirect blocks, a file made
longer or written, or a directory entry added, each with whatever comes of it; a file made shorter;
or bytes and inodes changed. Callers name runs that are in use, and files that are well formed. -/
inductive SpaceStep : Fs → Fs → Prop
  | call {fs : Fs} {call : AllocCall} : call.Valid fs → SpaceStep fs (final (call.run fs))
  | pointer (fs : Fs) (ino : Inode) (k data pref : Nat) :
      SpaceStep fs (final (setInodeDataBlock ino k data pref fs))
  | grow {fs : Fs} {call : FileCall} {node : Node} {others : Multiset Nat} :
      FileWf fs node.inode others → call.Grows node → SpaceStep fs (final (call.run node fs))
  | shrink {fs fs' : Fs} {size : Nat} {node node' : Node} {others : Multiset Nat} :
      FileWf fs node.inode others → fileResize node size fs = .ok node' fs' → SpaceStep fs fs'
  | entry {fs : Fs} {node : Node} {others : Multiset Nat} (name : List UInt8) (new_inode : Nat) :
      FileWf fs node.inode others → SpaceStep fs (final (insertDirent node name new_inode fs))
  | data (fs : Fs) (b : ByteStore) (t : Nat → Inode) :
      SpaceStep fs { fs with bytes := b, inode := t }

/-- Any sequence of steps. -/
abbrev SpaceRun : Fs → Fs → Prop := Relation.ReflTransGen SpaceStep

theorem SpaceStep.spared {fs fs' : Fs} (h : fs.Reserved) (hs : SpaceStep fs fs') :
    fs.Spared fs' := by
  cases hs with
  | call hv => exact AllocCall.spared h hv
  | pointer ino k data pref => exact setInodeDataBlock_spared h
  | grow hwf hgrows => exact FileCall.spared h hwf (.inl hgrows)
  | shrink hwf hx =>
    rw [← final_of_ok hx]
    exact fileResize_spared h hwf (.inr (by rw [hx]; rfl))
  | entry name new_inode hwf => exact insertDirent_spared h hwf
  | data b t =>
    have ht := h.withInode t
    exact ht.trans ⟨rfl, fun _ => rfl, ht.reserved.withBytes b⟩

/-- The run lemma. -/
theorem SpaceRun.spared {fs fs' : Fs} (h : fs.Reserved) (hr : SpaceRun fs fs') :
    fs.Spared fs' := by
  induction hr with
  | refl => exact h.spared
  | tail _ hs ih => exact ih.trans (SpaceStep.spared ih.reserved hs)

end NextUfs.Mutate
