/-
NextUfs.Mutate.FileTheorems — resizing and writing over whole runs of calls.

A file's content is a list of bytes, and `FileCall.apply` says what a call
should do to it: keep the head and pad with zeros, or overlay the data.
`FileStep` is what a successful call does to a well-formed file, and
`file_runs` carries it over any sequence of calls; `others`, what the other
files and the metadata own, is neither given away nor written.
-/
import NextUfs.Mutate.ResizeTheorems

namespace NextUfs.Mutate

open NextUfs.Core NextUfs.Lib NextUfs.Lib.ByteStore NextUfs.Lib.StateResult NextUfs.Lib.Extents

section
variable {fs : Fs} {ino : Inode} {len : Nat → Nat} {keep : Nat} {others : Multiset Nat}

/-! ## Reading back -/

theorem FileWf.inReach (hwf : FileWf fs ino others) : fs.InReach ino ino.size := by
  intro k x hne hx hlt
  have hok := hwf.1
  have hrun := (hok.run_at hne).1
  have hcov := fileFrags_covers hok.geometry hx hlt
  rw [lenAt_fileFrags (by omega)] at hrun
  have hle := Nat.mul_le_mul_right fs.img.sb.fragSize (hok.sound.run_le hrun)
  rw [Nat.add_mul] at hle
  omega

/-- No file is too long for the block map. -/
theorem size_le_slots {sb : Superblock} (hg : Geometry sb) {n : Nat} (h : n ≤ INT32_MAX) :
    n ≤ sb.slotBase 3 * sb.blockSize := by
  have hbs := hg.blockSize_ge
  have hepb : 1024 ≤ sb.entriesPerBlock := by
    unfold Superblock.entriesPerBlock
    omega
  have hpow : 1024 ^ 3 ≤ sb.entriesPerBlock ^ 3 := Nat.pow_le_pow_left hepb 3
  have hslots : 1024 ^ 3 ≤ sb.slotBase 3 := by
    rw [sb.slotBase_three]
    omega
  have hmul := Nat.mul_le_mul hslots hbs
  unfold INT32_MAX at h
  omega

theorem FileWf.read (hwf : FileWf fs ino others) :
    inodeReadData ino 0 ino.size fs = .ok (fs.img.sb.content fs.bytes ino) fs := by
  have hok := hwf.1
  have hread := inodeReadData_eq hok.sound hok.slots (size_le_slots hok.geometry hwf.2)
    hwf.inReach 0 ino.size
  rwa [Nat.sub_zero, Nat.min_self] at hread

/-- A file nobody wrote to is as it was. -/
theorem FileWf.of_sameOn {others' : Multiset Nat} {fs' : Fs} (hwf : FileWf fs ino others)
    (hs : fs'.Sound) (himg : fs'.img = fs.img) (hnd : ∀ c, (fs'.cg c).ndblk = (fs.cg c).ndblk)
    (hsame : SameOn fs.img.sb.fragSize
      (fs.img.sb.fileOwn fs.bytes ino (fileFrags fs.img.sb ino.size)) fs.bytes fs'.bytes)
    (hown : fs.img.sb.fileOwn fs.bytes ino (fileFrags fs.img.sb ino.size) + others' = fs'.used) :
    FileWf fs' ino others' ∧
      fs.img.sb.content fs'.bytes ino = fs.img.sb.content fs.bytes ino := by
  have hok := hwf.1
  have hg := hok.geometry
  have hinner : SameOn fs.img.sb.fragSize (fs.img.sb.fileInner fs.bytes ino) fs.bytes fs'.bytes := by
    refine hsame.mono ?_
    rw [Fs.fileOwn_eq _ hok.slots]
    exact Multiset.le_add_right _ _
  have hown' := fileOwn_congr hg hinner (fileFrags fs.img.sb ino.size)
  refine ⟨⟨⟨⟨hs, fun k hk hne => ?_, fun s hs3 => ?_, ?_⟩, ?_⟩, hwf.2⟩, ?_⟩
  · rw [himg]
    exact ⟨(hok.direct k hk hne).1.of_ndblk (by rw [himg]) hnd, (hok.direct k hk hne).2⟩
  · have hgood := hok.slots.congr hg hinner s hs3
    rw [himg]
    unfold Fs.Good at hgood ⊢
    rw [himg]
    refine hgood.mono (fun p hp => ⟨hp.1, ?_⟩) le_rfl
    rw [himg]
    exact hp.2.of_ndblk (by rw [himg]) hnd
  · rw [himg, hown', hown]
  · rw [himg, hown']
    exact hok.blocks
  · refine List.map_congr_left fun q hq => ?_
    have hlt : q < ino.size := List.mem_range.mp hq
    rw [Nat.zero_add, Superblock.fileByte, Superblock.fileByte, fileBlock_congr hg hinner]
    by_cases h0 : fs.img.sb.fileBlock fs.bytes ino (q / fs.img.sb.blockSize) = 0
    · rw [if_pos h0, if_pos h0]
    · rw [if_neg h0, if_neg h0]
      have hin : InRun fs ino (fileFrags fs.img.sb ino.size) q := inRun_of_lt hg hlt
      refine hsame.at_extent h0 ?_ (hin h0)
      rw [Fs.fileOwn_eq _ hok.slots]
      exact (le_sum (fun k => extent (fs.img.sb.fileBlock fs.bytes ino k)
        (fs.img.sb.lenAt (fileFrags fs.img.sb ino.size) k)) (hok.run_at h0).2.2).trans
          (Multiset.le_add_left _ _)

/-! ## Writing blocks -/

/-- What filling holes and writing bytes does to a file of one size: bytes become `f`. -/
structure Edited (fs : Fs) (ino : Inode) (others : Multiset Nat) (f : Nat → UInt8) (fs' : Fs)
    (ino' : Inode) : Prop where
  wf : FileWf fs' ino' others
  keeps : fs.Keeps fs'
  fields : ino' = { ino with db := ino'.db, ib := ino'.ib, blocks := ino'.blocks }
  byte : ∀ q < ino.size, fs.img.sb.fileByte fs'.bytes ino' q = f q
  frame : SameOn fs.img.sb.fragSize others fs.bytes fs'.bytes

theorem Edited.size {f : Nat → UInt8} {fs' : Fs} {ino' : Inode}
    (h : Edited fs ino others f fs' ino') : ino'.size = ino.size := by
  rw [h.fields]

theorem Edited.trans {f g : Nat → UInt8} {fs₁ fs₂ : Fs} {ino₁ ino₂ : Inode}
    (h₁ : Edited fs ino others f fs₁ ino₁) (h₂ : Edited fs₁ ino₁ others g fs₂ ino₂) :
    Edited fs ino others g fs₂ ino₂ := by
  have himg := h₁.keeps.img
  have hbyte := h₂.byte
  have hframe := h₂.frame
  rw [himg, h₁.size] at hbyte
  rw [himg] at hframe
  refine ⟨h₂.wf, h₁.keeps.trans h₂.keeps, ?_, hbyte, h₁.frame.trans hframe⟩
  rw [h₂.fields, h₁.fields]

theorem Edited.of_byte {f g : Nat → UInt8} {fs' : Fs} {ino' : Inode}
    (h : Edited fs ino others f fs' ino') (hfg : ∀ q < ino.size, f q = g q) :
    Edited fs ino others g fs' ino' :=
  ⟨h.wf, h.keeps, h.fields, fun q hq => (h.byte q hq).trans (hfg q hq), h.frame⟩

/-- The block a write goes to is there afterwards, and no byte has changed. -/
theorem blockForWrite_ok {inodeNo k frag : Nat} {fs' : Fs} {node' : Node}
    (hwf : FileWf fs ino others) (hk : k * fs.img.sb.blockSize < ino.size)
    (h : blockForWrite ⟨inodeNo, ino⟩ k fs = .ok (node', frag) fs') :
    node'.inodeNo = inodeNo ∧ frag = fs.img.sb.fileBlock fs'.bytes node'.inode k ∧ frag ≠ 0 ∧
      Edited fs ino others (fs.img.sb.fileByte fs.bytes ino) fs' node'.inode := by
  have hok := hwf.1
  have hg := hok.geometry
  have hbs := hg.blockSize_ge
  simp only [blockForWrite, bind_ok, get_ok] at h
  obtain ⟨_, _, ⟨rfl, rfl⟩, frag₀, _, hres, h⟩ := h
  obtain ⟨rfl, rfl⟩ := resolveInodeDataBlock_ok hres
  split at h
  case isFalse hne =>
    obtain ⟨hpair, rfl⟩ := pure_ok.mp h
    obtain ⟨rfl, rfl⟩ := Prod.mk.inj hpair
    exact ⟨rfl, rfl, hne, hwf, Fs.Keeps.refl fs, rfl, fun _ _ => rfl, SameOn.refl _ _ _⟩
  case isTrue hhole =>
    simp only [bind_ok, pure_ok, Prod.mk.injEq] at h
    obtain ⟨node₁, fs₁, hgrow, frag₁, _, hres₁, ⟨rfl, rfl⟩, rfl⟩ := h
    obtain ⟨rfl, rfl⟩ := resolveInodeDataBlock_ok hres₁
    obtain ⟨hno, hgrown⟩ := growBlock_ok hok ((lt_blocksOf hg).mpr hk)
      (fun hne => absurd hhole hne) hk.le hk hgrow
    have himg := hgrown.keeps.img
    have hsize : node₁.inode.size = ino.size := by rw [hgrown.fields]
    have hlen : Function.update (fileFrags fs.img.sb ino.size) k
        (fileFrags fs.img.sb ino.size k) = fileFrags fs.img.sb ino.size :=
      Function.update_eq_self ..
    have hok₁ := hgrown.ok
    rw [hlen, ← himg, ← hsize] at hok₁
    refine ⟨hno, by rw [himg], by rw [himg]; exact hgrown.block_self, ⟨hok₁, ?_⟩, hgrown.keeps,
      hgrown.fields, fun q hq => ?_, hgrown.frame⟩
    · rw [hsize]
      exact hwf.2
    · by_cases hqk : q / fs.img.sb.blockSize = k
      · have hq' := Nat.div_add_mod' q fs.img.sb.blockSize
        have hqm := Nat.mod_lt q (show 0 < fs.img.sb.blockSize by omega)
        rw [hqk] at hq'
        rw [hgrown.byte_self q hqk (fileFrags_covers hg hqm (by omega)), kept, if_pos hhole,
          if_neg (Nat.not_lt_zero _), fileByte_hole (by rwa [hqk])]
      · exact hgrown.byte_other q hqk (inRun_of_lt hg hq)

/-- Writing into a block that is there. -/
theorem chunk_ok {k x n : Nat} {buf : ByteStore} {fs' : Fs} {u : PUnit}
    (hwf : FileWf fs ino others) (hne : fs.img.sb.fileBlock fs.bytes ino k ≠ 0)
    (hn : 0 < n) (hx : x + n ≤ fs.img.sb.blockSize)
    (hend : k * fs.img.sb.blockSize + x + n ≤ ino.size)
    (h : writeSlice buf n (fs.fragOffset (fs.img.sb.fileBlock fs.bytes ino k) + x) fs =
      .ok u fs') :
    Edited fs ino others (fun q => if k * fs.img.sb.blockSize + x ≤ q ∧
      q < k * fs.img.sb.blockSize + x + n then buf (q - (k * fs.img.sb.blockSize + x))
      else fs.img.sb.fileByte fs.bytes ino q) fs' ino := by
  have hok := hwf.1
  have hg := hok.geometry
  have hbs := hg.blockSize_ge
  have hcov := fileFrags_covers hg (show x + n - 1 < fs.img.sb.blockSize by omega)
    (show k * fs.img.sb.blockSize + (x + n - 1) < ino.size by omega)
  have hw := blockWritten hok.toFileTree hne
    (by rw [lenAt_fileFrags (by omega)]; omega) h
  have hok' := hw.ok hok
  refine ⟨⟨by rwa [hw.keeps.img], hwf.2⟩, hw.keeps, rfl, fun q hq => ?_, hw.frame⟩
  rw [hw.byte q (inRun_of_lt hg hq)]
  have hq' := Nat.div_add_mod' q fs.img.sb.blockSize
  have hqm := Nat.mod_lt q (show 0 < fs.img.sb.blockSize by omega)
  by_cases hqk : q / fs.img.sb.blockSize = k
  · rw [hqk] at hq' ⊢
    have hoff : q % fs.img.sb.blockSize - x = q - (k * fs.img.sb.blockSize + x) := by omega
    rw [hoff]
    exact if_congr (by omega) rfl rfl
  · rw [if_neg fun h => hqk h.1, if_neg]
    rintro ⟨h₁, h₂⟩
    refine hqk (Nat.div_eq_of_lt_le (by omega) ?_)
    rw [Nat.succ_mul]
    omega

/-- One turn of the loop of `nextufs__file_write`. -/
theorem writeTurn_ok {inodeNo offset frag : Nat} {data : List UInt8} {fs₁ fs₂ : Fs} {node₁ : Node}
    {u : PUnit} (hwf : FileWf fs ino others) (hlen : 0 < data.length)
    (hend : offset + data.length ≤ ino.size)
    (hblock : blockForWrite ⟨inodeNo, ino⟩ (offset / fs.img.sb.blockSize) fs =
      .ok (node₁, frag) fs₁)
    (hwrite : writeSlice (ofList data)
      (min (fs.img.sb.blockSize - offset % fs.img.sb.blockSize) data.length)
      (fs.fragOffset frag + offset % fs.img.sb.blockSize) fs₁ = .ok u fs₂) :
    node₁.inodeNo = inodeNo ∧ Edited fs ino others (fun q => if offset ≤ q ∧
      q < offset + min (fs.img.sb.blockSize - offset % fs.img.sb.blockSize) data.length
      then ofList data (q - offset) else fs.img.sb.fileByte fs.bytes ino q) fs₂ node₁.inode := by
  have hbs := hwf.1.geometry.blockSize_ge
  have hpos := Nat.div_add_mod' offset fs.img.sb.blockSize
  have hmod := Nat.mod_lt offset (show 0 < fs.img.sb.blockSize by omega)
  obtain ⟨hno, hfrag, hne, hfill⟩ := blockForWrite_ok hwf (by omega) hblock
  have himg := hfill.keeps.img
  have hsize : node₁.inode.size = ino.size := hfill.size
  have hoff : fs.fragOffset = fs₁.fragOffset := by
    funext f
    rw [Fs.fragOffset, Fs.fragOffset, himg]
  have hchunk := chunk_ok (k := offset / fs.img.sb.blockSize) (x := offset % fs.img.sb.blockSize)
    (n := min (fs.img.sb.blockSize - offset % fs.img.sb.blockSize) data.length) hfill.wf
    (by rw [himg, ← hfrag]; exact hne) (by omega) (by rw [himg]; omega)
    (by rw [himg, hsize]; omega) (by rw [himg, ← hfrag, ← hoff]; exact hwrite)
  rw [himg, hpos] at hchunk
  refine ⟨hno, (hfill.trans hchunk).of_byte fun q hq => ?_⟩
  rw [hfill.byte q hq]

/-- The loop of `nextufs__file_write`. -/
theorem writeChunks_ok {inodeNo : Nat} : ∀ {fuel offset : Nat} {data : List UInt8} {fs fs' : Fs}
    {ino : Inode} {node' : Node}, data.length ≤ fuel → offset + data.length ≤ ino.size →
    FileWf fs ino others → writeChunks fuel ⟨inodeNo, ino⟩ data offset fs = .ok node' fs' →
    node'.inodeNo = inodeNo ∧ Edited fs ino others (fun q =>
      if offset ≤ q ∧ q < offset + data.length then ofList data (q - offset)
      else fs.img.sb.fileByte fs.bytes ino q) fs' node'.inode := by
  intro fuel
  induction fuel with
  | zero =>
    intro offset data fs fs' ino node' hfuel hend hwf h
    obtain ⟨rfl, rfl⟩ := pure_ok.mp h
    refine ⟨rfl, hwf, Fs.Keeps.refl fs, rfl, fun q _ => ?_, SameOn.refl _ _ _⟩
    rw [if_neg (by omega)]
  | succ fuel ih =>
    intro offset data fs fs' ino node' hfuel hend hwf h
    rw [writeChunks] at h
    split at h
    case isTrue hnil =>
      subst hnil
      obtain ⟨rfl, rfl⟩ := pure_ok.mp h
      refine ⟨rfl, hwf, Fs.Keeps.refl fs, rfl, fun q _ => ?_, SameOn.refl _ _ _⟩
      rw [if_neg (by simp)]
    case isFalse hne =>
      have hbs := hwf.1.geometry.blockSize_ge
      have hmod := Nat.mod_lt offset (show 0 < fs.img.sb.blockSize by omega)
      have hlen : 0 < data.length := List.length_pos_iff.mpr hne
      simp only [bind_ok, get_ok, Prod.exists] at h
      obtain ⟨_, _, ⟨rfl, rfl⟩, ⟨no₁, ino₁⟩, frag, fs₁, hblock, _, fs₂, hwrite, h⟩ := h
      obtain ⟨rfl, hturn⟩ := writeTurn_ok hwf hlen hend hblock hwrite
      change Edited fs ino others _ fs₂ ino₁ at hturn
      have hsize : ino₁.size = ino.size := hturn.size
      set n := min (fs.img.sb.blockSize - offset % fs.img.sb.blockSize) data.length with hn
      have hdrop : (data.drop n).length = data.length - n := List.length_drop ..
      obtain ⟨hno, hrest⟩ := @ih (offset + n) (data.drop n) _ _ _ _ (by omega)
        (by rw [hsize]; omega) hturn.wf h
      refine ⟨hno, (hturn.trans hrest).of_byte fun q hq => ?_⟩
      rw [hturn.keeps.img, hturn.byte q hq, hdrop]
      have hsplit : offset + n + (data.length - n) = offset + data.length := by omega
      rw [hsplit]
      by_cases hin : offset + n ≤ q ∧ q < offset + data.length
      · rw [if_pos hin, if_pos (by omega), ofList, ofList, List.getD_eq_getElem?_getD,
          List.getD_eq_getElem?_getD, List.getElem?_drop,
          show n + (q - (offset + n)) = q - offset by omega]
      · rw [if_neg hin]
        exact if_congr (by omega) rfl rfl

/-! ## Finishing an inode -/

/-- The maps and the data do not depend on the inode table. -/
theorem FileWf.withInode {t : Nat → Inode} (h : FileWf fs ino others) :
    FileWf { fs with inode := t } ino others := by
  have hs := h.1.sound
  have hc : Fs.Consistent { fs with inode := t } :=
    ⟨hs.consistent.group, hs.consistent.summary, hs.consistent.ndir, hs.consistent.nbfree,
      hs.consistent.nifree, hs.consistent.nffree⟩
  have hs' : Fs.Sound { fs with inode := t } := ⟨hs.valid, hc, hs.fits, hs.inSlice, hs.zero⟩
  exact (FileWf.of_sameOn h hs' rfl (fun _ => rfl) (SameOn.refl _ _ _) h.1.owned).1

/-- The inode the table gets: set-user and set-group bits may be cleared. -/
structure Finished (fs : Fs) (inodeNo : Nat) (ino : Inode) (fs' : Fs) (ino' : Inode) : Prop where
  state : fs' = { fs with inode := Function.update fs.inode inodeNo ino' }
  fields : ino' = { ino with mode := ino'.mode }

theorem finishInode_ok {inodeNo : Nat} {fs' : Fs} {node' : Node}
    (h : finishInode ⟨inodeNo, ino⟩ fs = .ok node' fs') :
    node'.inodeNo = inodeNo ∧ Finished fs inodeNo ino fs' node'.inode := by
  simp only [finishInode, writeInodeRaw, bind_ok, get_ok, check_ok, modify_ok, pure_ok] at h
  obtain ⟨_, _, ⟨rfl, rfl⟩, _, _, ⟨_, _, ⟨rfl, rfl⟩, _, _, ⟨-, rfl⟩, rfl⟩, rfl, rfl⟩ := h
  refine ⟨rfl, rfl, ?_⟩
  dsimp only
  split <;> rfl

/-- A file's tree does not depend on mode and size. -/
theorem FileOk.withSize {size : Nat} {mode : UInt16} (h : FileOk fs ino len keep others) :
    FileOk fs { ino with size := size, mode := mode } len keep others :=
  ⟨⟨h.sound, h.direct, h.slots, h.owned⟩, h.blocks⟩

theorem Finished.wf {inodeNo : Nat} {fs' : Fs} {ino' : Inode} (hwf : FileWf fs ino others)
    (h : Finished fs inodeNo ino fs' ino') : FileWf fs' ino' others := by
  rw [h.state, h.fields]
  exact FileWf.withInode ⟨FileOk.withSize hwf.1, hwf.2⟩

theorem Finished.byte {inodeNo : Nat} {fs' : Fs} {ino' : Inode}
    (h : Finished fs inodeNo ino fs' ino') (sb : Superblock) (q : Nat) :
    sb.fileByte fs'.bytes ino' q = sb.fileByte fs.bytes ino q := by
  rw [h.state, h.fields]
  rfl

/-! ## Calls -/

/-- What a successful call does to a well-formed file: its size, its bytes, and nothing else. -/
structure FileStep (fs : Fs) (node : Node) (others : Multiset Nat) (endpos : Nat)
    (f : Nat → UInt8) (fs' : Fs) (node' : Node) : Prop where
  inodeNo : node'.inodeNo = node.inodeNo
  wf : FileWf fs' node'.inode others
  img : fs'.img = fs.img
  ndblk : ∀ c, (fs'.cg c).ndblk = (fs.cg c).ndblk
  table : ∀ j, j ≠ node.inodeNo → fs'.inode j = fs.inode j
  held : fs.inode node.inodeNo = node.inode → fs'.inode node.inodeNo = node'.inode
  size : node'.inode.size = endpos
  byte : ∀ q < endpos, fs.img.sb.fileByte fs'.bytes node'.inode q = f q
  frame : SameOn fs.img.sb.fragSize others fs.bytes fs'.bytes

theorem FileStep.refl {node : Node} (hwf : FileWf fs node.inode others) :
    FileStep fs node others node.inode.size (fs.img.sb.fileByte fs.bytes node.inode) fs node :=
  ⟨rfl, hwf, rfl, fun _ => rfl, fun _ _ => rfl, id, rfl, fun _ _ => rfl, SameOn.refl _ _ _⟩

theorem FileStep.of_byte {node node' : Node} {size size' : Nat} {f g : Nat → UInt8} {fs' : Fs}
    (h : FileStep fs node others size f fs' node') (hsize : size = size')
    (hfg : ∀ q < size', f q = g q) : FileStep fs node others size' g fs' node' := by
  subst hsize
  exact ⟨h.inodeNo, h.wf, h.img, h.ndblk, h.table, h.held, h.size,
    fun q hq => (h.byte q hq).trans (hfg q hq), h.frame⟩

theorem FileStep.trans {node node₁ node₂ : Node} {size₁ size₂ : Nat} {f g : Nat → UInt8}
    {fs₁ fs₂ : Fs} (h₁ : FileStep fs node others size₁ f fs₁ node₁)
    (h₂ : FileStep fs₁ node₁ others size₂ g fs₂ node₂) :
    FileStep fs node others size₂ g fs₂ node₂ := by
  have hbyte := h₂.byte
  have hframe := h₂.frame
  have htable := h₂.table
  have hheld := h₂.held
  rw [h₁.img] at hbyte hframe
  rw [h₁.inodeNo] at htable hheld
  exact ⟨h₂.inodeNo.trans h₁.inodeNo, h₂.wf, h₂.img.trans h₁.img,
    fun c => (h₂.ndblk c).trans (h₁.ndblk c), fun j hj => (htable j hj).trans (h₁.table j hj),
    fun h => hheld (h₁.held h), h₂.size, hbyte, h₁.frame.trans hframe⟩

/-- Finishing a file whose data was changed. -/
theorem fileStep_of_finished {inodeNo : Nat} {ino₁ : Inode} {fs₁ fs₂ : Fs} {node₂ : Node}
    {f : Nat → UInt8} (hwf : FileWf fs₁ ino₁ others) (hk : fs.Keeps fs₁)
    (hbyte : ∀ q < ino₁.size, fs.img.sb.fileByte fs₁.bytes ino₁ q = f q)
    (hframe : SameOn fs.img.sb.fragSize others fs.bytes fs₁.bytes)
    (hno : node₂.inodeNo = inodeNo) (h : Finished fs₁ inodeNo ino₁ fs₂ node₂.inode) :
    FileStep fs ⟨inodeNo, ino⟩ others ino₁.size f fs₂ node₂ := by
  have hstate := h.state
  refine ⟨hno, h.wf hwf, by rw [hstate]; exact hk.img, fun c => by rw [hstate]; exact hk.ndblk c,
    fun j hj => ?_, fun _ => ?_, by rw [h.fields], fun q hq => ?_, by rwa [hstate]⟩
  · rw [hstate, ← hk.inode]
    exact Function.update_of_ne hj ..
  · rw [hstate]
    exact Function.update_self ..
  · rw [h.byte]
    exact hbyte q hq

/-- `nextufs__file_resize`. -/
theorem fileResize_ok {inodeNo size : Nat} {fs' : Fs} {node' : Node} (hwf : FileWf fs ino others)
    (h : fileResize ⟨inodeNo, ino⟩ size fs = .ok node' fs') :
    FileStep fs ⟨inodeNo, ino⟩ others size
      (fun q => if q < ino.size then fs.img.sb.fileByte fs.bytes ino q else 0) fs' node' := by
  simp only [fileResize, sizeValid, bind_ok, check_ok] at h
  obtain ⟨_, _, ⟨hle, rfl⟩, h⟩ := h
  split at h
  case isTrue heq =>
    obtain ⟨rfl, rfl⟩ := pure_ok.mp h
    exact (FileStep.refl hwf).of_byte heq.symm fun q hq => (if_pos (by rwa [← heq])).symm
  case isFalse hne =>
    simp only [bind_ok] at h
    obtain ⟨⟨no₁, ino₁⟩, fs₁, hchange, hfinish⟩ := h
    obtain ⟨rfl, hres⟩ := changeSize_ok hwf hne hchange
    obtain ⟨hno, hfin⟩ := finishInode_ok hfinish
    refine fileStep_of_finished ⟨?_, hle⟩ hres.keeps hres.byte hres.frame hno hfin
    rw [hres.keeps.img]
    exact FileOk.withSize hres.ok

/-- `nextufs__file_write`. -/
theorem fileWrite_ok {inodeNo offset : Nat} {data : List UInt8} {fs' : Fs} {node' : Node}
    (hwf : FileWf fs ino others)
    (h : fileWrite ⟨inodeNo, ino⟩ data offset fs = .ok node' fs') (hne : data ≠ []) :
    FileStep fs ⟨inodeNo, ino⟩ others (max ino.size (offset + data.length))
      (fun q => if offset ≤ q ∧ q < offset + data.length then ofList data (q - offset)
        else if q < ino.size then fs.img.sb.fileByte fs.bytes ino q else 0) fs' node' := by
  rw [fileWrite, if_neg hne] at h
  simp only [sizeValid, bind_ok, check_ok] at h
  obtain ⟨_, _, ⟨-, rfl⟩, _, _, ⟨hle, rfl⟩, ⟨no₁, ino₁⟩, fs₁, hgrow, ⟨no₂, ino₂⟩, fs₂, hchunks,
    hfinish⟩ := h
  have hstep₁ : FileStep fs ⟨inodeNo, ino⟩ others (max ino.size (offset + data.length))
      (fun q => if q < ino.size then fs.img.sb.fileByte fs.bytes ino q else 0) fs₁
      ⟨no₁, ino₁⟩ := by
    unfold growForWrite at hgrow
    split at hgrow
    case isTrue hgt =>
      have hmax : max ino.size (offset + data.length) = offset + data.length :=
        Nat.max_eq_right (Nat.le_of_lt hgt)
      rw [hmax]
      exact fileResize_ok hwf hgrow
    case isFalse hge =>
      obtain ⟨hnode, rfl⟩ := pure_ok.mp hgrow
      rw [← hnode]
      have hmax : ino.size = max ino.size (offset + data.length) :=
        (Nat.max_eq_left (Nat.le_of_not_gt hge)).symm
      exact (FileStep.refl hwf).of_byte hmax fun q hq => (if_pos (by omega)).symm
  have hno₁ : no₁ = inodeNo := hstep₁.inodeNo
  have hsize₁ : ino₁.size = max ino.size (offset + data.length) := hstep₁.size
  subst hno₁
  have hend : offset + data.length ≤ ino₁.size := by
    rw [hsize₁]
    exact Nat.le_max_right ..
  obtain ⟨hno₂, hedit⟩ := writeChunks_ok le_rfl hend hstep₁.wf hchunks
  change no₂ = no₁ at hno₂
  change Edited fs₁ ino₁ others _ fs₂ ino₂ at hedit
  obtain ⟨hno, hfin⟩ := finishInode_ok hfinish
  have hsize₂ : ino₂.size = ino₁.size := hedit.size
  have hbyte := hedit.byte
  rw [← hsize₂] at hbyte
  rw [hno₂] at hno hfin
  have hstep₂ : FileStep fs₁ ⟨no₁, ino₁⟩ others ino₂.size _ fs' node' :=
    fileStep_of_finished hedit.wf hedit.keeps hbyte hedit.frame hno hfin
  refine (hstep₁.trans hstep₂).of_byte (hsize₂.trans hsize₁) fun q hq => ?_
  refine if_congr Iff.rfl rfl ?_
  rw [hstep₁.img]
  exact hstep₁.byte q hq

end

/-! ## Contents -/

/-- A list of bytes cut off or padded with zeros. -/
def setLength (n : Nat) (c : List UInt8) : List UInt8 :=
  c.take n ++ List.replicate (n - c.length) 0

@[simp] theorem length_setLength (n : Nat) (c : List UInt8) : (setLength n c).length = n := by
  simp only [setLength, List.length_append, List.length_take, List.length_replicate]
  omega

theorem getElem_setLength {n q : Nat} {c : List UInt8} (h : q < (setLength n c).length) :
    (setLength n c)[q] = c.getD q 0 := by
  rw [length_setLength] at h
  simp only [setLength, List.getElem_append, List.length_take, List.getElem_take,
    List.getElem_replicate]
  split
  case isTrue hlt => exact (List.getD_eq_getElem _ _ (by omega)).symm
  case isFalse hge => exact (List.getD_eq_default _ _ (by omega)).symm

/-- A list of bytes with others written over it at an offset. -/
def overlay (offset : Nat) (data c : List UInt8) : List UInt8 :=
  setLength offset c ++ data ++ c.drop (offset + data.length)

@[simp] theorem length_overlay (offset : Nat) (data c : List UInt8) :
    (overlay offset data c).length = max c.length (offset + data.length) := by
  simp only [overlay, List.length_append, length_setLength, List.length_drop]
  omega

theorem getElem_overlay {offset q : Nat} {data c : List UInt8}
    (h : q < (overlay offset data c).length) : (overlay offset data c)[q] =
      if offset ≤ q ∧ q < offset + data.length then ofList data (q - offset) else c.getD q 0 := by
  rw [length_overlay] at h
  simp only [overlay]
  rw [List.getElem_append]
  split
  case isTrue hlt =>
    rw [List.length_append, length_setLength] at hlt
    rw [List.getElem_append]
    split
    case isTrue hlt' =>
      rw [length_setLength] at hlt'
      rw [getElem_setLength, if_neg (by omega)]
    case isFalse hge' =>
      rw [length_setLength] at hge'
      simp only [length_setLength]
      rw [if_pos (by omega), ofList, List.getD_eq_getElem]
  case isFalse hge =>
    rw [List.length_append, length_setLength] at hge
    simp only [List.length_append, length_setLength, List.getElem_drop]
    rw [if_neg (by omega), List.getD_eq_getElem _ _ (by omega)]
    congr 1
    omega

/-! ## Runs of calls -/

/-- A call on a file. -/
inductive FileCall where
  | resize (size : Nat)
  | write (data : List UInt8) (offset : Nat)

def FileCall.run : FileCall → Node → FsM Node
  | .resize size, node => fileResize node size
  | .write data offset, node => fileWrite node data offset

/-- One call after the other, the first failure ending the run. -/
def FileCall.runAll : List FileCall → Node → FsM Node
  | [], node => pure node
  | call :: calls, node => do
    let node ← call.run node
    runAll calls node

/-- What a call is to do to the bytes of a file. -/
def FileCall.apply : FileCall → List UInt8 → List UInt8
  | .resize size, c => setLength size c
  | .write data offset, c => if data = [] then c else overlay offset data c

def FileCall.applyAll (calls : List FileCall) (c : List UInt8) : List UInt8 :=
  calls.foldl (fun c call => call.apply c) c

/-- What successful calls do to a well-formed file: its content is `c` afterwards, and nothing of
the other owners has changed. -/
structure FileRun (fs : Fs) (node : Node) (others : Multiset Nat) (c : List UInt8) (fs' : Fs)
    (node' : Node) : Prop where
  inodeNo : node'.inodeNo = node.inodeNo
  wf : FileWf fs' node'.inode others
  img : fs'.img = fs.img
  ndblk : ∀ c, (fs'.cg c).ndblk = (fs.cg c).ndblk
  table : ∀ j, j ≠ node.inodeNo → fs'.inode j = fs.inode j
  held : fs.inode node.inodeNo = node.inode → fs'.inode node.inodeNo = node'.inode
  content : fs.img.sb.content fs'.bytes node'.inode = c
  frame : SameOn fs.img.sb.fragSize others fs.bytes fs'.bytes

theorem FileRun.refl {fs : Fs} {node : Node} {others : Multiset Nat}
    (hwf : FileWf fs node.inode others) :
    FileRun fs node others (fs.img.sb.content fs.bytes node.inode) fs node :=
  ⟨rfl, hwf, rfl, fun _ => rfl, fun _ _ => rfl, id, rfl, SameOn.refl _ _ _⟩

theorem FileRun.trans {fs fs₁ fs₂ : Fs} {node node₁ node₂ : Node} {others : Multiset Nat}
    {c₁ c₂ : List UInt8} (h₁ : FileRun fs node others c₁ fs₁ node₁)
    (h₂ : FileRun fs₁ node₁ others c₂ fs₂ node₂) : FileRun fs node others c₂ fs₂ node₂ := by
  have hcontent := h₂.content
  have hframe := h₂.frame
  have htable := h₂.table
  have hheld := h₂.held
  rw [h₁.img] at hcontent hframe
  rw [h₁.inodeNo] at htable hheld
  exact ⟨h₂.inodeNo.trans h₁.inodeNo, h₂.wf, h₂.img.trans h₁.img,
    fun c => (h₂.ndblk c).trans (h₁.ndblk c), fun j hj => (htable j hj).trans (h₁.table j hj),
    fun h => hheld (h₁.held h), hcontent, h₁.frame.trans hframe⟩

/-- A step's bytes, as a list. -/
theorem FileStep.fileRun {fs fs' : Fs} {node node' : Node} {others : Multiset Nat} {endpos : Nat}
    {f : Nat → UInt8} {d : List UInt8} (h : FileStep fs node others endpos f fs' node')
    (hlen : d.length = endpos) (hd : ∀ q, (hq : q < d.length) → f q = d[q]) :
    FileRun fs node others d fs' node' := by
  refine ⟨h.inodeNo, h.wf, h.img, h.ndblk, h.table, h.held, ?_, h.frame⟩
  refine List.ext_getElem (by rw [Superblock.length_content, h.size, hlen]) fun q h₁ h₂ => ?_
  rw [← hd q h₂, ← h.byte q (by rwa [← hlen])]
  simp [Superblock.content, Superblock.fileBytes]

/-- One call. -/
theorem FileCall.run_ok {fs fs' : Fs} {node node' : Node} {others : Multiset Nat}
    {call : FileCall} (hwf : FileWf fs node.inode others) (h : call.run node fs = .ok node' fs') :
    FileRun fs node others (call.apply (fs.img.sb.content fs.bytes node.inode)) fs' node' := by
  cases call with
  | resize size =>
    exact (fileResize_ok hwf h).fileRun (length_setLength ..) fun q hq =>
      ((getElem_setLength hq).trans (Superblock.getD_content ..)).symm
  | write data offset =>
    change fileWrite node data offset fs = _ at h
    rw [FileCall.apply]
    split
    case isTrue hnil =>
      rw [fileWrite, if_pos hnil] at h
      obtain ⟨rfl, rfl⟩ := pure_ok.mp h
      exact FileRun.refl hwf
    case isFalse hne =>
      refine (fileWrite_ok hwf h hne).fileRun ?_ fun q hq => ?_
      · rw [length_overlay, Superblock.length_content]
      · rw [getElem_overlay, Superblock.getD_content]

/-- A run of calls; the induction is on the calls. -/
theorem FileCall.runAll_ok {others : Multiset Nat} : ∀ {calls : List FileCall} {fs fs' : Fs}
    {node node' : Node}, FileWf fs node.inode others → runAll calls node fs = .ok node' fs' →
    FileRun fs node others (applyAll calls (fs.img.sb.content fs.bytes node.inode)) fs' node' := by
  intro calls
  induction calls with
  | nil =>
    intro fs fs' node node' hwf h
    obtain ⟨rfl, rfl⟩ := pure_ok.mp h
    exact FileRun.refl hwf
  | cons call calls ih =>
    intro fs fs' node node' hwf h
    rw [runAll] at h
    obtain ⟨node₁, fs₁, hcall, hcalls⟩ := bind_ok.mp h
    have hrun := FileCall.run_ok hwf hcall
    have hrest := ih hrun.wf hcalls
    rw [hrun.img, hrun.content] at hrest
    exact hrun.trans hrest

/-- The fragments a file owns. -/
def Fs.fileFragments (fs : Fs) (ino : Inode) : Multiset Nat :=
  fs.img.sb.fileOwn fs.bytes ino (fileFrags fs.img.sb ino.size)

/-- Another file, whose fragments are among the others', is as it was. -/
theorem FileRun.other {fs fs' : Fs} {node node' : Node} {others rest : Multiset Nat}
    {c : List UInt8} {ino₂ : Inode} (h : FileRun fs node others c fs' node')
    (hrest : Fs.fileFragments fs ino₂ + rest = others)
    (hwf₂ : FileWf fs ino₂ (Fs.fileFragments fs node.inode + rest)) :
    FileWf fs' ino₂ (Fs.fileFragments fs' node'.inode + rest) ∧
      fs.img.sb.content fs'.bytes ino₂ = fs.img.sb.content fs.bytes ino₂ := by
  refine FileWf.of_sameOn hwf₂ h.wf.1.sound h.img h.ndblk (h.frame.mono ?_) ?_
  · rw [← hrest]
    exact Multiset.le_add_right _ _
  · rw [← h.wf.1.owned, ← hrest]
    change Fs.fileFragments fs ino₂ + (Fs.fileFragments fs' node'.inode + rest) =
      Fs.fileFragments fs' node'.inode + (Fs.fileFragments fs ino₂ + rest)
    abel

/-- What a run of successful calls leaves behind, from a file that read as `c₀`. -/
structure FileServed (fs : Fs) (node : Node) (others : Multiset Nat) (calls : List FileCall)
    (fs' : Fs) (node' : Node) : Prop where
  inodeNo : node'.inodeNo = node.inodeNo
  /-- The table holds the file's inode, if it did before. -/
  held : fs.inode node.inodeNo = node.inode → fs'.inode node.inodeNo = node'.inode
  /-- Reading the whole file returns what the calls make of what it returned before. -/
  read : ∃ c₀, inodeReadData node.inode 0 node.inode.size fs = .ok c₀ fs ∧
    inodeReadData node'.inode 0 node'.inode.size fs' = .ok (FileCall.applyAll calls c₀) fs'
  /-- The tree is well formed. -/
  wf : FileWf fs' node'.inode others
  /-- The fragments in use are the file's and the others', none of them owned twice. -/
  used : fs'.used = Fs.fileFragments fs' node'.inode + others
  nodup : (Fs.fileFragments fs' node'.inode + others).Nodup
  blocks : node'.inode.blocks.toNat =
    (Fs.fileFragments fs' node'.inode).card * fs'.img.sb.sectorsPerFrag
  /-- The other inodes are unchanged. -/
  table : ∀ j, j ≠ node.inodeNo → fs'.inode j = fs.inode j
  /-- Every other file is well formed as before and reads as before. -/
  files : ∀ ino₂ rest, Fs.fileFragments fs ino₂ + rest = others →
    FileWf fs ino₂ (Fs.fileFragments fs node.inode + rest) →
    FileWf fs' ino₂ (Fs.fileFragments fs' node'.inode + rest) ∧
      ∃ c₂, inodeReadData ino₂ 0 ino₂.size fs = .ok c₂ fs ∧
        inodeReadData ino₂ 0 ino₂.size fs' = .ok c₂ fs'

/-- Resizing and writing a file: after every successful run of calls. -/
theorem file_runs {fs fs' : Fs} {node node' : Node} {others : Multiset Nat}
    {calls : List FileCall} (hwf : FileWf fs node.inode others)
    (h : FileCall.runAll calls node fs = .ok node' fs') :
    FileServed fs node others calls fs' node' := by
  have hrun := FileCall.runAll_ok hwf h
  have hused : fs'.used = Fs.fileFragments fs' node'.inode + others := hrun.wf.1.owned.symm
  refine
    { inodeNo := hrun.inodeNo
      held := hrun.held
      read := ⟨_, FileWf.read hwf, ?_⟩
      wf := hrun.wf
      used := hused
      nodup := hused ▸ fs'.used_nodup
      blocks := hrun.wf.1.blocks
      table := hrun.table
      files := fun ino₂ rest hrest hwf₂ => ?_ }
  · rw [FileWf.read hrun.wf, hrun.img, hrun.content]
  · obtain ⟨hwf', hcontent⟩ := hrun.other hrest hwf₂
    refine ⟨hwf', _, FileWf.read hwf₂, ?_⟩
    rw [FileWf.read hwf', hrun.img, hcontent]

/-- A file that is all holes; everything in use belongs to others. -/
theorem FileWf.of_holes {fs : Fs} {ino : Inode} (hs : fs.Sound) (hdb : ∀ k, ino.db k = 0)
    (hib : ∀ s, ino.ib s = 0) (hblocks : ino.blocks = 0) (hsize : ino.size ≤ INT32_MAX) :
    FileWf fs ino fs.used := by
  have hslots : ∀ s, fs.img.sb.slotTree fs.bytes ino s = .hole := by
    intro s
    rw [Superblock.slotTree, hib]
    exact BlockTree.load_null ..
  have hown : ∀ len, fs.img.sb.fileOwn fs.bytes ino len = 0 := by
    intro len
    simp only [Superblock.fileOwn, hslots, hdb, extent_null, Finset.sum_const_zero, zero_add]
    exact Finset.sum_const_zero
  refine ⟨⟨⟨hs, fun k _ hne => absurd (hdb k) hne, fun s _ => ?_, ?_⟩, ?_⟩, hsize⟩
  · rw [hslots]
    trivial
  · rw [hown, zero_add]
  · rw [hown, hblocks, Multiset.card_zero, Nat.zero_mul]
    rfl

theorem oneGroupFs_sound : oneGroupFs.Sound :=
  ⟨by decide +kernel, oneGroupFs_consistent, by decide, by decide, by decide⟩

/-- The empty file of the small filesystem. -/
theorem oneGroupFs_file : FileWf oneGroupFs (oneGroupFs.inode 3) oneGroupFs.used :=
  .of_holes oneGroupFs_sound (fun _ => rfl) (fun _ => rfl) rfl (Nat.zero_le _)

/-- Three bytes written behind the end of an empty file, the last of them cut off. -/
theorem file_runs_write :
    ∃ node' fs', FileCall.runAll [.write [7, 8, 9] 2, .resize 4] ⟨3, oneGroupFs.inode 3⟩
        oneGroupFs = .ok node' fs' ∧
      FileServed oneGroupFs ⟨3, oneGroupFs.inode 3⟩ oneGroupFs.used
        [.write [7, 8, 9] 2, .resize 4] fs' node' := by
  obtain ⟨node', fs', h⟩ := exists_of_finishes (show finishes (FileCall.runAll
    [.write [7, 8, 9] 2, .resize 4] ⟨3, oneGroupFs.inode 3⟩ oneGroupFs) = true by decide +kernel)
  exact ⟨node', fs', h, file_runs oneGroupFs_file h⟩

end NextUfs.Mutate
