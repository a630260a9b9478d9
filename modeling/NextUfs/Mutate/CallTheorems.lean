/-
NextUfs.Mutate.CallTheorems — what single calls leave behind.

* `pathCreateFile_reads` and `pathSymlink_readlink`: what was stored is what is
  read, wherever it was put, and the call that gives the inode back again leaves
  the volume as it was but for the directories (`Unmade`). Where no entry names
  a free inode there is one such directory (`pathSymlink_unlinked`).
* `runCalls_accounts`: what `InOrder` means for the fragments and the counters
  of the superblock, after any calls.
* `nodeLookupAs_split`: a path is looked up as its parent is, and then its name.
-/
import NextUfs.Mutate.RunTheorems

namespace NextUfs.Mutate

open NextUfs.Core NextUfs.Lib NextUfs.Lib.ByteStore NextUfs.Lib.StateResult NextUfs.Lib.Extents

/-! ## Reading what was stored -/

section
variable {fs : Fs} {ino : Inode} {others : Multiset Nat}

theorem length_content (sb : Superblock) (b : ByteStore) (ino : Inode) :
    (sb.content b ino).length = ino.size := by
  rw [Superblock.content, Superblock.fileBytes, List.length_map, List.length_range]

/-- A part of a file's content. -/
theorem fileBytes_part (start n : Nat) :
    fs.img.sb.fileBytes fs.bytes ino start (min (ino.size - start) n) =
      ((fs.img.sb.content fs.bytes ino).drop start).take n := by
  refine List.ext_getElem ?_ fun i h₁ h₂ => ?_
  · rw [List.length_take, List.length_drop, length_content, Superblock.fileBytes, List.length_map,
      List.length_range, Nat.min_comm]
  · simp [Superblock.content, Superblock.fileBytes]

/-- A well-formed file is read, whatever part of it is asked for. -/
theorem FileWf.read_part (h : FileWf fs ino others) (start n : Nat) :
    inodeReadData ino start n fs =
      .ok (((fs.img.sb.content fs.bytes ino).drop start).take n) fs := by
  have hread := FileWf.readable h
  obtain ⟨keep, hslots⟩ := hread.slots
  rw [inodeReadData_eq hread.sound hslots hread.fits hread.reach, fileBytes_part]

/-- A link is read whole when there is room for it. -/
theorem inodeReadlink_whole {n : Nat} (hlnk : ino.isLnk) (hs : fs.Sound)
    (hread : ¬ ino.isFast → ino.size ≠ 0 → fs.Readable ino) (hn : (fs.linkTarget ino).length ≤ n) :
    inodeReadlink ino (n + 1) fs = .ok (fs.linkTarget ino) fs := by
  have hrun : inodeReadlink ino (n + 1) fs = (if decodeInlineSymlink ino (n + 1) ≠ [] then
      pure (decodeInlineSymlink ino (n + 1)) else
        failAs Errno.EIO (inodeReadData ino 0 (n + 1 - 1)) : FsM (List UInt8)) fs := by
    rw [inodeReadlink, check, if_pos ⟨hlnk, Nat.succ_ne_zero n⟩]
    rfl
  by_cases hsome : ino.size = 0
  · have hnil : decodeInlineSymlink ino (n + 1) = [] := by
      rw [decodeInlineSymlink, if_pos (.inr (.inr (.inl hsome)))]
    have htarget : fs.linkTarget ino = [] := by
      refine List.length_eq_zero_iff.mp ?_
      rw [Fs.linkTarget, if_neg fun hfast => hfast.2.1 hsome, length_content, hsome]
    rw [hrun, if_neg (not_not.mpr hnil), htarget]
    refine failAs_ok.mpr ?_
    rw [inodeReadData]
    exact bind_ok.mpr ⟨fs, fs, rfl, bind_ok.mpr ⟨⟨⟩, fs, check_ok.mpr ⟨hs.valid, rfl⟩, by
      rw [if_pos (by omega)]
      rfl⟩⟩
  have hout : ∃ out, inodeReadlink ino (n + 1) fs = .ok out fs := by
    rw [hrun]
    split
    case isTrue => exact ⟨_, rfl⟩
    case isFalse hgot =>
      have hslow : ¬ ino.isFast := by
        rintro ⟨hflag, hzero, hle⟩
        rw [Fs.linkTarget, if_pos ⟨hflag, hzero, hle⟩, List.length_take, length_inlineRaw] at hn
        rw [not_not, decodeInlineSymlink, if_neg (by simp [hlnk, hflag, hzero, hle]),
          if_neg (by omega)] at hgot
        have hlen := congrArg List.length hgot
        rw [List.length_take, length_inlineRaw, List.length_nil] at hlen
        omega
      obtain ⟨keep, hslots⟩ := (hread hslow hsome).slots
      exact ⟨_, failAs_ok.mpr (inodeReadData_eq hs hslots (hread hslow hsome).fits
        (hread hslow hsome).reach 0 (n + 1 - 1))⟩
  obtain ⟨out, hout⟩ := hout
  obtain ⟨-, rfl⟩ := inodeReadlink_ok (fun hslow => hread hslow hsome) hout
  rw [hout, List.take_of_length_le hn]

end

section
variable {α : Type} {cb : Nat → List UInt8 → α → α × Bool} {fs fs' : Fs} {ino : Inode}

/-- A directory in two filesystems that hold the same of it is gone through in the same way. -/
theorem iterateChunks_same (h : fs.Readable ino) (h' : fs'.Readable ino)
    (hsb : fs'.img.sb = fs.img.sb)
    (hsame : fs.img.sb.content fs'.bytes ino = fs.img.sb.content fs.bytes ino) {r : α × Bool}
    {s : Fs} : ∀ {fuel remaining k : Nat} {a : α},
      (remaining ≠ 0 → k * fs.img.sb.blockSize + remaining ≤ ino.size) →
      iterateChunks cb ino fuel remaining k a fs' = .ok r s →
      iterateChunks cb ino fuel remaining k a fs = .ok r fs := by
  intro fuel
  induction fuel with
  | zero =>
    intro remaining k a _ hok
    rw [iterateChunks] at hok ⊢
    exact pure_ok.mpr ⟨(pure_ok.mp hok).1, rfl⟩
  | succ fuel ih =>
    intro remaining k a hend hok
    rw [iterateChunks] at hok ⊢
    by_cases hrem : remaining = 0
    · rw [if_pos hrem] at hok ⊢
      exact pure_ok.mpr ⟨(pure_ok.mp hok).1, rfl⟩
    rw [if_neg hrem] at hok ⊢
    have hend := hend hrem
    obtain ⟨n, hn⟩ : ∃ n, n = min remaining fs.img.sb.blockSize := ⟨_, rfl⟩
    have hle : k * fs.img.sb.blockSize + n ≤ ino.size := by omega
    have hpart : fs.img.sb.fileBytes fs'.bytes ino (k * fs.img.sb.blockSize) n =
        fs.img.sb.fileBytes fs.bytes ino (k * fs.img.sb.blockSize) n := by
      have hlen : min (ino.size - k * fs.img.sb.blockSize) n = n := by omega
      have hnew := @fileBytes_part fs' ino (k * fs.img.sb.blockSize) n
      have hold := @fileBytes_part fs ino (k * fs.img.sb.blockSize) n
      rw [hlen] at hnew hold
      rw [hsb, hsame] at hnew
      exact hnew.trans hold.symm
    have hnew := readChunk_eq h' hle
    rw [hsb, hpart] at hnew
    simp only [bind_ok, get_ok] at hok
    obtain ⟨_, _, ⟨rfl, rfl⟩, buf, _, hread, hok⟩ := hok
    rw [hsb, ← hn] at hread hok
    rw [hnew] at hread
    cases hread
    rw [bind_of_ok (get_ok.mpr ⟨rfl, rfl⟩), ← hn, bind_of_ok (readChunk_eq h hle)]
    cases hrec : iterateRecords cb (ofList (fs.img.sb.fileBytes fs.bytes ino
        (k * fs.img.sb.blockSize) n)) n n 0 a with
    | none =>
      rw [hrec] at hok
      exact (throw_ok.mp hok).elim
    | some p =>
      obtain ⟨b, stop⟩ := p
      rw [hrec] at hok
      cases stop with
      | true => exact pure_ok.mpr ⟨(pure_ok.mp hok).1, rfl⟩
      | false =>
        refine ih (fun hne => ?_) hok
        rw [Nat.add_mul, Nat.one_mul]
        omega

theorem findNameInDirectory_same {name : List UInt8} {j : Nat} {s : Fs} (h : fs.Readable ino)
    (h' : fs'.Readable ino) (hsb : fs'.img.sb = fs.img.sb)
    (hsame : fs.img.sb.content fs'.bytes ino = fs.img.sb.content fs.bytes ino)
    (hfind : findNameInDirectory ino name fs' = .ok j s) :
    findNameInDirectory ino name fs = .ok j fs := by
  simp only [findNameInDirectory, bind_ok, pure_ok, Prod.exists] at hfind ⊢
  obtain ⟨i, b, _, hiter, rfl, rfl⟩ := hfind
  refine ⟨i, b, fs, iterateChunks_same h h' hsb hsame (fun _ => ?_) hiter, rfl, rfl⟩
  rw [Nat.zero_mul, Nat.zero_add]

end

/-! ## Making an inode and giving it back -/

section
variable {base : Multiset Nat} {v v' v'' : Volume} {ctx ctx' : WriteCtx} {no parent : Nat}
  {path path' data target : List UInt8}

/-- A free inode owns nothing. -/
theorem InOrder.share_unused (h : InOrder base v) (hno : v.inodeUsed no = false) :
    share v.fs no = 0 :=
  if_neg fun hb => not_hasBlocks_of_type (h.blank no hb.1 hno) hb.2

/-- As many inodes are free where the same are. -/
theorem nifree_eq (h : InOrder base v) (h' : InOrder base v') (himg : v'.fs.img = v.fs.img)
    (hused : ∀ j, v'.inodeUsed j = v.inodeUsed j) : v'.fs.totals.nifree = v.fs.totals.nifree := by
  refine UInt32.toNat_inj.mp ?_
  rw [h.agree.total_nifree, h'.agree.total_nifree, Fs.sumWord, Fs.sumWord, himg]
  refine Finset.sum_congr rfl fun c hc => ?_
  have hc := Finset.mem_range.mp hc
  have hc' : c < v'.fs.img.sb.cgCount := by rwa [himg]
  rw [(h.agree.summary c hc).1, (h'.agree.summary c hc').1, h.agree.nifree c hc,
    h'.agree.nifree c hc', himg]
  refine Runs.count_congr fun i hi => ?_
  have hbit := hused (c * v.fs.img.sb.inodesPerGroup + i)
  rw [Volume.inodeUsed, Volume.inodeUsed, himg, add_mul_div hi, add_mul_mod hi] at hbit
  rw [hbit]

/-- The owners of the storage but for two directories. -/
theorem Accounts.balance {fs fs' : Fs} {S : Finset Nat} (h : Accounts base fs) (h' : Accounts base fs')
    (himg : fs'.img = fs.img) (howned : ∀ j ∉ S, share fs' j = share fs j) :
    fs'.used + ∑ j ∈ S, share fs j = fs.used + ∑ j ∈ S, share fs' j := by
  have hcount : fs'.inodeCount = fs.inodeCount := by rw [Fs.inodeCount, Fs.inodeCount, himg]
  have hsplit : ∀ g : Fs, g.inodeCount = fs.inodeCount → shares g =
      ∑ j ∈ (Finset.range fs.inodeCount ∪ S) \ S, share g j + ∑ j ∈ S, share g j := by
    intro g hg
    rw [Finset.sum_sdiff Finset.subset_union_right, shares, hg]
    refine Finset.sum_subset Finset.subset_union_left fun j _ hj => ?_
    rw [Finset.mem_range] at hj
    exact if_neg fun hb => hj (hg ▸ hb.1)
  have hrest : ∑ j ∈ (Finset.range fs.inodeCount ∪ S) \ S, share fs' j =
      ∑ j ∈ (Finset.range fs.inodeCount ∪ S) \ S, share fs j :=
    Finset.sum_congr rfl fun j hj => howned j (Finset.mem_sdiff.mp hj).2
  rw [h.used, h'.used, hsplit fs rfl, hsplit fs' hcount, hrest]
  abel

/-- An unlink that succeeds: what its path leads to, the name that is removed, and what is changed. -/
theorem pathUnlink_turn (h : InOrder base v) (hunlink : pathUnlink ctx path v = (none, v')) :
    ∃ parent t name, Held (Volume.openRw v ctx).fs parent ∧
      nodeLookupAs ctx path false (Volume.openRw v ctx).fs = .ok t (Volume.openRw v ctx).fs ∧
      Names (Volume.openRw v ctx).fs parent name t ∧ ¬ t.inode.isDir ∧ InOrder base v' ∧
      Turn base (fun i => isDirMode (v.fs.inode i).mode) (fun i => isDirMode (v.fs.inode i).mode)
        (if t.inode.nlink - 1 = 0 then .died t.inodeNo else .still) {parent.inodeNo, t.inodeNo} v v' := by
  obtain ⟨a, v₁, hargs, hrun, hv⟩ := mutation_ok hunlink
  obtain ⟨parent, t, hheld, hlook, hnames, hnot, hturn⟩ :=
    unlinkBody_turn (h.forCaller (ctx.user && decide (ctx.uid ≠ 0))) (fun _ _ _ => rfl)
      (entryArgs_ok hargs).1 hrun
  have hclosed := hturn.closed
  rw [← hv] at hclosed
  exact ⟨parent, t, a.2, hheld, hlook, hnames, hnot,
    hclosed.ledger.inOrder (hclosed.typed fun _ _ _ => rfl), hclosed⟩

/-- What became of other inodes when one was unlinked. -/
theorem unlink_change {dir dir' : Nat → Bool} {t : Node}
    (hturn : Turn base dir dir' (if t.inode.nlink - 1 = 0 then .died t.inodeNo else .still)
      {parent, t.inodeNo} v v') : Change {t.inodeNo} {t.inodeNo, parent} v v' := by
  have habout : (if t.inode.nlink - 1 = 0 then Event.died t.inodeNo else .still).about ⊆
      {t.inodeNo} := by
    split
    · exact subset_rfl
    · exact Set.empty_subset _
  exact hturn.kept.change.mono habout (Set.pair_comm _ _).le

/-- An inode was made in one directory and its name removed from another: when it is free again, the
same inodes are in use, and every file but the two directories owns what it did. -/
theorem given_back {p q : Nat} (h : InOrder base v) (h'' : InOrder base v'')
    (hchange : Change {no} {no, p} v v') (hback : Change {no} {no, q} v' v'')
    (hbefore : v.inodeUsed no = false) (hgone : v''.inodeUsed no = false) :
    v''.fs.img = v.fs.img ∧ (∀ j, v''.inodeUsed j = v.inodeUsed j) ∧
      ∀ j, j ≠ p → j ≠ q → share v''.fs j = share v.fs j := by
  refine ⟨hback.beside.img.trans hchange.beside.img, fun j => ?_, fun j hj hj' => ?_⟩
  · by_cases hjn : j = no
    · rw [hjn, hgone, hbefore]
    · exact (hback.used j hjn).trans (hchange.used j hjn)
  · by_cases hjn : j = no
    · rw [hjn, h''.share_unused hgone, h.share_unused hbefore]
    · exact (hback.beside.owned j (by simp [hj', hjn])).trans
        (hchange.beside.owned j (by simp [hj, hjn]))

/-- An inode was made and an unlink gave it back: the same inodes are in use, every file but two
directories owns what it did, and those are directories still. -/
theorem unlink_restores (h : InOrder base v) (h' : InOrder base v')
    (hchange : Change {no} {no, parent} v v') (hne : parent ≠ no) (hdir : (v.fs.inode parent).isDir)
    (hbefore : v.inodeUsed no = false) (hafter : v'.inodeUsed no = true)
    (hunlink : pathUnlink ctx path v' = (none, v'')) (hgone : v''.inodeUsed no = false) :
    InOrder base v'' ∧ v''.fs.img = v.fs.img ∧ (∀ j, v''.inodeUsed j = v.inodeUsed j) ∧
      ∃ parent', (∀ j, j = parent ∨ j = parent' → (v.fs.inode j).isDir ∧ (v''.fs.inode j).isDir) ∧
        ∀ j, j ≠ parent → j ≠ parent' → share v''.fs j = share v.fs j := by
  obtain ⟨parent', t, name, hheld, -, hnames, hnot, h'', hturn⟩ := pathUnlink_turn h' hunlink
  have hback := unlink_change hturn
  have ht : t.inodeNo = no := by
    by_contra hne
    rw [hback.used no (Ne.symm hne), hafter] at hgone
    cases hgone
  rw [ht] at hback
  -- a directory but for the inode that was made stays one through both calls
  have hstays : ∀ j, j ≠ no → ((v''.fs.inode j).isDir ↔ (v.fs.inode j).isDir) := fun j hj =>
    (hback.kind j hj).isDir.trans (hchange.kind j hj).isDir
  have hdir' : (v'.fs.inode parent'.inodeNo).isDir := by
    have hinode : v'.fs.inode parent'.inodeNo = parent'.inode := hheld.inode
    rw [hinode]
    exact hnames.dir
  have hne' : parent'.inodeNo ≠ no := ht ▸ hheld.ne_of_isDir hnames.held hnames.dir hnot
  obtain ⟨himg, hused, hshare⟩ := given_back h h'' hchange hback hbefore hgone
  refine ⟨h'', himg, hused, parent'.inodeNo, fun j hj => ?_, hshare⟩
  rcases hj with rfl | rfl
  · exact ⟨hdir, (hstays _ hne).mpr hdir⟩
  · have hbase := (hchange.kind _ hne').isDir.mp hdir'
    exact ⟨hbase, (hstays _ hne').mpr hbase⟩

end

/-! ## Single calls -/

section
variable {base : Multiset Nat} {v v' : Volume} {ctx : WriteCtx} {path data target : List UInt8}

/-- `parent` is the directory that the caller finds for the entry at `path`. -/
def FindsParent (ctx : WriteCtx) (path : List UInt8) (fs : Fs) (parent : Node) : Prop :=
  ∃ parent_path name, pathSplit path 4096 256 = .ok (parent_path, name) ∧
    nodeLookupAs ctx parent_path true fs = .ok parent fs ∧ parent.inode.isDir ∧ Held fs parent

/-- What a creating call and the unlinking of what it made come to: the same inodes are in use and
free, and the fragments in use differ by what two directories took and gave. -/
def Unmade (v v'' : Volume) : Prop :=
  (∀ j, v''.inodeUsed j = v.inodeUsed j) ∧ v''.fs.totals.nifree = v.fs.totals.nifree ∧
    ∃ S : Finset Nat, S.card ≤ 2 ∧
      (∀ j ∈ S, (v.fs.inode j).isDir ∧ (v''.fs.inode j).isDir) ∧
      (∀ j ∉ S, share v''.fs j = share v.fs j) ∧
      v''.fs.used + ∑ j ∈ S, share v.fs j = v.fs.used + ∑ j ∈ S, share v''.fs j

theorem unmade {v'' : Volume} {no parent : Nat} (h : InOrder base v) (h' : InOrder base v')
    (hchange : Change {no} {no, parent} v v') (hne : parent ≠ no) (hdir : (v.fs.inode parent).isDir)
    (hbefore : v.inodeUsed no = false) (hafter : v'.inodeUsed no = true)
    (hunlink : pathUnlink ctx path v' = (none, v'')) (hgone : v''.inodeUsed no = false) :
    Unmade v v'' := by
  obtain ⟨h'', himg, hused, parent', hdirs, howned⟩ :=
    unlink_restores h h' hchange hne hdir hbefore hafter hunlink hgone
  have hout : ∀ j ∉ ({parent, parent'} : Finset Nat), share v''.fs j = share v.fs j := by
    intro j hj
    rw [Finset.mem_insert, Finset.mem_singleton, not_or] at hj
    exact howned j hj.1 hj.2
  refine ⟨hused, nifree_eq h h'' himg hused, _, Finset.card_le_two, fun j hj => hdirs j ?_, hout,
    h.accounts.balance h''.accounts himg hout⟩
  rwa [Finset.mem_insert, Finset.mem_singleton] at hj

/-- `nextufs_path_create_file`: the new inode holds the data, every other file is as it was but for
the directory the path leads to, and an unlink that gives the inode back gives back what the call
took. -/
theorem pathCreateFile_reads (h : InOrder base v)
    (hok : pathCreateFile ctx path data v = (none, v')) :
    ∃ no parent, FindsParent ctx path (Volume.openRw v ctx).fs parent ∧ parent.inodeNo ≠ no ∧
      v.inodeUsed no = false ∧ v'.inodeUsed no = true ∧ Change {no} {no, parent.inodeNo} v v' ∧
      (v'.fs.inode no).isReg ∧ (∀ start n, inodeReadData (v'.fs.inode no) start n v'.fs =
        .ok ((data.drop start).take n) v'.fs) ∧
      ∀ ctx' path' v'', pathUnlink ctx' path' v' = (none, v'') → v''.inodeUsed no = false →
        Unmade v v'' := by
  obtain ⟨a, v₁, hargs, hrun, hv⟩ := mutation_ok hok
  obtain ⟨parent, _, no, ino, _, hp, hmade, hreg, hcontent⟩ :=
    createFileBody_made (h.forCaller (ctx.user && decide (ctx.uid ≠ 0))) hrun
  have hturn := hmade.turn.closed
  have hinode : v'.fs.inode no = ino := by
    rw [hv]
    exact hmade.inode
  have hdata : v'.fs.img.sb.content v'.fs.bytes ino = data := by
    rw [hv, ← hcontent, hmade.turn.beside.img]
    rfl
  rw [← hv] at hturn
  have h' := hturn.ledger.inOrder (hturn.typed fun _ _ _ => rfl)
  obtain ⟨hlt, hbefore, hafter, -⟩ := hturn.born no rfl
  have hchange := hturn.kept.change
  have hdir : (v.fs.inode parent.inodeNo).isDir := by
    have hheld : v.fs.inode parent.inodeNo = parent.inode := hp.held.inode
    rw [hheld]
    exact hp.dir rfl
  refine ⟨no, parent, ⟨a.1, a.2, (entryArgs_ok hargs).1, hp.lookup, hp.dir rfl, hp.held⟩, hmade.ne,
    hbefore, hafter, hchange, hinode ▸ hreg, fun start n => ?_, fun ctx' path' v'' hunlink hgone =>
      unmade h h' hchange hmade.ne hdir hbefore hafter hunlink hgone⟩
  have hwf := h'.accounts.file no (hchange.beside.inodeCount ▸ hlt) (hinode ▸ .inl hreg)
  rw [FileWf.read_part hwf, hinode, hdata]

/-- A directory the caller finds is one in the volume. -/
theorem FindsParent.isDir {parent : Node} (h : FindsParent ctx path (Volume.openRw v ctx).fs parent) :
    (v.fs.inode parent.inodeNo).isDir := by
  obtain ⟨_, _, -, -, hdir, hheld⟩ := h
  have hinode : v.fs.inode parent.inodeNo = parent.inode := hheld.inode
  rwa [hinode]

/-- A symbolic link with one name that says the target. -/
structure LinkMade (target : List UInt8) (fs : Fs) (ino : Inode) : Prop where
  isLnk : ino.isLnk
  nlink : ino.nlink = 1
  reads : ∀ n, target.length ≤ n → inodeReadlink ino (n + 1) fs = .ok target fs

theorem pathSymlink_made (h : InOrder base v) (hok : pathSymlink ctx target path v = (none, v')) :
    ∃ no parent, FindsParent ctx path (Volume.openRw v ctx).fs parent ∧ parent.inodeNo ≠ no ∧
      v.inodeUsed no = false ∧ v'.inodeUsed no = true ∧ Change {no} {no, parent.inodeNo} v v' ∧
      InOrder base v' ∧ no < v.fs.inodeCount ∧ LinkMade target v'.fs (v'.fs.inode no) := by
  obtain ⟨a, v₁, hargs, hrun, hv⟩ := mutation_ok hok
  obtain ⟨parent, _, no, ino, _, hp, hisdir, hmade, hlnk, htarget, hstored, hnlink⟩ :=
    symlinkBody_made (h.forCaller (ctx.user && decide (ctx.uid ≠ 0))) (entryArgs_ok hargs).1 hrun
  have hturn := hmade.turn.closed
  have hinode : v'.fs.inode no = ino := by
    rw [hv]
    exact hmade.inode
  have hwhole : v'.fs.linkTarget ino = target := by
    rw [hv, ← htarget, Fs.linkTarget, Fs.linkTarget, hmade.turn.beside.img]
    rfl
  rw [← hv] at hturn
  have h' := hturn.ledger.inOrder (hturn.typed fun _ _ _ => rfl)
  obtain ⟨hlt, hbefore, hafter, -⟩ := hturn.born no rfl
  have hchange := hturn.kept.change
  refine ⟨no, parent, ⟨a.1, a.2, (entryArgs_ok hargs).1, hp.lookup, hisdir, hp.held⟩, hmade.ne,
    hbefore, hafter, hchange, h', hlt, hinode ▸ hlnk, hinode ▸ hnlink, fun n hn => ?_⟩
  have hread : ¬ ino.isFast → ino.size ≠ 0 → v'.fs.Readable ino := fun hslow hsize => by
    refine FileWf.readable (hinode ▸ h'.accounts.file no (hchange.beside.inodeCount ▸ hlt) ?_)
    rw [hinode]
    -- a target in the inode would be found there
    by_contra hb
    exact hslow ⟨fun hflag => hb (.inr (.inr ⟨hlnk, hflag⟩)), hsize, hstored.resolve_left hb⟩
  rw [hinode, inodeReadlink_whole hlnk h'.accounts.sound hread (hwhole.symm ▸ hn), hwhole]

/-- `nextufs_path_symlink`: the new link says the target, wherever it was put, every other file is
as it was but for the directory the path leads to, and an unlink that gives the inode back gives
back what the call took. -/
theorem pathSymlink_readlink (h : InOrder base v)
    (hok : pathSymlink ctx target path v = (none, v')) :
    ∃ no parent, FindsParent ctx path (Volume.openRw v ctx).fs parent ∧ parent.inodeNo ≠ no ∧
      v.inodeUsed no = false ∧ v'.inodeUsed no = true ∧ Change {no} {no, parent.inodeNo} v v' ∧
      (v'.fs.inode no).isLnk ∧ (∀ n, target.length ≤ n →
        inodeReadlink (v'.fs.inode no) (n + 1) v'.fs = .ok target v'.fs) ∧
      ∀ ctx' path' v'', pathUnlink ctx' path' v' = (none, v'') → v''.inodeUsed no = false →
        Unmade v v'' := by
  obtain ⟨no, parent, hfinds, hne, hbefore, hafter, hchange, h', -, hlink⟩ := pathSymlink_made h hok
  exact ⟨no, parent, hfinds, hne, hbefore, hafter, hchange, hlink.isLnk, hlink.reads,
    fun ctx' path' v'' hunlink hgone =>
      unmade h h' hchange hne hfinds.isDir hbefore hafter hunlink hgone⟩

/-- Every entry of a directory names an inode in use. -/
def EntriesUsed (v : Volume) : Prop :=
  ∀ i < v.fs.inodeCount, (v.fs.inode i).isDir → ∀ name j,
    findNameInDirectory (v.fs.inode i) name v.fs = .ok j v.fs → j ≠ 0 → v.inodeUsed j = true

/-- A name of the inode that was made stands in the directory it was made in. -/
theorem EntriesUsed.parent_eq {p : Nat} {q t : Node} {name : List UInt8} {b : Bool}
    (he : EntriesUsed v) (h : InOrder base v) (h' : InOrder base v') {no : Nat}
    (hchange : Change {no} {no, p} v v') (hbefore : v.inodeUsed no = false)
    (hq : Held (Fs.forCaller v'.fs b) q) (hnames : Names (Fs.forCaller v'.fs b) q name t)
    (hnot : ¬ t.inode.isDir) (ht : t.inodeNo = no) : q.inodeNo = p := by
  have hne : q.inodeNo ≠ no := ht ▸ hq.ne_of_isDir hnames.held hnames.dir hnot
  by_contra hp
  have hout : q.inodeNo ∉ ({no, p} : Set Nat) := by simp [hne, hp]
  have hinode' : v'.fs.inode q.inodeNo = q.inode := hq.inode
  have hinode : v.fs.inode q.inodeNo = q.inode := (hchange.beside.inode _ hout).symm.trans hinode'
  have hlt' : q.inodeNo < v'.fs.inodeCount := hq.lt
  have hlt : q.inodeNo < v.fs.inodeCount := hchange.beside.inodeCount ▸ hlt'
  have hdir : (v.fs.inode q.inodeNo).isDir := by
    rw [hinode]
    exact hnames.dir
  have hread : v.fs.Readable q.inode := by
    rw [← hinode]
    exact FileWf.readable (h.accounts.file _ hlt (.inr (.inl hdir)))
  have hread' : (Fs.forCaller v'.fs b).Readable q.inode := by
    rw [← hq.inode]
    refine FileWf.readable ((h'.forCaller b).accounts.file _ hq.lt (.inr (.inl ?_)))
    change (v'.fs.inode q.inodeNo).isDir
    rw [hinode']
    exact hnames.dir
  have hsame : v.fs.img.sb.content (Fs.forCaller v'.fs b).bytes q.inode =
      v.fs.img.sb.content v.fs.bytes q.inode := by
    rw [← hinode]
    exact hchange.beside.content _ hlt hout (.inr (.inl hdir))
  -- the directory reads as before the inode was made
  have hsb : v'.fs.img.sb = v.fs.img.sb := congrArg Image.sb hchange.beside.img
  have hfind := findNameInDirectory_same hread hread'
    (show (Fs.forCaller v'.fs b).img.sb = v.fs.img.sb from hsb) hsame hnames.found
  rw [← hinode] at hfind
  have hused := he _ hlt hdir name _ hfind hnames.ne_zero
  rw [ht] at hused
  rw [hbefore] at hused
  cases hused

/-- `nextufs_path_symlink` and the unlinking of what it made: the new link says the target, wherever
it was put, and every other file is as it was but for the directory the path leads to. An unlink, by
any path that leads to the link, gives it back: the same inodes are in use, and what differs of the
fragments in use is what that directory has. -/
theorem pathSymlink_unlinked (h : InOrder base v) (hentries : EntriesUsed v)
    (hok : pathSymlink ctx target path v = (none, v')) :
    ∃ no parent, FindsParent ctx path (Volume.openRw v ctx).fs parent ∧ no < v.fs.inodeCount ∧
      v.inodeUsed no = false ∧ v'.inodeUsed no = true ∧ (v'.fs.inode no).isLnk ∧
      (∀ n, target.length ≤ n →
        inodeReadlink (v'.fs.inode no) (n + 1) v'.fs = .ok target v'.fs) ∧
      Change {no} {no, parent.inodeNo} v v' ∧
      ∀ ctx' path' t v'', nodeLookupAs ctx' path' false (Volume.openRw v' ctx').fs =
          .ok t (Volume.openRw v' ctx').fs → t.inodeNo = no →
        pathUnlink ctx' path' v' = (none, v'') →
          InOrder base v'' ∧ (∀ j, v''.inodeUsed j = v.inodeUsed j) ∧
          v''.fs.totals.nifree = v.fs.totals.nifree ∧
          (∀ j, j ≠ parent.inodeNo → share v''.fs j = share v.fs j) ∧
          v''.fs.used + share v.fs parent.inodeNo = v.fs.used + share v''.fs parent.inodeNo := by
  obtain ⟨no, parent, hfinds, hne, hbefore, hafter, hchange, h', hlt, hlink⟩ :=
    pathSymlink_made h hok
  refine ⟨no, parent, hfinds, hlt, hbefore, hafter, hlink.isLnk, hlink.reads, hchange, ?_⟩
  intro ctx' path' t v'' hlook ht hunlink
  obtain ⟨q, t', name, hheld, hlook', hnames, hnot, h'', hturn⟩ := pathUnlink_turn h' hunlink
  obtain rfl : t = t' := (EStateM.Result.ok.inj (hlook.symm.trans hlook')).1
  have hparent := hentries.parent_eq h h' hchange hbefore hheld hnames hnot ht
  -- its only name is gone
  have hlast : t.inode.nlink - 1 = 0 := by
    have hinode : v'.fs.inode t.inodeNo = t.inode := hnames.held.inode
    rw [← hinode, ht, hlink.nlink]
    rfl
  rw [if_pos hlast] at hturn
  have hgone := (hturn.died t.inodeNo rfl).2.2.1
  have hback := unlink_change (by rwa [if_pos hlast])
  rw [ht] at hgone hback
  rw [hparent] at hback
  obtain ⟨himg, hused, hshare⟩ := given_back h h'' hchange hback hbefore hgone
  have hout : ∀ j, j ≠ parent.inodeNo → share v''.fs j = share v.fs j := fun j hj => hshare j hj hj
  have hbalance := h.accounts.balance h''.accounts himg (S := {parent.inodeNo}) fun j hj =>
    hout j (Finset.notMem_singleton.mp hj)
  rw [Finset.sum_singleton, Finset.sum_singleton] at hbalance
  exact ⟨h'', hused, nifree_eq h h'' himg hused, hout, hbalance⟩

theorem call_ok {r : Status × Volume} (h : r.1 = none) : r = (none, r.2) := by
  rw [← h]

theorem pathCreateFile_reads_small : ∃ no v',
    pathCreateFile rootCtx [0x2f, 0x67] [1, 2, 3] rootVolume = (none, v') ∧
      inodeReadData (v'.fs.inode no) 1 5 v'.fs = .ok [2, 3] v'.fs := by
  have hok := call_ok (show (pathCreateFile rootCtx [0x2f, 0x67] [1, 2, 3] rootVolume).1 = none by
    decide +kernel)
  obtain ⟨no, _, -, -, -, -, -, -, hread, -⟩ := pathCreateFile_reads rootVolume_inOrder hok
  exact ⟨no, _, hok, hread 1 5⟩

/-- The records of the root directory. -/
def rootRecords : List Dirent :=
  [⟨2, 12, 1, [0x2e]⟩, ⟨2, 12, 2, [0x2e, 0x2e]⟩, ⟨3, 1000, 1, [0x66]⟩]

theorem rootVolume_entriesUsed : EntriesUsed rootVolume := by
  intro i hi hdir name j hfind hj
  have hroot : i = 2 := by
    by_contra h2
    by_cases h3 : i = 3
    · rw [h3] at hdir
      exact absurd hdir (by decide)
    · have hmode := (rootVolume_idle h2).2.2 h3
      rw [Inode.isDir, hmode] at hdir
      exact absurd hdir (by decide)
  rw [hroot] at hfind
  have hrecords : Records (rootVolume.fs.img.sb.fileByte rootVolume.fs.bytes rootInode) 0 rootRecords
      1024 :=
    ⟨by decide +kernel, by decide +kernel, by decide +kernel, rfl⟩
  simp only [findNameInDirectory, bind_ok, pure_ok, Prod.exists] at hfind
  obtain ⟨k, b, _, hiter, rfl, -⟩ := hfind
  have hfold := (directoryIterate_eq _ (FileWf.readable rootInode_file) rfl hrecords 0).symm.trans hiter
  have hval := congrArg Prod.fst (EStateM.Result.ok.inj hfold).1
  rw [foldStop_find] at hval
  have hentries : entries rootRecords = [([0x2e], 2), ([0x2e, 0x2e], 2), ([0x66], 3)] := rfl
  rw [hentries] at hval
  simp only [List.lookup_cons, List.lookup_nil] at hval
  split at hval
  · exact hval ▸ rfl
  split at hval
  · exact hval ▸ rfl
  split at hval
  · exact hval ▸ rfl
  · exact absurd hval.symm hj

theorem pathSymlink_readlink_small : ∃ no v',
    pathSymlink rootCtx [0x61] [0x2f, 0x67] rootVolume = (none, v') ∧
      inodeReadlink (v'.fs.inode no) 2 v'.fs = .ok [0x61] v'.fs := by
  have hok := call_ok (show (pathSymlink rootCtx [0x61] [0x2f, 0x67] rootVolume).1 = none by
    decide +kernel)
  obtain ⟨no, _, -, -, -, -, -, -, hread, -⟩ := pathSymlink_readlink rootVolume_inOrder hok
  exact ⟨no, _, hok, hread 1 le_rfl⟩

/-- The root volume with the link `g` in it. -/
def linkedVolume : Volume := (pathSymlink rootCtx [0x61] [0x2f, 0x67] rootVolume).2

/-- The link is unlinked again. -/
theorem pathSymlink_unlinked_small :
    inodeReadlink (linkedVolume.fs.inode 4) 2 linkedVolume.fs = .ok [0x61] linkedVolume.fs ∧
      ∃ v'', pathUnlink rootCtx [0x2f, 0x67] linkedVolume = (none, v'') ∧
        (∀ j, v''.inodeUsed j = rootVolume.inodeUsed j) ∧
        v''.fs.totals.nifree = rootVolume.fs.totals.nifree := by
  have hok : pathSymlink rootCtx [0x61] [0x2f, 0x67] rootVolume = (none, linkedVolume) :=
    call_ok (show (pathSymlink rootCtx [0x61] [0x2f, 0x67] rootVolume).1 = none by decide +kernel)
  obtain ⟨no, _, -, hlt, hbefore, hafter, -, hread, -, hback⟩ :=
    pathSymlink_unlinked rootVolume_inOrder rootVolume_entriesUsed hok
  have honly : ∀ i < 64, rootVolume.inodeUsed i = false → linkedVolume.inodeUsed i = true → i = 4 := by
    decide +kernel
  obtain rfl := honly no hlt hbefore hafter
  have hunlink := call_ok (show (pathUnlink rootCtx [0x2f, 0x67] linkedVolume).1 = none by
    decide +kernel)
  obtain ⟨t, fs', hlook, ht⟩ := exists_lookup (show (value (nodeLookupAs rootCtx [0x2f, 0x67] false
    (Volume.openRw linkedVolume rootCtx).fs)).map Node.inodeNo = some 4 by decide +kernel)
  obtain ⟨rfl, -⟩ := nodeLookupAs_held hlook
  obtain ⟨-, hused, hnifree, -⟩ := hback rootCtx _ t _ hlook ht hunlink
  exact ⟨hread 1 le_rfl, _, hunlink, hused, hnifree⟩

end

/-! ## Any calls -/

section
variable {base : Multiset Nat} {v : Volume} {p i j : Nat}

/-- A count over all groups. -/
theorem count_groups {P : Nat → Prop} [DecidablePred P] (k : Nat) : ∀ n,
    Nat.count P (n * k) = ∑ c ∈ Finset.range n, Nat.count (fun i => P (c * k + i)) k
  | 0 => by rw [Nat.zero_mul, Nat.count_zero, Finset.sum_range_zero]
  | n + 1 => by rw [Nat.succ_mul, Nat.count_add, count_groups k n, Finset.sum_range_succ]

/-- The free inodes the superblock counts. -/
theorem InOrder.nifree (h : InOrder base v) : v.fs.totals.nifree.toNat =
    Nat.count (fun i => v.inodeUsed i = false) v.fs.inodeCount := by
  rw [h.agree.total_nifree, Fs.sumWord, Fs.inodeCount, count_groups]
  refine Finset.sum_congr rfl fun c hc => ?_
  have hc := Finset.mem_range.mp hc
  rw [(h.agree.summary c hc).1, h.agree.nifree c hc]
  refine Runs.count_congr fun i hi => ?_
  rw [Volume.inodeUsed, add_mul_div hi, add_mul_mod hi]

/-- The directories the superblock counts. -/
theorem InOrder.ndir (h : InOrder base v) : v.fs.totals.ndir.toNat =
    Nat.count (fun i => v.inodeUsed i = true ∧ isDirMode (v.fs.inode i).mode = true)
      v.fs.inodeCount := by
  rw [h.agree.total_ndir, Fs.sumWord, Fs.inodeCount, count_groups]
  refine Finset.sum_congr rfl fun c hc => ?_
  have hc := Finset.mem_range.mp hc
  rw [(h.agree.summary c hc).2, h.agree.ndir c hc]
  refine Runs.count_congr fun i hi => ?_
  rw [Volume.inodeUsed, add_mul_div hi, add_mul_mod hi]

theorem Accounts.mem_used {fs : Fs} (h : Accounts base fs) :
    p ∈ fs.used ↔ p ∈ base ∨ ∃ i < fs.inodeCount, p ∈ share fs i := by
  rw [h.used, Multiset.mem_add, shares, Multiset.mem_sum]
  simp

theorem Accounts.share_disjoint {fs : Fs} (h : Accounts base fs) (hi : p ∈ share fs i)
    (hj : p ∈ share fs j) : i = j := by
  by_contra hne
  have hnodup := h.used ▸ fs.used_nodup
  rw [shares_eq fs i, Multiset.nodup_add, Multiset.nodup_add] at hnodup
  exact Multiset.disjoint_left.mp hnodup.2.1.2.2 hi
    (Multiset.mem_of_le (share_le_rest (Ne.symm hne)) hj)

theorem Accounts.base_disjoint {fs : Fs} (h : Accounts base fs) (hp : p ∈ base) : p ∉ share fs i := by
  have hnodup := h.used ▸ fs.used_nodup
  rw [shares_eq fs i, Multiset.nodup_add] at hnodup
  exact fun hi => Multiset.disjoint_left.mp hnodup.2.2 hp (Multiset.mem_add.mpr (.inl hi))

/-- After any calls, whoever makes them and whether they succeed or not: a fragment is in use just
when it is of the metadata or of a file, of one only and once only; the superblock counts the free
inodes and the directories; and every file with blocks is well formed. -/
theorem runCalls_accounts (calls : List (WriteCtx × Call)) (h : InOrder base v) :
    InOrder base (runCalls calls v) ∧
    (∀ p, p ∈ (runCalls calls v).fs.used ↔
      p ∈ base ∨ ∃ i < v.fs.inodeCount, p ∈ share (runCalls calls v).fs i) ∧
    (∀ p i, p ∈ share (runCalls calls v).fs i → p ∉ base ∧
      ∀ j, p ∈ share (runCalls calls v).fs j → i = j) ∧
    (∀ i, (share (runCalls calls v).fs i).Nodup) ∧
    (runCalls calls v).fs.totals.nifree.toNat =
      Nat.count (fun i => (runCalls calls v).inodeUsed i = false) v.fs.inodeCount ∧
    (runCalls calls v).fs.totals.ndir.toNat =
      Nat.count (fun i => (runCalls calls v).inodeUsed i = true ∧
        isDirMode ((runCalls calls v).fs.inode i).mode = true) v.fs.inodeCount ∧
    (runCalls calls v).fs.Consistent := by
  have h' := runCalls_inOrder calls h
  have hcount : (runCalls calls v).fs.inodeCount = v.fs.inodeCount := by
    rw [Fs.inodeCount, Fs.inodeCount, runCalls_img calls h]
  have ha := h'.accounts
  refine ⟨h', fun p => by rw [ha.mem_used, hcount], fun p i hi =>
    ⟨fun hp => ha.base_disjoint hp hi, fun j hj => ha.share_disjoint hi hj⟩, fun i => ?_,
    by rw [h'.nifree, hcount], by rw [h'.ndir, hcount], ha.sound.consistent⟩
  have hnodup := ha.used ▸ (runCalls calls v).fs.used_nodup
  rw [shares_eq _ i, Multiset.nodup_add, Multiset.nodup_add] at hnodup
  exact hnodup.2.1.1

/-- A file is made, another takes its name, and a call fails. -/
theorem runCalls_accounts_small : InOrder rootBase (runCalls [
    (rootCtx, .createFile [0x2f, 0x67] [1, 2, 3]), (rootCtx, .rename [0x2f, 0x66] [0x2f, 0x67]),
    (rootCtx, .rmdir [0x2f, 0x67])] rootVolume) :=
  (runCalls_accounts _ rootVolume_inOrder).1

end

/-! ## Looking up what a path names -/

/-- A path goes where its parent goes and then where the parent's entry leads, whatever links and
`..` are on the way: a lookup that does not follow the last name finds a node just under the
directory its parent's lookup finds, and it finds none only where that directory has no such name. -/
theorem nodeLookupAs_split {fs fs' : Fs} {ctx : WriteCtx} {path parent name : List UInt8} {m n : Nat}
    {node : Node} (hsplit : pathSplit path m n = .ok (parent, name))
    (hdir : nodeLookupAs ctx parent true fs = .ok node fs) :
    (∀ t, nodeLookupAs ctx path false fs = .ok t fs' → node.inode.isDir ∧
      findNameInDirectory node.inode name fs = .ok t.inodeNo fs ∧ t.inodeNo ≠ 0 ∧ Held fs t) ∧
    (nodeLookupAs ctx path false fs = .error .ENOENT fs' → node.inode.isDir ∧
      findNameInDirectory node.inode name fs = .ok 0 fs) := by
  refine ⟨fun t h => ?_, lookup_absent hsplit hdir⟩
  obtain ⟨hisdir, hfound, hne, hheld⟩ := lookup_names hsplit hdir h
  exact ⟨hisdir, hfound, hne, hheld⟩

/-- `/l/../m`, where `l` is a link to the root. -/
theorem nodeLookupAs_split_link : ∃ node t,
    nodeLookupAs rootCtx [SLASH, 0x6c, SLASH, 0x2e, 0x2e] true linkFs = .ok node linkFs ∧
    nodeLookupAs rootCtx [SLASH, 0x6c, SLASH, 0x2e, 0x2e, SLASH, 0x6d] false linkFs = .ok t linkFs ∧
    findNameInDirectory node.inode [0x6d] linkFs = .ok t.inodeNo linkFs := by
  obtain ⟨node, fs', hnode, -⟩ := exists_lookup (show (value (nodeLookupAs rootCtx
    [SLASH, 0x6c, SLASH, 0x2e, 0x2e] true linkFs)).map Node.inodeNo = some 2 by decide +kernel)
  obtain ⟨t, fs'', ht, -⟩ := exists_lookup (show (value (nodeLookupAs rootCtx
    [SLASH, 0x6c, SLASH, 0x2e, 0x2e, SLASH, 0x6d] false linkFs)).map Node.inodeNo = some 4 by
      decide +kernel)
  obtain ⟨rfl, -⟩ := nodeLookupAs_held hnode
  obtain ⟨rfl, -⟩ := nodeLookupAs_held ht
  exact ⟨node, t, hnode, ht, ((nodeLookupAs_split (m := 4096) (n := 256) rfl hnode).1 t ht).2.1⟩

end NextUfs.Mutate
