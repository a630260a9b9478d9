/-
NextUfs.Mutate.OperationTheorems — what each path mutation does to a volume.

One lemma a body: it takes the body's run apart and names the inode it makes or
clears and the inodes it changes (`Turn`). The hard part is that the inodes are
different ones. The node of a directory was looked up before its entry was, so
a body that writes both must not be holding one inode twice; that the entry's
directory is a directory comes from its lookup (`lookup_names`), and that an
empty directory is not the one it is removed from comes from its being empty
(`empty_find`).
-/
import NextUfs.Mutate.TurnTheorems

namespace NextUfs.Mutate

open NextUfs.Core NextUfs.Lib NextUfs.Lib.ByteStore NextUfs.Lib.StateResult NextUfs.Lib.Extents

/-! ## Checks and lookups -/

section
variable {α : Type} {v v' : Volume} {fs fs' : Fs} {ctx : WriteCtx} {parent : Node}

/-- A call that only reads. -/
theorem onFs_reads {x : FsM α} {a : α} (hx : Steady id x) (h : onFs x v = .ok a v') :
    v = v' ∧ x v.fs = .ok a v.fs := by
  obtain ⟨fs', hrun, rfl⟩ := onFs_ok.mp h
  obtain rfl := hx.state hrun
  exact ⟨rfl, hrun⟩

theorem onFs_status {st : Status} {u : PUnit} (h : onFs (ofStatus st) v = .ok u v') :
    v = v' ∧ st = none := by
  obtain ⟨fs', hrun, rfl⟩ := onFs_ok.mp h
  cases st with
  | none =>
    obtain ⟨-, rfl⟩ := pure_ok.mp hrun
    exact ⟨rfl, rfl⟩
  | some e => exact (throw_ok.mp hrun).elim

/-- The directory a call changes. -/
structure MutableParent (ctx : WriteCtx) (must_be_dir : Bool) (path : List UInt8) (fs : Fs)
    (parent : Node) : Prop where
  lookup : nodeLookupAs ctx path true fs = .ok parent fs
  held : Held fs parent
  dir : must_be_dir = true → parent.inode.isDir
  access : requireParentMutation ctx parent = none

theorem mutableParent_ok {must_be_dir : Bool} {path : List UInt8}
    (h : onFs (mutableParent ctx must_be_dir path) v = .ok parent v') :
    v = v' ∧ MutableParent ctx must_be_dir path v.fs parent := by
  obtain ⟨rfl, hrun⟩ := onFs_reads (steady_mutableParent _ _ _) h
  simp only [mutableParent, bind_ok, check_ok, pure_ok] at hrun
  obtain ⟨node, _, hlook, _, _, ⟨hdir, rfl⟩, _, _, hacc, rfl, -⟩ := hrun
  obtain ⟨heq, hheld⟩ := nodeLookupAs_held hlook
  rw [← heq] at hlook hacc
  refine ⟨rfl, hlook, hheld, hdir, ?_⟩
  cases hreq : requireParentMutation ctx node with
  | none => rfl
  | some e =>
    rw [hreq] at hacc
    exact (throw_ok.mp hacc).elim

theorem requireAbsent_ok {path : List UInt8} {u : PUnit}
    (h : onFs (requireAbsent ctx path) v = .ok u v') :
    v = v' ∧ nodeLookupAs ctx path false v.fs = .error .ENOENT v.fs := by
  obtain ⟨rfl, hrun⟩ := onFs_reads (steady_requireAbsent _ _) h
  obtain ⟨r, fs₁, hlook, hr⟩ := bind_ok.mp hrun
  cases r with
  | ok node => exact (throw_ok.mp hr).elim
  | error e =>
    obtain rfl : v.fs = fs₁ := (steady_attempt (steady_nodeLookupAs ctx path false)).state hlook
    cases e <;> first
      | exact ⟨rfl, attempt_error.mp hlook⟩
      | exact (throw_ok.mp hr).elim

theorem nodeLookup_ok {follow : Bool} {path : List UInt8}
    (h : onFs (nodeLookupAs ctx path follow) v = .ok parent v') :
    v = v' ∧ nodeLookupAs ctx path follow v.fs = .ok parent v.fs ∧ Held v.fs parent := by
  obtain ⟨rfl, hrun⟩ := onFs_reads (steady_nodeLookupAs _ _ _) h
  exact ⟨rfl, hrun, (nodeLookupAs_held hrun).2⟩

/-- A directory and something else are two inodes. -/
theorem Held.ne_of_isDir {target : Node} (hp : Held fs parent) (ht : Held fs target)
    (hdir : parent.inode.isDir) (hnot : ¬ target.inode.isDir) : parent.inodeNo ≠ target.inodeNo := by
  intro hno
  rw [← hp.inode, hno, ht.inode] at hdir
  exact hnot hdir

theorem orDiscard_ok {no : Nat} {ino : Inode} {x : VolM α} {a : α} :
    orDiscard no ino x v = .ok a v' ↔ x v = .ok a v' := by
  rw [orDiscard, bind_ok]
  constructor
  · rintro ⟨r, v₁, hx, h⟩
    cases r with
    | ok b =>
      obtain ⟨rfl, rfl⟩ := pure_ok.mp h
      exact attempt_ok.mp hx
    | error e =>
      obtain ⟨_, _, -, h⟩ := bind_ok.mp h
      exact (throw_ok.mp h).elim
  · exact fun h => ⟨.ok a, v', attempt_ok.mpr h, pure_ok.mpr ⟨rfl, rfl⟩⟩

end

/-! ### Names that are removed -/

theorem removeInDirblk_name {name : List UInt8} {block : ByteStore} {base size : Nat}
    {r : ByteStore × Nat} : ∀ {fuel off : Nat} {prev : Option Nat},
    removeInDirblk name block base size fuel off prev = .ok (some r) → ¬ nameIsDotOrDotdot name := by
  intro fuel
  induction fuel with
  | zero => exact fun h => nomatch h
  | succ fuel ih =>
    intro off prev h
    simp only [removeInDirblk] at h
    split at h
    case isTrue => cases h
    case isFalse =>
      cases hread : readDirent (fun i => block (base + i)) size off with
      | none => simp [hread] at h
      | some ent =>
        simp only [hread] at h
        split at h
        case isTrue =>
          split at h
          case isTrue => cases h
          case isFalse hdot => exact hdot
        case isFalse => exact ih h

theorem removeInChunk_name {name : List UInt8} {block : ByteStore} {size : Nat}
    {r : ByteStore × Nat} : ∀ {fuel base : Nat},
    removeInChunk name block size fuel base = .ok (some r) → ¬ nameIsDotOrDotdot name := by
  intro fuel
  induction fuel with
  | zero => exact fun h => nomatch h
  | succ fuel ih =>
    intro base h
    simp only [removeInChunk] at h
    split at h
    case isTrue => cases h
    case isFalse =>
      cases hblk : removeInDirblk name block base (min (size - base) DIRBLKSIZ)
          (min (size - base) DIRBLKSIZ) 0 none with
      | error e => simp [hblk] at h
      | ok found =>
        cases found with
        | none =>
          simp only [hblk] at h
          exact ih h
        | some r' => exact removeInDirblk_name hblk

theorem removeInChunks_same {node node' : Node} {name : List UInt8} {removed : Nat} {fs fs' : Fs} :
    ∀ {fuel remaining k : Nat},
      removeInChunks node name fuel remaining k fs = .ok (node', removed) fs' →
      node' = node ∧ ¬ nameIsDotOrDotdot name := by
  intro fuel
  induction fuel generalizing fs with
  | zero => exact fun h => (throw_ok.mp h).elim
  | succ fuel ih =>
    intro remaining k h
    rw [removeInChunks] at h
    split at h
    case isTrue => exact (throw_ok.mp h).elim
    case isFalse =>
      simp only [bind_ok, get_ok] at h
      obtain ⟨_, _, ⟨rfl, rfl⟩, block, _, -, frag, _, -, h⟩ := h
      cases hscan : removeInChunk name block (min remaining fs.img.sb.blockSize)
          (min remaining fs.img.sb.blockSize) 0 with
      | error e =>
        rw [hscan] at h
        exact (throw_ok.mp h).elim
      | ok found =>
        rw [hscan] at h
        cases found with
        | none => exact ih h
        | some r =>
          simp only [writeChunk, bind_ok, pure_ok, Prod.mk.injEq] at h
          obtain ⟨_, _, ⟨_, _, -, _, _, -, hupdate⟩, ⟨rfl, -⟩, -⟩ := h
          exact ⟨(updateNodeTimes_ok hupdate).1, removeInChunk_name hscan⟩

/-- Removing an entry leaves the directory's inode, and `.` and `..` are never removed. -/
theorem removeEntry_same {parent parent' : Node} {name : List UInt8} {no : Nat} {v v' : Volume}
    (h : removeEntry parent name no v = .ok parent' v') :
    parent' = parent ∧ ¬ nameIsDotOrDotdot name := by
  simp only [removeEntry, bind_ok, check_ok, pure_ok, Prod.exists] at h
  obtain ⟨node, removed, _, honFs, _, _, ⟨-, rfl⟩, rfl, -⟩ := h
  obtain ⟨_, hremove, -⟩ := onFs_ok.mp honFs
  exact removeInChunks_same hremove

/-! ## New inodes -/

/-- Cleaning a mode leaves its type. -/
theorem cleanMode_type (ctx : WriteCtx) (gid mode : UInt16) :
    cleanMode ctx gid mode &&& NEXTUFS_IFMT = mode &&& NEXTUFS_IFMT := by
  have hsticky : ∀ m : UInt16, (m &&& ~~~0o1000) &&& NEXTUFS_IFMT = m &&& NEXTUFS_IFMT := by
    intro m
    rw [UInt16.and_assoc]
    rfl
  have hgroup : ∀ m : UInt16, (m &&& ~~~0o2000) &&& NEXTUFS_IFMT = m &&& NEXTUFS_IFMT := by
    intro m
    rw [UInt16.and_assoc]
    rfl
  unfold cleanMode
  split
  case isTrue => rfl
  case isFalse =>
    dsimp only
    split
    case isTrue =>
      split
      · rw [hgroup, hsticky]
      · exact hsticky _
    case isFalse =>
      split
      · exact hgroup _
      · rfl

theorem or_type (a b : UInt16) :
    (a ||| b) &&& NEXTUFS_IFMT = (a &&& NEXTUFS_IFMT) ||| (b &&& NEXTUFS_IFMT) := by
  rw [← UInt16.toBitVec_inj]
  simpa using BitVec.and_or_distrib_right

/-- Permissions are not part of a type. -/
theorem permissions_type (m : UInt16) : (m &&& 0o777) &&& NEXTUFS_IFMT = 0 ∧
    (m &&& 0o7777) &&& NEXTUFS_IFMT = 0 := by
  rw [UInt16.and_assoc, UInt16.and_assoc]
  exact ⟨UInt16.and_zero, UInt16.and_zero⟩

theorem isDirMode_of_type {mode mode' : UInt16} (h : mode' &&& NEXTUFS_IFMT = mode &&& NEXTUFS_IFMT) :
    isDirMode mode' = isDirMode mode := by
  unfold NEXTUFS_IFMT at h
  rw [isDirMode, isDirMode, h]

section
variable {base : Multiset Nat} {dir : Nat → Bool} {v v₁ v' : Volume} {fs fs' : Fs} {no : Nat}
  {gen : UInt32} {ino ino' : Inode} {parent parent' : Node} {mode : UInt16} {data : List UInt8}

theorem takeInode_ok (h : takeInode parent mode v = .ok (no, gen) v') :
    allocateInode (parent.inodeNo / v.fs.img.sb.inodesPerGroup) mode v = .ok no v' ∧
      gen = (v'.fs.inode no).gen := by
  simp only [takeInode, bind_ok, get_ok, pure_ok, Prod.mk.injEq] at h
  obtain ⟨_, _, ⟨rfl, rfl⟩, no', v₁, halloc, ino, v₂, hread, ⟨rfl, rfl⟩, rfl⟩ := h
  obtain ⟨rfl, hrun⟩ := onFs_reads (steady_inodeRead _) hread
  obtain ⟨-, hheld⟩ := inodeRead_held hrun
  exact ⟨halloc, congrArg Inode.gen hheld.inode.symm⟩

/-- A new inode with data. -/
theorem Stored.newborn (h : Stored fs ino data fs' ino')
    (hw : Fs.inodeWords fs' = Fs.inodeWords fs) (hb : HasBlocks ino') : Newborn fs ino' fs' :=
  ⟨h.wf.1.sound, h.keeps, hw, h.frame, fun _ => h.wf, fun hn => absurd hb hn⟩

/-- A new inode that nothing was taken for. -/
theorem newborn_of_idle (hs : fs.Sound) (hb : HasBlocks ino → Pointerless ino ∧ ino.blocks = 0)
    (hidle : ¬ HasBlocks ino → Idle ino) : Newborn fs ino fs := by
  refine ⟨hs, Fs.Keeps.refl fs, rfl, SameOn.refl _ _ _, fun h => ?_, fun h => ⟨hidle h, rfl⟩⟩
  obtain ⟨hp, hblocks⟩ := hb h
  obtain ⟨hown, htree⟩ := @fileTree_empty fs ino (fileFrags fs.img.sb ino.size)
    (blocksOf fs.img.sb ino.size) hs hp.db hp.ib
  refine ⟨⟨htree, ?_⟩, by rw [hp.size]; decide⟩
  rw [hown, hblocks, Multiset.card_zero, Nat.zero_mul]
  rfl

/-- What a creating call leaves: the inode `no` is in use and holds `ino`, and the directory has
changed. -/
structure Made (base : Multiset Nat) (dir : Nat → Bool) (parent : Node) (no : Nat) (ino : Inode)
    (fs : Fs) (v v' : Volume) (parent' : Node) : Prop where
  turn : Turn base dir (Function.update dir no (isDirMode ino.mode)) (.born no)
    {no, parent.inodeNo} v v'
  ne : parent.inodeNo ≠ no
  inode : v'.fs.inode no = ino
  content : HasBlocks ino → fs.img.sb.content v'.fs.bytes ino = fs.img.sb.content fs.bytes ino
  held : Held v'.fs parent'
  no_eq : parent'.inodeNo = parent.inodeNo
  kind : SameKind parent.inode parent'.inode

/-- The inode that was taken is written and entered in its directory. -/
theorem enterNewInode_made {name : List UInt8} (h : Ledger base dir v)
    (hb : BitMoved base (Function.update dir no (isDirMode mode)) v no true v₁)
    (hn : Newborn v₁.fs ino fs') (hmode : ino.mode &&& NEXTUFS_IFMT = mode &&& NEXTUFS_IFMT)
    (hgen : ino.gen = (v₁.fs.inode no).gen) (hheld : Held v.fs parent)
    (hdir : parent.inode.isDir)
    (hok : enterNewInode parent name no ino { v₁ with fs := fs' } = .ok parent' v') :
    Made base dir parent no ino fs' v v' parent' := by
  have hisdir := isDirMode_of_type hmode
  obtain ⟨_, v₂, hwrite, hinsert⟩ := bind_ok.mp (orDiscard_ok.mp hok)
  have hborn := born_turn h hb hn hisdir hgen hwrite
  -- the directory is not the new inode, which had no type
  have hne : parent.inodeNo ≠ no := by
    rintro rfl
    have hblank := h.blank _ hb.lt hb.before
    rw [hheld.inode] at hblank
    exact not_hasBlocks_of_type hblank (.inr (.inl hdir))
  have hkept := insertDirent_kept hborn.ledger
    (hheld.of_beside hborn.beside fun hmem => hne (Set.mem_singleton_iff.mp hmem))
    (.inr (.inl hdir)) hinsert
  obtain ⟨fs₂, hraw, rfl⟩ := onFs_ok.mp hwrite
  obtain rfl := writeInodeRaw_ok hraw
  have hno : no ∉ ({parent.inodeNo} : Set Nat) :=
    fun hmem => hne (Set.mem_singleton_iff.mp hmem).symm
  have hself : Function.update fs'.inode no ino no = ino := Function.update_self ..
  have hinode := hkept.kept.change.beside.inode no hno
  have hlt : no < Fs.inodeCount { fs' with inode := Function.update fs'.inode no ino } := by
    rw [hborn.beside.inodeCount]
    exact hb.lt
  refine ⟨?_, hne, hinode.trans hself, fun hbl => ?_, hkept.held, hkept.no, hkept.kind⟩
  · rw [hisdir]
    exact (hborn.before hkept.kept).mono (by rw [Set.singleton_union])
  · have hcontent := hkept.kept.change.beside.content no hlt hno
      (by dsimp only; rw [hself]; exact hbl)
    dsimp only at hcontent
    rwa [hself] at hcontent

end

/-! ## Creating -/

section
variable {base : Multiset Nat} {dir : Nat → Bool} {v v' : Volume} {ctx : WriteCtx} {u : PUnit}
  {parent_path name path data target : List UInt8} {mode : UInt16}

/-- The body of `nextufs_path_create_file`: the new file holds the data. -/
theorem createFileBody_made (h : Ledger base dir v)
    (hok : createFileBody ctx parent_path name path data v = .ok u v') :
    ∃ parent parent' no ino fs', MutableParent ctx true parent_path v.fs parent ∧
      Made base dir parent no ino fs' v v' parent' ∧ ino.isReg ∧
      v'.fs.img.sb.content v'.fs.bytes ino = data := by
  simp only [createFileBody, bind_ok, get_ok, Prod.exists] at hok
  obtain ⟨parent, _, hparent, _, _, habsent, _, _, ⟨rfl, rfl⟩, no, gen, v₁, htake, rc, ino, v₂, halloc,
    _, v₃, hrc, parent', v₄, henter, hu⟩ := hok
  obtain ⟨rfl, hp⟩ := mutableParent_ok hparent
  obtain ⟨rfl, -⟩ := requireAbsent_ok habsent
  obtain ⟨hallocate, hgen⟩ := takeInode_ok htake
  obtain ⟨fs', hstore, rfl⟩ := onFs_ok.mp halloc
  obtain ⟨hv, rfl⟩ := onFs_status (orDiscard_ok.mp hrc)
  obtain ⟨-, rfl⟩ := pure_ok.mp hu
  rw [← hv] at henter
  have hb := allocateInode_ledger h hallocate
  have hstored := allocateDataForInode_ok hb.kept.ledger.accounts.sound (fun _ _ => rfl)
    (fun _ _ => rfl) hstore
  have htype : ino.mode &&& NEXTUFS_IFMT = (NEXTUFS_IFREG ||| 0o644) &&& NEXTUFS_IFMT := by
    rw [hstored.fields]
    exact cleanMode_type _ _ _
  have hreg : ino.isReg := htype
  have hmade := enterNewInode_made h hb (Stored.newborn hstored
      ((steady_allocateDataForInode inert_inodeWords _ _ _).ok hstore) (.inl hreg)) htype
    (by rw [hstored.fields]; exact hgen) hp.held (hp.dir rfl) henter
  refine ⟨parent, parent', no, ino, fs', hp, hmade, hreg, ?_⟩
  have himg := hmade.turn.beside.img
  have himg' : fs'.img = v.fs.img := hstored.keeps.img.trans hb.kept.change.beside.img
  have hcontent := hmade.content (.inl hreg)
  rw [himg'] at hcontent
  rw [himg, hcontent, ← hb.kept.change.beside.img]
  exact hstored.content

theorem not_isFast {ino : Inode} (h : ino.flags = 0) : ¬ ino.isFast := fun hfast => hfast.1 (by
  rw [h]
  rfl)

/-- The target of a new link is in blocks, or it is in the inode and nothing else tells it. -/
theorem storeTarget_ok {fs fs' : Fs} {pref : Nat} {ino ino' : Inode} (hs : fs.Sound)
    (hdb : ∀ k < 12, ino.db k = 0) (hib : ∀ k < 3, ino.ib k = 0) (hflags : ino.flags = 0)
    (hlnk : ino.isLnk) (hsize : ino.size = target.length)
    (h : storeTarget pref target ino fs = .ok (none, ino') fs') :
    Newborn fs ino' fs' ∧ ino'.mode = ino.mode ∧ ino'.gen = ino.gen ∧ ino'.nlink = ino.nlink ∧
      ((HasBlocks ino' ∧ ino'.flags = 0 ∧ fs.img.sb.content fs'.bytes ino' = target) ∨
        ino'.size ≤ 60 ∧ ∀ g : Fs, g.linkTarget ino' = target) := by
  have hfast : NEXTUFS_IC_FASTLINK &&& NEXTUFS_IC_FASTLINK ≠ 0 := by decide
  unfold storeTarget at h
  split at h
  case isTrue hlen =>
    obtain ⟨hr, rfl⟩ := pure_ok.mp h
    obtain ⟨-, rfl⟩ := Prod.mk.inj hr
    have hnot : ¬ HasBlocks (storeInlineSymlink { ino with flags := NEXTUFS_IC_FASTLINK } target) := by
      rintro (hr | hd | hl)
      · exact absurd (Eq.symm hlnk |>.trans hr) (by decide)
      · exact absurd (Eq.symm hlnk |>.trans hd) (by decide)
      · exact hfast hl.2
    have hle : ino.size ≤ INT32_MAX := by
      rw [hsize]
      exact hlen.trans (by decide)
    exact ⟨newborn_of_idle hs (fun hb => absurd hb hnot) fun _ => ⟨.inr (.inl hlnk), hle⟩, rfl, rfl,
      rfl, .inr ⟨hsize.trans_le hlen, fun _ => linkTarget_storeInlineSymlink hlen hsize hfast⟩⟩
  case isFalse hlen =>
    have hstored := allocateDataForInode_ok hs hdb hib h
    have hflags' : ino'.flags = 0 := by
      rw [hstored.fields]
      exact hflags
    have hlnk' : ino'.isLnk := by
      rw [hstored.fields]
      exact hlnk
    have hb : HasBlocks ino' := .inr (.inr ⟨hlnk', by rw [hflags']; rfl⟩)
    exact ⟨hstored.newborn ((steady_allocateDataForInode inert_inodeWords _ _ _).ok h) hb,
      by rw [hstored.fields], by rw [hstored.fields], by rw [hstored.fields],
      .inl ⟨hb, hflags', hstored.content⟩⟩

/-- The body of `nextufs_path_symlink`: the new link says the target, and has one name. -/
theorem symlinkBody_made (h : Ledger base dir v)
    (hsplit : pathSplit path 4096 256 = .ok (parent_path, name))
    (hok : symlinkBody ctx target parent_path name path v = .ok u v') :
    ∃ parent parent' no ino fs', MutableParent ctx false parent_path v.fs parent ∧
      parent.inode.isDir ∧ Made base dir parent no ino fs' v v' parent' ∧ ino.isLnk ∧
      v'.fs.linkTarget ino = target ∧ (HasBlocks ino ∨ ino.size ≤ 60) ∧ ino.nlink = 1 := by
  simp only [symlinkBody, bind_ok, get_ok, Prod.exists] at hok
  obtain ⟨parent, _, hparent, _, _, habsent, _, _, ⟨rfl, rfl⟩, no, gen, v₁, htake, rc, ino, v₂, hstore,
    _, v₃, hrc, parent', v₄, henter, hu⟩ := hok
  obtain ⟨rfl, hp⟩ := mutableParent_ok hparent
  obtain ⟨rfl, hnone⟩ := requireAbsent_ok habsent
  obtain ⟨hallocate, hgen⟩ := takeInode_ok htake
  obtain ⟨fs', hrun, rfl⟩ := onFs_ok.mp hstore
  obtain ⟨hv, rfl⟩ := onFs_status (orDiscard_ok.mp hrc)
  obtain ⟨-, rfl⟩ := pure_ok.mp hu
  rw [← hv] at henter
  have hb := allocateInode_ledger h hallocate
  have htype : cleanMode ctx parent.inode.gid (NEXTUFS_IFLNK ||| 0o777) &&& NEXTUFS_IFMT =
      (NEXTUFS_IFLNK ||| 0o777) &&& NEXTUFS_IFMT := cleanMode_type _ _ _
  obtain ⟨hborn, hmode, hgen', hnlink, hkind⟩ := storeTarget_ok hb.kept.ledger.accounts.sound
    (fun _ _ => rfl) (fun _ _ => rfl) rfl (by exact htype) rfl hrun
  have hlnk : ino.isLnk := by
    rw [Inode.isLnk, hmode]
    exact htype
  have hdir := (lookup_absent hsplit hp.lookup hnone).1
  have hmade := enterNewInode_made h hb hborn (by rw [hmode]; exact htype) (hgen'.trans hgen) hp.held
    hdir henter
  refine ⟨parent, parent', no, ino, fs', hp, hdir, hmade, hlnk, ?_⟩
  rcases hkind with ⟨hblocks, hflags, htarget⟩ | ⟨hsize, htarget⟩
  · have hcontent := hmade.content hblocks
    rw [hborn.keeps.img] at hcontent
    rw [Fs.linkTarget, if_neg (not_isFast hflags), hmade.turn.beside.img,
      ← hb.kept.change.beside.img, hcontent, htarget]
    exact ⟨rfl, .inl hblocks, hnlink⟩
  · exact ⟨htarget _, .inr hsize, hnlink⟩

/-- The body of `nextufs_path_mknod`: a device keeps its number in its first pointer. -/
theorem mknodBody_made {rdev : Nat} (h : Ledger base dir v)
    (hok : mknodBody ctx parent_path name path mode rdev v = .ok u v') :
    ∃ parent parent' no ino fs', Made base dir parent no ino fs' v v' parent' ∧
      ino.mode &&& NEXTUFS_IFMT = mode &&& NEXTUFS_IFMT ∧
      (mode &&& NEXTUFS_IFMT = NEXTUFS_IFCHR ∨ mode &&& NEXTUFS_IFMT = NEXTUFS_IFBLK →
        ino.db 0 = rdev) := by
  simp only [mknodBody, bind_ok, Prod.exists] at hok
  obtain ⟨parent, _, hparent, _, _, habsent, no, gen, v₁, htake, parent', v₂, henter, hu⟩ := hok
  obtain ⟨rfl, hp⟩ := mutableParent_ok hparent
  obtain ⟨rfl, -⟩ := requireAbsent_ok habsent
  obtain ⟨hallocate, hgen⟩ := takeInode_ok htake
  obtain ⟨-, rfl⟩ := pure_ok.mp hu
  have hb := allocateInode_ledger h hallocate
  have htype : (newInode ctx parent mode 1 gen).mode &&& NEXTUFS_IFMT = mode &&& NEXTUFS_IFMT :=
    cleanMode_type _ _ _
  have hs := hb.kept.ledger.accounts.sound
  split at henter
  case isTrue hdev =>
    have hidle : holdsNoBlocks (newInode ctx parent mode 1 gen).mode = true := by
      rw [holdsNoBlocks, htype]
      rcases hdev with h | h <;> rw [h] <;> decide
    obtain ⟨ino, hino⟩ : ∃ ino, ino = { newInode ctx parent mode 1 gen with
      db := Function.update (newInode ctx parent mode 1 gen).db 0 rdev } := ⟨_, rfl⟩
    rw [← hino] at henter
    have hmode : ino.mode = (newInode ctx parent mode 1 gen).mode := by rw [hino]
    have hsize : ino.size ≤ INT32_MAX := by
      rw [hino]
      exact Nat.zero_le _
    rw [← hmode] at hidle htype
    refine ⟨parent, parent', no, ino, v₁.fs, enterNewInode_made h hb (newborn_of_idle hs
      (fun hbl => absurd hbl (not_hasBlocks_of_holdsNoBlocks hidle)) fun _ => ⟨.inl hidle, hsize⟩) htype
      (by rw [hino]; exact hgen) hp.held (hp.dir rfl) henter, htype, fun _ => ?_⟩
    simp [hino]
  case isFalse hdev =>
    refine ⟨parent, parent', no, _, v₁.fs, enterNewInode_made h hb (newborn_of_idle hs
      (fun _ => ⟨⟨rfl, fun _ _ => rfl, fun _ _ => rfl⟩, rfl⟩) fun hbl => ?_) htype hgen
      hp.held (hp.dir rfl) henter, htype, fun h => absurd h hdev⟩
    -- a file would have blocks
    exact ⟨.inr (.inr ⟨rfl, fun _ _ => rfl, fun _ _ => rfl⟩), Nat.zero_le _⟩

/-! ### Directories -/

/-- What the block of a new directory needs. -/
theorem fileFrags_dirblk {sb : Superblock} (hg : Geometry sb) :
    sb.lenAt (fileFrags sb DIRBLKSIZ) 0 = 1 ∧ blocksOf sb DIRBLKSIZ = 1 := by
  have hf := hg.fragSize_ge
  have hbs := hg.blockSize_ge
  have hone : ∀ {n}, DIRBLKSIZ ≤ n → (DIRBLKSIZ + n - 1) / n = 1 := by
    intro n hn
    unfold DIRBLKSIZ at hn ⊢
    exact Nat.div_eq_of_lt_le (by omega) (by omega)
  refine ⟨?_, hone (by unfold DIRBLKSIZ; omega)⟩
  rw [Superblock.lenAt, if_pos (by decide), fileFrags]
  dsimp only
  rw [if_neg (by unfold DIRBLKSIZ; omega), if_neg (by unfold DIRBLKSIZ; omega), Nat.zero_mul,
    Nat.sub_zero]
  exact hone hf

/-- The block of a new directory is the start of its run, written at once. -/
theorem writeNewDirectoryBlock_ok {fs fs' : Fs} {frag_addr self_ino parent_ino : Nat}
    (hok : writeNewDirectoryBlock frag_addr self_ino parent_ino fs = .ok u fs') :
    ∃ dirblk, writeSlice dirblk DIRBLKSIZ (fs.fragOffset frag_addr) fs = .ok u fs' := by
  simp only [writeNewDirectoryBlock, bind_ok, get_ok] at hok
  obtain ⟨_, _, ⟨rfl, rfl⟩, hok⟩ := hok
  cases h₁ : writeDirentRaw (fun _ => 0) 0 self_ino (direntSize 1) dot with
  | error e =>
    rw [h₁] at hok
    exact (throw_ok.mp hok).elim
  | ok b₁ =>
    rw [h₁] at hok
    dsimp only at hok
    cases h₂ : writeDirentRaw b₁ (direntSize 1) parent_ino (DIRBLKSIZ - direntSize 1) dotdot with
    | error e =>
      rw [h₂] at hok
      exact (throw_ok.mp hok).elim
    | ok b₂ =>
      rw [h₂] at hok
      exact ⟨b₂, hok⟩

/-- The directory that a block was taken and written for. -/
theorem newDirectoryBlock_newborn {v₁ v₂ : Volume} {parent : Node} {no frag : Nat} {ino : Inode}
    (hs : v₁.fs.Sound) (hok : newDirectoryBlock parent mode no v₁ = .ok frag v₂) (hdir : ino.isDir)
    (hdb : ino.db = Function.update (fun _ => 0) 0 frag) (hib : ∀ k < 3, ino.ib k = 0)
    (hsize : ino.size = DIRBLKSIZ)
    (hblocks : ino.blocks = UInt32.ofNat v₁.fs.img.sb.sectorsPerFrag) :
    ∃ fs', v₂ = { v₁ with fs := fs' } ∧ Newborn v₁.fs ino fs' := by
  simp only [newDirectoryBlock, bind_ok, get_ok] at hok
  obtain ⟨_, _, ⟨rfl, rfl⟩, frag', v₃, halloc, r, v₄, hwrite, hok⟩ := hok
  cases r with
  | error e =>
    obtain ⟨_, _, -, h⟩ := bind_ok.mp hok
    obtain ⟨_, _, -, h⟩ := bind_ok.mp h
    exact (throw_ok.mp h).elim
  | ok _ =>
  obtain ⟨rfl, rfl⟩ := pure_ok.mp hok
  obtain ⟨fs₁, hfrags, rfl⟩ := onFs_ok.mp halloc
  obtain ⟨fs₂, hblk, rfl⟩ := onFs_ok.mp (attempt_ok.mp hwrite)
  have hg := hs.geometry
  obtain ⟨hlen, hcount⟩ := fileFrags_dirblk hg
  have ht := allocateFragsAnycg_ok hg hs.consistent hfrags
  -- the run is entered as the first block of an inode without pointers
  obtain ⟨hown, htree⟩ := @fileTree_empty v₁.fs { ino with db := fun _ => 0 }
    (fileFrags v₁.fs.img.sb DIRBLKSIZ) 0 hs (fun _ _ => rfl) hib
  have hino : ({ ino with db := Function.update (fun _ => 0) 0 frag' } : Inode) = ino := by
    rw [← hdb]
  have hset : setInodeDataBlock { ino with db := fun _ => 0 } 0 frag' 0 fs₁ = .ok (ino, 0) fs₁ := by
    rw [← hino]
    rfl
  have hent := enterBlock_ok htree (by rw [hlen]; exact ht) hset
  have himg : fs₁.img = v₁.fs.img := hent.keeps.img
  -- its first bytes are written
  obtain ⟨dirblk, hslice⟩ := writeNewDirectoryBlock_ok hblk
  have hblock : fs₁.img.sb.fileBlock fs₁.bytes ino 0 = frag' := by
    rw [himg]
    exact hent.block
  have hw := blockWritten hent.tree (k := 0) (x := 0) (n := DIRBLKSIZ)
    (by rw [hblock]; exact hent.ne_zero)
    (by rw [himg, hlen, Nat.one_mul, Nat.zero_add]; exact hg.fragSize_ge)
    (by rw [hblock, Nat.add_zero]; exact hslice)
  have hinner := hw.inner
  have hframe := hw.frame
  rw [himg] at hinner hframe
  have hkeeps := hent.keeps.trans hw.keeps
  have hfits := hg.spf_le
  have hwf : FileWf fs₂ ino v₁.fs.used := by
    refine ⟨⟨?_, ?_⟩, by rw [hsize]; decide⟩
    · rw [hkeeps.img, hsize, hcount]
      exact hw.tree hent.tree
    · rw [hkeeps.img, hsize, hblocks, fileOwn_congr hg hinner, hent.total, hown, hlen,
        Multiset.card_zero, Nat.zero_add, Nat.one_mul]
      exact Nat.mod_eq_of_lt (by omega)
  have hwords : Fs.inodeWords fs₂ = Fs.inodeWords v₁.fs :=
    ((steady_writeNewDirectoryBlock inert_inodeWords _ _ _).ok hblk).trans
      ((steady_allocateFragsAnycg inert_inodeWords _ _).ok hfrags)
  exact ⟨fs₂, rfl, hwf.1.sound, hkeeps, hwords, hent.frame.trans hframe, fun _ => hwf,
    fun hn => absurd (.inr (.inl hdir)) hn⟩

/-- An inode that was looked up is written with another link count. -/
theorem writeNlink_kept {v v' : Volume} {node : Node} {u : PUnit} {nlink : UInt16}
    (h : Ledger base dir v) (hheld : Held v.fs node)
    (hok : onFs (writeInodeRaw node.inodeNo { node.inode with nlink := nlink }) v = .ok u v') :
    Kept base dir ∅ {node.inodeNo} v v' ∧
      Held v'.fs ⟨node.inodeNo, { node.inode with nlink := nlink }⟩ := by
  obtain ⟨hkept, htable⟩ := writeInode_kept h hheld.lt (hheld.inode ▸ ⟨rfl, rfl, rfl⟩)
    (hheld.inode ▸ ⟨rfl, rfl, rfl, rfl⟩) hok
  refine ⟨hkept, ?_, ?_⟩
  · rw [htable]
    exact Function.update_self ..
  · rw [hkept.change.beside.inodeCount]
    exact hheld.lt

/-- The body of `nextufs_path_mkdir`. -/
theorem mkdirBody_made (h : Ledger base dir v)
    (hok : mkdirBody ctx parent_path name path mode v = .ok u v') :
    ∃ parent : Node, ∃ no, Turn base dir (Function.update dir no true) (.born no) {no, parent.inodeNo} v v' ∧
      (v'.fs.inode no).isDir ∧ (v'.fs.inode no).nlink = 2 := by
  simp only [mkdirBody, bind_ok, get_ok, check_ok] at hok
  obtain ⟨parent, _, hparent, _, _, habsent, _, _, ⟨rfl, rfl⟩, no, v₁, hallocate, frag, v₂, hblock, old,
    _, hread, parent', v₃, henter, _, _, ⟨-, rfl⟩, hlink⟩ := hok
  obtain ⟨rfl, hp⟩ := mutableParent_ok hparent
  obtain ⟨rfl, -⟩ := requireAbsent_ok habsent
  obtain ⟨rfl, hrun⟩ := onFs_reads (steady_inodeRead _) hread
  obtain ⟨-, hold⟩ := inodeRead_held hrun
  have hb := allocateInode_ledger h hallocate
  obtain ⟨ino, hino⟩ : ∃ ino, ino = { newInode ctx parent (NEXTUFS_IFDIR ||| (mode &&& 0o777)) 2
      old.gen with
    size := DIRBLKSIZ
    db := Function.update (fun _ => 0) 0 frag
    blocks := UInt32.ofNat v.fs.img.sb.sectorsPerFrag } := ⟨_, rfl⟩
  rw [← hino] at henter
  have hdirtype : (NEXTUFS_IFDIR ||| (mode &&& 0o777)) &&& NEXTUFS_IFMT = NEXTUFS_IFDIR := by
    rw [or_type, (permissions_type mode).1]
    rfl
  have htype : ino.mode &&& NEXTUFS_IFMT =
      (NEXTUFS_IFDIR ||| (mode &&& 0o777)) &&& NEXTUFS_IFMT := by
    rw [hino]
    exact cleanMode_type _ _ _
  have hisdir : ino.isDir := htype.trans hdirtype
  have himg := hb.kept.change.beside.img
  obtain ⟨fs', rfl, hborn⟩ := newDirectoryBlock_newborn hb.kept.ledger.accounts.sound hblock hisdir
    (by rw [hino]) (by rw [hino]; exact fun _ _ => rfl) (by rw [hino]) (by rw [hino, himg])
  have hgen : ino.gen = (v₁.fs.inode no).gen := by
    have hgen := congrArg Inode.gen hold.inode
    rw [hino, ← hborn.keeps.inode]
    exact hgen.symm
  have hmade := enterNewInode_made h hb hborn htype hgen hp.held (hp.dir rfl) henter
  obtain ⟨hkept, -⟩ := writeNlink_kept hmade.turn.ledger hmade.held hlink
  have hdirmode : isDirMode ino.mode = true := by
    rw [isDirMode, beq_iff_eq]
    exact hisdir
  have hturn := hmade.turn.before hkept
  rw [hdirmode, hmade.no_eq, Set.union_eq_left.mpr (by simp)] at hturn
  have hinode : v'.fs.inode no = ino := (hkept.change.beside.inode no (by
    rw [hmade.no_eq]
    exact fun hmem => hmade.ne (Set.mem_singleton_iff.mp hmem).symm)).trans hmade.inode
  refine ⟨parent, no, hturn, by rw [hinode]; exact hisdir, ?_⟩
  rw [hinode, hino]
  rfl

end

/-! ## Entries -/

section
variable {base : Multiset Nat} {dir : Nat → Bool} {v v' : Volume} {ctx : WriteCtx} {u : PUnit}
  {source_path parent_path name path : List UInt8}

/-- The body of `nextufs_path_link`. -/
theorem linkBody_kept (h : Ledger base dir v)
    (hsplit : pathSplit path 4096 256 = .ok (parent_path, name))
    (hok : linkBody ctx source_path parent_path name path v = .ok u v') :
    ∃ parent source : Node, Held v.fs source ∧ ¬ source.inode.isDir ∧
      Kept base dir ∅ {source.inodeNo, parent.inodeNo} v v' ∧
      v'.fs.inode source.inodeNo = { source.inode with nlink := source.inode.nlink + 1 } := by
  simp only [linkBody, bind_ok, check_ok] at hok
  obtain ⟨parent, _, hparent, source, _, hsource, _, _, ⟨hnot, rfl⟩, _, _, habsent, _, _, ⟨-, rfl⟩, _,
    v₁, hlink, parent', v₂, hinsert, hu⟩ := hok
  obtain ⟨rfl, hp⟩ := mutableParent_ok hparent
  obtain ⟨rfl, -, hheld⟩ := nodeLookup_ok hsource
  obtain ⟨rfl, hnone⟩ := requireAbsent_ok habsent
  obtain ⟨-, rfl⟩ := pure_ok.mp hu
  have hdir := (lookup_absent hsplit hp.lookup hnone).1
  have hne := hp.held.ne_of_isDir hheld hdir hnot
  obtain ⟨hkept, hheld'⟩ := writeNlink_kept h hheld hlink
  have hkept' := insertDirent_kept hkept.ledger
    (hp.held.of_beside hkept.change.beside fun hmem => hne (Set.mem_singleton_iff.mp hmem))
    (.inr (.inl hdir)) hinsert
  refine ⟨parent, source, hheld, hnot, (hkept.trans hkept'.kept).mono (Set.union_self _).le
    (by rw [Set.singleton_union]), ?_⟩
  rw [hkept'.kept.change.beside.inode _ fun hmem => hne (Set.mem_singleton_iff.mp hmem).symm]
  exact hheld'.inode

/-- The body of `nextufs_path_unlink`: the inode dies with its last link. -/
theorem unlinkBody_turn (h : Ledger base dir v) (ht : Typed dir v)
    (hsplit : pathSplit path 4096 256 = .ok (parent_path, name))
    (hok : unlinkBody ctx parent_path name path v = .ok u v') :
    ∃ parent target, Held v.fs parent ∧ nodeLookupAs ctx path false v.fs = .ok target v.fs ∧
      Names v.fs parent name target ∧ ¬ target.inode.isDir ∧
      Turn base dir dir (if target.inode.nlink - 1 = 0 then .died target.inodeNo else .still)
        {parent.inodeNo, target.inodeNo} v v' := by
  simp only [unlinkBody, bind_ok, check_ok] at hok
  obtain ⟨parent, _, hparent, target, _, htarget, _, _, ⟨hnot, rfl⟩, _, _, hsticky, _, _, haccess,
    parent', v₁, hremove, hlinked⟩ := hok
  obtain ⟨rfl, hp⟩ := mutableParent_ok hparent
  obtain ⟨rfl, hlook, hheld⟩ := nodeLookup_ok htarget
  obtain ⟨rfl, -⟩ := onFs_status hsticky
  obtain ⟨rfl, -⟩ := onFs_status haccess
  have hnames := lookup_names hsplit hp.lookup hlook
  have hne := hp.held.ne_of_isDir hheld hnames.dir hnot
  have hkept := removeEntry_kept h hp.held (.inr (.inl hnames.dir)) hremove
  have hturn := removeLinkedInode_turn hkept.kept.ledger (hkept.kept.turn.typed ht)
    (hheld.of_beside hkept.kept.change.beside fun hmem => hne (Set.mem_singleton_iff.mp hmem).symm)
    hlinked
  exact ⟨parent, target, hp.held, hlook, hnames, hnot,
    (Turn.after hkept.kept hturn).mono (by rw [Set.singleton_union])⟩

/-- An empty directory is not the one it is removed from. -/
theorem empty_ne_parent {fs fs' : Fs} {parent target : Node} {i : Nat}
    (hheld : Held fs parent) (hnames : Names fs parent name target)
    (hempty : directoryIsEmpty target i fs = .ok true fs') (hdot : ¬ nameIsDotOrDotdot name) :
    parent.inodeNo ≠ target.inodeNo := by
  intro hno
  have hsame : parent.inode = target.inode := by
    rw [← hheld.inode, hno, hnames.held.inode]
  have hfound := hnames.found
  rw [hsame] at hfound
  exact hnames.ne_zero (empty_find hdot hempty hfound)

/-- The body of `nextufs_path_rmdir`. -/
theorem rmdirBody_turn (h : Ledger base dir v) (ht : Typed dir v)
    (hsplit : pathSplit path 4096 256 = .ok (parent_path, name))
    (hok : rmdirBody ctx parent_path name path v = .ok u v') :
    ∃ parent target, Names v.fs parent name target ∧ target.inode.isDir ∧
      Turn base dir dir (.died target.inodeNo) {parent.inodeNo, target.inodeNo} v v' := by
  simp only [rmdirBody, bind_ok, check_ok] at hok
  obtain ⟨parent, _, hparent, target, _, htarget, _, _, ⟨hdir, rfl⟩, _, _, hsticky, empty, _, hempty, _, _,
    ⟨⟨-, rfl⟩, rfl⟩, parent', v₁, hremove, parent'', v₂, hclear, hu⟩ := hok
  obtain ⟨rfl, hp⟩ := mutableParent_ok hparent
  obtain ⟨rfl, hlook, hheld⟩ := nodeLookup_ok htarget
  obtain ⟨rfl, -⟩ := onFs_status hsticky
  obtain ⟨rfl, hisempty⟩ := onFs_reads (steady_directoryIsEmpty _ _) hempty
  obtain ⟨-, rfl⟩ := pure_ok.mp hu
  have hnames := lookup_names hsplit hp.lookup hlook
  have hne := empty_ne_parent hp.held hnames hisempty (removeEntry_same hremove).2
  have hkept := removeEntry_kept h hp.held (.inr (.inl hnames.dir)) hremove
  obtain ⟨hturn, -⟩ := removeDirInode_turn hkept.kept.ledger (hkept.kept.turn.typed ht) hkept.held
    (hheld.of_beside hkept.kept.change.beside fun hmem => hne (Set.mem_singleton_iff.mp hmem).symm)
    hdir (by rw [hkept.no]; exact hne) hclear
  refine ⟨parent, target, hnames, hdir, (Turn.after hkept.kept hturn).mono ?_⟩
  rw [hkept.no, Set.singleton_union, Set.pair_comm, Set.insert_eq_of_mem (by simp)]

end

/-! ## Files -/

section
variable {base : Multiset Nat} {dir : Nat → Bool} {v v' : Volume} {ctx : WriteCtx} {u : PUnit}
  {path data : List UInt8}

theorem fileResize_kept {node node' : Node} {size : Nat} (h : Ledger base dir v)
    (hheld : Held v.fs node) (hreg : node.inode.isReg)
    (hok : onFs (fileResize node size) v = .ok node' v') : NodeKept base dir v node v' node' := by
  obtain ⟨fs', hrun, rfl⟩ := onFs_ok.mp hok
  exact Edits.kept h hheld (.inl hreg) (fileResize_edits (h.accounts.wf hheld (.inl hreg)) hrun)
    ((steady_fileResize inert_inodeWords _ _).ok hrun)

theorem fileWrite_kept {node node' : Node} {offset : Nat} (h : Ledger base dir v)
    (hheld : Held v.fs node) (hreg : node.inode.isReg)
    (hok : onFs (fileWrite node data offset) v = .ok node' v') :
    NodeKept base dir v node v' node' := by
  obtain ⟨fs', hrun, rfl⟩ := onFs_ok.mp hok
  exact Edits.kept h hheld (.inl hreg) (fileWrite_edits (h.accounts.wf hheld (.inl hreg)) hrun)
    ((steady_fileWrite inert_inodeWords _ _ _).ok hrun)

theorem onFs_bind_ok {α β : Type} {x : FsM α} {f : α → FsM β} {b : β} :
    onFs (x >>= f) v = .ok b v' ↔ ∃ a v₁, onFs x v = .ok a v₁ ∧ onFs (f a) v₁ = .ok b v' := by
  simp only [onFs_ok, bind_ok]
  constructor
  · rintro ⟨fs', ⟨a, fs₁, hx, hf⟩, rfl⟩
    exact ⟨a, _, ⟨fs₁, hx, rfl⟩, fs', hf, rfl⟩
  · rintro ⟨a, _, ⟨fs₁, hx, rfl⟩, fs', hf, rfl⟩
    exact ⟨fs', ⟨a, fs₁, hx, hf⟩, rfl⟩

theorem onFs_check_ok {p : Prop} [Decidable p] {e : Errno} :
    onFs (check p e) v = .ok u v' ↔ p ∧ v = v' := by
  simp only [onFs_ok, check_ok]
  constructor
  · rintro ⟨_, ⟨hp, rfl⟩, rfl⟩
    exact ⟨hp, rfl⟩
  · rintro ⟨hp, rfl⟩
    exact ⟨v.fs, ⟨hp, rfl⟩, rfl⟩

theorem onFs_pure_ok {α : Type} {a b : α} : onFs (pure a) v = .ok b v' ↔ a = b ∧ v = v' := by
  simp only [onFs_ok, pure_ok]
  constructor
  · rintro ⟨_, ⟨ha, rfl⟩, rfl⟩
    exact ⟨ha, rfl⟩
  · rintro ⟨ha, rfl⟩
    exact ⟨v.fs, ⟨ha, rfl⟩, rfl⟩

/-- What a call leaves that changes the file a path leads to. -/
structure FileChanged (base : Multiset Nat) (dir : Nat → Bool) (v : Volume) (node : Node)
    (v' : Volume) : Prop where
  held : Held v.fs node
  reg : node.inode.isReg
  kept : Kept base dir ∅ {node.inodeNo} v v'

/-- The body of `nextufs__rewrite_file_contents`. -/
theorem rewriteFileBody_kept {append : Bool} (h : Ledger base dir v)
    (hok : onFs (rewriteFileBody ctx path data append) v = .ok u v') :
    ∃ node, FileChanged base dir v node v' := by
  simp only [rewriteFileBody, onFs_bind_ok, onFs_check_ok] at hok
  obtain ⟨node, _, hlook, _, _, ⟨hreg, rfl⟩, _, _, hacc, hok⟩ := hok
  obtain ⟨rfl, -, hheld⟩ := nodeLookup_ok hlook
  obtain ⟨rfl, -⟩ := onFs_status hacc
  refine ⟨node, hheld, hreg, ?_⟩
  split at hok
  case isTrue =>
    simp only [onFs_bind_ok, onFs_pure_ok] at hok
    obtain ⟨_, _, ⟨rfl, rfl⟩, node', v₁, hwrite, -, rfl⟩ := hok
    exact (fileWrite_kept h hheld hreg hwrite).kept
  case isFalse =>
    simp only [onFs_bind_ok, onFs_pure_ok] at hok
    obtain ⟨node₁, v₁, hresize, node', v₂, hwrite, -, rfl⟩ := hok
    have h₁ := fileResize_kept h hheld hreg hresize
    have h₂ := fileWrite_kept h₁.kept.ledger h₁.held (h₁.kind.isReg.mpr hreg) hwrite
    exact (h₁.kept.trans h₂.kept).mono (Set.union_self _).le (by rw [h₁.no, Set.union_self])

/-- The bodies of `nextufs_path_truncate` and `nextufs_path_pwrite`. -/
theorem changeFileBody_kept {change : Node → FsM Node} (hchange : ∀ {node node' : Node} {v₁ : Volume},
      Held v.fs node → node.inode.isReg → onFs (change node) v = .ok node' v₁ →
      NodeKept base dir v node v₁ node')
    (hok : onFs (changeFileBody ctx path change) v = .ok u v') :
    ∃ node, FileChanged base dir v node v' := by
  simp only [changeFileBody, onFs_bind_ok, onFs_check_ok, onFs_pure_ok] at hok
  obtain ⟨node, _, hlook, _, _, ⟨hreg, rfl⟩, _, _, hacc, node', v₁, hrun, -, rfl⟩ := hok
  obtain ⟨rfl, -, hheld⟩ := nodeLookup_ok hlook
  obtain ⟨rfl, -⟩ := onFs_status hacc
  exact ⟨node, hheld, hreg, (hchange hheld hreg hrun).kept⟩

/-- The body of `nextufs__opened_file_update`: only a file of the handle's generation changes. -/
theorem openedFileBody_kept {ino offset : Nat} {gen : UInt32} {truncate : Bool}
    (h : Ledger base dir v)
    (hok : onFs (openedFileBody ino gen data offset truncate) v = .ok u v') :
    ∃ node, FileChanged base dir v node v' ∧ node.inodeNo = ino ∧ node.inode.gen = gen := by
  simp only [openedFileBody, onFs_bind_ok, onFs_check_ok] at hok
  obtain ⟨node, _, hget, _, _, ⟨⟨hgen, hreg⟩, rfl⟩, hok⟩ := hok
  obtain ⟨rfl, hrun⟩ := onFs_reads (steady_nodeGetByInode _) hget
  obtain ⟨-, hheld, hno⟩ := nodeGetByInode_held hrun
  refine ⟨node, ⟨hheld, hreg, ?_⟩, hno, hgen⟩
  split at hok
  case isTrue =>
    simp only [onFs_bind_ok, onFs_pure_ok] at hok
    obtain ⟨node', v₁, hresize, -, rfl⟩ := hok
    exact (fileResize_kept h hheld hreg hresize).kept
  case isFalse =>
    simp only [onFs_bind_ok, onFs_pure_ok] at hok
    obtain ⟨node', v₁, hwrite, -, rfl⟩ := hok
    exact (fileWrite_kept h hheld hreg hwrite).kept

/-! ## Attributes -/

/-- What a call leaves that writes the inode a path leads to, its data staying as they are. -/
structure Touched (base : Multiset Nat) (dir : Nat → Bool) (v : Volume) (node : Node)
    (v' : Volume) : Prop where
  held : Held v.fs node
  kept : Kept base dir ∅ {node.inodeNo} v v'
  storage : SameStorage (v.fs.inode node.inodeNo) (v'.fs.inode node.inodeNo)

theorem touched {node : Node} {ino : Inode} (h : Ledger base dir v) (hheld : Held v.fs node)
    (hok : onFs (writeInodeRaw node.inodeNo ino) v = .ok u v') (hk : SameKind node.inode ino)
    (hs : SameStorage node.inode ino) : Touched base dir v node v' := by
  obtain ⟨hkept, htable⟩ := writeInode_kept h hheld.lt (hheld.inode ▸ hk) (hheld.inode ▸ hs) hok
  refine ⟨hheld, hkept, ?_⟩
  rw [htable, Function.update_self, hheld.inode]
  exact hs

/-- The body of `nextufs_path_chmod`. -/
theorem chmodBody_touched {mode : UInt16} (h : Ledger base dir v)
    (hok : onFs (chmodBody ctx path mode) v = .ok u v') : ∃ node, Touched base dir v node v' := by
  simp only [chmodBody, onFs_bind_ok] at hok
  obtain ⟨node, _, hlook, _, _, hacc, hwrite⟩ := hok
  obtain ⟨rfl, -, hheld⟩ := nodeLookup_ok hlook
  obtain ⟨rfl, -⟩ := onFs_status hacc
  refine ⟨node, touched h hheld hwrite ⟨?_, rfl, rfl⟩ ⟨rfl, rfl, rfl, rfl⟩⟩
  dsimp only
  rw [sanitizeChmodMode, cleanMode_type, or_type, (permissions_type mode).2, UInt16.and_assoc,
    UInt16.and_self, UInt16.or_zero]

/-- The body of `nextufs_path_chown`. -/
theorem chownBody_touched {uid gid : Nat} (h : Ledger base dir v)
    (hok : onFs (chownBody ctx path uid gid) v = .ok u v') : ∃ node, Touched base dir v node v' := by
  simp only [chownBody, onFs_bind_ok] at hok
  obtain ⟨node, _, hlook, _, _, hacc, hwrite⟩ := hok
  obtain ⟨rfl, -, hheld⟩ := nodeLookup_ok hlook
  obtain ⟨rfl, -⟩ := onFs_status hacc
  refine ⟨node, touched h hheld hwrite ⟨?_, rfl, rfl⟩ ⟨rfl, rfl, rfl, rfl⟩⟩
  dsimp only
  split
  · exact type_of_mask _
  · rfl

/-- The body of `nextufs_path_utimes`. -/
theorem utimesBody_touched (h : Ledger base dir v)
    (hok : onFs (utimesBody ctx path) v = .ok u v') : ∃ node, Touched base dir v node v' := by
  simp only [utimesBody, onFs_bind_ok] at hok
  obtain ⟨node, _, hlook, _, _, hacc, hwrite⟩ := hok
  obtain ⟨rfl, -, hheld⟩ := nodeLookup_ok hlook
  obtain ⟨rfl, -⟩ := onFs_status hacc
  exact ⟨node, touched h hheld hwrite (SameKind.refl _) ⟨rfl, rfl, rfl, rfl⟩⟩

end

/-! ## Renaming -/

/-- A step that leaves the inode of `node` itself leaves all inodes. -/
theorem Held.of_same {fs fs' : Fs} {node other : Node} (h : Held fs other) (hnode : Held fs node)
    (hnode' : Held fs' node) (hb : Beside {node.inodeNo} fs fs') : Held fs' other := by
  by_cases hno : other.inodeNo = node.inodeNo
  · refine ⟨?_, by rw [hb.inodeCount]; exact h.lt⟩
    rw [hno, hnode'.inode, ← hnode.inode, ← hno, h.inode]
  · exact h.of_beside hb fun hmem => hno (Set.mem_singleton_iff.mp hmem)

section
variable {base : Multiset Nat} {dir : Nat → Bool} {v v' : Volume} {ctx : WriteCtx} {u : PUnit}
  {source source' old_parent new_parent : Node} {old_name new_name : List UInt8}

/-- `nextufs__update_directory_parent_inode`, whose inode stays as it is. -/
theorem updateParent_kept {i : Nat} (h : Ledger base dir v) (hheld : Held v.fs source)
    (hdir : source.inode.isDir)
    (hok : onFs (updateDirectoryParentInode source i) v = .ok source' v') :
    source' = source ∧ NodeKept base dir v source v' source := by
  obtain ⟨fs', hrun, rfl⟩ := onFs_ok.mp hok
  have hkept := Edits.kept h hheld (.inr (.inl hdir))
    (updateDirectoryParentInode_edits (h.accounts.wf hheld (.inr (.inl hdir))) hrun)
    ((steady_updateDirectoryParentInode inert_inodeWords _ _).ok hrun)
  simp only [updateDirectoryParentInode, bind_ok] at hrun
  obtain ⟨_, _, -, _, _, -, _, _, -, _, _, -, _, _, -, _, _, -, _, _, -, hupdate⟩ := hrun
  obtain rfl := (updateNodeTimes_ok hupdate).1
  exact ⟨rfl, hkept⟩

/-- The directory's inode, as far as it was looked up: its link count may have changed since. -/
structure Stale (fs : Fs) (node : Node) : Prop where
  lt : node.inodeNo < fs.inodeCount
  kind : SameKind (fs.inode node.inodeNo) node.inode
  storage : SameStorage (fs.inode node.inodeNo) node.inode

theorem Held.stale {fs : Fs} {node : Node} (h : Held fs node) : Stale fs node :=
  ⟨h.lt, h.inode ▸ SameKind.refl _, h.inode ▸ ⟨rfl, rfl, rfl, rfl⟩⟩

theorem moveDirectory_kept (h : Ledger base dir v) (hsource : Held v.fs source)
    (hold : Held v.fs old_parent) (hnew : Held v.fs new_parent) (hdir : source.inode.isDir)
    (hne : source.inodeNo ≠ new_parent.inodeNo) (hchanging : old_parent.inodeNo ≠ new_parent.inodeNo)
    (hok : onFs (moveDirectory source old_parent new_parent) v = .ok source' v') :
    source' = source ∧ Stale v'.fs source ∧
      Kept base dir ∅ {source.inodeNo, old_parent.inodeNo, new_parent.inodeNo} v v' := by
  simp only [moveDirectory, onFs_bind_ok, onFs_check_ok, onFs_pure_ok] at hok
  obtain ⟨source₁, v₁, hupdate, _, v₂, hless, _, _, ⟨-, rfl⟩, _, v₃, hmore, rfl, rfl⟩ := hok
  obtain ⟨rfl, h₁⟩ := updateParent_kept h hsource hdir hupdate
  have hold₁ := hold.of_same hsource h₁.held h₁.kept.change.beside
  have hnew₁ := hnew.of_same hsource h₁.held h₁.kept.change.beside
  obtain ⟨h₂, hold₂⟩ := writeNlink_kept h₁.kept.ledger hold₁ hless
  have hnew₂ := hnew₁.of_beside h₂.change.beside
    fun hmem => hchanging (Set.mem_singleton_iff.mp hmem).symm
  obtain ⟨h₃, -⟩ := writeNlink_kept h₂.ledger hnew₂ hmore
  have hstale : Stale v₂.fs source₁ := by
    by_cases hso : source₁.inodeNo = old_parent.inodeNo
    · -- the source is its own parent
      have hsame : old_parent.inode = source₁.inode := by
        rw [← hold.inode, ← hso, hsource.inode]
      refine ⟨by rw [h₂.change.beside.inodeCount]; exact h₁.held.lt, ?_, ?_⟩
      · rw [hso, hold₂.inode, ← hsame]
        exact ⟨rfl, rfl, rfl⟩
      · rw [hso, hold₂.inode, ← hsame]
        exact ⟨rfl, rfl, rfl, rfl⟩
    · exact (h₁.held.of_beside h₂.change.beside
        fun hmem => hso (Set.mem_singleton_iff.mp hmem)).stale
  have hinode := h₃.change.beside.inode _ fun hmem => hne (Set.mem_singleton_iff.mp hmem)
  refine ⟨rfl, ⟨?_, ?_, ?_⟩, ((h₁.kept.trans h₂).trans h₃).mono (by simp) ?_⟩
  · rw [h₃.change.beside.inodeCount]
    exact hstale.lt
  · rw [hinode]
    exact hstale.kind
  · rw [hinode]
    exact hstale.storage
  · rw [Set.union_assoc, Set.singleton_union, Set.singleton_union]

/-- The second half of `nextufs_path_rename`. -/
theorem moveEntry_kept (h : Ledger base dir v) (hsource : Held v.fs source)
    (hnew : Held v.fs new_parent) (hnewdir : new_parent.inode.isDir)
    (hold : old_parent.inodeNo ≠ new_parent.inodeNo → Held v.fs old_parent)
    (holddir : old_parent.inode.isDir) (hne : source.inodeNo ≠ new_parent.inodeNo)
    (hok : moveEntry source old_parent new_parent old_name new_name v = .ok u v') :
    Kept base dir ∅ {source.inodeNo, old_parent.inodeNo, new_parent.inodeNo} v v' := by
  simp only [moveEntry, bind_ok] at hok
  obtain ⟨new₁, v₁, hinsert, old₁, v₂, hremove, hok⟩ := hok
  have h₁ := insertDirent_kept h hnew (.inr (.inl hnewdir)) hinsert
  have hsource₁ := hsource.of_beside h₁.kept.change.beside
    fun hmem => hne (Set.mem_singleton_iff.mp hmem)
  -- the directory that loses the entry
  obtain ⟨old, hold_eq⟩ : ∃ old, old =
      if old_parent.inodeNo ≠ new_parent.inodeNo then old_parent else new₁ := ⟨_, rfl⟩
  rw [← hold_eq] at hremove
  have hold₁ : Held v₁.fs old ∧ old.inode.isDir ∧ old.inodeNo = old_parent.inodeNo := by
    rw [hold_eq]
    split
    case isTrue hch =>
      exact ⟨(hold hch).of_beside h₁.kept.change.beside
        fun hmem => hch (Set.mem_singleton_iff.mp hmem), holddir, rfl⟩
    case isFalse hch => exact ⟨h₁.held, h₁.kind.isDir.mpr hnewdir, h₁.no.trans (not_not.mp hch).symm⟩
  obtain ⟨hold₁, holddir₁, holdno⟩ := hold₁
  have h₂ := removeEntry_kept h₁.kept.ledger hold₁ (.inr (.inl holddir₁)) hremove
  obtain ⟨rfl, -⟩ := removeEntry_same hremove
  have hsource₂ := hsource₁.of_same hold₁ h₂.held h₂.kept.change.beside
  have hkept₂ : Kept base dir ∅ {source.inodeNo, old_parent.inodeNo, new_parent.inodeNo} v v₂ := by
    refine (h₁.kept.trans h₂.kept).mono (Set.union_self _).le ?_
    rw [holdno, Set.singleton_union, Set.pair_comm]
    exact Set.subset_insert _ _
  -- the source's inode, written at the end, may have a stale link count
  obtain ⟨source₁, v₃, hmove, hwrite⟩ : ∃ source₁ v₃, (source₁ = source ∧ Stale v₃.fs source ∧
      Kept base dir ∅ {source.inodeNo, old_parent.inodeNo, new_parent.inodeNo} v₂ v₃) ∧
      onFs (writeInodeRaw source₁.inodeNo source₁.inode) v₃ = .ok u v' := by
    split at hok
    case isTrue hcase =>
      obtain ⟨source₁, v₃, hmove, hwrite⟩ := bind_ok.mp hok
      have hnew₂ := h₁.held.of_same hold₁ h₂.held h₂.kept.change.beside
      have hmoved := moveDirectory_kept h₂.kept.ledger hsource₂ h₂.held hnew₂ hcase.1
        (by rw [h₁.no]; exact hne) (by rw [holdno, h₁.no]; exact hcase.2) hmove
      rw [holdno, h₁.no] at hmoved
      exact ⟨source₁, v₃, hmoved, hwrite⟩
    case isFalse =>
      obtain ⟨source₁, v₃, hpure, hwrite⟩ := bind_ok.mp hok
      obtain ⟨rfl, rfl⟩ := pure_ok.mp hpure
      exact ⟨source, v₂, ⟨rfl, hsource₂.stale, Kept.refl h₂.kept.ledger⟩, hwrite⟩
  obtain ⟨rfl, hstale, hkept₃⟩ := hmove
  obtain ⟨hkept₄, -⟩ := writeInode_kept hkept₃.ledger hstale.lt hstale.kind hstale.storage hwrite
  refine ((hkept₂.trans hkept₃).trans hkept₄).mono (by simp) ?_
  rw [Set.union_self]
  exact Set.union_subset subset_rfl (by simp)

/-- What becomes of a file that has the target's name. -/
theorem replaceTarget_turn {target_path new_parent_path : List UInt8} {r : Option Node}
    (h : Ledger base dir v) (ht : Typed dir v)
    (hsplit : pathSplit target_path 4096 256 = .ok (new_parent_path, new_name))
    (hp : MutableParent ctx true new_parent_path v.fs new_parent)
    (hok : replaceTarget ctx source new_parent new_name target_path v = .ok r v') :
    (r = none ∧ v = v') ∨ ∃ new₁, r = some new₁ ∧ Held v'.fs new₁ ∧
      new₁.inodeNo = new_parent.inodeNo ∧ SameKind new_parent.inode new₁.inode ∧
      (v = v' ∨ ∃ existing ev, Names v.fs new_parent new_name existing ∧
        existing.inodeNo ≠ source.inodeNo ∧ (source.inode.isDir ↔ existing.inode.isDir) ∧
        (source.inode.isDir → ∃ fs', directoryIsEmpty existing new_parent.inodeNo v.fs = .ok true fs') ∧
        Turn base dir dir ev {existing.inodeNo, new_parent.inodeNo} v v') := by
  obtain ⟨found, v₁, hattempt, hok⟩ := bind_ok.mp hok
  cases found with
  | error e =>
    obtain ⟨fs', hrun, rfl⟩ := onFs_error.mp (attempt_error.mp hattempt)
    obtain rfl : v.fs = fs' := ((steady_nodeLookupAs (f := id) ctx target_path false).error hrun).symm
    cases e <;> first
      | exact (throw_ok.mp hok).elim
      | skip
    obtain ⟨rfl, rfl⟩ := pure_ok.mp hok
    exact .inr ⟨new_parent, rfl, hp.held, rfl, SameKind.refl _, .inl rfl⟩
  | ok existing =>
    obtain ⟨rfl, hlook, hheld⟩ := nodeLookup_ok (attempt_ok.mp hattempt)
    have hnames := lookup_names hsplit hp.lookup hlook
    dsimp only at hok
    split at hok
    case isTrue =>
      obtain ⟨rfl, rfl⟩ := pure_ok.mp hok
      exact .inl ⟨rfl, rfl⟩
    case isFalse hno =>
    simp only [bind_ok, check_ok] at hok
    obtain ⟨_, _, ⟨hsame, rfl⟩, _, _, hsticky, empty, _, hread, _, _, ⟨hcond, rfl⟩, new₁, v₂, hremove,
      hok⟩ := hok
    obtain ⟨rfl, -⟩ := onFs_status hsticky
    obtain ⟨rfl, hempty⟩ := onFs_reads (steady_directoryIsEmpty _ _) hread
    have hisempty : source.inode.isDir →
        ∃ fs', directoryIsEmpty existing new_parent.inodeNo v.fs = .ok true fs' := by
      intro hdir
      rw [(hcond hdir).2] at hempty
      exact ⟨_, hempty⟩
    have hne : new_parent.inodeNo ≠ existing.inodeNo := by
      by_cases hdir : source.inode.isDir
      · obtain ⟨_, hisempty⟩ := hisempty hdir
        exact empty_ne_parent hp.held hnames hisempty (removeEntry_same hremove).2
      · exact hp.held.ne_of_isDir hheld (hp.dir rfl) fun hd => hdir (hsame.mpr hd)
    have h₂ := removeEntry_kept h hp.held (.inr (.inl (hp.dir rfl))) hremove
    have ht₂ := h₂.kept.turn.typed ht
    have hheld₂ := hheld.of_beside h₂.kept.change.beside
      fun hmem => hne (Set.mem_singleton_iff.mp hmem).symm
    refine .inr ?_
    split at hok
    case isTrue hdir =>
      obtain ⟨new₂, v₃, hclear, hr⟩ := bind_ok.mp hok
      obtain ⟨rfl, rfl⟩ := pure_ok.mp hr
      obtain ⟨hturn, hheld₃, hno₃, hkind⟩ := removeDirInode_turn h₂.kept.ledger ht₂ h₂.held hheld₂
        (hsame.mp hdir) (by rw [h₂.no]; exact hne) hclear
      refine ⟨new₂, rfl, hheld₃, hno₃.trans h₂.no, h₂.kind.trans hkind, .inr ⟨existing, _, hnames, hno,
        hsame, hisempty, (Turn.after h₂.kept hturn).mono ?_⟩⟩
      rw [h₂.no]
      simp
    case isFalse hdir =>
      obtain ⟨_, v₃, hclear, hr⟩ := bind_ok.mp hok
      obtain ⟨rfl, rfl⟩ := pure_ok.mp hr
      have hturn := removeLinkedInode_turn h₂.kept.ledger ht₂ hheld₂ hclear
      refine ⟨new₁, rfl, h₂.held.of_beside hturn.beside fun hmem => ?_, h₂.no, h₂.kind,
        .inr ⟨existing, _, hnames, hno, hsame, hisempty, (Turn.after h₂.kept hturn).mono ?_⟩⟩
      · rw [h₂.no] at hmem
        exact hne (Set.mem_singleton_iff.mp hmem)
      · rw [Set.singleton_union, Set.pair_comm]

/-- A directory is among its ancestors. -/
theorem hasAncestor_self {fs fs' : Fs} {node : Node} {b : Bool}
    (h : directoryHasAncestor node node.inodeNo fs = .ok b fs') : b = true := by
  rw [directoryHasAncestor, ancestorLoop, if_pos rfl] at h
  exact (pure_ok.mp h).1.symm

/-- The body of `nextufs_path_rename`: at most the file that had the target's name dies. -/
theorem renameBody_turn {source_path old_parent_path target_path new_parent_path : List UInt8}
    (h : Ledger base dir v) (ht : Typed dir v)
    (hfrom : pathSplit source_path 4096 256 = .ok (old_parent_path, old_name))
    (hdot : ¬ nameIsDotOrDotdot old_name)
    (hto : pathSplit target_path 4096 256 = .ok (new_parent_path, new_name))
    (hok : renameBody ctx source_path old_parent_path old_name target_path new_parent_path new_name v =
      .ok u v') :
    ∃ source old_parent new_parent ev, Names v.fs old_parent old_name source ∧
      (Turn base dir dir .still {source.inodeNo, old_parent.inodeNo, new_parent.inodeNo} v v' ∨
        ∃ existing, Names v.fs new_parent new_name existing ∧ Turn base dir dir ev
          {existing.inodeNo, source.inodeNo, old_parent.inodeNo, new_parent.inodeNo} v v') := by
  simp only [renameBody, bind_ok, check_ok] at hok
  obtain ⟨source, _, hsource, old_parent, _, hold, new_parent, _, hnew, _, _, hsticky, _, _, haccess,
    ancestor, _, hancestor, _, _, ⟨hnot, rfl⟩, r, v₁, hreplace, hok⟩ := hok
  obtain ⟨rfl, hlook, hheld⟩ := nodeLookup_ok hsource
  obtain ⟨rfl, hpo⟩ := mutableParent_ok hold
  obtain ⟨rfl, hpn⟩ := mutableParent_ok hnew
  obtain ⟨rfl, -⟩ := onFs_status hsticky
  obtain ⟨rfl, -⟩ := onFs_status haccess
  obtain ⟨rfl, hanc⟩ := onFs_reads (steady_directoryHasAncestor _ _) hancestor
  have hnames := lookup_names hfrom hpo.lookup hlook
  have hne : source.inodeNo ≠ new_parent.inodeNo := by
    intro hno
    by_cases hdir : source.inode.isDir
    · rw [hno] at hanc
      exact hnot ⟨hdir, hasAncestor_self hanc⟩
    · exact hpn.held.ne_of_isDir hheld (hpn.dir rfl) hdir hno.symm
  rcases replaceTarget_turn h ht hto hpn hreplace with ⟨rfl, rfl⟩ | ⟨new₁, rfl, hnew₁, hno₁, hkind,
    hreplaced⟩
  · obtain ⟨-, rfl⟩ := pure_ok.mp hok
    exact ⟨source, old_parent, new_parent, .still, hnames, .inl (Kept.turn (Kept.refl h))⟩
  · dsimp only at hok
    have hnewdir := hkind.isDir.mpr (hpn.dir rfl)
    rcases hreplaced with rfl | ⟨existing, ev, hexisting, hnosrc, hsame, hempty, hturn⟩
    · have hkept := moveEntry_kept h hheld hnew₁ hnewdir (fun _ => hpo.held) hnames.dir
        (by rw [hno₁]; exact hne) hok
      rw [hno₁] at hkept
      exact ⟨source, old_parent, new_parent, .still, hnames, .inl hkept.turn⟩
    · -- the file that is replaced is not the directory that loses the entry
      have hneold : old_parent.inodeNo ≠ existing.inodeNo := by
        by_cases hdir : source.inode.isDir
        · obtain ⟨_, hisempty⟩ := hempty hdir
          intro hno
          have hfound := hnames.found
          rw [← hpo.held.inode, hno, hexisting.held.inode] at hfound
          exact hnames.ne_zero (empty_find hdot hisempty hfound)
        · exact hpo.held.ne_of_isDir hexisting.held hnames.dir fun hd => hdir (hsame.mpr hd)
      have hbeside := hturn.beside
      have hkept := moveEntry_kept hturn.ledger
        (hheld.of_beside hbeside fun hmem => by
          rcases hmem with hmem | hmem
          · exact hnosrc hmem.symm
          · exact hne (Set.mem_singleton_iff.mp hmem))
        hnew₁ hnewdir (fun hch => hpo.held.of_beside hbeside fun hmem => by
          rcases hmem with hmem | hmem
          · exact hneold hmem
          · exact hch ((Set.mem_singleton_iff.mp hmem).trans hno₁.symm)) hnames.dir
        (by rw [hno₁]; exact hne) hok
      rw [hno₁] at hkept
      refine ⟨source, old_parent, new_parent, ev, hnames, .inr ⟨existing, hexisting,
        (hturn.before hkept).mono ?_⟩⟩
      refine Set.union_subset ?_ (Set.subset_insert _ _)
      rintro i (rfl | rfl) <;> simp

end

end NextUfs.Mutate
