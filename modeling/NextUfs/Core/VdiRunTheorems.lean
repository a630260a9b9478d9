/-
NextUfs.Core.VdiRunTheorems — a VDI file from one opening to the next.

`openWritable` gives a good handle; every call keeps what a call may keep
(`Step`), so a run of successful writes leaves an image that shows the last
byte written at every offset, in the handle and after the file is opened
again. A call that fails part-way, in any physical write and after any
prefix of its bytes, leaves a file that opens and shows what it showed
outside the range of the call, unless the handle is latched.
-/
import NextUfs.Core.VdiTheorems

namespace NextUfs.Core

open NextUfs.Lib NextUfs.Lib.ByteStore NextUfs.Lib.HostFile NextUfs.Lib.StateResult

/-! ## Opening a chain -/

/-- What opening gives is sound, and its files are none of those opened above it. -/
theorem initBackend_sound {tree : HostTree} {h : Host} {held : List FileId} :
    ∀ {fuel : Nat} {path : Path} {seen : List FileId} {s : Source},
    initBackend tree h held fuel path seen = .ok s →
      s.Sound h ∧ (∀ f ∈ s.files, f ∉ seen) ∧
        ∀ v parent, s = .diff v parent → v.file ∉ parent.files
  | 0, path, seen, s, hs => by cases hs
  | fuel + 1, path, seen, s, hs => by
    unfold initBackend at hs
    split at hs
    · cases hs
    rename_i file hfile
    split at hs
    · cases hs
    rename_i hseen
    split at hs
    · cases hs
    split at hs
    · split at hs
      · cases hs
      · cases hs
        exact ⟨trivial, fun f hf => absurd hf List.not_mem_nil, fun _ _ he => nomatch he⟩
    split at hs
    · split at hs
      · cases hs
      rename_i v hv
      have hvf : v.file = file := by
        rw [← (vdiOpen_ok.mp hv).2.1]
        rfl
      have hopen : Opened v (h v.file) := by
        unfold Opened
        rw [hvf]
        exact hv
      split at hs
      · split at hs
        · cases hs
        split at hs
        · cases hs
        rename_i parent hp
        cases hs
        obtain ⟨h₁, h₂, _⟩ := initBackend_sound hp
        refine ⟨⟨hopen, h₁⟩, fun f hf => ?_, fun u q he => ?_⟩
        · rcases List.mem_cons.mp hf with rfl | hf
          · rw [hvf]
            exact hseen
          · exact fun hin => h₂ f hf (List.mem_cons_of_mem _ hin)
        · cases he
          intro hin
          exact h₂ _ hin (hvf ▸ List.mem_cons_self)
      · cases hs
        refine ⟨hopen, fun f hf => ?_, fun _ _ he => nomatch he⟩
        rw [List.mem_singleton.mp hf, hvf]
        exact hseen
    · cases hs
      refine ⟨Nat.le_refl _, fun f hf => ?_, fun _ _ he => nomatch he⟩
      rw [List.mem_singleton.mp hf]
      exact hseen

/-- The VDI at the top of a source, with its parent. -/
def Source.handle : Source → Option (Vdi × Option Source)
  | .raw _ _ => none
  | .qcow2 _ => none
  | .vdi v => some (v, none)
  | .diff v parent => some (v, some parent)

/-- A handle just opened, with the outcomes of the physical writes to come. -/
def World.start (h : Host) (v : Vdi) (parent : Option Source) (faults : Nat → Option (Nat × Errno)) :
    World :=
  { host := h, vdi := v, parent := parent, faults := faults, clock := 0, trail := [] }

section Open

variable {tree : HostTree} {h : Host} {path : Path} {s : Source} {v : Vdi} {parent : Option Source}

theorem openWritable_good (hopen : openWritable tree h path = .ok s)
    (hs : s.handle = some (v, parent)) (faults : Nat → Option (Nat × Errno)) :
    (World.start h v parent faults).Good := by
  unfold openWritable at hopen
  split at hopen
  · cases hopen
  obtain ⟨h₁, _, h₃⟩ := initBackend_sound hopen
  cases s with
  | raw file n => cases hs
  | qcow2 flat => cases hs
  | vdi u =>
    cases hs
    exact ⟨h₁, fun q hq => nomatch hq⟩
  | diff u q =>
    cases hs
    refine ⟨h₁.1, fun q' hq => ?_⟩
    cases hq
    exact ⟨h₁.2, h₃ _ _ rfl⟩

end Open

/-! ## Opening again -/

/-- Two hosts on which only `file` differs, and there in the count, the map and the blocks. -/
structure SameHeads (file : FileId) (h h' : Host) : Prop where
  others : ∀ f, f ≠ file → h' f = h f
  header : HeaderKept (h file) (h' file)
  size : 512 ≤ (h file).size

namespace SameHeads

variable {tree : HostTree} {file : FileId} {h h' : Host}

theorem uuidMatches (hh : SameHeads file h h') (f : FileId) (uuid : List UInt8) :
    vdiUuidMatches (h' f) uuid = vdiUuidMatches (h f) uuid := by
  by_cases hf : f = file
  · subst hf
    have h₁ := hh.size
    have h₂ := hh.header.size
    unfold vdiUuidMatches
    rw [hh.header.slice (by decide) (by decide), hh.header.le32 (p := VDI_SIG_OFF) (.inl (by decide)),
      decide_eq_true (show VDI_UUID_PARENT_OFF + 16 ≤ (h' f).size by
        unfold VDI_UUID_PARENT_OFF
        omega),
      decide_eq_true (show VDI_UUID_PARENT_OFF + 16 ≤ (h f).size by
        unfold VDI_UUID_PARENT_OFF
        omega)]
  · rw [hh.others f hf]

theorem candidateMatches (hh : SameHeads file h h') (c : Path) (uuid : List UInt8) :
    candidateMatches tree h' c uuid = candidateMatches tree h c uuid := by
  unfold NextUfs.Core.candidateMatches
  split
  · rfl
  · exact hh.uuidMatches _ _

theorem searchDir (hh : SameHeads file h h') (uuid : List UInt8) :
    ∀ (names : List Path) (out : Option Path),
      vdiSearchDir tree h' uuid out names = vdiSearchDir tree h uuid out names
  | [], out => rfl
  | c :: rest, out => by
    unfold vdiSearchDir
    rw [hh.candidateMatches, hh.searchDir uuid rest out]
    split
    · cases out with
      | none => exact hh.searchDir uuid rest _
      | some p => rfl
    · rfl

theorem findParent (hh : SameHeads file h h') (path : Path) (uuid : List UInt8) :
    vdiFindParent tree h' path uuid = vdiFindParent tree h path uuid := by
  have hhere : vdiSearchHere tree h' path uuid = vdiSearchHere tree h path uuid := by
    unfold vdiSearchHere
    split
    · rfl
    · exact hh.searchDir uuid _ _
  unfold vdiFindParent
  rw [hhere]
  split
  · rfl
  split
  · rfl
  · rfl
  · rw [hh.searchDir]

theorem lockable (hh : SameHeads file h h') : lockable h' [file] = lockable h [file] := by
  funext f
  unfold NextUfs.Core.lockable
  split
  · rfl
  · rename_i hf
    rw [hh.others f fun he => hf (List.mem_singleton.mpr he)]

/-- Below the file itself, opening goes as before. -/
theorem initBackend (hh : SameHeads file h h') : ∀ (fuel : Nat) (path : Path) {seen : List FileId},
    file ∈ seen →
      initBackend tree h' [file] fuel path seen = initBackend tree h [file] fuel path seen
  | 0, path, seen, hin => rfl
  | fuel + 1, path, seen, hin => by
    unfold NextUfs.Core.initBackend
    split
    · rfl
    rename_i f hf
    split
    · rfl
    rename_i hseen
    rw [hh.others f fun he => hseen (he ▸ hin), hh.lockable]
    split
    · rfl
    split
    · rfl
    split
    · split
      · rfl
      split
      · rw [hh.findParent]
        split
        · rfl
        rw [hh.initBackend fuel _ (List.mem_cons_of_mem _ hin)]
      · rfl
    · rfl

end SameHeads

/-- A source with another handle at its top. -/
def Source.withVdi (v : Vdi) : Option Source → Source
  | none => .vdi v
  | some parent => .diff v parent

theorem Source.handle_withVdi (v : Vdi) (parent : Option Source) :
    (Source.withVdi v parent).handle = some (v, parent) := by
  cases parent <;> rfl

/-- A file that a good handle was left on opens again, to that handle and the same parent. -/
theorem openWritable_again {tree : HostTree} {h : Host} {path : Path} {s : Source} {v : Vdi}
    {parent : Option Source} {w : World} (hopen : openWritable tree h path = .ok s)
    (hs : s.handle = some (v, parent)) {faults : Nat → Option (Nat × Errno)}
    (hframe : Frame (World.start h v parent faults) w) (hw : w.Good) :
    openWritable tree w.host path = .ok (Source.withVdi w.vdi parent) := by
  obtain ⟨a, m, b, hfix⟩ := hframe.fixed
  have hopened : vdiOpen v.file (w.host v.file) = .ok w.vdi := by
    have := hw.opened
    unfold Opened World.disk at this
    rw [hframe.file] at this
    exact this
  have hheader : HeaderKept (h v.file) (w.host v.file) := by
    have := hframe.header
    unfold World.disk at this
    rw [hframe.file] at this
    exact this
  unfold openWritable at hopen ⊢
  split at hopen
  · cases hopen
  rename_i file hfile
  unfold NextUfs.Core.initBackend at hopen
  rw [hfile] at hopen
  dsimp only at hopen
  rw [if_neg List.not_mem_nil] at hopen
  split at hopen
  · cases hopen
  rename_i hsize
  split at hopen
  · split at hopen <;> cases hopen
    cases hs
  rename_i hmagic
  split at hopen
  · rename_i hsig
    split at hopen
    · cases hopen
    rename_i u hu
    have huf : u.file = file := by
      rw [← (vdiOpen_ok.mp hu).2.1]
      rfl
    -- The handle is the one opened here.
    have htop : v = u ∧ (u.imageType = VDI_TYPE_DIFF → ∃ parent_path q,
        vdiFindParent tree h path u.parentUuid = .ok parent_path ∧
        initBackend tree h [file] 31 parent_path [file] = .ok q ∧ parent = some q) ∧
        (u.imageType ≠ VDI_TYPE_DIFF → parent = none) := by
      split at hopen
      · rename_i htype
        split at hopen
        · cases hopen
        rename_i parent_path hpath
        split at hopen
        · cases hopen
        rename_i q hq
        cases hopen
        cases hs
        exact ⟨rfl, fun _ => ⟨parent_path, q, hpath, hq, rfl⟩, fun hn => absurd htype hn⟩
      · rename_i htype
        cases hopen
        cases hs
        exact ⟨rfl, fun hd => absurd hd htype, fun _ => rfl⟩
    obtain ⟨rfl, hdiff, hplain⟩ := htop
    rw [huf] at hopened hheader
    have hsame : SameHeads file h w.host :=
      ⟨fun f hf => hframe.others f (huf ▸ hf), hheader, by omega⟩
    unfold NextUfs.Core.initBackend
    rw [hfile]
    dsimp only
    rw [if_neg List.not_mem_nil, if_neg (by have := hheader.size; omega), if_neg, if_pos, hopened]
    · dsimp only
      have htype : w.vdi.imageType = v.imageType := by rw [hfix]; rfl
      have huuid : w.vdi.parentUuid = v.parentUuid := by rw [hfix]; rfl
      rw [htype, huuid]
      by_cases hd : v.imageType = VDI_TYPE_DIFF
      · obtain ⟨parent_path, q, hpath, hq, rfl⟩ := hdiff hd
        rw [if_pos hd, hsame.findParent, hpath]
        dsimp only
        rw [hsame.initBackend _ _ List.mem_cons_self, hq]
        rfl
      · rw [if_neg hd, hplain hd]
        rfl
    · rw [hheader.le32 (.inl (by decide))]
      exact hsig
    · rw [be32_congr (q := 0) (e := (h file).bytes) fun i hi => hheader.bytes _
        (by unfold VDI_UUID_PARENT_OFF; omega) (.inl (by unfold VDI_BLOCKS_ALLOC_OFF; omega))]
      exact hmagic
  · cases hopen
    cases hs

/-! ## A differencing file over a shorter parent -/

/-- A VDI of 512 bytes with two-byte blocks behind an extra byte each. -/
def smallVdi (imageType diskSize blockCount allocated entry : Nat) : HostFile :=
  [(VDI_SIG_OFF, VDI_SIGNATURE), (VDI_VERSION_OFF, 0x00010001), (VDI_HEADER_SIZE_OFF, 0x178),
    (VDI_TYPE_OFF, imageType), (VDI_BLOCKS_OFFSET_OFF, 0x1c0), (VDI_DATA_OFFSET_OFF, 0x1c8),
    (VDI_SECTOR_SIZE_OFF, 512), (VDI_DISK_SIZE_OFF, diskSize), (VDI_BLOCK_SIZE_OFF, 2),
    (VDI_BLOCK_EXTRA_OFF, 1), (VDI_BLOCK_COUNT_OFF, blockCount), (VDI_BLOCKS_ALLOC_OFF, allocated),
    (0x1c0, entry), (0x1c4, VDI_MAP_UNALLOCATED), (0x1c9, 5)].foldl
      (fun f x => f.write x.1 4 (leBytes x.2)) (ofBytes (List.replicate 512 0))

/-- A differencing file of three bytes in file 0, its one-byte parent elsewhere. -/
def smallHost : Host := fun f =>
  if f = 0 then smallVdi VDI_TYPE_DIFF 3 2 0 VDI_MAP_UNALLOCATED
  else smallVdi VDI_TYPE_DYNAMIC 1 1 1 0

def smallTree : HostTree where
  file := fun p => if p = [1] then .ok 0 else if p = [2] then .ok 1 else .error .ENOENT
  here := fun _ => .ok [[2]]
  above := fun _ => none
  qcow2 := fun _ _ => .error Errno.EIO

/-- Physical write `k` stores nothing and fails with `e`. -/
def failAt (k : Nat) (e : Errno) : Nat → Option (Nat × Errno) := fun n =>
  if n = k then some (0, e) else none

/-- The handle an opening gives. -/
def openedHandle (tree : HostTree) (h : Host) (path : Path) : Option (Vdi × Option Source) :=
  match openWritable tree h path with
  | .ok s => s.handle
  | .error _ => none

theorem exists_of_openedHandle (tree : HostTree) (h : Host) (path : Path)
    (q : Vdi × Option Source → Bool) (hq : (openedHandle tree h path).any q = true) :
    ∃ s v parent, openWritable tree h path = .ok s ∧ s.handle = some (v, parent) ∧
      q (v, parent) = true := by
  unfold openedHandle at hq
  split at hq
  · rename_i s hs
    obtain ⟨x, hx, hqx⟩ := (Option.any_eq_true _ _).mp hq
    exact ⟨s, x.1, x.2, hs, hx, hqx⟩
  · cases hq

/-! ## Runs of successful writes -/

/-- Writes in order, each a list of bytes and its offset, until one fails. -/
def vdiWrites : List (List UInt8 × Nat) → VdiM PUnit
  | [] => return ⟨⟩
  | c :: rest => do
    vdiBackendWrite c.1 c.2
    vdiWrites rest

/-- The last byte written at every offset, over `base`. -/
def written (base : ByteStore) (calls : List (List UInt8 × Nat)) : ByteStore :=
  calls.foldl (fun d c => patch d c.2 c.1.length (ofList c.1)) base

/-- A run keeps the handle good, and leaves the bytes written. -/
theorem vdiWrites_ok : ∀ (calls : List (List UInt8 × Nat)) {w w' : World}, w.Good →
    vdiWrites calls w = .ok ⟨⟩ w' →
      Frame w w' ∧ w'.Good ∧
        ∀ base : ByteStore, (∀ p < w.vdi.diskSize, w.guest p = base p) →
          ∀ p < w.vdi.diskSize, w'.guest p = written base calls p
  | [], w, w', hw, hrun => by
    obtain ⟨-, rfl⟩ := pure_ok.mp hrun
    exact ⟨.refl w, hw, fun base hb => hb⟩
  | c :: rest, w, w', hw, hrun => by
    obtain ⟨_, w₁, h₁, h₂⟩ := bind_ok.mp hrun
    have hstep := vdiBackendWrite_ends hw c.1 c.2
    rw [h₁] at hstep
    obtain ⟨hs, hf, hend, hdata⟩ := hstep
    obtain ⟨hgood, hkept⟩ := hs.kept hf
    obtain ⟨hframe, hgood', hguest⟩ := vdiWrites_ok rest hgood h₂
    refine ⟨hs.frame.trans hframe, hgood', fun base hb p hp => ?_⟩
    rw [← hs.frame.diskSize] at hp
    refine hguest (patch base c.2 c.1.length (ofList c.1)) (fun q hq => ?_) p hp
    rw [hs.frame.diskSize] at hq
    by_cases hcov : Covers c.2 c.1.length q
    · have := hdata (q - c.2) (by have := hcov.1; have := hcov.2; omega)
      rw [show c.2 + (q - c.2) = q by have := hcov.1; omega] at this
      rw [this, patch_of_mem hcov.1 hcov.2]
    · rw [hkept q hq hcov, hb q hq, patch_of_not_mem (by unfold Covers at hcov; omega)]

/-- A good handle reads what it shows. -/
theorem World.Good.reads {w : World} (hw : w.Good) {c : ByteStore}
    (hc : ∀ p < w.vdi.diskSize, w.guest p = c p) {size offset : Nat}
    (hend : offset + size ≤ w.vdi.diskSize) :
    ReadsFrom (vdiBackendRead w.host w.vdi w.backing size offset) c size offset := by
  obtain ⟨out, ho, hbytes⟩ := vdiBackendRead_ok hw.opened hw.shows hend
  exact ⟨out, ho, fun i hi => (hbytes i hi).trans (hc _ (by omega))⟩

/-- From the opening of a VDI through any successful writes: reads return the last byte written
and else the byte shown at the opening, the map is injective and in range and agrees with the
disk, the other files are untouched, and the file opens again and reads the same. -/
theorem vdi_runs {tree : HostTree} {h : Host} {path : Path} {s : Source} {v : Vdi}
    {parent : Option Source} {faults : Nat → Option (Nat × Errno)}
    {calls : List (List UInt8 × Nat)} {w : World}
    (hopen : openWritable tree h path = .ok s) (hs : s.handle = some (v, parent))
    (hrun : vdiWrites calls (World.start h v parent faults) = .ok ⟨⟩ w) :
    (∀ size offset, offset + size ≤ v.diskSize →
      ReadsFrom (vdiBackendRead w.host w.vdi w.backing size offset)
        (written (guest v (h v.file) (shown h parent)) calls) size offset) ∧
    MapOk w.vdi.blockMap w.vdi.blocksAllocated w.vdi.blockCount ∧
    countOn w.disk = w.vdi.blocksAllocated ∧
    (∀ i < w.vdi.blockCount, entryOn w.vdi w.disk i = w.vdi.blockMap i) ∧
    (∀ f, f ≠ v.file → w.host f = h f) ∧
    ∃ s' v', openWritable tree w.host path = .ok s' ∧ s'.handle = some (v', parent) ∧
      v'.diskSize = v.diskSize ∧ ∀ size offset, offset + size ≤ v.diskSize →
        ReadsFrom (vdiBackendRead w.host v' (parent.map (Source.backing w.host)) size offset)
          (written (guest v (h v.file) (shown h parent)) calls) size offset := by
  obtain ⟨hframe, hw, hguest⟩ := vdiWrites_ok calls (openWritable_good hopen hs faults) hrun
  have hshow := hguest (guest v (h v.file) (shown h parent)) fun p _ => rfl
  have hds := hframe.diskSize
  have hreads : ∀ size offset, offset + size ≤ v.diskSize →
      ReadsFrom (vdiBackendRead w.host w.vdi w.backing size offset)
        (written (guest v (h v.file) (shown h parent)) calls) size offset :=
    fun size offset hend => hw.reads (fun p hp => hshow p (hds ▸ hp)) (hds ▸ hend)
  refine ⟨hreads, hw.opened.map, hw.opened.count, fun i hi => hw.opened.entry hi, hframe.others,
    _, w.vdi, openWritable_again hopen hs hframe hw, Source.handle_withVdi _ _, hds,
    fun size offset hend => ?_⟩
  have hback : w.backing = parent.map (Source.backing w.host) := by
    unfold World.backing
    rw [hframe.parent]
    rfl
  rw [← hback]
  exact hreads size offset hend

theorem vdi_runs_small : ∃ s v parent w,
    openWritable smallTree smallHost [1] = .ok s ∧ s.handle = some (v, parent) ∧
    vdiWrites [([7, 9], 1), ([8], 0)] (World.start smallHost v parent fun _ => none) = .ok ⟨⟩ w ∧
    ReadsFrom (vdiBackendRead w.host w.vdi w.backing v.diskSize 0)
      (written (guest v (smallHost v.file) (shown smallHost parent)) [([7, 9], 1), ([8], 0)])
      v.diskSize 0 := by
  obtain ⟨s, v, parent, hs, hv, hrun⟩ := exists_of_openedHandle smallTree smallHost [1]
    (fun x => finishes
      (vdiWrites [([7, 9], 1), ([8], 0)] (World.start smallHost x.1 x.2 fun _ => none)))
    (by decide +kernel)
  obtain ⟨_, w, hw⟩ := exists_of_finishes hrun
  exact ⟨s, v, parent, w, hs, hv, hw, (vdi_runs hs hv hw).1 _ _ (by omega)⟩

/-! ## Writes that fail -/

/-- The world after calls whose results are ignored. -/
def World.afterWrites (w : World) (calls : List (List UInt8 × Nat)) : World :=
  calls.foldl (fun w c => final (vdiBackendWrite c.1 c.2 w)) w

/-- The world as a call finds it, with no physical write made yet. -/
def World.quiet (w : World) : World := { w with trail := [] }

/-- A handle is good unless it is latched. -/
def World.Live (w : World) : Prop := w.vdi.failed = false → w.Good

/-- One call, whatever becomes of it, on a handle that is not latched. -/
theorem vdiBackendWrite_final {w : World} (hw : w.Good) (data : List UInt8) (offset : Nat) :
    Step (Covers offset data.length) w (final (vdiBackendWrite data offset w)) := by
  have hends := vdiBackendWrite_ends hw data offset
  cases hr : vdiBackendWrite data offset w with
  | ok a w' =>
    rw [hr] at hends
    exact hends.1
  | error e w' =>
    rw [hr] at hends
    exact hends.1

theorem World.Live.write {w : World} (hw : w.Live) (data : List UInt8) (offset : Nat) :
    Frame w (final (vdiBackendWrite data offset w)) ∧
      (final (vdiBackendWrite data offset w)).Live := by
  cases hf : w.vdi.failed with
  | true =>
    rw [vdiBackendWrite_latched hf]
    exact ⟨.refl w, hw⟩
  | false =>
    have hs := vdiBackendWrite_final (hw hf) data offset
    exact ⟨hs.frame, fun h => (hs.kept h).1⟩

theorem World.Live.afterWrites : ∀ (calls : List (List UInt8 × Nat)) {w : World}, w.Live →
    Frame w (w.afterWrites calls) ∧ (w.afterWrites calls).Live
  | [], w, hw => ⟨.refl w, hw⟩
  | c :: rest, w, hw => by
    obtain ⟨h₁, h₂⟩ := hw.write c.1 c.2
    obtain ⟨h₃, h₄⟩ := World.Live.afterWrites rest h₂
    exact ⟨h₁.trans h₃, h₄⟩

/-- Once latched, nothing changes any more. -/
theorem afterWrites_latched {w : World} (hf : w.vdi.failed = true) :
    ∀ calls : List (List UInt8 × Nat), w.afterWrites calls = w
  | [] => rfl
  | c :: rest => by
    unfold World.afterWrites
    rw [List.foldl_cons, vdiBackendWrite_latched hf]
    exact afterWrites_latched hf rest

/-- A write in which any physical write may fail after any prefix, on a handle that has seen any
such writes since the opening. If it does not answer `EUCLEAN`, the file opens again and shows
what it showed outside the range; as long as physical writes are whole they leave a sound map on
disk; and after an `EUCLEAN` nothing changes the file any more, unless the first physical write of
the call that failed did so with `EUCLEAN` and the handle was not latched. -/
theorem vdi_write_failures {tree : HostTree} {h : Host} {path : Path} {s : Source} {v : Vdi}
    {parent : Option Source} {faults : Nat → Option (Nat × Errno)}
    {earlier : List (List UInt8 × Nat)} {data : List UInt8} {offset : Nat} {w w' : World}
    {r : EStateM.Result Errno World PUnit}
    (hopen : openWritable tree h path = .ok s) (hs : s.handle = some (v, parent))
    (hw : w = ((World.start h v parent faults).afterWrites earlier).quiet)
    (hr : r = vdiBackendWrite data offset w) (hw' : w' = final r) :
    (failure r ≠ some .EUCLEAN → ∃ s' v', openWritable tree w'.host path = .ok s' ∧
      s'.handle = some (v', parent) ∧ ∃ before after : ByteStore,
        (∀ size off, off + size ≤ v.diskSize →
          ReadsFrom (vdiBackendRead w.host w.vdi w.backing size off) before size off) ∧
        (∀ size off, off + size ≤ v.diskSize →
          ReadsFrom (vdiBackendRead w'.host v' (parent.map (Source.backing w'.host)) size off)
            after size off) ∧
        ∀ p < v.diskSize, ¬ Covers offset data.length p → after p = before p) ∧
    (w.vdi.failed = false → DiskSound v w.disk) ∧ TrailSound v w'.trail ∧
    (failure r = some .EUCLEAN → w'.vdi.failed = true ∨ ¬ Blamed w w' .EUCLEAN →
      ∀ later : List (List UInt8 × Nat), w'.afterWrites later = w') := by
  have hgood := openWritable_good hopen hs faults
  obtain ⟨hframe₀, hlive₀⟩ := World.Live.afterWrites earlier fun _ => hgood
  have hframe : Frame (World.start h v parent faults) w := by
    rw [hw]
    exact ⟨hframe₀.fixed, hframe₀.parent, hframe₀.faults, hframe₀.clock, hframe₀.others,
      hframe₀.header⟩
  have hlive : w.vdi.failed = false → w.Good := by
    rw [hw]
    exact fun hf => ⟨(hlive₀ hf).opened, (hlive₀ hf).parent⟩
  have htrail : TrailSound w.vdi w.trail := by
    rw [hw]
    trivial
  have hds := hframe.diskSize
  cases hf : w.vdi.failed with
  | true =>
    rw [vdiBackendWrite_latched hf] at hr
    subst hr hw'
    refine ⟨fun hne => absurd rfl hne, fun hn => (nomatch hn), ?_,
      fun _ _ => afterWrites_latched hf⟩
    exact (hframe.trailSound _).mp htrail
  | false =>
    have hwg := hlive hf
    have hstep := vdiBackendWrite_final hwg data offset
    have hends := vdiBackendWrite_ends hwg data offset
    rw [← hr] at hstep hends
    rw [← hw'] at hstep
    refine ⟨fun hne => ?_, fun _ => (hframe.trailSound [⟨w.disk, true⟩]).mp
      ⟨fun _ => hwg.opened.diskSound, trivial⟩ |>.1 (fun e he => by
        rw [List.mem_singleton.mp he]), (hframe.trailSound _).mp (hstep.trail htrail), ?_⟩
    · have hf' : w'.vdi.failed = false := by
        cases r with
        | ok a w₁ =>
          subst hw'
          exact hends.2.1
        | error e w₁ =>
          subst hw'
          by_contra hn
          exact hne (congrArg some (hends.2.1 (Bool.eq_true_of_not_eq_false hn)))
      obtain ⟨hwg', hguest⟩ := hstep.kept hf'
      have hall := hframe.trans hstep.frame
      have hback : w'.backing = parent.map (Source.backing w'.host) := by
        unfold World.backing
        rw [hall.parent]
        rfl
      refine ⟨_, w'.vdi, openWritable_again hopen hs hall hwg', Source.handle_withVdi _ _,
        w.guest, w'.guest, fun size off hend => hwg.reads (fun _ _ => rfl) (hds ▸ hend),
        fun size off hend => ?_, fun p hp hcov => hguest p (hds ▸ hp) hcov⟩
      rw [← hback]
      exact hwg'.reads (fun _ _ => rfl) (hall.diskSize ▸ hend)
    · intro he hb
      cases r with
      | ok a w₁ => cases he
      | error e w₁ =>
        subst hw'
        obtain rfl : e = .EUCLEAN := Option.some.inj he
        rcases hends.2.2 rfl with hf' | hb'
        · exact afterWrites_latched hf'
        · exact afterWrites_latched (hb.resolve_right fun hn => hn hb')

/-- The map entry of a new block cannot be written. -/
theorem vdi_write_failures_small : ∃ s v parent,
    openWritable smallTree smallHost [1] = .ok s ∧ s.handle = some (v, parent) ∧
    TrailSound v (final (vdiBackendWrite [7, 9] 1
      ((World.start smallHost v parent (failAt 3 Errno.EIO)).afterWrites []).quiet)).trail := by
  obtain ⟨s, v, parent, hs, hv, -⟩ := exists_of_openedHandle smallTree smallHost [1]
    (fun _ => true) (by decide +kernel)
  exact ⟨s, v, parent, hs, hv, (vdi_write_failures hs hv rfl rfl rfl).2.2.1⟩

/-- A host write that itself fails with `EUCLEAN` is passed on, the handle is not latched, and a
later write changes the file. -/
theorem vdi_euclean_passed_on : ∃ s v parent,
    openWritable smallTree smallHost [1] = .ok s ∧ s.handle = some (v, parent) ∧
    failure (vdiBackendWrite [7] 0 (World.start smallHost v parent (failAt 0 .EUCLEAN))) =
      some .EUCLEAN ∧
    (final (vdiBackendWrite [8] 0 (final
      (vdiBackendWrite [7] 0 (World.start smallHost v parent (failAt 0 .EUCLEAN)))))).disk.bytes
        0x1c9 ≠
      (final (vdiBackendWrite [7] 0
        (World.start smallHost v parent (failAt 0 .EUCLEAN)))).disk.bytes 0x1c9 := by
  obtain ⟨s, v, parent, hs, hv, hrun⟩ := exists_of_openedHandle smallTree smallHost [1]
    (fun x => decide (
      failure (vdiBackendWrite [7] 0 (World.start smallHost x.1 x.2 (failAt 0 .EUCLEAN))) =
        some .EUCLEAN ∧
      (final (vdiBackendWrite [8] 0 (final (vdiBackendWrite [7] 0
        (World.start smallHost x.1 x.2 (failAt 0 .EUCLEAN)))))).disk.bytes 0x1c9 ≠
        (final (vdiBackendWrite [7] 0
          (World.start smallHost x.1 x.2 (failAt 0 .EUCLEAN)))).disk.bytes 0x1c9))
    (by decide +kernel)
  exact ⟨s, v, parent, hs, hv, of_decide_eq_true hrun⟩

end NextUfs.Core
