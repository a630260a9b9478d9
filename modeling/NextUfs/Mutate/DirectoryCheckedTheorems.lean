/-
NextUfs.Mutate.DirectoryCheckedTheorems — the directory loops on any bytes.

Whatever a directory's blocks hold, the checked programs of
`Mutate.DirectoryChecked` do what the plain ones do and never fault
(`Watches`). One record is `readDirent_checked`; it says that a record in use
is as long as its name needs (`used_le`), which is why the insertion's slack is
not negative, and that every record moves a loop on.
-/
import NextUfs.Mutate.DirectoryChecked
import NextUfs.Core.DirectoryTheorems

namespace NextUfs.Mutate

open NextUfs.Core NextUfs.Lib NextUfs.Lib.ByteStore NextUfs.Lib.StateResult NextUfs.Lib.Checked

/-! ## One record -/

/-- The bytes of a buffer from `base` on. -/
def viewAt (b : Buffer) (base : Nat) : ByteStore := fun i => b.bytes (base + i)

theorem be16_viewAt (b : Buffer) (base p : Nat) : be16 (viewAt b base) p = be16 b.bytes (base + p) :=
  be16_congr fun i _ => by rw [viewAt, Nat.add_assoc]

theorem be32_viewAt (b : Buffer) (base p : Nat) : be32 (viewAt b base) p = be32 b.bytes (base + p) :=
  be32_congr fun i _ => by rw [viewAt, Nat.add_assoc]

theorem slice_viewAt (b : Buffer) (base p n : Nat) :
    slice (viewAt b base) p n = slice b.bytes (base + p) n :=
  slice_congr fun i _ => by rw [viewAt, Nat.add_assoc]

theorem viewAt_zero (b : Buffer) : viewAt b 0 = b.bytes := by
  funext i
  rw [viewAt, Nat.zero_add]

theorem direntSize_ge (n : Nat) : n + 9 ≤ direntSize n := by
  unfold direntSize
  omega

theorem nameRejected_checked {b : Buffer} {base off reclen namlen : Nat}
    (h : base + off + reclen ≤ b.size) :
    Checked.nameRejected b (base + off + 8) reclen namlen =
      .ok (decide (NameRejected (viewAt b base) off reclen namlen)) := by
  unfold Checked.nameRejected
  split
  case isTrue hshape =>
    have hrej : NameRejected (viewAt b base) off reclen namlen := by
      unfold NameRejected
      tauto
    rw [decide_eq_true hrej]
    rfl
  case isFalse hshape =>
    have hsize := direntSize_ge namlen
    simp only [not_or, Nat.not_lt, gt_iff_lt] at hshape
    rw [Buffer.load_of_le (by omega), Buffer.load_of_le (by omega)]
    have hlast : slice b.bytes (base + off + 8 + namlen) 1 =
        [viewAt b base (off + 8 + namlen)] := by
      simp [slice, viewAt, Nat.add_assoc]
    have hname : slice b.bytes (base + off + 8) namlen = slice (viewAt b base) (off + 8) namlen := by
      rw [slice_viewAt, Nat.add_assoc]
    rw [hlast, hname]
    change (if _ then Except.ok true else Except.ok ([viewAt b base (off + 8 + namlen)] != [0])) = _
    split
    case isTrue hbyte =>
      rw [decide_eq_true (by unfold NameRejected; tauto)]
    case isFalse hbyte =>
      congr 1
      rw [Bool.eq_iff_iff, bne_iff_ne, decide_eq_true_iff]
      unfold NameRejected
      have hone : [viewAt b base (off + 8 + namlen)] = [0] ↔
          viewAt b base (off + 8 + namlen) = 0 := by simp
      rw [ne_eq, hone]
      have : ¬ namlen > 255 := by omega
      have : ¬ direntSize namlen > reclen := by omega
      tauto

/-- The record check reads nothing outside its bytes. -/
theorem readDirent_checked {b : Buffer} {base size : Nat} (h : base + size ≤ b.size) (off : Nat) :
    Checked.readDirent b base size off = .ok (readDirent (viewAt b base) size off) := by
  unfold Checked.readDirent readDirent
  split
  case isTrue => rfl
  case isFalse hoff =>
    rw [Buffer.load32_of_le (by omega), Buffer.load16_of_le (by omega),
      Buffer.load16_of_le (by omega), be32_viewAt, be16_viewAt, be16_viewAt, Nat.add_assoc base,
      Nat.add_assoc base]
    change (if _ then Except.ok none else if _ then Except.ok _ else _) = _
    dsimp only
    generalize be32 b.bytes (base + off) = ino
    generalize be16 b.bytes (base + (off + 4)) = reclen
    generalize be16 b.bytes (base + (off + 6)) = namlen
    split
    case isTrue => rfl
    case isFalse hlen =>
    split
    case isTrue => rfl
    case isFalse hino =>
      rw [nameRejected_checked (by omega)]
      by_cases hrej : NameRejected (viewAt b base) off reclen namlen
      · rw [if_pos hrej, decide_eq_true hrej]
        rfl
      · have hsize := direntSize_ge namlen
        have hfit : direntSize namlen ≤ reclen := by
          unfold NameRejected at hrej
          omega
        rw [if_neg hrej, decide_eq_false hrej, Buffer.load_of_le (by omega), Nat.add_assoc base,
          slice_viewAt]
        rfl

/-- A record moves on, stays inside, and is long enough for its name. -/
theorem readDirent_some {buf : ByteStore} {size off : Nat} {ent : Dirent}
    (h : readDirent buf size off = some ent) :
    8 ≤ ent.reclen ∧ off + ent.reclen ≤ size ∧
      (ent.ino ≠ 0 → direntSize ent.namlen ≤ ent.reclen) := by
  obtain ⟨hrec, hle⟩ := readDirent_eq_some.mp h
  refine ⟨hrec.ge, hle, fun hino => ?_⟩
  have hrej := (hrec.used hino).2
  unfold NameRejected at hrej
  omega

/-- Reading a record: a bad one raises the flag and fails. -/
theorem watches_record {α : Type} {fs : Fs} {e : Errno} {b : Buffer} {base size off : Nat}
    {f : Dirent → Checked.DirM α} {r : EStateM.Result Errno Fs α} (h : base + size ≤ b.size)
    (hnone : readDirent (viewAt b base) size off = none → r = .error e fs)
    (hsome : ∀ ent, readDirent (viewAt b base) size off = some ent →
      Watches fs (f ent ⟨fs, false⟩) r) :
    Watches fs ((Checked.readRecord e b base size off >>= f) ⟨fs, false⟩) r := by
  unfold Checked.readRecord
  rw [guarded_bind (readDirent_checked h off)]
  cases hread : readDirent (viewAt b base) size off with
  | none =>
    rw [hnone hread]
    exact ⟨rfl, rfl, fun _ => rfl⟩
  | some ent => exact hsome ent hread

/-! ## Chunks -/

/-- A loaded chunk is a buffer of the bytes asked for. -/
theorem watches_chunk {α : Type} {fs : Fs} {ino : Inode} {start n : Nat}
    {f : Buffer → Checked.DirM α} {g : ByteStore → FsM α} (hle : start + n ≤ ino.size)
    (hf : ∀ b : Buffer, b.size = n → 0 < fs.img.sb.blockSize →
      Watches fs (f b ⟨fs, false⟩) (g b.bytes fs)) :
    Watches fs ((Checked.readChunk ino start n >>= f) ⟨fs, false⟩)
      ((readChunk ino start n >>= g) fs) := by
  unfold Checked.readChunk readChunk
  rw [bind_assoc, bind_assoc]
  refine watches_bind (watches_run _) fun raw u hread => ?_
  have hbs := (inodeReadData_geometry (failAs_ok.mp hread)).blockSize_ge
  obtain ⟨hlen, rfl⟩ := inodeReadData_length hle (failAs_ok.mp hread)
  exact hf ⟨raw.length, ofList raw⟩ hlen (by omega)

/-- The bounds of a chunk at the head of the rest of a directory. -/
theorem chunk_le {size remaining k bs : Nat} (hpos : k * bs + remaining = size) :
    k * bs + min remaining bs ≤ size := by
  omega

/-- What is left behind a chunk. -/
theorem chunk_rest {size remaining k bs : Nat} (hpos : k * bs + remaining = size)
    (h : remaining - min remaining bs ≠ 0) :
    (k + 1) * bs + (remaining - min remaining bs) = size := by
  rw [Nat.succ_mul]
  omega

/-! ## Iterating -/

/-- What the iteration returns for a chunk with a bad record. -/
def orRefused {α : Type} : Option α → Except Errno α
  | none => .error Errno.EIO
  | some a => .ok a

theorem orRefused_ok {α : Type} {x : Option α} {a : α} : orRefused x = .ok a ↔ x = some a := by
  cases x <;> simp [orRefused]

theorem orRefused_error {α : Type} {x : Option α} {e : Errno} :
    orRefused x = .error e ↔ x = none ∧ e = Errno.EIO := by
  cases x <;> simp [orRefused, eq_comm]

section
variable {α : Type} (cb : Nat → List UInt8 → α → α × Bool) {fs : Fs}

theorem iterateRecords_checked {b : Buffer} {size : Nat} (hb : size ≤ b.size) :
    ∀ {fuel off : Nat} (a : α), size - off ≤ fuel →
    Watches fs (Checked.iterateRecords cb b size fuel off a ⟨fs, false⟩)
      (outcome (orRefused (iterateRecords cb b.bytes size fuel off a)) fs) := by
  intro fuel
  induction fuel with
  | zero =>
    intro off a hfuel
    rw [Checked.iterateRecords, if_pos (by omega)]
    exact watches_pure
  | succ fuel ih =>
    intro off a hfuel
    rw [Checked.iterateRecords, iterateRecords]
    split
    case isTrue => exact watches_pure
    case isFalse hoff =>
      refine watches_record (by omega) (fun hread => ?_) fun ent hread => ?_
      · rw [viewAt_zero] at hread
        rw [hread]
        rfl
      · rw [viewAt_zero] at hread
        obtain ⟨hge, -, -⟩ := readDirent_some hread
        rw [hread]
        dsimp only
        split
        · split
          · exact watches_pure
          · exact ih _ (by omega)
        · exact ih _ (by omega)

theorem iterateChunks_checked {ino : Inode} : ∀ {fuel remaining k : Nat} (a : α),
    remaining ≤ fuel → (remaining ≠ 0 → k * fs.img.sb.blockSize + remaining = ino.size) →
    Watches fs (Checked.iterateChunks cb ino fuel remaining k a ⟨fs, false⟩)
      (iterateChunks cb ino fuel remaining k a fs) := by
  intro fuel
  induction fuel with
  | zero =>
    intro remaining k a hfuel _
    rw [Checked.iterateChunks, if_pos (by omega)]
    exact watches_pure
  | succ fuel ih =>
    intro remaining k a hfuel hpos
    rw [Checked.iterateChunks, iterateChunks]
    split
    case isTrue => exact watches_pure
    case isFalse h0 =>
      refine watches_bind (watches_run _) fun _ _ hget => ?_
      obtain ⟨rfl, rfl⟩ := get_ok.mp hget
      refine watches_chunk (chunk_le (hpos h0)) fun b hb hbs => ?_
      refine watches_outcome (iterateRecords_checked cb hb.ge a (by omega)) (fun r hr => ?_)
        fun e he => ?_
      · rw [orRefused_ok.mp hr]
        rcases r with ⟨a', _ | _⟩
        · exact ih a' (by omega) (chunk_rest (hpos h0))
        · exact watches_pure
      · obtain ⟨hnone, rfl⟩ := orRefused_error.mp he
        rw [hnone]
        rfl

theorem directoryIterate_checked (ino : Inode) (a : α) :
    Watches fs (Checked.directoryIterate cb ino a ⟨fs, false⟩) (directoryIterate cb ino a fs) :=
  iterateChunks_checked cb a le_rfl fun _ => by rw [Nat.zero_mul, Nat.zero_add]

end

/-! ## Inserting -/

/-- The record writer stays inside the record. -/
theorem writeDirentRaw_checked {b : Buffer} {p reclen : Nat} (h : p + reclen ≤ b.size) (ino : Nat)
    (name : List UInt8) : Checked.writeDirentRaw b p ino reclen name =
      .ok ((writeDirentRaw b.bytes p ino reclen name).map (Buffer.mk b.size)) := by
  unfold Checked.writeDirentRaw writeDirentRaw
  split
  case isTrue => rfl
  case isFalse =>
  split
  case isTrue => rfl
  case isFalse hlen =>
    have hsize := direntSize_ge name.length
    simp only [not_or, Nat.not_lt] at hlen
    rw [Buffer.store_of_le h]
    change (Buffer.store32 ⟨b.size, _⟩ p ino >>= _) = _
    rw [Buffer.store32_of_le (by dsimp only; omega)]
    change (Buffer.store16 ⟨b.size, _⟩ (p + 4) reclen >>= _) = _
    rw [Buffer.store16_of_le (by dsimp only; omega)]
    change (Buffer.store16 ⟨b.size, _⟩ (p + 6) name.length >>= _) = _
    rw [Buffer.store16_of_le (by dsimp only; omega)]
    change (Buffer.store ⟨b.size, _⟩ (p + 8) name.length _ >>= _) = _
    rw [Buffer.store_of_le (by dsimp only; omega)]
    rfl

theorem map_ok {ε α β : Type} {f : α → β} {x : Except ε α} {b : β} :
    x.map f = .ok b ↔ ∃ a, x = .ok a ∧ f a = b := by
  cases x <;> simp [Except.map]

theorem map_error {ε α β : Type} {f : α → β} {x : Except ε α} {e : ε} :
    x.map f = .error e ↔ x = .error e := by
  cases x <;> simp [Except.map]

theorem chunkFrag_same {dirnode : Node} {k frag : Nat} {e : Errno} {fs fs' : Fs}
    (h : chunkFrag dirnode k e fs = .ok frag fs') : fs = fs' := by
  simp only [chunkFrag, bind_ok, check_ok, pure_ok] at h
  obtain ⟨_, _, hfrag, _, _, ⟨-, rfl⟩, -, rfl⟩ := h
  exact (resolveInodeDataBlock_ok (failAs_ok.mp hfrag)).2

section
variable {fs : Fs}

theorem placeDirent_checked {b : Buffer} {p reclen : Nat} (h : p + reclen ≤ b.size) (ino : Nat)
    (name : List UInt8) : Watches fs (Checked.placeDirent b p ino reclen name ⟨fs, false⟩)
      (outcome ((placeDirent b.bytes p ino reclen name).map (Option.map (Buffer.mk b.size))) fs) := by
  unfold Checked.placeDirent placeDirent
  rw [guarded_bind (writeDirentRaw_checked h ino name)]
  cases writeDirentRaw b.bytes p ino reclen name with
  | error e => exact watches_throw
  | ok buf => exact watches_pure

theorem insertInChunk_checked {name : List UInt8} {ino need size : Nat} {b : Buffer}
    (hb : b.size = size) : ∀ {fuel off : Nat}, size - off ≤ fuel →
    Watches fs (Checked.insertInChunk name ino need b size fuel off ⟨fs, false⟩)
      (outcome ((insertInChunk name ino need b.bytes size fuel off).map
        (Option.map (Buffer.mk size))) fs) := by
  intro fuel
  induction fuel with
  | zero =>
    intro off hfuel
    rw [Checked.insertInChunk, if_pos (by omega)]
    exact watches_pure
  | succ fuel ih =>
    intro off hfuel
    rw [Checked.insertInChunk, insertInChunk]
    split
    case isTrue => exact watches_pure
    case isFalse hoff =>
      refine watches_record (by omega) (fun hread => ?_) fun ent hread => ?_
      · rw [viewAt_zero] at hread
        rw [hread]
        rfl
      rw [viewAt_zero] at hread
      obtain ⟨hge, hend, hused⟩ := readDirent_some hread
      rw [hread]
      dsimp only
      subst hb
      split
      case isTrue => exact placeDirent_checked hend ino name
      case isFalse =>
        -- a record in use is as long as its name needs
        have hle : (if ent.ino = 0 then 0 else direntSize ent.namlen) ≤ ent.reclen := by
          split
          · exact Nat.zero_le _
          · exact hused ‹_›
        rw [guarded_bind (sub_of_le hle)]
        generalize (if ent.ino = 0 then 0 else direntSize ent.namlen) = used at hle
        split
        case isTrue =>
          rw [guarded_bind (Buffer.store16_of_le (by omega))]
          exact placeDirent_checked (b := ⟨b.size, setBe16 b.bytes (off + 4) used⟩)
            (by dsimp only; omega) ino name
        case isFalse => exact ih (by omega)

theorem writeChunk_checked {dirnode : Node} {block : Buffer} {size frag : Nat} {t : Fs}
    (hb : block.size = size) :
    Watches fs (Checked.writeChunk dirnode block size frag ⟨t, false⟩)
      (writeChunk dirnode block.bytes size frag t) := by
  unfold Checked.writeChunk
  rw [guarded_bind (Buffer.access_of_le (by omega))]
  exact watches_run _

theorem insertInChunks_checked {dirnode : Node} {name : List UInt8} {ino need : Nat} :
    ∀ {fuel remaining k : Nat}, remaining ≤ fuel →
    (remaining ≠ 0 → k * fs.img.sb.blockSize + remaining = dirnode.inode.size) →
    Watches fs (Checked.insertInChunks dirnode name ino need fuel remaining k ⟨fs, false⟩)
      (insertInChunks dirnode name ino need fuel remaining k fs) := by
  intro fuel
  induction fuel with
  | zero =>
    intro remaining k hfuel _
    rw [Checked.insertInChunks, if_pos (by omega)]
    exact watches_pure
  | succ fuel ih =>
    intro remaining k hfuel hpos
    rw [Checked.insertInChunks, insertInChunks]
    split
    case isTrue => exact watches_pure
    case isFalse h0 =>
      refine watches_bind (watches_run _) fun _ _ hget => ?_
      obtain ⟨rfl, rfl⟩ := get_ok.mp hget
      refine watches_chunk (chunk_le (hpos h0)) fun b hb hbs => ?_
      refine watches_outcome (insertInChunk_checked hb (by omega)) (fun r hr => ?_) fun e he => ?_
      · obtain ⟨r', hr', rfl⟩ := map_ok.mp hr
        rw [hr']
        cases r' with
        | none => exact ih (by omega) (chunk_rest (hpos h0))
        | some block =>
          refine watches_bind (watches_run _) fun frag t _ => ?_
          exact watches_bind (writeChunk_checked rfl) fun dirnode' u _ => watches_pure
      · rw [map_error.mp he]
        rfl

theorem insertInNewBlock_checked {dirnode : Node} {name : List UInt8} {ino need : Nat} {t : Fs} :
    Watches fs (Checked.insertInNewBlock dirnode name ino need ⟨t, false⟩)
      (insertInNewBlock dirnode name ino need t) := by
  unfold Checked.insertInNewBlock insertInNewBlock
  refine watches_bind (watches_run _) fun _ t _ => ?_
  refine watches_bind (watches_run _) fun r u _ => ?_
  obtain ⟨dirnode', off⟩ := r
  dsimp only
  rw [guarded_bind (writeDirentRaw_checked (b := ⟨DIRBLKSIZ, fun _ => 0⟩) (by dsimp only; omega)
    ino name)]
  cases writeDirentRaw (fun _ => 0) 0 ino DIRBLKSIZ name with
  | error e => exact watches_throw
  | ok buf =>
    change Watches fs ((guarded (Buffer.access ⟨DIRBLKSIZ, buf⟩ 0 DIRBLKSIZ) >>= _) _) _
    rw [guarded_bind (Buffer.access_of_le (by dsimp only; omega))]
    exact watches_bind (watches_run _) fun _ v _ => watches_pure

theorem insertDirent_checked (dirnode : Node) (name : List UInt8) (ino : Nat) :
    Watches fs (Checked.insertDirent dirnode name ino ⟨fs, false⟩)
      (insertDirent dirnode name ino fs) := by
  unfold Checked.insertDirent insertDirent
  refine watches_bind (insertInChunks_checked le_rfl fun _ => ?_) fun r t _ => ?_
  · rw [Nat.zero_mul, Nat.zero_add]
  cases r with
  | some dirnode' => exact watches_pure
  | none => exact insertInNewBlock_checked

/-! ## Removing -/

/-- A chunk with a record dropped, as a buffer, and the inode number. -/
def dropped (size : Nat) (r : ByteStore × Nat) : Buffer × Nat := (⟨size, r.1⟩, r.2)

theorem dropDirent_checked {b : Buffer} {base size off : Nat} {prev : Option Nat} {ent : Dirent}
    (hsize : base + size ≤ b.size) (hoff : off + 8 ≤ size) :
    Watches fs ((Checked.dropDirent b base size off prev ent >>= fun r => pure (some r)) ⟨fs, false⟩)
      (outcome ((dropDirent (viewAt b base) b.bytes base size off prev ent).map
        (Option.map (dropped b.size))) fs) := by
  unfold Checked.dropDirent dropDirent
  cases prev with
  | none =>
    dsimp only
    rw [bind_assoc, guarded_bind (Buffer.store32_of_le (by omega))]
    exact watches_pure
  | some prev =>
    dsimp only
    rw [bind_assoc]
    refine watches_record hsize (fun hread => ?_) fun prev_ent hread => ?_
    · rw [hread]
      rfl
    · obtain ⟨hge, hend, -⟩ := readDirent_some hread
      rw [hread, bind_assoc, guarded_bind (Buffer.store16_of_le (by omega))]
      exact watches_pure

theorem removeInDirblk_checked {name : List UInt8} {b : Buffer} {base size : Nat}
    (hsize : base + size ≤ b.size) : ∀ {fuel off : Nat} {prev : Option Nat}, size - off ≤ fuel →
    Watches fs (Checked.removeInDirblk name b base size fuel off prev ⟨fs, false⟩)
      (outcome ((removeInDirblk name b.bytes base size fuel off prev).map
        (Option.map (dropped b.size))) fs) := by
  intro fuel
  induction fuel with
  | zero =>
    intro off prev hfuel
    rw [Checked.removeInDirblk, if_pos (by omega)]
    exact watches_pure
  | succ fuel ih =>
    intro off prev hfuel
    rw [Checked.removeInDirblk, removeInDirblk]
    have hview : (fun i => b.bytes (base + i)) = viewAt b base := rfl
    simp only [hview]
    split
    case isTrue => exact watches_pure
    case isFalse hoff =>
      refine watches_record hsize (fun hread => ?_) fun ent hread => ?_
      · rw [hread]
        rfl
      obtain ⟨hge, hend, -⟩ := readDirent_some hread
      rw [hread]
      dsimp only
      split
      case isTrue =>
        split
        case isTrue => exact watches_throw
        case isFalse => exact dropDirent_checked hsize (by omega)
      case isFalse => exact ih (by omega)

theorem removeInChunk_checked {name : List UInt8} {b : Buffer} {size : Nat} (hb : b.size = size) :
    ∀ {fuel base : Nat}, size - base ≤ fuel →
    Watches fs (Checked.removeInChunk name b size fuel base ⟨fs, false⟩)
      (outcome ((removeInChunk name b.bytes size fuel base).map
        (Option.map (dropped size))) fs) := by
  intro fuel
  induction fuel with
  | zero =>
    intro base hfuel
    rw [Checked.removeInChunk, if_pos (by omega)]
    exact watches_pure
  | succ fuel ih =>
    intro base hfuel
    rw [Checked.removeInChunk, removeInChunk]
    split
    case isTrue => exact watches_pure
    case isFalse hbase =>
      subst hb
      refine watches_outcome (removeInDirblk_checked (by omega) (by omega)) (fun r hr => ?_)
        fun e he => ?_
      · obtain ⟨r', hr', rfl⟩ := map_ok.mp hr
        dsimp only
        rw [hr']
        cases r' with
        | none => exact ih (by unfold DIRBLKSIZ; omega)
        | some p => exact watches_pure
      · dsimp only
        rw [map_error.mp he]
        rfl

theorem removeInChunks_checked {dirnode : Node} {name : List UInt8} :
    ∀ {fuel remaining k : Nat}, remaining ≤ fuel →
    (remaining ≠ 0 → k * fs.img.sb.blockSize + remaining = dirnode.inode.size) →
    Watches fs (Checked.removeInChunks dirnode name fuel remaining k ⟨fs, false⟩)
      (removeInChunks dirnode name fuel remaining k fs) := by
  intro fuel
  induction fuel with
  | zero =>
    intro remaining k hfuel _
    rw [Checked.removeInChunks, if_pos (by omega)]
    exact watches_throw
  | succ fuel ih =>
    intro remaining k hfuel hpos
    rw [Checked.removeInChunks, removeInChunks]
    split
    case isTrue => exact watches_throw
    case isFalse h0 =>
      refine watches_bind (watches_run _) fun _ _ hget => ?_
      obtain ⟨rfl, rfl⟩ := get_ok.mp hget
      refine watches_chunk (chunk_le (hpos h0)) fun b hb hbs => ?_
      refine watches_bind (watches_run _) fun frag t hfrag => ?_
      obtain rfl := chunkFrag_same hfrag
      refine watches_outcome (removeInChunk_checked hb (by omega)) (fun r hr => ?_) fun e he => ?_
      · obtain ⟨r', hr', rfl⟩ := map_ok.mp hr
        rw [hr']
        cases r' with
        | none => exact ih (by omega) (chunk_rest (hpos h0))
        | some p =>
          exact watches_bind (writeChunk_checked rfl) fun dirnode' u _ => watches_pure
      · rw [map_error.mp he]
        rfl

theorem removeDirent_checked (dirnode : Node) (name : List UInt8) :
    Watches fs (Checked.removeDirent dirnode name ⟨fs, false⟩) (removeDirent dirnode name fs) :=
  removeInChunks_checked le_rfl fun _ => by rw [Nat.zero_mul, Nat.zero_add]

/-! ## Emptiness -/

theorem emptyRecords_checked {self parent size : Nat} {b : Buffer} (hb : b.size = size) :
    ∀ {fuel off : Nat} (seen : Bool × Bool), size - off ≤ fuel →
    Watches fs (Checked.emptyRecords self parent b size fuel off seen ⟨fs, false⟩)
      (outcome (emptyRecords self parent b.bytes size fuel off seen) fs) := by
  intro fuel
  induction fuel with
  | zero =>
    intro off seen hfuel
    rw [Checked.emptyRecords, if_pos (by omega)]
    exact watches_pure
  | succ fuel ih =>
    intro off seen hfuel
    rw [Checked.emptyRecords, emptyRecords]
    split
    case isTrue => exact watches_pure
    case isFalse hoff =>
      refine watches_record (by omega) (fun hread => ?_) fun ent hread => ?_
      · rw [viewAt_zero] at hread
        rw [hread]
        rfl
      rw [viewAt_zero] at hread
      obtain ⟨hge, -, -⟩ := readDirent_some hread
      rw [hread]
      dsimp only
      split
      case isTrue => exact ih _ (by omega)
      split
      case isTrue =>
        split
        case isTrue => exact watches_pure
        case isFalse => exact ih _ (by omega)
      split
      case isTrue =>
        split
        case isTrue => exact watches_pure
        case isFalse => exact ih _ (by omega)
      case isFalse => exact watches_pure

theorem emptyChunks_checked {dirnode : Node} {parent : Nat} :
    ∀ {fuel remaining k : Nat} (seen : Bool × Bool), remaining ≤ fuel →
    (remaining ≠ 0 → k * fs.img.sb.blockSize + remaining = dirnode.inode.size) →
    Watches fs (Checked.emptyChunks dirnode parent fuel remaining k seen ⟨fs, false⟩)
      (emptyChunks dirnode parent fuel remaining k seen fs) := by
  intro fuel
  induction fuel with
  | zero =>
    intro remaining k seen hfuel _
    rw [Checked.emptyChunks, if_pos (by omega)]
    exact watches_pure
  | succ fuel ih =>
    intro remaining k seen hfuel hpos
    rw [Checked.emptyChunks, emptyChunks]
    split
    case isTrue => exact watches_pure
    case isFalse h0 =>
      refine watches_bind (watches_run _) fun _ _ hget => ?_
      obtain ⟨rfl, rfl⟩ := get_ok.mp hget
      refine watches_chunk (chunk_le (hpos h0)) fun b hb hbs => ?_
      refine watches_outcome (emptyRecords_checked hb seen (by omega)) (fun r hr => ?_)
        fun e he => ?_
      · rw [hr]
        cases r with
        | none => exact watches_pure
        | some seen' => exact ih seen' (by omega) (chunk_rest (hpos h0))
      · rw [he]
        rfl

end

/-! ## The four functions -/

/-- A checked run against a plain one: it comes to no fault, it does the same, and if it met a
malformed record the plain run ended in a refusal. -/
structure Safe {α : Type} (r : EStateM.Result (Stop Errno) (Watched Fs) α)
    (plain : EStateM.Result Errno Fs α) (refusal : EStateM.Result Errno Fs α → Prop) : Prop where
  faultless : ∀ f w, r ≠ .error (.fault f) w
  agrees : erase r = some plain
  refused : raised r = true → refusal plain

/-- An error that left the filesystem as it was. -/
def Refused {α : Type} (fs : Fs) (r : EStateM.Result Errno Fs α) : Prop := ∃ e, r = .error e fs

theorem safe_of_watches {α : Type} {fs : Fs} {r : EStateM.Result (Stop Errno) (Watched Fs) α}
    {plain : EStateM.Result Errno Fs α} (h : Watches fs r plain) : Safe r plain (Refused fs) := by
  refine ⟨fun f w hr => ?_, h.erase_eq, h.raised_eq⟩
  have herase := h.erase_eq
  rw [hr] at herase
  exact absurd herase (by simp [erase])

theorem directoryIsEmpty_safe (fs : Fs) (dirnode : Node) (parent : Nat) :
    Safe (Checked.directoryIsEmpty dirnode parent ⟨fs, false⟩) (directoryIsEmpty dirnode parent fs)
      (· = .ok false fs) := by
  by_cases hdir : dirnode.inode.isDir
  · have h := @emptyChunks_checked fs dirnode parent dirnode.inode.size dirnode.inode.size 0
      (false, false) le_rfl fun _ => by rw [Nat.zero_mul, Nat.zero_add]
    rw [show directoryIsEmpty dirnode parent = _ from if_neg (not_not_intro hdir),
      show Checked.directoryIsEmpty dirnode parent = _ from if_neg (not_not_intro hdir)]
    dsimp only
    generalize Checked.emptyChunks dirnode parent dirnode.inode.size dirnode.inode.size 0
      (false, false) ⟨fs, false⟩ = r at h
    generalize emptyChunks dirnode parent dirnode.inode.size dirnode.inode.size 0
      (false, false) fs = r' at h
    rcases r with ⟨a, w⟩ | ⟨f | e, w⟩ <;> rcases r' with ⟨b, t⟩ | ⟨e', t⟩
    case ok.ok =>
      obtain ⟨rfl, rfl⟩ := h
      exact ⟨fun f w h => (by cases h), rfl, fun h => absurd h (by simp [raised, final])⟩
    case error.fail.error =>
      obtain ⟨rfl, rfl, hflag⟩ := h
      refine ⟨fun f w h => (by cases h), rfl, fun h => ?_⟩
      rw [hflag h]
    all_goals exact h.elim
  · rw [show directoryIsEmpty dirnode parent = _ from if_pos hdir,
      show Checked.directoryIsEmpty dirnode parent = _ from if_pos hdir]
    exact ⟨fun f w h => (by cases h), rfl, fun h =>
      absurd h (by simp [raised, final, pure, EStateM.pure])⟩

/-- Whatever the blocks of a directory hold, the four loops end, stay inside their chunks and
subtract no more than there is. A malformed record is refused with an error, or by calling the
directory not empty, before anything is written. -/
theorem directory_loops_safe (fs : Fs) :
    (∀ (α : Type) (cb : Nat → List UInt8 → α → α × Bool) (dirino : Inode) (a : α),
      Safe (Checked.directoryIterate cb dirino a ⟨fs, false⟩) (directoryIterate cb dirino a fs)
        (Refused fs)) ∧
    (∀ (dirnode : Node) (name : List UInt8) (new_inode : Nat),
      Safe (Checked.insertDirent dirnode name new_inode ⟨fs, false⟩)
        (insertDirent dirnode name new_inode fs) (Refused fs)) ∧
    (∀ (dirnode : Node) (name : List UInt8),
      Safe (Checked.removeDirent dirnode name ⟨fs, false⟩) (removeDirent dirnode name fs)
        (Refused fs)) ∧
    (∀ (dirnode : Node) (parent_ino : Nat),
      Safe (Checked.directoryIsEmpty dirnode parent_ino ⟨fs, false⟩)
        (directoryIsEmpty dirnode parent_ino fs) (· = .ok false fs)) :=
  ⟨fun _ cb dirino a => safe_of_watches (directoryIterate_checked cb dirino a),
    fun dirnode name ino => safe_of_watches (insertDirent_checked dirnode name ino),
    fun dirnode name => safe_of_watches (removeDirent_checked dirnode name),
    fun dirnode parent => directoryIsEmpty_safe fs dirnode parent⟩

/-- A directory of one block, all of it zeros. -/
def zeroDirectory : Inode where
  mode := 0o040755
  nlink := 2
  uid := 0
  gid := 0
  size := 1024
  db := fun k => if k = 0 then 40 else 0
  ib := fun _ => 0
  flags := 0
  blocks := 2
  gen := 0

/-- The test for an empty directory meets its malformed record and answers without an error. -/
theorem empty_test_no_error :
    zeroDirectory.size % DIRBLKSIZ = 0 ∧
    raised (Checked.directoryIsEmpty ⟨3, zeroDirectory⟩ 2 ⟨oneGroupFs, false⟩) = true ∧
    value (directoryIsEmpty ⟨3, zeroDirectory⟩ 2 oneGroupFs) = some false := by
  decide +kernel

end NextUfs.Mutate
