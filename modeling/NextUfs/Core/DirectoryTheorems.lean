/-
NextUfs.Core.DirectoryTheorems — directories as lists of records.

`Records` says that a stretch of bytes is tiled by records the reader accepts.
A record lies within one 1024-byte directory block and depends on its own bytes
alone, so a tiling can be cut at any block boundary (`Records.split`), moved to
another base (`records_shift`) and put together again; the writers change a few
bytes of one block, and the rest of the tiling stands. `directoryIterate_eq`
says that the iteration goes through the entries of the tiling, in order.
-/
import NextUfs.Core.Directory
import NextUfs.Core.FileMapTheorems

namespace NextUfs.Core

open NextUfs.Lib NextUfs.Lib.ByteStore NextUfs.Lib.StateResult

/-! ## One record -/

/-- The bytes at `off` are a record the reader accepts, if it fits. -/
structure RecordAt (buf : ByteStore) (off : Nat) (r : Dirent) : Prop where
  ino : be32 buf off = r.ino
  reclen : be16 buf (off + 4) = r.reclen
  namlen : be16 buf (off + 6) = r.namlen
  ge : 8 ≤ r.reclen
  mod : r.reclen % 4 = 0
  within : r.reclen ≤ DIRBLKSIZ - off % DIRBLKSIZ
  unused : r.ino = 0 → r.name = []
  used : r.ino ≠ 0 → r.name = slice buf (off + 8) r.namlen ∧ ¬ NameRejected buf off r.reclen r.namlen

theorem readDirent_eq_some {buf : ByteStore} {size off : Nat} {r : Dirent} :
    readDirent buf size off = some r ↔ RecordAt buf off r ∧ off + r.reclen ≤ size := by
  unfold readDirent
  constructor
  · intro h
    split at h
    case isTrue => cases h
    case isFalse hoff =>
      dsimp only at h
      split at h
      case isTrue => cases h
      case isFalse hlen =>
        obtain ⟨hge, hmod, hfit, hwithin⟩ : 8 ≤ be16 buf (off + 4) ∧ be16 buf (off + 4) % 4 = 0 ∧
            off + be16 buf (off + 4) ≤ size ∧
              be16 buf (off + 4) ≤ DIRBLKSIZ - off % DIRBLKSIZ := by omega
        split at h
        case isTrue hino =>
          cases h
          exact ⟨⟨hino, rfl, rfl, hge, hmod, hwithin, fun _ => rfl, fun h => absurd rfl h⟩, hfit⟩
        case isFalse hino =>
          split at h
          case isTrue => cases h
          case isFalse hname =>
            cases h
            exact ⟨⟨rfl, rfl, rfl, hge, hmod, hwithin, fun h => absurd h hino,
              fun _ => ⟨rfl, hname⟩⟩, hfit⟩
  · rintro ⟨h, hle⟩
    have hge := h.ge
    have hmod := h.mod
    have hwithin := h.within
    rw [if_neg (by omega)]
    simp only [h.ino, h.reclen, h.namlen]
    rw [if_neg (by omega)]
    split
    case isTrue hino =>
      rw [← h.unused hino]
      cases r
      cases hino
      rfl
    case isFalse hino =>
      obtain ⟨hname, hok⟩ := h.used hino
      rw [if_neg hok, ← hname]

theorem slice_congr {d e : ByteStore} {p q n : Nat} (h : ∀ i < n, d (p + i) = e (q + i)) :
    slice d p n = slice e q n :=
  List.map_congr_left fun i hi => h i (List.mem_range.mp hi)

/-- The name of a record in use lies within the record. -/
theorem RecordAt.name_le {buf : ByteStore} {off : Nat} {r : Dirent} (h : RecordAt buf off r)
    (hr : r.ino ≠ 0) : direntSize r.namlen ≤ r.reclen := by
  have hok := (h.used hr).2
  simp only [NameRejected, not_or] at hok
  omega

/-- A record depends on its own bytes, and where it is in its block. -/
theorem RecordAt.congr {buf buf' : ByteStore} {off off' : Nat} {r : Dirent}
    (h : RecordAt buf off r) (hmod : off' % DIRBLKSIZ = off % DIRBLKSIZ)
    (hb : ∀ i < r.reclen, buf' (off' + i) = buf (off + i)) : RecordAt buf' off' r := by
  have hge := h.ge
  have hword : ∀ k i, k + i < 8 → buf' (off' + k + i) = buf (off + k + i) := by
    intro k i hi
    rw [Nat.add_assoc, Nat.add_assoc]
    exact hb _ (by omega)
  have hino := be32_congr fun i hi => hword 0 i (by omega)
  have hreclen := be16_congr fun i hi => hword 4 i (by omega)
  have hnamlen := be16_congr fun i hi => hword 6 i (by omega)
  refine ⟨hino.trans h.ino, hreclen.trans h.reclen, hnamlen.trans h.namlen, hge, h.mod,
    by rw [hmod]; exact h.within, h.unused, fun hr => ?_⟩
  obtain ⟨hname, hok⟩ := h.used hr
  have hle := h.name_le hr
  unfold direntSize at hle
  have hbytes : ∀ i < r.namlen + 1, buf' (off' + 8 + i) = buf (off + 8 + i) := by
    intro i hi
    rw [Nat.add_assoc, Nat.add_assoc]
    exact hb _ (by omega)
  have hslice : slice buf' (off' + 8) r.namlen = slice buf (off + 8) r.namlen :=
    slice_congr fun i hi => hbytes i (by omega)
  refine ⟨hname.trans hslice.symm, ?_⟩
  unfold NameRejected at hok ⊢
  rwa [hslice, hbytes r.namlen (by omega)]

/-! ## Tilings -/

/-- The bytes `[off, endpos)` are tiled by records the reader accepts. -/
def Records (buf : ByteStore) : Nat → List Dirent → Nat → Prop
  | off, [], endpos => off = endpos
  | off, r :: rs, endpos =>
    readDirent buf endpos off = some r ∧ Records buf (off + r.reclen) rs endpos

/-- What a record contributes to the directory. -/
def Dirent.entry (r : Dirent) : Option (List UInt8 × Nat) :=
  if r.ino = 0 then none else some (r.name, r.ino)

/-- The entries of a tiling. -/
def entries (rs : List Dirent) : List (List UInt8 × Nat) := rs.filterMap Dirent.entry

@[simp] theorem entries_nil : entries [] = [] := rfl

@[simp] theorem entries_append (rs ss : List Dirent) : entries (rs ++ ss) = entries rs ++ entries ss :=
  List.filterMap_append ..

theorem entries_used {r : Dirent} (h : r.ino ≠ 0) (rs : List Dirent) :
    entries (r :: rs) = (r.name, r.ino) :: entries rs := by
  simp [entries, Dirent.entry, h]

theorem entries_unused {r : Dirent} (h : r.ino = 0) (rs : List Dirent) :
    entries (r :: rs) = entries rs := by
  simp [entries, Dirent.entry, h]

section
variable {buf buf' : ByteStore} {off endpos : Nat} {r : Dirent} {rs ss : List Dirent}

theorem Records.le (h : Records buf off rs endpos) : off ≤ endpos := by
  induction rs generalizing off with
  | nil => exact h.le
  | cons r rs ih =>
    have := ih h.2
    omega

theorem records_cons : Records buf off (r :: rs) endpos ↔
    RecordAt buf off r ∧ Records buf (off + r.reclen) rs endpos := by
  constructor
  · rintro ⟨hr, hrs⟩
    exact ⟨(readDirent_eq_some.mp hr).1, hrs⟩
  · rintro ⟨hr, hrs⟩
    exact ⟨readDirent_eq_some.mpr ⟨hr, hrs.le⟩, hrs⟩

/-- The reader accepts the head of a tiling in any buffer that holds it. -/
theorem Records.read (h : Records buf off (r :: rs) endpos) {size : Nat} (hle : endpos ≤ size) :
    readDirent buf size off = some r :=
  readDirent_eq_some.mpr ⟨(records_cons.mp h).1, h.2.le.trans hle⟩

theorem Records.lt (h : Records buf off (r :: rs) endpos) : off + 8 ≤ endpos := by
  have hle := h.2.le
  have hge := (records_cons.mp h).1.ge
  omega

theorem Records.eq_nil (h : Records buf off rs endpos) (hle : endpos ≤ off) : rs = [] := by
  cases rs with
  | nil => rfl
  | cons r rs =>
    have := h.lt
    omega

theorem records_append : Records buf off (rs ++ ss) endpos ↔
    ∃ m, Records buf off rs m ∧ Records buf m ss endpos := by
  induction rs generalizing off with
  | nil =>
    constructor
    · exact fun h => ⟨off, rfl, h⟩
    · rintro ⟨m, rfl, h⟩
      exact h
  | cons r rs ih =>
    rw [List.cons_append, records_cons, ih]
    constructor
    · rintro ⟨hr, m, hrs, hss⟩
      exact ⟨m, records_cons.mpr ⟨hr, hrs⟩, hss⟩
    · rintro ⟨m, hrs, hss⟩
      obtain ⟨hr, hrs⟩ := records_cons.mp hrs
      exact ⟨hr, m, hrs, hss⟩

/-- A tiling depends on its own bytes; it may be moved by whole directory blocks. -/
theorem Records.congr {off' endpos' : Nat} (h : Records buf off rs endpos)
    (hmod : off' % DIRBLKSIZ = off % DIRBLKSIZ) (hend : off' + endpos = off + endpos')
    (hb : ∀ i, off + i < endpos → buf' (off' + i) = buf (off + i)) :
    Records buf' off' rs endpos' := by
  induction rs generalizing off off' with
  | nil =>
    have heq : off = endpos := h
    change off' = endpos'
    omega
  | cons r rs ih =>
    obtain ⟨hr, hrs⟩ := records_cons.mp h
    have hle := hrs.le
    refine records_cons.mpr ⟨hr.congr hmod fun i hi => hb i (by omega), ih hrs ?_ (by omega) ?_⟩
    · rw [Nat.add_mod, hmod, ← Nat.add_mod]
    · intro i hi
      rw [Nat.add_assoc, Nat.add_assoc]
      exact hb _ (by omega)

/-- Bytes outside a tiling do not matter. -/
theorem Records.of_same (h : Records buf off rs endpos)
    (hb : ∀ p, off ≤ p → p < endpos → buf' p = buf p) : Records buf' off rs endpos :=
  h.congr rfl rfl fun _ hi => hb _ (Nat.le_add_right ..) hi

/-- The tiling of a stretch is unique. -/
theorem Records.unique (h : Records buf off rs endpos) (h' : Records buf off ss endpos) :
    rs = ss := by
  induction rs generalizing off ss with
  | nil => exact (h'.eq_nil h.ge).symm
  | cons r rs ih =>
    cases ss with
    | nil => exact absurd (h.eq_nil h'.ge) (by simp)
    | cons s ss =>
      obtain rfl : r = s := Option.some.inj (h.1.symm.trans h'.1)
      rw [ih h.2 h'.2]

theorem Records.endpos_unique {endpos' : Nat} (h : Records buf off rs endpos)
    (h' : Records buf off rs endpos') : endpos = endpos' := by
  induction rs generalizing off with
  | nil => exact h.symm.trans h'
  | cons r rs ih => exact ih h.2 h'.2

/-- A record ends before the next block does. -/
theorem RecordAt.end_le {B : Nat} (h : RecordAt buf off r) (hB : B % DIRBLKSIZ = 0) (hlt : off < B) :
    off + r.reclen ≤ B := by
  have hw := h.within
  unfold DIRBLKSIZ at *
  omega

/-- A tiling can be cut where a directory block starts. -/
theorem Records.split {B : Nat} (h : Records buf off rs endpos) (hB : B % DIRBLKSIZ = 0)
    (hlo : off ≤ B) (hhi : B ≤ endpos) :
    ∃ rs₁ rs₂, rs = rs₁ ++ rs₂ ∧ Records buf off rs₁ B ∧ Records buf B rs₂ endpos := by
  induction rs generalizing off with
  | nil =>
    have heq : off = endpos := h
    obtain rfl : B = off := by omega
    exact ⟨[], [], rfl, rfl, h⟩
  | cons r rs ih =>
    rcases Nat.eq_or_lt_of_le hlo with rfl | hlt
    · exact ⟨[], r :: rs, rfl, rfl, h⟩
    obtain ⟨hr, hrs⟩ := records_cons.mp h
    obtain ⟨rs₁, rs₂, rfl, h₁, h₂⟩ := ih hrs (hr.end_le hB hlt)
    exact ⟨r :: rs₁, rs₂, rfl, records_cons.mpr ⟨hr, h₁⟩, h₂⟩

/-- The same tiling, seen from a base. -/
theorem records_shift {base : Nat} (hbase : base % DIRBLKSIZ = 0) :
    Records (fun i => buf (base + i)) off rs endpos ↔
      Records buf (base + off) rs (base + endpos) := by
  have hmod : (base + off) % DIRBLKSIZ = off % DIRBLKSIZ := by
    rw [Nat.add_mod, hbase, Nat.zero_add, Nat.mod_mod]
  constructor
  · exact fun h => h.congr hmod (by omega) fun i _ => by rw [Nat.add_assoc]
  · exact fun h => h.congr hmod.symm (by omega) fun i _ => by rw [Nat.add_assoc]

end

/-! ## The content of a directory -/

/-- The content of a directory is well formed: whole directory blocks, each tiled exactly by
records the reader accepts, names pairwise distinct. -/
structure DirWf (c : ByteStore) (size : Nat) : Prop where
  whole : size % DIRBLKSIZ = 0
  tiled : ∀ b, b * DIRBLKSIZ < size →
    ∃ rs, Records (fun i => c (b * DIRBLKSIZ + i)) 0 rs DIRBLKSIZ
  distinct : ∀ rs, Records c 0 rs size → ((entries rs).map Prod.fst).Nodup

theorem records_of_blocks {c : ByteStore} : ∀ n, (∀ b < n, ∃ rs,
    Records (fun i => c (b * DIRBLKSIZ + i)) 0 rs DIRBLKSIZ) →
    ∃ rs, Records c 0 rs (n * DIRBLKSIZ)
  | 0, _ => ⟨[], (Nat.zero_mul _).symm⟩
  | n + 1, h => by
      obtain ⟨rs, hrs⟩ := records_of_blocks n fun b hb => h b (by omega)
      obtain ⟨ss, hss⟩ := h n (Nat.lt_succ_self n)
      refine ⟨rs ++ ss, records_append.mpr ⟨_, hrs, ?_⟩⟩
      rw [records_shift (Nat.mul_mod_left ..), Nat.add_zero] at hss
      rwa [Nat.succ_mul]

/-- The blocks of a well-formed directory, as one tiling. -/
theorem DirWf.records {c : ByteStore} {size : Nat} (h : DirWf c size) :
    ∃ rs, Records c 0 rs size ∧ ((entries rs).map Prod.fst).Nodup := by
  have hsize : size / DIRBLKSIZ * DIRBLKSIZ = size := Nat.div_mul_cancel (Nat.dvd_of_mod_eq_zero h.whole)
  obtain ⟨rs, hrs⟩ := records_of_blocks (c := c) (size / DIRBLKSIZ) fun b hb => h.tiled b <| by
    have := Nat.mul_lt_mul_of_pos_right hb (show 0 < DIRBLKSIZ by decide)
    omega
  rw [hsize] at hrs
  exact ⟨rs, hrs, h.distinct rs hrs⟩

theorem DirWf.of_records {c : ByteStore} {size : Nat} {rs : List Dirent}
    (hwhole : size % DIRBLKSIZ = 0) (h : Records c 0 rs size)
    (hnd : ((entries rs).map Prod.fst).Nodup) : DirWf c size := by
  refine ⟨hwhole, fun b hb => ?_, fun ss hss => ?_⟩
  · have hB : b * DIRBLKSIZ % DIRBLKSIZ = 0 := Nat.mul_mod_left ..
    obtain ⟨-, rs₂, -, -, h₂⟩ := h.split hB (Nat.zero_le _) hb.le
    have hB' : (b * DIRBLKSIZ + DIRBLKSIZ) % DIRBLKSIZ = 0 := by
      rw [Nat.add_mod_right]
      exact hB
    have hle : b * DIRBLKSIZ + DIRBLKSIZ ≤ size := by
      unfold DIRBLKSIZ at *
      omega
    obtain ⟨rs₁, -, -, h₁, -⟩ := h₂.split hB' (Nat.le_add_right ..) hle
    refine ⟨rs₁, (records_shift hB).mpr ?_⟩
    rwa [Nat.add_zero]
  · rw [← h.unique hss]
    exact hnd

/-! ## Iterating -/

section
variable {α : Type} (cb : Nat → List UInt8 → α → α × Bool)

/-- The callback on one entry after the other, until it says to stop. -/
def foldStop : List (List UInt8 × Nat) → α → α × Bool
  | [], a => (a, false)
  | (name, ino) :: es, a =>
    if (cb ino name a).2 then ((cb ino name a).1, true) else foldStop es (cb ino name a).1

theorem foldStop_append (l₁ l₂ : List (List UInt8 × Nat)) (a : α) :
    foldStop cb (l₁ ++ l₂) a =
      if (foldStop cb l₁ a).2 then foldStop cb l₁ a else foldStop cb l₂ (foldStop cb l₁ a).1 := by
  induction l₁ generalizing a with
  | nil => rfl
  | cons e l₁ ih =>
    obtain ⟨name, ino⟩ := e
    simp only [List.cons_append, foldStop]
    split
    · rfl
    · exact ih _

theorem iterateRecords_eq {buf : ByteStore} {size : Nat} : ∀ {fuel off : Nat} {rs : List Dirent}
    {a : α}, size ≤ off + fuel → Records buf off rs size →
      iterateRecords cb buf size fuel off a = some (foldStop cb (entries rs) a) := by
  intro fuel
  induction fuel with
  | zero =>
    intro off rs a hfuel h
    rw [h.eq_nil hfuel]
    rfl
  | succ fuel ih =>
    intro off rs a hfuel h
    rw [iterateRecords]
    cases rs with
    | nil =>
      have heq : off = size := h
      rw [if_pos heq.ge]
      rfl
    | cons r rs =>
      have hlt := h.lt
      have hr := (records_cons.mp h).1
      have hge := hr.ge
      rw [if_neg (by omega), h.read le_rfl]
      by_cases hino : r.ino = 0
      · simp only [hino, ne_eq, not_true_eq_false, false_and, if_false]
        rw [ih (by omega) h.2, entries_unused hino]
      · have hname : r.namlen ≠ 0 := by
          have hok := (hr.used hino).2
          simp only [NameRejected, not_or] at hok
          exact hok.1
        simp only [ne_eq, hino, hname, not_false_eq_true, and_self, if_true]
        rw [entries_used hino, foldStop]
        split
        · rfl
        · exact ih (by omega) h.2

end

/-- A file that can be read from one end to the other. -/
structure Fs.Readable (fs : Fs) (ino : Inode) : Prop where
  sound : fs.Sound
  slots : ∃ keep, fs.SlotsGood keep fs.bytes ino
  fits : ino.size ≤ fs.img.sb.slotBase 3 * fs.img.sb.blockSize
  reach : fs.InReach ino ino.size

theorem readChunk_eq {fs : Fs} {ino : Inode} (h : fs.Readable ino) {start n : Nat}
    (hle : start + n ≤ ino.size) :
    readChunk ino start n fs = .ok (ofList (fs.img.sb.fileBytes fs.bytes ino start n)) fs := by
  obtain ⟨keep, hslots⟩ := h.slots
  have hread := inodeReadData_eq h.sound hslots h.fits h.reach start n
  rw [show min (ino.size - start) n = n by omega] at hread
  exact bind_ok.mpr ⟨_, fs, failAs_ok.mpr hread, rfl⟩

/-! ## Reading any file at all -/

theorem readEntryChecked_ok {fs fs' : Fs} {p e v : Nat} (h : readEntryChecked p e fs = .ok v fs') :
    fs = fs' := by
  unfold readEntryChecked at h
  cases hread : readIndirectEntry p e fs with
  | ok w t =>
    rw [hread] at h
    cases h
    exact (readIndirectEntry_ok hread).2.2
  | error e t =>
    rw [hread] at h
    cases h

theorem resolveIndirectBlockFrag_same : ∀ {l p i v : Nat} {fs fs' : Fs},
    resolveIndirectBlockFrag l p i fs = .ok v fs' → fs = fs'
  | 0, _, _, _, _, _, h => by simp [resolveIndirectBlockFrag, throw_ok] at h
  | l + 1, p, i, v, fs, fs', h => by
    rw [resolveIndirectBlockFrag] at h
    split at h
    · exact (pure_ok.mp h).2
    simp only [bind_ok, get_ok] at h
    obtain ⟨_, _, ⟨rfl, rfl⟩, next, _, hentry, h⟩ := h
    obtain rfl := readEntryChecked_ok hentry
    split at h
    · exact (pure_ok.mp h).2
    split at h
    · exact (pure_ok.mp h).2
    · exact resolveIndirectBlockFrag_same h

theorem resolveFileBlockFrag_same {ino : Inode} {k v : Nat} {fs fs' : Fs}
    (h : resolveFileBlockFrag ino k fs = .ok v fs') : fs = fs' := by
  simp only [resolveFileBlockFrag, bind_ok, get_ok] at h
  obtain ⟨_, _, ⟨rfl, rfl⟩, h⟩ := h
  split at h
  · exact (pure_ok.mp h).2
  · cases hslot : fs.img.sb.indirectSlot k with
    | none =>
      rw [hslot] at h
      exact absurd h (by simp [throw_ok])
    | some p =>
      rw [hslot] at h
      exact resolveIndirectBlockFrag_same h

/-- Reading changes nothing and returns as many bytes as it was asked for. -/
theorem readChunks_length {ino : Inode} : ∀ {fuel k off n : Nat} {l : List UInt8} {fs fs' : Fs},
    n ≤ fuel → off < fs.img.sb.blockSize → readChunks ino fuel k off n fs = .ok l fs' →
    l.length = n ∧ fs = fs'
  | 0, k, off, n, l, fs, fs', hn, _, h => by
    obtain ⟨rfl, rfl⟩ := pure_ok.mp h
    exact ⟨(Nat.le_zero.mp hn).symm, rfl⟩
  | fuel + 1, k, off, n, l, fs, fs', hn, hoff, h => by
    rw [readChunks] at h
    split at h
    case isTrue h0 =>
      obtain ⟨rfl, rfl⟩ := pure_ok.mp h
      exact ⟨h0.symm, rfl⟩
    simp only [bind_ok, get_ok] at h
    obtain ⟨_, _, ⟨rfl, rfl⟩, frag, _, hfrag, h⟩ := h
    obtain rfl := resolveFileBlockFrag_same hfrag
    split at h
    · simp only [bind_ok, pure_ok] at h
      obtain ⟨rest, _, hrest, rfl, rfl⟩ := h
      obtain ⟨hlen, rfl⟩ := readChunks_length (by omega) (by omega) hrest
      refine ⟨?_, rfl⟩
      rw [List.length_append, List.length_replicate, hlen]
      omega
    · simp only [bind_ok, check_ok, pure_ok] at h
      obtain ⟨_, _, ⟨-, rfl⟩, buf, _, hbuf, rest, _, hrest, rfl, rfl⟩ := h
      obtain ⟨-, -, rfl⟩ := readSlice_ok hbuf
      obtain ⟨hlen, rfl⟩ := readChunks_length (by omega) (by omega) hrest
      refine ⟨?_, rfl⟩
      rw [List.length_append, length_slice, hlen]
      omega

theorem inodeReadData_length {ino : Inode} {start n : Nat} {l : List UInt8} {fs fs' : Fs}
    (hle : start + n ≤ ino.size) (h : inodeReadData ino start n fs = .ok l fs') :
    l.length = n ∧ fs = fs' := by
  simp only [inodeReadData, bind_ok, get_ok, check_ok] at h
  obtain ⟨_, _, ⟨rfl, rfl⟩, _, _, ⟨hvalid, rfl⟩, h⟩ := h
  have hbs := (Image.geometry hvalid).blockSize_ge
  split at h
  case isTrue hge =>
    obtain ⟨rfl, rfl⟩ := pure_ok.mp h
    exact ⟨(show 0 = n by omega), rfl⟩
  case isFalse =>
    rw [show min (ino.size - start) n = n by omega] at h
    exact readChunks_length le_rfl (Nat.mod_lt _ (by omega)) h

/-- Nothing is read through a geometry that was not checked. -/
theorem inodeReadData_geometry {ino : Inode} {start n : Nat} {l : List UInt8} {fs fs' : Fs}
    (h : inodeReadData ino start n fs = .ok l fs') : Geometry fs.img.sb := by
  simp only [inodeReadData, bind_ok, get_ok, check_ok] at h
  obtain ⟨_, _, ⟨rfl, rfl⟩, _, _, ⟨hvalid, -⟩, -⟩ := h
  exact Image.geometry hvalid

/-- A loaded chunk holds the file's bytes. -/
theorem ofList_fileBytes {sb : Superblock} {b : ByteStore} {ino : Inode} {start n i : Nat}
    (hi : i < n) : ofList (sb.fileBytes b ino start n) i = sb.fileByte b ino (start + i) := by
  simp [ofList, Superblock.fileBytes, hi]

/-- The tiling of a loaded chunk. -/
theorem records_chunk {sb : Superblock} {b : ByteStore} {ino : Inode} {start n : Nat}
    {rs : List Dirent} (hstart : start % DIRBLKSIZ = 0) :
    Records (ofList (sb.fileBytes b ino start n)) 0 rs n ↔
      Records (sb.fileByte b ino) start rs (start + n) := by
  have hshift := @records_shift (sb.fileByte b ino) 0 n rs start hstart
  rw [Nat.add_zero] at hshift
  rw [← hshift]
  constructor
  · refine fun h => h.of_same fun p _ hp => (ofList_fileBytes hp).symm
  · refine fun h => h.of_same fun p _ hp => ofList_fileBytes hp

/-- Where the chunks of a directory start and end. -/
theorem chunk_bounds {sb : Superblock} (hg : Geometry sb) {size remaining k : Nat}
    (hwhole : size % DIRBLKSIZ = 0) (hpos : k * sb.blockSize + remaining = size) :
    k * sb.blockSize % DIRBLKSIZ = 0 ∧
      (k * sb.blockSize + min remaining sb.blockSize) % DIRBLKSIZ = 0 ∧
      (remaining - min remaining sb.blockSize ≠ 0 →
        (k + 1) * sb.blockSize = k * sb.blockSize + min remaining sb.blockSize) := by
  have hbs : sb.blockSize % DIRBLKSIZ = 0 := by
    have := hg.block_mod
    unfold DIRBLKSIZ
    omega
  have hk : k * sb.blockSize % DIRBLKSIZ = 0 := by
    rw [Nat.mul_mod, hbs, Nat.mul_zero, Nat.zero_mod]
  refine ⟨hk, ?_, fun h => ?_⟩
  · rcases Nat.le_total remaining sb.blockSize with hle | hle
    · rw [Nat.min_eq_left hle, hpos]
      exact hwhole
    · rw [Nat.min_eq_right hle, Nat.add_mod, hk, hbs]
      rfl
  · rw [Nat.succ_mul]
    omega

section
variable {α : Type} (cb : Nat → List UInt8 → α → α × Bool)

theorem iterateChunks_eq {fs : Fs} {ino : Inode} (hread : fs.Readable ino)
    (hwhole : ino.size % DIRBLKSIZ = 0) : ∀ {fuel remaining k : Nat} {rs : List Dirent} {a : α},
    remaining ≤ fuel → (remaining = 0 → rs = []) →
    (remaining ≠ 0 → k * fs.img.sb.blockSize + remaining = ino.size ∧
      Records (fs.img.sb.fileByte fs.bytes ino) (k * fs.img.sb.blockSize) rs ino.size) →
    iterateChunks cb ino fuel remaining k a fs = .ok (foldStop cb (entries rs) a) fs := by
  intro fuel
  induction fuel with
  | zero =>
    intro remaining k rs a hfuel hnil _
    rw [hnil (by omega)]
    rfl
  | succ fuel ih =>
    intro remaining k rs a hfuel hnil hrec
    rw [iterateChunks]
    split
    case isTrue h0 => rw [hnil h0]; rfl
    case isFalse h0 =>
      obtain ⟨hpos, hrs⟩ := hrec h0
      have hg := hread.sound.geometry
      have hbs := hg.blockSize_ge
      obtain ⟨hstart, hcut, hnext⟩ := chunk_bounds hg hwhole hpos
      obtain ⟨rs₁, rs₂, rfl, h₁, h₂⟩ := hrs.split hcut (Nat.le_add_right ..) (by omega)
      have hchunk := iterateRecords_eq cb (a := a)
        (Nat.le_add_left (min remaining fs.img.sb.blockSize) 0) ((records_chunk hstart).mpr h₁)
      refine bind_ok.mpr ⟨fs, fs, rfl, bind_ok.mpr ⟨_, fs, readChunk_eq hread (by omega), ?_⟩⟩
      rw [hchunk, entries_append, foldStop_append]
      have hrest := @ih (remaining - min remaining fs.img.sb.blockSize) (k + 1) rs₂
        (foldStop cb (entries rs₁) a).1 (by omega)
        (fun h => h₂.eq_nil (by omega)) (fun h => ⟨by rw [hnext h]; omega, by rwa [hnext h]⟩)
      rcases hstop : foldStop cb (entries rs₁) a with ⟨a', _ | _⟩
      · rw [hstop] at hrest
        exact hrest
      · rfl

/-- The iteration goes through the entries, in order. -/
theorem directoryIterate_eq {fs : Fs} {ino : Inode} {rs : List Dirent} (hread : fs.Readable ino)
    (hwhole : ino.size % DIRBLKSIZ = 0)
    (hrs : Records (fs.img.sb.fileByte fs.bytes ino) 0 rs ino.size) (a : α) :
    directoryIterate cb ino a fs = .ok (foldStop cb (entries rs) a) fs := by
  refine iterateChunks_eq cb hread hwhole le_rfl (fun h => hrs.eq_nil (by omega)) fun _ => ?_
  rw [Nat.zero_mul]
  exact ⟨Nat.zero_add _, hrs⟩

end

theorem directoryEntries_eq {fs : Fs} {ino : Inode} {rs : List Dirent} (hread : fs.Readable ino)
    (hwhole : ino.size % DIRBLKSIZ = 0)
    (hrs : Records (fs.img.sb.fileByte fs.bytes ino) 0 rs ino.size) :
    directoryEntries ino fs = .ok (entries rs) fs := by
  have hfold : ∀ l a : List (List UInt8 × Nat),
      foldStop (fun ino name a => (a ++ [(name, ino)], false)) l a = (a ++ l, false) := by
    intro l
    induction l with
    | nil => simp [foldStop]
    | cons e l ih =>
      intro a
      rw [foldStop, if_neg (by simp), ih]
      simp
  refine bind_ok.mpr ⟨_, fs, directoryIterate_eq _ hread hwhole hrs [], ?_⟩
  rw [hfold, List.nil_append]
  rfl

end NextUfs.Core
