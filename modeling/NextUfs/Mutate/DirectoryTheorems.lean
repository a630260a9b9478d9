/-
NextUfs.Mutate.DirectoryTheorems — directories as name maps.

Inserting a record and removing one are followed from the bytes of a chunk to
the tiling of the directory and from there to the map it stands for.
`nextufs__remove_dirent` gives a removed record to the last used record before
it, whatever lies between the two; `directory_runs` therefore asks that nothing
does (`NoGap`), and `remove_dirent_keeps_name` is a directory where an unused
record does and the removed name stays.
-/
import NextUfs.Mutate.Directory
import NextUfs.Mutate.FileTheorems
import NextUfs.Core.DirectoryTheorems

namespace NextUfs.Mutate

open NextUfs.Core NextUfs.Lib NextUfs.Lib.ByteStore NextUfs.Lib.StateResult NextUfs.Lib.Extents

/-! ## Changing lists of entries -/

/-- A directory entry. -/
abbrev Entry := List UInt8 × Nat

/-- The second list has one entry more. -/
def OneMore (e : Entry) (es es' : List Entry) : Prop :=
  ∃ l₁ l₂, es = l₁ ++ l₂ ∧ es' = l₁ ++ e :: l₂

theorem OneMore.here (e : Entry) (es : List Entry) : OneMore e es (e :: es) := ⟨[], es, rfl, rfl⟩

theorem OneMore.cons {e : Entry} {es es' : List Entry} (h : OneMore e es es') (d : Entry) :
    OneMore e (d :: es) (d :: es') := by
  obtain ⟨l₁, l₂, rfl, rfl⟩ := h
  exact ⟨d :: l₁, l₂, rfl, rfl⟩

theorem OneMore.within {e : Entry} {es es' : List Entry} (h : OneMore e es es')
    (pre post : List Entry) : OneMore e (pre ++ (es ++ post)) (pre ++ (es' ++ post)) := by
  obtain ⟨l₁, l₂, rfl, rfl⟩ := h
  exact ⟨pre ++ l₁, l₂ ++ post, by simp, by simp⟩

/-! ## Records of a chunk -/

/-- A name a directory entry can have. -/
structure ValidName (name : List UInt8) : Prop where
  ne_nil : name ≠ []
  length_le : name.length ≤ 255
  no_nul : (0 : UInt8) ∉ name
  no_slash : (0x2f : UInt8) ∉ name

theorem slice_patch_ofList (d : ByteStore) (off : Nat) (l : List UInt8) :
    slice (patch d off l.length (ofList l)) off l.length = l := by
  refine List.ext_getElem (length_slice ..) fun i h₁ h₂ => ?_
  simp only [slice, List.getElem_map, List.getElem_range]
  rw [patch_of_mem (Nat.le_add_right ..) (by omega), Nat.add_sub_cancel_left, ofList,
    List.getD_eq_getElem]

/-- A record written is one the reader accepts. -/
theorem writeDirentRaw_ok {buf buf' : ByteStore} {off ino reclen : Nat} {name : List UInt8}
    (hname : ValidName name) (hino : ino ≠ 0) (hlt : ino < 4294967296)
    (hwithin : reclen ≤ DIRBLKSIZ - off % DIRBLKSIZ)
    (h : writeDirentRaw buf off ino reclen name = .ok buf') :
    RecordAt buf' off ⟨ino, reclen, name.length, name⟩ ∧
      ∀ p, p < off ∨ off + reclen ≤ p → buf' p = buf p := by
  unfold writeDirentRaw at h
  split at h
  case isTrue => cases h
  split at h
  case isTrue => cases h
  case isFalse hbad =>
  obtain ⟨hmin, hmax⟩ : 8 + name.length < reclen ∧ reclen ≤ 1024 := by
    unfold direntSize DIRBLKSIZ at hbad
    omega
  have hpos := List.length_pos_iff.mpr hname.ne_nil
  have hlen := hname.length_le
  cases h
  set z := patch buf off reclen fun _ => 0 with hz
  set w := setBe16 (setBe16 (setBe32 z off ino) (off + 4) reclen) (off + 6) name.length with hw
  have hzero : ∀ p, off + 8 ≤ p → p < off + reclen → w p = 0 := by
    intro p h₁ h₂
    rw [hw, setBe16, setBe16, setBe32, patch_of_not_mem (by omega), patch_of_not_mem (by omega),
      patch_of_not_mem (by omega), hz, patch_of_mem (by omega) (by omega)]
  have hslice := slice_patch_ofList w (off + 8) name
  refine ⟨⟨?_, ?_, ?_, by dsimp only; omega, by dsimp only; omega, hwithin,
    fun h => absurd h hino, fun _ => ⟨hslice.symm, ?_⟩⟩, fun p hp => ?_⟩
  · rw [be32_patch_of_disjoint (by omega), hw, setBe16, be32_patch_of_disjoint (by omega), setBe16,
      be32_patch_of_disjoint (by omega), be32_setBe32_self, Nat.mod_eq_of_lt hlt]
  · rw [be16_patch_of_disjoint (by omega), hw, setBe16, be16_patch_of_disjoint (by omega),
      be16_setBe16_self, Nat.mod_eq_of_lt (by omega)]
  · rw [be16_patch_of_disjoint (by omega), hw, be16_setBe16_self, Nat.mod_eq_of_lt (by omega)]
  · have hend : patch w (off + 8) name.length (ofList name) (off + 8 + name.length) = 0 := by
      rw [patch_of_not_mem (by omega)]
      exact hzero _ (by omega) (by omega)
    simp only [NameRejected, hslice, hend, not_or, ne_eq, not_true_eq_false, not_false_eq_true,
      and_true]
    exact ⟨by omega, by omega, by omega, hname.no_nul, hname.no_slash⟩
  · rw [patch_of_not_mem (by omega), hw, setBe16, setBe16, setBe32, patch_of_not_mem (by omega),
      patch_of_not_mem (by omega), patch_of_not_mem (by omega), hz, patch_of_not_mem hp]

theorem placeDirent_ok {buf buf' : ByteStore} {off ino reclen : Nat} {name : List UInt8}
    (hname : ValidName name) (hino : ino ≠ 0) (hlt : ino < 4294967296)
    (hwithin : reclen ≤ DIRBLKSIZ - off % DIRBLKSIZ)
    (h : placeDirent buf off ino reclen name = .ok (some buf')) :
    RecordAt buf' off ⟨ino, reclen, name.length, name⟩ ∧
      ∀ p, p < off ∨ off + reclen ≤ p → buf' p = buf p := by
  unfold placeDirent at h
  split at h
  · cases h
  · cases h
    exact writeDirentRaw_ok hname hino hlt hwithin ‹_›

/-- A used record cut down to what its name needs. -/
theorem RecordAt.shorten {buf : ByteStore} {off used : Nat} {r : Dirent} (h : RecordAt buf off r)
    (hr : r.ino ≠ 0) (hused : used = direntSize r.namlen) :
    RecordAt (setBe16 buf (off + 4) used) off { r with reclen := used } := by
  have hle := h.name_le hr
  have hwithin := h.within
  obtain ⟨hname, hok⟩ := h.used hr
  simp only [NameRejected, not_or] at hok
  have hsize : 8 + r.namlen < used ∧ used % 4 = 0 ∧ used ≤ r.reclen ∧ used < 65536 := by
    unfold DIRBLKSIZ at hwithin
    unfold direntSize at *
    omega
  have hbytes : ∀ p, off + 8 ≤ p → setBe16 buf (off + 4) used p = buf p :=
    fun p hp => patch_of_not_mem (by omega)
  have hslice : slice (setBe16 buf (off + 4) used) (off + 8) r.namlen = slice buf (off + 8) r.namlen :=
    slice_congr fun i _ => hbytes _ (by omega)
  refine ⟨?_, ?_, ?_, by dsimp only; omega, hsize.2.1, by dsimp only; omega, h.unused, fun _ => ⟨?_, ?_⟩⟩
  · rw [setBe16, be32_patch_of_disjoint (by omega)]
    exact h.ino
  · rw [be16_setBe16_self, Nat.mod_eq_of_lt hsize.2.2.2]
  · rw [setBe16, be16_patch_of_disjoint (by omega)]
    exact h.namlen
  · rw [hslice]
    exact hname
  · simp only [NameRejected, not_or, hslice, hbytes (off + 8 + r.namlen) (by omega)]
    exact ⟨hok.1, hok.2.1, hused.ge.not_gt, hok.2.2.2⟩

section
variable {name : List UInt8} {ino size : Nat}

/-- The scan of a chunk puts the record in front of, or behind, one it finds room at. -/
theorem insertInChunk_ok (hname : ValidName name) (hino : ino ≠ 0) (hlt : ino < 4294967296)
    {block block' : ByteStore} : ∀ {fuel off : Nat} {rs : List Dirent},
    Records block off rs size →
    insertInChunk name ino (direntSize name.length) block size fuel off = .ok (some block') →
    ∃ rs', Records block' off rs' size ∧ OneMore (name, ino) (entries rs) (entries rs') ∧
      ∀ p < off, block' p = block p := by
  intro fuel
  induction fuel with
  | zero =>
    intro off rs _ h
    cases h
  | succ fuel ih =>
    intro off rs hrs h
    rw [insertInChunk] at h
    cases rs with
    | nil =>
      have heq : off = size := hrs
      rw [if_pos heq.ge] at h
      cases h
    | cons r rs =>
      have hoff := hrs.lt
      obtain ⟨hr, hrest⟩ := records_cons.mp hrs
      have hwithin := hr.within
      rw [if_neg (by omega), hrs.read le_rfl] at h
      dsimp only at h
      split at h
      case isTrue hfree =>
        -- an unused record is taken as it is
        obtain ⟨hnew, hsame⟩ := placeDirent_ok hname hino hlt hwithin h
        refine ⟨_, records_cons.mpr ⟨hnew, hrest.of_same fun p hp _ => hsame p (.inr hp)⟩, ?_,
          fun p hp => hsame p (.inl hp)⟩
        rw [entries_unused hfree.1, entries_used hino]
        exact OneMore.here ..
      case isFalse =>
      by_cases hslack : r.ino ≠ 0 ∧ r.reclen - direntSize r.namlen ≥ direntSize name.length
      · -- a used record is cut, and the new one takes the rest
        obtain ⟨hused, hroom⟩ := hslack
        rw [if_neg hused, if_pos ⟨hused, hroom⟩] at h
        have hle := hr.name_le hused
        have hmod : (off + direntSize r.namlen) % DIRBLKSIZ =
            off % DIRBLKSIZ + direntSize r.namlen ∨
              r.reclen - direntSize r.namlen = 0 := by
          unfold DIRBLKSIZ at *
          omega
        have hdirent : 12 ≤ direntSize name.length := by
          unfold direntSize
          have := List.length_pos_iff.mpr hname.ne_nil
          omega
        obtain ⟨hnew, hsame⟩ := placeDirent_ok hname hino hlt
          (show r.reclen - direntSize r.namlen ≤ DIRBLKSIZ - (off + direntSize r.namlen) % DIRBLKSIZ by
            omega) h
        have hcut := RecordAt.shorten hr hused rfl
        have hcut' := hcut.congr rfl fun i hi => hsame (off + i) (.inl (by
          dsimp only at hi
          omega))
        have hend : off + direntSize r.namlen + (r.reclen - direntSize r.namlen) = off + r.reclen := by
          omega
        refine ⟨_ :: _ :: rs, records_cons.mpr ⟨hcut', records_cons.mpr ⟨hnew, ?_⟩⟩, ?_, fun p hp => ?_⟩
        · dsimp only
          rw [hend]
          refine hrest.of_same fun p hp _ => ?_
          rw [hsame p (.inr (by omega)), setBe16, patch_of_not_mem (by have := hr.ge; omega)]
        · rw [entries_used hused, @entries_used { r with reclen := direntSize r.namlen } hused,
            entries_used hino]
          exact (OneMore.here ..).cons _
        · rw [hsame p (.inl (by omega)), setBe16, patch_of_not_mem (by omega)]
      · rw [if_neg (by
          rintro ⟨hused, hroom⟩
          rw [if_neg hused] at hroom
          exact hslack ⟨hused, hroom⟩)] at h
        obtain ⟨rs', hrs', hmore, hsame⟩ := ih hrest h
        have hr' := hr.congr rfl fun i hi => hsame (off + i) (by omega)
        refine ⟨r :: rs', records_cons.mpr ⟨hr', hrs'⟩, ?_, fun p hp => hsame p (by omega)⟩
        by_cases hused : r.ino = 0
        · rw [entries_unused hused, entries_unused hused]
          exact hmore
        · rw [entries_used hused, entries_used hused]
          exact hmore.cons _

/-- No unused record stands between a record of the name and the last used record before it. -/
def NoGap (name : List UInt8) (rs : List Dirent) : Prop :=
  ∀ pre p gap t post, rs = pre ++ p :: (gap ++ t :: post) → p.ino ≠ 0 → (∀ g ∈ gap, g.ino = 0) →
    t.ino ≠ 0 → t.name = name → gap = []

theorem NoGap.suffix {pre rs : List Dirent} (h : NoGap name (pre ++ rs)) : NoGap name rs := by
  intro pre' p gap t post hrs
  exact h (pre ++ pre') p gap t post (by rw [hrs, List.append_assoc])

theorem entries_allUnused {gap : List Dirent} (h : ∀ g ∈ gap, g.ino = 0) : entries gap = [] := by
  induction gap with
  | nil => rfl
  | cons g gap ih =>
    rw [entries_unused (h g (List.mem_cons_self ..))]
    exact ih fun d hd => h d (List.mem_cons_of_mem _ hd)

/-- A used record that is given the record behind it. -/
theorem RecordAt.absorb {buf : ByteStore} {off : Nat} {r t : Dirent} (h : RecordAt buf off r)
    (hr : r.ino ≠ 0) (ht : RecordAt buf (off + r.reclen) t)
    (hfit : off % DIRBLKSIZ + r.reclen + t.reclen ≤ DIRBLKSIZ) :
    RecordAt (setBe16 buf (off + 4) (r.reclen + t.reclen)) off
      { r with reclen := r.reclen + t.reclen } := by
  have hge := h.ge
  have hmod := h.mod
  have hmod' := ht.mod
  obtain ⟨hname, hok⟩ := h.used hr
  simp only [NameRejected, not_or] at hok
  have hlt : r.reclen + t.reclen < 65536 := by
    unfold DIRBLKSIZ at hfit
    omega
  have hbytes : ∀ p, off + 8 ≤ p → setBe16 buf (off + 4) (r.reclen + t.reclen) p = buf p :=
    fun p hp => patch_of_not_mem (by omega)
  have hslice : slice (setBe16 buf (off + 4) (r.reclen + t.reclen)) (off + 8) r.namlen =
      slice buf (off + 8) r.namlen := slice_congr fun i _ => hbytes _ (by omega)
  refine ⟨?_, ?_, ?_, by dsimp only; omega, by dsimp only; omega, by dsimp only; omega, h.unused,
    fun _ => ⟨?_, ?_⟩⟩
  · rw [setBe16, be32_patch_of_disjoint (by omega)]
    exact h.ino
  · rw [be16_setBe16_self, Nat.mod_eq_of_lt hlt]
  · rw [setBe16, be16_patch_of_disjoint (by omega)]
    exact h.namlen
  · rw [hslice]
    exact hname
  · simp only [NameRejected, not_or, hslice, hbytes (off + 8 + r.namlen) (by omega)]
    exact ⟨hok.1, hok.2.1, by omega, hok.2.2.2⟩

/-- A record whose inode number is cleared. -/
theorem RecordAt.clear {buf : ByteStore} {off : Nat} {r : Dirent} (h : RecordAt buf off r) :
    RecordAt (setBe32 buf off 0) off { r with ino := 0, name := [] } := by
  refine ⟨?_, ?_, ?_, h.ge, h.mod, h.within, fun _ => rfl, fun h => absurd rfl h⟩
  · rw [be32_setBe32_self]
  · rw [setBe32, be16_patch_of_disjoint (by omega)]
    exact h.reclen
  · rw [setBe32, be16_patch_of_disjoint (by omega)]
    exact h.namlen

/-- A patch seen from a base. -/
theorem patch_shift (d f : ByteStore) (base off n i : Nat) :
    patch d (base + off) n f (base + i) = patch (fun i => d (base + i)) off n f i := by
  unfold patch
  rw [show base + i - (base + off) = i - off by omega]
  exact if_congr (by omega) rfl rfl

/-- Where the scan of a directory block stands: `pending` are the records from the last used one
on, which is at `p₀`, or from the start if there was none. -/
def Pending (pending : List Dirent) (p₀ : Nat) : Option Nat → Prop
  | none => ∀ g ∈ pending, g.ino = 0
  | some prev => prev = p₀ ∧ ∃ p gap, pending = p :: gap ∧ p.ino ≠ 0 ∧ ∀ g ∈ gap, g.ino = 0

/-- A record found is given to the last used one before it, or cleared. -/
theorem dropDirent_ok {block block' : ByteStore} {base p₀ off : Nat} {prev : Option Nat}
    {pending post : List Dirent} {t : Dirent} {removed : Nat} (hsize : size ≤ DIRBLKSIZ)
    (hpend : Pending pending p₀ prev) (ht : t.ino ≠ 0) (htn : t.name = name)
    (hgap : NoGap name (pending ++ t :: post))
    (hrs : Records (fun i => block (base + i)) p₀ (pending ++ t :: post) size)
    (hoff : Records (fun i => block (base + i)) p₀ pending off)
    (h : dropDirent (fun i => block (base + i)) block base size off prev t =
      .ok (some (block', removed))) :
    removed = t.ino ∧ (∃ rs', Records (fun i => block' (base + i)) p₀ rs' size ∧
      OneMore (name, removed) (entries rs') (entries (pending ++ t :: post))) ∧
      ∀ p, p < base + p₀ ∨ base + size ≤ p → block' p = block p := by
  have hpost : Records (fun i => block (base + i)) off (t :: post) size := by
    obtain ⟨m, h₁, h₂⟩ := records_append.mp hrs
    obtain rfl : m = off := h₁.endpos_unique hoff
    exact h₂
  obtain ⟨htr, hrest⟩ := records_cons.mp hpost
  have hlt := hpost.lt
  have hle := hrest.le
  have hp₀ := hoff.le
  cases prev with
  | none =>
    change Except.ok (some (setBe32 block (base + off) 0, t.ino)) = _ at h
    cases h
    have hview : (fun i => setBe32 block (base + off) 0 (base + i)) =
        setBe32 (fun i => block (base + i)) off 0 := by
      funext i
      exact patch_shift ..
    refine ⟨rfl, ⟨pending ++ { t with ino := 0, name := [] } :: post, ?_, ?_⟩, fun p hp => ?_⟩
    · rw [hview]
      refine records_append.mpr ⟨off, hoff.of_same fun p _ hp => patch_of_not_mem (.inl hp),
        records_cons.mpr ⟨RecordAt.clear htr, hrest.of_same fun p hp _ => ?_⟩⟩
      exact patch_of_not_mem (by have := htr.ge; omega)
    · have hcleared : entries ({ t with ino := 0, name := [] } :: post) = entries post :=
        entries_unused rfl post
      rw [entries_append, entries_append, entries_allUnused hpend, entries_used ht, hcleared, htn]
      exact OneMore.here ..
    · exact patch_of_not_mem (by omega)
  | some prev =>
    obtain ⟨rfl, r, gap, rfl, hr, hunused⟩ := hpend
    obtain rfl : gap = [] := hgap [] r gap t post rfl hr hunused ht htn
    obtain ⟨hrr, hnil⟩ := records_cons.mp hoff
    have heq : prev + r.reclen = off := hnil
    have hread := hrs.read le_rfl
    simp only [dropDirent, hread] at h
    cases h
    have hview : (fun i => setBe16 block (base + prev + 4) (r.reclen + t.reclen) (base + i)) =
        setBe16 (fun i => block (base + i)) (prev + 4) (r.reclen + t.reclen) := by
      funext i
      rw [Nat.add_assoc]
      exact patch_shift ..
    refine ⟨rfl, ⟨{ r with reclen := r.reclen + t.reclen } :: post, ?_, ?_⟩, fun p hp => ?_⟩
    · rw [hview]
      have hfit : prev % DIRBLKSIZ + r.reclen + t.reclen ≤ DIRBLKSIZ := by
        have := Nat.mod_le prev DIRBLKSIZ
        omega
      refine records_cons.mpr ⟨RecordAt.absorb hrr hr (by rwa [heq]) hfit, ?_⟩
      dsimp only
      rw [← Nat.add_assoc, heq]
      exact hrest.of_same fun p hp _ => patch_of_not_mem (by have := hrr.ge; omega)
    · rw [@entries_used { r with reclen := r.reclen + t.reclen } hr, List.cons_append,
        entries_used hr, List.nil_append, entries_used ht, htn]
      exact (OneMore.here ..).cons _
    · exact patch_of_not_mem (by have := hrr.ge; omega)

/-- The scan of one directory block; the induction is on its records. -/
theorem removeInDirblk_ok {block block' : ByteStore} {base removed : Nat} (hsize : size ≤ DIRBLKSIZ) :
    ∀ {fuel off p₀ : Nat} {prev : Option Nat} {pending rs : List Dirent},
      Pending pending p₀ prev → NoGap name (pending ++ rs) →
      Records (fun i => block (base + i)) p₀ pending off →
      Records (fun i => block (base + i)) off rs size →
      removeInDirblk name block base size fuel off prev = .ok (some (block', removed)) →
      (∃ rs', Records (fun i => block' (base + i)) p₀ rs' size ∧
        OneMore (name, removed) (entries rs') (entries (pending ++ rs))) ∧
        ∀ p, p < base + p₀ ∨ base + size ≤ p → block' p = block p := by
  intro fuel
  induction fuel with
  | zero =>
    intro off p₀ prev pending rs _ _ _ _ h
    cases h
  | succ fuel ih =>
    intro off p₀ prev pending rs hpend hgap hoff hrs h
    rw [removeInDirblk] at h
    cases rs with
    | nil =>
      have heq : off = size := hrs
      rw [if_pos heq.ge] at h
      cases h
    | cons r rs =>
      have hlt := hrs.lt
      have hp₀ := hoff.le
      obtain ⟨hr, hrest⟩ := records_cons.mp hrs
      rw [if_neg (by omega), hrs.read le_rfl] at h
      dsimp only at h
      have happ : pending ++ r :: rs = (pending ++ [r]) ++ rs := by simp
      split at h
      case isTrue hfound =>
        split at h
        case isTrue => cases h
        case isFalse =>
          exact (dropDirent_ok hsize hpend hfound.1 hfound.2.2 hgap
            (records_append.mpr ⟨off, hoff, hrs⟩) hoff h).2
      case isFalse =>
        by_cases hused : r.ino = 0
        · -- an unused record joins those pending
          rw [if_neg (not_not.mpr hused)] at h
          have hpend' : Pending (pending ++ [r]) p₀ prev := by
            have hall : ∀ l : List Dirent, (∀ g ∈ l, g.ino = 0) → ∀ g ∈ l ++ [r], g.ino = 0 := by
              intro l hl g hg
              rcases List.mem_append.mp hg with hg | hg
              · exact hl g hg
              · rw [List.mem_singleton.mp hg]
                exact hused
            cases prev with
            | none => exact hall pending hpend
            | some prev =>
              obtain ⟨rfl, p, gap, rfl, hp, hunused⟩ := hpend
              exact ⟨rfl, p, gap ++ [r], rfl, hp, hall gap hunused⟩
          rw [happ] at hgap ⊢
          exact ih hpend' hgap (records_append.mpr ⟨off, hoff, records_cons.mpr ⟨hr, rfl⟩⟩) hrest h
        · -- a used record is the last used one from now on
          rw [if_pos hused] at h
          have hpend' : Pending [r] off (some off) := ⟨rfl, r, [], rfl, hused, by simp⟩
          obtain ⟨⟨rs', hrs', hmore⟩, hsame⟩ := ih hpend' (NoGap.suffix hgap)
            (records_cons.mpr ⟨hr, rfl⟩) hrest h
          refine ⟨⟨pending ++ rs', records_append.mpr ⟨off, hoff.of_same fun p _ hp => ?_, hrs'⟩, ?_⟩,
            fun p hp => hsame p (by omega)⟩
          · exact hsame _ (by omega)
          · have := hmore.within (entries pending) []
            simpa using this

/-- The scan of a chunk. -/
theorem removeInChunk_ok {block block' : ByteStore} {rs : List Dirent} {removed : Nat}
    (hwhole : size % DIRBLKSIZ = 0) (hrs : Records block 0 rs size)
    (hgap : ∀ base, base % DIRBLKSIZ = 0 → base < size → ∀ ss,
      Records (fun i => block (base + i)) 0 ss DIRBLKSIZ → NoGap name ss) :
    ∀ {fuel base : Nat}, base % DIRBLKSIZ = 0 →
      removeInChunk name block size fuel base = .ok (some (block', removed)) →
      ∃ rs', Records block' 0 rs' size ∧ OneMore (name, removed) (entries rs') (entries rs) := by
  intro fuel
  induction fuel with
  | zero =>
    intro base _ h
    cases h
  | succ fuel ih =>
    intro base hbase h
    rw [removeInChunk] at h
    split at h
    case isTrue => cases h
    case isFalse hlt =>
      have hmin : min (size - base) DIRBLKSIZ = DIRBLKSIZ := by
        unfold DIRBLKSIZ at *
        omega
      have hend : (base + DIRBLKSIZ) % DIRBLKSIZ = 0 := by rwa [Nat.add_mod_right]
      rw [hmin] at h
      dsimp only at h
      cases hscan : removeInDirblk name block base DIRBLKSIZ DIRBLKSIZ 0 none with
      | error e =>
        rw [hscan] at h
        cases h
      | ok found =>
        rw [hscan] at h
        cases found with
        | none => exact ih hend h
        | some found =>
          cases h
          obtain ⟨pre, rest, rfl, hpre, hrest⟩ := hrs.split hbase (Nat.zero_le _) (by omega)
          obtain ⟨mid, post, rfl, hmid, hpost⟩ := hrest.split hend (Nat.le_add_right ..) (by
            unfold DIRBLKSIZ at *
            omega)
          have hview : Records (fun i => block (base + i)) 0 mid DIRBLKSIZ :=
            (records_shift hbase).mpr (by rwa [Nat.add_zero])
          obtain ⟨⟨mid', hmid', hmore⟩, hsame⟩ := removeInDirblk_ok le_rfl
            (show Pending [] 0 none by simp [Pending])
            (hgap base hbase (by omega) _ hview) rfl hview hscan
          rw [Nat.add_zero] at hsame
          have hmid'' := (records_shift hbase).mp hmid'
          rw [Nat.add_zero] at hmid''
          refine ⟨pre ++ (mid' ++ post), records_append.mpr ⟨base, hpre.of_same fun p _ hp =>
            hsame p (.inl hp), records_append.mpr ⟨_, hmid'', hpost.of_same fun p hp _ =>
              hsame p (.inr hp)⟩⟩, ?_⟩
          have := hmore.within (entries pre) (entries post)
          simpa using this

end

/-! ## Writing a chunk back -/

section
variable {fs : Fs} {ino : Inode} {others : Multiset Nat}

theorem FileWf.readable (h : FileWf fs ino others) : fs.Readable ino :=
  ⟨h.1.sound, ⟨_, h.1.slots⟩, size_le_slots h.1.geometry h.2, FileWf.inReach h⟩

theorem updateNodeTimes_ok {node node' : Node} {fs' : Fs}
    (h : updateNodeTimes node fs = .ok node' fs') :
    node' = node ∧ fs' = { fs with inode := Function.update fs.inode node.inodeNo node.inode } := by
  simp only [updateNodeTimes, writeInodeRaw, nodeGetByInode, inodeRead, bind_ok, get_ok, check_ok,
    modify_ok, pure_ok] at h
  obtain ⟨_, _, ⟨_, _, ⟨rfl, rfl⟩, _, _, ⟨-, rfl⟩, rfl⟩, _, _,
    ⟨_, _, ⟨rfl, rfl⟩, _, _, ⟨-, rfl⟩, _, _, ⟨-, rfl⟩, hino, rfl⟩, rfl, rfl⟩ := h
  change Function.update fs.inode node.inodeNo node.inode node.inodeNo = _ at hino
  rw [Function.update_self] at hino
  rw [← hino]
  exact ⟨rfl, rfl⟩

/-- Changed data and an inode written out. -/
theorem Edited.fileStep {f : Nat → UInt8} {fs₁ fs₂ : Fs} {no : Nat} {node₂ : Node}
    (h : Edited fs ino others f fs₁ ino)
    (hwrite : updateNodeTimes ⟨no, ino⟩ fs₁ = .ok node₂ fs₂) :
    FileStep fs ⟨no, ino⟩ others ino.size f fs₂ node₂ := by
  obtain ⟨rfl, hfs₂⟩ := updateNodeTimes_ok hwrite
  exact fileStep_of_finished h.wf h.keeps h.byte h.frame rfl ⟨hfs₂, rfl⟩

/-- Changed data alone. -/
theorem Edited.fileStep_same {f : Nat → UInt8} {fs₁ : Fs} {no : Nat}
    (h : Edited fs ino others f fs₁ ino) :
    FileStep fs ⟨no, ino⟩ others ino.size f fs₁ ⟨no, ino⟩ :=
  ⟨rfl, h.wf, h.keeps.img, h.keeps.ndblk, fun _ _ => by rw [h.keeps.inode],
    fun held => by rw [h.keeps.inode]; exact held, rfl, h.byte, h.frame⟩

theorem chunkFrag_ok {node : Node} {k frag : Nat} {e : Errno} {fs' : Fs}
    (h : chunkFrag node k e fs = .ok frag fs') :
    frag = fs.img.sb.fileBlock fs.bytes node.inode k ∧ frag ≠ 0 ∧ fs = fs' := by
  simp only [chunkFrag, bind_ok, failAs_ok, check_ok, pure_ok] at h
  obtain ⟨frag₀, _, hres, _, _, ⟨hne, rfl⟩, rfl, rfl⟩ := h
  obtain ⟨rfl, rfl⟩ := resolveInodeDataBlock_ok hres
  exact ⟨rfl, hne, rfl⟩

theorem writeChunk_ok {no k n : Nat} {block : ByteStore} {fs' : Fs} {node' : Node}
    (hwf : FileWf fs ino others) (hne : fs.img.sb.fileBlock fs.bytes ino k ≠ 0) (hn : 0 < n)
    (hle : n ≤ fs.img.sb.blockSize) (hend : k * fs.img.sb.blockSize + n ≤ ino.size)
    (h : writeChunk ⟨no, ino⟩ block n (fs.img.sb.fileBlock fs.bytes ino k) fs = .ok node' fs') :
    FileStep fs ⟨no, ino⟩ others ino.size (fun q => if k * fs.img.sb.blockSize ≤ q ∧
      q < k * fs.img.sb.blockSize + n then block (q - k * fs.img.sb.blockSize)
      else fs.img.sb.fileByte fs.bytes ino q) fs' node' := by
  simp only [writeChunk, bind_ok, get_ok, failAs_ok] at h
  obtain ⟨_, _, ⟨rfl, rfl⟩, u, fs₁, hwrite, hupdate⟩ := h
  have hedit := chunk_ok (k := k) (x := 0) (n := n) hwf hne hn (by omega) (by omega) hwrite
  rw [Nat.add_zero] at hedit
  exact Edited.fileStep hedit hupdate

end

/-! ## Directories -/

/-- A part of a tiling is replaced. -/
theorem Records.replace {c c' block : ByteStore} {start n endpos : Nat} {pre mid' post : List Dirent}
    (hstart : start % DIRBLKSIZ = 0) (hpre : Records c 0 pre start)
    (hpost : Records c (start + n) post endpos) (hmid : Records block 0 mid' n)
    (hc : ∀ q < endpos, c' q = if start ≤ q ∧ q < start + n then block (q - start) else c q) :
    Records c' 0 (pre ++ (mid' ++ post)) endpos := by
  have hle := hpost.le
  have hview : Records (fun i => c' (start + i)) 0 mid' n := by
    refine hmid.of_same fun p _ hp => ?_
    rw [hc _ (by omega), if_pos (by omega), Nat.add_sub_cancel_left]
  have hmid' := (records_shift hstart).mp hview
  rw [Nat.add_zero] at hmid'
  refine records_append.mpr ⟨start, hpre.of_same fun p _ hp => ?_,
    records_append.mpr ⟨start + n, hmid', hpost.of_same fun p hp hp' => ?_⟩⟩
  · rw [hc p (by omega), if_neg (by omega)]
  · rw [hc p hp', if_neg (by omega)]

/-- A directory with a tiling. -/
structure DirRecords (fs : Fs) (node : Node) (others : Multiset Nat) (rs : List Dirent) : Prop where
  wf : FileWf fs node.inode others
  whole : node.inode.size % DIRBLKSIZ = 0
  records : Records (fs.img.sb.fileByte fs.bytes node.inode) 0 rs node.inode.size

section
variable {fs : Fs} {node : Node} {others : Multiset Nat} {rs : List Dirent}

/-- The tiling of a chunk, and what lies on both sides of it. -/
theorem DirRecords.chunk (h : DirRecords fs node others rs) {remaining k : Nat}
    (hpos : k * fs.img.sb.blockSize + remaining = node.inode.size) :
    ∃ pre mid post, rs = pre ++ (mid ++ post) ∧
      Records (fs.img.sb.fileByte fs.bytes node.inode) 0 pre (k * fs.img.sb.blockSize) ∧
      Records (ofList (fs.img.sb.fileBytes fs.bytes node.inode (k * fs.img.sb.blockSize)
        (min remaining fs.img.sb.blockSize))) 0 mid (min remaining fs.img.sb.blockSize) ∧
      Records (fs.img.sb.fileByte fs.bytes node.inode)
        (k * fs.img.sb.blockSize + min remaining fs.img.sb.blockSize) post node.inode.size := by
  obtain ⟨hstart, hcut, -⟩ := chunk_bounds h.wf.1.geometry h.whole hpos
  obtain ⟨pre, rest, rfl, hpre, hrest⟩ := h.records.split hstart (Nat.zero_le _) (by omega)
  obtain ⟨mid, post, rfl, hmid, hpost⟩ := hrest.split hcut (Nat.le_add_right ..) (by omega)
  exact ⟨pre, mid, post, rfl, hpre, (records_chunk hstart).mpr hmid, hpost⟩

/-- A file step that leaves a directory with another tiling. -/
structure DirStep (fs : Fs) (node : Node) (others : Multiset Nat) (rs' : List Dirent) (fs' : Fs)
    (node' : Node) : Prop where
  step : ∃ f, FileStep fs node others node'.inode.size f fs' node'
  dir : DirRecords fs' node' others rs'

/-- A chunk is rewritten with another tiling. -/
theorem DirRecords.rewrite (h : DirRecords fs node others rs) {remaining k : Nat}
    {pre mid' post : List Dirent} {block : ByteStore} {fs' : Fs} {node' : Node}
    (hpos : k * fs.img.sb.blockSize + remaining = node.inode.size) (hr : remaining ≠ 0)
    (hpre : Records (fs.img.sb.fileByte fs.bytes node.inode) 0 pre (k * fs.img.sb.blockSize))
    (hpost : Records (fs.img.sb.fileByte fs.bytes node.inode)
      (k * fs.img.sb.blockSize + min remaining fs.img.sb.blockSize) post node.inode.size)
    (hmid : Records block 0 mid' (min remaining fs.img.sb.blockSize))
    (hne : fs.img.sb.fileBlock fs.bytes node.inode k ≠ 0)
    (hwrite : writeChunk node block (min remaining fs.img.sb.blockSize)
      (fs.img.sb.fileBlock fs.bytes node.inode k) fs = .ok node' fs') :
    DirStep fs node others (pre ++ (mid' ++ post)) fs' node' := by
  have hg := h.wf.1.geometry
  have hbs := hg.blockSize_ge
  obtain ⟨hstart, -, -⟩ := chunk_bounds hg h.whole hpos
  have hstep := writeChunk_ok h.wf hne (by omega) (by omega) (by omega) hwrite
  have hsize : node'.inode.size = node.inode.size := hstep.size
  have hstep' := hstep
  rw [← hsize] at hstep'
  refine ⟨⟨_, hstep'⟩, hstep.wf, by rw [hsize]; exact h.whole, ?_⟩
  rw [hsize, hstep.img]
  exact Records.replace hstart hpre hpost hmid hstep.byte

end

section
variable {name : List UInt8} {new_inode : Nat} {fs : Fs} {node : Node} {others : Multiset Nat}
  {rs : List Dirent}

/-- The loop of `nextufs__insert_dirent` over the chunks. -/
theorem insertInChunks_ok (hname : ValidName name) (hino : new_inode ≠ 0)
    (hlt : new_inode < 4294967296) (hdir : DirRecords fs node others rs) :
    ∀ {fuel remaining k : Nat} {found : Option Node} {fs' : Fs},
      (remaining ≠ 0 → k * fs.img.sb.blockSize + remaining = node.inode.size) →
      insertInChunks node name new_inode (direntSize name.length) fuel remaining k fs =
        .ok found fs' →
      (found = none → fs' = fs) ∧ ∀ node', found = some node' →
        ∃ rs', DirStep fs node others rs' fs' node' ∧
          OneMore (name, new_inode) (entries rs) (entries rs') := by
  intro fuel
  induction fuel with
  | zero =>
    intro remaining k found fs' _ h
    obtain ⟨rfl, rfl⟩ := pure_ok.mp h
    exact ⟨fun _ => rfl, fun _ h => by cases h⟩
  | succ fuel ih =>
    intro remaining k found fs' hrem h
    rw [insertInChunks] at h
    split at h
    case isTrue =>
      obtain ⟨rfl, rfl⟩ := pure_ok.mp h
      exact ⟨fun _ => rfl, fun _ h => by cases h⟩
    case isFalse h0 =>
      have hpos := hrem h0
      obtain ⟨-, -, hnext⟩ := chunk_bounds hdir.wf.1.geometry hdir.whole hpos
      obtain ⟨pre, mid, post, rfl, hpre, hmid, hpost⟩ := hdir.chunk hpos
      simp only [bind_ok, get_ok] at h
      obtain ⟨_, _, ⟨rfl, rfl⟩, block, fs₁, hread, h⟩ := h
      rw [readChunk_eq (FileWf.readable hdir.wf) (by omega)] at hread
      cases hread
      cases hscan : insertInChunk name new_inode (direntSize name.length)
          (ofList (fs.img.sb.fileBytes fs.bytes node.inode (k * fs.img.sb.blockSize)
            (min remaining fs.img.sb.blockSize))) (min remaining fs.img.sb.blockSize)
          (min remaining fs.img.sb.blockSize) 0 with
      | error e =>
        rw [hscan] at h
        exact (throw_ok.mp h).elim
      | ok block' =>
        rw [hscan] at h
        cases block' with
        | none => exact ih (fun h => by rw [hnext h]; omega) h
        | some block' =>
          simp only [bind_ok, pure_ok] at h
          obtain ⟨frag, _, hfrag, node₁, fs₁, hwrite, rfl, rfl⟩ := h
          obtain ⟨rfl, hne, rfl⟩ := chunkFrag_ok hfrag
          obtain ⟨mid', hmid', hmore, -⟩ := insertInChunk_ok hname hino hlt hmid hscan
          refine ⟨fun h => (nomatch h), fun node' h => ?_⟩
          cases h
          refine ⟨_, hdir.rewrite hpos h0 hpre hpost hmid' hne hwrite, ?_⟩
          simp only [entries_append]
          exact hmore.within _ _

/-- The record goes into a directory block of its own. -/
theorem insertInNewBlock_ok (hname : ValidName name) (hino : new_inode ≠ 0)
    (hlt : new_inode < 4294967296) (hdir : DirRecords fs node others rs) {need : Nat} {fs' : Fs}
    {node' : Node} (h : insertInNewBlock node name new_inode need fs = .ok node' fs') :
    ∃ rs', DirStep fs node others rs' fs' node' ∧
      OneMore (name, new_inode) (entries rs) (entries rs') := by
  simp only [insertInNewBlock, growDirectoryByDirblk, bind_ok, check_ok, failAs_ok, get_ok,
    Prod.exists, pure_ok, Prod.mk.injEq] at h
  obtain ⟨_, _, ⟨-, rfl⟩, node₁, off, fs₁, ⟨_, _, ⟨rfl, rfl⟩, _, _, ⟨-, rfl⟩, node₂, fs₂, hresize,
    frag, _, hres, _, _, ⟨hne, rfl⟩, ⟨rfl, rfl⟩, rfl⟩, h⟩ := h
  obtain ⟨rfl, rfl⟩ := resolveInodeDataBlock_ok hres
  obtain ⟨no, ino⟩ := node
  obtain ⟨no₂, ino₂⟩ := node₂
  have hstep := fileResize_ok hdir.wf hresize
  have hwhole := hdir.whole
  have hg := hdir.wf.1.geometry
  have hbs := hg.blockSize_ge
  have hbmod := hg.block_mod
  have himg := hstep.img
  have hsize : ino₂.size = ino.size + DIRBLKSIZ := hstep.size
  cases hraw : writeDirentRaw (fun _ => 0) 0 new_inode DIRBLKSIZ name with
  | error e =>
    rw [hraw] at h
    exact (throw_ok.mp h).elim
  | ok blk =>
    rw [hraw] at h
    simp only [bind_ok, failAs_ok, pure_ok] at h
    obtain ⟨u, fs₃, hwrite, rfl, rfl⟩ := h
    change ino.size % DIRBLKSIZ = 0 at hwhole
    change writeSlice blk DIRBLKSIZ
      (fs.fragOffset (fs₂.img.sb.fileBlock fs₂.bytes ino₂ (ino.size / fs.img.sb.blockSize)) +
        ino.size % fs.img.sb.blockSize) fs₂ = .ok u fs₃ at hwrite
    change fs₂.img.sb.fileBlock fs₂.bytes ino₂ (ino.size / fs.img.sb.blockSize) ≠ 0 at hne
    have hoff : fs.fragOffset = fs₂.fragOffset := by
      funext f
      rw [Fs.fragOffset, Fs.fragOffset, himg]
    have hpos := Nat.div_add_mod' ino.size fs.img.sb.blockSize
    have hmod := Nat.mod_lt ino.size (show 0 < fs.img.sb.blockSize by omega)
    have hfit : ino.size % fs.img.sb.blockSize + DIRBLKSIZ ≤ fs.img.sb.blockSize := by
      have hdvd : ino.size % fs.img.sb.blockSize % DIRBLKSIZ = 0 := by
        rw [Nat.mod_mod_of_dvd _ (Nat.dvd_of_mod_eq_zero (by unfold DIRBLKSIZ; omega))]
        exact hwhole
      unfold DIRBLKSIZ at *
      omega
    rw [hoff, ← himg] at hwrite
    rw [← himg] at hne hpos hfit
    have hedit := chunk_ok hstep.wf hne (show 0 < DIRBLKSIZ by decide) hfit
      (by change _ ≤ ino₂.size; omega) hwrite
    change Edited fs₂ ino₂ others _ fs₃ ino₂ at hedit
    rw [hpos] at hedit
    have hstep₂ := hstep.trans (@Edited.fileStep_same _ _ _ _ _ no₂ hedit)
    obtain ⟨hnew, -⟩ := writeDirentRaw_ok hname hino hlt (by simp) hraw
    have hblk : Records blk 0 [⟨new_inode, DIRBLKSIZ, name.length, name⟩] DIRBLKSIZ :=
      records_cons.mpr ⟨hnew, Nat.zero_add _⟩
    have hbyte : ∀ q < ino.size + DIRBLKSIZ, fs.img.sb.fileByte fs₃.bytes ino₂ q =
        if ino.size ≤ q ∧ q < ino.size + DIRBLKSIZ then blk (q - ino.size)
        else fs.img.sb.fileByte fs.bytes ino q := by
      intro q hq
      refine (hstep₂.byte q (by rwa [hsize])).trans ?_
      by_cases hin : ino.size ≤ q ∧ q < ino.size + DIRBLKSIZ
      · rw [if_pos hin, if_pos hin]
      · have hq' : q < ino.size := by omega
        rw [if_neg hin, if_neg hin, himg, hstep.byte q hq, if_pos hq']
    have hrecords := Records.replace hwhole hdir.records
      (show Records _ (ino.size + DIRBLKSIZ) [] (ino.size + DIRBLKSIZ) from rfl) hblk hbyte
    refine ⟨rs ++ ([⟨new_inode, DIRBLKSIZ, name.length, name⟩] ++ []),
      ⟨⟨_, hstep₂⟩, hstep₂.wf, ?_, ?_⟩, ?_⟩
    · change ino₂.size % DIRBLKSIZ = 0
      rw [hsize, Nat.add_mod_right]
      exact hwhole
    · rw [hstep₂.img]
      change Records (fs.img.sb.fileByte fs₃.bytes ino₂) 0 _ ino₂.size
      rw [hsize]
      exact hrecords
    · rw [entries_append, List.append_nil, entries_used hino, entries_nil]
      exact ⟨entries rs, [], (List.append_nil _).symm, rfl⟩

/-- `nextufs__insert_dirent`. -/
theorem insertDirent_ok (hname : ValidName name) (hino : new_inode ≠ 0)
    (hlt : new_inode < 4294967296) (hdir : DirRecords fs node others rs) {fs' : Fs} {node' : Node}
    (h : insertDirent node name new_inode fs = .ok node' fs') :
    ∃ rs', DirStep fs node others rs' fs' node' ∧
      OneMore (name, new_inode) (entries rs) (entries rs') := by
  simp only [insertDirent, bind_ok] at h
  obtain ⟨found, fs₁, hchunks, h⟩ := h
  obtain ⟨hnone, hsome⟩ := insertInChunks_ok hname hino hlt hdir
    (fun _ => by rw [Nat.zero_mul, Nat.zero_add]) hchunks
  cases found with
  | some node₁ =>
    obtain ⟨rfl, rfl⟩ := pure_ok.mp h
    exact hsome _ rfl
  | none =>
    obtain rfl := hnone rfl
    exact insertInNewBlock_ok hname hino hlt hdir h

/-- The directory's blocks in which `nextufs__remove_dirent` finds no unused record in its way. -/
def DirNoGap (name : List UInt8) (c : ByteStore) (size : Nat) : Prop :=
  ∀ b, b * DIRBLKSIZ < size → ∀ rs, Records (fun i => c (b * DIRBLKSIZ + i)) 0 rs DIRBLKSIZ →
    NoGap name rs

/-- `nextufs__remove_dirent`. -/
theorem removeInChunks_ok (hdir : DirRecords fs node others rs)
    (hgap : DirNoGap name (fs.img.sb.fileByte fs.bytes node.inode) node.inode.size) :
    ∀ {fuel remaining k removed : Nat} {fs' : Fs} {node' : Node},
      (remaining ≠ 0 → k * fs.img.sb.blockSize + remaining = node.inode.size) →
      removeInChunks node name fuel remaining k fs = .ok (node', removed) fs' →
      ∃ rs', DirStep fs node others rs' fs' node' ∧
        OneMore (name, removed) (entries rs') (entries rs) := by
  intro fuel
  induction fuel with
  | zero =>
    intro remaining k removed fs' node' _ h
    exact (throw_ok.mp h).elim
  | succ fuel ih =>
    intro remaining k removed fs' node' hrem h
    rw [removeInChunks] at h
    split at h
    case isTrue => exact (throw_ok.mp h).elim
    case isFalse h0 =>
      have hpos := hrem h0
      obtain ⟨hstart, hcut, hnext⟩ := chunk_bounds hdir.wf.1.geometry hdir.whole hpos
      obtain ⟨pre, mid, post, rfl, hpre, hmid, hpost⟩ := hdir.chunk hpos
      simp only [bind_ok, get_ok] at h
      obtain ⟨_, _, ⟨rfl, rfl⟩, block, fs₁, hread, frag, _, hfrag, h⟩ := h
      rw [readChunk_eq (FileWf.readable hdir.wf) (by omega)] at hread
      cases hread
      obtain ⟨rfl, hne, rfl⟩ := chunkFrag_ok hfrag
      set n := min remaining fs.img.sb.blockSize with hn
      set start := k * fs.img.sb.blockSize with hstart'
      set block := ofList (fs.img.sb.fileBytes fs.bytes node.inode start n) with hblock
      have hwhole : n % DIRBLKSIZ = 0 := by
        unfold DIRBLKSIZ at *
        omega
      have hgaps : ∀ base, base % DIRBLKSIZ = 0 → base < n → ∀ ss,
          Records (fun i => block (base + i)) 0 ss DIRBLKSIZ → NoGap name ss := by
        intro base hbase hlt ss hss
        have hfit : base + DIRBLKSIZ ≤ n := by
          unfold DIRBLKSIZ at *
          omega
        have hindex : (start + base) / DIRBLKSIZ * DIRBLKSIZ = start + base := by
          unfold DIRBLKSIZ at *
          omega
        refine hgap ((start + base) / DIRBLKSIZ) (by omega) ss (hss.of_same fun p _ hp => ?_)
        rw [hindex, hblock, ofList_fileBytes (by omega), Nat.add_assoc]
      cases hscan : removeInChunk name block n n 0 with
      | error e =>
        rw [hscan] at h
        exact (throw_ok.mp h).elim
      | ok found =>
        rw [hscan] at h
        cases found with
        | none => exact ih (fun h => by rw [hnext h]; omega) h
        | some found =>
          obtain ⟨block', removed'⟩ := found
          simp only [bind_ok, pure_ok, Prod.mk.injEq] at h
          obtain ⟨node₁, fs₁, hwrite, ⟨rfl, rfl⟩, rfl⟩ := h
          obtain ⟨mid', hmid', hmore⟩ := removeInChunk_ok hwhole hmid hgaps (Nat.zero_mod _) hscan
          refine ⟨_, hdir.rewrite hpos h0 hpre hpost hmid' hne hwrite, ?_⟩
          simp only [entries_append]
          exact hmore.within _ _

/-- `nextufs__remove_dirent`. -/
theorem removeDirent_ok (hdir : DirRecords fs node others rs)
    (hgap : DirNoGap name (fs.img.sb.fileByte fs.bytes node.inode) node.inode.size)
    {removed : Nat} {fs' : Fs} {node' : Node}
    (h : removeDirent node name fs = .ok (node', removed) fs') :
    ∃ rs', DirStep fs node others rs' fs' node' ∧
      OneMore (name, removed) (entries rs') (entries rs) :=
  removeInChunks_ok hdir hgap (fun _ => by rw [Nat.zero_mul, Nat.zero_add]) h

end

/-! ## Name maps -/

/-- The entries are those of a map: no name twice, and the pairs are the map's. -/
def Lists (es : List Entry) (m : List UInt8 → Option Nat) : Prop :=
  (es.map Prod.fst).Nodup ∧ ∀ name ino, (name, ino) ∈ es ↔ m name = some ino

theorem OneMore.perm {e : Entry} {es es' : List Entry} (h : OneMore e es es') :
    es'.Perm (e :: es) := by
  obtain ⟨l₁, l₂, rfl, rfl⟩ := h
  exact List.perm_middle

section
variable {es es' : List Entry} {m : List UInt8 → Option Nat} {name : List UInt8} {ino : Nat}

theorem Lists.insert (h : Lists es m) (hmore : OneMore (name, ino) es es') (hnew : m name = none) :
    Lists es' (Function.update m name (some ino)) := by
  have hperm := hmore.perm
  have hout : name ∉ es.map Prod.fst := by
    rintro hmem
    obtain ⟨⟨n, i⟩, hin, rfl⟩ := List.mem_map.mp hmem
    rw [(h.2 n i).mp hin] at hnew
    cases hnew
  refine ⟨(hperm.map Prod.fst).nodup_iff.mpr (List.nodup_cons.mpr ⟨hout, h.1⟩), fun n i => ?_⟩
  rw [hperm.mem_iff, List.mem_cons]
  by_cases hn : n = name
  · subst hn
    rw [Function.update_self]
    constructor
    · rintro (heq | hin)
      · rw [(Prod.mk.inj heq).2]
      · exact absurd (List.mem_map_of_mem hin) hout
    · intro heq
      rw [Option.some.inj heq]
      exact .inl rfl
  · rw [Function.update_of_ne hn, h.2]
    constructor
    · rintro (heq | hin)
      · exact absurd (Prod.mk.inj heq).1 hn
      · exact hin
    · exact .inr

theorem Lists.remove (h : Lists es m) (hmore : OneMore (name, ino) es' es) :
    Lists es' (Function.update m name none) := by
  have hperm := hmore.perm
  obtain ⟨hout, hnd⟩ := List.nodup_cons.mp ((hperm.map Prod.fst).nodup_iff.mp h.1)
  refine ⟨hnd, fun n i => ?_⟩
  by_cases hn : n = name
  · subst hn
    rw [Function.update_self]
    exact ⟨fun hin => absurd (List.mem_map_of_mem hin) hout, fun h => nomatch h⟩
  · rw [Function.update_of_ne hn, ← h.2, hperm.mem_iff, List.mem_cons]
    constructor
    · exact .inr
    · rintro (heq | hin)
      · exact absurd (Prod.mk.inj heq).1 hn
      · exact hin

end

/-! ## Runs of calls -/

/-- A directory whose content is well formed and lists a map. -/
structure DirOk (fs : Fs) (node : Node) (others : Multiset Nat) (m : List UInt8 → Option Nat) :
    Prop where
  wf : FileWf fs node.inode others
  content : DirWf (fs.img.sb.fileByte fs.bytes node.inode) node.inode.size
  lists : ∃ es, directoryEntries node.inode fs = .ok es fs ∧ Lists es m

/-- A call on a directory. -/
inductive DirCall where
  | insert (name : List UInt8) (ino : Nat)
  | remove (name : List UInt8)

def DirCall.run : DirCall → Node → FsM Node
  | .insert name ino, node => insertDirent node name ino
  | .remove name, node => do
    let (node, _) ← removeDirent node name
    return node

/-- What a call is to do to the map. -/
def DirCall.apply : DirCall → (List UInt8 → Option Nat) → List UInt8 → Option Nat
  | .insert name ino, m => Function.update m name (some ino)
  | .remove name, m => Function.update m name none

/-- A valid name not yet present goes in; a present name other than `.` and `..` goes out. -/
def DirCall.Fits : DirCall → (List UInt8 → Option Nat) → Prop
  | .insert name ino, m => ValidName name ∧ ino ≠ 0 ∧ ino < 4294967296 ∧ m name = none
  | .remove name, m => m name ≠ none ∧ name ≠ dot ∧ name ≠ dotdot

/-- No unused record stands in the way of a removal. -/
def DirCall.Clear : DirCall → Fs → Node → Prop
  | .insert .., _, _ => True
  | .remove name, fs, node =>
    DirNoGap name (fs.img.sb.fileByte fs.bytes node.inode) node.inode.size

/-- Runs of successful calls, each of them clear. -/
inductive DirRun : Fs → Node → (List UInt8 → Option Nat) → Fs → Node →
    (List UInt8 → Option Nat) → Prop
  | nil (fs : Fs) (node : Node) (m : List UInt8 → Option Nat) : DirRun fs node m fs node m
  | snoc {fs fs₁ fs₂ : Fs} {node node₁ node₂ : Node} {m m₁ : List UInt8 → Option Nat}
      {call : DirCall} : DirRun fs node m fs₁ node₁ m₁ → call.Fits m₁ → call.Clear fs₁ node₁ →
      call.run node₁ fs₁ = .ok node₂ fs₂ → DirRun fs node m fs₂ node₂ (call.apply m₁)

theorem DirOk.records {fs : Fs} {node : Node} {others : Multiset Nat}
    {m : List UInt8 → Option Nat} (h : DirOk fs node others m) :
    ∃ rs, DirRecords fs node others rs ∧ Lists (entries rs) m := by
  obtain ⟨rs, hrs, -⟩ := h.content.records
  obtain ⟨es, hes, hlists⟩ := h.lists
  have hread := directoryEntries_eq (FileWf.readable h.wf) h.content.whole hrs
  rw [hread] at hes
  cases hes
  exact ⟨rs, ⟨h.wf, h.content.whole, hrs⟩, hlists⟩

theorem DirRecords.dirOk {fs : Fs} {node : Node} {others : Multiset Nat} {rs : List Dirent}
    {m : List UInt8 → Option Nat} (h : DirRecords fs node others rs) (hm : Lists (entries rs) m) :
    DirOk fs node others m :=
  ⟨h.wf, DirWf.of_records h.whole h.records hm.1,
    entries rs, directoryEntries_eq (FileWf.readable h.wf) h.whole h.records, hm⟩

/-- One call. -/
theorem DirCall.run_ok {fs fs' : Fs} {node node' : Node} {others : Multiset Nat}
    {m : List UInt8 → Option Nat} {call : DirCall} (h : DirOk fs node others m)
    (hfits : call.Fits m) (hclear : call.Clear fs node) (hrun : call.run node fs = .ok node' fs') :
    DirOk fs' node' others (call.apply m) := by
  obtain ⟨rs, hdir, hlists⟩ := h.records
  cases call with
  | insert name ino =>
    obtain ⟨hname, hino, hlt, hnew⟩ := hfits
    obtain ⟨rs', hstep, hmore⟩ := insertDirent_ok hname hino hlt hdir hrun
    exact hstep.dir.dirOk (hlists.insert hmore hnew)
  | remove name =>
    simp only [DirCall.run, bind_ok, pure_ok, Prod.exists] at hrun
    obtain ⟨node₁, removed, fs₁, hremove, rfl, rfl⟩ := hrun
    obtain ⟨rs', hstep, hmore⟩ := removeDirent_ok hdir hclear hremove
    exact hstep.dir.dirOk (hlists.remove hmore)

/-- Inserting and removing records: in every state of every run. -/
theorem directory_runs {fs fs' : Fs} {node node' : Node} {others : Multiset Nat}
    {m m' : List UInt8 → Option Nat} (h : DirOk fs node others m)
    (hrun : DirRun fs node m fs' node' m') : DirOk fs' node' others m' := by
  induction hrun with
  | nil => exact h
  | snoc _ hfits hclear hcall ih => exact DirCall.run_ok (ih h) hfits hclear hcall

/-! ## A removed name that stays -/

/-- A directory block: `a` for inode 5 in 16 bytes, an unused record of 504, and `t` for inode 6
in the last 504. -/
def gapBlock : ByteStore := fun i =>
  ([(3, 5), (5, 16), (7, 1), (8, 0x61), (20, 1), (21, 0xf8), (523, 6), (524, 1), (525, 0xf8),
    (527, 1), (528, 0x74)] : List (Nat × UInt8)).lookup i |>.getD 0

/-- A directory whose one fragment holds that block. -/
def gapDir : Inode :=
  { mode := 0o040755, nlink := 2, uid := 0, gid := 0, size := 1024
    db := fun k => if k = 0 then 44 else 0, ib := fun _ => 0, flags := 0, blocks := 1, gen := 0 }

def gapFs : Fs :=
  { oneGroupFs with
    inode := fun _ => gapDir
    bytes := fun p => if 45056 ≤ p ∧ p < 46080 then gapBlock (p - 45056) else 0 }

def gapMap : List UInt8 → Option Nat := fun name =>
  if name = [0x61] then some 5 else if name = [0x74] then some 6 else none

theorem gapFs_file : FileWf gapFs gapDir (gapFs.used.erase 44) := by
  have hsound : gapFs.Sound :=
    ⟨by decide +kernel, ⟨oneGroupFs_consistent.group, oneGroupFs_consistent.summary,
      oneGroupFs_consistent.ndir, oneGroupFs_consistent.nbfree, oneGroupFs_consistent.nifree,
      oneGroupFs_consistent.nffree⟩, by decide, by decide, by decide⟩
  have hslots : ∀ s, gapFs.img.sb.slotTree gapFs.bytes gapDir s = .hole :=
    fun _ => BlockTree.load_null ..
  have hlen : fileFrags gapFs.img.sb gapDir.size 0 = 1 := by decide
  have hown : gapFs.img.sb.fileOwn gapFs.bytes gapDir (fileFrags gapFs.img.sb gapDir.size) = {44} := by
    rw [Superblock.fileOwn, Finset.sum_eq_single 0]
    · simp only [hslots, hlen]
      rw [show ∑ _ ∈ Finset.range 3, gapFs.img.sb.own BlockTree.hole = 0 from
        Finset.sum_const_zero, add_zero]
      rfl
    · intro k _ hk
      rw [show gapDir.db k = 0 from if_neg hk, extent_null]
    · intro h0
      exact absurd (Finset.mem_range.mpr (by decide)) h0
  refine ⟨⟨⟨hsound, fun k hk hne => ?_, fun s _ => ?_, ?_⟩, ?_⟩, by decide⟩
  · obtain rfl : k = 0 := by
      by_contra hk0
      exact hne (if_neg hk0)
    rw [hlen]
    exact ⟨⟨by decide, by decide, by decide, by decide⟩, by decide⟩
  · rw [hslots]
    trivial
  · rw [hown]
    exact Multiset.cons_erase (Fs.mem_used.mpr (by decide))
  · rw [hown]
    rfl

/-- The records of that block. -/
def gapRecords : List Dirent := [⟨5, 16, 1, [0x61]⟩, ⟨0, 504, 0, []⟩, ⟨6, 504, 1, [0x74]⟩]

theorem gapFs_records : DirRecords gapFs ⟨2, gapDir⟩ (gapFs.used.erase 44) gapRecords :=
  ⟨gapFs_file, rfl, ⟨by decide +kernel, by decide +kernel, by decide +kernel, rfl⟩⟩

theorem gapFs_dir : DirOk gapFs ⟨2, gapDir⟩ (gapFs.used.erase 44) gapMap := by
  refine gapFs_records.dirOk ⟨by decide, fun name ino => ?_⟩
  have hentries : entries gapRecords = [([0x61], 5), ([0x74], 6)] := rfl
  rw [hentries, List.mem_pair, Prod.mk.injEq, Prod.mk.injEq]
  unfold gapMap
  by_cases ha : name = [0x61]
  · subst ha
    simp [eq_comm]
  by_cases ht : name = [0x74]
  · subst ht
    simp [eq_comm]
  · simp [ha, ht]

/-- Removing `t` succeeds, and the directory still lists it. -/
theorem remove_dirent_keeps_name :
    DirOk gapFs ⟨2, gapDir⟩ (gapFs.used.erase 44) gapMap ∧ (DirCall.remove [0x74]).Fits gapMap ∧
      ∃ node' fs', (DirCall.remove [0x74]).run ⟨2, gapDir⟩ gapFs = .ok node' fs' ∧
        (∃ fs'', directoryEntries node'.inode fs' = .ok [([0x61], 5), ([0x74], 6)] fs'') ∧
        ¬ DirOk fs' node' (gapFs.used.erase 44) ((DirCall.remove [0x74]).apply gapMap) := by
  refine ⟨gapFs_dir, ⟨by decide, by decide, by decide⟩, ?_⟩
  obtain ⟨fs₁, h⟩ := exists_of_value (show value ((do
    let node ← (DirCall.remove [0x74]).run ⟨2, gapDir⟩
    directoryEntries node.inode) gapFs) =
      (some [([0x61], 5), ([0x74], 6)] : Option (List (List UInt8 × Nat))) by decide +kernel)
  obtain ⟨node', fs', hrun, hentries⟩ := bind_ok.mp h
  refine ⟨node', fs', hrun, ⟨fs₁, hentries⟩, fun hok => ?_⟩
  obtain ⟨es, hes, -, hlists⟩ := hok.lists
  rw [hentries] at hes
  cases hes
  have := (hlists [0x74] 6).mp (by decide)
  cases this

/-- Nothing stands before the first name. -/
theorem gapFs_clear : (DirCall.remove [0x61]).Clear gapFs ⟨2, gapDir⟩ := by
  intro b hb rs hrs
  obtain rfl : b = 0 := by
    change b * 1024 < 1024 at hb
    omega
  obtain rfl : rs = gapRecords := hrs.unique (gapFs_records.records.of_same fun p _ _ => by
    rw [Nat.zero_mul, Nat.zero_add])
  intro pre p gap t post heq _ _ htused htname
  have hmem : t ∈ gapRecords.tail := by
    rw [heq]
    cases pre <;> simp
  rcases List.mem_pair.mp hmem with rfl | rfl
  · exact absurd rfl htused
  · exact absurd htname (by decide)

/-- The first name removed from the same directory and another put in. -/
theorem directory_runs_two : ∃ node' fs', DirRun gapFs ⟨2, gapDir⟩ gapMap fs' node'
      ((DirCall.insert [0x62, 0x63] 7).apply ((DirCall.remove [0x61]).apply gapMap)) ∧
    DirOk fs' node' (gapFs.used.erase 44)
      ((DirCall.insert [0x62, 0x63] 7).apply ((DirCall.remove [0x61]).apply gapMap)) := by
  obtain ⟨node', fs', h⟩ := exists_of_finishes (show finishes ((do
    let node ← (DirCall.remove [0x61]).run ⟨2, gapDir⟩
    (DirCall.insert [0x62, 0x63] 7).run node) gapFs) = true by decide +kernel)
  obtain ⟨node₁, fs₁, hremove, hinsert⟩ := bind_ok.mp h
  have hname : ValidName [0x62, 0x63] := ⟨by decide, by decide, by decide, by decide⟩
  have hout : (DirCall.remove [0x61]).Fits gapMap := ⟨by decide, by decide, by decide⟩
  have hin : (DirCall.insert [0x62, 0x63] 7).Fits ((DirCall.remove [0x61]).apply gapMap) :=
    ⟨hname, by decide, by decide, by decide⟩
  have hrun := ((DirRun.nil gapFs ⟨2, gapDir⟩ gapMap).snoc hout gapFs_clear hremove).snoc hin
    trivial hinsert
  exact ⟨node', fs', hrun, directory_runs gapFs_dir hrun⟩

end NextUfs.Mutate
