/-
NextUfs.Core.PathTheorems — what a successful lookup finds.

§1 A path is its components (`components`), and whether it ends in two slashes
(`Doubled`); nothing else of it matters.
§2 What a symbolic link says (`linkTarget`), and the part of it that fits the
lookup's buffer.
§3 A filesystem as a name space (`Fs.names`); the loop of the lookup goes down
it (`lookupSegments_ok`).
§4 The whole lookup (`lookup_resolves`). It follows a last link that two
slashes stand behind although it was told not to, and a target longer than its
buffer is cut short.
-/
import NextUfs.Core.Path
import NextUfs.Core.DirectoryTheorems
import NextUfs.Lib.NameSpace
import Mathlib.Data.List.TakeWhile

namespace NextUfs.Core

open NextUfs.Lib NextUfs.Lib.ByteStore NextUfs.Lib.StateResult

/-! ## §1 Components -/

/-- What stands between the slashes of a path, where that is not empty. -/
def components (path : List UInt8) : List (List UInt8) :=
  (path.splitOn SLASH).filter fun c => !c.isEmpty

/-- The path ends in two slashes. -/
def Doubled (path : List UInt8) : Prop := [SLASH, SLASH] <:+ path

instance (path : List UInt8) : Decidable (Doubled path) := by
  unfold Doubled
  infer_instance

section
variable {s l m seg : List UInt8}

theorem strsep_spec (s : List UInt8) :
    SLASH ∉ (strsep s).1 ∧ s = (strsep s).1 ++ (strsep s).2.elim [] (SLASH :: ·) := by
  induction s with
  | nil => exact ⟨List.not_mem_nil, rfl⟩
  | cons c s ih =>
    by_cases hc : c = SLASH
    · subst hc
      exact ⟨by simp [strsep], by simp [strsep]⟩
    · refine ⟨?_, ?_⟩
      · simp only [strsep, if_neg hc, List.mem_cons, not_or]
        exact ⟨Ne.symm hc, ih.1⟩
      · simp only [strsep, if_neg hc, List.cons_append]
        rw [← ih.2]

@[simp] theorem components_nil : components [] = [] := rfl

theorem components_append (l m : List UInt8) :
    components (l ++ SLASH :: m) = components l ++ components m := by
  rw [components, List.splitOn_append_cons_self, List.filter_append]
  rfl

@[simp] theorem components_slash (m : List UInt8) : components (SLASH :: m) = components m :=
  components_append [] m

theorem components_single (h : SLASH ∉ seg) (hne : seg ≠ []) : components seg = [seg] := by
  rw [components, List.splitOn_eq_singleton h]
  simp [hne]

/-- Leading slashes do not matter. -/
theorem components_dropWhile (s : List UInt8) :
    components (s.dropWhile (· = SLASH)) = components s := by
  induction s with
  | nil => rfl
  | cons c s ih =>
    by_cases hc : c = SLASH
    · subst hc
      rw [List.dropWhile_cons_of_pos (by simp), ih, components_slash]
    · rw [List.dropWhile_cons_of_neg (by simpa using hc)]

/-- A path without components is slashes only. -/
theorem eq_slashes (h : components s = []) : s = List.replicate s.length SLASH := by
  induction s with
  | nil => rfl
  | cons c s ih =>
    by_cases hc : c = SLASH
    · subst hc
      rw [components_slash] at h
      rw [List.length_cons, List.replicate_succ, ← ih h]
    · exfalso
      obtain ⟨hmem, hs⟩ := strsep_spec s
      have hseg : SLASH ∉ c :: (strsep s).1 := by
        rw [List.mem_cons, not_or]
        exact ⟨Ne.symm hc, hmem⟩
      rw [hs, ← List.cons_append] at h
      cases hcur : (strsep s).2 with
      | none =>
        rw [hcur, Option.elim_none, List.append_nil, components_single hseg (by simp)] at h
        cases h
      | some r =>
        rw [hcur, Option.elim_some, components_append, components_single hseg (by simp)] at h
        cases h

theorem doubled_slashes (h : components m = []) (hne : m ≠ []) : Doubled (l ++ SLASH :: m) := by
  obtain ⟨k, hk⟩ : ∃ k, m.length = k + 1 := Nat.exists_eq_succ_of_ne_zero (by simpa using hne)
  have hm : SLASH :: m = List.replicate k SLASH ++ [SLASH, SLASH] := by
    rw [eq_slashes h, hk, ← List.replicate_succ]
    exact List.replicate_add k 2 SLASH
  rw [hm, ← List.append_assoc]
  exact List.suffix_append _ _

/-- The end of a path decides, if it has two bytes. -/
theorem doubled_append_iff (h : 2 ≤ m.length) : Doubled (l ++ m) ↔ Doubled m := by
  constructor
  · intro hd
    exact List.suffix_of_suffix_length_le hd (List.suffix_append l m) h
  · exact fun hd => hd.trans (List.suffix_append l m)

theorem not_doubled_of_not_mem (h : SLASH ∉ m) : ¬ Doubled (m ++ [SLASH]) := by
  rintro ⟨x, hx⟩
  have hcut : x ++ [SLASH] = m := by
    have happ : (x ++ [SLASH]) ++ [SLASH] = m ++ [SLASH] := by
      rw [← hx, List.append_assoc]
      rfl
    exact List.append_cancel_right happ
  exact h (by rw [← hcut]; simp)

theorem Doubled.mem (h : Doubled s) : SLASH ∈ s := h.subset (List.mem_cons_self ..)

/-- A part with a component in it decides how the path ends. -/
theorem doubled_append (h : components m ≠ []) : Doubled (l ++ m) ↔ Doubled m := by
  by_cases hlen : 2 ≤ m.length
  · exact doubled_append_iff hlen
  rcases m with _ | ⟨c, _ | ⟨d, m⟩⟩
  · exact absurd rfl h
  · have hc : c ≠ SLASH := by
      rintro rfl
      exact h rfl
    constructor
    · rintro ⟨x, hx⟩
      have hlast := congrArg List.getLast? hx
      simp only [List.getLast?_append, List.getLast?_cons_cons, List.getLast?_singleton,
        Option.some_or] at hlast
      exact absurd (Option.some.inj hlast).symm hc
    · intro hd
      exact absurd hd.length_le (by simp)
  · exact absurd (by simp) hlen

theorem doubled_dropWhile (h : components s ≠ []) :
    Doubled (s.dropWhile (· = SLASH)) ↔ Doubled s := by
  have hsplit := List.takeWhile_append_dropWhile (p := fun c => decide (c = SLASH)) (l := s)
  have hd := doubled_append (l := s.takeWhile (· = SLASH)) (m := s.dropWhile (· = SLASH))
    (by rwa [components_dropWhile])
  rw [hsplit] at hd
  exact hd.symm

end

/-! ## §2 What a link says -/

/-- `NEXTUFS_IC_FASTLINK`, with a length the inode has room for. -/
def Inode.isFast (ino : Inode) : Prop :=
  ino.flags &&& NEXTUFS_IC_FASTLINK ≠ 0 ∧ ino.size ≠ 0 ∧ ino.size ≤ 60

instance (ino : Inode) : Decidable ino.isFast := by
  unfold Inode.isFast
  infer_instance

/-- The whole target of a symbolic link. -/
def Fs.linkTarget (fs : Fs) (ino : Inode) : List UInt8 :=
  if ino.isFast then (inlineRaw ino).take ino.size else fs.img.sb.content fs.bytes ino

theorem length_inlineRaw (ino : Inode) : (inlineRaw ino).length = 60 := by
  simp [inlineRaw, List.length_flatMap]

theorem content_take (fs : Fs) (ino : Inode) (n : Nat) :
    fs.img.sb.fileBytes fs.bytes ino 0 (min (ino.size - 0) n) =
      (fs.img.sb.content fs.bytes ino).take n := by
  rw [Superblock.content, Superblock.fileBytes, Superblock.fileBytes, ← List.map_take,
    List.take_range, Nat.sub_zero, Nat.min_comm]

/-- A reader with a buffer gets what fits before the NUL. -/
theorem inodeReadlink_ok {fs fs' : Fs} {ino : Inode} {n : Nat} {out : List UInt8}
    (hread : ¬ ino.isFast → fs.Readable ino) (h : inodeReadlink ino (n + 1) fs = .ok out fs') :
    fs = fs' ∧ out = (fs.linkTarget ino).take n := by
  simp only [inodeReadlink, bind_ok, check_ok] at h
  obtain ⟨_, _, ⟨⟨hlnk, -⟩, rfl⟩, h⟩ := h
  by_cases hfast : ino.isFast
  · have hgot : decodeInlineSymlink ino (n + 1) = (fs.linkTarget ino).take n := by
      obtain ⟨hflag, hzero, hle⟩ := hfast
      rw [Fs.linkTarget, if_pos ⟨hflag, hzero, hle⟩, decodeInlineSymlink,
        if_neg (by simp [hlnk, hflag, hzero, hle]), List.take_take]
      split <;> congr 1 <;> omega
    rw [hgot] at h
    split at h
    next => exact ⟨(pure_ok.mp h).2, (pure_ok.mp h).1.symm⟩
    next hnil =>
      -- no room before the NUL
      rw [not_not] at hnil
      have hn : n = 0 := by
        have hlen := congrArg List.length hnil
        rw [Fs.linkTarget, if_pos hfast, List.length_take, List.length_take, length_inlineRaw,
          List.length_nil] at hlen
        have := hfast.2
        omega
      subst hn
      rw [failAs_ok] at h
      simp only [inodeReadData, bind_ok, get_ok, check_ok] at h
      obtain ⟨_, _, ⟨rfl, rfl⟩, _, _, ⟨-, rfl⟩, h⟩ := h
      rw [if_neg (by have := hfast.2; omega), show min (ino.size - 0) (0 + 1 - 1) = 0 from
        Nat.min_zero _] at h
      obtain ⟨rfl, rfl⟩ := pure_ok.mp h
      exact ⟨rfl, List.take_zero.symm⟩
  · have hnil : decodeInlineSymlink ino (n + 1) = [] := by
      unfold Inode.isFast at hfast
      rw [decodeInlineSymlink, if_pos]
      by_contra hnot
      simp only [not_or, not_not] at hnot
      exact hfast ⟨hnot.2.1, hnot.2.2.1, by omega⟩
    rw [hnil, if_neg (by simp), failAs_ok] at h
    obtain ⟨keep, hslots⟩ := (hread hfast).slots
    rw [Nat.add_sub_cancel, inodeReadData_eq (hread hfast).sound hslots (hread hfast).fits
      (hread hfast).reach, content_take] at h
    rw [Fs.linkTarget, if_neg hfast]
    cases h
    exact ⟨rfl, rfl⟩

/-! ## §3 Names -/

/-- How many inodes there are. -/
def Fs.inodeCount (fs : Fs) : Nat := fs.img.sb.cgCount * fs.img.sb.inodesPerGroup

/-- A directory's entries. -/
def Fs.entriesOf (fs : Fs) (ino : Inode) : List (List UInt8 × Nat) :=
  (value (directoryEntries ino fs)).getD []

/-- The filesystem as a name space. -/
def Fs.names (fs : Fs) : NameSpace Nat (List UInt8) where
  root := NEXTUFS_ROOT_INODE
  entry i name := if (fs.inode i).isDir then (fs.entriesOf (fs.inode i)).lookup name else none
  link i :=
    if (fs.inode i).isLnk then
      let target := fs.linkTarget (fs.inode i)
      some (target.head? = some SLASH, components target)
    else none

/-- A tree whose directories and links can be read: the directories are well formed, and no target
holds a NUL. -/
structure Fs.TreeOk (fs : Fs) : Prop where
  root : (fs.inode NEXTUFS_ROOT_INODE).isDir
  dir : ∀ i < fs.inodeCount, (fs.inode i).isDir → fs.Readable (fs.inode i) ∧
    DirWf (fs.img.sb.fileByte fs.bytes (fs.inode i)) (fs.inode i).size
  link : ∀ i < fs.inodeCount, (fs.inode i).isLnk → ¬ (fs.inode i).isFast →
    fs.Readable (fs.inode i)
  target : ∀ i < fs.inodeCount, (fs.inode i).isLnk → 0 ∉ fs.linkTarget (fs.inode i)

theorem foldStop_find (name : List UInt8) (es : List (List UInt8 × Nat)) (v : Nat) :
    (foldStop (fun ino n target => if n = name then (ino, true) else (target, false)) es v).1 =
      (es.lookup name).getD v := by
  induction es with
  | nil => rfl
  | cons e es ih =>
    obtain ⟨n, ino⟩ := e
    rw [foldStop, List.lookup_cons]
    by_cases hn : n = name
    · simp [hn]
    · rw [if_neg (by simp [hn]), ite_cond_eq_false _ _ (by simp [hn]), ih]
      have hne : (name == n) = false := by simpa using Ne.symm hn
      rw [hne]

/-- `nextufs__find_name_in_directory` looks the name up. -/
theorem findNameInDirectory_ok {fs fs' : Fs} {i v : Nat} {name : List UInt8} (ht : fs.TreeOk)
    (hi : i < fs.inodeCount) (hdir : (fs.inode i).isDir)
    (h : findNameInDirectory (fs.inode i) name fs = .ok v fs') :
    fs = fs' ∧ (v ≠ 0 → fs.names.entry i name = some v) := by
  obtain ⟨hread, hwf⟩ := ht.dir i hi hdir
  obtain ⟨rs, hrs, -⟩ := hwf.records
  have hentries : fs.entriesOf (fs.inode i) = entries rs := by
    rw [Fs.entriesOf, directoryEntries_eq hread hwf.whole hrs]
    rfl
  simp only [findNameInDirectory, bind_ok, pure_ok, Prod.exists] at h
  obtain ⟨_, _, _, hiter, rfl, rfl⟩ := h
  rw [directoryIterate_eq _ hread hwf.whole hrs] at hiter
  have hpair := EStateM.Result.ok.inj hiter
  refine ⟨hpair.2, fun hv => ?_⟩
  have hval := congrArg Prod.fst hpair.1
  rw [foldStop_find] at hval
  simp only [Fs.names, if_pos hdir, hentries]
  cases hl : (entries rs).lookup name with
  | none => rw [hl] at hval; exact absurd hval.symm hv
  | some w => rw [hl] at hval; exact congrArg some hval

theorem inodeRead_ok {fs fs' : Fs} {i : Nat} {ino : Inode} (h : inodeRead i fs = .ok ino fs') :
    fs = fs' ∧ ino = fs.inode i ∧ i < fs.inodeCount := by
  simp only [inodeRead, bind_ok, get_ok, check_ok, pure_ok] at h
  obtain ⟨_, _, ⟨rfl, rfl⟩, _, _, ⟨⟨-, hlt⟩, rfl⟩, _, _, ⟨-, rfl⟩, rfl, rfl⟩ := h
  exact ⟨rfl, rfl, hlt⟩

theorem ofStatus_ok {st : Status} {fs fs' : Fs} {u : PUnit} (h : ofStatus st fs = .ok u fs') :
    fs = fs' := by
  cases st with
  | none => exact (pure_ok.mp h).2
  | some e => cases h

/-- Where the loop stands: a path without links leads to the node, and names it. -/
structure Stands (fs : Fs) (pre : List UInt8) (node : Node) : Prop where
  reaches : fs.names.Reaches NEXTUFS_ROOT_INODE (components pre) node.inodeNo
  inode : node.inode = fs.inode node.inodeNo
  lt : node.inodeNo < fs.inodeCount

theorem components_appendPathComponent {pre component path : List UInt8}
    (hmem : SLASH ∉ component) (hne : component ≠ [])
    (h : appendPathComponent pre component = some path) :
    components path = components pre ++ [component] := by
  have htmp : components (if pre = [SLASH] ∨ pre = [] then SLASH :: component
      else pre ++ SLASH :: component) = components pre ++ [component] := by
    split
    next hroot =>
      rw [components_slash, components_single hmem hne]
      rcases hroot with rfl | rfl <;> rfl
    next => rw [components_append, components_single hmem hne]
  unfold appendPathComponent at h
  revert h htmp
  generalize (if pre = [SLASH] ∨ pre = [] then SLASH :: component
      else pre ++ SLASH :: component) = tmp
  dsimp only
  intro h htmp
  split at h
  · cases h
  · rw [← Option.some.inj h, htmp]

/-- The spliced path is the target's, from the root or behind the directory's. -/
theorem components_splicePath (pre target remainder : List UInt8) :
    components (splicePath pre target remainder) =
      (if target.head? = some SLASH then [] else components pre) ++
        (components target ++ components remainder) := by
  have hend : ∀ l : List UInt8, components (l ++ if remainder = [] then [] else SLASH :: remainder) =
      components l ++ components remainder := by
    intro l
    split
    next hnil => rw [hnil, List.append_nil, components_nil, List.append_nil]
    next => exact components_append l remainder
  rw [splicePath, hend]
  split
  · rw [List.nil_append]
  · rw [components_append, List.append_assoc]

theorem doubled_splicePath {pre target remainder : List UInt8} (h : remainder ≠ [])
    (l : List UInt8) : Doubled (splicePath pre target remainder) ↔ Doubled (l ++ SLASH :: remainder) := by
  have hlen : 2 ≤ (SLASH :: remainder).length := by
    have := List.length_pos_iff.mpr h
    rw [List.length_cons]
    omega
  rw [splicePath, if_neg h, doubled_append_iff hlen, doubled_append_iff hlen]

/-- Whether a last link is followed in a path: when the caller says so, and when two slashes stand
behind it. -/
def Follows (follow : Bool) (path : List UInt8) (fl : Bool) : Prop :=
  components path ≠ [] → (fl = true ↔ follow = true ∨ Doubled path)

/-- At a link: the path to start over with names what the rest of the path named, if the link's
target was read whole. -/
structure StartsOver (fs : Fs) (follow fl : Bool) (i : Nat) (cs : List (List UInt8))
    (path : List UInt8) : Prop where
  expands : ∃ j k ds, (∀ n, fs.names.visit fl (n + 1) i cs =
      (j :: (fs.names.visit fl n k ds).1, (fs.names.visit fl n k ds).2)) ∧
    ((fs.linkTarget (fs.inode j)).length < NEXTUFS_MAX_PATH_LEN → Follows follow path fl ∧
      ∀ n, fs.names.visit fl n NEXTUFS_ROOT_INODE (components path) = fs.names.visit fl n k ds)

/-- What one run of the loop is to do. -/
def Arrives (fs : Fs) (follow fl : Bool) (i : Nat) (cs : List (List UInt8)) :
    Node ⊕ List UInt8 → Prop
  | .inl node => node.inode = fs.inode node.inodeNo ∧
      ∀ n, fs.names.visit fl n i cs = ([], some node.inodeNo)
  | .inr path => StartsOver fs follow fl i cs path

section
variable {fs fs' : Fs} {ctx : Option WriteCtx} {follow fl : Bool} {pre : List UInt8} {node : Node}
  {r : Node ⊕ List UInt8}

/-- At the end of a path the loop stops. -/
theorem lookupSegments_end : ∀ {fuel : Nat} {cursor : Option (List UInt8)},
    components (cursor.getD []) = [] →
    lookupSegments ctx follow fuel pre node cursor fs = .ok r fs' → fs = fs' ∧ r = .inl node := by
  intro fuel
  induction fuel with
  | zero =>
    intro cursor _ h
    obtain ⟨rfl, rfl⟩ := pure_ok.mp h
    exact ⟨rfl, rfl⟩
  | succ fuel ih =>
    intro cursor hnil h
    cases cursor with
    | none =>
      obtain ⟨rfl, rfl⟩ := pure_ok.mp h
      exact ⟨rfl, rfl⟩
    | some s =>
      obtain ⟨hmem, hs⟩ := strsep_spec s
      have hslashes := eq_slashes (s := s) hnil
      have hseg : (strsep s).1 = [] := by
        by_contra hne
        obtain ⟨c, hc⟩ := List.exists_mem_of_ne_nil _ hne
        have hin : c ∈ s := by rw [hs]; exact List.mem_append_left _ hc
        rw [hslashes] at hin
        exact hmem ((List.eq_of_mem_replicate hin) ▸ hc)
      rw [lookupSegments, if_pos hseg] at h
      refine ih ?_ h
      rw [hseg, List.nil_append] at hs
      cases hcur : (strsep s).2 with
      | none => rfl
      | some t =>
        rw [hcur, Option.elim_some] at hs
        change components s = [] at hnil
        rwa [hs, components_slash] at hnil

theorem cString_eq {l : List UInt8} (h : 0 ∉ l) : cString l = l :=
  List.takeWhile_eq_self_iff.mpr fun _ hc => decide_eq_true fun h0 => h (h0 ▸ hc)

theorem Arrives.of_visit {i k : Nat} {cs ds : List (List UInt8)}
    (h : ∀ n, fs.names.visit fl n i cs = fs.names.visit fl n k ds)
    (ha : Arrives fs follow fl k ds r) : Arrives fs follow fl i cs r := by
  cases r with
  | inl node => exact ⟨ha.1, fun n => (h n).trans (ha.2 n)⟩
  | inr path =>
    obtain ⟨j, k', ds', hv, hshort⟩ := ha.expands
    exact ⟨j, k', ds', fun n => (h (n + 1)).trans (hv n), hshort⟩

theorem names_link {i : Nat} : fs.names.link i = none ↔ ¬ (fs.inode i).isLnk := by
  simp only [Fs.names]
  split <;> simp [*]

section
variable {s segment remainder : List UInt8} {j : Nat}

/-- At a link that is expanded. -/
theorem arrives_link {link_target : List UInt8} (ht : fs.TreeOk) (hat : Stands fs pre node)
    (hfl : Follows follow s fl)
    (hs : s = segment ∧ remainder = [] ∨ s = segment ++ SLASH :: remainder)
    (hcomp : components s = segment :: components remainder)
    (he : fs.names.entry node.inodeNo segment = some j) (hj : j < fs.inodeCount)
    (hlnk : (fs.inode j).isLnk) (hfollow : remainder = [] → follow = true)
    (htarget : link_target =
      (fs.linkTarget (fs.inode j)).take (NEXTUFS_MAX_PATH_LEN - 1)) :
    StartsOver fs follow fl node.inodeNo (components s)
      (splicePath pre (cString link_target) remainder) := by
  have hfl' := hfl (by rw [hcomp]; exact List.cons_ne_nil _ _)
  set target := fs.linkTarget (fs.inode j) with htgt
  have hlink : fs.names.link j = some (decide (target.head? = some SLASH), components target) := by
    simp only [Fs.names, if_pos hlnk, htgt]
  have hlast : components remainder = [] → fl = true := by
    intro hnil
    refine hfl'.mpr ?_
    by_cases hr : remainder = []
    · exact .inl (hfollow hr)
    · rcases hs with ⟨-, hr'⟩ | hs
      · exact absurd hr' hr
      · exact .inr (hs ▸ doubled_slashes hnil hr)
  refine ⟨j, fs.names.start (decide (target.head? = some SLASH)) node.inodeNo,
    components target ++ components remainder, fun n => ?_, fun hshort => ⟨fun _ => ?_, fun n => ?_⟩⟩
  · rw [hcomp]
    exact NameSpace.visit_link he hlink hlast
  · rw [hfl']
    by_cases hr : remainder = []
    · simp [hfollow hr]
    · rcases hs with ⟨-, hr'⟩ | hs
      · exact absurd hr' hr
      · rw [doubled_splicePath hr segment, hs]
  · have hwhole : cString link_target = target := by
      rw [htarget, List.take_of_length_le (Nat.le_sub_one_of_lt hshort)]
      exact cString_eq (ht.target j hj hlnk)
    rw [components_splicePath, hwhole]
    by_cases habs : target.head? = some SLASH
    · rw [if_pos habs, List.nil_append, decide_eq_true habs]
      rfl
    · rw [if_neg habs, decide_eq_false habs]
      exact NameSpace.visit_reaches hat.reaches

/-- At the last name of a path. -/
theorem visit_last_segment {n : Nat} (hfl : Follows follow s fl) (hmem : SLASH ∉ segment)
    (hs : s = segment ∧ remainder = [] ∨ s = segment ++ SLASH :: remainder)
    (hcomp : components s = [segment]) (he : fs.names.entry node.inodeNo segment = some j)
    (hstop : ¬ ((fs.inode j).isLnk ∧ (remainder = [] → follow = true))) :
    fs.names.visit fl n node.inodeNo [segment] = ([], some j) := by
  by_cases hlnk : (fs.inode j).isLnk
  · have hlast : remainder = [] ∧ follow = false := by
      by_contra hnot
      exact hstop ⟨hlnk, fun hr => by simpa using fun hf => hnot ⟨hr, hf⟩⟩
    have hnot : ¬ Doubled s := by
      rcases hs with ⟨rfl, -⟩ | hs
      · exact fun hd => hmem hd.mem
      · rw [hs, hlast.1]
        exact not_doubled_of_not_mem hmem
    have hfalse : fl = false := by
      have := hfl (by rw [hcomp]; exact List.cons_ne_nil _ _)
      simpa [hlast.2, hnot] using this
    rw [hfalse]
    exact NameSpace.visit_last he
  · rw [NameSpace.visit_plain he (names_link.mpr hlnk), NameSpace.visit_nil]

end

/-- The loop, from a directory a path without links leads to. -/
theorem lookupSegments_ok (ht : fs.TreeOk) : ∀ {fuel : Nat} {pre : List UInt8} {node : Node}
    {s : List UInt8}, s.length + 2 ≤ fuel → Stands fs pre node → Follows follow s fl →
    lookupSegments ctx follow fuel pre node (some s) fs = .ok r fs' →
    fs = fs' ∧ Arrives fs follow fl node.inodeNo (components s) r := by
  intro fuel
  induction fuel with
  | zero => intro pre node s hfuel; omega
  | succ fuel ih =>
    intro pre node s hfuel hat hfl h
    obtain ⟨hmem, hs⟩ := strsep_spec s
    rw [lookupSegments] at h
    generalize (strsep s).1 = segment at *
    generalize (strsep s).2 = cursor at *
    dsimp only at h
    split at h
    next hseg =>
      -- an empty segment
      subst hseg
      rw [List.nil_append] at hs
      cases cursor with
      | none =>
        obtain ⟨rfl, rfl⟩ := lookupSegments_end rfl h
        rw [hs]
        exact ⟨rfl, hat.inode, fun n => NameSpace.visit_nil⟩
      | some t =>
        rw [Option.elim_some] at hs
        rw [hs, List.length_cons] at hfuel
        have hcomp : components s = components t := by rw [hs, components_slash]
        rw [hcomp]
        refine ih (by omega) hat (fun hne => ?_) h
        rw [hfl (by rwa [hcomp]), hs]
        exact or_congr Iff.rfl (doubled_append (l := [SLASH]) hne)
    next hseg =>
      simp only [bind_ok, check_ok, failAs_ok] at h
      obtain ⟨_, _, ⟨hdir, rfl⟩, _, _, hst, j, _, hfind, _, _, ⟨hj0, rfl⟩, ino, _, hino, _, _,
        ⟨-, rfl⟩, h⟩ := h
      obtain rfl := ofStatus_ok hst
      rw [hat.inode] at hdir hfind
      obtain ⟨rfl, he⟩ := findNameInDirectory_ok ht hat.lt hdir hfind
      obtain ⟨rfl, rfl, hj⟩ := inodeRead_ok hino
      have he := he hj0
      have hs' : s = segment ∧ cursor.getD [] = [] ∨ s = segment ++ SLASH :: cursor.getD [] := by
        cases cursor with
        | none => exact .inl ⟨by simpa using hs, rfl⟩
        | some t => exact .inr hs
      have hcomp : components s = segment :: components (cursor.getD []) := by
        rcases hs' with ⟨rfl, hr⟩ | hs'
        · rw [hr, components_single hmem hseg, components_nil]
        · rw [hs', components_append, components_single hmem hseg]
          rfl
      split at h
      next hlink =>
        simp only [bind_ok, check_ok, failAs_ok, pure_ok] at h
        obtain ⟨link_target, _, hread, _, _, ⟨-, rfl⟩, rfl, rfl⟩ := h
        obtain ⟨rfl, htarget⟩ := inodeReadlink_ok (ht.link j hj hlink.1) hread
        exact ⟨rfl, arrives_link ht hat hfl hs' hcomp he hj hlink.1 hlink.2 htarget⟩
      next hstop =>
        cases hpre : appendPathComponent pre segment with
        | none =>
          rw [hpre] at h
          cases h
        | some pre' =>
          rw [hpre] at h
          by_cases hnil : components (cursor.getD []) = []
          · obtain ⟨rfl, rfl⟩ := lookupSegments_end hnil h
            rw [hnil] at hcomp
            refine ⟨rfl, rfl, fun n => ?_⟩
            rw [hcomp]
            exact visit_last_segment hfl hmem hs' hcomp he hstop
          · cases cursor with
            | none => exact absurd rfl hnil
            | some t =>
              have hlnk : ¬ (fs.inode j).isLnk := fun hlnk => hstop ⟨hlnk, fun ht0 => by
                rw [ht0] at hnil
                exact absurd rfl hnil⟩
              have hplain := names_link.mpr hlnk
              rw [Option.elim_some] at hs
              have hlen := congrArg List.length hs
              rw [List.length_append, List.length_cons] at hlen
              have hat' : Stands fs pre' ⟨j, fs.inode j⟩ := by
                refine ⟨?_, rfl, hj⟩
                rw [components_appendPathComponent hmem hseg hpre]
                exact hat.reaches.snoc he hplain
              have hfl' : Follows follow t fl := fun hne => by
                rw [hfl (by rw [hcomp]; exact List.cons_ne_nil _ _), hs, List.append_cons]
                exact or_congr Iff.rfl (doubled_append hne)
              obtain ⟨rfl, harr⟩ := ih (by omega) hat' hfl' h
              rw [hcomp]
              exact ⟨rfl, harr.of_visit fun n => NameSpace.visit_plain he hplain⟩

/-! ## §4 The lookup -/

/-- One lookup: it arrives, or starts over. -/
theorem lookupPathRecursive_step {left : Nat} {path : List UInt8} (ht : fs.TreeOk)
    (hfl : Follows follow path fl)
    (h : lookupPathRecursive ctx follow (left + 1) path fs = .ok node fs') :
    (fs = fs' ∧ node.inode = fs.inode node.inodeNo ∧
      ∀ n, fs.names.visit fl n NEXTUFS_ROOT_INODE (components path) = ([], some node.inodeNo)) ∨
    ∃ path', StartsOver fs follow fl NEXTUFS_ROOT_INODE (components path) path' ∧
      lookupPathRecursive ctx follow left path' fs = .ok node fs' := by
  simp only [lookupPathRecursive, nodeGetByInode, bind_ok, failAs_ok, pure_ok] at h
  obtain ⟨root, _, ⟨ino, _, hino, rfl, rfl⟩, h⟩ := h
  obtain ⟨rfl, rfl, hlt⟩ := inodeRead_ok hino
  have hcomp := components_dropWhile path
  split at h
  next hnil =>
    obtain ⟨rfl, rfl⟩ := pure_ok.mp h
    refine .inl ⟨rfl, rfl, fun n => ?_⟩
    rw [← hcomp, hnil]
    exact NameSpace.visit_nil
  next =>
    obtain ⟨r, _, hloop, h⟩ := bind_ok.mp h
    have hat : Stands fs [SLASH] ⟨NEXTUFS_ROOT_INODE, fs.inode NEXTUFS_ROOT_INODE⟩ :=
      ⟨rfl, rfl, hlt⟩
    have hfl' : Follows follow (path.dropWhile (· = SLASH)) fl := fun hne => by
      rw [hcomp] at hne
      rw [hfl hne]
      exact or_congr Iff.rfl (doubled_dropWhile hne).symm
    obtain ⟨rfl, harr⟩ := lookupSegments_ok ht le_rfl hat hfl' hloop
    rw [hcomp] at harr
    cases r with
    | inl node' =>
      obtain ⟨rfl, rfl⟩ := pure_ok.mp h
      exact .inl ⟨rfl, harr.1, harr.2⟩
    | inr path' => exact .inr ⟨path', harr, h⟩

/-- A lookup that may still expand `left` links; the induction is on `left`. -/
theorem lookupPathRecursive_ok (ht : fs.TreeOk) : ∀ {left : Nat} {path : List UInt8} {node : Node},
    Follows follow path fl →
    (∀ j ∈ fs.names.expanded fl left NEXTUFS_ROOT_INODE (components path),
      (fs.linkTarget (fs.inode j)).length < NEXTUFS_MAX_PATH_LEN) →
    lookupPathRecursive ctx follow (left + 1) path fs = .ok node fs' →
    fs = fs' ∧ node.inode = fs.inode node.inodeNo ∧
      fs.names.resolve fl left NEXTUFS_ROOT_INODE (components path) = some node.inodeNo := by
  intro left
  induction left with
  | zero =>
    intro path node hfl _ h
    rcases lookupPathRecursive_step ht hfl h with ⟨hfs, hino, hv⟩ | ⟨_, _, h⟩
    · exact ⟨hfs, hino, congrArg Prod.snd (hv 0)⟩
    · cases h
  | succ left ih =>
    intro path node hfl hshort h
    rcases lookupPathRecursive_step ht hfl h with ⟨hfs, hino, hv⟩ | ⟨path', hover, h⟩
    · exact ⟨hfs, hino, congrArg Prod.snd (hv (left + 1))⟩
    · obtain ⟨j, k, ds, hvisit, hrest⟩ := hover.expands
      rw [NameSpace.expanded, hvisit left] at hshort
      rw [NameSpace.resolve, hvisit left]
      obtain ⟨hfl', hsame⟩ := hrest (hshort j (List.mem_cons_self ..))
      have hsame := hsame left
      obtain ⟨hfs, hino, hres⟩ := ih hfl'
        (fun j' hj' => hshort j' (List.mem_cons_of_mem _ (by rwa [← hsame]))) h
      exact ⟨hfs, hino, by rw [← hsame]; exact hres⟩

end

/-- A successful lookup of a path, with whatever credentials, through links whose targets fit the
buffer: it returns the inode the components name, except that in a path that ends in two slashes
the last link is followed even when it is not to be. -/
theorem lookup_resolves {fs fs' : Fs} {ctx : Option WriteCtx} {follow : Bool} {path : List UInt8}
    {node : Node} (ht : fs.TreeOk)
    (h : lookupPathRecursive ctx follow (NEXTUFS_MAX_LOOKUP_DEPTH + 1) path fs = .ok node fs')
    (hshort : ∀ j ∈ fs.names.expanded (follow || decide (Doubled path)) NEXTUFS_MAX_LOOKUP_DEPTH
      NEXTUFS_ROOT_INODE (components path),
      (fs.linkTarget (fs.inode j)).length < NEXTUFS_MAX_PATH_LEN) :
    fs = fs' ∧ node.inode = fs.inode node.inodeNo ∧
      (fs.names.resolve follow NEXTUFS_MAX_LOOKUP_DEPTH NEXTUFS_ROOT_INODE (components path) =
          some node.inodeNo ↔
        (follow = false → Doubled path → ∀ j, fs.names.resolve false NEXTUFS_MAX_LOOKUP_DEPTH
          NEXTUFS_ROOT_INODE (components path) = some j → fs.names.link j = none)) := by
  obtain ⟨hfs, hino, hres⟩ := lookupPathRecursive_ok ht (fun _ => by simp) hshort h
  refine ⟨hfs, hino, ?_⟩
  cases follow with
  | true => simpa using hres
  | false =>
    by_cases hd : Doubled path
    · rw [decide_eq_true hd, Bool.or_true] at hres
      constructor
      · intro heq _ _ j hj
        have hroot : fs.names.link NEXTUFS_ROOT_INODE = none := names_link.mpr fun hlnk => by
          have hdir := ht.root
          unfold Inode.isDir at hdir
          unfold Inode.isLnk at hlnk
          rw [hdir] at hlnk
          exact absurd hlnk (by decide)
        rw [← Option.some.inj (heq.symm.trans hj)]
        exact NameSpace.link_of_resolve hroot hroot hres
      · intro hlast
        rw [NameSpace.resolve, NameSpace.visit_follow (hlast rfl hd)] at hres
        exact hres
    · rw [decide_eq_false hd, Bool.or_false] at hres
      exact ⟨fun _ _ hd' => absurd hd' hd, fun _ => hres⟩

/-! ## A tree with two links -/

/-- A directory of one fragment with `.`, `..` and the links `l` and `m`. -/
def linkDir : Inode :=
  { mode := 0o040755, nlink := 2, uid := 0, gid := 0, size := 1024
    db := fun k => if k = 0 then 44 else 0, ib := fun _ => 0, flags := 0, blocks := 1, gen := 0 }

/-- The link `l` to the root, its target `/` in the inode. -/
def slashLink : Inode :=
  { mode := 0o120777, nlink := 1, uid := 0, gid := 0, size := 1
    db := fun k => if k = 0 then 0x2f000000 else 0, ib := fun _ => 0, flags := 1, blocks := 0
    gen := 0 }

/-- The link `m`, whose target is 4095 slashes and an `x`. -/
def longLink : Inode :=
  { mode := 0o120777, nlink := 1, uid := 0, gid := 0, size := 4096
    db := fun k => if k = 0 then 40 else 0, ib := fun _ => 0, flags := 0, blocks := 4, gen := 0 }

def linkRecords : List Dirent :=
  [⟨2, 12, 1, [0x2e]⟩, ⟨2, 12, 2, [0x2e, 0x2e]⟩, ⟨3, 12, 1, [0x6c]⟩, ⟨4, 988, 1, [0x6d]⟩]

def linkBlock : ByteStore := fun i =>
  ([(3, 2), (5, 12), (7, 1), (8, 0x2e), (15, 2), (17, 12), (19, 2), (20, 0x2e), (21, 0x2e),
    (27, 3), (29, 12), (31, 1), (32, 0x6c), (39, 4), (40, 3), (41, 0xdc), (43, 1), (44, 0x6d)] :
      List (Nat × UInt8)).lookup i |>.getD 0

def linkFs : Fs :=
  { oneGroupFs with
    inode := fun i => if i = 2 then linkDir else if i = 3 then slashLink else
      if i = 4 then longLink else oneGroupFs.inode i
    bytes := fun p => if 45056 ≤ p ∧ p < 46080 then linkBlock (p - 45056) else
      if 40960 ≤ p ∧ p < 45055 then SLASH else if p = 45055 then 0x78 else 0 }

theorem linkFs_sound : linkFs.Sound :=
  ⟨by decide +kernel, ⟨oneGroupFs_consistent.group, oneGroupFs_consistent.summary,
    oneGroupFs_consistent.ndir, oneGroupFs_consistent.nbfree, oneGroupFs_consistent.nifree,
    oneGroupFs_consistent.nffree⟩, by decide, by decide, by decide⟩

/-- A file of one direct run is readable. -/
theorem linkFs_readable {ino : Inode} (hib : ∀ s, ino.ib s = 0)
    (hsize : ino.size ≤ 8192) (hlt : ino.db 0 * 1024 + ino.size ≤ 65536) :
    linkFs.Readable ino := by
  refine ⟨linkFs_sound, ⟨0, fun s hs => ?_⟩, ?_, fun k x hne hx hlt' => ?_⟩
  · have hhole : linkFs.img.sb.slotTree linkFs.bytes ino s = .hole := by
      unfold Superblock.slotTree
      rw [hib]
      exact BlockTree.load_null ..
    rw [hhole]
    trivial
  · exact hsize.trans (show 8192 ≤ _ by decide)
  · have hbs : linkFs.img.sb.blockSize = 8192 := rfl
    have hk : k = 0 := by rw [hbs] at hlt'; omega
    subst hk
    change ino.db 0 * 1024 + x < 64 * 1024
    omega

theorem linkFs_inode (i : Nat) : linkFs.inode i = linkDir ∨ linkFs.inode i = slashLink ∨
    linkFs.inode i = longLink ∨ linkFs.inode i = oneGroupFs.inode 0 := by
  simp only [linkFs]
  split
  · exact .inl rfl
  split
  · exact .inr (.inl rfl)
  split
  · exact .inr (.inr (.inl rfl))
  · exact .inr (.inr (.inr rfl))

theorem linkFs_tree : linkFs.TreeOk := by
  have hrecords : Records (linkFs.img.sb.fileByte linkFs.bytes linkDir) 0 linkRecords 1024 :=
    ⟨by decide +kernel, by decide +kernel, by decide +kernel, by decide +kernel, rfl⟩
  have hread : ∀ ino ∈ [linkDir, longLink], linkFs.Readable ino := by
    intro ino hino
    rcases List.mem_pair.mp hino with rfl | rfl <;>
      exact linkFs_readable (fun _ => rfl) (by decide) (by decide)
  refine ⟨by decide, fun i _ hdir => ?_, fun i _ hlnk hfast => ?_, fun i _ hlnk => ?_⟩
  · rcases linkFs_inode i with h | h | h | h <;> rw [h] at hdir ⊢
    · exact ⟨hread _ (List.mem_cons_self ..), DirWf.of_records rfl hrecords (by decide)⟩
    all_goals exact absurd hdir (by decide)
  · rcases linkFs_inode i with h | h | h | h <;> rw [h] at hlnk hfast ⊢
    · exact absurd hlnk (by decide)
    · exact absurd (by decide) hfast
    · exact hread _ (List.mem_cons_of_mem _ (List.mem_cons_self ..))
    · exact absurd hlnk (by decide)
  · rcases linkFs_inode i with h | h | h | h <;> rw [h] at hlnk ⊢
    · exact absurd hlnk (by decide)
    · decide +kernel
    · decide +kernel
    · exact absurd hlnk (by decide)

theorem exists_lookup {r : EStateM.Result Errno Fs Node} {i : Nat}
    (h : (value r).map Node.inodeNo = some i) : ∃ node fs', r = .ok node fs' ∧ node.inodeNo = i := by
  obtain ⟨node, hv, hi⟩ := Option.map_eq_some_iff.mp h
  obtain ⟨fs', hr⟩ := exists_of_value hv
  exact ⟨node, fs', hr, hi⟩

/-- Through `l` to the root, and to its `.`. -/
theorem lookup_resolves_dot :
    ∃ node fs', pathLookup [SLASH, 0x6c, SLASH, 0x2e] linkFs = .ok node fs' ∧
      node.inodeNo = NEXTUFS_ROOT_INODE ∧
      linkFs.names.resolve true NEXTUFS_MAX_LOOKUP_DEPTH NEXTUFS_ROOT_INODE
        (components [SLASH, 0x6c, SLASH, 0x2e]) = some node.inodeNo := by
  obtain ⟨node, fs', h, hno⟩ := exists_lookup (show (value (pathLookup
    [SLASH, 0x6c, SLASH, 0x2e] linkFs)).map Node.inodeNo = some 2 by decide +kernel)
  exact ⟨node, fs', h, hno, (lookup_resolves linkFs_tree h (by decide +kernel)).2.2.mpr
    fun hf => by cases hf⟩

/-- `/l//` gives the link's target where the link is asked for, and `/m` the root although there
is no `/x`. -/
theorem lookup_cut_short :
    linkFs.TreeOk ∧
    (∃ node fs', pathLookupNofollow [SLASH, 0x6c, SLASH, SLASH] linkFs = .ok node fs' ∧
      node.inodeNo = NEXTUFS_ROOT_INODE ∧
      linkFs.names.resolve false NEXTUFS_MAX_LOOKUP_DEPTH NEXTUFS_ROOT_INODE
        (components [SLASH, 0x6c, SLASH, SLASH]) = some 3) ∧
    ∃ node fs', pathLookup [SLASH, 0x6d] linkFs = .ok node fs' ∧
      node.inodeNo = NEXTUFS_ROOT_INODE ∧
      linkFs.names.resolve true NEXTUFS_MAX_LOOKUP_DEPTH NEXTUFS_ROOT_INODE
        (components [SLASH, 0x6d]) = none := by
  refine ⟨linkFs_tree, ?_, ?_⟩
  · obtain ⟨node, fs', h, hno⟩ := exists_lookup (show (value (pathLookupNofollow
      [SLASH, 0x6c, SLASH, SLASH] linkFs)).map Node.inodeNo = some 2 by decide +kernel)
    exact ⟨node, fs', h, hno, by decide +kernel⟩
  · obtain ⟨node, fs', h, hno⟩ := exists_lookup (show (value (pathLookup
      [SLASH, 0x6d] linkFs)).map Node.inodeNo = some 2 by decide +kernel)
    exact ⟨node, fs', h, hno, by decide +kernel⟩

end NextUfs.Core
