/-
NextUfs.Mutate.EntryTheorems — the entry a path names, and the directory it
stands in.

The calls that change an entry look up two paths: the one they were given, and
the directory's, which `nextufs__path_split` cut off it. `lookup_entry` is that
the two lookups fit together: the first goes on where the second ends. It
expands the same links on its way, though not over the same path strings.
-/
import NextUfs.Mutate.FrameTheorems
import NextUfs.Core.PathTheorems

namespace NextUfs.Mutate

open NextUfs.Core NextUfs.Lib NextUfs.Lib.ByteStore NextUfs.Lib.StateResult

/-! ## Entering a name -/

/-- The last step of a lookup: from a directory to what a name in it leads to. -/
def enterName (ctx : Option WriteCtx) (node : Node) (name : List UInt8) : FsM Node := do
  check node.inode.isDir .ENOTDIR
  ofStatus (searchAccess ctx node.inode)
  let next_inode_no ← failAs Errno.EIO (findNameInDirectory node.inode name)
  check (next_inode_no ≠ 0) .ENOENT
  let inode ← failAs Errno.EIO (inodeRead next_inode_no)
  return ⟨next_inode_no, inode⟩

/-- One run finds what the other finds, and nothing only where the other finds nothing. -/
structure Simulates {α β σ : Type} (via : β → α) (r : EStateM.Result Errno σ α)
    (q : EStateM.Result Errno σ β) : Prop where
  ok : ∀ {x : α} {s : σ}, r = .ok x s → ∃ t, x = via t ∧ q = .ok t s
  absent : ∀ {s : σ}, r = .error .ENOENT s → q = .error .ENOENT s

/-- What follows a run that found a node is to return it. -/
theorem Simulates.through {fs : Fs} {x : FsM (Node ⊕ List UInt8)} {k : Node ⊕ List UInt8 → FsM Node}
    {q : EStateM.Result Errno Fs Node} (h : Simulates Sum.inl (x fs) q)
    (hk : ∀ t, k (.inl t) = pure t) : Simulates id ((x >>= k) fs) q := by
  constructor
  · intro y s hy
    obtain ⟨r, s₁, hx, hy⟩ := bind_ok.mp hy
    obtain ⟨t, rfl, hq⟩ := h.ok hx
    rw [hk] at hy
    obtain ⟨rfl, rfl⟩ := pure_ok.mp hy
    exact ⟨t, rfl, hq⟩
  · intro s hy
    rcases bind_error.mp hy with hx | ⟨r, s₁, hx, hy⟩
    · exact h.absent hx
    · obtain ⟨t, rfl, hq⟩ := h.ok hx
      rw [hk] at hy
      exact (pure_error.mp hy).elim

section
variable {fs : Fs} {ctx : Option WriteCtx} {name : List UInt8}

theorem strsep_of_not_mem : ∀ {s : List UInt8}, SLASH ∉ s → strsep s = (s, none)
  | [], _ => rfl
  | c :: s, h => by
    rw [List.mem_cons, not_or] at h
    rw [strsep, if_neg (Ne.symm h.1), strsep_of_not_mem h.2]

theorem strsep_append : ∀ {s : List UInt8} (rest : List UInt8), SLASH ∉ s →
    strsep (s ++ SLASH :: rest) = (s, some rest)
  | [], rest, _ => by simp [strsep]
  | c :: s, rest, h => by
    rw [List.mem_cons, not_or] at h
    rw [List.cons_append, strsep, if_neg (Ne.symm h.1), strsep_append rest h.2]

theorem ofStatus_error {st : Status} {fs fs' : Fs} {e : Errno}
    (h : ofStatus st fs = .error e fs') : fs = fs' ∧ st = some e := by
  cases st with
  | none => exact (pure_error.mp h).elim
  | some e' =>
    obtain ⟨rfl, rfl⟩ := throw_error.mp h
    exact ⟨rfl, rfl⟩

/-- The loop at the last name of a path. -/
theorem lookupSegments_name {fuel : Nat} {pre : List UInt8} {node : Node} (hne : name ≠ [])
    (hmem : SLASH ∉ name) :
    Simulates Sum.inl (lookupSegments ctx false (fuel + 2) pre node (some name) fs)
      (enterName ctx node name fs) := by
  have hsep : strsep name = (name, none) := strsep_of_not_mem hmem
  constructor
  · intro x s h
    rw [lookupSegments] at h
    simp only [hsep, if_neg hne, bind_ok, Option.getD_none] at h
    obtain ⟨_, _, hdir, _, _, hacc, no, _, hfind, _, _, hno, ino, _, hread, _, _, hlen, h⟩ := h
    obtain ⟨-, rfl⟩ := check_ok.mp hlen
    rw [if_neg (fun hc => absurd (hc.2 trivial) (by decide))] at h
    cases happ : appendPathComponent pre name with
    | none => simp [happ, throw_ok] at h
    | some pre' =>
      simp only [happ, lookupSegments] at h
      obtain ⟨rfl, rfl⟩ := pure_ok.mp h
      refine ⟨⟨no, ino⟩, rfl, ?_⟩
      simp only [enterName, bind_ok]
      exact ⟨_, _, hdir, _, _, hacc, _, _, hfind, _, _, hno, _, _, hread, pure_ok.mpr ⟨rfl, rfl⟩⟩
  · intro s h
    rw [lookupSegments] at h
    simp only [hsep, if_neg hne, bind_error, Option.getD_none] at h
    simp only [enterName, bind_error]
    rcases h with h | ⟨_, _, hdir, h | ⟨_, _, hacc, h | ⟨no, _, hfind, h | ⟨_, _, hno, h | ⟨ino, _, hread,
      h | ⟨_, _, hlen, h⟩⟩⟩⟩⟩⟩
    · exact .inl h
    · exact .inr ⟨_, _, hdir, .inl h⟩
    · exact .inr ⟨_, _, hdir, .inr ⟨_, _, hacc, .inl h⟩⟩
    · exact .inr ⟨_, _, hdir, .inr ⟨_, _, hacc, .inr ⟨_, _, hfind, .inl h⟩⟩⟩
    · exact .inr ⟨_, _, hdir, .inr ⟨_, _, hacc, .inr ⟨_, _, hfind, .inr ⟨_, _, hno, .inl h⟩⟩⟩⟩
    · exact absurd (check_error.mp h).2.1 (by decide)
    · exfalso
      rw [if_neg (fun hc => absurd (hc.2 trivial) (by decide))] at h
      cases happ : appendPathComponent pre name with
      | none => exact absurd (throw_error.mp (by simpa only [happ] using h)).1 (by decide)
      | some pre' => simp [happ, lookupSegments, pure_error] at h

/-- Slashes before the last name are passed over. -/
theorem lookupSegments_slashes (hne : name ≠ []) (hmem : SLASH ∉ name) {pre : List UInt8}
    {node : Node} : ∀ {k fuel : Nat}, k + 2 ≤ fuel →
      Simulates Sum.inl (lookupSegments ctx false fuel pre node
        (some (List.replicate k SLASH ++ name)) fs) (enterName ctx node name fs)
  | 0, fuel, h => by
    obtain ⟨n, rfl⟩ := Nat.exists_eq_add_of_le' h
    exact lookupSegments_name hne hmem
  | k + 1, fuel, h => by
    obtain ⟨n, rfl⟩ : ∃ n, fuel = n + 1 := ⟨fuel - 1, by omega⟩
    have hsep : strsep (List.replicate (k + 1) SLASH ++ name) =
        ([], some (List.replicate k SLASH ++ name)) := by
      rw [List.replicate_succ, List.cons_append, strsep, if_pos rfl]
    rw [lookupSegments, hsep, if_pos rfl]
    exact lookupSegments_slashes hne hmem (by omega)

/-! ## Two lookups side by side -/

/-- A cursor, and the one that has the name behind it. -/
def Behind (name : List UInt8) (c c' : Option (List UInt8)) : Prop :=
  ∃ k, c' = some (c.elim [] (· ++ [SLASH]) ++ (List.replicate k SLASH ++ name))

/-- A path, and the one that has the name behind it. -/
def PathBehind (name path path' : List UInt8) : Prop :=
  ∃ k, path' = path ++ SLASH :: (List.replicate k SLASH ++ name)

/-- The segment in front is the same, and so are the cursors behind it. -/
theorem Behind.strsep {s s' : List UInt8} (h : Behind name (some s) (some s')) :
    (strsep s').1 = (strsep s).1 ∧ Behind name (strsep s).2 (strsep s').2 := by
  obtain ⟨k, hk⟩ := h
  obtain ⟨hmem, hs⟩ := strsep_spec s
  have hs' : s' = (s ++ [SLASH]) ++ (List.replicate k SLASH ++ name) := Option.some.inj hk
  cases hcur : (Core.strsep s).2 with
  | none =>
    rw [hcur, Option.elim_none, List.append_nil] at hs
    have : Core.strsep s' = ((Core.strsep s).1, some (List.replicate k SLASH ++ name)) := by
      rw [hs', List.append_assoc, List.singleton_append]
      conv_lhs => rw [hs]
      exact strsep_append _ hmem
    rw [this]
    exact ⟨rfl, k, rfl⟩
  | some t =>
    rw [hcur, Option.elim_some] at hs
    have : Core.strsep s' = ((Core.strsep s).1,
        some ((t ++ [SLASH]) ++ (List.replicate k SLASH ++ name))) := by
      rw [hs']
      conv_lhs => rw [hs]
      simp only [List.append_assoc, List.cons_append]
      exact strsep_append _ hmem
    rw [this]
    exact ⟨rfl, k, rfl⟩

/-- The same, from either cursor. -/
theorem Behind.some_right {c c' : Option (List UInt8)} (h : Behind name c c') (hne : name ≠ []) :
    ∃ s', c' = some s' ∧ s' ≠ [] := by
  obtain ⟨k, hk⟩ := h
  exact ⟨_, hk, by simp [hne]⟩

/-- At a link, both paths go on at its target. -/
theorem Behind.splicePath {c c' : Option (List UInt8)} (h : Behind name c c') (hne : name ≠ [])
    (pre target : List UInt8) :
    PathBehind name (splicePath pre target (c.getD [])) (splicePath pre target (c'.getD [])) := by
  obtain ⟨k, rfl⟩ := h
  have hbehind : c.elim [] (· ++ [SLASH]) ++ (List.replicate k SLASH ++ name) ≠ [] := by
    simp [hne]
  simp only [Core.splicePath, Option.getD_some, if_neg hbehind]
  cases c with
  | none => exact ⟨k, by simp⟩
  | some s =>
    by_cases hs : s = []
    · subst hs
      exact ⟨k + 1, by simp [List.replicate_succ]⟩
    · exact ⟨k, by simp [hs]⟩

/-- What the second loop does, when the first ended with `r`. -/
def Goes (ctx : Option WriteCtx) (name : List UInt8) (fs : Fs) (r : Node ⊕ List UInt8)
    (q : EStateM.Result Errno Fs (Node ⊕ List UInt8)) : Prop :=
  match r with
  | .inl node => Simulates Sum.inl q (enterName ctx node name fs)
  | .inr path => (∀ {x s}, q = .ok x s → s = fs ∧ ∃ path', x = .inr path' ∧ PathBehind name path path') ∧
      ∀ {s}, q ≠ .error .ENOENT s

/-- The second loop may fail where it runs out of room. -/
theorem Goes.of_error {r : Node ⊕ List UInt8} {q : EStateM.Result Errno Fs (Node ⊕ List UInt8)}
    {e : Errno} {s : Fs} (h : q = .error e s) (he : e ≠ .ENOENT) : Goes ctx name fs r q := by
  subst h
  have habsent : ∀ {s' : Fs}, (.error e s : EStateM.Result Errno Fs (Node ⊕ List UInt8)) ≠
      .error .ENOENT s' := fun hc => he (EStateM.Result.error.inj hc).1
  cases r with
  | inl node => exact ⟨nofun, fun hc => absurd hc habsent⟩
  | inr path => exact ⟨nofun, habsent⟩

/-- A turn shortens the cursor. -/
theorem strsep_length {s t : List UInt8} (h : (strsep s).2 = some t) : t.length + 1 ≤ s.length := by
  have hs := congrArg List.length (strsep_spec s).2
  rw [h, Option.elim_some, List.length_append, List.length_cons] at hs
  omega

/-- Nothing is left of the first path: the second loop goes on to enter the name. -/
theorem Behind.ended {fuel' : Nat} {pre : List UInt8} {node : Node} {c' : Option (List UInt8)}
    (hb : Behind name none c') (hne : name ≠ []) (hmem : SLASH ∉ name)
    (hfuel' : ∀ s, c' = some s → s.length + 2 ≤ fuel') :
    Goes ctx name fs (.inl node) (lookupSegments ctx false fuel' pre node c' fs) := by
  obtain ⟨k, rfl⟩ := hb
  refine lookupSegments_slashes hne hmem ?_
  have hroom := hfuel' _ rfl
  simp only [Option.elim_none, List.nil_append, List.length_append, List.length_replicate] at hroom
  omega

/-- The two loops side by side; the induction is on the turns of the first. -/
theorem lookupSegments_behind (hne : name ≠ []) (hmem : SLASH ∉ name) :
    ∀ {fuel fuel' : Nat} {pre : List UInt8} {node : Node} {c c' : Option (List UInt8)}
      {r : Node ⊕ List UInt8}, (∀ s, c = some s → s.length + 1 ≤ fuel) → Behind name c c' →
      (∀ s, c' = some s → s.length + 2 ≤ fuel') →
      lookupSegments ctx true fuel pre node c fs = .ok r fs →
      Goes ctx name fs r (lookupSegments ctx false fuel' pre node c' fs) := by
  intro fuel
  induction fuel with
  | zero =>
    intro fuel' pre node c c' r hfuel hb hfuel' h
    obtain rfl : c = none := by
      cases c with
      | none => rfl
      | some s => exact absurd (hfuel s rfl) (by omega)
    obtain ⟨rfl, -⟩ := pure_ok.mp h
    exact hb.ended hne hmem hfuel'
  | succ fuel ih =>
    intro fuel' pre node c c' r hfuel hb hfuel' h
    cases c with
    | none =>
      obtain ⟨rfl, -⟩ := pure_ok.mp h
      exact hb.ended hne hmem hfuel'
    | some s =>
      obtain ⟨s', rfl, -⟩ := hb.some_right hne
      obtain ⟨hseg, hnext⟩ := hb.strsep
      obtain ⟨n', rfl⟩ : ∃ n', fuel' = n' + 1 := ⟨fuel' - 1, by have := hfuel' s' rfl; omega⟩
      have hlen : ∀ t, (strsep s).2 = some t → t.length + 1 ≤ fuel := fun t ht => by
        have := strsep_length ht
        have := hfuel s rfl
        omega
      have hlen' : ∀ t, (strsep s').2 = some t → t.length + 2 ≤ n' := fun t ht => by
        have := strsep_length ht
        have := hfuel' s' rfl
        omega
      rw [lookupSegments] at h ⊢
      rw [hseg]
      split at h
      case isTrue hnil =>
        rw [if_pos hnil]
        exact ih hlen hnext hlen' h
      case isFalse hne' =>
        rw [if_neg hne']
        obtain ⟨t', ht', hne_t'⟩ := hnext.some_right hne
        simp only [bind_ok] at h
        obtain ⟨_, s₁, hdir, _, s₂, hacc, no, s₃, hfind, _, s₄, hno, ino, s₅, hread, _, s₆, hrem, h⟩ :=
          h
        obtain ⟨hisdir, rfl⟩ := check_ok.mp hdir
        obtain rfl := ofStatus_ok hacc
        obtain rfl := (steady_failAs (steady_findNameInDirectory _ _)).state hfind
        obtain ⟨hno', rfl⟩ := check_ok.mp hno
        obtain rfl := (steady_failAs (steady_inodeRead _)).state hread
        obtain ⟨-, rfl⟩ := check_ok.mp hrem
        rw [bind_of_ok hdir, bind_of_ok hacc, bind_of_ok hfind, bind_of_ok hno, bind_of_ok hread,
          ht', Option.getD_some]
        by_cases hlong : t'.length < NEXTUFS_MAX_PATH_LEN
        case neg =>
          exact Goes.of_error (bind_error.mpr (.inl (check_error.mpr ⟨hlong, rfl, rfl⟩)))
            (by decide)
        rw [bind_of_ok (check_ok (u := ⟨⟩).mpr ⟨hlong, rfl⟩)]
        split at h
        case isTrue hlnk =>
          -- a link: both paths start over with its target in front
          rw [if_pos ⟨hlnk.1, fun hc => absurd hc hne_t'⟩]
          obtain ⟨target, s₇, hlink, h⟩ := bind_ok.mp h
          obtain rfl := (steady_failAs (steady_inodeReadlink _ _)).state hlink
          obtain ⟨_, _, hnew, h⟩ := bind_ok.mp h
          obtain ⟨-, rfl⟩ := check_ok.mp hnew
          obtain ⟨rfl, -⟩ := pure_ok.mp h
          rw [bind_of_ok hlink]
          refine ⟨fun {x s} hx => ?_, fun {s} hx => ?_⟩
          · obtain ⟨_, _, hchk, hx⟩ := bind_ok.mp hx
            obtain ⟨-, rfl⟩ := check_ok.mp hchk
            obtain ⟨rfl, rfl⟩ := pure_ok.mp hx
            refine ⟨rfl, _, rfl, ?_⟩
            have hsplice := hnext.splicePath hne pre (cString target)
            rwa [ht', Option.getD_some] at hsplice
          · rcases bind_error.mp hx with hx | ⟨_, _, -, hx⟩
            · exact absurd (check_error.mp hx).2.1 (by decide)
            · exact (pure_error.mp hx).elim
        case isFalse hlnk =>
          rw [if_neg fun (hc : ino.isLnk ∧ _) => hlnk ⟨hc.1, fun _ => trivial⟩]
          cases happ : appendPathComponent pre (strsep s).1 with
          | none => exact Goes.of_error rfl (by decide)
          | some pre' =>
            simp only [happ] at h
            rw [← ht']
            exact ih hlen hnext hlen' h

/-- A path with the name behind it, its leading slashes gone: what is left of the path, and the name
behind that. -/
theorem PathBehind.dropWhile {path path' : List UInt8} (h : PathBehind name path path')
    (hne : name ≠ []) (hmem : SLASH ∉ name) :
    if path.dropWhile (· = SLASH) = [] then path'.dropWhile (· = SLASH) = name
    else Behind name (some (path.dropWhile (· = SLASH))) (some (path'.dropWhile (· = SLASH))) := by
  obtain ⟨k, rfl⟩ := h
  have hname : (List.replicate (k + 1) SLASH ++ name).dropWhile (· = SLASH) = name := by
    rw [List.dropWhile_append_of_pos (by simp +contextual)]
    cases name with
    | nil => rfl
    | cons c name =>
      rw [List.mem_cons, not_or] at hmem
      exact List.dropWhile_cons_of_neg (by simpa using Ne.symm hmem.1)
  have hcons : SLASH :: (List.replicate k SLASH ++ name) = List.replicate (k + 1) SLASH ++ name := by
    rw [List.replicate_succ, List.cons_append]
  split
  case isTrue hnil =>
    have hall : ∀ c ∈ path, decide (c = SLASH) = true := by simpa using hnil
    rw [List.dropWhile_append_of_pos hall, hcons, hname]
  case isFalse hsome =>
    refine ⟨k, ?_⟩
    rw [List.dropWhile_append, if_neg (by simpa using hsome)]
    simp

/-- The two lookups side by side; the induction is on the lookups that are left. -/
theorem lookupPathRecursive_behind (hne : name ≠ []) (hmem : SLASH ∉ name) :
    ∀ {left : Nat} {path path' : List UInt8} {node : Node}, PathBehind name path path' →
      lookupPathRecursive ctx true left path fs = .ok node fs →
      Simulates id (lookupPathRecursive ctx false left path' fs) (enterName ctx node name fs) := by
  intro left
  induction left with
  | zero =>
    intro path path' node _ h
    cases h
  | succ left ih =>
    intro path path' node hb h
    rw [lookupPathRecursive] at h ⊢
    obtain ⟨root, s₁, hroot, h⟩ := bind_ok.mp h
    obtain rfl := (steady_failAs (steady_nodeGetByInode _)).state hroot
    rw [bind_of_ok hroot]
    have hdrop := hb.dropWhile hne hmem
    by_cases hnil : path.dropWhile (· = SLASH) = []
    · -- the directory is the root, and the loop has the name only
      rw [if_pos hnil] at hdrop
      simp only [hnil, if_true] at h
      obtain ⟨rfl, -⟩ := pure_ok.mp h
      simp only [hdrop, if_neg hne]
      exact (lookupSegments_name hne hmem).through fun _ => rfl
    · rw [if_neg hnil] at hdrop
      obtain ⟨s', hs', hne'⟩ := hdrop.some_right hne
      obtain rfl := Option.some.inj hs'
      simp only [if_neg hnil] at h
      simp only [if_neg hne']
      obtain ⟨r, s₂, hloop, h⟩ := bind_ok.mp h
      obtain rfl := (steady_lookupSegments _ _ _ _ _ _).state hloop
      have hgoes := lookupSegments_behind hne hmem (fun t ht => by
        obtain rfl := Option.some.inj ht
        exact Nat.le_succ _) hdrop (fun t ht => by
        obtain rfl := Option.some.inj ht
        exact le_rfl) hloop
      cases r with
      | inl node' =>
        obtain ⟨rfl, -⟩ := pure_ok.mp h
        exact hgoes.through fun _ => rfl
      | inr new_path =>
        obtain ⟨hok, hnone⟩ := hgoes
        constructor
        · intro x s hx
          obtain ⟨r', s₃, hloop', hx⟩ := bind_ok.mp hx
          obtain ⟨rfl, path'', rfl, hb'⟩ := hok hloop'
          exact (ih hb' h).ok hx
        · intro s hx
          rcases bind_error.mp hx with hx | ⟨r', s₃, hloop', hx⟩
          · exact absurd hx hnone
          · obtain ⟨rfl, path'', rfl, hb'⟩ := hok hloop'
            exact (ih hb' h).absent hx

/-- How `nextufs__path_split` takes a path apart. -/
theorem pathSplit_ok {path parent : List UInt8} {m n : Nat}
    (h : pathSplit path m n = .ok (parent, name)) : name ≠ [] ∧ SLASH ∉ name ∧ name.length < n ∧
      ∃ dir, path = dir ++ SLASH :: name ∧ (parent = dir ∨ dir = [] ∧ parent = [SLASH]) := by
  unfold pathSplit at h
  split at h
  case isTrue => cases h
  case isFalse hhead =>
  rw [not_not] at hhead
  obtain ⟨tail, hpath⟩ : ∃ tail, path = SLASH :: tail := by
    cases path with
    | nil => cases hhead
    | cons c tail => exact ⟨tail, congrArg (· :: tail) (Option.some.inj hhead)⟩
  -- the last slash
  obtain ⟨last, hlast⟩ : ∃ l, (path.reverse.takeWhile (· ≠ SLASH)).reverse = l := ⟨_, rfl⟩
  obtain ⟨back, hback⟩ : ∃ l, path.reverse.dropWhile (· ≠ SLASH) = l := ⟨_, rfl⟩
  have hsplit : path = back.reverse ++ last := by
    have := List.takeWhile_append_dropWhile (p := fun c => decide (c ≠ SLASH)) (l := path.reverse)
    rw [← hlast, ← hback, ← List.reverse_append, this, List.reverse_reverse]
  have hmem : SLASH ∉ last := by
    rw [← hlast, List.mem_reverse]
    intro hc
    have := List.mem_takeWhile_imp hc
    simp at this
  have hback' : ∃ dir, back = SLASH :: dir := by
    have hin : SLASH ∈ path.reverse := by simp [hpath]
    cases hb : back with
    | nil =>
      have hall : ∀ c ∈ path.reverse, decide (c ≠ SLASH) = true := by
        rw [← List.dropWhile_eq_nil_iff, hback, hb]
      exact absurd rfl (of_decide_eq_true (hall _ hin))
    | cons c dir =>
      have hc := List.head?_dropWhile_not (fun c => decide (c ≠ SLASH)) path.reverse
      rw [hback, hb] at hc
      have hc' : c = SLASH := by simpa using hc
      exact ⟨dir, congrArg (· :: dir) hc'⟩
  obtain ⟨dir, rfl⟩ := hback'
  have hform : path = dir.reverse ++ SLASH :: last := by
    rw [hsplit]
    simp
  have htake : path.take (path.length - last.length - 1) = dir.reverse := by
    have hlen : path.length - last.length - 1 = dir.reverse.length := by
      rw [hform, List.length_append, List.length_cons]
      omega
    rw [hlen, hform, List.take_left]
  dsimp only at h
  rw [hlast, htake] at h
  split at h
  case isTrue => cases h
  case isFalse hne =>
  split at h
  case isTrue => cases h
  case isFalse hlen =>
  split at h
  case isTrue hnil =>
    split at h
    case isTrue => cases h
    case isFalse =>
      obtain ⟨rfl, rfl⟩ := Prod.mk.inj (Except.ok.inj h)
      exact ⟨hne, hmem, Nat.lt_of_not_le hlen, _, hform, .inr ⟨hnil, rfl⟩⟩
  case isFalse =>
    split at h
    case isTrue => cases h
    case isFalse =>
      obtain ⟨rfl, rfl⟩ := Prod.mk.inj (Except.ok.inj h)
      exact ⟨hne, hmem, Nat.lt_of_not_le hlen, _, hform, .inl rfl⟩

/-- A slash in front does not matter. -/
theorem lookupPathRecursive_slash (follow : Bool) (left : Nat) (path : List UInt8) :
    lookupPathRecursive ctx follow left (SLASH :: path) = lookupPathRecursive ctx follow left path := by
  cases left with
  | zero => rfl
  | succ left => simp only [lookupPathRecursive, List.dropWhile_cons, decide_true, if_true]

/-- The lookup of an entry goes on where the lookup of its directory ends. -/
theorem lookup_entry {path parent : List UInt8} {m n : Nat} {ctx : WriteCtx} {node : Node}
    (hsplit : pathSplit path m n = .ok (parent, name))
    (h : nodeLookupAs ctx parent true fs = .ok node fs) :
    Simulates id (nodeLookupAs ctx path false fs) (enterName (some ctx) node name fs) := by
  obtain ⟨hne, hmem, -, dir, rfl, rfl | ⟨rfl, rfl⟩⟩ := pathSplit_ok hsplit
  · exact lookupPathRecursive_behind hne hmem ⟨0, rfl⟩ h
  · rw [nodeLookupAs, lookupPathRecursive_slash] at h
    exact lookupPathRecursive_behind hne hmem ⟨0, rfl⟩ h

end

/-! ## What a lookup finds -/

/-- The node is what the table holds. -/
structure Held (fs : Fs) (node : Node) : Prop where
  inode : fs.inode node.inodeNo = node.inode
  lt : node.inodeNo < fs.inodeCount

section
variable {fs fs' : Fs} {ctx : Option WriteCtx} {follow : Bool} {node : Node}

theorem inodeRead_held {i : Nat} {ino : Inode} (h : inodeRead i fs = .ok ino fs') :
    fs = fs' ∧ Held fs ⟨i, ino⟩ := by
  obtain ⟨rfl, rfl, hlt⟩ := inodeRead_ok h
  exact ⟨rfl, rfl, hlt⟩

theorem nodeGetByInode_held {i : Nat} (h : nodeGetByInode i fs = .ok node fs') :
    fs = fs' ∧ Held fs node ∧ node.inodeNo = i := by
  simp only [nodeGetByInode, bind_ok, pure_ok] at h
  obtain ⟨ino, _, hread, rfl, rfl⟩ := h
  obtain ⟨rfl, hheld⟩ := inodeRead_held hread
  exact ⟨rfl, hheld, rfl⟩

theorem lookupSegments_held {r : Node ⊕ List UInt8} : ∀ {fuel : Nat} {pre : List UInt8} {node : Node}
    {c : Option (List UInt8)}, Held fs node →
    lookupSegments ctx follow fuel pre node c fs = .ok r fs' → ∀ t, r = .inl t → Held fs t := by
  intro fuel
  induction fuel with
  | zero =>
    intro pre node c hat h t ht
    obtain ⟨rfl, -⟩ := pure_ok.mp h
    rwa [← Sum.inl.inj ht]
  | succ fuel ih =>
    intro pre node c hat h t ht
    cases c with
    | none =>
      obtain ⟨rfl, -⟩ := pure_ok.mp h
      rwa [← Sum.inl.inj ht]
    | some s =>
      rw [lookupSegments] at h
      split at h
      case isTrue => exact ih hat h t ht
      case isFalse =>
        simp only [bind_ok] at h
        obtain ⟨_, _, hdir, _, _, hacc, no, _, hfind, _, _, hno, ino, _, hread, _, _, hrem, h⟩ := h
        obtain ⟨-, rfl⟩ := check_ok.mp hdir
        obtain rfl := ofStatus_ok hacc
        obtain rfl := (steady_failAs (steady_findNameInDirectory _ _)).state hfind
        obtain ⟨-, rfl⟩ := check_ok.mp hno
        obtain ⟨rfl, hheld⟩ := inodeRead_held (failAs_ok.mp hread)
        obtain ⟨-, rfl⟩ := check_ok.mp hrem
        split at h
        case isTrue =>
          simp only [bind_ok, pure_ok] at h
          obtain ⟨_, _, -, _, _, -, rfl, -⟩ := h
          cases ht
        case isFalse =>
          cases happ : appendPathComponent pre (strsep s).1 with
          | none => simp [happ, throw_ok] at h
          | some pre' =>
            simp only [happ] at h
            exact ih hheld h t ht

theorem lookupPathRecursive_held : ∀ {left : Nat} {path : List UInt8},
    lookupPathRecursive ctx follow left path fs = .ok node fs' → fs = fs' ∧ Held fs node := by
  intro left
  induction left with
  | zero =>
    intro path h
    cases h
  | succ left ih =>
    intro path h
    refine ⟨(steady_lookupPathRecursive _ _ _ _).state h, ?_⟩
    rw [lookupPathRecursive] at h
    obtain ⟨root, _, hroot, h⟩ := bind_ok.mp h
    obtain ⟨rfl, hheld, -⟩ := nodeGetByInode_held (failAs_ok.mp hroot)
    split at h
    case isTrue =>
      obtain ⟨rfl, -⟩ := pure_ok.mp h
      exact hheld
    case isFalse =>
      obtain ⟨r, _, hloop, h⟩ := bind_ok.mp h
      obtain rfl := (steady_lookupSegments _ _ _ _ _ _).state hloop
      cases r with
      | inl t =>
        obtain ⟨rfl, -⟩ := pure_ok.mp h
        exact lookupSegments_held hheld hloop _ rfl
      | inr new_path => exact (ih h).2

theorem nodeLookupAs_held {ctx : WriteCtx} {path : List UInt8}
    (h : nodeLookupAs ctx path follow fs = .ok node fs') : fs = fs' ∧ Held fs node :=
  lookupPathRecursive_held h

/-- A name found in a directory. -/
structure Names (fs : Fs) (node : Node) (name : List UInt8) (target : Node) : Prop where
  dir : node.inode.isDir
  found : findNameInDirectory node.inode name fs = .ok target.inodeNo fs
  ne_zero : target.inodeNo ≠ 0
  held : Held fs target

theorem enterName_ok {name : List UInt8} {t : Node}
    (h : enterName ctx node name fs = .ok t fs') : Names fs node name t := by
  simp only [enterName, bind_ok] at h
  obtain ⟨_, _, hdir, _, _, hacc, no, _, hfind, _, _, hno, ino, _, hread, h⟩ := h
  obtain ⟨hisdir, rfl⟩ := check_ok.mp hdir
  obtain rfl := ofStatus_ok hacc
  obtain rfl := (steady_failAs (steady_findNameInDirectory _ _)).state hfind
  obtain ⟨hne, rfl⟩ := check_ok.mp hno
  obtain ⟨rfl, hheld⟩ := inodeRead_held (failAs_ok.mp hread)
  obtain ⟨rfl, -⟩ := pure_ok.mp h
  exact ⟨hisdir, failAs_ok.mp hfind, hne, hheld⟩

theorem searchAccess_ne_enoent (ctx : Option WriteCtx) (ino : Inode) :
    searchAccess ctx ino ≠ some .ENOENT := by
  unfold searchAccess
  cases ctx with
  | none => simp
  | some ctx =>
    dsimp only
    split
    case isFalse => simp
    case isTrue =>
      unfold nodeCheckAccess
      dsimp only
      split_ifs <;> simp

theorem enterName_absent {name : List UInt8} {s : Fs}
    (h : enterName ctx node name fs = .error .ENOENT s) :
    node.inode.isDir ∧ findNameInDirectory node.inode name fs = .ok 0 fs := by
  simp only [enterName, bind_error] at h
  rcases h with h | ⟨_, _, hdir, h | ⟨_, _, hacc, h | ⟨no, _, hfind, h | ⟨_, _, hno, h | ⟨ino, _, hread,
    h⟩⟩⟩⟩⟩
  · exact absurd (check_error.mp h).2.1 (by decide)
  · exact absurd (ofStatus_error h).2 (searchAccess_ne_enoent _ _)
  · exact absurd (failAs_error.mp h).1 (by decide)
  · obtain ⟨hisdir, rfl⟩ := check_ok.mp hdir
    obtain rfl := ofStatus_ok hacc
    obtain rfl := (steady_failAs (steady_findNameInDirectory _ _)).state hfind
    obtain ⟨hzero, -, rfl⟩ := check_error.mp h
    rw [not_not] at hzero
    exact ⟨hisdir, by rw [← hzero]; exact failAs_ok.mp hfind⟩
  · exact absurd (failAs_error.mp h).1 (by decide)
  · exact (pure_error.mp h).elim

/-- Looking up an entry, whose directory was looked up. -/
theorem lookup_names {ctx : WriteCtx} {path parent name : List UInt8} {m n : Nat} {t : Node}
    (hsplit : pathSplit path m n = .ok (parent, name))
    (hdir : nodeLookupAs ctx parent true fs = .ok node fs)
    (h : nodeLookupAs ctx path false fs = .ok t fs') : Names fs node name t := by
  obtain ⟨t', ht, hq⟩ := (lookup_entry hsplit hdir).ok h
  obtain rfl : t = t' := ht
  exact enterName_ok hq

theorem lookup_absent {ctx : WriteCtx} {path parent name : List UInt8} {m n : Nat}
    (hsplit : pathSplit path m n = .ok (parent, name))
    (hdir : nodeLookupAs ctx parent true fs = .ok node fs)
    (h : nodeLookupAs ctx path false fs = .error .ENOENT fs') :
    node.inode.isDir ∧ findNameInDirectory node.inode name fs = .ok 0 fs :=
  enterName_absent ((lookup_entry hsplit hdir).absent h)

/-! ## Empty directories -/

/-- The callback of `nextufs__find_name_in_directory`. -/
def nameSought (name : List UInt8) (ino : Nat) (n : List UInt8) (target : Nat) : Nat × Bool :=
  if n = name then (ino, true) else (target, false)

theorem emptyRecords_find {self parent size : Nat} {buf : ByteStore} {name : List UInt8}
    (hdot : ¬ nameIsDotOrDotdot name) : ∀ {fuel off : Nat} {seen seen' : Bool × Bool},
    emptyRecords self parent buf size fuel off seen = .ok (some seen') →
    iterateRecords (nameSought name) buf size fuel off 0 = some (0, false)
  | 0, _, _, _, _ => rfl
  | fuel + 1, off, seen, seen', h => by
    rw [emptyRecords] at h
    rw [iterateRecords]
    by_cases hoff : off ≥ size
    · rw [if_pos hoff]
    rw [if_neg hoff] at h ⊢
    cases hread : readDirent buf size off with
    | none => simp [hread] at h
    | some ent =>
      simp only [hread] at h ⊢
      by_cases hino : ent.ino = 0
      · rw [if_pos hino] at h
        rw [if_neg (fun hc => hc.1 hino)]
        exact emptyRecords_find hdot h
      rw [if_neg hino] at h
      -- a record in use is called `.` or `..`
      have hother : ent.name = dot ∨ ent.name = dotdot → nameSought name ent.ino ent.name 0 =
          (0, false) := by
        intro hent
        refine if_neg fun hname => hdot ?_
        rwa [nameIsDotOrDotdot, ← hname]
      split at h
      case isTrue hname =>
        split at h
        case isTrue => cases h
        case isFalse =>
          simp only [hother (.inl hname), Bool.false_eq_true, if_false, ite_self]
          exact emptyRecords_find hdot h
      case isFalse =>
        split at h
        case isTrue hname =>
          split at h
          case isTrue => cases h
          case isFalse =>
            simp only [hother (.inr hname), Bool.false_eq_true, if_false, ite_self]
            exact emptyRecords_find hdot h
        case isFalse => cases h

theorem emptyChunks_find {dirnode : Node} {parent : Nat} {name : List UInt8}
    (hdot : ¬ nameIsDotOrDotdot name) : ∀ {fuel remaining k : Nat} {seen : Bool × Bool},
    emptyChunks dirnode parent fuel remaining k seen fs = .ok true fs' →
    iterateChunks (nameSought name) dirnode.inode fuel remaining k 0 fs = .ok (0, false) fs
  | 0, _, _, _, _ => rfl
  | fuel + 1, remaining, k, seen, h => by
    rw [emptyChunks] at h
    rw [iterateChunks]
    by_cases hrem : remaining = 0
    · rw [if_pos hrem]
      rfl
    rw [if_neg hrem] at h ⊢
    simp only [bind_ok, get_ok] at h
    obtain ⟨_, _, ⟨rfl, rfl⟩, buf, _, hread, h⟩ := h
    obtain rfl := (steady_readChunk _ _ _).state hread
    rw [bind_of_ok (get_ok.mpr ⟨rfl, rfl⟩), bind_of_ok hread]
    cases hrec : emptyRecords dirnode.inodeNo parent buf (min remaining fs.img.sb.blockSize)
        (min remaining fs.img.sb.blockSize) 0 seen with
    | error e => simp [hrec, throw_ok] at h
    | ok r =>
      cases r with
      | none =>
        simp only [hrec] at h
        exact absurd (pure_ok.mp h).1 (by decide)
      | some seen' =>
        simp only [hrec] at h
        simp only [emptyRecords_find hdot hrec]
        exact emptyChunks_find hdot h

/-- A directory that is empty has no name but `.` and `..`. -/
theorem empty_find {dirnode : Node} {parent i : Nat} {name : List UInt8}
    (hdot : ¬ nameIsDotOrDotdot name) (h : directoryIsEmpty dirnode parent fs = .ok true fs')
    (hfind : findNameInDirectory dirnode.inode name fs = .ok i fs) : i = 0 := by
  by_cases hdir : ¬ dirnode.inode.isDir
  case pos =>
    rw [show directoryIsEmpty dirnode parent = _ from if_pos hdir] at h
    exact absurd (pure_ok.mp h).1 (by decide)
  case neg =>
    rw [show directoryIsEmpty dirnode parent = _ from if_neg hdir] at h
    dsimp only at h
    have hchunks : emptyChunks dirnode parent dirnode.inode.size dirnode.inode.size 0 (false, false)
        fs = .ok true fs' := by
      cases hc : emptyChunks dirnode parent dirnode.inode.size dirnode.inode.size 0 (false, false)
          fs with
      | ok e s =>
        rw [hc] at h
        exact h
      | error e s =>
        rw [hc] at h
        cases h
    simp only [findNameInDirectory, bind_ok, pure_ok, Prod.exists] at hfind
    obtain ⟨j, b, _, hiter, rfl, -⟩ := hfind
    have hnone := emptyChunks_find hdot hchunks
    have : (.ok (j, b) _ : EStateM.Result Errno Fs (Nat × Bool)) = .ok (0, false) fs :=
      hiter.symm.trans hnone
    cases this
    rfl

end

end NextUfs.Mutate
