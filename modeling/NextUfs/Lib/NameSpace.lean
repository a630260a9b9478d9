/-
NextUfs.Lib.NameSpace — resolving a path of names among links.

A name space has entries under its nodes, and some of its nodes are links: a
link stands for another path, taken from the root or from where the link was
found. `visit` goes down a path with a number of links it may still expand;
what it arrives at is `resolve`, and `expanded` are the links on the way. The
link at the very end is left as it is unless the caller follows it.
-/
import Mathlib.Data.List.Basic

namespace NextUfs.Lib

/-- Nodes with named entries, some of them links. -/
structure NameSpace (ν κ : Type) where
  root : ν
  entry : ν → κ → Option ν
  /-- A link's path, and whether it starts at the root. -/
  link : ν → Option (Bool × List κ)

namespace NameSpace

variable {ν κ : Type} (t : NameSpace ν κ)

/-- Where a link found under `i` leads from. -/
def start (absolute : Bool) (i : ν) : ν := if absolute then t.root else i

/-- Down a path, `expand` being what becomes of a link with the names behind it. -/
def visitWith (expand : ν → List κ → List ν × Option ν) (follow : Bool) :
    ν → List κ → List ν × Option ν
  | i, [] => ([], some i)
  | i, c :: cs =>
    match t.entry i c with
    | none => ([], none)
    | some j =>
      match t.link j with
      | none => visitWith expand follow j cs
      | some (absolute, target) =>
        if !cs.isEmpty || follow then
          let r := expand (t.start absolute i) (target ++ cs)
          (j :: r.1, r.2)
        else ([], some j)

/-- Down a path, with `n` links to expand at most: the links expanded, and where it ends. -/
def visit (follow : Bool) : Nat → ν → List κ → List ν × Option ν
  | 0 => t.visitWith (fun _ _ => ([], none)) follow
  | n + 1 => t.visitWith (visit follow n) follow

/-- The node a path names. -/
def resolve (follow : Bool) (n : Nat) (i : ν) (cs : List κ) : Option ν := (t.visit follow n i cs).2

/-- The links expanded on the way. -/
def expanded (follow : Bool) (n : Nat) (i : ν) (cs : List κ) : List ν := (t.visit follow n i cs).1

/-- A path without links. -/
def Reaches (t : NameSpace ν κ) : ν → List κ → ν → Prop
  | i, [], j => i = j
  | i, c :: cs, j => ∃ k, t.entry i c = some k ∧ t.link k = none ∧ t.Reaches k cs j

variable {t} {follow : Bool} {n : Nat} {i j k : ν} {c : κ} {cs ds : List κ}

@[simp] theorem visit_nil : t.visit follow n i [] = ([], some i) := by
  cases n <;> rfl

theorem visit_plain (he : t.entry i c = some j) (hl : t.link j = none) :
    t.visit follow n i (c :: cs) = t.visit follow n j cs := by
  cases n <;> simp only [visit, visitWith, he, hl]

/-- The last name, when it is not followed. -/
theorem visit_last (he : t.entry i c = some j) : t.visit false n i [c] = ([], some j) := by
  cases n <;> cases hl : t.link j <;> simp [visit, visitWith, he, hl]

theorem visit_link {absolute : Bool} {target : List κ} (he : t.entry i c = some j)
    (hl : t.link j = some (absolute, target)) (hf : cs = [] → follow = true) :
    t.visit follow (n + 1) i (c :: cs) =
      (j :: (t.visit follow n (t.start absolute i) (target ++ cs)).1,
        (t.visit follow n (t.start absolute i) (target ++ cs)).2) := by
  have hcond : (!cs.isEmpty || follow) = true := by
    cases cs with
    | nil => simpa using hf rfl
    | cons d cs => rfl
  simp only [visit, visitWith, he, hl, hcond, if_true]

/-- A path that starts without links is gone on with at its end. -/
theorem visit_reaches : ∀ {i : ν} {cs : List κ}, t.Reaches i cs j →
    t.visit follow n i (cs ++ ds) = t.visit follow n j ds
  | _, [], h => by cases h; rfl
  | _, _ :: _, ⟨_, he, hl, h⟩ => by
    rw [List.cons_append, visit_plain he hl]
    exact visit_reaches h

theorem Reaches.append : ∀ {i : ν} {cs : List κ}, t.Reaches i cs j → t.Reaches j ds k →
    t.Reaches i (cs ++ ds) k
  | _, [], h, h' => by cases h; exact h'
  | _, _ :: _, ⟨m, he, hl, h⟩, h' => ⟨m, he, hl, h.append h'⟩

theorem Reaches.snoc (h : t.Reaches i cs j) (he : t.entry j c = some k) (hl : t.link k = none) :
    t.Reaches i (cs ++ [c]) k :=
  h.append ⟨k, he, hl, rfl⟩

/-! ## Following the last name -/

theorem visitWith_follow {e e' : ν → List κ → List ν × Option ν}
    (hee : ∀ i cs, (∀ j, (e' i cs).2 = some j → t.link j = none) → e i cs = e' i cs) :
    ∀ {i : ν} {cs : List κ}, (∀ j, (t.visitWith e' false i cs).2 = some j → t.link j = none) →
      t.visitWith e true i cs = t.visitWith e' false i cs := by
  intro i cs
  induction cs generalizing i with
  | nil => intro _; rfl
  | cons c cs ih =>
    intro h
    cases he : t.entry i c with
    | none => simp only [visitWith, he]
    | some j =>
      cases hl : t.link j with
      | none =>
        simp only [visitWith, he, hl] at h ⊢
        exact ih h
      | some p =>
        cases cs with
        | nil =>
          have hlast : (t.visitWith e' false i [c]).2 = some j := by simp [visitWith, he, hl]
          rw [h j hlast] at hl
          cases hl
        | cons d cs =>
          simp only [visitWith, he, hl, List.isEmpty_cons, Bool.not_false, Bool.true_or,
            if_true] at h ⊢
          rw [hee _ _ h]

/-- Leaving the last link alone makes a difference only where a link is the last: otherwise both
ways expand the same links and arrive at the same node. -/
theorem visit_follow : ∀ {n : Nat} {i : ν} {cs : List κ},
    (∀ j, t.resolve false n i cs = some j → t.link j = none) →
    t.visit true n i cs = t.visit false n i cs
  | 0, _, _, h => visitWith_follow (fun _ _ _ => rfl) h
  | _ + 1, _, _, h => visitWith_follow (fun _ _ h => visit_follow h) h

theorem link_of_visitWith {e : ν → List κ → List ν × Option ν}
    (hexp : ∀ i cs, t.link i = none → (e i cs).2 = some j → t.link j = none)
    (hroot : t.link t.root = none) : ∀ {i : ν} {cs : List κ}, t.link i = none →
      (t.visitWith e true i cs).2 = some j → t.link j = none := by
  intro i cs
  induction cs generalizing i with
  | nil =>
    intro hi h
    cases h
    exact hi
  | cons c cs ih =>
    intro hi h
    cases he : t.entry i c with
    | none => simp [visitWith, he] at h
    | some k =>
      cases hl : t.link k with
      | none =>
        simp only [visitWith, he, hl] at h
        exact ih hl h
      | some p =>
        simp only [visitWith, he, hl, Bool.or_true, if_true] at h
        refine hexp _ _ ?_ h
        unfold start
        split
        · exact hroot
        · exact hi

/-- A path that is followed to its end does not end at a link. -/
theorem link_of_resolve (hroot : t.link t.root = none) : ∀ {n : Nat} {i : ν} {cs : List κ},
    t.link i = none → t.resolve true n i cs = some j → t.link j = none
  | 0, _, _, hi, h => link_of_visitWith (fun _ _ _ h => by cases h) hroot hi h
  | _ + 1, _, _, hi, h =>
    link_of_visitWith (fun _ _ hi h => link_of_resolve hroot hi h) hroot hi h

end NameSpace

end NextUfs.Lib
