/-
NextUfs.Lib.Checked — programs that stop at what the C language leaves
undefined.

A `Buffer` is memory of a size, and an access outside it is a `Fault`; so are a
subtraction below zero and a loop that does not end. `CheckedM` is `EStateM`
with faults beside the errors and a flag a program can raise. `Watches`
compares a run with one of an ordinary program: no fault, the same outcome, and
if the flag was raised a failure that left the state alone. It is proved of a
program step by step, along `watches_bind`.

Nothing here mentions a file system.
-/
import NextUfs.Lib.ByteStore
import NextUfs.Lib.StateResult

namespace NextUfs.Lib.Checked

open ByteStore StateResult

/-! ## Buffers -/

/-- What goes wrong without an error being returned. -/
inductive Fault where
  | outside (off n : Nat)
  | negative
  | endless
  deriving DecidableEq, Repr

/-- Memory of a size. -/
structure Buffer where
  size : Nat
  bytes : ByteStore

/-- The `n` bytes from `off` are in the buffer. -/
def Buffer.access (b : Buffer) (off n : Nat) : Except Fault PUnit :=
  if off + n ≤ b.size then .ok ⟨⟩ else .error (.outside off n)

def Buffer.load16 (b : Buffer) (off : Nat) : Except Fault Nat := do
  b.access off 2
  return be16 b.bytes off

def Buffer.load32 (b : Buffer) (off : Nat) : Except Fault Nat := do
  b.access off 4
  return be32 b.bytes off

/-- The `n` bytes from `off`. -/
def Buffer.load (b : Buffer) (off n : Nat) : Except Fault (List UInt8) := do
  b.access off n
  return slice b.bytes off n

def Buffer.store16 (b : Buffer) (off v : Nat) : Except Fault Buffer := do
  b.access off 2
  return { b with bytes := setBe16 b.bytes off v }

def Buffer.store32 (b : Buffer) (off v : Nat) : Except Fault Buffer := do
  b.access off 4
  return { b with bytes := setBe32 b.bytes off v }

/-- Copy the first `n` bytes of `f` to `off`. -/
def Buffer.store (b : Buffer) (off n : Nat) (f : ByteStore) : Except Fault Buffer := do
  b.access off n
  return { b with bytes := patch b.bytes off n f }

/-- `a - b` on unsigned words. -/
def sub (a b : Nat) : Except Fault Nat := if b ≤ a then .ok (a - b) else .error .negative

section
variable {b : Buffer} {off n v : Nat}

theorem Buffer.access_of_le (h : off + n ≤ b.size) : b.access off n = .ok ⟨⟩ := if_pos h

theorem Buffer.load16_of_le (h : off + 2 ≤ b.size) : b.load16 off = .ok (be16 b.bytes off) := by
  rw [Buffer.load16, Buffer.access_of_le h]
  rfl

theorem Buffer.load32_of_le (h : off + 4 ≤ b.size) : b.load32 off = .ok (be32 b.bytes off) := by
  rw [Buffer.load32, Buffer.access_of_le h]
  rfl

theorem Buffer.load_of_le (h : off + n ≤ b.size) : b.load off n = .ok (slice b.bytes off n) := by
  rw [Buffer.load, Buffer.access_of_le h]
  rfl

theorem Buffer.store16_of_le (h : off + 2 ≤ b.size) :
    b.store16 off v = .ok { b with bytes := setBe16 b.bytes off v } := by
  rw [Buffer.store16, Buffer.access_of_le h]
  rfl

theorem Buffer.store32_of_le (h : off + 4 ≤ b.size) :
    b.store32 off v = .ok { b with bytes := setBe32 b.bytes off v } := by
  rw [Buffer.store32, Buffer.access_of_le h]
  rfl

theorem Buffer.store_of_le {f : ByteStore} (h : off + n ≤ b.size) :
    b.store off n f = .ok { b with bytes := patch b.bytes off n f } := by
  rw [Buffer.store, Buffer.access_of_le h]
  rfl

theorem sub_of_le {a c : Nat} (h : c ≤ a) : sub a c = .ok (a - c) := if_pos h

end

/-! ## Checked programs -/

/-- A program ends with a fault or with an error of its own. -/
inductive Stop (ε : Type) where
  | fault (f : Fault)
  | fail (e : ε)
  deriving DecidableEq, Repr

/-- A state with a flag. -/
structure Watched (σ : Type) where
  state : σ
  flagged : Bool

/-- A checked program. -/
abbrev CheckedM (ε σ : Type) := EStateM (Stop ε) (Watched σ)

section
variable {ε σ α β : Type}

/-- An ordinary program, run as a checked one. -/
def run (x : EStateM ε σ α) : CheckedM ε σ α := fun w =>
  match x w.state with
  | .ok a s => .ok a { w with state := s }
  | .error e s => .error (.fail e) { w with state := s }

/-- A computation on buffers. -/
def guarded (x : Except Fault α) : CheckedM ε σ α :=
  match x with
  | .ok a => pure a
  | .error f => throw (.fault f)

/-- Raise the flag and fail. -/
def flag (e : ε) : CheckedM ε σ α := fun w => .error (.fail e) { w with flagged := true }

theorem run_ok {x : EStateM ε σ α} {a : α} {w w' : Watched σ} :
    run x w = .ok a w' ↔ ∃ s, x w.state = .ok a s ∧ { w with state := s } = w' := by
  unfold run
  cases x w.state <;> simp

theorem run_error {x : EStateM ε σ α} {e : Stop ε} {w w' : Watched σ} :
    run x w = .error e w' ↔ ∃ e' s, x w.state = .error e' s ∧ .fail e' = e ∧
      { w with state := s } = w' := by
  unfold run
  cases x w.state <;> simp

theorem guarded_ok {x : Except Fault α} {a : α} {w w' : Watched σ} :
    (guarded x : CheckedM ε σ α) w = .ok a w' ↔ x = .ok a ∧ w = w' := by
  cases x with
  | ok b => simpa [guarded] using pure_ok
  | error f => simpa [guarded] using throw_ok

/-- A run against an ordinary one, both from a state that reads as `s`. -/
def Watches (s : σ) : EStateM.Result (Stop ε) (Watched σ) α → EStateM.Result ε σ α → Prop
  | .ok a w, .ok b t => a = b ∧ w = ⟨t, false⟩
  | .error (.fail e) w, .error e' t => e = e' ∧ w.state = t ∧ (w.flagged = true → t = s)
  | _, _ => False

/-- A run without the flag; none when it came to a fault. -/
def erase : EStateM.Result (Stop ε) (Watched σ) α → Option (EStateM.Result ε σ α)
  | .ok a w => some (.ok a w.state)
  | .error (.fail e) w => some (.error e w.state)
  | .error (.fault _) _ => none

/-- Whether a run raised the flag. -/
def raised (r : EStateM.Result (Stop ε) (Watched σ) α) : Bool := (final r).flagged

theorem Watches.erase_eq {s : σ} {r : EStateM.Result (Stop ε) (Watched σ) α}
    {r' : EStateM.Result ε σ α} (h : Watches s r r') : erase r = some r' := by
  rcases r with ⟨a, w⟩ | ⟨f | e, w⟩ <;> rcases r' with ⟨b, t⟩ | ⟨e', t⟩
  case ok.ok =>
    obtain ⟨rfl, rfl⟩ := h
    rfl
  case error.fail.error =>
    obtain ⟨rfl, rfl, -⟩ := h
    rfl
  all_goals exact h.elim

theorem Watches.raised_eq {s : σ} {r : EStateM.Result (Stop ε) (Watched σ) α}
    {r' : EStateM.Result ε σ α} (h : Watches s r r') (hr : raised r = true) :
    ∃ e, r' = .error e s := by
  rcases r with ⟨a, w⟩ | ⟨f | e, w⟩ <;> rcases r' with ⟨b, t⟩ | ⟨e', t⟩
  case ok.ok =>
    obtain ⟨rfl, rfl⟩ := h
    exact absurd hr (by simp [raised, final])
  case error.fail.error =>
    obtain ⟨rfl, rfl, hflag⟩ := h
    exact ⟨e, by rw [hflag hr]⟩
  all_goals exact h.elim

theorem watches_pure {s t : σ} {a : α} :
    Watches s ((pure a : CheckedM ε σ α) ⟨t, false⟩) ((pure a : EStateM ε σ α) t) := ⟨rfl, rfl⟩

theorem watches_throw {s t : σ} {e : ε} :
    Watches s ((throw (.fail e) : CheckedM ε σ α) ⟨t, false⟩) ((throw e : EStateM ε σ α) t) :=
  ⟨rfl, rfl, fun h => absurd h (by simp)⟩

/-- Steps that are not checked. -/
theorem watches_run {s t : σ} (x : EStateM ε σ α) : Watches s (run x ⟨t, false⟩) (x t) := by
  unfold run
  cases x t with
  | ok a u => exact ⟨rfl, rfl⟩
  | error e u => exact ⟨rfl, rfl, fun h => absurd h (by simp)⟩

theorem watches_bind {s t : σ} {x : CheckedM ε σ α} {y : EStateM ε σ α} {f : α → CheckedM ε σ β}
    {g : α → EStateM ε σ β} (hx : Watches s (x ⟨t, false⟩) (y t))
    (hf : ∀ a u, y t = .ok a u → Watches s (f a ⟨u, false⟩) (g a u)) :
    Watches s ((x >>= f) ⟨t, false⟩) ((y >>= g) t) := by
  change Watches s (EStateM.bind x f _) (EStateM.bind y g _)
  unfold EStateM.bind
  cases hy : y t with
  | ok a u =>
    cases hr : x ⟨t, false⟩ with
    | ok b w =>
      rw [hy, hr] at hx
      obtain ⟨rfl, rfl⟩ := hx
      exact hf b u hy
    | error e w =>
      rw [hy, hr] at hx
      cases e <;> exact absurd hx (by simp [Watches])
  | error e u =>
    cases hr : x ⟨t, false⟩ with
    | ok b w =>
      rw [hy, hr] at hx
      exact absurd hx (by simp [Watches])
    | error e w =>
      rw [hy, hr] at hx
      cases e with
      | fault f => exact hx
      | fail e => exact hx

/-- A pure result as the end of a run. -/
def outcome (x : Except ε α) (s : σ) : EStateM.Result ε σ α :=
  match x with
  | .ok a => .ok a s
  | .error e => .error e s

/-- A pure part of an ordinary program, followed by the rest of it. -/
theorem watches_outcome {s : σ} {x : CheckedM ε σ α} {y : Except ε α} {f : α → CheckedM ε σ β}
    {r : EStateM.Result ε σ β} (hx : Watches s (x ⟨s, false⟩) (outcome y s))
    (hok : ∀ a, y = .ok a → Watches s (f a ⟨s, false⟩) r)
    (herror : ∀ e, y = .error e → r = .error e s) : Watches s ((x >>= f) ⟨s, false⟩) r := by
  change Watches s (EStateM.bind x f _) r
  unfold EStateM.bind
  cases hy : y with
  | ok a =>
    rw [hy] at hx
    cases hr : x ⟨s, false⟩ with
    | ok b w =>
      rw [hr] at hx
      obtain ⟨rfl, rfl⟩ := hx
      exact hok b hy
    | error e w =>
      rw [hr] at hx
      cases e <;> exact absurd hx (by simp [Watches, outcome])
  | error e' =>
    rw [hy] at hx
    rw [herror e' hy]
    cases hr : x ⟨s, false⟩ with
    | ok b w =>
      rw [hr] at hx
      exact absurd hx (by simp [Watches, outcome])
    | error e w =>
      rw [hr] at hx
      cases e with
      | fault f => exact hx
      | fail e => exact hx

/-- A computation on buffers that succeeds is no step at all. -/
theorem guarded_bind {x : Except Fault α} {a : α} {f : α → CheckedM ε σ β} (h : x = .ok a) :
    guarded x >>= f = f a := by
  rw [h]
  rfl

end

end NextUfs.Lib.Checked
