/-
NextUfs.Lib.StateResult — what a successful run of an `EStateM` computation
says about its parts.

Each lemma takes `x s = .ok a s'` apart: a sequence into its two halves, a
test into the fact tested. A proof about a successful run rewrites with them
and never unfolds the monad.
-/
namespace NextUfs.Lib.StateResult

universe u
variable {ε σ α β : Type u}

/-- Fail with `e` unless the test holds. -/
def check (p : Prop) [Decidable p] (e : ε) : EStateM ε σ PUnit := if p then pure ⟨⟩ else throw e

theorem bind_ok {x : EStateM ε σ α} {f : α → EStateM ε σ β} {s s'' : σ} {b : β} :
    (x >>= f) s = .ok b s'' ↔ ∃ a s', x s = .ok a s' ∧ f a s' = .ok b s'' := by
  change EStateM.bind x f s = _ ↔ _
  unfold EStateM.bind
  cases x s with
  | ok a s' =>
    constructor
    · exact fun h => ⟨a, s', rfl, h⟩
    · rintro ⟨a', t, h, h'⟩
      cases h
      exact h'
  | error e s' => simp

theorem pure_ok {a b : α} {s s' : σ} :
    (pure a : EStateM ε σ α) s = .ok b s' ↔ a = b ∧ s = s' := by
  change EStateM.Result.ok a s = _ ↔ _
  simp

theorem throw_ok {e : ε} {b : α} {s s' : σ} :
    (throw e : EStateM ε σ α) s = .ok b s' ↔ False := by
  change EStateM.Result.error e s = _ ↔ _
  simp

theorem check_ok {p : Prop} [Decidable p] {e : ε} {u : PUnit} {s s' : σ} :
    (check p e : EStateM ε σ PUnit) s = .ok u s' ↔ p ∧ s = s' := by
  unfold check
  split <;> simp [pure_ok, throw_ok, *]

theorem get_ok {a s s' : σ} : (get : EStateM ε σ σ) s = .ok a s' ↔ s = a ∧ s = s' := by
  change EStateM.Result.ok s s = _ ↔ _
  simp

theorem modify_ok {f : σ → σ} {u : PUnit} {s s' : σ} :
    (modify f : EStateM ε σ PUnit) s = .ok u s' ↔ f s = s' := by
  change EStateM.Result.ok _ (f s) = _ ↔ _
  simp

theorem ofExcept_ok {r : Except ε α} {a : α} {s s' : σ} :
    (ofExcept r : EStateM ε σ α) s = .ok a s' ↔ r = .ok a ∧ s = s' := by
  cases r with
  | ok b => simpa [ofExcept] using pure_ok
  | error e => simpa [ofExcept] using throw_ok

/-- The run came to a result. -/
def finishes : EStateM.Result ε σ α → Bool
  | .ok _ _ => true
  | .error _ _ => false

theorem exists_of_finishes : ∀ {r : EStateM.Result ε σ α}, finishes r = true →
    ∃ a s, r = .ok a s
  | .ok a s, _ => ⟨a, s, rfl⟩

/-- The result of a run that came to one. -/
def value : EStateM.Result ε σ α → Option α
  | .ok a _ => some a
  | .error _ _ => none

theorem exists_of_value : ∀ {r : EStateM.Result ε σ α} {a : α}, value r = some a →
    ∃ s, r = .ok a s
  | .ok _ s, _, rfl => ⟨s, rfl⟩

/-- A run goes on from what its first step gives. -/
theorem bind_of_ok {x : EStateM ε σ α} {f : α → EStateM ε σ β} {a : α} {s t : σ}
    (h : x s = .ok a t) : (x >>= f) s = f a t := by
  change EStateM.bind x f s = _
  unfold EStateM.bind
  rw [h]

theorem bind_of_error {x : EStateM ε σ α} {f : α → EStateM ε σ β} {e : ε} {s t : σ}
    (h : x s = .error e t) : (x >>= f) s = .error e t := by
  change EStateM.bind x f s = _
  unfold EStateM.bind
  rw [h]

/-- Sequences associate. -/
theorem bind_bind {γ : Type u} {x : EStateM ε σ α} {f : α → EStateM ε σ β} {g : β → EStateM ε σ γ}
    {s : σ} : (x >>= f >>= g) s = (x >>= fun a => f a >>= g) s := by
  cases h : x s with
  | ok a t =>
    rw [bind_of_ok h]
    change EStateM.bind (x >>= f) g s = EStateM.bind (f a) g t
    unfold EStateM.bind
    rw [bind_of_ok h]
  | error e t => rw [bind_of_error h, bind_of_error (bind_of_error h)]

theorem get_bind {f : σ → EStateM ε σ β} {s : σ} :
    ((get : EStateM ε σ σ) >>= f) s = f s s := rfl

theorem check_bind {p : Prop} [Decidable p] {e : ε} {f : PUnit → EStateM ε σ β} {s : σ} :
    ((check p e : EStateM ε σ PUnit) >>= f) s = if p then f ⟨⟩ s else .error e s := by
  unfold check
  split <;> rfl

theorem value_bind_of_ok {x : EStateM ε σ α} {f : α → EStateM ε σ β} {a : α} {s t : σ}
    (h : x s = .ok a t) : value ((x >>= f) s) = value (f a t) := by
  change value (EStateM.bind x f s) = _
  unfold EStateM.bind
  rw [h]

theorem value_get_bind {f : σ → EStateM ε σ β} {s : σ} :
    value (((get : EStateM ε σ σ) >>= f) s) = value (f s s) := rfl

theorem value_bind_of_error {x : EStateM ε σ α} {f : α → EStateM ε σ β} {e : ε} {s t : σ}
    (h : x s = .error e t) : value ((x >>= f) s) = none := by
  change value (EStateM.bind x f s) = _
  unfold EStateM.bind
  rw [h]
  rfl

/-- The state a run ends in. -/
def final : EStateM.Result ε σ α → σ
  | .ok _ s => s
  | .error _ s => s

theorem final_of_ok {r : EStateM.Result ε σ α} {a : α} {s : σ} (h : r = .ok a s) : final r = s := by
  rw [h]
  rfl

/-- The error a run ended in, if it did. -/
def failure : EStateM.Result ε σ α → Option ε
  | .ok _ _ => none
  | .error e _ => some e

/-- Run `x`; whatever it fails with becomes `e`. -/
def failAs (e : ε) (x : EStateM ε σ α) : EStateM ε σ α := fun s =>
  match x s with
  | .ok a s => .ok a s
  | .error _ s => .error e s

theorem failAs_ok {e : ε} {x : EStateM ε σ α} {a : α} {s s' : σ} :
    failAs e x s = .ok a s' ↔ x s = .ok a s' := by
  unfold failAs
  cases x s <;> simp

/-- Run `x`; its outcome is the result, and the state is what it left. -/
def attempt (x : EStateM ε σ α) : EStateM ε σ (Except ε α) := fun s =>
  match x s with
  | .ok a s => .ok (.ok a) s
  | .error e s => .ok (.error e) s

theorem attempt_ok {x : EStateM ε σ α} {a : α} {s s' : σ} :
    attempt x s = .ok (.ok a) s' ↔ x s = .ok a s' := by
  unfold attempt
  cases x s <;> simp

theorem attempt_error {x : EStateM ε σ α} {e : ε} {s s' : σ} :
    attempt x s = .ok (.error e) s' ↔ x s = .error e s' := by
  unfold attempt
  cases x s <;> simp

/-! ## Failing runs -/

theorem bind_error {x : EStateM ε σ α} {f : α → EStateM ε σ β} {s s' : σ} {e : ε} :
    (x >>= f) s = .error e s' ↔
      x s = .error e s' ∨ ∃ a t, x s = .ok a t ∧ f a t = .error e s' := by
  change EStateM.bind x f s = _ ↔ _
  unfold EStateM.bind
  cases x s with
  | ok a t =>
    constructor
    · exact fun h => .inr ⟨a, t, rfl, h⟩
    · rintro (h | ⟨a', t', h, h'⟩)
      · cases h
      · cases h
        exact h'
  | error e t => simp

theorem pure_error {a : α} {s s' : σ} {e : ε} :
    (pure a : EStateM ε σ α) s = .error e s' ↔ False := by
  change EStateM.Result.ok a s = _ ↔ _
  simp

theorem throw_error {e e' : ε} {s s' : σ} :
    (throw e : EStateM ε σ α) s = .error e' s' ↔ e = e' ∧ s = s' := by
  change EStateM.Result.error e s = _ ↔ _
  simp

theorem check_error {p : Prop} [Decidable p] {e e' : ε} {s s' : σ} :
    (check p e : EStateM ε σ PUnit) s = .error e' s' ↔ ¬ p ∧ e = e' ∧ s = s' := by
  unfold check
  split <;> simp [pure_error, throw_error, *]

theorem failAs_error {e e' : ε} {x : EStateM ε σ α} {s s' : σ} :
    failAs e x s = .error e' s' ↔ e = e' ∧ ∃ e₀, x s = .error e₀ s' := by
  unfold failAs
  cases x s with
  | ok a s => simp
  | error e₀ s => simp

theorem get_error {s s' : σ} {e : ε} : (get : EStateM ε σ σ) s = .error e s' ↔ False := by
  change EStateM.Result.ok s s = _ ↔ _
  simp

theorem modify_error {f : σ → σ} {s s' : σ} {e : ε} :
    (modify f : EStateM ε σ PUnit) s = .error e s' ↔ False := by
  change EStateM.Result.ok _ (f s) = _ ↔ _
  simp

/-! ## Both outcomes at once -/

/-- A run ends in a result with `Q`, or fails with `E`. -/
def Ends (Q : α → σ → Prop) (E : ε → σ → Prop) : EStateM.Result ε σ α → Prop
  | .ok a s => Q a s
  | .error e s => E e s

theorem Ends.mono {Q Q' : α → σ → Prop} {E E' : ε → σ → Prop} {r : EStateM.Result ε σ α}
    (h : Ends Q E r) (hQ : ∀ a s, Q a s → Q' a s) (hE : ∀ e s, E e s → E' e s) : Ends Q' E' r := by
  cases r with
  | ok a s => exact hQ a s h
  | error e s => exact hE e s h

/-- What holds of both outcomes' states holds of the final one. -/
theorem Ends.final_of {P : σ → Prop} {Q : α → σ → Prop} {r : EStateM.Result ε σ α}
    (h : Ends Q (fun _ s => P s) r) (hQ : ∀ {a} s, Q a s → P s) : P (final r) := by
  cases r with
  | ok a s => exact hQ s h
  | error e s => exact h

/-- What holds of the state after `x`, whatever comes of it, holds at the end when the rest keeps it. -/
theorem final_bind {P : σ → Prop} {x : EStateM ε σ α} {f : α → EStateM ε σ β} {s : σ}
    (hx : P (final (x s))) (hf : ∀ a t, x s = .ok a t → P t → P (final (f a t))) :
    P (final ((x >>= f) s)) := by
  cases h : x s with
  | ok a t =>
    rw [h] at hx
    rw [bind_of_ok h]
    exact hf a t h hx
  | error e t =>
    rw [h] at hx
    rwa [bind_of_error h]

theorem ends_bind {x : EStateM ε σ α} {f : α → EStateM ε σ β} {s : σ} {Q : β → σ → Prop}
    {E : ε → σ → Prop} (h : Ends (fun a s' => Ends Q E (f a s')) E (x s)) :
    Ends Q E ((x >>= f) s) := by
  change Ends Q E (EStateM.bind x f s)
  unfold EStateM.bind
  cases hx : x s with
  | ok a s' =>
    rw [hx] at h
    exact h
  | error e s' =>
    rw [hx] at h
    exact h

theorem ends_get {s : σ} {Q : σ → σ → Prop} {E : ε → σ → Prop} (h : Q s s) :
    Ends Q E ((get : EStateM ε σ σ) s) := h

theorem ends_pure {a : α} {s : σ} {Q : α → σ → Prop} {E : ε → σ → Prop} (h : Q a s) :
    Ends Q E ((pure a : EStateM ε σ α) s) := h

theorem ends_modify {f : σ → σ} {s : σ} {Q : PUnit → σ → Prop} {E : ε → σ → Prop}
    (h : Q ⟨⟩ (f s)) : Ends Q E ((modify f : EStateM ε σ PUnit) s) := h

theorem ends_throw {e : ε} {s : σ} {Q : α → σ → Prop} {E : ε → σ → Prop} (h : E e s) :
    Ends Q E ((throw e : EStateM ε σ α) s) := h

theorem ends_check {p : Prop} [Decidable p] {e : ε} {s : σ} {Q : PUnit → σ → Prop}
    {E : ε → σ → Prop} (hp : p → Q ⟨⟩ s) (hn : ¬ p → E e s) :
    Ends Q E ((check p e : EStateM ε σ PUnit) s) := by
  unfold check
  split
  · exact hp ‹_›
  · exact hn ‹_›

/-! ## Invariants of a computation -/

/-- `x` keeps `P` whether or not it fails, and its results have `Q`. -/
def Keeps (P : σ → Prop) (Q : α → Prop) (x : EStateM ε σ α) : Prop :=
  ∀ s, P s → Ends (fun a s' => P s' ∧ Q a) (fun _ s' => P s') (x s)

section Keeps

variable {P : σ → Prop} {Q Q' : α → Prop} {R : β → Prop}

theorem Keeps.mono {x : EStateM ε σ α} (h : Keeps P Q x) (hQ : ∀ a, Q a → Q' a) : Keeps P Q' x :=
  fun s hs => (h s hs).mono (fun a _ h' => ⟨h'.1, hQ a h'.2⟩) fun _ _ h' => h'

theorem keeps_bind {x : EStateM ε σ α} {f : α → EStateM ε σ β} (hx : Keeps P Q x)
    (hf : ∀ a, Q a → Keeps P R (f a)) : Keeps P R (x >>= f) := fun s hs =>
  ends_bind ((hx s hs).mono (fun a s' h => hf a h.2 s' h.1) fun _ _ h => h)

theorem keeps_pure {a : α} (h : Q a) : Keeps P Q (pure a : EStateM ε σ α) :=
  fun _ hs => ends_pure ⟨hs, h⟩

theorem keeps_throw {e : ε} : Keeps P Q (throw e : EStateM ε σ α) := fun _ hs => ends_throw hs

theorem keeps_get : Keeps P (fun _ => True) (get : EStateM ε σ σ) :=
  fun _ hs => ends_get ⟨hs, trivial⟩

theorem keeps_modify {f : σ → σ} (h : ∀ s, P s → P (f s)) :
    Keeps P (fun _ => True) (modify f : EStateM ε σ PUnit) :=
  fun s hs => ends_modify ⟨h s hs, trivial⟩

theorem keeps_check {p : Prop} [Decidable p] {e : ε} :
    Keeps P (fun _ => p) (check p e : EStateM ε σ PUnit) :=
  fun _ hs => ends_check (fun hp => ⟨hs, hp⟩) fun _ => hs

end Keeps

/-! ## What a computation leaves alone -/

section Steady
variable {γ : Type u} {f : σ → γ}

/-- `x` leaves `f` of the state alone, whether or not it fails. -/
def Steady (f : σ → γ) (x : EStateM ε σ α) : Prop := ∀ s, f (final (x s)) = f s

theorem Steady.ok {x : EStateM ε σ α} {a : α} {s s' : σ} (h : Steady f x) (hx : x s = .ok a s') :
    f s' = f s := by
  have hs := h s
  rwa [hx] at hs

theorem Steady.error {x : EStateM ε σ α} {e : ε} {s s' : σ} (h : Steady f x)
    (hx : x s = .error e s') : f s' = f s := by
  have hs := h s
  rwa [hx] at hs

/-- A computation that leaves all of the state alone. -/
theorem Steady.state {x : EStateM ε σ α} {a : α} {s s' : σ} (h : Steady id x)
    (hx : x s = .ok a s') : s = s' :=
  (h.ok hx).symm

theorem steady_bind {x : EStateM ε σ α} {g : α → EStateM ε σ β} (hx : Steady f x)
    (hg : ∀ a, Steady f (g a)) : Steady f (x >>= g) := by
  intro s
  change f (final (EStateM.bind x g s)) = f s
  unfold EStateM.bind
  cases h : x s with
  | ok a s' => exact (hg a s').trans (hx.ok h)
  | error e s' => exact hx.error h

theorem steady_pure (a : α) : Steady f (pure a : EStateM ε σ α) := fun _ => rfl

theorem steady_throw (e : ε) : Steady f (throw e : EStateM ε σ α) := fun _ => rfl

theorem steady_get : Steady f (get : EStateM ε σ σ) := fun _ => rfl

theorem steady_modify {g : σ → σ} (h : ∀ s, f (g s) = f s) :
    Steady f (modify g : EStateM ε σ PUnit) := h

theorem steady_ite {p : Prop} [Decidable p] {x y : EStateM ε σ α} (hx : Steady f x)
    (hy : Steady f y) : Steady f (if p then x else y) := by
  split
  · exact hx
  · exact hy

theorem steady_check (p : Prop) [Decidable p] (e : ε) :
    Steady f (check p e : EStateM ε σ PUnit) :=
  steady_ite (steady_pure _) (steady_throw _)

theorem steady_failAs {e : ε} {x : EStateM ε σ α} (h : Steady f x) : Steady f (failAs e x) := by
  intro s
  unfold failAs
  cases hx : x s with
  | ok a s' => exact h.ok hx
  | error e s' => exact h.error hx

theorem steady_attempt {x : EStateM ε σ α} (h : Steady f x) : Steady f (attempt x) := by
  intro s
  unfold attempt
  cases hx : x s with
  | ok a s' => exact h.ok hx
  | error e s' => exact h.error hx

end Steady

end NextUfs.Lib.StateResult
