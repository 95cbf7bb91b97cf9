import Mathlib.Order.Defs.Unbundled
import Mathlib.Tactic.TypeStar
import Mathlib.Tactic.Common

/-!
# Restartable computations

Computations on a state that may stop with an error. A computation is *restartable* if, where it
stops, it has only prepared its own repetition: repeated from the state that it has left, or from a
state above that one, it stops with the same error and changes nothing.

## Main definitions

* `Computation`, `Computation.outcome`.
* `Observes r x`: `x` leaves a state above the one in which it began, and changes nothing in a
  state above the one that it leaves.
* `Total x`: `x` does not stop.
* `Avoids bad x`: `x` does not stop with an error that is `bad`.
* `Respects r x`: `x` leads from every state to one that is related to it.
* `Yields p x`: the result of `x` has the property `p`.
* `Restartable r x`.
* `Simulates g f x y`: `x` does in the representation `g` of the states what `y` does.

## Main results

* `Observes.bind`, `Total.bind`, `Avoids.bind`, `Respects.bind`, `Yields.bind`,
  `Restartable.bind`, `Simulates.bind`: the rules for sequences. They are instances, so that a
  computation written as a sequence is restartable by instance resolution.
-/

namespace Foundations

variable {ε σ α β : Type}

/-- A computation on states that may stop with an error and then leaves a state as well. -/
abbrev Computation (ε σ : Type) : Type → Type := ExceptT ε (StateM σ)

namespace Computation

/-- The result of a computation and the state that it leaves. -/
def outcome (x : Computation ε σ α) (s : σ) : Except ε α × σ := x.run.run s

/-- A value computed from the state. -/
def read (g : σ → α) : Computation ε σ α := g <$> get

/-- A change of the state. -/
def write (g : σ → σ) : Computation ε σ Unit := modify g

@[simp]
theorem outcome_pure (a : α) (s : σ) : (pure a : Computation ε σ α).outcome s = (.ok a, s) := rfl

@[simp]
theorem outcome_throw (e : ε) (s : σ) :
    (throw e : Computation ε σ α).outcome s = (.error e, s) := rfl

@[simp]
theorem outcome_read (g : σ → α) (s : σ) :
    (read g : Computation ε σ α).outcome s = (.ok (g s), s) := rfl

theorem outcome_bind_of_ok {x : Computation ε σ α} (f : α → Computation ε σ β) {s s' : σ} {a : α}
    (h : x.outcome s = (.ok a, s')) : (x >>= f).outcome s = (f a).outcome s' := by
  have h' : x s = (.ok a, s') := h
  change (x >>= f) s = _
  simp only [bind, ExceptT.bind, ExceptT.mk, StateT.bind, h']
  rfl

theorem outcome_bind_of_error {x : Computation ε σ α} (f : α → Computation ε σ β) {s s' : σ}
    {e : ε} (h : x.outcome s = (.error e, s')) : (x >>= f).outcome s = (.error e, s') := by
  have h' : x s = (.error e, s') := h
  change (x >>= f) s = _
  simp only [bind, ExceptT.bind, ExceptT.mk, StateT.bind, h']
  rfl

/-- A sequence that does not stop. -/
theorem exists_of_outcome_bind {x : Computation ε σ α} {f : α → Computation ε σ β} {s s' : σ}
    {b : β} (h : (x >>= f).outcome s = (.ok b, s')) :
    ∃ a s₁, x.outcome s = (.ok a, s₁) ∧ (f a).outcome s₁ = (.ok b, s') := by
  rcases hs : x.outcome s with ⟨e | a, s₁⟩
  · rw [outcome_bind_of_error f hs] at h
    cases h
  · rw [outcome_bind_of_ok f hs] at h
    exact ⟨a, s₁, rfl, h⟩

end Computation

open Foundations.Computation

variable {r : σ → σ → Prop} {x : Computation ε σ α} {f : α → Computation ε σ β}

/-! ### Computations that observe the state -/

/-- A computation that changes the state at most upwards, and whose result is the same in all
states above. -/
class Observes (r : σ → σ → Prop) (x : Computation ε σ α) : Prop where
  above {s s' : σ} {a : Except ε α} : x.outcome s = (a, s') → r s s'
  mono {s s' t : σ} {a : Except ε α} : x.outcome s = (a, s') → r s t →
    ∃ t', x.outcome t = (a, t') ∧ r s' t'
  again {s s' t : σ} {a : Except ε α} : x.outcome s = (a, s') → r s' t → x.outcome t = (a, t)

theorem Observes.of_outcome [Std.Refl r] {g : σ → Except ε α} (hx : ∀ s, x.outcome s = (g s, s))
    (hg : ∀ s t, r s t → g s = g t) : Observes r x where
  above {s s' a} h := by
    rw [hx, Prod.mk.injEq] at h
    exact h.2 ▸ refl s
  mono {s s' t a} h hr := by
    rw [hx, Prod.mk.injEq] at h
    exact ⟨t, by rw [hx, ← hg s t hr, h.1], h.2 ▸ hr⟩
  again {s s' t a} h hr := by
    rw [hx, Prod.mk.injEq] at h
    obtain ⟨rfl, rfl⟩ := h
    rw [hx, hg s t hr]

instance [Std.Refl r] (a : α) : Observes r (pure a : Computation ε σ α) :=
  .of_outcome (g := fun _ => .ok a) (fun _ => rfl) fun _ _ _ => rfl

instance [Std.Refl r] (e : ε) : Observes r (throw e : Computation ε σ α) :=
  .of_outcome (g := fun _ => .error e) (fun _ => rfl) fun _ _ _ => rfl

theorem Observes.read [Std.Refl r] {g : σ → α} (h : ∀ s t, r s t → g s = g t) :
    Observes r (read g : Computation ε σ α) :=
  .of_outcome (fun _ => rfl) fun s t hr => congrArg Except.ok (h s t hr)

instance Observes.bind [IsTrans σ r] [hx : Observes r x] [hf : ∀ a, Observes r (f a)] :
    Observes r (x >>= f) where
  above {s s' b} h := by
    rcases hs : x.outcome s with ⟨e | a, s₁⟩
    · rw [outcome_bind_of_error f hs, Prod.mk.injEq] at h
      exact h.2 ▸ hx.above hs
    · rw [outcome_bind_of_ok f hs] at h
      exact IsTrans.trans _ _ _ (hx.above hs) ((hf a).above h)
  mono {s s' t b} h hr := by
    rcases hs : x.outcome s with ⟨e | a, s₁⟩
    · rw [outcome_bind_of_error f hs, Prod.mk.injEq] at h
      obtain ⟨t₁, ht, hr₁⟩ := hx.mono hs hr
      exact ⟨t₁, by rw [outcome_bind_of_error f ht, h.1], h.2 ▸ hr₁⟩
    · rw [outcome_bind_of_ok f hs] at h
      obtain ⟨t₁, ht, hr₁⟩ := hx.mono hs hr
      rw [outcome_bind_of_ok f ht]
      exact (hf a).mono h hr₁
  again {s s' t b} h hr := by
    rcases hs : x.outcome s with ⟨e | a, s₁⟩
    · rw [outcome_bind_of_error f hs, Prod.mk.injEq] at h
      obtain ⟨rfl, rfl⟩ := h
      exact outcome_bind_of_error f (hx.again hs hr)
    · rw [outcome_bind_of_ok f hs] at h
      rw [outcome_bind_of_ok f (hx.again hs (IsTrans.trans _ _ _ ((hf a).above h) hr))]
      exact (hf a).again h hr

instance {c : Prop} [Decidable c] {y : Computation ε σ α} [Observes r x] [Observes r y] :
    Observes r (if c then x else y) := by
  split_ifs <;> infer_instance

/-! ### Computations that do not stop -/

/-- A computation that does not stop. -/
class Total (x : Computation ε σ α) : Prop where
  ok (s : σ) : ∃ a s', x.outcome s = (.ok a, s')

instance (a : α) : Total (pure a : Computation ε σ α) := ⟨fun s => ⟨a, s, rfl⟩⟩

instance (g : σ → α) : Total (read g : Computation ε σ α) := ⟨fun s => ⟨g s, s, rfl⟩⟩

instance (g : σ → σ) : Total (write g : Computation ε σ Unit) := ⟨fun s => ⟨(), g s, rfl⟩⟩

instance Total.bind [hx : Total x] [hf : ∀ a, Total (f a)] : Total (x >>= f) where
  ok s := by
    obtain ⟨a, s₁, hs⟩ := hx.ok s
    rw [outcome_bind_of_ok f hs]
    exact (hf a).ok s₁

/-! ### Computations that avoid errors -/

/-- A computation that does not stop with an error of a kind. -/
class Avoids (bad : ε → Prop) (x : Computation ε σ α) : Prop where
  not_bad {s s' : σ} {e : ε} : x.outcome s = (.error e, s') → ¬bad e

variable {bad : ε → Prop}

instance (priority := low) Avoids.of_total [hx : Total x] : Avoids bad x where
  not_bad {s s' e} h := by
    obtain ⟨a, s₁, hs⟩ := hx.ok s
    simp [hs] at h

theorem Avoids.throw {e : ε} (h : ¬bad e) : Avoids bad (throw e : Computation ε σ α) where
  not_bad {s s' e'} h' := by
    rw [outcome_throw, Prod.mk.injEq] at h'
    cases h'.1
    exact h

instance Avoids.bind [hx : Avoids bad x] [hf : ∀ a, Avoids bad (f a)] : Avoids bad (x >>= f) where
  not_bad {s s' e} h := by
    rcases hs : x.outcome s with ⟨e' | a, s₁⟩
    · rw [outcome_bind_of_error f hs, Prod.mk.injEq] at h
      cases h.1
      exact hx.not_bad hs
    · rw [outcome_bind_of_ok f hs] at h
      exact (hf a).not_bad h

instance {c : Prop} [Decidable c] {y : Computation ε σ α} [Avoids bad x] [Avoids bad y] :
    Avoids bad (if c then x else y) := by
  split_ifs <;> infer_instance

/-! ### Computations that respect a relation -/

/-- A computation that leads from every state to one that is related to it, whether it stops or
not. -/
class Respects (r : σ → σ → Prop) (x : Computation ε σ α) : Prop where
  related (s : σ) : r s (x.outcome s).2

instance [Std.Refl r] (a : α) : Respects r (pure a : Computation ε σ α) := ⟨fun s => refl s⟩

instance [Std.Refl r] (e : ε) : Respects r (throw e : Computation ε σ α) := ⟨fun s => refl s⟩

instance [Std.Refl r] (g : σ → α) : Respects r (read g : Computation ε σ α) := ⟨fun s => refl s⟩

theorem Respects.write {g : σ → σ} (h : ∀ s, r s (g s)) :
    Respects r (write g : Computation ε σ Unit) := ⟨h⟩

instance Respects.bind [IsTrans σ r] [hx : Respects r x] [hf : ∀ a, Respects r (f a)] :
    Respects r (x >>= f) where
  related s := by
    have hs := hx.related s
    rcases h : x.outcome s with ⟨e | a, s₁⟩
    · rw [outcome_bind_of_error f h]
      rwa [h] at hs
    · rw [outcome_bind_of_ok f h]
      rw [h] at hs
      exact IsTrans.trans _ _ _ hs ((hf a).related s₁)

instance {c : Prop} [Decidable c] {y : Computation ε σ α} [Respects r x] [Respects r y] :
    Respects r (if c then x else y) := by
  split_ifs <;> infer_instance

/-! ### Results of computations -/

/-- A computation whose result has a property, if it does not stop. -/
class Yields (p : α → Prop) (x : Computation ε σ α) : Prop where
  holds {s s' : σ} {a : α} : x.outcome s = (.ok a, s') → p a

theorem Yields.pure {p : α → Prop} {a : α} (h : p a) :
    Yields p (pure a : Computation ε σ α) where
  holds {s s' b} hb := by
    rw [outcome_pure, Prod.mk.injEq] at hb
    cases hb.1
    exact h

/-- Only the last computation matters. -/
instance Yields.bind {p : β → Prop} [hf : ∀ a, Yields p (f a)] : Yields p (x >>= f) where
  holds {s s' b} h := by
    obtain ⟨a, s₁, -, hb⟩ := exists_of_outcome_bind h
    exact (hf a).holds hb

/-! ### Restartable computations -/

/-- A computation that, where it stops, has changed the state at most upwards, stops with the same
error in all states above the one in which it began, and changes nothing when it is repeated in a
state above the one that it leaves. -/
class Restartable (r : σ → σ → Prop) (x : Computation ε σ α) : Prop where
  above {s s' : σ} {e : ε} : x.outcome s = (.error e, s') → r s s'
  stops_iff {s t : σ} (e : ε) : r s t →
    ((∃ s', x.outcome s = (.error e, s')) ↔ ∃ t', x.outcome t = (.error e, t'))
  again {s s' t : σ} {e : ε} : x.outcome s = (.error e, s') → r s' t →
    x.outcome t = (.error e, t)

instance (priority := low) Restartable.of_observes [hx : Observes r x] : Restartable r x where
  above h := hx.above h
  stops_iff {s t} e hr := by
    constructor
    · rintro ⟨s', h⟩
      obtain ⟨t', ht, -⟩ := hx.mono h hr
      exact ⟨t', ht⟩
    · rintro ⟨t', h⟩
      obtain ⟨t₁, ht, -⟩ := hx.mono (Prod.eta _).symm hr
      rw [ht, Prod.mk.injEq] at h
      exact ⟨(x.outcome s).2, Prod.ext h.1 rfl⟩
  again h hr := hx.again h hr

instance (priority := low) Restartable.of_total [hx : Total x] : Restartable r x where
  above {s s' e} h := by
    obtain ⟨a, s₁, hs⟩ := hx.ok s
    simp [hs] at h
  stops_iff {s t} e _ := by
    obtain ⟨a, s₁, hs⟩ := hx.ok s
    obtain ⟨b, t₁, ht⟩ := hx.ok t
    simp [hs, ht]
  again {s s' t e} h := by
    obtain ⟨a, s₁, hs⟩ := hx.ok s
    simp [hs] at h

instance Restartable.bind [IsTrans σ r] [hx : Observes r x] [hf : ∀ a, Restartable r (f a)] :
    Restartable r (x >>= f) where
  above {s s' e} h := by
    rcases hs : x.outcome s with ⟨e' | a, s₁⟩
    · rw [outcome_bind_of_error f hs, Prod.mk.injEq] at h
      exact h.2 ▸ hx.above hs
    · rw [outcome_bind_of_ok f hs] at h
      exact IsTrans.trans _ _ _ (hx.above hs) ((hf a).above h)
  stops_iff {s t} e hr := by
    rcases hs : x.outcome s with ⟨e' | a, s₁⟩
    · obtain ⟨t₁, ht, -⟩ := hx.mono hs hr
      simp [outcome_bind_of_error f hs, outcome_bind_of_error f ht]
    · obtain ⟨t₁, ht, hr₁⟩ := hx.mono hs hr
      rw [outcome_bind_of_ok f hs, outcome_bind_of_ok f ht]
      exact (hf a).stops_iff e hr₁
  again {s s' t e} h hr := by
    rcases hs : x.outcome s with ⟨e' | a, s₁⟩
    · rw [outcome_bind_of_error f hs, Prod.mk.injEq] at h
      obtain ⟨h, rfl⟩ := h
      cases h
      exact outcome_bind_of_error f (hx.again hs hr)
    · rw [outcome_bind_of_ok f hs] at h
      rw [outcome_bind_of_ok f (hx.again hs (IsTrans.trans _ _ _ ((hf a).above h) hr))]
      exact (hf a).again h hr

/-- What follows a computation that may stop does not stop. -/
instance (priority := low) Restartable.bind_total [hx : Restartable r x] [hf : ∀ a, Total (f a)] :
    Restartable r (x >>= f) := by
  have stops {s s' : σ} {e : ε} :
      (x >>= f).outcome s = (.error e, s') ↔ x.outcome s = (.error e, s') := by
    rcases hs : x.outcome s with ⟨e' | a, s₁⟩
    · rw [outcome_bind_of_error f hs]
      simp
    · obtain ⟨b, s₂, hb⟩ := (hf a).ok s₁
      rw [outcome_bind_of_ok f hs, hb]
      simp
  constructor
  · intro s s' e h
    exact hx.above (stops.1 h)
  · intro s t e hr
    simp only [stops]
    exact hx.stops_iff e hr
  · intro s s' t e h hr
    exact stops.2 (hx.again (stops.1 h) hr)

instance {c : Prop} [Decidable c] {y : Computation ε σ α} [Restartable r x] [Restartable r y] :
    Restartable r (if c then x else y) := by
  split_ifs <;> infer_instance

/-! ### Computations in another representation -/

section Simulates

variable {τ α' β' : Type} {g : σ → τ}

/-- A computation that does with the representation `g` of a state what another one does with the
state itself. The result is represented by `f`. -/
class Simulates (g : σ → τ) (f : α → α') (x : Computation ε τ α') (y : Computation ε σ α) :
    Prop where
  outcome_eq (s : σ) : x.outcome (g s) = ((y.outcome s).1.map f, g (y.outcome s).2)

theorem Simulates.pure {f : α → α'} {a : α} {a' : α'} (h : a' = f a) :
    Simulates g f (pure a' : Computation ε τ α') (pure a) := ⟨fun _ => by rw [h]; rfl⟩

instance (a : α) : Simulates g id (pure a : Computation ε τ α) (pure a) := .pure rfl

instance (f : α → α') (e : ε) : Simulates g f (throw e : Computation ε τ α') (throw e) :=
  ⟨fun _ => rfl⟩

theorem Simulates.read {p : τ → α} {q : σ → α} (h : ∀ s, p (g s) = q s) :
    Simulates g id (read p : Computation ε τ α) (read q) :=
  ⟨fun s => by rw [outcome_read, h]; rfl⟩

theorem Simulates.write {p : τ → τ} {q : σ → σ} (h : ∀ s, p (g s) = g (q s)) :
    Simulates g id (write p : Computation ε τ Unit) (write q) :=
  ⟨fun s => congrArg (Prod.mk _) (h s)⟩

/-- The intermediate result is the same in both representations. -/
instance Simulates.bind {f : β → β'} {x : Computation ε τ α} {y : Computation ε σ α}
    {k : α → Computation ε τ β'} {l : α → Computation ε σ β} [hx : Simulates g id x y]
    [hk : ∀ a, Simulates g f (k a) (l a)] : Simulates g f (x >>= k) (y >>= l) where
  outcome_eq s := by
    have hs := hx.outcome_eq s
    rcases h : y.outcome s with ⟨e | a, s₁⟩
    · rw [h] at hs
      rw [outcome_bind_of_error l h, outcome_bind_of_error k hs]
      rfl
    · rw [h] at hs
      rw [outcome_bind_of_ok l h, outcome_bind_of_ok k hs]
      exact (hk a).outcome_eq s₁

instance {f : α → α'} {c : Prop} [Decidable c] {x y : Computation ε τ α'}
    {x' y' : Computation ε σ α} [Simulates g f x x'] [Simulates g f y y'] :
    Simulates g f (if c then x else y) (if c then x' else y') := by
  split_ifs <;> infer_instance

end Simulates

end Foundations
