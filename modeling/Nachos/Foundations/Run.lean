import Mathlib.Logic.Relation
import Mathlib.Tactic.SplitIfs

/-!
# Runs of a fallible step function

A system is a set of initial states and a step function that takes, besides the state, whatever
the environment decides in that step. A step either yields the next state or stops the run with
a fault. Runs may be restricted to the steps that meet a condition on the state before the step
and the environment's input; an unrestricted run is one whose steps meet the condition `True`.

## Main definitions

* `StepSystem`: initial states and a fallible step function.
* `StepSystem.Steps`: finitely many steps, each meeting a condition.
* `StepSystem.Reachable`: the states such steps reach from an initial state.
* `StepSystem.runInputs`: the run along a given list of inputs.
* `StepSystem.withHistory`: the runs together with a history variable.

## Main results

* `StepSystem.Steps.invariant`, `StepSystem.Reachable.invariant`: what every step preserves
  holds in every state of a run.
* `StepSystem.Reachable.map`: the rule for a refinement mapping.
* `StepSystem.steps_of_runInputs`: the state computed along a list of inputs is reached by steps.
-/

namespace Foundations

/-- Initial states and a fallible step function; `ι` is what the environment decides in a step
and `φ` the ways in which a run can stop. -/
structure StepSystem (σ ι φ : Type*) where
  /-- The states in which a run starts. -/
  init : σ → Prop
  /-- One step, for the input the environment decides. -/
  step : σ → ι → Except φ σ

namespace StepSystem

variable {σ ι φ : Type*} (S : StepSystem σ ι φ)

/-- Finitely many steps, each meeting the condition `C` on the state before it and its input. -/
def Steps (C : σ → ι → Prop) : σ → σ → Prop :=
  Relation.ReflTransGen fun s s' => ∃ i, C s i ∧ S.step s i = .ok s'

/-- The states reached from an initial state by steps that meet the condition `C`. -/
def Reachable (C : σ → ι → Prop) (s : σ) : Prop :=
  ∃ s₀, S.init s₀ ∧ S.Steps C s₀ s

/-- Every step is allowed. -/
def Always : σ → ι → Prop := fun _ _ => True

variable {S} {C D : σ → ι → Prop}

theorem Steps.refl (s : σ) : S.Steps C s s := Relation.ReflTransGen.refl

theorem Steps.tail {s s' s'' : σ} {i : ι} (h : S.Steps C s s') (hi : C s' i)
    (hs : S.step s' i = .ok s'') : S.Steps C s s'' :=
  Relation.ReflTransGen.tail h ⟨i, hi, hs⟩

theorem Steps.head {s s' s'' : σ} {i : ι} (hi : C s i) (hs : S.step s i = .ok s')
    (h : S.Steps C s' s'') : S.Steps C s s'' :=
  Relation.ReflTransGen.head ⟨i, hi, hs⟩ h

/-- What holds at the start of a run and is preserved by every step holds at its end. -/
theorem Steps.invariant {s s' : σ} (I : σ → Prop) (h : S.Steps C s s') (h₀ : I s)
    (hstep : ∀ s i s', I s → C s i → S.step s i = .ok s' → I s') : I s' := by
  induction h with
  | refl => exact h₀
  | tail _ hs ih =>
    obtain ⟨i, hi, hs⟩ := hs
    exact hstep _ i _ ih hi hs

theorem Reachable.init {s : σ} (h : S.init s) : S.Reachable C s := ⟨s, h, Steps.refl s⟩

theorem Reachable.step {s s' : σ} {i : ι} (h : S.Reachable C s) (hi : C s i)
    (hs : S.step s i = .ok s') : S.Reachable C s' :=
  let ⟨s₀, h₀, hr⟩ := h
  ⟨s₀, h₀, hr.tail hi hs⟩

/-- What holds initially and is preserved by every step holds in every reachable state. -/
theorem Reachable.invariant {s : σ} (I : σ → Prop) (h : S.Reachable C s)
    (h₀ : ∀ s, S.init s → I s)
    (hstep : ∀ s i s', I s → C s i → S.step s i = .ok s' → I s') : I s :=
  let ⟨_, hs₀, hr⟩ := h
  hr.invariant I (h₀ _ hs₀) hstep

/-- The condition may use what is known of the states that are reached. -/
theorem Reachable.mono_of_reachable {s : σ}
    (hCD : ∀ s i, S.Reachable C s → C s i → D s i) (h : S.Reachable C s) : S.Reachable D s := by
  obtain ⟨s₀, h₀, hr⟩ := h
  induction hr with
  | refl => exact .init h₀
  | tail hr hs ih =>
    obtain ⟨i, hi, hs⟩ := hs
    exact ih.step (hCD _ i ⟨s₀, h₀, hr⟩ hi) hs

/-- If a map of the states turns every step into finitely many steps of another system, then that
system reaches what the states that are reached are mapped to. -/
theorem Reachable.map {σ' ι' φ' : Type*} {S' : StepSystem σ' ι' φ'} {C' : σ' → ι' → Prop}
    (f : σ → σ') {s : σ} (h : S.Reachable C s) (h₀ : ∀ s, S.init s → S'.init (f s))
    (hstep : ∀ s i s', S.Reachable C s → C s i → S.step s i = .ok s' →
      S'.Steps C' (f s) (f s')) : S'.Reachable C' (f s) := by
  obtain ⟨s₀, hs₀, hr⟩ := h
  induction hr with
  | refl => exact .init (h₀ _ hs₀)
  | tail hr hs ih =>
    obtain ⟨i, hi, hs⟩ := hs
    obtain ⟨s₁, hs₁, hr'⟩ := ih
    exact ⟨s₁, hs₁, Relation.ReflTransGen.trans hr' (hstep _ i _ ⟨s₀, hs₀, hr⟩ hi hs)⟩

/-- The run along a list of inputs. -/
def runInputs (S : StepSystem σ ι φ) : σ → List ι → Except φ σ
  | s, [] => .ok s
  | s, i :: is => do S.runInputs (← S.step s i) is

theorem steps_of_runInputs {s s' : σ} {is : List ι} (h : S.runInputs s is = .ok s') :
    S.Steps Always s s' := by
  induction is generalizing s with
  | nil =>
    obtain rfl : s = s' := Except.ok.inj h
    exact Steps.refl s
  | cons i is ih =>
    cases hs : S.step s i with
    | error e => simp [runInputs, hs, bind, Except.bind] at h
    | ok s₁ =>
      have h' : S.runInputs s₁ is = .ok s' := by simpa [runInputs, hs, bind, Except.bind] using h
      exact Steps.head trivial hs (ih h')

/-- A test that succeeds on the state computed along a list of inputs from an initial state
succeeds in a reachable state. -/
theorem exists_reachable_of_runInputs {s₀ : σ} (h₀ : S.init s₀) (is : List ι) (p : σ → Bool)
    (h : (S.runInputs s₀ is).toOption.any p = true) : ∃ s, S.Reachable Always s ∧ p s = true := by
  cases hr : S.runInputs s₀ is with
  | error e => simp [hr, Except.toOption] at h
  | ok s => exact ⟨s, ⟨s₀, h₀, steps_of_runInputs hr⟩, by simpa [hr, Except.toOption] using h⟩

/-- The run along a list of inputs, as long as its steps meet the condition `c`. -/
def runInputsIf (S : StepSystem σ ι φ) (c : σ → ι → Bool) : σ → List ι → Option σ
  | s, [] => some s
  | s, i :: is => if c s i then (S.step s i).toOption.bind (S.runInputsIf c · is) else none

theorem steps_of_runInputsIf {c : σ → ι → Bool} (hc : ∀ s i, c s i = true → C s i) {s s' : σ}
    {is : List ι} (h : S.runInputsIf c s is = some s') : S.Steps C s s' := by
  induction is generalizing s with
  | nil =>
    obtain rfl : s = s' := Option.some.inj h
    exact Steps.refl s
  | cons i is ih =>
    simp only [runInputsIf] at h
    split_ifs at h with hi
    cases hs : S.step s i with
    | error e => simp [hs, Except.toOption] at h
    | ok s₁ => exact Steps.head (hc s i hi) hs (ih (by simpa [hs, Except.toOption] using h))

/-- A test that succeeds on the state computed along a list of inputs whose steps meet the
condition succeeds in a state that such steps reach. -/
theorem exists_reachable_of_runInputsIf {s₀ : σ} (h₀ : S.init s₀) {c : σ → ι → Bool}
    (hc : ∀ s i, c s i = true → C s i) (is : List ι) (p : σ → Bool)
    (h : (S.runInputsIf c s₀ is).any p = true) : ∃ s, S.Reachable C s ∧ p s = true := by
  cases hr : S.runInputsIf c s₀ is with
  | none => simp [hr] at h
  | some s => exact ⟨s, ⟨s₀, h₀, steps_of_runInputsIf hc hr⟩, by simpa [hr] using h⟩

/-! ### History variables -/

/-- The runs together with a variable that every step updates from the state before it. -/
def withHistory {γ : Type*} (S : StepSystem σ ι φ) (record : σ → ι → γ → γ) (start : γ) :
    StepSystem (σ × γ) ι φ where
  init s := S.init s.1 ∧ s.2 = start
  step s i := (S.step s.1 i).map fun s' => (s', record s.1 i s.2)

section History

variable {γ : Type*} {record : σ → ι → γ → γ} {start : γ}

theorem withHistory_step {s s' : σ × γ} {i : ι}
    (h : (S.withHistory record start).step s i = .ok s') :
    S.step s.1 i = .ok s'.1 ∧ s'.2 = record s.1 i s.2 := by
  cases hs : S.step s.1 i with
  | error e => simp [withHistory, hs, Except.map] at h
  | ok s₁ =>
    simp only [withHistory, hs, Except.map, Except.ok.injEq] at h
    exact h ▸ ⟨rfl, rfl⟩

end History

end StepSystem

end Foundations
