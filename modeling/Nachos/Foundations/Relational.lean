import Nachos.Foundations.Computation

/-!
# Computations in two related states

A computation *agrees* in related states if it has the same result in both of them and leaves
related states. What is observed through such computations does not distinguish related states.

## Main definitions

* `Agrees r x`: `x` has the same result in states that `r` relates, and keeps them related.

## Main results

* `Agrees.bind`: the rule for sequences.
-/

namespace Foundations

open Foundations.Computation

variable {ε σ α β : Type} {r : σ → σ → Prop} {x : Computation ε σ α} {f : α → Computation ε σ β}

/-- A computation that has the same result in related states, whether it stops or not, and leaves
related states. -/
class Agrees (r : σ → σ → Prop) (x : Computation ε σ α) : Prop where
  result {s t : σ} : r s t → (x.outcome s).1 = (x.outcome t).1
  related {s t : σ} : r s t → r (x.outcome s).2 (x.outcome t).2

namespace Agrees

theorem of_outcome
    (h : ∀ s t, r s t → ∃ a s' t', x.outcome s = (a, s') ∧ x.outcome t = (a, t') ∧ r s' t') :
    Agrees r x where
  result {s t} hr := by
    obtain ⟨a, s', t', hs, ht, -⟩ := h s t hr
    rw [hs, ht]
  related {s t} hr := by
    obtain ⟨a, s', t', hs, ht, hr'⟩ := h s t hr
    rwa [hs, ht]

instance (a : α) : Agrees r (pure a : Computation ε σ α) := ⟨fun _ => rfl, id⟩

instance (e : ε) : Agrees r (throw e : Computation ε σ α) := ⟨fun _ => rfl, id⟩

theorem read {g : σ → α} (h : ∀ s t, r s t → g s = g t) :
    Agrees r (read g : Computation ε σ α) :=
  ⟨fun hr => congrArg Except.ok (h _ _ hr), id⟩

theorem write {g : σ → σ} (h : ∀ s t, r s t → r (g s) (g t)) :
    Agrees r (write g : Computation ε σ Unit) :=
  ⟨fun _ => rfl, h _ _⟩

instance bind [hx : Agrees r x] [hf : ∀ a, Agrees r (f a)] : Agrees r (x >>= f) := by
  refine of_outcome fun s t hr => ?_
  have hresult := hx.result hr
  have hrelated := hx.related hr
  rcases hs : x.outcome s with ⟨e | a, s₁⟩ <;> rcases ht : x.outcome t with ⟨e' | b, t₁⟩ <;>
    rw [hs, ht] at hresult hrelated <;> cases hresult
  · exact ⟨_, _, _, outcome_bind_of_error f hs, outcome_bind_of_error f ht, hrelated⟩
  · have hresult' : ((f a).outcome s₁).1 = ((f a).outcome t₁).1 := (hf a).result hrelated
    exact ⟨_, _, ((f a).outcome t₁).2, outcome_bind_of_ok f hs,
      (outcome_bind_of_ok f ht).trans (Prod.ext hresult'.symm rfl), (hf a).related hrelated⟩

end Agrees

end Foundations
