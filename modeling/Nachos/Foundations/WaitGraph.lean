import Mathlib.Data.Finite.Defs
import Mathlib.Logic.Relation
import Mathlib.Order.WellFounded
import Mathlib.Data.Fintype.Order

/-!
# Circles in a graph of who waits for whom

Two facts about circles in a relation `R a b`, "`a` waits for `b`". If all of finitely many wait
for another one of them, there is a circle; and if all new edges lead to one vertex, a new circle
goes through that vertex.

## Main results

* `exists_transGen_of_forall_exists`: finitely many that all wait for each other.
* `exists_reflTransGen_of_transGen`: what closes a circle.
-/

namespace Foundations

open Relation

variable {α : Type*} {R R' : α → α → Prop} {N p : α → Prop} {r : α}

/-- If each of finitely many waits for another one of them, some of them wait in a circle. -/
theorem exists_transGen_of_forall_exists [Finite α] {a : α} (ha : p a)
    (h : ∀ a, p a → ∃ b, p b ∧ R a b) : ∃ a, TransGen R a a := by
  by_contra hno
  have hirrefl : Std.Irrefl (TransGen (flip R)) :=
    ⟨fun a hc => hno ⟨a, transGen_swap.1 hc⟩⟩
  have htrans : IsTrans α (TransGen (flip R)) := ⟨fun _ _ _ => TransGen.trans⟩
  have hwf : WellFounded (TransGen (flip R)) := Finite.wellFounded_of_trans_of_irrefl _
  obtain ⟨m, hm, hmin⟩ := hwf.has_min {a | p a} ⟨a, ha⟩
  obtain ⟨b, hb, hmb⟩ := h m hm
  exact hmin b hb (.single hmb)

/-- Every new edge leads from one of `N` to `r`. If there is a circle now and there was none
before, then some of `N` could already be reached from `r`. -/
theorem exists_reflTransGen_of_transGen {a : α} (hR : ∀ a b, R' a b → R a b ∨ N a ∧ b = r)
    (hno : ∀ a, ¬ TransGen R a a) (h : TransGen R' a a) : ∃ b, N b ∧ ReflTransGen R r b := by
  by_contra hnot
  have hpath : ∀ b, TransGen R' a b →
      TransGen R a b ∨ ∃ c, ReflTransGen R a c ∧ N c ∧ ReflTransGen R r b := by
    intro b hb
    induction hb with
    | single hab =>
      rcases hR _ _ hab with hab | ⟨hN, rfl⟩
      · exact .inl (.single hab)
      · exact .inr ⟨a, .refl, hN, .refl⟩
    | tail _ hbc ih =>
      rcases hR _ _ hbc with hbc | ⟨hN, rfl⟩
      · rcases ih with hab | ⟨c, hac, hc, hrb⟩
        · exact .inl (hab.tail hbc)
        · exact .inr ⟨c, hac, hc, hrb.tail hbc⟩
      · rcases ih with hab | ⟨c, hac, hc, hrb⟩
        · exact .inr ⟨_, hab.to_reflTransGen, hN, .refl⟩
        · exact absurd ⟨_, hN, hrb⟩ hnot
  rcases hpath a h with hcirc | ⟨c, hac, hc, hra⟩
  · exact hno a hcirc
  · exact hnot ⟨c, hc, hra.trans hac⟩

end Foundations
