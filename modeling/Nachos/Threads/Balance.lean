import Mathlib.Tactic.Ring
import Nachos.Threads.ThreadTest

/-!
# Units of a semaphore in the hands of the participants

What a participant has still to execute tells how many units of a semaphore it holds: every `V`
that it has still to call returns one, every `P` still takes one, and a piece of code counts for
the units that the code is going to return. Together with the value of the semaphore these units
are conserved, except for what the code of the participants itself creates or consumes. With the
coefficient 0 instead of 1 the semaphore does not count, which serves for other resources.

## Main definitions

* `Op.weight`, `load`: the units that a participant holds.
* `Program.balance`: the value of the semaphore, the units that the participants hold, and a
  term for the shared variables.
* `Program.Settles`: a move that executes no code.

## Main results

* `Program.Move.executes_or_settles`: a move executes code or settles an operation of the kernel.
* `Program.Move.balance_eq`: a move keeps the balance if the code of the participants does.
* `Program.Move.le_balance`: a move does not decrease the balance if the code does not.
-/

namespace Nachos.Threads

open Function Foundations

variable {P : ℕ} {σ κ ε ι : Type} [DecidableEq σ]

/-- What an operation returns of the units of `s`, when each counts `c` and code `code` counts
`w code`. -/
def Op.weight (c : ℤ) (s : σ) (w : κ → ℤ) : Op σ κ → ℤ
  | p s' => if s' = s then -c else 0
  | v s' => if s' = s then c else 0
  | yield => 0
  | run code => w code

/-- What a participant that has still to execute `ops` returns. -/
def load (c : ℤ) (s : σ) (w : κ → ℤ) (ops : List (Op σ κ)) : ℤ :=
  (ops.map (Op.weight c s w)).sum

section Load

variable (c : ℤ) (s : σ) (w : κ → ℤ)

@[simp]
theorem load_nil : load c s w [] = 0 := rfl

@[simp]
theorem load_cons (o : Op σ κ) (ops : List (Op σ κ)) :
    load c s w (o :: ops) = o.weight c s w + load c s w ops := by
  simp [load]

@[simp]
theorem load_append (ops ops' : List (Op σ κ)) :
    load c s w (ops ++ ops') = load c s w ops + load c s w ops' := by
  simp [load]

@[simp]
theorem load_filter_isWork (ops : List (Op σ κ)) :
    load c s w (ops.filter Op.isWork) = load c s w ops := by
  induction ops with
  | nil => rfl
  | cons o ops ih => cases o <;> simp_all [Op.weight]

@[simp]
theorem load_replicate_yield (n : ℕ) : load c s w (List.replicate n Op.yield) = 0 := by
  induction n with
  | zero => rfl
  | succ n ih => rw [List.replicate_succ, load_cons, ih, Op.weight, add_zero]

/-- Without a semaphore, completing a call of the kernel changes nothing. -/
theorem load_cons_of_ne_run {o : Op σ κ} (ho : ∀ code, o ≠ .run code) (ops : List (Op σ κ)) :
    load 0 s w (o :: ops) = load 0 s w ops := by
  cases o with
  | run code => exact absurd rfl (ho code)
  | _ => simp [Op.weight]

/-- More for the code is more for the participant. -/
theorem load_le_load {w w' : κ → ℤ} (h : ∀ code, w code ≤ w' code) (ops : List (Op σ κ)) :
    load c s w ops ≤ load c s w' ops := by
  induction ops with
  | nil => simp
  | cons o ops ih =>
    simp only [load_cons]
    refine add_le_add ?_ ih
    cases o with
    | run code => exact h code
    | _ => exact le_rfl

/-- Without a semaphore, code that counts nothing negative adds up to nothing negative. -/
theorem load_nonneg {w : κ → ℤ} (h : ∀ code, 0 ≤ w code) (ops : List (Op σ κ)) :
    0 ≤ load 0 s w ops := by
  induction ops with
  | nil => simp
  | cons o ops ih =>
    rw [load_cons]
    refine add_nonneg ?_ ih
    cases o with
    | run code => exact h code
    | _ => simp [Op.weight]

end Load

namespace Program

variable {T : Program P σ κ ε ι} {k k' : Kernel (Participant P) σ (TaskCode κ) ε}
  {input : Input Empty ι} {c : ℤ} {s : σ} {w : Fin P → κ → ℤ} {f : ε → ℤ}

/-- The value of the semaphore `s` and what the participants return, both with the weight `c`
for a unit, and `f` of the shared variables. -/
def balance (T : Program P σ κ ε ι) (c : ℤ) (s : σ) (w : Fin P → κ → ℤ) (f : ε → ℤ)
    (k : Kernel (Participant P) σ (TaskCode κ) ε) : ℤ :=
  c * (k.semaphore s).value + ∑ i, load c s (w i) (T.remaining k i) + f k.env

/-- The sum over the participants when one of them goes on. -/
private theorem sum_load_update (c : ℤ) (s : σ) (w : Fin P → κ → ℤ)
    {rem : Fin P → List (Op σ κ)} {i : Fin P} (ops : List (Op σ κ)) :
    ∑ j, load c s (w j) (update rem i ops j) =
      ∑ j, load c s (w j) (rem j) + (load c s (w i) ops - load c s (w i) (rem i)) := by
  have h : ∀ j, load c s (w j) (update rem i ops j) = load c s (w j) (rem j) +
      if j = i then load c s (w i) ops - load c s (w i) (rem i) else 0 := by
    intro j
    by_cases hj : j = i
    · subst hj
      simp
    · simp [hj]
  simp only [h, Finset.sum_add_distrib, Finset.sum_ite_eq', Finset.mem_univ, if_true]

/-- Code changes the balance by what it counts for less than its operations. -/
theorem Executes.balance {i : Fin P} {code : κ} {rest ops : List (Op σ κ)}
    (h : T.Executes k input k' i code rest ops) : T.balance c s w f k' =
      T.balance c s w f k + (load c s (w i) ops + f k'.env - (w i code + f k.env)) := by
  simp only [Program.balance, h.semaphore, h.remaining', sum_load_update, h.remaining, load_append,
    load_filter_isWork, load_cons, Op.weight]
  ring

/-- A move that executes no code: some participant may have completed an operation of the
kernel. -/
structure Settles (T : Program P σ κ ε ι) (k k' : Kernel (Participant P) σ (TaskCode κ) ε) :
    Prop where
  env : k'.env = k.env
  balance : ∀ (c : ℤ) (s : σ) (w : Fin P → κ → ℤ) (f : ε → ℤ),
    T.balance c s w f k' = T.balance c s w f k
  remaining : ∀ i, T.remaining k' i = T.remaining k i ∨ ∃ o : Op σ κ, (∀ code, o ≠ .run code) ∧
    T.remaining k i = o :: T.remaining k' i ∧ ∀ s, o = .p s → (k.semaphore s).value ≠ 0

theorem Settles.mem_run_iff (h : T.Settles k k') {i : Fin P} {code : κ} :
    .run code ∈ T.remaining k' i ↔ .run code ∈ T.remaining k i := by
  obtain he | ⟨o, ho, he, -⟩ := h.remaining i
  · rw [he]
  · simp [he, (ho code).symm]

/-- A participant completes an operation of the kernel on `s'`. -/
private theorem settles_of_update {i : Fin P} {s' : σ} {o : Op σ κ} {rest : List (Op σ κ)}
    {sem : Semaphore (Participant P)} (ho : ∀ code, o ≠ .run code)
    (hrem : T.remaining k i = o :: rest) (hrem' : T.remaining k' = update (T.remaining k) i rest)
    (hsem : k'.semaphore = update k.semaphore s' sem) (henv : k'.env = k.env)
    (hweight : ∀ (c : ℤ) (s : σ) (w : κ → ℤ), o.weight c s w =
      if s' = s then c * (sem.value - (k.semaphore s').value) else 0)
    (hvalue : ∀ s, o = .p s → (k.semaphore s).value ≠ 0) : T.Settles k k' := by
  refine ⟨henv, fun c s w f => ?_, fun j => ?_⟩
  · have hval : (k'.semaphore s).value = (k.semaphore s).value +
        if s' = s then sem.value - (k.semaphore s').value else 0 := by
      by_cases he : s' = s
      · subst he
        simp [hsem]
      · simp [hsem, Ne.symm he, he]
    simp only [Program.balance, hrem', henv, hval, sum_load_update, hrem, load_cons, hweight]
    split_ifs <;> ring
  · by_cases hj : j = i
    · subst hj
      exact .inr ⟨o, ho, by simp [hrem', hrem], hvalue⟩
    · exact .inl (by simp [hrem', hj])

namespace Move

/-- A move executes code or an operation of the kernel. -/
theorem executes_or_settles (h : T.Move k input k') :
    (∃ i code rest ops, T.Executes k input k' i code rest ops) ∨ T.Settles k k' := by
  cases h with
  | exec i code rest ops h => exact .inl ⟨i, code, rest, ops, h⟩
  | wait i s' rest hrem hv hrem' hsem henv =>
    refine .inr ⟨henv, fun c s w f => ?_, fun j => .inl (by rw [hrem'])⟩
    have hval : (k'.semaphore s).value = (k.semaphore s).value := by
      by_cases he : s = s'
      · subst he
        simp [hsem]
      · simp [hsem, he]
    simp only [Program.balance, hrem', henv, hval]
  | take i s' rest hrem hv hrem' hsem henv =>
    refine .inr (settles_of_update (by simp) hrem hrem' hsem henv (fun c s w => ?_) ?_)
    · simp only [Op.weight]
      split_ifs <;> ring
    · rintro s hs
      injection hs with hs
      exact hs ▸ hv
  | wake i s' rest hrem hrem' hsem henv =>
    refine .inr (settles_of_update (by simp) hrem hrem' hsem henv (fun c s w => ?_) (by simp))
    simp only [Op.weight]
    split_ifs <;> ring
  | silent hrem' hsem henv =>
    refine .inr ⟨henv, fun c s w f => ?_, fun j => .inl (by rw [hrem'])⟩
    simp only [Program.balance, hrem', hsem, henv]

/-- A move keeps the balance if the code that it executes does. -/
theorem balance_eq (h : T.Move k input k')
    (hexec : ∀ i code rest ops, T.Executes k input k' i code rest ops →
      load c s (w i) ops + f k'.env = w i code + f k.env) :
    T.balance c s w f k' = T.balance c s w f k := by
  obtain ⟨i, code, rest, ops, hx⟩ | hs := h.executes_or_settles
  · have := hexec i code rest ops hx
    rw [hx.balance]
    omega
  · exact hs.balance c s w f

/-- A move does not decrease the balance if the code that it executes does not. -/
theorem le_balance (h : T.Move k input k')
    (hexec : ∀ i code rest ops, T.Executes k input k' i code rest ops →
      w i code + f k.env ≤ load c s (w i) ops + f k'.env) :
    T.balance c s w f k ≤ T.balance c s w f k' := by
  obtain ⟨i, code, rest, ops, hx⟩ | hs := h.executes_or_settles
  · have := hexec i code rest ops hx
    rw [hx.balance]
    omega
  · exact (hs.balance c s w f).ge

end Move

/-- Two participants hold no more than all. -/
theorem load_add_load_le {rem : Fin P → List (Op σ κ)}
    (hlow : ∀ i, 0 ≤ load c s (w i) (rem i)) {i j : Fin P} (hij : i ≠ j) :
    load c s (w i) (rem i) + load c s (w j) (rem j) ≤ ∑ i, load c s (w i) (rem i) := by
  rw [← Finset.sum_pair (f := fun i => load c s (w i) (rem i)) hij]
  exact Finset.sum_le_sum_of_subset_of_nonneg (Finset.subset_univ _) fun k _ _ => hlow k

/-- If nobody returns anything, then all together owe what one participant owes. -/
theorem sum_load_le {rem : Fin P → List (Op σ κ)} (hup : ∀ i, load c s (w i) (rem i) ≤ 0)
    (i : Fin P) : ∑ i, load c s (w i) (rem i) ≤ load c s (w i) (rem i) := by
  have h := Finset.single_le_sum (f := fun j => -load c s (w j) (rem j))
    (fun j _ => neg_nonneg.2 (hup j)) (Finset.mem_univ i)
  simp only [Finset.sum_neg_distrib] at h
  exact neg_le_neg_iff.1 h

/-- If everybody owes at most a unit and all together owe one unit each, everybody owes one. -/
theorem load_eq_neg_one {rem : Fin P → List (Op σ κ)} (hlow : ∀ i, -1 ≤ load c s (w i) (rem i))
    (hsum : ∑ i, load c s (w i) (rem i) ≤ -P) (i : Fin P) : load c s (w i) (rem i) = -1 := by
  have hnonneg : ∀ j ∈ Finset.univ, 0 ≤ load c s (w j) (rem j) + 1 := fun j _ => by
    have := hlow j
    omega
  have h := Finset.single_le_sum hnonneg (Finset.mem_univ i)
  rw [Finset.sum_add_distrib] at h
  simp only [Finset.sum_const, Finset.card_univ, Fintype.card_fin, nsmul_eq_mul, mul_one] at h
  have := hlow i
  omega

/-- The balance at the start. -/
theorem balance_boot (value : σ → ℕ) (env : ε) :
    T.balance c s w f (boot value env) = c * value s + ∑ i, w i T.start + f env := by
  have hrem : ∀ i, load c s (w i) (T.remaining (boot value env) i) = w i T.start := by
    intro i
    rw [remaining_boot]
    simp [Op.weight]
  simp only [balance, hrem]
  rfl

end Program

end Nachos.Threads
