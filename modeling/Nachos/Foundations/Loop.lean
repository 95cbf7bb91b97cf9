import Mathlib.Data.List.Induction
import Mathlib.Data.Nat.Notation
import Mathlib.Tactic.Common

/-!
# Loops whose test and body can fault

`whileLoop timeout cond body fuel s` runs `while (cond) body` from the variables `s`. Test and
body are fallible, as C code with assertions and pointers is; a loop that is still running when
the fuel is used up reports `timeout`. `forLoop body n s` runs `for (i = 0; i < n; i++) body`,
for a body that does not change the bound.

## Main results

* `whileLoop_spec`: total correctness. Under an invariant that rules out faults and with a
  measure that decreases, a loop ends without a fault within its fuel.
* `forLoop_spec`: a counting loop with an invariant indexed by the counter.
* `forLoop_eq_error`: a counting loop that faults also faults when it is to go on for longer.
* `foldlM_spec`, `foldlM_invariant`: the same for a loop over a list.
-/

namespace Foundations

variable {σ φ : Type*}

/-- `while (cond) body`, from the variables `s`. -/
def whileLoop (timeout : φ) (cond : σ → Except φ Bool) (body : σ → Except φ σ) :
    ℕ → σ → Except φ σ
  | 0, _ => .error timeout
  | fuel + 1, s =>
    match cond s with
    | .error e => .error e
    | .ok false => .ok s
    | .ok true =>
      match body s with
      | .error e => .error e
      | .ok s' => whileLoop timeout cond body fuel s'

variable {timeout : φ} {cond : σ → Except φ Bool} {body : σ → Except φ σ}

theorem whileLoop_of_false {s : σ} (fuel : ℕ) (h : cond s = .ok false) :
    whileLoop timeout cond body (fuel + 1) s = .ok s := by
  simp [whileLoop, h]

theorem whileLoop_of_true {s s' : σ} (fuel : ℕ) (h : cond s = .ok true) (hb : body s = .ok s') :
    whileLoop timeout cond body (fuel + 1) s = whileLoop timeout cond body fuel s' := by
  simp [whileLoop, h, hb]

/-- **Total correctness of a loop.** If the invariant `I` keeps the test and the body free of
faults, the body keeps `I` and lowers `μ`, and there is more fuel than `μ`, then the loop ends
in variables that satisfy `I` and fail the test. -/
theorem whileLoop_spec (I : σ → Prop) (μ : σ → ℕ) (hcond : ∀ s, I s → ∃ b, cond s = .ok b)
    (hbody : ∀ s, I s → cond s = .ok true → ∃ s', body s = .ok s' ∧ I s' ∧ μ s' < μ s)
    {fuel : ℕ} {s : σ} (hs : I s) (hfuel : μ s < fuel) :
    ∃ s', whileLoop timeout cond body fuel s = .ok s' ∧ I s' ∧ cond s' = .ok false := by
  induction fuel generalizing s with
  | zero => exact absurd hfuel (Nat.not_lt_zero _)
  | succ fuel ih =>
    obtain ⟨b, hb⟩ := hcond s hs
    cases b with
    | false => exact ⟨s, whileLoop_of_false fuel hb, hs, hb⟩
    | true =>
      obtain ⟨s₁, hs₁, hI, hμ⟩ := hbody s hs hb
      obtain ⟨s', hs', hI', hc'⟩ := ih hI (by omega)
      exact ⟨s', by rw [whileLoop_of_true fuel hb hs₁, hs'], hI', hc'⟩

/-! ### Counting loops -/

/-- `for (i = 0; i < n; i++) body`, from the variables `s`. -/
def forLoop (body : σ → ℕ → Except φ σ) (n : ℕ) (s : σ) : Except φ σ :=
  (List.range n).foldlM body s

variable {f : σ → ℕ → Except φ σ}

@[simp]
theorem forLoop_zero (s : σ) : forLoop f 0 s = .ok s := rfl

theorem forLoop_succ (n : ℕ) (s : σ) :
    forLoop f (n + 1) s = (forLoop f n s).bind fun s' => f s' n := by
  unfold forLoop
  rw [List.range_succ, List.foldlM_append]
  cases List.foldlM f s (List.range n) with
  | error e => rfl
  | ok s' =>
    cases h : f s' n <;> simp [bind, Except.bind, pure, Except.pure, h]

/-- **Total correctness of a counting loop.** The invariant is indexed by the counter. -/
theorem forLoop_spec (I : ℕ → σ → Prop) {n : ℕ} {s : σ} (h₀ : I 0 s)
    (hbody : ∀ i s, i < n → I i s → ∃ s', f s i = .ok s' ∧ I (i + 1) s') :
    ∃ s', forLoop f n s = .ok s' ∧ I n s' := by
  induction n with
  | zero => exact ⟨s, rfl, h₀⟩
  | succ n ih =>
    obtain ⟨s₁, hs₁, hI⟩ := ih fun i s hi => hbody i s (by omega)
    obtain ⟨s₂, hs₂, hI'⟩ := hbody n s₁ (by omega) hI
    exact ⟨s₂, by rw [forLoop_succ, hs₁]; exact hs₂, hI'⟩

/-- The iterations of a loop may be replaced one by one. -/
theorem forLoop_congr {g : σ → ℕ → Except φ σ} {n : ℕ} (h : ∀ i < n, ∀ s, f s i = g s i) (s : σ) :
    forLoop f n s = forLoop g n s := by
  induction n with
  | zero => rfl
  | succ n ih =>
    rw [forLoop_succ, forLoop_succ, ih fun i hi => h i (by omega)]
    exact congrArg _ (funext fun s' => h n (by omega) s')

theorem forLoop_eq_error {m n : ℕ} (hmn : m ≤ n) {s : σ} {e : φ} (h : forLoop f m s = .error e) :
    forLoop f n s = .error e := by
  induction hmn with
  | refl => exact h
  | step hmn ih => rw [forLoop_succ, ih, Except.bind]

/-! ### Loops over a list -/

variable {α : Type*} {g : σ → α → Except φ σ}

theorem foldlM_cons_except (a : α) (l : List α) (s : σ) :
    (a :: l).foldlM g s = (g s a).bind fun s' => l.foldlM g s' := rfl

theorem foldlM_append_except (l l' : List α) (s : σ) :
    (l ++ l').foldlM g s = (l.foldlM g s).bind fun s' => l'.foldlM g s' := by
  rw [List.foldlM_append]
  rfl

/-- A loop that succeeds has succeeded at each element. -/
theorem exists_of_foldlM_append_cons {l l' : List α} {a : α} {s s' : σ}
    (h : (l ++ a :: l').foldlM g s = .ok s') :
    ∃ s₁ s₂, l.foldlM g s = .ok s₁ ∧ g s₁ a = .ok s₂ ∧ l'.foldlM g s₂ = .ok s' := by
  rw [foldlM_append_except] at h
  cases h₁ : l.foldlM g s with
  | error e => simp [h₁, Except.bind] at h
  | ok s₁ =>
    rw [h₁] at h
    change (g s₁ a).bind _ = _ at h
    cases h₂ : g s₁ a with
    | error e => simp [h₂, Except.bind] at h
    | ok s₂ =>
      rw [h₂] at h
      exact ⟨s₁, s₂, rfl, h₂, h⟩

theorem foldlM_spec (I : σ → Prop) {l : List α} {s : σ} (h₀ : I s)
    (h : ∀ a ∈ l, ∀ s, I s → ∃ s', g s a = .ok s' ∧ I s') :
    ∃ s', l.foldlM g s = .ok s' ∧ I s' := by
  induction l generalizing s with
  | nil => exact ⟨s, rfl, h₀⟩
  | cons a l ih =>
    obtain ⟨s₁, hs₁, hI⟩ := h a (by simp) s h₀
    obtain ⟨s', hs', hI'⟩ := ih hI fun b hb => h b (by simp [hb])
    exact ⟨s', by rw [foldlM_cons_except, hs₁]; exact hs', hI'⟩

theorem foldlM_invariant (I : σ → Prop) {l : List α} {s s' : σ} (hl : l.foldlM g s = .ok s')
    (h₀ : I s) (h : ∀ a ∈ l, ∀ s s', I s → g s a = .ok s' → I s') : I s' := by
  induction l generalizing s with
  | nil =>
    obtain rfl : s = s' := Except.ok.inj hl
    exact h₀
  | cons a l ih =>
    rw [foldlM_cons_except] at hl
    cases hs : g s a with
    | error e => simp [hs, Except.bind] at hl
    | ok s₁ =>
      rw [hs] at hl
      exact ih hl (h a (by simp) s s₁ h₀ hs) fun b hb => h b (by simp [hb])

/-- What holds of the elements at which the body succeeds holds of all elements of a loop that
succeeds. -/
theorem foldlM_forall (P : α → Prop) {l : List α} {s s' : σ} (hl : l.foldlM g s = .ok s')
    (h : ∀ a s s', g s a = .ok s' → P a) : ∀ a ∈ l, P a := by
  induction l generalizing s with
  | nil => simp
  | cons a l ih =>
    rw [foldlM_cons_except] at hl
    cases hs : g s a with
    | error e => simp [hs, Except.bind] at hl
    | ok s₁ =>
      rw [hs] at hl
      exact List.forall_mem_cons.2 ⟨h a s s₁ hs, ih hl⟩

/-- A relation of the state to the elements that have been visited. -/
theorem foldlM_prefix_invariant (I : List α → σ → Prop) {l : List α} {s s' : σ}
    (hl : l.foldlM g s = .ok s') (h₀ : I [] s)
    (h : ∀ l₁ a l₂ s s', l = l₁ ++ a :: l₂ → I l₁ s → g s a = .ok s' → I (l₁ ++ [a]) s') :
    I l s' := by
  induction l using List.reverseRecOn generalizing s' with
  | nil =>
    obtain rfl : s = s' := Except.ok.inj hl
    exact h₀
  | append_singleton l a ih =>
    obtain ⟨s₁, s₂, h₁, h₂, h₃⟩ := exists_of_foldlM_append_cons hl
    obtain rfl : s₂ = s' := Except.ok.inj h₃
    refine h l a [] s₁ s₂ rfl (ih h₁ fun l₁ b l₂ s s' he => ?_) h₂
    exact h l₁ b (l₂ ++ [a]) s s' (by simp [he])

theorem foldlM_prefix_spec (I : List α → σ → Prop) {l : List α} {s : σ} (h₀ : I [] s)
    (h : ∀ l₁ a l₂ s, l = l₁ ++ a :: l₂ → I l₁ s → ∃ s', g s a = .ok s' ∧ I (l₁ ++ [a]) s') :
    ∃ s', l.foldlM g s = .ok s' ∧ I l s' := by
  induction l using List.reverseRecOn with
  | nil => exact ⟨s, rfl, h₀⟩
  | append_singleton l a ih =>
    obtain ⟨s₁, h₁, hI⟩ := ih fun l₁ b l₂ s he => h l₁ b (l₂ ++ [a]) s (by simp [he])
    obtain ⟨s₂, h₂, hI'⟩ := h l a [] s₁ rfl hI
    refine ⟨s₂, ?_, hI'⟩
    rw [foldlM_append_except, h₁]
    change (g s₁ a).bind _ = _
    rw [h₂]
    rfl

end Foundations
