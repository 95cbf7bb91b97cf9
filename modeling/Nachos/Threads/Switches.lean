import Nachos.Threads.Waiting

/-!
# Who acts on the environment

The environment of the client changes in a step in one of four ways: the current thread executes
client code; it calls `Run`, which saves what the client keeps of it; it returns from `Run`, which
restores it; or an interrupt handler is called.

## Main definitions

* `Client.Loads`: what interrupts do to the environment.
* `Kernel.Turn`: in which of these ways the environment has changed.
* `Kernel.InRun`, `Kernel.Nested`: a thread is in `Run`, from which it returns before anything else.

## Main results

* `Kernel.out_of_step`, `Kernel.back_of_step`: what `Run` does.
* `Kernel.turn_of_step`: every step is of one of these kinds.
* `Kernel.afterSwitch_notMem_of_step`: a thread has to return from `Run` only if it has called it.
* `Kernel.Nested.inRun_current`, `Kernel.Nested.inRun_of_ne`: which threads are in `Run` after a
  step.
-/

namespace Nachos.Threads

open Function Foundations

variable {τ σ κ δ ε ι : Type}

/-- What the interrupts that are taken in a step do to the environment. -/
def Client.Loads (c : Client τ σ κ δ ε ι) : ε → ε → Prop :=
  Relation.ReflTransGen fun e e' => e' = c.delayedLoad e

theorem Client.Loads.apply_eq {c : Client τ σ κ δ ε ι} {α : Type*} {f : ε → α} {e e' : ε}
    (h : c.Loads e e') (hload : ∀ e, f (c.delayedLoad e) = f e) : f e' = f e := by
  induction h with
  | refl => rfl
  | tail _ hstep ih => rw [hstep, hload, ih]

namespace Kernel

variable {k k' : Kernel τ σ κ ε} {c : Client τ σ κ δ ε ι} {i : Input δ ι}

/-- What a step does to the environment, and which thread runs then, if the current thread has
executed `f` and has to execute `fs` in place of it. -/
inductive Turn (c : Client τ σ κ δ ε ι) (k : Kernel τ σ κ ε) (i : Input δ ι) (k' : Kernel τ σ κ ε)
    (f : Frame τ σ κ) (fs : List (Frame τ σ κ)) : Prop
  /-- Client code is executed. -/
  | exec (code : κ) (calls : List (Call τ σ κ)) (hf : f = .call (.code code))
    (hfs : fs = calls.map .call)
    (hexec : c.exec k.currentThread code i.code k.env = .ok (k'.env, calls))
    (hcur : k'.currentThread = k.currentThread)
  /-- The current thread is switched out. -/
  | out (next : τ) (hf : f = .run next) (hfs : fs = [.afterSwitch])
    (henv : k'.env = c.saveState k.currentThread k.env) (hcur : k'.currentThread = next)
  /-- The current thread has been switched in. -/
  | back (hf : f = .afterSwitch) (hfs : fs = [])
    (henv : k'.env = c.restoreState k.currentThread k.env)
    (hcur : k'.currentThread = k.currentThread)
  /-- Neither. -/
  | stays (hf : f ≠ .afterSwitch) (hcode : ∀ code, .call (.code code) ∉ fs)
    (henv : c.Loads k.env k'.env) (hcur : k'.currentThread = k.currentThread)

variable [DecidableEq τ] [DecidableEq σ]

private theorem loads_of_runHandlers (c : Client τ σ κ δ ε ι) (is : List (Interrupt δ))
    (k : Kernel τ σ κ ε) : c.Loads k.env (runHandlers c is k).env := by
  induction is generalizing k with
  | nil => exact .refl
  | cons i is ih =>
    cases i with
    | timer => exact .head rfl (ih { k with env := c.delayedLoad k.env })
    | device d =>
      refine .head rfl ?_
      have h := ih
        (wake (c.handler d) (countUp (c.handler d) { k with env := c.delayedLoad k.env }))
      rwa [wake_env] at h

private theorem loads_of_pLoop {s : σ} (hw : k.pLoop s = .ok k') :
    c.Loads k.env k'.env ∧ k'.currentThread = k.currentThread := by
  obtain ⟨henv, hcur, -, -⟩ := pLoop_cases hw
  rw [henv]
  exact ⟨.refl, hcur⟩

private theorem loads_of_call {call : Call τ σ κ} (hcode : ∀ code, call ≠ .code code)
    (hw : k.performCall c i call = .ok k') :
    c.Loads k.env k'.env ∧ k'.currentThread = k.currentThread := by
  cases call with
  | p s =>
    have hw' : ({ k with level := .off }.push [.setLevel k.level]).pLoop s = .ok k' := hw
    have hloads := loads_of_pLoop (c := c) hw'
    exact hloads
  | v s =>
    obtain rfl := Except.ok.inj hw
    unfold v
    rw [wake_env, wake_currentThread]
    exact ⟨.refl, rfl⟩
  | fork t func =>
    simp only [performCall, fork] at hw
    split_ifs at hw
    obtain rfl := Except.ok.inj hw
    exact ⟨.refl, rfl⟩
  | yield =>
    obtain rfl := Except.ok.inj hw
    unfold yield
    split <;> exact ⟨.refl, rfl⟩
  | sleep =>
    unfold performCall sleepDirectly at hw
    obtain ⟨-, rfl⟩ := sleep_eq_ok hw
    exact ⟨.refl, rfl⟩
  | finish =>
    unfold performCall finish at hw
    obtain ⟨-, rfl⟩ := sleep_eq_ok hw
    exact ⟨.refl, rfl⟩
  | oneTick =>
    obtain rfl := Except.ok.inj hw
    have henv := loads_of_runHandlers c i.interrupts { k with level := .off }
    have hcur := runHandlers_currentThread c i.interrupts { k with level := .off }
    unfold oneTick
    dsimp only
    split_ifs <;> exact ⟨henv, hcur⟩
  | code code => exact absurd rfl (hcode code)

private theorem loads_of_sleepLoop {is : List (Interrupt δ)} (hw : k.sleepLoop c is = .ok k') :
    c.Loads k.env k'.env ∧ k'.currentThread = k.currentThread := by
  unfold sleepLoop idle at hw
  split at hw
  · split_ifs at hw
    · cases hw
    · obtain rfl := Except.ok.inj hw
      exact ⟨loads_of_runHandlers c is k, runHandlers_currentThread c is k⟩
  · obtain rfl := Except.ok.inj hw
    exact ⟨.refl, rfl⟩

/-- The current thread is switched out. -/
theorem out_of_step {next : τ} {rest : List (Frame τ σ κ)}
    (hst : k.stack k.currentThread = .run next :: rest) (hw : k.step c i = .ok k') :
    k'.stack k.currentThread = .afterSwitch :: rest ∧
      k'.env = c.saveState k.currentThread k.env ∧ k'.currentThread = next := by
  unfold Kernel.step at hw
  simp only [hst] at hw
  obtain rfl := Except.ok.inj hw
  exact ⟨by simp, rfl, rfl⟩

/-- The current thread has been switched in. -/
theorem back_of_step {rest : List (Frame τ σ κ)}
    (hst : k.stack k.currentThread = .afterSwitch :: rest) (hw : k.step c i = .ok k') :
    k'.stack k.currentThread = rest ∧ k'.env = c.restoreState k.currentThread k.env ∧
      k'.currentThread = k.currentThread := by
  unfold Kernel.step at hw
  simp only [hst, perform, afterSwitch] at hw
  split at hw
  · obtain rfl := Except.ok.inj hw
    exact ⟨by simp, rfl, rfl⟩
  · split_ifs at hw
    obtain rfl := Except.ok.inj hw
    exact ⟨by simp, rfl, rfl⟩

private theorem afterSwitch_notMem_of_call {call : Call τ σ κ}
    (hmem : .afterSwitch ∉ k.stack k.currentThread) (hw : k.performCall c i call = .ok k') :
    .afterSwitch ∉ k'.stack k.currentThread := by
  cases call with
  | p s =>
    have hw' : ({ k with level := .off }.push [.setLevel k.level]).pLoop s = .ok k' := hw
    obtain ⟨-, -, -, ⟨-, hst, -⟩ | ⟨-, hst, -⟩⟩ := pLoop_cases hw' <;> simp [hst, hmem]
  | v s =>
    obtain rfl := Except.ok.inj hw
    simp [v, hmem]
  | fork t func =>
    simp only [performCall, fork] at hw
    split_ifs at hw
    obtain rfl := Except.ok.inj hw
    by_cases ht : k.currentThread = t
    · simp [ht]
    · simp [ht, hmem]
  | yield =>
    obtain rfl := Except.ok.inj hw
    unfold yield
    split <;> simp [hmem]
  | sleep =>
    unfold performCall sleepDirectly at hw
    obtain ⟨-, rfl⟩ := sleep_eq_ok hw
    simp [hmem]
  | finish =>
    unfold performCall finish at hw
    obtain ⟨-, rfl⟩ := sleep_eq_ok hw
    simp [hmem]
  | oneTick =>
    obtain rfl := Except.ok.inj hw
    unfold oneTick
    dsimp only
    split_ifs <;> simp [hmem]
  | code code =>
    obtain ⟨r, -, rfl⟩ := map_eq_ok.1 hw
    simp [hmem]

/-- A thread that is not switched out has not to return from `Run` after a step. -/
theorem afterSwitch_notMem_of_step {f : Frame τ σ κ} {rest : List (Frame τ σ κ)}
    (hst : k.stack k.currentThread = f :: rest) (hf : ∀ next, f ≠ .run next)
    (hmem : .afterSwitch ∉ rest) (hw : k.step c i = .ok k') :
    .afterSwitch ∉ k'.stack k.currentThread := by
  have hw' := hw
  unfold Kernel.step at hw
  simp only [hst] at hw
  cases f with
  | call call =>
    exact afterSwitch_notMem_of_call (k := k.setStack rest) (by simpa using hmem) hw
  | setLevel now =>
    obtain rfl := Except.ok.inj hw
    unfold Kernel.setLevel
    split_ifs <;> simp [hmem]
  | retest s =>
    have hw₁ : (k.setStack rest).pLoop s = .ok k' := hw
    obtain ⟨-, -, -, ⟨-, hst', -⟩ | ⟨-, hst', -⟩⟩ := pLoop_cases hw₁ <;> simp [hst', hmem]
  | sleepLoop =>
    have hw₁ : (k.setStack rest).sleepLoop c i.interrupts = .ok k' := hw
    unfold sleepLoop idle at hw₁
    split at hw₁
    · split_ifs at hw₁
      · cases hw₁
      · obtain rfl := Except.ok.inj hw₁
        simp [hmem]
    · obtain rfl := Except.ok.inj hw₁
      simp [hmem]
  | run next => exact absurd rfl (hf next)
  | afterSwitch =>
    rw [(back_of_step hst hw').1]
    exact hmem

/-- Every step is of one of these kinds. -/
theorem turn_of_step {f : Frame τ σ κ} {fs : List (Frame τ σ κ)} (h : k.Advances k' f fs)
    (hw : k.step c i = .ok k') : k.Turn c i k' f fs := by
  obtain ⟨rest, hst, hst'⟩ := h.current
  have hw' := hw
  unfold Kernel.step at hw'
  simp only [hst] at hw'
  -- a frame that executes no code of the client and does not switch threads
  have hstays (hf : f ≠ .afterSwitch) (hcode : ∀ code, f ≠ .call (.code code))
      (hloads : c.Loads k.env k'.env ∧ k'.currentThread = k.currentThread) : k.Turn c i k' f fs :=
    .stays hf (fun code hmem => (h.code code hmem).elim hcode) hloads.1 hloads.2
  cases f with
  | call call =>
    by_cases hcode : ∃ code, call = .code code
    · obtain ⟨code, rfl⟩ := hcode
      obtain ⟨calls, hexec, hk'⟩ := exec_of_step hst hw
      have hstack : k'.stack k.currentThread = calls.map .call ++ rest := by
        rw [← hk']
        exact update_self ..
      exact .exec code calls rfl (List.append_cancel_right (hst'.symm.trans hstack)) hexec
        (by rw [← hk'])
    · have hcode' : ∀ code, call ≠ .code code := fun code he => hcode ⟨code, he⟩
      have hloads := loads_of_call (k := k.setStack rest) hcode' hw'
      exact hstays (by simp) (by simpa using hcode') hloads
  | setLevel now =>
    obtain rfl := Except.ok.inj hw'
    refine hstays (by simp) (by simp) ?_
    unfold Kernel.setLevel
    split_ifs <;> exact ⟨.refl, rfl⟩
  | retest s =>
    have hloads := loads_of_pLoop (k := k.setStack rest) (c := c) hw'
    exact hstays (by simp) (by simp) hloads
  | sleepLoop =>
    have hloads := loads_of_sleepLoop (k := k.setStack rest) hw'
    exact hstays (by simp) (by simp) hloads
  | run next =>
    obtain ⟨hstack, henv, hcur⟩ := out_of_step hst hw
    exact .out next rfl (List.append_cancel_right (hst'.symm.trans hstack)) henv hcur
  | afterSwitch =>
    obtain ⟨hstack, henv, hcur⟩ := back_of_step hst hw
    exact .back rfl (List.append_cancel_right (hst'.symm.trans hstack)) henv hcur

/-! ### Threads that are in `Run` -/

/-- The thread has called `Run`, which has not returned. -/
def InRun (k : Kernel τ σ κ ε) (t : τ) : Prop := .afterSwitch ∈ k.stack t

instance [DecidableEq κ] (k : Kernel τ σ κ ε) (t : τ) : Decidable (k.InRun t) :=
  inferInstanceAs (Decidable (_ ∈ _))

/-- A thread that is in `Run` returns from it before it does anything else, and one that has not
been forked has nothing to execute. -/
structure Nested (main : τ) (k : Kernel τ σ κ ε) : Prop where
  top : ∀ t, k.InRun t → ∃ fs, k.stack t = .afterSwitch :: fs ∧ .afterSwitch ∉ fs
  fresh : ∀ t ≠ main, t ∉ k.history.forked → k.stack t = []

omit [DecidableEq σ] in
theorem not_inRun_boot (main : τ) (start : κ) (value : σ → ℕ) (env : ε) (t : τ) :
    ¬(boot main start value env).InRun t := by
  by_cases ht : t = main <;> simp [InRun, boot, ht]

namespace Nested

variable {main t : τ} {f : Frame τ σ κ} {fs rest : List (Frame τ σ κ)}

omit [DecidableEq σ] in
theorem boot (main : τ) (start : κ) (value : σ → ℕ) (env : ε) :
    (boot main start value env).Nested main where
  top t ht := absurd ht (not_inRun_boot main start value env t)
  fresh t ht _ := by simp [Threads.boot, ht]

omit [DecidableEq τ] [DecidableEq σ] in
theorem notMem_rest (h : k.Nested main) (hst : k.stack t = f :: rest) : .afterSwitch ∉ rest := by
  intro hmem
  have hrun : k.InRun t := by
    rw [InRun, hst]
    exact List.mem_cons_of_mem f hmem
  obtain ⟨fs, hst', hnot⟩ := h.top t hrun
  obtain ⟨-, rfl⟩ := List.cons.inj (hst.symm.trans hst')
  exact hnot hmem

omit [DecidableEq τ] [DecidableEq σ] in
/-- A thread that executes something else is not in `Run`. -/
theorem not_inRun (h : k.Nested main) (hst : k.stack t = f :: rest) (hf : f ≠ .afterSwitch) :
    ¬k.InRun t := by
  intro hrun
  obtain ⟨fs, hst', -⟩ := h.top t hrun
  exact hf (List.cons.inj (hst.symm.trans hst')).1

/-- The current thread is in `Run` if it has called it in this step. -/
theorem inRun_current (h : k.Nested main) (hadv : k.Advances k' f fs) (hw : k.step c i = .ok k') :
    k'.InRun k.currentThread ↔ ∃ next, f = .run next := by
  obtain ⟨rest, hst, -⟩ := hadv.current
  constructor
  · intro hrun
    by_contra! hf
    exact afterSwitch_notMem_of_step hst hf (h.notMem_rest hst) hw hrun
  · rintro ⟨next, rfl⟩
    rw [InRun, (out_of_step hst hw).1]
    exact List.mem_cons_self

/-- A thread that begins has not called `Run`. -/
theorem inRun_of_ne (h : k.Nested main) (hs : k.Sound main) (hadv : k.Advances k' f fs)
    (hw : k.step c i = .ok k') (ht : t ≠ k.currentThread) : k'.InRun t ↔ k.InRun t := by
  obtain hst | ⟨func, rfl, hst⟩ := hadv.other t ht
  · rw [InRun, InRun, hst]
  · obtain ⟨rest, hcur, -⟩ := hadv.current
    have hset := hs.settled_of_calling hcur (.inl ⟨_, rfl⟩)
    have hnew : ¬(t = main ∨ t ∈ k.history.forked) := fun hf =>
      (hset.forked_iff t).1 hf (justCreated_of_fork hcur hw)
    have hnil := h.fresh t (not_or.1 hnew).1 (not_or.1 hnew).2
    simp [InRun, hst, hnil]

theorem step [IsEmpty δ] (h : k.Nested main) (hs : k.Sound main) (hw : k.step c i = .ok k') :
    k'.Nested main := by
  obtain ⟨f, fs, hadv⟩ := hs.advances_of_step hw
  obtain ⟨rest, hst, hst'⟩ := hadv.current
  refine ⟨fun t ht => ?_, fun t ht hf => ?_⟩
  · by_cases hcur : t = k.currentThread
    · subst hcur
      obtain ⟨next, rfl⟩ := (h.inRun_current hadv hw).1 ht
      exact ⟨rest, (out_of_step hst hw).1, h.notMem_rest hst⟩
    · have hrun := (h.inRun_of_ne hs hadv hw hcur).1 ht
      obtain hsame | ⟨func, -, hnew⟩ := hadv.other t hcur
      · exact hsame ▸ h.top t hrun
      · simp [InRun, hnew] at ht
  · have hnil := h.fresh t ht fun hmem => hf (forked_subset_of_step hw hmem)
    have hcur : t ≠ k.currentThread := by
      rintro rfl
      cases hst.symm.trans hnil
    obtain hsame | ⟨func, rfl, -⟩ := hadv.other t hcur
    · exact hsame.trans hnil
    · exact absurd (by simp [forked_of_fork hst hw]) hf

end Nested

end Kernel

end Nachos.Threads
