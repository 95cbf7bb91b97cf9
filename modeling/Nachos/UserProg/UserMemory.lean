import Nachos.UserProg.Processes

/-!
# User memory as the kernel reads it

System calls read strings from user memory one byte after the other, with `ReadMem`. Each byte is
there or raises an exception, and reading it does not change what the other bytes are.

## Main definitions

* `Machine.userByte`: the byte at a user address, or the exception that reading it raises.
* `Machine.HasChars`: the characters of a string, before its end.

## Main results

* `readByte_of_ok`, `readByte_of_error`: one call of `ReadMem` within the kernel.
* `Machine.exists_hasChars`: a string ends, cannot be read further, or fills a buffer.
-/

namespace Nachos

open Foundations UserProg

namespace Machine

/-- The byte at a user address, or the exception that reading it raises. -/
def userByte (m : Machine) (addr : Word) : Except ExceptionType (BitVec 8) :=
  (translate m.pageTable addr .one false).map fun v => m.mainMemory v.1

/-- The characters from `addr` on can be read, and none of them is zero. -/
structure HasChars (m : Machine) (addr : Word) (chars : List (BitVec 8)) : Prop where
  userByte (j : ℕ) (h : j < chars.length) :
    m.userByte (addr + BitVec.ofNat 32 j) = .ok (chars.get ⟨j, h⟩)
  nonzero : 0 ∉ chars

/-- The byte behind the characters. -/
def byteAfter (m : Machine) (addr : Word) (chars : List (BitVec 8)) :
    Except ExceptionType (BitVec 8) :=
  m.userByte (addr + BitVec.ofNat 32 chars.length)

variable {m m' : Machine} {addr : Word} {chars : List (BitVec 8)} {b : BitVec 8}

theorem userByte_congr (hpt : TableBelow m.pageTable m'.pageTable)
    (hmem : m'.mainMemory = m.mainMemory) : m'.userByte = m.userByte := by
  funext addr
  rw [userByte, userByte, hmem]
  rcases translate_congr hpt addr .one false with ⟨which, h, h'⟩ | ⟨a, _, _, h, h', -⟩
  · rw [h, h']
  · rw [h, h', map_ok, map_ok]

theorem byteAfter_congr (h : m'.userByte = m.userByte) (addr : Word) (chars : List (BitVec 8)) :
    m'.byteAfter addr chars = m.byteAfter addr chars := congrFun h _

theorem HasChars.nil (m : Machine) (addr : Word) : m.HasChars addr [] := by
  constructor <;> simp

/-- One more character. -/
theorem hasChars_append_singleton : m.HasChars addr (chars ++ [b]) ↔
    m.HasChars addr chars ∧ m.byteAfter addr chars = .ok b ∧ b ≠ 0 := by
  constructor
  · intro h
    refine ⟨⟨fun j hj => ?_, fun h₀ => h.nonzero (List.mem_append_left _ h₀)⟩, ?_, fun h₀ => ?_⟩
    · simpa [hj] using h.userByte j (by simp; omega)
    · simpa [byteAfter] using h.userByte chars.length (by simp)
    · exact h.nonzero (by simp [h₀])
  · rintro ⟨h, hb, hne⟩
    refine ⟨fun j hj => ?_, by simpa using ⟨h.nonzero, Ne.symm hne⟩⟩
    rw [List.length_append, List.length_singleton] at hj
    rcases Nat.lt_succ_iff_lt_or_eq.1 hj with hj | rfl
    · simpa [hj] using h.userByte j hj
    · simpa [byteAfter] using hb

/-- A string has `n` characters, or it ends before, or it cannot be read further before. -/
theorem exists_hasChars (m : Machine) (addr : Word) (n : ℕ) :
    (∃ chars, m.HasChars addr chars ∧ chars.length = n) ∨
      ∃ chars, m.HasChars addr chars ∧ chars.length < n ∧
        (m.byteAfter addr chars = .ok 0 ∨ ∃ which, m.byteAfter addr chars = .error which) := by
  induction n with
  | zero => exact .inl ⟨[], .nil m addr, rfl⟩
  | succ n ih =>
    obtain ⟨chars, h, hn⟩ | ⟨chars, h, hn, hend⟩ := ih
    · cases hb : m.byteAfter addr chars with
      | error which => exact .inr ⟨chars, h, by omega, .inr ⟨which, hb⟩⟩
      | ok b =>
        by_cases hb₀ : b = 0
        · subst hb₀
          exact .inr ⟨chars, h, by omega, .inl hb⟩
        · exact .inl ⟨chars ++ [b], hasChars_append_singleton.2 ⟨h, hb, hb₀⟩, by simp [hn]⟩
    · exact .inr ⟨chars, h, by omega, hend⟩

end Machine

namespace UserProg

open Machine

variable {isMain : Bool} {m : Machine} {addr : Word} {b : BitVec 8} {which : ExceptionType}

@[simp]
theorem truncate_signExtend (b : BitVec 8) : (b.signExtend 32).truncate 8 = b := by
  ext i hi
  simp [BitVec.getElem_signExtend, hi, hi.trans (by decide : 8 < 32)]

theorem signExtend_eq_zero_iff : b.signExtend 32 = 0 ↔ b = 0 := by
  constructor
  · intro h
    rw [← truncate_signExtend b, h]
    rfl
  · rintro rfl
    rfl

theorem outcome_readMem_of_ok (h : m.userByte addr = .ok b) : ∃ pt,
    (readMem addr .one).outcome m = (.ok (b.signExtend 32), { m with pageTable := pt }) := by
  obtain ⟨⟨a, pt⟩, ht, rfl⟩ := map_eq_ok.1 h
  refine ⟨pt, ?_⟩
  rw [readMem, Computation.outcome_bind_of_ok _ (outcome_access_of_ok ht)]
  rfl

theorem outcome_readMem_of_error (h : m.userByte addr = .error which) :
    (readMem addr .one).outcome m = (.error (.exception which addr), m) := by
  rw [readMem, Computation.outcome_bind_of_error _ (outcome_access_of_error (map_eq_error.1 h))]

/-- `ReadMem` of a byte that can be read. -/
theorem readByte_of_ok (isMain : Bool) (h : m.userByte addr = .ok b) :
    ∃ m', readByte isMain addr m = .ok (some (b.signExtend 32), m') ∧
      m'.userByte = m.userByte := by
  obtain ⟨pt, hread⟩ := outcome_readMem_of_ok h
  have hobs : Observes Below (readMem addr .one) := inferInstance
  have hbelow := hobs.above hread
  exact ⟨_, by rw [readByte, hread], userByte_congr hbelow.pageTable hbelow.mainMemory⟩

/-- The exceptions of `Translate`. -/
theorem ne_syscallException_of_translate {pt : List TranslationEntry} {size : AccessSize}
    {writing : Bool} (h : Machine.translate pt addr size writing = .error which) :
    which ≠ .syscallException := by
  rintro rfl
  unfold Machine.translate at h
  split_ifs at h
  · dsimp only at h
    split at h
    · cases h
    · rename_i e _
      unfold TranslationEntry.check at h
      split_ifs at h <;> cases h
  · cases h

/-- An exception within the kernel ends the simulation or changes registers only. -/
theorem raiseException_cases (isMain : Bool) (m : Machine) (addr : Word)
    (hw : which ≠ .syscallException) :
    Aborts isMain which ∧ raiseException (exceptionHandler isMain fun _ => .error .disabled)
        which addr m = .error .assertion ∨
      ¬Aborts isMain which ∧ raiseException (exceptionHandler isMain fun _ => .error .disabled)
        which addr m = .ok (m.trap addr) := by
  by_cases ha : Aborts isMain which
  · exact .inl ⟨ha, by rw [raiseException, exceptionHandler_of_aborts ha]⟩
  · exact .inr ⟨ha, by rw [raiseException, exceptionHandler_of_not_aborts ha hw]⟩

/-- `ReadMem` of a byte that cannot be read ends the simulation or returns `FALSE`. -/
theorem readByte_of_error (isMain : Bool) (h : m.userByte addr = .error which) :
    Aborts isMain which ∧ readByte isMain addr m = .error .assertion ∨
      ¬Aborts isMain which ∧
        ∃ m', readByte isMain addr m = .ok (none, m') ∧ m'.userByte = m.userByte := by
  have hw := ne_syscallException_of_translate (map_eq_error.1 h)
  rw [readByte, outcome_readMem_of_error h]
  refine (raiseException_cases isMain m addr hw).imp (fun ⟨ha, hr⟩ => ⟨ha, ?_⟩)
    fun ⟨ha, hr⟩ => ⟨ha, m.trap addr, ?_, userByte_congr (.refl _) rfl⟩
  · simp only [hr, map_error]
  · simp only [hr, map_ok]

end UserProg

end Nachos
