import Nachos.UserProg.UserMemory

/-!
# The file name of Exec

`SC_Exec` copies a string from user memory into an array of `NumBuff` characters. Its test
`i <= NumBuff` lets the index reach `NumBuff`, and the zero at the end is stored without a test, so
that a string with `NumBuff` or more characters is copied beyond the array.

## Main definitions

* `CopiesName`: the copy stays inside the array and is the string of the user.

## Main results

* `fileName_copiesName_iff`: the strings that are copied as they should be.
-/

namespace Nachos.UserProg

open Foundations Machine

/-- The copy of a file name stays inside the array, and the file is opened only under the name that
is in user memory. -/
structure CopiesName (isMain : Bool) (m : Machine) (addr : Word) : Prop where
  inside : fileName isMain addr m ≠ .error .undefined
  exact {filename : List (BitVec 8)} {m' : Machine} :
    fileName isMain addr m = .ok (some filename, m') →
      m.HasChars addr filename ∧ m.byteAfter addr filename = .ok 0

/-- The copy from the next character on, when `chars` have been copied. -/
def fileNameFrom (isMain : Bool) (addr : Word) (room : ℕ) (chars : List (BitVec 8)) (m : Machine) :
    Except Fault (Option (List (BitVec 8)) × Machine) := do
  let (value, m) ← readByte isMain (addr + BitVec.ofNat 32 chars.length) m
  match value with
  | none => return (none, m)
  | some value => readName isMain room (addr + BitVec.ofNat 32 chars.length) value chars m

variable (isMain : Bool) {m m' : Machine} {addr : Word} {chars : List (BitVec 8)} {b : BitVec 8}
  {which : ExceptionType}

theorem fileName_eq (addr : Word) (m : Machine) :
    fileName isMain addr m = fileNameFrom isMain addr (numBuff + 1) [] m := by
  have haddr : addr + BitVec.ofNat 32 0 = addr := by simp
  rw [fileNameFrom, List.length_nil, haddr]
  rfl

theorem fileNameFrom_of_ok (room : ℕ) (h : m.byteAfter addr chars = .ok b) : ∃ m',
    fileNameFrom isMain addr room chars m = readName isMain room
      (addr + BitVec.ofNat 32 chars.length) (b.signExtend 32) chars m' ∧
      m'.userByte = m.userByte := by
  obtain ⟨m', hread, hm'⟩ := readByte_of_ok isMain h
  exact ⟨m', by rw [fileNameFrom, hread]; rfl, hm'⟩

/-- One character is copied. -/
theorem fileNameFrom_succ (room : ℕ) (h : m.byteAfter addr chars = .ok b) (hb : b ≠ 0)
    (hlen : chars.length < numBuff) : ∃ m',
    fileNameFrom isMain addr (room + 1) chars m =
      fileNameFrom isMain addr room (chars ++ [b]) m' ∧ m'.userByte = m.userByte := by
  obtain ⟨m', heq, hm'⟩ := fileNameFrom_of_ok isMain (room + 1) h
  refine ⟨m', ?_, hm'⟩
  have hnext : addr + BitVec.ofNat 32 (chars ++ [b]).length =
      addr + BitVec.ofNat 32 chars.length + 1 := by
    rw [List.length_append, List.length_singleton, BitVec.ofNat_add, BitVec.add_assoc]
    rfl
  rw [heq, readName, if_neg (mt signExtend_eq_zero_iff.1 hb), truncate_signExtend]
  simp only [hlen, if_true]
  rw [fileNameFrom, hnext]
  rfl

/-- All characters are copied as long as the array has room. -/
theorem exists_fileName_eq (h : m.HasChars addr chars) (hlen : chars.length ≤ numBuff) : ∃ m',
    fileName isMain addr m = fileNameFrom isMain addr (numBuff + 1 - chars.length) chars m' ∧
      m'.userByte = m.userByte := by
  induction chars using List.reverseRecOn with
  | nil => exact ⟨m, fileName_eq isMain addr m, rfl⟩
  | append_singleton chars b ih =>
    rw [List.length_append, List.length_singleton] at hlen ⊢
    obtain ⟨hchars, hb, hne⟩ := hasChars_append_singleton.1 h
    obtain ⟨m₁, heq, hm₁⟩ := ih hchars (by omega)
    have hroom : numBuff + 1 - chars.length = numBuff + 1 - (chars.length + 1) + 1 := by omega
    rw [hroom] at heq
    have hb₁ := (byteAfter_congr hm₁ addr chars).trans hb
    obtain ⟨m₂, heq', hm₂⟩ := fileNameFrom_succ isMain _ hb₁ hne (by omega)
    exact ⟨m₂, heq.trans heq', hm₂.trans hm₁⟩

/-- The end of the string is reached. -/
theorem fileName_of_zero (h : m.HasChars addr chars) (hlen : chars.length ≤ numBuff)
    (hb : m.byteAfter addr chars = .ok 0) :
    (chars.length < numBuff ∧ ∃ m', fileName isMain addr m = .ok (some chars, m')) ∨
      chars.length = numBuff ∧ fileName isMain addr m = .error .undefined := by
  obtain ⟨m₁, heq, hm₁⟩ := exists_fileName_eq isMain h hlen
  have hb₁ := (byteAfter_congr hm₁ addr chars).trans hb
  obtain ⟨m₂, heq', -⟩ := fileNameFrom_of_ok isMain (numBuff + 1 - chars.length) hb₁
  rw [heq, heq']
  unfold readName
  rw [if_pos (signExtend_eq_zero_iff.2 rfl)]
  rcases Nat.lt_or_eq_of_le hlen with hlt | hlt
  · exact .inl ⟨hlt, m₂, if_pos hlt⟩
  · exact .inr ⟨hlt, if_neg (by omega)⟩

/-- The string cannot be read to its end. -/
theorem fileName_of_error (h : m.HasChars addr chars) (hlen : chars.length ≤ numBuff)
    (hb : m.byteAfter addr chars = .error which) :
    (∃ m', fileName isMain addr m = .ok (none, m')) ∨
      fileName isMain addr m = .error .assertion := by
  obtain ⟨m₁, heq, hm₁⟩ := exists_fileName_eq isMain h hlen
  have hb₁ := (byteAfter_congr hm₁ addr chars).trans hb
  rw [heq, fileNameFrom]
  rcases readByte_of_error isMain hb₁ with ⟨-, hread⟩ | ⟨-, m₂, hread, -⟩
  · rw [hread]
    exact .inr rfl
  · rw [hread]
    exact .inl ⟨m₂, rfl⟩

/-- A string that is too long is copied beyond the array. -/
theorem fileName_of_long (h : m.HasChars addr chars) (hlen : chars.length = numBuff)
    (hb : m.byteAfter addr chars = .ok b) (hne : b ≠ 0) :
    fileName isMain addr m = .error .undefined := by
  obtain ⟨m₁, heq, hm₁⟩ := exists_fileName_eq isMain h hlen.le
  have hb₁ := (byteAfter_congr hm₁ addr chars).trans hb
  obtain ⟨m₂, heq', -⟩ := fileNameFrom_of_ok isMain (numBuff + 1 - chars.length) hb₁
  have hroom : numBuff + 1 - chars.length = 0 + 1 := by omega
  rw [heq, heq', hroom, readName, if_neg (mt signExtend_eq_zero_iff.1 hne)]
  simp only [if_neg (by omega : ¬chars.length < numBuff)]

/-- A file name is copied inside the array, and exactly, if and only if it has fewer than `NumBuff`
characters, or at most as many of which the one behind them cannot be read. -/
theorem fileName_copiesName_iff (m : Machine) (addr : Word) :
    CopiesName isMain m addr ↔ ∃ chars, m.HasChars addr chars ∧
      (chars.length < numBuff ∧ m.byteAfter addr chars = .ok 0 ∨
        chars.length ≤ numBuff ∧ ∃ which, m.byteAfter addr chars = .error which) := by
  constructor
  · intro hc
    obtain ⟨chars, h, hlen⟩ | ⟨chars, h, hlen, hb | ⟨which, hb⟩⟩ := m.exists_hasChars addr numBuff
    · cases hb : m.byteAfter addr chars with
      | error which => exact ⟨chars, h, .inr ⟨hlen.le, which, hb⟩⟩
      | ok b =>
        by_cases hb₀ : b = 0
        · subst hb₀
          rcases fileName_of_zero isMain h hlen.le hb with ⟨hlt, -⟩ | ⟨-, heq⟩
          · omega
          · exact absurd heq hc.inside
        · exact absurd (fileName_of_long isMain h hlen hb hb₀) hc.inside
    · exact ⟨chars, h, .inl ⟨hlen, hb⟩⟩
    · exact ⟨chars, h, .inr ⟨hlen.le, which, hb⟩⟩
  · rintro ⟨chars, h, ⟨hlen, hb⟩ | ⟨hlen, which, hb⟩⟩
    · rcases fileName_of_zero isMain h hlen.le hb with ⟨-, m₁, heq⟩ | ⟨hlt, -⟩
      · refine ⟨by simp [heq], fun hf => ?_⟩
        cases heq.symm.trans hf
        exact ⟨h, hb⟩
      · omega
    · rcases fileName_of_error isMain h hlen hb with ⟨m₁, heq⟩ | heq
      · exact ⟨by simp [heq], fun hf => by cases heq.symm.trans hf⟩
      · exact ⟨by simp [heq], fun hf => by cases heq.symm.trans hf⟩

/-- A process with the string `aa...a` of `NumBuff` characters at the address 0. -/
def longFileName : Machine where
  registers := ⟨fun _ => 0, 0, 0, 0, 4, 0, 0, 0, 0⟩
  pageTable := (List.range 8).map fun i => ⟨i, i, true, false, false, false⟩
  mainMemory a := if a < numBuff then 97 else 0

/-- The zero at the end of this string is stored behind the array. -/
theorem longFileName_not_copied : ¬CopiesName false longFileName 0 := by
  have hbytes : ∀ j < numBuff, longFileName.userByte (BitVec.ofNat 32 j) = .ok 97 := by
    decide +kernel
  have h : longFileName.HasChars 0 (List.replicate numBuff 97) := by
    refine ⟨fun j hj => ?_, by decide⟩
    have haddr : (0 : Word) + BitVec.ofNat 32 j = BitVec.ofNat 32 j := BitVec.zero_add _
    rw [haddr, hbytes j (by simpa using hj)]
    simp
  have hb : longFileName.byteAfter 0 (List.replicate numBuff 97) = .ok 0 := by decide +kernel
  rcases fileName_of_zero false h (by simp) hb with ⟨hlt, -⟩ | ⟨-, heq⟩
  · exact absurd hlt (by simp)
  · exact fun hc => hc.inside heq

end Nachos.UserProg
