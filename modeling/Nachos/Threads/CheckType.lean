import Nachos.Foundations.Decimal
import Nachos.Foundations.Except
import Nachos.Machine.Fault

/-!
# The type of an input

`CheckType` and `promptInput` of `threadtest.cc`. `CheckType` first compares the string with the
numeral of its integer, as `atoi` and `sprintf` give it, and scans it otherwise. The flags of the
scan say in which phase of a decimal number the scan is; an integer that is too large for an `int`,
or that has leading zeros or the sign `+`, is a decimal number.

A string is the list of its characters before the `'\0'`. The buffers `i_str` and `InputString` come
from `new char`, so that the language promises one byte of each. How many bytes there are before
other objects begin is up to the allocator, and a parameter here.

## Main definitions

* `atoi`, `checkType`, `promptInput`.
* `IsType`: the types of strings.
* `Scan.InPhase`: the flags in each phase of a decimal number.

## Main results

* `result_scan_eq_one_iff`: the scan follows the automaton of decimal numbers.
* `isType_typeOf`: the comparison and the scan find the type of the string.
* `checkType_classifies_iff`: the buffers for which `CheckType` and `promptInput` are right.
* `exists_checkType_eq_ok`, `checkType_one`: 12 bytes are enough for `i_str`, and one byte is not.
-/

namespace Nachos.Threads

open Foundations Decimal

/-- The characters of a string before its end. -/
abbrev CString : Type := List (BitVec 8)

/-- `atoi`. The C library says nothing about integers that are out of range; then the result is
any `int`. -/
def atoi (outOfRange : CString → BitVec 32) (str : CString) : ℤ :=
  if -2 ^ 31 ≤ parse str ∧ parse str < 2 ^ 31 then parse str else (outOfRange str).toInt

/-- The variables of the scan in `CheckType`. -/
structure Scan where
  flag : ℕ
  numPt : ℕ
  onlySign : ℕ
  numAppend : Bool
  j : ℕ

/-- The initial values. -/
def Scan.initial : Scan where
  flag := 0
  numPt := 0
  onlySign := 0
  numAppend := true
  j := 0

/-- The body of the scan, with the next character. -/
def Scan.next (s : Scan) (c : BitVec 8) : Scan :=
  let a := c.toInt
  let s :=
    if 48 ≤ a ∧ a ≤ 57 then { s with onlySign := 0, numAppend := true }
    else if a = 46 then
      if s.j = 0 ∨ s.onlySign = 1 then { s with flag := 1 }
      else if s.numPt + 1 = 1 then { s with numPt := s.numPt + 1, numAppend := false }
      else if s.numPt + 1 > 1 then { s with numPt := s.numPt + 1, flag := 1 }
      else { s with numPt := s.numPt + 1 }
    else if a = 43 ∨ a = 45 then
      if s.j = 0 then { s with onlySign := 1 } else { s with flag := 1 }
    else { s with flag := 1 }
  { s with j := s.j + 1 }

/-- `flag` after the scan. -/
def Scan.result (s : Scan) : ℕ :=
  if s.onlySign = 1 ∨ s.numAppend = false then 1 else s.flag

/-- `CheckType` with the numeral in `i_str`: 0 for zero, 1 and 2 for positive and negative integers,
3 and 4 for positive and negative decimal numbers, 5 for other strings. -/
def typeOf (iStr str : CString) : ℕ :=
  if str = iStr then
    if iStr.head? = some 45 then 2 else if str.head? = some 48 then 0 else 1
  else if (str.foldl Scan.next .initial).result = 1 then 5
  else if str.head? = some 45 then
    -- `negZero` is `"-0"`
    if str = [45, 48] then 0 else 4
  else 3

/-- `sprintf` and `scanf` store a string with its end, where `room` bytes may be written. -/
def storeString (room : ℕ) (str : CString) : Except Fault Unit :=
  if str.length < room then .ok () else .error .undefined

/-- `CheckType`, with the bytes that may be written at `i_str`. -/
def checkType (room : ℕ) (outOfRange : CString → BitVec 32) (str : CString) : Except Fault ℕ := do
  let iStr := numeral (atoi outOfRange str)
  storeString room iStr
  return typeOf iStr str

/-- `promptInput`, with the words that `scanf` reads: the integer, or nothing while it asks again.
With each word come the bytes that may be written at `i_str` when `CheckType` looks at it. -/
def promptInput (inputRoom : ℕ) (outOfRange : CString → BitVec 32) (inputType : ℕ) :
    List (CString × ℕ) → Except Fault (Option ℤ)
  | [] => return none
  | (str, room) :: words => do
    storeString inputRoom str
    let type ← checkType room outOfRange str
    if type = inputType then return some (atoi outOfRange str)
    else promptInput inputRoom outOfRange inputType words

/-- The numerals of the positive integers that an `int` can hold. -/
def IsPositive (str : CString) : Prop := ∃ i : ℤ, 1 ≤ i ∧ i ≤ 2 ^ 31 - 1 ∧ str = numeral i

/-- The types of strings. -/
structure IsType (str : CString) (type : ℕ) : Prop where
  eq_one_iff : type = 1 ↔ IsPositive str
  eq_two_iff : type = 2 ↔ ∃ i : ℤ, -2 ^ 31 ≤ i ∧ i ≤ -1 ∧ str = numeral i
  eq_zero_iff : type = 0 ↔ str = [48] ∨ str = [45, 48]
  eq_five_iff : type = 5 ↔ str ∉ numbers kind
  otherwise : type ∉ ({0, 1, 2, 5} : Set ℕ) → type = if str.head? = some 45 then 4 else 3

/-! ### The scan -/

/-- The flags in each phase of a decimal number. -/
def Scan.InPhase (s : Scan) : Phase → Prop
  | .start => s = .initial
  | .sign => s = ⟨0, 0, 1, true, s.j⟩ ∧ 0 < s.j
  | .int => s = ⟨0, 0, 0, true, s.j⟩ ∧ 0 < s.j
  | .point => s = ⟨0, 1, 0, false, s.j⟩ ∧ 0 < s.j
  | .frac => s = ⟨0, 1, 0, true, s.j⟩ ∧ 0 < s.j
  | .bad => s.flag = 1

variable {s : Scan} {c : BitVec 8} {p : Phase} {str : CString}
  {outOfRange : CString → BitVec 32}

/-- The body by the kind of the character. -/
theorem Scan.next_eq (s : Scan) (c : BitVec 8) : s.next c =
    match kind c with
    | .digit => { s with onlySign := 0, numAppend := true, j := s.j + 1 }
    | .point =>
      if s.j = 0 ∨ s.onlySign = 1 then { s with flag := 1, j := s.j + 1 }
      else if s.numPt = 0 then
        { s with numPt := s.numPt + 1, numAppend := false, j := s.j + 1 }
      else { s with numPt := s.numPt + 1, flag := 1, j := s.j + 1 }
    | .sign =>
      if s.j = 0 then { s with onlySign := 1, j := s.j + 1 }
      else { s with flag := 1, j := s.j + 1 }
    | .other => { s with flag := 1, j := s.j + 1 } := by
  have hint : c.toInt = if c.toNat < 128 then (c.toNat : ℤ) else c.toNat - 256 := by
    rw [BitVec.toInt_eq_toNat_cond]
    split_ifs <;> omega
  have hlt := c.isLt
  have hdigit : (48 ≤ c.toInt ∧ c.toInt ≤ 57) ↔ (48 ≤ c.toNat ∧ c.toNat ≤ 57) := by
    rw [hint]
    split_ifs <;> omega
  have heq (n : ℕ) (hn : n < 128) : c.toInt = n ↔ c = BitVec.ofNat 8 n := by
    rw [hint, BitVec.toNat_eq, BitVec.toNat_ofNat]
    split_ifs <;> omega
  have hpoint : c.toInt = 46 ↔ c = 46 := heq 46 (by decide)
  have hplus : c.toInt = 43 ↔ c = 43 := heq 43 (by decide)
  have hminus : c.toInt = 45 ↔ c = 45 := heq 45 (by decide)
  simp only [Scan.next, hdigit, hpoint, hplus, hminus, kind]
  by_cases hd : 48 ≤ c.toNat ∧ c.toNat ≤ 57
  · rw [if_pos hd, if_pos hd]
  rw [if_neg hd, if_neg hd]
  by_cases hp : c = 46
  · have hsign : ¬(c = 43 ∨ c = 45) := by
      rw [hp]
      decide
    rw [if_pos hp, if_neg hsign, if_pos hp]
    dsimp only
    have hnum : s.numPt + 1 = 1 ↔ s.numPt = 0 := by omega
    have hpos : s.numPt + 1 > 1 ↔ ¬s.numPt = 0 := by omega
    simp only [hnum, hpos]
    split_ifs <;> rfl
  · rw [if_neg hp]
    by_cases hs : c = 43 ∨ c = 45
    · rw [if_pos hs, if_pos hs]
      dsimp only
      split_ifs <;> rfl
    · rw [if_neg hs, if_neg hs, if_neg hp]

theorem Scan.InPhase.next (h : s.InPhase p) (c : BitVec 8) :
    (s.next c).InPhase (p.next (kind c)) := by
  rw [Scan.next_eq]
  cases p with
  | start =>
    obtain rfl : s = .initial := h
    cases kind c <;> simp [initial, InPhase, Phase.next]
  | sign =>
    obtain ⟨hs, hj⟩ := h
    rw [hs]
    cases kind c <;> simp [InPhase, Phase.next, hj.ne']
  | int =>
    obtain ⟨hs, hj⟩ := h
    rw [hs]
    cases kind c <;> simp [InPhase, Phase.next, hj.ne']
  | point =>
    obtain ⟨hs, hj⟩ := h
    rw [hs]
    cases kind c <;> simp [InPhase, Phase.next, hj.ne']
  | frac =>
    obtain ⟨hs, hj⟩ := h
    rw [hs]
    cases kind c <;> simp [InPhase, Phase.next, hj.ne']
  | bad =>
    have hflag : s.flag = 1 := h
    cases kind c with
    | digit => exact hflag
    | sign =>
      simp only [InPhase, Phase.next]
      split_ifs
      · exact hflag
      · rfl
    | point =>
      simp only [InPhase, Phase.next]
      split_ifs
      · rfl
      · exact hflag
      · rfl
    | other => rfl

theorem inPhase_foldl (h : s.InPhase p) (str : CString) :
    (str.foldl Scan.next s).InPhase ((automaton kind).evalFrom p str) := by
  induction str generalizing s p with
  | nil => exact h
  | cons c str ih => exact ih (h.next c)

theorem Phase.next_ne_start (p : Phase) (k : Kind) : p.next k ≠ .start := by
  cases p <;> cases k <;> decide

theorem eval_ne_start (h : str ≠ []) : (automaton kind).eval str ≠ .start := by
  obtain ⟨str, c, rfl⟩ := (List.eq_nil_or_concat' str).resolve_left h
  rw [DFA.eval_append_singleton]
  exact Phase.next_ne_start _ _

/-- The result of the scan tells whether the phase is one in which a number can end. -/
theorem Scan.InPhase.result_eq_one_iff (h : s.InPhase p) (hp : p ≠ .start) :
    s.result = 1 ↔ ¬(p = .int ∨ p = .frac) := by
  cases p with
  | start => exact absurd rfl hp
  | sign =>
    rw [h.1]
    simp [result]
  | int =>
    rw [h.1]
    simp [result]
  | point =>
    rw [h.1]
    simp [result]
  | frac =>
    rw [h.1]
    simp [result]
  | bad =>
    have hflag : s.flag = 1 := h
    simp [result, hflag]

/-- The scan follows the automaton of decimal numbers. -/
theorem result_scan_eq_one_iff (h : str ≠ []) :
    (str.foldl Scan.next .initial).result = 1 ↔ str ∉ numbers kind := by
  have hscan : (str.foldl Scan.next .initial).InPhase ((automaton kind).eval str) :=
    inPhase_foldl (p := .start) rfl str
  rw [hscan.result_eq_one_iff (eval_ne_start h), ← accepts_automaton]
  rfl

/-! ### The comparison with the numeral -/

/-- The integers that an `int` can hold. -/
def InRange (i : ℤ) : Prop := -2 ^ 31 ≤ i ∧ i < 2 ^ 31

theorem inRange_atoi (outOfRange : CString → BitVec 32) (str : CString) :
    InRange (atoi outOfRange str) := by
  rw [atoi]
  split_ifs with h
  · exact h
  · exact ⟨BitVec.le_toInt _, BitVec.toInt_lt⟩

theorem atoi_numeral {i : ℤ} (h : InRange i) : atoi outOfRange (numeral i) = i := by
  rw [atoi, parse_numeral]
  exact if_pos h

theorem numeral_injective : Function.Injective numeral := fun i i' h => by
  rw [← parse_numeral i, h, parse_numeral]

theorem typeOf_numeral {i : ℤ} (h : InRange i) :
    typeOf (numeral (atoi outOfRange (numeral i))) (numeral i) =
      if i < 0 then 2 else if i = 0 then 0 else 1 := by
  simp only [typeOf, atoi_numeral h, head?_numeral_eq_minus_iff, head?_numeral_eq_zero_iff,
    if_true]

/-- Without the comparison, the scan decides. -/
theorem typeOf_of_ne_numeral (hne : str ≠ []) (h : ∀ i, InRange i → str ≠ numeral i) :
    (typeOf (numeral (atoi outOfRange str)) str = 5 ∧ str ∉ numbers kind) ∨
      str ∈ numbers kind ∧ typeOf (numeral (atoi outOfRange str)) str =
        if str.head? = some 45 then if str = [45, 48] then 0 else 4 else 3 := by
  have hscan := result_scan_eq_one_iff hne
  rw [typeOf, if_neg (h _ (inRange_atoi outOfRange str))]
  by_cases hresult : (str.foldl Scan.next .initial).result = 1
  · rw [if_pos hresult]
    exact .inl ⟨rfl, hscan.1 hresult⟩
  · rw [if_neg hresult]
    exact .inr ⟨by_contra fun hmem => hresult (hscan.2 hmem), rfl⟩

/-- The types of strings that are not empty. -/
theorem typeOf_cases (outOfRange : CString → BitVec 32) (hne : str ≠ []) :
    (∃ i, InRange i ∧ str = numeral i ∧
      typeOf (numeral (atoi outOfRange str)) str = if i < 0 then 2 else if i = 0 then 0 else 1) ∨
    (∀ i, InRange i → str ≠ numeral i) ∧
      ((typeOf (numeral (atoi outOfRange str)) str = 5 ∧ str ∉ numbers kind) ∨
        str ∈ numbers kind ∧ typeOf (numeral (atoi outOfRange str)) str =
          if str.head? = some 45 then if str = [45, 48] then 0 else 4 else 3) := by
  by_cases h : ∃ i, InRange i ∧ str = numeral i
  · obtain ⟨i, hi, rfl⟩ := h
    exact .inl ⟨i, hi, rfl, typeOf_numeral hi⟩
  · have h' : ∀ i, InRange i → str ≠ numeral i := fun i hi heq => h ⟨i, hi, heq⟩
    exact .inr ⟨h', typeOf_of_ne_numeral hne h'⟩

theorem typeOf_eq_one_iff (hne : str ≠ []) :
    typeOf (numeral (atoi outOfRange str)) str = 1 ↔ IsPositive str := by
  rcases typeOf_cases outOfRange hne with ⟨i, hi, rfl, htype⟩ | ⟨h, hcases⟩
  · rw [htype]
    constructor
    · intro h
      split_ifs at h
      · exact absurd h (by decide)
      · exact ⟨i, by omega, Int.le_sub_one_of_lt hi.2, rfl⟩
    · rintro ⟨k, hk, -, heq⟩
      obtain rfl := numeral_injective heq
      rw [if_neg (by omega), if_neg (by omega)]
  · refine iff_of_false (fun htype => ?_) fun ⟨i, hi, hi', heq⟩ =>
      h i ⟨by omega, by omega⟩ heq
    rcases hcases with ⟨h5, -⟩ | ⟨-, hscan⟩
    · omega
    · split_ifs at hscan <;> omega

theorem typeOf_eq_two_iff (hne : str ≠ []) :
    typeOf (numeral (atoi outOfRange str)) str = 2 ↔
      ∃ i : ℤ, -2 ^ 31 ≤ i ∧ i ≤ -1 ∧ str = numeral i := by
  rcases typeOf_cases outOfRange hne with ⟨i, hi, rfl, htype⟩ | ⟨h, hcases⟩
  · rw [htype]
    constructor
    · intro h
      split_ifs at h
      · exact ⟨i, hi.1, by omega, rfl⟩
      · exact absurd h (by decide)
    · rintro ⟨k, -, hk, heq⟩
      obtain rfl := numeral_injective heq
      rw [if_pos (by omega)]
  · refine iff_of_false (fun htype => ?_) fun ⟨i, hi, hi', heq⟩ =>
      h i ⟨by omega, by omega⟩ heq
    rcases hcases with ⟨h5, -⟩ | ⟨-, hscan⟩
    · omega
    · split_ifs at hscan <;> omega

theorem typeOf_eq_zero_iff (hne : str ≠ []) :
    typeOf (numeral (atoi outOfRange str)) str = 0 ↔ str = [48] ∨ str = [45, 48] := by
  rcases typeOf_cases outOfRange hne with ⟨i, hi, rfl, htype⟩ | ⟨h, hcases⟩
  · rw [htype]
    constructor
    · intro h
      split_ifs at h with hneg hzero
      exact .inl (by rw [hzero]; rfl)
    · rintro (heq | heq)
      · obtain rfl := numeral_injective (heq.trans (rfl : _ = numeral 0))
        rfl
      · have hparse : parse (numeral i) = 0 := by rw [heq]; rfl
        rw [parse_numeral] at hparse
        rw [hparse] at heq
        exact absurd heq (by decide)
  · rcases hcases with ⟨h5, hmem⟩ | ⟨hmem, hscan⟩
    · refine iff_of_false (by omega) ?_
      rintro (rfl | rfl)
      · exact hmem (numeral_mem_numbers 0)
      · exact hmem ⟨[45, 48], ⟨[45], .inr ⟨45, rfl, rfl⟩, [48], natNumeral_mem_digits 0, rfl⟩, [],
          .inl rfl, rfl⟩
    · have hzero : str ≠ [48] := h 0 ⟨by decide, by decide⟩
      rw [hscan, or_iff_right hzero]
      constructor
      · intro htype
        split_ifs at htype with hminus heq
        exact heq
      · rintro rfl
        rfl

theorem typeOf_eq_five_iff (hne : str ≠ []) :
    typeOf (numeral (atoi outOfRange str)) str = 5 ↔ str ∉ numbers kind := by
  rcases typeOf_cases outOfRange hne with ⟨i, hi, rfl, htype⟩ | ⟨h, hcases⟩
  · refine iff_of_false ?_ (not_not_intro (numeral_mem_numbers i))
    rw [htype]
    split_ifs <;> decide
  · rcases hcases with ⟨h5, hmem⟩ | ⟨hmem, hscan⟩
    · exact iff_of_true h5 hmem
    · refine iff_of_false ?_ (not_not_intro hmem)
      rw [hscan]
      split_ifs <;> decide

theorem typeOf_otherwise (hne : str ≠ [])
    (h : typeOf (numeral (atoi outOfRange str)) str ∉ ({0, 1, 2, 5} : Set ℕ)) :
    typeOf (numeral (atoi outOfRange str)) str = if str.head? = some 45 then 4 else 3 := by
  rcases typeOf_cases outOfRange hne with ⟨i, -, -, htype⟩ | ⟨-, ⟨h5, -⟩ | ⟨-, hscan⟩⟩
  · rw [htype] at h
    split_ifs at h <;> simp at h
  · simp [h5] at h
  · rw [hscan] at h ⊢
    split_ifs at h ⊢
    · simp at h
    · rfl
    · rfl

/-- The comparison and the scan find the type of the string. -/
theorem isType_typeOf (outOfRange : CString → BitVec 32) (hne : str ≠ []) :
    IsType str (typeOf (numeral (atoi outOfRange str)) str) where
  eq_one_iff := typeOf_eq_one_iff hne
  eq_two_iff := typeOf_eq_two_iff hne
  eq_zero_iff := typeOf_eq_zero_iff hne
  eq_five_iff := typeOf_eq_five_iff hne
  otherwise := typeOf_otherwise hne

/-- The empty string too: it has the type of a decimal number. -/
theorem typeOf_eq_one_iff_isPositive :
    typeOf (numeral (atoi outOfRange str)) str = 1 ↔ IsPositive str := by
  rcases eq_or_ne str [] with rfl | hne
  · have hzero : atoi outOfRange [] = 0 := rfl
    rw [hzero]
    exact iff_of_false (by decide) fun ⟨i, _, _, h⟩ => numeral_ne_nil i h.symm
  · exact typeOf_eq_one_iff hne

theorem IsPositive.atoi_mem (h : IsPositive str) :
    1 ≤ atoi outOfRange str ∧ atoi outOfRange str ≤ 2 ^ 31 - 1 := by
  obtain ⟨i, hlow, hhigh, rfl⟩ := h
  rw [atoi_numeral ⟨by omega, by omega⟩]
  exact ⟨hlow, hhigh⟩

/-! ### The buffers -/

variable {room inputRoom : ℕ} {words : List (CString × ℕ)}

theorem storeString_of_lt (h : str.length < room) : storeString room str = .ok () := if_pos h

theorem storeString_of_le (h : room ≤ str.length) : storeString room str = .error .undefined :=
  if_neg h.not_gt

theorem checkType_of_lt (h : (numeral (atoi outOfRange str)).length < room) :
    checkType room outOfRange str = .ok (typeOf (numeral (atoi outOfRange str)) str) := by
  simp only [checkType, storeString_of_lt h]
  rfl

theorem checkType_of_le (h : room ≤ (numeral (atoi outOfRange str)).length) :
    checkType room outOfRange str = .error .undefined := by
  simp only [checkType, storeString_of_le h]
  rfl

/-- Twelve bytes are enough for the numeral of an `int`. -/
theorem exists_checkType_eq_ok (outOfRange : CString → BitVec 32) (h : 12 ≤ room) :
    ∃ type, checkType room outOfRange str = .ok type := by
  obtain ⟨hlow, hhigh⟩ := inRange_atoi outOfRange str
  have hlen := length_numeral_le (i := atoi outOfRange str) (k := 10) (by decide) (by omega)
  exact ⟨_, checkType_of_lt (by omega)⟩

/-- The byte that `new char` promises is not enough for any numeral. -/
theorem checkType_one (outOfRange : CString → BitVec 32) (str : CString) :
    checkType 1 outOfRange str = .error .undefined :=
  checkType_of_le (List.length_pos_of_ne_nil (numeral_ne_nil _))

/-- `CheckType` finds the type of the string if `i_str` has room for the numeral. -/
theorem exists_isType_iff (outOfRange : CString → BitVec 32) (room : ℕ) (hne : str ≠ []) :
    (∃ type, checkType room outOfRange str = .ok type ∧ IsType str type) ↔
      (numeral (atoi outOfRange str)).length < room := by
  constructor
  · rintro ⟨type, htype, -⟩
    by_contra hle
    rw [checkType_of_le (not_lt.1 hle)] at htype
    cases htype
  · intro hlt
    exact ⟨_, checkType_of_lt hlt, isType_typeOf outOfRange hne⟩

/-- `promptInput` asks for a positive integer, and what it returns is one. -/
def PromptsPositive (inputRoom : ℕ) (outOfRange : CString → BitVec 32)
    (words : List (CString × ℕ)) : Prop :=
  ∃ result, promptInput inputRoom outOfRange 1 words = .ok result ∧
    ∀ i, result = some i → 1 ≤ i ∧ i ≤ 2 ^ 31 - 1

/-- There is room for a word and for the numeral of its integer. -/
def Fits (inputRoom : ℕ) (outOfRange : CString → BitVec 32) (word : CString × ℕ) : Prop :=
  word.1.length < inputRoom ∧ (numeral (atoi outOfRange word.1)).length < word.2

/-- There is room for all words up to the first positive integer. -/
def FitsUpToPositive (inputRoom : ℕ) (outOfRange : CString → BitVec 32)
    (words : List (CString × ℕ)) : Prop :=
  ∀ before word after, words = before ++ word :: after →
    (∀ word' ∈ before, ¬IsPositive word'.1) → Fits inputRoom outOfRange word

theorem fitsUpToPositive_cons {word : CString × ℕ} :
    FitsUpToPositive inputRoom outOfRange (word :: words) ↔
      Fits inputRoom outOfRange word ∧
        (¬IsPositive word.1 → FitsUpToPositive inputRoom outOfRange words) := by
  constructor
  · intro h
    refine ⟨h [] word words rfl nofun, fun hword before word' after heq hbefore => ?_⟩
    exact h (word :: before) word' after (by rw [heq, List.cons_append])
      (List.forall_mem_cons.2 ⟨hword, hbefore⟩)
  · rintro ⟨hword, hwords⟩ before word' after heq hbefore
    cases before with
    | nil =>
      obtain ⟨rfl, -⟩ := List.cons.inj heq
      exact hword
    | cons first before =>
      obtain ⟨rfl, hafter⟩ := List.cons.inj heq
      obtain ⟨hfirst, hbefore⟩ := List.forall_mem_cons.1 hbefore
      exact hwords hfirst before word' after hafter hbefore

/-- One word: it is stored and compared, and the next one is read if it is not positive. -/
theorem promptsPositive_cons {word : CString × ℕ} :
    PromptsPositive inputRoom outOfRange (word :: words) ↔
      Fits inputRoom outOfRange word ∧
        (¬IsPositive word.1 → PromptsPositive inputRoom outOfRange words) := by
  obtain ⟨str, room⟩ := word
  by_cases hinput : str.length < inputRoom
  swap
  · refine iff_of_false ?_ fun h => hinput h.1.1
    rintro ⟨result, hresult, -⟩
    rw [promptInput, storeString_of_le (not_lt.1 hinput)] at hresult
    cases hresult
  by_cases hroom : (numeral (atoi outOfRange str)).length < room
  swap
  · refine iff_of_false ?_ fun h => hroom h.1.2
    rintro ⟨result, hresult, -⟩
    rw [promptInput, storeString_of_lt hinput, ok_bind, checkType_of_le (not_lt.1 hroom)] at hresult
    cases hresult
  have hfits : Fits inputRoom outOfRange (str, room) := ⟨hinput, hroom⟩
  rw [and_iff_right hfits, PromptsPositive, promptInput, storeString_of_lt hinput, ok_bind,
    checkType_of_lt hroom, ok_bind]
  by_cases htype : IsPositive str
  · rw [if_pos (typeOf_eq_one_iff_isPositive.2 htype)]
    refine iff_of_true ⟨_, rfl, ?_⟩ fun h => absurd htype h
    rintro i ⟨⟩
    exact htype.atoi_mem
  · rw [if_neg (mt typeOf_eq_one_iff_isPositive.1 htype)]
    exact ⟨fun h _ => h, fun h => h htype⟩

/-- `promptInput` is right if there is room for the words that it reads and for their numerals. -/
theorem promptsPositive_iff (inputRoom : ℕ) (outOfRange : CString → BitVec 32)
    (words : List (CString × ℕ)) :
    PromptsPositive inputRoom outOfRange words ↔ FitsUpToPositive inputRoom outOfRange words := by
  induction words with
  | nil =>
    refine iff_of_true ⟨none, rfl, nofun⟩ fun before word after heq _ => ?_
    cases before <;> cases heq
  | cons word words ih => rw [promptsPositive_cons, fitsUpToPositive_cons, ih]

/-- `CheckType` and `promptInput` are right for exactly the strings that fit into the buffers. -/
theorem checkType_classifies_iff (outOfRange : CString → BitVec 32) :
    (∀ (room : ℕ) (str : CString), str ≠ [] →
      ((∃ type, checkType room outOfRange str = .ok type ∧ IsType str type) ↔
        (numeral (atoi outOfRange str)).length < room)) ∧
    ∀ (inputRoom : ℕ) (words : List (CString × ℕ)),
      PromptsPositive inputRoom outOfRange words ↔ FitsUpToPositive inputRoom outOfRange words :=
  ⟨fun room _ hne => exists_isType_iff outOfRange room hne,
    fun inputRoom words => promptsPositive_iff inputRoom outOfRange words⟩

/-- The string `12`, with 24 bytes at `i_str`. -/
theorem checkType_classifies_iff_of_twelve :
    ∃ type, checkType 24 (fun _ => 0) [49, 50] = .ok type ∧ IsType [49, 50] type :=
  ((checkType_classifies_iff fun _ => 0).1 24 [49, 50] (by decide)).2 (by decide)

/-- With the bytes that `new char` promises, the string `12` is stored behind `i_str`, and as an
input behind `InputString`. -/
theorem checkType_overrun :
    checkType 1 (fun _ => 0) [49, 50] = .error .undefined ∧
      promptInput 1 (fun _ => 0) 1 [([49, 50], 1)] = .error .undefined ∧
      ¬(∃ type, checkType 1 (fun _ => 0) [49, 50] = .ok type ∧ IsType [49, 50] type) ∧
      ¬PromptsPositive 1 (fun _ => 0) [([49, 50], 1)] := by
  have hcheck : checkType 1 (fun _ => 0) [49, 50] = .error .undefined := rfl
  have hprompt : promptInput 1 (fun _ => 0) 1 [([49, 50], 1)] = .error .undefined := rfl
  refine ⟨hcheck, hprompt, ?_, ?_⟩
  · rintro ⟨type, htype, -⟩
    rw [hcheck] at htype
    cases htype
  · rintro ⟨result, hresult, -⟩
    rw [hprompt] at hresult
    cases hresult

end Nachos.Threads
