import Mathlib.Computability.DFA
import Mathlib.Data.List.TakeWhile
import Mathlib.Data.Nat.Digits.Lemmas

/-!
# Decimal numbers as strings

The language `[+-]?[0-9]+([.][0-9]+)?` over an alphabet whose characters are digits, signs, points
or others, an automaton that accepts it, and the decimal numeral of an integer.

## Main definitions

* `Decimal.numbers`: the language.
* `Decimal.automaton`: the automaton, whose states are the phases of a scan.
* `Decimal.numeral`: the numeral of an integer in ASCII, without leading zeros.
* `Decimal.value`: the number that the digits of a string stand for.

## Main results

* `Decimal.accepts_automaton`: the automaton accepts the language.
* `Decimal.value_natNumeral`: a numeral stands for its number.
* `Decimal.numeral_mem_numbers`: numerals are in the language.
-/

namespace Foundations.Decimal

/-- The kinds of characters. -/
inductive Kind
  | digit
  | sign
  | point
  | other
  deriving DecidableEq

/-! ### The language -/

section Language

variable {α : Type*} (kind : α → Kind)

/-- One character of a kind. -/
def single (k : Kind) : Language α := {l | ∃ c, kind c = k ∧ l = [c]}

/-- At least one digit. -/
def digits : Language α := {l | l ≠ [] ∧ ∀ c ∈ l, kind c = .digit}

/-- A point and the digits behind it, or nothing. -/
def fraction : Language α := 1 + single kind .point * digits kind

/-- The decimal numbers. -/
def numbers : Language α := (1 + single kind .sign) * digits kind * fraction kind

/-- How far a decimal number has been read. -/
inductive Phase
  | start
  | sign
  | int
  | point
  | frac
  | bad
  deriving DecidableEq

/-- The phase after one more character. -/
def Phase.next : Phase → Kind → Phase
  | .start, .digit => .int
  | .start, .sign => .sign
  | .sign, .digit => .int
  | .int, .digit => .int
  | .int, .point => .point
  | .point, .digit => .frac
  | .frac, .digit => .frac
  | _, _ => .bad

/-- The automaton that reads decimal numbers. -/
def automaton : DFA α Phase where
  step p c := p.next (kind c)
  start := .start
  accept := {.int, .frac}

/-- What can follow in a phase. -/
def Phase.rest : Phase → Language α
  | .start => numbers kind
  | .sign => digits kind * fraction kind
  | .int => (1 + digits kind) * fraction kind
  | .point => digits kind
  | .frac => 1 + digits kind
  | .bad => 0

variable {kind} {c : α} {l : List α} {k : Kind} {L : Language α}

theorem mem_digits : l ∈ digits kind ↔ l ≠ [] ∧ ∀ c ∈ l, kind c = .digit := Iff.rfl

theorem mem_one_add_digits : l ∈ 1 + digits kind ↔ ∀ c ∈ l, kind c = .digit := by
  rw [Language.mem_add, Language.mem_one, mem_digits]
  constructor
  · rintro (rfl | ⟨-, h⟩)
    · exact nofun
    · exact h
  · intro h
    exact (em (l = [])).imp_right fun hne => ⟨hne, h⟩

theorem cons_mem_digits : c :: l ∈ digits kind ↔ kind c = .digit ∧ l ∈ 1 + digits kind := by
  rw [mem_digits, mem_one_add_digits, List.forall_mem_cons, and_iff_right (List.cons_ne_nil c l)]

theorem cons_mem_single_mul : c :: l ∈ single kind k * L ↔ kind c = k ∧ l ∈ L := by
  constructor
  · rintro ⟨_, ⟨d, hd, rfl⟩, b, hb, heq⟩
    obtain ⟨rfl, rfl⟩ := List.cons.inj heq
    exact ⟨hd, hb⟩
  · rintro ⟨hc, hl⟩
    exact ⟨[c], ⟨c, hc, rfl⟩, l, hl, rfl⟩

theorem cons_mem_digits_mul :
    c :: l ∈ digits kind * L ↔ kind c = .digit ∧ l ∈ (1 + digits kind) * L := by
  constructor
  · rintro ⟨_ | ⟨d, a⟩, ha, b, hb, heq⟩
    · exact absurd rfl ha.1
    · obtain ⟨rfl, rfl⟩ := List.cons.inj heq
      obtain ⟨hd, ha⟩ := cons_mem_digits.1 ha
      exact ⟨hd, a, ha, b, hb, rfl⟩
  · rintro ⟨hc, a, ha, b, hb, rfl⟩
    exact ⟨c :: a, cons_mem_digits.2 ⟨hc, ha⟩, b, hb, rfl⟩

theorem nil_mem_mul {L' : Language α} : [] ∈ L * L' ↔ [] ∈ L ∧ [] ∈ L' := by
  constructor
  · rintro ⟨a, ha, b, hb, heq⟩
    obtain ⟨rfl, rfl⟩ := List.append_eq_nil_iff.1 heq
    exact ⟨ha, hb⟩
  · rintro ⟨h, h'⟩
    exact ⟨[], h, [], h', rfl⟩

theorem nil_notMem_digits : [] ∉ digits kind := fun h => h.1 rfl

theorem cons_mem_fraction : c :: l ∈ fraction kind ↔ kind c = .point ∧ l ∈ digits kind := by
  rw [fraction, Language.mem_add, cons_mem_single_mul]
  exact or_iff_right (List.cons_ne_nil c l)

theorem nil_mem_rest {p : Phase} : [] ∈ p.rest kind ↔ p = .int ∨ p = .frac := by
  cases p with
  | start => simp [Phase.rest, numbers, nil_mem_mul, nil_notMem_digits]
  | sign => simp [Phase.rest, nil_mem_mul, nil_notMem_digits]
  | int => simp [Phase.rest, fraction, nil_mem_mul, Language.mem_add]
  | point => simp [Phase.rest, nil_notMem_digits]
  | frac => simp [Phase.rest, Language.mem_add]
  | bad => simp [Phase.rest]

/-- One more character. -/
theorem cons_mem_rest {p : Phase} : c :: l ∈ p.rest kind ↔ l ∈ (p.next (kind c)).rest kind := by
  cases p with
  | start =>
    rw [Phase.rest, numbers, mul_assoc, add_mul, one_mul, Language.mem_add, cons_mem_digits_mul,
      cons_mem_single_mul]
    cases hk : kind c <;> simp [Phase.rest, Phase.next]
  | sign =>
    rw [Phase.rest, cons_mem_digits_mul]
    cases hk : kind c <;> simp [Phase.rest, Phase.next]
  | int =>
    rw [Phase.rest, add_mul, one_mul, Language.mem_add, cons_mem_fraction, cons_mem_digits_mul]
    cases hk : kind c <;> simp [Phase.rest, Phase.next]
  | point =>
    rw [Phase.rest, cons_mem_digits]
    cases hk : kind c <;> simp [Phase.rest, Phase.next]
  | frac =>
    rw [Phase.rest, Language.mem_add, Language.mem_one, cons_mem_digits]
    cases hk : kind c <;> simp [Phase.rest, Phase.next]
  | bad => simp [Phase.rest, Phase.next]

/-- From every phase the automaton accepts what can follow. -/
theorem acceptsFrom_automaton (kind : α → Kind) (p : Phase) :
    (automaton kind).acceptsFrom p = p.rest kind := by
  ext l
  induction l generalizing p with
  | nil => exact nil_mem_rest.symm
  | cons c l ih => exact (ih (p.next (kind c))).trans cons_mem_rest.symm

theorem accepts_automaton (kind : α → Kind) : (automaton kind).accepts = numbers kind :=
  acceptsFrom_automaton kind .start

end Language

/-! ### Numerals -/

/-- The kind of a character in ASCII. -/
def kind (c : BitVec 8) : Kind :=
  if 48 ≤ c.toNat ∧ c.toNat ≤ 57 then .digit
  else if c = 43 ∨ c = 45 then .sign
  else if c = 46 then .point
  else .other

/-- A digit in ASCII. -/
def digit (d : ℕ) : BitVec 8 := BitVec.ofNat 8 (48 + d)

/-- The number for which the digits of a string stand. -/
def value (l : List (BitVec 8)) : ℕ := Nat.ofDigits 10 (l.reverse.map fun c => c.toNat - 48)

/-- The numeral of a natural number. -/
def natNumeral (n : ℕ) : List (BitVec 8) :=
  if n = 0 then [digit 0] else (Nat.digits 10 n).reverse.map digit

/-- The numeral of an integer. -/
def numeral (i : ℤ) : List (BitVec 8) :=
  if i < 0 then 45 :: natNumeral i.natAbs else natNumeral i.natAbs

/-- The characters that C calls spaces. -/
def isSpace (c : BitVec 8) : Bool := c.toNat == 32 || decide (9 ≤ c.toNat ∧ c.toNat ≤ 13)

/-- The integer with which a string begins, behind spaces and a sign. -/
def parse (l : List (BitVec 8)) : ℤ :=
  let number (l : List (BitVec 8)) : ℤ := value (l.takeWhile fun c => kind c = .digit)
  match l.dropWhile isSpace with
  | 45 :: l => -number l
  | 43 :: l => number l
  | l => number l

variable {n : ℕ} {i : ℤ} {c : BitVec 8}

theorem toNat_digit {d : ℕ} (h : d < 10) : (digit d).toNat = 48 + d := by
  rw [digit, BitVec.toNat_ofNat]
  omega

theorem kind_digit {d : ℕ} (h : d < 10) : kind (digit d) = .digit := by
  rw [kind, toNat_digit h]
  exact if_pos (by omega)

theorem value_natNumeral (n : ℕ) : value (natNumeral n) = n := by
  rw [natNumeral]
  split_ifs with h
  · rw [h]
    rfl
  · rw [value, ← List.map_reverse, List.reverse_reverse, List.map_map]
    conv_rhs => rw [← Nat.ofDigits_digits 10 n]
    refine congrArg _ ((List.map_congr_left fun d hd => ?_).trans (List.map_id _))
    have hlt : d < 10 := Nat.digits_lt_base (by decide) hd
    rw [Function.comp_apply, toNat_digit hlt, Nat.add_sub_cancel_left, id]

theorem natNumeral_mem_digits (n : ℕ) : natNumeral n ∈ digits kind := by
  rw [natNumeral]
  split_ifs with h
  · exact ⟨List.cons_ne_nil _ _, by simpa using kind_digit (by decide : 0 < 10)⟩
  · refine ⟨by simpa using Nat.digits_ne_nil_iff_ne_zero.2 h, fun c hc => ?_⟩
    obtain ⟨d, hd, rfl⟩ := List.mem_map.1 hc
    exact kind_digit (Nat.digits_lt_base (by decide) (List.mem_reverse.1 hd))

theorem numeral_mem_numbers (i : ℤ) : numeral i ∈ numbers kind := by
  have hfraction : [] ∈ fraction kind := .inl rfl
  have hdigits := natNumeral_mem_digits i.natAbs
  rw [numeral]
  split_ifs
  · exact ⟨45 :: natNumeral i.natAbs, ⟨[45], .inr ⟨45, rfl, rfl⟩, _, hdigits, rfl⟩, [], hfraction,
      List.append_nil _⟩
  · exact ⟨natNumeral i.natAbs, ⟨[], .inl rfl, _, hdigits, rfl⟩, [], hfraction, List.append_nil _⟩

theorem numeral_ne_nil (i : ℤ) : numeral i ≠ [] := by
  rw [numeral]
  split_ifs
  · exact List.cons_ne_nil _ _
  · exact (natNumeral_mem_digits _).1

theorem length_natNumeral_le {k : ℕ} (hk : 0 < k) (h : n < 10 ^ k) :
    (natNumeral n).length ≤ k := by
  rw [natNumeral]
  split_ifs
  · exact hk
  · rw [List.length_map, List.length_reverse]
    exact (Nat.digits_length_le_iff (by decide) n).2 h

/-- A numeral has a digit for each power of ten, and perhaps a sign. -/
theorem length_numeral_le {k : ℕ} (hk : 0 < k) (h : i.natAbs < 10 ^ k) :
    (numeral i).length ≤ k + 1 := by
  have hdigits := length_natNumeral_le hk h
  rw [numeral]
  split_ifs
  · exact Nat.succ_le_succ hdigits
  · exact Nat.le_succ_of_le hdigits

/-- The first digit is zero only for zero. -/
theorem exists_natNumeral_eq (n : ℕ) :
    ∃ d l, natNumeral n = digit d :: l ∧ d < 10 ∧ (d = 0 ↔ n = 0) := by
  rw [natNumeral]
  split_ifs with h
  · exact ⟨0, [], rfl, by decide, by simp [h]⟩
  · have hne := Nat.digits_ne_nil_iff_ne_zero (b := 10).2 h
    have hlast := Nat.getLast_digit_ne_zero 10 h
    refine ⟨(Nat.digits 10 n).getLast hne, ((Nat.digits 10 n).dropLast.reverse).map digit, ?_,
      Nat.digits_lt_base (by decide) (List.getLast_mem hne), iff_of_false hlast h⟩
    rw [← List.map_cons, ← List.reverse_concat, List.dropLast_concat_getLast]

theorem head?_natNumeral_eq_zero_iff : (natNumeral n).head? = some 48 ↔ n = 0 := by
  obtain ⟨d, l, heq, hd, hzero⟩ := exists_natNumeral_eq n
  rw [heq, List.head?_cons, Option.some.injEq, ← hzero, BitVec.toNat_eq, toNat_digit hd]
  exact ⟨fun h => by simpa using h, fun h => by rw [h]; rfl⟩

theorem head?_natNumeral_ne_minus (n : ℕ) : (natNumeral n).head? ≠ some 45 := by
  obtain ⟨d, l, heq, hd, -⟩ := exists_natNumeral_eq n
  rw [heq, List.head?_cons]
  intro h
  have hkind := kind_digit hd
  rw [Option.some.inj h] at hkind
  exact absurd hkind (by decide)

/-- A numeral begins with a minus if the integer is negative. -/
theorem head?_numeral_eq_minus_iff : (numeral i).head? = some 45 ↔ i < 0 := by
  rw [numeral]
  split_ifs with h
  · exact iff_of_true rfl h
  · exact iff_of_false (head?_natNumeral_ne_minus _) h

theorem head?_numeral_eq_zero_iff : (numeral i).head? = some 48 ↔ i = 0 := by
  rw [numeral]
  split_ifs with h
  · refine iff_of_false (fun heq => ?_) h.ne
    exact absurd (Option.some.inj heq) (by decide)
  · rw [head?_natNumeral_eq_zero_iff, Int.natAbs_eq_zero]

theorem parse_of_digit {l : List (BitVec 8)} (h : kind c = .digit) :
    parse (c :: l) = value ((c :: l).takeWhile fun c => kind c = .digit) := by
  have hdigit : 48 ≤ c.toNat := by
    by_contra hlt
    rw [kind, if_neg (by omega)] at h
    split_ifs at h
  have hspace : isSpace c = false := by
    rw [isSpace, Bool.or_eq_false_iff, beq_eq_false_iff_ne, decide_eq_false_iff_not]
    omega
  rw [parse, List.dropWhile_cons_of_neg (by simp [hspace])]
  split
  · next heq =>
    rw [(List.cons.inj heq).1] at h
    exact absurd h (by decide)
  · next heq =>
    rw [(List.cons.inj heq).1] at h
    exact absurd h (by decide)
  · rfl

/-- The integer with which its numeral begins. -/
theorem parse_numeral (i : ℤ) : parse (numeral i) = i := by
  have hvalue (n : ℕ) : value ((natNumeral n).takeWhile fun c => kind c = .digit) = n := by
    rw [List.takeWhile_eq_self_iff.2 fun c hc => by simpa using (natNumeral_mem_digits n).2 c hc,
      value_natNumeral]
  rw [numeral]
  split_ifs with h
  · have hminus : parse (45 :: natNumeral i.natAbs) =
        -(value ((natNumeral i.natAbs).takeWhile fun c => kind c = .digit) : ℤ) := rfl
    rw [hminus, hvalue]
    omega
  · obtain ⟨d, l, heq, hd, -⟩ := exists_natNumeral_eq i.natAbs
    rw [heq, parse_of_digit (kind_digit hd), ← heq, hvalue]
    omega

end Foundations.Decimal
