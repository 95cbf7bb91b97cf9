import Nachos.UserProg.UserMemory

/-!
# Write

`SC_Write` copies a string from user memory into the array `ch` of 500 characters, up to a zero
byte, whatever size the program asks for, and gives it to `SWrite`. The loop has no bound, and it
repeats a call of `ReadMem` that returns `FALSE`.

## Main definitions

* `copyLoop`: the loop.
* `swrite`, `write`: `SWrite`, and what `SC_Write` outputs.

## Main results

* `copyLoop_stops_iff`: the memories on which the loop stops inside its array.
* `write_outputs_iff`: the memories on which the bytes are written that the program asks for.
-/

namespace Nachos.UserProg

open Foundations Machine

/-- The loop of `SC_Write`, when `ch` contains the characters before `ch[j]`. -/
def copyLoop (isMain : Bool) (addr : Word) : ℕ → List (BitVec 8) → Machine →
    Except Fault (List (BitVec 8) × Machine)
  | 0, _, _ => .error .outOfFuel
  | fuel + 1, ch, m => do
    let (i, m) ← readByte isMain (addr + BitVec.ofNat 32 ch.length) m
    match i with
    -- `j` is decremented, and the loop increments it again
    | none => copyLoop isMain addr fuel ch m
    | some i =>
      if ch.length < 500 then
        if i.truncate 8 = (0 : BitVec 8) then return (ch, m)
        else copyLoop isMain addr fuel (ch ++ [i.truncate 8]) m
      else .error .undefined

/-- Bytes that are written to the terminal, which is the file 1, or to a file. -/
structure Output where
  id : Word
  bytes : List (BitVec 8)

/-- `SWrite`. -/
def swrite (buffer : List (BitVec 8)) (size : ℕ) (id : Word) : List Output :=
  (if id = 1 then [⟨1, buffer.takeWhile (· != 0)⟩] else []) ++
    if 2 ≤ id.toInt then [⟨id, buffer.take size⟩] else []

/-- What `SC_Write` outputs when the loop has stopped at the end of the string `ch`. -/
def output (ch : List (BitVec 8)) (id : Word) : List Output :=
  if ch.length = 0 then [⟨1, "\nWrite 0 byte.\n".toList.map fun c => BitVec.ofNat 8 c.toNat⟩]
  else swrite (ch ++ [0]) ch.length id

/-- `SC_Write`. The size in register 5 is not used. -/
def write (isMain : Bool) (fuel : ℕ) (m : Machine) : Except Fault (List Output × Machine) := do
  let arg1 := m.registers.gpr 4
  let arg3 := m.registers.gpr 6
  let (ch, m) ← copyLoop isMain arg1 fuel [] m
  return (output ch arg3, advancePC m)

/-- The bytes that are written to a file, in order. -/
def outputTo (id : Word) (outputs : List Output) : List (BitVec 8) :=
  (outputs.filter (·.id = id)).flatMap Output.bytes

/-! ### The loop -/

section Loop

variable (isMain : Bool) {m m' : Machine} {addr : Word} {chars : List (BitVec 8)} {b : BitVec 8}
  {which : ExceptionType}

/-- More fuel changes nothing when the loop has stopped. -/
theorem copyLoop_add {fuel : ℕ} (k : ℕ)
    (h : copyLoop isMain addr fuel chars m ≠ .error .outOfFuel) :
    copyLoop isMain addr (fuel + k) chars m = copyLoop isMain addr fuel chars m := by
  induction fuel generalizing chars m with
  | zero => exact absurd rfl h
  | succ fuel ih =>
    rw [Nat.succ_add]
    unfold copyLoop at h ⊢
    cases hread : readByte isMain (addr + BitVec.ofNat 32 chars.length) m with
    | error e => rfl
    | ok v =>
      obtain ⟨i, m₁⟩ := v
      rw [hread] at h
      cases i with
      | none => exact ih h
      | some i =>
        simp only [ok_bind] at h ⊢
        split_ifs at h ⊢
        · rfl
        · exact ih h
        · rfl

theorem copyLoop_of_ok (fuel : ℕ) (h : m.byteAfter addr chars = .ok b) : ∃ m',
    m'.userByte = m.userByte ∧ copyLoop isMain addr (fuel + 1) chars m =
      if chars.length < 500 then
        if b = 0 then .ok (chars, m') else copyLoop isMain addr fuel (chars ++ [b]) m'
      else .error .undefined := by
  obtain ⟨m', hread, hm'⟩ := readByte_of_ok isMain h
  refine ⟨m', hm', ?_⟩
  rw [copyLoop, hread]
  simp only [ok_bind, truncate_signExtend]
  rfl

/-- The loop copies characters as long as the array has room. -/
theorem exists_copyLoop_eq (fuel : ℕ) (h : m.HasChars addr chars) (hlen : chars.length ≤ 500) :
    ∃ m', copyLoop isMain addr (fuel + chars.length) [] m = copyLoop isMain addr fuel chars m' ∧
      m'.userByte = m.userByte := by
  induction chars using List.reverseRecOn generalizing fuel with
  | nil => exact ⟨m, rfl, rfl⟩
  | append_singleton chars b ih =>
    rw [List.length_append, List.length_singleton] at hlen
    obtain ⟨hchars, hb, hne⟩ := hasChars_append_singleton.1 h
    obtain ⟨m₁, heq, hm₁⟩ := ih (fuel + 1) hchars (by omega)
    obtain ⟨m₂, hm₂, heq'⟩ :=
      copyLoop_of_ok isMain fuel ((byteAfter_congr hm₁ addr chars).trans hb)
    rw [if_pos (by omega), if_neg hne] at heq'
    refine ⟨m₂, ?_, hm₂.trans hm₁⟩
    rw [← heq', ← heq, List.length_append, List.length_singleton, Nat.add_right_comm, Nat.add_assoc]

/-- A byte that cannot be read is read for ever, unless the simulation ends. -/
theorem copyLoop_of_error (fuel : ℕ) (h : m.byteAfter addr chars = .error which) :
    Aborts isMain which ∧ copyLoop isMain addr (fuel + 1) chars m = .error .assertion ∨
      ¬Aborts isMain which ∧ copyLoop isMain addr fuel chars m = .error .outOfFuel := by
  by_cases ha : Aborts isMain which
  · rcases readByte_of_error isMain h with ⟨-, hread⟩ | ⟨ha', -⟩
    · exact .inl ⟨ha, by rw [copyLoop, hread]; rfl⟩
    · exact absurd ha ha'
  · refine .inr ⟨ha, ?_⟩
    induction fuel generalizing m with
    | zero => rfl
    | succ fuel ih =>
      rcases readByte_of_error isMain h with ⟨ha', -⟩ | ⟨-, m₁, hread, hm₁⟩
      · exact absurd ha' ha
      · rw [copyLoop, hread]
        exact ih ((byteAfter_congr hm₁ addr chars).trans h)

variable {isMain}

/-- The fuel does not matter. -/
theorem copyLoop_unique {fuel fuel' : ℕ} {r r' : Except Fault (List (BitVec 8) × Machine)}
    (h : copyLoop isMain addr fuel chars m = r) (h' : copyLoop isMain addr fuel' chars m = r')
    (hr : r ≠ .error .outOfFuel) (hr' : r' ≠ .error .outOfFuel) : r = r' := by
  subst h h'
  rw [← copyLoop_add isMain fuel' hr, Nat.add_comm, copyLoop_add isMain fuel hr']

/-- The end of the string is reached. -/
theorem exists_copyLoop_of_zero (h : m.HasChars addr chars) (hlen : chars.length < 500)
    (hb : m.byteAfter addr chars = .ok 0) :
    ∃ fuel m', copyLoop isMain addr fuel [] m = .ok (chars, m') := by
  obtain ⟨m₁, heq, hm₁⟩ := exists_copyLoop_eq isMain 1 h hlen.le
  obtain ⟨m₂, -, heq'⟩ := copyLoop_of_ok isMain 0 ((byteAfter_congr hm₁ addr chars).trans hb)
  rw [if_pos hlen, if_pos rfl] at heq'
  exact ⟨_, m₂, heq.trans heq'⟩

/-- The array is full. -/
theorem exists_copyLoop_of_full (h : m.HasChars addr chars) (hlen : chars.length = 500)
    (hb : m.byteAfter addr chars = .ok b) :
    ∃ fuel, copyLoop isMain addr fuel [] m = .error .undefined := by
  obtain ⟨m₁, heq, hm₁⟩ := exists_copyLoop_eq isMain 1 h hlen.le
  obtain ⟨m₂, -, heq'⟩ := copyLoop_of_ok isMain 0 ((byteAfter_congr hm₁ addr chars).trans hb)
  rw [if_neg (by omega)] at heq'
  exact ⟨_, heq.trans heq'⟩

/-- A byte of the string cannot be read. -/
theorem exists_copyLoop_of_aborts (h : m.HasChars addr chars) (hlen : chars.length ≤ 500)
    (hb : m.byteAfter addr chars = .error which) (ha : Aborts isMain which) :
    ∃ fuel, copyLoop isMain addr fuel [] m = .error .assertion := by
  obtain ⟨m₁, heq, hm₁⟩ := exists_copyLoop_eq isMain 1 h hlen
  rcases copyLoop_of_error isMain 0 ((byteAfter_congr hm₁ addr chars).trans hb) with
    ⟨-, heq'⟩ | ⟨ha', -⟩
  · exact ⟨_, heq.trans heq'⟩
  · exact absurd ha ha'

theorem copyLoop_of_not_aborts (h : m.HasChars addr chars) (hlen : chars.length ≤ 500)
    (hb : m.byteAfter addr chars = .error which) (ha : ¬Aborts isMain which) (fuel : ℕ) :
    copyLoop isMain addr fuel [] m = .error .outOfFuel := by
  by_contra hne
  obtain ⟨m₁, heq, hm₁⟩ := exists_copyLoop_eq isMain fuel h hlen
  rcases copyLoop_of_error isMain fuel ((byteAfter_congr hm₁ addr chars).trans hb) with
    ⟨ha', -⟩ | ⟨-, heq'⟩
  · exact ha ha'
  · rw [← copyLoop_add isMain chars.length hne, heq, heq'] at hne
    exact hne rfl

/-- The loop stops after finitely many iterations and stores inside its array. -/
def StopsInside (isMain : Bool) (m : Machine) (addr : Word) : Prop :=
  ∃ fuel, copyLoop isMain addr fuel [] m ≠ .error .outOfFuel ∧
    copyLoop isMain addr fuel [] m ≠ .error .undefined

theorem not_stopsInside_of_full (h : m.HasChars addr chars) (hlen : chars.length = 500)
    (hb : m.byteAfter addr chars = .ok b) : ¬StopsInside isMain m addr := by
  rintro ⟨fuel, hfuel, hinside⟩
  obtain ⟨fuel', heq⟩ := @exists_copyLoop_of_full isMain _ _ _ _ h hlen hb
  exact hinside (copyLoop_unique rfl heq hfuel (by simp))

theorem not_stopsInside_of_not_aborts (h : m.HasChars addr chars) (hlen : chars.length ≤ 500)
    (hb : m.byteAfter addr chars = .error which) (ha : ¬Aborts isMain which) :
    ¬StopsInside isMain m addr := fun ⟨fuel, hfuel, _⟩ =>
  hfuel (copyLoop_of_not_aborts h hlen hb ha fuel)

/-- The strings on which the loop can stop inside its array. -/
theorem exists_of_stopsInside (hs : StopsInside isMain m addr) : ∃ chars, m.HasChars addr chars ∧
    (chars.length < 500 ∧ m.byteAfter addr chars = .ok 0 ∨
      chars.length ≤ 500 ∧ ∃ which, m.byteAfter addr chars = .error which ∧
        Aborts isMain which) := by
  obtain ⟨chars, h, hlen⟩ | ⟨chars, h, hlen, hb | ⟨which, hb⟩⟩ := m.exists_hasChars addr 500
  · cases hb : m.byteAfter addr chars with
    | ok b => exact absurd hs (not_stopsInside_of_full h hlen hb)
    | error which =>
      by_cases ha : Aborts isMain which
      · exact ⟨chars, h, .inr ⟨hlen.le, which, hb, ha⟩⟩
      · exact absurd hs (not_stopsInside_of_not_aborts h hlen.le hb ha)
  · exact ⟨chars, h, .inl ⟨hlen, hb⟩⟩
  · by_cases ha : Aborts isMain which
    · exact ⟨chars, h, .inr ⟨hlen.le, which, hb, ha⟩⟩
    · exact absurd hs (not_stopsInside_of_not_aborts h hlen.le hb ha)

/-- The loop stops inside its array if and only if the string has fewer than 500 characters, or at
most 500 of which the one behind them raises an exception that ends the simulation. -/
theorem copyLoop_stops_iff (isMain : Bool) (m : Machine) (addr : Word) :
    StopsInside isMain m addr ↔ ∃ chars, m.HasChars addr chars ∧
      (chars.length < 500 ∧ m.byteAfter addr chars = .ok 0 ∨
        chars.length ≤ 500 ∧ ∃ which, m.byteAfter addr chars = .error which ∧
          Aborts isMain which) := by
  refine ⟨exists_of_stopsInside, ?_⟩
  rintro ⟨chars, h, ⟨hlen, hb⟩ | ⟨hlen, which, hb, ha⟩⟩
  · obtain ⟨fuel, m', heq⟩ := @exists_copyLoop_of_zero isMain _ _ _ h hlen hb
    exact ⟨fuel, by simp [heq], by simp [heq]⟩
  · obtain ⟨fuel, heq⟩ := exists_copyLoop_of_aborts h hlen hb ha
    exact ⟨fuel, by simp [heq], by simp [heq]⟩

/-- A process with an empty memory. -/
def noMemory : Machine where
  registers := ⟨fun _ => 0, 0, 0, 0, 4, 0, 0, 0, 0⟩
  pageTable := []
  mainMemory _ := 0

/-- A process with another name than `"main"` writes for ever if it cannot read the string. -/
theorem noMemory_not_stopsInside : ¬StopsInside false noMemory 0 :=
  not_stopsInside_of_not_aborts (.nil noMemory 0) (Nat.zero_le 500) rfl (by decide)

end Loop

/-! ### The output -/

section

variable {isMain : Bool} {m : Machine} {addr id : Word} {chars : List (BitVec 8)}

/-- The strings with which the loop ends. -/
theorem exists_copyLoop_iff : (∃ fuel m', copyLoop isMain addr fuel [] m = .ok (chars, m')) ↔
    m.HasChars addr chars ∧ chars.length < 500 ∧ m.byteAfter addr chars = .ok 0 := by
  constructor
  · rintro ⟨fuel, m', heq⟩
    have hs : StopsInside isMain m addr := ⟨fuel, by simp [heq], by simp [heq]⟩
    obtain ⟨chars', h, ⟨hlen, hb⟩ | ⟨hlen, which, hb, ha⟩⟩ := exists_of_stopsInside hs
    · obtain ⟨fuel', m'', heq'⟩ := @exists_copyLoop_of_zero isMain _ _ _ h hlen hb
      cases copyLoop_unique heq heq' (by simp) (by simp)
      exact ⟨h, hlen, hb⟩
    · obtain ⟨fuel', heq'⟩ := exists_copyLoop_of_aborts h hlen hb ha
      cases copyLoop_unique heq heq' (by simp) (by simp)
  · rintro ⟨h, hlen, hb⟩
    exact exists_copyLoop_of_zero h hlen hb

/-- `SC_Write` writes the bytes `bs` to the file with the number `id`. -/
def Writes (isMain : Bool) (m : Machine) (id : Word) (bs : List (BitVec 8)) : Prop :=
  ∃ fuel outputs m', write isMain fuel m = .ok (outputs, m') ∧ outputTo id outputs = bs

theorem writes_iff {bs : List (BitVec 8)} : Writes isMain m id bs ↔
    ∃ chars, m.HasChars (m.registers.gpr 4) chars ∧ chars.length < 500 ∧
      m.byteAfter (m.registers.gpr 4) chars = .ok 0 ∧
      outputTo id (output chars (m.registers.gpr 6)) = bs := by
  constructor
  · rintro ⟨fuel, outputs, m', hw, hbs⟩
    obtain ⟨⟨chars, m₁⟩, hloop, hw⟩ := bind_eq_ok.1 hw
    cases hw
    obtain ⟨h, hlen, hb⟩ := exists_copyLoop_iff.1 ⟨fuel, m₁, hloop⟩
    exact ⟨chars, h, hlen, hb, hbs⟩
  · rintro ⟨chars, h, hlen, hb, hbs⟩
    obtain ⟨fuel, m₁, hloop⟩ := (@exists_copyLoop_iff isMain _ _ _).2 ⟨h, hlen, hb⟩
    exact ⟨fuel, _, _, by rw [write, hloop]; rfl, hbs⟩

/-- A string that is not empty is written to its file. -/
theorem outputTo_output (h : 0 ∉ chars) (hne : chars ≠ []) (hid : 1 ≤ id.toInt) :
    outputTo id (output chars id) = chars := by
  have hall : ∀ c ∈ chars, (c != 0) = true := fun c hc => by
    rw [bne_iff_ne]
    exact fun h₀ => h (h₀ ▸ hc)
  have hstring : (chars ++ [0]).takeWhile (· != 0) = chars := by
    rw [List.takeWhile_append_of_pos hall]
    exact List.append_nil chars
  rw [output, if_neg (by simpa using hne), swrite]
  by_cases h₁ : id = 1
  · subst h₁
    rw [if_pos rfl, if_neg (by decide), hstring, outputTo]
    simp
  · have h₂ : id.toInt ≠ 1 := fun he => h₁ (BitVec.eq_of_toInt_eq he)
    rw [if_neg h₁, if_pos (by omega), outputTo]
    simp

/-- For an empty string there is a message on the terminal. -/
theorem outputTo_output_nil (id : Word) : outputTo id (output [] id) =
    if id = 1 then "\nWrite 0 byte.\n".toList.map fun c => BitVec.ofNat 8 c.toNat else [] := by
  by_cases h₁ : id = 1
  · subst h₁
    rfl
  · have hother : decide ((1 : Word) = id) = false := decide_eq_false (Ne.symm h₁)
    rw [if_neg h₁, output, if_pos List.length_nil, outputTo,
      List.filter_cons_of_neg (by rw [hother]; exact Bool.false_ne_true)]
    rfl

/-- `SC_Write` writes the bytes of a buffer if and only if there are fewer than 500 of them, none is
zero, the byte behind them is zero, and they are not the empty string for the terminal. -/
theorem write_outputs_iff (isMain : Bool) (m : Machine) (bs : List (BitVec 8))
    (hsize : (m.registers.gpr 5).toInt = bs.length) (hid : 1 ≤ (m.registers.gpr 6).toInt)
    (hread : ∀ j (h : j < bs.length),
      m.userByte (m.registers.gpr 4 + BitVec.ofNat 32 j) = .ok (bs.get ⟨j, h⟩)) :
    Writes isMain m (m.registers.gpr 6) bs ↔ 0 ∉ bs ∧ bs.length < 500 ∧
      m.byteAfter (m.registers.gpr 4) bs = .ok 0 ∧ ¬(bs = [] ∧ m.registers.gpr 6 = 1) := by
  rw [writes_iff]
  constructor
  · rintro ⟨chars, h, hlen, hb, hout⟩
    by_cases hne : chars = []
    · subst hne
      rw [outputTo_output_nil] at hout
      split_ifs at hout with h₁
      · -- the message begins with another byte than the buffer
        have hfirst := hread 0 (by rw [← hout]; decide)
        rw [byteAfter, List.length_nil, hfirst] at hb
        subst hout
        exact absurd hb (by decide)
      · subst hout
        exact ⟨List.not_mem_nil, hlen, hb, fun hc => h₁ hc.2⟩
    · rw [outputTo_output h.nonzero hne hid] at hout
      subst hout
      exact ⟨h.nonzero, hlen, hb, fun hc => hne hc.1⟩
  · rintro ⟨h₀, hlen, hb, hne⟩
    refine ⟨bs, ⟨hread, h₀⟩, hlen, hb, ?_⟩
    by_cases hbs : bs = []
    · subst hbs
      rw [outputTo_output_nil, if_neg fun h₁ => hne ⟨rfl, h₁⟩]
    · exact outputTo_output h₀ hbs hid

/-- A process whose memory begins with `bs` asks to write `size` bytes at address 0 to the
terminal. -/
def writesTerminal (bs : List (BitVec 8)) (size : Word) : Machine where
  registers := ⟨fun r => if r = 5 then size else if r = 6 then 1 else 0, 0, 0, 0, 4, 0, 0, 0, 0⟩
  pageTable := [⟨0, 0, true, false, false, false⟩]
  mainMemory a := bs.getD a 0

/-- The byte `a`, which a zero follows, is written. -/
theorem write_outputs_one : Writes false (writesTerminal [97] 1) 1 [97] :=
  (write_outputs_iff false (writesTerminal [97] 1) [97] (by decide) (by decide) (by decide)).2
    ⟨by decide, by decide, by decide, by decide⟩

/-- Of the bytes `a`, 0 and `b` only the first one is written. -/
theorem writesTerminal_stops_at_zero :
    ¬Writes false (writesTerminal [97, 0, 98] 3) 1 [97, 0, 98] := by
  rw [writes_iff]
  rintro ⟨chars, h, -, hb, hout⟩
  by_cases hne : chars = []
  · subst hne
    exact absurd hb (by decide)
  · rw [show (writesTerminal [97, 0, 98] 3).registers.gpr 6 = 1 from rfl,
      outputTo_output h.nonzero hne (by decide)] at hout
    exact h.nonzero (by simp [hout])

end

end Nachos.UserProg
