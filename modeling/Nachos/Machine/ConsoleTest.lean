import Nachos.Machine.Console

/-!
# What `ConsoleTest` prints

`ConsoleTest` of `userprog/progtest.cc` echoes the bytes that `GetChar` returns, up to the first
`q`. Each byte is put when the one before has been written, so that `PutChar` is never called while
the console is busy.

## Main definitions

* `EchoHistory`: the bytes that were read, returned and put.
* `TestState.Echoes`: what has been put, by the point that `ConsoleTest` has reached.

## Main results

* `consoleTest_echoes`: what holds in every run.
-/

namespace Nachos

open Foundations

/-- The byte at which `ConsoleTest` stops. -/
def quit : BitVec 8 := BitVec.ofNat 8 'q'.toNat

/-- What happened so far. The source keeps none of this. -/
structure EchoHistory where
  keys : ConsoleHistory
  /-- The bytes that `PutChar` has written. -/
  put : List (BitVec 8)

namespace TestState

/-- What an input adds. -/
def recordEcho (s : TestState) (input : TestInput) (h : EchoHistory) : EchoHistory where
  keys := s.record input h.keys
  put :=
    match input with
    | .thread =>
      match s.point with
      | .putChar ch => h.put ++ [ch]
      | _ => h.put
    | .poll _ | .writeDone => h.put

/-- What `GetChar` has returned and `PutChar` has written, by the point that `ConsoleTest` has
reached. The console is busy only while `ConsoleTest` waits for it. -/
def Echoes (s : TestState) (returned put : List (BitVec 8)) : Prop :=
  match s.point with
  | .awaitRead | .getChar =>
    returned = put ∧ quit ∉ put ∧ s.console.putBusy = false ∧ s.writeDone = 0
  | .putChar ch =>
    returned = put ++ [ch] ∧ quit ∉ put ∧ s.console.putBusy = false ∧ s.writeDone = 0
  | .awaitWrite ch =>
    returned = put ∧ (∃ rest, put = rest ++ [ch] ∧ quit ∉ rest) ∧
      s.writeDone = if s.console.putBusy then 0 else 1
  | .returned =>
    returned = put ∧ (∃ rest, put = rest ++ [quit] ∧ quit ∉ rest) ∧
      s.console.putBusy = false ∧ s.writeDone = 0

end TestState

/-- `ConsoleTest` with what happened. -/
abbrev echoSystem : StepSystem (TestState × EchoHistory) TestInput Fault :=
  testSystem.withHistory TestState.recordEcho ⟨.start, []⟩

theorem init_echoSystem : echoSystem.init (⟨.new, 0, 0, .awaitRead⟩, ⟨.start, []⟩) := ⟨rfl, rfl⟩

namespace TestState

variable {s s' : TestState} {keyboard : Keyboard} {h : EchoHistory}

/-- A poll returns nothing. -/
theorem returned_record_poll (s : TestState) (keyboard : Keyboard) (keys : ConsoleHistory) :
    (s.record (.poll keyboard) keys).returned = keys.returned := by
  rcases ConsoleHistory.record_poll s.client keyboard keys with he | ⟨ch, -, he⟩ <;>
    simp only [record, event, he, ConsoleHistory.put]

theorem Echoes.poll (hs : s.step (.poll keyboard) = .ok s') {returned put : List (BitVec 8)}
    (he : s.Echoes returned put) : s'.Echoes returned put := by
  obtain ⟨⟨c', called⟩, hcheck, rfl⟩ := map_eq_ok.1 hs
  have hbusy : c'.putBusy = s.console.putBusy := by
    rcases Console.checkCharAvail_cases hcheck with ⟨rfl, -, -⟩ | ⟨ch, -, -, rfl, -⟩ <;> rfl
  unfold Echoes at he ⊢
  simpa only [hbusy] using he

/-- The interrupt of a write occurs only while `ConsoleTest` waits for it. -/
theorem Echoes.writeDone (hs : s.step .writeDone = .ok s') {returned put : List (BitVec 8)}
    (he : s.Echoes returned put) : s'.Echoes returned put := by
  simp only [step] at hs
  split_ifs at hs with hbusy
  obtain rfl := Except.ok.inj hs
  unfold Echoes at he ⊢
  cases hpoint : s.point with
  | awaitWrite ch =>
    simp only [hpoint, hbusy, if_true] at he
    simp only [Console.writeDone, he.2.2]
    exact ⟨he.1, he.2.1, rfl⟩
  | awaitRead => simp [hpoint, hbusy] at he
  | getChar => simp [hpoint, hbusy] at he
  | putChar ch => simp [hpoint, hbusy] at he
  | returned => simp [hpoint, hbusy] at he

theorem Echoes.thread (hs : s.step .thread = .ok s')
    (he : s.Echoes h.keys.returned h.put) :
    s'.Echoes (s.recordEcho .thread h).keys.returned (s.recordEcho .thread h).put := by
  simp only [step, TestState.thread] at hs
  unfold Echoes at he
  cases hpoint : s.point with
  | awaitRead =>
    simp only [hpoint] at hs he
    split_ifs at hs
    obtain rfl := Except.ok.inj hs
    simpa [Echoes, recordEcho, record, event, hpoint] using he
  | getChar =>
    simp only [hpoint] at hs he
    obtain rfl := Except.ok.inj hs
    obtain ⟨hput, hquit, hbusy, hdone⟩ := he
    simp only [Echoes, recordEcho, record, event, hpoint, if_true, ConsoleHistory.record,
      ConsoleHistory.fetch, hput]
    exact ⟨rfl, hquit, hbusy, hdone⟩
  | putChar ch =>
    simp only [hpoint] at hs he
    obtain ⟨console, hput, rfl⟩ := map_eq_ok.1 hs
    simp only [Console.putChar] at hput
    split_ifs at hput
    obtain rfl := Except.ok.inj hput
    obtain ⟨hput, hquit, -, hdone⟩ := he
    simp only [Echoes, recordEcho, record, event, hpoint]
    exact ⟨hput, ⟨h.put, rfl, hquit⟩, hdone⟩
  | awaitWrite ch =>
    simp only [hpoint] at hs he
    split_ifs at hs with hzero hch
    all_goals
      obtain rfl := Except.ok.inj hs
      obtain ⟨hreturned, ⟨rest, hput, hquit⟩, hdone⟩ := he
      have hbusy : s.console.putBusy = false := by
        by_contra hbusy
        rw [Bool.not_eq_false] at hbusy
        exact hzero (by simpa [hbusy] using hdone)
      rw [hbusy, if_neg Bool.false_ne_true] at hdone
      simp only [Echoes, recordEcho, record, event, hpoint]
    · exact ⟨hreturned, ⟨rest, by rw [hput, hch]; rfl, hquit⟩, hbusy, by simp [hdone]⟩
    · refine ⟨hreturned, fun hmem => ?_, hbusy, by simp [hdone]⟩
      rw [hput, List.mem_append, List.mem_singleton] at hmem
      exact hmem.elim hquit fun h' => hch h'.symm
  | returned =>
    simp only [hpoint] at hs
    cases hs

theorem echoes_of_step {s s' : TestState × EchoHistory} {input : TestInput}
    (he : s.1.Echoes s.2.keys.returned s.2.put) (hs : echoSystem.step s input = .ok s') :
    s'.1.Echoes s'.2.keys.returned s'.2.put := by
  obtain ⟨hstep, hrecord⟩ := StepSystem.withHistory_step hs
  rw [hrecord]
  cases input with
  | poll keyboard =>
    rw [recordEcho, returned_record_poll]
    exact he.poll hstep
  | writeDone => exact he.writeDone hstep
  | thread => exact he.thread hstep

end TestState

/-! ### What `Echoes` says -/

namespace TestState.Echoes

variable {s : TestState} {returned put : List (BitVec 8)}

theorem returned_eq (h : s.Echoes returned put) :
    returned = put ∨ ∃ ch, s.point = .putChar ch ∧ returned = put ++ [ch] := by
  unfold Echoes at h
  cases hpoint : s.point with
  | putChar ch => exact .inr ⟨ch, rfl, (hpoint ▸ h).1⟩
  | awaitRead => exact .inl (hpoint ▸ h).1
  | getChar => exact .inl (hpoint ▸ h).1
  | awaitWrite ch => exact .inl (hpoint ▸ h).1
  | returned => exact .inl (hpoint ▸ h).1

/-- The console is not busy. -/
theorem putChar (h : s.Echoes returned put) {ch : BitVec 8} (hpoint : s.point = .putChar ch) :
    ∃ s', s.step .thread = .ok s' := by
  unfold Echoes at h
  rw [hpoint] at h
  simp only [step, TestState.thread, hpoint, Console.putChar, h.2.2.1, Bool.false_eq_true, if_false]
  exact ⟨_, rfl⟩

/-- Either the write has ended, or its interrupt is to come. -/
theorem awaitWrite (h : s.Echoes returned put) {ch : BitVec 8} (hpoint : s.point = .awaitWrite ch) :
    (∃ s', s.step .thread = .ok s') ∨ ∃ s', s.step .writeDone = .ok s' := by
  unfold Echoes at h
  rw [hpoint] at h
  obtain ⟨-, -, hdone⟩ := h
  by_cases hbusy : s.console.putBusy = true
  · exact .inr ⟨_, if_pos hbusy⟩
  · rw [if_neg hbusy] at hdone
    simp only [step, TestState.thread, hpoint, hdone, Nat.one_ne_zero, if_false]
    exact .inl ⟨_, rfl⟩

theorem quit_notMem (h : s.Echoes returned put) : quit ∉ put.dropLast := by
  unfold Echoes at h
  cases hpoint : s.point with
  | putChar ch => exact fun hmem => (hpoint ▸ h).2.1 (List.dropLast_subset _ hmem)
  | awaitRead => exact fun hmem => (hpoint ▸ h).2.1 (List.dropLast_subset _ hmem)
  | getChar => exact fun hmem => (hpoint ▸ h).2.1 (List.dropLast_subset _ hmem)
  | awaitWrite ch =>
    obtain ⟨-, ⟨rest, rfl, hrest⟩, -⟩ := hpoint ▸ h
    rwa [List.dropLast_concat]
  | returned =>
    obtain ⟨-, ⟨rest, rfl, hrest⟩, -⟩ := hpoint ▸ h
    rwa [List.dropLast_concat]

theorem getLast? (h : s.Echoes returned put) (hpoint : s.point = .returned) :
    put.getLast? = some quit := by
  unfold Echoes at h
  rw [hpoint] at h
  obtain ⟨-, ⟨rest, rfl, -⟩, -⟩ := h
  exact List.getLast?_concat

end TestState.Echoes

/-! ### Runs -/

/-- What holds in every run. Of the input nothing is lost unless a byte was overwritten. -/
structure EchoInvariant (s : TestState × EchoHistory) : Prop where
  echoes : s.1.Echoes s.2.keys.returned s.2.put
  keys : s.2.keys.overwritten = false → ConsoleInvariant (s.1.client, s.2.keys)

/-- Once a byte has been overwritten, the history says so. -/
theorem overwritten_of_record {c : ConsoleClient} {e : ConsoleEvent} {h : ConsoleHistory}
    (ho : (ConsoleHistory.record c e h).overwritten = false) : h.overwritten = false := by
  cases e with
  | poll keyboard =>
    rcases ConsoleHistory.record_poll c keyboard h with he | ⟨ch, -, he⟩ <;> rw [he] at ho
    · exact ho
    · exact (Bool.or_eq_false_iff.1 ho).1
  | getChar => exact ho

theorem overwritten_record {s : ConsoleClient × ConsoleHistory} (h : ConsoleInvariant s)
    {e : ConsoleEvent} (hover : s.1.Overwrites e) :
    (ConsoleHistory.record s.1 e s.2).overwritten = true := by
  obtain ⟨hpos, heof, ch, rfl⟩ := hover
  rw [h.unanswered, List.length_pos_iff, ne_eq, Option.toList_eq_nil_iff, ← ne_eq,
    Option.ne_none_iff_isSome] at hpos
  simp [ConsoleHistory.record, Console.checkCharAvail_byte heof, ConsoleHistory.put, hpos]

theorem EchoInvariant.step {s s' : TestState × EchoHistory} {input : TestInput}
    (h : EchoInvariant s) (hs : echoSystem.step s input = .ok s') : EchoInvariant s' := by
  refine ⟨TestState.echoes_of_step h.echoes hs, fun hkept => ?_⟩
  obtain ⟨htest, hrecord⟩ := StepSystem.withHistory_step hs
  have hkeys : s'.2.keys = s.1.record input s.2.keys := by rw [hrecord]; rfl
  rw [hkeys] at hkept ⊢
  unfold TestState.record at hkept ⊢
  cases he : s.1.event input with
  | none =>
    rw [he] at hkept
    rw [TestState.client_of_no_event he htest]
    exact h.keys hkept
  | some e =>
    rw [he] at hkept
    have hinv := h.keys (overwritten_of_record hkept)
    have hnot : ¬s.1.client.Overwrites e := fun hover => by
      simp [overwritten_record hinv hover] at hkept
    have hclient : consoleSystem.step s.1.client e = _ := TestState.client_of_event he htest
    have hstep : keystrokes.step (s.1.client, s.2.keys) e =
        .ok (s'.1.client, ConsoleHistory.record s.1.client e s.2.keys) := by
      simp only [keystrokes, StepSystem.withHistory, hclient, map_ok]
    cases e with
    | poll keyboard => exact hinv.poll hstep hnot
    | getChar => exact hinv.getChar hstep

theorem echoInvariant_of_reachable {C : TestState × EchoHistory → TestInput → Prop}
    {s : TestState × EchoHistory} (h : echoSystem.Reachable C s) : EchoInvariant s := by
  refine h.invariant EchoInvariant (fun s hs => ?_) fun s input s' hs _ hstep => hs.step hstep
  obtain ⟨test, history⟩ := s
  obtain ⟨rfl, rfl⟩ : test = ⟨.new, 0, 0, .awaitRead⟩ ∧ history = ⟨.start, []⟩ := hs
  exact ⟨⟨rfl, List.not_mem_nil, rfl, rfl⟩, fun _ => .start⟩

/-- **`ConsoleTest` echoes what is typed.** What has been put is what `GetChar` has returned, but
for the last byte, which is about to be put; and it is what was typed, up to some point, unless a
byte was overwritten in the buffer of the console. `PutChar` is never called while the console is
busy, and `ConsoleTest` waits for a write only if an interrupt is to come or has come. It stops when
it has put the first `q`. -/
theorem consoleTest_echoes {s : TestState × EchoHistory}
    (h : echoSystem.Reachable StepSystem.Always s) :
    (s.2.keys.returned = s.2.put ∨
        ∃ ch, s.1.point = .putChar ch ∧ s.2.keys.returned = s.2.put ++ [ch]) ∧
      (s.2.keys.overwritten = false → s.2.put <+: s.2.keys.read) ∧
      (∀ ch, s.1.point = .putChar ch → ∃ s', s.1.step .thread = .ok s') ∧
      (∀ ch, s.1.point = .awaitWrite ch →
        (∃ s', s.1.step .thread = .ok s') ∨ ∃ s', s.1.step .writeDone = .ok s') ∧
      quit ∉ s.2.put.dropLast ∧
      (s.1.point = .returned → s.2.put.getLast? = some quit) := by
  obtain ⟨hechoes, hkeys⟩ := echoInvariant_of_reachable h
  refine ⟨hechoes.returned_eq, fun hkept => ?_, fun ch => hechoes.putChar,
    fun ch => hechoes.awaitWrite, hechoes.quit_notMem, hechoes.getLast?⟩
  refine .trans ?_ (hkeys hkept).keepsKeystrokes.1
  rcases hechoes.returned_eq with heq | ⟨ch, -, heq⟩
  · rw [heq]
  · rw [heq]
    exact List.prefix_append _ _

/-- The bytes `h`, `q` and `x` are typed, and the last one is not read. -/
theorem consoleTest_echoes_example : ∃ s : TestState × EchoHistory,
    s.2.put = [0x68, 0x71] ∧ s.2.put <+: s.2.keys.read ∧ s.2.put.getLast? = some quit := by
  obtain ⟨s, hs, hstate⟩ := StepSystem.exists_reachable_of_runInputs init_echoSystem
    [.poll (.byte 0x68), .thread, .thread, .thread, .writeDone, .thread, .poll (.byte 0x71),
      .thread, .thread, .thread, .writeDone, .thread, .poll (.byte 0x78)]
    (fun s => s.2.put = [0x68, 0x71] ∧ s.2.keys.overwritten = false ∧ s.1.point = .returned)
    (by decide)
  obtain ⟨hput, hkept, hpoint⟩ := of_decide_eq_true hstate
  obtain ⟨-, hecho, -, -, -, hlast⟩ := consoleTest_echoes hs
  exact ⟨s, hput, hecho hkept, hlast hpoint⟩

end Nachos
