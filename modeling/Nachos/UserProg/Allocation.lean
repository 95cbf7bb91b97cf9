import Nachos.Foundations.Loop
import Nachos.UserProg.BitMap

/-!
# The three allocation policies

`AddrSpace::FirstFit`, `BestFit` and `WorstFit` look in `MainMemMap` for `numPages` consecutive
free frames. All three scan the bitmap with an outer loop over `index` and an inner loop that
extends the current chunk of free frames; when a chunk reaches the end of memory, `index` is set
back to 0 and `EndOfMem` stops the inner loop from then on. `BestFit` and `WorstFit` differ in one
comparison, so they are one scan with the comparison as a parameter.

The number of physical frames is a parameter, the number of bits of the bitmap.

## Main definitions

* `Scan`: the local variables of a scan.
* `firstFit`, `bestFit`, `worstFit`, `memoryAllocation`.
* `IsFreeRun`: a range of free frames.

## Main results

* `memoryAllocation_spec`: every policy ends without a failed assertion, and the range it finds
  consists of free frames.
-/

namespace Nachos.UserProg

open Foundations

/-- The local variables of `FirstFit`, `BestFit` and `WorstFit`, and the members `SpaceFound` and
`StartHere` that they set. `bestChunk` is `worstChunk` in `WorstFit`, and unused in `FirstFit`. -/
structure Scan where
  chunk : ℕ := 0
  bestChunk : ℕ := 0
  index : ℕ := 0
  startingAddress : ℕ := 0
  endOfMem : Bool := false
  spaceFound : Bool := false
  startHere : ℕ := 0

namespace Scan

variable {n : ℕ}

/-- Take the frame `index` into the chunk. -/
def take (s : Scan) : Scan :=
  if s.chunk = 0 then { s with chunk := 1, startingAddress := s.index }
  else { s with chunk := s.chunk + 1 }

/-- Move on to the next frame. -/
def advance (n : ℕ) (s : Scan) : Scan :=
  -- index 0 is a bit number that `Test` accepts
  if n ≤ s.index + 1 then { s with endOfMem := true, index := 0 }
  else { s with index := s.index + 1 }

/-- `!MainMemMap->Test(index) && !EndOfMem`. -/
def canExtend (map : BitMap n) (s : Scan) : Except Fault Bool :=
  match map.test s.index with
  | .error e => .error e
  | .ok b => .ok (!b && !s.endOfMem)

/-- Record the chunk in `BestFit` (`better` is `<`) or `WorstFit` (`better` is `>`). -/
def record (better : ℕ → ℕ → Bool) (numPages : ℕ) (s : Scan) : Scan :=
  if numPages ≤ s.chunk then
    if s.bestChunk = 0 then { s with bestChunk := s.chunk, startHere := s.startingAddress }
    else if better s.chunk s.bestChunk then
      { s with bestChunk := s.chunk, startHere := s.startingAddress }
    else s
  else s

/-- The inner loop, whose body ends with `note`. -/
def fillChunk (map : BitMap n) (note : Scan → Scan) (s : Scan) : Except Fault Scan :=
  whileLoop .outOfFuel (canExtend map) (fun s => .ok (note (s.take.advance n))) (2 * n + 2) s

/-- The outer loop, whose body ends with `decide`. -/
def scan (map : BitMap n) (note decide : Scan → Scan) : Except Fault Scan :=
  whileLoop .outOfFuel (fun s => .ok (!s.spaceFound && s.index < n))
    (fun s => (fillChunk map note s).map decide) (2 * n + 2) {}

/-- The chunk is too small: start again with the next frame. -/
def next (s : Scan) : Scan := { s with chunk := 0, index := s.index + 1 }

end Scan

variable {n : ℕ}

/-- `AddrSpace::FirstFit`. The source returns as soon as a chunk is large enough; what it
executes when it does not return there finds the same range then. -/
def firstFit (map : BitMap n) (numPages : ℕ) : Except Fault Scan :=
  (Scan.scan map id fun s =>
    if numPages ≤ s.chunk then { s with spaceFound := true, startHere := s.startingAddress }
    else s.next).map fun s =>
  let s := if numPages ≤ s.chunk then { s with spaceFound := true } else s
  if s.spaceFound then { s with startHere := s.startingAddress } else s

/-- The body of `BestFit` and `WorstFit`. -/
def fit (better : ℕ → ℕ → Bool) (map : BitMap n) (numPages : ℕ) : Except Fault Scan :=
  Scan.scan map (Scan.record better numPages) fun s =>
    if numPages ≤ s.bestChunk ∧ s.endOfMem then { s with spaceFound := true } else s.next

/-- `AddrSpace::BestFit`. -/
def bestFit (map : BitMap n) (numPages : ℕ) : Except Fault Scan :=
  fit (fun chunk bestChunk => chunk < bestChunk) map numPages

/-- `AddrSpace::WorstFit`. -/
def worstFit (map : BitMap n) (numPages : ℕ) : Except Fault Scan :=
  fit (fun chunk worstChunk => chunk > worstChunk) map numPages

/-- The values of `MemAll` that `MemAlloAlgSelect` returns. -/
inductive MemAll
  | firstFit
  | bestFit
  | worstFit
  deriving DecidableEq, Repr

/-- `AddrSpace::MemoryAllocation`: the range that has been found, if any. -/
def memoryAllocation (i : MemAll) (map : BitMap n) (numPages : ℕ) : Except Fault Scan :=
  match i with
  | .firstFit => firstFit map numPages
  | .bestFit => bestFit map numPages
  | .worstFit => worstFit map numPages

/-! ### Correctness -/

/-- The frames from `start` on, `len` of them, exist and are free. -/
def IsFreeRun (map : BitMap n) (start len : ℕ) : Prop :=
  ∀ i < len, start + i < n ∧ map.isSet (start + i) = false

theorem IsFreeRun.zero (map : BitMap n) (start : ℕ) : IsFreeRun map start 0 := nofun

theorem IsFreeRun.mono {map : BitMap n} {start len len' : ℕ} (h : IsFreeRun map start len)
    (hle : len' ≤ len) : IsFreeRun map start len' :=
  fun i hi => h i (by omega)

theorem IsFreeRun.succ {map : BitMap n} {start len : ℕ} (h : IsFreeRun map start len)
    (hlt : start + len < n) (hfree : map.isSet (start + len) = false) :
    IsFreeRun map start (len + 1) := by
  intro i hi
  by_cases hil : i = len
  · subst hil
    exact ⟨hlt, hfree⟩
  · exact h i (by omega)

namespace Scan

variable {map : BitMap n} {numPages : ℕ} {s : Scan}

/-- What the loops of a scan keep: the chunk and the recorded range are free. -/
structure Valid (map : BitMap n) (numPages : ℕ) (s : Scan) : Prop where
  chunk : IsFreeRun map s.startingAddress s.chunk
  adjacent : s.chunk ≠ 0 → s.endOfMem = false → s.startingAddress + s.chunk = s.index
  recorded : s.bestChunk ≠ 0 → IsFreeRun map s.startHere numPages
  notFound : s.spaceFound = false

/-- The number of frames that the scan still has to visit, at most. -/
def remaining (n : ℕ) (s : Scan) : ℕ := n - s.index + if s.endOfMem then 0 else n

theorem remaining_le (n : ℕ) (s : Scan) : s.remaining n ≤ 2 * n := by
  unfold remaining
  split_ifs <;> omega

theorem valid_initial (map : BitMap n) (numPages : ℕ) : ({} : Scan).Valid map numPages :=
  ⟨IsFreeRun.zero map _, fun hc => absurd rfl hc, fun hc => absurd rfl hc, rfl⟩

theorem Valid.next (h : s.Valid map numPages) : s.next.Valid map numPages :=
  ⟨IsFreeRun.zero map _, fun hc => absurd rfl hc, h.recorded, h.notFound⟩

/-- Taking a free frame lengthens the chunk; nothing else changes. -/
theorem Valid.take_chunk (h : s.Valid map numPages) (hi : s.index < n) (he : s.endOfMem = false)
    (hfree : map.isSet s.index = false) :
    IsFreeRun map s.take.startingAddress s.take.chunk ∧
      s.take.startingAddress + s.take.chunk = s.index + 1 := by
  unfold Scan.take
  split_ifs with hc
  · exact ⟨(IsFreeRun.zero map s.index).succ hi hfree, rfl⟩
  · have hadj := h.adjacent hc he
    exact ⟨h.chunk.succ (hadj ▸ hi) (hadj ▸ hfree), by simp only; omega⟩

theorem take_eq (s : Scan) : s.take =
    { s with chunk := s.take.chunk, startingAddress := s.take.startingAddress } := by
  unfold take
  split_ifs <;> rfl

/-- The body of the inner loop, before a chunk is recorded. -/
theorem Valid.extend (h : s.Valid map numPages) (hi : s.index < n) (he : s.endOfMem = false)
    (hfree : map.isSet s.index = false) :
    (s.take.advance n).Valid map numPages ∧ (s.take.advance n).index < n ∧
      (s.take.advance n).remaining n < s.remaining n := by
  obtain ⟨hrun, hadj⟩ := h.take_chunk hi he hfree
  rw [take_eq]
  unfold Scan.advance
  split_ifs with hn
  · refine ⟨⟨hrun, fun _ h' => ?_, h.recorded, h.notFound⟩, ?_, ?_⟩
    · simp at h'
    · simp only
      omega
    · simp [remaining, he]
      omega
  · refine ⟨⟨hrun, fun _ _ => hadj, h.recorded, h.notFound⟩, ?_, ?_⟩
    · simp only at hn ⊢
      omega
    · simp [remaining, he] at hn ⊢
      omega

theorem Valid.record (h : s.Valid map numPages) (better : ℕ → ℕ → Bool) :
    (s.record better numPages).Valid map numPages := by
  unfold Scan.record
  split_ifs with hle h₀ hb
  · exact ⟨h.chunk, h.adjacent, fun _ => h.chunk.mono hle, h.notFound⟩
  · exact ⟨h.chunk, h.adjacent, fun _ => h.chunk.mono hle, h.notFound⟩
  · exact h
  · exact h

theorem record_eq (better : ℕ → ℕ → Bool) (numPages : ℕ) (s : Scan) :
    s.record better numPages =
      { s with bestChunk := (s.record better numPages).bestChunk
               startHere := (s.record better numPages).startHere } := by
  unfold record
  split_ifs <;> rfl

/-- The inner loop ends without a failed assertion, if the end of its body keeps what the scan
relies on. -/
theorem Valid.fillChunk {note : Scan → Scan} (hnote : ∀ s, s.Valid map numPages →
      (note s).Valid map numPages ∧ (note s).index = s.index ∧ (note s).endOfMem = s.endOfMem)
    (h : s.Valid map numPages) (hi : s.index < n) :
    ∃ s', Scan.fillChunk map note s = .ok s' ∧ s'.Valid map numPages ∧ s'.index < n ∧
      s'.remaining n ≤ s.remaining n := by
  have hloop : ∃ s', Scan.fillChunk map note s = .ok s' ∧
      (s'.Valid map numPages ∧ s'.index < n ∧ s'.remaining n ≤ s.remaining n) ∧
      canExtend map s' = .ok false := by
    refine whileLoop_spec
      (fun s' => s'.Valid map numPages ∧ s'.index < n ∧ s'.remaining n ≤ s.remaining n)
      (remaining n) ?_ ?_ ⟨h, hi, Nat.le_refl _⟩ ?_
    · rintro s' ⟨-, hlt, -⟩
      exact ⟨_, by rw [canExtend, BitMap.test_of_lt _ hlt]⟩
    · rintro s' ⟨hv, hlt, hle⟩ hc
      have hc' : map.isSet s'.index = false ∧ s'.endOfMem = false := by
        simpa [canExtend, BitMap.test_of_lt _ hlt] using hc
      obtain ⟨hv', hlt', hμ⟩ := hv.extend hlt hc'.2 hc'.1
      obtain ⟨hv'', hindex, hend⟩ := hnote _ hv'
      have hrem : (note (s'.take.advance n)).remaining n = (s'.take.advance n).remaining n := by
        simp only [remaining, hindex, hend]
      exact ⟨_, rfl, ⟨hv'', by omega, by omega⟩, by omega⟩
    · have := s.remaining_le n
      omega
  obtain ⟨s', hs', hv, -⟩ := hloop
  exact ⟨s', hs', hv⟩

/-- A scan ends without a failed assertion, if the end of the body of the outer loop either moves
on or finds a range of which `found` holds. -/
theorem scan_spec (found : Scan → Prop) (note decide : Scan → Scan)
    (hnote : ∀ s, s.Valid map numPages →
      (note s).Valid map numPages ∧ (note s).index = s.index ∧ (note s).endOfMem = s.endOfMem)
    (hdecide : ∀ s, s.Valid map numPages →
      (decide s).spaceFound = true ∧ found (decide s) ∨ decide s = s.next) :
    ∃ s', scan map note decide = .ok s' ∧
      (s'.Valid map numPages ∨ s'.spaceFound = true ∧ found s') := by
  have hloop : ∃ s', scan map note decide = .ok s' ∧
      (s'.Valid map numPages ∨ s'.spaceFound = true ∧ found s') ∧
      Except.ok (!s'.spaceFound && s'.index < n) = (Except.ok false : Except Fault Bool) := by
    refine whileLoop_spec
      (fun s : Scan => s.Valid map numPages ∨ s.spaceFound = true ∧ found s)
      (fun s => if s.spaceFound then 0 else s.remaining n + 1) (fun s _ => ⟨_, rfl⟩) ?_
      (.inl (valid_initial map numPages)) ?_
    · intro s hs hc
      have hc' : s.spaceFound = false ∧ s.index < n := by simpa using hc
      have hv : s.Valid map numPages := hs.resolve_right (by simp [hc'.1])
      obtain ⟨s₁, hs₁, hv₁, hlt, hle⟩ := hv.fillChunk hnote hc'.2
      refine ⟨decide s₁, by rw [hs₁]; rfl, ?_, ?_⟩
      · rcases hdecide s₁ hv₁ with hd | hd
        · exact .inr hd
        · rw [hd]
          exact .inl hv₁.next
      · rcases hdecide s₁ hv₁ with hd | hd
        · simp [hd.1, hc'.1]
        · have hrem : (decide s₁).remaining n < s₁.remaining n := by
            rw [hd]
            change n - (s₁.index + 1) + (if s₁.endOfMem then 0 else n) < s₁.remaining n
            simp only [remaining]
            omega
          simp only [hc'.1, Bool.false_eq_true, if_false]
          split_ifs <;> omega
    · have := remaining_le n {}
      change remaining n {} + 1 < 2 * n + 2
      omega
  obtain ⟨s', hs', h, -⟩ := hloop
  exact ⟨s', hs', h⟩

end Scan

/-- What an allocation returns: it ends without a failed assertion, and a range that it finds is
free. -/
def Allocates (map : BitMap n) (numPages : ℕ) (r : Except Fault Scan) : Prop :=
  ∃ s, r = .ok s ∧ (s.spaceFound = true → IsFreeRun map s.startHere numPages)

theorem firstFit_spec (map : BitMap n) (numPages : ℕ) :
    Allocates map numPages (firstFit map numPages) := by
  obtain ⟨s, hs, h⟩ := Scan.scan_spec
    (fun s => numPages ≤ s.chunk ∧ IsFreeRun map s.startingAddress s.chunk) id
    (fun s => if numPages ≤ s.chunk then
        { s with spaceFound := true, startHere := s.startingAddress } else s.next)
    (fun s (hs : s.Valid map numPages) => ⟨hs, rfl, rfl⟩) fun s hs => by
      split_ifs with hle
      · exact .inl ⟨rfl, hle, hs.chunk⟩
      · exact .inr rfl
  refine ⟨_, by rw [firstFit, hs]; rfl, ?_⟩
  by_cases hle : numPages ≤ s.chunk
  · have hrun : IsFreeRun map s.startingAddress s.chunk := h.elim Scan.Valid.chunk fun h => h.2.2
    simpa [hle] using hrun.mono hle
  · have hnf : s.spaceFound = false := h.elim Scan.Valid.notFound fun h => absurd h.2.1 hle
    simp [hle, hnf]

theorem fit_spec (better : ℕ → ℕ → Bool) (map : BitMap n) (numPages : ℕ) :
    Allocates map numPages (fit better map numPages) := by
  obtain ⟨s, hs, h⟩ := Scan.scan_spec (fun s => IsFreeRun map s.startHere numPages)
    (Scan.record better numPages)
    (fun s => if numPages ≤ s.bestChunk ∧ s.endOfMem then { s with spaceFound := true }
      else s.next)
    (fun s (hs : s.Valid map numPages) =>
      ⟨hs.record better, by rw [Scan.record_eq], by rw [Scan.record_eq]⟩) fun s hs => by
      split_ifs with hle
      · refine .inl ⟨rfl, ?_⟩
        by_cases hb : s.bestChunk = 0
        · obtain rfl : numPages = 0 := by omega
          exact IsFreeRun.zero map _
        · exact hs.recorded hb
      · exact .inr rfl
  refine ⟨s, hs, fun hf => ?_⟩
  exact h.elim (fun hv => by simp [hv.notFound] at hf) And.right

/-- Every policy ends without a failed assertion, and finds only free frames. -/
theorem memoryAllocation_spec (i : MemAll) (map : BitMap n) (numPages : ℕ) :
    Allocates map numPages (memoryAllocation i map numPages) := by
  cases i with
  | firstFit => exact firstFit_spec map numPages
  | bestFit => exact fit_spec _ map numPages
  | worstFit => exact fit_spec _ map numPages

end Nachos.UserProg
