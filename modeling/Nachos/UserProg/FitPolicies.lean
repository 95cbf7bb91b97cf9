import Mathlib.Order.Bounds.Basic
import Nachos.UserProg.Allocation

/-!
# What the allocation policies find

`FirstFit` finds the first range that is long enough. `BestFit` and `WorstFit` report a success
only when the scan falls off the end of memory, that is, if the last frame is free. `BestFit`
records a chunk as soon as it is long enough, while it still grows, and therefore prefers the
first run that is long enough to all others, however long it is. `WorstFit` records a growing
chunk again and again, and therefore ends with a longest run.

## Main definitions

* `IsMaximalRun`: a maximal run of free frames.
* `Scan.Fills`: the variables while a chunk grows.
* `Scan.Position`: the variables between two chunks.

## Main results

* `firstFit_correct`: `FirstFit` meets its specification.
* `bestFit_correct_iff`, `worstFit_correct_iff`: for which bitmaps the others do.
-/

namespace Nachos.UserProg

open Foundations

variable {n : ℕ} {map : BitMap n} {start len len' i numPages : ℕ}

/-! ### Runs of free frames -/

/-- A run of free frames with no free frame before it. -/
structure IsRunFrom (map : BitMap n) (start len : ℕ) : Prop where
  free : IsFreeRun map start len
  left : ∀ i, i + 1 = start → map.isSet i = true

/-- A maximal run of consecutive free frames. -/
structure IsMaximalRun (map : BitMap n) (start len : ℕ) : Prop extends
    IsRunFrom map start len where
  pos : 0 < len
  right : start + len < n → map.isSet (start + len) = true

/-- Every run of free frames can be extended to the left. -/
theorem IsFreeRun.exists_left (h : IsFreeRun map start len) (hlen : 0 < len) :
    ∃ start' ≤ start, IsRunFrom map start' (start - start' + len) := by
  induction start generalizing len with
  | zero => exact ⟨0, le_rfl, by simpa using h, by simp⟩
  | succ start ih =>
    cases hs : map.isSet start with
    | true =>
      refine ⟨start + 1, le_rfl, by simpa using h, fun i hi => ?_⟩
      obtain rfl : i = start := by omega
      exact hs
    | false =>
      have hfree : IsFreeRun map start (len + 1) := fun i hi => by
        obtain rfl | hpos := Nat.eq_zero_or_pos i
        · have := (h 0 hlen).1
          exact ⟨by omega, hs⟩
        · have := h (i - 1) (by omega)
          rwa [show start + 1 + (i - 1) = start + i by omega] at this
      obtain ⟨start', hle, hrun⟩ := ih hfree (by omega)
      refine ⟨start', by omega, ?_⟩
      rwa [show start + 1 - start' + len = start - start' + (len + 1) by omega]

/-- Every run of free frames can be extended to the right. -/
theorem IsRunFrom.exists_maximal (h : IsRunFrom map start len) (hlen : 0 < len) :
    ∃ len' ≥ len, IsMaximalRun map start len' := by
  induction hm : n - (start + len) generalizing len with
  | zero => exact ⟨len, le_rfl, h, hlen, by omega⟩
  | succ m ih =>
    cases hs : map.isSet (start + len) with
    | true => exact ⟨len, le_rfl, h, hlen, fun _ => hs⟩
    | false =>
      obtain ⟨len', hle, hrun⟩ :=
        ih ⟨h.free.succ (by omega) hs, h.left⟩ (by omega) (by omega)
      exact ⟨len', by omega, hrun⟩

/-- A maximal run is the longest from its first frame on. -/
theorem IsMaximalRun.le (h : IsMaximalRun map start len) (h' : IsFreeRun map start len') :
    len' ≤ len := by
  by_contra hlt
  obtain ⟨hn, hfree⟩ := h' len (by omega)
  simp [h.right hn] at hfree

/-- Some maximal run is long enough if and only if some range is free. -/
theorem exists_maximalRun_iff (hp : 1 ≤ numPages) (map : BitMap n) :
    (∃ start len, IsMaximalRun map start len ∧ numPages ≤ len) ↔
      ∃ start, IsFreeRun map start numPages := by
  constructor
  · rintro ⟨start, len, h, hle⟩
    exact ⟨start, h.free.mono hle⟩
  · rintro ⟨start, h⟩
    obtain ⟨start', -, hrun⟩ := h.exists_left hp
    obtain ⟨len, hle, hmax⟩ := hrun.exists_maximal (by omega)
    exact ⟨start', len, hmax, by omega⟩

/-- A run begins before another one, or is the same, or begins behind it. -/
theorem IsRunFrom.trichotomy (h : IsRunFrom map start len)
    (hright : start + len < n → map.isSet (start + len) = true) {start' : ℕ}
    (h' : IsRunFrom map start' len') (hpos : 0 < len') :
    start' < start ∨ start' = start ∧ len' ≤ len ∨ start + len < start' := by
  obtain hlt | rfl | hgt := lt_trichotomy start' start
  · exact .inl hlt
  · refine .inr (.inl ⟨rfl, ?_⟩)
    by_contra hlen
    obtain ⟨hn, hfree⟩ := h'.free len (by omega)
    simp [hright hn] at hfree
  · refine .inr (.inr ?_)
    by_contra hle
    obtain heq | hlt : start' = start + len ∨ start' < start + len := by omega
    · obtain ⟨hn, hfree⟩ := h'.free 0 hpos
      rw [Nat.add_zero, heq] at hn hfree
      simp [hright hn] at hfree
    · have hset := h'.left (start' - 1) (by omega)
      obtain ⟨-, hfree⟩ := h.free (start' - 1 - start) (by omega)
      rw [show start + (start' - 1 - start) = start' - 1 by omega] at hfree
      simp [hset] at hfree

namespace Scan

/-! ### One chunk -/

/-- What has been recorded, by `BestFit` or `WorstFit`. -/
def best (s : Scan) : ℕ × ℕ := (s.bestChunk, s.startHere)

/-- The end of the body of the inner loop records `update` of the chunk. -/
def Records (note : Scan → Scan) (update : ℕ → ℕ → ℕ × ℕ → ℕ × ℕ) : Prop :=
  ∀ s, note s = { s with
    bestChunk := (update s.chunk s.startingAddress s.best).1
    startHere := (update s.chunk s.startingAddress s.best).2 }

/-- What has been recorded when a chunk that begins at `start` has grown. -/
def recorded (update : ℕ → ℕ → ℕ × ℕ → ℕ × ℕ) (start : ℕ) (x : ℕ × ℕ) : ℕ → ℕ × ℕ
  | 0 => x
  | len + 1 => update (len + 1) start (recorded update start x len)

/-- The variables while a chunk grows that begins at `i`, when `x` was recorded before it. -/
structure Fills (map : BitMap n) (update : ℕ → ℕ → ℕ × ℕ → ℕ × ℕ) (i : ℕ) (x : ℕ × ℕ)
    (s : Scan) : Prop where
  notFound : s.spaceFound = false
  free : IsFreeRun map i s.chunk
  starts : s.chunk ≠ 0 → s.startingAddress = i
  index_lt : s.index < n
  index_eq : s.endOfMem = false → s.index = i + s.chunk
  ended : s.endOfMem = true → i + s.chunk = n ∧ 0 < s.chunk
  best : s.best = recorded update i x s.chunk

variable {note decide : Scan → Scan} {update : ℕ → ℕ → ℕ × ℕ → ℕ × ℕ} {x : ℕ × ℕ} {s : Scan}

/-- Another frame is taken into the chunk. -/
theorem Fills.extend (h : s.Fills map update i x) (hnote : Records note update)
    (he : s.endOfMem = false) (hfree : map.isSet s.index = false) :
    (note (s.take.advance n)).Fills map update i x ∧
      (note (s.take.advance n)).remaining n < s.remaining n := by
  have hindex := h.index_eq he
  have hlt := h.index_lt
  have htake : s.take = { s with chunk := s.chunk + 1, startingAddress := i } := by
    unfold Scan.take
    split_ifs with hc
    · simp [hc, hindex]
    · rw [← h.starts hc]
  have hrun : IsFreeRun map i (s.chunk + 1) := h.free.succ (hindex ▸ hlt) (hindex ▸ hfree)
  have hbest := h.best
  rw [hnote, htake]
  unfold Scan.advance
  simp only [Scan.best] at hbest ⊢
  split_ifs with hn
  · refine ⟨⟨h.notFound, hrun, fun _ => rfl, ?_, ?_, ?_, ?_⟩, ?_⟩
    · simp only
      omega
    · simp
    · simp only
      omega
    · simp [Scan.best, recorded, hbest]
    · simp [remaining, he]
      omega
  · refine ⟨⟨h.notFound, hrun, fun _ => rfl, ?_, ?_, ?_, ?_⟩, ?_⟩
    · simp only
      omega
    · simp only
      omega
    · simp [he]
    · simp [Scan.best, recorded, hbest]
    · simp [remaining, he]
      omega

/-- The inner loop takes all frames of a run into the chunk. -/
theorem fillChunk_fills (map : BitMap n) (hnote : Records note update) (hi : s.index < n)
    (hf : s.spaceFound = false) (hc : s.chunk = 0) (he : s.endOfMem = false) :
    ∃ s', fillChunk map note s = .ok s' ∧ s'.Fills map update s.index s.best ∧
      (s.index + s'.chunk < n → map.isSet (s.index + s'.chunk) = true) ∧
      s'.remaining n ≤ s.remaining n := by
  have hstart : s.Fills map update s.index s.best :=
    ⟨hf, hc ▸ IsFreeRun.zero map _, fun h => absurd hc h, hi, fun _ => by omega, by simp [he],
      by simp [hc, recorded]⟩
  have hloop : ∃ s', fillChunk map note s = .ok s' ∧ (s'.Fills map update s.index s.best ∧
      s'.remaining n ≤ s.remaining n) ∧ canExtend map s' = .ok false := by
    refine whileLoop_spec
      (fun s' => s'.Fills map update s.index s.best ∧ s'.remaining n ≤ s.remaining n)
      (remaining n) ?_ ?_ ⟨hstart, le_rfl⟩ ?_
    · rintro s' ⟨h, -⟩
      exact ⟨_, by rw [canExtend, BitMap.test_of_lt _ h.index_lt]⟩
    · rintro s' ⟨h, hle⟩ hcond
      have hcond' : map.isSet s'.index = false ∧ s'.endOfMem = false := by
        simpa [canExtend, BitMap.test_of_lt _ h.index_lt] using hcond
      obtain ⟨h', hμ⟩ := h.extend hnote hcond'.2 hcond'.1
      exact ⟨_, rfl, ⟨h', by omega⟩, hμ⟩
    · have := s.remaining_le n
      omega
  obtain ⟨s', hs', ⟨h, hle⟩, hcond⟩ := hloop
  refine ⟨s', hs', h, fun hlt => ?_, hle⟩
  cases he' : s'.endOfMem with
  | true =>
    have := (h.ended he').1
    omega
  | false =>
    rw [← h.index_eq he']
    simpa [canExtend, BitMap.test_of_lt _ h.index_lt, he'] using hcond

/-! ### All chunks -/

theorem remaining_next (hi : s.index < n) : s.next.remaining n < s.remaining n := by
  change n - (s.index + 1) + (if s.endOfMem then 0 else n) < s.remaining n
  simp only [remaining]
  omega

/-- The variables at the test of the outer loop: all runs that begin before `index` have been
scanned, or all runs, or a run has been found. -/
inductive Position (map : BitMap n) (Scanned : ℕ → ℕ × ℕ → Prop) (Ended : ℕ × ℕ → Prop)
    (Found : Scan → Prop) (s : Scan) : Prop
  | scanning (notFound : s.spaceFound = false) (chunk : s.chunk = 0) (le : s.index ≤ n)
    (notEnded : s.endOfMem = false) (left : IsRunFrom map s.index 0)
    (scanned : Scanned s.index s.best)
  | ended (notFound : s.spaceFound = false) (chunk : s.chunk = 0) (ended : s.endOfMem = true)
    (best : Ended s.best)
  | found (spaceFound : s.spaceFound = true) (found : Found s)

variable {Scanned : ℕ → ℕ × ℕ → Prop} {Ended : ℕ × ℕ → Prop} {Found : Scan → Prop}

/-- What a scan does after it has scanned a run, and after it has scanned all runs. -/
structure Decides (map : BitMap n) (update : ℕ → ℕ → ℕ × ℕ → ℕ × ℕ) (Scanned : ℕ → ℕ × ℕ → Prop)
    (Ended : ℕ × ℕ → Prop) (Found : Scan → Prop) (decide : Scan → Scan) : Prop where
  initial : Scanned 0 (0, 0)
  run : ∀ s i x, IsRunFrom map i s.chunk → Scanned i x → s.Fills map update i x →
    (i + s.chunk < n → map.isSet (i + s.chunk) = true) →
    (decide s).spaceFound = true ∧ Found (decide s) ∨ decide s = s.next ∧
      (s.endOfMem = true → Ended s.best) ∧
      (s.endOfMem = false → Scanned (i + s.chunk + 1) s.best)
  ended : ∀ s, s.chunk = 0 → s.endOfMem = true → Ended s.best → decide s = s.next

/-- One iteration of the outer loop. -/
theorem Position.iterate (h : s.Position map Scanned Ended Found) (hnote : Records note update)
    (hd : Decides map update Scanned Ended Found decide) (hf : s.spaceFound = false)
    (hi : s.index < n) :
    ∃ s', (fillChunk map note s).map decide = .ok s' ∧ s'.Position map Scanned Ended Found ∧
      (s'.spaceFound = true ∨ s'.remaining n < s.remaining n) := by
  cases h with
  | found spaceFound => simp [hf] at spaceFound
  | ended notFound chunk ended best =>
    have hfill : fillChunk map note s = .ok s :=
      whileLoop_of_false _ (by simp [canExtend, BitMap.test_of_lt _ hi, ended])
    have hnext := hd.ended s chunk ended best
    refine ⟨s.next, by rw [hfill, map_ok, hnext], .ended notFound rfl ended best,
      .inr (remaining_next hi)⟩
  | scanning notFound chunk le notEnded left scanned =>
    obtain ⟨s', hs', hfills, hright, hle⟩ := fillChunk_fills map hnote hi notFound chunk
      notEnded
    refine ⟨decide s', by rw [hs', map_ok], ?_⟩
    obtain ⟨hfound, hF⟩ | ⟨hnext, hended, hscanned⟩ :=
      hd.run s' s.index s.best ⟨hfills.free, left.left⟩ scanned hfills hright
    · exact ⟨.found hfound hF, .inl hfound⟩
    · have hlt := hfills.index_lt
      rw [hnext]
      refine ⟨?_, .inr ?_⟩
      · cases he : s'.endOfMem with
        | true => exact .ended hfills.notFound rfl he (hended he)
        | false =>
          have hindex := hfills.index_eq he
          refine .scanning hfills.notFound rfl hlt he ⟨IsFreeRun.zero map _, fun j hj => ?_⟩ ?_
          · obtain rfl : j = s'.index := by
              simp only [next] at hj
              omega
            rw [hindex]
            exact hright (hindex ▸ hlt)
          · have hs := hscanned he
            rwa [← hindex] at hs
      · have := remaining_next hlt
        omega

/-- A scan ends without a failed assertion, when a run has been found or at the end of memory. -/
theorem scan_position (hnote : Records note update)
    (hd : Decides map update Scanned Ended Found decide) :
    ∃ s, scan map note decide = .ok s ∧ s.Position map Scanned Ended Found ∧
      (s.spaceFound = false → n ≤ s.index) := by
  have hloop : ∃ s, scan map note decide = .ok s ∧ s.Position map Scanned Ended Found ∧
      Except.ok (!s.spaceFound && s.index < n) = (Except.ok false : Except Fault Bool) := by
    refine whileLoop_spec (fun s : Scan => s.Position map Scanned Ended Found)
      (fun s => if s.spaceFound then 0 else s.remaining n + 1) (fun s _ => ⟨_, rfl⟩) ?_
      (.scanning rfl rfl (Nat.zero_le n) rfl ⟨IsFreeRun.zero map _, by simp⟩ hd.initial) ?_
    · intro s hs hc
      have hc' : s.spaceFound = false ∧ s.index < n := by simpa using hc
      obtain ⟨s', hs', hpos, hμ⟩ := hs.iterate hnote hd hc'.1 hc'.2
      refine ⟨s', hs', hpos, ?_⟩
      rcases hμ with hμ | hμ
      · simp [hμ, hc'.1]
      · simp only [hc'.1, Bool.false_eq_true, if_false]
        split_ifs <;> omega
    · have := remaining_le n {}
      change remaining n {} + 1 < 2 * n + 2
      omega
  obtain ⟨s, hs, hpos, hc⟩ := hloop
  refine ⟨s, hs, hpos, fun hf => ?_⟩
  simpa [hf] using hc

end Scan

/-! ### First fit -/

/-- No run that begins before `i` is long enough. -/
def NoneBefore (map : BitMap n) (numPages i : ℕ) : Prop :=
  ∀ start len, IsRunFrom map start len → start < i → len < numPages

/-- All runs are too short. -/
theorem NoneBefore.not_free (h : NoneBefore map numPages n) (hp : 1 ≤ numPages) :
    ¬∃ start, IsFreeRun map start numPages := by
  rintro ⟨start, hfree⟩
  obtain ⟨start', hle, hrun⟩ := hfree.exists_left hp
  have hlt := (hrun.free 0 (by omega)).1
  have := h start' _ hrun hlt
  omega

/-- The next run is too short as well. -/
theorem NoneBefore.extend (h : NoneBefore map numPages i) (hp : 1 ≤ numPages)
    (hrun : IsRunFrom map i len) (hright : i + len < n → map.isSet (i + len) = true)
    (hlen : len < numPages) : NoneBefore map numPages (i + len + 1) := by
  intro start' len' h' hlt
  obtain rfl | hpos := Nat.eq_zero_or_pos len'
  · exact hp
  obtain hbefore | ⟨-, hle⟩ | hbehind := hrun.trichotomy hright h' hpos
  · exact h start' len' h' hbefore
  · omega
  · omega

/-- `FirstFit` ends without a failed assertion. It finds a range if there is one that is long
enough, and then the first. -/
theorem firstFit_correct (hp : 1 ≤ numPages) (map : BitMap n) :
    ∃ s, firstFit map numPages = .ok s ∧
      (s.spaceFound = true ↔ ∃ start, IsFreeRun map start numPages) ∧
      (s.spaceFound = true → IsLeast {start | IsFreeRun map start numPages} s.startHere) := by
  have hnote : Scan.Records id fun _ _ x => x := fun s => rfl
  have hd : Scan.Decides map (fun _ _ x => x) (fun i _ => NoneBefore map numPages i)
      (fun _ => ¬∃ start, IsFreeRun map start numPages)
      (fun s => numPages ≤ s.chunk ∧
        IsLeast {start | IsFreeRun map start numPages} s.startingAddress)
      fun s => if numPages ≤ s.chunk then
        { s with spaceFound := true, startHere := s.startingAddress } else s.next := by
    refine ⟨fun _ _ _ h => absurd h (Nat.not_lt_zero _), fun s i x hrun hnone hfills hright => ?_,
      fun s hchunk _ _ => if_neg (by omega)⟩
    split_ifs with hle
    · refine .inl ⟨rfl, hle, ?_⟩
      rw [hfills.starts (by omega)]
      refine ⟨hrun.free.mono hle, fun start hfree => ?_⟩
      obtain ⟨start', hle', hrun'⟩ := hfree.exists_left hp
      by_contra hlt
      have := hnone start' _ hrun' (by omega)
      omega
    · have hnone' := hnone.extend hp hrun hright (by omega)
      refine .inr ⟨rfl, fun he => ?_, fun _ => hnone'⟩
      rw [(hfills.ended he).1] at hnone'
      exact NoneBefore.not_free (fun start len h hlt => hnone' start len h (by omega)) hp
  obtain ⟨s, hs, hpos, hend⟩ := Scan.scan_position hnote hd
  refine ⟨_, by rw [firstFit, hs]; rfl, ?_⟩
  cases hpos with
  | scanning notFound chunk le notEnded left scanned =>
    have hindex : s.index = n := le_antisymm le (hend notFound)
    have hnot := NoneBefore.not_free (hindex ▸ scanned) hp
    simp [chunk, notFound, hnot, show ¬numPages ≤ 0 by omega]
  | ended notFound chunk _ hnot => simp [chunk, notFound, hnot, show ¬numPages ≤ 0 by omega]
  | found spaceFound found =>
    simp only [found.1, if_true, true_iff, forall_const]
    exact ⟨⟨_, found.2.1⟩, found.2⟩

/-- A memory of which a single frame is used, with a long run before it and a short one behind. -/
def frameUsed (which : ℕ) : BitMap 32 := ⟨Vector.replicate _ (1 <<< which)⟩

theorem firstFit_correct_of_frameUsed : ∃ s, firstFit (frameUsed 28) 2 = .ok s ∧
    IsLeast {start | IsFreeRun (frameUsed 28) start 2} s.startHere := by
  obtain ⟨s, hs, hiff, hleast⟩ := firstFit_correct (by decide : 1 ≤ 2) (frameUsed 28)
  have hfree : IsFreeRun (frameUsed 28) 0 2 := by
    unfold IsFreeRun
    decide
  exact ⟨s, hs, hleast (hiff.2 ⟨0, hfree⟩)⟩

/-! ### Best fit and worst fit -/

/-- What `Scan.record` does to the recorded run. -/
def recordUpdate (better : ℕ → ℕ → Bool) (numPages chunk start : ℕ) (x : ℕ × ℕ) : ℕ × ℕ :=
  if numPages ≤ chunk then
    if x.1 = 0 then (chunk, start) else if better chunk x.1 then (chunk, start) else x
  else x

theorem records_record (better : ℕ → ℕ → Bool) (numPages : ℕ) :
    Scan.Records (Scan.record better numPages) (recordUpdate better numPages) := by
  intro s
  unfold Scan.record recordUpdate
  split_ifs <;> simp_all [Scan.best]

/-- `BestFit` and `WorstFit` end without a failed assertion. They find a range if there is one that
is long enough and the last frame is free; `Recorded` then tells what they have recorded. -/
theorem fit_found_iff (better : ℕ → ℕ → Bool) (hn : 1 ≤ n) (hp : 1 ≤ numPages) (map : BitMap n)
    (Recorded : ℕ → ℕ × ℕ → Prop) (hinit : Recorded 0 (0, 0))
    (hnone : ∀ i x, Recorded i x → x.1 < numPages → NoneBefore map numPages i)
    (hsome : ∀ i x, Recorded i x → numPages ≤ x.1 → IsFreeRun map x.2 numPages)
    (hrun : ∀ i len x, IsRunFrom map i len → (i + len < n → map.isSet (i + len) = true) →
      Recorded i x →
      Recorded (i + len + 1) (Scan.recorded (recordUpdate better numPages) i x len)) :
    ∃ s, fit better map numPages = .ok s ∧
      (s.spaceFound = true ↔
        map.isSet (n - 1) = false ∧ ∃ start, IsFreeRun map start numPages) ∧
      (s.spaceFound = true → numPages ≤ s.bestChunk ∧ Recorded (n + 1) s.best) := by
  have hd : Scan.Decides map (recordUpdate better numPages) Recorded
      (fun x => x.1 < numPages ∧ ¬∃ start, IsFreeRun map start numPages)
      (fun s => map.isSet (n - 1) = false ∧ numPages ≤ s.bestChunk ∧ Recorded (n + 1) s.best)
      fun s => if numPages ≤ s.bestChunk ∧ s.endOfMem then { s with spaceFound := true }
        else s.next := by
    refine ⟨hinit, fun s i x hfree hrec hfills hright => ?_, fun s _ _ h => ?_⟩
    · have hrec' : Recorded (i + s.chunk + 1) s.best :=
        hfills.best ▸ hrun i s.chunk x hfree hright hrec
      split_ifs with h
      · refine .inl ⟨rfl, ?_, h.1, ?_⟩
        · obtain ⟨hend, hpos⟩ := hfills.ended h.2
          obtain ⟨-, hlast⟩ := hfree.free (s.chunk - 1) (by omega)
          rwa [show i + (s.chunk - 1) = n - 1 by omega] at hlast
        · rw [← (hfills.ended h.2).1]
          exact hrec'
      · refine .inr ⟨rfl, fun he => ?_, fun _ => hrec'⟩
        have hlt : s.bestChunk < numPages := by
          by_contra hle
          exact h ⟨by omega, he⟩
        have hnone' := hnone _ _ hrec' hlt
        rw [(hfills.ended he).1] at hnone'
        exact ⟨hlt, NoneBefore.not_free (fun start len h hlt => hnone' start len h (by omega)) hp⟩
    · exact if_neg fun h' => by
        have : s.bestChunk < numPages := h.1
        omega
  obtain ⟨s, hs, hpos, hend⟩ := Scan.scan_position (records_record better numPages) hd
  refine ⟨s, hs, ?_⟩
  cases hpos with
  | scanning notFound chunk le notEnded left scanned =>
    -- the last frame is not free, or the scan would have fallen off the end of memory
    have hindex : s.index = n := le_antisymm le (hend notFound)
    have hlast := left.left (n - 1) (by omega)
    simp [notFound, hlast]
  | ended notFound chunk _ hnot => simp [notFound, hnot.2]
  | found spaceFound found =>
    have hfree : ∃ start, IsFreeRun map start numPages := ⟨_, hsome _ _ found.2.2 found.2.1⟩
    simp [spaceFound, found.1, found.2, hfree]

/-- `BestFit` has recorded the first run that is long enough, when it had just become so. -/
structure FirstRecorded (map : BitMap n) (numPages i : ℕ) (x : ℕ × ℕ) : Prop where
  none : x.1 = 0 → NoneBefore map numPages i
  some : x.1 ≠ 0 → x.1 = numPages ∧ x.2 < i ∧ IsRunFrom map x.2 numPages ∧
    ∀ start len, IsRunFrom map start len → start < i → numPages ≤ len → x.2 ≤ start

/-- A chunk is recorded once, when it is long enough. -/
theorem recorded_best (hp : 1 ≤ numPages) (i : ℕ) {x : ℕ × ℕ} (hx : x.1 = 0 ∨ x.1 = numPages)
    (len : ℕ) :
    Scan.recorded (recordUpdate (fun chunk bestChunk => chunk < bestChunk) numPages) i x len =
      if x.1 = 0 ∧ numPages ≤ len then (numPages, i) else x := by
  induction len with
  | zero => simp [Scan.recorded, show ¬numPages ≤ 0 by omega]
  | succ len ih =>
    rw [Scan.recorded, ih]
    unfold recordUpdate
    obtain hx | hx := hx
    · by_cases hle : numPages ≤ len
      · simp [hx, hle, show numPages ≤ len + 1 by omega, show numPages ≠ 0 by omega]
      · by_cases hle' : numPages ≤ len + 1
        · simp [hx, hle, hle']
          omega
        · simp [hle, hle']
    · simp [hx, show numPages ≠ 0 by omega]
      omega

theorem FirstRecorded.run (hp : 1 ≤ numPages) {x : ℕ × ℕ} (h : FirstRecorded map numPages i x)
    (hrun : IsRunFrom map i len) (hright : i + len < n → map.isSet (i + len) = true) :
    FirstRecorded map numPages (i + len + 1)
      (Scan.recorded (recordUpdate (fun chunk bestChunk => chunk < bestChunk) numPages) i x
        len) := by
  have hx : x.1 = 0 ∨ x.1 = numPages := or_iff_not_imp_left.2 fun hx => (h.some hx).1
  rw [recorded_best hp i hx]
  split_ifs with hnew
  · refine ⟨fun hzero => by simp only at hzero; omega, fun _ => ⟨rfl, by simp only; omega,
      ⟨hrun.free.mono hnew.2, hrun.left⟩, fun start len' h' _ hlen => ?_⟩⟩
    by_contra hlt
    have := h.none hnew.1 start len' h' (by simpa using hlt)
    omega
  · refine ⟨fun hzero => (h.none hzero).extend hp hrun hright (by omega), fun hne => ?_⟩
    obtain ⟨heq, hlt, hfirst, hmin⟩ := h.some hne
    refine ⟨heq, by omega, hfirst, fun start len' h' _ hlen => ?_⟩
    by_cases hbefore : start < i
    · exact hmin start len' h' hbefore hlen
    · omega

/-- `WorstFit` has recorded a longest run. -/
structure LongestRecorded (map : BitMap n) (numPages i : ℕ) (x : ℕ × ℕ) : Prop where
  none : x.1 = 0 → NoneBefore map numPages i
  some : x.1 ≠ 0 → numPages ≤ x.1 ∧ IsMaximalRun map x.2 x.1 ∧
    ∀ start len, IsRunFrom map start len → start < i → len ≤ x.1

/-- A chunk is recorded again and again, if it is longer than the recorded one. -/
theorem recorded_worst (i : ℕ) (x : ℕ × ℕ) (len : ℕ) :
    Scan.recorded (recordUpdate (fun chunk worstChunk => chunk > worstChunk) numPages) i x len =
      if numPages ≤ len ∧ x.1 < len then (len, i) else x := by
  induction len with
  | zero => simp [Scan.recorded]
  | succ len ih =>
    rw [Scan.recorded, ih]
    unfold recordUpdate
    by_cases hle : numPages ≤ len + 1
    · by_cases hlt : x.1 < len + 1
      · by_cases hold : numPages ≤ len ∧ x.1 < len
        · simp [hold, hle, hlt]
        · rw [if_neg hold]
          by_cases hx : x.1 = 0 <;> simp [hx, hle, hlt]
      · have hold : ¬x.1 < len := by omega
        simp [hold, hle, hlt, show x.1 ≠ 0 by omega]
    · simp [hle, show ¬numPages ≤ len by omega]

theorem LongestRecorded.run (hp : 1 ≤ numPages) {x : ℕ × ℕ}
    (h : LongestRecorded map numPages i x) (hrun : IsRunFrom map i len)
    (hright : i + len < n → map.isSet (i + len) = true) :
    LongestRecorded map numPages (i + len + 1)
      (Scan.recorded (recordUpdate (fun chunk worstChunk => chunk > worstChunk) numPages) i x
        len) := by
  have hlonger : ∀ m, len ≤ m → (∀ start len', IsRunFrom map start len' → start < i → len' ≤ m) →
      ∀ start len', IsRunFrom map start len' → start < i + len + 1 → len' ≤ m := by
    intro m hlen hold start len' h' hlt
    obtain rfl | hpos := Nat.eq_zero_or_pos len'
    · exact Nat.zero_le m
    obtain hbefore | ⟨-, hle⟩ | hbehind := hrun.trichotomy hright h' hpos
    · exact hold start len' h' hbefore
    · omega
    · omega
  rw [recorded_worst]
  split_ifs with hnew
  · refine ⟨fun hzero => by simp only at hzero; omega, fun _ => ⟨hnew.1,
      ⟨hrun, by omega, hright⟩, hlonger len le_rfl fun start len' h' hlt => ?_⟩⟩
    by_cases hx : x.1 = 0
    · have := h.none hx start len' h' hlt
      omega
    · have := (h.some hx).2.2 start len' h' hlt
      omega
  · refine ⟨fun hzero => (h.none hzero).extend hp hrun hright (by omega), fun hne => ?_⟩
    obtain ⟨hle, hmax, hlong⟩ := h.some hne
    exact ⟨hle, hmax, hlonger x.1 (by omega) hlong⟩

/-- The specification of `BestFit`: it finds the first frame of a shortest maximal run that is long
enough. -/
def MeetsBestFit (map : BitMap n) (numPages : ℕ) (s : Scan) : Prop :=
  (s.spaceFound = true ↔ ∃ start len, IsMaximalRun map start len ∧ numPages ≤ len) ∧
    (s.spaceFound = true → ∃ len, IsMaximalRun map s.startHere len ∧ numPages ≤ len ∧
      ∀ start' len', IsMaximalRun map start' len' → numPages ≤ len' → len ≤ len')

/-- The specification of `WorstFit`: it finds the first frame of a longest maximal run. -/
def MeetsWorstFit (map : BitMap n) (numPages : ℕ) (s : Scan) : Prop :=
  (s.spaceFound = true ↔ ∃ start len, IsMaximalRun map start len ∧ numPages ≤ len) ∧
    (s.spaceFound = true → ∃ len, IsMaximalRun map s.startHere len ∧
      ∀ start' len', IsMaximalRun map start' len' → len' ≤ len)

/-- `BestFit` finds the first run that is long enough, if the last frame is free. -/
theorem bestFit_found (hn : 1 ≤ n) (hp : 1 ≤ numPages) (map : BitMap n) :
    ∃ s, bestFit map numPages = .ok s ∧
      (s.spaceFound = true ↔
        map.isSet (n - 1) = false ∧ ∃ start, IsFreeRun map start numPages) ∧
      (s.spaceFound = true → IsRunFrom map s.startHere numPages ∧
        ∀ start len, IsRunFrom map start len → numPages ≤ len → s.startHere ≤ start) := by
  obtain ⟨s, hs, hiff, hrec⟩ := fit_found_iff
    (fun chunk bestChunk => chunk < bestChunk) hn hp map
    (FirstRecorded map numPages)
    ⟨fun _ _ _ _ h => absurd h (Nat.not_lt_zero _), fun h => absurd rfl h⟩
    (fun i x h hlt => h.none (not_not.1 fun hne => by have := (h.some hne).1; omega))
    (fun i x h hle => (h.some (by omega)).2.2.1.free)
    fun i len x hrun hright h => h.run hp hrun hright
  refine ⟨s, hs, hiff, fun hf => ?_⟩
  obtain ⟨hle, h⟩ := hrec hf
  have hne : s.best.1 ≠ 0 := fun hzero => by
    simp only [Scan.best] at hzero
    omega
  obtain ⟨-, -, hrun, hmin⟩ := h.some hne
  refine ⟨hrun, fun start len h' hlen => hmin start len h' ?_ hlen⟩
  have := (h'.free 0 (by omega)).1
  omega

/-- `BestFit` meets its specification if and only if no run is long enough, or the last frame is
free and the first run that is long enough is a shortest one. -/
theorem bestFit_correct_iff (hn : 1 ≤ n) (hp : 1 ≤ numPages) (map : BitMap n) :
    (∃ s, bestFit map numPages = .ok s ∧ MeetsBestFit map numPages s) ↔
      (¬∃ start len, IsMaximalRun map start len ∧ numPages ≤ len) ∨
        map.isSet (n - 1) = false ∧ ∃ start len, IsMaximalRun map start len ∧ numPages ≤ len ∧
          ∀ start' len', IsMaximalRun map start' len' → numPages ≤ len' →
            start ≤ start' ∧ len ≤ len' := by
  obtain ⟨s, hs, hiff, hfirst⟩ := bestFit_found hn hp map
  have hfits := exists_maximalRun_iff hp map
  constructor
  · rintro ⟨s', hs', hfound, hbest⟩
    cases hs.symm.trans hs'
    refine or_iff_not_imp_left.2 fun hfit => ?_
    have hf := hfound.2 (not_not.1 hfit)
    obtain ⟨len, hmax, hle, hmin⟩ := hbest hf
    refine ⟨(hiff.1 hf).1, s.startHere, len, hmax, hle, fun start' len' h' hle' => ?_⟩
    exact ⟨(hfirst hf).2 start' len' h'.toIsRunFrom hle', hmin start' len' h' hle'⟩
  · rintro (hnone | ⟨hlast, start, len, hmax, hle, hmin⟩)
    · have hf : s.spaceFound = false := by
        rw [← Bool.not_eq_true, hiff, ← hfits]
        exact fun h => hnone h.2
      exact ⟨s, hs, by simp [hf, hnone], by simp [hf]⟩
    · have hf : s.spaceFound = true := hiff.2 ⟨hlast, start, hmax.free.mono hle⟩
      obtain ⟨hrun, hleast⟩ := hfirst hf
      obtain ⟨len', hle', hmax'⟩ := hrun.exists_maximal hp
      have hstart : s.startHere = start :=
        le_antisymm (hleast start len hmax.toIsRunFrom hle) (hmin _ len' hmax' hle').1
      refine ⟨s, hs, ⟨fun _ => ⟨start, len, hmax, hle⟩, fun _ => hf⟩, fun _ => ⟨len, ?_, hle, ?_⟩⟩
      · exact hstart ▸ hmax
      · exact fun start' len' h' hle' => (hmin start' len' h' hle').2

theorem bestFit_correct_of_frameUsed :
    ∃ s, bestFit (frameUsed 0) 2 = .ok s ∧ MeetsBestFit (frameUsed 0) 2 s := by
  refine (bestFit_correct_iff (by decide) (by decide) (frameUsed 0)).2 (.inr ⟨by decide, 1, 31, ?_⟩)
  have hmax : IsMaximalRun (frameUsed 0) 1 31 :=
    ⟨⟨by unfold IsFreeRun; decide, fun i hi => by rw [show i = 0 by omega]; decide⟩, by decide,
      by decide⟩
  refine ⟨hmax, by decide, fun start len h hle => ?_⟩
  obtain hlt | ⟨rfl, -⟩ | hlt := hmax.toIsRunFrom.trichotomy hmax.right h.toIsRunFrom h.pos
  · obtain rfl : start = 0 := by omega
    exact absurd (h.free 0 h.pos).2 (by decide)
  · exact ⟨le_rfl, h.le hmax.free⟩
  · have := (h.free 0 h.pos).1
    omega

/-- `BestFit` finds the run of 28 frames, though there is one of 3 frames. -/
theorem bestFit_not_shortest : ∃ s, bestFit (frameUsed 28) 2 = .ok s ∧
    ¬MeetsBestFit (frameUsed 28) 2 s := by
  obtain ⟨s, hs, hf, hstart⟩ : ∃ s, bestFit (frameUsed 28) 2 = .ok s ∧ s.spaceFound = true ∧
      s.startHere = 0 := by
    refine ⟨_, rfl, ?_⟩
    decide +kernel
  refine ⟨s, hs, fun ⟨_, h⟩ => ?_⟩
  obtain ⟨len, hmax, -, hmin⟩ := h hf
  rw [hstart] at hmax
  have hlong : 28 ≤ len := hmax.le (by unfold IsFreeRun; decide)
  have hshort : len ≤ 3 := hmin 29 3
    ⟨⟨by unfold IsFreeRun; decide, fun i hi => by rw [show i = 28 by omega]; decide⟩, by decide,
      by decide⟩ (by decide)
  omega

/-- `WorstFit` meets its specification if and only if no run is long enough, or the last frame is
free. -/
theorem worstFit_correct_iff (hn : 1 ≤ n) (hp : 1 ≤ numPages) (map : BitMap n) :
    (∃ s, worstFit map numPages = .ok s ∧ MeetsWorstFit map numPages s) ↔
      (¬∃ start len, IsMaximalRun map start len ∧ numPages ≤ len) ∨ map.isSet (n - 1) = false := by
  obtain ⟨s, hs, hiff, hrec⟩ := fit_found_iff
    (fun chunk worstChunk => chunk > worstChunk) hn hp map
    (LongestRecorded map numPages)
    ⟨fun _ _ _ _ h => absurd h (Nat.not_lt_zero _), fun h => absurd rfl h⟩
    (fun i x h hlt => h.none (not_not.1 fun hne => by have := (h.some hne).1; omega))
    (fun i x h hle => (h.some (by omega)).2.1.free.mono hle)
    fun i len x hrun hright h => h.run hp hrun hright
  have hfits := exists_maximalRun_iff hp map
  constructor
  · rintro ⟨s', hs', hfound, -⟩
    cases hs.symm.trans hs'
    exact or_iff_not_imp_left.2 fun hfit => (hiff.1 (hfound.2 (not_not.1 hfit))).1
  · intro h
    refine ⟨s, hs, ?_, fun hf => ?_⟩
    · rw [hiff, ← hfits]
      exact ⟨And.right, fun hfit => ⟨h.resolve_left fun hno => hno hfit, hfit⟩⟩
    · obtain ⟨hle, hlongest⟩ := hrec hf
      have hne : s.best.1 ≠ 0 := fun hzero => by
        simp only [Scan.best] at hzero
        omega
      obtain ⟨-, hmax, hlong⟩ := hlongest.some hne
      refine ⟨s.bestChunk, hmax, fun start' len' h' => hlong start' len' h'.toIsRunFrom ?_⟩
      have := (h'.free 0 h'.pos).1
      omega

theorem worstFit_correct_of_frameUsed :
    ∃ s, worstFit (frameUsed 28) 2 = .ok s ∧ MeetsWorstFit (frameUsed 28) 2 s :=
  (worstFit_correct_iff (by decide) (by decide) (frameUsed 28)).2 (.inr (by decide))

/-- `WorstFit` finds nothing when only the last frame is used. -/
theorem worstFit_finds_nothing : ∃ s, worstFit (frameUsed 31) 2 = .ok s ∧
    ¬MeetsWorstFit (frameUsed 31) 2 s := by
  obtain ⟨s, hs, hf⟩ : ∃ s, worstFit (frameUsed 31) 2 = .ok s ∧ s.spaceFound = false := by
    refine ⟨_, rfl, ?_⟩
    decide +kernel
  refine ⟨s, hs, fun ⟨h, _⟩ => ?_⟩
  have hmax : IsMaximalRun (frameUsed 31) 0 31 :=
    ⟨⟨by unfold IsFreeRun; decide, by simp⟩, by decide, by decide⟩
  simp [h.2 ⟨0, 31, hmax, by decide⟩] at hf

end Nachos.UserProg
