import Mathlib.Algebra.Order.Group.Abs
import Mathlib.Algebra.Order.Ring.Int
import Mathlib.Data.Int.ModEq
import Mathlib.Order.Bounds.Basic
import Mathlib.Tactic.Ring
import Nachos.Machine.Disk
import Nachos.Machine.Interrupt

/-!
# The latency of the disk

The timing of `machine/disk.cc`. One sector passes below the head in `RotationTime` ticks, so
sector boundaries are at the multiples of `RotationTime`, and the sector whose boundary is at
`c * RotationTime` is in the slot `c` modulo `SectorsPerTrack`. A request waits for the seek and
then for the slot of its sector, unless the sector is in the track buffer.

All times are an `int` in the source. Here they are integers, with the division and the remainder
of C++; `Interrupt::Schedule` faults when the time of the interrupt does not fit.

## Main definitions

* `DiskTimer`, with `timeToSeek`, `moduloDiff`, `computeLatency` and `updateLast`.
* `DiskTimer.request`: the requests, up to their data.
* `diskSystem`: any sequence of requests, with time passing between them.

## Main results

* `DiskTimer.computeLatency_spec`: the latency is the true rotational wait.
* `diskSystem_spec`: what `computeLatency_spec` asks for holds at every request of a run.
-/

namespace Nachos

open Foundations
open Devices (Interrupt IntType)

/-! ### Rounding -/

/-- The numbers of a residue class from `q` on begin within one period. -/
theorem isLeast_emod_eq (q a : ℤ) {n : ℤ} (hn : 0 < n) :
    IsLeast {c | q ≤ c ∧ c % n = a % n} (q + (a - q) % n) := by
  constructor
  · have h := Int.emod_nonneg (a - q) hn.ne'
    exact ⟨by omega, by simp⟩
  · rintro c ⟨hq, hc⟩
    have hmod : (a - q) % n = (c - q) % n := Int.ModEq.sub_right q hc.symm
    have hle : (c - q) % n ≤ c - q := by
      rw [Int.emod_def]
      have := mul_nonneg hn.le (Int.ediv_nonneg (show 0 ≤ c - q by omega) hn.le)
      omega
    omega

/-! ### Timing -/

/-- `RotationTime`. -/
abbrev rotationTime : ℤ := 500

/-- `SeekTime`. -/
abbrev seekTime : ℤ := 500

/-- The fields of `Disk` that are about time. -/
structure DiskTimer where
  active : Bool
  lastSector : ℤ
  bufferInit : ℤ
  deriving DecidableEq

namespace DiskTimer

/-- `Disk::TimeToSeek`: the time of the seek, and `*rotation`. -/
def timeToSeek (d : DiskTimer) (totalTicks newSector : ℤ) : ℤ × ℤ :=
  let newTrack := newSector.tdiv sectorsPerTrack
  let oldTrack := d.lastSector.tdiv sectorsPerTrack
  let seek := |newTrack - oldTrack| * seekTime
  let overTicks := (totalTicks + seek).tmod rotationTime
  (seek, if overTicks > 0 then rotationTime - overTicks else 0)

/-- `Disk::ModuloDiff`, from the sector `source` to the sector `dest`. -/
def moduloDiff (dest source : ℤ) : ℤ :=
  let toOffset := dest.tmod sectorsPerTrack
  let fromOffset := source.tmod sectorsPerTrack
  (toOffset - fromOffset + sectorsPerTrack).tmod sectorsPerTrack

/-- `timeAfter` of `Disk::ComputeLatency`: when the head is over the track, at the beginning of a
sector. -/
def timeAfter (d : DiskTimer) (totalTicks newSector : ℤ) : ℤ :=
  totalTicks + (d.timeToSeek totalTicks newSector).1 + (d.timeToSeek totalTicks newSector).2

/-- The track buffer applies. -/
def InTrackBuffer (d : DiskTimer) (totalTicks newSector : ℤ) (writing : Bool) : Prop :=
  writing = false ∧ (d.timeToSeek totalTicks newSector).1 = 0 ∧
    (d.timeAfter totalTicks newSector - d.bufferInit).tdiv rotationTime >
      moduloDiff newSector (d.bufferInit.tdiv rotationTime)

instance (d : DiskTimer) (totalTicks newSector : ℤ) (writing : Bool) :
    Decidable (d.InTrackBuffer totalTicks newSector writing) :=
  inferInstanceAs (Decidable (_ ∧ _ ∧ _))

/-- `Disk::ComputeLatency`. -/
def computeLatency (d : DiskTimer) (totalTicks newSector : ℤ) (writing : Bool) : ℤ :=
  let (seek, rotation) := d.timeToSeek totalTicks newSector
  if d.InTrackBuffer totalTicks newSector writing then rotationTime
  else
    let rotation := rotation +
      moduloDiff newSector ((d.timeAfter totalTicks newSector).tdiv rotationTime) * rotationTime
    seek + rotation + rotationTime

/-- `Disk::UpdateLast`. -/
def updateLast (d : DiskTimer) (totalTicks newSector : ℤ) : DiskTimer :=
  let (seek, rotate) := d.timeToSeek totalTicks newSector
  { d with
    bufferInit := if seek ≠ 0 then totalTicks + seek + rotate else d.bufferInit
    lastSector := newSector }

variable {d : DiskTimer} {t newSector : ℤ} {writing : Bool}

theorem seek_nonneg : 0 ≤ (d.timeToSeek t newSector).1 :=
  mul_nonneg (abs_nonneg _) (by decide)

/-- The head is over the track from the first sector boundary on that follows the seek. -/
theorem isLeast_timeAfter (d : DiskTimer) (newSector : ℤ) (ht : 0 ≤ t) :
    IsLeast {b | rotationTime ∣ b ∧ t + (d.timeToSeek t newSector).1 ≤ b}
      (d.timeAfter t newSector) := by
  have hseek : 0 ≤ (d.timeToSeek t newSector).1 := seek_nonneg
  have hrot : (d.timeToSeek t newSector).2 =
      if (t + (d.timeToSeek t newSector).1) % rotationTime > 0 then
        rotationTime - (t + (d.timeToSeek t newSector).1) % rotationTime else 0 := by
    rw [← Int.tmod_eq_emod_of_nonneg (by omega)]
    rfl
  unfold timeAfter
  generalize (d.timeToSeek t newSector).1 = seek at *
  rw [hrot]
  simp only [rotationTime]
  refine ⟨⟨?_, ?_⟩, fun b ⟨hdvd, hb⟩ => ?_⟩ <;> split_ifs <;> omega

/-- The head waits for less than a sector to pass. -/
theorem timeAfter_lt (d : DiskTimer) (newSector : ℤ) (ht : 0 ≤ t) :
    d.timeAfter t newSector < t + (d.timeToSeek t newSector).1 + rotationTime := by
  obtain ⟨⟨hdvd, -⟩, hleast⟩ := isLeast_timeAfter d newSector ht
  by_contra! hlt
  -- otherwise the boundary before would do
  have hle := hleast ⟨Int.dvd_sub hdvd (dvd_refl rotationTime), le_sub_iff_add_le.2 hlt⟩
  simp only [rotationTime] at hle
  omega

/-- Sectors are counted around the track. -/
theorem moduloDiff_eq {dest : ℤ} (hdest : 0 ≤ dest) (source : ℤ) :
    moduloDiff dest source = (dest - source) % sectorsPerTrack := by
  have hsource := Int.tmod_eq_emod (a := source) (b := sectorsPerTrack)
  have hlt := Int.emod_lt_of_pos source (show (0 : ℤ) < sectorsPerTrack by decide)
  unfold moduloDiff
  rw [Int.tmod_eq_emod_of_nonneg hdest, hsource, Int.tmod_eq_emod_of_nonneg]
  all_goals
    simp only [sectorsPerTrack] at hlt ⊢
    split_ifs <;> omega

theorem moduloDiff_nonneg {dest : ℤ} (hdest : 0 ≤ dest) (source : ℤ) :
    0 ≤ moduloDiff dest source := by
  rw [moduloDiff_eq hdest]
  exact Int.emod_nonneg _ (by decide)

/-- There is no seek on the current track. -/
theorem seek_eq_zero_iff (hlast : 0 ≤ d.lastSector) (hnew : 0 ≤ newSector) :
    (d.timeToSeek t newSector).1 = 0 ↔
      newSector / sectorsPerTrack = d.lastSector / sectorsPerTrack := by
  have hseek : (d.timeToSeek t newSector).1 =
      |newSector / sectorsPerTrack - d.lastSector / sectorsPerTrack| * seekTime := by
    rw [← Int.tdiv_eq_ediv_of_nonneg hnew, ← Int.tdiv_eq_ediv_of_nonneg hlast]
    rfl
  rw [hseek, mul_eq_zero, abs_eq_zero, sub_eq_zero]
  exact or_iff_left (by decide)

/-- The times at which the slot of a sector begins to pass the head. -/
def slotBoundaries (sector : ℤ) : Set ℤ :=
  {b | rotationTime ∣ b ∧ b / rotationTime % sectorsPerTrack = sector % sectorsPerTrack}

/-- From a sector boundary on, `ModuloDiff` is the number of sectors until the slot begins. -/
theorem isLeast_moduloDiff {start sector : ℤ} (hstart : rotationTime ∣ start)
    (hsector : 0 ≤ sector) :
    IsLeast {b | start ≤ b ∧ b ∈ slotBoundaries sector}
      (start + moduloDiff sector (start.tdiv rotationTime) * rotationTime) := by
  obtain ⟨q, rfl⟩ := hstart
  have hpos : (0 : ℤ) < rotationTime := by decide
  obtain ⟨⟨hle, hslot⟩, hleast⟩ :=
    isLeast_emod_eq q sector (show (0 : ℤ) < sectorsPerTrack by decide)
  rw [Int.mul_tdiv_cancel_left _ hpos.ne', moduloDiff_eq hsector]
  rw [show rotationTime * q + (sector - q) % sectorsPerTrack * rotationTime =
    rotationTime * (q + (sector - q) % sectorsPerTrack) by ring]
  refine ⟨⟨mul_le_mul_of_nonneg_left hle hpos.le, dvd_mul_right _ _, ?_⟩, ?_⟩
  · rwa [Int.mul_ediv_cancel_left _ hpos.ne']
  · rintro b ⟨hb, ⟨c, rfl⟩, hc⟩
    rw [Int.mul_ediv_cancel_left _ hpos.ne'] at hc
    exact mul_le_mul_of_nonneg_left (hleast ⟨le_of_mul_le_mul_left hb hpos, hc⟩) hpos.le

/-- Without the track buffer, the request ends when the sector has passed below the head. -/
theorem add_computeLatency (h : ¬ d.InTrackBuffer t newSector writing) :
    t + d.computeLatency t newSector writing =
      d.timeAfter t newSector +
        moduloDiff newSector ((d.timeAfter t newSector).tdiv rotationTime) * rotationTime +
        rotationTime := by
  simp only [computeLatency, if_neg h]
  unfold timeAfter
  ring

/-- When the track buffer does not apply, the transfer begins with the first slot of the sector
after the seek. -/
theorem isLeast_computeLatency (ht : 0 ≤ t) (hnew : 0 ≤ newSector)
    (h : ¬ d.InTrackBuffer t newSector writing) :
    IsLeast {b | t + (d.timeToSeek t newSector).1 ≤ b ∧ b ∈ slotBoundaries newSector}
      (t + d.computeLatency t newSector writing - rotationTime) := by
  obtain ⟨⟨hdvd, hle⟩, hleast⟩ := isLeast_timeAfter d newSector ht
  obtain ⟨hslot, hslot'⟩ := isLeast_moduloDiff hdvd hnew
  rw [add_computeLatency h, add_sub_cancel_right]
  exact ⟨⟨hle.trans hslot.1, hslot.2⟩, fun b hb => hslot' ⟨hleast ⟨hb.2.1, hb.1⟩, hb.2⟩⟩

/-- The track buffer applies to a read on the current track whose slot has passed below the head
since the buffer began to be filled. -/
theorem inTrackBuffer_iff (ht : 0 ≤ t) (hlast : 0 ≤ d.lastSector) (hnew : 0 ≤ newSector)
    (hinit : d.bufferInit ≤ t) (hdvd : rotationTime ∣ d.bufferInit) :
    d.InTrackBuffer t newSector writing ↔
      writing = false ∧ newSector / sectorsPerTrack = d.lastSector / sectorsPerTrack ∧
        ∃ b boundary, b ∈ slotBoundaries newSector ∧ d.bufferInit ≤ b ∧
          IsLeast {b | rotationTime ∣ b ∧ t ≤ b} boundary ∧ b + rotationTime ≤ boundary := by
  refine and_congr_right fun _ => ?_
  rw [seek_eq_zero_iff hlast hnew]
  refine and_congr_right fun htrack => ?_
  have hafter := isLeast_timeAfter d newSector ht
  rw [(seek_eq_zero_iff hlast hnew).2 htrack, add_zero] at hafter
  obtain ⟨⟨hle, hslot⟩, hleast⟩ := isLeast_moduloDiff hdvd hnew
  -- the quotient is exact, since both times are sector boundaries
  have hage : (d.timeAfter t newSector - d.bufferInit).tdiv rotationTime >
        moduloDiff newSector (d.bufferInit.tdiv rotationTime) ↔
      d.bufferInit + moduloDiff newSector (d.bufferInit.tdiv rotationTime) * rotationTime +
        rotationTime ≤ d.timeAfter t newSector := by
    have hb := Int.dvd_sub hafter.1.1 hdvd
    have hpos : 0 ≤ d.timeAfter t newSector - d.bufferInit := by
      have := hafter.1.2
      omega
    rw [Int.tdiv_eq_ediv_of_nonneg hpos]
    simp only [rotationTime] at hb ⊢
    omega
  rw [hage]
  constructor
  · exact fun h => ⟨_, _, hslot, hle, hafter, h⟩
  · rintro ⟨b, boundary, hb, hinit', hboundary, hpassed⟩
    rw [hafter.unique hboundary]
    have := hleast ⟨hinit', hb⟩
    omega

theorem rotationTime_le_computeLatency (ht : 0 ≤ t) (hnew : 0 ≤ newSector) :
    rotationTime ≤ d.computeLatency t newSector writing := by
  by_cases h : d.InTrackBuffer t newSector writing
  · simp [computeLatency, if_pos h]
  · have hle := (isLeast_computeLatency ht hnew h).1.1
    have hseek : 0 ≤ (d.timeToSeek t newSector).1 := seek_nonneg
    omega

theorem seek_lt (hlast : 0 ≤ d.lastSector) (hlast' : d.lastSector < numSectors)
    (hnew : 0 ≤ newSector) (hnew' : newSector < numSectors) :
    (d.timeToSeek t newSector).1 ≤ (numTracks - 1) * seekTime := by
  have habs : |newSector.tdiv sectorsPerTrack - d.lastSector.tdiv sectorsPerTrack| ≤
      numTracks - 1 := by
    rw [Int.tdiv_eq_ediv_of_nonneg hnew, Int.tdiv_eq_ediv_of_nonneg hlast]
    refine abs_sub_le_of_nonneg_of_le ?_ ?_ ?_ ?_
    all_goals
      simp only [numSectors, sectorsPerTrack, numTracks] at hlast' hnew' ⊢
      omega
  exact mul_le_mul_of_nonneg_right habs (by decide)

/-- At most a seek across the disk and a turn of it pass before the sector does. -/
theorem computeLatency_lt (writing : Bool) (ht : 0 ≤ t) (hlast : 0 ≤ d.lastSector)
    (hlast' : d.lastSector < numSectors) (hnew : 0 ≤ newSector) (hnew' : newSector < numSectors) :
    d.computeLatency t newSector writing <
      numTracks * seekTime + (sectorsPerTrack + 1) * rotationTime := by
  by_cases h : d.InTrackBuffer t newSector writing
  · simp only [computeLatency, if_pos h]
    decide
  · have hcompute := add_computeLatency h
    have hseek := seek_lt (t := t) hlast hlast' hnew hnew'
    have hafter := timeAfter_lt d newSector ht
    have hdiff : moduloDiff newSector ((d.timeAfter t newSector).tdiv rotationTime) <
        sectorsPerTrack := by
      rw [moduloDiff_eq hnew]
      exact Int.emod_lt_of_pos _ (by decide)
    simp only [numTracks, sectorsPerTrack, rotationTime, seekTime] at *
    omega

theorem schedule_computeLatency {η : Type} (handler : η) (interrupt : Interrupt η) (ht : 0 ≤ t)
    (hnew : 0 ≤ newSector) :
    interrupt.schedule handler (d.computeLatency t newSector writing) .diskInt ≠
      .error .assertion := by
  have hpos : d.computeLatency t newSector writing > 0 :=
    lt_of_lt_of_le (by decide) (rotationTime_le_computeLatency ht hnew)
  simp only [Interrupt.schedule, if_pos hpos]
  split_ifs <;> simp

/-- **Disk latency is the true rotational wait.** A request takes at least the time of one sector,
which `Interrupt::Schedule` accepts. Without the track buffer, the transfer begins at the first
boundary after the seek at which the slot of the sector begins. The track buffer serves only reads
on the current track, of a slot that has wholly passed since the buffer began to be filled. -/
theorem computeLatency_spec (ht : 0 ≤ t) (hlast : 0 ≤ d.lastSector) (hnew : 0 ≤ newSector)
    (hinit : d.bufferInit ≤ t) (hdvd : rotationTime ∣ d.bufferInit) :
    rotationTime ≤ d.computeLatency t newSector writing ∧
      (∀ {η : Type} (handler : η) (interrupt : Interrupt η),
        interrupt.schedule handler (d.computeLatency t newSector writing) .diskInt ≠
          .error .assertion) ∧
      (¬ d.InTrackBuffer t newSector writing →
        IsLeast {b | t + (d.timeToSeek t newSector).1 ≤ b ∧ b ∈ slotBoundaries newSector}
          (t + d.computeLatency t newSector writing - rotationTime)) ∧
      (d.InTrackBuffer t newSector writing →
        writing = false ∧ newSector / sectorsPerTrack = d.lastSector / sectorsPerTrack ∧
          ∃ b boundary, b ∈ slotBoundaries newSector ∧ d.bufferInit ≤ b ∧
            IsLeast {b | rotationTime ∣ b ∧ t ≤ b} boundary ∧ b + rotationTime ≤ boundary) :=
  ⟨rotationTime_le_computeLatency ht hnew,
    fun handler interrupt => schedule_computeLatency handler interrupt ht hnew,
    isLeast_computeLatency ht hnew, (inTrackBuffer_iff ht hlast hnew hinit hdvd).1⟩

/-- A read from the sector that has just passed, and one from another track. -/
theorem computeLatency_spec_examples :
    let d : DiskTimer := ⟨false, 3, 0⟩
    rotationTime ≤ d.computeLatency 2100 3 false ∧ d.computeLatency 2100 3 false = 500 ∧
      IsLeast {b | 2600 ≤ b ∧ b ∈ slotBoundaries 40}
        (2100 + d.computeLatency 2100 40 false - rotationTime) ∧
      d.computeLatency 2100 40 false = 2400 :=
  ⟨(computeLatency_spec (by decide) (by decide) (by decide) (by decide) (by decide)).1, by decide,
    (computeLatency_spec (d := ⟨false, 3, 0⟩) (by decide) (by decide) (by decide) (by decide)
      (by decide)).2.2.1 (by decide), by decide⟩

/-! ### Requests -/

/-- `Disk::ReadRequest` and `Disk::WriteRequest`, but for the data. -/
def request (d : DiskTimer) (sectorNumber : ℤ) (writing : Bool) (interrupt : Interrupt Unit) :
    Except Fault (DiskTimer × Interrupt Unit) :=
  let ticks := d.computeLatency interrupt.stats.totalTicks sectorNumber writing
  if d.active = false ∧ 0 ≤ sectorNumber ∧ sectorNumber < numSectors then
    (interrupt.schedule () ticks .diskInt).map fun interrupt' =>
      ({ d.updateLast interrupt.stats.totalTicks sectorNumber with active := true }, interrupt')
  else .error .assertion

/-- `Disk::HandleInterrupt`, up to the call of the handler. -/
def handleInterrupt (d : DiskTimer) : DiskTimer := { d with active := false }

/-- The track buffer begins to be filled at a boundary, before the request that needs it ends. -/
theorem bufferInit_updateLast (writing : Bool) (ht : 0 ≤ t) (hnew : 0 ≤ newSector)
    (hinit : d.bufferInit ≤ t) (hdvd : rotationTime ∣ d.bufferInit) :
    rotationTime ∣ (d.updateLast t newSector).bufferInit ∧
      (d.updateLast t newSector).bufferInit ≤ t + d.computeLatency t newSector writing := by
  have hlatency : rotationTime ≤ d.computeLatency t newSector writing :=
    rotationTime_le_computeLatency ht hnew
  have hpos : (0 : ℤ) ≤ rotationTime := by decide
  by_cases hseek : (d.timeToSeek t newSector).1 = 0
  · simp only [updateLast, hseek, ne_eq, not_true, if_false]
    exact ⟨hdvd, by omega⟩
  · have hupdate : (d.updateLast t newSector).bufferInit = d.timeAfter t newSector := by
      simp only [updateLast, ne_eq, hseek, not_false_eq_true, if_true]
      rfl
    rw [hupdate, add_computeLatency fun h => hseek h.2.1]
    have hwait := mul_nonneg
      (moduloDiff_nonneg hnew ((d.timeAfter t newSector).tdiv rotationTime)) hpos
    exact ⟨(isLeast_timeAfter d newSector ht).1.1, by omega⟩

end DiskTimer

/-- What happens around the disk. -/
inductive DiskInput
  /-- Time passes. -/
  | pass (ticks : ℕ)
  | request (sectorNumber : ℤ) (writing : Bool)
  /-- The interrupt of the disk occurs, at its time or later. -/
  | interrupt

/-- The disk, with the time and the interrupt that it schedules. -/
abbrev DiskState : Type := DiskTimer × Interrupt Unit

namespace DiskState

def step (s : DiskState) : DiskInput → Except Fault DiskState
  | .pass ticks =>
    if s.2.stats.totalTicks + ticks < 2 ^ 31 then
      .ok (s.1, { s.2 with stats := { s.2.stats with
        totalTicks := s.2.stats.totalTicks + ticks } })
    else .error .undefined
  | .request sectorNumber writing => s.1.request sectorNumber writing s.2
  | .interrupt =>
    match s.2.pending with
    | [] => .error .disabled
    | toOccur :: rest =>
      if toOccur.when ≤ s.2.stats.totalTicks then
        .ok (s.1.handleInterrupt, { s.2 with pending := rest })
      else .error .disabled

end DiskState

/-- Any sequence of requests. -/
def diskSystem : StepSystem DiskState DiskInput Fault where
  init s := s = (⟨false, 0, 0⟩, .initial)
  step := DiskState.step

/-- Between requests the track buffer began to be filled in the past, and otherwise before the
request ends. -/
structure DiskInvariant (s : DiskState) : Prop where
  time : 0 ≤ s.2.stats.totalTicks
  sector : 0 ≤ s.1.lastSector ∧ s.1.lastSector < numSectors
  boundary : rotationTime ∣ s.1.bufferInit
  idle : s.1.active = false → s.2.pending = [] ∧ s.1.bufferInit ≤ s.2.stats.totalTicks
  busy : s.1.active = true → ∃ p, s.2.pending = [p] ∧ s.1.bufferInit ≤ p.when

namespace DiskInvariant

variable {s s' : DiskState}

theorem pass (h : DiskInvariant s) {ticks : ℕ} (hs : s.step (.pass ticks) = .ok s') :
    DiskInvariant s' := by
  simp only [DiskState.step] at hs
  split_ifs at hs
  obtain rfl := Except.ok.inj hs
  have htime := h.time
  refine ⟨?_, h.sector, h.boundary, fun hactive => ?_, h.busy⟩
  · dsimp only
    omega
  · obtain ⟨hpending, hinit⟩ := h.idle hactive
    exact ⟨hpending, by dsimp only; omega⟩

theorem request (h : DiskInvariant s) {sectorNumber : ℤ} {writing : Bool}
    (hs : s.step (.request sectorNumber writing) = .ok s') : DiskInvariant s' := by
  simp only [DiskState.step, DiskTimer.request] at hs
  split_ifs at hs with hreq
  obtain ⟨hactive, hsector⟩ := hreq
  obtain ⟨hpending, hinit⟩ := h.idle hactive
  obtain ⟨hboundary, hend⟩ :=
    DiskTimer.bufferInit_updateLast writing h.time hsector.1 hinit h.boundary
  simp only [Interrupt.schedule, Interrupt.insertPending, hpending, sortedInsert] at hs
  split_ifs at hs
  · cases hs
  · obtain rfl := Except.ok.inj hs
    exact ⟨h.time, hsector, hboundary, fun hidle => (by cases hidle), fun _ => ⟨_, rfl, hend⟩⟩
  · cases hs

theorem interrupt (h : DiskInvariant s) (hs : s.step .interrupt = .ok s') : DiskInvariant s' := by
  simp only [DiskState.step] at hs
  split at hs
  · cases hs
  · rename_i toOccur rest hpending
    split_ifs at hs with hwhen
    obtain rfl := Except.ok.inj hs
    have hactive : s.1.active = true := by
      by_contra hidle
      simp [(h.idle (by simpa using hidle)).1] at hpending
    obtain ⟨p, hp, hinit⟩ := h.busy hactive
    obtain ⟨rfl, rfl⟩ : p = toOccur ∧ [] = rest := by simpa [hp] using hpending
    exact ⟨h.time, h.sector, h.boundary, fun _ => ⟨rfl, hinit.trans hwhen⟩,
      fun hbusy => by cases hbusy⟩

end DiskInvariant

theorem diskInvariant_of_reachable {s : DiskState} (h : diskSystem.Reachable StepSystem.Always s) :
    DiskInvariant s := by
  refine h.invariant DiskInvariant (fun s hs => ?_) fun s input s' hs _ hstep => ?_
  · obtain rfl := hs
    exact ⟨le_refl _, by decide, dvd_zero _, fun _ => ⟨rfl, le_refl _⟩,
      fun hbusy => by cases hbusy⟩
  · cases input with
    | pass ticks => exact hs.pass hstep
    | request sectorNumber writing => exact hs.request hstep
    | interrupt => exact hs.interrupt hstep

/-- Whenever a request is made, its latency is a true rotational wait, and the request is accepted
unless the clock is about to overflow. -/
theorem diskSystem_spec {s : DiskState} (h : diskSystem.Reachable StepSystem.Always s)
    (hactive : s.1.active = false) {sectorNumber : ℤ} (hsector : 0 ≤ sectorNumber)
    (hsector' : sectorNumber < numSectors) (writing : Bool) :
    (0 ≤ s.2.stats.totalTicks ∧ 0 ≤ s.1.lastSector ∧ s.1.bufferInit ≤ s.2.stats.totalTicks ∧
      rotationTime ∣ s.1.bufferInit) ∧
      (s.2.stats.totalTicks + numTracks * seekTime + (sectorsPerTrack + 1) * rotationTime ≤
          2 ^ 31 →
        ∃ s', s.step (.request sectorNumber writing) = .ok s') := by
  have hinv := diskInvariant_of_reachable h
  refine ⟨⟨hinv.time, hinv.sector.1, (hinv.idle hactive).2, hinv.boundary⟩, fun hclock => ?_⟩
  have hlt := DiskTimer.computeLatency_lt writing hinv.time hinv.sector.1
    hinv.sector.2 hsector hsector'
  have hpos : s.1.computeLatency s.2.stats.totalTicks sectorNumber writing > 0 :=
    lt_of_lt_of_le (by decide) (DiskTimer.rotationTime_le_computeLatency hinv.time hsector)
  simp only [DiskState.step, DiskTimer.request, hactive, hsector, hsector', and_self, if_true,
    Interrupt.schedule, if_pos hpos]
  rw [if_neg (by omega)]
  exact ⟨_, rfl⟩

end Nachos
