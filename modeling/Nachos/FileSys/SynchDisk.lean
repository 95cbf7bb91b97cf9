import Mathlib.Data.List.Perm.Basic
import Nachos.Foundations.Except
import Nachos.Machine.DiskLatency

/-!
# The synchronous disk

`filesys/synchdisk.cc`. A call of `ReadSector` or `WriteSector` makes a request to the disk, which
performs it at once and schedules an interrupt, and then waits in `P` for the `V` of the interrupt
handler. The lock that is to keep other calls away in between does nothing in `threads/synch.cc`,
so that calls of different threads overlap.

## Main definitions

* `SynchDisk`, with the calls that wait in `P`.
* `synchSystem`: calls of any threads, in any order with the interrupts of the disk.
* `Serves`: the disk that performs one call after the other.
* `Exclusive`: no call is made while another one waits, which the lock is for.

## Main results

* `synchDisk_linearizes`: whatever the threads do, the calls have the effects and the results of
  calls that are performed one after the other, no `V` is lost, and a call that is made during a
  transfer stops Nachos.
* `synchDisk_atomic`: with the lock, calls return in the order in which they were made, after the
  interrupt of their own request, and none is refused.
-/

namespace Nachos.FileSys

open Foundations

/-! ### Calls -/

/-- A call of `ReadSector` or `WriteSector`. -/
inductive SectorCall
  | read (sectorNumber : ℤ)
  | write (sectorNumber : ℤ) (data : Bytes)

namespace SectorCall

def sectorNumber : SectorCall → ℤ
  | read sectorNumber => sectorNumber
  | write sectorNumber _ => sectorNumber

def writing : SectorCall → Bool
  | read _ => false
  | write _ _ => true

/-- What `Disk::ReadRequest` and `Disk::WriteRequest` do with the UNIX file: the contents of the
buffer, and the disk. -/
def transfer (disk : Disk) : SectorCall → Bytes × Disk
  | read sectorNumber => (disk sectorNumber.toNat, disk)
  | write sectorNumber data => (data, disk.put sectorNumber.toNat data)

/-- The call, if nothing else happens meanwhile. -/
def perform (disk : Disk) (c : SectorCall) : Except Fault (Bytes × Disk) :=
  if 0 ≤ c.sectorNumber then
    match c with
    | read sectorNumber => (disk.readSector sectorNumber.toNat).map (·, disk)
    | write sectorNumber data => (disk.writeSector sectorNumber.toNat data).map (data, ·)
  else .error .assertion

theorem perform_of_lt {disk : Disk} {c : SectorCall} (h : 0 ≤ c.sectorNumber)
    (hlt : c.sectorNumber < numSectors) : c.perform disk = .ok (c.transfer disk) := by
  have hnat : c.sectorNumber.toNat < numSectors := by
    rwa [← Int.toNat_of_nonneg h, Nat.cast_lt] at hlt
  unfold perform
  rw [if_pos h]
  cases c with
  | read sectorNumber =>
    dsimp only [SectorCall.sectorNumber] at hnat ⊢
    rw [Disk.readSector_of_lt hnat]
    rfl
  | write sectorNumber data =>
    dsimp only [SectorCall.sectorNumber] at hnat ⊢
    rw [Disk.writeSector_of_lt hnat]
    rfl

end SectorCall

/-- The disk performs the calls one after the other, with these results. -/
inductive Serves (disk : Disk) : List (SectorCall × Bytes) → Disk → Prop
  | nil : Serves disk [] disk
  | snoc {calls : List (SectorCall × Bytes)} {disk' disk'' : Disk} {c : SectorCall} {data : Bytes} :
    Serves disk calls disk' → c.perform disk' = .ok (data, disk'') →
      Serves disk (calls ++ [(c, data)]) disk''

/-! ### The device and its callers -/

/-- `SynchDisk` and the calls that have made their request and not returned, in the order of the
requests, with the contents of their buffers. `τ` are the threads. -/
structure SynchDisk (τ : Type) where
  device : DiskState
  contents : Disk
  /-- The value of `semaphore`. -/
  semaphore : ℕ
  waiting : List (τ × SectorCall × Bytes)

inductive SynchInput (τ : Type)
  /-- Time passes. -/
  | pass (ticks : ℕ)
  /-- `DiskRequestDone`. -/
  | interrupt
  /-- The thread calls `ReadSector` or `WriteSector`. -/
  | call (t : τ) (c : SectorCall)
  /-- The thread finds that the value of `semaphore` is positive, and returns. -/
  | finish (t : τ)

variable {τ : Type} [DecidableEq τ]

namespace SynchDisk

def step (s : SynchDisk τ) : SynchInput τ → Except Fault (SynchDisk τ)
  | .pass ticks => (s.device.step (.pass ticks)).map fun device => { s with device := device }
  | .interrupt => (s.device.step .interrupt).map fun device =>
    { s with device := device, semaphore := s.semaphore + 1 }
  | .call t c =>
    if t ∈ s.waiting.map Prod.fst then .error .disabled
    else
      (s.device.step (.request c.sectorNumber c.writing)).map fun device =>
        let (data, contents) := c.transfer s.contents
        { s with device := device, contents := contents, waiting := s.waiting ++ [(t, c, data)] }
  | .finish t =>
    if s.semaphore = 0 ∨ t ∉ s.waiting.map Prod.fst then .error .disabled
    else .ok { s with
      semaphore := s.semaphore - 1
      waiting := s.waiting.eraseP fun e => e.1 = t }

/-- No other call waits. -/
def Exclusive (s : SynchDisk τ) : SynchInput τ → Prop
  | .call _ _ => s.waiting = []
  | _ => True

end SynchDisk

/-- Any calls of any threads; `disk` is what the disk contains at the beginning. -/
def synchSystem (τ : Type) [DecidableEq τ] (disk : Disk) :
    StepSystem (SynchDisk τ) (SynchInput τ) Fault where
  init s := s = ⟨(⟨false, 0, 0⟩, .initial), disk, 0, []⟩
  step := SynchDisk.step

/-- The requests that have been made and the calls that have returned, in order. -/
structure SynchHistory (τ : Type) where
  requests : List (τ × SectorCall × Bytes)
  returned : List (τ × SectorCall × Bytes)

/-- What an input adds. -/
def SynchHistory.record (s : SynchDisk τ) (input : SynchInput τ) (h : SynchHistory τ) :
    SynchHistory τ :=
  match input with
  | .call t c => { h with requests := h.requests ++ [(t, c, (c.transfer s.contents).1)] }
  | .finish t =>
    { h with returned := h.returned ++ (s.waiting.find? fun e => e.1 = t).toList }
  | _ => h

/-- The disk with its history. -/
abbrev synchLog (τ : Type) [DecidableEq τ] (disk : Disk) :
    StepSystem (SynchDisk τ × SynchHistory τ) (SynchInput τ) Fault :=
  (synchSystem τ disk).withHistory SynchHistory.record ⟨[], []⟩

/-! ### The invariant -/

/-- What holds in every run. -/
structure SynchInvariant (disk : Disk) (s : SynchDisk τ × SynchHistory τ) : Prop where
  device : DiskInvariant s.1.device
  /-- The requests have been performed in order. -/
  served : Serves disk (s.2.requests.map Prod.snd) s.1.contents
  perm : s.2.requests.Perm (s.2.returned ++ s.1.waiting)
  threads : (s.1.waiting.map Prod.fst).Nodup
  /-- Every call that waits has had its `V`, but for the one that is in progress. -/
  count : s.1.waiting.length = s.1.semaphore + if s.1.device.1.active then 1 else 0

/-- The entry of a thread, and what is left without it. -/
theorem exists_entry {α : Type} {l : List (τ × α)} {t : τ} (h : t ∈ l.map Prod.fst) :
    ∃ e l₁ l₂, l = l₁ ++ (t, e) :: l₂ ∧ (l.eraseP fun e => e.1 = t) = l₁ ++ l₂ ∧
      (l.find? fun e => e.1 = t) = some (t, e) := by
  obtain ⟨e, he, rfl⟩ := List.mem_map.1 h
  obtain ⟨a, l₁, l₂, hl₁, ha, hl, herase⟩ :=
    List.exists_of_eraseP (p := fun e' => decide (e'.1 = e.1)) he (by simp)
  obtain ⟨t, x⟩ := a
  obtain rfl : t = e.1 := by simpa using ha
  refine ⟨x, l₁, l₂, hl, herase, List.find?_eq_some_iff_append.2 ⟨by simp, l₁, l₂, hl, ?_⟩⟩
  exact fun b hb => by simpa using hl₁ b hb

/-- A request of which the disk takes notice. -/
theorem request_cases {d d' : DiskState} {sectorNumber : ℤ} {writing : Bool}
    (h : d.step (.request sectorNumber writing) = .ok d') :
    d.1.active = false ∧ 0 ≤ sectorNumber ∧ sectorNumber < numSectors ∧ d'.1.active = true := by
  simp only [DiskState.step, DiskTimer.request] at h
  split_ifs at h with hreq
  obtain ⟨_, -, rfl⟩ := map_eq_ok.1 h
  exact ⟨hreq.1, hreq.2.1, hreq.2.2, rfl⟩

/-- The interrupt of the disk ends a transfer. -/
theorem interrupt_cases {d d' : DiskState} (hd : DiskInvariant d)
    (h : d.step .interrupt = .ok d') : d.1.active = true ∧ d'.1.active = false := by
  simp only [DiskState.step] at h
  split at h
  · cases h
  · rename_i toOccur rest hpending
    split_ifs at h
    obtain rfl := Except.ok.inj h
    refine ⟨?_, rfl⟩
    by_contra hidle
    simp [(hd.idle (by simpa using hidle)).1] at hpending

theorem pass_cases {d d' : DiskState} {ticks : ℕ} (h : d.step (.pass ticks) = .ok d') :
    d'.1 = d.1 := by
  simp only [DiskState.step] at h
  split_ifs at h
  obtain rfl := Except.ok.inj h
  rfl

namespace SynchInvariant

variable {disk : Disk} {s s' : SynchDisk τ × SynchHistory τ}

omit [DecidableEq τ] in
theorem init : SynchInvariant disk (⟨(⟨false, 0, 0⟩, .initial), disk, 0, []⟩,
    (⟨[], []⟩ : SynchHistory τ)) where
  device := diskInvariant_of_reachable (.init rfl)
  served := .nil
  perm := .refl _
  threads := List.nodup_nil
  count := rfl

theorem pass (h : SynchInvariant disk s) {ticks : ℕ}
    (hs : (synchLog τ disk).step s (.pass ticks) = .ok s') : SynchInvariant disk s' := by
  obtain ⟨hstep, hrecord⟩ := StepSystem.withHistory_step hs
  obtain ⟨device, hdevice, hs'⟩ := map_eq_ok.1 hstep
  obtain ⟨s', history⟩ := s'
  obtain rfl : _ = s' := hs'
  obtain rfl : history = s.2 := hrecord
  refine ⟨h.device.pass hdevice, h.served, h.perm, h.threads, ?_⟩
  dsimp only
  rw [pass_cases hdevice]
  exact h.count

theorem interrupt (h : SynchInvariant disk s)
    (hs : (synchLog τ disk).step s .interrupt = .ok s') : SynchInvariant disk s' := by
  obtain ⟨hstep, hrecord⟩ := StepSystem.withHistory_step hs
  obtain ⟨device, hdevice, hs'⟩ := map_eq_ok.1 hstep
  obtain ⟨s', history⟩ := s'
  obtain rfl : _ = s' := hs'
  obtain rfl : history = s.2 := hrecord
  obtain ⟨hbusy, hidle⟩ := interrupt_cases h.device hdevice
  refine ⟨h.device.interrupt hdevice, h.served, h.perm, h.threads, ?_⟩
  have hcount := h.count
  rw [hbusy] at hcount
  simpa [hidle] using hcount

theorem call (h : SynchInvariant disk s) {t : τ} {c : SectorCall}
    (hs : (synchLog τ disk).step s (.call t c) = .ok s') : SynchInvariant disk s' := by
  obtain ⟨hstep, hrecord⟩ := StepSystem.withHistory_step hs
  simp only [synchSystem, SynchDisk.step] at hstep
  split_ifs at hstep with hthread
  obtain ⟨device, hdevice, hs'⟩ := map_eq_ok.1 hstep
  obtain ⟨s', history⟩ := s'
  obtain rfl : _ = s' := hs'
  obtain rfl : history = _ := hrecord
  obtain ⟨hidle, hnonneg, hlt, hbusy⟩ := request_cases hdevice
  refine ⟨h.device.request hdevice, ?_, ?_, ?_, ?_⟩
  · simp only [SynchHistory.record, List.map_append, List.map_singleton]
    exact h.served.snoc (SectorCall.perform_of_lt hnonneg hlt)
  · simp only [SynchHistory.record, ← List.append_assoc]
    exact h.perm.append_right _
  · rw [List.map_append, List.map_singleton, List.nodup_append_comm]
    exact List.nodup_cons.2 ⟨hthread, h.threads⟩
  · have hcount := h.count
    rw [hidle] at hcount
    simpa [hbusy] using hcount

theorem finish (h : SynchInvariant disk s) {t : τ}
    (hs : (synchLog τ disk).step s (.finish t) = .ok s') : SynchInvariant disk s' := by
  obtain ⟨hstep, hrecord⟩ := StepSystem.withHistory_step hs
  simp only [synchSystem, SynchDisk.step] at hstep
  split_ifs at hstep with hready
  obtain ⟨s', history⟩ := s'
  obtain rfl := Except.ok.inj hstep
  obtain rfl : history = _ := hrecord
  rw [not_or, not_not] at hready
  obtain ⟨e, l₁, l₂, hl, herase, hfind⟩ := exists_entry hready.2
  have hcount := h.count
  have hthreads := h.threads
  have hperm := h.perm
  simp only [hl, List.length_append, List.length_cons] at hcount
  rw [hl] at hthreads hperm
  refine ⟨h.device, h.served, ?_, ?_, ?_⟩
  · simp only [SynchHistory.record, hfind, herase, Option.toList_some, List.append_assoc,
      List.singleton_append]
    exact hperm.trans (List.perm_middle.append_left _)
  · simp only [herase]
    exact hthreads.sublist ((List.append_sublist_append_left l₁).2
      (List.sublist_cons_self _ l₂) |>.map _)
  · simp only [herase, List.length_append]
    omega

theorem step (h : SynchInvariant disk s) {input : SynchInput τ}
    (hs : (synchLog τ disk).step s input = .ok s') : SynchInvariant disk s' := by
  cases input with
  | pass ticks => exact h.pass hs
  | interrupt => exact h.interrupt hs
  | call t c => exact h.call hs
  | finish t => exact h.finish hs

end SynchInvariant

theorem synchInvariant_of_reachable {C : SynchDisk τ × SynchHistory τ → SynchInput τ → Prop}
    {disk : Disk} {s : SynchDisk τ × SynchHistory τ} (h : (synchLog τ disk).Reachable C s) :
    SynchInvariant disk s := by
  refine h.invariant (SynchInvariant disk) (fun s hs => ?_) fun s input s' hs _ hstep =>
    hs.step hstep
  obtain ⟨synch, history⟩ := s
  obtain ⟨rfl, rfl⟩ : synch = _ ∧ history = ⟨[], []⟩ := hs
  exact .init

/-! ### What the callers see -/

namespace SynchDisk

variable {s : SynchDisk τ} {t : τ}

theorem finish_eq_ok (h : t ∈ s.waiting.map Prod.fst) :
    (∃ s', s.step (.finish t) = .ok s') ↔ 0 < s.semaphore := by
  rw [Nat.pos_iff_ne_zero]
  constructor
  · rintro ⟨s', hs'⟩ hzero
    simp [step, hzero] at hs'
  · intro hpos
    simp only [step, hpos, h, not_true, or_self, if_false]
    exact ⟨_, rfl⟩

theorem call_of_active (hactive : s.device.1.active = true) (h : t ∉ s.waiting.map Prod.fst)
    (c : SectorCall) : s.step (.call t c) = .error .assertion := by
  simp [step, h, DiskState.step, DiskTimer.request, hactive]

end SynchDisk

theorem init_synchLog (disk : Disk) : (synchLog ℕ disk).init
    (⟨(⟨false, 0, 0⟩, .initial), disk, 0, []⟩, ⟨[], []⟩) := ⟨rfl, rfl⟩

/-- **Whatever the threads do**, the calls have the effects and the results of calls that the disk
performs one after the other, in the order of their requests. No `V` is lost: when no transfer is in
progress, every call that waits can return. But a call of another thread during a transfer stops
Nachos. -/
theorem synchDisk_linearizes {disk : Disk} {s : SynchDisk τ × SynchHistory τ}
    (h : (synchLog τ disk).Reachable StepSystem.Always s) :
    Serves disk (s.2.requests.map Prod.snd) s.1.contents ∧
      s.2.requests.Perm (s.2.returned ++ s.1.waiting) ∧
      (s.1.device.1.active = false →
        ∀ t ∈ s.1.waiting.map Prod.fst, ∃ s', s.1.step (.finish t) = .ok s') ∧
      (s.1.device.1.active = true →
        ∀ t ∉ s.1.waiting.map Prod.fst, ∀ c, s.1.step (.call t c) = .error .assertion) := by
  have hinv := synchInvariant_of_reachable h
  refine ⟨hinv.served, hinv.perm, fun hidle t ht => ?_,
    fun hactive t ht c => SynchDisk.call_of_active hactive ht c⟩
  rw [SynchDisk.finish_eq_ok ht]
  have hcount := hinv.count
  rw [hidle] at hcount
  have hpos := List.length_pos_of_mem ht
  rw [List.length_map] at hpos
  simp only [Bool.false_eq_true, if_false] at hcount
  omega

/-- Thread 1 calls before thread 0 has noticed its interrupt. It takes the unit of thread 0 and
returns during its own transfer, and the call of a third thread stops Nachos. -/
theorem synchDisk_linearizes_of_overlap :
    ∃ s : SynchDisk ℕ × SynchHistory ℕ, s.2.returned.map Prod.fst = [1] ∧
      s.1.waiting.map Prod.fst = [0] ∧ s.1.step (.call 2 (.read 0)) = .error .assertion := by
  obtain ⟨s, hs, hstate⟩ := StepSystem.exists_reachable_of_runInputs (init_synchLog fun _ _ => 0)
    [.call 0 (.read 40), .pass 20000, .interrupt, .call 1 (.read 40), .finish 1]
    (fun s => s.2.returned.map Prod.fst = [1] ∧ s.1.waiting.map Prod.fst = [0] ∧
      s.1.device.1.active = true) (by decide)
  obtain ⟨hreturned, hwaiting, hactive⟩ := of_decide_eq_true hstate
  obtain ⟨-, -, -, hcall⟩ := synchDisk_linearizes hs
  exact ⟨s, hreturned, hwaiting, hcall hactive 2 (by simp [hwaiting]) _⟩

/-- The device is one of the runs of the disk. -/
theorem reachable_device {C : SynchDisk τ × SynchHistory τ → SynchInput τ → Prop} {disk : Disk}
    {s : SynchDisk τ × SynchHistory τ} (h : (synchLog τ disk).Reachable C s) :
    diskSystem.Reachable StepSystem.Always s.1.device := by
  refine h.map (fun s => s.1.device) (fun s hs => ?_) fun s input s' _ _ hstep => ?_
  · obtain ⟨hs, -⟩ := hs
    exact congrArg SynchDisk.device hs
  · obtain ⟨hstep, -⟩ := StepSystem.withHistory_step hstep
    have hone {i : DiskInput} {d : DiskState} (hd : s.1.device.step i = .ok d) :
        diskSystem.Steps StepSystem.Always s.1.device d := (StepSystem.Steps.refl _).tail trivial hd
    cases input with
    | pass ticks =>
      obtain ⟨device, hdevice, hs'⟩ := map_eq_ok.1 hstep
      rw [← hs']
      exact hone hdevice
    | interrupt =>
      obtain ⟨device, hdevice, hs'⟩ := map_eq_ok.1 hstep
      rw [← hs']
      exact hone hdevice
    | call t c =>
      simp only [synchSystem, SynchDisk.step] at hstep
      split_ifs at hstep
      obtain ⟨device, hdevice, hs'⟩ := map_eq_ok.1 hstep
      rw [← hs']
      exact hone hdevice
    | finish t =>
      simp only [synchSystem, SynchDisk.step] at hstep
      split_ifs at hstep
      rw [← Except.ok.inj hstep]
      exact .refl _

/-- With exclusive calls at most one waits, and the others have returned in order. -/
theorem requests_of_exclusive {disk : Disk} {s : SynchDisk τ × SynchHistory τ}
    (h : (synchLog τ disk).Reachable (fun s input => s.1.Exclusive input) s) :
    s.2.requests = s.2.returned ++ s.1.waiting ∧ s.1.waiting.length ≤ 1 := by
  refine h.invariant
    (fun s => s.2.requests = s.2.returned ++ s.1.waiting ∧ s.1.waiting.length ≤ 1)
    (fun s hs => ?_) fun s input s' hs hexcl hstep => ?_
  · obtain ⟨synch, history⟩ := s
    obtain ⟨rfl, rfl⟩ : synch = _ ∧ history = ⟨[], []⟩ := hs
    exact ⟨rfl, Nat.zero_le 1⟩
  · obtain ⟨hrequests, hlength⟩ := hs
    obtain ⟨hstep, hrecord⟩ := StepSystem.withHistory_step hstep
    obtain ⟨s', history⟩ := s'
    obtain rfl : history = _ := hrecord
    cases input with
    | pass ticks =>
      obtain ⟨device, -, hs'⟩ := map_eq_ok.1 hstep
      obtain rfl : _ = s' := hs'
      exact ⟨hrequests, hlength⟩
    | interrupt =>
      obtain ⟨device, -, hs'⟩ := map_eq_ok.1 hstep
      obtain rfl : _ = s' := hs'
      exact ⟨hrequests, hlength⟩
    | call t c =>
      simp only [synchSystem, SynchDisk.step] at hstep
      split_ifs at hstep
      obtain ⟨device, -, hs'⟩ := map_eq_ok.1 hstep
      obtain rfl : _ = s' := hs'
      have hnone : s.1.waiting = [] := hexcl
      rw [hnone, List.append_nil] at hrequests
      simp [SynchHistory.record, hrequests, hnone]
    | finish t =>
      simp only [synchSystem, SynchDisk.step] at hstep
      split_ifs at hstep with hready
      obtain rfl : _ = s' := Except.ok.inj hstep
      rw [not_or, not_not] at hready
      obtain ⟨e, l₁, l₂, hl, -, -⟩ := exists_entry hready.2
      -- it is the only call that waits
      obtain ⟨rfl, rfl⟩ : l₁ = [] ∧ l₂ = [] := by
        simp only [hl, List.length_append, List.length_cons] at hlength
        exact ⟨List.length_eq_zero_iff.1 (by omega), List.length_eq_zero_iff.1 (by omega)⟩
      simp [SynchHistory.record, hrequests, hl]

/-- **With exclusive calls the disk is an atomic one**: the calls return in the order in which they
were made, with the effects and results of calls that are performed one after the other. A call
returns when the interrupt of its own request has occurred, and no call is refused unless its sector
does not exist or the clock is about to overflow. -/
theorem synchDisk_atomic {disk : Disk} {s : SynchDisk τ × SynchHistory τ}
    (h : (synchLog τ disk).Reachable (fun s input => s.1.Exclusive input) s) :
    Serves disk (s.2.requests.map Prod.snd) s.1.contents ∧
      s.2.requests = s.2.returned ++ s.1.waiting ∧
      (∀ t e, s.1.waiting = [(t, e)] →
        ((∃ s', s.1.step (.finish t) = .ok s') ↔ s.1.device.1.active = false)) ∧
      ∀ t (c : SectorCall), s.1.waiting = [] → 0 ≤ c.sectorNumber → c.sectorNumber < numSectors →
        s.1.device.2.stats.totalTicks + numTracks * seekTime +
          (sectorsPerTrack + 1) * rotationTime ≤ 2 ^ 31 →
        ∃ s', s.1.step (.call t c) = .ok s' := by
  have hinv := synchInvariant_of_reachable h
  have hcount := hinv.count
  refine ⟨hinv.served, (requests_of_exclusive h).1, fun t e hwaiting => ?_,
    fun t c hwaiting hsector hsector' hclock => ?_⟩
  · rw [SynchDisk.finish_eq_ok (by simp [hwaiting]), Nat.pos_iff_ne_zero]
    rw [hwaiting, List.length_singleton] at hcount
    cases hactive : s.1.device.1.active with
    | true =>
      rw [hactive, if_pos rfl] at hcount
      exact iff_of_false (by omega) (by simp)
    | false =>
      rw [hactive, if_neg Bool.false_ne_true] at hcount
      exact iff_of_true (by omega) rfl
  · have hidle : s.1.device.1.active = false := by
      rw [hwaiting, List.length_nil] at hcount
      by_contra hactive
      rw [Bool.not_eq_false] at hactive
      simp [hactive] at hcount
    obtain ⟨device, hdevice⟩ :=
      (diskSystem_spec (reachable_device h) hidle hsector hsector' c.writing).2 hclock
    simp only [SynchDisk.step, hwaiting, List.map_nil, List.not_mem_nil, if_false, hdevice]
    exact ⟨_, rfl⟩

/-- Thread 0 writes a sector, and then thread 1 reads it. -/
theorem synchDisk_atomic_of_two_calls :
    ∃ s : SynchDisk ℕ × SynchHistory ℕ, s.2.returned.map Prod.fst = [0, 1] ∧
      s.2.requests = s.2.returned ++ s.1.waiting ∧
      Serves (fun _ _ => 0) (s.2.requests.map Prod.snd) s.1.contents := by
  obtain ⟨s, hs, hreturned⟩ := StepSystem.exists_reachable_of_runInputsIf
    (C := fun s input => s.1.Exclusive input) (init_synchLog fun _ _ => 0)
    (c := fun s input => match input with
      | .call _ _ => s.1.waiting.isEmpty
      | _ => true)
    (fun s input h => by
      cases input with
      | call t c => exact List.isEmpty_iff.1 h
      | pass _ | interrupt | finish _ => trivial)
    [.call 0 (.write 40 fun _ => 7), .pass 20000, .interrupt, .finish 0, .call 1 (.read 40),
      .pass 20000, .interrupt, .finish 1]
    (fun s => s.2.returned.map Prod.fst = [0, 1]) (by decide)
  obtain ⟨hserves, hrequests, -⟩ := synchDisk_atomic hs
  exact ⟨s, of_decide_eq_true hreturned, hrequests, hserves⟩

end Nachos.FileSys
