import Qosmo.Basic
import Qosmo.Lib.Ring
import Qosmo.Lib.Run

/-!
# Qosmo.Iota

The analog baseband chip TWL3025 on the TSP bus (`calypso_iota.c`).

The TPU sequencer writes one byte at a time. When a write raises BDLENA, a receive pulse is
queued for the timeslot the sequencer was armed for, and the burst receiver consumes the
pulses by timeslot, in any order. The queue is an array of 32 cells with a head and a tail:
consuming a pulse that is not the oldest moves the ones before it by a cell.

`Pulses` is what the chip is for, a list of timeslots; `Iota.refines_pulses` says that the array
implements it.
-/

namespace Qosmo

/-! ### The chip -/

/-- The static `iota`. The number of writes seen is left out: only the log reads it. -/
structure Iota where
  lastByte : Byte
  bdlEna : Bool
  bulEna : Bool
  /-- Rising edges of BDLENA so far. -/
  bdlPulses : BitVec 32
  pendingTn : Nat → Byte
  pendingHead : Nat
  pendingTail : Nat

namespace Iota

def pendingMax : Nat := 32

/-- `IOTA_TSP_BULENA` and `IOTA_TSP_BDLENA`, by bit number. -/
def tspBulena : Nat := 6
def tspBdlena : Nat := 2

def init : Iota where
  lastByte := 0
  bdlEna := false
  bulEna := false
  bdlPulses := 0
  pendingTn := fun _ => 0
  pendingHead := 0
  pendingTail := 0

def pendingCount (s : Iota) : Nat :=
  if s.pendingTail < s.pendingHead then s.pendingTail + pendingMax - s.pendingHead
  else s.pendingTail - s.pendingHead

/-- `iota_pending_push`: a full queue loses its oldest pulse first. -/
def pendingPush (s : Iota) (tn : Byte) : Iota :=
  let s :=
    if pendingMax - 1 ≤ s.pendingCount then
      { s with pendingHead := (s.pendingHead + 1) % pendingMax }
    else s
  { s with
    pendingTn := Function.update s.pendingTn s.pendingTail tn
    pendingTail := (s.pendingTail + 1) % pendingMax }

def tspWrite (s : Iota) (data expectedTn : Byte) : Iota :=
  let prevBdl := s.bdlEna
  let s :=
    { s with
      lastByte := data, bdlEna := bitSet data tspBdlena, bulEna := bitSet data tspBulena }
  if !prevBdl && s.bdlEna then
    { s with bdlPulses := s.bdlPulses + 1 }.pendingPush expectedTn
  else s

/-- `calypso_iota_take_bdl_pulse`: the oldest pulse of the timeslot, if there is one, is
overwritten by the ones before it. -/
def takeBdlPulse (s : Iota) (tn : Byte) : Iota × Bool :=
  match (List.range s.pendingCount).find?
      fun i => s.pendingTn ((s.pendingHead + i) % pendingMax) == tn with
  | some i =>
    ({ s with
        pendingTn := Ring.shift pendingMax s.pendingHead i s.pendingTn
        pendingHead := (s.pendingHead + 1) % pendingMax }, true)
  | none => (s, false)

/-- A write on the bus, or a burst that asks for a pulse of its timeslot. -/
inductive Event
  | tspWrite (data expectedTn : Byte)
  | takeBdlPulse (tn : Byte)
  deriving Repr, DecidableEq

/-- A call shows whether a pulse was consumed. -/
def step (s : Iota) : Event → Iota × List Bool
  | .tspWrite data expectedTn => (s.tspWrite data expectedTn, [])
  | .takeBdlPulse tn => ((s.takeBdlPulse tn).1, [(s.takeBdlPulse tn).2])

def machine : Machine Iota Event Bool := ⟨step⟩

end Iota

/-! ### What it is for -/

/-- The level of BDLENA, and the timeslots of the pulses not consumed, oldest first. -/
structure Pulses where
  ena : Bool
  pending : List Byte
  deriving Repr, DecidableEq

namespace Pulses

/-- Pulses that can wait. -/
def room : Nat := 31

/-- A pulse joins the others; if there is no room, the oldest one is lost. -/
def push (pending : List Byte) (tn : Byte) : List Byte :=
  (if pending.length = room then pending.tail else pending) ++ [tn]

/-- A rise of BDLENA is a pulse; the oldest pulse of a timeslot is consumed. -/
def step (p : Pulses) : Iota.Event → Pulses × List Bool
  | .tspWrite data tn =>
    (⟨bitSet data Iota.tspBdlena,
      if !p.ena && bitSet data Iota.tspBdlena then push p.pending tn else p.pending⟩, [])
  | .takeBdlPulse tn => ({ p with pending := p.pending.erase tn }, [p.pending.contains tn])

def machine : Machine Pulses Iota.Event Bool := ⟨step⟩

end Pulses

/-! ### The array implements the list -/

namespace Iota

variable {s : Iota}

def pending (s : Iota) : List Byte :=
  Ring.window s.pendingTn pendingMax s.pendingHead s.pendingCount

/-- What the array stands for. -/
def pulses (s : Iota) : Pulses := ⟨s.bdlEna, s.pending⟩

/-- The indices are those of cells. -/
structure WF (s : Iota) : Prop where
  head_lt : s.pendingHead < pendingMax
  tail_lt : s.pendingTail < pendingMax

theorem init_wf : init.WF := ⟨by decide, by decide⟩

theorem WF.count_lt (h : s.WF) : s.pendingCount < pendingMax := by
  have hhead := h.head_lt
  have htail := h.tail_lt
  unfold pendingCount
  split <;> omega

theorem WF.tail_eq (h : s.WF) : (s.pendingHead + s.pendingCount) % pendingMax = s.pendingTail := by
  have hhead := h.head_lt
  have htail := h.tail_lt
  unfold pendingCount
  unfold pendingMax at *
  split <;> omega

theorem WF.count_eq {n : Nat} (h : s.WF) (hn : n < pendingMax)
    (htail : (s.pendingHead + n) % pendingMax = s.pendingTail) : s.pendingCount = n := by
  have hhead := h.head_lt
  have hlt := h.tail_lt
  unfold pendingCount
  unfold pendingMax at *
  split <;> omega

@[simp] theorem pending_length (s : Iota) : s.pending.length = s.pendingCount := Ring.length_window

/-- The head moved on: the oldest pulse is gone. -/
theorem pending_drop (h : s.WF) (hpos : 0 < s.pendingCount) :
    let s' := { s with pendingHead := (s.pendingHead + 1) % pendingMax }
    s'.WF ∧ s'.pendingCount = s.pendingCount - 1 ∧ s'.pending = s.pending.tail := by
  intro s'
  have hwf : s'.WF := ⟨Nat.mod_lt _ (by decide), h.tail_lt⟩
  have hcount : s'.pendingCount = s.pendingCount - 1 := by
    have hlt := h.count_lt
    have htail := h.tail_eq
    refine hwf.count_eq (by omega) ?_
    show ((s.pendingHead + 1) % pendingMax + (s.pendingCount - 1)) % pendingMax = s.pendingTail
    rw [Nat.mod_add_mod, ← htail]
    congr 1
    omega
  refine ⟨hwf, hcount, ?_⟩
  obtain ⟨n, hn⟩ : ∃ n, s.pendingCount = n + 1 := ⟨s.pendingCount - 1, by omega⟩
  rw [pending, pending, hcount, hn, Ring.window_pop h.head_lt]
  rfl

/-- Room for a pulse: it is put behind the others. -/
theorem pending_append (h : s.WF) (hroom : s.pendingCount < pendingMax - 1) (tn : Byte) : let s' :=
      { s with
        pendingTn := Function.update s.pendingTn s.pendingTail tn
        pendingTail := (s.pendingTail + 1) % pendingMax }
    s'.WF ∧ s'.pending = s.pending ++ [tn] := by
  intro s'
  have hwf : s'.WF := ⟨h.head_lt, Nat.mod_lt _ (by decide)⟩
  have hcount : s'.pendingCount = s.pendingCount + 1 := by
    refine hwf.count_eq (Nat.add_lt_of_lt_sub hroom) ?_
    show (s.pendingHead + (s.pendingCount + 1)) % pendingMax = (s.pendingTail + 1) % pendingMax
    rw [← h.tail_eq, Nat.mod_add_mod, Nat.add_assoc]
  refine ⟨hwf, ?_⟩
  rw [pending, pending, hcount, ← Ring.window_push h.count_lt tn]
  show Ring.window (Function.update s.pendingTn s.pendingTail tn) _ _ _ = _
  rw [← h.tail_eq]

theorem pendingPush_spec (h : s.WF) (tn : Byte) :
    (s.pendingPush tn).WF ∧ (s.pendingPush tn).pending = Pulses.push s.pending tn := by
  have hlt := h.count_lt
  unfold pendingPush Pulses.push
  rw [pending_length]
  by_cases hfull : pendingMax - 1 ≤ s.pendingCount
  · -- the head moves on first, which makes room for one
    have hcount : s.pendingCount = Pulses.room := by
      unfold Pulses.room
      unfold pendingMax at hlt hfull
      omega
    obtain ⟨hwf, hless, hpending⟩ := pending_drop h (by rw [hcount]; decide)
    rw [if_pos hfull, if_pos hcount, ← hpending]
    refine pending_append hwf ?_ tn
    rw [hless, hcount]
    decide
  · have hcount : s.pendingCount ≠ Pulses.room := fun heq => hfull (by rw [heq]; decide)
    rw [if_neg hfull, if_neg hcount]
    exact pending_append h (Nat.lt_of_not_le hfull) tn

theorem pendingPush_bdlEna (s : Iota) (tn : Byte) : (s.pendingPush tn).bdlEna = s.bdlEna := by
  unfold pendingPush
  split <;> rfl

theorem tspWrite_spec (h : s.WF) (data tn : Byte) :
    (s.tspWrite data tn).WF ∧
      (s.tspWrite data tn).pulses = (s.pulses.step (.tspWrite data tn)).1 := by
  unfold tspWrite
  by_cases hrise : (!s.bdlEna && bitSet data tspBdlena)
  · simp only [Pulses.step, pulses, hrise, if_true, pendingPush_bdlEna]
    set s' : Iota :=
      { s with
        lastByte := data, bdlEna := bitSet data tspBdlena, bulEna := bitSet data tspBulena
        bdlPulses := s.bdlPulses + 1 }
    have hwf : s'.WF := ⟨h.head_lt, h.tail_lt⟩
    obtain ⟨hwf', hpending⟩ := pendingPush_spec hwf tn
    exact ⟨hwf', congrArg _ hpending⟩
  · simp only [Pulses.step, pulses, hrise]
    exact ⟨⟨h.head_lt, h.tail_lt⟩, rfl⟩

/-- The pulse found is the oldest one of its timeslot. -/
theorem idxOf_pending {tn : Byte} {i : Nat} (h : (List.range s.pendingCount).find?
      (fun i => s.pendingTn ((s.pendingHead + i) % pendingMax) == tn) = some i) :
    i < s.pendingCount ∧ s.pending.idxOf tn = i := by
  obtain ⟨hfound, hmem, hbefore⟩ := List.find?_range_eq_some.mp h
  have hi : i < s.pendingCount := List.mem_range.mp hmem
  refine ⟨hi, ?_⟩
  rw [List.idxOf, List.findIdx_eq (by rwa [pending_length])]
  simp only [pending, Ring.window, List.getElem_map, List.getElem_range]
  refine ⟨hfound, fun j hj => ?_⟩
  simpa using hbefore j hj

theorem not_mem_pending {tn : Byte} (h : (List.range s.pendingCount).find?
      (fun i => s.pendingTn ((s.pendingHead + i) % pendingMax) == tn) = none) : tn ∉ s.pending := by
  intro hmem
  obtain ⟨i, hi, htn⟩ := List.mem_map.mp hmem
  have hno := List.find?_eq_none.mp h i hi
  exact hno (beq_iff_eq.mpr htn)

theorem takeBdlPulse_spec (h : s.WF) (tn : Byte) :
    (s.takeBdlPulse tn).1.WF ∧
      ((s.takeBdlPulse tn).1.pulses, [(s.takeBdlPulse tn).2])
        = s.pulses.step (.takeBdlPulse tn) := by
  unfold takeBdlPulse
  split
  · rename_i i hfind
    obtain ⟨hi, hidx⟩ := idxOf_pending hfind
    have hmem : tn ∈ s.pending := by
      rw [← List.idxOf_lt_length_iff, hidx, pending_length]
      exact hi
    obtain ⟨hwf, hcount, -⟩ := pending_drop h (Nat.zero_lt_of_lt hi)
    obtain ⟨n, hn⟩ : ∃ n, s.pendingCount = n + 1 := ⟨s.pendingCount - 1, by omega⟩
    refine ⟨⟨hwf.head_lt, hwf.tail_lt⟩, ?_⟩
    have hpending : Ring.window (Ring.shift pendingMax s.pendingHead i s.pendingTn) pendingMax
        ((s.pendingHead + 1) % pendingMax) (s.pendingCount - 1) = s.pending.erase tn := by
      -- the older pulses move one cell on, over the one taken, and the head follows
      have hlt := h.count_lt
      rw [List.erase_eq_eraseIdx_of_idxOf hidx, pending, hn]
      exact Ring.window_shift (by omega) (by omega)
    have hcontains : s.pending.contains tn := List.contains_iff_mem.mpr hmem
    simp only [Pulses.step, pulses, hcontains, ← hpending, ← hcount]
    rfl
  · rename_i hfind
    have hnot := not_mem_pending hfind
    have hcontains : s.pending.contains tn = false :=
      Bool.eq_false_iff.mpr fun hc => hnot (List.contains_iff_mem.mp hc)
    refine ⟨h, ?_⟩
    simp only [Pulses.step, pulses, List.erase_of_not_mem hnot, hcontains]

/-- One call does to the list what it does to the array, and shows the same. -/
theorem step_refines (h : s.WF) (e : Event) :
    (s.step e).1.WF ∧ ((s.step e).1.pulses, (s.step e).2) = s.pulses.step e := by
  cases e with
  | tspWrite data tn =>
    obtain ⟨hwf, hpulses⟩ := tspWrite_spec h data tn
    exact ⟨hwf, Prod.ext hpulses rfl⟩
  | takeBdlPulse tn => exact takeBdlPulse_spec h tn

/-- **The pending pulses.** Over every history the array holds what the list would hold, and
the same consumptions succeed: the oldest pulse of a timeslot goes, the others stay in order, a
pulse too many pushes out the oldest. No more than 31 wait. -/
theorem refines_pulses (es : List Event) :
    (machine.final init es).pending = (Pulses.machine.final ⟨false, []⟩ es).pending ∧
      machine.trace init es = Pulses.machine.trace ⟨false, []⟩ es ∧
      (machine.final init es).pending.length ≤ 31 := by
  obtain ⟨hwf, hfinal, htrace⟩ :=
    Machine.abstraction (M := machine) (N := Pulses.machine) (I := WF) pulses
      (fun _ e h _ => step_refines h e) init_wf (Machine.along_true init es)
  refine ⟨congrArg Pulses.pending hfinal, htrace, ?_⟩
  rw [pending_length]
  exact Nat.le_of_lt_succ hwf.count_lt

end Iota

end Qosmo
