import Qosmo.Basic
import Qosmo.Lib.Run

/-!
# Qosmo.Inth

The ARM interrupt controller (`hw/intc/calypso_inth.c`).

Thirty-two lines set bits of IT_REG (`levels`); `update` elects, among the pending
and unmasked ones, the source IRQ_NUM will return (`ithV`). Reading IRQ_NUM takes
the source: an edge source loses its pending bit there. Writing IRQ_CTRL ends the
service; the controller counts the ends of service of the TPU frame interrupt
(`frameEoi`), which is what the bridge to the DSP waits for.

Interrupt numbers, and the fields that only ever hold one, are `Fin 32`, so the
array accesses of the source need no bound here.
-/

namespace Qosmo

/-- `CALYPSO_INTH_NUM_IRQS` lines. -/
abbrev Irq := Fin 32

/-- `CalypsoINTHState`; `parentIrq` and `parentFiq` are the levels driven to the CPU. -/
structure Inth where
  ilr : Irq → Word
  ithV : Irq
  fiqV : Irq
  levels : BitVec 32
  mask : BitVec 32
  rrStart : Irq
  /-- Last number handed to the ARM by an IRQ_NUM read. -/
  lastNum : Irq
  /-- Ends of service written for the TPU frame interrupt. -/
  frameEoi : Nat
  parentIrq : Bool
  parentFiq : Bool

namespace Inth

def tpuFrame : Irq := 4

def apiIrq : Irq := 15

def reset : Inth where
  ilr := fun _ => 0
  ithV := 0
  fiqV := 0
  levels := 0
  mask := 0
  rrStart := 0
  lastNum := 0
  frameEoi := 0
  parentIrq := false
  parentFiq := false

def irqPending (s : Inth) (irq : Irq) : Bool := bitSet s.levels irq

def irqMasked (s : Inth) (irq : Irq) : Bool := bitSet s.mask irq

/-- Pending and unmasked: a bit of `levels & ~mask`. -/
def active (s : Inth) (irq : Irq) : Bool := s.irqPending irq && !s.irqMasked irq

/-- ILR bit 1: the source is configured edge. -/
def edge (s : Inth) (irq : Irq) : Bool := bitSet (s.ilr irq) 1

/-- The three sources the source code treats as pulses. -/
def pulse (irq : Irq) : Bool := irq == 4 || irq == 5 || irq == 15

/-! ### Election -/

/-- The candidates found so far by the scan of `calypso_inth_update`. -/
structure Scan where
  bestIrq : Option Irq := none
  bestIrqPrio : Nat := 0x7F
  bestFiq : Option Irq := none
  bestFiqPrio : Nat := 0x7F

/-- One iteration of the scan, `j` places after `rr_start`. -/
def consider (s : Inth) (b : Scan) (j : Irq) : Scan :=
  let i := s.rrStart + j
  if !s.active i then b
  else
    let prio := (s.ilr i &&& 0x1F).toNat
    if bitSet (s.ilr i) 8 then
      if prio < b.bestFiqPrio then { b with bestFiqPrio := prio, bestFiq := some i } else b
    else
      if prio < b.bestIrqPrio then { b with bestIrqPrio := prio, bestIrq := some i } else b

/-- The whole scan, in round-robin order. -/
def scan (s : Inth) : Scan := (List.finRange 32).foldl s.consider {}

def update (s : Inth) : Inth :=
  let b := s.scan
  { s with
    ithV := match b.bestIrq with
      | some i => i
      | none => if b.bestFiq.isNone then 0 else s.ithV
    parentIrq := b.bestIrq.isSome
    fiqV := b.bestFiq.getD s.fiqV
    parentFiq := b.bestFiq.isSome }

/-! ### Lines and registers -/

/-- Set, or clear, one bit of IT_REG. -/
def raise (s : Inth) (irq : Irq) : Inth := { s with levels := s.levels ||| BitVec.twoPow 32 irq }
def drop (s : Inth) (irq : Irq) : Inth :=
  { s with levels := s.levels &&& ~~~BitVec.twoPow 32 irq }

/-- `calypso_inth_set_irq`: the falling edge of an edge-configured pulse source is
ignored, its bit stays latched. -/
def setIrq (s : Inth) (irq : Irq) (level : Bool) : Inth :=
  (if level then s.raise irq
   else if s.edge irq && pulse irq then s
   else s.drop irq).update

/-- Taking source `num`: a pulse or edge source loses its pending bit. -/
def take (s : Inth) (num : Irq) : Inth :=
  (if pulse num || s.edge num then s.drop num else s).update

/-- Offsets of IRQ_NUM and IRQ_CTRL. -/
def isIrqNum (offset : Nat) : Bool := offset == 0x10 || offset == 0x80
def isIrqCtrl (offset : Nat) : Bool := offset == 0x14 || offset == 0x84

/-- Is this write an IRQ end of service (IRQ_CTRL, bit 0)? -/
def isEoi (offset : Nat) (value : Word) : Bool := isIrqCtrl offset && bitSet value 0

def read (s : Inth) (offset : Nat) : Inth × Word :=
  if offset = 0x00 then (s, s.levels.extractLsb' 0 16)
  else if offset = 0x02 then (s, s.levels.extractLsb' 16 16)
  else if offset = 0x08 then (s, s.mask.extractLsb' 0 16)
  else if offset = 0x0a then (s, s.mask.extractLsb' 16 16)
  else if isIrqNum offset then
    ({ s with lastNum := s.ithV }.take s.ithV, BitVec.ofNat 16 s.ithV)
  else if offset = 0x12 ∨ offset = 0x82 then (s.take s.fiqV, BitVec.ofNat 16 s.fiqV)
  else if 0x20 ≤ offset ∧ offset < 0x60 then (s, s.ilr (Fin.ofNat 32 ((offset - 0x20) / 2)))
  else (s, 0)

/-- The end-of-service write (IRQ_CTRL): the rotation moves past the elected source,
and the end of a frame service is counted. -/
def endOfService (s : Inth) (value : Word) : Inth :=
  { s with
    rrStart := if s.ithV ≠ 0 ∨ bitSet s.levels 0 then s.ithV + 1 else s.rrStart
    frameEoi := if bitSet value 0 ∧ s.lastNum = tpuFrame then s.frameEoi + 1 else s.frameEoi
    }.update

/-- A write to ILR: seven bits, and sources 7 and 18 take the priority of source 4. -/
def ilrWrite (s : Inth) (idx : Irq) (value : Word) : Inth :=
  let v := value &&& 0x7F
  let v := if idx = 7 ∨ idx = 18 then (v &&& ~~~0x1F) ||| (s.ilr 4 &&& 0x1F) else v
  { s with ilr := Function.update s.ilr idx v }

def write (s : Inth) (offset : Nat) (value : Word) : Inth :=
  if offset = 0x00 then
    { s with levels := s.levels &&& (0xFFFF0000#32 ||| value.setWidth 32) }.update
  else if offset = 0x02 then
    { s with levels := s.levels &&& (0x0000FFFF#32 ||| (value.setWidth 32 <<< 16)) }.update
  else if offset = 0x08 then
    { s with mask := (s.mask &&& 0xFFFF0000#32) ||| value.setWidth 32 }.update
  else if offset = 0x0a then
    { s with mask := (s.mask &&& 0x0000FFFF#32) ||| (value.setWidth 32 <<< 16) }.update
  else if isIrqCtrl offset then s.endOfService value
  else if 0x20 ≤ offset ∧ offset < 0x60 then s.ilrWrite (Fin.ofNat 32 ((offset - 0x20) / 2)) value
  else s

/-- The source whose ILR stands at an offset. -/
def ilrIndex (offset : Nat) : Option Irq :=
  if 0x20 ≤ offset ∧ offset < 0x60 then some (Fin.ofNat 32 ((offset - 0x20) / 2)) else none

/-- The seven bits a write leaves in ILR: sources 7 and 18 take the low five of source 4. -/
def ilrStored (s : Inth) (idx : Irq) (value : Word) : Word :=
  if idx = 7 ∨ idx = 18 then (value &&& 0x7F &&& ~~~0x1F) ||| (s.ilr 4 &&& 0x1F)
  else value &&& 0x7F

/-- `calypso_inth_arm_ack`: the DSP ends the service of the elected source. Nothing is
elected in its place before another call does. -/
def armAck (s : Inth) : Inth :=
  if s.ithV ≠ 0 ∨ bitSet s.levels 0 then { s.drop s.ithV with rrStart := s.ithV + 1 } else s

/-! ### The controller as a machine -/

/-- Calls into the controller: its lines, the guest, the DSP. -/
inductive Event
  | setIrq (irq : Irq) (level : Bool)
  | read (offset : Nat)
  | write (offset : Nat) (value : Word)
  | armAck
  deriving Repr, DecidableEq

/-- One call; a read shows its value. -/
def step (s : Inth) : Event → Inth × List Word
  | .setIrq irq level => (s.setIrq irq level, [])
  | .read offset => ((s.read offset).1, [(s.read offset).2])
  | .write offset value => (s.write offset value, [])
  | .armAck => (s.armAck, [])

def machine : Machine Inth Event Word := ⟨step⟩

/-! ### What the election finds -/

variable {s : Inth}

variable (s)

@[simp] theorem update_ilr : s.update.ilr = s.ilr := rfl
@[simp] theorem update_levels : s.update.levels = s.levels := rfl
@[simp] theorem update_mask : s.update.mask = s.mask := rfl
@[simp] theorem update_lastNum : s.update.lastNum = s.lastNum := rfl
@[simp] theorem update_frameEoi : s.update.frameEoi = s.frameEoi := rfl
@[simp] theorem update_irqPending (irq : Irq) : s.update.irqPending irq = s.irqPending irq := rfl
@[simp] theorem update_active (irq : Irq) : s.update.active irq = s.active irq := rfl

variable {s}

/-- The scan only ever elects an active source. -/
theorem consider_bestIrq {b : Scan} (h : ∀ i, b.bestIrq = some i → s.active i) (j i : Irq)
    (hi : (s.consider b j).bestIrq = some i) : s.active i := by
  simp only [consider] at hi
  split at hi
  · exact h i hi
  · rename_i hact
    split at hi
    · split at hi <;> exact h i hi
    · split at hi
      · obtain rfl : s.rrStart + j = i := Option.some.inj hi
        simpa using hact
      · exact h i hi

theorem consider_bestFiq (hno : ∀ i, bitSet (s.ilr i) 8 = false) {b : Scan}
    (h : b.bestFiq = none) (j : Irq) : (s.consider b j).bestFiq = none := by
  simp only [consider, hno, Bool.false_eq_true, if_false]
  split
  · exact h
  · split <;> exact h

theorem scan_bestIrq {i : Irq} (hi : s.scan.bestIrq = some i) : s.active i := by
  have key : ∀ (js : List Irq) (b : Scan), (∀ i, b.bestIrq = some i → s.active i) →
      ∀ i, (js.foldl s.consider b).bestIrq = some i → s.active i := by
    intro js
    induction js with
    | nil => exact fun b h => h
    | cons j js ih => exact fun b h => ih _ (consider_bestIrq h j)
  exact key _ {} (by simp) i hi

theorem scan_bestFiq (hno : ∀ i, bitSet (s.ilr i) 8 = false) : s.scan.bestFiq = none := by
  have key : ∀ (js : List Irq) (b : Scan), b.bestFiq = none →
      (js.foldl s.consider b).bestFiq = none := by
    intro js
    induction js with
    | nil => exact fun b h => h
    | cons j js ih => exact fun b h => ih _ (consider_bestFiq hno h j)
  exact key _ {} rfl

/-- No source is routed to FIQ (ILR keeps seven bits), and the elected source, if any,
is active: an IRQ_NUM read never returns a source that is not pending. -/
structure WF (s : Inth) : Prop where
  noFiq : ∀ i, bitSet (s.ilr i) 8 = false
  elected : s.ithV ≠ 0 → s.active s.ithV = true
  fiqV : s.fiqV = 0

theorem reset_wf : reset.WF := ⟨fun _ => by simp [reset, bitSet], by decide, rfl⟩

theorem update_wf (hno : ∀ i, bitSet (s.ilr i) 8 = false) (hfiq : s.fiqV = 0) : s.update.WF := by
  have hnone := scan_bestFiq hno
  refine ⟨hno, ?_, ?_⟩
  · simp only [update_active]
    simp only [update, hnone]
    cases hb : s.scan.bestIrq with
    | none => simp
    | some i => exact fun _ => scan_bestIrq hb
  · simp [update, hnone, hfiq]

/-! ### What a call can do

Every call but a write to ILR and the DSP's acknowledgement leaves the controller as it was,
or ends with an election over the same ILR. -/

/-- The result of an election from some state with the ILR and FIQ_NUM of `s`. -/
def Updated (s s' : Inth) : Prop := ∃ t : Inth, s' = t.update ∧ t.ilr = s.ilr ∧ t.fiqV = s.fiqV

theorem setIrq_updated (s : Inth) (irq : Irq) (level : Bool) : s.Updated (s.setIrq irq level) := by
  refine ⟨_, rfl, ?_⟩
  split_ifs <;> exact ⟨rfl, rfl⟩

theorem take_updated (s : Inth) (num : Irq) : s.Updated (s.take num) := by
  refine ⟨_, rfl, ?_⟩
  split <;> exact ⟨rfl, rfl⟩

/-- A read leaves the controller as it was, or takes a source. -/
inductive Reads (s : Inth) (offset : Nat) : Inth → Prop
  | irqNum : isIrqNum offset = true → Reads s offset ({ s with lastNum := s.ithV }.take s.ithV)
  | fiqNum : isIrqNum offset = false → Reads s offset (s.take s.fiqV)
  | same : isIrqNum offset = false → Reads s offset s

theorem reads_read (s : Inth) (offset : Nat) : Reads s offset (s.read offset).1 := by
  cases hnum : isIrqNum offset with
  | true =>
    have hoff : offset = 0x10 ∨ offset = 0x80 := by simpa [isIrqNum] using hnum
    rcases hoff with rfl | rfl <;> exact .irqNum rfl
  | false =>
    simp only [read, hnum, Bool.false_eq_true, if_false]
    split_ifs <;> first | exact .same hnum | exact .fiqNum hnum

/-- What a call can do. -/
inductive Called (s : Inth) : Event → Inth → Prop
  | same {e : Event} : Called s e s
  | updated {e : Event} {s' : Inth} : s.Updated s' → Called s e s'
  | ilr {offset : Nat} {idx : Irq} (value : Word) : ilrIndex offset = some idx →
      Called s (.write offset value) (s.ilrWrite idx value)
  | armAck : Called s .armAck s.armAck

theorem called_step (s : Inth) (e : Event) : Called s e (s.step e).1 := by
  cases e with
  | setIrq irq level => exact .updated (setIrq_updated s irq level)
  | read offset =>
    have hread := reads_read s offset
    simp only [step]
    generalize (s.read offset).1 = s' at hread ⊢
    cases hread with
    | irqNum => exact .updated (take_updated { s with lastNum := s.ithV } s.ithV)
    | fiqNum => exact .updated (take_updated s s.fiqV)
    | same => exact .same
  | write offset value =>
    simp only [step, write]
    split_ifs with h0 h2 h8 ha hctrl hilr
    all_goals
      first
      | exact .updated ⟨_, rfl, rfl, rfl⟩
      | exact .ilr value (if_pos hilr)
      | exact .same
  | armAck => exact .armAck

theorem ilrWrite_ilr (s : Inth) (idx : Irq) (value : Word) :
    (s.ilrWrite idx value).ilr = Function.update s.ilr idx (s.ilrStored idx value) := rfl

theorem ilrWrite_noFiq (hno : ∀ i, bitSet (s.ilr i) 8 = false) (idx : Irq) (value : Word)
    (i : Irq) : bitSet ((s.ilrWrite idx value).ilr i) 8 = false := by
  rw [ilrWrite_ilr]
  by_cases hi : i = idx
  · rw [hi, Function.update_self, ilrStored]
    split <;> simp [bitSet]
  · rw [Function.update_of_ne hi]
    exact hno i

theorem WF.of_updated {s' : Inth} (h : s.WF) (hupdated : s.Updated s') : s'.WF := by
  obtain ⟨t, rfl, hilr, hfiq⟩ := hupdated
  refine update_wf ?_ (hfiq.trans h.fiqV)
  rw [hilr]
  exact h.noFiq

theorem WF.step (h : s.WF) {e : Event} (hack : e ≠ .armAck) : (s.step e).1.WF := by
  have hcall := called_step s e
  generalize (s.step e).1 = s' at hcall ⊢
  cases hcall with
  | same => exact h
  | updated hupdated => exact h.of_updated hupdated
  | @ilr _ idx value => exact ⟨ilrWrite_noFiq h.noFiq idx value, h.elected, h.fiqV⟩
  | armAck => exact absurd rfl hack

theorem WF.setIrq (h : s.WF) (irq : Irq) (level : Bool) : (s.setIrq irq level).WF :=
  h.step (e := .setIrq irq level) nofun

theorem WF.read (h : s.WF) (offset : Nat) : (s.read offset).1.WF :=
  h.step (e := .read offset) nofun

theorem WF.write (h : s.WF) (offset : Nat) (value : Word) : (s.write offset value).WF :=
  h.step (e := .write offset value) nofun

/-! ### The TPU frame interrupt

How each access moves the three things the frame loop rests on: the pending bit of
source 4, the number last handed out, the count of ends of service. -/

def framePending (s : Inth) : Bool := s.irqPending tpuFrame

variable (s)

@[simp] theorem update_framePending : s.update.framePending = s.framePending := rfl

theorem raise_irqPending (irq j : Irq) :
    (s.raise irq).irqPending j = (s.irqPending j || decide (irq = j)) := by
  simp [irqPending, raise, bitSet, Fin.ext_iff, eq_comm]

theorem drop_irqPending (irq j : Irq) :
    (s.drop irq).irqPending j = (s.irqPending j && !decide (irq = j)) := by
  simp [irqPending, drop, bitSet, Fin.ext_iff, eq_comm]

/-- A line other than the frame interrupt's leaves it alone. -/
theorem setIrq_other {irq : Irq} (hirq : irq ≠ tpuFrame) (level : Bool) :
    (s.setIrq irq level).framePending = s.framePending := by
  unfold setIrq
  rw [update_framePending]
  split
  · simp [framePending, raise_irqPending, hirq]
  · split
    · rfl
    · simp [framePending, drop_irqPending, hirq]

@[simp] theorem setIrq_frame_up : (s.setIrq tpuFrame true).framePending := by
  simp [setIrq, framePending, raise_irqPending]

/-- The end of the pulse keeps the bit only if the source is configured edge. -/
theorem setIrq_frame_down :
    (s.setIrq tpuFrame false).framePending = (s.framePending && s.edge tpuFrame) := by
  have hpulse : pulse tpuFrame := by decide
  simp only [setIrq, Bool.false_eq_true, if_false, update_framePending, hpulse, Bool.and_true]
  cases s.edge tpuFrame with
  | true => simp
  | false => simp [framePending, drop_irqPending]

@[simp] theorem setIrq_lastNum (irq : Irq) (level : Bool) :
    (s.setIrq irq level).lastNum = s.lastNum := by
  unfold setIrq
  rw [update_lastNum]
  split_ifs <;> rfl

@[simp] theorem setIrq_frameEoi (irq : Irq) (level : Bool) :
    (s.setIrq irq level).frameEoi = s.frameEoi := by
  unfold setIrq
  rw [update_frameEoi]
  split_ifs <;> rfl

theorem take_framePending (num : Irq) :
    (s.take num).framePending = (s.framePending && !decide (num = tpuFrame)) := by
  unfold take
  rw [update_framePending]
  split
  · simp [framePending, drop_irqPending]
  · rename_i hnot
    have hne : num ≠ tpuFrame := by
      rintro rfl
      exact hnot (by simp [show pulse tpuFrame = true by decide])
    simp [hne]

@[simp] theorem take_lastNum (num : Irq) : (s.take num).lastNum = s.lastNum := by
  unfold take; rw [update_lastNum]; split <;> rfl

@[simp] theorem take_frameEoi (num : Irq) : (s.take num).frameEoi = s.frameEoi := by
  unfold take; rw [update_frameEoi]; split <;> rfl

/-- Reading IRQ_NUM hands out the elected source; no other read moves the frame
interrupt. -/
theorem read_irqNum {offset : Nat} (h : isIrqNum offset) :
    (s.read offset).1.lastNum = s.ithV ∧ (s.read offset).1.frameEoi = s.frameEoi ∧
      (s.read offset).1.framePending = (s.framePending && !decide (s.ithV = tpuFrame)) := by
  have hread := reads_read s offset
  generalize (s.read offset).1 = s' at hread ⊢
  cases hread with
  | irqNum => exact ⟨take_lastNum _ _, take_frameEoi _ _, take_framePending _ _⟩
  | fiqNum hnot | same hnot => simp [h] at hnot

variable {s}


theorem read_other (hwf : s.WF) {offset : Nat} (h : isIrqNum offset = false) :
    (s.read offset).1.lastNum = s.lastNum ∧ (s.read offset).1.frameEoi = s.frameEoi ∧
      (s.read offset).1.framePending = s.framePending := by
  have hread := reads_read s offset
  generalize (s.read offset).1 = s' at hread ⊢
  cases hread with
  | irqNum hnum => simp [h] at hnum
  | fiqNum =>
    refine ⟨take_lastNum _ _, take_frameEoi _ _, ?_⟩
    rw [take_framePending, hwf.fiqV]
    simp [show (0 : Irq) ≠ tpuFrame by decide]
  | same => exact ⟨rfl, rfl, rfl⟩

/-- A write counts an end of service only if it is one and the frame interrupt was
handed out last; it withdraws the frame interrupt only through bit 4 of IT_REG. -/
theorem write_frame (s : Inth) (offset : Nat) (value : Word) :
    (s.write offset value).lastNum = s.lastNum ∧
      (s.write offset value).frameEoi
        = (if isEoi offset value ∧ s.lastNum = tpuFrame then s.frameEoi + 1 else s.frameEoi) ∧
      (s.write offset value).framePending
        = (s.framePending && (decide (offset ≠ 0) || bitSet value 4)) := by
  by_cases hctrl : isIrqCtrl offset
  · have hoff : offset ≠ 0 ∧ offset ≠ 2 ∧ offset ≠ 8 ∧ offset ≠ 10 := by
      simp only [isIrqCtrl, Bool.or_eq_true, beq_iff_eq] at hctrl
      omega
    have heq : s.write offset value = s.endOfService value := by
      simp [write, hoff, hctrl]
    rw [heq]
    refine ⟨rfl, ?_, ?_⟩
    · simp [endOfService, isEoi, hctrl]
    · simp [hoff.1, endOfService, framePending, irqPending]
  · rw [Bool.not_eq_true] at hctrl
    simp only [write, hctrl, isEoi, Bool.false_and, Bool.false_eq_true, if_false, false_and]
    split_ifs with h0 h2 h8 ha hilr
    all_goals
      refine ⟨rfl, rfl, ?_⟩
      simp [h0, framePending, irqPending, ilrWrite, bitSet, tpuFrame]

end Inth

end Qosmo
