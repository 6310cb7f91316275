import Qosmo.Basic
import Qosmo.Lib.Run

/-!
# Qosmo.Bsp.Basic

The burst queue of a timeslot (`hw/arm/calypso/l1-dsp/calypso_bsp.c`).

Bursts arrive ahead of the frame they belong to and wait in a table of slots until the
frame number of the machine comes near theirs. `bsp_enqueue` puts a burst into a slot,
`bsp_take_for_fn` looks up the burst closest to a frame and drops what is too old, and the
drain loop of `calypso_bsp_deliver_buffered` consumes what the lookups return until there
is nothing more.

There is one queue per timeslot and nothing is shared between them; the model is that of
one. A slot holds its samples as a list: `n` is its length, and no code reads a slot past
`n`. The statistics and the logs are left out, and so is where in the memory of the DSP a
delivered burst is written.
-/

namespace Qosmo.Bsp

def hyperframe : Nat := 2715648

def queueLen : Nat := 8192

def fnMatchWindow : Int := 64

/-- `BSP_IQ_MAX_I16`. -/
def iqMax : Nat := 384

def int32Max : Int := 2147483647

structure Slot where
  iq : List Word
  fn : Nat
  valid : Bool
  deriving Repr, DecidableEq

/-- `BspBurstQueue`: the slots of a timeslot. -/
abbrev BurstQueue := List Slot

def BurstQueue.empty : BurstQueue := List.replicate queueLen ⟨[], 0, false⟩

/-- `bsp_fn_delta`: the signed distance from `refFn` to `entryFn` around the hyperframe,
in `(-H/2, H/2]`. -/
def fnDelta (entryFn refFn : Nat) : Int :=
  let d := (entryFn : Int) - refFn
  if (hyperframe / 2 : Nat) < d then d - hyperframe
  else if d ≤ -((hyperframe / 2 : Nat) : Int) then d + hyperframe
  else d

/-- `ad`. -/
def fnDist (entryFn refFn : Nat) : Int :=
  let d := fnDelta entryFn refFn
  if d < 0 then -d else d

/-! ### `bsp_enqueue` -/

/-- Where the loop of `bsp_enqueue` ends: at a slot that has the frame already, or past
the last one. -/
inductive Place
  | same (i : Nat)
  | other (freeIdx : Option Nat) (oldestIdx : Nat)
  deriving Repr, DecidableEq

/-- The loop of `bsp_enqueue`, from slot `i` on. -/
def enqueueScan (fn : Nat) : Nat → BurstQueue → Option Nat → Nat → Int → Place
  | _, [], freeIdx, oldestIdx, _ => .other freeIdx oldestIdx
  | i, s :: slots, freeIdx, oldestIdx, oldestDelta =>
    if s.valid = true ∧ s.fn = fn then .same i
    else if s.valid = false then
      enqueueScan fn (i + 1) slots (freeIdx <|> some i) oldestIdx oldestDelta
    else if fnDelta s.fn fn < oldestDelta then
      enqueueScan fn (i + 1) slots freeIdx i (fnDelta s.fn fn)
    else enqueueScan fn (i + 1) slots freeIdx oldestIdx oldestDelta

/-- `bsp_enqueue`: a frame that is there is overwritten; a full queue loses its oldest
burst. -/
def enqueue (q : BurstQueue) (fn : Nat) (iq : List Word) : BurstQueue :=
  match enqueueScan fn 0 q none 0 int32Max with
  | .same i => q.modify i fun s => { s with iq := iq }
  | .other freeIdx oldestIdx => q.set (freeIdx.getD oldestIdx) ⟨iq, fn, true⟩

/-! ### Lookups -/

/-- The loop of `bsp_take_for_fn`, from slot `i` on, with the match so far. -/
def takeScan (currentFn : Nat) : Nat → BurstQueue → Option Nat → Int → BurstQueue × Option Nat
  | _, [], found, _ => ([], found)
  | i, s :: slots, found, bestAbs =>
    if s.valid = false then
      let r := takeScan currentFn (i + 1) slots found bestAbs
      (s :: r.1, r.2)
    else if fnDelta s.fn currentFn < -fnMatchWindow then
      let r := takeScan currentFn (i + 1) slots found bestAbs
      ({ s with valid := false } :: r.1, r.2)
    else if fnDist s.fn currentFn ≤ fnMatchWindow ∧ fnDist s.fn currentFn < bestAbs then
      let r := takeScan currentFn (i + 1) slots (some i) (fnDist s.fn currentFn)
      (s :: r.1, r.2)
    else
      let r := takeScan currentFn (i + 1) slots found bestAbs
      (s :: r.1, r.2)

/-- `bsp_take_for_fn`: the queue without what is too old, and the slot returned. -/
def takeForFn (q : BurstQueue) (currentFn : Nat) : BurstQueue × Option Nat :=
  takeScan currentFn 0 q none int32Max

/-- The loop of `bsp_take_nearest`. -/
def nearestScan (currentFn : Nat) : Nat → BurstQueue → Option Nat → Int → Option Nat
  | _, [], best, _ => best
  | i, s :: slots, best, bestAbs =>
    if s.valid = false then nearestScan currentFn (i + 1) slots best bestAbs
    else if fnDist s.fn currentFn < bestAbs then
      nearestScan currentFn (i + 1) slots (some i) (fnDist s.fn currentFn)
    else nearestScan currentFn (i + 1) slots best bestAbs

def takeNearest (q : BurstQueue) (currentFn : Nat) : Option Nat :=
  nearestScan currentFn 0 q none int32Max

/-! ### The drain loop -/

/-- What a turn of the drain loop delivers to the DSP: the frame and at most
`BSP_IQ_MAX_I16` of its samples. -/
structure Delivery where
  fn : Nat
  iq : List Word
  deriving Repr, DecidableEq

/-- `sl = rxwin ? bsp_take_nearest(tn, current_fn) : bsp_take_for_fn(tn, current_fn)`. -/
def take (q : BurstQueue) (currentFn : Nat) (rxwin : Bool) : BurstQueue × Option Nat :=
  if rxwin then (q, takeNearest q currentFn) else takeForFn q currentFn

/-- `sl->valid = false`. -/
def consume (q : BurstQueue) (i : Nat) : BurstQueue := q.modify i fun s => { s with valid := false }

def delivered (q : BurstQueue) (i : Nat) : List Delivery :=
  (q[i]?.map fun s => ⟨s.fn, s.iq.take iqMax⟩).toList

/-- One turn of the drain loop: the lookup, and the burst it returned consumed. -/
def turn (q : BurstQueue) (currentFn : Nat) (rxwin : Bool) : BurstQueue × List Delivery :=
  match take q currentFn rxwin with
  | (q', none) => (q', [])
  | (q', some i) => (consume q' i, delivered q' i)

/-- The drain loop of `calypso_bsp_deliver_buffered` for this timeslot, in at most `fuel`
lookups. -/
def drain (currentFn : Nat) (rxwin : Bool) : Nat → BurstQueue → Option (BurstQueue × List Delivery)
  | 0, _ => none
  | fuel + 1, q =>
    match take q currentFn rxwin with
    | (q', none) => some (q', [])
    | (q', some i) =>
      (drain currentFn rxwin fuel (consume q' i)).map fun r => (r.1, delivered q' i ++ r.2)

/-! ### The queue as a machine -/

inductive Event
  | enqueue (fn : Nat) (iq : List Word)
  | turn (currentFn : Nat) (rxwin : Bool)
  deriving Repr, DecidableEq

def step (q : BurstQueue) : Event → BurstQueue × List Delivery
  | .enqueue fn iq => (enqueue q fn iq, [])
  | .turn currentFn rxwin => turn q currentFn rxwin

/-- The queue driven by arrivals and turns of the drain loop, in any order. -/
def machine : Machine BurstQueue Event Delivery := ⟨step⟩

end Qosmo.Bsp
