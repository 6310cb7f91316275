import Qosmo.Basic
import Qosmo.Gsm
import Qosmo.Lib.Cyclic
import Qosmo.Lib.Run

/-!
# Qosmo.Trx.Autosync

The frame number of the TRX (`hw/arm/calypso/calypso_trx.c`).

The local counter `fn` is set by the TDMA tick. What the rest of the baseband calls the frame
number is `fn + fn_offset` (`calypso_trx_get_fn`), and the offset is learnt from the SCH: each
decoded SCH brings the frame number of the cell, and `calypso_trx_autosync_fn` takes the largest
of the last five differences. A difference is taken as it is, so that it jumps by a hyperframe when
one of the two counters starts again; the offset is kept while the largest difference is not more
than 16 away from it.

Whatever the window holds, the offset is always one of the differences that were measured
(`Tracks.autosyncFn`), and each of them is right modulo the hyperframe up to the delay of its SCH.
-/

namespace Qosmo

open Cyclic

/-- The fields of `CalypsoTRX` about the frame number. -/
structure TrxClock where
  /-- the local counter -/
  fn : BitVec 32
  fnOffset : Int
  /-- the last differences, a ring -/
  fnOffsetHist : Nat → Int
  fnOffsetN : BitVec 32
  fnSynced : Bool

namespace TrxClock

def init : TrxClock := ⟨0, 0, fun _ => 0, 0, false⟩

def fnSyncTolerance : Int := 16

def fnSyncWindow : Nat := 5

def getFn (s : TrxClock) : BitVec 32 :=
  BitVec.ofInt 32 (fold gsmHyperframe (s.fn.toNat + s.fnOffset))

/-- The largest of the first `n` differences. -/
def largest (hist : Nat → Int) (n : Nat) : Int :=
  (List.range' 1 (n - 1)).foldl (fun offset i => if offset < hist i then hist i else offset) (hist 0)

/-- Put a difference into the ring. -/
def record (s : TrxClock) (raw : Int) : TrxClock :=
  { s with
    fnOffsetHist := Function.update s.fnOffsetHist (s.fnOffsetN.toNat % fnSyncWindow) raw
    fnOffsetN := s.fnOffsetN + 1 }

/-- The largest difference in the window. -/
def measured (s : TrxClock) : Int :=
  largest s.fnOffsetHist
    (if s.fnOffsetN.toNat < fnSyncWindow then s.fnOffsetN.toNat else fnSyncWindow)

def autosyncFn (s : TrxClock) (schFn : BitVec 32) : TrxClock :=
  let s := s.record (schFn.toNat - s.fn.toNat)
  let drift := s.measured - s.fnOffset
  let drift := if drift < 0 then -drift else drift
  if s.fnSynced && decide (drift ≤ fnSyncTolerance) then s
  else { s with fnOffset := s.measured, fnSynced := true }

inductive Event where
  /-- the TDMA tick sets the local counter -/
  | frame (fn : BitVec 32)
  /-- an SCH has been decoded -/
  | sch (schFn : BitVec 32)
  deriving Repr, DecidableEq

def step (s : TrxClock) : Event → TrxClock
  | .frame fn => { s with fn := fn }
  | .sch schFn => s.autosyncFn schFn

/-- The clock of the TRX; it shows nothing. -/
def machine : Machine TrxClock Event Empty := ⟨fun s e => (s.step e, [])⟩

/-! ### The offset is one of the differences measured -/

/-- The loop picks one of the differences it looks at. -/
theorem largest_mem {P : Int → Prop} {hist : Nat → Int} {n : Nat} (h0 : P (hist 0))
    (h : ∀ i < n, P (hist i)) : P (largest hist n) := by
  have hloop : ∀ is : List Nat, (∀ i ∈ is, i < n) → ∀ offset, P offset →
      P (is.foldl (fun offset i => if offset < hist i then hist i else offset) offset) := by
    intro is
    induction is with
    | nil => exact fun _ _ hoffset => hoffset
    | cons i is ih =>
      intro his offset hoffset
      apply ih fun j hj => his j (List.mem_cons_of_mem _ hj)
      dsimp only
      split
      · exact h i (his i List.mem_cons_self)
      · exact hoffset
  apply hloop _ _ _ h0
  intro i hi
  rw [List.mem_range'_1] at hi
  omega

/-- All that is kept has been measured: the differences in the window, and the offset once there is
one. -/
structure Tracks (P : Int → Prop) (s : TrxClock) : Prop where
  hist : ∀ i < fnSyncWindow, i < s.fnOffsetN.toNat → P (s.fnOffsetHist i)
  offset : s.fnSynced = true → P s.fnOffset

variable {P : Int → Prop} {s : TrxClock}

theorem tracks_init (P : Int → Prop) : Tracks P init :=
  ⟨fun i _ hi => absurd hi (Nat.not_lt_zero i), fun h => Bool.noConfusion h⟩

theorem fnOffsetHist_record (s : TrxClock) (raw : Int) : (s.record raw).fnOffsetHist =
    Function.update s.fnOffsetHist (s.fnOffsetN.toNat % fnSyncWindow) raw := rfl

/-- A measurement goes into the window. -/
theorem Tracks.record (h : Tracks P s) {raw : Int} (hraw : P raw) : Tracks P (s.record raw) := by
  refine ⟨fun i hi hcount => ?_, h.offset⟩
  rw [fnOffsetHist_record]
  by_cases hslot : i = s.fnOffsetN.toNat % fnSyncWindow
  · rw [hslot, Function.update_self]
    exact hraw
  · rw [Function.update_of_ne hslot]
    apply h.hist i hi
    have hlt := s.fnOffsetN.isLt
    have hnext : (s.record raw).fnOffsetN.toNat = (s.fnOffsetN.toNat + 1) % 2 ^ 32 :=
      BitVec.toNat_add _ _
    unfold fnSyncWindow at hi hslot
    omega

/-- The first place of the window is in use from the first measurement on, also when the count
starts again at 0: the measurement has just been put there. -/
theorem Tracks.first (h : Tracks P s) {raw : Int} (hraw : P raw) :
    P ((s.record raw).fnOffsetHist 0) := by
  rw [fnOffsetHist_record]
  by_cases hslot : 0 = s.fnOffsetN.toNat % fnSyncWindow
  · rw [← hslot, Function.update_self]
    exact hraw
  · rw [Function.update_of_ne hslot]
    apply h.hist 0 (by decide)
    unfold fnSyncWindow at hslot
    omega

/-- A measurement keeps it so, and leaves an offset. -/
theorem Tracks.autosyncFn (h : Tracks P s) {schFn : BitVec 32}
    (hraw : P ((schFn.toNat : Int) - s.fn.toNat)) :
    Tracks P (s.autosyncFn schFn) ∧ (s.autosyncFn schFn).fnSynced := by
  have hrecord := h.record hraw
  have hfirst := h.first hraw
  unfold TrxClock.autosyncFn
  generalize s.record ((schFn.toNat : Int) - s.fn.toNat) = u at hrecord hfirst
  generalize hdrift : (if u.measured - u.fnOffset < 0 then -(u.measured - u.fnOffset)
    else u.measured - u.fnOffset) = drift
  by_cases hkeep : (u.fnSynced && decide (drift ≤ fnSyncTolerance))
  · simp only [hdrift, hkeep, if_true]
    exact ⟨hrecord, (Bool.and_eq_true_iff.mp hkeep).1⟩
  · simp only [hdrift, hkeep]
    refine ⟨⟨hrecord.hist, fun _ => largest_mem hfirst fun i hi => ?_⟩, rfl⟩
    apply hrecord.hist i
    · split at hi <;> omega
    · split at hi <;> omega

/-! ### Observations of a cell -/

/-- The SCH frame is `offset` ahead of the local counter modulo the hyperframe, except that the
counter has gone on for at most `late` frames before the SCH was looked at. -/
def Observes (offset late : Int) (s : TrxClock) : Event → Prop
  | .frame _ => True
  | .sch schFn => ∃ delay, 0 ≤ delay ∧ delay ≤ late ∧
      schFn.toNat ≡ s.fn.toNat + offset - delay [ZMOD gsmHyperframe]

/-- A difference that is the offset of the cell up to the delay of an SCH. -/
def Measures (offset late raw : Int) : Prop :=
  ∃ delay, 0 ≤ delay ∧ delay ≤ late ∧ raw ≡ offset - delay [ZMOD gsmHyperframe]

variable {offset late : Int}

/-- An SCH of the cell keeps the clock on measurements of it. -/
theorem Tracks.sch (h : Tracks (Measures offset late) s) {schFn : BitVec 32}
    (hsch : Observes offset late s (.sch schFn)) :
    Tracks (Measures offset late) (s.autosyncFn schFn) ∧ (s.autosyncFn schFn).fnSynced := by
  obtain ⟨delay, hpos, hle, hmod⟩ := hsch
  refine h.autosyncFn ⟨delay, hpos, hle, ?_⟩
  have hraw := hmod.sub_right (s.fn.toNat : Int)
  have hcancel : (s.fn.toNat : Int) + offset - delay - s.fn.toNat = offset - delay := by omega
  rwa [hcancel] at hraw

theorem tracks_step {e : Event} (h : Tracks (Measures offset late) s)
    (he : Observes offset late s e) : Tracks (Measures offset late) (s.step e) := by
  cases e with
  | frame fn => exact ⟨h.hist, h.offset⟩
  | sch schFn => exact (h.sch he).1

theorem getFn_modEq (s : TrxClock) :
    (s.getFn.toNat : Int) ≡ s.fn.toNat + s.fnOffset [ZMOD gsmHyperframe] := by
  unfold getFn
  rw [toNat_ofInt_fold (by decide) (by decide)]
  exact fold_modEq (by decide) _

/-- Once there is an offset, the frame number is late by no more than the SCH was. -/
theorem getFn_late (h : Tracks (Measures offset late) s) (hsynced : s.fnSynced) :
    Within gsmHyperframe late s.getFn.toNat (s.fn.toNat + offset) := by
  obtain ⟨delay, hpos, hle, hmod⟩ := h.offset hsynced
  refine ⟨-delay, ?_, ?_⟩
  · rw [abs_neg, abs_of_nonneg hpos]
    exact hle
  · have hfn := (getFn_modEq s).trans (hmod.add_left (s.fn.toNat : Int))
    rwa [← add_sub_assoc, sub_eq_add_neg] at hfn

/-- After every SCH of a cell whose SCHs are looked at no more than `late` frames late, the frame
number is right up to `late` frames and the tolerance, modulo the hyperframe: also where one of the
counters has started again inside the window. -/
theorem getFn_within {es : List Event} {schFn : BitVec 32}
    (hrun : machine.Along (Observes offset late) init (es ++ [.sch schFn])) :
    Within gsmHyperframe (late + fnSyncTolerance)
      (machine.final init (es ++ [.sch schFn])).getFn.toNat
      ((machine.final init (es ++ [.sch schFn])).fn.toNat + offset) := by
  obtain ⟨hbefore, hlast, -⟩ := Machine.Along.of_append hrun
  have htracks : Tracks (Measures offset late) (machine.final init es) :=
    Machine.invariant (I := Tracks (Measures offset late)) (fun _ _ h he => tracks_step h he)
      (tracks_init _) hbefore
  rw [Machine.final_append]
  have hsync := htracks.sch hlast
  exact (getFn_late hsync.1 hsync.2).mono (le_add_of_nonneg_right (by decide))

/-- A cell 100 frames ahead: an SCH one frame late just before the local counter starts again, and
one in time just behind. The differences measured are a hyperframe apart. -/
def aroundTheWrap : List Event := [.frame 2715646, .sch 97, .frame 3]

theorem getFn_within_around_the_wrap :
    (machine.final init (aroundTheWrap ++ [.sch 103])).getFn = 103 ∧
    Within gsmHyperframe (1 + fnSyncTolerance)
      (machine.final init (aroundTheWrap ++ [.sch 103])).getFn.toNat
      ((machine.final init (aroundTheWrap ++ [.sch 103])).fn.toNat + 100) := by
  refine ⟨by decide +kernel, getFn_within ⟨trivial, ?_, trivial, ?_, trivial⟩⟩
  · exact ⟨1, by decide, by decide, by decide⟩
  · exact ⟨0, by decide, by decide, by decide⟩

end TrxClock

end Qosmo
