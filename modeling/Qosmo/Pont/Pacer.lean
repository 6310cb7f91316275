import Qosmo.Lib.Run

/-!
# Qosmo.Pont.Pacer

The pace of the frames.

At the end of a frame `tdma_pacer` sets the time of the next one, a frame behind the last time it
set. A time that has passed lets the frame start at once, so that lateness is caught up; of more
than `CALYPSO_PACER_RATTRAPAGE` frames of it, the rest is given up. `frames_paced`: the frames never
come faster than the clock but for those it catches up, and no frame is lost meanwhile.
-/

namespace Qosmo.Pacer

open Machine

/-- `GSM_TDMA_NS`. -/
def tdmaNs : Int := 4615384

/-- The loop of the strict grid. -/
def align (now target : Int) : Int :=
  if target ≤ now then align now (target + tdmaNs) else target
termination_by (now + 1 - target).toNat
decreasing_by
  unfold tdmaNs
  omega

/-- `tdma_pacer`, which sets the timer for its new `target`; zero means that there is none yet. -/
def tdmaPacer (rattrapage : Nat) (target now : Int) : Int :=
  let next := (if target = 0 then now else target) + tdmaNs
  if rattrapage = 0 then align now next
  else if next < now - rattrapage * tdmaNs then now
  else next

/-- The calls, each given by its time. -/
def machine (rattrapage : Nat) : Machine Int Int Empty :=
  ⟨fun target now => (tdmaPacer rattrapage target now, [])⟩

theorem tdmaNs_pos : 0 < tdmaNs := by decide

theorem align_spec (now target : Int) : target ≤ align now target ∧ now < align now target := by
  have hpos := tdmaNs_pos
  fun_induction align now target with
  | case1 target hle ih => omega
  | case2 target hlt => omega

variable {r : Nat} {target now : Int} {ts : List Int}

theorem final_cons (target now : Int) (ts : List Int) :
    (machine r).final target (now :: ts) = (machine r).final (tdmaPacer r target now) ts := rfl

/-- The timer is set a frame later at least, and not further back than the frames to catch up. -/
theorem tdmaPacer_spec (h : target ≤ now) :
    target + tdmaNs ≤ tdmaPacer r target now ∧ now - r * tdmaNs ≤ tdmaPacer r target now := by
  have hnext : target + tdmaNs ≤ (if target = 0 then now else target) + tdmaNs := by
    split <;> omega
  have hback : 0 ≤ r * tdmaNs := Int.mul_nonneg (Int.natCast_nonneg r) (by decide)
  have hpos := tdmaNs_pos
  unfold tdmaPacer
  dsimp only
  generalize (if target = 0 then now else target) + tdmaNs = next at hnext
  have halign := align_spec now next
  split
  · omega
  · split <;> omega

theorem length_le_final (h : (machine r).Along (fun target t => target ≤ t) target ts) :
    target + ts.length * tdmaNs ≤ (machine r).final target ts := by
  induction ts generalizing target with
  | nil => simp
  | cons now ts ih =>
    obtain ⟨hstep, -⟩ := tdmaPacer_spec (r := r) h.1
    have hrest : tdmaPacer r target now + _ ≤ _ := ih h.2
    rw [List.length_cons, Int.natCast_succ, Int.add_mul, final_cons]
    omega

/-- A call that is not too late keeps to the grid. -/
theorem tdmaPacer_eq (h0 : 0 < target) (h : now < target + (r + 1) * tdmaNs) :
    tdmaPacer r target now = target + tdmaNs := by
  rw [Int.add_mul] at h
  unfold tdmaPacer
  rw [if_neg (Int.ne_of_gt h0)]
  dsimp only
  split
  · rename_i hr
    rw [hr] at h
    unfold align
    rw [if_neg (by omega)]
  · rw [if_neg (by omega)]

theorem final_eq (h0 : 0 < target)
    (h : (machine r).Along (fun target t => t < target + (r + 1) * tdmaNs) target ts) :
    (machine r).final target ts = target + ts.length * tdmaNs := by
  induction ts generalizing target with
  | nil => simp
  | cons now ts ih =>
    have hpos := tdmaNs_pos
    have hrest : (machine r).Along _ (tdmaPacer r target now) ts := h.2
    rw [final_cons]
    rw [tdmaPacer_eq h0 h.1] at hrest ⊢
    rw [ih (by omega) hrest, List.length_cons, Int.natCast_succ, Int.add_mul]
    omega

/-- **The pace.** Any part of any run: between a call at `now` and one at `t` there are as many
calls as fit in the time, and the frames to catch up. And as long as the calls are less late than
that, the times they set stay on one grid. -/
theorem frames_paced (r : Nat) (before ts : List Int) (now t : Int)
    (h : (machine r).Along (fun target t => target ≤ t) 0 (before ++ now :: (ts ++ [t]))) :
    let first := (machine r).final 0 (before ++ [now])
    ts.length * tdmaNs ≤ t - now + r * tdmaNs ∧
      ((machine r).Along (fun target t => t < target + (r + 1) * tdmaNs) first ts →
        (machine r).final first ts = first + ts.length * tdmaNs) := by
  intro first
  have hfirst : first = tdmaPacer r ((machine r).final 0 before) now := final_append ..
  obtain ⟨hbefore, hnow, hwindow⟩ := h.of_append
  replace hwindow : (machine r).Along _ (tdmaPacer r _ now) (ts ++ [t]) := hwindow
  obtain ⟨hnext, hback⟩ := tdmaPacer_spec (r := r) hnow
  rw [← hfirst] at hwindow hnext hback
  obtain ⟨hts, ht, -⟩ := hwindow.of_append
  have hlen := length_le_final hts
  have hstart := length_le_final hbefore
  have hcount := Int.mul_nonneg (Int.natCast_nonneg before.length) (Int.le_of_lt tdmaNs_pos)
  exact ⟨by omega, final_eq (by have := tdmaNs_pos; omega)⟩

/-- Two calls that are more than nine frames late lose none. -/
theorem frames_paced_late : (machine 20).final 4616384 [50000000, 50000001] = 13847152 :=
  (frames_paced 20 [] [50000000, 50000001] 1000 50000002 (by decide)).2 (by decide)

end Qosmo.Pacer
