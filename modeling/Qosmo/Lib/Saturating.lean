import Mathlib.Order.Lattice
import Qosmo.Lib.Run

/-!
# Qosmo.Lib.Saturating

Saturating accumulators over the integers: a family of values kept between two bounds by clamping,
each with a sticky flag that tells whether it was ever clamped.

The accumulators are a machine that is fed addends and shows which accumulator it had to clamp.
-/

namespace Qosmo

namespace Clamped

/-- The nearest number between the bounds. -/
def clamp (lo hi x : Int) : Int := max lo (min hi x)

variable {lo hi : Int}

theorem clamp_bounds (hle : lo ≤ hi) (x : Int) : lo ≤ clamp lo hi x ∧ clamp lo hi x ≤ hi := by
  unfold clamp
  omega

theorem clamp_eq_self (hle : lo ≤ hi) {x : Int} : clamp lo hi x = x ↔ lo ≤ x ∧ x ≤ hi := by
  unfold clamp
  omega

end Clamped

/-- Values with a sticky flag each. -/
@[ext] structure Clamped (ι : Type) where
  value : ι → Int
  flag : ι → Bool

namespace Clamped

variable {ι : Type} [DecidableEq ι] {lo hi : Int}

/-- Add to one value; show it if it had to be clamped. -/
def add (lo hi : Int) (s : Clamped ι) (x : ι × Int) : Clamped ι × List ι :=
  let exact := s.value x.1 + x.2
  let clamped := decide (clamp lo hi exact ≠ exact)
  ({ value := Function.update s.value x.1 (clamp lo hi exact)
     flag := Function.update s.flag x.1 (s.flag x.1 || clamped) },
   if clamped then [x.1] else [])

def machine (lo hi : Int) : Machine (Clamped ι) (ι × Int) ι := ⟨add lo hi⟩

/-- All values are between the bounds. -/
def InRange (lo hi : Int) (s : Clamped ι) : Prop := ∀ i, lo ≤ s.value i ∧ s.value i ≤ hi

theorem inRange_add (hle : lo ≤ hi) {s : Clamped ι} (hs : s.InRange lo hi) (x : ι × Int) :
    (add lo hi s x).1.InRange lo hi := by
  intro i
  by_cases hi' : i = x.1
  · subst hi'
    simp only [add, Function.update_self]
    exact clamp_bounds hle _
  · simp only [add, Function.update_of_ne hi']
    exact hs i

/-- A flag is set at the end if it was set before or its value was clamped on the way. -/
theorem flag_final (s : Clamped ι) (xs : List (ι × Int)) (i : ι) :
    ((machine lo hi).final s xs).flag i =
      (s.flag i || decide (i ∈ (machine lo hi).trace s xs)) := by
  induction xs generalizing s with
  | nil => simp
  | cons x xs ih =>
    rw [Machine.final_cons, Machine.trace_cons, ih]
    have hstep : ((machine lo hi).step s x).1.flag i =
        (s.flag i || decide (i ∈ ((machine lo hi).step s x).2)) := by
      simp only [machine, add]
      by_cases hi' : i = x.1
      · subst hi'
        rw [Function.update_self]
        split <;> simp_all
      · rw [Function.update_of_ne hi']
        split <;> simp [hi']
    rw [hstep, Bool.or_assoc, ← Bool.decide_or]
    simp only [List.mem_append]

end Clamped

end Qosmo
