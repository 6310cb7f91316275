import Mathlib.Data.Nat.Basic
import Mathlib.Tactic.Common

/-!
# Qosmo.Lib.Raster

A cursor that goes through a window row by row.

The window is `w` wide and `h` high, and the cursor starts in its first corner. Each step goes
one column on; at the end of a row it goes to the start of the next one, and after the last row
to the first one again (`advance`). So after `i` steps it is at column `i mod w` of row `i div w`,
modulo `h` (`advance_position`). In a store with `stride` cells a row, two places with the
same cell are the same place (`cell_inj`).
-/

namespace Qosmo.Raster

variable {w h i : Nat}

/-- Column and row after `i` steps. -/
def position (w h i : Nat) : Nat × Nat := (i % w, i / w % h)

def advance (w h : Nat) (p : Nat × Nat) : Nat × Nat :=
  if p.1 + 1 < w then (p.1 + 1, p.2) else (0, if p.2 + 1 < h then p.2 + 1 else 0)

theorem succ_mod (hn : 0 < w) (k : Nat) : (k + 1) % w = if k % w + 1 < w then k % w + 1 else 0 := by
  have hlt := Nat.mod_lt k hn
  rw [← Nat.mod_add_mod]
  split
  · rename_i hin
    exact Nat.mod_eq_of_lt hin
  · have hend : k % w + 1 = w := by omega
    rw [hend, Nat.mod_self]

theorem succ_div (hn : 0 < w) (k : Nat) :
    (k + 1) / w = if k % w + 1 < w then k / w else k / w + 1 := by
  have hlt := Nat.mod_lt k hn
  have hk : k + 1 = (k % w + 1) + w * (k / w) := by
    have := Nat.mod_add_div k w
    omega
  have hdiv : (k + 1) / w = (k % w + 1) / w + k / w := by
    rw [hk, Nat.add_mul_div_left _ _ hn]
  rw [hdiv]
  split
  · rename_i hin
    rw [Nat.div_eq_of_lt hin, Nat.zero_add]
  · have hend : k % w + 1 = w := by omega
    rw [hend, Nat.div_self hn, Nat.add_comm]

theorem advance_position (hw : 0 < w) (hh : 0 < h) (i : Nat) :
    advance w h (position w h i) = position w h (i + 1) := by
  unfold advance position
  dsimp only
  rw [succ_mod hw, succ_div hw]
  split
  · rfl
  · rw [succ_mod hh]

/-- In the first round the row is the quotient. -/
theorem position_of_lt (hi : i < w * h) : position w h i = (i % w, i / w) := by
  unfold position
  rw [Nat.mod_eq_of_lt (Nat.div_lt_of_lt_mul hi)]

theorem position_full (hw : 0 < w) : position w h (w * h) = (0, 0) := by
  unfold position
  rw [Nat.mul_mod_right, Nat.mul_div_cancel_left _ hw, Nat.mod_self]

/-- The cell of column `x` and row `y`. -/
def cell (stride x y : Nat) : Nat := y * stride + x

variable {stride : Nat}

theorem cell_mod {x : Nat} (hx : x < stride) (y : Nat) : cell stride x y % stride = x := by
  rw [cell, Nat.mul_add_mod_self_right, Nat.mod_eq_of_lt hx]

theorem cell_div {x : Nat} (hx : x < stride) (y : Nat) : cell stride x y / stride = y := by
  rw [cell, Nat.add_comm, Nat.add_mul_div_right _ _ (Nat.zero_lt_of_lt hx), Nat.div_eq_of_lt hx,
    Nat.zero_add]

theorem cell_inj {x y x' y' : Nat} (hx : x < stride) (hx' : x' < stride)
    (hcell : cell stride x y = cell stride x' y') : x = x' ∧ y = y' := by
  refine ⟨?_, ?_⟩
  · rw [← cell_mod hx y, hcell, cell_mod hx']
  · rw [← cell_div hx y, hcell, cell_div hx']

end Qosmo.Raster
