import Qosmo.Lib.Ring
import Mathlib.Data.BitVec

/-!
# Qosmo.Lib.Running

Circular buffers with running counters.

The two counters of such a buffer are never reduced: a cell is found by the remainder of a counter
modulo the size, and the difference of the counters is how much is waiting. They are 32-bit
numbers and may overflow, which goes unnoticed if the size divides 2³². `contents` is the list the
buffer stands for; the operations do to it what their names say.
-/

namespace Qosmo

universe u

/-- The cells, the counter of what was taken and the counter of what was put in. -/
structure Running (α : Type u) where
  cells : Nat → α
  head : BitVec 32
  tail : BitVec 32

namespace Running

variable {α : Type u} (size : Nat) (r : Running α)

/-- How much is waiting. -/
def depth : Nat := (r.tail - r.head).toNat

/-- What is waiting, the oldest first. -/
def contents : List α := Ring.window r.cells size (r.head.toNat % size) r.depth

/-- The oldest cell. -/
def front : α := r.cells (r.head.toNat % size)

/-- Write the oldest cell. -/
def setFront (a : α) : Running α :=
  { r with cells := Function.update r.cells (r.head.toNat % size) a }

/-- Drop the oldest cell. -/
def pop : Running α := { r with head := r.head + 1 }

/-- Put a cell behind the others. -/
def push (a : α) : Running α :=
  { r with cells := Function.update r.cells (r.tail.toNat % size) a, tail := r.tail + 1 }

variable {size r}

@[simp] theorem length_contents : (r.contents size).length = r.depth := Ring.length_window

theorem contents_eq_nil_iff : r.contents size = [] ↔ r.tail = r.head := by
  rw [contents, Ring.window_eq_nil_iff, depth]
  constructor
  · intro h
    exact BitVec.sub_eq_iff_eq_add.mp (BitVec.eq_of_toNat_eq h) |>.trans (BitVec.zero_add _)
  · intro h
    rw [h, BitVec.sub_self]
    rfl

theorem contents_of_eq (h : r.tail = r.head) : r.contents size = [] := contents_eq_nil_iff.mpr h

theorem depth_pop (h : r.tail ≠ r.head) : r.pop.depth + 1 = r.depth := by
  unfold pop depth
  bv_omega

theorem depth_push {a : α} (h : r.depth < 2 ^ 32 - 1) : (r.push size a).depth = r.depth + 1 := by
  unfold depth at h ⊢
  unfold push
  dsimp only
  bv_omega

variable (hdvd : size ∣ 2 ^ 32)

include hdvd

/-- The counters run through the cells in step, overflows included. -/
theorem tail_mod : r.tail.toNat % size = (r.head.toNat % size + r.depth) % size := by
  have hsum : r.tail.toNat = (r.head.toNat + r.depth) % 2 ^ 32 := by
    unfold depth
    rw [BitVec.toNat_sub]
    omega
  rw [hsum, Nat.mod_mod_of_dvd _ hdvd, Nat.mod_add_mod]

theorem succ_mod (x : BitVec 32) : (x + 1).toNat % size = (x.toNat % size + 1) % size := by
  rw [BitVec.toNat_add, Nat.mod_mod_of_dvd _ hdvd, Nat.mod_add_mod]
  rfl

theorem contents_push (hlt : size < 2 ^ 32) (h : r.depth < size) (a : α) :
    (r.push size a).contents size = r.contents size ++ [a] := by
  rw [contents, depth_push (by omega)]
  show Ring.window (Function.update r.cells (r.tail.toNat % size) a) _ _ _ = _
  rw [tail_mod hdvd]
  exact Ring.window_push h a

theorem contents_pop (h : r.tail ≠ r.head) :
    r.contents size = r.front size :: r.pop.contents size := by
  have hpos : 0 < size := Nat.pos_of_dvd_of_pos hdvd (by decide)
  rw [contents, ← depth_pop h, Ring.window_pop (Nat.mod_lt _ hpos), ← succ_mod hdvd]
  rfl

/-- The oldest cell is written over. -/
theorem contents_setFront (h : r.tail ≠ r.head) (hdepth : r.depth ≤ size) (a : α) :
    (r.setFront size a).contents size = a :: r.pop.contents size := by
  have hpop : (r.setFront size a).pop.contents size = r.pop.contents size := by
    -- the cells behind the oldest are other cells, as the buffer holds `size` of them at most
    refine List.map_congr_left fun k hk => Function.update_of_ne ?_ _ _
    have hk' : k + 1 < size := by
      have hcount := depth_pop h
      have hlt : k < r.pop.depth := List.mem_range.mp hk
      omega
    show ((r.head + 1).toNat % size + k) % size ≠ r.head.toNat % size
    rw [succ_mod hdvd, Nat.mod_add_mod, Nat.add_assoc, Nat.mod_add_mod]
    intro heq
    have hzero : 1 + k ≡ 0 [MOD size] := Nat.ModEq.add_left_cancel' r.head.toNat heq
    exact absurd (Nat.le_of_dvd (by omega) (Nat.modEq_zero_iff_dvd.mp hzero)) (by omega)
  rw [contents_pop (r := r.setFront size a) hdvd h, hpop]
  congr 1
  exact Function.update_self _ _ _

end Running

end Qosmo
