import Mathlib.Data.List.Basic
import Mathlib.Data.Nat.ModEq

/-!
# Qosmo.Lib.Ring

Circular buffers as lists.

A circular buffer keeps its contents in an array of `size` cells, from the index
`tail` on, wrapping around. `Ring.window` reads them out in order. Writing the cell
right behind the window appends to it (`window_push`), moving `tail` forward drops its
first cell (`window_pop`): a program that maintains the indices by hand is checked
against a list with these two facts. A cell in the middle is taken out by moving the cells
before it one place on (`shift`) and then `tail` forward (`window_shift`).
-/

namespace Qosmo.Ring

open Function List

variable {α : Type*}

/-- The `count` cells from `tail` on, wrapping at `size`. -/
def window (cells : Nat → α) (size tail count : Nat) : List α :=
  (List.range count).map fun k => cells ((tail + k) % size)

variable {cells : Nat → α} {size tail count : Nat}

@[simp] theorem length_window : (window cells size tail count).length = count := by
  simp [window]

theorem window_eq_nil_iff : window cells size tail count = [] ↔ count = 0 := by
  rw [← length_eq_zero_iff, length_window]

theorem index_ne {k : Nat} (hk : k < count) (hcount : count < size) :
    (tail + k) % size ≠ (tail + count) % size := by
  intro heq
  have hmod : k ≡ count [MOD size] := Nat.ModEq.add_left_cancel' tail heq
  rw [Nat.ModEq, Nat.mod_eq_of_lt (by omega), Nat.mod_eq_of_lt hcount] at hmod
  omega

/-- **Push.** Writing the cell behind the window appends to it. -/
theorem window_push (hcount : count < size) (a : α) :
    window (Function.update cells ((tail + count) % size) a) size tail (count + 1)
      = window cells size tail count ++ [a] := by
  unfold window
  rw [range_succ, map_append, map_singleton, update_self]
  congr 1
  refine map_congr_left fun k hk => ?_
  exact update_of_ne (index_ne (List.mem_range.mp hk) hcount) _ _

/-- **Pop.** The first cell, then the window that starts one place further. -/
theorem window_pop (htail : tail < size) :
    window cells size tail (count + 1)
      = cells tail :: window cells size ((tail + 1) % size) count := by
  unfold window
  rw [range_succ_eq_map, map_cons, map_map]
  congr 1
  · rw [Nat.add_zero, Nat.mod_eq_of_lt htail]
  · refine map_congr_left fun k _ => ?_
    show cells ((tail + (k + 1)) % size) = cells (((tail + 1) % size + k) % size)
    rw [Nat.mod_add_mod]
    congr 2
    omega

/-- The `i` cells before place `i` of the window move one place on, the last of them first. -/
def shift (size tail : Nat) : Nat → (Nat → α) → Nat → α
  | 0, cells => cells
  | i + 1, cells =>
    shift size tail i (Function.update cells ((tail + (i + 1)) % size) (cells ((tail + i) % size)))

/-- A shift changes the places 1 to `i` of the window. -/
theorem shift_apply {i k : Nat} (hi : i < size) (hk : k < size) :
    shift size tail i cells ((tail + k) % size)
      = if 0 < k ∧ k ≤ i then cells ((tail + (k - 1)) % size) else cells ((tail + k) % size) := by
  induction i generalizing cells with
  | zero =>
    rw [if_neg (by omega)]
    rfl
  | succ i ih =>
    rw [shift, ih (by omega)]
    by_cases hki : 0 < k ∧ k ≤ i
    · have hother : (tail + (k - 1)) % size ≠ (tail + (i + 1)) % size := index_ne (by omega) hi
      rw [if_pos hki, if_pos (by omega), update_of_ne hother]
    · rw [if_neg hki]
      rcases Nat.lt_trichotomy k (i + 1) with hlt | rfl | hgt
      · have hother : (tail + k) % size ≠ (tail + (i + 1)) % size := index_ne hlt hi
        rw [if_neg (by omega), update_of_ne hother]
      · rw [if_pos (by omega), update_self]
        rfl
      · have hother : (tail + (i + 1)) % size ≠ (tail + k) % size := index_ne hgt hk
        rw [if_neg (by omega), update_of_ne hother.symm]

/-- **Removal.** After a shift up to place `i`, the window that starts one place further has
lost the cell at that place. -/
theorem window_shift {i : Nat} (hi : i ≤ count) (hcount : count < size) :
    window (shift size tail i cells) size ((tail + 1) % size) count
      = (window cells size tail (count + 1)).eraseIdx i := by
  refine ext_getElem ?_ fun k hk hk' => ?_
  · rw [length_window, length_eraseIdx_of_lt (by rw [length_window]; omega), length_window]
    rfl
  · rw [length_window] at hk
    have hplace : ((tail + 1) % size + k) % size = (tail + (k + 1)) % size := by
      rw [Nat.mod_add_mod]
      congr 1
      omega
    rw [getElem_eraseIdx]
    simp only [window, getElem_map, getElem_range]
    rw [hplace, shift_apply (by omega) (by omega)]
    by_cases hki : k < i
    · rw [if_pos (by omega), dif_pos hki]
      rfl
    · rw [if_neg (by omega), dif_neg hki]

/-- The items have been written one after the other, item `j` into the cell `j` modulo `size`:
the last `size` of them are there. -/
def Journal (size : Nat) (items : List α) (cells : Nat → α) : Prop :=
  ∀ ⦃j a⦄, items[j]? = some a → items.length ≤ j + size → cells (j % size) = a

theorem Journal.nil : Journal size [] cells := by
  intro j a ha
  cases ha

theorem Journal.push {items : List α} (h : Journal size items cells) (a : α) :
    Journal size (items ++ [a]) (Function.update cells (items.length % size) a) := by
  intro j b hb hj
  rw [length_append, length_singleton] at hj
  rcases Nat.lt_trichotomy j items.length with hlt | rfl | hgt
  · have hother : j % size ≠ items.length % size := by
      have hne : (j + 0) % size ≠ (j + (items.length - j)) % size :=
        index_ne (by omega) (by omega)
      rwa [Nat.add_zero, Nat.add_sub_cancel' hlt.le] at hne
    rw [List.getElem?_append_left hlt] at hb
    rw [update_of_ne hother]
    exact h hb (by omega)
  · rw [List.getElem?_concat_length] at hb
    rw [update_self]
    exact Option.some.inj hb
  · rw [List.getElem?_eq_none (by simp; omega)] at hb
    cases hb

end Qosmo.Ring
