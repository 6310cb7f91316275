import Mathlib.Logic.Function.Basic

/-!
# Qosmo.Lib.Slotted

Stores that keep one value per slot.

Each key has a slot, and several keys share one. A slot remembers the key it was last written for,
and a lookup only believes it for that key: what it finds is the value last written for the key, or
nothing (`default`) once another key has taken the slot.
-/

namespace Qosmo

/-- A slot: the key it was written for, and the value. -/
structure Cell (κ V : Type*) where
  key : κ
  val : V

namespace Slotted

variable {κ V : Type*} [DecidableEq κ] [Inhabited V]

/-- What the store has for a key. -/
def get (slot : κ → Nat) (cells : Nat → Cell κ V) (k : κ) : V :=
  if (cells (slot k)).key = k then (cells (slot k)).val else default

/-- Write the slot of a key. -/
def set (slot : κ → Nat) (cells : Nat → Cell κ V) (k : κ) (v : V) : Nat → Cell κ V :=
  Function.update cells (slot k) ⟨k, v⟩

variable {slot : κ → Nat} {cells : Nat → Cell κ V} {k k' : κ} {v : V}

@[simp] theorem get_set_self : get slot (set slot cells k v) k = v := by
  unfold get set
  rw [Function.update_self, if_pos rfl]

/-- Another key keeps its value, or has lost its slot. -/
theorem get_set_of_ne (slot : κ → Nat) (cells : Nat → Cell κ V) (v : V) (h : k' ≠ k) :
    get slot (set slot cells k v) k' = get slot cells k' ∨
      get slot (set slot cells k v) k' = default := by
  unfold get set
  by_cases hslot : slot k' = slot k
  · rw [hslot, Function.update_self]
    exact .inr (if_neg (Ne.symm h))
  · rw [Function.update_of_ne hslot]
    exact .inl rfl

theorem get_empty (h : ∀ i, (cells i).val = default) : get slot cells k = default := by
  unfold get
  split
  · exact h (slot k)
  · rfl

end Slotted

end Qosmo
