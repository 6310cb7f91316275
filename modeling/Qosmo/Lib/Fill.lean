import Mathlib.Logic.Basic

/-!
# Qosmo.Lib.Fill

Stores at a sequence of places.

A memory gives a word for every place. `apart l l'` is for places that do not share storage: a
store at `l'` is not seen at `l`. After `i` stores at the places of `dst`, the values are there if
the places are apart from each other, and places apart from all of them are as before (`Filled`).
A block copy is the case in which the values are words of the memory itself, at places apart from
the destination.
-/

namespace Qosmo

variable {L W : Type} {apart : L → L → Prop} {src dst : Nat → L} {val : Nat → W} {m m' m'' : L → W}
  {l : L} {v : W} {i : Nat}

/-- One store. -/
structure Stored (apart : L → L → Prop) (l : L) (v : W) (m m' : L → W) : Prop where
  word : m' l = v
  rest : ∀ l', apart l' l → m' l' = m l'

/-- The first `i` stores. -/
structure Filled (apart : L → L → Prop) (dst : Nat → L) (val : Nat → W) (m m' : L → W) (i : Nat) :
    Prop where
  word : ∀ j < i, m' (dst j) = val j
  rest : ∀ l, (∀ j < i, apart l (dst j)) → m' l = m l

theorem Filled.zero : Filled apart dst val m m 0 :=
  ⟨fun _ hj => absurd hj (Nat.not_lt_zero _), fun _ _ => rfl⟩

/-- Only the values stored so far matter. -/
theorem Filled.congr {val' : Nat → W} (h : Filled apart dst val m m' i)
    (hval : ∀ j < i, val j = val' j) : Filled apart dst val' m m' i :=
  ⟨fun j hj => (h.word j hj).trans (hval j hj), h.rest⟩

theorem Filled.succ (h : Filled apart dst val m m' i) (hst : Stored apart (dst i) (val i) m' m'')
    (hdst : ∀ j < i, apart (dst j) (dst i)) : Filled apart dst val m m'' (i + 1) := by
  constructor
  · intro j hj
    rcases Nat.lt_succ_iff_lt_or_eq.mp hj with hlt | rfl
    · rw [hst.rest _ (hdst j hlt), h.word j hlt]
    · exact hst.word
  · intro l hl
    rw [hst.rest l (hl i (Nat.lt_succ_self i)), h.rest l fun j hj => hl j (Nat.lt_succ_of_lt hj)]

/-- The next word of a block copy: it has not been stored over. -/
theorem Filled.copy_succ (h : Filled apart dst (fun j => m (src j)) m m' i)
    (hst : Stored apart (dst i) (m' (src i)) m' m'') (hsrc : ∀ j < i, apart (src i) (dst j))
    (hdst : ∀ j < i, apart (dst j) (dst i)) :
    Filled apart dst (fun j => m (src j)) m m'' (i + 1) := by
  rw [h.rest _ hsrc] at hst
  exact h.succ hst hdst

end Qosmo
