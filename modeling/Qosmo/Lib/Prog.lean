import Mathlib.Logic.Basic

/-!
# Qosmo.Lib.Prog

Programs that read a fixed context and work on a state, `ReaderT ρ (StateM σ)`: the
equations that run one, operation by operation.
-/

namespace Qosmo.Prog

universe u

variable {ρ σ α β : Type u} (r : ρ) (s : σ)

/-! ### Running a program -/

theorem run_pure (a : α) : (pure a : ReaderT ρ (StateM σ) α) r s = (a, s) := rfl

theorem run_bind (m : ReaderT ρ (StateM σ) α) (f : α → ReaderT ρ (StateM σ) β) :
    (m >>= f) r s = f (m r s).1 r (m r s).2 := rfl

theorem run_get : (get : ReaderT ρ (StateM σ) σ) r s = (s, s) := rfl

/-- To be used before `run_bind`, which leaves `(get r s).1` in the tests of `f`. -/
theorem run_get_bind (f : σ → ReaderT ρ (StateM σ) β) : (get >>= f) r s = f s r s := rfl

theorem run_modify (f : σ → σ) :
    (modify f : ReaderT ρ (StateM σ) PUnit) r s = (⟨⟩, f s) := rfl

variable {p : Prop}

theorem run_ite [Decidable p] (m n : ReaderT ρ (StateM σ) α) :
    (if p then m else n) r s = if p then m r s else n r s := by
  split <;> rfl

/-! ### The values a program returns -/

variable {r s} {P : α → Prop} {Q : β → Prop}

/-- Wherever it starts, the program returns a value in `P`. -/
def Yields (P : α → Prop) (m : ReaderT ρ (StateM σ) α) : Prop := ∀ r s, P (m r s).1

theorem yields_pure {a : α} (h : P a) : Yields P (pure a : ReaderT ρ (StateM σ) α) :=
  fun _ _ => h

variable {m : ReaderT ρ (StateM σ) α} {f : α → ReaderT ρ (StateM σ) β}

theorem yields_bind
    (h : ∀ a, Yields Q (f a)) : Yields Q (m >>= f) := fun r s => h _ r (m r s).2

theorem yields_ite [Decidable p] {n : ReaderT ρ (StateM σ) α} (hm : Yields P m)
    (hn : Yields P n) : Yields P (if p then m else n) := by
  split
  · exact hm
  · exact hn

/-! ### The value a program returns, with the state it ends in -/

variable {R : β → σ → Prop}

/-- Wherever it starts, the program ends with a value and a state in `R`. -/
def Ends (R : β → σ → Prop) (m : ReaderT ρ (StateM σ) β) : Prop := ∀ r s, R (m r s).1 (m r s).2

theorem ends_pure {b : β} (h : ∀ s, R b s) : Ends R (pure b : ReaderT ρ (StateM σ) β) :=
  fun _ s => h s

theorem ends_bind
    (h : ∀ a, Ends R (f a)) : Ends R (m >>= f) := fun r s => h _ r (m r s).2

theorem ends_ite [Decidable p] {m n : ReaderT ρ (StateM σ) β} (hm : Ends R m)
    (hn : Ends R n) : Ends R (if p then m else n) := by
  split
  · exact hm
  · exact hn

/-! ### The states a program keeps in an invariant -/

variable {I : σ → Prop}

/-- From a state in `I` the program ends in one. -/
def Keeps (I : σ → Prop) (m : ReaderT ρ (StateM σ) α) : Prop := ∀ r s, I s → I (m r s).2

@[simp] theorem keeps_pure (a : α) : Keeps I (pure a : ReaderT ρ (StateM σ) α) := fun _ _ hs => hs

theorem keeps_bind
    (hm : Keeps I m) (hf : ∀ a, Keeps I (f a)) : Keeps I (m >>= f) :=
  fun r s hs => hf _ r (m r s).2 (hm r s hs)

/-- What a program reads of its own state was in the invariant. -/
theorem keeps_get_bind {f : σ → ReaderT ρ (StateM σ) β} (hf : ∀ s, I s → Keeps I (f s)) :
    Keeps I (get >>= f) := fun r s hs => hf s hs r s hs

theorem keeps_get : Keeps I (get : ReaderT ρ (StateM σ) σ) := fun _ _ hs => hs

@[simp] theorem keeps_read : Keeps I (read : ReaderT ρ (StateM σ) ρ) := fun _ _ hs => hs

theorem keeps_modify {f : σ → σ} (hf : ∀ s, I s → I (f s)) :
    Keeps I (modify f : ReaderT ρ (StateM σ) PUnit) := fun _ s hs => hf s hs

theorem keeps_ite [Decidable p] {n : ReaderT ρ (StateM σ) α} (hm : Keeps I m)
    (hn : Keeps I n) : Keeps I (if p then m else n) := by
  split
  · exact hm
  · exact hn

end Qosmo.Prog
