import Mathlib.Data.List.Basic

/-!
# Qosmo.Lib.Patch

Contents written piece by piece.

A patch replaces the values of one object from some offset on. After a sequence of patches a
place holds what the last patch that covers it wrote there, or what it held at first
(`applyAll_eq`): read after write, with its frame, for any number of objects.
-/

namespace Qosmo

/-- Values written to the object `key` from `off` on. -/
structure Patch (ι α : Type*) where
  key : ι
  off : Nat
  vals : List α

namespace Patch

variable {ι α : Type*} [DecidableEq ι]

def at? (p : Patch ι α) (i : ι) (k : Nat) : Option α :=
  if p.key = i ∧ p.off ≤ k then p.vals[k - p.off]? else none

/-- The contents after a patch. -/
def apply (p : Patch ι α) (m : ι → Nat → α) : ι → Nat → α := fun i k => (p.at? i k).getD (m i k)

/-- The contents after some patches, first one first. -/
def applyAll (ps : List (Patch ι α)) (m : ι → Nat → α) : ι → Nat → α :=
  ps.foldl (fun m p => p.apply m) m

def last (ps : List (Patch ι α)) (i : ι) (k : Nat) : Option α :=
  ps.reverse.findSome? fun p => p.at? i k

@[simp] theorem applyAll_nil (m : ι → Nat → α) : applyAll [] m = m := rfl

theorem applyAll_append (ps qs : List (Patch ι α)) (m : ι → Nat → α) :
    applyAll (ps ++ qs) m = applyAll qs (applyAll ps m) :=
  List.foldl_append

theorem last_cons (p : Patch ι α) (ps : List (Patch ι α)) (i : ι) (k : Nat) :
    last (p :: ps) i k = (last ps i k).or (p.at? i k) := by
  unfold last
  rw [List.reverse_cons, List.findSome?_append, List.findSome?_singleton]

/-- **Read after write.** The last patch over a place wins; where none is, nothing changed. -/
theorem applyAll_eq (ps : List (Patch ι α)) (m : ι → Nat → α) (i : ι) (k : Nat) :
    applyAll ps m i k = (last ps i k).getD (m i k) := by
  induction ps generalizing m with
  | nil => rfl
  | cons p ps ih =>
    show applyAll ps (p.apply m) i k = _
    rw [ih, last_cons]
    cases last ps i k with
    | none | some a => rfl

end Patch

end Qosmo
