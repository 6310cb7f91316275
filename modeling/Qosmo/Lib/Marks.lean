import Mathlib.Data.List.Basic

/-!
# Qosmo.Lib.Marks

Streams of marks, and where the marks are.

A generator with a state emits one mark after the other (`emit`); the places of the marks set are
what most users of it ask for (`marks`). Emitting in pieces is emitting at once (`emit_add`), and
the places of the pieces, moved by what went before, are the places of the whole
(`marks_append`).
-/

namespace Qosmo.Marks

/-- The places of the marks that are set, counted from `i`. -/
def marks : Nat → List Bool → List Nat
  | _, [] => []
  | i, b :: bs => if b then i :: marks (i + 1) bs else marks (i + 1) bs

theorem marks_append (i : Nat) (bs bs' : List Bool) :
    marks i (bs ++ bs') = marks i bs ++ marks (i + bs.length) bs' := by
  induction bs generalizing i with
  | nil => rfl
  | cons b bs ih =>
    rw [List.cons_append, marks, marks, ih, List.length_cons, Nat.add_right_comm, Nat.add_assoc]
    split <;> rfl

theorem marks_add (i j : Nat) (bs : List Bool) : marks (i + j) bs = (marks j bs).map (i + ·) := by
  induction bs generalizing j with
  | nil => rfl
  | cons b bs ih =>
    rw [marks, marks, Nat.add_assoc, ih]
    split <;> rfl

theorem mem_marks {i k : Nat} {bs : List Bool} (h : k ∈ marks i bs) :
    i ≤ k ∧ k < i + bs.length := by
  induction bs generalizing i with
  | nil => cases h
  | cons b bs ih =>
    have hrest : k ∈ marks (i + 1) bs → i ≤ k ∧ k < i + (b :: bs).length := by
      intro hk
      obtain ⟨hle, hlt⟩ := ih hk
      rw [List.length_cons]
      omega
    rw [marks] at h
    split at h
    · rcases List.mem_cons.mp h with rfl | hk
      · rw [List.length_cons]
        omega
      · exact hrest hk
    · exact hrest h

theorem marks_pairwise (i : Nat) (bs : List Bool) : (marks i bs).Pairwise (· < ·) := by
  induction bs generalizing i with
  | nil => exact .nil
  | cons b bs ih =>
    rw [marks]
    split
    · exact .cons (fun k hk => (mem_marks hk).1) (ih (i + 1))
    · exact ih (i + 1)

theorem marks_replicate_false (i n : Nat) : marks i (List.replicate n false) = [] := by
  induction n generalizing i with
  | zero => rfl
  | succ n ih => exact ih (i + 1)

variable {σ : Type*} (next : σ → Bool × σ)

/-- The next `n` marks, and the state behind them. -/
def emit : Nat → σ → List Bool × σ
  | 0, s => ([], s)
  | n + 1, s => ((next s).1 :: (emit n (next s).2).1, (emit n (next s).2).2)

theorem emit_succ (n : Nat) (s : σ) :
    emit next (n + 1) s = ((next s).1 :: (emit next n (next s).2).1, (emit next n (next s).2).2) :=
  rfl

@[simp] theorem length_emit (n : Nat) (s : σ) : (emit next n s).1.length = n := by
  induction n generalizing s with
  | zero => rfl
  | succ n ih => rw [emit, List.length_cons, ih]

theorem emit_add (m n : Nat) (s : σ) :
    emit next (m + n) s = ((emit next m s).1 ++ (emit next n (emit next m s).2).1,
      (emit next n (emit next m s).2).2) := by
  induction m generalizing s with
  | zero => rw [Nat.zero_add]; rfl
  | succ m ih => rw [Nat.succ_add, emit, ih]; rfl

end Qosmo.Marks
