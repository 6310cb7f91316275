import Mathlib.Data.List.Nodup

/-!
# Qosmo.Lib.Search

Searching a table for names.

A name in memory ends at a mark, and `holds` compares it with a given one cell by cell, the way
`strcmp` does. If there is a mark within the table, that is the same as to cut the name out of the
table first (`holds_iff`).

A search that goes through the whole table, and notes the first entry that fits in a cell which it
does not write again, is a fold: `foldl_or` says it finds what `List.findSome?` finds. Several
searches can share one pass over the table (`foldl_map`), and a pass over rows of which one counts
is a look at this row (`foldl_only`).
-/

namespace Qosmo.Search

open List

universe u v w

section Names

variable {α : Type u} [DecidableEq α] (z : α)

/-- The name `w` stands at the start of `b`, and the mark `z` behind it. -/
def holds (b : Nat → α) : List α → Bool
  | [] => b 0 = z
  | c :: cs => b 0 = c && holds (fun i => b (i + 1)) cs

/-- The name at the start of `b`, which has `n` cells. -/
def upTo (b : Nat → α) (n : Nat) : List α := ((List.range n).map b).takeWhile (· ≠ z)

variable {z}

theorem upTo_succ (b : Nat → α) (n : Nat) :
    upTo z b (n + 1) = if b 0 = z then [] else b 0 :: upTo z (fun i => b (i + 1)) n := by
  rw [upTo, range_succ_eq_map, map_cons, map_map, takeWhile_cons]
  by_cases h : b 0 = z
  · simp [h]
  · simp [h, upTo, Function.comp_def]

theorem holds_iff {b : Nat → α} {n : Nat} {w : List α} (hz : ∃ i < n, b i = z) (hw : z ∉ w) :
    holds z b w ↔ upTo z b n = w := by
  induction w generalizing b n with
  | nil =>
    obtain ⟨i, hi, hb⟩ := hz
    obtain ⟨n, rfl⟩ : ∃ m, n = m + 1 := ⟨n - 1, by omega⟩
    rw [upTo_succ, holds]
    by_cases h : b 0 = z <;> simp [h]
  | cons c w ih =>
    obtain ⟨i, hi, hb⟩ := hz
    obtain ⟨n, rfl⟩ : ∃ m, n = m + 1 := ⟨n - 1, by omega⟩
    rw [mem_cons, not_or] at hw
    rw [upTo_succ, holds]
    by_cases h : b 0 = z
    · simp [h, hw.1]
    · -- the mark is further on
      obtain ⟨j, rfl⟩ : ∃ j, i = j + 1 := by
        cases i with
        | zero => exact absurd hb h
        | succ j => exact ⟨j, rfl⟩
      have hrest := ih (b := fun i => b (i + 1)) (n := n) ⟨j, by omega, hb⟩ hw.2
      simp [h, hrest]

end Names

section Folds

variable {κ : Type u} {α : Type v} {β : Type w}

/-- A cell that is written once ends with the first that fits. -/
theorem foldl_or (g : κ → Option β) (l : List κ) (o : Option β) :
    l.foldl (fun acc k => acc.or (g k)) o = o.or (l.findSome? g) := by
  induction l generalizing o with
  | nil => simp
  | cons k l ih =>
    rw [foldl_cons, ih, List.findSome?_cons, Option.or_assoc]
    cases g k <;> rfl

/-- One pass for several searches does what a pass for each of them does. -/
theorem foldl_map (f : α → κ → α) (l : List κ) (xs : List α) :
    l.foldl (fun xs k => xs.map fun x => f x k) xs = xs.map fun x => l.foldl f x := by
  induction l generalizing xs with
  | nil => simp
  | cons k l ih => rw [foldl_cons, ih, map_map]; rfl

theorem foldl_idle {f : α → κ → α} {l : List κ} {x : α} (h : ∀ k ∈ l, f x k = x) :
    l.foldl f x = x := by
  induction l with
  | nil => rfl
  | cons k l ih =>
    rw [foldl_cons, h k mem_cons_self]
    exact ih fun j hj => h j (mem_cons_of_mem k hj)

/-- A pass in which only one row counts. -/
theorem foldl_only {f : α → κ → α} {l : List κ} {t : κ} (hl : l.Nodup) (ht : t ∈ l)
    (honly : ∀ x, ∀ k ∈ l, k ≠ t → f x k = x) (x : α) : l.foldl f x = f x t := by
  obtain ⟨front, back, rfl⟩ := append_of_mem ht
  obtain ⟨hfront, hback⟩ : t ∉ front ∧ t ∉ back := by
    have hsplit := List.nodup_middle.mp hl
    rw [nodup_cons, mem_append, not_or] at hsplit
    exact hsplit.1
  have hbefore : front.foldl f x = x := by
    refine foldl_idle fun k hk => honly x k (mem_append_left _ hk) ?_
    rintro rfl
    exact hfront hk
  have hafter : back.foldl f (f x t) = f x t := by
    refine foldl_idle fun k hk => honly _ k ?_ ?_
    · exact mem_append_right _ (mem_cons_of_mem t hk)
    · rintro rfl
      exact hback hk
  rw [foldl_append, hbefore, foldl_cons, hafter]

end Folds

end Qosmo.Search
