import Mathlib.Data.List.Basic
import Mathlib.Order.Lattice

/-!
# Qosmo.Lib.Select

The loop that looks for the best entry of a table: it goes through the entries in order
and remembers the index of one that qualifies whenever its key beats the best so far.
`select_spec` says what any run of it finds, whatever it had found before; the two rules
below it are for a run that starts with nothing.
-/

namespace Qosmo.Select

universe u v

variable {α : Type u} {κ : Type v} [LinearOrder κ] (p : α → Bool) (key : α → κ)

/-- The loop, from index `i` on, with the index and the key of the best so far. -/
def select : Nat → List α → Option Nat → κ → Option Nat
  | _, [], found, _ => found
  | i, a :: as, found, best =>
    if p a = true ∧ key a < best then select (i + 1) as (some i) (key a)
    else select (i + 1) as found best

/-- The loop keeps what it had, and nothing beats it, or it ends at a qualifying entry
with a key no larger than any other's. -/
theorem select_spec (i : Nat) (as : List α) (found : Option Nat) (best : κ) :
    (select p key i as found best = found ∧ ∀ a ∈ as, p a → best ≤ key a) ∨
      ∃ j a, select p key i as found best = some (i + j) ∧ as[j]? = some a ∧ p a ∧
        key a < best ∧ ∀ b ∈ as, p b → key a ≤ key b := by
  fun_induction select p key i as found best with
  | case1 => exact .inl ⟨rfl, by simp⟩
  | case2 i a as found best hbeats ih =>
    -- `a` is remembered: the rest of the loop keeps it or finds something better still
    rcases ih with ⟨hkept, hrest⟩ | ⟨j, b, hj, hb, hp, hlt, hrest⟩
    · refine .inr ⟨0, a, hkept, rfl, hbeats.1, hbeats.2, ?_⟩
      exact List.forall_mem_cons.mpr ⟨fun _ => le_rfl, hrest⟩
    · refine .inr ⟨j + 1, b, ?_, hb, hp, hlt.trans hbeats.2, ?_⟩
      · rw [hj, Nat.add_assoc, Nat.add_comm 1 j]
      · exact List.forall_mem_cons.mpr ⟨fun _ => hlt.le, hrest⟩
  | case3 i a as found best hbeats ih =>
    have hworse : p a → best ≤ key a := fun hp => not_lt.mp fun hlt => hbeats ⟨hp, hlt⟩
    rcases ih with ⟨hkept, hrest⟩ | ⟨j, b, hj, hb, hp, hlt, hrest⟩
    · exact .inl ⟨hkept, List.forall_mem_cons.mpr ⟨hworse, hrest⟩⟩
    · refine .inr ⟨j + 1, b, ?_, hb, hp, hlt, ?_⟩
      · rw [hj, Nat.add_assoc, Nat.add_comm 1 j]
      · exact List.forall_mem_cons.mpr ⟨fun h => hlt.le.trans (hworse h), hrest⟩

variable {p key} {as : List α} {best : κ}

/-- A loop that starts with nothing finds nothing exactly when nothing qualifies. -/
theorem select_eq_none_iff (hbest : ∀ a ∈ as, p a → key a < best) :
    select p key 0 as none best = none ↔ ∀ a ∈ as, p a = false := by
  rcases select_spec p key 0 as none best with
    ⟨hkept, hrest⟩ | ⟨j, a, hj, ha, hp, -, -⟩
  · refine ⟨fun _ a ha => Bool.eq_false_iff.mpr fun hp => ?_, fun _ => hkept⟩
    exact absurd (hrest a ha hp) (not_le.mpr (hbest a ha hp))
  · refine ⟨fun hnone => ?_, fun hnone => ?_⟩
    · rw [hj] at hnone
      cases hnone
    · rw [hnone a (List.mem_of_getElem? ha)] at hp
      cases hp

/-- What it finds qualifies, and has the smallest key of those that do. -/
theorem select_eq_some {j : Nat} (h : select p key 0 as none best = some j) :
    ∃ a, as[j]? = some a ∧ p a ∧ ∀ b ∈ as, p b → key a ≤ key b := by
  rcases select_spec p key 0 as none best with
    ⟨hkept, -⟩ | ⟨k, a, hk, ha, hp, -, hrest⟩
  · rw [hkept] at h
    cases h
  · rw [hk, Nat.zero_add, Option.some.injEq] at h
    exact ⟨a, h ▸ ha, hp, hrest⟩

end Qosmo.Select
