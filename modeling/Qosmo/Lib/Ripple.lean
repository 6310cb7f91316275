import Mathlib.Data.Nat.Digits.Defs

/-!
# Qosmo.Lib.Ripple

Numbers of several digits added digit by digit, with a carry that ripples from one digit to the
next.

Every digit balances up to a carry that may have been lost on the way out. `Chain.value` is the
balance of the whole: what the digits lost is missing at the places they lost it. So the sum is
exact if and only if no digit lost its carry (`Chain.exact_iff`). A subtraction is a chain too, with
the minuend for the sum and the borrow for the carry.
-/

namespace Qosmo.Ripple

/-- One digit: `sum` is the digit of `left` + `right` + carry in. -/
structure Digit where
  sum : Nat
  left : Nat
  right : Nat
  carryIn : Bool
  carryOut : Bool
  /-- the carry out should have been set and is not -/
  lost : Bool

/-- The digit accounts for everything, in base `base`. -/
def Digit.Balanced (base : Nat) (d : Digit) : Prop :=
  d.sum + base * d.carryOut.toNat + base * d.lost.toNat = d.left + d.right + d.carryIn.toNat

/-- The carry out of a digit is the carry into the next one. -/
def Chain (base : Nat) : Bool → List Digit → Bool → Prop
  | c, [], c' => c = c'
  | c, d :: ds, c' => d.Balanced base ∧ d.carryIn = c ∧ Chain base d.carryOut ds c'

variable {base : Nat} {c c' : Bool} {ds : List Digit}

/-- The number with these digits, the lowest first. -/
def value (base : Nat) (digit : Digit → Nat) (ds : List Digit) : Nat :=
  Nat.ofDigits base (ds.map digit)

theorem value_cons (digit : Digit → Nat) (d : Digit) (ds : List Digit) :
    value base digit (d :: ds) = digit d + base * value base digit ds := by
  rw [value, List.map_cons, Nat.ofDigits_cons]
  rfl

theorem Chain.value_eq (h : Chain base c ds c') :
    value base Digit.sum ds + base ^ ds.length * c'.toNat +
        base * value base (fun d => d.lost.toNat) ds =
      value base Digit.left ds + value base Digit.right ds + c.toNat := by
  induction ds generalizing c with
  | nil =>
    cases h
    simp [value]
  | cons d ds ih =>
    obtain ⟨hbal, rfl, hrest⟩ := h
    have hrest := ih hrest
    unfold Digit.Balanced at hbal
    rw [value_cons, value_cons, value_cons, value_cons, List.length_cons, pow_succ']
    -- the balance of the rest, one place up, and that of the digit
    have hup := congrArg (base * ·) hrest
    simp only [mul_add] at hup ⊢
    rw [← mul_assoc base (base ^ ds.length)] at hup
    omega

theorem lost_eq_zero_iff (hbase : 0 < base) :
    value base (fun d => d.lost.toNat) ds = 0 ↔ ∀ d ∈ ds, d.lost = false := by
  induction ds with
  | nil => simp [value]
  | cons d ds ih =>
    rw [value_cons, Nat.add_eq_zero_iff, mul_eq_zero, or_iff_right hbase.ne', ih,
      List.forall_mem_cons, Bool.toNat_eq_zero]

/-- The sum is exact if and only if no carry was lost. -/
theorem Chain.exact_iff (hbase : 0 < base) (h : Chain base c ds c') :
    value base Digit.sum ds + base ^ ds.length * c'.toNat =
        value base Digit.left ds + value base Digit.right ds + c.toNat ↔
      ∀ d ∈ ds, d.lost = false := by
  rw [← lost_eq_zero_iff hbase, ← h.value_eq]
  constructor
  · intro hexact
    have hzero : base * value base (fun d => d.lost.toNat) ds = 0 := by omega
    exact (mul_eq_zero.mp hzero).resolve_left hbase.ne'
  · intro hzero
    rw [hzero, mul_zero, add_zero]

end Qosmo.Ripple
