import Mathlib.Data.BitVec

/-!
# Qosmo.Lib.Reverse

Addition with the carry running from the highest bit to the lowest.

Reversing the bits turns it into ordinary addition (`radd`), so stepping through a block of
`2 ^ n` words by half its size counts in the reversed order: `iterate_radd_twoPow` says which
word is reached after `k` steps. `rsub` is the way back.
-/

namespace Qosmo.Reverse

variable {w n : Nat}

/-- Add, the carry running downwards. -/
def radd (x y : BitVec w) : BitVec w := (x.reverse + y.reverse).reverse

/-- Subtract, the borrow running downwards. -/
def rsub (x y : BitVec w) : BitVec w := (x.reverse - y.reverse).reverse

theorem rsub_radd (x y : BitVec w) : rsub (radd x y) y = x := by
  unfold rsub radd
  rw [BitVec.reverse_reverse_eq, BitVec.add_sub_cancel, BitVec.reverse_reverse_eq]

/-- Bits count from the other end. -/
theorem getLsbD_reverse {i : Nat} (hi : i < w) (x : BitVec w) :
    x.reverse.getLsbD i = x.getLsbD (w - 1 - i) := by
  rw [BitVec.getLsbD_reverse, BitVec.getMsbD]
  simp [hi]

/-- Many steps are one long one on the reversed words. -/
theorem iterate_radd (x y : BitVec w) (k : Nat) :
    (radd · y)^[k] x = (x.reverse + BitVec.ofNat w k * y.reverse).reverse := by
  induction k with
  | zero => simp [BitVec.reverse_reverse_eq]
  | succ k ih =>
    rw [Function.iterate_succ_apply', ih]
    unfold radd
    rw [BitVec.reverse_reverse_eq]
    congr 1
    rw [BitVec.ofNat_add, BitVec.add_mul, BitVec.one_mul, BitVec.add_assoc]

theorem reverse_twoPow {i : Nat} (hi : i < w) :
    (BitVec.twoPow w i).reverse = BitVec.twoPow w (w - 1 - i) := by
  apply BitVec.eq_of_getLsbD_eq
  intro j hj
  rw [getLsbD_reverse hj, BitVec.getLsbD_twoPow, BitVec.getLsbD_twoPow, Bool.eq_iff_iff]
  simp only [Bool.and_eq_true, decide_eq_true_eq]
  omega

/-- A word with its low `n` bits clear has its high bits clear when reversed. -/
theorem toNat_reverse_lt (hn : n ≤ w) {b : BitVec w} (hb : 2 ^ n ∣ b.toNat) :
    b.reverse.toNat < 2 ^ (w - n) := by
  obtain ⟨q, hq⟩ := hb
  refine Nat.lt_pow_two_of_testBit _ fun i hi => ?_
  rw [← BitVec.getLsbD]
  by_cases hiw : i < w
  · rw [getLsbD_reverse hiw, BitVec.getLsbD, hq, Nat.testBit_two_pow_mul]
    simp only [Bool.and_eq_false_imp, decide_eq_true_eq]
    omega
  · exact BitVec.getLsbD_of_ge _ _ (by omega)

/-- The reversed word after `k` steps: `k` in front of what was there. -/
theorem toNat_reverse_add_mul (hn : n ≤ w) {r : BitVec w} (hr : r.toNat < 2 ^ (w - n)) (k : Nat) :
    (r + BitVec.ofNat w k * BitVec.twoPow w (w - n)).toNat =
      2 ^ (w - n) * (k % 2 ^ n) + r.toNat := by
  have hpow : 2 ^ w = 2 ^ (w - n) * 2 ^ n := by rw [← Nat.pow_add, Nat.sub_add_cancel hn]
  have hmod : (r.toNat + k * 2 ^ (w - n)) % 2 ^ (w - n) = r.toNat := by
    rw [Nat.add_mul_mod_self_right, Nat.mod_eq_of_lt hr]
  have hdiv : (r.toNat + k * 2 ^ (w - n)) / 2 ^ (w - n) = k := by
    rw [Nat.add_mul_div_right _ _ (Nat.two_pow_pos _), Nat.div_eq_of_lt hr, Nat.zero_add]
  calc (r + BitVec.ofNat w k * BitVec.twoPow w (w - n)).toNat
      = (r.toNat + k * 2 ^ (w - n)) % 2 ^ w := by
        rw [BitVec.toNat_add, BitVec.toNat_mul, BitVec.toNat_ofNat, BitVec.toNat_twoPow,
          ← Nat.mul_mod, Nat.add_mod_mod]
    _ = 2 ^ (w - n) * (k % 2 ^ n) + r.toNat := by
        rw [hpow, Nat.mod_mul, hmod, hdiv, Nat.add_comm]

/-- **Bit-reversed counting.** In a block of `2 ^ n` words, `k` steps of half the block reach the
word at the reversal of `k`. -/
theorem iterate_radd_twoPow (hpos : 0 < n) (hn : n ≤ w) {b : BitVec w} (hb : 2 ^ n ∣ b.toNat)
    (k : Nat) :
    ((radd · (BitVec.twoPow w (n - 1)))^[k] b).toNat =
      b.toNat + (BitVec.ofNat n k).reverse.toNat := by
  have hstep : (BitVec.twoPow w (n - 1)).reverse = BitVec.twoPow w (w - n) := by
    rw [reverse_twoPow (by omega), show w - 1 - (n - 1) = w - n by omega]
  have hsum := toNat_reverse_add_mul hn (toNat_reverse_lt hn hb) k
  have hk := (BitVec.ofNat n k).reverse.isLt
  rw [iterate_radd, hstep]
  obtain ⟨q, hq⟩ := hb
  apply Nat.eq_of_testBit_eq
  intro i
  rw [hq, Nat.testBit_two_pow_mul_add _ hk]
  by_cases hi : i < w
  · rw [← BitVec.getLsbD, getLsbD_reverse hi, BitVec.getLsbD, hsum,
      Nat.testBit_two_pow_mul_add _ (toNat_reverse_lt hn ⟨q, hq⟩)]
    by_cases hin : i < n
    · -- a bit of the index
      rw [if_pos hin, if_neg (by omega), ← BitVec.getLsbD, getLsbD_reverse hin, BitVec.getLsbD,
        BitVec.toNat_ofNat]
      congr 1
      omega
    · -- a bit of the base
      rw [if_neg hin, if_pos (by omega), ← BitVec.getLsbD, getLsbD_reverse (by omega),
        show w - 1 - (w - 1 - i) = i by omega, BitVec.getLsbD, hq, Nat.testBit_two_pow_mul]
      simp [Nat.not_lt.mp hin]
  · -- the base has no bits there, nor has the sum
    have hq : q.testBit (i - n) = b.getLsbD i := by
      rw [BitVec.getLsbD, hq, Nat.testBit_two_pow_mul]
      simp [show n ≤ i by omega]
    rw [if_neg (by omega), hq, ← BitVec.getLsbD, BitVec.getLsbD_of_ge _ _ (by omega),
      BitVec.getLsbD_of_ge _ _ (by omega)]

end Qosmo.Reverse
