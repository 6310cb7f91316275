import Mathlib.Tactic.Linarith
import Qosmo.C54x.Canon
import Qosmo.C54x.Load

/-!
# Qosmo.C54x.Product

MAC, MPY and SQURA with a memory operand.

The three instructions multiply two signed words and, in fractional mode, double the product. MPY
and SQURA do so in 64 bits. MAC keeps the product in an `int32_t`, which holds every product of two
words and every double of one but the largest: (−2¹⁵)² doubled is 2³¹ and becomes −2³¹.
-/

namespace Qosmo.C54x

open BitVec Prog

/-! ### Products -/

/-- The product of T and a word as the instructions mean it: doubled in fractional mode. -/
def product (s : Cpu) (v : Word) : Int :=
  s.t.toInt * v.toInt * if bitSet s.st1 St1.frct then 2 else 1

/-- The one product that does not fit in 32 bits. -/
def ProductOverflows (s : Cpu) (v : Word) : Prop :=
  bitSet s.st1 St1.frct = true ∧ s.t = 0x8000 ∧ v = 0x8000

instance (s : Cpu) (v : Word) : Decidable (ProductOverflows s v) :=
  inferInstanceAs (Decidable (_ ∧ _ ∧ _))

theorem toInt_word_bounds (x : Word) : -2 ^ 15 ≤ x.toInt ∧ x.toInt < 2 ^ 15 :=
  ⟨le_toInt x, toInt_lt⟩

/-- A product of two words is largest when both are −2¹⁵. -/
theorem mul_words_lt (x y : Word) :
    -2 ^ 30 < x.toInt * y.toInt ∧ (x.toInt * y.toInt < 2 ^ 30 ∨ x = 0x8000 ∧ y = 0x8000) := by
  obtain ⟨hx, hx'⟩ := toInt_word_bounds x
  obtain ⟨hy, hy'⟩ := toInt_word_bounds y
  refine ⟨by nlinarith, ?_⟩
  by_cases hxmin : x.toInt = -2 ^ 15
  · by_cases hymin : y.toInt = -2 ^ 15
    · refine .inr ⟨eq_of_toInt_eq ?_, eq_of_toInt_eq ?_⟩
      · rw [hxmin]
        decide
      · rw [hymin]
        decide
    · left
      rw [hxmin]
      omega
  · left
    nlinarith [show -2 ^ 15 + 1 ≤ x.toInt by omega]

theorem mul_words_le (x y : Word) : -2 ^ 30 < x.toInt * y.toInt ∧ x.toInt * y.toInt ≤ 2 ^ 30 := by
  obtain ⟨hlow, hlt | ⟨rfl, rfl⟩⟩ := mul_words_lt x y
  · exact ⟨hlow, hlt.le⟩
  · decide

theorem toInt_mul16 (x y : Word) : (mul16 x y).toInt = x.toInt * y.toInt := by
  obtain ⟨hlow, hhigh⟩ := mul_words_le x y
  rw [mul16, toInt_mul, toInt_signExtend_of_le (by omega),
    toInt_signExtend_of_le (by omega), Int.bmod_eq_of_le (by omega) (by omega)]

theorem toInt_frct (s : Cpu) (v : Word) : (frct s (mul16 s.t v)).toInt = product s v := by
  obtain ⟨hlow, hhigh⟩ := mul_words_le s.t v
  unfold frct product
  cases bitSet s.st1 St1.frct with
  | false => simp [toInt_mul16]
  | true =>
    simp only [if_true]
    have hdouble : mul16 s.t v <<< 1 = mul16 s.t v + mul16 s.t v := by bv_omega
    rw [hdouble, toInt_add, toInt_mul16, Int.bmod_eq_of_le (by omega) (by omega)]
    omega

/-- What the `int32_t` of MAC holds: the product, less 2³² for the one that does not fit. -/
theorem toInt_trunc32 (s : Cpu) (v : Word) : (trunc32 (frct s (mul16 s.t v))).toInt =
    if ProductOverflows s v then product s v - 2 ^ 32 else product s v := by
  have hmod : (trunc32 (frct s (mul16 s.t v))).toInt = (product s v).bmod (2 ^ 32) := by
    rw [trunc32, toInt_signExtend_of_le (by omega), toInt_setWidth, ← toInt_frct,
      toInt_eq_toNat_bmod, Int.bmod_bmod_of_dvd (by decide)]
  rw [hmod]
  obtain ⟨hlow, hhigh⟩ := mul_words_lt s.t v
  split
  case isTrue hover =>
    obtain ⟨hfrct, ht, hv⟩ := hover
    simp only [product, hfrct, ht, hv]
    decide
  case isFalse hfits =>
    have hbound : -2 ^ 31 ≤ product s v ∧ product s v < 2 ^ 31 := by
      unfold product
      cases hfrct : bitSet s.st1 St1.frct with
      | false =>
        have hle := (mul_words_le s.t v).2
        simp only [Bool.false_eq_true, if_false]
        omega
      | true =>
        have hlt : s.t.toInt * v.toInt < 2 ^ 30 := by
          rcases hhigh with hlt | ⟨ht, hv⟩
          · exact hlt
          · exact absurd ⟨hfrct, ht, hv⟩ hfits
        simp only [if_true]
        omega
    rw [Int.bmod_eq_of_le (by omega) (by omega)]

/-! ### The three instructions -/

/-- MAC, MPY and SQURA with destination bit and addressing mode `f`. -/
def mac (f : BitVec 9) : Word := withField 0x2800 f
def mpy (f : BitVec 9) : Word := withField 0x2000 f
def squra (f : BitVec 9) : Word := withField 0x3800 f

theorem decode_mac (f : BitVec 9) : decode (mac f) = .plain execMac := by
  have hop : mac f &&& 0xFC00 = 0x2800 := and_of_and (withField_and rfl f) rfl
  exact decode_of_first hop rfl rfl

theorem decode_mpy (f : BitVec 9) : decode (mpy f) = .plain execMpy := by
  have hop : mpy f &&& 0xF800 = 0x2000 := and_of_and (withField_and rfl f) rfl
  exact decode_of_first hop rfl rfl

theorem decode_squra (f : BitVec 9) : decode (squra f) = .plain (execSqurAcc false) :=
  decode_of_first (withField_and rfl f) rfl rfl

variable (f : BitVec 9) (c : Ctx) (s : Cpu)

theorem smemOf_mpy : smemOf (mpy f) c s = smemOf (mac f) c s := by
  apply smemOf_congr
  rw [mpy, mac, setWidth_withField rfl, setWidth_withField rfl]

theorem smemOf_squra : smemOf (squra f) c s = smemOf (mac f) c s := by
  apply smemOf_congr
  rw [squra, mac, setWidth_withField rfl, setWidth_withField rfl]

theorem acc_mac : (execOp (mac f) c s).2.acc (bitSet f 8) =
    sext40 (s.acc (bitSet f 8) + trunc32 (frct s (mul16 s.t (smemOf (mac f) c s)))) := by
  obtain ⟨u, hu, heq⟩ := execOp_load (decode_mac f) rfl c s
  have hdst : dstB (mac f) = bitSet f 8 := dstB_withField rfl f
  have hadd : bitSet (mac f) 9 = false := bitSet_withField _ f (by omega)
  rw [heq, ← hu.acc, ← hu.frct, ← hu.t]
  simp only [hdst, hadd]
  exact acc_setAcc _ _ c u

theorem acc_mpy : (execOp (mpy f) c s).2.acc (bitSet f 8) =
    sext40 (frct s (mul16 s.t (smemOf (mpy f) c s))) := by
  obtain ⟨u, hu, heq⟩ := execOp_load (decode_mpy f) rfl c s
  have hdst : dstB (mpy f) = bitSet f 8 := dstB_withField rfl f
  have hkind : mpy f >>> 9 = 0x10 := ushiftRight_withField _ f
  rw [heq, ← hu.frct, ← hu.t]
  simp only [hdst, hkind]
  exact acc_setAcc _ _ c u

theorem acc_squra : (execOp (squra f) c s).2.acc (bitSet f 8) =
    sext40 (s.acc (bitSet f 8) +
      frct s (mul16 (smemOf (squra f) c s) (smemOf (squra f) c s))) := by
  obtain ⟨u, hu, heq⟩ := execOp_load (decode_squra f) rfl c s
  have hdst : dstB (squra f) = bitSet f 8 := dstB_withField rfl f
  rw [heq, ← hu.acc, ← hu.frct]
  simp only [hdst]
  exact acc_setAcc _ _ c u

/-! ### MAC against its meaning -/

/-- What MAC leaves in the accumulator is the exact sum, wrapped to 40 bits; it is the sum with
what MPY leaves, and what SQURA leaves when T is the operand. -/
structure MacExact (f : BitVec 9) (c : Ctx) (s : Cpu) : Prop where
  exact : ((execOp (mac f) c s).2.acc (bitSet f 8)).toInt =
    ((s.acc (bitSet f 8)).toInt + product s (smemOf (mac f) c s)).bmod (2 ^ 40)
  mpy : (execOp (mac f) c s).2.acc (bitSet f 8) =
    sext40 (s.acc (bitSet f 8) + (execOp (mpy f) c s).2.acc (bitSet f 8))
  squra : s.t = smemOf (mac f) c s →
    (execOp (mac f) c s).2.acc (bitSet f 8) = (execOp (squra f) c s).2.acc (bitSet f 8)

theorem toInt_acc_mac : ((execOp (mac f) c s).2.acc (bitSet f 8)).toInt =
    ((s.acc (bitSet f 8)).toInt + if ProductOverflows s (smemOf (mac f) c s)
      then product s (smemOf (mac f) c s) - 2 ^ 32
      else product s (smemOf (mac f) c s)).bmod (2 ^ 40) := by
  rw [acc_mac, toInt_sext40_add, toInt_trunc32]

/-- MAC is exact for all operands but the two that make the largest product. -/
theorem mac_exact_iff :
    MacExact f c s ↔ ¬ ProductOverflows s (smemOf (mac f) c s) := by
  constructor
  · rintro ⟨hexact, -, -⟩ hover
    rw [toInt_acc_mac, if_pos hover] at hexact
    -- the two sums differ by 2³², which is not a multiple of 2⁴⁰
    have hres := congrArg (· % ((2 ^ 40 : Nat) : Int)) hexact
    simp only [Int.bmod_emod] at hres
    omega
  · intro hfits
    have hexact := toInt_acc_mac f c s
    rw [if_neg hfits] at hexact
    refine ⟨hexact, ?_, fun ht => ?_⟩
    · apply eq_of_toInt_eq
      rw [hexact, toInt_sext40_add, acc_mpy, toInt_sext40_bmod, smemOf_mpy, toInt_frct,
        Int.add_bmod_bmod]
    · apply eq_of_toInt_eq
      rw [hexact, acc_squra, toInt_sext40_add, smemOf_squra, ← ht, toInt_frct]

def largestProduct : Cpu := { operandInT 0x8000 with st1 := setBit (boot []).st1 St1.frct }

/-- A receives −2³¹ where MPY and SQURA give 2³¹. -/
theorem mac_largest_product :
    ((execOp (mac throughAr0) .boot largestProduct).2.acc false).toInt = -2 ^ 31 ∧
    ((execOp (mpy throughAr0) .boot largestProduct).2.acc false).toInt = 2 ^ 31 ∧
    ((execOp (squra throughAr0) .boot largestProduct).2.acc false).toInt = 2 ^ 31 ∧
    ¬ MacExact throughAr0 .boot largestProduct := by
  refine ⟨by decide +kernel, by decide +kernel, by decide +kernel, fun h => ?_⟩
  exact absurd h.mpy (by decide +kernel)

end Qosmo.C54x
