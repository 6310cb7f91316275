import Qosmo.C54x.Overflow

/-!
# Qosmo.C54x.Load

Instructions that read one memory operand and compute on the accumulators, one after the other.

Reading the operand (`loadSmem`) moves an auxiliary register and, in compatibility mode, ARP; it
leaves the accumulators, T, ST1 and the flags of ST0. `smemOf` is the word it reads, so that what
such an instruction computes is an equation between the state before and the state after.
-/

namespace Qosmo.C54x

open BitVec Prog

/-! ### Flags -/

variable {n : Nat}

theorem bitSet_putBit_self (r : Word) (v : Bool) (hn : n < 16) : bitSet (putBit r n v) n = v := by
  cases v with
  | false => exact bitSet_clearBit_self r n
  | true => exact bitSet_setBit_self r n hn

variable {k : Nat}

theorem bitSet_setBit_ne (r : Word) (hne : k ≠ n) : bitSet (setBit r n) k = bitSet r k := by
  have hne' : n ≠ k := fun h => hne h.symm
  simp [bitSet, setBit, getLsbD_twoPow, hne']

theorem bitSet_putBit_ne (r : Word) (v : Bool) (hne : k ≠ n) :
    bitSet (putBit r n v) k = bitSet r k := by
  cases v with
  | true => exact bitSet_setBit_ne r hne
  | false =>
    have hclear := getLsbD_clearBit r n k
    rw [decide_eq_true hne, Bool.and_true] at hclear
    exact hclear

theorem bitSet_setArp (s : Cpu) (n : BitVec 3) (hk : k < 13) :
    bitSet (setArp s n).st0 k = bitSet s.st0 k := by
  have hmask : ∀ j < 13, (~~~ St0.arpMask).getLsbD j := by decide
  have hshift : ¬ St0.arpShift ≤ k := by
    unfold St0.arpShift
    omega
  simp only [bitSet, setArp, getLsbD_or, getLsbD_and, hmask k hk, Bool.and_true,
    getLsbD_shiftLeft]
  simp [Nat.lt_of_not_le hshift]

/-! ### The memory operand -/

/-- What the reading of an operand leaves of the state: everything but an auxiliary register,
ARP and the note that an `lk` word was used. -/
theorem loadSmem_eq (op : Word) (c : Ctx) (s : Cpu) : ∃ ar st0 lk,
    (∀ k < 13, bitSet st0 k = bitSet s.st0 k) ∧
      (loadSmem op c s).2 = { s with ar := ar, st0 := st0, lkUsed := lk } := by
  have hstate : (loadSmem op c s).2 = (resolveSmem op c s).2 := rfl
  rw [hstate]
  simp only [resolveSmem, run_get_bind]
  split
  · simp only [run_bind]
    split
    · exact ⟨_, _, _, fun k hk => bitSet_setArp _ _ hk, rfl⟩
    · exact ⟨_, s.st0, _, fun _ _ => rfl, rfl⟩
  · exact ⟨s.ar, s.st0, s.lkUsed, fun _ _ => rfl, rfl⟩

def smemOf (op : Word) (c : Ctx) (s : Cpu) : Word := (loadSmem op c { s with lkUsed := false }).1

variable {op op' : Word}

section

variable (h : op.setWidth 8 = op'.setWidth 8)

include h

/-- The addressing mode is in the low byte of the opcode. -/
theorem resolveSmem_congr : resolveSmem op = resolveSmem op' := by
  have hbit : ∀ k < 8, op.getLsbD k = op'.getLsbD k := by
    intro k hk
    have hk' := congrArg (·.getLsbD k) h
    simpa [hk] using hk'
  have hseven : bitSet op 7 = bitSet op' 7 := hbit 7 (by omega)
  have hmod : modOf op = modOf op' := by
    unfold modOf
    congr 1
    apply eq_of_getLsbD_eq
    intro i hi
    have hmask : ∀ j < 16, (0xF : Word).getLsbD j = decide (j < 4) := by decide
    rw [getLsbD_and, getLsbD_and, hmask i hi, getLsbD_ushiftRight,
      getLsbD_ushiftRight]
    by_cases hlow : i < 4
    · rw [hbit (3 + i) (by omega)]
    · rw [decide_eq_false hlow, Bool.and_false, Bool.and_false]
  have hnar : op.setWidth 3 = op'.setWidth 3 := by
    apply eq_of_getLsbD_eq
    intro i hi
    simp [hi, hbit i (by omega)]
  have hoff : op &&& 0x7F = op' &&& 0x7F := by
    apply eq_of_getLsbD_eq
    intro i hi
    have hmask : ∀ j < 16, (0x7F : Word).getLsbD j = decide (j < 7) := by decide
    rw [getLsbD_and, getLsbD_and, hmask i hi]
    by_cases hlow : i < 7
    · rw [hbit i (by omega)]
    · rw [decide_eq_false hlow, Bool.and_false, Bool.and_false]
  simp only [resolveSmem, indirectAccess, direct, hseven, hmod, hnar, hoff]

theorem loadSmem_congr : loadSmem op = loadSmem op' := by
  rw [loadSmem, loadSmem, resolveSmem_congr h]

theorem smemOf_congr (c : Ctx) (s : Cpu) : smemOf op c s = smemOf op' c s := by
  unfold smemOf
  rw [loadSmem_congr h]

end

/-- The state behind the reading of an operand, for an instruction that computes on the
accumulators, T and the flags. -/
structure Loaded (s u : Cpu) : Prop where
  acc : ∀ isB, u.acc isB = s.acc isB
  t : u.t = s.t
  st1 : u.st1 = s.st1
  flag : ∀ k < 13, bitSet u.st0 k = bitSet s.st0 k

variable {s : Cpu}

theorem Loaded.sxm {u : Cpu} (h : Loaded s u) (w : Word) : sxm u w = sxm s w := by
  rw [C54x.sxm, C54x.sxm, h.st1]

theorem Loaded.frct {u : Cpu} (h : Loaded s u) (p : Acc) : frct u p = frct s p := by
  rw [C54x.frct, C54x.frct, h.st1]

/-- An instruction that starts by reading its operand goes on from there. -/
theorem execOp_load {f : Word → Exec Nat} {body : Word → Exec Nat}
    (hop : decode op = .plain f) (hf : f op = loadSmem op >>= body) (c : Ctx) (s : Cpu) :
    ∃ u, Loaded s u ∧ (execOp op c s).2 = (body (smemOf op c s) c u).2 := by
  obtain ⟨ar, st0, lk, hst0, hload⟩ := loadSmem_eq op c { s with lkUsed := false }
  refine ⟨{ s with ar := ar, st0 := st0, lkUsed := lk }, ⟨?_, rfl, rfl, hst0⟩, ?_⟩
  · intro isB
    cases isB <;> rfl
  · rw [execOp_of_decode hop, run_plain, hf, run_bind, hload]
    rfl

theorem acc_setAcc (isB : Bool) (v : Acc) (c : Ctx) (s : Cpu) :
    (setAcc isB v c s).2.acc isB = v := by
  cases isB <;> rfl

/-! ### Opcodes with a destination and an operand -/

/-- The opcode with destination bit and addressing mode `f`. -/
def withField (base : Word) (f : BitVec 9) : Word := base ||| f.setWidth 16

theorem bitSet_withField (base : Word) (f : BitVec 9) (hk : 9 ≤ k) :
    bitSet (withField base f) k = bitSet base k := by
  rw [bitSet, withField, getLsbD_or, getLsbD_setWidth, getLsbD_of_ge f k hk,
    Bool.and_false, Bool.or_false]
  rfl

theorem ushiftRight_withField (base : Word) (f : BitVec 9) :
    withField base f >>> 9 = base >>> 9 := by
  apply eq_of_getLsbD_eq
  intro i _
  rw [getLsbD_ushiftRight, getLsbD_ushiftRight]
  exact bitSet_withField base f (by omega)

section WithField

variable {base : Word} (hbase : base &&& 0xFE00 = base) (f : BitVec 9)
include hbase

theorem getLsbD_base {k : Nat} (hk : k < 9) : base.getLsbD k = false := by
  have hmask : ∀ j < 9, (0xFE00 : Word).getLsbD j = false := by decide
  rw [← hbase, getLsbD_and, hmask k hk, Bool.and_false]

theorem dstB_withField : dstB (withField base f) = bitSet f 8 := by
  rw [dstB, bitSet, withField, getLsbD_or, getLsbD_base hbase (by omega), Bool.false_or,
    getLsbD_setWidth]
  rfl

theorem setWidth_withField : (withField base f).setWidth 8 = f.setWidth 8 := by
  apply eq_of_getLsbD_eq
  intro i hi
  have hlt : i < 16 := by omega
  rw [getLsbD_setWidth, withField, getLsbD_or, getLsbD_base hbase (by omega),
    Bool.false_or]
  simp [hi, hlt]

theorem withField_and : withField base f &&& 0xFE00 = base := by
  have hmask : ∀ j < 16, (0xFE00 : Word).getLsbD j = decide (9 ≤ j) := by decide
  apply eq_of_getLsbD_eq
  intro i hi
  rw [getLsbD_and, hmask i hi, withField, getLsbD_or]
  by_cases hlow : 9 ≤ i
  · simp [hlow]
  · rw [decide_eq_false hlow, Bool.and_false, getLsbD_base hbase (by omega)]

end WithField

theorem eq_withField {base : Word} (h : op &&& 0xFE00 = base) :
    op = withField base (op.setWidth 9) := by
  have hmask : ∀ j < 16, (0xFE00 : Word).getLsbD j = decide (9 ≤ j) := by decide
  apply eq_of_getLsbD_eq
  intro i hi
  rw [withField, getLsbD_or, ← h, getLsbD_and, hmask i hi]
  by_cases hlow : 9 ≤ i
  · simp [hlow]
  · simp [hlow, hi, Nat.lt_of_not_le hlow]

/-! ### The overflow pass -/

/-- With OVM clear the pass behind the instruction leaves the accumulators. -/
theorem acc_runOp_of_ovm {c : Ctx} (isB : Bool)
    (hovm : bitSet (execOp op c s).2.st1 St1.ovm = false) :
    (runOp c op s).acc isB = (execOp op c s).2.acc isB := by
  rw [runOp, acc_overflowPass, settle, if_neg]
  rintro ⟨hon, -⟩
  rw [hovm] at hon
  cases hon

/-- An accumulator the instruction leaves, and one within 32 bits, come through the pass. -/
theorem acc_runOp_of_keeps {c : Ctx} {isB : Bool} {v : Acc} (hv : (execOp op c s).2.acc isB = v)
    (hkeep : v = s.acc isB ∨ -2 ^ 31 ≤ (sext40 v).toInt ∧ (sext40 v).toInt < 2 ^ 31) :
    (runOp c op s).acc isB = v := by
  rw [runOp, acc_overflowPass, settle, hv, if_neg]
  rintro ⟨-, -, hne, hsat⟩
  rcases hkeep with hsame | hin
  · exact hne hsame
  · exact hsat ((eq_sat32_iff _).mpr hin)

section

variable (c : Ctx) (op : Word) (s : Cpu)

theorem st1_runOp : (runOp c op s).st1 = (execOp op c s).2.st1 := by
  obtain ⟨a, b, st0, hover⟩ := overflowPass_eq s (execOp op c s).2
  rw [runOp, hover]

theorem t_runOp : (runOp c op s).t = (execOp op c s).2.t := by
  obtain ⟨a, b, st0, hover⟩ := overflowPass_eq s (execOp op c s).2
  rw [runOp, hover]

/-- The pass touches no flag but OVA and OVB. -/
theorem bitSet_runOp (ha : n ≠ St0.ova) (hb : n ≠ St0.ovb) :
    bitSet (runOp c op s).st0 n = bitSet (execOp op c s).2.st0 n := by
  rw [runOp]
  cases hc16 : bitSet (execOp op c s).2.st1 St1.c16 with
  | true => rw [overflowPass, hc16, if_pos rfl]
  | false =>
    rw [st0_overflowPass _ _ hc16, st0_overflowAcc]
    split <;> split
    · rfl
    · exact bitSet_setBit_ne _ ha
    · exact bitSet_setBit_ne _ hb
    · rw [bitSet_setBit_ne _ hb]
      exact bitSet_setBit_ne _ ha

end

/-! ### Sequences of instructions -/

/-- Instructions run one after the other, each in its own context and with the overflow pass
behind it; `seen` is what is to be seen of each. -/
def sequence {ω : Type} (seen : Ctx → Word → Cpu → ω) : Machine Cpu (Ctx × Word) ω :=
  ⟨fun s x => (runOp x.1 x.2 s, [seen x.1 x.2 s])⟩

theorem length_trace_sequence {ω : Type} (seen : Ctx → Word → Cpu → ω) (s : Cpu)
    (xs : List (Ctx × Word)) : ((sequence seen).trace s xs).length = xs.length := by
  induction xs generalizing s with
  | nil => rfl
  | cons x xs ih => rw [Machine.trace_cons, List.length_append, ih, Nat.add_comm]; rfl

/-! ### An operand, for runs on concrete values -/

def Ctx.boot : Ctx := (C54x.boot []).ctx .quiet

/-- Destination A, operand *AR0. -/
def throughAr0 : BitVec 9 := 0x080

/-- A core behind a reset in which AR0 points to T, so that T is the operand. -/
def operandInT (w : Word) : Cpu := { (boot []).toCpu with t := w, ar := fun _ => 0x0E }

end Qosmo.C54x
