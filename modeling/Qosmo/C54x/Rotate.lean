import Qosmo.C54x.Canon
import Qosmo.C54x.Load
import Qosmo.Lib.Reverse

/-!
# Qosmo.C54x.Rotate

Bits that travel through the carry. ROL and ROR turn the 33 bits made of C and the low 32 bits of an
accumulator, by one place each way. SFTA A,-1 hands the lowest bit of A to C, and ROL B takes it from
there: a loop of the two writes the low bits of A into B in reversed order.
-/

namespace Qosmo.C54x

open BitVec Prog

/-! ### Rotations of 33 bits -/

theorem rotateLeft_cons (b : Bool) (v : BitVec 32) : (BitVec.cons b v).rotateLeft 1 =
    BitVec.cons (bitSet v 31) ((v <<< 1) ||| (BitVec.ofBool b).setWidth 32) := by
  apply eq_of_getLsbD_eq
  intro i hi
  rw [getLsbD_rotateLeft, getLsbD_cons, getLsbD_cons, getLsbD_cons]
  rcases (by omega : i = 0 ∨ (0 < i ∧ i < 32) ∨ i = 32) with rfl | ⟨hpos, hlt⟩ | rfl
  · simp
  · have hne : i ≠ 32 := by omega
    have hne' : i - 1 ≠ 32 := by omega
    have hlt' : i - 1 < 32 := by omega
    have hzero : i ≠ 0 := by omega
    simp [getLsbD_ofBool, hi, hne, hne', hlt, hlt', hzero]
  · simp [bitSet]

theorem rotateRight_cons (b : Bool) (v : BitVec 32) : (BitVec.cons b v).rotateRight 1 =
    BitVec.cons (bitSet v 0) ((v >>> 1) ||| (BitVec.ofBool b).setWidth 32 <<< 31) := by
  apply eq_of_getLsbD_eq
  intro i hi
  rw [getLsbD_rotateRight, getLsbD_cons, getLsbD_cons, getLsbD_cons]
  rcases (by omega : i < 31 ∨ i = 31 ∨ i = 32) with hlt | rfl | rfl
  · have hne : i ≠ 32 := by omega
    have hne' : 1 + i ≠ 32 := by omega
    have h32 : i < 32 := by omega
    simp [hne, hne', hlt, h32]
  · simp
  · simp [bitSet]

theorem rotateRight_rotateLeft (x : BitVec 33) : (x.rotateLeft 1).rotateRight 1 = x := by
  apply eq_of_getLsbD_eq
  intro i hi
  rw [getLsbD_rotateRight, getLsbD_rotateLeft, getLsbD_rotateLeft]
  rcases (by omega : i < 32 ∨ i = 32) with hlt | rfl
  · have h33 : 1 + i < 33 := by omega
    simp [hlt, h33]
  · simp

theorem rotateLeft_rotateRight (x : BitVec 33) : (x.rotateRight 1).rotateLeft 1 = x := by
  apply eq_of_getLsbD_eq
  intro i hi
  rw [getLsbD_rotateLeft, getLsbD_rotateRight, getLsbD_rotateRight]
  rcases (by omega : i = 0 ∨ 0 < i) with rfl | hpos
  · simp
  · have hzero : i ≠ 0 := by omega
    have hlt : i - 1 < 32 := by omega
    have hback : 1 + (i - 1) = i := by omega
    simp [hi, hzero, hlt, hback]

/-! ### ROL and ROR -/

/-- C on top of the low 32 bits of an accumulator. -/
def carryPair (isB : Bool) (s : Cpu) : BitVec 33 :=
  BitVec.cons (bitSet s.st0 St0.c) ((s.acc isB).setWidth 32)

def rolOp (isB : Bool) : Word := if isB then 0xF591 else 0xF491

def rorOp (isB : Bool) : Word := if isB then 0xF590 else 0xF490

theorem execOp_rol (isB : Bool) (c : Ctx) (s : Cpu) :
    let v := (s.acc isB).setWidth 32
    let u := (execOp (rolOp isB) c s).2
    u.acc isB = ((v <<< 1) ||| (BitVec.ofBool (bitSet s.st0 St0.c)).setWidth 32).setWidth 64 ∧
      u.acc (!isB) = s.acc (!isB) ∧ bitSet u.st0 St0.c = bitSet v 31 ∧ u.st1 = s.st1 := by
  have hop : rolOp isB &&& 0xFEFF = 0xF491 := by cases isB <;> rfl
  have hdecode : decode (rolOp isB) = .plain execRol := decode_of_first hop rfl rfl
  rw [execOp_of_decode hdecode, run_plain]
  cases isB <;> exact ⟨rfl, rfl, bitSet_putBit_self _ _ (by decide), rfl⟩

theorem execOp_ror (isB : Bool) (c : Ctx) (s : Cpu) :
    let v := (s.acc isB).setWidth 32
    let u := (execOp (rorOp isB) c s).2
    u.acc isB =
        ((v >>> 1) ||| (BitVec.ofBool (bitSet s.st0 St0.c)).setWidth 32 <<< 31).setWidth 64 ∧
      bitSet u.st0 St0.c = bitSet v 0 ∧ u.st1 = s.st1 := by
  have hop : rorOp isB &&& 0xFEFF = 0xF490 := by cases isB <;> rfl
  have hdecode : decode (rorOp isB) = .plain execRor := decode_of_first hop rfl rfl
  rw [execOp_of_decode hdecode, run_plain]
  cases isB <;> exact ⟨rfl, bitSet_putBit_self _ _ (by decide), rfl⟩

/-- `op` turns C and the low 32 bits by `f`. -/
structure Turns (isB : Bool) (op : Word) (f : BitVec 33 → BitVec 33) : Prop where
  pair : ∀ c s, carryPair isB (execOp op c s).2 = f (carryPair isB s)
  st1 : ∀ c s, (execOp op c s).2.st1 = s.st1

theorem turns_rol (isB : Bool) : Turns isB (rolOp isB) (·.rotateLeft 1) := by
  refine ⟨fun c s => ?_, fun c s => (execOp_rol isB c s).2.2.2⟩
  obtain ⟨hacc, -, hcarry, -⟩ := execOp_rol isB c s
  rw [carryPair, hacc, hcarry, carryPair, rotateLeft_cons, setWidth_setWidth_of_le _ (by decide),
    setWidth_eq]

theorem turns_ror (isB : Bool) : Turns isB (rorOp isB) (·.rotateRight 1) := by
  refine ⟨fun c s => ?_, fun c s => (execOp_ror isB c s).2.2⟩
  obtain ⟨hacc, hcarry, -⟩ := execOp_ror isB c s
  rw [carryPair, hacc, hcarry, carryPair, rotateRight_cons, setWidth_setWidth_of_le _ (by decide),
    setWidth_eq]

variable {s : Cpu}

/-- The pass behind the instruction leaves C, and with OVM clear the accumulators. -/
theorem carryPair_runOp {isB : Bool} {c : Ctx} {op : Word}
    (hovm : bitSet (execOp op c s).2.st1 St1.ovm = false) :
    carryPair isB (runOp c op s) = carryPair isB (execOp op c s).2 := by
  rw [carryPair, carryPair, acc_runOp_of_ovm isB hovm,
    bitSet_runOp c op s (by decide) (by decide)]

/-- Behind `op` the instruction `op'` restores C and the low 32 bits; so it does in a run while OVM
is clear, where the pass behind each instruction does not saturate. -/
structure Undoes (isB : Bool) (op' op : Word) : Prop where
  exec : ∀ c c' s, carryPair isB (execOp op' c' (execOp op c s).2).2 = carryPair isB s
  run : ∀ c c' s, bitSet s.st1 St1.ovm = false →
    carryPair isB (runOp c' op' (runOp c op s)) = carryPair isB s

theorem undoes_of_turns {isB : Bool} {op op' : Word} {f g : BitVec 33 → BitVec 33}
    (h : Turns isB op f) (h' : Turns isB op' g) (hback : ∀ x, g (f x) = x) : Undoes isB op' op where
  exec c c' s := by rw [h'.pair, h.pair, hback]
  run c c' s hovm := by
    have hfirst : bitSet (execOp op c s).2.st1 St1.ovm = false := by rw [h.st1, hovm]
    have hsecond : bitSet (execOp op' c' (runOp c op s)).2.st1 St1.ovm = false := by
      rw [h'.st1, st1_runOp, hfirst]
    rw [carryPair_runOp hsecond, h'.pair, carryPair_runOp hfirst, h.pair, hback]

/-! ### The loop of SFTA and ROL -/

/-- SFTA A,-1. -/
def sftaOp : Word := 0xF47F

theorem getLsbD_sext40_of_lt (v : Acc) {i : Nat} (hi : i < 40) :
    (sext40 v).getLsbD i = v.getLsbD i := by
  rw [getLsbD_sext40 v (by omega), Nat.min_eq_left (by omega)]

/-- One place to the right, the sign or a zero coming in. -/
def halved (st1 : Word) (sv : Acc) : Acc :=
  if !bitSet st1 St1.sxm then (sv &&& mask40) >>> 1 else sv.sshiftRight 1

theorem getLsbD_halved (st1 : Word) (sv : Acc) {i : Nat} (hi : i < 39) :
    (halved st1 sv).getLsbD i = sv.getLsbD (i + 1) := by
  have hmask : ∀ j < 40, mask40.getLsbD j := by decide
  unfold halved
  split
  · rw [getLsbD_ushiftRight, getLsbD_and, hmask (1 + i) (by omega), Bool.and_true,
      Nat.add_comm]
  · have hlt : ¬ 64 ≤ i := by omega
    have hlt' : 1 + i < 64 := by omega
    rw [getLsbD_sshiftRight, decide_eq_false hlt, if_pos hlt', Nat.add_comm]
    rfl

/-- The lowest bit goes to C; the others move down, whatever comes in on top. -/
theorem execOp_sfta (c : Ctx) (s : Cpu) :
    let u := (execOp sftaOp c s).2
    (∀ i < 39, u.a.getLsbD i = s.a.getLsbD (i + 1)) ∧ u.b = s.b ∧
      bitSet u.st0 St0.c = s.a.getLsbD 0 ∧ u.st1 = s.st1 := by
  have hdecode : decode sftaOp = .plain execSfta :=
    decode_of_first (show sftaOp &&& 0xFCE0 = 0xF460 from rfl) rfl rfl
  rw [execOp_of_decode hdecode, run_plain]
  refine ⟨fun i hi => ?_, rfl, ?_, rfl⟩
  · show (sext40 (halved s.st1 (sext40 s.a))).getLsbD i = s.a.getLsbD (i + 1)
    rw [getLsbD_sext40_of_lt _ (by omega), getLsbD_halved _ _ hi,
      getLsbD_sext40_of_lt _ (by omega)]
  · refine (bitSet_putBit_self _ _ (by decide)).trans ?_
    exact getLsbD_sext40_of_lt s.a (by decide)

theorem getLsbD_rolled (b : Acc) (carry : Bool) (j : Nat) :
    ((b.setWidth 32 <<< 1 ||| (BitVec.ofBool carry).setWidth 32).setWidth 64).getLsbD j =
      if j = 0 then carry else decide (j < 32) && b.getLsbD (j - 1) := by
  by_cases hzero : j = 0
  · subst hzero
    cases carry <;> simp
  · by_cases hlt : j < 32
    · have h64 : j < 64 := by omega
      simp [hzero, hlt, h64, getLsbD_ofBool]
    · simp [hzero, hlt]

def shiftOver (s : Cpu) (cs : List (Ctx × Ctx)) : Cpu :=
  cs.foldl (fun s c => runOp c.2 (rolOp true) (runOp c.1 sftaOp s)) s

/-- Behind `k` rounds: the bits of `a` not handed over yet are at the bottom of A, and those handed
over are in B, the last one lowest. -/
structure HandedOver (a : Acc) (k : Nat) (s : Cpu) : Prop where
  rest : ∀ i, i + k < 40 → s.a.getLsbD i = a.getLsbD (i + k)
  bits : ∀ j, s.b.getLsbD j = (decide (j < k) && a.getLsbD (k - 1 - j))
  ovm : bitSet s.st1 St1.ovm = false

theorem HandedOver.round {a : Acc} {k : Nat} (h : HandedOver a k s) (hk : k < 32)
    (c c' : Ctx) : HandedOver a (k + 1) (runOp c' (rolOp true) (runOp c sftaOp s)) := by
  obtain ⟨hdown, hb, hcarry, hst1⟩ := execOp_sfta c s
  generalize hu : runOp c sftaOp s = u
  have hovm : bitSet (execOp sftaOp c s).2.st1 St1.ovm = false := by rw [hst1, h.ovm]
  have hua : u.a = (execOp sftaOp c s).2.a := by rw [← hu]; exact acc_runOp_of_ovm false hovm
  have hub : u.b = s.b := by rw [← hu, ← hb]; exact acc_runOp_of_ovm true hovm
  have huc : bitSet u.st0 St0.c = a.getLsbD k := by
    rw [← hu, bitSet_runOp _ _ _ (by decide) (by decide), hcarry, h.rest 0 (by omega), Nat.zero_add]
  have hust1 : u.st1 = s.st1 := by rw [← hu, st1_runOp, hst1]
  obtain ⟨hnext, hother, -, hst1'⟩ := execOp_rol true c' u
  have hovm' : bitSet (execOp (rolOp true) c' u).2.st1 St1.ovm = false := by
    rw [hst1', hust1, h.ovm]
  refine ⟨fun i hi => ?_, fun j => ?_, ?_⟩
  · have hva : (runOp c' (rolOp true) u).a = u.a :=
      (acc_runOp_of_ovm false hovm').trans hother
    rw [hva, hua, hdown i (by omega), h.rest (i + 1) (by omega), Nat.add_right_comm, Nat.add_assoc]
  · have hvb : (runOp c' (rolOp true) u).b = _ := (acc_runOp_of_ovm true hovm').trans hnext
    rw [hvb, show u.acc true = s.b from hub, getLsbD_rolled, huc, h.bits]
    by_cases hzero : j = 0
    · subst hzero
      simp
    · have hindex : k - 1 - (j - 1) = k + 1 - 1 - j := by omega
      have hbelow : (decide (j < 32) && decide (j - 1 < k)) = decide (j < k + 1) := by
        rw [← Bool.decide_and]
        exact decide_eq_decide.mpr (by omega)
      rw [if_neg hzero, hindex, ← Bool.and_assoc, hbelow]
  · rw [st1_runOp, hovm']

theorem handedOver_shiftOver {a : Acc} {k : Nat} {cs : List (Ctx × Ctx)}
    (h : HandedOver a k s) (hlen : k + cs.length ≤ 32) :
    HandedOver a (k + cs.length) (shiftOver s cs) := by
  induction cs generalizing k s with
  | nil => exact h
  | cons c cs ih =>
    rw [List.length_cons] at hlen ⊢
    rw [show k + (cs.length + 1) = k + 1 + cs.length by omega]
    exact ih (h.round (by omega) c.1 c.2) (by omega)

theorem shiftOver_reverses {cs : List (Ctx × Ctx)}
    (hovm : bitSet s.st1 St1.ovm = false) (hb : s.b = 0) (hlen : cs.length ≤ 32) :
    (shiftOver s cs).b = (s.a.setWidth cs.length).reverse.setWidth 64 := by
  have hstart : HandedOver s.a 0 s := by
    refine ⟨fun i _ => rfl, fun j => ?_, hovm⟩
    rw [hb]
    simp
  have hend : HandedOver s.a (0 + cs.length) (shiftOver s cs) :=
    handedOver_shiftOver hstart (by omega)
  rw [Nat.zero_add] at hend
  apply eq_of_getLsbD_eq
  intro j hj
  rw [hend.bits, getLsbD_setWidth, decide_eq_true hj, Bool.true_and]
  by_cases hlt : j < cs.length
  · rw [Reverse.getLsbD_reverse hlt, getLsbD_setWidth,
      decide_eq_true (show cs.length - 1 - j < cs.length by omega), decide_eq_true hlt]
  · rw [decide_eq_false hlt, Bool.false_and, getLsbD_of_ge _ _ (by omega)]

/-- SFTA A,-1 and ROL B, up to 32 times from B = 0 with OVM clear, leave in B the low bits of A in
reversed order; and each of ROL and ROR undoes the other. -/
theorem bits_through_carry (s : Cpu) (cs : List (Ctx × Ctx))
    (hovm : bitSet s.st1 St1.ovm = false) (hb : s.b = 0) (hlen : cs.length ≤ 32) :
    (shiftOver s cs).b = (s.a.setWidth cs.length).reverse.setWidth 64 ∧
      ∀ isB, Undoes isB (rorOp isB) (rolOp isB) ∧ Undoes isB (rolOp isB) (rorOp isB) :=
  ⟨shiftOver_reverses hovm hb hlen, fun isB =>
    ⟨undoes_of_turns (turns_rol isB) (turns_ror isB) rotateRight_rotateLeft,
      undoes_of_turns (turns_ror isB) (turns_rol isB) rotateLeft_rotateRight⟩⟩

/-- A core behind a reset with 0x1D in A. -/
def sampleA : Cpu := { (boot []).toCpu with a := 0x1D }

/-- Five rounds turn 11101 into 10111. -/
theorem bits_through_carry_five :
    (shiftOver sampleA (List.replicate 5 (.boot, .boot))).b = 0x17 :=
  (bits_through_carry sampleA (List.replicate 5 (.boot, .boot)) (by decide) rfl (by decide)).1

end Qosmo.C54x
