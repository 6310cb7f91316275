import Qosmo.C54x.Run
import Qosmo.Lib.Prog

/-!
# Qosmo.C54x.Operand

Four places of the emulator turn an addressing-mode byte into an address: `resolve_smem`,
its long-operand twin `resolve_lmem`, and MVKD and MVDK, which work out the modes with an
`lk` word themselves (`mvkOperand`). The twins should differ from `resolve_smem` in nothing
but the step of a long operand.

They do not know the compatibility mode. With CMPT set, `resolve_smem` reads AR0 as the
register ARP names and moves ARP to any other register; `resolve_lmem` does neither, and
MVKD and MVDK move ARP whether CMPT is set or not. The circular mode with an `lk` word is
linear in MVKD and MVDK. The two conditions below are exact.
-/

namespace Qosmo.C54x

open BitVec Function

/-- What a resolver leaves behind: the effective address, the auxiliary registers, ARP. -/
structure Resolved where
  addr : Word
  ar : BitVec 3 → Word
  arp : BitVec 3

def resolved (m : Exec Word) (c : Ctx) (s : Cpu) : Resolved :=
  ⟨(m c s).1, (m c s).2.ar, (m c s).2.arp⟩

/-- `resolve_smem` with another step for the modes that step by 1. -/
def resolveSmemBy (step : Nat) (op : Word) : Exec Word := do
  let s ← get
  if bitSet op 7 then
    let nar : BitVec 3 := op.setWidth 3
    let cmpt := bitSet s.st1 St1.cmpt
    let addr ← indirectAccess op (if cmpt && nar == 0 then s.arp else nar) step
    if cmpt && nar != 0 then modify fun s => setArp s nar
    return addr
  else return direct s op

theorem resolveSmemBy_one : resolveSmemBy 1 = resolveSmem := rfl

/-- The address MVKD and MVDK work out. -/
def mvkAddr (op : Word) : Exec Word := do return (← mvkOperand op).1

/-- The register a mode byte names. -/
def narOf (op : Word) : BitVec 3 := op.setWidth 3

/-- The word an `lk` mode takes. -/
def lkOf (c : Ctx) (s : Cpu) : Word := progFetch s ((c.pc + BitVec.ofNat 32 1).setWidth 16)

/-- The register `resolve_smem` works on. -/
def currentAr (s : Cpu) (op : Word) : BitVec 3 :=
  if bitSet s.st1 St1.cmpt && narOf op == 0 then s.arp else narOf op

/-- ARP as `resolve_smem` leaves it. -/
def nextArp (s : Cpu) (op : Word) : BitVec 3 :=
  if bitSet s.st1 St1.cmpt && narOf op != 0 then narOf op else s.arp

/-- The access of the mode of `op` through a register: its next value and the address. -/
def access (c : Ctx) (s : Cpu) (op : Word) (step : Nat) (n : BitVec 3) : Word × Word :=
  indirect (modOf op) step (s.ar n) (s.ar 0) s.bk (lkOf c s)

/-! ### What the resolvers leave behind -/

theorem arp_setArp (s : Cpu) (n : BitVec 3) : (setArp s n).arp = n := by
  unfold setArp Cpu.arp St0.arpMask St0.arpShift
  ext i hi
  have hcases : i = 0 ∨ i = 1 ∨ i = 2 := by omega
  rcases hcases with rfl | rfl | rfl <;> simp

theorem resolved_indirectAccess (op : Word) (n : BitVec 3) (step : Nat) (c : Ctx) (s : Cpu) :
    resolved (indirectAccess op n step) c s =
      ⟨(access c s op step n).2, Function.update s.ar n (access c s op step n).1, s.arp⟩ := rfl

variable {op : Word}

theorem resolved_smemBy (hind : bitSet op 7) (step : Nat) (c : Ctx) (s : Cpu) :
    resolved (resolveSmemBy step op) c s =
      { resolved (indirectAccess op (currentAr s op) step) c s with arp := nextArp s op } := by
  cases hmove : bitSet s.st1 St1.cmpt && narOf op != 0 with
  | true =>
    have hrun : resolveSmemBy step op c s =
        ((indirectAccess op (currentAr s op) step c s).1,
          setArp (indirectAccess op (currentAr s op) step c s).2 (narOf op)) := by
      unfold narOf at hmove
      simp only [resolveSmemBy, hind, if_true, Prog.run_bind, Prog.run_get, hmove]
      rfl
    simp only [resolved, hrun, arp_setArp, nextArp, hmove, if_true]
    rfl
  | false =>
    have hrun : resolveSmemBy step op c s = indirectAccess op (currentAr s op) step c s := by
      unfold narOf at hmove
      simp only [resolveSmemBy, hind, if_true, Prog.run_bind, Prog.run_get, hmove]
      rfl
    simp only [resolved, hrun, nextArp, hmove]
    rfl

theorem resolved_lmem (hind : bitSet op 7) (c : Ctx) (s : Cpu) :
    resolved (resolveLmem op) c s = resolved (indirectAccess op (narOf op) 2) c s := by
  simp only [resolved, resolveLmem, hind, if_true]
  rfl

/-- The access MVKD and MVDK make in a mode with an `lk` word. -/
def mvkAccess (c : Ctx) (s : Cpu) (op : Word) : Word × Word :=
  let ar := s.ar (narOf op)
  (if modOf op = 0xD ∨ modOf op = 0xE then ar + lkOf c s else ar,
    if modOf op = 0xF then lkOf c s else ar + lkOf c s)

theorem mvkOperand_lk (hmode : (bitSet op 7 && decide (0xC ≤ modOf op)))
    (c : Ctx) (s : Cpu) :
    mvkOperand op c s =
      (((mvkAccess c s op).2, progFetch s ((c.pc + BitVec.ofNat 32 2).setWidth 16)),
        { setArp (s.setAr (narOf op) (mvkAccess c s op).1) (narOf op) with lkUsed := true }) := by
  by_cases hpre : modOf op = 0xD ∨ modOf op = 0xE
  · simp only [mvkOperand, mvkAccess, hmode, hpre, if_true, Prog.run_bind]
    rfl
  · have hkept : s.setAr (narOf op) (s.ar (narOf op)) = s := by
      rw [Cpu.setAr, update_eq_self]
    simp only [mvkAccess, hpre, if_false, hkept]
    simp only [mvkOperand, hmode, hpre, if_true, if_false, Prog.run_bind]
    rfl

theorem resolved_mvk_lk (hind : bitSet op 7) (hlk : 0xC ≤ modOf op) (c : Ctx) (s : Cpu) :
    resolved (mvkAddr op) c s =
      ⟨(mvkAccess c s op).2, Function.update s.ar (narOf op) (mvkAccess c s op).1, narOf op⟩ := by
  have hmode : (bitSet op 7 && decide (0xC ≤ modOf op)) := by simp [hind, hlk]
  have hrun : mvkAddr op c s = ((mvkAccess c s op).2,
      { setArp (s.setAr (narOf op) (mvkAccess c s op).1) (narOf op) with lkUsed := true }) := by
    rw [mvkAddr, Prog.run_bind, mvkOperand_lk hmode]
    rfl
  simp only [resolved, hrun]
  congr 1
  exact arp_setArp _ _

/-- In the other modes they call `resolve_smem`, which does not look at `lk_used`. -/
theorem resolved_mvk (hmode : ¬ (bitSet op 7 ∧ 0xC ≤ modOf op)) (c : Ctx)
    (s : Cpu) : resolved (mvkAddr op) c s = resolved (resolveSmem op) c s := by
  have hmode' : (bitSet op 7 && decide (0xC ≤ modOf op)) = false := by
    simpa using hmode
  have hcall : resolved (mvkAddr op) c s =
      resolved (resolveSmem op) c { s with lkUsed := false } := by
    simp only [resolved, mvkAddr, mvkOperand, hmode', Prog.run_bind]
    rfl
  rw [hcall, ← resolveSmemBy_one]
  by_cases hind : bitSet op 7
  · rw [resolved_smemBy hind, resolved_smemBy hind]
    rfl
  · simp only [resolved, resolveSmemBy, hind]
    rfl

/-! ### Circular and linear addressing -/

/-- The index in the circular buffer a step leads to, before it is folded back. -/
def circIdx (ar : Word) (step : Int) (bk : Word) : Int :=
  (ar &&& BitVec.ofNat 16 (2 ^ circBits bk - 1)).toNat + step

theorem ofInt_eq_iff (x y : Int) :
    BitVec.ofInt 16 x = BitVec.ofInt 16 y ↔ x % 65536 = y % 65536 := by
  rw [← toNat_inj, toNat_ofInt, toNat_ofInt]
  omega

theorem and_not_add_and (x masque : Word) : (x &&& ~~~ masque) + (x &&& masque) = x := by
  rw [add_eq_or_of_and_eq_zero]
  · ext i hi
    simp only [getElem_or, getElem_and, getElem_not]
    cases masque[i] <;> simp
  · ext i hi
    simp only [getElem_and, getElem_not, getElem_zero]
    cases masque[i] <;> simp

/-- A circular step is the linear one exactly when the index stays in the buffer. -/
theorem circRef_eq_add_iff (ar : Word) (step : Int) (bk : Word) :
    circRef ar step bk = ar + BitVec.ofInt 16 step ↔
      bk = 0 ∨ 0 ≤ circIdx ar step bk ∧ circIdx ar step bk < bk.toNat := by
  by_cases hbk : bk = 0
  · simp [circRef, hbk]
  have hpos : 0 < bk.toNat := by bv_omega
  have hlt : bk.toNat < 65536 := bk.isLt
  generalize hmask : BitVec.ofNat 16 (2 ^ circBits bk - 1) = masque
  have hidx : circIdx ar step bk = (ar &&& masque).toNat + step := by rw [circIdx, hmask]
  have hlin : ar + BitVec.ofInt 16 step =
      (ar &&& ~~~ masque) + BitVec.ofInt 16 (circIdx ar step bk) := by
    rw [hidx, ofInt_add, ofInt_natCast, ofNat_toNat, setWidth_eq,
      ← add_assoc, and_not_add_and]
  have hcirc : circRef ar step bk = (ar &&& ~~~ masque) + BitVec.ofInt 16
      (if (bk.toNat : Int) ≤ circIdx ar step bk then circIdx ar step bk - bk.toNat
        else if circIdx ar step bk < 0 then circIdx ar step bk + bk.toNat
        else circIdx ar step bk) := by
    rw [hidx]
    simp only [circRef, hbk, if_false, hmask]
  rw [hcirc, hlin, add_right_inj, ofInt_eq_iff]
  simp only [hbk, false_or]
  split
  · omega
  · split <;> omega

/-! ### When the twins agree with `resolve_smem` -/

/-- MVKD and MVDK agree: outside the modes with an `lk` word they call `resolve_smem`; in
them ARP must end on the register named, and a circular step must not leave the buffer. -/
def MvkAgrees (c : Ctx) (s : Cpu) (op : Word) : Prop :=
  bitSet op 7 = true → 0xC ≤ modOf op →
    (bitSet s.st1 St1.cmpt = true ∧ narOf op ≠ 0 ∨ s.arp = narOf op) ∧
    (modOf op = 0xE → s.bk = 0 ∨ 0 ≤ circIdx (s.ar (narOf op)) (lkOf c s).toInt s.bk ∧
      circIdx (s.ar (narOf op)) (lkOf c s).toInt s.bk < s.bk.toNat)

/-- `resolve_lmem` agrees: with CMPT set and another register than AR0, ARP must name it
already; with AR0, ARP must name AR0, or the accesses through AR0 and through the register
ARP names go to one address and leave both registers. -/
def LmemAgrees (c : Ctx) (s : Cpu) (op : Word) : Prop :=
  bitSet op 7 = true → bitSet s.st1 St1.cmpt = true →
    if narOf op = 0 then s.arp = 0 ∨
      (access c s op 2 0).2 = (access c s op 2 s.arp).2 ∧
        (access c s op 2 0).1 = s.ar 0 ∧ (access c s op 2 s.arp).1 = s.ar s.arp
    else s.arp = narOf op

theorem modOf_le (op : Word) : modOf op ≤ 0xF := by
  unfold modOf
  rw [toNat_and]
  exact Nat.and_le_right

theorem currentAr_of_ne (hnar : narOf op ≠ 0) (s : Cpu) : currentAr s op = narOf op := by
  have hbeq : (narOf op == 0) = false := beq_eq_false_iff_ne.mpr hnar
  simp only [currentAr, hbeq, Bool.and_false, Bool.false_eq_true, if_false]

variable {s : Cpu}

theorem currentAr_of_zero (hnar : narOf op = 0)
    (hcmpt : bitSet s.st1 St1.cmpt) : currentAr s op = s.arp := by
  simp only [currentAr, hnar, hcmpt, beq_self_eq_true, Bool.and_self, if_true]

theorem nextArp_of_ne (hnar : narOf op ≠ 0)
    (hcmpt : bitSet s.st1 St1.cmpt) : nextArp s op = narOf op := by
  have hbne : (narOf op != 0) := bne_iff_ne.mpr hnar
  simp only [nextArp, hbne, hcmpt, Bool.and_self, if_true]

theorem nextArp_of_zero (hnar : narOf op = 0) (s : Cpu) : nextArp s op = s.arp := by
  simp only [nextArp, hnar, bne_self_eq_false, Bool.and_false, Bool.false_eq_true, if_false]

theorem nextArp_of_not_cmpt (hcmpt : bitSet s.st1 St1.cmpt = false) (op : Word) :
    nextArp s op = s.arp := by
  simp only [nextArp, hcmpt, Bool.false_and, Bool.false_eq_true, if_false]

theorem nextArp_eq_narOf_iff (s : Cpu) (op : Word) :
    narOf op = nextArp s op ↔ bitSet s.st1 St1.cmpt ∧ narOf op ≠ 0 ∨ s.arp = narOf op := by
  cases hcmpt : bitSet s.st1 St1.cmpt with
  | false =>
    rw [nextArp_of_not_cmpt hcmpt]
    exact ⟨fun h => .inr h.symm, fun h => (h.resolve_left fun hand => by simp at hand).symm⟩
  | true =>
    by_cases hnar : narOf op = 0
    · rw [nextArp_of_zero hnar]
      exact ⟨fun h => .inr h.symm, fun h => (h.resolve_left fun hand => hand.2 hnar).symm⟩
    · rw [nextArp_of_ne hnar hcmpt]
      exact ⟨fun _ => .inl ⟨rfl, hnar⟩, fun _ => rfl⟩

/-- Where ARP ends on the register named, that register is the one used. -/
theorem currentAr_eq_narOf (h : narOf op = nextArp s op) : currentAr s op = narOf op := by
  rcases (nextArp_eq_narOf_iff s op).mp h with ⟨-, hnar⟩ | harp
  · exact currentAr_of_ne hnar s
  · rw [currentAr, harp, ite_self]

/-- Through the same register the accesses differ in the circular mode only. -/
theorem mvkAccess_eq_iff (c : Ctx) (s : Cpu) (hlk : 0xC ≤ modOf op) :
    mvkAccess c s op = access c s op 1 (narOf op) ↔
      (modOf op = 0xE → s.bk = 0 ∨ 0 ≤ circIdx (s.ar (narOf op)) (lkOf c s).toInt s.bk ∧
        circIdx (s.ar (narOf op)) (lkOf c s).toInt s.bk < s.bk.toNat) := by
  have hmode : modOf op = 0xC ∨ modOf op = 0xD ∨ modOf op = 0xE ∨ modOf op = 0xF := by
    have := modOf_le op
    omega
  rw [← circRef_eq_add_iff, ofInt_toInt]
  rcases hmode with h | h | h | h <;> simp [mvkAccess, access, indirect, h, eq_comm]

theorem update_eq_update_iff {n : BitVec 3} {x y : Word} :
    Function.update s.ar n x = Function.update s.ar n y ↔ x = y := by
  constructor
  · intro h
    simpa using congrFun h n
  · rintro rfl
    rfl

theorem mvk_agrees_iff (op : Word) (c : Ctx) (s : Cpu) :
    resolved (mvkAddr op) c s = resolved (resolveSmem op) c s ↔ MvkAgrees c s op := by
  by_cases hmode : bitSet op 7 ∧ 0xC ≤ modOf op
  · obtain ⟨hind, hlk⟩ := hmode
    rw [← resolveSmemBy_one, resolved_mvk_lk hind hlk, resolved_smemBy hind,
      resolved_indirectAccess]
    simp only [MvkAgrees, hind, hlk, true_imp_iff, ← nextArp_eq_narOf_iff,
      ← mvkAccess_eq_iff c s hlk, Resolved.mk.injEq]
    constructor
    · rintro ⟨haddr, har, harp⟩
      rw [currentAr_eq_narOf harp] at haddr har
      rw [update_eq_update_iff] at har
      exact ⟨harp, Prod.ext har haddr⟩
    · rintro ⟨harp, heq⟩
      rw [currentAr_eq_narOf harp, heq]
      exact ⟨rfl, rfl, harp⟩
  · simp only [resolved_mvk hmode, true_iff]
    intro hind hlk
    exact absurd ⟨hind, hlk⟩ hmode

/-- One assignment to AR0 and one to another register leave the same registers exactly when
neither changes anything. -/
theorem update_zero_eq_update_iff {n : BitVec 3} (hn : n ≠ 0) {x y : Word} :
    Function.update s.ar 0 x = Function.update s.ar n y ↔ x = s.ar 0 ∧ y = s.ar n := by
  constructor
  · intro h
    have h0 := congrFun h 0
    have h1 := congrFun h n
    rw [update_self, update_of_ne hn.symm] at h0
    rw [update_self, update_of_ne hn] at h1
    exact ⟨h0, h1.symm⟩
  · rintro ⟨rfl, rfl⟩
    rw [update_eq_self, update_eq_self]

theorem lmem_agrees_iff (op : Word) (c : Ctx) (s : Cpu) :
    resolved (resolveLmem op) c s = resolved (resolveSmemBy 2 op) c s ↔ LmemAgrees c s op := by
  by_cases hind : bitSet op 7
  · rw [resolved_lmem hind, resolved_smemBy hind, resolved_indirectAccess, resolved_indirectAccess]
    simp only [LmemAgrees, hind, true_imp_iff, Resolved.mk.injEq]
    cases hcmpt : bitSet s.st1 St1.cmpt with
    | false => simp [currentAr, nextArp, hcmpt]
    | true =>
      by_cases hnar : narOf op = 0
      · rw [currentAr_of_zero hnar hcmpt, nextArp_of_zero hnar, hnar, if_pos rfl]
        by_cases harp : s.arp = 0
        · simp [harp]
        · simp only [update_zero_eq_update_iff harp, harp, and_true, true_imp_iff, false_or]
      · rw [currentAr_of_ne hnar, nextArp_of_ne hnar hcmpt, if_neg hnar]
        simp
  · have hsame : resolved (resolveLmem op) c s = resolved (resolveSmemBy 2 op) c s := by
      simp only [resolved, resolveLmem, resolveSmemBy, hind]
      rfl
    simp [hsame, LmemAgrees, hind]

/-- MVKD, MVDK and `resolve_lmem` leave the address, the registers and ARP that
`resolve_smem` leaves, with the step of a long operand, exactly under these conditions. -/
theorem resolvers_agree_iff (op : Word) (c : Ctx) (s : Cpu) :
    (resolved (mvkAddr op) c s = resolved (resolveSmem op) c s ↔ MvkAgrees c s op) ∧
      (resolved (resolveLmem op) c s = resolved (resolveSmemBy 2 op) c s ↔ LmemAgrees c s op) :=
  ⟨mvk_agrees_iff op c s, lmem_agrees_iff op c s⟩

/-- MVKD dmad, *(0x0100) with the register field on AR1: outside compatibility mode ARP
moves to AR1, where `resolve_smem` leaves it alone. -/
def mvkdAbsolute : List Word := [0x70F9, 0x0100, 0x0200]

theorem mvkd_moves_arp :
    (resolved (mvkAddr 0x70F9) ((boot mvkdAbsolute).ctx .quiet) (boot mvkdAbsolute).toCpu).arp = 1 ∧
    (resolved (resolveSmem 0x70F9) ((boot mvkdAbsolute).ctx .quiet) (boot mvkdAbsolute).toCpu).arp =
      0 := by
  decide +kernel

end Qosmo.C54x
