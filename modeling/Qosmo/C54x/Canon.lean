import Qosmo.C54x.Transfer

/-!
# Qosmo.C54x.Canon

Accumulators that hold the sign extension of their low 40 bits, and the instructions that
keep them so without storing anything.

Most instructions pass what they compute through `sext40`. The others put 16 or 32 bits into
an accumulator, or combine two extended values bit by bit, or saturate; `Canon` has a rule for
each of these.
-/

namespace Qosmo.C54x

open BitVec

/-! ### Extended values -/

/-- A 40-bit value, sign-extended. -/
def Canon (v : Acc) : Prop := v = sext40 v

instance (v : Acc) : Decidable (Canon v) := inferInstanceAs (Decidable (_ = _))

theorem getLsbD_sext40 (v : Acc) {i : Nat} (hi : i < 64) :
    (sext40 v).getLsbD i = v.getLsbD (min i 39) := by
  rw [sext40, getLsbD_signExtend]
  by_cases hlow : i < 40
  · simp [hlow, hi, Nat.min_eq_left (show i ≤ 39 by omega)]
  · simp [hlow, hi, msb_setWidth, Nat.min_eq_right (show 39 ≤ i by omega)]

variable {v : Acc}

theorem canon_iff : Canon v ↔ ∀ i, 39 ≤ i → i < 64 → v.getLsbD i = v.getLsbD 39 := by
  constructor
  · intro h i hlow hi
    have hbit := getLsbD_sext40 v hi
    rw [← show v = sext40 v from h, Nat.min_eq_right hlow] at hbit
    exact hbit
  · intro h
    apply eq_of_getLsbD_eq
    intro i hi
    rw [getLsbD_sext40 v hi]
    by_cases hlow : i < 39
    · rw [Nat.min_eq_left hlow.le]
    · rw [Nat.min_eq_right (Nat.le_of_not_lt hlow)]
      exact h i (Nat.le_of_not_lt hlow) hi

theorem canon_sext40 (v : Acc) : Canon (sext40 v) := by
  rw [canon_iff]
  intro i hlow hi
  rw [getLsbD_sext40 v hi, getLsbD_sext40 v (by omega), Nat.min_eq_right hlow, Nat.min_self]

theorem canon_zero : Canon 0 := rfl

theorem Canon.of_high {w : Acc} (hv : Canon v)
    (h : ∀ i, 39 ≤ i → i < 64 → w.getLsbD i = v.getLsbD i) : Canon w := by
  rw [canon_iff] at hv ⊢
  intro i hlow hi
  rw [h i hlow hi, h 39 le_rfl (by omega), hv i hlow hi]

theorem canon_setWidth {w : Nat} (hw : w ≤ 39) (v : BitVec w) : Canon (v.setWidth 64) := by
  refine canon_zero.of_high fun i hlow _ => ?_
  rw [getLsbD_setWidth, getLsbD_of_ge v i (by omega), Bool.and_false]
  exact BitVec.getLsbD_zero.symm

variable {x y : Acc}

theorem Canon.and (hx : Canon x) (hy : Canon y) : Canon (x &&& y) := by
  rw [canon_iff] at hx hy ⊢
  intro i hlow hi
  rw [getLsbD_and, getLsbD_and, hx i hlow hi, hy i hlow hi]

theorem Canon.or (hx : Canon x) (hy : Canon y) : Canon (x ||| y) := by
  rw [canon_iff] at hx hy ⊢
  intro i hlow hi
  rw [getLsbD_or, getLsbD_or, hx i hlow hi, hy i hlow hi]

theorem Canon.xor (hx : Canon x) (hy : Canon y) : Canon (x ^^^ y) := by
  rw [canon_iff] at hx hy ⊢
  intro i hlow hi
  rw [getLsbD_xor, getLsbD_xor, hx i hlow hi, hy i hlow hi]

theorem canon_shiftLeft_word (w : Word) : Canon (w.setWidth 64 <<< 16) := by
  refine canon_zero.of_high fun i hlow _ => ?_
  rw [getLsbD_shiftLeft, getLsbD_setWidth, getLsbD_of_ge w _ (by omega)]
  simp

theorem canon_iff_toInt : Canon v ↔ -2 ^ 39 ≤ v.toInt ∧ v.toInt < 2 ^ 39 := by
  rw [Canon, ← toInt_inj, toInt_sext40, toInt_eq_toNat_cond]
  have hlt := v.isLt
  split <;> split <;> omega

theorem canon_sat32 (v : Acc) : Canon (sat32 v) := by
  by_cases hgt : 2 ^ 31 ≤ v.toInt
  · rw [sat32_of_gt hgt]
    rfl
  · by_cases hlt : v.toInt < -2 ^ 31
    · rw [sat32_of_lt hlt]
      rfl
    · have hin : sat32 v = v := ((eq_sat32_iff v).mpr ⟨by omega, by omega⟩).symm
      rw [hin, canon_iff_toInt]
      omega

theorem canon_ite {p : Prop} [Decidable p] (hx : Canon x) (hy : Canon y) :
    Canon (if p then x else y) := by
  split
  · exact hx
  · exact hy

/-! ### The memory-mapped parts -/

theorem Canon.putLow (hx : Canon x) (v : Word) : Canon (putLow x v) := by
  refine hx.of_high fun j hlow hj => ?_
  have hat : 16 + (j - 16) = j := by omega
  rw [putLow_eq, getLsbD_append]
  simp [show ¬j < 16 by omega, show j - 16 < 48 by omega, hat]

theorem Canon.putHigh (hx : Canon x) (v : Word) : Canon (putHigh x v) := by
  refine hx.of_high fun j hlow hj => ?_
  have hat : 32 + (j - 16 - 16) = j := by omega
  rw [putHigh_eq, getLsbD_append, getLsbD_append]
  simp [show ¬j < 16 by omega, show ¬j - 16 < 16 by omega, show j - 16 - 16 < 32 by omega, hat]

/-- The guard bits are stored without their sign, so they stay extended only where it is
zero. -/
theorem canon_putGuard {v : Word} : Canon (putGuard x v) ↔ bitSet v 7 = false := by
  have h39 : (putGuard x v).getLsbD 39 = v.getLsbD 7 := by
    rw [putGuard_eq, getLsbD_append, getLsbD_append]
    simp
  have habove : ∀ i, 40 ≤ i → (putGuard x v).getLsbD i = false := by
    intro i hi
    rw [putGuard_eq, getLsbD_append, getLsbD_append]
    simp [show ¬i < 32 by omega, show ¬i - 32 < 8 by omega]
  rw [canon_iff, h39]
  constructor
  · intro h
    exact (h 40 (by omega) (by omega)).symm.trans (habove 40 le_rfl)
  · intro h i hlow hi
    by_cases heq : i = 39
    · rw [heq, h39]
    · rw [habove i (by omega)]
      exact h.symm

/-! ### Instructions -/

/-- Both accumulators are extended. -/
structure Canonical (s : Cpu) : Prop where
  a : Canon s.a
  b : Canon s.b

theorem Canonical.acc {s : Cpu} (h : Canonical s) (isB : Bool) : Canon (s.acc isB) := by
  cases isB with
  | false => exact h.a
  | true => exact h.b

theorem Canonical.congr {s s' : Cpu} (h : Canonical s) (ha : s'.a = s.a) (hb : s'.b = s.b) :
    Canonical s' := ⟨ha ▸ h.a, hb ▸ h.b⟩

open Prog

theorem keeps_setAcc {isB : Bool} (hv : Canon v) : Keeps Canonical (setAcc isB v) := by
  intro c s hs
  cases isB with
  | false => exact ⟨hv, hs.b⟩
  | true => exact ⟨hs.a, hv⟩

theorem keeps_other {f : Cpu → Cpu} (ha : ∀ s, (f s).a = s.a) (hb : ∀ s, (f s).b = s.b) :
    Keeps Canonical (modify f : Exec PUnit) :=
  keeps_modify fun s hs => hs.congr (ha s) (hb s)

@[simp] theorem keeps_rd (addr : Word) : Keeps Canonical (rd addr) := fun _ _ hs => hs
@[simp] theorem keeps_fetchAt (off : Nat) : Keeps Canonical (fetchAt off) := fun _ _ hs => hs
@[simp] theorem keeps_fetchOp2 : Keeps Canonical fetchOp2 := fun _ _ hs => hs
@[simp] theorem keeps_pcPlus (off : Nat) : Keeps Canonical (pcPlus off) := fun _ _ hs => hs
@[simp] theorem keeps_done (n : Nat) : Keeps Canonical (done n) := fun _ _ hs => hs
@[simp] theorem keeps_putSt0 (n : Nat) (v : Bool) : Keeps Canonical (putSt0 n v) :=
  keeps_other (fun _ => rfl) fun _ => rfl
@[simp] theorem keeps_putSt1 (n : Nat) (v : Bool) : Keeps Canonical (putSt1 n v) :=
  keeps_other (fun _ => rfl) fun _ => rfl
variable (op : Word)

@[simp] theorem keeps_readXY : Keeps Canonical (readXY op) := fun _ _ hs => hs

@[simp] theorem keeps_setT (v : Word) : Keeps Canonical (setT v) :=
  keeps_other (fun _ => rfl) fun _ => rfl
@[simp] theorem keeps_setAsm (v : Word) : Keeps Canonical (setAsm v) :=
  keeps_other (fun _ => rfl) fun _ => rfl
@[simp] theorem keeps_setXpc (v : Word) : Keeps Canonical (setXpc v) :=
  keeps_other (fun _ => rfl) fun _ => rfl
@[simp] theorem keeps_advancePointer (p : Word) : Keeps Canonical (advancePointer p) :=
  keeps_other (fun _ => rfl) fun _ => rfl
@[simp] theorem keeps_pop : Keeps Canonical pop := fun _ _ hs => ⟨hs.a, hs.b⟩

@[simp] theorem keeps_condTrue (cc : Word) : Keeps Canonical (condTrue cc) := by
  intro c s hs
  obtain ⟨st0, heq⟩ := condTrue_eq cc c s
  rw [heq]
  exact ⟨hs.a, hs.b⟩

@[simp] theorem keeps_retCond (cc : Word) : Keeps Canonical (retCond cc) := by
  intro c s hs
  rw [retCond_state]
  exact hs

@[simp] theorem keeps_xcCond (cc : Word) : Keeps Canonical (xcCond cc) := by
  intro c s hs
  rw [xcCond_state]
  split
  · exact ⟨hs.a, hs.b⟩
  · split
    · exact ⟨hs.a, hs.b⟩
    · exact hs

@[simp] theorem keeps_resolveSmem : Keeps Canonical (resolveSmem op) := by
  intro c s hs
  obtain ⟨ar, st0, lk, heq⟩ := resolveSmem_eq op c s
  rw [heq]
  exact ⟨hs.a, hs.b⟩

@[simp] theorem keeps_loadSmem : Keeps Canonical (loadSmem op) :=
  keeps_bind (keeps_resolveSmem op) keeps_rd

@[simp] theorem keeps_resolveLmem : Keeps Canonical (resolveLmem op) :=
  keeps_ite (fun _ _ hs => ⟨hs.a, hs.b⟩) (keeps_get_bind fun _ _ => keeps_pure _)

@[simp] theorem keeps_resolveMmr : Keeps Canonical (resolveMmr op) := by
  unfold resolveMmr
  refine keeps_ite (keeps_pure _) (keeps_get_bind fun s _ => ?_)
  dsimp only
  split <;> exact fun _ _ hs => ⟨hs.a, hs.b⟩

theorem keeps_parPostmod (n : BitVec 3) (mod : Nat) : Keeps Canonical (parPostmod n mod) := by
  apply keeps_modify
  intro s hs
  split
  · exact ⟨hs.a, hs.b⟩
  · exact ⟨hs.a, hs.b⟩
  · exact ⟨hs.a, hs.b⟩
  · exact hs

@[simp] theorem keeps_resolveXmem : Keeps Canonical (resolveXmem op) :=
  keeps_get_bind fun _ _ => keeps_bind (keeps_parPostmod _ _) fun _ => keeps_pure _

@[simp] theorem keeps_resolveYmem : Keeps Canonical (resolveYmem op) :=
  keeps_get_bind fun _ _ => keeps_bind (keeps_parPostmod _ _) fun _ => keeps_pure _

@[simp] theorem keeps_postXY : Keeps Canonical (postXY op) :=
  keeps_bind (keeps_parPostmod _ _) fun _ => keeps_parPostmod _ _

@[simp] theorem keeps_progPointer (base : Word) : Keeps Canonical (progPointer base) := by
  refine keeps_bind keeps_read fun c => keeps_get_bind fun s _ => ?_
  split
  · exact fun _ _ hs => ⟨hs.a, hs.b⟩
  · exact keeps_pure _

@[simp] theorem keeps_progWrite (addr v : Word) :
    Keeps Canonical (modify fun s => progWrite s addr v : Exec PUnit) := by
  apply keeps_modify
  intro s hs
  unfold progWrite
  split
  · exact hs
  · dsimp only
    split <;> split <;> exact ⟨hs.a, hs.b⟩

@[simp] theorem keeps_negAbsOvf (isB : Bool) (r : Acc) : Keeps Canonical (negAbsOvf isB r) := by
  refine keeps_get_bind fun s _ => keeps_bind (keeps_setAcc (canon_sext40 r)) fun _ => ?_
  refine keeps_ite (keeps_bind (keeps_putSt0 _ _) fun _ => ?_) (keeps_pure _)
  exact keeps_ite (keeps_setAcc (canon_sat32 r)) (keeps_pure _)

@[simp] theorem keeps_mvkOperand : Keeps Canonical (mvkOperand op) := by
  unfold mvkOperand
  refine keeps_bind (keeps_other (fun _ => rfl) fun _ => rfl) fun _ => ?_
  refine keeps_ite ?_ (keeps_bind (keeps_fetchAt 1) fun _ => ?_)
  · refine keeps_bind (keeps_fetchAt 1) fun lk => keeps_bind (keeps_fetchAt 2) fun dmad => ?_
    refine keeps_get_bind fun s _ => ?_
    dsimp only
    split <;> exact fun _ _ hs => ⟨hs.a, hs.b⟩
  · exact keeps_bind (keeps_resolveSmem op) fun _ => keeps_pure _

@[simp] theorem keeps_dmadPointer (dmad : Word) : Keeps Canonical (dmadPointer dmad) := by
  refine keeps_bind keeps_read fun c => keeps_ite ?_ (keeps_pure _)
  exact keeps_bind (keeps_progPointer dmad) fun p =>
    keeps_bind (keeps_advancePointer p) fun _ => keeps_pure _

end Qosmo.C54x
