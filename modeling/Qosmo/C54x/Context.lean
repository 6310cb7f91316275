import Qosmo.C54x.Accum
import Qosmo.C54x.Rete

/-!
# Qosmo.C54x.Context

Saving and restoring an accumulator: PSHM AL, PSHM AH, PSHM AG, any code that leaves the
three words alone, and POPM AG, POPM AH, POPM AL; the same for B.

The words on the stack are bits 0..39, and the write to the guard word clears the bits
above them instead of extending the sign: a negative accumulator comes back as a positive
64-bit integer. The overflow pass behind every POPM makes it worse with OVM set, for it
looks at an accumulator that is half the old value and half the new one.
-/

namespace Qosmo.C54x

open BitVec State

/-! ### The two sequences -/

def lowAddr (isB : Bool) : Word := if isB then 0x0B else 0x08
def highAddr (isB : Bool) : Word := if isB then 0x0C else 0x09
def guardAddr (isB : Bool) : Word := if isB then 0x0D else 0x0A

def pshm (mmr : Word) : Word := 0x4A00 ||| mmr
def popm (mmr : Word) : Word := 0x8A00 ||| mmr

/-- PSHM of the low, the high and the guard word. Every instruction has its own context. -/
def saveAcc (c : Nat → Ctx) (isB : Bool) (s : Cpu) : Cpu :=
  let s := runOp (c 0) (pshm (lowAddr isB)) s
  let s := runOp (c 1) (pshm (highAddr isB)) s
  runOp (c 2) (pshm (guardAddr isB)) s

/-- POPM of the guard, the high and the low word. -/
def restoreAcc (c : Nat → Ctx) (isB : Bool) (t : Cpu) : Cpu :=
  let t := runOp (c 0) (popm (guardAddr isB)) t
  let t := runOp (c 1) (popm (highAddr isB)) t
  runOp (c 2) (popm (lowAddr isB)) t

def guardWord (v : Acc) : Word := (v >>> 32).setWidth 16 &&& 0xFF

/-- The code between the save of `s` and the restore of `t` has left the stack alone: SP is
where the save left it, and the three POPMs find the words of the accumulator. -/
structure StackKept (c c' : Nat → Ctx) (isB : Bool) (s t : Cpu) : Prop where
  sp_eq : t.sp = (saveAcc c isB s).sp
  guard : dataRead t t.sp = guardWord (s.acc isB)
  high : dataRead (runOp (c' 0) (popm (guardAddr isB)) t)
    (runOp (c' 0) (popm (guardAddr isB)) t).sp = hi16 (s.acc isB)
  low : dataRead (runOp (c' 1) (popm (highAddr isB)) (runOp (c' 0) (popm (guardAddr isB)) t))
    (runOp (c' 1) (popm (highAddr isB)) (runOp (c' 0) (popm (guardAddr isB)) t)).sp =
      lowWord (s.acc isB)

/-- This value comes back exactly when the restore runs with this ST1, wherever the stack
is and whatever the code between the two sequences does. -/
def RestoresExactly (isB : Bool) (acc : Acc) (st1 : Word) : Prop :=
  ∀ c c' s t, s.acc isB = acc → t.st1 = st1 → StackKept c c' isB s t →
    (restoreAcc c' isB t).acc isB = acc

/-! ### PSHM and POPM -/

theorem dataRead_lkUsed (s : Cpu) (b : Bool) (a : Word) :
    dataRead { s with lkUsed := b } a = dataRead s a := by
  refine (dataRead_eq_iff ⟨rfl, rfl, rfl, rfl⟩ a).mpr fun r _ => ?_
  cases r <;> rfl

variable {op : Word}

theorem execOp_popm (hop : decode op = .plain execPopm) (c : Ctx) (t : Cpu) :
    (execOp op c t).2 =
      dataWrite c { t with lkUsed := false, sp := t.sp + 1 } (op &&& 0x7F) (dataRead t t.sp) := by
  have hrun : (execOp op c t).2 =
      ((decode op).run op c { t with lkUsed := false }).2 := rfl
  rw [hrun, hop, ← dataRead_lkUsed t false]
  rfl

theorem execOp_pshm (hop : decode op = .plain execPshm) (c : Ctx) (s : Cpu) :
    (execOp op c s).2 = pushWord c { s with lkUsed := false } (dataRead s (op &&& 0x7F)) := by
  have hrun : (execOp op c s).2 =
      ((decode op).run op c { s with lkUsed := false }).2 := rfl
  rw [hrun, hop, ← dataRead_lkUsed s false]
  rfl

theorem runOp_popm (hop : decode op = .plain execPopm) {r : Mmr}
    (hr : mmrAt (op &&& 0x7F) = some r) (c : Ctx) (t : Cpu) :
    runOp c op t = overflowPass t
      (writeMmr c { t with lkUsed := false, sp := t.sp + 1 } (dataRead t t.sp) r) := by
  have hlt : op &&& 0x7F < 0x20 := by
    rw [addr_of_mmrAt hr]
    exact addr_lt r
  rw [runOp, execOp_popm hop, dataWrite_of_lt hlt, hr, Option.elim_some]

/-- What POPM of one part of an accumulator does, when `put` writes that part. -/
structure PopsPart (isB : Bool) (put : Acc → Word → Acc) (t t' : Cpu) : Prop where
  acc : t'.acc isB = settle t.st1 (t.acc isB) (put (t.acc isB) (dataRead t t.sp))
  st1 : t'.st1 = t.st1
  sp : t'.sp = t.sp + 1
  memory : ∀ a, isCell a = true → dataRead t' a = dataRead t a

variable {isB : Bool}

theorem popm_part (hop : decode op = .plain execPopm) {r : Mmr}
    (hr : mmrAt (op &&& 0x7F) = some r) {put : Acc → Word → Acc}
    (hput : ∀ (c : Ctx) (u : Cpu) (v : Word), writeMmr c u v r =
      if isB then { u with b := put u.b v } else { u with a := put u.a v })
    (c : Ctx) (t : Cpu) : PopsPart isB put t (runOp c op t) := by
  rw [runOp_popm hop hr, hput]
  obtain ⟨a, b, st0, hover⟩ := overflowPass_eq t (if isB then
    { t with lkUsed := false, sp := t.sp + 1, b := put t.b (dataRead t t.sp) } else
    { t with lkUsed := false, sp := t.sp + 1, a := put t.a (dataRead t t.sp) })
  refine ⟨?_, ?_, ?_, fun addr haddr => ?_⟩
  · rw [acc_overflowPass]
    cases isB <;> rfl
  · rw [hover]
    cases isB <;> rfl
  · rw [hover]
    cases isB <;> rfl
  · rw [hover, dataRead_cell haddr, dataRead_cell haddr]
    cases isB <;> rfl

theorem popm_parts (isB : Bool) (c : Ctx) (t : Cpu) :
    PopsPart isB putGuard t (runOp c (popm (guardAddr isB)) t) ∧
      PopsPart isB putHigh t (runOp c (popm (highAddr isB)) t) ∧
      PopsPart isB putLow t (runOp c (popm (lowAddr isB)) t) := by
  cases isB
  · exact ⟨popm_part (r := .ag) rfl rfl (fun _ _ _ => rfl) c t,
      popm_part (r := .ah) rfl rfl (fun _ _ _ => rfl) c t,
      popm_part (r := .al) rfl rfl (fun _ _ _ => rfl) c t⟩
  · exact ⟨popm_part (r := .bg) rfl rfl (fun _ _ _ => rfl) c t,
      popm_part (r := .bh) rfl rfl (fun _ _ _ => rfl) c t,
      popm_part (r := .bl) rfl rfl (fun _ _ _ => rfl) c t⟩

/-- The accumulator a restore leaves, from what was in it and the words of `acc`. -/
def restored (st1 : Word) (x acc : Acc) : Acc :=
  let v := settle st1 x (putGuard x (guardWord acc))
  let v := settle st1 v (putHigh v (hi16 acc))
  settle st1 v (putLow v (lowWord acc))

variable {s : Cpu}

theorem acc_restoreAcc {c c' : Nat → Ctx} {t : Cpu} (h : StackKept c c' isB s t) :
    (restoreAcc c' isB t).acc isB = restored t.st1 (t.acc isB) (s.acc isB) := by
  have hguard := (popm_parts isB (c' 0) t).1
  have hhigh := (popm_parts isB (c' 1) (runOp (c' 0) (popm (guardAddr isB)) t)).2.1
  have hacc := hguard.acc
  have hacc' := hhigh.acc
  rw [h.guard] at hacc
  rw [h.high, hguard.st1, hacc] at hacc'
  rw [restoreAcc, (popm_parts isB _ _).2.2.acc, h.low, hhigh.st1, hguard.st1, hacc']
  rfl

/-! ### A stack in memory -/

theorem pushWord_eq (hcell : isCell (s.sp - 1)) (c : Ctx) (v : Word) :
    ∃ data ram psc served, pushWord c s v = { s with
      sp := s.sp - 1, data := data, apiRam := ram, timerPsc := psc, apmServed := served } :=
  dataWrite_of_ge (isCell_iff.mp hcell).1

theorem runOp_pshm (hop : decode op = .plain execPshm)
    (hcell : isCell (s.sp - 1)) (c : Ctx) :
    runOp c op s = pushWord c { s with lkUsed := false } (dataRead s (op &&& 0x7F)) := by
  obtain ⟨data, ram, psc, served, hpush⟩ :=
    pushWord_eq (s := { s with lkUsed := false }) hcell c (dataRead s (op &&& 0x7F))
  rw [runOp, execOp_pshm hop, hpush]
  exact overflowPass_of_eq rfl rfl

/-- What PSHM of `v` does on a stack in memory. -/
structure Pushes (v : Word) (s s' : Cpu) : Prop where
  sp : s'.sp = s.sp - 1
  a : s'.a = s.a
  b : s'.b = s.b
  top : dataRead s' (s.sp - 1) = v
  memory : ∀ a, isCell a = true → a ≠ s.sp - 1 → dataRead s' a = dataRead s a

theorem pshm_pushes {op : Word} (hop : decode op = .plain execPshm) {s : Cpu}
    (hcell : isCell (s.sp - 1)) (c : Ctx) :
    Pushes (dataRead s (op &&& 0x7F)) s (runOp c op s) := by
  rw [runOp_pshm hop hcell]
  obtain ⟨hsp, -, htop, hmem⟩ := pushWord_cell (c := c) (u := { s with lkUsed := false })
    (v := dataRead s (op &&& 0x7F)) hcell
  obtain ⟨data, ram, psc, served, hpush⟩ :=
    pushWord_eq (s := { s with lkUsed := false }) hcell c (dataRead s (op &&& 0x7F))
  refine ⟨hsp, ?_, ?_, htop, fun a ha hne => ?_⟩
  · rw [hpush]
  · rw [hpush]
  · rw [hmem a ha hne, dataRead_lkUsed]

theorem pshm_parts (hcell : isCell (s.sp - 1)) (isB : Bool) (c : Ctx) :
    Pushes (lowWord (s.acc isB)) s (runOp c (pshm (lowAddr isB)) s) ∧
      Pushes (hi16 (s.acc isB)) s (runOp c (pshm (highAddr isB)) s) ∧
      Pushes (guardWord (s.acc isB)) s (runOp c (pshm (guardAddr isB)) s) := by
  have hpush : ∀ a, decode (pshm a) = .plain execPshm →
      Pushes (dataRead s (pshm a &&& 0x7F)) s (runOp c (pshm a) s) :=
    fun a ha => pshm_pushes ha hcell c
  cases isB
  · exact ⟨hpush (lowAddr false) rfl, hpush (highAddr false) rfl, hpush (guardAddr false) rfl⟩
  · exact ⟨hpush (lowAddr true) rfl, hpush (highAddr true) rfl, hpush (guardAddr true) rfl⟩

theorem Pushes.acc {v : Word} {s' : Cpu} (h : Pushes v s s') (isB : Bool) :
    s'.acc isB = s.acc isB := by
  cases isB
  · exact h.a
  · exact h.b

/-- The three words below SP are ordinary data memory. -/
def StackInMemory (s : Cpu) : Prop :=
  isCell (s.sp - 1) = true ∧ isCell (s.sp - 1 - 1) = true ∧ isCell (s.sp - 1 - 1 - 1) = true

theorem saveAcc_words (hstack : StackInMemory s) (isB : Bool) (c : Nat → Ctx) :
    (saveAcc c isB s).sp = s.sp - 1 - 1 - 1 ∧
    dataRead (saveAcc c isB s) (s.sp - 1) = lowWord (s.acc isB) ∧
    dataRead (saveAcc c isB s) (s.sp - 1 - 1) = hi16 (s.acc isB) ∧
    dataRead (saveAcc c isB s) (s.sp - 1 - 1 - 1) = guardWord (s.acc isB) := by
  obtain ⟨hcell, hcell', hcell''⟩ := hstack
  have hlow := (pshm_parts hcell isB (c 0)).1
  generalize hs₁ : runOp (c 0) (pshm (lowAddr isB)) s = s₁ at hlow
  rw [← hlow.sp] at hcell' hcell''
  have hhigh := (pshm_parts hcell' isB (c 1)).2.1
  generalize hs₂ : runOp (c 1) (pshm (highAddr isB)) s₁ = s₂ at hhigh
  rw [← hhigh.sp] at hcell''
  have hguard := (pshm_parts hcell'' isB (c 2)).2.2
  have hsave : saveAcc c isB s = runOp (c 2) (pshm (guardAddr isB)) s₂ := by
    rw [saveAcc, hs₁, hs₂]
  rw [← hsave] at hguard
  have hsp₁ := hlow.sp
  have hsp₂ := hhigh.sp
  rw [hsp₁] at hsp₂ hcell'
  refine ⟨?_, ?_, ?_, ?_⟩
  · rw [hguard.sp, hsp₂]
  · rw [hguard.memory _ hcell (by bv_omega), hhigh.memory _ hcell (by bv_omega), hlow.top]
  · rw [hguard.memory _ hcell' (by bv_omega), ← hsp₁, hhigh.top, hlow.acc]
  · rw [← hsp₂, hguard.top, hhigh.acc, hlow.acc]

/-- Code that leaves SP and the three words of a stack in memory as the save left them. -/
theorem StackKept.of_memory {c c' : Nat → Ctx} {t : Cpu}
    (hstack : StackInMemory s) (hsp : t.sp = (saveAcc c isB s).sp)
    (hwords : ∀ a, a = s.sp - 1 ∨ a = s.sp - 1 - 1 ∨ a = s.sp - 1 - 1 - 1 →
      dataRead t a = dataRead (saveAcc c isB s) a) : StackKept c c' isB s t := by
  obtain ⟨hsave, hlow, hhigh, hguard⟩ := saveAcc_words hstack isB c
  obtain ⟨hcell, hcell', -⟩ := hstack
  have hsp' := hsp.trans hsave
  have hpop := (popm_parts isB (c' 0) t).1
  have hpop' := (popm_parts isB (c' 1) (runOp (c' 0) (popm (guardAddr isB)) t)).2.1
  have h₁ : t.sp + 1 = s.sp - 1 - 1 := by
    rw [hsp']
    bv_omega
  have h₂ : t.sp + 1 + 1 = s.sp - 1 := by
    rw [h₁]
    bv_omega
  refine ⟨hsp, ?_, ?_, ?_⟩
  · rw [hsp', hwords _ (.inr (.inr rfl)), hguard]
  · rw [hpop.sp, h₁, hpop.memory _ hcell', hwords _ (.inr (.inl rfl)), hhigh]
  · rw [hpop'.sp, hpop.sp, h₂, hpop'.memory _ hcell, hpop.memory _ hcell,
      hwords _ (.inl rfl), hlow]

/-! ### What comes back -/

theorem toNat_guardWord (v : Acc) : (guardWord v).toNat = v.toNat / 2 ^ 32 % 2 ^ 8 := by
  have hmask : (0xFF : Word).toNat = 2 ^ 8 - 1 := rfl
  rw [guardWord, toNat_and, hmask, Nat.and_two_pow_sub_one_eq_mod, toNat_setWidth,
    toNat_ushiftRight, Nat.shiftRight_eq_div_pow]
  omega

theorem toNat_hi16 (v : Acc) : (hi16 v).toNat = v.toNat / 2 ^ 16 % 2 ^ 16 := by
  rw [hi16, toNat_setWidth, toNat_ushiftRight, Nat.shiftRight_eq_div_pow]

theorem toNat_lowWord (v : Acc) : (lowWord v).toNat = v.toNat % 2 ^ 16 := toNat_setWidth ..

theorem toNat_assembled (x acc : Acc) :
    (putLow (putHigh (putGuard x (guardWord acc)) (hi16 acc)) (lowWord acc)).toNat =
      acc.toNat % 2 ^ 40 := by
  rw [toNat_putLow, toNat_putHigh, toNat_putGuard, toNat_guardWord, toNat_hi16, toNat_lowWord]
  omega

def Saturating (st1 : Word) : Prop := bitSet st1 St1.ovm = true ∧ bitSet st1 St1.c16 = false

instance (st1 : Word) : Decidable (Saturating st1) := inferInstanceAs (Decidable (_ ∧ _))

variable {st1 : Word}

theorem settle_of_not_saturating (h : ¬Saturating st1) (before v : Acc) : settle st1 before v = v :=
  if_neg fun hs => h ⟨hs.1, hs.2.1⟩

theorem settle_self (st1 : Word) (v : Acc) : settle st1 v v = v :=
  if_neg fun hs => hs.2.2.1 rfl

variable {v : Acc}

theorem settle_of_small (h : v.toNat < 2 ^ 31) (st1 : Word) (before : Acc) :
    settle st1 before v = v := by
  have hin : sext40 v = sat32 (sext40 v) := by
    rw [eq_sat32_iff, toInt_sext40]
    split <;> omega
  exact if_neg fun hs => hs.2.2.2 hin

/-- A change to a value above the range ends at the largest 32-bit value. -/
theorem settle_of_above (hsat : Saturating st1) {before : Acc} (hne : v ≠ before)
    (habove : 2 ^ 31 ≤ (sext40 v).toInt) : settle st1 before v = 0x7FFFFFFF#64 := by
  have hout : sext40 v ≠ sat32 (sext40 v) := by
    rw [Ne, eq_sat32_iff]
    omega
  exact (if_pos ⟨hsat.1, hsat.2, hne, hout⟩).trans (sat32_of_gt habove)

/-- A change to a value below the range ends at the smallest 32-bit value, sign extended. -/
theorem settle_of_below (hsat : Saturating st1) {before : Acc} (hne : v ≠ before)
    (hbelow : (sext40 v).toInt < -2 ^ 31) : settle st1 before v = 0xFFFFFFFF80000000#64 := by
  have hout : sext40 v ≠ sat32 (sext40 v) := by
    rw [Ne, eq_sat32_iff]
    omega
  exact (if_pos ⟨hsat.1, hsat.2, hne, hout⟩).trans (sat32_of_lt hbelow)

theorem settle_lt (h : v.toNat < 2 ^ 32) (st1 : Word) (before : Acc) :
    (settle st1 before v).toNat < 2 ^ 32 := by
  unfold settle
  split
  · rename_i hs
    have hgt : 2 ^ 31 ≤ (sext40 v).toInt := by
      have hout := hs.2.2.2
      rw [Ne, eq_sat32_iff] at hout
      rw [toInt_sext40] at hout ⊢
      split at hout <;> omega
    rw [sat32_of_gt hgt]
    decide
  · exact h

theorem settle_ge (h : 2 ^ 64 - 2 ^ 32 ≤ v.toNat) (st1 : Word) (before : Acc) :
    2 ^ 64 - 2 ^ 32 ≤ (settle st1 before v).toNat := by
  have hv := v.isLt
  unfold settle
  split
  · rename_i hs
    have hlt : (sext40 v).toInt < -2 ^ 31 := by
      have hout := hs.2.2.2
      rw [Ne, eq_sat32_iff] at hout
      rw [toInt_sext40] at hout ⊢
      split at hout <;> omega
    rw [sat32_of_lt hlt]
    decide
  · exact h

theorem toNat_restored (h : ¬Saturating st1) (x acc : Acc) :
    (restored st1 x acc).toNat = acc.toNat % 2 ^ 40 := by
  simp only [restored, settle_of_not_saturating h]
  exact toNat_assembled x acc

variable {acc : Acc}

/-- A value of 31 bits comes back in every mode: the guard word is zero, so that whatever
the first POPM leaves fits in 32 bits, and the second makes it positive. -/
theorem restored_of_small (h : acc.toNat < 2 ^ 31) (st1 : Word) (x : Acc) :
    restored st1 x acc = acc := by
  have hfirst : (settle st1 x (putGuard x (guardWord acc))).toNat < 2 ^ 32 := by
    apply settle_lt
    rw [toNat_putGuard, toNat_guardWord]
    omega
  unfold restored
  dsimp only
  generalize settle st1 x (putGuard x (guardWord acc)) = v at hfirst ⊢
  have hhigh : (putHigh v (hi16 acc)).toNat < 2 ^ 31 := by
    rw [toNat_putHigh, toNat_hi16]
    omega
  have hlow : (putLow (putHigh v (hi16 acc)) (lowWord acc)).toNat = acc.toNat := by
    rw [toNat_putLow, toNat_putHigh, toNat_hi16, toNat_lowWord]
    omega
  rw [settle_of_small hhigh, settle_of_small (hlow.trans_lt h)]
  exact eq_of_toNat_eq hlow

/-- The later POPMs keep what is above bit 31: nothing, or all ones. -/
theorem restored_lt {st1 : Word} {x acc : Acc}
    (h : (settle st1 x (putGuard x (guardWord acc))).toNat < 2 ^ 32) :
    (restored st1 x acc).toNat < 2 ^ 32 := by
  unfold restored
  dsimp only
  generalize settle st1 x (putGuard x (guardWord acc)) = v at h ⊢
  have hhigh : (settle st1 v (putHigh v (hi16 acc))).toNat < 2 ^ 32 := by
    apply settle_lt
    have hword := (hi16 acc).isLt
    rw [toNat_putHigh]
    omega
  apply settle_lt
  have hword := (lowWord acc).isLt
  rw [toNat_putLow]
  omega

theorem restored_ge {st1 : Word} {x acc : Acc}
    (h : 2 ^ 64 - 2 ^ 32 ≤ (settle st1 x (putGuard x (guardWord acc))).toNat) :
    2 ^ 64 - 2 ^ 32 ≤ (restored st1 x acc).toNat := by
  unfold restored
  dsimp only
  generalize settle st1 x (putGuard x (guardWord acc)) = v at h ⊢
  have hhigh : 2 ^ 64 - 2 ^ 32 ≤ (settle st1 v (putHigh v (hi16 acc))).toNat := by
    apply settle_ge
    rw [toNat_putHigh]
    omega
  apply settle_ge
  rw [toNat_putLow]
  omega

/-- Any other value of 40 bits is lost when the pass saturates and the accumulator was
cleared in between. -/
theorem restored_zero_ne (hsat : Saturating st1)
    (hge : 2 ^ 31 ≤ acc.toNat) (hlt : acc.toNat < 2 ^ 40) : restored st1 0 acc ≠ acc := by
  have hput : (putGuard 0 (guardWord acc)).toNat = acc.toNat / 2 ^ 32 * 2 ^ 32 := by
    rw [toNat_putGuard, toNat_guardWord]
    have hzero : (0 : Acc).toNat = 0 := rfl
    omega
  by_cases hguard : acc.toNat < 2 ^ 32
  · -- the guard word is zero, and the second POPM saturates to 0x7FFFFFFF
    have hfirst : settle st1 0 (putGuard 0 (guardWord acc)) = 0 := by
      rw [settle_of_small (by omega)]
      apply eq_of_toNat_eq
      rw [hput, Nat.div_eq_of_lt hguard]
      rfl
    have hhigh : (putHigh 0 (hi16 acc)).toNat = acc.toNat / 2 ^ 16 * 2 ^ 16 := by
      rw [toNat_putHigh, toNat_hi16]
      have hzero : (0 : Acc).toNat = 0 := rfl
      omega
    have hsecond : settle st1 0 (putHigh 0 (hi16 acc)) = 0x7FFFFFFF#64 := by
      apply settle_of_above hsat
      · intro heq
        have hzero : (putHigh 0 (hi16 acc)).toNat = 0 := congrArg BitVec.toNat heq
        omega
      · rw [toInt_sext40, hhigh]
        split <;> omega
    have hlow : (putLow 0x7FFFFFFF#64 (lowWord acc)).toNat < 2 ^ 31 := by
      have hlo := (lowWord acc).isLt
      rw [toNat_putLow]
      have hmax : (0x7FFFFFFF#64).toNat = 2 ^ 31 - 1 := rfl
      omega
    simp only [restored, hfirst, hsecond]
    rw [settle_of_small hlow]
    intro heq
    rw [heq] at hlow
    omega
  · have hne : putGuard 0 (guardWord acc) ≠ 0 := by
      intro heq
      have hzero : (putGuard 0 (guardWord acc)).toNat = 0 := congrArg BitVec.toNat heq
      omega
    by_cases hpos : acc.toNat < 2 ^ 39
    · -- the first POPM saturates, and the guard word is gone
      have hfirst : settle st1 0 (putGuard 0 (guardWord acc)) = 0x7FFFFFFF#64 := by
        apply settle_of_above hsat hne
        rw [toInt_sext40, hput]
        split <;> omega
      have hrest := @restored_lt st1 0 acc (by rw [hfirst]; decide)
      intro heq
      rw [heq] at hrest
      exact hguard hrest
    · -- the first POPM saturates to a sign-extended value
      have hfirst : settle st1 0 (putGuard 0 (guardWord acc)) = 0xFFFFFFFF80000000#64 := by
        apply settle_of_below hsat hne
        rw [toInt_sext40, hput]
        split <;> omega
      have hrest := @restored_ge st1 0 acc (by rw [hfirst]; decide)
      intro heq
      rw [heq] at hrest
      omega

/-- Bits above 39 are lost in every mode, also when the accumulator was left alone. -/
theorem restored_low40_ne (st1 : Word) (hge : 2 ^ 40 ≤ acc.toNat) :
    restored st1 (BitVec.ofNat 64 (acc.toNat % 2 ^ 40)) acc ≠ acc := by
  obtain ⟨x, hx⟩ : ∃ x : Acc, BitVec.ofNat 64 (acc.toNat % 2 ^ 40) = x := ⟨_, rfl⟩
  have hxn : x.toNat = acc.toNat % 2 ^ 40 := by
    rw [← hx, toNat_ofNat]
    omega
  have hguard : putGuard x (guardWord acc) = x := by
    apply eq_of_toNat_eq
    rw [toNat_putGuard, toNat_guardWord]
    omega
  have hhigh : putHigh x (hi16 acc) = x := by
    apply eq_of_toNat_eq
    rw [toNat_putHigh, toNat_hi16]
    omega
  have hlow : putLow x (lowWord acc) = x := by
    apply eq_of_toNat_eq
    rw [toNat_putLow, toNat_lowWord]
    omega
  rw [hx]
  simp only [restored, hguard, hhigh, hlow, settle_self]
  rintro rfl
  omega

/-- A save and a restore with a stack in memory and any accumulator in between. -/
theorem exists_stackKept (isB : Bool) (acc x : Acc) (st1 : Word) :
    ∃ c c' s t, s.acc isB = acc ∧ t.st1 = st1 ∧ StackKept c c' isB s t ∧ t.acc isB = x := by
  obtain ⟨s, hs⟩ : ∃ s : Cpu, { (boot []).toCpu with a := acc, b := acc, sp := 0x1000 } = s :=
    ⟨_, rfl⟩
  obtain ⟨c⟩ : Nonempty (Nat → Ctx) := ⟨fun _ => (boot []).ctx .quiet⟩
  have hsp : s.sp = 0x1000 := by rw [← hs]
  have hstack : StackInMemory s := by
    unfold StackInMemory
    rw [hsp]
    decide
  refine ⟨c, c, s, { saveAcc c isB s with a := x, b := x, st1 := st1 }, ?_, rfl, ?_, ?_⟩
  · rw [← hs]
    cases isB <;> rfl
  · refine StackKept.of_memory hstack ?_ fun a ha => ?_
    · rfl
    have hcell : isCell a := by
      rcases ha with rfl | rfl | rfl
      · exact hstack.1
      · exact hstack.2.1
      · exact hstack.2.2
    rw [dataRead_cell hcell, dataRead_cell hcell]
  · cases isB <;> rfl

/-- The values that survive: those of 40 bits as unsigned numbers, and of 31 bits when the
overflow pass saturates. -/
def Restorable (acc : Acc) (st1 : Word) : Prop :=
  if Saturating st1 then acc.toNat < 2 ^ 31 else acc.toNat < 2 ^ 40

/-- CMPL A, which leaves -1 in A; then the save and the restore. -/
def saveProgram : List Word := [0xF493, 0x4A08, 0x4A09, 0x4A0A, 0x8A0A, 0x8A09, 0x8A08]

end Qosmo.C54x
