import Qosmo.C54x.Irq

/-!
# Qosmo.C54x.Frame

What an interrupt frame does to the machine it is pushed on.

A frame is one or two stores (`frameWords`), and a store is not always a store in
memory: below 0x20 it changes a register, and a few addresses above do not keep what
is written to them. The first half of this module says what a store leaves in the
registers that matter to an interrupt entry; the second half says what it leaves in
ordinary data memory (`isCell`), where the frame can be read back.
-/

namespace Qosmo.C54x

open BitVec State

variable {c : Ctx} {s : Cpu} {a v ret : Word} {always : Bool}

/-! ### Stores and registers -/

def Mmr.addr : Mmr → Word
  | .imr => 0x00
  | .ifr => 0x01
  | .st0 => 0x06
  | .st1 => 0x07
  | .al => 0x08
  | .ah => 0x09
  | .ag => 0x0A
  | .bl => 0x0B
  | .bh => 0x0C
  | .bg => 0x0D
  | .t => 0x0E
  | .trn => 0x0F
  | .ar n => 0x10 + n.setWidth 16
  | .sp => 0x18
  | .bk => 0x19
  | .brc => 0x1A
  | .rsa => 0x1B
  | .rea => 0x1C
  | .pmst => 0x1D
  | .xpc => 0x1E

theorem addr_of_mmrAt {r : Mmr} (h : mmrAt a = some r) : a = r.addr := by
  unfold mmrAt at h
  apply eq_of_toNat_eq
  split at h <;> cases h <;> assumption

theorem mmrAt_addr (r : Mmr) : mmrAt r.addr = some r := by
  cases r with
  | ar n =>
    revert n
    decide
  | _ => rfl

/-- Below 0x20 a store goes to the register of that address, if there is one. -/
theorem dataWrite_of_lt (h : a < 0x20) : dataWrite c s a v = (mmrAt a).elim s (writeMmr c s v) := by
  have hapm : isApm a = false := by
    simp only [isApm, Bool.or_eq_false_iff, Bool.and_eq_false_iff, decide_eq_false_iff_not]
    bv_omega
  have hdpm : isDpm a = false := by
    simp only [isDpm, Bool.or_eq_false_iff, beq_eq_false_iff_ne]
    bv_omega
  have hrom : romDrop a = false := by
    simp only [romDrop, Bool.and_eq_false_iff, decide_eq_false_iff_not]
    bv_omega
  have htcr : a ≠ tcrAddr := by
    simp only [tcrAddr]
    bv_omega
  simp only [dataWrite, dataWriteLocked, hapm, hdpm, hrom, htcr, h, if_true, Bool.false_eq_true,
    if_false]
  cases mmrAt a <;> rfl

/-- The part of the core that a store from 0x20 on sees. -/
structure SameMemory (s t : Cpu) : Prop where
  data : t.data = s.data
  apiRam : t.apiRam = s.apiRam
  timerPsc : t.timerPsc = s.timerPsc
  apmServed : t.apmServed = s.apmServed

theorem dataWriteLocked_of_same {t : Cpu} (h : 0x20 ≤ a) (hmem : SameMemory s t) (v : Word) :
    dataWriteLocked c t a v =
      { t with
        data := (dataWriteLocked c s a v).data
        apiRam := (dataWriteLocked c s a v).apiRam
        timerPsc := (dataWriteLocked c s a v).timerPsc
        apmServed := (dataWriteLocked c s a v).apmServed } := by
  have hlt : ¬ a < 0x20 := by bv_omega
  unfold dataWriteLocked
  split
  · rw [← hmem.data, ← hmem.apiRam, ← hmem.timerPsc, ← hmem.apmServed]
  · split
    · dsimp only
      split
      · simp only [setData, hmem.data, hmem.apiRam, hmem.apmServed]
      · simp only [setData, hmem.data, hmem.apiRam, hmem.timerPsc, hmem.apmServed]
    · split
      · simp only [setApi, setData, hmem.data, hmem.apiRam, hmem.timerPsc, hmem.apmServed]
      · simp only [setData, hmem.data, hmem.apiRam, hmem.timerPsc, hmem.apmServed]

/-- From 0x20 on a store leaves the registers alone, and does the same whatever is in them. -/
theorem dataWrite_of_same {t : Cpu} (h : 0x20 ≤ a) (hmem : SameMemory s t) :
    dataWrite c t a v =
      { t with
        data := (dataWrite c s a v).data
        apiRam := (dataWrite c s a v).apiRam
        timerPsc := (dataWrite c s a v).timerPsc
        apmServed := (dataWrite c s a v).apmServed } := by
  unfold dataWrite
  split
  · rw [hmem.apmServed]
    exact dataWriteLocked_of_same (s := { s with apmServed := s.apmServed + 1 })
      (t := { t with apmServed := s.apmServed + 1 }) h
      ⟨hmem.data, hmem.apiRam, hmem.timerPsc, rfl⟩ _
  · split
    · exact dataWriteLocked_of_same h hmem _
    · exact dataWriteLocked_of_same h hmem v

theorem dataWrite_of_ge (h : 0x20 ≤ a) :
    ∃ data ram psc served, dataWrite c s a v =
      { s with data := data, apiRam := ram, timerPsc := psc, apmServed := served } :=
  ⟨_, _, _, _, dataWrite_of_same h ⟨rfl, rfl, rfl, rfl⟩⟩

theorem addr_lt (r : Mmr) : r.addr < 0x20 := by
  cases r with
  | ar n =>
    revert n
    decide
  | _ => decide

theorem dataRead_addr (s : Cpu) (r : Mmr) : dataRead s r.addr = readMmr s r := by
  have htcr : r.addr ≠ tcrAddr := fun h => absurd (h ▸ addr_lt r) (by decide)
  rw [dataRead, if_neg htcr, if_pos (addr_lt r), mmrAt_addr]

/-- A read of memory sees a register at the address of that register only. -/
theorem dataRead_eq_iff {t : Cpu} (hmem : SameMemory s t) (a : Word) :
    dataRead t a = dataRead s a ↔ ∀ r : Mmr, a = r.addr → readMmr t r = readMmr s r := by
  by_cases hreg : ∃ r : Mmr, a = r.addr
  · obtain ⟨r, rfl⟩ := hreg
    rw [dataRead_addr, dataRead_addr]
    refine ⟨fun h q hq => ?_, fun h => h r rfl⟩
    have hsame : some r = some q := by rw [← mmrAt_addr r, ← mmrAt_addr q, hq]
    cases hsame
    exact h
  · refine ⟨fun _ r hr => absurd ⟨r, hr⟩ hreg, fun _ => ?_⟩
    have hnone : mmrAt a = none := by
      cases hr : mmrAt a with
      | none => rfl
      | some r => exact absurd ⟨r, addr_of_mmrAt hr⟩ hreg
    simp only [dataRead, hnone, hmem.data, hmem.apiRam, hmem.timerPsc]

/-- A part `f` of the core that only stores to the register `r` can change. -/
theorem dataWrite_reg {β : Type} (f : Cpu → β) (r : Mmr) (hmem : ∀ data ram psc served,
      f { s with data := data, apiRam := ram, timerPsc := psc, apmServed := served } = f s)
    (hreg : ∀ q, q ≠ r → f (writeMmr c s v q) = f s) :
    f (dataWrite c s a v) = if a = r.addr then f (writeMmr c s v r) else f s := by
  by_cases hlt : a < 0x20
  · rw [dataWrite_of_lt hlt]
    by_cases ha : a = r.addr
    · rw [if_pos ha, ha, mmrAt_addr, Option.elim_some]
    · rw [if_neg ha]
      cases hm : mmrAt a with
      | none => rfl
      | some q =>
        apply hreg q
        rintro rfl
        exact ha (addr_of_mmrAt hm)
  · obtain ⟨data, ram, psc, served, heq⟩ := dataWrite_of_ge (c := c) (s := s) (v := v)
      (BitVec.not_lt.mp hlt)
    have hne : a ≠ r.addr := by
      rintro rfl
      exact hlt (addr_lt r)
    rw [heq, if_neg hne, hmem]

theorem brc_dataWrite : (dataWrite c s a v).brc = if a = 0x1A then v else s.brc :=
  dataWrite_reg Cpu.brc .brc (fun _ _ _ _ => rfl) fun q hq => by
    cases q <;> first | rfl | exact absurd rfl hq | (simp only [writeMmr]; split <;> rfl)

theorem rsa_dataWrite : (dataWrite c s a v).rsa = if a = 0x1B then v else s.rsa :=
  dataWrite_reg Cpu.rsa .rsa (fun _ _ _ _ => rfl) fun q hq => by
    cases q <;> first | rfl | exact absurd rfl hq | (simp only [writeMmr]; split <;> rfl)

theorem rea_dataWrite : (dataWrite c s a v).rea = if a = 0x1C then v else s.rea :=
  dataWrite_reg Cpu.rea .rea (fun _ _ _ _ => rfl) fun q hq => by
    cases q <;> first | rfl | exact absurd rfl hq | (simp only [writeMmr]; split <;> rfl)

theorem pmst_dataWrite : (dataWrite c s a v).pmst = if a = 0x1D then v else s.pmst :=
  dataWrite_reg Cpu.pmst .pmst (fun _ _ _ _ => rfl) fun q hq => by
    cases q <;> first | rfl | exact absurd rfl hq | (simp only [writeMmr]; split <;> rfl)

theorem ifr_dataWrite : (dataWrite c s a v).ifr = if a = 0x01 then s.ifr &&& ~~~ v else s.ifr :=
  dataWrite_reg Cpu.ifr .ifr (fun _ _ _ _ => rfl) fun q hq => by
    cases q <;> first | rfl | exact absurd rfl hq | (simp only [writeMmr]; split <;> rfl)

theorem xpc_dataWrite : (dataWrite c s a v).xpc = if a = 0x1E then v &&& 3 else s.xpc :=
  dataWrite_reg Cpu.xpc .xpc (fun _ _ _ _ => rfl) fun q hq => by
    cases q <;> first | rfl | exact absurd rfl hq | (simp only [writeMmr]; split <;> rfl)

theorem sp_dataWrite :
    (dataWrite c s a v).sp = if a = 0x18 ∧ gardeSp c s v = false then v else s.sp := by
  have h := dataWrite_reg (c := c) (s := s) (a := a) (v := v) Cpu.sp .sp (fun _ _ _ _ => rfl)
    fun q hq => by
      cases q <;> first | rfl | exact absurd rfl hq | (simp only [writeMmr]; split <;> rfl)
  rw [h]
  cases hg : gardeSp c s v <;> simp [writeMmr, Mmr.addr, hg]

/-! ### The words of a frame -/

/-- The stores a frame makes, in order: address and word. The first one can still
move SP, or change the XPC the second one saves. -/
def frameWords (c : Ctx) (s : Cpu) (ret : Word) (always : Bool) : List (Word × Word) :=
  let top := s.sp - 1
  let sp := if top = 0x18 ∧ gardeSp c s ret = false then ret else top
  let xpc := if top = 0x1E then ret &&& 3 else s.xpc
  (top, ret) :: if always || xpc != 0 then [(sp - 1, xpc)] else []

theorem pushFrame_eq (c : Ctx) (s : Cpu) (ret : Word) (always : Bool) :
    pushFrame c s ret always = (frameWords c s ret always).foldl
      (fun s w => dataWrite c { s with sp := w.1 } w.1 w.2) s := by
  have hsp : (pushWord c s ret).sp =
      if s.sp - 1 = 0x18 ∧ gardeSp c s ret = false then ret else s.sp - 1 := sp_dataWrite
  have hxpc : (pushWord c s ret).xpc = if s.sp - 1 = 0x1E then ret &&& 3 else s.xpc :=
    xpc_dataWrite
  simp only [pushFrame, frameWords, ← hsp, ← hxpc]
  split <;> rfl

/-- What a frame leaves in the register at `addr`, which held `old`. -/
def stored (ws : List (Word × Word)) (addr old : Word) : Word :=
  ws.foldl (fun r w => if w.1 = addr then w.2 else r) old

/-- What a frame leaves in IFR, where a store acknowledges. -/
def acked (ws : List (Word × Word)) (ifr : Word) : Word :=
  ws.foldl (fun r w => if w.1 = 0x01 then r &&& ~~~ w.2 else r) ifr

theorem stored_pushFrame {f : Cpu → Word} {addr : Word}
    (hw : ∀ (c : Ctx) (s : Cpu) (a v : Word), f (dataWrite c s a v) = if a = addr then v else f s)
    (hsp : ∀ (s : Cpu) (sp : Word), f { s with sp := sp } = f s) :
    f (pushFrame c s ret always) = stored (frameWords c s ret always) addr (f s) := by
  rw [pushFrame_eq]
  generalize frameWords c s ret always = ws
  induction ws generalizing s with
  | nil => rfl
  | cons w ws ih =>
    rw [List.foldl_cons, ih, hw, hsp]
    rfl

theorem acked_pushFrame :
    (pushFrame c s ret always).ifr = acked (frameWords c s ret always) s.ifr := by
  rw [pushFrame_eq]
  generalize frameWords c s ret always = ws
  induction ws generalizing s with
  | nil => rfl
  | cons w ws ih =>
    rw [List.foldl_cons, ih, ifr_dataWrite]
    rfl

/-! ### A frame that changes nothing -/

theorem getLsbD_acked (ws : List (Word × Word)) (ifr : Word) (i : Nat) :
    (acked ws ifr).getLsbD i ↔
      ifr.getLsbD i ∧ ∀ w ∈ ws, w.1 = 0x01 → w.2.getLsbD i = false := by
  induction ws generalizing ifr with
  | nil => simp [acked]
  | cons w ws ih =>
    have hcons : acked (w :: ws) ifr =
        acked ws (if w.1 = 0x01 then ifr &&& ~~~ w.2 else ifr) := rfl
    rw [hcons, ih, List.forall_mem_cons]
    by_cases hw : w.1 = 0x01
    · have hlt : ifr.getLsbD i → i < 16 := lt_of_getLsbD
      simp only [hw, if_true, getLsbD_and, getLsbD_not, Bool.and_eq_true,
        decide_eq_true_eq, Bool.not_eq_true']
      tauto
    · rw [if_neg hw]
      tauto

theorem acked_eq_self (ws : List (Word × Word)) (ifr : Word) :
    acked ws ifr = ifr ↔ ∀ w ∈ ws, w.1 = 0x01 → w.2 &&& ifr = 0 := by
  constructor
  · intro h w hw ha
    apply eq_of_getLsbD_eq
    intro i hi
    show (w.2 &&& ifr).getLsbD i = (0#16).getLsbD i
    rw [getLsbD_and, getLsbD_zero]
    cases hbit : ifr.getLsbD i with
    | false => exact Bool.and_false _
    | true =>
      rw [← h] at hbit
      rw [((getLsbD_acked ws ifr i).mp hbit).2 w hw ha]
      rfl
  · intro h
    apply eq_of_getLsbD_eq
    intro i hi
    rw [Bool.eq_iff_iff, getLsbD_acked]
    refine ⟨And.left, fun hbit => ⟨hbit, fun w hw ha => ?_⟩⟩
    have hzero := congrArg (·.getLsbD i) (h w hw ha)
    simpa [hbit] using hzero

/-- A frame has one word or two, the second below the first unless the first one was
stored in SP. -/
theorem frameWords_cases (c : Ctx) (s : Cpu) (ret : Word) (always : Bool) :
    frameWords c s ret always = [(s.sp - 1, ret)] ∨
    ∃ a x, frameWords c s ret always = [(s.sp - 1, ret), (a, x)] ∧
      (s.sp - 1 ≠ 0x18 → a = s.sp - 1 - 1) ∧
      (s.sp - 1 ≠ 0x1E → always ∨ s.xpc ≠ 0) := by
  simp only [frameWords]
  obtain ⟨x, hx⟩ : ∃ x, (if s.sp - 1 = 0x1E then ret &&& 3 else s.xpc) = x := ⟨_, rfl⟩
  rw [hx]
  cases htwo : always || x != 0 with
  | false => exact Or.inl rfl
  | true =>
    refine Or.inr ⟨_, x, rfl, fun h => ?_, fun h => ?_⟩
    · rw [if_neg fun hc => h hc.1]
    · rw [if_neg h] at hx
      rw [hx]
      simpa using htwo

/-- IPTR survives the frame if the word on PMST, if there is one, has the same IPTR. -/
theorem iptr_stored (c : Ctx) (s : Cpu) (ret : Word) (always : Bool) (pmst : Word) :
    stored (frameWords c s ret always) 0x1D pmst >>> Pmst.iptrShift = pmst >>> Pmst.iptrShift ↔
      ∀ w ∈ frameWords c s ret always, w.1 = 0x1D →
        w.2 >>> Pmst.iptrShift = pmst >>> Pmst.iptrShift := by
  rcases frameWords_cases c s ret always with heq | ⟨a, x, heq, ha, -⟩
  · rw [heq, List.forall_mem_singleton]
    generalize s.sp - 1 = top
    by_cases htop : top = 0x1D <;> simp_all [stored]
  · rw [heq, List.forall_mem_cons, List.forall_mem_singleton]
    by_cases htop : s.sp - 1 = 0x1D
    · -- the second word is then at 0x1C
      rw [htop] at ha ⊢
      rw [ha (by decide)]
      simp [stored]
    · by_cases ha' : a = 0x1D <;> simp_all [stored]

end Qosmo.C54x
