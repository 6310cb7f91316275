import Qosmo.C54x.Canon

/-!
# Qosmo.C54x.Stores

The words an instruction stores, and what they can do to the accumulators.

The accumulators are 40-bit registers kept sign-extended in 64 bits. An instruction that
computes keeps them so. A store need not: the guard bytes AG and BG are memory-mapped and are
written without their sign. `storesAt` lists the words the code behind a test of the decoder
stores, as a function of the state it starts from, and `bounds_of_mem` says of every test that
its code keeps both accumulators extended if none of these words is a negative guard byte.
-/

namespace Qosmo.C54x

open Prog State

/-! ### Stores -/

/-- The accumulators survive the store of a word: it is not a guard byte with its sign set. -/
def GuardKept (w : Word × Word) : Prop := (w.1 = 0x0A ∨ w.1 = 0x0D) → bitSet w.2 7 = false

instance (w : Word × Word) : Decidable (GuardKept w) := inferInstanceAs (Decidable (_ → _))

theorem canonical_writeMmr {c : Ctx} {s : Cpu} {v : Word} {r : Mmr} (hs : Canonical s)
    (h : r = .ag ∨ r = .bg → bitSet v 7 = false) : Canonical (writeMmr c s v r) := by
  cases r with
  | al => exact ⟨hs.a.putLow v, hs.b⟩
  | ah => exact ⟨hs.a.putHigh v, hs.b⟩
  | ag => exact ⟨canon_putGuard.mpr (h (.inl rfl)), hs.b⟩
  | bl => exact ⟨hs.a, hs.b.putLow v⟩
  | bh => exact ⟨hs.a, hs.b.putHigh v⟩
  | bg => exact ⟨hs.a, canon_putGuard.mpr (h (.inr rfl))⟩
  | imr | sp =>
    simp only [writeMmr]
    split
    · exact hs
    · exact ⟨hs.a, hs.b⟩
  | _ => exact ⟨hs.a, hs.b⟩

theorem canonical_dataWrite {s : Cpu} (c : Ctx) {w : Word × Word} (hs : Canonical s)
    (hw : GuardKept w) : Canonical (dataWrite c s w.1 w.2) := by
  by_cases hlt : w.1 < 0x20
  · rw [dataWrite_of_lt hlt]
    cases hr : mmrAt w.1 with
    | none => exact hs
    | some r =>
      refine canonical_writeMmr hs fun h => hw ?_
      rw [addr_of_mmrAt hr]
      rcases h with rfl | rfl
      · exact .inl rfl
      · exact .inr rfl
  · obtain ⟨data, ram, psc, served, heq⟩ := dataWrite_of_ge (c := c) (s := s) (v := w.2)
      (BitVec.not_lt.mp hlt)
    rw [heq]
    exact ⟨hs.a, hs.b⟩

/-! ### Programs and the words they store -/

/-- The words stored, given by a program that computes them from the state before. -/
abbrev Stores := Exec (List (Word × Word))

/-- A program that keeps the accumulators extended if the words it stores do. -/
def Bounded (m : Exec α) (l : Stores) : Prop :=
  ∀ c s, Canonical s → (∀ w ∈ (l c s).1, GuardKept w) → Canonical (m c s).2

variable {α β γ : Type}

variable {m : Exec α} {l : Stores}

theorem bounded_of_keeps (h : Keeps Canonical m) : Bounded m l :=
  fun c s hs _ => h c s hs

/-- What the stores are computed from, the program computes first. -/
theorem bounded_bind {f : α → Exec β} {l : α → Stores} (hm : Keeps Canonical m)
    (hf : ∀ a, Bounded (f a) (l a)) : Bounded (m >>= f) (m >>= l) :=
  fun c s hs hw => hf _ c (m c s).2 (hm c s hs) hw

theorem bounded_get_bind {f : Cpu → Exec β} {l : Cpu → Stores}
    (hf : ∀ s, Canonical s → Bounded (f s) (l s)) : Bounded (get >>= f) (get >>= l) :=
  fun c s hs hw => hf s hs c s hs hw

theorem bounded_skip {f : α → Exec β} {ws : List (Word × Word)}
    (hm : Keeps Canonical m) (hf : ∀ a, Bounded (f a) (pure ws)) : Bounded (m >>= f) (pure ws) :=
  fun c s hs hw => hf _ c (m c s).2 (hm c s hs) hw

theorem bounded_fetch_bind {off : Nat} {f : Word → Exec β}
    (hf : ∀ w, Bounded (f w) l) : Bounded (fetchAt off >>= f) l :=
  fun c s hs hw => hf _ c s hs hw

theorem bounded_state_bind {f : Cpu → Exec β} (hf : ∀ s, Bounded (f s) l) :
    Bounded (get >>= f) l := fun c s hs hw => hf s c s hs hw

variable {f : PUnit → Exec β}

theorem bounded_wr_bind {addr v : Word} {ws : List (Word × Word)}
    (hf : ∀ u, Bounded (f u) (pure ws)) : Bounded (wr addr v >>= f) (pure ((addr, v) :: ws)) := by
  intro c s hs hw
  obtain ⟨hfirst, hrest⟩ := List.forall_mem_cons.mp hw
  exact hf _ c (dataWrite c s addr v) (canonical_dataWrite c hs hfirst) hrest

theorem bounded_ite {p : Prop} [Decidable p] {n : Exec α} {l' : Stores} (hm : Bounded m l)
    (hn : Bounded n l') : Bounded (if p then m else n) (if p then l else l') := by
  split
  · exact hm
  · exact hn

def pushed (v : Word) : Stores := do return [((← get).sp - 1, v)]

/-- The two words a far call stores. -/
def farPushed (ret : Word) : Stores := do
  let c ← read
  return frameWords c (← get) ret true

theorem bounded_push_bind {v : Word} (hf : ∀ u, Keeps Canonical (f u)) :
    Bounded (push v >>= f) (pushed v) := by
  intro c s hs hw
  have hfirst : GuardKept (s.sp - 1, v) := hw _ (List.mem_singleton.mpr rfl)
  have hsp : Canonical { s with sp := s.sp - 1 } := ⟨hs.a, hs.b⟩
  exact hf _ c _ (canonical_dataWrite c hsp hfirst)

theorem canonical_pushFrame {c : Ctx} {s : Cpu} {ret : Word} {always : Bool} (hs : Canonical s)
    (hw : ∀ w ∈ frameWords c s ret always, GuardKept w) : Canonical (pushFrame c s ret always) := by
  rw [pushFrame_eq]
  generalize frameWords c s ret always = ws at hw
  induction ws generalizing s with
  | nil => exact hs
  | cons w ws ih =>
    obtain ⟨hfirst, hrest⟩ := List.forall_mem_cons.mp hw
    have hsp : Canonical { s with sp := w.1 } := ⟨hs.a, hs.b⟩
    exact ih (canonical_dataWrite c hsp hfirst) hrest

theorem bounded_farPush_bind {ret : Word} (hf : ∀ u, Keeps Canonical (f u)) :
    Bounded (farPush ret >>= f) (farPushed ret) :=
  fun c s hs hw => hf _ c _ (@canonical_pushFrame c s ret true hs hw)

/-! ### The storing instructions -/

/-- A store to Smem of a word computed with the address at hand. -/
def smemStore (value : Word → Exec Word) (op : Word) : Stores := do
  let addr ← resolveSmem op
  return [(addr, ← value addr)]

def smemUp (op : Word) : Stores := do
  let addr ← resolveSmem op
  return [(addr + 1, ← rd addr)]

/-- The program word READA and MVPD move. -/
def progWordAt (base : Word) : Exec Word := do
  let p ← progPointer base
  return progFetch (← get) p

/-- READA, MVPD, MACD, ST #lk, STM, PORTR. -/
def storesReada : Word → Stores := smemStore fun _ => do progWordAt (lowWord (← get).a)
def storesMvpd : Word → Stores := smemStore fun _ => do progWordAt (← fetchOp2)
def storesMacp (op : Word) : Stores := do
  let addr ← resolveSmem op
  let _ ← progPointer (← fetchOp2)
  let v ← rd addr
  return if bitSet op 9 then [(addr + 1, v)] else []
def storesStLk : Word → Stores := smemStore fun _ => fetchOp2
def storesStm (op : Word) : Stores := do
  let mmr ← resolveMmr op
  return [(mmr, ← fetchAt 1)]
def storesPortr (op : Word) : Stores := do
  let addr ← resolveSmem op
  let pa ← fetchOp2
  let c ← read
  return ((c.bus.portr pa).map fun v => (addr, v)).toList

/-- MVMD, MVDM, MVKD, MVDK. -/
def storesMvmd (op : Word) : Stores := do
  let dmad ← fetchAt 1
  return [(dmad, ← rd (op &&& 0x7F))]
def storesMvdm (op : Word) : Stores := do
  let dmad ← fetchAt 1
  return [(op &&& 0xFF, ← rd dmad)]
def storesMvkd (op : Word) : Stores := do
  let operand ← mvkOperand op
  let dmad ← dmadPointer operand.2
  return [(operand.1, ← rd dmad)]
def storesMvdk (op : Word) : Stores := do
  let operand ← mvkOperand op
  let dmad ← dmadPointer operand.2
  return [(dmad, ← rd operand.1)]

/-- ANDM, ORM, XORM, ADDM. -/
def storesRmw (f : Cpu → Word → Word → Word) : Word → Stores := smemStore fun addr => do
  let lk ← fetchOp2
  let v ← rd addr
  return f (← get) v lk

def stores6f (op : Word) : Stores := do
  let addr ← resolveSmem op
  let op2 ← fetchOp2
  let s ← get
  let shift := shift5 op2
  let src := s.acc (dstB op2)
  return match ((op2 >>> 5) &&& 7).toNat with
    | 3 => [(addr, lowWord (shiftAcc ((hi16 src).signExtend 64) shift))]
    | 4 => [(addr, lowWord (shiftAcc src shift))]
    | _ => []

/-- PSHM, PSHD, DST. -/
def storesPshm (op : Word) : Stores := do pushed (← rd (op &&& 0x7F))
def storesPshd (op : Word) : Stores := do pushed (← loadSmem op)
def storesDst (op : Word) : Stores := do
  let s ← get
  let v := s.acc (dstB op)
  let a ← resolveLmem op
  return [(a, hi16 v), (a ^^^ 1, lowWord v)]

/-- STL, STH, ST T, ST TRN, STLM, POPM, POPD, CMPS. -/
def storesStore (part : Acc → Word) (useAsm : Bool) (op : Word) : Stores :=
  smemStore (fun _ => do
    let s ← get
    let v := s.acc (dstB op)
    return part (if useAsm then shiftAcc v s.asmShift else v)) op
def storesStReg (r : Cpu → Word) : Word → Stores := smemStore fun _ => do return r (← get)
def storesStlm (op : Word) : Stores := do
  let mmr ← resolveMmr op
  return [(mmr, lowWord ((← get).acc (dstB op)))]
def storesPopm (op : Word) : Stores := do return [(op &&& 0x7F, ← pop)]
def storesPopd : Word → Stores := smemStore fun _ => pop
def storesCmps (op : Word) : Stores :=
  smemStore (fun _ => do
    let acc := (← get).acc (dstB op)
    return if (lowWord acc).toInt < (hi16 acc).toInt then hi16 acc else lowWord acc) op
def storesStLk97 : Word → Stores := smemStore fun _ => fetchAt 1

/-- STL and STH to Xmem, and the conditional stores. -/
def storesStX (op : Word) : Stores := do
  let a ← resolveXmem op
  let s ← get
  let v := s.acc (dstB op) <<< (op &&& 0xF).toNat
  return [(a, if bitSet op 9 then hi16 v else lowWord v)]
def storesCondStore (op : Word) : Stores := do
  let xaddr ← resolveXmem op
  let s ← get
  let ca := (sext40 (s.acc (bitSet op 3))).toInt
  let take := (accTest (op &&& 7).toNat ca).getD false
  return [(xaddr, if !take then dataRead s xaddr
    else match ((op >>> 8) &&& 3).toNat with
      | 0 => s.t
      | 1 => s.brc
      | _ => hi16 (shiftAcc (s.acc (dstB op)) s.asmShift))]

/-- The parallel stores, MVDD, MVMM and the move of 0xF6. -/
def storesStPar (op : Word) : Stores := do
  let s ← get
  return [(s.ar (yAr op), stWord s op)]
def storesMvdd (op : Word) : Stores := do
  let s ← get
  return [(s.ar (yAr op), dataRead s (s.ar (xAr op)))]
def storesMvmm (op : Word) : Stores := do
  let s ← get
  let src := (op >>> 4) &&& 0xF
  let dst := op &&& 0xF
  let val := if src ≤ 7 then s.ar (src.setWidth 3)
    else if src = 8 then s.sp
    else dataRead s (src + 0x10)
  if dst ≤ 7 then return [] else if dst = 8 then return [] else return [(dst + 0x10, val)]
def storesMvddAr (op : Word) : Stores := do
  let s ← get
  return [(s.ar ((op &&& 7).setWidth 3), dataRead s (s.ar (((op >>> 4) &&& 7).setWidth 3)))]

/-- The calls: the return address is `n` words on. -/
def storesCall (n : Nat) (_ : Word) : Stores := do pushed (← pcPlus n)
def storesBacc (op : Word) : Stores := do
  let s ← get
  let pc ← pcPlus 0
  if bitSet op 0 && pc == 0xBC36 && decide (lowWord (s.acc (dstB op)) < 0x7000) then return []
  else if bitSet op 0 then storesCall 1 op
  else return []
def storesBaccd (op : Word) : Stores := if bitSet op 0 then storesCall 3 op else return []
def storesFbacc (n : Nat) (op : Word) : Stores :=
  if bitSet op 0 then do farPushed (← pcPlus n) else return []
def storesCc (n : Nat) (op : Word) : Stores := do
  if bitSet op 7 then farPushed (← pcPlus n)
  else if ← condTrue (op &&& 0x7F) then storesCall n op
  else return []

/-- The words stored behind a test of the decoder. The values of the tests tell the storing
instructions apart; what is not listed stores nothing. -/
def storesAt (value op : Word) : Stores := match value.toNat with
  | 0xF4E2 => storesBacc op
  | 0xF4E6 => storesFbacc 1 op
  | 0xF4C0 => storesCall 1 op
  | 0xF074 => storesCall 2 op
  | 0xF274 => storesCall 4 op
  | 0xF6E2 => storesBaccd op
  | 0xF6E6 => storesFbacc 3 op
  | 0xF680 => storesMvddAr op
  | 0xF7C0 => storesCall 1 op
  | 0xF900 => storesCc 2 op
  | 0xFB00 => storesCc 4 op
  | 0xE500 => storesMvdd op
  | 0xE400 => storesStPar op
  | 0xE700 => storesMvmm op
  | 0x7E00 => storesReada op
  | 0x7600 => storesStLk op
  | 0x7700 => storesStm op
  | 0x7400 => storesPortr op
  | 0x7300 => storesMvmd op
  | 0x7000 => storesMvkd op
  | 0x7100 => storesMvdk op
  | 0x7200 => storesMvdm op
  | 0x7C00 => storesMvpd op
  | 0x7800 => storesMacp op
  | 0x6800 => storesRmw (fun _ v lk => v &&& lk) op
  | 0x6900 => storesRmw (fun _ v lk => v ||| lk) op
  | 0x6A00 => storesRmw (fun _ v lk => v ^^^ lk) op
  | 0x6B00 => storesRmw addmSum op
  | 0x6F00 => stores6f op
  | 0x4E00 => storesDst op
  | 0x4A00 => storesPshm op
  | 0x4B00 => storesPshd op
  | 0x4C00 | 0x4D00 => smemUp op
  | 0x9800 => storesStX op
  | 0x8500 | 0x8400 => storesStore lowWord true op
  | 0x8D00 => storesStReg Cpu.trn op
  | 0x9C00 => storesCondStore op
  | 0x8A00 => storesPopm op
  | 0x8800 => storesStlm op
  | 0x8B00 => storesPopd op
  | 0x8000 | 0x8100 => storesStore lowWord false op
  | 0x8C00 => storesStReg Cpu.t op
  | 0x8E00 => storesCmps op
  | 0x8600 => storesStore hi16 true op
  | 0x8200 | 0x8300 => storesStore hi16 false op
  | 0x9700 => storesStLk97 op
  | 0xC000 => storesStPar op
  | _ => return []

/-- The instructions whose steps are those of the rules: what the words are computed from, the
stores, and the rest. -/
theorem bounded_simple (op : Word) :
    Bounded (execReada op) (storesReada op) ∧ Bounded (execMvpd op) (storesMvpd op) ∧
    Bounded (execStLk op) (storesStLk op) ∧ Bounded (execStm op) (storesStm op) ∧
    Bounded (execMvmd op) (storesMvmd op) ∧ Bounded (execMvdm op) (storesMvdm op) ∧
    Bounded (execMvkd op) (storesMvkd op) ∧ Bounded (execMvdk op) (storesMvdk op) ∧
    Bounded (execPshm op) (storesPshm op) ∧
    Bounded (execPshd op) (storesPshd op) ∧ Bounded (execDst op) (storesDst op) ∧
    Bounded (execLtd op) (smemUp op) ∧ Bounded (execDelay op) (smemUp op) ∧
    Bounded (execStlm op) (storesStlm op) ∧
    Bounded (execPopm op) (storesPopm op) ∧ Bounded (execPopd op) (storesPopd op) ∧
    Bounded (execStLk97 op) (storesStLk97 op) ∧ Bounded (execStX op) (storesStX op) ∧
    Bounded (execStLdT op) (storesStPar op) ∧ Bounded (execMvdd op) (storesMvdd op) ∧
    Bounded (execMvddAr op) (storesMvddAr op) ∧ Bounded (execCall op) (storesCall 2 op) ∧
    Bounded (execCalld op) (storesCall 4 op) ∧ Bounded (execTrap op) (storesCall 1 op) ∧
    Bounded (execIntr op) (storesCall 1 op) ∧ Bounded (execBacc op) (storesBacc op) ∧
    Bounded (execBaccd op) (storesBaccd op) ∧ Bounded (execFbacc op) (storesFbacc 1 op) ∧
    Bounded (execFbaccd op) (storesFbacc 3 op) ∧ Bounded (execCc op) (storesCc 2 op) ∧
    Bounded (execCcd op) (storesCc 4 op) ∧ Bounded (execMvmm op) (storesMvmm op) := by
  simp only [execReada, storesReada, smemStore, execMvpd, storesMvpd, progWordAt, execStLk,
    storesStLk, execStm, storesStm, execMvmd, storesMvmd, execMvdm, storesMvdm, execMvkd, storesMvkd,
    execMvdk, storesMvdk, execPshm, storesPshm, execPshd, storesPshd, execDst,
    storesDst, execLtd, smemUp, execDelay, execStlm,
    storesStlm, execPopm, storesPopm, execPopd, storesPopd, execStLk97, storesStLk97, execStX,
    storesStX, execStLdT, storesStPar, readXY, execMvdd, storesMvdd, execMvddAr, storesMvddAr,
    execCall, storesCall, execCalld, execTrap, execIntr, execBacc, storesBacc, execBaccd, storesBaccd,
    execFbacc, storesFbacc, execFbaccd, execCc, storesCc, execCcd, delayTo, fallThrough, execMvmm,
    storesMvmm, bind_assoc, pure_bind]
  constructorm* _ ∧ _
  all_goals
    repeat' with_reducible first
      | (apply bounded_wr_bind; intro _)
      | (apply bounded_push_bind; intro _)
      | (apply bounded_farPush_bind; intro _)
      | (apply bounded_get_bind; intro _ _)
      | (apply bounded_bind; on_goal 2 => intro _)
      | (apply bounded_fetch_bind; intro _)
      | (apply bounded_state_bind; intro _)
      | apply bounded_ite
      | (apply bounded_skip; on_goal 2 => intro _)
      | apply bounded_of_keeps
      | (simp; done)
      | (apply keeps_get_bind; intro _ _)
      | (apply keeps_bind; on_goal 2 => intro _)
      | apply keeps_ite
      | apply keeps_other
  all_goals
    intro _
    rfl

theorem bounded_rmw (f : Cpu → Word → Word → Word) (op : Word) :
    Bounded (rmw f op) (storesRmw f op) := by
  unfold rmw storesRmw smemStore
  simp only [bind_assoc, pure_bind]
  refine bounded_bind (keeps_resolveSmem op) fun addr => bounded_bind keeps_fetchOp2 fun lk => ?_
  refine bounded_bind (keeps_rd addr) fun v => bounded_get_bind fun s _ => ?_
  exact bounded_wr_bind fun _ => bounded_of_keeps (keeps_done 2)

theorem bounded_store (part : Acc → Word) (useAsm : Bool) (op : Word) :
    Bounded (execStore part useAsm op) (storesStore part useAsm op) := by
  unfold execStore storesStore smemStore
  simp only [bind_assoc, pure_bind]
  refine bounded_bind (keeps_resolveSmem op) fun addr => bounded_get_bind fun s _ => ?_
  exact bounded_wr_bind fun _ => bounded_of_keeps (keeps_done 1)

theorem bounded_stReg (r : Cpu → Word) (op : Word) :
    Bounded (execStReg r op) (storesStReg r op) := by
  unfold execStReg storesStReg smemStore
  simp only [bind_assoc, pure_bind]
  refine bounded_bind (keeps_resolveSmem op) fun addr => bounded_get_bind fun s _ => ?_
  exact bounded_wr_bind fun _ => bounded_of_keeps (keeps_done 1)

variable (op : Word)

theorem bounded_macp : Bounded (execMacp op) (storesMacp op) := by
  unfold execMacp storesMacp
  refine bounded_bind (keeps_resolveSmem op) fun addr => bounded_bind keeps_fetchOp2 fun lk => ?_
  refine bounded_bind (keeps_progPointer lk) fun p => bounded_bind (keeps_rd addr) fun v => ?_
  refine bounded_skip keeps_get fun s => bounded_skip (keeps_setAcc (canon_sext40 _)) fun _ => ?_
  refine bounded_skip (keeps_other (fun _ => rfl) fun _ => rfl) fun _ => ?_
  have hrest : Keeps Canonical (advancePointer p >>= fun _ => done 2) :=
    keeps_bind (keeps_advancePointer p) fun _ => keeps_done 2
  dsimp only
  split
  · exact bounded_wr_bind fun _ => bounded_of_keeps hrest
  · exact bounded_of_keeps hrest

theorem bounded_portr : Bounded (execPortr op) (storesPortr op) := by
  unfold execPortr storesPortr
  refine bounded_bind (keeps_resolveSmem op) fun addr => bounded_bind keeps_fetchOp2 fun pa => ?_
  refine bounded_bind keeps_read fun c => ?_
  cases c.bus.portr pa with
  | none => exact bounded_of_keeps (keeps_done 2)
  | some v => exact bounded_wr_bind fun _ => bounded_of_keeps (keeps_done 2)

theorem bounded_6f : Bounded (exec6f op) (stores6f op) := by
  unfold exec6f stores6f
  refine bounded_bind (keeps_resolveSmem op) fun addr => bounded_bind keeps_fetchOp2 fun op2 => ?_
  refine bounded_get_bind fun s _ => ?_
  have hacc : ∀ v, Keeps Canonical (setAcc (dstB op2) (sext40 v) >>= fun _ => done 2) :=
    fun v => keeps_bind (keeps_setAcc (canon_sext40 v)) fun _ => keeps_done 2
  dsimp only
  generalize ((op2 >>> 5) &&& 7).toNat = kind
  split
  · exact bounded_of_keeps (hacc _)
  · exact bounded_of_keeps (hacc _)
  · exact bounded_of_keeps (hacc _)
  · exact bounded_wr_bind fun _ => bounded_of_keeps (keeps_done 2)
  · exact bounded_wr_bind fun _ => bounded_of_keeps (keeps_done 2)
  · exact bounded_of_keeps (keeps_done 2)

theorem bounded_cmps : Bounded (execCmps op) (storesCmps op) := by
  unfold execCmps storesCmps smemStore
  simp only [bind_assoc, pure_bind]
  refine bounded_bind (keeps_resolveSmem op) fun addr => bounded_get_bind fun s _ => ?_
  refine bounded_skip (keeps_other (fun _ => rfl) fun _ => rfl) fun _ => ?_
  split
  all_goals
    refine bounded_wr_bind fun _ => bounded_of_keeps (keeps_bind ?_ fun _ => keeps_done 1)
    exact keeps_other (fun _ => rfl) fun _ => rfl

theorem bounded_condStore : Bounded (execCondStore op) (storesCondStore op) := by
  unfold execCondStore storesCondStore
  refine bounded_bind (keeps_resolveXmem op) fun xaddr => bounded_get_bind fun s _ => ?_
  exact bounded_wr_bind fun _ => bounded_of_keeps (keeps_done 1)

theorem bounded_stPar : Bounded (execStPar op) (storesStPar op) := by
  unfold execStPar storesStPar
  refine bounded_get_bind fun s _ => bounded_skip (keeps_readXY op) fun x => ?_
  refine bounded_wr_bind fun _ => bounded_of_keeps (keeps_get_bind fun s' _ => ?_)
  have hacc : ∀ v, Keeps Canonical
      (setAcc (dstB op) (sext40 v) >>= fun _ => postXY op >>= fun _ => done 1) :=
    fun v => keeps_bind (keeps_setAcc (canon_sext40 v)) fun _ =>
      keeps_bind (keeps_postXY op) fun _ => keeps_done 1
  dsimp only
  split <;> exact hacc _

/-- The code behind a test keeps the accumulators extended if the words it stores do. -/
def Action.Bounds (op : Word) (l : Stores) : Action → Prop
  | .plain f => Bounded (f op) l
  | .control f => Bounded (f op) l
  | .halt => True

theorem bounds_of_mem {op : Word} : ∀ e ∈ entries, e.act.Bounds op (storesAt e.value op) := by
  obtain ⟨hreada, hmvpd, hstLk, hstm, hmvmd, hmvdm, hmvkd, hmvdk, hpshm, hpshd, hdst, hltd, hdelay,
    hstlm, hpopm, hpopd, hstLk97, hstX, hstLdT, hmvdd, hmvddAr, hcall, hcalld, htrap, hintr, hbacc,
    hbaccd, hfbacc, hfbaccd, hcc, hccd, hmvmm⟩ := bounded_simple op
  simp only [entries, tableF, tableF4, tableE, table67, table4, table23, table89, tableAB, plain,
    control, List.forall_mem_append, List.forall_mem_cons, implies_true, true_and, and_true,
    List.not_mem_nil, false_imp_iff, and_assoc, Action.Bounds]
  simp only [execNop, execXc, execSat, execNeg, execAbs, execMpyaT, execSqurA, execExp, execMax, execMin,
    execRoltc, execDouble, execNorm, execRor, execRol, execMacaT, execCmpl, execRnd, execAddAsm,
    execSubAsm, execLdAsm, execCmpr, execAddShift, execSubShift, execLdShift, execSfta, execLdArp,
    execSftc, execSt0Bit, execSt1Bit, execImm, execImm16, execLogic, execImm16Ext, execLogicExt,
    execLdShort, execFirs, execAbdst, execLms, execLdDpK9, execLdK8, execFrame, execLdAsmK5,
    execWrita, execMar, execPortw, execMvdp, execCmpm, execBitf, execMpyLk, execMacLk, execMac,
    execMasr, execMaca, execMasa, execMacar, execMpya, execLdT, execLdAsmSmem, execAdd16, execBitt,
    execSqurAcc, execPoly, execMpy, execMas, execLdm, execSub16, execLd16, execLdDp, execLdX,
    execBit, execAddX, execSubXY, execMacXY, execMasXY, execLdmBa, execLdMac, execAddXY,
    execAddSub, execLoad, execLong, execRetf, execRete, reteFrom, execFret, execB, execRptb,
    execRptLk, execRptz, execBd, execBcTc, execFb, execBanzAr, execBcAcc, execBanzSmem, execReted,
    execFretd, execRptK8, execReset, execBcd, execRc, execRcd, execRptSmem, execBcEd, execBanz,
    execBanzd, armRpt, fallThrough, delayTo, clearIntm, rotateLeft, sftaExec, sftlExec, ahiProduct,
    carryAdd40, carrySub40, carryAdd16, carrySub16]
  constructorm* _ ∧ _
  all_goals try
    apply bounded_of_keeps
    repeat' with_reducible first
      | (apply keeps_get_bind; intro _ _)
      | (apply keeps_bind; on_goal 2 => intro _)
      | apply keeps_ite
      | apply keeps_setAcc
      | exact canon_sext40 _
      | (simp; done)
      | exact canon_sat32 _
      | exact canon_zero
      | exact canon_shiftLeft_word _
      | exact canon_setWidth (by omega) _
      | apply canon_ite
      | apply Canon.and
      | apply Canon.or
      | apply Canon.xor
      | apply Canonical.acc
      | assumption
      | split
      | apply keeps_other
    all_goals
      intro _
      first
        | rfl
        | (split <;> rfl)
  exacts [hbacc, hfbacc, htrap, hcall, hcalld, hbaccd, hfbaccd, hmvddAr, hintr, hcc, hccd, hmvdd,
    hstLdT, hmvmm, hreada, hstLk, hstm, bounded_portr op, hmvmd, hmvkd, hmvdk, hmvdm, hmvpd,
    bounded_macp op, bounded_rmw _ op, bounded_rmw _ op, bounded_rmw _ op, bounded_rmw _ op,
    bounded_6f op, hdst, hpshm, hpshd, hltd, hdelay, hstX, bounded_store _ _ op,
    bounded_stReg _ op, bounded_condStore op, hpopm, hstlm, hpopd, bounded_store _ _ op,
    bounded_stReg _ op, bounded_cmps op, bounded_store _ _ op, bounded_store _ _ op,
    bounded_store _ _ op, bounded_store _ _ op, bounded_store _ _ op, hstLk97, bounded_stPar op]

end Qosmo.C54x
