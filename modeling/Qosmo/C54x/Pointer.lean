import Qosmo.C54x.Iterations
import Qosmo.C54x.Load
import Qosmo.C54x.Operand
import Qosmo.C54x.Words

/-!
# Qosmo.C54x.Pointer

The instructions that walk through memory when they are repeated: READA, MVPD, MVDP, MVKD, MVDK,
MACP and MACD. They share one pointer (`mvpd_src`), which none of them owns: an instruction under a
repeat starts from its own base address if the repeat is fresh (`rpt_fresh`), and goes on from the
pointer otherwise.

`Transfer.act` is such an instruction at an address that is given. Under a repeat an execution is
this, at the address in `Transfer.pointer`, and it leaves the pointer one further
(`execOp_transfer`). The first execution after RPT is fresh, so the addresses are consecutive from
the base on, whatever the pointer was before (`pointer_iterates`).
-/

namespace Qosmo.C54x

open State

inductive Transfer where
  | reada | mvpd | mvdp | mvkd | mvdk | macp | macd
  deriving DecidableEq, Repr

/-- The word at `src` is stored at `dst`. -/
def move (src dst : Loc) : Exec Unit := do
  let c ← read
  modify fun s => dst.write c s (src.word s)

/-- A data word times a program word is added to an accumulator; T holds the data word. -/
def multiply (isB : Bool) (addr p : Word) : Exec Unit := do
  let sval ← rd addr
  let s ← get
  setAcc isB (sext40 (s.acc isB + frct s (mul16 sval (progFetch s p))))
  modify fun s => { s with t := sval }

def Cpu.start (s : Cpu) : Cpu := { s with lkUsed := false }

theorem execOp_plain {op : Word} {f : Word → Exec Nat} (h : decode op = .plain f) (c : Ctx)
    (s : Cpu) : (execOp op c s).2 = (f op c s.start).2 := by
  rw [execOp_of_decode h, run_plain]
  rfl

/-- The number of words the operand takes behind the opcode. -/
def lkWords (op : Word) : Nat := (bitSet op 7 && decide (0xC ≤ modOf op)).toNat

namespace Transfer

def mask : Transfer → Word
  | .macp | .macd => 0xFE00
  | _ => 0xFF00

def value : Transfer → Word
  | .reada => 0x7E00
  | .mvpd => 0x7C00
  | .mvdp => 0x7D00
  | .mvkd => 0x7000
  | .mvdk => 0x7100
  | .macp => 0x7800
  | .macd => 0x7A00

/-- The address of the operand that the addressing mode names. -/
def operand : Transfer → Word → Exec Word
  | .mvkd, op | .mvdk, op => mvkAddr op
  | _, op => resolveSmem op

/-- The base address: A for READA, and a constant behind the opcode for the others. -/
def base (op : Word) (c : Ctx) (s : Cpu) : Transfer → Word
  | .reada => lowWord s.a
  | _ => progFetch s ((c.pc + BitVec.ofNat 32 (1 + lkWords op)).setWidth 16)

/-- What is done with the operand at `addr` and the word at `p`. -/
def use (op addr p : Word) : Transfer → Exec Unit
  | .reada | .mvpd => move (.prog p) (.data addr)
  | .mvdp => move (.data addr) (.prog p)
  | .mvkd => move (.data p) (.data addr)
  | .mvdk => move (.data addr) (.data p)
  | .macp => multiply (dstB op) addr p
  -- the data word, by now in T, also moves up
  | .macd => do
    multiply (dstB op) addr p
    wr (addr + 1) (← get).t

/-- The instruction at the address `p`. -/
def act (tr : Transfer) (op p : Word) : Exec Unit := do
  modify Cpu.start
  let addr ← tr.operand op
  tr.use op addr p

def exec : Transfer → Word → Exec Nat
  | .reada => execReada
  | .mvpd => execMvpd
  | .mvdp => execMvdp
  | .mvkd => execMvkd
  | .mvdk => execMvdk
  | .macp | .macd => execMacp

end Transfer

/-! ### The pointer is not looked at elsewhere -/

/-- The core with another pointer. -/
def Cpu.pointing (s : Cpu) (fresh : Bool) (src : Word) : Cpu :=
  { s with rptFresh := fresh, mvpdSrc := src }

section Pointing

variable (c : Ctx) (s : Cpu) (fresh : Bool) (src a v : Word)

theorem dataRead_pointing : dataRead (s.pointing fresh src) a = dataRead s a := by
  refine (dataRead_eq_iff ⟨rfl, rfl, rfl, rfl⟩ a).mpr fun r _ => ?_
  cases r <;> rfl

theorem writeMmr_pointing (r : Mmr) : writeMmr c (s.pointing fresh src) v r =
    (writeMmr c s v r).pointing fresh src := by
  cases r with
  | imr =>
    exact (apply_ite (Cpu.pointing · fresh src) (gardeImr c s = true) s { s with imr := v }).symm
  | sp =>
    exact (apply_ite (Cpu.pointing · fresh src) (gardeSp c s v = true) s { s with sp := v }).symm
  | _ => rfl

theorem dataWrite_pointing : dataWrite c (s.pointing fresh src) a v =
    (dataWrite c s a v).pointing fresh src := by
  by_cases hlt : a < 0x20
  · rw [dataWrite_of_lt hlt, dataWrite_of_lt hlt]
    cases mmrAt a with
    | none => rfl
    | some r => exact writeMmr_pointing c s fresh src v r
  · have hge := BitVec.not_lt.mp hlt
    obtain ⟨data, ram, psc, served, heq⟩ := dataWrite_of_ge (c := c) (s := s) (v := v) hge
    rw [dataWrite_of_same (s := s) (t := s.pointing fresh src) hge ⟨rfl, rfl, rfl, rfl⟩, heq]
    rfl

theorem progWrite_pointing : progWrite (s.pointing fresh src) a v =
    (progWrite s a v).pointing fresh src := by
  unfold progWrite
  rw [show inOverlay (s.pointing fresh src) a = inOverlay s a from rfl]
  split
  · rfl
  · dsimp only
    split <;> split <;> rfl

theorem word_pointing (l : Loc) : l.word (s.pointing fresh src) = l.word s := by
  cases l with
  | data a => exact dataRead_pointing s fresh src a
  | prog a => rfl

end Pointing

def Blind (m : Exec Unit) : Prop :=
  ∀ c s fresh src, (m c (s.pointing fresh src)).2 = (m c s).2.pointing fresh src

theorem blind_move (l dst : Loc) : Blind (move l dst) := by
  intro c s fresh src
  show dst.write c (s.pointing fresh src) (l.word (s.pointing fresh src)) =
    (dst.write c s (l.word s)).pointing fresh src
  rw [word_pointing]
  cases dst with
  | data a => exact dataWrite_pointing c s fresh src a _
  | prog a => exact progWrite_pointing s fresh src a _

theorem multiply_eq (isB : Bool) (addr p : Word) (c : Ctx) (s : Cpu) :
    (multiply isB addr p c s).2 =
      let prod := frct s (mul16 (dataRead s addr) (progFetch s p))
      { (setAcc isB (sext40 (s.acc isB + prod)) c s).2 with t := dataRead s addr } := rfl

theorem blind_multiply (isB : Bool) (addr p : Word) : Blind (multiply isB addr p) := by
  intro c s fresh src
  rw [multiply_eq, multiply_eq, dataRead_pointing]
  cases isB <;> rfl

theorem Transfer.blind_use (tr : Transfer) (op addr p : Word) : Blind (tr.use op addr p) := by
  cases tr with
  | macp => exact blind_multiply _ _ _
  | macd =>
    intro c s fresh src
    show dataWrite c (multiply (dstB op) addr p c (s.pointing fresh src)).2 (addr + 1)
      (multiply (dstB op) addr p c (s.pointing fresh src)).2.t = _
    rw [blind_multiply (dstB op) addr p c s fresh src]
    exact dataWrite_pointing c _ fresh src _ _
  | _ => exact blind_move _ _

/-! ### Operands -/

variable (op : Word) (c : Ctx)

/-- The operand of MVKD and MVDK concerns the same registers as any other. -/
theorem mvkOperand_eq (s : Cpu) :
    ∃ ar st0 lk, (mvkOperand op c s).2 = { s with ar := ar, st0 := st0, lkUsed := lk } := by
  by_cases hmode : (bitSet op 7 && decide (0xC ≤ modOf op))
  · rw [mvkOperand_lk hmode]
    exact ⟨_, _, _, rfl⟩
  · obtain ⟨ar, st0, lk, heq⟩ := resolveSmem_eq op c { s with lkUsed := false }
    refine ⟨ar, st0, lk, ?_⟩
    simp only [mvkOperand, hmode, Prog.run_bind]
    exact heq

/-- The constant MVKD and MVDK find behind the opcode. -/
theorem mvkOperand_dmad (s : Cpu) : (mvkOperand op c s).1.2 =
    progFetch s ((c.pc + BitVec.ofNat 32 (1 + lkWords op)).setWidth 16) := by
  by_cases hmode : (bitSet op 7 && decide (0xC ≤ modOf op))
  · rw [mvkOperand_lk hmode, lkWords, hmode]
    rfl
  · rw [Bool.not_eq_true] at hmode
    simp only [lkWords, mvkOperand, hmode, Prog.run_bind]
    rfl

/-- An operand takes a word behind the opcode in the modes with an `lk`. -/
theorem lkUsed_resolveSmem {s : Cpu} (hs : s.lkUsed = false) :
    (resolveSmem op c s).2.lkUsed.toNat = lkWords op := by
  simp only [resolveSmem, Prog.run_get_bind]
  cases h7 : bitSet op 7 with
  | true =>
    simp only [if_true, Prog.run_bind, lkWords, h7, Bool.true_and]
    have haccess : ∀ n, (indirectAccess op n 1 c s).2.lkUsed = decide (0xC ≤ modOf op) := by
      intro n
      show (s.lkUsed || decide (0xC ≤ modOf op)) = _
      rw [hs, Bool.false_or]
    split <;> exact congrArg Bool.toNat (haccess (currentAr s op))
  | false =>
    simp only [lkWords, h7]
    exact congrArg Bool.toNat hs

/-- The constant behind the opcode, as the others fetch it once the operand is resolved. -/
theorem fetchOp2_resolveSmem {s : Cpu} (hs : s.lkUsed = false) :
    fetchOp2 c (resolveSmem op c s).2 =
      (progFetch s ((c.pc + BitVec.ofNat 32 (1 + lkWords op)).setWidth 16),
        (resolveSmem op c s).2) := by
  have hlk := lkUsed_resolveSmem op c hs
  obtain ⟨ar, st0, lk, heq⟩ := resolveSmem_eq op c s
  rw [heq] at hlk ⊢
  rw [← hlk]
  rfl

/-! ### An execution under a repeat -/

def Transfer.pointer (tr : Transfer) (op : Word) (c : Ctx) (s : Cpu) : Word :=
  if s.rptFresh then tr.base op c s else s.mvpdSrc

theorem progPointer_eq {c : Ctx} (hact : c.rptActive) (b : Word) (s : Cpu) :
    progPointer b c s = (if s.rptFresh then b else s.mvpdSrc, s.pointing false s.mvpdSrc) := by
  have hrun : progPointer b c s = if (!c.rptActive || s.rptFresh)
      then (b, s.pointing false s.mvpdSrc) else (s.mvpdSrc, s) := Prog.run_ite c s _ _
  rw [hrun, hact]
  cases hfresh : s.rptFresh with
  | true => rfl
  | false =>
    have hsame : s.pointing false s.mvpdSrc = s := by
      rw [← hfresh]
      rfl
    rw [hsame]
    rfl

/-- The shape of the instructions with a program address. -/
def walk (n : Nat) (operand base : Exec Word) (use : Word → Word → Exec Unit) : Exec Nat := do
  let addr ← operand
  let p ← progPointer (← base)
  use addr p
  advancePointer p
  done n

theorem walk_eq {n : Nat} {operand base : Exec Word} {use : Word → Word → Exec Unit} {c : Ctx}
    {s u : Cpu} {addr b p : Word} (hact : c.rptActive) (hoperand : operand c s = (addr, u))
    (hbase : base c u = (b, u)) (hp : (if u.rptFresh then b else u.mvpdSrc) = p)
    (huse : Blind (use addr p)) :
    (walk n operand base use c s).2 = (use addr p c u).2.pointing false (p + 1) := by
  simp only [walk, Prog.run_bind, hoperand, hbase, progPointer_eq hact, hp]
  show (use addr p c (u.pointing false u.mvpdSrc)).2.pointing _ (p + 1) = _
  rw [huse c u false u.mvpdSrc]
  rfl

namespace Transfer

variable {tr : Transfer} {op : Word} {c : Ctx}

/-- The operand concerns the auxiliary registers, ARP and `lk_used`. -/
theorem operand_eq (tr : Transfer) (op : Word) (c : Ctx) (s : Cpu) :
    ∃ ar st0 lk, (tr.operand op c s).2 = { s with ar := ar, st0 := st0, lkUsed := lk } := by
  cases tr with
  | mvkd | mvdk => exact mvkOperand_eq op c s
  | _ => exact resolveSmem_eq op c s

theorem act_eq (tr : Transfer) (op p : Word) (c : Ctx) (s : Cpu) : (tr.act op p c s).2 =
    (tr.use op (tr.operand op c s.start).1 p c (tr.operand op c s.start).2).2 := rfl

theorem pointer_operand (tr : Transfer) (op : Word) (c : Ctx) (s : Cpu) :
    (if (tr.operand op c s.start).2.rptFresh then tr.base op c s
      else (tr.operand op c s.start).2.mvpdSrc) = tr.pointer op c s := by
  obtain ⟨ar, st0, lk, heq⟩ := tr.operand_eq op c s.start
  rw [heq]
  rfl

/-- The base address of the transfers with a constant, once the operand is resolved. -/
theorem fetchOp2_operand (op : Word) (c : Ctx) (s : Cpu) :
    fetchOp2 c (resolveSmem op c s.start).2 =
      (progFetch s ((c.pc + BitVec.ofNat 32 (1 + lkWords op)).setWidth 16),
        (resolveSmem op c s.start).2) := fetchOp2_resolveSmem op c rfl

/-- An instruction with a program address under a repeat. -/
theorem exec_eq_of_walk {n : Nat} {base : Exec Word} (hact : c.rptActive) (s : Cpu)
    (hexec : tr.exec op c s.start =
      walk n (tr.operand op) base (fun addr p => tr.use op addr p) c s.start)
    (hbase : base c (tr.operand op c s.start).2 =
      (tr.base op c s, (tr.operand op c s.start).2)) :
    (tr.exec op c s.start).2 =
      (tr.act op (tr.pointer op c s) c s).2.pointing false (tr.pointer op c s + 1) := by
  rw [hexec, act_eq]
  exact walk_eq hact rfl hbase (pointer_operand tr op c s) (tr.blind_use op _ _)

theorem dmadPointer_eq (hact : c.rptActive) {b p : Word} {u : Cpu}
    (hp : (if u.rptFresh then b else u.mvpdSrc) = p) :
    dmadPointer b c u = (p, u.pointing false (p + 1)) := by
  have hrun : dmadPointer b c u = if c.rptActive
      then ((progPointer b c u).1, (progPointer b c u).2.pointing (progPointer b c u).2.rptFresh
        ((progPointer b c u).1 + 1))
      else (b, u) := Prog.run_ite c u _ _
  rw [hrun, if_pos hact, progPointer_eq hact, hp]
  rfl

theorem exec_eq_of_mvk (hact : c.rptActive) (s : Cpu) (hoperand : tr.operand op = mvkAddr op)
    (hbase : tr.base op c s = progFetch s ((c.pc + BitVec.ofNat 32 (1 + lkWords op)).setWidth 16))
    (hexec : ∀ p u', dmadPointer (mvkOperand op c s.start).1.2 c (mvkOperand op c s.start).2 =
      (p, u') → (tr.exec op c s.start).2 = (tr.use op (mvkOperand op c s.start).1.1 p c u').2) :
    (tr.exec op c s.start).2 =
      (tr.act op (tr.pointer op c s) c s).2.pointing false (tr.pointer op c s + 1) := by
  have hp := pointer_operand tr op c s
  rw [hoperand, hbase] at hp
  have hdmad : (mvkOperand op c s.start).1.2 =
      progFetch s ((c.pc + BitVec.ofNat 32 (1 + lkWords op)).setWidth 16) :=
    mvkOperand_dmad op c s.start
  rw [← hdmad] at hp
  rw [hexec _ _ (dmadPointer_eq hact hp), act_eq, hoperand]
  exact tr.blind_use op _ _ c _ false _

theorem execReada_eq (op : Word) : execReada op =
    walk 1 (resolveSmem op) (do return lowWord (← get).a) (fun addr p => reada.use op addr p) := rfl

theorem execMvpd_eq (op : Word) : execMvpd op =
    walk 2 (resolveSmem op) fetchOp2 (fun addr p => mvpd.use op addr p) := rfl

theorem execMvdp_eq (op : Word) : execMvdp op =
    walk 2 (resolveSmem op) fetchOp2 (fun addr p => mvdp.use op addr p) := rfl

theorem execMacp_eq (h9 : bitSet op 9 = false) : execMacp op =
    walk 2 (resolveSmem op) fetchOp2 (fun addr p => macp.use op addr p) := by
  unfold execMacp
  rw [h9]
  rfl

theorem execMacd_eq (h9 : bitSet op 9) : execMacp op =
    walk 2 (resolveSmem op) fetchOp2 (fun addr p => macd.use op addr p) := by
  unfold execMacp
  rw [h9]
  rfl

section

variable (hop : op &&& tr.mask = tr.value)

include hop

/-- **An execution under a repeat** is the instruction at its pointer, which it moves on. -/
theorem exec_eq (hact : c.rptActive) (s : Cpu) :
    (tr.exec op c s.start).2 =
      (tr.act op (tr.pointer op c s) c s).2.pointing false (tr.pointer op c s + 1) := by
  cases tr with
  | reada =>
    have hbase : (do return lowWord (← get).a : Exec Word) c (resolveSmem op c s.start).2 =
        (lowWord s.a, (resolveSmem op c s.start).2) := by
      obtain ⟨ar, st0, lk, heq⟩ := resolveSmem_eq op c s.start
      rw [heq]
      rfl
    exact exec_eq_of_walk hact s (by rw [exec, execReada_eq]; rfl) hbase
  | mvpd => exact exec_eq_of_walk hact s (by rw [exec, execMvpd_eq]; rfl) (fetchOp2_operand op c s)
  | mvdp => exact exec_eq_of_walk hact s (by rw [exec, execMvdp_eq]; rfl) (fetchOp2_operand op c s)
  | mvkd | mvdk =>
    refine exec_eq_of_mvk hact s rfl rfl fun p u' hdmad => ?_
    simp only [exec, execMvkd, execMvdk, Prog.run_bind, hdmad]
    rfl
  | macp =>
    have h9 : bitSet op 9 = false := by rw [bitSet_of_and hop (by decide)]; rfl
    exact exec_eq_of_walk hact s (by rw [exec, execMacp_eq h9]; rfl) (fetchOp2_operand op c s)
  | macd =>
    have h9 : bitSet op 9 := by rw [bitSet_of_and hop (by decide)]; rfl
    exact exec_eq_of_walk hact s (by rw [exec, execMacd_eq h9]; rfl) (fetchOp2_operand op c s)

theorem decode_eq : decode op = .plain tr.exec := by
  cases tr with
  | macp | macd =>
    have hmac : op &&& 0xFC00 = 0x7800 := and_of_and hop rfl
    exact decode_of_first hmac rfl rfl
  | _ => exact decode_of_first hop rfl rfl

theorem fallsThrough : FallsThrough op :=
  fallsThrough_of_plain (decode_eq hop)

theorem execOp_transfer (hact : c.rptActive) (s : Cpu) :
    (execOp op c s).2 =
      (tr.act op (tr.pointer op c s) c s).2.pointing false (tr.pointer op c s + 1) := by
  have hrun : execOp op c s = (decode op).run op c s.start := rfl
  rw [hrun, decode_eq hop]
  exact exec_eq hop hact s

/-! ### The executions of a repeat -/

theorem pointer_runOp (hact : c.rptActive) (s : Cpu) :
    (runOp c op s).rptFresh = false ∧ (runOp c op s).mvpdSrc = tr.pointer op c s + 1 := by
  obtain ⟨hfresh, hsrc⟩ := pointers_runOp c op s
  rw [hfresh, hsrc, execOp_transfer hop hact]
  exact ⟨rfl, rfl⟩

end

theorem pointer_of_not_fresh {s : Cpu} (h : s.rptFresh = false) :
    tr.pointer op c s = s.mvpdSrc := by
  unfold pointer
  rw [h]
  rfl

/-- **Consecutive addresses.** From a fresh start, the i-th execution is at the base address of the
first one plus i. -/
theorem pointer_iterates (hop : op &&& tr.mask = tr.value) {s : Cpu} {x₀ : Ctx × Cpu}
    {xs : List (Ctx × Cpu)} (hit : Iterates Cpu.pointers op s (x₀ :: xs)) (hs : s.rptFresh)
    {i : Nat} {x : Ctx × Cpu} (hx : (x₀ :: xs)[i]? = some x) :
    tr.pointer op x.1 x.2 = tr.base op x₀.1 x₀.2 + BitVec.ofNat 16 i := by
  obtain ⟨hact, hsame, hrest⟩ := hit
  have hfirst : tr.pointer op x₀.1 x₀.2 = tr.base op x₀.1 x₀.2 := by
    unfold pointer
    rw [(pointers_eq hsame).1.trans hs]
    rfl
  cases i with
  | zero =>
    cases hx
    rw [hfirst, BitVec.add_zero]
  | succ i =>
    obtain ⟨hfresh, hsrc⟩ := pointer_runOp hop hact x₀.2
    -- behind the first execution the repeat is not fresh any more
    have hnext : ∀ (v : Cpu) (y : Ctx × Cpu), v.rptFresh = false → y.1.rptActive →
        y.2.pointers = v.pointers → tr.pointer op y.1 y.2 = v.mvpdSrc ∧
          (runOp y.1 op y.2).rptFresh = false ∧
          (runOp y.1 op y.2).mvpdSrc = tr.pointer op y.1 y.2 + 1 := by
      intro v y hv hy hsame
      obtain ⟨hfresh, hsrc, -⟩ := pointers_eq hsame
      refine ⟨?_, pointer_runOp hop hy y.2⟩
      rw [pointer_of_not_fresh (hfresh.trans hv), hsrc]
    have hrun := hrest.consecutive hnext hfresh hx
    rw [hrun, hsrc, hfirst, add_ofNat_succ]

end Transfer

end Qosmo.C54x
