import Qosmo.C54x.BlockMove

/-!
# Qosmo.C54x.Writa

WRITA, the mirror of READA: a data word is stored in program memory, at the address in A and, under a
repeat, at consecutive addresses from there on.

It shares the pointer of the other transfers, but does not look at `rpt_fresh`: under a repeat every
execution, the first one included, takes the pointer as it stands. So the repeat stores from wherever
the last transfer left the pointer, and the address in A is where it should be only if the two agree
by chance (`writa_reada_iff`).
-/

namespace Qosmo.C54x

open Loc

variable {op k a p : Word} {c : Ctx} {s : Cpu}

/-- WRITA at the program address `p`. -/
def writaAt (op p : Word) : Exec Unit := do
  modify Cpu.start
  let addr ← resolveSmem op
  move (.data addr) (.prog p)
  advancePointer p

/-- The word WRITA reads, behind the operand's effect on the registers. -/
def writaWord (op : Word) (x : Ctx × Cpu) : Word :=
  dataRead (resolveSmem op x.1 x.2.start).2 (resolveSmem op x.1 x.2.start).1

section Execution

variable (hop : op &&& 0xFF00 = 0x7F00)
include hop

theorem decode_writa : decode op = .plain execWrita := decode_of_first hop rfl rfl

theorem fallsThrough_writa : FallsThrough op := fallsThrough_of_plain (decode_writa hop)

/-- Under a repeat the pointer is taken as it stands. -/
theorem execOp_writa (hact : c.rptActive) (s : Cpu) :
    (execOp op c s).2 = (writaAt op s.mvpdSrc c s).2 := by
  have hrun : execOp op c s = (decode op).run op c s.start := rfl
  obtain ⟨ar, st0, lk, hu⟩ := resolveSmem_eq op c s.start
  obtain ⟨u, hudef⟩ : ∃ u, (resolveSmem op c s.start).2 = u := ⟨_, rfl⟩
  have hsrc : u.mvpdSrc = s.mvpdSrc := by
    rw [← hudef, hu]
    rfl
  have hexec : (execWrita op c s.start).2 =
      let p := if c.rptActive then u.mvpdSrc else lowWord u.a
      { progWrite u p (dataRead u (resolveSmem op c s.start).1) with mvpdSrc := p + 1 } := by
    rw [← hudef]
    rfl
  rw [hact, if_pos rfl, hsrc, ← hudef] at hexec
  rw [hrun, decode_writa hop]
  exact hexec

theorem pointer_runOp_writa (hact : c.rptActive) (s : Cpu) :
    (runOp c op s).mvpdSrc = s.mvpdSrc + 1 := by
  rw [(pointers_runOp c op s).2, execOp_writa hop hact]
  rfl

/-- The executions of a repeat start at consecutive addresses, from the pointer on. -/
theorem pointer_iterates_writa {xs : List (Ctx × Cpu)} (hit : Iterates Cpu.pointers op s xs)
    {i : Nat}
    {x : Ctx × Cpu} (hx : xs[i]? = some x) : x.2.mvpdSrc = s.mvpdSrc + BitVec.ofNat 16 i := by
  have hstep : ∀ (v : Cpu) (y : Ctx × Cpu), True → y.1.rptActive →
      y.2.pointers = v.pointers → y.2.mvpdSrc = v.mvpdSrc ∧ True ∧
        (runOp y.1 op y.2).mvpdSrc = y.2.mvpdSrc + 1 := by
    intro v y _ hy hsame
    exact ⟨(pointers_eq hsame).2.1, trivial, pointer_runOp_writa hop hy y.2⟩
  exact hit.consecutive hstep trivial hx

theorem runOp_writa (hact : c.rptActive) (hw : s.mvpdSrc < 0xE000) :
    Stored (Apart s) (.prog s.mvpdSrc) (writaWord op (c, s)) (word s) (word (runOp c op s)) ∧
      (runOp c op s).pmst = s.pmst := by
  obtain ⟨ar, st0, lk, hu⟩ := resolveSmem_eq op c s.start
  obtain ⟨u, hudef⟩ : ∃ u, (resolveSmem op c s.start).2 = u := ⟨_, rfl⟩
  rw [hudef] at hu
  have hmem : u.memory = s.memory := by rw [hu]; rfl
  have hdst : (Loc.prog s.mvpdSrc).Writable := hw
  have hst := stored_write_of_memory hmem c hdst (writaWord op (c, s))
  obtain ⟨data, ram, prog, hwrite⟩ := write_eq c u hdst (writaWord op (c, s))
  obtain ⟨w, hwdef⟩ : ∃ w, (Loc.prog s.mvpdSrc).write c u (writaWord op (c, s)) = w := ⟨_, rfl⟩
  rw [hwdef] at hst hwrite
  have hexec : (execOp op c s).2 = w.pointing w.rptFresh (s.mvpdSrc + 1) := by
    rw [execOp_writa hop hact, ← hwdef, ← hudef]
    rfl
  have hfields : w.a = s.a ∧ w.b = s.b ∧ w.pmst = s.pmst := by
    rw [hwrite, hu]
    exact ⟨rfl, rfl, rfl⟩
  -- the accumulators are as before, so there is no overflow to look for
  have hrun : runOp c op s = _ := (overflowPass_of_eq (by rw [hexec]; exact hfields.1)
    (by rw [hexec]; exact hfields.2.1)).trans hexec
  rw [hrun]
  refine ⟨⟨?_, fun l hl => ?_⟩, hfields.2.2⟩
  · rw [word_pointing, hst.word]
  · rw [word_pointing, hst.rest l hl]

end Execution

/-! ### The block in program memory -/

/-- The core behind the stores of `i` words from `p` on. -/
structure Written (v₀ : Cpu) (p : Word) (val : Nat → Word) (i : Nat) (v : Cpu) : Prop where
  filled : Filled (Apart v₀) (fun j => .prog (p + BitVec.ofNat 16 j)) val (word v₀) (word v) i
  pmst : v.pmst = v₀.pmst

theorem Written.step (hop : op &&& 0xFF00 = 0x7F00) {v₀ v : Cpu} {val : Nat → Word} {i : Nat}
    (h : Written v₀ p val i v) (hi : i < 2 ^ 16) {y : Ctx × Cpu} (hact : y.1.rptActive)
    (hwork : y.2.working = v.working) (hsrc : y.2.mvpdSrc = p + BitVec.ofNat 16 i)
    (hval : writaWord op y = val i) (hw : p + BitVec.ofNat 16 i < 0xE000) :
    Written v₀ p val (i + 1) (runOp y.1 op y.2) := by
  have hmem : y.2.memory = v.memory := (congrArg (fun w : Cpu => w.memory) hwork :)
  have hpmst : y.2.pmst = v₀.pmst := (congrArg Cpu.pmst hwork).trans h.pmst
  obtain ⟨hst, hpmst'⟩ := runOp_writa hop hact (s := y.2) (by rwa [hsrc])
  rw [hsrc, show writaWord op (y.1, y.2) = val i from hval] at hst
  have hstored : Stored (Apart v₀) (.prog (p + BitVec.ofNat 16 i)) (val i) (word v)
      (word (runOp y.1 op y.2)) := by
    refine ⟨hst.word, fun l hl => ?_⟩
    rw [hst.rest l ((apart_of_pmst hpmst l _).mpr hl), word_of_memory hmem hl.1]
  refine ⟨h.filled.succ hstored fun j hj => ⟨trivial, fun hsame => ?_⟩, hpmst'.trans hpmst⟩
  exact absurd (eq_of_add_ofNat (by omega) hi hsame) (by omega)

/-- Behind the repeat the word of the i-th execution is at the i-th address. -/
theorem progFetch_of_writa (hop : op &&& 0xFF00 = 0x7F00) {v : Cpu} {x₀ : Ctx × Cpu}
    {xs : List (Ctx × Cpu)} (hlen : xs.length = k.toNat)
    (hit : Iterates Cpu.pointers op v (x₀ :: xs)) (hwork : Iterates Cpu.working op v (x₀ :: xs))
    (hw : ∀ i ≤ k.toNat, v.mvpdSrc + BitVec.ofNat 16 i < 0xE000) {i : Nat} {x : Ctx × Cpu}
    (hx : (x₀ :: xs)[i]? = some x) :
    progFetch (afterwards op x₀.2 (x₀ :: xs)) (v.mvpdSrc + BitVec.ofNat 16 i) = writaWord op x := by
  have hk := k.isLt
  obtain ⟨val, hval⟩ : ∃ val : Nat → Word, ∀ j y, (x₀ :: xs)[j]? = some y → writaWord op y = val j :=
    ⟨fun j => (((x₀ :: xs)[j]?).map (writaWord op)).getD 0, fun j y hy => by simp only [hy]; rfl⟩
  have hend := (hwork.congr hwork.2.1.symm).invariant (P := Written x₀.2 v.mvpdSrc val)
    (Q := fun j y => y.2.mvpdSrc = v.mvpdSrc + BitVec.ofNat 16 j ∧ writaWord op y = val j)
    (fun j u y hj hu hact hsame hy =>
      hu.step hop (Nat.lt_of_lt_of_le hj hk) hact hsame hy.1 hy.2 (hw j (Nat.le_of_lt_succ hj)))
    ⟨.zero, rfl⟩
    (fun j y hy => by
      rw [Nat.zero_add]
      exact ⟨pointer_iterates_writa hop hit hy, hval j y hy⟩)
    (by rw [List.length_cons, hlen, Nat.zero_add])
  have hi : i < 0 + (x₀ :: xs).length := by
    rw [Nat.zero_add]
    exact (List.getElem?_eq_some_iff.mp hx).1
  exact (hend.filled.word i hi).trans (hval i x hx).symm

/-! ### There and back -/

/-- The executions of a repeat with count `k` in a run in which nobody else stores into the memory. -/
def RepeatRun (k op : Word) (xs : List (Ctx × Cpu)) : Prop :=
  ∃ (g : Gates) (bus : Bus) (s : State) (es : List Event), ArmsRepeat g bus s k ∧
    (core g).Along (RepeatSafe g op) (pass g bus s).1 es ∧
    (core g).Along Undisturbed (pass g bus s).1 es ∧ passes es = k.toNat + 1 ∧
    (instances g).trace (pass g bus s).1 es = xs

/-- RPT #k and READA from the address `a` into the words `dst`, with the program words there as in
the core `w`. -/
structure ReadBack (k a op : Word) (w : Cpu) (y₀ : Ctx × Cpu) (ys : List (Ctx × Cpu))
    (dst : Nat → Loc) : Prop where
  reada : op &&& 0xFF00 = 0x7E00
  run : RepeatRun k op (y₀ :: ys)
  same_a : lowWord y₀.2.a = a
  kept : ∀ i ≤ k.toNat, progFetch y₀.2 (a + BitVec.ofNat 16 i) = progFetch w (a + BitVec.ofNat 16 i)
  block : Block .reada op y₀ k.toNat (fun i => .prog (a + BitVec.ofNat 16 i)) dst

/-- What RPT #k and WRITA are for: the i-th execution stores at the address `a` plus i, and where
that can be written, READA from `a` returns the words. -/
structure RoundTrip (g : Gates) (s : State) (es : List Event) (k a op : Word) (x₀ : Ctx × Cpu)
    (xs : List (Ctx × Cpu)) : Prop where
  stores : ∀ i x, (x₀ :: xs)[i]? = some x →
    (execOp op x.1 x.2).2 = (writaAt op (a + BitVec.ofNat 16 i) x.1 x.2).2
  returns : (core g).Along Undisturbed s es → (∀ i ≤ k.toNat, a + BitVec.ofNat 16 i < 0xE000) →
    ∀ op' y₀ ys dst, ReadBack k a op' (afterwards op x₀.2 (x₀ :: xs)) y₀ ys dst →
      ∀ i x, (x₀ :: xs)[i]? = some x →
        (dst i).word (afterwards op' y₀.2 (y₀ :: ys)) = writaWord op x

/-- READA returns the program words. -/
theorem ReadBack.word_eq {w : Cpu} {y₀ : Ctx × Cpu} {ys : List (Ctx × Cpu)} {dst : Nat → Loc}
    (h : ReadBack k a op w y₀ ys dst) {i : Nat} (hi : i ≤ k.toNat) :
    (dst i).word (afterwards op y₀.2 (y₀ :: ys)) = progFetch w (a + BitVec.ofNat 16 i) := by
  have hop : op &&& Transfer.reada.mask = Transfer.reada.value := h.reada
  obtain ⟨g, bus, s, es, harm, hsafe, hund, hn, htrace⟩ := h.run
  obtain ⟨x₀, xs, htrace', hlen, hit, hwork⟩ :=
    harm.iterates (Transfer.fallsThrough hop) hsafe hn
  obtain ⟨rfl, rfl⟩ := List.cons.inj (htrace.symm.trans htrace')
  have hfilled := h.block.copied k.isLt hop hlen harm.rptFresh hit (hwork hund)
  exact (hfilled.word i (Nat.lt_succ_of_le hi)).trans (h.kept i hi)

/-- Storing at A means that the pointer was there. -/
theorem pointer_of_stores (hop : op &&& 0xFF00 = 0x7F00) (hact : c.rptActive)
    (h : (execOp op c s).2 = (writaAt op a c s).2) : s.mvpdSrc = a := by
  rw [execOp_writa hop hact] at h
  exact (BitVec.add_left_inj 1).mp (congrArg Cpu.mvpdSrc h)

/-- STM #0x2900, AL; RPT #0; WRITA *AR1+. -/
def writaProgram : List Word := [0x7708, 0x2900, 0xEC00, 0x7F91]

def atWrita : State := (pass ⟨false⟩ .quiet (pass ⟨false⟩ .quiet (boot writaProgram)).1).1

end Qosmo.C54x
