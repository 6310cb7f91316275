import Qosmo.C54x.Pointer

/-!
# Qosmo.C54x.BlockMove

Block transfers: RPT and one of READA, MVPD, MVDP, MVKD and MVDK with an operand *ARn+.

Each execution moves one word from or to the address in the pointer, and the operand goes up with
it (`runOp_moves`). With ranges that do not overlap, the words found at the source by the first
execution are at the destination behind the last one (`Block.copied`). MACP and MACD use the
words of the program range in the same order (`repeated_transfer`).
-/

namespace Qosmo.C54x

open BitVec Loc

variable {tr : Transfer} {op p d : Word} {c : Ctx} {s x : Cpu} {src dst : Loc}

/-! ### One word -/

/-- Where a transfer takes its word from and where it stores it, if it only moves a word. -/
def Transfer.ends (addr p : Word) : Transfer → Option (Loc × Loc)
  | .reada | .mvpd => some (.prog p, .data addr)
  | .mvdp => some (.data addr, .prog p)
  | .mvkd => some (.data p, .data addr)
  | .mvdk => some (.data addr, .data p)
  | .macp | .macd => none

theorem Transfer.use_of_ends {addr : Word} (h : tr.ends addr p = some (src, dst)) :
    tr.use op addr p = move src dst := by
  cases tr <;> cases h <;> rfl

/-- The operand is *ARn+. -/
def PostInc (op : Word) : Prop := op &&& 0xF8 = 0x90

instance (op : Word) : Decidable (PostInc op) := inferInstanceAs (Decidable (_ = _))

section PostInc

variable (hmode : PostInc op)
include hmode

theorem PostInc.indirect : bitSet op 7 := by
  rw [bitSet_of_and hmode (by decide)]
  rfl

theorem PostInc.modOf : modOf op = 2 := by
  have hshift : ((op >>> 3) &&& 0xF : Word) = (op &&& 0x78) >>> 3 := by
    rw [ushiftRight_and_distrib]
    rfl
  have hmid : op &&& 0x78 = 0x10 := and_of_and hmode rfl
  unfold C54x.modOf
  rw [hshift, hmid]
  rfl

/-- The operand is in the register, which goes up by one. -/
theorem PostInc.resolved_operand (tr : Transfer) (c : Ctx) (s : Cpu) :
    resolved (tr.operand op) c s = ⟨s.ar (currentAr s op),
      Function.update s.ar (currentAr s op) (s.ar (currentAr s op) + 1), nextArp s op⟩ := by
  have hmod := hmode.modOf
  have hsmem : resolved (resolveSmem op) c s = ⟨s.ar (currentAr s op),
      Function.update s.ar (currentAr s op) (s.ar (currentAr s op) + 1), nextArp s op⟩ := by
    rw [← resolveSmemBy_one, resolved_smemBy hmode.indirect, resolved_indirectAccess]
    unfold access
    rw [hmod]
    rfl
  have hmvk : resolved (mvkAddr op) c s = resolved (resolveSmem op) c s :=
    resolved_mvk (fun h => absurd h.2 (by omega)) c s
  cases tr with
  | mvkd | mvdk => exact hmvk.trans hsmem
  | _ => exact hsmem

end PostInc

theorem currentAr_congr (hst1 : s.st1 = x.st1) (harp : s.arp = nextArp x op) :
    currentAr s op = currentAr x op := by
  unfold currentAr
  rw [hst1, harp]
  by_cases hnar : narOf op = 0
  · rw [nextArp_of_zero hnar]
  · have hbeq : (narOf op == 0) = false := beq_eq_false_iff_ne.mpr hnar
    simp only [hbeq, Bool.and_false, Bool.false_eq_true, if_false]

/-- What one word of a block transfer leaves: the word moved, and the operand at the next one. -/
structure MovesWord (op : Word) (src dst : Loc) (x s : Cpu) : Prop where
  stored : Stored (Apart x) dst (src.word x) (word x) (word s)
  ar : s.ar (currentAr x op) = x.ar (currentAr x op) + 1
  current : currentAr s op = currentAr x op
  pmst : s.pmst = x.pmst

theorem act_moves (hmode : PostInc op) (hends : tr.ends (x.ar (currentAr x op)) p = some (src, dst))
    (hsrc : src.IsWord) (hdst : dst.Writable) :
    MovesWord op src dst x (tr.act op p c x).2 ∧ (tr.act op p c x).2.a = x.a ∧
      (tr.act op p c x).2.b = x.b := by
  have hres : resolved (tr.operand op) c x.start = ⟨x.ar (currentAr x op),
      Function.update x.ar (currentAr x op) (x.ar (currentAr x op) + 1), nextArp x op⟩ :=
    hmode.resolved_operand tr c x.start
  simp only [resolved, Resolved.mk.injEq] at hres
  obtain ⟨haddr, har, harp⟩ := hres
  obtain ⟨ars, st0, lk, hu⟩ := tr.operand_eq op c x.start
  obtain ⟨u, hudef⟩ : ∃ u, (tr.operand op c x.start).2 = u := ⟨_, rfl⟩
  have hact : (tr.act op p c x).2 = dst.write c u (src.word u) := by
    rw [tr.act_eq, haddr, tr.use_of_ends hends, hudef]
    rfl
  rw [hudef] at har harp hu
  have hmem : u.memory = x.memory := by rw [hu]; rfl
  have hst := stored_write_of_memory hmem c hdst (src.word u)
  rw [word_of_memory hmem hsrc] at hst
  obtain ⟨data, ram, prog, hw⟩ := write_eq c u hdst (src.word u)
  have hfields : u.pmst = x.pmst ∧ u.st1 = x.st1 ∧ u.a = x.a ∧ u.b = x.b := by
    rw [hu]
    exact ⟨rfl, rfl, rfl, rfl⟩
  rw [hact]
  refine ⟨⟨?_, ?_, ?_, ?_⟩, ?_, ?_⟩
  · rwa [word_of_memory hmem hsrc]
  · rw [hw]
    show u.ar (currentAr x op) = _
    rw [har]
    exact Function.update_self _ _ _
  · rw [hw]
    exact currentAr_congr (x := x) hfields.2.1 harp
  · rw [hw]
    exact hfields.1
  · rw [hw]
    exact hfields.2.2.1
  · rw [hw]
    exact hfields.2.2.2

theorem runOp_moves (hop : op &&& tr.mask = tr.value) (hact : c.rptActive)
    (hmode : PostInc op)
    (hends : tr.ends (x.ar (currentAr x op)) (tr.pointer op c x) = some (src, dst))
    (hsrc : src.IsWord) (hdst : dst.Writable) : MovesWord op src dst x (runOp c op x) := by
  obtain ⟨hmoves, ha, hb⟩ := act_moves (c := c) hmode hends hsrc hdst
  have hexec := Transfer.execOp_transfer hop hact x
  -- the accumulators are as before, so there is no overflow to look for
  have hrun : runOp c op x = _ := (overflowPass_of_eq (by rw [hexec]; exact ha)
    (by rw [hexec]; exact hb)).trans hexec
  rw [hrun]
  refine ⟨⟨?_, fun l hl => ?_⟩, hmoves.ar, hmoves.current, hmoves.pmst⟩
  · rw [word_pointing, hmoves.stored.word]
  · rw [word_pointing, hmoves.stored.rest l hl]

/-! ### The whole block -/

/-- A block transfer of k + 1 words that finds `x₀` first: `src` and `dst` are its two ranges, from
the operand and from the base address on. They are words of memory and do not overlap. -/
structure Block (tr : Transfer) (op : Word) (x₀ : Ctx × Cpu) (k : Nat) (src dst : Nat → Loc) :
    Prop where
  mode : PostInc op
  ends : ∀ i ≤ k, tr.ends (x₀.2.ar (currentAr x₀.2 op) + BitVec.ofNat 16 i)
    (tr.base op x₀.1 x₀.2 + BitVec.ofNat 16 i) = some (src i, dst i)
  isWord : ∀ i ≤ k, (src i).IsWord
  writable : ∀ i ≤ k, (dst i).Writable
  apart : ∀ i ≤ k, ∀ j ≤ k, ¬ Overlaps x₀.2 (src i) (dst j)

theorem eq_of_overlaps {d' p' : Word} {src' dst' : Loc}
    (h : tr.ends d p = some (src, dst)) (h' : tr.ends d' p' = some (src', dst'))
    (hover : Overlaps x dst dst') : d = d' ∨ p = p' := by
  cases tr <;> cases h <;> cases h' <;> first | exact .inl hover | exact .inr hover

theorem eq_of_add_ofNat {b : Word} {i j : Nat} (hi : i < 2 ^ 16) (hj : j < 2 ^ 16)
    (h : b + BitVec.ofNat 16 i = b + BitVec.ofNat 16 j) : i = j := by
  have hofNat := congrArg BitVec.toNat ((add_right_inj b).mp h)
  rw [toNat_ofNat, toNat_ofNat] at hofNat
  omega

/-- The core behind `i` words of the block. -/
structure Progress (op : Word) (x₀ : Cpu) (src dst : Nat → Loc) (i : Nat) (s : Cpu) : Prop where
  filled : Filled (Apart x₀) dst (fun j => (src j).word x₀) (word x₀) (word s) i
  ar : s.ar (currentAr x₀ op) = x₀.ar (currentAr x₀ op) + BitVec.ofNat 16 i
  current : currentAr s op = currentAr x₀ op
  pmst : s.pmst = x₀.pmst

theorem progress_zero (x : Cpu) (src dst : Nat → Loc) : Progress op x src dst 0 x :=
  ⟨.zero, (BitVec.add_zero _).symm, rfl, rfl⟩

section Block

variable {x₀ : Ctx × Cpu} {k : Nat} {src dst : Nat → Loc} (hblock : Block tr op x₀ k src dst)
include hblock

theorem Block.dst_apart (hk : k < 2 ^ 16) {i j : Nat} (hi : i ≤ k) (hj : j < i) :
    Apart x₀.2 (dst j) (dst i) := by
  refine ⟨(hblock.writable j (by omega)).isWord, fun hover => ?_⟩
  rcases eq_of_overlaps (hblock.ends j (by omega)) (hblock.ends i hi) hover with h | h
  · exact absurd (eq_of_add_ofNat (by omega) (by omega) h) (by omega)
  · exact absurd (eq_of_add_ofNat (by omega) (by omega) h) (by omega)

theorem Block.step (hk : k < 2 ^ 16) (hop : op &&& tr.mask = tr.value) {i : Nat} (hi : i ≤ k)
    (hs : Progress op x₀.2 src dst i s) {y : Ctx × Cpu} (hact : y.1.rptActive)
    (hwork : y.2.working = s.working)
    (hptr : tr.pointer op y.1 y.2 = tr.base op x₀.1 x₀.2 + BitVec.ofNat 16 i) :
    Progress op x₀.2 src dst (i + 1) (runOp y.1 op y.2) := by
  -- the execution finds the core `s` as far as the transfer is concerned
  have hmem : y.2.memory = s.memory := (congrArg (fun v : Cpu => v.memory) hwork :)
  have hcur : currentAr y.2 op = currentAr x₀.2 op :=
    (congrArg (currentAr · op) hwork).trans hs.current
  have har : y.2.ar (currentAr x₀.2 op) = _ :=
    (congrFun (congrArg Cpu.ar hwork) _).trans hs.ar
  have hpmst : y.2.pmst = x₀.2.pmst := (congrArg Cpu.pmst hwork).trans hs.pmst
  have hends : tr.ends (y.2.ar (currentAr y.2 op)) (tr.pointer op y.1 y.2) =
      some (src i, dst i) := by
    rw [hcur, har, hptr]
    exact hblock.ends i hi
  have hmoves := runOp_moves hop hact hblock.mode hends (hblock.isWord i hi) (hblock.writable i hi)
  have hstored : Stored (Apart x₀.2) (dst i) ((src i).word s) (word s)
      (word (runOp y.1 op y.2)) := by
    constructor
    · rw [hmoves.stored.word, word_of_memory hmem (hblock.isWord i hi)]
    · intro l hl
      rw [hmoves.stored.rest l ((apart_of_pmst hpmst l _).mpr hl), word_of_memory hmem hl.1]
  refine ⟨hs.filled.copy_succ hstored ?_ ?_, ?_, ?_, ?_⟩
  · intro j hj
    exact ⟨hblock.isWord i hi, hblock.apart i hi j (by omega)⟩
  · intro j hj
    exact hblock.dst_apart hk hi hj
  · rw [← hcur, hmoves.ar, hcur, har, BitVec.add_assoc, ofNat_add]
    rfl
  · rw [hmoves.current, hcur]
  · rw [hmoves.pmst, hpmst]

theorem Block.copied (hk : k < 2 ^ 16) (hop : op &&& tr.mask = tr.value) {v : Cpu}
    {xs : List (Ctx × Cpu)} (hlen : xs.length = k) (hfresh : v.rptFresh)
    (hit : Iterates Cpu.pointers op v (x₀ :: xs)) (hwork : Iterates Cpu.working op v (x₀ :: xs)) :
    Filled (Apart x₀.2) dst (fun j => (src j).word x₀.2) (word x₀.2)
      (word (afterwards op x₀.2 (x₀ :: xs))) (k + 1) := by
  have hend := (hwork.congr hwork.2.1.symm).invariant (P := Progress op x₀.2 src dst)
    (Q := fun i y => tr.pointer op y.1 y.2 = tr.base op x₀.1 x₀.2 + BitVec.ofNat 16 i)
    (fun i v y hi hv hact hsame hptr =>
      hblock.step hk hop (Nat.le_of_lt_succ hi) hv hact hsame hptr)
    (progress_zero x₀.2 src dst)
    (fun j y hy => by rw [Nat.zero_add, Transfer.pointer_iterates hop hit hfresh hy])
    (by rw [List.length_cons, hlen, Nat.zero_add])
  rw [List.length_cons, hlen, Nat.zero_add] at hend
  exact hend.filled

end Block

/-! ### RPT and a transfer -/

/-- **Repeated transfers.** RPT #k and a transfer execute it k + 1 times, and the i-th execution is
the instruction at its base address plus i, whatever the pointer was before. So if nobody else
stores into the memory, a block transfer leaves the words of the source range in the destination
range and every other word as it was. -/
theorem repeated_transfer (tr : Transfer) (g : Gates) (bus : Bus) (s : State) (k op : Word)
    (es : List Event) (hop : op &&& tr.mask = tr.value) (harm : ArmsRepeat g bus s k)
    (hsafe : (core g).Along (RepeatSafe g op) (pass g bus s).1 es)
    (hn : passes es = k.toNat + 1) :
    ∃ x₀ xs, (instances g).trace (pass g bus s).1 es = x₀ :: xs ∧ xs.length = k.toNat ∧
      (∀ i x, (x₀ :: xs)[i]? = some x →
        let p := tr.base op x₀.1 x₀.2 + BitVec.ofNat 16 i
        (execOp op x.1 x.2).2 = (tr.act op p x.1 x.2).2.pointing false (p + 1)) ∧
      ((core g).Along Undisturbed (pass g bus s).1 es →
        ∀ src dst, Block tr op x₀ k.toNat src dst →
          let behind := afterwards op x₀.2 (x₀ :: xs)
          (∀ i ≤ k.toNat, (dst i).word behind = (src i).word x₀.2) ∧
          ∀ l : Loc, l.IsWord → (∀ i ≤ k.toNat, ¬ Overlaps x₀.2 l (dst i)) →
            l.word behind = l.word x₀.2) := by
  obtain ⟨x₀, xs, htrace, hlen, hit, hwork⟩ :=
    harm.iterates (Transfer.fallsThrough hop) hsafe hn
  refine ⟨x₀, xs, htrace, hlen, ?_, ?_⟩
  · intro i x hx p
    rw [Transfer.execOp_transfer hop (hit.rptActive hx),
      Transfer.pointer_iterates hop hit harm.rptFresh hx]
  · intro hund src dst hblock behind
    have hfilled := hblock.copied k.isLt hop hlen harm.rptFresh hit (hwork hund)
    constructor
    · intro i hi
      exact hfilled.word i (Nat.lt_succ_of_le hi)
    · intro l hl hover
      exact hfilled.rest l fun j hj => ⟨hl, hover j (Nat.le_of_lt_succ hj)⟩

/-- RPT #1; MVPD 0xFF84, *AR1+ and the two words it copies. -/
def mvpdProgram : List Word := [0xEC01, 0x7C91, 0xFF84, 0xF495, 0x1234, 0x5678]

/-- The second word is read at 0xFF85 and arrives at 0x0060; AR1 is 0x005F after reset. -/
theorem repeated_mvpd :
    ∃ x₀ xs, (instances ⟨false⟩).trace (pass ⟨false⟩ .quiet (boot mvpdProgram)).1
        [.pass .quiet, .pass .quiet] = x₀ :: xs ∧
      dataRead (afterwards 0x7C91 x₀.2 (x₀ :: xs)) 0x0060 = 0x5678 := by
  obtain ⟨x₀, xs, htrace, -, -, hcopy⟩ := repeated_transfer .mvpd ⟨false⟩ .quiet (boot mvpdProgram)
    1 0x7C91 [.pass .quiet, .pass .quiet] (by decide)
    ⟨by decide +kernel, by decide +kernel, by decide +kernel, 1, by decide +kernel⟩
    (by decide +kernel) rfl
  have hfirst : (((instances ⟨false⟩).trace (pass ⟨false⟩ .quiet (boot mvpdProgram)).1
      [.pass .quiet, .pass .quiet]).head?.all fun x => decide (
        x.2.ar (currentAr x.2 0x7C91) = 0x005F ∧ Transfer.mvpd.base 0x7C91 x.1 x.2 = 0xFF84 ∧
        progFetch x.2 0xFF85 = 0x5678)) = true := by decide +kernel
  rw [htrace] at hfirst
  obtain ⟨har, hbase, hword⟩ := of_decide_eq_true hfirst
  have hne : ∀ i ≤ (1 : Word).toNat, ∀ j ≤ (1 : Word).toNat,
      (0xFF84 + BitVec.ofNat 16 i : Word) ≠ 0x005F + BitVec.ofNat 16 j := by decide
  have hblock : Block .mvpd 0x7C91 x₀ (1 : Word).toNat
      (fun i => .prog (0xFF84 + BitVec.ofNat 16 i)) (fun i => .data (0x005F + BitVec.ofNat 16 i)) :=
    { mode := by decide
      ends := fun i _ => by rw [har, hbase]; rfl
      isWord := fun _ _ => trivial
      writable := by decide
      apart := fun i hi j hj h => hne i hi j hj h.1 }
  exact ⟨x₀, xs, htrace, ((hcopy (by decide +kernel) _ _ hblock).1 1 (by decide)).trans hword⟩

end Qosmo.C54x
