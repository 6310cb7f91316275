import Qosmo.C54x.Operand
import Qosmo.Lib.Reverse
import Mathlib.Data.Nat.Log
import Mathlib.Tactic.IntervalCases

/-!
# Qosmo.C54x.Addressing

Sequences of operand references in the circular and the bit-reversed modes.

A reference goes through `resolve_smem`, `resolve_lmem`, one of the two dual operands or
`c54x_par_postmod` alone. Each is one access through one auxiliary register (`Ref.register`), so
two facts carry the module: what `c54x_circ_ref` does to a register inside its buffer, and what
`c54x_revcarry` is, addition on the reversed words.
-/

namespace Qosmo.C54x

open BitVec List Prog

/-! ### References -/

/-- One operand reference. -/
inductive Ref where
  /-- `resolve_smem` -/
  | smem (op : Word)
  /-- `resolve_lmem` -/
  | lmem (op : Word)
  /-- the dual operand in bits 7..4 -/
  | xmem (op : Word)
  /-- the dual operand in bits 3..0 -/
  | ymem (op : Word)
  /-- `c54x_par_postmod` -/
  | post (n : BitVec 3) (mod : Nat)

namespace Ref

/-- The reference; the address is the one used. -/
def run : Ref → Exec Word
  | .smem op => resolveSmem op
  | .lmem op => resolveLmem op
  | .xmem op => resolveXmem op
  | .ymem op => resolveYmem op
  | .post n mod => do
    let addr := (← get).ar n
    parPostmod n mod
    return addr

def dualAr (f : Word) : BitVec 3 := (f &&& 3).setWidth 3 + 2

def dualMod (f : Word) : Nat := ((f >>> 2) &&& 3).toNat

def register (s : Cpu) : Ref → BitVec 3
  | .smem op => currentAr s op
  | .lmem op => narOf op
  | .xmem op => dualAr (op >>> 4)
  | .ymem op => dualAr op
  | .post n _ => n

def circMode (mod step : Nat) (ar0 lk : Word) : Option Int :=
  match mod with
  | 0x8 => some (-step)
  | 0x9 => some (-ar0.toInt)
  | 0xA => some step
  | 0xB => some ar0.toInt
  | 0xE => some lk.toInt
  | _ => none

/-- The step of a circular post-modification. -/
def circDual (mod : Nat) (ar0 : Word) : Option Int := if mod = 3 then some ar0.toInt else none

def circStep (c : Ctx) (s : Cpu) : Ref → Option Int
  | .smem op => if bitSet op 7 then circMode (modOf op) 1 (s.ar 0) (lkOf c s) else none
  | .lmem op => if bitSet op 7 then circMode (modOf op) 2 (s.ar 0) (lkOf c s) else none
  | .xmem op => circDual (dualMod (op >>> 4)) (s.ar 0)
  | .ymem op => circDual (dualMod op) (s.ar 0)
  | .post _ mod => circDual mod (s.ar 0)

end Ref

/-- References one after the other, each in the context of its instruction; the observations are
the addresses used. -/
def refs : Machine Cpu (Ctx × Ref) Word := ⟨fun s e => ((e.2.run e.1 s).2, [(e.2.run e.1 s).1])⟩

/-! ### Circular references -/

/-- The register goes through `c54x_circ_ref`, everything the next reference reads stays. -/
structure CircAccess (s t : Cpu) (n : BitVec 3) (d : Int) : Prop where
  ar : t.ar = Function.update s.ar n (circRef (s.ar n) d s.bk)
  bk : t.bk = s.bk

variable {d : Int} {ar : Word}

theorem indirect_of_circMode {mod step : Nat} {ar0 bk lk : Word}
    (h : Ref.circMode mod step ar0 lk = some d) :
    (indirect mod step ar ar0 bk lk).1 = circRef ar d bk := by
  unfold Ref.circMode at h
  split at h
  case h_6 => cases h
  all_goals
    cases h
    rfl

theorem keeps_bk_resolveSmem (bk op : Word) : Keeps (fun s => s.bk = bk) (resolveSmem op) := by
  refine keeps_get_bind fun s _ => keeps_ite ?_ (keeps_pure _)
  refine keeps_bind (fun _ _ hs => hs) fun addr => keeps_ite ?_ (keeps_pure addr)
  exact keeps_bind (keeps_modify fun _ hs => hs) fun _ => keeps_pure addr

theorem circAccess_indirectAccess {op : Word} {step : Nat} {c : Ctx} {s : Cpu}
    (n : BitVec 3) (h : Ref.circMode (modOf op) step (s.ar 0) (lkOf c s) = some d) :
    CircAccess s (indirectAccess op n step c s).2 n d := by
  refine ⟨?_, rfl⟩
  show Function.update s.ar n (indirect (modOf op) step (s.ar n) (s.ar 0) s.bk (lkOf c s)).1 = _
  rw [indirect_of_circMode h]

theorem circAccess_parPostmod {n : BitVec 3} {mod : Nat} {s : Cpu} (c : Ctx)
    (h : Ref.circDual mod (s.ar 0) = some d) : CircAccess s (parPostmod n mod c s).2 n d := by
  unfold Ref.circDual at h
  split at h
  · rename_i hmod
    cases h
    rw [hmod]
    exact ⟨rfl, rfl⟩
  · cases h

/-- Every circular reference is a circular access through its register. -/
theorem circAccess_run {r : Ref} {c : Ctx} {s : Cpu} (h : r.circStep c s = some d) :
    CircAccess s (r.run c s).2 (r.register s) d := by
  cases r with
  | smem op =>
    simp only [Ref.circStep] at h
    split at h
    · rename_i hind
      have hres := congrArg Resolved.ar (resolved_smemBy hind 1 c s)
      refine ⟨?_, keeps_bk_resolveSmem s.bk op c s rfl⟩
      exact hres.trans (circAccess_indirectAccess (currentAr s op) h).ar
    · cases h
  | lmem op =>
    simp only [Ref.circStep] at h
    split at h
    · rename_i hind
      have hrun : (Ref.lmem op).run c s = indirectAccess op (narOf op) 2 c s := by
        simp only [Ref.run, resolveLmem, hind, if_true]
        rfl
      rw [hrun]
      exact circAccess_indirectAccess _ h
    · cases h
  | xmem op | ymem op | post n mod => exact circAccess_parPostmod c h

/-! ### The circular buffer -/

/-- The number of address bits of a buffer of BK words: `2 ^ N` is the least power of two that
is at least BK. -/
def bufferBits (bk : Word) : Nat := Nat.clog 2 bk.toNat

/-- A register with its low N bits cleared. -/
def bufferBase (bk ar : Word) : Nat := ar.toNat / 2 ^ bufferBits bk * 2 ^ bufferBits bk

/-- Its low N bits. -/
def bufferIndex (bk ar : Word) : Nat := ar.toNat % 2 ^ bufferBits bk

theorem bufferBits_le (bk : Word) : bufferBits bk ≤ 16 :=
  Nat.clog_le_of_le_pow (Nat.le_of_lt bk.isLt)

theorem le_two_pow_bufferBits (bk : Word) : bk.toNat ≤ 2 ^ bufferBits bk :=
  Nat.le_pow_clog Nat.one_lt_two _

/-- The loop of `c54x_circ_ref` finds the least power of two. -/
theorem circBits_eq (bk : Word) : circBits bk = bufferBits bk := by
  have hlt : bufferBits bk < (List.range 17).length := by
    rw [length_range]
    exact Nat.lt_succ_of_le (bufferBits_le bk)
  unfold circBits
  rw [findIdx_eq hlt]
  constructor
  · rw [getElem_range, decide_eq_true_eq]
    exact le_two_pow_bufferBits bk
  · intro j hj
    rw [getElem_range, decide_eq_false_iff_not, Nat.not_le]
    exact Nat.pow_lt_of_lt_clog hj

theorem bufferBase_add_index (bk ar : Word) : bufferBase bk ar + bufferIndex bk ar = ar.toNat :=
  Nat.div_add_mod' _ _

theorem toNat_and_masque (bk ar : Word) :
    (ar &&& BitVec.ofNat 16 (2 ^ bufferBits bk - 1)).toNat = bufferIndex bk ar := by
  have hpow : 2 ^ bufferBits bk ≤ 2 ^ 16 := Nat.pow_le_pow_right (by decide) (bufferBits_le bk)
  have hpos : 0 < 2 ^ bufferBits bk := Nat.two_pow_pos _
  rw [toNat_and, toNat_ofNat, Nat.mod_eq_of_lt (by omega),
    Nat.and_two_pow_sub_one_eq_mod]
  rfl

theorem toNat_and_not_masque (bk ar : Word) :
    (ar &&& ~~~ BitVec.ofNat 16 (2 ^ bufferBits bk - 1)).toNat = bufferBase bk ar := by
  have hsplit := congrArg BitVec.toNat
    (and_not_add_and ar (BitVec.ofNat 16 (2 ^ bufferBits bk - 1)))
  have hle : (ar &&& ~~~ BitVec.ofNat 16 (2 ^ bufferBits bk - 1)).toNat ≤ ar.toNat := by
    rw [toNat_and]
    exact Nat.and_le_left
  have hadd := bufferBase_add_index bk ar
  have hlt := ar.isLt
  rw [toNat_add, toNat_and_masque] at hsplit
  omega

theorem bufferBase_add_le (bk ar : Word) : bufferBase bk ar + 2 ^ bufferBits bk ≤ 2 ^ 16 := by
  have hpow : 2 ^ 16 = 2 ^ bufferBits bk * 2 ^ (16 - bufferBits bk) := by
    rw [← Nat.pow_add, Nat.add_sub_cancel' (bufferBits_le bk)]
  have hlt : ar.toNat < 2 ^ bufferBits bk * 2 ^ (16 - bufferBits bk) := hpow ▸ ar.isLt
  have hdiv : ar.toNat / 2 ^ bufferBits bk + 1 ≤ 2 ^ (16 - bufferBits bk) :=
    Nat.div_lt_of_lt_mul hlt
  calc bufferBase bk ar + 2 ^ bufferBits bk
      = 2 ^ bufferBits bk * (ar.toNat / 2 ^ bufferBits bk + 1) := by
        rw [bufferBase, Nat.mul_comm, Nat.mul_add, Nat.mul_one]
    _ ≤ 2 ^ bufferBits bk * 2 ^ (16 - bufferBits bk) := Nat.mul_le_mul_left _ hdiv
    _ = 2 ^ 16 := hpow.symm

section

variable {bk : Word} (hbk : 1 ≤ bk.toNat) (hidx : bufferIndex bk ar < bk.toNat)
  (hd : d.natAbs ≤ bk.toNat)

include hbk hidx hd

/-- `c54x_circ_ref` inside a buffer: one correction by BK is the whole reduction modulo BK when
the step is no longer than the buffer. -/
theorem toNat_circRef :
    ((circRef ar d bk).toNat : Int) = bufferBase bk ar + (bufferIndex bk ar + d) % bk.toNat := by
  have hne : bk ≠ 0 := by
    rintro rfl
    exact absurd hbk (by decide)
  -- the two corrections
  have hwrap : (if (bk.toNat : Int) ≤ bufferIndex bk ar + d then bufferIndex bk ar + d - bk.toNat
      else if (bufferIndex bk ar : Int) + d < 0 then bufferIndex bk ar + d + bk.toNat
      else bufferIndex bk ar + d) = (bufferIndex bk ar + d) % bk.toNat := by
    split
    · rw [← Int.sub_emod_right]
      exact (Int.emod_eq_of_lt (by omega) (by omega)).symm
    · split
      · rw [← Int.add_emod_right]
        exact (Int.emod_eq_of_lt (by omega) (by omega)).symm
      · exact (Int.emod_eq_of_lt (by omega) (by omega)).symm
  have hcirc : circRef ar d bk = (ar &&& ~~~ BitVec.ofNat 16 (2 ^ bufferBits bk - 1)) +
      BitVec.ofInt 16 ((bufferIndex bk ar + d) % bk.toNat) := by
    rw [← hwrap]
    simp only [circRef, hne, if_false, circBits_eq, toNat_and_masque]
  -- the result stays below the next multiple of 2 ^ N
  have hpos := Int.emod_nonneg (bufferIndex bk ar + d) (b := bk.toNat) (by omega)
  have hltbk := Int.emod_lt_of_pos (bufferIndex bk ar + d) (b := bk.toNat) (by omega)
  have hroom := bufferBase_add_le bk ar
  have hbuf := le_two_pow_bufferBits bk
  rw [hcirc, toNat_add, toNat_and_not_masque, toNat_ofInt]
  omega

theorem buffer_circRef :
    bufferBase bk (circRef ar d bk) = bufferBase bk ar ∧
      (bufferIndex bk (circRef ar d bk) : Int) = (bufferIndex bk ar + d) % bk.toNat := by
  have hval := toNat_circRef hbk hidx hd
  obtain ⟨j, hj⟩ := Int.eq_ofNat_of_zero_le
    (Int.emod_nonneg (bufferIndex bk ar + d) (b := bk.toNat) (by omega))
  have hlt := Int.emod_lt_of_pos (bufferIndex bk ar + d) (b := bk.toNat) (by omega)
  rw [hj] at hval hlt ⊢
  have hjlt : j < 2 ^ bufferBits bk := by
    have hbuf := le_two_pow_bufferBits bk
    omega
  -- the base is a multiple of 2 ^ N and the index is below it
  have hnat : (circRef ar d bk).toNat = j + bufferBase bk ar := by omega
  have hdiv : (j + bufferBase bk ar) / 2 ^ bufferBits bk = ar.toNat / 2 ^ bufferBits bk := by
    rw [bufferBase, Nat.add_mul_div_right _ _ (Nat.two_pow_pos _), Nat.div_eq_of_lt hjlt,
      Nat.zero_add]
  constructor
  · rw [bufferBase, hnat, hdiv, bufferBase]
  · rw [bufferIndex, hnat, bufferBase, Nat.add_mul_mod_self_right, Nat.mod_eq_of_lt hjlt]

end

/-! ### Circular references in sequence -/

/-- A circular reference with a step no longer than the buffer. -/
def Circular (s : Cpu) (e : Ctx × Ref) : Prop :=
  ∃ d ∈ e.2.circStep e.1 s, d.natAbs ≤ s.bk.toNat

instance (s : Cpu) (e : Ctx × Ref) : Decidable (Circular s e) :=
  inferInstanceAs (Decidable (∃ d ∈ _, _))

structure InBuffer (n : BitVec 3) (bk : Word) (base : Nat) (s : Cpu) : Prop where
  size_eq : s.bk = bk
  base_eq : bufferBase bk (s.ar n) = base
  index_lt : bufferIndex bk (s.ar n) < bk.toNat

variable {n : BitVec 3} {bk : Word} {base : Nat} {s : Cpu} {e : Ctx × Ref}

/-- A circular reference keeps every register in its buffer. -/
theorem InBuffer.step (hbk : 1 ≤ bk.toNat) (hs : InBuffer n bk base s) (h : Circular s e) :
    InBuffer n bk base (refs.step s e).1 := by
  obtain ⟨d, hd, habs⟩ := h
  obtain ⟨har, hkeep⟩ := circAccess_run hd
  rw [hs.size_eq] at habs
  by_cases hn : e.2.register s = n
  · subst hn
    obtain ⟨hbase, hindex⟩ := buffer_circRef hbk hs.index_lt habs
    have hlt := Int.emod_lt_of_pos (bufferIndex bk (s.ar (e.2.register s)) + d)
      (b := bk.toNat) (by omega)
    have hval : (e.2.run e.1 s).2.ar (e.2.register s) = circRef (s.ar (e.2.register s)) d bk := by
      rw [har, Function.update_self, hs.size_eq]
    refine ⟨hkeep.trans hs.size_eq, ?_, ?_⟩
    · show bufferBase bk ((e.2.run e.1 s).2.ar (e.2.register s)) = base
      rw [hval, hbase, hs.base_eq]
    · show bufferIndex bk ((e.2.run e.1 s).2.ar (e.2.register s)) < bk.toNat
      rw [hval]
      omega
  · have hsame : (e.2.run e.1 s).2.ar n = s.ar n := by
      rw [har, Function.update_of_ne (Ne.symm hn)]
    refine ⟨hkeep.trans hs.size_eq, ?_, ?_⟩
    · show bufferBase bk ((e.2.run e.1 s).2.ar n) = base
      rw [hsame, hs.base_eq]
    · show bufferIndex bk ((e.2.run e.1 s).2.ar n) < bk.toNat
      rw [hsame]
      exact hs.index_lt

theorem InBuffer.index_step (hbk : 1 ≤ bk.toNat) (hs : InBuffer n bk base s)
    (hn : e.2.register s = n) (hd : e.2.circStep e.1 s = some d) (habs : d.natAbs ≤ bk.toNat) :
    (bufferIndex bk ((refs.step s e).1.ar n) : Int) =
      (bufferIndex bk (s.ar n) + d) % bk.toNat := by
  subst hn
  have hval : (e.2.run e.1 s).2.ar (e.2.register s) = circRef (s.ar (e.2.register s)) d bk := by
    rw [(circAccess_run hd).ar, Function.update_self, hs.size_eq]
  show (bufferIndex bk ((e.2.run e.1 s).2.ar (e.2.register s)) : Int) = _
  rw [hval]
  exact (buffer_circRef hbk hs.index_lt habs).2

/-- A register that starts inside its buffer stays in it through every sequence of circular
references, and each reference through it moves its index by the step, modulo BK. -/
theorem circular_refs {es : List (Ctx × Ref)} (hbk : 1 ≤ s.bk.toNat)
    (hidx : bufferIndex s.bk (s.ar n) < s.bk.toNat) (h : refs.Along Circular s es) :
    (∀ es', es' <+: es → bufferBase s.bk (s.ar n) ≤ ((refs.final s es').ar n).toNat ∧
      ((refs.final s es').ar n).toNat < bufferBase s.bk (s.ar n) + s.bk.toNat) ∧
    ∀ es' e, es' ++ [e] <+: es → e.2.register (refs.final s es') = n →
      ∀ d ∈ e.2.circStep e.1 (refs.final s es'),
        (bufferIndex s.bk ((refs.final s (es' ++ [e])).ar n) : Int) =
          (bufferIndex s.bk ((refs.final s es').ar n) + d) % s.bk.toNat := by
  have hinv : ∀ es', es' <+: es →
      InBuffer n s.bk (bufferBase s.bk (s.ar n)) (refs.final s es') := by
    rintro es' ⟨rest, rfl⟩
    exact Machine.invariant (fun _ _ ht hC => ht.step hbk hC) ⟨rfl, rfl, hidx⟩ h.of_append.1
  constructor
  · intro es' hes'
    obtain ⟨-, hbase, hindex⟩ := hinv es' hes'
    have hadd := bufferBase_add_index s.bk ((refs.final s es').ar n)
    omega
  · rintro es' e ⟨rest, rfl⟩ hn d hd
    have hbuf := hinv es' ⟨[e] ++ rest, (append_assoc _ _ _).symm⟩
    obtain ⟨d', hd', habs⟩ := h.of_append.1.of_append.2.1
    obtain rfl : d = d' := Option.some.inj (hd.symm.trans hd')
    rw [Machine.final_append]
    rw [hbuf.size_eq] at habs
    exact hbuf.index_step hbk hn hd habs

/-- AR0 = 2, and every other register at the last word of a buffer of five, which is the first
of a block of four. -/
def ringOfFive : Cpu :=
  { (boot []).toCpu with bk := 5, ar := fun n => if n = 0 then 2 else 0x0104 }

/-- `*AR2+%`, a long `*AR2-%` and the dual operand `*AR2+0%`. -/
def ringRefs : List (Ctx × Ref) :=
  [.smem 0xD2, .lmem 0xC2, .xmem 0xC0].map fun r => ((boot []).ctx Bus.quiet, r)

theorem circular_refs_five :
    0x0100 ≤ ((refs.final ringOfFive ringRefs).ar 2).toNat ∧
      ((refs.final ringOfFive ringRefs).ar 2).toNat < 0x0105 :=
  (circular_refs (s := ringOfFive) (n := 2) (by decide) (by decide)
    (by decide +kernel)).1 ringRefs List.prefix_rfl

/-! ### Bit-reversed references -/

theorem bitrev16_eq (v : Word) : bitrev16 v = v.reverse := by
  apply eq_of_getLsbD_eq
  intro i hi
  rw [Reverse.getLsbD_reverse hi]
  interval_cases i <;> simp [bitrev16]

/-- `c54x_revcarry` is addition and subtraction with the carry running downwards. -/
theorem revcarry_eq (ar ar0 : Word) :
    revcarry ar ar0 false = Reverse.radd ar ar0 ∧ revcarry ar ar0 true = Reverse.rsub ar ar0 := by
  constructor
  all_goals
    simp only [revcarry, bitrev16_eq]
    rfl

/-- `*ARn+0B`. -/
def Ref.isBitrevInc : Ref → Bool
  | .smem op => bitSet op 7 && modOf op == 7
  | .lmem op => bitSet op 7 && modOf op == 7
  | _ => false

def BitrevInc (n : BitVec 3) (s : Cpu) (e : Ctx × Ref) : Prop :=
  e.2.isBitrevInc = true ∧ e.2.register s = n

instance (n : BitVec 3) (s : Cpu) (e : Ctx × Ref) : Decidable (BitrevInc n s e) :=
  inferInstanceAs (Decidable (_ ∧ _))

/-- The access uses the register as it is and steps it by AR0. -/
structure BitrevAccess (s : Cpu) (n : BitVec 3) (r : Word × Cpu) : Prop where
  addr : r.1 = s.ar n
  ar : r.2.ar = Function.update s.ar n (Reverse.radd (s.ar n) (s.ar 0))

theorem bitrevAccess_indirectAccess {op : Word} (hmod : modOf op = 7) (step : Nat) (c : Ctx)
    (s : Cpu) (n : BitVec 3) : BitrevAccess s n (indirectAccess op n step c s) := by
  have hacc : indirect (modOf op) step (s.ar n) (s.ar 0) s.bk (lkOf c s) =
      (Reverse.radd (s.ar n) (s.ar 0), s.ar n) := by
    rw [hmod, ← (revcarry_eq _ _).1]
    rfl
  refine ⟨congrArg Prod.snd hacc, ?_⟩
  show Function.update s.ar n
    (indirect (modOf op) step (s.ar n) (s.ar 0) s.bk (lkOf c s)).1 = _
  rw [hacc]

theorem bitrevAccess_run (h : BitrevInc n s e) : BitrevAccess s n (e.2.run e.1 s) := by
  obtain ⟨c, r⟩ := e
  obtain ⟨hinc, rfl⟩ := h
  cases r with
  | smem op =>
    obtain ⟨hind, hmod⟩ := Bool.and_eq_true_iff.mp hinc
    have hacc := bitrevAccess_indirectAccess (beq_iff_eq.mp hmod) 1 c s (currentAr s op)
    have hres := resolved_smemBy hind 1 c s
    exact ⟨(congrArg Resolved.addr hres).trans hacc.addr, (congrArg Resolved.ar hres).trans hacc.ar⟩
  | lmem op =>
    obtain ⟨hind, hmod⟩ := Bool.and_eq_true_iff.mp hinc
    have hacc := bitrevAccess_indirectAccess (beq_iff_eq.mp hmod) 2 c s (narOf op)
    have hres := resolved_lmem hind c s
    exact ⟨(congrArg Resolved.addr hres).trans hacc.addr, (congrArg Resolved.ar hres).trans hacc.ar⟩
  | xmem op | ymem op | post n mod => cases hinc

theorem bitrev_run (hn : n ≠ 0) {es : List (Ctx × Ref)} (h : refs.Along (BitrevInc n) s es) :
    (refs.final s es).ar n = (Reverse.radd · (s.ar 0))^[es.length] (s.ar n) ∧
    refs.trace s es =
      (List.range es.length).map fun k => (Reverse.radd · (s.ar 0))^[k] (s.ar n) := by
  induction es generalizing s with
  | nil => exact ⟨rfl, rfl⟩
  | cons e es ih =>
    obtain ⟨haddr, har⟩ := bitrevAccess_run h.1
    obtain ⟨hfinal, htrace⟩ := ih h.2
    -- AR0 is not the register that steps
    have hzero : (refs.step s e).1.ar 0 = s.ar 0 :=
      (congrFun har 0).trans (Function.update_of_ne (Ne.symm hn) _ _)
    have hstep : (refs.step s e).1.ar n = Reverse.radd (s.ar n) (s.ar 0) :=
      (congrFun har n).trans (Function.update_self _ _ _)
    have hobs : (refs.step s e).2 = [s.ar n] := congrArg (fun a => [a]) haddr
    rw [hzero, hstep] at hfinal htrace
    constructor
    · rw [Machine.final_cons, hfinal]
      rfl
    · rw [Machine.trace_cons, htrace, hobs, length_cons, range_succ_eq_map, map_cons,
        map_map]
      rfl

/-- `k` bit-reversed increments of a register at the start of a block of `2 ^ n` words, with half
the block in AR0, reach the word at `k` with its `n` bits reversed. Each increment visits the
word the ones before it have reached, and a decrement undoes an increment. -/
theorem bit_reversed_refs {bits : Nat} {es : List (Ctx × Ref)} (hpos : 1 ≤ bits)
    (hbits : bits ≤ 16) (halign : 2 ^ bits ∣ (s.ar n).toNat)
    (hhalf : (s.ar 0).toNat = 2 ^ (bits - 1)) (h : refs.Along (BitrevInc n) s es) :
    ((refs.trace s es).map BitVec.toNat = (List.range es.length).map fun k =>
      (s.ar n).toNat + (BitVec.ofNat bits k).reverse.toNat) ∧
    ((refs.final s es).ar n).toNat =
      (s.ar n).toNat + (BitVec.ofNat bits es.length).reverse.toNat ∧
    ∀ step ar ar0 bk lk, (indirect 4 step (indirect 7 step ar ar0 bk lk).1 ar0 bk lk).1 = ar := by
  have hn : n ≠ 0 := by
    rintro rfl
    rw [hhalf, Nat.pow_dvd_pow_iff_le_right Nat.one_lt_two] at halign
    omega
  have har0 : s.ar 0 = BitVec.twoPow 16 (bits - 1) := by
    apply eq_of_toNat_eq
    rw [hhalf, toNat_twoPow_of_lt (by omega)]
  obtain ⟨hfinal, htrace⟩ := bitrev_run hn h
  rw [har0] at hfinal htrace
  refine ⟨?_, ?_, ?_⟩
  · rw [htrace, map_map]
    refine map_congr_left fun k _ => ?_
    exact Reverse.iterate_radd_twoPow hpos hbits halign k
  · rw [hfinal]
    exact Reverse.iterate_radd_twoPow hpos hbits halign _
  · intro step ar ar0 bk lk
    show revcarry (revcarry ar ar0 false) ar0 true = ar
    rw [(revcarry_eq _ _).1, (revcarry_eq _ _).2, Reverse.rsub_radd]

/-- Four `*AR2+0B` in a block of four words. -/
theorem bit_reversed_refs_four :
    (refs.trace ringOfFive (List.replicate 4 ((boot []).ctx Bus.quiet, .smem 0xBA))).map
      BitVec.toNat = [0x0104, 0x0106, 0x0105, 0x0107] :=
  have hrefs : refs.Along (BitrevInc 2) ringOfFive
      (List.replicate 4 ((boot []).ctx Bus.quiet, .smem 0xBA)) := by decide +kernel
  have hhalf : (ringOfFive.ar 0).toNat = 2 ^ (2 - 1) := by decide
  (bit_reversed_refs (by decide) (by decide) (by decide) hhalf hrefs).1

end Qosmo.C54x
