import Qosmo.C54x.Mem

/-!
# Qosmo.C54x.Fetch

The three ways the emulator reads a word of program memory, with the gates they memoise:
`prog_fetch` and `prog_read` (`c54x_mem.c`), and the inline copy of the first that the
interpreter uses (`c54x_prog_fetch_vite`, `c54x_internal.h`).

Two gates decide what they return, the floor of the overlay and the banking of the high
ROM. Each is resolved on its first use and kept: the floor twice, in the `static` of
`c54x_ovly_bas` and in the global the inline copy reads. `GateCache` holds these cells in
any state of resolution; a cache with a value other than that of its gate cannot be built.
`Qosmo.C54x.Mem.progFetch`, which the interpreter is modelled with, is what all three
return with the default gates.
-/

namespace Qosmo.C54x

/-- `CALYPSO_OVLY_SCRATCH` and `CALYPSO_XPC_HAUT`. -/
structure FetchGates where
  ovlyScratch : Bool
  xpcHaut : Bool
  deriving DecidableEq, Repr

/-- Both gates are on unless the environment says otherwise. -/
def FetchGates.default : FetchGates := ⟨true, true⟩

/-- `g ? 0x0060 : 0x0080`. -/
def ovlyFloor (g : Bool) : Word := if g then 0x0060 else 0x0080

/-- The memoised gates: `static int g` of `c54x_ovly_bas`, `g_c54x_ovly_bas` (0 while it
is not resolved) and `g_c54x_xpc_haut`. -/
structure GateCache (G : FetchGates) where
  ovlyGate : Option Bool
  ovlyBas : Word
  xpcHaut : Option Bool
  ovly_resolved : ovlyGate = none ∧ ovlyBas = 0 ∨
    ovlyGate = some G.ovlyScratch ∧ ovlyBas = ovlyFloor G.ovlyScratch
  xpcHaut_resolved : xpcHaut = none ∨ xpcHaut = some G.xpcHaut

namespace Gated

variable {G : FetchGates}

/-- The program starts with nothing resolved. -/
instance : Inhabited (GateCache G) := ⟨none, 0, none, .inl ⟨rfl, rfl⟩, .inl rfl⟩

def ovlyBas : StateM (GateCache G) Word := fun k =>
  match k.ovlyGate with
  | some g => (ovlyFloor g, k)
  | none =>
    (ovlyFloor G.ovlyScratch,
      { k with
        ovlyGate := some G.ovlyScratch
        ovlyBas := ovlyFloor G.ovlyScratch
        ovly_resolved := .inr ⟨rfl, rfl⟩ })

def xpcHautInit : StateM (GateCache G) Bool := fun k =>
  match k.xpcHaut with
  | some g => (g, k)
  | none => (G.xpcHaut, { k with xpcHaut := some G.xpcHaut, xpcHaut_resolved := .inr rfl })

def xpcHautBanque (xpc : Word) : StateM (GateCache G) Bool := do
  if xpc &&& 0x7F ≠ 1 ∧ xpc &&& 0x7F ≠ 2 then return false
  match (← get).xpcHaut with
  | some g => return g
  | none => xpcHautInit

/-- `pc >= 0x8000 && (pc < 0xE000 || c54x_xpc_haut_banque(s->xpc))`. -/
def banked (s : Cpu) (pc : Word) : StateM (GateCache G) Bool := do
  if pc < 0x8000 then return false
  if pc < 0xE000 then return true
  xpcHautBanque s.xpc

/-- A word of the page XPC selects: `((uint32_t)s->xpc << 16) | addr16`. -/
def pageAddr (s : Cpu) (addr16 : Word) : BitVec 18 :=
  (s.xpc.setWidth 18 <<< 16) ||| addr16.setWidth 18

def progXlate (s : Cpu) (addr16 : Word) : StateM (GateCache G) (BitVec 18) := do
  if ← banked s addr16 then return pageAddr s addr16
  return addr16.setWidth 18

/-- `g_c54x_ovly_bas != 0 ? g_c54x_ovly_bas : c54x_ovly_bas()`. -/
def ovlyBasVite : StateM (GateCache G) Word := do
  let k ← get
  if k.ovlyBas ≠ 0 then return k.ovlyBas
  ovlyBas

def progFetchVite (s : Cpu) (pc : Word) : StateM (GateCache G) Word := do
  if bitSet s.pmst Pmst.ovly then
    let bas ← ovlyBasVite
    if bas ≤ pc ∧ pc < 0x2800 then return s.data pc
  if ← banked s pc then return s.prog (pageAddr s pc)
  return s.prog (pc.setWidth 18)

/-- `(s->pmst & PMST_OVLY) && addr16 >= c54x_ovly_bas() && addr16 < 0x2800`. -/
def inOverlay (s : Cpu) (addr16 : Word) : StateM (GateCache G) Bool := do
  if bitSet s.pmst Pmst.ovly then
    let bas ← ovlyBas
    return decide (bas ≤ addr16 ∧ addr16 < 0x2800)
  return false

def progFetch (s : Cpu) (pc : Word) : StateM (GateCache G) Word := do
  if ← inOverlay s pc then return s.data pc
  return s.prog (← progXlate s pc)

/-- `prog_read`: the address is cut to 16 bits. -/
def progRead (s : Cpu) (addr : BitVec 32) : StateM (GateCache G) Word := do
  let addr16 : Word := addr.setWidth 16
  if ← inOverlay s addr16 then return s.data addr16
  return s.prog (← progXlate s addr16)

/-! ### What they return does not depend on the cache -/

def bankedWith (G : FetchGates) (s : Cpu) (pc : Word) : Bool :=
  decide (0x8000 ≤ pc) && (decide (pc < 0xE000) || C54x.xpcHautBanque s.xpc && G.xpcHaut)

def progWord (G : FetchGates) (s : Cpu) (pc : Word) : Word :=
  if bitSet s.pmst Pmst.ovly = true ∧ ovlyFloor G.ovlyScratch ≤ pc ∧ pc < 0x2800 then s.data pc
  else if bankedWith G s pc then s.prog (pageAddr s pc)
  else s.prog (pc.setWidth 18)

def Returns {α : Type} (m : StateM (GateCache G) α) (a : α) : Prop := ∀ k, (m k).1 = a

theorem Returns.pure {α : Type} (a : α) : Returns (G := G) (Pure.pure a) a := fun _ => rfl

theorem Returns.bind {α β : Type} {m : StateM (GateCache G) α} {f : α → StateM (GateCache G) β}
    {a : α} {b : β} (hm : Returns m a) (hf : Returns (f a) b) : Returns (m >>= f) b := by
  intro k
  show ((f (m k).1) (m k).2).1 = b
  rw [hm k]
  exact hf _

theorem ovlyBas_returns : Returns (G := G) ovlyBas (ovlyFloor G.ovlyScratch) := by
  intro k
  unfold ovlyBas
  rcases k.ovly_resolved with ⟨hg, -⟩ | ⟨hg, -⟩ <;> rw [hg]

theorem xpcHautInit_returns : Returns (G := G) xpcHautInit G.xpcHaut := by
  intro k
  unfold xpcHautInit
  rcases k.xpcHaut_resolved with hg | hg <;> rw [hg]

theorem xpcHautBanque_returns (xpc : Word) :
    Returns (G := G) (xpcHautBanque xpc) (C54x.xpcHautBanque xpc && G.xpcHaut) := by
  intro k
  unfold xpcHautBanque C54x.xpcHautBanque
  by_cases hpage : xpc &&& 0x7F ≠ 1 ∧ xpc &&& 0x7F ≠ 2
  · rw [if_pos hpage, beq_false_of_ne hpage.1, beq_false_of_ne hpage.2]
    rfl
  · rw [if_neg hpage]
    have hone : (xpc &&& 0x7F == 1 || xpc &&& 0x7F == 2) := by
      rw [Bool.or_eq_true, beq_iff_eq, beq_iff_eq]
      by_contra hnone
      exact hpage (not_or.mp hnone)
    rw [hone, Bool.true_and]
    -- resolved or not, the gate answers
    show ((match k.xpcHaut with
      | some g => (Pure.pure g : StateM (GateCache G) Bool)
      | none => xpcHautInit) k).1 = G.xpcHaut
    rcases k.xpcHaut_resolved with hg | hg
    · rw [hg]
      exact xpcHautInit_returns k
    · rw [hg]
      rfl

variable (s : Cpu) (pc : Word)

theorem banked_returns : Returns (G := G) (banked s pc) (bankedWith G s pc) := by
  unfold banked bankedWith
  by_cases hlow : pc < 0x8000
  · rw [if_pos hlow, decide_eq_false (BitVec.not_le.mpr hlow)]
    exact .pure false
  · rw [if_neg hlow, decide_eq_true (BitVec.not_lt.mp hlow)]
    by_cases hmid : pc < 0xE000
    · rw [if_pos hmid, decide_eq_true hmid]
      exact .pure true
    · rw [if_neg hmid, decide_eq_false hmid]
      exact xpcHautBanque_returns s.xpc

theorem progXlate_returns : Returns (G := G) (progXlate s pc)
    (if bankedWith G s pc then pageAddr s pc else pc.setWidth 18) := by
  refine (banked_returns s pc).bind ?_
  cases bankedWith G s pc <;> exact .pure _

theorem inOverlay_returns : Returns (G := G) (inOverlay s pc)
    (bitSet s.pmst Pmst.ovly && decide (ovlyFloor G.ovlyScratch ≤ pc ∧ pc < 0x2800)) := by
  unfold inOverlay
  cases bitSet s.pmst Pmst.ovly with
  | true => exact ovlyBas_returns.bind (.pure _)
  | false => exact .pure _

theorem progFetch_returns : Returns (G := G) (progFetch s pc) (progWord G s pc) := by
  refine (inOverlay_returns s pc).bind ?_
  unfold progWord
  by_cases hover : bitSet s.pmst Pmst.ovly ∧ ovlyFloor G.ovlyScratch ≤ pc ∧ pc < 0x2800
  · rw [if_pos hover, hover.1, decide_eq_true hover.2]
    exact .pure _
  · have hmiss : (bitSet s.pmst Pmst.ovly &&
        decide (ovlyFloor G.ovlyScratch ≤ pc ∧ pc < 0x2800)) = false := by
      rw [Bool.eq_false_iff, Ne, Bool.and_eq_true, decide_eq_true_eq]
      exact hover
    rw [if_neg hover, hmiss]
    refine (progXlate_returns s pc).bind ?_
    cases bankedWith G s pc <;> exact .pure _

theorem ovlyBasVite_returns : Returns (G := G) ovlyBasVite (ovlyFloor G.ovlyScratch) := by
  intro k
  show ((if k.ovlyBas ≠ 0 then (Pure.pure k.ovlyBas : StateM (GateCache G) Word)
    else ovlyBas) k).1 = ovlyFloor G.ovlyScratch
  rcases k.ovly_resolved with ⟨-, hbas⟩ | ⟨-, hbas⟩
  · rw [if_neg (not_not.mpr hbas)]
    exact ovlyBas_returns k
  · have hfloor : k.ovlyBas ≠ 0 := by
      rw [hbas]
      cases G.ovlyScratch <;> decide
    rw [if_pos hfloor]
    exact hbas

/-- Past the overlay, the inline copy reads as `c54x_prog_xlate` translates. -/
theorem banked_word_returns : Returns (G := G)
    (do if ← banked s pc then return s.prog (pageAddr s pc) else return s.prog (pc.setWidth 18))
    (if bankedWith G s pc then s.prog (pageAddr s pc) else s.prog (pc.setWidth 18)) := by
  refine (banked_returns s pc).bind ?_
  cases bankedWith G s pc <;> exact .pure _

theorem progFetchVite_returns : Returns (G := G) (progFetchVite s pc) (progWord G s pc) := by
  unfold progFetchVite progWord
  cases hovly : bitSet s.pmst Pmst.ovly with
  | false =>
    simp only [Bool.false_eq_true, if_false, false_and]
    exact banked_word_returns s pc
  | true =>
    simp only [if_true, true_and]
    refine ovlyBasVite_returns.bind ?_
    by_cases hover : ovlyFloor G.ovlyScratch ≤ pc ∧ pc < 0x2800
    · rw [if_pos hover, if_pos hover]
      exact .pure _
    · rw [if_neg hover, if_neg hover]
      exact banked_word_returns s pc

/-- The model of the interpreter reads with the default gates. -/
theorem progWord_default : progWord FetchGates.default s pc = C54x.progFetch s pc := by
  unfold progWord C54x.progFetch C54x.inOverlay C54x.progXlate bankedWith
  simp only [FetchGates.default, ovlyFloor, if_true, Bool.and_true, pageAddr, Bool.and_eq_true,
    decide_eq_true_eq, and_assoc, Bool.or_eq_true]
  split_ifs <;> rfl

/-- **One word, three reads.** With the default gates, resolved or not, the fetch of the
interpreter, `prog_fetch` and `prog_read` return the same word, on every page. -/
theorem fetch_paths_agree (s : Cpu) (addr : BitVec 32)
    (k k' k'' : GateCache FetchGates.default) :
    (progFetchVite s (addr.setWidth 16) k).1 = (progFetch s (addr.setWidth 16) k').1 ∧
      (progFetch s (addr.setWidth 16) k').1 = (progRead s addr k'').1 ∧
      (progRead s addr k'').1 = C54x.progFetch s (addr.setWidth 16) := by
  have hread : (progRead s addr k'').1 = progWord FetchGates.default s (addr.setWidth 16) :=
    progFetch_returns s (addr.setWidth 16) k''
  rw [progFetchVite_returns, progFetch_returns, hread, progWord_default]
  exact ⟨rfl, rfl, rfl⟩

end Gated

end Qosmo.C54x
