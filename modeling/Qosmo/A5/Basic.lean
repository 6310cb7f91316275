import Qosmo.Basic
import Qosmo.Gsm
import Qosmo.Lib.Run

/-!
# Qosmo.A5.Basic

The cipher unit of the DSP (`hw/arm/calypso/l1-dsp/calypso_a5.c`), on the I/O ports 0x2800..0x2818.

The ROM programs it in every dedicated frame: it stops the unit, writes the key Kc and COUNT (the
counters T1, T2 and T3 of the frame), starts it, and reads the key stream back when bit 11 of IFR
comes. The stream is that of `osmo_a5`, 114 bits for each direction, packed into eight words with
the first bit on top.

`a5_calculer` does not take COUNT as it is. A COUNT that is the frame last deposited by the BSP is
moved on by one in the frames of the SACCH/TF, and the downlink stream is taken at the frame the BSP
plays at this tick when that is a few frames away.
-/

namespace Qosmo

abbrev KeyStreams := (Nat → Bool) × (Nat → Bool)

/-- The registers of the cipher unit. -/
structure A5 where
  ctrl : Word
  kc : Nat → Word
  cnt : Nat → Word
  etat : Word
  flux : Nat → Word

namespace A5

def init : A5 := ⟨0, fun _ => 0, fun _ => 0, 0, fun _ => 0⟩

structure Env where
  /-- `osmo_a5`; `none` when it fails -/
  osmoA5 : Nat → List Byte → BitVec 32 → Option KeyStreams
  /-- `calypso_daram_last_fn`, the frame the BSP has deposited last -/
  daramLastFn : BitVec 32
  /-- `calypso_bsp_fn_bts_du_tick` at the current tick -/
  fnBts : Option (BitVec 32)

/-- The settings read from the environment. -/
structure Gates where
  /-- `CALYPSO_A5` -/
  on : Bool
  /-- `CALYPSO_A5_RECALE` -/
  recale : Bool
  /-- `CALYPSO_A5_DL_BSP` and `CALYPSO_A5_DL_DECAL` -/
  dlBsp : Bool
  dlDecal : Int

def Gates.default : Gates := ⟨true, true, true, 0⟩

/-! ### The computation -/

/-- One round of `empaqueter`. -/
def empaqueterBit (b : Nat → Bool) (w : Nat → Word) (i : Nat) : Nat → Word :=
  if b i then Function.update w (i / 16) (w (i / 16) ||| (0x8000 : Word) >>> (i % 16)) else w

/-- `empaqueter`: 114 bits in eight words, bit 15 of the first word first. -/
def empaqueter (b : Nat → Bool) : Nat → Word :=
  (List.range 114).foldl (empaqueterBit b) fun _ => 0

/-- The bytes of Kc, which arrives reversed. -/
def key (kc : Nat → Word) : List Byte :=
  [3, 2, 1, 0].flatMap fun i => [(kc i >>> 8).setWidth 8, (kc i).setWidth 8]

def countFn (cnt : Nat → Word) : BitVec 32 :=
  let t2 := (cnt 0 &&& 0x1F).toNat
  let t3 := ((cnt 0 >>> 5) &&& 0x3F).toNat
  let t1 := (cnt 1 &&& 0x7FF).toNat
  BitVec.ofNat 32 (gsmtime2fn t1 t2 t3)

/-- COUNT is one frame late: it is the frame deposited last, in a frame of the SACCH/TF. -/
def late (g : Gates) (env : Env) (fn : BitVec 32) : Bool :=
  g.recale && fn == env.daramLastFn && (fn % 26 == 12 || fn % 26 == 25)

/-- The frame of the key stream. -/
def realign (g : Gates) (env : Env) (fn : BitVec 32) : BitVec 32 :=
  if late g env fn then (fn + 1) % 2715648 else fn

/-- The frame of the downlink key stream. -/
def downlinkFn (g : Gates) (env : Env) (fn : BitVec 32) : BitVec 32 :=
  match env.fnBts with
  | none => fn
  | some ft =>
    let d := (ft - fn).toInt
    if g.dlBsp && decide (-3 ≤ d ∧ d ≤ 3 ∧ d ≠ 0) then ft + BitVec.ofInt 32 g.dlDecal else fn

/-- The downlink stream, at its own frame if that works. -/
def downlinkBits (env : Env) (algo : Nat) (k : List Byte) (fn fnDl : BitVec 32)
    (dl : Nat → Bool) : Nat → Bool :=
  if fnDl ≠ fn then
    match env.osmoA5 algo k fnDl with
    | some streams => streams.1
    | none => dl
  else dl

def calculer (g : Gates) (env : Env) (a : A5) (algo : Nat) : A5 :=
  let fn := realign g env (countFn a.cnt)
  let fnDl := downlinkFn g env fn
  let flux := match env.osmoA5 algo (key a.kc) fn with
    | none => fun _ => 0
    | some (dl, ul) =>
      let dl := downlinkBits env algo (key a.kc) fn fnDl dl
      fun i => if i < 8 then empaqueter dl i else empaqueter ul (i - 8)
  { a with flux := flux, etat := a.etat ||| 1 }

/-! ### The ports -/

/-- The completion interrupt, `A5_IT_BIT`. -/
def itBit : Word := 0x0800

/-- A write to the control register: 0 stops the unit, and bit 0 starts it when it comes up. -/
def control (g : Gates) (env : Env) (a : A5) (val : Word) : A5 × Word :=
  let avant := a.ctrl
  let a := { a with ctrl := val }
  if val = 0 then ({ a with etat := 0 }, 0)
  else if bitSet val 0 && !bitSet avant 0 then
    let algo := ((val >>> 2) &&& 3).toNat
    if algo = 1 ∨ algo = 2 then (calculer g env a algo, itBit)
    else ({ a with flux := fun _ => 0, etat := a.etat ||| 1 }, itBit)
  else (a, 0)

/-- `calypso_a5_portw`: the registers, and the bits of IFR that it raises; `none` where nobody
answers. -/
def portw (g : Gates) (env : Env) (a : A5) (pa val : Word) : Option (A5 × Word) :=
  if !g.on || decide (pa < 0x2800) || decide (0x2808 < pa) then none
  else if pa = 0x2800 then some (control g env a val)
  else if pa = 0x2807 then some ({ a with cnt := Function.update a.cnt 0 val }, 0)
  else if pa = 0x2808 then some ({ a with cnt := Function.update a.cnt 1 val }, 0)
  else if pa = 0x2801 ∨ pa = 0x2802 then some (a, 0)
  else some ({ a with kc := Function.update a.kc (pa - 0x2803).toNat val }, 0)

def portr (g : Gates) (a : A5) (pa : Word) : Option Word :=
  if !g.on || decide (pa < 0x2800) || decide (0x2809 + 16 ≤ pa) then none
  else if 0x2809 ≤ pa then some (a.flux (pa - 0x2809).toNat)
  else if pa = 0x2802 then some a.etat
  else if pa = 0x2800 then some a.ctrl
  else if pa = 0x2801 then some 0
  else if pa ≤ 0x2803 + 3 then some (a.kc (pa - 0x2803).toNat)
  else some (a.cnt (pa - 0x2807).toNat)

structure Portw where
  env : Env
  pa : Word
  val : Word

/-- The cipher unit, showing what it raises in IFR. -/
def machine (g : Gates) : Machine A5 Portw Word where
  step a e :=
    match portw g e.env a e.pa e.val with
    | some (a, ifr) => (a, if ifr = 0 then [] else [ifr])
    | none => (a, [])

/-! ### The ROM's side -/

/-- The words of COUNT for a frame: T3 over T2, and T1. -/
def countWord0 (fn : Nat) : Word :=
  (BitVec.ofNat 16 (gsmT3 fn) <<< 5) ||| BitVec.ofNat 16 (gsmT2 fn)
def countWord1 (fn : Nat) : Word := BitVec.ofNat 16 (gsmT1 fn)

/-- The control word of `d_a5mode`, without the start bit. -/
def modeWord (mode : Word) : Word := (mode <<< 2) ||| 0x12

/-- The programming of a frame (0xb12c of the ROM). -/
def programming (env : Env) (mode : Word) (kc : Nat → Word) (fn : Nat) : List Portw :=
  [⟨env, 0x2800, 0⟩,
    ⟨env, 0x2803, kc 0⟩, ⟨env, 0x2804, kc 1⟩, ⟨env, 0x2805, kc 2⟩, ⟨env, 0x2806, kc 3⟩,
    ⟨env, 0x2807, countWord0 fn⟩, ⟨env, 0x2808, countWord1 fn⟩,
    ⟨env, 0x2800, modeWord mode⟩, ⟨env, 0x2800, modeWord mode ||| 1⟩]

def streamBit (g : Gates) (a : A5) (first : Word) (j : Nat) : Option Bool :=
  (a.portr g (first + BitVec.ofNat 16 (j / 16))).map fun w => bitSet w (15 - j % 16)

/-- The key streams the ROM reads. -/
def downlinkBit (g : Gates) (a : A5) (j : Nat) : Option Bool := streamBit g a 0x2809 j
def uplinkBit (g : Gates) (a : A5) (j : Nat) : Option Bool := streamBit g a 0x2811 j

end A5

end Qosmo
