import Qosmo.Basic
import Qosmo.Gsm
import Mathlib.Tactic.IntervalCases

/-!
# Qosmo.Grgsm.Sync

The synchronisation burst the gr-gsm layer 1 (`hw/arm/calypso/l1-grgsm/calypso_l1_grgsm.c`) gives
to the firmware.

`encode_sb` packs the BSIC and the reduced frame number into 25 bits. T1 is cut into three pieces
and T3' into two, and each piece goes to a bit range of its own (`layout`), so reading the ranges
back gives the fields (`fields_layout`). T3' names one of the five frames of the 51-multiframe that
carry the burst; with it the frame number follows from its counters (`gsm_counters`).
-/

namespace Qosmo.Grgsm

open BitVec

/-- The word of the four fields. -/
def layout (bsic t1 t2 t3p : BitVec 32) : BitVec 32 :=
  ((bsic &&& 0x3F) <<< 2) ||| ((t1 &&& 0x001) <<< 23) ||| ((t1 &&& 0x1FE) <<< 7) |||
    ((t1 &&& 0x600) >>> 9) ||| ((t2 &&& 0x1F) <<< 18) ||| ((t3p &&& 1) <<< 24) |||
    ((t3p &&& 6) <<< 15)

/-- `encode_sb`. The counters go through 16-bit and 8-bit variables. -/
def encodeSb (bsic : Byte) (fn : BitVec 32) : BitVec 32 :=
  let t1 : Word := (fn / 1326).setWidth 16
  let t2 : Byte := (fn % 26).setWidth 8
  let t3 : Byte := (fn % 51).setWidth 8
  let t3p : Byte := if t3 = 0 then 0 else (t3 - 1) / 10
  layout (bsic.setWidth 32) (t1.setWidth 32) (t2.setWidth 32) (t3p.setWidth 32)

/-- The fields of the burst, read at the places `encode_sb` puts them. -/
structure SbFields where
  bsic : BitVec 32
  t1 : BitVec 32
  t2 : BitVec 32
  t3p : BitVec 32
  deriving Repr, DecidableEq

def sbFields (sb : BitVec 32) : SbFields where
  bsic := (sb >>> 2) &&& 0x3F
  t1 := ((sb >>> 23) &&& 0x001) ||| ((sb >>> 7) &&& 0x1FE) ||| ((sb <<< 9) &&& 0x600)
  t2 := (sb >>> 18) &&& 0x1F
  t3p := ((sb >>> 24) &&& 1) ||| ((sb >>> 15) &&& 6)

def SbFields.frame (f : SbFields) : Int :=
  let t3 : Int := 10 * f.t3p.toNat + 1
  1326 * f.t1.toNat + 51 * ((t3 - f.t2.toNat) % 26) + t3

/-! ### Disjoint pieces -/

/-- No two pieces share a bit, so each field is read as it was written, cut to its width. -/
theorem fields_layout (bsic t1 t2 t3p : BitVec 32) :
    sbFields (layout bsic t1 t2 t3p)
      = ⟨bsic &&& 0x3F, t1 &&& 0x7FF, t2 &&& 0x1F, t3p &&& 7⟩ := by
  unfold sbFields layout
  rw [SbFields.mk.injEq]
  refine ⟨?_, ?_, ?_, ?_⟩
  all_goals
    ext i hi
    interval_cases i <;> simp

theorem toNat_and_mask {v : BitVec 32} {k : Nat} {mask : BitVec 32} (hmask : mask.toNat = 2 ^ k - 1)
    (hv : v.toNat < 2 ^ k) : (v &&& mask).toNat = v.toNat := by
  rw [toNat_and, hmask, Nat.and_two_pow_sub_one_of_lt_two_pow hv]

/-! ### The counters -/

variable {fn : BitVec 32}

theorem t1_eq (hfn : fn.toNat < gsmHyperframe) :
    (((fn / 1326).setWidth 16).setWidth 32 : BitVec 32).toNat = gsmT1 fn.toNat := by
  unfold gsmHyperframe at hfn
  rw [toNat_setWidth, toNat_setWidth, toNat_udiv]
  show fn.toNat / 1326 % 2 ^ 16 % 2 ^ 32 = fn.toNat / 1326
  omega

theorem t2_eq (fn : BitVec 32) :
    (((fn % 26).setWidth 8).setWidth 32 : BitVec 32).toNat = gsmT2 fn.toNat := by
  rw [toNat_setWidth, toNat_setWidth, toNat_umod]
  show fn.toNat % 26 % 2 ^ 8 % 2 ^ 32 = fn.toNat % 26
  omega

/-- T3' numbers the frames with a synchronisation burst, which are ten apart. -/
theorem t3p_eq {k : Nat} (hk : k < 5) (ht3 : fn.toNat % 51 = 10 * k + 1) :
    let t3 : Byte := (fn % 51).setWidth 8
    (((if t3 = 0 then 0 else (t3 - 1) / 10 : Byte)).setWidth 32 : BitVec 32).toNat = k := by
  intro t3
  have hvalue : t3 = BitVec.ofNat 8 (10 * k + 1) := by
    apply eq_of_toNat_eq
    rw [toNat_setWidth, toNat_umod, toNat_ofNat, ← ht3]
    rfl
  rw [hvalue]
  interval_cases k <;> rfl

/-- **Round trip.** The BSIC and the frame number of a synchronisation burst can be read back from
it, for every cell and every frame of the hyperframe that carries one. -/
theorem encodeSb_fields (bsic : Byte) (fn : BitVec 32) (hbsic : bsic.toNat < 64)
    (hfn : fn.toNat < gsmHyperframe) (hsch : fn.toNat % 51 ∈ [1, 11, 21, 31, 41]) :
    (sbFields (encodeSb bsic fn)).bsic.toNat = bsic.toNat ∧
      (sbFields (encodeSb bsic fn)).frame = fn.toNat := by
  obtain ⟨k, hk, ht3⟩ : ∃ k, k < 5 ∧ fn.toNat % 51 = 10 * k + 1 := by
    simp only [List.mem_cons, List.not_mem_nil, or_false] at hsch
    exact ⟨fn.toNat % 51 / 10, by omega⟩
  have hT1 := t1_eq hfn
  have hT2 := t2_eq fn
  have hT3 := t3p_eq hk ht3
  have hB : (bsic.setWidth 32).toNat = bsic.toNat := toNat_setWidth_of_le (by decide)
  have hlt : gsmT1 fn.toNat < 2 ^ 11 ∧ gsmT2 fn.toNat < 2 ^ 5 := by
    unfold gsmHyperframe at hfn
    unfold gsmT1 gsmT2
    omega
  have hframe := gsm_counters fn.toNat
  rw [show gsmT3 fn.toNat = 10 * k + 1 from ht3] at hframe
  rw [encodeSb, fields_layout]
  refine ⟨?_, ?_⟩
  · exact (toNat_and_mask (k := 6) rfl (hB.trans_lt hbsic)).trans hB
  · unfold SbFields.frame
    dsimp only
    rw [toNat_and_mask (k := 11) rfl (hT1.trans_lt hlt.1), hT1,
      toNat_and_mask (k := 5) rfl (hT2.trans_lt hlt.2), hT2,
      toNat_and_mask (k := 3) rfl (hT3.trans_lt (by omega)), hT3]
    exact_mod_cast hframe

/-- BSIC 7 in the last frame of the hyperframe that carries a burst. -/
theorem encodeSb_fields_last :
    (sbFields (encodeSb 7 2715638)).bsic.toNat = 7 ∧
      (sbFields (encodeSb 7 2715638)).frame = 2715638 :=
  encodeSb_fields 7 2715638 (by decide) (by decide) (by decide)

end Qosmo.Grgsm
