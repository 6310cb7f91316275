import Mathlib.Tactic.Common

/-!
# Qosmo.Gsm

GSM frame numbers. Frames are numbered modulo the hyperframe (`GSM_HYPERFRAME`, and `BSP_FN_MAX` in
the BSP): 2048 superframes of 26 · 51 frames. A frame is also given by its three counters T1, T2
and T3: the superframe, and the positions in the 26-multiframe and in the 51-multiframe.
-/

namespace Qosmo

def gsmHyperframe : Nat := 2715648

/-- The counters of a frame. -/
def gsmT1 (fn : Nat) : Nat := fn / 1326
def gsmT2 (fn : Nat) : Nat := fn % 26
def gsmT3 (fn : Nat) : Nat := fn % 51

/-- `gsm_gsmtime2fn`: the frame of three counters. -/
def gsmtime2fn (t1 t2 t3 : Nat) : Nat :=
  51 * 26 * t1 + 51 * (((t3 : Int) - t2 + 26 * 3).tmod 26).toNat + t3

/-- T2 and T3 fix the position in the superframe, since 26 and 51 have no common divisor: 51 is −1
modulo 26, so that 51 times T3 − T2, plus T3, is T2 modulo 26. -/
theorem gsmtime2fn_superframe {r : Nat} (hr : r < 1326) :
    51 * (((r % 51 : Nat) - (r % 26 : Nat) + 26 * 3 : Int).tmod 26).toNat + r % 51 = r := by
  have hT2 : r % 26 < 26 := Nat.mod_lt _ (by decide)
  rw [Int.tmod_eq_emod_of_nonneg (by omega)]
  omega

/-- The three counters give the frame back. -/
theorem gsmtime2fn_counters (fn : Nat) : gsmtime2fn (gsmT1 fn) (gsmT2 fn) (gsmT3 fn) = fn := by
  have hr : fn % 1326 < 1326 := Nat.mod_lt _ (by decide)
  have hT2 : fn % 1326 % 26 = fn % 26 := Nat.mod_mod_of_dvd fn (by decide)
  have hT3 : fn % 1326 % 51 = fn % 51 := Nat.mod_mod_of_dvd fn (by decide)
  have hpos := gsmtime2fn_superframe hr
  rw [hT2, hT3] at hpos
  unfold gsmtime2fn gsmT1 gsmT2 gsmT3
  rw [Nat.add_assoc, hpos]
  exact Nat.div_add_mod fn 1326

/-- The same with a remainder that is never negative. -/
theorem gsm_counters (fn : Nat) :
    (1326 * gsmT1 fn + 51 * (((gsmT3 fn : Int) - gsmT2 fn) % 26) + gsmT3 fn : Int) = fn := by
  have hfn := gsmtime2fn_counters fn
  have hT2 : fn % 26 < 26 := Nat.mod_lt _ (by decide)
  unfold gsmtime2fn gsmT2 at hfn
  unfold gsmT2
  rw [Int.tmod_eq_emod_of_nonneg (by omega)] at hfn
  omega

end Qosmo
