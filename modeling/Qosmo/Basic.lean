import Mathlib.Data.BitVec

/-!
# Qosmo.Basic

The words and bits shared by the device models: every bus of the Calypso baseband
moves 16-bit words, the serial lines move bytes, and the registers are read bit by bit.
Commands of the host come as texts, which are bytes as well.
-/

namespace Qosmo

/-- A 16-bit word of the DSP and peripheral buses. -/
abbrev Word := BitVec 16

/-- A byte of the serial lines and of the SIM. -/
abbrev Byte := BitVec 8

/-- Is bit `n` of the register `r` set? -/
def bitSet {w : Nat} (r : BitVec w) (n : Nat) : Bool := r.getLsbD n

/-- The bytes of a text. -/
def ascii (text : String) : List Byte := text.toList.map fun c => BitVec.ofNat 8 c.toNat

end Qosmo
