import Qosmo.Gsm
import Qosmo.Grgsm.Basic
import Qosmo.Trx.Rach

/-!
# Qosmo.Grgsm.Reference

The request reference, written in two places.

With the DSP in use, the bridge corrects the reference of an immediate assignment as the firmware
reads it (`pont_reqref_corrigee`, in `Trx.Rach`). Without it, the gr-gsm layer writes the reference
into the block that `feed_agch` keeps. Both put the frame memorised for the access attempt, reduced
to T1', T2 and T3, into two bytes. To both, a memorised frame of 0 is none, and then the reference
stays as it was received.
-/

namespace Qosmo

open List

/-- The frame `pont_reqref_corrigee` has memorised for an RA. -/
def Rach.memo (s : Rach) (lastRach : BitVec 32) (ra : Byte) : BitVec 32 :=
  if s.rachFn ra = 0 ∧ s.rachRaVue ∧ ra = s.rachRa then lastRach else s.rachFn ra

theorem Rach.pontReqrefCorrigee_eq {s : Rach} {lastRach : BitVec 32} {ram : Nat → Byte} {ra : Byte}
    (hram : Assignment ram ra) :
    s.pontReqrefCorrigee true lastRach ram (aCd + 14)
      = if s.memo lastRach ra = 0 then none else some (reference (s.memo lastRach ra)) := by
  obtain ⟨hpd, htype, hra⟩ := hram
  unfold pontReqrefCorrigee
  simp only [Nat.add_assoc, Nat.reduceAdd, hpd, htype, hra]
  rw [if_neg (by simp), if_neg (by simp)]
  refine if_congr Iff.rfl rfl ?_
  rw [if_neg (by simp)]
  rfl

namespace Grgsm

theorem length_block (l2 : List Byte) : (block l2).length = 23 := by
  unfold block
  rw [length_append, length_take, length_replicate]
  omega

theorem getD_block {l2 : List Byte} {i : Nat} (hi : i < l2.length) (hi' : i < 23) :
    (block l2).getD i 0 = l2.getD i 0 := by
  unfold block
  rw [getD_eq_getElem?_getD, List.getElem?_append_left (by rw [length_take]; omega),
    List.getElem?_take_of_lt hi', ← getD_eq_getElem?_getD]

/-- Byte 8 is cut to its width once in the bridge, piece by piece in the layer. -/
theorem o8_eq (t1p : Word) (t3 : Byte) :
    (t1p <<< 3).setWidth 8 ||| ((t3 >>> 3) &&& 7) = Rach.o8 t1p t3 := by
  rw [Rach.o8, BitVec.setWidth_or, BitVec.setWidth_setWidth_of_le _ (by decide),
    BitVec.setWidth_eq]

/-- Bytes 8 and 9 as `feed_agch` writes them are the word of the bridge. -/
theorem getD_writeReference (l2 : List Byte) (memo : BitVec 32) :
    (writeReference (block l2) memo).getD 9 0 ++ (writeReference (block l2) memo).getD 8 0
      = Rach.reference memo := by
  have hlength := length_block l2
  unfold writeReference Rach.reference
  dsimp only
  rw [o8_eq]
  congr 1
  · simp [getD_eq_getElem?_getD, hlength, Rach.o9]
  · simp [getD_eq_getElem?_getD, hlength]

/-- An assignment replaces whatever is waiting. -/
theorem agchBuf_feedAgch (s : Grgsm) (lastRach : BitVec 32) {l2 : List Byte}
    (hmt : l2.getD 2 0 = 0x3F) : (s.feedAgch lastRach l2).agchBuf = s.agchBlock lastRach l2 := by
  unfold feedAgch
  rw [hmt]
  rfl

/-- The frame that the counters of a reference stand for. -/
def referenceFrame (w : Word) : Nat :=
  let (t1p, t2, t3) := Rach.fields w
  gsmtime2fn t1p t2 t3

/-- The counters of the reference give the frame modulo 32 superframes. -/
theorem referenceFrame_reference (fn : BitVec 32) :
    referenceFrame (Rach.reference fn) = fn.toNat % 42432 := by
  have hcounters := gsmtime2fn_counters (fn.toNat % 42432)
  have hT1 : gsmT1 (fn.toNat % 42432) = fn.toNat / 1326 % 32 := by
    unfold gsmT1
    omega
  have hT2 : gsmT2 (fn.toNat % 42432) = fn.toNat % 26 := Nat.mod_mod_of_dvd _ (by decide)
  have hT3 : gsmT3 (fn.toNat % 42432) = fn.toNat % 51 := Nat.mod_mod_of_dvd _ (by decide)
  rw [hT1, hT2, hT3] at hcounters
  unfold referenceFrame
  rw [Rach.fields_reference]
  exact hcounters

/-- **The two references.** Let both places have memorised the frame `fn` for an attempt, and let an
immediate assignment for it come. Then both write the same two bytes, and their counters stand for
`fn` modulo 42432. If there is no frame (`fn = 0`), neither of them writes. -/
theorem reference_agrees (s : Rach) (g : Grgsm) (lastRach lastRach' fn : BitVec 32)
    (ram : Nat → Byte) (l2 : List Byte) (ra : Byte) (hram : Rach.Assignment ram ra)
    (hmt : l2.getD 2 0 = 0x3F) (hlength : 10 ≤ l2.length) (hra : l2.getD 7 0 = ra)
    (hs : s.memo lastRach ra = fn) (hg : g.memo lastRach' ra = fn) :
    let bridge := s.pontReqrefCorrigee true lastRach ram (Rach.aCd + 14)
    let kept := (g.feedAgch lastRach' l2).agchBuf
    let layer : Word := kept.getD 9 0 ++ kept.getD 8 0
    (fn ≠ 0 → bridge = some layer ∧ referenceFrame layer = fn.toNat % 42432) ∧
      (fn = 0 → bridge = none ∧ kept = block l2) := by
  have hkept : (g.feedAgch lastRach' l2).agchBuf
      = if fn ≠ 0 then writeReference (block l2) fn else block l2 := by
    rw [agchBuf_feedAgch g lastRach' hmt, agchBlock, getD_block (by omega) (by decide), hra, hg]
    exact if_congr ⟨fun h => h.2.2, fun h => ⟨hmt, hlength, h⟩⟩ rfl rfl
  intro bridge kept layer
  have hbridge : bridge = if fn = 0 then none else some (Rach.reference fn) := by
    rw [← hs]
    exact Rach.pontReqrefCorrigee_eq hram
  constructor
  · intro hfn
    have hlayer : layer = Rach.reference fn := by
      rw [← getD_writeReference l2, ← (hkept.trans (if_pos hfn))]
    rw [hbridge, if_neg hfn, hlayer]
    exact ⟨rfl, referenceFrame_reference fn⟩
  · intro hfn
    exact ⟨hbridge.trans (if_pos hfn), hkept.trans (if_neg (not_not.mpr hfn))⟩

/-- Both have confirmed frame 1434 for the RA 21. -/
theorem reference_agrees_confirmed :
    let s : Rach := { Rach.init with rachFn := fun _ => 1434 }
    let g : Grgsm := { init with rachConfFn := fun _ => 1434 }
    let l2 : List Byte := [0x2D, 0x06, 0x3F, 0x03, 0x20, 0x10, 0x00, 21, 0, 0]
    let kept := (g.feedAgch 0 l2).agchBuf
    s.pontReqrefCorrigee true 0 (fun i => l2.getD (i - Rach.aCd - 6) 0) (Rach.aCd + 14)
        = some (kept.getD 9 0 ++ kept.getD 8 0) ∧
      referenceFrame (kept.getD 9 0 ++ kept.getD 8 0) = 1434 :=
  (reference_agrees { Rach.init with rachFn := fun _ => 1434 }
    { init with rachConfFn := fun _ => 1434 } 0 0 1434
    (fun i => List.getD [0x2D, 0x06, 0x3F, 0x03, 0x20, 0x10, 0x00, 21, 0, 0] (i - Rach.aCd - 6) 0)
    [0x2D, 0x06, 0x3F, 0x03, 0x20, 0x10, 0x00, 21, 0, 0] 21 ⟨rfl, rfl, rfl⟩ rfl (by decide) rfl
    rfl rfl).1 (by decide)

end Grgsm

end Qosmo
