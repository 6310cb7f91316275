import Qosmo.Basic
import Qosmo.Gsm
import Qosmo.Lib.Cyclic
import Qosmo.Lib.Run

/-!
# Qosmo.Bsp.Offset

The two clocks of the stream mode (`hw/arm/calypso/l1-dsp/calypso_bsp.c`).

At tick `t` the BSP delivers the BTS frame `t + g_ts0_offset`, while the mobile believes itself in
frame `t + g_off_mobile`. The offsets are set by the SBs delivered and by the BCCH reads, and then
corrected from what the mobile says of itself:

* the RA_C trace gives the frame of a RACH modulo 42432 (`calypso_bsp_off_mobile_rac`);
* every task the firmware posts carries `d_fn`, the frame it expects at the next tick, modulo 104
  (`calypso_bsp_dfn_observe`). A gap has to be seen three times in a row before it is believed.

42432 and 104 divide the hyperframe, so that the residues survive its folding.
-/

namespace Qosmo.Bsp

open Cyclic List

/-- The offsets from the tick to a frame, with what is remembered for their correction. -/
structure Offsets where
  /-- `g_ts0_offset`, to the BTS frame delivered -/
  ts0Offset : Option Int
  /-- `g_off_mobile`, to the mobile's own frame -/
  offMobile : Option Int
  /-- `g_off_rac_vu` -/
  offRacVu : Bool
  /-- `g_a5fn_tick` and `g_a5fn_vu` -/
  a5fnTick : BitVec 32
  a5fnVu : Bool
  /-- `d_prec` and `n_meme`: the gap observed last, and how often in a row -/
  dPrec : Int
  nMeme : Nat

namespace Offsets

def init : Offsets := ⟨none, none, false, 0, false, 99, 0⟩

/-- The settings read from the environment. -/
structure Gates where
  /-- `CALYPSO_BSP_DFN` and `CALYPSO_BSP_DFN_K` -/
  dfn : Bool
  dfnK : Int
  /-- `CALYPSO_BSP_OFF_A5FN` -/
  offA5fn : Bool
  /-- `CALYPSO_BSP_RAC_LIVRAISON` -/
  racLivraison : Bool

def Gates.default : Gates := ⟨true, 0, false, false⟩

/-! ### The frames of a tick -/

def frameAt (tick : BitVec 32) (offset : Int) : BitVec 32 :=
  BitVec.ofInt 32 (fold gsmHyperframe (tick.toNat + offset))

def fnMobileDuTick (s : Offsets) (tick : BitVec 32) : Option (BitVec 32) :=
  s.offMobile.map (frameAt tick)

def fnBtsDuTick (s : Offsets) (tick : BitVec 32) : Option (BitVec 32) :=
  s.ts0Offset.map (frameAt tick)

/-! ### What the mobile says -/

def offMobileA5fn (g : Gates) (s : Offsets) (tick fn : BitVec 32) : Offsets :=
  let s := { s with a5fnTick := tick, a5fnVu := true }
  if !g.offA5fn && s.offMobile.isSome then s
  else { s with offMobile := some (fn.toNat - tick.toNat) }

/-- The gap between `d_fn` and the frame to be delivered at the next tick, modulo 104. -/
def gap (g : Gates) (offset : Int) (tick : BitVec 32) (dfn : Word) : Int :=
  let w := fold gsmHyperframe (tick.toNat + 1 + offset)
  let d := (((dfn >>> 8).toNat : Int) + g.dfnK - w.tmod 104 + 2 * 104).tmod 104
  if 52 ≤ d then d - 104 else d

/-- The filters: the page carries a task and a frame, and there is an offset to compare with. -/
def passes (g : Gates) (dfn taskD : Word) : Bool :=
  g.dfn && dfn != 0 && taskD &&& 0x7FFF != 0 && decide ((dfn >>> 8).toNat < 104)

/-- `calypso_bsp_dfn_observe`, with the gap of an observation that passes the filters. -/
def dfnObserve (g : Gates) (s : Offsets) (tick : BitVec 32) (dfn taskD : Word) :
    Offsets × List Int :=
  match s.ts0Offset with
  | none => (s, [])
  | some offset =>
    if !passes g dfn taskD then (s, [])
    else
      let d := gap g offset tick dfn
      if d = 0 ∨ d < -6 ∨ 6 < d then ({ s with dPrec := 99, nMeme := 0 }, [d])
      else
        let n := if d = s.dPrec then s.nMeme + 1 else 1
        if n < 3 then ({ s with dPrec := d, nMeme := n }, [d])
        else ({ s with
            ts0Offset := some ((offset + d + gsmHyperframe).tmod gsmHyperframe)
            offMobile := s.offMobile.map (· + d)
            dPrec := 99
            nMeme := 0 }, [d])

/-- The offset that RA_C corrects: the mobile's, or the best guess at it. -/
def reference (s : Offsets) : Int :=
  match s.offMobile, s.ts0Offset with
  | some offset, _ => offset
  | none, some offset => offset
  | none, none => 0

/-- The correction: the residue that is missing, the shorter way round. -/
def racStep (ref : Int) (tick fn42432 : BitVec 32) : Int :=
  let m := fold 42432 (fn42432.toNat - (tick.toNat % 42432 : Nat))
  let d := fold 42432 (m - (ref.tmod 42432 + 42432).tmod 42432)
  if 21216 < d then d - 42432 else d

def offMobileRac (g : Gates) (s : Offsets) (tick fn42432 : BitVec 32) : Offsets :=
  let off := s.reference + racStep s.reference tick fn42432
  let s := { s with a5fnTick := tick, a5fnVu := true, offRacVu := true, offMobile := some off }
  match s.ts0Offset with
  | none => s
  | some offset =>
    if g.racLivraison && decide (off ≠ offset ∧ -6 ≤ off - offset ∧ off - offset ≤ 6) then
      { s with ts0Offset := some ((off + gsmHyperframe).tmod gsmHyperframe) }
    else s

/-! ### The offsets as a machine -/

inductive Event where
  /-- a page with a task -/
  | dfn (tick : BitVec 32) (dfn taskD : Word)
  /-- a RACH in the mobile's trace -/
  | rac (tick fn42432 : BitVec 32)
  /-- the firmware writes `a_a5fn` -/
  | a5fn (tick fn : BitVec 32)
  /-- an SB or a BCCH read sets the offsets -/
  | align (ts0Offset offMobile : Option Int)

def step (g : Gates) (s : Offsets) : Event → Offsets × List Int
  | .dfn tick dfn taskD => s.dfnObserve g tick dfn taskD
  | .rac tick fn42432 => (s.offMobileRac g tick fn42432, [])
  | .a5fn tick fn => (s.offMobileA5fn g tick fn, [])
  | .align ts0Offset offMobile => ({ s with ts0Offset := ts0Offset, offMobile := offMobile }, [])

/-- The offsets, showing the gaps of the observations that pass the filters. -/
def machine (g : Gates) : Machine Offsets Event Int := ⟨step g⟩

/-! ### RA_C -/

theorem frameAt_modEq (tick : BitVec 32) (offset : Int) :
    ((frameAt tick offset).toNat : Int) ≡ tick.toNat + offset [ZMOD gsmHyperframe] := by
  unfold frameAt
  rw [toNat_ofInt_fold (by decide) (by decide)]
  exact fold_modEq (by decide) _

theorem frameAt_lt (tick : BitVec 32) (offset : Int) :
    (frameAt tick offset).toNat < gsmHyperframe := by
  have hlt := Int.emod_lt_of_pos (tick.toNat + offset) (b := gsmHyperframe) (by decide)
  have hfold : ((frameAt tick offset).toNat : Int) = fold gsmHyperframe (tick.toNat + offset) :=
    toNat_ofInt_fold (by decide) (by decide) _
  rw [fold_eq_emod (by decide)] at hfold
  omega

/-- A residue taken twice, so that it is not negative. -/
theorem tmod_add_tmod (x : Int) : (x.tmod 42432 + 42432).tmod 42432 = x % 42432 := by
  have hx := Int.tmod_eq_emod (a := x) (b := 42432)
  have hpos : 0 ≤ x.tmod 42432 + 42432 := by
    have := Int.lt_tmod_of_pos x (b := 42432) (by decide)
    omega
  rw [Int.tmod_eq_emod_of_nonneg hpos]
  split at hx <;> omega

theorem racStep_spec (ref : Int) (tick fn42432 : BitVec 32) :
    tick.toNat + (ref + racStep ref tick fn42432) ≡ fn42432.toNat [ZMOD 42432] ∧
      2 * |racStep ref tick fn42432| ≤ 42432 := by
  have hn : (0 : Int) < 42432 := by decide
  simp only [racStep, tmod_add_tmod, fold_eq_emod hn, Int.ModEq]
  split
  · rw [abs_of_neg (by omega)]
    omega
  · rw [abs_of_nonneg (by omega)]
    omega

theorem offMobileRac_eq (g : Gates) (s : Offsets) (tick fn42432 : BitVec 32) :
    ∃ ts0, s.offMobileRac g tick fn42432 =
      { s with
        a5fnTick := tick, a5fnVu := true, offRacVu := true, ts0Offset := ts0
        offMobile := some (s.reference + racStep s.reference tick fn42432) } := by
  unfold offMobileRac
  dsimp only
  split
  · exact ⟨_, rfl⟩
  · split <;> exact ⟨_, rfl⟩

/-- After RA_C the mobile's frame at the tick is the one reported, modulo 42432, and the offset has
not moved further than it had to: by half of 42432 at most. -/
theorem offMobileRac_nearest (g : Gates) (s : Offsets) (tick fn42432 : BitVec 32) :
    ∃ off fn, (s.offMobileRac g tick fn42432).offMobile = some off ∧
      (s.offMobileRac g tick fn42432).fnMobileDuTick tick = some fn ∧
      fn.toNat ≡ fn42432.toNat [ZMOD 42432] ∧
      |off - s.reference| ≤ 21216 ∧
      ∀ off' : Int, (frameAt tick off').toNat ≡ fn42432.toNat [ZMOD 42432] →
        |off - s.reference| ≤ |off' - s.reference| := by
  have hmobile : (s.offMobileRac g tick fn42432).offMobile =
      some (s.reference + racStep s.reference tick fn42432) := by
    obtain ⟨ts0, heq⟩ := offMobileRac_eq g s tick fn42432
    rw [heq]
  obtain ⟨hmod, hhalf⟩ := racStep_spec s.reference tick fn42432
  generalize racStep s.reference tick fn42432 = d at hmobile hmod hhalf
  refine ⟨s.reference + d, frameAt tick (s.reference + d), hmobile, ?_, ?_, ?_, ?_⟩
  · rw [fnMobileDuTick, hmobile, Option.map_some]
  · exact ((frameAt_modEq tick _).of_dvd (by decide)).trans hmod
  · rw [add_sub_cancel_left]
    omega
  · intro off' hoff'
    rw [add_sub_cancel_left]
    apply abs_le_of_modEq hhalf
    -- both offsets lead from the tick to the frame reported
    have hsame := (((frameAt_modEq tick off').of_dvd (by decide)).symm.trans hoff').trans hmod.symm
    have hstep := (Int.ModEq.add_left_cancel' _ hsame).sub_right s.reference
    rwa [add_sub_cancel_left] at hstep

/-! ### The gaps of `d_fn` -/

/-- A gap is the residue of what `d_fn` is ahead, folded to −52..51. -/
theorem gap_spec (offset : Int) (tick : BitVec 32) (dfn : Word) :
    gap .default offset tick dfn ≡ (dfn >>> 8).toNat - (tick.toNat + 1 + offset) [ZMOD 104] ∧
      -52 ≤ gap .default offset tick dfn ∧ gap .default offset tick dfn < 52 := by
  have hn : (0 : Int) < gsmHyperframe := by decide
  have hdelivered := (fold_modEq hn (tick.toNat + 1 + offset)).of_dvd (m := 104) (by decide)
  have hnonneg : 0 ≤ fold gsmHyperframe (tick.toNat + 1 + offset) := by
    rw [fold_eq_emod hn]
    exact Int.emod_nonneg _ hn.ne'
  unfold gap
  generalize fold gsmHyperframe (tick.toNat + 1 + offset) = w at hdelivered hnonneg
  simp only [Gates.default, Int.tmod_eq_emod_of_nonneg hnonneg]
  rw [Int.tmod_eq_emod_of_nonneg (by omega)]
  unfold Int.ModEq at hdelivered ⊢
  split <;> omega

/-- The offset that a gap `d` leads to. -/
def moved (offset d : Int) : Int := (offset + d + gsmHyperframe).tmod gsmHyperframe

theorem moved_modEq (offset d : Int) : moved offset d ≡ offset + d [ZMOD gsmHyperframe] :=
  (tmod_modEq _ _).trans (Int.add_modulus_modEq_iff.mpr rfl)

theorem gap_moved (offset : Int) (tick : BitVec 32) (dfn : Word) :
    gap .default (moved offset (gap .default offset tick dfn)) tick dfn = 0 := by
  obtain ⟨hbefore, -, -⟩ := gap_spec offset tick dfn
  generalize gap .default offset tick dfn = d at hbefore
  obtain ⟨hafter, hlow, hhigh⟩ := gap_spec (moved offset d) tick dfn
  have hmoved := (moved_modEq offset d).of_dvd (m := 104) (by decide)
  unfold Int.ModEq at hbefore hafter hmoved
  omega

/-- What an observation does. -/
inductive Observed (g : Gates) (s : Offsets) (tick : BitVec 32) (dfn taskD : Word) :
    Offsets × List Int → Prop where
  /-- it does not pass the filters -/
  | filtered : Observed g s tick dfn taskD (s, [])
  /-- there is no gap, or it is too large to be believed -/
  | rejected {offset : Int} : s.ts0Offset = some offset →
      Observed g s tick dfn taskD ({ s with dPrec := 99, nMeme := 0 }, [gap g offset tick dfn])
  /-- the gap is noted -/
  | noted {offset : Int} : s.ts0Offset = some offset → Observed g s tick dfn taskD
      ({ s with
          dPrec := gap g offset tick dfn
          nMeme := if gap g offset tick dfn = s.dPrec then s.nMeme + 1 else 1 },
        [gap g offset tick dfn])
  /-- the gap is believed -/
  | believed {offset : Int} : s.ts0Offset = some offset → passes g dfn taskD = true →
      gap g offset tick dfn ≠ 0 → |gap g offset tick dfn| ≤ 6 →
      gap g offset tick dfn = s.dPrec → 2 ≤ s.nMeme → Observed g s tick dfn taskD
        ({ s with
            ts0Offset := some (moved offset (gap g offset tick dfn))
            offMobile := s.offMobile.map (· + gap g offset tick dfn)
            dPrec := 99
            nMeme := 0 },
          [gap g offset tick dfn])

theorem observed_dfnObserve (g : Gates) (s : Offsets) (tick : BitVec 32) (dfn taskD : Word) :
    Observed g s tick dfn taskD (s.dfnObserve g tick dfn taskD) := by
  unfold dfnObserve
  split
  · exact .filtered
  · rename_i offset hoffset
    cases hpass : passes g dfn taskD with
    | false => exact .filtered
    | true =>
      simp only [Bool.not_true, Bool.false_eq_true, if_false]
      by_cases hreject : gap g offset tick dfn = 0 ∨ gap g offset tick dfn < -6 ∨
          6 < gap g offset tick dfn
      · rw [if_pos hreject]
        exact .rejected hoffset
      · rw [if_neg hreject]
        by_cases hcount : (if gap g offset tick dfn = s.dPrec then s.nMeme + 1 else 1) < 3
        · rw [if_pos hcount]
          exact .noted hoffset
        · rw [if_neg hcount]
          have hsame : gap g offset tick dfn = s.dPrec := by
            by_contra hne
            rw [if_neg hne] at hcount
            omega
          rw [if_pos hsame] at hcount
          refine .believed hoffset hpass ?_ ?_ hsame (by omega)
          · exact fun hzero => hreject (.inl hzero)
          · rw [abs_le]
            omega

/-- The gap observed last has been seen `n_meme` times in a row. -/
def Streak (gaps : List Int) (s : Offsets) : Prop := List.replicate s.nMeme s.dPrec <:+ gaps

variable {gaps : List Int}

theorem replicate_suffix_snoc {n : Nat} {d : Int}
    (h : List.replicate n d <:+ gaps) : List.replicate (n + 1) d <:+ gaps ++ [d] := by
  obtain ⟨front, hfront⟩ := h
  refine ⟨front, ?_⟩
  rw [replicate_succ', ← append_assoc, hfront]

theorem streak_dfnObserve {g : Gates} {s : Offsets} (h : Streak gaps s)
    (tick : BitVec 32) (dfn taskD : Word) :
    Streak (gaps ++ (s.dfnObserve g tick dfn taskD).2) (s.dfnObserve g tick dfn taskD).1 := by
  have hobserved := observed_dfnObserve g s tick dfn taskD
  generalize s.dfnObserve g tick dfn taskD = r at hobserved
  cases hobserved with
  | filtered => rwa [append_nil]
  | rejected | believed => exact nil_suffix
  | noted =>
    unfold Streak
    dsimp only
    split
    · rename_i hsame
      rw [hsame]
      exact replicate_suffix_snoc h
    · exact suffix_append _ _

/-- The other events leave the streak alone. -/
theorem streak_step {g : Gates} {s : Offsets} (h : Streak gaps s) (e : Event) :
    Streak (gaps ++ (step g s e).2) (step g s e).1 := by
  cases e with
  | dfn tick dfn taskD => exact streak_dfnObserve h tick dfn taskD
  | rac tick fn42432 =>
    obtain ⟨ts0, heq⟩ := offMobileRac_eq g s tick fn42432
    show Streak (gaps ++ []) (s.offMobileRac g tick fn42432)
    rwa [heq, append_nil]
  | a5fn tick fn =>
    show Streak (gaps ++ []) (s.offMobileA5fn g tick fn)
    rw [append_nil]
    dsimp only [offMobileA5fn]
    split <;> exact h
  | align ts0Offset offMobile => rwa [show (step g s (.align ts0Offset offMobile)).2 = [] from rfl,
      append_nil]

theorem streak_run (g : Gates) (es : List Event) :
    Streak ((machine g).trace init es) ((machine g).final init es) := by
  have hstart : Streak [] init := nil_suffix
  have hrun := Machine.history (M := machine g) (I := Streak) (C := fun _ _ => True)
    (fun gaps s e h _ => streak_step h e) hstart (Machine.along_true init es)
  rwa [nil_append] at hrun

/-- In every run, an observation changes the delivery offset only if it is the third in a row of
those that pass the filters with the same gap `d`, 0 < |d| ≤ 6. It then moves the offset by `d`
modulo the hyperframe, and the mobile's with it, and the same observation made again has no gap. -/
theorem dfnObserve_moves (es : List Event) (tick : BitVec 32) (dfn taskD : Word)
    {s s' : Offsets} (hs : (machine .default).final init es = s)
    (hs' : (machine .default).final init (es ++ [.dfn tick dfn taskD]) = s')
    (hmoves : s'.ts0Offset ≠ s.ts0Offset) :
    ∃ offset offset' d, s.ts0Offset = some offset ∧ s'.ts0Offset = some offset' ∧
      0 < |d| ∧ |d| ≤ 6 ∧
      [d, d, d] <:+ (machine .default).trace init (es ++ [.dfn tick dfn taskD]) ∧
      offset' ≡ offset + d [ZMOD gsmHyperframe] ∧
      s'.offMobile = s.offMobile.map (· + d) ∧
      (s'.dfnObserve .default tick dfn taskD).2 = [0] := by
  have hstreak := streak_run .default es
  rw [Machine.final_append] at hs'
  rw [Machine.trace_append]
  rw [hs] at hs' hstreak ⊢
  have hlast : (machine .default).trace s [.dfn tick dfn taskD] =
      (s.dfnObserve .default tick dfn taskD).2 := append_nil _
  rw [hlast]
  replace hs' : (s.dfnObserve .default tick dfn taskD).1 = s' := hs'
  have hobserved := observed_dfnObserve .default s tick dfn taskD
  generalize s.dfnObserve .default tick dfn taskD = r at hobserved hs' ⊢
  subst hs'
  cases hobserved with
  | filtered | rejected | noted => exact absurd rfl hmoves
  | @believed offset hoffset hpass hne hsmall hsame hcount =>
    refine ⟨offset, _, gap .default offset tick dfn, hoffset, rfl, abs_pos.mpr hne, hsmall, ?_,
      moved_modEq _ _, rfl, ?_⟩
    · -- the streak had two at least
      have hthree : List.replicate 3 s.dPrec <:+ List.replicate (s.nMeme + 1) s.dPrec :=
        ⟨List.replicate (s.nMeme - 2) s.dPrec, by
          rw [replicate_append_replicate]
          congr 1
          omega⟩
      rw [hsame]
      exact hthree.trans (replicate_suffix_snoc hstreak)
    · unfold dfnObserve
      simp only [hpass, gap_moved]
      rfl

/-- A mobile one frame ahead of what is delivered: three pages in a row say so. -/
def oneAhead : List Event := [.align (some 1000) (some 998), .dfn 40 0x0200 1, .dfn 41 0x0300 1]

theorem dfnObserve_moves_one_ahead :
    ((machine .default).final init (oneAhead ++ [.dfn 42 0x0400 1])).ts0Offset = some 1001 ∧
    ∃ offset offset' d, ((machine .default).final init oneAhead).ts0Offset = some offset ∧
      ((machine .default).final init (oneAhead ++ [.dfn 42 0x0400 1])).ts0Offset = some offset' ∧
      0 < |d| ∧ |d| ≤ 6 ∧
      [d, d, d] <:+ (machine .default).trace init (oneAhead ++ [.dfn 42 0x0400 1]) ∧
      offset' ≡ offset + d [ZMOD gsmHyperframe] ∧
      ((machine .default).final init (oneAhead ++ [.dfn 42 0x0400 1])).offMobile =
        ((machine .default).final init oneAhead).offMobile.map (· + d) ∧
      (((machine .default).final init (oneAhead ++ [.dfn 42 0x0400 1])).dfnObserve .default
        42 0x0400 1).2 = [0] :=
  ⟨by decide +kernel, dfnObserve_moves oneAhead 42 0x0400 1 rfl rfl (by decide +kernel)⟩

end Offsets

end Qosmo.Bsp
