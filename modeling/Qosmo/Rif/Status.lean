import Qosmo.Rif.Stream

/-!
# Qosmo.Rif.Status

What SPCR says of the receiver.

The status bits are computed from the FIFO alone (`rif_spcr_read`), while the words of a burst
wait in the staging area too. The bits are right for the whole receiver as long as the FIFO is
`Topped`: no word waits outside a FIFO that has room. A burst, a read of DRR, a reset and a
flush all leave it so (`topped_of_refills`). A drain does not: it refills the FIFO only once it
is empty, and before the next word rather than after the last one (`topped_drain_iff`). So a
drain that stops with words still staged makes SPCR report fewer words than there are, and none
at all when it stopped at a multiple of four.
-/

namespace Qosmo.Rif

open List

variable {s : Rif}

/-! ### The status bits -/

/-- Status bits of SPCR, by number. -/
def spcrRrdyBit : Nat := 2
def spcrAlmostFullBit : Nat := 4
def spcrFifoEmptyBit : Nat := 5
def spcrFifoFullBit : Nat := 6

/-- A read of SPCR says of the receiver what it says of a FIFO that holds `n` words. -/
structure Reports (s : Rif) (n : Nat) : Prop where
  empty : bitSet s.spcrRead spcrFifoEmptyBit = decide (n = 0)
  ready : bitSet s.spcrRead spcrRrdyBit = decide (n ≠ 0)
  almostFull : bitSet s.spcrRead spcrAlmostFullBit = decide (s.threshold ≤ n)
  full : bitSet s.spcrRead spcrFifoFullBit = decide (fifoDepth ≤ n)

theorem getLsbD_ite (p : Prop) [Decidable p] (flag : Word) (i : Nat) :
    (if p then flag else 0).getLsbD i = (decide p && flag.getLsbD i) := by
  by_cases hp : p <;> simp [hp]

/-- A bit of SPCR: one that is kept, or a status bit. -/
theorem bitSet_spcrRead (s : Rif) (i : Nat) :
    bitSet s.spcrRead i = (s.spcr.getLsbD i && spcrRwMask.getLsbD i
      || decide (s.fifo.length = 0) && spcrFifoEmpty.getLsbD i
      || decide (s.threshold ≤ s.fifo.length) && spcrAlmostFull.getLsbD i
      || decide (fifoDepth ≤ s.fifo.length) && spcrFifoFull.getLsbD i
      || decide (s.rsrfull = true) && spcrRsrfull.getLsbD i
      || decide (0 < s.fifo.length) && spcrRrdy.getLsbD i) := by
  simp only [bitSet, spcrRead, BitVec.getLsbD_or, BitVec.getLsbD_and, getLsbD_ite]

theorem reports_fifo (s : Rif) : s.Reports s.fifo.length := by
  constructor <;> rw [bitSet_spcrRead] <;>
    simp [spcrRwMask, spcrFifoEmptyBit, spcrRrdyBit, spcrAlmostFullBit, spcrFifoFullBit,
      spcrFifoEmpty, spcrAlmostFull, spcrFifoFull, spcrRsrfull, spcrRrdy, Nat.pos_iff_ne_zero]

/-! ### A FIFO that is topped up -/

/-- No word waits outside a FIFO that has room. -/
def Topped (s : Rif) : Prop := s.staged = [] ∨ fifoDepth ≤ s.fifo.length

instance decidableTopped (s : Rif) : Decidable s.Topped := inferInstanceAs (Decidable (_ ∨ _))

/-- A FIFO that is topped up holds what it can of the words of the receiver. -/
theorem topped_iff (h : s.WF) : s.Topped ↔ s.fifo.length = min fifoDepth s.level := by
  have hle := h.fifo_le
  have hstaged : s.staged = [] ↔ s.stage.length - s.stagePos = 0 := by
    rw [← staged_length, length_eq_zero_iff]
  rw [Topped, hstaged, level]
  omega

theorem refill_topped (s : Rif) : s.refill.Topped := by
  have hfifo : s.refill.fifo.length = s.fifo.length + moved fifoDepth s := by
    have hmoved : moved fifoDepth s ≤ s.staged.length := Nat.min_le_right _ _
    rw [refill_eq]
    simp only [length_append, length_take]
    omega
  have hstaged : s.refill.staged.length = s.staged.length - moved fifoDepth s := by
    rw [refill_eq]
    simp only [staged_length]
    omega
  by_cases hroom : s.staged.length ≤ fifoDepth - s.fifo.length
  · refine .inl (List.length_eq_zero_iff.mp ?_)
    rw [hstaged, moved]
    omega
  · refine .inr ?_
    rw [hfifo, moved]
    omega

theorem drrRead_topped (s : Rif) : s.drrRead.1.Topped := by
  unfold drrRead
  dsimp only
  split
  · exact refill_topped _
  · exact refill_topped s

/-- The calls that end with a refill, or with nothing in the receiver. -/
def Refills (s : Rif) : Event → Prop
  | .rxBurst armed w => w ≠ [] ∧ armed = true
  | .portr pa => pa = xioDrr
  | .portw pa val => pa = xioSpcr ∧ s.resets val = true
  | .drain _ => False
  | .flush => True

theorem topped_of_refills {e : Event} (h : s.Refills e) : (s.step e).1.Topped := by
  cases e with
  | rxBurst armed w =>
    obtain ⟨hw, rfl⟩ := h
    show (s.rxBurst true w).Topped
    unfold rxBurst
    rw [if_neg hw, if_neg (by simp)]
    exact refill_topped _
  | portr pa =>
    obtain rfl : pa = xioDrr := h
    exact drrRead_topped s
  | portw pa val =>
    obtain ⟨rfl, hreset⟩ := h
    show (s.spcrWrite val).Topped
    unfold spcrWrite
    rw [if_pos hreset]
    exact .inl drop_length
  | drain max => exact h.elim
  | flush => exact .inl rfl

/-! ### Drains -/

/-- The drain loop takes a word unless it is asked for none or there is none. -/
theorem drainLoop_none {k : Nat} (h : (drainLoop k s).2 = []) : k = 0 ∨ s.contents = [] := by
  have hlen := drainLoop_length k s
  rw [h, length_nil] at hlen
  rcases Nat.eq_zero_or_pos k with hk | hk
  · exact .inl hk
  · exact .inr (List.length_eq_zero_iff.mp (by omega))

/-- A loop that took a word leaves room for it in the FIFO. -/
theorem drainLoop_room (h : s.WF) {k : Nat} (htaken : (drainLoop k s).2 ≠ []) :
    (drainLoop k s).1.fifo.length < fifoDepth := by
  induction k generalizing s with
  | zero => exact absurd rfl htaken
  | succ k ih =>
    obtain ⟨t, hwf, ⟨-, -, heq⟩ | ⟨w, -, hroom, heq⟩⟩ := drainLoop_turn k s
    · rw [heq] at htaken
      exact absurd rfl htaken
    · rw [heq]
      by_cases hmore : (drainLoop k t).2 = []
      · -- the last word taken: the FIFO is as this turn left it, or empty
        rcases drainLoop_none hmore with rfl | hempty
        · exact hroom h
        · have hrest := drainLoop_contents k t
          rw [hempty, hmore, nil_append] at hrest
          rw [(List.append_eq_nil_iff.mp hrest.symm).1]
          decide
      · exact ih (hwf h) hmore

/-- **Drains.** A drain that takes words leaves the FIFO topped up only if none is staged. -/
theorem topped_drain_iff (h : s.WF) (max : Int) :
    (s.drain max).1.Topped ↔
      ((s.drain max).2 = [] ∧ s.Topped) ∨ (s.drain max).1.staged = [] := by
  have hloop : (s.drain max).2 = (drainLoop max.toNat s).2 ∧
      (s.drain max).1.fifo = (drainLoop max.toNat s).1.fifo ∧
      (s.drain max).1.staged = (drainLoop max.toNat s).1.staged := by
    unfold drain
    dsimp only
    split <;> exact ⟨rfl, rfl, rfl⟩
  obtain ⟨htaken, hfifo, hstaged⟩ := hloop
  rw [Topped, htaken, hfifo, hstaged]
  by_cases hnone : (drainLoop max.toNat s).2 = []
  · -- nothing was taken: the loop was asked for nothing, or there was nothing
    rcases drainLoop_none hnone with hzero | hempty
    · have hsame : drainLoop max.toNat s = (s, []) := by
        rw [hzero]
        rfl
      rw [hsame, Topped]
      simp only [true_and]
      exact ⟨Or.inl, fun hor => hor.elim id Or.inl⟩
    · have hrest := drainLoop_contents max.toNat s
      rw [hempty, hnone, nil_append] at hrest
      have hstaged' := (List.append_eq_nil_iff.mp hrest.symm).2
      exact ⟨fun _ => .inr hstaged', fun _ => .inl hstaged'⟩
  · -- the FIFO has room for the word taken, so only the staging area decides
    have hroom := drainLoop_room h hnone
    constructor
    · rintro (hstaged' | hfull)
      · exact .inr hstaged'
      · omega
    · rintro (⟨hnone', -⟩ | hstaged')
      · exact absurd hnone' hnone
      · exact .inl hstaged'

/-! ### Every history -/

/-- The calls that keep the FIFO topped up: all but a drain that stops with words staged. -/
def Settles (s : Rif) : Event → Prop
  | .drain max => (s.drain max).2 = [] ∨ (s.drain max).1.staged = []
  | _ => True

instance decidableSettles (s : Rif) : ∀ e, Decidable (s.Settles e)
  | .drain _ => inferInstanceAs (Decidable (_ ∨ _))
  | .rxBurst _ _ | .portr _ | .portw _ _ | .flush => isTrue trivial

/-- A call that neither refills nor drains leaves the FIFO and the staging area alone. -/
theorem topped_idle_iff {e : Event} (h : ¬s.Refills e) (hdrain : ∀ max, e ≠ .drain max) :
    (s.step e).1.Topped ↔ s.Topped := by
  cases e with
  | rxBurst armed w =>
    show (s.rxBurst armed w).Topped ↔ _
    rw [rxBurst_idle s h]
  | portr pa =>
    show (s.portr pa).1.Topped ↔ _
    rw [portr_of_ne_drr s h]
  | portw pa val =>
    show (s.portw pa val).1.Topped ↔ _
    unfold portw
    by_cases hpa : pa = xioSpcr
    · have hreset : s.resets val = false := by
        rw [Bool.eq_false_iff]
        exact fun hreset => h ⟨hpa, hreset⟩
      simp only [hpa, if_true, spcrWrite, hreset]
      rfl
    · simp only [hpa, if_false]
      split
      · rfl
      · split
        · rfl
        · split <;> rfl
  | drain max => exact absurd rfl (hdrain max)
  | flush => exact absurd trivial h

/-- **Step lemma.** A FIFO that is topped up stays so, unless a drain stops with words staged. -/
theorem topped_step_iff (h : s.WF ∧ s.Topped) (e : Event) :
    (s.step e).1.WF ∧ (s.step e).1.Topped ↔ s.Settles e := by
  rw [and_iff_right (step_wf e h.1)]
  by_cases hrefill : s.Refills e
  · refine iff_of_true (topped_of_refills hrefill) ?_
    cases e with
    | drain max => exact hrefill.elim
    | _ => trivial
  · cases e with
    | drain max =>
      rw [Settles, ← and_iff_left h.2 (a := (s.drain max).2 = [])]
      exact topped_drain_iff h.1 max
    | _ => exact (topped_idle_iff hrefill nofun).trans (iff_of_true h.2 trivial)

/-- SPCR is right about the receiver: it reports an empty FIFO and nothing to receive exactly
where the level is 0, and otherwise the flags of a FIFO that holds what it can of the level. -/
def Truthful (s : Rif) : Prop :=
  (bitSet s.spcrRead spcrFifoEmptyBit = true ∧ bitSet s.spcrRead spcrRrdyBit = false ↔
    s.level = 0) ∧
  (s.level ≠ 0 →
    bitSet s.spcrRead spcrAlmostFullBit = decide (s.threshold ≤ min fifoDepth s.level) ∧
    bitSet s.spcrRead spcrFifoFullBit = decide (fifoDepth ≤ min fifoDepth s.level))

instance decidableTruthful (s : Rif) : Decidable s.Truthful := inferInstanceAs (Decidable (_ ∧ _))

theorem truthful_of_topped (h : s.WF) (htop : s.Topped) : s.Truthful := by
  have hreports := reports_fifo s
  -- the flags are those of the FIFO, and its length is what the level asks for
  rw [(topped_iff h).mp htop] at hreports
  refine ⟨?_, fun _ => ⟨hreports.almostFull, hreports.full⟩⟩
  rw [hreports.empty, hreports.ready, decide_eq_true_iff, decide_eq_false_iff_not, not_not, and_self,
    Nat.min_eq_zero_iff]
  exact or_iff_right (by decide)

/-- The history has just begun, or its last call refilled the FIFO. -/
def Refilled (es : List Event) : Prop :=
  es = [] ∨ ∃ es' e, es = es' ++ [e] ∧ (machine.final init es').Refills e

theorem topped_of_refilled {es : List Event} (h : Refilled es) :
    (machine.final init es).WF ∧ (machine.final init es).Topped := by
  have hwf : (machine.final init es).WF :=
    Machine.invariant (I := WF) (fun _ e hs _ => step_wf e hs) init_wf (Machine.along_true _ _)
  refine ⟨hwf, ?_⟩
  rcases h with rfl | ⟨es', e, rfl, he⟩
  · exact .inl rfl
  · rw [Machine.final_append]
    exact topped_of_refills he

/-- **Status.** SPCR is right about the receiver after every history, if no drain has stopped
with words staged since the FIFO was last refilled by a burst, a read of DRR, a reset or a
flush. -/
theorem spcrRead_truthful (es₁ es₂ : List Event) (hrefilled : Refilled es₁)
    (hsettles : machine.Along Settles (machine.final init es₁) es₂) :
    (machine.final init (es₁ ++ es₂)).Truthful := by
  have htop : (machine.final (machine.final init es₁) es₂).WF ∧
      (machine.final (machine.final init es₁) es₂).Topped :=
    Machine.invariant (I := fun s => s.WF ∧ s.Topped)
      (fun s e hs he => (topped_step_iff hs e).mpr he) (topped_of_refilled hrefilled) hsettles
  rw [Machine.final_append]
  exact truthful_of_topped htop.1 htop.2

/-- A drain of two words out of six, a read of DRR, and a drain of the rest. -/
theorem spcrRead_truthful_after_drr :
    (machine.final init ([.rxBurst true [1, 2, 3, 4, 5, 6], .drain 2, .portr xioDrr]
      ++ [.drain 8])).Truthful :=
  spcrRead_truthful _ _ (.inr ⟨[.rxBurst true [1, 2, 3, 4, 5, 6], .drain 2], _, rfl, rfl⟩)
    (by decide +kernel)

/-- A drain of four words out of six: two are left, and SPCR reports none. -/
theorem spcrRead_untruthful :
    (machine.final init [.rxBurst true [1, 2, 3, 4, 5, 6], .drain 4]).level = 2 ∧
    bitSet (machine.final init [.rxBurst true [1, 2, 3, 4, 5, 6], .drain 4]).spcrRead
      spcrFifoEmptyBit = true ∧
    ¬(machine.final init [.rxBurst true [1, 2, 3, 4, 5, 6], .drain 4]).Truthful := by
  decide +kernel

end Qosmo.Rif
