import Qosmo.Rif.Basic

/-!
# Qosmo.Rif.Stream

The receiver refines one bounded queue.

The FIFO and the staging area are two halves of the queue `Rif.contents`.
`refill_eq` says once what a refill does (it moves words across the boundary), so
that each entry point has a one-line effect on `contents`; `step_contents` puts
them together as queue operations, and the laws of `Qosmo.Lib.Queue` then hold
over every history.

A read of DRR on an empty receiver is outside this account on purpose: the
source keeps the last value rather than fabricate a sample, so such a read hands
out a word that was already handed out (`Obs.stale`).
-/

namespace Qosmo.Rif

open List

variable {s : Rif}

/-- The bounds the source's arrays rely on. -/
structure WF (s : Rif) : Prop where
  fifo_le : s.fifo.length ≤ fifoDepth
  stage_le : s.stage.length ≤ stageMax
  pos_le : s.stagePos ≤ s.stage.length

theorem init_wf : init.WF := ⟨by decide, by decide, by decide⟩

@[simp] theorem staged_length (s : Rif) : s.staged.length = s.stage.length - s.stagePos := by
  simp [staged]

/-! ### Refill -/

/-- How many words a refill of at most `k` iterations moves. -/
def moved (k : Nat) (s : Rif) : Nat := min (min k (fifoDepth - s.fifo.length)) s.staged.length

/-- What the refill loop does, whatever its fuel. -/
theorem refillLoop_eq (k : Nat) (s : Rif) :
    refillLoop k s = { s with
      fifo := s.fifo ++ s.staged.take (moved k s), stagePos := s.stagePos + moved k s } := by
  induction k generalizing s with
  | zero => simp [refillLoop, moved]
  | succ k ih =>
    rw [refillLoop]
    cases hst : s.staged with
    | nil => simp [moved, hst]
    | cons w rest =>
      by_cases hroom : s.fifo.length < fifoDepth
      · -- one word crosses, the loop goes on from the shorter staging area
        have hnext : ({ s with fifo := s.fifo ++ [w], stagePos := s.stagePos + 1 } : Rif).staged
            = rest := by
          have : s.stage.drop s.stagePos = w :: rest := hst
          rw [staged, ← drop_drop, this]
          rfl
        have hmoved : moved (k + 1) s
            = moved k { s with fifo := s.fifo ++ [w], stagePos := s.stagePos + 1 } + 1 := by
          simp only [moved, hst, hnext, length_cons, length_append, length_nil]
          omega
        simp only [hroom, if_true, ih, hnext, hmoved, take_succ_cons, append_assoc,
          singleton_append, Nat.add_assoc, Nat.add_comm 1]
      · have : moved (k + 1) s = 0 := by simp only [moved]; omega
        simp [hroom, this]

/-- **Refill.** Words move from the staging area to the FIFO until one of them has
no more to give or to take. -/
theorem refill_eq (s : Rif) :
    s.refill = { s with
      fifo := s.fifo ++ s.staged.take (moved fifoDepth s),
      stagePos := s.stagePos + moved fifoDepth s } := refillLoop_eq fifoDepth s

@[simp] theorem refill_stage (s : Rif) : s.refill.stage = s.stage := by rw [refill_eq]

@[simp] theorem refill_contents (s : Rif) : s.refill.contents = s.contents := by
  rw [refill_eq]
  simp only [contents, staged, append_assoc, ← drop_drop]
  rw [take_append_drop]

/-- After a refill the FIFO is empty only if the receiver is. -/
theorem refill_done (s : Rif) (hempty : s.refill.fifo = []) : s.contents = [] := by
  rw [refill_eq] at hempty
  have hfifo : s.fifo = [] := (List.append_eq_nil_iff.mp hempty).1
  have htake := (List.append_eq_nil_iff.mp hempty).2
  have hstaged : s.staged = [] := by
    have hlen := congrArg List.length htake
    simp only [length_take, moved, hfifo, length_nil, fifoDepth] at hlen
    exact eq_nil_of_length_eq_zero (by omega)
  simp [contents, hfifo, hstaged]

theorem WF.refill (h : s.WF) : s.refill.WF := by
  have hf := h.fifo_le
  have hp := h.pos_le
  rw [refill_eq]
  refine ⟨?_, h.stage_le, ?_⟩
  · simp only [length_append, length_take, moved]
    omega
  · simp only [moved, staged_length]
    omega

/-! ### Reads of DRR and drains -/

/-- A read of DRR delivers the head of the receiver's contents, if there is one. -/
theorem drrRead_spec (s : Rif) :
    (s.contents = [] ∧ s.refill.fifo = [] ∧ s.drrRead = (s.refill, s.drr)) ∨
    (∃ w rest, s.refill.fifo = w :: rest ∧ s.drrRead.2 = w ∧
      s.contents = w :: s.drrRead.1.contents) := by
  cases hf : s.refill.fifo with
  | nil =>
    refine .inl ⟨refill_done s hf, rfl, ?_⟩
    have hdrr : s.refill.drr = s.drr := by rw [refill_eq]
    simp [drrRead, hf, hdrr]
  | cons w rest =>
    refine .inr ⟨w, rest, rfl, by simp [drrRead, hf], ?_⟩
    have hc := refill_contents s
    simp only [drrRead, hf, refill_contents]
    rw [← hc, contents, hf]
    rfl

theorem WF.drrRead (h : s.WF) : s.drrRead.1.WF := by
  have hr := h.refill
  unfold Rif.drrRead
  cases hf : s.refill.fifo with
  | nil => simpa [hf] using hr
  | cons w rest =>
    simp only [hf]
    refine WF.refill ⟨?_, hr.stage_le, hr.pos_le⟩
    have := hr.fifo_le
    simp only [hf, length_cons] at this
    exact Nat.le_of_succ_le this

/-- A turn of the drain loop stops on an empty receiver, or takes the oldest word. -/
theorem drainLoop_turn (k : Nat) (s : Rif) :
    ∃ t : Rif, (s.WF → t.WF) ∧
      ((s.contents = [] ∧ t.contents = [] ∧ drainLoop (k + 1) s = (t, [])) ∨
        ∃ w, s.contents = w :: t.contents ∧ (s.WF → t.fifo.length < fifoDepth) ∧
          drainLoop (k + 1) s = ((drainLoop k t).1, w :: (drainLoop k t).2)) := by
  rw [drainLoop]
  set t := if s.fifo.length = 0 then s.refill else s with ht
  have hwf : s.WF → t.WF := by
    intro h
    rw [ht]
    split
    · exact h.refill
    · exact h
  have hcontents : t.contents = s.contents := by
    rw [ht]
    split <;> simp
  cases hf : t.fifo with
  | nil =>
    -- the FIFO is empty after a refill: nothing was staged either
    have hempty : s.contents = [] := by
      by_cases hzero : s.fifo.length = 0
      · rw [if_pos hzero] at ht
        exact refill_done s (by rw [← ht, hf])
      · rw [if_neg hzero] at ht
        rw [← ht, hf] at hzero
        exact absurd rfl hzero
    exact ⟨t, hwf, .inl ⟨hempty, hcontents.trans hempty, rfl⟩⟩
  | cons w rest =>
    have hroom : s.WF → rest.length < fifoDepth := by
      intro h
      have hle := (hwf h).fifo_le
      rwa [hf, length_cons] at hle
    refine ⟨{ t with fifo := rest }, fun h => ?_, .inr ⟨w, ?_, hroom, rfl⟩⟩
    · exact ⟨Nat.le_of_lt (hroom h), (hwf h).stage_le, (hwf h).pos_le⟩
    · rw [← hcontents, contents, hf]
      rfl

/-- The drain loop takes words off the front of the contents. -/
theorem drainLoop_contents (k : Nat) (s : Rif) :
    s.contents = (drainLoop k s).2 ++ (drainLoop k s).1.contents := by
  induction k generalizing s with
  | zero => rfl
  | succ k ih =>
    obtain ⟨t, -, ⟨hs, ht, heq⟩ | ⟨w, hs, -, heq⟩⟩ := drainLoop_turn k s
    · rw [heq, hs, ht]
      rfl
    · rw [heq, hs, cons_append, ← ih t]

theorem drainLoop_length (k : Nat) (s : Rif) :
    (drainLoop k s).2.length = min k s.contents.length := by
  induction k generalizing s with
  | zero => simp [drainLoop]
  | succ k ih =>
    obtain ⟨t, -, ⟨hs, -, heq⟩ | ⟨w, hs, -, heq⟩⟩ := drainLoop_turn k s
    · rw [heq, hs]
      simp
    · rw [heq, hs, length_cons, length_cons, ih t]
      omega

theorem WF.drainLoop (h : s.WF) (k : Nat) : (drainLoop k s).1.WF := by
  induction k generalizing s with
  | zero => exact h
  | succ k ih =>
    obtain ⟨t, hwf, ⟨-, -, heq⟩ | ⟨w, -, -, heq⟩⟩ := drainLoop_turn k s
    · rw [heq]
      exact hwf h
    · rw [heq]
      exact ih (hwf h)

theorem drain_contents (s : Rif) (max : Int) :
    s.contents = (s.drain max).2 ++ (s.drain max).1.contents := by
  have h := drainLoop_contents max.toNat s
  simp only [drain]
  split <;> exact h

theorem level_eq (s : Rif) : s.level = s.contents.length := by
  simp [level, contents]

theorem drain_length (s : Rif) (max : Nat) : (s.drain max).2.length = min max s.level := by
  have h := drainLoop_length max s
  rw [level_eq]
  simp only [drain, Int.toNat_natCast]
  split <;> exact h

theorem WF.drain (h : s.WF) (max : Int) : (s.drain max).1.WF := by
  have hl := h.drainLoop max.toNat
  simp only [Rif.drain]
  split
  · exact ⟨hl.fifo_le, hl.stage_le, hl.pos_le⟩
  · exact hl

/-! ### Bursts, resets and flushes -/

theorem clip_length_le (w : List Word) : (clip w).length ≤ stageMax := by
  simp only [clip, length_take]
  omega

/-- What a burst stages: the words waiting, less the oldest `perte`, then the words
it brings. -/
theorem stageBurst_eq (s : Rif) (w : List Word) :
    s.stageBurst w = { s with
      stage := s.staged.drop (s.perte w) ++ clip w, stagePos := 0,
      rsrfull := s.rsrfull || decide (0 < s.perte w) } := by
  by_cases hover : stageMax < s.staged.length + (clip w).length
  · have hpos : 0 < s.perte w := by unfold perte; omega
    simp only [stageBurst, hover, if_true, hpos, decide_true, Bool.or_true]
  · have hzero : s.perte w = 0 := by unfold perte; omega
    simp only [stageBurst, hover, if_false, hzero, drop_zero, lt_irrefl, decide_false,
      Bool.or_false]

/-- **Overrun.** An armed burst keeps the FIFO, drops the oldest `perte` staged
words and appends its own. -/
theorem rxBurst_contents (s : Rif) {w : List Word} (hw : w ≠ []) :
    (s.rxBurst true w).contents = s.fifo ++ s.staged.drop (s.perte w) ++ clip w := by
  simp only [rxBurst, hw, if_false, Bool.not_true, Bool.false_eq_true, refill_contents,
    stageBurst_eq]
  simp only [contents, staged, drop_zero, append_assoc]

/-- An empty burst, or one outside a receive window, is not received. -/
theorem rxBurst_idle (s : Rif) {armed : Bool} {w : List Word} (h : ¬(w ≠ [] ∧ armed)) :
    s.rxBurst armed w = s := by
  unfold rxBurst
  split
  · rfl
  · rename_i hne
    simp only [ne_eq, hne, not_false_eq_true, true_and, Bool.not_eq_true] at h
    simp [h]

theorem WF.rxBurst (h : s.WF) (armed : Bool) (w : List Word) : (s.rxBurst armed w).WF := by
  unfold Rif.rxBurst
  split
  · exact h
  · split
    · exact h
    · have hclip := clip_length_le w
      rw [stageBurst_eq]
      refine WF.refill ⟨h.fifo_le, ?_, Nat.zero_le _⟩
      simp only [length_append, length_drop, perte]
      omega

/-- A reset empties the receiver; any other write to SPCR leaves its words alone. -/
theorem spcrWrite_contents (s : Rif) (val : Word) :
    (s.spcrWrite val).contents = if s.resets val then [] else s.contents := by
  simp only [spcrWrite]
  split <;> simp [contents, staged]

theorem WF.portw (h : s.WF) (pa val : Word) : (s.portw pa val).1.WF := by
  unfold Rif.portw
  split
  · simp only [spcrWrite]
    split
    · exact ⟨Nat.zero_le _, h.stage_le, le_refl _⟩
    · exact ⟨h.fifo_le, h.stage_le, h.pos_le⟩
  · split
    · exact ⟨h.fifo_le, h.stage_le, h.pos_le⟩
    · split
      · exact ⟨h.fifo_le, h.stage_le, h.pos_le⟩
      · split <;> exact h

theorem portw_contents (s : Rif) (pa val : Word) :
    (s.portw pa val).1.contents
      = if pa = xioSpcr ∧ s.resets val then [] else s.contents := by
  unfold portw
  by_cases hpa : pa = xioSpcr
  · simp [hpa, spcrWrite_contents]
  · simp only [hpa, if_false, false_and]
    split
    · rfl
    · split
      · rfl
      · split <;> rfl

theorem WF.portr (h : s.WF) (pa : Word) : (s.portr pa).1.WF := by
  unfold Rif.portr
  split
  · exact h.drrRead
  · split
    · exact h
    · split
      · exact h
      · split <;> exact h

/-- Reading another register than DRR leaves the receiver alone. -/
theorem portr_of_ne_drr (s : Rif) {pa : Word} (hpa : pa ≠ xioDrr) : (s.portr pa).1 = s := by
  unfold portr
  simp only [hpa, if_false]
  split
  · rfl
  · split
    · rfl
    · split <;> rfl

/-! ### Every call acts on the contents as its queue operations -/

theorem step_wf (e : Event) (h : s.WF) : (s.step e).1.WF := by
  cases e with
  | rxBurst armed w => exact h.rxBurst armed w
  | portr pa => exact h.portr pa
  | portw pa val => exact h.portw pa val
  | drain max => exact h.drain max
  | flush => exact ⟨Nat.zero_le _, Nat.zero_le _, le_refl _⟩

/-- **Step lemma.** Whatever the call, the observations it shows account for the
change of the receiver's contents. -/
theorem step_contents (s : Rif) (e : Event) :
    QueueOp.Steps s.contents ((s.step e).2.flatMap Obs.ops) (s.step e).1.contents := by
  cases e with
  | rxBurst armed w =>
    by_cases hw : w ≠ [] ∧ armed
    · obtain ⟨hne, rfl⟩ := hw
      simp only [step, hne, ne_eq, not_false_eq_true, and_self, if_true, burstObs]
      have hsplit : s.contents
          = s.fifo ++ s.staged.take (s.perte w) ++ s.staged.drop (s.perte w) := by
        rw [append_assoc, take_append_drop]; rfl
      -- first the oldest staged words are lost, then the burst is accepted
      rw [rxBurst_contents s hne, hsplit]
      exact .cons (.lose _ _ _) (.cons (.accept _ _) (.nil _))
    · simp only [step, rxBurst_idle s hw, hw, if_false]
      exact .nil _
  | portr pa =>
    by_cases hpa : pa = xioDrr
    · have hfst : (s.portr pa).1 = s.drrRead.1 := by simp [portr, hpa]
      simp only [step, hpa, if_true, drrObs] at hfst ⊢
      rw [hfst]
      rcases drrRead_spec s with ⟨hc, hf, hread⟩ | ⟨w, rest, hf, hw, hc⟩
      · have hkeep : s.refill.contents = [] := by rw [refill_contents, hc]
        rw [if_pos hf, hread, hc, hkeep]
        exact .nil _
      · rw [if_neg (by simp [hf]), hw]
        nth_rewrite 1 [hc]
        exact .single (.deliver [w] _)
    · simp only [step, hpa, if_false, portr_of_ne_drr s hpa]
      split <;> exact .nil _
  | portw pa val =>
    simp only [step, portw_contents]
    split
    · exact QueueOp.Steps.lose_all _
    · exact .nil _
  | drain max =>
    simp only [step]
    nth_rewrite 1 [drain_contents s max]
    exact .single (.deliver _ _)
  | flush => exact QueueOp.Steps.lose_all _

/-! ### Histories -/

/-- The calls that drop no word: no overrun, receiver reset or flush. -/
def Lossless (s : Rif) : Event → Prop
  | .rxBurst armed w => w ≠ [] → armed = true → s.perte w = 0
  | .portw pa val => ¬(pa = xioSpcr ∧ s.resets val = true)
  | .flush => False
  | .portr _ => True
  | .drain _ => True

theorem step_lost (s : Rif) (e : Event) (h : Lossless s e) :
    QueueOp.lost (queueOps (s.step e).2) = [] := by
  cases e with
  | rxBurst armed w =>
    simp only [step]
    split
    · rename_i hw
      simp [queueOps, burstObs, Obs.ops, h hw.1 hw.2, QueueOp.lostWords]
    · rfl
  | portr pa =>
    simp only [step, drrObs]
    split <;> split <;> rfl
  | portw pa val => simp only [step, if_neg h]; rfl
  | drain max => rfl
  | flush => exact h.elim

theorem trace_lost {es : List Event} (h : machine.Along Lossless s es) :
    QueueOp.lost (queueOps (machine.trace s es)) = [] := by
  induction es generalizing s with
  | nil => rfl
  | cons e es ih =>
    rw [Machine.trace_cons, queueOps, flatMap_append, QueueOp.lost_append]
    exact List.append_eq_nil_iff.mpr ⟨step_lost s e h.1, ih h.2⟩

/-- Only a read of DRR on an empty receiver repeats a word. -/
theorem stale_of_step {e : Event} {w : Word} (h : Obs.stale w ∈ (s.step e).2) :
    e = .portr xioDrr ∧ s.contents = [] ∧ w = s.drr := by
  cases e with
  | rxBurst armed ws =>
    simp only [step] at h
    split at h <;> simp [burstObs] at h
  | portr pa =>
    by_cases hpa : pa = xioDrr
    · subst hpa
      simp only [step, if_true, drrObs] at h
      rcases drrRead_spec s with ⟨hc, hf, hread⟩ | ⟨v, rest, hf, -⟩
      · simp only [hf, hread, if_true, mem_singleton, Obs.stale.injEq] at h
        exact ⟨rfl, hc, h⟩
      · simp [hf] at h
    · simp only [step, hpa, if_false] at h
      split at h <;> simp at h
  | portw pa val =>
    simp only [step] at h
    split at h <;> simp at h
  | drain max | flush => simp [step] at h

/-- Over every history of the receiver, from its reset:

* the words delivered are a subsequence of the words accepted, in order;
* while no overrun, reset or flush occurs they are a prefix of them, and the level
  counts the rest;
* a burst that does not fit drops the oldest staged words that stand in its way,
  and nothing else;
* a word comes out without being delivered only when DRR is read on an empty
  receiver, and then it is the last value of DRR;
* the FIFO and the staging area stay within their arrays. -/
theorem receiver_is_queue (es : List Event) :
    let ops := queueOps (machine.trace init es)
    let s := machine.final init es
    (QueueOp.delivered ops).Sublist (QueueOp.accepted ops) ∧
    (machine.Along Lossless init es →
      QueueOp.delivered ops <+: QueueOp.accepted ops ∧
      s.level + (QueueOp.delivered ops).length = (QueueOp.accepted ops).length) ∧
    (∀ w, w ≠ [] → (s.rxBurst true w).contents
      = s.fifo ++ s.staged.drop (s.staged.length + (clip w).length - stageMax) ++ clip w) ∧
    (∀ e w, Obs.stale w ∈ (s.step e).2 → e = .portr xioDrr ∧ s.level = 0 ∧ w = s.drr) ∧
    s.fifo.length ≤ 4 ∧ s.stage.length ≤ 8192 := by
  intro ops s
  have hany := Machine.along_true (M := machine) init es
  have hsteps : QueueOp.Steps [] ops s.contents :=
    Machine.queue_steps (I := WF) contents Obs.ops (fun _ e h _ => step_wf e h)
      (fun t e _ _ => step_contents t e) init_wf hany
  have hwf : s.WF := Machine.invariant (I := WF) (fun _ e h _ => step_wf e h) init_wf hany
  refine ⟨?_, ?_, fun w hw => rxBurst_contents s hw, ?_, hwf.fifo_le, hwf.stage_le⟩
  · exact (sublist_append_left _ _).trans (by simpa using hsteps.sublist)
  · intro hloss
    have hcons : QueueOp.delivered ops ++ s.contents = QueueOp.accepted ops := by
      simpa using hsteps.conservation (trace_lost hloss)
    refine ⟨⟨s.contents, hcons⟩, ?_⟩
    rw [← hcons, length_append, level_eq, Nat.add_comm]
  · intro e w h
    obtain ⟨he, hc, hw⟩ := stale_of_step h
    exact ⟨he, by rw [level_eq, hc]; rfl, hw⟩

/-- One word received, DRR read twice: the same word is handed out twice. -/
theorem drr_read_twice_repeats :
    let os := machine.trace init [.rxBurst true [7], .portr xioDrr, .portr xioDrr]
    handedOut os = [7, 7] ∧ ¬ (handedOut os).Sublist (QueueOp.accepted (queueOps os)) := by
  decide

end Qosmo.Rif
