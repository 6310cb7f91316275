import Qosmo.Tpu.Basic
import Mathlib.Order.Bounds.Basic

/-!
# Qosmo.Tpu.Time

A scenario is a program over absolute time. `Schedule t ws ms` is its meaning: started at
the quarter bit `t`, the words `ws` issue the moves `ms`, each at its own time. AT goes to
the next time that stands at its position of a frame, WAIT goes on by its operand.

The sequencer has no absolute time, only a position in the frame and a count of frames to
let pass. `Poised k t ws s` relates the two at the `k`-th tick: the frames still to wait
and the position make up the time, and the words from the cursor on are those left to run.
One turn of the loop keeps it (`seqRun_spec`), one tick keeps it (`Pending.tick`), and so
the moves made by the `k`-th tick are those of the schedule that fall into frame `k`.
-/

namespace Qosmo.Tpu

open List

/-! ### Absolute time -/

/-- A move and the time, in quarter bits from the start, it is made at. -/
structure Timed where
  time : Nat
  addr : Byte
  data : Byte
  deriving Repr, DecidableEq

/-- The frame a move falls into. -/
def Timed.frame (m : Timed) : Nat := m.time / qbitsPerTdma

/-- **What a scenario means.** Only moves to addresses of the serial port show. -/
inductive Schedule : Nat → List Word → List Timed → Prop
  | done (t : Nat) : Schedule t [] []
  | goAt {t t' : Nat} {w : Word} {ws : List Word} {ms : List Timed} :
      opcode w = opAt →
      IsLeast { u | t < u ∧ u ≡ (payload w).toNat [MOD qbitsPerTdma] } t' →
      Schedule t' ws ms → Schedule t (w :: ws) ms
  | wait {t : Nat} {w : Word} {ws : List Word} {ms : List Timed} :
      opcode w = opWait → Schedule (t + (payload w).toNat) ws ms → Schedule t (w :: ws) ms
  | register {t : Nat} {w : Word} {ws : List Word} {ms : List Timed} :
      opcode w = opSynchro ∨ opcode w = opOffset → Schedule t ws ms → Schedule t (w :: ws) ms
  | move {t : Nat} {w : Word} {ws : List Word} {ms : List Timed} :
      opcode w = opMove → tspOwnsAddr (moveAddr w) = true → Schedule t ws ms →
      Schedule t (w :: ws) (⟨t, moveAddr w, moveData w⟩ :: ms)
  | moveElsewhere {t : Nat} {w : Word} {ws : List Word} {ms : List Timed} :
      opcode w = opMove → tspOwnsAddr (moveAddr w) = false → Schedule t ws ms →
      Schedule t (w :: ws) ms

/-- The words a scenario is made of: AT with a position inside a frame, WAIT, OFFSET,
SYNCHRO and MOVE. None of them is zero. -/
def Plain (w : Word) : Prop :=
  opcode w = opAt ∧ (payload w).toNat < qbitsPerTdma ∨ opcode w = opWait ∨
    opcode w = opSynchro ∨ opcode w = opOffset ∨ opcode w = opMove

instance decidablePlain (w : Word) : Decidable (Plain w) := inferInstanceAs (Decidable (_ ∨ _))

theorem Plain.ne_zero {w : Word} (h : Plain w) : w ≠ 0 := by
  rintro rfl
  revert h
  decide

theorem Plain.payload_lt {w : Word} (h : Plain w) (hop : opcode w = opAt) :
    (payload w).toNat < qbitsPerTdma := by
  rcases h with ⟨-, hx⟩ | hop' | hop' | hop' | hop'
  · exact hx
  all_goals
    rw [hop] at hop'
    exact absurd hop' (by decide)

/-- The time an AT goes to: in this frame if its position is still to come, otherwise in
the next one. -/
def atTime (t x : Nat) : Nat :=
  if t % qbitsPerTdma < x then t - t % qbitsPerTdma + x
  else t - t % qbitsPerTdma + qbitsPerTdma + x

variable {x : Nat}

/-- The frame and the position of the time an AT goes to. -/
theorem atTime_div (t : Nat) (hx : x < qbitsPerTdma) :
    atTime t x / qbitsPerTdma =
      t / qbitsPerTdma + if t % qbitsPerTdma < x then 0 else 1 := by
  unfold atTime qbitsPerTdma at *
  split <;> omega

theorem atTime_mod (t : Nat) (hx : x < qbitsPerTdma) :
    atTime t x % qbitsPerTdma = x := by
  unfold atTime qbitsPerTdma at *
  split <;> omega

theorem atTime_isLeast (t : Nat) (hx : x < qbitsPerTdma) :
    IsLeast { u | t < u ∧ u ≡ x [MOD qbitsPerTdma] } (atTime t x) := by
  have hmod := atTime_mod t hx
  have hnear : t < atTime t x ∧ atTime t x ≤ t + qbitsPerTdma := by
    unfold atTime qbitsPerTdma at *
    split <;> omega
  refine ⟨⟨hnear.1, hmod.trans (Nat.mod_eq_of_lt hx).symm⟩, fun u hu => ?_⟩
  -- two times at one position are a whole frame apart
  obtain ⟨hlt, hmod'⟩ : t < u ∧ u % qbitsPerTdma = x % qbitsPerTdma := hu
  unfold qbitsPerTdma at *
  omega

theorem Schedule.total {ws : List Word} (hplain : ∀ w ∈ ws, Plain w) (t : Nat) :
    ∃ ms, Schedule t ws ms := by
  induction ws generalizing t with
  | nil => exact ⟨[], .done t⟩
  | cons w ws ih =>
    rw [forall_mem_cons] at hplain
    obtain ⟨hw, hws⟩ := hplain
    rcases hw with ⟨hop, hx⟩ | hop | hop | hop | hop
    · obtain ⟨ms, hms⟩ := ih hws (atTime t (payload w).toNat)
      exact ⟨ms, .goAt hop (atTime_isLeast t hx) hms⟩
    · obtain ⟨ms, hms⟩ := ih hws (t + (payload w).toNat)
      exact ⟨ms, .wait hop hms⟩
    · obtain ⟨ms, hms⟩ := ih hws t
      exact ⟨ms, .register (.inl hop) hms⟩
    · obtain ⟨ms, hms⟩ := ih hws t
      exact ⟨ms, .register (.inr hop) hms⟩
    · obtain ⟨ms, hms⟩ := ih hws t
      cases howns : tspOwnsAddr (moveAddr w) with
      | true => exact ⟨_, .move hop howns hms⟩
      | false => exact ⟨ms, .moveElsewhere hop howns hms⟩

theorem Schedule.le_time {t : Nat} {ws : List Word} {ms : List Timed} (h : Schedule t ws ms) :
    ∀ m ∈ ms, t ≤ m.time := by
  induction h with
  | done t => simp
  | goAt _ hleast _ ih => exact fun m hm => Nat.le_trans (Nat.le_of_lt hleast.1.1) (ih m hm)
  | wait _ _ ih => exact fun m hm => Nat.le_trans (Nat.le_add_right _ _) (ih m hm)
  | register _ _ ih | moveElsewhere _ _ _ ih => exact ih
  | move _ _ _ ih =>
    intro m hm
    rcases List.mem_cons.mp hm with rfl | hm
    · exact Nat.le_refl _
    · exact ih m hm

/-! ### The sequencer in time -/

/-- The words `ws` stand in the RAM from `i` on. -/
def Loaded (insns : Nat → Word) : Nat → List Word → Prop
  | _, [] => True
  | i, w :: ws => insns i = w ∧ Loaded insns (i + 1) ws

instance decidableLoaded (insns : Nat → Word) :
    ∀ (i : Nat) (ws : List Word), Decidable (Loaded insns i ws)
  | _, [] => isTrue trivial
  | i, w :: ws =>
    have := decidableLoaded insns (i + 1) ws
    inferInstanceAs (Decidable (insns i = w ∧ Loaded insns (i + 1) ws))

/-- The call a move of the schedule is made by. -/
def Timed.call (fn : BitVec 32) (m : Timed) : Move :=
  ⟨m.addr, m.data, fn, m.time % qbitsPerTdma⟩

/-- At the `k`-th tick the sequencer stands at time `t` with the words `ws` left. -/
structure Poised (k t : Nat) (ws : List Word) (s : Sequencer) : Prop where
  active : s.active = true
  len : s.len = ramWords
  loaded : Loaded s.insns s.cursor (ws ++ [0, 0])
  fits : s.cursor + ws.length + 2 ≤ ramWords
  /-- The end of the scenario is not the first word of the RAM. -/
  started : 0 < s.cursor ∨ ws ≠ []
  plain : ∀ w ∈ ws, Plain w
  qbit : s.qbit = t % qbitsPerTdma
  frame : t / qbitsPerTdma = k + s.waitFrames

/-- What the sequencer has still to do after the `k`-th tick: nothing, or the moves `ms`,
all of them after the frames it waits for. -/
def Pending (k : Nat) (s : Sequencer) (ms : List Timed) : Prop :=
  s.active = false ∧ ms = [] ∨
    ∃ t ws, Poised k t ws s ∧ 0 < s.waitFrames ∧ Schedule t ws ms

theorem Pending.lt_frame {k : Nat} {s : Sequencer} {ms : List Timed} (h : Pending k s ms) :
    ∀ m ∈ ms, k < m.frame := by
  rcases h with ⟨-, rfl⟩ | ⟨t, ws, hs, hwait, hms⟩
  · simp
  · intro m hm
    have hle : t / qbitsPerTdma ≤ m.frame := Nat.div_le_div_right (hms.le_time m hm)
    rw [hs.frame] at hle
    omega

namespace Poised

variable {k t t' : Nat} {w : Word} {ws : List Word} {s s' : Sequencer}

/-- The word at the cursor was run: `s'` stands behind it, at time `t'`. -/
theorem next (h : Poised k t (w :: ws) s) (hactive : s'.active = s.active) (hlen : s'.len = s.len)
    (hinsns : s'.insns = s.insns) (hcursor : s'.cursor = s.cursor + 1)
    (hqbit : s'.qbit = t' % qbitsPerTdma) (hframe : t' / qbitsPerTdma = k + s'.waitFrames) :
    Poised k t' ws s' where
  active := hactive.trans h.active
  len := hlen.trans h.len
  loaded := by
    rw [hinsns, hcursor]
    exact h.loaded.2
  fits := by
    have hfits := h.fits
    rw [length_cons] at hfits
    omega
  started := .inl (by omega)
  plain := fun v hv => h.plain v (mem_cons_of_mem w hv)
  qbit := hqbit
  frame := hframe

theorem word (h : Poised k t (w :: ws) s) : s.insns s.cursor = w := h.loaded.1

theorem ne_zero (h : Poised k t (w :: ws) s) : w ≠ 0 :=
  (h.plain w mem_cons_self).ne_zero

theorem cursor_lt (h : Poised k t ws s) : s.cursor < s.len := by
  have hlen := h.len
  have hfits := h.fits
  omega

end Poised

/-! ### One turn of the loop, by opcode -/

section Turn

variable {k t : Nat} {w : Word} {ws : List Word} {s : Sequencer} (fn : BitVec 32)

variable (h : Poised k t (w :: ws) s)

include h

theorem turn_at (hop : opcode w = opAt) :
    s.turn fn = if s.qbit < (payload w).toNat then
        .again { s.next with qbit := (payload w).toNat } []
      else .stop { s.next with qbit := (payload w).toNat, waitFrames := 1 } := by
  simp only [Sequencer.turn, h.word, h.ne_zero, hop, if_false, if_true]

theorem turn_wait (hop : opcode w = opWait) :
    s.turn fn = if s.qbit + (payload w).toNat < qbitsPerTdma then
        .again { s.next with qbit := s.qbit + (payload w).toNat } []
      else .stop { s.next with
        waitFrames := (s.qbit + (payload w).toNat) / qbitsPerTdma
        qbit := (s.qbit + (payload w).toNat) % qbitsPerTdma } := by
  have hat : opWait ≠ opAt := by decide
  simp only [Sequencer.turn, h.word, h.ne_zero, hop, hat, if_false, if_true]

theorem turn_register (hop : opcode w = opSynchro ∨ opcode w = opOffset) :
    ∃ offset, s.turn fn = .again (s.setReg offset (payload w)).next [] := by
  have hat : opcode w ≠ opAt := by rcases hop with hop | hop <;> rw [hop] <;> decide
  have hwait : opcode w ≠ opWait := by rcases hop with hop | hop <;> rw [hop] <;> decide
  refine ⟨if opcode w = opSynchro then tpuSynchro else tpuOffset, ?_⟩
  simp only [Sequencer.turn, h.word, h.ne_zero, hat, hwait, hop, if_false, if_true]

theorem turn_move (hop : opcode w = opMove) :
    s.turn fn = .again s.next
      (if tspOwnsAddr (moveAddr w) then [⟨moveAddr w, moveData w, fn, s.qbit⟩] else []) := by
  have hat : opMove ≠ opAt := by decide
  have hwait : opMove ≠ opWait := by decide
  have hreg : ¬(opMove = opSynchro ∨ opMove = opOffset) := by decide
  simp only [Sequencer.turn, h.word, h.ne_zero, hop, hat, hwait, hreg, if_false, if_true]

end Turn

/-! ### One run of the loop -/

section Run

variable {k t : Nat} {ws : List Word} {ms : List Timed} {s : Sequencer} {fn : BitVec 32}

/-- How far one run of the loop gets through the moves `ms` still to make: it makes those
that fall into this frame and leaves the rest pending. -/
def Issues (fn : BitVec 32) (k : Nat) (ms : List Timed) (r : Option (Sequencer × List Move)) :
    Prop :=
  ∃ s' now later, r = some (s', now.map (Timed.call fn)) ∧ ms = now ++ later ∧
    (∀ m ∈ now, m.frame = k) ∧ Pending k s' later

variable {fuel : Nat} {s' : Sequencer}

theorem Issues.again (hs : Poised k t ws s) (hturn : s.turn fn = .again s' [])
    (h : Issues fn k ms (s'.seqRun fn fuel)) : Issues fn k ms (s.seqRun fn (fuel + 1)) := by
  obtain ⟨s'', now, later, hrun, hms, hnow, hlater⟩ := h
  refine ⟨s'', now, later, ?_, hms, hnow, hlater⟩
  simp [Sequencer.seqRun, hs.active, hs.cursor_lt, hturn, hrun]

theorem Issues.call {m : Timed} (hs : Poised k t ws s)
    (hturn : s.turn fn = .again s' [m.call fn]) (hm : m.frame = k)
    (h : Issues fn k ms (s'.seqRun fn fuel)) : Issues fn k (m :: ms) (s.seqRun fn (fuel + 1)) := by
  obtain ⟨s'', now, later, hrun, hms, hnow, hlater⟩ := h
  refine ⟨s'', m :: now, later, ?_, by rw [hms, cons_append], ?_, hlater⟩
  · simp [Sequencer.seqRun, hs.active, hs.cursor_lt, hturn, hrun]
  · exact List.forall_mem_cons.mpr ⟨hm, hnow⟩

theorem Issues.stop (hs : Poised k t ws s) (hturn : s.turn fn = .stop s') (h : Pending k s' ms) :
    Issues fn k ms (s.seqRun fn (fuel + 1)) := by
  refine ⟨s', [], ms, ?_, rfl, by simp, h⟩
  simp [Sequencer.seqRun, hs.active, hs.cursor_lt, hturn]

/-- **One run of the loop**, from a sequencer that waits for nothing: it makes the moves of
this frame and stops at the first word that leaves it. -/
theorem seqRun_spec (h : Poised k t ws s) (hwait : s.waitFrames = 0) (hms : Schedule t ws ms)
    (hfuel : ws.length < fuel) : Issues fn k ms (s.seqRun fn fuel) := by
  induction ws generalizing s t ms fuel with
  | nil =>
    cases hms
    obtain ⟨fuel, rfl⟩ := Nat.exists_eq_succ_of_ne_zero (Nat.ne_zero_of_lt hfuel)
    obtain ⟨hzero, hzero', -⟩ := h.loaded
    have hcursor : 0 < s.cursor := h.started.resolve_right (by simp)
    have hturn : s.turn fn = .stop { s with active := false } := by
      simp only [Sequencer.turn, hzero, hzero', hcursor, if_true, true_and, or_true]
    exact .stop h hturn (.inl ⟨rfl, rfl⟩)
  | cons w ws ih =>
    obtain ⟨fuel, rfl⟩ := Nat.exists_eq_succ_of_ne_zero (Nat.ne_zero_of_lt hfuel)
    have hfuel' : ws.length < fuel := Nat.lt_of_succ_lt_succ hfuel
    have hframe : t / qbitsPerTdma = k := by rw [h.frame, hwait, Nat.add_zero]
    have hnext : Poised k t ws s.next := h.next rfl rfl rfl rfl h.qbit h.frame
    cases hms with
    | goAt hop hleast hms =>
      have hx := (h.plain w mem_cons_self).payload_lt hop
      have hturn := turn_at fn h hop
      obtain rfl := hleast.unique (atTime_isLeast t hx)
      have hdiv := atTime_div t hx
      have hmod := atTime_mod t hx
      rw [hframe, ← h.qbit] at hdiv
      by_cases hlater : s.qbit < (payload w).toNat
      · -- the position is still to come in this frame
        rw [if_pos hlater, ← hwait] at hdiv
        rw [if_pos hlater] at hturn
        have hat : Poised k (atTime t (payload w).toNat) ws
            { s.next with qbit := (payload w).toNat } := h.next rfl rfl rfl rfl hmod.symm hdiv
        exact .again h hturn (ih hat hwait hms hfuel')
      · rw [if_neg hlater] at hturn hdiv
        exact .stop h hturn
          (.inr ⟨_, ws, h.next rfl rfl rfl rfl hmod.symm hdiv, Nat.one_pos, hms⟩)
    | wait hop hms =>
      have hturn := turn_wait fn h hop
      have hqbit := h.qbit
      unfold qbitsPerTdma at hqbit hframe hturn
      by_cases hwithin : s.qbit + (payload w).toNat < 5000
      · rw [if_pos hwithin] at hturn
        have hon : Poised k (t + (payload w).toNat) ws
            { s.next with qbit := s.qbit + (payload w).toNat } := by
          refine h.next rfl rfl rfl rfl ?_ ?_
          all_goals
            dsimp only [Sequencer.next, qbitsPerTdma]
            omega
        exact .again h hturn (ih hon hwait hms hfuel')
      · rw [if_neg hwithin] at hturn
        refine .stop h hturn (.inr ⟨_, ws, h.next rfl rfl rfl rfl ?_ ?_, ?_, hms⟩)
        all_goals
          dsimp only [qbitsPerTdma]
          omega
    | register hop hms =>
      obtain ⟨offset, hturn⟩ := turn_register fn h hop
      have hreg : Poised k t ws (s.setReg offset (payload w)).next :=
        h.next rfl rfl rfl rfl h.qbit h.frame
      exact .again h hturn (ih hreg hwait hms hfuel')
    | move hop howns hms =>
      have hturn := turn_move fn h hop
      rw [howns, if_pos rfl, h.qbit] at hturn
      exact .call h hturn hframe (ih hnext hwait hms hfuel')
    | moveElsewhere hop howns hms =>
      have hturn := turn_move fn h hop
      rw [howns] at hturn
      exact .again h hturn (ih hnext hwait hms hfuel')

/-- A scan of the whole RAM has fuel enough. -/
theorem Poised.scan (fn : BitVec 32) (h : Poised k t ws s) (hwait : s.waitFrames = 0)
    (hms : Schedule t ws ms) : Issues fn k ms (s.seqRun fn (ramWords + 1)) := by
  have hfits := h.fits
  exact seqRun_spec h hwait hms (by omega)

theorem Poised.tick (h : Poised k t ws s) (hwait : 0 < s.waitFrames) :
    Poised (k + 1) t ws { s with waitFrames := s.waitFrames - 1 } where
  active := h.active
  len := h.len
  loaded := h.loaded
  fits := h.fits
  started := h.started
  plain := h.plain
  qbit := h.qbit
  frame := by
    rw [h.frame]
    show k + s.waitFrames = k + 1 + (s.waitFrames - 1)
    omega

/-- **One tick** makes the moves of its frame. -/
theorem Pending.tick (fn : BitVec 32) (h : Pending k s ms) : Issues fn (k + 1) ms
    (s.sequencerTick fn) := by
  rcases h with ⟨hidle, rfl⟩ | ⟨t, ws, hs, hwait, hms⟩
  · have htick : s.sequencerTick fn = some (s, []) := by simp [Sequencer.sequencerTick, hidle]
    exact ⟨s, [], [], htick, rfl, by simp, .inl ⟨hidle, rfl⟩⟩
  · have hgo : ¬(s.active = false ∨ s.waitFrames = 0) := by
      rw [hs.active]
      simp
      omega
    have htick := hs.tick hwait
    unfold Sequencer.sequencerTick
    rw [if_neg hgo]
    by_cases hmore : 0 < s.waitFrames - 1
    · refine ⟨_, [], ms, if_pos hmore, rfl, by simp, .inr ⟨t, ws, htick, hmore, hms⟩⟩
    · have hscan := htick.scan fn (Nat.eq_zero_of_not_pos hmore) hms
      simpa [hmore] using hscan

/-- What is due at the `k`-th tick and what comes after it, of the moves from there on. -/
theorem filter_frame {now later all : List Timed}
    (hall : all.filter (fun m => decide (k ≤ m.frame)) = now ++ later)
    (hnow : ∀ m ∈ now, m.frame = k) (hlater : ∀ m ∈ later, k < m.frame) :
    all.filter (fun m => decide (m.frame = k)) = now ∧
      all.filter (fun m => decide (k + 1 ≤ m.frame)) = later := by
  have hof : ∀ p : Timed → Bool, (∀ m, p m → k ≤ m.frame) →
      all.filter p = now.filter p ++ later.filter p := by
    intro p hp
    rw [← filter_append, ← hall, filter_filter]
    refine filter_congr fun m _ => ?_
    cases hpm : p m with
    | true => simp [hp m hpm]
    | false => simp
  constructor
  · rw [hof _ (by simp; omega), List.filter_eq_self.mpr (by simpa using hnow),
      List.filter_eq_nil_iff.mpr (by intro m hm; have := hlater m hm; simp; omega),
      append_nil]
  · rw [hof _ (by simp; omega),
      List.filter_eq_nil_iff.mpr (by intro m hm; have := hnow m hm; simp; omega),
      List.filter_eq_self.mpr (by intro m hm; have := hlater m hm; simp; omega), nil_append]

/-- **Every tick** makes the moves of its frame, and the later ones stay pending. -/
theorem ticked_issues {tpuRam : Nat → Word} {tpuRegs : Option (Nat → Word)}
    (hstart : Poised 0 0 ws ⟨tpuRam, ramWords, 0, 0, 0, true, tpuRegs⟩) (hms : Schedule 0 ws ms)
    (fn : Nat → BitVec 32) (k : Nat) :
    ∃ s, Sequencer.ticked tpuRam tpuRegs fn k =
        some (s, (ms.filter fun m => decide (m.frame = k)).map (Timed.call (fn k))) ∧
      Pending k s (ms.filter fun m => decide (k + 1 ≤ m.frame)) := by
  induction k with
  | zero =>
    obtain ⟨s, now, later, hrun, hsplit, hnow, hlater⟩ := hstart.scan (fn 0) rfl hms
    have hall : ms.filter (fun m => decide (0 ≤ m.frame)) = now ++ later := by
      rw [← hsplit]
      exact List.filter_eq_self.mpr (by simp)
    obtain ⟨hdue, hrest⟩ := filter_frame hall hnow hlater.lt_frame
    rw [hdue, hrest]
    exact ⟨s, hrun, hlater⟩
  | succ k ih =>
    obtain ⟨s, hticked, hpending⟩ := ih
    obtain ⟨s', now, later, hrun, hsplit, hnow, hlater⟩ := hpending.tick (fn (k + 1))
    obtain ⟨hdue, hrest⟩ := filter_frame hsplit hnow hlater.lt_frame
    rw [hdue, hrest]
    refine ⟨s', ?_, hlater⟩
    rw [Sequencer.ticked, hticked, Option.bind_some, hrun]

end Run

/-! ### Every scan ends -/

section Ends

variable {s s' : Sequencer} {fn : BitVec 32} {moves : List Move}

/-- A turn that goes on has moved the cursor by one word. -/
theorem turn_advances (h : s.turn fn = .again s' moves) :
    s'.cursor = s.cursor + 1 ∧ s'.len = s.len := by
  unfold Sequencer.turn at h
  dsimp only at h
  split_ifs at h <;> cases h <;> exact ⟨rfl, rfl⟩

theorem turn_stop_len (h : s.turn fn = .stop s') : s'.len = s.len := by
  unfold Sequencer.turn at h
  dsimp only at h
  split_ifs at h <;> cases h <;> rfl

/-- The loop has returned once it has had a turn for each word left. -/
theorem seqRun_ends {fuel : Nat} (hfuel : s.len - s.cursor < fuel) :
    ∃ r, s.seqRun fn fuel = some r ∧ r.1.len = s.len := by
  induction fuel generalizing s with
  | zero => exact absurd hfuel (Nat.not_lt_zero _)
  | succ fuel ih =>
    unfold Sequencer.seqRun
    split
    · rename_i hgo
      cases hturn : s.turn fn with
      | stop s' => exact ⟨_, rfl, turn_stop_len hturn⟩
      | again s' moves =>
        obtain ⟨hcursor, hlen⟩ := turn_advances hturn
        obtain ⟨r, hr, hrlen⟩ := @ih s' (by omega)
        exact ⟨(r.1, moves ++ r.2), by simp [hr], hrlen.trans hlen⟩
    · exact ⟨_, rfl, rfl⟩

theorem sequencerTick_ends (hlen : s.len = ramWords) :
    ∃ r, s.sequencerTick fn = some r ∧ r.1.len = ramWords := by
  unfold Sequencer.sequencerTick
  split
  · exact ⟨_, rfl, hlen⟩
  · dsimp only
    split
    · exact ⟨_, rfl, hlen⟩
    · obtain ⟨r, hr, hrlen⟩ := @seqRun_ends { s with waitFrames := s.waitFrames - 1 } fn
        (ramWords + 1) (by show s.len - s.cursor < ramWords + 1; omega)
      exact ⟨r, hr, hrlen.trans hlen⟩

/-- Whatever the RAM holds, the start and every tick after it return. -/
theorem ticked_ends (tpuRam : Nat → Word) (tpuRegs : Option (Nat → Word))
    (fn : Nat → BitVec 32) (k : Nat) :
    ∃ r, Sequencer.ticked tpuRam tpuRegs fn k = some r ∧ r.1.len = ramWords := by
  induction k with
  | zero => exact seqRun_ends (by show ramWords - 0 < ramWords + 1; omega)
  | succ k ih =>
    obtain ⟨r, hr, hlen⟩ := ih
    rw [Sequencer.ticked, hr, Option.bind_some]
    exact sequencerTick_ends hlen

end Ends

/-! ### The scenario in absolute time -/

/-- The RAM starts with the scenario `ws` and the two zero words that close it. -/
structure Scenario (tpuRam : Nat → Word) (ws : List Word) : Prop where
  plain : ∀ w ∈ ws, Plain w
  loaded : Loaded tpuRam 0 (ws ++ [0, 0])
  fits : ws.length + 2 ≤ ramWords

/-- Running the RAM and ticking it is running `ws` in absolute time: the `k`-th tick makes
the moves of the schedule that fall into frame `k`, in order, and no other. -/
def RefinesTime (tpuRam : Nat → Word) (tpuRegs : Option (Nat → Word)) (fn : Nat → BitVec 32)
    (ws : List Word) : Prop :=
  ∃ ms, Schedule 0 ws ms ∧ ∀ k, ∃ s, Sequencer.ticked tpuRam tpuRegs fn k =
    some (s, (ms.filter fun m => decide (m.frame = k)).map (Timed.call (fn k)))

/-- **The sequencer keeps absolute time.** Every scan of the RAM ends, and a scenario of at
least one word makes each of its moves once, in order, in the frame its time says. -/
theorem scenario_refines_time (tpuRam : Nat → Word) (tpuRegs : Option (Nat → Word))
    (fn : Nat → BitVec 32) :
    (∀ k, (Sequencer.ticked tpuRam tpuRegs fn k).isSome = true) ∧
      ∀ ws, ws ≠ [] → Scenario tpuRam ws → RefinesTime tpuRam tpuRegs fn ws := by
  constructor
  · intro k
    obtain ⟨r, hr, -⟩ := ticked_ends tpuRam tpuRegs fn k
    rw [hr, Option.isSome_some]
  · intro ws hne h
    obtain ⟨ms, hms⟩ := Schedule.total h.plain 0
    have hstart : Poised 0 0 ws ⟨tpuRam, ramWords, 0, 0, 0, true, tpuRegs⟩ :=
      { active := rfl
        len := rfl
        loaded := h.loaded
        fits := by
          rw [Nat.zero_add]
          exact h.fits
        started := .inr hne
        plain := h.plain
        qbit := rfl
        frame := rfl }
    refine ⟨ms, hms, fun k => ?_⟩
    obtain ⟨s, hs, -⟩ := ticked_issues hstart hms fn k
    exact ⟨s, hs⟩

/-- A RAM with the given words and zeros behind them. -/
def ramOf (ws : List Word) (i : Nat) : Word := ws.getD i 0

/-- AT 100, a MOVE to CTRL1, WAIT 6000 and another MOVE, which the first tick makes. -/
theorem scenario_refines_time_two_moves :
    Scenario (ramOf [0x2064, 0x8020, 0xB770, 0x8040]) [0x2064, 0x8020, 0xB770, 0x8040] ∧
      RefinesTime (ramOf [0x2064, 0x8020, 0xB770, 0x8040]) none (fun k => BitVec.ofNat 32 k)
        [0x2064, 0x8020, 0xB770, 0x8040] := by
  have h : Scenario (ramOf [0x2064, 0x8020, 0xB770, 0x8040])
      [0x2064, 0x8020, 0xB770, 0x8040] := by
    refine ⟨?_, by decide, by decide⟩
    simp only [forall_mem_cons, not_mem_nil]
    exact ⟨by decide, by decide, by decide, by decide, by simp⟩
  exact ⟨h, (scenario_refines_time _ _ _).2 _ (by decide) h⟩

/-- An empty scenario is not over at its two zero words: the first word of the RAM never
ends one, and what stands behind them runs. -/
theorem empty_scenario_runs_on :
    Scenario (ramOf [0x0000, 0x0000, 0x8020]) [] ∧
      ¬RefinesTime (ramOf [0x0000, 0x0000, 0x8020]) none (fun _ => 0) [] := by
  refine ⟨⟨by simp, by decide, by decide⟩, ?_⟩
  rintro ⟨ms, hms, h⟩
  cases hms
  obtain ⟨s, hs⟩ := h 0
  have hmoves : (Sequencer.ticked (ramOf [0x0000, 0x0000, 0x8020]) none (fun _ => 0) 0).map (·.2) =
      some [⟨0x00, 0x01, 0, 0⟩] := by rfl
  rw [hs] at hmoves
  cases hmoves

end Qosmo.Tpu
