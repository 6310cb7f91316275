import Mathlib.Data.List.GetD
import Qosmo.Sim.Interface

/-!
# Qosmo.Sim.Session

The card behind the interface executes whole commands.

The terminal sends bytes; the results about the card are about commands (`Card.machine`).
`run_executes` connects the two: over every run of the interface the card is where a sequence
of commands and resets leaves it, each command with exactly the data its header announces;
the commands are made of bytes the terminal sent, and the answers to them are among the bytes
pushed for it, in order.

`Collecting` carries the argument. The length expected is 0 until the header is complete, and
then what the header announces, always more than what has been received: so the buffer never
overflows, and a command is dispatched with its last byte.
-/

namespace Qosmo.Sim

open List

/-- What the interface asks of the card. -/
inductive Request
  | command (cmd : Command)
  | reset

def Request.bytes : Request → List Byte
  | .command cmd => cmd.bytes
  | .reset => []

/-- What a reset by CMD does to the card. -/
def Card.reset (c : Card) : Card := { c with resp := [], selectedDf := 0x3F00, selectedEf := 0x3F00 }

def Card.session : Machine Card Request (List Byte) :=
  ⟨fun c r => match r with
    | .command cmd => Card.machine.step c cmd
    | .reset => (c.reset, [])⟩

namespace Interface

variable {s s' : Interface} {apdu : List Byte}

/-! ### Commands and their lengths -/

/-- The announced length is that of the header, and of at most 255 bytes of data. -/
theorem announced_bounds (apdu : List Byte) : 5 ≤ announced apdu ∧ announced apdu ≤ 260 := by
  unfold announced
  have hp3 := (apdu.getD 4 0).isLt
  split <;> omega

/-- The header alone announces the length. -/
theorem announced_append (h : 5 ≤ apdu.length) (b : Byte) :
    announced (apdu ++ [b]) = announced apdu := by
  have hins : (apdu ++ [b]).getD 1 0 = apdu.getD 1 0 := getD_append _ _ _ _ (by omega)
  have hp3 : (apdu ++ [b]).getD 4 0 = apdu.getD 4 0 := getD_append _ _ _ _ (by omega)
  unfold announced announces
  rw [hins, hp3]

/-- Bytes of the length their header announces are a command. -/
theorem exists_command (h : apdu.length = announced apdu) : ∃ cmd : Command, cmd.bytes = apdu := by
  have hlen := (announced_bounds apdu).1
  match apdu, h with
  | cla :: ins :: p1 :: p2 :: p3 :: data, h =>
    have hdata : data.length = if isOutgoingData ins then p3.toNat else 0 := by
      simp only [length_cons, announced, announces, getD_cons_succ, getD_cons_zero,
        Bool.and_eq_true, decide_eq_true_eq] at h
      by_cases hout : isOutgoingData ins
      · by_cases hp3 : p3 = 0
        · simp only [hp3, ne_eq, not_true_eq_false, and_false, if_false] at h
          rw [if_pos hout, hp3]
          show data.length = 0
          omega
        · rw [if_pos ⟨hout, hp3⟩] at h
          rw [if_pos hout]
          omega
      · rw [if_neg fun hboth => hout hboth.1] at h
        rw [if_neg hout]
        omega
    exact ⟨⟨cla, ins, p1, p2, p3, data, hdata⟩, rfl⟩
  | [], h | [_], h | [_, _], h | [_, _, _], h | [_, _, _, _], h =>
    simp only [length_cons, length_nil] at h
    omega

/-! ### The invariant -/

/-- The length expected agrees with the bytes received. -/
def Collecting (s : Interface) : Prop :=
  (s.apdu.length < 5 ∧ s.apduExpected = 0) ∨
    (5 ≤ s.apdu.length ∧ s.apdu.length < s.apduExpected ∧ s.apduExpected = announced s.apdu)

theorem collecting_of_empty (happdu : s.apdu = []) (hexpected : s.apduExpected = 0) :
    s.Collecting := by
  refine .inl ⟨?_, hexpected⟩
  rw [happdu]
  decide

theorem Collecting.of_same (h : s.Collecting) (happdu : s'.apdu = s.apdu)
    (hexpected : s'.apduExpected = s.apduExpected) : s'.Collecting := by
  unfold Collecting
  rw [happdu, hexpected]
  exact h

theorem Collecting.collect (h : s.Collecting) (b : Byte) : s.collect b = s.apdu ++ [b] := by
  have hmax := (announced_bounds s.apdu).2
  refine if_pos ?_
  unfold apduMaxLen
  rcases h with ⟨hshort, -⟩ | ⟨-, hlt, heq⟩ <;> omega

/-- Once the header is there, what it announces is expected; before, nothing is. -/
theorem Collecting.expects (h : s.Collecting) (b : Byte) :
    s.expects (s.apdu ++ [b])
      = if 5 ≤ (s.apdu ++ [b]).length then announced (s.apdu ++ [b]) else 0 := by
  have hlen : (s.apdu ++ [b]).length = s.apdu.length + 1 := by simp
  unfold Interface.expects
  rcases h with ⟨hshort, hzero⟩ | ⟨hlong, hlt, heq⟩
  · by_cases hfive : (s.apdu ++ [b]).length = 5
    · rw [if_pos hfive, if_pos (by omega)]
    · rw [if_neg hfive, if_neg (by omega), hzero]
  · rw [if_neg (by omega), if_pos (by omega), announced_append hlong, heq]

/-! ### One call -/

/-- From `s` to `s'` the card executed `reqs`, made of the bytes `sent`; the bytes `pushed` hold its
answers. -/
structure Executes (s s' : Interface) (sent pushed : List Byte) (reqs : List Request) : Prop where
  collecting : s'.Collecting
  card : s'.card = Card.session.final s.card reqs
  bytes : (reqs.flatMap Request.bytes ++ s'.apdu).Sublist (s.apdu ++ sent)
  answers : (Card.session.trace s.card reqs).flatten.Sublist pushed

variable {sent pushed : List Byte}

/-- The card is left alone, and so is the command being collected. -/
theorem Collecting.idle (h : s.Collecting) (hsame : s'.Alike s) : s.Executes s' sent pushed [] :=
  ⟨h.of_same hsame.apdu hsame.expected, hsame.card, by simp [hsame.apdu], nil_sublist pushed⟩

theorem Executes.trans {s'' : Interface} {sent' pushed' : List Byte} {reqs reqs' : List Request}
    (h : s.Executes s' sent pushed reqs) (h' : s'.Executes s'' sent' pushed' reqs') :
    s.Executes s'' (sent ++ sent') (pushed ++ pushed') (reqs ++ reqs') where
  collecting := h'.collecting
  card := by rw [h'.card, h.card, Machine.final_append]
  bytes := by
    have hlast := h'.bytes.append_left (reqs.flatMap Request.bytes)
    rw [← append_assoc, ← append_assoc] at hlast
    rw [flatMap_append, ← append_assoc]
    exact hlast.trans (h.bytes.append_right sent')
  answers := by
    have hanswers := h'.answers
    rw [h.card] at hanswers
    rw [Machine.trace_append, flatten_append]
    exact h.answers.append hanswers

section

variable (h : s.Collecting)

include h

theorem Collecting.resync (now : Int) :
    (s.resync now).Collecting ∧ (s.resync now).card = s.card ∧
      (s.resync now).apdu.Sublist s.apdu := by
  unfold Interface.resync
  split
  · exact ⟨collecting_of_empty rfl rfl, rfl, nil_sublist _⟩
  · exact ⟨h, rfl, .refl _⟩

/-- A byte for the card is kept, or completes a command. -/
theorem Collecting.apduTxByteInner (now : Int) (b : Byte) :
    ∃ reqs, s.Executes (s.apduTxByteInner now b).1 [b] (s.apduTxByteInner now b).2 reqs := by
  obtain ⟨hsync, hcard, hkept⟩ := h.resync now
  unfold Interface.apduTxByteInner
  generalize s.resync now = t at hsync hcard hkept
  have hbytes := hkept.append_right [b]
  have hlen : (t.apdu ++ [b]).length = t.apdu.length + 1 := by simp
  dsimp only
  rw [hsync.collect, hsync.expects]
  by_cases hheader : 5 ≤ (t.apdu ++ [b]).length
  · rw [if_pos hheader]
    by_cases hwhole : (t.apdu ++ [b]).length = announced (t.apdu ++ [b])
    · obtain ⟨cmd, hcmd⟩ := exists_command hwhole
      rw [if_pos hwhole, ← hcmd, hcard]
      refine ⟨[.command cmd], collecting_of_empty rfl rfl, rfl, ?_, ?_⟩
      · simpa [Request.bytes, hcmd] using hbytes
      · simp [Card.session, Card.machine]
    · rw [if_neg hwhole]
      refine ⟨[], .inr ⟨hheader, ?_, rfl⟩, hcard, hbytes, nil_sublist _⟩
      -- it did not exceed the announced length, and is not of it
      have hle : (t.apdu ++ [b]).length ≤ announced (t.apdu ++ [b]) := by
        rcases hsync with ⟨hshort, -⟩ | ⟨hlong, hlt, heq⟩
        · have := (announced_bounds (t.apdu ++ [b])).1
          omega
        · rw [announced_append hlong]
          omega
      exact Nat.lt_of_le_of_ne hle hwhole
  · rw [if_neg hheader, if_neg (by omega)]
    exact ⟨[], .inl ⟨Nat.lt_of_not_le hheader, rfl⟩, hcard, hbytes, nil_sublist _⟩

theorem Collecting.cmdWrite (val : Word) (sent pushed : List Byte) :
    ∃ reqs, s.Executes (s.cmdWrite val) sent pushed reqs := by
  obtain ⟨t, ht, heq⟩ := cmdWrite_eq s val
  rw [heq]
  split
  · have hreset := deliverAtr_alike t.reset
    refine ⟨[.reset], collecting_of_empty hreset.apdu hreset.expected, ?_, ?_, nil_sublist _⟩
    · rw [hreset.card]
      show t.card.reset = s.card.reset
      rw [ht.card]
    · rw [hreset.apdu]
      exact nil_sublist _
  · exact ⟨[], h.idle ht⟩

theorem Collecting.conf1Write (now : Int) (val : Word) :
    s.Executes (s.conf1Write now val) sent pushed [] := by
  unfold Interface.conf1Write
  cases s.falls val conf1Srstlev with
  | true => exact ⟨collecting_of_empty rfl rfl, rfl, nil_sublist _, nil_sublist _⟩
  | false => exact h.idle ⟨rfl, rfl, rfl, rfl⟩

theorem Collecting.dtxWrite (now : Int) (val : Word) :
    ∃ reqs, s.Executes (s.dtxWrite now val).1 [val.extractLsb' 0 8]
      (answered (s.dtxWrite now val).2) reqs := by
  obtain ⟨reqs, hexec⟩ := h.apduTxByteInner now (val.extractLsb' 0 8)
  obtain ⟨q, respTimer, hq, heq⟩ := dtxWrite_eq s now val
  rw [← hq] at hexec
  rw [heq]
  refine ⟨reqs, hexec.collecting.of_same rfl rfl, hexec.card, hexec.bytes, ?_⟩
  simpa [answered] using hexec.answers

/-- **Step.** A call has the card execute at most one request. -/
theorem Collecting.step (e : Event) :
    ∃ reqs, s.Executes (s.step e).1 (e.sent.map Prod.snd) (answered (s.step e).2) reqs := by
  have hstep := stepped_step s e
  generalize s.step e = r at hstep ⊢
  cases hstep with
  | still hstill => exact ⟨[], h.idle hstill.toAlike⟩
  | drx | resp => exact ⟨[], h.idle ⟨rfl, rfl, rfl, rfl⟩⟩
  | cmd => exact h.cmdWrite _ _ _
  | conf1 => exact ⟨[], h.conf1Write _ _⟩
  | dtx hreg => simpa [Event.sent, hreg] using h.dtxWrite _ _
  | atr => exact ⟨[], h.idle ((deliverAtr_alike _).trans ⟨rfl, rfl, rfl, rfl⟩)⟩

/-! ### Runs -/

theorem Collecting.run (es : List Event) :
    ∃ reqs, s.Executes (machine.final s es) ((es.flatMap Event.sent).map Prod.snd)
      (answered (machine.trace s es)) reqs := by
  induction es generalizing s with
  | nil => exact ⟨[], h.idle (.refl s)⟩
  | cons e es ih =>
    obtain ⟨reqs, hfirst⟩ := h.step e
    obtain ⟨reqs', hrest⟩ := ih hfirst.collecting
    refine ⟨reqs ++ reqs', ?_⟩
    rw [Machine.final_cons, Machine.trace_cons, answered_append, flatMap_cons, map_append]
    exact hfirst.trans hrest

end

/-- **The interface refines the card.** Whatever the terminal does, the card is where the
commands it was sent in whole, and the resets, leave it, and the bytes pushed hold the
answers to these commands in order. -/
theorem run_executes (cfg : Config) (es : List Event) :
    ∃ reqs, (machine.final (init cfg) es).card = Card.session.final (.init cfg) reqs ∧
      (reqs.flatMap Request.bytes).Sublist ((es.flatMap Event.sent).map Prod.snd) ∧
      (Card.session.trace (.init cfg) reqs).flatten.Sublist
        (answered (machine.trace (init cfg) es)) := by
  obtain ⟨reqs, hexec⟩ := Collecting.run (collecting_of_empty (s := init cfg) rfl rfl) es
  exact ⟨reqs, hexec.card, (sublist_append_left _ _).trans hexec.bytes, hexec.answers⟩

end Interface

end Qosmo.Sim
