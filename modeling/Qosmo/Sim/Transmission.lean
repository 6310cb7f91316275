import Mathlib.Data.List.Chain
import Qosmo.Sim.Session

/-!
# Qosmo.Sim.Transmission

The card gets the commands the terminal sent.

T=0 has no frames: where a command ends follows from its header, and the terminal may stop in
the middle of one. `apdu_tx_byte_inner` cuts the bytes into commands by their announced length,
and takes a silence of more than 500 ms for an abandoned command.

A `Transmission` is what the terminal sends of one command, in whole or only its beginning, each
byte with the time it is written to DTX. `dispatches_commands` is about a sequence of them: exactly
the commands sent in whole are dispatched. The bytes of a command need not follow each other in
the history: reads of registers, timers and writes that reset nothing may come between them, and
`run_sent` shows that only the bytes matter.
-/

namespace Qosmo.Sim

open List Machine

namespace Interface

variable {s t : Interface}

/-! ### What is dispatched -/

/-- The APDU a byte completes, handed to `dispatch_apdu`. -/
def dispatched (s : Interface) (now : Int) (b : Byte) : List (List Byte) :=
  let s := s.resync now
  if (s.collect b).length = s.expects (s.collect b) then [s.collect b] else []

/-- The line to the card: a byte at a time, showing the APDUs dispatched. -/
def line : Machine Interface (Int × Byte) (List Byte) :=
  ⟨fun s p => ((s.apduTxByteInner p.1 p.2).1, s.dispatched p.1 p.2)⟩

/-- The interface, showing the APDUs dispatched. -/
def dispatcher : Machine Interface Event (List Byte) :=
  ⟨fun s e => ((s.step e).1, e.sent.flatMap fun p => s.dispatched p.1 p.2)⟩

/-- The call resets neither the card nor the command being collected. -/
def Quiet (s : Interface) (e : Event) : Prop :=
  match e.call with
  | .write off val =>
    (Reg.ofOffset off = some .cmd → resets val = false) ∧
    (Reg.ofOffset off = some .conf1 → s.falls val conf1Srstlev = false)
  | _ => True

instance decidableQuiet (s : Interface) : ∀ e, Decidable (s.Quiet e)
  | ⟨_, .write _ _⟩ => inferInstanceAs (Decidable (_ ∧ _))
  | ⟨_, .read _⟩ | ⟨_, .atrTimer⟩ | ⟨_, .respTimer⟩ | ⟨_, .wtTimer⟩ | ⟨_, .txTimer⟩ =>
    isTrue trivial

/-! ### Only the bytes matter -/

theorem Alike.resync (h : s.Alike t) (now : Int) : (s.resync now).Alike (t.resync now) := by
  unfold Interface.resync
  by_cases hsilent : t.apdu ≠ [] ∧ apduAbandonNs < now - t.lastTxNs
  · rw [if_pos hsilent, if_pos (by rwa [h.apdu, h.last])]
    exact ⟨rfl, rfl, h.last, h.card⟩
  · rw [if_neg hsilent, if_neg (by rwa [h.apdu, h.last])]
    exact h

/-- A byte does the same to both. -/
theorem Alike.byte (h : s.Alike t) (now : Int) (b : Byte) :
    (s.apduTxByteInner now b).1.Alike (t.apduTxByteInner now b).1 ∧
      s.dispatched now b = t.dispatched now b := by
  have hsync := h.resync now
  -- neither the buffer nor the length to wait for depends on anything else
  have hcollect : (s.resync now).collect b = (t.resync now).collect b := by
    unfold collect
    rw [hsync.apdu]
  have hexpects : (s.resync now).expects = (t.resync now).expects := by
    funext apdu
    unfold expects
    rw [hsync.expected]
  unfold Interface.apduTxByteInner dispatched
  dsimp only
  rw [hcollect, hexpects]
  split
  · exact ⟨⟨rfl, rfl, rfl, by rw [hsync.card]⟩, rfl⟩
  · exact ⟨⟨rfl, rfl, rfl, hsync.card⟩, rfl⟩

theorem Alike.line (h : s.Alike t) (ps : List (Int × Byte)) :
    (line.final s ps).Alike (line.final t ps) ∧ line.trace s ps = line.trace t ps := by
  induction ps generalizing s t with
  | nil => exact ⟨h, rfl⟩
  | cons p ps ih =>
    obtain ⟨hnext, hsame⟩ := h.byte p.1 p.2
    obtain ⟨hfinal, htrace⟩ := ih hnext
    exact ⟨hfinal, congrArg₂ (· ++ ·) hsame htrace⟩

theorem conf1Write_alike {val : Word} (h : s.falls val conf1Srstlev = false) (now : Int) :
    (s.conf1Write now val).Alike s := by
  unfold conf1Write
  simp only [h, Bool.false_eq_true, if_false]
  exact ⟨rfl, rfl, rfl, rfl⟩

theorem dtxWrite_alike (s : Interface) (now : Int) (val : Word) :
    (s.dtxWrite now val).1.Alike (s.apduTxByteInner now (val.extractLsb' 0 8)).1 := by
  obtain ⟨q, respTimer, rfl, heq⟩ := dtxWrite_eq s now val
  rw [heq]
  exact ⟨rfl, rfl, rfl, rfl⟩

/-- **Step.** A quiet call does to what is collected what the byte it sends does, if any. -/
theorem step_sent {e : Event} (h : s.Quiet e) : (s.step e).1.Alike (line.final s e.sent) := by
  have hstep := stepped_step s e
  generalize s.step e = r at hstep ⊢
  cases hstep with
  | still hstill _ _ hsent =>
    rw [hsent]
    exact hstill.toAlike
  | drx | resp => exact ⟨rfl, rfl, rfl, rfl⟩
  | @cmd _ _ val hreg =>
    obtain ⟨t, ht, heq⟩ := cmdWrite_eq s val
    simpa [Event.sent, hreg, heq, h.1 hreg] using ht
  | conf1 hreg => simpa [Event.sent, hreg] using conf1Write_alike (h.2 hreg) _
  | dtx hreg => simpa [Event.sent, hreg, line] using dtxWrite_alike s _ _
  | atr => exact (deliverAtr_alike _).trans ⟨rfl, rfl, rfl, rfl⟩

/-- **Run.** Over a quiet history the card is sent the bytes written to DTX, and the same is
dispatched as if they had come one right after the other. -/
theorem run_sent {es : List Event} (h : s.Alike t) (hquiet : dispatcher.Along Quiet s es) :
    (dispatcher.final s es).Alike (line.final t (es.flatMap Event.sent)) ∧
      dispatcher.trace s es = line.trace t (es.flatMap Event.sent) := by
  induction es generalizing s t with
  | nil => exact ⟨h, rfl⟩
  | cons e es ih =>
    have hshown : (dispatcher.step s e).2 = Interface.line.trace s e.sent := by
      show e.sent.flatMap _ = _
      unfold Event.sent
      split
      · split <;> rfl
      · rfl
    obtain ⟨hsent, hsame⟩ := h.line e.sent
    obtain ⟨hfinal, htrace⟩ := ih ((step_sent hquiet.1).trans hsent) hquiet.2
    rw [flatMap_cons, final_append, trace_append, final_cons,
      trace_cons, hshown, hsame]
    exact ⟨hfinal, congrArg _ htrace⟩

/-! ### Commands by their lengths -/

theorem announced_of_prefix {p q : List Byte} (h : p <+: q) (hheader : 5 ≤ p.length) :
    announced p = announced q := by
  obtain ⟨r, rfl⟩ := h
  have hfield : ∀ i, i < 5 → (p ++ r).getD i 0 = p.getD i 0 :=
    fun i hi => getD_append _ _ _ _ (by omega)
  unfold announced announces
  rw [hfield 1 (by decide), hfield 4 (by decide)]

/-- A command has the length its header announces. -/
theorem announced_bytes (cmd : Command) : announced cmd.bytes = cmd.bytes.length := by
  have hdata := cmd.data_length
  simp only [announced, announces, Command.bytes, getD_cons_succ, getD_cons_zero,
    length_cons, Bool.and_eq_true, decide_eq_true_eq]
  by_cases hout : isOutgoingData cmd.ins
  · rw [if_pos hout] at hdata
    by_cases hp3 : cmd.p3 = 0
    · rw [hp3] at hdata
      rw [if_neg fun hboth => hboth.2 hp3, hdata]
      rfl
    · rw [if_pos ⟨hout, hp3⟩, hdata]
      omega
  · rw [if_neg hout] at hdata
    rw [if_neg fun hboth => hout hboth.1, hdata]

variable {cmd : Command}

/-- Bytes that begin a command are as long as they should be only at its end. -/
theorem Collecting.expects_iff {b : Byte} (h : s.Collecting)
    (hbegin : s.apdu ++ [b] <+: cmd.bytes) :
    (s.apdu ++ [b]).length = s.expects (s.apdu ++ [b]) ↔ s.apdu ++ [b] = cmd.bytes := by
  rw [h.expects]
  by_cases hheader : 5 ≤ (s.apdu ++ [b]).length
  · rw [if_pos hheader, announced_of_prefix hbegin hheader, announced_bytes]
    exact ⟨hbegin.eq_of_length, congrArg List.length⟩
  · rw [if_neg hheader]
    refine iff_of_false (by simp) fun heq => hheader ?_
    rw [heq]
    exact Nat.le_add_left 5 _

/-! ### One transmission -/

/-- A byte that continues a command is its last one, or is kept. -/
theorem Collecting.byte {now : Int} {b : Byte} (h : s.Collecting)
    (hbegin : (s.resync now).apdu ++ [b] <+: cmd.bytes) :
    ((s.resync now).apdu ++ [b] = cmd.bytes ∧ line.step s (now, b) =
      ({ s.resync now with
          lastTxNs := now, apdu := [], apduExpected := 0
          card := ((s.resync now).card.dispatchApdu cmd.bytes).1 }, [cmd.bytes])) ∨
    ((s.resync now).apdu ++ [b] ≠ cmd.bytes ∧ ∃ s', line.step s (now, b) = (s', []) ∧
      s'.Collecting ∧ s'.apdu = (s.resync now).apdu ++ [b] ∧ s'.lastTxNs = now ∧
      s'.card = (s.resync now).card) := by
  obtain ⟨reqs, hexec⟩ := h.apduTxByteInner now b
  have hcollecting := hexec.collecting
  have hsync := (h.resync now).1
  have hiff := hsync.expects_iff hbegin
  have hcollect := hsync.collect b
  unfold line
  dsimp only
  unfold Interface.apduTxByteInner dispatched at *
  generalize s.resync now = t at *
  dsimp only at hcollecting ⊢
  rw [hcollect] at hcollecting ⊢
  by_cases hend : t.apdu ++ [b] = cmd.bytes
  · refine .inl ⟨hend, ?_⟩
    rw [if_pos (hiff.mpr hend), if_pos (hiff.mpr hend), hend]
  · rw [if_neg (mt hiff.mp hend)] at hcollecting
    rw [if_neg (mt hiff.mp hend), if_neg (mt hiff.mp hend)]
    exact .inr ⟨hend, _, rfl, hcollecting, rfl, rfl, rfl⟩

/-- The bytes complete the command: it is dispatched, and another one may begin. -/
structure Completes (s : Interface) (ps : List (Int × Byte)) (cmd : Command) : Prop where
  shown : line.trace s ps = [cmd.bytes]
  apdu : (line.final s ps).apdu = []
  expected : (line.final s ps).apduExpected = 0
  card : (line.final s ps).card = (s.card.dispatchApdu cmd.bytes).1

/-- The bytes leave a command unfinished since the time `last`. -/
structure Leaves (s : Interface) (ps : List (Int × Byte)) (last : Int) : Prop where
  shown : line.trace s ps = []
  collecting : (line.final s ps).Collecting
  apdu : (line.final s ps).apdu ≠ []
  last : (line.final s ps).lastTxNs = last
  card : (line.final s ps).card = s.card

variable {p : Int × Byte} {ps : List (Int × Byte)}

theorem Completes.of_step {s' : Interface}
    (hstep : line.step s p = (s', [])) (hcard : s'.card = s.card) (h : s'.Completes ps cmd) :
    s.Completes (p :: ps) cmd := by
  constructor
  · rw [trace_cons, hstep]
    exact h.shown
  all_goals rw [final_cons, hstep]
  · exact h.apdu
  · exact h.expected
  · rw [← hcard]
    exact h.card

theorem Leaves.of_step {s' : Interface} {last : Int}
    (hstep : line.step s p = (s', [])) (hcard : s'.card = s.card) (h : s'.Leaves ps last) :
    s.Leaves (p :: ps) last := by
  constructor
  · rw [trace_cons, hstep]
    exact h.shown
  all_goals rw [final_cons, hstep]
  · exact h.collecting
  · exact h.apdu
  · exact h.last
  · rw [← hcard]
    exact h.card

/-- **One command.** The bytes of a command, from the one at `p` on, complete it if its last one
is among them, and leave it unfinished if not. -/
theorem line_command (h : s.Collecting)
    (hbegin : (s.resync p.1).apdu ++ (p :: ps).map Prod.snd <+: cmd.bytes)
    (hsteady : (p :: ps).IsChain fun p q => q.1 - p.1 ≤ apduAbandonNs) :
    ((s.resync p.1).apdu ++ (p :: ps).map Prod.snd = cmd.bytes → s.Completes (p :: ps) cmd) ∧
    ((s.resync p.1).apdu ++ (p :: ps).map Prod.snd ≠ cmd.bytes →
      s.Leaves (p :: ps) ((p :: ps).getLast (cons_ne_nil p ps)).1) := by
  induction ps generalizing s p with
  | nil =>
    have hcard := (h.resync p.1).2.1
    rcases h.byte hbegin with ⟨hend, hstep⟩ | ⟨hmore, s', hstep, hcoll, happdu, hlast, hsame⟩
    · refine ⟨fun _ => ?_, fun hne => absurd hend hne⟩
      rw [hcard] at hstep
      constructor
      · rw [trace_cons, hstep]
        rfl
      all_goals rw [final_cons, hstep, final_nil]
    · refine ⟨fun heq => absurd heq hmore, fun _ => ?_⟩
      have hne : s'.apdu ≠ [] := by
        rw [happdu]
        simp
      exact .of_step hstep (hsame.trans hcard) ⟨rfl, hcoll, hne, hlast, rfl⟩
  | cons q ps ih =>
    have hcard := (h.resync p.1).2.1
    have hfirst : (s.resync p.1).apdu ++ [p.2] <+: cmd.bytes := by
      refine List.IsPrefix.trans ?_ hbegin
      exact ⟨(q :: ps).map Prod.snd, by simp⟩
    rcases h.byte hfirst with ⟨hend, -⟩ | ⟨-, s', hstep, hcoll, happdu, hlast, hsame⟩
    · -- the command would be over before the byte at `q`
      have hlong := hbegin.length_le
      rw [← hend] at hlong
      simp at hlong
    · have hsteady' := List.isChain_cons_cons.mp hsteady
      -- between two bytes of a command nothing is abandoned
      have hsync : s'.resync q.1 = s' :=
        if_neg fun hsilent => Int.not_lt.mpr (by rw [hlast]; exact hsteady'.1) hsilent.2
      have hbytes : (s.resync p.1).apdu ++ (p :: q :: ps).map Prod.snd
          = (s'.resync q.1).apdu ++ (q :: ps).map Prod.snd := by
        rw [hsync, happdu]
        simp
      rw [hbytes] at hbegin ⊢
      obtain ⟨hwhole, hpart⟩ := ih hcoll hbegin hsteady'.2
      exact ⟨fun heq => .of_step hstep (hsame.trans hcard) (hwhole heq),
        fun hne => .of_step hstep (hsame.trans hcard) (hpart hne)⟩

end Interface

/-- What the terminal sends of a command, each byte with its time: the whole of it or only its
beginning, with no more than 500 ms between two bytes. -/
structure Transmission where
  cmd : Command
  sent : List (Int × Byte)
  sent_ne : sent ≠ []
  begins : sent.map Prod.snd <+: cmd.bytes
  steady : sent.IsChain fun p q => q.1 - p.1 ≤ apduAbandonNs

namespace Transmission

def whole (x : Transmission) : Bool := decide (x.sent.map Prod.snd = x.cmd.bytes)

/-- The times of the first and of the last byte. -/
def start (x : Transmission) : Int := (x.sent.head x.sent_ne).1
def stop (x : Transmission) : Int := (x.sent.getLast x.sent_ne).1

/-- An abandoned command is followed by a silence of more than 500 ms, a whole one by any pause
or none. -/
def Follows (x y : Transmission) : Prop := x.whole = true ∨ apduAbandonNs < y.start - x.stop

instance decidableFollows (x y : Transmission) : Decidable (x.Follows y) :=
  inferInstanceAs (Decidable (_ ∨ _))

end Transmission

namespace Interface

variable {s : Interface}

/-- A command may begin at this time: none has been begun, or its silence is long enough. -/
def Free (s : Interface) (now : Int) : Prop := s.apdu ≠ [] → apduAbandonNs < now - s.lastTxNs

theorem Free.resync {now : Int} (h : s.Free now) : (s.resync now).apdu = [] := by
  unfold Interface.resync
  by_cases hempty : s.apdu = []
  · rw [if_neg fun hsilent => hsilent.1 hempty]
    exact hempty
  · rw [if_pos ⟨hempty, h hempty⟩]

def commands (xs : List Transmission) : List Command :=
  (xs.filter Transmission.whole).map Transmission.cmd

/-- **One transmission.** From a state in which a command may begin. -/
theorem line_transmission (x : Transmission) (h : s.Collecting) (hfree : s.Free x.start) :
    (x.whole = true → s.Completes x.sent x.cmd) ∧ (x.whole = false → s.Leaves x.sent x.stop) := by
  obtain ⟨cmd, sent, hne, hbegins, hsteady⟩ := x
  cases sent with
  | nil => exact absurd rfl hne
  | cons p ps =>
    have hnone : (s.resync p.1).apdu = [] := hfree.resync
    have hbegin : (s.resync p.1).apdu ++ (p :: ps).map Prod.snd <+: cmd.bytes := by
      rwa [hnone, nil_append]
    have hcommand := line_command h hbegin hsteady
    rw [hnone, nil_append] at hcommand
    rw [Transmission.whole, decide_eq_true_iff, decide_eq_false_iff_not]
    exact hcommand

/-- **The line.** Of a sequence of transmissions, exactly the whole commands are dispatched. -/
theorem line_commands {xs : List Transmission} (h : s.Collecting)
    (hfree : ∀ x ∈ xs.head?, s.Free x.start) (hfollows : xs.IsChain Transmission.Follows) :
    line.trace s (xs.flatMap Transmission.sent) = (commands xs).map Command.bytes ∧
      (line.final s (xs.flatMap Transmission.sent)).card
        = Card.machine.final s.card (commands xs) := by
  induction xs generalizing s with
  | nil => exact ⟨rfl, rfl⟩
  | cons x xs ih =>
    obtain ⟨hnext, hrest⟩ := List.isChain_cons.mp hfollows
    obtain ⟨hwhole, hpart⟩ := line_transmission x h (hfree x rfl)
    rw [flatMap_cons, trace_append, final_append]
    cases hx : x.whole with
    | true =>
      -- nothing is collected: the next command may begin at any time
      have hdone := hwhole hx
      obtain ⟨htrace, hcard⟩ := ih (collecting_of_empty hdone.apdu hdone.expected)
        (fun y _ hbegun => absurd hdone.apdu hbegun) hrest
      have hcommands : commands (x :: xs) = x.cmd :: commands xs := by simp [commands, hx]
      rw [hdone.shown, htrace, hcard, hdone.card, hcommands]
      exact ⟨rfl, rfl⟩
    | false =>
      -- what is collected is dropped by the first byte after the silence
      have hleft := hpart hx
      have hsilent : ∀ y ∈ xs.head?, (line.final s x.sent).Free y.start := by
        intro y hy _
        rw [hleft.last]
        exact (hnext y hy).resolve_left (by simp [hx])
      obtain ⟨htrace, hcard⟩ := ih hleft.collecting hsilent hrest
      have hcommands : commands (x :: xs) = commands xs := by simp [commands, hx]
      rw [hleft.shown, htrace, hcard, hleft.card, hcommands]
      exact ⟨rfl, rfl⟩

theorem dispatcher_final (s : Interface) (es : List Event) :
    dispatcher.final s es = machine.final s es := by
  induction es generalizing s with
  | nil => rfl
  | cons e es ih => exact ih _

/-- **Commands get through.** Let the interface be between commands. If the bytes written to DTX
over a history without a reset are those of a sequence of transmissions, the card is handed
exactly the commands sent in whole, in order, each with its header and its data, and is left as
they leave it. -/
theorem dispatches_commands (cfg : Config) (es₀ es : List Event) (xs : List Transmission)
    (hidle : (machine.final (init cfg) es₀).apdu = [])
    (hquiet : dispatcher.Along Quiet (machine.final (init cfg) es₀) es)
    (hsent : es.flatMap Event.sent = xs.flatMap Transmission.sent)
    (hfollows : xs.IsChain Transmission.Follows) :
    dispatcher.trace (machine.final (init cfg) es₀) es = (commands xs).map Command.bytes ∧
      (machine.final (init cfg) (es₀ ++ es)).card
        = Card.machine.final (machine.final (init cfg) es₀).card (commands xs) := by
  obtain ⟨_, hexec⟩ := Collecting.run (collecting_of_empty (s := init cfg) rfl rfl) es₀
  obtain ⟨halike, htrace⟩ := run_sent (.refl _) hquiet
  obtain ⟨hcommands, hcard⟩ := line_commands hexec.collecting
    (fun x _ hbegun => absurd hidle hbegun) hfollows
  rw [hsent] at halike htrace
  rw [dispatcher_final] at halike
  rw [final_append]
  exact ⟨htrace.trans hcommands, halike.card.trans hcard⟩

/-- A SELECT abandoned after two bytes, and a STATUS 700 ms later, with a read of SIM_IT between
its bytes. -/
theorem dispatches_commands_abandoned :
    dispatcher.trace (init .bench)
      [⟨0, .write 0x0C 0xA0⟩, ⟨1000000, .write 0x0C 0xA4⟩, ⟨700000000, .write 0x0C 0xA0⟩,
        ⟨701000000, .write 0x0C 0xF2⟩, ⟨701500000, .read 0x08⟩, ⟨702000000, .write 0x0C 0x00⟩,
        ⟨703000000, .write 0x0C 0x00⟩, ⟨704000000, .write 0x0C 0x16⟩]
      = [[0xA0, 0xF2, 0x00, 0x00, 0x16]] :=
  (dispatches_commands .bench [] _
    [⟨⟨0xA0, 0xA4, 0, 0, 2, [0x3F, 0x00], rfl⟩, [(0, 0xA0), (1000000, 0xA4)], by decide, by decide,
        by decide⟩,
      ⟨⟨0xA0, 0xF2, 0, 0, 0x16, [], rfl⟩,
        [(700000000, 0xA0), (701000000, 0xF2), (702000000, 0), (703000000, 0), (704000000, 0x16)],
        by decide, by decide, by decide⟩]
    rfl (by decide +kernel) (by decide +kernel) (by decide +kernel)).1

end Interface

end Qosmo.Sim
