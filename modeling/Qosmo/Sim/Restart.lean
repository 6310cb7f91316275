import Qosmo.Sim.Interface

/-!
# Qosmo.Sim.Restart

What the terminal receives after it has started or reset the card.

It should be the ATR, then answers to what it sent since. Between the card and the FIFO an
answer waits in `pend` for its own timer, and no restart empties `pend`: an answer computed
before is delivered behind the ATR. START on its own does not even empty the FIFO, nor drop
a command half received or a response waiting for GET RESPONSE, as the resets do. And the
ATR timer of the manual mode, armed before, brings a second ATR.

`Clean` is a restart that finds none of this. From there on `Stream` is kept by every call
that does not restart the card again: what was delivered and what the FIFO holds is the ATR
and then, in order, bytes the card answered since, those waiting in `pend` included.
-/

namespace Qosmo.Sim

open List

/-! ### Bounded buffers -/

/-- A buffer takes bytes behind those it holds, perhaps not all of them. -/
theorem pushAll_eq (room : Nat) (q bs : List Byte) :
    ∃ taken, pushAll room q bs = q ++ taken ∧ taken.Sublist bs := by
  induction bs generalizing q with
  | nil => exact ⟨[], (append_nil q).symm, List.Sublist.refl _⟩
  | cons b bs ih =>
    obtain ⟨taken, heq, hsub⟩ := ih (push room q b)
    have hcons : pushAll room q (b :: bs) = pushAll room (push room q b) bs := rfl
    rw [hcons, heq, push]
    split
    · exact ⟨b :: taken, by simp, hsub.cons_cons b⟩
    · exact ⟨taken, rfl, hsub.cons b⟩

namespace Interface

variable {s : Interface} {e : Event} {ds as : List Byte}

/-! ### Restarts -/

def restarts (s : Interface) (e : Event) : Bool :=
  match e.call with
  | .write off val =>
    match Reg.ofOffset off with
    | some .cmd => bitSet val cmdStart || resets val
    | some .conf1 => s.asksAtr val || s.falls val conf1Srstlev
    | _ => false
  | _ => false

/-- A call after which the card is to send its ATR: START or a reset by CMD with the card
powered, or the edge of the manual mode. -/
def starts (s : Interface) (e : Event) : Bool :=
  match e.call with
  | .write off val =>
    match Reg.ofOffset off with
    | some .cmd =>
      !bitSet val cmdStop && (bitSet val cmdStart || (resets val && s.powered))
    | some .conf1 => s.asksAtr val
    | _ => false
  | _ => false

/-- Nothing of what came before is left: no answer waits in `pend`, no ATR is to come, and
what the call itself does not clear is empty. -/
def Clean (s : Interface) (e : Event) : Prop :=
  match e.call with
  | .write off val =>
    match Reg.ofOffset off with
    | some .cmd =>
      s.pend = [] ∧ s.atrTimer = none ∧
        (resets val = true ∨ (s.rx = [] ∧ s.apdu = [] ∧ s.card.resp = []))
    | some .conf1 =>
      s.pend = [] ∧ s.card.resp = [] ∧
        (s.falls val conf1Srstlev = true ∨ (s.rx = [] ∧ s.apdu = []))
    | _ => True
  | _ => True

def disturbs (e : Event) : Bool :=
  match e.call with
  | .write off val =>
    match Reg.ofOffset off with
    | some .dtx => true
    | some .cmd => bitSet val cmdStop
    | _ => false
  | _ => false

/-- A call that does not restart the card, nor disturbs it while the ATR is still to come. -/
def Continues (s : Interface) (e : Event) : Prop :=
  s.restarts e = false ∧ (s.atrTimer ≠ none → disturbs e = false)

instance (s : Interface) (e : Event) : Decidable (s.Continues e) :=
  inferInstanceAs (Decidable (_ ∧ (_ → _)))

/-! ### What was sent since the restart -/

/-- What the FIFO delivered (`ds`) and holds, against what the card answered (`as`): nothing
while the ATR is to come, then the ATR and bytes answered. -/
def Stream (s : Interface) (ds as : List Byte) : Prop :=
  (s.atrTimer ≠ none ∧ s.powered = true ∧ ds ++ s.rx = [] ∧ s.pend = [] ∧ as = []) ∨
    (s.atrTimer = none ∧ ∃ x, ds ++ s.rx = atr ++ x ∧ (x ++ s.pend).Sublist as)

theorem Stream.of_same {s' : Interface} (h : s.Stream ds as) (hrx : s'.rx = s.rx)
    (hpend : s'.pend = s.pend) (hatr : s'.atrTimer = s.atrTimer)
    (hpowered : s.atrTimer ≠ none → s'.powered = s.powered) : s'.Stream ds as := by
  unfold Stream
  rw [hrx, hpend, hatr]
  rcases h with ⟨harmed, hon, hnone⟩ | h
  · exact .inl ⟨harmed, (hpowered harmed).trans hon, hnone⟩
  · exact .inr h

theorem Stream.drx (h : s.Stream ds as) {b : Byte} {rest : List Byte} (hrx : s.rx = b :: rest) :
    ({ s with rx := rest }.updateIrq).Stream (ds ++ [b]) as := by
  rcases h with ⟨-, -, hnone, -⟩ | ⟨hatr, x, hstream, hsub⟩
  · rw [hrx] at hnone
    simp at hnone
  · refine .inr ⟨hatr, x, ?_, hsub⟩
    rw [← hstream, hrx]
    exact append_assoc ds [b] rest

/-- The response timer moves what waits into the FIFO. -/
theorem respFire_rx (s : Interface) : s.respFire.rx = pushAll rxRoom s.rx s.pend := by
  simp only [Interface.respFire, updateIrq, refreshItRx]

theorem deliverAtr_rx (hon : s.powered) : s.deliverAtr.rx = pushAll rxRoom s.rx atr := by
  simp only [deliverAtr, hon, if_true, updateIrq, refreshItRx]

theorem Stream.respFire (h : s.Stream ds as) : s.respFire.Stream ds as := by
  obtain ⟨taken, heq, htaken⟩ := pushAll_eq rxRoom s.rx s.pend
  rcases h with ⟨harmed, hon, hnone, hpend, has⟩ | ⟨hatr, x, hstream, hsub⟩
  · refine .inl ⟨harmed, hon, ?_, rfl, has⟩
    rw [respFire_rx, hpend]
    exact hnone
  · refine .inr ⟨hatr, x ++ taken, ?_, ?_⟩
    · rw [respFire_rx, heq, ← append_assoc, hstream, append_assoc]
    · show (x ++ taken ++ []).Sublist as
      rw [append_nil]
      exact (htaken.append_left x).trans hsub

theorem Stream.atrFire (h : s.Stream ds as) (harmed : s.atrTimer ≠ none) :
    s.atrFire.Stream ds as := by
  rcases h with ⟨-, hon, hnone, hpend, has⟩ | ⟨hatr, -⟩
  · obtain ⟨hds, hrx⟩ := List.append_eq_nil_iff.mp hnone
    have hfifo : s.atrFire.rx = pushAll rxRoom s.rx atr :=
      deliverAtr_rx (s := { s with atrTimer := none }) hon
    obtain ⟨rx, it, irq, heq⟩ := deliverAtr_eq { s with atrTimer := none }
    rw [Interface.atrFire, heq] at hfifo ⊢
    refine .inr ⟨rfl, [], ?_, ?_⟩
    · rw [hfifo, hds, hrx]
      rfl
    · rw [hpend]
      exact nil_sublist as
  · exact absurd hatr harmed

/-- A byte for the card leaves the FIFO and the ATR alone. -/
theorem apduTxByteInner_same (s : Interface) (now : Int) (b : Byte) :
    (s.apduTxByteInner now b).1.rx = s.rx ∧ (s.apduTxByteInner now b).1.pend = s.pend ∧
      (s.apduTxByteInner now b).1.atrTimer = s.atrTimer := by
  have hresync : (s.resync now).rx = s.rx ∧ (s.resync now).pend = s.pend ∧
      (s.resync now).atrTimer = s.atrTimer := by
    unfold resync
    split <;> exact ⟨rfl, rfl, rfl⟩
  unfold apduTxByteInner
  dsimp only
  split <;> exact hresync

theorem Stream.dtxWrite (h : s.Stream ds as) (hatr : s.atrTimer = none) (now : Int) (val : Word) :
    (s.dtxWrite now val).1.Stream (ds ++ delivered (s.dtxWrite now val).2)
      (as ++ answered (s.dtxWrite now val).2) := by
  obtain ⟨hrx, hpend, htimer⟩ := apduTxByteInner_same s now (val.extractLsb' 0 8)
  obtain ⟨q, respTimer, hq, heq⟩ := dtxWrite_eq s now val
  rw [← hq] at hrx hpend htimer
  rw [heq]
  obtain ⟨taken, htake, htaken⟩ := pushAll_eq pendRoom q.1.pend q.2
  rcases h with ⟨harmed, -⟩ | ⟨-, x, hstream, hsub⟩
  · exact absurd hatr harmed
  · refine .inr ⟨htimer.trans hatr, x, ?_, ?_⟩
    · simpa [delivered, hrx] using hstream
    · dsimp only
      rw [htake, hpend, ← append_assoc]
      simpa [answered] using hsub.append htaken

theorem Stream.quiet {s' : Interface} {os : List Obs} (h : s'.Stream ds as)
    (hdelivered : delivered os = []) (hanswered : answered os = []) :
    s'.Stream (ds ++ delivered os) (as ++ answered os) := by
  rw [hdelivered, hanswered, append_nil, append_nil]
  exact h

variable {val : Word}

/-- A write to CMD that neither starts nor resets. -/
theorem Stream.cmdWrite (h : s.Stream ds as) (hno : (bitSet val cmdStart || resets val) = false)
    (hstop : s.atrTimer ≠ none → bitSet val cmdStop = false) : (s.cmdWrite val).Stream ds as := by
  obtain ⟨hstart, hreset⟩ := Bool.or_eq_false_iff.mp hno
  unfold Interface.cmdWrite
  dsimp only
  rw [hstart, hreset, if_neg Bool.false_ne_true, if_neg Bool.false_ne_true]
  split
  · rename_i hbit
    exact h.of_same rfl rfl rfl fun harmed => absurd (hstop harmed) (by simp [hbit])
  · exact h.of_same rfl rfl rfl fun _ => rfl

/-- A write to CONF1 that neither asks for the ATR nor puts the card in reset. -/
theorem Stream.conf1Write (h : s.Stream ds as) (now : Int)
    (hno : (s.asksAtr val || s.falls val conf1Srstlev) = false) :
    (s.conf1Write now val).Stream ds as := by
  obtain ⟨hasks, hfalls⟩ := Bool.or_eq_false_iff.mp hno
  refine h.of_same ?_ rfl ?_ ?_
  · simp [Interface.conf1Write, hfalls]
  · simp [Interface.conf1Write, hasks]
  · intro harmed
    rcases h with ⟨-, hon, -⟩ | ⟨hnone, -⟩
    · simp [Interface.conf1Write, hon]
    · exact absurd hnone harmed

/-- **Step.** A call that does not restart the card keeps the stream. -/
theorem Stream.step (h : s.Stream ds as) (hcont : s.Continues e) :
    (s.step e).1.Stream (ds ++ delivered (s.step e).2) (as ++ answered (s.step e).2) := by
  obtain ⟨hrestart, hwait⟩ := hcont
  have hstep := stepped_step s e
  generalize s.step e = r at hstep ⊢
  cases hstep with
  | still hstill hdelivered hanswered =>
    have hsame := h.of_same hstill.rx hstill.pend hstill.atrTimer fun _ => hstill.powered
    exact hsame.quiet hdelivered hanswered
  | drx hrx => simpa [delivered, answered] using h.drx hrx
  | cmd hreg =>
    simp only [restarts, disturbs, hreg] at hrestart hwait
    exact (h.cmdWrite hrestart hwait).quiet rfl rfl
  | conf1 hreg =>
    simp only [restarts, hreg] at hrestart
    exact (h.conf1Write _ hrestart).quiet rfl rfl
  | dtx hreg =>
    refine h.dtxWrite ?_ _ _
    by_contra harmed
    simp [disturbs, hreg] at hwait
    exact harmed hwait
  | atr hdue =>
    refine (h.atrFire fun hnone => ?_).quiet rfl rfl
    rw [hnone] at hdue
    cases hdue
  | resp => exact h.respFire.quiet rfl rfl

/-! ### The restart itself -/

/-- The stream is as the restart should leave it, and so is the card. -/
def Fresh (s : Interface) : Prop := s.Stream [] [] ∧ s.apdu = [] ∧ s.card.resp = []

theorem fresh_of_atr (hrx : s.rx = atr) (hpend : s.pend = []) (hatr : s.atrTimer = none)
    (hapdu : s.apdu = []) (hresp : s.card.resp = []) : s.Fresh := by
  refine ⟨.inr ⟨hatr, [], ?_, ?_⟩, hapdu, hresp⟩
  · rw [hrx]
    rfl
  · rw [hpend]
    exact List.Sublist.refl []

/-- A powered card with empty buffers, once its ATR is out. -/
theorem fresh_deliverAtr (hon : s.powered) (hrx : s.rx = []) (hpend : s.pend = [])
    (hatr : s.atrTimer = none) (hapdu : s.apdu = []) (hresp : s.card.resp = []) :
    s.deliverAtr.Fresh := by
  have hfifo := deliverAtr_rx hon
  obtain ⟨rx, it, irq, heq⟩ := deliverAtr_eq s
  rw [heq, hrx] at hfifo
  rw [heq]
  exact fresh_of_atr hfifo hpend hatr hapdu hresp

theorem fresh_cmdWrite (hstop : bitSet val cmdStop = false)
    (hstart : bitSet val cmdStart ∨ (resets val = true ∧ s.powered))
    (hpend : s.pend = []) (hatr : s.atrTimer = none)
    (hclear : resets val ∨ (s.rx = [] ∧ s.apdu = [] ∧ s.card.resp = [])) :
    (s.cmdWrite val).Fresh := by
  unfold Interface.cmdWrite
  dsimp only
  rw [hstop, if_neg Bool.false_ne_true]
  by_cases hbit : bitSet val cmdStart
  · rw [if_pos hbit]
    by_cases hreset : resets val
    · rw [if_pos hreset]
      obtain ⟨rx, it, irq, heq⟩ := deliverAtr_eq { s with cmd := val, powered := true }
      rw [heq]
      exact fresh_deliverAtr rfl rfl hpend hatr rfl rfl
    · obtain ⟨hrx, hapdu, hresp⟩ := hclear.resolve_left hreset
      rw [if_neg hreset]
      exact fresh_deliverAtr rfl hrx hpend hatr hapdu hresp
  · obtain ⟨hreset, hon⟩ := hstart.resolve_left hbit
    rw [if_neg hbit, if_pos hreset]
    exact fresh_deliverAtr hon rfl hpend hatr rfl rfl

theorem fresh_conf1Write {now : Int} (hasks : s.asksAtr val)
    (hpend : s.pend = []) (hresp : s.card.resp = [])
    (hclear : s.falls val conf1Srstlev ∨ (s.rx = [] ∧ s.apdu = [])) :
    (s.conf1Write now val).Fresh := by
  have hon : (s.powered || bitSet val conf1Svcclev) := by
    simp only [asksAtr, Bool.and_eq_true] at hasks
    exact hasks.1.1.2
  have hrx : (s.conf1Write now val).rx = [] := by
    rcases hclear with hfalls | ⟨hrx, -⟩
    · simp [Interface.conf1Write, hfalls]
    · simp [Interface.conf1Write, hrx]
  have hapdu : (s.conf1Write now val).apdu = [] := by
    rcases hclear with hfalls | ⟨-, hapdu⟩
    · simp [Interface.conf1Write, hfalls]
    · simp [Interface.conf1Write, hapdu]
  refine ⟨.inl ⟨?_, hon, ?_, hpend, rfl⟩, hapdu, hresp⟩
  · simp [Interface.conf1Write, hasks]
  · rw [hrx]
    rfl

theorem fresh_start (hstarts : s.starts e) (hclean : s.Clean e) : (s.step e).1.Fresh := by
  obtain ⟨now, call⟩ := e
  cases call with
  | write off val =>
    unfold starts at hstarts
    unfold Clean at hclean
    dsimp only at hstarts hclean
    show (s.regWrite now off val).1.Fresh
    unfold Interface.regWrite
    cases hreg : Reg.ofOffset off with
    | none =>
      rw [hreg] at hstarts
      cases hstarts
    | some reg =>
      rw [hreg] at hstarts hclean
      cases reg with
      | cmd =>
        obtain ⟨hpend, hatr, hclear⟩ := hclean
        simp only [Bool.and_eq_true, Bool.not_eq_true', Bool.or_eq_true] at hstarts
        exact fresh_cmdWrite hstarts.1 hstarts.2 hpend hatr hclear
      | conf1 =>
        obtain ⟨hpend, hresp, hclear⟩ := hclean
        exact fresh_conf1Write hstarts hpend hresp hclear
      | _ => cases hstarts
  | _ => cases hstarts

/-! ### Runs -/

theorem Stream.run {es : List Event} (h : s.Stream ds as) (hcont : machine.Along Continues s es) :
    (machine.final s es).Stream (ds ++ delivered (machine.trace s es))
      (as ++ answered (machine.trace s es)) := by
  induction es generalizing s ds as with
  | nil => exact h.quiet rfl rfl
  | cons e es ih =>
    obtain ⟨hfirst, hrest⟩ := hcont
    have hrun := ih (h.step hfirst) hrest
    rw [append_assoc, append_assoc, ← delivered_append, ← answered_append] at hrun
    exact hrun

/-- What a restart owes, over the calls that follow it: no command half received, no response
kept for GET RESPONSE, and a FIFO that delivers the ATR and then only bytes the card answered
since. -/
structure Restarted (s : Interface) (es : List Event) : Prop where
  apdu : s.apdu = []
  resp : s.card.resp = []
  stream : (machine.final s es).Stream (delivered (machine.trace s es))
    (answered (machine.trace s es))

/-- **Restart.** Whatever came before, a restart that finds nothing left is followed by the
ATR and by answers to what is sent after it. -/
theorem restart_delivers_atr (cfg : Config) (es : List Event) (e : Event) (es' : List Event)
    (hstarts : (machine.final (init cfg) es).starts e = true)
    (hclean : (machine.final (init cfg) es).Clean e)
    (hcont : machine.Along Continues (machine.step (machine.final (init cfg) es) e).1 es') :
    Restarted (machine.step (machine.final (init cfg) es) e).1 es' := by
  obtain ⟨hstream, hapdu, hresp⟩ := fresh_start hstarts hclean
  exact ⟨hapdu, hresp, hstream.run hcont⟩

def calls (start : Nat) : List Call → List Event
  | [] => []
  | c :: cs => ⟨start * 1000000, c⟩ :: calls (start + 1) cs

/-- START; the ATR is read; the header of a SELECT with two bytes of data to come. -/
def selectHeader : List Call :=
  [.write 0x00 0x0008, .read 0x0A, .read 0x0A, .read 0x0A, .read 0x0A,
    .write 0x0C 0xA0, .write 0x0C 0xA4, .write 0x0C 0x00, .write 0x0C 0x00, .write 0x0C 0x02]

/-- The card is reset once the procedure byte has been read; the ATR is read. -/
theorem restart_delivers_atr_idle :
    Restarted (machine.step (machine.final (init .bench)
        (calls 0 selectHeader ++ calls 20 [.respTimer, .read 0x0A]))
      ⟨22000000, .write 0x00 0x0001⟩).1
      (calls 23 [.read 0x0A, .read 0x0A, .read 0x0A, .read 0x0A]) := by
  refine restart_delivers_atr .bench _ _ _ (by decide) ⟨by decide, by decide, .inl (by decide)⟩ ?_
  decide

/-- Nothing answered since the restart: the FIFO may deliver the ATR alone. -/
theorem Restarted.atr_only {es : List Event} (h : Restarted s es)
    (hatr : (machine.final s es).atrTimer = none) (hnone : answered (machine.trace s es) = []) :
    delivered (machine.trace s es) ++ (machine.final s es).rx = atr := by
  rcases h.stream with ⟨harmed, -⟩ | ⟨-, x, heq, hsub⟩
  · exact absurd hatr harmed
  · rw [hnone, sublist_nil, append_eq_nil_iff] at hsub
    rw [heq, hsub.1, append_nil]

/-- The card is reset while the procedure byte of SELECT still waits for its timer: it comes
behind the ATR. Stopped and started instead, with the procedure byte in the FIFO, the card
sends its ATR behind it. -/
theorem restart_delivers_old :
    ¬ Restarted (machine.step (machine.final (init .bench) (calls 0 selectHeader))
        ⟨10000000, .write 0x00 0x0001⟩).1
        (calls 11 [.read 0x0A, .read 0x0A, .read 0x0A, .read 0x0A, .respTimer, .read 0x0A]) ∧
      ¬ Restarted (machine.step (machine.final (init .bench)
        (calls 0 selectHeader ++ calls 20 [.respTimer, .write 0x00 0x0004]))
        ⟨22000000, .write 0x00 0x0008⟩).1 (calls 23 [.read 0x0A]) := by
  refine ⟨fun h => ?_, fun h => ?_⟩
  · exact absurd (h.atr_only (by decide) (by decide)) (by decide)
  · exact absurd (h.atr_only (by decide) (by decide)) (by decide)

end Interface

end Qosmo.Sim
