import Qosmo.Uart.Fifo

/-!
# Qosmo.Uart.Romload

The boot-loader dialogue on the modem port.

The stub reads a byte at a time and remembers between two deliveries where it stands: the
state of an automaton and the bytes its data phase still needs. What it does with a stream
does not depend on where the deliveries cut it (`Romload.filter_append`), so each command
is followed once, from idle to idle, whatever its data look like. A run of the port is then
one pass of the stub over everything that was delivered (`deliveries_filter`); the calls of
the guest and of the injectors in between leave the stub alone (`SamePort`).
-/

namespace Qosmo

namespace Romload

/-! ### The commands -/

/-- The commands that keep the loader in its phase: `<i`, `<w` with a header of eight bytes
and a payload, `<c` with the checksum. -/
inductive Command
  | identify
  | block (data : Vector Byte (8 + payloadSize))
  | checksum (b : Byte)
  deriving DecidableEq

def Command.bytes : Command → List Byte
  | .identify => [0x3c, 0x69]
  | .block data => [0x3c, 0x77] ++ data.toList
  | .checksum b => [0x3c, 0x63, b]

/-- The answer the host waits for: `>i` and `>p` with the payload size, `>w`, or `>c` with
the checksum it sent. -/
def Command.ack : Command → List Byte
  | .identify => [0x3e, 0x69, 0x3e, 0x70, 0x0a, 0x04]
  | .block _ => [0x3e, 0x77]
  | .checksum b => [0x3e, 0x63, b]

/-- `<b` with the four bytes of the rate: the command that ends the phase. -/
def baudRate (rate : Vector Byte 4) : List Byte := [0x3c, 0x62] ++ rate.toList

def baudAck : List Byte := [0x3e, 0x62]

/-! ### What the stub does with a stream -/

/-- Where a stream is cut makes no difference. -/
theorem filter_append (r : Romload) (bs bs' : List Byte) :
    r.filter (bs ++ bs') =
      (((r.filter bs).1.filter bs').1,
        (r.filter bs).2.1 ++ ((r.filter bs).1.filter bs').2.1,
        (r.filter bs).2.2 ++ ((r.filter bs).1.filter bs').2.2) := by
  induction bs generalizing r with
  | nil => rfl
  | cons b bs ih =>
    simp only [List.cons_append, filter, ih, List.append_assoc]
    split <;> rfl

/-- A data phase that does not look at its bytes swallows as many as it needs, whatever
they are, and answers after the last one. -/
theorem filter_data {p next : RomloadState} {ack : List Byte}
    (hphase : ∀ n b, stubEat ⟨p, n⟩ b = ((data ⟨p, n⟩ ack next).1, (data ⟨p, n⟩ ack next).2, true))
    {n : Nat} {bs : List Byte} (hlen : bs.length = n) (hn : 0 < n) :
    filter ⟨p, n⟩ bs = (⟨next, 0⟩, [], ack) := by
  -- on the bytes still needed: only the last one brings the count to zero
  induction bs generalizing n with
  | nil => exact absurd hlen (Nat.ne_of_lt hn)
  | cons b bs ih =>
    subst hlen
    by_cases hlast : bs = []
    · subst hlast
      simp [filter, hphase, data]
    · have hmore : data ⟨p, ((b :: bs).length : Nat)⟩ ack next = (⟨p, bs.length⟩, []) := by
        simp [data, hlast]
      simp only [filter, hphase, hmore, ih rfl (List.length_pos_of_ne_nil hlast)]
      rfl

/-- From idle, a command is swallowed whole and answered once; the stub is idle again. -/
theorem filter_command (n : Int) (c : Command) :
    ∃ n', filter ⟨.idle, n⟩ c.bytes = (⟨.idle, n'⟩, [], c.ack) := by
  cases c with
  | identify => exact ⟨n, rfl⟩
  | block data =>
    -- `<w` opens the data phase, and the data are all of it
    have hphase := filter_data (p := .blockData) (fun _ _ => rfl) data.length_toList (by omega)
    refine ⟨0, ?_⟩
    rw [Command.bytes, filter_append]
    show ((filter ⟨.blockData, _⟩ _).1, [] ++ (filter ⟨.blockData, _⟩ _).2.1, _) = _
    exact congrArg (fun t => (t.1, t.2.1, t.2.2)) hphase
  | checksum b => exact ⟨0, rfl⟩

/-- From idle, any commands are swallowed and answered one after the other. -/
theorem filter_commands (n : Int) (cs : List Command) :
    ∃ n', filter ⟨.idle, n⟩ (cs.flatMap Command.bytes)
      = (⟨.idle, n'⟩, [], cs.flatMap Command.ack) := by
  induction cs generalizing n with
  | nil => exact ⟨n, rfl⟩
  | cons c cs ih =>
    obtain ⟨n₁, hc⟩ := filter_command n c
    obtain ⟨n₂, hcs⟩ := ih n₁
    refine ⟨n₂, ?_⟩
    rw [List.flatMap_cons, filter_append, hc, hcs]
    rfl

/-- The baud-rate command is swallowed and answered, and the stub steps aside. -/
theorem filter_baudRate (n : Int) (rate : Vector Byte 4) :
    filter ⟨.idle, n⟩ (baudRate rate) = (⟨.passthrough, 0⟩, [], baudAck) := by
  have hphase := filter_data (p := .brData) (fun _ _ => rfl) rate.length_toList (by omega)
  rw [baudRate, filter_append]
  exact congrArg (fun t => (t.1, t.2.1, t.2.2)) hphase

/-- A whole dialogue: every command is answered, and what follows passes untouched. -/
theorem filter_dialogue (n : Int) (cs : List Command) (rate : Vector Byte 4) (rest : List Byte) :
    filter ⟨.idle, n⟩ (cs.flatMap Command.bytes ++ baudRate rate ++ rest)
      = (⟨.passthrough, 0⟩, rest, cs.flatMap Command.ack ++ baudAck) := by
  obtain ⟨n', hcs⟩ := filter_commands n cs
  have hrest := Uart.Romload.filter_passthrough (r := ⟨.passthrough, 0⟩) rfl rest
  rw [filter_append, filter_append, hcs]
  simp only [filter_baudRate, hrest, List.nil_append, List.append_nil]

end Romload

namespace Uart

variable {s s' : Uart}

/-! ### Calls that leave the stub alone -/

/-- The label and the state of the stub are as before. -/
structure SamePort (s s' : Uart) : Prop where
  label : s'.label = s.label
  romload : s'.romload = s.romload

theorem injectRaw_port (s : Uart) (buf : List Byte) : SamePort s (s.injectRaw buf).1 := by
  obtain ⟨rx, lsr, hpush⟩ := pushAll_eq s buf
  simp only [injectRaw, hpush]
  split <;> exact ⟨rfl, rfl⟩

theorem readReg_port (s : Uart) (r : Reg) : SamePort s (s.readReg r).1 := by
  cases r with
  | rbrThr =>
    simp only [readReg, readRbr]
    split
    · exact ⟨rfl, rfl⟩
    · split <;> exact ⟨rfl, rfl⟩
  | iirFcr =>
    simp only [readReg, readIir]
    split
    · exact ⟨rfl, rfl⟩
    · split
      · split <;> exact ⟨rfl, rfl⟩
      · exact ⟨rfl, rfl⟩
  | lsr => simp only [readReg]; split <;> exact ⟨rfl, rfl⟩
  | ier | lcr | mcr | msr | spr | mdr1 | scr | ssr => exact ⟨rfl, rfl⟩

theorem writeFcr_port (s : Uart) (value : Byte) : SamePort s (s.writeFcr value) := by
  have hrx : SamePort s ({ s with fcr := value }.fcrRx value) := by
    unfold fcrRx
    split <;> exact ⟨rfl, rfl⟩
  unfold writeFcr fcrTx
  split <;> exact ⟨hrx.label, hrx.romload⟩

theorem writeReg_port (s : Uart) (value : Byte) (r : Reg) : SamePort s (s.writeReg value r) := by
  cases r with
  | iirFcr =>
    simp only [writeReg]
    split
    · exact ⟨rfl, rfl⟩
    · exact writeFcr_port s value
  | rbrThr | ier | mcr | lsr | msr | spr => simp only [writeReg]; split <;> exact ⟨rfl, rfl⟩
  | lcr | mdr1 | scr | ssr => exact ⟨rfl, rfl⟩

/-- The calls during the phase: deliveries no longer than `can_receive` allows and
anything of the guest or the injectors, but nobody ends the phase by hand. -/
def Loading (s : Uart) (e : Event) : Prop := Fits s e ∧ e ≠ .romloadPassthrough

instance decidableLoading (s : Uart) (e : Event) : Decidable (Loading s e) :=
  inferInstanceAs (Decidable (Fits s e ∧ e ≠ .romloadPassthrough))

/-- The bytes of a delivery. -/
def Event.received : Event → List Byte
  | .receive buf => buf
  | _ => []

theorem step_port {e : Event} (he : e ≠ .romloadPassthrough) (hr : ∀ buf, e ≠ .receive buf) :
    SamePort s (s.step e).1 := by
  cases e with
  | receive buf => exact absurd rfl (hr buf)
  | inject buf => exact injectRaw_port s buf
  | read offset =>
    simp only [step, read]
    split
    · exact readReg_port s _
    · exact ⟨rfl, rfl⟩
  | write offset value =>
    simp only [step, write]
    split
    · exact writeReg_port s value _
    · exact ⟨rfl, rfl⟩
  | kickRx =>
    simp only [step, kickRx]
    split <;> exact ⟨rfl, rfl⟩
  | kickTx => exact ⟨rfl, rfl⟩
  | forceInit =>
    simp only [step, forceInit]
    split <;> exact ⟨rfl, rfl⟩
  | romloadPassthrough => exact absurd rfl he

/-! ### Deliveries -/

/-- The port, showing only what the deliveries do. -/
def deliveries : Machine Uart Event Obs :=
  ⟨fun s e => ((s.step e).1, match e with
    | .receive _ => (s.step e).2
    | _ => [])⟩

/-- The bytes sent to the backend. -/
def Obs.sentBytes : Obs → List Byte
  | .sent bs => bs
  | _ => []

def sentBytes (os : List Obs) : List Byte := os.flatMap Obs.sentBytes

def enteredBytes (os : List Obs) : List Byte := QueueOp.accepted (queueOps os)

theorem sentBytes_append (os os' : List Obs) :
    sentBytes (os ++ os') = sentBytes os ++ sentBytes os' := List.flatMap_append

theorem enteredBytes_append (os os' : List Obs) :
    enteredBytes (os ++ os') = enteredBytes os ++ enteredBytes os' := by
  unfold enteredBytes QueueOp.accepted
  rw [queueOps_append, List.flatMap_append]

theorem filter_length_le (r : Romload) (bs : List Byte) : (r.filter bs).2.1.length ≤ bs.length := by
  induction bs generalizing r with
  | nil => exact le_rfl
  | cons b bs ih =>
    have hrest := ih (r.stubEat b).1
    simp only [Romload.filter]
    split
    · exact hrest.trans (Nat.le_succ _)
    · exact Nat.succ_le_succ hrest

theorem pushAll_silent (s : Uart) (buf : List Byte) : sentBytes (s.pushAll buf).2 = [] := by
  induction buf generalizing s with
  | nil => rfl
  | cons b bs ih =>
    have hpush : (s.fifoPush b).2.sentBytes = [] := by
      unfold fifoPush
      split <;> rfl
    show (s.fifoPush b).2.sentBytes ++ sentBytes (pushAll (s.fifoPush b).1 bs).2 = []
    rw [hpush, ih]
    rfl

/-- **One delivery** on the modem port: the stub takes it, its answers are sent and what
it let through enters the FIFO. -/
theorem receive_filter {buf : List Byte} (hlabel : s.label = .modem)
    (hfits : (buf.length : Int) ≤ s.canReceive) :
    (s.receive buf).1.label = .modem ∧
      (s.receive buf).1.romload = (s.romload.filter buf).1 ∧
      sentBytes (s.receive buf).2 = (s.romload.filter buf).2.2 ∧
      enteredBytes (s.receive buf).2 = (s.romload.filter buf).2.1 := by
  have hpassed := filter_length_le s.romload buf
  have hroom : s.rx.count + (s.romload.filter buf).2.1.length ≤ RxFifo.size := by
    unfold canReceive at hfits
    omega
  unfold receive
  rw [hlabel]
  -- from here on it does not matter what the stub did, only that the FIFO has room for it
  generalize s.romload.filter buf = t at hroom ⊢
  dsimp only
  split
  · rename_i hnil
    rw [hnil]
    exact ⟨hlabel, rfl, List.append_nil _, rfl⟩
  · have hport := injectRaw_port (s.loaded t.1) t.2.1
    have hsilent := pushAll_silent (s.loaded t.1) t.2.1
    refine ⟨hport.label.trans hlabel, hport.romload, ?_, ?_⟩
    · show t.2.2 ++ sentBytes ((s.loaded t.1).pushAll t.2.1).2 = t.2.2
      rw [hsilent, List.append_nil]
    · exact pushAll_accepted (s := s.loaded t.1) hroom

theorem not_delivered {e : Event} (hr : ∀ buf, e ≠ .receive buf) :
    e.received = [] ∧ (deliveries.step s e).2 = [] := by
  cases e with
  | receive buf => exact absurd rfl (hr buf)
  | inject | read | write | kickRx | kickTx | forceInit | romloadPassthrough => exact ⟨rfl, rfl⟩

/-- **A run of the port** is one pass of the stub over everything delivered. -/
theorem deliveries_filter {es : List Event} (hlabel : s.label = .modem)
    (hes : deliveries.Along Loading s es) :
    (deliveries.final s es).romload = (s.romload.filter (es.flatMap Event.received)).1 ∧
      sentBytes (deliveries.trace s es) = (s.romload.filter (es.flatMap Event.received)).2.2 ∧
      enteredBytes (deliveries.trace s es)
        = (s.romload.filter (es.flatMap Event.received)).2.1 := by
  induction es generalizing s with
  | nil => exact ⟨rfl, rfl, rfl⟩
  | cons e es ih =>
    obtain ⟨⟨hfits, hne⟩, hrest⟩ := hes
    by_cases hr : ∀ buf, e ≠ .receive buf
    · -- nothing is delivered: the stub waits where it was
      have hport := step_port (s := s) hne hr
      obtain ⟨hbytes, hobs⟩ := not_delivered (s := s) hr
      have hrun := ih (hport.label.trans hlabel) hrest
      rw [Machine.trace_cons, hobs, List.nil_append, List.flatMap_cons, hbytes, List.nil_append,
        ← hport.romload]
      exact hrun
    · obtain ⟨buf, rfl⟩ : ∃ buf, e = .receive buf := by
        simpa using hr
      obtain ⟨hlabel', hstate, hsent, hentered⟩ := receive_filter hlabel hfits
      obtain ⟨hstate', hsent', hentered'⟩ := ih hlabel' hrest
      rw [hstate] at hstate' hsent' hentered'
      rw [List.flatMap_cons, Romload.filter_append, Machine.trace_cons, sentBytes_append,
        enteredBytes_append]
      exact ⟨hstate', congrArg₂ (· ++ ·) hsent hsent', congrArg₂ (· ++ ·) hentered hentered'⟩

/-- **The boot-loader dialogue.** Whatever commands the host sends before the baud-rate
command, however the backend cuts the stream and whatever else happens in between: the stub
answers each command once, in order, and what enters the receive FIFO is exactly what
follows the baud-rate command, in order. -/
theorem romload_dialogue (hlabel : s.label = .modem) (hidle : s.romload.state = .idle)
    (cs : List Romload.Command) (rate : Vector Byte 4) (rest : List Byte) (es : List Event)
    (hes : deliveries.Along Loading s es)
    (hstream : es.flatMap Event.received
      = cs.flatMap Romload.Command.bytes ++ Romload.baudRate rate ++ rest) :
    sentBytes (deliveries.trace s es) = cs.flatMap Romload.Command.ack ++ Romload.baudAck ∧
      enteredBytes (deliveries.trace s es) = rest := by
  obtain ⟨-, hsent, hentered⟩ := deliveries_filter hlabel hes
  have hstub : s.romload = ⟨.idle, s.romload.needed⟩ := by
    rw [← hidle]
  rw [hstream, hstub, Romload.filter_dialogue] at hsent hentered
  exact ⟨hsent, hentered⟩

/-- A checksum command cut in the middle, the baud rate, and two bytes for the firmware. -/
theorem romload_dialogue_cut :
    deliveries.Along Loading (reset .modem)
        [.receive [0x3c, 0x63], .read 0x05, .receive [0x3c, 0x3c, 0x62, 0, 1],
          .receive [2, 3, 0x7e, 0x3c]] ∧
      enteredBytes (deliveries.trace (reset .modem)
        [.receive [0x3c, 0x63], .read 0x05, .receive [0x3c, 0x3c, 0x62, 0, 1],
          .receive [2, 3, 0x7e, 0x3c]]) = [0x7e, 0x3c] :=
  have hes : deliveries.Along Loading (reset .modem)
      [.receive [0x3c, 0x63], .read 0x05, .receive [0x3c, 0x3c, 0x62, 0, 1],
        .receive [2, 3, 0x7e, 0x3c]] := by decide
  ⟨hes, (romload_dialogue rfl rfl [.checksum 0x3c] #v[0, 1, 2, 3] [0x7e, 0x3c] _ hes rfl).2⟩

end Uart

end Qosmo
