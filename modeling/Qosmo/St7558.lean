import Qosmo.Basic
import Qosmo.Lib.Run
import Mathlib.Logic.Function.Basic

/-!
# Qosmo.St7558

The display of the C123 behind its I2C controller (`calypso_i2c_ctrl.c`, `calypso_st7558.c`).

The firmware fills the FIFO of the controller and sets START: the controller replays the FIFO as
one transaction on the bus, and the display takes the first byte of it for the kind of the others.
At the end of a transaction that changed it, the display publishes its picture in a file. So the
file shows the display whenever the guest is between two accesses (`published_run`), and a page is
written whatever packets it is cut into (`page_written`).
-/

namespace Qosmo

open Function List Machine

/-- `MODE_IDLE`, `MODE_CMD` and `MODE_DATA`. -/
inductive St7558.Mode
  | idle
  | cmd
  | data
  deriving Repr, DecidableEq

/-- `St7558State`, without the console. `shared` is what the file holds, if there is one; `seq`
counts the pictures written to it. -/
structure St7558 where
  ram : Nat → Byte
  page : Nat
  x : Nat
  mode : St7558.Mode
  ext : Bool
  inverse : Bool
  off : Bool
  dirty : Bool
  seq : BitVec 32
  shared : Option (List Byte)

namespace St7558

/-- `ST7558_COLS` and `ST7558_PAGES`. -/
def cols : Nat := 102
def pages : Nat := 9

/-- The columns that are on the glass, of each page. -/
def picture (s : St7558) : List Byte :=
  (range pages).flatMap fun p => (range 96).map fun x => s.ram (p * cols + x)

/-- `buf` of `st7558_export`. -/
def image (s : St7558) : List Byte :=
  ascii "C123LCD" ++
    [0, 96, 0, 65, 0, 9, 0, (if s.inverse then 1 else 0) ||| (if s.off then 2 else 0), 0,
      s.seq.extractLsb' 0 8, s.seq.extractLsb' 8 8, s.seq.extractLsb' 16 8,
      s.seq.extractLsb' 24 8] ++
    replicate 12 0 ++ s.picture

/-- `st7558_export`. -/
def exportImage (s : St7558) : St7558 :=
  match s.shared with
  | none => s
  | some _ =>
    let s' := { s with seq := s.seq + 1 }
    { s' with shared := some s'.image }

/-- The device as realised, with the file or without. -/
def realize (file : Bool) : St7558 :=
  exportImage ⟨fun _ => 0, 0, 0, .idle, false, false, false, false, 0,
    if file then some [] else none⟩

def send (s : St7558) (data : Byte) : St7558 :=
  match s.mode with
  | .idle => { s with mode := if bitSet data 6 then .data else .cmd }
  | .data =>
    if s.page < pages ∧ s.x < cols then
      { s with ram := update s.ram (s.page * cols + s.x) data, dirty := true, x := s.x + 1 }
    else { s with x := s.x + 1 }
  | .cmd =>
    if bitSet data 7 then { s with x := (data &&& 0x7F).toNat }
    else if data &&& 0xF0 = 0x40 then { s with page := (data &&& 0x0F).toNat }
    else if data &&& 0xFE = 0x20 then { s with ext := bitSet data 0 }
    else if s.ext then s
    else if data = 0x0C then { s with inverse := false, off := false, dirty := true }
    else if data = 0x0D then { s with inverse := true, off := false, dirty := true }
    else if data = 0x08 then { s with off := true, dirty := true }
    else s

/-- `st7558_event` at the start and at the end of a transaction. -/
def start (s : St7558) : St7558 := { s with mode := .idle }
def finish (s : St7558) : St7558 :=
  if s.dirty then { s with mode := .idle, dirty := false }.exportImage else { s with mode := .idle }

end St7558

/-- `CalypsoI2CCtrlState` with its bus. The display is the only slave, if there is one; `fifo` is
what is in the FIFO. -/
structure I2cCtrl where
  device : Byte
  address : Byte
  cmd : Byte
  confFifo : Byte
  confClk : Byte
  confClkRef : Byte
  status : Byte
  rd : Byte
  fifo : List Byte
  lcd : Option St7558

namespace I2cCtrl

/-- The board as realised, with the display or without. -/
def realize (lcd : Option St7558) : I2cCtrl := ⟨0, 0, 0, 0, 0, 0, 0, 0, [], lcd⟩

/-- The slave that takes part in the transaction: the one addressed, 0 being the broadcast. -/
def selected (s : I2cCtrl) : Bool := s.lcd.isSome && (s.device == 0x3C || s.device == 0)

/-- The slave does something, if it takes part. -/
def onBus (s : I2cCtrl) (f : St7558 → St7558) : I2cCtrl :=
  { s with lcd := if s.selected then s.lcd.map f else s.lcd }

/-- `i2c_start_send` and `i2c_start_recv`, with the result: 1 if nobody answers. -/
def startTransfer (s : I2cCtrl) : I2cCtrl × Int :=
  (s.onBus St7558.start, if s.selected then 0 else 1)

def clearFifo (s : I2cCtrl) : I2cCtrl := { s with fifo := [] }

/-- `i2c_ctrl_transfer`. The display reads as 0xFF, like a bus without a slave. -/
def transfer (s : I2cCtrl) : I2cCtrl :=
  let t := { s with status := s.status &&& ~~~0x03 }.startTransfer
  clearFifo <|
    if t.2 < 0 then { t.1 with status := t.1.status ||| 0x02 }
    else if bitSet t.1.cmd 3 then { t.1 with rd := 0xFF }.onBus St7558.finish
    else ((t.1.address :: t.1.fifo).foldl (fun s b => s.onBus (·.send b)) t.1).onBus St7558.finish

/-- A write to CMD. -/
def writeCmd (s : I2cCtrl) (v : Byte) : I2cCtrl :=
  let s := if bitSet v 0 then { s.clearFifo with status := 0 } else s
  let s := { s with cmd := v &&& ~~~0x05 }
  if bitSet v 2 then s.transfer else s

def write (s : I2cCtrl) (offset : Nat) (v : Byte) : I2cCtrl :=
  match offset with
  | 0 => { s with device := v &&& 0x7F }
  | 1 => { s with address := v }
  | 2 =>
    if s.fifo.length < 16 then { s with fifo := s.fifo ++ [v] }
    else { s with status := s.status ||| 0x01 }
  | 4 => s.writeCmd v
  | 5 => { s with confFifo := v }
  | 6 => { s with confClk := v }
  | 7 => { s with confClkRef := v }
  | _ => s

def read (s : I2cCtrl) (offset : Nat) : Byte :=
  match offset with
  | 0 => s.device
  | 1 => s.address
  | 3 => s.rd
  | 4 => s.cmd
  | 5 => s.confFifo
  | 6 => s.confClk
  | 7 => s.confClkRef
  | 8 => BitVec.ofNat 8 s.fifo.length
  | 9 => s.status &&& ~~~0x04
  | _ => 0

inductive Event
  | read (offset : Nat)
  | write (offset : Nat) (value : Byte)
  deriving Repr, DecidableEq

/-- The controller driven by the guest, showing what it reads. -/
def machine : Machine I2cCtrl Event (Nat × Byte) where
  step s
    | .read offset => (s, [(offset, s.read offset)])
    | .write offset v => (s.write offset v, [])

end I2cCtrl

/-! ### The picture in the file -/

namespace St7558

variable {s : St7558}

/-- The file is behind the display only while a transaction is going on that changed it. -/
def Fresh (s : St7558) : Prop := ∀ b ∈ s.shared, s.dirty = false → b = s.image

theorem Fresh.send (h : s.Fresh) (data : Byte) : (s.send data).Fresh := by
  have hdirty : ∀ d : St7558, d.dirty → d.Fresh := by
    intro d hd b _ hclean
    rw [hd] at hclean
    cases hclean
  unfold St7558.send
  split
  · exact h
  · split
    · exact hdirty _ rfl
    · exact h
  · split_ifs
    all_goals first
      | exact h
      | exact hdirty _ rfl

theorem Fresh.sends (h : s.Fresh) (bs : List Byte) : (bs.foldl St7558.send s).Fresh := by
  induction bs generalizing s with
  | nil => exact h
  | cons b bs ih => exact ih (h.send b)

/-- The file shows the display. -/
structure Shown (s : St7558) : Prop where
  file : ∀ b ∈ s.shared, b = s.image
  clean : s.dirty = false

theorem Shown.fresh (h : s.Shown) : s.start.Fresh := fun b hb _ => h.file b hb

theorem Fresh.finish (h : s.Fresh) : s.finish.Shown := by
  unfold St7558.finish
  split
  · unfold exportImage
    split
    · rename_i hnone
      exact ⟨fun b hb => absurd (hb.symm.trans hnone) (Option.some_ne_none b), rfl⟩
    · exact ⟨fun b hb => (Option.some.inj hb).symm, rfl⟩
  · rename_i hclean
    have hclean' : s.dirty = false := Bool.eq_false_iff.mpr hclean
    exact ⟨fun b hb => h b hb hclean', hclean'⟩

theorem shown_realize (file : Bool) : (realize file).Shown := by
  cases file with
  | false => exact ⟨nofun, rfl⟩
  | true => exact ⟨fun b hb => (Option.some.inj hb).symm, rfl⟩

end St7558

namespace I2cCtrl

variable {s : I2cCtrl}

theorem onBus_onBus (s : I2cCtrl) (f g : St7558 → St7558) :
    (s.onBus f).onBus g = s.onBus (g ∘ f) := by
  have hsel : (s.onBus f).selected = s.selected := by
    unfold selected onBus
    split <;> simp
  unfold onBus at hsel ⊢
  rw [hsel]
  cases s.selected <;> simp

theorem foldl_onBus (s : I2cCtrl) (bs : List Byte) :
    bs.foldl (fun s b => s.onBus (·.send b)) s = s.onBus (bs.foldl St7558.send ·) := by
  induction bs generalizing s with
  | nil =>
    unfold onBus
    simp
  | cons b bs ih =>
    rw [foldl_cons, ih, onBus_onBus]
    rfl

/-- What a transaction makes of the display. -/
def transaction (s : I2cCtrl) (d : St7558) : St7558 :=
  if bitSet s.cmd 3 then d.start.finish
  else ((s.address :: s.fifo).foldl St7558.send d.start).finish

/-- A transaction with an address that no slave has goes like any other. -/
theorem transfer_eq (s : I2cCtrl) : ∃ rd, s.transfer =
    { s with
      status := s.status &&& ~~~0x03
      rd := rd
      fifo := []
      lcd := if s.selected then s.lcd.map s.transaction else s.lcd } := by
  have hres : ¬ { s with status := s.status &&& ~~~0x03 }.startTransfer.2 < 0 := by
    unfold startTransfer
    dsimp only
    split <;> decide
  unfold transfer
  dsimp only
  rw [if_neg hres]
  unfold transaction
  cases hread : bitSet s.cmd 3 with
  | true =>
    refine ⟨0xFF, (congrArg clearFifo (if_pos hread)).trans ?_⟩
    show clearFifo (({ s with status := s.status &&& ~~~0x03, rd := 0xFF }.onBus _).onBus _) = _
    rw [onBus_onBus]
    rfl
  | false =>
    refine ⟨s.rd, (congrArg clearFifo (if_neg (Bool.eq_false_iff.mp hread))).trans ?_⟩
    rw [foldl_onBus, onBus_onBus, startTransfer, onBus_onBus]
    rfl

/-- What holds between two accesses. -/
structure Settled (s : I2cCtrl) : Prop where
  lcd : ∀ d ∈ s.lcd, d.Shown
  status : bitSet s.status 1 = false

theorem Settled.transfer (h : s.Settled) : s.transfer.Settled := by
  obtain ⟨rd, heq⟩ := transfer_eq s
  rw [heq]
  refine ⟨fun d hd => ?_, by simp [bitSet]⟩
  split at hd
  · obtain ⟨d', hd', rfl⟩ := Option.map_eq_some_iff.mp hd
    have hfresh := (h.lcd d' hd').fresh
    unfold transaction
    split
    · exact hfresh.finish
    · exact (hfresh.sends _).finish
  · exact h.lcd d hd

theorem Settled.write (h : s.Settled) (offset : Nat) (v : Byte) : (s.write offset v).Settled := by
  unfold I2cCtrl.write
  split
  case h_3 =>
    split
    · exact ⟨h.lcd, h.status⟩
    · exact ⟨h.lcd, by simpa [bitSet] using h.status⟩
  case h_4 =>
    unfold writeCmd
    have hreset : (if bitSet v 0 then { s.clearFifo with status := 0 } else s).Settled := by
      split
      · exact ⟨h.lcd, by simp [bitSet]⟩
      · exact h
    dsimp only
    split
    · exact Settled.transfer ⟨hreset.lcd, hreset.status⟩
    · exact ⟨hreset.lcd, hreset.status⟩
  all_goals exact ⟨h.lcd, h.status⟩

theorem settled_step (s : I2cCtrl) (e : Event) (h : s.Settled) : (machine.step s e).1.Settled := by
  cases e with
  | read offset => exact h
  | write offset v => exact h.write offset v

end I2cCtrl

/-! ### A page in packets -/

namespace St7558

variable {d : St7558} {p x : Nat} {m : Nat → Byte} {bs cs : List Byte}

/-- A memory with some bytes put over it, from `base` on. -/
def overlay (base : Nat) (bs : List Byte) (m : Nat → Byte) : Nat → Byte := fun k =>
  if base ≤ k then bs[k - base]?.getD (m k) else m k

theorem overlay_concat (base : Nat) (bs : List Byte) (m : Nat → Byte) (b : Byte) :
    update (overlay base bs m) (base + bs.length) b = overlay base (bs ++ [b]) m := by
  funext k
  by_cases hk : k = base + bs.length
  · simp [hk, overlay]
  · rw [update_of_ne hk]
    unfold overlay
    split
    · rw [getElem?_append]
      split
      · rfl
      · rw [getElem?_eq_none (by omega), getElem?_eq_none (by rw [length_singleton]; omega)]
    · rfl

/-- The bytes `bs` have been written from column `x` of page `p` on, over the memory `m`. -/
structure Over (p x : Nat) (m : Nat → Byte) (bs : List Byte) (d : St7558) : Prop where
  page : d.page = p
  col : d.x = x + bs.length
  ram : d.ram = overlay (p * cols + x) bs m

theorem Over.finish (h : Over p x m bs d) : Over p x m bs d.finish := by
  unfold St7558.finish exportImage
  split
  · split <;> exact ⟨h.page, h.col, h.ram⟩
  · exact ⟨h.page, h.col, h.ram⟩

theorem Over.sends (h : Over p x m bs d) (hmode : d.mode = .data) (hp : p < pages)
    (hx : x + (bs ++ cs).length ≤ cols) : Over p x m (bs ++ cs) (cs.foldl St7558.send d) := by
  induction cs generalizing d bs with
  | nil => simpa using h
  | cons b cs ih =>
    rw [append_cons] at hx ⊢
    have hin : d.page < pages ∧ d.x < cols := by
      rw [h.page, h.col]
      simp only [length_append, length_singleton] at hx
      omega
    have hsend : d.send b = { d with
        ram := update d.ram (d.page * cols + d.x) b, dirty := true, x := d.x + 1 } := by
      simp only [St7558.send, hmode, hin, and_self, if_true]
    refine ih ?_ (by rw [hsend]; exact hmode) hx
    rw [hsend]
    refine ⟨h.page, ?_, ?_⟩
    · simp [h.col, Nat.add_assoc]
    · show update d.ram _ b = _
      rw [h.page, h.col, h.ram, ← Nat.add_assoc, overlay_concat]

/-- A packet of data. -/
theorem Over.data (h : Over p x m bs d) (hp : p < pages) (hx : x + (bs ++ cs).length ≤ cols) :
    Over p x m (bs ++ cs) ((0x40 :: cs).foldl St7558.send d.start).finish := by
  have hstart : Over p x m bs (d.start.send 0x40) := ⟨h.page, h.col, h.ram⟩
  exact (hstart.sends rfl hp hx).finish

theorem send_page (hmode : d.mode = .cmd) (hp : p < pages) :
    d.send (BitVec.ofNat 8 (0x40 + p)) = { d with page := p } := by
  have hbits : ∀ p < pages, bitSet (BitVec.ofNat 8 (0x40 + p)) 7 = false ∧
      BitVec.ofNat 8 (0x40 + p) &&& 0xF0 = 0x40 ∧
      (BitVec.ofNat 8 (0x40 + p) &&& 0x0F).toNat = p := by decide
  obtain ⟨hcmd, hsel, hval⟩ := hbits p hp
  simp only [St7558.send, hmode, hcmd, Bool.false_eq_true, if_false, hsel, if_true, hval]

theorem send_x (hmode : d.mode = .cmd) (hx : x ≤ cols) :
    d.send (BitVec.ofNat 8 (0x80 + x)) = { d with x := x } := by
  have hbits : ∀ x < cols + 1, bitSet (BitVec.ofNat 8 (0x80 + x)) 7 ∧
      (BitVec.ofNat 8 (0x80 + x) &&& 0x7F).toNat = x := by decide
  obtain ⟨hset, hval⟩ := hbits x (by omega)
  simp only [St7558.send, hmode, hset, if_true, hval]

/-- The packet that sets the cursor. -/
theorem over_cursor (d : St7558) (hp : p < pages) (hx : x ≤ cols) :
    Over p x d.ram [] ([0, BitVec.ofNat 8 (0x40 + p), BitVec.ofNat 8 (0x80 + x)].foldl
      St7558.send d.start).finish := by
  have hkind : d.start.send 0 = { d with mode := .cmd } := rfl
  simp only [foldl_cons, foldl_nil, hkind, send_page, send_x, hp, hx]
  exact Over.finish ⟨rfl, rfl, by funext k; simp [overlay]⟩

end St7558

namespace I2cCtrl

variable {s : I2cCtrl} {d : St7558} {bs : List Byte}

/-- What the firmware writes for a packet of some kind: the FIFO is filled and sent. -/
def packet (kind : Byte) (bs : List Byte) : List Event :=
  .write 1 kind :: bs.map (.write 2 ·) ++ [.write 4 0x06]

/-- The display is addressed, and the FIFO empty. -/
structure Ready (s : I2cCtrl) (d : St7558) : Prop where
  lcd : s.lcd = some d
  device : s.device = 0x3C
  fifo : s.fifo = []

theorem final_fill (s : I2cCtrl) (h : (s.fifo ++ bs).length ≤ 16) :
    machine.final s (bs.map (.write 2 ·)) = { s with fifo := s.fifo ++ bs } := by
  induction bs generalizing s with
  | nil => simp
  | cons b bs ih =>
    have hroom : s.fifo.length < 16 := by
      rw [length_append, length_cons] at h
      omega
    have hstep : (machine.step s (.write 2 b)).1 = { s with fifo := s.fifo ++ [b] } := if_pos hroom
    rw [append_cons] at h ⊢
    rw [map_cons, final_cons, hstep, ih _ h]

theorem Ready.packet (h : Ready s d) (kind : Byte) (hlen : bs.length ≤ 16) :
    Ready (machine.final s (packet kind bs)) ((kind :: bs).foldl St7558.send d.start).finish := by
  have hroom : (s.fifo ++ bs).length ≤ 16 := by simpa [h.fifo] using hlen
  have hfill := final_fill { s with address := kind } hroom
  have hfinal : machine.final s (I2cCtrl.packet kind bs) =
      transfer { s with address := kind, fifo := bs, cmd := 0x02 } := by
    unfold I2cCtrl.packet
    rw [cons_append, final_cons, final_append]
    refine (congrArg (machine.final · _) hfill).trans ?_
    rw [h.fifo]
    rfl
  obtain ⟨rd, heq⟩ := transfer_eq { s with address := kind, fifo := bs, cmd := 0x02 }
  rw [hfinal, heq]
  refine ⟨?_, h.device, rfl⟩
  have hsel : selected { s with address := kind, fifo := bs, cmd := 0x02 } := by
    simp [selected, h.lcd, h.device]
  rw [if_pos hsel, h.lcd]
  simp [transaction, bitSet]

theorem Ready.packets {p x : Nat} {m : Nat → Byte} {pks : List (List Byte)} (h : Ready s d)
    (hover : d.Over p x m bs) (hp : p < St7558.pages) (hlen : ∀ cs ∈ pks, cs.length ≤ 16)
    (hx : x + (bs ++ pks.flatten).length ≤ St7558.cols) :
    ∃ d', Ready (machine.final s (pks.flatMap (I2cCtrl.packet 0x40))) d' ∧
      d'.Over p x m (bs ++ pks.flatten) := by
  induction pks generalizing s d bs with
  | nil => exact ⟨d, h, by simpa using hover⟩
  | cons cs pks ih =>
    rw [flatten_cons, ← append_assoc] at hx ⊢
    obtain ⟨hcs, hrest⟩ := forall_mem_cons.mp hlen
    have hroom : x + (bs ++ cs).length ≤ St7558.cols := by
      rw [length_append] at hx
      omega
    rw [flatMap_cons, final_append]
    exact ih (h.packet 0x40 hcs) (hover.data hp hroom) hrest hx

/-- **A page.** The firmware sets the cursor and sends data in packets that fit in the FIFO: the
bytes are in the memory from the cursor on, however they are cut, and nothing else has changed
there. -/
theorem page_written (s : I2cCtrl) (d : St7558) (p x : Nat) (pks : List (List Byte))
    (hready : Ready s d) (hp : p < St7558.pages) (hlen : ∀ bs ∈ pks, bs.length ≤ 16)
    (hx : x + pks.flatten.length ≤ St7558.cols) :
    ∃ d', (machine.final s (packet 0 [BitVec.ofNat 8 (0x40 + p), BitVec.ofNat 8 (0x80 + x)] ++
        pks.flatMap (packet 0x40))).lcd = some d' ∧
      ∀ k, d'.ram k = if p * St7558.cols + x ≤ k then
        pks.flatten[k - (p * St7558.cols + x)]?.getD (d.ram k) else d.ram k := by
  have hshort : [BitVec.ofNat 8 (0x40 + p), BitVec.ofNat 8 (0x80 + x)].length ≤ 16 := by simp
  have hcursor := hready.packet 0 hshort
  obtain ⟨d', hd', hover⟩ := hcursor.packets (d.over_cursor hp (by omega)) hp hlen hx
  refine ⟨d', ?_, congrFun hover.ram⟩
  rw [final_append]
  exact hd'.lcd

/-- A page of the display as realised, cut in two. -/
theorem page_written_realize :
    ∃ d', (machine.final { realize (some (St7558.realize true)) with device := 0x3C }
      (packet 0 [0x42, 0x80] ++ [replicate 16 0xFF, [1, 2]].flatMap (packet 0x40))).lcd = some d' ∧
      d'.ram 221 = 2 := by
  obtain ⟨d', hd', hram⟩ := page_written
    { realize (some (St7558.realize true)) with device := 0x3C } (St7558.realize true) 2 0
    [replicate 16 0xFF, [1, 2]] ⟨rfl, rfl, rfl⟩ (by decide) (by decide) (by decide)
  exact ⟨d', hd', (hram 221).trans rfl⟩

end I2cCtrl

end Qosmo
