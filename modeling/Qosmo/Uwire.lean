import Mathlib.Data.List.GetD
import Qosmo.Basic
import Qosmo.Lib.Fill
import Qosmo.Lib.Raster
import Qosmo.Lib.Run

/-!
# Qosmo.Uwire

The serial controller of the display and the display behind it
(`hw/arm/calypso/calypso_uwire.c`).

The guest writes a word to TDR, left-aligned, and starts its transfer through CSR. On chip
select 0 stands the colour display, which reads nine-bit words: a command, or with bit 8 set a
parameter or half a pixel. Pixels go to the cursor, which moves through a window row by row.

What the display does depends on the words it gets alone (`final_lcd`). From a cursor in the
window's first corner, the pixels that follow fill the window in the order of reading
(`window_painted`); the cursor is a `Qosmo.Lib.Raster`, the memory is filled as
`Qosmo.Lib.Fill` says.
-/

namespace Qosmo

open BitVec List

/-- `LCD_W` and `LCD_H`. -/
def lcdW : Nat := 96
def lcdH : Nat := 64

/-- The display's part of `CalypsoUwireState`: `cmd` waits for its parameter, `pixHi` for the
other half of its pixel. -/
structure Lcd where
  ram : Nat → Word
  xs : Nat
  xe : Nat
  ys : Nat
  ye : Nat
  cx : Nat
  cy : Nat
  cmd : Option Byte
  pixHi : Option Byte
  dirty : Bool
  redraw : Bool

namespace Lcd

/-- The parameter of a command; other commands ignore theirs. -/
def parameter (s : Lcd) (cmd d : Byte) : Lcd :=
  match cmd with
  | 0x10 => { s with xs := d.toNat }
  | 0x11 => { s with ys := d.toNat }
  | 0x12 => { s with xe := d.toNat }
  | 0x13 => { s with ye := d.toNat }
  | 0x14 => { s with cx := d.toNat }
  | 0x15 => { s with cy := d.toNat }
  | _ => s

/-- A whole pixel: to the memory, if the cursor is on the display. -/
def store (s : Lcd) (p : Word) : Lcd :=
  if s.cx < lcdW ∧ s.cy < lcdH then
    { s with ram := Function.update s.ram (s.cy * lcdW + s.cx) p, dirty := true, redraw := true }
  else s

/-- The cursor after a pixel. -/
def moveOn (s : Lcd) : Lcd :=
  if s.cx + 1 > s.xe then
    { s with cx := s.xs, cy := if s.cy + 1 > s.ye then s.ys else s.cy + 1 }
  else { s with cx := s.cx + 1 }

def c139Word (s : Lcd) (w : Word) : Lcd :=
  let d := w.setWidth 8
  if !bitSet w 8 then { s with cmd := some d, pixHi := none }
  else
    match s.cmd with
    | some c => { s.parameter c d with cmd := none }
    | none =>
      match s.pixHi with
      | none => { s with pixHi := some d }
      | some hi => { s.store (hi ++ d) with pixHi := none }.moveOn

def pixel (s : Lcd) (x y : Nat) : Word := s.ram (y * lcdW + x)

end Lcd

/-- `CalypsoUwireState`: the controller and the display. -/
structure Uwire where
  tdr : Word
  csr : Word
  sr1 : Word
  sr2 : Word
  sr3 : Word
  lcdEnabled : Bool
  lcd : Lcd

namespace Uwire

/-- The device as realised, with the display or without. -/
def reset (lcdEnabled : Bool) : Uwire :=
  ⟨0, 0, 0, 0, 0, lcdEnabled,
    ⟨fun _ => 0, 0, lcdW - 1, 0, lcdH - 1, 0, 0, none, none, false, false⟩⟩

/-- Bits 5 to 9 of CSR: how many bits are sent, zero standing for sixteen. -/
def nbits (v : Word) : Nat :=
  let n := ((v >>> 5) &&& 0x1F).toNat
  if n = 0 then 16 else n

/-- The word on the line: the top bits of TDR. With more than sixteen of them the shift of the
source is undefined; here it is none. -/
def lineWord (tdr v : Word) : Word :=
  (tdr >>> (16 - nbits v)) &&& BitVec.ofNat 16 (2 ^ nbits v - 1)

/-- Does this write to CSR send a word to the display? -/
def toLcd (s : Uwire) (v : Word) : Bool :=
  bitSet v 13 && (v >>> 10) &&& 3 == 0 && s.lcdEnabled

/-- A write to CSR: `START` is clear again afterwards. -/
def writeCsr (s : Uwire) (v : Word) : Uwire :=
  { s with
    csr := if bitSet v 13 then v &&& ~~~0x2000 else v
    lcd := if s.toLcd v then s.lcd.c139Word (lineWord s.tdr v) else s.lcd }

def write (s : Uwire) (offset : Nat) (v : Word) : Uwire :=
  match offset with
  | 0x00 => { s with tdr := v }
  | 0x02 => s.writeCsr v
  | 0x04 => { s with sr1 := v }
  | 0x06 => { s with sr2 := v }
  | 0x08 => { s with sr3 := v }
  | _ => s

def read (s : Uwire) (offset : Nat) : Word :=
  match offset with
  | 0x02 => s.csr &&& ~~~0x6000
  | 0x04 => s.sr1
  | 0x06 => s.sr2
  | 0x08 => s.sr3
  | _ => 0

/-! ### The controller as a machine -/

inductive Event
  | read (offset : Nat)
  | write (offset : Nat) (value : Word)
  deriving Repr, DecidableEq

/-- The word an access sends to the display, if any. -/
def sentWord (s : Uwire) : Event → Option Word
  | .write 0x02 v => if s.toLcd v then some (lineWord s.tdr v) else none
  | _ => none

def step (s : Uwire) : Event → Uwire
  | .read _ => s
  | .write offset v => s.write offset v

/-- The controller driven by the guest, showing the words that reach the display. -/
def machine : Machine Uwire Event Word := ⟨fun s e => (s.step e, (s.sentWord e).toList)⟩

theorem step_lcd (s : Uwire) (e : Event) :
    (s.step e).lcd = (s.sentWord e).toList.foldl Lcd.c139Word s.lcd := by
  cases e with
  | read offset => rfl
  | write offset v =>
    by_cases hcsr : offset = 0x02
    · subst hcsr
      show (if s.toLcd v then s.lcd.c139Word (lineWord s.tdr v) else s.lcd)
        = (if s.toLcd v then some (lineWord s.tdr v) else none).toList.foldl _ _
      split <;> rfl
    · -- no other register starts a transfer
      have hnone : s.sentWord (.write offset v) = none := by
        unfold sentWord
        split
        · rename_i hwrite
          cases hwrite
          exact absurd rfl hcsr
        · rfl
      rw [hnone]
      show (s.write offset v).lcd = s.lcd
      unfold write
      split
      · rfl
      · exact absurd rfl hcsr
      · rfl
      · rfl
      · rfl
      · rfl

/-- The display sees the words alone. -/
theorem final_lcd (s : Uwire) (es : List Event) :
    (machine.final s es).lcd = (machine.trace s es).foldl Lcd.c139Word s.lcd := by
  induction es generalizing s with
  | nil => rfl
  | cons e es ih =>
    rw [Machine.final_cons, Machine.trace_cons, foldl_append, ih]
    show _ = (machine.trace (s.step e) es).foldl _ ((s.sentWord e).toList.foldl _ _)
    rw [← step_lcd]
    rfl

end Uwire

/-! ### A window -/

structure Window where
  xs : Nat
  xe : Nat
  ys : Nat
  ye : Nat
  columns : xs ≤ xe
  width : xe < lcdW
  rows : ys ≤ ye
  height : ye < lcdH

namespace Window

variable (win : Window)

/-- Its columns and rows. -/
def w : Nat := win.xe - win.xs + 1
def h : Nat := win.ye - win.ys + 1

def Inside (x y : Nat) : Prop := (win.xs ≤ x ∧ x ≤ win.xe) ∧ (win.ys ≤ y ∧ y ≤ win.ye)

/-- Where the `i`-th pixel goes in the memory. -/
def address (i : Nat) : Nat := Raster.cell lcdW (win.xs + i % win.w) (win.ys + i / win.w)

theorem w_pos : 0 < win.w := Nat.succ_pos _

theorem h_pos : 0 < win.h := Nat.succ_pos _

variable {win}

theorem col_lt (i : Nat) : win.xs + i % win.w < lcdW := by
  have hlt := Nat.mod_lt i win.w_pos
  have := win.width
  have := win.columns
  simp only [w] at hlt ⊢
  omega

theorem row_lt {i : Nat} (hi : i < win.w * win.h) : win.ys + i / win.w < lcdH := by
  have hlt : i / win.w < win.h := Nat.div_lt_of_lt_mul hi
  have := win.height
  have := win.rows
  simp only [h] at hlt
  omega

/-- Different pixels go to different places. -/
theorem address_ne {i j : Nat} (hij : i ≠ j) : win.address i ≠ win.address j := by
  intro heq
  obtain ⟨hcol, hrow⟩ := Raster.cell_inj (col_lt i) (col_lt j) heq
  have hmod : i % win.w = j % win.w := by omega
  have hdiv : i / win.w = j / win.w := by omega
  exact hij (by rw [← Nat.mod_add_div i win.w, hmod, hdiv, Nat.mod_add_div])

/-- A pixel outside the window is at none of these places. -/
theorem address_ne_outside {i x y : Nat} (hi : i < win.w * win.h) (hx : x < lcdW)
    (hout : ¬ win.Inside x y) : Raster.cell lcdW x y ≠ win.address i := by
  intro heq
  obtain ⟨rfl, rfl⟩ := Raster.cell_inj hx (col_lt i) heq
  have hcol := Nat.mod_lt i win.w_pos
  have hrow : i / win.w < win.h := Nat.div_lt_of_lt_mul hi
  have := win.columns
  have := win.rows
  refine hout ⟨⟨Nat.le_add_right _ _, ?_⟩, ⟨Nat.le_add_right _ _, ?_⟩⟩
  · simp only [w] at hcol ⊢
    omega
  · simp only [h] at hrow
    omega

end Window

namespace Lcd

variable {s : Lcd} {win : Window}

/-- The display has this window and waits for a pixel. -/
structure Waiting (s : Lcd) (win : Window) : Prop where
  xs : s.xs = win.xs
  xe : s.xe = win.xe
  ys : s.ys = win.ys
  ye : s.ye = win.ye
  cmd : s.cmd = none
  pixHi : s.pixHi = none

/-- The cursor is where the `i`-th pixel goes. -/
structure At (s : Lcd) (win : Window) (i : Nat) : Prop extends s.Waiting win where
  cursor : (s.cx, s.cy) = (win.xs + (Raster.position win.w win.h i).1,
    win.ys + (Raster.position win.w win.h i).2)

/-- The words of a pixel: its high byte, then its low byte, with bit 8 set. -/
def dataWord (b : Byte) : Word := 0x100 ||| b.setWidth 16
def pixelWords (p : Word) : List Word :=
  [dataWord (p.extractLsb' 8 8), dataWord (p.extractLsb' 0 8)]

theorem dataWord_spec (b : Byte) : bitSet (dataWord b) 8 ∧ (dataWord b).setWidth 8 = b := by
  refine ⟨?_, ?_⟩
  · simp [dataWord, bitSet]
  · rw [dataWord, setWidth_or, setWidth_setWidth_of_le _ (by decide),
      setWidth_eq]
    exact zero_or

theorem dataWord_lt (b : Byte) : (dataWord b).toNat < 2 ^ 9 := by
  rw [dataWord, toNat_or, toNat_setWidth]
  refine Nat.or_lt_two_pow (by decide) ?_
  have := b.isLt
  omega

theorem pixelWords_lt {ps : List Word} {w : Word} (hw : w ∈ ps.flatMap pixelWords) :
    w.toNat < 2 ^ 9 := by
  obtain ⟨p, -, hp⟩ := List.mem_flatMap.mp hw
  simp only [pixelWords, mem_cons, not_mem_nil, or_false] at hp
  rcases hp with rfl | rfl <;> exact dataWord_lt _

/-- Two words are a pixel, which is stored before the cursor moves on. -/
theorem pixelWords_store (h : s.Waiting win) (p : Word) :
    (pixelWords p).foldl c139Word s = (s.store p).moveOn := by
  obtain ⟨ram, xs, xe, ys, ye, cx, cy, cmd, pixHi, dirty, redraw⟩ := s
  obtain rfl : cmd = none := h.cmd
  obtain rfl : pixHi = none := h.pixHi
  obtain ⟨hhi, hhiByte⟩ := dataWord_spec (p.extractLsb' 8 8)
  obtain ⟨hlo, hloByte⟩ := dataWord_spec (p.extractLsb' 0 8)
  have hp : (p.extractLsb' 8 8 ++ p.extractLsb' 0 8 : Word) = p := by
    rw [BitVec.extractLsb'_append_extractLsb'_eq_extractLsb' (show 8 = 0 + 8 from rfl)]
    exact BitVec.extractLsb'_eq_self
  simp only [pixelWords, foldl_cons, foldl_nil, c139Word, hhi, hlo, hhiByte, hloByte, hp,
    Bool.not_true, Bool.false_eq_true, if_false]
  unfold store
  dsimp only
  split <;> rfl

/-- The cursor moves on through the window. -/
theorem moveOn_cursor (h : s.Waiting win) {a b : Nat} (hcx : s.cx = win.xs + a)
    (hcy : s.cy = win.ys + b) :
    (s.moveOn.cx, s.moveOn.cy) = (win.xs + (Raster.advance win.w win.h (a, b)).1,
      win.ys + (Raster.advance win.w win.h (a, b)).2) := by
  have hcol := win.columns
  have hrow := win.rows
  -- the code compares with the last column and row, the raster counts from the first
  unfold moveOn Raster.advance
  rw [h.xe, h.ye, hcx, hcy, h.xs, h.ys]
  by_cases hend : a + 1 < win.w
  · have hin : ¬ win.xs + a + 1 > win.xe := by
      simp only [Window.w] at hend
      omega
    rw [if_neg hin, if_pos hend]
    rfl
  · have hover : win.xs + a + 1 > win.xe := by
      simp only [Window.w] at hend
      omega
    simp only [if_pos hover, if_neg hend, Nat.add_zero]
    by_cases hlast : b + 1 < win.h
    · have hin : ¬ win.ys + b + 1 > win.ye := by
        simp only [Window.h] at hlast
        omega
      rw [if_neg hin, if_pos hlast, Nat.add_assoc]
    · have hover : win.ys + b + 1 > win.ye := by
        simp only [Window.h] at hlast
        omega
      rw [if_pos hover, if_neg hlast, Nat.add_zero]

theorem moveOn_waiting (h : s.Waiting win) : s.moveOn.Waiting win := by
  unfold moveOn
  split <;> exact ⟨h.xs, h.xe, h.ys, h.ye, h.cmd, h.pixHi⟩

@[simp] theorem moveOn_ram (s : Lcd) : s.moveOn.ram = s.ram := by
  unfold moveOn
  split <;> rfl

/-- **One pixel** of the window: it is stored at its place, and the cursor is at the next. -/
theorem At.pixel {i : Nat} (h : s.At win i) (hi : i < win.w * win.h) (p : Word) :
    ((pixelWords p).foldl c139Word s).At win (i + 1) ∧
      Stored (· ≠ ·) (win.address i) p s.ram ((pixelWords p).foldl c139Word s).ram := by
  have hcursor := h.cursor
  rw [Raster.position_of_lt hi, Prod.mk.injEq] at hcursor
  obtain ⟨hcx, hcy⟩ := hcursor
  have hcol : s.cx < lcdW := hcx ▸ Window.col_lt i
  have hrow : s.cy < lcdH := hcy ▸ Window.row_lt hi
  have hstore : s.store p = { s with
      ram := Function.update s.ram (win.address i) p
      dirty := true
      redraw := true } := by
    rw [store, if_pos ⟨hcol, hrow⟩, hcx, hcy]
    rfl
  have hwaiting : (s.store p).Waiting win := by
    rw [hstore]
    exact ⟨h.xs, h.xe, h.ys, h.ye, h.cmd, h.pixHi⟩
  rw [pixelWords_store h.toWaiting, moveOn_ram]
  refine ⟨⟨moveOn_waiting hwaiting, ?_⟩, ?_⟩
  · rw [← Raster.advance_position win.w_pos win.h_pos, Raster.position_of_lt hi]
    exact moveOn_cursor hwaiting (by rw [hstore]; exact hcx) (by rw [hstore]; exact hcy)
  · rw [hstore]
    refine ⟨Function.update_self _ _ _, fun a ha => Function.update_of_ne ha _ _⟩

/-- **The pixels so far**, from the first corner. -/
theorem At.pixels (h : s.At win 0) {ps : List Word} (hlen : ps.length ≤ win.w * win.h) :
    ((ps.flatMap pixelWords).foldl c139Word s).At win ps.length ∧
      Filled (· ≠ ·) win.address (fun i => ps.getD i 0) s.ram
        ((ps.flatMap pixelWords).foldl c139Word s).ram ps.length := by
  -- on the last pixel: the ones before it have brought the cursor to its place
  induction ps using List.reverseRecOn with
  | nil => exact ⟨h, Filled.zero⟩
  | append_singleton ps p ih =>
    rw [length_append, length_singleton] at hlen ⊢
    obtain ⟨hat, hfilled⟩ := ih (by omega)
    obtain ⟨hnext, hstored⟩ := hat.pixel (by omega) p
    rw [flatMap_append, flatMap_singleton, foldl_append]
    refine ⟨hnext, (hfilled.congr fun j hj => ?_).succ ?_ fun j hj => Window.address_ne hj.ne⟩
    · rw [getD_append _ _ _ _ hj]
    · rw [getD_append_right _ _ _ _ le_rfl, Nat.sub_self]
      exact hstored

/-- The display has this window, its cursor in the first corner, and waits for a pixel. -/
structure Ready (s : Lcd) (win : Window) : Prop extends s.Waiting win where
  cx : s.cx = win.xs
  cy : s.cy = win.ys

theorem Ready.at_zero (h : s.Ready win) : s.At win 0 := by
  refine ⟨h.toWaiting, ?_⟩
  rw [h.cx, h.cy]
  simp [Raster.position]

theorem At.ready (h : s.At win (win.w * win.h)) : s.Ready win := by
  have hcursor := h.cursor
  rw [Raster.position_full win.w_pos, Prod.mk.injEq] at hcursor
  exact ⟨h.toWaiting, hcursor.1, hcursor.2⟩

/-- A command and its parameter. -/
def commandWords (c : Byte) (d : Nat) : List Word := [c.setWidth 16, dataWord (BitVec.ofNat 8 d)]

theorem commandWords_parameter (s : Lcd) (c : Byte) (d : Nat) :
    (commandWords c d).foldl c139Word s
      = { { s with cmd := some c, pixHi := none }.parameter c (BitVec.ofNat 8 d) with
          cmd := none } := by
  obtain ⟨hbit, hbyte⟩ := dataWord_spec (BitVec.ofNat 8 d)
  have hcommand : bitSet (c.setWidth 16) 8 = false := by simp [bitSet]
  have hc : (c.setWidth 16).setWidth 8 = c := by
    rw [setWidth_setWidth_of_le _ (by decide), setWidth_eq]
  simp only [commandWords, foldl_cons, foldl_nil, c139Word, hcommand, hbit, hbyte, hc,
    Bool.not_false, Bool.not_true, Bool.false_eq_true, if_true, if_false]

/-- The words that set up a window and its cursor. -/
def windowWords (win : Window) : List Word :=
  commandWords 0x10 win.xs ++ commandWords 0x11 win.ys ++ commandWords 0x12 win.xe
    ++ commandWords 0x13 win.ye ++ commandWords 0x14 win.xs ++ commandWords 0x15 win.ys

theorem windowWords_lt {w : Word} (hw : w ∈ windowWords win) : w.toNat < 2 ^ 9 := by
  have hcommand : ∀ (c : Byte) (d : Nat), w ∈ commandWords c d → w.toNat < 2 ^ 9 := by
    intro c d hmem
    simp only [commandWords, mem_cons, not_mem_nil, or_false] at hmem
    rcases hmem with rfl | rfl
    · have := c.isLt
      rw [toNat_setWidth]
      omega
    · exact dataWord_lt _
  simp only [windowWords, mem_append] at hw
  rcases hw with ((((h | h) | h) | h) | h) | h <;> exact hcommand _ _ h

/-- Whatever it was doing, the display is ready after these words. -/
theorem windowWords_ready (s : Lcd) (win : Window) :
    ((windowWords win).foldl c139Word s).Ready win := by
  have hbyte : ∀ n, n < lcdW → (BitVec.ofNat 8 n).toNat = n := by
    intro n hn
    rw [toNat_ofNat]
    exact Nat.mod_eq_of_lt (hn.trans (by decide))
  have hxe := hbyte win.xe win.width
  have hxs := hbyte win.xs (win.columns.trans_lt win.width)
  have hye := hbyte win.ye (win.height.trans (by decide))
  have hys := hbyte win.ys (win.rows.trans_lt (win.height.trans (by decide)))
  simp only [windowWords, foldl_append, commandWords_parameter]
  exact ⟨⟨hxs, hxe, hys, hye, rfl, rfl⟩, hxs, hys⟩

end Lcd

namespace Uwire

/-! ### Transfers -/

/-- A nine-bit word as it is sent: left-aligned in TDR, then nine bits started on chip
select 0. -/
def transfer (w : Word) : List Event := [.write 0x00 (w <<< 7), .write 0x02 0x2120]

theorem lineWord_transfer {w : Word} (hw : w.toNat < 2 ^ 9) : lineWord (w <<< 7) 0x2120 = w := by
  have hnine : nbits 0x2120 = 9 := by decide
  rw [lineWord, hnine]
  apply eq_of_toNat_eq
  rw [toNat_and, toNat_ushiftRight, toNat_shiftLeft, toNat_ofNat,
    Nat.mod_eq_of_lt (by decide : 2 ^ 9 - 1 < 2 ^ 16), Nat.and_two_pow_sub_one_eq_mod,
    Nat.shiftLeft_eq, Nat.shiftRight_eq_div_pow]
  omega

theorem final_lcdEnabled (s : Uwire) (es : List Event) :
    (machine.final s es).lcdEnabled = s.lcdEnabled := by
  have hstep : ∀ (t : Uwire) e, t.lcdEnabled = s.lcdEnabled → True →
      (t.step e).lcdEnabled = s.lcdEnabled := by
    intro t e ht _
    cases e with
    | read offset => exact ht
    | write offset v =>
      show (t.write offset v).lcdEnabled = _
      unfold write
      split <;> exact ht
  exact Machine.invariant (M := machine) (I := fun t => t.lcdEnabled = s.lcdEnabled) hstep rfl
    (Machine.along_true s es)

theorem transfer_trace {s : Uwire} (hlcd : s.lcdEnabled) {w : Word} (hw : w.toNat < 2 ^ 9) :
    machine.trace s (transfer w) = [w] := by
  have hto : toLcd { s with tdr := w <<< 7 } 0x2120 = true := by
    simp [toLcd, hlcd, bitSet]
  show [] ++ ((if toLcd { s with tdr := w <<< 7 } 0x2120 then
    some (lineWord (w <<< 7) 0x2120) else none).toList ++ []) = [w]
  rw [hto, lineWord_transfer hw]
  rfl

/-- Words of nine bits reach the display one by one. -/
theorem transfers_trace {s : Uwire} (hlcd : s.lcdEnabled) {ws : List Word}
    (hws : ∀ w ∈ ws, w.toNat < 2 ^ 9) : machine.trace s (ws.flatMap transfer) = ws := by
  induction ws generalizing s with
  | nil => rfl
  | cons w ws ih =>
    have hone := transfer_trace hlcd (hws w mem_cons_self)
    have hnext := (final_lcdEnabled s (transfer w)).trans hlcd
    rw [flatMap_cons, Machine.trace_append, hone,
      ih hnext fun w' hw' => hws w' (mem_cons_of_mem w hw')]
    rfl

/-- **A window is painted.** From a display that has its cursor in the first corner of a window and
waits for a pixel, let the guest send as many pixels as the window has, by whatever accesses. Then
the `i`-th pixel is at column `xs + i mod w` of row `ys + i div w`, no other pixel has changed, and
the cursor is back in the corner. -/
theorem window_painted {s : Uwire} {win : Window} (hready : s.lcd.Ready win) (ps : List Word)
    (hlen : ps.length = win.w * win.h) (es : List Event)
    (hsent : machine.trace s es = ps.flatMap Lcd.pixelWords) :
    let t := (machine.final s es).lcd
    (∀ i (hi : i < ps.length),
        t.pixel (win.xs + i % win.w) (win.ys + i / win.w) = ps.get ⟨i, hi⟩) ∧
      (∀ x y, x < lcdW → y < lcdH → ¬ win.Inside x y → t.pixel x y = s.lcd.pixel x y) ∧
      t.Ready win := by
  intro t
  have ht : t = (ps.flatMap Lcd.pixelWords).foldl Lcd.c139Word s.lcd := by
    rw [← hsent]
    exact final_lcd s es
  -- the controller is out of the way: what is left is about the display and its words
  obtain ⟨hat, hfilled⟩ := hready.at_zero.pixels hlen.le
  rw [← ht] at hat hfilled
  refine ⟨fun i hi => ?_, fun x y hx _ hout => ?_, ?_⟩
  · have hword := hfilled.word i hi
    rw [getD_eq_getElem _ _ hi] at hword
    exact hword
  · refine hfilled.rest _ fun i hi => ?_
    rw [hlen] at hi
    exact Window.address_ne_outside hi hx hout
  · rw [hlen] at hat
    exact hat.ready

def corner : Window := ⟨94, 95, 62, 63, by decide, by decide, by decide, by decide⟩

/-- The device after the commands for it. -/
def atCorner : Uwire := machine.final (reset true) ((Lcd.windowWords corner).flatMap transfer)

theorem atCorner_ready : atCorner.lcd.Ready corner := by
  rw [atCorner, final_lcd, transfers_trace rfl fun _ => Lcd.windowWords_lt]
  exact Lcd.windowWords_ready _ _

theorem atCorner_lcdEnabled : atCorner.lcdEnabled := final_lcdEnabled (reset true) _

/-- Painted with four pixels: the third one starts the second row. -/
theorem window_painted_corner :
    (machine.final atCorner (([1, 2, 3, 4].flatMap Lcd.pixelWords).flatMap transfer)).lcd.pixel 94 63
      = 3 := by
  have hsent : machine.trace atCorner (([1, 2, 3, 4].flatMap Lcd.pixelWords).flatMap transfer)
      = [1, 2, 3, 4].flatMap Lcd.pixelWords :=
    transfers_trace atCorner_lcdEnabled fun _ => Lcd.pixelWords_lt
  have hpixel := (window_painted atCorner_ready [1, 2, 3, 4] rfl _ hsent).1 2 (by decide)
  have hplace : corner.xs + 2 % corner.w = 94 ∧ corner.ys + 2 / corner.w = 63 := by decide
  rw [hplace.1, hplace.2] at hpixel
  exact hpixel

end Uwire

end Qosmo
