import Qosmo.Lib.Run
import Qosmo.Sim.Files

/-!
# Qosmo.Sim.Card

The card behind the SIM interface: its commands (`calypso_sim.c`, `cmd_*`, `dispatch_apdu`).

A command changes the card and pushes the bytes of its answer; here it returns both. The
contents of a file are a function from offsets to bytes: the 64 bytes of `data` for a
transparent file, the lazily allocated buffer of `rec_store` for a record file.

`comp128v1` (`calypso_comp128.c`) is a parameter of the configuration, and so is what
`load_config_from_file` found: the IMSI, the Ki and the number of the SMS centre.
-/

namespace Qosmo.Sim

/-! ### Configuration -/

/-- What the configuration file sets, and the authentication algorithm. -/
structure Config where
  /-- Contents of EF_IMSI. -/
  imsi : Option (Fin 9 → Byte)
  ki : Option (List Byte)
  /-- `g_sim_smsc`. -/
  smsc : List Char
  /-- SRES and Kc, from Ki and RAND. -/
  comp128v1 : List Byte → List Byte → Fin 12 → Byte

/-- No configuration file: the bench's own SMS centre, no Ki. -/
def Config.bench : Config where
  imsi := none
  ki := none
  smsc := ['+', '3', '3', '6', '6', '6', '1', '2', '3', '4', '0', '0', '0', '1']
  comp128v1 := fun _ _ _ => 0

/-- `bcd` of `smsp_remplir`: two digits a byte, the first in the low nibble, F behind. -/
def bcd : List Byte → List Byte
  | [] => []
  | [v] => [0xF0 ||| v]
  | v :: w :: vs => (((0xF0 ||| v) &&& 0x0F) ||| (w <<< 4)) :: bcd vs

/-- The digits `smsp_remplir` takes from the number, at most 20. -/
def smscDigits (smsc : List Char) : List Byte :=
  ((smsc.filter Char.isDigit).take 20).map fun d => BitVec.ofNat 8 (d.toNat - 48)

/-- `smsp_remplir`, on a record already FF. -/
def smspRemplir (smsc : List Char) (k : Nat) : Byte :=
  let digits := smscDigits smsc
  let n := digits.length
  if n = 0 then 0xFF
  else if k = 0 then 0xE1
  else if k = 13 then BitVec.ofNat 8 (1 + (n + 1) / 2)
  else if k = 14 then (if smsc.head? = some '+' then 0x91 else 0x81)
  else if 15 ≤ k ∧ k < 15 + (n + 1) / 2 then (bcd digits).getD (k - 15) 0xFF
  else if k = 25 ∨ k = 26 then 0x00
  else if k = 27 then 0xA7
  else 0xFF

/-- The contents `rec_store` gives a record file: free records, an SMS record starting with
its status byte, the call counter at zero, the SMS centre. -/
def recInit (smsc : List Char) (f : SimFile) (k : Nat) : Byte :=
  if f.fid = 0x6F42 ∧ f.recLen = 28 then smspRemplir smsc k
  else if f.fid = 0x6F39 then 0x00
  else if f.fid = 0x6F3C ∧ k % f.recLen = 0 ∧ k / f.recLen < f.nrec then 0x00
  else 0xFF

/-! ### The card -/

structure Card where
  cfg : Config
  selectedDf : Word
  selectedEf : Word
  /-- `resp_buf[0 .. resp_len)`. -/
  resp : List Byte
  /-- `sim_files[i].data`. -/
  data : Nat → Nat → Byte
  /-- `store[i]` of `rec_store`. -/
  store : Nat → Option (Nat → Byte)
  /-- `rec_ef` and `rec_cur` of `cmd_read_record`. -/
  recEf : Word
  recCur : Nat

namespace Card

def initData (cfg : Config) (i k : Nat) : Byte :=
  match simFiles[i]? with
  | some f =>
    if f.fid = 0x6F07 then
      match cfg.imsi with
      | some imsi => if h : k < 9 then imsi ⟨k, h⟩ else f.data.getD k 0
      | none => f.data.getD k 0
    else f.data.getD k 0
  | none => 0

def init (cfg : Config) : Card where
  cfg := cfg
  selectedDf := 0x3F00
  selectedEf := 0x3F00
  resp := []
  data := initData cfg
  store := fun _ => none
  recEf := 0
  recCur := 0

def bytesAt (m : Nat → Byte) (off n : Nat) : List Byte := (List.range n).map fun k => m (off + k)

/-- `memcpy(m + off, bs, …)`. -/
def overwrite (m : Nat → Byte) (off : Nat) (bs : List Byte) (k : Nat) : Byte :=
  if off ≤ k ∧ k < off + bs.length then bs.getD (k - off) 0 else m k

/-- The contents of file `i` become `m`: a transparent file, a record file. -/
def setData (c : Card) (i : Nat) (m : Nat → Byte) : Card :=
  { c with data := Function.update c.data i m }
def setStore (c : Card) (i : Nat) (m : Nat → Byte) : Card :=
  { c with store := Function.update c.store i (some m) }

def selected (c : Card) : Option Entry := findFile c.selectedEf 0

/-- Does `rec_store` give this file a buffer? -/
def hasStore (f : SimFile) : Bool := !(f.recLen == 0 || decide (1024 < f.size))

def records (c : Card) (e : Entry) : Nat → Byte := (c.store e.2).getD (recInit c.cfg.smsc e.1)

/-- `rec_store`: the buffer is allocated on the first access. -/
def recStore (c : Card) (e : Entry) : Card :=
  if hasStore e.1 then c.setStore e.2 (c.records e) else c

def buildSelectResponse (f : SimFile) : List Byte :=
  [0x00, 0x00, BitVec.ofNat 8 (f.size / 256), BitVec.ofNat 8 f.size,
    f.fid.extractLsb' 8 8, f.fid.extractLsb' 0 8] ++
  if f.kind = .df ∨ f.kind = .mf then
    [if f.kind = .mf then 0x01 else 0x02, 0x00, 0x00, 0x00, 0x00, 0x00, 0x00,
      0x91, 0x02, 0x09, 0x04, 0x00, 0x83, 0x8A, 0x83, 0x8A, 0x00, 0x00, 0x00]
  else
    [0x04, 0x00, 0x00, 0x00, 0x00, 0xAB, 0x02,
      if f.kind = .transparent then 0x00 else if f.kind = .linearFixed then 0x01 else 0x03,
      BitVec.ofNat 8 f.recLen]

/-- `respond_with_data_pending`: the data wait for GET RESPONSE. -/
def respondWithDataPending (c : Card) (data : List Byte) : Card × List Byte :=
  ({ c with resp := data.take 64 }, [0x9F, BitVec.ofNat 8 (data.take 64).length])

/-- Where `cmd_select` looks for a file, and the directory it leaves selected. -/
def lookup (c : Card) (fid : Word) : Option Entry × Word :=
  if fid = 0x3F00 then (findFile 0x3F00 0, 0x3F00)
  else if fid &&& 0xFF00 = 0x7F00 then
    (findFile fid 0, if (findFile fid 0).isSome then fid else c.selectedDf)
  else if fid &&& 0xFF00 = 0x2F00 then (findFile fid 0x3F00, c.selectedDf)
  else (findFile fid c.selectedDf <|> findFile fid 0, c.selectedDf)

def cmdSelect (c : Card) (lc : Byte) (data : List Byte) : Card × List Byte :=
  if lc ≠ 2 then (c, [0x67, 0x00])
  else
    let fid : Word := data.getD 0 0 ++ data.getD 1 0
    let c' := { c with selectedDf := (c.lookup fid).2 }
    match (c.lookup fid).1 with
    | none => (c', [0x6A, 0x82])
    | some e =>
      { c' with selectedEf := e.1.fid }.respondWithDataPending (buildSelectResponse e.1)

def cmdGetResponse (c : Card) (le : Byte) : Card × List Byte :=
  if c.resp = [] then (c, [0x6F, 0x00])
  else
    let n := if le = 0 then c.resp.length else min le.toNat c.resp.length
    ({ c with resp := [] }, c.resp.take n ++ [0x90, 0x00])

/-- The record a mode designates: next, previous or absolute. -/
def designated (cur nrec : Nat) (rec mode : Byte) : Option Nat :=
  if mode = 0x02 then some (BitVec.ofNat 8 (cur + 1)).toNat
  else if mode = 0x03 then some (BitVec.ofNat 8 (if 0 < cur then cur - 1 else nrec)).toNat
  else if mode = 0x04 then some rec.toNat
  else none

/-- The current record: none yet in a file other than the last one read. -/
def current (c : Card) : Nat := if c.recEf ≠ c.selectedEf then 0 else c.recCur

def cmdReadRecord (c : Card) (rec mode le : Byte) : Card × List Byte :=
  match c.selected with
  | none => (c, [0x94, 0x00])
  | some e =>
    if !e.1.isRecord then (c, [0x94, 0x00])
    else
      let c' := { c with recEf := c.selectedEf, recCur := c.current }
      match designated c.current e.1.nrec rec mode with
      | none => (c', [0x6B, 0x00])
      | some r =>
        if r < 1 ∨ e.1.nrec < r then (c', [0x94, 0x02])
        else
          let n := min (if le = 0 then e.1.recLen else le.toNat) e.1.recLen
          let buf :=
            if hasStore e.1 then bytesAt (c.records e) ((r - 1) * e.1.recLen) n
            else List.replicate n 0xFF
          ({ c' with recCur := r }.recStore e, buf ++ [0x90, 0x00])

def offset (p1 p2 : Byte) : Nat := (p1 ++ p2).toNat

def cmdReadBinary (c : Card) (p1 p2 le : Byte) : Card × List Byte :=
  match c.selected with
  | none => (c, [0x94, 0x00])
  | some e =>
    if e.1.kind ≠ .transparent then (c, [0x94, 0x00])
    else
      let n := if le = 0 then 256 else le.toNat
      if e.1.size < offset p1 p2 + n then (c, [0x67, 0x00])
      else (c, bytesAt (c.data e.2) (offset p1 p2) n ++ [0x90, 0x00])

def cmdUpdateBinary (c : Card) (p1 p2 lc : Byte) (data : List Byte) : Card × List Byte :=
  match c.selected with
  | none => (c, [0x94, 0x08])
  | some e =>
    if e.1.kind ≠ .transparent then (c, [0x94, 0x08])
    else if e.1.size < offset p1 p2 + lc.toNat then (c, [0x67, 0x00])
    else
      let m := overwrite (c.data e.2) (offset p1 p2) (data.take lc.toNat)
      (if offset p1 p2 + lc.toNat ≤ 64 then c.setData e.2 m else c, [0x90, 0x00])

/-- `cmd_update_record`. Only the absolute mode stores anything. -/
def cmdUpdateRecord (c : Card) (rec mode lc : Byte) (data : List Byte) : Card × List Byte :=
  match c.selected with
  | none => (c, [0x94, 0x08])
  | some e =>
    if !e.1.isRecord then (c, [0x94, 0x08])
    else if lc.toNat ≠ e.1.recLen then (c, [0x67, 0x00])
    else if mode = 0x04 ∧ (rec.toNat < 1 ∨ e.1.nrec < rec.toNat) then (c, [0x94, 0x02])
    else if mode = 0x04 then
      let m := overwrite (c.records e) ((rec.toNat - 1) * e.1.recLen) (data.take lc.toNat)
      (if hasStore e.1 then c.setStore e.2 m else c, [0x90, 0x00])
    else (c, [0x90, 0x00])

def cmdStatus (c : Card) (le : Byte) : Card × List Byte :=
  match findFile c.selectedDf 0 with
  | none => (c, [0x6F, 0x00])
  | some e =>
    let resp := buildSelectResponse e.1
    let n := if le = 0 ∨ resp.length < le.toNat then resp.length else le.toNat
    (c, resp.take n ++ [0x90, 0x00])

def cmdRunGsmAlgo (c : Card) (lc : Byte) (data : List Byte) : Card × List Byte :=
  if lc ≠ 16 then (c, [0x67, 0x00])
  else
    let resp := match c.cfg.ki with
      | some ki => List.ofFn (c.cfg.comp128v1 ki data)
      | none => (bytesAt (data.getD · 0) 0 4).map (· ^^^ 0xAA) ++ List.replicate 8 0x00
    c.respondWithDataPending resp

/-- The instructions answered with their procedure byte first. -/
def returnsData (ins : Byte) : Bool :=
  ins == 0xC0 || ins == 0xB0 || ins == 0xB2 || ins == 0xF2 || ins == 0x12

/-- The `switch` of `dispatch_apdu`. -/
def execute (c : Card) (ins p1 p2 p3 : Byte) (data : List Byte) : Card × List Byte :=
  if ins = 0xA4 then c.cmdSelect p3 data
  else if ins = 0xB0 then c.cmdReadBinary p1 p2 p3
  else if ins = 0xB2 then c.cmdReadRecord p1 p2 p3
  else if ins = 0xD6 then c.cmdUpdateBinary p1 p2 p3 data
  else if ins = 0xDC then c.cmdUpdateRecord p1 p2 p3 data
  else if ins = 0xC0 then c.cmdGetResponse p3
  else if ins = 0xF2 then c.cmdStatus p3
  else if ins = 0x20 then (c, [0x90, 0x00]) -- VERIFY CHV always succeeds
  else if ins = 0x88 then c.cmdRunGsmAlgo p3 data
  else (c, [0x6D, 0x00])

/-- `dispatch_apdu`, on the bytes received. -/
def dispatchApdu (c : Card) (apdu : List Byte) : Card × List Byte :=
  let ins := apdu.getD 1 0
  let q := c.execute ins (apdu.getD 2 0) (apdu.getD 3 0) (apdu.getD 4 0) (apdu.drop 5)
  (q.1, (if returnsData ins then [ins] else []) ++ q.2)

end Card

/-! ### Commands -/

/-- `is_outgoing_data`: the instructions whose data go to the card. -/
def isOutgoingData (ins : Byte) : Bool :=
  ins == 0xA4 || ins == 0xD6 || ins == 0xDC || ins == 0x20 || ins == 0x24 || ins == 0x88

/-- A T=0 command: a header, and P3 bytes of data where the instruction sends some. -/
structure Command where
  cla : Byte
  ins : Byte
  p1 : Byte
  p2 : Byte
  p3 : Byte
  data : List Byte
  data_length : data.length = if isOutgoingData ins then p3.toNat else 0

/-- The bytes the terminal sends. -/
def Command.bytes (c : Command) : List Byte := c.cla :: c.ins :: c.p1 :: c.p2 :: c.p3 :: c.data

/-- The card as a machine: each command shows its answer. -/
def Card.machine : Machine Card Command (List Byte) :=
  ⟨fun c cmd => ((c.dispatchApdu cmd.bytes).1, [(c.dispatchApdu cmd.bytes).2])⟩

end Qosmo.Sim
