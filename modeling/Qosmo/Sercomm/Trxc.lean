import Mathlib.Data.List.DropRight
import Qosmo.Sercomm.Gate

/-!
# Qosmo.Sercomm.Trxc

The replies of the sercomm router to TRXC commands (`sercomm_gate.c`).

A command is answered from a text that `gate_trxc_handle` formats into a buffer of 512 bytes
on the stack. What it returns is the length `snprintf` reports, that of the text before it
was cut to the buffer, and `gate_send_trxc_rsp` sends that many bytes. So the model keeps the
memory from the start of the buffer on (`stack`): a text of up to 512 bytes goes out as it is
or cut, with its NUL (`payload_eq`), and the bound is one on the texts (`response_length_le`).
All verbs meet it for any command that fits a frame, but one: `MEASURE` adds more to its
arguments than its name and `CMD` take.
-/

namespace Qosmo.Sercomm

open Framing List Stuffing

/-! ### Commands and texts -/

/-- A C string: what stands before the first NUL. -/
def cString (bs : List Byte) : List Byte := bs.takeWhile (· != 0)

/-- A command without the NULs and newlines at its end. -/
def strip (cmdBuf : List Byte) : List Byte := cmdBuf.rdropWhile fun b => b == 0 || b == 0x0A

/-- The verb of a command and its arguments, as C strings. -/
structure Request where
  verb : List Byte
  args : List Byte
  deriving Repr, DecidableEq

/-- The first half of `gate_trxc_handle`: the command starts with `CMD `, and the first space
after that ends the verb. -/
def parseCmd (cmdBuf : List Byte) : Option Request :=
  let cmd := strip cmdBuf
  if cmd.length < 4 then none
  else if cmdBuf.take 4 = ascii "CMD " then
    let tmp := cString ((cmd.drop 4).take 511)
    some ⟨tmp.takeWhile (· != 0x20), (tmp.dropWhile (· != 0x20)).drop 1⟩
  else none

/-- The text `gate_trxc_handle` formats. -/
def response (r : Request) : List Byte :=
  let args := if r.args = [] then ascii "0" else r.args
  if r.verb = ascii "POWERON" then ascii "RSP POWERON 0"
  else if r.verb = ascii "POWEROFF" then ascii "RSP POWEROFF 0"
  else if r.verb = ascii "SETFORMAT" then ascii "RSP SETFORMAT 0 " ++ args
  else if r.verb = ascii "NOMTXPOWER" then ascii "RSP NOMTXPOWER 0 50"
  else if r.verb = ascii "MEASURE" then ascii "RSP MEASURE 0 " ++ args ++ ascii " -60"
  else if r.args = [] then ascii "RSP " ++ r.verb ++ ascii " 0"
  else ascii "RSP " ++ r.verb ++ ascii " 0 " ++ r.args

/-! ### The reply -/

/-- `snprintf` of a text into a buffer of `size` bytes: the text, cut to leave room for its
NUL. The memory behind stays as it was. -/
def snprintf (stack : Nat → Byte) (size : Nat) (text : List Byte) : Nat → Byte := fun i =>
  if i < min text.length (size - 1) then text.getD i 0
  else if i = min text.length (size - 1) then 0
  else stack i

/-- `gate_trxc_handle`: the length it returns and the memory from `rsp` on. -/
def gateTrxcHandle (cmdBuf : List Byte) (stack : Nat → Byte) (rspSize : Nat) :
    Nat × (Nat → Byte) :=
  match parseCmd cmdBuf with
  | none => (0, stack)
  | some r =>
    let rl := (response r).length
    let rsp := snprintf stack rspSize (response r)
    if 0 < rl ∧ rl < rspSize then (rl + 1, Function.update rsp rl 0) else (rl, rsp)

def rspByte (c : Byte) : List Byte :=
  if c = flag ∨ c = escape then [escape, c ^^^ escapeXor] else [c]

/-- `gate_send_trxc_rsp`: the frame written to the backend. The loop stops when `frame` has no
room for an escaped byte and the flag. -/
def gateSendTrxcRsp (payload : Nat → Byte) (plen : Nat) : List Byte :=
  ((List.range plen).map payload).foldl
      (fun frame c => if frame.length + 2 < 1024 then frame ++ rspByte c else frame)
      (flag :: [dlciTrxc, ctrl].flatMap rspByte)
    ++ [flag]

def rspSize : Nat := 512

/-- The frames a TRXC command is answered with: one, or none if it is not a command. -/
def trxcReply (stack : Nat → Byte) (cmdBuf : List Byte) : List (List Byte) :=
  let t := gateTrxcHandle cmdBuf stack rspSize
  if 0 < t.1 then [gateSendTrxcRsp t.2 t.1] else []

/-- What an action of the gate writes to the backend. -/
def Action.replies (stack : Nat → Byte) : Action → List (List Byte)
  | .trxc payload => trxcReply stack payload
  | .raw _ | .push _ => []

/-- The gate, byte by byte, showing the frames it writes to the backend. With each byte comes
what the stack holds at that moment. -/
def backend : Machine (Receiver Byte) (Byte × (Nat → Byte)) (List Byte) :=
  ⟨fun r e => ((gateStep r e.1).1, (gateStep r e.1).2.flatMap (Action.replies e.2))⟩

/-! ### How long a text can be -/

variable {r : Request} {cmdBuf : List Byte}

/-- The verb and the arguments come from the command, and so does the space between them. -/
theorem parseCmd_length (h : parseCmd cmdBuf = some r) :
    r.verb.length + 4 ≤ cmdBuf.length ∧
      (r.args ≠ [] → r.verb.length + 1 + r.args.length + 4 ≤ cmdBuf.length) := by
  unfold parseCmd at h
  dsimp only at h
  split at h
  · cases h
  rename_i hlong
  split at h
  · have hstripped : (strip cmdBuf).length ≤ _ := ( rdropWhile_prefix _ cmdBuf).length_le
    have hstring : (cString (((strip cmdBuf).drop 4).take 511)).length ≤ _ :=
      ( takeWhile_prefix _).length_le
    rw [length_take, length_drop] at hstring
    generalize cString _ = tmp at h hstring
    cases h
    have hsplit : (tmp.takeWhile (· != 0x20)).length + (tmp.dropWhile (· != 0x20)).length
        = tmp.length := by
      rw [← length_append, takeWhile_append_dropWhile]
    refine ⟨by dsimp only; omega, fun hargs => ?_⟩
    have hsome := length_pos_of_ne_nil hargs
    simp only [length_drop] at hsome ⊢
    omega
  · cases h

/-- The commands whose text does not fit: `MEASURE` with 495 bytes of arguments or more. -/
def Oversized (cmdBuf : List Byte) : Prop :=
  ∃ r ∈ parseCmd cmdBuf, r.verb = ascii "MEASURE" ∧ 495 ≤ r.args.length

instance (cmdBuf : List Byte) : Decidable (Oversized cmdBuf) :=
  inferInstanceAs
    (Decidable (∃ r ∈ parseCmd cmdBuf, r.verb = ascii "MEASURE" ∧ 495 ≤ r.args.length))

theorem response_length_pos (r : Request) : 0 < (response r).length := by
  unfold response
  dsimp only
  split_ifs <;> simp [ascii]

/-- **The bound.** Of the commands that fit a frame, all but the oversized ones have a text
that fits the buffer, its NUL apart. -/
theorem response_length_le (h : parseCmd cmdBuf = some r)
    (hlen : cmdBuf.length + 2 ≤ gateBufSize) (hfits : ¬ Oversized cmdBuf) :
    (response r).length ≤ rspSize := by
  obtain ⟨hverb, hargs⟩ := parseCmd_length h
  have hmeasure : r.verb = ascii "MEASURE" → r.args.length < 495 := fun hv =>
    Nat.lt_of_not_le fun hlong => hfits ⟨r, h, hv, hlong⟩
  have hsize : gateBufSize = 512 := rfl
  unfold response rspSize
  dsimp only
  generalize hdefault : (if r.args = [] then ascii "0" else r.args) = args
  have hlength : args.length = 1 ∨
      args.length = r.args.length ∧ r.verb.length + 1 + r.args.length + 4 ≤ cmdBuf.length := by
    rw [← hdefault]
    split
    · exact .inl rfl
    · rename_i hsome
      exact .inr ⟨rfl, hargs hsome⟩
  split_ifs with hon hoff hformat hpower hmeas hnone
  · decide
  · decide
  · have hname : r.verb.length = 9 := congrArg List.length hformat
    have htext : (ascii "RSP SETFORMAT 0 ").length = 16 := rfl
    rw [length_append, htext]
    omega
  · decide
  · have hshort := hmeasure hmeas
    have htext : (ascii "RSP MEASURE 0 ").length = 14 ∧ (ascii " -60").length = 4 := ⟨rfl, rfl⟩
    rw [length_append, length_append, htext.1, htext.2]
    omega
  · have htext : (ascii "RSP ").length = 4 ∧ (ascii " 0").length = 2 := ⟨rfl, rfl⟩
    rw [length_append, length_append, htext.1, htext.2]
    omega
  · have htext : (ascii "RSP ").length = 4 ∧ (ascii " 0 ").length = 3 := ⟨rfl, rfl⟩
    have hboth := hargs hnone
    rw [length_append, length_append, length_append, htext.1, htext.2]
    omega

/-! ### What is sent -/

/-- The memory a text is sent from, up to its NUL. -/
theorem snprintf_bytes (stack : Nat → Byte) (size : Nat) (text : List Byte) :
    (List.range (min text.length (size - 1) + 1)).map (snprintf stack size text)
      = text.take (size - 1) ++ [0] := by
  rw [range_succ, map_append]
  congr 1
  · refine ext_getElem (by simp [Nat.min_comm]) fun i hi hi' => ?_
    have hin : i < min text.length (size - 1) := by simpa using hi
    have hbound : i < text.length := (lt_min_iff.mp hin).1
    simp [snprintf, (lt_min_iff.mp hin).2, hbound]
  · simp [snprintf]

/-- **The payload.** A text of at most 512 bytes is sent as it is, or cut, with its NUL. -/
theorem payload_eq (h : parseCmd cmdBuf = some r)
    (hlen : (response r).length ≤ rspSize) (stack : Nat → Byte) :
    (List.range (gateTrxcHandle cmdBuf stack rspSize).1).map
        (gateTrxcHandle cmdBuf stack rspSize).2
      = (response r).take (rspSize - 1) ++ [0] := by
  have hpos := response_length_pos r
  have hsize : rspSize = 512 := rfl
  rw [← snprintf_bytes stack]
  simp only [gateTrxcHandle, h]
  split
  · -- the NUL is written a second time
    rename_i hshort
    have hmin : min (response r).length (rspSize - 1) = (response r).length := by omega
    rw [hmin]
    refine congrArg (fun f => List.map f _) ?_
    rw [Function.update_eq_self_iff]
    simp [snprintf, hmin]
  · rename_i hfull
    have hmin : min (response r).length (rspSize - 1) + 1 = (response r).length := by omega
    rw [hmin]

/-- A longer text is cut, with its NUL, and what stands behind the buffer follows: as many
bytes as the text is too long. -/
theorem payload_long (h : parseCmd cmdBuf = some r)
    (hlen : rspSize < (response r).length) (stack : Nat → Byte) :
    (List.range (gateTrxcHandle cmdBuf stack rspSize).1).map
        (gateTrxcHandle cmdBuf stack rspSize).2
      = (response r).take (rspSize - 1) ++ [0]
        ++ (List.range ((response r).length - rspSize)).map fun i => stack (rspSize + i) := by
  have hsize : rspSize = 512 := rfl
  have hmin : min (response r).length (rspSize - 1) + 1 = rspSize := by omega
  have hsplit : (response r).length = rspSize + ((response r).length - rspSize) := by omega
  rw [← snprintf_bytes stack, hmin]
  simp only [gateTrxcHandle, h]
  rw [if_neg (by omega)]
  dsimp only
  -- the count goes beyond the buffer: split the bytes read at its end
  conv_lhs => rw [hsplit]
  rw [range_add, map_append, map_map]
  refine congrArg _ (map_congr_left fun i _ => ?_)
  have hbehind : ¬ rspSize + i < min (response r).length (rspSize - 1) ∧
      rspSize + i ≠ min (response r).length (rspSize - 1) := by omega
  simp only [Function.comp_apply, snprintf, if_neg hbehind.1, if_neg hbehind.2]

theorem trxcReply_of_some (h : parseCmd cmdBuf = some r) (stack : Nat → Byte) :
    trxcReply stack cmdBuf = [gateSendTrxcRsp (gateTrxcHandle cmdBuf stack rspSize).2
      (gateTrxcHandle cmdBuf stack rspSize).1] := by
  have hpos : 0 < (gateTrxcHandle cmdBuf stack rspSize).1 := by
    simp only [gateTrxcHandle, h]
    split
    · exact Nat.succ_pos _
    · exact response_length_pos r
  rw [trxcReply, if_pos hpos]

theorem rspByte_eq : rspByte = code.stuffByte := by
  funext c
  rfl

/-- The loop of `gate_send_trxc_rsp` appends bytes from the front of the payload. -/
theorem send_loop (out payload : List Byte) :
    ∃ p, p <+: payload ∧
      payload.foldl
    (fun frame c => if frame.length + 2 < 1024 then frame ++ rspByte c else frame) out
        = out ++ code.stuff p := by
  induction payload generalizing out with
  | nil => exact ⟨[], prefix_rfl, (append_nil out).symm⟩
  | cons c cs ih =>
    rw [foldl_cons]
    by_cases hroom : out.length + 2 < 1024
    · obtain ⟨p, hp, hloop⟩ := ih (out ++ rspByte c)
      refine ⟨c :: p, List.cons_prefix_cons.mpr ⟨rfl, hp⟩, ?_⟩
      rw [if_pos hroom, hloop, append_assoc, rspByte_eq, stuff_cons]
    · -- once the frame is full it stays as it is
      refine ⟨[], nil_prefix, ?_⟩
      rw [if_neg hroom, stuff_nil, append_nil]
      clear ih
      induction cs with
      | nil => rfl
      | cons d ds ih => rw [foldl_cons, if_neg hroom, ih]

/-- What is written is a wrapped TRXC frame with a beginning of the payload. -/
theorem gateSendTrxcRsp_wrap (payload : Nat → Byte) (plen : Nat) :
    ∃ p, p <+: (List.range plen).map payload ∧
      gateSendTrxcRsp payload plen = code.wrap ([dlciTrxc, ctrl] ++ p) := by
  obtain ⟨p, hp, hloop⟩ := send_loop (flag :: [dlciTrxc, ctrl].flatMap rspByte)
    ((List.range plen).map payload)
  refine ⟨p, hp, ?_⟩
  rw [gateSendTrxcRsp, hloop]
  rfl

theorem stuffByte_length_pos (c : Byte) : 0 < (code.stuffByte c).length := by
  unfold Stuffing.stuffByte
  split <;> simp

/-- While there is room, the loop appends the whole payload. -/
theorem send_loop_fits {out payload : List Byte}
    (hroom : out.length + (code.stuff payload).length ≤ 1022) :
    payload.foldl (fun frame c => if frame.length + 2 < 1024 then frame ++ rspByte c else frame) out
      = out ++ code.stuff payload := by
  induction payload generalizing out with
  | nil => exact (append_nil out).symm
  | cons c cs ih =>
    have hpos := stuffByte_length_pos c
    rw [stuff_cons, length_append] at hroom
    have hlater : (out ++ rspByte c).length + (code.stuff cs).length ≤ 1022 := by
      rw [rspByte_eq, length_append]
      omega
    rw [foldl_cons, if_pos (by omega), ih hlater, rspByte_eq, append_assoc,
      stuff_cons]

/-- A payload that fits the frame, stuffed, is wrapped as it is. -/
theorem gateSendTrxcRsp_fits {payload : Nat → Byte} {plen : Nat} {bs : List Byte}
    (hbs : (List.range plen).map payload = bs) (hroom : (code.stuff bs).length ≤ 1019) :
    gateSendTrxcRsp payload plen = code.wrap ([dlciTrxc, ctrl] ++ bs) := by
  have hhead : (flag :: [dlciTrxc, ctrl].flatMap rspByte).length = 3 := by decide
  rw [gateSendTrxcRsp, hbs, send_loop_fits (by omega)]
  rfl

/-! ### The stream -/

/-- The frames that get a reply. -/
def answered (f : List Byte) : Bool :=
  decide (2 ≤ f.length) && f.head? == some dlciTrxc && (parseCmd (f.drop 2)).isSome

/-- A reply whose payload has nothing but the text, cut to its buffer, and its NUL. -/
def Contained (f out : List Byte) : Prop :=
  ∃ r ∈ parseCmd (f.drop 2), ∃ p, p <+: (response r).take (rspSize - 1) ++ [0] ∧
    out = code.wrap ([dlciTrxc, ctrl] ++ p)

variable {f : List Byte}

theorem gateFrame_trxc (htwo : 2 ≤ f.length) (htrxc : f.head? = some dlciTrxc)
    (stack : Nat → Byte) :
    (gateFrame f).flatMap (Action.replies stack) = trxcReply stack (f.drop 2) := by
  simp [gateFrame, htwo, htrxc, Action.replies]

/-- One frame is answered once, or not at all. -/
theorem gateFrame_replies (hlen : f.length ≤ gateBufSize)
    (hfits : answered f → ¬ Oversized (f.drop 2)) (stack : Nat → Byte) :
    List.Forall₂ Contained ([f].filter answered)
      ((gateFrame f).flatMap (Action.replies stack)) := by
  by_cases htwo : 2 ≤ f.length
  · by_cases htrxc : f.head? = some dlciTrxc
    · rw [gateFrame_trxc htwo htrxc]
      cases hparse : parseCmd (f.drop 2) with
      | none =>
        simp [answered, hparse, trxcReply, gateTrxcHandle]
      | some r =>
        have hanswered : answered f := by simp [answered, htwo, htrxc, hparse]
        have hshort : (f.drop 2).length + 2 ≤ gateBufSize := by
          rw [length_drop]
          omega
        -- the text fits, so the count handed on ends at its NUL
        have htext := response_length_le hparse hshort (hfits hanswered)
        have hpayload := payload_eq hparse htext stack
        obtain ⟨p, hp, hsent⟩ := gateSendTrxcRsp_wrap
          (gateTrxcHandle (f.drop 2) stack rspSize).2 (gateTrxcHandle (f.drop 2) stack rspSize).1
        rw [filter_cons_of_pos hanswered, trxcReply_of_some hparse, hsent]
        rw [hpayload] at hp
        exact .cons ⟨r, hparse, p, hp, rfl⟩ .nil
    · simp [answered, gateFrame, htwo, htrxc, Action.replies]
  · simp [answered, gateFrame, htwo]

/-- One byte: the gate moves as the bounded receiver does, and replies to its frames. -/
theorem backend_step (r : Receiver Byte) (e : Byte × (Nat → Byte)) :
    (backend.step r e).1 = ((code.bounded gateBufSize).step r e.1).1 ∧
      (backend.step r e).2 = ((code.bounded gateBufSize).step r e.1).2.flatMap
        fun f => (gateFrame f).flatMap (Action.replies e.2) := by
  by_cases hidle : r.mode = .idle
  · obtain ⟨m, buf⟩ := r
    subst hidle
    have hreceive : (code.bounded gateBufSize).step ⟨.idle, buf⟩ e.1
        = if e.1 = flag then (⟨.frame, []⟩, []) else (⟨.idle, buf⟩, []) := rfl
    rw [hreceive]
    by_cases hflag : e.1 = flag <;> simp [backend, gateStep, hflag, Action.replies]
  · obtain ⟨hnext, hacts, -⟩ := Gate.gateStep_open hidle e.1
    refine ⟨hnext, ?_⟩
    show (gateStep r e.1).2.flatMap _ = _
    rw [hacts, flatMap_assoc]

/-- The frames handed over at a byte are answered in order. -/
theorem frames_replies {fs : List (List Byte)}
    (hfs : ∀ f ∈ fs, f.length ≤ gateBufSize ∧ (answered f → ¬ Oversized (f.drop 2)))
    (stack : Nat → Byte) :
    List.Forall₂ Contained (fs.filter answered)
      (fs.flatMap fun f => (gateFrame f).flatMap (Action.replies stack)) := by
  induction fs with
  | nil => exact .nil
  | cons f fs ih =>
    have hf := hfs f mem_cons_self
    have hone := gateFrame_replies hf.1 hf.2 stack
    have hrest := ih fun f' hf' => hfs f' (mem_cons_of_mem f hf')
    rw [← singleton_append, filter_append, flatMap_append, flatMap_singleton]
    exact rel_append hone hrest

theorem backend_replies {r : Receiver Byte} {es : List (Byte × (Nat → Byte))}
    (hfs : ∀ f ∈ (code.bounded gateBufSize).trace r (es.map Prod.fst),
      f.length ≤ gateBufSize ∧ (answered f → ¬ Oversized (f.drop 2))) :
    List.Forall₂ Contained
      (((code.bounded gateBufSize).trace r (es.map Prod.fst)).filter answered)
      (backend.trace r es) := by
  induction es generalizing r with
  | nil => exact .nil
  | cons e es ih =>
    obtain ⟨hnext, hreplies⟩ := backend_step r e
    rw [map_cons, Machine.trace_cons] at hfs ⊢
    have hnow := frames_replies (fun f hf => hfs f (mem_append_left _ hf)) e.2
    have hrest := ih fun f hf => hfs f (mem_append_right _ hf)
    rw [filter_append, Machine.trace_cons, hnext, hreplies]
    exact rel_append hnow hrest

/-- A frame on the line, with the same byte all over the stack. -/
def framed (payload : List Byte) (secret : Byte) : List (Byte × (Nat → Byte)) :=
  (code.wrap ([dlciTrxc, ctrl] ++ payload)).map fun b => (b, fun _ => secret)

/-- A contained reply is no longer than its text, cut, and its NUL. -/
theorem Contained.length_le {out : List Byte} (h : Contained f out)
    (hr : parseCmd (f.drop 2) = some r) :
    out.length
      ≤ (code.wrap ([dlciTrxc, ctrl] ++ ((response r).take (rspSize - 1) ++ [0]))).length := by
  obtain ⟨r', hr', p, ⟨rest, hp⟩, rfl⟩ := h
  rw [hr] at hr'
  cases hr'
  rw [← hp]
  simp [Stuffing.wrap, Stuffing.stuff]

/-- With the same stack all along, each frame gets its reply. -/
theorem backend_trace_stack (stack : Nat → Byte) (r : Receiver Byte) (bs : List Byte) :
    backend.trace r (bs.map fun b => (b, stack))
      = ((code.bounded gateBufSize).trace r bs).flatMap
        fun f => (gateFrame f).flatMap (Action.replies stack) := by
  induction bs generalizing r with
  | nil => rfl
  | cons b bs ih =>
    obtain ⟨hnext, hreplies⟩ := backend_step r (b, stack)
    rw [map_cons, Machine.trace_cons, Machine.trace_cons, flatMap_append, hnext, hreplies,
      ih]

theorem frame_length (payload : List Byte) :
    ([dlciTrxc, ctrl] ++ payload).length = payload.length + 2 := by
  simp

theorem answered_frame (payload : List Byte) :
    answered ([dlciTrxc, ctrl] ++ payload) = (parseCmd payload).isSome := by
  simp [answered]

theorem decode_framed (payload : List Byte) (secret : Byte) :
    code.decode ((framed payload secret).map Prod.fst) = [[dlciTrxc, ctrl] ++ payload] := by
  have hbytes : (framed payload secret).map Prod.fst = code.wrap ([dlciTrxc, ctrl] ++ payload) := by
    simp [framed, Function.comp_def]
  rw [hbytes, Stuffing.decode, trace_wrap]
  rfl

/-- A frame that fits the gate's buffer is answered as its command is. -/
theorem backend_framed {payload : List Byte} (hlen : payload.length + 2 ≤ gateBufSize)
    (secret : Byte) :
    backend.trace rxInit (framed payload secret) = trxcReply (fun _ => secret) payload := by
  have hfits : ∀ f ∈ code.unbounded.trace ⟨.idle, []⟩ (code.wrap ([dlciTrxc, ctrl] ++ payload)),
      f.length ≤ gateBufSize := by
    intro f hf
    rw [trace_wrap, mem_singleton] at hf
    rw [hf, frame_length]
    exact hlen
  rw [framed, backend_trace_stack, rxInit, bounded_trace_eq hfits, trace_wrap,
    flatMap_singleton, gateFrame_trxc (by simp) rfl]
  rfl

/-- `MEASURE` with 495 bytes of arguments, in a frame of 509 bytes. -/
def longMeasure : List Byte := ascii "CMD MEASURE " ++ List.replicate 495 0x41

theorem parseCmd_longMeasure :
    parseCmd longMeasure = some ⟨ascii "MEASURE", List.replicate 495 0x41⟩ := by
  decide +kernel

/-- The reply to it ends with a byte of the stack. -/
theorem trxcReply_longMeasure :
    trxcReply (fun _ => 0x53) longMeasure = [code.wrap ([dlciTrxc, ctrl]
      ++ ascii "RSP MEASURE 0 " ++ List.replicate 495 0x41 ++ ascii " -" ++ [0, 0x53])] := by
  have hpayload := payload_long parseCmd_longMeasure (by decide +kernel) fun _ => 0x53
  rw [trxcReply_of_some parseCmd_longMeasure, gateSendTrxcRsp_fits hpayload (by decide +kernel)]
  decide +kernel

end Qosmo.Sercomm
