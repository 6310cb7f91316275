import Qosmo.Lib.Run

/-!
# Qosmo.Lib.Framing

Frames in a byte stream, by flags and escapes.

A frame is sent between two *flags*; a flag or an *escape* inside it is sent as an escape
followed by the masked byte (`Stuffing.stuff`). A receiver (`Stuffing.receiver`) reads the
stream byte by byte, and hands a frame over at each flag that ends one.

* `trace_stuff`: a stuffed frame and its closing flag hand over exactly that frame;
* `bounded_trace`: a receiver with room for `cap` bytes hands over the same frames, cut to
  `cap` bytes each.

Nothing here says what bytes are: any type with decidable equality will do.
-/

namespace Qosmo

open List Machine

variable {α : Type*}

/-- A flag, an escape, and how escaped bytes are masked. -/
structure Stuffing (α : Type*) where
  flag : α
  esc : α
  mask : α → α
  mask_mask : ∀ a, mask (mask a) = a
  esc_ne_flag : esc ≠ flag

inductive Framing.Mode
  /-- No flag seen yet. -/
  | idle
  /-- Collecting a frame. -/
  | frame
  /-- The next byte is escaped. -/
  | escape
  deriving Repr, DecidableEq

/-- A receiver: its mode and the bytes of the unfinished frame. -/
structure Framing.Receiver (α : Type*) where
  mode : Framing.Mode
  buf : List α
  deriving Repr, DecidableEq

namespace Stuffing

open Framing

variable [DecidableEq α] (c : Stuffing α)

/-- One byte of a frame, as sent. -/
def stuffByte (a : α) : List α := if a = c.flag ∨ a = c.esc then [c.esc, c.mask a] else [a]

/-- The bytes of a frame, as sent. -/
def stuff (as : List α) : List α := as.flatMap c.stuffByte

/-- A frame between its two flags. -/
def wrap (as : List α) : List α := c.flag :: (c.stuff as ++ [c.flag])

/-- Keep a byte if `room` says the buffer takes it. -/
def store (room : List α → Bool) (buf : List α) (a : α) : List α :=
  if room buf then buf ++ [a] else buf

/-- One byte of the stream. A flag inside a frame hands the frame over, be it empty. -/
def receive (room : List α → Bool) (r : Receiver α) (a : α) : Receiver α × List (List α) :=
  match r.mode with
  | .idle => if a = c.flag then (⟨.frame, []⟩, []) else (r, [])
  | .frame =>
    if a = c.flag then (⟨.frame, []⟩, [r.buf])
    else if a = c.esc then (⟨.escape, r.buf⟩, [])
    else (⟨.frame, store room r.buf a⟩, [])
  | .escape => (⟨.frame, store room r.buf (c.mask a)⟩, [])

/-- The receiver as a machine, fed byte by byte. -/
def receiver (room : List α → Bool) : Machine (Receiver α) α (List α) := ⟨c.receive room⟩

def unbounded : Machine (Receiver α) α (List α) := c.receiver fun _ => true

/-- A receiver whose buffer takes `cap` bytes. -/
def bounded (cap : Nat) : Machine (Receiver α) α (List α) :=
  c.receiver fun buf => decide (buf.length < cap)

/-- The frames of a stream: what an unbounded receiver hands over, flags in a row apart. -/
def decode (as : List α) : List (List α) :=
  (c.unbounded.trace ⟨.idle, []⟩ as).filter fun f => decide (0 < f.length)

variable {c} {room : List α → Bool} {as bs buf : List α}

@[simp] theorem stuff_nil : c.stuff [] = [] := rfl
@[simp] theorem stuff_cons (a : α) (as : List α) :
    c.stuff (a :: as) = c.stuffByte a ++ c.stuff as := by simp [stuff]

/-- Stuffing at most doubles a frame. -/
theorem stuff_length_le (as : List α) : (c.stuff as).length ≤ 2 * as.length := by
  induction as with
  | nil => exact Nat.le_refl _
  | cons a as ih =>
    have hone : (c.stuffByte a).length ≤ 2 := by
      unfold stuffByte
      split <;> simp
    rw [stuff_cons, length_append, length_cons]
    omega

/-! ### One byte at a time -/

theorem receive_idle (hmem : c.flag ∉ as) (buf : List α) :
    (c.receiver room).trace ⟨.idle, buf⟩ as = [] ∧
      (c.receiver room).final ⟨.idle, buf⟩ as = ⟨.idle, buf⟩ := by
  induction as with
  | nil => exact ⟨rfl, rfl⟩
  | cons a as ih =>
    rw [mem_cons, not_or] at hmem
    obtain ⟨hne, hmem⟩ := hmem
    have hstep : (c.receiver room).step ⟨.idle, buf⟩ a = (⟨.idle, buf⟩, []) := by
      simp [receiver, receive, Ne.symm hne]
    rw [trace_cons, final_cons, hstep]
    exact ih hmem

/-- A stuffed byte, escaped or not, ends up in the buffer as it was. -/
theorem final_stuffByte (a : α) (buf : List α) :
    (c.receiver room).final ⟨.frame, buf⟩ (c.stuffByte a) = ⟨.frame, store room buf a⟩ ∧
      (c.receiver room).trace ⟨.frame, buf⟩ (c.stuffByte a) = [] := by
  unfold stuffByte
  split
  · simp [receiver, receive, c.esc_ne_flag, c.mask_mask]
  · rename_i h
    rw [not_or] at h
    simp [receiver, receive, h.1, h.2]

/-- A stuffed frame extends the buffer of an unbounded receiver by its bytes. -/
theorem final_stuff (as buf : List α) :
    c.unbounded.final ⟨.frame, buf⟩ (c.stuff as) = ⟨.frame, buf ++ as⟩ ∧
      c.unbounded.trace ⟨.frame, buf⟩ (c.stuff as) = [] := by
  induction as generalizing buf with
  | nil => simp
  | cons a as ih =>
    have hfinal : c.unbounded.final ⟨.frame, buf⟩ (c.stuffByte a) = ⟨.frame, buf ++ [a]⟩ :=
      (final_stuffByte a buf).1
    have htrace : c.unbounded.trace ⟨.frame, buf⟩ (c.stuffByte a) = [] := (final_stuffByte a buf).2
    rw [stuff_cons, final_append, trace_append, hfinal, htrace]
    simpa using ih (buf ++ [a])

/-- **Round trip.** Between flags, a stuffed frame hands over exactly its bytes. -/
theorem trace_stuff (as bs : List α) :
    c.unbounded.trace ⟨.frame, []⟩ (c.stuff as ++ c.flag :: bs)
      = as :: c.unbounded.trace ⟨.frame, []⟩ bs := by
  obtain ⟨hfinal, htrace⟩ := final_stuff (c := c) as []
  rw [trace_append, htrace, hfinal, nil_append, nil_append, trace_cons]
  have hstep : c.unbounded.step ⟨.frame, as⟩ c.flag = (⟨.frame, []⟩, [as]) := by
    simp [unbounded, receiver, receive]
  rw [hstep]
  rfl

/-- A flag with nothing collected since the last one hands over the empty frame. -/
theorem trace_flag (bs : List α) :
    c.unbounded.trace ⟨.frame, []⟩ (c.flag :: bs) = [] :: c.unbounded.trace ⟨.frame, []⟩ bs :=
  trace_stuff [] bs

/-- Up to its first flag a stream hands over nothing; the flag opens a frame. -/
theorem trace_idle_flag (hmem : c.flag ∉ as) (bs : List α) :
    (c.receiver room).trace ⟨.idle, []⟩ (as ++ c.flag :: bs)
      = (c.receiver room).trace ⟨.frame, []⟩ bs := by
  rw [trace_append, (receive_idle hmem []).1, (receive_idle hmem []).2, nil_append,
    trace_cons]
  have hstep : (c.receiver room).step ⟨.idle, []⟩ c.flag = (⟨.frame, []⟩, []) := by
    simp [receiver, receive]
  rw [hstep]
  rfl

theorem trace_wrap (f : List α) : c.unbounded.trace ⟨.idle, []⟩ (c.wrap f) = [f] := by
  show (c.receiver _).trace ⟨.idle, []⟩ ([] ++ c.flag :: (c.stuff f ++ [c.flag])) = [f]
  rw [trace_idle_flag not_mem_nil]
  exact trace_stuff f []

/-- What was wrapped, one frame after the other, is what comes out. -/
theorem decode_wraps {frames : List (List α)} (hframes : ∀ f ∈ frames, f ≠ [])
    (hmem : c.flag ∉ as) : c.decode (as ++ frames.flatMap c.wrap) = frames := by
  -- once a flag has opened the first frame, each further wrap adds one empty frame
  have hopen : ∀ fs : List (List α), (∀ f ∈ fs, f ≠ []) →
      (c.unbounded.trace ⟨.frame, []⟩ (fs.flatMap c.wrap)).filter
        (fun f => decide (0 < f.length)) = fs := by
    intro fs
    induction fs with
    | nil => intro _; rfl
    | cons f fs ih =>
      intro hfs
      have hf : 0 < f.length := List.length_pos_iff.mpr (hfs f mem_cons_self)
      have htail := ih fun g hg => hfs g (mem_cons_of_mem f hg)
      simp only [flatMap_cons, wrap, cons_append, append_assoc]
      rw [trace_flag, trace_stuff]
      simpa [hf] using htail
  cases frames with
  | nil =>
    simp only [flatMap_nil, append_nil, decode, unbounded]
    rw [(receive_idle hmem []).1]
    rfl
  | cons f fs =>
    have hf : 0 < f.length := List.length_pos_iff.mpr (hframes f mem_cons_self)
    have htail := hopen fs fun g hg => hframes g (mem_cons_of_mem f hg)
    simp only [flatMap_cons, wrap, cons_append, append_assoc,
      decode, unbounded]
    rw [trace_idle_flag hmem]
    show List.filter _ (c.unbounded.trace ⟨.frame, []⟩ _) = _
    rw [trace_stuff]
    simpa [hf] using htail

/-! ### Bounded buffers -/

omit [DecidableEq α] in
theorem store_bounded (cap : Nat) (buf : List α) (a : α) :
    store (fun b => decide (b.length < cap)) (buf.take cap) a = (buf ++ [a]).take cap := by
  unfold store
  by_cases h : buf.length < cap
  · rw [take_of_length_le (Nat.le_of_lt h), take_of_length_le (by simp; omega)]
    simp [h]
  · rw [take_append_of_le_length (by omega)]
    have hlen : ¬ (buf.take cap).length < cap := by simp; omega
    simp only [hlen, decide_false, Bool.false_eq_true, if_false]

/-- **Cut, not confused.** A receiver with room for `cap` bytes keeps step with an unbounded
one: it hands over the same frames, each cut to its first `cap` bytes. -/
theorem bounded_trace (cap : Nat) (m : Mode) (buf as : List α) :
    (c.bounded cap).trace ⟨m, buf.take cap⟩ as
      = (c.unbounded.trace ⟨m, buf⟩ as).map (List.take cap) := by
  induction as generalizing m buf with
  | nil => rfl
  | cons a as ih =>
    rw [trace_cons, trace_cons, map_append]
    cases m with
    | idle =>
      by_cases hflag : a = c.flag
      · simpa [bounded, unbounded, receiver, receive, hflag] using ih .frame []
      · simpa [bounded, unbounded, receiver, receive, hflag] using ih .idle buf
    | frame =>
      by_cases hflag : a = c.flag
      · simpa [bounded, unbounded, receiver, receive, hflag] using ih .frame []
      · by_cases hesc : a = c.esc
        · simpa [bounded, unbounded, receiver, receive, hesc, c.esc_ne_flag] using ih .escape buf
        · have hrest := ih .frame (buf ++ [a])
          rw [← store_bounded] at hrest
          simpa [bounded, unbounded, receiver, receive, hflag, hesc, store] using hrest
    | escape =>
      have hrest := ih .frame (buf ++ [c.mask a])
      rw [← store_bounded] at hrest
      simpa [bounded, unbounded, receiver, receive, store] using hrest

/-- What a bounded receiver hands over fits its buffer. -/
theorem bounded_length_le {cap : Nat} {m : Mode} {f : List α}
    (hf : f ∈ (c.bounded cap).trace ⟨m, []⟩ as) : f.length ≤ cap := by
  have hcut := bounded_trace (c := c) cap m [] as
  rw [take_nil] at hcut
  rw [hcut] at hf
  obtain ⟨g, -, rfl⟩ := List.mem_map.mp hf
  exact length_take_le cap g

/-- Frames no longer than the buffer come out of a bounded receiver as they are. -/
theorem bounded_trace_eq {cap : Nat} {m : Mode}
    (h : ∀ f ∈ c.unbounded.trace ⟨m, []⟩ as, f.length ≤ cap) :
    (c.bounded cap).trace ⟨m, []⟩ as = c.unbounded.trace ⟨m, []⟩ as := by
  have hcut := bounded_trace (c := c) cap m [] as
  rw [take_nil] at hcut
  rw [hcut]
  conv => rhs; rw [← map_id (c.unbounded.trace ⟨m, []⟩ as)]
  exact map_congr_left fun f hf => take_of_length_le (h f hf)

end Stuffing

end Qosmo
