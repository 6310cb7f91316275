import Qosmo.Basic
import Qosmo.Lib.Run
import Qosmo.Lib.Running
import Mathlib.Data.List.Chain

/-!
# Qosmo.Grgsm.Speech

Speech frames from the shared ring to the firmware (`hw/arm/calypso/l1-grgsm/calypso_l1_grgsm.c`).

A program outside of QEMU decodes the speech and publishes its frames in a file in shared memory, a
ring of numbered slots behind a header with the number of the last frame. The gr-gsm layer follows
that number: on every frame `tch_dl_poll` takes at most one speech frame over into a queue of its
own, and `dispatch_tch_dl` hands one to the firmware unless the last one is still unread.

The two programs share nothing but the file, so a poll is two steps, reading the header and reading
the slot, with anything of the producer between them. `speech_delivery` is about every schedule of
these steps.
-/

namespace Qosmo

open List

/-- The file, the producer's log, and the fields `tch_dl_*` of the layer. `reading` is the number
`tch_dl_poll` is about to read, between its two reads; `waited` is the static variable of
`dispatch_tch_dl`. -/
structure Speech where
  /-- everything published, the latest first -/
  published : List (BitVec 32 × List Byte)
  slots : Nat → BitVec 32 × List Byte
  wSeq : BitVec 32
  seq : BitVec 32
  queue : Running (BitVec 32 × List Byte)
  reading : Option (BitVec 32)
  waited : Nat

namespace Speech

def queueN : Nat := 8
def prefetch : Nat := 4
def hold : Nat := 5

def init : Speech := ⟨[], fun _ => (0, []), 0, 0, ⟨fun _ => (0, []), 0, 0⟩, none, 0⟩

/-! ### The producer -/

def lastSlot (s : Speech) : BitVec 32 := (s.published.head?.map Prod.fst).getD 0

def writeSlot (n : BitVec 32) (s : Speech) (m : BitVec 32) (fr : List Byte) : Speech :=
  { s with
    slots := Function.update s.slots ((m - 1).toNat % n.toNat) (m, fr)
    published := (m, fr) :: s.published }

/-- The number of the last slot is written to the header. -/
def writeHeader (s : Speech) : Speech := { s with wSeq := s.lastSlot }

/-! ### The layer -/

/-- `tch_dl_poll`, up to the read of the slot: what it will read next, if anything. -/
def pollHeader (n : BitVec 32) (s : Speech) : Speech :=
  if n = 0 ∨ 4096 < n ∨ s.wSeq = 0 ∨ s.wSeq = s.seq then { s with reading := none }
  else
    -- the producer started over
    let s :=
      if s.wSeq < s.seq then { s with seq := 0, queue := { s.queue with head := 0, tail := 0 } }
      else s
    if prefetch ≤ s.queue.depth then { s with reading := none }
    else
      let next := s.seq + 1
      { s with reading := some (if s.seq = 0 ∨ n ≤ s.wSeq - next then s.wSeq else next) }

/-- `tch_dl_poll`, with the slot read. A slot with another number is not taken. -/
def pollSlot (n : BitVec 32) (s : Speech) : Speech :=
  match s.reading with
  | none => s
  | some next =>
    let slot := s.slots ((next - 1).toNat % n.toNat)
    if slot.1 ≠ next then { s with reading := none }
    else { s with reading := none, seq := next, queue := s.queue.push queueN (next, slot.2) }

/-- `ndb_put_fr`: two bytes a word, the first one above. -/
def ndbPutFr (fr : List Byte) : List Word :=
  (List.range 16).map (fun k => fr.getD (2 * k) 0 ++ fr.getD (2 * k + 1) 0) ++ [fr.getD 32 0 ++ 0#8]

/-- What the firmware finds in `a_dd_0`. The number is not written; it is the one of the cell of the
queue. -/
structure Handed where
  seq : BitVec 32
  words : List Word
  deriving Repr, DecidableEq

def Handed.bytes (h : Handed) : List Byte :=
  (h.words.flatMap fun w => [w.extractLsb' 8 8, w.extractLsb' 0 8]).take 33

/-- A frame as the firmware finds it. -/
def handed (p : BitVec 32 × List Byte) : Handed := ⟨p.1, ndbPutFr p.2⟩

/-- `dispatch_tch_dl`. `busy` is the bit `B_BLUD` of `a_dd_0`; after five frames the unread speech
frame is written over. -/
def dispatchTchDl (s : Speech) (busy : Bool) : Speech × List Handed :=
  if busy ∧ s.waited < hold then ({ s with waited := s.waited + 1 }, [])
  else if s.queue.head = s.queue.tail then ({ s with waited := 0 }, [])
  else ({ s with waited := 0, queue := s.queue.pop }, [handed (s.queue.front queueN)])

/-- A step of the producer or of the layer. A poll ends early if a read of the file fails. -/
inductive Event where
  | writeSlot (m : BitVec 32) (fr : List Byte)
  | writeHeader
  | pollHeader
  | pollSlot
  | pollFailed
  | service (busy : Bool)
  deriving Repr, DecidableEq

/-- The producer and the layer, with a ring of `n` slots. -/
def machine (n : BitVec 32) : Machine Speech Event Handed where
  step s e :=
    match e with
    | .writeSlot m fr => (s.writeSlot n m fr, [])
    | .writeHeader => (s.writeHeader, [])
    | .pollHeader => (s.pollHeader n, [])
    | .pollSlot => (s.pollSlot n, [])
    | .pollFailed => ({ s with reading := none }, [])
    | .service busy => s.dispatchTchDl busy

/-- The producer numbers its frames upwards, and a frame has 33 bytes. -/
def Publishes (s : Speech) : Event → Prop
  | .writeSlot m fr => s.lastSlot < m ∧ fr.length = 33
  | _ => True

instance (s : Speech) : (e : Event) → Decidable (s.Publishes e)
  | .writeSlot m fr => inferInstanceAs (Decidable (s.lastSlot < m ∧ fr.length = 33))
  | .writeHeader => isTrue trivial
  | .pollHeader => isTrue trivial
  | .pollSlot => isTrue trivial
  | .pollFailed => isTrue trivial
  | .service _ => isTrue trivial

/-! ### The words of a frame -/

theorem flatMap_pairs (fr : List Byte) {k : Nat} (hk : 2 * k ≤ fr.length) :
    ((List.range k).flatMap fun i => [fr.getD (2 * i) 0, fr.getD (2 * i + 1) 0])
      = fr.take (2 * k) := by
  induction k with
  | zero => rfl
  | succ k ih =>
    rw [range_succ, flatMap_append, ih (by omega), flatMap_singleton, Nat.mul_succ,
      ← take_append_getElem (by omega : 2 * k + 1 < fr.length),
      ← take_append_getElem (by omega : 2 * k < fr.length), append_assoc]
    simp [getD_eq_getElem?_getD, List.getElem?_eq_getElem (by omega : 2 * k < fr.length),
      List.getElem?_eq_getElem (by omega : 2 * k + 1 < fr.length)]

theorem bytes_handed (p : BitVec 32 × List Byte) (hp : p.2.length = 33) :
    (handed p).bytes = p.2 := by
  have hpairs : ((List.range 16).map fun k => p.2.getD (2 * k) 0 ++ p.2.getD (2 * k + 1) 0).flatMap
      (fun w : Word => [w.extractLsb' 8 8, w.extractLsb' 0 8]) = p.2.take 32 := by
    rw [flatMap_map, ← flatMap_pairs p.2 (k := 16) (by omega)]
    simp only [BitVec.extractLsb'_append_eq_left, BitVec.extractLsb'_append_eq_right]
  have hlast : p.2.take 32 ++ [p.2.getD 32 0] = p.2 := by
    have hbound : 32 < p.2.length := by omega
    rw [getD_eq_getElem?_getD, List.getElem?_eq_getElem hbound, Option.getD_some,
      take_append_getElem, take_of_length_le (by omega)]
  unfold Handed.bytes handed ndbPutFr
  rw [flatMap_append, hpairs, flatMap_singleton, BitVec.extractLsb'_append_eq_left,
    take_append, take_of_length_le (by simp), length_take, hp]
  exact hlast

/-! ### The invariant -/

/-- How the number of a frame taken may follow the one before: right behind it, or with a whole ring
between them. -/
def Follows (n a b : BitVec 32) : Prop := b.toNat = a.toNat + 1 ∨ a.toNat + n.toNat < b.toNat

/-- What holds between the steps, with the frames in `taken` taken over so far. -/
structure Inv (n : BitVec 32) (taken : List (BitVec 32 × List Byte)) (s : Speech) : Prop where
  slots_published : ∀ i, (s.slots i).1 = 0 ∨ s.slots i ∈ s.published
  published_length : ∀ p ∈ s.published, p.2.length = 33
  wSeq_le : s.wSeq ≤ s.lastSlot
  seq_le : s.seq ≤ s.wSeq
  depth_le : s.queue.depth ≤ prefetch
  taken_published : ∀ p ∈ taken, p ∈ s.published
  taken_follows : (taken.map Prod.fst).IsChain (Follows n)
  taken_last : ∀ a ∈ (taken.map Prod.fst).getLast?, a = s.seq ∧ a ≠ 0
  reading_next : ∀ next ∈ s.reading, s.queue.depth < prefetch ∧ s.seq < next ∧ next ≤ s.wSeq ∧
    (s.seq = 0 ∨ Follows n s.seq next)

variable {n : BitVec 32} {taken : List (BitVec 32 × List Byte)} {s : Speech}

theorem inv_init (n : BitVec 32) : Inv n [] init where
  slots_published _ := .inl rfl
  published_length := by simp [init]
  wSeq_le := BitVec.le_refl _
  seq_le := BitVec.le_refl _
  depth_le := by decide
  taken_published := by simp
  taken_follows := .nil
  taken_last := by simp
  reading_next := nofun

theorem Inv.writeSlot (h : Inv n taken s) {m : BitVec 32} {fr : List Byte} (hm : s.lastSlot < m)
    (hfr : fr.length = 33) : Inv n taken (s.writeSlot n m fr) where
  slots_published i := by
    unfold Speech.writeSlot
    dsimp only
    by_cases hi : i = (m - 1).toNat % n.toNat
    · rw [hi, Function.update_self]
      exact .inr mem_cons_self
    · rw [Function.update_of_ne hi]
      exact (h.slots_published i).imp_right (mem_cons_of_mem _)
  published_length p hp := by
    rcases List.mem_cons.mp hp with rfl | hp
    · exact hfr
    · exact h.published_length p hp
  wSeq_le := by
    have hle := h.wSeq_le
    show s.wSeq ≤ m
    bv_omega
  seq_le := h.seq_le
  depth_le := h.depth_le
  taken_published p hp := mem_cons_of_mem _ (h.taken_published p hp)
  taken_follows := h.taken_follows
  taken_last := h.taken_last
  reading_next := h.reading_next

theorem Inv.writeHeader (h : Inv n taken s) : Inv n taken s.writeHeader :=
  { h with
    wSeq_le := BitVec.le_refl _
    seq_le := BitVec.le_trans h.seq_le h.wSeq_le
    reading_next := fun next hnext => by
      obtain ⟨hdepth, hlt, hle, hfollows⟩ := h.reading_next next hnext
      exact ⟨hdepth, hlt, BitVec.le_trans hle h.wSeq_le, hfollows⟩ }

theorem Inv.stop (h : Inv n taken s) : Inv n taken { s with reading := none } :=
  { h with reading_next := nofun }

/-- The number to be read next. A poll never finds the header behind, so it does not start over. -/
theorem Inv.pollHeader_eq (h : Inv n taken s) :
    ∃ reading, s.pollHeader n = { s with reading := reading } ∧
      ∀ next ∈ reading, s.queue.depth < prefetch ∧ s.seq < next ∧ next ≤ s.wSeq ∧
        (s.seq = 0 ∨ Follows n s.seq next) := by
  unfold pollHeader
  by_cases hnothing : n = 0 ∨ 4096 < n ∨ s.wSeq = 0 ∨ s.wSeq = s.seq
  · exact ⟨none, if_pos hnothing, nofun⟩
  have hahead : s.seq < s.wSeq := by
    have hne : s.wSeq ≠ s.seq := fun heq => hnothing (.inr (.inr (.inr heq)))
    have hle := h.seq_le
    bv_omega
  rw [if_neg hnothing, if_neg (by bv_omega : ¬ s.wSeq < s.seq)]
  dsimp only
  split
  case isTrue => exact ⟨none, rfl, nofun⟩
  case isFalse hdepth =>
    refine ⟨_, rfl, fun next hnext => ⟨not_le.mp hdepth, ?_⟩⟩
    obtain rfl := Option.some.inj hnext
    split
    case isTrue hjump =>
      refine ⟨hahead, BitVec.le_refl _, hjump.imp_right fun hring => .inr ?_⟩
      bv_omega
    case isFalse hnext =>
      refine ⟨by bv_omega, by bv_omega, .inr (.inl ?_)⟩
      bv_omega

theorem queue_dvd : queueN ∣ 2 ^ 32 := by decide

variable {pre : List (BitVec 32 × List Byte)}

section

variable (h : Inv n (pre ++ s.queue.contents queueN) s)

include h

/-- A frame comes behind those taken so far. -/
theorem Inv.take {next : BitVec 32} {fr : List Byte} (hreading : s.reading = some next)
    (hmem : (next, fr) ∈ s.published) : let queue := s.queue.push queueN (next, fr)
    Inv n (pre ++ queue.contents queueN)
      { s with reading := none, seq := next, queue := queue } := by
  intro queue
  obtain ⟨hdepth, hlt, hle, hfollows⟩ := h.reading_next next hreading
  have hroom : s.queue.depth < queueN := hdepth.trans (by decide)
  have hpush : queue.contents queueN = _ :=
    Running.contents_push queue_dvd (by decide) hroom (next, fr)
  rw [hpush, ← append_assoc]
  exact
    { slots_published := h.slots_published
      published_length := h.published_length
      wSeq_le := h.wSeq_le
      seq_le := hle
      depth_le := by
        have hcount : queue.depth = _ := Running.depth_push (by unfold queueN at hroom; omega)
        exact hcount.trans_le hdepth
      taken_published := by
        intro p hp
        rcases List.mem_append.mp hp with hp | hp
        · exact h.taken_published p hp
        · rwa [List.mem_singleton.mp hp]
      taken_follows := by
        rw [map_append, isChain_append]
        refine ⟨h.taken_follows, .singleton _, fun a ha b hb => ?_⟩
        obtain ⟨rfl, hne⟩ := h.taken_last a ha
        obtain rfl := Option.some.inj hb
        exact hfollows.resolve_left hne
      taken_last := by
        intro a ha
        rw [map_append, map_singleton, List.getLast?_concat] at ha
        obtain rfl := Option.some.inj ha
        exact ⟨rfl, by bv_omega⟩
      reading_next := nofun }

theorem Inv.pollSlot : Inv n (pre ++ (s.pollSlot n).queue.contents queueN) (s.pollSlot n) := by
  unfold Speech.pollSlot
  cases hreading : s.reading with
  | none => exact h
  | some next =>
    dsimp only
    split
    case isTrue => exact h.stop
    case isFalse hslot =>
      rw [not_not] at hslot
      have hlt := (h.reading_next next hreading).2.1
      have hmem : (next, (s.slots ((next - 1).toNat % n.toNat)).2) ∈ s.published := by
        rcases h.slots_published ((next - 1).toNat % n.toNat) with hzero | hmem
        · bv_omega
        · rwa [show s.slots _ = (next, _) from Prod.ext hslot rfl] at hmem
      exact h.take hreading hmem

/-- The next frame is handed over, and moves from the queue to those taken before. -/
theorem Inv.service (busy : Bool) :
    ∃ pre', (s.dispatchTchDl busy).2 = pre'.map handed ∧
      Inv n (pre ++ pre' ++ (s.dispatchTchDl busy).1.queue.contents queueN)
        (s.dispatchTchDl busy).1 := by
  unfold dispatchTchDl
  split
  · refine ⟨[], rfl, ?_⟩
    rw [append_nil]
    exact { h with }
  split
  · refine ⟨[], rfl, ?_⟩
    rw [append_nil]
    exact { h with }
  case isFalse hne =>
    have hpop := Running.contents_pop queue_dvd (Ne.symm hne)
    have hcount := Running.depth_pop (Ne.symm hne)
    refine ⟨[s.queue.front queueN], rfl, ?_⟩
    rw [append_assoc, singleton_append, ← hpop]
    have hdepth := h.depth_le
    refine { h with depth_le := ?_, reading_next := fun next hnext => ?_ }
    · dsimp only
      omega
    · obtain ⟨hlt, hrest⟩ := h.reading_next next hnext
      exact ⟨by dsimp only; omega, hrest⟩

end

/-! ### Runs -/

/-- The invariant with what has been handed over so far. -/
def History (n : BitVec 32) (os : List Handed) (s : Speech) : Prop :=
  ∃ pre, os = pre.map handed ∧ Inv n (pre ++ s.queue.contents queueN) s

theorem history_step {os : List Handed} (h : History n os s) {e : Event} (he : s.Publishes e) :
    History n (os ++ ((machine n).step s e).2) ((machine n).step s e).1 := by
  obtain ⟨pre, rfl, hinv⟩ := h
  cases e with
  | service busy =>
    obtain ⟨pre', hshown, hinv'⟩ := hinv.service busy
    exact ⟨pre ++ pre', by rw [map_append, ← hshown]; rfl, hinv'⟩
  | writeSlot m fr => exact ⟨pre, append_nil _, hinv.writeSlot he.1 he.2⟩
  | writeHeader => exact ⟨pre, append_nil _, hinv.writeHeader⟩
  | pollHeader =>
    obtain ⟨reading, heq, hnext⟩ := hinv.pollHeader_eq
    refine ⟨pre, append_nil _, ?_⟩
    show Inv n (pre ++ (s.pollHeader n).queue.contents queueN) (s.pollHeader n)
    rw [heq]
    exact { hinv with reading_next := hnext }
  | pollSlot => exact ⟨pre, append_nil _, hinv.pollSlot⟩
  | pollFailed => exact ⟨pre, append_nil _, hinv.stop⟩

def Event.frame : Event → Option (BitVec 32 × List Byte)
  | .writeSlot m fr => some (m, fr)
  | _ => none

def frames (es : List Event) : List (BitVec 32 × List Byte) := es.filterMap Event.frame

theorem published_step (s : Speech) (e : Event) :
    ((machine n).step s e).1.published = e.frame.toList ++ s.published := by
  cases e with
  | pollHeader =>
    dsimp only [machine, pollHeader]
    repeat' split
    all_goals rfl
  | pollSlot =>
    dsimp only [machine, pollSlot]
    repeat' split
    all_goals rfl
  | service busy =>
    dsimp only [machine, dispatchTchDl]
    repeat' split
    all_goals rfl
  | _ => rfl

theorem mem_published (s : Speech) (es : List Event) {p : BitVec 32 × List Byte}
    (hp : p ∈ ((machine n).final s es).published) : p ∈ frames es ∨ p ∈ s.published := by
  induction es generalizing s with
  | nil => exact .inr hp
  | cons e es ih =>
    have hframes : frames (e :: es) = e.frame.toList ++ frames es := by
      cases e <;> rfl
    rw [hframes, mem_append]
    rcases ih _ hp with hlater | hnow
    · exact .inl (.inr hlater)
    · rw [published_step, mem_append] at hnow
      exact hnow.imp_left .inl

/-- A frame number never comes back. -/
theorem follows_lt {a b : BitVec 32} (h : Follows n a b) : a < b := by
  unfold Follows at h
  bv_omega

/-- **Delivery.** Along every schedule of a producer that numbers its frames upwards, of polls and
of services, the frames taken over (those handed to the firmware, then those waiting) come in
increasing order, each one right behind the last or a whole ring further on. Each is handed over
with the bytes published under its number, and four wait at most. -/
theorem speech_delivery (n : BitVec 32) (es : List Event)
    (hes : (machine n).Along Publishes init es) :
    let waiting := ((machine n).final init es).queue.contents queueN
    let handed := (machine n).trace init es
    let taken := handed.map Handed.seq ++ waiting.map Prod.fst
    taken.Pairwise (· < ·) ∧ taken.IsChain (Follows n) ∧
      (∀ h ∈ handed, (h.seq, h.bytes) ∈ frames es) ∧ waiting.length ≤ 4 := by
  obtain ⟨pre, htrace, hinv⟩ :
      History n ([] ++ (machine n).trace init es) ((machine n).final init es) :=
    Machine.history (I := History n) (fun os s e h he => history_step h he)
      ⟨[], rfl, inv_init n⟩ hes
  rw [nil_append] at htrace
  intro waiting handed taken
  have htaken : taken = (pre ++ waiting).map Prod.fst := by
    rw [map_append]
    simp only [taken, handed, htrace, map_map]
    rfl
  have hchain : taken.IsChain (Follows n) := by
    rw [htaken]
    exact hinv.taken_follows
  refine ⟨?_, hchain, ?_, ?_⟩
  · have hlt : taken.IsChain (· < ·) := hchain.imp fun a b => follows_lt
    exact hlt.pairwise
  · intro h hh
    obtain ⟨p, hp, rfl⟩ : ∃ p ∈ pre, Speech.handed p = h := List.mem_map.mp (htrace ▸ hh)
    have hpub := hinv.taken_published p (mem_append_left _ hp)
    rw [bytes_handed p (hinv.published_length p hpub)]
    exact (mem_published init es hpub).resolve_right not_mem_nil
  · rw [Running.length_contents]
    exact hinv.depth_le

def toneFrame (b : Byte) : List Byte := List.replicate 33 b

/-- The layer takes frame 1 from a ring of two slots, and comes back after frame 4. -/
def overrun : List Event :=
  [.writeSlot 1 (toneFrame 1), .writeHeader, .pollHeader, .pollSlot,
    .writeSlot 2 (toneFrame 2), .writeHeader, .writeSlot 3 (toneFrame 3), .writeHeader,
    .writeSlot 4 (toneFrame 4), .service false, .writeHeader, .pollHeader, .pollSlot, .service true,
    .service false]

/-- Frames 2 and 3 are skipped. -/
theorem speech_delivery_overrun :
    (machine 2).trace init overrun = [handed (1, toneFrame 1), handed (4, toneFrame 4)] ∧
      ∀ h ∈ (machine 2).trace init overrun, (h.seq, h.bytes) ∈ frames overrun :=
  ⟨by decide +kernel, (speech_delivery 2 overrun (by decide +kernel)).2.2.1⟩

end Speech

end Qosmo
