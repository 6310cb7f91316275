import Qosmo.Bsp.Queue
import Qosmo.Lib.PrefixCode

/-!
# Qosmo.Bsp.Dump

The dump of the received bursts and its replay (`calypso_bsp.c`,
`calypso_bsp_deliver_buffered` with `BSP_DUMP_RX_FILE` set, and `bsp_replay_load`).

Every burst the buffered path delivers is appended to the file as one record: a header of
twelve bytes that names the frame, the timeslot and the number of samples, and the samples.
The loader reads records until the file ends or does not look like one any more.

The eight queues of `Qosmo.Bsp.Basic` are put together here, with the file: a delivery goes
through the timeslots in order and drains each. The samples are written and read by the same
host, taken to be little-endian; `realloc` in the loader is taken to succeed.
-/

namespace Qosmo.Bsp

open List

/-! ### Records -/

/-- `ReplayBurst`. The length `n` is that of `iq`. -/
structure Burst where
  fn : BitVec 32
  tn : Byte
  iq : List Word
  deriving Repr, DecidableEq

/-- A record of the file: a burst, and the last byte of its header, which the loader skips. -/
structure Record where
  burst : Burst
  pad : Byte
  deriving Repr, DecidableEq

/-- A length the loader accepts. -/
def Sized (iq : List Word) : Prop := 1 ≤ iq.length ∧ iq.length ≤ iqMax

/-- `fwrite(iq, sizeof(int16_t), n, f)`. -/
def sampleBytes (iq : List Word) : List Byte :=
  iq.flatMap fun w => [w.extractLsb' 0 8, w.extractLsb' 8 8]

/-- `fread(iq, sizeof(int16_t), n, f)`, and the rest of the file; `none` where it ends before. -/
def readSamples : Nat → List Byte → Option (List Word × List Byte)
  | 0, f => some ([], f)
  | n + 1, lo :: hi :: f => (readSamples n f).map fun r => ((hi ++ lo) :: r.1, r.2)
  | _ + 1, _ => none

/-- The twelve bytes of `hdr`, and the samples. -/
def Record.bytes (r : Record) : List Byte :=
  let n : Word := BitVec.ofNat 16 r.burst.iq.length
  [0x49, 0x51, 0x31, 0x36, -- IQ16
    r.burst.fn.extractLsb' 0 8, r.burst.fn.extractLsb' 8 8,
    r.burst.fn.extractLsb' 16 8, r.burst.fn.extractLsb' 24 8,
    r.burst.tn, n.extractLsb' 0 8, n.extractLsb' 8 8, r.pad] ++ sampleBytes r.burst.iq

/-- A round of the loop of `bsp_replay_load`: the record at the front of the file, and what
follows it. -/
def readRecord : List Byte → Option (Record × List Byte)
  | m₀ :: m₁ :: m₂ :: m₃ :: f₀ :: f₁ :: f₂ :: f₃ :: tn :: n₀ :: n₁ :: pad :: f =>
    let n := (n₁ ++ n₀).toNat
    if [m₀, m₁, m₂, m₃] ≠ [0x49, 0x51, 0x31, 0x36] then none
    else if n = 0 ∨ iqMax < n then none
    else (readSamples n f).map fun r => (⟨⟨f₃ ++ f₂ ++ f₁ ++ f₀, tn, r.1⟩, pad⟩, r.2)
  | _ => none

/-! ### What was written is read -/

theorem readSamples_sampleBytes (iq : List Word) (f : List Byte) :
    readSamples iq.length (sampleBytes iq ++ f) = some (iq, f) := by
  induction iq with
  | nil => rfl
  | cons w iq ih =>
    have hword : w.extractLsb' 8 8 ++ w.extractLsb' 0 8 = w := by
      rw [BitVec.extractLsb'_append_extractLsb'_eq_extractLsb' (show 8 = 0 + 8 from rfl)]
      exact BitVec.extractLsb'_eq_self
    show (readSamples iq.length (sampleBytes iq ++ f)).map _ = _
    rw [ih, Option.map_some, hword]

variable {iq : List Word}

theorem of_readSamples {n : Nat} {f rest : List Byte}
    (h : readSamples n f = some (iq, rest)) : iq.length = n ∧ f = sampleBytes iq ++ rest := by
  induction n generalizing f iq with
  | zero =>
    cases h
    exact ⟨rfl, rfl⟩
  | succ n ih =>
    match f, h with
    | lo :: hi :: f, h =>
      obtain ⟨⟨iq', rest'⟩, htail, heq⟩ := Option.map_eq_some_iff.mp h
      obtain ⟨rfl, rfl⟩ := Prod.mk.inj heq
      obtain ⟨hlen, rfl⟩ := ih htail
      refine ⟨congrArg (· + 1) hlen, ?_⟩
      show _ = [(hi ++ lo).extractLsb' 0 8, (hi ++ lo).extractLsb' 8 8] ++ sampleBytes iq' ++ rest'
      rw [BitVec.extractLsb'_append_eq_right, BitVec.extractLsb'_append_eq_left]
      rfl
    | [], h | [_], h => cases h

theorem fn_bytes (fn : BitVec 32) :
    fn.extractLsb' 24 8 ++ fn.extractLsb' 16 8 ++ fn.extractLsb' 8 8 ++ fn.extractLsb' 0 8 = fn := by
  rw [BitVec.extractLsb'_append_extractLsb'_eq_extractLsb' (show 24 = 16 + 8 from rfl),
    BitVec.extractLsb'_append_extractLsb'_eq_extractLsb' (show 16 = 8 + 8 from rfl),
    BitVec.extractLsb'_append_extractLsb'_eq_extractLsb' (show 8 = 0 + 8 from rfl)]
  exact BitVec.extractLsb'_eq_self

/-- The bytes of a frame number put together from four. -/
theorem bytes_fn (f₃ f₂ f₁ f₀ : Byte) :
    (f₃ ++ f₂ ++ f₁ ++ f₀).extractLsb' 0 8 = f₀ ∧ (f₃ ++ f₂ ++ f₁ ++ f₀).extractLsb' 8 8 = f₁ ∧
      (f₃ ++ f₂ ++ f₁ ++ f₀).extractLsb' 16 8 = f₂ ∧
      (f₃ ++ f₂ ++ f₁ ++ f₀).extractLsb' 24 8 = f₃ := by
  have hpair : (f₃ ++ f₂).extractLsb' 8 8 = f₃ := BitVec.extractLsb'_append_eq_left
  refine ⟨BitVec.extractLsb'_append_eq_right, ?_, ?_, ?_⟩
  · rw [BitVec.extractLsb'_append_eq_of_le (by decide)]
    exact BitVec.extractLsb'_append_eq_right
  · rw [BitVec.extractLsb'_append_eq_of_le (by decide),
      BitVec.extractLsb'_append_eq_of_le (by decide)]
    exact BitVec.extractLsb'_append_eq_right
  · rw [BitVec.extractLsb'_append_eq_of_le (by decide),
      BitVec.extractLsb'_append_eq_of_le (by decide)]
    exact hpair

theorem length_bytes (h : Sized iq) :
    ((BitVec.ofNat 16 iq.length).extractLsb' 8 8 ++ (BitVec.ofNat 16 iq.length).extractLsb' 0 8).toNat
      = iq.length := by
  have hle : iq.length ≤ 384 := h.2
  rw [BitVec.extractLsb'_append_extractLsb'_eq_extractLsb' (show 8 = 0 + 8 from rfl)]
  show ((BitVec.ofNat 16 iq.length).extractLsb' 0 16).toNat = _
  rw [BitVec.extractLsb'_eq_self, BitVec.toNat_ofNat]
  omega

theorem readRecord_bytes (r : Record) (f : List Byte) (h : Sized r.burst.iq) :
    readRecord (r.bytes ++ f) = some (r, f) := by
  have hlen := length_bytes h
  have hrange : ¬(r.burst.iq.length = 0 ∨ iqMax < r.burst.iq.length) := by
    have hle := h.2
    have hpos := h.1
    omega
  simp only [Record.bytes, cons_append, nil_append, readRecord]
  rw [if_neg (not_not_intro rfl), hlen, if_neg hrange, readSamples_sampleBytes, Option.map_some,
    fn_bytes]

theorem of_readRecord {f rest : List Byte} {r : Record} (h : readRecord f = some (r, rest)) :
    Sized r.burst.iq ∧ f = r.bytes ++ rest := by
  match f, h with
  | m₀ :: m₁ :: m₂ :: m₃ :: f₀ :: f₁ :: f₂ :: f₃ :: tn :: n₀ :: n₁ :: pad :: f, h =>
    simp only [readRecord] at h
    split at h
    · cases h
    rename_i hmagic
    split at h
    · cases h
    rename_i hn
    obtain ⟨⟨iq, rest'⟩, hread, heq⟩ := Option.map_eq_some_iff.mp h
    obtain ⟨rfl, rfl⟩ := Prod.mk.inj heq
    obtain ⟨hlen, rfl⟩ := of_readSamples hread
    -- written again, the fields give the bytes they were put together from
    have hword : BitVec.ofNat 16 iq.length = n₁ ++ n₀ := by
      rw [hlen]
      exact BitVec.ofNat_toNat 16 _
    obtain ⟨h₀, h₁, h₂, h₃⟩ := bytes_fn f₃ f₂ f₁ f₀
    refine ⟨⟨?_, ?_⟩, ?_⟩
    · show 1 ≤ iq.length
      omega
    · show iq.length ≤ iqMax
      omega
    · obtain ⟨rfl, rfl, rfl, rfl, -⟩ : m₀ = _ ∧ m₁ = _ ∧ m₂ = _ ∧ m₃ = _ ∧ True := by
        simpa using hmagic
      simp only [Record.bytes, hword, h₀, h₁, h₂, h₃]
      rw [BitVec.extractLsb'_append_eq_right, BitVec.extractLsb'_append_eq_left]
      rfl

/-- The records of the file, each told from what follows it by its length. -/
def recordCode : PrefixCode Byte Record where
  Valid r := Sized r.burst.iq
  encode := Record.bytes
  read := readRecord
  encode_ne_nil _ := List.cons_ne_nil _ _
  read_encode := readRecord_bytes
  of_read := of_readRecord

/-- `bsp_replay_load`: the bursts of the records, up to the first that is not one. -/
def replayLoad (f : List Byte) : List Burst := (recordCode.split f).1.map Record.burst

/-! ### The buffered path -/

def numTn : Nat := 8

/-- The queues of the timeslots (`bsp.q`), and the dump. -/
structure Buffered where
  queue : Nat → BurstQueue
  file : List Byte

def dump (bs : List Burst) : List Byte := bs.flatMap fun b => (⟨b, 0⟩ : Record).bytes

namespace Buffered

def init : Buffered := ⟨fun _ => BurstQueue.empty, []⟩

def enqueue (s : Buffered) (tn : Byte) (fn : BitVec 32) (iq : List Word) : Buffered :=
  if numTn ≤ tn.toNat then s
  else
    { s with
      queue := Function.update s.queue tn.toNat (Bsp.enqueue (s.queue tn.toNat) fn.toNat iq) }

def burst (tn : Nat) (d : Delivery) : Burst := ⟨BitVec.ofNat 32 d.fn, BitVec.ofNat 8 tn, d.iq⟩

/-- The drain loop of one timeslot; each burst it delivers goes to the file. A turn that
delivers leaves one burst less in the queue, so these lookups are enough (`drain_ends`). -/
def drainTn (currentFn : Nat) (rxwin : Nat → Bool) (s : Buffered) (tn : Nat) :
    Buffered × List Burst :=
  let q := s.queue tn
  let r := (drain currentFn (rxwin tn) (q.length + 1) q).getD (q, [])
  ({ queue := Function.update s.queue tn r.1, file := s.file ++ dump (r.2.map (burst tn)) },
    r.2.map (burst tn))

def timeslots (currentFn : Nat) (rxwin : Nat → Bool) : Machine Buffered Nat Burst :=
  ⟨drainTn currentFn rxwin⟩

/-- A burst arrives, or `calypso_bsp_deliver_buffered` is called with a DSP attached. The
flags say for which timeslots a receive pulse was pending. -/
inductive Event
  | enqueue (tn : Byte) (fn : BitVec 32) (iq : List Word)
  | deliver (currentFn : BitVec 32) (rxwin : Nat → Bool)

def step (s : Buffered) : Event → Buffered × List Burst
  | .enqueue tn fn iq => (s.enqueue tn fn iq, [])
  | .deliver currentFn rxwin => (timeslots currentFn.toNat rxwin).run s (List.range numTn)

/-- The buffered path, driven by arrivals and deliveries; it shows the bursts delivered. -/
def machine : Machine Buffered Event Burst := ⟨step⟩

def Event.Sized : Event → Prop
  | .enqueue _ _ iq => Bsp.Sized iq
  | .deliver _ _ => True

end Buffered

/-! ### The file along a run -/

/-- The bursts that wait all have a length the loader accepts. -/
def AllSized (q : BurstQueue) : Prop := ∀ s ∈ q, s.valid = true → Sized s.iq

theorem empty_allSized : AllSized BurstQueue.empty := by
  intro s hs hvalid
  rw [eq_of_mem_replicate hs] at hvalid
  cases hvalid

variable {q : BurstQueue}

theorem Thins.allSized {q' : BurstQueue} (h : Thins q q') (hq : AllSized q) : AllSized q' :=
  fun s hs hvalid => hq s (h.mem hs hvalid) hvalid

/-- An arrival leaves the slots that were there, or holds the new burst. -/
theorem mem_enqueue {fn : Nat} {s : Slot} (hs : s ∈ enqueue q fn iq) : s ∈ q ∨ s.iq = iq := by
  unfold enqueue at hs
  split at hs
  · obtain ⟨j, hj⟩ := mem_iff_getElem?.mp hs
    rw [List.getElem?_modify] at hj
    obtain ⟨t, ht, rfl⟩ := Option.map_eq_some_iff.mp hj
    split
    · exact .inr rfl
    · exact .inl (mem_of_getElem? ht)
  · rcases mem_or_eq_of_mem_set hs with hs | rfl
    · exact .inl hs
    · exact .inr rfl

theorem allSized_update {queue : Nat → BurstQueue} (tn : Nat)
    (h : ∀ tn', AllSized (queue tn')) (hq : AllSized q) :
    ∀ tn', AllSized (Function.update queue tn q tn') :=
  (Function.forall_update_iff queue fun _ q => AllSized q).mpr ⟨hq, fun tn' _ => h tn'⟩

theorem AllSized.enqueue (hq : AllSized q) (hiq : Sized iq)
    (fn : Nat) : AllSized (enqueue q fn iq) := by
  intro s hs hvalid
  rcases mem_enqueue hs with hs | rfl
  · exact hq s hs hvalid
  · exact hiq

/-- A turn of the drain loop delivers a burst that waited, with all its samples. -/
theorem AllSized.turn_delivers (hq : AllSized q) (currentFn : Nat) (rxwin : Bool) :
    ∀ d ∈ (turn q currentFn rxwin).2, Sized d.iq := by
  intro d hd
  have hthin := take_thins q currentFn rxwin
  unfold turn at hd
  split at hd
  · cases hd
  · rename_i q' i htake
    obtain ⟨s, hs, hvalid⟩ := @take_valid q currentFn i rxwin (by rw [htake])
    rw [htake] at hs hthin
    dsimp only at hs hd
    have hsized := hthin.allSized hq s (mem_of_getElem? hs) hvalid
    rw [delivered, hs, Option.map_some, Option.mem_toList] at hd
    cases hd
    -- of a longer burst only 384 samples would be delivered
    rw [take_of_length_le hsized.2]
    exact hsized

theorem AllSized.drain (hq : AllSized q) (currentFn : Nat) (rxwin : Bool) :
    ∃ r, drain currentFn rxwin (q.length + 1) q = some r ∧ AllSized r.1 ∧
      ∀ d ∈ r.2, Sized d.iq := by
  have hwaiting : waiting q ≤ q.length := countP_le_length
  obtain ⟨k, hk⟩ := drain_ends currentFn rxwin (Nat.lt_succ_of_le hwaiting)
  -- the loop is a run of turns, and a turn keeps what waits
  have hturns : machine.Along (fun _ e => e = .turn currentFn rxwin) q
      (List.replicate (k + 1) (.turn currentFn rxwin)) :=
    Machine.along_of_forall (fun e he => eq_of_mem_replicate he) q
  refine ⟨_, hk, ?_, ?_⟩
  · refine Machine.invariant (I := AllSized) ?_ hq hturns
    rintro q' e hq' rfl
    exact (turn_thins q' currentFn rxwin).allSized hq'
  · refine Machine.trace_forall (I := AllSized) ?_ ?_ hq hturns
    · rintro q' e hq' rfl
      exact (turn_thins q' currentFn rxwin).allSized hq'
    · rintro q' e hq' rfl
      exact hq'.turn_delivers currentFn rxwin

namespace Buffered

/-- The file holds the records of the bursts delivered, and the loader will accept them. -/
structure Dumped (bs : List Burst) (s : Buffered) : Prop where
  file : s.file = dump bs
  delivered : ∀ b ∈ bs, Bsp.Sized b.iq
  waiting : ∀ tn, AllSized (s.queue tn)

variable {bs : List Burst} {s : Buffered}

theorem Dumped.drainTn (h : s.Dumped bs) (currentFn : Nat) (rxwin : Nat → Bool) (tn : Nat) :
    (s.drainTn currentFn rxwin tn).1.Dumped (bs ++ (s.drainTn currentFn rxwin tn).2) := by
  obtain ⟨r, hdrain, hwaiting, hdelivered⟩ := (h.waiting tn).drain currentFn (rxwin tn)
  unfold Buffered.drainTn
  simp only [hdrain, Option.getD_some]
  refine ⟨?_, ?_, ?_⟩
  · rw [h.file, dump, dump, dump, flatMap_append]
  · intro b hb
    rcases List.mem_append.mp hb with hb | hb
    · exact h.delivered b hb
    · obtain ⟨d, hd, rfl⟩ := List.mem_map.mp hb
      exact hdelivered d hd
  · exact allSized_update tn h.waiting hwaiting

theorem Dumped.step (h : s.Dumped bs) {e : Event}
    (he : e.Sized) : (s.step e).1.Dumped (bs ++ (s.step e).2) := by
  cases e with
  | enqueue tn fn iq =>
    simp only [Buffered.step, append_nil]
    unfold Buffered.enqueue
    split
    · exact h
    · have harrived := (h.waiting tn.toNat).enqueue he fn.toNat
      exact ⟨h.file, h.delivered, allSized_update tn.toNat h.waiting harrived⟩
  | deliver currentFn rxwin =>
    exact Machine.history (M := timeslots currentFn.toNat rxwin) (I := fun bs s => s.Dumped bs)
      (fun bs s tn h _ => h.drainTn currentFn.toNat rxwin tn) h (Machine.along_true s _)

theorem dumped_init : init.Dumped [] :=
  ⟨rfl, fun _ hb => absurd hb not_mem_nil, fun _ => empty_allSized⟩

theorem replayLoad_of_dumped (h : s.Dumped bs) : replayLoad s.file = bs := by
  -- the loader stops at the end of the file: nothing is left behind the last record
  have hvalid : ∀ r ∈ bs.map fun b => (⟨b, 0⟩ : Record), recordCode.Valid r := by
    intro r hr
    obtain ⟨b, hb, rfl⟩ := List.mem_map.mp hr
    exact h.delivered b hb
  have hend : recordCode.read [] = none := rfl
  have hsplit := recordCode.split_encode hvalid hend
  rw [append_nil, flatMap_map] at hsplit
  have hfile : s.file = bs.flatMap fun b => recordCode.encode ⟨b, 0⟩ := h.file
  rw [replayLoad, hfile, hsplit, map_map]
  exact map_id bs

/-- **The dump can be replayed.** The bursts that were delivered come back from the file, in
order, with their frames, timeslots, lengths and samples. -/
theorem replayLoad_dump (es : List Event) (hes : ∀ e ∈ es, e.Sized) :
    replayLoad (machine.final init es).file = machine.trace init es := by
  have hdumped : (machine.final init es).Dumped ([] ++ machine.trace init es) :=
    Machine.history (I := fun bs s => Dumped bs s) (fun bs s e h he => h.step he) dumped_init
      (Machine.along_of_forall hes init)
  exact replayLoad_of_dumped hdumped

/-- Two bursts of frame 7, in timeslots 0 and 3, and one delivery. -/
theorem replayLoad_dump_two :
    (∀ e ∈ [Event.enqueue 0 7 [0x1234], .enqueue 3 7 [0x0001, 0xFFFF], .deliver 7 fun _ => false],
      e.Sized) ∧
    replayLoad (machine.final init
        [.enqueue 0 7 [0x1234], .enqueue 3 7 [0x0001, 0xFFFF], .deliver 7 fun _ => false]).file
      = machine.trace init
        [.enqueue 0 7 [0x1234], .enqueue 3 7 [0x0001, 0xFFFF], .deliver 7 fun _ => false] := by
  have hsized : ∀ e ∈ [Event.enqueue 0 7 [0x1234], .enqueue 3 7 [0x0001, 0xFFFF],
      .deliver 7 fun _ => false], e.Sized := by
    simp [Event.Sized, Bsp.Sized, iqMax]
  exact ⟨hsized, replayLoad_dump _ hsized⟩

end Buffered

end Qosmo.Bsp
