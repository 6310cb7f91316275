import Qosmo.Basic
import Qosmo.Lib.Run
import Mathlib.Data.List.Chain

/-!
# Qosmo.Grgsm.Cipher

Publishing the key to gr-gsm (`publish_kc` in `hw/arm/calypso/l1-grgsm/calypso_l1_grgsm.c`).

gr-gsm deciphers what it receives, and needs the key that the firmware has put into the NDB. The
layer samples algorithm and key on every 22nd frame and writes them to a file when they have
changed. The firmware also clears the algorithm for a moment during an assignment, while the network
goes on ciphering; so the clear state is published in place of a key only when it lasts. The file
may fail to open or to be written, and then the change is published later.
-/

namespace Qosmo

open List Machine

/-- A record of the file: 32 bytes. -/
structure KcRecord where
  seq : BitVec 32
  algo : Byte
  key : List Byte
  deriving Repr, DecidableEq

/-- The static variables of `publish_kc`. `fd` tells whether the file is open. -/
structure KcPublisher where
  fd : Bool
  seq : BitVec 32
  last : KcRecord
  haveLast : Bool
  tick : Nat
  clearPending : Nat
  deriving Repr, DecidableEq

namespace KcRecord

/-- The record behind its number: algorithm, length of the key, key, a byte FF, zeros. -/
def body (r : KcRecord) : List Byte :=
  [r.algo, if r.algo = 0 then 0 else 8] ++ r.key ++ 0xFF :: List.replicate 17 0

def bytes (r : KcRecord) : List Byte :=
  [r.seq.extractLsb' 0 8, r.seq.extractLsb' 8 8, r.seq.extractLsb' 16 8, r.seq.extractLsb' 24 8] ++
    r.body

/-- What a reader of the file goes by. -/
def cipher (r : KcRecord) : Byte × List Byte := (r.algo, r.key)

theorem drop_bytes (r : KcRecord) : r.bytes.drop 4 = r.body := rfl

/-- Records compare equal exactly if algorithm and key are the same. -/
theorem body_eq_iff {r r' : KcRecord} : r.body = r'.body ↔ r.cipher = r'.cipher := by
  constructor
  · intro h
    unfold body at h
    simp only [cons_append, nil_append, List.cons.injEq] at h
    obtain ⟨halgo, -, hkey⟩ := h
    exact Prod.ext halgo (append_cancel_right hkey)
  · intro h
    obtain ⟨halgo, hkey⟩ := Prod.mk.inj h
    unfold body
    rw [halgo, hkey]

end KcRecord

namespace KcPublisher

def publishEvery : Nat := 22
def clearGrace : Nat := 5

def init : KcPublisher := ⟨false, 0, ⟨0, 0, List.replicate 8 0⟩, false, 0, 0⟩

/-- A call: the words `d_a5mode` and `a_kc` of the NDB, and whether the file can be opened and
written. -/
structure Call where
  mode : Word
  kw : List Word
  opens : Bool
  writes : Bool
  deriving Repr, DecidableEq

namespace Call

/-- The key, its last word first. -/
def key (c : Call) : List Byte :=
  [3, 2, 1, 0].flatMap fun i => [(c.kw.getD i 0).extractLsb' 8 8, (c.kw.getD i 0).extractLsb' 0 8]

/-- The algorithm: A5/1 to A5/3 with a key, or 0. -/
def algo (c : Call) : Byte :=
  if 1 ≤ c.mode ∧ c.mode ≤ 3 ∧ ¬ c.key.all (· == 0) then c.mode.setWidth 8 else 0

def record (c : Call) (seq : BitVec 32) : KcRecord :=
  ⟨seq, c.algo, if c.algo = 0 then List.replicate 8 0 else c.key⟩

def cipher (c : Call) : Byte × List Byte := (c.record 0).cipher

end Call

/-- The end of `publish_kc`: open the file if need be, and write the next record. -/
def write (s : KcPublisher) (c : Call) : KcPublisher × List KcRecord :=
  if !s.fd && !c.opens then (s, [])
  else if !c.writes then ({ s with fd := false }, [])
  else
    let r := c.record (s.seq + 1)
    ({ s with fd := true, seq := s.seq + 1, last := r, haveLast := true }, [r])

/-- `publish_kc` from the sample on. -/
def sample (s : KcPublisher) (c : Call) : KcPublisher × List KcRecord :=
  let r := c.record 0
  if s.haveLast ∧ s.last.bytes.drop 4 = r.bytes.drop 4 then ({ s with clearPending := 0 }, [])
  else if c.algo = 0 ∧ s.haveLast ∧ s.last.algo ≠ 0 ∧ s.clearPending + 1 < clearGrace then
    ({ s with clearPending := s.clearPending + 1 }, [])
  else ({ s with clearPending := 0 }).write c

def publishKc (s : KcPublisher) (c : Call) : KcPublisher × List KcRecord :=
  if s.tick + 1 < publishEvery then ({ s with tick := s.tick + 1 }, [])
  else ({ s with tick := 0 }).sample c

def machine : Machine KcPublisher Call KcRecord := ⟨publishKc⟩

def samples : Machine KcPublisher Call KcRecord := ⟨sample⟩

/-- The calls that sample, `tick` calls after the last one that did. -/
def sampled : Nat → List Call → List Call
  | _, [] => []
  | tick, c :: cs =>
    if tick + 1 < publishEvery then sampled (tick + 1) cs else c :: sampled 0 cs

/-! ### Samples -/

variable {s : KcPublisher} {c : Call}

/-- The four ways a sample ends. -/
inductive Outcome (s : KcPublisher) (c : Call) : KcPublisher × List KcRecord → Prop
  /-- nothing has changed -/
  | same (h : s.haveLast = true ∧ s.last.cipher = c.cipher) :
    Outcome s c ({ s with clearPending := 0 }, [])
  /-- a clear state that may not last -/
  | waits (hnew : ¬ (s.haveLast = true ∧ s.last.cipher = c.cipher)) (hclear : c.algo = 0)
    (hciphered : s.haveLast = true ∧ s.last.algo ≠ 0) (hgrace : s.clearPending + 1 < clearGrace) :
    Outcome s c ({ s with clearPending := s.clearPending + 1 }, [])
  /-- the file could not be opened or written -/
  | fails (hnew : ¬ (s.haveLast = true ∧ s.last.cipher = c.cipher))
    (htry : c.algo = 0 → s.haveLast = true → s.last.algo ≠ 0 → clearGrace ≤ s.clearPending + 1)
    (hfile : ¬ (c.opens = true ∧ c.writes = true)) (fd : Bool) :
    Outcome s c ({ s with clearPending := 0, fd := fd }, [])
  | publishes (hnew : ¬ (s.haveLast = true ∧ s.last.cipher = c.cipher))
    (htry : c.algo = 0 → s.haveLast = true → s.last.algo ≠ 0 → clearGrace ≤ s.clearPending + 1) :
    Outcome s c
      ({ s with
          clearPending := 0
          fd := true
          seq := s.seq + 1
          last := c.record (s.seq + 1)
          haveLast := true }, [c.record (s.seq + 1)])

theorem sample_outcome (s : KcPublisher) (c : Call) : Outcome s c (s.sample c) := by
  unfold sample
  dsimp only
  simp only [KcRecord.drop_bytes, KcRecord.body_eq_iff]
  split
  case isTrue hsame => exact .same hsame
  case isFalse hnew =>
    split
    case isTrue hwait => exact .waits hnew hwait.1 ⟨hwait.2.1, hwait.2.2.1⟩ hwait.2.2.2
    case isFalse hwait =>
      have htry : c.algo = 0 → s.haveLast → s.last.algo ≠ 0 →
          clearGrace ≤ s.clearPending + 1 :=
        fun hclear hlast hciphered => not_lt.mp fun hlt => hwait ⟨hclear, hlast, hciphered, hlt⟩
      unfold write
      split
      case isTrue hopen => exact .fails hnew htry (by simp_all) s.fd
      case isFalse =>
        split
        case isTrue hwrite => exact .fails hnew htry (by simp_all) false
        case isFalse => exact .publishes hnew htry

@[simp] theorem sample_tick (s : KcPublisher) (c : Call) : (s.sample c).1.tick = s.tick := by
  have hcase := sample_outcome s c
  generalize s.sample c = r at hcase ⊢
  cases hcase <;> rfl

/-- Only every 22nd call matters. -/
theorem trace_sampled (s : KcPublisher) (calls : List Call) :
    machine.trace s calls = samples.trace { s with tick := 0 } (sampled s.tick calls) := by
  induction calls generalizing s with
  | nil => rfl
  | cons c calls ih =>
    rw [trace_cons, ih, sampled]
    dsimp only [machine, publishKc]
    split
    case isTrue => rfl
    case isFalse =>
      rw [trace_cons]
      dsimp only [samples]
      have htick := sample_tick { s with tick := 0 } c
      generalize ({ s with tick := 0 } : KcPublisher).sample c = r at htick
      obtain ⟨⟨fd, seq, last, haveLast, tick, clearPending⟩, shown⟩ := r
      obtain rfl : tick = 0 := htick
      rfl

/-- A sample that publishes nothing leaves what is remembered of the file. -/
theorem sample_nothing (h : (s.sample c).2 = []) :
    (s.sample c).1.last = s.last ∧ (s.sample c).1.haveLast = s.haveLast ∧
      (s.sample c).1.seq = s.seq := by
  have hcase := sample_outcome s c
  generalize s.sample c = r at h hcase ⊢
  cases hcase with
  | same | waits | fails => exact ⟨rfl, rfl, rfl⟩
  | publishes => cases h

/-! ### The records published -/

/-- The records so far: numbered from 1 on, each different from the one before, and the last of them
is the one remembered. -/
structure Records (rs : List KcRecord) (s : KcPublisher) : Prop where
  numbers : rs.map KcRecord.seq = (List.range rs.length).map fun k => BitVec.ofNat 32 (k + 1)
  count : s.seq = BitVec.ofNat 32 rs.length
  changes : rs.IsChain fun r r' => r.cipher ≠ r'.cipher
  remembered : rs.getLast? = if s.haveLast then some s.last else none

theorem records_step {rs : List KcRecord} (h : Records rs s) (c : Call) :
    Records (rs ++ (s.sample c).2) (s.sample c).1 := by
  have hcase := sample_outcome s c
  generalize s.sample c = r at hcase ⊢
  cases hcase with
  | same | waits | fails =>
    rw [append_nil]
    exact { h with }
  | publishes hnew =>
    have hnumber : (c.record (s.seq + 1)).seq = BitVec.ofNat 32 (rs.length + 1) := by
      show s.seq + 1 = _
      rw [h.count, BitVec.ofNat_add]
      rfl
    exact
      { numbers := by
          rw [map_append, h.numbers, length_append, length_singleton,
            range_succ, map_append, map_singleton, map_singleton, hnumber]
        count := by
          rw [length_append]
          exact hnumber
        changes := by
          rw [isChain_append]
          refine ⟨h.changes, .singleton _, fun r hlast r' hr' heq => hnew ?_⟩
          obtain rfl := Option.some.inj hr'
          rw [h.remembered] at hlast
          obtain ⟨hhave, rfl⟩ : s.haveLast ∧ s.last = r := by
            simpa [Option.mem_def] using hlast
          exact ⟨hhave, heq⟩
        remembered := List.getLast?_concat }

theorem records_run (cs : List Call) : Records (samples.trace init cs) (samples.final init cs) := by
  have hnone : Records [] init := ⟨rfl, rfl, .nil, rfl⟩
  exact Machine.history (M := samples) (I := Records) (fun _ _ c h _ => records_step h c)
    hnone (along_true init cs)

/-! ### The clear state -/

/-- The samples counted were clear, and came last. -/
theorem clearPending_run (cs : List Call) :
    (samples.final init cs).clearPending < clearGrace ∧
      ∃ before clear, cs = before ++ clear ∧
        clear.length = (samples.final init cs).clearPending ∧ ∀ c ∈ clear, c.algo = 0 := by
  induction cs using List.reverseRecOn with
  | nil => exact ⟨by decide, [], [], rfl, rfl, nofun⟩
  | append_singleton cs c ih =>
    obtain ⟨hlt, before, clear, hcs, hlength, hclear⟩ := ih
    have hgrace : 0 < clearGrace := by decide
    rw [final_append]
    have hcase := sample_outcome (samples.final init cs) c
    have hnone : ∃ before' clear', cs ++ [c] = before' ++ clear' ∧ clear'.length = 0 ∧
        ∀ c ∈ clear', c.algo = 0 := ⟨cs ++ [c], [], (append_nil _).symm, rfl, nofun⟩
    show ((samples.final init cs).sample c).1.clearPending < clearGrace ∧ ∃ before' clear',
      cs ++ [c] = before' ++ clear' ∧
        clear'.length = ((samples.final init cs).sample c).1.clearPending ∧
        ∀ c ∈ clear', c.algo = 0
    generalize (samples.final init cs).sample c = r at hcase ⊢
    cases hcase with
    | same | fails | publishes => exact ⟨hgrace, hnone⟩
    | waits hnew hclear' hciphered hlt' =>
      refine ⟨hlt', before, clear ++ [c], by rw [hcs, append_assoc], ?_, ?_⟩
      · rw [length_append, hlength]
        rfl
      · exact List.forall_mem_append.mpr ⟨hclear, List.forall_mem_singleton.mpr hclear'⟩

/-- A key is replaced by the clear state after five clear samples. -/
theorem five_clear {cs : List Call} {r r' : KcRecord}
    (hlast : (samples.trace init cs).getLast? = some r) (hciphered : r.algo ≠ 0)
    (hr' : r' ∈ ((samples.final init cs).sample c).2) (hclear : r'.algo = 0) :
    ∃ before five, cs ++ [c] = before ++ five ∧ five.length = 5 ∧ ∀ d ∈ five, d.algo = 0 := by
  obtain ⟨hlt, before, clear, hcs, hlength, hall⟩ := clearPending_run cs
  have hrecords := records_run cs
  have hcase := sample_outcome (samples.final init cs) c
  generalize samples.final init cs = s at *
  generalize s.sample c = out at hcase hr'
  cases hcase with
  | same | waits | fails => cases hr'
  | publishes hnew htry =>
    obtain rfl := List.mem_singleton.mp hr'
    rw [hrecords.remembered] at hlast
    obtain ⟨hhave, rfl⟩ : s.haveLast ∧ s.last = r := by simpa using hlast
    have hfour : clearGrace ≤ s.clearPending + 1 := htry hclear hhave hciphered
    refine ⟨before, clear ++ [c], by rw [hcs, append_assoc], ?_, ?_⟩
    · unfold clearGrace at hlt hfour
      rw [length_append, hlength, length_singleton]
      omega
    · exact List.forall_mem_append.mpr ⟨hall, List.forall_mem_singleton.mpr hclear⟩

/-! ### A change that persists -/

def Pending (x : Byte × List Byte) (s : KcPublisher) : Prop :=
  ¬ (s.haveLast = true ∧ s.last.cipher = x) ∧ s.clearPending < clearGrace

variable {x : Byte × List Byte} {cs : List Call}

section

variable (h : Pending x s)

include h

/-- A sample of `x` publishes it, or `x` is still pending. -/
theorem pending_step (hc : c.cipher = x) :
    (∃ r ∈ (s.sample c).2, r.cipher = x) ∨ Pending x (s.sample c).1 := by
  have hgrace : 0 < clearGrace := by decide
  have hcase := sample_outcome s c
  generalize s.sample c = r at hcase ⊢
  cases hcase with
  | same | fails => exact .inr ⟨h.1, hgrace⟩
  | waits _ _ _ hlt => exact .inr ⟨h.1, hlt⟩
  | publishes => exact .inl ⟨_, mem_singleton_self _, hc⟩

theorem pending_run (hcs : ∀ c ∈ cs, c.cipher = x) :
    (∃ r ∈ samples.trace s cs, r.cipher = x) ∨ Pending x (samples.final s cs) := by
  induction cs generalizing s with
  | nil => exact .inr h
  | cons c cs ih =>
    obtain ⟨hc, hcs⟩ := List.forall_mem_cons.mp hcs
    rcases pending_step h hc with ⟨r, hr, hx⟩ | hpending
    · exact .inl ⟨r, mem_append_left _ hr, hx⟩
    · refine (ih hpending hcs).imp_left ?_
      rintro ⟨r, hr, hx⟩
      exact ⟨r, mem_append_right _ hr, hx⟩

/-- The samples before `cs` either have published `x` already or leave it to `cs`. -/
theorem published_of_pending {before : List Call} (hbefore : ∀ c ∈ before, c.cipher = x)
    (hcs : ∀ s, Pending x s → ∃ r ∈ samples.trace s cs, r.cipher = x) :
    ∃ r ∈ samples.trace s (before ++ cs), r.cipher = x := by
  rw [trace_append]
  rcases pending_run h hbefore with ⟨r, hr, hx⟩ | hpending
  · exact ⟨r, mem_append_left _ hr, hx⟩
  · obtain ⟨r, hr, hx⟩ := hcs _ hpending
    exact ⟨r, mem_append_right _ hr, hx⟩

/-- A key is published by the next sample that can write the file. -/
theorem key_published (hx : x.1 ≠ 0) (hcs : ∀ c ∈ cs, c.cipher = x)
    (hok : ∃ c ∈ cs, c.opens ∧ c.writes) :
    ∃ r ∈ samples.trace s cs, r.cipher = x := by
  obtain ⟨c, hc, hfile⟩ := hok
  obtain ⟨before, after, rfl⟩ := append_of_mem hc
  refine published_of_pending h (fun d hd => hcs d (mem_append_left _ hd)) fun t ht => ?_
  have hcipher : c.cipher = x := hcs c hc
  have hcase := sample_outcome t c
  rw [trace_cons]
  show ∃ r ∈ (t.sample c).2 ++ _, r.cipher = x
  generalize t.sample c = out at hcase ⊢
  cases hcase with
  | same hsame => exact absurd ⟨hsame.1, hsame.2.trans hcipher⟩ ht.1
  | waits _ hclear => exact absurd ((congrArg Prod.fst hcipher).symm.trans hclear) hx
  | fails _ _ hfails => exact absurd hfile hfails
  | publishes => exact ⟨_, mem_cons_self, hcipher⟩

/-- Whatever changed is published once the file can be written for as many samples in a row as the
grace has left. -/
theorem change_published (hcs : ∀ c ∈ cs, c.cipher = x)
    (hok : ∀ c ∈ cs, c.opens ∧ c.writes)
    (hlength : clearGrace - s.clearPending ≤ cs.length) :
    ∃ r ∈ samples.trace s cs, r.cipher = x := by
  induction cs generalizing s with
  | nil =>
    have hlt := h.2
    rw [length_nil] at hlength
    omega
  | cons c cs ih =>
    obtain ⟨hc, hcs⟩ := List.forall_mem_cons.mp hcs
    obtain ⟨hfile, hok⟩ := List.forall_mem_cons.mp hok
    have hcase := sample_outcome s c
    rw [trace_cons]
    show ∃ r ∈ (s.sample c).2 ++ samples.trace (s.sample c).1 cs, r.cipher = x
    generalize s.sample c = out at hcase ⊢
    cases hcase with
    | same hsame => exact absurd ⟨hsame.1, hsame.2.trans hc⟩ h.1
    | waits _ _ _ hlt =>
      rw [length_cons] at hlength
      exact ih (s := { s with clearPending := s.clearPending + 1 }) ⟨h.1, hlt⟩ hcs hok
        (by dsimp only; omega)
    | fails _ _ hfails => exact absurd hfile hfails
    | publishes => exact ⟨_, mem_cons_self, hc⟩

end

/-- **Publishing.** For every sequence of calls and of outcomes of the file:

* the k-th record published has number k, and no two records in a row have the same algorithm and
  key;
* a clear record comes behind a key only after five clear samples in a row;
* a call that publishes nothing leaves the record remembered and the number as they were;
* while the sampled state `x` persists and is not the one remembered, it is published as soon as the
  file can be written: by the next such sample if it is a key, and within five such samples in a row
  in any case. -/
theorem publishKc_spec (calls : List Call) :
    let shown := machine.trace init calls
    (shown.map KcRecord.seq = (List.range shown.length).map fun k => BitVec.ofNat 32 (k + 1)) ∧
      (shown.IsChain fun r r' => r.cipher ≠ r'.cipher) ∧
      shown = samples.trace init (sampled 0 calls) ∧
      (∀ before c after, sampled 0 calls = before ++ c :: after →
        ∀ r ∈ (samples.trace init before).getLast?, r.algo ≠ 0 →
        ∀ r' ∈ (samples.step (samples.final init before) c).2, r'.algo = 0 →
        ∃ earlier five, before ++ [c] = earlier ++ five ∧ five.length = 5 ∧
          ∀ d ∈ five, d.algo = 0) ∧
      (∀ s c, (machine.step s c).2 = [] → (machine.step s c).1.last = s.last ∧
        (machine.step s c).1.haveLast = s.haveLast ∧ (machine.step s c).1.seq = s.seq) ∧
      (∀ before cs after x, sampled 0 calls = before ++ cs ++ after →
        let s := samples.final init before
        ¬ (s.haveLast = true ∧ s.last.cipher = x) → (∀ c ∈ cs, c.cipher = x) →
        (x.1 ≠ 0 ∧ (∃ c ∈ cs, c.opens = true ∧ c.writes = true)) ∨
          (∃ five, five <:+: cs ∧ five.length = 5 ∧
            ∀ c ∈ five, c.opens = true ∧ c.writes = true) →
        ∃ r ∈ samples.trace s cs, r.cipher = x) := by
  have hshown : machine.trace init calls = samples.trace init (sampled 0 calls) :=
    trace_sampled init calls
  have hrecords := records_run (sampled 0 calls)
  rw [← hshown] at hrecords
  intro shown
  refine ⟨hrecords.numbers, hrecords.changes, hshown, ?_, ?_, ?_⟩
  · intro before c after _ r hr hciphered r' hr' hclear
    exact five_clear hr hciphered hr' hclear
  · intro s c hnothing
    dsimp only [machine, publishKc] at hnothing ⊢
    by_cases hwait : s.tick + 1 < publishEvery
    · rw [if_pos hwait]
      exact ⟨rfl, rfl, rfl⟩
    · rw [if_neg hwait] at hnothing ⊢
      exact sample_nothing (s := { s with tick := 0 }) hnothing
  · intro before cs after x _ s hnew hcs hfile
    have hpending : Pending x s := ⟨hnew, (clearPending_run before).1⟩
    rcases hfile with ⟨hx, hok⟩ | ⟨five, ⟨front, back, hsplit⟩, hlength, hok⟩
    · exact key_published hpending hx hcs hok
    · obtain rfl := hsplit
      rw [append_assoc] at hcs ⊢
      obtain ⟨hfront, hfive⟩ := List.forall_mem_append.mp hcs
      refine published_of_pending hpending hfront fun t ht => ?_
      obtain ⟨r, hr, hx⟩ := change_published ht (List.forall_mem_append.mp hfive).1 hok
        (by rw [hlength]; exact Nat.sub_le _ _)
      rw [trace_append]
      exact ⟨r, mem_append_left _ hr, hx⟩

/-- A sample every 22 frames: a key, then the clear state for four samples, the key again, and the
clear state for five. The clear state is published at the end, once the file can be written. -/
theorem publishKc_spec_assignment :
    let key : Call := ⟨1, [0x1122, 0x3344, 0x5566, 0x7788], true, true⟩
    let clear : Call := ⟨0, [0x1122, 0x3344, 0x5566, 0x7788], true, true⟩
    let calls := ([key] ++ List.replicate 4 clear ++ [key] ++ List.replicate 5 clear).flatMap
      (List.replicate 22)
    machine.trace init calls = [key.record 1, clear.record 2] ∧
      (machine.trace init calls).IsChain (fun r r' => r.cipher ≠ r'.cipher) :=
  ⟨by decide +kernel, (publishKc_spec _).2.1⟩

end KcPublisher

end Qosmo
