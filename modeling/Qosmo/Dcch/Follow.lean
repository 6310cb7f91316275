import Qosmo.Dcch.Tap

/-!
# Qosmo.Dcch.Follow

The tap followed with what it ought to know.

Beside the tap run three things it does not keep itself: the frame of the last block of a
dedicated channel, the channel the TRX ought to have been told (`current`), and what it has been
told (`told`). `Consistent` relates them to the tap along every run.

* `release_iff`: a common block releases the channel as the circular distance of the two frames
  says, exactly when the 32-bit subtraction in the tap does not spoil the distance.
* `told_iff`: the TRX has been told the current channel after every event, exactly when the file
  could be written each time that channel changed. The tap does not try again.
-/

namespace Qosmo.Dcch

open Sercomm

/-! ### Following the tap -/

/-- What a `chan_nr` stands for; outside the dedicated channels of 44.004 it is a PDCH. -/
def describe (chanNr : Byte) : Kind × Byte := (dedicated chanNr).getD (.pdch, 0)

def tellOf : Option Byte → Kind × Byte × Byte
  | none => (.released, 0, 0)
  | some chanNr => ((describe chanNr).1, (describe chanNr).2, chanNr &&& 0x07)

def lastTold (told : Kind × Byte × Byte) (os : List Obs) : Kind × Byte × Byte :=
  os.foldl (fun told o => match o with
    | .dcch kind ss tn => (kind, ss, tn)
    | _ => told) told

/-- The tap, and what it ought to know. -/
structure Followed where
  tap : Tap
  /-- the frame of the last block of a dedicated channel -/
  last : Option (BitVec 32)
  /-- the last SDCCH or PDCH announced, if no release followed -/
  current : Option Byte
  told : Kind × Byte × Byte

def Followed.init : Followed := ⟨Tap.init, none, none, (.released, 0, 0)⟩

def releases (t : Tap) (e : Event) : Bool :=
  t.chan.dernierChanNr != 0xFF && (chanStep t e).1.dernierChanNr == 0xFF

/-- The current channel after the event. A TCH is no SDCCH and no PDCH. -/
def nextCurrent (f : Followed) (e : Event) : Option Byte :=
  match blockAt f.tap e with
  | some b => if b.kind.isTch then f.current else some b.chanNr
  | none => if releases f.tap e then none else f.current

def nextLast (f : Followed) (e : Event) : Option (BitVec 32) :=
  match blockAt f.tap e with
  | some b => some b.fn
  | none => f.last

def follow : Machine Followed Event Obs where
  step f e :=
    (⟨(tap.step f.tap e).1, nextLast f e, nextCurrent f e, lastTold f.told (tap.step f.tap e).2⟩,
      (tap.step f.tap e).2)

variable {f : Followed} {e : Event}

/-! ### The channel numbers -/

/-- The channels that are passed on to the TRX: SDCCH and PDCH. -/
def PassedOn (chanNr : Byte) : Prop :=
  chanNr &&& 0xE0 = 0x20 ∨ chanNr &&& 0xC0 = 0x40 ∨ chanNr &&& 0xF8 = 0xC0

instance (chanNr : Byte) : Decidable (PassedOn chanNr) := inferInstanceAs (Decidable (_ ∨ _ ∨ _))

def chanOf (m : Kind × Byte × Byte) : Byte :=
  match m.1 with
  | .sdcch4 => 0x20 ||| (m.2.1 <<< 3) ||| m.2.2
  | .sdcch8 => 0x40 ||| (m.2.1 <<< 3) ||| m.2.2
  | .pdch => 0xC0 ||| m.2.2
  | _ => 0xFF

theorem chanOf_tellOf : ∀ c : Byte, PassedOn c → chanOf (tellOf (some c)) = c := by decide +kernel

theorem PassedOn.ne : ∀ c : Byte, PassedOn c → c ≠ 0xFF ∧ c ≠ 0 := by decide +kernel

/-- Different channels are told differently. -/
theorem tellOf_inj {c c' : Option Byte} (hc : ∀ n ∈ c, PassedOn n) (hc' : ∀ n ∈ c', PassedOn n)
    (h : tellOf c = tellOf c') : c = c' := by
  have hval : ∀ c : Option Byte, (∀ n ∈ c, PassedOn n) → chanOf (tellOf c) = c.getD 0xFF := by
    rintro (_ | n) hn
    · rfl
    · exact chanOf_tellOf n (hn n rfl)
  have hget : c.getD 0xFF = c'.getD 0xFF := by rw [← hval c hc, ← hval c' hc', h]
  rcases c with _ | n <;> rcases c' with _ | n'
  · rfl
  · exact absurd hget.symm (PassedOn.ne n' (hc' n' rfl)).1
  · exact absurd hget (PassedOn.ne n (hc n rfl)).1
  · exact congrArg some hget

theorem dedicated_spec : ∀ c : Byte, ∀ k ∈ dedicated c, c ≠ 0xFF ∧ k.1 ≠ .released ∧
    describe c = k ∧ (k.1.isTch = false → PassedOn c) := by decide +kernel

theorem pdchOf_spec : ∀ tn : Byte,
    pdchOf tn ≠ 0xFF ∧ describe (pdchOf tn) = (.pdch, 0) ∧ PassedOn (pdchOf tn) := by decide +kernel

structure Block.Wf (b : Block) : Prop where
  ne : b.chanNr ≠ 0xFF
  held : b.kind ≠ .released
  describe_eq : describe b.chanNr = (b.kind, b.ss)
  passed : b.kind.isTch = false → PassedOn b.chanNr

variable {b : Block}

theorem wf_of_blockOf {m : Msg} (h : blockOf m = some b) : b.Wf := by
  cases m with
  | dlBlock fn tn =>
    cases h
    obtain ⟨hne, hdesc, hpass⟩ := pdchOf_spec tn
    exact ⟨hne, Kind.noConfusion, hdesc, fun _ => hpass⟩
  | data chanNr fn =>
    obtain ⟨k, hk, rfl⟩ := Option.map_eq_some_iff.mp h
    obtain ⟨hne, hheld, hdesc, hpass⟩ := dedicated_spec chanNr k hk
    exact ⟨hne, hheld, hdesc, hpass⟩
  | rachConf fn | other => cases h

theorem wf_of_blockAt {t : Tap} (h : blockAt t e = some b) : b.Wf := by
  obtain ⟨m, -, hm⟩ := Option.bind_eq_some_iff.mp h
  exact wf_of_blockOf hm

/-! ### What the TRX knows -/

variable {told : Kind × Byte × Byte}

theorem lastTold_of_silent {os : List Obs}
    (h : ∀ k ss tn, .dcch k ss tn ∉ os) : lastTold told os = told := by
  unfold lastTold
  induction os with
  | nil => rfl
  | cons o os ih =>
    obtain ⟨ho, hos⟩ : (∀ k ss tn, Obs.dcch k ss tn ≠ o) ∧ ∀ k ss tn, Obs.dcch k ss tn ∉ os := by
      simp only [List.mem_cons, not_or] at h
      exact ⟨fun k ss tn => (h k ss tn).1, fun k ss tn => (h k ss tn).2⟩
    rw [List.foldl_cons]
    cases o with
    | dcch k ss tn => exact absurd rfl (ho k ss tn)
    | rachConf fn | file r => exact ih hos

def Noted (trxChanNr : Byte) (told : Kind × Byte × Byte) : Prop :=
  trxChanNr = 0xFF ∧ told = tellOf none ∨ PassedOn trxChanNr ∧ told = tellOf (some trxChanNr)

theorem Noted.ne_zero {trx : Byte} (h : Noted trx told) : trx ≠ 0 := by
  rcases h with ⟨rfl, -⟩ | ⟨hpass, -⟩
  · decide
  · exact (PassedOn.ne trx hpass).2

/-- A publication that fails, or is not for the TRX, tells nothing. -/
theorem publier_silent (io : Io) (kind : Kind) (ss chanNr : Byte) (t : Channel)
    (told : Kind × Byte × Byte) (h : io ≠ .ok ∨ kind.isTch ∨ chanNr = t.trxChanNr) :
    (dcchCfgPublier io kind ss chanNr t).1.trxChanNr = t.trxChanNr ∧
      lastTold told (dcchCfgPublier io kind ss chanNr t).2 = told := by
  unfold dcchCfgPublier
  cases io with
  | openFails | writeFails => exact ⟨rfl, rfl⟩
  | ok =>
    have hskip : (!kind.isTch && chanNr != t.trxChanNr) = false := by
      rcases h with h | h | h
      · exact absurd rfl h
      · simp [h]
      · simp [h]
    dsimp only
    rw [if_neg (by simp [hskip])]
    exact ⟨rfl, rfl⟩

/-- A publication that succeeds tells a channel that was not told last. -/
theorem publier_tells (kind : Kind) (ss chanNr : Byte) (t : Channel) (told : Kind × Byte × Byte)
    (hkind : kind.isTch = false) (hnew : chanNr ≠ t.trxChanNr) :
    (dcchCfgPublier .ok kind ss chanNr t).1.trxChanNr =
        (if kind = .released then 0xFF else chanNr) ∧
      lastTold told (dcchCfgPublier .ok kind ss chanNr t).2 = (kind, ss, chanNr &&& 0x07) := by
  have htell : (!kind.isTch && chanNr != t.trxChanNr) := by simp [hkind, hnew]
  unfold dcchCfgPublier
  dsimp only
  rw [if_pos htell]
  exact ⟨rfl, rfl⟩

/-- The release is told whenever the file can be written: the tap passes `chan_nr` 0, and has
never told a channel of that number. -/
theorem release_told (io : Io) {t : Channel} (h : Noted t.trxChanNr told) :
    Noted (dcchCfgPublier io .released 0 0 t).1.trxChanNr
      (lastTold told (dcchCfgPublier io .released 0 0 t).2) ∧
    (io = .ok → lastTold told (dcchCfgPublier io .released 0 0 t).2 = tellOf none) := by
  by_cases hio : io = .ok
  · subst hio
    obtain ⟨htrx, htold⟩ := publier_tells .released 0 0 t told rfl (Ne.symm h.ne_zero)
    rw [htrx, htold]
    exact ⟨.inl ⟨rfl, rfl⟩, fun _ => rfl⟩
  · obtain ⟨htrx, htold⟩ := publier_silent io .released 0 0 t told (.inl hio)
    rw [htrx, htold]
    exact ⟨h, fun h => absurd h hio⟩

/-- A block tells its channel when that is new to the TRX and the file can be written. -/
theorem announce_told (io : Io) {t : Channel} (hb : b.Wf) (h : Noted t.trxChanNr told) :
    Noted (announce io b.kind b.ss b.chanNr b.fn t).1.trxChanNr
      (lastTold told (announce io b.kind b.ss b.chanNr b.fn t).2) ∧
    (b.kind.isTch = true ∨ io ≠ .ok ∨ b.chanNr = t.dernierChanNr →
      lastTold told (announce io b.kind b.ss b.chanNr b.fn t).2 = told) ∧
    (b.kind.isTch = false → io = .ok → b.chanNr ≠ t.dernierChanNr →
      lastTold told (announce io b.kind b.ss b.chanNr b.fn t).2 = tellOf (some b.chanNr)) := by
  have htell : tellOf (some b.chanNr) = (b.kind, b.ss, b.chanNr &&& 0x07) := by
    rw [tellOf, hb.describe_eq]
  unfold announce
  dsimp only
  by_cases hsame : b.chanNr = t.dernierChanNr
  · rw [if_neg (not_not.mpr hsame)]
    exact ⟨h, fun _ => rfl, fun _ _ hne => absurd hsame hne⟩
  rw [if_pos hsame]
  generalize hu : ({ t with
    fnDedie := b.fn, fnDedieVue := true, dernierChanNr := b.chanNr } : Channel) = u
  have htrx : u.trxChanNr = t.trxChanNr := by rw [← hu]
  rw [← htrx] at h
  by_cases htch : b.kind.isTch
  · obtain ⟨hkeep, htold⟩ := publier_silent io b.kind b.ss b.chanNr u told (.inr (.inl htch))
    rw [hkeep, htold]
    exact ⟨h, fun _ => rfl, fun hnot => Bool.noConfusion (htch.symm.trans hnot)⟩
  replace htch : b.kind.isTch = false := by simpa using htch
  by_cases hio : io = .ok
  · subst hio
    by_cases hnew : b.chanNr = u.trxChanNr
    · -- the way back from a TCH to the same SDCCH
      obtain ⟨hkeep, htold⟩ := publier_silent .ok b.kind b.ss b.chanNr u told (.inr (.inr hnew))
      rw [hkeep, htold]
      refine ⟨h, fun _ => rfl, fun _ _ _ => ?_⟩
      rcases h with ⟨hff, -⟩ | ⟨-, heq⟩
      · exact absurd (hnew.trans hff) hb.ne
      · rw [heq, hnew]
    · obtain ⟨hset, htold⟩ := publier_tells b.kind b.ss b.chanNr u told htch hnew
      rw [hset, htold, if_neg hb.held]
      refine ⟨.inr ⟨hb.passed htch, htell.symm⟩, ?_, fun _ _ _ => htell.symm⟩
      rintro (h | h | h)
      · exact absurd (htch.symm.trans h) Bool.false_ne_true
      · exact absurd rfl h
      · exact absurd h hsame
  · obtain ⟨hkeep, htold⟩ := publier_silent io b.kind b.ss b.chanNr u told (.inl hio)
    rw [hkeep, htold]
    exact ⟨h, fun _ => rfl, fun _ hok => absurd hok hio⟩

/-! ### The tap and the followers agree -/

/-- What holds of the tap and its followers after every event. -/
structure Consistent (f : Followed) : Prop where
  /-- no channel is current while none is armed -/
  free : f.tap.chan.dernierChanNr = 0xFF → f.current = none
  /-- an armed SDCCH or PDCH is the current channel -/
  armed : f.tap.chan.dernierChanNr ≠ 0xFF →
    (describe f.tap.chan.dernierChanNr).1.isTch = false →
    f.current = some f.tap.chan.dernierChanNr
  passed : ∀ n ∈ f.current, PassedOn n
  noted : Noted f.tap.chan.trxChanNr f.told
  /-- the tap has the frame of the last block of the armed channel -/
  seen : f.tap.chan.dernierChanNr ≠ 0xFF →
    f.tap.chan.fnDedieVue = true ∧ f.last = some f.tap.chan.fnDedie

theorem consistent_init : Consistent Followed.init where
  free _ := rfl
  armed h := absurd rfl h
  passed n h := by cases h
  noted := .inl ⟨rfl, rfl⟩
  seen h := absurd rfl h

/-- What an event does to the tap and its followers. -/
inductive Moves (f : Followed) (e : Event) : Followed → Prop where
  | announce {b : Block} {t : Tap} : b.Wf → blockAt f.tap e = some b →
      t.chan = (announce e.io b.kind b.ss b.chanNr b.fn f.tap.chan).1 →
      Moves f e ⟨t, some b.fn, if b.kind.isTch then f.current else some b.chanNr,
        lastTold f.told (Dcch.announce e.io b.kind b.ss b.chanNr b.fn f.tap.chan).2⟩
  | release {vue : Bool} {c : Channel} {t : Tap} : f.tap.chan.dernierChanNr ≠ 0xFF →
      c = { f.tap.chan with dernierChanNr := 0xFF, fnDedieVue := vue } →
      t.chan = (dcchCfgPublier e.io .released 0 0 c).1 →
      Moves f e ⟨t, f.last, none, lastTold f.told (dcchCfgPublier e.io .released 0 0 c).2⟩
  | nothing {t : Tap} : t.chan = f.tap.chan → Moves f e ⟨t, f.last, f.current, f.told⟩

theorem releases_iff {t : Tap} : releases t e ↔
    t.chan.dernierChanNr ≠ 0xFF ∧ (chanStep t e).1.dernierChanNr = 0xFF := by
  simp only [releases, Bool.and_eq_true, bne_iff_ne, beq_iff_eq]

theorem moves_step (f : Followed) (e : Event) : Moves f e (follow.step f e).1 := by
  have hrel := releases_iff (t := f.tap) (e := e)
  have hdoes := does_chanStep f.tap e
  have hstep : (follow.step f e).1 = ⟨⟨rxAfter f.tap e, (chanStep f.tap e).1⟩,
    nextLast f e, nextCurrent f e, lastTold f.told (chanStep f.tap e).2⟩ := rfl
  generalize chanStep f.tap e = r at hdoes hrel hstep
  rw [hstep]
  cases hdoes with
  | announce hb =>
    simp only [nextLast, nextCurrent, hb]
    exact .announce (wf_of_blockAt hb) hb rfl
  | @release vue hb harmed =>
    rw [(publier_chan ..).1] at hrel
    have hfree : releases f.tap e := hrel.mpr ⟨harmed, rfl⟩
    simp only [nextLast, nextCurrent, hb, hfree]
    exact .release harmed rfl rfl
  | nothing hb hsilent =>
    have hstay : releases f.tap e = false := by
      rw [← Bool.not_eq_true, hrel]
      exact fun h => h.1 h.2
    simp only [nextLast, nextCurrent, hb, hstay, lastTold_of_silent hsilent]
    exact .nothing rfl

theorem consistent_step (f : Followed) (e : Event) (h : Consistent f) :
    Consistent (follow.step f e).1 := by
  have hmoves := moves_step f e
  generalize (follow.step f e).1 = f' at hmoves
  cases hmoves with
  | @announce b t hwf hb ht =>
    obtain ⟨hdernier, hfn, hvue⟩ := announce_chan e.io b.kind b.ss b.chanNr b.fn f.tap.chan
    obtain ⟨hnoted, -, -⟩ := announce_told e.io hwf h.noted
    rw [← ht] at hdernier hfn hvue hnoted
    refine ⟨fun hff => absurd (hdernier.symm.trans hff) hwf.ne, fun _ hkind => ?_, fun n hn => ?_,
      hnoted, fun _ => ⟨hvue, congrArg some hfn.symm⟩⟩
    · rw [hdernier, hwf.describe_eq] at hkind
      rw [hdernier, if_neg (by rw [hkind]; decide)]
    · split at hn
      · exact h.passed n hn
      · rename_i hkind
        cases hn
        exact hwf.passed (by simpa using hkind)
  | @release vue c t harmed hc ht =>
    have hdernier := (publier_chan e.io .released 0 0 c).1
    have hnoted := (release_told e.io (t := c) (by rw [hc]; exact h.noted)).1
    rw [← ht] at hdernier hnoted
    have hfree : t.chan.dernierChanNr = 0xFF := by rw [hdernier, hc]
    exact ⟨fun _ => rfl, fun hne => absurd hfree hne, fun n hn => (by cases hn), hnoted,
      fun hne => absurd hfree hne⟩
  | nothing ht =>
    refine ⟨?_, ?_, h.passed, ?_, ?_⟩ <;> rw [ht]
    exacts [h.free, h.armed, h.noted, h.seen]

/-! ### The channel told is the current one -/

def Told (f : Followed) : Prop := f.told = tellOf f.current

/-- With the file written, the TRX is told whatever becomes current. -/
theorem told_of_ok (h : Consistent f) (ht : Told f) (hio : e.io = .ok) :
    Told (follow.step f e).1 := by
  have hmoves := moves_step f e
  generalize (follow.step f e).1 = f' at hmoves
  cases hmoves with
  | @announce b t hwf hb _ =>
    obtain ⟨-, hkeep, htell⟩ := announce_told e.io hwf h.noted
    unfold Told
    dsimp only
    cases hkind : b.kind.isTch with
    | true =>
      rw [if_pos rfl, hkeep (.inl hkind)]
      exact ht
    | false =>
      rw [if_neg Bool.false_ne_true]
      by_cases hsame : b.chanNr = f.tap.chan.dernierChanNr
      · -- a further block of the channel that is current already
        have hcurrent := h.armed (hsame ▸ hwf.ne) (by rw [← hsame, hwf.describe_eq]; exact hkind)
        rw [hkeep (.inr (.inr hsame)), hsame, ← hcurrent]
        exact ht
      · exact htell hkind hio hsame
  | @release vue c t harmed hc _ =>
    exact (release_told e.io (t := c) (by rw [hc]; exact h.noted)).2 hio
  | nothing _ => exact ht

theorem told_of_failed (h : Consistent f) (hio : e.io ≠ .ok) :
    (follow.step f e).1.told = f.told := by
  have hmoves := moves_step f e
  generalize (follow.step f e).1 = f' at hmoves
  cases hmoves with
  | announce hwf hb _ => exact (announce_told e.io hwf h.noted).2.1 (.inr (.inl hio))
  | release _ _ _ => exact (publier_silent e.io .released 0 0 _ f.told (.inl hio)).2
  | nothing _ => rfl

/-- The file could be written if the current channel changed. -/
def PublishedOnChange (f : Followed) (e : Event) : Prop :=
  nextCurrent f e ≠ f.current → e.io = .ok

theorem told_step (h : Consistent f) (ht : Told f) :
    Told (follow.step f e).1 ↔ PublishedOnChange f e := by
  by_cases hio : e.io = .ok
  · exact ⟨fun _ _ => hio, fun _ => told_of_ok h ht hio⟩
  · have hnext := (consistent_step f e h).passed
    unfold Told
    rw [told_of_failed h hio, ht]
    constructor
    · intro heq hchange
      exact absurd (tellOf_inj h.passed hnext heq).symm hchange
    · intro hpub
      by_contra hne
      exact hio (hpub fun heq => hne (congrArg tellOf heq.symm))

/-- After every event the TRX has been told the current channel, exactly when the file could be
opened and written each time that channel changed. -/
theorem told_iff (es : List Event) :
    (∀ es', es' <+: es → Told (follow.final Followed.init es')) ↔
      follow.Along PublishedOnChange Followed.init es := by
  have hall := fun es' => Machine.invariant (M := follow) (C := fun _ _ => True)
    (fun f e h _ => consistent_step f e h) consistent_init
    (Machine.along_true Followed.init es')
  rw [← Machine.invariant_iff (I := fun f => Consistent f ∧ Told f)
    (fun f e h => by
      rw [and_iff_right (consistent_step f e h.1)]
      exact told_step h.1 h.2) ⟨consistent_init, rfl⟩]
  exact forall₂_congr fun es' _ => (and_iff_right (hall es')).symm

def line (io : Io) (buf : List Byte) : List Event :=
  ([flag] ++ buf ++ [flag]).map (.byte · io)

/-- `L1CTL_DATA_IND`, without its data. -/
def dataInd (chanNr : Byte) (fn : BitVec 32) : List Byte :=
  [dlciL1ctl, 0x03, 0x03, 0, 0, 0, chanNr, 0, 0, 0,
    (fn >>> 24).setWidth 8, (fn >>> 16).setWidth 8, (fn >>> 8).setWidth 8, fn.setWidth 8]

/-- The file cannot be opened at the first block of an SDCCH, and can at the second: the tap takes
the channel as published and the TRX is not told. -/
theorem failed_publication_not_repeated :
    ¬ Told (follow.final Followed.init
      (line .openFails (dataInd 0x21 1000) ++ line .ok (dataInd 0x21 1051))) := by
  unfold Told
  decide +kernel

/-! ### When a common block releases the channel -/

def Msg.frame : Msg → Option (BitVec 32)
  | .rachConf fn => some fn
  | .dlBlock fn _ => some fn
  | .data _ fn => some fn
  | .other => none

/-- How many frames `fn` lies after `last`, around the hyperframe. -/
def circular (fn last : BitVec 32) : Nat := (fn.toNat + hyperframe - last.toNat) % hyperframe

/-- The distance at which a common block means that the dedicated channel is left. -/
def Later (distance : Nat) : Prop := libereApresTrames ≤ distance ∧ distance < hyperframe / 2

instance (distance : Nat) : Decidable (Later distance) := inferInstanceAs (Decidable (_ ∧ _))

/-- The pairs of frames for which the tap's distance says the same as the circular one. Going
back by `last - fn` frames, it is off by the 1527808 frames that 2³² leaves modulo the
hyperframe. -/
def Unspoilt (fn last : BitVec 32) : Prop :=
  last.toNat ≤ fn.toNat ∨
  last.toNat - fn.toNat ≤ 169984 ∨
  (1357825 ≤ last.toNat - fn.toNat ∧ last.toNat - fn.toNat ≤ 1527708) ∨
  2715549 ≤ last.toNat - fn.toNat

instance (fn last : BitVec 32) : Decidable (Unspoilt fn last) :=
  inferInstanceAs (Decidable (_ ∨ _ ∨ _ ∨ _))

variable {fn : BitVec 32}

theorem later_ecart_iff {last : BitVec 32} (hfn : fn.toNat < hyperframe)
    (hlast : last.toNat < hyperframe) :
    (Later (ecart fn last) ↔ Later (circular fn last)) ↔ Unspoilt fn last := by
  unfold Later Unspoilt ecart circular libereApresTrames
  rw [BitVec.toNat_sub]
  unfold hyperframe at *
  generalize fn.toNat = a at *
  generalize last.toNat = b at *
  by_cases hle : b ≤ a
  · have hword : (2 ^ 32 - b + a) % 2 ^ 32 = a - b := by omega
    have hcirc : (a + 2715648 - b) % 2715648 = a - b := by omega
    rw [hword, hcirc]
    omega
  · have hword : (2 ^ 32 - b + a) % 2 ^ 32 = 2 ^ 32 - (b - a) := by omega
    have hcirc : (a + 2715648 - b) % 2715648 = 2715648 - (b - a) := by omega
    rw [hword, hcirc]
    omega

/-- The frame of the block on a common channel that the event completes while a dedicated one is
armed. -/
def commonBlock (f : Followed) (e : Event) : Option (BitVec 32) :=
  match completes f.tap e with
  | some (.data chanNr fn) =>
    if f.tap.chan.dernierChanNr ≠ 0xFF ∧ isCommon chanNr then some fn else none
  | _ => none

/-- A common block releases the channel as the circular distance from the last block of the
dedicated channel says. -/
def ReleasesExactly (f : Followed) (e : Event) : Prop :=
  ∀ fn ∈ commonBlock f e, ∃ last ∈ f.last, (releases f.tap e = true ↔ Later (circular fn last))

/-- The distance of a common block is not spoilt. -/
def WrapFree (f : Followed) (e : Event) : Prop :=
  ∀ fn ∈ commonBlock f e, ∀ last ∈ f.last, Unspoilt fn last

def FrameBelow (f : Followed) (e : Event) : Prop :=
  ∀ m ∈ completes f.tap e, ∀ fn ∈ m.frame, fn.toNat < hyperframe

instance (f : Followed) (e : Event) : Decidable (ReleasesExactly f e) :=
  decidable_of_iff ((commonBlock f e).all fun fn =>
    f.last.any fun last => decide (releases f.tap e = true ↔ Later (circular fn last)))
    (by simp only [ReleasesExactly, Option.all_eq_true, Option.any_eq_true, decide_eq_true_eq,
      Option.mem_def])

instance (f : Followed) (e : Event) : Decidable (WrapFree f e) :=
  decidable_of_iff ((commonBlock f e).all fun fn => f.last.all fun last => Unspoilt fn last)
    (by simp only [WrapFree, Option.all_eq_true, decide_eq_true_eq, Option.mem_def])

instance (f : Followed) (e : Event) : Decidable (FrameBelow f e) :=
  decidable_of_iff ((completes f.tap e).all fun m => m.frame.all fun fn => fn.toNat < hyperframe)
    (by simp only [FrameBelow, Option.all_eq_true, decide_eq_true_eq, Option.mem_def])

theorem commonBlock_spec (h : commonBlock f e = some fn) :
    f.tap.chan.dernierChanNr ≠ 0xFF ∧
      ∃ chanNr, completes f.tap e = some (.data chanNr fn) ∧ isCommon chanNr := by
  unfold commonBlock at h
  split at h
  · rename_i chanNr fn' hm
    obtain ⟨⟨harmed, hcommon⟩, hfn⟩ := Option.ite_none_right_eq_some.mp h
    cases hfn
    exact ⟨harmed, chanNr, hm, hcommon⟩
  · cases h

theorem not_dedicated_of_common : ∀ c : Byte, isCommon c → dedicated c = none := by
  decide +kernel

/-- The tap goes by its own distance. -/
theorem releases_common (h : commonBlock f e = some fn) (hvue : f.tap.chan.fnDedieVue) :
    releases f.tap e ↔ Later (ecart fn f.tap.chan.fnDedie) := by
  obtain ⟨harmed, chanNr, hm, hcommon⟩ := commonBlock_spec h
  rw [releases_iff, and_iff_right harmed]
  cases e with
  | reset io => cases hm
  | byte b io =>
    simp only [chanStep, hm, handle, not_dedicated_of_common chanNr hcommon]
    by_cases hlater : Later (ecart fn f.tap.chan.fnDedie)
    · rw [if_pos ⟨harmed, hcommon, .inr hlater⟩, (publier_chan ..).1]
      exact ⟨fun _ => hlater, fun _ => rfl⟩
    · rw [if_neg]
      · exact ⟨fun h => absurd h harmed, fun h => absurd h hlater⟩
      · rintro ⟨-, -, hunseen | h⟩
        · exact Bool.noConfusion (hvue.symm.trans hunseen)
        · exact hlater h

/-- What is known along a run whose frame numbers are those of a hyperframe. -/
def Framed (f : Followed) : Prop :=
  Consistent f ∧ ∀ last ∈ f.last, last.toNat < hyperframe

theorem fn_of_block {m : Msg} (h : blockOf m = some b) : m.frame = some b.fn := by
  cases m with
  | dlBlock fn tn =>
    cases h
    rfl
  | data chanNr fn =>
    obtain ⟨k, -, rfl⟩ := Option.map_eq_some_iff.mp h
    rfl
  | rachConf fn | other => cases h

theorem framed_step (f : Followed) (e : Event) (h : Framed f) (hfn : FrameBelow f e) :
    Framed (follow.step f e).1 := by
  refine ⟨consistent_step f e h.1, fun last hlast => ?_⟩
  have hmoves := moves_step f e
  generalize (follow.step f e).1 = f' at hmoves hlast
  cases hmoves with
  | announce hwf hb _ =>
    obtain ⟨m, hm, hblock⟩ := Option.bind_eq_some_iff.mp hb
    cases hlast
    exact hfn m hm _ (fn_of_block hblock)
  | release _ _ _ | nothing _ => exact h.2 last hlast

theorem releasesExactly_iff (h : Framed f) (hfn : FrameBelow f e) :
    ReleasesExactly f e ↔ WrapFree f e := by
  refine forall₂_congr fun fn hblock => ?_
  obtain ⟨harmed, chanNr, hm, -⟩ := commonBlock_spec hblock
  obtain ⟨hvue, hlast⟩ := h.1.seen harmed
  have hbelow : fn.toNat < hyperframe := hfn _ hm fn rfl
  have hiff := later_ecart_iff hbelow (h.2 _ hlast)
  rw [hlast, releases_common hblock hvue]
  constructor
  · rintro ⟨last, hsome, hexact⟩ last' rfl'
    cases hsome
    cases rfl'
    exact hiff.mp hexact
  · intro hwrap
    exact ⟨_, rfl, hiff.mpr (hwrap _ rfl)⟩

/-- In a run whose frame numbers are those of a hyperframe, every common block releases the
dedicated channel exactly when it lies 100 frames or more, and less than half a hyperframe,
circularly after the last block of that channel, if and only if no such block comes at a distance
that the 32-bit subtraction spoils. -/
theorem release_iff (es : List Event) (hfn : follow.Along FrameBelow Followed.init es) :
    follow.Along ReleasesExactly Followed.init es ↔ follow.Along WrapFree Followed.init es :=
  Machine.Along.congr (I := Framed) (fun _ _ h hfn => releasesExactly_iff h hfn)
    (fun f e h hfn _ => framed_step f e h hfn) ⟨consistent_init, fun _ h => by cases h⟩ hfn

def leaving (fnDedie fn : BitVec 32) : List Event :=
  line .ok (dataInd 0x21 fnDedie) ++ line .ok (dataInd 0x90 fn)

theorem release_iff_after_hundred :
    follow.Along WrapFree Followed.init (leaving 2715500 2715600) ∧
    follow.Along ReleasesExactly Followed.init (leaving 2715500 2715600) ∧
    (follow.final Followed.init (leaving 2715500 2715600)).current = none :=
  have hwrap : follow.Along WrapFree Followed.init (leaving 2715500 2715600) := by decide +kernel
  ⟨hwrap, (release_iff _ (by decide +kernel)).mpr hwrap, by decide +kernel⟩

/-- The common block 100 frames later is on the other side of the wrap: the tap keeps the channel.
With the dedicated block in frame 169985 and the common one in frame 0, which is earlier, the tap
releases it. -/
theorem release_missed_across_wrap :
    (follow.Along FrameBelow Followed.init (leaving 2715600 52) ∧
      ¬ follow.Along ReleasesExactly Followed.init (leaving 2715600 52)) ∧
    (follow.Along FrameBelow Followed.init (leaving 169985 0) ∧
      ¬ follow.Along ReleasesExactly Followed.init (leaving 169985 0)) := by decide +kernel

end Qosmo.Dcch
