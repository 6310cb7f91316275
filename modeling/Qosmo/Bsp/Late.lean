import Qosmo.Bsp.Queue
import Qosmo.Bsp.Stream

/-!
# Qosmo.Bsp.Late

The most recent frame of the BTS, and the wait for a frame that is late.

`g_ts0_fn_max` is compared with a frame received and with the frame wanted by a signed 32-bit
difference. That is the distance of two frames of one hyperframe, and not of two frames on either
side of its end: there the other distances of the file go around (`bsp_fn_delta`, and the arrival
margin in `bsp_ts0_stocker` itself). Beside the stream runs the frame that is the latest around the
hyperframe (`Followed`); `late_iff` says in which runs the two keep together.
-/

namespace Qosmo.Bsp

namespace Stream

/-! ### Following the frames received -/

/-- The frame of a burst of TS0. -/
def ts0Frame : Event → Option (BitVec 32)
  | .packet buf => (burst buf).bind fun b => if b.1 = 0 then some b.2.1 else none
  | _ => none

/-- The latest of the frames received, with one more. The later one of two frames is the one that
has the other less than half a hyperframe behind it. -/
def later (latest : Option Nat) (fn : Nat) : Nat :=
  latest.elim fn fun l => if 0 < behind l fn ∧ behind l fn < hyperframe / 2 then fn else l

/-- The stream, and the latest of the frames of TS0 it has received. -/
structure Followed where
  stream : Stream
  latest : Option Nat

def Followed.init : Followed := ⟨Stream.init, none⟩

def follow (g : Setup) : Machine Followed Event Obs where
  step f e :=
    (⟨((machine g).step f.stream e).1,
      (ts0Frame e).elim f.latest fun fn => some (later f.latest fn.toNat)⟩,
      ((machine g).step f.stream e).2)

/-- The frame an event has to wait for: waiting is enabled, the frame is absent, and it is 1 to 200
frames ahead of the latest. -/
def due (g : Setup) (f : Followed) : Event → Option (BitVec 32)
  | .service tickFn => (f.stream.wanted tickFn).filter fun w =>
    mayWait g f.stream && !f.stream.present w &&
      f.latest.any fun l => 1 ≤ behind l w.toNat && behind l w.toNat ≤ 200
  | _ => none

def entered (os : List Obs) : List (BitVec 32) :=
  os.filterMap fun o => match o with
    | .attente w => some w
    | _ => none

/-- The recorded frame is the latest. -/
def Recorded (f : Followed) : Prop := ∀ l ∈ f.latest, f.stream.ts0FnMax.toNat = l

/-- After the event the recorded frame is the latest, and the event waits as it has to. -/
def Exact (g : Setup) (f : Followed) (e : Event) : Prop :=
  Recorded ((follow g).step f e).1 ∧ entered ((follow g).step f e).2 = (due g f e).toList

/-- A frame received lies less than half a hyperframe ahead of the latest. -/
def Advances (f : Followed) (e : Event) : Prop :=
  ∀ fn ∈ ts0Frame e, fn.toNat < hyperframe ∧ ∀ l ∈ f.latest, behind l fn.toNat < hyperframe / 2

/-- No frame received, and none to wait for, lies past the end of the hyperframe of the latest. -/
def WithinHyperframe (g : Setup) (f : Followed) (e : Event) : Prop :=
  (∀ fn ∈ ts0Frame e, ∀ l ∈ f.latest, l ≤ fn.toNat) ∧ ∀ w ∈ due g f e, ∀ l ∈ f.latest, l ≤ w.toNat

instance (f : Followed) (e : Event) : Decidable (Advances f e) :=
  decidable_of_iff ((ts0Frame e).all fun fn =>
    decide (fn.toNat < hyperframe) && f.latest.all fun l => behind l fn.toNat < hyperframe / 2)
    (by simp only [Advances, Option.all_eq_true, Bool.and_eq_true, decide_eq_true_eq,
      Option.mem_def])

instance (g : Setup) (f : Followed) (e : Event) : Decidable (WithinHyperframe g f e) :=
  decidable_of_iff
    (((ts0Frame e).all fun fn => f.latest.all fun l => decide (l ≤ fn.toNat)) = true ∧
      ((due g f e).all fun w => f.latest.all fun l => decide (l ≤ w.toNat)) = true)
    (by simp only [WithinHyperframe, Option.all_eq_true, decide_eq_true_eq, Option.mem_def])

variable {g : Setup} {s : Stream} {f : Followed} {e : Event}

/-! ### The two distances -/

theorem toInt_sub {a b : BitVec 32} (ha : a.toNat < hyperframe) (hb : b.toNat < hyperframe) :
    (a - b).toInt = (a.toNat : Int) - b.toNat := by
  rw [BitVec.toInt_eq_toNat_cond, BitVec.toNat_sub]
  unfold hyperframe at ha hb
  split <;> omega

variable {l : Nat}

theorem behind_of_le {fn : Nat} (hfn : fn < hyperframe) (h : l ≤ fn) : behind l fn = fn - l := by
  unfold behind hyperframe at *
  omega

/-- Within a hyperframe the code looks for the frames that are 1 to 200 ahead. -/
theorem devant_eq_of_le {w : Nat} (hw : w < hyperframe) (h : l ≤ w) :
    decide (0 < (w : Int) - l ∧ (w : Int) - l ≤ 200) =
      (decide (1 ≤ behind l w) && decide (behind l w ≤ 200)) := by
  have hsame : (0 < (w : Int) - l ∧ (w : Int) - l ≤ 200) ↔ (1 ≤ w - l ∧ w - l ≤ 200) := by omega
  rw [behind_of_le hw h, ← Bool.decide_and, decide_eq_decide.mpr hsame]

/-! ### What the events do -/

variable {fn : BitVec 32}

theorem step_of_ts0 (h : ts0Frame e = some fn) :
    ∃ bits, ((machine g).step s e) = (s.ts0Stocker fn bits, []) := by
  cases e with
  | packet buf =>
    obtain ⟨⟨tn, fn', bits⟩, hburst, hfn⟩ := Option.bind_eq_some_iff.mp h
    obtain ⟨rfl, hfn⟩ := Option.ite_none_right_eq_some.mp hfn
    cases hfn
    refine ⟨bits, ?_⟩
    show (s.receive buf, []) = _
    rw [receive, hburst]
    rfl
  | setDedie _ _ | takeTs1 _ | offset _ _ | service _ | drained | expired => cases h

theorem autresStocker_ts0 {tn : Nat} {bits : Bits} :
    (s.autresStocker fn tn bits).ts0FnMax = s.ts0FnMax ∧
      (s.autresStocker fn tn bits).ts0Any = s.ts0Any := by
  unfold autresStocker
  split <;> exact ⟨rfl, rfl⟩

/-- Everything but a burst of TS0 leaves the recorded frame. -/
theorem step_of_not_ts0 (h : ts0Frame e = none) :
    ((machine g).step s e).1.ts0FnMax = s.ts0FnMax ∧
      ((machine g).step s e).1.ts0Any = s.ts0Any := by
  have hwaits := step_of_waits g s e
  cases e with
  | packet buf =>
    show (s.receive buf).ts0FnMax = _ ∧ (s.receive buf).ts0Any = _
    unfold receive
    cases hburst : burst buf with
    | none => exact ⟨rfl, rfl⟩
    | some b =>
      obtain ⟨tn, fn, bits⟩ := b
      have htn : tn ≠ 0 := by
        rintro rfl
        simp [ts0Frame, hburst] at h
      dsimp only
      rw [if_neg htn, autresStocker_ts0.1, autresStocker_ts0.2]
      split <;> exact ⟨rfl, rfl⟩
  | setDedie tn genre =>
    show (s.setDedie tn genre).ts0FnMax = _ ∧ (s.setDedie tn genre).ts0Any = _
    unfold setDedie
    split <;> exact ⟨rfl, rfl⟩
  | takeTs1 w =>
    show (s.takeTs1 w).ts0FnMax = _ ∧ (s.takeTs1 w).ts0Any = _
    unfold takeTs1
    dsimp only
    split <;> exact ⟨rfl, rfl⟩
  | offset _ _ => exact ⟨rfl, rfl⟩
  | service | drained | expired =>
    obtain ⟨w, hw⟩ := hwaits rfl
    exact ⟨(congrArg ts0FnMax hw).trans rfl, (congrArg ts0Any hw).trans rfl⟩

/-- A service enters a wait by the code's distance. -/
theorem entered_service (tickFn : BitVec 32) : entered (attendreTrame g s tickFn).2 =
    ((s.wanted tickFn).filter fun w => mayWait g s && !s.present w &&
      decide (0 < (w - s.ts0FnMax).toInt ∧ (w - s.ts0FnMax).toInt ≤ 200)).toList := by
  unfold attendreTrame
  cases s.wanted tickFn with
  | none => rfl
  | some w =>
    dsimp only
    rw [Option.filter_some]
    cases mayWait g s with
    | false => rfl
    | true =>
      cases s.present w with
      | true => rfl
      | false =>
        by_cases hdevant : (w - s.ts0FnMax).toInt ≤ 0 ∨ 200 < (w - s.ts0FnMax).toInt
        · rw [if_neg (by decide), if_pos hdevant, decide_eq_false (by omega)]
          rfl
        · rw [if_neg (by decide), if_neg hdevant, decide_eq_true (by omega)]
          rfl

theorem entered_drained : entered s.drained.2 = [] := by
  unfold drained
  split
  · split <;> rfl
  · rfl

theorem entered_expired : entered s.expired.2 = [] := by
  unfold expired
  split <;> rfl

theorem wanted_lt {tickFn w : BitVec 32} (h : s.wanted tickFn = some w) : w.toNat < hyperframe := by
  obtain ⟨offset, -, rfl⟩ := Option.map_eq_some_iff.mp h
  rw [BitVec.toNat_ofInt]
  unfold fnMax hyperframe
  omega

/-! ### The recorded frame and the latest -/

/-- What holds of the stream and the latest frame in between. -/
structure Tracks (f : Followed) : Prop where
  recorded : Recorded f
  any : f.stream.ts0Any = f.latest.isSome
  below : ∀ l ∈ f.latest, l < hyperframe

theorem tracks_init : Tracks Followed.init where
  recorded l h := by cases h
  any := rfl
  below l h := by cases h

/-- The code records the larger frame number. -/
theorem ts0Stocker_fnMax (hany : s.ts0Any) (hfn : fn.toNat < hyperframe)
    (hmax : s.ts0FnMax.toNat < hyperframe) (bits : Bits) :
    (s.ts0Stocker fn bits).ts0FnMax =
      if s.ts0FnMax.toNat < fn.toNat then fn else s.ts0FnMax := by
  unfold ts0Stocker
  dsimp only
  rw [hany, toInt_sub hfn hmax]
  simp [Int.sub_pos]

theorem later_of_advance {fn : Nat} (hl : l < hyperframe) (hfn : fn < hyperframe)
    (h : behind l fn < hyperframe / 2) : later (some l) fn = fn := by
  unfold later
  rw [Option.elim_some]
  by_cases hpos : 0 < behind l fn
  · rw [if_pos ⟨hpos, h⟩]
  · -- the frame of the latest again
    rw [if_neg fun hc => hpos hc.1]
    unfold behind hyperframe at *
    omega

/-- A frame that advances is recorded unless its number is smaller. -/
theorem fnMax_eq_iff {bits : Bits} (hany : s.ts0Any)
    (hmax : s.ts0FnMax.toNat = l) (hl : l < hyperframe) (hfn : fn.toNat < hyperframe) :
    (s.ts0Stocker fn bits).ts0FnMax.toNat = fn.toNat ↔ l ≤ fn.toNat := by
  rw [ts0Stocker_fnMax hany hfn (hmax ▸ hl), hmax]
  by_cases hlt : l < fn.toNat
  · rw [if_pos hlt]
    exact iff_of_true rfl (Nat.le_of_lt hlt)
  · rw [if_neg hlt, hmax]
    omega

/-- A burst keeps the recorded frame the latest if it comes from the same hyperframe. -/
theorem recorded_iff (h : Tracks f) (ha : Advances f e) :
    Recorded ((follow g).step f e).1 ↔ ∀ fn ∈ ts0Frame e, ∀ l ∈ f.latest, l ≤ fn.toNat := by
  obtain ⟨s, latest⟩ := f
  cases hfn : ts0Frame e with
  | none =>
    have hkeep : Recorded ((follow g).step ⟨s, latest⟩ e).1 := by
      unfold Recorded follow
      dsimp only
      rw [hfn, (step_of_not_ts0 hfn).1]
      exact h.recorded
    exact iff_of_true hkeep fun fn hmem => (by cases hmem)
  | some fn =>
    obtain ⟨bits, hstep⟩ := step_of_ts0 (g := g) (s := s) hfn
    obtain ⟨hlt, hahead⟩ := ha fn hfn
    have hafter : Recorded ((follow g).step ⟨s, latest⟩ e).1 ↔
        (s.ts0Stocker fn bits).ts0FnMax.toNat = later latest fn.toNat := by
      unfold Recorded follow
      dsimp only
      rw [hfn, hstep]
      exact ⟨fun hrec => hrec _ rfl, fun heq l hl => heq.trans (Option.some.inj hl)⟩
    rw [hafter]
    cases latest with
    | none =>
      -- the first frame
      have hany : s.ts0Any = false := h.any
      refine iff_of_true ?_ fun _ _ l hl => (by cases hl)
      simp [ts0Stocker, later, hany]
    | some l =>
      have hany : s.ts0Any := h.any
      have hmax : s.ts0FnMax.toNat = l := h.recorded l rfl
      have hl : l < hyperframe := h.below l rfl
      have hhalf : behind l fn.toNat < hyperframe / 2 := hahead l rfl
      rw [later_of_advance hl hlt hhalf, fnMax_eq_iff hany hmax hl hlt]
      constructor
      · intro hle fn' hfn' l' hl'
        cases hfn'
        cases hl'
        exact hle
      · intro hle
        exact hle fn rfl l rfl

/-- Nothing is waited for before the first frame. -/
theorem Tracks.latest_of_mayWait (h : Tracks f) (hon : mayWait g f.stream) :
    ∃ l, f.latest = some l := by
  have hany : f.stream.ts0Any := by
    simp only [mayWait, Bool.and_eq_true] at hon
    exact hon.1.1.2
  rw [h.any] at hany
  exact Option.isSome_iff_exists.mp hany

/-- A wait is entered when it is due if the frame is in the same hyperframe as the latest. -/
theorem entered_iff (h : Tracks f) :
    entered ((follow g).step f e).2 = (due g f e).toList ↔
      ∀ w ∈ due g f e, ∀ l ∈ f.latest, l ≤ w.toNat := by
  cases e with
  | service tickFn =>
    show entered (attendreTrame g f.stream tickFn).2 = _ ↔ _
    rw [entered_service]
    unfold due
    dsimp only
    cases hw : f.stream.wanted tickFn with
    | none => simp
    | some w =>
      rw [Option.filter_some, Option.filter_some]
      cases hon : mayWait g f.stream && !f.stream.present w with
      | false => simp
      | true =>
        obtain ⟨l, hl⟩ := h.latest_of_mayWait (Bool.and_eq_true_iff.mp hon).1
        have hlt := wanted_lt hw
        have hmax := h.recorded l hl
        have hlow := h.below l hl
        rw [hl, toInt_sub hlt (hmax ▸ hlow), hmax, Option.any_some]
        by_cases hle : l ≤ w.toNat
        · -- both distances are the difference of the frame numbers
          refine iff_of_true ?_ fun w' hw' l' hl' => ?_
          · rw [devant_eq_of_le hlt hle]
          · cases hl'
            obtain ⟨-, heq⟩ := Option.ite_none_right_eq_some.mp hw'
            rwa [← Option.some.inj heq]
        · -- the code does not wait
          rw [decide_eq_false (by omega)]
          cases decide (1 ≤ behind l w.toNat) && decide (behind l w.toNat ≤ 200) with
          | false => simp
          | true => simpa using hle
  | packet buf | setDedie tn genre | takeTs1 w
  | offset o c => exact iff_of_true rfl fun _ hw => (by cases hw)
  | drained => exact iff_of_true entered_drained fun _ hw => (by cases hw)
  | expired => exact iff_of_true entered_expired fun _ hw => (by cases hw)

theorem exact_iff (h : Tracks f) (ha : Advances f e) : Exact g f e ↔ WithinHyperframe g f e :=
  and_congr (recorded_iff h ha) (entered_iff h)

theorem tracks_step (h : Tracks f) (ha : Advances f e) (hw : WithinHyperframe g f e) :
    Tracks ((follow g).step f e).1 := by
  have hrec := (recorded_iff (g := g) h ha).mpr hw.1
  cases hfn : ts0Frame e with
  | none =>
    have hlatest : ((follow g).step f e).1.latest = f.latest := by
      show (ts0Frame e).elim _ _ = _
      rw [hfn]
      rfl
    refine ⟨hrec, ?_, ?_⟩
    · rw [hlatest, ← h.any]
      exact (step_of_not_ts0 hfn).2
    · rw [hlatest]
      exact h.below
  | some fn =>
    obtain ⟨hlt, hahead⟩ := ha fn hfn
    obtain ⟨bits, hstep⟩ := step_of_ts0 (g := g) (s := f.stream) hfn
    have hlatest : ((follow g).step f e).1.latest = some (later f.latest fn.toNat) := by
      show (ts0Frame e).elim _ _ = _
      rw [hfn]
      rfl
    refine ⟨hrec, ?_, ?_⟩
    · rw [hlatest]
      show ((machine g).step f.stream e).1.ts0Any
      rw [hstep]
      rfl
    · rw [hlatest]
      intro l hl
      cases hl
      cases hold : f.latest with
      | none => exact hlt
      | some l =>
        rw [later_of_advance (h.below l hold) hlt (hahead l hold)]
        exact hlt

/-- While every frame of TS0 lies less than half a hyperframe ahead of the one before, the recorded
frame is the latest and the waits entered are those due, exactly when no frame received or waited
for lies past the end of the hyperframe of the latest. -/
theorem late_iff (g : Setup) (es : List Event) (h : (follow g).Along Advances Followed.init es) :
    (follow g).Along (Exact g) Followed.init es ↔
      (follow g).Along (WithinHyperframe g) Followed.init es :=
  Machine.Along.congr (fun _ _ => exact_iff) (fun _ _ => tracks_step) tracks_init h

def ts0Packet (fn : BitVec 32) : Event :=
  .packet ([0, fn.extractLsb' 24 8, fn.extractLsb' 16 8, fn.extractLsb' 8 8, fn.extractLsb' 0 8,
    0, 0, 0] ++ List.replicate 148 0)

/-- Frame 0 is wanted after the last frame of a hyperframe, and comes: it is not waited for, and
not recorded. -/
theorem last_frame_stays_recorded :
    let g : Setup := ⟨40, true⟩
    let es := [ts0Packet 2715647, .offset (some 0) false, .service 2715648, ts0Packet 0]
    (follow g).Along Advances Followed.init es ∧
      ((follow g).final Followed.init es).latest = some 0 ∧
      ((follow g).final Followed.init es).stream.ts0FnMax = 2715647 ∧
      due g ((follow g).final Followed.init (es.take 2)) (.service 2715648) = some 0 ∧
      (follow g).trace Followed.init es = [] := by
  decide +kernel

/-- The frame after the one received is waited for. -/
theorem late_iff_next_frame :
    let g : Setup := ⟨40, true⟩
    (follow g).Along (Exact g) Followed.init
      [ts0Packet 2715645, ts0Packet 2715646, .offset (some 0) false, .service 2715647] :=
  (late_iff _ _ (by decide +kernel)).mpr (by decide +kernel)

end Stream

end Qosmo.Bsp
