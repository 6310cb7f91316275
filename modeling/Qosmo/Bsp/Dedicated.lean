import Qosmo.Bsp.Stream

/-!
# Qosmo.Bsp.Dedicated

What the lookup of the dedicated channel returns.

A burst of the dedicated timeslot is in two stores, which overwrite and forget independently of
each other: `g_dedie` has what came since the timeslot was armed, `g_autres` what came at all. Both
are compared with the last burst heard for each frame and timeslot (`heard`): what a store has is
the last burst heard (`Sound`). Arming another timeslot, or the same one after a release, empties
`g_dedie`; that keeps it to one timeslot.
-/

namespace Qosmo.Bsp

open Function Slotted

namespace Stream

/-! ### What was received -/

/-- The last burst of each frame and timeslot, with one more burst. -/
def note (h : BitVec 32 → Nat → Option Bits) (fn : BitVec 32) (tn : Nat) (bits : Bits) :
    BitVec 32 → Nat → Option Bits :=
  Function.update h fn (Function.update (h fn) tn (some bits))

/-- The last burst of each frame and timeslot, with one more event. -/
def hear (h : BitVec 32 → Nat → Option Bits) : Event → BitVec 32 → Nat → Option Bits
  | .packet buf =>
    match burst buf with
    | some (tn, fn, bits) => note h fn tn bits
    | none => h
  | _ => h

def heard (es : List Event) : BitVec 32 → Nat → Option Bits := es.foldl hear fun _ _ => none

/-- The timeslot of the dedicated channel, with one more event. -/
def rearm (armed : Option Nat) : Event → Option Nat
  | .setDedie tn genre => if tn ≤ 0 ∨ 7 < tn ∨ genre = 0xFF then none else some tn.toNat
  | _ => armed

def armed (es : List Event) : Option Nat := es.foldl rearm none

/-! ### The stores have nothing else -/

/-- The stores against the bursts heard, with the channel armed on `a`. -/
structure Sound (s : Stream) (h : BitVec 32 → Nat → Option Bits) (a : Option Nat) : Prop where
  tn : s.dedieTn = a.elim (-1) fun tn => (tn : Int)
  range : ∀ tn ∈ a, 1 ≤ tn ∧ tn ≤ 7
  dedie : ∀ tn ∈ a, ∀ fn bits, Slotted.get ringSlot s.dedie fn = some bits → h fn tn = some bits
  autres : ∀ fn tn bits, 1 ≤ tn → Slotted.get ringSlot s.autres fn tn = some bits →
    h fn tn = some bits

variable {s : Stream} {h : BitVec 32 → Nat → Option Bits} {a : Option Nat}

theorem sound_init : Sound init (fun _ _ => none) none where
  tn := rfl
  range _ h := by cases h
  dedie _ h := by cases h
  autres fn tn bits _ hget := by
    have hempty : Slotted.get ringSlot init.autres fn = default := get_empty fun _ => rfl
    rw [hempty] at hget
    cases hget

/-- What changes neither store nor timeslot keeps them. -/
theorem Sound.congr (hs : Sound s h a) {s' : Stream} (htn : s'.dedieTn = s.dedieTn)
    (hdedie : s'.dedie = s.dedie) (hautres : s'.autres = s.autres) : Sound s' h a where
  tn := htn.trans hs.tn
  range := hs.range
  dedie := by
    rw [hdedie]
    exact hs.dedie
  autres := by
    rw [hautres]
    exact hs.autres

variable {tn : Nat}

/-- `bsp_autres_stocker` writes the slot of the frame. -/
theorem autresStocker_eq (htn : 1 ≤ tn ∧ tn ≤ 7) (fn : BitVec 32) (bits : Bits) :
    s.autresStocker fn tn bits = { s with
      autres := Slotted.set ringSlot s.autres fn
        (Function.update (Slotted.get ringSlot s.autres fn) tn (some bits)) } := by
  have hslot : (if (s.autres (ringSlot fn)).key ≠ fn then fun _ => none
      else (s.autres (ringSlot fn)).val) = Slotted.get ringSlot s.autres fn := by
    unfold Slotted.get
    rw [ite_not]
    rfl
  unfold autresStocker
  rw [if_neg (by omega)]
  dsimp only
  rw [hslot]
  rfl

theorem note_self (fn : BitVec 32) (tn : Nat) (bits : Bits) :
    note h fn tn bits fn tn = some bits := by
  rw [note, update_self, update_self]

variable {fn fn' : BitVec 32} {bits : Bits}

theorem note_of_ne {tn' : Nat} (hne : fn' ≠ fn ∨ tn' ≠ tn) :
    note h fn tn bits fn' tn' = h fn' tn' := by
  unfold note
  by_cases hfn : fn' = fn
  · subst hfn
    rw [update_self, update_of_ne (hne.resolve_left fun h => h rfl)]
  · rw [update_of_ne hfn]

theorem autres_burst (hs : Sound s h a) {tn' : Nat} {b : Bits} (htn' : 1 ≤ tn')
    (hget : Slotted.get ringSlot (Slotted.set ringSlot s.autres fn
      (Function.update (Slotted.get ringSlot s.autres fn) tn (some bits))) fn' tn' = some b) :
    note h fn tn bits fn' tn' = some b := by
  by_cases hfn : fn' = fn
  · subst hfn
    rw [get_set_self] at hget
    by_cases htn : tn' = tn
    · subst htn
      rw [update_self] at hget
      rw [note_self, hget]
    · rw [update_of_ne htn] at hget
      rw [note_of_ne (.inr htn)]
      exact hs.autres fn' tn' b htn' hget
  · rw [note_of_ne (.inl hfn)]
    rcases get_set_of_ne ringSlot s.autres _ hfn with heq | heq
    · exact hs.autres fn' tn' b htn' ((congrFun heq tn').symm.trans hget)
    · rw [heq] at hget
      cases hget

theorem dedie_burst (hs : Sound s h a) {b : Bits} (ha : tn ∈ a)
    (hget : Slotted.get ringSlot (Slotted.set ringSlot s.dedie fn (some bits)) fn' = some b) :
    note h fn tn bits fn' tn = some b := by
  by_cases hfn : fn' = fn
  · subst hfn
    rw [get_set_self] at hget
    rw [note_self, hget]
  · rw [note_of_ne (.inl hfn)]
    rcases get_set_of_ne ringSlot s.dedie _ hfn with heq | heq
    · exact hs.dedie tn ha fn' b (heq.symm.trans hget)
    · rw [heq] at hget
      cases hget

theorem Sound.burst (hs : Sound s h a) (htn : 1 ≤ tn ∧ tn ≤ 7) (fn : BitVec 32) (bits : Bits) :
    Sound ((if (tn : Int) = s.dedieTn then s.dedieStocker fn bits else s).autresStocker fn tn bits)
      (note h fn tn bits) a := by
  rw [autresStocker_eq htn]
  by_cases harmed : (tn : Int) = s.dedieTn
  · rw [if_pos harmed]
    refine ⟨hs.tn, hs.range, fun tn' ha fn' b hget => ?_, fun _ _ _ htn' => autres_burst hs htn'⟩
    -- the burst is of the timeslot that is armed
    obtain rfl : tn' = tn := by
      have htn' := hs.tn
      rw [Option.mem_def.mp ha, ← harmed] at htn'
      exact (Int.ofNat.inj htn').symm
    exact dedie_burst hs ha hget
  · rw [if_neg harmed]
    refine ⟨hs.tn, hs.range, fun tn' ha fn' b hget => ?_, fun _ _ _ htn' => autres_burst hs htn'⟩
    have hne : tn' ≠ tn := by
      rintro rfl
      have htn' := hs.tn
      rw [Option.mem_def.mp ha] at htn'
      exact harmed htn'.symm
    rw [note_of_ne (.inr hne)]
    exact hs.dedie tn' ha fn' b hget

theorem burst_tn_le {buf : List Byte} (hburst : burst buf = some (tn, fn, bits)) : tn ≤ 7 := by
  have hmask : ∀ b : Byte, (b &&& 0x07).toNat ≤ 7 := by decide +kernel
  obtain ⟨-, hsome⟩ := Option.ite_none_left_eq_some.mp hburst
  obtain ⟨rfl, -⟩ := Prod.mk.inj (Option.some.inj hsome)
  exact hmask _

/-- The bursts of TS0 are in neither store. -/
theorem Sound.ts0 (hs : Sound s h a) (fn : BitVec 32) (bits : Bits) :
    Sound (s.ts0Stocker fn bits) (note h fn 0 bits) a where
  tn := hs.tn
  range := hs.range
  dedie tn' ha fn' b hget := by
    have hpos := (hs.range tn' ha).1
    rw [note_of_ne (.inr (by omega))]
    exact hs.dedie tn' ha fn' b hget
  autres fn' tn' b htn' hget := by
    rw [note_of_ne (.inr (by omega))]
    exact hs.autres fn' tn' b htn' hget

theorem Sound.packet (hs : Sound s h a) (buf : List Byte) :
    Sound (s.receive buf) (hear h (.packet buf)) a := by
  unfold receive hear
  dsimp only
  cases hburst : Stream.burst buf with
  | none => exact hs
  | some b =>
    obtain ⟨tn, fn, bits⟩ := b
    dsimp only
    by_cases hzero : tn = 0
    · subst hzero
      rw [if_pos rfl]
      exact hs.ts0 fn bits
    · rw [if_neg hzero]
      exact hs.burst ⟨Nat.one_le_iff_ne_zero.mpr hzero, burst_tn_le hburst⟩ fn bits

theorem Sound.setDedie (hs : Sound s h a) (tn genre : Int) :
    Sound (s.setDedie tn genre) h (rearm a (.setDedie tn genre)) := by
  unfold Stream.setDedie rearm
  dsimp only
  by_cases hrel : tn ≤ 0 ∨ 7 < tn ∨ genre = 0xFF
  · rw [if_pos hrel, if_pos hrel]
    exact ⟨rfl, fun _ h => (by cases h), fun _ h => (by cases h), hs.autres⟩
  · rw [if_neg hrel, if_neg hrel]
    have htn : ((tn.toNat : Nat) : Int) = tn := Int.toNat_of_nonneg (by omega)
    refine ⟨htn.symm, fun tn' ha => ?_, fun tn' ha fn bits hget => ?_, hs.autres⟩
    · cases ha
      omega
    · cases ha
      dsimp only at hget
      by_cases hsame : s.dedieTn = tn
      · -- the timeslot was armed already
        rw [if_neg (not_not.mpr hsame)] at hget
        have hold := hs.tn
        cases a with
        | none =>
          rw [hsame] at hold
          exact absurd hold (by simp only [Option.elim_none]; omega)
        | some t =>
          have ht : t = tn.toNat := by
            rw [hsame] at hold
            simp only [Option.elim_some] at hold
            omega
          rw [← ht]
          exact hs.dedie t rfl fn bits hget
      · rw [if_pos hsame, get_empty fun _ => rfl] at hget
        cases hget

theorem Sound.takeTs1 (hs : Sound s h a) (w : BitVec 32) : Sound (s.takeTs1 w) h a := by
  unfold Stream.takeTs1
  dsimp only
  split
  · rename_i hkey
    refine ⟨hs.tn, hs.range, hs.dedie, fun fn tn bits htn hget => hs.autres fn tn bits htn ?_⟩
    dsimp only at hget
    by_cases hfn : fn = w
    · subst hfn
      unfold Slotted.get at hget ⊢
      rw [update_self, if_pos rfl] at hget
      dsimp only at hget
      rw [if_pos hkey]
      by_cases hone : tn = 1
      · subst hone
        rw [update_self] at hget
        cases hget
      · rwa [update_of_ne hone] at hget
    · rcases get_set_of_ne ringSlot s.autres _ hfn with heq | heq
      · exact (congrFun heq tn).symm.trans hget
      · have hnone := (congrFun heq tn).symm.trans hget
        cases hnone
  · exact hs

theorem Sound.step (g : Setup) (hs : Sound s h a) (e : Event) :
    Sound (s.step g e).1 (hear h e) (rearm a e) := by
  have hwaits := step_of_waits g s e
  cases e with
  | packet buf => exact hs.packet buf
  | setDedie tn genre => exact hs.setDedie tn genre
  | takeTs1 w => exact hs.takeTs1 w
  | offset offset trxCale => exact hs.congr rfl rfl rfl
  | service | drained | expired =>
    obtain ⟨w, hw⟩ := hwaits rfl
    rw [hw]
    exact hs.congr rfl rfl rfl

theorem sound_final (g : Setup) (es : List Event) :
    Sound ((machine g).final init es) (heard es) (armed es) := by
  induction es using List.reverseRecOn with
  | nil => exact sound_init
  | append_singleton es e ih =>
    rw [Machine.final_append, heard, armed, List.foldl_append, List.foldl_append]
    exact ih.step g e

/-- Whatever the order of the bursts, armings, changes and releases, the lookup of a frame of the
dedicated channel returns nothing, or the bits last received for the frame on the timeslot that is
armed. -/
theorem dedieBits_heard (g : Setup) (es : List Event) (strict : Bool) (fn : BitVec 32) :
    ((machine g).final init es).dedieBits strict fn = none ∨
    ∃ tn bits, armed es = some tn ∧ heard es fn tn = some bits ∧
      ((machine g).final init es).dedieBits strict fn = some bits := by
  have hs := sound_final g es
  generalize (machine g).final init es = s at hs
  unfold dedieBits
  cases ha : armed es with
  | none =>
    have htn : s.dedieTn = -1 := by
      rw [hs.tn, ha]
      rfl
    exact .inl (if_pos (by omega))
  | some tn =>
    have htn : s.dedieTn = tn := by
      rw [hs.tn, ha]
      rfl
    obtain ⟨hpos, hseven⟩ := hs.range tn ha
    rw [if_neg (by omega)]
    cases hget : Slotted.get ringSlot s.dedie fn with
    | some bits => exact .inr ⟨tn, bits, rfl, hs.dedie tn ha fn bits hget, rfl⟩
    | none =>
      -- the fallback on `g_autres`
      dsimp only
      cases strict with
      | true => exact .inl rfl
      | false =>
        rw [if_neg Bool.false_ne_true, htn, Int.toNat_natCast, autresBits, if_neg (by omega)]
        cases hother : Slotted.get ringSlot s.autres fn tn with
        | none => exact .inl rfl
        | some bits => exact .inr ⟨tn, bits, rfl, hs.autres fn tn bits hpos hother, rfl⟩

end Stream

end Qosmo.Bsp
