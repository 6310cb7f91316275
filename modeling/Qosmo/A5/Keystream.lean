import Qosmo.A5.Basic
import Qosmo.Bsp.Offset

/-!
# Qosmo.A5.Keystream

Which frame's key stream the DSP reads back.

COUNT names every frame of the hyperframe (`countFn_countWord`): T2 and T3 are decoded by the
Chinese remainder theorem. The key streams are meant to be those of COUNT, except that the downlink
follows the BSP when its frame is one to three away. The distance is taken between the frame numbers
as they are, so that it is missed across the end of the hyperframe, and COUNT itself is moved on in
some frames, for both directions; `keystream_iff` says that these are the only exceptions.
-/

namespace Qosmo.A5

open BitVec Cyclic

/-! ### COUNT -/

theorem countWord_fields (fn : Nat) :
    (countWord0 fn &&& 0x1F).toNat = gsmT2 fn ∧
      ((countWord0 fn >>> 5) &&& 0x3F).toNat = gsmT3 fn := by
  have hT2 : gsmT2 fn < 26 := Nat.mod_lt _ (by decide)
  have hT3 : gsmT3 fn < 51 := Nat.mod_lt _ (by decide)
  unfold countWord0
  generalize gsmT2 fn = t2 at hT2
  generalize gsmT3 fn = t3 at hT3
  have hall : ∀ t2 < 26, ∀ t3 < 51,
      (((BitVec.ofNat 16 t3 <<< 5) ||| BitVec.ofNat 16 t2) &&& (0x1F : Word)).toNat = t2 ∧
        ((((BitVec.ofNat 16 t3 <<< 5) ||| BitVec.ofNat 16 t2) >>> 5) &&& (0x3F : Word)).toNat = t3 := by
    decide +kernel
  exact hall t2 hT2 t3 hT3

/-- The registers of COUNT as the ROM loads them for a frame. -/
def countOf (fn : Nat) (i : Nat) : Word := if i = 0 then countWord0 fn else countWord1 fn

theorem toNat_countFn {fn : Nat} (hfn : fn < gsmHyperframe) {cnt : Nat → Word}
    (h0 : cnt 0 = countWord0 fn) (h1 : cnt 1 = countWord1 fn) : (countFn cnt).toNat = fn := by
  obtain ⟨hT2, hT3⟩ := countWord_fields fn
  have hT1 : (countWord1 fn &&& 0x7FF).toNat = gsmT1 fn := by
    have hlt : gsmT1 fn < 2048 := by
      unfold gsmT1
      unfold gsmHyperframe at hfn
      omega
    rw [countWord1, toNat_and, show (0x7FF : Word).toNat = 2 ^ 11 - 1 from rfl,
      Nat.and_two_pow_sub_one_eq_mod, toNat_ofNat]
    omega
  have hdecode : countFn cnt = BitVec.ofNat 32 fn := by
    simp only [countFn, h0, h1, hT1, hT2, hT3, gsmtime2fn_counters]
  rw [hdecode, toNat_ofNat]
  unfold gsmHyperframe at hfn
  omega

/-- Decoding COUNT gives every frame number of the hyperframe back, so that no two of them have the
same COUNT. -/
theorem countFn_countWord :
    (∀ fn : Fin gsmHyperframe, (countFn (countOf fn)).toNat = fn) ∧
      Function.Injective fun fn : Fin gsmHyperframe => (countWord0 fn, countWord1 fn) := by
  have hdecode : ∀ fn : Fin gsmHyperframe, (countFn (countOf fn)).toNat = fn :=
    fun fn => toNat_countFn fn.isLt rfl rfl
  refine ⟨hdecode, fun fn fn' hsame => ?_⟩
  obtain ⟨h0, h1⟩ := Prod.mk.inj hsame
  have hcount : countOf fn = countOf fn' := by
    funext i
    unfold countOf
    rw [h0, h1]
  rw [Fin.ext_iff, ← hdecode fn, ← hdecode fn', hcount]

/-! ### The words of a stream -/

theorem bitSet_top_shift : ∀ k < 16, ∀ m < 16,
    bitSet ((0x8000 : Word) >>> k) (15 - m) = decide (k = m) := by decide

theorem bitSet_empaqueterBit (b : Nat → Bool) (w : Nat → Word) (i j : Nat) :
    bitSet (empaqueterBit b w i (j / 16)) (15 - j % 16) =
      (bitSet (w (j / 16)) (15 - j % 16) || (decide (i = j) && b j)) := by
  unfold empaqueterBit
  by_cases hij : i = j
  · rw [hij, decide_eq_true rfl, Bool.true_and]
    cases hb : b j with
    | false => rw [if_neg Bool.false_ne_true, Bool.or_false]
    | true =>
      have hbit := bitSet_top_shift (j % 16) (Nat.mod_lt _ (by decide)) (j % 16)
        (Nat.mod_lt _ (by decide))
      rw [decide_eq_true rfl, bitSet] at hbit
      rw [if_pos rfl, Function.update_self, bitSet, getLsbD_or, hbit, Bool.or_true,
        Bool.or_true]
  · rw [decide_eq_false hij, Bool.false_and, Bool.or_false]
    split
    · by_cases hword : j / 16 = i / 16
      · have hplace : i % 16 ≠ j % 16 := by omega
        have hbit := bitSet_top_shift (i % 16) (Nat.mod_lt _ (by decide)) (j % 16)
          (Nat.mod_lt _ (by decide))
        rw [decide_eq_false hplace, bitSet] at hbit
        rw [hword, Function.update_self, bitSet, getLsbD_or, hbit, Bool.or_false]
        rfl
      · rw [Function.update_of_ne hword]
    · rfl

theorem bitSet_foldl_empaqueterBit (b : Nat → Bool) (j n : Nat) :
    bitSet ((List.range n).foldl (empaqueterBit b) (fun _ => 0) (j / 16)) (15 - j % 16) =
      (decide (j < n) && b j) := by
  induction n with
  | zero => simp [bitSet]
  | succ n ih =>
    have hnew : decide (j < n + 1) = (decide (j < n) || decide (n = j)) := by
      rw [← Bool.decide_or]
      congr 1
      rw [eq_iff_iff]
      omega
    rw [List.range_succ, List.foldl_append, List.foldl_cons, List.foldl_nil, bitSet_empaqueterBit,
      ih, hnew, Bool.and_or_distrib_right]

/-- The words hold the bits, the first one on top. -/
theorem bitSet_empaqueter (b : Nat → Bool) {j : Nat} (hj : j < 114) :
    bitSet (empaqueter b (j / 16)) (15 - j % 16) = b j := by
  rw [empaqueter, bitSet_foldl_empaqueterBit, decide_eq_true hj, Bool.true_and]

/-! ### A frame -/

variable {env : Env} {kc : Nat → Word} {mode : Word} {fn : Nat}

/-- The unit in front of the start: stopped, with the key and COUNT loaded. -/
def loaded (a : A5) (mode : Word) (kc : Nat → Word) (fn : Nat) : A5 where
  ctrl := modeWord mode
  kc := Function.update (Function.update (Function.update (Function.update a.kc 0 (kc 0)) 1 (kc 1))
    2 (kc 2)) 3 (kc 3)
  cnt := Function.update (Function.update a.cnt 0 (countWord0 fn)) 1 (countWord1 fn)
  etat := 0
  flux := a.flux

theorem final_programming (a : A5) (hmode : mode = 1 ∨ mode = 2) :
    (machine .default).final a (programming env mode kc fn) =
      calculer .default env
    { loaded a mode kc fn with ctrl := modeWord mode ||| 1 } mode.toNat := by
  rcases hmode with rfl | rfl
  · simp [programming, machine, portw, control, loaded, modeWord, bitSet, Gates.default]
  · simp [programming, machine, portw, control, loaded, modeWord, bitSet, Gates.default]

theorem key_loaded (a : A5) : key (loaded a mode kc fn).kc = key kc := rfl

theorem countFn_loaded (a : A5) (hfn : fn < gsmHyperframe) :
    countFn (loaded a mode kc fn).cnt = BitVec.ofNat 32 fn := by
  apply eq_of_toNat_eq
  rw [toNat_countFn hfn rfl rfl, toNat_ofNat]
  unfold gsmHyperframe at hfn
  omega

/-- The ports from 0x2809 on are the words of the two streams. -/
theorem portr_flux (a : A5) {i : Nat} (hi : i < 16) :
    a.portr .default (0x2809 + BitVec.ofNat 16 i) = some (a.flux i) := by
  have hports : ∀ i < 16, decide (0x2809 + BitVec.ofNat 16 i < (0x2800 : Word)) = false ∧
      decide ((0x2809 : Word) + 16 ≤ 0x2809 + BitVec.ofNat 16 i) = false ∧
      (0x2809 : Word) ≤ 0x2809 + BitVec.ofNat 16 i ∧
      (0x2809 + BitVec.ofNat 16 i - (0x2809 : Word)).toNat = i := by decide
  obtain ⟨hlow, hhigh, hflux, hindex⟩ := hports i hi
  simp only [portr, Gates.default, hlow, hhigh, hflux, hindex, Bool.not_true, Bool.or_self,
    Bool.false_eq_true, if_false, if_true]

def Env.next (osmo : Nat → List Byte → BitVec 32 → KeyStreams) (daramLastFn : BitVec 32)
    (bsp : Bsp.Offsets) (tick : BitVec 32) : Env where
  osmoA5 algo k fn := some (osmo algo k fn)
  daramLastFn := daramLastFn
  fnBts := bsp.fnBtsDuTick tick

variable (osmo : Nat → List Byte → BitVec 32 → KeyStreams) (daramLastFn : BitVec 32)
  (bsp : Bsp.Offsets) (tick : BitVec 32)

theorem streams_calculer (g : Gates) (a : A5) (algo : Nat) {j : Nat} (hj : j < 114) :
    let env := Env.next osmo daramLastFn bsp tick
    let count := realign g env (countFn a.cnt)
    downlinkBit .default (calculer g env a algo) j =
        some ((osmo algo (key a.kc) (downlinkFn g env count)).1 j) ∧
      uplinkBit .default (calculer g env a algo) j = some ((osmo algo (key a.kc) count).2 j) := by
  intro env count
  have hword : j / 16 < 8 := by omega
  have hup : (0x2811 : Word) + BitVec.ofNat 16 (j / 16) =
      0x2809 + BitVec.ofNat 16 (8 + j / 16) := by
    rw [ofNat_add, ← add_assoc]
    rfl
  constructor
  · rw [downlinkBit, streamBit, portr_flux _ (by omega), Option.map_some]
    have hflux : (calculer g env a algo).flux (j / 16) = empaqueter
        (downlinkBits env algo (key a.kc) count (downlinkFn g env count)
          (osmo algo (key a.kc) count).1) (j / 16) := if_pos hword
    have hbits : downlinkBits env algo (key a.kc) count (downlinkFn g env count)
        (osmo algo (key a.kc) count).1 = (osmo algo (key a.kc) (downlinkFn g env count)).1 := by
      unfold downlinkBits
      split
      · rfl
      · rename_i hsame
        rw [not_not.mp hsame]
    rw [hflux, hbits, bitSet_empaqueter _ hj]
  · rw [uplinkBit, streamBit, hup, portr_flux _ (by omega), Option.map_some]
    have hflux : (calculer g env a algo).flux (8 + j / 16) =
        empaqueter (osmo algo (key a.kc) count).2 (8 + j / 16 - 8) := if_neg (by omega)
    rw [hflux, Nat.add_sub_cancel_left, bitSet_empaqueter _ hj]

/-! ### The frames of the two streams -/

/-- COUNT is the frame deposited last, in a frame of the SACCH/TF. -/
def Late (daramLastFn fn : BitVec 32) : Prop :=
  fn = daramLastFn ∧ (fn.toNat % 26 = 12 ∨ fn.toNat % 26 = 25)

/-- The BSP plays a frame one to three away from COUNT, modulo the hyperframe. -/
def Near (ft fn : BitVec 32) : Prop := ft ≠ fn ∧ Within gsmHyperframe 3 ft.toNat fn.toNat

/-- The streams are those meant: the downlink follows the BSP when it is near, and the uplink is that
of COUNT. -/
def AsMeant (a : A5) (streams : BitVec 32 → KeyStreams) (ft fn : BitVec 32) : Prop :=
  ∀ j < 114, (Near ft fn → downlinkBit .default a j = some ((streams ft).1 j)) ∧
    (¬ Near ft fn → downlinkBit .default a j = some ((streams fn).1 j)) ∧
    uplinkBit .default a j = some ((streams fn).2 j)

theorem late_eq_true (env : Env) (fn : BitVec 32) :
    late .default env fn = true ↔ Late env.daramLastFn fn := by
  have hmod : ∀ k : Nat, k < 26 → ((fn % 26 == BitVec.ofNat 32 k) = true ↔ fn.toNat % 26 = k) := by
    intro k hk
    rw [beq_iff_eq, ← toNat_inj, toNat_umod, toNat_ofNat]
    change fn.toNat % 26 = k % 2 ^ 32 ↔ _
    rw [Nat.mod_eq_of_lt (by omega : k < 2 ^ 32)]
  have h12 : (fn % 26 == 12) ↔ fn.toNat % 26 = 12 := hmod 12 (by decide)
  have h25 : (fn % 26 == 25) ↔ fn.toNat % 26 = 25 := hmod 25 (by decide)
  simp only [late, Late, Gates.default, Bool.true_and, Bool.and_eq_true, Bool.or_eq_true, h12, h25,
    beq_iff_eq (a := fn)]

theorem realign_of_late {fn : BitVec 32} (h : Late env.daramLastFn fn) :
    realign .default env fn ≠ fn := by
  rw [realign, if_pos ((late_eq_true env fn).mpr h)]
  intro heq
  have hnat := congrArg BitVec.toNat heq
  rw [toNat_umod, toNat_add] at hnat
  change (fn.toNat + 1) % 2 ^ 32 % 2715648 = fn.toNat at hnat
  omega

theorem realign_of_not_late {fn : BitVec 32} (h : ¬ Late env.daramLastFn fn) :
    realign .default env fn = fn := by
  rw [realign, if_neg fun hlate => h ((late_eq_true env fn).mp hlate)]

/-- The downlink follows the BSP when the numbers are close together. -/
theorem downlinkFn_eq {ft fn : BitVec 32} (hft : env.fnBts = some ft)
    (hftlt : ft.toNat < gsmHyperframe) (hfnlt : fn.toNat < gsmHyperframe) :
    downlinkFn .default env fn = if |(ft.toNat : Int) - fn.toNat| ≤ 3 then ft else fn := by
  have hdiff : (ft - fn).toInt = (ft.toNat : Int) - fn.toNat := by
    unfold gsmHyperframe at hftlt hfnlt
    rw [toInt_eq_toNat_cond, toNat_sub]
    split <;> omega
  have hzero : ft + BitVec.ofInt 32 Gates.default.dlDecal = ft := add_zero ft
  have hsame : (ft.toNat : Int) - fn.toNat = 0 → ft = fn := fun h => eq_of_toNat_eq (by omega)
  simp only [downlinkFn, hft, hdiff, hzero]
  by_cases hclose : |(ft.toNat : Int) - fn.toNat| ≤ 3
  · rw [if_pos hclose]
    rw [abs_le] at hclose
    split
    · rfl
    · rename_i hno
      refine (hsame ?_).symm
      by_contra hne
      exact hno (by simp [Gates.default, hclose, hne])
  · rw [if_neg hclose, if_neg]
    intro hyes
    simp only [Gates.default, Bool.true_and, decide_eq_true_eq] at hyes
    exact hclose (abs_le.mpr ⟨hyes.1, hyes.2.1⟩)

/-- What the ROM reads back after programming a frame. -/
theorem streams_programming (kc : Nat → Word) (hmode : mode = 1 ∨ mode = 2)
    (hfn : fn < gsmHyperframe) (a : A5) {j : Nat} (hj : j < 114) :
    let env := Env.next osmo daramLastFn bsp tick
    let count := realign .default env (BitVec.ofNat 32 fn)
    let a' := (machine .default).final a (programming env mode kc fn)
    downlinkBit .default a' j =
        some ((osmo mode.toNat (key kc) (downlinkFn .default env count)).1 j) ∧
      uplinkBit .default a' j = some ((osmo mode.toNat (key kc) count).2 j) := by
  intro env count a'
  have hstreams := streams_calculer osmo daramLastFn bsp tick .default
    { loaded a mode kc fn with ctrl := modeWord mode ||| 1 } mode.toNat hj
  dsimp only at hstreams
  rw [countFn_loaded a hfn, key_loaded, ← final_programming a hmode] at hstreams
  exact hstreams

/-- Near, and not across the end of the hyperframe, is close together. -/
theorem near_iff {ft fn : BitVec 32} (hft : ft.toNat < gsmHyperframe)
    (hfn : fn.toNat < gsmHyperframe)
    (hwrap : ¬ (gsmHyperframe : Int) - 3 ≤ |(ft.toNat : Int) - fn.toNat|) :
    Near ft fn ↔ ft ≠ fn ∧ |(ft.toNat : Int) - fn.toNat| ≤ 3 := by
  rw [Near, within_iff (by omega) (by omega) (by omega) (by omega) (by decide)]
  exact and_congr_right fun _ => or_iff_left hwrap

/-- Programmed for frame `fn` with any `osmo_a5` next to a BSP that plays frame `ft`, the unit gives
the streams meant, unless COUNT is taken for late or the two frames are near each other across the
end of the hyperframe. -/
theorem keystream_iff {ft : BitVec 32} (hmode : mode = 1 ∨ mode = 2)
    (hft : bsp.fnBtsDuTick tick = some ft) (fn : Fin gsmHyperframe) (a : A5) :
    (∀ osmo, AsMeant ((machine .default).final a
        (programming (Env.next osmo daramLastFn bsp tick) mode kc fn))
        (osmo mode.toNat (key kc)) ft (BitVec.ofNat 32 fn)) ↔
      ¬ Late daramLastFn (BitVec.ofNat 32 fn) ∧
        ¬ (gsmHyperframe : Int) - 3 ≤ |(ft.toNat : Int) - (fn : Nat)| := by
  have hftlt : ft.toNat < gsmHyperframe := by
    obtain ⟨offset, -, rfl⟩ := Option.map_eq_some_iff.mp hft
    exact Bsp.Offsets.frameAt_lt tick offset
  obtain ⟨count, hcount⟩ : ∃ count : BitVec 32, BitVec.ofNat 32 fn = count := ⟨_, rfl⟩
  have hnat : count.toNat = fn := by
    have hlt : (fn : Nat) < 2 ^ 32 := fn.isLt.trans (by decide)
    rw [← hcount, toNat_ofNat, Nat.mod_eq_of_lt hlt]
  have hcountlt : count.toNat < gsmHyperframe := hnat ▸ fn.isLt
  have hread := fun osmo j (hj : j < 114) =>
    streams_programming osmo daramLastFn bsp tick kc hmode fn.isLt a hj
  have hfollow : ∀ osmo, downlinkFn .default (Env.next osmo daramLastFn bsp tick) count =
      if |(ft.toNat : Int) - count.toNat| ≤ 3 then ft else count :=
    fun _ => downlinkFn_eq hft hftlt hcountlt
  dsimp only at hread
  simp only [hcount] at hread ⊢
  simp only [← hnat] at hread ⊢
  constructor
  · intro h
    -- streams that tell COUNT from every other frame
    obtain ⟨tell, htell⟩ : ∃ tell : Nat → List Byte → BitVec 32 → KeyStreams,
        ∀ m k f, (tell m k f).1 0 = decide (f = count) ∧ (tell m k f).2 0 = decide (f = count) :=
      ⟨fun _ _ f => (fun _ => decide (f = count), fun _ => decide (f = count)),
        fun _ _ _ => ⟨rfl, rfl⟩⟩
    have hmeant := h tell 0 (by decide)
    have hbits := hread tell 0 (by decide)
    rw [hbits.1, hbits.2] at hmeant
    simp only [Option.some.injEq, htell, decide_true, decide_eq_true_eq] at hmeant
    obtain ⟨hdown, -, hup⟩ := hmeant
    have hlate : ¬ Late daramLastFn count := fun hlate => realign_of_late hlate hup
    refine ⟨hlate, fun hwrap => ?_⟩
    have hne : ft ≠ count := by
      rintro rfl
      rw [sub_self, abs_zero] at hwrap
      exact absurd hwrap (by decide)
    have hnear : Near ft count := by
      rw [Near, within_iff (by omega) (by omega) (by omega) (by omega) (by decide)]
      exact ⟨hne, .inr hwrap⟩
    have hfar : ¬ |(ft.toNat : Int) - count.toNat| ≤ 3 := by
      intro hclose
      exact absurd (hwrap.trans hclose) (by decide)
    have hframe := hdown hnear
    rw [hup, hfollow, if_neg hfar, decide_eq_true rfl, decide_eq_false hne] at hframe
    cases hframe
  · rintro ⟨hlate, hwrap⟩ osmo j hj
    have hbits := hread osmo j hj
    rw [realign_of_not_late hlate, hfollow] at hbits
    rw [hbits.1, hbits.2, near_iff hftlt hcountlt hwrap]
    refine ⟨fun hnear => by rw [if_pos hnear.2], fun hfar => ?_, rfl⟩
    by_cases hclose : |(ft.toNat : Int) - count.toNat| ≤ 3
    · have hsame : ft = count := by
        by_contra hne
        exact hfar ⟨hne, hclose⟩
      rw [if_pos hclose, hsame]
    · rw [if_neg hclose]

def playing (ft : Int) : Bsp.Offsets := { Bsp.Offsets.init with ts0Offset := some ft }

/-- Streams that are 1 in one frame only. -/
def only (fn : BitVec 32) (_ : Nat) (_ : List Byte) (f : BitVec 32) : KeyStreams :=
  (fun _ => f == fn, fun _ => f == fn)

theorem keystream_iff_one_ahead : AsMeant ((machine .default).final init
    (programming (Env.next (only 100) 98 (playing 100) 0) 1 (fun _ => 0x1234) 99))
    (only 100 1 (key fun _ => 0x1234)) 100 99 :=
  have hplays : (playing 100).fnBtsDuTick 0 = some 100 := by decide
  (keystream_iff 98 (playing 100) 0 (.inl rfl) hplays ⟨99, by decide⟩ init).mpr
    ⟨fun hlate => absurd hlate.1 (by decide), by decide⟩ (only 100)

/-- In the last frame of the hyperframe, with the BSP one ahead in frame 0, the downlink is still that
of COUNT. In frame 12, when it is the frame deposited last, the uplink is that of frame 13. -/
theorem keystream_missed :
    (Near 0 2715647 ∧ downlinkBit .default ((machine .default).final init
        (programming (Env.next (only 0) 0 (playing 0) 0) 1 (fun _ => 0x1234) 2715647)) 0 =
          some false ∧ (only 0 1 (key fun _ => 0x1234) 0).1 0 = true) ∧
      uplinkBit .default ((machine .default).final init
        (programming (Env.next (only 12) 12 (playing 12) 0) 1 (fun _ => 0x1234) 12)) 0 =
          some false ∧ (only 12 1 (key fun _ => 0x1234) 12).2 0 = true := by
  refine ⟨⟨?_, by decide +kernel, rfl⟩, by decide +kernel, rfl⟩
  rw [Near, within_iff (by decide) (by decide) (by decide) (by decide) (by decide)]
  decide

end Qosmo.A5
