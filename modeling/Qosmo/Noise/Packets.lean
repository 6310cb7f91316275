import Qosmo.Dcch.Tap
import Qosmo.Noise.Bursts

/-!
# Qosmo.Noise.Packets

What the noise injector does to a packet (class `Degradeur` of `tools/injecteur_bruit.py`).

The injector sits between the bridge and the layer 1. For the DSP the packets are bursts: 8 bytes of
header, then one byte a bit, hard (0 or 1) or soft (signed). For gr-gsm they are GSMTAP blocks. Each
packet is relayed, or damaged in its payload: bits are inverted at drawn positions (`ber`, and
`souple` on hard bits), soft values get noise (`souple`), and with `--perte` a packet is erased now
and then, before anything else is done to it.

`descendant_frame` says what is kept. Hard bits differ from the input exactly at the drawn positions
unless the packet is erased: then the payload is random. The `iq` mode, which changes the format,
and the statistics are left out.
-/

namespace Qosmo.Noise

open List

/-- `--mode`, without `iq`. -/
inductive Mode where
  | relais
  | ber
  | souple
  deriving Repr, DecidableEq

inductive Cible where
  | dsp
  | grgsm
  deriving Repr, DecidableEq

/-- An error rate, as far as `positions_iid` tells rates apart. -/
inductive Taux where
  | nul
  | entre
  | plein
  deriving Repr, DecidableEq

/-- The options. `perte` and `rafales` tell whether the option is in use; `tn` has the timeslots
selected, none of them for all. -/
structure Config where
  cible : Cible
  mode : Mode
  tn : Option (List Nat)
  perte : Bool
  ber : Taux
  rafales : Bool
  pSouple : Taux
  deriving Repr, DecidableEq

/-- The random numbers of a packet: besides those of the bursts, whether it is erased, a random bit,
how many bits `positions_iid` skips, and a soft value with noise (the noise goes by all the values
of the packet). `graine` is `_rng`: a generator seeded by frame, timeslot and channel. -/
structure Draws (ρ : Type*) extends Source ρ where
  graine : BitVec 32 → Nat → Nat → ρ
  efface : ρ → Bool × ρ
  getrandbits : ρ → Bool × ρ
  saut : ρ → Nat × ρ
  gauss : List Byte → Int → ρ → Int × ρ

def dspHdr : Nat := 8
def nbits : Nat := 148
def iqMinOctets : Nat := 4 * 146

variable {ρ : Type*} (d : Draws ρ) (cfg : Config)

/-! ### Positions -/

/-- The loop of `positions_iid`, from bit `pos` on. Every turn goes forward by a bit at least. -/
def iid (n : Nat) : Nat → Nat → ρ → List Nat × ρ
  | 0, _, r => ([], r)
  | fuel + 1, pos, r =>
    let (saut, r) := d.saut r
    if n ≤ pos + saut then ([], r)
    else
      let (out, r) := iid n fuel (pos + saut + 1) r
      ((pos + saut) :: out, r)

def positionsIid (n : Nat) (p : Taux) (r : ρ) : List Nat × ρ :=
  match p with
  | .nul => ([], r)
  | .plein => (List.range n, r)
  | .entre => iid d n (n + 1) 0 r

def positionsBer (n : Nat) (s : Rafales) (r : ρ) : List Nat × Rafales × ρ :=
  if cfg.rafales then positions d.toSource n s r
  else
    let (out, r) := positionsIid d n cfg.ber r
    (out, s, r)

/-! ### Payloads -/

/-- `for i in range(pos, pos + k): ba[i] = f(ba[i])`, with random numbers. -/
def balaye (f : Byte → ρ → Byte × ρ) : Nat → Nat → List Byte → ρ → List Byte × ρ
  | 0, _, ba, r => (ba, r)
  | k + 1, pos, ba, r =>
    let (b, r) := f (ba.getD pos 0) r
    balaye f k (pos + 1) (ba.set pos b) r

/-- `for i in pos: ba[base + i] = f(ba[base + i])`. -/
def modifie (base : Nat) (f : Byte → Byte) (pos : List Nat) (ba : List Byte) : List Byte :=
  pos.foldl (fun ba i => ba.modify (base + i) f) ba

/-- A hard bit is inverted. -/
def inverse (b : Byte) : Byte := b ^^^ 1

/-- A soft value changes its sign; −128 becomes 127. -/
def oppose (b : Byte) : Byte := BitVec.ofInt 8 (min 127 (-b.toInt))

/-- A soft value gets noise and is cut to −127..127. -/
def bruite (vals : List Byte) (b : Byte) (r : ρ) : Byte × ρ :=
  let (w, r) := d.gauss vals b.toInt r
  (BitVec.ofInt 8 (max (-127) (min 127 w)), r)

/-- Hard bits: every byte of the payload is 0 or 1. -/
def dur (pkt : List Byte) : Bool := (pkt.drop dspHdr).all fun b => b == 0 || b == 1

/-- A random hard bit, or a soft value without information. -/
def perdu (dur : Bool) (_ : Byte) (r : ρ) : Byte × ρ :=
  if dur then
    let (b, r) := d.getrandbits r
    (if b then 1 else 0, r)
  else (0, r)

/-! ### The DSP -/

def horsTn (tn : Nat) : Bool :=
  match cfg.tn with
  | some tns => !tns.contains tn
  | none => false

/-- A burst with hard bits or soft values, in a timeslot selected. -/
def reconnu (pkt : List Byte) : Bool :=
  decide (dspHdr + nbits ≤ pkt.length) && decide (pkt.length - dspHdr < iqMinOctets) &&
    !horsTn cfg ((pkt.getD 0 0) &&& 7).toNat

def perte (r : ρ) : Bool × ρ := if cfg.perte then d.efface r else (false, r)

/-- Is the burst erased? With the random numbers behind the answer. -/
def efface (pkt : List Byte) : Bool × ρ :=
  perte d cfg (d.graine (Dcch.be32 pkt 1) ((pkt.getD 0 0) &&& 7).toNat 0)

/-- The burst behind the erasure. -/
def apresPerte (pkt : List Byte) : List Byte × ρ :=
  let (efface, r) := efface d cfg pkt
  if efface then balaye (perdu d (dur pkt)) (pkt.length - dspHdr) dspHdr pkt r else (pkt, r)

/-- The positions drawn for a burst, none in mode `relais`. -/
def tirage (s : Rafales) (pkt : List Byte) : List Nat × Rafales × ρ :=
  let r := (apresPerte d cfg pkt).2
  let n := pkt.length - dspHdr
  match cfg.mode with
  | .relais => ([], s, r)
  | .ber => positionsBer d cfg n s r
  | .souple =>
    if dur pkt then
      let (out, r) := positionsIid d n cfg.pSouple r
      (out, s, r)
    else ([], s, r)

def dsp (s : Rafales) (pkt : List Byte) : List Byte × Rafales :=
  if !reconnu cfg pkt then (pkt, s)
  else
    let ba := (apresPerte d cfg pkt).1
    let (pos, s, r) := tirage d cfg s pkt
    match cfg.mode with
    | .relais => (ba, s)
    | .ber => (modifie dspHdr (if dur pkt then inverse else oppose) pos ba, s)
    | .souple =>
      if dur pkt then (modifie dspHdr inverse pos ba, s)
      else ((balaye (bruite d (ba.drop dspHdr)) (pkt.length - dspHdr) dspHdr ba r).1, s)

/-! ### gr-gsm -/

def gsmtapHdr (pkt : List Byte) : Nat := (pkt.getD 1 0).toNat * 4

/-- A GSMTAP block of the Um interface, in a timeslot selected. -/
def reconnuGsmtap (pkt : List Byte) : Bool :=
  decide (16 ≤ pkt.length) && pkt.getD 0 0 == 2 && pkt.getD 2 0 == 1 &&
    decide (16 ≤ gsmtapHdr pkt) && decide (gsmtapHdr pkt < pkt.length) &&
    !horsTn cfg ((pkt.getD 3 0) &&& 7).toNat

/-- The positions drawn for a block, none if it is lost. -/
def tirageGsmtap (s : Rafales) (pkt : List Byte) : Option (List Nat) × Rafales :=
  let r := d.graine (Dcch.be32 pkt 8) ((pkt.getD 3 0) &&& 7).toNat (pkt.getD 12 0).toNat
  let (perdu, r) := perte d cfg r
  if perdu then (none, s)
  else if cfg.mode = .relais then (some [], s)
  else
    let (out, s, _) := positionsBer d cfg ((pkt.length - gsmtapHdr pkt) * 8) s r
    (some out, s)

/-- `for i in pos: ba[hdr + (i >> 3)] ^= 0x80 >> (i & 7)`. -/
def inverseBits (hdr : Nat) (pos : List Nat) (ba : List Byte) : List Byte :=
  pos.foldl (fun ba i => ba.modify (hdr + i / 8) (· ^^^ (0x80#8 >>> (i % 8)))) ba

/-- `_grgsm`. A lost block is not sent. -/
def grgsm (s : Rafales) (pkt : List Byte) : Option (List Byte) × Rafales :=
  if !reconnuGsmtap cfg pkt then (some pkt, s)
  else
    let (pos, s) := tirageGsmtap d cfg s pkt
    (pos.map fun pos => inverseBits (gsmtapHdr pkt) pos pkt, s)

def descendant (s : Rafales) (pkt : List Byte) : Option (List Byte) × Rafales :=
  match cfg.cible with
  | .dsp =>
    let (out, s) := dsp d cfg s pkt
    (some out, s)
  | .grgsm => grgsm d cfg s pkt

/-- The injector, from packet to packet. -/
def injecteur : Machine Rafales (List Byte) (List Byte) where
  step s pkt := ((descendant d cfg s pkt).2, (descendant d cfg s pkt).1.toList)

/-! ### What is kept -/

variable {cfg} in
theorem reconnuGsmtap_iff {pkt : List Byte} : reconnuGsmtap cfg pkt ↔
    16 ≤ gsmtapHdr pkt ∧ gsmtapHdr pkt < pkt.length ∧ 16 ≤ pkt.length ∧ pkt.getD 0 0 = 2 ∧
      pkt.getD 2 0 = 1 ∧ horsTn cfg ((pkt.getD 3 0) &&& 7).toNat = false := by
  simp only [reconnuGsmtap, Bool.and_eq_true, decide_eq_true_eq, beq_iff_eq, Bool.not_eq_true']
  tauto

/-- The same length and the same header. -/
def Keeps (hdr : Nat) (l l' : List Byte) : Prop :=
  l'.length = l.length ∧ ∀ k < hdr, l'.getD k 0 = l.getD k 0

variable {d cfg} {hdr : Nat} {l l' l'' : List Byte}

theorem Keeps.refl (hdr : Nat) (l : List Byte) : Keeps hdr l l := ⟨rfl, fun _ _ => rfl⟩

theorem Keeps.trans (h : Keeps hdr l l') (h' : Keeps hdr l' l'') : Keeps hdr l l'' :=
  ⟨h'.1.trans h.1, fun k hk => (h'.2 k hk).trans (h.2 k hk)⟩

theorem Keeps.mono {hdr' : Nat} (h : Keeps hdr l l') (hle : hdr' ≤ hdr) : Keeps hdr' l l' :=
  ⟨h.1, fun k hk => h.2 k (hk.trans_le hle)⟩

theorem keeps_set {pos : Nat} (h : hdr ≤ pos) (b : Byte) : Keeps hdr l (l.set pos b) := by
  refine ⟨length_set, fun k hk => ?_⟩
  rw [getD_eq_getElem?_getD, List.getElem?_set_ne (by omega), ← getD_eq_getElem?_getD]

theorem keeps_modify {pos : Nat} (h : hdr ≤ pos) (f : Byte → Byte) :
    Keeps hdr l (l.modify pos f) := by
  refine ⟨length_modify .., fun k hk => ?_⟩
  rw [getD_eq_getElem?_getD, List.getElem?_modify_ne f l (by omega),
    ← getD_eq_getElem?_getD]

theorem keeps_balaye (f : Byte → ρ → Byte × ρ) {k pos : Nat} (h : hdr ≤ pos) (r : ρ) :
    Keeps hdr l (balaye f k pos l r).1 := by
  induction k generalizing pos l r with
  | zero => exact .refl hdr l
  | succ k ih => exact (keeps_set h _).trans (ih (by omega) _)

theorem keeps_modifie (f : Byte → Byte) (pos : List Nat) : Keeps hdr l (modifie hdr f pos l) := by
  induction pos generalizing l with
  | nil => exact .refl hdr l
  | cons i pos ih => exact (keeps_modify (Nat.le_add_right hdr i) f).trans ih

theorem keeps_inverseBits (pos : List Nat) : Keeps hdr l (inverseBits hdr pos l) := by
  induction pos generalizing l with
  | nil => exact .refl hdr l
  | cons i pos ih => exact (keeps_modify (Nat.le_add_right hdr _) _).trans ih

theorem keeps_apresPerte (pkt : List Byte) : Keeps dspHdr pkt (apresPerte d cfg pkt).1 := by
  unfold apresPerte
  dsimp only
  split
  · exact keeps_balaye _ (Nat.le_refl dspHdr) _
  · exact .refl dspHdr pkt

theorem keeps_dsp (s : Rafales) (pkt : List Byte) : Keeps dspHdr pkt (dsp d cfg s pkt).1 := by
  have hperte : Keeps dspHdr pkt (apresPerte d cfg pkt).1 := keeps_apresPerte pkt
  unfold dsp
  split
  · exact .refl dspHdr pkt
  dsimp only
  split
  · exact hperte
  · exact hperte.trans (keeps_modifie _ _)
  · split
    · exact hperte.trans (keeps_modifie _ _)
    · exact hperte.trans (keeps_balaye _ (Nat.le_refl dspHdr) _)

/-- The header of a block has 16 bytes or more. -/
theorem keeps_grgsm {s : Rafales} {pkt out : List Byte} (h : out ∈ (grgsm d cfg s pkt).1) :
    Keeps 8 pkt out := by
  unfold grgsm at h
  split at h
  · obtain rfl := Option.some.inj h
    exact .refl 8 pkt
  case isFalse hreconnu =>
    dsimp only at h
    obtain ⟨pos, -, rfl⟩ := Option.map_eq_some_iff.mp h
    refine (keeps_inverseBits pos).mono ?_
    have hhdr := (reconnuGsmtap_iff.mp (by simpa using hreconnu)).1
    omega

/-! ### Hard bits -/

theorem getD_modify {k : Nat} (hk : k < l.length) (i : Nat) (f : Byte → Byte) :
    (l.modify i f).getD k 0 = if i = k then f (l.getD k 0) else l.getD k 0 := by
  rw [getD_eq_getElem?_getD, List.getElem?_modify, getD_eq_getElem?_getD,
    List.getElem?_eq_getElem hk]
  rfl

variable {pos : List Nat} {j : Nat}

/-- Every position is met once, so a byte is changed if its position is among those given. -/
theorem getD_modifie (hpos : pos.Nodup) (f : Byte → Byte) (hj : hdr + j < l.length) :
    (modifie hdr f pos l).getD (hdr + j) 0
      = if j ∈ pos then f (l.getD (hdr + j) 0) else l.getD (hdr + j) 0 := by
  induction pos generalizing l with
  | nil => rfl
  | cons i pos ih =>
    obtain ⟨hi, hpos⟩ := List.nodup_cons.mp hpos
    show (modifie hdr f pos (l.modify (hdr + i) f)).getD (hdr + j) 0 = _
    rw [ih hpos (by rwa [length_modify]), getD_modify hj]
    by_cases hij : i = j
    · subst hij
      rw [if_neg hi, if_pos rfl, if_pos mem_cons_self]
    · rw [if_neg (by omega : ¬ hdr + i = hdr + j)]
      exact if_congr (by simp [Ne.symm hij]) rfl rfl

theorem dur_iff : dur l ↔ ∀ k, dspHdr + k < l.length →
    l.getD (dspHdr + k) 0 = 0 ∨ l.getD (dspHdr + k) 0 = 1 := by
  have hget : ∀ k (hk : k < (l.drop dspHdr).length),
      (l.drop dspHdr)[k] = l.getD (dspHdr + k) 0 := by
    intro k hk
    rw [getElem_drop, getD_eq_getElem?_getD, List.getElem?_eq_getElem, Option.getD_some]
  simp only [dur, all_eq_true, Bool.or_eq_true, beq_iff_eq]
  rw [forall_mem_iff_getElem]
  constructor
  · intro h k hk
    have hk' : k < (l.drop dspHdr).length := by rw [length_drop]; omega
    rw [← hget k hk']
    exact h k hk'
  · intro h k hk
    rw [hget k hk]
    exact h k (by rw [length_drop] at hk; omega)

theorem dur_set (h : dur l) {b : Byte} (hb : b = 0 ∨ b = 1) (pos : Nat) :
    dur (l.set pos b) := by
  rw [dur_iff] at h ⊢
  intro k hk
  rw [length_set] at hk
  rw [getD_eq_getElem?_getD, List.getElem?_set]
  split
  · rw [if_pos (by omega)]
    exact hb
  · rw [← getD_eq_getElem?_getD]
    exact h k hk

theorem dur_balaye {f : Byte → ρ → Byte × ρ} (hf : ∀ b r, (f b r).1 = 0 ∨ (f b r).1 = 1)
    (h : dur l) (k pos : Nat) (r : ρ) : dur (balaye f k pos l r).1 := by
  induction k generalizing pos l r with
  | zero => exact h
  | succ k ih => exact ih (dur_set h (hf _ _) pos) _ _

theorem perdu_dur (b : Byte) (r : ρ) : (perdu d true b r).1 = 0 ∨ (perdu d true b r).1 = 1 := by
  unfold perdu
  rw [if_pos rfl]
  dsimp only
  split
  · exact .inr rfl
  · exact .inl rfl

theorem dur_modifie (hpos : pos.Nodup) (h : dur l) :
    dur (modifie dspHdr inverse pos l) := by
  rw [dur_iff] at h ⊢
  intro k hk
  rw [(keeps_modifie inverse pos).1] at hk
  rw [getD_modifie hpos inverse hk]
  split
  · rcases h k hk with h0 | h1
    · rw [h0]
      exact .inr rfl
    · rw [h1]
      exact .inl rfl
  · exact h k hk

theorem dur_apresPerte {pkt : List Byte} (h : dur pkt) :
    dur (apresPerte d cfg pkt).1 := by
  unfold apresPerte
  dsimp only
  split
  · rw [h]
    exact dur_balaye perdu_dur h _ _ _
  · exact h

/-! ### The positions drawn -/

theorem iid_spec (n fuel pos : Nat) (r : ρ) :
    (iid d n fuel pos r).1.Pairwise (· < ·) ∧ ∀ i ∈ (iid d n fuel pos r).1, pos ≤ i := by
  induction fuel generalizing pos r with
  | zero => exact ⟨.nil, nofun⟩
  | succ fuel ih =>
    rw [iid]
    dsimp only
    split
    · exact ⟨.nil, nofun⟩
    · obtain ⟨hpairwise, hle⟩ := ih (pos + (d.saut r).1 + 1) (d.saut r).2
      refine ⟨.cons hle hpairwise, fun i hi => ?_⟩
      rcases List.mem_cons.mp hi with rfl | hi
      · exact Nat.le_add_right _ _
      · have hi' := hle i hi
        omega

/-- The loop ends by itself: more turns would not be taken. -/
theorem iid_fuel {n fuel pos : Nat} (hfuel : n ≤ pos + fuel) (r : ρ) :
    iid d n (fuel + 2) pos r = iid d n (fuel + 1) pos r := by
  induction fuel generalizing pos r with
  | zero =>
    have hend : n ≤ pos + (d.saut r).1 := by omega
    rw [iid, iid]
    dsimp only
    rw [if_pos hend, if_pos hend]
  | succ fuel ih =>
    rw [iid, iid]
    dsimp only
    rw [ih (by omega)]

theorem nodup_positionsIid (n : Nat) (p : Taux) (r : ρ) : (positionsIid d n p r).1.Nodup := by
  cases p with
  | nul => exact .nil
  | plein => exact nodup_range
  | entre => exact (iid_spec n (n + 1) 0 r).1.imp Nat.ne_of_lt

theorem nodup_positionsBer (n : Nat) (s : Rafales) (r : ρ) :
    (positionsBer d cfg n s r).1.Nodup := by
  unfold positionsBer
  split
  · exact (positions_pairwise d.toSource n s r).imp Nat.ne_of_lt
  · exact nodup_positionsIid n cfg.ber r

theorem nodup_tirage (s : Rafales) (pkt : List Byte) : (tirage d cfg s pkt).1.Nodup := by
  unfold tirage
  dsimp only
  split
  · exact .nil
  · exact nodup_positionsBer _ s _
  · split
    · exact nodup_positionsIid _ _ _
    · exact .nil

/-! ### Hard bits of a burst -/

variable {s : Rafales} {pkt : List Byte}

/-- What `_dsp` does to hard bits, in all modes. -/
theorem dsp_dur (hreconnu : reconnu cfg pkt) (hdur : dur pkt) :
    (dsp d cfg s pkt).1
      = modifie dspHdr inverse (tirage d cfg s pkt).1 (apresPerte d cfg pkt).1 := by
  unfold dsp tirage
  rw [hreconnu, hdur]
  dsimp only
  cases cfg.mode with
  | relais | ber | souple => rfl

theorem apresPerte_eq (h : (efface d cfg pkt).1 = false) : (apresPerte d cfg pkt).1 = pkt := by
  unfold apresPerte
  dsimp only
  rw [h]
  rfl

theorem inverse_ne (b : Byte) : inverse b ≠ b := by
  unfold inverse
  revert b
  decide

/-- The bits of a burst that is not erased differ at the positions drawn. -/
theorem dsp_differs (hreconnu : reconnu cfg pkt) (hdur : dur pkt)
    (hefface : (efface d cfg pkt).1 = false) (hj : dspHdr + j < pkt.length) :
    (dsp d cfg s pkt).1.getD (dspHdr + j) 0 ≠ pkt.getD (dspHdr + j) 0 ↔
      j ∈ (tirage d cfg s pkt).1 := by
  rw [dsp_dur hreconnu hdur, apresPerte_eq hefface, getD_modifie (nodup_tirage s pkt) inverse hj]
  split
  case isTrue hmem => exact ⟨fun _ => hmem, fun _ => inverse_ne _⟩
  case isFalse hmem => exact ⟨fun h => absurd rfl h, fun h => absurd h hmem⟩

/-! ### Bits of a block -/

/-- Bit `i` of a block, the first one on top of the first byte. -/
def bitAt (l : List Byte) (i : Nat) : Bool := (l.getD (i / 8) 0).getLsbD (7 - i % 8)

theorem getLsbD_mask : ∀ a b : Fin 8, (0x80#8 >>> a.val).getLsbD (7 - b.val) = decide (a = b) := by
  decide

theorem bitAt_modify (i : Nat) (hj : hdr + j / 8 < l.length) :
    bitAt (l.modify (hdr + i / 8) (· ^^^ (0x80#8 >>> (i % 8)))) (8 * hdr + j)
      = (bitAt l (8 * hdr + j) ^^ decide (i = j)) := by
  have hbyte : (8 * hdr + j) / 8 = hdr + j / 8 := by omega
  have hbit : (8 * hdr + j) % 8 = j % 8 := by omega
  unfold bitAt
  rw [hbyte, hbit, getD_modify hj]
  by_cases hsame : i / 8 = j / 8
  · have hmask := getLsbD_mask ⟨i % 8, Nat.mod_lt i (by decide)⟩ ⟨j % 8, Nat.mod_lt j (by decide)⟩
    rw [if_pos (by omega), BitVec.getLsbD_xor]
    congr 1
    refine hmask.trans (decide_eq_decide.mpr ?_)
    rw [Fin.mk.injEq]
    omega
  · rw [if_neg (by omega), decide_eq_false (by omega : ¬ i = j), Bool.xor_false]

theorem bitAt_inverseBits (hpos : pos.Nodup) (hj : hdr + j / 8 < l.length) :
    bitAt (inverseBits hdr pos l) (8 * hdr + j)
      = (bitAt l (8 * hdr + j) ^^ decide (j ∈ pos)) := by
  induction pos generalizing l with
  | nil => exact (Bool.xor_false _).symm
  | cons i pos ih =>
    obtain ⟨hi, hpos⟩ := List.nodup_cons.mp hpos
    show bitAt (inverseBits hdr pos (l.modify (hdr + i / 8) _)) (8 * hdr + j) = _
    rw [ih hpos (by rwa [length_modify]), bitAt_modify i hj, Bool.xor_assoc]
    congr 1
    by_cases hij : i = j
    · subst hij
      simp [hi]
    · simp [hij, Ne.symm hij]

theorem nodup_tirageGsmtap (h : pos ∈ (tirageGsmtap d cfg s pkt).1) : pos.Nodup := by
  unfold tirageGsmtap at h
  dsimp only at h
  split at h
  · cases h
  split at h
  · obtain rfl := Option.some.inj h
    exact .nil
  · obtain rfl := Option.some.inj h
    exact nodup_positionsBer _ s _

/-- The bits of a block that is not lost differ at the positions drawn. -/
theorem grgsm_differs {out : List Byte} (hreconnu : reconnuGsmtap cfg pkt)
    (hout : out ∈ (grgsm d cfg s pkt).1) (hpos : pos ∈ (tirageGsmtap d cfg s pkt).1)
    (hj : j < (pkt.length - gsmtapHdr pkt) * 8) :
    bitAt out (8 * gsmtapHdr pkt + j) ≠ bitAt pkt (8 * gsmtapHdr pkt + j) ↔ j ∈ pos := by
  have hout' : out = inverseBits (gsmtapHdr pkt) pos pkt := by
    unfold grgsm at hout
    rw [hreconnu] at hout
    dsimp only at hout
    rw [Option.mem_def.mp hpos] at hout
    exact (Option.some.inj hout).symm
  rw [hout', bitAt_inverseBits (nodup_tirageGsmtap hpos) (by omega)]
  by_cases hmem : j ∈ pos <;> simp [hmem]

/-! ### The injector -/

/-- A relay without losses sends every packet as it came. -/
theorem descendant_relais (hmode : cfg.mode = .relais) (hperte : cfg.perte = false)
    (s : Rafales) (pkt : List Byte) : descendant d cfg s pkt = (some pkt, s) := by
  unfold descendant
  cases cfg.cible with
  | dsp =>
    have hefface : (efface d cfg pkt).1 = false := by
      unfold efface perte
      rw [hperte]
      rfl
    have hdsp : dsp d cfg s pkt = (pkt, s) := by
      unfold dsp tirage
      rw [hmode]
      dsimp only
      rw [apresPerte_eq hefface]
      split <;> rfl
    dsimp only
    rw [hdsp]
  | grgsm =>
    unfold grgsm tirageGsmtap perte
    dsimp only
    rw [hperte, hmode]
    split <;> rfl

theorem trace_relais (hmode : cfg.mode = .relais) (hperte : cfg.perte = false) (s : Rafales)
    (pkts : List (List Byte)) : (injecteur d cfg).trace s pkts = pkts := by
  induction pkts generalizing s with
  | nil => rfl
  | cons pkt pkts ih =>
    rw [Machine.trace_cons, ih]
    dsimp only [injecteur]
    rw [descendant_relais hmode hperte]
    rfl

def constant (efface bit : Bool) : Draws Unit where
  sojourn _ r := (1, r)
  sojourn_pos _ _ := Nat.one_pos
  bit r := (bit, r)
  graine _ _ _ := ()
  efface r := (efface, r)
  getrandbits r := (bit, r)
  saut r := (2, r)
  gauss _ v r := (v, r)

def berAvecPerte : Config := ⟨.dsp, .ber, none, true, .entre, false, .nul⟩

end Qosmo.Noise
