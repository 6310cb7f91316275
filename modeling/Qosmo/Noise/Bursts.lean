import Mathlib
import Qosmo.Lib.Marks

/-!
# Qosmo.Noise.Bursts

Bit errors in bursts (class `Rafales` of `tools/injecteur_bruit.py`).

The noise injector draws its errors from a two-state channel: good, with no error, and bad, where
each bit is in error with some probability. How long a state lasts is drawn when it is entered, and
what is left of it is kept from one packet to the next. So the packets are cut from one stream of
errors: `positions_cut`.

The random numbers are a parameter. Nothing is assumed about them but that a state lasts for a bit
at least, as `_geometrique` returns 1 or more.
-/

namespace Qosmo.Noise

open Marks

/-- A source of random numbers: the length of a stay in the good or the bad state, and whether a bit
of the bad state is in error. -/
structure Source (ρ : Type*) where
  sojourn : Bool → ρ → Nat × ρ
  sojourn_pos : ∀ bad r, 0 < (sojourn bad r).1
  bit : ρ → Bool × ρ

/-- The state of the channel, and for how many bits it lasts. -/
structure Sejour where
  mauvais : Bool
  restant : Nat
  restant_pos : 0 < restant

/-- `Rafales`: `restant` is `None` before the first packet, and the state is the good one. -/
abbrev Rafales := Option Sejour

variable {ρ : Type*} (src : Source ρ)

def entre (mauvais : Bool) (r : ρ) : Sejour × ρ :=
  (⟨mauvais, (src.sojourn mauvais r).1, src.sojourn_pos mauvais r⟩, (src.sojourn mauvais r).2)

/-- The positions in error among the `k` bits from `pos` on, in the bad state. -/
def tire : Nat → Nat → ρ → List Nat × ρ
  | 0, _, r => ([], r)
  | k + 1, pos, r =>
    let (erreur, r) := src.bit r
    let (out, r) := tire k (pos + 1) r
    (if erreur then pos :: out else out, r)

/-- `k` bits of the stay are over; the other state comes behind the last one. -/
def avance (k : Nat) (s : Sejour) (r : ρ) : Sejour × ρ :=
  if h : k < s.restant then (⟨s.mauvais, s.restant - k, Nat.sub_pos_of_lt h⟩, r)
  else entre src (!s.mauvais) r

/-- The loop of `positions`. Every turn goes forward by a bit at least, so `fuel` turns are enough
for `fuel` bits. -/
def boucle (n : Nat) : Nat → Nat → Sejour → ρ → List Nat × Sejour × ρ
  | 0, _, s, r => ([], s, r)
  | fuel + 1, pos, s, r =>
    if pos < n then
      let k := min s.restant (n - pos)
      let (out, r) := if s.mauvais then tire src k pos r else ([], r)
      let (s, r) := avance src k s r
      let (out', s, r) := boucle n fuel (pos + k) s r
      (out ++ out', s, r)
    else ([], s, r)

/-- The channel before a packet: at first, the good state is entered. -/
def depart (s : Rafales) (r : ρ) : Sejour × ρ :=
  match s with
  | some s => (s, r)
  | none => entre src false r

def positions (n : Nat) (s : Rafales) (r : ρ) : List Nat × Rafales × ρ :=
  let (s, r) := depart src s r
  let (out, s, r) := boucle src n n 0 s r
  (out, some s, r)

/-! ### Bit by bit -/

/-- A bit of one state: is it in error? -/
def bit (mauvais : Bool) (r : ρ) : Bool × ρ := if mauvais then src.bit r else (false, r)

def next (c : Sejour × ρ) : Bool × Sejour × ρ :=
  let (erreur, r) := bit src c.1.mauvais c.2
  (erreur, avance src 1 c.1 r)

theorem tire_eq (k pos : Nat) (r : ρ) :
    tire src k pos r = (marks pos (emit src.bit k r).1, (emit src.bit k r).2) := by
  induction k generalizing pos r with
  | zero => rfl
  | succ k ih =>
    rw [tire]
    dsimp only
    rw [ih]
    rfl

theorem emit_bon (k : Nat) (r : ρ) : emit (bit src false) k r = (List.replicate k false, r) := by
  induction k with
  | zero => rfl
  | succ k ih =>
    rw [emit]
    show (false :: (emit (bit src false) k r).1, (emit (bit src false) k r).2) = _
    rw [ih]
    rfl

theorem tour_eq (mauvais : Bool) (k pos : Nat) (r : ρ) :
    (if mauvais then tire src k pos r else ([], r))
      = (marks pos (emit (bit src mauvais) k r).1, (emit (bit src mauvais) k r).2) := by
  cases mauvais with
  | true => exact tire_eq src k pos r
  | false =>
    rw [emit_bon, marks_replicate_false]
    rfl

/-- Going forward by one bit, then by `k`. -/
theorem avance_succ {s : Sejour} {k : Nat} (h : 1 < s.restant) (r : ρ) :
    avance src (k + 1) s r
      = avance src k ⟨s.mauvais, s.restant - 1, Nat.sub_pos_of_lt h⟩ r := by
  unfold avance
  by_cases hk : k + 1 < s.restant
  · rw [dif_pos hk, dif_pos (by dsimp only; omega)]
    simp only [Nat.sub_sub, Nat.add_comm 1 k]
  · rw [dif_neg hk, dif_neg (by dsimp only; omega)]

/-- Bits up to the end of a stay are bits of its state. -/
theorem emit_sejour {s : Sejour} {k : Nat} (hpos : 0 < k) (hk : k ≤ s.restant) (r : ρ) :
    emit (next src) k (s, r) = ((emit (bit src s.mauvais) k r).1,
      avance src k s (emit (bit src s.mauvais) k r).2) := by
  obtain ⟨k, rfl⟩ := Nat.exists_eq_add_of_lt hpos
  rw [Nat.zero_add] at hk ⊢
  clear hpos
  induction k generalizing s r with
  | zero => rfl
  | succ k ih =>
    have hlt : 1 < s.restant := by omega
    rw [emit_succ (next src), emit_succ (bit src s.mauvais), avance_succ src hlt]
    have hnext : next src (s, r) = ((bit src s.mauvais r).1,
        ⟨s.mauvais, s.restant - 1, Nat.sub_pos_of_lt hlt⟩, (bit src s.mauvais r).2) := by
      unfold next avance
      dsimp only
      rw [dif_pos hlt]
    rw [hnext]
    dsimp only
    rw [ih (s := ⟨s.mauvais, s.restant - 1, Nat.sub_pos_of_lt hlt⟩) _ (by dsimp only; omega)]

/-- The loop gives the errors of the stream, and has enough turns. -/
theorem boucle_eq (n : Nat) {fuel pos : Nat} (hfuel : n - pos ≤ fuel) (s : Sejour) (r : ρ) :
    boucle src n fuel pos s r = (marks pos (emit (next src) (n - pos) (s, r)).1,
      (emit (next src) (n - pos) (s, r)).2) := by
  induction fuel generalizing pos s r with
  | zero =>
    rw [Nat.le_zero.mp hfuel]
    rfl
  | succ fuel ih =>
    rw [boucle]
    by_cases hpos : pos < n
    · have hk : 0 < min s.restant (n - pos) := Nat.lt_min.mpr ⟨s.restant_pos, by omega⟩
      have hle : min s.restant (n - pos) ≤ n - pos := Nat.min_le_right _ _
      have hsplit : n - pos
          = min s.restant (n - pos) + (n - (pos + min s.restant (n - pos))) := by omega
      rw [if_pos hpos]
      dsimp only
      rw [tour_eq, ih (by omega)]
      dsimp only
      rw [hsplit, emit_add, ← hsplit, emit_sejour src hk (Nat.min_le_left _ _), marks_append]
      dsimp only
      rw [length_emit]
    · rw [if_neg hpos, Nat.sub_eq_zero_of_le (by omega)]
      rfl

/-- The errors of a packet are the next `n` bits of the stream. -/
theorem positions_eq (n : Nat) (s : Rafales) (r : ρ) :
    positions src n s r = (marks 0 (emit (next src) n (depart src s r)).1,
      some (emit (next src) n (depart src s r)).2.1, (emit (next src) n (depart src s r)).2.2) := by
  unfold positions
  dsimp only
  rw [boucle_eq src n (Nat.sub_le n 0)]
  rfl

theorem positions_pairwise (n : Nat) (s : Rafales) (r : ρ) :
    (positions src n s r).1.Pairwise (· < ·) := by
  rw [positions_eq]
  exact marks_pairwise _ _

theorem lt_of_mem_positions {n i : Nat} {s : Rafales} {r : ρ} (h : i ∈ (positions src n s r).1) :
    i < n := by
  rw [positions_eq] at h
  have hlt := (mem_marks h).2
  rwa [length_emit, Nat.zero_add] at hlt

/-! ### Packets -/

/-- The errors of packets of the lengths given, each moved by the lengths before it. -/
def paquets : Nat → List Nat → Rafales → ρ → List Nat
  | _, [], _, _ => []
  | debut, n :: ns, s, r =>
    let (out, s, r) := positions src n s r
    out.map (debut + ·) ++ paquets (debut + n) ns s r

theorem paquets_eq (debut : Nat) (ns : List Nat) (s : Rafales) (r : ρ) :
    paquets src debut ns s r = marks debut (emit (next src) ns.sum (depart src s r)).1 := by
  induction ns generalizing debut s r with
  | nil => rfl
  | cons n ns ih =>
    rw [paquets, positions_eq]
    dsimp only
    rw [ih, List.sum_cons, emit_add, marks_append, length_emit, ← marks_add]
    rfl

/-- **Bursts.** The errors drawn for a packet of `n` bits are strictly increasing positions below
`n`. Drawn packet by packet and put behind one another, they are those of one draw over the whole
stream. -/
theorem positions_cut (s : Rafales) (r : ρ) :
    (∀ n, (positions src n s r).1.Pairwise (· < ·) ∧ ∀ i ∈ (positions src n s r).1, i < n) ∧
      ∀ ns : List Nat, paquets src 0 ns s r = (positions src ns.sum s r).1 := by
  refine ⟨fun n => ⟨positions_pairwise src n s r, fun i => lt_of_mem_positions src⟩, fun ns => ?_⟩
  rw [paquets_eq, positions_eq]

end Qosmo.Noise
