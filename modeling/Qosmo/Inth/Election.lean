import Qosmo.Inth

/-!
# Qosmo.Inth.Election

Which source the controller elects, and which line it drives.

The comment at the ILR write documents the register: bit 0 routes the source to FIQ, bit 1
selects edge, bits 6:2 are the priority. `Documented` is the controller's contract in these
terms. The code reads the register otherwise: the priority in bits 4:0, the route in bit 8,
which the write has just cleared. And two calls, a write to ILR and the DSP's
acknowledgement, change what the election depends on without electing again.

So the contract holds along the runs that keep clear of all this (`Clear`): no source is
routed to FIQ, the low five bits order the programmed values as the priority field does, ILR
is written for a source that is not active, and the DSP acknowledges when nothing is elected
(`line_and_number_documented`). One call outside breaks it (`line_and_number_wrong`).
-/

namespace Qosmo.Inth

open Function

variable {s : Inth}

/-! ### The contract -/

/-- The fields of ILR as the source documents them. -/
def routedFiq (v : Word) : Bool := bitSet v 0
def priority (v : Word) : Nat := ((v >>> 2) &&& 0x1F).toNat

/-- The priority as `calypso_inth_update` reads it. -/
def readPriority (v : Word) : Nat := (v &&& 0x1F).toNat

def irqSource (s : Inth) (i : Irq) : Bool := s.active i && !routedFiq (s.ilr i)

/-- What the lines to the CPU and IRQ_NUM should say. -/
structure Documented (s : Inth) : Prop where
  irqLine : s.parentIrq = true ↔ ∃ i, s.irqSource i = true
  irqNum : s.parentIrq = true → s.irqSource s.ithV = true ∧
    ∀ j, s.irqSource j = true → priority (s.ilr s.ithV) ≤ priority (s.ilr j)
  fiqLine : s.parentFiq = true ↔ ∃ i, s.active i = true ∧ routedFiq (s.ilr i) = true

/-! ### The scan finds a least source -/

/-- What the scan knows after the places `js`, no source being routed by bit 8. -/
structure Scanned (s : Inth) (js : List Irq) (b : Scan) : Prop where
  none : b.bestIrq = none → b.bestIrqPrio = 0x7F ∧ ∀ j ∈ js, s.active (s.rrStart + j) = false
  some : ∀ i, b.bestIrq = some i → s.active i = true ∧ readPriority (s.ilr i) = b.bestIrqPrio ∧
    ∀ j ∈ js, s.active (s.rrStart + j) = true →
      b.bestIrqPrio ≤ readPriority (s.ilr (s.rrStart + j))

theorem readPriority_lt (v : Word) : readPriority v < 0x20 := by
  unfold readPriority
  have hle : (v &&& 0x1F).toNat ≤ 0x1F := by
    rw [BitVec.toNat_and]
    exact Nat.and_le_right
  omega

section

variable (hno : ∀ i, bitSet (s.ilr i) 8 = false)

include hno

/-- One place of the scan, no source being routed by bit 8. -/
theorem consider_eq (b : Scan) (j : Irq) :
    s.consider b j
      = if s.active (s.rrStart + j) ∧
          readPriority (s.ilr (s.rrStart + j)) < b.bestIrqPrio then
          { b with
            bestIrqPrio := readPriority (s.ilr (s.rrStart + j))
            bestIrq := some (s.rrStart + j) }
        else b := by
  simp only [consider, hno, Bool.false_eq_true, if_false]
  cases s.active (s.rrStart + j) with
  | false => rfl
  | true =>
    rw [if_neg (by simp)]
    exact if_congr (by simp [readPriority]) rfl rfl

theorem Scanned.consider {js : List Irq} {b : Scan} (h : s.Scanned js b) (j : Irq) :
    s.Scanned (js ++ [j]) (s.consider b j) := by
  rw [consider_eq hno]
  split
  · -- a new best: below every place seen so far
    rename_i hbetter
    obtain ⟨hact, hbetter⟩ := hbetter
    refine ⟨nofun, fun i hi => ?_⟩
    obtain rfl : s.rrStart + j = i := Option.some.inj hi
    refine ⟨hact, rfl, fun k hk hkact => ?_⟩
    rcases List.mem_append.mp hk with hk | hk
    · cases hbest : b.bestIrq with
      | none =>
        rw [(h.none hbest).2 k hk] at hkact
        cases hkact
      | some i => exact hbetter.le.trans ((h.some i hbest).2.2 k hk hkact)
    · rw [List.mem_singleton.mp hk]
  · rename_i hworse
    have hlast : s.active (s.rrStart + j) →
        b.bestIrqPrio ≤ readPriority (s.ilr (s.rrStart + j)) :=
      fun hact => Nat.le_of_not_lt fun hbetter => hworse ⟨hact, hbetter⟩
    refine ⟨fun hnone => ⟨(h.none hnone).1, fun k hk => ?_⟩, fun i hi => ?_⟩
    · rcases List.mem_append.mp hk with hk | hk
      · exact (h.none hnone).2 k hk
      · -- with nothing found yet every priority would be a new best
        rw [List.mem_singleton.mp hk, Bool.eq_false_iff]
        intro hact
        have hle := hlast hact
        have hlt := readPriority_lt (s.ilr (s.rrStart + j))
        rw [(h.none hnone).1] at hle
        omega
    · obtain ⟨hi₁, hi₂, hi₃⟩ := h.some i hi
      refine ⟨hi₁, hi₂, fun k hk hkact => ?_⟩
      rcases List.mem_append.mp hk with hk | hk
      · exact hi₃ k hk hkact
      · rw [List.mem_singleton.mp hk] at hkact ⊢
        exact hlast hkact

/-- The whole scan: every source is at some place of the rotation. -/
theorem scan_scanned : s.Scanned (List.finRange 32) s.scan := by
  have key : ∀ (rest seen : List Irq) (b : Scan), s.Scanned seen b →
      s.Scanned (seen ++ rest) (rest.foldl s.consider b) := by
    intro rest
    induction rest with
    | nil =>
      intro seen b h
      rw [List.append_nil]
      exact h
    | cons j rest ih =>
      intro seen b h
      rw [List.append_cons]
      exact ih _ _ (h.consider hno j)
  exact key _ [] {} ⟨fun _ => ⟨rfl, by simp⟩, fun i hi => by cases hi⟩

end

/-- The lines and IRQ_NUM match the pending sources, the priorities being those the code
reads. -/
structure Elected (s : Inth) : Prop where
  line : s.parentIrq = true ↔ ∃ i, s.active i = true
  num : s.parentIrq = true → s.active s.ithV = true ∧
    ∀ j, s.active j = true → readPriority (s.ilr s.ithV) ≤ readPriority (s.ilr j)
  fiq : s.parentFiq = false

/-- **What an update establishes**, with no source routed by bit 8. -/
theorem update_elected (hno : ∀ i, bitSet (s.ilr i) 8 = false) : s.update.Elected := by
  have hscan := scan_scanned hno
  have hplace : ∀ i : Irq, s.rrStart + (i - s.rrStart) = i := fun i => add_sub_cancel _ i
  have hall : ∀ i : Irq, i - s.rrStart ∈ List.finRange 32 := fun i => List.mem_finRange _
  cases hbest : s.scan.bestIrq with
  | none =>
    have hnone : ∀ i, s.active i = false := by
      intro i
      have := (hscan.none hbest).2 _ (hall i)
      rwa [hplace] at this
    have hline : s.update.parentIrq = false := by simp [update, hbest]
    refine ⟨?_, ?_, ?_⟩
    · rw [hline]
      simp [hnone]
    · rw [hline]
      intro h
      cases h
    · simp [update, scan_bestFiq hno]
  | some i =>
    obtain ⟨hact, hprio, hleast⟩ := hscan.some i hbest
    have hnum : s.update.ithV = i := by simp [update, hbest]
    refine ⟨?_, ?_, ?_⟩
    · simp only [update_active]
      exact ⟨fun _ => ⟨i, hact⟩, fun _ => by simp [update, hbest]⟩
    · intro _
      rw [hnum]
      simp only [update_active, update_ilr]
      refine ⟨hact, fun j hj => ?_⟩
      have := hleast _ (hall j)
      rw [hplace] at this
      rw [hprio]
      exact this hj
    · simp [update, scan_bestFiq hno]

/-! ### Runs that keep clear of the differences -/

/-- The order the code sees between two ILR values is the documented one. -/
def Agree (v w : Word) : Prop := readPriority v ≤ readPriority w → priority v ≤ priority w

instance (v w : Word) : Decidable (Agree v w) :=
  inferInstanceAs (Decidable (readPriority v ≤ readPriority w → priority v ≤ priority w))

/-- A call that keeps clear of what the code does otherwise than documented. -/
def Clear (s : Inth) : Event → Prop
  | .write offset value => ∀ idx, ilrIndex offset = some idx →
      s.active idx = false ∧ routedFiq value = false ∧
        ∀ i, i ≠ idx → Agree (s.ilrStored idx value) (s.ilr i) ∧ Agree (s.ilr i) (s.ilrStored idx value)
  | .armAck => s.active s.ithV = false
  | .setIrq _ _ => True
  | .read _ => True

/-- What such runs preserve. -/
structure Sound (s : Inth) : Prop where
  noFiq : ∀ i, bitSet (s.ilr i) 8 = false
  noRoute : ∀ i, routedFiq (s.ilr i) = false
  agree : ∀ i j, Agree (s.ilr i) (s.ilr j)
  elected : s.Elected

theorem Sound.documented (h : s.Sound) : s.Documented := by
  have hsource : ∀ i, s.irqSource i = s.active i := by
    intro i
    simp [irqSource, h.noRoute]
  refine ⟨?_, fun hline => ?_, ?_⟩
  · simp only [hsource]
    exact h.elected.line
  · obtain ⟨hact, hleast⟩ := h.elected.num hline
    simp only [hsource]
    exact ⟨hact, fun j hj => h.agree _ j (hleast j hj)⟩
  · simp [h.elected.fiq, h.noRoute]

theorem reset_sound : reset.Sound where
  noFiq := fun _ => by simp [reset, bitSet]
  noRoute := fun _ => by simp [reset, routedFiq, bitSet]
  agree := fun _ _ _ => Nat.le_refl _
  elected := by
    have hnone : ∀ i, reset.active i = false := fun i => by
      simp [active, irqPending, reset, bitSet]
    refine ⟨⟨fun h => absurd h (by decide), fun h => ?_⟩, fun h => absurd h (by decide), rfl⟩
    obtain ⟨i, hi⟩ := h
    rw [hnone i] at hi
    cases hi

/-- Any call that ends with an update and leaves ILR alone. -/
theorem Sound.of_updated {s' : Inth} (h : s.Sound) (hupdated : s.Updated s') : s'.Sound := by
  obtain ⟨t, rfl, ht, -⟩ := hupdated
  have hno : ∀ i, bitSet (t.ilr i) 8 = false := by
    rw [ht]
    exact h.noFiq
  refine ⟨hno, ?_, ?_, update_elected hno⟩
  · rw [update_ilr, ht]
    exact h.noRoute
  · rw [update_ilr, ht]
    exact h.agree

/-- Programming ILR for a source that is not active changes nothing the election saw. -/
theorem Sound.ilrWrite (h : s.Sound) {idx : Irq} {value : Word} (hidle : s.active idx = false)
    (hroute : routedFiq value = false)
    (hagree : ∀ i, i ≠ idx → Agree (s.ilrStored idx value) (s.ilr i) ∧
      Agree (s.ilr i) (s.ilrStored idx value)) : (s.ilrWrite idx value).Sound := by
  have hkeep : ∀ i, s.active i → (s.ilrWrite idx value).ilr i = s.ilr i := by
    intro i hi
    rw [ilrWrite_ilr, update_of_ne]
    rintro rfl
    rw [hidle] at hi
    cases hi
  have hstored : routedFiq (s.ilrStored idx value) = false := by
    have h4 : (s.ilr 4)[0] = false := h.noRoute 4
    have hroute : value[0] = false := hroute
    unfold ilrStored
    split
    · simp [bitSet, routedFiq, h4]
    · simp [bitSet, routedFiq, hroute]
  refine ⟨ilrWrite_noFiq h.noFiq idx value, fun i => ?_, fun i j => ?_, ?_⟩
  · rw [ilrWrite_ilr]
    by_cases hi : i = idx
    · rw [hi, update_self]
      exact hstored
    · rw [update_of_ne hi]
      exact h.noRoute i
  · rw [ilrWrite_ilr]
    by_cases hi : i = idx
    · by_cases hj : j = idx
      · rw [hi, hj]
        exact fun _ => Nat.le_refl _
      · rw [hi, update_self, update_of_ne hj]
        exact (hagree j hj).1
    · by_cases hj : j = idx
      · rw [hj, update_self, update_of_ne hi]
        exact (hagree i hi).2
      · rw [update_of_ne hi, update_of_ne hj]
        exact h.agree i j
  · refine ⟨h.elected.line, fun hline => ?_, h.elected.fiq⟩
    obtain ⟨hact, hleast⟩ := h.elected.num hline
    refine ⟨hact, fun j hj => ?_⟩
    rw [hkeep j hj]
    show readPriority ((s.ilrWrite idx value).ilr s.ithV) ≤ _
    rw [hkeep _ hact]
    exact hleast j hj

/-- Acknowledging with nothing elected touches no active source. -/
theorem Sound.armAck (h : s.Sound) (hidle : s.active s.ithV = false) : s.armAck.Sound := by
  have hline : s.parentIrq = false := by
    by_contra hup
    rw [Bool.not_eq_false] at hup
    rw [(h.elected.num hup).1] at hidle
    cases hidle
  have hnone : ∀ i, s.active i = false := by
    intro i
    by_contra hi
    rw [Bool.not_eq_false] at hi
    rw [h.elected.line.mpr ⟨i, hi⟩] at hline
    cases hline
  unfold Inth.armAck
  split
  · have hnone' : ∀ i, (s.drop s.ithV).active i = false := by
      intro i
      have hi := hnone i
      simp only [active, drop_irqPending, Bool.and_eq_false_iff] at hi ⊢
      rcases hi with hi | hi
      · exact .inl (.inl hi)
      · exact .inr hi
    refine ⟨h.noFiq, h.noRoute, h.agree, ?_, ?_, h.elected.fiq⟩
    · show s.parentIrq ↔ ∃ i, (s.drop s.ithV).active i
      simp [hline, hnone']
    · intro hup
      have hup : s.parentIrq := hup
      rw [hline] at hup
      cases hup
  · exact h

theorem step_sound (h : s.Sound) {e : Event} (hclear : s.Clear e) : (s.step e).1.Sound := by
  have hcall := called_step s e
  generalize (s.step e).1 = s' at hcall ⊢
  cases hcall with
  | same => exact h
  | updated hupdated => exact h.of_updated hupdated
  | ilr value hidx =>
    obtain ⟨hidle, hroute, hagree⟩ := hclear _ hidx
    exact h.ilrWrite hidle hroute hagree
  | armAck => exact h.armAck hclear

/-- **Lines and number as documented**, after every call of a run that keeps clear. -/
theorem line_and_number_documented (es : List Event) (h : machine.Along Clear reset es) :
    (machine.final reset es).Documented := by
  have hsound : (machine.final reset es).Sound :=
    Machine.invariant (I := Sound) (fun t e ht hclear => step_sound ht hclear) reset_sound h
  exact hsound.documented

/-- Source 4 programmed edge with priority 3, then raised. -/
theorem line_and_number_frame :
    (machine.final reset [.write 0x28 0x0E, .setIrq 4 true]).Documented := by
  refine line_and_number_documented _ ⟨?_, trivial, trivial⟩
  intro idx hidx
  obtain rfl : (4 : Irq) = idx := Option.some.inj hidx
  exact ⟨by decide, by decide, fun i _ => by show Agree _ 0 ∧ Agree 0 _; decide⟩

/-- A source routed to FIQ raises IRQ; of priorities 1 and 8 the second is elected; the line
stays up when the DSP has acknowledged the only source; and a source reprogrammed while
active is still ranked by its old priority. -/
theorem line_and_number_wrong :
    ¬ (machine.final reset [.write 0x28 0x01, .setIrq 4 true]).Documented ∧
      ¬ (machine.final reset [.write 0x28 0x04, .write 0x2A 0x20, .setIrq 4 true,
        .setIrq 5 true]).Documented ∧
      ¬ (machine.final reset [.setIrq 4 true, .armAck]).Documented ∧
      ¬ (machine.final reset [.write 0x28 0x04, .write 0x2A 0x08, .setIrq 4 true,
        .setIrq 5 true, .write 0x28 0x0C]).Documented := by
  refine ⟨fun h => ?_, fun h => ?_, fun h => ?_, fun h => ?_⟩
  · exact absurd (h.fiqLine.mpr ⟨4, by decide⟩) (by decide)
  · exact absurd ((h.irqNum (by decide)).2 4 (by decide)) (by decide)
  · exact absurd (h.irqNum (by decide)).1 (by decide)
  · exact absurd ((h.irqNum (by decide)).2 5 (by decide)) (by decide)

end Qosmo.Inth
