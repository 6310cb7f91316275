import Qosmo.Inth.Election
import Qosmo.Inth.Latch

/-!
# Qosmo.Inth.Rotation

Whose turn it is among sources of equal priority.

The scan of `calypso_inth_update` starts at `rr_start` and keeps the first source it meets,
so with equal priorities the elected source is the first active one of the rotation (`Turn`).
An end-of-interrupt write restarts the rotation behind the *elected* source. The guest has
served the one that IRQ_NUM returned last, and by then another may be elected: an edge source
is withdrawn as IRQ_NUM is read, a level source when its handler lowers the line.

Where both are the same (`Current`) the rotation is fair. A waiting source's distance from
`rr_start` falls with every service of another source (`distance_lt`), so at most 31 of them
come first (`rotation_fair`). Otherwise the elected source is passed over unserved, again and
again if the other one comes back in time (`rotation_starves`).
-/

namespace Qosmo.Inth

open List

variable {s : Inth} {p : Irq}

/-! ### The first active source of the rotation -/

/-- The active sources have one priority. -/
def EqualPriority (s : Inth) : Prop :=
  ∀ i j, s.active i = true → s.active j = true → readPriority (s.ilr i) = readPriority (s.ilr j)

/-- If any source is active, an active one is elected, and none stands before it. -/
def Turn (s : Inth) : Prop :=
  ∀ i, s.active i = true →
    s.active s.ithV = true ∧ (s.ithV - s.rrStart).val ≤ (i - s.rrStart).val

/-- With nothing found, a place is taken if its source is active. -/
theorem consider_none (hno : ∀ i, bitSet (s.ilr i) 8 = false) (j : Irq) :
    s.consider {} j = if s.active (s.rrStart + j) then
      { bestIrq := some (s.rrStart + j), bestIrqPrio := readPriority (s.ilr (s.rrStart + j)) }
    else {} := by
  have hlt : readPriority (s.ilr (s.rrStart + j)) < 0x7F :=
    (readPriority_lt _).trans (by decide)
  rw [consider_eq hno]
  simp only [hlt, and_true]

section

variable (hno : ∀ i, bitSet (s.ilr i) 8 = false) (heq : s.EqualPriority)

include hno heq

/-- With equal priorities, what was found first stays. -/
theorem consider_some {i : Irq} (hi : s.active i) (j : Irq) :
    s.consider { bestIrq := some i, bestIrqPrio := readPriority (s.ilr i) } j
      = { bestIrq := some i, bestIrqPrio := readPriority (s.ilr i) } := by
  rw [consider_eq hno, if_neg]
  rintro ⟨hact, hlt⟩
  rw [heq _ _ hact hi] at hlt
  exact Nat.lt_irrefl _ hlt

theorem foldl_consider_some {i : Irq} (hi : s.active i) (js : List Irq) :
    js.foldl s.consider { bestIrq := some i, bestIrqPrio := readPriority (s.ilr i) }
      = { bestIrq := some i, bestIrqPrio := readPriority (s.ilr i) } := by
  induction js with
  | nil => rfl
  | cons j js ih => rw [foldl_cons, consider_some hno heq hi, ih]

/-- The scan ends with the first active source. -/
theorem foldl_consider_none (js : List Irq) :
    (js.foldl s.consider {}).bestIrq
      = (js.find? fun j => s.active (s.rrStart + j)).map (s.rrStart + ·) := by
  induction js with
  | nil => rfl
  | cons j js ih =>
    rw [foldl_cons, consider_none hno]
    cases hact : s.active (s.rrStart + j) with
    | false =>
      rw [if_neg (by simp), ih, List.find?_cons_of_neg (by simp [hact])]
    | true =>
      rw [if_pos rfl, foldl_consider_some hno heq hact, List.find?_cons_of_pos (by exact hact)]
      rfl

/-- **What an update establishes** among sources of equal priority. -/
theorem update_turn : s.update.Turn := by
  intro i hi
  have hi : s.active i := hi
  have hplace : s.rrStart + (i - s.rrStart) = i := add_sub_cancel _ _
  have hscan : s.scan.bestIrq = _ := foldl_consider_none hno heq (List.finRange 32)
  cases hfind : (List.finRange 32).find? fun j => s.active (s.rrStart + j) with
  | none =>
    have hnone := List.find?_eq_none.mp hfind (i - s.rrStart) (mem_finRange _)
    rw [hplace] at hnone
    exact absurd hi hnone
  | some j =>
    rw [hfind, Option.map_some] at hscan
    have hnum : s.update.ithV = s.rrStart + j := by simp [update, hscan]
    obtain ⟨hact, k, hk, hkj, hbefore⟩ := List.find?_eq_some_iff_getElem.mp hfind
    have hkval : k = j.val := by
      have := congrArg Fin.val hkj
      simpa using this
    refine ⟨?_, ?_⟩
    · rw [update_active, hnum]
      exact hact
    · show (s.update.ithV - s.rrStart).val ≤ (i - s.rrStart).val
      rw [hnum, add_sub_cancel_left, ← hkval]
      by_contra hlt
      have hearlier := hbefore (i - s.rrStart).val (Nat.lt_of_not_le hlt)
      simp only [getElem_finRange, Fin.cast_mk, Fin.eta, Bool.not_eq_true'] at hearlier
      rw [hplace, hi] at hearlier
      cases hearlier

end

/-! ### Runs -/

/-- A write to IRQ_CTRL. -/
def Event.endsService : Event → Bool
  | .write offset _ => isIrqCtrl offset
  | _ => false

/-- Lines and the guest, the active sources being of equal priority after the call. The DSP's
acknowledgement is no guest service. -/
def Equal (s : Inth) (e : Event) : Prop := e ≠ .armAck ∧ (s.step e).1.EqualPriority

theorem turn_of_updated {s' : Inth} (h : s.NoFiq) (hupdated : s.Updated s')
    (heq : s'.EqualPriority) : s'.Turn := by
  obtain ⟨t, rfl, hilr, -⟩ := hupdated
  refine update_turn ?_ heq
  rw [hilr]
  exact h.route

variable {e : Event}

/-- **One call** leaves the first active source elected. -/
theorem step_turn (hno : s.NoFiq) (h : s.Turn) (he : s.Equal e) : (s.step e).1.Turn := by
  obtain ⟨hack, heq⟩ := he
  have hcall := called_step s e
  generalize (s.step e).1 = s' at hcall heq ⊢
  cases hcall with
  | same => exact h
  | updated hupdated => exact turn_of_updated hno hupdated heq
  -- the election is not run, and does not depend on ILR while priorities are equal
  | ilr => exact h
  | armAck => exact absurd rfl hack

theorem reset_turn : reset.Turn := by
  intro i hi
  simp [active, irqPending, reset, bitSet] at hi

/-- Only the end of a service moves the rotation. -/
theorem step_rrStart (hack : e ≠ .armAck) (hend : e.endsService = false) :
    (s.step e).1.rrStart = s.rrStart := by
  cases e with
  | setIrq irq level =>
    simp only [step, setIrq]
    split_ifs <;> rfl
  | read offset =>
    have htake : ∀ (t : Inth) (num : Irq), (t.take num).rrStart = t.rrStart := by
      intro t num
      unfold take
      split <;> rfl
    have hread := reads_read s offset
    simp only [step]
    generalize (s.read offset).1 = s' at hread ⊢
    cases hread with
    | irqNum | fiqNum => exact htake _ _
    | same => rfl
  | write offset value =>
    have hend : isIrqCtrl offset = false := hend
    simp only [step, write, hend, Bool.false_eq_true, if_false]
    split_ifs <;> rfl
  | armAck => exact absurd rfl hack

/-- The end of a service: the rotation restarts behind the elected source. -/
theorem endOfService_rrStart (hend : e.endsService) (hact : s.active s.ithV) :
    (s.step e).1.rrStart = s.ithV + 1 ∧ (s.step e).1.lastNum = s.lastNum := by
  cases e with
  | write offset value =>
    have hctrl : isIrqCtrl offset := hend
    have hwrite : s.write offset value = s.endOfService value := by
      simp only [isIrqCtrl, Bool.or_eq_true, beq_iff_eq] at hctrl
      rcases hctrl with rfl | rfl <;> rfl
    have hcond : s.ithV ≠ 0 ∨ bitSet s.levels 0 := by
      by_cases hzero : s.ithV = 0
      · rw [hzero, active, Bool.and_eq_true] at hact
        exact .inr hact.1
      · exact .inl hzero
    simp only [step, hwrite]
    refine ⟨?_, rfl⟩
    show (if s.ithV ≠ 0 ∨ bitSet s.levels 0 then s.ithV + 1 else s.rrStart) = _
    rw [if_pos hcond]
  | setIrq | read | armAck => cases hend

/-- The source last returned is the one elected, at the end of a service. -/
def Current (s : Inth) (e : Event) : Prop :=
  e.endsService = true → s.ithV = s.lastNum ∧ s.active s.lastNum = true

/-- The rotation restarts just after the source last returned. -/
def Restarts (s : Inth) (e : Event) : Prop :=
  e.endsService = true → (s.step e).1.rrStart.val = (s.lastNum.val + 1) % 32

theorem restarts_of_current (h : s.Current e) : s.Restarts e := by
  intro hend
  obtain ⟨hnum, hact⟩ := h hend
  rw [← hnum] at hact ⊢
  rw [(endOfService_rrStart hend hact).1]
  exact Fin.val_add s.ithV 1

/-! ### Waiting -/

/-- Does IRQ_NUM return the source here? -/
def returned (p : Irq) (s : Inth) : Event → Bool
  | .read offset => isIrqNum offset && s.ithV == p
  | _ => false

/-- The source is active, and this call does not return it. -/
def Waits (p : Irq) (s : Inth) (e : Event) : Prop := s.active p = true ∧ returned p s e = false

instance (p : Irq) (s : Inth) (e : Event) : Decidable (Waits p s e) :=
  inferInstanceAs (Decidable (s.active p = true ∧ returned p s e = false))

/-- The controller, showing the services that end, by the number IRQ_NUM returned. -/
def services : Machine Inth Event Irq :=
  ⟨fun s e => ((s.step e).1, if e.endsService then [s.lastNum] else [])⟩

/-- A source behind the elected one comes closer when the rotation restarts there. -/
theorem distance_lt {v r : Irq} (hle : (v - r).val ≤ (p - r).val) (hne : v ≠ p) :
    (p - (v + 1)).val < (p - r).val := by
  have hne : v.val ≠ p.val := fun h => hne (Fin.ext h)
  simp only [Fin.sub_def, Fin.val_add] at hle ⊢
  omega

/-- Only IRQ_NUM hands out a number. -/
theorem read_lastNum {offset : Nat} (h : isIrqNum offset = false) :
    (s.read offset).1.lastNum = s.lastNum := by
  have hread := reads_read s offset
  generalize (s.read offset).1 = s' at hread ⊢
  cases hread with
  | irqNum hnum => simp [h] at hnum
  | fiqNum => exact take_lastNum _ _
  | same => rfl

/-- While it waits, no call makes the source the one last returned. -/
theorem Waits.lastNum_ne (h : Waits p s e) (hack : e ≠ .armAck)
    (hne : s.lastNum ≠ p) : (s.step e).1.lastNum ≠ p := by
  cases e with
  | setIrq irq level =>
    show (s.setIrq irq level).lastNum ≠ p
    rw [setIrq_lastNum]
    exact hne
  | read offset =>
    show (s.read offset).1.lastNum ≠ p
    cases hnum : isIrqNum offset with
    | true =>
      have hnot : s.ithV ≠ p := by simpa [returned, hnum] using h.2
      rw [(read_irqNum s hnum).1]
      exact hnot
    | false =>
      rw [read_lastNum hnum]
      exact hne
  | write offset value =>
    show (s.write offset value).lastNum ≠ p
    rw [(write_frame s offset value).1]
    exact hne
  | armAck => exact absurd rfl hack

/-- What the bound is proved under. -/
def Fair (p : Irq) (s : Inth) (e : Event) : Prop := (s.Equal e ∧ s.Current e) ∧ Waits p s e

variable {es : List Event}

/-- **The bound.** Once another source is in service, the waiting one's distance from the start
of the rotation bounds the services that end before its turn. -/
theorem services_le_distance (hno : s.NoFiq) (hturn : s.Turn)
    (hne : s.lastNum ≠ p) (h : machine.Along (Fair p) s es) :
    (services.trace s es).length ≤ (p - s.rrStart).val := by
  induction es generalizing s with
  | nil => exact Nat.zero_le _
  | cons e es ih =>
    obtain ⟨⟨⟨hequal, hcurrent⟩, hwaits⟩, hrest⟩ := h
    have hrun := ih (step_noFiq hno e) (step_turn hno hturn hequal)
      (hwaits.lastNum_ne hequal.1 hne) hrest
    have hshown : (services.trace s (e :: es)).length
        = (if e.endsService then [s.lastNum] else []).length
          + (services.trace (s.step e).1 es).length := length_append
    rw [hshown]
    cases hend : e.endsService with
    | true =>
      -- the source served is the elected one, which stands before `p`
      obtain ⟨hnum, -⟩ := hcurrent hend
      obtain ⟨hact, hfirst⟩ := hturn p hwaits.1
      have hcloser := distance_lt hfirst (hnum.trans_ne hne)
      rw [← (endOfService_rrStart hend hact).1] at hcloser
      rw [if_pos rfl, length_singleton, Nat.add_comm]
      exact hrun.trans_lt hcloser
    | false =>
      -- no service ends and the rotation stays where it is
      rw [if_neg (by simp), length_nil, Nat.zero_add]
      rw [step_rrStart hequal.1 hend] at hrun
      exact hrun

/-- The services of others that end while the source waits. -/
theorem other_services_le (hno : s.NoFiq) (hturn : s.Turn) (h : machine.Along (Fair p) s es) :
    ((services.trace s es).filter (· ≠ p)).length ≤ 31 := by
  induction es generalizing s with
  | nil => exact Nat.zero_le _
  | cons e es ih =>
    by_cases hne : s.lastNum = p
    · -- its own service has not ended yet: what ends here is not another's
      obtain ⟨⟨⟨hequal, -⟩, -⟩, hrest⟩ := h
      have hrun := ih (step_noFiq hno e) (step_turn hno hturn hequal) hrest
      have hshown : (services.trace s (e :: es)).filter (· ≠ p)
          = (services.trace (s.step e).1 es).filter (· ≠ p) := by
        have hown : (if e.endsService then [s.lastNum] else []).filter (· ≠ p) = [] := by
          rw [hne]
          split <;> simp
        rw [Machine.trace_cons, filter_append]
        show (if e.endsService then [s.lastNum] else []).filter (· ≠ p) ++ _ = _
        rw [hown]
        rfl
      rw [hshown]
      exact hrun
    · -- from here on `p` only comes closer
      have hbound := services_le_distance hno hturn hne h
      have hall := length_filter_le (· ≠ p) (services.trace s (e :: es))
      have hlt := (p - s.rrStart).isLt
      omega

/-- **The rotation is fair** among sources of equal priority, for every interleaving of their
lines and the guest's accesses in which each service ends while the source last returned is
still the elected one: the rotation restarts just after that source, and while a source stays
active without being returned by IRQ_NUM, at most 31 services of others end. -/
theorem rotation_fair (before after : List Event) (p : Irq)
    (hrun : machine.Along (fun s e => s.Equal e ∧ s.Current e) reset (before ++ after))
    (hwaits : machine.Along (Waits p) (machine.final reset before) after) :
    machine.Along Restarts reset (before ++ after) ∧
      ((services.trace (machine.final reset before) after).filter (· ≠ p)).length ≤ 31 := by
  obtain ⟨hbefore, hafter⟩ := hrun.of_append
  have hinv : (machine.final reset before).NoFiq ∧ (machine.final reset before).Turn :=
    Machine.invariant (I := fun t => t.NoFiq ∧ t.Turn)
      (fun t e ht he => ⟨step_noFiq ht.1 e, step_turn ht.1 ht.2 he.1⟩)
      ⟨reset_noFiq, reset_turn⟩ hbefore
  refine ⟨hrun.mono fun t e he => restarts_of_current he.2, ?_⟩
  exact other_services_le hinv.1 hinv.2 (hafter.and hwaits)

/-- Calls of the lines and the guest that do not program ILR. -/
def Event.keepsIlr : Event → Bool
  | .write offset _ => (ilrIndex offset).isNone
  | .armAck => false
  | .setIrq _ _ | .read _ => true

theorem step_ilr (he : e.keepsIlr) : (s.step e).1.ilr = s.ilr := by
  have hcall := called_step s e
  generalize (s.step e).1 = s' at hcall ⊢
  cases hcall with
  | same => rfl
  | updated hupdated =>
    obtain ⟨t, rfl, hilr, -⟩ := hupdated
    exact hilr
  | ilr value hidx => simp [Event.keepsIlr, hidx] at he
  | armAck => cases he

/-- As long as ILR is as after reset, all sources have priority 0. -/
theorem along_equal (hilr : s.ilr = fun _ => 0)
    (hes : ∀ e ∈ es, e.keepsIlr) : machine.Along Equal s es := by
  induction es generalizing s with
  | nil => trivial
  | cons e es ih =>
    have he := hes e mem_cons_self
    have hnext : (s.step e).1.ilr = fun _ => 0 := (step_ilr he).trans hilr
    refine ⟨⟨?_, fun i j _ _ => ?_⟩, ih hnext fun e' he' => hes e' (mem_cons_of_mem e he')⟩
    · rintro rfl
      cases he
    · rw [hnext]

instance (s : Inth) (e : Event) : Decidable (s.Current e) :=
  inferInstanceAs
    (Decidable (e.endsService = true → s.ithV = s.lastNum ∧ s.active s.lastNum = true))

instance (s : Inth) (e : Event) : Decidable (s.Restarts e) :=
  inferInstanceAs
    (Decidable (e.endsService = true → (s.step e).1.rrStart.val = (s.lastNum.val + 1) % 32))

/-- Sources 1 and 2, level-sensitive: 1 is served while 2 waits. -/
theorem rotation_fair_two :
    services.trace (machine.final reset [.setIrq 1 true, .setIrq 2 true])
        [.read 0x10, .write 0x14 1] = [1] ∧
      machine.Along Restarts reset
        ([.setIrq 1 true, .setIrq 2 true] ++ [.read 0x10, .write 0x14 1]) := by
  have hequal : machine.Along Equal reset
      ([.setIrq 1 true, .setIrq 2 true] ++ [.read 0x10, .write 0x14 1]) :=
    along_equal rfl (by decide)
  exact ⟨by decide, (rotation_fair _ _ 2 (hequal.and (by decide)) (by decide)).1⟩

/-! ### Starvation -/

def frameService : List Event :=
  [.setIrq tpuFrame true, .read 0x10, .setIrq tpuFrame false, .write 0x14 1]

/-- Source 6 waits while the frame interrupt is served 32 times: reading IRQ_NUM withdraws the
frame, so each end of service restarts the rotation behind source 6 and not behind 4. -/
theorem rotation_starves :
    machine.Along Equal reset ([.setIrq 6 true] ++ (List.replicate 32 frameService).flatten) ∧
      machine.Along (Waits 6) (machine.final reset [.setIrq 6 true])
        (List.replicate 32 frameService).flatten ∧
      ¬ machine.Along Restarts reset
        ([.setIrq 6 true] ++ (List.replicate 32 frameService).flatten) ∧
      services.trace (machine.final reset [.setIrq 6 true])
        (List.replicate 32 frameService).flatten = List.replicate 32 4 := by
  refine ⟨along_equal rfl (by decide +kernel), ?_, ?_, ?_⟩
  · decide +kernel
  · decide +kernel
  · decide +kernel

end Qosmo.Inth
