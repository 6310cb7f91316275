import Qosmo.Bsp.Basic
import Qosmo.Lib.Select

/-!
# Qosmo.Bsp.Queue

The burst queue is a map from frame numbers to samples, kept in slots that are reused and
dropped in place. `Kept es q` says so after the history `es`: no frame has two slots, and
the samples of a frame are those last enqueued for it. An arrival keeps it, and so does
whatever only invalidates slots (`Thins`): a lookup, a burst consumed.

Distances go around the hyperframe. `behind` is how far one frame lies behind another,
`circDist` the shorter way round, and a burst is `Stale` when it lies more than the match
window back and nearer that way than the other.
-/

namespace Qosmo.Bsp

open List

/-! ### Distances around the hyperframe -/

/-- How far the frame `fn` lies behind `currentFn`. -/
def behind (fn currentFn : Nat) : Nat := (currentFn + hyperframe - fn) % hyperframe

/-- The circular distance of two frames. -/
def circDist (fn currentFn : Nat) : Nat := min (behind fn currentFn) (behind currentFn fn)

/-- More than 64 frames in the circular past. -/
def Stale (fn currentFn : Nat) : Prop :=
  64 < behind fn currentFn ∧ behind fn currentFn < behind currentFn fn

instance decidableStale (fn currentFn : Nat) : Decidable (Stale fn currentFn) :=
  inferInstanceAs (Decidable (_ ∧ _))

section Distance

variable {fn currentFn : Nat} (hfn : fn < hyperframe) (hcur : currentFn < hyperframe)

include hfn hcur

theorem fnDist_eq : fnDist fn currentFn = circDist fn currentFn := by
  unfold fnDist fnDelta circDist behind hyperframe at *
  dsimp only
  split_ifs <;> omega

theorem stale_iff : fnDelta fn currentFn < -fnMatchWindow ↔ Stale fn currentFn := by
  unfold fnDelta fnMatchWindow Stale behind hyperframe at *
  dsimp only
  split_ifs <;> omega

end Distance

theorem fnDist_lt_max {fn currentFn : Nat} (hfn : fn < hyperframe)
    (hcur : currentFn < hyperframe) : fnDist fn currentFn < int32Max := by
  unfold fnDist fnDelta int32Max hyperframe at *
  dsimp only
  split_ifs <;> omega

theorem not_lt_of_fnDist_le {fn currentFn : Nat} (h : fnDist fn currentFn ≤ fnMatchWindow) :
    ¬fnDelta fn currentFn < -fnMatchWindow := by
  unfold fnDist at h
  dsimp only at h
  split_ifs at h <;> omega

/-! ### Histories -/

def Event.samplesFor (fn : Nat) : Event → Option (List Word)
  | .enqueue fn' iq => if fn' = fn then some iq else none
  | .turn _ _ => none

def lastEnqueued (es : List Event) (fn : Nat) : Option (List Word) :=
  es.foldl (fun last e => e.samplesFor fn <|> last) none

theorem lastEnqueued_append (es : List Event) (e : Event) (fn : Nat) :
    lastEnqueued (es ++ [e]) fn = (e.samplesFor fn <|> lastEnqueued es fn) := by
  simp [lastEnqueued, foldl_append]

def Event.Below : Event → Prop
  | .enqueue fn _ => fn < hyperframe
  | .turn currentFn _ => currentFn < hyperframe

instance decidableBelow : ∀ e : Event, Decidable e.Below
  | .enqueue fn _ => inferInstanceAs (Decidable (fn < hyperframe))
  | .turn currentFn _ => inferInstanceAs (Decidable (currentFn < hyperframe))

/-- The queue as a map: what every history leaves behind. -/
structure Kept (es : List Event) (q : BurstQueue) : Prop where
  length : q.length = queueLen
  unique : ∀ (i j : Nat) (s t : Slot), q[i]? = some s → q[j]? = some t →
    s.valid = true → t.valid = true → s.fn = t.fn → i = j
  last : ∀ s ∈ q, s.valid = true → lastEnqueued es s.fn = some s.iq
  below : ∀ s ∈ q, s.valid = true → s.fn < hyperframe

theorem empty_kept : Kept [] BurstQueue.empty := by
  have hinvalid : ∀ s ∈ BurstQueue.empty, s.valid = false := by
    intro s hs
    rw [eq_of_mem_replicate hs]
  refine ⟨length_replicate, ?_, ?_, ?_⟩
  · intro i j s t hs _ hvalid
    rw [hinvalid s (mem_of_getElem? hs)] at hvalid
    cases hvalid
  all_goals
    intro s hs hvalid
    rw [hinvalid s hs] at hvalid
    cases hvalid

/-! ### Slots invalidated -/

/-- The valid slots of `q'` are slots of `q`, at their places. -/
structure Thins (q q' : BurstQueue) : Prop where
  length : q'.length = q.length
  of_valid : ∀ (i : Nat) (s : Slot), q'[i]? = some s → s.valid = true → q[i]? = some s

variable {q' : BurstQueue}

theorem Thins.trans {q q'' : BurstQueue} (h : Thins q q') (h' : Thins q' q'') : Thins q q'' :=
  ⟨h'.length.trans h.length, fun i s hs hvalid => h.of_valid i s (h'.of_valid i s hs hvalid) hvalid⟩

theorem Thins.mem {q : BurstQueue} (h : Thins q q') {s : Slot} (hs : s ∈ q')
    (hvalid : s.valid) : s ∈ q := by
  obtain ⟨i, hi⟩ := mem_iff_getElem?.mp hs
  exact mem_of_getElem? (h.of_valid i s hi hvalid)

theorem Thins.kept {es : List Event} {q : BurstQueue} (h : Thins q q') (hq : Kept es q) :
    Kept es q' where
  length := h.length.trans hq.length
  unique i j s t hs ht hvs hvt :=
    hq.unique i j s t (h.of_valid i s hs hvs) (h.of_valid j t ht hvt) hvs hvt
  last s hs hvalid := hq.last s (h.mem hs hvalid) hvalid
  below s hs hvalid := hq.below s (h.mem hs hvalid) hvalid

theorem consume_thins (q : BurstQueue) (i : Nat) : Thins q (consume q i) := by
  refine ⟨length_modify .., fun j s hs hvalid => ?_⟩
  rw [consume, List.getElem?_modify] at hs
  obtain ⟨t, ht, rfl⟩ := Option.map_eq_some_iff.mp hs
  by_cases hij : i = j
  · rw [if_pos hij] at hvalid
    cases hvalid
  · rw [if_neg hij]
    exact ht

/-! ### Arrivals -/

variable {i : Nat}

/-- The scan stops at a valid slot of the frame, or there is none. -/
theorem enqueueScan_spec (fn i : Nat) (q : BurstQueue) (freeIdx : Option Nat) (oldestIdx : Nat)
    (oldestDelta : Int) :
    (∃ k s, enqueueScan fn i q freeIdx oldestIdx oldestDelta = .same (i + k) ∧ q[k]? = some s ∧
      s.valid ∧ s.fn = fn) ∨
    (∃ r j, enqueueScan fn i q freeIdx oldestIdx oldestDelta = .other r j) ∧
      ∀ s ∈ q, s.valid → s.fn ≠ fn := by
  fun_induction enqueueScan fn i q freeIdx oldestIdx oldestDelta with
  | case1 => exact .inr ⟨⟨_, _, rfl⟩, by simp⟩
  | case2 i s slots _ _ _ hsame => exact .inl ⟨0, s, rfl, rfl, hsame⟩
  | case3 _ s _ _ _ _ hne _ ih | case4 _ s _ _ _ _ hne _ _ ih | case5 _ s _ _ _ _ hne _ _ ih =>
    rcases ih with ⟨k, t, hscan, hk⟩ | ⟨hscan, hother⟩
    · exact .inl ⟨k + 1, t, by rw [hscan, Nat.add_right_comm, Nat.add_assoc], hk⟩
    · exact .inr ⟨hscan, forall_mem_cons.mpr ⟨fun hvalid hfn => hne ⟨hvalid, hfn⟩, hother⟩⟩

/-- Every valid slot of `q'` is one of `q` for another frame, or the one at `i` with the
samples that have just come. -/
theorem Kept.arrive {es : List Event} {q : BurstQueue} {fn : Nat} {iq : List Word}
    (hq : Kept es q) (hfn : fn < hyperframe) (hlen : q'.length = q.length)
    (h : ∀ (j : Nat) (s : Slot), q'[j]? = some s → s.valid →
      q[j]? = some s ∧ s.fn ≠ fn ∨ j = i ∧ s.fn = fn ∧ s.iq = iq) :
    Kept (es ++ [.enqueue fn iq]) q' where
  length := hlen.trans hq.length
  unique j k s t hs ht hvs hvt hst := by
    rcases h j s hs hvs with ⟨hs, hne⟩ | ⟨hj, hsfn, -⟩ <;>
      rcases h k t ht hvt with ⟨ht, hne'⟩ | ⟨hk, htfn, -⟩
    · exact hq.unique j k s t hs ht hvs hvt hst
    · exact absurd (hst.trans htfn) hne
    · exact absurd (hst.symm.trans hsfn) hne'
    · rw [hj, hk]
  last s hs hvalid := by
    obtain ⟨j, hj⟩ := mem_iff_getElem?.mp hs
    rw [lastEnqueued_append]
    rcases h j s hj hvalid with ⟨hj, hne⟩ | ⟨-, rfl, rfl⟩
    · simp [Event.samplesFor, hne.symm, hq.last s (mem_of_getElem? hj) hvalid]
    · simp [Event.samplesFor]
  below s hs hvalid := by
    obtain ⟨j, hj⟩ := mem_iff_getElem?.mp hs
    rcases h j s hj hvalid with ⟨hj, -⟩ | ⟨-, rfl, -⟩
    · exact hq.below s (mem_of_getElem? hj) hvalid
    · exact hfn

theorem Kept.enqueue {es : List Event} {q : BurstQueue} {fn : Nat} (hq : Kept es q)
    (hfn : fn < hyperframe) (iq : List Word) : Kept (es ++ [.enqueue fn iq]) (enqueue q fn iq) := by
  unfold Bsp.enqueue
  obtain ⟨k, t, hscan, ht, htvalid, htfn⟩ | ⟨⟨freeIdx, oldestIdx, hscan⟩, hother⟩ :=
    enqueueScan_spec fn 0 q none 0 int32Max
  · rw [hscan]
    refine hq.arrive (i := 0 + k) hfn (length_modify ..) fun j s hs hvalid => ?_
    rw [List.getElem?_modify] at hs
    obtain ⟨u, hu, rfl⟩ := Option.map_eq_some_iff.mp hs
    by_cases hkj : 0 + k = j
    · rw [if_pos hkj]
      have hut : u = t := by
        rw [← hkj, Nat.zero_add, ht] at hu
        exact (Option.some.inj hu).symm
      exact .inr ⟨hkj.symm, hut ▸ htfn, rfl⟩
    · rw [if_neg hkj] at hvalid ⊢
      refine .inl ⟨hu, fun hfn' => hkj ?_⟩
      rw [Nat.zero_add]
      exact hq.unique k j t u ht hu htvalid hvalid (htfn.trans hfn'.symm)
  · rw [hscan]
    refine hq.arrive (i := freeIdx.getD oldestIdx) hfn (length_set ..) fun j s hs hvalid => ?_
    rw [List.getElem?_set] at hs
    by_cases hij : freeIdx.getD oldestIdx = j
    · rw [if_pos hij] at hs
      split at hs
      · cases hs
        exact .inr ⟨hij.symm, rfl, rfl⟩
      · cases hs
    · rw [if_neg hij] at hs
      exact .inl ⟨hs, hother s (mem_of_getElem? hs) hvalid⟩

/-! ### Lookups -/

/-- A slot the lookup may return. -/
def matchable (currentFn : Nat) (s : Slot) : Bool :=
  s.valid && decide (fnDist s.fn currentFn ≤ fnMatchWindow)

/-- A slot as the lookup leaves it. -/
def purged (currentFn : Nat) (s : Slot) : Slot :=
  if s.valid = true ∧ fnDelta s.fn currentFn < -fnMatchWindow then { s with valid := false } else s

/-- The lookup is a pass that drops what is too old and a search for the nearest burst. -/
theorem takeScan_eq (currentFn i : Nat) (q : BurstQueue) (found : Option Nat) (bestAbs : Int) :
    takeScan currentFn i q found bestAbs =
      (q.map (purged currentFn),
        Select.select (matchable currentFn) (fun s => fnDist s.fn currentFn) i q found bestAbs) := by
  induction q generalizing i found bestAbs with
  | nil => rfl
  | cons s slots ih =>
    unfold takeScan Select.select
    simp only [ih, map_cons]
    cases hvalid : s.valid with
    | false => simp [matchable, purged, hvalid]
    | true =>
      by_cases hold : fnDelta s.fn currentFn < -fnMatchWindow
      · have hfar : ¬fnDist s.fn currentFn ≤ fnMatchWindow := fun h => not_lt_of_fnDist_le h hold
        simp [matchable, purged, hvalid, hold, hfar]
      · by_cases hnear : fnDist s.fn currentFn ≤ fnMatchWindow
        · by_cases hbest : fnDist s.fn currentFn < bestAbs <;>
            simp [matchable, purged, hvalid, hold, hnear, hbest]
        · simp [matchable, purged, hvalid, hold, hnear]

theorem nearestScan_eq (currentFn i : Nat) (q : BurstQueue) (best : Option Nat) (bestAbs : Int) :
    nearestScan currentFn i q best bestAbs =
      Select.select Slot.valid (fun s => fnDist s.fn currentFn) i q best bestAbs := by
  induction q generalizing i best bestAbs with
  | nil => rfl
  | cons s slots ih =>
    unfold nearestScan Select.select
    simp only [ih]
    cases hvalid : s.valid <;> simp

variable (q : BurstQueue) (currentFn : Nat)

theorem purged_thins : Thins q (q.map (purged currentFn)) := by
  refine ⟨length_map _, fun i s hs hvalid => ?_⟩
  rw [List.getElem?_map] at hs
  obtain ⟨t, ht, rfl⟩ := Option.map_eq_some_iff.mp hs
  unfold purged at hvalid ⊢
  split at hvalid
  · cases hvalid
  · rename_i hkeep
    rw [if_neg hkeep]
    exact ht

theorem takeForFn_eq :
    takeForFn q currentFn = (q.map (purged currentFn),
      Select.select (matchable currentFn) (fun s => fnDist s.fn currentFn) 0 q none int32Max) :=
  takeScan_eq currentFn 0 q none int32Max

theorem take_thins (rxwin : Bool) : Thins q (take q currentFn rxwin).1 := by
  unfold take
  split
  · exact ⟨rfl, fun _ _ hs _ => hs⟩
  · rw [takeForFn_eq]
    exact purged_thins q currentFn

theorem take_valid {q : BurstQueue} {currentFn i : Nat} {rxwin : Bool}
    (h : (take q currentFn rxwin).2 = some i) :
    ∃ s, (take q currentFn rxwin).1[i]? = some s ∧ s.valid := by
  unfold take at h ⊢
  split at h
  · rw [if_pos ‹_›]
    rw [takeNearest, nearestScan_eq] at h
    obtain ⟨s, hs, hvalid, -⟩ := Select.select_eq_some h
    exact ⟨s, hs, hvalid⟩
  · rw [if_neg ‹_›]
    rw [takeForFn_eq] at h ⊢
    obtain ⟨s, hs, hmatch, -⟩ := Select.select_eq_some h
    rw [matchable, Bool.and_eq_true, decide_eq_true_eq] at hmatch
    have hkeep : purged currentFn s = s :=
      if_neg fun hold => not_lt_of_fnDist_le hmatch.2 hold.2
    exact ⟨s, by rw [List.getElem?_map, hs, Option.map_some, hkeep], hmatch.1⟩

/-! ### The drain loop -/

theorem turn_thins (rxwin : Bool) : Thins q (turn q currentFn rxwin).1 := by
  have htake := take_thins q currentFn rxwin
  unfold turn
  split
  · rename_i q' hq'
    rw [hq'] at htake
    exact htake
  · rename_i q' i hq'
    rw [hq'] at htake
    exact htake.trans (consume_thins q' i)

def waiting (q : BurstQueue) : Nat := q.countP Slot.valid

theorem waiting_take_le (rxwin : Bool) : waiting (take q currentFn rxwin).1 ≤ waiting q := by
  unfold take
  split
  · exact le_rfl
  · rw [takeForFn_eq]
    unfold waiting
    rw [countP_map]
    refine countP_mono_left fun s _ hvalid => ?_
    simp only [Function.comp_apply, purged] at hvalid
    split at hvalid
    · cases hvalid
    · exact hvalid

theorem waiting_consume {q : BurstQueue} {s : Slot} (hs : q[i]? = some s)
    (hvalid : s.valid) : waiting q = waiting (consume q i) + 1 := by
  unfold waiting consume
  induction q generalizing i with
  | nil => simp at hs
  | cons t slots ih =>
    cases i with
    | zero =>
      rw [List.getElem?_cons_zero, Option.some.injEq] at hs
      subst hs
      simp [hvalid]
    | succ i =>
      rw [List.getElem?_cons_succ] at hs
      rw [modify_succ_cons, countP_cons, countP_cons, ih hs]
      omega

/-- **The drain loop ends**: with a lookup to spare for each burst that waits, it returns,
and it has done what its turns do. -/
theorem drain_ends {q : BurstQueue} (currentFn : Nat) (rxwin : Bool) {fuel : Nat}
    (hfuel : waiting q < fuel) :
    ∃ k, drain currentFn rxwin fuel q =
      some (machine.run q (List.replicate (k + 1) (.turn currentFn rxwin))) := by
  induction fuel generalizing q with
  | zero => exact absurd hfuel (Nat.not_lt_zero _)
  | succ fuel ih =>
    have hle := waiting_take_le q currentFn rxwin
    unfold drain
    cases htake : take q currentFn rxwin with
    | mk q' found =>
      rw [htake] at hle
      cases found with
      | none =>
        have hturn : turn q currentFn rxwin = (q', []) := by
          unfold turn
          rw [htake]
        exact ⟨0, by simp [Machine.run, machine, step, hturn]⟩
      | some i =>
        have hturn : turn q currentFn rxwin = (consume q' i, delivered q' i) := by
          unfold turn
          rw [htake]
        obtain ⟨s, hs, hvalid⟩ := @take_valid q currentFn i rxwin (by rw [htake])
        rw [htake] at hs
        dsimp only at hs hle
        have hless := waiting_consume hs hvalid
        obtain ⟨k, hk⟩ := @ih (consume q' i) (by omega)
        refine ⟨k + 1, ?_⟩
        simp only [hk, Option.map_some]
        rw [replicate_succ (n := k + 1), Machine.run]
        simp only [machine, step, hturn]

/-! ### Every history -/

theorem Kept.turn {es : List Event} {q : BurstQueue} (hq : Kept es q) (currentFn : Nat)
    (rxwin : Bool) : Kept (es ++ [.turn currentFn rxwin]) (turn q currentFn rxwin).1 := by
  have hthin := (turn_thins q currentFn rxwin).kept hq
  refine ⟨hthin.length, hthin.unique, fun s hs hvalid => ?_, hthin.below⟩
  rw [lastEnqueued_append]
  exact hthin.last s hs hvalid

/-- The queue is a map after every history. -/
theorem kept_of_below {es : List Event} (hes : ∀ e ∈ es, e.Below) :
    Kept es (machine.final BurstQueue.empty es) := by
  induction es using List.reverseRecOn with
  | nil => exact empty_kept
  | append_singleton es e ih =>
    rw [forall_mem_append] at hes
    have hkept := ih hes.1
    have hbelow := hes.2 e mem_cons_self
    rw [Machine.final_append]
    cases e with
    | enqueue fn iq => exact hkept.enqueue hbelow iq
    | turn currentFn rxwin => exact hkept.turn currentFn rxwin

/-- The burst a lookup has to return, at the slot `i`: valid, within 64 frames, and as near
as any. -/
structure Nearest (q : BurstQueue) (currentFn i : Nat) (s : Slot) : Prop where
  at_slot : q[i]? = some s
  valid : s.valid = true
  within : circDist s.fn currentFn ≤ 64
  nearest : ∀ t ∈ q, t.valid = true → circDist s.fn currentFn ≤ circDist t.fn currentFn

section Lookup

variable {es : List Event} {q : BurstQueue} {currentFn : Nat} (hq : Kept es q)
  (hcur : currentFn < hyperframe)

include hq hcur

theorem Kept.matchable_iff {s : Slot} (hs : s ∈ q) :
    matchable currentFn s ↔ s.valid ∧ circDist s.fn currentFn ≤ 64 := by
  rw [matchable, Bool.and_eq_true, decide_eq_true_eq]
  refine and_congr_right fun hvalid => ?_
  rw [fnDist_eq (hq.below s hs hvalid) hcur, fnMatchWindow]
  omega

/-- The lookup drops the bursts that are too old and no other. -/
theorem Kept.take_purges : (takeForFn q currentFn).1 = q.map fun s =>
    if s.valid ∧ Stale s.fn currentFn then { s with valid := false } else s := by
  rw [takeForFn_eq]
  refine map_congr_left fun s hs => ?_
  unfold purged
  by_cases hvalid : s.valid
  · simp only [hvalid, true_and, stale_iff (hq.below s hs hvalid) hcur]
  · rw [if_neg fun h => hvalid h.1, if_neg fun h => hvalid h.1]

theorem Kept.take_none_iff : (takeForFn q currentFn).2 = none ↔
    ∀ s ∈ q, s.valid → 64 < circDist s.fn currentFn := by
  rw [takeForFn_eq, Select.select_eq_none_iff]
  · refine forall₂_congr fun s hs => ?_
    rw [Bool.eq_false_iff, Ne, hq.matchable_iff hcur hs]
    push Not
    rfl
  · intro s hs hmatch
    have hvalid := ((hq.matchable_iff hcur hs).mp hmatch).1
    exact fnDist_lt_max (hq.below s hs hvalid) hcur

theorem Kept.take_some {i : Nat} (h : (takeForFn q currentFn).2 = some i) :
    ∃ s, Nearest q currentFn i s ∧ (takeForFn q currentFn).1[i]? = some s := by
  have hkept := @take_valid q currentFn i false h
  rw [takeForFn_eq] at h
  obtain ⟨s, hs, hmatch, hleast⟩ := Select.select_eq_some h
  have hmem := mem_of_getElem? hs
  obtain ⟨hvalid, hwithin⟩ := (hq.matchable_iff hcur hmem).mp hmatch
  refine ⟨s, ⟨hs, hvalid, hwithin, fun t ht htvalid => ?_⟩, ?_⟩
  · by_cases hnear : circDist t.fn currentFn ≤ 64
    · have hle := hleast t ht ((hq.matchable_iff hcur ht).mpr ⟨htvalid, hnear⟩)
      rw [fnDist_eq (hq.below s hmem hvalid) hcur, fnDist_eq (hq.below t ht htvalid) hcur] at hle
      exact_mod_cast hle
    · omega
  · obtain ⟨t, ht, htvalid⟩ := hkept
    have hst := (take_thins q currentFn false).of_valid i t ht htvalid
    rw [hs] at hst
    cases hst
    exact ht

end Lookup

end Qosmo.Bsp
