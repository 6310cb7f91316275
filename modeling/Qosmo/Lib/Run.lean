import Mathlib.Data.List.Basic

/-!
# Qosmo.Lib.Run

Machines driven from outside, and what holds along their runs.

A `Machine` takes one event at a time and answers with its next state and the
observations made during that step. Nothing is said about where the events come
from, so a statement about every list of events is a statement about every
schedule.

Eight rules carry the run-level results built on this module:

* `Machine.invariant`: what one step preserves, a run preserves;
* `Machine.trace_forall`: what every step's observations satisfy, the
  observations of a run satisfy;
* `Machine.history`: an invariant that relates the state to everything shown so far;
* `Machine.abstraction`: a machine that does what a simpler one does, step by step;
* `Machine.noninterference`: events that a part of the state does not see leave no mark in it;
* `Machine.progress`: what comes nearer with every turn is shown before the turns are over;
* `Machine.trace_counted`: a machine that counts its rounds down shows as many
  as the counter says;
* `Machine.trace_periodic`: a machine that counts down and starts over fires with a
  fixed period.

All take a *step condition* `C` (`Machine.Along`), so that a property which
needs a restriction on the steps is stated for the runs whose steps meet it.
`Machine.invariant_iff` is for a condition that is exact: the runs that meet it
are those that never leave the invariant.
-/

namespace Qosmo

open List

universe u v w

/-- A machine with states `σ`, driven by events `ε`, showing observations `ω`. -/
structure Machine (σ : Type u) (ε : Type v) (ω : Type w) where
  step : σ → ε → σ × List ω

namespace Machine

variable {σ : Type u} {ε : Type v} {ω : Type w} (M : Machine σ ε ω)

/-- Feed a list of events; the observations are concatenated in order. -/
def run : σ → List ε → σ × List ω
  | s, [] => (s, [])
  | s, e :: es => ((run (M.step s e).1 es).1, (M.step s e).2 ++ (run (M.step s e).1 es).2)

/-- The state a run ends in. -/
def final (s : σ) (es : List ε) : σ := (M.run s es).1

/-- The observations of a run. -/
def trace (s : σ) (es : List ε) : List ω := (M.run s es).2

@[simp] theorem final_nil (s : σ) : M.final s [] = s := rfl
@[simp] theorem trace_nil (s : σ) : M.trace s [] = [] := rfl
@[simp] theorem final_cons (s : σ) (e : ε) (es : List ε) :
    M.final s (e :: es) = M.final (M.step s e).1 es := rfl
@[simp] theorem trace_cons (s : σ) (e : ε) (es : List ε) :
    M.trace s (e :: es) = (M.step s e).2 ++ M.trace (M.step s e).1 es := rfl

theorem final_append (s : σ) (es es' : List ε) :
    M.final s (es ++ es') = M.final (M.final s es) es' := by
  induction es generalizing s with
  | nil => rfl
  | cons e es ih => exact ih _

theorem trace_append (s : σ) (es es' : List ε) :
    M.trace s (es ++ es') = M.trace s es ++ M.trace (M.final s es) es' := by
  induction es generalizing s with
  | nil => rfl
  | cons e es ih => rw [cons_append, trace_cons, trace_cons, ih, final_cons, append_assoc]

/-- The same machine, showing only some of its observations. -/
def filterObs (p : ω → Bool) : Machine σ ε ω := ⟨fun s e => ((M.step s e).1, (M.step s e).2.filter p)⟩

theorem filterObs_trace (p : ω → Bool) (s : σ) (es : List ε) :
    (M.filterObs p).trace s es = (M.trace s es).filter p := by
  induction es generalizing s with
  | nil => rfl
  | cons e es ih => rw [trace_cons, trace_cons, filter_append, ← ih]; rfl

theorem filterObs_final (p : ω → Bool) (s : σ) (es : List ε) :
    (M.filterObs p).final s es = M.final s es := by
  induction es generalizing s with
  | nil => rfl
  | cons e es ih => exact ih _

/-- `C` holds of every (state, event) pair met along the run. -/
def Along (C : σ → ε → Prop) : σ → List ε → Prop
  | _, [] => True
  | s, e :: es => C s e ∧ Along C (M.step s e).1 es

variable {M} {C D : σ → ε → Prop}

@[simp] theorem along_nil (s : σ) : M.Along C s [] := trivial
@[simp] theorem along_cons (s : σ) (e : ε) (es : List ε) :
    M.Along C s (e :: es) ↔ C s e ∧ M.Along C (M.step s e).1 es := Iff.rfl

theorem along_true (s : σ) (es : List ε) : M.Along (fun _ _ => True) s es := by
  induction es generalizing s with
  | nil => trivial
  | cons e es ih => exact ⟨trivial, ih _⟩

variable {es : List ε}

/-- A condition on the events alone is met along every run of such events. -/
theorem along_of_forall {P : ε → Prop} (h : ∀ e ∈ es, P e) (s : σ) :
    M.Along (fun _ e => P e) s es := by
  induction es generalizing s with
  | nil => trivial
  | cons e es ih =>
    exact ⟨h e mem_cons_self, ih (fun e' he' => h e' (mem_cons_of_mem e he')) _⟩

instance decidableAlong [∀ s e, Decidable (C s e)] :
    ∀ (s : σ) (es : List ε), Decidable (M.Along C s es)
  | _, [] => isTrue trivial
  | s, e :: es =>
    have := decidableAlong (M.step s e).1 es
    inferInstanceAs (Decidable (C s e ∧ M.Along C (M.step s e).1 es))

variable {s : σ} {I : σ → Prop}

/-- **Invariant rule.** An invariant that every step meeting `C` preserves holds
at the end of every run whose steps meet `C`. -/
theorem invariant (hstep : ∀ s e, I s → C s e → I (M.step s e).1) (hs : I s) (hC : M.Along C s es) :
    I (M.final s es) := by
  induction es generalizing s with
  | nil => exact hs
  | cons e es ih => exact ih (hstep s e hs hC.1) hC.2

/-- **Exactness rule.** Where a step keeps the invariant exactly if it meets `C`, the runs
whose steps meet `C` are those that are in the invariant all along. -/
theorem invariant_iff (hstep : ∀ s e, I s → (I (M.step s e).1 ↔ C s e)) (hs : I s) :
    (∀ es', es' <+: es → I (M.final s es')) ↔ M.Along C s es := by
  induction es generalizing s with
  | nil =>
    refine ⟨fun _ => trivial, fun _ es' hes' => ?_⟩
    rw [List.prefix_nil.mp hes']
    exact hs
  | cons e es ih =>
    constructor
    · intro h
      have hfirst : I (M.step s e).1 := h [e] (by simp)
      refine ⟨(hstep s e hs).mp hfirst, (ih hfirst).mp fun es' hes' => ?_⟩
      exact h (e :: es') (List.cons_prefix_cons.mpr ⟨rfl, hes'⟩)
    · rintro ⟨hC, hrest⟩ es' hes'
      cases es' with
      | nil => exact hs
      | cons e' es' =>
        obtain ⟨rfl, htail⟩ := List.cons_prefix_cons.mp hes'
        exact (ih ((hstep s e' hs).mpr hC)).mpr hrest es' htail

/-- **Trace rule.** If, under the invariant `I`, every step meeting `C` shows only
observations satisfying `P`, then so does every run whose steps meet `C`. -/
theorem trace_forall {P : ω → Prop} (hstep : ∀ s e, I s → C s e → I (M.step s e).1)
    (hobs : ∀ s e, I s → C s e → ∀ o ∈ (M.step s e).2, P o) (hs : I s) (hC : M.Along C s es) :
    ∀ o ∈ M.trace s es, P o := by
  induction es generalizing s with
  | nil => simp
  | cons e es ih =>
    intro o ho
    rw [trace_cons, mem_append] at ho
    rcases ho with ho | ho
    · exact hobs s e hs hC.1 o ho
    · exact ih (hstep s e hs hC.1) hC.2 o ho

/-- **History rule.** An invariant of the state and of what has been shown so far, which every step
meeting `C` preserves, holds at the end of every run whose steps meet `C`. -/
theorem history {I : List ω → σ → Prop}
    (hstep : ∀ os s e, I os s → C s e → I (os ++ (M.step s e).2) (M.step s e).1)
    {os : List ω} (hs : I os s) (hC : M.Along C s es) : I (os ++ M.trace s es) (M.final s es) := by
  induction es generalizing os s with
  | nil => rwa [trace_nil, append_nil]
  | cons e es ih =>
    rw [trace_cons, ← append_assoc]
    exact ih (hstep os s e hs hC.1) hC.2

/-- **Abstraction rule.** If every step meeting `C` does to the abstraction of a state what the
machine `N` does, and shows the same, then so does every run whose steps meet `C`. -/
theorem abstraction {τ : Type*} {N : Machine τ ε ω} (f : σ → τ) (hstep : ∀ s e, I s → C s e →
      I (M.step s e).1 ∧ (f (M.step s e).1, (M.step s e).2) = N.step (f s) e) (hs : I s) (hC :
    M.Along C s es) :
    I (M.final s es) ∧ f (M.final s es) = N.final (f s) es ∧ M.trace s es = N.trace (f s) es := by
  induction es generalizing s with
  | nil => exact ⟨hs, rfl, rfl⟩
  | cons e es ih =>
    obtain ⟨hI, heq⟩ := hstep s e hs hC.1
    obtain ⟨hI', hfinal, htrace⟩ := ih hI hC.2
    rw [final_cons, final_cons, trace_cons, trace_cons, ← heq]
    exact ⟨hI', hfinal, congrArg _ htrace⟩

/-- **Noninterference rule.** If the events outside of `p` do not change the part `f` of the state,
and the events in `p` change it by what it is alone, then two runs with the same events in `p` that
start with the same part end with the same part. -/
theorem noninterference {τ : Type*} (f : σ → τ) (p : ε → Bool)
    (hunseen : ∀ s e, p e = false → f (M.step s e).1 = f s)
    (hseen : ∀ s s' e, p e → f s = f s' → f (M.step s e).1 = f (M.step s' e).1)
    {s' : σ} {es' : List ε} (hs : f s = f s') (hes : es.filter p = es'.filter p) :
    f (M.final s es) = f (M.final s' es') := by
  have hsame : ∀ (es : List ε) (s s' : σ), f s = f s' →
      f (M.final s es) = f (M.final s' (es.filter p)) := by
    intro es
    induction es with
    | nil => exact fun s s' h => h
    | cons e es ih =>
      intro s s' h
      cases hp : p e with
      | true =>
        rw [filter_cons_of_pos hp]
        exact ih _ _ (hseen s s' e hp h)
      | false =>
        rw [filter_cons_of_neg (by rw [hp]; exact Bool.false_ne_true)]
        exact ih _ _ ((hunseen s e hp).trans h)
  rw [hsame es s s' hs, hsame es' s' s' rfl, hes]

/-- **Progress rule.** If, under the invariant `I`, a step meeting `C` shows what satisfies `P` or
keeps `I`, and the events in `p` bring the rank down while the others do not raise it, then a run
with more events in `p` than the rank shows what satisfies `P`. -/
theorem progress {P : ω → Prop} (rank : σ → Nat) (p : ε → Bool)
    (hstep : ∀ s e, I s → C s e → (∃ o ∈ (M.step s e).2, P o) ∨
      I (M.step s e).1 ∧ rank (M.step s e).1 + (p e).toNat ≤ rank s) (hs : I s) (hC :
    M.Along C s es) (hturns : rank s < es.countP p) : ∃ o ∈ M.trace s es, P o := by
  induction es generalizing s with
  | nil => exact absurd hturns (Nat.not_lt_zero _)
  | cons e es ih =>
    rw [trace_cons]
    rcases hstep s e hs hC.1 with ⟨o, ho, hP⟩ | ⟨hI, hrank⟩
    · exact ⟨o, mem_append_left _ ho, hP⟩
    · have hleft : rank (M.step s e).1 < es.countP p := by
        rw [countP_cons] at hturns
        cases hp : p e <;> simp [hp] at hturns hrank <;> omega
      obtain ⟨o, ho, hP⟩ := ih hI hC.2 hleft
      exact ⟨o, mem_append_right _ ho, hP⟩

/-- A counter that never decreases and ends at zero was zero after every step. -/
theorem along_of_final_zero {f : σ → Nat} (hmono : ∀ s e, f s ≤ f (M.step s e).1)
    (hfinal : f (M.final s es) = 0) : M.Along (fun s e => f (M.step s e).1 = 0) s es := by
  induction es generalizing s with
  | nil => trivial
  | cons e es ih =>
    refine ⟨?_, ih hfinal⟩
    have hle : f (M.step s e).1 ≤ f (M.final (M.step s e).1 es) :=
      invariant (I := fun t => f (M.step s e).1 ≤ f t) (fun t e' h _ => Nat.le_trans h (hmono t e'))
        (Nat.le_refl _) (along_true _ _)
    rw [final_cons] at hfinal
    omega

/-- What one step of a counted loop shows: nothing, another round, or the last one. -/
inductive Counted (active : σ → Bool) (count : σ → Nat) (again last : ω) (s s' : σ) :
    List ω → Prop where
  | within : active s' = true → count s' = count s → Counted active count again last s s' []
  | again : active s' = true → count s = count s' + 1 → Counted active count again last s s' [again]
  | last : active s' = false → count s = 0 → Counted active count again last s s' [last]

/-- **Counting rule.** A loop that takes its steps only while it is active, and counts
each round down, has shown one round for each count it has lost; when it is over, it has
shown as many as it had, and the last one. -/
theorem trace_counted {active : σ → Bool} {count : σ → Nat} {a z : ω}
    (hstep : ∀ s e, I s → C s e → I (M.step s e).1) (hactive : ∀ s e, C s e → active s)
    (hcount : ∀ s e, I s → C s e → Counted active count a z s (M.step s e).1 (M.step s e).2)
    (hs : I s) (hact : active s) (hC : M.Along C s es) :
    (active (M.final s es) = true → count (M.final s es) ≤ count s ∧
      M.trace s es = List.replicate (count s - count (M.final s es)) a) ∧
    (active (M.final s es) = false → M.trace s es = List.replicate (count s) a ++ [z]) := by
  induction es generalizing s with
  | nil => simp [hact]
  | cons e es ih =>
    have hI := hstep s e hs hC.1
    have hround := hcount s e hs hC.1
    rw [trace_cons, final_cons]
    generalize (M.step s e).2 = os at hround
    cases hround with
    | within hon heq =>
      rw [← heq]
      exact ih hI hon hC.2
    | again hon heq =>
      obtain ⟨hgoing, hover⟩ := ih hI hon hC.2
      refine ⟨fun h => ?_, fun h => ?_⟩
      · obtain ⟨hle, htrace⟩ := hgoing h
        rw [htrace, heq, Nat.succ_sub hle, replicate_succ]
        exact ⟨Nat.le_succ_of_le hle, rfl⟩
      · rw [hover h, heq, replicate_succ]
        rfl
    | last hoff hzero =>
      -- no step is left: it would need an active loop
      cases es with
      | nil => simp [hoff, hzero]
      | cons e' es' =>
        have hon := hactive _ _ hC.2.1
        rw [hoff] at hon
        cases hon

/-- What one step of a counter that starts over shows: nothing, one count less, or that it has
fired and counts `n` again. -/
inductive Counts (left : σ → Nat) (n : Nat) (s s' : σ) : List Bool → Prop where
  | within : left s' = left s → Counts left n s s' []
  | down : left s = left s' + 1 → Counts left n s s' [false]
  | fire : left s = 0 → left s' + 1 = n → Counts left n s s' [true]

/-- **Period rule.** A counter that fires at zero and then counts `n` again fires first when it has
counted what was left, and from then on every `n` counts. -/
theorem trace_periodic {M : Machine σ ε Bool} (left : σ → Nat) {n : Nat}
    (hstep : ∀ s e, I s → C s e → I (M.step s e).1)
    (hcount : ∀ s e, I s → C s e → Counts left n s (M.step s e).1 (M.step s e).2) (hs : I s)
    (hC : M.Along C s es) {i : Nat} (hi : i < (M.trace s es).length) :
    (M.trace s es)[i]? = some true ↔ ∃ k, i = left s + k * n := by
  induction es generalizing s i with
  | nil => exact absurd hi (Nat.not_lt_zero i)
  | cons e es ih =>
    have hI := hstep s e hs hC.1
    have hround := hcount s e hs hC.1
    rw [trace_cons] at hi ⊢
    generalize (M.step s e).2 = os at hround hi
    cases hround with
    | within heq =>
      rw [← heq]
      exact ih hI hC.2 hi
    | down heq =>
      rw [heq]
      cases i with
      | zero =>
        refine ⟨nofun, ?_⟩
        rintro ⟨k, hk⟩
        omega
      | succ i =>
        refine (ih hI hC.2 (Nat.lt_of_succ_lt_succ hi)).trans (exists_congr fun k => ?_)
        omega
    | fire hzero heq =>
      rw [hzero]
      cases i with
      | zero => exact ⟨fun _ => ⟨0, by simp⟩, fun _ => rfl⟩
      | succ i =>
        -- the next round begins with `n - 1` left
        refine (ih hI hC.2 (Nat.lt_of_succ_lt_succ hi)).trans ⟨?_, ?_⟩
        · rintro ⟨k, hk⟩
          refine ⟨k + 1, ?_⟩
          rw [Nat.succ_mul]
          omega
        · rintro ⟨k, hk⟩
          cases k with
          | zero => omega
          | succ k =>
            refine ⟨k, ?_⟩
            rw [Nat.succ_mul] at hk
            omega

/-- What is met along a run is met along its two parts. -/
theorem Along.of_append {es' : List ε} (h : M.Along C s (es ++ es')) :
    M.Along C s es ∧ M.Along C (M.final s es) es' := by
  induction es generalizing s with
  | nil => exact ⟨trivial, h⟩
  | cons e es ih =>
    obtain ⟨hfirst, hrest⟩ := h
    exact ⟨⟨hfirst, (ih hrest).1⟩, (ih hrest).2⟩

theorem Along.mono (h : M.Along C s es) (hCD : ∀ s e, C s e → D s e) : M.Along D s es := by
  induction es generalizing s with
  | nil => trivial
  | cons e es ih => exact ⟨hCD s e h.1, ih h.2⟩

theorem Along.and (h : M.Along C s es) (h' : M.Along D s es) :
    M.Along (fun s e => C s e ∧ D s e) s es := by
  induction es generalizing s with
  | nil => trivial
  | cons e es ih => exact ⟨⟨h.1, h'.1⟩, ih h.2 h'.2⟩

/-- Two conditions are the same along a run if they are the same at every step from a state
in `I`, and the second keeps `I`. Both may be assumed to meet a third one. -/
theorem Along.congr {R : σ → ε → Prop} (hiff : ∀ s e, I s → R s e → (C s e ↔ D s e))
    (hstep : ∀ s e, I s → R s e → D s e → I (M.step s e).1) (hs : I s) (hR : M.Along R s es) :
    M.Along C s es ↔ M.Along D s es := by
  induction es generalizing s with
  | nil => exact Iff.rfl
  | cons e es ih =>
    rw [along_cons, along_cons, hiff s e hs hR.1]
    exact and_congr_right fun hD => ih (hstep s e hs hR.1 hD) hR.2

end Machine

end Qosmo
