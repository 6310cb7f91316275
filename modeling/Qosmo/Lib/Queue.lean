import Qosmo.Lib.Run

/-!
# Qosmo.Lib.Queue

A first-in first-out queue that may lose words, and its accounting.

What happens to a queue is a list of `QueueOp`s: words are accepted at its end,
delivered from its front, or lost from anywhere inside. `QueueOp.Steps` is the
effect of such a list on the contents, and two facts summarise a whole history:

* `Steps.sublist`: whatever was lost, the delivered words are a subsequence of
  the accepted ones, in order;
* `Steps.conservation`: if nothing was lost, delivered words and contents
  together *are* the accepted words.

`Machine.queue_steps` lifts the effect of one step of a machine to its runs.
-/

namespace Qosmo

variable {α : Type*}

/-- One thing that happens to a queue. -/
inductive QueueOp (α : Type*)
  /-- Words are appended at the end. -/
  | accept (ws : List α)
  /-- Words are taken from the front. -/
  | deliver (ws : List α)
  /-- Words are dropped, from wherever they stand. -/
  | lose (ws : List α)
  deriving Repr, DecidableEq

namespace QueueOp

def acceptedWords : QueueOp α → List α
  | accept ws => ws
  | _ => []

def deliveredWords : QueueOp α → List α
  | deliver ws => ws
  | _ => []

/-- The words an operation loses. -/
def lostWords : QueueOp α → List α
  | lose ws => ws
  | _ => []

def accepted (ops : List (QueueOp α)) : List α := ops.flatMap acceptedWords

def delivered (ops : List (QueueOp α)) : List α := ops.flatMap deliveredWords

def lost (ops : List (QueueOp α)) : List α := ops.flatMap lostWords

@[simp] theorem accepted_nil : accepted ([] : List (QueueOp α)) = [] := rfl
@[simp] theorem delivered_nil : delivered ([] : List (QueueOp α)) = [] := rfl
@[simp] theorem lost_nil : lost ([] : List (QueueOp α)) = [] := rfl
@[simp] theorem accepted_cons (o : QueueOp α) (ops : List (QueueOp α)) :
    accepted (o :: ops) = o.acceptedWords ++ accepted ops := by simp [accepted]
@[simp] theorem delivered_cons (o : QueueOp α) (ops : List (QueueOp α)) :
    delivered (o :: ops) = o.deliveredWords ++ delivered ops := by simp [delivered]
@[simp] theorem lost_cons (o : QueueOp α) (ops : List (QueueOp α)) :
    lost (o :: ops) = o.lostWords ++ lost ops := by simp [lost]
theorem lost_append (ops ops' : List (QueueOp α)) :
    lost (ops ++ ops') = lost ops ++ lost ops' := by simp [lost]

/-- The effect of one operation on the contents of the queue. -/
inductive Step : List α → QueueOp α → List α → Prop
  | accept (q ws : List α) : Step q (.accept ws) (q ++ ws)
  | deliver (ws q : List α) : Step (ws ++ q) (.deliver ws) q
  | lose (pre ws post : List α) : Step (pre ++ ws ++ post) (.lose ws) (pre ++ post)

/-- The effect of a history on the contents of the queue. -/
inductive Steps : List α → List (QueueOp α) → List α → Prop
  | nil (q : List α) : Steps q [] q
  | cons {q q' q'' : List α} {o : QueueOp α} {ops : List (QueueOp α)} :
      Step q o q' → Steps q' ops q'' → Steps q (o :: ops) q''

namespace Steps

variable {q q' q'' : List α} {o : QueueOp α} {ops ops' : List (QueueOp α)}

theorem single (h : Step q o q') : Steps q [o] q' := .cons h (.nil q')

theorem lose_all (q : List α) : Steps q [.lose q] [] := by
  simpa using single (Step.lose [] q [])

theorem append (h : Steps q ops q') (h' : Steps q' ops' q'') : Steps q (ops ++ ops') q'' := by
  induction h with
  | nil => exact h'
  | cons hs _ ih => exact .cons hs (ih h')

/-- **Order.** Delivered words, followed by what is still queued, are a
subsequence of what was queued followed by what was accepted. -/
theorem sublist (h : Steps q ops q') : (delivered ops ++ q').Sublist (q ++ accepted ops) := by
  induction h with
  | nil q => simp
  | @cons q q₁ q₂ o ops hs _ ih =>
    cases hs with
    | accept ws | deliver ws => simpa [acceptedWords, deliveredWords] using ih
    | lose pre ws post =>
      refine List.Sublist.trans (by simpa [deliveredWords] using ih) ?_
      simp only [accepted_cons, acceptedWords, List.nil_append, List.append_assoc]
      exact (List.sublist_append_right ws _).append_left pre

/-- **Conservation.** With nothing lost, delivered words followed by the contents
are exactly the old contents followed by the accepted words. -/
theorem conservation (h : Steps q ops q') (hlost : lost ops = []) :
    delivered ops ++ q' = q ++ accepted ops := by
  induction h with
  | nil q => simp
  | @cons q q₁ q₂ o ops hs _ ih =>
    rw [lost_cons, List.append_eq_nil_iff] at hlost
    have ih := ih hlost.2
    cases hs with
    | accept ws | deliver ws => simpa [acceptedWords, deliveredWords] using ih
    | lose pre ws post =>
      obtain rfl : ws = [] := hlost.1
      simpa [acceptedWords, deliveredWords] using ih

end Steps

end QueueOp

namespace Machine

variable {σ ε ω : Type*} {M : Machine σ ε ω}

/-- A machine whose every step meeting `C` acts on some contents as the queue
operations it shows (`ops`) acts as a queue over every run whose steps meet `C`. -/
theorem queue_steps {I : σ → Prop} {C : σ → ε → Prop} (contents : σ → List α)
    (ops : ω → List (QueueOp α)) (hinv : ∀ s e, I s → C s e → I (M.step s e).1)
    (hstep : ∀ s e, I s → C s e → QueueOp.Steps (contents s) ((M.step s e).2.flatMap ops)
      (contents (M.step s e).1)) {s : σ} (hs : I s) {es : List ε} (hC : M.Along C s es) :
    QueueOp.Steps (contents s) ((M.trace s es).flatMap ops) (contents (M.final s es)) := by
  induction es generalizing s with
  | nil => exact .nil _
  | cons e es ih =>
    rw [trace_cons, List.flatMap_append, final_cons]
    exact (hstep s e hs hC.1).append (ih (hinv s e hs hC.1) hC.2)

end Machine

end Qosmo
