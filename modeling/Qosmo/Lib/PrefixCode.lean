import Mathlib.Data.List.Basic

/-!
# Qosmo.Lib.PrefixCode

Messages that announce their own length.

A `PrefixCode` says how a message is written and how one is read off the front of a buffer.
`split` reads as many as the buffer holds and keeps the unfinished tail, which is what a
program does with what a stream socket gives it.

* `split_encode`: whole messages followed by an unfinished one split into just these;
* `split_append`: splitting in two goes, the tail of the first in front of the second, is
  splitting at once. So how the stream was cut does not matter.
-/

namespace Qosmo

open List

/-- A code in which every message can be told from what follows it. Only the messages
satisfying `Valid` can be written. -/
structure PrefixCode (α μ : Type*) where
  Valid : μ → Prop
  encode : μ → List α
  read : List α → Option (μ × List α)
  encode_ne_nil : ∀ m, encode m ≠ []
  read_encode : ∀ m rest, Valid m → read (encode m ++ rest) = some (m, rest)
  of_read : ∀ {buf m rest}, read buf = some (m, rest) → Valid m ∧ buf = encode m ++ rest

namespace PrefixCode

variable {α μ : Type*} (c : PrefixCode α μ)

/-- Read at most `k` messages: what was read, and what is left. -/
def splitLoop : Nat → List α → List μ × List α
  | 0, buf => ([], buf)
  | k + 1, buf =>
    match c.read buf with
    | some (m, rest) => (m :: (splitLoop k rest).1, (splitLoop k rest).2)
    | none => ([], buf)

/-- Read messages until the buffer holds no whole one. Each takes a byte at least, so the
length of the buffer is enough iterations. -/
def split (buf : List α) : List μ × List α := c.splitLoop buf.length buf

variable {c} {buf rest : List α} {m : μ} {ms : List μ} {k : Nat}

theorem length_lt_of_read (h : c.read buf = some (m, rest)) : rest.length < buf.length := by
  obtain ⟨-, rfl⟩ := c.of_read h
  have hpos := List.length_pos_iff.mpr (c.encode_ne_nil m)
  rw [length_append]
  omega

theorem splitLoop_of_none (h : c.read buf = none) (k : Nat) : c.splitLoop k buf = ([], buf) := by
  cases k with
  | zero => rfl
  | succ k => simp [splitLoop, h]

/-- Iterations beyond the length of the buffer change nothing. -/
theorem splitLoop_eq {j : Nat} (hj : buf.length ≤ j) (hk : buf.length ≤ k) :
    c.splitLoop j buf = c.splitLoop k buf := by
  induction j generalizing buf k with
  | zero =>
    obtain rfl : buf = [] := List.length_eq_zero_iff.mp (by omega)
    cases hread : c.read [] with
    | none => rw [splitLoop_of_none hread, splitLoop_of_none hread]
    | some p => exact absurd (length_lt_of_read hread) (Nat.not_lt_zero _)
  | succ j ih =>
    cases hread : c.read buf with
    | none => rw [splitLoop_of_none hread, splitLoop_of_none hread]
    | some p =>
      obtain ⟨m, rest⟩ := p
      have hlt := length_lt_of_read hread
      obtain ⟨n, rfl⟩ : ∃ n, k = n + 1 := ⟨k - 1, by omega⟩
      simp only [splitLoop, hread]
      rw [ih (by omega : rest.length ≤ j) (by omega : rest.length ≤ n)]

theorem split_of_none (h : c.read buf = none) : c.split buf = ([], buf) :=
  splitLoop_of_none h _

theorem split_of_some (h : c.read buf = some (m, rest)) :
    c.split buf = (m :: (c.split rest).1, (c.split rest).2) := by
  have hlt := length_lt_of_read h
  obtain ⟨n, hn⟩ : ∃ n, buf.length = n + 1 := ⟨buf.length - 1, by omega⟩
  rw [split, hn]
  simp only [splitLoop, h]
  rw [splitLoop_eq (by omega : rest.length ≤ n) (Nat.le_refl rest.length)]
  rfl

/-- Whole messages, then an unfinished one: the split gives just these. -/
theorem split_encode (hms : ∀ m ∈ ms, c.Valid m) (hrest : c.read rest = none) :
    c.split (ms.flatMap c.encode ++ rest) = (ms, rest) := by
  induction ms with
  | nil => exact split_of_none hrest
  | cons m ms ih =>
    have hread := c.read_encode m (ms.flatMap c.encode ++ rest) (hms m mem_cons_self)
    rw [flatMap_cons, append_assoc, split_of_some hread,
      ih fun m' hm' => hms m' (mem_cons_of_mem m hm')]

/-- The split loses nothing, and leaves no whole message behind. -/
theorem split_spec (c : PrefixCode α μ) (buf : List α) :
    (∀ m ∈ (c.split buf).1, c.Valid m) ∧
      buf = (c.split buf).1.flatMap c.encode ++ (c.split buf).2 ∧
      c.read (c.split buf).2 = none := by
  -- on the length of the buffer: every message read shortens it
  induction hn : buf.length using Nat.strongRecOn generalizing buf with
  | ind n ih =>
    cases hread : c.read buf with
    | none =>
      rw [split_of_none hread]
      exact ⟨by simp, rfl, hread⟩
    | some p =>
      obtain ⟨m, rest⟩ := p
      have hlt := length_lt_of_read hread
      obtain ⟨hvalid, hbuf⟩ := c.of_read hread
      obtain ⟨hall, hrest, hnone⟩ := ih rest.length (hn ▸ hlt) rest rfl
      rw [split_of_some hread]
      refine ⟨?_, ?_, hnone⟩
      · intro m' hm'
        rcases List.mem_cons.mp hm' with rfl | hm'
        · exact hvalid
        · exact hall m' hm'
      · rw [flatMap_cons, append_assoc, ← hrest]
        exact hbuf

/-- **Cuts do not matter.** Splitting what came first, and then its tail with what came
next, is splitting the whole. -/
theorem split_append (c : PrefixCode α μ) (a b : List α) :
    c.split (a ++ b) = ((c.split a).1 ++ (c.split ((c.split a).2 ++ b)).1,
      (c.split ((c.split a).2 ++ b)).2) := by
  obtain ⟨hvalid, ha, -⟩ := c.split_spec a
  obtain ⟨hvalid', hb, hnone⟩ := c.split_spec ((c.split a).2 ++ b)
  have hab : a ++ b = ((c.split a).1 ++ (c.split ((c.split a).2 ++ b)).1).flatMap c.encode
      ++ (c.split ((c.split a).2 ++ b)).2 := by
    conv => lhs; rw [ha]
    rw [append_assoc, flatMap_append, append_assoc, ← hb]
  have hall : ∀ m ∈ (c.split a).1 ++ (c.split ((c.split a).2 ++ b)).1, c.Valid m := by
    intro m hm
    rcases List.mem_append.mp hm with hm | hm
    · exact hvalid m hm
    · exact hvalid' m hm
  conv => lhs; rw [hab]
  exact split_encode hall hnone

end PrefixCode

end Qosmo
