import Qosmo.Basic
import Qosmo.Lib.Run

/-!
# Qosmo.Telnet

The telnet side of the gdb console (`filter_telnet` in `tools/gdb-telnet.py`).

A telnet client sends its commands in the same stream as the keys. The filter takes the commands
out, turns the interrupts into a gdb command, and makes one CR of the CR LF or CR NUL that the Enter
key gives. It is called with whatever the socket had, and keeps an unfinished command for the next
call.

A CR is not kept: at the end of what was received it goes out at once, and an LF that comes with the
next call goes out too. A NUL in its place is dropped anyhow. So the data does not depend on how the
stream was cut if no cut falls between a CR and its LF (`filter_cut`).
-/

namespace Qosmo.Telnet

open List

def iac : Byte := 255
def dont : Byte := 254
def do_ : Byte := 253
def wont : Byte := 252
def will : Byte := 251
def sb : Byte := 250
def se : Byte := 240
def ip : Byte := 244
def brk : Byte := 243

/-- `CTRL_C`: the current line is erased and the target interrupted. -/
def ctrlC : List Byte := 0x15 :: ascii "interrupt" ++ [10]

/-- What follows the first IAC SE, if there is one. -/
def afterSe : List Byte → Option (List Byte)
  | a :: b :: rest => if a = iac ∧ b = se then some rest else afterSe (b :: rest)
  | _ => none

/-- What follows the option of a command. -/
def afterOption : List Byte → Option (List Byte)
  | [] => none
  | _ :: rest => some rest

/-- A turn of the loop at a command, behind its IAC. -/
def command : List Byte → Option (List Byte × List Byte)
  | [] => none
  | c :: rest =>
    if c = iac then some ([iac], rest)
    else if c = ip ∨ c = brk then some (ctrlC, rest)
    else if c = do_ ∨ c = dont ∨ c = will ∨ c = wont then
      (afterOption rest).map fun rest => ([], rest)
    else if c = sb then (afterSe rest).map fun rest => ([], rest)
    else some ([], rest)

/-- What a CR takes with it. -/
def afterCr : List Byte → List Byte
  | [] => []
  | c :: rest => if c = 0 ∨ c = 10 then rest else c :: rest

/-- One turn of the loop: the bytes for gdb and what is left of the buffer. The loop ends at the end
of the buffer and at a command that is not complete. -/
def turn : List Byte → Option (List Byte × List Byte)
  | [] => none
  | b :: rest =>
    if b = iac then command rest
    else if b = 13 then some ([13], afterCr rest)
    else if b = 0 then some ([], rest)
    else if b = 3 then some (ctrlC, rest)
    else some ([b], rest)

/-- The loop. Every turn takes a byte at least, so `fuel` turns are enough for `fuel` bytes. -/
def loop : Nat → List Byte → List Byte × List Byte
  | 0, buf => ([], buf)
  | fuel + 1, buf =>
    match turn buf with
    | none => ([], buf)
    | some (out, rest) => (out ++ (loop fuel rest).1, (loop fuel rest).2)

/-- The bytes for gdb in a buffer, and what is kept of it. -/
def filterBuffer (buf : List Byte) : List Byte × List Byte := loop buf.length buf

/-- `filter_telnet`. The state is `pending`. -/
def filterTelnet (pending data : List Byte) : List Byte × List Byte :=
  filterBuffer (pending ++ data)

/-- The filter, call by call. -/
def machine : Machine (List Byte) (List Byte) Byte where
  step pending data := ((filterTelnet pending data).2, (filterTelnet pending data).1)

/-! ### Turns -/

variable {buf out rest : List Byte}

variable {l : List Byte}

/-- What is skipped up to SE is skipped whatever follows it. -/
theorem afterSe_split (h : afterSe l = some rest) :
    ∃ a pre, l = a :: (pre ++ rest) ∧ ∀ x, afterSe (a :: (pre ++ x)) = some x := by
  fun_induction afterSe l with
  | case1 a b l hse =>
    obtain rfl := Option.some.inj h
    exact ⟨a, [b], rfl, fun x => if_pos hse⟩
  | case2 a b l hse ih =>
    obtain ⟨_, pre, heq, hpre⟩ := ih h
    cases heq
    exact ⟨a, b :: pre, rfl, fun x => (if_neg hse).trans (hpre x)⟩
  | case3 => cases h

/-- A complete command is complete with whatever follows it. -/
theorem command_split (h : command buf = some (out, rest)) :
    ∃ c pre, buf = c :: (pre ++ rest) ∧ ∀ x, command (c :: (pre ++ x)) = some (out, x) := by
  cases buf with
  | nil => cases h
  | cons c l =>
    refine ⟨c, ?_⟩
    rw [command] at h
    simp only [command]
    split_ifs at h ⊢
    · cases h
      exact ⟨[], rfl, fun x => rfl⟩
    · cases h
      exact ⟨[], rfl, fun x => rfl⟩
    · cases l with
      | nil => cases h
      | cons o l =>
        cases h
        exact ⟨[o], rfl, fun x => rfl⟩
    · obtain ⟨rest', hse, heq⟩ := Option.map_eq_some_iff.mp h
      cases heq
      obtain ⟨a, pre, rfl, hpre⟩ := afterSe_split hse
      exact ⟨a :: pre, rfl, fun x => congrArg (Option.map _) (hpre x)⟩
    · cases h
      exact ⟨[], rfl, fun x => rfl⟩

theorem afterCr_append (h : l ≠ []) (x : List Byte) : afterCr (l ++ x) = afterCr l ++ x := by
  cases l with
  | nil => exact absurd rfl h
  | cons c l =>
    rw [cons_append, afterCr, afterCr]
    split <;> rfl

theorem afterCr_length (l : List Byte) : (afterCr l).length ≤ l.length := by
  cases l with
  | nil => exact Nat.le_refl 0
  | cons c l =>
    rw [afterCr]
    split
    · exact Nat.le_succ _
    · exact Nat.le_refl _

/-- A turn does the same with more behind the buffer, unless the buffer is just a CR. -/
theorem turn_append (h : turn buf = some (out, rest)) (hcr : buf ≠ [13]) (x : List Byte) :
    turn (buf ++ x) = some (out, rest ++ x) := by
  cases buf with
  | nil => cases h
  | cons b l =>
    rw [turn] at h
    rw [cons_append, turn]
    split_ifs at h ⊢ with hiac hb
    · obtain ⟨c, pre, rfl, hpre⟩ := command_split h
      rw [cons_append, append_assoc]
      exact hpre (rest ++ x)
    · have hl : l ≠ [] := by
        rintro rfl
        exact hcr (by rw [hb])
      cases h
      rw [afterCr_append hl]
    · cases h
      rfl
    · cases h
      rfl
    · cases h
      rfl

theorem turn_length (h : turn buf = some (out, rest)) : rest.length < buf.length := by
  cases buf with
  | nil => cases h
  | cons b l =>
    rw [turn] at h
    rw [length_cons]
    split_ifs at h
    · obtain ⟨c, pre, rfl, -⟩ := command_split h
      simp only [length_cons, length_append]
      omega
    · cases h
      exact Nat.lt_succ_of_le (afterCr_length l)
    · cases h
      exact Nat.lt_succ_self _
    · cases h
      exact Nat.lt_succ_self _
    · cases h
      exact Nat.lt_succ_self _

/-! ### Buffers -/

/-- More turns than bytes are not taken. -/
theorem loop_eq {j k : Nat} (hj : buf.length ≤ j) (hk : buf.length ≤ k) :
    loop j buf = loop k buf := by
  induction j generalizing buf k with
  | zero =>
    obtain rfl : buf = [] := List.length_eq_zero_iff.mp (by omega)
    cases k <;> rfl
  | succ j ih =>
    cases k with
    | zero =>
      obtain rfl : buf = [] := List.length_eq_zero_iff.mp (by omega)
      rfl
    | succ k =>
      rw [loop, loop]
      cases hturn : turn buf with
      | none => rfl
      | some p =>
        obtain ⟨out, rest⟩ := p
        have hlt := turn_length hturn
        dsimp only
        rw [ih (by omega) (by omega : rest.length ≤ k)]

theorem filterBuffer_of_none (h : turn buf = none) : filterBuffer buf = ([], buf) := by
  rw [filterBuffer, ← loop_eq (Nat.le_succ _) (Nat.le_refl _), loop, h]

theorem filterBuffer_of_some (h : turn buf = some (out, rest)) :
    filterBuffer buf = (out ++ (filterBuffer rest).1, (filterBuffer rest).2) := by
  rw [filterBuffer, ← loop_eq (Nat.le_succ _) (Nat.le_refl _), loop, h]
  dsimp only
  rw [loop_eq (Nat.le_of_lt (turn_length h)) (Nat.le_refl _)]
  rfl

/-! ### Cuts -/

/-- The turns over a buffer end with a CR of the data, which is its last byte. -/
inductive EndsInCr : List Byte → Prop
  | here : EndsInCr [13]
  | turn {buf out rest : List Byte} : turn buf = some (out, rest) → EndsInCr rest → EndsInCr buf

/-- A NUL in front of a buffer is dropped, an LF is not. -/
theorem filterBuffer_nul (x : List Byte) : filterBuffer (0 :: x) = filterBuffer x := by
  have hturn : turn (0 :: x) = some ([], x) := rfl
  rw [filterBuffer_of_some hturn]
  rfl

/-- So a CR may take the next byte with it or leave it, unless it is an LF. -/
theorem filterBuffer_afterCr {x : List Byte} (h : x.head? ≠ some 10) :
    filterBuffer (afterCr x) = filterBuffer x := by
  cases x with
  | nil => rfl
  | cons c x =>
    rw [afterCr]
    split
    case isTrue hc =>
      rcases hc with rfl | rfl
      · exact (filterBuffer_nul x).symm
      · exact absurd rfl h
    case isFalse => rfl

/-- **One cut.** Filtering what came first, and then what is kept of it with what came next, is
filtering the whole, unless a CR came last and an LF next. -/
theorem filterBuffer_append (buf x : List Byte) (h : EndsInCr buf → x.head? ≠ some 10) :
    filterBuffer (buf ++ x) = ((filterBuffer buf).1 ++ (filterBuffer ((filterBuffer buf).2 ++ x)).1,
      (filterBuffer ((filterBuffer buf).2 ++ x)).2) := by
  -- on the length of the buffer: every turn shortens it
  induction hn : buf.length using Nat.strongRecOn generalizing buf with
  | ind n ih =>
    cases hturn : turn buf with
    | none =>
      rw [filterBuffer_of_none hturn]
      rfl
    | some p =>
      obtain ⟨out, rest⟩ := p
      have hlt := turn_length hturn
      rw [filterBuffer_of_some hturn]
      by_cases hcr : buf = [13]
      · -- the CR has gone out; only an LF would have gone with it
        subst hcr
        obtain ⟨rfl, rfl⟩ : [13] = out ∧ [] = rest := Prod.mk.inj (Option.some.inj hturn)
        have hcrx : turn (13 :: x) = some ([13], afterCr x) := rfl
        rw [singleton_append, filterBuffer_of_some hcrx, filterBuffer_afterCr (h .here)]
        rfl
      · have hrest := ih rest.length (hn ▸ hlt) rest (fun hends => h (.turn hturn hends)) rfl
        rw [filterBuffer_of_some (turn_append hturn hcr x), hrest, append_assoc]

/-- No chunk begins with the LF of a CR that ends the chunks before it. -/
def CrLfTogether (chunks : List (List Byte)) : Prop :=
  ∀ before chunk after, chunks = before ++ chunk :: after →
    EndsInCr before.flatten → chunk.head? ≠ some 10

/-- **Cuts.** However the stream of a client is cut into chunks, but between a CR of the data and an
LF, gdb gets what it would get for the stream in one chunk, and the same is kept for later. -/
theorem filter_cut (chunks : List (List Byte)) (h : CrLfTogether chunks) :
    machine.trace [] chunks = (filterTelnet [] chunks.flatten).1 ∧
      machine.final [] chunks = (filterTelnet [] chunks.flatten).2 := by
  induction chunks using List.reverseRecOn with
  | nil => exact ⟨rfl, rfl⟩
  | append_singleton chunks chunk ih =>
    obtain ⟨htrace, hfinal⟩ := ih fun before c after hsplit =>
      h before c (after ++ [chunk]) (by rw [hsplit, append_assoc]; rfl)
    have hcut := filterBuffer_append chunks.flatten chunk (h chunks chunk [] rfl)
    rw [Machine.trace_append, Machine.final_append, htrace, hfinal, flatten_append,
      flatten_singleton, filterTelnet, filterTelnet, nil_append, nil_append, hcut]
    refine ⟨?_, rfl⟩
    rw [Machine.trace_cons, Machine.trace_nil, append_nil]
    rfl

/-- Chunks that do not begin with an LF. -/
theorem crLfTogether_of_head {chunks : List (List Byte)} (h : ∀ c ∈ chunks, c.head? ≠ some 10) :
    CrLfTogether chunks := by
  intro before chunk after hsplit _
  exact h chunk (by rw [hsplit]; exact mem_append_right _ mem_cons_self)

/-- A CR LF in one chunk, and a command in two. -/
theorem filter_cut_command :
    machine.trace [] [[97, 13, 10, 255], [244, 98]] = 97 :: 13 :: ctrlC ++ [98] :=
  (filter_cut [[97, 13, 10, 255], [244, 98]] (crLfTogether_of_head (by decide))).1.trans
    (by decide)

/-- A CR LF in two chunks gives an LF more than in one. -/
theorem crLf_cut :
    machine.trace [] [[97, 13], [10]] = [97, 13, 10] ∧
      (filterTelnet [] [97, 13, 10]).1 = [97, 13] := by
  decide

end Qosmo.Telnet
