import Qosmo.C54x.Run

/-!
# Qosmo.C54x.Family

What the decoder selects for all opcodes with some bits in common: those of an instruction,
or the high byte of a page. Most tests of a family contradict these bits; the first of the
few that remain decides.
-/

namespace Qosmo.C54x

open BitVec

/-! ### Some bits of an opcode -/

variable {op mask value : Word}

theorem and_of_and {mask' : Word} (h : op &&& mask = value)
    (hmask : mask &&& mask' = mask') : op &&& mask' = value &&& mask' := by
  rw [← h, BitVec.and_assoc, hmask]

theorem bitSet_of_and {n : Nat} (h : op &&& mask = value)
    (hmask : mask.getLsbD n) : bitSet op n = bitSet value n := by
  unfold bitSet
  rw [← h, getLsbD_and, hmask, Bool.and_true]

/-! ### The tests that remain -/

/-- The tests that opcodes with the bits `value` under `mask` can pass. -/
def fits (mask value : Word) (e : Entry) : Bool := value &&& e.mask == e.value &&& mask

variable {e : Entry}

section

variable (hop : op &&& mask = value)

include hop

theorem fits_of_hits (h : e.hits op) : fits mask value e := by
  unfold Entry.hits at h
  unfold fits
  rw [beq_iff_eq] at h ⊢
  rw [← hop, ← h, BitVec.and_assoc, BitVec.and_assoc, BitVec.and_comm mask]

theorem find?_fits (entries : List Entry) :
    entries.find? (·.hits op) = (entries.filter (fits mask value)).find? (·.hits op) := by
  rw [List.find?_filter]
  congr 1
  funext e
  cases hhit : e.hits op with
  | true => simp [fits_of_hits hop hhit]
  | false => simp

variable (hmask : 0xF000 &&& mask = 0xF000)

include hmask

theorem hi4_eq : (op >>> 12).toNat = (value >>> 12).toNat := by
  have hhigh : ∀ k < 16, 12 ≤ k → (0xF000 : Word).getLsbD k := by decide
  have hbit : ∀ k < 16, 12 ≤ k → mask.getLsbD k := by
    intro k hk hge
    have h := congrArg (·.getLsbD k) hmask
    simp only [getLsbD_and, hhigh k hk hge, Bool.true_and] at h
    exact h
  rw [← hop]
  congr 1
  ext i hi
  simp only [getElem_ushiftRight, getLsbD_and]
  by_cases hk : 12 + i < 16
  · rw [hbit (12 + i) hk (by omega), Bool.and_true]
  · rw [getLsbD_of_ge op _ (by omega), Bool.false_and]

/-- The first of the remaining tests that passes decides. -/
theorem decode_of_fits {entries : List Entry}
    (hfits : (family (value >>> 12).toNat).filter (fits mask value) = entries)
    (hfind : entries.find? (·.hits op) = some e) : decode op = e.act := by
  unfold decode
  rw [hi4_eq hop hmask, find?_fits hop, hfits, hfind]

/-- A test for exactly these bits passes, so it decides when it comes first. -/
theorem decode_of_first {act : Action} {entries : List Entry}
    (hfits : (family (value >>> 12).toNat).filter (fits mask value) = ⟨mask, value, act⟩ :: entries) :
    decode op = act := by
  apply decode_of_fits hop hmask hfits (e := ⟨mask, value, act⟩)
  have hhit : Entry.hits ⟨mask, value, act⟩ op = true := by
    simp only [Entry.hits, hop, beq_self_eq_true]
  simp [hhit]

end

/-! ### All tests -/

/-- Every test of the decoder. -/
def entries : List Entry :=
  tableF ++ (tableE ++ (table67 ++ (table4 ++ (table23 ++ (table89 ++ (tableAB ++ [
    plain 0xF000 0x0000 execAddSub,
    plain 0xF000 0x1000 execLoad,
    plain 0xF000 0x5000 execLong,
    plain 0xE000 0xC000 execStPar]))))))

theorem mem_entries {k : Nat} (he : e ∈ family k) : e ∈ entries := by
  unfold family at he
  split at he
  all_goals
    simp only [entries, List.mem_append, List.mem_cons, List.not_mem_nil, or_false] at he ⊢
    tauto

/-- The code of an opcode is that of a test it passes, or it is skipped. -/
theorem decode_cases (op : Word) :
    decode op = .plain execNop ∨ ∃ e ∈ entries, e.hits op ∧ decode op = e.act := by
  unfold decode
  split
  case h_1 e he =>
    have hhit := List.find?_some he
    exact Or.inr ⟨e, mem_entries (List.mem_of_find?_eq_some he), hhit, rfl⟩
  case h_2 => exact Or.inl rfl

/-! ### Running the code -/

theorem execOp_of_decode {act : Action} (hop : decode op = act) (c : Ctx) (s : Cpu) :
    execOp op c s = act.run op c { s with lkUsed := false } := by
  rw [← hop]
  rfl

theorem run_control (f : Word → Exec Flow) (op : Word) (c : Ctx) (s : Cpu) :
    (Action.control f).run op c s = (.flow (f op c s).1, (f op c s).2) := rfl

theorem run_plain (f : Word → Exec Nat) (op : Word) (c : Ctx) (s : Cpu) :
    (Action.plain f).run op c s = (.flow (.next (f op c s).1), (f op c s).2) := rfl

/-- Only the code of a control transfer does anything but fall through. -/
theorem control_of_flow {c : Ctx} {s : Cpu} {fl : Flow}
    (h : (execOp op c s).1 = .flow fl) (hfl : ∀ n, fl ≠ .next n) :
    ∃ f, decode op = .control f ∧ (f op c { s with lkUsed := false }).1 = fl := by
  cases hd : decode op with
  | plain f =>
    rw [execOp_of_decode hd, run_plain] at h
    exact absurd (Outcome.flow.inj h).symm (hfl _)
  | control f =>
    rw [execOp_of_decode hd, run_control] at h
    exact ⟨f, rfl, Outcome.flow.inj h⟩
  | halt =>
    rw [execOp_of_decode hd] at h
    change (if inBootStub c.pc then Outcome.flow (.next 1) else .idle) = _ at h
    split at h
    · exact absurd (Outcome.flow.inj h).symm (hfl 1)
    · cases h

end Qosmo.C54x
