import Qosmo.C54x.Pages
import Qosmo.C54x.Rete
import Qosmo.Lib.Fill

/-!
# Qosmo.C54x.Words

The words an instruction can address: those of data memory, and those of program memory on the page
in XPC. A place of either kind is read and written by its own functions; with OVLY set, 0x0060 to
0x27FF is the same storage in both. A store at a word of memory is a store in the sense of
`Qosmo.Stored`, with this overlap as the only one.
-/

namespace Qosmo.C54x

/-- A place in memory, by its address. -/
inductive Loc where
  | data (a : Word)
  | prog (a : Word)
  deriving DecidableEq, Repr

namespace Loc

def word (s : Cpu) : Loc → Word
  | .data a => dataRead s a
  | .prog a => progFetch s a

def write (c : Ctx) (s : Cpu) (v : Word) : Loc → Cpu
  | .data a => dataWrite c s a v
  | .prog a => progWrite s a v

/-- A word of memory, not a register or one of the addresses that keep something else. -/
def IsWord : Loc → Prop
  | .data a => isCell a = true
  | .prog _ => True

/-- A word of memory that can be written. -/
def Writable : Loc → Prop
  | .data a => isCell a = true
  | .prog a => a < 0xE000

def Overlaps (s : Cpu) : Loc → Loc → Prop
  | .data a, .data b => a = b
  | .prog a, .prog b => a = b
  | .data a, .prog b => a = b ∧ inOverlay s a = true
  | .prog a, .data b => a = b ∧ inOverlay s a = true

/-- A store at `l'` is not seen at the word `l`. -/
def Apart (s : Cpu) (l l' : Loc) : Prop := l.IsWord ∧ ¬ Overlaps s l l'

instance : (l : Loc) → Decidable l.Writable
  | .data _ => inferInstanceAs (Decidable (_ = _))
  | .prog _ => inferInstanceAs (Decidable (_ < _))

theorem Writable.isWord {l : Loc} (h : l.Writable) : l.IsWord := by
  cases l with
  | data a => exact h
  | prog a => trivial

end Loc

open Loc

/-! ### What the words depend on -/

/-- The parts of the core that the words of memory are read from. -/
def Cpu.memory (s : Cpu) :
    (Word → Word) × Option (BitVec 13 → Word) × (BitVec 18 → Word) × Word × Word :=
  (s.data, s.apiRam, s.prog, s.pmst, s.xpc)

section Memory

variable {s s' : Cpu} (h : s'.memory = s.memory)
include h

theorem inOverlay_of_memory (a : Word) : inOverlay s' a = inOverlay s a := by
  simp only [Cpu.memory, Prod.mk.injEq] at h
  simp only [inOverlay, h]

theorem progFetch_of_memory (a : Word) : progFetch s' a = progFetch s a := by
  have hover := inOverlay_of_memory h a
  simp only [Cpu.memory, Prod.mk.injEq] at h
  obtain ⟨hdata, -, hprog, -, hxpc⟩ := h
  simp only [progFetch, progXlate, hover, hdata, hprog, hxpc]

theorem word_of_memory {l : Loc} (hl : l.IsWord) : l.word s' = l.word s := by
  cases l with
  | data a =>
    have hcell : isCell a := hl
    simp only [Cpu.memory, Prod.mk.injEq] at h
    show dataRead s' a = dataRead s a
    rw [dataRead_cell hcell, dataRead_cell hcell, h.1, h.2.1]
  | prog a => exact progFetch_of_memory h a

end Memory

theorem overlaps_of_pmst {s s' : Cpu} (h : s'.pmst = s.pmst) (l l' : Loc) :
    Overlaps s' l l' ↔ Overlaps s l l' := by
  have hover : ∀ a, inOverlay s' a = inOverlay s a := fun a => by simp only [inOverlay, h]
  cases l <;> cases l' <;> simp only [Overlaps, hover]

theorem apart_of_pmst {s s' : Cpu} (h : s'.pmst = s.pmst) (l l' : Loc) :
    Apart s' l l' ↔ Apart s l l' := and_congr_right fun _ => not_congr (overlaps_of_pmst h l l')

/-! ### Stores -/

theorem stored_dataWrite (c : Ctx) (s : Cpu) {a : Word} (ha : isCell a) (v : Word) :
    Stored (Apart s) (.data a) v (word s) (word (dataWrite c s a v)) := by
  refine ⟨dataRead_dataWrite_same ha, fun l hl => ?_⟩
  cases l with
  | data b => exact dataRead_dataWrite_ne ha hl.1 hl.2
  | prog b =>
    -- program words are read from the data memory in the overlay only
    have hdata : inOverlay s b → Function.update s.data a v b = s.data b := fun hover =>
      Function.update_of_ne (fun hb => hl.2 ⟨hb, hover⟩) _ _
    show progFetch (dataWrite c s a v) b = progFetch s b
    rw [dataWrite_cell ha]
    have hread : ∀ ram, progFetch { s with data := Function.update s.data a v, apiRam := ram } b =
        progFetch s b := by
      intro ram
      show (if inOverlay s b then Function.update s.data a v b else s.prog (progXlate s b)) =
        progFetch s b
      unfold progFetch
      split
      · rename_i hover
        exact hdata hover
      · rfl
    split
    · exact hread _
    · exact hread s.apiRam

/-- The address is the low part of the word's number. -/
theorem setWidth_pageWord (p a : Word) : (pageWord p a).setWidth 16 = a := by
  unfold pageWord
  split
  · ext i hi
    simp
  · simp

/-- A store in program memory: on the page in XPC it is one word. -/
theorem stored_progWrite (s : Cpu) {a : Word} (ha : a < 0xE000) (v : Word) :
    Stored (Apart s) (.prog a) v (word s) (word (progWrite s a v)) := by
  have hread : ∀ b, progFetch (progWrite s a v) b =
      if inOverlay s b then (if b = a then v else s.data b)
      else if pageWord s.xpc b = pageWord s.xpc a ∨ pageWord s.xpc b = a.setWidth 18 then v
      else s.prog (pageWord s.xpc b) := by
    intro b
    rw [← progFetch_progWrite ha v s.xpc b, progWrite_eq ha]
    rfl
  constructor
  · show progFetch (progWrite s a v) a = v
    rw [hread]
    split
    · rw [if_pos rfl]
    · rw [if_pos (.inl rfl)]
  · intro l hl
    cases l with
    | data b =>
      have hcell : isCell b := hl.1
      show dataRead (progWrite s a v) b = dataRead s b
      rw [dataRead_cell hcell, dataRead_cell hcell, progWrite_eq ha]
      -- the copy in the overlay is at the same address
      have hdata : (if inOverlay s a ∧ b = a then v else s.data b) = s.data b :=
        if_neg fun ⟨hover, hba⟩ => hl.2 ⟨hba, hba ▸ hover⟩
      dsimp only
      rw [hdata]
    | prog b =>
      have hne : b ≠ a := hl.2
      have hpage : ¬ (pageWord s.xpc b = pageWord s.xpc a ∨ pageWord s.xpc b = a.setWidth 18) := by
        rintro (h | h)
        · have hlow := congrArg (BitVec.setWidth 16) h
          rw [setWidth_pageWord, setWidth_pageWord] at hlow
          exact hne hlow
        · have hlow := congrArg (BitVec.setWidth 16) h
          rw [setWidth_pageWord, BitVec.setWidth_setWidth_of_le _ (by decide), BitVec.setWidth_eq]
            at hlow
          exact hne hlow
      show progFetch (progWrite s a v) b = progFetch s b
      rw [hread, if_neg hne, if_neg hpage]
      rfl

theorem stored_write (c : Ctx) (s : Cpu) {l : Loc} (hl : l.Writable) (v : Word) :
    Stored (Apart s) l v (word s) (word (l.write c s v)) := by
  cases l with
  | data a => exact stored_dataWrite c s hl v
  | prog a => exact stored_progWrite s hl v

theorem stored_write_of_memory {s u : Cpu} (h : u.memory = s.memory) (c : Ctx) {l : Loc}
    (hl : l.Writable) (v : Word) : Stored (Apart s) l v (word s) (word (l.write c u v)) := by
  have hpmst : u.pmst = s.pmst := congrArg (fun m => m.2.2.2.1) h
  have hst := stored_write c u hl v
  refine ⟨hst.word, fun l' hl' => ?_⟩
  rw [hst.rest l' ((apart_of_pmst hpmst l' l).mpr hl'), word_of_memory h hl'.1]

theorem write_eq (c : Ctx) (s : Cpu) {l : Loc} (hl : l.Writable) (v : Word) :
    ∃ data ram prog, l.write c s v = { s with data := data, apiRam := ram, prog := prog } := by
  cases l with
  | data a =>
    rw [show (Loc.data a).write c s v = dataWrite c s a v from rfl, dataWrite_cell hl]
    split
    · exact ⟨_, _, s.prog, rfl⟩
    · exact ⟨_, s.apiRam, s.prog, rfl⟩
  | prog a =>
    rw [show (Loc.prog a).write c s v = progWrite s a v from rfl, progWrite_eq hl]
    exact ⟨_, s.apiRam, _, rfl⟩

end Qosmo.C54x
