import Qosmo.Basic

/-!
# Qosmo.Sim.Files

The file system of the SIM card (`calypso_sim.c`, `sim_files`).

The table is fixed: what a file is (identifier, parent, structure, lengths) never changes,
and `data` is its initial contents, zeros behind. What commands write is kept by the card
(`Qosmo.Sim.Card`), for each file by its index in the table.
-/

namespace Qosmo.Sim

inductive EfStructure
  | transparent | linearFixed | cyclic | df | mf
  deriving Repr, DecidableEq

structure SimFile where
  fid : Word
  parent : Word
  kind : EfStructure
  size : Nat
  recLen : Nat
  data : List Byte
  deriving Repr, DecidableEq

def SimFile.isRecord (f : SimFile) : Bool := f.kind == .linearFixed || f.kind == .cyclic

def SimFile.nrec (f : SimFile) : Nat := f.size / f.recLen

def simFiles : List SimFile := [
  ⟨0x3F00, 0x0000, .mf, 0, 0, []⟩,
  ⟨0x7F20, 0x3F00, .df, 0, 0, []⟩,
  ⟨0x7F10, 0x3F00, .df, 0, 0, []⟩,
  ⟨0x2FE2, 0x3F00, .transparent, 10, 0,
    [0x98, 0x10, 0x10, 0x10, 0x00, 0x00, 0x00, 0x00, 0x00, 0xF1]⟩,
  ⟨0x6F07, 0x7F20, .transparent, 9, 0,
    [0x08, 0x09, 0x10, 0x10, 0x00, 0x00, 0x00, 0x00, 0xF1]⟩,
  ⟨0x6F30, 0x7F20, .transparent, 24, 0,
    [0x00, 0xF1, 0x10, 0xFF, 0xFF, 0xFF, 0xFF, 0xFF, 0xFF, 0xFF, 0xFF, 0xFF,
      0xFF, 0xFF, 0xFF, 0xFF, 0xFF, 0xFF, 0xFF, 0xFF, 0xFF, 0xFF, 0xFF, 0xFF]⟩,
  ⟨0x6F38, 0x7F20, .transparent, 14, 0,
    [0xFF, 0x33, 0xFF, 0xFF, 0x00, 0x00, 0x00, 0x00, 0x00, 0x00, 0x00, 0x00, 0x00, 0x00]⟩,
  ⟨0x6F78, 0x7F20, .transparent, 2, 0, [0x00, 0x01]⟩,
  ⟨0x6FAD, 0x7F20, .transparent, 4, 0, [0x00, 0x00, 0x00, 0x02]⟩,
  ⟨0x6F7E, 0x7F20, .transparent, 11, 0,
    [0xFF, 0xFF, 0xFF, 0xFF, 0xFF, 0xFF, 0xFF, 0x00, 0x00, 0xFF, 0x00]⟩,
  ⟨0x6F74, 0x7F20, .transparent, 16, 0,
    [0x40, 0x00, 0x00, 0x00, 0x00, 0x00, 0x00, 0x00,
      0x00, 0x00, 0x00, 0x00, 0x00, 0x00, 0x00, 0x00]⟩,
  ⟨0x6F46, 0x7F20, .transparent, 17, 0,
    [0x01, 0x51, 0x45, 0x4D, 0x55, 0x2D, 0x53, 0x49, 0x4D,
      0x20, 0x20, 0x20, 0x20, 0x20, 0x20, 0x20, 0x20]⟩,
  ⟨0x6F20, 0x7F20, .transparent, 9, 0,
    [0x00, 0x00, 0x00, 0x00, 0x00, 0x00, 0x00, 0x00, 0x07]⟩,
  ⟨0x6FB7, 0x7F20, .transparent, 3, 0, [0x11, 0xF2, 0xFF]⟩,
  ⟨0x6F05, 0x7F20, .transparent, 1, 0, [0x01]⟩,
  ⟨0x6FAE, 0x7F20, .transparent, 1, 0, [0x03]⟩,
  ⟨0x6F31, 0x7F20, .transparent, 1, 0, [0xFF]⟩,
  ⟨0x6F7B, 0x7F20, .transparent, 12, 0,
    [0xFF, 0xFF, 0xFF, 0xFF, 0xFF, 0xFF, 0xFF, 0xFF, 0xFF, 0xFF, 0xFF, 0xFF]⟩,
  ⟨0x6F3C, 0x7F20, .linearFixed, 704, 176, [0]⟩,
  ⟨0x6F42, 0x7F20, .linearFixed, 28, 28, [0xFF]⟩,
  ⟨0x6F43, 0x7F20, .transparent, 2, 0, [0xFF, 0xFF]⟩,
  ⟨0x6F45, 0x7F20, .transparent, 2, 0, [0xFF, 0xFF]⟩,
  ⟨0x6F48, 0x7F20, .transparent, 2, 0, [0xFF, 0xFF]⟩,
  ⟨0x6F39, 0x7F20, .cyclic, 9, 3, [0]⟩,
  ⟨0x6F37, 0x7F20, .transparent, 3, 0, [0x00, 0x00, 0x00]⟩,
  ⟨0x6F41, 0x7F20, .transparent, 5, 0, [0xFF, 0xFF, 0xFF, 0x00, 0x00]⟩,
  ⟨0x6F3E, 0x7F20, .transparent, 1, 0, [0xFF]⟩,
  ⟨0x6F3F, 0x7F20, .transparent, 1, 0, [0xFF]⟩,
  ⟨0x6F3A, 0x7F10, .linearFixed, 280, 28, [0xFF]⟩,
  ⟨0x6F3B, 0x7F10, .linearFixed, 28, 28, [0xFF]⟩,
  ⟨0x6F40, 0x7F10, .linearFixed, 28, 28, [0xFF]⟩,
  ⟨0x6F44, 0x7F10, .cyclic, 140, 28, [0xFF]⟩,
  ⟨0x6F4A, 0x7F10, .linearFixed, 13, 13, [0xFF]⟩,
  ⟨0x6F4B, 0x7F10, .linearFixed, 13, 13, [0xFF]⟩,
  ⟨0x6F16, 0x7F20, .transparent, 3, 0, [0x02, 0x00, 0x00]⟩,
  ⟨0x6F11, 0x7F20, .transparent, 2, 0, [0x55, 0x55]⟩,
  ⟨0x6F13, 0x7F20, .transparent, 2, 0, [0x55, 0x55]⟩,
  ⟨0x6F14, 0x7F20, .transparent, 10, 0,
    [0xFF, 0xFF, 0xFF, 0xFF, 0xFF, 0xFF, 0xFF, 0xFF, 0xFF, 0xFF]⟩,
  ⟨0x6F15, 0x7F20, .transparent, 2, 0, [0xFF, 0xFF]⟩,
  ⟨0x6F17, 0x7F20, .linearFixed, 28, 28, [0xFF]⟩]

/-- A file and its index in the table. -/
abbrev Entry := SimFile × Nat

/-- `find_file`: first in the preferred directory, where one is given, then anywhere. -/
def findFile (fid parentPref : Word) : Option Entry :=
  (if parentPref ≠ 0 then
      simFiles.zipIdx.find? fun e => e.1.fid == fid && e.1.parent == parentPref
    else none)
  <|> simFiles.zipIdx.find? fun e => e.1.fid == fid

/-! ### What the table guarantees -/

/-- Every transparent file fits its data array; every record file has a record store
(`SIM_REC_MAX`) of whole records. -/
structure SimFile.Sound (f : SimFile) : Prop where
  transparent : f.kind = .transparent → f.recLen = 0 ∧ f.size ≤ 64
  record : f.isRecord = true → 0 < f.recLen ∧ f.recLen ≤ 176 ∧ f.size ≤ 1024
  directory : f.fid = 0x3F00 ∨ f.fid &&& 0xFF00 = 0x7F00 → f.kind = .df ∨ f.kind = .mf

theorem simFiles_sound {f : SimFile} (hf : f ∈ simFiles) : f.Sound := by
  have hall : ∀ g ∈ simFiles,
      (g.kind = .transparent → g.recLen = 0 ∧ g.size ≤ 64) ∧
      (g.isRecord = true → 0 < g.recLen ∧ g.recLen ≤ 176 ∧ g.size ≤ 1024) ∧
      (g.fid = 0x3F00 ∨ g.fid &&& 0xFF00 = 0x7F00 → g.kind = .df ∨ g.kind = .mf) := by
    decide
  obtain ⟨htransparent, hrecord, hdirectory⟩ := hall f hf
  exact ⟨htransparent, hrecord, hdirectory⟩

theorem findFile_mem {fid parent : Word} {e : Entry} (h : findFile fid parent = some e) :
    e ∈ simFiles.zipIdx ∧ e.1.fid = fid := by
  have hfind : ∀ p : Entry → Bool, (∀ x, p x → x.1.fid = fid) →
      simFiles.zipIdx.find? p = some e → e ∈ simFiles.zipIdx ∧ e.1.fid = fid := by
    intro p hp hsome
    exact ⟨List.mem_of_find?_eq_some hsome, hp e (List.find?_some hsome)⟩
  rw [findFile, Option.orElse_eq_some] at h
  rcases h with h | ⟨-, h⟩
  · split at h
    · exact hfind _ (by simp +contextual) h
    · cases h
  · exact hfind _ (by simp) h

theorem findFile_sound {fid parent : Word} {e : Entry} (h : findFile fid parent = some e) :
    e.1.Sound := by
  obtain ⟨f, i⟩ := e
  exact simFiles_sound (List.fst_mem_of_mem_zipIdx (findFile_mem h).1)

end Qosmo.Sim
