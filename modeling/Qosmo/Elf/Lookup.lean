import Qosmo.Elf.Basic

/-!
# Qosmo.Elf.Lookup

The four lookups against the symbol table.

The symbol table of a well-formed file is a list of symbols (`File.symbols`), and a lookup is meant
to give the value of the first with the name (`File.firstSymbol`). The tools do, for every file
whose header counts its sections, as all files with less than 65280 sections do (`lookup_eq`). The
emulator has two limits of its own. It looks at no file of more than 64 MiB, and its 0 stands for
both a symbol that is not there and one that has the value 0 (`symbolAddress_eq`).
-/

namespace Qosmo.Elf

open List

/-! ### The symbol table -/

structure Symbol where
  /-- `none` for a name outside of the string table. -/
  name : Option (List Byte)
  value : Nat
  deriving Repr, DecidableEq

namespace File

variable (f : File)

/-- The number of sections. Where it does not fit the header, the header has 0 and the first section
header has the number in place of a size. -/
def sectionCount : Nat := if f.eShnum = 0 then (f.shdr 0).size else f.eShnum

def strings (t : Nat) : Shdr := f.shdr (f.shdr t).link

def symbolCount (t : Nat) : Nat := (f.shdr t).size / 16

def stName (t k : Nat) : Nat := le32 f.byte ((f.shdr t).offset + 16 * k)

def symbol (t k : Nat) : Symbol where
  name :=
    if f.stName t k < (f.strings t).size then
      some (Search.upTo 0 (fun i => f.byte ((f.strings t).offset + f.stName t k + i))
        ((f.strings t).size - f.stName t k))
    else none
  value := le32 f.byte ((f.shdr t).offset + 16 * k + 4)

def symbols (t : Nat) : List Symbol := (List.range (f.symbolCount t)).map (f.symbol t)

def firstSymbol (t : Nat) (name : Name) : Option Nat :=
  (f.symbols t).findSome? fun s => if s.name = some name.bytes then some s.value else none

/-- A little-endian ELF32 file with the one symbol table `t`. -/
structure WellFormed (t : Nat) : Prop where
  header : 52 ≤ f.size
  ident : f.isElf32 = true
  lsb : f.byte 5 = 1
  shoff : f.eShoff ≠ 0
  shentsize : f.eShentsize = 40
  sections : f.eShoff + 40 * f.sectionCount ≤ f.size
  /-- One symbol table, with entries of 16 bytes. -/
  symtab : ∀ s < f.sectionCount, (f.shdr s).type = 2 ↔ s = t
  symtab_lt : t < f.sectionCount
  entsize : (f.shdr t).entsize = 16
  symbols_le : (f.shdr t).offset + (f.shdr t).size ≤ f.size
  /-- Its string table, which ends with a NUL. -/
  link : (f.shdr t).link < f.sectionCount
  strings_le : (f.strings t).offset + (f.strings t).size ≤ f.size
  nul : 0 < (f.strings t).size → f.byte ((f.strings t).offset + (f.strings t).size - 1) = 0

instance (t : Nat) : Decidable (f.WellFormed t) :=
  decidable_of_iff
    (52 ≤ f.size ∧ f.isElf32 = true ∧ f.byte 5 = 1 ∧ f.eShoff ≠ 0 ∧ f.eShentsize = 40 ∧
      f.eShoff + 40 * f.sectionCount ≤ f.size ∧
      (∀ s < f.sectionCount, (f.shdr s).type = 2 ↔ s = t) ∧ t < f.sectionCount ∧
      (f.shdr t).entsize = 16 ∧ (f.shdr t).offset + (f.shdr t).size ≤ f.size ∧
      (f.shdr t).link < f.sectionCount ∧ (f.strings t).offset + (f.strings t).size ≤ f.size ∧
      (0 < (f.strings t).size → f.byte ((f.strings t).offset + (f.strings t).size - 1) = 0))
    ⟨fun ⟨h1, h2, h3, h4, h5, h6, h7, h8, h9, h10, h11, h12, h13⟩ =>
      ⟨h1, h2, h3, h4, h5, h6, h7, h8, h9, h10, h11, h12, h13⟩,
    fun ⟨h1, h2, h3, h4, h5, h6, h7, h8, h9, h10, h11, h12, h13⟩ =>
      ⟨h1, h2, h3, h4, h5, h6, h7, h8, h9, h10, h11, h12, h13⟩⟩

variable {f} {t : Nat}

/-- To compare the name in place is to compare the name of the symbol. -/
theorem strcmp_iff (hwf : f.WellFormed t) (name : Name) (k : Nat) :
    f.stName t k < (f.strings t).size ∧
      f.strcmp ((f.strings t).offset + f.stName t k) name ↔
    (f.symbol t k).name = some name.bytes := by
  rw [symbol]
  by_cases hin : f.stName t k < (f.strings t).size
  · have hnul : ∃ i < (f.strings t).size - f.stName t k,
        f.byte ((f.strings t).offset + f.stName t k + i) = 0 := by
      refine ⟨(f.strings t).size - 1 - f.stName t k, by omega, ?_⟩
      have hlast := hwf.nul (by omega)
      rwa [show (f.strings t).offset + f.stName t k + ((f.strings t).size - 1 - f.stName t k) =
        (f.strings t).offset + (f.strings t).size - 1 by omega]
    simp only [hin, true_and, if_true, Option.some.injEq]
    exact Search.holds_iff hnul name.noNul
  · simp [hin]

/-- What a search for the name finds at the symbol `k`. -/
def hit (f : File) (t : Nat) (name : Name) (k : Nat) : Option Nat :=
  if (f.symbol t k).name = some name.bytes then some (f.symbol t k).value else none

theorem firstSymbol_eq (f : File) (t : Nat) (name : Name) :
    f.firstSymbol t name = (List.range (f.symbolCount t)).findSome? (f.hit t name) := by
  rw [firstSymbol, symbols, List.findSome?_map]
  rfl

/-! ### The tools -/

theorem visit_answer (f : File) (nm value : Nat) (slot : Slot) :
    (f.visit nm value slot).answer =
      slot.answer.or (if f.strcmp nm slot.name then some value else none) := by
  unfold visit Slot.answer
  cases hfound : slot.found <;> cases hcmp : f.strcmp nm slot.name <;> simp [hfound]

theorem visit_name (f : File) (nm value : Nat) (slot : Slot) :
    (f.visit nm value slot).name = slot.name := by
  unfold visit
  split_ifs <;> rfl

def visitSymbol (f : File) (t : Nat) (slot : Slot) (k : Nat) : Slot :=
  if (f.strings t).size ≤ f.stName t k then slot
  else f.visit ((f.strings t).offset + f.stName t k) (f.symbol t k).value slot

theorem symbolPass_eq (f : File) (t : Nat) :
    f.symbolPass (f.shdr t) (f.strings t) =
      fun slots k => slots.map fun s => f.visitSymbol t s k := by
  funext slots k
  unfold symbolPass visitSymbol
  change (if (f.strings t).size ≤ f.stName t k then _ else _) = _
  split_ifs
  · exact (map_id slots).symm
  · rfl

section

variable (hwf : f.WellFormed t)

include hwf

theorem visitSymbol_answer (slot : Slot) (k : Nat) :
    (f.visitSymbol t slot k).answer = slot.answer.or (f.hit t slot.name k) ∧
    (f.visitSymbol t slot k).name = slot.name := by
  have hcmp := strcmp_iff hwf slot.name k
  unfold visitSymbol hit
  by_cases hout : (f.strings t).size ≤ f.stName t k
  · rw [if_pos hout, if_neg fun h => absurd (hcmp.mpr h).1 (by omega), Option.or_none]
    exact ⟨rfl, rfl⟩
  · rw [and_iff_right (Nat.lt_of_not_le hout)] at hcmp
    rw [if_neg hout, visit_answer, visit_name]
    simp only [hcmp, and_self]

/-- A cell that was not written before the pass has the value of the first symbol with the name
after it. -/
theorem foldl_visitSymbol (slot : Slot) (ks : List Nat) :
    (ks.foldl (f.visitSymbol t) slot).answer =
      slot.answer.or (ks.findSome? (f.hit t slot.name)) := by
  rw [← Search.foldl_or]
  induction ks generalizing slot with
  | nil => rfl
  | cons k ks ih =>
    obtain ⟨hanswer, hname⟩ := visitSymbol_answer hwf slot k
    rw [foldl_cons, foldl_cons, ih, hanswer, hname]

/-- The section of the symbol table is the only one that counts. -/
theorem foldl_sectionPass (hnum : f.eShnum ≠ 0) (slots : List Slot) :
    (List.range f.eShnum).foldl f.sectionPass slots =
      slots.map fun s => (List.range (f.symbolCount t)).foldl (f.visitSymbol t) s := by
  have hcount : f.sectionCount = f.eShnum := if_neg hnum
  have ht : t < f.eShnum := hcount ▸ hwf.symtab_lt
  have htype : (f.shdr t).type = 2 := (hwf.symtab t hwf.symtab_lt).mpr rfl
  have hlink : ¬ f.eShnum ≤ (f.shdr t).link := Nat.not_le.mpr (hcount ▸ hwf.link)
  have hinside : ¬ (f.size < (f.shdr t).offset + (f.shdr t).size ∨
      f.size < (f.strings t).offset + (f.strings t).size) := by
    have := hwf.symbols_le
    have := hwf.strings_le
    omega
  rw [Search.foldl_only nodup_range (List.mem_range.mpr ht)]
  · rw [← Search.foldl_map, ← symbolPass_eq]
    unfold sectionPass
    rw [if_neg (not_not.mpr htype), if_neg hlink]
    exact if_neg hinside
  · intro slots s hs hst
    have htype' : (f.shdr s).type ≠ 2 := fun h =>
      hst ((hwf.symtab s (hcount ▸ List.mem_range.mp hs)).mp h)
    unfold sectionPass
    exact if_pos htype'

/-- `elf32_lookup` finds the first symbol with each of the names. -/
theorem lookup_eq (hnum : f.eShnum ≠ 0) (slots : List Slot) :
    (lookup (some f) slots).1 = 0 ∧
    (lookup (some f) slots).2.map Slot.answer = slots.map fun s => f.firstSymbol t s.name := by
  have hcount : f.sectionCount = f.eShnum := if_neg hnum
  have htable : ¬ (f.eShoff = 0 ∨ f.eShentsize ≠ 40 ∨ f.size < f.eShoff + f.eShnum * 40) := by
    have := hwf.shoff
    have := hwf.shentsize
    have := hwf.sections
    rw [hcount] at this
    omega
  have hident : ¬ (!f.isElf32 || f.byte 5 != 1) := by simp [hwf.ident, hwf.lsb]
  have hlookup : lookup (some f) slots =
      (0, (List.range f.eShnum).foldl f.sectionPass
        (slots.map fun s => { s with found := false })) := by
    unfold lookup
    dsimp only
    rw [if_neg (Nat.not_lt.mpr hwf.header), if_neg hident, if_neg htable]
  rw [hlookup, foldl_sectionPass hwf hnum]
  refine ⟨rfl, ?_⟩
  rw [map_map, map_map]
  refine map_congr_left fun s _ => ?_
  rw [firstSymbol_eq]
  exact foldl_visitSymbol hwf _ _

end

/-! ### The emulator -/

variable {o : Nat}

theorem le16_congr {b b' : Nat → Byte} (h : ∀ i < o + 2, b i = b' i) : le16 b o = le16 b' o := by
  rw [le16, le16, h o (by omega), h (o + 1) (by omega)]

theorem le32_congr {b b' : Nat → Byte} (h : ∀ i < o + 4, b i = b' i) : le32 b o = le32 b' o := by
  rw [le32, le32, le16_congr fun i hi => h i (by omega), le16_congr fun i hi => h i (by omega)]

/-- Below 4 GiB the offsets do not wrap. -/
theorem r32_eq (f : File) (h : o + 4 ≤ 2 ^ 32) : f.r32 o = le32 f.byte o :=
  le32_congr fun i hi => by rw [w32, Nat.mod_eq_of_lt (by omega)]

theorem r16_eq (f : File) (h : o + 2 ≤ 2 ^ 32) : f.r16 o = le16 f.byte o :=
  le16_congr fun i hi => by rw [w32, Nat.mod_eq_of_lt (by omega)]

section Emulator

variable (hwf : f.WellFormed t) (hsize : f.size ≤ 64 <<< 20)

include hwf hsize

/-- The header of a section is inside of the file, and is read as it is. -/
theorem section_read {s : Nat} (hs : s < f.sectionCount) :
    w32 (f.eShoff + s * 40) = f.eShoff + 40 * s ∧ ¬ f.size < w32 (f.eShoff + 40 * s + 40) ∧
    ∀ d ≤ 36, f.r32 (f.eShoff + 40 * s + d) = le32 f.byte (f.eShoff + 40 * s + d) := by
  have hend : f.eShoff + 40 * s + 40 ≤ f.size := by
    have := hwf.sections
    omega
  refine ⟨?_, ?_, fun d hd => r32_eq f (by omega)⟩
  · rw [w32, Nat.mod_eq_of_lt (by omega), Nat.mul_comm]
  · rw [w32, Nat.mod_eq_of_lt (by omega)]
    omega

/-- The loop over the sections comes to the symbol table. -/
theorem sectionLoop_eq (want : Name) (fuel : Nat) {d s : Nat} (hs : s + d = t) {left : Nat}
    (hleft : s + left = f.sectionCount) :
    f.sectionLoop f.eShoff 40 want fuel left s =
      f.symtabLookup f.eShoff 40 (f.eShoff + 40 * t) want fuel := by
  have ht := hwf.symtab_lt
  induction d generalizing s left with
  | zero =>
    obtain rfl : s = t := hs
    obtain ⟨left, rfl⟩ : ∃ n, left = n + 1 := ⟨left - 1, by omega⟩
    obtain ⟨hsh, hin, hread⟩ := section_read hwf hsize ht
    have htype : f.r32 (f.eShoff + 40 * s + 4) = 2 :=
      (hread 4 (by omega)).trans ((hwf.symtab s ht).mpr rfl)
    rw [sectionLoop, hsh, if_neg hin, if_neg (not_not.mpr htype)]
  | succ d ih =>
    obtain ⟨left, rfl⟩ : ∃ n, left = n + 1 := ⟨left - 1, by omega⟩
    have hlt : s < f.sectionCount := by omega
    obtain ⟨hsh, hin, hread⟩ := section_read hwf hsize hlt
    have htype : f.r32 (f.eShoff + 40 * s + 4) ≠ 2 := by
      intro h
      have hst := (hwf.symtab s hlt).mp ((hread 4 (by omega)).symm.trans h)
      omega
    rw [sectionLoop, hsh, if_neg hin, if_pos htype]
    exact ih (by omega) (by omega)

/-- The headers of the two tables are read as they are. -/
theorem symtabLookup_eq (want : Name) (fuel : Nat) :
    f.symtabLookup f.eShoff 40 (f.eShoff + 40 * t) want fuel =
      f.symbolLoop (f.shdr t).offset (f.shdr t).size 16 (f.strings t).offset (f.strings t).size
        want fuel 0 := by
  obtain ⟨-, -, hread⟩ := section_read hwf hsize hwf.symtab_lt
  obtain ⟨hstrsh, hin, hread'⟩ := section_read hwf hsize hwf.link
  have hlink : f.r32 (f.eShoff + 40 * t + 0x18) = (f.shdr t).link := hread _ (by omega)
  have hent : f.r32 (f.eShoff + 40 * t + 0x24) = 16 := (hread _ (by omega)).trans hwf.entsize
  unfold symtabLookup
  dsimp only
  rw [hlink, hent, hstrsh, if_neg (by omega), hread _ (by omega), hread _ (by omega),
    hread' _ (by omega), hread' _ (by omega)]
  rfl

/-- The loop over the symbols, from the symbol `k` on, with `n` symbols left. -/
theorem symbolLoop_eq (want : Name) {n k fuel : Nat} (hk : k + n = f.symbolCount t)
    (hfuel : n < fuel) :
    f.symbolLoop (f.shdr t).offset (f.shdr t).size 16 (f.strings t).offset (f.strings t).size
      want fuel (16 * k) = some (((List.range' k n).findSome? (f.hit t want)).getD 0) := by
  have hin := hwf.symbols_le
  unfold symbolCount at hk
  obtain ⟨fuel, rfl⟩ : ∃ m, fuel = m + 1 := ⟨fuel - 1, by omega⟩
  induction n generalizing k fuel with
  | zero =>
    -- no symbol is left, and what is left of the table is less than a symbol
    have hend : ¬ (w32 (16 * k + 16) ≤ (f.shdr t).size ∧
        w32 ((f.shdr t).offset + 16 * k + 16) ≤ f.size) := by
      rw [w32, Nat.mod_eq_of_lt (by omega)]
      omega
    rw [symbolLoop, if_neg hend]
    rfl
  | succ n ih =>
    have hgoes : w32 (16 * k + 16) ≤ (f.shdr t).size ∧
        w32 ((f.shdr t).offset + 16 * k + 16) ≤ f.size := by
      rw [w32, w32, Nat.mod_eq_of_lt (by omega), Nat.mod_eq_of_lt (by omega)]
      omega
    have hname : f.r32 ((f.shdr t).offset + 16 * k) = f.stName t k := r32_eq f (by omega)
    have hvalue : f.r32 ((f.shdr t).offset + 16 * k + 4) = (f.symbol t k).value :=
      r32_eq f (by omega)
    have hnext : w32 (16 * k + 16) = 16 * (k + 1) := by
      rw [w32, Nat.mod_eq_of_lt (by omega)]
      omega
    have hcmp := strcmp_iff hwf want k
    rw [symbolLoop, if_pos hgoes, List.range'_succ, List.findSome?_cons]
    dsimp only
    rw [hname, hvalue, hnext, hit]
    by_cases hfits : (f.symbol t k).name = some want.bytes
    · rw [if_pos (hcmp.mpr hfits), if_pos hfits]
      rfl
    · rw [if_neg (mt hcmp.mp hfits), if_neg hfits]
      obtain ⟨fuel, rfl⟩ : ∃ m, fuel = m + 1 := ⟨fuel - 1, by omega⟩
      exact ih (k := k + 1) (by omega) fuel (by omega)

/-- The emulator's lookups come to their end in as many turns as there are symbols, and one more.
Their result is the value of the first symbol with the name, or 0. -/
theorem symbolAddress_eq (hnum : f.eShnum ≠ 0) (want : Name) {fuel : Nat}
    (hfuel : f.symbolCount t < fuel) :
    f.symbolAddress want fuel = some ((f.firstSymbol t want).getD 0) := by
  have hcount : f.sectionCount = f.eShnum := if_neg hnum
  have hlimits : ¬ (f.size < 52 ∨ 64 <<< 20 < f.size) := by
    have := hwf.header
    omega
  have hshoff : f.r32 0x20 = f.eShoff := r32_eq f (by omega)
  have hshent : f.r16 0x2E = 40 := (r16_eq f (by omega)).trans hwf.shentsize
  have hshnum : f.r16 0x30 = f.eShnum := r16_eq f (by omega)
  unfold symbolAddress
  rw [if_neg hlimits, if_pos hwf.ident, hshoff, hshent, hshnum,
    sectionLoop_eq hwf hsize want fuel (Nat.zero_add t) ((Nat.zero_add _).trans hcount.symm),
    symtabLookup_eq hwf hsize, firstSymbol_eq, range_eq_range']
  exact symbolLoop_eq hwf hsize want (Nat.zero_add _) hfuel

end Emulator

end File

/-! ### The four lookups -/

theorem address_getD {o : Option Nat} (h : o ≠ some 0) : address (o.getD 0) = o := by
  cases o with
  | none => rfl
  | some v =>
    have hv : v ≠ 0 := fun hv => h (congrArg some hv)
    exact if_neg hv

/-- The start of a file with the symbol `l1s`: the header, a symbol table with its strings, and the
headers of three sections. Where the file has more, they are empty. -/
def sampleBytes (shnum count value : Byte) : List Byte :=
  let word (b : Byte) : List Byte := [b, 0, 0, 0]
  let shdr (type offset size link entsize : List Byte) : List Byte :=
    word 0 ++ type ++ word 0 ++ word 0 ++ offset ++ size ++ link ++ word 0 ++ word 0 ++ entsize
  ascii "\x7FELF" ++ [1, 1] ++ List.replicate 26 0 ++ word 92 ++ List.replicate 10 0 ++
    [40, 0, shnum, 0, 0, 0] ++
    List.replicate 16 0 ++ word 1 ++ word value ++ List.replicate 8 0 ++
    [0] ++ ascii "l1s" ++ [0, 0, 0, 0] ++
    shdr (word 0) (word 0) [0, count, 0, 0] (word 0) (word 0) ++
    shdr (word 2) (word 52) (word 32) (word 2) (word 16) ++
    shdr (word 3) (word 84) (word 5) (word 0) (word 0)

/-- A file of the given size that starts so. `shnum` and 256 times `count` are the number of
sections in the header of the file and in the first section header. -/
def sample (size : Nat) (shnum count value : Byte) : File where
  size := size
  byte i := (sampleBytes shnum count value).getD i 0

def l1s : Name := ⟨ascii "l1s", by decide +kernel⟩

/-- A file with 65280 sections, which is more than its header can count. -/
def manySections : File := sample (92 + 40 * 65280) 0 0xFF 16

theorem manySections_type {s : Nat} (hs : 3 ≤ s) : (manySections.shdr s).type = 0 := by
  have hshoff : manySections.eShoff = 92 := by decide +kernel
  have hlength : (sampleBytes 0 0xFF 16).length = 212 := by decide +kernel
  have hzero : ∀ i, 212 ≤ i → manySections.byte i = 0 := by
    intro i hi
    change (sampleBytes 0 0xFF 16).getD i 0 = 0
    rw [getD_eq_getElem?_getD, List.getElem?_eq_none (by omega)]
    rfl
  rw [File.shdr, File.shdrAt, hshoff, le32, le16, le16, hzero _ (by omega), hzero _ (by omega),
    hzero _ (by omega), hzero _ (by omega)]
  rfl

theorem manySections_wellFormed : manySections.WellFormed 1 where
  header := by decide +kernel
  ident := by decide +kernel
  lsb := by decide +kernel
  shoff := by decide +kernel
  shentsize := by decide +kernel
  sections := by decide +kernel
  symtab s _ := by
    match s with
    | 0 | 1 | 2 => decide +kernel
    | s + 3 =>
      rw [manySections_type (by omega)]
      omega
  symtab_lt := by decide +kernel
  entsize := by decide +kernel
  symbols_le := by decide +kernel
  link := by decide +kernel
  strings_le := by decide +kernel
  nul := by decide +kernel

end Qosmo.Elf
