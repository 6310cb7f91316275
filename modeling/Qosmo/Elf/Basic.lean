import Qosmo.Basic
import Qosmo.Lib.Search

/-!
# Qosmo.Elf.Basic

The four functions that look a symbol up in the firmware's ELF file, as they are written.

`calypso_firmware_symbol` (`calypso_l1_dispatch.c`) and `elf_symbol` (`calypso_l1_grgsm.c`) read the
whole file and compute its offsets in 32 bits; they take the first symbol table there is, stop at
the first symbol that fits, and answer 0 if there is none. `elf32_lookup` is the same in `qosmo.c`
and in `qosmo-launch.c`: it maps the file, goes through the sections as C structures, looks for
several names in one pass, and says in an array of its own which it has found.

A file is its size and its bytes (`File`). What a read behind the end of the file gives is not said,
so a result about a lookup holds whatever stands there.
-/

namespace Qosmo.Elf

/-- A file, or the memory it was read into. -/
structure File where
  size : Nat
  byte : Nat → Byte

/-- A name to look up: a C string, without its NUL. -/
structure Name where
  bytes : List Byte
  noNul : 0 ∉ bytes

/-- Little-endian halfwords and words. -/
def le16 (b : Nat → Byte) (o : Nat) : Nat := (b o).toNat ||| (b (o + 1)).toNat <<< 8

def le32 (b : Nat → Byte) (o : Nat) : Nat := le16 b o ||| le16 b (o + 2) <<< 16

namespace File

variable (f : File)

/-- `strcmp(b + o, want) == 0`. -/
def strcmp (o : Nat) (want : Name) : Bool :=
  Search.holds 0 (fun i => f.byte (o + i)) want.bytes

def isElf32 : Bool :=
  f.byte 0 == 0x7F && f.byte 1 == 0x45 && f.byte 2 == 0x4C && f.byte 3 == 0x46 && f.byte 4 == 1

end File

/-! ### The lookups of the emulator -/

/-- Arithmetic of `uint32_t`. -/
def w32 (n : Nat) : Nat := n % 2 ^ 32

namespace File

variable (f : File)

/-- The macros `R16` and `R32`, at an offset that is a `uint32_t`. -/
def r16 (o : Nat) : Nat := le16 (fun i => f.byte (w32 i)) o

def r32 (o : Nat) : Nat := le32 (fun i => f.byte (w32 i)) o

/-- The loop over the symbols. The result is that of the function, and `none` if the loop has not
come to its end in `fuel` turns. -/
def symbolLoop (symoff symsz entsz stroff strsz : Nat) (want : Name) : Nat → Nat → Option Nat
  | 0, _ => none
  | fuel + 1, o =>
    if w32 (o + 16) ≤ symsz ∧ w32 (symoff + o + 16) ≤ f.size then
      let ni := f.r32 (symoff + o)
      if ni < strsz ∧ f.strcmp (stroff + ni) want then some (f.r32 (symoff + o + 4))
      else symbolLoop symoff symsz entsz stroff strsz want fuel (w32 (o + entsz))
    else some 0

/-- What the loop over the sections does with the symbol table at `sh`, which is its last turn. -/
def symtabLookup (shoff shent sh : Nat) (want : Name) (fuel : Nat) : Option Nat :=
  let symoff := f.r32 (sh + 0x10)
  let symsz := f.r32 (sh + 0x14)
  let link := f.r32 (sh + 0x18)
  let entsz := f.r32 (sh + 0x24)
  let strsh := w32 (shoff + link * shent)
  if f.size < w32 (strsh + 40) ∨ entsz < 16 then some 0
  else
    let stroff := f.r32 (strsh + 0x10)
    let strsz := f.r32 (strsh + 0x14)
    f.symbolLoop symoff symsz entsz stroff strsz want fuel 0

/-- The loop over the sections, of which `left` are left. -/
def sectionLoop (shoff shent : Nat) (want : Name) (fuel : Nat) : Nat → Nat → Option Nat
  | 0, _ => some 0
  | left + 1, si =>
    let sh := w32 (shoff + si * shent)
    if f.size < w32 (sh + 40) then some 0
    else if f.r32 (sh + 4) ≠ 2 then sectionLoop shoff shent want fuel left (si + 1)
    else f.symtabLookup shoff shent sh want fuel

/-- The body of both lookups, for a file that could be opened. -/
def symbolAddress (want : Name) (fuel : Nat) : Option Nat :=
  if f.size < 52 ∨ 64 <<< 20 < f.size then some 0
  else if f.isElf32 then
    f.sectionLoop (f.r32 0x20) (f.r16 0x2E) want fuel (f.r16 0x30) 0
  else some 0

end File

section Emulator

variable {Path : Type} (fs : Path → Option File)

def elfSymbol (path : Path) (want : Name) (fuel : Nat) : Option Nat :=
  match fs path with
  | none => some 0
  | some f => f.symbolAddress want fuel

def calypsoFirmwareSymbol (gFirmwareElf : Option Path) (want : Option Name) (fuel : Nat) :
    Option Nat :=
  match gFirmwareElf, want with
  | some path, some want =>
    match fs path with
    | none => some 0
    | some f => f.symbolAddress want fuel
  | _, _ => some 0

end Emulator

/-- What the callers of these two make of the result. -/
def address (ret : Nat) : Option Nat := if ret = 0 then none else some ret

/-! ### The lookups of the tools -/

/-- A name to look up with its cells of `addrs` and `found`. -/
structure Slot where
  name : Name
  addr : Nat := 0
  found : Bool := false

def Slot.answer (slot : Slot) : Option Nat := if slot.found then some slot.addr else none

structure Shdr where
  type : Nat
  offset : Nat
  size : Nat
  link : Nat
  entsize : Nat
  deriving Repr, DecidableEq

namespace File

variable (f : File)

def eShoff : Nat := le32 f.byte 0x20
def eShentsize : Nat := le16 f.byte 0x2E
def eShnum : Nat := le16 f.byte 0x30

def shdrAt (o : Nat) : Shdr where
  type := le32 f.byte (o + 4)
  offset := le32 f.byte (o + 0x10)
  size := le32 f.byte (o + 0x14)
  link := le32 f.byte (o + 0x18)
  entsize := le32 f.byte (o + 0x24)

/-- `sh[s]`. -/
def shdr (s : Nat) : Shdr := f.shdrAt (f.eShoff + 40 * s)

/-- The loop over the names at one symbol, whose name is at `nm`. -/
def visit (nm value : Nat) (slot : Slot) : Slot :=
  if !slot.found && f.strcmp nm slot.name then { slot with addr := value, found := true } else slot

/-- A turn of the loop over the symbols. -/
def symbolPass (sym strs : Shdr) (slots : List Slot) (k : Nat) : List Slot :=
  let o := sym.offset + 16 * k
  if strs.size ≤ le32 f.byte o then slots
  else slots.map (f.visit (strs.offset + le32 f.byte o) (le32 f.byte (o + 4)))

/-- A turn of the loop over the sections. -/
def sectionPass (slots : List Slot) (s : Nat) : List Slot :=
  let sym := f.shdr s
  if sym.type ≠ 2 then slots
  else if f.eShnum ≤ sym.link then slots
  else
    let strs := f.shdr sym.link
    if f.size < sym.offset + sym.size ∨ f.size < strs.offset + strs.size then slots
    else (List.range (sym.size / 16)).foldl (f.symbolPass sym strs) slots

end File

/-- The body of `elf32_lookup`: the code it returns, and the names with their cells. -/
def lookup (file : Option File) (slots : List Slot) : Int × List Slot :=
  match file with
  | none => (-1, slots)
  | some f =>
    if f.size < 52 then (-1, slots)
    else if !f.isElf32 || f.byte 5 != 1 then (-1, slots)
    else if f.eShoff = 0 ∨ f.eShentsize ≠ 40 ∨ f.size < f.eShoff + f.eShnum * 40 then (-1, slots)
    else
      (0, (List.range f.eShnum).foldl f.sectionPass (slots.map fun s => { s with found := false }))

section Tools

variable {Path : Type} (fs : Path → Option File)

/-- `elf32_lookup` of `qosmo.c`. -/
def elf32Lookup (path : Path) (slots : List Slot) : Int × List Slot := lookup (fs path) slots

/-- `elf32_lookup` of `qosmo-launch.c`. -/
def elf32LookupLaunch (path : Path) (slots : List Slot) : Int × List Slot :=
  lookup (fs path) slots

end Tools

end Qosmo.Elf
