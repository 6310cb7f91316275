import Mathlib.Data.List.DropRight
import Qosmo.Basic
import Qosmo.Lib.Ring

/-!
# Qosmo.Tbring

The trace of executed blocks (`tools/qosmo-tbring`): the plugin writes an entry for every block
into a ring in shared memory (`tbring.c`), and a tool reads the last ones (`tbring-dump.py`).

Plugin and tool share nothing but the file. The counter in the header goes round after 2⁶⁴
blocks, the lap number of an entry has 32 bits of it, and the tool takes an entry for overwritten
when its lap number is not the one it expects. The callbacks of `tb_exec` come one after the
other, and nothing runs while the tool reads.
-/

namespace Qosmo.Tbring

open List

/-- `TbRingHdr`, without its reserve. -/
structure TbRingHdr where
  magic : List Byte
  entries : BitVec 64
  count : BitVec 64
  shift : BitVec 64

structure TbRingEnt where
  pc : BitVec 32
  tour : BitVec 32

/-- The file: the header, and the entry at offset `64 + 8 * j` for every `j`. -/
structure File where
  hdr : TbRingHdr
  ring : Nat → TbRingEnt

/-- The plugin: the mapped file, `g_mask` and `g_shift`. -/
structure Plugin extends File where
  mask : BitVec 64
  shift : Nat

/-! ### Writing -/

/-- What `qemu_plugin_install` sets up for a ring size: the file has just been truncated. -/
def mapped (entries : BitVec 64) : Plugin where
  hdr := ⟨ascii "TBRING01", entries, 0, entries.ctz⟩
  ring := fun _ => ⟨0, 0⟩
  mask := entries - 1
  shift := entries.ctz.toNat

/-- `qemu_plugin_install`, with the value of the option `entries`. -/
def qemuPluginInstall (entries : BitVec 64) : Option Plugin :=
  if entries < 1024 ∨ entries &&& (entries - 1) ≠ 0 then none else some (mapped entries)

/-- `tb_exec`: `udata` is the address `tb_trans` found for the block. -/
def tbExec (p : Plugin) (udata : BitVec 64) : Plugin :=
  let i := p.hdr.count
  { p with
    hdr := { p.hdr with count := i + 1 }
    ring := Function.update p.ring (i &&& p.mask).toNat
      ⟨udata.setWidth 32, (i >>> p.shift).setWidth 32⟩ }

/-! ### Reading -/

/-- `lire`: the ring size, the counter, and an address for each block asked for, with the number
of the block; no address where the entry has been overwritten. -/
def lire (f : File) (n : Int) : Option (Nat × Nat × List (Option Nat × Nat)) :=
  if f.hdr.magic ≠ ascii "TBRING01" then none
  else
    let entries := f.hdr.entries.toNat
    let count := f.hdr.count.toNat
    let n := (min n (min entries count)).toNat
    some (entries, count, (List.range' (count - n) n).map fun i =>
      let e := f.ring (i &&& (entries - 1))
      (if e.tour.toNat ≠ (i >>> f.hdr.shift.toNat) &&& 0xffffffff then none else some e.pc.toNat,
        i))

/-! ### The ring after a run -/

/-- The entry of block number `j`, in a ring of `2 ^ k` entries. -/
def entry (k j : Nat) (udata : BitVec 64) : TbRingEnt :=
  ⟨udata.setWidth 32, (BitVec.ofNat 64 j >>> k).setWidth 32⟩

/-- After the blocks `pcs`, the ring of `2 ^ k` entries has an entry for each of the last ones. -/
structure Kept (k : Nat) (pcs : List (BitVec 64)) (p : Plugin) : Prop where
  hdr : p.hdr =
    ⟨ascii "TBRING01", BitVec.twoPow 64 k, BitVec.ofNat 64 pcs.length, BitVec.ofNat 64 k⟩
  mask : p.mask = BitVec.twoPow 64 k - 1
  shift : p.shift = k
  ring : Ring.Journal (2 ^ k) (pcs.mapIdx (entry k)) p.ring

variable {k : Nat}

section

variable (hk : k < 64)

include hk

theorem ctz_twoPow : (BitVec.twoPow 64 k).ctz = BitVec.ofNat 64 k := by
  have hne : BitVec.twoPow 64 k ≠ 0#64 := by
    intro hzero
    have hbit := congrArg (BitVec.getLsbD · k) hzero
    simp [hk] at hbit
  have hbit := BitVec.getLsbD_true_ctz_of_ne_zero hne
  rw [BitVec.getLsbD_twoPow] at hbit
  simp only [Bool.and_eq_true, decide_eq_true_eq] at hbit
  rw [← BitVec.toNat_inj, ← hbit.2, BitVec.toNat_ofNat, Nat.mod_eq_of_lt (by omega)]

theorem toNat_twoPow : (BitVec.twoPow 64 k).toNat = 2 ^ k := by
  rw [BitVec.toNat_twoPow, Nat.mod_eq_of_lt (Nat.pow_lt_pow_right (by decide) hk)]

theorem Kept.mapped : Kept k [] (mapped (BitVec.twoPow 64 k)) where
  hdr := by rw [Tbring.mapped, ctz_twoPow hk]; rfl
  mask := rfl
  shift := by
    show (BitVec.twoPow 64 k).ctz.toNat = k
    rw [ctz_twoPow hk, BitVec.toNat_ofNat, Nat.mod_eq_of_lt (by omega)]
  ring := Ring.Journal.nil

/-- The masked counter is the block's number modulo the size, also after the counter went round. -/
theorem slot_eq (j : Nat) : (BitVec.ofNat 64 j &&& (BitVec.twoPow 64 k - 1)).toNat = j % 2 ^ k := by
  have hmask : (BitVec.twoPow 64 k - 1).toNat = 2 ^ k - 1 := by
    have hpos := Nat.two_pow_pos k
    have hlt := (BitVec.twoPow 64 k).isLt
    rw [BitVec.toNat_sub_of_le (by rw [BitVec.le_def, toNat_twoPow hk]; exact hpos),
      toNat_twoPow hk]
    rfl
  rw [BitVec.toNat_and, hmask, BitVec.toNat_ofNat, Nat.and_two_pow_sub_one_eq_mod]
  exact Nat.mod_mod_of_dvd _ (Nat.pow_dvd_pow 2 (by omega))

theorem Kept.tbExec {pcs : List (BitVec 64)} {p : Plugin} (h : Kept k pcs p) (udata : BitVec 64) :
    Kept k (pcs ++ [udata]) (tbExec p udata) where
  hdr := by
    show { p.hdr with count := p.hdr.count + 1 } = _
    rw [h.hdr, length_append, BitVec.ofNat_add]
    rfl
  mask := h.mask
  shift := h.shift
  ring := by
    have hpush := h.ring.push (entry k pcs.length udata)
    show Ring.Journal _ _ (Function.update p.ring (p.hdr.count &&& p.mask).toNat
      ⟨udata.setWidth 32, (p.hdr.count >>> p.shift).setWidth 32⟩)
    rw [length_mapIdx] at hpush
    rw [h.hdr, h.mask, h.shift, slot_eq hk, mapIdx_concat]
    exact hpush

theorem Kept.run (pcs : List (BitVec 64)) :
    Kept k pcs (pcs.foldl Tbring.tbExec (Tbring.mapped (BitVec.twoPow 64 k))) := by
  induction pcs using List.reverseRecOn with
  | nil => exact .mapped hk
  | append_singleton pcs pc ih =>
    rw [foldl_append]
    exact ih.tbExec hk pc

/-- Reading the entry of block `j` under the number the counter had then. -/
theorem Kept.read {pcs : List (BitVec 64)} {p : Plugin} (h : Kept k pcs p) {j : Nat}
    (hj : j < pcs.length) (hlast : pcs.length ≤ j + 2 ^ k) :
    (p.ring ((j % 2 ^ 64) &&& (2 ^ k - 1))).pc.toNat = pcs[j].toNat % 2 ^ 32 ∧
      (p.ring ((j % 2 ^ 64) &&& (2 ^ k - 1))).tour.toNat = ((j % 2 ^ 64) >>> k) &&& 0xffffffff := by
  have hentry : (pcs.mapIdx (entry k))[j]? = some (entry k j pcs[j]) := by
    rw [List.getElem?_mapIdx, List.getElem?_eq_getElem hj]
    rfl
  have hring := h.ring hentry (by rwa [length_mapIdx])
  rw [Nat.and_two_pow_sub_one_eq_mod, Nat.mod_mod_of_dvd _ (Nat.pow_dvd_pow 2 (by omega)), hring]
  refine ⟨BitVec.toNat_setWidth _ _, ?_⟩
  rw [entry, BitVec.toNat_setWidth, BitVec.toNat_ushiftRight, BitVec.toNat_ofNat]
  exact (Nat.and_two_pow_sub_one_eq_mod _ 32).symm

/-- What the tool makes of the ring, `c` and `m` being the counter and the number of blocks. -/
theorem Kept.lire {pcs : List (BitVec 64)} {p : Plugin} (h : Kept k pcs p) {n : Int} {c m : Nat}
    (hc : c = pcs.length % 2 ^ 64) (hm : m = (min n (min (2 ^ k : Nat) c)).toNat) :
    lire p.toFile n = some (2 ^ k, c,
      ((pcs.rtake m).zipIdx (c - m)).map fun b => (some (b.1.toNat % 2 ^ 32), b.2)) := by
  have hcount : (BitVec.ofNat 64 pcs.length).toNat = c := hc.symm
  have hshift : (BitVec.ofNat 64 k).toNat = k := Nat.mod_eq_of_lt (by omega)
  unfold Tbring.lire
  rw [h.hdr, if_neg (not_not.mpr rfl)]
  simp only [hcount, toNat_twoPow hk, hshift, ← hm]
  refine congrArg (fun out => some (_, _, out)) (ext_getElem ?_ fun i hi hi' => ?_)
  · simp only [List.rtake, length_map, length_range', length_zipIdx,
      length_drop]
    omega
  · rw [length_map, length_range'] at hi
    have hj : (pcs.length - m + i) % 2 ^ 64 = c - m + i := by omega
    obtain ⟨hpc, htour⟩ := h.read hk (j := pcs.length - m + i) (by omega) (by omega)
    rw [hj] at hpc htour
    simp only [getElem_map, getElem_range', getElem_zipIdx, List.rtake,
      getElem_drop, Nat.one_mul, htour, hpc, ne_eq, not_true_eq_false, if_false]

end

/-- **The ring, read back.** Whatever the size of the ring, a power of two, and whatever blocks
have been executed, the tool gives the last ones in order, as many as were asked for, fit the ring
and have been counted, none of them as overwritten. The ring keeps 32 bits of an address, which is
all an ARM address has. -/
theorem lire_run {entries : BitVec 64} (hentries : entries.toNat.isPowerOfTwo)
    (pcs : List (BitVec 64)) (n : Int) :
    let count : Nat := pcs.length % 2 ^ 64
    let m := (min n (min entries.toNat count)).toNat
    ∃ out, lire (pcs.foldl tbExec (mapped entries)).toFile n = some (entries.toNat, count, out) ∧
      out = ((pcs.rtake m).zipIdx (count - m)).map (fun b => (some (b.1.toNat % 2 ^ 32), b.2)) ∧
      ((∀ pc ∈ pcs, pc.toNat < 2 ^ 32) →
        out.map Prod.fst = (pcs.rtake m).map fun pc => some pc.toNat) := by
  intro count m
  obtain ⟨k, hpow⟩ := hentries
  have hk : k < 64 := (Nat.pow_lt_pow_iff_right (by decide)).mp (hpow ▸ entries.isLt)
  obtain rfl : entries = BitVec.twoPow 64 k := by rw [← BitVec.toNat_inj, toNat_twoPow hk, hpow]
  refine ⟨_, ?_, rfl, ?_⟩
  · rw [hpow]
    exact (Kept.run hk pcs).lire hk rfl (by rw [← hpow])
  · intro hpc
    have haddr : (pcs.rtake m).map (fun pc => some (pc.toNat % 2 ^ 32)) =
        (pcs.rtake m).map fun pc => some pc.toNat :=
      map_congr_left fun pc hmem => by
        rw [Nat.mod_eq_of_lt (hpc pc (mem_of_mem_drop hmem))]
    rw [← haddr, map_map]
    conv_rhs => rw [← zipIdx_map_fst (count - m) (pcs.rtake m), map_map]
    rfl

/-- Six blocks in a ring of four. -/
theorem lire_run_lap : (4#64).toNat.isPowerOfTwo ∧
    lire (([1, 2, 3, 4, 5, 6] : List (BitVec 64)).foldl tbExec (mapped 4)).toFile 200 =
      some (4, 6, [(some 3, 2), (some 4, 3), (some 5, 4), (some 6, 5)]) := by
  have hsize : (4#64).toNat.isPowerOfTwo := ⟨2, rfl⟩
  obtain ⟨out, hlire, hout, -⟩ := lire_run hsize [1, 2, 3, 4, 5, 6] 200
  refine ⟨hsize, hlire.trans ?_⟩
  rw [hout]
  decide

end Qosmo.Tbring
