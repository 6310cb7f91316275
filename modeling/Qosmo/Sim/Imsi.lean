import Mathlib.Data.List.TakeWhile
import Qosmo.Sim.Card

/-!
# Qosmo.Sim.Imsi

EF_IMSI from the configuration file (`calypso_sim.c`, `encode_imsi_bcd`).

The file has a byte with its length, then the digits as nibbles, the low nibble of a byte first.
The nibble in front of the digits tells whether their number is odd; if it is even, a filler F
follows the last digit. `decodeImsi` is how a terminal reads it, and `encodeImsiBcd_decode` says
that it finds the digits of the configuration file.
-/

namespace Qosmo.Sim

open BitVec List

/-- `c >= '0' && c <= '9'`. -/
def isDigit (c : Byte) : Bool := decide (0x30 ≤ c) && decide (c ≤ 0x39)

/-- The digits behind the first one, two a byte. -/
def imsiPairs : List Byte → List Byte
  | [] => []
  | [lo] => [(0xF : Byte) <<< 4 ||| (lo - 0x30)]
  | lo :: hi :: ds => ((hi - 0x30) <<< 4 ||| (lo - 0x30)) :: imsiPairs ds

/-- `encode_imsi_bcd`: the value returned and the nine bytes of `out`. -/
def encodeImsiBcd (imsiStr : List Byte) : Option (Nat × List Byte) :=
  let digits := imsiStr.takeWhile isDigit
  let n := digits.length
  if n < 1 ∨ 15 < n then none
  else
    let dataLen := n / 2 + 1
    let out := BitVec.ofNat 8 dataLen ::
      ((imsiStr.getD 0 0 - 0x30) <<< 4 ||| (if n % 2 = 1 then 0x9 else 0x1)) ::
      imsiPairs (digits.drop 1)
    some (dataLen + 1, out ++ List.replicate (9 - out.length) 0xFF)

/-- `load_config_from_file`, at the line of the IMSI. -/
def Config.loadImsi (cfg : Config) (imsiStr : List Byte) : Config :=
  match encodeImsiBcd imsiStr with
  | some (_, out) => { cfg with imsi := some fun k => out.getD k 0 }
  | none => cfg

/-! ### Reading EF_IMSI -/

def nibbles (bs : List Byte) : List Byte := bs.flatMap fun b => [b &&& 0x0F, b >>> 4]

/-- The digits in the contents of EF_IMSI: as many bytes as announced, the parity in front, and
a filler to be taken off an even number of digits. -/
def decodeImsi (ef : List Byte) : Option (List Byte) :=
  match nibbles ((ef.drop 1).take (ef.getD 0 0).toNat) with
  | [] => none
  | parity :: ds =>
    if parity = 0x9 then some (ds.map (· + 0x30))
    else if parity = 0x1 ∧ ds.getLast? = some 0xF then some (ds.dropLast.map (· + 0x30))
    else none

/-! ### The round trip -/

theorem toNat_pack {hi lo : Byte} (hhi : hi.toNat < 16) (hlo : lo.toNat < 16) :
    (hi <<< 4 ||| lo).toNat = hi.toNat * 16 + lo.toNat := by
  rw [toNat_or, toNat_shiftLeft, Nat.shiftLeft_eq, Nat.mod_eq_of_lt (by omega),
    Nat.mul_comm, Nat.two_pow_add_eq_or_of_lt (i := 4) hlo]

theorem nibbles_pack {hi lo : Byte} (hhi : hi.toNat < 16) (hlo : lo.toNat < 16) (bs : List Byte) :
    nibbles ((hi <<< 4 ||| lo) :: bs) = lo :: hi :: nibbles bs := by
  have hlow : (hi <<< 4 ||| lo) &&& 0x0F = lo := by
    rw [← toNat_inj, toNat_and, toNat_pack hhi hlo]
    exact (Nat.and_two_pow_sub_one_eq_mod _ 4).trans (by omega)
  have hhigh : (hi <<< 4 ||| lo) >>> 4 = hi := by
    rw [← toNat_inj, toNat_ushiftRight, toNat_pack hhi hlo,
      Nat.shiftRight_eq_div_pow]
    omega
  rw [nibbles, flatMap_cons, hlow, hhigh]
  rfl

/-- The value of a digit fits a nibble and is not the filler. -/
theorem toNat_digit {c : Byte} (h : isDigit c) : (c - 0x30).toNat < 10 := by
  simp only [isDigit, Bool.and_eq_true, decide_eq_true_eq] at h
  bv_omega

theorem pack_ne_filler {hi lo : Byte} (hhi : hi.toNat < 16) (hlo : lo.toNat < 15) :
    hi <<< 4 ||| lo ≠ 0xFF := by
  intro hff
  have hnat := congrArg BitVec.toNat hff
  rw [toNat_pack hhi (by omega)] at hnat
  have hfiller : (0xFF : Byte).toNat = 255 := rfl
  omega

/-- The pairs, read nibble by nibble: the digits, and a filler behind an odd number of them. -/
theorem nibbles_imsiPairs {ds : List Byte} (h : ∀ c ∈ ds, isDigit c) :
    nibbles (imsiPairs ds) = ds.map (· - 0x30) ++ if ds.length % 2 = 1 then [0xF] else [] := by
  fun_induction imsiPairs ds with
  | case1 => rfl
  | case2 lo =>
    have hlo := toNat_digit (h lo (by simp))
    rw [nibbles_pack (by decide) (by omega)]
    rfl
  | case3 lo hi ds ih =>
    have hlo := toNat_digit (h lo (by simp))
    have hhi := toNat_digit (h hi (by simp))
    have hlen : (lo :: hi :: ds).length % 2 = ds.length % 2 := Nat.add_mod_right _ 2
    rw [nibbles_pack (by omega) (by omega), ih fun c hc => h c (by simp [hc]), hlen]
    rfl

theorem imsiPairs_ne_filler {ds : List Byte} (h : ∀ c ∈ ds, isDigit c) :
    ∀ b ∈ imsiPairs ds, b ≠ 0xFF := by
  fun_induction imsiPairs ds with
  | case1 => simp
  | case2 lo =>
    have hlo := toNat_digit (h lo (by simp))
    rw [forall_mem_singleton]
    exact pack_ne_filler (by decide) (by omega)
  | case3 lo hi ds ih =>
    have hlo := toNat_digit (h lo (by simp))
    have hhi := toNat_digit (h hi (by simp))
    rw [forall_mem_cons]
    exact ⟨pack_ne_filler (by omega) (by omega), ih fun c hc => h c (by simp [hc])⟩

theorem length_imsiPairs (ds : List Byte) : (imsiPairs ds).length = (ds.length + 1) / 2 := by
  fun_induction imsiPairs ds with
  | case1 | case2 => simp
  | case3 lo hi ds ih =>
    simp only [length_cons, ih]
    omega

/-- The announced bytes for the digits `d :: ds`: the first with the parity, then the pairs. -/
def imsiBody (d : Byte) (ds : List Byte) : List Byte :=
  ((d - 0x30) <<< 4 ||| (if ds.length % 2 = 0 then 0x9 else 0x1)) :: imsiPairs ds

theorem length_imsiBody (d : Byte) (ds : List Byte) :
    (imsiBody d ds).length = (ds.length + 1) / 2 + 1 := by
  rw [imsiBody, length_cons, length_imsiPairs]

/-- EF_IMSI around the announced bytes. -/
def imsiFile (body : List Byte) : List Byte :=
  BitVec.ofNat 8 body.length :: (body ++ List.replicate (8 - body.length) 0xFF)

theorem encodeImsiBcd_eq {d : Byte} {ds rest : List Byte}
    (hdigits : ∀ c ∈ d :: ds, isDigit c) (hrest : ∀ c ∈ rest.head?, isDigit c = false)
    (hmax : ds.length < 15) :
    encodeImsiBcd (d :: ds ++ rest) =
      some ((imsiBody d ds).length + 1, imsiFile (imsiBody d ds)) := by
  have hscan : (d :: ds ++ rest).takeWhile isDigit = d :: ds := by
    rw [takeWhile_append_of_pos hdigits]
    cases rest with
    | nil => simp
    | cons c rest => simp [hrest c rfl]
  have hodd : (ds.length + 1) % 2 = 1 ↔ ds.length % 2 = 0 := by omega
  unfold encodeImsiBcd
  rw [hscan]
  rw [if_neg (by rw [length_cons]; omega), imsiFile, length_imsiBody]
  simp [imsiBody, hodd, length_imsiPairs]

theorem nibbles_imsiBody {d : Byte} {ds : List Byte} (h : ∀ c ∈ d :: ds, isDigit c) :
    nibbles (imsiBody d ds) =
      if ds.length % 2 = 0 then 0x9 :: (d :: ds).map (· - 0x30)
      else 0x1 :: ((d :: ds).map (· - 0x30) ++ [0xF]) := by
  have hd := toNat_digit (h d (by simp))
  have hds := nibbles_imsiPairs fun c hc => h c (mem_cons_of_mem d hc)
  rcases Nat.mod_two_eq_zero_or_one ds.length with heven | hodd
  · rw [imsiBody, heven, if_pos rfl, if_pos rfl, nibbles_pack (by omega) (by decide), hds, heven]
    simp
  · rw [imsiBody, hodd, if_neg (by decide), if_neg (by decide), nibbles_pack (by omega) (by decide),
      hds, hodd]
    rfl

theorem imsiBody_ne_filler {d : Byte} {ds : List Byte} (h : ∀ c ∈ d :: ds, isDigit c) :
    ∀ b ∈ imsiBody d ds, b ≠ 0xFF := by
  have hd := toNat_digit (h d (by simp))
  have hparity : (if ds.length % 2 = 0 then 0x9 else 0x1 : Byte).toNat < 15 := by
    split <;> decide
  refine List.forall_mem_cons.mpr ⟨pack_ne_filler (by omega) hparity, ?_⟩
  exact imsiPairs_ne_filler fun c hc => h c (mem_cons_of_mem d hc)

/-- The card has the nine bytes in EF_IMSI. -/
theorem initData_loadImsi {imsiStr out : List Byte} {r : Nat}
    (hout : encodeImsiBcd imsiStr = some (r, out)) (hlen : out.length = 9) (cfg : Config) {i : Nat}
    {f : SimFile} (hf : simFiles[i]? = some f) (hfid : f.fid = 0x6F07) :
    Card.bytesAt (Card.initData (cfg.loadImsi imsiStr) i) 0 9 = out := by
  have himsi : (cfg.loadImsi imsiStr).imsi = some fun k : Fin 9 => out.getD k 0 := by
    rw [Config.loadImsi, hout]
  refine ext_getElem (by simp [Card.bytesAt, hlen]) fun k hk hk' => ?_
  simp only [Card.bytesAt, getElem_map, getElem_range, Nat.zero_add, Card.initData, hf,
    hfid, himsi, if_true]
  rw [dif_pos (by omega)]
  rw [getD_eq_getElem?_getD, List.getElem?_eq_getElem hk']
  rfl

/-- **The IMSI, read back.** For a number of 1 to 15 digits, up to the first character that is
none, EF_IMSI decodes to its digits, and the length in front covers the bytes that are not
filler. -/
theorem encodeImsiBcd_decode {digits rest : List Byte} (hdigits : ∀ c ∈ digits, isDigit c = true)
    (hrest : ∀ c ∈ rest.head?, isDigit c = false) (hpos : 1 ≤ digits.length)
    (hmax : digits.length ≤ 15) :
    ∃ out, encodeImsiBcd (digits ++ rest) = some ((out.getD 0 0).toNat + 1, out) ∧
      out.length = 9 ∧ decodeImsi out = some digits ∧
      (∀ k, 1 ≤ k → k < 9 → (out.getD k 0 ≠ 0xFF ↔ k ≤ (out.getD 0 0).toNat)) ∧
      ∀ (cfg : Config) (i : Nat) (f : SimFile), simFiles[i]? = some f → f.fid = 0x6F07 →
        Card.bytesAt (Card.initData (cfg.loadImsi (digits ++ rest)) i) 0 9 = out := by
  obtain ⟨d, ds, rfl⟩ := exists_cons_of_length_pos hpos
  rw [length_cons] at hmax
  have hlen := length_imsiBody d ds
  have hannounced : ((imsiFile (imsiBody d ds)).getD 0 0).toNat = (imsiBody d ds).length :=
    Nat.mod_eq_of_lt (by omega)
  have hencode := encodeImsiBcd_eq hdigits hrest (by omega)
  have hfile : (imsiFile (imsiBody d ds)).length = 9 := by
    simp only [imsiFile, length_cons, length_append, length_replicate]
    omega
  refine ⟨imsiFile (imsiBody d ds), ?_, hfile, ?_, ?_, fun cfg i f hf hfid => ?_⟩
  · rw [hencode, hannounced]
  · have hunpack : ((d :: ds).map (· - 0x30)).map (· + (0x30 : Byte)) = d :: ds := by
      simp [Function.comp_def]
    unfold decodeImsi
    rw [hannounced, imsiFile, drop_one, tail_cons, take_left,
      nibbles_imsiBody hdigits]
    split_ifs
    · exact congrArg some hunpack
    · dsimp only
      rw [if_neg (by decide), if_pos ⟨rfl, List.getLast?_concat⟩, dropLast_concat, hunpack]
  · intro k hk hk9
    obtain ⟨k, rfl⟩ := Nat.exists_eq_add_of_le' hk
    rw [hannounced, imsiFile, getD_cons_succ]
    by_cases hin : k < (imsiBody d ds).length
    · have hbyte := imsiBody_ne_filler hdigits _ (getElem_mem hin)
      rw [getD_eq_getElem?_getD, List.getElem?_append_left hin, List.getElem?_eq_getElem hin]
      exact ⟨fun _ => hin, fun _ => hbyte⟩
    · rw [getD_eq_getElem?_getD, List.getElem?_append_right (by omega),
        List.getElem?_replicate_of_lt (by omega)]
      exact ⟨fun hne => absurd rfl hne, fun hle => absurd hle hin⟩
  · exact initData_loadImsi hencode hfile cfg hf hfid

/-- A line of the configuration file. -/
theorem encodeImsiBcd_decode_line :
    encodeImsiBcd (ascii "12" ++ [0x0A]) =
        some (3, [2, 0x11, 0xF2, 0xFF, 0xFF, 0xFF, 0xFF, 0xFF, 0xFF]) ∧
      decodeImsi [2, 0x11, 0xF2, 0xFF, 0xFF, 0xFF, 0xFF, 0xFF, 0xFF] = some (ascii "12") := by
  have hline : encodeImsiBcd (ascii "12" ++ [0x0A]) =
      some (3, [2, 0x11, 0xF2, 0xFF, 0xFF, 0xFF, 0xFF, 0xFF, 0xFF]) := by decide
  obtain ⟨out, hout, -, hdecode, -⟩ :=
    @encodeImsiBcd_decode (ascii "12") [0x0A] (by decide) (by decide) (by decide) (by decide)
  obtain ⟨-, rfl⟩ := Prod.mk.inj (Option.some.inj (hline.symm.trans hout))
  exact ⟨hline, hdecode⟩

end Qosmo.Sim
