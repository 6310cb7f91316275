import Qosmo.Sim.Store

/-!
# Qosmo.Sim.Records

READ RECORD in the next mode.

`cmd_read_record` keeps the record last read in two variables of its own, `rec_ef` and
`rec_cur`. The current record starts over when a record is read in another file than the last
one, and at no other time: SELECT does not touch it. `read_next` is one such read and `reads_next`
a row of them, from whatever record is current.

So the records of a file come out from the first one on if the last record read was in another
file (`Fresh`). A file selected again goes on where it was.
-/

namespace Qosmo.Sim.Card

variable {c c' : Card} {cmd : Command} {e : Entry}

/-- READ RECORD in the next mode. -/
def ReadsNext (cmd : Command) : Prop := cmd.ins = 0xB2 ∧ cmd.p2 = 0x02

/-- A SELECT that succeeds, and the file the commands behind it act on. -/
structure Selects (c : Card) (cmd : Command) (e : Entry) : Prop where
  ins : cmd.ins = 0xA4
  success : (c.answer cmd).head? = some 0x9F
  selected : (machine.step c cmd).1.selected = some e

/-- The answer to a READ RECORD that returns record `r` of a file: the procedure byte, as much
of the record as was asked for, 90 00. -/
def recordAnswer (c : Card) (e : Entry) (le : Byte) (r : Nat) : List Byte :=
  0xB2 :: bytesAt (c.content e.2) ((r - 1) * e.1.recLen)
    (min (if le = 0 then e.1.recLen else le.toNat) e.1.recLen) ++ [0x90, 0x00]

/-- No record is current in the file: the last one read was in another file. -/
def Fresh (c : Card) (f : SimFile) : Prop := c.recEf ≠ f.fid ∨ c.recCur = 0

instance decidableFresh (c : Card) (f : SimFile) : Decidable (c.Fresh f) :=
  inferInstanceAs (Decidable (_ ∨ _))

/-! ### One read -/

/-- The number of a record fits the byte it is computed in. -/
theorem nrec_lt (h : c.selected = some e) (hrec : e.1.isRecord) : e.1.nrec < 256 := by
  have hall : ∀ f ∈ simFiles, f.isRecord → f.nrec < 256 := by decide
  refine hall e.1 ?_ hrec
  obtain ⟨f, i⟩ := e
  exact List.fst_mem_of_mem_zipIdx (findFile_mem h).1

theorem recStore_same (c : Card) (e : Entry) :
    (c.recStore e).selectedEf = c.selectedEf ∧ (c.recStore e).recEf = c.recEf ∧
      (c.recStore e).recCur = c.recCur := by
  unfold recStore
  split <;> exact ⟨rfl, rfl, rfl⟩

/-- A file of records is left selected, with its contents, by a read that returns the record
behind the current one and makes it current. -/
theorem read_next (hcmd : ReadsNext cmd) (h : c.selected = some e) (hrec : e.1.isRecord)
    (hlast : c.current < e.1.nrec) :
    c.answer cmd = c.recordAnswer e cmd.p3 (c.current + 1) ∧
      (machine.step c cmd).1.selected = some e ∧
      (machine.step c cmd).1.current = c.current + 1 ∧
      (machine.step c cmd).1.content = c.content := by
  have hnrec := nrec_lt h hrec
  -- the code adds in a byte; with fewer than 256 records that is no difference
  have hdes : designated c.current e.1.nrec cmd.p1 cmd.p2 = some (c.current + 1) := by
    rw [designated, if_pos hcmd.2, BitVec.toNat_ofNat, Nat.mod_eq_of_lt (by omega)]
  have hexec : c.execute cmd.ins cmd.p1 cmd.p2 cmd.p3 cmd.data
      = c.cmdReadRecord cmd.p1 cmd.p2 cmd.p3 := by
    rw [hcmd.1]
    rfl
  have hread : c.cmdReadRecord cmd.p1 cmd.p2 cmd.p3
      = ({ c with recEf := c.selectedEf, recCur := c.current + 1 }.recStore e,
        bytesAt (c.records e) ((c.current + 1 - 1) * e.1.recLen)
          (min (if cmd.p3 = 0 then e.1.recLen else cmd.p3.toNat) e.1.recLen) ++ [0x90, 0x00]) := by
    unfold cmdReadRecord
    simp only [h, hrec, hdes, hasStore_of_record h hrec, Bool.not_true, Bool.false_eq_true, if_false,
      if_true]
    rw [if_neg (by omega)]
  have hstep : (machine.step c cmd).1
      = { c with recEf := c.selectedEf, recCur := c.current + 1 }.recStore e :=
    congrArg Prod.fst (hexec.trans hread)
  obtain ⟨hselected, hrecEf, hrecCur⟩ :=
    recStore_same { c with recEf := c.selectedEf, recCur := c.current + 1 } e
  refine ⟨?_, ?_, ?_, ?_⟩
  · rw [answer_of_isRead (by rw [hcmd.1]; rfl), hexec, hread, recordAnswer, content_record h hrec,
      hcmd.1]
    rfl
  · rw [hstep, Card.selected, hselected]
    exact h
  · rw [hstep, current, hselected, hrecEf, hrecCur, if_neg (not_not_intro rfl)]
  · rw [hstep, content_recStore h]
    exact content_congr rfl rfl rfl

/-! ### A row of reads -/

theorem recordAnswer_congr (h : c'.content = c.content) : c'.recordAnswer e = c.recordAnswer e := by
  funext le r
  rw [recordAnswer, recordAnswer, h]

/-- **Reads in the next mode** return one record after the other, from the one behind the
current record on. -/
theorem reads_next {cmds : List Command} (hcmds : ∀ cmd ∈ cmds, ReadsNext cmd)
    (h : c.selected = some e) (hrec : e.1.isRecord)
    (hlen : c.current + cmds.length ≤ e.1.nrec) :
    machine.trace c cmds
      = (cmds.zipIdx (c.current + 1)).map fun q => c.recordAnswer e q.1.p3 q.2 := by
  induction cmds generalizing c with
  | nil => rfl
  | cons cmd cmds ih =>
    rw [List.length_cons] at hlen
    obtain ⟨hanswer, hselected, hcurrent, hcontent⟩ :=
      read_next (hcmds cmd List.mem_cons_self) h hrec (by omega)
    have hrest := ih (fun cmd' hcmd' => hcmds cmd' (List.mem_cons_of_mem cmd hcmd')) hselected
      (by omega)
    rw [Machine.trace_cons, hrest, hcurrent, recordAnswer_congr hcontent, List.zipIdx_cons,
      List.map_cons, ← hanswer]
    rfl

/-! ### Behind a SELECT -/

theorem cmdSelect_same (c : Card) (lc : Byte) (data : List Byte) :
    (c.cmdSelect lc data).1.recEf = c.recEf ∧ (c.cmdSelect lc data).1.recCur = c.recCur := by
  unfold cmdSelect
  split
  · exact ⟨rfl, rfl⟩
  · dsimp only
    split <;> exact ⟨rfl, rfl⟩

/-- SELECT changes neither the contents of the files nor the record last read. -/
theorem Selects.same (h : c.Selects cmd e) :
    (machine.step c cmd).1.content = c.content ∧
      (machine.step c cmd).1.current = if c.recEf ≠ e.1.fid then 0 else c.recCur := by
  have hstep : (machine.step c cmd).1 = (c.cmdSelect cmd.p3 cmd.data).1 := by
    show (c.execute cmd.ins cmd.p1 cmd.p2 cmd.p3 cmd.data).1 = _
    rw [h.ins]
    rfl
  obtain ⟨hrecEf, hrecCur⟩ := cmdSelect_same c cmd.p3 cmd.data
  have hfid : e.1.fid = (machine.step c cmd).1.selectedEf := (findFile_mem h.selected).2
  refine ⟨?_, ?_⟩
  · rw [hstep]
    exact content_select c cmd.p3 cmd.data
  · rw [current, ← hfid, hstep, hrecEf, hrecCur]

/-- **Reading a file through.** After a SELECT of a record file in which no record is current,
READ RECORD in the next mode returns record 1, then 2, and so on up to the last. -/
theorem select_reads_next (cfg : Config) (before : List Command) (sel : Command) (e : Entry)
    (reads : List Command) (hsel : (machine.final (init cfg) before).Selects sel e)
    (hrec : e.1.isRecord = true) (hfresh : (machine.final (init cfg) before).Fresh e.1)
    (hreads : ∀ cmd ∈ reads, ReadsNext cmd) (hlen : reads.length ≤ e.1.nrec) :
    machine.trace (machine.step (machine.final (init cfg) before) sel).1 reads
      = (reads.zipIdx 1).map fun q =>
          (machine.final (init cfg) before).recordAnswer e q.1.p3 q.2 := by
  generalize machine.final (init cfg) before = c at hsel hfresh ⊢
  obtain ⟨hcontent, hcurrent⟩ := hsel.same
  -- a pointer that belongs to another file counts as 0 in this one
  have hzero : (machine.step c sel).1.current = 0 := by
    rw [hcurrent]
    rcases hfresh with hother | hnone
    · rw [if_pos hother]
    · rw [hnone, ite_self]
  rw [reads_next hreads hsel.selected hrec (by omega), hzero, recordAnswer_congr hcontent]

def readNext : Command := ⟨0xA0, 0xB2, 0, 0x02, 0, [], rfl⟩

/-- EF_SMSP, the only record of which holds the SMS centre, and the phonebook EF_ADN. -/
def efSmsp : Entry := (⟨0x6F42, 0x7F20, .linearFixed, 28, 28, [0xFF]⟩, 19)
def efAdn : Entry := (⟨0x6F3A, 0x7F10, .linearFixed, 280, 28, [0xFF]⟩, 28)

/-- The phonebook, selected after a read of the SMS centre. -/
theorem select_reads_next_adn :
    machine.trace (machine.step (machine.final (init .bench)
        [select 0x7F 0x20, select 0x6F 0x42, readNext, select 0x7F 0x10]) (select 0x6F 0x3A)).1
        [readNext, readNext]
      = ([readNext, readNext].zipIdx 1).map fun q => (machine.final (init .bench)
          [select 0x7F 0x20, select 0x6F 0x42, readNext, select 0x7F 0x10]).recordAnswer efAdn
            q.1.p3 q.2 :=
  select_reads_next .bench _ _ efAdn _ ⟨rfl, by decide, by decide⟩ rfl (by decide)
    (by simp [ReadsNext, readNext]) (by decide)

/-- The SMS centre is read, and EF_SMSP selected again: there is no record behind the last one,
and the card answers 94 02. -/
theorem select_goes_on :
    (machine.final (init .bench) [select 0x7F 0x20, select 0x6F 0x42, readNext]).Selects
        (select 0x6F 0x42) efSmsp ∧ efSmsp.1.isRecord = true ∧
      machine.trace (machine.step (machine.final (init .bench)
        [select 0x7F 0x20, select 0x6F 0x42, readNext]) (select 0x6F 0x42)).1 [readNext]
        = [[0xB2, 0x94, 0x02]] ∧
      (machine.final (init .bench) [select 0x7F 0x20, select 0x6F 0x42, readNext]).recordAnswer
        efSmsp 0 1 ≠ [0xB2, 0x94, 0x02] := by
  refine ⟨⟨rfl, by decide, by decide⟩, rfl, by decide, by decide⟩

end Qosmo.Sim.Card
