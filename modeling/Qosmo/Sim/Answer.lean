import Qosmo.Sim.Card

/-!
# Qosmo.Sim.Answer

What the card answers to the commands that return data.

In T=0 such a command is answered with its procedure byte, the data and two status bytes,
or with two status bytes alone (`Conforms`). The card departs from this in two ways:

* GET RESPONSE, READ RECORD and STATUS return what they have: all of it when P3 is 0, and
  no more than that when P3 asks for more. READ BINARY refuses instead;
* the procedure byte is pushed before the command runs, so that a refusal carries it too.

`answer_returns_data` is what holds of every command that succeeds.
-/

namespace Qosmo.Sim

namespace Card

variable {c : Card} {cmd : Command}

def answer (c : Card) (cmd : Command) : List Byte := (c.dispatchApdu cmd.bytes).2

/-- The last two bytes of an answer. -/
def status (bs : List Byte) : List Byte := bs.drop (bs.length - 2)

/-- GET RESPONSE, READ BINARY, READ RECORD and STATUS. -/
def isRead (ins : Byte) : Bool := ins == 0xC0 || ins == 0xB0 || ins == 0xB2 || ins == 0xF2

/-- The answer T=0 expects: a status alone, or the procedure byte, P3 bytes of data (256 for
a P3 of 0) and a status. -/
def Conforms (cmd : Command) (bs : List Byte) : Prop :=
  (∃ sw1 sw2, bs = [sw1, sw2]) ∨
    ∃ data sw1 sw2, bs = cmd.ins :: data ++ [sw1, sw2] ∧
      data.length = if cmd.p3 = 0 then 256 else cmd.p3.toNat

/-- What a command can return: the pending response, a record, the 25 bytes that describe a
directory. -/
def available (c : Card) (cmd : Command) : Nat :=
  if cmd.ins = 0xC0 then c.resp.length
  else if cmd.ins = 0xB2 then (c.selected.map fun e => e.1.recLen).getD 0
  else 25

def returned (c : Card) (cmd : Command) : Nat :=
  if cmd.ins = 0xB0 then (if cmd.p3 = 0 then 256 else cmd.p3.toNat)
  else if cmd.p3 = 0 then c.available cmd
  else min cmd.p3.toNat (c.available cmd)

@[simp] theorem bytesAt_length (m : Nat → Byte) (off n : Nat) : (bytesAt m off n).length = n := by
  simp [bytesAt]

/-- What each command gives, an instruction at a time. -/
theorem execute_forall {P : Card × List Byte → Prop} {ins p1 p2 p3 : Byte} {data : List Byte}
    (hselect : P (c.cmdSelect p3 data)) (hbinary : P (c.cmdReadBinary p1 p2 p3))
    (hrecord : P (c.cmdReadRecord p1 p2 p3))
    (hupdate : ins = 0xD6 → P (c.cmdUpdateBinary p1 p2 p3 data))
    (hupdateRecord : ins = 0xDC → P (c.cmdUpdateRecord p1 p2 p3 data))
    (hget : P (c.cmdGetResponse p3)) (hstatus : P (c.cmdStatus p3)) (hchv : P (c, [0x90, 0x00]))
    (halgo : P (c.cmdRunGsmAlgo p3 data)) (hunknown : P (c, [0x6D, 0x00])) :
    P (c.execute ins p1 p2 p3 data) := by
  unfold execute
  refine iteInduction (fun _ => hselect) fun _ => ?_
  refine iteInduction (fun _ => hbinary) fun _ => ?_
  refine iteInduction (fun _ => hrecord) fun _ => ?_
  refine iteInduction hupdate fun _ => ?_
  refine iteInduction hupdateRecord fun _ => ?_
  refine iteInduction (fun _ => hget) fun _ => ?_
  refine iteInduction (fun _ => hstatus) fun _ => ?_
  refine iteInduction (fun _ => hchv) fun _ => ?_
  exact iteInduction (fun _ => halgo) fun _ => hunknown

theorem dispatchApdu_eq (c : Card) (cmd : Command) :
    c.dispatchApdu cmd.bytes
      = ((c.execute cmd.ins cmd.p1 cmd.p2 cmd.p3 cmd.data).1,
        (if returnsData cmd.ins then [cmd.ins] else [])
          ++ (c.execute cmd.ins cmd.p1 cmd.p2 cmd.p3 cmd.data).2) := rfl

/-- A command that returns data is answered behind its procedure byte. -/
theorem answer_of_isRead (hread : isRead cmd.ins) :
    c.answer cmd = cmd.ins :: (c.execute cmd.ins cmd.p1 cmd.p2 cmd.p3 cmd.data).2 := by
  have hack : returnsData cmd.ins := by
    simp only [isRead, Bool.or_eq_true] at hread
    simp only [returnsData, Bool.or_eq_true]
    exact .inl hread
  rw [answer, dispatchApdu_eq, hack]
  rfl

/-! ### The four commands

Each is refused, or succeeds with data of the length announced. -/

/-- An answer without its procedure byte: refused, or `n` bytes of data and 90 00. -/
def Answers (bs : List Byte) (n : Nat) : Prop :=
  (∃ sw1 sw2, bs = [sw1, sw2] ∧ ¬ (sw1 = 0x90 ∧ sw2 = 0x00)) ∨
    ∃ data, bs = data ++ [0x90, 0x00] ∧ data.length = n

theorem getResponse_answers (c : Card) (le : Byte) :
    Answers (c.cmdGetResponse le).2
      (if le = 0 then c.resp.length else min le.toNat c.resp.length) := by
  unfold cmdGetResponse
  split
  · exact .inl ⟨_, _, rfl, by decide⟩
  · refine .inr ⟨_, rfl, ?_⟩
    split <;> simp

theorem readBinary_answers (c : Card) (p1 p2 le : Byte) :
    Answers (c.cmdReadBinary p1 p2 le).2 (if le = 0 then 256 else le.toNat) := by
  unfold cmdReadBinary
  generalize (if le = 0 then 256 else le.toNat) = n
  split
  · exact .inl ⟨_, _, rfl, by decide⟩
  · split
    · exact .inl ⟨_, _, rfl, by decide⟩
    · dsimp only
      split
      · exact .inl ⟨_, _, rfl, by decide⟩
      · exact .inr ⟨_, rfl, bytesAt_length _ _ _⟩

theorem readRecord_answers (c : Card) (rec mode le : Byte) :
    Answers (c.cmdReadRecord rec mode le).2
      (min (if le = 0 then (c.selected.map fun e => e.1.recLen).getD 0 else le.toNat)
        ((c.selected.map fun e => e.1.recLen).getD 0)) := by
  unfold cmdReadRecord
  split
  · exact .inl ⟨_, _, rfl, by decide⟩
  · rename_i e hsel
    rw [hsel]
    split
    · exact .inl ⟨_, _, rfl, by decide⟩
    · dsimp only
      split
      · exact .inl ⟨_, _, rfl, by decide⟩
      · split
        · exact .inl ⟨_, _, rfl, by decide⟩
        · refine .inr ⟨_, rfl, ?_⟩
          split <;> simp

theorem buildSelectResponse_length {f : SimFile} (h : f.kind = .df ∨ f.kind = .mf) :
    (buildSelectResponse f).length = 25 := by
  rw [buildSelectResponse, if_pos h]
  rfl

theorem status_answers (c : Card)
    (hdf : ∀ e, findFile c.selectedDf 0 = some e → e.1.kind = .df ∨ e.1.kind = .mf) (le : Byte) :
    Answers (c.cmdStatus le).2 (if le = 0 then 25 else min le.toNat 25) := by
  unfold cmdStatus
  split
  · exact .inl ⟨_, _, rfl, by decide⟩
  · rename_i e hfind
    refine .inr ⟨_, rfl, ?_⟩
    rw [List.length_take, buildSelectResponse_length (hdf e hfind)]
    by_cases hle : le = 0
    · simp [hle]
    · simp only [hle, false_or, if_false]
      split <;> omega

/-! ### The selected directory -/

/-- The selected directory is one: the MF, or an identifier of the directories. -/
def DirectorySelected (c : Card) : Prop :=
  c.selectedDf = 0x3F00 ∨ c.selectedDf &&& 0xFF00 = 0x7F00

theorem DirectorySelected.lookup (h : c.DirectorySelected) (fid : Word) :
    (c.lookup fid).2 = 0x3F00 ∨ (c.lookup fid).2 &&& 0xFF00 = 0x7F00 := by
  unfold Card.lookup
  split
  · exact .inl rfl
  · split
    · rename_i hfid
      dsimp only
      split
      · exact .inr hfid
      · exact h
    · split <;> exact h

theorem cmdSelect_selectedDf (c : Card) (lc : Byte) (data : List Byte) :
    (c.cmdSelect lc data).1.selectedDf = c.selectedDf ∨
      ∃ fid, (c.cmdSelect lc data).1.selectedDf = (c.lookup fid).2 := by
  unfold cmdSelect
  split
  · exact .inl rfl
  · dsimp only
    split <;> exact .inr ⟨_, rfl⟩

theorem cmdReadRecord_selectedDf (c : Card) (rec mode le : Byte) :
    (c.cmdReadRecord rec mode le).1.selectedDf = c.selectedDf := by
  unfold cmdReadRecord
  split
  · rfl
  · split
    · rfl
    · dsimp only
      split
      · rfl
      · split
        · rfl
        · unfold recStore
          split <;> rfl

theorem cmdUpdate_selectedDf (c : Card) (p1 p2 lc : Byte) (data : List Byte) :
    (c.cmdUpdateBinary p1 p2 lc data).1.selectedDf = c.selectedDf ∧
      (c.cmdUpdateRecord p1 p2 lc data).1.selectedDf = c.selectedDf := by
  unfold cmdUpdateBinary cmdUpdateRecord
  constructor
  all_goals
    split
    · rfl
    · dsimp only
      split_ifs <;> rfl

/-- The commands that touch the pending response at most. -/
theorem cmdOther_resp (c : Card) (p1 p2 p3 : Byte) (data : List Byte) :
    (∃ resp, (c.cmdReadBinary p1 p2 p3).1 = { c with resp := resp }) ∧
      (∃ resp, (c.cmdGetResponse p3).1 = { c with resp := resp }) ∧
      (∃ resp, (c.cmdStatus p3).1 = { c with resp := resp }) ∧
      ∃ resp, (c.cmdRunGsmAlgo p3 data).1 = { c with resp := resp } := by
  refine ⟨⟨c.resp, ?_⟩, ?_, ⟨c.resp, ?_⟩, ?_⟩
  · unfold cmdReadBinary
    split
    · rfl
    · dsimp only
      split_ifs <;> rfl
  · unfold cmdGetResponse
    split
    · exact ⟨c.resp, rfl⟩
    · exact ⟨[], rfl⟩
  · unfold cmdStatus
    split <;> rfl
  · unfold cmdRunGsmAlgo
    split
    · exact ⟨c.resp, rfl⟩
    · exact ⟨_, rfl⟩

/-- SELECT alone moves to another directory, and only to one. -/
theorem DirectorySelected.step (h : c.DirectorySelected) (cmd : Command) :
    (machine.step c cmd).1.DirectorySelected := by
  have hsame : ∀ c' : Card, c'.selectedDf = c.selectedDf → c'.DirectorySelected := by
    intro c' heq
    rw [DirectorySelected, heq]
    exact h
  have hresp : ∀ c' : Card, (∃ resp, c' = { c with resp := resp }) → c'.DirectorySelected := by
    rintro _ ⟨resp, rfl⟩
    exact h
  show (c.execute cmd.ins cmd.p1 cmd.p2 cmd.p3 cmd.data).1.DirectorySelected
  obtain ⟨hbinary, hget, hstatus, halgo⟩ := cmdOther_resp c cmd.p1 cmd.p2 cmd.p3 cmd.data
  obtain ⟨hupdate, hupdateRecord⟩ := cmdUpdate_selectedDf c cmd.p1 cmd.p2 cmd.p3 cmd.data
  refine execute_forall (P := fun q => q.1.DirectorySelected) ?_ (hresp _ hbinary)
    (hsame _ (cmdReadRecord_selectedDf c _ _ _)) (fun _ => hsame _ hupdate)
    (fun _ => hsame _ hupdateRecord) (hresp _ hget) (hresp _ hstatus) h (hresp _ halgo) h
  rcases cmdSelect_selectedDf c cmd.p3 cmd.data with heq | ⟨fid, heq⟩
  · exact hsame _ heq
  · rw [DirectorySelected, heq]
    exact h.lookup fid

theorem DirectorySelected.kind (h : c.DirectorySelected) {e : Entry}
    (hfind : findFile c.selectedDf 0 = some e) : e.1.kind = .df ∨ e.1.kind = .mf := by
  refine (findFile_sound hfind).directory ?_
  rw [(findFile_mem hfind).2]
  exact h

/-! ### Answers over a run -/

theorem returned_record (hins : cmd.ins = 0xB2) :
    c.returned cmd
      = min (if cmd.p3 = 0 then (c.selected.map fun e => e.1.recLen).getD 0 else cmd.p3.toNat)
        ((c.selected.map fun e => e.1.recLen).getD 0) := by
  have hneGet : cmd.ins ≠ 0xC0 := by rw [hins]; decide
  have hneBinary : cmd.ins ≠ 0xB0 := by rw [hins]; decide
  rw [returned, if_neg hneBinary, available, if_neg hneGet, if_pos hins]
  by_cases hp3 : cmd.p3 = 0
  · rw [if_pos hp3, if_pos hp3, Nat.min_self]
  · rw [if_neg hp3, if_neg hp3]

theorem execute_answers (h : c.DirectorySelected) (hread : isRead cmd.ins) :
    Answers (c.execute cmd.ins cmd.p1 cmd.p2 cmd.p3 cmd.data).2 (c.returned cmd) := by
  have hins : cmd.ins = 0xC0 ∨ cmd.ins = 0xB0 ∨ cmd.ins = 0xB2 ∨ cmd.ins = 0xF2 := by
    simpa [isRead, or_assoc] using hread
  rcases hins with hins | hins | hins | hins
  · have hneBinary : cmd.ins ≠ 0xB0 := by rw [hins]; decide
    rw [returned, if_neg hneBinary, available, if_pos hins, hins]
    exact getResponse_answers c cmd.p3
  · rw [returned, if_pos hins, hins]
    exact readBinary_answers c cmd.p1 cmd.p2 cmd.p3
  · rw [returned_record hins, hins]
    exact readRecord_answers c cmd.p1 cmd.p2 cmd.p3
  · have hneGet : cmd.ins ≠ 0xC0 := by rw [hins]; decide
    have hneBinary : cmd.ins ≠ 0xB0 := by rw [hins]; decide
    have hneRecord : cmd.ins ≠ 0xB2 := by rw [hins]; decide
    rw [returned, if_neg hneBinary, available, if_neg hneGet, if_neg hneRecord, hins]
    exact status_answers c (fun e he => h.kind he) cmd.p3

/-- **Answers with data.** Whatever commands came before, one that returns data and succeeds
is answered with its procedure byte, the bytes it can return of the P3 asked for, and
90 00. -/
theorem answer_returns_data (cfg : Config) (cmds : List Command) (cmd : Command)
    (hread : isRead cmd.ins = true)
    (hok : status ((machine.final (init cfg) cmds).answer cmd) = [0x90, 0x00]) :
    ∃ data, (machine.final (init cfg) cmds).answer cmd = cmd.ins :: data ++ [0x90, 0x00] ∧
      data.length = (machine.final (init cfg) cmds).returned cmd := by
  have hdir : (machine.final (init cfg) cmds).DirectorySelected :=
    Machine.invariant (I := DirectorySelected) (fun c cmd hc _ => hc.step cmd) (.inl rfl)
      (Machine.along_true _ cmds)
  generalize machine.final (init cfg) cmds = c at hok hdir
  rw [answer_of_isRead hread] at hok ⊢
  rcases execute_answers hdir hread with ⟨sw1, sw2, heq, hbad⟩ | ⟨data, heq, hlen⟩
  · rw [heq] at hok
    have hsw : [sw1, sw2] = [0x90, 0x00] := hok
    simp only [List.cons.injEq, and_true] at hsw
    exact absurd hsw hbad
  · exact ⟨data, by rw [heq]; rfl, hlen⟩

/-- STATUS for 22 bytes of the MF. -/
theorem answer_returns_data_status :
    ∃ data, (machine.final (init .bench) []).answer ⟨0xA0, 0xF2, 0, 0, 22, [], rfl⟩
        = 0xF2 :: data ++ [0x90, 0x00] ∧
      data.length = (machine.final (init .bench) []).returned ⟨0xA0, 0xF2, 0, 0, 22, [], rfl⟩ :=
  answer_returns_data .bench [] ⟨0xA0, 0xF2, 0, 0, 22, [], rfl⟩ rfl (by decide)

/-- STATUS with a P3 of 0 returns 25 bytes, not 256; and GET RESPONSE with nothing pending
is refused behind its procedure byte. -/
theorem answer_not_conforming :
    ¬ Conforms ⟨0xA0, 0xF2, 0, 0, 0, [], rfl⟩
        ((init .bench).answer ⟨0xA0, 0xF2, 0, 0, 0, [], rfl⟩) ∧
      ¬ Conforms ⟨0xA0, 0xC0, 0, 0, 1, [], rfl⟩
        ((init .bench).answer ⟨0xA0, 0xC0, 0, 0, 1, [], rfl⟩) := by
  have hlength : ∀ (cmd : Command) (bs : List Byte), Conforms cmd bs →
      bs.length = 2 ∨ bs.length = (if cmd.p3 = 0 then 256 else cmd.p3.toNat) + 3 := by
    rintro cmd bs (⟨sw1, sw2, rfl⟩ | ⟨data, sw1, sw2, rfl, hdata⟩)
    · exact .inl rfl
    · right
      rw [← hdata]
      simp
  refine ⟨fun h => ?_, fun h => ?_⟩
  · exact absurd (hlength _ _ h) (by decide)
  · exact absurd (hlength _ _ h) (by decide)

end Card

end Qosmo.Sim
