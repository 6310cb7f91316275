import Qosmo.Lib.Patch
import Qosmo.Sim.Answer

/-!
# Qosmo.Sim.Store

What UPDATE BINARY and UPDATE RECORD leave in the files.

`content` is the contents of the files, whichever buffer holds them. An accepted update
writes its data at the place it designates, an offset of a transparent file or a record
(`patch`), and nothing else in the card moves a byte; a read returns the bytes at the place
it designates. `updates_kept` says so of every run.

UPDATE RECORD stores in the absolute mode only. In the others it answers 90 00 and keeps
nothing, although READ RECORD knows the next and the previous record; `Absolute` excludes
just those commands.
-/

namespace Qosmo.Sim.Card

open Function

variable {c c' : Card} {cmd : Command} {e : Entry}

/-! ### Contents and places -/

def content (c : Card) (i : Nat) : Nat → Byte :=
  match simFiles[i]? with
  | some f => if f.isRecord then c.records (f, i) else c.data i
  | none => c.data i

/-- The file and offset a read or update designates. -/
def place (c : Card) (cmd : Command) : Option (Nat × Nat) :=
  match c.selected with
  | none => none
  | some e =>
    if cmd.ins = 0xB0 ∨ cmd.ins = 0xD6 then some (e.2, offset cmd.p1 cmd.p2)
    else if cmd.ins = 0xB2 ∨ cmd.ins = 0xDC then
      (designated c.current e.1.nrec cmd.p1 cmd.p2).map fun r => (e.2, (r - 1) * e.1.recLen)
    else none

/-- The card answered 90 00. -/
def accepts (c : Card) (cmd : Command) : Bool := status (c.answer cmd) == [0x90, 0x00]

/-- What an accepted update is to write. -/
def patch (c : Card) (cmd : Command) : List (Patch Nat Byte) :=
  if (cmd.ins = 0xD6 ∨ cmd.ins = 0xDC) ∧ c.accepts cmd = true then
    (c.place cmd).toList.map fun q => ⟨q.1, q.2, cmd.data⟩
  else []

def accepted : Card → List Command → List (Patch Nat Byte)
  | _, [] => []
  | c, cmd :: cmds => c.patch cmd ++ accepted (machine.step c cmd).1 cmds

/-- An UPDATE RECORD the card takes is in the absolute mode. -/
def Absolute (c : Card) (cmd : Command) : Prop :=
  cmd.ins = 0xDC → c.selected.any (fun e => e.1.isRecord && cmd.p3.toNat == e.1.recLen) = true →
    cmd.p2 = 0x04

instance (c : Card) (cmd : Command) : Decidable (c.Absolute cmd) :=
  inferInstanceAs (Decidable (_ → _ → _))

theorem patch_refused (h : status (c.answer cmd) ≠ [0x90, 0x00]) : c.patch cmd = [] := by
  rw [patch, if_neg]
  rintro ⟨-, haccepts⟩
  exact h (beq_iff_eq.mp haccepts)

theorem selected_index (h : c.selected = some e) : simFiles[e.2]? = some e.1 := by
  have hmem := (findFile_mem h).1
  obtain ⟨f, i⟩ := e
  exact List.mem_zipIdx_iff_getElem?.mp hmem

theorem content_transparent (h : c'.selected = some e) (hkind : e.1.kind = .transparent) :
    c.content e.2 = c.data e.2 := by
  have hrec : e.1.isRecord = false := by
    unfold SimFile.isRecord
    rw [hkind]
    rfl
  simp [content, selected_index h, hrec]

theorem content_record (h : c'.selected = some e) (hrec : e.1.isRecord) :
    c.content e.2 = c.records e := by
  simp [content, selected_index h, hrec]

theorem hasStore_of_record (h : c.selected = some e) (hrec : e.1.isRecord) :
    hasStore e.1 := by
  obtain ⟨hpos, -, hsize⟩ := (findFile_sound h).record hrec
  have hne : e.1.recLen ≠ 0 := by omega
  simp [hasStore, hne, hsize]

/-- The contents depend on the buffers and on the SMS centre alone. -/
theorem content_congr (hcfg : c'.cfg = c.cfg) (hdata : c'.data = c.data)
    (hstore : c'.store = c.store) : c'.content = c.content := by
  funext i
  simp only [content, records, hcfg, hdata, hstore]

/-! ### What each command does to the contents -/

theorem content_recStore (h : c'.selected = some e) : (c.recStore e).content = c.content := by
  unfold recStore
  split
  · funext i
    by_cases hi : i = e.2
    · subst hi
      simp [content, selected_index h, records, setStore]
    · simp [content, records, setStore, update_of_ne hi]
  · rfl

theorem content_readRecord (c : Card) (rec mode le : Byte) :
    (c.cmdReadRecord rec mode le).1.content = c.content := by
  unfold cmdReadRecord
  split
  · rfl
  · rename_i e hsel
    split
    · rfl
    · dsimp only
      split
      · exact content_congr rfl rfl rfl
      · split
        · exact content_congr rfl rfl rfl
        · exact (content_recStore hsel).trans (content_congr rfl rfl rfl)

theorem content_select (c : Card) (lc : Byte) (data : List Byte) :
    (c.cmdSelect lc data).1.content = c.content := by
  unfold cmdSelect
  split
  · rfl
  · dsimp only
    split <;> exact content_congr rfl rfl rfl

/-- Overwriting a buffer is a patch of it. -/
theorem overwrite_eq (m : Nat → Nat → Byte) (i off : Nat) (bs : List Byte) :
    Function.update m i (overwrite (m i) off bs) = (⟨i, off, bs⟩ : Patch Nat Byte).apply m := by
  funext j k
  by_cases hj : j = i
  · subst hj
    rw [update_self]
    by_cases hoff : off ≤ k
    · by_cases hlen : k < off + bs.length
      · have hget : k - off < bs.length := by omega
        simp [overwrite, Patch.apply, Patch.at?, hoff, hlen, hget]
      · have hget : bs.length ≤ k - off := by omega
        simp [overwrite, Patch.apply, Patch.at?, hoff, hlen, hget]
    · simp [overwrite, Patch.apply, Patch.at?, hoff]
  · rw [update_of_ne hj]
    simp [Patch.apply, Patch.at?, Ne.symm hj]

/-- A patch of one buffer, as a patch of the contents. -/
theorem content_patch {off : Nat} {bs : List Byte}
    (hself : c'.content e.2 = overwrite (c.content e.2) off bs)
    (hother : ∀ i, i ≠ e.2 → c'.content i = c.content i) :
    c'.content = (⟨e.2, off, bs⟩ : Patch Nat Byte).apply c.content := by
  rw [← overwrite_eq]
  funext i
  by_cases hi : i = e.2
  · rw [hi, update_self, hself]
  · rw [update_of_ne hi, hother i hi]

theorem content_updateBinary (h : c.selected = some e) (hkind : e.1.kind = .transparent)
    (off : Nat) (bs : List Byte) :
    (c.setData e.2 (overwrite (c.data e.2) off bs)).content
      = (⟨e.2, off, bs⟩ : Patch Nat Byte).apply c.content := by
  refine content_patch ?_ ?_
  · rw [content_transparent h hkind, content_transparent h hkind]
    exact update_self ..
  · intro i hi
    simp [content, records, setData, update_of_ne hi]

theorem content_updateRecord (h : c.selected = some e) (hrec : e.1.isRecord)
    (off : Nat) (bs : List Byte) :
    (c.setStore e.2 (overwrite (c.records e) off bs)).content
      = (⟨e.2, off, bs⟩ : Patch Nat Byte).apply c.content := by
  refine content_patch ?_ ?_
  · rw [content_record h hrec, content_record h hrec]
    simp [records, setStore]
  · intro i hi
    simp [content, records, setStore, update_of_ne hi]

/-- An update is refused and changes nothing, or patches the place it designates. -/
inductive Updated (c : Card) (cmd : Command) : Card × List Byte → Prop
  | refused {bs : List Byte} : status bs ≠ [0x90, 0x00] → Updated c cmd (c, bs)
  | patched {i off : Nat} {c' : Card} : c.place cmd = some (i, off) →
      c'.content = (⟨i, off, cmd.data⟩ : Patch Nat Byte).apply c.content →
      Updated c cmd (c', [0x90, 0x00])

theorem updated_binary (hins : cmd.ins = 0xD6) (hlen : cmd.data.length = cmd.p3.toNat) :
    Updated c cmd (c.cmdUpdateBinary cmd.p1 cmd.p2 cmd.p3 cmd.data) := by
  unfold cmdUpdateBinary
  split
  · exact .refused (by simp [status])
  · rename_i e hsel
    by_cases hkind : e.1.kind = .transparent
    · rw [if_neg (by simp [hkind])]
      by_cases hsize : e.1.size < offset cmd.p1 cmd.p2 + cmd.p3.toNat
      · rw [if_pos hsize]
        exact .refused (by simp [status])
      · -- the data array holds 64 bytes, and no transparent file is longer
        have hfits : offset cmd.p1 cmd.p2 + cmd.p3.toNat ≤ 64 := by
          have := ((findFile_sound hsel).transparent hkind).2
          omega
        rw [if_neg hsize]
        dsimp only
        rw [if_pos hfits, ← hlen, List.take_length]
        exact .patched (by simp [place, hsel, hins]) (content_updateBinary hsel hkind _ _)
    · rw [if_pos hkind]
      exact .refused (by simp [status])

theorem updated_record (habs : c.Absolute cmd) (hins : cmd.ins = 0xDC)
    (hlen : cmd.data.length = cmd.p3.toNat) :
    Updated c cmd (c.cmdUpdateRecord cmd.p1 cmd.p2 cmd.p3 cmd.data) := by
  unfold cmdUpdateRecord
  split
  · exact .refused (by simp [status])
  · rename_i e hsel
    by_cases hrec : e.1.isRecord
    · rw [if_neg (by simp [hrec])]
      by_cases hlc : cmd.p3.toNat = e.1.recLen
      · have hmode : cmd.p2 = 0x04 := habs hins (by simp [hsel, hrec, hlc])
        rw [if_neg (by simp [hlc])]
        by_cases hrange : cmd.p2 = 0x04 ∧ (cmd.p1.toNat < 1 ∨ e.1.nrec < cmd.p1.toNat)
        · rw [if_pos hrange]
          exact .refused (by simp [status])
        · rw [if_neg hrange, if_pos hmode]
          dsimp only
          rw [if_pos (hasStore_of_record hsel hrec), ← hlen, List.take_length]
          exact .patched (by simp [place, hsel, hins, hmode, designated])
            (content_updateRecord hsel hrec _ _)
      · rw [if_pos hlc]
        exact .refused (by simp [status])
    · rw [if_pos (by simp [hrec])]
      exact .refused (by simp [status])

theorem updated_execute (habs : c.Absolute cmd) (hupdate : cmd.ins = 0xD6 ∨ cmd.ins = 0xDC) :
    Updated c cmd (c.execute cmd.ins cmd.p1 cmd.p2 cmd.p3 cmd.data) := by
  have hlen : cmd.data.length = cmd.p3.toNat := by
    rw [cmd.data_length]
    rcases hupdate with hins | hins <;> rw [hins] <;> rfl
  rcases hupdate with hins | hins
  · have hupdated := updated_binary (c := c) hins hlen
    rw [hins]
    exact hupdated
  · have hupdated := updated_record habs hins hlen
    rw [hins]
    exact hupdated

theorem answer_update (hupdate : cmd.ins = 0xD6 ∨ cmd.ins = 0xDC) :
    c.answer cmd = (c.execute cmd.ins cmd.p1 cmd.p2 cmd.p3 cmd.data).2 := by
  rw [answer, dispatchApdu_eq]
  rcases hupdate with hins | hins <;> rw [hins] <;> rfl

/-- **Step.** A command changes the contents by the update accepted from it, if any. -/
theorem step_content (habs : c.Absolute cmd) :
    (machine.step c cmd).1.content = Patch.applyAll (c.patch cmd) c.content := by
  show (c.execute cmd.ins cmd.p1 cmd.p2 cmd.p3 cmd.data).1.content = _
  by_cases hupdate : cmd.ins = 0xD6 ∨ cmd.ins = 0xDC
  · have hupdated := updated_execute habs hupdate
    have hanswer := answer_update (c := c) hupdate
    generalize c.execute cmd.ins cmd.p1 cmd.p2 cmd.p3 cmd.data = r at hupdated hanswer ⊢
    cases hupdated with
    | refused hno =>
      rw [patch_refused (by rw [hanswer]; exact hno)]
      rfl
    | patched hplace hcontent =>
      rw [hcontent, patch, if_pos ⟨hupdate, by simp [accepts, hanswer, status]⟩, hplace]
      rfl
  · -- every other command leaves the contents alone
    rw [patch, if_neg fun h => hupdate h.1, Patch.applyAll_nil]
    have hresp : ∀ c' : Card, (∃ resp, c' = { c with resp := resp }) →
        c'.content = c.content := by
      rintro _ ⟨resp, rfl⟩
      exact content_congr rfl rfl rfl
    obtain ⟨hread, hget, hstatus, halgo⟩ := cmdOther_resp c cmd.p1 cmd.p2 cmd.p3 cmd.data
    exact execute_forall (P := fun q => q.1.content = c.content) (content_select c _ _)
      (hresp _ hread) (content_readRecord c _ _ _) (fun hins => absurd (.inl hins) hupdate)
      (fun hins => absurd (.inr hins) hupdate) (hresp _ hget) (hresp _ hstatus) rfl (hresp _ halgo)
      rfl

theorem run_content {cmds : List Command} (habs : machine.Along Absolute c cmds) :
    (machine.final c cmds).content = Patch.applyAll (accepted c cmds) c.content := by
  induction cmds generalizing c with
  | nil => rfl
  | cons cmd cmds ih =>
    obtain ⟨hfirst, hrest⟩ := habs
    rw [Machine.final_cons, ih hrest, step_content hfirst, accepted, Patch.applyAll_append]

/-! ### What reads return -/

/-- A read is refused, or returns the contents at the place it designates. -/
inductive Reads (c : Card) (cmd : Command) : List Byte → Prop
  | refused {sw1 sw2 : Byte} : [sw1, sw2] ≠ [0x90, 0x00] → Reads c cmd [sw1, sw2]
  | read {i off : Nat} : c.place cmd = some (i, off) →
      Reads c cmd (bytesAt (c.content i) off (c.returned cmd) ++ [0x90, 0x00])

theorem reads_binary (hins : cmd.ins = 0xB0) :
    Reads c cmd (c.cmdReadBinary cmd.p1 cmd.p2 cmd.p3).2 := by
  have hn : c.returned cmd = if cmd.p3 = 0 then 256 else cmd.p3.toNat := if_pos hins
  unfold cmdReadBinary
  rw [← hn]
  split
  · exact .refused (by decide)
  · rename_i e hsel
    by_cases hkind : e.1.kind = .transparent
    · rw [if_neg (by simp [hkind])]
      dsimp only
      split
      · exact .refused (by decide)
      · rw [← content_transparent hsel hkind]
        exact .read (by simp [place, hsel, hins])
    · rw [if_pos hkind]
      exact .refused (by decide)

theorem reads_record (hins : cmd.ins = 0xB2) :
    Reads c cmd (c.cmdReadRecord cmd.p1 cmd.p2 cmd.p3).2 := by
  have hn := returned_record (c := c) hins
  unfold cmdReadRecord
  split
  · exact .refused (by decide)
  · rename_i e hsel
    by_cases hrec : e.1.isRecord
    · rw [if_neg (by simp [hrec])]
      dsimp only
      split
      · exact .refused (by decide)
      · rename_i r hdes
        split
        · exact .refused (by decide)
        · rw [if_pos (hasStore_of_record hsel hrec), ← content_record hsel hrec]
          rw [hsel] at hn
          exact hn ▸ .read (by simp [place, hsel, hins, hdes])
    · rw [if_pos (by simp [hrec])]
      exact .refused (by decide)

/-- A read that succeeds returns the contents at the place it designates. -/
theorem read_content (hread : cmd.ins = 0xB0 ∨ cmd.ins = 0xB2) (hok : c.accepts cmd) :
    ∃ i off, c.place cmd = some (i, off) ∧
      c.answer cmd
        = cmd.ins :: bytesAt (c.content i) off (c.returned cmd) ++ [0x90, 0x00] := by
  have hreads : Reads c cmd (c.execute cmd.ins cmd.p1 cmd.p2 cmd.p3 cmd.data).2 := by
    rcases hread with hins | hins
    · have hreads := reads_binary (c := c) hins
      rw [hins]
      exact hreads
    · have hreads := reads_record (c := c) hins
      rw [hins]
      exact hreads
  have hanswer := @answer_of_isRead c cmd
    (by rcases hread with hins | hins <;> rw [hins] <;> rfl)
  have hstatus : status (c.answer cmd) = [0x90, 0x00] := beq_iff_eq.mp hok
  generalize (c.execute cmd.ins cmd.p1 cmd.p2 cmd.p3 cmd.data).2 = bs at hreads hanswer
  rw [hanswer] at hstatus ⊢
  cases hreads with
  | refused hno => exact absurd hstatus hno
  | read hplace => exact ⟨_, _, hplace, rfl⟩

/-- An update that is accepted designates a place. -/
theorem update_place (habs : c.Absolute cmd) (hupdate : cmd.ins = 0xD6 ∨ cmd.ins = 0xDC)
    (hok : c.accepts cmd) : ∃ i off, c.place cmd = some (i, off) := by
  have hstatus : status (c.answer cmd) = [0x90, 0x00] := beq_iff_eq.mp hok
  have hupdated := updated_execute habs hupdate
  rw [answer_update hupdate] at hstatus
  generalize c.execute cmd.ins cmd.p1 cmd.p2 cmd.p3 cmd.data = r at hupdated hstatus
  cases hupdated with
  | refused hno => exact absurd hstatus hno
  | patched hplace => exact ⟨_, _, hplace⟩

/-! ### Read after write -/

/-- After a run, every byte of every file is what the last accepted update over it wrote, or
what it was at first; an accepted update is over some bytes; and a read returns the bytes it
designates. -/
structure Kept (cfg : Config) (cmds : List Command) : Prop where
  content : ∀ i k, (machine.final (init cfg) cmds).content i k
    = (Patch.last (accepted (init cfg) cmds) i k).getD ((init cfg).content i k)
  updates : ∀ before cmd after, cmds = before ++ cmd :: after →
    cmd.ins = 0xD6 ∨ cmd.ins = 0xDC →
    (machine.final (init cfg) before).accepts cmd = true →
    ∃ i off, (machine.final (init cfg) before).place cmd = some (i, off)
  reads : ∀ cmd, cmd.ins = 0xB0 ∨ cmd.ins = 0xB2 →
    (machine.final (init cfg) cmds).accepts cmd = true →
    ∃ i off, (machine.final (init cfg) cmds).place cmd = some (i, off) ∧
      (machine.final (init cfg) cmds).answer cmd
        = cmd.ins :: bytesAt ((machine.final (init cfg) cmds).content i) off
          ((machine.final (init cfg) cmds).returned cmd) ++ [0x90, 0x00]

/-- **Updates are kept**, over every run whose record updates are in the absolute mode. -/
theorem updates_kept (cfg : Config) (cmds : List Command)
    (habs : machine.Along Absolute (init cfg) cmds) : Kept cfg cmds where
  content := by
    intro i k
    rw [run_content habs, Patch.applyAll_eq]
  updates := by
    intro before cmd after hsplit hupdate hok
    rw [hsplit] at habs
    exact update_place habs.of_append.2.1 hupdate hok
  reads := by
    intro cmd hread hok
    exact read_content hread hok

/-- SELECT of a directory or file. -/
def select (hi lo : Byte) : Command := ⟨0xA0, 0xA4, 0, 0, 2, [hi, lo], rfl⟩

/-- UPDATE RECORD of an entry of the phonebook. -/
def updateAdn (rec mode : Byte) : Command :=
  ⟨0xA0, 0xDC, rec, mode, 28, List.replicate 28 0x41, rfl⟩

/-- The second entry of the phonebook is written. -/
theorem updates_kept_adn :
    Kept .bench [select 0x7F 0x10, select 0x6F 0x3A, updateAdn 2 0x04] :=
  updates_kept .bench _ (by decide)

/-- The next entry of the phonebook is written: the card answers 90 00, and keeps nothing. -/
theorem updates_lost :
    (machine.final (init .bench) [select 0x7F 0x10, select 0x6F 0x3A]).accepts (updateAdn 0 0x02)
        = true ∧
      ¬ Kept .bench [select 0x7F 0x10, select 0x6F 0x3A, updateAdn 0 0x02] := by
  refine ⟨by decide, fun h => ?_⟩
  exact absurd (h.content 28 0) (by decide)

end Qosmo.Sim.Card
