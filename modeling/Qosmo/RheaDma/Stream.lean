import Mathlib.Data.Nat.Bits
import Qosmo.RheaDma.Wf
import Qosmo.Rif.Stream

/-!
# Qosmo.RheaDma.Stream

The double buffer of the receive channel.

Left armed in continuous mode, the channel cuts the receiver's words into full pages and
writes them in turn to the two places AAD and AAD + ALGTH. `Streamed r r' os` records
everything an operation can then do: it composes (`Streamed.trans`), so each function has
one lemma and a run is an induction.
-/

namespace Qosmo.Reception

open RheaDma Channel List

variable {r r' r'' : Reception} {os os' : List Obs}

/-! ### Pages -/

def pages (os : List Obs) : List (Nat × List Word) :=
  os.flatMap fun
    | .page dst w => [(dst, w)]
    | _ => []

def received (os : List Obs) : List Word :=
  os.flatMap fun
    | .received w => w
    | _ => []

@[simp] theorem pages_append (os os' : List Obs) : pages (os ++ os') = pages os ++ pages os' :=
  flatMap_append
@[simp] theorem received_nil : received [] = [] := rfl
@[simp] theorem received_append (os os' : List Obs) :
    received (os ++ os') = received os ++ received os' :=
  flatMap_append

/-- The API memory after some pages. -/
def storeAll (ps : List (Nat × List Word)) (api : Nat → Word) : Nat → Word :=
  ps.foldl (fun a p => store p.1 p.2 a) api

def place (r : Reception) (second : Bool) : Nat :=
  r.chan.dstIdx + if second then r.chan.pageWords else 0

/-- The places of the next `n` pages: in turn, from the one CURRENT_PAGE names. -/
def places (r : Reception) (n : Nat) : List Nat :=
  (List.range n).map fun k => r.place (r.chan.flags.currentPage ^^ k.bodd)

/-- `Armed`: enabled, from the receiver to the API, not one-shot. -/
structure Armed (r : Reception) : Prop where
  enable : r.chan.flags.enable = true
  direction : r.chan.flags.direction = true
  continuous : r.chan.flags.oneShot = false

/-- A transfer moves the other fields of CTRL only. -/
theorem Armed.of_flags {i q p : Bool} (h : r.Armed) (hflags : r'.chan.flags
      = { r.chan.flags with idle := i, irqState := q, currentPage := p }) : r'.Armed := by
  refine ⟨?_, ?_, ?_⟩ <;> rw [hflags]
  · exact h.enable
  · exact h.direction
  · exact h.continuous

theorem Armed.of_chan (h : r.Armed) (hchan : r'.chan = r.chan) : r'.Armed :=
  h.of_flags (i := r.chan.flags.idle) (q := r.chan.flags.irqState) (p := r.chan.flags.currentPage)
    (congrArg Channel.flags hchan)

/-- Pages of full length went in turn to the two places, and carried the receiver's words
away in order. -/
structure Streamed (r r' : Reception) (os : List Obs) : Prop where
  armed : r'.Armed
  dst : r'.chan.dstIdx = r.chan.dstIdx
  words : r'.chan.pageWords = r.chan.pageWords
  turn : r'.chan.flags.currentPage = (r.chan.flags.currentPage ^^ (pages os).length.bodd)
  full : ∀ p ∈ pages os, p.2.length = r.chan.pageWords
  inTurn : (pages os).map Prod.fst = r.places (pages os).length
  flow : (pages os).flatMap Prod.snd ++ r'.rif.contents = r.rif.contents ++ received os
  stored : r'.api = r.api.map (storeAll (pages os))

theorem places_add (r r' : Reception) (m n : Nat) (hdst : r'.chan.dstIdx = r.chan.dstIdx)
    (hwords : r'.chan.pageWords = r.chan.pageWords)
    (hturn : r'.chan.flags.currentPage = (r.chan.flags.currentPage ^^ m.bodd)) :
    r.places (m + n) = r.places m ++ r'.places n := by
  unfold places
  rw [range_add, map_append, map_map]
  congr 1
  refine map_congr_left fun k _ => ?_
  simp only [Function.comp_apply, place, hdst, hwords, hturn, Nat.bodd_add, Bool.xor_assoc]

namespace Streamed

/-- A call that moves no page, brings no word and leaves the channel armed as it was. -/
theorem quiet (harmed : r'.Armed) (haad : r'.chan.aad = r.chan.aad)
    (halgth : r'.chan.algth = r.chan.algth)
    (hturn : r'.chan.flags.currentPage = r.chan.flags.currentPage) (hpages : pages os = [])
    (hrif : r'.rif.contents = r.rif.contents ++ received os) (hapi : r'.api = r.api) :
    Streamed r r' os where
  armed := harmed
  dst := by rw [Channel.dstIdx, haad, Channel.dstIdx]
  words := by rw [Channel.pageWords, halgth, Channel.pageWords]
  turn := by simp [hpages, hturn]
  full := by simp [hpages]
  inTurn := by simp [hpages, places]
  flow := by simp [hpages, hrif]
  stored := by
    rw [hapi, hpages]
    exact Option.map_id'.symm

/-- A call that leaves the channel alone as well. -/
theorem of_chan (harmed : r.Armed) (hchan : r'.chan = r.chan) (hpages : pages os = [])
    (hrif : r'.rif.contents = r.rif.contents ++ received os) (hapi : r'.api = r.api) :
    Streamed r r' os :=
  quiet (harmed.of_chan hchan) (congrArg Channel.aad hchan) (congrArg Channel.algth hchan)
    (congrArg (·.flags.currentPage) hchan) hpages hrif hapi

theorem refl (harmed : r.Armed) : Streamed r r [] :=
  of_chan harmed rfl rfl (append_nil _).symm rfl

theorem trans (h : Streamed r r' os) (h' : Streamed r' r'' os') :
    Streamed r r'' (os ++ os') where
  armed := h'.armed
  dst := h'.dst.trans h.dst
  words := h'.words.trans h.words
  turn := by
    rw [h'.turn, h.turn, pages_append, length_append, Nat.bodd_add, Bool.xor_assoc]
  full := by
    intro p hp
    rw [pages_append, mem_append] at hp
    rcases hp with hp | hp
    · exact h.full p hp
    · exact (h'.full p hp).trans h.words
  inTurn := by
    rw [pages_append, map_append, length_append,
      places_add r r' _ _ h.dst h.words h.turn, h.inTurn, h'.inTurn]
  flow := by
    rw [pages_append, flatMap_append, append_assoc, h'.flow, ← append_assoc,
      h.flow, received_append, append_assoc]
  stored := by
    rw [h'.stored, h.stored, Option.map_map, pages_append]
    congr 1
    funext api
    exact (foldl_append).symm

variable (harmed : r.Armed)

include harmed

theorem putPage (hlevel : r.chan.pageWords ≤ r.rif.level) :
    Streamed r
      (r.putPage r.chan.dstIdx r.chan.pageWords (r.rif.drain r.chan.pageWords).1
        (r.rif.drain r.chan.pageWords).2)
      [.page (r.pageDst r.chan.dstIdx r.chan.pageWords) (r.rif.drain r.chan.pageWords).2] where
  armed := by
    apply harmed.of_flags
    rw [Reception.putPage, chan_setChan, flags_turn]
  dst := by rw [Reception.putPage, chan_setChan]; rfl
  words := by rw [Reception.putPage, chan_setChan]; rfl
  turn := by
    rw [Reception.putPage, chan_setChan, flags_turn]
    simp [pages]
  full := by
    intro p hp
    obtain rfl : p = _ := List.mem_singleton.mp hp
    show (r.rif.drain r.chan.pageWords).2.length = _
    rw [Rif.drain_length, Nat.min_eq_left hlevel]
  inTurn := by
    show [r.pageDst r.chan.dstIdx r.chan.pageWords] = [r.place (r.chan.flags.currentPage ^^ false)]
    rw [Bool.xor_false, place, pageDst]
    cases r.chan.flags.currentPage <;> rfl
  flow := by
    show [(_, (r.rif.drain r.chan.pageWords).2)].flatMap Prod.snd
      ++ (r.rif.drain r.chan.pageWords).1.contents = r.rif.contents ++ []
    rw [flatMap_singleton, append_nil]
    exact (Rif.drain_contents r.rif r.chan.pageWords).symm
  stored := rfl

/-- The page loop, by its countdown: each turn waits, or moves one page. -/
theorem pageLoop (k : Nat) :
    Streamed r (Reception.pageLoop false r.chan.dstIdx r.chan.pageWords k r).1
      (Reception.pageLoop false r.chan.dstIdx r.chan.pageWords k r).2 := by
  induction k generalizing r with
  | zero => exact refl harmed
  | succ k ih =>
    rw [Reception.pageLoop]
    by_cases hwait : r.rif.level < r.chan.pageWords
    · rw [if_pos (by simp [hwait])]
      exact refl harmed
    · rw [if_neg (by simp [hwait])]
      have hpage := putPage harmed (Nat.le_of_not_lt hwait)
      dsimp only
      split
      · rename_i hempty
        have hcontents := Rif.drain_contents r.rif r.chan.pageWords
        rw [hempty, nil_append] at hcontents
        refine of_chan harmed rfl rfl ?_ rfl
        rw [received_nil, append_nil]
        exact hcontents.symm
      · split
        · exact hpage
        · have hrest := ih hpage.armed
          rw [hpage.dst, hpage.words] at hrest
          exact hpage.trans hrest

/-- The end of a transfer leaves a continuous channel armed. -/
theorem complete : Streamed r r.complete.1 r.complete.2 := by
  have hone : r.chan.done.flags.oneShot = false := by
    rw [flags_done]
    exact harmed.continuous
  unfold Reception.complete
  dsimp only
  rw [hone, if_neg Bool.false_ne_true]
  refine quiet ?_ ?_ ?_ ?_ ?_ ?_ rfl
  · apply harmed.of_flags
    rw [chan_setChan, flags_done]
  · rw [chan_setChan]; rfl
  · rw [chan_setChan]; rfl
  · rw [chan_setChan, flags_done]
  · split <;> rfl
  · rw [show received _ = [] from by split <;> rfl, append_nil]
    rfl

theorem of_flags {c : Channel} {i : Bool} (hflags : c.flags = { r.chan.flags with idle := i })
    (haad : c.aad = r.chan.aad) (halgth : c.algth = r.chan.algth) : Streamed r (r.setChan c) [] := by
  refine quiet ?_ ?_ ?_ ?_ rfl (append_nil _).symm rfl
  · apply harmed.of_flags
    rw [chan_setChan, hflags]
  · rw [chan_setChan, haad]
  · rw [chan_setChan, halgth]
  · rw [chan_setChan, hflags]

theorem transferPages :
    Streamed r (r.transferPages false r.chan.dstIdx r.chan.pageWords).1
      (r.transferPages false r.chan.dstIdx r.chan.pageWords).2 := by
  have hloop := pageLoop harmed 64
  unfold Reception.transferPages
  dsimp only
  split
  · rename_i hnone
    rw [hnone] at hloop
    exact hloop.trans (of_flags hloop.armed (flags_rest _) rfl rfl)
  · exact hloop.trans (complete hloop.armed)

theorem requested {q : Reception × List Obs} (h : Requested r q) : Streamed r q.1 q.2 := by
  cases h with
  | refused hc =>
    rcases hc with rfl | rfl
    · exact of_flags (i := r.chan.flags.idle) harmed rfl rfl rfl
    · exact of_flags (i := r.chan.flags.idle) harmed (flags_abort _) rfl rfl
  | held => exact of_flags harmed (by rw [flags_rest, flags_running]) rfl rfl
  | moved =>
    have hrun : Streamed r (r.setChan r.chan.running) [] :=
      of_flags harmed (flags_running _) rfl rfl
    have hpages := transferPages hrun.armed
    rw [hrun.dst, hrun.words] at hpages
    rw [harmed.continuous]
    exact hrun.trans hpages

theorem rxRequest (hwf : r.Wf) (s : Bool) : Streamed r (r.rxRequest s).1 (r.rxRequest s).2 := by
  have hdsp : Streamed r { r with rdDsp := r.rdDsp || s } [] :=
    of_chan harmed rfl rfl (append_nil _).symm rfl
  exact hdsp.trans (requested hdsp.armed (requested_rxRequest hwf s))

theorem pump (hwf : r.Wf) (s : Bool) : Streamed r (r.pump s).1 (r.pump s).2 := by
  have hdsp : Streamed r { r with rdDsp := r.rdDsp || s } [] :=
    of_chan harmed rfl rfl (append_nil _).symm rfl
  rcases pump_cases r s with heq | heq
  · rw [heq]
    exact hdsp
  · rw [heq]
    have hwf' : ({ r with rdDsp := r.rdDsp || s } : Reception).Wf := hwf.of_dma rfl
    exact hdsp.trans (rxRequest hdsp.armed hwf' _)

theorem arrive (s : Bool) {w : List Word} (hw : w ≠ []) (hroom : r.rif.perte w = 0) :
    Streamed r (r.arrive w) (.received (Rif.clip w) :: (r.arrive w).rint s) := by
  have hrint : pages ((r.arrive w).rint s) = [] ∧ received ((r.arrive w).rint s) = [] := by
    unfold rint
    split <;> exact ⟨rfl, rfl⟩
  refine of_chan harmed rfl hrint.1 ?_ rfl
  show (r.rif.rxBurst true w).contents = _ ++ (Rif.clip w ++ received ((r.arrive w).rint s))
  rw [Rif.rxBurst_contents _ hw, hroom, drop_zero, hrint.2, append_nil]
  rfl

theorem burst (hwf : r.Wf) (s : Bool) {w : List Word} (hroom : r.rif.perte w = 0) :
    Streamed r (r.burst s w).1 (r.burst s w).2 := by
  have hrx : r.dma.rxArmed := by
    show (r.chan.flags.enable && r.chan.flags.direction)
    rw [harmed.enable, harmed.direction]
    rfl
  unfold Reception.burst
  by_cases hw : w = []
  · rw [if_pos (.inl hw)]
    exact refl harmed
  · have hburst := arrive harmed s hw hroom
    have hwf' : (r.arrive w).Wf := hwf.of_dma rfl
    rw [if_neg (by simp [hw, hrx])]
    dsimp only
    split
    · exact hburst.trans (rxRequest hburst.armed hwf' s)
    · exact hburst

end Streamed

/-! ### Accesses to the registers -/

/-- The calls the channel is left alone by: a burst fits in the receiver, DRR is not read and
the receiver not reset, and a write to the channel leaves AAD, ALGTH, the mode and
CURRENT_PAGE as they are. -/
def Continuous (r : Reception) : Event → Prop
  | .burst _ w => r.rif.perte w = 0
  | .write off v => ∀ reg, decode off = some (rx, reg) →
      (reg = .aad → v &&& 0x0FFF = r.chan.aad) ∧ (reg = .algth → v &&& 0x0FFF = r.chan.algth) ∧
        (reg = .ctrl → (Flags.ofCtrl v).enable = true ∧ (Flags.ofCtrl v).direction = true ∧
          (Flags.ofCtrl v).oneShot = false ∧
          (Flags.ofCtrl v).currentPage = r.chan.flags.currentPage)
  | .portr pa => pa ≠ Rif.xioDrr
  | .portw pa val => ¬(pa = Rif.xioSpcr ∧ r.rif.resets val = true)
  | .rxRequest _ => True
  | .pump _ => True
  | .read _ => True

section

variable (harmed : r.Armed)

include harmed

/-- A read of the bank clears at most IRQ_STATE and RHEA_ERROR. -/
theorem Streamed.read (off : Nat) (v : Word) :
    Streamed r { r with dma := (r.dma.read off).1 } [.value v] := by
  rcases (read_cases r.dma off).2 with hch | ⟨reg, hch⟩
  · exact of_chan harmed hch rfl (append_nil _).symm rfl
  · obtain ⟨irq, hack⟩ := r.chan.flags_ack reg
    obtain ⟨haad, halgth⟩ := ack_setup r.chan reg
    have hflags := (congrArg Channel.flags hch).trans hack
    have hpage := congrArg Flags.currentPage hflags
    exact quiet (harmed.of_flags hflags) ((congrArg Channel.aad hch).trans haad)
      ((congrArg Channel.algth hch).trans halgth) hpage rfl (append_nil _).symm rfl

/-- A write that leaves the mode alone. -/
theorem Streamed.write {off : Nat} {v : Word} (hcont : Continuous r (.write off v)) :
    Streamed r { r with dma := r.dma.write off v } [] := by
  rcases (write_cases r.dma off v).2 with hch | ⟨reg, hdecode, hch⟩
  · exact of_chan harmed hch rfl (append_nil _).symm rfl
  · obtain ⟨haad, halgth, hctrl⟩ := hcont reg hdecode
    have hchan : ({ r with dma := r.dma.write off v } : Reception).chan = r.chan.put v reg := hch
    have hflags : ({ r with dma := r.dma.write off v } : Reception).Armed ∧
        (r.chan.put v reg).flags.currentPage = r.chan.flags.currentPage := by
      cases reg with
      | ctrl =>
        obtain ⟨henable, hdirection, honeShot, hpage⟩ := hctrl rfl
        refine ⟨⟨?_, ?_, ?_⟩, ?_⟩ <;> first | rw [hchan, flags_putCtrl] | rw [flags_putCtrl]
        · exact henable
        · exact hdirection
        · exact honeShot
        · exact hpage
      | _ =>
        refine ⟨⟨?_, ?_, ?_⟩, rfl⟩ <;> rw [hchan]
        · exact harmed.enable
        · exact harmed.direction
        · exact harmed.continuous
    refine quiet hflags.1 ?_ ?_ ?_ rfl (append_nil _).symm rfl
    · rw [hchan]
      cases reg with
      | aad => exact haad rfl
      | _ => rfl
    · rw [hchan]
      cases reg with
      | algth => exact halgth rfl
      | _ => rfl
    · rw [hchan]
      exact hflags.2

variable (hwf : r.Wf)

include hwf

/-- **Step.** Whatever call leaves the channel alone, it streams. -/
theorem step_streamed {e : Event} (hcont : Continuous r e) :
    Streamed r (r.step e).1 (r.step e).2 := by
  cases e with
  | burst s w => exact .burst harmed hwf s hcont
  | rxRequest s => exact .rxRequest harmed hwf s
  | pump s => exact .pump harmed hwf s
  | read off => exact .read harmed off _
  | write off v => exact .write harmed hcont
  | portr pa =>
    have hsame : (r.rif.portr pa).1 = r.rif := Rif.portr_of_ne_drr r.rif hcont
    have hvalues : ∀ vs : List Word, pages (vs.map .value) = [] ∧ received (vs.map .value) = [] := by
      intro vs
      simp [pages, received]
    refine .of_chan harmed rfl (hvalues _).1 ?_ rfl
    show (r.rif.portr pa).1.contents = _ ++ received ((r.rif.portr pa).2.toList.map .value)
    rw [(hvalues _).2, append_nil, hsame]
  | portw pa val =>
    refine .of_chan harmed rfl rfl ?_ rfl
    show (r.rif.portw pa val).1.contents = r.rif.contents ++ []
    rw [append_nil, Rif.portw_contents, if_neg hcont]

/-! ### Runs -/

theorem run_streamed {es : List Event} (hcont : machine.Along Continuous r es) :
    Streamed r (machine.final r es) (machine.trace r es) := by
  induction es generalizing r with
  | nil => exact .refl harmed
  | cons e es ih =>
    obtain ⟨hstep, hrest⟩ := hcont
    have hfirst := step_streamed harmed hwf hstep
    exact hfirst.trans (ih hfirst.armed (step_wf hwf e) hrest)

/-- While IRQ_STATE is pending a continuous request changes no word of the API memory. -/
theorem rxRequest_pending (hirq : r.chan.flags.irqState) (s : Bool) :
    (r.rxRequest s).1.api = r.api := by
  have hreq := requested_rxRequest hwf s
  generalize r.rxRequest s = q at hreq ⊢
  cases hreq with
  | refused | held => rfl
  | moved hnone =>
    rw [show r.chan.flags.irqState = false from hnone harmed.continuous] at hirq
    cases hirq

theorem step_pending (hirq : r.chan.flags.irqState) (e : Event) :
    (r.step e).1.api = r.api := by
  cases e with
  | burst s w =>
    show (r.burst s w).1.api = r.api
    unfold burst
    split
    · rfl
    · dsimp only
      split
      · exact rxRequest_pending (r := r.arrive w) (harmed.of_chan rfl) (hwf.of_dma rfl) hirq s
      · rfl
  | rxRequest s => exact rxRequest_pending harmed hwf hirq s
  | pump s =>
    show (r.pump s).1.api = r.api
    rcases pump_cases r s with heq | heq
    · rw [heq]
    · rw [heq]
      exact rxRequest_pending (r := { r with rdDsp := r.rdDsp || s }) (harmed.of_chan rfl)
        (hwf.of_dma rfl) hirq _
  | read off | write off v | portr pa | portw pa val => rfl

end

/-- Not one of the two exits at the border of the API window. -/
def Obs.inWindow (o : Obs) : Prop := o ≠ .clipped ∧ o ≠ .outside

theorem pageLoop_inWindow (oneShot : Bool) (dst max k : Nat) (r : Reception) :
    ∀ o ∈ (pageLoop oneShot dst max k r).2, o.inWindow := by
  induction k generalizing r with
  | zero => simp [pageLoop]
  | succ k ih =>
    rw [pageLoop]
    split
    · simp
    · dsimp only
      split
      · simp
      · split
        · simp [Obs.inWindow]
        · exact List.forall_mem_cons.mpr ⟨by simp [Obs.inWindow], ih _⟩

theorem transferPages_inWindow (r : Reception) (oneShot : Bool) (dst max : Nat) :
    ∀ o ∈ (r.transferPages oneShot dst max).2, o.inWindow := by
  unfold transferPages
  dsimp only
  split
  · simp
  · refine List.forall_mem_append.mpr ⟨pageLoop_inWindow _ _ _ _ _, ?_⟩
    unfold complete
    dsimp only
    split <;> simp [Obs.inWindow]

theorem rxRequest_inWindow (hwf : r.Wf) (s : Bool) : ∀ o ∈ (r.rxRequest s).2, o.inWindow := by
  have hreq := requested_rxRequest hwf s
  generalize r.rxRequest s = q at hreq ⊢
  cases hreq with
  | refused | held => simp
  | moved => exact transferPages_inWindow _ _ _ _

/-- In no mode does a call reach one of the two exits. -/
theorem step_inWindow (hwf : r.Wf) (e : Event) : ∀ o ∈ (r.step e).2, o.inWindow := by
  cases e with
  | burst s w =>
    show ∀ o ∈ (r.burst s w).2, o.inWindow
    have harrive : ∀ o ∈ Obs.received (Rif.clip w) :: (r.arrive w).rint s, o.inWindow := by
      unfold rint
      split <;> simp [Obs.inWindow]
    unfold burst
    split
    · simp
    · dsimp only
      split
      · exact List.forall_mem_append.mpr
          ⟨harrive, rxRequest_inWindow (r := r.arrive w) (hwf.of_dma rfl) s⟩
      · exact harrive
  | rxRequest s => exact rxRequest_inWindow hwf s
  | pump s =>
    show ∀ o ∈ (r.pump s).2, o.inWindow
    rcases pump_cases r s with heq | heq
    · rw [heq]
      simp
    · rw [heq]
      exact rxRequest_inWindow (r := { r with rdDsp := r.rdDsp || s }) (hwf.of_dma rfl) _
  | read off | write off v | portr pa | portw pa val => simp [step, Obs.inWindow]

/-! ### The double buffer -/

def ctrl2 : Nat := 0x28

theorem Wf.idle_read (h : r.Wf) : bitSet (r.dma.read ctrl2).2 1 := by
  have hread : (r.dma.read ctrl2).2 = r.chan.ctrl &&& ~~~ctrlDmaStart := rfl
  have hidle : r.chan.ctrl[1] = true := h.idle
  rw [hread]
  simp [bitSet, ctrlDmaStart, hidle]

theorem Wf.place_le (h : r.Wf) (second : Bool) : r.place second + r.chan.pageWords ≤ apiSize := by
  have hdst := h.dstIdx_lt
  have hwords := h.pageWords_lt
  unfold place apiSize
  split <;> omega

/-- The double buffer as the DSP sees it, over a run from `r`. -/
structure DoubleBuffered (r : Reception) (es : List Event) : Prop where
  /-- Only full pages. -/
  full : ∀ p ∈ pages (machine.trace r es), p.2.length = r.chan.pageWords
  /-- Page `k` lands at AAD/2 or at AAD/2 + ALGTH/2, in turn. -/
  inTurn : (pages (machine.trace r es)).map Prod.fst
    = r.places (pages (machine.trace r es)).length
  /-- The pages are the next words of the receiver's stream, with no gap. -/
  flow : (pages (machine.trace r es)).flatMap Prod.snd ++ (machine.final r es).rif.contents
    = r.rif.contents ++ received (machine.trace r es)
  /-- The API memory has taken these pages, and is otherwise as it was. -/
  stored : (machine.final r es).api = r.api.map (storeAll (pages (machine.trace r es)))
  /-- Every word of every page is inside the API window. -/
  fits : ∀ p ∈ pages (machine.trace r es), p.1 + p.2.length ≤ apiSize
  inWindow : ∀ o ∈ machine.trace r es, o.inWindow
  idle : bitSet ((machine.final r es).dma.read ctrl2).2 1 = true
  /-- A call made while IRQ_STATE is pending writes no API word. -/
  exclusive : (machine.final r es).chan.flags.irqState = true →
    ∀ e, ((machine.final r es).step e).1.api = (machine.final r es).api

/-- **Double buffer.** From any state in which the channel is armed in continuous mode, and
for any calls that leave it so. -/
theorem continuous_double_buffer (api : Option (Nat → Word)) (es₀ es : List Event)
    (harmed : (machine.final (init api) es₀).Armed)
    (hcont : machine.Along Continuous (machine.final (init api) es₀) es) :
    DoubleBuffered (machine.final (init api) es₀) es := by
  have hwf₀ : (machine.final (init api) es₀).Wf :=
    Machine.invariant (I := Wf) (fun t e ht _ => step_wf ht e) (init_wf api)
      (Machine.along_true _ es₀)
  generalize machine.final (init api) es₀ = r at harmed hcont hwf₀
  have hwf : (machine.final r es).Wf :=
    Machine.invariant (I := Wf) (fun t e ht _ => step_wf ht e) hwf₀ hcont
  have hrun := run_streamed harmed hwf₀ hcont
  refine ⟨hrun.full, hrun.inTurn, hrun.flow, hrun.stored, ?_, ?_, hwf.idle_read,
    step_pending hrun.armed hwf⟩
  · intro p hp
    have hplace : p.1 ∈ r.places (pages (machine.trace r es)).length := by
      rw [← hrun.inTurn]
      exact mem_map_of_mem hp
    obtain ⟨k, -, hk⟩ := List.mem_map.mp hplace
    rw [hrun.full p hp, ← hk]
    exact hwf₀.place_le _
  · exact Machine.trace_forall (I := Wf) (fun t e ht _ => step_wf ht e)
      (fun t e ht _ => step_inWindow ht e) hwf₀ hcont

/-- Pages of two words at the start of the API memory; a burst of five words makes two. -/
theorem continuous_double_buffer_pair :
    (pages (machine.trace (machine.final (init (some fun _ => 0))
        [.write 0x26 0x0004, .write 0x28 0x0401])
      [.burst true [1, 2, 3, 4, 5], .rxRequest true, .read 0x28, .pump true])
        = [(0, [1, 2]), (2, [3, 4])]) ∧
      DoubleBuffered (machine.final (init (some fun _ => 0))
        [.write 0x26 0x0004, .write 0x28 0x0401])
      [.burst true [1, 2, 3, 4, 5], .rxRequest true, .read 0x28, .pump true] :=
  ⟨by decide, continuous_double_buffer _ _ _ ⟨by decide, by decide, by decide⟩
    ⟨by show Rif.perte _ _ = 0; decide, trivial, trivial, trivial, trivial⟩⟩

end Qosmo.Reception
