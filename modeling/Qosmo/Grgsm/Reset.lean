import Qosmo.Grgsm.Blocks

/-!
# Qosmo.Grgsm.Reset

What the gr-gsm layer remembers over a reset.

The firmware resets the layer by writing 0 to the page word. `l1_reset` takes the flags of the AGCH
and SDCCH blocks back, but of the SDCCH the flag only decides whether system information is
presented: the ring keeps its blocks, and `dispatch_allc` goes by the ring. The frame number of the
last SDCCH block stays as well, and a block with that number is taken for a repetition.

So the blocks presented after a reset do not depend on those fed before it if the ring was empty
and the last frame number is the same (`presentedAfter_eq`). What the blocks leave alone
(`Blocks.rest`) is what all the other events act on.
-/

namespace Qosmo.Grgsm

def Event.feeds : Event → Bool
  | .gsmtap _ buf => channel buf == some .agch || channel buf == some .sdcch4
  | _ => false

/-- A history without the AGCH and SDCCH blocks fed in it. -/
def withoutBlocks (es : List Event) : List Event := es.filter fun e => !e.feeds

def afterReset (es : List Event) (taskD taskU : Word) : Grgsm :=
  machine.final init (es ++ [.pageWritten 0 taskD taskU])

def presentedAfter (es : List Event) (taskD taskU : Word) (later : List Event) : List Shown :=
  (machine.trace (afterReset es taskD taskU) later).filter Shown.isBlock

namespace Blocks

/-- The store without its blocks. -/
def rest (b : Blocks) : Blocks := { b with agch := none, sdcch := [], lastFn := 0 }

variable {b : Blocks} {e : Event}

theorem rest_expire : b.expire.rest = b.rest := by
  unfold expire
  split
  · split <;> rfl
  · rfl

theorem rest_answer (env : Env) : (b.answer env).1.rest = b.rest := by
  unfold answer allc
  split
  · dsimp only
    split <;> exact rest_expire
  · rfl

/-- A frame moves the clock of the layer, whatever blocks there are. -/
theorem rest_frameTick (env : Env) :
    (b.frameTick env).1.rest
      = if !b.pending then b.rest else { b.rest with tick := b.tick + 1, pending := false } := by
  unfold frameTick
  split
  · rfl
  · have hanswer := rest_answer (b := { b with tick := b.tick + 1 }) env
    exact congrArg (fun r : Blocks => { r with pending := false }) hanswer

/-- Feeding a block leaves the rest alone. -/
theorem rest_step_of_feeds (he : e.feeds) : (machine.step b e).1.rest = b.rest := by
  cases e with
  | gsmtap lastRach buf =>
    dsimp only [machine]
    split
    · unfold feedAgch
      split <;> rfl
    · unfold feedSdcch
      split <;> rfl
    · rfl
  | _ => exact absurd he Bool.false_ne_true

/-- The other events do not look at the blocks to change the rest. -/
theorem rest_step (he : e.feeds = false) :
    (machine.step b e).1.rest = (machine.step b.rest e).1.rest := by
  cases e with
  | pageWritten v taskD taskU =>
    dsimp only [machine]
    split
    · split <;> rfl
    · rfl
  | gsmtap lastRach buf =>
    have hchannel : channel buf ≠ some .agch ∧ channel buf ≠ some .sdcch4 := by
      simpa [Event.feeds] using he
    dsimp only [machine]
    split
    · exact absurd ‹_› hchannel.1
    · exact absurd ‹_› hchannel.2
    · rfl
  | frameTick env =>
    show (b.frameTick env).1.rest = (b.rest.frameTick env).1.rest
    rw [rest_frameTick, rest_frameTick]
    rfl
  | _ => rfl

/-- The rest goes its way as if no block had been fed. -/
theorem rest_final {es₁ es₂ : List Event} (h : withoutBlocks es₁ = withoutBlocks es₂) :
    (machine.final b es₁).rest = (machine.final b es₂).rest := by
  refine Machine.noninterference rest (fun e : Event => !e.feeds) (fun b e he => ?_)
    (fun b b' e he hb => ?_) rfl h
  · exact rest_step_of_feeds (by simpa using he)
  · have he' : e.feeds = false := by simpa using he
    rw [rest_step he', hb, ← rest_step he']

/-- A reset leaves the SDCCH blocks, the number of the last one, and the rest. -/
theorem reset_eq {b' : Blocks} (hrest : b.rest = b'.rest) (hsdcch : b.sdcch = b'.sdcch)
    (hlast : b.lastFn = b'.lastFn) : b.reset = b'.reset := by
  have hreset : ∀ b : Blocks,
      b.reset = { b.rest with dedicated := none, sdcch := b.sdcch, lastFn := b.lastFn } :=
    fun b => rfl
  rw [hreset, hreset, hrest, hsdcch, hlast]

end Blocks

theorem blocks_afterReset (es : List Event) (taskD taskU : Word) :
    (afterReset es taskD taskU).sdcch.depth ≤ sdcchRingN ∧
      (afterReset es taskD taskU).blocks = (machine.final init es).blocks.reset := by
  obtain ⟨hdepth, -, -⟩ :=
    blocks_run (s := init) (by decide) (es ++ [.pageWritten 0 taskD taskU])
  refine ⟨hdepth, ?_⟩
  rw [afterReset, Machine.final_append]
  rfl

/-- **Reset.** Two histories that differ only in the AGCH and SDCCH blocks fed before the reset
present the same such blocks after it, provided that both have emptied the ring of the SDCCH and
have seen the same frame number last. -/
theorem presentedAfter_eq (es₁ es₂ later : List Event) (taskD taskU : Word)
    (hes : withoutBlocks es₁ = withoutBlocks es₂)
    (hempty₁ : (machine.final init es₁).sdcch.tail = (machine.final init es₁).sdcch.head)
    (hempty₂ : (machine.final init es₂).sdcch.tail = (machine.final init es₂).sdcch.head)
    (hlast : (machine.final init es₁).sdcchLastFn = (machine.final init es₂).sdcchLastFn) :
    presentedAfter es₁ taskD taskU later = presentedAfter es₂ taskD taskU later := by
  have hpresented : ∀ es, presentedAfter es taskD taskU later
      = Blocks.machine.trace (machine.final init es).blocks.reset later := by
    intro es
    obtain ⟨hdepth, hblocks⟩ := blocks_afterReset es taskD taskU
    rw [← hblocks]
    exact (blocks_run hdepth later).2.2
  have hblocks : ∀ es, (machine.final init es).blocks = Blocks.machine.final init.blocks es :=
    fun es => (blocks_run (s := init) (by decide) es).2.1
  have hrest : (machine.final init es₁).blocks.rest = (machine.final init es₂).blocks.rest := by
    rw [hblocks, hblocks]
    exact Blocks.rest_final hes
  have hsdcch : (machine.final init es₁).blocks.sdcch = (machine.final init es₂).blocks.sdcch :=
    (Running.contents_of_eq hempty₁).trans (Running.contents_of_eq hempty₂).symm
  rw [hpresented, hpresented, Blocks.reset_eq hrest hsdcch hlast]

def sdcchDatagram (fn : Byte) : List Byte :=
  [2, 4, 1, 0, 0, 0, 0, 0, 0, 0, 0, fn, 0x07, 0, 0, 0, 0x01, 0x03, 0x01]

/-- The firmware asks for the blocks of the CCCH, and frame `fn` comes. -/
def readBlock (fn : BitVec 32) : List Event :=
  [.pageWritten 2 24 0, .frameTick ⟨fn, fn, false, none⟩]

/-- Without any SDCCH block, an assignment fed before the reset is not presented after it. -/
theorem presentedAfter_eq_agch :
    presentedAfter [.gsmtap 0 [2, 4, 1, 0, 0, 0, 0, 0, 0, 0, 0, 1, 0x04, 0, 0, 0, 0x2D, 0x06, 0x3F]]
        0 0 (readBlock 6)
      = presentedAfter [] 0 0 (readBlock 6) :=
  presentedAfter_eq _ _ _ 0 0 (by decide) (by decide) (by decide) (by decide)

/-- A block fed before the reset is presented after it, and one that was presented before the reset
keeps a block of the same frame number from being presented after it. -/
theorem presentedAfter_ne :
    (withoutBlocks [.gsmtap 0 (sdcchDatagram 5)] = withoutBlocks [] ∧
      presentedAfter [.gsmtap 0 (sdcchDatagram 5)] 0 0 (readBlock 22)
        = [.sdcch (block [0x01, 0x03, 0x01])] ∧
      presentedAfter [] 0 0 (readBlock 22) = []) ∧
    (withoutBlocks (.gsmtap 0 (sdcchDatagram 5) :: .burstWritten 3 :: readBlock 22)
        = withoutBlocks (.burstWritten 3 :: readBlock 22) ∧
      presentedAfter (.gsmtap 0 (sdcchDatagram 5) :: .burstWritten 3 :: readBlock 22) 0 0
          (.gsmtap 0 (sdcchDatagram 5) :: readBlock 22) = [] ∧
      presentedAfter (.burstWritten 3 :: readBlock 22) 0 0
          (.gsmtap 0 (sdcchDatagram 5) :: readBlock 22)
        = [.sdcch (block [0x01, 0x03, 0x01])]) := by
  decide +kernel

end Qosmo.Grgsm
