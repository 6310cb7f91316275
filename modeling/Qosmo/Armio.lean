import Qosmo.Basic
import Qosmo.Lib.Run

/-!
# Qosmo.Armio

The keypad of the handset (`hw/arm/calypso/calypso_armio.c`).

A key is a bit of `keys`. The host presses and releases keys by text commands, or taps one:
`tap` presses the key and leaves its release to a timer. The timer and the mask of the keys
it will release are shared by all of them, which is what the results are about.

What the host asks for is said by key: a key should be down if its most recent command is a
press, or a tap whose duration has not elapsed (`Wanted`). As long as no key is tapped while
another one's tap is pending, and none is pressed while its own is, the keypad does just that
(`keys_follow_commands`). A second tap moves the release of the first key, and a pressed key
is released with it (`keys_forget_commands`). The firmware sees the keys as they are
(`keypad_scanned`).
-/

namespace Qosmo

/-- `KEY_BITS`: column * 5 + row. -/
abbrev Key := Fin 25

/-- `CalypsoArmioState`; `irq` is the level of the interrupt line, `tapTimer` the time at which
the timer is set to expire, if it is. -/
structure Armio where
  latchOut : Word
  ioCntl : Word
  kbc : Word
  gpioInt : Word
  gpioMaskit : Word
  keys : BitVec 32
  tapMask : BitVec 32
  tapTimer : Option Int
  irq : Bool
  deriving Repr, DecidableEq

namespace Armio

def reset : Armio := ⟨0, 0, 0, 0, 0, 0, 0, none, false⟩

/-! ### Commands -/

def keyNames : List (String × Key) :=
  [("ok", 0), ("up", 1), ("down", 2), ("left", 3), ("right", 4),
    ("3", 5), ("6", 6), ("9", 7), ("hash", 8), ("#", 8), ("rsb", 9),
    ("2", 10), ("5", 11), ("8", 12), ("0", 13), ("menu", 14),
    ("1", 15), ("4", 16), ("7", 17), ("star", 18), ("*", 18),
    ("lsb", 19), ("power", 24)]

def isDigit (b : Byte) : Bool := 0x30 ≤ b.toNat && b.toNat ≤ 0x39

def isSpace (b : Byte) : Bool := b == 0x20 || (0x09 ≤ b.toNat && b.toNat ≤ 0x0D)

/-- The number that digits write. -/
def decimal (bs : List Byte) : Nat :=
  (bs.takeWhile isDigit).foldl (fun n b => 10 * n + (b.toNat - 0x30)) 0

/-- `atoi`: `strtol` saturates, and the result is cut to an `int`. -/
def atoi (bs : List Byte) : Int :=
  let n : Int := match bs.dropWhile isSpace with
    | 0x2D :: ds => -(decimal ds : Int)
    | 0x2B :: ds => decimal ds
    | ds => decimal ds
  (BitVec.ofInt 32 (max (-(2 ^ 63)) (min n (2 ^ 63 - 1)))).toInt

/-- `armio_key_bit`: a name of the table, or `k` and a number. -/
def keyBit (name : List Byte) : Option Key :=
  match keyNames.find? fun p => ascii p.1 == name with
  | some p => some p.2
  | none =>
    match name with
    | 0x6B :: d :: ds =>
      if isDigit d then
        let b := atoi (d :: ds)
        if h : 0 ≤ b ∧ b < 25 then some ⟨b.toNat, by omega⟩ else none
      else none
    | _ => none

/-- The words of a line, as `strtok_r` finds them between blanks. -/
def tokens (line : List Byte) : List (List Byte) :=
  (line.splitOnP fun b => b == 0x20 || b == 0x09 || b == 0x0D || b == 0x0A).filter (· != [])

/-- What a command does to its key. -/
inductive Action
  | press
  | release
  | tap (ms : Int)
  deriving Repr, DecidableEq

def tapMsDefault : Int := 150

/-- The milliseconds of a tap: an argument that is missing or not positive stands for the
default. -/
def tapMs (rest : List (List Byte)) : Int :=
  let ms := match rest with
    | arg :: _ => atoi arg
    | [] => tapMsDefault
  if ms ≤ 0 then tapMsDefault else ms

/-- The first half of `armio_command`: the key and what to do with it, unless the line is
empty, names no key or no command. -/
def parseLine (line : List Byte) : Option (Key × Action) :=
  match tokens line with
  | cmd :: name :: rest =>
    (keyBit name).bind fun k =>
      if cmd = ascii "press" ∨ cmd = ascii "down" then some (k, .press)
      else if cmd = ascii "release" ∨ cmd = ascii "up" then some (k, .release)
      else if cmd = ascii "tap" then some (k, .tap (tapMs rest))
      else none
  | _ => none

/-! ### Keys -/

def updateIrq (s : Armio) : Armio :=
  let active := s.keys != 0 && s.kbc &&& 0x1F == 0
  { s with
    gpioInt := if active then 1 else 0
    irq := active && !bitSet s.gpioMaskit 0 }

def setKey (s : Armio) (bit : Key) (down : Bool) : Armio :=
  let m := BitVec.twoPow 32 bit
  (if down then { s with keys := s.keys ||| m }
   else { s with keys := s.keys &&& ~~~m, tapMask := s.tapMask &&& ~~~m }).updateIrq

/-- One iteration of the loop of `armio_tap_expire`, `m` being the mask before it. -/
def tapRelease (m : BitVec 32) (s : Armio) (b : Key) : Armio :=
  if bitSet m b then s.setKey b false else s

/-- `armio_tap_expire`, called when the timer has expired. -/
def tapExpire (s : Armio) : Armio :=
  (List.finRange 25).foldl (tapRelease s.tapMask) { s with tapMask := 0, tapTimer := none }

/-- The second half of `armio_command`. -/
def perform (s : Armio) (now : Int) (bit : Key) : Action → Armio
  | .press => s.setKey bit true
  | .release => s.setKey bit false
  | .tap ms =>
    let t := s.setKey bit true
    { t with tapMask := t.tapMask ||| BitVec.twoPow 32 bit, tapTimer := some (now + ms) }

def command (s : Armio) (now : Int) (line : List Byte) : Armio :=
  match parseLine line with
  | some (bit, a) => s.perform now bit a
  | none => s

/-! ### Registers -/

/-- The rows a read of KBR_LATCH finds pulled low: those of the driven columns. -/
def rows (s : Armio) : BitVec 32 :=
  (List.range 5).foldl
    (fun r col => if bitSet s.kbc col then r else r ||| ((s.keys >>> (col * 5)) &&& 0x1F)) 0

def read (s : Armio) (offset : Nat) : Word :=
  match offset with
  | 0x02 => s.latchOut
  | 0x04 => s.ioCntl
  | 0x0a => (~~~s.rows &&& 0x1F).setWidth 16
  | 0x0c => s.kbc
  | 0x16 => s.gpioInt
  | 0x18 => s.gpioMaskit
  | _ => 0

def write (s : Armio) (offset : Nat) (value : Word) : Armio :=
  match offset with
  | 0x02 => { s with latchOut := value }
  | 0x04 => { s with ioCntl := value }
  | 0x0c => { s with kbc := value &&& 0xFF }.updateIrq
  | 0x16 => { s with gpioInt := value }
  | 0x18 => { s with gpioMaskit := value }.updateIrq
  | _ => s

/-! ### The keypad as a machine -/

/-- Calls into the device: a line of the socket, a key of the graphical console, the timer, the
guest. -/
inductive Call
  | command (line : List Byte)
  | input (bit : Key) (down : Bool)
  | expire
  | read (offset : Nat)
  | write (offset : Nat) (value : Word)
  deriving Repr, DecidableEq

/-- A call at a time of the virtual clock, in milliseconds. -/
structure Event where
  now : Int
  call : Call
  deriving Repr, DecidableEq

def call (s : Armio) (e : Event) : Armio :=
  match e.call with
  | .command line => s.command e.now line
  | .input bit down => s.setKey bit down
  | .expire => s.tapExpire
  | .read _ => s
  | .write offset value => s.write offset value

structure Board where
  armio : Armio
  clock : Int
  deriving Repr, DecidableEq

/-- The keypad driven by arbitrary calls; it shows the calls it got. -/
def machine : Machine Board Event Event := ⟨fun b e => (⟨b.armio.call e, e.now⟩, [e])⟩

def start (clock : Int) : Board := ⟨reset, clock⟩

/-- The key is down, or has a tap pending. -/
def down (s : Armio) (k : Key) : Bool := bitSet s.keys k
def pending (s : Armio) (k : Key) : Bool := bitSet s.tapMask k

/-! ### What the host asks for -/

/-- The key a call commands, and how. A key of the console is pressed or released. -/
def Event.order (e : Event) : Option (Key × Action) :=
  match e.call with
  | .command line => parseLine line
  | .input bit down => some (bit, if down then .press else .release)
  | _ => none

/-- The command for this key, if the call is one, and its time. -/
def Event.orderFor (k : Key) (e : Event) : Option (Int × Action) :=
  match e.order with
  | some (k', a) => if k' = k then some (e.now, a) else none
  | none => none

/-- The most recent command for this key. -/
def mostRecent (k : Key) (es : List Event) : Option (Int × Action) :=
  (es.filterMap (Event.orderFor k)).getLast?

/-- Should the key be down at this time? -/
def Wanted (k : Key) (es : List Event) (now : Int) : Prop :=
  match mostRecent k es with
  | some (_, .press) => True
  | some (t, .tap ms) => now < t + ms
  | some (_, .release) => False
  | none => False

/-! ### What each call does to the keys -/

variable {s : Armio}

theorem bitSet_or (m : BitVec 32) (k j : Key) :
    bitSet (m ||| BitVec.twoPow 32 k) j = (bitSet m j || decide (k = j)) := by
  have hj : (j : Nat) < 32 := by omega
  simp [bitSet, hj, Fin.ext_iff, eq_comm]

theorem bitSet_clear (m : BitVec 32) (k j : Key) :
    bitSet (m &&& ~~~BitVec.twoPow 32 k) j = (bitSet m j && !decide (k = j)) := by
  have hj : (j : Nat) < 32 := by omega
  simp [bitSet, hj, Fin.ext_iff, eq_comm]

theorem setKey_down (s : Armio) (k j : Key) (d : Bool) :
    (s.setKey k d).down j = if k = j then d else s.down j := by
  cases d with
  | true =>
    show bitSet (s.keys ||| BitVec.twoPow 32 k) j = _
    rw [bitSet_or]
    by_cases hkj : k = j <;> simp [hkj, down]
  | false =>
    show bitSet (s.keys &&& ~~~BitVec.twoPow 32 k) j = _
    rw [bitSet_clear]
    by_cases hkj : k = j <;> simp [hkj, down]

theorem setKey_pending (s : Armio) (k j : Key) (d : Bool) :
    (s.setKey k d).pending j = (s.pending j && (d || !decide (k = j))) := by
  cases d with
  | true =>
    show bitSet s.tapMask j = _
    simp [pending]
  | false =>
    show bitSet (s.tapMask &&& ~~~BitVec.twoPow 32 k) j = _
    rw [bitSet_clear]
    simp [pending]

@[simp] theorem setKey_tapTimer (s : Armio) (k : Key) (d : Bool) :
    (s.setKey k d).tapTimer = s.tapTimer := by
  cases d <;> rfl

theorem tapRelease_down (m : BitVec 32) (s : Armio) (b j : Key) :
    (tapRelease m s b).down j = (s.down j && !(decide (j = b) && bitSet m j)) := by
  unfold tapRelease
  by_cases hjb : j = b
  · subst hjb
    split
    · rename_i hset
      simp [setKey_down, hset]
    · rename_i hclear
      simp [hclear]
  · split
    · simp [setKey_down, hjb, Ne.symm hjb]
    · simp [hjb]

/-- Along the loop, the mask and the timer stay as they were cleared. -/
theorem tapRelease_frame (m : BitVec 32) (b : Key) (hmask : s.tapMask = 0) :
    (tapRelease m s b).tapMask = 0 ∧ (tapRelease m s b).tapTimer = s.tapTimer := by
  unfold tapRelease
  split
  · refine ⟨?_, setKey_tapTimer s b false⟩
    show s.tapMask &&& _ = 0
    rw [hmask]
    exact BitVec.zero_and
  · exact ⟨hmask, rfl⟩

theorem tapRelease_loop (m : BitVec 32) (bs : List Key) (hmask : s.tapMask = 0) (j : Key) :
    (bs.foldl (tapRelease m) s).down j = (s.down j && !(decide (j ∈ bs) && bitSet m j)) ∧
      (bs.foldl (tapRelease m) s).tapMask = 0 ∧
      (bs.foldl (tapRelease m) s).tapTimer = s.tapTimer := by
  -- `m` is the mask from before the loop: no release hides another
  induction bs generalizing s with
  | nil => simp [hmask]
  | cons b bs ih =>
    obtain ⟨hmask', htimer⟩ := tapRelease_frame m b hmask
    obtain ⟨hdown, hmask'', htimer'⟩ := ih hmask'
    rw [List.foldl_cons]
    refine ⟨?_, hmask'', htimer'.trans htimer⟩
    rw [hdown, tapRelease_down]
    cases bitSet m j with
    | false => simp
    | true => by_cases hjb : j = b <;> simp [hjb]

/-- The timer releases the keys whose tap is pending, and no other. -/
theorem tapExpire_keys (s : Armio) (j : Key) :
    s.tapExpire.down j = (s.down j && !s.pending j) ∧ s.tapExpire.pending j = false ∧
      s.tapExpire.tapTimer = none := by
  obtain ⟨hdown, hmask, htimer⟩ := tapRelease_loop (s := { s with tapMask := 0, tapTimer := none })
    s.tapMask (List.finRange 25) rfl j
  refine ⟨?_, ?_, htimer⟩
  · rw [tapExpire, hdown, decide_eq_true (List.mem_finRange j), Bool.true_and]
    rfl
  · rw [tapExpire, pending, hmask]
    simp [bitSet]

/-- The guest's accesses leave the keys and the timer alone. -/
theorem write_keys (s : Armio) (offset : Nat) (value : Word) :
    (s.write offset value).keys = s.keys ∧ (s.write offset value).tapMask = s.tapMask ∧
      (s.write offset value).tapTimer = s.tapTimer := by
  unfold write
  split <;> exact ⟨rfl, rfl, rfl⟩

structure SameKeys (s s' : Armio) : Prop where
  down : ∀ j, s'.down j = s.down j
  pending : ∀ j, s'.pending j = s.pending j
  timer : s'.tapTimer = s.tapTimer

theorem write_same (s : Armio) (offset : Nat) (value : Word) :
    SameKeys s (s.write offset value) := by
  obtain ⟨hkeys, hmask, htimer⟩ := write_keys s offset value
  refine ⟨fun j => ?_, fun j => ?_, htimer⟩
  · rw [Armio.down, hkeys]
    rfl
  · rw [Armio.pending, hmask]
    rfl

/-- What a command leaves behind: its own key pressed or released, with a tap pending or not;
the others as they were. -/
structure Performed (s : Armio) (now : Int) (k : Key) (a : Action) (s' : Armio) : Prop where
  other : ∀ j, k ≠ j → s'.down j = s.down j ∧ s'.pending j = s.pending j
  press : a = .press → s'.down k = true ∧ s'.pending k = s.pending k ∧ s'.tapTimer = s.tapTimer
  release : a = .release → s'.down k = false ∧ s'.pending k = false ∧ s'.tapTimer = s.tapTimer
  tap : ∀ ms, a = .tap ms → s'.down k = true ∧ s'.pending k = true ∧ s'.tapTimer = some (now + ms)

theorem perform_performed (s : Armio) (now : Int) (k : Key) (a : Action) :
    Performed s now k a (s.perform now k a) := by
  cases a with
  | press =>
    refine ⟨fun j hj => ?_, fun _ => ?_, nofun, nofun⟩
    · simp [perform, setKey_down, setKey_pending, hj]
    · simp [perform, setKey_down, setKey_pending]
  | release =>
    refine ⟨fun j hj => ?_, nofun, fun _ => ?_, nofun⟩
    · simp [perform, setKey_down, setKey_pending, hj]
    · simp [perform, setKey_down, setKey_pending]
  | tap ms =>
    have hpending : ∀ j,
        (s.perform now k (.tap ms)).pending j = (s.pending j || decide (k = j)) := by
      intro j
      show bitSet ((s.setKey k true).tapMask ||| BitVec.twoPow 32 k) j = _
      rw [bitSet_or]
      rfl
    have hdown : ∀ j, (s.perform now k (.tap ms)).down j = (s.setKey k true).down j := fun _ => rfl
    refine ⟨fun j hj => ?_, nofun, nofun, ?_⟩
    · rw [hdown, hpending, setKey_down]
      simp [hj]
    · intro ms' hms
      cases hms
      rw [hdown, hpending, setKey_down]
      simp [perform]

/-- **One call**: a command for some key, the timer, or nothing the keys notice. -/
theorem call_cases (s : Armio) (e : Event) :
    (∃ k a, e.order = some (k, a) ∧ Performed s e.now k a (s.call e)) ∨
      (e.order = none ∧ e.call = .expire ∧ s.call e = s.tapExpire) ∨
      (e.order = none ∧ e.call ≠ .expire ∧ SameKeys s (s.call e)) := by
  obtain ⟨now, call⟩ := e
  cases call with
  | command line =>
    cases hparse : parseLine line with
    | none =>
      -- no key or no command of that name: the line is ignored
      have hcall : s.call ⟨now, .command line⟩ = s := by
        simp only [Armio.call, command, hparse]
      refine .inr (.inr ⟨hparse, by simp, ?_⟩)
      rw [hcall]
      exact ⟨fun _ => rfl, fun _ => rfl, rfl⟩
    | some p =>
      have hcall : s.call ⟨now, .command line⟩ = s.perform now p.1 p.2 := by
        simp only [Armio.call, command, hparse]
      refine .inl ⟨p.1, p.2, hparse, ?_⟩
      rw [hcall]
      exact perform_performed s now p.1 p.2
  | input bit d =>
    -- the console sets the key as a press or a release would
    refine .inl ⟨bit, _, rfl, ?_⟩
    cases d with
    | true => exact perform_performed s now bit .press
    | false => exact perform_performed s now bit .release
  | expire => exact .inr (.inl ⟨rfl, rfl, rfl⟩)
  | read offset => exact .inr (.inr ⟨rfl, by simp, fun _ => rfl, fun _ => rfl, rfl⟩)
  | write offset value => exact .inr (.inr ⟨rfl, by simp, write_same s offset value⟩)

theorem tapMs_pos (rest : List (List Byte)) : 0 < tapMs rest := by
  have hms : ∀ ms : Int, 0 < if ms ≤ 0 then tapMsDefault else ms := by
    intro ms
    unfold tapMsDefault
    split <;> omega
  exact hms _

theorem order_tap {e : Event} {k : Key} {ms : Int} (h : e.order = some (k, .tap ms)) : 0 < ms := by
  unfold Event.order at h
  split at h
  · -- only a line taps; `tapMs` has replaced what is not positive
    unfold parseLine at h
    split at h
    · obtain ⟨k', -, h⟩ := Option.bind_eq_some_iff.mp h
      split_ifs at h
      · cases h
      · cases h
      · cases h
        exact tapMs_pos _
    · cases h
  · split at h <;> cases h
  · cases h

/-! ### Runs -/

theorem mostRecent_append (k : Key) (es : List Event) (e : Event) :
    mostRecent k (es ++ [e]) = (e.orderFor k).or (mostRecent k es) := by
  unfold mostRecent
  rw [List.filterMap_append]
  cases h : e.orderFor k with
  | none | some p => simp [h]

/-- The calls as QEMU makes them: time does not go back, the timer runs when it is due, and
nothing else before it then. -/
def Timely (b : Board) (e : Event) : Prop :=
  b.clock ≤ e.now ∧
    if e.call = .expire then ∃ t ∈ b.armio.tapTimer, t ≤ e.now
    else ∀ t ∈ b.armio.tapTimer, e.now < t

instance (b : Board) (e : Event) : Decidable (Timely b e) :=
  inferInstanceAs (Decidable (b.clock ≤ e.now ∧
    if e.call = .expire then ∃ t ∈ b.armio.tapTimer, t ≤ e.now
    else ∀ t ∈ b.armio.tapTimer, e.now < t))

/-- No key is tapped while another one's tap is pending, and none is pressed while its own is. -/
def Spares (s : Armio) : Option (Key × Action) → Prop
  | some (k, .press) => s.pending k = false
  | some (k, .tap _) => ∀ j, j ≠ k → s.pending j = false
  | some (_, .release) => True
  | none => True

instance decidableSpares (s : Armio) : ∀ o, Decidable (s.Spares o)
  | some (k, .press) => inferInstanceAs (Decidable (s.pending k = false))
  | some (k, .tap _) => inferInstanceAs (Decidable (∀ j, j ≠ k → s.pending j = false))
  | some (_, .release) => isTrue trivial
  | none => isTrue trivial

def Alone (b : Board) (e : Event) : Prop := b.armio.Spares e.order

instance (b : Board) (e : Event) : Decidable (Alone b e) :=
  inferInstanceAs (Decidable (b.armio.Spares e.order))

/-- How a key stands, by its most recent command: a tap is pending until the time the timer is
set to, or its time is over. -/
def Stands (b : Board) (k : Key) : Option (Int × Action) → Prop
  | some (_, .press) => b.armio.down k = true ∧ b.armio.pending k = false
  | some (t, .tap ms) =>
    (b.armio.down k = true ∧ b.armio.pending k = true ∧ b.armio.tapTimer = some (t + ms) ∧
        b.clock < t + ms) ∨
      (b.armio.down k = false ∧ b.armio.pending k = false ∧ t + ms ≤ b.clock)
  | some (_, .release) => b.armio.down k = false ∧ b.armio.pending k = false
  | none => b.armio.down k = false ∧ b.armio.pending k = false

variable {b b' : Board} {k : Key} {r : Option (Int × Action)}

/-- A key that is left alone stands as before, if the timer keeps its time where its tap is
pending. -/
theorem Stands.frame (h : Stands b k r) (hdown : b'.armio.down k = b.armio.down k)
    (hpending : b'.armio.pending k = b.armio.pending k) (hclock : b.clock ≤ b'.clock)
    (htimer : b.armio.pending k → b'.armio.tapTimer = b.armio.tapTimer ∧
      ∀ t ∈ b.armio.tapTimer, b'.clock < t) : Stands b' k r := by
  unfold Stands at h ⊢
  rw [hdown, hpending]
  split
  · exact h
  · rcases h with ⟨hd, hp, ht, -⟩ | ⟨hd, hp, hover⟩
    · obtain ⟨hsame, hearly⟩ := htimer hp
      exact .inl ⟨hd, hp, hsame.trans ht, hearly _ ht⟩
    · exact .inr ⟨hd, hp, hover.trans hclock⟩
  · exact h
  · exact h

variable {now : Int}

/-- When the timer expires, the taps that are pending are over. -/
theorem Stands.expire {t : Int} (h : Stands b k r) (hclock : b.clock ≤ now)
    (htimer : b.armio.tapTimer = some t) (hdue : t ≤ now) :
    Stands ⟨b.armio.tapExpire, now⟩ k r := by
  obtain ⟨hdown, hpending, -⟩ := tapExpire_keys b.armio k
  unfold Stands at h ⊢
  rw [hdown, hpending]
  split
  · simp [h.1, h.2]
  · rcases h with ⟨hd, hp, ht, -⟩ | ⟨hd, hp, hover⟩
    · rw [htimer, Option.some.injEq] at ht
      exact .inr ⟨by simp [hp], rfl, ht ▸ hdue⟩
    · exact .inr ⟨by simp [hd], rfl, hover.trans hclock⟩
  · simp [h.1]
  · simp [h.1]

/-- The key of a command stands as the command says. -/
theorem Performed.stands {a : Action} {s' : Armio} (h : Performed b.armio now k a s')
    (hpress : a = .press → b.armio.pending k = false) (htap : ∀ ms, a = .tap ms → 0 < ms) :
    Stands ⟨s', now⟩ k (some (now, a)) := by
  cases a with
  | press =>
    obtain ⟨hd, hp, -⟩ := h.press rfl
    exact ⟨hd, hp.trans (hpress rfl)⟩
  | release =>
    obtain ⟨hd, hp, -⟩ := h.release rfl
    exact ⟨hd, hp⟩
  | tap ms =>
    obtain ⟨hd, hp, ht⟩ := h.tap ms rfl
    have hpos := htap ms rfl
    exact .inl ⟨hd, hp, ht, by dsimp only; omega⟩

/-- Another key stands as before: a tap sets the timer again, but only while this key's tap is
not pending. -/
theorem Performed.stands_other {k' : Key} {a : Action} {s' : Armio}
    (hdone : Performed b.armio now k' a s') (hk : k' ≠ k) (h : Stands b k r)
    (hclock : b.clock ≤ now) (hearly : ∀ t ∈ b.armio.tapTimer, now < t)
    (hfree : ∀ ms, a = .tap ms → b.armio.pending k = false) : Stands ⟨s', now⟩ k r := by
  obtain ⟨hdown, hpending⟩ := hdone.other k hk
  refine h.frame hdown hpending hclock fun hp => ⟨?_, hearly⟩
  cases a with
  | press => exact (hdone.press rfl).2.2
  | release => exact (hdone.release rfl).2.2
  | tap ms =>
    rw [hfree ms rfl] at hp
    cases hp

/-- **One call**, as QEMU makes it and with taps alone, leaves every key as its most recent
command says. -/
theorem step_stands {es : List Event} {e : Event} (h : ∀ k, Stands b k (mostRecent k es))
    (htimely : Timely b e) (halone : Alone b e) (k : Key) :
    Stands (machine.step b e).1 k (mostRecent k (es ++ [e])) := by
  obtain ⟨hclock, hwhen⟩ := htimely
  show Stands ⟨b.armio.call e, e.now⟩ k _
  rw [mostRecent_append]
  rcases call_cases b.armio e with
    ⟨k', a, horder, hdone⟩ | ⟨hnone, hexpire, hcall⟩ | ⟨hnone, hother, hsame⟩
  · -- a command comes before the timer is due
    have hearly : ∀ t ∈ b.armio.tapTimer, e.now < t := by
      rwa [if_neg] at hwhen
      intro hexpire
      simp [Event.order, hexpire] at horder
    by_cases hk : k' = k
    · subst hk
      have hfor : e.orderFor k' = some (e.now, a) := by simp [Event.orderFor, horder]
      rw [hfor]
      refine hdone.stands (fun ha => ?_) fun ms ha => order_tap (ha ▸ horder)
      subst ha
      simpa [Alone, Spares, horder] using halone
    · have hfor : e.orderFor k = none := by simp [Event.orderFor, horder, hk]
      rw [hfor]
      refine hdone.stands_other hk (h k) hclock hearly fun ms ha => ?_
      subst ha
      unfold Alone at halone
      rw [horder] at halone
      exact halone k (Ne.symm hk)
  · have hfor : e.orderFor k = none := by simp [Event.orderFor, hnone]
    rw [if_pos hexpire] at hwhen
    obtain ⟨t, ht, hdue⟩ := hwhen
    rw [hfor, hcall]
    exact (h k).expire hclock ht hdue
  · have hfor : e.orderFor k = none := by simp [Event.orderFor, hnone]
    rw [if_neg hother] at hwhen
    rw [hfor]
    exact (h k).frame (hsame.down k) (hsame.pending k) hclock fun _ => ⟨hsame.timer, hwhen⟩

/-- A key that stands as its most recent command says is down when it should be. -/
theorem Stands.down_iff {es : List Event} (h : Stands b k (mostRecent k es)) :
    b.armio.down k ↔ Wanted k es b.clock := by
  unfold Wanted
  generalize mostRecent k es = r at h
  unfold Stands at h
  split at h
  · simp [h.1]
  · rcases h with ⟨hd, -, -, hbefore⟩ | ⟨hd, -, hover⟩
    · simp [hd, hbefore]
    · simp [hd, not_lt.mpr hover]
  · simp [h.1]
  · simp [h.1]

theorem start_stands (clock : Int) (k : Key) : Stands (start clock) k (mostRecent k []) := by
  show (start clock).armio.down k = false ∧ (start clock).armio.pending k = false
  simp [start, reset, down, pending, bitSet]

theorem trace_events (b : Board) (es : List Event) : machine.trace b es = es := by
  induction es generalizing b with
  | nil => rfl
  | cons e es ih =>
    rw [Machine.trace_cons, ih]
    rfl

def Untouched (b : Board) (e : Event) : Prop :=
  ∀ k k' a, e.order = some (k', a) → k' ≠ k → (b.armio.call e).down k = b.armio.down k

theorem untouched (b : Board) (e : Event) : Untouched b e := by
  intro k k' a horder hne
  rcases call_cases b.armio e with ⟨k'', a', horder', hdone⟩ | ⟨hnone, -⟩ | ⟨hnone, -⟩
  · rw [horder] at horder'
    cases horder'
    exact (hdone.other k hne).1
  · rw [horder] at hnone
    cases hnone
  · rw [horder] at hnone
    cases hnone

/-- **The keys follow their commands**, after every call: a key is down exactly when its most
recent command is a press, or a tap whose duration has not elapsed, and commands for other keys
leave it as it is. This needs that no key is tapped while another one's tap is pending, and none
is pressed while its own is. -/
theorem keys_follow_commands (clock : Int) (es : List Event)
    (h : machine.Along (fun b e => Timely b e ∧ Alone b e) (start clock) es) (k : Key) :
    ((machine.final (start clock) es).armio.down k = true
        ↔ Wanted k es (machine.final (start clock) es).clock) ∧
      machine.Along Untouched (start clock) es := by
  have hstands := Machine.history (M := machine)
    (I := fun os b => ∀ k, Stands b k (mostRecent k os))
    (fun os b e hb he => step_stands hb he.1 he.2) (start_stands clock) h
  rw [trace_events, List.nil_append] at hstands
  exact ⟨(hstands k).down_iff, h.mono fun b e _ => untouched b e⟩

def pressAfterExpiry : List Event :=
  [⟨0, .command (ascii "tap 5")⟩, ⟨150, .expire⟩, ⟨200, .command (ascii "press k10")⟩]

/-- The pressed key is down, the tapped one is up again. -/
theorem keys_follow_commands_tap :
    (machine.final (start 0) pressAfterExpiry).armio.down 10 = true ∧
      (machine.final (start 0) pressAfterExpiry).armio.down 11 = false := by
  have hrun : machine.Along (fun b e => Timely b e ∧ Alone b e) (start 0) pressAfterExpiry := by
    decide +kernel
  have hlast : mostRecent 10 pressAfterExpiry = some (200, .press) := by decide +kernel
  refine ⟨(keys_follow_commands 0 _ hrun 10).1.mpr ?_, by decide +kernel⟩
  simp only [Wanted, hlast]

def pressAfterTap : List Event :=
  [⟨0, .command (ascii "tap 5")⟩, ⟨50, .command (ascii "press 5")⟩, ⟨150, .expire⟩]

def tapAfterTap : List Event :=
  [⟨0, .command (ascii "tap 5 100")⟩, ⟨50, .command (ascii "tap 2")⟩, ⟨180, .read 0x0a⟩]

/-- A key pressed while its tap is pending is released with it; a second tap keeps the first
key down beyond its duration. -/
theorem keys_forget_commands :
    (machine.Along Timely (start 0) pressAfterTap ∧
      ¬ ((machine.final (start 0) pressAfterTap).armio.down 11 = true
        ↔ Wanted 11 pressAfterTap (machine.final (start 0) pressAfterTap).clock)) ∧
    (machine.Along Timely (start 0) tapAfterTap ∧
      ¬ ((machine.final (start 0) tapAfterTap).armio.down 11 = true
        ↔ Wanted 11 tapAfterTap (machine.final (start 0) tapAfterTap).clock)) := by
  have hpress : mostRecent 11 pressAfterTap = some (50, .press) := by decide +kernel
  have htap : mostRecent 11 tapAfterTap = some (0, .tap 100) := by decide +kernel
  refine ⟨⟨by decide +kernel, ?_⟩, ⟨by decide +kernel, ?_⟩⟩
  · simp only [Wanted, hpress]
    decide +kernel
  · simp only [Wanted, htap]
    decide +kernel

/-! ### What the firmware sees -/

/-- The line is at the level `armio_update_irq` would give it, and `keys` has bits of keys only. -/
structure Linked (s : Armio) : Prop where
  irq : s.irq = s.updateIrq.irq
  keys : ∀ i, 25 ≤ i → bitSet s.keys i = false

theorem Linked.setKey (h : s.Linked) (k : Key) (d : Bool) : (s.setKey k d).Linked := by
  have hkeys : ∀ i, 25 ≤ i → bitSet (s.setKey k d).keys i = false := by
    intro i hi
    have hne : k.val ≠ i := by omega
    have hold := h.keys i hi
    cases d <;> simp_all [bitSet, Armio.setKey, updateIrq]
  cases d <;> exact ⟨rfl, hkeys⟩

theorem Linked.tapExpire (h : s.Linked) : s.tapExpire.Linked := by
  have hloop : ∀ (bs : List Key) (t : Armio), t.Linked →
      (bs.foldl (tapRelease s.tapMask) t).Linked := by
    intro bs
    induction bs with
    | nil => exact fun t ht => ht
    | cons b bs ih =>
      intro t ht
      refine ih _ ?_
      unfold tapRelease
      split
      · exact ht.setKey b false
      · exact ht
  exact hloop _ _ ⟨h.irq, h.keys⟩

theorem Linked.call (h : s.Linked) (e : Event) : (s.call e).Linked := by
  obtain ⟨now, call⟩ := e
  cases call with
  | command line =>
    show (s.command now line).Linked
    unfold command
    split
    · rename_i k a _
      cases a with
      | press => exact h.setKey k true
      | release => exact h.setKey k false
      | tap ms => exact ⟨(h.setKey k true).irq, (h.setKey k true).keys⟩
    · exact h
  | input k d => exact h.setKey k d
  | expire => exact h.tapExpire
  | read offset => exact h
  | write offset value =>
    show (s.write offset value).Linked
    unfold write
    split <;> exact ⟨by first | rfl | exact h.irq, h.keys⟩

theorem Linked.keys_ne_zero (h : s.Linked) : s.keys ≠ 0 ↔ ∃ k, s.down k := by
  constructor
  · intro hne
    by_contra hnone
    refine hne (BitVec.eq_of_getLsbD_eq fun i _ => ?_)
    by_cases hi : i < 25
    · simpa [down, bitSet] using fun hset => hnone ⟨⟨i, hi⟩, hset⟩
    · simpa [bitSet] using h.keys i (by omega)
  · rintro ⟨k, hk⟩ hzero
    simp [down, bitSet, hzero] at hk

/-- A row reads low if a key of it is down in a driven column. -/
theorem read_row (s : Armio) {row : Nat} (hrow : row < 5) : bitSet (s.read 0x0a) row = false ↔
    ∃ k, s.down k ∧ k.val % 5 = row ∧ bitSet s.kbc (k.val / 5) = false := by
  have hmask : ∀ row < 5, (0x1F#32).getLsbD row := by decide
  have hloop : ∀ (cols : List Nat) (r : BitVec 32),
      bitSet (cols.foldl (fun r col =>
        if bitSet s.kbc col then r else r ||| ((s.keys >>> (col * 5)) &&& 0x1F)) r) row =
      (bitSet r row || cols.any fun col => !bitSet s.kbc col && bitSet s.keys (col * 5 + row)) := by
    intro cols
    induction cols with
    | nil => simp
    | cons col cols ih =>
      intro r
      rw [List.foldl_cons, ih, List.any_cons]
      cases hcol : bitSet s.kbc col with
      | true => simp
      | false => simp [bitSet, hmask row hrow, Bool.or_assoc]
  have hread : bitSet (s.read 0x0a) row = !bitSet s.rows row := by
    show ((~~~s.rows &&& 0x1F#32).setWidth 16).getLsbD row = _
    rw [BitVec.getLsbD_setWidth, BitVec.getLsbD_and, BitVec.getLsbD_not, hmask row hrow]
    simp [bitSet, show row < 16 by omega, show row < 32 by omega]
  have hzero : bitSet (0 : BitVec 32) row = false := BitVec.getLsbD_zero
  rw [hread, rows, hloop, hzero, Bool.false_or, Bool.not_eq_false', List.any_eq_true]
  simp only [List.mem_range, Bool.and_eq_true, Bool.not_eq_true']
  constructor
  · rintro ⟨col, hcol, hdriven, hkey⟩
    have hrowOf : (col * 5 + row) % 5 = row := by omega
    have hcolOf : (col * 5 + row) / 5 = col := by omega
    exact ⟨⟨col * 5 + row, by omega⟩, hkey, hrowOf, hcolOf.symm ▸ hdriven⟩
  · rintro ⟨k, hkey, rfl, hdriven⟩
    refine ⟨k.val / 5, by omega, hdriven, ?_⟩
    rwa [show k.val / 5 * 5 + k.val % 5 = k.val by omega]

/-- **The scan.** Whatever the calls, the line to the CPU is up exactly if a key is down, all columns
are driven and the source is not masked; and a row of KBR_LATCH reads low exactly if a key of it is
down in a column that is driven. -/
theorem keypad_scanned (clock : Int) (es : List Event) :
    let s := (machine.final (start clock) es).armio
    (s.irq ↔ (∃ k, s.down k) ∧ s.kbc &&& 0x1F = 0 ∧ bitSet s.gpioMaskit 0 = false) ∧
      ∀ row < 5, bitSet (s.read 0x0a) row = false ↔
        ∃ k, s.down k ∧ k.val % 5 = row ∧ bitSet s.kbc (k.val / 5) = false := by
  intro s
  have hlinked : s.Linked := Machine.invariant (I := fun b : Board => b.armio.Linked)
    (fun b e h _ => h.call e) ⟨rfl, fun i _ => by simp [start, reset, bitSet]⟩
    (Machine.along_true (M := machine) (start clock) es)
  refine ⟨?_, fun row hrow => read_row s hrow⟩
  rw [hlinked.irq, ← hlinked.keys_ne_zero]
  simp [updateIrq, and_assoc]

end Armio

end Qosmo
