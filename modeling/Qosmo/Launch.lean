import Qosmo.Sercomm.Trxc

/-!
# Qosmo.Launch

The supervision loop of `qosmo-launch` (`main` in `tools/qosmo-launch/qosmo-launch.c`).

The launcher starts QEMU with its output in a pipe, and reads the pipe until it is closed. A line
that announces the pty of the modem makes it start osmocon. Four signals have one handler, which
does no more than to store the number of the signal in `g_sig`; every turn of the loop looks at
`g_sig`, clears it, and either waits for the children that have ended or hands the signal on.

A signal can come between any two accesses to `g_sig`, and a child can end at any time, so the
program counter of the model stands at every one of these accesses (`Pc`). The scan of what was read
touches neither `g_sig` nor a child that is there, and is one step.

Two properties hold for every schedule: a signal goes only to a process that was not waited for
(`sent_owned`), and osmocon is started once at most (`started_le_one`). The third does not. `g_sig`
holds one signal, and a SIGCHLD that comes before the loop has taken a termination signal replaces
it; one that was taken already makes the loop clear a termination signal which has come in between.
From then on QEMU gets nothing until another signal comes (`signal_lost`). If neither happens, the
signal is handed on (`sent_due`).
-/

namespace Qosmo

open Machine

namespace Launch

/-- The signals `on_sig` is installed for. -/
inductive Sig where
  | int | term | hup | chld
  deriving Repr, DecidableEq

def Sig.terminates : Sig → Bool
  | .chld => false
  | _ => true

inductive Child where
  | qemu | osmocon
  deriving Repr, DecidableEq

/-- A child as the kernel has it. The pid of a zombie is its own until the launcher has waited for
it, and can be another's after that. -/
inductive Proc where
  | absent | alive | zombie | reaped
  deriving Repr, DecidableEq

/-- The pid belongs to the child. -/
def Proc.owned : Proc → Bool
  | .alive | .zombie => true
  | _ => false

/-- Where `main` stands. The loop goes from `check` to `read`; the rest is what follows it. -/
inductive Pc where
  /-- `if (g_sig)` -/
  | check
  /-- `int s = g_sig` -/
  | take
  /-- `g_sig = 0`, and the test of `s` -/
  | clear
  /-- `waitpid(-1, &st, WNOHANG)` -/
  | reap
  | killQemu
  | killOsmocon
  | read
  /-- `waitpid(g_qemu, &st, 0)` -/
  | waitQemu
  | killEnd
  /-- `waitpid(g_osmocon, NULL, 0)` -/
  | waitOsmocon
  | done
  deriving Repr, DecidableEq

end Launch

open Launch in
/-- The launcher and its children. `gQemu` and `gOsmocon` say whether `g_qemu` and `g_osmocon` hold
a pid. -/
structure Launch where
  pc : Pc := .check
  gSig : Option Sig := none
  s : Option Sig := none
  gQemu : Bool := true
  qemu : Proc := .alive
  gOsmocon : Bool := false
  osmocon : Proc := .absent
  /-- The line read so far, of which `ll` is the length. -/
  line : List Byte := []
  modemDone : Bool := false
  termSent : Nat := 0
  deriving Repr, DecidableEq

namespace Launch

/-- What can be seen from outside: a signal sent, with the state of the process it goes to, and a
start of osmocon. -/
inductive Obs where
  | sent (child : Child) (proc : Proc) (hard : Bool)
  | started
  deriving Repr, DecidableEq

/-- What `read` returns: an error, by a signal or another one, or the bytes it got. `forked` says
whether `spawn_osmocon` succeeds during the scan of the bytes. -/
inductive Read where
  | failed (eintr : Bool)
  | got (buf : List Byte) (forked : Bool)
  deriving Repr, DecidableEq

/-- The reads that end the loop. -/
def Read.leaves : Read → Bool
  | .failed eintr => !eintr
  | .got buf _ => buf.isEmpty

/-- A signal, the end of a child, or a step of the launcher. Where a step waits for any child, and
both have ended, `pick` is the one it gets. -/
inductive Event where
  | signal (sig : Sig)
  | exit (child : Child)
  | turn (pick : Child) (read : Read)
  deriving Repr, DecidableEq

/-! ### The lines of QEMU -/

open Sercomm (cString)

def strstr (needle : List Byte) : List Byte → Option (List Byte)
  | [] => if needle = [] then some [] else none
  | c :: rest =>
    if needle.isPrefixOf (c :: rest) then some (c :: rest) else strstr needle rest

/-- The label in a line such as `char device redirected to /dev/pts/3 (label serial0)`, to the end
of the line. -/
def label (line : List Byte) : Option (List Byte) := do
  let r ← strstr (ascii "redirected to ") (cString line)
  let sp := (r.drop 14).dropWhile (· != 0x20)
  let lab ← if sp = [] then none else strstr (ascii "label ") (sp.drop 1)
  return lab.drop 6

def isModem (line : List Byte) : Bool := (label line).any (ascii "serial0").isPrefixOf

/-- `g_osmocon = spawn_osmocon(…)`. -/
def spawnOsmocon (forked : Bool) (st : Launch) : Launch × List Obs :=
  if forked then ({ st with gOsmocon := true, osmocon := .alive }, [.started])
  else ({ st with gOsmocon := false }, [])

/-- One byte of what was read. `osmocon` is the option of this name. -/
def scanByte (osmocon forked : Bool) (st : Launch) (c : Byte) : Launch × List Obs :=
  if c = 10 then
    if isModem st.line && !st.modemDone then
      if osmocon then spawnOsmocon forked { st with modemDone := true, line := [] }
      else ({ st with modemDone := true, line := [] }, [])
    else ({ st with line := [] }, [])
  else if st.line.length + 1 < 4096 then ({ st with line := st.line ++ [c] }, [])
  else (st, [])

def scanner (osmocon forked : Bool) : Machine Launch Byte Obs where
  step := scanByte osmocon forked

/-! ### The launcher -/

def proc (st : Launch) : Child → Proc
  | .qemu => st.qemu
  | .osmocon => st.osmocon

def onSig (st : Launch) (sig : Sig) : Launch := { st with gSig := some sig }

/-- A child ends; the kernel sends a SIGCHLD. -/
def exit (st : Launch) (child : Child) : Launch :=
  if st.proc child = .alive then
    match child with
    | .qemu => { st.onSig .chld with qemu := .zombie }
    | .osmocon => { st.onSig .chld with osmocon := .zombie }
  else st

/-- The child `waitpid(-1, …, WNOHANG)` gives. -/
def waitAny (st : Launch) (pick : Child) : Option Child :=
  [pick, .qemu, .osmocon].find? fun child => st.proc child = .zombie

def forget (st : Launch) : Child → Launch
  | .qemu => { st with qemu := .reaped, gQemu := false }
  | .osmocon => { st with osmocon := .reaped, gOsmocon := false }

@[simp] theorem forget_pc (st : Launch) (child : Child) : (st.forget child).pc = st.pc := by
  cases child <;> rfl

@[simp] theorem forget_gSig (st : Launch) (child : Child) : (st.forget child).gSig = st.gSig := by
  cases child <;> rfl

/-- What `main` does at its program counter. -/
def turn (osmocon : Bool) (pick : Child) (read : Read) (st : Launch) : Launch × List Obs :=
  match st.pc with
  | .check => ({ st with pc := if st.gSig = none then .read else .take }, [])
  | .take => ({ st with pc := .clear, s := st.gSig }, [])
  | .clear =>
    ({ st with pc := if st.s = some .chld then .reap else .killQemu, gSig := none }, [])
  | .reap =>
    match st.waitAny pick with
    | some child => (st.forget child, [])
    | none => ({ st with pc := .read }, [])
  | .killQemu =>
    if st.gQemu then
      ({ st with pc := .killOsmocon, termSent := st.termSent + 1 },
        [.sent .qemu st.qemu (st.termSent != 0)])
    else ({ st with pc := .killOsmocon }, [])
  | .killOsmocon =>
    ({ st with pc := .read }, if st.gOsmocon then [.sent .osmocon st.osmocon false] else [])
  | .read =>
    if read.leaves then ({ st with pc := .waitQemu }, [])
    else
      match read with
      | .failed _ => ({ st with pc := .check }, [])
      | .got buf forked => (scanner osmocon forked).run { st with pc := .check } buf
  | .waitQemu =>
    if st.gQemu then
      if st.qemu = .zombie then ({ st.forget .qemu with pc := .killEnd }, []) else (st, [])
    else ({ st with pc := .killEnd }, [])
  | .killEnd =>
    if st.gOsmocon then ({ st with pc := .waitOsmocon }, [.sent .osmocon st.osmocon false])
    else ({ st with pc := .done }, [])
  | .waitOsmocon =>
    if st.osmocon = .zombie then ({ st.forget .osmocon with pc := .done }, [])
    else if read = .failed true then ({ st with gOsmocon := false, pc := .done }, [])
    else (st, [])
  | .done => (st, [])

/-- The launcher, its signals and its children. It starts when QEMU was started. -/
def machine (osmocon : Bool) : Machine Launch Event Obs where
  step st e :=
    match e with
    | .signal sig => (st.onSig sig, [])
    | .exit child => (st.exit child, [])
    | .turn pick read => st.turn osmocon pick read

/-! ### What a step can do -/

/-- What the scan can do: keep what it read, or note the modem and start osmocon. -/
inductive Scanned (st : Launch) : Launch × List Obs → Prop where
  | kept (line : List Byte) : Scanned st ({ st with line := line }, [])
  | noted (line : List Byte) (g : Bool) : st.modemDone = false → (g = true → st.gOsmocon = true) →
      Scanned st ({ st with line := line, modemDone := true, gOsmocon := g }, [])
  | spawned (line : List Byte) : st.modemDone = false →
      Scanned st ({ st with line := line, modemDone := true, gOsmocon := true, osmocon := .alive },
        [.started])

variable {osmocon forked : Bool} {st : Launch} {pick : Child} {read : Read}

theorem scanned_scanByte (st : Launch) (c : Byte) : Scanned st (scanByte osmocon forked st c) := by
  unfold scanByte spawnOsmocon
  split_ifs with hnl hmodem ho hf
  · exact .spawned [] (by simp_all)
  · exact .noted [] false (by simp_all) nofun
  · exact .noted [] st.gOsmocon (by simp_all) id
  · exact .kept []
  · exact .kept _
  · exact .kept st.line

/-- The modem is noted once, so a scan does no more than one of its bytes can. -/
theorem scanned_run (st : Launch) (buf : List Byte) :
    Scanned st ((scanner osmocon forked).run st buf) := by
  induction buf generalizing st with
  | nil => exact .kept st.line
  | cons c buf ih =>
    have hbyte : Scanned st ((scanner osmocon forked).step st c) := scanned_scanByte st c
    rw [Machine.run]
    have hrest := ih ((scanner osmocon forked).step st c).1
    generalize (scanner osmocon forked).step st c = r at hbyte hrest ⊢
    generalize (scanner osmocon forked).run r.1 buf = r' at hrest ⊢
    cases hbyte with
    | kept line =>
      cases hrest with
      | kept line' => exact .kept line'
      | noted line' g hdone hg => exact .noted line' g hdone hg
      | spawned line' hdone => exact .spawned line' hdone
    | noted line g hdone hg =>
      cases hrest with
      | kept line' => exact .noted line' g hdone hg
      | noted _ _ h | spawned _ h => cases h
    | spawned line hdone =>
      cases hrest with
      | kept line' => exact .spawned line' hdone
      | noted _ _ h | spawned _ h => cases h

/-- What a step of the launcher can do, line by line of `main`. -/
inductive Move (st : Launch) (read : Read) : Launch × List Obs → Prop where
  | idle : st.pc = .check → st.gSig = none → Move st read ({ st with pc := .read }, [])
  | woken : st.pc = .check → st.gSig ≠ none → Move st read ({ st with pc := .take }, [])
  | takes : st.pc = .take → Move st read ({ st with pc := .clear, s := st.gSig }, [])
  | child : st.pc = .clear → st.s = some .chld →
      Move st read ({ st with pc := .reap, gSig := none }, [])
  | terminate : st.pc = .clear → st.s ≠ some .chld →
      Move st read ({ st with pc := .killQemu, gSig := none }, [])
  | forgets (child : Child) : st.pc = .reap → st.proc child = .zombie →
      Move st read (st.forget child, [])
  | reaped : st.pc = .reap → Move st read ({ st with pc := .read }, [])
  | kills : st.pc = .killQemu → st.gQemu = true →
      Move st read ({ st with pc := .killOsmocon, termSent := st.termSent + 1 },
        [.sent .qemu st.qemu (st.termSent != 0)])
  | spares : st.pc = .killQemu → st.gQemu = false →
      Move st read ({ st with pc := .killOsmocon }, [])
  | killsOsmocon : st.pc = .killOsmocon → st.gOsmocon = true →
      Move st read ({ st with pc := .read }, [.sent .osmocon st.osmocon false])
  | sparesOsmocon : st.pc = .killOsmocon → st.gOsmocon = false →
      Move st read ({ st with pc := .read }, [])
  | interrupted : st.pc = .read → Move st read ({ st with pc := .check }, [])
  | scans (r : Launch × List Obs) : st.pc = .read → Scanned { st with pc := .check } r →
      Move st read r
  | leaves : st.pc = .read → read.leaves = true → Move st read ({ st with pc := .waitQemu }, [])
  | waited : st.pc = .waitQemu → st.qemu = .zombie →
      Move st read ({ st.forget .qemu with pc := .killEnd }, [])
  | gone : st.pc = .waitQemu → st.gQemu = false → Move st read ({ st with pc := .killEnd }, [])
  | ends : st.pc = .killEnd → st.gOsmocon = true →
      Move st read ({ st with pc := .waitOsmocon }, [.sent .osmocon st.osmocon false])
  | ended : st.pc = .killEnd → st.gOsmocon = false → Move st read ({ st with pc := .done }, [])
  | waitedOsmocon : st.pc = .waitOsmocon → st.osmocon = .zombie →
      Move st read ({ st.forget .osmocon with pc := .done }, [])
  | givesUp : st.pc = .waitOsmocon → Move st read ({ st with gOsmocon := false, pc := .done }, [])
  | stays : st.pc = .waitQemu ∨ st.pc = .waitOsmocon ∨ st.pc = .done → Move st read (st, [])

theorem move_turn (st : Launch) : Move st read (st.turn osmocon pick read) := by
  unfold turn
  cases hpc : st.pc with
  | check =>
    dsimp only
    split_ifs with hsig
    · exact .idle hpc hsig
    · exact .woken hpc hsig
  | take => exact .takes hpc
  | clear =>
    dsimp only
    split_ifs with hs
    · exact .child hpc hs
    · exact .terminate hpc hs
  | reap =>
    dsimp only
    split
    · next child hwait => exact .forgets child hpc (by simpa using List.find?_some hwait)
    · exact .reaped hpc
  | killQemu =>
    dsimp only
    split_ifs with hg
    · exact .kills hpc hg
    · exact .spares hpc (by simpa using hg)
  | killOsmocon =>
    dsimp only
    split_ifs with hg
    · exact .killsOsmocon hpc hg
    · exact .sparesOsmocon hpc (by simpa using hg)
  | read =>
    dsimp only
    split_ifs with hleaves
    · exact .leaves hpc hleaves
    · cases read with
      | failed => exact .interrupted hpc
      | got buf forked => exact .scans _ hpc (scanned_run _ buf)
  | waitQemu =>
    dsimp only
    split_ifs with hg hz
    · exact .waited hpc hz
    · exact .stays (.inl hpc)
    · exact .gone hpc (by simpa using hg)
  | killEnd =>
    dsimp only
    split_ifs with hg
    · exact .ends hpc hg
    · exact .ended hpc (by simpa using hg)
  | waitOsmocon =>
    dsimp only
    split_ifs with hz hr
    · exact .waitedOsmocon hpc hz
    · exact .givesUp hpc
    · exact .stays (.inr (.inl hpc))
  | done => exact .stays (.inr (.inr hpc))

/-- What the end of a child can do. -/
inductive Exited (st : Launch) : Launch → Prop where
  | qemu : st.qemu = .alive → Exited st { st with gSig := some .chld, qemu := .zombie }
  | osmocon : st.osmocon = .alive → Exited st { st with gSig := some .chld, osmocon := .zombie }
  | none : Exited st st

theorem exited_exit (st : Launch) (child : Child) : Exited st (st.exit child) := by
  unfold exit
  split_ifs with halive
  · cases child with
    | qemu => exact .qemu halive
    | osmocon => exact .osmocon halive
  · exact .none

/-! ### The pids -/

/-- A pid the launcher holds is that of its child, and it holds that of QEMU until it has waited for
it. -/
structure Wf (st : Launch) : Prop where
  qemu : st.gQemu = st.qemu.owned
  osmocon : st.gOsmocon = true → st.osmocon.owned = true
  modem : st.modemDone = false → st.osmocon = .absent

theorem wf_start : Wf {} := ⟨rfl, nofun, fun _ => rfl⟩

variable {r : Launch × List Obs}

theorem Scanned.wf (h : Scanned st r) (hwf : Wf st) : Wf r.1 := by
  cases h with
  | kept => exact ⟨hwf.qemu, hwf.osmocon, hwf.modem⟩
  | noted _ _ _ hg => exact ⟨hwf.qemu, fun h => hwf.osmocon (hg h), nofun⟩
  | spawned => exact ⟨hwf.qemu, fun _ => rfl, nofun⟩

theorem wf_forget (hwf : Wf st) (child : Child) (hz : st.proc child = .zombie) :
    Wf (st.forget child) := by
  cases child with
  | qemu => exact ⟨rfl, hwf.osmocon, hwf.modem⟩
  | osmocon =>
    refine ⟨hwf.qemu, nofun, fun h => ?_⟩
    have habsent : st.osmocon = .absent := hwf.modem h
    rw [show st.osmocon = .zombie from hz] at habsent
    cases habsent

variable {st' : Launch}

/-- The pids do not depend on where the launcher stands. -/
theorem Wf.congr (hwf : Wf st) (hq : st'.gQemu = st.gQemu) (hq' : st'.qemu = st.qemu)
    (ho : st'.gOsmocon → st.gOsmocon) (ho' : st'.osmocon = st.osmocon)
    (hm : st'.modemDone = st.modemDone) : Wf st' where
  qemu := by rw [hq, hq', hwf.qemu]
  osmocon h := by rw [ho']; exact hwf.osmocon (ho h)
  modem h := by rw [ho']; exact hwf.modem (hm ▸ h)

theorem Move.wf (h : Move st read r) (hwf : Wf st) : Wf r.1 := by
  cases h with
  | forgets child _ hz => exact wf_forget hwf child hz
  | scans _ _ hscan => exact hscan.wf (hwf.congr rfl rfl id rfl rfl)
  | waited _ hz => exact (wf_forget hwf .qemu hz).congr rfl rfl id rfl rfl
  | waitedOsmocon _ hz => exact (wf_forget hwf .osmocon hz).congr rfl rfl id rfl rfl
  | givesUp => exact hwf.congr rfl rfl nofun rfl rfl
  | stays => exact hwf
  | _ => exact hwf.congr rfl rfl id rfl rfl

theorem Exited.wf (h : Exited st st') (hwf : Wf st) : Wf st' := by
  cases h with
  | qemu halive =>
    have hg := hwf.qemu
    rw [halive] at hg
    exact ⟨hg, hwf.osmocon, hwf.modem⟩
  | osmocon halive =>
    refine ⟨hwf.qemu, fun _ => rfl, fun h => ?_⟩
    have habsent : st.osmocon = .absent := hwf.modem h
    rw [halive] at habsent
    cases habsent
  | none => exact hwf

theorem wf_step (st : Launch) (e : Event) (hwf : Wf st) : Wf ((machine osmocon).step st e).1 := by
  cases e with
  | signal sig => exact hwf.congr rfl rfl id rfl rfl
  | exit child => exact (exited_exit st child).wf hwf
  | turn pick read => exact (move_turn st).wf hwf

theorem wf_run (es : List Event) : Wf ((machine osmocon).final {} es) :=
  Machine.invariant (fun st e h _ => wf_step st e h) wf_start (along_true _ es)

/-! ### Every schedule -/

/-- The signal goes to a process whose pid is still its own. -/
def Obs.ToOwned : Obs → Prop
  | .sent _ proc _ => proc.owned = true
  | .started => True

theorem Move.toOwned (h : Move st read r) (hwf : Wf st) : ∀ o ∈ r.2, o.ToOwned := by
  cases h with
  | kills _ hg => simpa [Obs.ToOwned] using hwf.qemu.symm.trans hg
  | killsOsmocon _ hg | ends _ hg => simpa [Obs.ToOwned] using hwf.osmocon hg
  | scans _ _ hscan => cases hscan <;> simp [Obs.ToOwned]
  | _ => exact nofun

variable {es : List Event}

/-- No signal is sent to a pid that was waited for, or that is not there yet. -/
theorem sent_owned {child : Child} {proc : Proc} {hard : Bool}
    (h : .sent child proc hard ∈ (machine osmocon).trace {} es) : proc.owned := by
  refine trace_forall (I := Wf) (P := Obs.ToOwned) (fun st e hwf _ => wf_step st e hwf) ?_
    wf_start (along_true _ es) _ h
  intro st e hwf _
  cases e with
  | signal | exit => exact nofun
  | turn pick read => exact (move_turn st).toOwned hwf

/-- Osmocon was started once at most, and not before the modem was noted. -/
def Once (os : List Obs) (st : Launch) : Prop :=
  os.count .started ≤ st.modemDone.toNat

variable {os : List Obs}

theorem Scanned.once (h : Scanned st r) (honce : Once os st) : Once (os ++ r.2) r.1 := by
  unfold Once at honce ⊢
  cases h with
  | kept => simpa using honce
  | noted _ _ hdone =>
    rw [hdone] at honce
    simpa using honce.trans (Nat.zero_le 1)
  | spawned _ hdone =>
    rw [hdone] at honce
    simpa [List.count_append] using honce

theorem Move.once (h : Move st read r) (honce : Once os st) : Once (os ++ r.2) r.1 := by
  cases h with
  | scans _ _ hscan => exact hscan.once honce
  | forgets child => cases child <;> simpa [Once, forget] using honce
  | _ => simpa [Once, forget, List.count_append] using honce

theorem Exited.once (h : Exited st st') (honce : Once os st) : Once os st' := by
  cases h <;> exact honce

theorem started_le_one (es : List Event) : ((machine osmocon).trace {} es).count .started ≤ 1 := by
  have honce : Once ([] ++ (machine osmocon).trace {} es) ((machine osmocon).final {} es) := by
    refine Machine.history (I := Once) ?_ (Nat.zero_le _) (along_true _ es)
    intro os st e h _
    cases e with
    | signal sig => simpa [Once, machine, onSig] using h
    | exit child => simpa [machine] using (exited_exit st child).once h
    | turn pick read => exact (move_turn st).once h
  exact (show List.count _ _ ≤ _ from honce).trans (Bool.toNat_le _)

/-! ### A signal handed on -/

/-- The loop has taken a termination signal, and will hand it on in this turn. -/
def taken (st : Launch) : Bool :=
  st.pc == .killQemu || st.pc == .clear && st.s != some .chld

/-- The loop has taken a SIGCHLD, and will clear whatever has come after it. -/
def dropping (st : Launch) : Bool := st.pc == .clear && st.s == some .chld

/-- The launcher is in the loop, but not about to clear `g_sig`. -/
def waiting (st : Launch) : Bool :=
  match st.pc with
  | .check | .take | .reap | .killOsmocon | .read => true
  | _ => false

/-- QEMU will get a signal: one was taken, or one is there to be taken while QEMU is alive. -/
structure Due (st : Launch) : Prop where
  pid : st.gQemu = true
  coming : st.taken = true ∨
    st.waiting = true ∧ st.gSig.any Sig.terminates = true ∧ st.qemu = .alive

/-- No SIGCHLD comes while the signal is to be taken, and the loop is not left. -/
def Undisturbed (st : Launch) : Event → Prop
  | .signal sig => sig.terminates = true ∨ st.taken = true
  | .exit _ => st.taken = true
  | .turn _ read => st.pc = .read → read.leaves = false

instance (st : Launch) : (e : Event) → Decidable (st.Undisturbed e)
  | .signal _ => inferInstanceAs (Decidable (_ ∨ _))
  | .exit _ => inferInstanceAs (Decidable (_ = _))
  | .turn _ _ => inferInstanceAs (Decidable (_ → _))

/-- The children a turn of `reap` can still get. -/
def zombies (st : Launch) : Nat :=
  (decide (st.qemu = .zombie)).toNat + (decide (st.osmocon = .zombie)).toNat

/-- The steps to the one that sends the signal. -/
def stepsToKill (st : Launch) : Nat :=
  match st.pc with
  | .killQemu => 0
  | .clear => 1
  | .take => 2
  | .check => 3
  | .read => 4
  | .killOsmocon => 5
  | .reap => 5 + st.zombies
  | _ => 0

def Event.isTurn : Event → Bool
  | .turn _ _ => true
  | _ => false

def Obs.ToQemu : Obs → Prop
  | .sent child _ _ => child = .qemu
  | .started => False

theorem Scanned.due (h : Scanned { st with pc := .check } r)
    (hpid : st.gQemu) (hsig : st.gSig.any Sig.terminates)
    (halive : st.qemu = .alive) : Due r.1 ∧ r.1.stepsToKill = 3 := by
  cases h with
  | kept | noted | spawned => exact ⟨⟨hpid, .inr ⟨rfl, hsig, halive⟩⟩, rfl⟩

/-- A turn that ends a step nearer to the kill, or sends a signal to QEMU. -/
def Nearer (st : Launch) (r : Launch × List Obs) : Prop :=
  (∃ o ∈ r.2, o.ToQemu) ∨ Due r.1 ∧ r.1.stepsToKill + 1 ≤ st.stepsToKill

theorem Due.pending (hdue : Due st) (hw : st.waiting) :
    st.gSig.any Sig.terminates ∧ st.qemu = .alive := by
  rcases hdue.coming with h | h
  · unfold taken at h
    unfold waiting at hw
    cases hpc : st.pc <;> simp [hpc] at h hw
  · exact h.2

/-- While the signal waits, a step that leaves QEMU and `g_sig` alone and gets nearer is a good
one. -/
theorem Due.nearer (hdue : Due st) (hw : st.waiting)
    (hw' : st'.waiting) (hg : st'.gQemu = st.gQemu) (hsig : st'.gSig = st.gSig)
    (hq : st'.qemu = st.qemu) (hsteps : st'.stepsToKill + 1 ≤ st.stepsToKill) :
    Nearer st (st', os) := by
  obtain ⟨hterm, halive⟩ := hdue.pending hw
  exact .inr ⟨⟨hg.trans hdue.pid, .inr ⟨hw', hsig ▸ hterm, hq.trans halive⟩⟩, hsteps⟩

theorem Move.due (h : Move st read r) (hdue : Due st)
    (hstays : st.pc = .read → read.leaves = false) : Nearer st r := by
  have hcoming := hdue.coming
  cases h with
  | idle hpc hsig => simp [taken, hpc, hsig] at hcoming
  | woken hpc | reaped hpc | killsOsmocon hpc | sparesOsmocon hpc | interrupted hpc =>
    exact hdue.nearer (by simp [waiting, hpc]) rfl rfl rfl rfl (by simp [stepsToKill, hpc])
  | takes hpc =>
    obtain ⟨hterm, -⟩ := hdue.pending (by simp [waiting, hpc])
    have htaken : st.gSig ≠ some .chld := fun h => by simp [h, Sig.terminates] at hterm
    exact .inr ⟨⟨hdue.pid, .inl (by simpa [taken] using htaken)⟩, by simp [stepsToKill, hpc]⟩
  | child hpc hs => simp [taken, waiting, hpc, hs] at hcoming
  | terminate hpc =>
    exact .inr ⟨⟨hdue.pid, .inl rfl⟩, by simp [stepsToKill, hpc]⟩
  | forgets child hpc hz =>
    have hw : st.waiting := by simp [waiting, hpc]
    have halive := (hdue.pending hw).2
    cases child with
    | qemu => simp [proc, halive] at hz
    | osmocon =>
      refine hdue.nearer hw (by simp [waiting, forget, hpc]) rfl rfl rfl ?_
      simp [stepsToKill, zombies, forget, hpc, halive, show st.osmocon = .zombie from hz]
  | kills => exact .inl ⟨_, List.mem_singleton_self _, rfl⟩
  | spares _ hg =>
    rw [hdue.pid] at hg
    cases hg
  | scans r hpc hscan =>
    obtain ⟨hterm, halive⟩ := hdue.pending (by simp [waiting, hpc])
    obtain ⟨hdue', hsteps⟩ := hscan.due hdue.pid hterm halive
    refine .inr ⟨hdue', ?_⟩
    rw [hsteps]
    simp [stepsToKill, hpc]
  | leaves hpc hleaves =>
    rw [hstays hpc] at hleaves
    cases hleaves
  | stays hpc => rcases hpc with hpc | hpc | hpc <;> simp [taken, waiting, hpc] at hcoming
  -- what follows the loop
  | waited hpc | gone hpc | ends hpc | ended hpc | waitedOsmocon hpc | givesUp hpc =>
    simp [taken, waiting, hpc] at hcoming

/-- A child that ends when the signal was taken changes nothing. -/
theorem Exited.due (h : Exited st st') (hdue : Due st) (ht : st.taken) :
    Due st' ∧ st'.stepsToKill ≤ st.stepsToKill := by
  have hsame : st'.taken = st.taken ∧ st'.gQemu = st.gQemu ∧ st'.pc = st.pc := by
    cases h <;> exact ⟨rfl, rfl, rfl⟩
  obtain ⟨htaken, hpid, hpc⟩ := hsame
  refine ⟨⟨hpid.trans hdue.pid, .inl (htaken.trans ht)⟩, ?_⟩
  unfold taken at ht
  unfold stepsToKill
  cases h' : st.pc <;> simp [hpc, h'] at ht ⊢

variable {sig : Sig}

theorem due_onSig (hdue : Due st) (h : sig.terminates ∨ st.taken) :
    Due (st.onSig sig) := by
  refine ⟨hdue.pid, ?_⟩
  rcases hdue.coming with ht | ⟨hw, -, halive⟩
  · exact .inl ht
  · rcases h with hterm | ht
    · exact .inr ⟨hw, hterm, halive⟩
    · exact .inl ht

/-- A termination signal that QEMU is due to get is handed on in at most eight steps of the loop,
whatever else happens, if no SIGCHLD comes before it is taken and the loop is not left. -/
theorem sent_due (hdue : Due st)
    (hC : (machine osmocon).Along Undisturbed st es) (hturns : 8 ≤ es.countP Event.isTurn) :
    ∃ o ∈ (machine osmocon).trace st es, o.ToQemu := by
  have hsteps : st.stepsToKill < es.countP Event.isTurn := by
    have hz : st.zombies ≤ 2 := Nat.add_le_add (Bool.toNat_le _) (Bool.toNat_le _)
    unfold stepsToKill
    split <;> omega
  refine Machine.progress (I := Due) stepsToKill Event.isTurn ?_ hdue hC hsteps
  intro st e hdue hund
  cases e with
  | signal sig => exact .inr ⟨due_onSig hdue hund, Nat.le_refl _⟩
  | exit child => exact .inr ((exited_exit st child).due hdue hund)
  | turn pick read => exact (move_turn st).due hdue hund

def inLoop (st : Launch) : Bool :=
  match st.pc with
  | .waitQemu | .killEnd | .waitOsmocon | .done => false
  | _ => true

theorem due_of_alive (hwf : Wf st) (hloop : st.inLoop)
    (halive : st.qemu = .alive) (hterm : sig.terminates) (hkeep : st.dropping = false) :
    Due (st.onSig sig) := by
  have hpid : st.gQemu := by rw [hwf.qemu, halive]; rfl
  refine ⟨hpid, ?_⟩
  have hwhere : st.taken ∨ st.waiting := by
    unfold inLoop at hloop
    unfold dropping at hkeep
    unfold taken waiting
    cases hpc : st.pc <;> simp_all
  rcases hwhere with ht | hw
  · exact .inl ht
  · exact .inr ⟨hw, hterm, halive⟩

/-- **The supervision loop.** Under every schedule no signal goes to a pid that was waited for, and
osmocon is started once at most. A termination signal that comes in the loop while QEMU is alive
makes the next turns send QEMU a signal, if it does not come between the two accesses to `g_sig` of
a turn that takes a SIGCHLD, and no child ends before it is taken. -/
theorem supervision (osmocon : Bool) (es : List Event) :
    (∀ child proc hard, .sent child proc hard ∈ (machine osmocon).trace {} es →
      proc.owned = true) ∧
    ((machine osmocon).trace {} es).count .started ≤ 1 ∧
    ∀ (sig : Sig) (after : List Event), sig.terminates = true →
      ((machine osmocon).final {} es).inLoop = true →
      ((machine osmocon).final {} es).qemu = .alive →
      ((machine osmocon).final {} es).dropping = false →
      (machine osmocon).Along Undisturbed (((machine osmocon).final {} es).onSig sig) after →
      8 ≤ after.countP Event.isTurn →
      ∃ proc hard, .sent .qemu proc hard ∈
        (machine osmocon).trace (((machine osmocon).final {} es).onSig sig) after := by
  refine ⟨fun _ _ _ h => sent_owned h, started_le_one es, ?_⟩
  intro sig after hterm hloop halive hkeep hC hturns
  have hdue := due_of_alive (wf_run es) hloop halive hterm hkeep
  obtain ⟨o, ho, hqemu⟩ := sent_due hdue hC hturns
  cases o with
  | sent child proc hard =>
    obtain rfl : child = .qemu := hqemu
    exact ⟨proc, hard, ho⟩
  | started => cases hqemu

/-- A SIGHUP that comes while the launcher waits for QEMU's output, with QEMU alive and a second
signal behind it. -/
theorem supervision_hup :
    ∃ proc hard, .sent .qemu proc hard ∈ (machine true).trace
      (((machine true).final {} [.turn .qemu (.failed true)]).onSig .hup)
      (.signal .int :: List.replicate 8 (.turn .qemu (.failed true))) :=
  (supervision true [.turn .qemu (.failed true)]).2.2 .hup _ rfl rfl rfl rfl (by decide) (by decide)

/-! ### A signal lost -/

/-- No termination signal is on its way to QEMU. -/
structure Quiet (st : Launch) : Prop where
  pc : st.pc ≠ .killQemu
  sig : st.gSig = none ∨ st.gSig = some .chld
  take : st.pc = .take → st.gSig = some .chld
  clear : st.pc = .clear → st.s = some .chld

def Event.terminates : Event → Bool
  | .signal sig => sig.terminates
  | _ => false

/-- Away from the accesses to `g_sig` it is enough that no termination signal is in it. -/
theorem quiet_of_pc (hsig : st.gSig = none ∨ st.gSig = some .chld) (hpc : st.pc ≠ .killQemu)
    (htake : st.pc ≠ .take) (hclear : st.pc ≠ .clear) : Quiet st :=
  ⟨hpc, hsig, fun h => absurd h htake, fun h => absurd h hclear⟩

theorem Scanned.quiet {r : Launch × List Obs} (h : Scanned { st with pc := .check } r)
    (hsig : st.gSig = none ∨ st.gSig = some .chld) : Quiet r.1 ∧ ∀ o ∈ r.2, ¬ o.ToQemu := by
  cases h with
  | kept | noted => exact ⟨quiet_of_pc hsig nofun nofun nofun, nofun⟩
  | spawned => exact ⟨quiet_of_pc hsig nofun nofun nofun, by simp [Obs.ToQemu]⟩

theorem Move.quiet {r : Launch × List Obs} (h : Move st read r) (hquiet : Quiet st) :
    Quiet r.1 ∧ ∀ o ∈ r.2, ¬ o.ToQemu := by
  have hsig := hquiet.sig
  cases h with
  | woken hpc hset =>
    have hchld := hsig.resolve_left hset
    exact ⟨⟨nofun, hsig, fun _ => hchld, nofun⟩, nofun⟩
  | takes hpc => exact ⟨⟨nofun, hsig, nofun, fun _ => hquiet.take hpc⟩, nofun⟩
  | child => exact ⟨quiet_of_pc (.inl rfl) nofun nofun nofun, nofun⟩
  | terminate hpc hs => exact absurd (hquiet.clear hpc) hs
  | forgets child hpc =>
    refine ⟨?_, nofun⟩
    apply quiet_of_pc <;> simp [hpc, hsig]
  | kills hpc | spares hpc => exact absurd hpc hquiet.pc
  | killsOsmocon | ends => exact ⟨quiet_of_pc hsig nofun nofun nofun, by simp [Obs.ToQemu]⟩
  | scans _ _ hscan => exact hscan.quiet hsig
  | stays => exact ⟨hquiet, nofun⟩
  | _ => exact ⟨quiet_of_pc hsig nofun nofun nofun, nofun⟩

theorem Exited.quiet {st' : Launch} (h : Exited st st') (hquiet : Quiet st) : Quiet st' := by
  cases h with
  | qemu | osmocon => exact ⟨hquiet.pc, .inr rfl, fun _ => rfl, hquiet.clear⟩
  | none => exact hquiet

/-- A child that ends before the loop has taken the signal makes the launcher forget it. -/
theorem quiet_exit {child : Child} (hw : st.waiting) (halive : st.proc child = .alive) :
    Quiet (st.exit child) := by
  unfold waiting at hw
  have hpc : st.pc ≠ .killQemu ∧ st.pc ≠ .clear := by
    constructor <;> intro h <;> simp [h] at hw
  unfold exit
  rw [if_pos halive]
  cases child with
  | qemu | osmocon => exact ⟨hpc.1, .inr rfl, fun _ => rfl, fun h => absurd h hpc.2⟩

/-- A signal that comes when the loop has taken a SIGCHLD is cleared with it. -/
theorem quiet_dropped (hdrop : st.dropping) :
    Quiet ((st.onSig sig).turn osmocon pick read).1 := by
  obtain ⟨hpc, hs⟩ : st.pc = .clear ∧ st.s = some .chld := by simpa [dropping] using hdrop
  simp only [turn, onSig, hpc, hs]
  exact quiet_of_pc (.inl rfl) nofun nofun nofun

/-- Without another termination signal QEMU gets none, for all that the launcher goes on. -/
theorem sent_quiet (hquiet : Quiet st) (hes : ∀ e ∈ es, e.terminates = false) :
    ∀ o ∈ (machine osmocon).trace st es, ¬ o.ToQemu := by
  refine trace_forall (I := Quiet) ?_ ?_ hquiet (along_of_forall hes st)
  · intro st e hquiet he
    cases e with
    | signal sig =>
      cases sig with
      | chld => exact ⟨hquiet.pc, .inr rfl, fun _ => rfl, hquiet.clear⟩
      | _ => cases he
    | exit child => exact (exited_exit st child).quiet hquiet
    | turn pick read => exact ((move_turn st).quiet hquiet).1
  · intro st e hquiet _
    cases e with
    | signal | exit => exact nofun
    | turn pick read => exact ((move_turn st).quiet hquiet).2

/-- The two ways in which a termination signal is lost: a child ends before it is taken, or it comes
between the two accesses to `g_sig` of a turn that takes a SIGCHLD. -/
theorem signal_lost (sig : Sig) {rest : List Event} (hrest : ∀ e ∈ rest, e.terminates = false) :
    (∀ child, st.waiting → st.proc child = .alive →
      ∀ o ∈ (machine osmocon).trace (st.onSig sig) (.exit child :: rest), ¬ o.ToQemu) ∧
    (∀ pick read, st.dropping →
      ∀ o ∈ (machine osmocon).trace (st.onSig sig) (.turn pick read :: rest), ¬ o.ToQemu) := by
  constructor
  · intro child hw halive o ho
    have halive' : (st.onSig sig).proc child = .alive := by cases child <;> exact halive
    have hquiet : Quiet ((st.onSig sig).exit child) := quiet_exit hw halive'
    rw [trace_cons] at ho
    exact sent_quiet hquiet hrest o ho
  · intro pick read hdrop o ho
    obtain ⟨hpc, -⟩ : st.pc = .clear ∧ st.s = some .chld := by simpa [dropping] using hdrop
    have hnone : ((machine osmocon).step (st.onSig sig) (.turn pick read)).2 = [] := by
      simp [machine, turn, onSig, hpc]
    rw [trace_cons, hnone] at ho
    exact sent_quiet (quiet_dropped hdrop) hrest o ho

/-- The line with which QEMU announces the pty of the modem. -/
def modemLine : List Byte := ascii "char device redirected to /dev/pts/3 (label serial0)" ++ [10]

/-- A launcher that has started osmocon, and waits for more of QEMU's output. -/
def supervising : List Event :=
  [.turn .qemu (.failed true), .turn .qemu (.got modemLine true), .turn .qemu (.failed true)]

/-- The launcher gets a SIGTERM while it waits for QEMU's output, and osmocon ends before it has
looked at `g_sig`: the SIGTERM is lost, and QEMU goes on. -/
theorem sigterm_lost :
    ((machine true).final {} supervising).inLoop = true ∧
    ((machine true).final {} supervising).qemu = .alive ∧
    ((machine true).final {} supervising).dropping = false ∧
    ∀ rest : List Event, (∀ e ∈ rest, e.terminates = false) →
      ∀ proc hard, .sent .qemu proc hard ∉ (machine true).trace
        (((machine true).final {} supervising).onSig .term) (.exit .osmocon :: rest) := by
  have hstate : (machine true).final {} supervising =
      { pc := .read, gOsmocon := true, osmocon := .alive, modemDone := true } := by decide +kernel
  rw [hstate]
  refine ⟨rfl, rfl, rfl, fun rest hrest proc hard hsent => ?_⟩
  exact (signal_lost .term hrest).1 .osmocon rfl rfl _ hsent rfl

end Launch

end Qosmo
