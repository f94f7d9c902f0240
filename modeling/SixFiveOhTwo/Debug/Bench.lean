import SixFiveOhTwo.Debug.Session
import SixFiveOhTwo.Machine.Run

/-! # Sessions attached to a processor

A tracking session puts its wrappers around the bus callables and takes them off when it is closed. A
`Bench` is a machine with the sessions attached to it so far, newest first; a schedule of `Command`s
attaches sessions, drives them, closes them, and acts on the processor in between.
-/

namespace SixFiveOhTwo
open Interaction
set_option autoImplicit false

/-- The `ValueError` of a snapshot of registers that do not fit. -/
def Core.complaint (core : Core) : String :=
  let require (name : String) (value maximum : ℕ) : Option String :=
    let width := if maximum = 0xFF then 2 else 4
    if value ≤ maximum then none
    else some (name ++ " must be an integer in range 0x" ++ String.ofList (List.replicate width '0') ++ "..0x" ++
      hex width maximum)
  let checks := [
    require "a" core.a 0xFF, require "x" core.x 0xFF, require "y" core.y 0xFF, require "s" core.s 0xFF,
    require "p" core.p 0xFF, require "pc" core.pc 0xFFFF]
  (checks.findSome? id).getD "p must have bit 5 set and B (bit 4) clear"

/-! ## A processor as a target -/

/-- A machine under a session's command, with what was done on it and what that showed. -/
structure Driven (σ : Type) where
  machine : Machine σ
  done : List (Action σ) := []
  shown : List Event := []

namespace Driven
variable {σ : Type} (H : Host σ) (chip : Chip)

def act (action : Action σ) (d : Driven σ) : Driven σ where
  machine := (Machine.act H chip action d.machine).2
  done := d.done ++ [action]
  shown := d.shown ++ [(Machine.act H chip action d.machine).1]

/-- `capture_state` on the machine. -/
def captureState (d : Driven σ) : Except String CPUState :=
  match d.machine.cpu.captureState with
  | some state => .ok state
  | none => .error d.machine.cpu.core.complaint

/-- A session's list emptied. -/
def clear (session : ℕ) (d : Driven σ) : Driven σ :=
  { d with machine := { d.machine with logs := Function.update d.machine.logs session [] } }

/-- The processor as a session drives it. -/
def target : Target (Driven σ) where
  step d := ((d.machine.step H chip).1.cycles, d.act H chip .step)
  captureState
  accesses session d := d.machine.logs session
  clear

end Driven

/-! ## Attaching and closing -/

namespace Machine
variable {σ : Type}

/-- `_wrap_bus`, with a new list for the session's wrappers. -/
def wrapBus (session : ℕ) (m : Machine σ) : Machine σ :=
  let originals := (m.cpu.bus.readByte, m.cpu.bus.writeByte)
  { m with
    cpu := (m.cpu.setReadByte (.tracked session originals.1)).setWriteByte (.tracked session originals.2)
    logs := Function.update m.logs session [] }

/-- `_unwrap_bus`. -/
def unwrapBus (originals : Callable × Callable) (m : Machine σ) : Machine σ :=
  { m with cpu := (m.cpu.setReadByte originals.1).setWriteByte originals.2 }

end Machine

/-- What a session is attached with. -/
structure Options (σ : Type) where
  peekByte : Option (σ → ℕ → Byte) := none
  historyLimit : ℕ := 256
  trackAccesses : Bool := false

/-- A machine with the sessions attached to it so far, newest first, and the next session's number. -/
structure Bench (σ : Type) where
  machine : Machine σ
  sessions : List (DebugSession (Driven σ)) := []
  next : ℕ := 0

namespace Bench
variable {σ : Type}

/-- `DebugSession(cpu, ...)`. -/
def attach (options : Options σ) (b : Bench σ) : Bench σ where
  machine := if options.trackAccesses then b.machine.wrapBus b.next else b.machine
  sessions := {
    id := b.next
    peekByte := options.peekByte.map fun peek d => peek d.machine.host
    historyLimit := options.historyLimit
    originals := if options.trackAccesses then some (b.machine.cpu.bus.readByte, b.machine.cpu.bus.writeByte)
      else none } :: b.sessions
  next := b.next + 1

/-- The newest session that tracks, no longer tracking, and the callables it wrapped. -/
def untracked {τ : Type} : List (DebugSession τ) → Option ((Callable × Callable) × List (DebugSession τ))
  | [] => none
  | session :: sessions =>
    match session.originals with
    | some originals => some (originals, { session with originals := none } :: sessions)
    | none => (untracked sessions).map fun rest => (rest.1, session :: rest.2)

/-- `close` on the newest session that tracks; on one that does not, it does nothing. -/
def close (b : Bench σ) : Bench σ :=
  match untracked b.sessions with
  | some (originals, sessions) => { b with machine := b.machine.unwrapBus originals, sessions }
  | none => b

/-- The numbers of the sessions that track, newest first. -/
def trackingIds {τ : Type} (sessions : List (DebugSession τ)) : List ℕ :=
  (sessions.filter DebugSession.tracking).map DebugSession.id

def tracking (b : Bench σ) : List ℕ := trackingIds b.sessions

end Bench

/-! ## Schedules -/

/-- What is asked of one session. -/
inductive SessionCommand
  | step
  | run (maxSteps : ℤ) (maxCycles : Option ℤ) (stopOnHalt : Bool)
  | addBreakpoint (address : ℤ)
  | removeBreakpoint (address : ℤ)
  | addWatchpoint (address : ℤ) (kind : Watch)
  | removeWatchpoint (address : ℤ)
  | clearHistory

/-- What is done at a boundary: an action on the processor, a session attached, the session at this
place driven, the newest session that tracks closed. -/
inductive Command (σ : Type)
  | act (action : Action σ)
  | attach (options : Options σ)
  | session (place : ℕ) (command : SessionCommand)
  | close

/-- What a command shows: the action of its own; or what a session did on the processor, whether it
tracked, and its records. -/
inductive Shown (σ : Type)
  | acted (action : Action σ) (event : Event)
  | drove (tracked : Bool) (actions : List (Action σ)) (events : List Event) (records : List StepRecord)
  | wired

namespace Shown
variable {σ : Type}

/-- What was done on the processor. -/
def actions : Shown σ → List (Action σ)
  | acted action _ => [action]
  | drove _ actions _ _ => actions
  | wired => []

/-- What that showed. -/
def events : Shown σ → List Event
  | acted _ event => [event]
  | drove _ _ events _ => events
  | wired => []

end Shown

namespace SessionCommand
variable {τ : Type} (T : Target τ)

/-- The records a command makes, the session and the target after it. -/
def perform (session : DebugSession τ) (t : τ) : SessionCommand → List StepRecord × DebugSession τ × τ
  | step =>
    match session.step T t with
    | (.ok record, session, t) => ([record], session, t)
    | (.error _, session, t) => ([], session, t)
  | run maxSteps maxCycles stopOnHalt =>
    let ran := session.run T maxSteps maxCycles stopOnHalt t
    (ran.records, ran.session, ran.target)
  | addBreakpoint address => ([], session.addBreakpoint address, t)
  | removeBreakpoint address => ([], session.removeBreakpoint address, t)
  | addWatchpoint address kind => ([], session.addWatchpoint address kind, t)
  | removeWatchpoint address => ([], session.removeWatchpoint address, t)
  | clearHistory => ([], session.clearHistory, t)

end SessionCommand

namespace Bench
variable {σ : Type} (H : Host σ) (chip : Chip)

/-- The effect of a command. -/
def act : System (Command σ) (Bench σ) (Shown σ)
  | .act action, b =>
    (.acted action (Machine.act H chip action b.machine).1,
      { b with machine := (Machine.act H chip action b.machine).2 })
  | .attach options, b => (.wired, b.attach options)
  | .close, b => (.wired, b.close)
  | .session place command, b =>
    match b.sessions[place]? with
    | none => (.wired, b)
    | some session =>
      let done := command.perform (Driven.target H chip) session { machine := b.machine }
      (.drove session.tracking done.2.2.done done.2.2.shown done.1,
        { b with machine := done.2.2.machine, sessions := b.sessions.set place done.2.1 })

end Bench

end SixFiveOhTwo
