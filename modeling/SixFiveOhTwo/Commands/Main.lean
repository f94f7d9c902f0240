import SixFiveOhTwo.Commands.Prompt
import SixFiveOhTwo.Halting.Jam

/-! # The program (`__main__.py`)

`main` puts the images it is given into a memory of zeros, starts a processor on it under a session that tracks,
executes the commands it is given, and then reads lines. Either it exits before there is a processor, or the
processor starts on the images and nothing is raised any more (`CommandLine.main_boots`).
-/

namespace SixFiveOhTwo
open Bits Interaction Raising
set_option autoImplicit false

namespace CommandLine

/-- Where images come from: files, and files in archives; or what reading one raises. -/
structure Disk where
  file : String → Except String (List Byte)
  member : String → String → Except String (List Byte)

/-- How `main` may end early: by a `SystemExit`, by what reading an image raised, or by anything else. -/
inductive Exit
  | systemExit (text : String)
  | disk (text : String)
  | raised (complaint : Complaint)

/-- The arguments, as they are parsed. -/
structure Arguments where
  load : List String := []
  zip : List String := []
  pc : String := "0"
  reset : Bool := false
  command : List String := []
  batch : Bool := false

/-- `str.rpartition`, without the separator: what is before its last place, and what is after it. -/
def rpartition (separator : Char) (text : String) : String × String :=
  let after := text.toList.reverse.takeWhile (· ≠ separator)
  (String.ofList (text.toList.take (text.length - after.length - 1)), String.ofList after.reverse)

/-- Bytes for a place in the memory. -/
structure Image where
  data : List Byte
  address : ℕ
  fits : address + data.length ≤ 0x10000

section
variable (lang : Language) (repr : String → String) (disk : Disk)

/-- The bytes of an image. -/
def contents (spec source : String) (zipped : Bool) : Except Exit (List Byte) :=
  if zipped then
    let (archive, member) := rpartition ':' source
    if archive = "" then .error (.systemExit (repr spec ++ ": give --zip as ZIPFILE:MEMBER@ADDRESS"))
    else (disk.member archive member).mapError .disk
  else (disk.file source).mapError .disk

/-- `_image`. -/
def image (spec : String) (zipped : Bool) : Except Exit Image :=
  let (source, location) := rpartition '@' spec
  if source = "" then .error (.systemExit (repr spec ++ ": give the load address as FILE@ADDRESS"))
  else
    match parseNumber lang location "load address" (some 0xFFFF) with
    | .error text => .error (.systemExit (repr spec ++ ": " ++ text))
    | .ok address =>
      match contents repr disk spec source zipped with
      | .error exit => .error exit
      | .ok data =>
        if h : address + data.length ≤ 0x10000 then .ok ⟨data, address, h⟩
        else .error (.systemExit (repr spec ++ ": " ++ toString data.length ++ " bytes do not fit at 0x" ++ hex 4 address))

/-- `memory[address : address + len(data)] = data`. -/
def Image.load (image : Image) (memory : ℕ → Byte) (address : ℕ) : Byte :=
  if image.address ≤ address then image.data.getD (address - image.address) (memory address) else memory address

/-- The loop over the images. -/
def images : List (String × Bool) → (ℕ → Byte) → Except Exit (ℕ → Byte)
  | [], memory => .ok memory
  | (spec, zipped) :: specs, memory =>
    match image lang repr disk spec zipped with
    | .error exit => .error exit
    | .ok image => images specs (image.load memory)

/-- The images in the order they are loaded. -/
def Arguments.specs (args : Arguments) : List (String × Bool) :=
  args.load.map (·, false) ++ args.zip.map (·, true)

/-- A session that tracks, on a processor that starts at an address of a memory. -/
def started (memory : ℕ → Byte) (pc : ℕ) : Console (ℕ → Byte) :=
  let machine := Machine.start (.host 0) (.host 0) memory
  let machine := { machine with cpu := machine.cpu.setRegister pc .pc }
  let bench := Bench.attach { peekByte := some fun memory => memory, trackAccesses := true } { machine }
  ⟨(bench.sessions.head?).getD { id := 0 }, { machine := bench.machine }⟩

/-- `cpu.request_reset()` and `session.step()`. -/
def resetStep : Executing (ℕ → Byte) StepRecord := do
  CommandDebugger.call .flat mos6502 .requestReset
  CommandDebugger.step .flat mos6502

/-- What there is when the commands begin. -/
def boot (args : Arguments) : Except Exit (Console (ℕ → Byte)) :=
  match images lang repr disk args.specs fun _ => 0 with
  | .error exit => .error exit
  | .ok memory =>
    match parseNumber lang args.pc "pc" (some 0xFFFF) with
    | .error text => .error (.systemExit ("--pc: " ++ text))
    | .ok pc =>
      if args.reset then
        match resetStep.on (started memory pc) with
        | (.error complaint, _) => .error (.raised complaint)
        | (.ok _, console) => .ok console
      else .ok (started memory pc)

end

/-- The loop over the commands, and whether one of them quits. -/
def commands (lang : Language) : List String → String → Console (ℕ → Byte) → Interacted (ℕ → Byte) × Bool
  | [], written, console => (⟨none, written, [], console⟩, false)
  | command :: rest, written, console =>
    let written := written ++ CommandDebugger.writeLine ("6502> " ++ command)
    match (CommandDebugger.execute lang .flat mos6502 command).on console with
    | (.error (.commandError text), console) =>
      commands lang rest (written ++ CommandDebugger.writeLine ("error: " ++ text)) console
    | (.error raised, console) => (⟨some raised, written, rest, console⟩, false)
    | (.ok result, console) =>
      let written := written ++ String.join (result.lines.map CommandDebugger.writeLine)
      if result.quit then (⟨none, written, rest, console⟩, true) else commands lang rest written console

/-- What `main` leaves: what ended it early, what it wrote, and the console once there is one. -/
structure Outcome where
  exit : Option Exit
  written : String
  console : Option (Console (ℕ → Byte))

/-- What is left of a prompt. -/
def Outcome.of (done : Interacted (ℕ → Byte)) : Outcome := ⟨done.raised.map .raised, done.written, some done.console⟩

/-- `main`, with the lines of its input. -/
def main (lang : Language) (repr : String → String) (disk : Disk) (args : Arguments) (input : List String) : Outcome :=
  match boot lang repr disk args with
  | .error exit => ⟨some exit, "", none⟩
  | .ok console =>
    let (ran, quit) := commands lang (["registers", "disassemble"] ++ args.command) "" console
    if ran.raised.isSome ∨ quit ∨ args.batch then .of ran
    else .of (CommandDebugger.interact lang .flat mos6502 "6502> " input ran.written ran.console)

/-! ## Images -/

/-- The byte an image has for an address. -/
def Image.byte (image : Image) (address : ℕ) : Option Byte :=
  if image.address ≤ address then image.data[address - image.address]? else none

/-- The byte that the last of the images that has one has for an address. -/
def newest (placed : List Image) (address : ℕ) : Option Byte :=
  placed.reverse.findSome? fun image => image.byte address

theorem Image.load_eq (image : Image) (memory : ℕ → Byte) (address : ℕ) :
    image.load memory address = (image.byte address).getD (memory address) := by
  rw [Image.load, Image.byte]
  split
  · rw [List.getD_eq_getElem?_getD]
  · rfl

theorem newest_cons (image : Image) (placed : List Image) (address : ℕ) :
    newest (image :: placed) address = (newest placed address).or (image.byte address) := by
  rw [newest, newest, List.reverse_cons, List.findSome?_append, List.findSome?_singleton]

section
variable {lang : Language} {repr : String → String} {disk : Disk} {specs : List (String × Bool)}

theorem images_ok {memory memory' : ℕ → Byte} (h : images lang repr disk specs memory = .ok memory') :
    ∃ placed, List.Forall₂ (fun spec image => CommandLine.image lang repr disk spec.1 spec.2 = .ok image) specs placed ∧
      ∀ address, memory' address = (newest placed address).getD (memory address) := by
  induction specs generalizing memory with
  | nil => exact ⟨[], .nil, fun address => congrFun (Except.ok.inj h).symm address⟩
  | cons spec specs ih =>
    rw [images] at h
    cases himage : CommandLine.image lang repr disk spec.1 spec.2 with
    | error exit =>
      rw [himage] at h
      cases h
    | ok image =>
      rw [himage] at h
      obtain ⟨placed, hplaced, hmemory⟩ := ih h
      refine ⟨image :: placed, .cons himage hplaced, fun address => ?_⟩
      rw [hmemory, newest_cons, Image.load_eq]
      cases newest placed address <;> rfl

theorem images_error {memory : ℕ → Byte} {exit : Exit} (h : images lang repr disk specs memory = .error exit) :
    ∃ spec ∈ specs, CommandLine.image lang repr disk spec.1 spec.2 = .error exit := by
  induction specs generalizing memory with
  | nil => cases h
  | cons spec specs ih =>
    rw [images] at h
    cases himage : CommandLine.image lang repr disk spec.1 spec.2 with
    | error other =>
      rw [himage] at h
      exact ⟨spec, List.mem_cons_self, Except.error.inj h ▸ himage⟩
    | ok image =>
      rw [himage] at h
      obtain ⟨other, hmem, hother⟩ := ih h
      exact ⟨other, List.mem_cons_of_mem _ hmem, hother⟩

end

/-! ## Starting -/

theorem started_good (memory : ℕ → Byte) {pc : ℕ} (hpc : pc ≤ 0xFFFF) : (started memory pc).Good := by
  have hstart : Driven.Good { machine := Machine.start (.host 0) (.host 0) memory } :=
    ⟨⟨.init _ _, rfl⟩, Machine.start_fit _ _ memory⟩
  have hconsole : Console.Good ⟨{ id := 0 }, { machine := Machine.start (.host 0) (.host 0) memory }⟩ := hstart
  have hpc' : pc ≤ Register.pc.maximum := hpc
  have hset := (Console.Drove.setRegister .flat mos6502 hconsole hpc').good
  have hattach := Usage.bench_good .flat mos6502 (.attach { peekByte := some fun memory => memory, trackAccesses := true })
    { machine := { Machine.start (.host 0) (.host 0) memory with
      cpu := (Machine.start (.host 0) (.host 0) memory).cpu.setRegister pc .pc } } hset
  exact hattach

theorem started_core (memory : ℕ → Byte) (pc : ℕ) :
    (started memory pc).cpu.machine.host = memory ∧ (started memory pc).cpu.machine.cpu.core = { pc } := ⟨rfl, rfl⟩

theorem acceptReset_flat (g : Flat) : Code.acceptReset.OnFlat
    (fun _ g' => g'.memory = g.memory ∧ g'.core = g.core.restarted (g.memory 0xFFFC) (g.memory 0xFFFD)) g := by
  simp [Code.acceptReset, Code.resetStackCycle, Core.restarted, stackDown]

/-- A pending reset starts a processor through the vector, and leaves a flat memory. -/
theorem step_reset_flat {m : Machine (ℕ → Byte)} (hr : m.cpu.Routed) (hpending : m.cpu.poll.resetPending = true) :
    (m.step .flat mos6502).2.host = m.host ∧
      (m.step .flat mos6502).2.cpu.core = m.cpu.core.restarted (m.host 0xFFFC) (m.host 0xFFFD) := by
  obtain ⟨-, -, -, hplain, -⟩ := Machine.step_plain .flat mos6502 hr
  have hb : m.opened.boundary = .reset := by simp [SixFiveOhTwo.boundary, Machine.opened, Machine.plain, hpending]
  have hdecided : m.opened.decided = m.opened := by rw [Plain.decided, hb]; rfl
  rw [Machine.stepRun, Plain.exec_step, Plain.ran, hb, hdecided] at hplain
  obtain ⟨hmemory, hcore⟩ := Plain.exec_onFlat (acceptReset_flat m.opened.flat)
  exact ⟨(congrArg Plain.host hplain).trans hmemory, (congrArg Plain.core hplain).trans hcore⟩

theorem resetStep_on {console : Console (ℕ → Byte)} (hgood : console.Good) :
    ∃ record console', resetStep.on console = (.ok record, console') ∧ console'.Good ∧
      console'.cpu.machine.host = console.cpu.machine.host ∧ console'.cpu.machine.cpu.core =
        console.cpu.machine.cpu.core.restarted (console.cpu.machine.host 0xFFFC) (console.cpu.machine.host 0xFFFD) := by
  obtain ⟨requested, hrequested⟩ : ∃ d, d = console.cpu.act .flat mos6502 (.call .requestReset) := ⟨_, rfl⟩
  have hcalled : (⟨console.session, requested⟩ : Console (ℕ → Byte)).Good :=
    hrequested ▸ (Console.Drove.call .flat mos6502 hgood .requestReset).good
  have hready : (requested.ready console.session).machine.cpu = requested.machine.cpu := requested.ready_cpu _
  have hpending : (requested.ready console.session).machine.cpu.poll.resetPending = true := by
    rw [hready, hrequested]
    exact congrArg Poll.resetPending (Call.apply_poll .requestReset console.cpu.machine.cpu)
  have hmemory : (requested.ready console.session).machine.host = console.cpu.machine.host := by
    rw [hrequested, Driven.ready]
    split <;> rfl
  have hcore : (requested.ready console.session).machine.cpu.core = console.cpu.machine.cpu.core := by
    rw [hready, hrequested]
    exact Call.apply_core .requestReset console.cpu.machine.cpu
  obtain ⟨record, hstep, -⟩ := Driven.session_returns .flat mos6502 console.session requested hcalled.1 hcalled.2
  obtain ⟨_, _, hstep', hdrove⟩ := Console.Drove.step .flat mos6502 hcalled
  obtain ⟨hhost, hrestarted⟩ := step_reset_flat (hready ▸ hcalled.2.1) hpending
  rw [hstep] at hstep'
  cases hstep'
  refine ⟨record, _, ?_, hdrove.good, hhost.trans hmemory, ?_⟩
  · have hon : resetStep.on console = (CommandDebugger.step .flat mos6502).on ⟨console.session, requested⟩ := by
      rw [hrequested]
      rfl
    rw [hon, CommandDebugger.step, on_of]
    dsimp only
    rw [hstep]
    rfl
  · refine hrestarted.trans ?_
    rw [hcore, hmemory]

/-- The registers a processor starts its program with. -/
def Arguments.core (args : Arguments) (pc : ℕ) (memory : ℕ → Byte) : Core :=
  if args.reset then ({ pc } : Core).restarted (memory 0xFFFC) (memory 0xFFFD) else { pc }

section
variable {lang : Language} {repr : String → String} {disk : Disk} {args : Arguments}

theorem boot_ok {start : Console (ℕ → Byte)} (h : boot lang repr disk args = .ok start) :
    start.Good ∧ ∃ placed pc,
      List.Forall₂ (fun spec image => CommandLine.image lang repr disk spec.1 spec.2 = .ok image) args.specs placed ∧
      parseNumber lang args.pc "pc" (some 0xFFFF) = .ok pc ∧
      (∀ address, start.cpu.machine.host address = (newest placed address).getD 0) ∧
      start.cpu.machine.cpu.core = args.core pc start.cpu.machine.host := by
  rw [boot] at h
  cases himages : images lang repr disk args.specs fun _ => 0 with
  | error exit =>
    rw [himages] at h
    cases h
  | ok memory =>
    rw [himages] at h
    dsimp only at h
    obtain ⟨placed, hplaced, hmemory⟩ := images_ok himages
    cases hpc : parseNumber lang args.pc "pc" (some 0xFFFF) with
    | error text =>
      rw [hpc] at h
      cases h
    | ok pc =>
      rw [hpc] at h
      dsimp only at h
      have hgood := started_good memory (parseNumber_le hpc _ rfl)
      obtain ⟨hhost, hcore⟩ := started_core memory pc
      by_cases hreset : args.reset = true
      · obtain ⟨record, console', hon, hgood', hhost', hcore'⟩ := resetStep_on hgood
        rw [if_pos hreset, hon] at h
        obtain rfl := Except.ok.inj h
        refine ⟨hgood', placed, pc, hplaced, rfl, fun address => ?_, ?_⟩
        · rw [hhost', hhost]
          exact hmemory address
        · rw [Arguments.core, if_pos hreset, hcore', hhost', hcore]
      · rw [if_neg hreset] at h
        obtain rfl := Except.ok.inj h
        refine ⟨hgood, placed, pc, hplaced, rfl, fun address => ?_, ?_⟩
        · rw [hhost]
          exact hmemory address
        · rw [Arguments.core, if_neg hreset, hcore]

/-- Where there is no processor, an image or the address to start at was refused. -/
theorem boot_error {exit : Exit} (h : boot lang repr disk args = .error exit) :
    (∃ spec ∈ args.specs, CommandLine.image lang repr disk spec.1 spec.2 = .error exit) ∨
      ∃ text, parseNumber lang args.pc "pc" (some 0xFFFF) = .error text ∧ exit = .systemExit ("--pc: " ++ text) := by
  rw [boot] at h
  cases himages : images lang repr disk args.specs fun _ => 0 with
  | error other =>
    rw [himages] at h
    exact .inl (Except.error.inj h ▸ images_error himages)
  | ok memory =>
    rw [himages] at h
    dsimp only at h
    cases hpc : parseNumber lang args.pc "pc" (some 0xFFFF) with
    | error text =>
      rw [hpc] at h
      exact .inr ⟨text, rfl, (Except.error.inj h).symm⟩
    | ok pc =>
      rw [hpc] at h
      dsimp only at h
      obtain ⟨record, console', hon, -⟩ := resetStep_on (started_good memory (parseNumber_le hpc _ rfl))
      rw [hon] at h
      split at h <;> cases h

end

/-! ## The commands, and the prompt -/

theorem commands_drives (lang : Language) (texts : List String) (written : String) {console : Console (ℕ → Byte)}
    (hgood : console.Good) : (commands lang texts written console).1.raised = none ∧
      console.Drives .flat mos6502 (commands lang texts written console).1.console := by
  induction texts generalizing written console with
  | nil => exact ⟨rfl, Std.Refl.refl console⟩
  | cons text texts ih =>
    have hdrives : console.Drives .flat mos6502 ((CommandDebugger.execute lang .flat mos6502 text).on console).2 :=
      CommandDebugger.execute_drives .flat mos6502 lang text console
    rw [commands]
    rcases CommandDebugger.execute_atomic lang .flat mos6502 text console hgood with
      ⟨result, console', hon, hgood'⟩ | ⟨raised, console', hon, rfl, complaint, rfl⟩
    · rw [hon] at hdrives ⊢
      dsimp only
      split
      · exact ⟨rfl, hdrives⟩
      · obtain ⟨hraised, hrest⟩ := ih _ hgood'
        exact ⟨hraised, Trans.trans hdrives hrest⟩
    · rw [hon]
      exact ih _ hgood

/-- **The program boots right.** Whatever the arguments, the images and the lines it reads: either it ends before
there is a processor, because an image or the address to start at was refused, and has written nothing; or the
memory holds, at every address, the byte of the last image that has one there, and else zero; the processor starts
with the registers of a constructed one at the address given or, with `--reset`, through the vector in the images;
and from then on nothing is raised, and all that is done to the processor a host could do. -/
theorem main_boots (lang : Language) (repr : String → String) (disk : Disk) (args : Arguments) (input : List String) :
    let done := main lang repr disk args input
    (∃ exit, done = ⟨some exit, "", none⟩ ∧
        ((∃ spec ∈ args.specs, image lang repr disk spec.1 spec.2 = .error exit) ∨
          ∃ text, parseNumber lang args.pc "pc" (some 0xFFFF) = .error text ∧ exit = .systemExit ("--pc: " ++ text))) ∨
      ∃ (placed : List Image) (pc : ℕ) (start console' : Console (ℕ → Byte)),
        List.Forall₂ (fun spec placed => image lang repr disk spec.1 spec.2 = .ok placed) args.specs placed ∧
        parseNumber lang args.pc "pc" (some 0xFFFF) = .ok pc ∧
        (∀ address, start.cpu.machine.host address = (newest placed address).getD 0) ∧
        start.cpu.machine.cpu.core = args.core pc start.cpu.machine.host ∧
        done.exit = none ∧ done.console = some console' ∧
        ∃ actions records, start.Drove .flat mos6502 console' actions records := by
  intro done
  have hdone : done = main lang repr disk args input := rfl
  rw [main] at hdone
  cases hboot : boot lang repr disk args with
  | error exit =>
    rw [hboot] at hdone
    exact .inl ⟨exit, hdone, boot_error hboot⟩
  | ok start =>
    obtain ⟨hgood, placed, pc, hplaced, hpc, hmemory, hcore⟩ := boot_ok hboot
    obtain ⟨hraised, hdrives⟩ := commands_drives lang (["registers", "disassemble"] ++ args.command) "" hgood
    rw [hboot] at hdone
    dsimp only at hdone
    split at hdone
    · refine .inr ⟨placed, pc, start, _, hplaced, hpc, hmemory, hcore, ?_, congrArg Outcome.console hdone, hdrives hgood⟩
      rw [hdone, Outcome.of, hraised]
      rfl
    · obtain ⟨actions, records, hdrove⟩ := hdrives hgood
      obtain ⟨read, hread⟩ := CommandDebugger.interact_prompted lang .flat mos6502 "6502> " input
        (commands lang (["registers", "disassemble"] ++ args.command) "" start).1.written hdrove.good
      have hrest := CommandDebugger.interact_drives lang .flat mos6502 "6502> " input
        (commands lang (["registers", "disassemble"] ++ args.command) "" start).1.written hdrove.good hdrove.good
      obtain ⟨actions', records', hdrove'⟩ := hrest
      refine .inr ⟨placed, pc, start, _, hplaced, hpc, hmemory, hcore, ?_, congrArg Outcome.console hdone, _, _,
        hdrove.trans hdrove'⟩
      rw [hdone, Outcome.of, hread.raised]
      rfl

end CommandLine

end SixFiveOhTwo
