import SixFiveOhTwo.Commands.Hosting

/-! # The prompt (`console.py`)

`interact` reads lines and executes them until one of them quits or there are no more. It raises nothing; a line
that fails leaves only its complaint in the output, so the lines that do not fail do the same alone
(`interact_returns`); and all they do to the processor, a host does (`interact_drove`).
-/

namespace SixFiveOhTwo
open Bits Interaction Raising
set_option autoImplicit false

/-- What `interact` leaves: what it raised, if anything, what it wrote, the lines it has not read, the console. -/
structure Interacted (σ : Type) where
  raised : Option Complaint
  written : String
  unread : List String
  console : Console σ

namespace CommandDebugger
variable {σ : Type} (lang : Language) (H : Host σ) (chip : Chip)

/-- A line of output. -/
def writeLine (text : String) : String := text ++ "\n"

/-- `interact`: `readline` returns the lines, one after another, and then the empty string. -/
def interact (prompt : String) : List String → String → Console σ → Interacted σ
  | [], written, console => ⟨none, written ++ prompt, [], console⟩
  | line :: lines, written, console =>
    let written := written ++ prompt
    if line = "" then ⟨none, written, lines, console⟩
    else
      match (execute lang H chip line).on console with
      | (.error (.commandError text), console) =>
        interact prompt lines (written ++ writeLine ("error: " ++ text)) console
      | (.error raised, console) => ⟨some raised, written, lines, console⟩
      | (.ok result, console) =>
        let written := written ++ String.join (result.lines.map writeLine)
        if result.quit then ⟨none, written, lines, console⟩ else interact prompt lines written console

/-- Lines executed one after another: what each of them gives, and the console they leave. -/
def executeAll : List String → Console σ → List (Except Complaint CommandResult) × Console σ
  | [], console => ([], console)
  | line :: lines, console =>
    let (outcome, console) := (execute lang H chip line).on console
    let (outcomes, console) := executeAll lines console
    (outcome :: outcomes, console)

/-- What is written of a line that gives this. -/
def answer : Except Complaint CommandResult → String
  | .ok result => String.join (result.lines.map writeLine)
  | .error (.commandError text) => writeLine ("error: " ++ text)
  | .error _ => ""

/-- Whether the prompt ends at a line that gives this. -/
def quits : Except Complaint CommandResult → Bool
  | .ok result => result.quit
  | .error _ => false

section
variable {lang H chip} {console console' : Console σ} (prompt : String)

theorem executeAll_cons {line : String} {outcome : Except Complaint CommandResult}
    (hon : (execute lang H chip line).on console = (outcome, console')) (lines : List String) :
    executeAll lang H chip (line :: lines) console =
      (outcome :: (executeAll lang H chip lines console').1, (executeAll lang H chip lines console').2) := by
  rw [executeAll, hon]

theorem interact_failed {line text : String} (hline : line ≠ "")
    (hon : (execute lang H chip line).on console = (.error (.commandError text), console')) (lines : List String)
    (written : String) : interact lang H chip prompt (line :: lines) written console =
      interact lang H chip prompt lines (written ++ prompt ++ writeLine ("error: " ++ text)) console' := by
  rw [interact]
  dsimp only
  rw [if_neg hline, hon]

theorem interact_returned {line : String} {result : CommandResult} (hline : line ≠ "")
    (hon : (execute lang H chip line).on console = (.ok result, console')) (lines : List String) (written : String) :
    interact lang H chip prompt (line :: lines) written console =
      if result.quit then
        ⟨none, written ++ prompt ++ String.join (result.lines.map writeLine), lines, console'⟩
      else interact lang H chip prompt lines (written ++ prompt ++ String.join (result.lines.map writeLine)) console' := by
  rw [interact]
  dsimp only
  rw [if_neg hline, hon]

variable (lang H chip)

/-- On a good processor the lines that fail do so with a `CommandError`, and might as well not be there. -/
theorem executeAll_obeyed (lines : List String) (hgood : console.Good) :
    let ran := executeAll lang H chip lines console
    let obeyed := (lines.zip ran.1).filter fun entry => entry.2.isOk
    (∀ raised, .error raised ∈ ran.1 → ∃ text, raised = .commandError text) ∧
      executeAll lang H chip (obeyed.map Prod.fst) console = (obeyed.map Prod.snd, ran.2) := by
  induction lines generalizing console with
  | nil => exact ⟨nofun, rfl⟩
  | cons line lines ih =>
    rcases execute_atomic lang H chip line console hgood with
      ⟨result, console', hon, hgood'⟩ | ⟨raised, console', hon, rfl, text, rfl⟩
    · obtain ⟨hfails, hobeyed⟩ := ih hgood'
      rw [executeAll_cons hon]
      refine ⟨fun raised hmem => hfails raised ?_, ?_⟩
      · exact (List.mem_cons.mp hmem).resolve_left nofun
      · rw [List.zip_cons_cons, List.filter_cons_of_pos rfl, List.map_cons, executeAll_cons hon, hobeyed]
        rfl
    · obtain ⟨hfails, hobeyed⟩ := ih hgood
      rw [executeAll_cons hon]
      refine ⟨fun raised hmem => ?_, ?_⟩
      · rcases List.mem_cons.mp hmem with heq | hmem
        · exact ⟨text, Except.error.inj heq⟩
        · exact hfails raised hmem
      · rw [List.zip_cons_cons, List.filter_cons_of_neg Bool.false_ne_true]
        exact hobeyed

/-- What a prompt leaves that has executed the lines in `read`, and why it read no more. -/
structure Prompted (lines read : List String) (written : String) (console : Console σ) (done : Interacted σ) : Prop where
  raised : done.raised = none
  leaves : done.console = (executeAll lang H chip read console).2
  nonempty : ∀ line ∈ read, line ≠ ""
  ended : let outcomes := (executeAll lang H chip read console).1
    let answered := written ++ String.join (outcomes.map fun outcome => prompt ++ answer outcome)
    (∃ init last, outcomes = init ++ [last] ∧ (∀ outcome ∈ init, quits outcome = false) ∧ quits last = true ∧
        lines = read ++ done.unread ∧ done.written = answered) ∨
      (∀ outcome ∈ outcomes, quits outcome = false) ∧
        (lines = read ∧ done.unread = [] ∨ lines = read ++ "" :: done.unread) ∧ done.written = answered ++ prompt

/-- A line that does not quit comes before the others. -/
theorem Prompted.cons {line : String} {lines read : List String} {written : String} {done : Interacted σ}
    {outcome : Except Complaint CommandResult} (hline : line ≠ "")
    (hon : (execute lang H chip line).on console = (outcome, console')) (hquits : quits outcome = false)
    (h : Prompted lang H chip prompt lines read (written ++ prompt ++ answer outcome) console' done) :
    Prompted lang H chip prompt (line :: lines) (line :: read) written console done := by
  obtain ⟨hraised, hleaves, hnonempty, hended⟩ := h
  have hanswered (outcomes : List (Except Complaint CommandResult)) :
      written ++ prompt ++ answer outcome ++ String.join (outcomes.map fun outcome => prompt ++ answer outcome) =
        written ++ String.join ((outcome :: outcomes).map fun outcome => prompt ++ answer outcome) := by
    rw [List.map_cons, String.join_cons]
    simp only [String.append_assoc]
  refine ⟨hraised, ?_, List.forall_mem_cons.mpr ⟨hline, hnonempty⟩, ?_⟩
  · rw [executeAll_cons hon]
    exact hleaves
  · rw [executeAll_cons hon]
    dsimp only at hended ⊢
    rw [hanswered] at hended
    rcases hended with ⟨init, last, houtcomes, hinit, hlast, hlines, hwritten⟩ | ⟨hall, hlines, hwritten⟩
    · refine .inl ⟨outcome :: init, last, ?_, List.forall_mem_cons.mpr ⟨hquits, hinit⟩, hlast, ?_, hwritten⟩
      · rw [houtcomes]
        rfl
      · exact congrArg (line :: ·) hlines
    · refine .inr ⟨List.forall_mem_cons.mpr ⟨hquits, hall⟩, ?_, hwritten⟩
      exact hlines.imp (fun h => ⟨congrArg (line :: ·) h.1, h.2⟩) (congrArg (line :: ·))

theorem Prompted.nil {lines unread : List String} (h : lines = [] ∧ unread = [] ∨ lines = "" :: unread)
    (written : String) :
    Prompted lang H chip prompt lines [] written console ⟨none, written ++ prompt, unread, console⟩ where
  raised := rfl
  leaves := rfl
  nonempty := by simp
  ended := .inr ⟨by simp [executeAll], h, by simp [executeAll]⟩

theorem interact_prompted (lines : List String) (written : String) (hgood : console.Good) :
    ∃ read, Prompted lang H chip prompt lines read written console
      (interact lang H chip prompt lines written console) := by
  induction lines generalizing written console with
  | nil => exact ⟨[], .nil lang H chip prompt (.inl ⟨rfl, rfl⟩) written⟩
  | cons line lines ih =>
    by_cases hline : line = ""
    · subst hline
      exact ⟨[], .nil lang H chip prompt (.inr rfl) written⟩
    · rcases execute_atomic lang H chip line console hgood with
        ⟨result, console', hon, hgood'⟩ | ⟨raised, console', hon, rfl, text, rfl⟩
      · rw [interact_returned prompt hline hon]
        by_cases hquit : result.quit = true
        · rw [if_pos hquit]
          refine ⟨[line], rfl, ?_, List.forall_mem_singleton.mpr hline, .inl ⟨[], .ok result, ?_, nofun, hquit, rfl, ?_⟩⟩
          · rw [executeAll_cons hon]
            rfl
          · rw [executeAll_cons hon]
            rfl
          · rw [executeAll_cons hon]
            simp [executeAll, answer, String.append_assoc]
        · rw [if_neg hquit]
          obtain ⟨read, hread⟩ := ih (written ++ prompt ++ String.join (result.lines.map writeLine)) hgood'
          exact ⟨line :: read, hread.cons lang H chip prompt hline hon (Bool.not_eq_true _ ▸ hquit)⟩
      · rw [interact_failed prompt hline hon]
        obtain ⟨read, hread⟩ := ih (written ++ prompt ++ writeLine ("error: " ++ text)) hgood
        exact ⟨line :: read, hread.cons lang H chip prompt hline hon rfl⟩

/-- What a prompt does, a host does. -/
theorem interact_drives (lines : List String) (written : String) (hgood : console.Good) :
    console.Drives H chip (interact lang H chip prompt lines written console).console := by
  induction lines generalizing written console with
  | nil => exact Std.Refl.refl console
  | cons line lines ih =>
    by_cases hline : line = ""
    · subst hline
      exact Std.Refl.refl console
    · have hdrives : console.Drives H chip ((execute lang H chip line).on console).2 :=
        execute_drives H chip lang line console
      rcases execute_atomic lang H chip line console hgood with
        ⟨result, console', hon, hgood'⟩ | ⟨raised, console', hon, rfl, text, rfl⟩
      · rw [hon] at hdrives
        rw [interact_returned prompt hline hon]
        split
        · exact hdrives
        · exact Trans.trans hdrives (ih _ hgood')
      · rw [interact_failed prompt hline hon]
        exact ih _ hgood

end

/-! ## At every prompt -/

/-- **The prompt never falls over.** Whatever was done with a constructed processor and its sessions, whatever is
typed: `interact` raises nothing, and executes the lines one after another up to the end of its input, or to an
empty line, or to one that quits and including it. It answers each of them, and those that fail, all with a
`CommandError`, do nothing else: the others give and leave the same without them. -/
theorem interact_returns (readByte writeByte : Callable) (host : σ) (uses : List (Usage σ))
    (session : DebugSession (Driven σ)) (prompt : String) (lines : List String) :
    let b := (Usage.act lang H chip).final { machine := .start readByte writeByte host } uses
    let console : Console σ := ⟨session, { machine := b.machine }⟩
    let done := interact lang H chip prompt lines "" console
    ∃ read, Prompted lang H chip prompt lines read "" console done ∧
      let ran := executeAll lang H chip read console
      let obeyed := (read.zip ran.1).filter fun entry => entry.2.isOk
      (∀ raised, .error raised ∈ ran.1 → ∃ text, raised = .commandError text) ∧
        executeAll lang H chip (obeyed.map Prod.fst) console = (obeyed.map Prod.snd, done.console) := by
  intro b console done
  have hgood : console.Good := Usage.final_good lang H chip readByte writeByte host uses
  obtain ⟨read, hread⟩ := interact_prompted lang H chip prompt lines "" hgood
  refine ⟨read, hread, ?_⟩
  rw [hread.leaves]
  exact executeAll_obeyed lang H chip read hgood

/-- **A prompt is a host.** Whatever was done with a constructed processor and its sessions, whatever is typed at a
session's prompt: a host without a debugger that steps the processor, calls it and sets its registers, as often and
in the order that the prompt did, sees the same steps and leaves the same processor and memory; the session has one
record of each of these steps and has booked them; and it is otherwise the session it was, breakpoints and
watchpoints apart. -/
theorem interact_drove (readByte writeByte : Callable) (host : σ) (uses : List (Usage σ))
    (session : DebugSession (Driven σ)) (prompt : String) (lines : List String) :
    let b := (Usage.act lang H chip).final { machine := .start readByte writeByte host } uses
    let console : Console σ := ⟨session, { machine := b.machine }⟩
    ∃ actions records, console.Drove H chip (interact lang H chip prompt lines "" console).console actions records := by
  intro b console
  have hgood : console.Good := Usage.final_good lang H chip readByte writeByte host uses
  exact interact_drives lang H chip prompt lines "" hgood hgood

end CommandDebugger

end SixFiveOhTwo
