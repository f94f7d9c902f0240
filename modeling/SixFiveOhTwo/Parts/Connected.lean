import SixFiveOhTwo.Parts.Disconnected

/-! # While D is clear, the adder does not see whether it is connected

The two parts run one code but for the D bit that six handlers show the adder. With D clear they show it
the same, so that the parts make the same step, and the same run as long as D is clear before each step.
-/

namespace SixFiveOhTwo
open Bits Interaction Code
set_option autoImplicit false

/-- A part whose adder sees D. -/
def Chip.connected (chip : Chip) : Chip := { chip with decimalMode := flagD }

/-- A part whose adder does not. -/
def Chip.disconnected (chip : Chip) : Chip := { chip with decimalMode := 0 }

namespace Machine
variable {σ : Type} (H : Host σ)

/-- What is seen of a machine. -/
def sighted (m : Machine σ) : Sight := { core := m.cpu.core, trace := m.trace.map HostCall.access }

theorem handle_respects_sight : Tree.Respects (handle H) sighted sight := by
  intro op m
  cases op with
  | read address =>
    obtain ⟨callable, value, calls, host, logs, -, -, h⟩ := busRead_eq H address m
    simp [handle, h, sight, sighted, called, Sight.saw]
  | write address value =>
    obtain ⟨callable, calls, host, logs, -, -, h⟩ := busWrite_eq H address value m
    simp [handle, h, sight, sighted, called, Sight.saw]
  | core => exact ⟨rfl, rfl⟩
  | setCore core => rfl
  | dmaStalled => rfl
  | poll => rfl
  | setPoll poll => rfl

/-- Two programs that do the same while D is clear. -/
def SameOffD {α : Type} (code code' : Code α) : Prop :=
  ∀ m : Machine σ, NoD m.cpu.core.p → exec H code m = exec H code' m

/-- A program that leaves D clear. -/
def KeepsOffD {α : Type} (code : Code α) : Prop :=
  ∀ g : Sight, NoD g.core.p → code.Ensures (fun _ g' => NoD g'.core.p) g

variable {H} {α β : Type}

theorem SameOffD.refl (code : Code α) : SameOffD H code code := fun _ _ => rfl

theorem SameOffD.of_eq {code code' : Code α} (h : code = code') : SameOffD H code code' := fun _ _ => by rw [h]

theorem SameOffD.bind {code : Code α} {f f' : α → Code β} (hcode : KeepsOffD code) (hf : ∀ a, SameOffD H (f a) (f' a)) :
    SameOffD H (code >>= f) (code >>= f') := by
  intro m hm
  rw [exec, exec, Tree.run_bind, Tree.run_bind]
  exact hf _ _ (Tree.wp_run (handle_respects_sight H) (hcode m.sighted hm))

theorem SameOffD.bind_left {code code' : Code α} (h : SameOffD H code code') (f : α → Code β) :
    SameOffD H (code >>= f) (code' >>= f) := by
  intro m hm
  rw [exec, exec, Tree.run_bind, Tree.run_bind]
  exact congrArg (fun done => (f done.1).run (handle H) done.2) (h m hm)

theorem SameOffD.core {k k' : Core → Code α} (hk : ∀ c, NoD c.p → SameOffD H (k c) (k' c)) :
    SameOffD H (Code.core >>= k) (Code.core >>= k') := fun m hm => hk m.cpu.core hm m hm

theorem SameOffD.core_eq {k k' : Core → Code α} (hk : ∀ c, NoD c.p → k c = k' c) :
    SameOffD H (Code.core >>= k) (Code.core >>= k') := .core fun c hc => .of_eq (hk c hc)

/-! ## The six handlers -/

theorem keepsOffD_read (address : ℕ) : KeepsOffD (Code.read address) := fun g hg => by simpa using hg

theorem keepsOffD_write (address value : ℕ) : KeepsOffD (Code.write address value) := fun g hg => by simpa using hg

theorem noD_without {p : ℕ} (hp : NoD p) (m : ℕ) : NoD (without p m) := by
  rw [noD_iff, testBit_without, noD_iff.mp hp, Bool.false_and]

variable (chip : Chip) (address : ℕ)

/-- What a handler shows the adder of a clear D. -/
theorem shown_noD {p : ℕ} (hp : NoD p) : p &&& chip.connected.decimalMode = p &&& chip.disconnected.decimalMode :=
  Eq.trans hp (Nat.and_zero p).symm

theorem keepsOffD_modify (value : ℕ) : KeepsOffD (modify address value) :=
  fun g hg => by simpa [Code.modify] using hg

theorem opAdc_sameOffD : SameOffD H (opAdc chip.connected address) (opAdc chip.disconnected address) := by
  refine .core_eq fun c hc => ?_
  rw [shown_noD chip hc]

theorem opSbc_sameOffD : SameOffD H (opSbc chip.connected address) (opSbc chip.disconnected address) := by
  refine .core_eq fun c hc => ?_
  rw [shown_noD chip hc]

theorem opIsc_sameOffD : SameOffD H (opIsc chip.connected address) (opIsc chip.disconnected address) := by
  refine .bind (keepsOffD_read _) fun value => .bind (keepsOffD_modify _ _) fun value => ?_
  refine .bind (keepsOffD_write _ _) fun _ => .core_eq fun c hc => ?_
  rw [shown_noD chip hc]

theorem opRra_sameOffD : SameOffD H (opRra chip.connected address) (opRra chip.disconnected address) := by
  refine .bind (keepsOffD_read _) fun value => .bind (keepsOffD_modify _ _) fun value => .core fun c hc => ?_
  have hp : NoD (ror value c.p).2 := by
    simp [ror, noD_or, noD_without hc, noD_nz, noD_mod_two]
  generalize ror value c.p = rotated at hp
  refine .bind (keepsOffD_write _ _) fun _ => .core_eq fun c' _ => ?_
  rw [shown_noD chip hp]

theorem opArr_sameOffD : SameOffD H (opArr chip.connected address) (opArr chip.disconnected address) := by
  refine .core fun c hc => .bind (keepsOffD_read _) fun value => .core_eq fun c' hc' => ?_
  have harr : ∀ v, arr chip.connected v c'.p = arr chip.disconnected v c'.p := by
    intro v
    have hp : NoD (without c'.p (flagN ||| flagV ||| flagZ ||| flagC) ||| nz ((v >>> 1) ||| ((c'.p &&& flagC) <<< 7)) |||
        ((((v >>> 1) ||| ((c'.p &&& flagC) <<< 7)) ^^^ (((v >>> 1) ||| ((c'.p &&& flagC) <<< 7)) <<< 1)) &&& flagV)) := by
      simp [noD_or, noD_without hc', noD_nz, noD_and, noD_flags]
    simp only [arr, shown_noD chip hp]
  rw [harr]

/-- Every handler does the same while D is clear, whether or not the adder would see it set. -/
theorem op_sameOffD (h : Addressed) : SameOffD H (h.op chip.connected address) (h.op chip.disconnected address) := by
  cases h with
  | adc => exact opAdc_sameOffD chip address
  | sbc => exact opSbc_sameOffD chip address
  | usbc => exact opSbc_sameOffD chip address
  | isc => exact opIsc_sameOffD chip address
  | rra => exact opRra_sameOffD chip address
  | arr => exact opArr_sameOffD chip address
  | _ => exact .refl _

/-! ## Steps and runs -/

theorem keepsOffD_ea (mode : Mode) : KeepsOffD mode.ea := by
  intro g hg
  refine (mode.ea_counts g).mono ?_
  rintro _ g' ⟨t, -, -, hcore⟩
  rw [hcore]
  exact hg

theorem dispatch_sameOffD (entry : Entry) :
    SameOffD H (dispatch chip.connected entry) (dispatch chip.disconnected entry) := by
  cases entry with
  | implied handler cycles => exact .refl _
  | addressed handler mode cycles =>
    exact .bind (keepsOffD_ea mode) fun address => op_sameOffD chip address handler

theorem instruction_sameOffD : SameOffD H (instruction chip.connected) (instruction chip.disconnected) := by
  have hexecute : SameOffD H (execute chip.connected) (execute chip.disconnected) := by
    refine .core fun c hc => .bind ?_ fun opcode => .bind ?_ fun _ => (dispatch_sameOffD chip _).bind_left _
    · intro g hg
      exact (ensures_readByte _ _).mpr fun _ => hg
    · intro g hg
      simpa using hg
  exact hexecute.bind_left _

theorem KeepsOffD.bind {code : Code α} {f : α → Code β} (hcode : KeepsOffD code) (hf : ∀ a, KeepsOffD (f a)) :
    KeepsOffD (code >>= f) := by
  intro g hg
  rw [ensures_bind]
  exact (hcode g hg).mono fun a g' hg' => hf a g' hg'

theorem KeepsOffD.pure (a : α) : KeepsOffD (Pure.pure a) := fun _ hg => hg

theorem keepsOffD_poll : KeepsOffD Code.poll := fun _ hg => ensures_poll.mpr fun _ => hg

theorem keepsOffD_boundaryInterrupt : KeepsOffD boundaryInterrupt := by
  unfold boundaryInterrupt
  extract_lets rest
  have hrest : ∀ polled, KeepsOffD (rest polled) := by
    intro polled
    simp only [rest]
    split
    · exact .pure _
    · intro g hg
      rw [ensures_bind, ensures_core]
      cases g.core.polledI <;> simpa using hg
  refine .bind keepsOffD_poll fun poll => ?_
  cases poll.polled with
  | none => exact hrest _
  | some polled => exact .bind (fun g hg => by simpa using hg) fun _ => hrest _

theorem step_sameOffD : SameOffD H (Code.step chip.connected) (Code.step chip.disconnected) := by
  refine .bind keepsOffD_poll fun poll => ?_
  split
  · exact .refl _
  refine .core fun c _ => ?_
  split
  · exact .refl _
  refine .bind keepsOffD_poll fun poll => .core fun c _ => ?_
  extract_lets goOn goOn'
  have hgoOn : ∀ taken, SameOffD H (goOn taken) (goOn' taken) := by
    intro taken
    simp only [goOn, goOn']
    split
    · exact .refl _
    · exact (instruction_sameOffD chip).bind_left _
  split
  · exact .bind keepsOffD_boundaryInterrupt hgoOn
  · exact hgoOn 0

theorem step_connected {m : Machine σ} (hm : NoD m.cpu.core.p) :
    m.step H chip.connected = m.step H chip.disconnected := by
  have hstep : exec H (Code.step chip.connected) { m with trace := [] } =
      exec H (Code.step chip.disconnected) { m with trace := [] } := step_sameOffD chip _ hm
  rw [step, step, hstep]

/-- D is clear before what an event shows of a step. -/
def OffD (event : Event) : Prop := ∀ log, event = .stepped log → NoD log.before.core.p

theorem hostAct_connected (action : HostAction σ) {m : Machine σ}
    (h : action = .act .step → NoD m.cpu.core.p) :
    hostAct H chip.connected action m = hostAct H chip.disconnected action m := by
  cases action with
  | act action =>
    cases action with
    | step =>
      have hm : m.step H chip.connected = m.step H chip.disconnected := step_connected chip (h rfl)
      simp only [hostAct, act, hm]
    | call call => rfl
    | host move => rfl
  | _ => rfl

/-- While D is clear before every step of one of them, the two parts make one run. -/
theorem run_connected (actions : List (HostAction σ)) (m : Machine σ)
    (h : (∀ event ∈ (hostAct H chip.connected).shown m actions, OffD event) ∨
      ∀ event ∈ (hostAct H chip.disconnected).shown m actions, OffD event) :
    (hostAct H chip.connected).shown m actions = (hostAct H chip.disconnected).shown m actions ∧
      (hostAct H chip.connected).final m actions = (hostAct H chip.disconnected).final m actions := by
  rcases h with h | h
  · refine System.run_congr (fun action m hoff => hostAct_connected chip action ?_) h
    rintro rfl
    exact hoff _ rfl
  · have hrun := System.run_congr (fun action m hoff => (hostAct_connected chip action ?_).symm) h
    · exact ⟨hrun.1.symm, hrun.2.symm⟩
    · rintro rfl
      exact hoff _ rfl

end Machine

end SixFiveOhTwo
