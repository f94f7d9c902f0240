import Mathlib.Data.Fintype.Option
import SixFiveOhTwo.Listings.Text
import SixFiveOhTwo.Snapshots.Complete

/-! # What the state's lines tell

The lines that a console prints of a state have all of it, so two processors for which they are the same go on alike.
-/

namespace SixFiveOhTwo
open Bits Hexadecimal Interaction
set_option autoImplicit false

/-! ## Fields of a line -/

theorem hex_append_inj {width value value' : ℕ} {rest rest' : List Char} (hpos : 0 < width) (h : value < 16 ^ width)
    (h' : value' < 16 ^ width) (heq : (hex width value).toList ++ rest = (hex width value').toList ++ rest') :
    value = value' ∧ rest = rest' := by
  have hlength : (hex width value).toList.length = (hex width value').toList.length := by
    rw [length_hex hpos h, length_hex hpos h']
  obtain ⟨hhex, hrest⟩ := List.append_inj heq hlength
  refine ⟨?_, hrest⟩
  rw [← number_hex width value, hhex, number_hex]

theorem digit_append_inj {seen seen' : Bool} {rest rest' : List Char}
    (heq : (Line.digit seen).toList ++ rest = (Line.digit seen').toList ++ rest') : seen = seen' ∧ rest = rest' := by
  cases seen <;> cases seen' <;> simp_all [Line.digit]

/-- A flag of a poll, or a dash if it is not known. -/
theorem polled_append_inj {polled polled' : Option Bool} {rest rest' : List Char}
    (heq : ((polled.map Line.digit).getD "-").toList ++ rest = ((polled'.map Line.digit).getD "-").toList ++ rest') :
    polled = polled' ∧ rest = rest' := by
  rcases polled with _ | _ | _ <;> rcases polled' with _ | _ | _ <;> simp_all [Line.digit]

/-- What the polls saw, where it is known, and that there was none. -/
def Line.seen (nmi irq : Option Bool) (skipped : Bool) : String :=
  (nmi.map fun seen => " POLLED_" ++ "NMI" ++ "=" ++ digit seen).getD "" ++
    ((irq.map fun seen => " POLLED_" ++ "IRQ" ++ "=" ++ digit seen).getD "" ++ if skipped then " NO_POLL" else "")

theorem Line.seen_inj : ∀ (nmi irq : Option Bool) (skipped : Bool) (nmi' irq' : Option Bool) (skipped' : Bool),
    Line.seen nmi irq skipped = Line.seen nmi' irq' skipped' → nmi = nmi' ∧ irq = irq' ∧ skipped = skipped' := by
  decide +kernel

theorem Line.formatState_inj {state state' : CPUState} (h : Line.formatState state = Line.formatState state') :
    state = state' := by
  rw [Line.formatState, Line.formatState] at h
  obtain ⟨hfirst, hsecond⟩ := List.cons.inj h
  have hsecond := (List.cons.inj hsecond).1
  have hfirst := congrArg String.toList hfirst
  have hsecond := congrArg String.toList hsecond
  simp only [String.toList_append, List.append_assoc] at hfirst hsecond
  have hpc := state.pc_le
  have hpc' := state'.pc_le
  have hbyte {value : ℕ} (h : value ≤ 0xFF) : value < 16 ^ 2 := by omega
  obtain ⟨hpc, hfirst⟩ := hex_append_inj (by decide) (by omega) (by omega) (List.append_cancel_left hfirst)
  obtain ⟨ha, hfirst⟩ := hex_append_inj (by decide) (hbyte state.a_le) (hbyte state'.a_le) (List.append_cancel_left hfirst)
  obtain ⟨hx, hfirst⟩ := hex_append_inj (by decide) (hbyte state.x_le) (hbyte state'.x_le) (List.append_cancel_left hfirst)
  obtain ⟨hy, hfirst⟩ := hex_append_inj (by decide) (hbyte state.y_le) (hbyte state'.y_le) (List.append_cancel_left hfirst)
  obtain ⟨hs, hfirst⟩ := hex_append_inj (by decide) (hbyte state.s_le) (hbyte state'.s_le) (List.append_cancel_left hfirst)
  obtain ⟨hp, -⟩ := hex_append_inj (by decide) (hbyte state.p_le) (hbyte state'.p_le) (List.append_cancel_left hfirst)
  obtain ⟨hhalted, hsecond⟩ := digit_append_inj (List.append_cancel_left hsecond)
  obtain ⟨hreset, hsecond⟩ := digit_append_inj (List.append_cancel_left hsecond)
  obtain ⟨hnmi, hsecond⟩ := digit_append_inj (List.append_cancel_left hsecond)
  obtain ⟨hirq, hsecond⟩ := digit_append_inj (List.append_cancel_left hsecond)
  obtain ⟨hpolled, hsecond⟩ := polled_append_inj (List.append_cancel_left hsecond)
  have hseen : Line.seen state.polledNonMaskableInterrupt state.polledMaskableInterrupt state.skippedPoll =
      Line.seen state'.polledNonMaskableInterrupt state'.polledMaskableInterrupt state'.skippedPoll := by
    apply String.toList_inj.mp
    rw [Line.seen, Line.seen, String.toList_append, String.toList_append, String.toList_append, String.toList_append]
    exact hsecond
  obtain ⟨hpolledNmi, hpolledIrq, hskipped⟩ := Line.seen_inj _ _ _ _ _ _ hseen
  cases state
  cases state'
  simp only [CPUState.mk.injEq]
  exact ⟨ha, hx, hy, hs, hpc, hp, hhalted, hreset, hirq, hnmi, hpolled, hpolledIrq, hpolledNmi, hskipped⟩

namespace Machine
variable {σ : Type} (H : Host σ) (chip : Chip)

theorem Same.of_common {e c d : Machine σ} (h : e.Same c) (h' : e.Same d) : c.Same d := by
  refine ⟨h.polled', h'.polled', ?_⟩
  have hopened := h.opened
  have hopened' := h'.opened
  refine ⟨hopened.core.symm.trans hopened'.core, ⟨hopened.poll.requests.symm.trans hopened'.poll.requests,
    hopened.poll.resetPending.symm.trans hopened'.poll.resetPending, hopened.poll.known.symm.trans hopened'.poll.known⟩,
    hopened.dmaStalled.symm.trans hopened'.dmaStalled, hopened.host.symm.trans hopened'.host,
    hopened.trace.symm.trans hopened'.trace, hopened.readByte.symm.trans hopened'.readByte,
    hopened.writeByte.symm.trans hopened'.writeByte⟩

/-- **The printed state is complete.** The lines that a console prints of a state have all of it. So two processors,
each after any run from construction, with the same bus, DMA flag and host: if a console prints the same lines of
their states, they show the same in all that is done later, and a console prints the same lines after it. -/
theorem printed_complete (readByte writeByte readByte' writeByte' : Callable) (host host' : σ)
    (actions actions' : List (Action σ)) :
    let c := (act H chip).final (start readByte writeByte host) actions
    let d := (act H chip).final (start readByte' writeByte' host') actions'
    (∀ state state', Line.formatState state = Line.formatState state' → state = state') ∧
    (c.cpu.captureState.map Line.formatState = d.cpu.captureState.map Line.formatState →
      d.cpu.dmaStalled = c.cpu.dmaStalled → d.host = c.host →
      d.cpu.bus.readByte.base = c.cpu.bus.readByte.base → d.cpu.bus.writeByte.base = c.cpu.bus.writeByte.base →
      ∀ later : List (Action σ),
        ((act H chip).shown c later).map Event.observed = ((act H chip).shown d later).map Event.observed ∧
          ((act H chip).final c later).cpu.captureState.map Line.formatState =
            ((act H chip).final d later).cpu.captureState.map Line.formatState) := by
  intro c d
  refine ⟨fun state state' => Line.formatState_inj, fun hprinted hdma hhost hread hwrite later => ?_⟩
  have hpolled (readByte writeByte : Callable) (host : σ) (actions : List (Action σ)) :
      ((act H chip).final (start readByte writeByte host) actions).Polled :=
    System.final_preserves (act_polled H chip) (start_polled readByte writeByte host) actions
  have hflag (readByte writeByte : Callable) (host : σ) (actions : List (Action σ)) :
      ((act H chip).final (start readByte writeByte host) actions).cpu.core.PolledFlag := by
    refine (System.final_preserves (act_polledFlag H chip) ⟨.init readByte writeByte, ?_⟩ actions).2
    intro i hi
    cases hi
  have hfit : c.Fit := System.final_preserves (act_fit H chip) (start_fit readByte writeByte host) actions
  obtain ⟨state, hstate⟩ := Option.isSome_iff_exists.mp (CPU.captureState_isSome hfit.2)
  have hstate' : d.cpu.captureState = some state := by
    rw [hstate] at hprinted
    obtain ⟨state', hd, hlines⟩ := Option.map_eq_some_iff.mp hprinted.symm
    rw [hd, Line.formatState_inj hlines]
  have hc : ({ d with cpu := d.cpu.restoreState state } : Machine σ).Same c :=
    restored_same (hpolled _ _ _ _) (hflag _ _ _ _) hstate hdma hhost hread hwrite
  have hd : ({ d with cpu := d.cpu.restoreState state } : Machine σ).Same d :=
    restored_same (hpolled _ _ _ _) (hflag _ _ _ _) hstate' rfl rfl rfl rfl
  obtain ⟨hshown, hsame⟩ := System.shown_related (act_same H chip) (hc.of_common hd) later
  exact ⟨hshown, congrArg (Option.map Line.formatState) hsame.captureState⟩

/-- A line that is requested once and one that is requested twice. -/
theorem printed_complete_requested :
    let start : Machine (ℕ → Byte) := .start (.host 0) (.host 0) fun _ => 0xEA
    let c := (act .flat mos6502).final start [.step, .call .requestMaskableInterrupt]
    let d := (act .flat mos6502).final start
      [.step, .call .requestMaskableInterrupt, .call .requestMaskableInterrupt]
    ((act .flat mos6502).shown c [.step, .step]).map Event.observed =
        ((act .flat mos6502).shown d [.step, .step]).map Event.observed ∧
      ((act .flat mos6502).final c [.step, .step]).cpu.captureState.map Line.formatState =
        ((act .flat mos6502).final d [.step, .step]).cpu.captureState.map Line.formatState :=
  (printed_complete .flat mos6502 (.host 0) (.host 0) (.host 0) (.host 0) (fun _ => 0xEA) (fun _ => 0xEA)
    [.step, .call .requestMaskableInterrupt]
    [.step, .call .requestMaskableInterrupt, .call .requestMaskableInterrupt]).2
    (by decide +kernel) (by decide +kernel) rfl (by decide +kernel) (by decide +kernel) [.step, .step]

end Machine

end SixFiveOhTwo
