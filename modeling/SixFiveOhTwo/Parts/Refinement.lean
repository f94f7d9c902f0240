import SixFiveOhTwo.Parts.Connected
import SixFiveOhTwo.Parts.Status

/-! # The RP2A03 is the MOS6502 with D disconnected

A step of the RP2A03 is the step of the MOS6502 from the same state with D clear, but for D itself: in P,
and in the byte of P that PHP, BRK and the interrupts push. While D is clear the two are the same.
-/

namespace SixFiveOhTwo
open Bits Interaction Code
set_option autoImplicit false

/-- The push of P that a step makes, from S before it: the accesses before it, its address, and what it
pushes of P. -/
def statusPush (s : ℕ) : BoundaryKind → Entry → Option (ℕ × ℕ × (ℕ → ℕ))
  | .nmi, _ | .irq, _ => some (4, stack ||| stackDown s 2, fun p => without (p ||| flagU) flagB)
  | .instruction, .implied .brk _ => some (4, stack ||| stackDown s 2, (· ||| flagB ||| flagU))
  | .instruction, .implied .php _ => some (2, stack ||| s, (· ||| flagB ||| flagU))
  | _, _ => none

theorem statusPush_setD {s i address : ℕ} {status : ℕ → ℕ} {kind : BoundaryKind} {entry : Entry}
    (h : statusPush s kind entry = some (i, address, status)) (d : Bool) (p : ℕ) :
    status (setD d p) = setD d (status p) := by
  have henter : without (setD d p ||| flagU) flagB = setD d (without (p ||| flagU) flagB) := by
    rw [setD_or d p noD_flags.1.2.2.1, setD_without d _ noD_flags.1.2.2.2]
  have hpush : setD d p ||| flagB ||| flagU = setD d (p ||| flagB ||| flagU) := by
    rw [setD_or d p noD_flags.1.2.2.2, setD_or d _ noD_flags.1.2.2.1]
  cases kind with
  | nmi | irq => cases h; exact henter
  | reset | jamIdle => cases h
  | instruction =>
    cases entry with
    | addressed handler mode cycles => cases h
    | implied handler cycles => cases handler <;> first | (cases h; done) | (cases h; exact hpush)

/-- D at the end of a step, from P before it and the byte above the top of the stack. -/
def dAfter (p pulled : ℕ) : BoundaryKind → Entry → ℕ
  | .instruction, .implied .sed _ => flagD
  | .instruction, .implied .cld _ => 0
  | .instruction, .implied .plp _ | .instruction, .implied .rti _ => pulled &&& flagD
  | _, _ => p &&& flagD

namespace Plain
variable {chip : Chip} (hchip : chip.decimalMode = 0) (d : Bool) (q : Plain (ℕ → Byte))

theorem boundary_withD : (q.withD d).boundary = q.boundary := by
  have hmasking : (q.core.withD d).masking = q.core.masking := by
    rw [Core.masking, Core.masking, Core.withD, setD_and d _ noD_flags.2.1]
  change (if q.poll.resetPending then BoundaryKind.reset else if q.core.halted then .jamIdle
    else if q.poll.deciding &&& nmiLatch ≠ 0 then .nmi
    else if q.poll.deciding &&& irqLine ≠ 0 ∧ (q.core.withD d).masking = 0 then .irq else .instruction) = _
  rw [hmasking]
  rfl

theorem decided_withD : (q.withD d).decided = q.decided.withD d := by
  rw [decided, boundary_withD, decided]
  cases q.boundary <;> rfl

variable {q} in
theorem decided_instruction (hb : q.boundary = .instruction) :
    q.decided = { q with core := { q.core with polledI := none }, poll := q.poll.forget } := by
  rw [decided, hb]
  rfl

include hchip

theorem dispatched_withD (ha : q.core.a ≤ 0xFF) :
    (q.withD d).dispatched .flat chip = match statusPush q.core.s .instruction (q.entry .flat) with
      | some (i, address, status) =>
        ((q.dispatched .flat chip).withD d).rewritten (q.trace.length + i) address (status (setD d q.core.p))
      | none => if (q.entry .flat).assignsD then q.dispatched .flat chip else (q.dispatched .flat chip).withD d := by
  have hlength : (q.fetched .flat).trace.length = q.trace.length + 1 := afterRead_trace_length _ _
  change (exec .flat (dispatch chip (q.entry .flat)) ((q.fetched .flat).withD d)).2 = _
  unfold dispatched
  by_cases hpush : (q.entry .flat).pushesP
  · cases hentry : q.entry .flat with
    | addressed handler mode cycles => rw [hentry] at hpush; cases hpush
    | implied handler cycles =>
      rw [hentry] at hpush
      cases handler <;> first | (cases hpush; done) | skip
      · have h := congrArg Prod.snd (exec_opBrk_withD (q.fetched .flat) d)
        rw [hlength] at h
        exact h
      · have h := congrArg Prod.snd (exec_opPhp_withD (q.fetched .flat) d)
        rw [hlength] at h
        exact h
  · have hnone : statusPush q.core.s .instruction (q.entry .flat) = none := by
      cases hentry : q.entry .flat with
      | addressed handler mode cycles => rfl
      | implied handler cycles =>
        rw [hentry] at hpush
        cases handler <;> first | rfl | exact absurd rfl hpush
    rw [hnone]
    by_cases hassign : (q.entry .flat).assignsD
    · rw [if_pos hassign]
      cases hentry : q.entry .flat with
      | addressed handler mode cycles => rw [hentry] at hassign; cases hassign
      | implied handler cycles =>
        rw [hentry] at hassign
        exact congrArg Prod.snd (Implied.exec_assignsD hassign .flat d _)
    · rw [if_neg hassign]
      rw [Bool.not_eq_true] at hassign hpush
      exact congrArg Prod.snd (exec_dispatch_withD .flat hchip hassign hpush d (q := q.fetched .flat) ha)

theorem exec_row_withD (ht : q.trace = []) (ha : q.core.a ≤ 0xFF) :
    (exec .flat (instruction chip) (q.withD d)).1 = (exec .flat (instruction chip) q).1 ∧
      (exec .flat (instruction chip) (q.withD d)).2 = match statusPush q.core.s .instruction (q.entry .flat) with
        | some (i, address, status) =>
          ((exec .flat (instruction chip) q).2.withD d).rewritten i address (status (setD d q.core.p))
        | none =>
          if (q.entry .flat).assignsD then (exec .flat (instruction chip) q).2
          else (exec .flat (instruction chip) q).2.withD d := by
  have h := dispatched_withD hchip d q ha
  have hzero : ∀ i, q.trace.length + i = i := fun i => by rw [ht, List.length_nil, Nat.zero_add]
  have hentry : (q.withD d).entry .flat = q.entry .flat := rfl
  rw [exec_row, exec_row, h, hentry]
  generalize q.dispatched .flat chip = done
  cases statusPush q.core.s .instruction (q.entry .flat) with
  | some push =>
    obtain ⟨i, address, status⟩ := push
    dsimp only
    rw [hzero]
    exact ⟨rfl, rfl⟩
  | none =>
    dsimp only
    split <;> exact ⟨rfl, rfl⟩

/-- What a step does with D as given, from what it does with any D. -/
theorem step_withD (ht : q.trace = []) (ha : q.core.a ≤ 0xFF) :
    (exec .flat (Code.step chip) (q.withD d)).1 = (exec .flat (Code.step chip) q).1 ∧
      (exec .flat (Code.step chip) (q.withD d)).2 = match statusPush q.core.s q.boundary (q.entry .flat) with
        | some (i, address, status) =>
          ((exec .flat (Code.step chip) q).2.withD d).rewritten i address (status (setD d q.core.p))
        | none =>
          if q.boundary = .instruction ∧ (q.entry .flat).assignsD then (exec .flat (Code.step chip) q).2
          else (exec .flat (Code.step chip) q).2.withD d := by
  have henter (kind : ℕ) : exec .flat (enterInterrupt kind) (q.decided.withD d) =
      (7, ((exec .flat (enterInterrupt kind) q.decided).2.withD d).rewritten 4 (stack ||| stackDown q.core.s 2)
        (without (setD d q.core.p ||| flagU) flagB)) := by
    have hcore : q.decided.core.s = q.core.s ∧ q.decided.core.p = q.core.p := by
      change (q.core.decided q.boundary).s = _ ∧ (q.core.decided q.boundary).p = _
      cases q.boundary <;> exact ⟨rfl, rfl⟩
    have htrace : q.decided.trace.length = 0 := congrArg List.length ht
    rw [exec_enterInterrupt_withD, htrace, hcore.1, hcore.2]
  have hcycles (kind : ℕ) : (exec .flat (enterInterrupt kind) q.decided).1 = 7 := by
    rw [exec_enterInterrupt, exec_entering]
  rw [exec_step, exec_step, boundary_withD, ran, boundary_withD, decided_withD, ran]
  cases hb : q.boundary with
  | reset =>
    have h := acceptReset_ignoresD _ .flat d q.decided
    rw [BoundaryKind.code, h]
    exact ⟨rfl, rfl⟩
  | jamIdle =>
    have h := haltedCycle_ignoresD _ .flat d q.decided
    rw [BoundaryKind.code, h]
    exact ⟨rfl, rfl⟩
  | nmi =>
    rw [BoundaryKind.code, henter nmiLatch, hcycles nmiLatch]
    exact ⟨rfl, rfl⟩
  | irq =>
    rw [BoundaryKind.code, henter irqLine, hcycles irqLine]
    exact ⟨rfl, rfl⟩
  | instruction =>
    have hdecided := decided_instruction hb
    have hentry : q.decided.entry .flat = q.entry .flat := by rw [hdecided]; rfl
    have ha' : q.decided.core.a ≤ 0xFF := by rw [hdecided]; exact ha
    obtain ⟨hvalue, hend⟩ := exec_row_withD hchip d q.decided ht ha'
    rw [BoundaryKind.code, hvalue, hend, hentry]
    refine ⟨rfl, ?_⟩
    have hs : q.decided.core.s = q.core.s := by rw [hdecided]
    have hp : q.decided.core.p = q.core.p := by rw [hdecided]
    rw [hs, hp]
    cases statusPush q.core.s .instruction (q.entry .flat) with
    | some push => rfl
    | none => simp

theorem step_withD_shows (ht : q.trace = []) (ha : q.core.a ≤ 0xFF) :
    let r := (exec .flat (Code.step chip) q).2
    let m := (exec .flat (Code.step chip) (q.withD false)).2
    m.core.withD false = r.core.withD false ∧ m.poll = r.poll ∧
      m.trace.map HostCall.access = match statusPush q.core.s q.boundary (q.entry .flat) with
        | some (i, address, status) =>
          (r.trace.map HostCall.access).set i (.w address (status (setD false q.core.p)))
        | none => r.trace.map HostCall.access := by
  intro r m
  have hcore : ∀ c : Core, (c.withD false).withD false = c.withD false := fun c =>
    congrArg (fun p => { c with p }) (setD_setD false c.p false)
  obtain ⟨-, hend⟩ := step_withD hchip false q ht ha
  have hm : m = _ := hend
  rw [hm]
  cases statusPush q.core.s q.boundary (q.entry .flat) with
  | some push =>
    obtain ⟨i, address, status⟩ := push
    refine ⟨hcore r.core, rfl, ?_⟩
    refine List.ext_getElem? fun j => ?_
    change ((r.trace.modify i _).map HostCall.access)[j]? = _
    rw [List.getElem?_map, List.getElem?_modify, List.getElem?_set, List.getElem?_map, List.length_map]
    by_cases hj : i = j
    · subst hj
      cases hcall : r.trace[i]? with
      | none =>
        have hlen := List.getElem?_eq_none_iff.mp hcall
        simp [hlen]
      | some call =>
        have hlen := (List.getElem?_eq_some_iff.mp hcall).1
        simp [hlen]
    · simp [hj]
  | none =>
    dsimp only
    split
    · exact ⟨rfl, rfl, rfl⟩
    · exact ⟨hcore r.core, rfl, rfl⟩

/-! ## D and the status push -/

omit hchip in
theorem withD_self : q.withD (q.core.p.testBit 3) = q :=
  congrArg (fun p => q.withCore { q.core with p }) (setD_self q.core.p)

theorem step_setD (ht : q.trace = []) (ha : q.core.a ≤ 0xFF)
    (hassign : ¬(q.boundary = .instruction ∧ (q.entry .flat).assignsD = true)) :
    (exec .flat (Code.step chip) q).2.core.p &&& flagD = q.core.p &&& flagD := by
  obtain ⟨-, hend⟩ := step_withD hchip (q.core.p.testBit 3) q ht ha
  rw [withD_self] at hend
  have hp : (exec .flat (Code.step chip) q).2.core.p =
      setD (q.core.p.testBit 3) (exec .flat (Code.step chip) q).2.core.p := by
    cases hpush : statusPush q.core.s q.boundary (q.entry .flat) with
    | some push =>
      rw [hpush] at hend
      exact congrArg (fun z => z.core.p) hend
    | none =>
      rw [hpush, if_neg hassign] at hend
      exact congrArg (fun z => z.core.p) hend
  have hd : q.core.p &&& flagD = if q.core.p.testBit 3 then flagD else 0 := by
    rw [← setD_and_flagD (q.core.p.testBit 3) q.core.p, setD_self]
  rw [hp, setD_and_flagD, hd]

omit hchip in
theorem pulled_d (v : ℕ) : without (v ||| flagU) flagB &&& flagD = v &&& flagD := by
  rw [without_and_of_disjoint (by decide), Nat.and_or_distrib_right]
  exact Nat.or_zero _

omit hchip in
theorem or_and_flagD (p : ℕ) : (p ||| flagD) &&& flagD = flagD := by
  refine Nat.eq_of_testBit_eq fun i => ?_
  rw [Nat.testBit_and, Nat.testBit_or]
  cases flagD.testBit i <;> simp

omit hchip in
/-- SED, CLD, PLP and RTI give D its value. -/
theorem assigns_onFlat {h : Implied} (hassign : h.assignsD) (cycles : ℕ) (g : Flat) :
    h.op.OnFlat (fun _ g' => g'.core.p &&& flagD = dAfter g.core.p
      (g.memory (stack ||| ((g.core.s + 1) &&& 0xFF))).val .instruction (.implied h cycles)) g := by
  cases h <;> first | (cases hassign; done) | skip
  all_goals simp [Implied.op, opSed, opCld, opPlp, opRti, readPc, readStack, pull, dAfter, pulled_d, or_and_flagD, without_and_self]

theorem step_dAfter (ht : q.trace = []) (ha : q.core.a ≤ 0xFF) :
    (exec .flat (Code.step chip) q).2.core.p &&& flagD = dAfter q.core.p
      (q.host (stack ||| ((q.core.s + 1) &&& 0xFF))).val q.boundary (q.entry .flat) := by
  by_cases hassign : q.boundary = .instruction ∧ (q.entry .flat).assignsD = true
  · obtain ⟨hb, hassign⟩ := hassign
    have hdecided := decided_instruction hb
    have hentry : q.decided.entry .flat = q.entry .flat := by rw [hdecided]; rfl
    rw [exec_step, ran, hb, BoundaryKind.code, exec_row]
    change (q.decided.dispatched .flat chip).core.p &&& flagD = _
    rw [dispatched, hentry]
    cases he : q.entry .flat with
    | addressed handler mode cycles => rw [he] at hassign; cases hassign
    | implied handler cycles =>
      rw [he] at hassign
      have h := exec_onFlat (q := q.decided.fetched .flat) (assigns_onFlat hassign cycles _)
      rw [hdecided] at h ⊢
      exact h
  · rw [step_setD hchip q ht ha hassign]
    cases hb : q.boundary <;> try rfl
    cases he : q.entry .flat with
    | addressed handler mode cycles => rfl
    | implied handler cycles =>
      rw [hb, he] at hassign
      cases handler <;> first | rfl | exact absurd ⟨rfl, rfl⟩ hassign

omit hchip in
theorem statusPush_early_zero : ∀ opcode : Byte,
    ((statusPush 0 .instruction (opcodes opcode)).map Prod.fst).getD 0 < (opcodes opcode).cycles := by
  decide +kernel

omit hchip in
/-- The push of P comes before the last cycle its row always has. -/
theorem statusPush_early (s : ℕ) (opcode : Byte) :
    ((statusPush s .instruction (opcodes opcode)).map Prod.fst).getD 0 < (opcodes opcode).cycles := by
  have hs : (statusPush s .instruction (opcodes opcode)).map Prod.fst =
      (statusPush 0 .instruction (opcodes opcode)).map Prod.fst := by
    cases opcodes opcode with
    | addressed handler mode cycles => rfl
    | implied handler cycles => cases handler <;> rfl
  rw [hs]
  exact statusPush_early_zero opcode

/-- What a step pushes of P, where it pushes it. -/
theorem step_status (ht : q.trace = []) (ha : q.core.a ≤ 0xFF) (hx : q.core.extra = 0) {i address : ℕ} {status : ℕ → ℕ}
    (hpush : statusPush q.core.s q.boundary (q.entry .flat) = some (i, address, status)) :
    ((exec .flat (Code.step chip) q).2.trace.map HostCall.access)[i]? = some (.w address (status q.core.p)) := by
  have hi : i < (exec .flat (Code.step chip) q).2.trace.length := by
    rw [← (step_counts .flat chip ht hx).1, exec_step]
    change i < (ran .flat chip q).1
    rw [ran]
    cases hb : q.boundary with
    | reset | jamIdle => rw [hb] at hpush; cases hpush
    | nmi | irq =>
      rw [hb] at hpush
      cases hpush
      rw [BoundaryKind.code, exec_enterInterrupt, exec_entering]
      exact (by decide : 4 < 7)
    | instruction =>
      have hdecided := decided_instruction hb
      have hentry : q.decided.entry .flat = q.entry .flat := by rw [hdecided]; rfl
      have hearly := statusPush_early q.core.s (q.readAnswer .flat q.core.pc).1
      rw [hb] at hpush
      change ((statusPush q.core.s .instruction (q.entry .flat)).map Prod.fst).getD 0 < (q.entry .flat).cycles at hearly
      rw [hpush] at hearly
      rw [BoundaryKind.code, exec_row, hentry]
      exact Nat.lt_add_right _ hearly
  -- the step is its own step with D as it was
  obtain ⟨-, hend⟩ := step_withD hchip (q.core.p.testBit 3) q ht ha
  rw [withD_self, hpush, setD_self] at hend
  have htrace : (exec .flat (Code.step chip) q).2.trace = (exec .flat (Code.step chip) q).2.trace.modify i
      fun call => { call with access := .w address (status q.core.p) } := congrArg Plain.trace hend
  rw [htrace, List.getElem?_map, List.getElem?_modify_eq, List.getElem?_eq_getElem hi]
  rfl

end Plain

namespace Machine

/-- A machine with D as given. -/
def withD {σ : Type} (d : Bool) (m : Machine σ) : Machine σ :=
  { m with cpu := { m.cpu with core := m.cpu.core.withD d } }

/-- The bus accesses of a step. -/
def StepLog.accesses (log : StepLog) : List Access := log.trace.map HostCall.access

theorem step_disconnected (chip : Chip) {before : Machine (ℕ → Byte)} (hsettled : before.Settled) (hfit : before.Fit) :
    let c := before.cpu.core
    let r := before.step .flat chip.disconnected
    let m := (before.withD false).step .flat chip.connected
    let entry := opcodes (before.host c.pc)
    m.1.kind = r.1.kind ∧ m.1.cycles = r.1.cycles ∧
    m.2.cpu.core.withD false = r.2.cpu.core.withD false ∧ m.2.cpu.poll = r.2.cpu.poll ∧
    (match statusPush c.s r.1.kind entry with
      | some (i, address, status) => r.1.accesses[i]? = some (.w address (status c.p)) ∧
          m.1.accesses = r.1.accesses.set i (.w address (without (status c.p) flagD))
      | none => m.1.accesses = r.1.accesses) ∧
    r.2.cpu.core.p &&& flagD =
      dAfter c.p (before.host (stack ||| ((c.s + 1) &&& 0xFF))).val r.1.kind entry := by
  intro c r m entry
  have hm : m = (before.withD false).step .flat chip.disconnected := step_connected chip (noD_setD_false _)
  obtain ⟨hkind, hcycles, htrace, hplain, -⟩ := step_plain .flat chip.disconnected hfit.1
  have hrouted : (before.withD false).cpu.Routed := ⟨hfit.1.agrees, hfit.1.unconfirmed⟩
  obtain ⟨hkind', hcycles', htrace', hplain', -⟩ := step_plain .flat chip.disconnected hrouted
  have ha : before.opened.core.a ≤ 0xFF := hfit.2.1.1
  have hd : chip.disconnected.decimalMode = 0 := rfl
  obtain ⟨hvalue, hend⟩ := Plain.step_withD hd false before.opened rfl ha
  have hkindr : r.1.kind = before.opened.boundary := by rw [hkind, stepRun, Plain.exec_step]
  have hcore : r.2.cpu.core = (stepRun .flat chip.disconnected before).2.core := congrArg Plain.core hplain
  have hpoll : r.2.cpu.poll = (stepRun .flat chip.disconnected before).2.poll := congrArg Plain.poll hplain
  have hcore' : m.2.cpu.core = (stepRun .flat chip.disconnected (before.withD false)).2.core := by
    rw [hm]
    exact congrArg Plain.core hplain'
  have hpoll' : m.2.cpu.poll = (stepRun .flat chip.disconnected (before.withD false)).2.poll := by
    rw [hm]
    exact congrArg Plain.poll hplain'
  have htracer : r.1.accesses = (stepRun .flat chip.disconnected before).2.trace.map HostCall.access :=
    congrArg (List.map HostCall.access) htrace
  have htracem : m.1.accesses = (stepRun .flat chip.disconnected (before.withD false)).2.trace.map HostCall.access := by
    rw [hm]
    exact congrArg (List.map HostCall.access) htrace'
  have hopened : stepRun .flat chip.disconnected (before.withD false) =
    Plain.exec .flat (Code.step chip.disconnected) (before.opened.withD false) := rfl
  rw [hopened] at hcore' hpoll' htracem hkind' hcycles'
  have hshown := Plain.step_withD_shows hd before.opened rfl ha
  refine ⟨?_, ?_, ?_, ?_, ?_, ?_⟩
  · rw [hm, hkind', hkind, hvalue]
  · rw [hm, hcycles', hcycles, hvalue]
  · rw [hcore', hcore]
    exact hshown.1
  · rw [hpoll', hpoll]
    exact hshown.2.1
  · rw [htracem, htracer, hkindr, hshown.2.2]
    change match statusPush before.opened.core.s before.opened.boundary (before.opened.entry .flat) with
      | some (i, address, status) => _
      | none => _
    cases hpush : statusPush before.opened.core.s before.opened.boundary (before.opened.entry .flat) with
    | none => rfl
    | some push =>
      obtain ⟨i, address, status⟩ := push
      have hx : before.opened.core.extra = 0 := hsettled.2
      refine ⟨Plain.step_status hd before.opened rfl ha hx hpush, ?_⟩
      have hstatus : status (setD false before.opened.core.p) = without (status c.p) flagD :=
        (statusPush_setD hpush false c.p).trans (setD_false _)
      exact congrArg (fun value => ((stepRun .flat chip.disconnected before).2.trace.map HostCall.access).set i
        (.w address value)) hstatus
  · rw [hcore, hkindr]
    exact Plain.step_dAfter hd before.opened rfl ha

/-- **The RP2A03 is the MOS6502 with D disconnected.** On a flat memory, whatever a host has done before:
a step of the RP2A03 is the step of the MOS6502 with D clear, but for D itself, in P and in a push of P.
With D clear before every step of either, the two parts make one run on any host. -/
theorem decimal_disconnected (aneConstant lxaConstant : ℤ) :
    let rp : Chip := { rp2a03 with aneConstant, lxaConstant }
    let mos : Chip := { mos6502 with aneConstant, lxaConstant }
    (∀ (readByte writeByte : Callable) (memory : ℕ → Byte) (actions : List (HostAction (ℕ → Byte))),
      let before := (hostAct .flat rp).final (start readByte writeByte memory) actions
      let c := before.cpu.core
      let r := before.step .flat rp
      let m := (before.withD false).step .flat mos
      let entry := opcodes (before.host c.pc)
      m.1.kind = r.1.kind ∧ m.1.cycles = r.1.cycles ∧
      m.2.cpu.core.withD false = r.2.cpu.core.withD false ∧ m.2.cpu.poll = r.2.cpu.poll ∧
      (match statusPush c.s r.1.kind entry with
        | some (i, address, status) => r.1.accesses[i]? = some (.w address (status c.p)) ∧
            m.1.accesses = r.1.accesses.set i (.w address (without (status c.p) flagD))
        | none => m.1.accesses = r.1.accesses) ∧
      r.2.cpu.core.p &&& flagD =
        dAfter c.p (before.host (stack ||| ((c.s + 1) &&& 0xFF))).val r.1.kind entry) ∧
    ∀ (σ : Type) (H : Host σ) (m : Machine σ) (actions : List (HostAction σ)),
      ((∀ log, .stepped log ∈ (hostAct H rp).shown m actions → log.before.core.p &&& flagD = 0) ∨
        ∀ log, .stepped log ∈ (hostAct H mos).shown m actions → log.before.core.p &&& flagD = 0) →
      (hostAct H rp).shown m actions = (hostAct H mos).shown m actions ∧
        (hostAct H rp).final m actions = (hostAct H mos).final m actions := by
  intro rp mos
  constructor
  · intro readByte writeByte memory actions before c r m entry
    have hsettled : before.Settled := System.final_preserves (hostAct_settled .flat rp) ⟨.init readByte writeByte, rfl⟩ actions
    have hfit : before.Fit := System.final_preserves (hostAct_fit .flat rp) (start_fit readByte writeByte memory) actions
    exact step_disconnected mos hsettled hfit
  · intro σ H m actions h
    have hrun := run_connected (H := H) mos actions m ?_
    · exact ⟨hrun.1.symm, hrun.2.symm⟩
    · refine h.symm.imp ?_ ?_
      all_goals
        intro h event hevent log hlog
        exact h log (hlog ▸ hevent)

/-- The RP2A03 after some steps of SED, `ADC #$0F`, PHP and CLD, and of the last three again. -/
abbrev addingTwice (steps : ℕ) : Machine (ℕ → Byte) :=
  (hostAct .flat rp2a03).final
    (start (.host 0) (.host 1) (holding 0 [0xF8, 0x69, 0x0F, 0x08, 0xD8, 0x69, 0x0F, 0x08, 0xD8]))
    (List.replicate steps (.act .step))

/-- With D set it adds in binary and pushes D; when CLD has cleared it, the parts go on alike. -/
theorem decimal_disconnected_adding :
    ((addingTwice 1).cpu.core.p &&& flagD ≠ 0 ∧ ((addingTwice 1).step .flat rp2a03).2.cpu.core.a = 0x0F ∧
      (((addingTwice 1).withD false).step .flat mos6502).2.cpu.core.withD false =
        ((addingTwice 1).step .flat rp2a03).2.cpu.core.withD false) ∧
    (((addingTwice 2).step .flat rp2a03).1.accesses[2]? = some (.w 0x100 0x3C) ∧
      (((addingTwice 2).withD false).step .flat mos6502).1.accesses =
        ((addingTwice 2).step .flat rp2a03).1.accesses.set 2 (.w 0x100 0x34)) ∧
    ((addingTwice 3).step .flat rp2a03).2.cpu.core.p &&& flagD = 0 ∧
    (hostAct .flat rp2a03).shown (addingTwice 4) [.act .step, .act .step, .act .step] =
      (hostAct .flat mos6502).shown (addingTwice 4) [.act .step, .act .step, .act .step] := by
  have hstep (steps : ℕ) := (decimal_disconnected 0xEE 0xEE).1 (.host 0) (.host 1)
    (holding 0 [0xF8, 0x69, 0x0F, 0x08, 0xD8, 0x69, 0x0F, 0x08, 0xD8]) (List.replicate steps (.act .step))
  have hrp : ({ rp2a03 with aneConstant := 0xEE, lxaConstant := 0xEE } : Chip) = rp2a03 := rfl
  have hmos : ({ mos6502 with aneConstant := 0xEE, lxaConstant := 0xEE } : Chip) = mos6502 := rfl
  rw [hrp, hmos] at hstep
  refine ⟨⟨by decide +kernel, by decide +kernel, (hstep 1).2.2.1⟩, ?_, ?_, ?_⟩
  · have hpush := (hstep 2).2.2.2.2.1
    have hkind : ((addingTwice 2).step .flat rp2a03).1.kind = .instruction := by decide +kernel
    have hopcode : (addingTwice 2).host (addingTwice 2).cpu.core.pc = 0x08 := by decide +kernel
    have hs : (addingTwice 2).cpu.core.s = 0 := by decide +kernel
    have hp : (addingTwice 2).cpu.core.p = 0x2C := by decide +kernel
    rw [hkind, hopcode, hs, hp] at hpush
    exact hpush
  · have hd := (hstep 3).2.2.2.2.2
    have hkind : ((addingTwice 3).step .flat rp2a03).1.kind = .instruction := by decide +kernel
    have hopcode : (addingTwice 3).host (addingTwice 3).cpu.core.pc = 0xD8 := by decide +kernel
    rw [hkind, hopcode] at hd
    exact hd
  · refine ((decimal_disconnected 0xEE 0xEE).2 _ .flat (addingTwice 4) [.act .step, .act .step, .act .step]
      (.inl fun log hlog => ?_)).1
    simp only [System.shown, List.mem_cons, List.not_mem_nil, or_false] at hlog
    obtain h | h | h := hlog
    all_goals
      cases h
      decide +kernel

end Machine

end SixFiveOhTwo
