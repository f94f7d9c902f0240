import SixFiveOhTwo.Machine.Work
import SixFiveOhTwo.Polling.Cancel
import SixFiveOhTwo.Ranges.Runs

/-! # Interrupt frames

BRK, IRQ and NMI entries make the same seven accesses: two reads, three pushes in page one, and the two
of the vector. Which vector it is, and what becomes of the latch, `Poll.Step` says already; here are the
accesses themselves and the registers they leave.
-/

namespace SixFiveOhTwo
open Bits Interaction Code
set_option autoImplicit false

/-- The pushes of an interrupt sequence: the return address and P, down page one from S. -/
def frame (s returns pushedP : ℕ) : List Access := [
  .w (stack ||| s) (returns >>> 8),
  .w (stack ||| stackDown s 1) (returns &&& 0xFF),
  .w (stack ||| stackDown s 2) pushedP]

/-- What an interrupt sequence does to the registers, with the vector's bytes. -/
structure Entered (c c' : Core) (low high : Byte) : Prop where
  a : c'.a = c.a
  x : c'.x = c.x
  y : c'.y = c.y
  s : c'.s = stackDown c.s 3
  p : c'.p = c.p ||| flagI
  pc : c'.pc = high.val <<< 8 ||| low.val

/-! ## The three sequences -/

theorem interrupt_ensures (vector pushedP : ℕ) (g : Sight) :
    (Code.interrupt vector pushedP).Ensures (fun _ g' => ∃ v low high,
      g'.trace = g.trace ++ (frame g.core.s g.core.pc pushedP ++ [.r v low.val, .r (v + 1) high.val]) ∧
        (v = vector ∨ v = vectorNmi) ∧ Entered g.core g'.core low high) g := by
  -- the rest, from the choice of the vector on
  have hrest (v : ℕ) (g' : Sight) (hv : v = vector ∨ v = vectorNmi)
      (htrace : g'.trace = g.trace ++ [.w (stack ||| g.core.s) (g.core.pc >>> 8),
        .w (stack ||| stackDown g.core.s 1) (g.core.pc &&& 0xFF)])
      (hcore : g'.core = { g.core with s := stackDown g.core.s 2 }) :
      (do
        push pushedP
        update fun c => { c with p := c.p ||| flagI }
        let low ← read v
        let high ← read (v + 1)
        update ({ · with pc := (high <<< 8) ||| low })
        updatePoll ({ · with deferred := some noPoll }) : Code Unit).Ensures (fun _ g' => ∃ v low high,
      g'.trace = g.trace ++ (frame g.core.s g.core.pc pushedP ++ [.r v low.val, .r (v + 1) high.val]) ∧
        (v = vector ∨ v = vectorNmi) ∧ Entered g.core g'.core low high) g' := by
    simp only [push, ensures_bind, ensures_core, ensures_write, ensures_update, ensures_read,
      ensures_updatePoll, hcore, htrace, Sight.saw_core, Sight.saw_trace]
    intro low high
    exact ⟨v, low, high, by simp [frame], hv, rfl, rfl, rfl, rfl, rfl, rfl⟩
  simp only [Code.interrupt, push, ensures_bind, ensures_core, ensures_write, ensures_update, ensures_poll,
    Sight.saw_core]
  intro poll
  rw [ensures_ite]
  split
  · simp only [ensures_bind, ensures_updatePoll, ensures_pure]
    exact hrest vectorNmi _ (.inr rfl) (by simp [stackDown]) rfl
  · rw [ensures_bind, ensures_pure]
    exact hrest vector _ (.inl rfl) (by simp [stackDown]) rfl

/-- The accesses of a sequence that reads twice, pushes the frame and reads the vector. -/
def sequence (first second s returns pushedP vector : ℕ) (d e low high : Byte) : List Access :=
  .r first d.val :: .r second e.val :: (frame s returns pushedP ++ [.r vector low.val, .r (vector + 1) high.val])

theorem enterInterrupt_ensures (kind : ℕ) (g : Sight) :
    (enterInterrupt kind).Ensures (fun _ g' => ∃ d e v low high,
      g'.trace = g.trace ++ sequence g.core.pc g.core.pc g.core.s g.core.pc
        (without (g.core.p ||| flagU) flagB) v d e low high ∧
      (kind = nmiLatch → v = vectorNmi) ∧ Entered g.core g'.core low high) g := by
  simp only [enterInterrupt, ensures_bind, ensures_core, ensures_update, ensures_read]
  intro d e
  have hentry (vector : ℕ) (hvector : kind = nmiLatch → vector = vectorNmi) (g' : Sight)
      (htrace : g'.trace = g.trace ++ [.r g.core.pc d.val, .r g.core.pc e.val])
      (hcore : g'.core = { g.core with polledI := none }) :
      (do
        Code.interrupt vector (without ((← core).p ||| flagU) flagB)
        updatePoll ({ · with polled := some noPoll, deferred := none })
        return 7 : Code ℕ).Ensures (fun _ g' => ∃ d e v low high,
      g'.trace = g.trace ++ sequence g.core.pc g.core.pc g.core.s g.core.pc
        (without (g.core.p ||| flagU) flagB) v d e low high ∧
      (kind = nmiLatch → v = vectorNmi) ∧ Entered g.core g'.core low high) g' := by
    rw [ensures_bind, ensures_core, ensures_bind]
    refine (interrupt_ensures _ _ _).mono ?_
    rintro _ g'' ⟨v, low, high, htrace', hv, h⟩
    rw [ensures_bind, ensures_updatePoll, ensures_pure]
    rw [hcore] at htrace' h
    refine ⟨d, e, v, low, high, ?_, fun hkind => hv.elim (fun hv => hv.trans (hvector hkind)) id,
      h.a, h.x, h.y, h.s, h.p, h.pc⟩
    rw [htrace', htrace, sequence, List.append_assoc]
    rfl
  have hread : ((g.saw (.r g.core.pc d.val)).saw (.r g.core.pc e.val)).trace =
      g.trace ++ [.r g.core.pc d.val, .r g.core.pc e.val] := by
    rw [Sight.saw_trace, Sight.saw_trace, List.append_assoc]
    rfl
  by_cases hkind : kind = nmiLatch
  · have hvector : (if kind = nmiLatch then vectorNmi else vectorIrq) = vectorNmi := if_pos hkind
    rw [hvector, if_pos rfl, ensures_bind, ensures_updatePoll]
    exact hentry vectorNmi (fun _ => rfl) _ hread rfl
  · have hvector : (if kind = nmiLatch then vectorNmi else vectorIrq) = vectorIrq := if_neg hkind
    rw [hvector, if_neg (by decide)]
    exact hentry vectorIrq (fun h => absurd h hkind) _ hread rfl

theorem brk_ensures (g : Sight) :
    Implied.brk.op.Ensures (fun _ g' => ∃ (e : Byte) (v : ℕ) (low high : Byte),
      g'.trace = g.trace ++ .r g.core.pc e.val :: (frame g.core.s ((g.core.pc + 1) &&& 0xFFFF)
        (g.core.p ||| flagB ||| flagU) ++ [.r v low.val, .r (v + 1) high.val]) ∧
      Entered g.core g'.core low high) g := by
  simp only [Implied.op, opBrk, fetch, ensures_bind, ensures_core, ensures_update, ensures_read]
  intro e
  refine (interrupt_ensures _ _ _).mono ?_
  rintro _ g' ⟨v, low, high, htrace, -, h⟩
  refine ⟨e, v, low, high, ?_, h.a, h.x, h.y, h.s, h.p, h.pc⟩
  rw [htrace, Sight.saw_trace, List.append_assoc]
  rfl

/-- An instruction begins with its opcode, and BRK goes on as an interrupt sequence. -/
theorem instruction_ensures (chip : Chip) (g : Sight) :
    (Code.instruction chip).Ensures (fun _ g' => ∃ (opcode : Byte) (t : List Access),
      g'.trace = g.trace ++ .r g.core.pc opcode.val :: t ∧ ((opcodes opcode).isBrk = true →
        ∃ (e : Byte) (v : ℕ) (low high : Byte),
          t = .r ((g.core.pc + 1) &&& 0xFFFF) e.val :: (frame g.core.s ((g.core.pc + 2) &&& 0xFFFF)
            (g.core.p ||| flagB ||| flagU) ++ [.r v low.val, .r (v + 1) high.val]) ∧
          Entered g.core g'.core low high)) g := by
  apply ensures_instruction
  rw [execute, ensures_bind, ensures_core, ensures_bind]
  refine (ensures_readByte _ _).mpr fun opcode => ?_
  by_cases hbrk : (opcodes opcode).isBrk = true
  · obtain ⟨cycles, hop⟩ : ∃ cycles, opcodes opcode = .implied .brk cycles := by
      cases hop : opcodes opcode with
      | addressed handler mode cycles => simp [hop, Entry.isBrk] at hbrk
      | implied handler cycles =>
        rw [hop] at hbrk
        cases handler <;> first | exact ⟨cycles, rfl⟩ | cases hbrk
    rw [ensures_bind, ensures_update, ensures_bind, hop, dispatch]
    refine (brk_ensures _).mono ?_
    rintro _ g' ⟨e, v, low, high, htrace, h⟩
    have hwrap : ((g.core.pc + 1) &&& 0xFFFF) + 1 &&& 0xFFFF = (g.core.pc + 2) &&& 0xFFFF := by
      simp only [and_ffff]
      omega
    have hshown : g'.trace = g.trace ++ .r g.core.pc opcode.val :: .r ((g.core.pc + 1) &&& 0xFFFF) e.val ::
        (frame g.core.s ((g.core.pc + 2) &&& 0xFFFF) (g.core.p ||| flagB ||| flagU) ++
          [.r v low.val, .r (v + 1) high.val]) := by
      rw [htrace, Sight.saw_core, hwrap, Sight.saw_trace, List.append_assoc]
      rfl
    have hentered : Entered g.core g'.core low high := ⟨h.a, h.x, h.y, h.s, h.p, h.pc⟩
    simp only [ensures_bind, ensures_core, ensures_ite]
    split
    · simp only [ensures_update, ensures_pure]
      exact ⟨opcode, _, hshown, fun _ => ⟨e, v, low, high, rfl, h.a, h.x, h.y, h.s, h.p, h.pc⟩⟩
    · exact ⟨opcode, _, hshown, fun _ => ⟨e, v, low, high, rfl, hentered⟩⟩
  · refine (ensures_trace _ _).mono ?_
    rintro _ g' ⟨t, htrace⟩
    exact ⟨opcode, t, by rw [htrace, Sight.saw_trace, List.append_assoc]; rfl, fun h => absurd h hbrk⟩

/-! ## A step that enters -/

/-- Where an interrupt sequence returns to: PC, and for BRK two past its opcode. -/
def BoundaryKind.returns (kind : BoundaryKind) (c : Core) : ℕ :=
  if kind = .instruction then (c.pc + 2) &&& 0xFFFF else c.pc

/-- P as it is pushed: bit 5 set, and B for BRK alone. -/
def BoundaryKind.pushes (kind : BoundaryKind) (c : Core) : ℕ :=
  if kind = .instruction then c.p ||| flagB ||| flagU else without (c.p ||| flagU) flagB

/-- Where the second access reads: BRK's is the byte after its opcode. -/
def BoundaryKind.skips (kind : BoundaryKind) (c : Core) : ℕ :=
  if kind = .instruction then (c.pc + 1) &&& 0xFFFF else c.pc

/-- The vector is that of NMI: an NMI entry, or the latch set at the end of the fourth access. -/
def Machine.StepLog.UsesNmi (log : StepLog) : Prop :=
  log.kind = .nmi ∨ Latched (Poll.lastRequests 0 (log.trace.take 4))

instance (log : Machine.StepLog) : Decidable log.UsesNmi := inferInstanceAs (Decidable (_ ∨ _))

/-- The accesses of an interrupt sequence that begins on these registers, and the registers it leaves. -/
def Sequenced (kind : BoundaryKind) (c : Core) (t : List Access) (c' : Core) : Prop :=
  ∃ d e v low high, t = sequence c.pc (kind.skips c) c.s (kind.returns c) (kind.pushes c) v d e low high ∧
    (kind = .nmi → v = vectorNmi) ∧ Entered c c' low high

theorem Sequenced.of_decided {kind : BoundaryKind} {c c' : Core} {t : List Access}
    (h : Sequenced kind (c.decided kind) t c') : Sequenced kind c t c' := by
  obtain ⟨d, e, v, low, high, ht, hv, h⟩ := h
  cases kind <;> exact ⟨d, e, v, low, high, ht, hv, h.a, h.x, h.y, h.s, h.p, h.pc⟩

namespace Plain
variable {σ : Type} (H : Host σ) (chip : Chip)

theorem step_sequenced {q : Plain σ} (ht : q.trace = [])
    (henters : q.boundary = .nmi ∨ q.boundary = .irq ∨ q.boundary = .instruction ∧
      (opcodes (opcodeOf (exec H (Code.step chip) q).2.trace)).isBrk) :
    Sequenced q.boundary q.core ((exec H (Code.step chip) q).2.trace.map HostCall.access)
      (exec H (Code.step chip) q).2.core := by
  simp only [exec_step] at henters ⊢
  have hempty : q.decided.sighted.trace = [] := congrArg (List.map HostCall.access) ht
  have hdecided : q.decided.sighted.core = q.core.decided q.boundary := rfl
  apply Sequenced.of_decided
  cases hb : q.boundary with
  | nmi =>
    obtain ⟨d, e, v, low, high, htrace, hv, h⟩ :=
      exec_ensures H (enterInterrupt_ensures nmiLatch q.decided.sighted)
    rw [hempty, List.nil_append, hdecided, hb] at htrace
    rw [hdecided, hb] at h
    simp only [ran, hb, BoundaryKind.code]
    exact ⟨d, e, v, low, high, htrace, fun _ => hv rfl, h⟩
  | irq =>
    obtain ⟨d, e, v, low, high, htrace, -, h⟩ :=
      exec_ensures H (enterInterrupt_ensures irqLine q.decided.sighted)
    rw [hempty, List.nil_append, hdecided, hb] at htrace
    rw [hdecided, hb] at h
    simp only [ran, hb, BoundaryKind.code]
    exact ⟨d, e, v, low, high, htrace, (by cases ·), h⟩
  | instruction =>
    obtain ⟨opcode, t, htrace, hbrk⟩ := exec_ensures H (instruction_ensures chip q.decided.sighted)
    rw [hempty, List.nil_append] at htrace
    simp only [ran, hb, BoundaryKind.code] at henters ⊢
    have hfetch : ((exec H (Code.instruction chip) q.decided).2.trace.map HostCall.access)[0]? =
        some (.r q.decided.sighted.core.pc opcode) := by
      change (exec H (Code.instruction chip) q.decided).2.sighted.trace[0]? = _
      rw [htrace]
      rfl
    rw [opcodeOf_eq hfetch] at henters
    obtain ⟨e, v, low, high, rfl, h⟩ := hbrk (by simpa using henters)
    rw [hdecided, hb] at htrace h
    exact ⟨opcode, e, v, low, high, htrace, (by cases ·), h⟩
  | reset => simp [hb] at henters
  | jamIdle => simp [hb] at henters

end Plain

namespace Machine
variable {σ : Type} (H : Host σ) (chip : Chip)

/-- The accesses of an interrupt sequence, and the registers it leaves. -/
theorem step_sequenced {m : Machine σ} (h : m.Settled) (henters : (m.step H chip).1.Enters) :
    Sequenced (m.step H chip).1.kind m.cpu.core ((m.step H chip).1.trace.map HostCall.access)
      (m.step H chip).2.cpu.core := by
  obtain ⟨hkind, -, htrace, hplain, -⟩ := step_plain H chip h.1
  have hcore : (m.step H chip).2.cpu.core = (stepRun H chip m).2.core := congrArg Plain.core hplain
  have hboundary : (stepRun H chip m).1.1 = m.opened.boundary := by rw [stepRun, Plain.exec_step]
  rw [StepLog.Enters, hkind, htrace, hboundary] at henters
  rw [hkind, htrace, hcore, hboundary]
  exact Plain.step_sequenced H chip rfl henters

theorem requests_accesses_callsOf (p : Poll) (t : List HostCall) :
    (p.accesses t).requests = requestsAfter p.requests (callsOf t) := by
  induction t generalizing p with
  | nil => rfl
  | cons c t ih =>
    rw [Poll.accesses_cons, ih, Poll.access, Poll.applyCalls_requests]
    exact List.foldl_append.symm

/-- An interrupt sequence takes the latch where it uses the vector of NMI, and leaves it otherwise to the
calls made in it. -/
theorem step_takes {m : Machine σ} (h : m.Settled) (henters : (m.step H chip).1.Enters) :
    let log := (m.step H chip).1
    let found := requestsAfter m.cpu.poll.requests (callsOf (log.trace.take log.takenAfter))
    (m.step H chip).2.cpu.poll.requests = requestsAfter (if log.UsesNmi then without found nmiLatch else found)
        (callsOf (log.trace.drop log.takenAfter)) ∧
      (log.kind ≠ .nmi → ∃ value, (log.trace.map HostCall.access)[5]? =
        some (.r (if log.UsesNmi then vectorNmi else vectorIrq) value)) := by
  intro log found
  have hstep := step_cases H chip h
  by_cases hkind : log.kind = .nmi
  · refine ⟨?_, absurd hkind⟩
    have huses : log.UsesNmi := .inl hkind
    have htaken : log.takenAfter = 2 := if_pos hkind
    simp only [found, if_pos huses, htaken]
    change Poll.Step _ _ log.kind log.trace _ at hstep
    rw [hkind] at hstep
    generalize log.trace = trace at hstep
    generalize (m.step H chip).2.cpu.poll = p' at hstep
    cases hstep with
    | nmi t u hlen hlen' ht hu =>
      rw [List.take_left' hlen, List.drop_left' hlen]
      change ((m.cpu.poll.forget.accesses t).unlatched.accesses u).requests = _
      rw [requests_accesses_callsOf, Poll.unlatched, requests_accesses_callsOf]
      rfl
  · obtain ⟨t, u, htrace, hlen, ht, hvec, -, hend⟩ := hstep.frame (henters.resolve_left hkind)
    change log.trace = t ++ u at htrace
    have htaken : log.takenAfter = 4 := if_neg hkind
    have hlatched : log.UsesNmi ↔ Latched (m.cpu.poll.forget.accesses t).requests := by
      have hne : t ≠ [] := List.ne_nil_of_length_eq_add_one hlen
      rw [StepLog.UsesNmi, htrace, List.take_left' hlen, Poll.requests_accesses ht,
        Poll.lastRequests_of_ne_nil hne]
      exact ⟨fun huses => huses.resolve_left hkind, .inr⟩
    have hfive : (log.trace.map HostCall.access)[5]? = (u.map HostCall.access)[1]? := by
      rw [htrace, List.map_append, List.getElem?_append_right (by rw [List.length_map]; omega), List.length_map,
        hlen]
    obtain ⟨value, hlow⟩ := hvec.low
    simp only [found, htaken, htrace, List.take_left' hlen, List.drop_left' hlen]
    rw [hend]
    change ((m.cpu.poll.forget.accesses t).vectored.accesses u).requests = _ ∧ _
    rw [requests_accesses_callsOf]
    by_cases huses : log.UsesNmi
    · have hset := hlatched.mp huses
      have hvectored : (m.cpu.poll.forget.accesses t).vectored = (m.cpu.poll.forget.accesses t).unlatched :=
        if_pos hset
      rw [if_pos huses, if_pos huses, hvectored, Poll.unlatched, requests_accesses_callsOf]
      refine ⟨rfl, fun _ => ⟨value, ?_⟩⟩
      rw [Poll.vector_latched hset] at hlow
      rw [← htrace, hfive, hlow]
    · have hclear := mt hlatched.mpr huses
      have hvectored : (m.cpu.poll.forget.accesses t).vectored = m.cpu.poll.forget.accesses t := if_neg hclear
      rw [if_neg huses, if_neg huses, hvectored, requests_accesses_callsOf]
      refine ⟨rfl, fun _ => ⟨value, ?_⟩⟩
      rw [Poll.vector_unlatched hclear] at hlow
      rw [← htrace, hfive, hlow]

/-- **Interrupt frames.** In every state a host and its debugger can bring a constructed processor to,
whatever its callbacks call: BRK, IRQ and NMI entries push the return address and P down page one, load
PC from the vector of NMI where they are an NMI entry or find its latch set at the end of their fourth
access, and take the latch there; what is called later stays. -/
theorem interrupt_frames (readByte writeByte : Callable) (host : σ) (actions : List (HostAction σ)) :
    let m := (hostAct H chip).final (start readByte writeByte host) actions
    let log := (m.step H chip).1
    let c := m.cpu.core
    let c' := (m.step H chip).2.cpu.core
    let vector := if log.UsesNmi then vectorNmi else vectorIrq
    let found := requestsAfter m.cpu.poll.requests (callsOf (log.trace.take log.takenAfter))
    let later := callsOf (log.trace.drop log.takenAfter)
    let requests := (m.step H chip).2.cpu.poll.requests
    log.Enters →
      (∃ d e low high,
        log.trace.map HostCall.access = [.r c.pc d, .r (log.kind.skips c) e] ++
          frame c.s (log.kind.returns c) (log.kind.pushes c) ++ [.r vector low, .r (vector + 1) high] ∧
        c'.pc = high <<< 8 ||| low) ∧
      c'.s = stackDown c.s 3 ∧ c'.p = c.p ||| flagI ∧ c'.a = c.a ∧ c'.x = c.x ∧ c'.y = c.y ∧
      requests = requestsAfter (if log.UsesNmi then without found nmiLatch else found) later ∧
      (log.UsesNmi → .requestNonMaskableInterrupt ∉ later → ¬Latched requests) ∧
      (∀ earlier rest, later = earlier ++ .requestNonMaskableInterrupt :: rest →
        .clearNonMaskableInterrupt ∉ rest → Latched requests) := by
  intro m log c c' vector found later requests henters
  have hm : m.Settled := System.final_preserves (hostAct_settled H chip) ⟨.init readByte writeByte, rfl⟩ actions
  obtain ⟨d, e, v, low, high, htrace, hnmi, hentered⟩ := step_sequenced H chip hm henters
  obtain ⟨hrequests, hvector⟩ := step_takes H chip hm henters
  have hv : v = vector := by
    by_cases hkind : log.kind = .nmi
    · exact (hnmi hkind).trans (if_pos (.inl hkind)).symm
    · obtain ⟨value, hfive⟩ := hvector hkind
      rw [htrace] at hfive
      exact (Access.r.inj (Option.some.inj hfive)).1
  subst hv
  refine ⟨⟨d, e, low, high, htrace, hentered.pc⟩, hentered.s, hentered.p, hentered.a, hentered.x, hentered.y,
    hrequests, fun huses hnone => ?_, fun earlier rest hlater hnone => ?_⟩
  · have hkeeps : ∀ call ∈ later, call.Keeps fun r => ¬Latched r :=
      fun call hcall => unlatched_keeps fun he => hnone (he ▸ hcall)
    change requests = requestsAfter (if log.UsesNmi then without found nmiLatch else found) later at hrequests
    rw [hrequests, if_pos huses]
    exact requestsAfter_keeps hkeeps (not_latched_without found)
  · have hkeeps : ∀ call ∈ rest, call.Keeps Latched := fun call hcall => latched_keeps fun he => hnone (he ▸ hcall)
    change requests = requestsAfter _ later at hrequests
    rw [hrequests, hlater, requestsAfter, List.foldl_append, List.foldl_cons]
    exact requestsAfter_keeps hkeeps ((latched_or _ nmiLatch).mpr (.inr (by decide)))

/-- An IRQ entry from S = 1, whose third access requests NMI. -/
def takenOver : Machine (List (List Call)) :=
  (hostAct scripted mos6502).final
    (start (.host 0) (.host 0) [[], [], [.requestNonMaskableInterrupt], [], [], [], []])
    [.restore { CPUState.poised 0 0 0 1 false with maskableInterruptPending := true }]

/-- Its frame wraps in page one, and its vector is that of NMI. -/
theorem interrupt_frames_takenOver :
    (∃ d e low high, (takenOver.step scripted mos6502).1.trace.map HostCall.access =
      [.r 0 d, .r 0 e, .w 0x101 0, .w 0x100 0, .w 0x1FF 0x20, .r 0xFFFA low, .r 0xFFFB high]) ∧
      (takenOver.step scripted mos6502).2.cpu.core.s = 0xFE ∧
      ¬Latched (takenOver.step scripted mos6502).2.cpu.poll.requests := by
  have henters : (takenOver.step scripted mos6502).1.Enters := by decide +kernel
  have huses : (takenOver.step scripted mos6502).1.UsesNmi := by decide +kernel
  have hkind : (takenOver.step scripted mos6502).1.kind = .irq := by decide +kernel
  obtain ⟨⟨d, e, low, high, htrace, -⟩, hs, -, -, -, -, -, htaken, -⟩ :=
    interrupt_frames scripted mos6502 (.host 0) (.host 0)
      [[], [], [.requestNonMaskableInterrupt], [], [], [], []]
      [.restore { CPUState.poised 0 0 0 1 false with maskableInterruptPending := true }] henters
  refine ⟨⟨d, e, low, high, htrace.trans ?_⟩, hs, htaken huses (by decide +kernel)⟩
  change [_, .r (BoundaryKind.skips (takenOver.step scripted mos6502).1.kind _) _] ++
    frame _ (BoundaryKind.returns (takenOver.step scripted mos6502).1.kind _)
      (BoundaryKind.pushes (takenOver.step scripted mos6502).1.kind _) ++
    [.r (if (takenOver.step scripted mos6502).1.UsesNmi then vectorNmi else vectorIrq) low,
      .r ((if (takenOver.step scripted mos6502).1.UsesNmi then vectorNmi else vectorIrq) + 1) high] = _
  rw [hkind, if_pos huses]
  rfl

end Machine

end SixFiveOhTwo
