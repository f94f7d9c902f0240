import SixFiveOhTwo.Machine.Boundary

/-! # A processor on a flat memory

A flat memory answers a read with the byte it holds and keeps the byte of a write, so `Flat` shows a
run whole: the registers, the memory and the accesses made. What is left open is the poll and
`dma_stalled`, which the host's calls decide between steps.
-/

namespace SixFiveOhTwo
open Interaction
set_option autoImplicit false

/-- The registers, the memory, and the accesses since the step began. -/
structure Flat where
  core : Core
  memory : ℕ → Byte
  trace : List Access

namespace Flat

/-- A read. -/
def read (g : Flat) (address : ℕ) : Flat :=
  { g with trace := g.trace ++ [.r address (g.memory address).val] }

/-- A write. -/
def write (g : Flat) (address value : ℕ) : Flat :=
  { g with
    memory := Function.update g.memory address (Fin.ofNat 256 value)
    trace := g.trace ++ [.w address value] }

variable (g : Flat) (address value : ℕ)

@[simp] theorem read_core : (g.read address).core = g.core := rfl
@[simp] theorem read_memory : (g.read address).memory = g.memory := rfl
@[simp] theorem read_trace : (g.read address).trace = g.trace ++ [.r address (g.memory address).val] := rfl
@[simp] theorem write_core : (g.write address value).core = g.core := rfl
@[simp] theorem write_memory :
    (g.write address value).memory = Function.update g.memory address (Fin.ofNat 256 value) := rfl
@[simp] theorem write_trace : (g.write address value).trace = g.trace ++ [.w address value] := rfl

/-- The machine when an opcode has been fetched. -/
def fetched (g : Flat) : Flat :=
  { g.read g.core.pc with core := { g.core with pc := (g.core.pc + 1) &&& 0xFFFF } }

end Flat

/-- What an operation answers on a flat memory, and what it changes. -/
def flat : Tree.View Op.Ans Flat
  | .read address, g, value, g' => value = g.memory address ∧ g' = g.read address
  | .write address value, g, _, g' => g' = g.write address value
  | .core, g, core, g' => core = g.core ∧ g' = g
  | .setCore core, g, _, g' => g' = { g with core }
  | .dmaStalled, g, _, g' => g' = g
  | .poll, g, _, g' => g' = g
  | .setPoll _, g, _, g' => g' = g

namespace Code
variable {α : Type}

/-- On a flat memory, `code` returns into `post`. -/
def OnFlat (code : Code α) (post : α → Flat → Prop) (g : Flat) : Prop := Tree.wp flat post code g

variable {post : α → Flat → Prop} {g : Flat}

@[simp] theorem onFlat_pure (a : α) : (pure a : Code α).OnFlat post g ↔ post a g := Iff.rfl

@[simp] theorem onFlat_bind {β : Type} {post : β → Flat → Prop} (code : Code α) (f : α → Code β) :
    (code >>= f).OnFlat post g ↔ code.OnFlat (fun a => (f a).OnFlat post) g := Tree.wp_bind ..

@[simp] theorem onFlat_map {β : Type} {post : β → Flat → Prop} (f : α → β) (code : Code α) :
    (f <$> code).OnFlat post g ↔ code.OnFlat (fun a => post (f a)) g := Tree.wp_map ..

@[simp] theorem onFlat_ite (p : Prop) [Decidable p] (yes no : Code α) :
    (if p then yes else no).OnFlat post g ↔ if p then yes.OnFlat post g else no.OnFlat post g := by
  split <;> rfl

@[simp] theorem onFlat_ask {post : Byte → Flat → Prop} (address : ℕ) :
    OnFlat (ask (.read address)) post g ↔ post (g.memory address) (g.read address) :=
  ⟨fun h => h _ _ ⟨rfl, rfl⟩, fun h _ _ ⟨hv, hg⟩ => hv ▸ hg ▸ h⟩

@[simp] theorem onFlat_read {post : ℕ → Flat → Prop} (address : ℕ) :
    (read address).OnFlat post g ↔ post (g.memory address).val (g.read address) := onFlat_ask address

@[simp] theorem onFlat_write {post : Unit → Flat → Prop} (address value : ℕ) :
    (write address value).OnFlat post g ↔ post () (g.write address value) :=
  ⟨fun h => h () _ rfl, fun h _ _ hg => hg ▸ h⟩

@[simp] theorem onFlat_core {post : Core → Flat → Prop} : core.OnFlat post g ↔ post g.core g :=
  ⟨fun h => h _ _ ⟨rfl, rfl⟩, fun h _ _ ⟨hc, hg⟩ => hc ▸ hg ▸ h⟩

@[simp] theorem onFlat_setCore {post : Unit → Flat → Prop} (c : Core) :
    (setCore c).OnFlat post g ↔ post () { g with core := c } :=
  ⟨fun h => h () _ rfl, fun h _ _ hg => hg ▸ h⟩

@[simp] theorem onFlat_update {post : Unit → Flat → Prop} (f : Core → Core) :
    (update f).OnFlat post g ↔ post () { g with core := f g.core } := by
  simp only [update, onFlat_bind, onFlat_core, onFlat_setCore]

@[simp] theorem onFlat_dmaStalled {post : Bool → Flat → Prop} :
    dmaStalled.OnFlat post g ↔ ∀ stalled, post stalled g :=
  ⟨fun h stalled => h stalled _ rfl, fun h stalled _ hg => hg ▸ h stalled⟩

@[simp] theorem onFlat_poll {post : Poll → Flat → Prop} : poll.OnFlat post g ↔ ∀ poll, post poll g :=
  ⟨fun h poll => h poll _ rfl, fun h poll _ hg => hg ▸ h poll⟩

@[simp] theorem onFlat_setPoll {post : Unit → Flat → Prop} (p : Poll) :
    (setPoll p).OnFlat post g ↔ post () g :=
  ⟨fun h => h () _ rfl, fun h _ _ hg => hg ▸ h⟩

@[simp] theorem onFlat_updatePoll {post : Unit → Flat → Prop} (f : Poll → Poll) :
    (updatePoll f).OnFlat post g ↔ post () g := by
  simp only [updatePoll, onFlat_bind, onFlat_poll, onFlat_setPoll]
  exact ⟨fun h => h {}, fun h _ => h⟩

theorem OnFlat.mono {code : Code α} {post' : α → Flat → Prop} (h : code.OnFlat post g)
    (hpost : ∀ a g, post a g → post' a g) : code.OnFlat post' g := Tree.wp_mono h hpost

/-- What an instruction leaves in the poll shows in no register and no byte. -/
theorem onFlat_instruction {chip : Chip} {post : ℕ → Flat → Prop} (h : (execute chip).OnFlat post g) :
    (instruction chip).OnFlat post g := by
  rw [instruction, onFlat_bind]
  apply h.mono
  intro cycles g' hpost
  rw [onFlat_bind, onFlat_poll]
  intro poll
  cases poll.deferred with
  | none => exact hpost
  | some deferred => simpa only [onFlat_bind, onFlat_setPoll, onFlat_pure] using hpost

end Code

namespace Plain

/-- What shows of a machine on a flat memory. -/
def flat (q : Plain (ℕ → Byte)) : Flat where
  core := q.core
  memory := q.host
  trace := q.trace.map HostCall.access

theorem handle_respects_flat : Tree.Respects (handle .flat) flat SixFiveOhTwo.flat := by
  intro op q
  cases op with
  | read address =>
    exact ⟨rfl, congrArg (Flat.mk q.core q.host) (by simp [handle, called, flat, Poll.record, Host.flat])⟩
  | write address value =>
    exact congrArg (Flat.mk q.core _) (by simp [handle, called, flat, Poll.record, Host.flat])
  | core => exact ⟨rfl, rfl⟩
  | setCore core => rfl
  | dmaStalled => rfl
  | poll => rfl
  | setPoll poll => rfl

theorem exec_onFlat {α : Type} {code : Code α} {post : α → Flat → Prop} {q : Plain (ℕ → Byte)}
    (h : code.OnFlat post q.flat) : post (exec .flat code q).1 (exec .flat code q).2.flat :=
  Tree.wp_run handle_respects_flat h

end Plain

/-- A memory that holds these bytes from an address on, and zeros. -/
def Machine.holding (base : ℕ) (bytes : List Byte) (address : ℕ) : Byte :=
  bytes.getD ((address + 0x10000 - base) &&& 0xFFFF) 0

end SixFiveOhTwo
