import FrazzOS.Devices.Ps2
import FrazzOS.Proc.Cycle

/-!
# Idt — Stub

The stubs `timer_irq` and `keyboard_irq` of `idt/idt.asm` with the C code they call, as far as the
interrupt flag goes: one step for each instruction that changes the flag and for each call.  A task
has the interrupts it is in the middle of, innermost first (`Cpu.active`); those of a task that is
switched away stay with it (`Cpu.suspended`).

* `Quiet`: the flag is 0 while any interrupt of the running task is before its stub's own `sti`.
* `Unnested.step`: a step keeps it so, unless it executes a `sti` inside a handler; a timer
  interrupt (`TimerOnly`) executes none.
-/

namespace FrazzOS.Idt
open Proc Devices Runs

/-- A step of a stub, or of the C code below it. -/
inductive Op where
  | cli
  | sti
  | iretq
  | timerIrqHandler (ret : BitVec 64)
  | keyboardIrqHandler (scancode : BitVec 8)
  | lock
  | termPrintString (str : List (BitVec 8))
  | unlock
  | lapicEoi
  deriving DecidableEq

/-- `timer_irq`, where `ret` is the return address of the call of `switch_to_task_asm`. -/
def timerIrq (ret : BitVec 64) : List Op := [.cli, .timerIrqHandler ret, .sti, .iretq]

/-- `keyboard_irq`, where the data port is to deliver `scancode`. -/
def keyboardIrq (scancode : BitVec 8) : List Op := [.cli, .keyboardIrqHandler scancode, .sti, .iretq]

/-- `kprint`. -/
def kprint (str : List (BitVec 8)) : List Op :=
  [.cli, .lock, .termPrintString str, .unlock, .sti]

/-- `print_key`. -/
def printKey (key : Key) : List Op := kprint (keyBuf key)

/-- `keyboard_irq_handler` once `keyboard_handler` has read the key. -/
def keyboardIrqHandler (key : Key) : List Op := printKey key ++ [.lapicEoi]

/-- An interrupt in progress: what is left of it, and the interrupt flag in the frame that its
`iretq` pops. -/
structure Activation where
  ops : List Op
  flag : Bool

/-- The machine with the interrupt flag, the modifier flags of the keyboard, and the interrupts in
progress of the running task and of the others. -/
structure Cpu where
  machine : Machine
  keys : Modifiers
  iflag : Bool
  active : List Activation
  suspended : BitVec 64 → List Activation

inductive CpuEvent where
  | create (main : BitVec 64)
  | work
  | timer (ret : BitVec 64)
  | keyboard (scancode : BitVec 8)
  | exec

/-- An interrupt taken through its gate, which clears the flag. -/
def Cpu.interrupt (s : Cpu) (stub : List Op) : Cpu :=
  { s with iflag := false, active := ⟨stub, s.iflag⟩ :: s.active }

/-- The steps that only change the flag, or nothing. -/
def Op.flag : Op → Bool → Option Bool
  | .cli, _ => some false
  | .sti, _ => some true
  | .lock, iflag => some iflag
  | .termPrintString _, iflag => some iflag
  | .unlock, iflag => some iflag
  | .lapicEoi, iflag => some iflag
  | _, _ => none

/-- The interrupts of each task once the running one is switched away. -/
def Cpu.leave (s : Cpu) (active : List Activation) : BitVec 64 → List Activation :=
  Function.update s.suspended s.machine.currentTask active

/-- One step, where `beyond` lies in memory behind `keycodes`.  Interrupts are taken with the flag
set, between any two steps; a switch goes on with the interrupts that the next task was in the
middle of, or in its own code. -/
inductive CpuStep (beyond : Nat → BitVec 32) : Cpu → CpuEvent → Cpu → Prop where
  | create {s : Cpu} {main p : BitVec 64} {m' : Machine} :
      s.active = [] → createProcess s.machine main = some (p, m') →
      CpuStep beyond s (.create main)
        { s with machine := addProcess m' p, suspended := Function.update s.suspended p [] }
  | work {s : Cpu} {m' : Machine} {iflag : Bool} :
      s.active = [] → OwnCode s.machine m' →
      CpuStep beyond s .work { s with machine := m', iflag := iflag }
  | timer {s : Cpu} {ret : BitVec 64} :
      s.iflag = true → CpuStep beyond s (.timer ret) (s.interrupt (timerIrq ret))
  | keyboard {s : Cpu} {scancode : BitVec 8} :
      s.iflag = true → CpuStep beyond s (.keyboard scancode) (s.interrupt (keyboardIrq scancode))
  | flag {s : Cpu} {op : Op} {ops : List Op} {flag iflag : Bool} {rest : List Activation} :
      s.active = ⟨op :: ops, flag⟩ :: rest → op.flag s.iflag = some iflag →
      CpuStep beyond s .exec { s with iflag := iflag, active := ⟨ops, flag⟩ :: rest }
  | iretq {s : Cpu} {ops : List Op} {flag : Bool} {rest : List Activation} :
      s.active = ⟨.iretq :: ops, flag⟩ :: rest →
      CpuStep beyond s .exec { s with iflag := flag, active := rest }
  | keys {s : Cpu} {scancode : BitVec 8} {ops : List Op} {flag : Bool} {rest : List Activation} :
      s.active = ⟨.keyboardIrqHandler scancode :: ops, flag⟩ :: rest →
      CpuStep beyond s .exec { s with
        keys := (keyboardKey beyond s.keys scancode).1
        active := ⟨keyboardIrqHandler (keyboardKey beyond s.keys scancode).2 ++ ops, flag⟩ :: rest }
  | slice {s : Cpu} {ret : BitVec 64} {ops : List Op} {flag : Bool} {rest : List Activation}
      {m' : Machine} :
      s.active = ⟨.timerIrqHandler ret :: ops, flag⟩ :: rest →
      (s.machine.tasks s.machine.currentTask).timeSlice ≠ 0 →
      timerIrqHandler ret s.machine = some m' →
      CpuStep beyond s .exec { s with machine := m', active := ⟨ops, flag⟩ :: rest }
  | switch {s : Cpu} {ret next : BitVec 64} {ops : List Op} {flag : Bool} {rest : List Activation}
      {m₁ m' : Machine} :
      s.active = ⟨.timerIrqHandler ret :: ops, flag⟩ :: rest →
      (s.machine.tasks s.machine.currentTask).timeSlice = 0 →
      getNextTask (s.machine.setSlice quantum) = some (next, m₁) →
      timerIrqHandler ret s.machine = some m' →
      CpuStep beyond s .exec { s with
        machine := m'
        active := s.leave (⟨ops, flag⟩ :: rest) next
        suspended := s.leave (⟨ops, flag⟩ :: rest) }

/-- The interrupt is in progress up to its stub's own `sti`, which leaves the `iretq`. -/
def Activation.InHandler (a : Activation) : Prop := a.ops ≠ [.iretq]

/-- The flag is 0 while a handler of the running task is in progress. -/
def Quiet (s : Cpu) : Prop := ∀ a ∈ s.active, a.InHandler → s.iflag = false

def CpuEvent.IsInterrupt : CpuEvent → Prop
  | .timer _ => True
  | .keyboard _ => True
  | _ => False

/-- The flag is 0 inside handlers after the step, and an interrupt taken is taken inside none. -/
structure NotNested (t : Taken Cpu CpuEvent) : Prop where
  quiet : Quiet t.after
  outside : t.event.IsInterrupt → ∀ a ∈ t.before.active, ¬ a.InHandler

/-- A `sti` that the step executes is the stub's own. -/
def OwnSti (t : Taken Cpu CpuEvent) : Prop :=
  ∀ ops flag rest, t.event = .exec → t.before.active = ⟨.sti :: ops, flag⟩ :: rest → ops = [.iretq]

/-! ### The invariant -/

/-- All but the innermost interrupt are past their `sti`. -/
def OuterDone (active : List Activation) : Prop := ∀ a ∈ active.tail, ¬ a.InHandler

/-- The invariant, which speaks of the switched-away tasks too. -/
structure Unnested (s : Cpu) : Prop where
  quiet : Quiet s
  active : OuterDone s.active
  suspended : ∀ t, OuterDone (s.suspended t)

/-- Where the running interrupt has a step before its `iretq`, the flag is 0. -/
theorem Unnested.iflag {s : Cpu} {op : Op} {ops : List Op} {flag : Bool} {rest : List Activation}
    (h : Unnested s) (ha : s.active = ⟨op :: ops, flag⟩ :: rest) (hop : op ≠ .iretq) :
    s.iflag = false := by
  refine h.quiet ⟨op :: ops, flag⟩ (by simp [ha]) fun he => hop ?_
  exact (List.cons.inj he).1

theorem OuterDone.cons {a : Activation} {ops : List Op} {flag : Bool} {rest : List Activation}
    (h : OuterDone (a :: rest)) : OuterDone (⟨ops, flag⟩ :: rest) := h

theorem Unnested.leave {s : Cpu} {active : List Activation} (h : Unnested s)
    (ha : OuterDone active) (t : BitVec 64) : OuterDone (s.leave active t) := by
  by_cases ht : t = s.machine.currentTask
  · simpa [Cpu.leave, ht] using ha
  · simpa [Cpu.leave, ht] using h.suspended t

/-- With the flag 0, or no handler in progress, all is quiet. -/
theorem quiet_of_iflag {s : Cpu} (h : s.iflag = false) : Quiet s := fun _ _ _ => h

/-- An interrupt taken. -/
theorem Unnested.interrupt {s : Cpu} (h : Unnested s) (hs : s.iflag = true) (stub : List Op) :
    Unnested (s.interrupt stub) where
  quiet := quiet_of_iflag rfl
  active a ha hin := by
    have hoff := h.quiet a ha hin
    rw [hs] at hoff
    cases hoff
  suspended := h.suspended

/-- A step that changes what is left of the running interrupt, and no other. -/
theorem Unnested.advance {s s' : Cpu} {a : Activation} {ops : List Op} {flag : Bool}
    {rest : List Activation} (h : Unnested s) (ha : s.active = a :: rest)
    (ha' : s'.active = ⟨ops, flag⟩ :: rest) (hsus : s'.suspended = s.suspended)
    (hquiet : s'.iflag = false ∨ ops = [.iretq]) : Unnested s' := by
  have houter : ∀ a ∈ rest, ¬ a.InHandler := by simpa [OuterDone, ha] using h.active
  refine ⟨fun b hb hin => ?_, ?_, fun t => hsus ▸ h.suspended t⟩
  · rcases hquiet with hoff | hlast
    · exact hoff
    · rw [ha'] at hb
      rcases List.mem_cons.mp hb with rfl | hb
      · exact absurd hlast hin
      · exact absurd hin (houter b hb)
  · rw [ha']
    exact houter

/-- **One step** keeps handlers unnested, unless it executes a `sti` inside one. -/
theorem Unnested.step {beyond : Nat → BitVec 32} {s s' : Cpu} {e : CpuEvent} (h : Unnested s)
    (hq : OwnSti ⟨s, e, s'⟩) (hs : CpuStep beyond s e s') : Unnested s' := by
  cases hs with
  | @create main p _ hown _ =>
      refine ⟨fun a ha => ?_, fun a ha => ?_, fun t => ?_⟩
      · simp [hown] at ha
      · simp [hown] at ha
      · by_cases ht : t = p
        · simp [ht, OuterDone]
        · simpa [ht] using h.suspended t
  | work hown _ =>
      refine ⟨fun a ha => ?_, h.active, h.suspended⟩
      simp [hown] at ha
  | timer hon => exact h.interrupt hon _
  | keyboard hon => exact h.interrupt hon _
  | @flag op ops flag iflag rest ha hop =>
      refine h.advance ha rfl rfl ?_
      by_cases hsti : op = .sti
      · subst hsti
        exact Or.inr (hq ops flag rest rfl ha)
      · have hoff := h.iflag ha (by rintro rfl; cases hop)
        refine Or.inl ?_
        rw [hoff] at hop
        cases op with
        | sti => exact absurd rfl hsti
        | iretq => cases hop
        | timerIrqHandler => cases hop
        | keyboardIrqHandler => cases hop
        | cli => exact (Option.some.inj hop).symm
        | lock => exact (Option.some.inj hop).symm
        | termPrintString => exact (Option.some.inj hop).symm
        | unlock => exact (Option.some.inj hop).symm
        | lapicEoi => exact (Option.some.inj hop).symm
  | @iretq ops flag rest ha =>
      have houter : ∀ a ∈ rest, ¬ a.InHandler := by simpa [OuterDone, ha] using h.active
      refine ⟨fun a hmem hin => absurd hin (houter a hmem), fun a hmem => ?_, h.suspended⟩
      exact houter a (List.mem_of_mem_tail hmem)
  | keys ha => exact h.advance ha rfl rfl (Or.inl (h.iflag ha nofun))
  | slice ha _ _ => exact h.advance ha rfl rfl (Or.inl (h.iflag ha nofun))
  | @switch ret next ops flag rest m₁ m' ha hz hn ht =>
      have hrest : OuterDone (⟨ops, flag⟩ :: rest) := (ha ▸ h.active : OuterDone (_ :: rest)).cons
      exact ⟨quiet_of_iflag (h.iflag ha nofun), h.leave hrest next, h.leave hrest⟩

/-- A step that executes no `sti` inside a handler leaves the flag 0 inside handlers, and takes no
interrupt inside one. -/
theorem Unnested.notNested {beyond : Nat → BitVec 32} {s s' : Cpu} {e : CpuEvent}
    (h : Unnested s) (hq : OwnSti ⟨s, e, s'⟩) (hs : CpuStep beyond s e s') :
    NotNested ⟨s, e, s'⟩ := by
  refine ⟨(h.step hq hs).quiet, fun he a ha hin => ?_⟩
  have hoff := h.quiet a ha hin
  cases hs with
  | timer hon => rw [hon] at hoff; cases hoff
  | keyboard hon => rw [hon] at hoff; cases hoff
  | create => cases he
  | work => cases he
  | flag => cases he
  | iretq => cases he
  | keys => cases he
  | slice => cases he
  | switch => cases he

/-- A start of a run, in the tasks' own code. -/
def Cpu.start (m : Machine) (keys : Modifiers) (iflag : Bool) : Cpu where
  machine := m
  keys := keys
  iflag := iflag
  active := []
  suspended _ := []

theorem unnested_start (m : Machine) (keys : Modifiers) (iflag : Bool) :
    Unnested (Cpu.start m keys iflag) where
  quiet _ ha := nomatch ha
  active _ ha := nomatch ha
  suspended _ _ ha := nomatch ha

/-- No modifier key held, no lock on. -/
def noModifiers : Modifiers := ⟨false, false, false, false, false, false⟩

/-! ### Without the keyboard -/

/-- A rest of `timer_irq`. -/
def InTimer (ops : List Op) : Prop := ∃ ret, ops <:+ timerIrq ret

theorem InTimer.tail {op : Op} {ops : List Op} (h : InTimer (op :: ops)) : InTimer ops := by
  obtain ⟨ret, h⟩ := h
  exact ⟨ret, (List.suffix_cons op ops).trans h⟩

theorem InTimer.sti {ops : List Op} (h : InTimer (.sti :: ops)) : ops = [.iretq] := by
  obtain ⟨ret, h⟩ := h
  simpa [timerIrq, List.suffix_cons_iff] using h

theorem InTimer.not_keyboard {scancode : BitVec 8} {ops : List Op}
    (h : InTimer (.keyboardIrqHandler scancode :: ops)) : False := by
  obtain ⟨ret, h⟩ := h
  simp [timerIrq, List.suffix_cons_iff] at h

/-- All interrupts in progress are timer interrupts. -/
structure TimerOnly (s : Cpu) : Prop where
  active : ∀ a ∈ s.active, InTimer a.ops
  suspended : ∀ t, ∀ a ∈ s.suspended t, InTimer a.ops

theorem timerOnly_start (m : Machine) (keys : Modifiers) (iflag : Bool) :
    TimerOnly (Cpu.start m keys iflag) where
  active _ ha := nomatch ha
  suspended _ _ ha := nomatch ha

/-- A timer interrupt executes no `sti` but its stub's own. -/
theorem TimerOnly.ownSti {s s' : Cpu} {e : CpuEvent} (h : TimerOnly s) : OwnSti ⟨s, e, s'⟩ := by
  intro ops flag rest _ ha
  exact (h.active ⟨.sti :: ops, flag⟩ (by simp [show s.active = _ from ha])).sti

/-- The running interrupt goes on. -/
theorem TimerOnly.advance {s s' : Cpu} {op : Op} {ops : List Op} {flag : Bool}
    {rest : List Activation} (h : TimerOnly s) (ha : s.active = ⟨op :: ops, flag⟩ :: rest)
    (hactive : ∀ a ∈ s'.active, a = ⟨ops, flag⟩ ∨ a ∈ rest)
    (hsus : s'.suspended = s.suspended) : TimerOnly s' := by
  refine ⟨fun a hmem => ?_, fun t => hsus ▸ h.suspended t⟩
  rcases hactive a hmem with rfl | hmem
  · exact (h.active ⟨op :: ops, flag⟩ (by simp [ha])).tail
  · exact h.active a (by simp [ha, hmem])

theorem TimerOnly.leave {s : Cpu} {active : List Activation} (h : TimerOnly s)
    (ha : ∀ a ∈ active, InTimer a.ops) (t : BitVec 64) : ∀ a ∈ s.leave active t, InTimer a.ops := by
  by_cases ht : t = s.machine.currentTask
  · simpa [Cpu.leave, ht] using ha
  · simpa [Cpu.leave, ht] using h.suspended t

/-- **One step** other than a keyboard interrupt. -/
theorem TimerOnly.step {beyond : Nat → BitVec 32} {s s' : Cpu} {e : CpuEvent} (h : TimerOnly s)
    (he : ∀ scancode, e ≠ .keyboard scancode) (hs : CpuStep beyond s e s') : TimerOnly s' := by
  cases hs with
  | @create main p _ _ _ =>
      refine ⟨h.active, fun t => ?_⟩
      by_cases ht : t = p
      · simp [ht]
      · simpa [ht] using h.suspended t
  | work _ _ => exact ⟨h.active, h.suspended⟩
  | @timer ret _ =>
      refine ⟨fun a ha => ?_, h.suspended⟩
      rcases List.mem_cons.mp ha with rfl | ha
      · exact ⟨ret, List.suffix_rfl⟩
      · exact h.active a ha
  | @keyboard scancode _ => exact absurd rfl (he scancode)
  | flag ha _ => exact h.advance ha (fun a => List.mem_cons.mp) rfl
  | iretq ha => exact h.advance ha (fun a hmem => Or.inr hmem) rfl
  | @keys scancode ops flag rest ha =>
      exact ((h.active ⟨.keyboardIrqHandler scancode :: ops, flag⟩ (by simp [ha])).not_keyboard).elim
  | slice ha _ _ => exact h.advance ha (fun a => List.mem_cons.mp) rfl
  | @switch ret next ops flag rest m₁ m' ha hz hn ht =>
      have hrest : ∀ a ∈ ⟨ops, flag⟩ :: rest, InTimer a.ops := by
        intro a hmem
        rcases List.mem_cons.mp hmem with rfl | hmem
        · exact (h.active ⟨.timerIrqHandler ret :: ops, flag⟩ (by simp [ha])).tail
        · exact h.active a (by simp [ha, hmem])
      exact ⟨h.leave hrest next, h.leave hrest⟩

/-- Timer interrupts only, and none nested. -/
structure TimersUnnested (s : Cpu) : Prop where
  unnested : Unnested s
  timers : TimerOnly s

theorem timersUnnested_start (m : Machine) (keys : Modifiers) (iflag : Bool) :
    TimersUnnested (Cpu.start m keys iflag) :=
  ⟨unnested_start m keys iflag, timerOnly_start m keys iflag⟩

theorem TimersUnnested.step {beyond : Nat → BitVec 32} {s s' : Cpu} {e : CpuEvent}
    (h : TimersUnnested s) (he : ∀ scancode, e ≠ .keyboard scancode) (hs : CpuStep beyond s e s') :
    TimersUnnested s' :=
  ⟨h.unnested.step h.timers.ownSti hs, h.timers.step he hs⟩

end FrazzOS.Idt
