import FrazzOS.Idt.Stub

/-!
# Idt — Preempt

Whether the tasks' own code can be preempted.  A task that was switched away comes back through its
stub's `sti` and `iretq`; a task that has not run yet is entered at `main`, from inside the
`timer_irq` of another, with the flag still 0.

`preempt_iff`: in a run from `init_multitasking` of new tasks and timer interrupts the flag is 1
whenever a task is in its own code, just where no tick switches to a task that has not run yet.
What carries the run (`Preemptive`) is that every frame an `iretq` is to pop has the flag set.
-/

namespace FrazzOS.Idt
open Proc Devices Runs

variable {beyond : Nat → BitVec 32}

/-- Timer interrupts are the only ones, and the tasks' own code leaves the flag alone. -/
def TimerStep (beyond : Nat → BitVec 32) (s : Cpu) (e : CpuEvent) (s' : Cpu) : Prop :=
  CpuStep beyond s e s' ∧ (∀ scancode, e ≠ .keyboard scancode) ∧ (e = .work → s'.iflag = s.iflag)

theorem timerStep_exec {s s' : Cpu} (h : CpuStep beyond s .exec s') : TimerStep beyond s .exec s' :=
  ⟨h, fun _ e => CpuEvent.noConfusion e, fun e => CpuEvent.noConfusion e⟩

theorem timerStep_timer {s s' : Cpu} {ret : BitVec 64} (h : CpuStep beyond s (.timer ret) s') :
    TimerStep beyond s (.timer ret) s' :=
  ⟨h, fun _ e => CpuEvent.noConfusion e, fun e => CpuEvent.noConfusion e⟩

theorem timerStep_create {s s' : Cpu} {main : BitVec 64} (h : CpuStep beyond s (.create main) s') :
    TimerStep beyond s (.create main) s' :=
  ⟨h, fun _ e => CpuEvent.noConfusion e, fun e => CpuEvent.noConfusion e⟩

/-- In its own code a task can be interrupted. -/
def Preemptible (s : Cpu) : Prop := s.active = [] → s.iflag = true

/-- The step is no switch to a task that has not run yet. -/
def RunBefore (t : Taken Cpu CpuEvent) : Prop :=
  ∀ ret ops flag rest next m₁, t.event = .exec →
    t.before.active = ⟨.timerIrqHandler ret :: ops, flag⟩ :: rest →
    (t.before.machine.tasks t.before.machine.currentTask).timeSlice = 0 →
    getNextTask (t.before.machine.setSlice quantum) = some (next, m₁) →
    next = t.before.machine.currentTask ∨ t.before.suspended next ≠ []

/-- The invariant: the tasks' own code runs with the flag set, and so do all that were
interrupted. -/
structure Preemptive (s : Cpu) : Prop where
  timers : TimersUnnested s
  own : Preemptible s
  active : ∀ a ∈ s.active, a.flag = true
  suspended : ∀ t, ∀ a ∈ s.suspended t, a.flag = true

theorem Preemptive.leave {s : Cpu} {active : List Activation} (h : Preemptive s)
    (ha : ∀ a ∈ active, a.flag = true) (t : BitVec 64) : ∀ a ∈ s.leave active t, a.flag = true := by
  by_cases ht : t = s.machine.currentTask
  · simpa [Cpu.leave, ht] using ha
  · simpa [Cpu.leave, ht] using h.suspended t

/-- The running interrupt goes on. -/
theorem Preemptive.advance {s s' : Cpu} {a : Activation} {ops : List Op} {rest : List Activation}
    (h : Preemptive s) (htimers : TimersUnnested s') (ha : s.active = a :: rest)
    (ha' : s'.active = ⟨ops, a.flag⟩ :: rest) (hsus : s'.suspended = s.suspended) :
    Preemptive s' where
  timers := htimers
  own hown := by rw [ha'] at hown; cases hown
  active b hb := by
    rw [ha'] at hb
    rcases List.mem_cons.mp hb with rfl | hb
    · exact h.active a (by simp [ha])
    · exact h.active b (by simp [ha, hb])
  suspended := hsus ▸ h.suspended

/-- **One step**, unless it switches to a task that has not run yet. -/
theorem Preemptive.step {s s' : Cpu} {e : CpuEvent} (h : Preemptive s)
    (hq : RunBefore ⟨s, e, s'⟩) (hs : TimerStep beyond s e s') : Preemptive s' := by
  obtain ⟨hstep, hkey, hwork⟩ := hs
  have htimers := h.timers.step hkey hstep
  cases hstep with
  | @create main p _ _ _ =>
      refine ⟨htimers, h.own, h.active, fun t => ?_⟩
      by_cases ht : t = p
      · simp [ht]
      · simpa [ht] using h.suspended t
  | work hown _ =>
      refine ⟨htimers, fun _ => ?_, h.active, h.suspended⟩
      exact (hwork rfl).trans (h.own hown)
  | timer hon =>
      refine ⟨htimers, nofun, fun a ha => ?_, h.suspended⟩
      rcases List.mem_cons.mp ha with rfl | ha
      · exact hon
      · exact h.active a ha
  | @keyboard scancode _ => exact absurd rfl (hkey scancode)
  | flag ha _ => exact h.advance htimers ha rfl rfl
  | @iretq ops flag rest ha =>
      refine ⟨htimers, fun _ => ?_, fun a hmem => ?_, h.suspended⟩
      · exact h.active ⟨.iretq :: ops, flag⟩ (by simp [ha])
      · exact h.active a (by simp [ha, hmem])
  | keys ha => exact h.advance htimers ha rfl rfl
  | slice ha _ _ => exact h.advance htimers ha rfl rfl
  | @switch ret next ops flag rest m₁ m' ha hz hn ht =>
      have hrest : ∀ a ∈ (⟨ops, flag⟩ :: rest : List Activation), a.flag = true := by
        intro a hmem
        rcases List.mem_cons.mp hmem with rfl | hmem
        · exact h.active ⟨.timerIrqHandler ret :: ops, flag⟩ (by simp [ha])
        · exact h.active a (by simp [ha, hmem])
      refine ⟨htimers, fun hown => ?_, h.leave hrest next, h.leave hrest⟩
      -- the next task was interrupted, and is not in its own code
      by_cases hcur : next = s.machine.currentTask
      · simp [Cpu.leave, hcur] at hown
      · have hran := (hq ret ops flag rest next m₁ rfl ha hz hn).resolve_left hcur
        exact absurd (by simpa [Cpu.leave, hcur] using hown) hran

/-- A switch to a task that has not run yet leaves the flag 0 in its own code. -/
theorem Preemptive.preemptible_iff {s s' : Cpu} {e : CpuEvent} (h : Preemptive s)
    (hs : TimerStep beyond s e s') : Preemptible s' ↔ RunBefore ⟨s, e, s'⟩ := by
  refine ⟨fun hp => ?_, fun hq => (h.step hq hs).own⟩
  rintro ret ops flag rest next m₁ rfl ha hz hn
  by_contra hnot
  obtain ⟨hcur, hfresh⟩ := not_or.mp hnot
  have hoff := h.timers.unnested.iflag ha nofun
  cases hs.1 with
  | flag ha' hop =>
      obtain ⟨he, -⟩ := List.cons.inj (ha'.symm.trans ha)
      cases he
      cases hop
  | iretq ha' => cases ha'.symm.trans ha
  | keys ha' => cases ha'.symm.trans ha
  | slice ha' hz' _ => exact hz' hz
  | switch ha' _ hn' _ =>
      obtain ⟨rfl, -⟩ := Prod.mk.inj (Option.some.inj (hn'.symm.trans hn))
      have hon : s.iflag = true := hp (by simpa [Cpu.leave, hcur] using hfresh)
      rw [hoff] at hon
      cases hon

/-- The state that `init_multitasking` leaves, whose last `kprint` set the flag. -/
theorem preemptive_start (m : Machine) (keys : Modifiers) : Preemptive (Cpu.start m keys true) where
  timers := timersUnnested_start m keys true
  own _ := rfl
  active _ ha := nomatch ha
  suspended _ _ ha := nomatch ha

/-- **Preemption.**  In a run of new tasks and timer interrupts from the flag set, as
`init_multitasking` leaves it, a task in its own code can be interrupted after every step just where
no tick switches to a task that has not run yet. -/
theorem preempt_iff (m : Machine) (keys : Modifiers) {ts : List (Taken Cpu CpuEvent)} {s : Cpu}
    (hrun : Run (Recorded (TimerStep beyond)) (Cpu.start m keys true) ts s) :
    (∀ t ∈ ts, Preemptible t.after) ↔ ∀ t ∈ ts, RunBefore t :=
  hrun.forall_iff (fun h hq hs => h.step hq hs) (fun h hs => h.preemptible_iff hs)
    (preemptive_start m keys)

/-! ### Runs of whole ticks -/

/-- A tick inside a slice, from the tasks' own code and back to it. -/
theorem tick_run {s : Cpu} (hown : s.active = []) (hon : s.iflag = true) {n : Nat} (hn : n < 5)
    (hslice : (s.machine.tasks s.machine.currentTask).timeSlice = (n + 1 : Nat)) :
    ∃ ts, Run (Recorded (TimerStep beyond)) s ts { s with machine := s.machine.setSlice n } ∧
      ∀ t ∈ ts, RunBefore t := by
  have hz : (s.machine.tasks s.machine.currentTask).timeSlice ≠ 0 := by omega
  have hdown : CInt.toInt32 ((s.machine.tasks s.machine.currentTask).timeSlice - 1) = n := by
    rw [hslice, CInt.toInt32_of_range (by omega) (by omega)]
    omega
  have htick : timerIrqHandler 0 s.machine = some (s.machine.setSlice n) := by
    simp only [timerIrqHandler, if_neg hz, hdown]
  let s₁ := s.interrupt (timerIrq 0)
  let s₂ : Cpu := { s₁ with active := [⟨[.timerIrqHandler 0, .sti, .iretq], s.iflag⟩] }
  let s₃ : Cpu := { s₂ with
    machine := s.machine.setSlice n
    active := [⟨[.sti, .iretq], s.iflag⟩] }
  let s₄ : Cpu := { s₃ with iflag := true, active := [⟨[.iretq], s.iflag⟩] }
  have h₁ : CpuStep beyond s (.timer 0) s₁ := .timer hon
  have hentry : s₁.active = [⟨timerIrq 0, s.iflag⟩] := by simp [s₁, Cpu.interrupt, hown]
  have h₂ : CpuStep beyond s₁ .exec s₂ := .flag hentry rfl
  have h₃ : CpuStep beyond s₂ .exec s₃ := .slice rfl hz htick
  have h₄ : CpuStep beyond s₃ .exec s₄ := .flag rfl rfl
  have h₅ : CpuStep beyond s₄ .exec { s₄ with iflag := s.iflag, active := [] } := .iretq rfl
  have hend : { s₄ with iflag := s.iflag, active := [] } =
      { s with machine := s.machine.setSlice n } := by
    simp [s₄, s₃, s₂, s₁, Cpu.interrupt, hown]
  rw [hend] at h₅
  refine ⟨_, .cons (recorded (timerStep_timer h₁)) (.cons (recorded (timerStep_exec h₂))
    (.cons (recorded (timerStep_exec h₃)) (.cons (recorded (timerStep_exec h₄))
      (.one (recorded (timerStep_exec h₅)))))), fun t ht => ?_⟩
  -- the handler is called once, with the slice not over
  simp only [List.mem_cons, List.not_mem_nil, or_false] at ht
  rintro ret ops flag rest next m₁ - ha hz' -
  rcases ht with rfl | rfl | rfl | rfl | rfl
  · cases hown.symm.trans ha
  · cases hentry.symm.trans ha
  · exact absurd hz' hz
  · cases ha
  · cases ha

/-- Ticks to the end of a slice. -/
theorem slice_run (n : Nat) (hn : n ≤ 5) : ∀ {s : Cpu}, s.active = [] → s.iflag = true →
    (s.machine.tasks s.machine.currentTask).timeSlice = n →
    ∃ ts, Run (Recorded (TimerStep beyond)) s ts { s with machine := s.machine.setSlice 0 } ∧
      ∀ t ∈ ts, RunBefore t := by
  induction n with
  | zero =>
      intro s _ _ hslice
      have hsame := setSlice_self s.machine
      rw [hslice] at hsame
      refine ⟨[], ?_, by simp⟩
      rw [show s.machine.setSlice 0 = s.machine from hsame]
      exact .nil s
  | succ n ih =>
      intro s hown hon hslice
      obtain ⟨ts, hrun, hran⟩ : ∃ ts, Run (Recorded (TimerStep beyond)) s ts
          { s with machine := s.machine.setSlice n } ∧ ∀ t ∈ ts, RunBefore t :=
        tick_run hown hon (by omega) hslice
      obtain ⟨ts', hrun', hran'⟩ := ih (by omega) (s := { s with machine := s.machine.setSlice n })
        hown hon (setSlice_timeSlice _ _)
      simp only [setSlice_setSlice] at hrun'
      refine ⟨_, hrun.append hrun', fun t ht => ?_⟩
      exact (List.mem_append.mp ht).elim (hran t) (hran' t)

/-- The boot task alone can be interrupted, through a whole slice. -/
theorem preempt_boot : ∃ (m : Machine) (ts : List (Taken Cpu CpuEvent)) (s : Cpu),
    initMultitasking bootMachine = some m ∧
    Run (Recorded (TimerStep fun _ => 0)) (Cpu.start m noModifiers true) ts s ∧
    s.machine = m.setSlice 0 ∧ ∀ t ∈ ts, Preemptible t.after := by
  obtain ⟨m, m', hi, -, hslice, -⟩ := bootMachine_created
  let s₀ := Cpu.start m noModifiers true
  obtain ⟨ts, hrun, hran⟩ : ∃ ts, Run (Recorded (TimerStep fun _ => 0)) s₀ ts
      { s₀ with machine := m.setSlice 0 } ∧ ∀ t ∈ ts, RunBefore t :=
    slice_run 5 (by omega) rfl rfl hslice
  exact ⟨m, ts, _, hi, hrun, rfl, (preempt_iff m noModifiers hrun).mpr hran⟩

/-- The first switch to a new task loses preemption. -/
theorem preempt_lost : ¬ ∀ (m₀ m : Machine) (ts : List (Taken Cpu CpuEvent)) (s : Cpu),
    BootHeap m₀.heap → initMultitasking m₀ = some m →
    Run (Recorded (TimerStep fun _ => 0)) (Cpu.start m noModifiers true) ts s →
    ∀ t ∈ ts, Preemptible t.after := by
  intro hall
  obtain ⟨m, m', hi, hcur, hslice, hc⟩ := bootMachine_created
  let p : BitVec 64 := 0xffff800001000100
  have hne : p ≠ m.currentTask := by rw [hcur]; decide
  let s₀ := Cpu.start m noModifiers true
  let s₁ : Cpu := { s₀ with
    machine := addProcess m' p
    suspended := Function.update s₀.suspended p [] }
  have hcr := createProcess_created hc
  have hcreate : TimerStep (fun _ => 0) s₀ (.create 0x400) s₁ := timerStep_create (.create rfl hc)
  have hslice₁ : (s₁.machine.tasks s₁.machine.currentTask).timeSlice = (5 : Nat) := by
    show ((addProcess m' p).tasks m'.currentTask).timeSlice = _
    rw [(addProcess_rest _).2.1, hcr.currentTask, hcr.tasks _ hne.symm, hslice]
    rfl
  let M := addProcess m' p
  obtain ⟨ts, hrun, -⟩ : ∃ ts, Run (Recorded (TimerStep fun _ => 0)) s₁ ts
      { s₁ with machine := M.setSlice 0 } ∧ ∀ t ∈ ts, RunBefore t :=
    slice_run 5 (by omega) rfl rfl hslice₁
  -- the last tick of the slice
  have hlinked : Linked M [p, m.currentTask] [p] := (linked_boot bootHeap_bootMachine hi).create hc
  let full := (M.setSlice 0).setSlice quantum
  have hring : ReadyRing full [p] :=
    ((hlinked.setSlice (v := 0) (by decide) (by decide)).setSlice (v := quantum) (by decide)
      (by decide)).toReadyRing
  have hz : ((M.setSlice 0).tasks (M.setSlice 0).currentTask).timeSlice = 0 :=
    setSlice_timeSlice M 0
  obtain ⟨m'', hsched, -⟩ := schedule_turned 0 hring
  have htick : timerIrqHandler 0 (M.setSlice 0) = some m'' := by
    rw [timerIrqHandler, if_pos hz]
    exact hsched
  have hnext : getNextTask full = some (p, (found full (firstReady full [p])).2) := by
    have hp : (found full (firstReady full [p])).1 = p :=
      hring.found.trans hring.ring.head_cons
    rw [getNextTask_ring hring.toTaskRing]
    exact congrArg some (Prod.ext hp rfl)
  let s₂ : Cpu := { s₁ with machine := M.setSlice 0 }
  let s₃ := s₂.interrupt (timerIrq 0)
  let s₄ : Cpu := { s₃ with active := [⟨[.timerIrqHandler 0, .sti, .iretq], true⟩] }
  let s₅ : Cpu := { s₄ with
    machine := m''
    active := s₄.leave [⟨[.sti, .iretq], true⟩] p
    suspended := s₄.leave [⟨[.sti, .iretq], true⟩] }
  have h₃ : CpuStep (fun _ => 0) s₂ (.timer 0) s₃ := .timer rfl
  have h₄ : CpuStep (fun _ => 0) s₃ .exec s₄ := .flag rfl rfl
  have h₅ : CpuStep (fun _ => 0) s₄ .exec s₅ := .switch rfl hz hnext htick
  have hall₅ := hall bootMachine m _ s₅ bootHeap_bootMachine hi
    ((Run.cons (recorded hcreate) hrun).append (.cons (recorded (timerStep_timer h₃))
      (.cons (recorded (timerStep_exec h₄)) (.one (recorded (timerStep_exec h₅))))))
    ⟨s₄, .exec, s₅⟩ (by simp)
  have hown : s₅.active = [] := by
    have hcur : p ≠ s₄.machine.currentTask := fun e => hne (e.trans hcr.currentTask)
    have hfresh : s₄.suspended p = [] := by simp [s₄, s₃, s₂, s₁, Cpu.interrupt]
    exact (Function.update_of_ne hcur _ _).trans hfresh
  cases hall₅ hown

end FrazzOS.Idt
