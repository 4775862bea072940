import FrazzOS.Proc.Cycle
import Mathlib.Dynamics.PeriodicPts.Defs

/-!
# Proc — RoundRobin

The tasks of a ring that no task is added to, over any number of timer ticks.

`round_robin`: from a state where the slice of `current_task` is full, `current_task` is after `k`
ticks the task `k / (QUANTUM + 1)` links on, counted around the ring.  What carries the run
(`Turning`) is that the slice of `current_task` shows how far its turn is, and that those of the
others are full.
-/

namespace FrazzOS.Proc
open Rings Runs

/-- The ticks of a run. -/
def ticks : List Event → Nat
  | [] => 0
  | .tick _ :: es => ticks es + 1
  | _ :: es => ticks es

/-- No task is created. -/
def NoCreate (es : List Event) : Prop := ∀ main, .create main ∉ es

/-- `QUANTUM + 1`, the ticks of a turn. -/
def turnTicks : Nat := (quantum + 1).toNat

/-- What holds `k` ticks behind the state `s₀`. -/
structure Turning (s₀ : System) (k : Nat) (s : System) : Prop where
  linked : s.Linked
  added : s.added = s₀.added
  next : s.machine.next = s₀.machine.next
  current : s.machine.currentTask = s₀.machine.next^[k / turnTicks] s₀.machine.currentTask
  slice : (s.machine.tasks s.machine.currentTask).timeSlice = quantum - (k % turnTicks : Nat)

variable {s₀ s s' : System} {k : Nat}

/-- The handler returns, whatever the slice. -/
theorem Linked.tick_returns {m : Machine} {added l : List (BitVec 64)} (h : Linked m added l)
    (ret : BitVec 64) : ∃ m', timerIrqHandler ret m = some m' := by
  rw [timerIrqHandler]
  by_cases hz : (m.tasks m.currentTask).timeSlice = 0
  · have hfull := h.setSlice (v := quantum) (by decide) (Int.le_refl _)
    obtain ⟨m', hs, -⟩ := schedule_turned ret hfull.toReadyRing
    rw [if_pos hz]
    exact ⟨m', hs⟩
  · rw [if_neg hz]
    exact ⟨_, rfl⟩

/-- A tick inside a turn. -/
theorem Turning.down {m' : Machine} {ret : BitVec 64} (h : Turning s₀ k s)
    (hz : (s.machine.tasks s.machine.currentTask).timeSlice ≠ 0)
    (ht : timerIrqHandler ret s.machine = some m') : Turning s₀ (k + 1) ⟨m', s.added⟩ := by
  obtain ⟨l, hl⟩ := h.linked
  have hlinked := hl.tick ht
  have hslice := h.slice
  have hq : quantum = 5 := rfl
  have htt : turnTicks = 6 := rfl
  rw [timerIrqHandler, if_neg hz] at ht
  cases ht
  have hdiv : (k + 1) / turnTicks = k / turnTicks := by rw [htt] at hslice ⊢; omega
  have hmod : (k + 1) % turnTicks = k % turnTicks + 1 := by rw [htt] at hslice ⊢; omega
  have hlt : k % turnTicks < 6 := Nat.mod_lt k (by decide)
  refine ⟨hlinked, h.added, ?_, ?_, ?_⟩
  · exact (setSlice_next s.machine _).trans h.next
  · rw [hdiv]
    exact h.current
  · rw [setSlice_currentTask, setSlice_timeSlice]
    rw [CInt.toInt32_of_range (by omega) (by omega), hmod]
    omega

/-- The tick that ends a turn. -/
theorem Turning.switch {m' : Machine} {ret : BitVec 64} (h : Turning s₀ k s)
    (hz : (s.machine.tasks s.machine.currentTask).timeSlice = 0)
    (ht : timerIrqHandler ret s.machine = some m') : Turning s₀ (k + 1) ⟨m', s.added⟩ := by
  obtain ⟨l, hl⟩ := h.linked
  have hlinked := hl.tick ht
  have hslice := h.slice
  have hq : quantum = 5 := rfl
  have htt : turnTicks = 6 := rfl
  have hdiv : (k + 1) / turnTicks = k / turnTicks + 1 := by rw [htt] at hslice ⊢; omega
  have hmod : (k + 1) % turnTicks = 0 := by rw [htt] at hslice ⊢; omega
  have hfull := hl.setSlice (v := quantum) (by decide) (Int.le_refl _)
  obtain ⟨m'', hs, hturned⟩ := schedule_turned ret hfull.toReadyRing
  rw [timerIrqHandler, if_pos hz] at ht
  obtain rfl : m' = m'' := Option.some.inj (ht.symm.trans hs)
  have hlink := setSlice_next s.machine quantum
  have hcurrent : m'.currentTask = s.machine.next s.machine.currentTask :=
    hturned.currentTask.trans (congrFun hlink _)
  -- the next task is one of the ring, and all slices are full now
  have hmem : m'.currentTask ∈ s.machine.currentTask :: l := by
    rw [hcurrent, hl.ring.next_head]
    exact (turned_perm _ l).mem_iff.mp List.mem_cons_self
  refine ⟨hlinked, h.added, ?_, ?_, ?_⟩
  · rw [← h.next, ← hlink]
    exact funext hturned.next
  · rw [hdiv, Function.iterate_succ_apply', ← h.current, ← h.next]
    exact hcurrent
  · rw [hturned.timeSlice, hmod]
    rcases List.mem_cons.mp hmem with he | hmem
    · rw [he, setSlice_timeSlice]
      exact (Int.sub_zero _).symm
    · have hq' := hfull.full _ hmem
      simpa using hq'

/-- **One step**: a tick counts, the tasks' own code does not. -/
theorem Turning.step {e : Event} (h : Turning s₀ k s) (hs : Step s e s')
    (he : ∀ main, e ≠ .create main) : Turning s₀ (k + ticks [e]) s' := by
  cases hs with
  | @create main _ _ _ => exact absurd rfl (he main)
  | tick ht =>
      by_cases hz : (s.machine.tasks s.machine.currentTask).timeSlice = 0
      · exact h.switch hz ht
      · exact h.down hz ht
  | @work m' hw =>
      obtain ⟨l, hl⟩ := h.linked
      have hown := hl.work hw
      obtain ⟨htasks, hcur, -⟩ := hw
      have hlink : m'.next = s.machine.next := by
        funext t
        rw [Machine.next, Machine.next, htasks]
      exact ⟨⟨l, hown⟩, h.added, hlink.trans h.next, hcur.trans h.current,
        by rw [htasks, hcur]; exact h.slice⟩

/-- **A run.** -/
theorem Turning.run {es : List Event} (hrun : Run Step s es s') : ∀ {k : Nat}, Turning s₀ k s →
    NoCreate es → Turning s₀ (k + ticks es) s' := by
  induction hrun with
  | nil => exact fun h _ => h
  | @cons s s₁ s' e es hs _ ih =>
      intro k h hno
      have h₁ := h.step hs fun main he => hno main (he ▸ List.mem_cons_self)
      have h₂ := ih h₁ fun main hm => hno main (List.mem_cons_of_mem e hm)
      have hticks : ticks (e :: es) = ticks [e] + ticks es := by
        cases e <;> simp [ticks, Nat.add_comm]
      rw [hticks, ← Nat.add_assoc]
      exact h₂

/-- There is a run of any number of ticks. -/
theorem ticks_run (ret : BitVec 64) (k : Nat) : ∀ {s : System}, s.Linked →
    ∃ s', Run Step s (List.replicate k (.tick ret)) s' := by
  induction k with
  | zero => exact fun {s} _ => ⟨s, .nil s⟩
  | succ k ih =>
      rintro s ⟨l, hl⟩
      obtain ⟨m', ht⟩ := hl.tick_returns ret
      obtain ⟨s', hrun⟩ := @ih ⟨m', s.added⟩ (hl.tick ht)
      exact ⟨s', .cons (.tick ht) hrun⟩

/-- **Exact round robin.**  In a run from `init_multitasking`, once the slice of `current_task` is
full and no task is added, `current_task` moves on by one task each `QUANTUM + 1` ticks, around the
ring; and no tick is stuck. -/
theorem round_robin {m₀ m : Machine} {es es' : List Event} (hheap : BootHeap m₀.heap)
    (hi : initMultitasking m₀ = some m) (hrun : Run Step ⟨m, [m.currentTask]⟩ es s)
    (hslice : (s.machine.tasks s.machine.currentTask).timeSlice = quantum)
    (hrun' : Run Step s es' s') (hno : NoCreate es') :
    s'.machine.currentTask =
      s.machine.next^[ticks es' / turnTicks % s.added.length] s.machine.currentTask ∧
    ∀ ret, ∃ m', timerIrqHandler ret s'.machine = some m' := by
  have hlinked : s.Linked := hrun.invariant (fun h hs => h.step hs) ⟨[], linked_boot hheap hi⟩
  have hback : Function.IsPeriodicPt s.machine.next s.added.length s.machine.currentTask :=
    (ring_cycle hheap hi hrun).back
  have h₀ : Turning s 0 s := by
    refine ⟨hlinked, rfl, rfl, rfl, ?_⟩
    rw [hslice]
    rfl
  have h := Turning.run hrun' h₀ hno
  obtain ⟨l, hl⟩ := h.linked
  refine ⟨?_, hl.tick_returns⟩
  rw [hback.iterate_mod_apply, h.current, Nat.zero_add]

/-- Two tasks: after six ticks the second one runs. -/
theorem round_robin_two : ∃ s s' : System, s.added = [0xffff800001000100, 0xffff800001000000] ∧
    s.machine.currentTask = 0xffff800001000000 ∧
    Run Step s (List.replicate 6 (.tick 0)) s' ∧
    s'.machine.currentTask = 0xffff800001000100 := by
  obtain ⟨m, m', hi, hcur, hslice, hc⟩ := bootMachine_created
  let s : System := ⟨addProcess m' 0xffff800001000100, [0xffff800001000100, m.currentTask]⟩
  have hcr := createProcess_created hc
  have hne : m.currentTask ≠ 0xffff800001000100 := by rw [hcur]; decide
  have hrun : Run Step ⟨m, [m.currentTask]⟩ [.create 0x400] s := .one (.create hc)
  have hfull : (s.machine.tasks s.machine.currentTask).timeSlice = quantum := by
    show ((addProcess m' 0xffff800001000100).tasks m'.currentTask).timeSlice = quantum
    rw [(addProcess_rest _).2.1, hcr.currentTask, hcr.tasks _ hne, hslice]
  obtain ⟨s', hrun'⟩ := ticks_run 0 6 (hrun.invariant (fun h hs => h.step hs)
    ⟨[], linked_boot bootHeap_bootMachine hi⟩)
  have hcurrent := (round_robin bootHeap_bootMachine hi hrun hfull hrun' (by
    intro main hm
    cases List.eq_of_mem_replicate hm)).1
  have hnext : s.machine.next s.machine.currentTask = 0xffff800001000100 := by
    have hne' : 0xffff800001000100 ≠ m'.currentTask := by
      rw [hcr.currentTask]
      exact hne.symm
    show (addProcess m' 0xffff800001000100).next m'.currentTask = _
    rw [addProcess_next hne', if_pos rfl]
  refine ⟨s, s', by rw [← hcur], hcr.currentTask.trans hcur, hrun', ?_⟩
  rw [hcurrent]
  exact hnext

end FrazzOS.Proc
