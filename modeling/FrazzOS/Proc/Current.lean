import FrazzOS.Proc.Schedule

/-!
# Proc — Current

`current_task` after one `schedule`.  The code in C runs the first ready task behind
`current_task`; the assembly sets `current_task` to the task next to it, ready or not.

`current_task_named_iff`: the two agree exactly when the next task is ready, or is `current_task`
itself.
-/

namespace FrazzOS.Proc
open Rings

/-- After `schedule`, `current_task` is the task `next`, the stack pointer loaded is its, and it is
the running task of the ring. -/
structure Named (ring : List (BitVec 64)) (next : BitVec 64) (m' : Machine) : Prop where
  currentTask : m'.currentTask = next
  rsp : m'.rsp = (m'.tasks next).kernelTop + 128
  running : (m'.tasks next).status = .running
  only : ∀ t ∈ ring, (m'.tasks t).status = .running → t = next

/-- One `schedule`: what `get_next_task` returned, and the machine where it leads. -/
def Scheduled (ret : BitVec 64) (m : Machine) (next : BitVec 64) (m' : Machine) : Prop :=
  ∃ m₁, getNextTask m = some (next, m₁) ∧ schedule ret m = some m'

/-- `current_task` after the switch is the task next to the old one. -/
theorem Switched.currentTask_found {ret : BitVec 64} {m m' : Machine} {l : List (BitVec 64)}
    (h : Switched ret (found m (firstReady m l)).1 m.currentTask (found m (firstReady m l)).2 m') :
    m'.currentTask = m.next m.currentTask := by
  rw [h.currentTask]
  cases firstReady m l with
  | none => rfl
  | some t => exact swapStatus_next m m.currentTask t

/-- Where the task found is the next one, all agree. -/
theorem Switched.named {ret : BitVec 64} {m m' : Machine} {l : List (BitVec 64)}
    (hring : TaskRing m l)
    (h : Switched ret (found m (firstReady m l)).1 m.currentTask (found m (firstReady m l)).2 m')
    (hnext : m.next m.currentTask = (found m (firstReady m l)).1) :
    Named (m.currentTask :: l) (found m (firstReady m l)).1 m' where
  currentTask := h.currentTask_found.trans hnext
  rsp := h.rsp
  running := (h.status _).trans ((found_running hring _ (found_mem m l)).mpr rfl)
  only t ht hr := (found_running hring t ht).mp ((h.status t).symm.trans hr)

/-- The task found is the next one, or the next one is neither ready nor `current_task`. -/
theorem found_eq_next_iff {m : Machine} {l : List (BitVec 64)} (h : TaskRing m l) :
    m.next m.currentTask = (found m (firstReady m l)).1 ↔
      (m.tasks (m.next m.currentTask)).status = .ready ∨ m.next m.currentTask = m.currentTask := by
  cases l with
  | nil =>
      have hself : m.next m.currentTask = m.currentTask := h.ring.head_nil
      exact ⟨fun _ => Or.inr hself, fun _ => hself⟩
  | cons b l =>
      have hb : m.next m.currentTask = b := h.ring.head_cons
      have hne : b ≠ m.currentTask := fun e => (List.nodup_cons.mp h.nodup).1 (e ▸ List.mem_cons_self)
      rw [hb, firstReady, List.find?_cons]
      by_cases hr : (m.tasks b).status = .ready
      · simp [hr, found]
      · rw [decide_eq_false hr]
        refine ⟨fun he => ?_, fun he => absurd he (not_or.mpr ⟨hr, hne⟩)⟩
        simp only at he
        cases hf : l.find? fun t => decide ((m.tasks t).status = .ready) with
        | none => rw [hf] at he; exact Or.inr he
        | some t =>
            rw [hf] at he
            have := List.find?_some hf
            exact Or.inl (he ▸ of_decide_eq_true this)

/-- **When `current_task` names the task that runs**: exactly when the task next to the old one is
ready, or the ring has no other task. -/
theorem current_task_named_iff {m : Machine} {l : List (BitVec 64)} (h : TaskRing m l)
    (ret : BitVec 64) :
    ∃ next m', Scheduled ret m next m' ∧
      (Named (m.currentTask :: l) next m' ↔
        (m.tasks (m.next m.currentTask)).status = .ready ∨
          m.next m.currentTask = m.currentTask) := by
  obtain ⟨m', hs, hsw⟩ := schedule_ring ret h
  refine ⟨_, m', ⟨_, getNextTask_ring h, hs⟩, ?_⟩
  rw [← found_eq_next_iff h]
  exact ⟨fun hn => hsw.currentTask_found.symm.trans hn.currentTask, hsw.named h⟩

/-- A ring of three tasks with the status of the second, the third one ready. -/
def ringOfThree (second : TaskStatus) : Machine where
  regs _ := 0
  rsp := 0x8000
  rip := 0
  cr3 := 0x200000
  zf := false
  mem _ := 0
  tasks p :=
    if p = 0x1000 then ⟨0, 0x200000, 0x2000, .running, quantum⟩
    else if p = 0x2000 then ⟨0x9000, 0x200000, 0x3000, second, quantum⟩
    else ⟨0xa000, 0x200000, 0x1000, .ready, quantum⟩
  currentTask := 0x1000
  heap := Heap.heapInit (fun _ => 0) 0x1000000

theorem taskRing_ringOfThree {second : TaskStatus} (h : second ≠ .running) :
    TaskRing (ringOfThree second) [0x2000, 0x3000] where
  ring := by cases second <;> simp [Rings.Ring, Machine.next, ringOfThree]
  nodup := by simp [ringOfThree]
  nonnull := by simp [ringOfThree]
  running := rfl
  others := by simp [ringOfThree, h]

/-- The second task ready. -/
theorem current_task_named_iff_three :
    ∃ next m', Scheduled 0x400 (ringOfThree .ready) next m' ∧
      (Named [0x1000, 0x2000, 0x3000] next m' ↔
        ((ringOfThree .ready).tasks 0x2000).status = .ready ∨ (0x2000 : BitVec 64) = 0x1000) :=
  current_task_named_iff (taskRing_ringOfThree (by decide)) 0x400

/-- The second task waiting: the third one runs, and `current_task` is the second. -/
theorem current_task_misnamed :
    ¬ ∀ (m : Machine) (l : List (BitVec 64)) (ret : BitVec 64), TaskRing m l →
      ∃ next m', Scheduled ret m next m' ∧ Named (m.currentTask :: l) next m' := by
  intro hall
  have hring : TaskRing (ringOfThree .waiting) [0x2000, 0x3000] := taskRing_ringOfThree (by decide)
  obtain ⟨next, m', ⟨m₁, hnext, hs⟩, hnamed⟩ := hall _ _ 0 hring
  obtain ⟨m'', hs', hsw⟩ := schedule_ring 0 hring
  obtain rfl : m' = m'' := Option.some.inj (hs.symm.trans hs')
  have hfound : next = 0x3000 := by
    rw [getNextTask_ring hring] at hnext
    exact (congrArg Prod.fst (Option.some.inj hnext)).symm
  have hcur : m'.currentTask = 0x2000 := hsw.currentTask_found
  have := hnamed.currentTask
  rw [hcur, hfound] at this
  exact absurd this (by decide)

end FrazzOS.Proc
