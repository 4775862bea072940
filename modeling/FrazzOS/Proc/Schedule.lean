import FrazzOS.Proc.Switch
import FrazzOS.Support.Ring

/-!
# Proc — Schedule

The scheduler of `proc/schedule.c` and its caller `timer_irq_handler`.  `get_next_task` follows
`next` from `current_task` to the first task that is ready, or back to `current_task`; `schedule`
switches to it.

* `getNextTask_ring`: on a ring the search ends, at the first ready task behind `current_task`.
* `schedule_switched`: then `schedule` is the switch to that task.
-/

namespace FrazzOS.Proc
open CInt Rings

/-- `QUANTUM`. -/
def quantum : Int := 5

/-- `EINVARG` of `status.h`. -/
def einvarg : Int := -3

/-- `switch_to_task`, with its result. -/
def switchToTask (ret next : BitVec 64) (m : Machine) : Option (Int × Machine) :=
  if next = 0 then some (einvarg, m)
  else (switchToTaskAsm ret next m.currentTask m).map fun m => (0, m)

def Machine.setStatus (m : Machine) (p : BitVec 64) (status : TaskStatus) : Machine :=
  m.setTask p { m.tasks p with status := status }

/-- The statuses of `current_task` and of the task found exchanged. -/
def swapStatus (m : Machine) (tmp : BitVec 64) : Machine :=
  (m.setStatus m.currentTask .ready).setStatus tmp .running

/-- The loop of `get_next_task` at `tmp`, and the end of it. -/
def getNextLoop (m : Machine) : Nat → BitVec 64 → Option (BitVec 64 × Machine)
  | 0, _ => none
  | rounds + 1, tmp =>
      if (m.tasks tmp).status = .ready then some (tmp, swapStatus m tmp)
      else if tmp = m.currentTask then some (tmp, m)
      else getNextLoop m rounds (m.tasks tmp).next

/-- `tmp` takes at most `2⁶⁴` values and the loop changes nothing: one that has not ended after as
many rounds does not end. -/
def maxTasks : Nat := 18446744073709551616

/-- `get_next_task`. -/
def getNextTask (m : Machine) : Option (BitVec 64 × Machine) :=
  getNextLoop m maxTasks (m.tasks m.currentTask).next

/-- `schedule`, where `ret` is the return address of the call of `switch_to_task_asm`. -/
def schedule (ret : BitVec 64) (m : Machine) : Option Machine :=
  match getNextTask m with
  | none => none
  | some (next, m) => (switchToTask ret next m).map Prod.snd

/-- The slice of `current_task` written. -/
def Machine.setSlice (m : Machine) (v : Int) : Machine :=
  m.setTask m.currentTask { m.tasks m.currentTask with timeSlice := v }

/-- `timer_irq_handler`. -/
def timerIrqHandler (ret : BitVec 64) (m : Machine) : Option Machine :=
  let slice := (m.tasks m.currentTask).timeSlice
  if slice = 0 then schedule ret (m.setSlice quantum)
  else some (m.setSlice (toInt32 (slice - 1)))

/-! ### What a change of status leaves alone -/

section Status

variable (m : Machine) (p q t : BitVec 64) (status : TaskStatus)

theorem setStatus_status : ((m.setStatus p status).tasks q).status =
    if q = p then status else (m.tasks q).status := by
  by_cases h : q = p
  · simp [Machine.setStatus, Machine.setTask, h]
  · simp [Machine.setStatus, Machine.setTask, h]

theorem setStatus_rest : ((m.setStatus p status).tasks q).kernelTop = (m.tasks q).kernelTop ∧
    ((m.setStatus p status).tasks q).cr3 = (m.tasks q).cr3 ∧
    ((m.setStatus p status).tasks q).next = (m.tasks q).next ∧
    ((m.setStatus p status).tasks q).timeSlice = (m.tasks q).timeSlice := by
  by_cases h : q = p
  · simp [Machine.setStatus, Machine.setTask, h]
  · simp [Machine.setStatus, Machine.setTask, h]

theorem swapStatus_status : ((swapStatus m t).tasks q).status =
    if q = t then .running else if q = m.currentTask then .ready else (m.tasks q).status := by
  rw [swapStatus, setStatus_status, setStatus_status]

@[simp] theorem swapStatus_kernelTop :
    ((swapStatus m t).tasks q).kernelTop = (m.tasks q).kernelTop := by
  rw [swapStatus, (setStatus_rest _ _ _ _).1, (setStatus_rest _ _ _ _).1]

@[simp] theorem swapStatus_cr3 : ((swapStatus m t).tasks q).cr3 = (m.tasks q).cr3 := by
  rw [swapStatus, (setStatus_rest _ _ _ _).2.1, (setStatus_rest _ _ _ _).2.1]

@[simp] theorem swapStatus_next : ((swapStatus m t).tasks q).next = (m.tasks q).next := by
  rw [swapStatus, (setStatus_rest _ _ _ _).2.2.1, (setStatus_rest _ _ _ _).2.2.1]

@[simp] theorem swapStatus_timeSlice :
    ((swapStatus m t).tasks q).timeSlice = (m.tasks q).timeSlice := by
  rw [swapStatus, (setStatus_rest _ _ _ _).2.2.2, (setStatus_rest _ _ _ _).2.2.2]

@[simp] theorem swapStatus_currentTask : (swapStatus m t).currentTask = m.currentTask := rfl

@[simp] theorem swapStatus_mem : (swapStatus m t).mem = m.mem := rfl

@[simp] theorem swapStatus_heap : (swapStatus m t).heap = m.heap := rfl

end Status

/-! ### What a new slice leaves alone -/

/-- The link of a task. -/
def Machine.next (m : Machine) (p : BitVec 64) : BitVec 64 := (m.tasks p).next

section Slice

variable (m : Machine) (v w : Int) (t : BitVec 64)

@[simp] theorem setSlice_currentTask : (m.setSlice v).currentTask = m.currentTask := rfl

@[simp] theorem setSlice_timeSlice : ((m.setSlice v).tasks m.currentTask).timeSlice = v := by
  simp [Machine.setSlice, Machine.setTask]

theorem setSlice_of_ne (h : t ≠ m.currentTask) : (m.setSlice v).tasks t = m.tasks t :=
  Function.update_of_ne h ..

theorem setSlice_rest : ((m.setSlice v).tasks t).next = (m.tasks t).next ∧
    ((m.setSlice v).tasks t).status = (m.tasks t).status := by
  by_cases h : t = m.currentTask
  · simp [Machine.setSlice, Machine.setTask, h]
  · simp [setSlice_of_ne m v t h]

theorem setSlice_next : (m.setSlice v).next = m.next :=
  funext fun t => (setSlice_rest m v t).1

theorem setSlice_setSlice : (m.setSlice v).setSlice w = m.setSlice w := by
  simp [Machine.setSlice, Machine.setTask]

theorem setSlice_self : m.setSlice (m.tasks m.currentTask).timeSlice = m := by
  simp [Machine.setSlice, Machine.setTask]

end Slice

/-! ### The search -/

/-- The tasks of a ring, `current_task` first: distinct objects, `current_task` running and no
other. -/
structure TaskRing (m : Machine) (l : List (BitVec 64)) : Prop where
  ring : Rings.Ring m.next m.currentTask l
  nodup : (m.currentTask :: l).Nodup
  nonnull : ∀ t ∈ m.currentTask :: l, t ≠ 0
  running : (m.tasks m.currentTask).status = .running
  others : ∀ t ∈ l, (m.tasks t).status ≠ .running

/-- The first ready task of a list. -/
def firstReady (m : Machine) (l : List (BitVec 64)) : Option (BitVec 64) :=
  l.find? fun t => decide ((m.tasks t).status = .ready)

/-- What `get_next_task` returns where the search finds `t`, or comes back. -/
def found (m : Machine) : Option (BitVec 64) → BitVec 64 × Machine
  | some t => (t, swapStatus m t)
  | none => (m.currentTask, m)

/-- The loop along a path that leads back to `current_task`. -/
theorem getNextLoop_path {m : Machine} (hcur : (m.tasks m.currentTask).status ≠ .ready)
    (l : List (BitVec 64)) : ∀ (rounds : Nat) (a : BitVec 64),
    List.IsChain (fun x y => m.next x = y) (a :: l ++ [m.currentTask]) →
    m.currentTask ∉ l → l.length < rounds →
    getNextLoop m rounds (m.next a) = some (found m (firstReady m l)) := by
  induction l with
  | nil =>
      intro rounds a h _ hr
      obtain ⟨k, rfl⟩ := Nat.exists_eq_add_of_lt hr
      have ha : m.next a = m.currentTask := (List.isChain_cons_cons.mp h).1
      rw [ha, getNextLoop, if_neg hcur, if_pos rfl]
      rfl
  | cons b l ih =>
      intro rounds a h hmem hr
      obtain ⟨k, rfl⟩ := Nat.exists_eq_add_of_lt hr
      obtain ⟨ha, h⟩ := List.isChain_cons_cons.mp h
      rw [ha, getNextLoop, firstReady, List.find?_cons]
      by_cases hb : (m.tasks b).status = .ready
      · simp [hb, found]
      · have hne : b ≠ m.currentTask := fun e => hmem (e ▸ List.mem_cons_self)
        rw [if_neg hb, if_neg hne, decide_eq_false hb]
        refine ih _ b h (fun hm => hmem (List.mem_cons_of_mem _ hm)) ?_
        rw [List.length_cons]
        omega

/-- **The search on a ring** ends at the first ready task behind `current_task`, or there. -/
theorem getNextTask_ring {m : Machine} {l : List (BitVec 64)} (h : TaskRing m l) :
    getNextTask m = some (found m (firstReady m l)) := by
  have hcur : (m.tasks m.currentTask).status ≠ .ready := by
    rw [h.running]; decide
  have hlen : (m.currentTask :: l).length ≤ maxTasks := length_le_of_nodup h.nodup
  exact getNextLoop_path hcur l maxTasks m.currentTask h.ring (List.nodup_cons.mp h.nodup).1 hlen

/-- **`schedule`** is the switch to the task that `get_next_task` returns. -/
theorem schedule_switched (ret : BitVec 64) {m m₁ : Machine} {next : BitVec 64}
    (h : getNextTask m = some (next, m₁)) (hne : next ≠ 0) :
    ∃ m', schedule ret m = some m' ∧ Switched ret next m₁.currentTask m₁ m' := by
  obtain ⟨m', hasm, hsw⟩ := switchToTaskAsm_switched ret next m₁.currentTask m₁
  refine ⟨m', ?_, hsw⟩
  rw [schedule, h]
  simp only [switchToTask, if_neg hne, hasm, Option.map_some]

/-- The switch changes no status. -/
theorem Switched.status {ret next cur : BitVec 64} {m m' : Machine}
    (h : Switched ret next cur m m') (t : BitVec 64) :
    (m'.tasks t).status = (m.tasks t).status := by
  rw [h.tasks]
  by_cases ht : t = cur
  · rw [ht, Function.update_self]
  · rw [Function.update_of_ne ht]

/-- The switch changes no link, no slice and no `cr3`. -/
theorem Switched.rest {ret next cur : BitVec 64} {m m' : Machine}
    (h : Switched ret next cur m m') (t : BitVec 64) :
    (m'.tasks t).next = (m.tasks t).next ∧ (m'.tasks t).timeSlice = (m.tasks t).timeSlice ∧
      (m'.tasks t).cr3 = (m.tasks t).cr3 := by
  rw [h.tasks]
  by_cases ht : t = cur
  · rw [ht, Function.update_self]
    exact ⟨rfl, rfl, rfl⟩
  · rw [Function.update_of_ne ht]
    exact ⟨rfl, rfl, rfl⟩

/-- The task found is one of the ring. -/
theorem found_mem (m : Machine) (l : List (BitVec 64)) :
    (found m (firstReady m l)).1 ∈ m.currentTask :: l := by
  cases hr : firstReady m l with
  | none => exact List.mem_cons_self
  | some t => exact List.mem_cons_of_mem _ (List.mem_of_find?_eq_some hr)

/-- The task found is the one that runs, and no other of the ring does. -/
theorem found_running {m : Machine} {l : List (BitVec 64)} (h : TaskRing m l) :
    ∀ t ∈ m.currentTask :: l, ((found m (firstReady m l)).2.tasks t).status = .running ↔
      t = (found m (firstReady m l)).1 := by
  intro t ht
  have hm : (m.tasks t).status = .running ↔ t = m.currentTask := by
    constructor
    · intro hr
      rcases List.mem_cons.mp ht with rfl | ht
      · rfl
      · exact absurd hr (h.others t ht)
    · rintro rfl
      exact h.running
  cases firstReady m l with
  | none => exact hm
  | some r =>
      simp only [found, swapStatus_status]
      by_cases htr : t = r
      · simp [htr]
      · by_cases htc : t = m.currentTask
        · rw [if_neg htr, if_pos htc]
          exact ⟨fun h => absurd h (by decide), fun h => absurd h htr⟩
        · rw [if_neg htr, if_neg htc, hm]
          exact ⟨fun h => absurd h htc, fun h => absurd h htr⟩

/-- `schedule` on a ring returns, in the task that `get_next_task` returned. -/
theorem schedule_ring (ret : BitVec 64) {m : Machine} {l : List (BitVec 64)} (h : TaskRing m l) :
    ∃ m', schedule ret m = some m' ∧ Switched ret (found m (firstReady m l)).1 m.currentTask
      (found m (firstReady m l)).2 m' := by
  have hne := h.nonnull _ (found_mem m l)
  obtain ⟨m', hs, hsw⟩ := schedule_switched ret (getNextTask_ring h) hne
  refine ⟨m', hs, ?_⟩
  have hcur : (found m (firstReady m l)).2.currentTask = m.currentTask := by
    cases firstReady m l with
    | none => rfl
    | some t => rfl
  rw [← hcur]
  exact hsw

end FrazzOS.Proc
