import FrazzOS.Proc.Current

/-!
# Proc — Turn

`schedule` where every task but `current_task` is ready: the ring turns by one task.

`schedule_turned`: the next task becomes `current_task` and the one that runs, and the ring, the
slices and the `cr3` of all tasks are as before.
-/

namespace FrazzOS.Proc
open Rings Memory

/-- A ring with `current_task` running and all other tasks ready. -/
structure ReadyRing (m : Machine) (l : List (BitVec 64)) : Prop extends TaskRing m l where
  ready : ∀ t ∈ l, (m.tasks t).status = .ready

/-- A ring reads only the links and statuses of its tasks. -/
theorem ReadyRing.congr {m m' : Machine} {l : List (BitVec 64)} (h : ReadyRing m l)
    (hcur : m'.currentTask = m.currentTask)
    (hnext : ∀ t ∈ m.currentTask :: l, (m'.tasks t).next = (m.tasks t).next)
    (hstatus : ∀ t ∈ m.currentTask :: l, (m'.tasks t).status = (m.tasks t).status) :
    ReadyRing m' l where
  ring := by rw [hcur]; exact h.ring.congr hnext
  nodup := by rw [hcur]; exact h.nodup
  nonnull := by rw [hcur]; exact h.nonnull
  running := by
    rw [hcur]
    exact (hstatus _ List.mem_cons_self).trans h.running
  others t ht := hstatus t (List.mem_cons_of_mem _ ht) ▸ h.others t ht
  ready t ht := (hstatus t (List.mem_cons_of_mem _ ht)).trans (h.ready t ht)

/-- The task next to `current_task`. -/
def Machine.nextTask (m : Machine) : BitVec 64 := m.next m.currentTask

/-- What one `schedule` leaves of a ring of ready tasks. -/
structure Turned (ret : BitVec 64) (m : Machine) (l : List (BitVec 64)) (m' : Machine) : Prop where
  currentTask : m'.currentTask = m.nextTask
  ring : ReadyRing m' (turned m.currentTask l)
  timeSlice : ∀ t, (m'.tasks t).timeSlice = (m.tasks t).timeSlice
  next : ∀ t, (m'.tasks t).next = (m.tasks t).next
  taskCr3 : ∀ t, (m'.tasks t).cr3 = (m.tasks t).cr3
  kernelTop : ∀ t, (m'.tasks t).kernelTop =
    if t = m.currentTask then m.rsp - 128 else (m.tasks t).kernelTop
  outside : ∀ t, t ∉ m.currentTask :: l → m'.tasks t = m.tasks t
  heap : m'.heap = m.heap
  saved : Saved m'.mem (m.rsp - 128) ⟨callRegs m m.nextTask m.currentTask, m.rsp, ret⟩
  mem : ∀ x, x ∉ frame (m.rsp - 128) → m'.mem x = m.mem x
  cr3 : m'.cr3 = (m'.tasks m.nextTask).cr3
  resumed : ∀ c, Saved m'.mem (m'.tasks m.nextTask).kernelTop c → Resumed m' c

/-- Where all others are ready, the task found is the next one. -/
theorem ReadyRing.found {m : Machine} {l : List (BitVec 64)} (h : ReadyRing m l) :
    (found m (firstReady m l)).1 = m.nextTask := by
  refine ((found_eq_next_iff h.toTaskRing).mpr ?_).symm
  cases l with
  | nil => exact Or.inr h.ring.head_nil
  | cons b l =>
      have hb : m.next m.currentTask = b := h.ring.head_cons
      exact Or.inl (hb ▸ h.ready b List.mem_cons_self)

/-- The search changes no register and no memory but the control blocks. -/
theorem found_rest (m : Machine) (r : Option (BitVec 64)) :
    (Proc.found m r).2.mem = m.mem ∧ (Proc.found m r).2.heap = m.heap ∧
      (Proc.found m r).2.rsp = m.rsp ∧
      ∀ next cur, callRegs (Proc.found m r).2 next cur = callRegs m next cur := by
  cases r with
  | none => exact ⟨rfl, rfl, rfl, fun _ _ => rfl⟩
  | some t => exact ⟨rfl, rfl, rfl, fun _ _ => rfl⟩

theorem found_tasks (m : Machine) (r : Option (BitVec 64)) (t : BitVec 64) :
    ((Proc.found m r).2.tasks t).next = (m.tasks t).next ∧
      ((Proc.found m r).2.tasks t).timeSlice = (m.tasks t).timeSlice ∧
      ((Proc.found m r).2.tasks t).cr3 = (m.tasks t).cr3 ∧
      ((Proc.found m r).2.tasks t).kernelTop = (m.tasks t).kernelTop := by
  cases r with
  | none => exact ⟨rfl, rfl, rfl, rfl⟩
  | some r => exact ⟨swapStatus_next m t r, swapStatus_timeSlice m t r, swapStatus_cr3 m t r,
      swapStatus_kernelTop m t r⟩

/-- The search changes no task outside the ring. -/
theorem found_outside {m : Machine} {l : List (BitVec 64)} {t : BitVec 64}
    (ht : t ∉ m.currentTask :: l) : (Proc.found m (firstReady m l)).2.tasks t = m.tasks t := by
  have hcur : t ≠ m.currentTask := fun e => ht (e ▸ List.mem_cons_self)
  cases hr : firstReady m l with
  | none => rfl
  | some r =>
      have hrl : t ≠ r := fun e => ht (e ▸ List.mem_cons_of_mem _ (List.mem_of_find?_eq_some hr))
      simp [Proc.found, swapStatus, Machine.setStatus, Machine.setTask, hcur, hrl]

/-- Of a ring of ready tasks, those that do not run are ready after the search too. -/
theorem ReadyRing.found_ready {m : Machine} {l : List (BitVec 64)} (h : ReadyRing m l)
    {t : BitVec 64} (ht : t ∈ m.currentTask :: l) (hne : t ≠ (Proc.found m (firstReady m l)).1) :
    ((Proc.found m (firstReady m l)).2.tasks t).status = .ready := by
  cases hr : firstReady m l with
  | none =>
      rw [hr] at hne
      exact h.ready t ((List.mem_cons.mp ht).resolve_left hne)
  | some r =>
      rw [hr] at hne
      simp only [Proc.found, swapStatus_status] at hne ⊢
      rw [if_neg hne]
      by_cases htc : t = m.currentTask
      · rw [if_pos htc]
      · rw [if_neg htc]
        exact h.ready t ((List.mem_cons.mp ht).resolve_left htc)

/-- **A turn of the ring.** -/
theorem schedule_turned (ret : BitVec 64) {m : Machine} {l : List (BitVec 64)}
    (h : ReadyRing m l) : ∃ m', schedule ret m = some m' ∧ Turned ret m l m' := by
  obtain ⟨m', hs, hsw⟩ := schedule_ring ret h.toTaskRing
  refine ⟨m', hs, ?_⟩
  have hcur : m'.currentTask = m.nextTask := hsw.currentTask_found
  have hfound := h.found
  have hmem : ∀ t, t ∈ m.nextTask :: turned m.currentTask l ↔ t ∈ m.currentTask :: l := by
    intro t
    rw [Machine.nextTask, h.ring.next_head]
    exact (turned_perm m.currentTask l).mem_iff
  have hnext : ∀ t, (m'.tasks t).next = (m.tasks t).next :=
    fun t => (hsw.rest t).1.trans (found_tasks m _ t).1
  have hrunning : ∀ t ∈ m.currentTask :: l, (m'.tasks t).status = .running ↔ t = m.nextTask := by
    intro t ht
    rw [hsw.status, found_running h.toTaskRing t ht, hfound]
  have hready : ∀ t ∈ turned m.currentTask l, t ≠ m.nextTask → (m'.tasks t).status = .ready := by
    intro t ht hne
    rw [hsw.status]
    exact h.found_ready ((hmem t).mp (List.mem_cons_of_mem _ ht)) (hfound ▸ hne)
  have hnodup : (m.nextTask :: turned m.currentTask l).Nodup := by
    rw [Machine.nextTask, h.ring.next_head]
    exact (turned_perm m.currentTask l).nodup_iff.mpr h.nodup
  have hne : ∀ t ∈ turned m.currentTask l, t ≠ m.nextTask := by
    rintro t ht rfl
    exact (List.nodup_cons.mp hnodup).1 ht
  obtain ⟨hmem₁, hheap, hrsp, hregs⟩ := found_rest m (firstReady m l)
  rw [hfound] at hsw
  exact {
    currentTask := hcur
    ring := {
      ring := by
        have hturn := h.ring.turn
        rw [← h.ring.next_head] at hturn
        rw [hcur]
        exact hturn.congr fun t _ => hnext t
      nodup := by rw [hcur]; exact hnodup
      nonnull := by
        rw [hcur]
        exact fun t ht => h.nonnull t ((hmem t).mp ht)
      running := by
        rw [hcur]
        exact (hrunning _ ((hmem _).mp List.mem_cons_self)).mpr rfl
      others := fun t ht hr => hne t ht
        ((hrunning t ((hmem t).mp (List.mem_cons_of_mem _ ht))).mp hr)
      ready := fun t ht => hready t ht (hne t ht) }
    timeSlice := fun t => (hsw.rest t).2.1.trans (found_tasks m _ t).2.1
    next := hnext
    taskCr3 := fun t => (hsw.rest t).2.2.trans (found_tasks m _ t).2.2.1
    kernelTop := fun t => by
      rw [hsw.tasks, hrsp]
      by_cases ht : t = m.currentTask
      · rw [if_pos ht, ht, Function.update_self]
      · rw [if_neg ht, Function.update_of_ne ht, (found_tasks m _ t).2.2.2]
    outside := fun t ht => by
      have hne : t ≠ m.currentTask := fun e => ht (e ▸ List.mem_cons_self)
      rw [hsw.tasks, Function.update_of_ne hne]
      exact found_outside ht
    heap := hsw.heap.trans hheap
    saved := by
      have := hsw.saved
      rwa [hrsp, hregs] at this
    mem := fun x hx => (hsw.mem x (hrsp.symm ▸ hx)).trans (congrFun hmem₁ x)
    cr3 := hsw.cr3
    resumed := hsw.resumed }

end FrazzOS.Proc
