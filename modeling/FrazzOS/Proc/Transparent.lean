import FrazzOS.Proc.Process
import FrazzOS.Support.Runs

/-!
# Proc — Transparent

Runs of `schedule` over a ring of ready tasks, with what each task is to be resumed with
(`Tracked.origin`): the context of its own last call of `switch_to_task_asm`, or the `main` it was
made for.

`switch_transparent`: in every state of such a run a call of `schedule` resumes the next task
exactly there.  What carries the run (`Kept`) is that the stack of every task that does not run
holds its context at `kernel_top`; a stack is written by its own task only, so the contexts of the
others stay.
-/

namespace FrazzOS.Proc
open Heap Memory Rings Runs

/-- Where a task goes on: after its own last call, or, not having run, at `main`. -/
inductive Origin where
  | called (c : Context)
  | built (main : BitVec 64)

/-- The machine runs where the origin says. -/
def EnteredAt (m : Machine) : Origin → Prop
  | .called c => Resumed m c
  | .built main => m.rip = main ∧ ∀ r, m.regs r = 0

/-- The context stands for the origin. -/
def Origin.Is (c : Context) : Origin → Prop
  | .called c' => c' = c
  | .built main => c.rip = main ∧ ∀ r, c.regs r = 0

/-- The machine with its tasks, the stack of each, and where each goes on. -/
structure Tracked where
  machine : Machine
  tasks : List (BitVec 64)
  stack : BitVec 64 → Set (BitVec 64)
  origin : BitVec 64 → Origin

/-- The origins once `current_task` has called `switch_to_task_asm(next, …)`. -/
def Tracked.calledOrigin (s : Tracked) (ret next : BitVec 64) : BitVec 64 → Origin :=
  Function.update s.origin s.machine.currentTask
    (.called ⟨callRegs s.machine next s.machine.currentTask, s.machine.rsp, ret⟩)

inductive SwitchEvent where
  | schedule (ret : BitVec 64)
  | create (main : BitVec 64)
  | work

/-- A step of a run.  The tasks' own code writes no stack but that of `current_task`, a call is
saved onto it, and a new task brings a stack of its own. -/
inductive SwitchStep : Tracked → SwitchEvent → Tracked → Prop where
  | schedule {s : Tracked} {ret next : BitVec 64} {m₁ m' : Machine} :
      frame (s.machine.rsp - 128) ⊆ s.stack s.machine.currentTask →
      getNextTask s.machine = some (next, m₁) → schedule ret s.machine = some m' →
      SwitchStep s (.schedule ret)
        { s with machine := m', origin := s.calledOrigin ret next }
  | create {s : Tracked} {main p base : BitVec 64} {m' : Machine} :
      createProcess s.machine main = some (p, m') →
      (m'.tasks p).kernelTop = base + kernelStackSize - 120 → p ∉ s.tasks → p ≠ 0 →
      (∀ t ∈ s.tasks, Disjoint (s.stack t) (stackBytes base)) →
      SwitchStep s (.create main)
        { machine := addProcess m' p
          tasks := p :: s.tasks
          stack := Function.update s.stack p (stackBytes base)
          origin := Function.update s.origin p (.built main) }
  | work {s : Tracked} {m' : Machine} :
      m'.tasks = s.machine.tasks → m'.currentTask = s.machine.currentTask →
      (∀ t ∈ s.tasks, t ≠ s.machine.currentTask → ∀ x ∈ s.stack t, m'.mem x = s.machine.mem x) →
      SwitchStep s .work { s with machine := m' }

/-- A ring of ready tasks with disjoint stacks. -/
structure OnRing (s : Tracked) (l : List (BitVec 64)) : Prop where
  ring : ReadyRing s.machine l
  perm : (s.machine.currentTask :: l).Perm s.tasks
  disjoint : ∀ t ∈ s.tasks, ∀ t' ∈ s.tasks, t ≠ t' → Disjoint (s.stack t) (s.stack t')

/-- Where a run starts: every other task is as `create_process` leaves it, or was suspended by a
call whose context lies on its stack. -/
structure Start (s : Tracked) : Prop where
  ring : ∃ l, OnRing s l
  others : ∀ t ∈ s.tasks, t ≠ s.machine.currentTask →
    (∃ base main, Built s.machine t base main ∧ stackBytes base ⊆ s.stack t ∧
      s.origin t = .built main) ∨
    ∃ c, Saved s.machine.mem (s.machine.tasks t).kernelTop c ∧
      frame (s.machine.tasks t).kernelTop ⊆ s.stack t ∧ s.origin t = .called c

/-- The invariant: every task that does not run has its context on its stack. -/
structure Kept (s : Tracked) (l : List (BitVec 64)) : Prop extends OnRing s l where
  saved : ∀ t ∈ s.tasks, t ≠ s.machine.currentTask →
    ∃ c, Saved s.machine.mem (s.machine.tasks t).kernelTop c ∧
      frame (s.machine.tasks t).kernelTop ⊆ s.stack t ∧ (s.origin t).Is c

/-- A saved context reads only its own bytes. -/
theorem Saved.congr {mem mem' : Mem} {top : BitVec 64} {c : Context} (h : Saved mem top c)
    (hm : ∀ x ∈ frame top, mem' x = mem x) : Saved mem' top c :=
  ⟨h.1.congr fun x hx => hm x hx, h.2⟩

/-- The initial frame lies on the stack. -/
theorem Built.frame {m : Machine} {t base main : BitVec 64} (h : Built m t base main) :
    frame (m.tasks t).kernelTop ⊆ stackBytes base := by
  intro x hx
  have hx : (x - (m.tasks t).kernelTop).toNat < 128 := hx
  have he : x - base = x - (m.tasks t).kernelTop + 3976 := by
    rw [h.kernelTop, kernelStackSize]; bv_omega
  have hlen : kernelStackSize.toNat = 4096 := rfl
  show (x - base).toNat < kernelStackSize.toNat + 8
  rw [he, hlen]
  bv_omega

theorem Start.kept {s : Tracked} (h : Start s) : ∃ l, Kept s l := by
  obtain ⟨l, hl⟩ := h.ring
  refine ⟨l, hl, fun t ht hne => ?_⟩
  rcases h.others t ht hne with ⟨base, main, hb, hstack, ho⟩ | ⟨c, hc, hstack, ho⟩
  · refine ⟨entryContext base main, hb.saved, hb.frame.trans hstack, ?_⟩
    rw [ho]
    exact ⟨rfl, fun _ => rfl⟩
  · refine ⟨c, hc, hstack, ?_⟩
    rw [ho]
    rfl

/-- The machine resumed with a context runs where its origin says. -/
theorem Resumed.enteredAt {m : Machine} {c : Context} {o : Origin} (h : Resumed m c)
    (ho : o.Is c) : EnteredAt m o := by
  obtain ⟨hregs, hrsp, hrip⟩ := h
  cases o with
  | called c' =>
      obtain rfl : c' = c := ho
      exact ⟨hregs, hrsp, hrip⟩
  | built main =>
      obtain ⟨h₀, h₁⟩ := ho
      exact ⟨hrip.trans h₀, fun r => (congrFun hregs r).trans (h₁ r)⟩

theorem OnRing.current_mem {s : Tracked} {l : List (BitVec 64)} (h : OnRing s l) :
    s.machine.currentTask ∈ s.tasks := h.perm.mem_iff.mp List.mem_cons_self

/-- **A call of `schedule`** turns the ring and leaves every task's context on its stack. -/
theorem Kept.turned {s : Tracked} {l : List (BitVec 64)} (h : Kept s l) (ret : BitVec 64)
    (hroom : frame (s.machine.rsp - 128) ⊆ s.stack s.machine.currentTask) :
    ∃ m' m₁, getNextTask s.machine = some (s.machine.nextTask, m₁) ∧
      schedule ret s.machine = some m' ∧ Turned ret s.machine l m' ∧
      ∀ t ∈ s.tasks, ∃ c, Saved m'.mem (m'.tasks t).kernelTop c ∧
        frame (m'.tasks t).kernelTop ⊆ s.stack t ∧
        (s.calledOrigin ret s.machine.nextTask t).Is c := by
  obtain ⟨m', hs, ht⟩ := schedule_turned ret h.ring
  refine ⟨m', (found s.machine (firstReady s.machine l)).2, ?_, hs, ht, fun t hmem => ?_⟩
  · rw [getNextTask_ring h.ring.toTaskRing, ← h.ring.found]
  by_cases hcur : t = s.machine.currentTask
  · subst hcur
    refine ⟨⟨callRegs s.machine s.machine.nextTask s.machine.currentTask, s.machine.rsp, ret⟩,
      ?_, ?_, ?_⟩
    · rw [ht.kernelTop, if_pos rfl]
      exact ht.saved
    · rw [ht.kernelTop, if_pos rfl]
      exact hroom
    · rw [Tracked.calledOrigin, Function.update_self]
      rfl
  · obtain ⟨c, hc, hstack, ho⟩ := h.saved t hmem hcur
    -- the call is saved onto another stack
    have hapart : ∀ x ∈ frame (s.machine.tasks t).kernelTop, x ∉ frame (s.machine.rsp - 128) :=
      fun x hx hx' => Set.disjoint_left.mp (h.disjoint t hmem _ h.current_mem hcur) (hstack hx)
        (hroom hx')
    refine ⟨c, ?_, ?_, ?_⟩
    · rw [ht.kernelTop, if_neg hcur]
      exact hc.congr fun x hx => ht.mem x (hapart x hx)
    · rw [ht.kernelTop, if_neg hcur]
      exact hstack
    · rw [Tracked.calledOrigin, Function.update_of_ne hcur]
      exact ho

theorem Kept.schedule {s : Tracked} {l : List (BitVec 64)} {ret next : BitVec 64}
    {m₁ m' : Machine} (h : Kept s l)
    (hroom : frame (s.machine.rsp - 128) ⊆ s.stack s.machine.currentTask)
    (hnext : getNextTask s.machine = some (next, m₁))
    (hs : Proc.schedule ret s.machine = some m') :
    ∃ l', Kept { s with machine := m', origin := s.calledOrigin ret next } l' := by
  obtain ⟨m'', m₁', hnext', hs', ht, hsaved⟩ := h.turned ret hroom
  obtain rfl : m' = m'' := Option.some.inj (hs.symm.trans hs')
  obtain rfl : next = s.machine.nextTask :=
    congrArg Prod.fst (Option.some.inj (hnext.symm.trans hnext'))
  have hperm : (m'.currentTask :: Rings.turned s.machine.currentTask l).Perm
      (s.machine.currentTask :: l) := by
    rw [ht.currentTask, Machine.nextTask, h.ring.ring.next_head]
    exact turned_perm s.machine.currentTask l
  exact ⟨_, {
    ring := ht.ring
    perm := hperm.trans h.perm
    disjoint := h.disjoint
    saved := fun t hmem _ => hsaved t hmem }⟩

theorem Kept.create {s : Tracked} {l : List (BitVec 64)} {main p base : BitVec 64} {m' : Machine}
    (h : Kept s l) (hc : createProcess s.machine main = some (p, m'))
    (htop : (m'.tasks p).kernelTop = base + kernelStackSize - 120) (hp : p ∉ s.tasks)
    (h₀ : p ≠ 0) (hdisj : ∀ t ∈ s.tasks, Disjoint (s.stack t) (stackBytes base)) :
    ∃ l', Kept
      { machine := addProcess m' p
        tasks := p :: s.tasks
        stack := Function.update s.stack p (stackBytes base)
        origin := Function.update s.origin p (.built main) } l' := by
  have hcr := createProcess_created hc
  obtain ⟨-, base', -, -, -, hbuilt, hmem⟩ := hcr.heap
  obtain rfl : base' = base := by
    have := hbuilt.kernelTop.symm.trans htop
    bv_omega
  have hnotin : p ∉ s.machine.currentTask :: l := fun hm => hp (h.perm.mem_iff.mp hm)
  have hcur : (addProcess m' p).currentTask = s.machine.currentTask := hcr.currentTask
  have hne : ∀ t ∈ s.tasks, t ≠ p := by
    rintro t ht rfl
    exact hp ht
  have hstack : ∀ t ∈ s.tasks, Function.update s.stack p (stackBytes base') t = s.stack t :=
    fun t ht => Function.update_of_ne (hne t ht) _ _
  refine ⟨p :: l, {
    ring := (h.ring.created hcr hnotin).add (hcr.currentTask.symm ▸ hnotin) h₀ hbuilt.status
    perm := ?_
    disjoint := ?_
    saved := ?_ }⟩
  · rw [hcur]
    exact (List.Perm.swap p s.machine.currentTask l).trans (h.perm.cons p)
  · intro t ht t' ht' hneq
    rcases List.mem_cons.mp ht with rfl | hold
    · rcases List.mem_cons.mp ht' with rfl | hold'
      · exact absurd rfl hneq
      · simp only [Function.update_self, hstack t' hold']
        exact (hdisj t' hold').symm
    · rcases List.mem_cons.mp ht' with rfl | hold'
      · simp only [Function.update_self, hstack t hold]
        exact hdisj t hold
      · simp only [hstack t hold, hstack t' hold']
        exact h.disjoint t hold t' hold' hneq
  · intro t ht hnecur
    rcases List.mem_cons.mp ht with rfl | ht
    · refine ⟨entryContext base' main, ?_, ?_, ?_⟩
      · simp only [(addProcess_rest t).2.2.2]
        exact hbuilt.saved
      · simp only [(addProcess_rest t).2.2.2, Function.update_self]
        exact hbuilt.frame
      · simp only [Function.update_self]
        exact ⟨rfl, fun _ => rfl⟩
    · obtain ⟨c, hc', hst, ho⟩ := h.saved t ht (hcur ▸ hnecur)
      have htop' : ((addProcess m' p).tasks t).kernelTop = (s.machine.tasks t).kernelTop :=
        (addProcess_rest t).2.2.2.trans (congrArg Tcb.kernelTop (hcr.tasks t (hne t ht)))
      refine ⟨c, ?_, ?_, ?_⟩
      · simp only [htop']
        exact hc'.congr fun x hx => hmem x (Set.disjoint_left.mp (hdisj t ht) (hst hx))
      · simp only [htop', hstack t ht]
        exact hst
      · simp only [Function.update_of_ne (hne t ht)]
        exact ho

theorem Kept.work {s : Tracked} {l : List (BitVec 64)} {m' : Machine} (h : Kept s l)
    (htasks : m'.tasks = s.machine.tasks) (hcur : m'.currentTask = s.machine.currentTask)
    (hmem : ∀ t ∈ s.tasks, t ≠ s.machine.currentTask → ∀ x ∈ s.stack t,
      m'.mem x = s.machine.mem x) : Kept { s with machine := m' } l where
  ring := h.ring.congr hcur (fun t _ => by rw [htasks]) fun t _ => by rw [htasks]
  perm := by simp only [hcur]; exact h.perm
  disjoint := h.disjoint
  saved := by
    intro t ht hne
    simp only [hcur, htasks] at hne ⊢
    obtain ⟨c, hc, hstack, ho⟩ := h.saved t ht hne
    exact ⟨c, hc.congr fun x hx => hmem t ht hne x (hstack hx), hstack, ho⟩

/-- A ring of tasks whose contexts are on their stacks. -/
def Tracked.Kept (s : Tracked) : Prop := ∃ l, Proc.Kept s l

/-- **One step leaves every context on its stack.** -/
theorem Tracked.Kept.step {s s' : Tracked} {e : SwitchEvent} (h : s.Kept) (hs : SwitchStep s e s') :
    s'.Kept := by
  obtain ⟨l, h⟩ := h
  cases hs with
  | schedule hroom hnext hsched => exact h.schedule hroom hnext hsched
  | create hc htop hp h₀ hdisj => exact h.create hc htop hp h₀ hdisj
  | work htasks hcur hmem => exact ⟨l, h.work htasks hcur hmem⟩

/-- The next task of a ring is entered where it goes on, with its own `cr3`. -/
theorem Kept.enters {s : Tracked} {l : List (BitVec 64)} (h : Kept s l) (ret : BitVec 64)
    (hroom : frame (s.machine.rsp - 128) ⊆ s.stack s.machine.currentTask) :
    ∃ next m₁ m', getNextTask s.machine = some (next, m₁) ∧ Proc.schedule ret s.machine = some m' ∧
      m'.currentTask = next ∧ next ∈ s.tasks ∧ EnteredAt m' (s.calledOrigin ret next next) ∧
      m'.cr3 = (m'.tasks next).cr3 := by
  obtain ⟨m', m₁, hnext, hs, ht, hsaved⟩ := h.turned ret hroom
  have hmem : s.machine.nextTask ∈ s.tasks := by
    refine h.perm.mem_iff.mp ((turned_perm s.machine.currentTask l).mem_iff.mp ?_)
    rw [Machine.nextTask, h.ring.ring.next_head]
    exact List.mem_cons_self
  obtain ⟨c, hc, -, ho⟩ := hsaved _ hmem
  exact ⟨_, m₁, m', hnext, hs, ht.currentTask, hmem, (ht.resumed c hc).enteredAt ho, ht.cr3⟩

/-- **Context-switch transparency.**  In every state of a run, `schedule` resumes the task that
`get_next_task` returns where that task goes on: at the return address, with the registers and the
`rsp` of its own last call, or at its `main` with all registers zero; and with its own `cr3`. -/
theorem switch_transparent {s₀ s : Tracked} {es : List SwitchEvent} (h₀ : Start s₀)
    (hrun : Run SwitchStep s₀ es s) (ret : BitVec 64)
    (hroom : frame (s.machine.rsp - 128) ⊆ s.stack s.machine.currentTask) :
    ∃ next m₁ m', getNextTask s.machine = some (next, m₁) ∧ schedule ret s.machine = some m' ∧
      m'.currentTask = next ∧ next ∈ s.tasks ∧ EnteredAt m' (s.calledOrigin ret next next) ∧
      m'.cr3 = (m'.tasks next).cr3 := by
  have hstart : s₀.Kept := h₀.kept
  obtain ⟨l, h⟩ := hrun.invariant (fun h hs => h.step hs) hstart
  exact h.enters ret hroom

/-- Two tasks: one runs, and `create_process(0x400)` has made the other. -/
def twoTasks : Tracked where
  machine := {
    regs := fun _ => 7
    rsp := 0x9000
    rip := 0
    cr3 := 0x200000
    zf := false
    mem := write (fun _ => 0) 0x11000 0x400
    tasks := fun p =>
      if p = 0x1000 then ⟨0, 0x200000, 0x2000, .running, quantum⟩
      else ⟨0x10f88, 0x200000, 0x1000, .ready, quantum⟩
    currentTask := 0x1000
    heap := heapInit (fun _ => 0) 0x1000000 }
  tasks := [0x1000, 0x2000]
  stack p := if p = 0x1000 then stackBytes 0x8000 else stackBytes 0x10000
  origin _ := .built 0x400

theorem start_twoTasks : Start twoTasks where
  ring := by
    refine ⟨[0x2000], ⟨⟨⟨?_, ?_, ?_, rfl, ?_⟩, ?_⟩, .refl _, ?_⟩⟩
    · simp [Rings.Ring, Machine.next, twoTasks]
    · simp [twoTasks]
    · simp [twoTasks]
    · simp [twoTasks]
    · simp [twoTasks]
    · have hdisj : Disjoint (stackBytes 0x8000) (stackBytes 0x10000) := by
        rw [Set.disjoint_left]
        intro x hx hx'
        have hx : (x - 0x8000).toNat < 4104 := hx
        have hx' : (x - 0x10000).toNat < 4104 := hx'
        bv_omega
      simpa [twoTasks] using And.intro hdisj hdisj.symm
  others := by
    intro t ht hne
    have htwo : t = 0x2000 := by
      rcases List.mem_cons.mp ht with rfl | ht
      · exact absurd rfl hne
      · exact List.mem_singleton.mp ht
    subst htwo
    refine Or.inl ⟨0x10000, 0x400, ⟨rfl, fun x hx => ?_, ?_, rfl, rfl⟩, Set.Subset.refl _, rfl⟩
    · have hx : (x - 0x10000).toNat < 4096 := hx
      have hle : 8 ≤ (x - 0x11000).toNat := by bv_omega
      exact write_of_le (m := fun _ => 0) (v := 0x400) hle
    · exact read_write (fun _ => 0) 0x11000 0x400

/-- The first task has been switched away from, and the second one has run. -/
theorem switch_transparent_two : ∃ s, Run SwitchStep twoTasks [.schedule 0x500, .work] s ∧
    ∃ next m₁ m', getNextTask s.machine = some (next, m₁) ∧ schedule 0x600 s.machine = some m' ∧
      m'.currentTask = next ∧ next ∈ s.tasks ∧ EnteredAt m' (s.calledOrigin 0x600 next next) ∧
      m'.cr3 = (m'.tasks next).cr3 := by
  have hroom : frame (twoTasks.machine.rsp - 128) ⊆ twoTasks.stack twoTasks.machine.currentTask := by
    intro x hx
    have hx : (x - (0x9000 - 128)).toNat < 128 := hx
    show (x - 0x8000).toNat < 4104
    bv_omega
  obtain ⟨l, hkept⟩ := start_twoTasks.kept
  obtain ⟨m', m₁, hnext, hs, ht, hsaved⟩ := hkept.turned 0x500 hroom
  have hrun : Run SwitchStep twoTasks [.schedule 0x500, .work] _ :=
    .cons (.schedule hroom hnext hs)
      (.one (@SwitchStep.work _ { m' with regs := fun _ => 9 } rfl rfl fun _ _ _ _ _ => rfl))
  refine ⟨_, hrun, switch_transparent start_twoTasks hrun 0x600 ?_⟩
  -- the second task goes on where its context was, so the next one has room there
  obtain ⟨c, hc, hstack, -⟩ := hsaved 0x2000 (by decide)
  obtain ⟨-, hrsp, -⟩ := ht.resumed c hc
  show frame (m'.rsp - 128) ⊆ twoTasks.stack m'.currentTask
  rw [hrsp, hc.2, BitVec.add_sub_cancel, ht.currentTask]
  exact hstack

end FrazzOS.Proc
