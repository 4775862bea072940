import FrazzOS.Proc.Cycle

/-!
# Proc — Insert

`add_process` one statement at a time, with timer interrupts between the statements, in any task.
A task that is suspended inside `add_process` keeps the process it was given and the value of `tmp`
(`Stage`).

* `Inserting`: the invariant.  The tasks form one ring once the store to `current_task->next` of an
  `add_process` that is between its two stores is undone (`Sched.settled`).
* `insert_one_cycle_iff`: the ring is one cycle at every entry of the handler just where no timer
  interrupt is taken between the two stores.  There the link behind `current_task` leads to the
  fresh task, whose own link is not written yet.
-/

namespace FrazzOS.Proc
open Heap Bitmap Rings Runs

/-- `tcb_t* tmp = current_task->next`. -/
def addProcessTmp (m : Machine) : BitVec 64 := (m.tasks m.currentTask).next

/-- `current_task->next = process`. -/
def addProcessHead (m : Machine) (process : BitVec 64) : Machine :=
  m.setTask m.currentTask { m.tasks m.currentTask with next := process }

/-- `process->next = tmp`. -/
def addProcessTail (m : Machine) (process tmp : BitVec 64) : Machine :=
  m.setTask process { m.tasks process with next := tmp }

/-- The three statements, one after the other. -/
theorem addProcess_eq (m : Machine) (process : BitVec 64) :
    addProcess m process = addProcessTail (addProcessHead m process) process (addProcessTmp m) :=
  rfl

/-- Where a task is in `add_process`: outside, behind the first statement or behind the second,
with its local values. -/
inductive Stage where
  | outside
  | loaded (process tmp : BitVec 64)
  | stored (process tmp : BitVec 64)

/-- The process that a task is adding. -/
def Stage.process : Stage → Option (BitVec 64)
  | .outside => none
  | .loaded process _ => some process
  | .stored process _ => some process

/-- The machine, the tasks linked so far, those created that no task adds yet, and where each task
is in `add_process`. -/
structure Sched where
  machine : Machine
  added : List (BitVec 64)
  fresh : List (BitVec 64)
  stage : BitVec 64 → Stage

/-- Where `current_task` is in `add_process`. -/
def Sched.here (s : Sched) : Stage := s.stage s.machine.currentTask

def Sched.setHere (s : Sched) (stage : Stage) : Sched :=
  { s with stage := Function.update s.stage s.machine.currentTask stage }

inductive InsertEvent where
  | create (main : BitVec 64)
  | load (process : BitVec 64)
  | head
  | tail
  | tick (ret : BitVec 64)
  | work

inductive InsertStep : Sched → InsertEvent → Sched → Prop where
  | create {s : Sched} {main p : BitVec 64} {m' : Machine} :
      s.here = .outside → createProcess s.machine main = some (p, m') →
      InsertStep s (.create main) { s with machine := m', fresh := p :: s.fresh }
  | load {s : Sched} {p : BitVec 64} :
      s.here = .outside → p ∈ s.fresh →
      InsertStep s (.load p)
        { s.setHere (.loaded p (addProcessTmp s.machine)) with fresh := s.fresh.erase p }
  | head {s : Sched} {p tmp : BitVec 64} :
      s.here = .loaded p tmp →
      InsertStep s .head
        { s.setHere (.stored p tmp) with machine := addProcessHead s.machine p }
  | tail {s : Sched} {p tmp : BitVec 64} :
      s.here = .stored p tmp →
      InsertStep s .tail
        { s.setHere .outside with
          machine := addProcessTail s.machine p tmp
          added := p :: s.added }
  | tick {s : Sched} {ret : BitVec 64} {m' : Machine} :
      timerIrqHandler ret s.machine = some m' → InsertStep s (.tick ret) { s with machine := m' }
  | work {s : Sched} {m' : Machine} :
      OwnCode s.machine m' → InsertStep s .work { s with machine := m' }

/-- The links from `current_task` pass every task linked so far once, and no other, however far
they are followed. -/
structure OneCycle (s : Sched) : Prop where
  distinct : s.added.Nodup
  cycle : (List.iterate s.machine.next s.machine.currentTask s.added.length).Perm s.added
  back : s.machine.next^[s.added.length] s.machine.currentTask = s.machine.currentTask
  linked : ∀ k, s.machine.next^[k] s.machine.currentTask ∈ s.added

/-- `current_task` is between the two stores of `add_process`. -/
def Sched.Between (s : Sched) : Prop := ∃ process tmp, s.here = .stored process tmp

/-- A step is taken in a state that meets `P`, if it is a timer interrupt. -/
def AtTick (P : Sched → Prop) (t : Taken Sched InsertEvent) : Prop :=
  ∀ ret, t.event = .tick ret → P t.before

/-! ### The invariant -/

/-- The machine with the first store undone. -/
def Sched.settled (s : Sched) : Machine :=
  match s.here with
  | .stored _ tmp => s.machine.setTask s.machine.currentTask
      { s.machine.tasks s.machine.currentTask with next := tmp }
  | _ => s.machine

/-- The invariant: a ring, once settled, and the tasks that are to be added are none of it and all
distinct.  A task suspended behind the first statement still has its old link. -/
structure Inserting (s : Sched) (l : List (BitVec 64)) : Prop where
  linked : Linked s.settled s.added l
  fresh : ∀ p ∈ s.fresh, Unlinked s.machine s.added p
  nodup : s.fresh.Nodup
  adding : ∀ t p, (s.stage t).process = some p →
    t ∈ s.added ∧ Unlinked s.machine s.added p ∧ p ∉ s.fresh
  apart : ∀ t t' p, (s.stage t).process = some p → (s.stage t').process = some p → t = t'
  loaded : ∀ t p tmp, s.stage t = .loaded p tmp → s.machine.next t = tmp
  stored : ∀ t p tmp, s.stage t = .stored p tmp →
    t = s.machine.currentTask ∧ s.machine.next t = p

theorem Sched.settled_of_not_between {s : Sched} (h : ¬ s.Between) : s.settled = s.machine := by
  rw [Sched.settled]
  cases hs : s.here with
  | outside => rfl
  | loaded => rfl
  | stored process tmp => exact absurd ⟨process, tmp, hs⟩ h

/-- Outside the window the machine itself is settled. -/
theorem Sched.linked_settled {s : Sched} {l : List (BitVec 64)} (h : ¬ s.Between) :
    Linked s.settled s.added l ↔ Linked s.machine s.added l := by
  rw [Sched.settled_of_not_between h]

theorem Sched.settled_currentTask (s : Sched) :
    s.settled.currentTask = s.machine.currentTask := by
  rw [Sched.settled]
  cases s.here with
  | outside => rfl
  | loaded => rfl
  | stored => rfl

theorem Inserting.current_mem {s : Sched} {l : List (BitVec 64)} (h : Inserting s l) :
    s.machine.currentTask ∈ s.added := by
  rw [← s.settled_currentTask]
  exact h.linked.perm.mem_iff.mp List.mem_cons_self

/-- **Outside the window** the ring is one cycle. -/
theorem Inserting.oneCycle {s : Sched} {l : List (BitVec 64)} (h : Inserting s l)
    (hs : ¬ s.Between) : OneCycle s := by
  have hl := (Sched.linked_settled hs).mp h.linked
  have hc := hl.cycleOf
  exact ⟨hc.distinct, hc.cycle, hc.back, fun k => hl.perm.mem_iff.mp (hl.ring.iterate_mem k)⟩

/-- **Inside the window** it is none. -/
theorem Inserting.not_oneCycle {s : Sched} {l : List (BitVec 64)} (h : Inserting s l)
    (hs : s.Between) : ¬ OneCycle s := by
  intro hc
  obtain ⟨p, tmp, hp⟩ := hs
  obtain ⟨-, hnext⟩ := h.stored _ _ _ hp
  have hnot : p ∉ s.added := (h.adding _ p (congrArg Stage.process hp)).2.1.notMem
  have hlinked := hc.linked 1
  rw [Function.iterate_one, hnext] at hlinked
  exact hnot hlinked

/-- Where `current_task` stands says what is settled. -/
theorem Sched.settled_of_stored {s : Sched} {p tmp : BitVec 64} (h : s.here = .stored p tmp) :
    s.settled = s.machine.setTask s.machine.currentTask
      { s.machine.tasks s.machine.currentTask with next := tmp } := by
  rw [Sched.settled, h]

theorem Sched.not_between_of_here {s : Sched} {stage : Stage} (h : s.here = stage)
    (hne : ∀ p tmp, stage ≠ .stored p tmp) : ¬ s.Between := by
  rintro ⟨p, tmp, hs⟩
  exact hne p tmp (h.symm.trans hs)

/-- The stage of a task after a step of `current_task`. -/
theorem Sched.setHere_stage (s : Sched) (stage : Stage) (t : BitVec 64) :
    (s.setHere stage).stage t = if t = s.machine.currentTask then stage else s.stage t := by
  by_cases ht : t = s.machine.currentTask
  · simp [Sched.setHere, ht]
  · simp [Sched.setHere, ht]

@[simp] theorem Sched.setHere_here (s : Sched) (stage : Stage) :
    (s.setHere stage).here = stage :=
  (s.setHere_stage stage _).trans (if_pos rfl)

/-! ### What a tick leaves alone -/

/-- A tick writes no link, and nothing outside the ring. -/
theorem Linked.tick_frame {m m' : Machine} {added l : List (BitVec 64)} {ret : BitVec 64}
    (h : Linked m added l) (ht : timerIrqHandler ret m = some m') :
    (∀ t, m'.next t = m.next t) ∧ (∀ t, t ∉ added → m'.tasks t = m.tasks t) ∧
      m'.heap = m.heap := by
  have hset : ∀ v t, (m.setSlice v).next t = m.next t := fun v t =>
    congrFun (setSlice_next m v) t
  have hout : ∀ v t, t ∉ added → (m.setSlice v).tasks t = m.tasks t := by
    intro v t hadd
    refine setSlice_of_ne m v t ?_
    rintro rfl
    exact hadd (h.perm.mem_iff.mp List.mem_cons_self)
  rw [timerIrqHandler] at ht
  by_cases hz : (m.tasks m.currentTask).timeSlice = 0
  · rw [if_pos hz] at ht
    have h' := h.setSlice (v := quantum) (by decide) (Int.le_refl _)
    obtain ⟨m'', hs, hturn⟩ := schedule_turned ret h'.toReadyRing
    obtain rfl : m' = m'' := Option.some.inj (ht.symm.trans hs)
    refine ⟨fun t => (hturn.next t).trans (hset quantum t), fun t hadd => ?_, hturn.heap⟩
    refine (hturn.outside t fun hmem => hadd ?_).trans (hout quantum t hadd)
    exact h'.perm.mem_iff.mp hmem
  · rw [if_neg hz] at ht
    cases ht
    exact ⟨fun t => hset _ t, fun t hadd => hout _ t hadd, rfl⟩

/-- A task to be added reads only its own control block. -/
theorem Unlinked.congr {m m' : Machine} {added added' : List (BitVec 64)} {p : BitVec 64}
    (h : Unlinked m added p) (hadd : p ∉ added') (hblock : TaskBlock m'.heap p)
    (hstatus : (m'.tasks p).status = (m.tasks p).status)
    (hslice : (m'.tasks p).timeSlice = (m.tasks p).timeSlice) : Unlinked m' added' p :=
  ⟨hadd, hblock, hstatus.trans h.status, hslice.trans h.timeSlice⟩

/-! ### The steps -/

/-- A step that changes no link, no heap and nothing outside the ring keeps all but the ring. -/
theorem Inserting.keep {s : Sched} {l l' : List (BitVec 64)} {m' : Machine} (h : Inserting s l)
    (hs : ¬ s.Between) (hl : Linked m' s.added l') (hnext : ∀ t, m'.next t = s.machine.next t)
    (hout : ∀ t, t ∉ s.added → m'.tasks t = s.machine.tasks t) (hheap : m'.heap = s.machine.heap) :
    Inserting { s with machine := m' } l' := by
  have hnone : ∀ t p tmp, s.stage t ≠ .stored p tmp := by
    intro t p tmp ht
    obtain ⟨rfl, -⟩ := h.stored t p tmp ht
    exact hs ⟨p, tmp, ht⟩
  have hun : ∀ p, Unlinked s.machine s.added p → Unlinked m' s.added p := fun p hp =>
    hp.congr hp.notMem (hheap ▸ hp.block) (congrArg Tcb.status (hout p hp.notMem))
      (congrArg Tcb.timeSlice (hout p hp.notMem))
  have hbetween : ¬ ({ s with machine := m' } : Sched).Between := by
    rintro ⟨p, tmp, ht⟩
    exact hnone _ p tmp ht
  exact {
    linked := (Sched.linked_settled hbetween).mpr hl
    fresh := fun p hp => hun p (h.fresh p hp)
    nodup := h.nodup
    adding := fun t p ht => by
      obtain ⟨hadd, hp, hfresh⟩ := h.adding t p ht
      exact ⟨hadd, hun p hp, hfresh⟩
    apart := h.apart
    loaded := fun t p tmp ht => (hnext t).trans (h.loaded t p tmp ht)
    stored := fun t p tmp ht => absurd ht (hnone t p tmp) }

theorem Inserting.tick {s : Sched} {l : List (BitVec 64)} {ret : BitVec 64} {m' : Machine}
    (h : Inserting s l) (hs : ¬ s.Between) (ht : timerIrqHandler ret s.machine = some m') :
    ∃ l', Inserting { s with machine := m' } l' := by
  have hl := (Sched.linked_settled hs).mp h.linked
  obtain ⟨l', hl'⟩ := hl.tick ht
  obtain ⟨hnext, hout, hheap⟩ := hl.tick_frame ht
  exact ⟨l', h.keep hs hl' hnext hout hheap⟩

/-- The tasks' own code, in any stage. -/
theorem Inserting.work {s : Sched} {l : List (BitVec 64)} {m' : Machine} (h : Inserting s l)
    (hw : OwnCode s.machine m') : Inserting { s with machine := m' } l := by
  have hw' := hw
  obtain ⟨htasks, hcur, hheap⟩ := hw'
  have hhere : ({ s with machine := m' } : Sched).here = s.here := congrArg s.stage hcur
  have hsettled : OwnCode s.settled ({ s with machine := m' } : Sched).settled := by
    rw [Sched.settled, Sched.settled, hhere]
    cases s.here with
    | outside => exact hw
    | loaded => exact hw
    | stored p tmp => exact ⟨by simp only [Machine.setTask, htasks, hcur], hcur, hheap⟩
  have hun : ∀ p, Unlinked s.machine s.added p → Unlinked m' s.added p := fun p hp =>
    hp.congr hp.notMem (hheap ▸ hp.block) (by rw [htasks]) (by rw [htasks])
  have hnext : ∀ t, m'.next t = s.machine.next t := fun t => by
    rw [Machine.next, Machine.next, htasks]
  exact {
    linked := h.linked.work hsettled
    fresh := fun p hp => hun p (h.fresh p hp)
    nodup := h.nodup
    adding := fun t p ht => by
      obtain ⟨hadd, hp, hfresh⟩ := h.adding t p ht
      exact ⟨hadd, hun p hp, hfresh⟩
    apart := h.apart
    loaded := fun t p tmp ht => (hnext t).trans (h.loaded t p tmp ht)
    stored := fun t p tmp ht => by
      obtain ⟨hcurrent, hp⟩ := h.stored t p tmp ht
      exact ⟨hcurrent.trans hcur.symm, (hnext t).trans hp⟩ }

/-- `create_process` makes a task that is none of those so far. -/
theorem Inserting.create {s : Sched} {l : List (BitVec 64)} {main p : BitVec 64} {m' : Machine}
    (h : Inserting s l) (hs : s.here = .outside)
    (hc : createProcess s.machine main = some (p, m')) :
    Inserting { s with machine := m', fresh := p :: s.fresh } l := by
  have hcr := createProcess_created hc
  obtain ⟨-, hold, -⟩ := hcr.block
  have hout : ¬ s.Between := Sched.not_between_of_here hs fun _ _ h => Stage.noConfusion h
  have hl := (Sched.linked_settled hout).mp h.linked
  obtain ⟨hl', hp⟩ := hl.created hcr
  have hhere : ({ s with machine := m', fresh := p :: s.fresh } : Sched).here = .outside :=
    (congrArg s.stage hcr.currentTask).trans hs
  have hun : ∀ q, Unlinked s.machine s.added q → q ≠ p ∧ Unlinked m' s.added q := by
    intro q hq
    obtain ⟨hne, hblock⟩ := hold q hq.block
    have htask := hcr.tasks q hne
    exact ⟨hne, hq.congr hq.notMem hblock (congrArg Tcb.status htask)
      (congrArg Tcb.timeSlice htask)⟩
  have hnext : ∀ t ∈ s.added, m'.next t = s.machine.next t := fun t ht =>
    congrArg Tcb.next (hcr.tasks t (hold t (hl.block t ht)).1)
  exact {
    linked := (Sched.linked_settled
      (Sched.not_between_of_here hhere fun _ _ h => Stage.noConfusion h)).mpr hl'
    fresh := fun q hq => by
      rcases List.mem_cons.mp hq with rfl | hq
      · exact hp
      · exact (hun q (h.fresh q hq)).2
    nodup := List.nodup_cons.mpr ⟨fun hm => (hun p (h.fresh p hm)).1 rfl, h.nodup⟩
    adding := fun t q ht => by
      obtain ⟨hadd, hq, hfresh⟩ := h.adding t q ht
      obtain ⟨hne, hq⟩ := hun q hq
      exact ⟨hadd, hq, fun hm => (List.mem_cons.mp hm).elim hne hfresh⟩
    apart := h.apart
    loaded := fun t q tmp ht =>
      (hnext t (h.adding t q (congrArg Stage.process ht)).1).trans (h.loaded t q tmp ht)
    stored := fun t q tmp ht => by
      obtain ⟨rfl, -⟩ := h.stored t q tmp ht
      exact absurd ⟨q, tmp, ht⟩ hout }

/-- The first statement: `current_task` holds the fresh process. -/
theorem Inserting.load {s : Sched} {l : List (BitVec 64)} {p : BitVec 64} (h : Inserting s l)
    (hs : s.here = .outside) (hp : p ∈ s.fresh) :
    Inserting { s.setHere (.loaded p (addProcessTmp s.machine)) with fresh := s.fresh.erase p }
      l := by
  have hout : ¬ s.Between := Sched.not_between_of_here hs fun _ _ h => Stage.noConfusion h
  have hl := (Sched.linked_settled hout).mp h.linked
  have hsub : ∀ q, q ∈ s.fresh.erase p ↔ q ≠ p ∧ q ∈ s.fresh := fun q => h.nodup.mem_erase_iff
  refine {
    linked := ?_
    fresh := fun q hq => h.fresh q ((hsub q).mp hq).2
    nodup := h.nodup.erase p
    adding := fun t q ht => ?_
    apart := fun t t' q ht ht' => ?_
    loaded := fun t q tmp ht => ?_
    stored := fun t q tmp ht => ?_ }
  · refine (Sched.linked_settled ?_).mpr hl
    exact Sched.not_between_of_here
      (s.setHere_here (.loaded p (addProcessTmp s.machine))) fun _ _ h => Stage.noConfusion h
  all_goals simp only [Sched.setHere, Function.update_apply] at ht
  · by_cases hc : t = s.machine.currentTask
    · rw [if_pos hc] at ht
      obtain rfl : p = q := Option.some.inj ht
      exact ⟨hc ▸ h.current_mem, h.fresh p hp, fun hq => ((hsub p).mp hq).1 rfl⟩
    · rw [if_neg hc] at ht
      obtain ⟨hadd, hq, hfresh⟩ := h.adding t q ht
      exact ⟨hadd, hq, fun hm => hfresh ((hsub q).mp hm).2⟩
  · have hfree : ∀ t, (s.stage t).process ≠ some p := fun t ht => (h.adding t p ht).2.2 hp
    simp only [Sched.setHere, Function.update_apply] at ht'
    by_cases hc : t = s.machine.currentTask
    · rw [if_pos hc] at ht
      obtain rfl : p = q := Option.some.inj ht
      by_cases hc' : t' = s.machine.currentTask
      · exact hc.trans hc'.symm
      · rw [if_neg hc'] at ht'
        exact absurd ht' (hfree t')
    · rw [if_neg hc] at ht
      by_cases hc' : t' = s.machine.currentTask
      · rw [if_pos hc'] at ht'
        obtain rfl : p = q := Option.some.inj ht'
        exact absurd ht (hfree t)
      · rw [if_neg hc'] at ht'
        exact h.apart t t' q ht ht'
  · by_cases hc : t = s.machine.currentTask
    · rw [if_pos hc] at ht
      cases ht
      rw [hc]
      rfl
    · rw [if_neg hc] at ht
      exact h.loaded t q tmp ht
  · by_cases hc : t = s.machine.currentTask
    · rw [if_pos hc] at ht
      cases ht
    · rw [if_neg hc] at ht
      exact h.stored t q tmp ht

/-- The link of `current_task` after the second statement. -/
theorem addProcessHead_next (m : Machine) (p t : BitVec 64) :
    (addProcessHead m p).next t = if t = m.currentTask then p else m.next t := by
  by_cases ht : t = m.currentTask
  · simp [addProcessHead, Machine.next, Machine.setTask, ht]
  · simp [addProcessHead, Machine.next, Machine.setTask, ht]

/-- The second statement: the ring is open. -/
theorem Inserting.head {s : Sched} {l : List (BitVec 64)} {p tmp : BitVec 64} (h : Inserting s l)
    (hs : s.here = .loaded p tmp) :
    Inserting { s.setHere (.stored p tmp) with machine := addProcessHead s.machine p } l := by
  have hout : ¬ s.Between := Sched.not_between_of_here hs fun _ _ h => Stage.noConfusion h
  have hl := (Sched.linked_settled hout).mp h.linked
  have htmp : s.machine.next s.machine.currentTask = tmp := h.loaded _ p tmp hs
  have hundo : ((addProcessHead s.machine p).setTask s.machine.currentTask
      { (addProcessHead s.machine p).tasks s.machine.currentTask with next := tmp }) =
      s.machine := by
    simp only [addProcessHead, Machine.setTask, Function.update_self, Function.update_idem]
    rw [← htmp, Machine.next, Function.update_eq_self]
  have hun : ∀ q, Unlinked s.machine s.added q →
      Unlinked (addProcessHead s.machine p) s.added q := fun q hq => by
    have hne : q ≠ s.machine.currentTask := fun e => hq.notMem (e ▸ h.current_mem)
    have htask : (addProcessHead s.machine p).tasks q = s.machine.tasks q :=
      Function.update_of_ne hne _ _
    exact hq.congr hq.notMem hq.block (congrArg Tcb.status htask) (congrArg Tcb.timeSlice htask)
  have hproc : ∀ t, ((s.setHere (.stored p tmp)).stage t).process = (s.stage t).process := by
    intro t
    rw [Sched.setHere_stage]
    by_cases hc : t = s.machine.currentTask
    · rw [if_pos hc, hc]
      exact (congrArg Stage.process hs).symm
    · rw [if_neg hc]
  refine {
    linked := ?_
    fresh := fun q hq => hun q (h.fresh q hq)
    nodup := h.nodup
    adding := fun t q ht => ?_
    apart := fun t t' q ht ht' => h.apart t t' q ((hproc t).symm.trans ht)
      ((hproc t').symm.trans ht')
    loaded := fun t q v ht => ?_
    stored := fun t q v ht => ?_ }
  · have hset := Sched.settled_of_stored (s := { s.setHere (.stored p tmp) with
      machine := addProcessHead s.machine p }) (s.setHere_here (.stored p tmp))
    exact (hset.trans hundo).symm ▸ hl
  · obtain ⟨hadd, hq, hfresh⟩ := h.adding t q ((hproc t).symm.trans ht)
    exact ⟨hadd, hun q hq, hfresh⟩
  all_goals simp only [Sched.setHere, Function.update_apply] at ht
  · by_cases hc : t = s.machine.currentTask
    · rw [if_pos hc] at ht
      cases ht
    · rw [if_neg hc] at ht
      exact (addProcessHead_next _ _ _).trans ((if_neg hc).trans (h.loaded t q v ht))
  · by_cases hc : t = s.machine.currentTask
    · rw [if_pos hc] at ht
      cases ht
      exact ⟨hc, (addProcessHead_next _ _ _).trans (if_pos hc)⟩
    · rw [if_neg hc] at ht
      exact absurd (h.stored t q v ht).1 hc

/-- The third statement closes the ring: together the statements are `add_process`. -/
theorem Inserting.tail {s : Sched} {l : List (BitVec 64)} {p tmp : BitVec 64} (h : Inserting s l)
    (hs : s.here = .stored p tmp) :
    Inserting { s.setHere .outside with
      machine := addProcessTail s.machine p tmp
      added := p :: s.added } (p :: l) := by
  obtain ⟨-, hnext⟩ := h.stored _ p tmp hs
  obtain ⟨-, hp, hpfresh⟩ := h.adding _ p (congrArg Stage.process hs)
  have hpcur : p ≠ s.machine.currentTask := fun e => hp.notMem (e ▸ h.current_mem)
  have hset := Sched.settled_of_stored hs
  have hclosed : addProcess s.settled p = addProcessTail s.machine p tmp := by
    rw [hset, ← hnext]
    simp only [addProcess, addProcessTail, Machine.setTask, Machine.next, Function.update_self,
      Function.update_idem, Function.update_eq_self]
  have htask : ∀ q, q ≠ p → (addProcessTail s.machine p tmp).tasks q = s.machine.tasks q :=
    fun q hq => Function.update_of_ne hq _ _
  have hun : ∀ q, q ≠ p → Unlinked s.machine s.added q →
      Unlinked (addProcessTail s.machine p tmp) (p :: s.added) q := fun q hqp hq =>
    hq.congr (fun hm => (List.mem_cons.mp hm).elim hqp hq.notMem) hq.block
      (congrArg Tcb.status (htask q hqp)) (congrArg Tcb.timeSlice (htask q hqp))
  have hpsettled : Unlinked s.settled s.added p :=
    hp.congr hp.notMem (hset ▸ hp.block) (by simp [hset, Machine.setTask, hpcur])
      (by simp [hset, Machine.setTask, hpcur])
  have hother : ∀ t q, t ≠ s.machine.currentTask → (s.stage t).process = some q → q ≠ p := by
    rintro t q hc ht rfl
    exact hc (h.apart t _ q ht (congrArg Stage.process hs))
  refine {
    linked := ?_
    fresh := fun q hq => hun q (fun e => hpfresh (e ▸ hq)) (h.fresh q hq)
    nodup := h.nodup
    adding := fun t q ht => ?_
    apart := fun t t' q ht ht' => ?_
    loaded := fun t q v ht => ?_
    stored := fun t q v ht => ?_ }
  · refine (Sched.linked_settled ?_).mpr (hclosed ▸ h.linked.add hpsettled)
    exact Sched.not_between_of_here (s.setHere_here .outside) fun _ _ h => Stage.noConfusion h
  all_goals
    simp only [Sched.setHere, Function.update_apply] at ht
    by_cases hc : t = s.machine.currentTask
    · rw [if_pos hc] at ht
      cases ht
    rw [if_neg hc] at ht
  · obtain ⟨hadd, hq, hfresh⟩ := h.adding t q ht
    exact ⟨List.mem_cons_of_mem _ hadd, hun q (hother t q hc ht) hq, hfresh⟩
  · simp only [Sched.setHere, Function.update_apply] at ht'
    by_cases hc' : t' = s.machine.currentTask
    · rw [if_pos hc'] at ht'
      cases ht'
    · rw [if_neg hc'] at ht'
      exact h.apart t t' q ht ht'
  · have hadd := (h.adding t q (congrArg Stage.process ht)).1
    have htp : t ≠ p := fun e => hp.notMem (e ▸ hadd)
    exact (congrArg Tcb.next (htask t htp)).trans (h.loaded t q v ht)
  · exact absurd (h.stored t q v ht).1 hc

/-- The tasks form a ring, once settled. -/
def Sched.Inserting (s : Sched) : Prop := ∃ l, Proc.Inserting s l

/-- **One step keeps the ring**, unless it is a timer interrupt inside the window. -/
theorem Sched.Inserting.step {s s' : Sched} {e : InsertEvent} (h : s.Inserting)
    (he : AtTick (fun s => ¬ s.Between) ⟨s, e, s'⟩) (hs : InsertStep s e s') : s'.Inserting := by
  obtain ⟨l, h⟩ := h
  cases hs with
  | create hout hc => exact ⟨l, h.create hout hc⟩
  | load hout hp => exact ⟨l, h.load hout hp⟩
  | head hload => exact ⟨l, h.head hload⟩
  | tail hstore => exact ⟨_, h.tail hstore⟩
  | tick ht => exact h.tick (he _ rfl) ht
  | work hw => exact ⟨l, h.work hw⟩

/-- The scheduler right after `init_multitasking`. -/
def Sched.boot (m : Machine) : Sched where
  machine := m
  added := [m.currentTask]
  fresh := []
  stage _ := .outside

theorem inserting_boot {m₀ m : Machine} (hheap : BootHeap m₀.heap)
    (hi : initMultitasking m₀ = some m) : (Sched.boot m).Inserting := by
  refine ⟨[], {
    linked := (Sched.linked_settled (s := Sched.boot m) ?_).mpr (linked_boot hheap hi)
    fresh := fun p hp => absurd hp List.not_mem_nil
    nodup := List.nodup_nil
    adding := fun t p ht => nomatch ht
    apart := fun t t' p ht => nomatch ht
    loaded := fun t p tmp ht => nomatch ht
    stored := fun t p tmp ht => nomatch ht }⟩
  exact Sched.not_between_of_here rfl fun _ _ h => Stage.noConfusion h

/-- **Insertion under preemption.**  In a run from `init_multitasking`, the ring is one cycle of
linked tasks at every entry of `timer_irq_handler` just where no timer interrupt is taken between
the two stores of an `add_process`. -/
theorem insert_one_cycle_iff {m₀ m : Machine} {ts : List (Taken Sched InsertEvent)} {s : Sched}
    (hheap : BootHeap m₀.heap) (hi : initMultitasking m₀ = some m)
    (hrun : Run (Recorded InsertStep) (Sched.boot m) ts s) :
    (∀ t ∈ ts, AtTick OneCycle t) ↔ ∀ t ∈ ts, AtTick (fun s => ¬ s.Between) t := by
  refine hrun.forall_iff (fun h hq hs => h.step hq hs) (fun h _ => ?_) (inserting_boot hheap hi)
  obtain ⟨l, h⟩ := h
  refine forall_congr' fun ret => imp_congr_right fun _ => ⟨fun hc hb => ?_, fun hb => ?_⟩
  · exact h.not_oneCycle hb hc
  · exact h.oneCycle hb

/-- A tick while the slice of `current_task` is not over. -/
theorem timerIrqHandler_slice {m : Machine} (ret : BitVec 64)
    (h : (m.tasks m.currentTask).timeSlice ≠ 0) : ∃ m', timerIrqHandler ret m = some m' :=
  ⟨_, if_neg h⟩

/-- A timer interrupt behind the first statement is harmless. -/
theorem insert_one_cycle_loaded : ∃ (m : Machine) (ts : List (Taken Sched InsertEvent))
    (s : Sched), Run (Recorded InsertStep) (Sched.boot m) ts s ∧
    (∃ t ∈ ts, ∃ ret, t.event = .tick ret) ∧ ∀ t ∈ ts, AtTick OneCycle t := by
  obtain ⟨m, m', hi, hcur, hslice, hc⟩ := bootMachine_created
  let p : BitVec 64 := 0xffff800001000100
  let s₁ : Sched := { Sched.boot m with machine := m', fresh := [p] }
  let s₂ : Sched := { s₁.setHere (.loaded p (addProcessTmp m')) with fresh := [p].erase p }
  have hcr := createProcess_created hc
  have hne : m.currentTask ≠ p := by rw [hcur]; decide
  have hz : (m'.tasks m'.currentTask).timeSlice ≠ 0 := by
    rw [hcr.currentTask, hcr.tasks _ hne, hslice]; decide
  obtain ⟨m'', ht⟩ := timerIrqHandler_slice 0 hz
  have hload : InsertStep s₁ (.load p) s₂ := .load rfl List.mem_cons_self
  let s₃ : Sched := { s₂ with machine := m'' }
  have hrun : Run (Recorded InsertStep) (Sched.boot m)
      [⟨Sched.boot m, .create 0x400, s₁⟩, ⟨s₁, .load p, s₂⟩, ⟨s₂, .tick 0, s₃⟩] s₃ :=
    .cons (recorded (.create rfl hc)) (.cons (recorded hload) (.one (recorded (.tick ht))))
  refine ⟨m, _, _, hrun, ⟨⟨s₂, .tick 0, s₃⟩, by simp, 0, rfl⟩, ?_⟩
  refine (insert_one_cycle_iff bootHeap_bootMachine hi hrun).mpr fun t hmem ret he => ?_
  have hout : ¬ s₂.Between := Sched.not_between_of_here
    (s₁.setHere_here (.loaded p (addProcessTmp m'))) fun _ _ h => Stage.noConfusion h
  simp only [List.mem_cons, List.not_mem_nil, or_false] at hmem
  rcases hmem with rfl | rfl | rfl
  · cases he
  · cases he
  · exact hout

/-- A timer interrupt between the two stores meets an open ring. -/
theorem insert_open_between : ¬ ∀ (m₀ m : Machine) (ts : List (Taken Sched InsertEvent)) (s : Sched),
    BootHeap m₀.heap → initMultitasking m₀ = some m →
    Run (Recorded InsertStep) (Sched.boot m) ts s → ∀ t ∈ ts, AtTick OneCycle t := by
  intro hall
  obtain ⟨m, m', hi, hcur, hslice, hc⟩ := bootMachine_created
  let p : BitVec 64 := 0xffff800001000100
  let s₁ : Sched := { Sched.boot m with machine := m', fresh := [p] }
  let s₂ : Sched := { s₁.setHere (.loaded p (addProcessTmp m')) with fresh := [p].erase p }
  let s₃ : Sched := { s₂.setHere (.stored p (addProcessTmp m')) with
    machine := addProcessHead m' p }
  have hcr := createProcess_created hc
  have hne : m.currentTask ≠ p := by rw [hcur]; decide
  have hz : (m'.tasks m'.currentTask).timeSlice ≠ 0 := by
    rw [hcr.currentTask, hcr.tasks _ hne, hslice]; decide
  have hz' : ((addProcessHead m' p).tasks m'.currentTask).timeSlice ≠ 0 := by
    simpa [addProcessHead, Machine.setTask] using hz
  obtain ⟨m'', ht⟩ := timerIrqHandler_slice 0 hz'
  have hcreate : InsertStep (Sched.boot m) (.create 0x400) s₁ := .create rfl hc
  have hload : InsertStep s₁ (.load p) s₂ := .load rfl List.mem_cons_self
  have hhead : InsertStep s₂ .head s₃ := .head (s₁.setHere_here (.loaded p (addProcessTmp m')))
  let s₄ : Sched := { s₃ with machine := m'' }
  have hrun : Run (Recorded InsertStep) (Sched.boot m)
      [⟨Sched.boot m, .create 0x400, s₁⟩, ⟨s₁, .load p, s₂⟩, ⟨s₂, .head, s₃⟩,
        ⟨s₃, .tick 0, s₄⟩] s₄ :=
    .cons (recorded hcreate) (.cons (recorded hload) (.cons (recorded hhead)
      (.one (recorded (.tick ht)))))
  have hcycle : OneCycle s₃ := hall bootMachine m _ _ bootHeap_bootMachine hi hrun
    ⟨s₃, .tick 0, s₄⟩ (by simp) 0 rfl
  have h₁ : s₁.Inserting :=
    (inserting_boot bootHeap_bootMachine hi).step (fun _ he => by cases he) hcreate
  have h₂ : s₂.Inserting := h₁.step (fun _ he => by cases he) hload
  obtain ⟨l, h₃⟩ : s₃.Inserting := h₂.step (fun _ he => by cases he) hhead
  exact h₃.not_oneCycle ⟨p, _, s₂.setHere_here (.stored p (addProcessTmp m'))⟩ hcycle

end FrazzOS.Proc
