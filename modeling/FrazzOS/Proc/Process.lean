import FrazzOS.Klibc.Memory
import FrazzOS.Proc.Turn
import Mathlib.Data.Set.Basic

/-!
# Proc — Process

The tasks of `proc/process.c`: `init_multitasking` makes the boot task, `create_process` a task
with a stack to start from, and `add_process` links it in behind `current_task`.

`createProcess_built`: what `create_process` leaves (`Built`), which is a context saved with all
registers zero and `main` to return to (`Built.saved`).
-/

namespace FrazzOS.Proc
open Memory Heap Bitmap
open Klibc (setBytes setBytes_apply)

/-- `KERNEL_STACK_SIZE`. -/
def kernelStackSize : BitVec 64 := 0x1000

/-- `sizeof(tcb_t)`. -/
def sizeofTcb : BitVec 64 := 32

/-- `process_init_info`. -/
def processInitInfo (m : Machine) (newProc main : BitVec 64) : Machine :=
  let proc := m.tasks newProc
  { m with mem := write m.mem proc.kernelTop main }.setTask newProc
    { proc with
      kernelTop := proc.kernelTop - 120
      cr3 := (m.tasks m.currentTask).cr3
      status := .ready
      timeSlice := quantum }

/-- `process_init_stack`, with its result; `none` when `malloc` does not return. -/
def processInitStack (m : Machine) (newProc : BitVec 64) : Option (Int × Machine) :=
  match malloc m.heap kernelStackSize with
  | none => none
  | some (ptr, heap) =>
      let m := { m with heap := heap }.setTask newProc { m.tasks newProc with kernelTop := ptr }
      if ptr = enomemPtr then some (enomem, m)
      else some (0, { m with mem := setBytes m.mem ptr 0 kernelStackSize }.setTask newProc
        { m.tasks newProc with kernelTop := ptr + kernelStackSize })

/-- `create_process`, with its result; `none` when it does not return, as in the panic loop. -/
def createProcess (m : Machine) (main : BitVec 64) : Option (BitVec 64 × Machine) :=
  match malloc m.heap sizeofTcb with
  | none => none
  | some (newProc, heap) =>
      match processInitStack { m with heap := heap } newProc with
      | none => none
      | some (r, m) => if r < 0 then none else some (newProc, processInitInfo m newProc main)

/-- `init_multitasking`; `none` when it does not return. -/
def initMultitasking (m : Machine) : Option Machine :=
  match malloc m.heap sizeofTcb with
  | none => none
  | some (currentTask, heap) =>
      if currentTask = enomemPtr then none
      else some ({ m with heap := heap, currentTask := currentTask }.setTask currentTask
        { kernelTop := m.rsp
          cr3 := m.cr3
          next := currentTask
          status := .running
          timeSlice := quantum })

/-- `add_process`. -/
def addProcess (m : Machine) (process : BitVec 64) : Machine :=
  let tmp := (m.tasks m.currentTask).next
  let m := m.setTask m.currentTask { m.tasks m.currentTask with next := process }
  m.setTask process { m.tasks process with next := tmp }

/-! ### What `create_process` leaves -/

/-- The bytes of a stack that `create_process` made: those of its `malloc`, and the word above them,
which holds `main`. -/
def stackBytes (base : BitVec 64) : Set (BitVec 64) :=
  {x | (x - base).toNat < kernelStackSize.toNat + 8}

/-- A task as `create_process(main)` leaves it, with its stack at `base`. -/
structure Built (m : Machine) (t base main : BitVec 64) : Prop where
  kernelTop : (m.tasks t).kernelTop = base + kernelStackSize - 120
  zero : ∀ x, (x - base).toNat < kernelStackSize.toNat → m.mem x = 0
  main : read m.mem (base + kernelStackSize) = main
  status : (m.tasks t).status = .ready
  timeSlice : (m.tasks t).timeSlice = quantum

/-- A task that is entered at `main` with all registers zero. -/
def entryContext (base main : BitVec 64) : Context where
  regs _ := 0
  rsp := base + kernelStackSize + 8
  rip := main

/-- **The initial frame** of a task made by `create_process`. -/
theorem Built.saved {m : Machine} {t base main : BitVec 64} (h : Built m t base main) :
    Saved m.mem (m.tasks t).kernelTop (entryContext base main) := by
  have htop : (m.tasks t).kernelTop + 120 = base + kernelStackSize := by
    rw [h.kernelTop, BitVec.sub_add_cancel]
  have hz : ∀ x, (x - (m.tasks t).kernelTop).toNat < 8 * 15 → m.mem x = 0 := by
    intro x hx
    have he : x - base = x - (m.tasks t).kernelTop + 3976 := by
      rw [h.kernelTop, kernelStackSize]; bv_omega
    refine h.zero x ?_
    rw [he, kernelStackSize]
    bv_omega
  have hmain : Holds m.mem ((m.tasks t).kernelTop + BitVec.ofNat 64 (8 * 15)) [main] :=
    ⟨(congrArg (read m.mem) htop).trans h.main, trivial⟩
  refine ⟨Holds.zeros (by decide) hz hmain, ?_⟩
  show base + kernelStackSize + 8 = (m.tasks t).kernelTop + 128
  rw [← htop, BitVec.add_assoc]
  rfl

/-- All that a call of `create_process` that returns does. -/
structure Created (m : Machine) (main t : BitVec 64) (m' : Machine) : Prop where
  heap : ∃ h base, malloc m.heap sizeofTcb = some (t, h) ∧
    malloc h kernelStackSize = some (base, m'.heap) ∧ base ≠ enomemPtr ∧ Built m' t base main ∧
    ∀ x, x ∉ stackBytes base → m'.mem x = m.mem x
  tasks : ∀ p, p ≠ t → m'.tasks p = m.tasks p
  cr3 : (m'.tasks t).cr3 = (m.tasks m.currentTask).cr3
  currentTask : m'.currentTask = m.currentTask

theorem sub_add_kernelStackSize (x base : BitVec 64) :
    x - (base + kernelStackSize) = x - base - 4096 := by
  rw [BitVec.sub_sub]; rfl

/-- The new stack is zero below `main`. -/
theorem write_setBytes_zero {m : Mem} {base main x : BitVec 64}
    (hx : (x - base).toNat < kernelStackSize.toNat) :
    write (setBytes m base 0 kernelStackSize) (base + kernelStackSize) main x = 0 := by
  rw [write_of_le]
  · rw [setBytes_apply, if_pos hx]
    rfl
  · rw [sub_add_kernelStackSize]
    rw [kernelStackSize] at hx
    bv_omega

/-- Memory outside the new stack. -/
theorem write_setBytes_of_notMem {m : Mem} {base main x : BitVec 64} (hx : x ∉ stackBytes base) :
    write (setBytes m base 0 kernelStackSize) (base + kernelStackSize) main x = m x := by
  have hlen : kernelStackSize.toNat = 4096 := rfl
  have hx : 4096 + 8 ≤ (x - base).toNat := Nat.le_of_not_lt hx
  rw [write_of_le]
  · rw [setBytes_apply]
    exact if_neg (by omega)
  · rw [sub_add_kernelStackSize]
    bv_omega

theorem createProcess_created {m m' : Machine} {main t : BitVec 64}
    (h : createProcess m main = some (t, m')) : Created m main t m' := by
  rw [createProcess] at h
  cases hm : malloc m.heap sizeofTcb with
  | none => rw [hm] at h; cases h
  | some r =>
      obtain ⟨newProc, heap⟩ := r
      rw [hm] at h
      simp only [processInitStack] at h
      cases hm' : malloc heap kernelStackSize with
      | none => rw [hm'] at h; cases h
      | some r =>
          obtain ⟨base, heap'⟩ := r
          rw [hm'] at h
          simp only at h
          by_cases he : base = enomemPtr
          · rw [if_pos he] at h
            cases h
          · rw [if_neg he] at h
            cases h
            have hcr3 : ∀ v, (Function.update m.tasks t { m.tasks t with kernelTop := v }
                m.currentTask).cr3 = (m.tasks m.currentTask).cr3 := by
              intro v
              by_cases hcur : m.currentTask = t
              · rw [hcur, Function.update_self]
              · rw [Function.update_of_ne hcur]
            exact {
              heap := ⟨heap, base, hm, hm', he, {
                kernelTop := by simp [processInitInfo, Machine.setTask]
                zero := fun x hx => by
                  simpa [processInitInfo, Machine.setTask] using write_setBytes_zero hx
                main := by simp [processInitInfo, Machine.setTask]
                status := by simp [processInitInfo, Machine.setTask]
                timeSlice := by simp [processInitInfo, Machine.setTask] },
                fun x hx => by simpa [processInitInfo, Machine.setTask] using write_setBytes_of_notMem hx⟩
              tasks := fun p hp => by simp [processInitInfo, Machine.setTask, hp]
              cr3 := by simpa [processInitInfo, Machine.setTask] using hcr3 _
              currentTask := rfl }

/-! ### What `add_process` links -/

section Add

variable {m : Machine} {p : BitVec 64}

/-- The links after `add_process`. -/
theorem addProcess_next (hne : p ≠ m.currentTask) (q : BitVec 64) :
    (addProcess m p).next q =
      if q = m.currentTask then p else if q = p then m.nextTask else m.next q := by
  by_cases hq : q = m.currentTask
  · subst hq
    simp [addProcess, Machine.next, Machine.setTask, hne.symm]
  · by_cases hqp : q = p
    · subst hqp
      simp [addProcess, Machine.next, Machine.nextTask, Machine.setTask, hne]
    · simp [addProcess, Machine.next, Machine.setTask, hq, hqp]

/-- `add_process` writes links only. -/
theorem addProcess_rest (q : BitVec 64) :
    ((addProcess m p).tasks q).status = (m.tasks q).status ∧
      ((addProcess m p).tasks q).timeSlice = (m.tasks q).timeSlice ∧
      ((addProcess m p).tasks q).cr3 = (m.tasks q).cr3 ∧
      ((addProcess m p).tasks q).kernelTop = (m.tasks q).kernelTop := by
  by_cases hq : q = m.currentTask
  · subst hq
    by_cases hp : m.currentTask = p
    · simp [addProcess, Machine.setTask, ← hp]
    · simp [addProcess, Machine.setTask, hp]
  · by_cases hqp : q = p
    · subst hqp
      simp [addProcess, Machine.setTask, hq]
    · simp [addProcess, Machine.setTask, hq, hqp]

end Add

/-- A task created leaves the ring as it is. -/
theorem ReadyRing.created {m m' : Machine} {l : List (BitVec 64)} {main p : BitVec 64}
    (h : ReadyRing m l) (hc : Created m main p m') (hp : p ∉ m.currentTask :: l) :
    ReadyRing m' l := by
  have hsame : ∀ t ∈ m.currentTask :: l, m'.tasks t = m.tasks t := by
    intro t ht
    refine hc.tasks t ?_
    rintro rfl
    exact hp ht
  exact h.congr hc.currentTask (fun t ht => congrArg Tcb.next (hsame t ht))
    fun t ht => congrArg Tcb.status (hsame t ht)

/-- **A ready task added** comes next in the ring. -/
theorem ReadyRing.add {m : Machine} {l : List (BitVec 64)} {p : BitVec 64} (h : ReadyRing m l)
    (hp : p ∉ m.currentTask :: l) (h₀ : p ≠ 0) (hr : (m.tasks p).status = .ready) :
    ReadyRing (addProcess m p) (p :: l) := by
  have hcur : (addProcess m p).currentTask = m.currentTask := rfl
  have hpcur : p ≠ m.currentTask := fun e => hp (e ▸ List.mem_cons_self)
  have hready : ∀ t ∈ p :: l, ((addProcess m p).tasks t).status = .ready := by
    intro t ht
    rw [(addProcess_rest t).1]
    rcases List.mem_cons.mp ht with rfl | ht
    · exact hr
    · exact h.ready t ht
  exact {
    ring := by
      rw [hcur]
      refine h.ring.insert (List.nodup_cons.mp h.nodup).1
        (fun hl => hp (List.mem_cons_of_mem _ hl)) ?_ ?_ ?_
      · rw [addProcess_next hpcur, if_pos rfl]
      · rw [addProcess_next hpcur, if_neg hpcur, if_pos rfl]
        rfl
      · intro x hx hxp
        rw [addProcess_next hpcur, if_neg hx, if_neg hxp]
    nodup := by
      rw [hcur]
      exact ((List.Perm.swap p m.currentTask l).nodup_iff).mpr (List.nodup_cons.mpr ⟨hp, h.nodup⟩)
    nonnull := by
      rw [hcur]
      intro t ht
      rcases List.mem_cons.mp ht with rfl | ht
      · exact h.nonnull _ List.mem_cons_self
      · rcases List.mem_cons.mp ht with rfl | ht
        · exact h₀
        · exact h.nonnull t (List.mem_cons_of_mem _ ht)
    running := by
      rw [hcur, (addProcess_rest _).1]
      exact h.running
    others := fun t ht => by
      rw [hready t ht]; decide
    ready := hready }

end FrazzOS.Proc
