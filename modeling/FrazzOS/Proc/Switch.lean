import FrazzOS.Heap.Malloc
import FrazzOS.Support.Stack

/-!
# Proc — Switch

The task control blocks of `proc/process.h`, the machine, and `switch_to_task_asm` of
`proc/switch.asm`, instruction by instruction.

* The control blocks are an object of each `tcb_t` pointer (`Machine.tasks`), read and written
  through the byte offsets of their fields; the stacks are bytes of memory.
* `Switched`: all that a switch does, proved of the code by `switchToTaskAsm_switched`.  It leaves
  the caller's context saved (`Saved`), and takes up any context that the next task's stack holds.
-/

namespace FrazzOS.Proc
open Memory Heap

/-- `enum TASK_STATUS`. -/
inductive TaskStatus where
  | ready | waiting | running
  deriving DecidableEq

/-- `tcb_t`. -/
structure Tcb where
  kernelTop : BitVec 64
  cr3 : BitVec 64
  next : BitVec 64
  status : TaskStatus
  timeSlice : Int

/-- The 64-bit field at a byte offset. -/
def Tcb.word (t : Tcb) : Nat → Option (BitVec 64)
  | 0 => some t.kernelTop
  | 8 => some t.cr3
  | 16 => some t.next
  | _ => none

/-- A write of the 64-bit field at a byte offset. -/
def Tcb.setWord (t : Tcb) (v : BitVec 64) : Nat → Option Tcb
  | 0 => some { t with kernelTop := v }
  | 8 => some { t with cr3 := v }
  | 16 => some { t with next := v }
  | _ => none

/-- The general registers but `rsp`. -/
inductive Reg where
  | rax | rbx | rcx | rdx | rdi | rsi | r8 | r9 | r10 | r11 | r12 | r13 | r14 | r15 | rbp
  deriving DecidableEq

/-- The machine, with the globals `current_task` and `heap`. -/
structure Machine where
  regs : Reg → BitVec 64
  rsp : BitVec 64
  rip : BitVec 64
  cr3 : BitVec 64
  zf : Bool
  mem : Mem
  tasks : BitVec 64 → Tcb
  currentTask : BitVec 64
  heap : HeapState

/-- The labels of `switch.asm`. -/
inductive Label where
  | virtNoChange
  deriving DecidableEq

/-- The instructions of `switch.asm`; a memory operand is a `tcb_t` pointer with the offset of a
field, or `current_task`. -/
inductive Instr where
  | push (r : Reg)
  | pop (r : Reg)
  | load (dst base : Reg) (offset : Nat)
  | loadRsp (base : Reg) (offset : Nat)
  | storeRsp (base : Reg) (offset : Nat)
  | storeCurrentTask (src : Reg)
  | loadCr3 (dst : Reg)
  | storeCr3 (src : Reg)
  | cmp (a b : Reg)
  | je (l : Label)
  | label (l : Label)
  | ret
  deriving DecidableEq

/-- A register written. -/
def Machine.setReg (m : Machine) (r : Reg) (v : BitVec 64) : Machine :=
  { m with regs := Function.update m.regs r v }

/-- A control block written. -/
def Machine.setTask (m : Machine) (p : BitVec 64) (t : Tcb) : Machine :=
  { m with tasks := Function.update m.tasks p t }

/-- A word pushed. -/
def Machine.pushWord (m : Machine) (v : BitVec 64) : Machine :=
  { m with rsp := m.rsp - 8, mem := write m.mem (m.rsp - 8) v }

/-- A register popped. -/
def Machine.popReg (m : Machine) (r : Reg) : Machine :=
  { m.setReg r (read m.mem m.rsp) with rsp := m.rsp + 8 }

/-- One instruction; `none` at a field that is not there.  Jumps are taken by `run`. -/
def exec (m : Machine) : Instr → Option Machine
  | .push r => some (m.pushWord (m.regs r))
  | .pop r => some (m.popReg r)
  | .load dst base offset => ((m.tasks (m.regs base)).word offset).map (m.setReg dst)
  | .loadRsp base offset => ((m.tasks (m.regs base)).word offset).map fun v => { m with rsp := v }
  | .storeRsp base offset =>
      ((m.tasks (m.regs base)).setWord m.rsp offset).map (m.setTask (m.regs base))
  | .storeCurrentTask src => some { m with currentTask := m.regs src }
  | .loadCr3 dst => some (m.setReg dst m.cr3)
  | .storeCr3 src => some { m with cr3 := m.regs src }
  | .cmp a b => some { m with zf := m.regs a == m.regs b }
  | .je _ => some m
  | .label _ => some m
  | .ret => some { m with rip := read m.mem m.rsp, rsp := m.rsp + 8 }

/-- A procedure up to its `ret`; the label is one that a jump taken is looking for. -/
def run : Option Label → List Instr → Machine → Option Machine
  | _, [], _ => none
  | some l, i :: code, m => run (if i = .label l then none else some l) code m
  | none, .je l :: code, m => run (if m.zf then some l else none) code m
  | none, .ret :: _, m => exec m .ret
  | none, i :: code, m => (exec m i).bind (run none code)

/-- The body of `switch_to_task_asm`. -/
def switchCode : List Instr :=
  [ -- save registers
    .push .rax, .push .rbx, .push .rcx, .push .rdx, .push .rdi, .push .rsi, .push .r8, .push .r9,
    .push .r10, .push .r11, .push .r12, .push .r13, .push .r14, .push .r15, .push .rbp,
    -- update `current_task`
    .load .rax .rsi 16,
    .storeCurrentTask .rax,
    -- save `rsp` to the control block of the task that called
    .storeRsp .rsi 0,
    -- set up the new task
    .loadRsp .rdi 0,
    .load .rax .rdi 8,
    .loadCr3 .rcx,
    .cmp .rax .rcx,
    .je .virtNoChange,
    .storeCr3 .rax,
    .label .virtNoChange,
    -- restore registers
    .pop .rbp, .pop .r15, .pop .r14, .pop .r13, .pop .r12, .pop .r11, .pop .r10, .pop .r9,
    .pop .r8, .pop .rsi, .pop .rdi, .pop .rdx, .pop .rcx, .pop .rbx, .pop .rax,
    .ret ]

/-- The registers at the call `switch_to_task_asm(next, cur)`. -/
def callRegs (m : Machine) (next cur : BitVec 64) : Reg → BitVec 64 :=
  Function.update (Function.update m.regs .rdi next) .rsi cur

/-- The call `switch_to_task_asm(next, cur)` with return address `ret`. -/
def switchToTaskAsm (ret next cur : BitVec 64) (m : Machine) : Option Machine :=
  run none switchCode ({ m with regs := callRegs m next cur }.pushWord ret)

/-! ### Contexts -/

/-- What a task is resumed with. -/
structure Context where
  regs : Reg → BitVec 64
  rsp : BitVec 64
  rip : BitVec 64

/-- The order in which the registers are restored. -/
def popOrder : List Reg :=
  [.rbp, .r15, .r14, .r13, .r12, .r11, .r10, .r9, .r8, .rsi, .rdi, .rdx, .rcx, .rbx, .rax]

/-- The words of a context, from `kernel_top` upwards. -/
def Context.words (c : Context) : List (BitVec 64) := popOrder.map c.regs ++ [c.rip]

/-- The context lies on the stack at `top`. -/
def Saved (mem : Mem) (top : BitVec 64) (c : Context) : Prop :=
  Holds mem top c.words ∧ c.rsp = top + 128

/-- The machine runs in the context. -/
def Resumed (m : Machine) (c : Context) : Prop :=
  m.regs = c.regs ∧ m.rsp = c.rsp ∧ m.rip = c.rip

/-- The bytes of a saved context. -/
def frame (top : BitVec 64) : Set (BitVec 64) := {x | (x - top).toNat < 128}

/-- All that `switch_to_task_asm(next, cur)` does. -/
structure Switched (ret next cur : BitVec 64) (m m' : Machine) : Prop where
  currentTask : m'.currentTask = (m.tasks cur).next
  tasks : m'.tasks =
    Function.update m.tasks cur { m.tasks cur with kernelTop := m.rsp - 128 }
  heap : m'.heap = m.heap
  saved : Saved m'.mem (m.rsp - 128) ⟨callRegs m next cur, m.rsp, ret⟩
  mem : ∀ x, x ∉ frame (m.rsp - 128) → m'.mem x = m.mem x
  rsp : m'.rsp = (m'.tasks next).kernelTop + 128
  cr3 : m'.cr3 = (m'.tasks next).cr3
  resumed : ∀ c, Saved m'.mem (m'.tasks next).kernelTop c → Resumed m' c

/-! ### What the code does -/

/-- The order in which the registers are saved. -/
def pushOrder : List Reg :=
  [.rax, .rbx, .rcx, .rdx, .rdi, .rsi, .r8, .r9, .r10, .r11, .r12, .r13, .r14, .r15, .rbp]

theorem mem_popOrder (r : Reg) : r ∈ popOrder := by cases r <;> decide

theorem run_cons_push (r : Reg) (code : List Instr) (m : Machine) :
    run none (.push r :: code) m = run none code (m.pushWord (m.regs r)) := rfl

theorem run_cons_pop (r : Reg) (code : List Instr) (m : Machine) :
    run none (.pop r :: code) m = run none code (m.popReg r) := rfl

theorem run_push (rs : List Reg) (code : List Instr) : ∀ m : Machine,
    run none (rs.map .push ++ code) m =
      run none code { m with
        rsp := m.rsp - BitVec.ofNat 64 (8 * rs.length)
        mem := pushWords m.mem m.rsp (rs.map m.regs) } := by
  induction rs with
  | nil => intro m; simp [pushWords]
  | cons r rs ih =>
      intro m
      have hsp : m.rsp - 8 - BitVec.ofNat 64 (8 * rs.length) =
          m.rsp - BitVec.ofNat 64 (8 * (rs.length + 1)) := by
        rw [BitVec.sub_sub, Nat.mul_succ, Nat.add_comm, BitVec.ofNat_add]; rfl
      rw [List.map_cons, List.cons_append, run_cons_push, ih, List.length_cons, List.map_cons,
        pushWords, ← hsp]
      rfl

/-- Popping the words on the stack into registers. -/
theorem run_pop {f : Reg → BitVec 64} {ws : List (BitVec 64)} (rs : List Reg)
    (code : List Instr) : ∀ m : Machine, Holds m.mem m.rsp (rs.map f ++ ws) →
    run none (rs.map .pop ++ code) m =
        run none code { m with
          rsp := m.rsp + BitVec.ofNat 64 (8 * rs.length)
          regs := fun r => if r ∈ rs then f r else m.regs r } ∧
      Holds m.mem (m.rsp + BitVec.ofNat 64 (8 * rs.length)) ws := by
  induction rs with
  | nil => intro m h; simpa using h
  | cons r rs ih =>
      intro m h
      have hsp : m.rsp + 8 + BitVec.ofNat 64 (8 * rs.length) =
          m.rsp + BitVec.ofNat 64 (8 * (rs.length + 1)) := by
        rw [BitVec.add_assoc, Nat.mul_succ, Nat.add_comm (8 * rs.length), BitVec.ofNat_add]; rfl
      obtain ⟨h₀, h₁⟩ := ih (m.popReg r) h.2
      refine ⟨?_, hsp ▸ h₁⟩
      rw [List.map_cons, List.cons_append, run_cons_pop, h₀]
      congr 1
      simp only [Machine.popReg, Machine.setReg, List.length_cons, hsp, h.1]
      congr 1
      funext r'
      by_cases hr' : r' ∈ rs
      · simp [hr']
      · by_cases he : r' = r
        · simp [he]
        · simp [hr', he]

/-- The code between saving and restoring. -/
def swapCode : List Instr :=
  [.load .rax .rsi 16, .storeCurrentTask .rax, .storeRsp .rsi 0, .loadRsp .rdi 0, .load .rax .rdi 8,
    .loadCr3 .rcx, .cmp .rax .rcx, .je .virtNoChange, .storeCr3 .rax, .label .virtNoChange]

theorem switchCode_eq :
    switchCode = pushOrder.map .push ++ (swapCode ++ (popOrder.map .pop ++ [.ret])) := rfl

/-- The code between saving and restoring; `cr3` is the next task's whether or not the jump is
taken. -/
theorem run_swap (code : List Instr) (m : Machine) :
    ∃ m' : Machine, run none (swapCode ++ code) m = run none code m' ∧
      m'.mem = m.mem ∧ m'.heap = m.heap ∧ m'.currentTask = (m.tasks (m.regs .rsi)).next ∧
      m'.tasks = Function.update m.tasks (m.regs .rsi)
        { m.tasks (m.regs .rsi) with kernelTop := m.rsp } ∧
      m'.rsp = (m'.tasks (m.regs .rdi)).kernelTop ∧ m'.cr3 = (m'.tasks (m.regs .rdi)).cr3 := by
  -- the machine before the jump
  let m₁ : Machine := { m with
    currentTask := (m.tasks (m.regs .rsi)).next
    tasks := Function.update m.tasks (m.regs .rsi)
        { m.tasks (m.regs .rsi) with kernelTop := m.rsp } }
  let next := m₁.tasks (m.regs .rdi)
  let m₂ : Machine := { m₁ with
    rsp := next.kernelTop
    regs := Function.update (Function.update (Function.update m.regs .rax m₁.currentTask) .rax
      next.cr3) .rcx m.cr3
    zf := next.cr3 == m.cr3 }
  have hrun : run none (swapCode ++ code) m =
      run none (.je .virtNoChange :: .storeCr3 .rax :: .label .virtNoChange :: code) m₂ := rfl
  by_cases hz : next.cr3 = m.cr3
  · refine ⟨m₂, ?_, rfl, rfl, rfl, rfl, rfl, hz.symm⟩
    have hzf : m₂.zf = true := beq_iff_eq.mpr hz
    rw [hrun, run, if_pos hzf]
    rfl
  · refine ⟨{ m₂ with cr3 := next.cr3 }, ?_, rfl, rfl, rfl, rfl, rfl, rfl⟩
    have hzf : ¬ m₂.zf = true := fun h => hz (beq_iff_eq.mp h)
    rw [hrun, run, if_neg hzf]
    rfl

/-- The context that the words at `top` stand for. -/
def contextAt (mem : Mem) (top : BitVec 64) : Context where
  regs r := read mem (top + BitVec.ofNat 64 (8 * popOrder.idxOf r))
  rsp := top + 128
  rip := read mem (top + 120)

theorem contextAt_words (mem : Mem) (top : BitVec 64) : (contextAt mem top).words =
    (List.range 16).map fun i => read mem (top + BitVec.ofNat 64 (8 * i)) := rfl

theorem saved_contextAt (mem : Mem) (top : BitVec 64) : Saved mem top (contextAt mem top) :=
  ⟨contextAt_words mem top ▸ holds_reads mem 16 top, rfl⟩

/-- The code that restores takes up the context on the stack. -/
theorem run_restore {m : Machine} {c : Context} (h : Saved m.mem m.rsp c) :
    run none (popOrder.map .pop ++ [.ret]) m =
      some { m with regs := c.regs, rsp := c.rsp, rip := c.rip } := by
  obtain ⟨hholds, hrsp⟩ := h
  obtain ⟨hrun, hret⟩ := run_pop popOrder [.ret] m hholds
  have hregs : (fun r => if r ∈ popOrder then c.regs r else m.regs r) = c.regs := by
    funext r
    exact if_pos (mem_popOrder r)
  rw [hrun, run, exec, hregs, hret.1, hrsp, BitVec.add_assoc]
  rfl

/-- The machine after the call and the code that saves. -/
def saveAll (ret : BitVec 64) (regs : Reg → BitVec 64) (m : Machine) : Machine :=
  { m with
    regs := regs
    rsp := m.rsp - 128
    mem := pushWords m.mem m.rsp (ret :: pushOrder.map regs) }

theorem switchToTaskAsm_eq (ret next cur : BitVec 64) (m : Machine) :
    switchToTaskAsm ret next cur m =
      run none (swapCode ++ (popOrder.map .pop ++ [.ret]))
        (saveAll ret (callRegs m next cur) m) := by
  have hrsp : m.rsp - 8 - BitVec.ofNat 64 (8 * pushOrder.length) = m.rsp - 128 := by
    rw [BitVec.sub_sub]
    congr 1
  rw [switchToTaskAsm, switchCode_eq, run_push]
  simp only [Machine.pushWord, hrsp]
  rw [saveAll, pushWords]

theorem saveAll_words (ret : BitVec 64) (regs : Reg → BitVec 64) :
    (ret :: pushOrder.map regs).reverse ++ [] = popOrder.map regs ++ [ret] := rfl

/-- The context saved. -/
theorem saved_saveAll (ret : BitVec 64) (regs : Reg → BitVec 64) (m : Machine) :
    Saved (saveAll ret regs m).mem (m.rsp - 128) ⟨regs, m.rsp, ret⟩ := by
  have hlen : (ret :: pushOrder.map regs).length = 16 := rfl
  have hnil : Holds m.mem m.rsp [] := trivial
  have h := hnil.pushWords (ret :: pushOrder.map regs) (by rw [hlen]; decide)
  rw [saveAll_words, hlen] at h
  exact ⟨h, (BitVec.sub_add_cancel _ _).symm⟩

theorem saveAll_mem {ret : BitVec 64} {regs : Reg → BitVec 64} {m : Machine} {x : BitVec 64}
    (hx : x ∉ frame (m.rsp - 128)) : (saveAll ret regs m).mem x = m.mem x := by
  have hlen : (ret :: pushOrder.map regs).length = 16 := rfl
  refine pushWords_of_le (by rw [hlen]; decide) ?_
  rw [hlen]
  exact Nat.le_of_not_lt hx

/-- **The switch** saves the caller's context and takes up the next task's. -/
theorem switchToTaskAsm_switched (ret next cur : BitVec 64) (m : Machine) :
    ∃ m', switchToTaskAsm ret next cur m = some m' ∧ Switched ret next cur m m' := by
  obtain ⟨m₂, hswap, hmem, hheap, hcur, htasks, hrsp, hcr3⟩ :=
    run_swap (popOrder.map .pop ++ [.ret]) (saveAll ret (callRegs m next cur) m)
  rw [← switchToTaskAsm_eq] at hswap
  have hrun : ∀ c, Saved m₂.mem m₂.rsp c → switchToTaskAsm ret next cur m =
      some { m₂ with regs := c.regs, rsp := c.rsp, rip := c.rip } :=
    fun c hc => hswap.trans (run_restore hc)
  refine ⟨_, hrun _ (saved_contextAt m₂.mem m₂.rsp), ?_⟩
  exact {
    currentTask := hcur
    tasks := htasks
    heap := hheap
    saved := hmem ▸ saved_saveAll ret (callRegs m next cur) m
    mem := fun x hx => (congrFun hmem x).trans (saveAll_mem hx)
    rsp := congrArg (· + 128) hrsp
    cr3 := hcr3
    resumed := fun c hc => by
      rw [show (m₂.tasks next).kernelTop = m₂.rsp from hrsp.symm] at hc
      have h := (hrun _ (saved_contextAt m₂.mem m₂.rsp)).symm.trans (hrun c hc)
      injection h with h
      rw [h]
      exact ⟨rfl, rfl, rfl⟩ }

end FrazzOS.Proc
