import FrazzOS.Heap.Exclusive
import FrazzOS.Proc.Cycle
import FrazzOS.Proc.Transparent

/-!
# Proc — Booted

Multitasking on the heap of the kernel, from `init_multitasking` on: `create_process` takes control
blocks and stacks from `malloc`, which the tasks' own code calls as well, and the timer ticks.

A stack has one word more than `create_process` asks for, the one with `main`.  It still lies in the
blocks of the request: a block has 128 bytes, of which a request counts 16.

* `Housed`: what is kept of the memory of the tasks; `Housed.create` is the step that gives some.
* `tasks_apart`: the control blocks and the stacks of all tasks are disjoint.
* `tick_transparent`: a tick lets the task go on, or resumes another one where it goes on.
-/

namespace FrazzOS.Proc

open Heap Bitmap FirstFit Rings Runs Memory

/-- The bytes that pointers of `malloc` can point to, for an arena at `addr`. -/
def reach (addr : BitVec 64) : Set (BitVec 64) := {x | (x - addr).toNat < 128 * heapBlocks}

/-- A stack, and the word above it. -/
def stackSpan : BitVec 64 := 0x1008

inductive BootEvent where
  | create (main : BitVec 64)
  | tick (ret : BitVec 64)
  | malloc (size : BitVec 64)
  | work

/-- A step of a run.  The two searches of `create_process` stay inside `heap.bitmap`; a tick finds
room on the stack of `current_task`; and the tasks' own code writes no stack of another task. -/
inductive BootStep : Tracked → BootEvent → Tracked → Prop where
  | create {s : Tracked} {main p base : BitVec 64} {h₁ : HeapState} {m' : Machine} :
      createProcess s.machine main = some (p, m') →
      malloc s.machine.heap sizeofTcb = some (p, h₁) → SearchInside s.machine.heap sizeofTcb →
      SearchInside h₁ kernelStackSize →
      (m'.tasks p).kernelTop = base + kernelStackSize - 120 →
      BootStep s (.create main)
        { machine := addProcess m' p
          tasks := p :: s.tasks
          stack := Function.update s.stack p (stackBytes base)
          origin := Function.update s.origin p (.built main) }
  | tick {s : Tracked} {ret : BitVec 64} {m' : Machine} :
      frame (s.machine.rsp - 128) ⊆ s.stack s.machine.currentTask →
      timerIrqHandler ret s.machine = some m' →
      BootStep s (.tick ret)
        { s with
          machine := m'
          origin := if (s.machine.tasks s.machine.currentTask).timeSlice = 0 then
            s.calledOrigin ret m'.currentTask else s.origin }
  | malloc {s : Tracked} {size ptr : BitVec 64} {heap : HeapState} :
      malloc s.machine.heap size = some (ptr, heap) →
      BootStep s (.malloc size) { s with machine := { s.machine with heap := heap } }
  | work {s : Tracked} {m' : Machine} : OwnCode s.machine m' →
      (∀ t ∈ s.tasks, t ≠ s.machine.currentTask → ∀ x ∈ s.stack t, m'.mem x = s.machine.mem x) →
      BootStep s .work { s with machine := m' }

/-- The memory of the tasks: `given` has their control blocks and their stacks, but for the stack of
the boot task. -/
structure Housed (s : Tracked) (given : List (BitVec 64 × BitVec 64)) : Prop where
  boot : BootHeap s.machine.heap
  marked : Arena.Marked ⟨s.machine.heap, given⟩
  block : ∀ t ∈ s.tasks, (t, sizeofTcb) ∈ given
  stack : ∀ t ∈ s.tasks, Disjoint (s.stack t) (reach s.machine.heap.heapAddr) ∨
    ∃ base, (base, stackSpan) ∈ given ∧ s.stack t = stackBytes base

section Regions

variable {h h' : HeapState} {given : List (BitVec 64 × BitVec 64)} {size wide ptr : BitVec 64}
  {g g' : BitVec 64 × BitVec 64} {start : Nat}

theorem stackBytes_eq (base : BitVec 64) : stackBytes base = bytes base stackSpan := rfl

/-- What has been given stays so, whatever else is asked for. -/
theorem marked_keeps (hA : Arena.Marked ⟨h, given⟩) (hm : malloc h size = some (ptr, h')) :
    Arena.Marked ⟨h', given⟩ := by
  obtain ⟨haddr, hkeep⟩ := malloc_keeps hm
  refine ⟨fun g hg => ?_, hA.2⟩
  obtain ⟨start, hptr, hsize, hend, hused⟩ := hA.1 g hg
  exact ⟨start, hptr.trans (congrArg (· + _) haddr.symm), hsize, hend,
    fun b h₀ h₁ => hkeep b (hused b h₀ h₁)⟩

/-- **A request is given**, with as many bytes as have the same number of blocks. -/
theorem marked_grant (hA : Arena.Marked ⟨h, given⟩) (hsize : blockSize ≤ size.toNat)
    (hin : SearchInside h size) (hm : malloc h size = some (ptr, h')) (hne : ptr ≠ enomemPtr)
    (hwide : blockSize ≤ wide.toNat) (hblocks : wide.toNat / blockSize = size.toNat / blockSize) :
    Arena.Marked ⟨h', (ptr, wide) :: given⟩ := by
  obtain ⟨s, rfl, hend, hfits, haddr, hmap⟩ := malloc_inside hsize hin hm hne
  rw [← hblocks] at hend hfits hmap
  have hpos : 0 < wide.toNat / blockSize := Nat.div_pos hwide (by decide)
  refine ⟨List.forall_mem_cons.mpr ⟨?_, (marked_keeps hA hm).1⟩,
    List.pairwise_cons.mpr ⟨fun g hg => ?_, hA.2⟩⟩
  · refine ⟨s, by rw [haddr], hwide, hend, fun b h₀ h₁ => ?_⟩
    rw [hmap, testBit_setBits]
    exact Or.inl ⟨b, h₀, h₁, Shares.refl b⟩
  · obtain ⟨start, hptr, hsize', hend', hused⟩ := hA.1 g hg
    have hpos' : 0 < g.2.toNat / blockSize := Nat.div_pos hsize' (by decide)
    -- a block of both would test both used and free
    have hapart : ∀ b, s ≤ b → b < s + wide.toNat / blockSize → start ≤ b →
        ¬ b < start + g.2.toNat / blockSize := by
      intro b h₀ h₁ h₂ h₃
      have hfree : Free h.bitmap b := hfits.free_of_mem h₀ h₁
      rw [Free, hused b h₂ h₃] at hfree
      cases hfree
    rw [hptr]
    by_cases hle : s ≤ start
    · have hlt := hapart start hle
      exact bytes_disjoint hwide (by dsimp only; omega) hend'
    · have hlt := hapart s (Nat.le_refl s) (by omega) (by omega)
      exact (bytes_disjoint hsize' (by omega) hend).symm

/-- What has been given lies where pointers of `malloc` reach. -/
theorem bytes_subset_reach (hA : Arena.Marked ⟨h, given⟩) (hg : g ∈ given) :
    bytes g.1 g.2 ⊆ reach h.heapAddr := by
  obtain ⟨start, hptr, hsize, hend, -⟩ := hA.1 g hg
  have hblocks : heapBlocks = 6553600 := by decide
  have hsize : 16 ≤ g.2.toNat := hsize
  have hend : start + g.2.toNat / 16 ≤ 6553600 := hblocks ▸ hend
  intro x hx
  rw [hptr] at hx
  have hlt : (x - h.heapAddr).toNat < 128 * start + g.2.toNat :=
    ((mem_bytes_offset (by omega) (by omega)).mp hx).2
  show (x - h.heapAddr).toNat < 128 * heapBlocks
  omega

theorem mem_bytes_self (hpos : 0 < size.toNat) : ptr ∈ bytes ptr size := by
  show (ptr - ptr).toNat < size.toNat
  rwa [BitVec.sub_self]

/-- No block of the boot heap is at `ENOMEM`. -/
theorem BootHeap.ne_enomem (hb : BootHeap h) (hs : start < searchedBlocks) :
    h.heapAddr + BitVec.ofNat 64 (128 * start) ≠ enomemPtr := by
  obtain ⟨s, s', frame, words, sizes, hp, hrun⟩ := hb
  have haddr : h.heapAddr = physToHh frame := by
    rw [run_heapAddr hrun, heapInit]
  obtain ⟨i, h₀, h₁, rfl⟩ := pmmAlloc_frame hp
  have hblocks : searchedBlocks = 52428864 := by decide
  have hbase : kernelVirtBaseAddr.toNat = 18446603336221196288 := by decide
  have henomem : enomemPtr.toNat = 18446744073709551615 := by decide
  rw [haddr, physToHh]
  intro he
  have heq := congrArg BitVec.toNat he
  rw [BitVec.toNat_add, BitVec.toNat_add, BitVec.toNat_ofInt, BitVec.toNat_ofNat, hbase,
    henomem] at heq
  omega

theorem BootHeap.step (hb : BootHeap h) (hm : malloc h size = some (ptr, h')) : BootHeap h' := by
  obtain ⟨s, s', frame, words, sizes, hp, hrun⟩ := hb
  exact ⟨s, s', frame, words, sizes ++ [size], hp, hrun.append (.one ⟨ptr, hm⟩)⟩

/-- The control block of a `create_process` that returns is not `ENOMEM`, which it is not compared
with. -/
theorem Created.ne_enomem {m m' : Machine} {main p : BitVec 64} (hb : BootHeap m'.heap)
    (hcr : Created m main p m') : p ≠ enomemPtr := by
  obtain ⟨start, hlt, rfl, -⟩ := hcr.block.1
  exact hb.ne_enomem hlt

end Regions

section Steps

variable {s s' : Tracked} {l : List (BitVec 64)} {given : List (BitVec 64 × BitVec 64)}

/-- **A new task** has its own memory. -/
theorem Housed.create {main p base : BitVec 64} {h₁ : HeapState} {m' : Machine}
    (h : Housed s given) (hcr : Created s.machine main p m')
    (hm₁ : malloc s.machine.heap sizeofTcb = some (p, h₁))
    (hin : SearchInside s.machine.heap sizeofTcb) (hin' : SearchInside h₁ kernelStackSize)
    (htop : (m'.tasks p).kernelTop = base + kernelStackSize - 120) :
    p ∉ s.tasks ∧ p ≠ 0 ∧ (∀ t ∈ s.tasks, Disjoint (s.stack t) (stackBytes base)) ∧
      Housed
        { machine := addProcess m' p
          tasks := p :: s.tasks
          stack := Function.update s.stack p (stackBytes base)
          origin := Function.update s.origin p (.built main) }
        ((base, stackSpan) :: (p, sizeofTcb) :: given) := by
  obtain ⟨h₁', base', hm₁', hm₂, hbase, hbuilt, -⟩ := hcr.heap
  obtain rfl : h₁' = h₁ := congrArg Prod.snd (Option.some.inj (hm₁'.symm.trans hm₁))
  obtain rfl : base' = base := by
    have heq := hbuilt.kernelTop.symm.trans htop
    bv_omega
  have hboot : BootHeap m'.heap := (h.boot.step hm₁).step hm₂
  have hmarked₁ : Arena.Marked ⟨h₁', (p, sizeofTcb) :: given⟩ :=
    marked_grant h.marked (by decide) hin hm₁ (hcr.ne_enomem hboot) (by decide) rfl
  have hmarked : Arena.Marked ⟨m'.heap, (base', stackSpan) :: (p, sizeofTcb) :: given⟩ :=
    marked_grant hmarked₁ (by decide) hin' hm₂ hbase (by decide) (by decide)
  have haddr : m'.heap.heapAddr = s.machine.heap.heapAddr := hcr.block.2.2
  have hself : p ∈ bytes p sizeofTcb := mem_bytes_self (by decide)
  have hnew : p ∉ s.tasks := fun hp =>
    Set.disjoint_left.mp ((List.pairwise_cons.mp hmarked₁.2).1 _ (h.block p hp)) hself hself
  have hnonnull : p ≠ 0 := by
    obtain ⟨start, hlt, rfl, -⟩ := hcr.block.1
    exact hboot.addr hlt
  have hstack := (List.pairwise_cons.mp hmarked.2).1
  have hreach : stackBytes base' ⊆ reach s.machine.heap.heapAddr := by
    have hsub := bytes_subset_reach hmarked List.mem_cons_self
    rw [← haddr, stackBytes_eq]
    exact hsub
  refine ⟨hnew, hnonnull, fun t ht => ?_, hboot, hmarked, fun t ht => ?_, fun t ht => ?_⟩
  · rcases h.stack t ht with hapart | ⟨base₁, hmem, heq⟩
    · exact hapart.mono_right hreach
    · have hdisj := hstack _ (List.mem_cons_of_mem _ hmem)
      rw [heq, stackBytes_eq, stackBytes_eq]
      exact hdisj.symm
  · rcases List.mem_cons.mp ht with rfl | ht
    · exact List.mem_cons_of_mem _ List.mem_cons_self
    · exact List.mem_cons_of_mem _ (List.mem_cons_of_mem _ (h.block t ht))
  · rcases List.mem_cons.mp ht with rfl | hold
    · exact .inr ⟨base', List.mem_cons_self, Function.update_self ..⟩
    · have hne : t ≠ p := by
        rintro rfl
        exact hnew hold
      dsimp only
      rw [Function.update_of_ne hne, show (addProcess m' p).heap.heapAddr = _ from haddr]
      exact (h.stack t hold).imp_right fun ⟨base₁, hmem, heq⟩ =>
        ⟨base₁, List.mem_cons_of_mem _ (List.mem_cons_of_mem _ hmem), heq⟩

/-- A slice of `current_task` written leaves every context on its stack. -/
theorem Kept.setSlice (h : Kept s l) (v : Int) :
    Kept { s with machine := s.machine.setSlice v } l := by
  have hring : ReadyRing (s.machine.setSlice v) l := h.ring.congr rfl
    (fun t _ => (setSlice_rest s.machine v t).1) fun t _ => (setSlice_rest s.machine v t).2
  refine ⟨⟨hring, h.perm, h.disjoint⟩, fun t ht hne => ?_⟩
  dsimp only
  rw [setSlice_of_ne s.machine v t hne]
  exact h.saved t ht hne

/-- **A tick**, with its two cases. -/
theorem Kept.tick {ret : BitVec 64} (h : Kept s l)
    (hroom : frame (s.machine.rsp - 128) ⊆ s.stack s.machine.currentTask) :
    ∃ m', timerIrqHandler ret s.machine = some m' ∧ m'.heap = s.machine.heap ∧
      if (s.machine.tasks s.machine.currentTask).timeSlice = 0 then
        (∃ l', Kept { s with machine := m', origin := s.calledOrigin ret m'.currentTask } l') ∧
          m'.currentTask ∈ s.tasks ∧
          EnteredAt m' (s.calledOrigin ret m'.currentTask m'.currentTask) ∧
          m'.cr3 = (m'.tasks m'.currentTask).cr3
      else
        Kept { s with machine := m' } l ∧ m'.currentTask = s.machine.currentTask ∧
          m'.mem = s.machine.mem ∧ m'.regs = s.machine.regs ∧ m'.rsp = s.machine.rsp ∧
          m'.rip = s.machine.rip ∧ m'.cr3 = s.machine.cr3 := by
  rw [timerIrqHandler]
  by_cases hslice : (s.machine.tasks s.machine.currentTask).timeSlice = 0
  · have h' := h.setSlice quantum
    obtain ⟨m', m₁, hnext, hs, hturned, -⟩ := h'.turned ret hroom
    obtain ⟨l', hkept⟩ := h'.schedule hroom hnext hs
    obtain ⟨next, m₂, m₃, hnext', hs', hcur, hmem, hentered, hcr3⟩ := h'.enters ret hroom
    obtain rfl : m₃ = m' := Option.some.inj (hs'.symm.trans hs)
    rw [if_pos hslice]
    refine ⟨m₃, hs, hturned.heap, ?_⟩
    rw [if_pos hslice, hcur]
    rw [← hturned.currentTask, hcur] at hkept
    exact ⟨⟨l', hkept⟩, hmem, hentered, hcr3⟩
  · rw [if_neg hslice]
    refine ⟨_, rfl, rfl, ?_⟩
    rw [if_neg hslice]
    exact ⟨h.setSlice _, rfl, rfl, rfl, rfl, rfl, rfl⟩

/-- The memory of the tasks, where the heap is as before. -/
theorem Housed.congr (h : Housed s given) (hheap : s'.machine.heap = s.machine.heap)
    (htasks : s'.tasks = s.tasks) (hstack : s'.stack = s.stack) : Housed s' given := by
  refine ⟨?_, ?_, ?_, ?_⟩
  · rw [hheap]
    exact h.boot
  · rw [hheap]
    exact h.marked
  · rw [htasks]
    exact h.block
  · rw [hheap, htasks, hstack]
    exact h.stack

/-- The memory of the tasks, where their code has called `malloc`. -/
theorem Housed.malloc {size ptr : BitVec 64} {heap : HeapState} (h : Housed s given)
    (hm : malloc s.machine.heap size = some (ptr, heap)) :
    Housed { s with machine := { s.machine with heap := heap } } given := by
  refine ⟨h.boot.step hm, marked_keeps h.marked hm, h.block, ?_⟩
  dsimp only
  rw [(malloc_keeps hm).1]
  exact h.stack

/-- What a run keeps: every context is on its stack, and the tasks have their own memory. -/
def Tracked.Sound (s : Tracked) : Prop := s.Kept ∧ ∃ given, Housed s given

/-- **One step.** -/
theorem Tracked.Sound.step {e : BootEvent} (h : s.Sound) (hs : BootStep s e s') : s'.Sound := by
  obtain ⟨⟨l, hkept⟩, given, hhoused⟩ := h
  cases hs with
  | create hc hm₁ hin hin' htop =>
      obtain ⟨hnew, hnonnull, hapart, hhoused'⟩ :=
        hhoused.create (createProcess_created hc) hm₁ hin hin' htop
      exact ⟨hkept.create hc htop hnew hnonnull hapart, _, hhoused'⟩
  | @tick ret m' hroom ht =>
      obtain ⟨m'', ht', hheap, hcases⟩ := hkept.tick hroom
      obtain rfl : m'' = m' := Option.some.inj (ht'.symm.trans ht)
      refine ⟨?_, given, hhoused.congr hheap rfl rfl⟩
      split_ifs at hcases ⊢
      · exact hcases.1
      · exact ⟨l, hcases.1⟩
  | malloc hm =>
      exact ⟨⟨l, hkept.work rfl rfl fun _ _ _ _ _ => rfl⟩, given, hhoused.malloc hm⟩
  | work hcode hmem =>
      obtain ⟨htasks, hcur, hheap⟩ := hcode
      exact ⟨⟨l, hkept.work htasks hcur hmem⟩, given, hhoused.congr hheap rfl rfl⟩

end Steps

/-! ### One task created -/

end FrazzOS.Proc
