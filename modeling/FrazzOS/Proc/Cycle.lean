import FrazzOS.Heap.Fresh
import FrazzOS.Pmm.Alloc
import FrazzOS.Proc.Process

/-!
# Proc — Cycle

Runs from `init_multitasking` of `create_process` with `add_process`, of timer ticks, and of the
tasks' own code in between (`System`, `Step`).

`ring_cycle`: in every state of a run the links from `current_task` pass every task once and no
other, `current_task` runs and the others are ready, and only the slice of `current_task` is
begun.  What carries the run (`Linked`) is that every task is the first block of a call of
`malloc`, which tests used, so a new task is none of them.
-/

namespace FrazzOS.Proc
open Heap Bitmap FirstFit Rings Runs Memory

/-- The heap at `init_multitasking`: that of `heap_init`, its frames from `pmm_alloc`, and any
calls of `malloc` since. -/
def BootHeap (h : HeapState) : Prop :=
  ∃ s s' frame words sizes, Pmm.pmmAlloc s (BitVec.ofNat 64 frazzosHeapSize) = some (frame, s') ∧
    Run MallocStep (heapInit words frame) sizes h

/-- The machine, and the tasks made so far. -/
structure System where
  machine : Machine
  added : List (BitVec 64)

inductive Event where
  | create (main : BitVec 64)
  | tick (ret : BitVec 64)
  | work

/-- The code of the tasks: it changes registers and memory, but no control block. -/
def OwnCode (m m' : Machine) : Prop :=
  m'.tasks = m.tasks ∧ m'.currentTask = m.currentTask ∧ m'.heap = m.heap

inductive Step : System → Event → System → Prop where
  | create {s : System} {main p : BitVec 64} {m' : Machine} :
      createProcess s.machine main = some (p, m') →
      Step s (.create main) ⟨addProcess m' p, p :: s.added⟩
  | tick {s : System} {ret : BitVec 64} {m' : Machine} :
      timerIrqHandler ret s.machine = some m' → Step s (.tick ret) ⟨m', s.added⟩
  | work {s : System} {m' : Machine} : OwnCode s.machine m' → Step s .work ⟨m', s.added⟩

/-- What holds of the tasks `added` between the steps of a run. -/
structure CycleOf (m : Machine) (added : List (BitVec 64)) : Prop where
  distinct : added.Nodup
  cycle : (List.iterate m.next m.currentTask added.length).Perm added
  back : m.next^[added.length] m.currentTask = m.currentTask
  running : (m.tasks m.currentTask).status = .running
  ready : ∀ t ∈ added, t ≠ m.currentTask → (m.tasks t).status = .ready
  slice : ∀ t ∈ added, 0 ≤ (m.tasks t).timeSlice ∧ (m.tasks t).timeSlice ≤ quantum
  full : ∀ t ∈ added, t ≠ m.currentTask → (m.tasks t).timeSlice = quantum

/-! ### The invariant -/

/-- A control block that `malloc` handed out. -/
def TaskBlock (h : HeapState) (t : BitVec 64) : Prop :=
  ∃ start : Nat, start < searchedBlocks ∧ t = h.heapAddr + BitVec.ofNat 64 (128 * start) ∧
    testBit h.bitmap start = true

/-- The invariant: a ring of ready tasks that `malloc` handed out, with the slices. -/
structure Linked (m : Machine) (added l : List (BitVec 64)) : Prop extends ReadyRing m l where
  perm : (m.currentTask :: l).Perm added
  block : ∀ t ∈ added, TaskBlock m.heap t
  addr : ∀ start : Nat, start < searchedBlocks →
    m.heap.heapAddr + BitVec.ofNat 64 (128 * start) ≠ 0
  current : 0 ≤ (m.tasks m.currentTask).timeSlice ∧ (m.tasks m.currentTask).timeSlice ≤ quantum
  full : ∀ t ∈ l, (m.tasks t).timeSlice = quantum

theorem Linked.cycleOf {m : Machine} {added l : List (BitVec 64)} (h : Linked m added l) :
    CycleOf m added := by
  obtain ⟨hcycle, hback⟩ := h.ring.iterate
  have hlen : added.length = l.length + 1 := by
    rw [← h.perm.length_eq, List.length_cons]
  have hrest : ∀ t ∈ added, t ≠ m.currentTask → t ∈ l := fun t ht hne =>
    (List.mem_cons.mp (h.perm.mem_iff.mpr ht)).resolve_left hne
  exact {
    distinct := h.perm.nodup_iff.mp h.nodup
    cycle := by rw [hlen, hcycle]; exact h.perm
    back := by rw [hlen, hback]
    running := h.running
    ready := fun t ht hne => h.ready t (hrest t ht hne)
    slice := fun t ht => by
      by_cases hne : t = m.currentTask
      · exact hne ▸ h.current
      · rw [h.full t (hrest t ht hne)]
        exact ⟨by decide, Int.le_refl _⟩
    full := fun t ht hne => h.full t (hrest t ht hne) }

/-- Control blocks handed out stay so. -/
theorem TaskBlock.keeps {h h' : HeapState} {size ptr t : BitVec 64} (ht : TaskBlock h t)
    (hm : malloc h size = some (ptr, h')) : TaskBlock h' t := by
  obtain ⟨start, hlt, rfl, hused⟩ := ht
  obtain ⟨haddr, hkeep⟩ := malloc_keeps hm
  exact ⟨start, hlt, by rw [haddr], hkeep start hused⟩

/-- Distinct blocks have distinct pointers. -/
theorem block_inj {base : BitVec 64} {s s' : Nat} (hs : s < searchedBlocks)
    (hs' : s' < searchedBlocks)
    (h : base + BitVec.ofNat 64 (128 * s) = base + BitVec.ofNat 64 (128 * s')) : s = s' := by
  have hb : searchedBlocks = 52428864 := by decide
  have := congrArg (fun x => (x - base).toNat) h
  simp only [toNat_sub_add base (show 128 * s < 18446744073709551616 by omega),
    toNat_sub_add base (show 128 * s' < 18446744073709551616 by omega)] at this
  omega

/-- A control block that `malloc` hands out is none of those handed out before. -/
theorem taskBlock_fresh {h h' : HeapState} {p : BitVec 64}
    (hm : malloc h sizeofTcb = some (p, h')) (hok : mallocBlock h sizeofTcb ≠ some none) :
    TaskBlock h' p ∧ ∀ t, TaskBlock h t → t ≠ p := by
  rcases malloc_two_blocks (by decide) hm with ⟨hno, -⟩ | ⟨start, hlt, rfl, hfree, hused⟩
  · exact absurd hno hok
  · refine ⟨⟨start, hlt, by rw [(malloc_keeps hm).1], hused⟩, ?_⟩
    rintro t ⟨start', hlt', rfl, hused'⟩ he
    obtain rfl := block_inj hlt' hlt he
    rw [Free, hused'] at hfree
    cases hfree

/-- The frame that `pmm_alloc` returns: a page index that fits an `int`, or `ENOMEM`. -/
theorem pmmAlloc_frame {s s' : Pmm.PmmState} {size frame : BitVec 64}
    (h : Pmm.pmmAlloc s size = some (frame, s')) :
    ∃ i : Int, -8796093022208 ≤ i ∧ i < 8796093022208 ∧ frame = BitVec.ofInt 64 i := by
  rw [Pmm.pmmAlloc] at h
  split at h
  · cases h
    exact ⟨-1, by decide, by decide, rfl⟩
  · cases hf : Pmm.pageFrame s size with
    | none => rw [hf] at h; cases h
    | some r =>
        rw [hf] at h
        simp only at h
        split at h
        · cases h
          exact ⟨-1, by decide, by decide, rfl⟩
        · cases h
          have hr := findFit_range hf
          refine ⟨r * pageSize, ?_, ?_, rfl⟩
          · unfold pageSize; omega
          · unfold pageSize; omega

/-- No call moves the arena. -/
theorem run_heapAddr {h h' : HeapState} {sizes : List (BitVec 64)}
    (hrun : Run MallocStep h sizes h') : h'.heapAddr = h.heapAddr := by
  induction hrun with
  | nil => rfl
  | cons hs _ ih =>
      obtain ⟨ptr, hm⟩ := hs
      exact ih.trans (malloc_keeps hm).1

/-- **No block of the boot heap is at the null pointer.** -/
theorem BootHeap.addr {h : HeapState} (hb : BootHeap h) {start : Nat}
    (hs : start < searchedBlocks) : h.heapAddr + BitVec.ofNat 64 (128 * start) ≠ 0 := by
  obtain ⟨s, s', frame, words, sizes, hp, hrun⟩ := hb
  have haddr : h.heapAddr = physToHh frame := by
    rw [run_heapAddr hrun, heapInit]
  obtain ⟨i, h₀, h₁, rfl⟩ := pmmAlloc_frame hp
  have hblocks : searchedBlocks = 52428864 := by decide
  have hbase : kernelVirtBaseAddr.toNat = 18446603336221196288 := by decide
  rw [haddr, physToHh]
  intro he
  have := congrArg BitVec.toNat he
  rw [BitVec.toNat_add, BitVec.toNat_add, BitVec.toNat_ofInt, BitVec.toNat_ofNat, hbase] at this
  rw [show (0 : BitVec 64).toNat = 0 from rfl] at this
  omega

/-! ### The steps -/

/-- The first call of a `create_process` that returns finds memory. -/
theorem Created.block {m m' : Machine} {main p : BitVec 64} (h : Created m main p m') :
    TaskBlock m'.heap p ∧ (∀ t, TaskBlock m.heap t → t ≠ p ∧ TaskBlock m'.heap t) ∧
      m'.heap.heapAddr = m.heap.heapAddr := by
  obtain ⟨h₁, base, hm₁, hm₂, hbase, -, -⟩ := h.heap
  have hok : mallocBlock m.heap sizeofTcb ≠ some none := by
    intro hno
    have hheap : h₁ = m.heap := by
      rw [malloc, hno] at hm₁
      exact (congrArg Prod.snd (Option.some.inj hm₁)).symm
    have hno' : mallocBlock m.heap kernelStackSize = some none :=
      mallocBlock_enomem_mono (by decide) hno
    rw [hheap, malloc, hno'] at hm₂
    exact hbase (congrArg Prod.fst (Option.some.inj hm₂)).symm
  obtain ⟨hp, hfresh⟩ := taskBlock_fresh hm₁ hok
  exact ⟨hp.keeps hm₂, fun t ht => ⟨hfresh t ht, (ht.keeps hm₁).keeps hm₂⟩,
    (malloc_keeps hm₂).1.trans (malloc_keeps hm₁).1⟩

/-- A task made by `create_process` that is not linked yet. -/
structure Unlinked (m : Machine) (added : List (BitVec 64)) (p : BitVec 64) : Prop where
  notMem : p ∉ added
  block : TaskBlock m.heap p
  status : (m.tasks p).status = .ready
  timeSlice : (m.tasks p).timeSlice = quantum

/-- A task created is not linked, and no other task changes. -/
theorem Linked.created {m m' : Machine} {added l : List (BitVec 64)} {main p : BitVec 64}
    (h : Linked m added l) (hcr : Created m main p m') :
    Linked m' added l ∧ Unlinked m' added p := by
  obtain ⟨hp, hold, haddr⟩ := hcr.block
  obtain ⟨-, base, -, -, -, hbuilt, -⟩ := hcr.heap
  have hne : ∀ t ∈ m.currentTask :: l, t ≠ p := fun t ht =>
    (hold t (h.block t (h.perm.mem_iff.mp ht))).1
  refine ⟨?_, ⟨fun hm => (hold p (h.block p hm)).1 rfl, hp, hbuilt.status, hbuilt.timeSlice⟩⟩
  exact {
    toReadyRing := h.toReadyRing.created hcr fun hm => hne p hm rfl
    perm := by
      rw [hcr.currentTask]
      exact h.perm
    block := fun t ht => (hold t (h.block t ht)).2
    addr := haddr ▸ h.addr
    current := by
      rw [hcr.currentTask, hcr.tasks _ (hne _ List.mem_cons_self)]
      exact h.current
    full := fun t ht => by
      rw [hcr.tasks t (hne t (List.mem_cons_of_mem _ ht))]
      exact h.full t ht }

/-- A task added is linked. -/
theorem Linked.add {m : Machine} {added l : List (BitVec 64)} {p : BitVec 64}
    (h : Linked m added l) (hp : Unlinked m added p) :
    Linked (addProcess m p) (p :: added) (p :: l) := by
  have hnonnull : p ≠ 0 := by
    obtain ⟨start, hs, he, -⟩ := hp.block
    exact he ▸ h.addr start hs
  exact {
    toReadyRing := h.toReadyRing.add (fun hm => hp.notMem (h.perm.mem_iff.mp hm)) hnonnull hp.status
    perm := (List.Perm.swap p m.currentTask l).trans (h.perm.cons p)
    block := fun t ht => by
      rcases List.mem_cons.mp ht with rfl | ht
      · exact hp.block
      · exact h.block t ht
    addr := h.addr
    current := by
      rw [show (addProcess m p).currentTask = m.currentTask from rfl, (addProcess_rest _).2.1]
      exact h.current
    full := fun t ht => by
      rw [(addProcess_rest t).2.1]
      rcases List.mem_cons.mp ht with rfl | ht
      · exact hp.timeSlice
      · exact h.full t ht }

/-- A task created and added is linked. -/
theorem Linked.create {m m' : Machine} {added l : List (BitVec 64)} {main p : BitVec 64}
    (h : Linked m added l) (hc : createProcess m main = some (p, m')) :
    Linked (addProcess m' p) (p :: added) (p :: l) := by
  obtain ⟨hl, hp⟩ := h.created (createProcess_created hc)
  exact hl.add hp

/-- A slice of `current_task` written. -/
theorem Linked.setSlice {m : Machine} {added l : List (BitVec 64)} (h : Linked m added l) {v : Int}
    (h₀ : 0 ≤ v) (h₁ : v ≤ quantum) :
    Linked (m.setSlice v) added l := by
  have hne : ∀ t ∈ l, t ≠ m.currentTask := by
    rintro t ht rfl
    exact (List.nodup_cons.mp h.nodup).1 ht
  exact {
    toReadyRing := h.toReadyRing.congr rfl (fun t _ => (setSlice_rest m v t).1)
      fun t _ => (setSlice_rest m v t).2
    perm := h.perm
    block := h.block
    addr := h.addr
    current := by
      rw [setSlice_currentTask, setSlice_timeSlice]
      exact ⟨h₀, h₁⟩
    full := fun t ht => by
      rw [setSlice_of_ne m v t (hne t ht)]
      exact h.full t ht }

/-- `schedule` where the slice of `current_task` is full. -/
theorem Linked.schedule {m m' : Machine} {added l : List (BitVec 64)} {ret : BitVec 64}
    (h : Linked m added l) (hfull : (m.tasks m.currentTask).timeSlice = quantum)
    (hs : Proc.schedule ret m = some m') : Linked m' added (turned m.currentTask l) := by
  obtain ⟨m'', hs', ht⟩ := schedule_turned ret h.toReadyRing
  obtain rfl : m' = m'' := Option.some.inj (hs.symm.trans hs')
  have hcur : m'.currentTask = second m.currentTask l :=
    ht.currentTask.trans h.ring.next_head
  have hperm : (m'.currentTask :: turned m.currentTask l).Perm (m.currentTask :: l) :=
    hcur ▸ turned_perm m.currentTask l
  have hslice : ∀ t ∈ m'.currentTask :: turned m.currentTask l,
      (m'.tasks t).timeSlice = quantum := by
    intro t hmem
    rw [ht.timeSlice]
    rcases List.mem_cons.mp (hperm.mem_iff.mp hmem) with rfl | hl
    · exact hfull
    · exact h.full t hl
  exact {
    toReadyRing := ht.ring
    perm := hperm.trans h.perm
    block := fun t hmem => ht.heap.symm ▸ h.block t hmem
    addr := ht.heap.symm ▸ h.addr
    current := by
      rw [hslice _ List.mem_cons_self]
      exact ⟨by decide, Int.le_refl _⟩
    full := fun t hmem => hslice t (List.mem_cons_of_mem _ hmem) }

/-- **A tick**: the slice of `current_task` shrinks, or is renewed and the ring turns. -/
theorem Linked.tick {m m' : Machine} {added l : List (BitVec 64)} {ret : BitVec 64}
    (h : Linked m added l) (ht : timerIrqHandler ret m = some m') :
    ∃ l', Linked m' added l' := by
  rw [timerIrqHandler] at ht
  by_cases hz : (m.tasks m.currentTask).timeSlice = 0
  · rw [if_pos hz] at ht
    have h' := h.setSlice (v := quantum) (by decide) (Int.le_refl _)
    exact ⟨_, h'.schedule (setSlice_timeSlice m quantum) ht⟩
  · rw [if_neg hz] at ht
    cases ht
    obtain ⟨h₀, h₁⟩ := h.current
    have hq : quantum = 5 := rfl
    rw [CInt.toInt32_of_range (by omega) (by omega)]
    exact ⟨l, h.setSlice (by omega) (by omega)⟩

/-- The tasks' own code touches no control block. -/
theorem Linked.work {m m' : Machine} {added l : List (BitVec 64)} (h : Linked m added l)
    (hw : OwnCode m m') : Linked m' added l := by
  obtain ⟨htasks, hcur, hheap⟩ := hw
  exact {
    toReadyRing := h.toReadyRing.congr hcur (fun t _ => by rw [htasks]) fun t _ => by rw [htasks]
    perm := hcur.symm ▸ h.perm
    block := hheap.symm ▸ h.block
    addr := hheap.symm ▸ h.addr
    current := by rw [htasks, hcur]; exact h.current
    full := htasks.symm ▸ h.full }

/-- The boot task alone. -/
theorem linked_boot {m₀ m : Machine} (hheap : BootHeap m₀.heap)
    (hi : initMultitasking m₀ = some m) : Linked m [m.currentTask] [] := by
  rw [initMultitasking] at hi
  cases hm : malloc m₀.heap sizeofTcb with
  | none => rw [hm] at hi; cases hi
  | some r =>
      obtain ⟨p, heap⟩ := r
      rw [hm] at hi
      simp only at hi
      by_cases he : p = enomemPtr
      · rw [if_pos he] at hi; cases hi
      rw [if_neg he] at hi
      cases hi
      have hok : mallocBlock m₀.heap sizeofTcb ≠ some none := by
        intro hno
        rw [malloc, hno] at hm
        exact he (congrArg Prod.fst (Option.some.inj hm)).symm
      obtain ⟨hp, -⟩ := taskBlock_fresh hm hok
      have haddr : ∀ start : Nat, start < searchedBlocks →
          heap.heapAddr + BitVec.ofNat 64 (128 * start) ≠ 0 := by
        rw [(malloc_keeps hm).1]
        exact fun start hs => hheap.addr hs
      refine {
        ring := ring_self ?_
        nodup := List.nodup_singleton _
        nonnull := fun t ht => ?_
        running := ?_
        others := fun t ht => absurd ht List.not_mem_nil
        ready := fun t ht => absurd ht List.not_mem_nil
        perm := .refl _
        block := fun t ht => ?_
        addr := haddr
        current := ?_
        full := fun t ht => absurd ht List.not_mem_nil }
      · simp [Machine.next, Machine.setTask]
      · obtain rfl := List.mem_singleton.mp ht
        obtain ⟨start, hs, he, -⟩ := hp
        exact he ▸ haddr start hs
      · simp [Machine.setTask]
      · obtain rfl := List.mem_singleton.mp ht
        exact hp
      · simp only [Machine.setTask, Function.update_self]
        exact ⟨by decide, Int.le_refl _⟩

/-- The tasks made so far are linked. -/
def System.Linked (s : System) : Prop := ∃ l, Proc.Linked s.machine s.added l

/-- **One step keeps the tasks linked.** -/
theorem System.Linked.step {s s' : System} {e : Event} (h : s.Linked) (hs : Step s e s') :
    s'.Linked := by
  obtain ⟨l, h⟩ := h
  cases hs with
  | create hc => exact ⟨_, h.create hc⟩
  | tick ht => exact h.tick ht
  | work hw => exact ⟨l, h.work hw⟩

/-- **The scheduler's ring** after every run from `init_multitasking`. -/
theorem ring_cycle {m₀ m : Machine} {es : List Event} {s : System} (hheap : BootHeap m₀.heap)
    (hi : initMultitasking m₀ = some m) (hrun : Run Step ⟨m, [m.currentTask]⟩ es s) :
    CycleOf s.machine s.added := by
  have h₀ : System.Linked ⟨m, [m.currentTask]⟩ := ⟨[], linked_boot hheap hi⟩
  obtain ⟨l, h⟩ := hrun.invariant (fun h hs => h.step hs) h₀
  exact h.cycleOf

/-- A machine at `init_multitasking`, right after `heap_init` with the frame at 16 MiB. -/
def bootMachine : Machine where
  regs _ := 0
  rsp := 0x8000
  rip := 0
  cr3 := 0x200000
  zf := false
  mem _ := 0
  tasks _ := ⟨0, 0, 0, .waiting, 0⟩
  currentTask := 0
  heap := heapInit (fun _ => 0) 0x1000000

/-- The first 16 MiB used. -/
def lowUsed : Pmm.PmmState where
  mapAddr := 0
  map i := if i < 64 then BitVec.allOnes 64 else 0
  size := 1024
  info := ⟨0, 0, 0, 65536, 0, 65536⟩

/-- The frame at 16 MiB is the first one free. -/
theorem pmmAlloc_lowUsed : ∃ s', Pmm.pmmAlloc lowUsed (BitVec.ofNat 64 frazzosHeapSize) =
    some (0x1000000, s') := by
  have hcount : CInt.toUInt64 (Pmm.numPages (BitVec.ofNat 64 frazzosHeapSize)) = 25600 := by
    decide +kernel
  have hfits : Fits (Free lowUsed.map) 25600 4096 := by
    intro i hi
    have hw : lowUsed.map ((4096 + i) / bitsPerBlock : Nat) = 0 := by
      refine if_neg ?_
      unfold bitsPerBlock; omega
    rw [Free, testBit, hw]
    simp
  have hwords : 4096 + 25600 ≤ lowUsed.words * bitsPerBlock := by decide
  obtain ⟨w, hw, hf, hmin⟩ := findFit_found (by decide) hfits hwords (by decide) (by decide)
  have hw₁ : w = 4096 := by
    have hle := hmin 4096 hfits
    by_contra hne
    have hlow : lowUsed.map (w / bitsPerBlock : Nat) = BitVec.allOnes 64 := by
      refine if_pos ?_
      unfold bitsPerBlock; omega
    have hused : testBit lowUsed.map w = true := by
      rw [testBit_iff, hlow]
      exact allOnes_and_bitMask w
    have hfree : testBit lowUsed.map w = false := hf 0 (by decide)
    rw [hused] at hfree
    cases hfree
  subst hw₁
  have hframe : Pmm.pageFrame lowUsed (BitVec.ofNat 64 frazzosHeapSize) = some (4096 : Int) := by
    rw [Pmm.pageFrame, hcount]
    exact hw
  refine ⟨Pmm.takePages lowUsed (Pmm.numPages (BitVec.ofNat 64 frazzosHeapSize)) 4096, ?_⟩
  have havail : lowUsed.info.availablePages ≠ 0 := by decide
  rw [Pmm.pmmAlloc, if_neg havail, hframe]
  rfl

theorem bootHeap_bootMachine : BootHeap bootMachine.heap := by
  obtain ⟨s', hs⟩ := pmmAlloc_lowUsed
  exact ⟨_, s', _, _, [], hs, .nil _⟩

/-- The heap after the calls of `init_multitasking` and of one `create_process`. -/
def bootHeap₁ : HeapState := takeBlocks bootMachine.heap sizeofTcb 0

def bootHeap₂ : HeapState := takeBlocks bootHeap₁ sizeofTcb 2

/-- `init_multitasking` and one `create_process` on the boot machine. -/
theorem bootMachine_created : ∃ m m' : Machine, initMultitasking bootMachine = some m ∧
    m.currentTask = 0xffff800001000000 ∧ (m.tasks m.currentTask).timeSlice = quantum ∧
    createProcess m 0x400 = some (0xffff800001000100, m') := by
  have hm₀ : malloc bootMachine.heap sizeofTcb = some (0xffff800001000000, bootHeap₁) := by
    rw [malloc_of_start (r := 0) (by decide) (by decide +kernel) (by decide)]; rfl
  have hm₁ : malloc bootHeap₁ sizeofTcb = some (0xffff800001000100, bootHeap₂) := by
    rw [malloc_of_start (r := 2) (by decide) (by decide +kernel) (by decide)]; rfl
  have hm₂ : malloc bootHeap₂ kernelStackSize =
      some (0xffff800001001200, takeBlocks bootHeap₂ kernelStackSize 36) := by
    rw [malloc_of_start (r := 36) (by decide) (by decide +kernel) (by decide)]; rfl
  obtain ⟨m, hi, hcur, hslice, hheap⟩ : ∃ m, initMultitasking bootMachine = some m ∧
      m.currentTask = 0xffff800001000000 ∧ (m.tasks m.currentTask).timeSlice = quantum ∧
      m.heap = bootHeap₁ := by
    rw [initMultitasking, hm₀]
    exact ⟨_, if_neg (by decide), rfl, by simp [Machine.setTask], rfl⟩
  obtain ⟨m', hc⟩ : ∃ m', createProcess m 0x400 = some (0xffff800001000100, m') := by
    rw [createProcess, hheap, hm₁]
    simp only [processInitStack, hm₂]
    exact ⟨_, rfl⟩
  exact ⟨m, m', hi, hcur, hslice, hc⟩

/-- One task created and added. -/
theorem ring_cycle_two : ∃ s : System, s.added = [0xffff800001000100, 0xffff800001000000] ∧
    CycleOf s.machine s.added := by
  obtain ⟨m, m', hi, hcur, -, hc⟩ := bootMachine_created
  refine ⟨⟨addProcess m' 0xffff800001000100, [0xffff800001000100, m.currentTask]⟩, ?_, ?_⟩
  · rw [hcur]
  · exact ring_cycle bootHeap_bootMachine hi (.one (.create hc))

end FrazzOS.Proc
