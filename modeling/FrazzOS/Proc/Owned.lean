import FrazzOS.Heap.Exclusive
import FrazzOS.Heap.Fresh
import FrazzOS.Proc.Process

/-!
# Proc — Owned

The bytes that `create_process` stores to, as a list of stores beside the code, and whether they are
those of its own two calls of `malloc`.

* `createProcess_stores`: a byte outside of the list keeps its value, and a control block other than
  the new one does.
* `writesOwned_iff`: the stores stay in the control block and the stack exactly when the second call
  of `malloc` fails after the first succeeded, or one of them does not return, or the stack ends
  where the control block begins: `process_init_info` stores `main` in the word above the stack, and
  the first result is used before it is checked.
* `createProcess_not_writesOwned`: while the searches stay inside `heap.bitmap`, every call that
  returns stores elsewhere.
-/

namespace FrazzOS.Proc
open Memory Heap Bitmap FirstFit

/-- A store of some bytes at an offset from the pointer it is made through. -/
structure Store where
  ptr : BitVec 64
  offset : Nat
  bytes : Nat

/-- The bytes stored to. -/
def Store.span (st : Store) : Set (BitVec 64) :=
  Memory.span (st.ptr + BitVec.ofNat 64 st.offset) st.bytes

/-- The stores of `process_init_info`: `main` through `kernel_top`, and the fields `kernel_top`,
`cr3`, `status` and `time_slice`. -/
def processInitInfoStores (m : Machine) (newProc : BitVec 64) : List Store :=
  [⟨(m.tasks newProc).kernelTop, 0, 8⟩, ⟨newProc, 0, 8⟩, ⟨newProc, 8, 8⟩, ⟨newProc, 24, 4⟩,
    ⟨newProc, 28, 4⟩]

/-- The stores of `process_init_stack`: `kernel_top`, and once `malloc` succeeded `memset` and
`kernel_top` again. -/
def processInitStackStores (m : Machine) (newProc : BitVec 64) : List Store :=
  match malloc m.heap kernelStackSize with
  | none => []
  | some (ptr, _) =>
      if ptr = enomemPtr then [⟨newProc, 0, 8⟩]
      else [⟨newProc, 0, 8⟩, ⟨ptr, 0, kernelStackSize.toNat⟩, ⟨newProc, 0, 8⟩]

/-- The stores of `create_process`, for any `main`. -/
def createProcessStores (m : Machine) : List Store :=
  match malloc m.heap sizeofTcb with
  | none => []
  | some (newProc, heap) =>
      let m := { m with heap := heap }
      processInitStackStores m newProc ++
        match processInitStack m newProc with
        | none => []
        | some (r, m) => if r < 0 then [] else processInitInfoStores m newProc

/-- The calls of `malloc`, and what they returned. -/
structure Calls (h : HeapState) (newProc base : BitVec 64) (h' : HeapState) : Prop where
  tcb : malloc h sizeofTcb = some (newProc, h')
  stack : ∃ h'', malloc h' kernelStackSize = some (base, h'')

/-- A byte of the control block or of the stack, where the call for it succeeded. -/
def OwnByte (h : HeapState) (x : BitVec 64) : Prop :=
  (∃ newProc h', malloc h sizeofTcb = some (newProc, h') ∧ newProc ≠ enomemPtr ∧
    x ∈ span newProc sizeofTcb.toNat) ∨
  ∃ newProc base h', Calls h newProc base h' ∧ base ≠ enomemPtr ∧
    x ∈ span base kernelStackSize.toNat

/-- `create_process` stores to its own bytes only, and not through `ENOMEM` where a call failed. -/
structure WritesOwned (m : Machine) : Prop where
  own : ∀ st ∈ createProcessStores m, ∀ x ∈ st.span, OwnByte m.heap x
  failed : ∀ newProc base h', Calls m.heap newProc base h' →
    newProc = enomemPtr ∨ base = enomemPtr → ∀ st ∈ createProcessStores m, st.ptr ≠ enomemPtr

/-- Where both calls return, the first succeeds; and the second fails, or its stack ends where the
control block begins. -/
def Contained (h : HeapState) : Prop :=
  ∀ newProc base h', Calls h newProc base h' →
    newProc ≠ enomemPtr ∧ (base = enomemPtr ∨ base + kernelStackSize = newProc)

variable {m m' : Machine} {h h' : HeapState} {newProc base main t : BitVec 64}

/-! ### The stores -/

/-- Where the first call does not return, or the second, nothing is stored. -/
theorem createProcessStores_nil (hno : ∀ newProc base h', ¬ Calls m.heap newProc base h') :
    createProcessStores m = [] := by
  rw [createProcessStores]
  cases hm : malloc m.heap sizeofTcb with
  | none => rfl
  | some r =>
      obtain ⟨newProc, h'⟩ := r
      cases hm' : malloc h' kernelStackSize with
      | none => simp only [processInitStackStores, processInitStack, hm', List.append_nil]
      | some r => exact absurd ⟨hm, r.2, hm'⟩ (hno newProc r.1 h')

/-- Where the second call fails, `kernel_top` alone is. -/
theorem createProcessStores_enomem (hc : Calls m.heap newProc enomemPtr h') :
    createProcessStores m = [⟨newProc, 0, 8⟩] := by
  obtain ⟨hm, h'', hm'⟩ := hc
  simp only [createProcessStores, hm, processInitStackStores, processInitStack, hm', if_true]
  rfl

/-- Where it succeeds, all fields, the stack, and the word above it. -/
theorem createProcessStores_ok (hc : Calls m.heap newProc base h') (hne : base ≠ enomemPtr) :
    createProcessStores m =
      [⟨newProc, 0, 8⟩, ⟨base, 0, kernelStackSize.toNat⟩, ⟨newProc, 0, 8⟩,
        ⟨base + kernelStackSize, 0, 8⟩, ⟨newProc, 0, 8⟩, ⟨newProc, 8, 8⟩, ⟨newProc, 24, 4⟩,
        ⟨newProc, 28, 4⟩] := by
  obtain ⟨hm, h'', hm'⟩ := hc
  simp only [createProcessStores, hm, processInitStackStores, processInitStack, hm', if_neg hne]
  simp [processInitInfoStores, Machine.setTask]

/-- **The list is complete**: what is not on it is not written. -/
theorem createProcess_stores (hc : createProcess m main = some (t, m')) :
    (∀ x, (∀ st ∈ createProcessStores m, x ∉ st.span) → m'.mem x = m.mem x) ∧
      ∀ p, p ≠ t → m'.tasks p = m.tasks p := by
  have hcr := createProcess_created hc
  obtain ⟨h', base, hm, hm', hne, -, hmem⟩ := hcr.heap
  refine ⟨fun x hx => hmem x fun hstack => ?_, hcr.tasks⟩
  rw [createProcessStores_ok ⟨hm, _, hm'⟩ hne] at hx
  have hlen : kernelStackSize.toNat = 4096 := rfl
  have hstack : (x - base).toNat < 4096 + 8 := hstack
  by_cases hin : (x - base).toNat < 4096
  · refine hx ⟨base, 0, kernelStackSize.toNat⟩ (by simp) ?_
    simpa [Store.span, mem_span, hlen] using hin
  · refine hx ⟨base + kernelStackSize, 0, 8⟩ (by simp) ?_
    simp only [Store.span, mem_span, BitVec.add_zero]
    rw [sub_add_kernelStackSize]
    bv_omega

/-! ### Whose bytes they are -/

/-- Pointers of successful calls lie a multiple of 128 bytes behind the arena. -/
theorem malloc_aligned {size ptr : BitVec 64} (hm : malloc h size = some (ptr, h'))
    (hne : ptr ≠ enomemPtr) : (ptr - h.heapAddr).toNat % 128 = 0 := by
  rcases malloc_cases hm with ⟨-, he, -⟩ | ⟨start, -, -, -, -, rfl, -⟩
  · exact absurd he hne
  · rw [blockPtr, BitVec.add_comm, BitVec.add_sub_cancel, BitVec.toNat_ofInt]
    unfold CInt.toInt32 blockSize
    split <;> omega

/-- Where the word above the stack meets the control block, the one begins where the other ends. -/
theorem above_stack (hc : Calls h newProc base h') (hn : newProc ≠ enomemPtr)
    (hb : base ≠ enomemPtr) (hx : base + kernelStackSize ∈ span newProc sizeofTcb.toNat) :
    base + kernelStackSize = newProc := by
  obtain ⟨hm, h'', hm'⟩ := hc
  have hp := malloc_aligned hm hn
  have hq := malloc_aligned hm' hb
  rw [(malloc_keeps hm).1] at hq
  have hx : (base + kernelStackSize - newProc).toNat < 32 := hx
  unfold kernelStackSize at *
  bv_omega

/-- A byte owned, where both calls returned. -/
theorem ownByte_iff (hc : Calls h newProc base h') {x : BitVec 64} : OwnByte h x ↔
    (newProc ≠ enomemPtr ∧ x ∈ span newProc sizeofTcb.toNat) ∨
      (base ≠ enomemPtr ∧ x ∈ span base kernelStackSize.toNat) := by
  obtain ⟨hm, h'', hm'⟩ := hc
  constructor
  · rintro (⟨_, _, hm₁, hne, hx⟩ | ⟨_, _, _, ⟨hm₁, _, hm₁'⟩, hne, hx⟩)
    · cases hm.symm.trans hm₁
      exact Or.inl ⟨hne, hx⟩
    · cases hm.symm.trans hm₁
      cases hm'.symm.trans hm₁'
      exact Or.inr ⟨hne, hx⟩
  · rintro (⟨hne, hx⟩ | ⟨hne, hx⟩)
    · exact Or.inl ⟨newProc, h', hm, hne, hx⟩
    · exact Or.inr ⟨newProc, base, h', ⟨hm, h'', hm'⟩, hne, hx⟩

/-- A field of the control block. -/
theorem field_span {offset bytes : Nat} (hle : offset + bytes ≤ 32) :
    (⟨newProc, offset, bytes⟩ : Store).span ⊆ span newProc sizeofTcb.toNat := by
  intro x hx
  have hx : x ∈ Memory.span (newProc + BitVec.ofNat 64 offset) bytes := hx
  have hlt := ((mem_span_offset (by omega) (by omega)).mp hx).2
  exact Nat.lt_of_lt_of_le hlt hle

/-- The first call succeeds, or `kernel_top` is stored through `ENOMEM`. -/
theorem WritesOwned.newProc_ne (hw : WritesOwned m) (hc : Calls m.heap newProc base h') :
    newProc ≠ enomemPtr := by
  rintro rfl
  by_cases hb : base = enomemPtr
  · subst hb
    refine hw.failed _ _ _ hc (Or.inl rfl) ⟨enomemPtr, 0, 8⟩ ?_ rfl
    rw [createProcessStores_enomem hc]
    exact List.mem_singleton.mpr rfl
  · refine hw.failed _ _ _ hc (Or.inl rfl) ⟨enomemPtr, 0, 8⟩ ?_ rfl
    rw [createProcessStores_ok hc hb]
    exact List.mem_cons_self

/-- The second call fails, or `main` is stored above the stack. -/
theorem WritesOwned.above (hw : WritesOwned m) (hc : Calls m.heap newProc base h')
    (hb : base ≠ enomemPtr) : base + kernelStackSize = newProc := by
  have hn := hw.newProc_ne hc
  have hmem : (⟨base + kernelStackSize, 0, 8⟩ : Store) ∈ createProcessStores m := by
    rw [createProcessStores_ok hc hb]
    simp
  have hx : base + kernelStackSize ∈ (⟨base + kernelStackSize, 0, 8⟩ : Store).span := by
    simp [Store.span, mem_span]
  rcases (ownByte_iff hc).mp (hw.own _ hmem _ hx) with ⟨-, hx⟩ | ⟨-, hx⟩
  · exact above_stack hc hn hb hx
  · have hx : (base + kernelStackSize - base).toNat < 4096 := hx
    rw [kernelStackSize] at hx
    bv_omega

theorem contained_of_writesOwned (hw : WritesOwned m) : Contained m.heap := fun _ _ _ hc =>
  ⟨hw.newProc_ne hc, or_iff_not_imp_left.mpr fun hb => hw.above hc hb⟩

theorem writesOwned_of_contained (hc : Contained m.heap) : WritesOwned m := by
  constructor
  · intro st hst x hx
    by_cases hreturn : ∃ newProc base h', Calls m.heap newProc base h'
    · obtain ⟨newProc, base, h', hcalls⟩ := hreturn
      obtain ⟨hn, hb⟩ := hc newProc base h' hcalls
      have hfield : ∀ offset bytes, offset + bytes ≤ 32 →
          x ∈ (⟨newProc, offset, bytes⟩ : Store).span → OwnByte m.heap x :=
        fun offset bytes hle hx =>
        (ownByte_iff hcalls).mpr (Or.inl ⟨hn, field_span hle hx⟩)
      by_cases hfail : base = enomemPtr
      · subst hfail
        rw [createProcessStores_enomem hcalls] at hst
        obtain rfl := List.mem_singleton.mp hst
        exact hfield 0 8 (by decide) hx
      · have htop := hb.resolve_left hfail
        rw [createProcessStores_ok hcalls hfail, htop] at hst
        simp only [List.mem_cons, List.not_mem_nil, or_false] at hst
        rcases hst with rfl | rfl | rfl | rfl | rfl | rfl | rfl | rfl
        · exact hfield 0 8 (by decide) hx
        · refine (ownByte_iff hcalls).mpr (Or.inr ⟨hfail, ?_⟩)
          simpa [Store.span] using hx
        · exact hfield 0 8 (by decide) hx
        · exact hfield 0 8 (by decide) hx
        · exact hfield 0 8 (by decide) hx
        · exact hfield 8 8 (by decide) hx
        · exact hfield 24 4 (by decide) hx
        · exact hfield 28 4 (by decide) hx
    · have hno : ∀ newProc base h', ¬ Calls m.heap newProc base h' := by
        simpa only [not_exists] using hreturn
      rw [createProcessStores_nil hno] at hst
      cases hst
  · intro newProc base h' hcalls hor st hst
    obtain ⟨hn, -⟩ := hc newProc base h' hcalls
    obtain rfl := hor.resolve_left hn
    rw [createProcessStores_enomem hcalls] at hst
    obtain rfl := List.mem_singleton.mp hst
    exact hn

/-- **`create_process` writes only what it owns** exactly where it finds no stack, or one that ends
where its control block begins. -/
theorem writesOwned_iff (m : Machine) : WritesOwned m ↔ Contained m.heap :=
  ⟨contained_of_writesOwned, writesOwned_of_contained⟩

/-- While the searches stay inside `heap.bitmap`, no stack ends where the control block begins. -/
theorem stack_not_below (hc : Calls h newProc base h') (hin : SearchInside h sizeofTcb)
    (hin' : SearchInside h' kernelStackSize) (hn : newProc ≠ enomemPtr) (hb : base ≠ enomemPtr) :
    base + kernelStackSize ≠ newProc := by
  obtain ⟨hm, h'', hm'⟩ := hc
  obtain ⟨s, rfl, hs, -, haddr, hmap⟩ := malloc_inside (by decide) hin hm hn
  obtain ⟨s', rfl, hs', hfits, -, -⟩ := malloc_inside (by decide) hin' hm' hb
  have hblocks : heapBlocks = 6553600 := by decide
  have htcb : sizeofTcb.toNat / blockSize = 2 := by decide
  have hstack : kernelStackSize.toNat / blockSize = 256 := by decide
  rw [htcb] at hs hmap
  rw [hstack] at hs' hfits
  intro he
  -- the block of the control block would be free among those of the stack
  have hblock : s = s' + 32 := by
    rw [haddr] at he
    have := congrArg (fun x => (x - h.heapAddr).toNat) he
    simp only [kernelStackSize] at this
    bv_omega
  have hfree : Free h'.bitmap s := hfits.free_of_mem (by omega) (by omega)
  rw [Free, hmap] at hfree
  have hused : testBit (setBits h.bitmap s 2) s = true :=
    (testBit_setBits _ _ _ _).mpr (Or.inl ⟨s, Nat.le_refl s, by omega, Shares.refl s⟩)
  rw [hused] at hfree
  cases hfree

/-- A call that returns stores `main` above its stack, while the searches stay inside. -/
theorem createProcess_not_writesOwned (hc : createProcess m main = some (t, m'))
    (hin : SearchInside m.heap sizeofTcb)
    (hin' : ∀ ptr h', malloc m.heap sizeofTcb = some (ptr, h') → SearchInside h' kernelStackSize) :
    ¬ WritesOwned m := by
  intro hw
  obtain ⟨h', base, hm, hm', hb, -, -⟩ := (createProcess_created hc).heap
  have hcalls : Calls m.heap t base h' := ⟨hm, _, hm'⟩
  exact stack_not_below hcalls hin (hin' t h' hm) (hw.newProc_ne hcalls) hb (hw.above hcalls hb)

/-- On a fresh heap at 16 MiB `main` is stored above the stack. -/
theorem not_writesOwned_fresh : ¬ WritesOwned (ringOfThree .ready) := by
  intro hw
  let h₀ := heapInit (fun _ => 0) 0x1000000
  let h₁ := takeBlocks h₀ sizeofTcb 0
  have hm₀ : malloc h₀ sizeofTcb = some (0xffff800001000000, h₁) := by
    rw [malloc_of_start (r := 0) (by decide) (by decide +kernel) (by decide)]; rfl
  have hm₁ : malloc h₁ kernelStackSize =
      some (0xffff800001001100, takeBlocks h₁ kernelStackSize 34) := by
    rw [malloc_of_start (r := 34) (by decide) (by decide +kernel) (by decide)]; rfl
  have hcalls : Calls (ringOfThree .ready).heap 0xffff800001000000 0xffff800001001100 h₁ :=
    ⟨hm₀, _, hm₁⟩
  exact absurd (hw.above hcalls (by decide)) (by decide)

end FrazzOS.Proc
