import FrazzOS.Heap.Malloc
import FrazzOS.Support.Memory

/-!
# Heap — exclusivity

Runs of `malloc` with the ranges its successful calls returned (`Arena`, `ArenaStep`).

`heap_exclusive`: in every run after `heap_init` whose requests are of at least `BLOCK_SIZE` and
whose searches stay inside `heap.bitmap`, the byte ranges of any two successful calls are
disjoint.  What carries the run is that every block handed out tests used (`Arena.Marked`); a
block's pointer is 128 bytes behind that of the block before, so ranges of disjoint blocks are
disjoint although `size / BLOCK_SIZE` rounds down (`bytes_disjoint`).
-/

namespace FrazzOS.Heap
open Bitmap CInt FirstFit Runs

/-- The bytes `[ptr, ptr + size)`. -/
def bytes (ptr size : BitVec 64) : Set (BitVec 64) := {x | (x - ptr).toNat < size.toNat}

/-- The bytes at an offset from a base, in offsets from it, where the end does not wrap. -/
theorem mem_bytes_offset {base size x : BitVec 64} {k : Nat} (hk : k < 18446744073709551616)
    (hend : k + size.toNat < 18446744073709551616) :
    x ∈ bytes (base + BitVec.ofNat 64 k) size ↔
      k ≤ (x - base).toNat ∧ (x - base).toNat < k + size.toNat :=
  Memory.mem_span_offset hk (Nat.le_of_lt hend)

/-- The heap, and the successful calls so far: each pointer with its size. -/
structure Arena where
  heap : HeapState
  given : List (BitVec 64 × BitVec 64)

/-- The search of this request reads words of `heap.bitmap` only. -/
def SearchInside (h : HeapState) (size : BitVec 64) : Prop :=
  h.freeBlocks < blockCount size ∨
    ∃ start, findFit (within heapWords h.bitmap) bufferLongSize (blockCount size).toNat =
      some (some start)

/-- One call of `malloc` that returns, of at least `BLOCK_SIZE` bytes and with its search inside
`heap.bitmap`. -/
inductive ArenaStep : Arena → BitVec 64 → Arena → Prop where
  | ok {A : Arena} {size ptr : BitVec 64} {h' : HeapState} : blockSize ≤ size.toNat →
      SearchInside A.heap size → malloc A.heap size = some (ptr, h') → ptr ≠ enomemPtr →
      ArenaStep A size ⟨h', (ptr, size) :: A.given⟩
  | fail {A : Arena} {size : BitVec 64} {h' : HeapState} : blockSize ≤ size.toNat →
      SearchInside A.heap size → malloc A.heap size = some (enomemPtr, h') →
      ArenaStep A size ⟨h', A.given⟩

/-- `given` holds the range of the blocks from `start` on, and these test used. -/
def BlocksOf (h : HeapState) (g : BitVec 64 × BitVec 64) (start : Nat) : Prop :=
  g.1 = h.heapAddr + BitVec.ofNat 64 (128 * start) ∧ blockSize ≤ g.2.toNat ∧
  start + g.2.toNat / blockSize ≤ heapBlocks ∧
  ∀ b, start ≤ b → b < start + g.2.toNat / blockSize → testBit h.bitmap b = true

/-- Every block handed out tests used, and the ranges handed out are disjoint. -/
def Arena.Marked (A : Arena) : Prop :=
  (∀ g ∈ A.given, ∃ start, BlocksOf A.heap g start) ∧
  A.given.Pairwise fun g g' => Disjoint (bytes g.1 g.2) (bytes g'.1 g'.2)

/-- The ranges of two block runs, one behind the other. -/
theorem bytes_disjoint {base size size' : BitVec 64} {s s' : Nat} (hsize : blockSize ≤ size.toNat)
    (hlt : s + size.toNat / blockSize ≤ s')
    (hend : s' + size'.toNat / blockSize ≤ heapBlocks) :
    Disjoint (bytes (base + BitVec.ofNat 64 (128 * s)) size)
      (bytes (base + BitVec.ofNat 64 (128 * s')) size') := by
  rw [Set.disjoint_left]
  intro x hx hx'
  have hb : heapBlocks = 6553600 := by decide
  unfold blockSize at hsize hlt hend
  obtain ⟨h₀, h₁⟩ := (mem_bytes_offset (by omega) (by omega)).mp hx
  obtain ⟨h₂, -⟩ := (mem_bytes_offset (by omega) (by omega)).mp hx'
  omega

/-- A successful call inside the array, with the region it found. -/
theorem malloc_inside {h h' : HeapState} {size ptr : BitVec 64} (hsize : blockSize ≤ size.toNat)
    (hin : SearchInside h size) (hm : malloc h size = some (ptr, h')) (hne : ptr ≠ enomemPtr) :
    ∃ start : Nat, ptr = h.heapAddr + BitVec.ofNat 64 (128 * start) ∧
      start + size.toNat / blockSize ≤ heapBlocks ∧
      Fits (Free h.bitmap) (size.toNat / blockSize) start ∧
      h'.heapAddr = h.heapAddr ∧
      h'.bitmap = setBits h.bitmap start (size.toNat / blockSize) := by
  rcases malloc_cases hm with ⟨-, he, -⟩ | ⟨r, -, hfree, hr, hr₁, rfl, rfl⟩
  · exact absurd he hne
  have hpos : 0 < (blockCount size).toNat := by
    rw [blockCount_toNat]; unfold blockSize at *; omega
  rcases hin with hlt | ⟨r', hr'⟩
  · exact absurd hlt (BitVec.not_lt.mpr hfree)
  obtain ⟨hrun, hcase⟩ := findFit_within (by decide) bufferLongSize_le hpos hr'
  obtain rfl : r' = r := Option.some.inj (hrun.symm.trans hr)
  obtain ⟨h₀, hend⟩ := hcase.resolve_left hr₁
  obtain ⟨start, rfl⟩ := Int.eq_ofNat_of_zero_le h₀
  have hend' : start + (blockCount size).toNat ≤ heapBlocks := by
    have : heapWords * bitsPerBlock = heapBlocks := by decide
    omega
  have hblocks : heapBlocks = 6553600 := by decide
  have hlt : start < 6553600 := by omega
  have hf := findFit_free bufferLongSize_le h₀ (by omega) hrun
  rw [← blockCount_toNat]
  refine ⟨start, blockPtr_eq h (by omega), hend', by simpa using hf, rfl, ?_⟩
  simp only [takeBlocks, markedRange_eq (show start < 2147483648 by omega)]

/-- Marking more blocks keeps the ones handed out. -/
theorem BlocksOf.mono {h h' : HeapState} {g : BitVec 64 × BitVec 64} {start s n : Nat}
    (hg : BlocksOf h g start) (haddr : h'.heapAddr = h.heapAddr)
    (hmap : h'.bitmap = setBits h.bitmap s n) : BlocksOf h' g start := by
  obtain ⟨hp, hsz, hend, hused⟩ := hg
  refine ⟨haddr ▸ hp, hsz, hend, fun b h₀ h₁ => ?_⟩
  rw [hmap, testBit_setBits]
  exact Or.inr (hused b h₀ h₁)

/-- **One call keeps every block handed out marked, and the ranges disjoint.** -/
theorem Arena.Marked.step {A A' : Arena} {size : BitVec 64} (hA : A.Marked)
    (hs : ArenaStep A size A') : A'.Marked := by
  obtain ⟨hblocks, hdisj⟩ := hA
  cases hs with
  | fail hsize hin hm =>
      rcases malloc_cases hm with ⟨-, -, rfl⟩ | ⟨r, hb, hfree, hr, hr₁, he, rfl⟩
      · exact ⟨hblocks, hdisj⟩
      · refine ⟨fun g hg => ?_, hdisj⟩
        obtain ⟨start, hst⟩ := hblocks g hg
        exact ⟨start, hst.mono rfl rfl⟩
  | ok hsize hin hm hne =>
      obtain ⟨s, rfl, hend, hf, haddr, hmap⟩ := malloc_inside hsize hin hm hne
      refine ⟨?_, ?_⟩
      · intro g hg
        rcases List.mem_cons.mp hg with rfl | hg
        · refine ⟨s, by rw [haddr], hsize, hend, fun b h₀ h₁ => ?_⟩
          rw [hmap, testBit_setBits]
          exact Or.inl ⟨b, h₀, h₁, Shares.refl b⟩
        · obtain ⟨start, hst⟩ := hblocks g hg
          exact ⟨start, hst.mono haddr hmap⟩
      · refine List.pairwise_cons.mpr ⟨fun g hg => ?_, hdisj⟩
        obtain ⟨start, hp, hsz, hend', hused⟩ := hblocks g hg
        rw [hp]
        -- a block of both runs would test both used and free
        have hapart : ∀ b, s ≤ b → b < s + size.toNat / blockSize → start ≤ b →
            ¬ b < start + g.2.toNat / blockSize := by
          intro b h₀ h₁ h₂ h₃
          have hfree : Free A.heap.bitmap b := hf.free_of_mem h₀ h₁
          rw [Free, hused b h₂ h₃] at hfree
          cases hfree
        have hn : 0 < size.toNat / blockSize := by unfold blockSize at *; omega
        have hn' : 0 < g.2.toNat / blockSize := by unfold blockSize at *; omega
        by_cases hle : s ≤ start
        · have := hapart start hle
          exact bytes_disjoint hsize (by simp only; omega) hend'
        · have := hapart s (Nat.le_refl s) (by omega) (by omega)
          exact (bytes_disjoint hsz (by omega) hend).symm

/-- **Heap exclusivity**: the byte ranges of any two successful calls of a run are disjoint. -/
theorem heap_exclusive {words : Words} {frame : BitVec 64} {sizes : List (BitVec 64)} {A : Arena}
    (h : Run ArenaStep ⟨heapInit words frame, []⟩ sizes A) :
    A.given.Pairwise fun g g' => Disjoint (bytes g.1 g.2) (bytes g'.1 g'.2) := by
  have h₀ : Arena.Marked ⟨heapInit words frame, []⟩ :=
    ⟨fun g hg => absurd hg List.not_mem_nil, List.Pairwise.nil⟩
  exact (h.invariant (fun hi hs => hi.step hs) h₀).2

/-- The two requests of `create_process`, at an arena in the frame at 16 MiB. -/
theorem heap_exclusive_two :
    [(0xffff800001001100, 0x1000), (0xffff800001000000, 32)].Pairwise
      fun g g' : BitVec 64 × BitVec 64 => Disjoint (bytes g.1 g.2) (bytes g'.1 g'.2) := by
  let h₀ := heapInit (fun _ => 0) 0x1000000
  let h₁ := takeBlocks h₀ 32 0
  have hm₀ : malloc h₀ 32 = some (0xffff800001000000, h₁) := by
    rw [malloc_of_start (r := 0) (by decide) (by decide +kernel) (by decide)]; rfl
  have hm₁ : malloc h₁ 0x1000 = some (0xffff800001001100, takeBlocks h₁ 0x1000 34) := by
    rw [malloc_of_start (r := 34) (by decide) (by decide +kernel) (by decide)]; rfl
  refine heap_exclusive (.cons (.ok (by decide) (Or.inr ⟨0, by decide +kernel⟩) hm₀ (by decide))
    (.one (.ok (by decide) (Or.inr ⟨34, by decide +kernel⟩) hm₁ (by decide))))

end FrazzOS.Heap
