import FrazzOS.Bitmap.Search
import FrazzOS.Vmm.Mmap
import FrazzOS.Vmm.Stores

/-!
# Vmm — Oom

What becomes of a failed `pmm_alloc`.  Neither `vmm_get_next_map_level` nor `mmap` looks at what it
returned, so `ENOMEM` is stored as a table, or mapped page by page.

`oom_never_safe`: a call of `vmm_map_page` that a failed allocation meets installs it, and `mmap`
returns the address it was given.
-/

namespace FrazzOS.Vmm
open Bitmap Memory

/-- An entry made of `ENOMEM`, or of a page behind it. -/
def FromEnomem (flags : BitVec 32) (e : BitVec 64) : Prop :=
  ∃ k, e = pageFrom enomemPtr k ||| flags.signExtend 64

/-- What a call writes. -/
def VmmOp.stores (frames : Nat → BitVec 64) (root : BitVec 64) (s : VmmState) : VmmOp → List Store
  | .map phys virt flags => mapStores frames s root phys virt flags
  | .unmap virt => unmapStores frames s root virt

/-- What a run of calls writes. -/
def runStores (frames : Nat → BitVec 64) (root : BitVec 64) : VmmState → List VmmOp → List Store
  | _, [] => []
  | s, op :: ops => op.stores frames root s ++ runStores frames root (op.run frames root s) ops

/-- What `mmap` writes. -/
def mmapStores (frames : Nat → BitVec 64) (s : VmmState) (root ptr addr size : BitVec 64)
    (flags : BitVec 32) : List Store :=
  runStores frames root s (mmapOps ptr addr size flags)

/-- Every translation of `m` is one of `m'`. -/
def KeepsWalks (m m' : Mem) (root : BitVec 64) : Prop :=
  ∀ virt leaf, walk m root virt = some leaf → walk m' root virt = some leaf

/-- A call of `pmm_alloc` that `vmm_map_page` makes on the way returns `ENOMEM`. -/
def OutOfMemory (frames : Nat → BitVec 64) (s : VmmState) (root phys virt : BitVec 64)
    (flags : BitVec 32) : Prop :=
  ∃ k, s.calls.length ≤ k ∧ k < (vmmMapPage frames s root phys virt flags).calls.length ∧
    frames k = enomemPtr

/-- `vmm_map_page` lets no `ENOMEM` through. -/
structure MapSafe (frames : Nat → BitVec 64) (s : VmmState) (root phys virt : BitVec 64)
    (flags : BitVec 32) : Prop where
  stores : ∀ w ∈ mapStores frames s root phys virt flags, ¬ FromEnomem flags w.2
  walks : KeepsWalks s.mem (vmmMapPage frames s root phys virt flags).mem root

/-- `mmap`, for which `pmm_alloc` returned `ENOMEM`, lets it not through and reports the failure. -/
structure MmapSafe (frames : Nat → BitVec 64) (s : VmmState) (root addr size : BitVec 64)
    (flags : BitVec 32) : Prop where
  stores : ∀ w ∈ mmapStores frames s root enomemPtr addr size flags, ¬ FromEnomem flags w.2
  walks : KeepsWalks s.mem (mmap frames s root enomemPtr addr size flags).2.mem root
  result : (mmap frames s root enomemPtr addr size flags).1 ≠ addr

variable {frames : Nat → BitVec 64} {s : VmmState} {root dir index phys virt addr size : BitVec 64}
  {flags : BitVec 32}

/-! ### What the calls write -/

/-- A run writes what is on its list. -/
theorem runOps_mem (ops : List VmmOp) : ∀ s : VmmState,
    (runOps frames root s ops).mem = applyStores s.mem (runStores frames root s ops) := by
  induction ops with
  | nil => exact fun _ => rfl
  | cons op ops ih =>
      intro s
      have hop : (op.run frames root s).mem = applyStores s.mem (op.stores frames root s) := by
        cases op <;> exact setLeaf_mem
      have hrest := ih (op.run frames root s)
      rw [hop] at hrest
      rw [runStores, applyStores, List.foldl_append]
      exact hrest

theorem mmap_mem (ptr : BitVec 64) : (mmap frames s root ptr addr size flags).2.mem =
    applyStores s.mem (mmapStores frames s root ptr addr size flags) := by
  rw [mmap_eq_runOps]
  exact runOps_mem _ s

/-! ### `ENOMEM` among them -/

/-- The frame of a call of `pmm_alloc` that a level makes is linked. -/
theorem mem_nextStores {k : Nat} (h₀ : s.calls.length ≤ k)
    (h₁ : k < (vmmGetNextMapLevel frames s dir index flags).2.calls.length) :
    ∃ w ∈ nextStores frames s dir index flags, w.2 = frames k ||| flags.signExtend 64 := by
  rw [getNext_calls] at h₁
  rw [nextStores]
  split at h₁
  · omega
  · rename_i habsent
    obtain rfl : k = s.calls.length := by omega
    rw [if_neg habsent]
    exact ⟨_, List.mem_singleton_self _, rfl⟩

/-- **The frame of a call of `pmm_alloc` is linked**, whatever it is. -/
theorem mem_leafStores {leaf : BitVec 64} {k : Nat} (h₀ : s.calls.length ≤ k)
    (h₁ : k < (setLeaf frames s root virt flags leaf).calls.length) :
    ∃ w ∈ leafStores frames s root virt flags leaf, w.2 = frames k ||| flags.signExtend 64 := by
  let n₃ := vmmGetNextMapLevel frames s root (levelIndex 39 virt) flags
  let n₂ := vmmGetNextMapLevel frames n₃.2 n₃.1 (levelIndex 30 virt) flags
  have h₁' : k < (vmmGetNextMapLevel frames n₂.2 n₂.1 (levelIndex 21 virt) flags).2.calls.length :=
    h₁
  simp only [leafStores, List.mem_append]
  by_cases hk₃ : k < n₃.2.calls.length
  · obtain ⟨w, hw, he⟩ := mem_nextStores h₀ hk₃
    exact ⟨w, Or.inl (Or.inl (Or.inl hw)), he⟩
  · by_cases hk₂ : k < n₂.2.calls.length
    · obtain ⟨w, hw, he⟩ := mem_nextStores (Nat.not_lt.mp hk₃) hk₂
      exact ⟨w, Or.inl (Or.inl (Or.inr hw)), he⟩
    · obtain ⟨w, hw, he⟩ := mem_nextStores (Nat.not_lt.mp hk₂) h₁'
      exact ⟨w, Or.inl (Or.inr hw), he⟩

theorem fromEnomem (flags : BitVec 32) : FromEnomem flags (enomemPtr ||| flags.signExtend 64) :=
  ⟨0, by rw [pageFrom, Nat.zero_mul, BitVec.add_zero]⟩

/-- **A failed allocation is installed** as a table. -/
theorem OutOfMemory.installs (h : OutOfMemory frames s root phys virt flags) :
    ∃ w ∈ mapStores frames s root phys virt flags, FromEnomem flags w.2 := by
  obtain ⟨k, h₀, h₁, hk⟩ := h
  obtain ⟨w, hw, he⟩ := mem_leafStores h₀ h₁
  rw [hk] at he
  exact ⟨w, hw, he ▸ fromEnomem flags⟩

/-- **A failed allocation of `mmap` is mapped**, where a page is asked for. -/
theorem mmap_installs (hpages : 0 < mmapPages size) :
    ∃ w ∈ mmapStores frames s root enomemPtr addr size flags, FromEnomem flags w.2 := by
  obtain ⟨n, hn⟩ : ∃ n, mmapRounds size = n + 1 :=
    ⟨mmapRounds size - 1, by unfold mmapRounds pageSize; omega⟩
  obtain ⟨w, hw, he⟩ : ∃ w ∈ mapStores frames s root (pageFrom enomemPtr 0) (pageFrom addr 0) flags,
      w.2 = pageFrom enomemPtr 0 ||| flags.signExtend 64 :=
    ⟨_, List.mem_append_right _ (List.mem_singleton_self _), rfl⟩
  refine ⟨w, ?_, 0, he⟩
  rw [mmapStores, mmapOps, roundOps, hn, List.range_succ_eq_map, List.map_cons, runStores]
  exact List.mem_append_left _ hw

/-- **`ENOMEM` always reaches the page tables**: a call of `vmm_map_page` that meets a failed
allocation is not safe, and no call of `mmap` whose own allocation failed is. -/
theorem oom_never_safe (h : OutOfMemory frames s root phys virt flags) (addr size : BitVec 64) :
    ¬ MapSafe frames s root phys virt flags ∧ ¬ MmapSafe frames s root addr size flags := by
  constructor
  · intro hsafe
    obtain ⟨w, hw, he⟩ := h.installs
    exact hsafe.stores w hw he
  · intro hsafe
    exact hsafe.result rfl

/-! ### An empty address space -/

/-- With no memory left, the first level of an empty root fails. -/
theorem outOfMemory_empty :
    OutOfMemory (fun _ => enomemPtr) ⟨fun _ => 0, []⟩ 0x1000 0x5000 0x400000 3 := by
  have hmiss : tableAt (fun _ => 0) 0x1000 (leafPath 0x400000) = none :=
    tableAt_empty (fun i => read_zero _) (List.cons_ne_nil _ _)
  exact ⟨0, Nat.le_refl 0,
    @calls_of_missing (fun _ => enomemPtr) ⟨fun _ => 0, []⟩ 0x1000 0x400000 _ 3 hmiss, rfl⟩

theorem oom_never_safe_empty :
    ¬ MapSafe (fun _ => enomemPtr) ⟨fun _ => 0, []⟩ 0x1000 0x5000 0x400000 3 ∧
      ¬ MmapSafe (fun _ => enomemPtr) ⟨fun _ => 0, []⟩ 0x1000 0x400000 0x1000 3 :=
  oom_never_safe outOfMemory_empty 0x400000 0x1000

/-- Out-of-memory never reaches the page tables. -/
def OomHandled : Prop :=
  ∀ (frames : Nat → BitVec 64) (s : VmmState) (root phys virt addr size : BitVec 64)
    (flags : BitVec 32), Tree s.mem root → OutOfMemory frames s root phys virt flags →
    MapSafe frames s root phys virt flags ∧ MmapSafe frames s root addr size flags

theorem oom_reaches_tables : ¬ OomHandled := by
  intro hall
  obtain ⟨hmap, -⟩ := hall (fun _ => enomemPtr) ⟨fun _ => 0, []⟩ 0x1000 0x5000 0x400000 0x400000
    0x1000 3 tree_empty outOfMemory_empty
  obtain ⟨w, hw, he⟩ := outOfMemory_empty.installs
  exact hmap.stores w hw he

end FrazzOS.Vmm
