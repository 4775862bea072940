import FrazzOS.Vmm.Refine

/-!
# Vmm — Rounds

A loop over `vmm_map_page` that steps two addresses by `PAGE_SIZE`: its rounds as calls
(`roundOps`), and what they make of the map.

* `foldl_mapPage`: the loop is the run of these calls.
* `foldl_miss`, `foldl_hit`: a page keeps its leaf, or gets that of the rounds that map it.
-/

namespace FrazzOS.Vmm

/-- The page that round `k` of a loop maps. -/
def roundPage (virt : BitVec 64 → BitVec 64) (k : Nat) : BitVec 36 :=
  pageNumber (virt (BitVec.ofNat 64 (k * pageSize)))

/-- The calls of some rounds. -/
def roundOps (phys virt : BitVec 64 → BitVec 64) (flags : BitVec 32) (rounds : List Nat) :
    List VmmOp :=
  rounds.map fun k =>
    let i := BitVec.ofNat 64 (k * pageSize)
    .map (phys i) (virt i) flags

theorem pageNumber_toNat (virt : BitVec 64) :
    (pageNumber virt).toNat = virt.toNat / pageSize % 68719476736 := by
  rw [pageNumber, BitVec.extractLsb'_toNat, Nat.shiftRight_eq_div_pow]
  rfl

/-- A call through the root's higher-half address is the call through its own. -/
theorem vmmMapPage_physToHh {frames : Nat → BitVec 64} {s : VmmState} {root : BitVec 64}
    (hroot : Frame root) (phys virt : BitVec 64) (flags : BitVec 32) :
    vmmMapPage frames s (physToHh root) phys virt flags =
      vmmMapPage frames s root phys virt flags := by
  have hnext : vmmGetNextMapLevel frames s (physToHh root) ((virtIndex 3 virt).setWidth 64) flags =
      vmmGetNextMapLevel frames s root ((virtIndex 3 virt).setWidth 64) flags := by
    simp only [vmmGetNextMapLevel, VmmState.store, entryAddr_physToHh hroot]
  rw [vmmMapPage, vmmMapPage, setLeaf_eq, setLeaf_eq, hnext]

variable {phys virt : BitVec 64 → BitVec 64} {flags : BitVec 32} {A : PageMap} {n : BitVec 36}

/-- The rounds of a loop, as calls. -/
theorem foldl_mapPage (frames : Nat → BitVec 64) (root : BitVec 64)
    (phys virt : BitVec 64 → BitVec 64) (flags : BitVec 32) (rounds : List Nat) : ∀ s : VmmState,
    rounds.foldl (fun s k =>
        let i := BitVec.ofNat 64 (k * pageSize)
        vmmMapPage frames s root (phys i) (virt i) flags) s =
      runOps frames root s (roundOps phys virt flags rounds) := by
  induction rounds with
  | nil => exact fun _ => rfl
  | cons k rounds ih =>
      intro s
      rw [List.foldl_cons, ih, roundOps, roundOps, runOps, runOps, List.map_cons, List.foldl_cons,
        VmmOp.run]

/-- The rounds that do not map a page keep its leaf. -/
theorem foldl_miss {rounds : List Nat} : ∀ {A : PageMap},
    (∀ k ∈ rounds, roundPage virt k ≠ n) →
    (roundOps phys virt flags rounds).foldl VmmOp.apply A n = A n := by
  induction rounds with
  | nil => exact fun _ => rfl
  | cons k rounds ih =>
      intro A h
      rw [roundOps, List.map_cons, List.foldl_cons]
      rw [← roundOps, ih fun j hj => h j (List.mem_cons_of_mem k hj)]
      exact Function.update_of_ne (h k List.mem_cons_self).symm _ _

/-- The rounds that map a page, all to one leaf, give it that leaf. -/
theorem foldl_hit {leaf : BitVec 64} {rounds : List Nat} : ∀ {A : PageMap},
    (∃ k ∈ rounds, roundPage virt k = n) →
    (∀ k ∈ rounds, roundPage virt k = n →
      phys (BitVec.ofNat 64 (k * pageSize)) ||| flags.signExtend 64 = leaf) →
    (roundOps phys virt flags rounds).foldl VmmOp.apply A n = some leaf := by
  induction rounds with
  | nil => rintro A ⟨k, hk, -⟩; cases hk
  | cons k rounds ih =>
      intro A hhit hleaf
      rw [roundOps, List.map_cons, List.foldl_cons, ← roundOps]
      have hrest := fun j hj => hleaf j (List.mem_cons_of_mem k hj)
      by_cases hlater : ∃ j ∈ rounds, roundPage virt j = n
      · exact ih hlater hrest
      · obtain ⟨j, hj, hn⟩ := hhit
        rcases List.mem_cons.mp hj with rfl | hj
        · rw [foldl_miss fun i hi he => hlater ⟨i, hi, he⟩, ← hleaf j List.mem_cons_self hn, ← hn]
          exact Function.update_self _ _ _
        · exact absurd ⟨j, hj, hn⟩ hlater

end FrazzOS.Vmm
