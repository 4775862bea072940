import FrazzOS.Vmm.Level

/-!
# Vmm — Stores

The entries that `vmm_map_page` and `vmm_unmap_page` write, in their order, each with its address:
one for every table that is missing on the way, and the leaf.

* `setLeaf_mem`: the memory after a call is the one before with these writes.
* `setLeaf_present`: with no table missing, the leaf is the only one, and `pmm_alloc` is not
  called; `calls_of_missing`: otherwise it is.
-/

namespace FrazzOS.Vmm
open Memory

/-- A write of a word, by its address and its value. -/
abbrev Store := BitVec 64 × BitVec 64

/-- The writes of a list, in order. -/
def applyStores (m : Mem) (stores : List Store) : Mem :=
  stores.foldl (fun m w => write m w.1 w.2) m

variable (frames : Nat → BitVec 64)

/-- What `vmm_get_next_map_level` writes. -/
def nextStores (s : VmmState) (pageDirectory index : BitVec 64) (flags : BitVec 32) : List Store :=
  if read s.mem (entryAddr pageDirectory index) &&& 1 ≠ 0 then []
  else [(entryAddr pageDirectory index, frames s.calls.length ||| flags.signExtend 64)]

/-- What `vmm_map_page` and `vmm_unmap_page` write. -/
def leafStores (s : VmmState) (rootPageDir virt : BitVec 64) (flags : BitVec 32)
    (leaf : BitVec 64) : List Store :=
  let n₃ := vmmGetNextMapLevel frames s rootPageDir (levelIndex 39 virt) flags
  let n₂ := vmmGetNextMapLevel frames n₃.2 n₃.1 (levelIndex 30 virt) flags
  let n₁ := vmmGetNextMapLevel frames n₂.2 n₂.1 (levelIndex 21 virt) flags
  nextStores frames s rootPageDir (levelIndex 39 virt) flags ++
    nextStores frames n₃.2 n₃.1 (levelIndex 30 virt) flags ++
    nextStores frames n₂.2 n₂.1 (levelIndex 21 virt) flags ++
    [(entryAddr n₁.1 (levelIndex 12 virt), leaf)]

def mapStores (s : VmmState) (rootPageDir phys virt : BitVec 64) (flags : BitVec 32) : List Store :=
  leafStores frames s rootPageDir virt flags (phys ||| flags.signExtend 64)

def unmapStores (s : VmmState) (rootPageDir virt : BitVec 64) : List Store :=
  leafStores frames s rootPageDir virt 0 0

variable {frames} {s : VmmState} {root dir index virt leaf : BitVec 64} {flags : BitVec 32}

/-- A level writes what is on its list. -/
theorem getNext_mem : (vmmGetNextMapLevel frames s dir index flags).2.mem =
    applyStores s.mem (nextStores frames s dir index flags) := by
  rw [vmmGetNextMapLevel, nextStores]
  split <;> rfl

/-- **A call writes what is on its list.** -/
theorem setLeaf_mem : (setLeaf frames s root virt flags leaf).mem =
    applyStores s.mem (leafStores frames s root virt flags leaf) := by
  have happ : ∀ (m : Mem) (l l' : List Store),
      applyStores m (l ++ l') = applyStores (applyStores m l) l' := fun m l l' => by
    rw [applyStores, applyStores, applyStores, List.foldl_append]
  rw [leafStores, happ, happ, happ, ← getNext_mem, ← getNext_mem, ← getNext_mem]
  rfl

/-! ### Present and missing tables -/

/-- A level calls `pmm_alloc` once, or not at all. -/
theorem getNext_calls : (vmmGetNextMapLevel frames s dir index flags).2.calls.length =
    s.calls.length + (if read s.mem (entryAddr dir index) &&& 1 ≠ 0 then 0 else 1) := by
  rw [vmmGetNextMapLevel]
  split <;> rfl

/-- The table of the next level, where its entry is present. -/
theorem tableAt_next {i : BitVec 9} {p : List (BitVec 9)} {t t' : BitVec 64}
    (ht : tableAt s.mem root p = some t) (ht' : tableAt s.mem root (i :: p) = some t') :
    Present (entry s.mem t i) ∧ tableOf (entry s.mem t i) = t' := by
  rw [tableAt_cons ht, nextTable] at ht'
  split at ht'
  · exact ⟨by assumption, Option.some.inj ht'⟩
  · cases ht'

/-- The tables on the way to a table of the last level. -/
theorem tableAt_leafPath {t : BitVec 64} (ht : tableAt s.mem root (leafPath virt) = some t) :
    ∃ t₃ t₂, tableAt s.mem root [virtIndex 3 virt] = some t₃ ∧
      tableAt s.mem root [virtIndex 2 virt, virtIndex 3 virt] = some t₂ := by
  rw [leafPath, tableAt] at ht
  obtain ⟨t₂, h₂, -⟩ := Option.bind_eq_some_iff.mp ht
  have h₂' := h₂
  rw [tableAt] at h₂'
  obtain ⟨t₃, h₃, -⟩ := Option.bind_eq_some_iff.mp h₂'
  exact ⟨t₃, t₂, h₃, h₂⟩

/-- **With no table missing**, a call writes the leaf only. -/
theorem setLeaf_present {t : BitVec 64} (ht : tableAt s.mem root (leafPath virt) = some t) :
    setLeaf frames s root virt flags leaf = s.store t ((virtIndex 0 virt).setWidth 64) leaf ∧
      leafStores frames s root virt flags leaf =
        [(entryAddr t ((virtIndex 0 virt).setWidth 64), leaf)] := by
  obtain ⟨t₃, t₂, h₃, h₂⟩ := tableAt_leafPath ht
  obtain ⟨hp₃, he₃⟩ := tableAt_next (p := []) rfl h₃
  obtain ⟨hp₂, he₂⟩ := tableAt_next h₃ h₂
  obtain ⟨hp₁, he₁⟩ := tableAt_next h₂ ht
  have hn₃ := @getNext_present frames _ _ _ flags hp₃
  have hn₂ := @getNext_present frames _ _ _ flags hp₂
  have hn₁ := @getNext_present frames _ _ _ flags hp₁
  rw [he₃] at hn₃
  rw [he₂] at hn₂
  rw [he₁] at hn₁
  have hs : ∀ {t i}, Present (entry s.mem t i) →
      nextStores frames s t (i.setWidth 64) flags = [] := fun h => if_pos h
  constructor
  · rw [setLeaf_eq]
    simp only [hn₃, hn₂, hn₁]
  · rw [leafStores, levelIndex_eq virt (show 3 < 4 by decide),
      levelIndex_eq virt (show 2 < 4 by decide), levelIndex_eq virt (show 1 < 4 by decide),
      levelIndex_eq virt (show 0 < 4 by decide)]
    simp only [hn₃, hn₂, hn₁, hs hp₃, hs hp₂, hs hp₁, List.nil_append]

/-- **With a table missing**, a call asks `pmm_alloc` for a frame. -/
theorem calls_of_missing (h : tableAt s.mem root (leafPath virt) = none) :
    s.calls.length < (setLeaf frames s root virt flags leaf).calls.length := by
  have hgrow : ∀ (s : VmmState) (dir index : BitVec 64),
      s.calls.length ≤ (vmmGetNextMapLevel frames s dir index flags).2.calls.length :=
    fun s dir index => by rw [getNext_calls]; exact Nat.le_add_right _ _
  have hmiss : ∀ {t i}, ¬ Present (entry s.mem t i) →
      s.calls.length < (vmmGetNextMapLevel frames s t (i.setWidth 64) flags).2.calls.length :=
    fun h => by rw [getNext_absent h]; exact Nat.lt_succ_self _
  rw [setLeaf_eq]
  simp only
  by_cases hp₃ : Present (entry s.mem root (virtIndex 3 virt))
  · rw [getNext_present hp₃]
    have h₃ : tableAt s.mem root [virtIndex 3 virt] =
        some (tableOf (entry s.mem root (virtIndex 3 virt))) := by
      rw [tableAt_cons rfl, nextTable, if_pos hp₃]
    by_cases hp₂ : Present (entry s.mem (tableOf (entry s.mem root (virtIndex 3 virt)))
        (virtIndex 2 virt))
    · rw [getNext_present hp₂]
      have h₂ := tableAt_cons (j := virtIndex 2 virt) h₃
      rw [nextTable, if_pos hp₂] at h₂
      refine hmiss fun hp₁ => ?_
      rw [leafPath, tableAt_cons h₂, nextTable, if_pos hp₁] at h
      cases h
    · exact Nat.lt_of_lt_of_le (hmiss hp₂) (hgrow _ _ _)
  · exact Nat.lt_of_lt_of_le (hmiss hp₃) (Nat.le_trans (hgrow _ _ _) (hgrow _ _ _))

end FrazzOS.Vmm
