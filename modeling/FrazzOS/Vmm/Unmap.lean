import FrazzOS.Vmm.Refine

/-!
# Vmm — Unmap

What `vmm_unmap_page` uses up: it should call `pmm_alloc` never, write the leaf entry of its page
only, and however often it runs leave the upper tables as they were (`Frugal`).

`unmap_frugal_iff`: it does where the page has a table of the last level.  It takes the descent of
`vmm_map_page`, which makes a missing table.
-/

namespace FrazzOS.Vmm
open Memory

/-- `n` calls of `vmm_unmap_page`, one after the other. -/
def unmapTimes (frames : Nat → BitVec 64) (root virt : BitVec 64) : Nat → VmmState → VmmState
  | 0, s => s
  | n + 1, s => unmapTimes frames root virt n (vmmUnmapPage frames s root virt)

/-- The call takes no frame and writes the leaf entry of its page only, and any number of calls
leaves the allocator and the upper tables unchanged. -/
structure Frugal (frames : Nat → BitVec 64) (s : VmmState) (root virt : BitVec 64) : Prop where
  calls : (vmmUnmapPage frames s root virt).calls = s.calls
  writes : ∀ w ∈ unmapStores frames s root virt, ∃ t,
    tableAt s.mem root (leafPath virt) = some t ∧
      w.1 = entryAddr t ((virtIndex 0 virt).setWidth 64)
  again : ∀ n, (unmapTimes frames root virt n s).calls = s.calls ∧
    ∀ q t j, q.length ≤ 2 → tableAt s.mem root q = some t →
      entry (unmapTimes frames root virt n s).mem t j = entry s.mem t j

variable {frames : Nat → BitVec 64} {s : VmmState} {root virt t : BitVec 64}

/-- A store of a leaf leaves the entries of the upper tables. -/
theorem entry_store_leaf (hT : Tree s.mem root) (ht : tableAt s.mem root (leafPath virt) = some t)
    (e : BitVec 64) {q : List (BitVec 9)} {u : BitVec 64} (hq : q.length ≤ 2)
    (hu : tableAt s.mem root q = some u) (j : BitVec 9) :
    entry (s.store t ((virtIndex 0 virt).setWidth 64) e).mem u j = entry s.mem u j := by
  rw [entry_store (hT.frame ⟨leafPath virt, leafPath_le virt, ht⟩) (hT.frame ⟨q, by omega, hu⟩),
    if_neg]
  rintro ⟨rfl, -⟩
  rw [hT.distinct (by omega) (leafPath_le virt) hu ht, leafPath_length] at hq
  omega

/-- Calls on a page with a table of the last level. -/
theorem unmapTimes_present (n : Nat) : ∀ {s : VmmState}, Tree s.mem root →
    tableAt s.mem root (leafPath virt) = some t →
    (unmapTimes frames root virt n s).calls = s.calls ∧
      ∀ q u j, q.length ≤ 2 → tableAt s.mem root q = some u →
        entry (unmapTimes frames root virt n s).mem u j = entry s.mem u j := by
  induction n with
  | zero => exact fun _ _ => ⟨rfl, fun _ _ _ _ _ => rfl⟩
  | succ n ih =>
      intro s hT ht
      obtain ⟨htables, -⟩ := store_leaf hT virt ht 0
      obtain ⟨hcalls, hentries⟩ := ih (s := s.store t ((virtIndex 0 virt).setWidth 64) 0)
        (hT.congr htables) ((htables _ (leafPath_le virt)).trans ht)
      rw [unmapTimes, vmmUnmapPage, (setLeaf_present ht).1]
      refine ⟨hcalls, fun q u j hq hu => ?_⟩
      rw [hentries q u j hq ((htables q (by omega)).trans hu)]
      exact entry_store_leaf hT ht 0 hq hu j

/-- **Unmapping consumes nothing** exactly when the page has a table of the last level. -/
theorem unmap_frugal_iff (hT : Tree s.mem root) (virt : BitVec 64) :
    Frugal frames s root virt ↔ ∃ t, tableAt s.mem root (leafPath virt) = some t := by
  constructor
  · intro h
    cases ht : tableAt s.mem root (leafPath virt) with
    | some t => exact ⟨t, rfl⟩
    | none =>
        have hlt : s.calls.length < (vmmUnmapPage frames s root virt).calls.length :=
          calls_of_missing ht
        rw [h.calls] at hlt
        exact absurd hlt (Nat.lt_irrefl _)
  · rintro ⟨t, ht⟩
    obtain ⟨hset, hstores⟩ := @setLeaf_present frames s root virt 0 0 t ht
    refine ⟨?_, fun w hw => ?_, fun n => unmapTimes_present n hT ht⟩
    · rw [vmmUnmapPage, hset]
      rfl
    · rw [unmapStores, hstores, List.mem_singleton] at hw
      exact ⟨t, ht, by rw [hw]⟩

/-- One of two pages that are mapped. -/
theorem unmap_frugal_iff_mapped :
    Frugal (framesFrom 0x2000) (runOps (framesFrom 0x2000) 0x1000 ⟨fun _ => 0, []⟩ twoPages) 0x1000
        0x400000 ↔
      ∃ t, tableAt (runOps (framesFrom 0x2000) 0x1000 ⟨fun _ => 0, []⟩ twoPages).mem 0x1000
        (leafPath 0x400000) = some t :=
  unmap_frugal_iff pool_twoPages.tree 0x400000

/-! ### An empty address space -/

/-- Below an empty root every call takes three frames. -/
theorem unmap_consumes : ¬ ∀ (frames : Nat → BitVec 64) (s : VmmState) (root virt : BitVec 64),
    Tree s.mem root → virt.toNat % pageSize = 0 → Frugal frames s root virt := by
  intro hall
  have h := hall (framesFrom 0x2000) ⟨fun _ => 0, []⟩ 0x1000 0x400000 tree_empty (by decide)
  have hmiss : tableAt (fun _ => 0) 0x1000 (leafPath 0x400000) = none :=
    tableAt_empty (fun i => read_zero _) (List.cons_ne_nil _ _)
  have hlt := @calls_of_missing (framesFrom 0x2000) ⟨fun _ => 0, []⟩ 0x1000 0x400000 0 0 hmiss
  have hcalls : (setLeaf (framesFrom 0x2000) ⟨fun _ => 0, []⟩ 0x1000 0x400000 0 0).calls = [] :=
    h.calls
  rw [hcalls] at hlt
  exact absurd hlt (Nat.lt_irrefl _)

end FrazzOS.Vmm
