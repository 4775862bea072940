import FrazzOS.Vmm.Tree

/-!
# Vmm — Level

One level of the descent, `vmm_get_next_map_level`, over a tree of tables.

* `getNext_map`: with the flags of a mapping, from a table of the tree to the next one, which it
  links when it is missing.
* `getNext_dangling`: with no `PTE_PRESENT`, a missing table is not present when it is linked, so it
  stays outside the tree (`Loose`), and no walk sees it.

`FreshCalls` is what a run of calls assumes of `pmm_alloc`.
-/

namespace FrazzOS.Vmm
open Memory

/-- Every call of `pmm_alloc` so far returned a zero-filled frame outside the tree. -/
def FreshCalls (root : BitVec 64) (s : VmmState) : Prop := ∀ c ∈ s.calls, Fresh c.1 root c.2

theorem getLsbD_virtIndex (l : Nat) (virt : BitVec 64) {k : Nat} (hk : k < 9) :
    (virtIndex l virt).getLsbD k = virt.getLsbD (12 + 9 * l + k) := by
  rw [virtIndex, BitVec.getLsbD_extractLsb', decide_eq_true hk, Bool.true_and]

/-- The code's index of a level. -/
theorem levelIndex_eq (virt : BitVec 64) {l : Nat} (hl : l < 4) :
    levelIndex (12 + 9 * l) virt = (virtIndex l virt).setWidth 64 := by
  apply BitVec.eq_of_getLsbD_eq
  intro k hk
  rw [levelIndex, BitVec.getLsbD_ushiftRight, BitVec.getLsbD_and, BitVec.getLsbD_shiftLeft,
    getLsbD_indexMask, BitVec.getLsbD_setWidth, decide_eq_true hk, Bool.true_and]
  by_cases h9 : k < 9
  · rw [getLsbD_virtIndex l virt h9]
    have hlt : 12 + 9 * l + k < 64 := by omega
    simp [h9, hlt]
  · have hz : (virtIndex l virt).getLsbD k = false := BitVec.getLsbD_of_ge _ _ (by omega)
    simp [hz, h9]

/-! ### One level -/

section Level

variable {frames : Nat → BitVec 64} {root t : BitVec 64} {s : VmmState} {p : List (BitVec 9)}
  {i : BitVec 9} {flags : BitVec 32}

/-- The entry that a missing table is linked with. -/
def linkEntry (frames : Nat → BitVec 64) (s : VmmState) (flags : BitVec 32) : BitVec 64 :=
  frames s.calls.length ||| flags.signExtend 64

theorem getNext_present (h : Present (entry s.mem t i)) :
    vmmGetNextMapLevel frames s t (i.setWidth 64) flags = (tableOf (entry s.mem t i), s) :=
  if_pos h

theorem getNext_absent (h : ¬ Present (entry s.mem t i)) :
    vmmGetNextMapLevel frames s t (i.setWidth 64) flags =
      (tableOf (linkEntry frames s flags),
        (pmmAllocPage frames s).2.store t (i.setWidth 64) (linkEntry frames s flags)) := by
  have hread : read ((pmmAllocPage frames s).2.store t (i.setWidth 64)
      (linkEntry frames s flags)).mem (entryAddr t (i.setWidth 64)) = linkEntry frames s flags :=
    read_write _ _ _
  have habsent : ¬ (read s.mem (entryAddr t (i.setWidth 64)) &&& 1 ≠ 0) := h
  rw [vmmGetNextMapLevel, if_neg habsent]
  exact congrArg₂ Prod.mk (congrArg tableOf hread) rfl

/-- The calls of `pmm_alloc` on record only grow. -/
theorem FreshCalls.of_getNext (h : FreshCalls root
      (vmmGetNextMapLevel frames s t (i.setWidth 64) flags).2) :
    FreshCalls root s ∧
      (¬ Present (entry s.mem t i) → Fresh s.mem root (frames s.calls.length)) := by
  by_cases hpres : Present (entry s.mem t i)
  · rw [getNext_present hpres] at h
    exact ⟨h, fun hn => absurd hpres hn⟩
  · rw [getNext_absent hpres] at h
    exact ⟨fun c hc => h c (List.mem_cons_of_mem _ hc), fun _ => h _ List.mem_cons_self⟩

/-- The link of a frame names it: the flags add nothing to its address. -/
def Linked (frames : Nat → BitVec 64) (flags : BitVec 32) (k : Nat) : Prop :=
  tableOf (frames k ||| flags.signExtend 64) = frames k

/-- A missing table is linked to a fresh frame. -/
theorem FreshCalls.loose (h : FreshCalls root
      (vmmGetNextMapLevel frames s t (i.setWidth 64) flags).2) (hflags : flags.toNat < 0x200) :
    ¬ Present (entry s.mem t i) →
      Loose s.mem root (frames s.calls.length) ∧ Linked frames flags s.calls.length :=
  fun habsent =>
    have hfresh := h.of_getNext.2 habsent
    ⟨hfresh.loose, tableOf_link hfresh.frame hflags⟩

/-- **A level of `vmm_map_page`**: from a table of the tree to the next one, which it links when it
is missing; no walk changes. -/
theorem getNext_map (hT : Tree s.mem root) (hp : p.length ≤ 2)
    (ht : tableAt s.mem root p = some t) (hpres : flags &&& ptePresent ≠ 0)
    (hf : ¬ Present (entry s.mem t i) →
      Loose s.mem root (frames s.calls.length) ∧ Linked frames flags s.calls.length) :
    Tree (vmmGetNextMapLevel frames s t (i.setWidth 64) flags).2.mem root ∧
      (∀ virt, walk (vmmGetNextMapLevel frames s t (i.setWidth 64) flags).2.mem root virt =
        walk s.mem root virt) ∧
      tableAt (vmmGetNextMapLevel frames s t (i.setWidth 64) flags).2.mem root (i :: p) =
        some (vmmGetNextMapLevel frames s t (i.setWidth 64) flags).1 := by
  by_cases h : Present (entry s.mem t i)
  · rw [getNext_present h]
    refine ⟨hT, fun _ => rfl, ?_⟩
    rw [tableAt_cons ht, nextTable, if_pos h]
  · obtain ⟨hf, hlinked⟩ := hf h
    have hlink : Present (linkEntry frames s flags) := (present_link hf.frame flags).mpr hpres
    have htable : tableOf (linkEntry frames s flags) = frames s.calls.length := hlinked
    rw [getNext_absent h]
    obtain ⟨hT', hwalk⟩ := store_link hT hp ht h hf hlink htable
    refine ⟨hT', hwalk, ?_⟩
    have htables := tableAt_link hT hp ht h hf hlink htable (i :: p)
      (by rw [List.length_cons]; omega)
    rw [if_pos rfl] at htables
    rw [htable]
    exact htables

/-- Where `vmm_unmap_page` stands: at the table of the path, or, when there is none, at a table
outside the tree. -/
def Reached (m : Mem) (root : BitVec 64) (p : List (BitVec 9)) (t : BitVec 64) : Prop :=
  tableAt m root p = some t ∨ (tableAt m root p = none ∧ Loose m root t)

/-- **A level of `vmm_unmap_page`**, or of `vmm_map_page` with flags that are not those of a
mapping: to the next table, or to a loose one; nothing that a walk reads changes. -/
theorem getNext_dangling (hT : Tree s.mem root) (hp : p.length ≤ 2) (ht : Reached s.mem root p t)
    (hpres : flags &&& ptePresent = 0)
    (hf : ¬ Present (entry s.mem t i) →
      Loose s.mem root (frames s.calls.length) ∧ Linked frames flags s.calls.length) :
    SameTree s.mem (vmmGetNextMapLevel frames s t (i.setWidth 64) flags).2.mem root ∧
      Reached (vmmGetNextMapLevel frames s t (i.setWidth 64) flags).2.mem root (i :: p)
        (vmmGetNextMapLevel frames s t (i.setWidth 64) flags).1 := by
  by_cases h : Present (entry s.mem t i)
  · rw [getNext_present h]
    refine ⟨SameTree.refl _ _, ?_⟩
    rcases ht with ht | ⟨-, hl⟩
    · exact Or.inl (by rw [tableAt_cons ht, nextTable, if_pos h])
    · exact absurd h (hl.absent i)
  · obtain ⟨hf, hlinked⟩ := hf h
    have hlink : ¬ Present (linkEntry frames s flags) := by
      rw [linkEntry, present_link hf.frame]
      exact not_not.mpr hpres
    have htable : tableOf (linkEntry frames s flags) = frames s.calls.length := hlinked
    rw [getNext_absent h, htable]
    have hsame : SameTree s.mem
        ((pmmAllocPage frames s).2.store t (i.setWidth 64) (linkEntry frames s flags)).mem root := by
      rcases ht with ht | ⟨-, hl⟩
      · exact store_dangling hT (by omega) ht h hlink
      · exact store_outside hT hl.frame hl.outside i _
    refine ⟨hsame, Or.inr ⟨?_, hf.frame, ?_, fun j => ?_⟩⟩
    · rw [hsame.tables (i :: p) (by rw [List.length_cons]; omega)]
      rcases ht with ht | ⟨hnone, -⟩
      · rw [tableAt_cons ht, nextTable, if_neg h]
      · exact tableAt_none i hnone
    · rw [inTree_congr hsame.tables]
      exact hf.outside
    · -- nothing is present in the new frame, also where it is linked to itself
      have htf : Frame t := by
        rcases ht with ht | ⟨-, hl⟩
        · exact hT.frame ⟨p, by omega, ht⟩
        · exact hl.frame
      have hentry := entry_store (s := (pmmAllocPage frames s).2) htf hf.frame i j
        (linkEntry frames s flags)
      rw [hentry]
      split
      · exact hlink
      · exact hf.absent j

/-- The three levels and the leaf of a call, by the entries' indices. -/
theorem setLeaf_eq (frames : Nat → BitVec 64) (s : VmmState) (root virt : BitVec 64)
    (flags : BitVec 32) (leaf : BitVec 64) :
    setLeaf frames s root virt flags leaf =
      let n₃ := vmmGetNextMapLevel frames s root ((virtIndex 3 virt).setWidth 64) flags
      let n₂ := vmmGetNextMapLevel frames n₃.2 n₃.1 ((virtIndex 2 virt).setWidth 64) flags
      let n₁ := vmmGetNextMapLevel frames n₂.2 n₂.1 ((virtIndex 1 virt).setWidth 64) flags
      n₁.2.store n₁.1 ((virtIndex 0 virt).setWidth 64) leaf := by
  rw [← levelIndex_eq virt (show 3 < 4 by decide), ← levelIndex_eq virt (show 2 < 4 by decide),
    ← levelIndex_eq virt (show 1 < 4 by decide), ← levelIndex_eq virt (show 0 < 4 by decide)]
  rfl

theorem FreshCalls.of_setLeaf {virt leaf : BitVec 64} {flags : BitVec 32}
    (h : FreshCalls root (setLeaf frames s root virt flags leaf)) : FreshCalls root s := by
  rw [setLeaf_eq] at h
  have h₁ : FreshCalls root _ := h
  exact (FreshCalls.of_getNext (FreshCalls.of_getNext (FreshCalls.of_getNext h₁).1).1).1

end Level

end FrazzOS.Vmm
