import FrazzOS.Vmm.Pool

/-!
# Vmm — Refine

The page tables as a finite map from page numbers to leaf entries (`PageMap`): `vmm_map_page`
inserts, `vmm_unmap_page` deletes.

`page_tables_refine_map`: from a root whose tables form a tree, for every sequence of calls in
which `pmm_alloc` returns zero-filled frames outside the tree, the walk of every address is what
the map gives, and the tables still form a tree.

A missing table is linked with the caller's flags.  `vmm_unmap_page` passes none, so the tables it
makes are not present: they stay outside the tree (`Loose`), and no walk sees them.
-/

namespace FrazzOS.Vmm
open Memory

/-- A map from page numbers to leaf entries. -/
abbrev PageMap := BitVec 36 → Option (BitVec 64)

/-- The 36-bit page number of an address. -/
def pageNumber (virt : BitVec 64) : BitVec 36 := virt.extractLsb' 12 36

/-- A call that changes a mapping. -/
inductive VmmOp where
  | map (phys virt : BitVec 64) (flags : BitVec 32)
  | unmap (virt : BitVec 64)

/-- The call, in the code. -/
def VmmOp.run (frames : Nat → BitVec 64) (root : BitVec 64) (s : VmmState) : VmmOp → VmmState
  | .map phys virt flags => vmmMapPage frames s root phys virt flags
  | .unmap virt => vmmUnmapPage frames s root virt

/-- The call, on the map. -/
def VmmOp.apply (A : PageMap) : VmmOp → PageMap
  | .map phys virt flags => Function.update A (pageNumber virt) (some (phys ||| flags.signExtend 64))
  | .unmap virt => Function.update A (pageNumber virt) none

/-- The flags of a mapping fit below the address bits, and say that it is present. -/
def VmmOp.Valid : VmmOp → Prop
  | .map _ _ flags => flags.toNat < 0x200 ∧ flags &&& ptePresent ≠ 0
  | .unmap _ => True

def runOps (frames : Nat → BitVec 64) (root : BitVec 64) (s : VmmState) (ops : List VmmOp) :
    VmmState :=
  ops.foldl (VmmOp.run frames root) s

/-- The map that the walks of a memory give. -/
def mapOf (m : Mem) (root : BitVec 64) : PageMap := fun n => walk m root (n.setWidth 64 <<< 12)

/-- Every walk gives what the map gives. -/
def Refines (m : Mem) (root : BitVec 64) (A : PageMap) : Prop :=
  ∀ virt, walk m root virt = A (pageNumber virt)

/-! ### Indices and page numbers -/

theorem getLsbD_pageNumber (virt : BitVec 64) {k : Nat} (hk : k < 36) :
    (pageNumber virt).getLsbD k = virt.getLsbD (12 + k) := by
  rw [pageNumber, BitVec.getLsbD_extractLsb', decide_eq_true hk, Bool.true_and]

theorem virtIndex_congr {v v' : BitVec 64} (h : pageNumber v = pageNumber v') {l : Nat}
    (hl : l < 4) : virtIndex l v = virtIndex l v' := by
  apply BitVec.eq_of_getLsbD_eq
  intro k hk
  rw [getLsbD_virtIndex l v hk, getLsbD_virtIndex l v' hk, Nat.add_assoc,
    ← getLsbD_pageNumber v (by omega), ← getLsbD_pageNumber v' (by omega), h]

theorem leafPath_congr {v v' : BitVec 64} (h : pageNumber v = pageNumber v') :
    leafPath v = leafPath v' := by
  rw [leafPath, leafPath, virtIndex_congr h (by decide), virtIndex_congr h (by decide),
    virtIndex_congr h (by decide)]

/-- Two addresses have the same path and index when they have the same page number. -/
theorem samePage_iff {v v' : BitVec 64} :
    (leafPath v = leafPath v' ∧ virtIndex 0 v = virtIndex 0 v') ↔ pageNumber v = pageNumber v' := by
  constructor
  · rintro ⟨hpath, h₀⟩
    obtain ⟨h₁, hrest⟩ := List.cons.inj hpath
    obtain ⟨h₂, hrest⟩ := List.cons.inj hrest
    obtain ⟨h₃, -⟩ := List.cons.inj hrest
    have hall : ∀ l, l < 4 → virtIndex l v = virtIndex l v' := by
      intro l hl
      match l, hl with
      | 0, _ => exact h₀
      | 1, _ => exact h₁
      | 2, _ => exact h₂
      | 3, _ => exact h₃
    apply BitVec.eq_of_getLsbD_eq
    intro k hk
    have hbit := congrArg (fun x : BitVec 9 => x.getLsbD (k % 9)) (hall (k / 9) (by omega))
    simp only [getLsbD_virtIndex _ _ (Nat.mod_lt k (by decide)), Nat.add_assoc,
      Nat.div_add_mod] at hbit
    rw [getLsbD_pageNumber v hk, getLsbD_pageNumber v' hk, hbit]
  · exact fun h => ⟨leafPath_congr h, virtIndex_congr h (by decide)⟩

/-- The first address of a page has the page's number. -/
theorem pageNumber_shiftLeft (n : BitVec 36) : pageNumber (n.setWidth 64 <<< 12) = n := by
  apply BitVec.eq_of_getLsbD_eq
  intro k hk
  rw [getLsbD_pageNumber _ hk, BitVec.getLsbD_shiftLeft, BitVec.getLsbD_setWidth]
  have h₀ : 12 + k < 64 := by omega
  have h₁ : k < 64 := by omega
  simp [h₀, h₁]

theorem refines_mapOf (m : Mem) (root : BitVec 64) : Refines m root (mapOf m root) := by
  intro virt
  have hpage := pageNumber_shiftLeft (pageNumber virt)
  rw [mapOf, walk, walk, leafPath_congr hpage, virtIndex_congr hpage (by decide)]

/-! ### One call -/

section Call

variable {frames : Nat → BitVec 64} {root : BitVec 64} {s : VmmState} {A : PageMap}

/-- A walk changed on one page, as an updated map. -/
theorem Refines.update {m m' : Mem} (h : Refines m root A) {virt : BitVec 64}
    {leaf : Option (BitVec 64)}
    (hwalk : ∀ v, walk m' root v =
      if leafPath v = leafPath virt ∧ virtIndex 0 v = virtIndex 0 virt then leaf
      else walk m root v) :
    Refines m' root (Function.update A (pageNumber virt) leaf) := by
  intro v
  rw [hwalk, h v, Function.update_apply]
  simp only [samePage_iff]

/-- **`vmm_map_page`** inserts the leaf, and keeps the tree. -/
theorem vmmMapPage_refines (hT : Tree s.mem root) (hA : Refines s.mem root A)
    {phys virt : BitVec 64} {flags : BitVec 32} (hflags : flags.toNat < 0x200)
    (hpres : flags &&& ptePresent ≠ 0)
    (hfresh : FreshCalls root (vmmMapPage frames s root phys virt flags)) :
    Tree (vmmMapPage frames s root phys virt flags).mem root ∧
      Refines (vmmMapPage frames s root phys virt flags).mem root
        (Function.update A (pageNumber virt) (some (phys ||| flags.signExtend 64))) := by
  rw [vmmMapPage, setLeaf_eq] at hfresh ⊢
  simp only at hfresh ⊢
  have hfresh₁ : FreshCalls root _ := hfresh
  obtain ⟨hfresh₂, -⟩ := FreshCalls.of_getNext hfresh₁
  obtain ⟨hfresh₃, -⟩ := FreshCalls.of_getNext hfresh₂
  obtain ⟨hT₃, hw₃, ht₃⟩ := getNext_map (p := []) hT (by decide) rfl hpres (hfresh₃.loose hflags)
  obtain ⟨hT₂, hw₂, ht₂⟩ := getNext_map hT₃ (by simp) ht₃ hpres (hfresh₂.loose hflags)
  obtain ⟨hT₁, hw₁, ht₁⟩ := getNext_map hT₂ (by simp) ht₂ hpres (hfresh₁.loose hflags)
  obtain ⟨hs₀, hw₀⟩ := store_leaf hT₁ virt ht₁ (phys ||| flags.signExtend 64)
  have hleaf : Present (phys ||| flags.signExtend 64) := (present_or phys flags).mpr (Or.inr hpres)
  refine ⟨hT₁.congr hs₀, hA.update fun v => ?_⟩
  rw [hw₀ v, if_pos hleaf, hw₁ v, hw₂ v, hw₃ v]

/-- **`vmm_unmap_page`** deletes the page, and keeps the tree. -/
theorem vmmUnmapPage_refines (hT : Tree s.mem root) (hA : Refines s.mem root A) {virt : BitVec 64}
    (hfresh : FreshCalls root (vmmUnmapPage frames s root virt)) :
    Tree (vmmUnmapPage frames s root virt).mem root ∧
      Refines (vmmUnmapPage frames s root virt).mem root
        (Function.update A (pageNumber virt) none) := by
  rw [vmmUnmapPage, setLeaf_eq] at hfresh ⊢
  simp only at hfresh ⊢
  have hfresh₁ : FreshCalls root _ := hfresh
  obtain ⟨hfresh₂, -⟩ := FreshCalls.of_getNext hfresh₁
  obtain ⟨hfresh₃, -⟩ := FreshCalls.of_getNext hfresh₂
  have hzero : (0 : BitVec 32).toNat < 0x200 := by decide
  have hnone : (0 : BitVec 32) &&& ptePresent = 0 := by decide
  obtain ⟨hs₃, ht₃⟩ := getNext_dangling (p := []) hT (by decide) (Or.inl rfl) hnone
    (hfresh₃.loose hzero)
  have hT₃ := hT.congr hs₃.tables
  obtain ⟨hs₂, ht₂⟩ := getNext_dangling hT₃ (by simp) ht₃ hnone (hfresh₂.loose hzero)
  have hT₂ := hT₃.congr hs₂.tables
  obtain ⟨hs₁, ht₁⟩ := getNext_dangling hT₂ (by simp) ht₂ hnone (hfresh₁.loose hzero)
  have hT₁ := hT₂.congr hs₁.tables
  have hsame := (hs₃.trans hs₂).trans hs₁
  rcases ht₁ with ht₁ | ⟨hnone, hl⟩
  · obtain ⟨hs₀, hw₀⟩ := store_leaf hT₁ virt ht₁ 0
    refine ⟨hT₁.congr hs₀, hA.update fun v => ?_⟩
    rw [hw₀ v, if_neg not_present_zero, hsame.walks v]
  · -- the page was not mapped, and the store goes outside the tree
    have hs₀ := store_outside hT₁ hl.frame hl.outside (virtIndex 0 virt) 0
    refine ⟨hT₁.congr hs₀.tables, hA.update fun v => ?_⟩
    rw [hs₀.walks v, hsame.walks v]
    split
    · rename_i hpage
      rw [← hsame.walks v, walk, hpage.1, leafPath, hnone, Option.bind_none]
    · rfl

end Call

/-! ### Runs -/

section Runs

variable {frames : Nat → BitVec 64} {root : BitVec 64} {s : VmmState} {A : PageMap} {op : VmmOp}
  {ops : List VmmOp}

/-- **One call** is the same call on the map. -/
theorem VmmOp.run_refines (hT : Tree s.mem root) (hA : Refines s.mem root A) (hop : op.Valid)
    (hfresh : FreshCalls root (op.run frames root s)) :
    Tree (op.run frames root s).mem root ∧ Refines (op.run frames root s).mem root (op.apply A) := by
  cases op with
  | map phys virt flags => exact vmmMapPage_refines hT hA hop.1 hop.2 hfresh
  | unmap virt => exact vmmUnmapPage_refines hT hA hfresh

theorem FreshCalls.of_run (h : FreshCalls root (op.run frames root s)) : FreshCalls root s := by
  cases op with
  | map phys virt flags => exact FreshCalls.of_setLeaf h
  | unmap virt => exact FreshCalls.of_setLeaf h

theorem FreshCalls.of_runOps : ∀ {s : VmmState}, FreshCalls root (runOps frames root s ops) →
    FreshCalls root s := by
  induction ops with
  | nil => exact fun h => h
  | cons op ops ih => exact fun h => (ih h).of_run

/-- **A run of calls** is the same run on the map. -/
theorem runOps_refines : ∀ {s : VmmState} {A : PageMap}, Tree s.mem root → Refines s.mem root A →
    (∀ op ∈ ops, op.Valid) → FreshCalls root (runOps frames root s ops) →
    Tree (runOps frames root s ops).mem root ∧
      Refines (runOps frames root s ops).mem root (ops.foldl VmmOp.apply A) := by
  induction ops with
  | nil => exact fun hT hA _ _ => ⟨hT, hA⟩
  | cons op ops ih =>
      intro s A hT hA hops hfresh
      have hrest : FreshCalls root (runOps frames root (op.run frames root s) ops) := hfresh
      obtain ⟨hT', hA'⟩ := VmmOp.run_refines hT hA (hops op List.mem_cons_self) hrest.of_runOps
      exact ih hT' hA' (fun op' h => hops op' (List.mem_cons_of_mem op h)) hrest

end Runs

/-! ### Runs over a pool -/

/-- A call of `vmm_map_page` with the flags of a mapping. -/
def IsMap (op : VmmOp) : Prop := ∃ phys virt flags, op = .map phys virt flags ∧ op.Valid

/-- **A run over a pool**: each call takes at most three frames. -/
theorem Pool.runOps {frames : Nat → BitVec 64} {root : BitVec 64} {N : Nat}
    (hd : Distinct frames root N) {ops : List VmmOp} : ∀ {s : VmmState}, Pool frames root N s →
    (∀ op ∈ ops, IsMap op) → s.calls.length + 3 * ops.length ≤ N →
    Pool frames root N (runOps frames root s ops) := by
  induction ops with
  | nil => exact fun hP _ _ => hP
  | cons op ops ih =>
      intro s hP hops hN
      rw [List.length_cons] at hN
      obtain ⟨phys, virt, flags, rfl, hflags, hpres⟩ := hops op List.mem_cons_self
      obtain ⟨hP', hn⟩ := hP.mapPage hd hflags hpres (by omega) phys virt
      exact ih hP' (fun op' h => hops op' (List.mem_cons_of_mem _ h))
        (show (vmmMapPage frames s root phys virt flags).calls.length + _ ≤ N by omega)

theorem isMap_map {phys virt : BitVec 64} {flags : BitVec 32} (hflags : flags.toNat < 0x200)
    (hpres : flags &&& ptePresent ≠ 0) : IsMap (.map phys virt flags) :=
  ⟨_, _, _, rfl, hflags, hpres⟩

/-- From an empty root in zeroed memory. -/
theorem pool_runOps {N : Nat} (hN : 0x2000 + N * pageSize ≤ 140737488355328) {ops : List VmmOp}
    (hops : ∀ op ∈ ops, IsMap op) (hlen : 3 * ops.length ≤ N) :
    Pool (framesFrom 0x2000) 0x1000 N (runOps (framesFrom 0x2000) 0x1000 ⟨fun _ => 0, []⟩ ops) :=
  (pool_start ⟨by decide, by decide⟩ (fun _ => read_zero _) fun _ _ _ => read_zero _).runOps
    (distinct_framesFrom (by decide) hN (by decide)) hops (by rwa [List.length_nil, Nat.zero_add])

/-- **Page tables refine a finite map**: after any sequence of calls in which `pmm_alloc` returns
zero-filled frames outside the tree, the walk of every address gives what the same inserts and
deletes give on the map of page numbers, and the tables form a tree. -/
theorem page_tables_refine_map {frames : Nat → BitVec 64} {root : BitVec 64} {s : VmmState}
    {ops : List VmmOp} (hT : Tree s.mem root) (hops : ∀ op ∈ ops, op.Valid)
    (hfresh : FreshCalls root (runOps frames root s ops)) :
    Tree (runOps frames root s ops).mem root ∧
      ∀ virt, walk (runOps frames root s ops).mem root virt =
        ops.foldl VmmOp.apply (mapOf s.mem root) (pageNumber virt) :=
  runOps_refines hT (refines_mapOf s.mem root) hops hfresh

/-- Two pages, one behind the other. -/
def twoPages : List VmmOp := [.map 0x5000 0x400000 3, .map 0x6000 0x401000 3]

theorem isMap_twoPages : ∀ op ∈ twoPages, IsMap op :=
  List.forall_mem_cons.mpr ⟨isMap_map (by decide) (by decide),
    List.forall_mem_singleton.mpr (isMap_map (by decide) (by decide))⟩

theorem pool_twoPages : Pool (framesFrom 0x2000) 0x1000 6
    (runOps (framesFrom 0x2000) 0x1000 ⟨fun _ => 0, []⟩ twoPages) :=
  pool_runOps (by decide) isMap_twoPages (by decide)

/-- The first one has a table. -/
theorem table_twoPages : ∃ t, tableAt
    (runOps (framesFrom 0x2000) 0x1000 ⟨fun _ => 0, []⟩ twoPages).mem 0x1000
      (leafPath 0x400000) = some t := by
  have hvalid : ∀ op ∈ twoPages, op.Valid := fun op hop => by
    obtain ⟨_, _, _, -, hvalid⟩ := isMap_twoPages op hop
    exact hvalid
  obtain ⟨-, hwalk⟩ := runOps_refines tree_empty (refines_mapOf _ _) hvalid pool_twoPages.fresh
  refine table_of_walk (e := 0x5000 ||| (3 : BitVec 32).signExtend 64) ((hwalk 0x400000).trans ?_)
  rw [twoPages, List.foldl_cons, List.foldl_cons, List.foldl_nil, VmmOp.apply, VmmOp.apply,
    Function.update_of_ne (by decide), Function.update_self]

/-- And then the first one is unmapped. -/
def threeOps : List VmmOp := twoPages ++ [VmmOp.unmap 0x400000]

theorem page_tables_refine_map_three :
    Tree (runOps (framesFrom 0x2000) 0x1000 ⟨fun _ => 0, []⟩ threeOps).mem 0x1000 ∧
      ∀ virt, walk (runOps (framesFrom 0x2000) 0x1000 ⟨fun _ => 0, []⟩ threeOps).mem 0x1000 virt =
        threeOps.foldl VmmOp.apply (mapOf (fun _ => 0) 0x1000) (pageNumber virt) := by
  obtain ⟨t, ht⟩ := table_twoPages
  have hd : Distinct (framesFrom 0x2000) 0x1000 6 :=
    distinct_framesFrom (by decide) (by decide) (by decide)
  have hfresh : FreshCalls 0x1000 (runOps (framesFrom 0x2000) 0x1000 ⟨fun _ => 0, []⟩ threeOps) :=
    (pool_twoPages.unmapPage hd ht).fresh
  refine page_tables_refine_map tree_empty (fun op hop => ?_) hfresh
  rcases List.mem_append.mp hop with hop | hop
  · obtain ⟨_, _, _, -, hvalid⟩ := isMap_twoPages op hop
    exact hvalid
  · rw [List.mem_singleton.mp hop]
    exact trivial

end FrazzOS.Vmm
