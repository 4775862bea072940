import FrazzOS.Vmm.Stores

/-!
# Vmm — Pool

Frames that meet what the page tables assume of `pmm_alloc`: a pool of frames that are zero-filled
at the start, all different, and handed out in order.

* `Pool`: the tables are the root and frames handed out; the other frames are still zero-filled.
* `Pool.mapPage`: a call of `vmm_map_page` keeps that, and takes at most three frames;
  `Pool.unmapPage`: one of `vmm_unmap_page` takes none, where the page has a table.
* `distinct_framesFrom`: the frames behind the root's make a pool.
-/

namespace FrazzOS.Vmm
open Memory

/-- The first `N` frames are different from each other and from the root. -/
structure Distinct (frames : Nat → BitVec 64) (root : BitVec 64) (N : Nat) : Prop where
  frame : ∀ k, k < N → Frame (frames k)
  root_ne : ∀ k, k < N → frames k ≠ root
  inj : ∀ j k, j < N → k < N → frames j = frames k → j = k

/-- The tables are the root and frames handed out; the frames that are not are zero-filled. -/
structure Pool (frames : Nat → BitVec 64) (root : BitVec 64) (N : Nat) (s : VmmState) : Prop where
  tree : Tree s.mem root
  known : ∀ f, InTree s.mem root f → f = root ∨ ∃ k, k < s.calls.length ∧ f = frames k
  zero : ∀ k, s.calls.length ≤ k → k < N → ZeroFilled s.mem (frames k)
  fresh : FreshCalls root s

section Pool

variable {frames : Nat → BitVec 64} {root t : BitVec 64} {N : Nat} {s : VmmState}
  {p : List (BitVec 9)} {i : BitVec 9} {flags : BitVec 32}

theorem Pool.notInTree (hd : Distinct frames root N) (hP : Pool frames root N s) {k : Nat}
    (hk : s.calls.length ≤ k) (hkN : k < N) : ¬ InTree s.mem root (frames k) := by
  intro hin
  rcases hP.known _ hin with he | ⟨j, hj, he⟩
  · exact hd.root_ne k hkN he
  · have := hd.inj k j hkN (by omega) he
    omega

/-- The next frame of the pool is fresh. -/
theorem Pool.next_fresh (hd : Distinct frames root N) (hP : Pool frames root N s)
    (hN : s.calls.length < N) : Fresh s.mem root (frames s.calls.length) where
  frame := hd.frame _ hN
  zero := hP.zero _ (Nat.le_refl _) hN
  outside := hP.notInTree hd (Nat.le_refl _) hN

/-- A store in a table leaves the frames of the pool. -/
theorem Pool.zero_store (hd : Distinct frames root N) (hP : Pool frames root N s)
    (hin : InTree s.mem root t) (e : BitVec 64) {k : Nat} (hk : s.calls.length ≤ k) (hkN : k < N) :
    ZeroFilled (s.store t (i.setWidth 64) e).mem (frames k) := by
  intro j
  rw [entry_store (hP.tree.frame hin) (hd.frame k hkN), if_neg, hP.zero k hk hkN]
  rintro ⟨rfl, -⟩
  exact hP.notInTree hd hk hkN hin

/-- **A level of `vmm_map_page`** takes at most one frame of the pool. -/
theorem Pool.getNext (hd : Distinct frames root N) (hP : Pool frames root N s) (hp : p.length ≤ 2)
    (ht : tableAt s.mem root p = some t) (hflags : flags.toNat < 0x200)
    (hpres : flags &&& ptePresent ≠ 0) (hN : s.calls.length < N) :
    Pool frames root N (vmmGetNextMapLevel frames s t (i.setWidth 64) flags).2 ∧
      (vmmGetNextMapLevel frames s t (i.setWidth 64) flags).2.calls.length ≤ s.calls.length + 1 := by
  by_cases h : Present (entry s.mem t i)
  · rw [getNext_present h]
    exact ⟨hP, Nat.le_succ _⟩
  · have hf := hP.next_fresh hd hN
    have hlink : Present (linkEntry frames s flags) := (present_link hf.frame flags).mpr hpres
    have htable : tableOf (linkEntry frames s flags) = frames s.calls.length :=
      tableOf_link hf.frame hflags
    have hin : InTree s.mem root t := ⟨p, by omega, ht⟩
    have htables := tableAt_link hP.tree hp ht h hf.loose hlink htable
    rw [getNext_absent h]
    refine ⟨⟨(store_link hP.tree hp ht h hf.loose hlink htable).1, ?_, fun k hk hkN => ?_, ?_⟩,
      Nat.le_refl _⟩
    · rintro f ⟨q, hq, hqf⟩
      have hqf' : tableAt (s.store t (i.setWidth 64) (linkEntry frames s flags)).mem root q =
          some f := hqf
      rw [htables q hq] at hqf'
      split at hqf'
      · exact Or.inr ⟨s.calls.length, Nat.lt_succ_self _, (Option.some.inj hqf').symm⟩
      · rcases hP.known f ⟨q, hq, hqf'⟩ with he | ⟨k, hk, he⟩
        · exact Or.inl he
        · exact Or.inr ⟨k, Nat.lt_succ_of_lt hk, he⟩
    · exact hP.zero_store hd hin _ (Nat.le_of_succ_le hk) hkN
    · intro c hc
      rcases List.mem_cons.mp hc with rfl | hc
      · exact hf
      · exact hP.fresh c hc

/-- **`vmm_map_page`** takes at most three frames of the pool. -/
theorem Pool.mapPage (hd : Distinct frames root N) (hP : Pool frames root N s)
    (hflags : flags.toNat < 0x200) (hpres : flags &&& ptePresent ≠ 0)
    (hN : s.calls.length + 3 ≤ N) (phys virt : BitVec 64) :
    Pool frames root N (vmmMapPage frames s root phys virt flags) ∧
      (vmmMapPage frames s root phys virt flags).calls.length ≤ s.calls.length + 3 := by
  rw [vmmMapPage, setLeaf_eq]
  simp only
  obtain ⟨hP₃, hn₃⟩ := hP.getNext hd (p := []) (i := virtIndex 3 virt) (by decide) rfl hflags hpres
    (by omega)
  obtain ⟨-, -, ht₃⟩ := getNext_map (p := []) hP.tree (by decide) rfl hpres (hP₃.fresh.loose hflags)
  obtain ⟨hP₂, hn₂⟩ := hP₃.getNext hd (i := virtIndex 2 virt) (by simp) ht₃ hflags hpres (by omega)
  obtain ⟨-, -, ht₂⟩ := getNext_map hP₃.tree (by simp) ht₃ hpres (hP₂.fresh.loose hflags)
  obtain ⟨hP₁, hn₁⟩ := hP₂.getNext hd (i := virtIndex 1 virt) (by simp) ht₂ hflags hpres (by omega)
  obtain ⟨-, -, ht₁⟩ := getNext_map hP₂.tree (by simp) ht₂ hpres (hP₁.fresh.loose hflags)
  obtain ⟨htables, -⟩ := store_leaf hP₁.tree virt ht₁ (phys ||| flags.signExtend 64)
  refine ⟨⟨hP₁.tree.congr htables, fun f hf => ?_, fun k hk hkN => ?_, hP₁.fresh⟩, ?_⟩
  · exact hP₁.known f ((inTree_congr htables f).mp hf)
  · exact hP₁.zero_store hd ⟨leafPath virt, leafPath_le virt, ht₁⟩ _ hk hkN
  · exact Nat.le_trans hn₁ (by omega)

/-- **`vmm_unmap_page`** takes no frame, where the page has a table of the last level. -/
theorem Pool.unmapPage (hd : Distinct frames root N) (hP : Pool frames root N s)
    {virt : BitVec 64} (ht : tableAt s.mem root (leafPath virt) = some t) :
    Pool frames root N (vmmUnmapPage frames s root virt) := by
  obtain ⟨htables, -⟩ := store_leaf hP.tree virt ht 0
  rw [vmmUnmapPage, (setLeaf_present ht).1]
  refine ⟨hP.tree.congr htables, fun f hf => ?_, fun k hk hkN => ?_, hP.fresh⟩
  · exact hP.known f ((inTree_congr htables f).mp hf)
  · exact hP.zero_store hd ⟨leafPath virt, leafPath_le virt, ht⟩ _ hk hkN

end Pool

/-- Before the first call: an empty root, and frames that are zero-filled. -/
theorem pool_start {frames : Nat → BitVec 64} {root : BitVec 64} {N : Nat} {m : Mem}
    (hroot : Frame root) (hempty : ZeroFilled m root)
    (hzero : ∀ k, k < N → ZeroFilled m (frames k)) : Pool frames root N ⟨m, []⟩ := by
  have honly : ∀ {q f}, tableAt m root q = some f → q = [] ∧ f = root := by
    intro q f hq
    by_cases h : q = []
    · subst h
      exact ⟨rfl, (Option.some.inj hq).symm⟩
    · rw [tableAt_empty hempty h] at hq
      cases hq
  refine ⟨⟨?_, fun _ _ hp hq => (honly hp).1.trans (honly hq).1.symm⟩, ?_, ?_, ?_⟩
  · rintro f ⟨q, -, hq⟩
    rw [(honly hq).2]
    exact hroot
  · rintro f ⟨q, -, hq⟩
    exact Or.inl (honly hq).2
  · exact fun k _ hkN => hzero k hkN
  · exact fun c hc => absurd hc List.not_mem_nil

/-- The frames from `base` on, in order. -/
def framesFrom (base k : Nat) : BitVec 64 := BitVec.ofNat 64 (base + k * pageSize)

theorem framesFrom_toNat {base N k : Nat} (hend : base + N * pageSize ≤ 140737488355328)
    (hk : k < N) : (framesFrom base k).toNat = base + k * pageSize := by
  rw [framesFrom, BitVec.toNat_ofNat]
  unfold pageSize at *
  omega

theorem distinct_framesFrom {base N : Nat} {root : BitVec 64} (hbase : base % pageSize = 0)
    (hend : base + N * pageSize ≤ 140737488355328) (hroot : root.toNat < base) :
    Distinct (framesFrom base) root N where
  frame := fun k hk => by
    have hn := framesFrom_toNat hend hk
    unfold pageSize at *
    exact ⟨by rw [hn]; unfold pageSize; omega, by omega⟩
  root_ne := fun k hk he => by
    have hn := framesFrom_toNat hend hk
    rw [he] at hn
    omega
  inj := fun j k hj hk he => by
    have hn := framesFrom_toNat hend hj
    rw [he, framesFrom_toNat hend hk] at hn
    unfold pageSize at hn
    omega

/-- An empty root, in zeroed memory. -/
theorem tree_empty : Tree (fun _ => 0) 0x1000 :=
  (@pool_start (framesFrom 0x2000) 0x1000 0 (fun _ => 0) ⟨by decide, by decide⟩
    (fun i => read_zero _) fun k hk => absurd hk (Nat.not_lt_zero k)).tree

end FrazzOS.Vmm
