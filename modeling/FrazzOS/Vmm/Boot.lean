import FrazzOS.Klibc.Memory
import FrazzOS.Vmm.Rounds

/-!
# Vmm — Boot

`vmm_init`: a new root, and three loops of 4 GiB each that map the identity window, the direct
window at `KERNEL_VIRT_BASE_ADDR` and the kernel window at `KERNEL_VIRT_TOP_ADDR`.

* `vmmInit_walk`: what every address of the windows walks to.  The kernel window has room for
  2 GiB; behind it the addresses of the third loop wrap to `0`, and overwrite the identity window
  of the first 2 GiB.
* `vmm_init_not_windows`: so the three windows never hold at once.
-/

namespace FrazzOS.Vmm
open Memory

/-- `4 * GIGABYTE / PAGE_SIZE`, the rounds of each loop. -/
def loopPages : Nat := 4 * 0x40000000 / pageSize

/-- `memset`, of the `n` bytes that a data access reaches from `s` on. -/
def memset (m : Mem) (s : BitVec 64) (c : BitVec 32) (n : Nat) : Mem :=
  Klibc.setBytes m (physAddr s) c (BitVec.ofNat 64 n)

/-- `vmm_new_page_dir`, where `pmm_alloc` returned `frame`. -/
def vmmNewPageDir (m : Mem) (frame : BitVec 64) : BitVec 64 × Mem :=
  let newPageDir := physToHh frame
  (newPageDir, memset m (hhToPhys newPageDir) 0 pageSize)

/-- `PTE_PRESENT | PTE_READ_WRITE`. -/
def bootFlags : BitVec 32 := ptePresent ||| pteReadWrite

/-- A loop `for (uint64_t i = 0; i < 4 * GIGABYTE; i += PAGE_SIZE)` over `vmm_map_page`. -/
def mapLoop (frames : Nat → BitVec 64) (s : VmmState) (rootPageDir : BitVec 64)
    (phys virt : BitVec 64 → BitVec 64) : VmmState :=
  (List.range loopPages).foldl (fun s k =>
    let i := BitVec.ofNat 64 (k * pageSize)
    vmmMapPage frames s rootPageDir (phys i) (virt i) bootFlags) s

/-- `vmm_init`, where the first `pmm_alloc` returned `rootFrame` and the later ones `frames`: the
root it activates, and the state. -/
def vmmInit (m : Mem) (rootFrame : BitVec 64) (frames : Nat → BitVec 64)
    (physicalBase : BitVec 64) : BitVec 64 × VmmState :=
  let (rootPageDir, m) := vmmNewPageDir m rootFrame
  let s := mapLoop frames ⟨m, []⟩ rootPageDir (fun i => i) (fun i => i)
  let s := mapLoop frames s rootPageDir (fun i => i) physToHh
  let s := mapLoop frames s rootPageDir (physicalBase + ·) (kernelVirtTopAddr + ·)
  (hhToPhys rootPageDir, s)

/-- The leaf of a page of a window. -/
def bootLeaf (phys : BitVec 64) : BitVec 64 := phys ||| bootFlags.signExtend 64

/-- The three windows of an address space. -/
structure Windows (m : Mem) (root physicalBase : BitVec 64) : Prop where
  identity : ∀ a : BitVec 64, a.toNat % pageSize = 0 → a.toNat < 0x100000000 →
    walk m root a = some (bootLeaf a)
  direct : ∀ a : BitVec 64, a.toNat % pageSize = 0 → a.toNat < 0x100000000 →
    walk m root (kernelVirtBaseAddr + a) = some (bootLeaf a)
  kernel : ∀ off : BitVec 64, off.toNat % pageSize = 0 → off.toNat < 0x80000000 →
    walk m root (kernelVirtTopAddr + off) = some (bootLeaf (physicalBase + off))

/-! ### The loops as runs -/

/-- The calls of a loop. -/
def loopOps (phys virt : BitVec 64 → BitVec 64) : List VmmOp :=
  (List.range loopPages).map fun k =>
    let i := BitVec.ofNat 64 (k * pageSize)
    .map (phys i) (virt i) bootFlags

theorem isMap_of_loopOps {phys virt : BitVec 64 → BitVec 64} {op : VmmOp}
    (h : op ∈ loopOps phys virt) : IsMap op := by
  obtain ⟨k, -, rfl⟩ := List.mem_map.mp h
  exact ⟨_, _, _, rfl, by decide, by decide⟩

theorem mapLoop_eq_runOps {frames : Nat → BitVec 64} {root : BitVec 64} (hroot : Frame root)
    (s : VmmState) (phys virt : BitVec 64 → BitVec 64) :
    mapLoop frames s (physToHh root) phys virt = runOps frames root s (loopOps phys virt) := by
  simp only [mapLoop, vmmMapPage_physToHh hroot]
  exact foldl_mapPage frames root phys virt bootFlags (List.range loopPages) s

/-- The calls of `vmm_init`. -/
def bootOps (physicalBase : BitVec 64) : List VmmOp :=
  loopOps (fun i => i) (fun i => i) ++ loopOps (fun i => i) physToHh ++
    loopOps (physicalBase + ·) (kernelVirtTopAddr + ·)

theorem isMap_of_bootOps {physicalBase : BitVec 64} {op : VmmOp} (h : op ∈ bootOps physicalBase) :
    IsMap op := by
  rcases List.mem_append.mp h with h | h
  · rcases List.mem_append.mp h with h | h
    · exact isMap_of_loopOps h
    · exact isMap_of_loopOps h
  · exact isMap_of_loopOps h

theorem vmmInit_eq_runOps {rootFrame : BitVec 64} (hroot : Frame rootFrame) (m : Mem)
    (frames : Nat → BitVec 64) (physicalBase : BitVec 64) :
    vmmInit m rootFrame frames physicalBase =
      (rootFrame, runOps frames rootFrame ⟨memset m rootFrame 0 pageSize, []⟩
        (bootOps physicalBase)) := by
  simp only [vmmInit, vmmNewPageDir, hhToPhys_physToHh, mapLoop_eq_runOps hroot, runOps, bootOps,
    List.foldl_append]

/-- A new root is zero-filled. -/
theorem zeroFilled_memset {f : BitVec 64} (hf : Frame f) (m : Mem) :
    ZeroFilled (memset m f 0 pageSize) f := by
  intro i
  have haddr := entryAddr_toNat hf i
  have hi := i.isLt
  obtain ⟨ha, hlt⟩ := hf
  have hphys : physAddr f = f := by
    have hbase : kernelVirtBaseAddr.toNat = 18446603336221196288 := by decide
    rw [physAddr, if_neg (by rw [BitVec.le_def]; omega)]
  rw [entry, ← read_zero (entryAddr f (i.setWidth 64))]
  refine read_congr fun j hj => ?_
  have hoff : (entryAddr f (i.setWidth 64) + BitVec.ofNat 64 j - f).toNat = 8 * i.toNat + j := by
    rw [BitVec.toNat_sub, toNat_add_ofNat (by omega), haddr]
    omega
  have hsize : (BitVec.ofNat 64 pageSize).toNat = 4096 := by decide
  rw [memset, Klibc.setBytes_apply, hphys, hoff, if_pos (by omega)]
  rfl

/-! ### The map that the loops make -/

section Loop

variable {phys virt : BitVec 64 → BitVec 64} {A : PageMap} {n : BitVec 36} {f : Nat → Nat}

/-- A page that no round of a loop maps keeps its leaf. -/
theorem loop_miss (hf : ∀ k, k < loopPages → (roundPage virt k).toNat = f k)
    (h : ∀ k, k < loopPages → f k ≠ n.toNat) : (loopOps phys virt).foldl VmmOp.apply A n = A n :=
  foldl_miss fun k hk he => by
    have hlt := List.mem_range.mp hk
    exact h k hlt ((hf k hlt).symm.trans (congrArg BitVec.toNat he))

/-- A page that one round of a loop maps gets the leaf of that round. -/
theorem loop_hit {k : Nat} (hf : ∀ k, k < loopPages → (roundPage virt k).toNat = f k)
    (hk : k < loopPages) (hn : f k = n.toNat)
    (hinj : ∀ j, j < loopPages → f j = f k → j = k) :
    (loopOps phys virt).foldl VmmOp.apply A n =
      some (bootLeaf (phys (BitVec.ofNat 64 (k * pageSize)))) := by
  refine foldl_hit ⟨k, List.mem_range.mpr hk, ?_⟩ fun j hj he => ?_
  · exact BitVec.eq_of_toNat_eq ((hf k hk).trans hn)
  · have hlt := List.mem_range.mp hj
    have hj' : f j = f k := ((hf j hlt).symm.trans (congrArg BitVec.toNat he)).trans hn.symm
    rw [hinj j hlt hj', bootLeaf]

end Loop

/-! ### The pages of the rounds -/

theorem toNat_round {k : Nat} (hk : k < loopPages) :
    (BitVec.ofNat 64 (k * pageSize)).toNat = k * pageSize := by
  have hl : loopPages = 1048576 := by decide
  rw [BitVec.toNat_ofNat]
  unfold pageSize
  omega

theorem identity_page (k : Nat) (hk : k < loopPages) : (roundPage (fun i => i) k).toNat = k := by
  have hl : loopPages = 1048576 := by decide
  rw [roundPage, pageNumber_toNat, toNat_round hk]
  unfold pageSize
  omega

theorem direct_page (k : Nat) (hk : k < loopPages) :
    (roundPage physToHh k).toNat = 34359738368 + k := by
  have hl : loopPages = 1048576 := by decide
  have hbase : kernelVirtBaseAddr.toNat = 18446603336221196288 := by decide
  rw [roundPage, pageNumber_toNat, physToHh, BitVec.toNat_add, toNat_round hk, hbase]
  unfold pageSize
  omega

/-- The kernel window has `2¹⁹` pages; the rounds behind them map the first pages of all. -/
def kernelPage (k : Nat) : Nat := if k < 524288 then 68718952448 + k else k - 524288

theorem kernel_page (k : Nat) (hk : k < loopPages) :
    (roundPage (kernelVirtTopAddr + ·) k).toNat = kernelPage k := by
  have hl : loopPages = 1048576 := by decide
  have htop : kernelVirtTopAddr.toNat = 18446744071562067968 := by decide
  rw [roundPage, pageNumber_toNat, BitVec.toNat_add, toNat_round hk, htop, kernelPage]
  unfold pageSize
  split <;> omega

theorem kernelPage_inj {j k : Nat} (hj : j < loopPages) (hk : k < loopPages)
    (h : kernelPage j = kernelPage k) : j = k := by
  have hl : loopPages = 1048576 := by decide
  unfold kernelPage at h
  split at h <;> split at h <;> omega

/-! ### The walks after `vmm_init` -/

/-- What the addresses of the three windows walk to. -/
structure BootWalks (m : Mem) (root physicalBase : BitVec 64) : Prop where
  low : ∀ a : BitVec 64, a.toNat % pageSize = 0 → a.toNat < 0x80000000 →
    walk m root a = some (bootLeaf (physicalBase + (0x80000000 + a)))
  identity : ∀ a : BitVec 64, a.toNat % pageSize = 0 → 0x80000000 ≤ a.toNat →
    a.toNat < 0x100000000 → walk m root a = some (bootLeaf a)
  direct : ∀ a : BitVec 64, a.toNat % pageSize = 0 → a.toNat < 0x100000000 →
    walk m root (kernelVirtBaseAddr + a) = some (bootLeaf a)
  kernel : ∀ off : BitVec 64, off.toNat % pageSize = 0 → off.toNat < 0x80000000 →
    walk m root (kernelVirtTopAddr + off) = some (bootLeaf (physicalBase + off))

/-- The offset of a page-aligned address, as that of a round. -/
theorem round_of_aligned {a : BitVec 64} (ha : a.toNat % pageSize = 0) :
    BitVec.ofNat 64 (a.toNat / pageSize * pageSize) = a := by
  rw [Nat.div_mul_cancel (Nat.dvd_of_mod_eq_zero ha), BitVec.ofNat_toNat, BitVec.setWidth_eq]

/-- **The windows after `vmm_init`**: all of them hold but the first 2 GiB of the identity window,
which the rounds behind the kernel window overwrite. -/
theorem vmmInit_walks {m : Mem} {rootFrame physicalBase : BitVec 64} {frames : Nat → BitVec 64}
    (hroot : Frame rootFrame)
    (hfresh : FreshCalls rootFrame (vmmInit m rootFrame frames physicalBase).2) :
    BootWalks (vmmInit m rootFrame frames physicalBase).2.mem
      (vmmInit m rootFrame frames physicalBase).1 physicalBase := by
  rw [vmmInit_eq_runOps hroot] at hfresh ⊢
  have hpool : Pool frames rootFrame 0 ⟨memset m rootFrame 0 pageSize, []⟩ :=
    pool_start hroot (zeroFilled_memset hroot m) fun k hk => absurd hk (Nat.not_lt_zero k)
  have hT : Tree (memset m rootFrame 0 pageSize) rootFrame := hpool.tree
  have hops : ∀ op ∈ bootOps physicalBase, op.Valid := by
    intro op hop
    obtain ⟨_, _, _, -, hvalid⟩ := isMap_of_bootOps hop
    exact hvalid
  simp only at hfresh ⊢
  obtain ⟨-, hwalk⟩ := runOps_refines (s := ⟨memset m rootFrame 0 pageSize, []⟩) hT
    (refines_mapOf _ rootFrame) hops hfresh
  have hmap : ∀ v, walk (runOps frames rootFrame ⟨memset m rootFrame 0 pageSize, []⟩
      (bootOps physicalBase)).mem rootFrame v =
        (loopOps (physicalBase + ·) (kernelVirtTopAddr + ·)).foldl VmmOp.apply
          ((loopOps (fun i => i) physToHh).foldl VmmOp.apply
            ((loopOps (fun i => i) (fun i => i)).foldl VmmOp.apply
              (mapOf (memset m rootFrame 0 pageSize) rootFrame))) (pageNumber v) := by
    intro v
    rw [hwalk, bootOps, List.foldl_append, List.foldl_append]
  have hl : loopPages = 1048576 := by decide
  refine ⟨fun a ha hlt => ?_, fun a ha hle hlt => ?_, fun a ha hlt => ?_, fun off ha hlt => ?_⟩
  · -- the third loop reaches this page once its addresses have wrapped
    have hn := pageNumber_toNat a
    have hoff : BitVec.ofNat 64 ((a.toNat / pageSize + 524288) * pageSize) = 0x80000000 + a := by
      rw [Nat.add_mul, BitVec.ofNat_add, round_of_aligned ha, BitVec.add_comm]
      rfl
    unfold pageSize at hn hoff
    rw [hmap, loop_hit (k := a.toNat / 4096 + 524288) kernel_page (by omega)
      (by unfold kernelPage; split <;> omega) fun j hj => kernelPage_inj hj (by omega)]
    unfold pageSize
    rw [hoff]
  · have hn := pageNumber_toNat a
    have hoff := round_of_aligned ha
    unfold pageSize at hn hoff
    rw [hmap, loop_miss kernel_page fun k hk => by unfold kernelPage; split <;> omega,
      loop_miss direct_page fun k hk => by omega,
      loop_hit (k := a.toNat / 4096) identity_page (by omega) (by omega) fun j _ he => he]
    unfold pageSize
    rw [hoff]
  · have hbase : kernelVirtBaseAddr.toNat = 18446603336221196288 := by decide
    have hn := pageNumber_toNat (kernelVirtBaseAddr + a)
    have hoff := round_of_aligned ha
    rw [BitVec.toNat_add, hbase] at hn
    unfold pageSize at hn hoff
    rw [hmap, loop_miss kernel_page fun k hk => by unfold kernelPage; split <;> omega,
      loop_hit (k := a.toNat / 4096) direct_page (by omega) (by omega) fun j _ he => by omega]
    unfold pageSize
    rw [hoff]
  · have htop : kernelVirtTopAddr.toNat = 18446744071562067968 := by decide
    have hn := pageNumber_toNat (kernelVirtTopAddr + off)
    have hoff := round_of_aligned ha
    rw [BitVec.toNat_add, htop] at hn
    unfold pageSize at hn hoff
    rw [hmap, loop_hit (k := off.toNat / 4096) kernel_page (by omega)
      (by unfold kernelPage; split <;> omega) fun j hj => kernelPage_inj hj (by omega)]
    unfold pageSize
    rw [hoff]

/-- Over a pool that is large enough, every frame that `vmm_init` takes is fresh. -/
theorem vmmInit_fresh {m : Mem} {rootFrame : BitVec 64} {frames : Nat → BitVec 64} {N : Nat}
    (physicalBase : BitVec 64) (hroot : Frame rootFrame) (hd : Distinct frames rootFrame N)
    (hzero : ∀ k, k < N → ZeroFilled (memset m rootFrame 0 pageSize) (frames k))
    (hN : 9 * loopPages ≤ N) :
    FreshCalls rootFrame (vmmInit m rootFrame frames physicalBase).2 := by
  have hP := pool_start hroot (zeroFilled_memset hroot m) hzero
  have hlen : (bootOps physicalBase).length = 3 * loopPages := by
    simp only [bootOps, loopOps, List.length_append, List.length_map, List.length_range]
    omega
  have hrun : Pool frames rootFrame N (runOps frames rootFrame ⟨memset m rootFrame 0 pageSize, []⟩
      (bootOps physicalBase)) := by
    refine hP.runOps hd (fun op => isMap_of_bootOps) ?_
    rw [hlen, List.length_nil]
    omega
  rw [vmmInit_eq_runOps hroot]
  simp only
  exact hrun.fresh

/-- **The three windows never hold at once**: whatever the physical base of the kernel, address `0`
walks to `physical_base + 2 GiB`. -/
theorem vmm_init_not_windows {m : Mem} {rootFrame physicalBase : BitVec 64}
    {frames : Nat → BitVec 64} (hroot : Frame rootFrame) (hlt : physicalBase.toNat < 0x100000000)
    (hfresh : FreshCalls rootFrame (vmmInit m rootFrame frames physicalBase).2) :
    ¬ Windows (vmmInit m rootFrame frames physicalBase).2.mem
      (vmmInit m rootFrame frames physicalBase).1 physicalBase := by
  intro hw
  have hzero := (vmmInit_walks hroot hfresh).low 0 (by decide) (by decide)
  rw [hw.identity 0 (by decide) (by decide)] at hzero
  have hle : physicalBase.toNat + 2147483648 ≤ (bootLeaf 0).toNat := by
    rw [Option.some.inj hzero, bootLeaf, BitVec.toNat_or]
    refine Nat.le_trans (Nat.le_of_eq ?_) Nat.left_le_or
    rw [BitVec.toNat_add]
    have h31 : (0x80000000 + 0 : BitVec 64).toNat = 2147483648 := by decide
    omega
  have hleaf : (bootLeaf 0).toNat = 3 := by decide
  omega

/-- Zeroed memory, and the kernel at 2 MiB. -/
theorem bootPool_fresh :
    FreshCalls 0x1000 (vmmInit (fun _ => 0) 0x1000 (framesFrom 0x2000) 0x200000).2 := by
  have hmem : memset (fun _ => 0) 0x1000 0 pageSize = fun _ => 0 := by
    funext x
    rw [memset, Klibc.setBytes_apply]
    exact ite_self _
  have hl : loopPages = 1048576 := by decide
  refine vmmInit_fresh (N := 9437184) _ ⟨by decide, by decide⟩
    (distinct_framesFrom (by decide) (by decide) (by decide)) (fun k _ i => ?_) (by omega)
  rw [hmem]
  exact read_zero _

theorem vmm_init_not_windows_pool :
    ¬ Windows (vmmInit (fun _ => 0) 0x1000 (framesFrom 0x2000) 0x200000).2.mem
      (vmmInit (fun _ => 0) 0x1000 (framesFrom 0x2000) 0x200000).1 0x200000 :=
  vmm_init_not_windows ⟨by decide, by decide⟩ (by decide) bootPool_fresh

/-- The boot address space holds all three windows, for every physical base. -/
def BootAddressSpace : Prop :=
  ∀ m rootFrame frames physicalBase, Frame rootFrame → physicalBase.toNat % pageSize = 0 →
    physicalBase.toNat < 0x100000000 →
    FreshCalls rootFrame (vmmInit m rootFrame frames physicalBase).2 →
    Windows (vmmInit m rootFrame frames physicalBase).2.mem
      (vmmInit m rootFrame frames physicalBase).1 physicalBase

/-- **The identity window does not hold**: with the kernel at 2 MiB, address `0` walks to
`0x80200000`. -/
theorem boot_address_space_fails : ¬ BootAddressSpace := by
  intro hall
  have hroot : Frame 0x1000 := ⟨by decide, by decide⟩
  have hw := hall (fun _ => 0) 0x1000 (framesFrom 0x2000) 0x200000 hroot (by decide) (by decide)
    bootPool_fresh
  have hzero := (vmmInit_walks hroot bootPool_fresh).low 0 (by decide) (by decide)
  rw [hw.identity 0 (by decide) (by decide)] at hzero
  exact absurd (Option.some.inj hzero) (by decide)

end FrazzOS.Vmm
