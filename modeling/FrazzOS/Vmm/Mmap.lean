import FrazzOS.Vmm.Rounds

/-!
# Vmm — Mmap

`mmap` of `klibc/alloc.c`: a run of pages from `pmm_alloc`, mapped from an address on.  Its loop
counts pages, and steps by `PAGE_SIZE`: of each 4096 pages one round is made.

* `walk_mmap`: every address walks to what the rounds give.
* `mmap_backs_iff`: so the range is backed where the pages behind the rounds were mapped before.
-/

namespace FrazzOS.Vmm
open Memory

/-- The size that `mmap` asks `pmm_alloc` for. -/
def mmapSize (size : BitVec 64) : BitVec 64 :=
  if size % BitVec.ofNat 64 pageSize ≠ 0 then alignUp size else size

/-- `pages` of `mmap`. -/
def mmapPages (size : BitVec 64) : Nat := (mmapSize size).toNat / pageSize

/-- The loop of `mmap` from counter `i` on. -/
def mmapLoop (frames : Nat → BitVec 64) (rootPageDir ptr addr : BitVec 64) (flags : BitVec 32)
    (pages i : Nat) (s : VmmState) : VmmState :=
  if i < pages then
    mmapLoop frames rootPageDir ptr addr flags pages (i + pageSize)
      (vmmMapPage frames s rootPageDir (ptr + BitVec.ofNat 64 i) (addr + BitVec.ofNat 64 i) flags)
  else s
termination_by pages - i
decreasing_by unfold pageSize; omega

/-- `mmap`, where `pmm_alloc` returned `ptr` for the pages and `frames` for the tables: the
address it returns, and the state. -/
def mmap (frames : Nat → BitVec 64) (s : VmmState) (rootPageDir ptr addr size : BitVec 64)
    (flags : BitVec 32) : BitVec 64 × VmmState :=
  (addr, mmapLoop frames rootPageDir ptr addr flags (mmapPages size) 0 s)

/-- Page `k` from `base` on. -/
def pageFrom (base : BitVec 64) (k : Nat) : BitVec 64 := base + BitVec.ofNat 64 (k * pageSize)

/-- Every page of the range translates to its page of the run, with the flags, and the others keep
their translation. -/
structure Backed (frames : Nat → BitVec 64) (s : VmmState) (root ptr addr size : BitVec 64)
    (flags : BitVec 32) : Prop where
  pages : ∀ k, k < mmapPages size →
    walk (mmap frames s root ptr addr size flags).2.mem root (pageFrom addr k) =
      some (pageFrom ptr k ||| flags.signExtend 64)
  outside : ∀ virt, (∀ k, k < mmapPages size → pageNumber virt ≠ pageNumber (pageFrom addr k)) →
    walk (mmap frames s root ptr addr size flags).2.mem root virt = walk s.mem root virt

/-- The rounds of the loop. -/
def mmapRounds (size : BitVec 64) : Nat := (mmapPages size + (pageSize - 1)) / pageSize

/-- The calls of `mmap`. -/
def mmapOps (ptr addr size : BitVec 64) (flags : BitVec 32) : List VmmOp :=
  roundOps (ptr + ·) (addr + ·) flags (List.range (mmapRounds size))

variable {frames : Nat → BitVec 64} {s : VmmState} {root ptr addr size : BitVec 64}
  {flags : BitVec 32}

/-! ### The loop as a run -/

theorem mmapLoop_eq (frames : Nat → BitVec 64) (root ptr addr : BitVec 64) (flags : BitVec 32)
    {pages : Nat} (n : Nat) : ∀ {k : Nat} (s : VmmState), (pages + (pageSize - 1)) / pageSize = k + n →
    mmapLoop frames root ptr addr flags pages (k * pageSize) s =
      runOps frames root s (roundOps (ptr + ·) (addr + ·) flags (List.range' k n)) := by
  induction n with
  | zero =>
      intro k s hn
      rw [mmapLoop, if_neg (by unfold pageSize at *; omega)]
      rfl
  | succ n ih =>
      intro k s hn
      have hlt : k * pageSize < pages := by
        unfold pageSize at *
        omega
      have hnext : k * pageSize + pageSize = (k + 1) * pageSize := (Nat.succ_mul k pageSize).symm
      rw [mmapLoop, if_pos hlt, hnext, ih _ (by omega), List.range'_succ, roundOps, roundOps,
        runOps, runOps, List.map_cons, List.foldl_cons, VmmOp.run]

theorem mmap_eq_runOps (frames : Nat → BitVec 64) (s : VmmState) (root ptr addr size : BitVec 64)
    (flags : BitVec 32) : mmap frames s root ptr addr size flags =
      (addr, runOps frames root s (mmapOps ptr addr size flags)) := by
  have h := mmapLoop_eq frames root ptr addr flags (mmapRounds size) s
    (Nat.zero_add (mmapRounds size)).symm
  rw [Nat.zero_mul] at h
  rw [mmap, h, mmapOps, List.range_eq_range']

/-- `root_page_dir` may be the root's higher-half address. -/
theorem mmap_physToHh (hroot : Frame root) : mmap frames s (physToHh root) ptr addr size flags =
    mmap frames s root ptr addr size flags := by
  have hloop : ∀ ops s, (∀ op ∈ ops, ∃ phys virt, op = VmmOp.map phys virt flags) →
      runOps frames (physToHh root) s ops = runOps frames root s ops := by
    intro ops
    induction ops with
    | nil =>
        intro s _
        rw [runOps, runOps, List.foldl_nil, List.foldl_nil]
    | cons op ops ih =>
        intro s hops
        obtain ⟨phys, virt, rfl⟩ := hops op List.mem_cons_self
        have hrest := ih (vmmMapPage frames s root phys virt flags)
          fun op h => hops op (List.mem_cons_of_mem _ h)
        simp only [runOps, List.foldl_cons, VmmOp.run, vmmMapPage_physToHh hroot] at hrest ⊢
        exact hrest
  rw [mmap_eq_runOps, mmap_eq_runOps, hloop]
  intro op hop
  obtain ⟨k, -, rfl⟩ := List.mem_map.mp hop
  exact ⟨_, _, rfl⟩

/-! ### The pages of the range -/

theorem mmapPages_le (size : BitVec 64) : mmapPages size ≤ 4503599627370496 := by
  have := (mmapSize size).isLt
  unfold mmapPages pageSize
  omega

theorem mmapRounds_le (size : BitVec 64) : mmapRounds size ≤ mmapPages size := by
  unfold mmapRounds pageSize
  omega

theorem pageNumber_pageFrom (base : BitVec 64) {k : Nat} (hk : k < 4503599627370496) :
    (pageNumber (pageFrom base k)).toNat = (base.toNat / pageSize + k) % 68719476736 := by
  have hoff : (BitVec.ofNat 64 (k * pageSize)).toNat = k * pageSize := by
    rw [BitVec.toNat_ofNat]
    unfold pageSize
    omega
  rw [pageNumber_toNat, pageFrom, BitVec.toNat_add, hoff]
  unfold pageSize
  omega

/-- Pages of a range that no address space is too small for are different. -/
theorem pageFrom_inj {base : BitVec 64} {j k : Nat} (hj : j < 68719476736) (hk : k < 68719476736)
    (h : pageNumber (pageFrom base j) = pageNumber (pageFrom base k)) : j = k := by
  have hn := congrArg BitVec.toNat h
  rw [pageNumber_pageFrom base (by omega), pageNumber_pageFrom base (by omega)] at hn
  omega

/-- Flags below the address bits do not hide a difference in them. -/
theorem leaf_inj (hflags : flags.toNat < 0x200) {x y : BitVec 64}
    (h : x ||| flags.signExtend 64 = y ||| flags.signExtend 64) : x.toNat / 512 = y.toNat / 512 := by
  have hmsb : flags.msb = false := by
    rw [BitVec.msb_eq_decide, decide_eq_false_iff_not]
    omega
  have hshift : flags.signExtend 64 >>> 9 = 0#64 := by
    apply BitVec.eq_of_toNat_eq
    rw [BitVec.signExtend_eq_setWidth_of_msb_false hmsb, BitVec.toNat_ushiftRight,
      BitVec.toNat_setWidth, Nat.shiftRight_eq_div_pow, BitVec.toNat_zero]
    omega
  have hx := congrArg (fun z : BitVec 64 => (z >>> 9).toNat) h
  simp only [BitVec.ushiftRight_or_distrib, hshift, BitVec.or_zero, BitVec.toNat_ushiftRight,
    Nat.shiftRight_eq_div_pow] at hx
  exact hx

/-! ### What the range translates to -/

theorem isMap_of_mmapOps (hflags : flags.toNat < 0x200) (hpres : flags &&& ptePresent ≠ 0)
    {op : VmmOp} (hop : op ∈ mmapOps ptr addr size flags) : IsMap op := by
  obtain ⟨k, -, rfl⟩ := List.mem_map.mp hop
  exact ⟨_, _, _, rfl, hflags, hpres⟩

/-- **The walks after `mmap`** are those of the rounds on the map. -/
theorem walk_mmap (hT : Tree s.mem root) (hflags : flags.toNat < 0x200)
    (hpres : flags &&& ptePresent ≠ 0)
    (hfresh : FreshCalls root (mmap frames s root ptr addr size flags).2) (virt : BitVec 64) :
    walk (mmap frames s root ptr addr size flags).2.mem root virt =
      (mmapOps ptr addr size flags).foldl VmmOp.apply (mapOf s.mem root) (pageNumber virt) := by
  rw [mmap_eq_runOps] at hfresh ⊢
  refine (runOps_refines hT (refines_mapOf s.mem root) (fun op hop => ?_) hfresh).2 virt
  obtain ⟨_, _, _, -, hvalid⟩ := isMap_of_mmapOps hflags hpres hop
  exact hvalid

/-- A page that no round maps keeps its translation. -/
theorem walk_mmap_miss (hT : Tree s.mem root) (hflags : flags.toNat < 0x200)
    (hpres : flags &&& ptePresent ≠ 0)
    (hfresh : FreshCalls root (mmap frames s root ptr addr size flags).2) {virt : BitVec 64}
    (hmiss : ∀ k, k < mmapRounds size → pageNumber virt ≠ pageNumber (pageFrom addr k)) :
    walk (mmap frames s root ptr addr size flags).2.mem root virt = walk s.mem root virt := by
  rw [walk_mmap hT hflags hpres hfresh, mmapOps,
    foldl_miss fun k hk he => hmiss k (List.mem_range.mp hk) he.symm]
  exact (refines_mapOf s.mem root virt).symm

/-- **`mmap` backs its range** exactly when no two of its pages have one page number, and the pages
behind its rounds were mapped so before. -/
theorem mmap_backs_iff (hT : Tree s.mem root) (hflags : flags.toNat < 0x200)
    (hpres : flags &&& ptePresent ≠ 0)
    (hfresh : FreshCalls root (mmap frames s root ptr addr size flags).2) :
    Backed frames s root ptr addr size flags ↔
      mmapPages size ≤ 68719476736 ∧ ∀ k, mmapRounds size ≤ k → k < mmapPages size →
        walk s.mem root (pageFrom addr k) = some (pageFrom ptr k ||| flags.signExtend 64) := by
  have hrounds := mmapRounds_le size
  have hle := mmapPages_le size
  constructor
  · rintro ⟨hpages, -⟩
    have hroom : mmapPages size ≤ 68719476736 := by
      by_contra hgt
      -- page `0` and page `2³⁶` have one page number, and different leaves
      have hpage : pageNumber (pageFrom addr 68719476736) = pageNumber (pageFrom addr 0) := by
        apply BitVec.eq_of_toNat_eq
        rw [pageNumber_pageFrom addr (by decide), pageNumber_pageFrom addr (by decide)]
        omega
      have hfirst := hpages 0 (by omega)
      have hlast := hpages 68719476736 (by omega)
      rw [walk_mmap hT hflags hpres hfresh, hpage, ← walk_mmap hT hflags hpres hfresh, hfirst]
        at hlast
      have hdiv := leaf_inj hflags (Option.some.inj hlast)
      have hoff : (BitVec.ofNat 64 (68719476736 * pageSize)).toNat = 281474976710656 := by decide
      rw [pageFrom, pageFrom, BitVec.toNat_add, BitVec.toNat_add, hoff] at hdiv
      have hlt := ptr.isLt
      have hzero : (BitVec.ofNat 64 (0 * pageSize)).toNat = 0 := by decide
      omega
    refine ⟨hroom, fun k hk hkp => ?_⟩
    rw [← hpages k hkp, walk_mmap_miss hT hflags hpres hfresh]
    intro j hj he
    have := pageFrom_inj (by omega) (by omega) he
    omega
  · rintro ⟨hroom, hbehind⟩
    refine ⟨fun k hk => ?_, fun virt hout => ?_⟩
    · by_cases hround : k < mmapRounds size
      · rw [walk_mmap hT hflags hpres hfresh, mmapOps]
        refine foldl_hit ⟨k, List.mem_range.mpr hround, rfl⟩ fun j hj he => ?_
        have hjr := List.mem_range.mp hj
        obtain rfl := pageFrom_inj (by omega) (by omega) he
        rfl
      · rw [walk_mmap_miss hT hflags hpres hfresh, hbehind k (by omega) hk]
        intro j hj he
        have := pageFrom_inj (by omega) (by omega) he
        omega
    · exact walk_mmap_miss hT hflags hpres hfresh fun k hk => hout k (by omega)

/-! ### An empty address space -/

/-- Over a pool, every frame that `mmap` takes below an empty root is fresh. -/
theorem mmap_pool (hflags : flags.toNat < 0x200) (hpres : flags &&& ptePresent ≠ 0)
    (hrounds : mmapRounds size ≤ 1) :
    FreshCalls 0x1000 (mmap (framesFrom 0x2000) ⟨fun _ => 0, []⟩ 0x1000 ptr addr size flags).2 := by
  have hd : Distinct (framesFrom 0x2000) 0x1000 3 :=
    distinct_framesFrom (by decide) (by decide) (by decide)
  have hP : Pool (framesFrom 0x2000) 0x1000 3 ⟨fun _ => 0, []⟩ :=
    pool_start ⟨by decide, by decide⟩ (fun i => read_zero _) fun k _ i => read_zero _
  rw [mmap_eq_runOps]
  refine (hP.runOps hd (fun op => isMap_of_mmapOps hflags hpres) ?_).fresh
  rw [mmapOps, roundOps, List.length_map, List.length_range, List.length_nil]
  omega

/-- Two pages. -/
theorem mmap_backs_iff_two :
    Backed (framesFrom 0x2000) ⟨fun _ => 0, []⟩ 0x1000 0x100000 0x400000 0x2000 3 ↔
      mmapPages 0x2000 ≤ 68719476736 ∧ ∀ k, mmapRounds 0x2000 ≤ k → k < mmapPages 0x2000 →
        walk (fun _ => 0) 0x1000 (pageFrom 0x400000 k) =
          some (pageFrom 0x100000 k ||| (3 : BitVec 32).signExtend 64) :=
  mmap_backs_iff tree_empty (by decide) (by decide) (mmap_pool (by decide) (by decide) (by decide))

/-- Of two pages, the second is not mapped. -/
theorem mmap_backs_fails : ¬ ∀ (frames : Nat → BitVec 64) (s : VmmState)
    (root ptr addr size : BitVec 64) (flags : BitVec 32), Tree s.mem root →
    addr.toNat % pageSize = 0 → 1 ≤ size.toNat → flags.toNat < 0x200 →
    flags &&& ptePresent ≠ 0 → FreshCalls root (mmap frames s root ptr addr size flags).2 →
    Backed frames s root ptr addr size flags := by
  intro hall
  have hfresh : FreshCalls 0x1000 (mmap (framesFrom 0x2000) ⟨fun _ => 0, []⟩ 0x1000 0x100000
      0x400000 0x2000 3).2 := mmap_pool (by decide) (by decide) (by decide)
  have hpage := (hall (framesFrom 0x2000) ⟨fun _ => 0, []⟩ 0x1000 0x100000 0x400000 0x2000 3
    tree_empty (by decide) (by decide) (by decide) (by decide) hfresh).pages 1 (by decide)
  have hmiss : ∀ k, k < mmapRounds 0x2000 →
      pageNumber (pageFrom 0x400000 1) ≠ pageNumber (pageFrom 0x400000 k) := by
    intro k hk he
    have hone : mmapRounds 0x2000 = 1 := by decide
    have := pageFrom_inj (by decide) (by omega) he
    omega
  have hempty : tableAt (fun _ => 0) 0x1000 (leafPath (pageFrom 0x400000 1)) = none :=
    tableAt_empty (fun i => read_zero _) (List.cons_ne_nil _ _)
  rw [walk_mmap_miss tree_empty (by decide) (by decide) hfresh hmiss, walk, hempty] at hpage
  cases hpage

end FrazzOS.Vmm
