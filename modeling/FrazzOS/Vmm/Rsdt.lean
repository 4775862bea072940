import FrazzOS.Pmm.Alloc
import FrazzOS.Vmm.Rounds

/-!
# Vmm — Rsdt

The loop of `acpi_init` that maps the RSDT into the higher half.  It starts at `rsdt_addr` itself,
steps by `PAGE_SIZE` up to the aligned length, and puts `rsdt_addr + i` into the leaf, with the
offset in its page.  It reads the length in the table before each round.

* `vmmMapPage_other`: a call of `vmm_map_page` writes in page tables only, so that the length stays;
  `rsdtLoop_eq`: the rounds of the loop.
* `rsdt_exact_iff`: the leaves are those of the table's pages, with the two flags, and every page of
  the table gets one, exactly when the table is empty, or its offset is at most 3 and it does not
  go on behind the pages that its length makes.
-/

namespace FrazzOS.Vmm
open Memory

/-- `rsdt->header.length`, as a data access finds it. -/
def headerLength (s : VmmState) (rsdt : BitVec 64) : BitVec 32 := read32 s.mem (physAddr (rsdt + 4))

theorem alignUp_length_toNat (length : BitVec 32) :
    (alignUp (length.setWidth 64)).toNat = (length.toNat + 4095) / pageSize * pageSize := by
  have := length.isLt
  have hlen : (length.setWidth 64).toNat = length.toNat := by
    rw [BitVec.toNat_setWidth]
    omega
  rw [Pmm.alignUp_toNat (by omega), Pmm.pageCount, hlen]
  rfl

theorem alignUp_length_le (length : BitVec 32) :
    (alignUp (length.setWidth 64)).toNat ≤ 4294967296 := by
  have := length.isLt
  rw [alignUp_length_toNat]
  unfold pageSize
  omega

/-- `rsdp->rsdt_addr`, as a `uint64_t`, and `i` bytes behind it. -/
def rsdtPhys (rsdtAddr : BitVec 32) (i : BitVec 64) : BitVec 64 := rsdtAddr.setWidth 64 + i

/-- `(uint64_t)rsdt`, and `i` bytes behind it. -/
def rsdtVirt (rsdtAddr : BitVec 32) (i : BitVec 64) : BitVec 64 :=
  physToHh (rsdtAddr.setWidth 64) + i

/-- The loop of `acpi_init` from counter `i` on. -/
def rsdtLoop (frames : Nat → BitVec 64) (rootPageDir : BitVec 64) (rsdtAddr : BitVec 32) (i : Nat)
    (s : VmmState) : VmmState :=
  if i < (alignUp ((headerLength s (rsdtVirt rsdtAddr 0)).setWidth 64)).toNat then
    rsdtLoop frames rootPageDir rsdtAddr (i + pageSize)
      (vmmMapPage frames s rootPageDir (rsdtPhys rsdtAddr (BitVec.ofNat 64 i))
        (rsdtVirt rsdtAddr (BitVec.ofNat 64 i)) (ptePresent ||| pteReadWrite))
  else s
termination_by 4294967296 - i
decreasing_by
  have := alignUp_length_le (headerLength s (rsdtVirt rsdtAddr 0))
  unfold pageSize
  omega

/-- The page-aligned frame of a physical address. -/
def pageFrame (addr : BitVec 64) : BitVec 64 := addr &&& ~~~(4095 : BitVec 64)

/-- The rounds that a length makes. -/
def rsdtRounds (length : BitVec 32) : Nat := (alignUp (length.setWidth 64)).toNat / pageSize

/-- Every byte of the table is reached in the higher half, through a leaf that is its frame with the
two flags, and a round has mapped its page. -/
structure RsdtExact (frames : Nat → BitVec 64) (s : VmmState) (root : BitVec 64)
    (rsdtAddr length : BitVec 32) : Prop where
  leaf : ∀ b, b < length.toNat →
    walk (rsdtLoop frames (physToHh root) rsdtAddr 0 s).mem root
        (physToHh (rsdtPhys rsdtAddr (BitVec.ofNat 64 b))) =
      some (pageFrame (rsdtPhys rsdtAddr (BitVec.ofNat 64 b)) |||
        (ptePresent ||| pteReadWrite).signExtend 64)
  mapped : ∀ b, b < length.toNat → ∃ k, k < rsdtRounds length ∧
    roundPage (rsdtVirt rsdtAddr) k = pageNumber (physToHh (rsdtPhys rsdtAddr (BitVec.ofNat 64 b)))

/-- A frame of the page tables, or one that `pmm_alloc` returns for them. -/
def TableFrame (frames : Nat → BitVec 64) (root : BitVec 64) (s : VmmState) (f : BitVec 64) :
    Prop :=
  InTree s.mem root f ∨ ∃ k, f = frames k

variable {frames : Nat → BitVec 64} {root t : BitVec 64} {s : VmmState} {p : List (BitVec 9)}
  {i : BitVec 9} {flags : BitVec 32} {phys virt x : BitVec 64} {rsdtAddr length : BitVec 32}

/-! ### Data outside the page tables -/

/-- A store of an entry leaves the bytes outside its frame. -/
theorem store_other (ht : Frame t) (hx : x ∉ span t pageSize) (i : BitVec 9) (e : BitVec 64) :
    (s.store t (i.setWidth 64) e).mem x = s.mem x := by
  have hi := i.isLt
  have haddr : entryAddr t (i.setWidth 64) = t + BitVec.ofNat 64 (8 * i.toNat) := by
    have hlt := ht.reachable
    apply BitVec.eq_of_toNat_eq
    rw [entryAddr_toNat ht, toNat_add_ofNat (by omega)]
  refine write_of_notMem fun hin => hx ?_
  rw [haddr] at hin
  obtain ⟨-, hlt⟩ := (mem_span_offset (by omega) (by omega)).mp hin
  rw [mem_span]
  unfold pageSize
  omega

/-- **A level of `vmm_map_page`** writes in its own table, and adds a frame of `pmm_alloc` at
most. -/
theorem getNext_other (hT : Tree s.mem root) (hp : p.length ≤ 2)
    (ht : tableAt s.mem root p = some t) (hpres : flags &&& ptePresent ≠ 0)
    (hf : ¬ Present (entry s.mem t i) →
      Loose s.mem root (frames s.calls.length) ∧ Linked frames flags s.calls.length) :
    (∀ x, (∀ f, TableFrame frames root s f → x ∉ span f pageSize) →
      (vmmGetNextMapLevel frames s t (i.setWidth 64) flags).2.mem x = s.mem x) ∧
      ∀ f, TableFrame frames root (vmmGetNextMapLevel frames s t (i.setWidth 64) flags).2 f →
        TableFrame frames root s f := by
  by_cases h : Present (entry s.mem t i)
  · rw [getNext_present h]
    exact ⟨fun _ _ => rfl, fun f hf => hf⟩
  · have hin : InTree s.mem root t := ⟨p, by omega, ht⟩
    obtain ⟨hloose, hlinked⟩ := hf h
    have hlink : Present (linkEntry frames s flags) := (present_link hloose.frame flags).mpr hpres
    have htables := tableAt_link hT hp ht h hloose hlink hlinked
    rw [getNext_absent h]
    refine ⟨fun x hx => store_other (hT.frame hin) (hx t (Or.inl hin)) i _, fun f hframe => ?_⟩
    rcases hframe with ⟨q, hq, hqf⟩ | hframe
    · have hqf' : tableAt (s.store t (i.setWidth 64) (linkEntry frames s flags)).mem root q =
          some f := hqf
      rw [htables q hq] at hqf'
      split at hqf'
      · exact Or.inr ⟨_, (Option.some.inj hqf').symm⟩
      · exact Or.inl ⟨q, hq, hqf'⟩
    · exact Or.inr hframe

/-- **`vmm_map_page`** writes in page tables only. -/
theorem vmmMapPage_other (hT : Tree s.mem root) (hflags : flags.toNat < 0x200)
    (hpres : flags &&& ptePresent ≠ 0)
    (hfresh : FreshCalls root (vmmMapPage frames s root phys virt flags)) :
    (∀ x, (∀ f, TableFrame frames root s f → x ∉ span f pageSize) →
      (vmmMapPage frames s root phys virt flags).mem x = s.mem x) ∧
      ∀ f, TableFrame frames root (vmmMapPage frames s root phys virt flags) f →
        TableFrame frames root s f := by
  rw [vmmMapPage, setLeaf_eq] at hfresh ⊢
  simp only at hfresh ⊢
  have hfresh₁ : FreshCalls root _ := hfresh
  obtain ⟨hfresh₂, -⟩ := FreshCalls.of_getNext hfresh₁
  obtain ⟨hfresh₃, -⟩ := FreshCalls.of_getNext hfresh₂
  obtain ⟨hT₃, -, ht₃⟩ := getNext_map (p := []) hT (by decide) rfl hpres (hfresh₃.loose hflags)
  obtain ⟨hx₃, hs₃⟩ := getNext_other (p := []) hT (by decide) rfl hpres (hfresh₃.loose hflags)
  obtain ⟨hT₂, -, ht₂⟩ := getNext_map hT₃ (by simp) ht₃ hpres (hfresh₂.loose hflags)
  obtain ⟨hx₂, hs₂⟩ := getNext_other hT₃ (by simp) ht₃ hpres (hfresh₂.loose hflags)
  obtain ⟨hT₁, -, ht₁⟩ := getNext_map hT₂ (by simp) ht₂ hpres (hfresh₁.loose hflags)
  obtain ⟨hx₁, hs₁⟩ := getNext_other hT₂ (by simp) ht₂ hpres (hfresh₁.loose hflags)
  have hin : InTree _ root _ := ⟨leafPath virt, leafPath_le virt, ht₁⟩
  have hback := fun f hf => hs₃ f (hs₂ f (hs₁ f hf))
  obtain ⟨htables, -⟩ := store_leaf hT₁ virt ht₁ (phys ||| flags.signExtend 64)
  refine ⟨fun x hx => ?_, fun f hf => hback f ?_⟩
  · rw [store_other (hT₁.frame hin) (hx _ (hback _ (Or.inl hin))),
      hx₁ x fun f hf => hx f (hs₃ f (hs₂ f hf)), hx₂ x fun f hf => hx f (hs₃ f hf), hx₃ x hx]
  · rcases hf with hf | hf
    · exact Or.inl ((inTree_congr htables f).mp hf)
    · exact Or.inr hf

/-- Memories that agree on four bytes agree on their word. -/
theorem read32_congr {m m' : Mem} {a : BitVec 64} (h : ∀ x ∈ span a 4, m' x = m x) :
    read32 m' a = read32 m a := by
  have hin : ∀ c, c < 4 → m' (a + BitVec.ofNat 64 c) = m (a + BitVec.ofNat 64 c) := by
    intro c hc
    refine h _ ?_
    rw [mem_span, toNat_sub_add a (by omega)]
    exact hc
  have h₀ := hin 0 (by decide)
  rw [BitVec.add_zero] at h₀
  rw [read32, read32, h₀, show m' (a + 1) = m (a + 1) from hin 1 (by decide),
    show m' (a + 2) = m (a + 2) from hin 2 (by decide),
    show m' (a + 3) = m (a + 3) from hin 3 (by decide)]

/-- The length of the table is in no page table. -/
def LengthApart (frames : Nat → BitVec 64) (root : BitVec 64) (s : VmmState)
    (rsdtAddr : BitVec 32) : Prop :=
  ∀ f, TableFrame frames root s f →
    Disjoint (span f pageSize) (span (physAddr (rsdtVirt rsdtAddr 0 + 4)) 4)

/-- A call leaves the length. -/
theorem headerLength_mapPage (hT : Tree s.mem root) (hapart : LengthApart frames root s rsdtAddr)
    (hflags : flags.toNat < 0x200) (hpres : flags &&& ptePresent ≠ 0)
    (hfresh : FreshCalls root (vmmMapPage frames s root phys virt flags)) :
    headerLength (vmmMapPage frames s root phys virt flags) (rsdtVirt rsdtAddr 0) =
      headerLength s (rsdtVirt rsdtAddr 0) := by
  obtain ⟨hother, -⟩ := vmmMapPage_other hT hflags hpres hfresh
  exact read32_congr fun x hx =>
    hother x fun f hf hin => Set.disjoint_left.mp (hapart f hf) hin hx

/-! ### The rounds of the loop -/

/-- The calls of the loop. -/
def rsdtOps (rsdtAddr length : BitVec 32) : List VmmOp :=
  roundOps (rsdtPhys rsdtAddr) (rsdtVirt rsdtAddr) (ptePresent ||| pteReadWrite)
    (List.range (rsdtRounds length))

theorem rsdtLoop_physToHh (hroot : Frame root) (i : Nat) (s : VmmState) :
    rsdtLoop frames (physToHh root) rsdtAddr i s = rsdtLoop frames root rsdtAddr i s := by
  generalize hdir : physToHh root = dir
  fun_induction rsdtLoop frames dir rsdtAddr i s with
  | case1 i s h ih =>
      rw [ih, ← hdir, vmmMapPage_physToHh hroot]
      conv_rhs => rw [rsdtLoop, if_pos h]
  | case2 i s h => rw [rsdtLoop, if_neg h]

theorem FreshCalls.of_rsdtLoop {i : Nat} {s : VmmState} :
    FreshCalls root (rsdtLoop frames root rsdtAddr i s) → FreshCalls root s := by
  fun_induction rsdtLoop frames root rsdtAddr i s with
  | case1 i s h ih => exact fun hf => FreshCalls.of_setLeaf (ih hf)
  | case2 i s h => exact fun hf => hf

/-- **The loop is the run of its rounds**, since the length stays. -/
theorem rsdtLoop_rounds (n : Nat) : ∀ {k : Nat} {s : VmmState}, Tree s.mem root →
    headerLength s (rsdtVirt rsdtAddr 0) = length → rsdtRounds length = k + n →
    LengthApart frames root s rsdtAddr →
    FreshCalls root (rsdtLoop frames root rsdtAddr (k * pageSize) s) →
    rsdtLoop frames root rsdtAddr (k * pageSize) s =
      runOps frames root s (roundOps (rsdtPhys rsdtAddr) (rsdtVirt rsdtAddr)
        (ptePresent ||| pteReadWrite) (List.range' k n)) := by
  have hsize : (alignUp (length.setWidth 64)).toNat = rsdtRounds length * pageSize := by
    rw [rsdtRounds, alignUp_length_toNat, Nat.mul_div_cancel _ (by decide)]
  induction n with
  | zero =>
      intro k s _ hlen hn _ _
      rw [rsdtLoop, if_neg (by rw [hlen, hsize, hn]; exact Nat.lt_irrefl _)]
      rfl
  | succ n ih =>
      intro k s hT hlen hn hapart hfresh
      have hlt : k * pageSize <
          (alignUp ((headerLength s (rsdtVirt rsdtAddr 0)).setWidth 64)).toNat := by
        rw [hlen, hsize]
        exact Nat.mul_lt_mul_of_pos_right (by omega) (by decide)
      have hnext : k * pageSize + pageSize = (k + 1) * pageSize := (Nat.succ_mul k pageSize).symm
      rw [rsdtLoop, if_pos hlt, hnext] at hfresh ⊢
      have hcall := FreshCalls.of_rsdtLoop hfresh
      obtain ⟨-, hframes⟩ := vmmMapPage_other hT (by decide) (by decide) hcall
      have hkeep := (headerLength_mapPage hT hapart (by decide) (by decide) hcall).trans hlen
      have hT' := (vmmMapPage_refines hT (refines_mapOf s.mem root) (by decide) (by decide) hcall).1
      have hrest := ih hT' hkeep (by omega) (fun f hf => hapart f (hframes f hf)) hfresh
      rw [hrest, List.range'_succ, roundOps, roundOps, runOps, runOps, List.map_cons,
        List.foldl_cons, VmmOp.run]

/-- **The walks after the loop** are those of its rounds on the map. -/
theorem walk_rsdt (hT : Tree s.mem root) (hapart : LengthApart frames root s rsdtAddr)
    (hlen : headerLength s (rsdtVirt rsdtAddr 0) = length)
    (hfresh : FreshCalls root (rsdtLoop frames (physToHh root) rsdtAddr 0 s)) (virt : BitVec 64) :
    walk (rsdtLoop frames (physToHh root) rsdtAddr 0 s).mem root virt =
      (rsdtOps rsdtAddr length).foldl VmmOp.apply (mapOf s.mem root) (pageNumber virt) := by
  have hroot : Frame root := hT.frame ⟨[], Nat.zero_le 3, rfl⟩
  rw [rsdtLoop_physToHh hroot, ← Nat.zero_mul pageSize] at hfresh ⊢
  have hrun := rsdtLoop_rounds (rsdtRounds length) hT hlen (Nat.zero_add _).symm hapart hfresh
  rw [← List.range_eq_range'] at hrun
  rw [hrun] at hfresh ⊢
  refine (runOps_refines hT (refines_mapOf s.mem root) (fun op hop => ?_) hfresh).2 virt
  obtain ⟨k, -, rfl⟩ := List.mem_map.mp hop
  exact ⟨by decide, by decide⟩

/-! ### Pages and leaves -/

theorem rsdtVirt_eq (rsdtAddr : BitVec 32) (i : BitVec 64) :
    rsdtVirt rsdtAddr i = physToHh (rsdtPhys rsdtAddr i) := by
  rw [rsdtVirt, rsdtPhys, physToHh, physToHh, BitVec.add_assoc, BitVec.add_assoc,
    BitVec.add_comm kernelVirtBaseAddr]

theorem rsdtPhys_toNat {b : Nat} (hb : b < 8589934592) :
    (rsdtPhys rsdtAddr (BitVec.ofNat 64 b)).toNat = rsdtAddr.toNat + b := by
  have := rsdtAddr.isLt
  rw [rsdtPhys, BitVec.toNat_add, BitVec.toNat_setWidth, BitVec.toNat_ofNat]
  omega

/-- Pages of the higher half, by their frames. -/
theorem pageNumber_physToHh {x y : BitVec 64} (hx : x.toNat < 17179869184)
    (hy : y.toNat < 17179869184) :
    pageNumber (physToHh x) = pageNumber (physToHh y) ↔
      x.toNat / pageSize = y.toNat / pageSize := by
  have hpage : ∀ z : BitVec 64, z.toNat < 17179869184 →
      (pageNumber (physToHh z)).toNat = 34359738368 + z.toNat / pageSize := by
    intro z hz
    have hbase : kernelVirtBaseAddr.toNat = 18446603336221196288 := by decide
    rw [pageNumber_toNat, physToHh, BitVec.toNat_add, hbase]
    unfold pageSize
    omega
  rw [← BitVec.toNat_inj, hpage x hx, hpage y hy]
  omega

/-- The bits of `4095`. -/
theorem getLsbD_4095 (k : Nat) : (4095 : BitVec 64).getLsbD k = decide (k < 12) := by
  show Nat.testBit (2 ^ 12 - 1) k = decide (k < 12)
  exact Nat.testBit_two_pow_sub_one 12 k

theorem pageFrame_congr {x y : BitVec 64} (h : x.toNat / pageSize = y.toNat / pageSize) :
    pageFrame x = pageFrame y := by
  apply BitVec.eq_of_getLsbD_eq
  intro k hk
  simp only [pageFrame, BitVec.getLsbD_and, BitVec.getLsbD_not, getLsbD_4095]
  by_cases h12 : k < 12
  · simp [h12]
  · have hbit : ∀ z : BitVec 64, z.getLsbD k = (z.toNat / 2 ^ 12).testBit (k - 12) := by
      intro z
      rw [Nat.testBit_div_two_pow, Nat.sub_add_cancel (Nat.not_lt.mp h12)]
      rfl
    rw [hbit x, hbit y]
    exact congrArg₂ (· && ·) (congrArg (Nat.testBit · (k - 12)) h) rfl

/-- **The offset in the leaf** hides in the two flags just where it is at most 3. -/
theorem leaf_eq_iff {x : BitVec 64} : x ||| 3 = pageFrame x ||| 3 ↔ x.toNat % pageSize ≤ 3 := by
  have hlow : (x &&& 4095).toNat = x.toNat % pageSize := by
    rw [BitVec.toNat_and]
    exact Nat.and_two_pow_sub_one_eq_mod x.toNat 12
  have hsplit : x = pageFrame x ||| (x &&& 4095) := by
    apply BitVec.eq_of_getLsbD_eq
    intro k hk
    simp only [pageFrame, BitVec.getLsbD_or, BitVec.getLsbD_and, BitVec.getLsbD_not, hk]
    cases x.getLsbD k <;> cases (4095 : BitVec 64).getLsbD k <;> rfl
  constructor
  · intro h
    have hmask := congrArg (· &&& (4095 : BitVec 64)) h
    have hframe : pageFrame x &&& 4095 = 0#64 := by
      rw [pageFrame, BitVec.and_assoc, show ~~~(4095 : BitVec 64) &&& 4095 = 0#64 by decide,
        BitVec.and_zero]
    simp only [BitVec.and_or_distrib_right, hframe, BitVec.zero_or] at hmask
    have hle : (x &&& 4095).toNat ≤ (x &&& 4095 ||| 3 &&& 4095).toNat := by
      rw [BitVec.toNat_or]
      exact Nat.left_le_or
    rw [hmask, hlow] at hle
    exact hle
  · intro h
    have hor : ∀ r, r < 4 → BitVec.ofNat 64 r ||| 3 = 3#64 := by decide
    have hx : x &&& 4095 = BitVec.ofNat 64 (x.toNat % pageSize) := by
      apply BitVec.eq_of_toNat_eq
      rw [hlow, BitVec.toNat_ofNat]
      unfold pageSize
      omega
    conv_lhs => rw [hsplit, BitVec.or_assoc, hx, hor _ (by omega)]
    rfl

/-! ### Exactness -/

theorem rsdtRounds_eq (length : BitVec 32) :
    rsdtRounds length = (length.toNat + 4095) / pageSize := by
  rw [rsdtRounds, alignUp_length_toNat, Nat.mul_div_cancel _ (by decide)]

/-- The page of round `k`, and that of byte `b`. -/
theorem roundPage_eq_iff {k b : Nat} (hk : k < rsdtRounds length) (hb : b < 4294967296) :
    roundPage (rsdtVirt rsdtAddr) k =
        pageNumber (physToHh (rsdtPhys rsdtAddr (BitVec.ofNat 64 b))) ↔
      rsdtAddr.toNat / pageSize + k = (rsdtAddr.toNat + b) / pageSize := by
  have hlen := length.isLt
  have haddr := rsdtAddr.isLt
  rw [rsdtRounds_eq] at hk
  unfold pageSize at hk
  have hphys : (rsdtPhys rsdtAddr (BitVec.ofNat 64 (k * pageSize))).toNat =
      rsdtAddr.toNat + k * pageSize := rsdtPhys_toNat (by unfold pageSize; omega)
  have hbyte : (rsdtPhys rsdtAddr (BitVec.ofNat 64 b)).toNat = rsdtAddr.toNat + b :=
    rsdtPhys_toNat (by omega)
  unfold pageSize at hphys
  rw [roundPage, rsdtVirt_eq, pageNumber_physToHh (by unfold pageSize; omega) (by omega), hbyte]
  unfold pageSize
  omega

/-- **A byte on the page of a round** walks to the address of that round. -/
theorem walk_rsdt_round (hT : Tree s.mem root) (hapart : LengthApart frames root s rsdtAddr)
    (hlen : headerLength s (rsdtVirt rsdtAddr 0) = length)
    (hfresh : FreshCalls root (rsdtLoop frames (physToHh root) rsdtAddr 0 s)) {k b : Nat}
    (hk : k < rsdtRounds length) (hb : b < 4294967296)
    (hpage : rsdtAddr.toNat / pageSize + k = (rsdtAddr.toNat + b) / pageSize) :
    walk (rsdtLoop frames (physToHh root) rsdtAddr 0 s).mem root
        (physToHh (rsdtPhys rsdtAddr (BitVec.ofNat 64 b))) =
      some (rsdtPhys rsdtAddr (BitVec.ofNat 64 (k * pageSize)) ||| 3) := by
  rw [walk_rsdt hT hapart hlen hfresh, rsdtOps]
  refine foldl_hit ⟨k, List.mem_range.mpr hk, (roundPage_eq_iff hk hb).mpr hpage⟩ fun j hj he => ?_
  have hj' := (roundPage_eq_iff (List.mem_range.mp hj) hb).mp he
  obtain rfl : j = k := by omega
  rfl

/-- The leaf of a round is that of a byte on its page, where the offset hides in the flags. -/
theorem round_leaf_iff {k b : Nat} (hk : k < rsdtRounds length) (hb : b < 4294967296)
    (hpage : rsdtAddr.toNat / pageSize + k = (rsdtAddr.toNat + b) / pageSize) :
    rsdtPhys rsdtAddr (BitVec.ofNat 64 (k * pageSize)) ||| 3 =
        pageFrame (rsdtPhys rsdtAddr (BitVec.ofNat 64 b)) ||| 3 ↔
      rsdtAddr.toNat % pageSize ≤ 3 := by
  have hlt := length.isLt
  rw [rsdtRounds_eq] at hk
  have hphys : (rsdtPhys rsdtAddr (BitVec.ofNat 64 (k * pageSize))).toNat =
      rsdtAddr.toNat + k * pageSize := by
    unfold pageSize at *
    exact rsdtPhys_toNat (by omega)
  have hbyte : (rsdtPhys rsdtAddr (BitVec.ofNat 64 b)).toNat = rsdtAddr.toNat + b :=
    rsdtPhys_toNat (by omega)
  have hframe : pageFrame (rsdtPhys rsdtAddr (BitVec.ofNat 64 (k * pageSize))) =
      pageFrame (rsdtPhys rsdtAddr (BitVec.ofNat 64 b)) := by
    refine pageFrame_congr ?_
    rw [hphys, hbyte, ← hpage, Nat.add_mul_div_right _ _ (by decide)]
  rw [← hframe, leaf_eq_iff, hphys, Nat.add_mul_mod_self_right]

/-- The rounds reach the page of every byte, where the table ends in the pages of its length. -/
theorem rounds_cover_iff : (∀ b, b < length.toNat → ∃ k, k < rsdtRounds length ∧
      rsdtAddr.toNat / pageSize + k = (rsdtAddr.toNat + b) / pageSize) ↔
    length = 0 ∨
      rsdtAddr.toNat % pageSize + length.toNat ≤ (alignUp (length.setWidth 64)).toNat := by
  rw [alignUp_length_toNat, rsdtRounds_eq]
  unfold pageSize
  constructor
  · intro h
    by_cases hzero : length.toNat = 0
    · exact Or.inl (BitVec.eq_of_toNat_eq hzero)
    · obtain ⟨k, hk, hpage⟩ := h (length.toNat - 1) (by omega)
      exact Or.inr (by omega)
  · rintro (rfl | hend) b hb
    · exact absurd hb (Nat.not_lt_zero b)
    · exact ⟨(rsdtAddr.toNat + b) / 4096 - rsdtAddr.toNat / 4096, by omega, by omega⟩

/-- **The mapping of the RSDT**: it is exact when the table is empty, or when its offset in its page
is at most 3 and the table ends in the pages that its length makes; and only then. -/
theorem rsdt_exact_iff (hT : Tree s.mem root) (hapart : LengthApart frames root s rsdtAddr)
    (hlen : headerLength s (rsdtVirt rsdtAddr 0) = length)
    (hfresh : FreshCalls root (rsdtLoop frames (physToHh root) rsdtAddr 0 s)) :
    RsdtExact frames s root rsdtAddr length ↔
      length = 0 ∨ rsdtAddr.toNat % pageSize ≤ 3 ∧
        rsdtAddr.toNat % pageSize + length.toNat ≤ (alignUp (length.setWidth 64)).toNat := by
  have hlt := length.isLt
  constructor
  · rintro ⟨hleaf, hmapped⟩
    have hcover : ∀ b, b < length.toNat → ∃ k, k < rsdtRounds length ∧
        rsdtAddr.toNat / pageSize + k = (rsdtAddr.toNat + b) / pageSize := by
      intro b hb
      obtain ⟨k, hk, hpage⟩ := hmapped b hb
      exact ⟨k, hk, (roundPage_eq_iff hk (by omega)).mp hpage⟩
    by_cases hzero : length = 0
    · exact Or.inl hzero
    · have hpos : 0 < length.toNat := Nat.pos_of_ne_zero fun e => hzero (BitVec.eq_of_toNat_eq e)
      obtain ⟨k, hk, hpage⟩ := hcover 0 hpos
      have hwalk := walk_rsdt_round hT hapart hlen hfresh hk (by decide) hpage
      rw [hleaf 0 hpos] at hwalk
      have hoff := (round_leaf_iff hk (by decide) hpage).mp (Option.some.inj hwalk).symm
      exact Or.inr ⟨hoff, (rounds_cover_iff.mp hcover).resolve_left hzero⟩
  · intro h
    have hcover := rounds_cover_iff.mpr (h.imp_right And.right)
    refine ⟨fun b hb => ?_, fun b hb => ?_⟩
    · obtain ⟨k, hk, hpage⟩ := hcover b hb
      rcases h with rfl | ⟨hoff, -⟩
      · exact absurd hb (Nat.not_lt_zero b)
      · rw [walk_rsdt_round hT hapart hlen hfresh hk (by omega) hpage]
        exact congrArg some ((round_leaf_iff hk (by omega) hpage).mpr hoff)
    · obtain ⟨k, hk, hpage⟩ := hcover b hb
      exact ⟨k, hk, (roundPage_eq_iff hk (by omega)).mpr hpage⟩

/-! ### Two tables of 40 bytes -/

/-- Memory that is zero, but for the length of a table at `addr`. -/
def shortRsdt (addr : BitVec 64) : Mem := fun x => if x = addr + 4 then 40 else 0

/-- The three frames behind the root's. -/
def threeFrames (k : Nat) : BitVec 64 := framesFrom 0x2000 (k % 3)

theorem threeFrames_toNat (k : Nat) : (threeFrames k).toNat = 0x2000 + k % 3 * pageSize :=
  framesFrom_toNat (N := 3) (by decide) (Nat.mod_lt k (by decide))

theorem distinct_threeFrames : Distinct threeFrames 0x1000 3 := by
  have hd : Distinct (framesFrom 0x2000) 0x1000 3 :=
    distinct_framesFrom (by decide) (by decide) (by decide)
  refine ⟨fun k _ => hd.frame _ (Nat.mod_lt k (by decide)),
    fun k _ => hd.root_ne _ (Nat.mod_lt k (by decide)), fun j k hj hk he => ?_⟩
  have := hd.inj _ _ (Nat.mod_lt j (by decide)) (Nat.mod_lt k (by decide)) he
  omega

/-- What `rsdt_exact_iff` asks, of a table of 40 bytes. -/
structure Ready (addr : BitVec 32) : Prop where
  tree : Tree (shortRsdt (addr.setWidth 64)) 0x1000
  apart : LengthApart threeFrames 0x1000 ⟨shortRsdt (addr.setWidth 64), []⟩ addr
  length : headerLength ⟨shortRsdt (addr.setWidth 64), []⟩ (rsdtVirt addr 0) = 40
  fresh : FreshCalls 0x1000
    (rsdtLoop threeFrames (physToHh 0x1000) addr 0 ⟨shortRsdt (addr.setWidth 64), []⟩)

theorem ready_short {addr : BitVec 32} (haddr : 0x100000 ≤ addr.toNat) : Ready addr := by
  have hlt := addr.isLt
  have hword : (addr.setWidth 64 + 4).toNat = addr.toNat + 4 := rsdtPhys_toNat (b := 4) (by decide)
  have hphys : physAddr (rsdtVirt addr 0 + 4) = addr.setWidth 64 + 4 := by
    have hstart : rsdtVirt addr 0 = physToHh (addr.setWidth 64) := BitVec.add_zero _
    have hshift : rsdtVirt addr 0 + 4 = physToHh (addr.setWidth 64 + 4) := by
      rw [hstart]
      exact rsdtVirt_eq addr 4
    have hbase : kernelVirtBaseAddr.toNat = 18446603336221196288 := by decide
    rw [hshift, physAddr, if_pos, hhToPhys_physToHh]
    rw [BitVec.le_def, physToHh, BitVec.toNat_add, hword]
    omega
  -- the frames of the tables are below the length
  have hzero : ∀ {t}, Frame t → t.toNat < 0x8000 → ZeroFilled (shortRsdt (addr.setWidth 64)) t := by
    intro t ht htlt i
    have hi := i.isLt
    have htoNat := entryAddr_toNat ht i
    have hnone : ∀ j, j < 8 → entryAddr t (i.setWidth 64) + BitVec.ofNat 64 j ≠
        addr.setWidth 64 + 4 := by
      intro j hj he
      have := congrArg BitVec.toNat he
      rw [toNat_add_ofNat (by omega)] at this
      omega
    exact (read_congr fun j hj => if_neg (hnone j hj)).trans (read_zero _)
  have hframe : ∀ k, Frame (threeFrames k) ∧ (threeFrames k).toNat < 0x8000 := by
    intro k
    have htoNat := threeFrames_toNat k
    have hmod := Nat.mod_lt k (show 3 > 0 by decide)
    unfold pageSize at htoNat
    exact ⟨⟨by unfold pageSize; omega, by omega⟩, by omega⟩
  have hP : Pool threeFrames 0x1000 3 ⟨shortRsdt (addr.setWidth 64), []⟩ :=
    pool_start ⟨by decide, by decide⟩ (hzero ⟨by decide, by decide⟩ (by decide))
      fun k _ => hzero (hframe k).1 (hframe k).2
  have hapart : LengthApart threeFrames 0x1000 ⟨shortRsdt (addr.setWidth 64), []⟩ addr := by
    intro f hf
    have hlow : f.toNat < 0x8000 := by
      rcases hf with hf | ⟨k, rfl⟩
      · rcases hP.known f hf with rfl | ⟨k, hk, -⟩
        · decide
        · exact absurd hk (Nat.not_lt_zero k)
      · exact (hframe k).2
    rw [hphys]
    exact disjoint_span (by unfold pageSize; omega) (by omega)
  have hlen : headerLength ⟨shortRsdt (addr.setWidth 64), []⟩ (rsdtVirt addr 0) = 40 := by
    rw [headerLength, hphys, read32]
    simp [shortRsdt]
  have hcall : ∀ phys virt, FreshCalls 0x1000 (vmmMapPage threeFrames
      ⟨shortRsdt (addr.setWidth 64), []⟩ 0x1000 phys virt (ptePresent ||| pteReadWrite)) :=
    fun phys virt => (hP.mapPage distinct_threeFrames (by decide) (by decide) (Nat.le_refl 3)
      phys virt).1.fresh
  refine ⟨hP.tree, hapart, hlen, ?_⟩
  -- one round
  rw [rsdtLoop_physToHh ⟨by decide, by decide⟩, rsdtLoop, if_pos (by rw [hlen]; decide), rsdtLoop,
    if_neg]
  · exact hcall _ _
  · rw [headerLength_mapPage hP.tree hapart (by decide) (by decide) (hcall _ _), hlen]
    decide

theorem rsdt_exact_aligned :
    RsdtExact threeFrames ⟨shortRsdt 0x7fe0000, []⟩ 0x1000 0x7fe0000 40 :=
  have h : Ready 0x7fe0000 := ready_short (by decide)
  (rsdt_exact_iff h.tree h.apart h.length h.fresh).mpr (Or.inr ⟨by decide, by decide⟩)

/-- **A table at offset `0x40` of its page**: its leaf has the offset among its flags. -/
theorem rsdt_not_exact :
    Ready 0x7fe0040 ∧ ¬ RsdtExact threeFrames ⟨shortRsdt 0x7fe0040, []⟩ 0x1000 0x7fe0040 40 := by
  have h : Ready 0x7fe0040 := ready_short (by decide)
  refine ⟨h, fun hexact => ?_⟩
  have hwalk := walk_rsdt_round h.tree h.apart h.length h.fresh (k := 0) (b := 0) (by decide)
    (by decide) rfl
  have hleaf := hexact.leaf 0 (by decide)
  rw [show (0x7fe0040 : BitVec 32).setWidth 64 = 0x7fe0040 by decide] at hwalk
  exact absurd (Option.some.inj (hleaf.symm.trans hwalk)) (by decide)

end FrazzOS.Vmm
