import FrazzOS.Bitmap.Stops
import FrazzOS.Mm
import Mathlib.Data.Set.Basic

/-!
# Pmm — Alloc

The physical page allocator of `mm/pmm.c`: one bit of the bitmap a page, and the page counts of
`pmm_info`.  `pmm_alloc` searches the bitmap for a run of free pages and marks it;
`pmm_free_page` clears the bit of one page.
-/

namespace FrazzOS.Pmm
open Bitmap CInt FirstFit

/-- `struct pmm_info`. -/
structure PmmInfo where
  totalMemory : BitVec 64
  totalAvailableMemory : BitVec 64
  totalReservedMemory : BitVec 64
  totalPages : BitVec 64
  usedPages : BitVec 64
  availablePages : BitVec 64

/-- The globals of `pmm.c`: `bitmap` (the pointer, the words it reaches, and the number of words
the bitmap was given) and `pmm_info`. -/
structure PmmState where
  mapAddr : BitVec 64
  map : Words
  size : BitVec 64
  info : PmmInfo

/-- The number of words that `pmm_first_free` searches. -/
def PmmState.words (s : PmmState) : Nat := s.info.totalPages.toNat / bitsPerBlock

def pmmBitmapSetBit (s : PmmState) (idx : Nat) : PmmState := { s with map := setBit s.map idx }

def pmmBitmapClearBit (s : PmmState) (idx : Nat) : PmmState := { s with map := clearBit s.map idx }

def pmmBitmapTestBit (s : PmmState) (idx : Nat) : Bool := testBit s.map idx

/-- `pmm_first_free`: `find_first_free` over `total_pages / BITS_PER_BLOCK` words. -/
def pmmFirstFree (s : PmmState) (start : Nat) : Int := (findFirstFree (peek s.map) start s.words).run

/-- `check_region_size`: the count is an `int`, compared as a `uint64_t`. -/
def checkRegionSize (s : PmmState) (start : Nat) (count : Int) : Int :=
  (isFreeRegionBigEnough (peek s.map) start (toUInt64 count)).run

/-- `num_pages` of `pmm_alloc`. -/
def numPages (size : BitVec 64) : Int := toInt32 ((alignUp size).toNat / pageSize : Nat)

/-- The search of `pmm_alloc`: `page_frame` where its loop ends. -/
def pageFrame (s : PmmState) (size : BitVec 64) : Option Int :=
  (findFit (peek s.map) s.words (toUInt64 (numPages size))).run

/-- The end of `pmm_alloc`, once the search has ended at `pageFrame`: its pages are marked and
counted. -/
def takePages (s : PmmState) (numPages pageFrame : Int) : PmmState :=
  let first := toUInt64 pageFrame
  let last := (toUInt64 numPages + first) % 18446744073709551616
  { s with
    map := setBits s.map first (last - first)
    info := { s.info with
      availablePages := s.info.availablePages - BitVec.ofInt 64 numPages
      usedPages := s.info.usedPages + BitVec.ofInt 64 numPages } }

/-- `pmm_alloc`; `none` when its loop does not end. -/
def pmmAlloc (s : PmmState) (size : BitVec 64) : Option (BitVec 64 × PmmState) :=
  if s.info.availablePages = 0 then some (enomemPtr, s)
  else
    match pageFrame s size with
    | none => none
    | some frame =>
        if toInt32 frame = -1 then some (enomemPtr, s)
        else some (BitVec.ofInt 64 (frame * pageSize), takePages s (numPages size) frame)

/-- `pmm_free_page`. -/
def pmmFreePage (s : PmmState) (addr : BitVec 64) : PmmState :=
  let s' := pmmBitmapClearBit s (addr.toNat / pageSize)
  { s' with info := { s'.info with
      availablePages := s'.info.availablePages + 1
      usedPages := s'.info.usedPages - 1 } }

/-- One word of free pages: 256 KiB. -/
def freshPmm : PmmState where
  mapAddr := 0xffff800000100000
  map := fun _ => 0
  size := 1
  info := ⟨0x40000, 0x40000, 0, 64, 0, 64⟩

/-! ### The pages of a request -/

/-- A request of at least one byte and at most the managed memory. -/
def Request (s : PmmState) (size : BitVec 64) : Prop :=
  1 ≤ size.toNat ∧ size.toNat ≤ s.info.totalPages.toNat * pageSize

/-- `⌈size / PAGE_SIZE⌉`. -/
def pageCount (size : BitVec 64) : Nat := (size.toNat + (pageSize - 1)) / pageSize

/-- The pages that `[addr, addr + size)` meets. -/
def pagesOf (addr size : BitVec 64) : Set Nat :=
  {p | addr.toNat / pageSize ≤ p ∧ p * pageSize < addr.toNat + size.toNat}

theorem alignUp_toNat {size : BitVec 64} (h : size.toNat + 4095 < 18446744073709551616) :
    (alignUp size).toNat = pageCount size * pageSize := by
  unfold alignUp pageCount pageSize
  have hm : (size % 0x1000).toNat = size.toNat % 4096 := by simp [BitVec.toNat_umod]
  split
  · rename_i hz
    have : size.toNat % 4096 = 0 := by rw [← hm, hz]; rfl
    omega
  · rename_i hz
    have hnz : size.toNat % 4096 ≠ 0 := by
      intro e
      exact hz (BitVec.eq_of_toNat_eq (by rw [hm, e]; rfl))
    have hle : size.toNat % 4096 < 4096 := Nat.mod_lt _ (by decide)
    rw [BitVec.toNat_add, BitVec.toNat_sub, hm]
    have h4 : (0x1000 : BitVec 64).toNat = 4096 := rfl
    rw [h4]
    omega

/-- `num_pages` is the page count of the request, while that fits an `int`. -/
theorem numPages_eq {size : BitVec 64} (h : pageCount size < 2147483648) :
    numPages size = pageCount size := by
  have hs : size.toNat + 4095 < 18446744073709551616 := by
    unfold pageCount pageSize at h; omega
  rw [numPages, alignUp_toNat hs, Nat.mul_div_cancel _ (by decide),
    toInt32_of_range (by omega) (by omega)]

theorem numPages_range (size : BitVec 64) :
    -2147483648 ≤ numPages size ∧ numPages size < 2147483648 := toInt32_range _

theorem pageCount_pos {size : BitVec 64} (h : 1 ≤ size.toNat) : 0 < pageCount size := by
  unfold pageCount pageSize; omega

/-- A request of no more than the managed memory has no more pages than there are. -/
theorem pageCount_le {size : BitVec 64} {pages : Nat} (h : size.toNat ≤ pages * pageSize) :
    pageCount size ≤ pages := by
  unfold pageCount pageSize at *; omega

/-- The pages of a page-aligned range. -/
theorem mem_pagesOf {addr size : BitVec 64} {p q : Nat} (h : addr.toNat = p * pageSize)
    (hq : q ∈ pagesOf addr size) : p ≤ q ∧ q < p + pageCount size := by
  obtain ⟨h₀, h₁⟩ := hq
  rw [h, Nat.mul_div_cancel _ (by decide)] at h₀
  rw [h] at h₁
  refine ⟨h₀, ?_⟩
  unfold pageCount pageSize at *; omega

/-- A page address taken back to its page. -/
theorem toNat_pageAddr {p : Nat} (h : p < 2147483648) :
    (BitVec.ofNat 64 (p * pageSize)).toNat = p * pageSize := by
  rw [BitVec.toNat_ofNat, Nat.mod_eq_of_lt]
  unfold pageSize; omega

theorem pageAddr_ne_enomem {p : Nat} (h : p < 2147483648) :
    BitVec.ofNat 64 (p * pageSize) ≠ enomemPtr := by
  intro e
  have h' := congrArg BitVec.toNat e
  rw [toNat_pageAddr h] at h'
  have : enomemPtr.toNat = 18446744073709551615 := by decide
  unfold pageSize at h'; omega

/-! ### Where `pmm_alloc` ends -/

/-- The search of `pmm_alloc` starts at `pmm_first_free(0)`. -/
theorem pageFrame_eq (s : PmmState) (size : BitVec 64) :
    pageFrame s size = (fitLoop (peek s.map) s.words (toUInt64 (numPages size)) maxRounds
      (pmmFirstFree s 0)).run := by
  rw [pageFrame, findFit, Id.run_bind, pmmFirstFree]

/-- A round of its loop: `check_region_size`, and on a used page `pmm_first_free` from there. -/
theorem searchRound_eq (s : PmmState) (size : BitVec 64) {start idx next : Int} (rounds : Nat)
    (hidx : checkRegionSize s (toUInt64 start) (numPages size) = idx)
    (hnext : pmmFirstFree s (toUInt64 idx) = next) :
    (fitLoop (peek s.map) s.words (toUInt64 (numPages size)) (rounds + 1) start).run =
      if idx ≠ 0 then
        if 0 ≤ next then
          (fitLoop (peek s.map) s.words (toUInt64 (numPages size)) rounds next).run
        else some next
      else some start := by
  by_cases hz : idx = 0
  · rw [if_neg (not_not.mpr hz)]
    exact fitLoop_peek_stop s.map rounds (hidx.trans hz)
  · rw [if_pos hz]
    exact fitLoop_peek_next s.map rounds hidx hz hnext

/-- The two ways in which `pmm_alloc` returns. -/
theorem pmmAlloc_cases {s s' : PmmState} {size addr : BitVec 64}
    (h : pmmAlloc s size = some (addr, s')) :
    (addr = enomemPtr ∧ s' = s) ∨
    ∃ f, pageFrame s size = some f ∧ addr = BitVec.ofInt 64 (f * pageSize) ∧
      s' = takePages s (numPages size) f := by
  rw [pmmAlloc] at h
  split at h
  · cases h; exact Or.inl ⟨rfl, rfl⟩
  · cases hf : pageFrame s size with
    | none => rw [hf] at h; cases h
    | some f =>
        rw [hf] at h
        simp only at h
        split at h
        · cases h; exact Or.inl ⟨rfl, rfl⟩
        · cases h; exact Or.inr ⟨f, rfl, rfl, rfl⟩

theorem pmmAlloc_of_frame {s : PmmState} {size : BitVec 64} {n f : Int}
    (havail : s.info.availablePages ≠ 0) (hf : pageFrame s size = some f)
    (hne : toInt32 f ≠ -1) (hn : numPages size = n) :
    pmmAlloc s size = some (BitVec.ofInt 64 (f * pageSize), takePages s n f) := by
  rw [pmmAlloc, if_neg havail, hf]
  simp only [if_neg hne, hn]

/-- The search that ends at a page: the call returns it. -/
theorem pmmAlloc_page {s : PmmState} {size : BitVec 64} {n : Int} {w : Nat}
    (havail : s.info.availablePages ≠ 0) (hn : numPages size = n)
    (hw : pageFrame s size = some (w : Int)) :
    w < 2147483648 ∧ pmmAlloc s size = some (BitVec.ofNat 64 (w * pageSize), takePages s n w) := by
  have hlt := (findFit_range hw).2
  refine ⟨by omega, ?_⟩
  rw [pmmAlloc_of_frame havail hw (by rw [toInt32_of_range (by omega) (by omega)]; omega) hn,
    ← Int.natCast_mul, BitVec.ofInt_natCast]

theorem pmmAlloc_of_enomem {s : PmmState} {size : BitVec 64}
    (h : s.info.availablePages = 0 ∨ pageFrame s size = some enomem) :
    pmmAlloc s size = some (enomemPtr, s) := by
  rw [pmmAlloc]
  split
  · rfl
  · rename_i havail
    rw [h.resolve_left havail]
    exact if_pos (by decide)

/-- **The search of this request stays in the bitmap**: there is no page to hand out, or enough
consecutive pages of the bitmap test free, or the last page of the bitmap tests used, which stops
every region test there.  Page indices stay below `2³¹`. -/
def AllocInside (s : PmmState) (size : BitVec 64) : Prop :=
  s.info.availablePages = 0 ∨
  (∃ p, p + pageCount size ≤ s.words * bitsPerBlock ∧ p + pageCount size < 2147483648 ∧
    Fits (Free s.map) (pageCount size) p) ∨
  (0 < s.words ∧ s.words * bitsPerBlock < 2147483648 ∧
    ¬ Free s.map (s.words * bitsPerBlock - 1))

theorem takePages_totalPages (s : PmmState) (n f : Int) :
    (takePages s n f).info.totalPages = s.info.totalPages := by
  simp only [takePages]

theorem takePages_size (s : PmmState) (n f : Int) : (takePages s n f).size = s.size := by
  simp only [takePages]

/-- Marking pages keeps what tests used. -/
theorem takePages_keeps (s : PmmState) (n f : Int) {q : Nat} (h : testBit s.map q = true) :
    testBit (takePages s n f).map q = true := by
  simp only [takePages, testBit_setBits]
  exact Or.inr h

/-- The marking of `n` pages from page `p` on. -/
theorem takePages_map (s : PmmState) {n p : Nat} (h : p + n < 18446744073709551616) :
    (takePages s n p).map = setBits s.map p n := by
  have hlast : (n + p) % 18446744073709551616 - p = n := by omega
  simp only [takePages, toUInt64_natCast (show p < 18446744073709551616 by omega),
    toUInt64_natCast (show n < 18446744073709551616 by omega), hlast]

theorem takePages_used (s : PmmState) {n p : Nat} (h : p + n < 18446744073709551616) {i : Nat}
    (hi : i < n) : ¬ Free (takePages s n p).map (p + i) := by
  rw [Free, Bool.not_eq_false, takePages_map s h, testBit_setBits]
  exact Or.inl ⟨p + i, by omega, by omega, Shares.refl _⟩

/-- **`pmm_alloc` inside the bitmap**: it returns `ENOMEM` and changes nothing, or it returns a
range of pages that tested free, and marks them. -/
theorem pmmAlloc_inside {s : PmmState} {size : BitVec 64} (h₁ : 1 ≤ size.toNat)
    (hsize : size.toNat ≤ s.info.totalPages.toNat * pageSize) (hin : AllocInside s size) :
    pmmAlloc s size = some (enomemPtr, s) ∨
    ∃ p s', pmmAlloc s size = some (BitVec.ofNat 64 (p * pageSize), s') ∧
      p + pageCount size ≤ s.words * bitsPerBlock ∧ p + pageCount size < 2147483648 ∧
      Fits (Free s.map) (pageCount size) p ∧ s'.map = setBits s.map p (pageCount size) := by
  have hpos := pageCount_pos h₁
  by_cases havail : s.info.availablePages = 0
  · exact Or.inl (pmmAlloc_of_enomem (Or.inl havail))
  -- the page counts and indices of the search are those of the request
  have hword : s.words * bitsPerBlock ≤ s.info.totalPages.toNat ∧
      s.info.totalPages.toNat < s.words * bitsPerBlock + bitsPerBlock := by
    unfold PmmState.words bitsPerBlock; omega
  have hframe : pageCount size < 2147483648 →
      pageFrame s size = (findFit (peek s.map) s.words (pageCount size)).run := by
    intro hlt
    rw [pageFrame, numPages_eq hlt, toUInt64_natCast (by omega)]
  have hfound : ∀ p, p + pageCount size ≤ s.words * bitsPerBlock →
      p + pageCount size < 2147483648 → Fits (Free s.map) (pageCount size) p →
      ∃ p s', pmmAlloc s size = some (BitVec.ofNat 64 (p * pageSize), s') ∧
        p + pageCount size ≤ s.words * bitsPerBlock ∧ p + pageCount size < 2147483648 ∧
        Fits (Free s.map) (pageCount size) p ∧ s'.map = setBits s.map p (pageCount size) := by
    intro p hend hint hp
    obtain ⟨w, hw, hf, hmin⟩ := findFit_found hpos hp hend (by omega) (by omega)
    have hwp : w ≤ p := hmin p hp
    refine ⟨w, takePages s (pageCount size) w, ?_, by omega, by omega, hf,
      takePages_map s (by omega)⟩
    exact (pmmAlloc_page havail (numPages_eq (by omega)) ((hframe (by omega)).trans hw)).2
  rcases hin with hav | ⟨p, hend, hint, hp⟩ | ⟨hw, hint, hlast⟩
  · exact absurd hav havail
  · exact Or.inr (hfound p hend hint hp)
  · have hlt : pageCount size < 2147483648 := by
      have := pageCount_le hsize
      unfold bitsPerBlock at *; omega
    by_cases hfit : ∃ p, p + pageCount size ≤ s.words * bitsPerBlock ∧
        Fits (Free s.map) (pageCount size) p
    · obtain ⟨p, hend, hp⟩ := hfit
      exact Or.inr (hfound p hend (by omega) hp)
    · refine Or.inl (pmmAlloc_of_enomem (Or.inr ((hframe hlt).trans ?_)))
      exact findFit_full hw hint hlast fun p hend hp => hfit ⟨p, hend, hp⟩

end FrazzOS.Pmm
