import FrazzOS.Bitmap.Outcome
import FrazzOS.Pmm.Init

/-!
# Pmm — out of pages

What `pmm_alloc` does when no run of free pages is long enough: which words of the bitmap it
reads, what it returns, and which pages a successful call returns (`OutOfPages`).

* `SizedPmm`: an allocator whose bitmap has the words that its page total asks for, as
  `pmm_init` leaves it (`pmmInit_sized`) and the calls keep it.
* `outOfPages_of_covered`, `out_of_pages_iff`: the condition (`Covered`) under which a request is
  answered as it should be.  It fails for a full bitmap whose pages are still counted available,
  for a run that the end of the bitmap cuts off, and for page counts that a 32-bit `int` does not
  hold.
-/

namespace FrazzOS.Pmm
open Bitmap CInt FirstFit

/-- An allocator with a bitmap of `total_pages / BITS_PER_BLOCK` words. -/
structure SizedPmm extends PmmState where
  sized : toPmmState.size.toNat = toPmmState.words

/-- The number of pages that the bitmap has a bit for. -/
def PmmState.pages (s : PmmState) : Nat := s.size.toNat * bitsPerBlock

/-- The `n` pages from `p` on lie in the bitmap and test free. -/
def PageRun (s : PmmState) (n p : Nat) : Prop := p + n ≤ s.pages ∧ Fits (Free s.map) n p

/-- The search of `pmm_alloc` reads words of the bitmap only. -/
def ReadsInside (s : PmmState) (size : BitVec 64) : Prop :=
  s.info.availablePages = 0 ∨
    findFit (within s.size.toNat s.map) s.words (toUInt64 (numPages size)) ≠ none

/-- With no run of `⌈size / PAGE_SIZE⌉` free pages, `pmm_alloc` returns `ENOMEM`, changes nothing
and reads no word outside the bitmap; and whatever it returns when it succeeds lies in the pages
of the bitmap. -/
structure OutOfPages (s : PmmState) (size : BitVec 64) : Prop where
  full : (∀ p, ¬ PageRun s (pageCount size) p) →
    pmmAlloc s size = some (enomemPtr, s) ∧ ReadsInside s size
  inside : ∀ addr s', pmmAlloc s size = some (addr, s') → addr ≠ enomemPtr →
    ∀ q ∈ pagesOf addr size, q < s.pages

/-- Some page of the bitmap tests free, and from a page on that an `int` holds none does. -/
def StopsInside (s : PmmState) : Prop :=
  (∃ p, p < s.pages ∧ Free s.map p) ∧
  ∃ u, u < s.pages ∧ u < 2147483648 ∧ ∀ y, u ≤ y → y < s.pages → ¬ Free s.map y

/-- **When a request is answered as it should be**: no page is counted available; or a long enough
run starts at a page that an `int` holds; or there is none of the `num_pages` that the code
computes and the search stops at a used page of the bitmap; or the code computes no page at all
and none is free. -/
def Covered (s : PmmState) (size : BitVec 64) : Prop :=
  s.info.availablePages = 0 ∨
  (pageCount size < 2147483648 ∧ ∃ p, p < 2147483648 ∧ PageRun s (pageCount size) p) ∨
  (StopsInside s ∧ ∀ p, ¬ PageRun s (toUInt64 (numPages size)) p) ∨
  (numPages size = 0 ∧ ∀ p, p < s.pages → ¬ Free s.map p)

/-! ### The size of the bitmap -/

theorem pmmInit_size {words : Words} {entries : List MemmapEntry} {s : PmmState}
    (h : pmmInit words entries = some s) : s.size = bitmapSize entries := by
  rw [pmmInit_eq] at h
  obtain ⟨e, -, rfl⟩ := Option.map_eq_some_iff.mp h
  rw [reserveMap, pmmReserve_size, pmmReserve_size, (freedMap_fields words entries _).2.1]

/-- `pmm_init` gives the bitmap its size. -/
theorem pmmInit_sized {words : Words} {entries : List MemmapEntry} {s : PmmState}
    (h : pmmInit words entries = some s) : s.size.toNat = s.words := by
  have hpages : (printMemoryStats entries).totalPages =
      (printMemoryStats entries).totalMemory / BitVec.ofNat 64 pageSize := by
    simp only [printMemoryStats]
  have hbits : (BitVec.ofNat 64 bitsPerBlock).toNat = bitsPerBlock := by decide
  rw [pmmInit_size h, PmmState.words, (pmmInit_storage h).1, bitmapSize, BitVec.toNat_udiv, hpages,
    hbits]

theorem pmmFreePage_sized (s : SizedPmm) (addr : BitVec 64) :
    (pmmFreePage s.toPmmState addr).size.toNat = (pmmFreePage s.toPmmState addr).words := by
  rw [PmmState.words]
  simp only [pmmFreePage, pmmBitmapClearBit]
  exact s.sized

theorem pmmAlloc_sized (s : SizedPmm) {size addr : BitVec 64} {s' : PmmState}
    (h : pmmAlloc s.toPmmState size = some (addr, s')) : s'.size.toNat = s'.words := by
  rcases pmmAlloc_cases h with ⟨-, hs⟩ | ⟨f, -, -, hs⟩
  · rw [hs, s.sized]
  · rw [hs, takePages_size, PmmState.words, takePages_totalPages, s.sized, PmmState.words]

theorem SizedPmm.pages_lt (s : SizedPmm) : s.pages < 18446744073709551616 := by
  have := s.info.totalPages.isLt
  rw [PmmState.pages, s.sized, PmmState.words]
  unfold bitsPerBlock; omega

/-! ### The search -/

/-- The search of a request, its reads answered only in the bitmap, whose free pages lie below
`E`. -/
theorem search_outcome (s : SizedPmm) (size : BitVec 64) {E : Nat} (hE : E ≤ s.pages)
    (hint : E < 2147483648) (htail : ∀ y, E ≤ y → y < s.pages → ¬ Free s.map y) :
    (∃ w : Nat, w < 2147483648 ∧ w < s.pages ∧ Free s.map w ∧
      pageFrame s.toPmmState size = some (w : Int) ∧
      PageRun s.toPmmState (toUInt64 (numPages size)) w) ∨
    ((∀ p, p < s.pages → ¬ Free s.map p) ∧
      findFit (within s.size.toNat s.map) s.words (toUInt64 (numPages size)) =
        if 0 < toUInt64 (numPages size) then none else some (some enomem)) ∨
    ((∃ p, p < s.pages ∧ Free s.map p) ∧
      (∀ p, ¬ PageRun s.toPmmState (toUInt64 (numPages size)) p) ∧
      findFit (within s.size.toNat s.map) s.words (toUInt64 (numPages size)) =
        if Free s.map (s.pages - 1) then none else some (some enomem)) := by
  have hle : s.size.toNat ≤ s.words := Nat.le_of_eq s.sized
  rcases findFit_outcome s.map (toUInt64 (numPages size)) hle s.pages_lt hE hint htail with
    ⟨w, hw, hfree, hf, hwE, hend⟩ | ⟨hfull, hr⟩ | ⟨hfree, hno, hr⟩
  · exact Or.inl ⟨w, by omega, by omega, hfree, findFit_run hw, hend, hf⟩
  · refine Or.inr (Or.inl ⟨hfull, ?_⟩)
    rw [hr]
    simp [s.sized]
  · refine Or.inr (Or.inr ⟨hfree, fun p hp => hno p hp.1 hp.2, ?_⟩)
    rw [hr]
    simp [s.sized, PmmState.pages]

/-- A search that ends with `ENOMEM` in the bitmap: the request is answered as it should be. -/
theorem outOfPages_of_enomem (s : SizedPmm) {size : BitVec 64}
    (h : findFit (within s.size.toNat s.map) s.words (toUInt64 (numPages size)) =
      some (some enomem)) : OutOfPages s.toPmmState size := by
  have hm : pmmAlloc s.toPmmState size = some (enomemPtr, s.toPmmState) :=
    pmmAlloc_of_enomem (Or.inr (findFit_run h))
  refine ⟨fun _ => ⟨hm, Or.inr (by rw [h]; exact Option.some_ne_none _)⟩, ?_⟩
  intro addr s' hs hne
  rw [hm] at hs
  exact absurd (Prod.mk.inj (Option.some.inj hs)).1.symm hne

/-- **A covered request is answered as it should be.** -/
theorem outOfPages_of_covered (s : SizedPmm) {size : BitVec 64} (hsize : 1 ≤ size.toNat)
    (h : Covered s.toPmmState size) : OutOfPages s.toPmmState size := by
  by_cases havail : s.info.availablePages = 0
  · have hm : pmmAlloc s.toPmmState size = some (enomemPtr, s.toPmmState) :=
      pmmAlloc_of_enomem (Or.inl havail)
    refine ⟨fun _ => ⟨hm, Or.inl havail⟩, fun addr s' hs hne => ?_⟩
    rw [hm] at hs
    exact absurd (Prod.mk.inj (Option.some.inj hs)).1.symm hne
  rcases h with h | ⟨hcount, p, hp, hrun⟩ | ⟨⟨hfree, u, hu, hint, htail⟩, hno⟩ | ⟨hzero, hfull⟩
  · exact absurd h havail
  · -- the run found is the first one, which ends no later
    have hend : p + pageCount size ≤ s.words * bitsPerBlock := by
      rw [← s.sized]
      exact hrun.1
    obtain ⟨w, hw, -, hmin⟩ := findFit_found (pageCount_pos hsize) hrun.2 hend hp (by omega)
    have hwp := hmin p hrun.2
    have hframe : pageFrame s.toPmmState size = some (w : Int) := by
      rw [pageFrame, numPages_eq hcount, toUInt64_natCast (by omega)]
      exact hw
    refine ⟨fun hnone => absurd hrun (hnone p), fun addr s' hs _ q hq => ?_⟩
    rw [(pmmAlloc_page havail rfl hframe).2] at hs
    obtain ⟨rfl, -⟩ := Prod.mk.inj (Option.some.inj hs)
    have := (mem_pagesOf (toNat_pageAddr (by omega)) hq).2
    have := hrun.1
    omega
  · rcases search_outcome s size (Nat.le_of_lt hu) hint htail with
      ⟨w, -, -, -, -, hw⟩ | ⟨hfull, -⟩ | ⟨-, -, hr⟩
    · exact absurd hw (hno w)
    · obtain ⟨p, hp, hpf⟩ := hfree
      exact absurd hpf (hfull p hp)
    · rw [if_neg (htail _ (by omega) (by omega))] at hr
      exact outOfPages_of_enomem s hr
  · rcases search_outcome s size (Nat.zero_le _) (by decide) (fun y _ hy => hfull y hy) with
      ⟨w, -, hw, hwf, -⟩ | ⟨-, hr⟩ | ⟨⟨p, hp, hpf⟩, -⟩
    · exact absurd hwf (hfull w hw)
    · rw [if_neg (by rw [hzero]; decide)] at hr
      exact outOfPages_of_enomem s hr
    · exact absurd hpf (hfull p hp)

/-- **A request answered as it should be is covered**, in a bitmap of fewer than `2³¹` pages. -/
theorem covered_of_outOfPages (s : SizedPmm) {size : BitVec 64} (hpages : s.pages < 2147483648)
    (h : OutOfPages s.toPmmState size) : Covered s.toPmmState size := by
  by_cases havail : s.info.availablePages = 0
  · exact Or.inl havail
  by_cases hfit : ∃ p, PageRun s.toPmmState (pageCount size) p
  · obtain ⟨p, hrun⟩ := hfit
    have := hrun.1
    exact Or.inr (Or.inl ⟨by omega, p, by omega, hrun⟩)
  · obtain ⟨hm, hreads⟩ := h.full fun p hp => hfit ⟨p, hp⟩
    have hreads := hreads.resolve_left havail
    rcases search_outcome s size (Nat.le_refl _) hpages (fun y h₀ h₁ => by omega) with
      ⟨w, hw, -, -, hframe, -⟩ | ⟨hfull, hr⟩ | ⟨hfree, hno, hr⟩
    · -- a frame that is found is returned
      rw [(pmmAlloc_page havail rfl hframe).2] at hm
      exact absurd (Prod.mk.inj (Option.some.inj hm)).1 (pageAddr_ne_enomem hw)
    · refine Or.inr (Or.inr (Or.inr ⟨?_, hfull⟩))
      by_contra hne
      have hpos : 0 < toUInt64 (numPages size) := by
        have := numPages_range size
        unfold toUInt64; omega
      exact hreads (hr.trans (if_pos hpos))
    · by_cases hlast : Free s.map (s.pages - 1)
      · exact absurd (hr.trans (if_pos hlast)) hreads
      · have hpos : 0 < s.pages := by
          obtain ⟨p, hp, -⟩ := hfree
          omega
        refine Or.inr (Or.inr (Or.inl ⟨⟨hfree, s.pages - 1, by omega, by omega,
          fun y h₀ h₁ => ?_⟩, hno⟩))
        obtain rfl : y = s.pages - 1 := by omega
        exact hlast

/-- **Out of physical pages**: every covered request is answered as it should be, and in a bitmap
whose page numbers fit an `int` no other is. -/
theorem out_of_pages_iff (s : SizedPmm) {size : BitVec 64} (hsize : 1 ≤ size.toNat) :
    (Covered s.toPmmState size → OutOfPages s.toPmmState size) ∧
      (s.pages < 2147483648 → (OutOfPages s.toPmmState size ↔ Covered s.toPmmState size)) :=
  ⟨outOfPages_of_covered s hsize,
    fun hpages => ⟨covered_of_outOfPages s hpages, outOfPages_of_covered s hsize⟩⟩

/-! ### Two MiB of memory -/

/-- The first MiB reserved, the second usable. -/
def twoMiB : List MemmapEntry := [⟨0, 0x100000, 1⟩, ⟨0x100000, 0x100000, limineMemmapUsable⟩]

/-- After `pmm_init` the pages of the second MiB test free, up to the last page of the bitmap. -/
theorem twoMiB_boot : ∃ s : SizedPmm, pmmInit (fun _ => 0) twoMiB = some s.toPmmState ∧
    s.pages = 512 ∧ s.info.availablePages = 256 ∧
    (∀ p, p < 256 → ¬ Free s.map p) ∧ ∀ p, 256 ≤ p → p < 512 → Free s.map p := by
  obtain ⟨s, hs⟩ := pmmInit_of_entry (fun _ => 0)
    (show bitmapEntry twoMiB = some ⟨0x100000, 0x100000, limineMemmapUsable⟩ by decide)
  have hinfo := (pmmInit_storage hs).1
  have hbits := testBit_pmmInit hs (by decide)
  have hlow : InPages 0 0x100000 = fun p => p < 256 := by
    funext p
    simp [InPages, pageRange, pageSize]
  refine ⟨⟨s, pmmInit_sized hs⟩, hs, ?_, by rw [hinfo]; decide, fun p hp hfree => ?_,
    fun p h₀ h₁ => ?_⟩
  · rw [PmmState.pages, pmmInit_sized hs, PmmState.words, hinfo]
    decide
  · have hused := (hbits p).mpr (Or.inl ⟨p, Or.inl (by rw [hlow]; exact hp), Shares.refl p⟩)
    rw [Free, hused] at hfree
    cases hfree
  · cases ht : testBit s.map p with
    | false => exact ht
    | true =>
        rcases (hbits p).mp ht with ⟨r, hr | hr, hw, -⟩ | ⟨hno, -⟩
        · rw [hlow] at hr
          unfold bitsPerBlock at hw
          omega
        · -- the low word is still full, and the range from there on is empty
          have hempty : (pageRange (lowWord twoMiB) (bitmapSize twoMiB * 8)).2 = 0 := by
            decide +kernel
          rw [InPages, hempty] at hr
          omega
        · refine absurd ⟨p, ⟨_, List.mem_cons_of_mem _ (List.mem_singleton.mpr rfl), rfl, ?_⟩,
            Shares.refl p⟩ hno
          simp only [InPages, pageRange, pageSize]
          exact ⟨h₀, h₁⟩

/-- Two MiB of memory, one of them usable: a request for 257 pages finds no run, and its search
reads behind the bitmap, whose last page is free. -/
theorem out_of_pages_cut_off : ∃ s : SizedPmm,
    pmmInit (fun _ => 0) twoMiB = some s.toPmmState ∧ ¬ OutOfPages s.toPmmState 0x101000 := by
  obtain ⟨s, hs, hpages, havail, hused, hfree⟩ := twoMiB_boot
  refine ⟨s, hs, fun h => ?_⟩
  have hcount : pageCount 0x101000 = 257 := by decide
  have hnum : numPages 0x101000 = 257 := by decide
  have hno : ∀ p, ¬ PageRun s.toPmmState 257 p := by
    rintro p ⟨hend, hf⟩
    exact hused p (by omega) (hf.free_of_mem (Nat.le_refl p) (by omega))
  rcases covered_of_outOfPages s (by omega) h with
    h | ⟨-, p, -, hrun⟩ | ⟨⟨-, u, hu, -, htail⟩, -⟩ | ⟨h, -⟩
  · rw [havail] at h
    exact absurd h (by decide)
  · exact hno p (hcount ▸ hrun)
  · exact htail 511 (by omega) (by omega) (hfree 511 (by decide) (by decide))
  · rw [hnum] at h
    cases h

/-- There, a request for the 256 usable pages. -/
theorem out_of_pages_whole : ∃ s : SizedPmm,
    pmmInit (fun _ => 0) twoMiB = some s.toPmmState ∧ OutOfPages s.toPmmState 0x100000 := by
  obtain ⟨s, hs, hpages, -, -, hfree⟩ := twoMiB_boot
  have hcount : pageCount 0x100000 = 256 := by decide
  refine ⟨s, hs, (out_of_pages_iff s (by decide)).1 (Or.inr (Or.inl ⟨by rw [hcount]; decide, 256,
    by decide, by rw [hcount, hpages], fun i hi => ?_⟩))⟩
  rw [hcount] at hi
  exact hfree (256 + i) (by omega) (by omega)

end FrazzOS.Pmm
