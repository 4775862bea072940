import FrazzOS.Bitmap.Outcome
import FrazzOS.Pmm.Alloc

/-!
# Pmm — complete first fit

`pmm_first_free` and its copy `find_first_free` find the first free index of the bitmap
(`firstFree_least`).

While some page is counted available and the bitmap has a run of free pages that is long enough,
`pmm_alloc` finds the first such run, reads no word behind the bitmap, and takes it
(`pmm_alloc_first_fit`).
-/

namespace FrazzOS.Pmm
open Bitmap CInt FirstFit

/-- **The first free index**: from a start in a bitmap of `W` words both searches end with the
least index of it that tests free, or with `ENOMEM`, and read only its words. -/
theorem firstFree_least (s : PmmState) (buffer : Words) (W start : Nat) (hwords : s.words = W)
    (hint : 64 * W < 2147483648) (hstart : start < 64 * W) :
    (findFirstFree (within W s.map) start s.words = some (pmmFirstFree s start) ∧
      FirstFree (pmmBitmapTestBit s) start (64 * W) (pmmFirstFree s start)) ∧
    findFirstFree (within W buffer) start W = some (findFirstFree (peek buffer) start W).run ∧
      FirstFree (testBit buffer) start (64 * W) (findFirstFree (peek buffer) start W).run := by
  have hbits : 64 * W = W * bitsPerBlock := Nat.mul_comm 64 W
  rw [hbits] at hint hstart ⊢
  subst hwords
  exact ⟨findFirstFree_firstFree s.map (Nat.le_of_lt hint) hstart,
    findFirstFree_firstFree buffer (Nat.le_of_lt hint) hstart⟩

/-- A word of free pages and a full one, from index `5` on. -/
theorem firstFree_least_word :
    (findFirstFree (within 1 freshPmm.map) 5 freshPmm.words = some (pmmFirstFree freshPmm 5) ∧
      FirstFree (pmmBitmapTestBit freshPmm) 5 (64 * 1) (pmmFirstFree freshPmm 5)) ∧
    findFirstFree (within 1 fun _ => BitVec.allOnes 64) 5 1 =
        some (findFirstFree (peek fun _ => BitVec.allOnes 64) 5 1).run ∧
      FirstFree (testBit fun _ => BitVec.allOnes 64) 5 (64 * 1)
        (findFirstFree (peek fun _ => BitVec.allOnes 64) 5 1).run :=
  firstFree_least freshPmm (fun _ => BitVec.allOnes 64) 1 5 (by decide) (by decide) (by decide)

/-- The `n` pages from `p` on have a bit that `pmm_first_free` searches, and test free. -/
def FreePages (s : PmmState) (n p : Nat) : Prop :=
  p + n ≤ s.words * bitsPerBlock ∧ Fits (Free s.map) n p

/-- Taking `n` pages from page `p` on moves the counts by `n`. -/
theorem takePages_info (s : PmmState) (n p : Nat) :
    (takePages s n p).info.availablePages = s.info.availablePages - BitVec.ofNat 64 n ∧
      (takePages s n p).info.usedPages = s.info.usedPages + BitVec.ofNat 64 n := by
  simp only [takePages, BitVec.ofInt_natCast, and_self]

/-- **`pmm_alloc` is complete first fit**: with a page counted available and a run of
`⌈size / PAGE_SIZE⌉` free pages, the search reads only words of the bitmap and ends at the first
such run, which is returned, marked and counted. -/
theorem pmm_alloc_first_fit {s : PmmState} {size : BitVec 64}
    (hpages : s.words * bitsPerBlock < 2147483648) (havail : 0 < s.info.availablePages.toNat)
    (hpos : 1 ≤ pageCount size) (hcount : pageCount size < 2147483648)
    (hfit : ∃ q, FreePages s (pageCount size) q) :
    ∃ (p : Nat) (s' : PmmState), FreePages s (pageCount size) p ∧
      (∀ q, FreePages s (pageCount size) q → p ≤ q) ∧
      findFit (within s.words s.map) s.words (toUInt64 (numPages size)) = some (some (p : Int)) ∧
      pmmAlloc s size = some (BitVec.ofNat 64 (p * pageSize), s') ∧
      (∀ i, i < pageCount size → ¬ Free s'.map (p + i)) ∧
      s'.info.availablePages = s.info.availablePages - BitVec.ofNat 64 (pageCount size) ∧
      s'.info.usedPages = s.info.usedPages + BitVec.ofNat 64 (pageCount size) := by
  obtain ⟨q, hend, hq⟩ := hfit
  have hnum : toUInt64 (numPages size) = pageCount size := by
    rw [numPages_eq hcount, toUInt64_natCast (by omega)]
  obtain ⟨p, hp, hf, hmin⟩ := findFit_found hpos hq hend (by omega) (by omega)
  have hpq := hmin q hq
  have hreads : findFit (within s.words s.map) s.words (pageCount size) =
      some (some (p : Int)) := by
    rcases findFit_outcome s.map (pageCount size) (Nat.le_refl s.words) (by omega) (Nat.le_refl _)
      hpages (fun y h₀ h₁ => by omega) with ⟨w, hw, -⟩ | ⟨hfull, -⟩ | ⟨-, hno, -⟩
    · -- the run that answers in the bitmap is the run from memory
      have he := (findFit_run hw).symm.trans hp
      rw [hw, he]
    · exact absurd (hq.free_of_mem (Nat.le_refl q) (by omega)) (hfull q (by omega))
    · exact absurd hq (hno q hend)
  have hframe : pageFrame s size = some (p : Int) := by
    rw [pageFrame, hnum]
    exact hp
  have hne : s.info.availablePages ≠ 0 := by
    intro hz
    rw [hz] at havail
    exact absurd havail (by decide)
  obtain ⟨hav, hus⟩ := takePages_info s (pageCount size) p
  refine ⟨p, takePages s (pageCount size) p, ⟨by omega, hf⟩, fun r hr => hmin r hr.2,
    by rw [hnum]; exact hreads, ?_, fun i hi => takePages_used s (by omega) hi, hav, hus⟩
  exact (pmmAlloc_page hne (numPages_eq hcount) hframe).2

/-- One word of free pages, and a request for two. -/
theorem pmm_alloc_first_fit_two : ∃ (p : Nat) (s' : PmmState), FreePages freshPmm 2 p ∧
    (∀ q, FreePages freshPmm 2 q → p ≤ q) ∧
    findFit (within freshPmm.words freshPmm.map) freshPmm.words (toUInt64 (numPages 0x2000)) =
      some (some (p : Int)) ∧
    pmmAlloc freshPmm 0x2000 = some (BitVec.ofNat 64 (p * pageSize), s') ∧
    (∀ i, i < 2 → ¬ Free s'.map (p + i)) ∧
    s'.info.availablePages = freshPmm.info.availablePages - BitVec.ofNat 64 2 ∧
    s'.info.usedPages = freshPmm.info.usedPages + BitVec.ofNat 64 2 :=
  @pmm_alloc_first_fit freshPmm 0x2000 (by decide) (by decide) (by decide) (by decide)
    ⟨0, by decide, fun i _ => by simp [Free, testBit, freshPmm]⟩

end FrazzOS.Pmm
