import FrazzOS.Pmm.Complete
import Mathlib.Data.Finset.Card
import Mathlib.Order.Interval.Finset.Nat

/-!
# Pmm — enough memory

When `pmm_alloc` returns anything but `ENOMEM`, do the pages it newly marks used hold the request
(`Enough`)?  The page count of the request becomes an `int`, and so does every page number that
the search passes on.

* A request whose page count an `int` holds gets its pages, as long as the search ends at a page
  whose number an `int` holds too: at a fit, or at a `Stop`, the used edge of a word.
* A larger request is searched for with its page count modulo `2³²`; what is found is too small
  (`card_newlyUsed_le`), so only the requests that find nothing are answered as they should be.

`enough_iff` puts the two together (`Suffices`).
-/

namespace FrazzOS.Pmm
open Bitmap CInt FirstFit

/-- Page `p` tests free in `s` and used in `s'`. -/
def NewlyUsed (s s' : PmmState) (p : Nat) : Prop := Free s.map p ∧ ¬ Free s'.map p

/-- If `pmm_alloc` returns anything but `ENOMEM`, the pages it newly marks used amount to at least
`size` bytes. -/
def Enough (s : PmmState) (size : BitVec 64) : Prop :=
  ∀ addr s', pmmAlloc s size = some (addr, s') → addr ≠ enomemPtr →
    ∃ pages : Finset Nat, (∀ p ∈ pages, NewlyUsed s s' p) ∧ size.toNat ≤ pageSize * pages.card

/-- The request finds nothing: there is a stop, and in front of the first one no fit for the
`num_pages` that the code computes. -/
def FindsNone (s : PmmState) (size : BitVec 64) : Prop :=
  (∃ u, Stop s.map s.words u) ∧
    ∀ p, Free s.map p → Fits (Free s.map) (toUInt64 (numPages size)) p →
      ∃ u, Stop s.map s.words u ∧ u < p

/-- **When success means enough memory**: no page is counted available; or an `int` holds the page
count, and below page `2³¹` there is a fit for it or a stop; or the request finds nothing. -/
def Suffices (s : PmmState) (size : BitVec 64) : Prop :=
  s.info.availablePages = 0 ∨
  (pageCount size < 2147483648 ∧ ∃ e, Limit s.map s.words (pageCount size) 0 e) ∨
  FindsNone s size

/-- The search has a word of the bitmap to start in, and below page `2³¹` a fit to find or a stop
to end at. -/
def SearchEnds (s : PmmState) (size : BitVec 64) : Prop :=
  0 < s.words ∧ ∃ e, Limit s.map s.words (toUInt64 (numPages size)) 0 e

/-! ### The page count as an `int` -/

/-- `align_up` wraps to `0` in the last page of the address space. -/
theorem alignUp_wrap {size : BitVec 64} (h : 18446744073709551616 ≤ size.toNat + 4095) :
    alignUp size = 0 := by
  have hm : (size % 0x1000).toNat = size.toNat % 4096 := by simp [BitVec.toNat_umod]
  have hlt := size.isLt
  unfold alignUp
  rw [if_neg fun hz => ?_]
  · apply BitVec.eq_of_toNat_eq
    rw [BitVec.toNat_add, BitVec.toNat_sub, hm, show (0x1000 : BitVec 64).toNat = 4096 from rfl,
      show (0 : BitVec 64).toNat = 0 from rfl]
    omega
  · rw [hz] at hm
    change 0 = size.toNat % 4096 at hm
    omega

/-- A page count that no `int` holds becomes one that is smaller by `2³²` at least, or `0`. -/
theorem numPages_wrap {size : BitVec 64} (h : 2147483648 ≤ pageCount size)
    (hpos : 0 ≤ numPages size) :
    numPages size = 0 ∨ numPages size + 4294967296 ≤ pageCount size := by
  by_cases hwrap : 18446744073709551616 ≤ size.toNat + 4095
  · rw [numPages, alignUp_wrap hwrap]
    exact Or.inl (by decide)
  · rw [numPages, alignUp_toNat (by omega), Nat.mul_div_cancel _ (by decide)] at hpos ⊢
    right
    unfold toInt32 at *
    split at hpos <;> split <;> omega

/-! ### How many pages are marked -/

/-- The `n` pages from `p` on, free before, are newly used. -/
theorem takePages_newlyUsed {s : PmmState} {n p : Nat} (h : p + n < 18446744073709551616)
    (hf : Fits (Free s.map) n p) {q : Nat} (h₀ : p ≤ q) (h₁ : q < p + n) :
    NewlyUsed s (takePages s n p) q := by
  obtain ⟨i, rfl⟩ := Nat.exists_eq_add_of_le h₀
  exact ⟨hf i (by omega), takePages_used s h (by omega)⟩

/-- **Marking `n` pages makes at most `2n` pages used.** -/
theorem card_newlyUsed_le {s : PmmState} {n p : Nat} (h : p + n < 18446744073709551616)
    {pages : Finset Nat} (hnew : ∀ q ∈ pages, NewlyUsed s (takePages s n p) q) :
    pages.card ≤ n + n := by
  have hsub : pages ⊆ Finset.Ico p (p + n) ∪ (Finset.Ico p (p + n)).image partner := by
    intro q hq
    obtain ⟨hfree, hused⟩ := hnew q hq
    rw [Free, Bool.not_eq_false, takePages_map s h, testBit_setBits] at hused
    rcases hused with ⟨i, h₀, h₁, hs⟩ | hused
    · have hi : i ∈ Finset.Ico p (p + n) := Finset.mem_Ico.mpr ⟨h₀, h₁⟩
      rcases (shares_iff_partner i q).mp hs with rfl | rfl
      · exact Finset.mem_union_left _ hi
      · exact Finset.mem_union_right _ (Finset.mem_image_of_mem partner hi)
    · rw [Free, hused] at hfree
      cases hfree
  have hcard : (Finset.Ico p (p + n)).card = n := by rw [Nat.card_Ico]; omega
  calc pages.card
      ≤ (Finset.Ico p (p + n) ∪ (Finset.Ico p (p + n)).image partner).card :=
        Finset.card_le_card hsub
    _ ≤ (Finset.Ico p (p + n)).card + ((Finset.Ico p (p + n)).image partner).card :=
        Finset.card_union_le _ _
    _ ≤ n + n := by
        rw [hcard]
        exact Nat.add_le_add_left (Finset.card_image_le.trans_eq hcard) n

/-! ### What the search returns -/

/-- A request that is answered with `ENOMEM` needs no pages. -/
theorem enough_of_enomem {s : PmmState} {size : BitVec 64}
    (h : s.info.availablePages = 0 ∨ pageFrame s size = some enomem) : Enough s size := by
  intro addr s' hs hne
  rw [pmmAlloc_of_enomem h] at hs
  exact absurd (Prod.mk.inj (Option.some.inj hs)).1.symm hne

/-- A request that finds nothing is answered with `ENOMEM`. -/
theorem FindsNone.pageFrame {s : PmmState} {size : BitVec 64} (h : FindsNone s size) :
    pageFrame s size = some enomem := by
  obtain ⟨⟨u, hu⟩, hno⟩ := h
  rcases findFit_sound (Or.inl hu) with ⟨w, -, hfree, hf, hwu⟩ | hr
  · -- a fit in front of every stop is ruled out
    obtain ⟨u', hu', hlt⟩ := hno w hfree hf
    exact absurd (hwu u' hu') (by omega)
  · exact hr

/-- **The condition is enough.** -/
theorem enough_of_suffices {s : PmmState} {size : BitVec 64} (h : Suffices s size) :
    Enough s size := by
  by_cases havail : s.info.availablePages = 0
  · exact enough_of_enomem (Or.inl havail)
  rcases h with h | ⟨hcount, e, hlim⟩ | hnone
  · exact absurd h havail
  · have hnum : toUInt64 (numPages size) = pageCount size := by
      rw [numPages_eq hcount, toUInt64_natCast (by omega)]
    rcases findFit_sound hlim with ⟨w, hw, -, hf, -⟩ | hr
    · have hframe : pageFrame s size = some (w : Int) := by rw [pageFrame, hnum]; exact hw
      obtain ⟨hlt, hm⟩ := pmmAlloc_page havail (numPages_eq hcount) hframe
      intro addr s' hs _
      rw [hm] at hs
      obtain ⟨-, rfl⟩ := Prod.mk.inj (Option.some.inj hs)
      -- the pages of the fit are newly used, and there are as many as the request has
      refine ⟨Finset.Ico w (w + pageCount size), fun q hq => ?_, ?_⟩
      · obtain ⟨h₀, h₁⟩ := Finset.mem_Ico.mp hq
        exact takePages_newlyUsed (by omega) hf h₀ h₁
      · rw [Nat.card_Ico, Nat.add_sub_cancel_left]
        unfold pageCount pageSize; omega
    · exact enough_of_enomem (Or.inr (by rw [pageFrame, hnum]; exact hr))
  · exact enough_of_enomem (Or.inr hnone.pageFrame)

/-- A fit for a page count that wrapped ends no search in front of a limit, unless the wrapped
count is not negative. -/
theorem numPages_nonneg_of_found {s : PmmState} {size : BitVec 64} {e w : Nat}
    (hlim : Limit s.map s.words (toUInt64 (numPages size)) 0 e)
    (hf : Fits (Free s.map) (toUInt64 (numPages size)) w)
    (hstop : ∀ u, Stop s.map s.words u → w < u) : 0 ≤ numPages size := by
  by_contra hneg
  have hrange := numPages_range size
  have hcount := toUInt64_of_neg (x := numPages size) (by omega) (by omega)
  rcases hlim with hu | ⟨-, -, hle, -⟩
  · have := hstop e hu
    have := hu.int
    exact hu.used (hf.free_of_mem (by omega) (by omega))
  · omega

/-- **The condition is needed**, where the search ends. -/
theorem suffices_of_enough {s : PmmState} {size : BitVec 64} (hsize : 1 ≤ size.toNat)
    (hends : SearchEnds s size) (h : Enough s size) : Suffices s size := by
  by_cases havail : s.info.availablePages = 0
  · exact Or.inl havail
  obtain ⟨hwords, e, hlim⟩ := hends
  by_cases hcount : pageCount size < 2147483648
  · refine Or.inr (Or.inl ⟨hcount, e, ?_⟩)
    rwa [numPages_eq hcount, toUInt64_natCast (by omega)] at hlim
  rcases findFit_ends hwords hlim with ⟨w, hw, -, hf, hwu, -⟩ | ⟨u, hu, -, hno⟩
  · -- what is found for a count that wrapped is too small
    have hpos := numPages_nonneg_of_found hlim hf hwu
    obtain ⟨n, hn⟩ := Int.eq_ofNat_of_zero_le hpos
    obtain ⟨hlt, hm⟩ := pmmAlloc_page havail hn hw
    have hnlt := (numPages_range size).2
    obtain ⟨pages, hnew, hbytes⟩ := h _ _ hm (pageAddr_ne_enomem hlt)
    have hcard := card_newlyUsed_le (by omega) hnew
    have hwrap := numPages_wrap (by omega) hpos
    rw [hn] at hwrap
    unfold pageCount pageSize at *
    omega
  · exact Or.inr (Or.inr ⟨⟨u, hu⟩, fun p hp hf => ⟨u, hu, hno p hp hf⟩⟩)

/-- **Success means enough memory** for every request that meets the condition, and for no other
whose search ends below page `2³¹`. -/
theorem enough_iff {s : PmmState} {size : BitVec 64} (h : 1 ≤ size.toNat) :
    (Suffices s size → Enough s size) ∧
      (SearchEnds s size → (Enough s size ↔ Suffices s size)) :=
  ⟨enough_of_suffices, fun hends => ⟨suffices_of_enough h hends, enough_of_suffices⟩⟩

/-- Every page of the one-word bitmap tests free. -/
theorem free_freshPmm (p : Nat) : Free freshPmm.map p := by
  simp [Free, testBit, freshPmm]

/-- One word of free pages, and a request for two: a fit starts at page `0`. -/
theorem enough_two :
    Enough freshPmm 0x2000 ∧ (Enough freshPmm 0x2000 ↔ Suffices freshPmm 0x2000) := by
  have hfit : Limit freshPmm.map freshPmm.words 2 0 0 :=
    Or.inr ⟨by decide, by decide, by decide, free_freshPmm 0, fun i _ => free_freshPmm (0 + i)⟩
  have hcount : pageCount 0x2000 = 2 := by decide
  have hnum : toUInt64 (numPages 0x2000) = 2 := by decide
  obtain ⟨henough, hiff⟩ := @enough_iff freshPmm 0x2000 (by decide)
  exact ⟨henough (Or.inr (Or.inl ⟨by rw [hcount]; decide, 0, by rw [hcount]; exact hfit⟩)),
    hiff ⟨by decide, 0, by rw [hnum]; exact hfit⟩⟩

/-- There, a request for 16 TiB: its `2³²` pages become `num_pages = 0`, and the call succeeds with
the first free page and marks none. -/
theorem enough_fails : ¬ Enough freshPmm 0x100000000000 := by
  intro h
  have hfit : Fits (Free freshPmm.map) (toUInt64 (numPages 0x100000000000)) 0 :=
    fun i _ => free_freshPmm (0 + i)
  have hends : SearchEnds freshPmm 0x100000000000 :=
    ⟨by decide, 0, Or.inr ⟨by decide, by decide, by decide, free_freshPmm 0, hfit⟩⟩
  rcases suffices_of_enough (by decide) hends h with h | ⟨h, -⟩ | ⟨-, h⟩
  · exact absurd h (by decide)
  · exact absurd h (by decide)
  · obtain ⟨u, -, hu⟩ := h 0 (free_freshPmm 0) hfit
    omega

end FrazzOS.Pmm
