import FrazzOS.Pmm.Enough
import FrazzOS.Pmm.Exclusive
import FrazzOS.Pmm.Exhaust
import FrazzOS.Pmm.Writes

/-!
# Pmm — page accounts

`pmm_info` counts the pages: those available, those used, and all of them (`Accounted`).
`pmm_init` takes its counts from the lengths of the memory map, and its bits from the page numbers;
`pmm_alloc` and `pmm_free_page` move the counts by the pages asked for, and the bits of the pages
with a mask in common.

* `pmmInit_accounted_iff`: the memory maps whose counts are those of the bits.
* `accounted_take_iff`: a run of free pages keeps the accounts when it is made of whole words.
* `not_accounted_free`: no `pmm_free_page` keeps them: it clears the bits of two pages, or of none.

`page_accounts_iff` is about the runs from `pmm_init` on.
-/

namespace FrazzOS.Pmm
open Bitmap CInt FirstFit Runs

/-- The managed pages whose bit is clear. -/
def clearPages (s : PmmState) : Finset Nat :=
  (Finset.range s.pages).filter fun p => Free s.map p

/-- **Page accounting**: the pages counted available are those with a clear bit, and with the used
ones they are all. -/
structure Accounted (s : PmmState) : Prop where
  clear : s.info.availablePages.toNat = (clearPages s).card
  total : s.info.availablePages.toNat + s.info.usedPages.toNat = s.info.totalPages.toNat

/-- One call, for a request of any size.  A freed page is one that is handed out. -/
inductive CallStep : Ledger → PmmCall → Ledger → Prop where
  | alloc {L : Ledger} {size addr : BitVec 64} {s' : PmmState} :
      pmmAlloc L.pmm size = some (addr, s') → addr ≠ enomemPtr →
      CallStep L (.alloc size) ⟨s', L.live ∪ pagesOf addr size⟩
  | allocFail {L : Ledger} {size : BitVec 64} {s' : PmmState} :
      pmmAlloc L.pmm size = some (enomemPtr, s') → CallStep L (.alloc size) ⟨s', L.live⟩
  | freePage {L : Ledger} {addr : BitVec 64} : addr.toNat / pageSize ∈ L.live →
      CallStep L (.freePage addr)
        ⟨pmmFreePage L.pmm addr, L.live \ {addr.toNat / pageSize}⟩

/-- Every entry is page-aligned. -/
def PageAligned (entries : List MemmapEntry) : Prop :=
  ∀ e ∈ entries, e.base.toNat % pageSize = 0 ∧ e.length.toNat % pageSize = 0

/-- **Page accounting over whole runs**, from `pmm_init` on. -/
def PageAccounts : Prop :=
  ∀ words entries s calls L, PageAligned entries → pmmInit words entries = some s →
    Run CallStep ⟨s, ∅⟩ calls L → Accounted L.pmm

/-- A page of the ranges that `pmm_init` reserves: the first MiB, and the range that the first word
of the bitmap names. -/
def ReservedPage (entries : List MemmapEntry) (p : Nat) : Prop :=
  InPages 0 0x100000 p ∨ InPages (lowWord entries) (bitmapSize entries * 8) p

/-- Page `p` shares with a usable page, and with no reserved one. -/
def ClearedPage (entries : List MemmapEntry) (p : Nat) : Prop :=
  (UsablePage (visited entries) p ∨ UsablePage (visited entries) (partner p)) ∧
    ¬ ReservedPage entries p ∧ ¬ ReservedPage entries (partner p)

instance (entries : List MemmapEntry) (p : Nat) : Decidable (ReservedPage entries p) :=
  inferInstanceAs (Decidable (_ ∨ _))

instance (entries : List MemmapEntry) (p : Nat) : Decidable (ClearedPage entries p) :=
  inferInstanceAs (Decidable (_ ∧ _))

/-- **The memory maps that are counted right**: as many managed pages share with a usable page and
with no reserved one as the sum of the usable lengths has pages, and with the sum of the other
lengths it stays below `2⁶⁴`. -/
structure BootAccounts (entries : List MemmapEntry) : Prop where
  clear : ((Finset.range (bitmapPages entries)).filter (ClearedPage entries)).card =
    (getTotalMemory entries 0).toNat / pageSize
  total : (getTotalMemory entries 0).toNat + (getTotalMemory entries 1).toNat <
    18446744073709551616

/-- `p` is the first run of `n` free pages in the bitmap. -/
def FirstRun (s : PmmState) (n p : Nat) : Prop :=
  FreePages s n p ∧ ∀ q, FreePages s n q → p ≤ q

/-- **The requests that keep the accounts**: no page is counted available; or the code computes no
page; or the request finds nothing; or the first run of `num_pages` free pages is made of whole
words. -/
def AllocKeeps (s : PmmState) (size : BitVec 64) : Prop :=
  s.info.availablePages = 0 ∨ numPages size = 0 ∨ FindsNone s size ∨
  ∃ n p : Nat, numPages size = n ∧ p < 2147483648 ∧ FirstRun s n p ∧
    p % bitsPerBlock = 0 ∧ n % bitsPerBlock = 0

/-- The calls that keep the accounts. -/
def Keeps (L : Ledger) : PmmCall → Prop
  | .alloc size => AllocKeeps L.pmm size
  | .freePage _ => False

/-- The search of a request ends in the bitmap: a run of `num_pages` free pages starts there, or its
last page is used. -/
def SearchInside (s : PmmState) (size : BitVec 64) : Prop :=
  (∃ n p : Nat, numPages size = n ∧ p < 2147483648 ∧ FreePages s n p) ∨
  0 < s.words ∧ s.words * bitsPerBlock ≤ 2147483648 ∧ ¬ Free s.map (s.words * bitsPerBlock - 1)

/-- The search of the call ends in the bitmap. -/
def StaysInside (L : Ledger) : PmmCall → Prop
  | .alloc size => SearchInside L.pmm size
  | .freePage _ => True

/-- The accounts are right at the start and after every step of a run. -/
def AlwaysAccounted (s : PmmState) (ts : List (Taken Ledger PmmCall)) : Prop :=
  Accounted s ∧ ∀ t ∈ ts, Accounted t.after.pmm

/-! ### The pages that are marked -/

theorem mem_clearPages {s : PmmState} {q : Nat} :
    q ∈ clearPages s ↔ q < s.pages ∧ Free s.map q := by
  rw [clearPages, Finset.mem_filter, Finset.mem_range]

theorem takePages_pages (s : PmmState) (n f : Int) : (takePages s n f).pages = s.pages := by
  rw [PmmState.pages, takePages_size, PmmState.pages]

/-- Pages that share are both managed, or neither is. -/
theorem pages_of_shares {s : PmmState} {i j : Nat} (h : Shares i j) (hi : i < s.pages) :
    j < s.pages := by
  obtain ⟨hw, -⟩ := h
  unfold PmmState.pages bitsPerBlock at *
  omega

/-- What stays clear when `n` pages from page `p` on are marked: the pages that share with none of
them. -/
theorem mem_clearPages_take {s : PmmState} {n p q : Nat} (h : p + n < 18446744073709551616) :
    q ∈ clearPages (takePages s n p) ↔
      q ∈ clearPages s ∧ ∀ i, p ≤ i → i < p + n → ¬ Shares i q := by
  rw [mem_clearPages, mem_clearPages, takePages_pages, takePages_map s h, Free,
    ← Bool.not_eq_true, testBit_setBits, not_or, and_assoc, Bool.not_eq_true]
  constructor
  · rintro ⟨hq, hno, hfree⟩
    exact ⟨hq, hfree, fun i h₀ h₁ hs => hno ⟨i, h₀, h₁, hs⟩⟩
  · rintro ⟨hq, hfree, hno⟩
    refine ⟨hq, ?_, hfree⟩
    rintro ⟨i, h₀, h₁, hs⟩
    exact hno i h₀ h₁ hs

/-- Marking `n` pages keeps the accounts when it makes `n` clear bits fewer. -/
theorem accounted_take_card {s : PmmState} {n p : Nat} (ha : Accounted s)
    (h : p + n < 18446744073709551616) :
    Accounted (takePages s n p) ↔
      (clearPages (takePages s n p)).card + n = (clearPages s).card := by
  obtain ⟨hav, hus⟩ := takePages_info s n p
  have htot := takePages_totalPages s n p
  have hle : (clearPages (takePages s n p)).card ≤ (clearPages s).card :=
    Finset.card_le_card fun q hq => ((mem_clearPages_take h).mp hq).1
  have hmod : (BitVec.ofNat 64 n).toNat = n := by
    rw [BitVec.toNat_ofNat, Nat.mod_eq_of_lt (by omega)]
  have hclear := ha.clear
  have htotal := ha.total
  have hlt := s.info.availablePages.isLt
  have hlt' := s.info.totalPages.isLt
  constructor
  · rintro ⟨hc, -⟩
    rw [hav, BitVec.toNat_sub, hmod] at hc
    omega
  · intro hc
    refine ⟨?_, ?_⟩
    · rw [hav, BitVec.toNat_sub, hmod]
      omega
    · rw [hav, hus, htot, BitVec.toNat_sub, BitVec.toNat_add, hmod]
      omega

/-- **A run of free pages keeps the accounts when it is made of whole words.** -/
theorem accounted_take_iff {s : PmmState} {n p : Nat} (ha : Accounted s) (hn : 0 < n)
    (h : p + n < 18446744073709551616) (hend : p + n ≤ s.pages) (hf : Fits (Free s.map) n p) :
    Accounted (takePages s n p) ↔ p % bitsPerBlock = 0 ∧ n % bitsPerBlock = 0 := by
  rw [accounted_take_card ha h]
  have hsub : Finset.Ico p (p + n) ⊆ clearPages s := fun q hq => by
    obtain ⟨h₀, h₁⟩ := Finset.mem_Ico.mp hq
    exact mem_clearPages.mpr ⟨by omega, hf.free_of_mem h₀ h₁⟩
  have hcard : (Finset.Ico p (p + n)).card = n := by rw [Nat.card_Ico]; omega
  have hle := Finset.card_le_card hsub
  constructor
  · intro hc
    by_contra hwhole
    -- at an edge inside a word, a page of the run shares with a clear one that is not in it
    obtain ⟨i, h₀, h₁, hout⟩ := exists_partner_outside hn hwhole
    have hs : Shares i (partner i) := (shares_iff_partner i _).mpr (Or.inr rfl)
    have hclear : partner i ∈ clearPages s := by
      refine mem_clearPages.mpr ⟨pages_of_shares hs (by omega), ?_⟩
      rw [Free, ← testBit_of_shares hs]
      exact hf.free_of_mem h₀ h₁
    have hmore : insert (partner i) (Finset.Ico p (p + n)) ⊆ clearPages s :=
      Finset.insert_subset hclear hsub
    have hless : clearPages (takePages s n p) ⊆
        clearPages s \ insert (partner i) (Finset.Ico p (p + n)) := by
      intro q hq
      obtain ⟨hq, hno⟩ := (mem_clearPages_take h).mp hq
      refine Finset.mem_sdiff.mpr ⟨hq, fun hmem => ?_⟩
      rcases Finset.mem_insert.mp hmem with rfl | hmem
      · exact hno i h₀ h₁ hs
      · obtain ⟨hq₀, hq₁⟩ := Finset.mem_Ico.mp hmem
        exact hno q hq₀ hq₁ (Shares.refl q)
    have hout' : partner i ∉ Finset.Ico p (p + n) := fun hmem => by
      have := Finset.mem_Ico.mp hmem
      omega
    have hcard' := Finset.card_insert_of_notMem hout'
    have hle' := Finset.card_le_card hmore
    have hfew := Finset.card_le_card hless
    rw [Finset.card_sdiff_of_subset hmore] at hfew
    omega
  · rintro ⟨hp, hn'⟩
    have heq : clearPages (takePages s n p) = clearPages s \ Finset.Ico p (p + n) := by
      ext q
      rw [mem_clearPages_take h, Finset.mem_sdiff, Finset.mem_Ico]
      refine and_congr_right fun _ => ⟨fun hno hq => hno q hq.1 hq.2 (Shares.refl q),
        fun hno i h₀ h₁ hs => hno ?_⟩
      obtain ⟨hw, -⟩ := hs
      unfold bitsPerBlock at *
      omega
    rw [heq, Finset.card_sdiff_of_subset hsub, hcard]
    omega

/-! ### The page that is freed -/

theorem pmmFreePage_pages (s : PmmState) (addr : BitVec 64) :
    (pmmFreePage s addr).pages = s.pages := by
  simp only [PmmState.pages, pmmFreePage, pmmBitmapClearBit]

theorem mem_clearPages_free {s : PmmState} {addr : BitVec 64} {q : Nat} :
    q ∈ clearPages (pmmFreePage s addr) ↔
      q < s.pages ∧ (Shares (addr.toNat / pageSize) q ∨ Free s.map q) := by
  have hmap : (pmmFreePage s addr).map = clearBit s.map (addr.toNat / pageSize) := by
    simp only [pmmFreePage, pmmBitmapClearBit]
  rw [mem_clearPages, pmmFreePage_pages, hmap, Free, ← Bool.not_eq_true, testBit_clearBit,
    not_and_or, not_not, Bool.not_eq_true]

/-- Freeing a page makes the bits of two managed pages clear, or of none. -/
theorem card_clearPages_free (s : PmmState) (addr : BitVec 64) :
    (clearPages (pmmFreePage s addr)).card = (clearPages s).card ∨
      (clearPages (pmmFreePage s addr)).card = (clearPages s).card + 2 := by
  by_cases hq : addr.toNat / pageSize < s.pages ∧ ¬ Free s.map (addr.toNat / pageSize)
  · obtain ⟨hq, hused⟩ := hq
    generalize hpage : addr.toNat / pageSize = p at hq hused
    have hs : Shares p (partner p) := (shares_iff_partner p _).mpr (Or.inr rfl)
    have hpused : ¬ Free s.map (partner p) := by rwa [Free, ← testBit_of_shares hs]
    -- the page and its partner tested used before
    have heq : clearPages (pmmFreePage s addr) = insert p (insert (partner p) (clearPages s)) := by
      ext q
      rw [mem_clearPages_free, hpage, shares_iff_partner, Finset.mem_insert, Finset.mem_insert,
        mem_clearPages]
      constructor
      · rintro ⟨hlt, (rfl | rfl) | hfree⟩
        · exact Or.inl rfl
        · exact Or.inr (Or.inl rfl)
        · exact Or.inr (Or.inr ⟨hlt, hfree⟩)
      · rintro (rfl | rfl | ⟨hlt, hfree⟩)
        · exact ⟨hq, Or.inl (Or.inl rfl)⟩
        · exact ⟨pages_of_shares hs hq, Or.inl (Or.inr rfl)⟩
        · exact ⟨hlt, Or.inr hfree⟩
    have hne : p ≠ partner p := partner_ne p
    have hpartner : partner p ∉ clearPages s := fun h => hpused (mem_clearPages.mp h).2
    have hself : p ∉ insert (partner p) (clearPages s) := by
      rw [Finset.mem_insert, not_or]
      exact ⟨hne, fun h => hused (mem_clearPages.mp h).2⟩
    right
    rw [heq, Finset.card_insert_of_notMem hself, Finset.card_insert_of_notMem hpartner]
  · left
    congr 1
    ext q
    rw [mem_clearPages_free, mem_clearPages]
    refine and_congr_right fun hlt => ⟨fun h => ?_, Or.inr⟩
    rcases h with hs | hfree
    · have hfree := not_not.mp (not_and.mp hq (pages_of_shares hs.symm hlt))
      rwa [Free, ← testBit_of_shares hs]
    · exact hfree

/-- **Freeing a page does not keep the accounts.** -/
theorem not_accounted_free (s : SizedPmm) (ha : Accounted s.toPmmState) (addr : BitVec 64) :
    ¬ Accounted (pmmFreePage s.toPmmState addr) := by
  rintro ⟨hc, -⟩
  have hav : (pmmFreePage s.toPmmState addr).info.availablePages =
      s.info.availablePages + 1 := by
    simp only [pmmFreePage, pmmBitmapClearBit]
  have hclear := ha.clear
  have hle : (clearPages s.toPmmState).card ≤ s.pages := by
    refine (Finset.card_filter_le _ _).trans_eq (Finset.card_range _)
  have hpages := s.pages_lt
  have hwords : s.pages % 64 = 0 := by
    rw [PmmState.pages]
    unfold bitsPerBlock
    omega
  have hone : (1 : BitVec 64).toNat = 1 := rfl
  rw [hav, BitVec.toNat_add, hclear, hone, Nat.mod_eq_of_lt (by omega)] at hc
  rcases card_clearPages_free s.toPmmState addr with h | h
  · omega
  · omega

/-! ### The state after `pmm_init` -/

theorem shares_page_iff {P : Nat → Prop} {p : Nat} :
    (∃ r, P r ∧ Shares r p) ↔ P p ∨ P (partner p) := by
  constructor
  · rintro ⟨r, hr, hs⟩
    rcases (shares_iff_partner p r).mp hs.symm with rfl | rfl
    · exact Or.inl hr
    · exact Or.inr hr
  · rintro (h | h)
    · exact ⟨p, h, Shares.refl p⟩
    · exact ⟨partner p, h, ((shares_iff_partner p _).mpr (Or.inr rfl)).symm⟩

/-- The bits that `pmm_init` leaves clear. -/
theorem clearPages_pmmInit {words : Words} {entries : List MemmapEntry} {s : PmmState}
    (h : pmmInit words entries = some s) :
    clearPages s = (Finset.range (bitmapPages entries)).filter (ClearedPage entries) := by
  ext p
  have hpages : s.pages = bitmapPages entries := by
    rw [PmmState.pages, pmmInit_size h, bitmapPages]
  rw [mem_clearPages, hpages, Finset.mem_filter, Finset.mem_range]
  refine and_congr_right fun hp => ?_
  have hword : p / bitsPerBlock < (bitmapSize entries).toNat := by
    unfold bitmapPages bitsPerBlock at *
    omega
  -- the bitmap was filled with ones
  have hfill : testBit (fillMap words (bitmapSize entries)) p = true := by
    rw [testBit_iff, fillMap, if_pos ⟨Int.natCast_nonneg _, Int.ofNat_lt.mpr hword⟩]
    exact allOnes_and_bitMask p
  rw [Free, ← Bool.not_eq_true, testBit_pmmInit h (bitmapSize_ne_zero_of_page hp),
    shares_page_iff, shares_page_iff, not_or, not_and_or, not_not, ClearedPage, ← not_or]
  simp only [hfill, not_true_eq_false, or_false, ReservedPage]
  exact and_comm

/-- The lengths of page-aligned entries add up to whole pages. -/
theorem getTotalMemory_aligned {entries : List MemmapEntry} (ha : PageAligned entries)
    (type : Int) :
    (getTotalMemory entries type).toNat % pageSize = 0 := by
  have hfold : ∀ (P : MemmapEntry → Prop) [DecidablePred P] (l : List MemmapEntry)
      (res : BitVec 64), (∀ e ∈ l, e.length.toNat % pageSize = 0) → res.toNat % pageSize = 0 →
      (l.foldl (fun res e => if P e then res + e.length else res) res).toNat % pageSize = 0 := by
    intro P _ l
    induction l with
    | nil => exact fun res _ h => h
    | cons e l ih =>
        intro res hl hres
        rw [List.forall_mem_cons] at hl
        refine ih _ hl.2 ?_
        show (if P e then res + e.length else res).toNat % pageSize = 0
        split
        · have := hl.1
          rw [BitVec.toNat_add]
          unfold pageSize at *
          omega
        · exact hres
  have hlength : ∀ e ∈ visited entries, e.length.toNat % pageSize = 0 :=
    fun e he => (ha e (visited_mem he)).2
  unfold getTotalMemory
  split
  · exact hfold _ _ _ hlength rfl
  · exact hfold _ _ _ hlength rfl

/-- **The accounts are right after `pmm_init`** for the memory maps that are counted right, and for
no others. -/
theorem pmmInit_accounted_iff {words : Words} {entries : List MemmapEntry} {s : PmmState}
    (ha : PageAligned entries) (h : pmmInit words entries = some s) :
    Accounted s ↔ BootAccounts entries := by
  have hinfo := (pmmInit_storage h).1
  have hpage : (BitVec.ofNat 64 pageSize).toNat = pageSize := by decide
  have hav : s.info.availablePages.toNat = (getTotalMemory entries 0).toNat / pageSize := by
    rw [hinfo, printMemoryStats, BitVec.toNat_udiv, hpage]
  have hus : s.info.usedPages.toNat = (getTotalMemory entries 1).toNat / pageSize := by
    rw [hinfo, printMemoryStats, BitVec.toNat_udiv, hpage]
  have htot : s.info.totalPages.toNat =
      ((getTotalMemory entries 0).toNat + (getTotalMemory entries 1).toNat) %
        18446744073709551616 / pageSize := by
    rw [hinfo, printMemoryStats, BitVec.toNat_udiv, hpage, BitVec.toNat_add]
  have h₀ := getTotalMemory_aligned ha 0
  have h₁ := getTotalMemory_aligned ha 1
  have hlt₀ := (getTotalMemory entries 0).isLt
  have hlt₁ := (getTotalMemory entries 1).isLt
  constructor
  · rintro ⟨hc, ht⟩
    rw [clearPages_pmmInit h, hav] at hc
    rw [hav, hus, htot] at ht
    refine ⟨hc.symm, ?_⟩
    unfold pageSize at *
    omega
  · rintro ⟨hc, ht⟩
    refine ⟨by rw [clearPages_pmmInit h, hav, hc], ?_⟩
    rw [hav, hus, htot]
    unfold pageSize at *
    omega

/-! ### A request -/

/-- Taking no page changes nothing. -/
theorem takePages_zero (s : PmmState) (f : Int) : takePages s 0 f = s := by
  have hlast : (toUInt64 0 + toUInt64 f) % 18446744073709551616 - toUInt64 f = 0 := by
    rw [show toUInt64 0 = 0 by decide]
    omega
  have hzero : BitVec.ofInt 64 0 = 0#64 := rfl
  simp only [takePages, hlast, setBits, hzero, BitVec.sub_zero, BitVec.add_zero]

/-- There is one first run. -/
theorem FirstRun.unique {s : PmmState} {n p q : Nat} (hp : FirstRun s n p) (hq : FirstRun s n q) :
    p = q := Nat.le_antisymm (hp.2 q hq.1) (hq.2 p hp.1)

/-- The search ends at the first run in the bitmap. -/
theorem pageFrame_firstRun {s : PmmState} {size : BitVec 64} {n p : Nat} (hn : numPages size = n)
    (hpos : 0 < n) (hint : p < 2147483648) (hrun : FreePages s n p) :
    ∃ w : Nat, pageFrame s size = some (w : Int) ∧ FirstRun s n w := by
  have hnlt := (numPages_range size).2
  obtain ⟨w, hw, hf, hmin⟩ := findFit_found hpos hrun.2 hrun.1 hint (by omega)
  have hle := hmin p hrun.2
  have hend := hrun.1
  refine ⟨w, ?_, ⟨by omega, hf⟩, fun q hq => hmin q hq.2⟩
  rw [pageFrame, hn, toUInt64_natCast (by omega)]
  exact hw

/-- A request with a run in the bitmap takes the first one. -/
theorem pmmAlloc_firstRun {s s' : PmmState} {size addr : BitVec 64} {n p : Nat}
    (havail : s.info.availablePages ≠ 0) (hn : numPages size = n) (hpos : 0 < n)
    (hint : p < 2147483648) (hrun : FreePages s n p)
    (h : pmmAlloc s size = some (addr, s')) :
    ∃ w, w < 2147483648 ∧ FirstRun s n w ∧ s' = takePages s n w := by
  obtain ⟨w, hframe, hfirst⟩ := pageFrame_firstRun hn hpos hint hrun
  obtain ⟨hlt, hm⟩ := pmmAlloc_page havail hn hframe
  rw [hm] at h
  exact ⟨w, hlt, hfirst, (Prod.mk.inj (Option.some.inj h)).2.symm⟩

/-- The run taken keeps the accounts when it is made of whole words. -/
theorem SizedPmm.accounted_run_iff (s : SizedPmm) {n p : Nat} (ha : Accounted s.toPmmState)
    (hn : 0 < n) (hint : n < 2147483648) (hp : p < 2147483648) (hrun : FreePages s.toPmmState n p) :
    Accounted (takePages s.toPmmState n p) ↔ p % bitsPerBlock = 0 ∧ n % bitsPerBlock = 0 := by
  refine accounted_take_iff ha hn (by omega) ?_ hrun.2
  rw [PmmState.pages, s.sized]
  exact hrun.1

/-- A request for no page changes nothing. -/
theorem pmmAlloc_zero {s s' : PmmState} {size addr : BitVec 64} (hn : numPages size = 0)
    (h : pmmAlloc s size = some (addr, s')) : s' = s := by
  rcases pmmAlloc_cases h with ⟨-, hs⟩ | ⟨f, -, -, hs⟩
  · exact hs
  · rw [hs, hn, takePages_zero]

/-- **A request that meets the condition keeps the accounts.** -/
theorem SizedPmm.accounted_alloc (s : SizedPmm) {s' : PmmState} {size addr : BitVec 64}
    (ha : Accounted s.toPmmState) (hk : AllocKeeps s.toPmmState size)
    (h : pmmAlloc s.toPmmState size = some (addr, s')) : Accounted s' := by
  have hfail : s.info.availablePages = 0 ∨ pageFrame s.toPmmState size = some enomem →
      Accounted s' := by
    intro hf
    rw [pmmAlloc_of_enomem hf] at h
    exact (Prod.mk.inj (Option.some.inj h)).2 ▸ ha
  by_cases havail : s.info.availablePages = 0
  · exact hfail (Or.inl havail)
  rcases hk with hk | hk | hk | ⟨n, p, hn, hp, hfirst, hwhole⟩
  · exact absurd hk havail
  · exact pmmAlloc_zero hk h ▸ ha
  · exact hfail (Or.inr hk.pageFrame)
  · by_cases hz : n = 0
    · exact pmmAlloc_zero (hn.trans (by rw [hz]; rfl)) h ▸ ha
    · obtain ⟨w, hw, hwfirst, hs⟩ :=
        pmmAlloc_firstRun havail hn (Nat.pos_of_ne_zero hz) hp hfirst.1 h
      obtain rfl := hwfirst.unique hfirst
      have hnlt := (numPages_range size).2
      rw [hs]
      exact (s.accounted_run_iff ha (Nat.pos_of_ne_zero hz) (by omega) hp hfirst.1).mpr hwhole

/-- **A request that keeps the accounts meets the condition**, where its search ends in the
bitmap. -/
theorem SizedPmm.allocKeeps_of_accounted (s : SizedPmm) {s' : PmmState} {size addr : BitVec 64}
    (ha : Accounted s.toPmmState) (hin : SearchInside s.toPmmState size)
    (h : pmmAlloc s.toPmmState size = some (addr, s')) (ha' : Accounted s') :
    AllocKeeps s.toPmmState size := by
  by_cases havail : s.info.availablePages = 0
  · exact Or.inl havail
  by_cases hz : numPages size = 0
  · exact Or.inr (Or.inl hz)
  have hrun : ∀ n p : Nat, numPages size = n → p < 2147483648 → FreePages s.toPmmState n p →
      AllocKeeps s.toPmmState size := by
    intro n p hn hp hrun
    have hpos : 0 < n := Nat.pos_of_ne_zero fun e => hz (by rw [hn, e]; rfl)
    obtain ⟨w, hw, hfirst, hs⟩ := pmmAlloc_firstRun havail hn hpos hp hrun h
    have hnlt := (numPages_range size).2
    rw [hs] at ha'
    exact Or.inr (Or.inr (Or.inr ⟨n, w, hn, hw, hfirst,
      (s.accounted_run_iff ha hpos (by omega) hw hfirst.1).mp ha'⟩))
  rcases hin with ⟨n, p, hn, hp, hfree⟩ | ⟨hwords, hint, hlast⟩
  · exact hrun n p hn hp hfree
  · -- the last page of the bitmap is a stop
    have hstop : Stop s.map s.words (s.words * bitsPerBlock - 1) :=
      Stop.last hwords (by omega) hlast
    have hlim : Limit s.map s.words (toUInt64 (numPages size)) 0 (s.words * bitsPerBlock - 1) :=
      Or.inl hstop
    rcases findFit_ends hwords hlim with ⟨w, -, -, hf, hwu, -⟩ | ⟨u, hu, -, hno⟩
    · have hpos := numPages_nonneg_of_found hlim hf hwu
      obtain ⟨n, hn⟩ := Int.eq_ofNat_of_zero_le hpos
      have hnlt := (numPages_range size).2
      rw [hn, toUInt64_natCast (by omega)] at hf
      have hw := hwu _ hstop
      refine hrun n w hn (by omega) ⟨?_, hf⟩
      by_contra hend
      exact hlast (hf.free_of_mem (by omega) (by omega))
    · exact Or.inr (Or.inr (Or.inl ⟨⟨u, hu⟩, fun p hp hf => ⟨u, hu, hno p hp hf⟩⟩))

/-! ### Runs -/

/-- What a run keeps. -/
structure Ledger.Accounts (L : Ledger) : Prop where
  accounted : Accounted L.pmm
  sized : L.pmm.size.toNat = L.pmm.words

/-- Every call keeps the size of the bitmap. -/
theorem CallStep.sized {L L' : Ledger} {c : PmmCall} (hs : L.pmm.size.toNat = L.pmm.words)
    (h : CallStep L c L') : L'.pmm.size.toNat = L'.pmm.words := by
  cases h with
  | alloc h _ => exact pmmAlloc_sized ⟨L.pmm, hs⟩ h
  | allocFail h => exact pmmAlloc_sized ⟨L.pmm, hs⟩ h
  | freePage _ => exact pmmFreePage_sized ⟨L.pmm, hs⟩ _

/-- **A call that meets the condition keeps the accounts.** -/
theorem Ledger.Accounts.step {L L' : Ledger} {c : PmmCall} (hL : L.Accounts) (hk : Keeps L c)
    (h : CallStep L c L') : L'.Accounts := by
  refine ⟨?_, h.sized hL.sized⟩
  cases h with
  | alloc h _ => exact SizedPmm.accounted_alloc ⟨L.pmm, hL.sized⟩ hL.accounted hk h
  | allocFail h => exact SizedPmm.accounted_alloc ⟨L.pmm, hL.sized⟩ hL.accounted hk h
  | freePage _ => exact hk.elim

/-- **No other call does**, where its search ends in the bitmap. -/
theorem Ledger.Accounts.keeps_iff {L L' : Ledger} {c : PmmCall} (hL : L.Accounts)
    (hin : StaysInside L c) (h : CallStep L c L') : Accounted L'.pmm ↔ Keeps L c := by
  refine ⟨fun ha => ?_, fun hk => (hL.step hk h).accounted⟩
  cases h with
  | alloc h _ => exact SizedPmm.allocKeeps_of_accounted ⟨L.pmm, hL.sized⟩ hL.accounted hin h ha
  | allocFail h => exact SizedPmm.allocKeeps_of_accounted ⟨L.pmm, hL.sized⟩ hL.accounted hin h ha
  | freePage _ => exact not_accounted_free ⟨L.pmm, hL.sized⟩ hL.accounted _ ha

/-- **Page accounting**: from a memory map that is counted right, every run whose calls all meet the
condition has the accounts right all along; and of the runs whose searches end in the bitmap, no
others do. -/
theorem page_accounts_iff {words : Words} {entries : List MemmapEntry} {s : PmmState}
    {ts : List (Taken Ledger PmmCall)} {L : Ledger} (ha : PageAligned entries)
    (hinit : pmmInit words entries = some s) (h : Run (Recorded CallStep) ⟨s, ∅⟩ ts L) :
    (BootAccounts entries ∧ (∀ t ∈ ts, Keeps t.before t.event) → AlwaysAccounted s ts) ∧
      ((∀ t ∈ ts, StaysInside t.before t.event) →
        (AlwaysAccounted s ts ↔ BootAccounts entries ∧ ∀ t ∈ ts, Keeps t.before t.event)) := by
  have hboot := pmmInit_accounted_iff ha hinit
  constructor
  · rintro ⟨hb, hk⟩
    have hs := hboot.mpr hb
    refine ⟨hs, ?_⟩
    exact h.forall_of (fun hL hk hc => ⟨hL.step hk hc, (hL.step hk hc).accounted⟩)
      (show Ledger.Accounts ⟨s, ∅⟩ from ⟨hs, pmmInit_sized hinit⟩) hk
  · intro hin
    rw [AlwaysAccounted, hboot]
    refine and_congr_right fun hb => ?_
    have hL : Ledger.Accounts ⟨s, ∅⟩ := ⟨hboot.mpr hb, pmmInit_sized hinit⟩
    exact (h.restrict hin).forall_iff (fun hL hk hc => hL.step hk hc.1)
      (fun hL hc => hL.keeps_iff hc.2 hc.1) hL

/-! ### Two MiB of memory -/

theorem twoMiB_aligned : PageAligned twoMiB := by
  unfold PageAligned
  decide

/-- In `twoMiB` the second MiB is counted right. -/
theorem twoMiB_bootAccounts : BootAccounts twoMiB := ⟨by decide +kernel, by decide⟩

/-- There, a request of up to 256 pages takes them from the start of the second MiB. -/
theorem twoMiB_alloc {s : SizedPmm} {size : BitVec 64} {n : Nat} (hpages : s.pages = 512)
    (havail : s.info.availablePages = 256) (hused : ∀ p, p < 256 → ¬ Free s.map p)
    (hfree : ∀ p, 256 ≤ p → p < 512 → Free s.map p) (hn : numPages size = n) (hpos : 0 < n)
    (hle : n ≤ 256) : FirstRun s.toPmmState n 256 ∧
      pmmAlloc s.toPmmState size = some (0x100000, takePages s.toPmmState n 256) := by
  have hwords : s.words * bitsPerBlock = 512 := by rw [← s.sized]; exact hpages
  have hrun : FreePages s.toPmmState n 256 :=
    ⟨by omega, fun i hi => hfree (256 + i) (by omega) (by omega)⟩
  have hfirst : FirstRun s.toPmmState n 256 := by
    refine ⟨hrun, fun q hq => ?_⟩
    by_contra hlt
    exact hused q (by omega) (hq.2.free_of_mem (Nat.le_refl q) (by omega))
  obtain ⟨w, hframe, hw⟩ := pageFrame_firstRun hn hpos (by decide) hrun
  obtain rfl := hw.unique hfirst
  have hne : s.info.availablePages ≠ 0 := by rw [havail]; decide
  exact ⟨hfirst, (pmmAlloc_page hne hn hframe).2⟩

/-- There, a request for 64 pages takes a word of the bitmap and keeps the accounts. -/
theorem page_accounts_word : ∃ s L ts, pmmInit (fun _ => 0) twoMiB = some s ∧
    Run (Recorded CallStep) ⟨s, ∅⟩ ts L ∧ ts.length = 1 ∧ AlwaysAccounted s ts := by
  obtain ⟨s, hs, hpages, havail, hused, hfree⟩ := twoMiB_boot
  have hn : numPages 0x40000 = (64 : Nat) := by decide
  obtain ⟨hfirst, hm⟩ := twoMiB_alloc hpages havail hused hfree hn (by decide) (by decide)
  have hstep : CallStep ⟨s.toPmmState, ∅⟩ (.alloc 0x40000)
      ⟨takePages s.toPmmState (64 : Nat) 256, ∅ ∪ pagesOf 0x100000 0x40000⟩ :=
    .alloc hm (by decide)
  have hrun := Run.one (recorded hstep)
  refine ⟨s.toPmmState, _, _, hs, hrun, rfl, (page_accounts_iff twoMiB_aligned hs hrun).1
    ⟨twoMiB_bootAccounts, fun t ht => ?_⟩⟩
  obtain rfl := List.mem_singleton.mp ht
  exact Or.inr (Or.inr (Or.inr ⟨64, 256, hn, by decide, hfirst, by decide, by decide⟩))

/-- **The accounts go wrong** with the first request for one page: its bit is that of two pages. -/
theorem page_accounts_fail : ¬ PageAccounts := by
  intro hall
  obtain ⟨s, hs, hpages, havail, hused, hfree⟩ := twoMiB_boot
  obtain ⟨hfirst, hm⟩ := @twoMiB_alloc s 0x1000 1 hpages havail hused hfree (by decide) (by decide)
    (by decide)
  have hstep : CallStep ⟨s.toPmmState, ∅⟩ (.alloc 0x1000)
      ⟨takePages s.toPmmState (1 : Nat) 256, ∅ ∪ pagesOf 0x100000 0x1000⟩ :=
    .alloc hm (by decide)
  have ha := hall _ _ _ _ _ twoMiB_aligned hs (.one hstep)
  have hstart := (pmmInit_accounted_iff twoMiB_aligned hs).mpr twoMiB_bootAccounts
  have hwhole := (s.accounted_run_iff hstart (by decide) (by decide) (by decide) hfirst.1).mp ha
  exact absurd hwhole (by decide)

end FrazzOS.Pmm
