import FrazzOS.Pmm.Alloc
import FrazzOS.Support.Runs

/-!
# Pmm — page exclusivity

Runs of `pmm_alloc` and `pmm_free_page`, with the set of pages that are handed out: a page is in
it from the call that returned it to the call that freed it (`Ledger`, `PmmStep`).  Pages are
exclusive when no successful `pmm_alloc` returns a page of the set (`Exclusive`).

* `page_exclusivity_fails`: they are not.  Two pages 32 apart in one bitmap word share a bit, so
  freeing one makes the other, still handed out, test free.
* `page_exclusive_of_careful`: they are in every run that frees no page while the page it shares
  a bit with is handed out, and whose searches stay in the bitmap.  What carries the run is that
  every page handed out tests used (`Ledger.Marked`).
-/

namespace FrazzOS.Pmm
open Bitmap CInt FirstFit Runs

/-- The calls of a run. -/
inductive PmmCall where
  | alloc (size : BitVec 64)
  | freePage (addr : BitVec 64)

/-- The allocator, and the pages handed out and not freed. -/
structure Ledger where
  pmm : PmmState
  live : Set Nat

/-- One call.  A freed page is one that is handed out. -/
inductive PmmStep : Ledger → PmmCall → Ledger → Prop where
  | alloc {L : Ledger} {size addr : BitVec 64} {s' : PmmState} : Request L.pmm size →
      pmmAlloc L.pmm size = some (addr, s') → addr ≠ enomemPtr →
      PmmStep L (.alloc size) ⟨s', L.live ∪ pagesOf addr size⟩
  | allocFail {L : Ledger} {size : BitVec 64} {s' : PmmState} : Request L.pmm size →
      pmmAlloc L.pmm size = some (enomemPtr, s') → PmmStep L (.alloc size) ⟨s', L.live⟩
  | freePage {L : Ledger} {addr : BitVec 64} : addr.toNat / pageSize ∈ L.live →
      PmmStep L (.freePage addr)
        ⟨pmmFreePage L.pmm addr, L.live \ {addr.toNat / pageSize}⟩

/-- The next successful `pmm_alloc` returns no page that is handed out. -/
def Ledger.Exclusive (L : Ledger) : Prop :=
  ∀ size addr s', Request L.pmm size → pmmAlloc L.pmm size = some (addr, s') →
    addr ≠ enomemPtr → ∀ p ∈ pagesOf addr size, p ∉ L.live

/-- Page exclusivity over whole runs, from any state with no page handed out. -/
def PageExclusivity : Prop :=
  ∀ s calls L, Run PmmStep ⟨s, ∅⟩ calls L → L.Exclusive

/-- What a run must respect: a search stays in the bitmap, and a freed page shares its bit with no
other page handed out. -/
def Careful (L : Ledger) : PmmCall → Prop
  | .alloc size => AllocInside L.pmm size
  | .freePage addr =>
      ∀ q ∈ L.live, q ≠ addr.toNat / pageSize → ¬ Shares (addr.toNat / pageSize) q

/-! ### The invariant -/

/-- Every page handed out tests used, and its index fits an `int`. -/
def Ledger.Marked (L : Ledger) : Prop :=
  ∀ p ∈ L.live, testBit L.pmm.map p = true ∧ p < 2147483648

/-- The pages of a careful request tested free: none of them is handed out. -/
theorem Ledger.Marked.exclusive {L : Ledger} (hL : L.Marked) {size addr : BitVec 64}
    {s' : PmmState} (hreq : Request L.pmm size) (hin : AllocInside L.pmm size)
    (h : pmmAlloc L.pmm size = some (addr, s')) (hne : addr ≠ enomemPtr) {q : Nat}
    (hq : q ∈ pagesOf addr size) : q ∉ L.live := by
  rcases pmmAlloc_inside hreq.1 hreq.2 hin with he | ⟨p, s'', he, -, hint, hf, -⟩
  · rw [he] at h
    cases h
    exact absurd rfl hne
  · rw [he] at h
    cases h
    obtain ⟨h₀, h₁⟩ := mem_pagesOf (toNat_pageAddr (by omega)) hq
    intro hlive
    have hfree : Free L.pmm.map q := hf.free_of_mem h₀ h₁
    rw [Free, (hL q hlive).1] at hfree
    cases hfree

/-- **A careful step keeps every page handed out marked.** -/
theorem Ledger.Marked.step {L L' : Ledger} {c : PmmCall} (hL : L.Marked)
    (h : PmmStep L c L' ∧ Careful L c) : L'.Marked := by
  obtain ⟨hs, hc⟩ := h
  cases hs with
  | alloc hreq h hne =>
      rcases pmmAlloc_inside hreq.1 hreq.2 hc with he | ⟨p, s'', he, -, hint, -, hmap⟩
      · rw [he] at h
        cases h
        exact absurd rfl hne
      · rw [he] at h
        cases h
        rintro q (hq | hq)
        · refine ⟨?_, (hL q hq).2⟩
          show testBit _ q = true
          rw [hmap, testBit_setBits]
          exact Or.inr (hL q hq).1
        · obtain ⟨h₀, h₁⟩ := mem_pagesOf (toNat_pageAddr (by omega)) hq
          refine ⟨?_, by omega⟩
          show testBit _ q = true
          rw [hmap, testBit_setBits]
          exact Or.inl ⟨q, h₀, h₁, Shares.refl q⟩
  | allocFail hreq h =>
      rcases pmmAlloc_inside hreq.1 hreq.2 hc with he | ⟨p, s'', he, -, hint, -, -⟩
      · rw [he] at h
        cases h
        exact hL
      · rw [he] at h
        obtain ⟨e, -⟩ := Prod.mk.inj (Option.some.inj h)
        exact absurd e (pageAddr_ne_enomem (by omega))
  | freePage hlive =>
      rename_i addr
      rintro q ⟨hq, hne⟩
      refine ⟨?_, (hL q hq).2⟩
      show testBit (clearBit L.pmm.map (addr.toNat / pageSize)) q = true
      rw [testBit_clearBit]
      exact ⟨hc q hq hne, (hL q hq).1⟩

/-- **Page exclusivity of careful runs**: in every run that frees no page while the page it shares
a bit with is handed out, and whose searches stay in the bitmap, a successful `pmm_alloc` whose
search stays in the bitmap returns no page that is handed out. -/
theorem page_exclusive_of_careful {s : PmmState} {calls : List PmmCall} {L : Ledger}
    (h : Run (fun L c L' => PmmStep L c L' ∧ Careful L c) ⟨s, ∅⟩ calls L)
    {size addr : BitVec 64} {s' : PmmState} (hreq : Request L.pmm size)
    (hin : AllocInside L.pmm size) (ha : pmmAlloc L.pmm size = some (addr, s'))
    (hne : addr ≠ enomemPtr) : ∀ p ∈ pagesOf addr size, p ∉ L.live := by
  have h₀ : Ledger.Marked ⟨s, ∅⟩ := fun p hp => absurd hp (Set.notMem_empty p)
  have hL : L.Marked := h.invariant (fun hi hs => hi.step hs) h₀
  exact fun p hp => hL.exclusive hreq hin ha hne hp

/-! ### A run that is not careful -/

/-- **Pages are not exclusive**: after a request of 33 pages, page `32` is freed; that clears the
bit of page `0`, which the next request of one page returns although it is handed out. -/
theorem page_exclusivity_fails : ¬ PageExclusivity := by
  intro hexcl
  let s₁ := takePages freshPmm 33 0
  let s₂ := pmmFreePage s₁ 0x20000
  have ha₁ : pmmAlloc freshPmm 0x21000 = some (0, s₁) :=
    pmmAlloc_of_frame (n := 33) (f := 0) (by decide) (by decide +kernel) (by decide)
      (by decide +kernel)
  have ha₂ : pmmAlloc s₂ 0x1000 = some (0, takePages s₂ 1 0) :=
    pmmAlloc_of_frame (n := 1) (f := 0) (by decide) (by decide +kernel) (by decide)
      (by decide +kernel)
  have hrun : Run PmmStep ⟨freshPmm, ∅⟩ [.alloc 0x21000, .freePage 0x20000]
      ⟨s₂, (∅ ∪ pagesOf 0 0x21000) \ {32}⟩ := by
    refine .cons (.alloc ⟨by decide, by decide⟩ ha₁ (by decide)) (.one (.freePage ?_))
    exact Or.inr ⟨by decide, by decide⟩
  refine hexcl _ _ _ hrun 0x1000 0 _ ⟨by decide, by decide⟩ ha₂ (by decide) 0
    ⟨by decide, by decide⟩ ?_
  exact ⟨Or.inr ⟨by decide, by decide⟩, (by decide : (0 : Nat) ≠ 32)⟩

/-- A careful run: two pages are handed out, the first is freed, and the next request returns
it again; the second is still handed out and is not in the range. -/
theorem page_exclusive_of_careful_two :
    ∃ s, pmmAlloc (pmmFreePage (takePages freshPmm 2 0) 0) 0x1000 = some (0, s) ∧
      ∀ p ∈ pagesOf 0 0x1000, p ∉ ((∅ ∪ pagesOf 0 0x2000) \ {0} : Set Nat) := by
  let s₁ := takePages freshPmm 2 0
  let s₂ := pmmFreePage s₁ 0
  have ha₁ : pmmAlloc freshPmm 0x2000 = some (0, s₁) :=
    pmmAlloc_of_frame (n := 2) (f := 0) (by decide) (by decide +kernel) (by decide)
      (by decide +kernel)
  have ha₂ : pmmAlloc s₂ 0x1000 = some (0, takePages s₂ 1 0) :=
    pmmAlloc_of_frame (n := 1) (f := 0) (by decide) (by decide +kernel) (by decide)
      (by decide +kernel)
  have hfit₁ : Fits (Free freshPmm.map) (pageCount 0x2000) 0 := fun i _ => by
    simp [Free, testBit, freshPmm]
  have hfit₂ : Fits (Free s₂.map) (pageCount 0x1000) 0 := by
    unfold Fits; decide +kernel
  have hrun : Run (fun L c L' => PmmStep L c L' ∧ Careful L c) ⟨freshPmm, ∅⟩
      [.alloc 0x2000, .freePage 0] ⟨s₂, (∅ ∪ pagesOf 0 0x2000) \ {0}⟩ := by
    refine .cons ⟨.alloc ⟨by decide, by decide⟩ ha₁ (by decide),
      Or.inr (Or.inl ⟨0, by decide, by decide, hfit₁⟩)⟩ (.one ⟨.freePage ?_, ?_⟩)
    · exact Or.inr ⟨by decide, by decide⟩
    · rintro q (hq | ⟨-, hq⟩) hne hs
      · exact hq
      · obtain ⟨-, hmod⟩ := hs
        have hq' : q * 4096 < 0 + 8192 := hq
        have hne' : q ≠ 0 := hne
        have hmod' : 0 % 32 = q % 32 := hmod
        omega
  exact ⟨_, ha₂, page_exclusive_of_careful hrun ⟨by decide, by decide⟩
    (Or.inr (Or.inl ⟨0, by decide, by decide, hfit₂⟩)) ha₂ (by decide)⟩

end FrazzOS.Pmm
