import FrazzOS.Pmm.Init
import FrazzOS.Support.Runs

/-!
# Pmm — the bitmap's own pages

The bitmap lies in usable memory, so after `pmm_init` its own pages should test used
(`Protected`): else a later `pmm_alloc` may return them.  `pmm_init` means to reserve them, but
passes `*bitmap.map`, the first word of the bitmap, for their address.

* `bitmap_protected_iff`: the pages of the bitmap test used exactly when each of them shares with
  a page of the first MiB, or with one of the range that the word's value happens to name
  (`StorageReserved`).  Where they do, no run of `pmm_alloc` returns one.
* `bitmap_protected_iff_below`: a memory map with one usable entry, in the first MiB.
* `bitmap_not_protected`: a memory map with one usable entry, above the first MiB.
-/

namespace FrazzOS.Pmm
open Bitmap CInt FirstFit Runs

/-- After `pmm_init`, every page of the bitmap tests used. -/
def Protected (m : BootMap) : Prop :=
  ∀ words s, pmmInit words m.entries = some s → ∀ q ∈ storagePages s, testBit s.map q = true

/-- Every page of the memory that the bitmap takes shares with a page of the first MiB, or with one
of the `bitmap.size * 8` bytes from `lowWord` on. -/
def StorageReserved (m : BootMap) : Prop :=
  ∀ e, bitmapEntry m.entries = some e →
    ∀ q ∈ pagesFrom e.base.toNat (8 * (bitmapSize m.entries).toNat),
      ∃ r, (InPages 0 0x100000 r ∨ InPages (lowWord m.entries) (bitmapSize m.entries * 8) r) ∧
        Shares r q

/-- One call of `pmm_alloc`. -/
def AllocStep (s : PmmState) (size : BitVec 64) (s' : PmmState) : Prop :=
  Request s size ∧ ∃ addr, pmmAlloc s size = some (addr, s')

/-- No run of `pmm_alloc` after `pmm_init` returns a page of the bitmap. -/
def NeverReturned (m : BootMap) : Prop :=
  ∀ words s, pmmInit words m.entries = some s → ∀ sizes s', Run AllocStep s sizes s' →
    ∀ size addr s'', Request s' size → pmmAlloc s' size = some (addr, s'') → addr ≠ enomemPtr →
      ∀ p ∈ pagesOf addr size, p ∉ storagePages s

/-! ### Where the bitmap lies -/

theorem bitmapEntry_mem {entries : List MemmapEntry} {e : MemmapEntry}
    (h : bitmapEntry entries = some e) :
    e ∈ visited entries ∧ e.Usable ∧ bitmapSize entries ≤ e.length := by
  have hmem := List.mem_of_getLast? h
  obtain ⟨hv, hd⟩ := List.mem_filter.mp hmem
  exact ⟨hv, of_decide_eq_true hd⟩

/-- A page of the bitmap is a page of the entry it lies in, which `pmm_init` frees. -/
theorem BootMap.usablePage_of_storage (m : BootMap) {e : MemmapEntry}
    (h : bitmapEntry m.entries = some e) {q : Nat}
    (hq : q ∈ pagesFrom e.base.toNat (8 * (bitmapSize m.entries).toNat)) :
    UsablePage (visited m.entries) q ∧ q < 4503599627370496 / pageSize := by
  obtain ⟨hv, hu, hlen⟩ := bitmapEntry_mem h
  have hmem : e ∈ m.entries := List.mem_of_mem_take hv
  obtain ⟨hb, hl⟩ := m.aligned e hmem hu
  have hin := m.inside e hmem hu
  have hroom := m.room e hmem hu hlen
  obtain ⟨x, h₀, h₁, rfl⟩ := hq
  have hend : (e.base + e.length).toNat = e.base.toNat + e.length.toNat := by
    rw [BitVec.toNat_add, Nat.mod_eq_of_lt (by omega)]
  refine ⟨⟨e, hv, hu, ?_⟩, ?_⟩
  · unfold InPages pageRange
    rw [hend, if_neg (by simp [hl])]
    unfold pageSize at *
    simp only
    omega
  · unfold pageSize at *
    omega

/-- A bitmap with a page has a word. -/
theorem bitmapSize_ne_zero {entries : List MemmapEntry} {base q : Nat}
    (hq : q ∈ pagesFrom base (8 * (bitmapSize entries).toNat)) : bitmapSize entries ≠ 0 := by
  rintro hz
  obtain ⟨x, h₀, h₁, -⟩ := hq
  rw [hz] at h₁
  have hzero : (0 : BitVec 64).toNat = 0 := rfl
  omega

/-- The pages of the bitmap that test used are those that share with a reserved page. -/
theorem BootMap.testBit_storage (m : BootMap) {words : Words} {s : PmmState}
    (h : pmmInit words m.entries = some s) {q : Nat} (hq : q ∈ storagePages s) :
    testBit s.map q = true ↔
      ∃ r, (InPages 0 0x100000 r ∨ InPages (lowWord m.entries) (bitmapSize m.entries * 8) r) ∧
        Shares r q := by
  obtain ⟨-, e, he, hstorage⟩ := pmmInit_storage h
  rw [hstorage] at hq
  rw [testBit_pmmInit h (bitmapSize_ne_zero hq)]
  refine or_iff_left ?_
  rintro ⟨hno, -⟩
  exact hno ⟨q, (m.usablePage_of_storage he hq).1, Shares.refl q⟩

/-! ### Later calls of `pmm_alloc` -/

/-- A page that tests used is never returned, while the page indices fit an `int`. -/
theorem pmmAlloc_free {s s' : PmmState} {size addr : BitVec 64}
    (htotal : s.info.totalPages.toNat < 2147483648) (hreq : Request s size)
    (h : pmmAlloc s size = some (addr, s')) (hne : addr ≠ enomemPtr) {q : Nat}
    (hq : q ∈ pagesOf addr size) (hlt : q < 4503599627370496 / pageSize) :
    Free s.map q := by
  rcases pmmAlloc_cases h with ⟨he, -⟩ | ⟨f, hf, rfl, rfl⟩
  · exact absurd he hne
  have hcount : pageCount size < 2147483648 := by
    have := pageCount_le hreq.2
    omega
  have hwords : s.words * bitsPerBlock ≤ 2147483648 := by
    unfold PmmState.words bitsPerBlock; omega
  rw [pageFrame, numPages_eq hcount, toUInt64_natCast (by omega)] at hf
  obtain ⟨hf₀, hf₁⟩ := findFit_range hf
  by_cases hneg : f < 0
  · -- a negative `page_frame`: the range is at the end of the address space
    obtain ⟨h₀, -⟩ := hq
    have haddr : (BitVec.ofInt 64 (f * pageSize)).toNat =
        (f * pageSize + 18446744073709551616).toNat := by
      rw [BitVec.toNat_ofInt]
      unfold pageSize
      omega
    rw [haddr] at h₀
    unfold pageSize at h₀ hlt
    omega
  · obtain ⟨p, rfl⟩ := Int.eq_ofNat_of_zero_le (Int.not_lt.mp hneg)
    have hfit := findFit_free hwords (Int.natCast_nonneg p) (by omega) hf
    rw [← Int.natCast_mul, BitVec.ofInt_natCast] at hq
    obtain ⟨h₀, h₁⟩ := mem_pagesOf (toNat_pageAddr (by omega)) hq
    exact hfit.free_of_mem (by omega) (by omega)

/-- A call of `pmm_alloc` keeps what tests used. -/
theorem AllocStep.keeps {s s' : PmmState} {size : BitVec 64} (h : AllocStep s size s') :
    s'.info.totalPages = s.info.totalPages ∧
      ∀ q, testBit s.map q = true → testBit s'.map q = true := by
  obtain ⟨-, addr, ha⟩ := h
  rcases pmmAlloc_cases ha with ⟨-, rfl⟩ | ⟨f, -, -, rfl⟩
  · exact ⟨rfl, fun q hq => hq⟩
  · exact ⟨takePages_totalPages s _ f, fun q hq => takePages_keeps s _ f hq⟩

/-- **A run of `pmm_alloc` keeps what tests used.** -/
theorem allocRun_keeps {s s' : PmmState} {sizes : List (BitVec 64)}
    (h : Run AllocStep s sizes s') :
    s'.info.totalPages = s.info.totalPages ∧
      ∀ q, testBit s.map q = true → testBit s'.map q = true := by
  induction h with
  | nil s => exact ⟨rfl, fun q hq => hq⟩
  | cons hstep _ ih =>
      obtain ⟨htot, hused⟩ := hstep.keeps
      exact ⟨ih.1.trans htot, fun q hq => ih.2 q (hused q hq)⟩

/-- With the pages of the bitmap marked, no run of `pmm_alloc` returns one. -/
theorem neverReturned_of_protected {m : BootMap} (hp : Protected m)
    (htotal : (printMemoryStats m.entries).totalPages.toNat < 2147483648) : NeverReturned m := by
  intro words s hs sizes s' hrun size addr s'' hreq ha hne p hmem hstorage
  obtain ⟨hinfo, e, he, hpages⟩ := pmmInit_storage hs
  obtain ⟨htot, hused⟩ := allocRun_keeps hrun
  rw [← hinfo, ← htot] at htotal
  have hlt := (m.usablePage_of_storage he (hpages ▸ hstorage)).2
  have hfree : Free s'.map p := pmmAlloc_free htotal hreq ha hne hmem hlt
  rw [Free, hused p (hp words s hs p hstorage)] at hfree
  cases hfree

/-- **When the bitmap is protected**: its pages test used after `pmm_init` exactly when each shares
with a page of the first MiB, or of the range that its first word names.  Then no run of
`pmm_alloc` returns one of them, on a machine whose page indices fit an `int`. -/
theorem bitmap_protected_iff (m : BootMap) :
    (Protected m ↔ StorageReserved m) ∧
    (StorageReserved m → (printMemoryStats m.entries).totalPages.toNat < 2147483648 →
      NeverReturned m) := by
  have hiff : Protected m ↔ StorageReserved m := by
    constructor
    · intro hp e he q hq
      obtain ⟨s, hs⟩ := pmmInit_of_entry (fun _ => 0) he
      have hpages : storagePages s = pagesFrom e.base.toNat (8 * (bitmapSize m.entries).toNat) := by
        obtain ⟨-, e', he', hpages⟩ := pmmInit_storage hs
        obtain rfl : e = e' := Option.some.inj (he.symm.trans he')
        exact hpages
      rw [← hpages] at hq
      exact (m.testBit_storage hs hq).mp (hp _ s hs q hq)
    · intro hr words s hs q hq
      obtain ⟨-, e, he, hpages⟩ := pmmInit_storage hs
      exact (m.testBit_storage hs hq).mpr (hr e he q (hpages ▸ hq))
  exact ⟨hiff, fun hr htotal => neverReturned_of_protected (hiff.mpr hr) htotal⟩

/-! ### A map whose bitmap is protected -/

/-- A bitmap that lies in the first MiB is reserved. -/
theorem storageReserved_of_low (m : BootMap)
    (hlow : ∀ e, bitmapEntry m.entries = some e →
      e.base.toNat + 8 * (bitmapSize m.entries).toNat ≤ 0x100000) : StorageReserved m := by
  intro e he q hq
  have hend := hlow e he
  obtain ⟨x, -, h₁, rfl⟩ := hq
  have hfirst : pageRange 0 0x100000 = (0, 256) := by decide
  refine ⟨x / pageSize, Or.inl ?_, Shares.refl _⟩
  unfold InPages
  rw [hfirst]
  unfold pageSize
  simp only
  omega

/-- One usable entry, in the first MiB. -/
def belowMiB : BootMap where
  entries := [⟨0x1000, 0x9e000, limineMemmapUsable⟩]
  aligned := by decide
  inside := by decide
  apart := List.pairwise_singleton _ _
  room := by decide

/-- In `belowMiB` the bitmap is protected. -/
theorem bitmap_protected_iff_below : Protected belowMiB ∧ NeverReturned belowMiB := by
  have hlow : ∀ e, bitmapEntry belowMiB.entries = some e →
      e.base.toNat + 8 * (bitmapSize belowMiB.entries).toNat ≤ 0x100000 := by
    intro e he
    have hentry : bitmapEntry belowMiB.entries = some ⟨0x1000, 0x9e000, limineMemmapUsable⟩ := by
      decide +kernel
    obtain rfl := Option.some.inj (he.symm.trans hentry)
    decide +kernel
  have hreserved : StorageReserved belowMiB := storageReserved_of_low belowMiB hlow
  exact ⟨(bitmap_protected_iff belowMiB).1.mpr hreserved,
    (bitmap_protected_iff belowMiB).2 hreserved (by decide +kernel)⟩

/-! ### A map whose bitmap is not protected -/

/-- One usable entry of 64 MiB, from 1 MiB on. -/
def aboveMiB : BootMap where
  entries := [⟨0x100000, 0x4000000, limineMemmapUsable⟩]
  aligned := by decide
  inside := by decide
  apart := List.pairwise_singleton _ _
  room := by decide

/-- **The bitmap is not protected**: in `aboveMiB` it lies in page `256`, which is freed; its first
word is all ones, and the range from there on wraps to no page. -/
theorem bitmap_not_protected : ¬ ∀ m, Protected m := by
  intro hall
  have he : bitmapEntry aboveMiB.entries = some ⟨0x100000, 0x4000000, limineMemmapUsable⟩ := by
    decide +kernel
  obtain ⟨s, hs⟩ := pmmInit_of_entry (fun _ => 0) he
  obtain ⟨-, e, he', hpages⟩ := pmmInit_storage hs
  obtain rfl := Option.some.inj (he.symm.trans he')
  have hsize : (bitmapSize aboveMiB.entries).toNat = 256 := by decide +kernel
  have hq : 256 ∈ storagePages s := by
    rw [hpages, hsize]
    exact ⟨0x100000, by decide, by decide, by decide⟩
  obtain ⟨r, hr, hword, -⟩ := (aboveMiB.testBit_storage hs hq).mp (hall aboveMiB _ s hs 256 hq)
  have hlow : pageRange (lowWord aboveMiB.entries) (bitmapSize aboveMiB.entries * 8) =
      (4503599627370495, 0) := by
    decide +kernel
  have hfirst : pageRange 0 0x100000 = (0, 256) := by decide
  unfold InPages at hr
  rw [hlow, hfirst] at hr
  unfold bitsPerBlock at hword
  omega

end FrazzOS.Pmm
