import FrazzOS.Pmm.Storage

/-!
# Pmm — Writes

The words of the bitmap that `pmm_init` writes, by their index, in its order: `memset`, the free
loop, and the two reservations (`pmmInitWrites`).  The bitmap has a bit for as many pages as there
is memory in the map, but is indexed by page numbers.

* `pmmInit_frame`: no other word changes.
* `init_writes_iff`: the words lie in the bitmap exactly when the page numbers do (`BitmapCovers`).
-/

namespace FrazzOS.Pmm
open Bitmap

/-- A boot memory map whose usable entries are page-aligned, do not overlap, and end below `2⁶⁴`. -/
structure MemoryMap where
  entries : List MemmapEntry
  aligned : ∀ e ∈ entries, e.Usable → e.base.toNat % pageSize = 0 ∧ e.length.toNat % pageSize = 0
  inside : ∀ e ∈ entries, e.Usable → e.base.toNat + e.length.toNat < 18446744073709551616
  apart : entries.Pairwise fun e e' => e.Usable → e'.Usable →
    e.base.toNat + e.length.toNat ≤ e'.base.toNat ∨ e'.base.toNat + e'.length.toNat ≤ e.base.toNat

/-- The words that a loop over a range of pages writes. -/
def rangeWrites (range : Nat × Nat) : List Nat :=
  (List.range' range.1 range.2).map (· / bitsPerBlock)

/-- The words that `memset` writes. -/
def fillWrites (size : BitVec 64) : List Nat := List.range size.toNat

/-- The words that the free loop writes. -/
def freeWrites (entries : List MemmapEntry) : List Nat :=
  entries.flatMap fun e => if e.Usable then rangeWrites (pageRange e.base e.length) else []

/-- The words that the reservations write. -/
def reserveWrites (s : PmmState) : List Nat :=
  rangeWrites (pageRange (s.map 0) (s.size * 8)) ++ rangeWrites (pageRange 0 0x100000)

/-- The words that `pmm_init` writes, with its bitmap at `mapAddr`. -/
def pmmInitWrites (words : Words) (entries : List MemmapEntry) (mapAddr : BitVec 64) : List Nat :=
  fillWrites (bitmapSize entries) ++ freeWrites (visited entries) ++
    reserveWrites (freedMap words entries mapAddr)

/-- Every word that `pmm_init` writes is a word of the bitmap. -/
def WritesInside (entries : List MemmapEntry) : Prop :=
  ∀ words mapAddr, ∀ k ∈ pmmInitWrites words entries mapAddr, k < (bitmapSize entries).toNat

/-- The pages that the bitmap has a bit for. -/
def bitmapPages (entries : List MemmapEntry) : Nat := (bitmapSize entries).toNat * bitsPerBlock

/-- The pages of the usable entries, of the first MiB and of the range that the first word of the
bitmap names have a bit. -/
structure BitmapCovers (entries : List MemmapEntry) : Prop where
  usable : ∀ e ∈ visited entries, e.Usable → e.length ≠ 0 →
    e.base.toNat + e.length.toNat ≤ bitmapPages entries * pageSize
  first : 0x100000 ≤ bitmapPages entries * pageSize
  named : ∀ p, InPages (lowWord entries) (bitmapSize entries * 8) p → p < bitmapPages entries

/-! ### The words that change -/

theorem mem_rangeWrites {range : Nat × Nat} {k : Nat} : k ∈ rangeWrites range ↔
    ∃ p, range.1 ≤ p ∧ p < range.1 + range.2 ∧ p / bitsPerBlock = k := by
  simp only [rangeWrites, List.mem_map, List.mem_range'_1, and_assoc]

/-- A loop over a range of pages leaves the words of other pages, if its rounds do. -/
theorem range_frame {round : Words → Nat → Words} {loop : Words → Nat → Nat → Words}
    (hzero : ∀ map start, loop map start 0 = map)
    (hsucc : ∀ map start count,
      loop map start (count + 1) = loop (round map start) (start + 1) count)
    (hround : ∀ map idx i, i ≠ ((idx / bitsPerBlock : Nat) : Int) → round map idx i = map i)
    (count : Nat) : ∀ (map : Words) (start : Nat) {i : Int},
    (∀ k ∈ rangeWrites (start, count), (k : Int) ≠ i) → loop map start count i = map i := by
  induction count with
  | zero => exact fun map start i _ => by rw [hzero]
  | succ count ih =>
      intro map start i hi
      have hfirst : i ≠ ((start / bitsPerBlock : Nat) : Int) :=
        (hi _ (mem_rangeWrites.mpr ⟨start, Nat.le_refl _, by simp only; omega, rfl⟩)).symm
      rw [hsucc, ih _ _ fun k hk => hi k ?_, hround _ _ _ hfirst]
      obtain ⟨p, h₀, h₁, he⟩ := mem_rangeWrites.mp hk
      simp only at h₀ h₁
      exact mem_rangeWrites.mpr ⟨p, by simp only; omega, by simp only; omega, he⟩

theorem pmmReserve_frame (s : PmmState) (addr len : BitVec 64) {i : Int}
    (hi : ∀ k ∈ rangeWrites (pageRange addr len), (k : Int) ≠ i) :
    (pmmReserve s addr len).map i = s.map i :=
  range_frame (fun _ _ => rfl) (fun _ _ _ => rfl) (fun _ _ _ h => Function.update_of_ne h _ _)
    _ _ _ hi

theorem pmmFree_frame (s : PmmState) (addr len : BitVec 64) {i : Int}
    (hi : ∀ k ∈ rangeWrites (pageRange addr len), (k : Int) ≠ i) :
    (pmmFree s addr len).map i = s.map i :=
  range_frame (fun _ _ => rfl) (fun _ _ _ => rfl) (fun _ _ _ h => Function.update_of_ne h _ _)
    _ _ _ hi

theorem freeUsable_frame (entries : List MemmapEntry) : ∀ (s : PmmState) {i : Int},
    (∀ k ∈ freeWrites entries, (k : Int) ≠ i) → (freeUsable s entries).map i = s.map i := by
  induction entries with
  | nil => exact fun _ _ _ => rfl
  | cons e entries ih =>
      intro s i hi
      have hrest : ∀ k ∈ freeWrites entries, (k : Int) ≠ i := fun k hk =>
        hi k (List.mem_flatMap.mpr
          (by obtain ⟨e', he', hk'⟩ := List.mem_flatMap.mp hk
              exact ⟨e', List.mem_cons_of_mem e he', hk'⟩))
      rw [freeUsable, List.foldl_cons, ← freeUsable, ih _ hrest]
      split
      · rename_i hu
        refine pmmFree_frame _ _ _ fun k hk => hi k ?_
        refine List.mem_flatMap.mpr ⟨e, List.mem_cons_self, ?_⟩
        rw [if_pos hu]
        exact hk
      · rfl

/-- **`pmm_init` changes the words on its list only.** -/
theorem pmmInit_frame {words : Words} {entries : List MemmapEntry} {s : PmmState}
    (h : pmmInit words entries = some s) {i : Int}
    (hi : ∀ k ∈ pmmInitWrites words entries s.mapAddr, (k : Int) ≠ i) : s.map i = words i := by
  rw [pmmInit_eq] at h
  obtain ⟨e, -, rfl⟩ := Option.map_eq_some_iff.mp h
  have haddr := (freedMap_fields words entries (physToHh e.base)).1
  rw [reserveMap, pmmReserve_mapAddr, pmmReserve_mapAddr, haddr] at hi
  simp only [pmmInitWrites, reserveWrites, List.mem_append] at hi
  rw [reserveMap, pmmReserve_frame _ _ _ fun k hk => hi k (Or.inr (Or.inr hk)),
    pmmReserve_frame _ _ _ fun k hk => hi k (Or.inr (Or.inl hk)), freedMap,
    freeUsable_frame _ _ fun k hk => hi k (Or.inl (Or.inr hk))]
  refine if_neg ?_
  rintro ⟨h₀, h₁⟩
  obtain ⟨k, rfl⟩ := Int.eq_ofNat_of_zero_le h₀
  exact hi k (Or.inl (Or.inl (List.mem_range.mpr (by omega)))) rfl

/-! ### The words of the bitmap -/

theorem rangeWrites_inside {range : Nat × Nat} {size : Nat} :
    (∀ k ∈ rangeWrites range, k < size) ↔
      ∀ p, range.1 ≤ p → p < range.1 + range.2 → p < size * bitsPerBlock := by
  have hword : ∀ p, p / bitsPerBlock < size ↔ p < size * bitsPerBlock := fun p =>
    Nat.div_lt_iff_lt_mul (by decide)
  constructor
  · intro h p h₀ h₁
    exact (hword p).mp (h _ (mem_rangeWrites.mpr ⟨p, h₀, h₁, rfl⟩))
  · intro h k hk
    obtain ⟨p, h₀, h₁, rfl⟩ := mem_rangeWrites.mp hk
    exact (hword p).mpr (h p h₀ h₁)

/-- The pages of a usable entry have a bit when it ends where the bitmap does or before. -/
theorem MemoryMap.usable_inside (m : MemoryMap) {e : MemmapEntry} (he : e ∈ m.entries)
    (hu : e.Usable) {pages : Nat} :
    (∀ p, InPages e.base e.length p → p < pages) ↔
      (e.length ≠ 0 → e.base.toNat + e.length.toNat ≤ pages * pageSize) := by
  obtain ⟨hb, hl⟩ := m.aligned e he hu
  have hin := m.inside e he hu
  have hend : (e.base + e.length).toNat = e.base.toNat + e.length.toNat := by
    rw [BitVec.toNat_add, Nat.mod_eq_of_lt hin]
  have hzero : e.length ≠ 0 ↔ 0 < e.length.toNat :=
    ⟨fun h => Nat.pos_of_ne_zero fun hz => h (BitVec.eq_of_toNat_eq hz), fun h hz => by
      rw [hz] at h
      exact absurd h (by decide)⟩
  have hrange : pageRange e.base e.length =
      (e.base.toNat / pageSize,
        (e.base.toNat + e.length.toNat) / pageSize - e.base.toNat / pageSize) := by
    simp only [pageRange, hend, hl, ne_eq, not_true_eq_false, if_false, Nat.add_zero]
  rw [hzero]
  unfold InPages
  rw [hrange]
  unfold pageSize at *
  simp only
  constructor
  · intro h hpos
    have := h ((e.base.toNat + e.length.toNat) / 4096 - 1)
    omega
  · intro h p hp
    have := h (by omega)
    omega

theorem pageRange_first : pageRange 0 0x100000 = (0, 256) := by decide

/-- With a word in the bitmap, what the reservations write. -/
theorem reserveWrites_eq (words : Words) {entries : List MemmapEntry} (mapAddr : BitVec 64)
    (hsize : bitmapSize entries ≠ 0) :
    reserveWrites (freedMap words entries mapAddr) =
      rangeWrites (pageRange (lowWord entries) (bitmapSize entries * 8)) ++
        rangeWrites (0, 256) := by
  rw [reserveWrites, freedMap_lowWord words mapAddr hsize,
    (freedMap_fields words entries mapAddr).2.1, pageRange_first]

theorem bitmapSize_ne_zero_of_page {entries : List MemmapEntry} {p : Nat}
    (h : p < bitmapPages entries) : bitmapSize entries ≠ 0 := by
  intro hz
  rw [bitmapPages, hz] at h
  exact absurd h (Nat.not_lt_zero p)

theorem visited_mem {entries : List MemmapEntry} {e : MemmapEntry} (h : e ∈ visited entries) :
    e ∈ entries := List.mem_of_mem_take h

theorem MemoryMap.covers_of_inside (m : MemoryMap) (h : WritesInside m.entries) :
    BitmapCovers m.entries := by
  have hmem : ∀ k ∈ pmmInitWrites (fun _ => 0) m.entries 0, k < (bitmapSize m.entries).toNat :=
    h (fun _ => 0) 0
  simp only [pmmInitWrites, List.mem_append] at hmem
  have hlow := rangeWrites_inside.mp fun k hk =>
    hmem k (Or.inr (List.mem_append_right _ (pageRange_first.symm ▸ hk)))
  have hlast : 255 < bitmapPages m.entries := hlow 255 (Nat.zero_le _) (by decide)
  rw [reserveWrites_eq _ _ (bitmapSize_ne_zero_of_page hlast)] at hmem
  refine ⟨fun e he hu => (m.usable_inside (visited_mem he) hu).mp fun p hp => ?_, ?_, ?_⟩
  · refine rangeWrites_inside.mp (fun k hk => hmem k (Or.inl (Or.inr ?_))) p hp.1 hp.2
    refine List.mem_flatMap.mpr ⟨e, he, ?_⟩
    rw [if_pos hu]
    exact hk
  · unfold pageSize
    omega
  · intro p hp
    exact rangeWrites_inside.mp (fun k hk => hmem k (Or.inr (List.mem_append_left _ hk))) p
      hp.1 hp.2

theorem MemoryMap.inside_of_covers (m : MemoryMap) (h : BitmapCovers m.entries) :
    WritesInside m.entries := by
  obtain ⟨husable, hlow, hnamed⟩ := h
  intro words mapAddr k hk
  have hlast : 255 < bitmapPages m.entries := by
    unfold pageSize at hlow
    omega
  rw [pmmInitWrites, reserveWrites_eq _ _ (bitmapSize_ne_zero_of_page hlast)] at hk
  simp only [List.mem_append] at hk
  rcases hk with (hk | hk) | hk | hk
  · exact List.mem_range.mp hk
  · obtain ⟨e, he, hk⟩ := List.mem_flatMap.mp hk
    by_cases hu : e.Usable
    · rw [if_pos hu] at hk
      have hpages := (m.usable_inside (visited_mem he) hu).mpr (husable e he hu)
      exact rangeWrites_inside.mpr (fun p h₀ h₁ => hpages p ⟨h₀, h₁⟩) k hk
    · rw [if_neg hu] at hk
      cases hk
  · exact rangeWrites_inside.mpr (fun p h₀ h₁ => hnamed p ⟨h₀, h₁⟩) k hk
  · refine rangeWrites_inside.mpr (fun p _ h₁ => ?_) k hk
    rw [bitmapPages] at hlast
    simp only at h₁
    omega

/-- **`pmm_init` writes words of the bitmap only** exactly when the bitmap has a bit for the pages of
the usable entries, for those of the first MiB, and for those of the range that its own first word
names. -/
theorem init_writes_iff (m : MemoryMap) : WritesInside m.entries ↔ BitmapCovers m.entries :=
  ⟨m.covers_of_inside, m.inside_of_covers⟩

/-- **The bitmap is too short** for one usable entry of 64 MiB from 1 MiB on: it has a bit for 16384
pages, and the entry ends at page `16640`. -/
theorem init_writes_outside : ¬ ∀ m : MemoryMap, WritesInside m.entries := by
  intro hall
  let m : MemoryMap := {
    entries := aboveMiB.entries
    aligned := aboveMiB.aligned
    inside := by decide
    apart := aboveMiB.apart }
  have hc := m.covers_of_inside (hall m)
  have hend := hc.usable ⟨0x100000, 0x4000000, limineMemmapUsable⟩ (by decide) rfl (by decide)
  have hsize : (bitmapSize aboveMiB.entries).toNat = 256 := by decide +kernel
  rw [bitmapPages, show m.entries = aboveMiB.entries from rfl, hsize] at hend
  exact absurd hend (by decide)

end FrazzOS.Pmm
