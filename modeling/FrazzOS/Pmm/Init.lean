import FrazzOS.Pmm.Alloc

/-!
# Pmm — Init

`pmm_init` of `mm/pmm.c`: the page counts of the boot memory map, the place of the bitmap, and its
first contents.  The bitmap is filled with ones, the pages of every usable entry are cleared, and
two ranges are reserved: `bitmap.size * 8` bytes from `*bitmap.map` on, and the first MiB.

The words of a `PmmState` are those a `uint64_t *` reaches from `bitmap.map`; what they held
before is a parameter.

* `BootMap`: the memory maps that `pmm_init` is given.
* `testBit_pmmInit`: the pages that test used after it.
-/

namespace FrazzOS.Pmm
open Bitmap CInt

/-- `struct limine_memmap_entry`. -/
structure MemmapEntry where
  base : BitVec 64
  length : BitVec 64
  type : BitVec 64
  deriving DecidableEq

/-- `LIMINE_MEMMAP_USABLE`. -/
def limineMemmapUsable : BitVec 64 := 0

abbrev MemmapEntry.Usable (e : MemmapEntry) : Prop := e.type = limineMemmapUsable

/-- The entries that a loop `for (int i = 0; i < num_entries; i++)` visits. -/
def visited (entries : List MemmapEntry) : List MemmapEntry :=
  entries.take (toInt32 entries.length).toNat

def getTotalMemory (entries : List MemmapEntry) (type : Int) : BitVec 64 :=
  if type = 0 then
    (visited entries).foldl (fun res e => if e.Usable then res + e.length else res) 0
  else
    (visited entries).foldl (fun res e => if ¬ e.Usable then res + e.length else res) 0

/-- `pmm_info` as `print_memory_stats` leaves it. -/
def printMemoryStats (entries : List MemmapEntry) : PmmInfo :=
  let totalMemory := getTotalMemory entries 0 + getTotalMemory entries 1
  { totalMemory := totalMemory
    totalPages := totalMemory / BitVec.ofNat 64 pageSize
    totalAvailableMemory := getTotalMemory entries 0
    totalReservedMemory := getTotalMemory entries 1
    usedPages := getTotalMemory entries 1 / BitVec.ofNat 64 pageSize
    availablePages := getTotalMemory entries 0 / BitVec.ofNat 64 pageSize }

/-- The pages that `pmm_free` and `pmm_reserve` run over: the first, and how many. -/
def pageRange (addr len : BitVec 64) : Nat × Nat :=
  let first := addr.toNat / pageSize
  (first, (addr + len).toNat / pageSize + (if len.toNat % pageSize ≠ 0 then 1 else 0) - first)

def pmmFree (s : PmmState) (addr len : BitVec 64) : PmmState :=
  { s with map := clearBits s.map (pageRange addr len).1 (pageRange addr len).2 }

def pmmReserve (s : PmmState) (addr len : BitVec 64) : PmmState :=
  { s with map := setBits s.map (pageRange addr len).1 (pageRange addr len).2 }

/-- `bitmap.size`, in words. -/
def bitmapSize (entries : List MemmapEntry) : BitVec 64 :=
  (printMemoryStats entries).totalMemory / BitVec.ofNat 64 pageSize / BitVec.ofNat 64 bitsPerBlock

/-- The loop that sets `bitmap.map`; `none` while it is the null pointer of before. -/
def mapPointer (entries : List MemmapEntry) (size : BitVec 64) : Option (BitVec 64) :=
  (visited entries).foldl
    (fun map e => if e.Usable then if e.length ≥ size then some (physToHh e.base) else map else map)
    none

/-- `memset(bitmap.map, 0xFF, bitmap.size * 8)`. -/
def fillMap (words : Words) (size : BitVec 64) : Words := fun i =>
  if 0 ≤ i ∧ i < size.toNat then BitVec.allOnes 64 else words i

/-- The loop that frees the usable entries. -/
def freeUsable (s : PmmState) (entries : List MemmapEntry) : PmmState :=
  entries.foldl (fun s e => if e.Usable then pmmFree s e.base e.length else s) s

/-- `pmm_init` up to its free loop, once `bitmap.map` is set. -/
def freedMap (words : Words) (entries : List MemmapEntry) (mapAddr : BitVec 64) : PmmState :=
  freeUsable
    { mapAddr := mapAddr
      map := fillMap words (bitmapSize entries)
      size := bitmapSize entries
      info := printMemoryStats entries }
    (visited entries)

/-- The two reservations of `pmm_init`. -/
def reserveMap (s : PmmState) : PmmState :=
  let s' := pmmReserve s (s.map 0) (s.size * 8)
  pmmReserve s' 0 0x100000

/-- `pmm_init`, where the words from `bitmap.map` on were `words`; `none` when it fills a bitmap at
the null pointer. -/
def pmmInit (words : Words) (entries : List MemmapEntry) : Option PmmState := do
  let mapAddr ← mapPointer entries (bitmapSize entries)
  pure (reserveMap (freedMap words entries mapAddr))

/-! ### The memory maps -/

/-- A boot memory map: its usable entries are page-aligned, do not overlap and lie in the 52-bit
physical address space, and those that are long enough to be chosen for the bitmap have room for
it. -/
structure BootMap where
  entries : List MemmapEntry
  aligned : ∀ e ∈ entries, e.Usable → e.base.toNat % pageSize = 0 ∧ e.length.toNat % pageSize = 0
  inside : ∀ e ∈ entries, e.Usable → e.base.toNat + e.length.toNat ≤ 4503599627370496
  apart : entries.Pairwise fun e e' => e.Usable → e'.Usable →
    e.base.toNat + e.length.toNat ≤ e'.base.toNat ∨ e'.base.toNat + e'.length.toNat ≤ e.base.toNat
  room : ∀ e ∈ entries, e.Usable → bitmapSize entries ≤ e.length →
    8 * (bitmapSize entries).toNat ≤ e.length.toNat

/-- `p` is one of the pages that `pmm_free(addr, len)` or `pmm_reserve(addr, len)` runs over. -/
def InPages (addr len : BitVec 64) (p : Nat) : Prop :=
  (pageRange addr len).1 ≤ p ∧ p < (pageRange addr len).1 + (pageRange addr len).2

instance (addr len : BitVec 64) (p : Nat) : Decidable (InPages addr len p) :=
  inferInstanceAs (Decidable (_ ∧ _))

/-- The entry whose memory the bitmap takes: the last usable one that is long enough. -/
def bitmapEntry (entries : List MemmapEntry) : Option MemmapEntry :=
  ((visited entries).filter fun e => e.Usable ∧ bitmapSize entries ≤ e.length).getLast?

/-- Page `p` is a page of a usable entry. -/
def UsablePage (entries : List MemmapEntry) (p : Nat) : Prop :=
  ∃ e ∈ entries, e.Usable ∧ InPages e.base e.length p

instance (entries : List MemmapEntry) (p : Nat) : Decidable (UsablePage entries p) :=
  inferInstanceAs (Decidable (∃ e ∈ _, _))

/-- A word of ones without the masks of the usable pages among the first 64. -/
def lowWord (entries : List MemmapEntry) : BitVec 64 :=
  (BitVec.iunfoldr (fun (k : Fin 64) (_ : Unit) =>
    ((), decide (¬ ∃ p : Fin 64, p.val % 32 = min k.val 31 ∧ UsablePage (visited entries) p))) ()).2

theorem getLsbD_lowWord (entries : List MemmapEntry) (k : Fin 64) :
    (lowWord entries).getLsbD k = true ↔
      ¬ ∃ p : Fin 64, p.val % 32 = min k.val 31 ∧ UsablePage (visited entries) p := by
  rw [lowWord, BitVec.iunfoldr_getLsbD (fun _ => ()) k (fun _ => rfl), decide_eq_true_iff]

/-- The pages that the `len` bytes from `addr` on meet. -/
def pagesFrom (addr len : Nat) : Set Nat :=
  {q | ∃ x, addr ≤ x ∧ x < addr + len ∧ x / pageSize = q}

/-- The pages of the bitmap itself. -/
def storagePages (s : PmmState) : Set Nat :=
  pagesFrom (hhToPhys s.mapAddr).toNat (8 * s.size.toNat)

/-! ### The state after `pmm_init` -/

theorem pmmReserve_mapAddr (s : PmmState) (addr len : BitVec 64) :
    (pmmReserve s addr len).mapAddr = s.mapAddr := rfl

theorem pmmReserve_size (s : PmmState) (addr len : BitVec 64) :
    (pmmReserve s addr len).size = s.size := rfl

theorem pmmReserve_info (s : PmmState) (addr len : BitVec 64) :
    (pmmReserve s addr len).info = s.info := rfl

/-- A page tests used after a reservation if it did before or shares with a reserved page. -/
theorem testBit_pmmReserve (s : PmmState) (addr len : BitVec 64) (q : Nat) :
    testBit (pmmReserve s addr len).map q = true ↔
      (∃ r, InPages addr len r ∧ Shares r q) ∨ testBit s.map q = true := by
  simp only [pmmReserve, testBit_setBits, InPages, and_assoc]

theorem mapPointer_eq (entries : List MemmapEntry) :
    mapPointer entries (bitmapSize entries) =
      (bitmapEntry entries).map fun e => physToHh e.base := by
  have hfold : ∀ (l : List MemmapEntry) (map : Option (BitVec 64)),
      l.foldl (fun map e => if e.Usable then
          if e.length ≥ bitmapSize entries then some (physToHh e.base) else map else map) map =
        (((l.filter fun e => e.Usable ∧ bitmapSize entries ≤ e.length).getLast?).map
          fun e => physToHh e.base).or map := by
    intro l
    induction l with
    | nil => intro map; rfl
    | cons e l ih =>
        intro map
        rw [List.foldl_cons, ih, List.filter_cons]
        by_cases hu : e.Usable
        · by_cases hl : bitmapSize entries ≤ e.length
          · rw [if_pos hu, if_pos hl, if_pos (decide_eq_true ⟨hu, hl⟩), List.getLast?_cons]
            cases (l.filter _).getLast? <;> rfl
          · rw [if_pos hu, if_neg hl, if_neg (by simp [hl])]
        · rw [if_neg hu, if_neg (by simp [hu])]
  rw [mapPointer, hfold, Option.or_none, bitmapEntry]

theorem freeUsable_fields (entries : List MemmapEntry) : ∀ s : PmmState,
    (freeUsable s entries).mapAddr = s.mapAddr ∧ (freeUsable s entries).size = s.size ∧
      (freeUsable s entries).info = s.info := by
  induction entries with
  | nil => intro s; exact ⟨rfl, rfl, rfl⟩
  | cons e entries ih =>
      intro s
      rw [freeUsable, List.foldl_cons]
      by_cases hu : e.Usable
      · rw [if_pos hu]; exact ih _
      · rw [if_neg hu]; exact ih s

/-- **The free loop**: a property of the bitmap that clearing a range keeps unless a page of the
range has `P`, it keeps unless a page of a usable entry has `P`. -/
theorem freeUsable_keeps {T : Words → Prop} {P : Nat → Prop}
    (hT : ∀ map start count, T (clearBits map start count) ↔
      (¬ ∃ p, start ≤ p ∧ p < start + count ∧ P p) ∧ T map)
    (entries : List MemmapEntry) : ∀ s : PmmState,
    T (freeUsable s entries).map ↔ (¬ ∃ p, UsablePage entries p ∧ P p) ∧ T s.map := by
  induction entries with
  | nil => intro s; simp [freeUsable, UsablePage]
  | cons e entries ih =>
      intro s
      have hcons : freeUsable s (e :: entries) =
          freeUsable (if e.Usable then pmmFree s e.base e.length else s) entries := rfl
      have hpage : ∀ p, UsablePage (e :: entries) p ↔
          (e.Usable ∧ InPages e.base e.length p) ∨ UsablePage entries p := by
        intro p
        simp only [UsablePage, List.mem_cons, exists_eq_or_imp]
      rw [hcons, ih]
      by_cases hu : e.Usable
      · rw [if_pos hu, pmmFree, hT, ← and_assoc, ← not_or, ← exists_or]
        simp only [hpage, and_iff_right hu, InPages, or_and_right, and_assoc, or_comm]
      · rw [if_neg hu]
        simp only [hpage, hu, false_and, false_or]

/-- A page tests used after the free loop if it did before and shares with no usable page. -/
theorem testBit_freeUsable (s : PmmState) (entries : List MemmapEntry) (q : Nat) :
    testBit (freeUsable s entries).map q = true ↔
      (¬ ∃ p, UsablePage entries p ∧ Shares p q) ∧ testBit s.map q = true :=
  freeUsable_keeps (T := fun map => testBit map q = true) (P := fun p => Shares p q)
    (fun map start count => testBit_clearBits count map start q) entries s

/-- What `*bitmap.map` holds once the usable entries are freed. -/
theorem freeUsable_lowWord {entries : List MemmapEntry} {s : PmmState}
    (hs : s.map 0 = BitVec.allOnes 64) :
    (freeUsable s (visited entries)).map 0 = lowWord entries := by
  apply BitVec.eq_of_getLsbD_eq
  intro i hi
  have hfree := freeUsable_keeps (T := fun map => (map 0).getLsbD i = true)
    (P := fun p => p < 64 ∧ p % 32 = min i 31)
    (fun map start count => getLsbD_clearBits ⟨i, hi⟩ count map start) (visited entries) s
  rw [Bool.eq_iff_iff, hfree, hs, getLsbD_lowWord entries ⟨i, hi⟩, BitVec.getLsbD_allOnes,
    decide_eq_true_iff]
  constructor
  · rintro ⟨hno, -⟩ ⟨p, hmod, hp⟩
    exact hno ⟨p, hp, p.isLt, hmod⟩
  · intro hno
    refine ⟨?_, hi⟩
    rintro ⟨p, hp, hlt, hmod⟩
    exact hno ⟨⟨p, hlt⟩, hmod, hp⟩

/-- What `pmm_init` returns, by the entry its bitmap lies in. -/
theorem pmmInit_eq (words : Words) (entries : List MemmapEntry) :
    pmmInit words entries = (bitmapEntry entries).map fun e =>
      reserveMap (freedMap words entries (physToHh e.base)) := by
  rw [pmmInit, mapPointer_eq]
  cases bitmapEntry entries <;> rfl

theorem pmmInit_of_entry (words : Words) {entries : List MemmapEntry} {e : MemmapEntry}
    (h : bitmapEntry entries = some e) : ∃ s, pmmInit words entries = some s := by
  rw [pmmInit_eq, h]
  exact ⟨_, rfl⟩

theorem freedMap_fields (words : Words) (entries : List MemmapEntry) (mapAddr : BitVec 64) :
    (freedMap words entries mapAddr).mapAddr = mapAddr ∧
      (freedMap words entries mapAddr).size = bitmapSize entries ∧
      (freedMap words entries mapAddr).info = printMemoryStats entries :=
  freeUsable_fields (visited entries) _

theorem fillMap_zero (words : Words) {size : BitVec 64} (h : size ≠ 0) :
    fillMap words size 0 = BitVec.allOnes 64 := by
  have hpos : 0 < size.toNat := Nat.pos_of_ne_zero fun hz => h (BitVec.eq_of_toNat_eq hz)
  exact if_pos ⟨Int.le_refl 0, Int.natCast_pos.mpr hpos⟩

/-- What the reservation of the bitmap finds at `*bitmap.map`. -/
theorem freedMap_lowWord (words : Words) {entries : List MemmapEntry} (mapAddr : BitVec 64)
    (hsize : bitmapSize entries ≠ 0) :
    (freedMap words entries mapAddr).map 0 = lowWord entries := by
  rw [freedMap, freeUsable_lowWord]
  exact fillMap_zero words hsize

/-- The pages of the bitmap lie in the entry chosen for it. -/
theorem pmmInit_storage {words : Words} {entries : List MemmapEntry} {s : PmmState}
    (h : pmmInit words entries = some s) :
    s.info = printMemoryStats entries ∧ ∃ e, bitmapEntry entries = some e ∧
      storagePages s = pagesFrom e.base.toNat (8 * (bitmapSize entries).toNat) := by
  rw [pmmInit_eq] at h
  obtain ⟨e, he, hs⟩ := Option.map_eq_some_iff.mp h
  obtain ⟨haddr, hsize, hinfo⟩ := freedMap_fields words entries (physToHh e.base)
  rw [← hs, reserveMap]
  refine ⟨by rw [pmmReserve_info, pmmReserve_info, hinfo], e, he, ?_⟩
  rw [storagePages, pmmReserve_mapAddr, pmmReserve_mapAddr, pmmReserve_size, pmmReserve_size,
    haddr, hsize, hhToPhys_physToHh]

/-- **The pages that test used after `pmm_init`**: those that share with a reserved page, and those
that tested used before and share with no usable page. -/
theorem testBit_pmmInit {words : Words} {entries : List MemmapEntry} {s : PmmState}
    (h : pmmInit words entries = some s) (hsize : bitmapSize entries ≠ 0) (q : Nat) :
    testBit s.map q = true ↔
      (∃ r, (InPages 0 0x100000 r ∨ InPages (lowWord entries) (bitmapSize entries * 8) r) ∧
        Shares r q) ∨
      (¬ ∃ p, UsablePage (visited entries) p ∧ Shares p q) ∧
        testBit (fillMap words (bitmapSize entries)) q = true := by
  rw [pmmInit_eq] at h
  obtain ⟨e, -, rfl⟩ := Option.map_eq_some_iff.mp h
  have hlow := freedMap_lowWord words (physToHh e.base) hsize
  have hbits : testBit (freedMap words entries (physToHh e.base)).map q = true ↔
      (¬ ∃ p, UsablePage (visited entries) p ∧ Shares p q) ∧
        testBit (fillMap words (bitmapSize entries)) q = true := by
    rw [freedMap, testBit_freeUsable]
  obtain ⟨-, hsz, -⟩ := freedMap_fields words entries (physToHh e.base)
  rw [reserveMap, hlow, hsz, testBit_pmmReserve, testBit_pmmReserve, hbits, ← or_assoc,
    ← exists_or]
  simp only [or_and_right]

end FrazzOS.Pmm
