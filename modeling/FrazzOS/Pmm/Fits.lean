import FrazzOS.Pmm.Storage
import Mathlib.Data.List.Pairwise

/-!
# Pmm — the room for the bitmap

`pmm_init` puts the bitmap at the base of the last usable entry of at least `bitmap.size` bytes, and
fills `8 * bitmap.size` bytes there: the size is a number of words.

* `fits_of_room`, `room_of_fits`: the bitmap lies inside a usable entry where that entry has eight
  times the bytes asked of it, and for entries that do not overlap only there.
* `lastSmall_not_fits`: a memory map with room for the bitmap, and a small entry at its end.
-/

namespace FrazzOS.Pmm
open Bitmap CInt

/-- The bytes that `pmm_init` fills lie inside one usable entry. -/
def BitmapFits (entries : List MemmapEntry) : Prop :=
  ∀ words, ∃ s, pmmInit words entries = some s ∧ ∃ e ∈ entries, e.Usable ∧
    e.base.toNat ≤ (hhToPhys s.mapAddr).toNat ∧
    (hhToPhys s.mapAddr).toNat + 8 * s.size.toNat ≤ e.base.toNat + e.length.toNat

/-- The last usable entry of at least `bitmap.size` bytes has room for the bitmap. -/
def RoomAtLast (entries : List MemmapEntry) : Prop :=
  ∃ e, bitmapEntry entries = some e ∧ 8 * (bitmapSize entries).toNat ≤ e.length.toNat

/-- Two entries that do not overlap, if they are usable. -/
def MemmapEntry.Apart (e e' : MemmapEntry) : Prop := e.Usable → e'.Usable →
  e.base.toNat + e.length.toNat ≤ e'.base.toNat ∨ e'.base.toNat + e'.length.toNat ≤ e.base.toNat

instance : Std.Symm MemmapEntry.Apart := ⟨fun _ _ h hu hu' => (h hu' hu).symm⟩

instance : DecidableRel MemmapEntry.Apart :=
  fun e e' => inferInstanceAs (Decidable (e.Usable → e'.Usable → _))

/-- The usable entries do not overlap. -/
def UsableApart (entries : List MemmapEntry) : Prop := entries.Pairwise MemmapEntry.Apart

instance (entries : List MemmapEntry) : Decidable (UsableApart entries) :=
  inferInstanceAs (Decidable (List.Pairwise _ _))

variable {entries : List MemmapEntry} {e e' : MemmapEntry} {words : Words} {s : PmmState}

/-- Where the bitmap is put. -/
theorem pmmInit_place (h : pmmInit words entries = some s) : ∃ e, bitmapEntry entries = some e ∧
    (hhToPhys s.mapAddr).toNat = e.base.toNat ∧ s.size = bitmapSize entries := by
  rw [pmmInit_eq] at h
  obtain ⟨e, he, rfl⟩ := Option.map_eq_some_iff.mp h
  obtain ⟨haddr, hsize, -⟩ := freedMap_fields words entries (physToHh e.base)
  refine ⟨e, he, ?_, ?_⟩
  · rw [reserveMap, pmmReserve_mapAddr, pmmReserve_mapAddr, haddr, hhToPhys_physToHh]
  · rw [reserveMap, pmmReserve_size, pmmReserve_size, hsize]

/-- Usable entries that do not overlap, of which one has the first byte of the other, are the
same. -/
theorem UsableApart.eq (h : UsableApart entries) (he : e ∈ entries) (he' : e' ∈ entries)
    (hu : e.Usable) (hu' : e'.Usable) (hpos : 0 < e.length.toNat)
    (hle : e'.base.toNat ≤ e.base.toNat)
    (hlt : e.base.toNat < e'.base.toNat + e'.length.toNat) : e' = e := by
  by_contra hne
  have := h.forall he' he hne hu' hu
  omega

/-- **Where the bitmap fits**: the entry chosen for it has the room. -/
theorem fits_of_room (h : RoomAtLast entries) : BitmapFits entries := by
  obtain ⟨e, he, hroom⟩ := h
  intro words
  obtain ⟨s, hs⟩ := pmmInit_of_entry words he
  obtain ⟨e', he', hbase, hsize⟩ := pmmInit_place hs
  obtain rfl : e = e' := Option.some.inj (he.symm.trans he')
  obtain ⟨hv, hu, -⟩ := bitmapEntry_mem he
  refine ⟨s, hs, e, List.mem_of_mem_take hv, hu, by omega, ?_⟩
  rw [hbase, hsize]
  omega

/-- Entries that do not overlap leave no other room. -/
theorem room_of_fits (hapart : UsableApart entries) (h : BitmapFits entries) :
    RoomAtLast entries := by
  obtain ⟨s, hs, e', hmem', hu', hle, hend⟩ := h fun _ => 0
  obtain ⟨e, he, hbase, hsize⟩ := pmmInit_place hs
  obtain ⟨hv, hu, hlen⟩ := bitmapEntry_mem he
  rw [hbase] at hle hend
  rw [hsize] at hend
  rw [BitVec.le_def] at hlen
  refine ⟨e, he, ?_⟩
  rcases Nat.eq_zero_or_pos (bitmapSize entries).toNat with hzero | hpos
  · omega
  · obtain rfl := hapart.eq (List.mem_of_mem_take hv) hmem' hu hu' (by omega) hle (by omega)
    omega

/-- **When the bitmap fits where it is put**: for every memory map it does where the last usable
entry of at least `bitmap.size` bytes has eight times as many, and for usable entries that do not
overlap only there. -/
theorem fits_iff_room (entries : List MemmapEntry) :
    (RoomAtLast entries → BitmapFits entries) ∧
      (UsableApart entries → (BitmapFits entries ↔ RoomAtLast entries)) :=
  ⟨fits_of_room, fun hapart => ⟨room_of_fits hapart, fits_of_room⟩⟩

/-- 256 MiB, and a page at the end. -/
def lastSmall : List MemmapEntry := [⟨0x100000, 0x10000000, 0⟩, ⟨0x20000000, 0x1000, 0⟩]

/-- The first entry has room for the 8 KiB of the bitmap, which is put in the page. -/
theorem lastSmall_not_fits :
    (∃ e ∈ lastSmall, e.Usable ∧ 8 * (bitmapSize lastSmall).toNat ≤ e.length.toNat) ∧
      ¬ BitmapFits lastSmall := by
  have hsize : (bitmapSize lastSmall).toNat = 1024 := by decide
  have hentry : bitmapEntry lastSmall = some ⟨0x20000000, 0x1000, 0⟩ := by decide
  have hapart : UsableApart lastSmall := by decide
  refine ⟨⟨_, List.mem_cons_self, rfl, by rw [hsize]; decide⟩, fun h => ?_⟩
  obtain ⟨e, he, hroom⟩ := room_of_fits hapart h
  obtain rfl := Option.some.inj (hentry.symm.trans he)
  rw [hsize] at hroom
  exact absurd hroom (by decide)

end FrazzOS.Pmm
