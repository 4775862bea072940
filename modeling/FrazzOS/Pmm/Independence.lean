import FrazzOS.Pmm.Alloc

/-!
# Pmm — bit independence

Setting or clearing the bit of one page or block should leave the test of every other one as it
was (`Independent`), in the primitives of `mm/pmm.c` and in the copies of `klibc/bitmap.c`.

`bit_independence_iff`: it does, but for two indices 32 apart in one word, which share a mask.
-/

namespace FrazzOS.Pmm
open Bitmap

def bitmapSetBit (idx : Nat) (buffer : Words) : Words := setBit buffer idx

def bitmapTestBit (idx : Nat) (buffer : Words) : Bool := testBit buffer idx

/-- What setting bit `i` should do to the test of `j`. -/
def SetsOnly (i j : Nat) (before after : Bool) : Prop := after = true ↔ j = i ∨ before = true

/-- What clearing bit `i` should do to the test of `j`. -/
def ClearsOnly (i j : Nat) (before after : Bool) : Prop := after = true ↔ j ≠ i ∧ before = true

/-- The primitives, applied to `i`, do to `j` what they should. -/
structure Independent (s : PmmState) (buffer : Words) (i j : Nat) : Prop where
  set : SetsOnly i j (pmmBitmapTestBit s j) (pmmBitmapTestBit (pmmBitmapSetBit s i) j)
  clear : ClearsOnly i j (pmmBitmapTestBit s j) (pmmBitmapTestBit (pmmBitmapClearBit s i) j)
  copy : SetsOnly i j (bitmapTestBit j buffer) (bitmapTestBit j (bitmapSetBit i buffer))

/-- Different indices with one mask are 32 apart in one word. -/
theorem shares_iff {i j : Nat} : Shares i j ↔
    j = i ∨ i / bitsPerBlock = j / bitsPerBlock ∧ (i = j + 32 ∨ j = i + 32) := by
  unfold Shares bitsPerBlock
  omega

theorem setsOnly_iff (map : Words) (i j : Nat) :
    SetsOnly i j (testBit map j) (testBit (setBit map i) j) ↔
      (Shares i j → j = i ∨ testBit map j = true) := by
  rw [SetsOnly, testBit_setBit]
  constructor
  · exact fun h hs => h.mp (Or.inl hs)
  · refine fun h => ⟨fun hs => hs.elim h Or.inr, fun hj => ?_⟩
    rcases hj with rfl | hj
    · exact Or.inl (Shares.refl j)
    · exact Or.inr hj

theorem clearsOnly_iff (map : Words) (i j : Nat) :
    ClearsOnly i j (testBit map j) (testBit (clearBit map i) j) ↔
      (Shares i j → j = i ∨ testBit map j = false) := by
  rw [ClearsOnly, testBit_clearBit]
  constructor
  · intro h hs
    by_contra hno
    obtain ⟨hne, hj⟩ := not_or.mp hno
    exact (h.mpr ⟨hne, Bool.of_not_eq_false hj⟩).1 hs
  · refine fun h => ⟨fun hj => ⟨?_, hj.2⟩, fun hj => ⟨fun hs => ?_, hj.2⟩⟩
    · rintro rfl
      exact hj.1 (Shares.refl j)
    · rcases h hs with he | hf
      · exact hj.1 he
      · rw [hj.2] at hf
        cases hf

/-- **Bit independence**: for every bitmap and two indices, setting and clearing the one does to
the other what it should exactly when they are not 32 apart in one 64-bit word. -/
theorem bit_independence_iff (s : PmmState) (buffer : Words) (i j : Nat) :
    Independent s buffer i j ↔
      ¬ (i / bitsPerBlock = j / bitsPerBlock ∧ (i = j + 32 ∨ j = i + 32)) := by
  constructor
  · rintro ⟨hset, hclear, -⟩ hapart
    have hs : Shares i j := shares_iff.mpr (Or.inr hapart)
    have hne : j ≠ i := by omega
    have hused := ((setsOnly_iff s.map i j).mp hset hs).resolve_left hne
    have hfree := ((clearsOnly_iff s.map i j).mp hclear hs).resolve_left hne
    rw [hused] at hfree
    cases hfree
  · intro hapart
    have heq : Shares i j → j = i := fun hs => (shares_iff.mp hs).resolve_right hapart
    exact ⟨(setsOnly_iff s.map i j).mpr fun hs => Or.inl (heq hs),
      (clearsOnly_iff s.map i j).mpr fun hs => Or.inl (heq hs),
      (setsOnly_iff buffer i j).mpr fun hs => Or.inl (heq hs)⟩

/-- In a clear bitmap of one word, setting bit `0` makes bit `32` test used. -/
theorem bit_independence_fails :
    ¬ ∀ (s : PmmState) (buffer : Words) (i j : Nat), Independent s buffer i j := by
  intro hall
  obtain ⟨hset, -, -⟩ := hall freshPmm freshPmm.map 0 32
  have hused := (setsOnly_iff freshPmm.map 0 32).mp hset (by decide)
  revert hused
  decide +kernel

end FrazzOS.Pmm
