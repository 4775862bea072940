import FrazzOS.Devices.Ioapic

/-!
# Devices — the redirection entry

A redirection entry has 64 bits and two registers, and `read_redtbl_entry` puts the two together.
The upper one is shifted in 32 bits and one bit too little, so its bit 0 falls on bit 31 of the
lower one and the rest of it is lost.  `mask_gsi`, `unmask_gsi` and `map_redtbl_entry` write back
what was read so.

`rmwExact_iff`: the four are exact for an entry exactly when its upper register is zero.
`maskExact_iff`, `unmaskExact_iff` and `mapExact_iff` say for each of the three writers which bits
of the upper register do the damage.
-/

namespace FrazzOS.Devices

/-- The lower register of an entry. -/
def Ioapic.lower (s : Ioapic) (e : Nat) : BitVec 32 := s.regs (0x10 + 2 * e)

/-- The upper register of an entry. -/
def Ioapic.upper (s : Ioapic) (e : Nat) : BitVec 32 := s.regs (0x10 + 2 * e + 1)

/-- From `s` to `s'` bit 16 of the lower register of `e` becomes `b`, and no other bit of a
register changes. -/
def OnlyMask (e : Nat) (b : Bool) (s s' : Ioapic) : Prop :=
  s'.lvtTimer = s.lvtTimer ∧ ∀ reg i, i < 32 →
    (s'.regs reg).getLsbD i = if reg = 0x10 + 2 * e ∧ i = 16 then b else (s.regs reg).getLsbD i

/-- A bit of the vector, of the mask or of the destination of entry `e`. -/
def MapField (e reg i : Nat) : Prop :=
  (reg = 0x10 + 2 * e ∧ (i < 8 ∨ i = 16)) ∨ (reg = 0x10 + 2 * e + 1 ∧ 24 ≤ i)

/-- From `s` to `s'` only the vector, the mask and the destination of `e` change. -/
def OnlyMapFields (e : Nat) (s s' : Ioapic) : Prop :=
  s'.lvtTimer = s.lvtTimer ∧ ∀ reg i, i < 32 → ¬ MapField e reg i →
    (s'.regs reg).getLsbD i = (s.regs reg).getLsbD i

/-- `read_redtbl_entry` returns both registers, `mask_gsi` and `unmask_gsi` change the mask bit, and
`map_redtbl_entry` changes its three fields, and nothing else. -/
structure RmwExact (s : Ioapic) (e : Nat) : Prop where
  read : readRedtblEntry s e = (s.upper e).setWidth 64 <<< 32 ||| (s.lower e).setWidth 64
  mask : OnlyMask e true s (maskGsi s e).2
  unmask : OnlyMask e false s (unmaskGsi s e).2
  map : ∀ v, OnlyMapFields e s (mapRedtblEntry s e v)

variable {s : Ioapic} {e : Nat}

/-- What `read_redtbl_entry` returns, bit by bit. -/
theorem readRedtblEntry_getLsbD (s : Ioapic) (h : e ≤ lastEntry) (i : Nat) :
    (readRedtblEntry s e).getLsbD i =
      ((s.lower e).getLsbD i || (decide (i = 31) && (s.upper e).getLsbD 0)) := by
  simp only [readRedtblEntry, readIoapicReg, calcRedtblOffset_eq h, Ioapic.lower, Ioapic.upper]
  rcases Nat.lt_trichotomy i 31 with hi | rfl | hi
  · simp [hi, Nat.ne_of_lt hi]
    omega
  · simp
  · have hne : i ≠ 31 := Nat.ne_of_gt hi
    have hge : 32 ≤ i := hi
    simp [hne, hge]

/-- The upper half of what `read_redtbl_entry` returns is zero. -/
theorem readRedtblEntry_high (s : Ioapic) (h : e ≤ lastEntry) :
    (readRedtblEntry s e >>> 32).setWidth 32 = 0#32 := by
  apply BitVec.eq_of_getLsbD_eq
  intro i _
  have hne : 32 + i ≠ 31 := by omega
  simp [readRedtblEntry_getLsbD s h, hne]

/-- **The read** is exact when the upper register is zero. -/
theorem readExact_iff (s : Ioapic) (h : e ≤ lastEntry) :
    readRedtblEntry s e = (s.upper e).setWidth 64 <<< 32 ||| (s.lower e).setWidth 64 ↔
      s.upper e = 0 := by
  constructor
  · intro hr
    have hhigh := readRedtblEntry_high s h
    rw [hr] at hhigh
    apply BitVec.eq_of_getLsbD_eq
    intro i hi
    have hbit := congrArg (BitVec.getLsbD · i) hhigh
    simpa [hi, show 32 + i < 64 by omega] using hbit
  · intro hu
    apply BitVec.eq_of_getLsbD_eq
    intro i hi
    rw [readRedtblEntry_getLsbD s h, hu]
    simp [hi]

theorem getLsbD_maskBit (i : Nat) : (1#64 <<< 16).getLsbD i = decide (i = 16) := by
  rw [← BitVec.twoPow_eq, BitVec.getLsbD_twoPow]
  simp [eq_comm]

/-- The registers after `mask_gsi`, bit by bit. -/
theorem maskGsi_getLsbD (h : e ≤ s.maxRedirectionEntry) (he : e ≤ lastEntry) {reg i : Nat}
    (hi : i < 32) : ((maskGsi s e).2.regs reg).getLsbD i =
      if reg = 0x10 + 2 * e then
        (s.lower e).getLsbD i || (decide (i = 31) && (s.upper e).getLsbD 0) || decide (i = 16)
      else (s.regs reg).getLsbD i := by
  rw [maskGsi_regs h he, Function.update_apply]
  split
  · rw [BitVec.getLsbD_setWidth, BitVec.getLsbD_or, readRedtblEntry_getLsbD s he, getLsbD_maskBit,
      decide_eq_true hi, Bool.true_and]
  · rfl

theorem unmaskGsi_getLsbD (h : e ≤ s.maxRedirectionEntry) (he : e ≤ lastEntry) {reg i : Nat}
    (hi : i < 32) : ((unmaskGsi s e).2.regs reg).getLsbD i =
      if reg = 0x10 + 2 * e then
        ((s.lower e).getLsbD i || (decide (i = 31) && (s.upper e).getLsbD 0)) && !decide (i = 16)
      else (s.regs reg).getLsbD i := by
  rw [unmaskGsi_regs h he, Function.update_apply]
  split
  · rw [BitVec.getLsbD_setWidth, BitVec.getLsbD_and, readRedtblEntry_getLsbD s he,
      BitVec.getLsbD_not, getLsbD_maskBit, decide_eq_true hi, Bool.true_and,
      decide_eq_true (show i < 64 by omega), Bool.true_and]
  · rfl

/-- Bit 0 of the upper register does not show in the lower one: it is clear, or bit 31 is set. -/
def Shadowed (s : Ioapic) (e : Nat) : Prop :=
  (s.upper e).getLsbD 0 = true → (s.lower e).getLsbD 31 = true

theorem Shadowed.bit (h : Shadowed s e) (i : Nat) :
    ((s.lower e).getLsbD i || (decide (i = 31) && (s.upper e).getLsbD 0)) =
      (s.lower e).getLsbD i := by
  by_cases hi : i = 31
  · subst hi
    cases hu : (s.upper e).getLsbD 0 with
    | false => simp
    | true => simp [h hu]
  · simp [hi]

theorem shadowed_of_bit (h : ((s.lower e).getLsbD 31 || (s.upper e).getLsbD 0) =
    (s.lower e).getLsbD 31) : Shadowed s e := by
  intro hu
  simpa [hu] using h.symm

/-- **`mask_gsi`** is exact when bit 0 of the upper register does not show. -/
theorem maskExact_iff (h : e ≤ s.maxRedirectionEntry) (he : e ≤ lastEntry) :
    OnlyMask e true s (maskGsi s e).2 ↔ Shadowed s e := by
  constructor
  · rintro ⟨-, hbits⟩
    have h31 := hbits (0x10 + 2 * e) 31 (by omega)
    rw [maskGsi_getLsbD h he (by omega), if_pos rfl, if_neg (by omega)] at h31
    simp only [Nat.reduceEqDiff, decide_true, decide_false, Bool.true_and, Bool.or_false] at h31
    exact shadowed_of_bit h31
  · refine fun hsh => ⟨by rw [maskGsi_frame], fun reg i hi => ?_⟩
    rw [maskGsi_getLsbD h he hi, hsh.bit]
    by_cases hreg : reg = 0x10 + 2 * e
    · subst hreg
      by_cases h16 : i = 16 <;> simp [h16, Ioapic.lower]
    · simp [hreg]

/-- **`unmask_gsi`** likewise. -/
theorem unmaskExact_iff (h : e ≤ s.maxRedirectionEntry) (he : e ≤ lastEntry) :
    OnlyMask e false s (unmaskGsi s e).2 ↔ Shadowed s e := by
  constructor
  · rintro ⟨-, hbits⟩
    have h31 := hbits (0x10 + 2 * e) 31 (by omega)
    rw [unmaskGsi_getLsbD h he (by omega), if_pos rfl, if_neg (by omega)] at h31
    simp only [Nat.reduceEqDiff, decide_true, decide_false, Bool.true_and, Bool.not_false,
      Bool.and_true] at h31
    exact shadowed_of_bit h31
  · refine fun hsh => ⟨by rw [unmaskGsi_frame], fun reg i hi => ?_⟩
    rw [unmaskGsi_getLsbD h he hi, hsh.bit]
    by_cases hreg : reg = 0x10 + 2 * e
    · subst hreg
      by_cases h16 : i = 16 <;> simp [h16, Ioapic.lower]
    · simp [hreg]

/-! ### `map_redtbl_entry` -/

theorem getLsbD_vectorBits (i : Nat) : (0xff#64).getLsbD i = decide (i < 8) := by
  have h := BitVec.getLsbD_setWidth 64 (BitVec.allOnes 8) i
  rw [show (BitVec.allOnes 8).setWidth 64 = 0xff#64 by decide] at h
  rw [h, BitVec.getLsbD_allOnes]
  by_cases hi : i < 8
  · simp [hi, show i < 64 by omega]
  · simp [hi]

theorem getLsbD_destinationBits {i : Nat} (h : i < 64) :
    (0xff#64 <<< 56).getLsbD i = decide (56 ≤ i) := by
  rw [BitVec.getLsbD_shiftLeft, getLsbD_vectorBits]
  by_cases hi : i < 56
  · simp [hi, Nat.not_le.mpr hi]
  · simp only [h, hi, Nat.le_of_not_lt hi, decide_true, decide_false, Bool.not_false,
      Bool.true_and, decide_eq_true_eq]
    omega

/-- Outside of its fields `map_redtbl_entry` writes the bits that it read. -/
theorem mappedEntry_getLsbD (s : Ioapic) (e : Nat) (v : BitVec 8) {i : Nat} (h8 : 8 ≤ i)
    (h16 : i ≠ 16) (h56 : i < 56) :
    (mappedEntry s e v).getLsbD i = (readRedtblEntry s e).getLsbD i := by
  have hv : (v + idtExceptions).getLsbD i = false := BitVec.getLsbD_of_ge _ _ h8
  rw [mappedEntry, clearDestination, setMask, setVector, BitVec.getLsbD_and, BitVec.getLsbD_not,
    getLsbD_destinationBits (by omega), BitVec.getLsbD_or, getLsbD_maskBit, BitVec.getLsbD_or,
    BitVec.getLsbD_and, BitVec.getLsbD_not, getLsbD_vectorBits, BitVec.getLsbD_setWidth, hv]
  simp [h16, Nat.not_le.mpr h56, Nat.not_lt.mpr h8, show i < 64 by omega]

/-- `map_redtbl_entry` clears the upper register. -/
theorem mappedEntry_high (s : Ioapic) (he : e ≤ lastEntry) (v : BitVec 8) :
    (mappedEntry s e v >>> 32).setWidth 32 = 0#32 := by
  apply BitVec.eq_of_getLsbD_eq
  intro i hi
  rw [BitVec.getLsbD_setWidth, BitVec.getLsbD_ushiftRight]
  rcases Nat.lt_or_ge i 24 with h24 | h24
  · rw [mappedEntry_getLsbD s e v (by omega) (by omega) (by omega), readRedtblEntry_getLsbD s he]
    simp
    omega
  · rw [mappedEntry, clearDestination, BitVec.getLsbD_and, BitVec.getLsbD_not,
      getLsbD_destinationBits (by omega), decide_eq_true (show 56 ≤ 32 + i by omega)]
    simp

theorem mapRedtblEntry_lower (s : Ioapic) (he : e ≤ lastEntry) (v : BitVec 8) :
    (mapRedtblEntry s e v).lower e = (mappedEntry s e v).setWidth 32 := by
  rw [Ioapic.lower, mapRedtblEntry_regs v he, Function.update_of_ne (by omega),
    Function.update_self]

theorem mapRedtblEntry_upper (s : Ioapic) (he : e ≤ lastEntry) (v : BitVec 8) :
    (mapRedtblEntry s e v).upper e = 0 := by
  rw [Ioapic.upper, mapRedtblEntry_regs v he, Function.update_self]
  exact mappedEntry_high s he v

/-- **`map_redtbl_entry`** is exact when the upper register is zero below the destination. -/
theorem mapExact_iff (he : e ≤ lastEntry) :
    (∀ v, OnlyMapFields e s (mapRedtblEntry s e v)) ↔ (s.upper e).setWidth 24 = 0 := by
  have hzero : (s.upper e).setWidth 24 = 0 ↔ ∀ i, i < 24 → (s.upper e).getLsbD i = false := by
    constructor
    · intro hu i hi
      have hbit := congrArg (BitVec.getLsbD · i) hu
      simpa [hi] using hbit
    · intro hu
      apply BitVec.eq_of_getLsbD_eq
      intro i hi
      rw [BitVec.getLsbD_setWidth, hu i hi, Bool.and_false]
      exact BitVec.getLsbD_zero.symm
  rw [hzero]
  constructor
  · intro hmap i hi
    have hbit := (hmap 0).2 (0x10 + 2 * e + 1) i (by omega) (by unfold MapField; omega)
    have hclear := mapRedtblEntry_upper s he 0
    unfold Ioapic.upper at *
    rw [← hbit, hclear]
    exact BitVec.getLsbD_zero
  · refine fun hu v => ⟨rfl, fun reg i hi hno => ?_⟩
    unfold MapField at hno
    have hsh : Shadowed s e := fun h0 => by
      rw [hu 0 (by omega)] at h0
      exact absurd h0 (by decide)
    by_cases hlow : reg = 0x10 + 2 * e
    · subst hlow
      have hbit : ((mapRedtblEntry s e v).lower e).getLsbD i = (s.lower e).getLsbD i := by
        rw [mapRedtblEntry_lower s he, BitVec.getLsbD_setWidth,
          mappedEntry_getLsbD s e v (by omega) (by omega) (by omega),
          readRedtblEntry_getLsbD s he, hsh.bit, decide_eq_true hi, Bool.true_and]
      exact hbit
    · by_cases hupp : reg = 0x10 + 2 * e + 1
      · subst hupp
        have hbit : ((mapRedtblEntry s e v).upper e).getLsbD i = (s.upper e).getLsbD i := by
          rw [mapRedtblEntry_upper s he, hu i (by omega)]
          exact BitVec.getLsbD_zero
        exact hbit
      · rw [mapRedtblEntry_regs v he, Function.update_of_ne hupp, Function.update_of_ne hlow]

/-- **The read-modify-writes of an entry** are exact when its upper register is zero. -/
theorem rmwExact_iff (h : e ≤ s.maxRedirectionEntry) (hmax : s.maxRedirectionEntry ≤ lastEntry) :
    RmwExact s e ↔ s.upper e = 0 := by
  have he := Nat.le_trans h hmax
  constructor
  · exact fun hex => (readExact_iff s he).mp hex.read
  · intro hu
    have hsh : Shadowed s e := fun h0 => by
      rw [hu] at h0
      exact absurd h0 (by decide)
    refine ⟨(readExact_iff s he).mpr hu, (maskExact_iff h he).mpr hsh,
      (unmaskExact_iff h he).mpr hsh, (mapExact_iff he).mpr ?_⟩
    rw [hu]
    rfl

/-- The entries `0 … 23`, all masked; entry 8 has destination 1. -/
def destined : Ioapic where
  regs := Function.update (fun _ => 0x10000) 0x21 0x1000000
  lvtTimer := 0
  maxRedirectionEntry := 23
  irqMap := fun _ => false
  ioso := []

/-- Entry 8 is not read back with its destination. -/
theorem destined_not_exact : 8 ≤ destined.maxRedirectionEntry ∧
    destined.maxRedirectionEntry ≤ lastEntry ∧ ¬ RmwExact destined 8 := by
  refine ⟨by decide, by decide, fun hex => ?_⟩
  have hu := (readExact_iff destined (by decide)).mp hex.read
  exact absurd hu (by decide)

/-- With its destination cleared entry 8 is exact. -/
theorem cleared_exact : RmwExact (mapRedtblEntry destined 8 8) 8 :=
  (rmwExact_iff (by decide) (by decide)).mpr (by decide)

end FrazzOS.Devices
