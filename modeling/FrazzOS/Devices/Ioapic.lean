import Mathlib.Logic.Function.Basic
import Mathlib.Tactic.Common

/-!
# Devices — Ioapic

The I/O APIC of `devices/ioapic.c`: its registers, read and written through the select register,
and the mapping of interrupt requests to redirection entries.  Entry `e` has the lower register
`0x10 + 2 * e` and the upper one behind it.

* `maskGsi_vector`, `mapRedtblEntry_vector` and their kin: what one operation does to the vector
  and to the mask bit of every entry.
* `ioapicInit_vector`, `ioapicInit_masked`: both after `ioapic_init`, for any overrides with
  distinct gsis.
-/

namespace FrazzOS.Devices

/-- `NUM_OF_IRQ`. -/
def numOfIrq : Nat := 16

/-- `IDT_EXCEPTIONS`. -/
def idtExceptions : BitVec 8 := 32

/-- `IOAPICVER`. -/
def ioapicver : Nat := 1

/-- `EINVAL`. -/
def einval : Int := -2

/-- The irq and the gsi of a `struct ioso_apic_t`. -/
structure Ioso where
  irq : BitVec 8
  gsi : BitVec 32
  deriving DecidableEq

/-- The registers of the I/O APIC, the timer register of the local one, and the globals
`max_redirection_entry`, `irq_map` and `ioso_apic_tbl`. -/
structure Ioapic where
  regs : Nat → BitVec 32
  lvtTimer : BitVec 32
  maxRedirectionEntry : Nat
  irqMap : Nat → Bool
  ioso : List Ioso

def readIoapicReg (s : Ioapic) (reg : Nat) : BitVec 32 := s.regs reg

def writeIoapicReg (s : Ioapic) (reg : Nat) (data : BitVec 32) : Ioapic :=
  { s with regs := Function.update s.regs reg data }

/-- `calc_redtbl_offset`, in a `uint8_t`. -/
def calcRedtblOffset (entryNum : Nat) : Nat := (0x10 + entryNum * 2) % 256

/-- `read_redtbl_entry`: the upper register is shifted by 31, in 32 bits. -/
def readRedtblEntry (s : Ioapic) (entry : Nat) : BitVec 64 :=
  let offset := calcRedtblOffset entry
  (readIoapicReg s offset).setWidth 64 ||| (readIoapicReg s (offset + 1) <<< 31).setWidth 64

/-- `mask_gsi`. -/
def maskGsi (s : Ioapic) (idx : Nat) : Int × Ioapic :=
  let data := readRedtblEntry s idx
  if idx > s.maxRedirectionEntry then (einval, s)
  else (0, writeIoapicReg s (calcRedtblOffset idx) ((data ||| 1#64 <<< 16).setWidth 32))

/-- `unmask_gsi`. -/
def unmaskGsi (s : Ioapic) (idx : Nat) : Int × Ioapic :=
  let data := readRedtblEntry s idx
  if idx > s.maxRedirectionEntry then (einval, s)
  else (0, writeIoapicReg s (calcRedtblOffset idx) ((data &&& ~~~(1#64 <<< 16)).setWidth 32))

/-- `data.entry.vector = v`. -/
def setVector (data : BitVec 64) (v : BitVec 8) : BitVec 64 := data &&& ~~~0xff#64 ||| v.setWidth 64

/-- `data.entry.mask = 1`. -/
def setMask (data : BitVec 64) : BitVec 64 := data ||| 1#64 <<< 16

/-- `data.entry.destination = 0`. -/
def clearDestination (data : BitVec 64) : BitVec 64 := data &&& ~~~(0xff#64 <<< 56)

/-- `map_redtbl_entry`. -/
def mapRedtblEntry (s : Ioapic) (entry : Nat) (vector : BitVec 8) : Ioapic :=
  let data :=
    clearDestination (setMask (setVector (readRedtblEntry s entry) (vector + idtExceptions)))
  let offset := calcRedtblOffset entry
  let s' := writeIoapicReg s offset (data.setWidth 32)
  writeIoapicReg s' (offset + 1) ((data >>> 32).setWidth 32)

/-- `unmask_irq`: after the timer register, irq `0` goes on to entry `0`. -/
def unmaskIrq (s : Ioapic) (irq : BitVec 8) : Ioapic :=
  if irq = 0 then
    (unmaskGsi { s with lvtTimer := s.lvtTimer &&& ~~~(1#32 <<< 16) } irq.toNat).2
  else
    match s.ioso.find? fun o => o.irq = irq with
    | some o => (unmaskGsi s (o.gsi.setWidth 8).toNat).2
    | none => (unmaskGsi s irq.toNat).2

/-- `mask_irq`: like `unmask_irq`, irq `0` goes on to entry `0`. -/
def maskIrq (s : Ioapic) (irq : BitVec 8) : Ioapic :=
  if irq = 0 then
    (maskGsi { s with lvtTimer := s.lvtTimer ||| 1#32 <<< 16 } irq.toNat).2
  else
    match s.ioso.find? fun o => o.irq = irq with
    | some o => (maskGsi s (o.gsi.setWidth 8).toNat).2
    | none => (maskGsi s irq.toNat).2

/-- The argument of the rounds of `mask_all_irq` and `unmask_all_irq`, from `IDT_EXCEPTIONS` on. -/
def allIrqs : List (BitVec 8) := (List.range numOfIrq).map fun i => idtExceptions + BitVec.ofNat 8 i

/-- `mask_all_irq`. -/
def maskAllIrq (s : Ioapic) : Ioapic := allIrqs.foldl maskIrq s

/-- `unmask_all_irq`. -/
def unmaskAllIrq (s : Ioapic) : Ioapic := allIrqs.foldl unmaskIrq s

/-- `max_redirection_entry`, from the version register. -/
def readMaxEntry (regs : Nat → BitVec 32) : Nat :=
  (((regs ioapicver >>> 16) &&& 0xff &&& ~~~(1#32 <<< 7)).setWidth 8).toNat

/-- What `ioapic_init` starts its loops with: the registers and the overrides that it finds, and
`irq_map` cleared. -/
def bootIoapic (regs : Nat → BitVec 32) (lvtTimer : BitVec 32) (ioso : List Ioso) : Ioapic where
  regs := regs
  lvtTimer := lvtTimer
  maxRedirectionEntry := readMaxEntry regs
  irqMap := fun _ => false
  ioso := ioso

/-- The first loop of `ioapic_init`. -/
def maskEntries (s : Ioapic) : Ioapic :=
  (List.range (s.maxRedirectionEntry + 1)).foldl (fun s i => (maskGsi s i).2) s

/-- A round of the second loop. -/
def mapOverride (s : Ioapic) (o : Ioso) : Ioapic :=
  let s' := mapRedtblEntry s (o.gsi.setWidth 8).toNat o.irq
  if o.gsi < 16 then { s' with irqMap := Function.update s'.irqMap o.gsi.toNat true } else s'

/-- A round of the third loop. -/
def mapIdentity (s : Ioapic) (i : Nat) : Ioapic :=
  if s.irqMap i then s else mapRedtblEntry s i (BitVec.ofNat 8 i)

/-- `ioapic_init`. -/
def ioapicInit (regs : Nat → BitVec 32) (lvtTimer : BitVec 32) (ioso : List Ioso) : Ioapic :=
  let s := maskEntries (bootIoapic regs lvtTimer ioso)
  (List.range numOfIrq).foldl mapIdentity (s.ioso.foldl mapOverride s)

/-! ### Vectors and mask bits -/

/-- The vector of an entry. -/
def Ioapic.vector (s : Ioapic) (e : Nat) : BitVec 8 := (s.regs (0x10 + 2 * e)).setWidth 8

/-- The entry is masked. -/
def Ioapic.Masked (s : Ioapic) (e : Nat) : Prop := (s.regs (0x10 + 2 * e)).getLsbD 16 = true

/-- The largest entry whose registers a `uint8_t` offset reaches without wrapping around. -/
def lastEntry : Nat := 119

variable {s : Ioapic} {e e' : Nat}

@[simp] theorem writeIoapicReg_regs (s : Ioapic) (reg : Nat) (data : BitVec 32) :
    (writeIoapicReg s reg data).regs = Function.update s.regs reg data := rfl

theorem calcRedtblOffset_eq (h : e ≤ lastEntry) : calcRedtblOffset e = 0x10 + 2 * e := by
  unfold calcRedtblOffset lastEntry at *; omega

/-- The low 31 bits of what `read_redtbl_entry` returns are those of the lower register. -/
theorem getLsbD_readRedtblEntry (s : Ioapic) {i : Nat} (h : e ≤ lastEntry) (hi : i < 31) :
    (readRedtblEntry s e).getLsbD i = (s.regs (0x10 + 2 * e)).getLsbD i := by
  simp only [readRedtblEntry, readIoapicReg, calcRedtblOffset_eq h]
  simp [hi]
  omega

/-- What an operation does to the entries: those with a vector in `V` get it, those of `P` are
masked, and the rest stay as they were. -/
structure Effect (V : Nat → Option (BitVec 8)) (P : Nat → Prop) (s s' : Ioapic) : Prop where
  vector : ∀ e, e ≤ lastEntry → s'.vector e = (V e).getD (s.vector e)
  masked : ∀ e, e ≤ lastEntry → (s'.Masked e ↔ P e ∨ s.Masked e)
  maxEntry : s'.maxRedirectionEntry = s.maxRedirectionEntry
  ioso : s'.ioso = s.ioso

theorem Effect.refl (s : Ioapic) : Effect (fun _ => none) (fun _ => False) s s :=
  ⟨fun _ _ => rfl, fun _ _ => by simp, rfl, rfl⟩

/-- One operation after another: the later vector counts. -/
theorem Effect.trans {V V' : Nat → Option (BitVec 8)} {P P' : Nat → Prop} {s s' s'' : Ioapic}
    (h : Effect V P s s') (h' : Effect V' P' s' s'') :
    Effect (fun e => (V' e).or (V e)) (fun e => P e ∨ P' e) s s'' := by
  refine ⟨fun e he => ?_, fun e he => ?_, h'.maxEntry.trans h.maxEntry, h'.ioso.trans h.ioso⟩
  · rw [h'.vector e he, h.vector e he]
    cases V' e <;> rfl
  · rw [h'.masked e he, h.masked e he]
    tauto

theorem Effect.congr {V V' : Nat → Option (BitVec 8)} {P P' : Nat → Prop} {s s' : Ioapic}
    (h : Effect V P s s') (hV : ∀ e, V e = V' e) (hP : ∀ e, P e ↔ P' e) : Effect V' P' s s' :=
  ⟨fun e he => hV e ▸ h.vector e he, fun e he => by rw [h.masked e he, hP e], h.maxEntry, h.ioso⟩

theorem maskGsi_regs (h : e ≤ s.maxRedirectionEntry) (he : e ≤ lastEntry) :
    (maskGsi s e).2.regs = Function.update s.regs (0x10 + 2 * e)
      ((readRedtblEntry s e ||| 1#64 <<< 16).setWidth 32) := by
  simp only [maskGsi, if_neg (Nat.not_lt.mpr h), writeIoapicReg_regs, calcRedtblOffset_eq he]

theorem unmaskGsi_regs (h : e ≤ s.maxRedirectionEntry) (he : e ≤ lastEntry) :
    (unmaskGsi s e).2.regs = Function.update s.regs (0x10 + 2 * e)
      ((readRedtblEntry s e &&& ~~~(1#64 <<< 16)).setWidth 32) := by
  simp only [unmaskGsi, if_neg (Nat.not_lt.mpr h), writeIoapicReg_regs, calcRedtblOffset_eq he]

/-- `mask_gsi` and `unmask_gsi` write registers alone. -/
theorem maskGsi_frame (s : Ioapic) (e : Nat) :
    (maskGsi s e).2 = { s with regs := (maskGsi s e).2.regs } := by
  rw [maskGsi]
  split <;> rfl

theorem unmaskGsi_frame (s : Ioapic) (e : Nat) :
    (unmaskGsi s e).2 = { s with regs := (unmaskGsi s e).2.regs } := by
  rw [unmaskGsi]
  split <;> rfl

/-- `mask_gsi` masks the entry whose lower register the offset of `e` is. -/
theorem maskGsi_masked_iff (s : Ioapic) (e i : Nat) : (maskGsi s e).2.Masked i ↔
    s.Masked i ∨ (e ≤ s.maxRedirectionEntry ∧ calcRedtblOffset e = 0x10 + 2 * i) := by
  by_cases h : e ≤ s.maxRedirectionEntry
  · simp only [Ioapic.Masked, maskGsi, if_neg (Nat.not_lt.mpr h), writeIoapicReg_regs, h, true_and]
    by_cases hreg : calcRedtblOffset e = 0x10 + 2 * i
    · rw [hreg, Function.update_self]
      simp
    · rw [Function.update_of_ne (Ne.symm hreg)]
      simp [hreg]
  · rw [maskGsi, if_pos (Nat.lt_of_not_le h)]
    simp [h]

theorem unmaskGsi_masked_iff (s : Ioapic) (e i : Nat) : (unmaskGsi s e).2.Masked i ↔
    s.Masked i ∧ ¬ (e ≤ s.maxRedirectionEntry ∧ calcRedtblOffset e = 0x10 + 2 * i) := by
  by_cases h : e ≤ s.maxRedirectionEntry
  · simp only [Ioapic.Masked, unmaskGsi, if_neg (Nat.not_lt.mpr h), writeIoapicReg_regs, h,
      true_and]
    by_cases hreg : calcRedtblOffset e = 0x10 + 2 * i
    · rw [hreg, Function.update_self]
      simp
    · rw [Function.update_of_ne (Ne.symm hreg)]
      simp [hreg]
  · rw [unmaskGsi, if_pos (Nat.lt_of_not_le h)]
    simp [h]

theorem maskGsi_masked (h : e ≤ s.maxRedirectionEntry) (he : e ≤ lastEntry) {i : Nat} :
    (maskGsi s e).2.Masked i ↔ i = e ∨ s.Masked i := by
  have hreg : 0x10 + 2 * e = 0x10 + 2 * i ↔ i = e := by omega
  rw [maskGsi_masked_iff, calcRedtblOffset_eq he, hreg, or_comm]
  simp [h]

theorem unmaskGsi_masked (h : e ≤ s.maxRedirectionEntry) (he : e ≤ lastEntry) {i : Nat} :
    (unmaskGsi s e).2.Masked i ↔ i ≠ e ∧ s.Masked i := by
  have hreg : 0x10 + 2 * e = 0x10 + 2 * i ↔ i = e := by omega
  rw [unmaskGsi_masked_iff, calcRedtblOffset_eq he, hreg, and_comm]
  simp [h]

/-- **`mask_gsi`** masks its entry. -/
theorem maskGsi_effect (h : e ≤ s.maxRedirectionEntry) (he : e ≤ lastEntry) :
    Effect (fun _ => none) (fun i => i = e) s (maskGsi s e).2 := by
  refine ⟨fun i hi => ?_, fun i _ => maskGsi_masked h he,
    by rw [maskGsi_frame], by rw [maskGsi_frame]⟩
  rw [Option.getD_none, Ioapic.vector, Ioapic.vector, maskGsi_regs h he]
  by_cases hie : i = e
  · subst hie
    rw [Function.update_self]
    apply BitVec.eq_of_getLsbD_eq
    intro k hk
    have hk₁ : k < 31 := by omega
    simp [getLsbD_readRedtblEntry s he hk₁, hk]
  · rw [Function.update_of_ne (by omega)]

/-- The entry that `map_redtbl_entry` writes. -/
def mappedEntry (s : Ioapic) (e : Nat) (v : BitVec 8) : BitVec 64 :=
  clearDestination (setMask (setVector (readRedtblEntry s e) (v + idtExceptions)))

theorem mapRedtblEntry_regs (v : BitVec 8) (he : e ≤ lastEntry) :
    (mapRedtblEntry s e v).regs = Function.update
      (Function.update s.regs (0x10 + 2 * e) ((mappedEntry s e v).setWidth 32))
      (0x10 + 2 * e + 1) ((mappedEntry s e v >>> 32).setWidth 32) := by
  simp only [mapRedtblEntry, mappedEntry, writeIoapicReg_regs, calcRedtblOffset_eq he]

/-- **`map_redtbl_entry`** gives its entry the vector of an irq, and masks it. -/
theorem mapRedtblEntry_effect (s : Ioapic) (v : BitVec 8) (he : e ≤ lastEntry) :
    Effect (fun i => if i = e then some (v + idtExceptions) else none) (fun i => i = e) s
      (mapRedtblEntry s e v) := by
  refine ⟨fun i hi => ?_, fun i hi => ?_, rfl, rfl⟩
  · rw [Ioapic.vector, mapRedtblEntry_regs v he, Function.update_of_ne (by omega)]
    by_cases hie : i = e
    · subst hie
      rw [Function.update_self, if_pos rfl, Option.getD_some]
      apply BitVec.eq_of_getLsbD_eq
      intro k hk
      have hlow : (255#8)[k] = true := by
        simp only [show 255#8 = BitVec.allOnes 8 by decide, BitVec.getElem_allOnes]
      simp [mappedEntry, clearDestination, setMask, setVector, hk, hlow]
    · rw [Function.update_of_ne (by omega), if_neg hie]
      rfl
  · rw [Ioapic.Masked, mapRedtblEntry_regs v he, Function.update_of_ne (by omega)]
    by_cases hie : i = e
    · subst hie
      rw [Function.update_self]
      simp [mappedEntry, clearDestination, setMask, setVector]
    · rw [Function.update_of_ne (by omega)]
      simp [hie, Ioapic.Masked]

/-! ### The loops of `ioapic_init` -/

/-- Masking a list of entries. -/
theorem maskGsis_effect (l : List Nat) : ∀ s : Ioapic,
    (∀ i ∈ l, i ≤ s.maxRedirectionEntry ∧ i ≤ lastEntry) →
    Effect (fun _ => none) (fun e => e ∈ l) s (l.foldl (fun s i => (maskGsi s i).2) s) := by
  induction l with
  | nil => exact fun s _ => (Effect.refl s).congr (fun _ => rfl) (by simp)
  | cons i l ih =>
      intro s h
      have hi := h i List.mem_cons_self
      have h₁ := maskGsi_effect hi.1 hi.2
      have h₂ := ih (maskGsi s i).2 fun j hj => by
        rw [h₁.maxEntry]
        exact h j (List.mem_cons_of_mem i hj)
      exact (h₁.trans h₂).congr (fun _ => rfl) (by simp)

theorem maskGsis_irqMap (l : List Nat) : ∀ s : Ioapic,
    (l.foldl (fun s i => (maskGsi s i).2) s).irqMap = s.irqMap := by
  induction l with
  | nil => exact fun _ => rfl
  | cons i l ih =>
      intro s
      rw [List.foldl_cons, ih, maskGsi]
      split <;> rfl

/-- The vector that the overrides give an entry, the last one for a gsi. -/
def overrideVector : List Ioso → Nat → Option (BitVec 8)
  | [], _ => none
  | o :: l, e =>
      (overrideVector l e).or (if e = o.gsi.toNat then some (o.irq + idtExceptions) else none)

theorem gsi_setWidth {o : Ioso} (h : o.gsi.toNat ≤ lastEntry) :
    (o.gsi.setWidth 8).toNat = o.gsi.toNat := by
  unfold lastEntry at h
  rw [BitVec.toNat_setWidth]
  omega

theorem mapOverride_effect (s : Ioapic) {o : Ioso} (h : o.gsi.toNat ≤ lastEntry) :
    Effect (fun e => if e = o.gsi.toNat then some (o.irq + idtExceptions) else none)
      (fun e => e = o.gsi.toNat) s (mapOverride s o) := by
  have hm := mapRedtblEntry_effect s o.irq h
  rw [mapOverride, gsi_setWidth h]
  split
  · exact ⟨hm.vector, hm.masked, hm.maxEntry, hm.ioso⟩
  · exact hm

/-- The second loop. -/
theorem mapOverrides_effect (l : List Ioso) : ∀ s : Ioapic, (∀ o ∈ l, o.gsi.toNat ≤ lastEntry) →
    Effect (overrideVector l) (fun e => ∃ o ∈ l, e = o.gsi.toNat) s (l.foldl mapOverride s) := by
  induction l with
  | nil => exact fun s _ => (Effect.refl s).congr (fun _ => rfl) (by simp)
  | cons o l ih =>
      intro s h
      have h₁ := mapOverride_effect s (h o List.mem_cons_self)
      have h₂ := ih (mapOverride s o) fun o' ho' => h o' (List.mem_cons_of_mem o ho')
      exact (h₁.trans h₂).congr (fun _ => rfl) (by simp)

/-- `irq_map` after the second loop: the gsis below 16. -/
theorem mapOverrides_irqMap (l : List Ioso) : ∀ (s : Ioapic) (i : Nat),
    (l.foldl mapOverride s).irqMap i = true ↔
      (∃ o ∈ l, o.gsi.toNat = i ∧ i < numOfIrq) ∨ s.irqMap i = true := by
  induction l with
  | nil => intro s i; simp
  | cons o l ih =>
      intro s i
      have hone : (mapOverride s o).irqMap i = true ↔
          (o.gsi.toNat = i ∧ i < numOfIrq) ∨ s.irqMap i = true := by
        rw [mapOverride]
        split
        · rename_i hlt
          have hlt : o.gsi.toNat < numOfIrq := hlt
          by_cases hi : i = o.gsi.toNat
          · subst hi
            simp [hlt]
          · simp only [Function.update_of_ne hi, Ne.symm hi, false_and, false_or]
            rfl
        · rename_i hge
          have hge : ¬ o.gsi.toNat < numOfIrq := hge
          have hno : ¬ (o.gsi.toNat = i ∧ i < numOfIrq) := fun h => hge (h.1 ▸ h.2)
          simp only [hno, false_or]
          rfl
      rw [List.foldl_cons, ih, hone]
      simp only [List.mem_cons, exists_eq_or_imp]
      exact or_left_comm.trans or_assoc.symm

theorem mapIdentity_effect (s : Ioapic) {i : Nat} (h : i ≤ lastEntry) :
    Effect (fun e => if e = i ∧ s.irqMap e = false then some (BitVec.ofNat 8 e + idtExceptions)
        else none)
      (fun e => e = i ∧ s.irqMap e = false) s (mapIdentity s i) := by
  cases hi : s.irqMap i with
  | true =>
      have hno : ∀ e, ¬ (e = i ∧ s.irqMap e = false) := by
        rintro e ⟨rfl, he⟩
        rw [hi] at he
        cases he
      rw [mapIdentity, if_pos hi]
      exact (Effect.refl s).congr (fun e => (if_neg (hno e)).symm) fun e => by simp [hno]
  | false =>
      rw [mapIdentity, hi]
      refine (mapRedtblEntry_effect s (BitVec.ofNat 8 i) h).congr (fun e => ?_) fun e => ?_
      · by_cases he : e = i
        · subst he
          simp [hi]
        · simp [he]
      · constructor
        · rintro rfl
          exact ⟨rfl, hi⟩
        · exact And.left

/-- The third loop, over a list of irqs. -/
theorem mapIdentities_effect (l : List Nat) : ∀ s : Ioapic, (∀ i ∈ l, i ≤ lastEntry) →
    Effect (fun e => if e ∈ l ∧ s.irqMap e = false then some (BitVec.ofNat 8 e + idtExceptions)
        else none)
      (fun e => e ∈ l ∧ s.irqMap e = false) s (l.foldl mapIdentity s) := by
  induction l with
  | nil => exact fun s _ => (Effect.refl s).congr (fun _ => by simp) (by simp)
  | cons i l ih =>
      intro s h
      have hmap : (mapIdentity s i).irqMap = s.irqMap := by
        rw [mapIdentity]
        split <;> rfl
      have h₁ := mapIdentity_effect s (h i List.mem_cons_self)
      have h₂ := ih (mapIdentity s i) fun j hj => h j (List.mem_cons_of_mem i hj)
      rw [hmap] at h₂
      refine (h₁.trans h₂).congr (fun e => ?_) fun e => ?_
      · by_cases hi : e = i
        · subst hi
          by_cases hl : e ∈ l <;> by_cases hm : s.irqMap e = false <;> simp [hl, hm]
        · simp [hi]
      · simp only [List.mem_cons]
        tauto

/-- What `ioapic_init` finds: overrides with distinct irqs, all legacy ones, and with distinct
gsis, all redirection entries. -/
structure OverridesOk (maxEntry : Nat) (ioso : List Ioso) : Prop where
  irqs : (ioso.map Ioso.irq).Nodup
  gsis : (ioso.map Ioso.gsi).Nodup
  irq_lt : ∀ o ∈ ioso, o.irq.toNat < numOfIrq
  gsi_le : ∀ o ∈ ioso, o.gsi.toNat ≤ maxEntry
  max_le : maxEntry ≤ lastEntry

theorem overrideVector_eq_none {l : List Ioso} {e : Nat} (h : ∀ o ∈ l, o.gsi.toNat ≠ e) :
    overrideVector l e = none := by
  induction l with
  | nil => rfl
  | cons o l ih =>
      rw [overrideVector, ih fun o' ho' => h o' (List.mem_cons_of_mem o ho'),
        if_neg (Ne.symm (h o List.mem_cons_self))]
      rfl

/-- With distinct gsis an override gives its entry its vector. -/
theorem overrideVector_of_mem {l : List Ioso} (hl : (l.map Ioso.gsi).Nodup) {o : Ioso}
    (ho : o ∈ l) : overrideVector l o.gsi.toNat = some (o.irq + idtExceptions) := by
  induction l with
  | nil => cases ho
  | cons o' l ih =>
      rw [List.map_cons, List.nodup_cons] at hl
      rw [overrideVector]
      rcases List.mem_cons.mp ho with rfl | ho
      · have hnone : overrideVector l o.gsi.toNat = none := by
          refine overrideVector_eq_none fun o' ho' he => hl.1 ?_
          rw [← BitVec.eq_of_toNat_eq he]
          exact List.mem_map_of_mem ho'
        rw [hnone, if_pos rfl]
        rfl
      · rw [ih hl.2 ho]
        rfl

/-- Entry `e` is the identity entry of a legacy irq that no override has taken. -/
def Identity (ioso : List Ioso) (e : Nat) : Prop := e < numOfIrq ∧ ∀ o ∈ ioso, o.gsi.toNat ≠ e

instance (ioso : List Ioso) (e : Nat) : Decidable (Identity ioso e) :=
  inferInstanceAs (Decidable (_ ∧ _))

/-- **`ioapic_init`**: the entries that an override names get its irq's vector, the identity entries
left their own, and all of them and all entries of the I/O APIC are masked. -/
theorem ioapicInit_effect {regs : Nat → BitVec 32} {ioso : List Ioso} (lvtTimer : BitVec 32)
    (h : OverridesOk (readMaxEntry regs) ioso) :
    Effect
      (fun e => (if Identity ioso e then some (BitVec.ofNat 8 e + idtExceptions) else none).or
        (overrideVector ioso e))
      (fun e => (e ≤ readMaxEntry regs ∨ ∃ o ∈ ioso, e = o.gsi.toNat) ∨ Identity ioso e)
      (bootIoapic regs lvtTimer ioso) (ioapicInit regs lvtTimer ioso) := by
  have h₁ := maskGsis_effect (List.range (readMaxEntry regs + 1)) (bootIoapic regs lvtTimer ioso)
    fun i hi => by
      have hle : i ≤ readMaxEntry regs := Nat.le_of_lt_succ (List.mem_range.mp hi)
      exact ⟨hle, Nat.le_trans hle h.max_le⟩
  have h₂ := mapOverrides_effect ioso (maskEntries (bootIoapic regs lvtTimer ioso))
    fun o ho => Nat.le_trans (h.gsi_le o ho) h.max_le
  have h₃ := mapIdentities_effect (List.range numOfIrq)
    (ioso.foldl mapOverride (maskEntries (bootIoapic regs lvtTimer ioso))) fun i hi => by
      have hlt := List.mem_range.mp hi
      unfold numOfIrq at hlt
      unfold lastEntry
      omega
  have hioso : (maskEntries (bootIoapic regs lvtTimer ioso)).ioso = ioso := h₁.ioso
  have hmap : ∀ e, (e ∈ List.range numOfIrq ∧
      (ioso.foldl mapOverride (maskEntries (bootIoapic regs lvtTimer ioso))).irqMap e = false) ↔
        Identity ioso e := by
    intro e
    rw [← Bool.not_eq_true, mapOverrides_irqMap, maskEntries, maskGsis_irqMap, List.mem_range,
      Identity]
    simp only [bootIoapic, Bool.false_eq_true, or_false, not_exists, not_and]
    constructor
    · exact fun hd => ⟨hd.1, fun o ho he => hd.2 o ho he hd.1⟩
    · exact fun hd => ⟨hd.1, fun o ho he => absurd he (hd.2 o ho)⟩
  have hfinal : ioapicInit regs lvtTimer ioso = (List.range numOfIrq).foldl mapIdentity
      (ioso.foldl mapOverride (maskEntries (bootIoapic regs lvtTimer ioso))) := by
    rw [ioapicInit]
    simp only [hioso]
  rw [hfinal]
  refine ((h₁.trans h₂).trans h₃).congr (fun e => ?_) fun e => ?_
  · simp only [hmap, Option.or_none]
  · rw [hmap, List.mem_range, Nat.lt_succ_iff]

section Init

variable {regs : Nat → BitVec 32} {ioso : List Ioso} (lvtTimer : BitVec 32)

/-- Every entry of the I/O APIC is masked. -/
theorem ioapicInit_masked (h : OverridesOk (readMaxEntry regs) ioso) {e : Nat}
    (he : e ≤ readMaxEntry regs) : (ioapicInit regs lvtTimer ioso).Masked e :=
  ((ioapicInit_effect lvtTimer h).masked e (Nat.le_trans he h.max_le)).mpr
    (Or.inl (Or.inl (Or.inl he)))

/-- The entry of an override. -/
theorem ioapicInit_override (h : OverridesOk (readMaxEntry regs) ioso) {o : Ioso} (ho : o ∈ ioso) :
    (ioapicInit regs lvtTimer ioso).vector o.gsi.toNat = o.irq + idtExceptions := by
  have hno : ¬ Identity ioso o.gsi.toNat := fun hid => hid.2 o ho rfl
  rw [(ioapicInit_effect lvtTimer h).vector _ (Nat.le_trans (h.gsi_le o ho) h.max_le), if_neg hno,
    overrideVector_of_mem h.gsis ho]
  rfl

/-- The entry of an irq below 16 that is no override's. -/
theorem ioapicInit_identity (h : OverridesOk (readMaxEntry regs) ioso) {e : Nat}
    (he : Identity ioso e) :
    (ioapicInit regs lvtTimer ioso).vector e = BitVec.ofNat 8 e + idtExceptions := by
  have hlast : e ≤ lastEntry := by
    have := he.1
    unfold numOfIrq at this
    unfold lastEntry
    omega
  rw [(ioapicInit_effect lvtTimer h).vector e hlast, if_pos he]
  rfl

/-- Any other entry keeps the vector that it had. -/
theorem ioapicInit_other (h : OverridesOk (readMaxEntry regs) ioso) {e : Nat} (hge : numOfIrq ≤ e)
    (he : e ≤ readMaxEntry regs) (hno : ∀ o ∈ ioso, o.gsi.toNat ≠ e) :
    (ioapicInit regs lvtTimer ioso).vector e = (bootIoapic regs lvtTimer ioso).vector e := by
  rw [(ioapicInit_effect lvtTimer h).vector e (Nat.le_trans he h.max_le),
    if_neg (fun hid => Nat.not_lt.mpr hge hid.1), overrideVector_eq_none hno]
  rfl

end Init

end FrazzOS.Devices
