import FrazzOS.Devices.Routing

/-!
# Devices — interrupt sources

An interrupt comes from the timer of the local APIC or from a redirection entry.  `mask_irq` and
`unmask_irq` are to write the mask of one source, the one that belongs to the irq.

* `oneSource_iff`: they do so exactly for an irq other than `0` whose entry exists and has registers
  that the offset reaches.  For irq `0` they write the timer and then entry `0` as well.
* `maskingAll_iff`: `mask_all_irq` and `unmask_all_irq` pass the vectors `32 … 47` for irqs, so a
  source is as it was before unless one of those has the same entry.
-/

namespace FrazzOS.Devices

/-- What can interrupt: the timer of the local APIC, or a redirection entry. -/
inductive Source where
  | timer
  | entry (e : Nat)
  deriving DecidableEq

/-- The source is masked. -/
def Ioapic.SourceMasked (s : Ioapic) : Source → Prop
  | .timer => s.lvtTimer.getLsbD 16 = true
  | .entry e => s.Masked e

/-- The source exists. -/
def Ioapic.Has (s : Ioapic) : Source → Prop
  | .timer => True
  | .entry e => e ≤ s.maxRedirectionEntry

/-- The entry of an irq other than `0`: that of its first override, or its own. -/
def sourceEntry (ioso : List Ioso) (irq : BitVec 8) : Nat :=
  match ioso.find? fun o => o.irq = irq with
  | some o => o.gsi.toNat
  | none => irq.toNat

/-- The source of an irq. -/
def sourceOf (ioso : List Ioso) (irq : BitVec 8) : Source :=
  if irq = 0 then .timer else .entry (sourceEntry ioso irq)

/-- From `s` to `s'` the source `src`, which exists, has its mask set to `b`, and every other source
keeps its mask. -/
structure SetsOne (b : Bool) (src : Source) (s s' : Ioapic) : Prop where
  has : s.Has src
  target : s'.SourceMasked src ↔ b = true
  others : ∀ src', src' ≠ src → s.Has src' → (s'.SourceMasked src' ↔ s.SourceMasked src')

/-- `mask_irq` and `unmask_irq` set the mask of the irq's source alone. -/
def OneSource (s : Ioapic) (irq : BitVec 8) : Prop :=
  SetsOne true (sourceOf s.ioso irq) s (maskIrq s irq) ∧
    SetsOne false (sourceOf s.ioso irq) s (unmaskIrq s irq)

variable {s : Ioapic} {irq : BitVec 8} {e : Nat}

@[simp] theorem sourceOf_zero (ioso : List Ioso) : sourceOf ioso 0 = .timer := if_pos rfl

theorem sourceOf_ne_zero (ioso : List Ioso) (h : irq ≠ 0) :
    sourceOf ioso irq = .entry (sourceEntry ioso irq) := if_neg h

theorem maskIrq_eq (h : irq ≠ 0) : maskIrq s irq = (maskGsi s (irqEntry s.ioso irq)).2 := by
  rw [maskIrq, if_neg h, irqEntry]
  cases s.ioso.find? fun o => o.irq = irq <;> rfl

/-- The entry that the code takes is cut to a `uint8_t`. -/
theorem irqEntry_eq (ioso : List Ioso) (irq : BitVec 8) :
    irqEntry ioso irq = sourceEntry ioso irq % 256 := by
  rw [irqEntry, sourceEntry]
  cases ioso.find? fun o => o.irq = irq with
  | some o => exact BitVec.toNat_setWidth 8 o.gsi
  | none => exact (Nat.mod_eq_of_lt irq.isLt).symm

/-! ### One irq -/

/-- With irq `0` entry `0` is written behind the timer. -/
theorem maskIrq_zero (s : Ioapic) : (maskIrq s 0).Masked 0 := by
  rw [maskIrq, if_pos rfl]
  exact (maskGsi_masked (Nat.zero_le _) (Nat.zero_le _)).mpr (Or.inl rfl)

theorem unmaskIrq_zero (s : Ioapic) : ¬ (unmaskIrq s 0).Masked 0 := by
  rw [unmaskIrq, if_pos rfl]
  exact fun hm => ((unmaskGsi_masked (Nat.zero_le _) (Nat.zero_le _)).mp hm).1 rfl

/-- Irq `0` takes two sources. -/
theorem not_oneSource_zero (s : Ioapic) : ¬ OneSource s 0 := by
  rintro ⟨hmask, hunmask⟩
  have hne : Source.entry 0 ≠ sourceOf s.ioso 0 := by
    rw [sourceOf_zero]
    exact Source.noConfusion
  have hm := (hmask.others (.entry 0) hne (Nat.zero_le _)).mp (maskIrq_zero s)
  exact unmaskIrq_zero s ((hunmask.others (.entry 0) hne (Nat.zero_le _)).mpr hm)

/-- The entry of an irq is out of reach when its registers are. -/
theorem not_oneSource_far (h : irq ≠ 0) (he : lastEntry < sourceEntry s.ioso irq) :
    ¬ OneSource s irq := by
  rintro ⟨hmask, hunmask⟩
  have hreg : calcRedtblOffset (irqEntry s.ioso irq) ≠ 0x10 + 2 * sourceEntry s.ioso irq := by
    unfold calcRedtblOffset
    unfold lastEntry at he
    omega
  have hm := hmask.target
  have hu := hunmask.target
  simp only [sourceOf_ne_zero _ h, Ioapic.SourceMasked, maskIrq_eq h, unmaskIrq_eq h,
    maskGsi_masked_iff, unmaskGsi_masked_iff, hreg, and_false, or_false, not_false_eq_true,
    and_true] at hm hu
  exact absurd (hu.mp (hm.mpr trivial)) (by decide)

theorem maskGsi_setsOne (h : e ≤ s.maxRedirectionEntry) (he : e ≤ lastEntry) :
    SetsOne true (.entry e) s (maskGsi s e).2 := by
  refine ⟨h, ?_, fun src' hne _ => ?_⟩
  · simp only [Ioapic.SourceMasked, maskGsi_masked h he, true_or]
  · cases src' with
    | timer =>
        rw [maskGsi_frame]
        exact Iff.rfl
    | entry i =>
        have hie : i ≠ e := fun hie => hne (congrArg Source.entry hie)
        simp only [Ioapic.SourceMasked, maskGsi_masked h he, hie, false_or]

theorem unmaskGsi_setsOne (h : e ≤ s.maxRedirectionEntry) (he : e ≤ lastEntry) :
    SetsOne false (.entry e) s (unmaskGsi s e).2 := by
  refine ⟨h, ?_, fun src' hne _ => ?_⟩
  · simp only [Ioapic.SourceMasked, unmaskGsi_masked h he, ne_eq, not_true, false_and,
      Bool.false_eq_true]
  · cases src' with
    | timer =>
        rw [unmaskGsi_frame]
        exact Iff.rfl
    | entry i =>
        have hie : i ≠ e := fun hie => hne (congrArg Source.entry hie)
        simp only [Ioapic.SourceMasked, unmaskGsi_masked h he, ne_eq, hie, not_false_eq_true,
          true_and]

/-- **One irq, one source**: for an irq other than `0` whose entry exists and is in reach. -/
theorem oneSource_iff (s : Ioapic) (irq : BitVec 8) :
    OneSource s irq ↔ irq ≠ 0 ∧ sourceEntry s.ioso irq ≤ s.maxRedirectionEntry ∧
      sourceEntry s.ioso irq ≤ lastEntry := by
  constructor
  · intro hone
    have hne : irq ≠ 0 := by
      rintro rfl
      exact not_oneSource_zero s hone
    have hhas : s.Has (sourceOf s.ioso irq) := hone.1.has
    rw [sourceOf_ne_zero _ hne] at hhas
    exact ⟨hne, hhas, Nat.le_of_not_lt fun hlt => not_oneSource_far hne hlt hone⟩
  · rintro ⟨hne, hmax, hlast⟩
    have hentry : irqEntry s.ioso irq = sourceEntry s.ioso irq := by
      rw [irqEntry_eq, Nat.mod_eq_of_lt]
      unfold lastEntry at hlast
      omega
    rw [OneSource, sourceOf_ne_zero _ hne, maskIrq_eq hne, unmaskIrq_eq hne, hentry]
    exact ⟨maskGsi_setsOne hmax hlast, unmaskGsi_setsOne hmax hlast⟩

/-- After a reset every entry is masked; unmasking the timer unmasks entry `0` as well. -/
theorem oneSource_timer : (bootIoapic resetRegs 0x10000 []).Masked 0 ∧
    ¬ (unmaskIrq (bootIoapic resetRegs 0x10000 []) 0).Masked 0 ∧
    ¬ OneSource (bootIoapic resetRegs 0x10000 []) 0 :=
  ⟨by unfold Ioapic.Masked; decide, unmaskIrq_zero _, not_oneSource_zero _⟩

/-! ### All irqs -/

/-- The sources of the legacy irqs are masked after `mask_all_irq`. -/
def AllMasked (s : Ioapic) : Prop :=
  ∀ irq : BitVec 8, irq.toNat < numOfIrq → (maskAllIrq s).SourceMasked (sourceOf s.ioso irq)

/-- The sources of the legacy irqs are unmasked after `unmask_all_irq`. -/
def AllUnmasked (s : Ioapic) : Prop :=
  ∀ irq : BitVec 8, irq.toNat < numOfIrq → ¬ (unmaskAllIrq s).SourceMasked (sourceOf s.ioso irq)

/-- The lower register of entry `e` is the one that an irq of `32 … 47` leads to. -/
def Struck (s : Ioapic) (e : Nat) : Prop :=
  ∃ irq ∈ allIrqs, irqEntry s.ioso irq ≤ s.maxRedirectionEntry ∧
    calcRedtblOffset (irqEntry s.ioso irq) = 0x10 + 2 * e

theorem ne_zero_of_mem_allIrqs (h : irq ∈ allIrqs) : irq ≠ 0 := by
  rintro rfl
  exact absurd h (by decide)

/-- The irqs of a list, none of them `0`, masked one after another. -/
theorem maskIrqs_spec (l : List (BitVec 8)) : ∀ s : Ioapic, (∀ irq ∈ l, irq ≠ 0) →
    (l.foldl maskIrq s).lvtTimer = s.lvtTimer ∧
    ∀ e, (l.foldl maskIrq s).Masked e ↔ s.Masked e ∨
      ∃ irq ∈ l, irqEntry s.ioso irq ≤ s.maxRedirectionEntry ∧
        calcRedtblOffset (irqEntry s.ioso irq) = 0x10 + 2 * e := by
  induction l with
  | nil => exact fun s _ => ⟨rfl, fun e => by simp⟩
  | cons irq l ih =>
      intro s h
      have hne := h irq List.mem_cons_self
      have hrest := ih (maskIrq s irq) fun i hi => h i (List.mem_cons_of_mem irq hi)
      have hframe := maskGsi_frame s (irqEntry s.ioso irq)
      rw [← maskIrq_eq hne] at hframe
      have hioso : (maskIrq s irq).ioso = s.ioso := by rw [hframe]
      have hmax : (maskIrq s irq).maxRedirectionEntry = s.maxRedirectionEntry := by rw [hframe]
      refine ⟨hrest.1.trans (by rw [hframe]), fun e => ?_⟩
      rw [List.foldl_cons, hrest.2, hioso, hmax, maskIrq_eq hne, maskGsi_masked_iff]
      simp only [List.mem_cons, exists_eq_or_imp]
      exact or_assoc

theorem unmaskIrqs_spec (l : List (BitVec 8)) : ∀ s : Ioapic, (∀ irq ∈ l, irq ≠ 0) →
    (l.foldl unmaskIrq s).lvtTimer = s.lvtTimer ∧
    ∀ e, (l.foldl unmaskIrq s).Masked e ↔ s.Masked e ∧
      ¬ ∃ irq ∈ l, irqEntry s.ioso irq ≤ s.maxRedirectionEntry ∧
        calcRedtblOffset (irqEntry s.ioso irq) = 0x10 + 2 * e := by
  induction l with
  | nil => exact fun s _ => ⟨rfl, fun e => by simp⟩
  | cons irq l ih =>
      intro s h
      have hne := h irq List.mem_cons_self
      have hrest := ih (unmaskIrq s irq) fun i hi => h i (List.mem_cons_of_mem irq hi)
      have hframe := unmaskGsi_frame s (irqEntry s.ioso irq)
      rw [← unmaskIrq_eq hne] at hframe
      have hioso : (unmaskIrq s irq).ioso = s.ioso := by rw [hframe]
      have hmax : (unmaskIrq s irq).maxRedirectionEntry = s.maxRedirectionEntry := by rw [hframe]
      refine ⟨hrest.1.trans (by rw [hframe]), fun e => ?_⟩
      rw [List.foldl_cons, hrest.2, hioso, hmax, unmaskIrq_eq hne, unmaskGsi_masked_iff]
      simp only [List.mem_cons, exists_eq_or_imp, not_or]
      exact and_assoc

theorem maskAllIrq_masked (s : Ioapic) (e : Nat) :
    (maskAllIrq s).Masked e ↔ s.Masked e ∨ Struck s e :=
  (maskIrqs_spec allIrqs s fun _ => ne_zero_of_mem_allIrqs).2 e

theorem unmaskAllIrq_masked (s : Ioapic) (e : Nat) :
    (unmaskAllIrq s).Masked e ↔ s.Masked e ∧ ¬ Struck s e :=
  (unmaskIrqs_spec allIrqs s fun _ => ne_zero_of_mem_allIrqs).2 e

/-- The legacy irqs are the timer's and the others. -/
theorem forall_legacy {P : BitVec 8 → Prop} :
    (∀ irq : BitVec 8, irq.toNat < numOfIrq → P irq) ↔ P 0 ∧ ∀ irq, Legacy irq → P irq := by
  constructor
  · exact fun h => ⟨h 0 (by decide), fun irq hirq => h irq hirq.2⟩
  · rintro ⟨h₀, h⟩ irq hirq
    rcases Nat.eq_zero_or_pos irq.toNat with hz | hpos
    · rwa [BitVec.eq_of_toNat_eq (y := 0) hz]
    · exact h irq ⟨hpos, hirq⟩

/-- After `mask_all_irq` the timer is masked if it was before. -/
theorem allMasked_iff (s : Ioapic) : AllMasked s ↔ s.SourceMasked .timer ∧
    ∀ irq, Legacy irq → s.Masked (sourceEntry s.ioso irq) ∨ Struck s (sourceEntry s.ioso irq) := by
  have htimer : (maskAllIrq s).lvtTimer = s.lvtTimer :=
    (maskIrqs_spec allIrqs s fun _ => ne_zero_of_mem_allIrqs).1
  rw [AllMasked, forall_legacy]
  refine and_congr ?_ (forall₂_congr fun irq hirq => ?_)
  · rw [sourceOf_zero, Ioapic.SourceMasked, Ioapic.SourceMasked, htimer]
  · rw [sourceOf_ne_zero _ hirq.ne_zero]
    exact maskAllIrq_masked s _

theorem allUnmasked_iff (s : Ioapic) : AllUnmasked s ↔ ¬ s.SourceMasked .timer ∧
    ∀ irq, Legacy irq →
      ¬ s.Masked (sourceEntry s.ioso irq) ∨ Struck s (sourceEntry s.ioso irq) := by
  have htimer : (unmaskAllIrq s).lvtTimer = s.lvtTimer :=
    (unmaskIrqs_spec allIrqs s fun _ => ne_zero_of_mem_allIrqs).1
  rw [AllUnmasked, forall_legacy]
  refine and_congr ?_ (forall₂_congr fun irq hirq => ?_)
  · rw [sourceOf_zero, Ioapic.SourceMasked, Ioapic.SourceMasked, htimer]
  · rw [sourceOf_ne_zero _ hirq.ne_zero]
    have hentry : (unmaskAllIrq s).SourceMasked (.entry (sourceEntry s.ioso irq)) ↔ _ :=
      unmaskAllIrq_masked s _
    rw [hentry, not_and_or, not_not]

/-- **Masking everything** leaves a legacy source as it was, unless an irq of `32 … 47` leads to its
entry. -/
theorem maskingAll_iff (s : Ioapic) :
    (AllMasked s ↔ s.SourceMasked .timer ∧ ∀ irq, Legacy irq →
      s.Masked (sourceEntry s.ioso irq) ∨ Struck s (sourceEntry s.ioso irq)) ∧
    (AllUnmasked s ↔ ¬ s.SourceMasked .timer ∧ ∀ irq, Legacy irq →
      ¬ s.Masked (sourceEntry s.ioso irq) ∨ Struck s (sourceEntry s.ioso irq)) :=
  ⟨allMasked_iff s, allUnmasked_iff s⟩

/-- After a reset, once the keyboard is unmasked, `mask_all_irq` does not mask it: there are no
entries `32 … 47`.  Nor does `unmask_all_irq` unmask the timer. -/
theorem maskingAll_keyboard : ¬ AllMasked (unmaskIrq (bootIoapic resetRegs 0x10000 []) 1) ∧
    ¬ AllUnmasked (unmaskIrq (bootIoapic resetRegs 0x10000 []) 1) := by
  have hne : (1 : BitVec 8) ≠ 0 := by decide
  have hentry : irqEntry (bootIoapic resetRegs 0x10000 []).ioso 1 = 1 := rfl
  rw [unmaskIrq_eq hne, hentry]
  have hframe := unmaskGsi_frame (bootIoapic resetRegs 0x10000 []) 1
  constructor
  · intro hall
    have hone := ((allMasked_iff _).mp hall).2 1 ⟨by decide, by decide⟩
    rw [hframe] at hone
    have hsource : sourceEntry (bootIoapic resetRegs 0x10000 []).ioso 1 = 1 := rfl
    rcases hone with hm | ⟨irq, hmem, hmax, -⟩
    · rw [hsource, ← hframe, unmaskGsi_masked (by decide) (by decide)] at hm
      exact hm.1 rfl
    · have hfar : ∀ irq ∈ allIrqs, 23 < irq.toNat := by decide
      have hmax : irq.toNat ≤ readMaxEntry resetRegs := hmax
      rw [resetRegs_max] at hmax
      exact absurd hmax (Nat.not_le.mpr (hfar irq hmem))
  · intro hall
    have htimer := ((allUnmasked_iff _).mp hall).1
    rw [hframe] at htimer
    exact htimer rfl

end FrazzOS.Devices
