import FrazzOS.Devices.Ioapic
import Mathlib.Data.List.Nodup

/-!
# Devices — routing

Whether `ioapic_init` and `unmask_irq` agree on the entry of an irq: the first maps the overrides
and then the identity entries that no override has taken; the second looks the irq up in the
overrides and falls back to the identity entry.

`Agree`: every entry is masked, and for each of the irqs `1 … 15` the entry that `unmask_irq`
unmasks carries the irq's vector, and no other does.  `routing_iff`: it holds exactly when the
overrides take the identity entries of the irqs that they move and of no others (`Routable`).
-/

namespace FrazzOS.Devices

/-- The entry that `unmask_irq` chooses, for an irq other than `0`. -/
def irqEntry (ioso : List Ioso) (irq : BitVec 8) : Nat :=
  match ioso.find? fun o => o.irq = irq with
  | some o => (o.gsi.setWidth 8).toNat
  | none => irq.toNat

/-- `unmask_irq(irq)` clears the mask of entry `e`. -/
def Unmasks (s : Ioapic) (irq : BitVec 8) (e : Nat) : Prop :=
  e ≤ s.maxRedirectionEntry ∧ s.Masked e ∧ ¬ (unmaskIrq s irq).Masked e

/-- One of the irqs `1 … 15`. -/
def Legacy (irq : BitVec 8) : Prop := 1 ≤ irq.toNat ∧ irq.toNat < numOfIrq

/-- Every entry is masked; and the entry that `unmask_irq` unmasks for a legacy irq carries its
vector, alone. -/
structure Agree (s : Ioapic) : Prop where
  masked : ∀ e, e ≤ s.maxRedirectionEntry → s.Masked e
  unmasks : ∀ irq, Legacy irq → ∃ e, Unmasks s irq e
  carries : ∀ irq e, Legacy irq → Unmasks s irq e → s.vector e = irq + idtExceptions
  only : ∀ irq e e', Legacy irq → Unmasks s irq e → e' ≤ s.maxRedirectionEntry →
    s.vector e' = irq + idtExceptions → e' = e

/-- **When the two agree**: a legacy irq has an override exactly when its identity entry is the gsi
of one, and has one where the I/O APIC has no such entry; and no entry that neither loop maps
carries the vector of a legacy irq. -/
structure Routable (regs : Nat → BitVec 32) (ioso : List Ioso) : Prop where
  displaced : ∀ irq : BitVec 8, Legacy irq → irq.toNat ≤ readMaxEntry regs →
    ((∃ o ∈ ioso, o.irq = irq) ↔ ∃ o ∈ ioso, o.gsi.toNat = irq.toNat)
  beyond : ∀ irq : BitVec 8, Legacy irq → readMaxEntry regs < irq.toNat → ∃ o ∈ ioso, o.irq = irq
  unmapped : ∀ e, numOfIrq ≤ e → e ≤ readMaxEntry regs → (∀ o ∈ ioso, o.gsi.toNat ≠ e) →
    ∀ irq, Legacy irq → (regs (0x10 + 2 * e)).setWidth 8 ≠ irq + idtExceptions

/-! ### The entry that is unmasked -/

theorem Legacy.ne_zero {irq : BitVec 8} (h : Legacy irq) : irq ≠ 0 := by
  rintro rfl
  exact absurd h.1 (by decide)

theorem unmaskIrq_eq {s : Ioapic} {irq : BitVec 8} (h : irq ≠ 0) :
    unmaskIrq s irq = (unmaskGsi s (irqEntry s.ioso irq)).2 := by
  rw [unmaskIrq, if_neg h, irqEntry]
  cases s.ioso.find? fun o => o.irq = irq <;> rfl

/-- With all entries masked, `unmask_irq` unmasks the entry it chooses, if there is one. -/
theorem unmasks_iff {s : Ioapic} (hmasked : ∀ e, e ≤ s.maxRedirectionEntry → s.Masked e)
    (hmax : s.maxRedirectionEntry ≤ lastEntry) {irq : BitVec 8} (h : Legacy irq) {e : Nat} :
    Unmasks s irq e ↔ e = irqEntry s.ioso irq ∧ irqEntry s.ioso irq ≤ s.maxRedirectionEntry := by
  rw [Unmasks, unmaskIrq_eq h.ne_zero]
  by_cases hle : irqEntry s.ioso irq ≤ s.maxRedirectionEntry
  · rw [unmaskGsi_masked hle (Nat.le_trans hle hmax)]
    constructor
    · rintro ⟨-, hm, hno⟩
      exact ⟨by_contra fun hne => hno ⟨hne, hm⟩, hle⟩
    · rintro ⟨rfl, -⟩
      exact ⟨hle, hmasked _ hle, fun hd => hd.1 rfl⟩
  · have hsame : (unmaskGsi s (irqEntry s.ioso irq)).2 = s := by
      rw [unmaskGsi, if_pos (Nat.lt_of_not_le hle)]
    rw [hsame]
    constructor
    · rintro ⟨-, hm, hno⟩
      exact absurd hm hno
    · exact fun hd => absurd hd.2 hle

/-- The entry chosen is the gsi of the irq's override, or the irq's own without one. -/
theorem irqEntry_cases {maxEntry : Nat} {ioso : List Ioso} (h : OverridesOk maxEntry ioso)
    (irq : BitVec 8) :
    (∃ o ∈ ioso, o.irq = irq ∧ irqEntry ioso irq = o.gsi.toNat) ∨
      ((∀ o ∈ ioso, o.irq ≠ irq) ∧ irqEntry ioso irq = irq.toNat) := by
  rw [irqEntry]
  cases hf : ioso.find? fun o => o.irq = irq with
  | some o =>
      have ho := List.mem_of_find?_eq_some hf
      have hirq : o.irq = irq := by simpa using List.find?_some hf
      exact Or.inl ⟨o, ho, hirq, gsi_setWidth (Nat.le_trans (h.gsi_le o ho) h.max_le)⟩
  | none => exact Or.inr ⟨by simpa using hf, rfl⟩

/-- An irq has one override. -/
theorem OverridesOk.unique {maxEntry : Nat} {ioso : List Ioso} (h : OverridesOk maxEntry ioso)
    {o o' : Ioso} (ho : o ∈ ioso) (ho' : o' ∈ ioso) (he : o.irq = o'.irq) : o = o' :=
  List.inj_on_of_nodup_map h.irqs ho ho' he

/-! ### The agreement -/

section Init

variable {regs : Nat → BitVec 32} {ioso : List Ioso} {lvtTimer : BitVec 32}

theorem ioapicInit_ioso (lvtTimer : BitVec 32) (h : OverridesOk (readMaxEntry regs) ioso) :
    (ioapicInit regs lvtTimer ioso).ioso = ioso := (ioapicInit_effect lvtTimer h).ioso

theorem ioapicInit_maxEntry (lvtTimer : BitVec 32) (h : OverridesOk (readMaxEntry regs) ioso) :
    (ioapicInit regs lvtTimer ioso).maxRedirectionEntry = readMaxEntry regs :=
  (ioapicInit_effect lvtTimer h).maxEntry

/-- The entry that `unmask_irq` unmasks after `ioapic_init`. -/
theorem unmasks_ioapicInit (h : OverridesOk (readMaxEntry regs) ioso) {irq : BitVec 8}
    (hirq : Legacy irq) {e : Nat} : Unmasks (ioapicInit regs lvtTimer ioso) irq e ↔
      e = irqEntry ioso irq ∧ irqEntry ioso irq ≤ readMaxEntry regs := by
  have hu := unmasks_iff (s := ioapicInit regs lvtTimer ioso)
    (fun e he => ioapicInit_masked lvtTimer h (ioapicInit_maxEntry lvtTimer h ▸ he))
    (ioapicInit_maxEntry lvtTimer h ▸ h.max_le) hirq (e := e)
  rwa [ioapicInit_ioso lvtTimer h, ioapicInit_maxEntry lvtTimer h] at hu

/-- The identity entry of a legacy irq that is no override's gsi. -/
theorem identity_of_legacy {irq : BitVec 8} (hirq : Legacy irq)
    (hno : ∀ o ∈ ioso, o.gsi.toNat ≠ irq.toNat) : Identity ioso irq.toNat := ⟨hirq.2, hno⟩

theorem vector_identity (h : OverridesOk (readMaxEntry regs) ioso) {irq : BitVec 8}
    (hirq : Legacy irq) (hno : ∀ o ∈ ioso, o.gsi.toNat ≠ irq.toNat) :
    (ioapicInit regs lvtTimer ioso).vector irq.toNat = irq + idtExceptions := by
  rw [ioapicInit_identity lvtTimer h (identity_of_legacy hirq hno), BitVec.ofNat_toNat,
    BitVec.setWidth_eq]

/-- **Agreement makes the overrides routable.** -/
theorem routable_of_agree (h : OverridesOk (readMaxEntry regs) ioso)
    (ha : Agree (ioapicInit regs lvtTimer ioso)) : Routable regs ioso := by
  have hmax := ioapicInit_maxEntry lvtTimer h
  refine ⟨fun irq hirq hle => ?_, fun irq hirq hlt => ?_, fun e hge he hno irq hirq hv => ?_⟩
  · obtain ⟨e, he⟩ := ha.unmasks irq hirq
    obtain ⟨rfl, -⟩ := (unmasks_ioapicInit h hirq).mp he
    rcases irqEntry_cases h irq with ⟨o, ho, rfl, hent⟩ | ⟨hnone, hent⟩
    · refine ⟨fun _ => ?_, fun _ => ⟨o, ho, rfl⟩⟩
      -- with its identity entry left to it, the irq's vector stands in two entries
      by_contra hno
      have hno : ∀ o' ∈ ioso, o'.gsi.toNat ≠ o.irq.toNat := fun o' ho' e => hno ⟨o', ho', e⟩
      have heq := ha.only o.irq _ _ hirq he (hmax ▸ hle) (vector_identity h hirq hno)
      exact hno o ho (hent ▸ heq.symm)
    · refine ⟨fun ⟨o, ho, ho'⟩ => absurd ho' (hnone o ho), ?_⟩
      rintro ⟨o, ho, hgsi⟩
      have hv := ha.carries irq _ hirq he
      rw [hent, ← hgsi, ioapicInit_override lvtTimer h ho] at hv
      exact absurd ((BitVec.add_left_inj idtExceptions).mp hv) (hnone o ho)
  · obtain ⟨e, he⟩ := ha.unmasks irq hirq
    obtain ⟨rfl, hle⟩ := (unmasks_ioapicInit h hirq).mp he
    rcases irqEntry_cases h irq with ⟨o, ho, hoirq, -⟩ | ⟨-, hent⟩
    · exact ⟨o, ho, hoirq⟩
    · omega
  · obtain ⟨e', he'⟩ := ha.unmasks irq hirq
    obtain ⟨rfl, -⟩ := (unmasks_ioapicInit h hirq).mp he'
    have heq : e = irqEntry ioso irq := ha.only irq _ _ hirq he' (hmax ▸ he) (by
      rw [ioapicInit_other lvtTimer h hge he hno]
      exact hv)
    rcases irqEntry_cases h irq with ⟨o, ho, -, hent⟩ | ⟨-, hent⟩
    · exact hno o ho (heq ▸ hent.symm)
    · have := hirq.2
      omega

/-- **Routable overrides make the two agree.** -/
theorem agree_of_routable (h : OverridesOk (readMaxEntry regs) ioso) (hr : Routable regs ioso) :
    Agree (ioapicInit regs lvtTimer ioso) := by
  have hmax := ioapicInit_maxEntry lvtTimer h
  -- an irq without an override has its identity entry
  have hplain : ∀ irq, Legacy irq → (∀ o ∈ ioso, o.irq ≠ irq) →
      irq.toNat ≤ readMaxEntry regs ∧ ∀ o ∈ ioso, o.gsi.toNat ≠ irq.toNat := by
    intro irq hirq hnone
    have hle : irq.toNat ≤ readMaxEntry regs := by
      by_contra hlt
      obtain ⟨o, ho, ho'⟩ := hr.beyond irq hirq (by omega)
      exact hnone o ho ho'
    refine ⟨hle, fun o ho hgsi => ?_⟩
    obtain ⟨o', ho', hirq'⟩ := (hr.displaced irq hirq hle).mpr ⟨o, ho, hgsi⟩
    exact hnone o' ho' hirq'
  have hentry : ∀ irq, Legacy irq → irqEntry ioso irq ≤ readMaxEntry regs := by
    intro irq hirq
    rcases irqEntry_cases h irq with ⟨o, ho, -, hent⟩ | ⟨hnone, hent⟩
    · exact hent ▸ h.gsi_le o ho
    · exact hent ▸ (hplain irq hirq hnone).1
  refine ⟨fun e he => ioapicInit_masked lvtTimer h (hmax ▸ he),
    fun irq hirq => ⟨_, (unmasks_ioapicInit h hirq).mpr ⟨rfl, hentry irq hirq⟩⟩,
    fun irq e hirq he => ?_, fun irq e e' hirq he he' hv => ?_⟩
  · obtain ⟨rfl, -⟩ := (unmasks_ioapicInit h hirq).mp he
    rcases irqEntry_cases h irq with ⟨o, ho, rfl, hent⟩ | ⟨hnone, hent⟩
    · rw [hent, ioapicInit_override lvtTimer h ho]
    · rw [hent, vector_identity h hirq (hplain irq hirq hnone).2]
  · obtain ⟨rfl, -⟩ := (unmasks_ioapicInit h hirq).mp he
    rw [hmax] at he'
    by_cases hgsi : ∃ o ∈ ioso, o.gsi.toNat = e'
    · obtain ⟨o, ho, rfl⟩ := hgsi
      rw [ioapicInit_override lvtTimer h ho] at hv
      have hoirq := (BitVec.add_left_inj idtExceptions).mp hv
      rcases irqEntry_cases h irq with ⟨o', ho', hirq', hent⟩ | ⟨hnone, -⟩
      · rw [hent, h.unique ho ho' (hoirq.trans hirq'.symm)]
      · exact absurd hoirq (hnone o ho)
    · have hno : ∀ o ∈ ioso, o.gsi.toNat ≠ e' := fun o ho e => hgsi ⟨o, ho, e⟩
      by_cases hlt : e' < numOfIrq
      · rw [ioapicInit_identity lvtTimer h ⟨hlt, hno⟩] at hv
        have heq : e' = irq.toNat := by
          have := congrArg BitVec.toNat ((BitVec.add_left_inj idtExceptions).mp hv)
          rw [BitVec.toNat_ofNat] at this
          unfold numOfIrq at hlt
          omega
        subst heq
        rcases irqEntry_cases h irq with ⟨o, ho, hoirq, -⟩ | ⟨-, hent⟩
        · obtain ⟨o', ho', hgsi'⟩ := (hr.displaced irq hirq he').mp ⟨o, ho, hoirq⟩
          exact absurd hgsi' (hno o' ho')
        · exact hent.symm
      · rw [ioapicInit_other lvtTimer h (Nat.le_of_not_lt hlt) he' hno] at hv
        exact absurd hv (hr.unmapped e' (Nat.le_of_not_lt hlt) he' hno irq hirq)

/-- **IRQ routing agreement**: `ioapic_init` and `unmask_irq` agree exactly on routable
overrides. -/
theorem routing_iff (lvtTimer : BitVec 32) (h : OverridesOk (readMaxEntry regs) ioso) :
    Agree (ioapicInit regs lvtTimer ioso) ↔ Routable regs ioso :=
  ⟨routable_of_agree h, agree_of_routable h⟩

end Init

/-- An I/O APIC with the entries `0 … 23`, all masked, with no vector. -/
def resetRegs (reg : Nat) : BitVec 32 := if reg = ioapicver then 0x170011 else 0x10000

theorem resetRegs_max : readMaxEntry resetRegs = 23 := by decide

/-- Irqs 3 and 4 swapped: their entries are agreed on. -/
theorem routing_swapped : Agree (ioapicInit resetRegs 0x10000 [⟨3, 4⟩, ⟨4, 3⟩]) := by
  have hok : OverridesOk (readMaxEntry resetRegs) [⟨3, 4⟩, ⟨4, 3⟩] := by
    rw [resetRegs_max]
    exact ⟨by decide, by decide, by decide, by decide, by decide⟩
  refine (routing_iff 0x10000 hok).mpr ⟨fun irq _ _ => ?_, fun irq hirq hlt => ?_,
    fun e hge _ _ irq hirq hv => ?_⟩
  · have hirqs : (∃ o ∈ [(⟨3, 4⟩ : Ioso), ⟨4, 3⟩], o.irq = irq) ↔
        irq.toNat = 3 ∨ irq.toNat = 4 := by
      simp [← BitVec.toNat_inj, eq_comm]
    rw [hirqs]
    simp [eq_comm, or_comm]
  · have := hirq.2
    rw [resetRegs_max] at hlt
    unfold numOfIrq at this
    omega
  · have hreg : resetRegs (0x10 + 2 * e) = 0x10000 := if_neg (by unfold ioapicver; omega)
    have hval := congrArg BitVec.toNat hv
    have hlt := hirq.2
    rw [hreg, BitVec.toNat_add] at hval
    unfold numOfIrq at hlt
    have h32 : idtExceptions.toNat = 32 := rfl
    have hzero : ((0x10000 : BitVec 32).setWidth 8).toNat = 0 := by decide
    omega

/-- The timer's override, irq 0 at gsi 2: entry 2 carries the timer's vector, and `unmask_irq(2)`
unmasks it. -/
theorem routing_timer_override : OverridesOk (readMaxEntry resetRegs) [⟨0, 2⟩] ∧
    ¬ Agree (ioapicInit resetRegs 0x10000 [⟨0, 2⟩]) := by
  have hok : OverridesOk (readMaxEntry resetRegs) [⟨0, 2⟩] := by
    rw [resetRegs_max]
    exact ⟨by decide, by decide, by decide, by decide, by decide⟩
  refine ⟨hok, fun ha => ?_⟩
  have hmem := ((routable_of_agree hok ha).displaced 2 ⟨by decide, by decide⟩
    (by rw [resetRegs_max]; decide)).mpr ⟨⟨0, 2⟩, List.mem_singleton.mpr rfl, rfl⟩
  obtain ⟨o, ho, hirq⟩ := hmem
  obtain rfl := List.mem_singleton.mp ho
  exact absurd hirq (by decide)

end FrazzOS.Devices
