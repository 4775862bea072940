import FrazzOS.Devices.Hpet
import FrazzOS.Devices.Ioapic
import Mathlib.Algebra.Order.Floor.Semifield
import Mathlib.Data.Rat.Floor
import Mathlib.Tactic.NormNum

/-!
# Devices — Timer

`devices/timer.c`: the timer of the local APIC counts down while the HPET measures 10 ms, and what
it has counted becomes its period.  `f` is the number of bus cycles in a femtosecond, and the timer
counts one in `divisor` of them.

The count is taken at the divisor that the firmware left, and programmed at the divisor 16.

* `apicTimerInit_eq`: the registers that `apic_timer_init` leaves.
* `calibrated_iff`: the period is the time measured, up to one count, just where the two divisors
  are the same, or where hardly a cycle passes.
-/

namespace FrazzOS.Devices

/-- `APIC_TIMER_INTERVAL`. -/
def apicTimerInterval : BitVec 64 := 10000

/-- `MAX_INIT_COUNT_VAL`. -/
def maxInitCountVal : BitVec 32 := 0xffffffff

/-- `TIMER_PERIODIC_MODE`. -/
def timerPeriodicMode : BitVec 32 := 0x20000

/-- The registers that the timer is set up with; its entry of the vector table is among those of
`Ioapic`. -/
structure ApicTimer where
  ioapic : Ioapic
  initCount : BitVec 32
  divideConfig : BitVec 32

/-- What the bits 3, 1 and 0 of the divide-configuration register stand for. -/
def divisor (divideConfig : BitVec 32) : Nat :=
  match divideConfig.getLsbD 3, divideConfig.getLsbD 1, divideConfig.getLsbD 0 with
  | false, false, false => 2
  | false, false, true  => 4
  | false, true,  false => 8
  | false, true,  true  => 16
  | true,  false, false => 32
  | true,  false, true  => 64
  | true,  true,  false => 128
  | true,  true,  true  => 1

/-- `reset_apic_timer`. -/
def resetApicTimer (s : ApicTimer) : ApicTimer := { s with initCount := maxInitCountVal }

/-- The last three writes of `apic_timer_init`. -/
def startApicTimer (s : ApicTimer) (apicTicks10ms : BitVec 64) : ApicTimer where
  ioapic := { s.ioapic with
    lvtTimer := s.ioapic.lvtTimer ||| (idtExceptions.setWidth 32 ||| timerPeriodicMode) }
  divideConfig := 0x03
  initCount := apicTicks10ms.setWidth 32

theorem divisor_startApicTimer (s : ApicTimer) (n : BitVec 64) :
    divisor (startApicTimer s n).divideConfig = 16 := by
  have : divisor 0x03 = 16 := by decide
  exact this

/-- The bus cycles in whose number the two counts differ by more than one, from there on. -/
def apart : Nat → Nat
  | 1 => 2
  | 2 => 4
  | 4 => 8
  | 8 => 24
  | 32 => 48
  | _ => 32

section Bus

variable {K : Type*} [Field K] [LinearOrder K] [FloorSemiring K]

/-- What the timer counts in `t` femtoseconds. -/
def counted (f : K) (t d : Nat) : Nat := ⌊f * t / d⌋₊

/-- The current-count register, `t` femtoseconds after the initial one was written. -/
def currentCount (f : K) (t : Nat) (s : ApicTimer) : BitVec 32 :=
  BitVec.ofNat 32 (s.initCount.toNat - counted f t (divisor s.divideConfig))

/-- `apic_timer_init`. -/
def apicTimerInit (f : K) (femtoPerTick : BitVec 32) (counter : MainCounter) (fuel : Nat)
    (s : ApicTimer) : Option ApicTimer := do
  let s := resetApicTimer s
  let c ← waitUntil femtoPerTick (femtosecondsPerMicrosecond * apicTimerInterval) counter fuel
  let s := { s with ioapic := maskIrq s.ioapic 0 }
  let apicTicks10ms := maxInitCountVal.setWidth 64 -
    (currentCount f (c.toNat * femtoPerTick.toNat) s).setWidth 64
  return startApicTimer s apicTicks10ms

/-- The period is what the timer counts in `t` femtoseconds, up to one count. -/
def Calibrated (f : K) (t : Nat) (s : ApicTimer) : Prop :=
  s.initCount.toNat ≤ counted f t (divisor s.divideConfig) + 1 ∧
    counted f t (divisor s.divideConfig) ≤ s.initCount.toNat + 1

variable {f : K} {t d : Nat} {femtoPerTick : BitVec 32} {counter : MainCounter} {fuel : Nat}
  {s s' : ApicTimer} {c : BitVec 64}

theorem divisor_cases (r : BitVec 32) :
    divisor r = 1 ∨ divisor r = 2 ∨ divisor r = 4 ∨ divisor r = 8 ∨ divisor r = 16 ∨
      divisor r = 32 ∨ divisor r = 64 ∨ divisor r = 128 := by
  unfold divisor
  split <;> simp

/-- What has been counted, from the count that is left. -/
theorem toNat_ticks {n : Nat} (h : n ≤ maxInitCountVal.toNat) :
    ((maxInitCountVal.setWidth 64 -
      (BitVec.ofNat 32 (maxInitCountVal.toNat - n)).setWidth 64).setWidth 32).toNat = n := by
  have hmax : maxInitCountVal.toNat = 4294967295 := by decide
  rw [hmax] at h
  rw [BitVec.toNat_setWidth, BitVec.toNat_sub, BitVec.toNat_setWidth, BitVec.toNat_setWidth,
    BitVec.toNat_ofNat, hmax]
  omega

/-- **What `apic_timer_init` leaves**: the count taken at the old divisor, and the divisor 16. -/
theorem apicTimerInit_eq
    (hwait : waitUntil femtoPerTick (femtosecondsPerMicrosecond * apicTimerInterval) counter fuel =
      some c)
    (hunder : counted f (c.toNat * femtoPerTick.toNat) (divisor s.divideConfig) ≤
      maxInitCountVal.toNat) :
    ∃ s', apicTimerInit f femtoPerTick counter fuel s = some s' ∧
      s'.initCount.toNat = counted f (c.toNat * femtoPerTick.toNat) (divisor s.divideConfig) ∧
      divisor s'.divideConfig = 16 := by
  refine ⟨_, by rw [apicTimerInit, hwait]; rfl, ?_, divisor_startApicTimer _ _⟩
  exact toNat_ticks hunder

variable [IsStrictOrderedRing K]

theorem counted_eq (f : K) (t d : Nat) : counted f t d = ⌊f * t⌋₊ / d :=
  Nat.floor_div_natCast _ _

/-- Two counts of the same cycles. -/
theorem counts_close_iff {n : Nat} (hd : d = 1 ∨ d = 2 ∨ d = 4 ∨ d = 8 ∨ d = 16 ∨ d = 32 ∨
    d = 64 ∨ d = 128) :
    n / d ≤ n / 16 + 1 ∧ n / 16 ≤ n / d + 1 ↔ d = 16 ∨ n < apart d := by
  by_cases h16 : d = 16
  · subst h16
    exact iff_of_true ⟨Nat.le_succ _, Nat.le_succ _⟩ (Or.inl rfl)
  · rw [or_iff_right h16]
    rcases hd with rfl | rfl | rfl | rfl | rfl | rfl | rfl | rfl <;> simp only [apart] <;> omega

theorem apart_ne_zero (d : Nat) : apart d ≠ 0 := by
  unfold apart
  split <;> decide

/-- A count taken at a divisor and programmed at 16. -/
theorem calibrated_iff_of_eq (hcount : s'.initCount.toNat = counted f t (divisor s.divideConfig))
    (hdiv : divisor s'.divideConfig = 16) :
    Calibrated f t s' ↔ divisor s.divideConfig = 16 ∨ f * t < apart (divisor s.divideConfig) := by
  rw [Calibrated, hcount, hdiv, counted_eq, counted_eq, counts_close_iff (divisor_cases _),
    Nat.floor_lt' (apart_ne_zero _)]

/-- **When the timer is calibrated**: just where the firmware left the divisor 16, or where so few
cycles pass that the two counts are as good as the same. -/
theorem calibrated_iff (f : K) (femtoPerTick : BitVec 32) (counter : MainCounter) (fuel : Nat)
    (s : ApicTimer) (c : BitVec 64)
    (hwait : waitUntil femtoPerTick (femtosecondsPerMicrosecond * apicTimerInterval) counter fuel =
      some c)
    (hunder : counted f (c.toNat * femtoPerTick.toNat) (divisor s.divideConfig) ≤
      maxInitCountVal.toNat) :
    ∃ s', apicTimerInit f femtoPerTick counter fuel s = some s' ∧
      (Calibrated f (c.toNat * femtoPerTick.toNat) s' ↔ divisor s.divideConfig = 16 ∨
        f * (c.toNat * femtoPerTick.toNat : Nat) < apart (divisor s.divideConfig)) := by
  obtain ⟨s', hrun, hcount, hdiv⟩ := apicTimerInit_eq hwait hunder
  exact ⟨s', hrun, calibrated_iff_of_eq hcount hdiv⟩

end Bus

/-- The timer as it comes out of a reset. -/
def resetTimer : ApicTimer where
  ioapic := bootIoapic (fun _ => 0) 0x10000 []
  initCount := 0
  divideConfig := 0

theorem waitUntil_jump_million : waitUntil 10000000 (femtosecondsPerMicrosecond * apicTimerInterval)
    (jump 1000000) 2 = some 1000000 := by decide

/-- On a bus of 100 MHz a million cycles pass in the 10 ms. -/
theorem cycles_million : (1 / 10000000 : ℚ) *
    ((1000000 : BitVec 64).toNat * (10000000 : BitVec 32).toNat : Nat) = 1000000 := by
  rw [show (1000000 : BitVec 64).toNat * (10000000 : BitVec 32).toNat = 10000000000000 by decide]
  norm_num

theorem counted_million (d : Nat) : counted (1 / 10000000 : ℚ)
    ((1000000 : BitVec 64).toNat * (10000000 : BitVec 32).toNat) d = 1000000 / d := by
  rw [counted_eq, cycles_million, Nat.floor_ofNat]

/-- The divisor 2 of a reset: a period of 80 ms. -/
theorem resetTimer_not_calibrated :
    ∃ s', apicTimerInit (1 / 10000000 : ℚ) 10000000 (jump 1000000) 2 resetTimer = some s' ∧
      ¬ Calibrated (1 / 10000000 : ℚ)
        ((1000000 : BitVec 64).toNat * (10000000 : BitVec 32).toNat) s' := by
  have hdiv : divisor resetTimer.divideConfig = 2 := by decide
  obtain ⟨s', hrun, hcount, hdiv'⟩ := apicTimerInit_eq (f := (1 / 10000000 : ℚ)) (s := resetTimer)
    waitUntil_jump_million (by rw [counted_million, hdiv]; decide)
  refine ⟨s', hrun, fun h => ?_⟩
  rw [calibrated_iff_of_eq hcount hdiv', hdiv, cycles_million] at h
  norm_num [apart] at h

/-- The case of a reset as an instance. -/
theorem calibrated_iff_resetTimer :
    ∃ s', apicTimerInit (1 / 10000000 : ℚ) 10000000 (jump 1000000) 2 resetTimer = some s' ∧
      (Calibrated (1 / 10000000 : ℚ)
          ((1000000 : BitVec 64).toNat * (10000000 : BitVec 32).toNat) s' ↔
        divisor resetTimer.divideConfig = 16 ∨ (1 / 10000000 : ℚ) *
            ((1000000 : BitVec 64).toNat * (10000000 : BitVec 32).toNat : Nat) <
          apart (divisor resetTimer.divideConfig)) :=
  calibrated_iff _ _ _ _ _ _ waitUntil_jump_million (by
    rw [counted_million, show divisor resetTimer.divideConfig = 2 by decide]
    decide)

end FrazzOS.Devices
