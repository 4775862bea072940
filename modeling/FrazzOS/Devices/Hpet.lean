import FrazzOS.Support.Loops
import Mathlib.Algebra.Order.Ring.Nat
import Mathlib.Tactic.Common

/-!
# Devices — Hpet

The loops of `devices/hpet.c` that wait for a time, `usleep` and `wait_10ms`.  Both sides of their
comparison are 64-bit products in femtoseconds.

The time waited for can wrap, and so can the time that has passed.  `KeepsDeadline` says of a
request and a period that no counter value in front of the deadline passes the wrapped comparison:
in each round of `2⁶⁴` femtoseconds before it, the last multiple of the period comes in front of the
wrapped time.

* `waitUntil_eq_some`: where the loops end.
* `usleep_never_early_iff`: `usleep` never returns early just where `KeepsDeadline` holds.
* `wait10ms_never_early`: `wait_10ms` never does.
-/

namespace FrazzOS.Devices

open Loops

/-- The values that the main counter is read with, after it was reset. -/
structure MainCounter where
  reading : Nat → BitVec 64
  start : reading 0 = 0
  mono : ∀ i j, i ≤ j → reading i ≤ reading j

/-- `FEMTOSECONDS_PER_MICROSECOND`. -/
def femtosecondsPerMicrosecond : BitVec 64 := 1000000000

/-- `poll_time_hpet_timer`, at a value of the main counter. -/
def pollTimeHpetTimer (femtoPerTick : BitVec 32) (mainCounter : BitVec 64) : BitVec 64 :=
  mainCounter * femtoPerTick.setWidth 64

/-- `while (poll_time_hpet_timer() < time) {}`: the counter value that ends it. -/
def waitUntil (femtoPerTick : BitVec 32) (time : BitVec 64) (counter : MainCounter) (fuel : Nat) :
    Option (BitVec 64) :=
  (poll (fun c => decide (¬ pollTimeHpetTimer femtoPerTick c < time)) counter.reading fuel 0).map
    counter.reading

def wait10ms (femtoPerTick : BitVec 32) : MainCounter → Nat → Option (BitVec 64) :=
  waitUntil femtoPerTick (femtosecondsPerMicrosecond * 10000)

def usleep (femtoPerTick : BitVec 32) (ms : BitVec 64) : MainCounter → Nat → Option (BitVec 64) :=
  waitUntil femtoPerTick (femtosecondsPerMicrosecond * ms)

/-- The request is below `2⁶⁴` femtoseconds, or in every round of `2⁶⁴` in front of the deadline
that the counter reaches, the period has no multiple from the wrapped time on. -/
def KeepsDeadline (femtoPerTick ms : Nat) : Prop :=
  1000000000 * ms < 18446744073709551616 ∨
    ∀ k, k < 1000000000 * ms / 18446744073709551616 → k < femtoPerTick →
      18446744073709551616 - 1000000000 * ms % 18446744073709551616 ≤
        (18446744073709551616 * (k + 1) - 1) % femtoPerTick

/-- `usleep` waits as long as it was asked to, however the counter runs. -/
def NeverEarly (femtoPerTick : BitVec 32) (ms : BitVec 64) : Prop :=
  ∀ counter fuel c, usleep femtoPerTick ms counter fuel = some c →
    1000000000 * ms.toNat ≤ c.toNat * femtoPerTick.toNat

variable {femtoPerTick : BitVec 32} {time c : BitVec 64} {counter : MainCounter} {fuel : Nat}

/-- The time at a counter value, as it is computed. -/
theorem toNat_pollTime (femtoPerTick : BitVec 32) (c : BitVec 64) :
    (pollTimeHpetTimer femtoPerTick c).toNat =
      c.toNat * femtoPerTick.toNat % 18446744073709551616 := by
  have := femtoPerTick.isLt
  rw [pollTimeHpetTimer, BitVec.toNat_mul, BitVec.toNat_setWidth,
    Nat.mod_eq_of_lt (show femtoPerTick.toNat < 2 ^ 64 by omega)]

/-- The time asked for, as it is computed. -/
theorem toNat_request (ms : BitVec 64) : (femtosecondsPerMicrosecond * ms).toNat =
    1000000000 * ms.toNat % 18446744073709551616 := by
  rw [BitVec.toNat_mul]
  rfl

/-- **Where the loops end**: at the first counter value whose time is not below the one asked
for. -/
theorem waitUntil_eq_some : waitUntil femtoPerTick time counter fuel = some c ↔
    ∃ k, First (fun c => decide (¬ pollTimeHpetTimer femtoPerTick c < time)) counter.reading 0 k ∧
      k < fuel ∧ counter.reading k = c := by
  rw [waitUntil, Option.map_eq_some_iff]
  simp only [poll_eq_some_iff, Nat.zero_add, and_assoc]

theorem le_of_waitUntil (h : waitUntil femtoPerTick time counter fuel = some c) :
    time.toNat ≤ c.toNat * femtoPerTick.toNat % 18446744073709551616 := by
  obtain ⟨k, hk, -, rfl⟩ := waitUntil_eq_some.mp h
  have hready := of_decide_eq_true hk.at_end
  rw [BitVec.not_lt, BitVec.le_def, toNat_pollTime] at hready
  exact hready

/-- A counter that stands at `c` from the second reading on. -/
def jump (c : BitVec 64) : MainCounter where
  reading i := if i = 0 then 0 else c
  start := rfl
  mono i j h := by
    rw [BitVec.le_def]
    split <;> split
    · exact Nat.le_refl _
    · exact Nat.zero_le _
    · omega
    · exact Nat.le_refl _

/-- What such a counter ends a loop with, at the second reading at the latest. -/
theorem waitUntil_jump (h : time.toNat ≤ c.toNat * femtoPerTick.toNat % 18446744073709551616) :
    ∃ c', waitUntil femtoPerTick time (jump c) 2 = some c' ∧ c' ≤ c := by
  have hready : decide (¬ pollTimeHpetTimer femtoPerTick ((jump c).reading 1) < time) = true := by
    rw [decide_eq_true_eq, BitVec.not_lt, BitVec.le_def, toNat_pollTime]
    exact h
  obtain ⟨k, hk, hk₁⟩ := exists_first
    (fun c => decide (¬ pollTimeHpetTimer femtoPerTick c < time)) (Nat.zero_le 1) hready
  refine ⟨(jump c).reading k, waitUntil_eq_some.mpr ⟨k, hk, by omega, rfl⟩, ?_⟩
  rw [BitVec.le_def]
  unfold jump
  dsimp only
  split
  · exact Nat.zero_le _
  · exact Nat.le_refl _

/-! ### The deadline -/

section Deadline

variable {f c k : Nat}

/-- In a round whose last multiple of the period is in front of the wrapped time `t`, no multiple
passes. -/
theorem mod_lt_of_round {t : Nat} (hf : 0 < f) (ht : t < 18446744073709551616)
    (hround : c * f / 18446744073709551616 = k)
    (h : 18446744073709551616 - t ≤ (18446744073709551616 * (k + 1) - 1) % f) :
    c * f % 18446744073709551616 < t := by
  have hle : c ≤ (18446744073709551616 * (k + 1) - 1) / f := by
    rw [Nat.le_div_iff_mul_le hf]
    omega
  have hlast := Nat.mul_le_mul_right f hle
  have hsplit := Nat.div_add_mod' (18446744073709551616 * (k + 1) - 1) f
  omega

/-- Otherwise the last multiple in it passes. -/
theorem le_mod_of_round {t : Nat} (hf : 0 < f) (hk : k < f)
    (h : (18446744073709551616 * (k + 1) - 1) % f < 18446744073709551616 - t) :
    ∃ c, c < 18446744073709551616 ∧ c * f / 18446744073709551616 = k ∧
      t ≤ c * f % 18446744073709551616 := by
  have hround : 18446744073709551616 * (k + 1) ≤ 18446744073709551616 * f :=
    Nat.mul_le_mul_left _ hk
  have hsplit := Nat.div_add_mod' (18446744073709551616 * (k + 1) - 1) f
  refine ⟨(18446744073709551616 * (k + 1) - 1) / f, ?_, by omega, by omega⟩
  rw [Nat.div_lt_iff_lt_mul hf]
  omega

/-- **The condition**: each counter value that passes the wrapped comparison is behind the
deadline. -/
theorem keepsDeadline_iff {ms : Nat} (hf : 0 < f) : KeepsDeadline f ms ↔
    ∀ c, c < 18446744073709551616 →
      1000000000 * ms % 18446744073709551616 ≤ c * f % 18446744073709551616 →
      1000000000 * ms ≤ c * f := by
  unfold KeepsDeadline
  generalize 1000000000 * ms = t
  constructor
  · intro h c hc hpass
    by_contra hlt
    rcases h with hsmall | hrounds
    · omega
    · have hmul : c * f < 18446744073709551616 * f := Nat.mul_lt_mul_of_pos_right hc hf
      have hround := mod_lt_of_round (t := t % 18446744073709551616) hf
        (Nat.mod_lt _ (by decide)) rfl
        (hrounds (c * f / 18446744073709551616) (by omega) (by omega))
      omega
  · intro h
    by_cases hsmall : t < 18446744073709551616
    · exact Or.inl hsmall
    · refine Or.inr fun k hk hkf => ?_
      by_contra hlt
      obtain ⟨c, hc, hround, hpass⟩ := le_mod_of_round (t := t % 18446744073709551616) hf hkf
        (by omega)
      have := h c hc hpass
      omega

end Deadline

/-- **When `usleep` never returns early**: just where the request keeps its deadline. -/
theorem usleep_never_early_iff (femtoPerTick : BitVec 32) (ms : BitVec 64)
    (hf : 1 ≤ femtoPerTick.toNat) :
    NeverEarly femtoPerTick ms ↔ KeepsDeadline femtoPerTick.toNat ms.toNat := by
  rw [keepsDeadline_iff hf]
  constructor
  · intro h c hc hpass
    have htoNat : (BitVec.ofNat 64 c).toNat = c := Nat.mod_eq_of_lt hc
    have hjump : (femtosecondsPerMicrosecond * ms).toNat ≤
        (BitVec.ofNat 64 c).toNat * femtoPerTick.toNat % 18446744073709551616 := by
      rw [toNat_request, htoNat]
      exact hpass
    obtain ⟨c', hret, hle⟩ := waitUntil_jump hjump
    rw [BitVec.le_def, htoNat] at hle
    exact Nat.le_trans (h _ _ _ hret) (Nat.mul_le_mul_right _ hle)
  · intro h counter fuel c hret
    refine h _ c.isLt ?_
    rw [← toNat_request]
    exact le_of_waitUntil hret

/-- A request of one second, at a period of 10 nanoseconds. -/
theorem usleep_never_early_second : 1 ≤ (10000000 : BitVec 32).toNat ∧
    (NeverEarly 10000000 1000000 ↔ KeepsDeadline 10000000 1000000) :=
  ⟨by decide, usleep_never_early_iff 10000000 1000000 (by decide)⟩

/-- The shortest request that wraps: it ends after 30 ticks of 10 nanoseconds. -/
theorem usleep_early : ¬ NeverEarly 10000000 18446744074 := by
  intro h
  have := h (jump 30) 2 30 (by decide)
  revert this
  decide

/-- `wait_10ms` never returns early. -/
theorem wait10ms_never_early (h : wait10ms femtoPerTick counter fuel = some c) :
    10000000000000 ≤ c.toNat * femtoPerTick.toNat := by
  have hle := le_of_waitUntil h
  rw [toNat_request] at hle
  have : (10000 : BitVec 64).toNat = 10000 := rfl
  omega

end FrazzOS.Devices
