import FrazzOS.Support.CInt
import FrazzOS.Support.Runs
import Mathlib.Data.Finset.Card
import Mathlib.Order.Interval.Finset.Nat

/-!
# Smp — Startup

The start of the application processors: `smp_init` sets `ap_done`, releases the processors one
after the other into `ap_entry_point`, and waits; each processor decrements `ap_done` under
`ap_done_lock`, by a load and a store.  A run interleaves their steps in any order.

`ap_startup_iff`: one processor at a time is between `lock` and `unlock`, `ap_done` counts the
processors that have not stored, and `smp_init` leaves its loop when there are none, for as many
processors as an `int` can count.
-/

namespace FrazzOS.Smp
open CInt Runs

/-- Where a processor is in `ap_entry_point`; parked until its `goto_address` is set. -/
inductive ApLocation where
  | parked
  | lock
  | load
  | store (loaded : Int)
  | unlock
  | halt
  deriving DecidableEq

/-- Where `smp_init` is: in round `i` of its loop, in the wait loop, or behind it. -/
inductive InitLocation where
  | boot (i : Nat)
  | wait
  | done
  deriving DecidableEq

structure SmpState where
  apDoneLock : Bool
  apDone : Int
  smpInit : InitLocation
  ap : Nat → ApLocation

/-- `smp_init` up to its loop: `ap_done = cpu_count - 1`. -/
def start (cpuCount : BitVec 64) : SmpState where
  apDoneLock := false
  apDone := toInt32 (cpuCount - 1).toNat
  smpInit := .boot 1
  ap := fun _ => .parked

/-- A step of `smp_init`. -/
def smpInit (cpuCount : BitVec 64) (s : SmpState) : SmpState :=
  match s.smpInit with
  | .boot i =>
      if (i : Int) < toInt32 cpuCount.toNat then
        { s with smpInit := .boot (i + 1), ap := Function.update s.ap i .lock }
      else { s with smpInit := .wait }
  | .wait => if 0 < s.apDone then s else { s with smpInit := .done }
  | .done => s

/-- A step of processor `i`. -/
def apEntryPoint (s : SmpState) (i : Nat) : SmpState :=
  match s.ap i with
  | .parked => s
  | .lock =>
      -- `atomic_flag_test_and_set_explicit`, which spins while the flag is set
      if s.apDoneLock then s
      else { s with apDoneLock := true, ap := Function.update s.ap i .load }
  | .load => { s with ap := Function.update s.ap i (.store s.apDone) }
  | .store loaded =>
      { s with apDone := toInt32 (loaded - 1), ap := Function.update s.ap i .unlock }
  | .unlock => { s with apDoneLock := false, ap := Function.update s.ap i .halt }
  | .halt => s

/-- Who takes a step. -/
inductive Actor where
  | init
  | ap (i : Nat)

def next (cpuCount : BitVec 64) (s : SmpState) : Actor → SmpState
  | .init => smpInit cpuCount s
  | .ap i => apEntryPoint s i

def Step (cpuCount : BitVec 64) (s : SmpState) (a : Actor) (s' : SmpState) : Prop :=
  s' = next cpuCount s a

/-! ### What a start-up should keep -/

/-- Between `lock` and `unlock`. -/
def Inside : ApLocation → Prop
  | .load | .store _ | .unlock => True
  | _ => False

/-- Behind the store of the decremented counter. -/
def Stored (l : ApLocation) : Prop := l = .unlock ∨ l = .halt

instance (l : ApLocation) : Decidable (Stored l) := inferInstanceAs (Decidable (_ ∨ _))

/-- The processors that `smp_init` releases. -/
def aps (cpuCount : BitVec 64) : Finset Nat := Finset.Ico 1 cpuCount.toNat

/-- The processors that have completed their store. -/
def stored (cpuCount : BitVec 64) (ap : Nat → ApLocation) : Finset Nat :=
  (aps cpuCount).filter fun i => Stored (ap i)

/-- One processor at a time holds the lock, `ap_done` counts those that have not stored, and
`smp_init` waits for all of them. -/
structure StartedUp (cpuCount : BitVec 64) (s : SmpState) : Prop where
  exclusive : ∀ i j, Inside (s.ap i) → Inside (s.ap j) → i = j
  counter : s.apDone = (cpuCount.toNat : Int) - 1 - (stored cpuCount s.ap).card
  left : s.smpInit = .done → ∀ i ∈ aps cpuCount, Stored (s.ap i)

/-! ### The invariant -/

/-- What holds between any two steps. -/
structure Inv (cpuCount : BitVec 64) (s : SmpState) : Prop extends StartedUp cpuCount s where
  locked : ∀ i, Inside (s.ap i) → s.apDoneLock = true
  loaded : ∀ i v, s.ap i = .store v → v = s.apDone
  released : ∀ i, s.ap i ≠ .parked → i ∈ aps cpuCount
  parked : ∀ k, s.smpInit = .boot k → 1 ≤ k ∧ ∀ i, k ≤ i → s.ap i = .parked

variable {cpuCount : BitVec 64} {s s' : SmpState} {ap : Nat → ApLocation} {i : Nat}
  {l : ApLocation}

theorem stored_update (h : Stored l ↔ Stored (ap i)) :
    stored cpuCount (Function.update ap i l) = stored cpuCount ap := by
  refine Finset.filter_congr fun j _ => ?_
  by_cases hj : j = i
  · subst hj
    rw [Function.update_self, h]
  · rw [Function.update_of_ne hj]

/-- One more processor has stored. -/
theorem card_stored_succ (hi : i ∈ aps cpuCount) (h : ¬ Stored (ap i)) (hl : Stored l) :
    (stored cpuCount (Function.update ap i l)).card = (stored cpuCount ap).card + 1 := by
  have hins : stored cpuCount (Function.update ap i l) = insert i (stored cpuCount ap) := by
    ext j
    rw [Finset.mem_insert, stored, stored, Finset.mem_filter, Finset.mem_filter]
    by_cases hj : j = i
    · subst hj
      rw [Function.update_self]
      exact ⟨fun _ => Or.inl rfl, fun _ => ⟨hi, hl⟩⟩
    · rw [Function.update_of_ne hj]
      exact ⟨Or.inr, fun h => h.resolve_left hj⟩
  have hnot : i ∉ stored cpuCount ap := fun hmem => h (Finset.mem_filter.mp hmem).2
  rw [hins, Finset.card_insert_of_notMem hnot]

theorem card_stored_le : (stored cpuCount ap).card ≤ cpuCount.toNat - 1 := by
  rw [← Nat.card_Ico]
  exact Finset.card_filter_le _ _

/-- While a processor has not stored, the counter is positive. -/
theorem Inv.pos (h : Inv cpuCount s) (hi : s.ap i ≠ .parked) (hs : ¬ Stored (s.ap i)) :
    0 < s.apDone := by
  have hmem := h.released i hi
  have hcard := @card_stored_succ _ _ _ .halt hmem hs (Or.inr rfl)
  have hle := @card_stored_le cpuCount (Function.update s.ap i .halt)
  have hpos : 1 < cpuCount.toNat := by
    obtain ⟨h₀, h₁⟩ := Finset.mem_Ico.mp hmem
    omega
  rw [h.counter]
  omega

theorem stored_start : stored cpuCount (start cpuCount).ap = ∅ :=
  Finset.filter_false_of_mem fun i _ h => by
    rcases h with h | h <;> exact ApLocation.noConfusion h

theorem inv_start (hc : cpuCount.toNat ≤ 2147483648) : Inv cpuCount (start cpuCount) := by
  have hcounter : (start cpuCount).apDone = (cpuCount.toNat : Int) - 1 := by
    rw [start]
    by_cases hz : cpuCount = 0
    · subst hz
      decide
    · have hpos : 0 < cpuCount.toNat :=
        Nat.pos_of_ne_zero fun h => hz (BitVec.eq_of_toNat_eq h)
      have hsub : (cpuCount - 1).toNat = cpuCount.toNat - 1 := by
        have hone : (1 : BitVec 64).toNat = 1 := rfl
        rw [BitVec.toNat_sub_of_le (BitVec.le_def.mpr (by omega)), hone]
      simp only [hsub]
      rw [toInt32_of_range (by omega) (by omega)]
      omega
  exact {
    exclusive := fun _ _ h => h.elim
    counter := by rw [hcounter, stored_start, Finset.card_empty]; omega
    left := fun h => InitLocation.noConfusion h
    locked := fun _ h => h.elim
    loaded := fun _ _ h => ApLocation.noConfusion h
    released := fun _ h => absurd rfl h
    parked := fun k h => ⟨Nat.le_of_eq (InitLocation.boot.inj h), fun _ _ => rfl⟩ }

/-- A step of `smp_init` that releases no processor. -/
theorem Inv.moveInit (h : Inv cpuCount s) {p : InitLocation}
    (hp : ∀ k, p ≠ .boot k) (hleft : p = .done → ∀ i ∈ aps cpuCount, Stored (s.ap i)) :
    Inv cpuCount { s with smpInit := p } where
  exclusive := h.exclusive
  counter := h.counter
  left := hleft
  locked := h.locked
  loaded := h.loaded
  released := h.released
  parked := fun k hk => absurd hk (hp k)

/-- With the counter at zero every processor has stored. -/
theorem Inv.all_stored (h : Inv cpuCount s) (hz : ¬ 0 < s.apDone) :
    ∀ i ∈ aps cpuCount, Stored (s.ap i) := by
  have hcounter := h.counter
  have hcard : (aps cpuCount).card = cpuCount.toNat - 1 := Nat.card_Ico 1 cpuCount.toNat
  have hall : stored cpuCount s.ap = aps cpuCount :=
    Finset.eq_of_subset_of_card_le (Finset.filter_subset _ _) (by rw [hcard]; omega)
  intro i hi
  rw [← hall] at hi
  exact (Finset.mem_filter.mp hi).2

theorem Inv.smpInit_step (hc : cpuCount.toNat ≤ 2147483648) (h : Inv cpuCount s) :
    Inv cpuCount (smpInit cpuCount s) := by
  rw [smpInit]
  cases hp : s.smpInit with
  | boot k =>
      simp only
      split
      · rename_i hk
        obtain ⟨hk₁, hparked⟩ := h.parked k hp
        have hpk := hparked k (Nat.le_refl k)
        have hkc : k < cpuCount.toNat := by
          unfold toInt32 at hk
          split at hk <;> omega
        have hne : ∀ j, Inside (Function.update s.ap k .lock j) → Inside (s.ap j) := fun j hj => by
          by_cases hjk : j = k
          · subst hjk
            rw [Function.update_self] at hj
            exact hj.elim
          · rwa [Function.update_of_ne hjk] at hj
        exact {
          exclusive := fun i j hi hj => h.exclusive i j (hne i hi) (hne j hj)
          counter := by
            simp only
            rw [stored_update, h.counter]
            rw [hpk]
            decide
          left := fun hd => InitLocation.noConfusion hd
          locked := fun i hi => h.locked i (hne i hi)
          loaded := fun i v hi => by
            by_cases hik : i = k
            · subst hik
              simp only [Function.update_self] at hi
              exact ApLocation.noConfusion hi
            · simp only [Function.update_of_ne hik] at hi
              exact h.loaded i v hi
          released := fun i hi => by
            by_cases hik : i = k
            · subst hik
              exact Finset.mem_Ico.mpr ⟨hk₁, hkc⟩
            · simp only [Function.update_of_ne hik] at hi
              exact h.released i hi
          parked := fun k' hk' => by
            obtain rfl := InitLocation.boot.inj hk'
            refine ⟨by omega, fun i hi => ?_⟩
            simp only
            rw [Function.update_of_ne (by omega)]
            exact hparked i (by omega) }
      · exact h.moveInit (fun _ => InitLocation.noConfusion) InitLocation.noConfusion
  | wait =>
      simp only
      split
      · exact h
      · rename_i hz
        exact h.moveInit (fun _ => InitLocation.noConfusion) fun _ => h.all_stored hz
  | done => exact h

/-- A step of a processor that leaves no other one inside: to `l`, with the lock and the counter
that go with it. -/
theorem Inv.move (h : Inv cpuCount s) (hi : s.ap i ≠ .parked)
    (halone : ∀ j, j ≠ i → ¬ Inside (s.ap j)) (hst : Stored (s.ap i) → Stored l) {locked : Bool}
    {done : Int} (hlock : Inside l → locked = true) (hload : ∀ v, l = .store v → v = done)
    (hcount : done = (cpuCount.toNat : Int) - 1 -
      (stored cpuCount (Function.update s.ap i l)).card) :
    Inv cpuCount ⟨locked, done, s.smpInit, Function.update s.ap i l⟩ := by
  have honly : ∀ j, Inside (Function.update s.ap i l j) → j = i := fun j hj => by
    by_contra hji
    rw [Function.update_of_ne hji] at hj
    exact halone j hji hj
  exact {
    exclusive := fun j k hj hk => (honly j hj).trans (honly k hk).symm
    counter := hcount
    left := fun hd j hj => by
      have hstored := h.left hd j hj
      by_cases hji : j = i
      · subst hji
        simp only [Function.update_self]
        exact hst hstored
      · simp only [Function.update_of_ne hji]
        exact hstored
    locked := fun j hj => by
      obtain rfl := honly j hj
      simp only [Function.update_self] at hj
      exact hlock hj
    loaded := fun j v hj => by
      simp only at hj
      obtain rfl := honly j (hj ▸ trivial)
      rw [Function.update_self] at hj
      exact hload v hj
    released := fun j hj => by
      by_cases hji : j = i
      · subst hji
        exact h.released j hi
      · simp only [Function.update_of_ne hji] at hj
        exact h.released j hj
    parked := fun k hk => by
      obtain ⟨hk₁, hparked⟩ := h.parked k hk
      refine ⟨hk₁, fun j hj => ?_⟩
      by_cases hji : j = i
      · subst hji
        exact absurd (hparked j hj) hi
      · simp only [Function.update_of_ne hji]
        exact hparked j hj }

theorem Inv.alone (h : Inv cpuCount s) (hi : Inside (s.ap i)) :
    ∀ j, j ≠ i → ¬ Inside (s.ap j) :=
  fun j hj hin => hj (h.exclusive j i hin hi)

theorem Inv.apEntryPoint_step (hc : cpuCount.toNat ≤ 2147483648) (h : Inv cpuCount s) (i : Nat) :
    Inv cpuCount (apEntryPoint s i) := by
  rw [apEntryPoint]
  cases hp : s.ap i with
  | parked => exact h
  | halt => exact h
  | lock =>
      have hi : s.ap i ≠ .parked := fun e => ApLocation.noConfusion (hp.symm.trans e)
      have hst : Stored .load ↔ Stored (s.ap i) := by rw [hp]; decide
      simp only
      split
      · exact h
      · rename_i hfree
        refine h.move hi (fun j _ hin => hfree (h.locked j hin)) hst.mpr (fun _ => rfl)
          (fun _ => ApLocation.noConfusion) ?_
        rw [stored_update hst, h.counter]
  | load =>
      have hi : s.ap i ≠ .parked := fun e => ApLocation.noConfusion (hp.symm.trans e)
      have hin : Inside (s.ap i) := hp ▸ trivial
      have hst : Stored (.store s.apDone) ↔ Stored (s.ap i) := by
        rw [hp]
        constructor <;> rintro (e | e) <;> exact ApLocation.noConfusion e
      refine h.move hi (h.alone hin) hst.mpr (fun _ => h.locked i hin)
        (fun v e => (ApLocation.store.inj e).symm) ?_
      rw [stored_update hst, h.counter]
  | store v =>
      have hi : s.ap i ≠ .parked := fun e => ApLocation.noConfusion (hp.symm.trans e)
      have hin : Inside (s.ap i) := hp ▸ trivial
      have hnot : ¬ Stored (s.ap i) := by
        rw [hp]
        rintro (e | e) <;> exact ApLocation.noConfusion e
      have hv := h.loaded i v hp
      have hpos := h.pos hi hnot
      have hcounter := h.counter
      -- the loaded value is the counter still, as no other processor is inside
      have hdec : toInt32 (v - 1) = s.apDone - 1 := by
        rw [hv, toInt32_of_range (by omega) (by omega)]
      refine h.move hi (h.alone hin) (fun hs => absurd hs hnot) (fun _ => h.locked i hin)
        (fun _ => ApLocation.noConfusion) ?_
      rw [card_stored_succ (h.released i hi) hnot (Or.inl rfl), hdec]
      omega
  | unlock =>
      have hi : s.ap i ≠ .parked := fun e => ApLocation.noConfusion (hp.symm.trans e)
      have hst : Stored .halt ↔ Stored (s.ap i) := by rw [hp]; decide
      refine h.move hi (h.alone (hp ▸ trivial)) hst.mpr (fun e => e.elim)
        (fun _ => ApLocation.noConfusion) ?_
      rw [stored_update hst, h.counter]

/-- **A step keeps the invariant.** -/
theorem Inv.step (hc : cpuCount.toNat ≤ 2147483648) (h : Inv cpuCount s) {a : Actor}
    (hs : Step cpuCount s a s') : Inv cpuCount s' := by
  rw [hs]
  cases a with
  | init => exact h.smpInit_step hc
  | ap i => exact h.apEntryPoint_step hc i

/-- **The start-up counter**: in every run exactly one processor at a time decrements it, it counts
those that have not, and `smp_init` leaves its loop behind the last one, exactly when an `int` can
count the processors. -/
theorem ap_startup_iff (cpuCount : BitVec 64) :
    (∀ as s, Run (Step cpuCount) (start cpuCount) as s → StartedUp cpuCount s) ↔
      cpuCount.toNat ≤ 2147483648 := by
  constructor
  · intro hall
    by_contra hgt
    have hcounter := (hall [] _ (.nil _)).counter
    have hlt := (toInt32_range (cpuCount - 1).toNat).2
    rw [stored_start, Finset.card_empty, start] at hcounter
    simp only at hcounter
    omega
  · intro hc as s hrun
    exact (hrun.invariant (fun hinv hs => hinv.step hc hs) (inv_start hc)).toStartedUp

/-- With `2³¹ + 1` processors `ap_done` is negative from the start. -/
theorem ap_startup_overflow :
    ¬ ∀ cpuCount as s, Run (Step cpuCount) (start cpuCount) as s → StartedUp cpuCount s := by
  intro hall
  have hcounter := (hall 0x80000001 [] _ (.nil _)).counter
  have hneg : (start 0x80000001).apDone = -2147483648 := by decide
  have hcount : (0x80000001 : BitVec 64).toNat = 2147483649 := by decide
  have hle := @card_stored_le 0x80000001 (start 0x80000001).ap
  omega

end FrazzOS.Smp
