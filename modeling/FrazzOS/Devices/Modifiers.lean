import FrazzOS.Devices.Ps2
import Mathlib.Data.List.GetD
import Mathlib.Data.List.Induction
import Mathlib.Tactic.Common

/-!
# Devices — modifier keys

The modifier flags of `devices/ps2.c` over what happens at a keyboard: keys are pressed and
released, and their codes of set 1 are handled one after the other.

Both shift keys have the one flag `shift`, which a release of either clears.  The table `keycodes`
has 83 entries, so the prefixes `0xe0` and `0xe1` and the codes from `0x53` on are read behind its
end, which is undefined (`keyboardFlags`).

* `runKeys_eq`: the flags after any events whose codes the table has.
* `shiftFlag_iff`: when the flag says what is held.
* `tracks_iff`: the flags track the keys just where every code is in the table and the last event
  of a shift key is not a release while the other one is held.
-/

namespace FrazzOS.Devices

/-- A key, by the codes that it sends. -/
inductive Switch where
  /-- One code. -/
  | base (code : BitVec 7)
  /-- A code behind the prefix `0xe0`. -/
  | extended (code : BitVec 7)
  | printScreen
  | pause
  deriving DecidableEq

inductive KeyEvent where
  | press (s : Switch)
  | release (s : Switch)
  deriving DecidableEq

open KeyEvent

/-- The codes of set 1.  The pause key sends none when it is released. -/
def KeyEvent.codes : KeyEvent → List (BitVec 8)
  | press (.base c)       => [c.setWidth 8]
  | release (.base c)     => [c.setWidth 8 + breakModeQualifier]
  | press (.extended c)   => [0xe0, c.setWidth 8]
  | release (.extended c) => [0xe0, c.setWidth 8 + breakModeQualifier]
  | press .printScreen    => [0xe0, 0x2a, 0xe0, 0x37]
  | release .printScreen  => [0xe0, 0xb7, 0xe0, 0xaa]
  | press .pause          => [0xe1, 0x1d, 0x45, 0xe1, 0x9d, 0xc5]
  | release .pause        => []

def lshift : Switch := .base 0x2a

def rshift : Switch := .base 0x36

def caps : Switch := .base 0x3a

/-- The code without `BREAK_MODE_QUALIFIER`, by which `keycodes` is read. -/
def tableIndex (scancode : BitVec 8) : BitVec 8 :=
  if scancode &&& breakModeQualifier ≠ 0 then scancode - breakModeQualifier else scancode

def InTable (scancode : BitVec 8) : Prop := (tableIndex scancode).toNat < keycodes.length

instance (scancode : BitVec 8) : Decidable (InTable scancode) := Nat.decLt _ _

/-- What `keyboard_handler` makes of the flags, where it reads inside of `keycodes`. -/
def keyboardFlags (k : Modifiers) (scancode : BitVec 8) : Option Modifiers :=
  if InTable scancode then some (keyboardKey (fun _ => 0) k scancode).1 else none

/-- The flags that the kernel starts with. -/
def bootModifiers : Modifiers := ⟨false, false, false, false, false, false⟩

/-- The flags after the codes of all events. -/
def runKeys (events : List KeyEvent) : Option Modifiers :=
  (events.flatMap codes).foldlM keyboardFlags bootModifiers

/-- The key is held: it has been pressed, and not been released since. -/
def held (key : Switch) (events : List KeyEvent) : Bool :=
  events.foldl (fun b e => match e with
    | press s   => decide (s = key) || b
    | release s => !decide (s = key) && b) false

/-- The flags track the keys: `shift` the two shift keys, and `capslock` the times the caps key was
pressed. -/
def Tracks (events : List KeyEvent) : Prop :=
  ∃ k, runKeys events = some k ∧
    (k.shift = true ↔ held lshift events = true ∨ held rshift events = true) ∧
    (k.capslock = true ↔ events.count (press caps) % 2 = 1)

/-- The other shift key. -/
def otherShift (s : Switch) : Switch := if s = lshift then rshift else lshift

def Switch.IsShift (s : Switch) : Prop := s = lshift ∨ s = rshift

instance (s : Switch) : Decidable s.IsShift := inferInstanceAs (Decidable (_ ∨ _))

def KeyEvent.key : KeyEvent → Switch
  | press s   => s
  | release s => s

/-- Where the last event of a shift key is a release, the other shift key is not held. -/
def ReleasedApart (events : List KeyEvent) : Prop :=
  ∀ before s after, events = before ++ release s :: after → s.IsShift →
    (∀ e ∈ after, ¬ e.key.IsShift) → held (otherShift s) before = false

/-! ### One code -/

variable {events before after : List KeyEvent} {e : KeyEvent} {s key : Switch} {k k' : Modifiers}
  {info : BitVec 32} {scancode : BitVec 8} {c : BitVec 7}

theorem keycodes_length : keycodes.length = 83 := by decide

/-- A press sets `shift` for the codes of the two shift keys alone. -/
theorem pressKey_shift (k : Modifiers) (info : BitVec 32) :
    (pressKey k info).1.shift = (decide (info = keyLshift ∨ info = keyRshift) || k.shift) := by
  by_cases h : info = keyLshift ∨ info = keyRshift
  · rcases h with rfl | rfl <;> rfl
  · rw [decide_eq_false h, Bool.false_or]
    simp only [pressKey, if_neg h]
    split_ifs <;> rfl

theorem pressKey_capslock (k : Modifiers) (info : BitVec 32) :
    (pressKey k info).1.capslock = (decide (info = keyCapslock) ^^ k.capslock) := by
  by_cases h : info = keyCapslock
  · subst h
    rw [decide_eq_true rfl, Bool.true_xor]
    rfl
  · rw [decide_eq_false h, Bool.false_xor]
    simp only [pressKey, if_neg h]
    split_ifs <;> rfl

/-- A release clears `shift` for the codes of the two shift keys alone. -/
theorem releaseKey_shift (k : Modifiers) (info : BitVec 32) :
    (releaseKey k info).shift = (!decide (info = keyLshift ∨ info = keyRshift) && k.shift) := by
  by_cases h : info = keyLshift ∨ info = keyRshift
  · rcases h with rfl | rfl <;> rfl
  · rw [decide_eq_false h, Bool.not_false, Bool.true_and]
    simp only [releaseKey, if_neg h]
    split_ifs <;> rfl

theorem releaseKey_capslock (k : Modifiers) (info : BitVec 32) :
    (releaseKey k info).capslock = k.capslock := by
  unfold releaseKey
  split_ifs <;> rfl

/-- The places of the two shift keys and of the caps key in `keycodes`. -/
theorem keycodes_shift : ∀ c : BitVec 7, c.toNat < 83 →
    (keycodes.getD c.toNat 0 = keyLshift ∨ keycodes.getD c.toNat 0 = keyRshift ↔
      (Switch.base c).IsShift) ∧
    (keycodes.getD c.toNat 0 = keyCapslock ↔ Switch.base c = caps) := by
  decide

/-- The entry of a code that the table has. -/
theorem keyInfo_eq {beyond : Nat → BitVec 32} (h : c.toNat < 83) :
    keyInfo beyond (c.setWidth 8) = keycodes.getD c.toNat 0 := by
  have hwidth : (c.setWidth 8).toNat = c.toNat := BitVec.toNat_setWidth_of_le (by decide)
  have hlen : (c.setWidth 8).toNat < keycodes.length := by
    rw [hwidth, keycodes_length]
    exact h
  rw [keyInfo, dif_pos hlen, List.get_eq_getElem, ← List.getD_eq_getElem keycodes 0 hlen, hwidth]

/-- A make code is its own place in `keycodes`, and a break code has that of the make code. -/
theorem tableIndex_make : ∀ c : BitVec 7, c.setWidth 8 &&& breakModeQualifier = 0 := by
  decide

theorem tableIndex_break : ∀ c : BitVec 7,
    c.setWidth 8 + breakModeQualifier &&& breakModeQualifier ≠ 0 ∧
      c.setWidth 8 + breakModeQualifier - breakModeQualifier = c.setWidth 8 := by
  decide

theorem inTable_make : InTable (c.setWidth 8) ↔ c.toNat < 83 := by
  have := c.isLt
  rw [InTable, tableIndex, if_neg (not_not_intro (tableIndex_make c)), keycodes_length,
    BitVec.toNat_setWidth, Nat.mod_eq_of_lt (by omega)]

theorem inTable_break : InTable (c.setWidth 8 + breakModeQualifier) ↔ c.toNat < 83 := by
  have := c.isLt
  rw [InTable, tableIndex, if_pos (tableIndex_break c).1, (tableIndex_break c).2, keycodes_length,
    BitVec.toNat_setWidth, Nat.mod_eq_of_lt (by omega)]

/-- **A make code** that the table has. -/
theorem keyboardFlags_make (k : Modifiers) (h : c.toNat < 83) :
    keyboardFlags k (c.setWidth 8) = some (pressKey k (keycodes.getD c.toNat 0)).1 := by
  rw [keyboardFlags, if_pos (inTable_make.mpr h), keyboardKey,
    if_neg (not_not_intro (tableIndex_make c)), keyInfo_eq h]

/-- **A break code** that the table has. -/
theorem keyboardFlags_break (k : Modifiers) (h : c.toNat < 83) :
    keyboardFlags k (c.setWidth 8 + breakModeQualifier) =
      some (releaseKey k (keycodes.getD c.toNat 0)) := by
  rw [keyboardFlags, if_pos (inTable_break.mpr h), keyboardKey, if_pos (tableIndex_break c).1,
    (tableIndex_break c).2, keyInfo_eq h]

/-! ### One event -/

/-- What an event makes of the flag `shift`. -/
def shiftAfter (b : Bool) : KeyEvent → Bool
  | press s   => decide s.IsShift || b
  | release s => !decide s.IsShift && b

/-- What an event makes of the flag `capslock`. -/
def capslockAfter (b : Bool) (e : KeyEvent) : Bool := decide (e = press caps) ^^ b

/-- A code outside of the table makes the run undefined. -/
theorem foldlM_eq_none {codes : List (BitVec 8)} (h : ∃ b ∈ codes, ¬ InTable b) (k : Modifiers) :
    codes.foldlM keyboardFlags k = none := by
  induction codes generalizing k with
  | nil => exact absurd h (by simp)
  | cons b codes ih =>
      rw [List.foldlM_cons, Option.bind_eq_bind, keyboardFlags]
      split
      · rename_i hb
        refine ih ?_ _
        obtain ⟨b', hb', hout⟩ := h
        rcases List.mem_cons.mp hb' with rfl | hmem
        · exact absurd hb hout
        · exact ⟨b', hmem, hout⟩
      · rfl

/-- **An event whose codes the table has**: what it makes of the two flags. -/
theorem foldlM_codes (k : Modifiers) (h : ∀ b ∈ e.codes, InTable b) :
    ∃ k', e.codes.foldlM keyboardFlags k = some k' ∧ k'.shift = shiftAfter k.shift e ∧
      k'.capslock = capslockAfter k.capslock e := by
  match e with
  | press (.base c) =>
      have hc := inTable_make.mp (h _ List.mem_cons_self)
      obtain ⟨hshift, hcaps⟩ := keycodes_shift c hc
      refine ⟨_, by rw [codes, List.foldlM_cons, keyboardFlags_make k hc]; rfl, ?_, ?_⟩
      · rw [pressKey_shift]
        simp only [hshift, shiftAfter]
      · rw [pressKey_capslock]
        simp only [hcaps, capslockAfter, press.injEq]
  | release (.base c) =>
      have hc := inTable_break.mp (h _ List.mem_cons_self)
      obtain ⟨hshift, -⟩ := keycodes_shift c hc
      refine ⟨_, by rw [codes, List.foldlM_cons, keyboardFlags_break k hc]; rfl, ?_, ?_⟩
      · rw [releaseKey_shift]
        simp only [hshift, shiftAfter]
      · rw [releaseKey_capslock]
        simp [capslockAfter]
  | press (.extended c) | release (.extended c) | press .printScreen | release .printScreen
  | press .pause =>
      exact absurd (h _ List.mem_cons_self) (by decide)
  | release .pause =>
      refine ⟨k, rfl, ?_, ?_⟩
      · simp [shiftAfter, Switch.IsShift, lshift, rshift]
      · simp [capslockAfter]

/-! ### A run -/

/-- The flag `shift` after the events. -/
def shiftFlag (events : List KeyEvent) : Bool := events.foldl shiftAfter false

/-- **The flags after a run** whose codes the table has. -/
theorem runKeys_eq (h : ∀ e ∈ events, ∀ b ∈ e.codes, InTable b) :
    ∃ k, runKeys events = some k ∧ k.shift = shiftFlag events ∧
      k.capslock = decide (events.count (press caps) % 2 = 1) := by
  induction events using List.reverseRecOn with
  | nil => exact ⟨bootModifiers, rfl, rfl, rfl⟩
  | append_singleton events e ih =>
      rw [List.forall_mem_append, List.forall_mem_singleton] at h
      obtain ⟨k, hrun, hshift, hcaps⟩ := ih h.1
      obtain ⟨k', hstep, hshift', hcaps'⟩ := foldlM_codes k h.2
      refine ⟨k', ?_, ?_, ?_⟩
      · rw [runKeys, List.flatMap_append, List.foldlM_append, ← runKeys, hrun,
          List.flatMap_singleton]
        exact hstep
      · rw [hshift', hshift, shiftFlag, shiftFlag, List.foldl_append]
        rfl
      · rw [hcaps', hcaps, capslockAfter, List.count_append, List.count_singleton]
        by_cases he : e = press caps
        · rw [decide_eq_true he, Bool.true_xor, if_pos (beq_iff_eq.mpr he), ← decide_not,
            decide_eq_decide]
          omega
        · rw [decide_eq_false he, Bool.false_xor, if_neg (mt beq_iff_eq.mp he), Nat.add_zero]

/-- A code outside of the table leaves the run without an outcome. -/
theorem runKeys_eq_none (h : ¬ ∀ e ∈ events, ∀ b ∈ e.codes, InTable b) : runKeys events = none := by
  push Not at h
  obtain ⟨e, he, b, hb, hout⟩ := h
  exact foldlM_eq_none ⟨b, List.mem_flatMap.mpr ⟨e, he, hb⟩, hout⟩ _

/-- **The last event of a shift key**, and what it says. -/
theorem held_append (key : Switch) (events : List KeyEvent) (e : KeyEvent) :
    held key (events ++ [e]) = match e with
      | press s   => decide (s = key) || held key events
      | release s => !decide (s = key) && held key events := by
  rw [held, List.foldl_append]
  rfl

/-- Where a list with `e` at its end is split. -/
theorem append_singleton_eq {x : KeyEvent} (h : events ++ [e] = before ++ x :: after) :
    (after = [] ∧ events = before ∧ e = x) ∨
      ∃ a, after = a ++ [e] ∧ events = before ++ x :: a := by
  rcases List.eq_nil_or_concat after with rfl | ⟨a, y, rfl⟩
  · obtain ⟨hevents, he⟩ := List.append_inj' h rfl
    exact Or.inl ⟨rfl, hevents, (List.cons.inj he).1⟩
  · rw [List.concat_eq_append, ← List.cons_append, ← List.append_assoc] at h
    rw [List.concat_eq_append]
    obtain ⟨hevents, he⟩ := List.append_inj' h rfl
    exact Or.inr ⟨a, by rw [(List.cons.inj he).1], hevents⟩

/-- One more event: that of a shift key is now the last one. -/
theorem releasedApart_append : ReleasedApart (events ++ [e]) ↔
    if e.key.IsShift then ∀ s, e = release s → held (otherShift s) events = false
    else ReleasedApart events := by
  split
  · rename_i hs
    constructor
    · rintro h s rfl
      exact h events s [] rfl hs (fun _ he => absurd he List.not_mem_nil)
    · intro h before s after heq hshift hafter
      rcases append_singleton_eq heq with ⟨rfl, rfl, he⟩ | ⟨a, rfl, -⟩
      · exact h s he
      · exact absurd hs (hafter e (List.mem_append_right _ List.mem_cons_self))
  · rename_i hs
    constructor
    · intro h before s after heq hshift hafter
      refine h before s (after ++ [e]) (by rw [heq, List.append_assoc]; rfl) hshift fun e' he' => ?_
      rcases List.mem_append.mp he' with hmem | hmem
      · exact hafter e' hmem
      · rwa [List.mem_singleton.mp hmem]
    · intro h before s after heq hshift hafter
      rcases append_singleton_eq heq with ⟨-, -, rfl⟩ | ⟨a, rfl, rfl⟩
      · exact absurd hshift hs
      · exact h before s a rfl hshift fun e' he' => hafter e' (List.mem_append_left _ he')

/-- **When the flag says what is held**: one event after the other, the case of a release of a
shift key being the one that counts. -/
theorem shiftFlag_iff (events : List KeyEvent) :
    (shiftFlag events = true ↔ held lshift events = true ∨ held rshift events = true) ↔
      ReleasedApart events := by
  induction events using List.reverseRecOn with
  | nil =>
      refine iff_of_true (by decide) fun before s after h => ?_
      exact absurd h (by simp)
  | append_singleton events e ih =>
      have hflag : shiftFlag (events ++ [e]) = shiftAfter (shiftFlag events) e := by
        rw [shiftFlag, List.foldl_append]
        rfl
      rw [releasedApart_append, held_append, held_append, hflag]
      by_cases hs : e.key.IsShift
      · rw [if_pos hs]
        match e with
        | press s => rcases hs with rfl | rfl <;> simp [shiftAfter, Switch.IsShift]
        | release s =>
            rcases hs with rfl | rfl <;>
              simp [shiftAfter, Switch.IsShift, otherShift, lshift, rshift]
      · rw [if_neg hs, ← ih]
        match e with
        | press s | release s =>
            obtain ⟨hl, hr⟩ := not_or.mp hs
            simp only [KeyEvent.key] at hl hr hs
            simp [shiftAfter, hs, hl, hr]

/-- **When the flags track the keys**: every code is read inside of `keycodes`, and the last event
of a shift key is not a release while the other one is held. -/
theorem tracks_iff (events : List KeyEvent) :
    Tracks events ↔ (∀ e ∈ events, ∀ b ∈ e.codes, InTable b) ∧ ReleasedApart events := by
  by_cases h : ∀ e ∈ events, ∀ b ∈ e.codes, InTable b
  · obtain ⟨k, hrun, hshift, hcaps⟩ := runKeys_eq h
    rw [and_iff_right h, ← shiftFlag_iff, Tracks, hrun]
    constructor
    · rintro ⟨k', hk, hheld, -⟩
      obtain rfl := Option.some.inj hk
      rwa [hshift] at hheld
    · intro hheld
      exact ⟨k, rfl, by rwa [hshift], by rw [hcaps, decide_eq_true_eq]⟩
  · refine iff_of_false ?_ fun hboth => h hboth.1
    rintro ⟨k, hk, -⟩
    rw [runKeys_eq_none h] at hk
    cases hk

/-- The left shift key released while the right one is held. -/
theorem not_tracks_both_shifts : ¬ Tracks [press lshift, press rshift, release lshift] := by
  rintro ⟨k, hrun, hheld, -⟩
  have hk := Option.some.inj hrun
  rw [← hk] at hheld
  revert hheld
  decide

end FrazzOS.Devices
