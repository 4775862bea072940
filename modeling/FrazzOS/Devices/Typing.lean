import FrazzOS.Devices.Modifiers

/-!
# Devices — Typing

What the keys type: `keyboard_handler` prints a string of one character, or an empty one, for each
code.  Here it prints one string for each event at the keyboard, beside the one that a keyboard of
the United States stands for.

The keys are those of the main block and the function keys, up to `0x46`: behind it the places in
`keycodes` are not those of the keys.

* `typeKeys_eq`: what is printed depends on the flags `shift` and `capslock` only.
* `types_iff`: it is what the keyboard stands for just where every key that is different with a
  shift key is pressed while the flag says what is held.
-/

namespace FrazzOS.Devices

open KeyEvent

/-- A row of keys, by the code of the first one: what each of them types, without and with a shift
key. -/
def layoutRow (first : Nat) (plain shifted : List Char) : List (BitVec 7 × Char × Char) :=
  (plain.zip shifted).zipIdx.map fun q => (BitVec.ofNat 7 (first + q.2), q.1)

/-- The keyboard of the United States. -/
def usLayout : List (BitVec 7 × Char × Char) :=
  layoutRow 0x02 "1234567890-=\x08\t".toList "!@#$%^&*()_+\x08\t".toList ++
  layoutRow 0x10 "qwertyuiop[]\r".toList "QWERTYUIOP\x7b\x7d\r".toList ++
  layoutRow 0x1e "asdfghjkl;\x27`".toList "ASDFGHJKL:\x22~".toList ++
  layoutRow 0x2b "\x5czxcvbnm,./".toList "|ZXCVBNM<>?".toList ++
  [(0x37, '*', '*'), (0x39, ' ', ' ')]

/-- What a key types.  Caps lock is a shift key for the letters. -/
def layoutKey (shift caps : Bool) : KeyEvent → List (BitVec 8)
  | press (.base c) =>
    match usLayout.lookup c with
    | none => []
    | some (plain, shifted) =>
      let up := if plain.isLower then shift ^^ caps else shift
      [BitVec.ofNat 8 (if up then shifted else plain).toNat]
  | _ => []

/-- The key types something else with a shift key. -/
def ShiftSensitive (c : BitVec 7) : Prop := (usLayout.lookup c).any (fun q => q.1 != q.2) = true

instance (c : BitVec 7) : Decidable (ShiftSensitive c) := inferInstanceAs (Decidable (_ = true))

/-- What the events type, one string for each of them, where `shift` tells from those before whether
a shift key counts as held. -/
def textsBy (shift : List KeyEvent → Bool) (before : List KeyEvent) :
    List KeyEvent → List (List (BitVec 8))
  | [] => []
  | e :: after =>
    layoutKey (shift before) (decide (before.count (press caps) % 2 = 1)) e ::
      textsBy shift (before ++ [e]) after

/-- A shift key is held. -/
def shiftHeld (events : List KeyEvent) : Bool := held lshift events || held rshift events

/-- What the keyboard stands for. -/
def layoutTexts : List KeyEvent → List (List (BitVec 8)) := textsBy shiftHeld []

/-- `keyboard_handler`, with what it has printed. -/
def typeCode (r : Modifiers × List (BitVec 8)) (scancode : BitVec 8) :
    Option (Modifiers × List (BitVec 8)) :=
  if InTable scancode then
    let (k, key) := keyboardKey (fun _ => 0) r.1 scancode
    some (k, r.2 ++ keyBuf key)
  else none

/-- The codes of an event. -/
def typeEvent (r : Modifiers × List (List (BitVec 8))) (e : KeyEvent) :
    Option (Modifiers × List (List (BitVec 8))) := do
  let (k, text) ← e.codes.foldlM typeCode (r.1, [])
  return (k, r.2 ++ [text])

/-- What the handler prints, one string for each event. -/
def typeKeys (events : List KeyEvent) : Option (Modifiers × List (List (BitVec 8))) :=
  events.foldlM typeEvent (bootModifiers, [])

/-- A key of the main block, or a function key. -/
def InMainBlock (e : KeyEvent) : Prop := ∃ c, e.key = .base c ∧ c.toNat < 0x47

section Keys

variable {events before after : List KeyEvent} {e : KeyEvent} {k : Modifiers} {c : BitVec 7}
  {texts : List (List (BitVec 8))}

/-! ### One key -/

/-- The character of a key that is pressed. -/
theorem pressKey_character (k : Modifiers) (info : BitVec 32) :
    (pressKey k info).2 = if info ≤ 0x7f then keycodeToAscii k info else 0 := by
  by_cases hascii : info ≤ 0x7f
  · have hne : ∀ {a : BitVec 32}, ¬ a ≤ 0x7f → info ≠ a := by
      rintro a ha rfl
      exact ha hascii
    have hctrl : ¬ (info = keyLctrl ∨ info = keyRctrl) :=
      not_or.mpr ⟨hne (by decide), hne (by decide)⟩
    have halt : ¬ (info = keyLalt ∨ info = keyRalt) := not_or.mpr ⟨hne (by decide), hne (by decide)⟩
    have hshift : ¬ (info = keyLshift ∨ info = keyRshift) :=
      not_or.mpr ⟨hne (by decide), hne (by decide)⟩
    rw [pressKey, if_neg hctrl, if_neg halt, if_neg hshift, if_neg (hne (by decide)),
      if_neg (hne (by decide)), if_neg (hne (by decide)), if_pos hascii, if_pos hascii]
  · rw [if_neg hascii]
    unfold pressKey
    split_ifs <;> rfl

/-- **The table `keycodes` and `keycode_to_ascii`** are those of the layout. -/
theorem keyBuf_eq : ∀ c : BitVec 7, c.toNat < 0x47 → ∀ shift capslock : Bool,
    keyBuf ⟨keycodes.getD c.toNat 0,
      if keycodes.getD c.toNat 0 ≤ 0x7f then
        keycodeToAscii ⟨false, false, shift, capslock, false, false⟩ (keycodes.getD c.toNat 0)
      else 0⟩ = layoutKey shift capslock (press (.base c)) := by
  decide +kernel

/-- Whether a shift key counts as held makes a difference to the sensitive keys, and to no others. -/
theorem layoutKey_eq_iff : ∀ (c : BitVec 7) (shift shift' caps : Bool),
    layoutKey shift caps (press (.base c)) = layoutKey shift' caps (press (.base c)) ↔
      (ShiftSensitive c → shift = shift') := by
  decide +kernel

/-! ### One event -/

/-- **An event of the main block**: one string more, and what becomes of the two flags. -/
theorem typeEvent_eq (he : InMainBlock e) (k : Modifiers) (texts : List (List (BitVec 8))) :
    ∃ k', typeEvent (k, texts) e = some (k', texts ++ [layoutKey k.shift k.capslock e]) ∧
      k'.shift = shiftAfter k.shift e ∧ k'.capslock = capslockAfter k.capslock e := by
  obtain ⟨c, hkey, hc⟩ := he
  have htable : c.toNat < 83 := Nat.lt_trans hc (by decide)
  obtain ⟨hshift, hcaps⟩ := keycodes_shift c htable
  cases e with
  | press s =>
      obtain rfl : s = .base c := hkey
      have hcode : typeCode (k, []) (c.setWidth 8) =
          some ((pressKey k (keycodes.getD c.toNat 0)).1,
            layoutKey k.shift k.capslock (press (.base c))) := by
        rw [typeCode, if_pos (inTable_make.mpr htable), keyboardKey,
          if_neg (not_not_intro (tableIndex_make c)), keyInfo_eq htable, ← keyBuf_eq c hc]
        dsimp only
        rw [pressKey_character]
        rfl
      refine ⟨(pressKey k (keycodes.getD c.toNat 0)).1, ?_, ?_, ?_⟩
      · rw [typeEvent, codes, List.foldlM_cons, hcode]
        rfl
      · rw [pressKey_shift]
        simp only [hshift, shiftAfter]
      · rw [pressKey_capslock]
        simp only [hcaps, capslockAfter, press.injEq]
  | release s =>
      obtain rfl : s = .base c := hkey
      have hcode : typeCode (k, []) (c.setWidth 8 + breakModeQualifier) =
          some (releaseKey k (keycodes.getD c.toNat 0), []) := by
        rw [typeCode, if_pos (inTable_break.mpr htable), keyboardKey,
          if_pos (tableIndex_break c).1, (tableIndex_break c).2, keyInfo_eq htable]
        rfl
      refine ⟨releaseKey k (keycodes.getD c.toNat 0), ?_, ?_, ?_⟩
      · rw [typeEvent, codes, List.foldlM_cons, hcode]
        rfl
      · rw [releaseKey_shift]
        simp only [hshift, shiftAfter]
      · rw [releaseKey_capslock]
        simp [capslockAfter]

/-! ### A run -/

/-- One event more. -/
theorem textsBy_append (shift : List KeyEvent → Bool) (before after : List KeyEvent)
    (e : KeyEvent) : textsBy shift before (after ++ [e]) = textsBy shift before after ++
      [layoutKey (shift (before ++ after))
        (decide ((before ++ after).count (press caps) % 2 = 1)) e] := by
  induction after generalizing before with
  | nil => rw [List.append_nil]; rfl
  | cons x after ih =>
      rw [List.cons_append, textsBy, ih, List.append_assoc]
      rfl

/-- **What is printed in a run**: what the keys type where the flag `shift` tells whether a shift key
is held. -/
theorem typeKeys_eq (h : ∀ e ∈ events, InMainBlock e) :
    ∃ k, typeKeys events = some (k, textsBy shiftFlag [] events) ∧ k.shift = shiftFlag events ∧
      k.capslock = decide (events.count (press caps) % 2 = 1) := by
  induction events using List.reverseRecOn with
  | nil => exact ⟨bootModifiers, rfl, rfl, rfl⟩
  | append_singleton events e ih =>
      rw [List.forall_mem_append, List.forall_mem_singleton] at h
      obtain ⟨k, hrun, hshift, hcaps⟩ := ih h.1
      obtain ⟨k', hstep, hshift', hcaps'⟩ := typeEvent_eq h.2 k (textsBy shiftFlag [] events)
      refine ⟨k', ?_, ?_, ?_⟩
      · rw [typeKeys, List.foldlM_append, ← typeKeys, hrun, textsBy_append, List.nil_append,
          ← hshift, ← hcaps, Option.bind_eq_bind, Option.bind_some, List.foldlM_cons, hstep]
        rfl
      · rw [hshift', hshift, shiftFlag, shiftFlag, List.foldl_append]
        rfl
      · rw [hcaps', hcaps, capslockAfter, List.count_append, List.count_singleton]
        by_cases he : e = press caps
        · rw [decide_eq_true he, Bool.true_xor, if_pos (beq_iff_eq.mpr he), ← decide_not,
            decide_eq_decide]
          omega
        · rw [decide_eq_false he, Bool.false_xor, if_neg (mt beq_iff_eq.mp he), Nat.add_zero]

/-- Every sensitive key is pressed while the flag says what is held. -/
def TypedApart (events : List KeyEvent) : Prop :=
  ∀ before c after, events = before ++ press (.base c) :: after → ShiftSensitive c →
    ReleasedApart before

/-- One event more: where it is a press of a sensitive key, that is one that counts. -/
theorem typedApart_append : TypedApart (events ++ [e]) ↔ TypedApart events ∧
    ∀ c, e = press (.base c) → ShiftSensitive c → ReleasedApart events := by
  constructor
  · intro h
    refine ⟨fun before c after heq hc => ?_, fun c heq hc => h events c [] (by rw [heq]) hc⟩
    exact h before c (after ++ [e]) (by rw [heq, List.append_assoc]; rfl) hc
  · rintro ⟨h, hlast⟩ before c after heq hc
    rcases append_singleton_eq heq with ⟨-, rfl, he⟩ | ⟨a, -, heq⟩
    · exact hlast c he hc
    · exact h before c a heq hc

/-- The event types the same where the flag says what is held. -/
theorem layoutKey_flag_iff (caps : Bool) (events : List KeyEvent) (e : KeyEvent) :
    layoutKey (shiftFlag events) caps e = layoutKey (shiftHeld events) caps e ↔
      ∀ c, e = press (.base c) → ShiftSensitive c → ReleasedApart events := by
  have hflag : shiftFlag events = shiftHeld events ↔ ReleasedApart events := by
    rw [← shiftFlag_iff, Bool.eq_iff_iff, shiftHeld, Bool.or_eq_true]
  match e with
  | press (.base c) =>
      rw [layoutKey_eq_iff, hflag]
      constructor
      · intro h c' heq
        cases heq
        exact h
      · exact fun h => h c rfl
  | press (.extended _) | press .printScreen | press .pause | release _ =>
      exact iff_of_true rfl fun c heq => by cases heq

/-- What is printed is what the keyboard stands for, string by string. -/
theorem texts_iff (events : List KeyEvent) :
    textsBy shiftFlag [] events = layoutTexts events ↔ TypedApart events := by
  induction events using List.reverseRecOn with
  | nil => exact iff_of_true rfl fun before c after heq => absurd heq (by simp)
  | append_singleton events e ih =>
      rw [layoutTexts, textsBy_append, textsBy_append, typedApart_append, List.nil_append,
        ← layoutKey_flag_iff (decide (events.count (press caps) % 2 = 1)),
        List.append_singleton_inj, ← ih, layoutTexts]

/-- **When the text is right**: over the keys of the main block and the function keys, the strings
that are printed are those of the keyboard just where every sensitive key is pressed while the last
event of a shift key was not a release with the other one held. -/
theorem types_iff (h : ∀ e ∈ events, InMainBlock e) :
    (∃ k, typeKeys events = some (k, layoutTexts events)) ↔ TypedApart events := by
  obtain ⟨k, hrun, -, -⟩ := typeKeys_eq h
  rw [← texts_iff, hrun]
  constructor
  · rintro ⟨k', hk⟩
    exact congrArg Prod.snd (Option.some.inj hk)
  · intro heq
    exact ⟨k, by rw [heq]⟩

/-- Both shift keys are held, one is released, and a letter is typed. -/
theorem types_iff_both_shifts :
    ¬ ∃ k, typeKeys [press lshift, press rshift, release lshift, press (.base 0x1e)] =
      some (k, layoutTexts [press lshift, press rshift, release lshift, press (.base 0x1e)]) := by
  refine (types_iff (List.forall_mem_cons.mpr ⟨⟨0x2a, rfl, by decide⟩, List.forall_mem_cons.mpr
    ⟨⟨0x36, rfl, by decide⟩, List.forall_mem_cons.mpr ⟨⟨0x2a, rfl, by decide⟩,
      List.forall_mem_singleton.mpr ⟨0x1e, rfl, by decide⟩⟩⟩⟩)).not.mpr fun h => ?_
  have happart := h [press lshift, press rshift, release lshift] 0x1e [] rfl (by decide +kernel)
  have hheld := happart [press lshift, press rshift] lshift [] rfl (.inl rfl)
    fun e he => absurd he List.not_mem_nil
  exact absurd hheld (by decide)

end Keys

end FrazzOS.Devices
