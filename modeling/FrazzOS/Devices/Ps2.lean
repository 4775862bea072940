import Mathlib.Data.Nat.Notation

/-!
# Devices — Ps2

The keyboard handler of `devices/ps2.c`: a scancode read from the data port changes the modifier
flags or gives a character, and the key is printed.

A scancode behind the end of `keycodes` reads whatever lies in memory there, which is a parameter.
-/

namespace FrazzOS.Devices

/-- The key code of an ASCII key. -/
def ascii (c : Char) : BitVec 32 := BitVec.ofNat 32 c.toNat

def keyEscape : BitVec 32 := 0x1001

/-- `KEY_F1` to `KEY_F10`. -/
def keyF (n : Nat) : BitVec 32 := BitVec.ofNat 32 (0x1200 + n)

/-- `KEY_F11` and `KEY_F12`, which `ps2.h` makes the same. -/
def keyF11 : BitVec 32 := 0x120b

def keyKpNumlock : BitVec 32 := 0x300f

def keyCapslock : BitVec 32 := 0x4001

def keyLshift : BitVec 32 := 0x4002

def keyLctrl : BitVec 32 := 0x4003

def keyLalt : BitVec 32 := 0x4004

def keyRshift : BitVec 32 := 0x4006

def keyRctrl : BitVec 32 := 0x4007

def keyRalt : BitVec 32 := 0x4008

def keyHome : BitVec 32 := 0x400c

def keyPageup : BitVec 32 := 0x400e

def keyScrolllock : BitVec 32 := 0x4010

def keyUnknown : BitVec 32 := 0x4012

/-- `keycodes`, by scancode. -/
def keycodes : List (BitVec 32) :=
  -- 0x00: unknown, escape, the digits, minus, equal, backspace and tab
  [keyUnknown, keyEscape] ++ "1234567890-=".toList.map ascii ++ [0x08, 0x09] ++
  -- 0x10: the upper row, with both brackets, and return
  "qwertyuiop[]".toList.map ascii ++ [0x0d, keyLctrl] ++
  -- 0x1e: the middle row, with quote and grave
  "asdfghjkl;".toList.map ascii ++ [0x27, 0x60, keyLshift, 0x5c] ++
  -- 0x2c: the lower row
  "zxcvbnm,./".toList.map ascii ++ [keyRshift, ascii '*', keyRalt, ascii ' ', keyCapslock] ++
  -- 0x3b: `KEY_F1` to `KEY_F10`
  (List.range' 1 10).map keyF ++
  -- 0x45: the locks, `KEY_HOME`, `KEY_KP_8`, `KEY_PAGEUP`
  [keyKpNumlock, keyScrolllock, keyHome, ascii '8', keyPageup] ++
  -- 0x4a, where the comments of the source go on at 0x50
  [ascii '2', ascii '3', ascii '0', ascii '.', keyUnknown, keyUnknown, keyUnknown, keyF11, keyF11]

/-- `BREAK_MODE_QUALIFIER`. -/
def breakModeQualifier : BitVec 8 := 0x80

/-- The modifier flags. -/
structure Modifiers where
  ctrl : Bool
  alt : Bool
  shift : Bool
  capslock : Bool
  numlock : Bool
  scrollLock : Bool

/-- `struct key`. -/
structure Key where
  keycode : BitVec 32
  character : BitVec 8

/-- What `shift` makes of a digit or a sign. -/
def shiftedSigns : List (BitVec 8 × BitVec 8) :=
  -- the digits from 0
  [(0x30, 0x29), (0x31, 0x21), (0x32, 0x40), (0x33, 0x23), (0x34, 0x24), (0x35, 0x25), (0x36, 0x5e),
    (0x37, 0x26), (0x38, 0x2a), (0x39, 0x28),
    -- comma, dot, slash, semicolon, quote
    (0x2c, 0x3c), (0x2e, 0x3e), (0x2f, 0x3f), (0x3b, 0x3a), (0x27, 0x22),
    -- the brackets, grave, minus, equal, backslash
    (0x5b, 0x7b), (0x5d, 0x7d), (0x60, 0x7e), (0x2d, 0x5f), (0x3d, 0x2b), (0x5c, 0x7c)]

def shiftSign (character : BitVec 8) : BitVec 8 :=
  (shiftedSigns.lookup character).getD character

/-- A lower-case letter made upper-case. -/
def upperLetter (character : BitVec 8) : BitVec 8 :=
  if 0x61 ≤ character ∧ character ≤ 0x7a then character - 32 else character

/-- `keycode_to_ascii`. -/
def keycodeToAscii (k : Modifiers) (code : BitVec 32) : BitVec 8 :=
  let character := code.setWidth 8
  if k.shift && k.capslock then shiftSign character
  else if k.shift && !k.capslock then shiftSign (upperLetter character)
  else if !k.shift && k.capslock then upperLetter character
  else character

/-- `keycodes[scancode]`, in front of the memory `beyond`. -/
def keyInfo (beyond : Nat → BitVec 32) (scancode : BitVec 8) : BitVec 32 :=
  if h : scancode.toNat < keycodes.length then keycodes.get ⟨scancode.toNat, h⟩
  else beyond (scancode.toNat - keycodes.length)

/-- A modifier key released. -/
def releaseKey (k : Modifiers) (keyInfo : BitVec 32) : Modifiers :=
  if keyInfo = keyLctrl ∨ keyInfo = keyRctrl then { k with ctrl := false }
  else if keyInfo = keyLalt ∨ keyInfo = keyRalt then { k with alt := false }
  else if keyInfo = keyLshift ∨ keyInfo = keyRshift then { k with shift := false }
  else k

/-- A key pressed, with the character that it gives. -/
def pressKey (k : Modifiers) (keyInfo : BitVec 32) : Modifiers × BitVec 8 :=
  if keyInfo = keyLctrl ∨ keyInfo = keyRctrl then ({ k with ctrl := true }, 0)
  else if keyInfo = keyLalt ∨ keyInfo = keyRalt then ({ k with alt := true }, 0)
  else if keyInfo = keyLshift ∨ keyInfo = keyRshift then ({ k with shift := true }, 0)
  else if keyInfo = keyCapslock then ({ k with capslock := !k.capslock }, 0)
  else if keyInfo = keyKpNumlock then ({ k with numlock := !k.numlock }, 0)
  else if keyInfo = keyScrolllock then ({ k with scrollLock := !k.scrollLock }, 0)
  else if keyInfo ≤ 0x7f then (k, keycodeToAscii k keyInfo)
  else (k, 0)

/-- `keyboard_handler` up to its call of `print_key`: the flags, and the key to print. -/
def keyboardKey (beyond : Nat → BitVec 32) (k : Modifiers) (scancode : BitVec 8) :
    Modifiers × Key :=
  if scancode &&& breakModeQualifier ≠ 0 then
    (releaseKey k (keyInfo beyond (scancode - breakModeQualifier)), ⟨keyUnknown, 0⟩)
  else
    let info := keyInfo beyond scancode
    ((pressKey k info).1, ⟨info, (pressKey k info).2⟩)

/-- The string that `print_key` builds, without its terminating zero. -/
def keyBuf (key : Key) : List (BitVec 8) := if key.character = 0 then [] else [key.character]

end FrazzOS.Devices
