import FrazzOS.Ssfn.Putc

/-!
# Ssfn — Font

The characters table of a font: the records of its characters, by their code points, with the code
points between them left out, in steps of 65536, of up to 16128 and of up to 64.

`0xff` is the largest step, so a step of two bytes cannot begin with it: `0x3f` is not used for its
upper six bits.

* `findChar_gap`: steps are taken, whatever character is looked for.
* `findChar_table`: `ssfn_putc` finds the records of the table, and no others.
-/

namespace FrazzOS.Ssfn

/-- The bytes `l` are at `ptr`. -/
def Holds (src : Bytes) (ptr : Nat) (l : List (BitVec 8)) : Prop :=
  ∀ i b, l[i]? = some b → src (ptr + i) = b

/-- The record of a character: its flags, the number of its fragments, and the rest. -/
structure Record where
  flags : BitVec 8
  fragments : BitVec 8
  rest : List (BitVec 8)
  flags_lt : flags &&& 0x80 = 0
  length_rest : rest.length = 4 + fragments.toNat * if flags &&& 0x40 ≠ 0 then 6 else 5

def Record.bytes (r : Record) : List (BitVec 8) := r.flags :: r.fragments :: r.rest

/-- A step over `n` code points, up to 64 or up to 16128. -/
def short (n : Nat) : List (BitVec 8) :=
  if n = 0 then []
  else if n ≤ 64 then [BitVec.ofNat 8 (0x80 + (n - 1))]
  else [BitVec.ofNat 8 (0xc0 + (n - 1) / 256), BitVec.ofNat 8 ((n - 1) % 256)]

/-- Steps of 16128. -/
def wide (n : Nat) : List (BitVec 8) := (List.replicate n [0xfe, 0xff]).flatten

/-- The steps over `n` code points. -/
def gap (n : Nat) : List (BitVec 8) :=
  List.replicate (n / 65536) 0xff ++ (wide (n % 65536 / 16128) ++ short (n % 65536 % 16128))

/-- The table of the characters from `i` on. -/
def table (i : Nat) : List (Nat × Record) → List (BitVec 8)
  | [] => gap (0x110000 - i)
  | (u, r) :: l => gap (u - i) ++ (r.bytes ++ table (u + 1) l)

/-- The characters are in order, from `i` on. -/
def InOrder (i : Nat) : List (Nat × Record) → Prop
  | [] => i ≤ 0x110000
  | (u, _) :: l => i ≤ u ∧ InOrder (u + 1) l

section Holds

variable {src : Bytes} {ptr i n unicode : Nat} {l l' : List (BitVec 8)} {b : BitVec 8}

theorem holds_cons : Holds src ptr (b :: l) ↔ src ptr = b ∧ Holds src (ptr + 1) l := by
  constructor
  · intro h
    exact ⟨h 0 b rfl, fun i c hc => by rw [Nat.add_assoc, Nat.add_comm 1]; exact h (i + 1) c hc⟩
  · rintro ⟨hb, h⟩ i c hc
    cases i with
    | zero => exact hb.trans (Option.some.inj hc)
    | succ i => rw [Nat.add_comm i, ← Nat.add_assoc]; exact h i c hc

theorem holds_append : Holds src ptr (l ++ l') ↔
    Holds src ptr l ∧ Holds src (ptr + l.length) l' := by
  induction l generalizing ptr with
  | nil =>
      refine ⟨fun h => ⟨fun _ _ hnone => ?_, h⟩, fun h => h.2⟩
      cases hnone
  | cons b l ih =>
      rw [List.cons_append, holds_cons, holds_cons, ih, List.length_cons, and_assoc,
        Nat.add_right_comm ptr, Nat.add_assoc ptr]

end Holds

section Steps

variable {src : Bytes} {ptr i n unicode : Nat}

theorem findChar_big (h : Holds src ptr [0xff]) (hi : i < 0x110000) :
    findChar src unicode ptr i = findChar src unicode (ptr + 1) (i + 65536) := by
  rw [findChar, if_pos hi, if_pos (holds_cons.mp h).1]

theorem findChar_wide {q r : Nat} (hq : q < 0x3f) (hr : r < 256)
    (h : Holds src ptr [BitVec.ofNat 8 (0xc0 + q), BitVec.ofNat 8 r]) (hi : i < 0x110000) :
    findChar src unicode ptr i = findChar src unicode (ptr + 2) (i + (q * 256 + r + 1)) := by
  have hall : ∀ q < 0x3f, BitVec.ofNat 8 (0xc0 + q) ≠ 0xff ∧
      BitVec.ofNat 8 (0xc0 + q) &&& 0xc0 = 0xc0 ∧
      (BitVec.ofNat 8 (0xc0 + q) &&& 0x3f).toNat = q := by decide
  obtain ⟨hno, hmark, hbits⟩ := hall q hq
  obtain ⟨hfirst, hrest⟩ := holds_cons.mp h
  have hsecond := (holds_cons.mp hrest).1
  have hstep : ((src ptr &&& 0x3f) ++ src (ptr + 1)).toNat = q * 256 + r := by
    rw [hfirst, hsecond, BitVec.toNat_append, hbits, BitVec.toNat_ofNat, Nat.mod_eq_of_lt hr,
      ← Nat.shiftLeft_add_eq_or_of_lt hr, Nat.shiftLeft_eq]
  rw [findChar, if_pos hi, hstep, hfirst, if_neg hno, if_pos hmark, Nat.add_assoc i]

theorem findChar_narrow {q : Nat} (hq : q < 64) (h : Holds src ptr [BitVec.ofNat 8 (0x80 + q)])
    (hi : i < 0x110000) :
    findChar src unicode ptr i = findChar src unicode (ptr + 1) (i + (q + 1)) := by
  have hall : ∀ q < 64, BitVec.ofNat 8 (0x80 + q) ≠ 0xff ∧
      ¬ BitVec.ofNat 8 (0x80 + q) &&& 0xc0 = 0xc0 ∧ BitVec.ofNat 8 (0x80 + q) &&& 0xc0 = 0x80 ∧
      (BitVec.ofNat 8 (0x80 + q) &&& 0x3f).toNat = q := by decide
  obtain ⟨hno, hno', hmark, hbits⟩ := hall q hq
  rw [findChar, if_pos hi, (holds_cons.mp h).1, if_neg hno, if_neg hno', if_pos hmark, hbits,
    Nat.add_assoc i]

/-- **A record** is the one that is looked for, or the next one is tried. -/
theorem findChar_record (r : Record) (h : Holds src ptr r.bytes) (hi : i < 0x110000) :
    findChar src unicode ptr i = if i = unicode then some ptr
      else findChar src unicode (ptr + r.bytes.length) (i + 1) := by
  have hall : ∀ b : BitVec 8, b &&& 0x80 = 0 → b ≠ 0xff ∧ ¬ b &&& 0xc0 = 0xc0 ∧
      ¬ b &&& 0xc0 = 0x80 := by decide
  obtain ⟨hno, hno', hno''⟩ := hall r.flags r.flags_lt
  obtain ⟨hflags, hrest⟩ := holds_cons.mp h
  have hfragments := (holds_cons.mp hrest).1
  have hlength : r.bytes.length = 6 + r.fragments.toNat * descriptorSize src ptr := by
    rw [Record.bytes, List.length_cons, List.length_cons, r.length_rest, descriptorSize, hflags]
    omega
  rw [findChar, if_pos hi, hlength, hfragments, hflags, if_neg hno, if_neg hno', if_neg hno'']

theorem findChar_bigs {k : Nat} (h : Holds src ptr (List.replicate k 0xff))
    (hi : i + k * 65536 ≤ 0x110000) :
    findChar src unicode ptr i = findChar src unicode (ptr + k) (i + k * 65536) := by
  induction k generalizing ptr i with
  | zero => rw [Nat.zero_mul]; rfl
  | succ k ih =>
      rw [List.replicate_succ, ← List.singleton_append, holds_append] at h
      have hrest : findChar src unicode (ptr + 1) (i + 65536) =
          findChar src unicode (ptr + 1 + k) (i + 65536 + k * 65536) := ih h.2 (by omega)
      rw [findChar_big h.1 (by omega), hrest, show ptr + 1 + k = ptr + (k + 1) by omega,
        show i + 65536 + k * 65536 = i + (k + 1) * 65536 by omega]

theorem findChar_wides {k : Nat} (h : Holds src ptr (wide k)) (hi : i + k * 16128 ≤ 0x110000) :
    findChar src unicode ptr i =
      findChar src unicode (ptr + (wide k).length) (i + k * 16128) := by
  induction k generalizing ptr i with
  | zero => rw [Nat.zero_mul]; rfl
  | succ k ih =>
      rw [wide, List.replicate_succ, List.flatten_cons, holds_append] at h
      have hstep : findChar src unicode ptr i = findChar src unicode (ptr + 2) (i + 16128) :=
        findChar_wide (q := 0x3e) (r := 0xff) (by decide) (by decide) h.1 (by omega)
      have hlength : (wide (k + 1)).length = 2 + (wide k).length := by
        rw [wide, List.replicate_succ, List.flatten_cons, List.length_append]
        rfl
      have hrest : findChar src unicode (ptr + 2) (i + 16128) =
          findChar src unicode (ptr + 2 + (wide k).length) (i + 16128 + k * 16128) :=
        ih h.2 (by omega)
      rw [hlength, hstep, hrest, Nat.add_assoc ptr,
        show i + 16128 + k * 16128 = i + (k + 1) * 16128 by omega]

theorem findChar_short (hn : n < 16128) (h : Holds src ptr (short n)) (hi : i + n ≤ 0x110000) :
    findChar src unicode ptr i = findChar src unicode (ptr + (short n).length) (i + n) := by
  unfold short at h ⊢
  by_cases hzero : n = 0
  · subst hzero
    rfl
  · rw [if_neg hzero] at h ⊢
    by_cases hsmall : n ≤ 64
    · rw [if_pos hsmall] at h ⊢
      rw [findChar_narrow (by omega) h (by omega), Nat.sub_add_cancel (by omega)]
      rfl
    · rw [if_neg hsmall] at h ⊢
      have hstep : (n - 1) / 256 * 256 + (n - 1) % 256 + 1 = n := by omega
      rw [findChar_wide (by omega) (Nat.mod_lt _ (by decide)) h (by omega), hstep]
      rfl

/-- **The steps over `n` code points** are taken, whatever character is looked for. -/
theorem findChar_gap (h : Holds src ptr (gap n)) (hi : i + n ≤ 0x110000) :
    findChar src unicode ptr i = findChar src unicode (ptr + (gap n).length) (i + n) := by
  rw [gap, holds_append, holds_append, List.length_replicate] at h
  obtain ⟨hbig, hwide, hshort⟩ := h
  have hlength : (gap n).length = n / 65536 + ((wide (n % 65536 / 16128)).length +
      (short (n % 65536 % 16128)).length) := by
    rw [gap, List.length_append, List.length_append, List.length_replicate]
  have hsum : i + n / 65536 * 65536 + n % 65536 / 16128 * 16128 + n % 65536 % 16128 = i + n := by
    omega
  rw [findChar_bigs hbig (by omega), findChar_wides hwide (by omega),
    findChar_short (Nat.mod_lt _ (by decide)) hshort (by omega), hlength, hsum, ← Nat.add_assoc,
    ← Nat.add_assoc]

theorem InOrder.le {l : List (Nat × Record)} (h : InOrder i l) : i ≤ 0x110000 := by
  induction l generalizing i with
  | nil => exact h
  | cons q l ih => exact Nat.le_trans h.1 (Nat.le_of_succ_le (ih h.2))

theorem InOrder.le_of_mem {l : List (Nat × Record)} (h : InOrder i l) {q : Nat × Record}
    (hq : q ∈ l) : i ≤ q.1 := by
  induction l generalizing i with
  | nil => cases hq
  | cons q' l ih =>
      rcases List.mem_cons.mp hq with rfl | hq
      · exact h.1
      · exact Nat.le_trans h.1 (Nat.le_of_succ_le (ih h.2 hq))

/-- **The table is read**: the record that is found is that of the character, and none is found for
a character that is not in the table. -/
theorem findChar_from (l : List (Nat × Record)) (horder : InOrder i l)
    (h : Holds src ptr (table i l)) :
    (∀ r, (unicode, r) ∈ l → ∃ chr, findChar src unicode ptr i = some chr ∧
      Holds src chr r.bytes) ∧
    (unicode ∉ l.map Prod.fst → findChar src unicode ptr i = none) := by
  induction l generalizing ptr i with
  | nil =>
      refine ⟨fun r hr => absurd hr List.not_mem_nil, fun _ => ?_⟩
      have hle : i ≤ 0x110000 := horder
      rw [findChar_gap h (by omega), findChar, if_neg (by omega)]
  | cons q l ih =>
      obtain ⟨u, r⟩ := q
      obtain ⟨hle, hrest⟩ := horder
      rw [table, holds_append, holds_append] at h
      obtain ⟨hgap, hrecord, htable⟩ := h
      have hu := hrest.le
      rw [findChar_gap hgap (by omega), Nat.add_sub_cancel' hle,
        findChar_record r hrecord (by omega)]
      obtain ⟨hfound, hnone⟩ := ih hrest htable
      by_cases heq : u = unicode
      · subst heq
        rw [if_pos rfl]
        refine ⟨fun r' hr' => ⟨_, rfl, ?_⟩, fun hno => absurd List.mem_cons_self hno⟩
        rcases List.mem_cons.mp hr' with hhead | htail
        · rwa [(Prod.mk.inj hhead).2]
        · exact absurd (hrest.le_of_mem htail) (Nat.not_succ_le_self u)
      · rw [if_neg heq]
        refine ⟨fun r' hr' => hfound r' ?_, fun hno => hnone fun hin => hno ?_⟩
        · rcases List.mem_cons.mp hr' with hhead | htail
          · exact absurd (Prod.mk.inj hhead).1.symm heq
          · exact htail
        · exact List.mem_cons_of_mem _ hin

/-- **`ssfn_putc` finds the characters of a font**: the record of each one in its table, and none
for any other. -/
theorem findChar_table (l : List (Nat × Record)) (horder : InOrder 0 l)
    (h : Holds src (charactersOffs src) (table 0 l)) (unicode : Nat) :
    (∀ r, (unicode, r) ∈ l → ∃ chr, findChar src unicode (charactersOffs src) 0 = some chr ∧
      Holds src chr r.bytes) ∧
    (unicode ∉ l.map Prod.fst → findChar src unicode (charactersOffs src) 0 = none) :=
  findChar_from l horder h

end Steps

/-- What is behind the first bytes of a font. -/
theorem holds_behind (front l : List (BitVec 8)) :
    Holds (fun i => (front ++ l).getD i 0) front.length l := by
  intro i b hb
  dsimp only
  rw [List.getD_append_right _ _ _ _ (Nat.le_add_right _ _), Nat.add_sub_cancel_left,
    List.getD_eq_getElem?_getD, hb]
  rfl

/-- The record of a blank. -/
def blankRecord : Record := ⟨0, 0, [8, 16, 9, 0], by decide, by decide⟩

/-- The bytes of a font in front of its table. -/
def fontHeader : List (BitVec 8) :=
  [0x53, 0x46, 0x4e, 0x32, 0, 0, 0, 0, 0, 0, 0, 0, 0, 0, 0, 0, 20, 0, 0, 0]

/-- A table of a blank, and of one more far behind it. -/
theorem findChar_table_blanks :
    let l := [(0x20, blankRecord), (0x12000, blankRecord)]
    let src : Bytes := fun i => (fontHeader ++ table 0 l).getD i 0
    (∀ r, (0x12000, r) ∈ l → ∃ chr, findChar src 0x12000 (charactersOffs src) 0 = some chr ∧
      Holds src chr r.bytes) ∧
    (0x12000 ∉ l.map Prod.fst → findChar src 0x12000 (charactersOffs src) 0 = none) :=
  findChar_table [(0x20, blankRecord), (0x12000, blankRecord)]
    ⟨by decide, by decide, (by decide : 0x12000 + 1 ≤ 0x110000)⟩ (holds_behind fontHeader _) 0x12000

end FrazzOS.Ssfn
