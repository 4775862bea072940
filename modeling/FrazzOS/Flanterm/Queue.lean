import FrazzOS.Flanterm.Plot
import FrazzOS.Flanterm.Screen

/-!
# Flanterm — Queue

The functions of the backend that put characters into the queue, beside those of the screen.

* `Buffers`: the queue and the grid together hold the characters of a screen.
* `pushToQueue_yields`: `push_to_queue` finds room, and writes one character.
* `flantermFbScroll_yields`, `flantermFbRevscroll_yields`, `flantermFbClear_yields`: the loops that
  write a screenful of characters, one after the other, write what the screen does at once.
* `Queued`: none of them touches the grid or the framebuffer.
-/

namespace FrazzOS.Flanterm

open Faults

/-- The queue and the grid hold the characters of a screen. -/
structure Buffers (rows cols : Nat) (s : FbContext) (cells : Cells) : Prop where
  coherent : s.Coherent (FbQueueItem.key cols) (rows * cols)
  items : ∀ q, q < s.queueI → (s.queue q).x < cols ∧ (s.queue q).y < rows
  view : ∀ x y, x < cols → y < rows → s.view FbQueueItem.c (y * cols + x) = cells x y

/-- The queue only has changed. -/
structure Queued (s s' : FbContext) : Prop where
  pen : s'.toPen = s.toPen
  grid : s'.grid = s.grid
  framebuffer : s'.framebuffer = s.framebuffer
  oldCursorX : s'.oldCursorX = s.oldCursorX
  oldCursorY : s'.oldCursorY = s.oldCursorY

theorem Queued.refl (s : FbContext) : Queued s s := ⟨rfl, rfl, rfl, rfl, rfl⟩

theorem Queued.trans {s s₁ s' : FbContext} (h : Queued s s₁) (h' : Queued s₁ s') : Queued s s' :=
  ⟨h'.pen.trans h.pen, h'.grid.trans h.grid, h'.framebuffer.trans h.framebuffer,
    h'.oldCursorX.trans h.oldCursorX, h'.oldCursorY.trans h.oldCursorY⟩

theorem Queued.empty_eq {s s' : FbContext} (h : Queued s s') : s'.empty = s.empty := by
  rw [h.pen]

section Queue

variable {ctx : Context} {rows cols i x y : Nat} {s s' : FbContext} {cells cells' : Cells}
  {c : FbChar}

theorem Buffers.congr (h : Buffers rows cols s cells)
    (heq : ∀ x y, x < cols → y < rows → cells' x y = cells x y) : Buffers rows cols s cells' :=
  ⟨h.coherent, h.items, fun x y hx hy => by rw [h.view x y hx hy, heq x y hx hy]⟩

/-- The index of a cell is one of the grid. -/
theorem index_lt (hx : x < cols) (hy : y < rows) : y * cols + x < rows * cols := by
  have hrow : (y + 1) * cols ≤ rows * cols := Nat.mul_le_mul_right _ hy
  rw [Nat.add_mul, Nat.one_mul] at hrow
  omega

/-- The column and the row of an index. -/
theorem cell_of_index (hi : i < rows * cols) : i % cols < cols ∧ i / cols < rows := by
  have hpos : 0 < cols := Nat.pos_of_mul_pos_left (Nat.zero_lt_of_lt hi)
  exact ⟨Nat.mod_lt i hpos, Nat.div_lt_of_lt_mul (Nat.mul_comm rows cols ▸ hi)⟩

theorem index_eq (i cols : Nat) : i / cols * cols + i % cols = i := Nat.div_add_mod' i cols

/-- `compare_char` compares all of two characters. -/
theorem compareChar_iff {a b : FbChar} : compareChar a b = true ↔ a = b := by
  obtain ⟨c, fg, bg, -⟩ := a
  obtain ⟨c', fg', bg', -⟩ := b
  simp only [compareChar, Bool.not_eq_true', Bool.or_eq_false_iff, bne_eq_false_iff_eq,
    FbChar.mk.injEq]
  exact ⟨fun h => ⟨h.1.1, h.2, h.1.2⟩, fun h => ⟨⟨h.1, h.2.2⟩, h.2.1⟩⟩

/-- **`push_to_queue`** finds room in the queue, and writes one character. -/
theorem pushToQueue_yields (hctx : ctx.Frame rows cols) (h : Buffers rows cols s cells)
    (c : FbChar) (x y : Nat) :
    Yields (fun s' => Buffers rows cols s' (cells.put c x y) ∧ Queued s s')
      (pushToQueue ctx c x y s) := by
  obtain ⟨hrows, hcols, -, -, -, -, -⟩ := hctx
  rw [pushToQueue, hrows, hcols]
  split
  · -- off the grid nothing is written
    rename_i hout
    refine yields_some ⟨h.congr fun x' y' hx' hy' => ?_, Queued.refl s⟩
    exact if_neg (by omega)
  · rename_i hin
    have hx : x < cols := by omega
    have hy : y < rows := by omega
    have hindex : ∀ x' y', x' < cols → y' < rows →
        (y' * cols + x' = y * cols + x ↔ x' = x ∧ y' = y) := by
      intro x' y' hx' _
      constructor
      · intro heq
        obtain ⟨hy', hx'⟩ := mul_add_inj hx' hx heq
        exact ⟨hx', hy'⟩
      · rintro ⟨rfl, rfl⟩
        rfl
    dsimp only
    split
    · -- the write that waits is replaced
      rename_i q hq
      obtain ⟨hlt, hkey⟩ := h.coherent.queued _ q hq
      refine yields_some ⟨⟨Overlay.coherent_amend h.coherent rfl, fun q' hq' => ?_,
        fun x' y' hx' hy' => ?_⟩, ⟨rfl, rfl, rfl, rfl, rfl⟩⟩
      · by_cases heq : q' = q
        · subst heq
          simp only [Overlay.amend, Function.update_self]
          exact h.items q' hq'
        · simp only [Overlay.amend, Function.update_of_ne heq]
          exact h.items q' hq'
      · rw [Overlay.view_amend h.coherent hq, Cells.put]
        simp only [hindex x' y' hx' hy', h.view x' y' hx' hy']
    · rename_i hnone
      split
      · -- the character is there already
        rename_i hsame
        refine yields_some ⟨h.congr fun x' y' hx' hy' => ?_, Queued.refl s⟩
        rw [Cells.put]
        split
        · rename_i heq
          rw [heq.1, heq.2, ← h.view x y hx hy, Overlay.view_of_none hnone, compareChar_iff.mp hsame]
        · rfl
      · have hroom : s.queueI < rows * cols :=
          @Overlay.Coherent.room _ _ _ _ _ ⟨x, y, c⟩ _ h.coherent (index_lt hx hy) hnone rfl
        rw [if_pos hroom]
        refine yields_some ⟨⟨Overlay.coherent_enqueue h.coherent (index_lt hx hy) hnone rfl,
          fun q hq => ?_, fun x' y' hx' hy' => ?_⟩, ⟨rfl, rfl, rfl, rfl, rfl⟩⟩
        · rcases Nat.lt_succ_iff_lt_or_eq.mp hq with hlt | rfl
          · simp only [Overlay.enqueue, Function.update_of_ne (Nat.ne_of_lt hlt)]
            exact h.items q hlt
          · simp only [Overlay.enqueue, Function.update_self]
            exact ⟨hx, hy⟩
        · rw [Overlay.view_enqueue h.coherent, Cells.put]
          simp only [hindex x' y' hx' hy', h.view x' y' hx' hy']

/-- A character is read. -/
theorem charAt_eq (hctx : ctx.Frame rows cols) (h : Buffers rows cols s cells)
    (hi : i < rows * cols) : charAt ctx i s = some (cells (i % cols) (i / cols)) := by
  obtain ⟨hx, hy⟩ := cell_of_index hi
  rw [charAt, hctx.rows_eq, hctx.cols_eq, if_pos hi, ← h.view _ _ hx hy, index_eq]

/-- A line is blanked, from the left to the right. -/
theorem blankLine_yields (hctx : ctx.Frame rows cols) (h : Buffers rows cols s cells) (y : Nat) :
    Yields (fun s' => Buffers rows cols s' (fun x' y' => if y' = y then s.empty else cells x' y') ∧
        Queued s s')
      ((List.range' 0 ctx.cols).foldlM (fun s i => pushToQueue ctx s.empty i y s) s) := by
  have hloop := yields_up (s := s) (f := fun s i => pushToQueue ctx s.empty i y s)
    (P := fun i s' => Buffers rows cols s'
      (fun x' y' => if y' = y ∧ x' < i then s.empty else cells x' y') ∧ Queued s s')
    0 ctx.cols ⟨h.congr fun x' y' _ _ => if_neg (by omega), Queued.refl s⟩
    fun i s' _ _ hs' => ?_
  · refine hloop.mono fun s' hs' => ⟨hs'.1.congr fun x' y' hx' _ => ?_, hs'.2⟩
    have hall : x' < 0 + ctx.cols := by have := hctx.cols_eq; omega
    simp only [hall, and_true]
  · refine (pushToQueue_yields hctx hs'.1 s'.empty i y).mono fun s'' hs'' =>
      ⟨hs''.1.congr fun x' y' _ _ => ?_, hs'.2.trans hs''.2⟩
    rw [hs'.2.empty_eq, Cells.put]
    by_cases heq : x' = i ∧ y' = y
    · rw [if_pos heq, if_pos (by omega)]
    · have hiff : (y' = y ∧ x' < i + 1) ↔ y' = y ∧ x' < i := by omega
      rw [if_neg heq]
      simp only [hiff]

/-- The index of a cell, taken apart. -/
theorem split_index (hx : x < cols) : (y * cols + x) % cols = x ∧ (y * cols + x) / cols = y := by
  rw [Nat.mul_comm, Nat.mul_add_mod, Nat.mod_eq_of_lt hx, mul_add_div_self hx]
  exact ⟨rfl, rfl⟩

theorem exists_index (hcols : 0 < cols) (i : Nat) : ∃ x y, x < cols ∧ i = y * cols + x :=
  ⟨i % cols, i / cols, Nat.mod_lt i hcols, (index_eq i cols).symm⟩

/-- The cells of the rows above one. -/
theorem index_lt_row {n : Nat} (hx : x < cols) : y * cols + x < n * cols ↔ y < n := by
  constructor
  · intro h
    by_contra hn
    have := Nat.mul_le_mul_right cols (Nat.le_of_not_lt hn)
    omega
  · exact fun h => index_lt hx h

/-- The next cell in the order of the loops. -/
theorem index_lt_succ {x₀ y₀ : Nat} (hx : x < cols) (hx₀ : x₀ < cols) :
    y * cols + x < y₀ * cols + x₀ + 1 ↔
      y * cols + x < y₀ * cols + x₀ ∨ (x = x₀ ∧ y = y₀) := by
  constructor
  · intro h
    rcases Nat.lt_succ_iff_lt_or_eq.mp h with hlt | heq
    · exact .inl hlt
    · obtain ⟨hy, hx⟩ := mul_add_inj hx hx₀ heq
      exact .inr ⟨hx, hy⟩
  · rintro (hlt | ⟨rfl, rfl⟩)
    · omega
    · exact Nat.lt_succ_self _

/-- The lines that the loop of `scroll` has moved before the round `i`. -/
def movedUp (top cols : Nat) (cells : Cells) (i : Nat) : Cells :=
  fun x y => if top ≤ y ∧ (y + 1) * cols + x < i then cells x (y + 1) else cells x y

/-- A round of the loop of `scroll`. -/
theorem scrollRound_yields {x₀ y₀ top : Nat} (hctx : ctx.Frame rows cols) (hx₀ : x₀ < cols)
    (htop : top ≤ y₀) (hy₀ : y₀ + 1 < rows)
    (h : Buffers rows cols s (movedUp top cols cells ((y₀ + 1) * cols + x₀))) :
    Yields (fun s' => Buffers rows cols s' (movedUp top cols cells ((y₀ + 1) * cols + x₀ + 1)) ∧
        Queued s s') (do
      pushToQueue ctx (← charAt ctx ((y₀ + 1) * cols + x₀) s)
        (((y₀ + 1) * cols + x₀ - cols) % cols) (((y₀ + 1) * cols + x₀ - cols) / cols) s) := by
  have hback : (y₀ + 1) * cols + x₀ - cols = y₀ * cols + x₀ := by
    rw [Nat.add_mul, Nat.one_mul]
    omega
  obtain ⟨hmod, hdiv⟩ := @split_index cols x₀ (y₀ + 1) hx₀
  obtain ⟨hmod', hdiv'⟩ := @split_index cols x₀ y₀ hx₀
  rw [charAt_eq hctx h (index_lt hx₀ hy₀), hback, hmod, hdiv, hmod', hdiv']
  refine (pushToQueue_yields hctx h _ x₀ y₀).mono fun s' hs' =>
    ⟨hs'.1.congr fun x y hx _ => ?_, hs'.2⟩
  -- the line that is read has not moved
  have hread : movedUp top cols cells ((y₀ + 1) * cols + x₀) x₀ (y₀ + 1) = cells x₀ (y₀ + 1) := by
    refine if_neg fun hmoved => ?_
    have := hmoved.2
    rw [Nat.add_mul (y₀ + 1), Nat.one_mul] at this
    omega
  rw [Cells.put, hread]
  unfold movedUp
  by_cases heq : x = x₀ ∧ y = y₀
  · obtain ⟨rfl, rfl⟩ := heq
    rw [if_pos ⟨htop, Nat.lt_succ_self _⟩, if_pos ⟨rfl, rfl⟩]
  · have hiff : (top ≤ y ∧ (y + 1) * cols + x < (y₀ + 1) * cols + x₀ + 1) ↔
        top ≤ y ∧ (y + 1) * cols + x < (y₀ + 1) * cols + x₀ := by
      rw [index_lt_succ hx hx₀, Nat.add_right_cancel_iff]
      simp only [heq, or_false]
    simp only [hiff, if_neg heq]

/-- **`scroll`** moves the lines of the region up. -/
theorem flantermFbScroll_yields (hctx : ctx.Frame rows cols) (h : Buffers rows cols s cells) :
    Yields (fun s' => Buffers rows cols s'
        (cells.up ctx.scrollTopMargin ctx.scrollBottomMargin s.empty) ∧ Queued s s')
      (flantermFbScroll ctx s) := by
  have hsub := hctx.sub64_bottom
  obtain ⟨rfl, rfl, hrpos, hcpos, -, -, htop, hbpos, hbottom⟩ := id hctx
  have hend : ∀ x y, x < ctx.cols → ((ctx.scrollTopMargin ≤ y ∧ (y + 1) * ctx.cols + x <
      (ctx.scrollTopMargin + 1) * ctx.cols +
        (ctx.scrollBottomMargin * ctx.cols - (ctx.scrollTopMargin + 1) * ctx.cols)) ↔
      ctx.scrollTopMargin ≤ y ∧ y + 1 < ctx.scrollBottomMargin) := by
    intro x y hx
    rcases Nat.lt_or_ge ctx.scrollTopMargin ctx.scrollBottomMargin with hlt | hge
    · have hle := Nat.mul_le_mul_right ctx.cols (Nat.succ_le_of_lt hlt)
      rw [Nat.add_sub_cancel' hle, index_lt_row hx]
    · have hle := Nat.mul_le_mul_right ctx.cols (Nat.le_succ_of_le hge)
      rw [Nat.sub_eq_zero_of_le hle, Nat.add_zero (_ * ctx.cols), index_lt_row hx]
      omega
  have hloop := yields_up (s := s)
    (f := fun s i => do
      pushToQueue ctx (← charAt ctx i s) ((i - ctx.cols) % ctx.cols) ((i - ctx.cols) / ctx.cols) s)
    (P := fun i s' => Buffers ctx.rows ctx.cols s' (movedUp ctx.scrollTopMargin ctx.cols cells i) ∧
      Queued s s')
    ((ctx.scrollTopMargin + 1) * ctx.cols)
    (ctx.scrollBottomMargin * ctx.cols - (ctx.scrollTopMargin + 1) * ctx.cols)
    ⟨h.congr fun x y hx _ => ?_, Queued.refl s⟩ fun i s' hlo hi hs' => ?_
  · refine hloop.bind fun s₁ hs₁ => ?_
    refine (blankLine_yields hctx hs₁.1 (sub64 ctx.scrollBottomMargin 1)).mono fun s₂ hs₂ =>
      ⟨hs₂.1.congr fun x y hx hy => ?_, hs₁.2.trans hs₂.2⟩
    have hlast : y = sub64 ctx.scrollBottomMargin 1 ↔ y + 1 = ctx.scrollBottomMargin := by omega
    simp only [movedUp, Cells.up, hlast, hs₁.2.empty_eq, hend x y hx]
  · refine if_neg ?_
    rw [index_lt_row hx]
    omega
  · obtain ⟨x₀, y₁, hx₀, rfl⟩ := exists_index hcpos i
    obtain ⟨y₀, rfl⟩ : ∃ y₀, y₁ = y₀ + 1 := by
      refine ⟨y₁ - 1, ?_⟩
      have := mt (@index_lt_row ctx.cols x₀ y₁ (ctx.scrollTopMargin + 1) hx₀).mpr (by omega)
      omega
    have hge := mt (@index_lt_row ctx.cols x₀ (y₀ + 1) (ctx.scrollTopMargin + 1) hx₀).mpr (by omega)
    have hlt := (@index_lt_row ctx.cols x₀ (y₀ + 1) ctx.scrollBottomMargin hx₀).mp (by omega)
    exact (scrollRound_yields hctx hx₀ (by omega) (by omega) hs'.1).mono fun s'' hs'' =>
      ⟨hs''.1, hs'.2.trans hs''.2⟩

/-- The lines that the loop of `revscroll` has moved before the round below `i`. -/
def movedDown (top bottom cols : Nat) (cells : Cells) (i : Nat) : Cells :=
  fun x y =>
    if top < y ∧ y < bottom ∧ i ≤ (y - 1) * cols + x then cells x (y - 1) else cells x y

/-- A round of the loop of `revscroll`. -/
theorem revscrollRound_yields {x₀ y₀ top bottom : Nat} (hctx : ctx.Frame rows cols)
    (hx₀ : x₀ < cols) (htop : top ≤ y₀) (hbottom : y₀ + 1 < bottom) (hrows : bottom ≤ rows)
    (h : Buffers rows cols s (movedDown top bottom cols cells (y₀ * cols + x₀ + 1))) :
    Yields (fun s' => Buffers rows cols s' (movedDown top bottom cols cells (y₀ * cols + x₀)) ∧
        Queued s s') (do
      pushToQueue ctx (← charAt ctx (y₀ * cols + x₀) s)
        ((y₀ * cols + x₀ + cols) % cols) ((y₀ * cols + x₀ + cols) / cols) s) := by
  have hon : y₀ * cols + x₀ + cols = (y₀ + 1) * cols + x₀ := by
    rw [Nat.add_mul, Nat.one_mul]
    omega
  obtain ⟨hmod, hdiv⟩ := @split_index cols x₀ (y₀ + 1) hx₀
  obtain ⟨hmod', hdiv'⟩ := @split_index cols x₀ y₀ hx₀
  rw [charAt_eq hctx h (index_lt hx₀ (by omega)), hon, hmod, hdiv, hmod', hdiv']
  refine (pushToQueue_yields hctx h _ x₀ (y₀ + 1)).mono fun s' hs' =>
    ⟨hs'.1.congr fun x y hx _ => ?_, hs'.2⟩
  -- the line that is read has not moved
  have hread : movedDown top bottom cols cells (y₀ * cols + x₀ + 1) x₀ y₀ = cells x₀ y₀ := by
    refine if_neg fun hmoved => ?_
    obtain ⟨-, -, hle⟩ := hmoved
    have := Nat.mul_le_mul_right cols (Nat.sub_le y₀ 1)
    omega
  rw [Cells.put, hread]
  unfold movedDown
  by_cases heq : x = x₀ ∧ y = y₀ + 1
  · obtain ⟨rfl, rfl⟩ := heq
    rw [if_pos ⟨Nat.lt_succ_of_le htop, hbottom, Nat.le_refl _⟩, if_pos ⟨rfl, rfl⟩]
    rfl
  · have hiff : (top < y ∧ y < bottom ∧ y₀ * cols + x₀ ≤ (y - 1) * cols + x) ↔
        top < y ∧ y < bottom ∧ y₀ * cols + x₀ + 1 ≤ (y - 1) * cols + x := by
      refine and_congr_right fun hy => and_congr_right fun _ => ⟨fun hle => ?_, fun hlt => by omega⟩
      refine Nat.lt_of_le_of_ne hle fun hsame => heq ?_
      obtain ⟨hy₀, hx₀⟩ := mul_add_inj hx₀ hx hsame
      omega
    simp only [hiff, if_neg heq]

/-- **`revscroll`** moves the lines of the region down. -/
theorem flantermFbRevscroll_yields (hctx : ctx.Frame rows cols) (h : Buffers rows cols s cells) :
    Yields (fun s' => Buffers rows cols s'
        (cells.down ctx.scrollTopMargin ctx.scrollBottomMargin s.empty) ∧ Queued s s')
      (flantermFbRevscroll ctx s) := by
  obtain ⟨rfl, rfl, hrpos, hcpos, -, -, htop, hbpos, hbottom⟩ := id hctx
  have hloop := yields_down (s := s)
    (f := fun s i => do
      pushToQueue ctx (← charAt ctx i s) ((i + ctx.cols) % ctx.cols) ((i + ctx.cols) / ctx.cols) s)
    (P := fun i s' => Buffers ctx.rows ctx.cols s'
      (movedDown ctx.scrollTopMargin ctx.scrollBottomMargin ctx.cols cells i) ∧ Queued s s')
    (ctx.scrollTopMargin * ctx.cols)
    ((ctx.scrollBottomMargin - 1) * ctx.cols - ctx.scrollTopMargin * ctx.cols)
    ⟨h.congr fun x y hx _ => ?_, Queued.refl s⟩ fun i s' hlo hi hs' => ?_
  · refine hloop.bind fun s₁ hs₁ => ?_
    refine (blankLine_yields hctx hs₁.1 ctx.scrollTopMargin).mono fun s₂ hs₂ =>
      ⟨hs₂.1.congr fun x y hx hy => ?_, hs₁.2.trans hs₂.2⟩
    have hall : (ctx.scrollTopMargin < y ∧ y < ctx.scrollBottomMargin ∧
        ctx.scrollTopMargin * ctx.cols ≤ (y - 1) * ctx.cols + x) ↔
        ctx.scrollTopMargin < y ∧ y < ctx.scrollBottomMargin := by
      refine and_congr_right fun hy => and_iff_left_of_imp fun _ => ?_
      have := Nat.mul_le_mul_right ctx.cols (Nat.le_sub_one_of_lt hy)
      omega
    simp only [movedDown, Cells.down, hs₁.2.empty_eq, hall]
  · refine if_neg fun hmoved => ?_
    obtain ⟨hlt, hy, hle⟩ := hmoved
    have hrow := (@index_lt_row ctx.cols x (y - 1) (ctx.scrollBottomMargin - 1) hx).mpr (by omega)
    have := Nat.mul_le_mul_right ctx.cols (Nat.le_sub_one_of_lt hlt)
    omega
  · obtain ⟨x₀, y₀, hx₀, rfl⟩ := exists_index hcpos i
    have hge := mt (@index_lt_row ctx.cols x₀ y₀ ctx.scrollTopMargin hx₀).mpr (by omega)
    have hlt := (@index_lt_row ctx.cols x₀ y₀ (ctx.scrollBottomMargin - 1) hx₀).mp (by omega)
    exact (revscrollRound_yields hctx hx₀ (by omega) (by omega) hbottom hs'.1).mono fun s'' hs'' =>
      ⟨hs''.1, hs'.2.trans hs''.2⟩

/-- **`clear`** blanks the screen. -/
theorem flantermFbClear_yields (hctx : ctx.Frame rows cols) (h : Buffers rows cols s cells)
    (move : Bool) :
    Yields (fun s' => Buffers rows cols s' (fun _ _ => s.empty) ∧
        Queued (if move then { s with cursorX := 0, cursorY := 0 } else s) s')
      (flantermFbClear ctx move s) := by
  obtain ⟨rfl, rfl, hrpos, hcpos, -, -, -, -, -⟩ := id hctx
  have hloop := yields_up (s := s)
    (f := fun s i => pushToQueue ctx s.empty (i % ctx.cols) (i / ctx.cols) s)
    (P := fun i s' => Buffers ctx.rows ctx.cols s'
      (fun x y => if y * ctx.cols + x < i then s.empty else cells x y) ∧ Queued s s')
    0 (ctx.rows * ctx.cols) ⟨h.congr fun x y _ _ => if_neg (by omega), Queued.refl s⟩
    fun i s' _ _ hs' => ?_
  · refine hloop.bind fun s₁ hs₁ => yields_some ?_
    have hbuffers : Buffers ctx.rows ctx.cols s₁ fun _ _ => s.empty := by
      refine hs₁.1.congr fun x y hx hy => ?_
      rw [if_pos (by rw [Nat.zero_add]; exact index_lt hx hy)]
    cases move
    · exact ⟨hbuffers, hs₁.2⟩
    · obtain ⟨hpen, hgrid, hfb, hx, hy⟩ := hs₁.2
      refine ⟨⟨hbuffers.coherent, hbuffers.items, hbuffers.view⟩, ⟨?_, hgrid, hfb, hx, hy⟩⟩
      exact congrArg (fun p : Pen => { p with cursorX := 0, cursorY := 0 }) hpen
  · obtain ⟨x₀, y₀, hx₀, rfl⟩ := exists_index hcpos i
    obtain ⟨hmod, hdiv⟩ := @split_index ctx.cols x₀ y₀ hx₀
    rw [hmod, hdiv, hs'.2.empty_eq]
    refine (pushToQueue_yields hctx hs'.1 s.empty x₀ y₀).mono fun s'' hs'' =>
      ⟨hs''.1.congr fun x y hx _ => ?_, hs'.2.trans hs''.2⟩
    rw [Cells.put]
    by_cases heq : x = x₀ ∧ y = y₀
    · obtain ⟨rfl, rfl⟩ := heq
      rw [if_pos (Nat.lt_succ_self _), if_pos ⟨rfl, rfl⟩]
    · simp only [index_lt_succ hx hx₀, heq, or_false, if_false]

/-- **`move_character`** writes the character of a cell into another one. -/
theorem flantermFbMoveCharacter_yields (hctx : ctx.Frame rows cols) {t : Screen}
    (h : Buffers rows cols s t.cells) (newX newY oldX oldY : Nat) :
    Yields (fun s' =>
        Buffers rows cols s' (t.moveCharacter ctx newX newY oldX oldY).cells ∧ Queued s s')
      (flantermFbMoveCharacter ctx newX newY oldX oldY s) := by
  rw [flantermFbMoveCharacter, Screen.moveCharacter]
  split
  · exact yields_some ⟨h, Queued.refl s⟩
  · rename_i hin
    obtain ⟨rfl, rfl, -⟩ := id hctx
    have hx : oldX < ctx.cols := by omega
    obtain ⟨hmod, hdiv⟩ := @split_index ctx.cols oldX oldY hx
    rw [Nat.add_comm oldX, charAt_eq hctx h (index_lt hx (by omega)), hmod, hdiv]
    exact pushToQueue_yields hctx h _ newX newY

end Queue

end FrazzOS.Flanterm
