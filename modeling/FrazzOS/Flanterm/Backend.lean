import FrazzOS.Flanterm.Flush

/-!
# Flanterm — Backend

The backend of `fb.c` and the screen, call by call.

* `fbCall_yields`: a call keeps them together, and no call goes outside of an array.
* `fullRefresh_eq`: plotting everything again shows in the cells what a flush shows.
-/

namespace FrazzOS.Flanterm

open Faults

section Calls

variable {cfg : FbConfig} {base : Nat → BitVec 32} {ctx : Context} {rows cols : Nat}
  {s s' : FbContext} {t : Screen} {cells : Cells} {k : Call}

/-- Where only the queue has changed, the screen is the one that it holds. -/
theorem Refines.queued (h : Refines cfg base rows cols s t) (hcells : Buffers rows cols s' cells)
    (hq : Queued s s') : Refines cfg base rows cols s' { t with cells := cells } where
  pen := hq.pen.trans h.pen
  buffers := hcells
  settled x y hx hy hno := by
    rw [hq.grid]
    rw [hq.oldCursorX, hq.oldCursorY] at hno
    exact h.settled x y hx hy hno
  displays := hq.framebuffer ▸ h.displays
  margin := hq.framebuffer ▸ h.margin

/-- The pen is the one of the screen. -/
theorem Refines.withPen (h : Refines cfg base rows cols s t) (p : Pen) :
    Refines cfg base rows cols { s with toPen := p } { t with toPen := p } :=
  ⟨rfl, ⟨h.buffers.coherent, h.buffers.items, h.buffers.view⟩, h.settled, h.displays, h.margin⟩

/-- What changes the pen changes that of the screen. -/
theorem Refines.mapPen (h : Refines cfg base rows cols s t) (f : Pen → Pen) :
    Refines cfg base rows cols { s with toPen := f s.toPen } { t with toPen := f t.toPen } := by
  rw [h.pen]
  exact h.withPen _

theorem Refines.cursor_eq (h : Refines cfg base rows cols s t) :
    s.cursorX = t.cursorX ∧ s.cursorY = t.cursorY :=
  ⟨congrArg Pen.cursorX h.pen, congrArg Pen.cursorY h.pen⟩

theorem Refines.empty_eq (h : Refines cfg base rows cols s t) : s.empty = t.empty := by
  rw [h.pen]

theorem scroll_yields (hctx : ctx.Frame rows cols) (h : Refines cfg base rows cols s t) :
    Yields (Refines cfg base rows cols · (t.scroll ctx)) (flantermFbScroll ctx s) := by
  refine (flantermFbScroll_yields hctx h.buffers).mono fun s' hs' => ?_
  rw [h.empty_eq] at hs'
  exact h.queued hs'.1 hs'.2

theorem revscroll_yields (hctx : ctx.Frame rows cols) (h : Refines cfg base rows cols s t) :
    Yields (Refines cfg base rows cols · (t.revscroll ctx)) (flantermFbRevscroll ctx s) := by
  refine (flantermFbRevscroll_yields hctx h.buffers).mono fun s' hs' => ?_
  rw [h.empty_eq] at hs'
  exact h.queued hs'.1 hs'.2

theorem clear_yields (hctx : ctx.Frame rows cols) (h : Refines cfg base rows cols s t)
    (move : Bool) :
    Yields (Refines cfg base rows cols · (t.clear move)) (flantermFbClear ctx move s) := by
  refine (flantermFbClear_yields hctx h.buffers move).mono fun s' hs' => ?_
  rw [h.empty_eq] at hs'
  cases move with
  | false => exact h.queued hs'.1 hs'.2
  | true =>
      have hpen : s'.toPen = { t.toPen with cursorX := 0, cursorY := 0 } :=
        hs'.2.pen.trans (congrArg (fun p : Pen => { p with cursorX := 0, cursorY := 0 }) h.pen)
      exact (h.withPen { t.toPen with cursorX := 0, cursorY := 0 }).queued hs'.1
        ⟨hpen, hs'.2.grid, hs'.2.framebuffer, hs'.2.oldCursorX, hs'.2.oldCursorY⟩

theorem wrapLine_yields (hctx : ctx.Frame rows cols) (h : Refines cfg base rows cols s t) :
    Yields (Refines cfg base rows cols · (t.wrapLine ctx)) (wrapLine ctx s) := by
  rw [wrapLine, Screen.wrapLine, h.cursor_eq.2]
  split
  · have hback := h.mapPen fun p => { p with cursorY := p.cursorY - 1 }
    rw [h.cursor_eq.2] at hback
    exact scroll_yields hctx hback
  · exact yields_some h

/-- The cursor goes to the next line. -/
theorem nextLine_yields (hctx : ctx.Frame rows cols) (h : Refines cfg base rows cols s t) :
    Yields (Refines cfg base rows cols · (t.nextLine ctx)) (nextLine ctx s) := by
  rw [nextLine, Screen.nextLine, h.cursor_eq.1, h.cursor_eq.2]
  split
  · have hdown := h.mapPen fun p => { p with cursorX := 0, cursorY := p.cursorY + 1 }
    rw [h.cursor_eq.2] at hdown
    exact (wrapLine_yields hctx hdown).bind fun s' hs' => yields_some (hs'.mapPen (clampLine ctx))
  · exact yields_some h

/-- **A character**, at the cursor. -/
theorem rawPutchar_yields (hctx : ctx.Frame rows cols) (h : Refines cfg base rows cols s t)
    (c : BitVec 8) :
    Yields (Refines cfg base rows cols · (t.rawPutchar ctx c)) (flantermFbRawPutchar ctx c s) := by
  refine (nextLine_yields hctx h).bind fun s₁ h₁ => ?_
  refine (pushToQueue_yields hctx h₁.buffers _ s₁.cursorX s₁.cursorY).bind fun s₂ hs₂ => ?_
  have hput := (h₁.queued hs₂.1 hs₂.2).mapPen fun p => { p with cursorX := p.cursorX + 1 }
  refine yields_some ?_
  rw [h₁.pen] at hput
  exact hput

theorem moveCharacter_yields (hctx : ctx.Frame rows cols) (h : Refines cfg base rows cols s t)
    (newX newY oldX oldY : Nat) :
    Yields (Refines cfg base rows cols · (t.moveCharacter ctx newX newY oldX oldY))
      (flantermFbMoveCharacter ctx newX newY oldX oldY s) := by
  have heq : { t with cells := (t.moveCharacter ctx newX newY oldX oldY).cells } =
      t.moveCharacter ctx newX newY oldX oldY := by
    rw [Screen.moveCharacter]
    split <;> rfl
  rw [← heq]
  exact (flantermFbMoveCharacter_yields hctx h.buffers newX newY oldX oldY).mono fun s' hs' =>
    h.queued hs'.1 hs'.2

/-- **A call of the context** keeps the backend and the screen together: none goes outside of an
array of the backend. -/
theorem fbCall_yields (hctx : ctx.Frame rows cols) (hfits : cfg.Fits rows cols) (hk : k.Legal)
    (h : Refines cfg base rows cols s t) :
    Yields (fun t' => Yields (Refines cfg base rows cols · t') (fbCall cfg ctx k s))
      (screenCall cfg ctx k t) := by
  have hpen : ∀ k : Call, k.Legal →
      Yields (fun t' => Yields (Refines cfg base rows cols · t')
        (do return { s with toPen := ← penCall cfg ctx k s.toPen }))
      (do return { t with toPen := ← penCall cfg ctx k t.toPen }) := by
    intro k hk
    obtain ⟨p, hp, -⟩ := @penCall_yields cfg ctx k hk t.toPen
    rw [h.pen, hp]
    exact yields_some (yields_some (h.withPen p))
  cases k with
  | rawPutchar c => exact yields_some (rawPutchar_yields hctx h c)
  | clear move => exact yields_some (clear_yields hctx h move)
  | moveCharacter newX newY oldX oldY =>
      exact yields_some (moveCharacter_yields hctx h newX newY oldX oldY)
  | scroll => exact yields_some (scroll_yields hctx h)
  | revscroll => exact yields_some (revscroll_yields hctx h)
  | doubleBufferFlush =>
      obtain ⟨rfl, rfl, -⟩ := hctx
      exact yields_some (flush_yields hfits h)
  | _ => exact hpen _ hk

end Calls

section Refresh

variable {cfg : FbConfig} {ctx : Context} {s : FbContext} {t : Screen} {fb : Nat → BitVec 32}
  {grid : Nat → FbChar}

/-- Every cell is plotted, from the left to the right and from the top to the bottom. -/
theorem plotAll_yields (hfits : cfg.Fits ctx.rows ctx.cols) (hcols : 0 < ctx.cols) :
    Yields (fun fb' => Displays cfg ctx.rows ctx.cols (fun _ _ => True) fb'
        (fun x y => grid (y * ctx.cols + x)) ∧
        ∀ a, cfg.Margin ctx.rows ctx.cols a → fb' a = fb a)
      ((List.range' 0 (ctx.rows * ctx.cols)).foldlM (fun fb i =>
        plotChar cfg ctx (grid i) (i % ctx.cols) (i / ctx.cols) fb) fb) := by
  refine (yields_up (P := fun i fb' => Displays cfg ctx.rows ctx.cols
      (fun x y => y * ctx.cols + x < i) fb' (fun x y => grid (y * ctx.cols + x)) ∧
      ∀ a, cfg.Margin ctx.rows ctx.cols a → fb' a = fb a) 0 (ctx.rows * ctx.cols)
    ⟨fun x y _ _ _ _ _ _ h => absurd h (Nat.not_lt_zero _), fun _ _ => rfl⟩
    fun i fb' _ hi h => ?_).mono fun fb' h => ?_
  · rw [Nat.zero_add] at hi
    obtain ⟨x₀, y₀, hx₀, rfl⟩ := exists_index hcols i
    obtain ⟨hmod, hdiv⟩ := @split_index ctx.cols x₀ y₀ hx₀
    have hy₀ := index_lt_row hx₀ |>.mp hi
    rw [hmod, hdiv, plotChar_eq hfits hx₀ hy₀]
    refine yields_some ⟨(displays_plotted hfits hx₀
      (h.1.mono fun x y _ _ hS => ⟨hS.1, rfl⟩)).mono fun x y hx hy hS => ?_, fun a ha =>
        (plotted_outside hfits hx₀ hy₀ ha).trans (h.2 a ha)⟩
    refine ⟨(index_lt_succ hx hx₀).mp hS, ?_⟩
    rw [Cells.put]
    split
    · rename_i heq
      rw [heq.1, heq.2]
    · rfl
  · exact ⟨h.1.mono fun x y hx hy _ =>
      ⟨(Nat.zero_add _).symm ▸ index_lt hx hy, rfl⟩, h.2⟩

/-- The cursor over a grid that is to be seen, where nothing waits in the queue. -/
theorem showCursor_eq (hfits : cfg.Fits ctx.rows ctx.cols)
    (hgrid : ∀ x y, x < ctx.cols → y < ctx.rows → s.grid (y * ctx.cols + x) = t.cells x y)
    (hmap : ∀ i, s.map i = none) (hpen : s.toPen = t.toPen)
    (hfb : Displays cfg ctx.rows ctx.cols (fun _ _ => True) s.framebuffer
      fun x y => s.grid (y * ctx.cols + x)) :
    ∃ f, showCursor cfg ctx s = some { s with framebuffer := f } ∧
      Displays cfg ctx.rows ctx.cols (fun _ _ => True) f (t.flush ctx).shown ∧
      ∀ a, cfg.Margin ctx.rows ctx.cols a → f a = s.framebuffer a := by
  have hstay : (∀ x y, x < ctx.cols → y < ctx.rows → ¬ AtCursor ctx t.toPen x y) →
      Displays cfg ctx.rows ctx.cols (fun _ _ => True) s.framebuffer (t.flush ctx).shown :=
    fun hno => hfb.mono fun x y hx hy _ =>
      ⟨trivial, (if_neg (hno x y hx hy)).trans (hgrid x y hx hy).symm⟩
  rw [showCursor]
  by_cases henabled : ctx.cursorEnabled = true
  · rw [if_pos henabled]
    by_cases hin : s.cursorX < ctx.cols ∧ s.cursorY < ctx.rows
    · obtain ⟨hx, hy⟩ := hin
      have hsettle : s.settle FbQueueItem.c (s.cursorY * ctx.cols + s.cursorX) = s.toOverlay := by
        rw [Overlay.settle, Overlay.view_of_none (hmap _), Function.update_eq_self]
        have hupdate := Function.update_eq_self (s.cursorY * ctx.cols + s.cursorX) s.map
        rw [hmap] at hupdate
        rw [hupdate]
      rw [drawCursor_eq hfits hx hy, hsettle]
      refine ⟨_, rfl, ?_, fun a ha => plotted_outside hfits hx hy ha⟩
      refine (displays_plotted (S := fun _ _ => True) hfits hx
        (hfb.mono fun x y _ _ _ => ⟨trivial, rfl⟩)).mono fun x y hx' hy' _ => ⟨.inl trivial, ?_⟩
      rw [Cells.put, Overlay.view_of_none (hmap _), hgrid _ _ hx hy]
      by_cases hat : x = s.cursorX ∧ y = s.cursorY
      · rw [if_pos hat, ← hat.1, ← hat.2]
        exact if_pos ⟨henabled, hpen ▸ hat⟩
      · rw [if_neg hat, hgrid x y hx' hy']
        refine if_neg fun h => hat ?_
        rw [hpen]
        exact h.2
    · rw [drawCursor, if_pos (by omega)]
      refine ⟨_, rfl, hstay fun x y hx hy hat => hin ?_, fun _ _ => rfl⟩
      obtain ⟨-, rfl, rfl⟩ := hat
      rw [hpen]
      exact ⟨hx, hy⟩
  · rw [if_neg henabled]
    exact ⟨_, rfl, hstay fun x y _ _ hat => henabled hat.1, fun _ _ => rfl⟩

/-- **Everything is plotted again**, over the canvas: what is to be seen then, behind an empty queue,
is what a flush shows. -/
theorem fullRefresh_eq (hfits : cfg.Fits ctx.rows ctx.cols) (hcols : 0 < ctx.cols)
    (hgrid : ∀ x y, x < ctx.cols → y < ctx.rows → s.grid (y * ctx.cols + x) = t.cells x y)
    (hmap : ∀ i, s.map i = none) (hpen : s.toPen = t.toPen)
    (hcanvas : copyCanvas cfg s.framebuffer = some fb) :
    ∃ f, flantermFbFullRefresh cfg ctx s = some { s with framebuffer := f } ∧
      Displays cfg ctx.rows ctx.cols (fun _ _ => True) f (t.flush ctx).shown ∧
      ∀ a, cfg.Margin ctx.rows ctx.cols a → f a = fb a := by
  obtain ⟨fb', hplot, hdisplays, hmargin⟩ := @plotAll_yields cfg ctx fb s.grid hfits hcols
  obtain ⟨f, hf, hshown, hframe⟩ := @showCursor_eq cfg ctx { s with framebuffer := fb' } t hfits
    hgrid hmap hpen hdisplays
  refine ⟨f, ?_, hshown, fun a ha => (hframe a ha).trans (hmargin a ha)⟩
  rw [flantermFbFullRefresh, hcanvas, Option.bind_eq_bind, Option.bind_some, hplot,
    Option.bind_some, hf]

end Refresh

end FrazzOS.Flanterm
