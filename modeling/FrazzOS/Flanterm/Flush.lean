import FrazzOS.Flanterm.Queue

/-!
# Flanterm — Flush

`flanterm_fb_double_buffer_flush` plots the cursor first, then what is in the queue, and last the
cell where the cursor was.  A cell is plotted by the fast path where the colours of the grid are
those of the new character, and that is right only where the framebuffer shows the grid: not where
the cursor was, which is why that cell comes last.

* `Flushing`: what holds before each round of the loop over the queue.
* `flushing_showCursor`, `flushItem_yields`: the cursor establishes it, and a round keeps it.
* `flush_yields`: afterwards the framebuffer shows what has been written.
-/

namespace FrazzOS.Flanterm

open Faults

/-- The framebuffer shows the characters in the cells for which `S` holds. -/
def Displays (cfg : FbConfig) (rows cols : Nat) (S : Nat → Nat → Prop) (fb : Nat → BitVec 32)
    (shown : Cells) : Prop :=
  ∀ x y gx gy, x < cols → y < rows → gx < cfg.glyphWidth → gy < cfg.glyphHeight → S x y →
    fb (cfg.pixel x y gx gy) = cfg.render (shown x y) x y gx gy

/-- The backend shows the screen.  Where the cursor was at the last flush the grid may differ from
what is to be seen. -/
structure Refines (cfg : FbConfig) (base : Nat → BitVec 32) (rows cols : Nat) (s : FbContext)
    (t : Screen) : Prop where
  pen : s.toPen = t.toPen
  buffers : Buffers rows cols s t.cells
  settled : ∀ x y, x < cols → y < rows → ¬ (x = s.oldCursorX ∧ y = s.oldCursorY) →
    t.shown x y = s.grid (y * cols + x)
  displays : Displays cfg rows cols (fun _ _ => True) s.framebuffer t.shown
  margin : ∀ a, cfg.Margin rows cols a → s.framebuffer a = base a

/-- The cursor was there and is there no longer. -/
def Stale (ctx : Context) (s : FbContext) (x y : Nat) : Prop :=
  x = s.oldCursorX ∧ y = s.oldCursorY ∧ ¬ AtCursor ctx s.toPen x y

/-- What holds before the round `k` of the loop over the queue of `s₀`. -/
structure Flushing (cfg : FbConfig) (base : Nat → BitVec 32) (ctx : Context) (s₀ : FbContext)
    (cells : Cells) (k : Nat) (s : FbContext) : Prop where
  pen : s.toPen = s₀.toPen
  oldCursorX : s.oldCursorX = s₀.oldCursorX
  oldCursorY : s.oldCursorY = s₀.oldCursorY
  queue : s.queue = s₀.queue
  queueI : s.queueI = s₀.queueI
  draining : s.Draining (FbQueueItem.key ctx.cols) k
  view : ∀ x y, x < ctx.cols → y < ctx.rows → s.view FbQueueItem.c (y * ctx.cols + x) = cells x y
  cursor : ∀ x y, x < ctx.cols → y < ctx.rows → AtCursor ctx s₀.toPen x y →
    s.map (y * ctx.cols + x) = none
  displays : Displays cfg ctx.rows ctx.cols (fun x y => ¬ Stale ctx s₀ x y) s.framebuffer fun x y =>
    if AtCursor ctx s₀.toPen x y then (cells x y).inverse else s.grid (y * ctx.cols + x)
  margin : ∀ a, cfg.Margin ctx.rows ctx.cols a → s.framebuffer a = base a

section Flush

variable {cfg : FbConfig} {base : Nat → BitVec 32} {ctx : Context} {s₀ s : FbContext} {t : Screen}
  {cells : Cells} {c : FbChar} {k x y : Nat} {S : Nat → Nat → Prop} {fb : Nat → BitVec 32}

/-- `plot_char` shows a character. -/
theorem displays_plotted (hfits : cfg.Fits ctx.rows ctx.cols) (hx : x < ctx.cols)
    (h : Displays cfg ctx.rows ctx.cols (fun x' y' => S x' y' ∧ ¬ (x' = x ∧ y' = y)) fb cells) :
    Displays cfg ctx.rows ctx.cols (fun x' y' => S x' y' ∨ (x' = x ∧ y' = y))
      (cfg.plotted c x y fb) (cells.put c x y) := by
  intro x' y' gx gy hx' hy' hgx hgy hS
  rw [plotted_pixel hfits hx hx' hgx hgy, Cells.put]
  by_cases heq : x' = x ∧ y' = y
  · obtain ⟨rfl, rfl⟩ := heq
    simp only [and_self, if_true]
  · simp only [heq, or_false, if_false] at hS ⊢
    exact h x' y' gx gy hx' hy' hgx hgy ⟨hS, heq⟩

/-- `plot_char_fast` shows one over another one in the same colours. -/
theorem displays_plottedFast (hfits : cfg.Fits ctx.rows ctx.cols) (hx : x < ctx.cols)
    (h : Displays cfg ctx.rows ctx.cols S fb cells) {old : FbChar}
    (hold : S x y → cells x y = old) (hbg : c.bg = old.bg) (hfg : c.fg = old.fg) :
    Displays cfg ctx.rows ctx.cols S (cfg.plottedFast old c x y fb) (cells.put c x y) := by
  intro x' y' gx gy hx' hy' hgx hgy hS
  have hpixel := h x' y' gx gy hx' hy' hgx hgy hS
  rw [Cells.put]
  by_cases heq : x' = x ∧ y' = y
  · obtain ⟨rfl, rfl⟩ := heq
    rw [hold hS] at hpixel
    rw [if_pos ⟨rfl, rfl⟩, plottedFast_pixel hfits hx hgx hgy hfg hbg hpixel]
  · rw [if_neg heq, plottedFast_other hfits hx hx' hgx hgy heq]
    exact hpixel

theorem Displays.mono {S' : Nat → Nat → Prop} {cells' : Cells} {rows cols : Nat}
    (h : Displays cfg rows cols S fb cells)
    (himp : ∀ x y, x < cols → y < rows → S' x y → S x y ∧ cells' x y = cells x y) :
    Displays cfg rows cols S' fb cells' := by
  intro x y gx gy hx hy hgx hgy hS
  obtain ⟨hS, heq⟩ := himp x y hx hy hS
  rw [heq]
  exact h x y gx gy hx hy hgx hgy hS

/-- Where the cursor is not shown, the framebuffer shows the grid. -/
theorem Refines.flushing (h : Refines cfg base ctx.rows ctx.cols s₀ t)
    (hno : ∀ x y, x < ctx.cols → y < ctx.rows → ¬ AtCursor ctx s₀.toPen x y) :
    Flushing cfg base ctx s₀ t.cells 0 s₀ where
  pen := rfl
  oldCursorX := rfl
  oldCursorY := rfl
  queue := rfl
  queueI := rfl
  draining := h.buffers.coherent.draining
  view := h.buffers.view
  cursor x y hx hy hat := absurd hat (hno x y hx hy)
  displays := by
    refine h.displays.mono fun x y hx hy hstale => ⟨trivial, ?_⟩
    have hold : ¬ (x = s₀.oldCursorX ∧ y = s₀.oldCursorY) :=
      fun hold => hstale ⟨hold.1, hold.2, hno x y hx hy⟩
    rw [if_neg (hno x y hx hy), h.settled x y hx hy hold]
  margin := h.margin

/-- On the grid `draw_cursor` plots the cursor, and makes the write that waits there. -/
theorem drawCursor_eq (hfits : cfg.Fits ctx.rows ctx.cols) (hx : s.cursorX < ctx.cols)
    (hy : s.cursorY < ctx.rows) :
    drawCursor cfg ctx s = some
      { s with
        framebuffer := cfg.plotted
          (s.view FbQueueItem.c (s.cursorY * ctx.cols + s.cursorX)).inverse s.cursorX s.cursorY
          s.framebuffer
        toOverlay := s.settle FbQueueItem.c (s.cursorY * ctx.cols + s.cursorX) } := by
  have hchar : charAt ctx (s.cursorY * ctx.cols + s.cursorX) s =
      some (s.view FbQueueItem.c (s.cursorY * ctx.cols + s.cursorX)) := if_pos (index_lt hx hy)
  rw [drawCursor, if_neg (by omega), Nat.add_comm s.cursorX]
  simp only [hchar, plotChar_eq hfits hx hy, Option.bind_eq_bind, Option.bind_some]
  split
  · rename_i q hq
    rw [Overlay.settle, Overlay.view_of_some hq]
    rfl
  · rename_i hnone
    rw [Overlay.settle, Overlay.view_of_none hnone, Function.update_eq_self]
    rw [← hnone, Function.update_eq_self]
    rfl

/-- **The cursor** is plotted first. -/
theorem flushing_showCursor (hfits : cfg.Fits ctx.rows ctx.cols)
    (h : Refines cfg base ctx.rows ctx.cols s₀ t) :
    Yields (Flushing cfg base ctx s₀ t.cells 0) (showCursor cfg ctx s₀) := by
  rw [showCursor]
  by_cases henabled : ctx.cursorEnabled = true
  · rw [if_pos henabled]
    by_cases hin : s₀.cursorX < ctx.cols ∧ s₀.cursorY < ctx.rows
    · obtain ⟨hx, hy⟩ := hin
      have hindex : ∀ x y, x < ctx.cols → ¬ (x = s₀.cursorX ∧ y = s₀.cursorY) →
          y * ctx.cols + x ≠ s₀.cursorY * ctx.cols + s₀.cursorX := by
        intro x y hx' hne heq
        obtain ⟨hy', hx'⟩ := mul_add_inj hx' hx heq
        exact hne ⟨hx', hy'⟩
      rw [drawCursor_eq hfits hx hy, h.buffers.view _ _ hx hy]
      refine yields_some ⟨rfl, rfl, rfl, rfl, rfl, h.buffers.coherent.draining.settle _,
        fun x y hx' hy' => ?_, fun x y hx' hy' hat => ?_, ?_, fun a ha => ?_⟩
      · rw [← h.buffers.view x y hx' hy']
        exact Overlay.view_settle
      · obtain ⟨-, rfl, rfl⟩ := hat
        exact Function.update_self ..
      · refine (displays_plotted (S := fun _ _ => True) hfits hx
          (h.displays.mono fun x y _ _ _ => ⟨trivial, rfl⟩)).mono fun x y hx' hy' hstale => ?_
        refine ⟨.inl trivial, ?_⟩
        rw [Cells.put]
        by_cases hat : x = s₀.cursorX ∧ y = s₀.cursorY
        · rw [if_pos (show AtCursor ctx s₀.toPen x y from ⟨henabled, hat⟩), if_pos hat, hat.1, hat.2]
        · have hno : ¬ AtCursor ctx s₀.toPen x y := fun h => hat h.2
          rw [if_neg hno, if_neg hat, h.settled x y hx' hy' fun hold =>
            hstale ⟨hold.1, hold.2, hno⟩]
          exact Function.update_of_ne (hindex x y hx' hat) ..
      · exact (plotted_outside hfits hx hy ha).trans (h.margin a ha)
    · rw [drawCursor, if_pos (by omega)]
      refine yields_some (h.flushing fun x y hx hy hat => hin ?_)
      obtain ⟨-, rfl, rfl⟩ := hat
      exact ⟨hx, hy⟩
  · rw [if_neg henabled]
    exact yields_some (h.flushing fun x y _ _ hat => henabled hat.1)

/-- What is in the queue is plotted over what is in the grid. -/
theorem plotOver_eq (hfits : cfg.Fits ctx.rows ctx.cols) (hx : x < ctx.cols) (hy : y < ctx.rows)
    {old : FbChar} :
    (if c.bg = old.bg ∧ c.fg = old.fg then plotCharFast cfg ctx old c x y fb
      else plotChar cfg ctx c x y fb) =
    some (if c.bg = old.bg ∧ c.fg = old.fg then cfg.plottedFast old c x y fb
      else cfg.plotted c x y fb) := by
  split
  · exact plotCharFast_eq hfits hx hy
  · exact plotChar_eq hfits hx hy

/-- **A round** of the loop over the queue. -/
theorem flushItem_yields (hfits : cfg.Fits ctx.rows ctx.cols)
    (h₀ : Buffers ctx.rows ctx.cols s₀ cells) (hk : k < s₀.queueI)
    (h : Flushing cfg base ctx s₀ cells k s) :
    Yields (Flushing cfg base ctx s₀ cells (k + 1)) (flushItem cfg ctx s k) := by
  obtain ⟨hx, hy⟩ := h₀.items k hk
  have hroom := h₀.coherent.queueI_le
  have hinside := index_lt hx hy
  rw [← h.queue] at hx hy hinside
  rw [flushItem]
  dsimp only
  rw [if_neg (by omega)]
  split
  · -- the write has been made: the cursor is there
    rename_i hnone
    exact yields_some { h with draining := h.draining.skip hnone }
  · rename_i hsome
    have hmap : s.map ((s.queue k).y * ctx.cols + (s.queue k).x) = some k :=
      h.draining.map_key (h.queueI ▸ hk) hsome
    have hat : ¬ AtCursor ctx s₀.toPen (s.queue k).x (s.queue k).y :=
      fun hat => hsome (h.cursor _ _ hx hy hat)
    have hindex : ∀ x y, x < ctx.cols → ¬ (x = (s.queue k).x ∧ y = (s.queue k).y) →
        y * ctx.cols + x ≠ (s.queue k).y * ctx.cols + (s.queue k).x := by
      intro x y hx' hne heq
      obtain ⟨hy', hx'⟩ := mul_add_inj hx' hx heq
      exact hne ⟨hx', hy'⟩
    have hsettle : ({ s.toOverlay with
        grid := Function.update s.grid ((s.queue k).y * ctx.cols + (s.queue k).x) (s.queue k).c
        map := Function.update s.map ((s.queue k).y * ctx.cols + (s.queue k).x) none } :
          Overlay FbChar FbQueueItem) =
        s.settle FbQueueItem.c ((s.queue k).y * ctx.cols + (s.queue k).x) := by
      rw [Overlay.settle, Overlay.view_of_some hmap]
    have hshown : ∀ x y, x < ctx.cols → y < ctx.rows →
        (if AtCursor ctx s₀.toPen x y then (cells x y).inverse
          else Function.update s.grid ((s.queue k).y * ctx.cols + (s.queue k).x) (s.queue k).c
            (y * ctx.cols + x)) =
        Cells.put (fun x y => if AtCursor ctx s₀.toPen x y then (cells x y).inverse
          else s.grid (y * ctx.cols + x)) (s.queue k).c (s.queue k).x (s.queue k).y x y := by
      intro x y hx' _
      rw [Cells.put]
      by_cases heq : x = (s.queue k).x ∧ y = (s.queue k).y
      · obtain ⟨rfl, rfl⟩ := heq
        rw [if_neg hat, Function.update_self, if_pos ⟨rfl, rfl⟩]
      · rw [if_neg heq, Function.update_of_ne (hindex x y hx' heq)]
    rw [plotOver_eq hfits hx hy, Option.map_some]
    refine yields_some ⟨h.pen, h.oldCursorX, h.oldCursorY, h.queue, h.queueI, ?_,
      fun x y hx' hy' => ?_, fun x y hx' hy' hcursor => ?_, ?_, fun a ha => ?_⟩
    · have hdraining := @Overlay.Draining.settle _ _ _ FbQueueItem.c _ _ h.draining
        ((s.queue k).y * ctx.cols + (s.queue k).x)
      rw [← hsettle] at hdraining
      exact hdraining.skip (Function.update_self ..)
    · rw [← h.view x y hx' hy', ← @Overlay.view_settle _ _ FbQueueItem.c
        ((s.queue k).y * ctx.cols + (s.queue k).x) _ s.toOverlay, ← hsettle]
    · by_cases heq : x = (s.queue k).x ∧ y = (s.queue k).y
      · rw [heq.1, heq.2]
        exact Function.update_self ..
      · exact (Function.update_of_ne (hindex x y hx' heq) ..).trans (h.cursor x y hx' hy' hcursor)
    · split
      · rename_i hsame
        exact (displays_plottedFast hfits hx h.displays (fun _ => if_neg hat) hsame.1
          hsame.2).mono fun x y hx' hy' hS => ⟨hS, hshown x y hx' hy'⟩
      · exact (displays_plotted hfits hx
          (h.displays.mono fun x y _ _ hS => ⟨hS.1, rfl⟩)).mono fun x y hx' hy' hS =>
            ⟨.inl hS, hshown x y hx' hy'⟩
    · dsimp only
      split
      · exact (plottedFast_outside hfits hx hy ha).trans (h.margin a ha)
      · exact (plotted_outside hfits hx hy ha).trans (h.margin a ha)

/-- **The cell where the cursor was** is plotted again, unless the cursor is still to be seen
there. -/
theorem hideCursor_eq (hfits : cfg.Fits ctx.rows ctx.cols) (hs : Flushing cfg base ctx s₀ cells k s)
    (hgrid : ∀ x y, x < ctx.cols → y < ctx.rows → s.grid (y * ctx.cols + x) = cells x y) :
    ∃ f, hideCursor cfg ctx s = some { s with framebuffer := f } ∧
      (Displays cfg ctx.rows ctx.cols (fun _ _ => True) f fun x y =>
        if AtCursor ctx s₀.toPen x y then (cells x y).inverse else cells x y) ∧
      ∀ a, cfg.Margin ctx.rows ctx.cols a → f a = base a := by
  have hshown : Displays cfg ctx.rows ctx.cols (fun x y => ¬ Stale ctx s₀ x y) s.framebuffer
      fun x y => if AtCursor ctx s₀.toPen x y then (cells x y).inverse else cells x y := by
    refine hs.displays.mono fun x y hx hy hstale => ⟨hstale, ?_⟩
    rw [hgrid x y hx hy]
  rw [hideCursor]
  split
  · rename_i hmoved
    obtain ⟨hcond, hx, hy⟩ := hmoved
    rw [plotChar_eq hfits hx hy]
    refine ⟨_, rfl, ?_, fun a ha => (plotted_outside hfits hx hy ha).trans (hs.margin a ha)⟩
    refine (displays_plotted hfits hx (hshown.mono fun x y _ _ hS => ⟨hS.1, rfl⟩)).mono
      fun x y hx' hy' _ => ?_
    rw [Nat.add_comm s.oldCursorX, hgrid _ _ hx hy, Cells.put]
    by_cases hold : x = s.oldCursorX ∧ y = s.oldCursorY
    · refine ⟨.inr hold, ?_⟩
      rw [if_pos hold, ← hold.1, ← hold.2]
      refine if_neg fun hat => ?_
      obtain ⟨henabled, hx, hy⟩ := hat
      rw [← hs.pen] at hx hy
      rw [← hold.1, ← hold.2, hx, hy, henabled] at hcond
      simp only [ne_eq, not_true_eq_false, false_or, Bool.true_eq_false] at hcond
    · refine ⟨.inl fun hstale => hold ?_, (if_neg hold).symm⟩
      rw [hs.oldCursorX, hs.oldCursorY]
      exact ⟨hstale.1, hstale.2.1⟩
  · rename_i hstay
    refine ⟨_, rfl, hshown.mono fun x y hx hy _ => ⟨fun hstale => hstay ?_, rfl⟩, hs.margin⟩
    obtain ⟨rfl, rfl, hno⟩ := hstale
    rw [hs.oldCursorX, hs.oldCursorY]
    refine ⟨?_, hx, hy⟩
    by_contra hsame
    simp only [ne_eq, not_or, not_not, Bool.not_eq_false] at hsame
    rw [hs.pen] at hsame
    exact hno ⟨hsame.2.2, hsame.1, hsame.2.1⟩

/-- **The flush**: afterwards the framebuffer shows what has been written, and the queue is
empty. -/
theorem flush_yields (hfits : cfg.Fits ctx.rows ctx.cols)
    (h : Refines cfg base ctx.rows ctx.cols s₀ t) :
    Yields (fun s => Refines cfg base ctx.rows ctx.cols s (t.flush ctx))
      (flantermFbDoubleBufferFlush cfg ctx s₀) := by
  refine (flushing_showCursor hfits h).bind fun s₁ hstart => ?_
  have hloop := yields_up (f := flushItem cfg ctx) (P := Flushing cfg base ctx s₀ t.cells) 0
    s₁.queueI hstart fun k s _ hk hs =>
      flushItem_yields hfits h.buffers (by have := hstart.queueI; omega) hs
  refine hloop.bind fun s hs => ?_
  rw [Nat.zero_add, hstart.queueI, ← hs.queueI] at hs
  have hdone := fun i => @Overlay.Draining.view_eq _ _ _ FbQueueItem.c _ hs.draining i
  have hgrid : ∀ x y, x < ctx.cols → y < ctx.rows → s.grid (y * ctx.cols + x) = t.cells x y :=
    fun x y hx hy => (hdone _).2.symm.trans (hs.view x y hx hy)
  obtain ⟨f, hf, hdisplays, hmargin⟩ := hideCursor_eq hfits hs hgrid
  have hpen : s.toPen = t.toPen := hs.pen.trans h.pen
  rw [hf, Option.bind_eq_bind, Option.bind_some]
  rw [h.pen] at hdisplays
  refine yields_some ⟨hpen, ⟨?_, ?_, ?_⟩, ?_, hdisplays, hmargin⟩
  · exact Overlay.coherent_empty rfl fun i => (hdone i).1
  · intro q hq
    exact absurd hq (Nat.not_lt_zero q)
  · intro x y hx hy
    exact (Overlay.view_of_none (o := { s.toOverlay with queueI := 0 }) (hdone _).1).trans
      (hgrid x y hx hy)
  · intro x y hx hy hno
    refine (if_neg fun hat => hno ?_).trans (hgrid x y hx hy).symm
    rw [hpen]
    exact hat.2

end Flush

end FrazzOS.Flanterm
