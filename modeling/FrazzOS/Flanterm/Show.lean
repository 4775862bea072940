import FrazzOS.Flanterm.Init

/-!
# Flanterm — Show

The terminal from `flanterm_fb_init` on, over all that may be written to it.

* `writes_show`: for every stream of bytes, in writes of any length, no access goes outside of an
  array, and after each write the framebuffer shows the screen: each pixel of each cell is that of
  the character which has been written there, exchanged at the cursor, and the rest is the canvas.
* `writes_flatten`: how the stream is cut into writes makes no difference to a pixel.
-/

namespace FrazzOS.Flanterm

open Faults

/-- The client sets `ctx->callback`. -/
def Terminal.withCallback {S : Type} (callback : Bool) (t : Terminal S) : Terminal S :=
  { t with ctx.callback := callback }

/-- The framebuffer shows the characters of the screen, with the colours exchanged at the cursor,
and the canvas around them; `fb` is what was in it before. -/
structure Pictures (cfg : FbConfig) (fb : Nat → BitVec 32) (t : Terminal FbContext)
    (u : Terminal Screen) : Prop where
  ctx : t.ctx = u.ctx
  pen : t.state.toPen = u.state.toPen
  cells : ∀ x y gx gy, x < u.ctx.cols → y < u.ctx.rows → gx < cfg.glyphWidth →
    gy < cfg.glyphHeight → t.state.framebuffer (cfg.pixel x y gx gy) =
      cfg.render (if AtCursor u.ctx u.state.toPen x y then (u.state.cells x y).inverse
        else u.state.cells x y) x y gx gy
  margin : ∀ a, cfg.Margin u.ctx.rows u.ctx.cols a → t.state.framebuffer a = cfg.backdrop fb a

section Shows

variable {cfg : FbConfig} {base : Nat → BitVec 32} {rows cols : Nat} {beyond : Nat → BitVec 32}
  {t : Terminal FbContext} {u : Terminal Screen}

theorem Agree.withCallback (h : Agree cfg base rows cols t u) (callback : Bool) :
    Agree cfg base rows cols (t.withCallback callback) (u.withCallback callback) :=
  ⟨congrArg (fun ctx : Context => { ctx with callback := callback }) h.ctx, { h.ok with }, h.refines⟩

/-- What has been flushed is in the pixels. -/
theorem Agree.pictures {fb : Nat → BitVec 32} (h : Agree cfg (cfg.backdrop fb) rows cols t u)
    (hflushed : Flushed u) : Pictures cfg fb t u := by
  obtain rfl := h.ok.rows_eq
  obtain rfl := h.ok.cols_eq
  have hshown : u.state.shown = (u.state.flush u.ctx).shown := congrArg Screen.shown hflushed
  refine ⟨h.ctx, h.refines.pen, fun x y gx gy hx hy hgx hgy => ?_, h.refines.margin⟩
  rw [h.refines.displays x y gx gy hx hy hgx hgy trivial, hshown]
  rfl

/-- **Writes** to a terminal that shows the screen leave one that shows it. -/
theorem writes_flushed (hfits : cfg.Fits rows cols) (h : Agree cfg base rows cols t u)
    (hflushed : Flushed u) (bufs : List (List (BitVec 8))) :
    Yields (fun u' => Yields (fun t' => Agree cfg base rows cols t' u' ∧ Flushed u')
        ((fbBackend cfg).writes beyond t bufs))
      ((screenBackend cfg).writes beyond u bufs) := by
  refine yields_simulation (R := fun t u => Agree cfg base rows cols t u ∧ Flushed u) ⟨h, hflushed⟩
    fun buf _ t u h => ?_
  refine (flantermWrite_yields hfits h.1 buf).mono fun u' hu' => ?_
  exact hu'.2.mono fun t' ht' => ⟨ht', hu'.1⟩

/-- Two backends that show one screen have one framebuffer. -/
theorem Refines.framebuffer_eq {s s' : FbContext} {v v' : Screen}
    (h : Refines cfg base rows cols s v) (h' : Refines cfg base rows cols s' v')
    (hshown : v.shown = v'.shown) : s.framebuffer = s'.framebuffer := by
  funext a
  by_cases ha : cfg.Margin rows cols a
  · rw [h.margin a ha, h'.margin a ha]
  · simp only [FbConfig.Margin, not_forall, not_not] at ha
    obtain ⟨x, y, gx, gy, hx, hy, hgx, hgy, rfl⟩ := ha
    rw [h.displays x y gx gy hx hy hgx hgy trivial, h'.displays x y gx gy hx hy hgx hgy trivial,
      hshown]

end Shows

section Runs

variable {builtin : Nat → BitVec 8} {a : FbInit}

/-- **The terminal shows what is written to it**, whatever that is, and goes outside of no array. -/
theorem writes_show (h : a.Ready builtin) (bools : Nat → Bool) (beyond : Nat → BitVec 32)
    (callback : Bool) (bufs : List (List (BitVec 8))) :
    ∃ cfg t₀ t u, flantermFbInit builtin bools a = some (cfg, t₀) ∧
      (fbBackend cfg).writes beyond (t₀.withCallback callback) bufs = some t ∧
      (screenBackend cfg).writes beyond
        ((blankTerminal cfg t₀.ctx.rows t₀.ctx.cols).withCallback callback) bufs = some u ∧
      Pictures cfg a.framebuffer t u := by
  obtain ⟨⟨cfg, t₀⟩, hinit, hfits, hagree, -⟩ := flantermFbInit_yields h bools
  obtain ⟨u, hu, t, ht, hshows, hflushed⟩ := @writes_flushed _ _ _ _ beyond _ _ hfits
    (hagree.withCallback callback) rfl bufs
  exact ⟨cfg, t₀, t, u, hinit, ht, hu, hshows.pictures hflushed⟩

theorem writes_show_letters : ∃ cfg t₀ t u,
    flantermFbInit (fun _ => 0) (fun _ => false) (simpleInit (fun _ => 0) 18 16 72) =
      some (cfg, t₀) ∧
    (fbBackend cfg).writes (fun _ => 0) (t₀.withCallback false) [[65], [66, 67]] = some t ∧
    (screenBackend cfg).writes (fun _ => 0)
      ((blankTerminal cfg t₀.ctx.rows t₀.ctx.cols).withCallback false) [[65], [66, 67]] = some u ∧
    Pictures cfg (fun _ => 0) t u :=
  writes_show (ready_simpleInit (by decide) (by decide) (by decide) (by decide) (by decide))
    (fun _ => false) (fun _ => 0) false [[65], [66, 67]]

/-- **How it is cut into writes** makes no difference. -/
theorem writes_flatten (h : a.Ready builtin) (bools : Nat → Bool) (beyond : Nat → BitVec 32)
    (callback : Bool) (bufs : List (List (BitVec 8))) :
    ∃ cfg t₀ t t', flantermFbInit builtin bools a = some (cfg, t₀) ∧
      (fbBackend cfg).writes beyond (t₀.withCallback callback) bufs = some t ∧
      (fbBackend cfg).flantermWrite beyond (t₀.withCallback callback) bufs.flatten = some t' ∧
      t.ctx = t'.ctx ∧ t.state.toPen = t'.state.toPen ∧
      t.state.framebuffer = t'.state.framebuffer := by
  obtain ⟨⟨cfg, t₀⟩, hinit, hfits, hagree, -⟩ := flantermFbInit_yields h bools
  have hstart := hagree.withCallback callback
  obtain ⟨u, hu, t, ht, hshows, hflushed⟩ := @writes_flushed _ _ _ _ beyond _ _ hfits hstart rfl bufs
  obtain ⟨u', hu', hflushed', t', ht', hshows'⟩ := @flantermWrite_yields _ _ _ _ beyond _ _ hfits
    hstart bufs.flatten
  obtain rfl : u = u' := hflushed.ext hflushed' (text_eq_of_writes hu hu')
  exact ⟨cfg, t₀, t, t', hinit, ht, ht', hshows.ctx.trans hshows'.ctx.symm,
    hshows.refines.pen.trans hshows'.refines.pen.symm,
    hshows.refines.framebuffer_eq hshows'.refines rfl⟩

theorem writes_flatten_letters : ∃ cfg t₀ t t',
    flantermFbInit (fun _ => 0) (fun _ => false) (simpleInit (fun _ => 0) 18 16 72) =
      some (cfg, t₀) ∧
    (fbBackend cfg).writes (fun _ => 0) (t₀.withCallback false) [[65], [66, 67]] = some t ∧
    (fbBackend cfg).flantermWrite (fun _ => 0) (t₀.withCallback false) [65, 66, 67] = some t' ∧
    t.ctx = t'.ctx ∧ t.state.toPen = t'.state.toPen ∧
    t.state.framebuffer = t'.state.framebuffer :=
  writes_flatten (ready_simpleInit (by decide) (by decide) (by decide) (by decide) (by decide))
    (fun _ => false) (fun _ => 0) false [[65], [66, 67]]

end Runs

end FrazzOS.Flanterm
