import FrazzOS.Flanterm.Context

/-!
# Flanterm — Sgr

What a byte has the terminal do, and the function `sgr` of `flanterm.c`, which sets the colours.

The parser never reads back what the backend does, but for the cursor, before it makes any call: so
what it does for a byte is an `Out`, the context and the calls in their order, each with the context
it is made in.

* `Out.Good`: the context is in order, and so is every call; `Out.Good.emit` is the rule for a call.
* `good_sgr`: `sgr` keeps it, for all values.
* `sgrLoop_congr`: what lies behind `col256` is read for an indexed colour above 255 only.
-/

namespace FrazzOS.Flanterm

/-- The context, and the calls made so far. -/
structure Out where
  ctx : Context
  calls : List (Context × Call)

/-- A call through a function pointer. -/
def Out.emit (k : Call) (o : Out) : Out := { o with calls := o.calls ++ [(o.ctx, k)] }

/-- The context is in order, and the calls are legal. -/
structure Out.Good (rows cols : Nat) (o : Out) : Prop where
  ok : o.ctx.Ok rows cols
  calls : ∀ p ∈ o.calls, p.1.Frame rows cols ∧ p.2.Legal

/-- `col256`. -/
def col256 : Vector (BitVec 32) 240 := #v[
  0x000000, 0x00005f, 0x000087, 0x0000af, 0x0000d7, 0x0000ff, 0x005f00, 0x005f5f,
  0x005f87, 0x005faf, 0x005fd7, 0x005fff, 0x008700, 0x00875f, 0x008787, 0x0087af,
  0x0087d7, 0x0087ff, 0x00af00, 0x00af5f, 0x00af87, 0x00afaf, 0x00afd7, 0x00afff,
  0x00d700, 0x00d75f, 0x00d787, 0x00d7af, 0x00d7d7, 0x00d7ff, 0x00ff00, 0x00ff5f,
  0x00ff87, 0x00ffaf, 0x00ffd7, 0x00ffff, 0x5f0000, 0x5f005f, 0x5f0087, 0x5f00af,
  0x5f00d7, 0x5f00ff, 0x5f5f00, 0x5f5f5f, 0x5f5f87, 0x5f5faf, 0x5f5fd7, 0x5f5fff,
  0x5f8700, 0x5f875f, 0x5f8787, 0x5f87af, 0x5f87d7, 0x5f87ff, 0x5faf00, 0x5faf5f,
  0x5faf87, 0x5fafaf, 0x5fafd7, 0x5fafff, 0x5fd700, 0x5fd75f, 0x5fd787, 0x5fd7af,
  0x5fd7d7, 0x5fd7ff, 0x5fff00, 0x5fff5f, 0x5fff87, 0x5fffaf, 0x5fffd7, 0x5fffff,
  0x870000, 0x87005f, 0x870087, 0x8700af, 0x8700d7, 0x8700ff, 0x875f00, 0x875f5f,
  0x875f87, 0x875faf, 0x875fd7, 0x875fff, 0x878700, 0x87875f, 0x878787, 0x8787af,
  0x8787d7, 0x8787ff, 0x87af00, 0x87af5f, 0x87af87, 0x87afaf, 0x87afd7, 0x87afff,
  0x87d700, 0x87d75f, 0x87d787, 0x87d7af, 0x87d7d7, 0x87d7ff, 0x87ff00, 0x87ff5f,
  0x87ff87, 0x87ffaf, 0x87ffd7, 0x87ffff, 0xaf0000, 0xaf005f, 0xaf0087, 0xaf00af,
  0xaf00d7, 0xaf00ff, 0xaf5f00, 0xaf5f5f, 0xaf5f87, 0xaf5faf, 0xaf5fd7, 0xaf5fff,
  0xaf8700, 0xaf875f, 0xaf8787, 0xaf87af, 0xaf87d7, 0xaf87ff, 0xafaf00, 0xafaf5f,
  0xafaf87, 0xafafaf, 0xafafd7, 0xafafff, 0xafd700, 0xafd75f, 0xafd787, 0xafd7af,
  0xafd7d7, 0xafd7ff, 0xafff00, 0xafff5f, 0xafff87, 0xafffaf, 0xafffd7, 0xafffff,
  0xd70000, 0xd7005f, 0xd70087, 0xd700af, 0xd700d7, 0xd700ff, 0xd75f00, 0xd75f5f,
  0xd75f87, 0xd75faf, 0xd75fd7, 0xd75fff, 0xd78700, 0xd7875f, 0xd78787, 0xd787af,
  0xd787d7, 0xd787ff, 0xd7af00, 0xd7af5f, 0xd7af87, 0xd7afaf, 0xd7afd7, 0xd7afff,
  0xd7d700, 0xd7d75f, 0xd7d787, 0xd7d7af, 0xd7d7d7, 0xd7d7ff, 0xd7ff00, 0xd7ff5f,
  0xd7ff87, 0xd7ffaf, 0xd7ffd7, 0xd7ffff, 0xff0000, 0xff005f, 0xff0087, 0xff00af,
  0xff00d7, 0xff00ff, 0xff5f00, 0xff5f5f, 0xff5f87, 0xff5faf, 0xff5fd7, 0xff5fff,
  0xff8700, 0xff875f, 0xff8787, 0xff87af, 0xff87d7, 0xff87ff, 0xffaf00, 0xffaf5f,
  0xffaf87, 0xffafaf, 0xffafd7, 0xffafff, 0xffd700, 0xffd75f, 0xffd787, 0xffd7af,
  0xffd7d7, 0xffd7ff, 0xffff00, 0xffff5f, 0xffff87, 0xffffaf, 0xffffd7, 0xffffff,
  0x080808, 0x121212, 0x1c1c1c, 0x262626, 0x303030, 0x3a3a3a, 0x444444, 0x4e4e4e,
  0x585858, 0x626262, 0x6c6c6c, 0x767676, 0x808080, 0x8a8a8a, 0x949494, 0x9e9e9e,
  0xa8a8a8, 0xb2b2b2, 0xbcbcbc, 0xc6c6c6, 0xd0d0d0, 0xdadada, 0xe4e4e4, 0xeeeeee]

/-- `col256[i]`; `beyond` is what lies behind the table. -/
def col256At (beyond : Nat → BitVec 32) (i : Nat) : BitVec 32 := col256[i]?.getD (beyond i)

/-- The call that sets the colour `c` of the text, or its default one: of the foreground if `fg` is
set. -/
def colourCall (fg bright : Bool) (c : Option Nat) : Call :=
  match c, fg, bright with
  | some n, true, true => .setTextFgBright n
  | some n, true, false => .setTextFg n
  | some n, false, true => .setTextBgBright n
  | some n, false, false => .setTextBg n
  | none, true, true => .setTextFgDefaultBright
  | none, true, false => .setTextFgDefault
  | none, false, true => .setTextBgDefaultBright
  | none, false, false => .setTextBgDefault

/-- The label `set_fg` of `sgr`. -/
def setFg (ctx : Context) (n : Nat) : Call :=
  colourCall true ((ctx.bold && !ctx.reverseVideo) || (ctx.bgBold && ctx.reverseVideo)) (some n)

/-- The label `set_bg` of `sgr`. -/
def setBg (ctx : Context) (n : Nat) : Call :=
  colourCall false ((ctx.bold && ctx.reverseVideo) || (ctx.bgBold && !ctx.reverseVideo)) (some n)

/-- The label `def` of `sgr`. -/
def sgrReset (o : Out) : Out :=
  let o := if o.ctx.reverseVideo then { o with ctx.reverseVideo := false }.emit .swapPalette else o
  let o := { o with
    ctx.bold := false
    ctx.bgBold := false
    ctx.currentPrimary := none
    ctx.currentBg := none }
  (o.emit .setTextBgDefault).emit .setTextFgDefault

/-- `39` and `49`: a default colour, with the palette swapped around it in reverse video. -/
def sgrDefault (k : Call) (o : Out) : Out :=
  if o.ctx.reverseVideo then ((o.emit .swapPalette).emit k).emit .swapPalette else o.emit k

/-- A value of `sgr`, but for `38` and `48`. -/
def sgrValue (v : Nat) (o : Out) : Out :=
  if v = 0 then sgrReset o
  else if v = 1 then
    { o with ctx.bold := true }.emit (colourCall (!o.ctx.reverseVideo) true o.ctx.currentPrimary)
  else if v = 5 then
    { o with ctx.bgBold := true }.emit (colourCall o.ctx.reverseVideo true o.ctx.currentBg)
  else if v = 22 then
    { o with ctx.bold := false }.emit (colourCall (!o.ctx.reverseVideo) false o.ctx.currentPrimary)
  else if v = 25 then
    { o with ctx.bgBold := false }.emit (colourCall o.ctx.reverseVideo false o.ctx.currentBg)
  else if 30 ≤ v ∧ v ≤ 37 then
    { o with ctx.currentPrimary := some (v - 30) }.emit
      (if o.ctx.reverseVideo then setBg o.ctx (v - 30) else setFg o.ctx (v - 30))
  else if 40 ≤ v ∧ v ≤ 47 then
    { o with ctx.currentBg := some (v - 40) }.emit
      (if o.ctx.reverseVideo then setFg o.ctx (v - 40) else setBg o.ctx (v - 40))
  else if 90 ≤ v ∧ v ≤ 97 then
    { o with ctx.currentPrimary := some (v - 90) }.emit
      (colourCall (!o.ctx.reverseVideo) true (some (v - 90)))
  else if 100 ≤ v ∧ v ≤ 107 then
    { o with ctx.currentBg := some (v - 100) }.emit
      (colourCall o.ctx.reverseVideo true (some (v - 100)))
  else if v = 39 then
    sgrDefault (colourCall true o.ctx.bold none) { o with ctx.currentPrimary := none }
  else if v = 49 then
    sgrDefault (colourCall false o.ctx.bgBold none) { o with ctx.currentBg := none }
  else if v = 7 then
    if o.ctx.reverseVideo then o else { o with ctx.reverseVideo := true }.emit .swapPalette
  else if v = 27 then
    if o.ctx.reverseVideo then { o with ctx.reverseVideo := false }.emit .swapPalette else o
  else o

/-- `38;2;r;g;b` and `48;2;r;g;b`. -/
def rgbCall (fg : Bool) (r g b : BitVec 32) : Call :=
  let rgb := r <<< 16 ||| g <<< 8 ||| b
  if fg then .setTextFgRgb rgb else .setTextBgRgb rgb

/-- `38;5;col` and `48;5;col`. -/
def indexedCall (beyond : Nat → BitVec 32) (fg : Bool) (col : Nat) : Call :=
  if col < 8 then colourCall fg false (some col)
  else if col < 16 then colourCall fg true (some (col - 8))
  else
    let rgb := col256At beyond (col - 16)
    if fg then .setTextFgRgb rgb else .setTextBgRgb rgb

/-- The loop of `sgr`, over the values that are left. -/
def sgrLoop (beyond : Nat → BitVec 32) : List (BitVec 32) → Out → Out
  | [], o => o
  | v :: vs, o =>
    if v = 38 ∨ v = 48 then
      match vs with
      | [] => o
      | w :: vs =>
        if w = 2 then
          match vs with
          | r :: g :: b :: vs => sgrLoop beyond vs (o.emit (rgbCall (v = 38) r g b))
          | _ => o
        else if w = 5 then
          match vs with
          | col :: vs => sgrLoop beyond vs (o.emit (indexedCall beyond (v = 38) col.toNat))
          | [] => o
        else sgrLoop beyond vs o
    else sgrLoop beyond vs (sgrValue v.toNat o)

/-- The values that have been read: the first `esc_values_i` ones. -/
def Context.params (ctx : Context) : Option (List (BitVec 32)) :=
  if ctx.escValuesI ≤ 16 then some (ctx.escValues.toList.take ctx.escValuesI) else none

/-- `sgr`. -/
def sgr (beyond : Nat → BitVec 32) (o : Out) : Option Out := do
  let vs ← o.ctx.params
  return if o.ctx.escValuesI = 0 then sgrReset o else sgrLoop beyond vs o

section Good

variable {rows cols : Nat} {o : Out} {k : Call} {ctx : Context}

/-- **The rule for a call.** -/
theorem Out.Good.emit (h : o.Good rows cols) (hk : k.Legal) : (o.emit k).Good rows cols := by
  refine ⟨h.ok, fun p hp => ?_⟩
  rw [Out.emit, List.mem_append, List.mem_singleton] at hp
  rcases hp with hp | rfl
  · exact h.calls p hp
  · exact ⟨h.ok.toFrame, hk⟩

/-- The rule for a change of the context. -/
theorem Out.Good.withCtx (h : o.Good rows cols) (hok : ctx.Ok rows cols) :
    Out.Good rows cols { o with ctx := ctx } :=
  ⟨hok, h.calls⟩

theorem legal_colourCall {fg bright : Bool} {c : Option Nat} (hc : Colour c) :
    (colourCall fg bright c).Legal := by
  cases c with
  | none => cases fg <;> cases bright <;> trivial
  | some n => cases fg <;> cases bright <;> exact hc n rfl

theorem good_ite {c : Prop} [Decidable c] {o' : Out} (h : c → o.Good rows cols)
    (h' : ¬ c → o'.Good rows cols) : (if c then o else o').Good rows cols := by
  split
  · exact h ‹c›
  · exact h' ‹¬ c›

theorem good_sgrReset (h : o.Good rows cols) : (sgrReset o).Good rows cols := by
  have hdefault : ∀ o : Out, o.Good rows cols →
      ((({ o with
        ctx.bold := false
        ctx.bgBold := false
        ctx.currentPrimary := none
        ctx.currentBg := none } : Out).emit .setTextBgDefault).emit .setTextFgDefault).Good
        rows cols := by
    intro o h
    refine Out.Good.emit (Out.Good.emit (h.withCtx ?_) trivial) trivial
    exact { h.ok with primary := colour_none, bg := colour_none }
  refine hdefault _ (good_ite (fun _ => ?_) fun _ => h)
  exact Out.Good.emit (h.withCtx { h.ok with }) trivial

theorem good_sgrDefault (h : o.Good rows cols) (hk : k.Legal) :
    (sgrDefault k o).Good rows cols := by
  refine good_ite (fun _ => ?_) fun _ => h.emit hk
  exact Out.Good.emit (Out.Good.emit (Out.Good.emit h trivial) hk) trivial

/-- A value from `lo` to `lo + 7` names a colour. -/
theorem colour_sub {v lo hi : Nat} (h : lo ≤ v ∧ v ≤ hi) (hhi : hi = lo + 7) :
    Colour (some (v - lo)) :=
  colour_some (by omega)

/-- **A value** of `sgr`. -/
theorem good_sgrValue (h : o.Good rows cols) (v : Nat) : (sgrValue v o).Good rows cols := by
  refine good_ite (fun _ => good_sgrReset h) fun _ => ?_
  refine good_ite (fun _ => Out.Good.emit (h.withCtx { h.ok with })
    (legal_colourCall h.ok.primary)) fun _ => ?_
  refine good_ite (fun _ => Out.Good.emit (h.withCtx { h.ok with })
    (legal_colourCall h.ok.bg)) fun _ => ?_
  refine good_ite (fun _ => Out.Good.emit (h.withCtx { h.ok with })
    (legal_colourCall h.ok.primary)) fun _ => ?_
  refine good_ite (fun _ => Out.Good.emit (h.withCtx { h.ok with })
    (legal_colourCall h.ok.bg)) fun _ => ?_
  refine good_ite (fun hv => ?_) fun _ => ?_
  · refine Out.Good.emit (h.withCtx { h.ok with primary := colour_sub hv rfl }) ?_
    split <;> exact legal_colourCall (colour_sub hv rfl)
  refine good_ite (fun hv => ?_) fun _ => ?_
  · refine Out.Good.emit (h.withCtx { h.ok with bg := colour_sub hv rfl }) ?_
    split <;> exact legal_colourCall (colour_sub hv rfl)
  refine good_ite (fun hv => Out.Good.emit (h.withCtx { h.ok with primary := colour_sub hv rfl })
    (legal_colourCall (colour_sub hv rfl))) fun _ => ?_
  refine good_ite (fun hv => Out.Good.emit (h.withCtx { h.ok with bg := colour_sub hv rfl })
    (legal_colourCall (colour_sub hv rfl))) fun _ => ?_
  refine good_ite (fun _ => good_sgrDefault (h.withCtx { h.ok with primary := colour_none })
    (legal_colourCall colour_none)) fun _ => ?_
  refine good_ite (fun _ => good_sgrDefault (h.withCtx { h.ok with bg := colour_none })
    (legal_colourCall colour_none)) fun _ => ?_
  refine good_ite (fun _ => good_ite (fun _ => h) fun _ =>
    Out.Good.emit (h.withCtx { h.ok with }) trivial) fun _ => ?_
  exact good_ite (fun _ => good_ite (fun _ => Out.Good.emit (h.withCtx { h.ok with }) trivial)
    fun _ => h) fun _ => h

theorem legal_rgbCall (fg : Bool) (r g b : BitVec 32) : (rgbCall fg r g b).Legal := by
  cases fg <;> trivial

theorem legal_indexedCall (beyond : Nat → BitVec 32) (fg : Bool) (col : Nat) :
    (indexedCall beyond fg col).Legal := by
  unfold indexedCall
  split
  · exact legal_colourCall (colour_some (by omega))
  split
  · exact legal_colourCall (colour_some (by omega))
  · cases fg <;> trivial

theorem good_sgrLoop (beyond : Nat → BitVec 32) (vs : List (BitVec 32)) (h : o.Good rows cols) :
    (sgrLoop beyond vs o).Good rows cols := by
  fun_induction sgrLoop beyond vs o with
  | case1 | case2 | case4 | case6 => exact h
  | case3 _ _ _ r g b _ ih => exact ih (h.emit (legal_rgbCall _ r g b))
  | case5 _ _ _ col _ _ ih => exact ih (h.emit (legal_indexedCall beyond _ col.toNat))
  | case7 _ _ _ _ _ _ _ ih => exact ih h
  | case8 v _ _ _ ih => exact ih (good_sgrValue h v.toNat)

/-- **`sgr`** faults on no values, and leaves a context and calls that are in order. -/
theorem good_sgr (beyond : Nat → BitVec 32) (h : o.Good rows cols) :
    ∃ o', sgr beyond o = some o' ∧ o'.Good rows cols := by
  rw [sgr, Context.params, if_pos h.ok.escValuesI_le]
  exact ⟨_, rfl, good_ite (fun _ => good_sgrReset h) fun _ => good_sgrLoop beyond _ h⟩

end Good

/-- The entry of a colour below 256 is in the table. -/
theorem indexedCall_congr (beyond beyond' : Nat → BitVec 32) (fg : Bool) {col : Nat}
    (h : col < 256) : indexedCall beyond fg col = indexedCall beyond' fg col := by
  have hin : col - 16 < 240 := by omega
  rw [indexedCall, indexedCall, col256At, col256At, Vector.getElem?_eq_getElem hin]
  rfl

/-- What lies behind `col256` does not matter where no value is above 255. -/
theorem sgrLoop_congr (beyond beyond' : Nat → BitVec 32) (vs : List (BitVec 32)) (o : Out)
    (h : ∀ v ∈ vs, v.toNat < 256) : sgrLoop beyond vs o = sgrLoop beyond' vs o := by
  fun_induction sgrLoop beyond vs o with
  | case1 => rfl
  | case2 v o hv => simp only [sgrLoop.eq_def beyond' [v], if_pos hv]
  | case3 v o hv r g b vs ih =>
      simp only [sgrLoop.eq_def beyond' (v :: _), if_pos hv, if_true]
      exact ih fun w hw => h w (by simp only [List.mem_cons, hw, or_true])
  | case4 v o hv vs hno => simp only [sgrLoop.eq_def beyond' (v :: _), if_pos hv, if_true]
  | case5 v o hv col vs h5 ih =>
      have hcol := h col (by simp only [List.mem_cons, or_true, true_or])
      simp only [sgrLoop.eq_def beyond' (v :: _), if_pos hv, if_neg h5, if_true,
        indexedCall_congr beyond' beyond _ hcol]
      exact ih fun w hw => h w (by simp only [List.mem_cons, hw, or_true])
  | case6 v o hv h5 => simp only [sgrLoop.eq_def beyond' (v :: _), if_pos hv, if_neg h5, if_true]
  | case7 v o hv w vs h2 h5 ih =>
      simp only [sgrLoop.eq_def beyond' (v :: _), if_pos hv, if_neg h2, if_neg h5]
      exact ih fun u hu => h u (by simp only [List.mem_cons, hu, or_true])
  | case8 v vs o hv ih =>
      simp only [sgrLoop.eq_def beyond' (v :: _), if_neg hv]
      exact ih fun w hw => h w (List.mem_cons_of_mem v hw)

end FrazzOS.Flanterm
