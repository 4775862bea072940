import FrazzOS.Flanterm.Terminal

/-!
# Flanterm — Pieces

How a text is cut into writes.  Between two writes there is a flush, and the screen of it is neither
read nor changed by what comes afterwards.

* `screenCall_shown`: every call but a flush leaves what is to be seen, and does not depend on it.
* `writes_text`: many writes change what has been written as one write of the whole text does.
-/

namespace FrazzOS.Flanterm

open Faults

/-- The screen, where something else is to be seen. -/
def Screen.showing (cells : Cells) (s : Screen) : Screen := { s with shown := cells }

/-- The screen without what is to be seen. -/
def Screen.text (s : Screen) : Pen × Cells := (s.toPen, s.cells)

/-- The terminal without what is to be seen. -/
def Terminal.text (u : Terminal Screen) : Context × Pen × Cells := (u.ctx, u.state.text)

section Frame

variable {cfg : FbConfig} {ctx : Context} {k : Call} {s s' : Screen} (cells : Cells)

theorem moveCharacter_shown (newX newY oldX oldY : Nat) (s : Screen) :
    (s.showing cells).moveCharacter ctx newX newY oldX oldY =
      (s.moveCharacter ctx newX newY oldX oldY).showing cells := by
  unfold Screen.moveCharacter
  split
  · rfl
  · rfl

theorem wrapLine_shown (s : Screen) :
    (s.showing cells).wrapLine ctx = (s.wrapLine ctx).showing cells := by
  unfold Screen.wrapLine Screen.showing
  split
  · rfl
  · rfl

theorem nextLine_shown (s : Screen) :
    (s.showing cells).nextLine ctx = (s.nextLine ctx).showing cells := by
  have hwrap := @wrapLine_shown ctx cells { s with cursorX := 0, cursorY := s.cursorY + 1 }
  have hend := congrArg (fun v : Screen => { v with toPen := clampLine ctx v.toPen }) hwrap
  by_cases h : s.cursorX ≥ ctx.cols ∧
      (s.cursorY < sub64 ctx.scrollBottomMargin 1 ∨ ctx.scrollEnabled = true)
  · rw [Screen.nextLine, Screen.nextLine, if_pos h]
    exact (if_pos h).trans hend
  · rw [Screen.nextLine, Screen.nextLine, if_neg h]
    exact if_neg h

theorem rawPutchar_shown (c : BitVec 8) (s : Screen) :
    (s.showing cells).rawPutchar ctx c = (s.rawPutchar ctx c).showing cells := by
  unfold Screen.rawPutchar
  rw [nextLine_shown]
  rfl

/-- **A call but a flush** leaves what is to be seen, and does not depend on it. -/
theorem screenCall_shown (hk : k ≠ .doubleBufferFlush) (s : Screen) :
    screenCall cfg ctx k (s.showing cells) = (screenCall cfg ctx k s).map (Screen.showing cells) := by
  have hpen : ∀ k : Call, (do return { s.showing cells with toPen := ← penCall cfg ctx k s.toPen }) =
      Option.map (Screen.showing cells)
        (do return { s with toPen := ← penCall cfg ctx k s.toPen }) := by
    intro k
    cases penCall cfg ctx k s.toPen with
    | none => rfl
    | some p => rfl
  cases k with
  | rawPutchar c => exact congrArg some (rawPutchar_shown cells c s)
  | clear move => cases move with
    | false => rfl
    | true => rfl
  | moveCharacter newX newY oldX oldY =>
      exact congrArg some (moveCharacter_shown cells newX newY oldX oldY s)
  | scroll => rfl
  | revscroll => rfl
  | doubleBufferFlush => exact absurd rfl hk
  | _ => exact hpen _

theorem exists_showing (h : s.text = s'.text) : ∃ cells, s = s'.showing cells := by
  refine ⟨s.shown, ?_⟩
  cases s
  cases s'
  cases h
  rfl

/-- A call changes what has been written by what has been written. -/
theorem screenCall_text (cfg : FbConfig) (ctx : Context) (k : Call) (h : s.text = s'.text) :
    (screenCall cfg ctx k s).map Screen.text = (screenCall cfg ctx k s').map Screen.text := by
  obtain ⟨cells, rfl⟩ := exists_showing h
  by_cases hk : k = .doubleBufferFlush
  · subst hk
    rfl
  · rw [screenCall_shown _ hk, Option.map_map]
    rfl

end Frame

section Pieces

variable {cfg : FbConfig} {beyond : Nat → BitVec 32} {u u' : Terminal Screen}

/-- A byte changes what has been written by what has been written. -/
theorem putchar_text (cfg : FbConfig) (beyond : Nat → BitVec 32) (c : BitVec 8)
    (u u' : Terminal Screen) (h : u.text = u'.text) :
    ((screenBackend cfg).putchar beyond u c).map Terminal.text =
      ((screenBackend cfg).putchar beyond u' c).map Terminal.text := by
  obtain ⟨ctx, s⟩ := u
  obtain ⟨ctx', s'⟩ := u'
  obtain ⟨rfl, hs⟩ : ctx = ctx' ∧ s.text = s'.text := Prod.ext_iff.mp h
  have hout : (screenBackend cfg).out beyond ⟨ctx, s⟩ c =
      (screenBackend cfg).out beyond ⟨ctx, s'⟩ c :=
    Backend.out_congr (congrArg Prod.fst hs) beyond c
  rw [Backend.putchar, Backend.putchar, hout]
  refine map_bind_congr (p := id) rfl ?_
  rintro o _ rfl
  have hperform := map_foldlM_congr (fun p _ _ => screenCall_text cfg p.1 p.2) o.calls hs
  exact map_bind_congr hperform fun v v' hv => congrArg (fun x => some (o.ctx, x)) hv

/-- A write changes what has been written as its bytes do. -/
theorem flantermWrite_text (buf : List (BitVec 8)) (h : u.text = u'.text) :
    ((screenBackend cfg).flantermWrite beyond u buf).map Terminal.text =
      (buf.foldlM ((screenBackend cfg).putchar beyond) u').map Terminal.text := by
  rw [Backend.flantermWrite, ← map_foldlM_congr (putchar_text cfg beyond) buf h]
  cases buf.foldlM ((screenBackend cfg).putchar beyond) u with
  | none => rfl
  | some u₁ =>
      rw [Option.bind_eq_bind, Option.bind_some]
      split
      · rfl
      · rfl

/-- **The writes** change what has been written as one write of all their bytes does. -/
theorem writes_text (bufs : List (List (BitVec 8))) (h : u.text = u'.text) :
    ((screenBackend cfg).writes beyond u bufs).map Terminal.text =
      (bufs.flatten.foldlM ((screenBackend cfg).putchar beyond) u').map Terminal.text := by
  induction bufs generalizing u u' with
  | nil => exact congrArg some h
  | cons buf bufs ih =>
      rw [Backend.writes, List.foldlM_cons, List.flatten_cons, List.foldlM_append]
      exact map_bind_congr (flantermWrite_text buf h) fun _ _ => ih

theorem text_eq_of_writes {bufs : List (List (BitVec 8))} {u₀ : Terminal Screen}
    (hu : (screenBackend cfg).writes beyond u₀ bufs = some u)
    (hu' : (screenBackend cfg).flantermWrite beyond u₀ bufs.flatten = some u') :
    u.text = u'.text := by
  have hmany := @writes_text cfg beyond u₀ u₀ bufs rfl
  have hone := @flantermWrite_text cfg beyond u₀ u₀ bufs.flatten rfl
  rw [hu, ← hone, hu'] at hmany
  exact Option.some.inj hmany

/-- What has been written, and flushed, is all of the terminal. -/
theorem Flushed.ext (h : Flushed u) (h' : Flushed u') (htext : u.text = u'.text) : u = u' := by
  obtain ⟨ctx, s⟩ := u
  obtain ⟨ctx', s'⟩ := u'
  obtain ⟨rfl, hs⟩ : ctx = ctx' ∧ s.text = s'.text := Prod.ext_iff.mp htext
  obtain ⟨cells, rfl⟩ := exists_showing hs
  have hflush : (s'.showing cells).flush ctx = s'.flush ctx := rfl
  rw [show s'.showing cells = s' from h.trans (hflush.trans h'.symm)]

end Pieces

end FrazzOS.Flanterm
